import Flagship.Lib.Bytes

namespace Flagship.Control
open Lib

/-- The code units of a string. -/
def codeUnits (s : Text) : List Nat :=
  s.flatMap fun c =>
    if c.toNat < 0x10000 then [c.toNat]
    else [0xD800 + (c.toNat - 0x10000) / 0x400,0xDC00 + (c.toNat - 0x10000) % 0x400]

def hexDigit (u : Nat) : Option Nat :=
  if 48 ≤ u ∧ u ≤ 57 then some (u - 48)
  else if 97 ≤ u ∧ u ≤ 102 then some (u - 87)
  else if 65 ≤ u ∧ u ≤ 70 then some (u - 55)
  else none

/-- White space `parseInt` skips. -/
def skipped (u : Nat) : Bool :=
  [0x09,0x0A,0x0B,0x0C,0x0D,0x20,0xA0,0x1680,0x2028,0x2029,0x202F,0x205F,0x3000,0xFEFF].contains u ||
    decide (0x2000 ≤ u ∧ u ≤ 0x200A)

/-- The byte an array keeps of `parseInt` of two code units, base 16. What is no
number is kept as zero. -/
def parseByte (a b : Nat) : UInt8 :=
  let second := (hexDigit b).getD 0
  match hexDigit a with
  | some high => match hexDigit b with
    | some low => UInt8.ofNat (16 * high + low)
    | none => UInt8.ofNat high
  | none =>
    if skipped a || a == 43 then UInt8.ofNat second
    else if a = 45 then UInt8.ofNat (256 - second)
    else 0

def parseBytes : List Nat → Option Bytes
  | [] => some []
  | [_] => none
  | a :: b :: rest => (parseBytes rest).map (parseByte a b :: ·)

/-- Only an odd length is refused. -/
def hexToBytes (s : Text) : Option Bytes := parseBytes (codeUnits s)

/-- SQL's `lower`, which folds ASCII only. -/
def sqlLower (s : Text) : Text := s.map Char.toLower

/-- A string that is there and not empty. -/
def present (s : Option Text) : Option Text := s.filter (fun t => !t.isEmpty)

/-- The patterns `HEX64` and `HEX128`, by their length. -/
def lowerHexDigits (n : Nat) (s : Text) : Bool :=
  decide (s.length = n) && s.all fun c => c.isDigit || decide ('a' ≤ c ∧ c ≤ 'f')

/-- Comparison up to letter case, of strings of one length. -/
def equalHex [Lowercase] (a b : Text) : Bool :=
  decide ((codeUnits a).length = (codeUnits b).length) && toLowercase a == toLowercase b

/-- A row of `servers`. -/
structure ServerRecord where
  username : Text
  identityPubKeyHex : Text
  registeredAt : Int
  revokedAt : Option Int
  revocationReason : Option String
  deriving DecidableEq

/-- What the handlers take for revoked. A time of zero counts as none. -/
def ServerRecord.revoked (r : ServerRecord) : Bool := r.revokedAt.any (· != 0)

/-- The table `servers`, by domain. -/
abbrev Directory := Text → Option ServerRecord

/-- The upsert also clears a revocation. -/
def Directory.put (dir : Directory) (domain username identityPubKeyHex : Text)
    (registeredAt : Int) : Directory :=
  Function.update dir domain (some ⟨username,identityPubKeyHex,registeredAt,none,none⟩)

def Directory.revoke (dir : Directory) (domain : Text) (reason : String) (time : Int) :
    Directory :=
  Function.update dir domain ((dir domain).map fun r =>
    { r with revokedAt := some time,revocationReason := some reason })

/-- How a storage call goes. -/
inductive Outcome
  | goes
  /-- The call throws, without effect. -/
  | fails
  /-- The request stops for good before the call. -/
  | stops
  deriving DecidableEq

end Flagship.Control

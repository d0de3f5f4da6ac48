import Flagship.Lib.OrdMap
import Flagship.Access.Orders

namespace Flagship.Gate
open Lib Access

/-- A character `trim` takes off. -/
def whiteSpace (c : Char) : Bool :=
  (decide (0x09 ≤ c.toNat) && decide (c.toNat ≤ 0x0d)) || c.toNat == 0x20 || c.toNat == 0x85 ||
    c.toNat == 0xa0 || c.toNat == 0x1680 || (decide (0x2000 ≤ c.toNat) && decide (c.toNat ≤ 0x200a)) ||
    c.toNat == 0x2028 || c.toNat == 0x2029 || c.toNat == 0x202f || c.toNat == 0x205f ||
    c.toNat == 0x3000

def trim (s : Text) : Text := ((s.dropWhile whiteSpace).reverse.dropWhile whiteSpace).reverse

/-- `to_ascii_uppercase`. -/
def asciiUpper (s : Text) : Text := s.map Char.toUpper

/-- `split_once` at a text. -/
def splitOnceAt (sep : Text) : Text → Option (Text × Text)
  | [] => if sep = [] then some ([],[]) else none
  | c :: s =>
    if sep <+: c :: s then some ([],(c :: s).drop sep.length)
    else (splitOnceAt sep s).map fun p => (c :: p.1,p.2)

/-- `rsplit_once`: the text before the last separator and the one after it. -/
def splitLast (sep : Char) (s : Text) : Option (Text × Text) :=
  (splitOnce sep s.reverse).map fun p => (p.2.reverse,p.1.reverse)

def asciiGraphic (c : Char) : Bool := decide (0x21 ≤ c.toNat ∧ c.toNat ≤ 0x7e)

/-- Host and port of an authority; an IPv6 literal keeps its brackets. -/
def hostAndPort (authority : Text) : Option (Text × Option Text) :=
  match authority with
  | '[' :: after =>
    match splitOnce ']' after with
    | none => none
    | some (inside,[]) => some ('[' :: inside ++ [']'],none)
    | some (inside,':' :: port) => some ('[' :: inside ++ [']'],some port)
    | some (_,_ :: _) => none
  | _ =>
    match splitLast ':' authority with
    | some (host,port) => some (host,some port)
    | none => some (authority,none)

/-- The port, if it is written and not the scheme's own. -/
def portOf (defaultPort : Nat) : Option Text → Option (Option Nat)
  | none => some none
  | some [] => some none
  | some p =>
    if 5 < p.length ∨ p.all Char.isDigit = false then none
    else
      let n := Nat.ofDigitChars 10 p 0
      if 65535 < n then none else some (if n = defaultPort then none else some n)

def schemePort (scheme : Text) : Option Nat :=
  if scheme = "https".toList then some 443 else if scheme = "http".toList then some 80 else none

/-- The origin of an `http(s)` URL, or none: anything not plainly understood is
another origin. -/
def normalizeOrigin (raw : Text) : Option Text := do
  let (scheme,rest) ← splitOnceAt "://".toList (trim raw)
  let scheme := asciiLower scheme
  let defaultPort ← schemePort scheme
  let authority := rest.takeWhile (fun c => c != '/' && c != '?' && c != '#')
  if authority.any (fun c => c == '\\' || c == '@') ∨ authority.all asciiGraphic = false ∨
      authority = [] then none
  else
    let (host,port) ← hostAndPort authority
    if host = [] ∨ host = "[]".toList then none
    else if host.head? ≠ some '[' ∧ host.any (fun c => c == ':' || c == '[' || c == ']') then none
    else
      let port ← portOf defaultPort port
      let origin := scheme ++ "://".toList ++ asciiLower host
      match port with
      | some n => some (origin ++ ':' :: Nat.toDigits 10 n)
      | none => some origin

def safeMethods : List Text := ["GET".toList,"HEAD".toList,"OPTIONS".toList]

/-- An unsafe method or an upgrade from another origin; no signal at all counts
as the same origin. -/
def isCrossOriginUnsafe (method : Text) (upgrade : Bool) (headers : OrdMap Text Text)
    (routedHost : Text) : Bool :=
  if upgrade = false ∧ asciiUpper method ∈ safeMethods then false
  else
    let own := normalizeOrigin ("https://".toList ++ trim routedHost)
    let differs := fun v => own.isNone || decide (normalizeOrigin v ≠ own)
    let present := fun (k : String) => (headers.get? k.toList).filter (fun v => !v.isEmpty)
    match present "origin" with
    | some origin => differs origin
    | none =>
      match present "sec-fetch-site" with
      | some site =>
        let v := asciiLower (trim site)
        decide (v ≠ "same-origin".toList ∧ v ≠ "none".toList)
      | none =>
        match present "referer" with
        | some referer => differs referer
        | none => false

end Flagship.Gate

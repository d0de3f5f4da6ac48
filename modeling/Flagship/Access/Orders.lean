import Flagship.Lib.Text

namespace Flagship.Access
open Lib

/-- Strict Ed25519 over a canonical text; signature and key in lowercase hex. -/
class Ed25519 where
  verifyStrict : Text → Text → Text → Bool

def maxSafeInteger : Nat := 9007199254740991

def lowerHexDigit (c : Char) : Bool := c.isDigit || decide ('a' ≤ c ∧ c ≤ 'f')

def hexDigit (c : Char) : Bool := lowerHexDigit c || decide ('A' ≤ c ∧ c ≤ 'F')

def lowerHex (s : Text) (n : Nat) : Bool := decide (s.length = n) && s.all lowerHexDigit

def anyHex (s : Text) (n : Nat) : Bool := decide (s.length = n) && s.all hexDigit

/-- `to_ascii_lowercase`. -/
def asciiLower (s : Text) : Text := s.map Char.toLower

/-- Malformed input is simply not verified. -/
def verify [Ed25519] (canonical signature key : Text) : Bool :=
  lowerHex (asciiLower signature) 128 && lowerHex (asciiLower key) 64 &&
    Ed25519.verifyStrict canonical (asciiLower signature) (asciiLower key)

/-- `strip_prefix`. -/
def afterHead (s head : Text) : Option Text :=
  if head <+: s then some (s.drop head.length) else none

/-- `split_once`: the text before the first separator and the one after it. -/
def splitOnce (sep : Char) (s : Text) : Option (Text × Text) :=
  match s.dropWhile (fun c => c != sep) with
  | [] => none
  | _ :: rest => some (s.takeWhile (fun c => c != sep),rest)

/-- No separator, no control character. -/
def fieldText (s : Text) : Bool :=
  s.all (fun c => c != '|' && decide (0x1f < c.toNat) && decide (c.toNat ≠ 0x7f))

/-- A field of a v1 canonical message; bytes stand as their lowercase hex. -/
inductive Field
  | text (s : Text)
  | uint (n : Nat)
  | hex (s : Text)
  | flag01 (b : Bool)

def Field.render : Field → Option Text
  | .text s => if fieldText s then some s else none
  | .uint n => if n ≤ maxSafeInteger then some (Nat.toDigits 10 n) else none
  | .hex s => some s
  | .flag01 b => some (if b then ['1'] else ['0'])

/-- `tag|field|field|...`; none where a field could be read two ways. -/
def canonicalV1 (tag : String) (fields : List Field) : Option Text :=
  (fields.mapM Field.render).map (fun parts => parts.foldl (fun acc p => acc ++ '|' :: p) tag.toList)

/-- `^[a-z0-9](?:[a-z0-9-]{0,126}[a-z0-9])?$`. -/
def serviceRefOk (s : Text) : Bool :=
  let alnum := fun c : Char => c.isDigit || c.isLower
  decide (s.length ≤ 128) && s.head?.any alnum && s.getLast?.any alnum &&
    s.all (fun c => alnum c || c == '-')

/-- `^[A-Za-z0-9._-]{1,128}$`. -/
def inviteIdOk (s : Text) : Bool :=
  !s.isEmpty && decide (s.length ≤ 128) &&
    s.all (fun c => c.isAlphanum || c == '.' || c == '_' || c == '-')

inductive AppRankTarget
  | device (pubHex : Text)
  | share (shareId : Text)
  | aid (aid : Text)
  | invite (inviteId : Text)
  | grant (inviteId aid : Text)
  deriving DecidableEq

def parseAppRankTarget (t : Text) : Option AppRankTarget :=
  match afterHead t "device:".toList with
  | some h => if lowerHex h 64 then some (.device h) else none
  | none =>
  match afterHead t "share:".toList with
  | some h => if lowerHex h 32 then some (.share h) else none
  | none =>
  match afterHead t "aid:".toList with
  | some h => if lowerHex h 64 then some (.aid h) else none
  | none =>
  match afterHead t "invite:".toList with
  | some h => if inviteIdOk h then some (.invite h) else none
  | none => do
    let rest ← afterHead t "grant:".toList
    let (invite,aid) ← splitOnce '/' rest
    if inviteIdOk invite && lowerHex aid 64 then some (.grant invite aid) else none

structure AppRankOrder where
  serviceRef : Text
  target : Text
  rank : Text
  issuedAt : Nat
  deriving DecidableEq

/-- Only a device or a co-manager can be refused. -/
def appRankCanonical (o : AppRankOrder) : Option Text :=
  if serviceRefOk o.serviceRef = false then none else
  match parseAppRankTarget o.target with
  | none => none
  | some target =>
    if o.rank ∉ ["member".toList,"manager".toList,"master".toList,"refused".toList] then none
    else if o.rank = "refused".toList ∧
        (match target with | .device _ | .share _ => false | _ => true) = true then none
    else if maxSafeInteger < o.issuedAt then none
    else canonicalV1 "flagship/app-rank/v1" [.text o.serviceRef,.text o.target,.text o.rank,
      .uint o.issuedAt]

structure ServiceAccessModeOrder where
  serviceRef : Text
  mode : Text
  issuedAt : Nat
  deriving DecidableEq

def serviceAccessModeCanonical (o : ServiceAccessModeOrder) : Option Text :=
  if serviceRefOk o.serviceRef = false ∨ (o.mode ≠ "open".toList ∧ o.mode ≠ "restricted".toList) ∨
      maxSafeInteger < o.issuedAt then none
  else canonicalV1 "flagship/service-access-mode/v2" [.text o.serviceRef,.text o.mode,
    .uint o.issuedAt]

structure ServiceAllowRemoveOrder where
  serviceRef : Text
  aid : Text
  issuedAt : Nat
  deriving DecidableEq

def serviceAllowRemoveCanonical (o : ServiceAllowRemoveOrder) : Option Text :=
  if serviceRefOk o.serviceRef = false ∨ lowerHex o.aid 64 = false ∨
      maxSafeInteger < o.issuedAt then none
  else canonicalV1 "flagship/service-allow-remove/v2" [.text o.serviceRef,.text o.aid,
    .uint o.issuedAt]

/-- `none` in `maxRedemptions` is a single-use invite, `some 0` an unlimited one. -/
structure CreateServiceInvite where
  inviteId : Text
  authorAid : Text
  serviceRef : Text
  secretHash : Text
  encryptedBundle : Text
  issuedAt : Nat
  maxRedemptions : Option Nat
  expiresAt : Option Nat
  deriving DecidableEq

def createCanonical (c : CreateServiceInvite) : Option Text :=
  if c.maxRedemptions.any (fun n => decide (maxSafeInteger < n)) ||
      c.expiresAt.any (fun n => decide (maxSafeInteger < n)) then none
  else
    let tail := fun (name : String) (n : Option Nat) =>
      n.toList.map (fun n => Field.text (name.toList ++ Nat.toDigits 10 n))
    canonicalV1 "flagship/service-invite/create/v1"
      ([.text c.inviteId,.hex c.authorAid,.text c.serviceRef,.text c.secretHash,
        .text c.encryptedBundle,.uint c.issuedAt] ++ tail "maxN=" c.maxRedemptions ++
        tail "exp=" c.expiresAt)

structure RedeemServiceInvite where
  secretHash : Text
  visitorAid : Text
  redeemedAt : Nat
  deriving DecidableEq

def redeemCanonical (r : RedeemServiceInvite) : Option Text :=
  canonicalV1 "flagship/service-invite/redeem/v1" [.text r.secretHash,.hex r.visitorAid,
    .uint r.redeemedAt]

structure AcceptServiceInvite where
  inviteId : Text
  serviceRef : Text
  contactAid : Text
  acceptedAt : Nat
  deriving DecidableEq

def acceptCanonical (a : AcceptServiceInvite) : Option Text :=
  canonicalV1 "flagship/service-invite/accept/v1" [.text a.inviteId,.text a.serviceRef,
    .hex a.contactAid,.uint a.acceptedAt]

structure RevokeServiceInvite where
  inviteId : Text
  issuedAt : Nat
  deriving DecidableEq

def revokeInviteCanonical (r : RevokeServiceInvite) : Option Text :=
  canonicalV1 "flagship/service-invite/revoke/v1" [.text r.inviteId,.uint r.issuedAt]

/-- A label the owner may name a member. The edges are those `trim` removes in
either port. -/
def labelOk (raw : Text) : Bool :=
  let edge := fun c : Char => c.isWhitespace || decide (c.toNat ∈ [0x85,0xa0,0x1680,0x2028,0x2029,
    0x202f,0x205f,0x3000,0xfeff] ∨ (0x2000 ≤ c.toNat ∧ c.toNat ≤ 0x200a) ∨ c.toNat ∈ [0xb,0xc])
  !raw.isEmpty && decide (raw.length ≤ 64) && !raw.head?.any edge && !raw.getLast?.any edge &&
    fieldText raw

structure ServerShareGrant where
  serverDomain : Text
  shareId : Text
  memberPubHex : Text
  level : Text
  unlockAtBoot : Bool
  seeAppData : Bool
  label : Text
  issuedAt : Nat
  deriving DecidableEq

def shareGrantCanonical (g : ServerShareGrant) : Option Text :=
  if g.serverDomain.isEmpty ∨ lowerHex g.shareId 32 = false ∨ lowerHex g.memberPubHex 64 = false ∨
      (g.level ≠ "view".toList ∧ g.level ≠ "manage".toList) ∨ labelOk g.label = false then none
  else canonicalV1 "flagship/server-share/v1" [.text g.serverDomain,.text g.shareId,
    .text g.memberPubHex,.text g.level,.flag01 g.unlockAtBoot,.flag01 g.seeAppData,.text g.label,
    .uint g.issuedAt]

structure ServerShareRevoke where
  serverDomain : Text
  shareId : Text
  issuedAt : Nat
  deriving DecidableEq

def shareRevokeCanonical (r : ServerShareRevoke) : Option Text :=
  if r.serverDomain.isEmpty ∨ lowerHex r.shareId 32 = false then none
  else canonicalV1 "flagship/server-share-revoke/v1" [.text r.serverDomain,.text r.shareId,
    .uint r.issuedAt]

structure ServerShareLeave where
  serverDomain : Text
  shareId : Text
  memberPubHex : Text
  issuedAt : Nat
  deriving DecidableEq

def shareLeaveCanonical (l : ServerShareLeave) : Option Text :=
  if l.serverDomain.isEmpty ∨ lowerHex l.shareId 32 = false ∨
      lowerHex l.memberPubHex 64 = false then none
  else canonicalV1 "flagship/server-share-leave/v1" [.text l.serverDomain,.text l.shareId,
    .text l.memberPubHex,.uint l.issuedAt]

section
variable [Ed25519]

/-- A message with no canonical form does not verify. -/
def verifyCanonical (canonical : Option Text) (signature key : Text) : Bool :=
  canonical.any (fun c => verify c signature key)

def verifyAppRank (o : AppRankOrder) := verifyCanonical (appRankCanonical o)
def verifyServiceAccessMode (o : ServiceAccessModeOrder) :=
  verifyCanonical (serviceAccessModeCanonical o)
def verifyServiceAllowRemove (o : ServiceAllowRemoveOrder) :=
  verifyCanonical (serviceAllowRemoveCanonical o)
def verifyCreate (c : CreateServiceInvite) := verifyCanonical (createCanonical c)
def verifyRedeem (r : RedeemServiceInvite) := verifyCanonical (redeemCanonical r)
def verifyAccept (a : AcceptServiceInvite) := verifyCanonical (acceptCanonical a)
def verifyInviteRevoke (r : RevokeServiceInvite) := verifyCanonical (revokeInviteCanonical r)
def verifyShareGrant (g : ServerShareGrant) := verifyCanonical (shareGrantCanonical g)
def verifyShareRevoke (r : ServerShareRevoke) := verifyCanonical (shareRevokeCanonical r)
def verifyShareLeave (l : ServerShareLeave) := verifyCanonical (shareLeaveCanonical l)

end
end Flagship.Access

import Flagship.Relay.Names

namespace Flagship.Mesh
open Lib Relay

/-- `u64` arithmetic that stops at the top. -/
def saturatingAdd (a b : Nat) : Nat := min (a + b) (2 ^ 64 - 1)

/-- The largest integer every port carries exactly. -/
def maxSafeInteger : Nat := 2 ^ 53 - 1

/-- The digest of a text, in lowercase hex. -/
class Sha256 where
  sha256Hex : Text → Text

/-- `^[a-z0-9](?:[a-z0-9-]{0,61}[a-z0-9])?$`; stricter than the allocator's. -/
def labelOk (s : Text) : Bool :=
  s.head?.any lowerAlnum && s.getLast?.any lowerAlnum && decide (s.length ≤ 63) &&
    s.all (fun c => lowerAlnum c || c == '-')

/-- `^[a-z][a-z0-9-]{1,30}$`. -/
def isRelayId (s : Text) : Bool :=
  decide (2 ≤ s.length ∧ s.length ≤ 31) && s.head?.any Char.isLower &&
    s.all (fun c => lowerAlnum c || c == '-')

/-- Lowercase DNS labels, at least `minLabels` of them. -/
def hostLabels (s : Text) (minLabels : Nat) : Bool :=
  !s.isEmpty && decide (s.length ≤ 253) && decide (minLabels ≤ (s.splitOn '.').length) &&
    (s.splitOn '.').all labelOk

def isServicesApex (s : Text) : Bool :=
  !s.isEmpty && decide (s.length ≤ 200) && decide (2 ≤ (s.splitOn '.').length) &&
    (s.splitOn '.').all labelOk

/-- `<server>.<user>.<apex>`: exactly two labels under the apex. -/
def isPodName (fqdn apex : Text) : Bool :=
  isServicesApex apex &&
    match stripApex fqdn apex with
    | none => false
    | some head => (head.splitOn '.').length == 2 && (head.splitOn '.').all labelOk

def accountOfPodName (fqdn apex : Text) : Option Text :=
  if isPodName fqdn apex then (fqdn.splitOn '.')[1]? else none

/-- The hash a name has in the log; printable ASCII without `|` only. -/
def nameHash [Sha256] (fqdn : Text) : Option Text :=
  if fqdn = [] ∨ 253 < fqdn.length ∨
      fqdn.all (fun c => decide (0x21 ≤ c.toNat ∧ c.toNat ≤ 0x7e) && c != '|') = false then none
  else some (Sha256.sha256Hex ("flagship/relay-name/v1|".toList ++ fqdn.map Char.toLower))

def hex64 (s : Text) : Bool :=
  decide (s.length = 64) && s.all (fun c => c.isDigit || decide ('a' ≤ c ∧ c ≤ 'f'))

/-- A box's name served at a relay, as the box or a `full` relay signs it. -/
structure BoxAttachment where
  serverFqdn : Text
  boxPub : Text
  regGen : Nat
  relayId : Text
  attachedAt : Nat
  issuedAt : Nat
  notAfter : Nat
  deriving DecidableEq

inductive AttachmentKind
  | box | legacy
  deriving DecidableEq

structure AttachmentItem where
  kind : AttachmentKind
  attachment : BoxAttachment
  signature : Text
  deriving DecidableEq

/-- The fields an attachment must have to have a canonical form at all. -/
def attachmentShape (a : BoxAttachment) : Bool :=
  hostLabels a.serverFqdn 1 && hex64 a.boxPub && decide (1 ≤ a.regGen) && isRelayId a.relayId &&
    decide (a.attachedAt ≤ a.issuedAt) && decide (a.issuedAt < a.notAfter) &&
    [a.regGen,a.attachedAt,a.issuedAt,a.notAfter].all (fun n => decide (n ≤ maxSafeInteger))

def kindRank : AttachmentKind → Nat
  | .box => 1
  | .legacy => 0

/-- `gt` when `a` wins: higher registration generation; box beats legacy; the
newer tunnel; later issued; smaller relay id. -/
def compareAttachments (a b : AttachmentItem) : Ordering :=
  (cmp a.attachment.regGen b.attachment.regGen).then
    ((cmp (kindRank a.kind) (kindRank b.kind)).then
      ((cmp a.attachment.attachedAt b.attachment.attachedAt).then
        ((cmp a.attachment.issuedAt b.attachment.issuedAt).then
          (cmp b.attachment.relayId a.attachment.relayId))))

/-- The grant a ledger relay signs for the relay holding the phone. -/
structure PhoneRouteGrant where
  hostname : Text
  phoneRoutePub : Text
  generation : Nat
  holderRelayId : Text
  ledgerRelayId : Text
  issuedAt : Nat
  notAfter : Nat
  deriving DecidableEq

/-- The fields a grant must have to have a canonical form at all. -/
def phoneRouteGrantShape (g : PhoneRouteGrant) : Bool :=
  hostLabels g.hostname 3 && hex64 g.phoneRoutePub && decide (1 ≤ g.generation) &&
    isRelayId g.holderRelayId && isRelayId g.ledgerRelayId && decide (g.issuedAt < g.notAfter) &&
    [g.generation,g.issuedAt,g.notAfter].all (fun n => decide (n ≤ maxSafeInteger))

/-- The phone's own claim to a route. -/
structure RouteClaim where
  account : Text
  phoneRoutePub : Text
  hostname : Text
  generation : Nat
  sessionNonce : Text
  issuedAt : Nat
  deriving DecidableEq

structure PhoneItemGrant where
  grantId : Text
  username : Text
  deviceId : Text
  devicePubHex : Text
  scopes : List Text
  issuedAt : Nat
  expiresAt : Nat
  signatureHex : Text
  signerRoot : Text
  deriving DecidableEq

structure PhoneItem where
  grant : PhoneRouteGrant
  signature : Text
  claim : RouteClaim
  claimSignature : Text
  grants : List PhoneItemGrant
  deriving DecidableEq

/-- `gt` when `a` wins: higher generation, later issued, smaller holder id. -/
def comparePhoneItems (a b : PhoneItem) : Ordering :=
  (cmp a.grant.generation b.grant.generation).then
    ((cmp a.grant.issuedAt b.grant.issuedAt).then
      (cmp b.grant.holderRelayId a.grant.holderRelayId))

inductive SubjectKind
  | box | phone
  deriving DecidableEq

def SubjectKind.name : SubjectKind → Text
  | .box => "box".toList
  | .phone => "phone".toList

structure RelayWithdraw where
  subjectKind : SubjectKind
  subject : Text
  relayId : Text
  withdrawnIssuedAt : Nat
  «at» : Nat
  deriving DecidableEq

def withdrawShape (w : RelayWithdraw) : Bool :=
  hostLabels w.subject 1 && isRelayId w.relayId &&
    [w.withdrawnIssuedAt,w.at].all (fun n => decide (n ≤ maxSafeInteger))

/-- Does a checked withdrawal remove this attachment? -/
def withdrawCoversBox (w : RelayWithdraw) (a : AttachmentItem) : Bool :=
  decide (w.subjectKind = .box ∧ a.attachment.serverFqdn = w.subject ∧
    a.attachment.relayId = w.relayId ∧ a.attachment.issuedAt ≤ w.withdrawnIssuedAt)

/-- Does a checked withdrawal remove this phone item? -/
def withdrawCoversPhone (w : RelayWithdraw) (p : PhoneItem) : Bool :=
  decide (w.subjectKind = .phone ∧ p.grant.hostname = w.subject ∧
    p.grant.holderRelayId = w.relayId ∧ p.grant.issuedAt ≤ w.withdrawnIssuedAt)

end Flagship.Mesh

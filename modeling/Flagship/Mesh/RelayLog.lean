import Mathlib.Data.List.Sort
import Flagship.Lib.Lists
import Flagship.Mesh.Items
import Flagship.Access.StateFile

namespace Flagship.Mesh
open Lib
open Access (Ed25519 canonicalV1 Field lowerHex)

/-- One log row. The kind stays text, so that a malformed row can be represented. -/
structure RelayLogEntry where
  sequence : Nat
  kind : Text
  «at» : Nat
  f1 : Text
  f2 : Text
  f3 : Text
  f4 : Text
  deriving DecidableEq

inductive RelayLogBody
  | boxRegister (nameHash boxPub : Text) (regGen : Nat)
  | boxRevoke (boxPub : Text) (regGen : Nat)
  | accountAuthority (accountHash : Text) (adminRootPub : Option Text) (irkPub : Text)
      (authorityGen : Nat)
  | policyHead (boxPub : Text) (regGen policyGen : Nat) (policySha256 : Text)
  | renewalKeyRevoke (renewalPub : Text)
  | deviceGrantRevoke (grantId devicePub : Text)
  | certRevoke (accountHash certId : Text)
  | relayRevoke (relayId relayKey : Text)
  deriving DecidableEq

/-- A field out of shape; the message names it. -/
def bad {α : Type} (name why : String) : Except String α := .error (name ++ " " ++ why)

/-- A field test, with the message it fails with. -/
def ensure (ok : Bool) (name why : String) : Except String Unit :=
  if ok then .ok () else bad name why

def hex64Field (name : String) (s : Text) : Except String Unit :=
  ensure (hex64 s) name "must be lowercase hex of the right length"

def emptyField (name : String) (s : Text) : Except String Unit :=
  ensure s.isEmpty name "must be empty"

def apexField (name : String) (s : Text) : Except String Unit :=
  ensure (isServicesApex s) name "must be a lowercase services apex"

/-- `^(?:0|[1-9][0-9]{0,15})$`, a safe integer of at least `least`. -/
def decimal (name : String) (v : Text) (least : Nat) : Except String Nat :=
  let n := Nat.ofDigitChars 10 v 0
  if decide (1 ≤ v.length ∧ v.length ≤ 16) && v.all Char.isDigit &&
      (decide (v.length = 1) || v.head? != some '0') && decide (least ≤ n ∧ n ≤ maxSafeInteger) then
    .ok n
  else bad name "must be a decimal integer in range"

/-- A compressed P-256 key in lowercase hex. -/
def p256Pub (s : Text) : Bool :=
  lowerHex s 66 && decide (['0','2'] <+: s ∨ ['0','3'] <+: s)

/-- `[0-9a-f][0-9a-f-]{0,63}`. -/
def relayLogGrantIdOk (s : Text) : Bool :=
  decide (s.length ≤ 64) && s.head?.any (fun c => c != '-') &&
    s.all (fun c => Access.lowerHexDigit c || c == '-')

/-- Validate an entry and read its fields. -/
def parseRelayLogEntry (e : RelayLogEntry) : Except String RelayLogBody := do
  if e.sequence < 1 then bad "sequence" "must be ≥ 1"
  else if maxSafeInteger < e.sequence ∨ maxSafeInteger < e.at then
    bad "sequence" "must be a safe integer"
  else if e.kind = "box-register".toList then
    hex64Field "f1 nameHash" e.f1
    hex64Field "f2 boxPub" e.f2
    emptyField "f4" e.f4
    return .boxRegister e.f1 e.f2 (← decimal "f3 regGen" e.f3 1)
  else if e.kind = "box-revoke".toList then
    hex64Field "f1 boxPub" e.f1
    emptyField "f3" e.f3
    emptyField "f4" e.f4
    return .boxRevoke e.f1 (← decimal "f2 regGen" e.f2 1)
  else if e.kind = "account-authority".toList then
    hex64Field "f1 accountHash" e.f1
    if e.f2 ≠ [] then hex64Field "f2 adminRootPub" e.f2
    hex64Field "f3 irkPub" e.f3
    return .accountAuthority e.f1 (if e.f2 = [] then none else some e.f2) e.f3
      (← decimal "f4 authorityGen" e.f4 1)
  else if e.kind = "policy-head".toList then
    hex64Field "f1 boxPub" e.f1
    hex64Field "f4 policySha256" e.f4
    return .policyHead e.f1 (← decimal "f2 regGen" e.f2 1) (← decimal "f3 policyGen" e.f3 1) e.f4
  else if e.kind = "renewal-key-revoke".toList then
    ensure (p256Pub e.f1) "f1 renewalPub" "must be a compressed P-256 key"
    emptyField "f2" e.f2
    emptyField "f3" e.f3
    emptyField "f4" e.f4
    return .renewalKeyRevoke e.f1
  else if e.kind = "device-grant-revoke".toList then
    ensure (relayLogGrantIdOk e.f1) "f1 grantId" "must be lowercase hex of the right length"
    hex64Field "f2 devicePub" e.f2
    emptyField "f3" e.f3
    emptyField "f4" e.f4
    return .deviceGrantRevoke e.f1 e.f2
  else if e.kind = "cert-revoke".toList then
    hex64Field "f1 accountHash" e.f1
    hex64Field "f2 certId" e.f2
    emptyField "f3" e.f3
    emptyField "f4" e.f4
    return .certRevoke e.f1 e.f2
  else if e.kind = "relay-revoke".toList then
    ensure (isRelayId e.f1) "f1 relayId" "must be a relay id"
    hex64Field "f2 relayKey" e.f2
    emptyField "f3" e.f3
    emptyField "f4" e.f4
    return .relayRevoke e.f1 e.f2
  else bad "kind" "is not a relay log kind"

/-- The message the log key signs; none for a malformed entry or apex. -/
def relayLogEntryCanonical (servicesApex : Text) (e : RelayLogEntry) : Option Text :=
  if isServicesApex servicesApex && (parseRelayLogEntry e).isOk then
    canonicalV1 "flagship/relay-log/v1" [.text servicesApex,.uint e.sequence,.text e.kind,.uint e.at,
      .text e.f1,.text e.f2,.text e.f3,.text e.f4]
  else none

structure RelayLogBox where
  boxPub : Text
  regGen : Nat
  sequence : Nat
  deriving DecidableEq

structure RelayLogAuthority where
  adminRootPub : Option Text
  irkPub : Text
  authorityGen : Nat
  sequence : Nat
  deriving DecidableEq

structure RelayLogPolicyHead where
  policyGen : Nat
  policySha256 : Text
  sequence : Nat
  deriving DecidableEq

def relayLogZeroTip : Text := List.replicate 64 '0'

def relayLogTipHistory : Nat := 1024

/-- What a relay knows from the log. -/
structure RelayLogState where
  servicesApex : Text
  sequence : Nat
  tipSha256 : Text
  recentTips : OrdMap Nat Text
  boxesByName : OrdMap Text RelayLogBox
  boxNames : OrdMap Text Text
  revokedBoxes : OrdMap Text Nat
  authorities : OrdMap Text RelayLogAuthority
  /-- `<boxPub>|<regGen>` and the newest head. -/
  policyHeads : OrdMap Text RelayLogPolicyHead
  revokedRenewalKeys : OrdMap Text Unit
  revokedGrants : OrdMap Text Text
  /-- `<accountHash>|<certId>`. -/
  revokedCerts : OrdMap Text Unit
  revokedRelays : OrdMap Text Text
  deriving DecidableEq

namespace RelayLogState

/-- The empty state. -/
def new (servicesApex : Text) : Except String RelayLogState := do
  apexField "servicesApex" servicesApex
  return ⟨servicesApex,0,relayLogZeroTip,(∅ : OrdMap Nat Text).set 0 relayLogZeroTip,∅,∅,∅,∅,∅,∅,∅,∅,∅⟩

/-- The box that had the name gives it up, and the box gives up its other name. -/
def register (s : RelayLogState) (nameHash boxPub : Text) (regGen seq : Nat) : RelayLogState :=
  let boxNames := match s.boxesByName.get? nameHash with
    | some had =>
      if had.boxPub ≠ boxPub ∧ s.boxNames.get? had.boxPub = some nameHash then
        s.boxNames.erase had.boxPub
      else s.boxNames
    | none => s.boxNames
  let boxesByName := match boxNames.get? boxPub with
    | some oldName => if oldName ≠ nameHash then s.boxesByName.erase oldName else s.boxesByName
    | none => s.boxesByName
  { s with
    boxesByName := boxesByName.set nameHash ⟨boxPub,regGen,seq⟩
    boxNames := boxNames.set boxPub nameHash }

def policyKey (boxPub : Text) (regGen : Nat) : Text := boxPub ++ '|' :: Nat.toDigits 10 regGen

def applyBody (s : RelayLogState) (b : RelayLogBody) (seq : Nat) : RelayLogState :=
  match b with
  | .boxRegister nameHash boxPub regGen => s.register nameHash boxPub regGen seq
  | .boxRevoke boxPub regGen =>
    let had := (s.revokedBoxes.get? boxPub).getD 0
    { s with revokedBoxes := s.revokedBoxes.set boxPub (max had regGen) }
  | .accountAuthority accountHash adminRootPub irkPub authorityGen =>
    if (s.authorities.get? accountHash).all (fun h => decide (h.authorityGen ≤ authorityGen)) then
      { s with authorities := s.authorities.set accountHash ⟨adminRootPub,irkPub,authorityGen,seq⟩ }
    else s
  | .policyHead boxPub regGen policyGen policySha256 =>
    let key := policyKey boxPub regGen
    if (s.policyHeads.get? key).all (fun h => decide (h.policyGen ≤ policyGen)) then
      { s with policyHeads := s.policyHeads.set key ⟨policyGen,policySha256,seq⟩ }
    else s
  | .renewalKeyRevoke renewalPub =>
    { s with revokedRenewalKeys := s.revokedRenewalKeys.set renewalPub () }
  | .deviceGrantRevoke grantId devicePub =>
    { s with revokedGrants := s.revokedGrants.set grantId devicePub }
  | .certRevoke accountHash certId =>
    { s with revokedCerts := s.revokedCerts.set (accountHash ++ '|' :: certId) () }
  | .relayRevoke relayId relayKey =>
    { s with revokedRelays := s.revokedRelays.set relayId relayKey }

/-- The state after an entry: its body, then the new tip, of which the last few
are remembered. -/
def advance (s : RelayLogState) (b : RelayLogBody) (seq : Nat) (tip : Text) : RelayLogState :=
  let s := s.applyBody b seq
  let tips := s.recentTips.set seq tip
  let tips := if relayLogTipHistory ≤ seq then tips.erase (seq - relayLogTipHistory) else tips
  { s with sequence := seq, tipSha256 := tip, recentTips := tips }

end RelayLogState

inductive RelayLogFault
  | malformed | gap | badSignature
  deriving DecidableEq

/-- On failure `at` is where to fetch from; the state and the count hold the
valid part before it. -/
inductive RelayLogApply
  | applied (state : RelayLogState) (applied : Nat)
  | failed (reason : RelayLogFault) («at» : Nat) (state : RelayLogState) (applied : Nat)

def RelayLogApply.state : RelayLogApply → RelayLogState
  | .applied state _ | .failed _ _ state _ => state

section
variable [Ed25519] [Sha256]

/-- Strict Ed25519 over canonical bytes, lowercase hex only. -/
def verifyLower (canonical signature key : Text) : Bool :=
  lowerHex signature 128 && lowerHex key 64 && Access.verify canonical signature key

/-- The pass over the entries in the order of their sequence. -/
def applySorted (servicesApex logKey : Text) (next : RelayLogState) (applied : Nat) :
    List (RelayLogEntry × Text) → RelayLogApply
  | [] => .applied next applied
  | (entry,signature) :: rest =>
    match parseRelayLogEntry entry,relayLogEntryCanonical servicesApex entry with
    | .ok body,some canonical =>
      let expected := saturatingAdd next.sequence 1
      if entry.sequence ≤ next.sequence then applySorted servicesApex logKey next applied rest
      else if entry.sequence ≠ expected then .failed .gap expected next applied
      else if verifyLower canonical signature logKey = false then
        .failed .badSignature entry.sequence next applied
      else
        applySorted servicesApex logKey
          (next.advance body entry.sequence (Sha256.sha256Hex canonical)) (saturatingAdd applied 1) rest
    | _,_ => .failed .malformed
        (if 1 ≤ entry.sequence then entry.sequence else saturatingAdd next.sequence 1) next applied

/-- Apply entries in sequence order under the log key: duplicates are skipped, a
gap, a bad signature or a malformed entry stops. -/
def applyRelayLog (state : RelayLogState) (entries : List (RelayLogEntry × Text)) (logKey : Text) :
    RelayLogApply :=
  applySorted state.servicesApex logKey state 0
    (entries.insertionSort (fun a b => a.1.sequence ≤ b.1.sequence))

end

inductive RelayKind
  | full | entry
  deriving DecidableEq

structure RelayDirectoryEntry where
  relayId : Text
  relayKey : Text
  tunnelHost : Text
  relayKind : RelayKind
  region : Text
  ipv4 : List Text
  ipv6 : List Text
  deriving DecidableEq

structure RelayDirectoryBody where
  servicesApex : Text
  directoryVersion : Nat
  issuedAt : Nat
  expiresAt : Nat
  relays : List RelayDirectoryEntry
  deriving DecidableEq

def directoryRelay (d : Option RelayDirectoryBody) (relayId : Text) : Option RelayDirectoryEntry :=
  d.bind fun d => d.relays.find? (fun r => decide (r.relayId = relayId))

def attachTtlMs : Nat := 30 * 60000
def legacyTtlMs : Nat := 3 * 60000
def meshClockSkewMs : Nat := 60000

def attachmentCanonical (kind : AttachmentKind) (a : BoxAttachment) : Option Text :=
  if attachmentShape a then
    canonicalV1 (match kind with
      | .box => "flagship/relay-attachment/v1"
      | .legacy => "flagship/relay-legacy-attachment/v1")
      [.text a.serverFqdn,.text a.boxPub,.uint a.regGen,.text a.relayId,.uint a.attachedAt,
        .uint a.issuedAt,.uint a.notAfter]
  else none

/-- The apex, the verified log state and directory, and the clock. -/
structure MeshCheckContext where
  servicesApex : Text
  log : RelayLogState
  directory : Option RelayDirectoryBody
  now : Nat

/-- The holder's extra checks: this tunnel's box and name, and itself. -/
structure AttachmentHolder where
  relayId : Text
  boxPub : Text
  serverFqdn : Text

inductive AttachmentRefusal
  | malformed | notPodName | ttlTooLong | future | expired | notRegistered | mismatch | revoked
  | relayRevoked | unknownRelay | notThisTunnel | notThisRelay
  deriving DecidableEq

section
variable [Sha256]

def relayLogBox (s : RelayLogState) (serverFqdn : Text) : Option RelayLogBox :=
  (nameHash serverFqdn).bind s.boxesByName.get?

/-- What both kinds of attachment are checked for. -/
def checkAttachmentCommon (a : BoxAttachment) (kind : AttachmentKind) (ctx : MeshCheckContext)
    (holder : Option AttachmentHolder) : Except AttachmentRefusal (Text × RelayDirectoryEntry) :=
  match attachmentCanonical kind a with
  | none => .error .malformed
  | some canonical =>
    let ttl := match kind with
      | .box => attachTtlMs
      | .legacy => legacyTtlMs
    if isPodName a.serverFqdn ctx.servicesApex = false then .error .notPodName
    else if ttl < a.notAfter - a.issuedAt then .error .ttlTooLong
    else if saturatingAdd ctx.now meshClockSkewMs < a.issuedAt then .error .future
    else if a.notAfter ≤ ctx.now then .error .expired
    else match relayLogBox ctx.log a.serverFqdn with
    | none => .error .notRegistered
    | some reg =>
      if reg.boxPub ≠ a.boxPub ∨ reg.regGen ≠ a.regGen then .error .mismatch
      else if a.regGen ≤ (ctx.log.revokedBoxes.get? a.boxPub).getD 0 then .error .revoked
      else if ctx.log.revokedRelays.contains a.relayId then .error .relayRevoked
      else match directoryRelay ctx.directory a.relayId with
      | none => .error .unknownRelay
      | some relay =>
        if holder.any (fun h => decide (a.boxPub ≠ h.boxPub ∨ a.serverFqdn ≠ h.serverFqdn)) then
          .error .notThisTunnel
        else if holder.any (fun h => decide (a.relayId ≠ h.relayId)) then .error .notThisRelay
        else .ok (canonical,relay)

end

/-- One live, valid, winning attachment of the account. -/
structure HomeAttachment where
  relayId : Text
  attachedAt : Nat
  deriving DecidableEq

/-- A relay the directory lists as `full`. -/
def isFullRelay (directory : Option RelayDirectoryBody) (relayId : Text) : Bool :=
  match directoryRelay directory relayId with
  | none => false
  | some r => decide (r.relayKind = .full)

/-- How many attachments a relay has, and the first of their times. -/
abbrev HomeCounts := OrdMap Text (Nat × Nat)

/-- One more attachment, where it is on a `full` relay. -/
def countAttachment (directory : Option RelayDirectoryBody) (per : HomeCounts)
    (a : HomeAttachment) : HomeCounts :=
  if isFullRelay directory a.relayId then
    let e := (per.get? a.relayId).getD (0,a.attachedAt)
    per.set a.relayId (e.1 + 1,min e.2 a.attachedAt)
  else per

/-- More attachments, then the earlier first one, then the smaller id. -/
def compareHomes (a b : Text × Nat × Nat) : Ordering :=
  (cmp a.2.1 b.2.1).then ((cmp b.2.2 a.2.2).then (cmp b.1 a.1))

/-- The relay with the most of the attachments. -/
def rankedHome (attachments : List HomeAttachment) (directory : Option RelayDirectoryBody) :
    Option Text :=
  let per := attachments.foldl (countAttachment directory) ∅
  (maxBy compareHomes per.sorted.entries).map Prod.fst

/-- The account's home; `accountMove` is the target and the end of an accepted move. -/
def accountHome (attachments : List HomeAttachment) (directory : Option RelayDirectoryBody)
    (accountMove : Option (Text × Nat)) (now : Nat) : Option Text :=
  match accountMove with
  | some (target,notAfter) =>
    if now < notAfter ∧ attachments.any (fun a => decide (a.relayId = target)) then some target
    else rankedHome attachments directory
  | none => rankedHome attachments directory

open Journal (Json)

namespace RelayLogBody

def kind : RelayLogBody → Text
  | .boxRegister .. => "box-register".toList
  | .boxRevoke .. => "box-revoke".toList
  | .accountAuthority .. => "account-authority".toList
  | .policyHead .. => "policy-head".toList
  | .renewalKeyRevoke .. => "renewal-key-revoke".toList
  | .deviceGrantRevoke .. => "device-grant-revoke".toList
  | .certRevoke .. => "cert-revoke".toList
  | .relayRevoke .. => "relay-revoke".toList

/-- The four fields a body stands in; a key that is not there is the empty text. -/
def fields : RelayLogBody → Text × Text × Text × Text
  | .boxRegister nameHash boxPub regGen => (nameHash,boxPub,Nat.toDigits 10 regGen,[])
  | .boxRevoke boxPub regGen => (boxPub,Nat.toDigits 10 regGen,[],[])
  | .accountAuthority accountHash adminRootPub irkPub authorityGen =>
    (accountHash,adminRootPub.getD [],irkPub,Nat.toDigits 10 authorityGen)
  | .policyHead boxPub regGen policyGen policySha256 =>
    (boxPub,Nat.toDigits 10 regGen,Nat.toDigits 10 policyGen,policySha256)
  | .renewalKeyRevoke renewalPub => (renewalPub,[],[],[])
  | .deviceGrantRevoke grantId devicePub => (grantId,devicePub,[],[])
  | .certRevoke accountHash certId => (accountHash,certId,[],[])
  | .relayRevoke relayId relayKey => (relayId,relayKey,[],[])

end RelayLogBody

/-- The row for a body, if it is well formed. -/
def makeRelayLogEntry (sequence «at» : Nat) (b : RelayLogBody) : Except String RelayLogEntry := do
  let (f1,f2,f3,f4) := b.fields
  let e : RelayLogEntry := ⟨sequence,b.kind,«at»,f1,f2,f3,f4⟩
  let _ ← parseRelayLogEntry e
  return e

/-- A field's number, where it is an integer of 64 bits. -/
def uintField (v : Json) (name : String) : Option Nat :=
  match v.get name with
  | some (.num (.u64 n)) => some n
  | _ => none

/-- The row and its signature, as a relay sends them. -/
def logEntryToJson (e : RelayLogEntry) (signature : Text) : Json :=
  .obj [("entry".toList,.obj [("sequence".toList,.num (.u64 e.sequence)),("kind".toList,.str e.kind),
      ("at".toList,.num (.u64 e.at)),("f1".toList,.str e.f1),("f2".toList,.str e.f2),
      ("f3".toList,.str e.f3),("f4".toList,.str e.f4)]),
    ("signature".toList,.str signature)]

def logEntryFromJson (v : Json) : Option (RelayLogEntry × Text) := do
  let e ← v.get "entry"
  return (⟨← uintField e "sequence",← e.text "kind",← uintField e "at",← e.text "f1",← e.text "f2",
    ← e.text "f3",← e.text "f4"⟩,← v.text "signature")

/-- The head of the log that its key signed. -/
structure RelayLogHead where
  servicesApex : Text
  sequence : Nat
  tipSha256 : Text
  directoryVersion : Nat
  issuedAt : Nat
  deriving DecidableEq

inductive HeadStatus
  | applied | behind | fork | unknown
  deriving DecidableEq

/-- Where a claimed head stands to a state. -/
def relayLogHeadStatus (state : RelayLogState) (head : RelayLogHead) : HeadStatus :=
  if state.sequence < head.sequence then .behind
  else
    match state.recentTips.get? head.sequence with
    | none => .unknown
    | some t => if t = head.tipSha256 then .applied else .fork

end Flagship.Mesh

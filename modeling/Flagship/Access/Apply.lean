import Flagship.Access.Store

namespace Flagship.Access
open Lib

/-- What the box's boot resolution pinned, in lowercase hex. -/
structure Anchors where
  username : Text
  ownerIrkHex : Text
  adminRootHex : Option Text
  ownerAidHex : Option Text
  serverDomain : Text
  /-- Admin orders need a hybrid signature, which no journal entry carries. -/
  strict : Bool
  deriving DecidableEq

def Anchors.pinned (a : Anchors) : Bool := a.adminRootHex.isSome

/-- An admin device grant as the box's device book holds it. -/
structure GrantView where
  grantId : Text
  username : Text
  deviceId : Text
  devicePubHex : Text
  scopes : List Text
  issuedAt : Nat
  expiresAt : Nat
  signatureHex : Text
  deriving DecidableEq

def deviceScopes : List Text :=
  ["browse","install-service","vibe-code","add-device","manage-services","revoke-others",
    "demo-provision","admin","view-directory"].map String.toList

/-- Scopes stand in the order of the list, each once. -/
def deviceGrantCanonical (g : GrantView) : Option Text :=
  if [g.grantId,g.username,g.deviceId].all fieldText = false ∨ g.expiresAt ≤ g.issuedAt ∨
      g.scopes = [] ∨ lowerHex g.deviceId 32 = false ∨
      lowerHex (asciiLower g.devicePubHex) 64 = false ∨
      g.scopes.all (fun s => deviceScopes.contains s) = false ∨ ¬ g.scopes.Nodup then none
  else
    let scopes := deviceScopes.filter (fun s => g.scopes.contains s)
    some ("flagship/device-capability-grant/v2|".toList ++ g.grantId ++ '|' :: g.username ++
      '|' :: g.deviceId ++ '|' :: asciiLower g.devicePubHex ++ '|' :: List.intercalate [','] scopes ++
      '|' :: Nat.toDigits 10 g.issuedAt ++ '|' :: Nat.toDigits 10 g.expiresAt)

inductive Tier
  | admin | member
  deriving DecidableEq

structure Device where
  pubHex : Text
  tier : Tier
  grant : Option GrantView
  deriving DecidableEq

structure CoManager where
  pubHex : Text
  shareId : Text
  level : Text
  deriving DecidableEq

/-- Who someone is on this box. -/
inductive Person
  | device (pubHex : Text) (tier : Tier) (legacy : Bool)
  | coManager (c : CoManager)
  deriving DecidableEq

/-- The account's people as this box verified them. -/
structure People where
  anchors : Anchors
  devices : List Device
  coManagers : List CoManager
  bookPresent : Bool

namespace People

/-- The book and the legacy AID, then this server's co-managers. -/
def classify [Lowercase] (p : People) (key : Text) : Option Person :=
  let k := toLowercase key
  let isAid := decide (p.anchors.ownerAidHex = some k)
  match p.devices.find? (fun d => decide (d.pubHex = k)) with
  | some d => some (.device k d.tier false)
  | none =>
    if isAid && p.bookPresent then
      some (.device k (if p.anchors.pinned then .member else .admin) true)
    else
      match p.coManagers.find? (fun c => decide (c.pubHex = k)) with
      | some c => some (.coManager c)
      | none => if isAid then some (.device k .admin true) else none

/-- The admin devices' grants; none on a box that pins no admin root. -/
def adminGrants [Lowercase] (p : People) : List GrantView :=
  if p.anchors.pinned then
    ((p.devices.filter (fun d => decide (d.tier = .admin))).filterMap Device.grant).map
      (fun g => { g with username := toLowercase g.username })
  else []

/-- The order verifies under a key that may sign admin orders here, and a
classical signature is enough. -/
def adminSignedAt [Lowercase] [Ed25519] (p : People) (verifyUnder : Text → Bool) (nowMs : Nat)
    (strict : Bool) : Bool :=
  if strict then false
  else
    match p.anchors.adminRootHex with
    | none => verifyUnder p.anchors.ownerIrkHex
    | some root => verifyUnder root || p.adminGrants.any (fun g =>
        decide (nowMs < g.expiresAt) && g.scopes.contains "admin".toList &&
          verifyUnder g.devicePubHex && verifyCanonical (deviceGrantCanonical g) g.signatureHex root)

end People

/-- How a share ended, with its proof. -/
inductive ShareEnd
  | revoke (revoke : ServerShareRevoke) (signature : Text)
  | leave (leave : ServerShareLeave) (signature : Text)
  deriving DecidableEq

/-- A signed entry that changed an app's access. -/
inductive EntryBody
  | rank (order : AppRankOrder) (signature : Text)
  | mode (order : ServiceAccessModeOrder) (serverId : Bool) (signature : Text)
  | remove (order : ServiceAllowRemoveOrder) (serverId : Bool) (signature : Text)
  | withdraw (revoke : RevokeServiceInvite) (signature : Text)
  | join (create : CreateServiceInvite) (createSig secretHash visitorAID : Text) (redeemedAt : Nat)
      (aidSig : Text)
  | accept (create : CreateServiceInvite) (createSig : Text) (accept : AcceptServiceInvite)
      (acceptSig : Text)
  | share (grant : ServerShareGrant) (signature : Text) (ended : Option ShareEnd)
  deriving DecidableEq

def isSig (s : Text) : Bool := anyHex s 128

/-- The shape check every entry passed; the applier verifies. -/
def EntryBody.shaped : EntryBody → Bool
  | .rank _ signature => isSig signature
  | .mode order _ signature =>
    isSig signature && decide (order.mode ∈ ["open".toList,"restricted".toList])
  | .remove _ _ signature => isSig signature
  | .withdraw _ signature => isSig signature
  | .join _ createSig _ _ _ aidSig => isSig createSig && isSig aidSig
  | .accept _ createSig _ acceptSig => isSig createSig && isSig acceptSig
  | .share _ signature ended => isSig signature && ended.all fun
    | .revoke _ signature => isSig signature
    | .leave _ signature => isSig signature

structure AccessEntry where
  body : EntryBody
  shaped : body.shaped = true
  deriving DecidableEq

/-- Who made an invite, as far as this box can tell. -/
inductive InviteTier
  | admin | member | coManager
  deriving DecidableEq

def tierStr : InviteTier → Text
  | .admin => "admin".toList
  | .member => "member".toList
  | .coManager => "co-manager".toList

/-- What this box trusts to sign, from its own state. -/
structure EntryTrust where
  adminSigners : List Text
  createSigners : List (Text × InviteTier)
  installed : List Text

/-- A create that verified: the fields a later step needs. -/
structure VerifiedCreate where
  inviteId : Text
  serviceRef : Text
  maxRedemptions : Option Nat
  expiresAt : Option Nat
  tier : InviteTier
  creatorPub : Text
  deriving DecidableEq

inductive Verified
  | mode (mode : Text) (issuedAt : Nat)
  | remove (aid : Text) (issuedAt : Nat)
  | withdraw (revoke : RevokeServiceInvite) (signature : Text)
  /-- A join, or an accept: the two are bound alike. -/
  | join (create : VerifiedCreate) (aid : Text) (time : Nat)
  | share (shareId : Text) (record : CoManagerRecord)
  deriving DecidableEq

inductive Verdict
  | refused
  | skipped
  | verified (v : Verified)
  deriving DecidableEq

/-- What applying a handed-over entry did. -/
inductive EntryResult
  | applied | unchanged | stale | refused | skipped
  deriving DecidableEq

section
variable [Lowercase] [Ed25519]

def EntryTrust.adminSigned (t : EntryTrust) (verifyUnder : Text → Bool) : Bool :=
  t.adminSigners.any verifyUnder

/-- The create's shape, its secret hash when one is expected, and a signature by
one of the signers this box trusts, which also names the tier. -/
def verifyComCreate (create : CreateServiceInvite) (signature : Text) (expectSecretHash : Option Text)
    (t : EntryTrust) : Option VerifiedCreate :=
  if anyHex signature 128 = false ∨ anyHex create.authorAid 64 = false ∨
      anyHex create.secretHash 64 = false ∨
      expectSecretHash.any (fun e => decide (toLowercase create.secretHash ≠ e)) = true then none
  else
    let candidate := { create with authorAid := asciiLower create.authorAid }
    (t.createSigners.find? (fun k => verifyCreate candidate signature k.1)).map fun (pubHex,tier) =>
      ⟨candidate.inviteId,candidate.serviceRef,candidate.maxRedemptions,candidate.expiresAt,tier,
        pubHex⟩

/-- The grant under an admin-only key, and its end when there is one: the
admin's revoke, or the member's own leave. -/
def verifyShare (g : ServerShareGrant) (signature : Text) (ended : Option ShareEnd)
    (t : EntryTrust) : Option Verified :=
  let endOk := ended.all fun
    | .revoke r signature => anyHex signature 128 && decide (r.shareId = g.shareId) &&
        decide (r.serverDomain = g.serverDomain) && t.adminSigned (verifyShareRevoke r signature)
    | .leave l signature => anyHex signature 128 && decide (l.shareId = g.shareId) &&
        decide (l.serverDomain = g.serverDomain) && decide (l.memberPubHex = g.memberPubHex) &&
        verifyShareLeave l signature g.memberPubHex
  if anyHex signature 128 && t.adminSigned (verifyShareGrant g signature) && endOk then
    some (.share g.shareId
      ⟨g.memberPubHex,g.level,g.label,g.serverDomain,.u64 g.issuedAt,ended.isSome⟩)
  else none

/-- Does the entry, handed over for an app, carry a proof this box accepts? -/
def verifyEntry (entry : AccessEntry) (serviceRef : Text) (t : EntryTrust) : Verdict :=
  let installed := t.installed.contains serviceRef
  let verified : Option Verified := match entry.body with
    | .rank _ _ => none
    | .share grant signature ended =>
      if installed then verifyShare grant signature ended t else none
    | .mode o serverId signature =>
      if serverId || o.serviceRef ≠ serviceRef || !installed ||
          !t.adminSigned (verifyServiceAccessMode o signature) then none
      else some (.mode o.mode o.issuedAt)
    | .remove o serverId signature =>
      if serverId || o.serviceRef ≠ serviceRef ||
          !t.adminSigned (verifyServiceAllowRemove o signature) then none
      else some (.remove o.aid o.issuedAt)
    | .withdraw revoke signature => some (.withdraw revoke (toLowercase signature))
    | .join create createSig secretHash visitorAID redeemedAt aidSig =>
      let aid := toLowercase visitorAID
      if lowerHex aid 64 = false ∨ anyHex secretHash 64 = false ∨
          verifyRedeem ⟨toLowercase secretHash,aid,redeemedAt⟩ aidSig aid = false then none
      else
        (verifyComCreate create createSig (some (toLowercase secretHash)) t).bind fun c =>
          if c.serviceRef ≠ serviceRef || !installed then none else some (.join c aid redeemedAt)
    | .accept create createSig a acceptSig =>
      let aid := toLowercase a.contactAid
      (verifyComCreate create createSig none t).bind fun c =>
        if c.inviteId ≠ a.inviteId || c.serviceRef ≠ serviceRef || a.serviceRef ≠ serviceRef ||
            !installed || !aid.all hexDigit || aid.length % 2 == 1 ||
            !verifyAccept { a with contactAid := asciiLower aid } acceptSig aid then none
        else some (.join c aid a.acceptedAt)
  match entry.body with
  | .rank _ _ => .skipped
  | _ => (verified.map Verdict.verified).getD .refused

/-- The box facts an application reads besides the state and the people. -/
structure Facts where
  installed : Bool
  /-- Apps whose list is being caught up after a restart. -/
  catchingUp : List Text
  nowMs : Nat

def rankKey : Person → Text
  | .device pubHex _ _ => "device:".toList ++ pubHex
  | .coManager c => "share:".toList ++ c.shareId

/-- Someone's rank under what an admin set for them: none when refused, or for a
co-manager while the list catches up. -/
def rankUnder (p : Person) (catching : Bool) (set : Option Text) : Option Text :=
  if set = some "refused".toList then none
  else if (match p with | .coManager _ => catching | .device .. => false) = true then none
  else some <| (ladderRole set).getD <| match p with
    | .device _ .admin _ => "master".toList
    | _ => "manager".toList

/-- May a co-manager of this level invite under what an admin set for them? -/
def mayInviteUnder (level : Text) (catching : Bool) (set : Option Text) : Bool :=
  decide (level = "manage".toList) && !catching &&
    decide (set ≠ some "refused".toList ∧ set ≠ some "member".toList)

/-- The access questions over the state, the people and the catch-up hold. -/
structure View where
  store : Store
  people : People
  catchingUp : List Text

namespace View

def catching (v : View) (r : Text) : Bool := v.catchingUp.contains r

def accountRank (v : View) (r : Text) (p : Person) : Option Text :=
  rankUnder p (v.catching r) ((v.store.entry r).roles.ranks.get? (rankKey p))

def isAllowed (v : View) (r key : Text) : Bool :=
  match v.people.classify (toLowercase key) with
  | some p => (v.accountRank r p).isSome
  | none => !v.catching r && (v.store.entry r).allow.contains (toLowercase key)

/-- This server's co-managers, then the journal's records of other servers'
still standing. -/
def coManagerKeys (v : View) (r : Text) : List Text :=
  (v.store.entry r).coManagersInOrder.foldl (fun out c =>
    if c.2.ended || decide (c.2.serverDomain = v.people.anchors.serverDomain) ||
      out.contains c.2.pubHex then out else out ++ [c.2.pubHex])
    (v.people.coManagers.map CoManager.pubHex)

/-- The share of a co-manager of this server, or of another's that still stands,
and its level. -/
def shareOf (v : View) (r pubHex : Text) : Option (Text × Text) :=
  match v.people.classify (toLowercase pubHex) with
  | some (.coManager c) => some (c.shareId,c.level)
  | some (.device ..) => none
  | none => ((v.store.entry r).coManagerRecord (toLowercase pubHex)).bind fun (id,c) =>
    if !c.ended && decide (c.serverDomain ≠ v.people.anchors.serverDomain) then some (id,c.level)
    else none

def coManagerMayInvite (v : View) (r pubHex : Text) : Bool :=
  (v.shareOf r pubHex).any fun share => mayInviteUnder share.2 (v.catching r)
    ((v.store.entry r).roles.ranks.get? ("share:".toList ++ share.1))

/-- The signers this box takes for an invite create in an app, and the admins. -/
def entryTrust (v : View) (r : Text) (installed : Bool) (nowMs : Nat) (strict : Bool) : EntryTrust :=
  let a := v.people.anchors
  let devices := v.people.devices.map fun d =>
    (d.pubHex,if a.pinned && decide (d.tier = .member) then InviteTier.member else .admin)
  let owner := if a.pinned then []
    else (a.ownerAidHex.toList ++ [a.ownerIrkHex]).map (fun k => (k,InviteTier.admin))
  let admins := match a.adminRootHex with
    | none => [a.ownerIrkHex]
    | some root => root :: (v.people.devices.filter fun d => decide (d.tier = .admin) &&
        v.people.adminSignedAt (fun k => decide (k = d.pubHex)) nowMs false).map Device.pubHex
  { adminSigners := if strict then [] else admins
    createSigners := a.adminRootHex.toList.map (fun k => (k,.admin)) ++ devices ++ owner ++
      (v.coManagerKeys r).map (fun k => (k,.coManager))
    installed := if installed then [r] else [] }

/-- Does a maker outside the admins still have the standing to invite? -/
def mayInvite (v : View) (r : Text) (coManager : Bool) (pubHex : Text) : Bool :=
  if coManager then v.coManagerMayInvite r pubHex
  else ((v.people.classify pubHex).bind (v.accountRank r)).any (fun k => decide (k ≠ "member".toList))

end View

/-- An admin's withdraw, or on a box with no admin root the owner AID's. -/
def withdrawAdminSigned (people : People) (rv : RevokeServiceInvite) (signature : Text)
    (nowMs : Nat) : Bool :=
  people.adminSignedAt (verifyInviteRevoke rv signature) nowMs people.anchors.strict ||
    (!people.anchors.pinned && people.anchors.ownerAidHex.any (verifyInviteRevoke rv signature))

/-- The apps a signed withdraw may prune. -/
def withdrawRefs (v : View) (rv : RevokeServiceInvite) (signature : Text) (nowMs : Nat) : List Text :=
  let refs := v.store.servicesWithInvite rv.inviteId
  if refs = [] ∨ withdrawAdminSigned v.people rv signature nowMs = true then refs
  else refs.filter fun r =>
    let tier := (v.store.entry r).inviteTier rv.inviteId
    cappedTier tier && ((v.store.entry r).inviteCreator rv.inviteId).any fun creator =>
      verifyInviteRevoke rv signature creator &&
        v.mayInvite r (decide (tier = some "co-manager".toList)) creator

/-- Bind a person through a verified create. -/
def join (s : Store) (people : People) (f : Facts) (r : Text) (c : VerifiedCreate) (aid : Text)
    (time : Nat) : Store × EntryResult :=
  let e := s.entry r
  let cap := c.maxRedemptions.getD 1
  let withdrawnHere := (e.withdrawn c.inviteId).any fun (issuedAt,signature) =>
    withdrawAdminSigned people ⟨c.inviteId,issuedAt⟩ signature f.nowMs ||
      verifyInviteRevoke ⟨c.inviteId,issuedAt⟩ signature c.creatorPub
  let recorded := (e.inviteCreator c.inviteId).getD c.creatorPub
  if (e.grantsOf (toLowercase aid)).contains c.inviteId then (s,.unchanged)
  else if c.expiresAt.any (fun x => decide (x < time)) then (s,.refused)
  else if 0 < cap ∧ cap ≤ e.boundThrough c.inviteId then (s,.refused)
  else if e.removedAfter aid time then (s,.stale)
  else if withdrawnHere then (s,.refused)
  else if c.tier ≠ .admin ∧
      View.mayInvite ⟨s,people,f.catchingUp⟩ r (decide (c.tier = .coManager)) recorded = false then
    (s,.refused)
  else
    let e := (e.setInviteTier c.inviteId (tierStr c.tier)).setInviteCreator c.inviteId c.creatorPub
    let (e,added) := e.addAllowed aid (some c.inviteId)
    let s := s.put r e
    if !added && !View.isAllowed ⟨s,people,f.catchingUp⟩ r aid then (s,.refused) else (s,.applied)

/-- `stale_or_applied`. -/
def staleOrApplied (s : Store) (r : Text) (e : Row × WriteAnswer) : Store × EntryResult :=
  (s.put r e.1,if e.2 = .stale then .stale else .applied)

/-- The rank of an invited person, invite or grant: one of the ladder, and only
where the target stands on the list. -/
def applyInvitedRank (s : Store) (r : Text) (order : AppRankOrder) (evidence : Text)
    (target : RoleTarget) (stands : Bool) : Store × EntryResult :=
  match ladderRole (some order.rank) with
  | none => (s,.refused)
  | some role =>
    if order.rank ∈ ["member".toList,"manager".toList,"master".toList] ∧ stands = true then
      staleOrApplied s r ((s.entry r).setRole target order.target role order.issuedAt evidence)
    else (s,.refused)

/-- An admin-signed rank order for an installed app. -/
def applyRank (s : Store) (people : People) (f : Facts) (r : Text) (order : AppRankOrder)
    (signature : Text) : Store × EntryResult :=
  match appRankCanonical order with
  | none => (s,.refused)
  | some canonical =>
    if order.serviceRef ≠ r ∨ f.installed = false ∨ lowerHex (asciiLower signature) 128 = false ∨
        people.adminSignedAt (verifyAppRank order signature) f.nowMs people.anchors.strict = false then
      (s,.refused)
    else
      let evidence := asciiLower signature ++ ':' :: canonical
      let person := fun (aid : Text) => decide (people.anchors.ownerAidHex ≠ some aid) &&
        (people.classify aid).isNone && View.isAllowed ⟨s,people,f.catchingUp⟩ r aid
      match parseAppRankTarget order.target with
      | some (.device pubHex) =>
        match people.classify pubHex with
        | some (.device k tier legacy) =>
          staleOrApplied s r ((s.entry r).setAccountRank (rankKey (.device k tier legacy)) order.rank
            order.issuedAt evidence)
        | _ => (s,.refused)
      | some (.share _) => staleOrApplied s r
          ((s.entry r).setAccountRank order.target order.rank order.issuedAt evidence)
      | some (.aid aid) => applyInvitedRank s r order evidence (.aid aid) (person aid)
      | some (.grant id aid) => applyInvitedRank s r order evidence (.grant id aid)
          (person aid && ((s.entry r).grantsOf (toLowercase aid)).contains id)
      | some (.invite id) => applyInvitedRank s r order evidence (.invite id) true
      | none => (s,.refused)

/-- A withdraw is held whatever signed it; only one that verifies prunes. -/
def applyWithdraw (s : Store) (people : People) (f : Facts) (r : Text) (rv : RevokeServiceInvite)
    (signature : Text) : Store × EntryResult :=
  let prunes := (withdrawRefs ⟨s,people,f.catchingUp⟩ rv signature f.nowMs).contains r
  let e := (s.entry r).noteWithdrawn rv.inviteId rv.issuedAt signature
  if prunes then
    let (e,pruned) := e.revokeGroup rv.inviteId
    (s.put r e,if 0 < pruned then .applied else .unchanged)
  else (s.put r e,.unchanged)

def entryResult : WriteAnswer → EntryResult
  | .ok | .removed | .applied => .applied
  | .stale => .stale
  | .absent | .unchanged => .unchanged

def applyVerified (s : Store) (people : People) (f : Facts) (r : Text) : Verified →
    Store × EntryResult
  | .mode mode issuedAt =>
    let e := (s.entry r).applyModeOrder (decide (mode = "restricted".toList)) issuedAt
    (s.put r e.1,entryResult e.2)
  | .remove aid issuedAt =>
    let e := (s.entry r).applyRemoveOrder aid issuedAt
    (s.put r e.1,entryResult e.2)
  | .withdraw revoke signature => applyWithdraw s people f r revoke signature
  | .join create aid time => join s people f r create aid time
  | .share shareId record =>
    let e := (s.entry r).noteCoManager shareId record
    (s.put r e.1,entryResult e.2)

/-- Apply one handed-over entry for app `r`. -/
def applyEntry (s : Store) (people : People) (f : Facts) (r : Text) (entry : AccessEntry) :
    Store × EntryResult :=
  match entry.body with
  | .rank order signature => applyRank s people f r order signature
  | _ =>
    let trust := View.entryTrust ⟨s,people,f.catchingUp⟩ r f.installed f.nowMs people.anchors.strict
    match verifyEntry entry r trust with
    | .refused => (s,.refused)
    | .skipped => (s,.skipped)
    | .verified v => applyVerified s people f r v

end
end Flagship.Access

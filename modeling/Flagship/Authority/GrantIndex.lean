import Flagship.Authority.Daemon

namespace Flagship.Authority
open Lib

structure RevocationResult where
  epoch : Int
  revoked : List Grant
  deriving DecidableEq

namespace GrantIndex

/-- The epoch and the objects are taken before the folder is there; what is
written is what the objects are when the write has its turn. -/
def persist (write : GrantWrite) : Code Unit := do
  let body := (← get).hub.grants.snapshot
  disk (.grantsFolder write body)
  let number := (← get).grantsAsked
  modify fun d => { d with grantsAsked := d.grantsAsked + 1 }
  awaits (.grantsTurn write body number)
  let ticket := (← get).grantsFile.writes.length
  modify fun d =>
    { d with
      grantsFile := d.grantsFile.ask (d.hub.grants.stringify body)
      grantsBegun := d.grantsBegun + 1 }
  disk (.grantsWrite write ticket)
  modify fun d => { d with grantsFile := d.grantsFile.settle ticket }

/-- The earlier of two ends. -/
def sooner (expiresAt parent : Option Int) : Option Int :=
  match expiresAt,parent with
  | e,none => e
  | none,some p => some p
  | some e,some p => some (min e p)

/-- Every parent is known, live, and not widened; the child ends with the first of
them. -/
def checkParents (index : GrantIndex) (secretAccess : Bool) (issuedAt : Int) :
    List Text → Option Int → Except Failure (Option Int)
  | [],expiresAt => .ok expiresAt
  | pid :: parents,expiresAt =>
    match index.get? pid with
    | none => .error (.grant .unknownParent ("parent ".toList ++ pid ++ " is unknown".toList))
    | some p =>
      if !index.isLive pid issuedAt then
        .error (.grant .deadParent ("parent ".toList ++ pid ++ " is not live".toList))
      else if secretAccess && !p.secretAccess then
        .error (.grant .secretWidening
          "a grant cannot read secrets unless its parent can".toList)
      else checkParents index secretAccess issuedAt parents (sooner expiresAt p.expiresAt)

def badGrant : Failure :=
  .grant .badGrant "a grant needs an id, kind, issuer, subject, audience and capability".toList

/-- The grant `issue` puts in the index, or why it does not. -/
def newGrant (index : GrantIndex) (input : NewGrant) : Except Failure Grant :=
  if index.failedClosed then
    .error (.grant .indexUnavailable "the grant index is unreadable".toList)
  else match input.kind with
    | none => .error badGrant
    | some kind =>
      if input.id = [] ∨ input.issuer = [] ∨ input.subject = [] ∨ input.audience = [] ∨
          input.capability = [] then .error badGrant
      else if index.grants.contains input.id then
        .error (.grant .duplicate ("grant ".toList ++ input.id ++ " already exists".toList))
      else match checkParents index (input.secretAccess.getD false) input.issuedAt
          (input.parents.getD []) input.expiresAt with
        | .error e => .error e
        | .ok expiresAt => .ok
          { id := input.id
            kind := kind
            issuer := input.issuer
            subject := input.subject
            accountGeneration := input.accountGeneration
            service := input.service
            audience := input.audience
            capability := input.capability
            parents := input.parents.getD []
            policyRevision := input.policyRevision
            issuedAt := input.issuedAt
            expiresAt := expiresAt
            revokedAt := none
            revokeReason := none
            secretAccess := input.secretAccess.getD false }

def issue (input : NewGrant) : Code Grant := do
  match newGrant (← get).hub.grants input with
  | .error e => throw e
  | .ok grant =>
    modifyGrants fun index => index.put grant
    notes [.issues grant.id]
    tryCatch (persist (.issue grant.id)) fun e => do
      modifyGrants fun index => { index with grants := index.grants.erase grant.id }
      throw e
    return grant

/-- A grant as it is once the grant asked for is revoked. -/
def revokedBy (id reason : Text) (time : Int) (g : Grant) : Grant :=
  { g with
    revokedAt := some time
    revokeReason := some (if g.id = id then reason
      else "parent ".toList ++ id ++ " revoked: ".toList ++ reason) }

/-- The objects of the grant asked for and of everything below it, those that are
not revoked yet. -/
def affected (index : GrantIndex) (id : Text) : List Nat :=
  match index.grants.get? id with
  | none => []
  | some target =>
    (target :: (index.descendants id).filterMap (index.grants.get? ·.id)).filter fun object =>
      index.objects[object]?.any (·.revokedAt.isNone)

/-- These objects are changed in place. -/
def change (index : GrantIndex) (objects : List Nat) (f : Grant → Grant) : GrantIndex :=
  { index with
    objects := index.objects.mapIdx fun object g => if objects.contains object then f g else g }

/-- The index once the grant and everything below it is revoked. -/
def afterRevoke (index : GrantIndex) (id reason : Text) (time : Int) : GrantIndex :=
  { index.change (index.affected id) (revokedBy id reason time) with
    epochValue := index.epochValue + 1 }

def revoke (id reason : Text) (time : Int) : Code RevocationResult := do
  let index := (← get).hub.grants
  notes (if index.grants.contains id then [.revokes id] else [])
  let before := (index.affected id).filterMap fun object => index.objects[object]?
  let revoked := before.map (revokedBy id reason time)
  if revoked.isEmpty then return ⟨index.epochValue,[]⟩
  let previousEpoch := index.epochValue
  modifyGrants fun index => index.afterRevoke id reason time
  tryCatch (persist (.revoke (revoked.map (·.id)))) fun e => do
    -- what was there is put back as new objects
    modifyGrants fun index => { before.foldl put index with epochValue := previousEpoch }
    throw e
  return ⟨(← get).hub.grants.epochValue,revoked⟩

def revokeEach (reason : Text) (time : Int) :
    List Grant → RevocationResult → Code RevocationResult
  | [],result => return result
  | g :: rest,result => do
    let r ← revoke g.id reason time
    awaits .grantRevoked
    revokeEach reason time rest ⟨r.epoch,result.revoked ++ r.revoked⟩

def revokeService (service reason : Text) (time : Int) : Code RevocationResult := do
  let index := (← get).hub.grants
  let roots := index.values.filter fun g =>
    decide (g.service = some service) && g.revokedAt.isNone
  revokeEach reason time roots ⟨index.epochValue,[]⟩

/-- A grant that ended long ago. -/
def longDead (olderThanMs time : Int) (g : Grant) : Bool :=
  (g.revokedAt.or g.expiresAt).any (· ≤ time - olderThanMs)

def prune (olderThanMs time : Int) : Code Nat := do
  let dropped := (← get).hub.grants.values.filter (longDead olderThanMs time)
  modifyGrants fun index =>
    { index with grants := dropped.foldl (fun m g => m.erase g.id) index.grants }
  notes (dropped.map (.prunes ·.id))
  if !dropped.isEmpty then persist .prune
  return dropped.length

end GrantIndex
end Flagship.Authority

namespace Flagship.Authority.GrantIndex
open Lib

variable (index : GrantIndex)

/-- The grant is in the index, and this is one of its parents. -/
def Below (child parent : Text) : Prop := ∃ g,index.get? child = some g ∧ parent ∈ g.parents

/-- The grant is this one or derives from it. -/
def Derives (id ancestor : Text) : Prop := Relation.ReflTransGen index.Below id ancestor

/-- The grant is there, not revoked and not expired. -/
def Stands (time : Int) (id : Text) : Prop :=
  ∃ g,index.get? id = some g ∧ g.revokedAt = none ∧ ∀ e ∈ g.expiresAt,time < e

/-- The grant is there, and revoked. -/
def Revoked (id : Text) : Prop := ∃ g,index.get? id = some g ∧ g.revokedAt.isSome = true

/-- What a revocation is to end: the grant and everything below it. -/
def family (id : Text) : List Text := id :: (index.descendants id).map (·.id)

/-- What a revocation revokes of that. -/
def revokes (id : Text) : List Text :=
  ((index.affected id).filterMap fun object => index.objects[object]?).map (·.id)

/-- Every grant of the index is an object of its own, with the id it stands under. -/
def Sound : Prop :=
  ∀ id object,index.grants.get? id = some object → ∃ g,index.objects[object]? = some g ∧ g.id = id

end Flagship.Authority.GrantIndex

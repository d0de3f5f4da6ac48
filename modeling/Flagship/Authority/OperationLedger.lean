import Flagship.Authority.Daemon

namespace Flagship.Authority.OperationLedger
open Lib Mesh

def refuses {α : Type} (code : LedgerErrorCode) (message : String) : Code α :=
  throw (.ledger code message.toList)

def assertUsable : Code Unit := do
  if (← get).hub.ops.failedClosed then
    refuses .ledgerUnavailable "the operation ledger is unreadable"

/-- An operation in one of these states, as it is read. -/
def must (id : Text) (states : List OperationState) : Code Operation := do
  assertUsable
  match (← get).hub.ops.ops.get? id with
  | none => throw (.ledger .notFound ("no operation ".toList ++ id))
  | some op =>
    if states.contains op.state then return op
    else throw (.ledger .wrongState ("operation is ".toList ++ op.state.text))

/-- `persist`, for an operation put in the ledger. -/
def persist (next : Operation) : Code Unit := do
  disk (.opsFolder next)
  let ticket := (← get).operationsFile.writes.length
  modify fun d => { d with operationsFile := d.operationsFile.ask d.hub.ops.values }
  disk (.opsWrite next ticket)
  modify fun d => { d with operationsFile := d.operationsFile.settle ticket }

/-- What the ledger holds again when a write failed. -/
def restore (id : Text) (prior : Option Operation) (l : OperationLedger) : OperationLedger :=
  match prior with
  | some op => { l with ops := l.ops.set id op }
  | none => { l with ops := l.ops.erase id }

/-- The operation is in the ledger at once; the caller hears of it once it is in
the file. -/
def commit (self : Nat) (next : Operation) (after : OperationLedger → OperationLedger) :
    Code Operation := do
  let prior := (← get).hub.ops.ops.get? next.id
  modifyOps fun l => { l with ops := l.ops.set next.id next }
  notes [.commits self prior next]
  tryCatch (persist next) fun e => do
    modifyOps (restore next.id prior)
    throw e
  modifyOps after
  notes [.answers self next]
  return next

section
variable [Sha256] (self : Nat)

def request (input : RequestInput) : Code Operation := do
  assertUsable
  let x ← read
  let payloadHash := Sha256.sha256Hex input.canonicalPayload
  let key := lookupKey input.requester input.idempotencyKey
  match truthy ((← get).hub.ops.byKey.get? key) with
  | some existingId =>
    match (← get).hub.ops.ops.get? existingId with
    | none => throw .missing
    | some existing =>
      if existing.payloadHash ≠ payloadHash ∨ existing.kind ≠ input.kind then
        refuses .idempotencyConflict
          "that idempotency key was already used for a different request"
      else return existing
  | none =>
    let op : Operation :=
      { id := x.random 0
        requester := input.requester
        kind := input.kind
        idempotencyKey := input.idempotencyKey
        payloadHash := payloadHash
        capabilityDigest := truthy input.capabilityDigest
        expectedRevision := input.expectedRevision
        grantDeps := input.grantDeps
        challenge := none
        approvalDeadline := x.now 0 + input.approvalTtlMs
        executeBy := none
        state := .requested
        createdAt := x.now 0
        updatedAt := x.now 0
        approval := none
        irreversibleAt := none
        cancelRequested := none
        resultDigest := none
        reason := none
        downstreamId := x.random 1 }
    commit self op fun l => { l with byKey := l.byKey.set key op.id }

end

section
variable (self : Nat)

/-- A change of state, with nothing to do after it. -/
def move (next : Operation) : Code Operation := commit self next fun l => l

def awaitApproval (id : Text) : Code Operation := do
  let op ← must id [.requested]
  let x ← read
  move self
    { op with
      state := .awaitingApproval
      challenge := some (x.random 0)
      updatedAt := x.now 0 }

/-- What is wrong with an approval, before its signature is looked at. -/
def approvalFault (op : Operation) (approval : ApprovalInput) :
    Option (LedgerErrorCode × String) :=
  if truthy op.challenge ≠ some approval.challenge then
    some (.badChallenge,"that approval does not answer this request")
  else if op.payloadHash ≠ approval.payloadHash then
    some (.payloadChanged,"the approval is for different contents")
  else if op.expectedRevision ≠ approval.expectedRevision then
    some (.stateChanged,"the approval is for a different version of the target")
  else none

/-- The challenge is consumed and the operation authorized, as it is read now:
another approval may have won while the signature was being checked. -/
def consumeChallenge (id : Text) (challenge : Option Text) (approval : ApprovalInput)
    (time executeWithinMs : Int) : Code Operation := do
  let again ← must id [.awaitingApproval]
  if again.challenge ≠ challenge then
    refuses .badChallenge "that approval was already used"
  else
    move self
      { again with
        state := .authorized
        challenge := none
        approval := some ⟨approval.approver,time,approval.signatureHex⟩
        executeBy := some (time + executeWithinMs)
        updatedAt := time }

def approve (id : Text) (approval : ApprovalInput) (executeWithinMs : Int) : Code Operation := do
  let op ← must id [.awaitingApproval]
  let t := (← read).now 0
  if op.approvalDeadline < t then
    let _ ← move self
      { op with
        state := .cancelled
        challenge := none
        reason := some "approval-expired".toList
        updatedAt := t }
    refuses .expired "the approval window closed"
  else match approvalFault op approval with
    | some (code,message) => refuses code message
    | none =>
      awaits (.verify op)
      if !(← read).verified then
        refuses .approvalInvalid "the approval's signature does not match this request"
      else consumeChallenge self id op.challenge approval t executeWithinMs

def authorizeVerifiedOrder (id : Text) (order : VerifiedOrder) (executeWithinMs : Int) :
    Code Operation := do
  let op ← must id [.requested]
  let t := (← read).now 0
  if op.approvalDeadline < t then
    let _ ← move self
      { op with
        state := .cancelled
        reason := some "approval-expired".toList
        updatedAt := t }
    refuses .expired "the order's window closed"
  else
    move self
      { op with
        state := .authorized
        approval := some ⟨order.approver,t,order.signatureHex⟩
        executeBy := some (t + executeWithinMs)
        updatedAt := t }

/-- `fail` of `recheck`: the operation is cancelled as the ledger holds it now. -/
def cancelChecked (op : Operation) (time : Int) (code : LedgerErrorCode) (message : String) :
    Code Unit := do
  match (← get).hub.ops.ops.get? op.id with
  | none => throw .missing
  | some now =>
    let _ ← move self
      { now with state := .cancelled,reason := some code.text,updatedAt := time }
    refuses code message

def recheck (op : Operation) (time : Int) (irreversible : Bool) : Code Unit := do
  if !(← read).grantsLive then
    cancelChecked self op time .authorityLost "a grant this depends on was revoked or has ended"
  else
    awaits (.revision op irreversible)
    if (← read).revision ≠ op.expectedRevision then
      cancelChecked self op time .stateChanged "the target changed since this was approved"
    else if irreversible && op.approval.isNone then
      cancelChecked self op time .approvalInvalid "no approval is recorded"

/-- `begin`: authority, content, revision and time are checked again here. -/
def begins (id : Text) : Code Operation := do
  let op ← must id [.authorized]
  let t := (← read).now 0
  if op.executeBy.any (· < t) then
    let _ ← move self
      { op with
        state := .cancelled
        reason := some "not-started-in-time".toList
        updatedAt := t }
    refuses .expired "the approved operation was not started in time"
  else
    recheck self op t false
    awaits (.rechecked op)
    -- what is written back is the operation as it was read before the checks
    move self { op with state := .executing,updatedAt := t }

def crossPointOfNoReturn (id : Text) : Code Operation := do
  let op ← must id [.executing]
  match truthy op.cancelRequested with
  | some reason =>
    throw (.ledger .authorityLost ("cancelled before the commit: ".toList ++ reason))
  | none =>
    recheck self op ((← read).now 0) true
    awaits (.rechecked op)
    let x ← read
    move self { op with irreversibleAt := some (x.now 0),updatedAt := x.now 1 }

def complete (id resultDigest : Text) : Code Operation := do
  let op ← must id [.executing]
  let x ← read
  move self
    { op with state := .applied,resultDigest := some resultDigest,updatedAt := x.now 0 }

def fail (id reason : Text) : Code Operation := do
  let op ← must id [.awaitingApproval,.authorized,.executing,.requested]
  let x ← read
  move self
    { op with
      state := .failed
      challenge := none
      reason := some reason
      updatedAt := x.now 0 }

/-- Before the point of no return it ends the operation; after it, it only records
that cancellation was asked for. -/
def cancel (id reason : Text) : Code Operation := do
  let op ← must id [.requested,.awaitingApproval,.authorized,.executing]
  let x ← read
  if op.state = .executing then
    if op.irreversibleAt.isSome then
      move self { op with cancelRequested := some reason,updatedAt := x.now 0 }
    else
      move self
        { op with
          state := .cancelled
          challenge := none
          cancelRequested := some reason
          reason := some reason
          updatedAt := x.now 0 }
  else
    move self
      { op with
        state := .cancelled
        challenge := none
        reason := some reason
        updatedAt := x.now 0 }

def dependsOn (grantIds : List Text) (op : Operation) : Bool :=
  op.grantDeps.any grantIds.contains

/-- An operation that was not over when it was read, and depends on one of the grants. -/
def toCancel (grantIds : List Text) (op : Operation) : Bool :=
  !terminal.contains op.state && dependsOn grantIds op

/-- The operations that are still to be looked at, as they were when the walk began. -/
def cancelEach (grantIds : List Text) (reason : Text) :
    List Operation → List Operation → Code (List Operation)
  | [],touched => return touched
  | op :: rest,touched =>
    if toCancel grantIds op then do
      let cancelled ← cancel self op.id reason
      awaits (.cancelling (rest.filter (toCancel grantIds)))
      cancelEach grantIds reason rest (touched ++ [cancelled])
    else cancelEach grantIds reason rest touched

def cancelDependingOn (grantIds : List Text) (reason : Text) : Code (List Operation) := do
  cancelEach self grantIds reason (← get).hub.ops.values []

/-- After a restart: what was executing may or may not have taken effect, and what
ran out of time is closed. -/
def recoverEach (time : Int) :
    List Operation → List Operation × List Operation → Code (List Operation × List Operation)
  | [],found => return found
  | op :: rest,(unknown,expired) =>
    if op.state = .executing then do
      let op' ← move self
        { op with
          state := .outcomeUnknown
          reason := some "interrupted".toList
          updatedAt := time }
      recoverEach time rest (unknown ++ [op'],expired)
    else if (op.state = .awaitingApproval ∨ op.state = .requested) ∧ op.approvalDeadline < time
    then do
      let op' ← move self
        { op with
          state := .cancelled
          challenge := none
          reason := some "approval-expired".toList
          updatedAt := time }
      recoverEach time rest (unknown,expired ++ [op'])
    else if op.state = .authorized ∧ op.executeBy.any (· < time) then do
      let op' ← move self
        { op with
          state := .cancelled
          reason := some "not-started-in-time".toList
          updatedAt := time }
      recoverEach time rest (unknown,expired ++ [op'])
    else recoverEach time rest (unknown,expired)

def recover : Code (List Operation × List Operation) := do
  let t := (← read).now 0
  recoverEach self t (← get).hub.ops.values ([],[])

inductive Reconciled
  | applied
  | failed
  deriving DecidableEq

def resolveUnknown (id : Text) (outcome : Reconciled) (detail : Text) : Code Operation := do
  let op ← must id [.outcomeUnknown]
  let x ← read
  match outcome with
  | .applied =>
    move self
      { op with state := .applied,resultDigest := some detail,updatedAt := x.now 0 }
  | .failed => move self { op with state := .failed,reason := some detail,updatedAt := x.now 0 }

end

end Flagship.Authority.OperationLedger

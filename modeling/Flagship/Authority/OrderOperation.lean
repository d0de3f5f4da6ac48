import Flagship.Authority.GrantIndex
import Flagship.Authority.OperationLedger

namespace Flagship.Authority
open Lib

structure RevocationReport where
  epoch : Int
  revoked : List Grant
  cancelledOperations : List Operation
  stoppedWork : List Text
  /-- Work whose cancel handler threw or ran past the deadline. -/
  stuckWork : List Text
  deriving DecidableEq

namespace AuthorityHub

/-- Register running work against the grants it runs under. -/
def registerWork (grantIds : List Text) (label : Text) (order : Option Nat) : Code Text := do
  let seq := (← get).hub.seq + 1
  let id := 'w' :: Nat.toDigits 10 seq
  modify fun d =>
    { d with hub := { d.hub with seq := seq,work := d.hub.work.set id ⟨label,grantIds,order⟩ } }
  return id

/-- What `registerWork` returns. -/
def unregister (id : Text) : Code Unit := do
  modify fun d => { d with hub := { d.hub with work := d.hub.work.erase id } }
  notes [.unregisters id]

/-- The handlers of a kind of grant, one after another, each under a deadline. -/
def awaitRevoked (handlers : List GrantKind) : List Grant → Code Unit
  | [] => return ()
  | g :: rest => do
    (handlers.filter (· = g.kind)).forM fun _ => awaits (.revokedHandler g.id)
    awaitRevoked handlers rest

/-- The cancel handlers that were called, until the last of them has ended. -/
def awaitHandlers : Nat → List (Text × Work) → List Text → List Text →
    Code (List Text × List Text)
  | 0,_,stopped,stuck => do
    awaits (.handlers [])
    return (stopped,stuck)
  | n + 1,pending,stopped,stuck => do
    awaits (.handlers (pending.map Prod.fst))
    let x ← read
    let place := x.handler % pending.length
    match pending[place]? with
    | none => awaitHandlers n pending stopped stuck
    | some (id,w) =>
      if x.handled then
        modify fun d => { d with hub := { d.hub with work := d.hub.work.erase id } }
        awaitHandlers n (pending.eraseIdx place) (stopped ++ [w.label]) stuck
      else awaitHandlers n (pending.eraseIdx place) stopped (stuck ++ [w.label])

/-- Work that runs under one of these grants. -/
def runsUnder (ids : List Text) (w : Work) : Bool := w.grants.any ids.contains

/-- The cancel handlers are called, all at once. -/
def cancelAll (doomed : List (Text × Work)) : Code Unit := do
  modify fun d => { d with flagged := d.flagged ++ doomed.filterMap (·.2.order) }
  notes (doomed.map (.cancels ·.1))

variable (self : Nat)

def revoke (grantId reason : Text) : Code RevocationReport := do
  let started := (← read).now 0
  let result ← GrantIndex.revoke grantId reason started
  awaits .grantRevoked
  let ids := result.revoked.map (·.id)
  awaitRevoked (← get).hub.revokedHandlers result.revoked
  let cancelledOperations ←
    OperationLedger.cancelDependingOn self ids ("grant revoked: ".toList ++ reason)
  awaits (.cancelling [])
  let doomed := (← get).hub.work.entries.filter fun entry => runsUnder ids entry.2
  cancelAll doomed
  let (stopped,stuck) ← awaitHandlers doomed.length doomed [] []
  return ⟨result.epoch,result.revoked,cancelledOperations,stopped,stuck⟩

def revokeEach (reason : Text) :
    List Grant → List RevocationReport → Code (List RevocationReport)
  | [],reports => return reports
  | g :: rest,reports => do
    let report ← revoke self g.id reason
    awaits .grantRevoked
    revokeEach reason rest (reports ++ [report])

def revokeService (service reason : Text) : Code (List RevocationReport) := do
  let roots := (← get).hub.grants.values.filter fun g =>
    decide (g.service = some service) && g.revokedAt.isNone
  revokeEach self reason roots []

end AuthorityHub

open Lib Mesh OperationLedger

structure OrderOperationInput where
  kind : Text
  requester : Text
  idempotencyKey : Text
  canonicalPayload : Text
  capabilityDigest : Option Text
  grantDeps : List Text
  approvedBy : Text
  orderSignatureHex : Text
  label : Text
  retryInterruptedAttempt : Bool
  deriving DecidableEq

inductive NotRun
  | alreadyApplied
  | inProgress
  | refused
  deriving DecidableEq

inductive OrderOperationResult
  | ran (value operationId : Text)
  | notRan (reason : NotRun) (operationId detail : Option Text)
  deriving DecidableEq

/-- An earlier try of the same order. A kind that is empty takes every kind. -/
def isAttempt (input : OrderOperationInput) (op : Operation) : Bool :=
  (decide (input.kind = []) || decide (op.kind = input.kind)) &&
    decide (op.requester = input.requester) &&
    (decide (op.idempotencyKey = input.idempotencyKey) ||
      (input.idempotencyKey ++ ['#']).isPrefixOf op.idempotencyKey)

def isRetired (op : Operation) : Bool :=
  decide (op.state = .failed) || decide (op.state = .cancelled)

def attempts (input : OrderOperationInput) (l : OperationLedger) : List Operation :=
  l.values.filter (isAttempt input)

/-- The key of this try: that of the try that is not over, or the next numbered one. -/
def attemptKey (input : OrderOperationInput) (l : OperationLedger) : Text :=
  match (attempts input l).find? (!isRetired ·) with
  | some live => live.idempotencyKey
  | none =>
    let retired := ((attempts input l).filter isRetired).length
    if retired = 0 then input.idempotencyKey
    else input.idempotencyKey ++ '#' :: Nat.toDigits 10 retired

section
variable (self : Nat)

/-- Interrupted tries are closed as failed, where the order says they may be. -/
def retryEach : List Operation → Code Unit
  | [] => return ()
  | op :: rest => do
    if op.state = .outcomeUnknown then
      let _ ← resolveUnknown self op.id .failed "interrupted; asked again".toList
    retryEach rest

/-- The call is to carry out an operation it finds requested, or has done so. -/
def holds (op : Operation) : Code Unit :=
  modify fun d =>
    if op.state = .requested then { d with hands := d.hands ++ [(self,op.id)] } else d

def letsGo : Code Unit :=
  modify fun d => { d with hands := d.hands.filter (·.1 ≠ self) }

/-- `ctx.crossPointOfNoReturn`. -/
def crosses (id : Text) : Code Unit := do
  if (← get).flagged.contains self then
    refuses .authorityLost "cancelled before the commit"
  else
    let _ ← crossPointOfNoReturn self id

/-- The callback, which comes back after at most so many moves. -/
def runExec (id : Text) : Nat → Code (Text × Text)
  | 0 => throw (.thrown [])
  | moves + 1 => do
    awaits (.exec id)
    match (← read).exec with
    | .pauses => runExec id moves
    | .crosses =>
      match ← attempt (crosses self id) with
      | .ok () => runExec id moves
      | .error e => if (← read).catches then runExec id moves else throw e
    | .returns value resultDigest => return (value,resultDigest)
    | .throws message => throw (.thrown message)

/-- `await exec(ctx)`. -/
def exec (id : Text) (moves : Nat) : Code (Text × Text) := do
  modify fun d => { d with running := d.running ++ [(self,id)] }
  notes [.execStarts self id]
  let out ← attempt (runExec self id moves)
  modify fun d => { d with running := d.running.filter (·.1 ≠ self) }
  match out with
  | .error e => throw e
  | .ok out =>
    awaits (.executed id)
    return out

/-- The operation is authorized, begun, carried out and completed. -/
def carryOut (input : OrderOperationInput) (id : Text) (moves : Nat) :
    Code OrderOperationResult := do
  let _ ← authorizeVerifiedOrder self id ⟨input.approvedBy,input.orderSignatureHex⟩ 120000
  awaits (.authorized id)
  let _ ← begins self id
  awaits (.begun id)
  let (value,resultDigest) ← exec self id moves
  let _ ← complete self id resultDigest
  return .ran value id

/-- An operation that is not over is failed, if that can be written. -/
def closes (id reason : Text) : Code Unit := do
  match (← get).hub.ops.ops.get? id with
  | none => return ()
  | some op =>
    if [OperationState.authorized,.executing,.requested].contains op.state then
      let _ ← attempt (fail self id reason)

/-- A refusal of the ledger is an answer; anything else is thrown again. -/
def rethrows (id : Text) (e : Failure) : Code OrderOperationResult :=
  match e with
  | .ledger _ message => return .notRan .refused (some id) (some message)
  | e => throw e

/-- What the order does when something threw on its way. -/
def giveUp (id : Text) (e : Failure) : Code OrderOperationResult := do
  awaits (.caught id)
  closes self id e.message
  rethrows id e

/-- `finally`: the work is not registered any more, whatever came of it. -/
def finishes (work : Text) (answer : Except Failure OrderOperationResult) :
    Code OrderOperationResult := do
  AuthorityHub.unregister work
  letsGo self
  match answer with
  | .error e => throw e
  | .ok answer => return answer

/-- The operation is carried out, as work that a revocation may cancel. -/
def carriesOut (input : OrderOperationInput) (id : Text) (moves : Nat) :
    Code OrderOperationResult := do
  let work ← AuthorityHub.registerWork input.grantDeps input.label (some self)
  finishes self work (← attempt (tryCatch (carryOut self input id moves) (giveUp self id)))

/-- What the order does with the operation it found or made. -/
def goesOn (input : OrderOperationInput) (op : Operation) (moves : Nat) :
    Code OrderOperationResult := do
  holds self op
  awaits (.requested op)
  if op.state = .applied then return .notRan .alreadyApplied (some op.id) none
  else if op.state = .executing ∨ op.state = .outcomeUnknown then
    return .notRan .inProgress (some op.id) none
  else if op.state ≠ .requested then
    return .notRan .refused (some op.id) (some ("operation is ".toList ++ op.state.text))
  else carriesOut self input op.id moves

/-- What the order asks the ledger for. -/
def OrderOperationInput.request (input : OrderOperationInput) (key : Text) : RequestInput where
  requester := input.requester
  kind := input.kind
  idempotencyKey := key
  canonicalPayload := input.canonicalPayload
  capabilityDigest := input.capabilityDigest
  expectedRevision := 0
  grantDeps := input.grantDeps
  approvalTtlMs := 120000

variable [Sha256]

def runOrderOperation (input : OrderOperationInput) (moves : Nat) :
    Code OrderOperationResult := do
  if input.retryInterruptedAttempt then
    retryEach self (attempts input (← get).hub.ops)
  let key := attemptKey input (← get).hub.ops
  match ← attempt (request self (input.request key)) with
  | .error e => return .notRan .refused none (some e.message)
  | .ok op => goesOn self input op moves

end

open Lib Mesh

/-- What may be asked of the authority state of a daemon. -/
inductive Call
  | request (input : RequestInput)
  | awaitApproval (id : Text)
  | approve (id : Text) (approval : ApprovalInput) (executeWithinMs : Int)
  | authorizeVerifiedOrder (id : Text) (order : VerifiedOrder) (executeWithinMs : Int)
  | begins (id : Text)
  | crossPointOfNoReturn (id : Text)
  | complete (id resultDigest : Text)
  | fail (id reason : Text)
  | cancel (id reason : Text)
  | cancelDependingOn (grantIds : List Text) (reason : Text)
  | resolveUnknown (id : Text) (outcome : OperationLedger.Reconciled) (detail : Text)
  /-- What `openAuthorityHub` does after the files are loaded. -/
  | recovers
  | issue (input : NewGrant)
  | revokeGrant (id reason : Text) (time : Int)
  | revokeGrants (service reason : Text) (time : Int)
  | prune (olderThanMs time : Int)
  | registerWork (grantIds : List Text) (label : Text)
  | unregister (work : Text)
  | revoke (grantId reason : Text)
  | revokeService (service reason : Text)
  /-- An order, whose callback comes back after at most so many moves. -/
  | order (input : OrderOperationInput) (moves : Nat)
  deriving DecidableEq

inductive Answer
  | nothing
  | operation (op : Operation)
  | operations (touched : List Operation)
  | recovered (unknown expired : List Operation)
  | grant (g : Grant)
  | revocation (result : RevocationResult)
  | count (n : Nat)
  | work (id : Text)
  | report (r : RevocationReport)
  | reports (rs : List RevocationReport)
  | order (result : OrderOperationResult)
  deriving DecidableEq

/-- `await ledger.recover()`, whose failure is passed over. -/
def recovers (self : Nat) : Code Answer := do
  modify fun d => { d with phase := .opening self }
  let found ← attempt (OperationLedger.recover self)
  modify fun d => { d with phase := .opened }
  match found with
  | .ok (unknown,expired) => return .recovered unknown expired
  | .error _ => return .recovered [] []

variable [Sha256]

def body (call : Call) (self : Nat) : Code Answer :=
  match call with
  | .request input => do return .operation (← OperationLedger.request self input)
  | .awaitApproval id => do return .operation (← OperationLedger.awaitApproval self id)
  | .approve id approval within => do
    return .operation (← OperationLedger.approve self id approval within)
  | .authorizeVerifiedOrder id order within => do
    return .operation (← OperationLedger.authorizeVerifiedOrder self id order within)
  | .begins id => do return .operation (← OperationLedger.begins self id)
  | .crossPointOfNoReturn id => do
    return .operation (← OperationLedger.crossPointOfNoReturn self id)
  | .complete id resultDigest => do
    return .operation (← OperationLedger.complete self id resultDigest)
  | .fail id reason => do return .operation (← OperationLedger.fail self id reason)
  | .cancel id reason => do return .operation (← OperationLedger.cancel self id reason)
  | .cancelDependingOn grantIds reason => do
    return .operations (← OperationLedger.cancelDependingOn self grantIds reason)
  | .resolveUnknown id outcome detail => do
    return .operation (← OperationLedger.resolveUnknown self id outcome detail)
  | .recovers => recovers self
  | .issue input => do return .grant (← GrantIndex.issue input)
  | .revokeGrant id reason time => do
    return .revocation (← GrantIndex.revoke id reason time)
  | .revokeGrants service reason time => do
    return .revocation (← GrantIndex.revokeService service reason time)
  | .prune olderThanMs time => do return .count (← GrantIndex.prune olderThanMs time)
  | .registerWork grantIds label => do
    return .work (← AuthorityHub.registerWork grantIds label none)
  | .unregister work => do
    AuthorityHub.unregister work
    return .nothing
  | .revoke grantId reason => do return .report (← AuthorityHub.revoke self grantId reason)
  | .revokeService service reason => do
    return .reports (← AuthorityHub.revokeService self service reason)
  | .order input moves => do return .order (← runOrderOperation self input moves)

/-- The daemon, its calls and its restarts. -/
def service : Service Call Daemon Outside Place Failure Answer Restart := ⟨body,restart⟩

abbrev Process : Type := Loop Call Daemon Outside Place Failure Answer

abbrev ProcessTurn : Type := Turn Call Outside Restart

end Flagship.Authority

import Flagship.Authority.OrderOperation
import Flagship.Lib.Resolve

namespace Flagship.Authority
open Lib Mesh

/-- A daemon before anything happened. -/
def Daemon.new (hub : AuthorityHub) : Daemon :=
  { hub := hub
    operationsFile := .missing
    grantsFile := .missing
    grantsAsked := 0
    grantsBegun := 0
    phase := .down
    hands := []
    running := []
    flagged := []
    history := [] }

/-- A ledger that was loaded, and no call yet. -/
def ledgerLoaded (ops : List Operation) : Process :=
  ⟨{ Daemon.new { AuthorityHub.new [] with ops := .ofFile ops } with
      operationsFile := ⟨[ops],1⟩ },[]⟩

def stateOf (d : Daemon) (id : Text) : Option OperationState :=
  (d.hub.ops.ops.get? id).map (·.state)

/-- The transitions of the ledger a caller may ask for. -/
def isTransition : Call → Bool
  | .request _ | .awaitApproval _ | .approve _ _ _ | .authorizeVerifiedOrder _ _ _ | .begins _
  | .crossPointOfNoReturn _ | .complete _ _ | .fail _ _ | .cancel _ _
  | .cancelDependingOn _ _ => true
  | _ => false

/-- `randomBytes` gives an id no operation has. -/
def FreshId (x : Outside) (d : Daemon) : Prop := d.hub.ops.ops.get? (x.random 0) = none

/-- The writes of the ledger are made in the order they were asked for. -/
def inTurn (place : Place) (d : Daemon) : Bool :=
  match place with
  | .opsWrite _ ticket => d.operationsFile.known == ticket
  | _ => true

/-- The transitions, with successful writes and no restart. -/
def transitions : Grounds Call Daemon Outside Place Restart where
  made c x d := isTransition c = true ∧ FreshId x d
  resumed _ place x d := x.persisted = true ∧ inTurn place d = true
  crashed _ _ := False

/-- The check that comes back finds against the operation. -/
def recheckFails (x : Outside) (op : Operation) (irreversible : Bool) : Bool :=
  decide (x.revision ≠ op.expectedRevision) || (irreversible && op.approval.isNone)

/-- Every commit that starts or goes on with an operation was answered. -/
def startsAnswered (id : Text) (d : Daemon) : Bool :=
  d.history.all fun e => match e with
    | .commits call _ next => decide (next.id = id ∧ next.state = .executing →
        .answers call next ∈ d.history)
    | _ => true

/-- A `begin` or `crossPointOfNoReturn` comes back from its check to an operation
in the state it read, and one that is refused there to one that is not applied or
failed; a cancellation is not answered ahead of a start of its operation. -/
def asRead (place : Place) (x : Outside) (d : Daemon) : Bool :=
  match place with
  | .revision op irreversible => decide (recheckFails x op irreversible = true →
      stateOf d op.id ≠ some .applied ∧ stateOf d op.id ≠ some .failed)
  | .rechecked op => decide (stateOf d op.id = some op.state)
  | .opsWrite next _ => decide (next.state = .cancelled → startsAnswered next.id d = true)
  | _ => true

/-- What is written back is still as it was read. -/
def stillAsRead : Grounds Call Daemon Outside Place Restart where
  made _ _ _ := True
  resumed _ place x d := asRead place x d = true
  crashed _ _ := True

instance : transitions.Checkable where
  made _ _ _ := inferInstanceAs (Decidable (_ = true ∧ _ = none))
  resumed _ _ _ _ := inferInstanceAs (Decidable (_ = true ∧ _ = true))
  crashed _ _ := isFalse not_false

instance : stillAsRead.Checkable where
  made _ _ _ := isTrue trivial
  resumed _ _ _ _ := inferInstanceAs (Decidable (_ = true))
  crashed _ _ := isTrue trivial

/-- At most one `begin` of an operation resolved. -/
def StartsOnce (w : Process) : Prop :=
  ∀ id i j op op',w.ended i (.begins id) (.ok (.operation op)) →
    w.ended j (.begins id) (.ok (.operation op')) → i = j

/-- A cancellation resolved with the operation cancelled: a `cancel`, or one that
`cancelDependingOn` made on its way. -/
def CancelResolved (w : Process) (id : Text) : Prop :=
  (∃ i reason op,w.ended i (.cancel id reason) (.ok (.operation op)) ∧ op.state = .cancelled) ∨
    ∃ i op,.answers i op ∈ w.shared.history ∧ op.id = id ∧ op.state = .cancelled

/-- A call that lets an operation start, or go on past the point of no return. -/
def letsGoOn (id : Text) (c : Call) : Prop := c = .begins id ∨ c = .crossPointOfNoReturn id

/-- What was settled at one point of a run still is at a later one. -/
structure StaysSettled (earlier later : Process) : Prop where
  cancelled : ∀ id,CancelResolved earlier id → stateOf later.shared id = some .cancelled ∧
    ∀ i c answer,letsGoOn id c → later.ended i c (.ok answer) → earlier.ended i c (.ok answer)
  terminal : ∀ id state,state ∈ [OperationState.applied,.failed,.cancelled] →
    stateOf earlier.shared id = some state → stateOf later.shared id = some state

variable [Sha256]

/-- Cancelled work never starts, and no operation starts twice. -/
def CancelledNeverStarts (start : Process) (turns : List ProcessTurn) : Prop :=
  StartsOnce (run service.turn start turns) ∧
    ∀ first middle last,turns = first ++ middle ++ last →
      StaysSettled (run service.turn start first) (run service.turn start (first ++ middle))

end Flagship.Authority

namespace Flagship.Authority
open Lib

/-- A file of grants that was found, or that is missing. -/
def StateFile.ofFound : Option GrantsFile → StateFile GrantsFile
  | none => .missing
  | some file => ⟨[file],1⟩

/-- A daemon that has loaded its grants, and no call yet. -/
def grantsLoaded (file : Option GrantsFile) : Process :=
  ⟨{ Daemon.new { AuthorityHub.new [] with grants := .load (.ofFound file) true } with
      grantsFile := .ofFound file },[]⟩

def isGrantCall : Call → Bool
  | .issue _ | .revokeGrant _ _ _ | .revokeGrants _ _ _ | .prune _ _ => true
  | _ => false

/-- The writes of the grants have their turn in the order they were asked for. -/
def grantsInTurn (place : Place) (d : Daemon) : Bool :=
  match place with
  | .grantsTurn _ _ number => number == d.grantsBegun
  | _ => true

/-- The calls of the grant index. Any write may fail, and the process may die. -/
def grantCalls : Grounds Call Daemon Outside Place Restart where
  made c _ _ := isGrantCall c = true
  resumed _ place _ d := grantsInTurn place d = true
  crashed r _ := r.grantsReadable = true

/-- What a start finds; a missing file counts as one without grants. -/
def GrantsFile.found (file : StateFile GrantsFile) : GrantsFile := file.content.getD ⟨0,[]⟩

/-- The write of a revocation does not fail, and that of an issue only as long as its
grant is not revoked. -/
def writeStands (place : Place) (x : Outside) (d : Daemon) : Bool :=
  match place with
  | .grantsFolder write _ | .grantsWrite write _ => x.persisted || match write with
    | .issue id => !(d.hub.grants.get? id).any (·.revokedAt.isSome)
    | .revoke _ => false
    | .prune => true
  | _ => true

/-- What a revocation did is not lost: neither to a write that fails, nor to a crash
that finds a file with an earlier epoch. -/
def durable : Grounds Call Daemon Outside Place Restart where
  made _ _ _ := True
  resumed _ place x d := writeStands place x d = true
  crashed r d :=
    d.hub.grants.epochValue ≤ (GrantsFile.found (d.grantsFile.crash r.grantsMade)).epoch

/-- The id was pruned and issued again after that. -/
def IssuedAnew (id : Text) (events : List Event) : Prop :=
  ∃ before between after,events = before ++ .prunes id :: between ++ .issues id :: after

structure StaysRevoked [Mesh.Sha256] (start : Process) (turns : List ProcessTurn) : Prop where
  /-- A grant whose revocation resolved, and what derives from it. -/
  dead : ∀ before id reason time x middle later result,
    turns = before ++ .call (.revokeGrant id reason time) x :: middle ++ later →
    (run service.turn start before).shared.hub.grants.grants.contains id = true →
    (run service.turn start (before ++ .call (.revokeGrant id reason time) x :: middle)).ended
      (run service.turn start before).calls.length (.revokeGrant id reason time) (.ok result) →
    IssuedAnew id ((run service.turn start turns).shared.history.drop
      (run service.turn start before).shared.history.length) ∨
    ∀ a now,(run service.turn start turns).shared.hub.grants.Derives a id →
      (run service.turn start turns).shared.hub.grants.isLive a now = false
  epoch : ∀ earlier later,turns = earlier ++ later →
    (run service.turn start earlier).shared.hub.grants.epochValue ≤
      (run service.turn start turns).shared.hub.grants.epochValue

instance : grantCalls.Checkable where
  made _ _ _ := inferInstanceAs (Decidable (_ = true))
  resumed _ _ _ _ := inferInstanceAs (Decidable (_ = true))
  crashed _ _ := inferInstanceAs (Decidable (_ = true))

instance : durable.Checkable where
  made _ _ _ := isTrue trivial
  resumed _ _ _ _ := inferInstanceAs (Decidable (_ = true))
  crashed _ _ := inferInstanceAs (Decidable (_ ≤ _))

end Flagship.Authority

namespace Flagship.Authority
open Lib Mesh

/-- A daemon that was never started. -/
def firstStart (revokedHandlers : List GrantKind) : Process :=
  ⟨Daemon.new (.new revokedHandlers),[]⟩

/-- The same kind, requester, key and payload. -/
def sameOrder (order input : OrderOperationInput) : Bool :=
  decide (input.kind = order.kind) && decide (input.requester = order.requester) &&
    decide (input.idempotencyKey = order.idempotencyKey) &&
    decide (input.canonicalPayload = order.canonicalPayload)

/-- `randomBytes` gives an id that is in no use and never was. -/
def drawsNew (x : Outside) (d : Daemon) : Bool :=
  decide (x.random 0 ≠ []) && !d.hub.ops.ops.contains (x.random 0) &&
    d.history.all fun e => match e with
      | .commits _ _ op => decide (op.id ≠ x.random 0)
      | _ => true

/-- The order, once the daemon is open, and what opens it. -/
def ordersOrOpens (order : OrderOperationInput) (c : Call) (x : Outside) (d : Daemon) : Bool :=
  match c with
  | .order input _ => sameOrder order input && !input.retryInterruptedAttempt &&
      decide (d.phase = .opened) && drawsNew x d
  | .recovers => decide (d.phase = .down)
  | _ => false

/-- Calls of one order, with restarts that find the ledger, and successful writes. -/
def orderCalls (order : OrderOperationInput) : Grounds Call Daemon Outside Place Restart where
  made c x d := ordersOrOpens order c x d = true
  resumed _ place x d := x.persisted = true ∧ inTurn place d = true
  crashed r _ := r.opsReadable = true

/-- An attempt another call of the order may come upon: one that is requested was
written and nobody is to carry it out, and one that is over is not being carried
out any more. -/
def isFree (d : Daemon) (op : Operation) : Bool :=
  (decide (op.state ≠ .requested) ||
    decide (d.hub.ops.byKey.get? (lookupKey op.requester op.idempotencyKey) = some op.id) &&
      d.hands.all (·.2 ≠ op.id)) &&
    (!isRetired op || d.running.all (·.2 ≠ op.id))

/-- An order is asked for only where the attempts so far leave room for it. -/
def oneAtATime : Grounds Call Daemon Outside Place Restart where
  made c _ d := match c with
    | .order _ _ => d.hub.ops.values.all (isFree d) = true
    | _ => True
  resumed _ _ _ _ := True
  crashed _ _ := True

/-- The order took effect, or nobody can tell whether it did. -/
def concludes : Event → Bool
  | .commits _ _ next => decide (next.state = .applied) || decide (next.state = .outcomeUnknown)
  | .interrupts _ => true
  | _ => false

/-- Two callbacks of the order never overlap, and none is started once an attempt
was applied or interrupted. -/
structure TakesEffectOnce (d : Daemon) : Prop where
  alone : d.running.length ≤ 1
  last : ∀ before e after,d.history = before ++ e :: after → concludes e = true →
    ∀ i id,.execStarts i id ∉ after

instance (order : OrderOperationInput) : (orderCalls order).Checkable where
  made _ _ _ := inferInstanceAs (Decidable (_ = true))
  resumed _ _ _ _ := inferInstanceAs (Decidable (_ = true ∧ _ = true))
  crashed _ _ := inferInstanceAs (Decidable (_ = true))

instance : oneAtATime.Checkable where
  made c _ _ := match c with
    | .order _ _ => inferInstanceAs (Decidable (_ = true))
    | .request _ | .awaitApproval _ | .approve _ _ _ | .authorizeVerifiedOrder _ _ _ | .begins _
    | .crossPointOfNoReturn _ | .complete _ _ | .fail _ _ | .cancel _ _
    | .cancelDependingOn _ _ | .resolveUnknown _ _ _ | .recovers | .issue _ | .revokeGrant _ _ _
    | .revokeGrants _ _ _ | .prune _ _ | .registerWork _ _ | .unregister _ | .revoke _ _
    | .revokeService _ _ => isTrue trivial
  resumed _ _ _ _ := isTrue trivial
  crashed _ _ := isTrue trivial

end Flagship.Authority

namespace Flagship.Authority
open Lib

/-- The operation is over, or past its point of no return with a cancellation recorded. -/
def isStopped (op : Operation) : Bool :=
  terminal.contains op.state || op.irreversibleAt.isSome && op.cancelRequested.isSome

/-- A daemon that has loaded its files, and no call yet. -/
def hubLoaded (grants : GrantsFile) (ops : List Operation) (revokedHandlers : List GrantKind) :
    Process :=
  ⟨{ Daemon.new
      { AuthorityHub.new revokedHandlers with grants := .ofFile grants,ops := .ofFile ops } with
    operationsFile := ⟨[ops],1⟩
    grantsFile := ⟨[grants],1⟩ },[]⟩

/-- The calls of the ledger, and those that issue and revoke grants and register work. -/
def isHubCall : Call → Bool
  | .resolveUnknown _ _ _ | .issue _ | .revokeGrant _ _ _ | .revokeGrants _ _ _
  | .registerWork _ _ | .unregister _ | .revoke _ _ | .revokeService _ _ => true
  | c => isTransition c

/-- The calls of the hub, with successful writes and no restart. -/
def hubCalls : Grounds Call Daemon Outside Place Restart where
  made c x d := isHubCall c = true ∧ FreshId x d
  resumed _ _ x _ := x.persisted = true
  crashed _ _ := False

/-- What depends on a grant that is to end depends on one that the revocation revokes. -/
def isCovered (index : GrantIndex) (id : Text) (deps : List Text) : Bool :=
  !deps.any (index.family id).contains || deps.any (index.revokes id).contains

/-- The revocation finds its grant, and revokes what anything still depends on. -/
def coversAll (id : Text) (d : Daemon) : Bool :=
  d.hub.grants.grants.contains id &&
    (d.hub.ops.values.all fun op => isStopped op || isCovered d.hub.grants id op.grantDeps) &&
    d.hub.work.entries.all fun entry => d.history.contains (.cancels entry.1) ||
      isCovered d.hub.grants id entry.2.grants

/-- A revocation that goes on finds the next operation it is to cancel not over by
then, and a check comes back to an operation that was not stopped meanwhile. -/
def findsOpen (c : Call) (place : Place) (d : Daemon) : Bool :=
  match place with
  | .cancelling (op :: _) => match c with
    | .revoke _ _ => (d.hub.ops.ops.get? op.id).any fun now => !terminal.contains now.state
    | _ => true
  | .rechecked op => (d.hub.ops.ops.get? op.id).all fun now => !isStopped now || isStopped op
  | _ => true

def reachable : Grounds Call Daemon Outside Place Restart where
  made c _ d := match c with
    | .revoke id _ => coversAll id d = true
    | _ => True
  resumed c place _ d := findsOpen c place d = true
  crashed _ _ := True

/-- What a revocation has ended, from the state it began in. -/
structure Reached (id : Text) (began ended : Daemon) : Prop where
  grants : ∀ a time,ended.hub.grants.Derives a id → ended.hub.grants.isLive a time = false
  operations : ∀ op ∈ began.hub.ops.values,
    (∃ dep ∈ op.grantDeps,(began.hub.grants.get? dep).isSome ∧ began.hub.grants.Derives dep id) →
    ∃ now,ended.hub.ops.ops.get? op.id = some now ∧ isStopped now = true
  /-- Work that was not unregistered since. -/
  work : ∀ work w,began.hub.work.get? work = some w →
    (∃ dep ∈ w.grants,(began.hub.grants.get? dep).isSome ∧ began.hub.grants.Derives dep id) →
    .unregisters work ∉ ended.history.drop began.history.length → .cancels work ∈ ended.history

/-- A revocation made in this state of the process, among whatever calls follow. -/
structure RevocationReaches (grounds : Grounds Call Daemon Outside Place Restart) [Mesh.Sha256]
    (w : Process) (id reason : Text) (x : Outside) : Prop where
  /-- In the turn it ends it resolves, and has reached everything. -/
  reaches : ∀ turns turn result,
    Along service.turn grounds.allow w (.call (.revoke id reason) x :: turns ++ [turn]) →
    ¬ (run service.turn w (.call (.revoke id reason) x :: turns)).ended w.calls.length
      (.revoke id reason) result →
    (run service.turn w (.call (.revoke id reason) x :: turns ++ [turn])).ended w.calls.length
      (.revoke id reason) result →
    (∃ report,result = .ok (.report report)) ∧
      Reached id w.shared (run service.turn w (.call (.revoke id reason) x :: turns ++ [turn])).shared
  /-- It ends, if only it is resumed again and again. -/
  ends : ∀ schedule : Nat → ProcessTurn,
    (∀ n,Along service.turn grounds.allow w (.call (.revoke id reason) x :: first n schedule)) →
    (∀ n,∃ m y,n ≤ m ∧ schedule m = .resume w.calls.length y) →
    ∃ n result,(run service.turn w (.call (.revoke id reason) x :: first n schedule)).ended
      w.calls.length (.revoke id reason) result

instance : hubCalls.Checkable where
  made _ _ _ := inferInstanceAs (Decidable (_ = true ∧ _ = none))
  resumed _ _ _ _ := inferInstanceAs (Decidable (_ = true))
  crashed _ _ := isFalse not_false

instance : reachable.Checkable where
  made c _ _ := match c with
    | .revoke _ _ => inferInstanceAs (Decidable (_ = true))
    | .request _ | .awaitApproval _ | .approve _ _ _ | .authorizeVerifiedOrder _ _ _ | .begins _
    | .crossPointOfNoReturn _ | .complete _ _ | .fail _ _ | .cancel _ _
    | .cancelDependingOn _ _ | .resolveUnknown _ _ _ | .recovers | .issue _ | .revokeGrant _ _ _
    | .revokeGrants _ _ _ | .prune _ _ | .registerWork _ _ | .unregister _
    | .revokeService _ _ | .order _ _ => isTrue trivial
  resumed _ _ _ _ := inferInstanceAs (Decidable (_ = true))
  crashed _ _ := isTrue trivial

end Flagship.Authority

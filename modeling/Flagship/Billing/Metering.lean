import Mathlib.Algebra.BigOperators.Group.Finset.Basic
import Flagship.Billing.Meter
import Flagship.Lib.Run

namespace Flagship.Billing
open Lib

structure EdgeLease where
  action : MeterAction
  grant : Rat
  policy : OverAllowancePolicy
  ttlMs : Int
  deriving DecidableEq

structure LeaseBookOptions where
  /-- Units an account with no lease may use before its first answer arrives. -/
  initialGrant : Rat
  unknownPolicy : OverAllowancePolicy
  /-- Report an account once it has spent this share of its grant. -/
  renewAt : Rat
  failOpen : Bool
  maxItems : Nat
  retryForMs : Int
  forgetAfterMs : Int
  deriving DecidableEq

/-- Some units of an account. -/
structure EdgeItem where
  account : Text
  amount : Rat
  deriving DecidableEq

structure EdgeBatch where
  id : Text
  items : List EdgeItem
  takenAt : Int
  attempts : Nat
  retryAt : Int
  deriving DecidableEq

structure HeldLease where
  action : MeterAction
  grant : Rat
  policy : OverAllowancePolicy
  expiresAt : Int
  deriving DecidableEq

structure AccountState where
  /-- Used and not yet in a batch. -/
  pending : Rat
  /-- Used since the current lease's base, or since first seen. -/
  spent : Rat
  lastUseAt : Int
  lease : Option HeldLease
  deriving DecidableEq

structure LeaseBook where
  opts : LeaseBookOptions
  states : OrdMap Text AccountState
  due : OrdMap Text Unit
  retained : Option EdgeBatch
  inFlight : Option EdgeBatch
  unreachable : Bool
  /-- Batches dropped unconfirmed. -/
  droppedBatches : Nat
  deriving DecidableEq

def retryBackoffMs : List Int := [1000,2000,5000,10000,30000]

inductive BatchMode
  | due
  | all
  deriving DecidableEq

/-- What a batch is being made of, and what it leaves behind. -/
structure Picking where
  items : List EdgeItem
  states : OrdMap Text AccountState
  due : OrdMap Text Unit
  deriving DecidableEq

def Picking.pick (p : Picking) (account : Text) (st : AccountState) : Picking :=
  ⟨p.items ++ [⟨account,st.pending⟩],p.states.set account { st with pending := 0 },p.due.erase account⟩

namespace LeaseBook

def new (opts : LeaseBookOptions) : LeaseBook := ⟨opts,∅,∅,none,none,false,0⟩

def isDue (book : LeaseBook) (st : AccountState) (now : Int) : Bool :=
  if st.pending ≤ 0 then false
  else
    match st.lease with
    | none => true
    | some l =>
      l.expiresAt ≤ now || (l.action == .allow && decide (book.opts.renewAt * l.grant ≤ st.spent))

/-- Count units for an account; whether this made the account due. -/
def use (book : LeaseBook) (account : Text) (amount : Rat) (now : Int) : LeaseBook × Bool :=
  if amount ≤ 0 then (book,false)
  else
    let old := (book.states.get? account).getD ⟨0,0,now,none⟩
    let st := { old with
      pending := old.pending + amount, spent := old.spent + amount, lastUseAt := now }
    let book := { book with states := book.states.set account st }
    if !book.due.contains account && book.isDue st now then
      ({ book with due := book.due.push account },true)
    else (book,false)

def restrict (book : LeaseBook) (p : OverAllowancePolicy) : MeterAction :=
  if p == .allow || (book.opts.failOpen && book.unreachable) then .allow else p

/-- What the host must do for this account right now. -/
def action (book : LeaseBook) (account : Text) : MeterAction :=
  match book.states.get? account with
  | none => .allow
  | some st =>
    match st.lease with
    | none => if book.opts.initialGrant ≤ st.spent then book.restrict book.opts.unknownPolicy else .allow
    | some l =>
      if l.action ≠ .allow then l.action
      else if l.grant ≤ st.spent then book.restrict l.policy else .allow

/-- The due accounts, up to a full batch. -/
def pickDue (maxItems : Nat) (p : Picking) (account : Text) : Picking :=
  if maxItems ≤ p.items.length then p
  else
    match p.states.get? account with
    | none => { p with due := p.due.erase account }
    | some st =>
      if st.pending ≤ 0 then { p with due := p.due.erase account } else p.pick account st

/-- Every account with unreported usage; what does not fit is due. -/
def pickAny (maxItems : Nat) (p : Picking) (account : Text) : Picking :=
  match p.states.get? account with
  | none => p
  | some st =>
    if st.pending ≤ 0 then p
    else if maxItems ≤ p.items.length then { p with due := p.due.push account }
    else p.pick account st

/-- The items of a new batch: the due accounts first, then any. -/
def pickItems (book : LeaseBook) (mode : BatchMode) : Picking :=
  let p := book.due.keys.foldl (pickDue book.opts.maxItems) ⟨[],book.states,book.due⟩
  match mode with
  | .due => p
  | .all => p.states.keys.foldl (pickAny book.opts.maxItems) p

/-- A new batch of what is pending, if anything is. -/
def makeBatch (book : LeaseBook) (now : Int) (mode : BatchMode) (newBatchId : Text) :
    LeaseBook × Option EdgeBatch :=
  let p := book.pickItems mode
  let book := { book with states := p.states, due := p.due }
  if p.items = [] then (book,none)
  else
    let b : EdgeBatch := ⟨newBatchId,p.items,now,1,now⟩
    ({ book with inFlight := some b },some b)

/-- A kept batch which was retried for long enough. -/
def expired (book : LeaseBook) (now : Int) : Option EdgeBatch :=
  book.retained.filter (fun b => decide (book.opts.retryForMs < now - b.takenAt))

/-- The next batch to send: a failed batch first, else the accounts due or every
account with unreported usage, under a new id. -/
def takeBatch (book : LeaseBook) (now : Int) (mode : BatchMode) (newBatchId : Text) :
    LeaseBook × Option EdgeBatch :=
  if book.inFlight.isSome then (book,none)
  else
    let book := if (book.expired now).isSome then
        { book with retained := none, droppedBatches := book.droppedBatches + 1 }
      else book
    match book.retained with
    | some b =>
      let b := { b with attempts := b.attempts + 1 }
      ({ book with retained := none, inFlight := some b },some b)
    | none => book.makeBatch now mode newBatchId

/-- What an answer makes of one account of its batch. -/
def settleAccount (leases : OrdMap Text EdgeLease) (now : Int) (book : LeaseBook) (account : Text) :
    LeaseBook :=
  let old := (book.states.get? account).getD ⟨0,0,now,none⟩
  let lease := match leases.get? account with
    | some l => some ⟨l.action,max 0 ⌊l.grant⌋,l.policy,now + max 0 l.ttlMs⟩
    | none => old.lease
  -- the grant is relative to central's total, which includes this batch and nothing since
  let st := { old with lease := lease, spent := old.pending }
  { book with
    states := book.states.set account st
    due := if book.isDue st now then book.due.push account else book.due.erase account }

/-- The batch an answer or a failure is about is no longer in flight. -/
def land (book : LeaseBook) (batch : EdgeBatch) : LeaseBook :=
  if book.inFlight.map EdgeBatch.id = some batch.id then { book with inFlight := none } else book

/-- Central answered a batch. Accounts missing from the answer keep their lease. -/
def settle (book : LeaseBook) (batch : EdgeBatch) (leases : OrdMap Text EdgeLease) (now : Int) :
    LeaseBook :=
  (batch.items.map EdgeItem.account).foldl (settleAccount leases now)
    { book.land batch with unreachable := false }

/-- The send failed: the same batch is tried again later, or central refused it and
it is dropped. -/
def failed (book : LeaseBook) (batch : EdgeBatch) (now : Int) (retry : Bool) : LeaseBook :=
  let book := book.land batch
  if retry then
    let wait := (retryBackoffMs[min (batch.attempts - 1) (retryBackoffMs.length - 1)]?).getD 0
    { book with unreachable := true, retained := some { batch with retryAt := now + wait } }
  else { book with droppedBatches := book.droppedBatches + 1 }

/-- Drop idle accounts whose lease lapsed long enough ago. -/
def prune (book : LeaseBook) (now : Int) : LeaseBook :=
  { book with states := book.states.filterMapVals (fun a st =>
      if 0 < st.pending || book.due.contains a then some st
      else
        let since := (st.lease.map HeldLease.expiresAt).getD st.lastUseAt
        if book.opts.forgetAfterMs ≤ now - since then none else some st) }

end LeaseBook

structure MeterLeasePolicy where
  /-- Share of the remaining allowance one lease may grant. -/
  fraction : Rat
  minGrant : Rat
  maxGrant : Rat
  ttlMs : Int
  /-- Lifetime of a lease that throttles or stops. -/
  overTtlMs : Int
  deriving DecidableEq

/-- What a verdict on an account's counter says to a lease. -/
structure MeterVerdict where
  account : Text
  resource : Text
  remaining : Rat
  policy : OverAllowancePolicy
  action : MeterAction
  /-- When the counter resets; never for a lifetime counter. -/
  resetsAt : Option Int
  deriving DecidableEq

structure MeterLease where
  account : Text
  resource : Text
  lease : EdgeLease
  deriving DecidableEq

/-- What makes a lease policy unusable. -/
inductive LeasePolicyError
  | fraction
  | minGrant
  | maxGrant
  | ttl
  deriving DecidableEq

def LeasePolicyError.message : LeasePolicyError → Text
  | .fraction => "fraction must be in (0, 1]".toList
  | .minGrant => "minGrant must be ≥ 0".toList
  | .maxGrant => "maxGrant must be ≥ minGrant".toList
  | .ttl => "ttlMs and overTtlMs must be positive".toList

def assertLeasePolicy (p : MeterLeasePolicy) : Except LeasePolicyError Unit :=
  if ¬ (0 < p.fraction ∧ p.fraction ≤ 1) then .error .fraction
  else if ¬ 0 ≤ p.minGrant then .error .minGrant
  else if ¬ p.minGrant ≤ p.maxGrant then .error .maxGrant
  else if ¬ (0 < p.ttlMs ∧ 0 < p.overTtlMs) then .error .ttl
  else .ok ()

/-- The lease for a verdict. -/
def meterLease (v : MeterVerdict) (p : MeterLeasePolicy) (now : Int) :
    Except LeasePolicyError MeterLease :=
  (assertLeasePolicy p).map fun _ =>
    let untilReset := fun (ttl : Int) => (v.resetsAt.map (fun r => min ttl (max 1 (r - now)))).getD ttl
    let lease : EdgeLease :=
      if v.policy = .allow then ⟨.allow,⌊p.maxGrant⌋,v.policy,untilReset p.ttlMs⟩
      else if v.action ≠ .allow ∨ v.remaining ≤ 0 then ⟨v.policy,0,v.policy,untilReset p.overTtlMs⟩
      else
        let sized := max p.minGrant (min p.maxGrant (v.remaining * p.fraction))
        ⟨.allow,⌊min v.remaining sized⌋,v.policy,untilReset p.ttlMs⟩
    ⟨v.account,v.resource,lease⟩

/-- What central is set up with: the periods of its resources, how long it keeps
batch ids, and the resource the edge meters. -/
structure MeterSetup where
  catalog : Text → Option MeterPeriod
  keepMs : Int
  resource : Text

/-- A batch as central counted it, and the period it counted it in. -/
structure CountedBatch where
  id : Text
  period : Text
  deriving DecidableEq

/-- One edge and central, with every batch the edge ever sent: a copy of each may
reach central at any time and any number of times. -/
structure Metering (σ : Type) where
  book : LeaseBook
  store : σ
  sent : List EdgeBatch
  /-- The batches central answered; the answer may have been lost. -/
  answered : List Text
  /-- What was used at the edge, use by use. -/
  used : List EdgeItem
  /-- The batches central counted. -/
  counted : List CountedBatch
  /-- The batches the edge dropped. -/
  dropped : List EdgeBatch
  deriving DecidableEq

inductive MeteringOp
  | use (account : Text) (amount : Rat) (now : Int)
  /-- The edge takes a batch; the id is what a new one gets. -/
  | takeBatch (now : Int) (mode : BatchMode) (newBatchId : Text)
  /-- A copy of a sent batch reaches central. -/
  | deliver (id : Text) (now : Int)
  /-- Central's answer to the batch in flight reaches the edge. -/
  | settle (leases : OrdMap Text EdgeLease) (now : Int)
  /-- The batch in flight failed, or its answer was lost. -/
  | failed (now : Int) (retry : Bool)
  | prune (now : Int)
  deriving DecidableEq

namespace Metering
variable {σ : Type} [MeterStore σ]

def new (opts : LeaseBookOptions) : Metering σ := ⟨.new opts,MeterStore.empty,[],[],[],[],[]⟩

/-- The report a batch is sent as. -/
def report (setup : MeterSetup) (b : EdgeBatch) : MeterReport :=
  ⟨some b.id,b.items.map (fun i => ⟨i.account,setup.resource,i.amount⟩)⟩

/-- The period central counts a batch in. -/
def periodAt (setup : MeterSetup) (now : Int) : Text :=
  ((setup.catalog setup.resource).map (fun p => meterPeriodKey p now)).getD []

def takeBatch (s : Metering σ) (now : Int) (mode : BatchMode) (newBatchId : Text) : Metering σ :=
  let gone := if s.book.inFlight.isSome then none else s.book.expired now
  let (book,batch) := s.book.takeBatch now mode newBatchId
  -- a kept batch which is taken again was sent before
  let fresh := if s.book.retained.isSome && gone.isNone then [] else batch.toList
  { s with book := book, sent := s.sent ++ fresh, dropped := s.dropped ++ gone.toList }

def deliver (setup : MeterSetup) (s : Metering σ) (id : Text) (now : Int) : Metering σ :=
  match s.sent.find? (fun b => b.id == id) with
  | none => s
  | some b =>
    match meterReport setup.catalog setup.keepMs s.store (report setup b) now with
    | .error _ => s
    | .ok (store,answer) =>
      { s with
        store := store
        answered := s.answered ++ [id]
        counted := if answer.duplicate then s.counted else s.counted ++ [⟨id,periodAt setup now⟩] }

def step (setup : MeterSetup) (s : Metering σ) : MeteringOp → Metering σ
  | .use account amount now =>
    { s with
      book := (s.book.use account amount now).1
      used := if amount ≤ 0 then s.used else s.used ++ [⟨account,amount⟩] }
  | .takeBatch now mode newBatchId => s.takeBatch now mode newBatchId
  | .deliver id now => deliver setup s id now
  | .settle leases now =>
    match s.book.inFlight with
    | none => s
    | some b => if b.id ∈ s.answered then { s with book := s.book.settle b leases now } else s
  | .failed now retry =>
    match s.book.inFlight with
    | none => s
    | some b =>
      { s with
        book := s.book.failed b now retry
        dropped := if retry then s.dropped else s.dropped ++ [b] }
  | .prune now => { s with book := s.book.prune now }

end Metering

/-- The units of an account among items. -/
def units (account : Text) (items : List EdgeItem) : Rat :=
  ((items.filter (fun i => i.account == account)).map EdgeItem.amount).sum

/-- Its units as central counts them, each item to the whole unit below. -/
def wholeUnits (account : Text) (items : List EdgeItem) : Rat :=
  ((items.filter (fun i => i.account == account)).map (fun i => (⌊i.amount⌋ : Rat))).sum

namespace Metering
variable {σ : Type} [MeterStore σ] (s : Metering σ) (account : Text)

def pending : Rat := ((s.book.states.get? account).map AccountState.pending).getD 0

def isCounted (b : EdgeBatch) : Bool := (s.counted.map CountedBatch.id).contains b.id

/-- The units in batches the edge still holds and central did not count. -/
def undelivered : Rat :=
  (((s.book.inFlight.toList ++ s.book.retained.toList).filter (fun b => !s.isCounted b)).map
    (fun b => units account b.items)).sum

/-- The units in batches the edge dropped and central never counted. -/
def lost : Rat :=
  ((s.dropped.filter (fun b => !s.isCounted b)).map (fun b => units account b.items)).sum

/-- The units in every batch the edge dropped. -/
def droppedUnits : Rat := (s.dropped.map (fun b => units account b.items)).sum

/-- What central has on the account's counter for a period. -/
def central (setup : MeterSetup) (period : Text) : Rat :=
  (MeterStore.counters s.store).amount account setup.resource period

/-- What central has on all of the account's counters. -/
def centralTotal (setup : MeterSetup) : Rat :=
  ∑ p ∈ (s.counted.map CountedBatch.period).toFinset, s.central account setup p

/-- The batches central counted in a period. -/
def countedIn (period : Text) : List EdgeBatch :=
  s.sent.filter (fun b => s.counted.contains ⟨b.id,period⟩)

/-- The fractions of units cut off when batches were counted. -/
def cutOff : Rat :=
  ((s.sent.filter s.isCounted).map (fun b => units account b.items - wholeUnits account b.items)).sum

end Metering
end Flagship.Billing

import Flagship.Billing.Proofs.Counters

namespace Flagship.Billing.Proofs
open Lib

/-- What an account has pending. -/
def pendingOf (states : OrdMap Text AccountState) (account : Text) : Rat :=
  ((states.get? account).map AccountState.pending).getD 0

/-- Something true of what every account has pending. -/
def Pendings (P : Rat → Prop) (states : OrdMap Text AccountState) : Prop :=
  ∀ a, P (pendingOf states a)

variable {states : OrdMap Text AccountState} {a account : Text}

theorem pendingOf_set (st : AccountState) :
    pendingOf (states.set account st) a = if a = account then st.pending else pendingOf states a := by
  by_cases h : a = account
  · simp [pendingOf,h]
  · simp [pendingOf,OrdMap.get?_set_ne h,h]

theorem pendingOf_get {st : AccountState} (h : states.get? account = some st) :
    pendingOf states account = st.pending := by
  simp [pendingOf,h]

theorem getD_pending (states : OrdMap Text AccountState) (account : Text) (now : Int) :
    ((states.get? account).getD ⟨0,0,now,none⟩).pending = pendingOf states account := by
  unfold pendingOf
  cases states.get? account with
  | none => rfl
  | some st => rfl

theorem units_append (a : Text) (xs ys : List EdgeItem) :
    units a (xs ++ ys) = units a xs + units a ys := by
  simp [units]

theorem units_singleton (a account : Text) (amount : Rat) :
    units a [⟨account,amount⟩] = if a = account then amount else 0 := by
  by_cases h : a = account
  · simp [units,h]
  · simp [units,h,Ne.symm h]

/-- What counting some units does to the book. -/
theorem use_effect (book : LeaseBook) (account : Text) (amount : Rat) (now : Int)
    (h : ¬ amount ≤ 0) :
    (∀ a, pendingOf (book.use account amount now).1.states a =
      pendingOf book.states a + if a = account then amount else 0) ∧
    (book.use account amount now).1.inFlight = book.inFlight ∧
    (book.use account amount now).1.retained = book.retained := by
  have hold := getD_pending book.states account now
  have hstates : (book.use account amount now).1.states = book.states.set account
      { (book.states.get? account).getD ⟨0,0,now,none⟩ with
        pending := ((book.states.get? account).getD ⟨0,0,now,none⟩).pending + amount
        spent := ((book.states.get? account).getD ⟨0,0,now,none⟩).spent + amount
        lastUseAt := now } := by
    simp only [LeaseBook.use,h,↓reduceIte]
    split
    · rfl
    · rfl
  refine ⟨fun a => ?_,?_⟩
  · rw [hstates,pendingOf_set,hold]
    split
    · rename_i ha
      rw [ha]
    · simp
  · simp only [LeaseBook.use,h,↓reduceIte]
    split
    · exact ⟨rfl,rfl⟩
    · exact ⟨rfl,rfl⟩

/-- Picking moves units from an account to the batch. -/
structure Moves (p p' : Picking) : Prop where
  total : ∀ a, pendingOf p'.states a + units a p'.items = pendingOf p.states a + units a p.items
  /-- The batch is made of amounts that were pending. -/
  amounts : ∀ P : Rat → Prop, P 0 → Pendings P p.states → (∀ i ∈ p.items, P i.amount) →
    Pendings P p'.states ∧ ∀ i ∈ p'.items, P i.amount

theorem moves_of_eq {p p' : Picking} (hs : p'.states = p.states) (hi : p'.items = p.items) :
    Moves p p' :=
  ⟨fun a => by rw [hs,hi],fun P _ hp hall => ⟨hs ▸ hp,hi ▸ hall⟩⟩

theorem Moves.trans {p p' p'' : Picking} (h : Moves p p') (h' : Moves p' p'') : Moves p p'' :=
  ⟨fun a => (h'.total a).trans (h.total a),fun P h0 hp hi => by
    obtain ⟨hp',hi'⟩ := h.amounts P h0 hp hi
    exact h'.amounts P h0 hp' hi'⟩

theorem moves_pick (p : Picking) {st : AccountState} (h : p.states.get? account = some st) :
    Moves p (p.pick account st) := by
  have hpending := pendingOf_get h
  refine ⟨fun a => ?_,fun P h0 hp hi => ⟨fun a => ?_,fun i hmem => ?_⟩⟩
  · simp only [Picking.pick,pendingOf_set,units_append,units_singleton]
    split
    · rename_i ha
      rw [ha,hpending]
      ring
    · ring
  · simp only [Picking.pick,pendingOf_set]
    split
    · exact h0
    · exact hp a
  · rcases List.mem_append.mp hmem with hmem | hmem
    · exact hi i hmem
    · rw [List.mem_singleton.mp hmem,← hpending]
      exact hp account

theorem moves_pickDue (n : Nat) (p : Picking) (account : Text) :
    Moves p (LeaseBook.pickDue n p account) := by
  unfold LeaseBook.pickDue
  split
  · exact moves_of_eq rfl rfl
  split
  · exact moves_of_eq rfl rfl
  rename_i st hst
  split
  · exact moves_of_eq rfl rfl
  · exact moves_pick p hst

theorem moves_pickAny (n : Nat) (p : Picking) (account : Text) :
    Moves p (LeaseBook.pickAny n p account) := by
  unfold LeaseBook.pickAny
  split
  · exact moves_of_eq rfl rfl
  rename_i st hst
  split
  · exact moves_of_eq rfl rfl
  split
  · exact moves_of_eq rfl rfl
  · exact moves_pick p hst

theorem moves_foldl {f : Picking → Text → Picking} (hf : ∀ p x, Moves p (f p x)) (xs : List Text)
    (p : Picking) : Moves p (xs.foldl f p) := by
  induction xs generalizing p with
  | nil => exact moves_of_eq rfl rfl
  | cons x xs ih => exact (hf p x).trans (ih (f p x))

/-- A change of the book which leaves what is pending and where its batches are. -/
structure Keeps (book book' : LeaseBook) : Prop where
  pending : ∀ a, pendingOf book'.states a = pendingOf book.states a
  inFlight : book'.inFlight = book.inFlight
  retained : book'.retained = book.retained

theorem Keeps.trans {b b' b'' : LeaseBook} (h : Keeps b b') (h' : Keeps b' b'') : Keeps b b'' :=
  ⟨fun a => (h'.pending a).trans (h.pending a),h'.inFlight.trans h.inFlight,h'.retained.trans h.retained⟩

theorem keeps_settleAccount (leases : OrdMap Text EdgeLease) (now : Int) (book : LeaseBook)
    (account : Text) : Keeps book (book.settleAccount leases now account) := by
  have hpending := getD_pending book.states account now
  refine ⟨fun a => ?_,rfl,rfl⟩
  simp only [LeaseBook.settleAccount,pendingOf_set,hpending]
  split
  · rename_i ha
    rw [ha]
  · rfl

theorem keeps_settle (book : LeaseBook) (batch : EdgeBatch) (leases : OrdMap Text EdgeLease)
    (now : Int) : Keeps (book.land batch) (book.settle batch leases now) := by
  unfold LeaseBook.settle
  generalize batch.items.map EdgeItem.account = accounts
  have hstart : Keeps (book.land batch) { book.land batch with unreachable := false } :=
    ⟨fun _ => rfl,rfl,rfl⟩
  refine hstart.trans ?_
  generalize ({ book.land batch with unreachable := false } : LeaseBook) = b
  induction accounts generalizing b with
  | nil => exact ⟨fun _ => rfl,rfl,rfl⟩
  | cons x xs ih => exact (keeps_settleAccount leases now b x).trans (ih _)

/-- An account is forgotten only when nothing of it is pending. -/
theorem keeps_prune {book : LeaseBook} (h : Pendings (0 ≤ ·) book.states) (now : Int) :
    Keeps book (book.prune now) := by
  refine ⟨fun a => ?_,rfl,rfl⟩
  simp only [pendingOf,LeaseBook.prune,OrdMap.get?_filterMapVals]
  cases hget : book.states.get? a with
  | none => rfl
  | some st =>
    simp only [Option.bind_some]
    split
    · rfl
    · rename_i hidle
      have hzero : st.pending = 0 := by
        simp only [Bool.or_eq_true,decide_eq_true_eq,not_or,not_lt] at hidle
        exact le_antisymm hidle.1 (pendingOf_get hget ▸ h a)
      split
      · simp [hzero]
      · rfl

theorem land_inFlight {book : LeaseBook} {b : EdgeBatch} (h : book.inFlight = some b) :
    book.land b = { book with inFlight := none } := by
  simp [LeaseBook.land,h]

/-- What taking a batch does to the book. -/
inductive Takes (book : LeaseBook) (now : Int) (newBatchId : Text) :
    LeaseBook → Option EdgeBatch → Prop
  /-- A batch is in flight. -/
  | busy {b : EdgeBatch} (h : book.inFlight = some b) : Takes book now newBatchId book none
  /-- The kept batch goes out again. -/
  | again {b : EdgeBatch} (book' : LeaseBook) (h : book.inFlight = none)
      (hkept : book.retained = some b) (hyoung : book.expired now = none)
      (hstates : book'.states = book.states)
      (hflight : book'.inFlight = some { b with attempts := b.attempts + 1 })
      (hretained : book'.retained = none) :
      Takes book now newBatchId book' (some { b with attempts := b.attempts + 1 })
  /-- Nothing is kept, or it was retried for long enough: a new batch is made of what
  is pending, if anything is. -/
  | fresh (book' : LeaseBook) (items : List EdgeItem) (h : book.inFlight = none)
      (hgone : book.retained = book.expired now)
      (htotal : ∀ a, pendingOf book'.states a + units a items = pendingOf book.states a)
      (hamounts : ∀ P : Rat → Prop, P 0 → Pendings P book.states →
        Pendings P book'.states ∧ ∀ i ∈ items, P i.amount)
      (hretained : book'.retained = none) (batch : Option EdgeBatch)
      (hflight : book'.inFlight = batch)
      (hbatch : batch = none ∧ items = [] ∨
        ∃ b, batch = some b ∧ b.id = newBatchId ∧ b.items = items) :
      Takes book now newBatchId book' batch

theorem moves_pickItems (book : LeaseBook) (mode : BatchMode) :
    Moves ⟨[],book.states,book.due⟩ (book.pickItems mode) := by
  have hdue := moves_foldl (moves_pickDue book.opts.maxItems) book.due.keys
    ⟨[],book.states,book.due⟩
  cases mode with
  | due => exact hdue
  | all => exact hdue.trans (moves_foldl (moves_pickAny book.opts.maxItems) _ _)

theorem takes_makeBatch {book book' : LeaseBook} {now : Int} (mode : BatchMode) (newBatchId : Text)
    (hflight : book.inFlight = none) (hgone : book.retained = book.expired now)
    (hstates : book'.states = book.states) (hflight' : book'.inFlight = none)
    (hretained : book'.retained = none) :
    Takes book now newBatchId (book'.makeBatch now mode newBatchId).1
      (book'.makeBatch now mode newBatchId).2 := by
  have hmoves := moves_pickItems book' mode
  have htotal : ∀ a, pendingOf (book'.pickItems mode).states a + units a (book'.pickItems mode).items =
      pendingOf book.states a := by
    intro a
    rw [hmoves.total a,hstates]
    simp [units]
  have hamounts : ∀ P : Rat → Prop, P 0 → Pendings P book.states →
      Pendings P (book'.pickItems mode).states ∧ ∀ i ∈ (book'.pickItems mode).items, P i.amount :=
    fun P h0 hp => hmoves.amounts P h0 (hstates ▸ hp) (by simp)
  simp only [LeaseBook.makeBatch]
  split
  · rename_i hitems
    refine .fresh _ (book'.pickItems mode).items hflight hgone ?_ ?_ ?_ none ?_ (.inl ⟨rfl,hitems⟩)
    · exact htotal
    · exact hamounts
    · exact hretained
    · exact hflight'
  · refine .fresh _ (book'.pickItems mode).items hflight hgone ?_ ?_ ?_ _ ?_ (.inr ⟨_,rfl,?_,?_⟩)
    · exact htotal
    · exact hamounts
    · exact hretained
    all_goals rfl

theorem takes_takeBatch (book : LeaseBook) (now : Int) (mode : BatchMode) (newBatchId : Text) :
    Takes book now newBatchId (book.takeBatch now mode newBatchId).1
      (book.takeBatch now mode newBatchId).2 := by
  unfold LeaseBook.takeBatch
  cases hflight : book.inFlight with
  | some b => exact .busy hflight
  | none =>
    cases hgone : book.expired now with
    | none =>
      cases hkept : book.retained with
      | some b =>
        simp only [Option.isSome_none,Bool.false_eq_true,↓reduceIte,hkept]
        exact .again _ hflight hkept hgone rfl rfl rfl
      | none =>
        simp only [Option.isSome_none,Bool.false_eq_true,↓reduceIte,hkept]
        exact takes_makeBatch mode newBatchId hflight (hkept.trans hgone.symm) rfl hflight hkept
    | some b =>
      have hkept : book.retained = book.expired now := by
        rw [hgone]
        exact (Option.filter_eq_some_iff.mp hgone).1
      exact takes_makeBatch mode newBatchId hflight hkept rfl rfl rfl

end Flagship.Billing.Proofs

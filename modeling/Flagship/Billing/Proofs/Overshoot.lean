import Flagship.Billing.Proofs.Usage

namespace Flagship.Billing
open Lib

/-- What is done at one edge while central answers every batch. -/
inductive LeaseOp
  | use (account : Text) (amount : Rat) (now : Int)
  | takeBatch (now : Int) (mode : BatchMode) (newBatchId : Text)
  /-- Central answers the batch in flight. -/
  | settle (leases : OrdMap Text EdgeLease) (now : Int)
  deriving DecidableEq

/-- The book of an edge, and what it let through for one account. -/
structure Watched where
  book : LeaseBook
  /-- What the account had pending as its last lease was settled. -/
  carried : Rat
  /-- What it was let through since, use by use. -/
  through : List Rat
  deriving DecidableEq

namespace Watched

def new (opts : LeaseBookOptions) : Watched := ⟨.new opts,0,[]⟩

def lease (w : Watched) (account : Text) : Option HeldLease :=
  (w.book.states.get? account).bind AccountState.lease

/-- The batch in flight has units of the account. -/
def inBatch (w : Watched) (account : Text) : Bool :=
  w.book.inFlight.any (fun b => (b.items.map EdgeItem.account).contains account)

/-- A use is let through when the book answers allow just before it. -/
def step (account : Text) (w : Watched) : LeaseOp → Watched
  | .use a amount now =>
    { w with
      book := (w.book.use a amount now).1
      through := if a = account ∧ 0 < amount ∧ w.book.action account = .allow then
        w.through ++ [amount] else w.through }
  | .takeBatch now mode newBatchId => { w with book := (w.book.takeBatch now mode newBatchId).1 }
  | .settle leases now =>
    match w.book.inFlight with
    | none => w
    | some b =>
      let book := w.book.settle b leases now
      if w.inBatch account ∧ leases.contains account then
        ⟨book,((book.states.get? account).map AccountState.pending).getD 0,[]⟩
      else { w with book := book }

end Watched

/-- An answer to a batch with the account has a lease for it. -/
def Answers (account : Text) (w : Watched) : LeaseOp → Prop
  | .settle leases _ => w.inBatch account = true → leases.contains account = true
  | .use .. | .takeBatch .. => True

instance (account : Text) (w : Watched) (op : LeaseOp) : Decidable (Answers account w op) :=
  match op with
  | .settle _ _ => inferInstanceAs (Decidable (_ → _))
  | .use .. => isTrue trivial
  | .takeBatch .. => isTrue trivial

namespace Proofs

/-- What decides whether an account is let through, apart from the lease. -/
def standing (states : OrdMap Text AccountState) (a : Text) : Option (Rat × Option HeldLease) :=
  (states.get? a).map (fun st => (st.spent,st.lease))

theorem standing_set (states : OrdMap Text AccountState) (account : Text) (st : AccountState)
    (a : Text) : standing (states.set account st) a =
      if a = account then some (st.spent,st.lease) else standing states a := by
  by_cases h : a = account
  · simp [standing,h]
  · simp [standing,OrdMap.get?_set_ne h,h]

/-- Taking units into a batch leaves what was spent alone. -/
theorem standing_pick (p : Picking) {account : Text} {st : AccountState}
    (h : p.states.get? account = some st) (a : Text) :
    standing (p.pick account st).states a = standing p.states a := by
  unfold Picking.pick
  rw [standing_set]
  split
  · rename_i ha
    rw [ha,standing,h]
    rfl
  · rfl

theorem standing_pickDue (n : Nat) (p : Picking) (account a : Text) :
    standing (LeaseBook.pickDue n p account).states a = standing p.states a := by
  unfold LeaseBook.pickDue
  split
  · rfl
  split
  · rfl
  · rename_i st h
    split
    · rfl
    · exact standing_pick p h a

theorem standing_pickAny (n : Nat) (p : Picking) (account a : Text) :
    standing (LeaseBook.pickAny n p account).states a = standing p.states a := by
  unfold LeaseBook.pickAny
  split
  · rfl
  · rename_i st h
    split
    · rfl
    split
    · rfl
    · exact standing_pick p h a

theorem standing_foldl {f : Picking → Text → Picking}
    (hf : ∀ p account a, standing (f p account).states a = standing p.states a) (a : Text)
    (accounts : List Text) (p : Picking) :
    standing (accounts.foldl f p).states a = standing p.states a := by
  induction accounts generalizing p with
  | nil => rfl
  | cons account accounts ih => exact (ih (f p account)).trans (hf p account a)

theorem standing_takeBatch (book : LeaseBook) (now : Int) (mode : BatchMode) (id a : Text) :
    standing (book.takeBatch now mode id).1.states a = standing book.states a ∧
      (book.takeBatch now mode id).1.unreachable = book.unreachable := by
  have hmake : ∀ book : LeaseBook, standing (book.makeBatch now mode id).1.states a =
      standing book.states a ∧ (book.makeBatch now mode id).1.unreachable = book.unreachable := by
    intro book
    have hpick : standing (book.pickItems mode).states a = standing book.states a := by
      unfold LeaseBook.pickItems
      cases mode with
      | due => exact standing_foldl (standing_pickDue _) a _ _
      | all =>
        exact (standing_foldl (standing_pickAny _) a _ _).trans
          (standing_foldl (standing_pickDue _) a _ _)
    unfold LeaseBook.makeBatch
    simp only
    split
    · exact ⟨hpick,rfl⟩
    · exact ⟨hpick,rfl⟩
  unfold LeaseBook.takeBatch
  split
  · exact ⟨rfl,rfl⟩
  simp only
  split
  · split <;> exact ⟨rfl,rfl⟩
  · refine ⟨(hmake _).1.trans ?_,(hmake _).2.trans ?_⟩ <;> split <;> rfl

theorem standing_settleAccount (leases : OrdMap Text EdgeLease) (now : Int) (book : LeaseBook)
    {account a : Text} (h : a ≠ account) :
    standing (book.settleAccount leases now account).states a = standing book.states a := by
  simp only [LeaseBook.settleAccount,standing_set,if_neg h]

/-- The lease an answer leaves an account with. -/
def settledLease (l : EdgeLease) (now : Int) : HeldLease :=
  ⟨l.action,max 0 ⌊l.grant⌋,l.policy,now + max 0 l.ttlMs⟩

theorem settleAccount_settled {leases : OrdMap Text EdgeLease} {now : Int} {book : LeaseBook}
    {account : Text} {l : EdgeLease} (h : leases.get? account = some l) :
    standing (book.settleAccount leases now account).states account =
      some (pendingOf book.states account,some (settledLease l now)) := by
  have hpending := getD_pending book.states account now
  simp only [LeaseBook.settleAccount,standing_set,if_pos,hpending,h]
  rfl

theorem standing_foldl_settle (leases : OrdMap Text EdgeLease) (now : Int) (accounts : List Text)
    (book : LeaseBook) (a : Text) :
    (a ∉ accounts → standing (accounts.foldl (LeaseBook.settleAccount leases now) book).states a =
      standing book.states a) ∧
    (∀ l, a ∈ accounts → leases.get? a = some l →
      standing (accounts.foldl (LeaseBook.settleAccount leases now) book).states a =
        some (pendingOf book.states a,some (settledLease l now))) ∧
    (accounts.foldl (LeaseBook.settleAccount leases now) book).unreachable = book.unreachable := by
  induction accounts generalizing book with
  | nil => exact ⟨fun _ => rfl,fun _ h => absurd h List.not_mem_nil,rfl⟩
  | cons x xs ih =>
    obtain ⟨hout,hin,hreach⟩ := ih (book.settleAccount leases now x)
    refine ⟨fun h => ?_,fun l h hl => ?_,hreach⟩
    · rw [List.mem_cons,not_or] at h
      exact (hout h.2).trans (standing_settleAccount leases now book h.1)
    · by_cases hxs : a ∈ xs
      · rw [List.foldl_cons,hin l hxs hl,(keeps_settleAccount leases now book x).pending a]
      · obtain rfl := (List.mem_cons.mp h).resolve_right hxs
        exact (hout hxs).trans (settleAccount_settled hl)

theorem land_states (book : LeaseBook) (b : EdgeBatch) : (book.land b).states = book.states := by
  unfold LeaseBook.land
  split <;> rfl

/-- What counting units does to what was spent. -/
theorem standing_use (book : LeaseBook) (account : Text) (amount : Rat) (now : Int) (a : Text)
    {spent : Rat} {l : HeldLease}
    (h : standing (book.use account amount now).1.states a = some (spent,some l)) :
    ∃ before, standing book.states a = some (before,some l) ∧
      spent = before + if a = account ∧ 0 < amount then amount else 0 := by
  unfold LeaseBook.use at h
  split at h
  · rename_i hno
    exact ⟨spent,h,by rw [if_neg fun hc => absurd hc.2 (not_lt.mpr hno),add_zero]⟩
  · rename_i hpos
    have hset : standing (book.states.set account
        { (book.states.get? account).getD ⟨0,0,now,none⟩ with
          pending := ((book.states.get? account).getD ⟨0,0,now,none⟩).pending + amount
          spent := ((book.states.get? account).getD ⟨0,0,now,none⟩).spent + amount
          lastUseAt := now }) a = some (spent,some l) := by
      rw [← h]
      simp only
      split <;> rfl
    rw [standing_set] at hset
    split at hset
    · rename_i ha
      subst ha
      cases hget : book.states.get? a with
      | none => simp [hget] at hset
      | some st =>
        simp only [hget,Option.getD_some,Option.some.injEq,Prod.mk.injEq] at hset
        refine ⟨st.spent,by rw [standing,hget,Option.map_some,hset.2],?_⟩
        rw [if_pos ⟨rfl,not_le.mp hpos⟩]
        exact hset.1.symm
    · rename_i ha
      exact ⟨spent,hset,by rw [if_neg fun hc => ha hc.1,add_zero]⟩

theorem use_unreachable (book : LeaseBook) (account : Text) (amount : Rat) (now : Int) :
    (book.use account amount now).1.unreachable = book.unreachable := by
  unfold LeaseBook.use
  split
  · rfl
  · simp only
    split <;> rfl

/-- While central answers, a use is let through on a lease that restricts only
before the grant is spent. -/
theorem spent_lt_of_allowed {book : LeaseBook} {account : Text} {spent : Rat} {l : HeldLease}
    (hreach : book.unreachable = false)
    (hst : standing book.states account = some (spent,some l)) (hpolicy : l.policy ≠ .allow)
    (h : book.action account = .allow) : spent < l.grant := by
  obtain ⟨st,hget,heq⟩ := Option.map_eq_some_iff.mp hst
  simp only [Prod.mk.injEq] at heq
  unfold LeaseBook.action at h
  simp only [hget,heq.2] at h
  by_contra hover
  rw [not_lt] at hover
  split at h
  · contradiction
  · rw [heq.1,if_pos hover,LeaseBook.restrict,hreach,Bool.and_false,Bool.or_false,if_neg] at h
    · exact hpolicy h
    · simpa using hpolicy

/-- What was let through since the lease is spent, and all but the last of it was
below the grant. -/
structure Bounded (account : Text) (w : Watched) : Prop where
  reachable : w.book.unreachable = false
  counted : ∀ spent l, standing w.book.states account = some (spent,some l) →
    w.carried + w.through.sum ≤ spent
  within : ∀ spent l, standing w.book.states account = some (spent,some l) → l.policy ≠ .allow →
    ∀ before last, w.through = before ++ [last] → w.carried + before.sum < l.grant

theorem bounded_new (account : Text) (opts : LeaseBookOptions) :
    Bounded account (.new opts) := by
  have hnone : standing (Watched.new opts).book.states account = none := rfl
  refine ⟨rfl,fun spent l h => ?_,fun spent l h => ?_⟩
  · rw [hnone] at h
    cases h
  · rw [hnone] at h
    cases h

theorem Bounded.use {account : Text} {w : Watched} (h : Bounded account w) (a : Text) (amount : Rat)
    (now : Int) : Bounded account (w.step account (.use a amount now)) := by
  refine ⟨(use_unreachable _ _ _ _).trans h.reachable,fun spent l hst => ?_,
    fun spent l hst hpolicy before last heq => ?_⟩
  · obtain ⟨old,hold,rfl⟩ := standing_use w.book a amount now account hst
    have hcount := h.counted old l hold
    simp only [Watched.step]
    by_cases hmine : account = a ∧ 0 < amount
    · rw [if_pos hmine]
      split
      · rw [List.sum_append,List.sum_singleton]
        linarith
      · linarith [hmine.2]
    · rw [if_neg hmine,if_neg fun hc => hmine ⟨hc.1.symm,hc.2.1⟩]
      linarith
  · obtain ⟨old,hold,_⟩ := standing_use w.book a amount now account hst
    simp only [Watched.step] at heq ⊢
    split at heq
    · rename_i hlet
      obtain ⟨rfl,_⟩ := List.append_inj' heq rfl
      exact (h.counted old l hold).trans_lt (spent_lt_of_allowed h.reachable hold hpolicy hlet.2.2)
    · exact h.within old l hold hpolicy before last heq

theorem Bounded.takeBatch {account : Text} {w : Watched} (h : Bounded account w) (now : Int)
    (mode : BatchMode) (id : Text) : Bounded account (w.step account (.takeBatch now mode id)) := by
  obtain ⟨hst,hreach⟩ := standing_takeBatch w.book now mode id account
  refine ⟨hreach.trans h.reachable,fun spent l hs => ?_,fun spent l hs => ?_⟩
  · exact h.counted spent l (hst ▸ hs)
  · exact h.within spent l (hst ▸ hs)

theorem Bounded.settle {account : Text} {w : Watched} (h : Bounded account w)
    {leases : OrdMap Text EdgeLease} {now : Int} (hans : Answers account w (.settle leases now)) :
    Bounded account (w.step account (.settle leases now)) := by
  unfold Watched.step
  simp only
  cases hb : w.book.inFlight with
  | none => exact h
  | some b =>
    simp only
    obtain ⟨hout,hin,hreach⟩ := standing_foldl_settle leases now (b.items.map EdgeItem.account)
      { w.book.land b with unreachable := false } account
    have hinBatch : w.inBatch account = true ↔ account ∈ b.items.map EdgeItem.account := by
      rw [Watched.inBatch,hb,Option.any_some,List.contains_iff_mem]
    split
    · rename_i hnew
      obtain ⟨l,hl⟩ := (OrdMap.contains_iff _).mp hnew.2
      have hsettled := hin l (hinBatch.mp hnew.1) hl
      have hpending : pendingOf (w.book.settle b leases now).states account =
          pendingOf (w.book.land b).states account := (keeps_settle w.book b leases now).pending account
      refine ⟨hreach,fun spent l hs => ?_,fun spent l hs hp before last heq => ?_⟩
      · have := hsettled.symm.trans hs
        simp only [Option.some.injEq,Prod.mk.injEq] at this
        rw [← this.1,List.sum_nil,add_zero]
        exact le_of_eq hpending
      · simp at heq
    · rename_i hold
      have hnot : account ∉ b.items.map EdgeItem.account :=
        fun hm => hold ⟨hinBatch.mpr hm,hans (hinBatch.mpr hm)⟩
      have hsame : standing (w.book.settle b leases now).states account =
          standing w.book.states account := by
        rw [← land_states w.book b]
        exact hout hnot
      refine ⟨hreach,fun spent l hs => ?_,fun spent l hs => ?_⟩
      · exact h.counted spent l (hsame ▸ hs)
      · exact h.within spent l (hsame ▸ hs)

theorem bounded_step {account : Text} (w : Watched) (op : LeaseOp) (h : Bounded account w)
    (hans : Answers account w op) : Bounded account (w.step account op) := by
  cases op with
  | use a amount now => exact h.use a amount now
  | takeBatch now mode id => exact h.takeBatch now mode id
  | settle leases now => exact h.settle hans

/-- Past a lease that restricts, and as long as no answer to a batch with the
account leaves it out, only the last use that was let through can cross the
grant: with what was pending at the lease, all before it stays below. -/
theorem only_last_use_crosses_grant (opts : LeaseBookOptions) (account : Text) (ops : List LeaseOp)
    (hans : Along (Watched.step account) (Answers account) (.new opts) ops) (l : HeldLease)
    (hlease : (run (Watched.step account) (.new opts) ops).lease account = some l)
    (hpolicy : l.policy ≠ .allow) (before : List Rat) (last : Rat)
    (hthrough : (run (Watched.step account) (.new opts) ops).through = before ++ [last]) :
    (run (Watched.step account) (.new opts) ops).carried + before.sum < l.grant := by
  have hb := hans.invariant bounded_step (bounded_new account opts)
  obtain ⟨st,hget,hst⟩ := Option.bind_eq_some_iff.mp hlease
  have hstanding : standing (run (Watched.step account) (.new opts) ops).book.states account =
      some (st.spent,some l) := by
    rw [standing,hget,Option.map_some,hst]
  exact hb.within st.spent l hstanding hpolicy before last hthrough

namespace Sample

def edgeOpts : LeaseBookOptions := ⟨100,.throttle,1 / 2,true,500,600000,3600000⟩

def ann : Text := "ann".toList

def leasePolicy : MeterLeasePolicy := ⟨1 / 2,1,10,60000,10000⟩

/-- Central's lease on an account with twenty units left of its plan. -/
def tenUnits : EdgeLease := ⟨.allow,10,.throttle,60000⟩

/-- Its lease on a billed plan. -/
def billed : EdgeLease := ⟨.allow,10,.allow,60000⟩

def answer (l : EdgeLease) : OrdMap Text EdgeLease := (∅ : OrdMap Text EdgeLease).set ann l

/-- A first unit, reported and answered with a lease. -/
def leased (l : EdgeLease) : List LeaseOp :=
  [.use ann 1 0,.takeBatch 0 .due ['1'],.settle (answer l) 0]

end Sample

section
open Sample

def crossing : List LeaseOp := leased tenUnits ++ [.use ann 6 1,.use ann 8 2]

theorem grant_crossed_once :
    (run (Watched.step ann) (.new edgeOpts) crossing).through = [6] ++ [8] ∧
    (run (Watched.step ann) (.new edgeOpts) crossing).carried + [6].sum < 10 := by
  have h : (run (Watched.step ann) (.new edgeOpts) crossing).through = [6] ++ [8] := by
    decide +kernel
  refine ⟨h,?_⟩
  exact only_last_use_crosses_grant edgeOpts ann crossing (by decide +kernel)
    ⟨.allow,10,.throttle,60000⟩ (by decide +kernel) (by decide) [6] 8 h

/-- On a billed plan the grant restricts nothing; and an answer that leaves the
account out counts a second grant from the old lease. -/
theorem grant_exceeded :
    meterLease ⟨ann,[],20,.throttle,.allow,none⟩ leasePolicy 0 = .ok ⟨ann,[],tenUnits⟩ ∧
    meterLease ⟨ann,[],0,.allow,.allow,none⟩ leasePolicy 0 = .ok ⟨ann,[],billed⟩ ∧
    (let w := run (Watched.step ann) (.new edgeOpts)
      (leased billed ++ [.use ann 6 1,.use ann 6 2,.use ann 6 3])
    w.lease ann = some ⟨.allow,10,.allow,60000⟩ ∧ w.through = [6,6] ++ [6] ∧
      10 < [(6 : Rat),6].sum) ∧
    let w := run (Watched.step ann) (.new edgeOpts) (leased tenUnits ++
      [.use ann 6 1,.use ann 4 2,.takeBatch 3 .due ['2'],.settle ∅ 4,.use ann 6 5,.use ann 4 6])
    w.lease ann = some ⟨.allow,10,.throttle,60000⟩ ∧ w.through = [6,4,6] ++ [4] ∧
      10 < [(6 : Rat),4,6].sum := by
  decide +kernel

end
end Proofs
end Flagship.Billing

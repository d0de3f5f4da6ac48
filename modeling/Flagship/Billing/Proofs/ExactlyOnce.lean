import Mathlib.Algebra.BigOperators.Group.Finset.Piecewise
import Flagship.Lib.Lists
import Flagship.Billing.Proofs.Conservation

namespace Flagship.Billing.Proofs
open Lib

/-- Sums over a list and over a set of keys change places. -/
theorem sum_comm_list {α κ : Type} (ps : Finset κ) (l : List α) (g : κ → α → Rat) :
    ∑ p ∈ ps, (l.map (g p)).sum = (l.map (fun b => ∑ p ∈ ps, g p b)).sum := by
  induction l with
  | nil => simp
  | cons b l ih => simp [Finset.sum_add_distrib,ih]

section
variable {σ : Type} {setup : MeterSetup} {s : Metering σ}

/-- A counted batch is counted in one period. -/
theorem sum_periods (hone : (countedIds s).Nodup) (b : EdgeBatch) (w : Rat) :
    ∑ p ∈ (s.counted.map CountedBatch.period).toFinset,
      (if s.counted.contains ⟨b.id,p⟩ then w else 0) = if s.isCounted b then w else 0 := by
  cases hc : s.isCounted b with
  | true =>
    have hmem : b.id ∈ s.counted.map CountedBatch.id := by simpa [Metering.isCounted] using hc
    obtain ⟨c,hcm,hid⟩ := List.mem_map.mp hmem
    have hiff : ∀ p, (s.counted.contains ⟨b.id,p⟩ = true) ↔ c.period = p := by
      intro p
      rw [List.contains_iff_mem]
      constructor
      · intro hp
        exact congrArg CountedBatch.period
          (List.inj_on_of_nodup_map hone hcm hp hid)
      · rintro rfl
        rw [← hid]
        exact hcm
    simp only [hiff]
    rw [Finset.sum_ite_eq,if_pos]
    · rfl
    · exact List.mem_toFinset.mpr (List.mem_map_of_mem hcm)
  | false =>
    refine Finset.sum_eq_zero fun p _ => ?_
    rw [if_neg]
    intro hp
    have hmem : (⟨b.id,p⟩ : CountedBatch) ∈ s.counted := by simpa using hp
    have hcounted : s.isCounted b = true := by
      simpa [Metering.isCounted] using ⟨_,hmem,rfl⟩
    simp [hc] at hcounted

/-- What was sent and not counted is in the edge's hands or was dropped. -/
theorem Placed.uncounted (h : Placed s) (a : Text) :
    ((s.sent.filter (fun b => !s.isCounted b)).map (fun b => units a b.items)).sum =
      s.undelivered a + s.lost a := by
  have hplaces : s.undelivered a + s.lost a =
      (((places s).filter (fun b => !s.isCounted b)).map (fun b => units a b.items)).sum := by
    simp [Metering.undelivered,Metering.lost,places,add_assoc]
  have htag : ∀ l : List EdgeBatch, (l.map (fun b => units a b.items)).sum =
      ((l.map tag).map (fun t => units a t.2)).sum := by
    intro l
    rw [List.map_map]
    rfl
  have hsentNodup : (s.sent.map tag).Nodup := by
    refine List.Nodup.of_map Prod.fst ?_
    rw [List.map_map]
    exact h.distinct
  have hfilter : ∀ l : List EdgeBatch, (l.filter (fun b => !s.isCounted b)).map tag =
      (l.map tag).filter (fun t => !(s.counted.map CountedBatch.id).contains t.1) := by
    intro l
    rw [List.filter_map]
    rfl
  rw [hplaces,htag,htag,hfilter,hfilter]
  refine List.Perm.sum_eq (List.Perm.map _ ?_)
  refine (List.perm_ext_iff_of_nodup (hsentNodup.filter _) (h.nodup.filter _)).mpr fun t => ?_
  simp only [List.mem_filter]
  constructor
  · rintro ⟨ht,hnot⟩
    obtain ⟨b,hb,rfl⟩ := List.mem_map.mp ht
    refine ⟨(h.placed b hb).resolve_left fun hc => ?_,hnot⟩
    simp only [countedIds] at hc
    simp [tag,hc] at hnot
  · rintro ⟨ht,hnot⟩
    exact ⟨h.sent t ht,hnot⟩

/-- A whole number of units. -/
def Whole (x : Rat) : Prop := ∃ n : Int, x = n

theorem Whole.floor {x : Rat} (h : Whole x) : (⌊x⌋ : Rat) = x := by
  obtain ⟨n,rfl⟩ := h
  simp

/-- Where only whole units were used, only whole units are pending and sent. -/
def WholeParts (s : Metering σ) : Prop :=
  (∀ i ∈ s.used, Whole i.amount) →
    Pendings Whole s.book.states ∧ ∀ b ∈ s.sent, ∀ i ∈ b.items, Whole i.amount

theorem WholeParts.of_eq {s' : Metering σ} (h : WholeParts s) (hu : s'.used = s.used)
    (hs : s'.sent = s.sent) (hp : ∀ a, pendingOf s'.book.states a = pendingOf s.book.states a) :
    WholeParts s' := by
  intro hw
  obtain ⟨hpend,hsent⟩ := h (hu ▸ hw)
  exact ⟨fun a => by rw [hp]; exact hpend a,hs ▸ hsent⟩

theorem WholeParts.takeBatch (h : WholeParts s) (now : Int) (mode : BatchMode) (newBatchId : Text) :
    WholeParts (s.takeBatch now mode newBatchId) := by
  have htakes := takes_takeBatch s.book now mode newBatchId
  intro hw
  unfold Metering.takeBatch at hw ⊢
  generalize s.book.takeBatch now mode newBatchId = r at htakes hw
  obtain ⟨book,batch⟩ := r
  simp only at htakes hw ⊢
  obtain ⟨hpend,hsent⟩ := h hw
  cases htakes with
  | busy hb => exact ⟨hpend,by simpa using hsent⟩
  | again _ hflight hkept hyoung hstates hbook hretained =>
    simp only [hflight,hkept,hyoung,Option.isSome_none,Option.isSome_some,Option.isNone_none,
      Bool.false_eq_true,Bool.and_self,↓reduceIte,List.append_nil]
    exact ⟨fun a => by rw [hstates]; exact hpend a,hsent⟩
  | fresh _ items hflight hgone htotal hamounts hretained _ hbook hbatch =>
    obtain ⟨hpend',hitems⟩ := hamounts Whole ⟨0,by simp⟩ hpend
    refine ⟨hpend',fun b hb => ?_⟩
    rcases List.mem_append.mp hb with hb | hb
    · exact hsent b hb
    · simp only [hflight,Option.isSome_none,Bool.false_eq_true,↓reduceIte] at hb
      split at hb
      · cases hb
      · rcases hbatch with ⟨rfl,-⟩ | ⟨b',rfl,-,rfl⟩
        · simp at hb
        · simp only [Option.toList_some,List.mem_singleton] at hb
          exact hb ▸ hitems

theorem cutOff_eq_zero (h : WholeParts s) (hw : ∀ i ∈ s.used, Whole i.amount) (a : Text) :
    s.cutOff a = 0 := by
  obtain ⟨-,hsent⟩ := h hw
  refine List.sum_eq_zero fun x hx => ?_
  obtain ⟨b,hb,rfl⟩ := List.mem_map.mp hx
  rw [sub_eq_zero]
  refine congrArg List.sum (List.map_congr_left fun i hi => ?_)
  exact (hsent b (List.mem_filter.mp hb).1 i (List.mem_filter.mp hi).1).floor.symm

variable [MeterStore σ]

theorem Tallied.centralTotal (h : Tallied setup s) (a : Text) :
    s.centralTotal a setup = ((s.sent.filter s.isCounted).map (fun b => wholeUnits a b.items)).sum := by
  unfold Metering.centralTotal
  rw [sum_map_filter,Finset.sum_congr rfl (fun p _ => h.central a p)]
  simp only [Metering.countedIn,sum_map_filter]
  rw [sum_comm_list]
  simp only [sum_periods h.once]

/-- Units used are counted, cut off, pending, under way or lost. -/
theorem Placed.conserved (hp : Placed s) (ht : Tallied setup s) (a : Text) :
    s.centralTotal a setup + s.cutOff a + s.pending a + s.undelivered a + s.lost a =
      units a s.used := by
  have hsplit := List.sum_map_filter_add_sum_map_filter_not (fun b => s.isCounted b = true)
    (fun b => units a b.items) s.sent
  have hnot : (s.sent.filter (fun b => decide (¬ s.isCounted b = true))) =
      s.sent.filter (fun b => !s.isCounted b) := List.filter_congr fun b _ => by simp
  have hyes : (s.sent.filter (fun b => decide (s.isCounted b = true))) =
      s.sent.filter s.isCounted := List.filter_congr fun b _ => by simp
  have hcut : ((s.sent.filter s.isCounted).map (fun b => units a b.items)).sum =
      s.centralTotal a setup + s.cutOff a := by
    rw [ht.centralTotal,Metering.cutOff,← List.sum_map_add]
    refine congrArg List.sum (List.map_congr_left fun b _ => ?_)
    ring
  rw [hnot,hyes,hcut,hp.uncounted a] at hsplit
  have hpending : s.pending a = pendingOf s.book.states a := rfl
  rw [hp.moved a,← hsplit,hpending]
  ring

theorem WholeParts.use (h : WholeParts s) (account : Text) (amount : Rat) (now : Int) :
    WholeParts (s.step setup (.use account amount now)) := by
  intro hw
  simp only [Metering.step] at hw ⊢
  by_cases hle : amount ≤ 0
  · simp only [hle,↓reduceIte] at hw
    simpa [LeaseBook.use,hle] using h hw
  · simp only [hle,↓reduceIte] at hw
    obtain ⟨hpend,hsent⟩ := h fun i hi => hw i (List.mem_append_left _ hi)
    obtain ⟨n,hn⟩ : Whole amount := hw ⟨account,amount⟩ (by simp)
    refine ⟨fun a => ?_,hsent⟩
    obtain ⟨m,hm⟩ := hpend a
    rw [(use_effect s.book account amount now hle).1 a,hm]
    split
    · exact ⟨m + n,by rw [hn]; push_cast; ring⟩
    · exact ⟨m,by simp⟩

variable [LawfulMeterStore σ]

theorem wholeParts_step (op : MeteringOp) (hp : Placed s) (ht : Tallied setup s)
    (hop : Remembers s op) (h : WholeParts s) : WholeParts (s.step setup op) := by
  cases op with
  | use account amount now => exact h.use account amount now
  | takeBatch now mode newBatchId => exact h.takeBatch now mode newBatchId
  | deliver id now =>
    obtain ⟨⟨store,answered,counted,heq⟩,-⟩ := deliver_cases hp ht hop
    simp only [Metering.step,heq]
    exact h.of_eq rfl rfl fun _ => rfl
  | settle leases now =>
    simp only [Metering.step]
    split
    · exact h
    rename_i b hb
    split
    · have hkeep := keeps_settle s.book b leases now
      rw [land_inFlight hb] at hkeep
      exact h.of_eq rfl rfl hkeep.pending
    · exact h
  | failed now retry =>
    simp only [Metering.step]
    split
    · exact h
    · rename_i b hb
      refine h.of_eq rfl rfl fun a => ?_
      cases retry <;> simp [LeaseBook.failed,land_inFlight hb]
  | prune now => exact h.of_eq rfl rfl (keeps_prune hp.nonneg now).pending

end

/-- Whatever is lost, repeated or retried on the way, as long as batch ids are
different and remembered: what central has counted over all periods, with the
fractions it cut off, what is pending, what the edge holds uncounted and what it
dropped uncounted make up what was used. Central has on each counter the batches
it counted in that period, no batch twice, and where whole units are used nothing
is cut off. -/
theorem usage_counted_once {σ : Type} [MeterStore σ] [LawfulMeterStore σ] (setup : MeterSetup)
    (opts : LeaseBookOptions) (ops : List MeteringOp)
    (h : Along (Metering.step setup) (fun s op => FreshId s op ∧ Remembers s op)
      (.new opts : Metering σ) ops) :
    let s := run (Metering.step setup) (.new opts : Metering σ) ops
    (∀ a, s.centralTotal a setup + s.cutOff a + s.pending a + s.undelivered a + s.lost a =
      units a s.used) ∧
    (∀ a p, s.central a setup p = ((s.countedIn p).map (fun b => wholeUnits a b.items)).sum) ∧
    (s.sent.map EdgeBatch.id).Nodup ∧ (s.counted.map CountedBatch.id).Nodup ∧
    ((∀ i ∈ s.used, ∃ n : Int, i.amount = n) → ∀ a, s.cutOff a = 0) := by
  intro s
  have hinv : (Placed s ∧ Tallied setup s) ∧ WholeParts s := by
    refine Along.invariant (I := fun s => (Placed s ∧ Tallied setup s) ∧ WholeParts s)
      (fun s op hs hop => ⟨balanced_step s op hs.1 hop,wholeParts_step op hs.1.1 hs.1.2 hop.2 hs.2⟩)
      ⟨⟨placed_new opts,tallied_new opts⟩,fun _ => ⟨fun a => ?_,?_⟩⟩ h
    · exact ⟨0,by simp [Metering.new,LeaseBook.new,pendingOf]⟩
    · simp [Metering.new]
  obtain ⟨⟨hp,ht⟩,hw⟩ := hinv
  exact ⟨hp.conserved ht,ht.central,hp.distinct,ht.once,cutOff_eq_zero hw⟩

namespace Sample

def opts : LeaseBookOptions := ⟨100,.allow,1/2,true,500,600000,3600000⟩

def setup : MeterSetup := ⟨fun _ => some .month,defaultBatchKeepMs,['t']⟩

def batchId : Text := List.replicate 32 'a'

/-- An answer is lost, the batch goes out again and is answered as a duplicate. -/
def retried : List MeteringOp :=
  [.use ['a'] 5 0,.takeBatch 10 .all batchId,.deliver batchId 20,.failed 30 true,
    .takeBatch 2000 .all (List.replicate 32 'b'),.deliver batchId 2010,.settle ∅ 2020]

/-- An answer is lost, and the batch is dropped when it was retried for long enough. -/
def droppedAfterCounted : List MeteringOp :=
  [.use ['a'] 5 0,.takeBatch 10 .all batchId,.deliver batchId 20,.failed 30 true,
    .takeBatch 700000 .all (List.replicate 32 'b')]

/-- What is used in one month is counted in the next. -/
def overMonthEnd : List MeteringOp :=
  [.use ['a'] 5 2678399999,.takeBatch 2678399999 .all batchId,.deliver batchId 2678400000]

def fraction : List MeteringOp := [.use ['a'] (1/2) 0,.takeBatch 0 .all batchId,.deliver batchId 0]

end Sample

theorem usage_counted_once_retried :
    let s := run (Metering.step Sample.setup) (.new Sample.opts : Metering InMemoryMeterStore)
      Sample.retried
    let s' := run (Metering.step Sample.setup) (.new Sample.opts : Metering SqliteMeterStore)
      Sample.retried
    (s.centralTotal ['a'] Sample.setup + s.cutOff ['a'] + s.pending ['a'] + s.undelivered ['a'] +
      s.lost ['a'] = units ['a'] s.used ∧ s.centralTotal ['a'] Sample.setup = 5) ∧
    s'.centralTotal ['a'] Sample.setup + s'.cutOff ['a'] + s'.pending ['a'] + s'.undelivered ['a'] +
      s'.lost ['a'] = units ['a'] s'.used ∧ s'.centralTotal ['a'] Sample.setup = 5 :=
  ⟨⟨(usage_counted_once Sample.setup Sample.opts Sample.retried (by decide +kernel)).1 ['a'],
      by decide +kernel⟩,
    (usage_counted_once Sample.setup Sample.opts Sample.retried (by decide +kernel)).1 ['a'],
    by decide +kernel⟩

/-- On each counter: what is counted, pending, uncounted in the edge's hands and in
any dropped batch is what was used. -/
def AsOnEachCounter {σ : Type} [MeterStore σ] (setup : MeterSetup) (s : Metering σ)
    (account period : Text) : Prop :=
  s.central account setup period + s.pending account + s.undelivered account +
    s.droppedUnits account = units account s.used

instance {σ : Type} [MeterStore σ] (setup : MeterSetup) (s : Metering σ) (account period : Text) :
    Decidable (AsOnEachCounter setup s account period) := inferInstanceAs (Decidable (_ = _))

/-- Along the run ids are different and remembered, and a counter is off at its end. -/
def EndsOff (ops : List MeteringOp) : Prop :=
  Along (Metering.step Sample.setup) (fun s op => FreshId s op ∧ Remembers s op)
    (.new Sample.opts : Metering InMemoryMeterStore) ops ∧
  ¬ AsOnEachCounter Sample.setup
    (run (Metering.step Sample.setup) (.new Sample.opts : Metering InMemoryMeterStore) ops)
    ['a'] (meterPeriodKey .month 0)

instance (ops : List MeteringOp) : Decidable (EndsOff ops) := inferInstanceAs (Decidable (_ ∧ _))

/-- A batch may be dropped after it was counted, counted in the period after its use,
and loses its fractions. -/
theorem dropped_batch_was_counted :
    EndsOff Sample.droppedAfterCounted ∧ EndsOff Sample.overMonthEnd ∧ EndsOff Sample.fraction := by
  decide +kernel

end Flagship.Billing.Proofs

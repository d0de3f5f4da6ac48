import Flagship.Billing.Proofs.Counters

namespace Flagship.Billing.Proofs
open Lib Billing

/-- What is asked of a store. -/
inductive StoreCall
  | addBatch (batchId : Text) (entries : List MeterBatchEntry) (now keepUntil : Int)
  | add (account resource period : Text) (amount : Rat) (now : Int)
  | get (account resource period : Text)
  deriving DecidableEq

inductive StoreAnswer
  | batch (result : MeterBatchResult)
  | total (total : Rat)
  | counter (counter : Option MeterCounter)
  deriving DecidableEq

def memoryCall (s : InMemoryMeterStore) : StoreCall → InMemoryMeterStore × StoreAnswer
  | .addBatch batchId entries now keepUntil =>
    ((s.addBatch batchId entries now keepUntil).1,.batch (s.addBatch batchId entries now keepUntil).2)
  | .add account resource period amount now =>
    ({ s with rows := (s.rows.add account resource period amount now).1 },
      .total (s.rows.add account resource period amount now).2)
  | .get account resource period => (s,.counter (s.rows.get? (account,resource,period)))

/-- `SqliteMeterStore.addBatch`, whichever lapsed ids the limit leaves it to prune. -/
def addBatchPruning (gone : List Text) (s : SqliteMeterStore) (batchId : Text)
    (entries : List MeterBatchEntry) (now keepUntil : Int) : SqliteMeterStore × MeterBatchResult :=
  let batches := s.batches.filterMapVals (fun id kept => if id ∈ gone then none else some kept)
  let claimed := match batches.get? batchId with
    | none => true
    | some kept => kept < now
  if claimed then
    let (counters,totals) := s.counters.addAll now entries
    (⟨counters,batches.set batchId keepUntil⟩,.added totals)
  else ({ s with batches := batches },.duplicate)

def sqliteCall (gone : List Text) (s : SqliteMeterStore) : StoreCall → SqliteMeterStore × StoreAnswer
  | .addBatch batchId entries now keepUntil =>
    ((addBatchPruning gone s batchId entries now keepUntil).1,
      .batch (addBatchPruning gone s batchId entries now keepUntil).2)
  | .add account resource period amount now =>
    ({ s with counters := (s.counters.add account resource period amount now).1 },
      .total (s.counters.add account resource period amount now).2)
  | .get account resource period => (s,.counter (s.counters.get? (account,resource,period)))

/-- Two stores asked the same, with what they answered. -/
structure Stores where
  memory : InMemoryMeterStore
  sqlite : SqliteMeterStore
  answers : List (StoreAnswer × StoreAnswer)

def Stores.new : Stores := ⟨⟨∅,∅⟩,⟨∅,∅⟩,[]⟩

/-- A call, with the ids the SQL store prunes at it. -/
def Stores.step (b : Stores) (c : StoreCall × List Text) : Stores :=
  ⟨(memoryCall b.memory c.1).1,(sqliteCall c.2 b.sqlite c.1).1,
    b.answers ++ [((memoryCall b.memory c.1).2,(sqliteCall c.2 b.sqlite c.1).2)]⟩

/-- A batch prunes lapsed ids only, and not its own. -/
def PrunesLapsed (b : Stores) : StoreCall × List Text → Prop
  | (.addBatch batchId _ now _,gone) =>
    ∀ id ∈ gone,id ≠ batchId ∧ ∃ kept,b.sqlite.batches.get? id = some kept ∧ kept < now
  | _ => True

def batchTime : StoreCall × List Text → Option Int
  | (.addBatch _ _ now _,_) => some now
  | _ => none

/-- The stores hold the same counters, and the same ids but for those that lapsed. -/
structure Alike (b : Stores) (last : Int) : Prop where
  counters : b.memory.rows = b.sqlite.counters
  kept : ∀ id kept,last ≤ kept →
    (b.memory.batches.get? id = some kept ↔ b.sqlite.batches.get? id = some kept)
  answers : ∀ p ∈ b.answers,p.1 = p.2

section
variable {b : Stores} {last now : Int} {batchId : Text} {gone : List Text}

/-- Pruning lapsed ids prunes none that did not lapse. -/
theorem get?_pruning {batches : OrdMap Text Int}
    (hgone : ∀ id ∈ gone,id ≠ batchId ∧ ∃ kept,batches.get? id = some kept ∧ kept < now)
    {id : Text} {kept : Int} (hk : now ≤ kept) :
    (batches.filterMapVals (fun id kept => if id ∈ gone then none else some kept)).get? id =
      some kept ↔ batches.get? id = some kept := by
  rw [OrdMap.get?_filterMapVals]
  constructor
  · intro h
    obtain ⟨kept',hget,hsome⟩ := Option.bind_eq_some_iff.mp h
    split at hsome
    · cases hsome
    · cases hsome
      exact hget
  · intro h
    have hnot : id ∉ gone := by
      intro hmem
      obtain ⟨-,kept',hget,hlapsed⟩ := hgone id hmem
      rw [h,Option.some.injEq] at hget
      omega
    rw [h,Option.bind_some,if_neg hnot]

/-- After what each forgets at a time, the ids that did not lapse by then agree. -/
theorem Alike.forget (h : Alike b last) (hle : last ≤ now)
    (hgone : ∀ id ∈ gone,id ≠ batchId ∧ ∃ kept,b.sqlite.batches.get? id = some kept ∧ kept < now)
    (id : Text) {kept : Int} (hk : now ≤ kept) :
    (InMemoryMeterStore.forgetLapsed b.memory.batches now).get? id = some kept ↔
      (b.sqlite.batches.filterMapVals
        (fun id kept => if id ∈ gone then none else some kept)).get? id = some kept := by
  rw [get?_pruning hgone hk,← h.kept id kept (hle.trans hk)]
  exact ⟨get?_dropWhile,fun hget => forgetLapsed_kept hget hk⟩

/-- The SQL claim fails where the id is on record and did not lapse. -/
theorem claimed_eq (kept : Option Int) (now : Int) :
    (match kept with
      | none => true
      | some kept => decide (kept < now)) = !kept.any fun k => decide (now ≤ k) := by
  cases kept with
  | none => rfl
  | some k =>
    by_cases h : k < now
    · simp [h]
    · simp [h,Int.not_lt.mp h]

theorem Alike.batch (h : Alike b last) (hle : last ≤ now)
    (hgone : ∀ id ∈ gone,id ≠ batchId ∧ ∃ kept,b.sqlite.batches.get? id = some kept ∧ kept < now)
    (entries : List MeterBatchEntry) (keepUntil : Int) :
    Alike (b.step (.addBatch batchId entries now keepUntil,gone)) now := by
  have hkept : ∀ id kept,now ≤ kept → _ := fun id kept hk => h.forget hle hgone id hk
  let pruned := b.sqlite.batches.filterMapVals fun id kept => if id ∈ gone then none else some kept
  have hseen : ((InMemoryMeterStore.forgetLapsed b.memory.batches now).get? batchId).any (fun k => decide (now ≤ k)) =
      (pruned.get? batchId).any fun k => decide (now ≤ k) := by
    rw [Bool.eq_iff_iff,any_kept,any_kept]
    refine exists_congr fun k => ?_
    constructor
    · exact fun ⟨hget,hk⟩ => ⟨(hkept batchId k hk).mp hget,hk⟩
    · exact fun ⟨hget,hk⟩ => ⟨(hkept batchId k hk).mpr hget,hk⟩
  cases hany : (pruned.get? batchId).any fun k => decide (now ≤ k) with
  | true =>
    rw [hany] at hseen
    have hmemory : b.memory.addBatch batchId entries now keepUntil =
        ({ b.memory with batches := InMemoryMeterStore.forgetLapsed b.memory.batches now },.duplicate) := by
      rw [InMemoryMeterStore.addBatch,if_pos hseen]
    have hsqlite : addBatchPruning gone b.sqlite batchId entries now keepUntil =
        ({ b.sqlite with batches := pruned },.duplicate) := by
      rw [addBatchPruning,claimed_eq,hany]
      rfl
    simp only [Stores.step,memoryCall,sqliteCall,hmemory,hsqlite]
    refine ⟨h.counters,fun id kept hk => hkept id kept hk,?_⟩
    exact List.forall_mem_append.mpr ⟨h.answers,by simp⟩
  | false =>
    rw [hany] at hseen
    have hmemory : b.memory.addBatch batchId entries now keepUntil =
        (⟨(b.memory.rows.addAll now entries).1,
          ((InMemoryMeterStore.forgetLapsed b.memory.batches now).erase batchId).set batchId keepUntil⟩,
          .added (b.memory.rows.addAll now entries).2) := by
      rw [InMemoryMeterStore.addBatch,if_neg (by rw [hseen]; exact Bool.false_ne_true)]
    have hsqlite : addBatchPruning gone b.sqlite batchId entries now keepUntil =
        (⟨(b.sqlite.counters.addAll now entries).1,pruned.set batchId keepUntil⟩,
          .added (b.sqlite.counters.addAll now entries).2) := by
      rw [addBatchPruning,claimed_eq,hany]
      rfl
    simp only [Stores.step,memoryCall,sqliteCall,hmemory,hsqlite,h.counters]
    refine ⟨rfl,fun id kept hk => ?_,?_⟩
    · rw [OrdMap.get?_set,OrdMap.get?_set]
      split
      · exact Iff.rfl
      · rename_i hid
        rw [OrdMap.get?_erase_ne hid]
        exact hkept id kept hk
    · exact List.forall_mem_append.mpr ⟨h.answers,by simp⟩

theorem Alike.step (h : Alike b last) {c : StoreCall × List Text}
    (hle : ∀ t,batchTime c = some t → last ≤ t) (hprunes : PrunesLapsed b c) :
    Alike (b.step c) ((batchTime c).getD last) := by
  obtain ⟨call,gone⟩ := c
  cases call with
  | addBatch batchId entries now keepUntil => exact h.batch (hle now rfl) hprunes entries keepUntil
  | add account resource period amount now =>
    refine ⟨?_,h.kept,List.forall_mem_append.mpr ⟨h.answers,?_⟩⟩
    · simp only [Stores.step,memoryCall,sqliteCall,h.counters]
    · simp [memoryCall,sqliteCall,h.counters]
  | get account resource period =>
    refine ⟨h.counters,h.kept,List.forall_mem_append.mpr ⟨h.answers,?_⟩⟩
    simp [memoryCall,sqliteCall,h.counters]

theorem Alike.run (h : Alike b last) {calls : List (StoreCall × List Text)}
    (hmono : (last :: calls.filterMap batchTime).Pairwise (· ≤ ·))
    (hprunes : Along Stores.step PrunesLapsed b calls) :
    ∃ last',Alike (run Stores.step b calls) last' := by
  induction calls generalizing b last with
  | nil => exact ⟨last,h⟩
  | cons c calls ih =>
    obtain ⟨hprune,hrest⟩ := hprunes
    obtain ⟨hfirst,htail⟩ := List.pairwise_cons.mp hmono
    cases hc : batchTime c with
    | none =>
      rw [List.filterMap_cons_none hc] at hmono
      have hstep := h.step (by rw [hc]; exact nofun) hprune
      rw [hc] at hstep
      exact ih hstep hmono hrest
    | some t =>
      rw [List.filterMap_cons_some hc] at hfirst htail
      have hstep := h.step (fun t' ht' => hfirst t' (by
        rw [hc,Option.some.injEq] at ht'
        rw [← ht']
        exact List.mem_cons_self)) hprune
      rw [hc] at hstep
      exact ih hstep htail hrest

end

/-- The calls with the ids the SQL store as modelled prunes at them. -/
def withLapsed (b : Stores) : List StoreCall → List (StoreCall × List Text)
  | [] => []
  | c :: cs =>
    let gone := match c with
      | .addBatch batchId _ now _ => SqliteMeterStore.lapsed b.sqlite.batches batchId now
      | _ => []
    (c,gone) :: withLapsed (b.step (c,gone)) cs

theorem prunesLapsed_withLapsed (b : Stores) (cs : List StoreCall) :
    Along Stores.step PrunesLapsed b (withLapsed b cs) := by
  induction cs generalizing b with
  | nil => trivial
  | cons c cs ih =>
    refine ⟨?_,ih _⟩
    cases c with
    | addBatch batchId entries now keepUntil => exact fun id hid => mem_lapsed hid
    | add account resource period amount now => trivial
    | get account resource period => trivial

/-- A batch of one unit for an account. -/
def oneUnit : List MeterBatchEntry := [⟨['a'],['r'],['p'],1⟩]

end Flagship.Billing.Proofs

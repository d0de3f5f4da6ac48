import Mathlib.Data.List.TakeWhile
import Flagship.Billing.Metering

namespace Flagship.Billing.Proofs
open Lib

/-- What a list of entries adds to a counter. -/
def delta (entries : List MeterBatchEntry) (account resource period : Text) : Rat :=
  ((entries.filter (fun e => decide ((e.account,e.resource,e.period) = (account,resource,period)))).map
    (fun e => ((max 0 ⌊e.amount⌋ : Int) : Rat))).sum

theorem amount_add (rows : Counters) (account resource period a r p : Text) (amount : Rat)
    (now : Int) :
    (rows.add account resource period amount now).1.amount a r p =
      rows.amount a r p +
        if (account,resource,period) = (a,r,p) then ((max 0 ⌊amount⌋ : Int) : Rat) else 0 := by
  by_cases h : (a,r,p) = (account,resource,period)
  · obtain ⟨rfl,rfl,rfl⟩ : a = account ∧ r = resource ∧ p = period := by simpa using h
    simp [Counters.add,Counters.amount]
  · rw [if_neg (Ne.symm h)]
    simp [Counters.add,Counters.amount,OrdMap.get?_set,h]

theorem amount_addAll (entries : List MeterBatchEntry) (rows : Counters) (now : Int)
    (a r p : Text) :
    (rows.addAll now entries).1.amount a r p = rows.amount a r p + delta entries a r p := by
  induction entries generalizing rows with
  | nil => simp [Counters.addAll,delta]
  | cons e entries ih =>
    have hstep : (rows.addAll now (e :: entries)).1 =
        ((rows.add e.account e.resource e.period e.amount now).1.addAll now entries).1 := rfl
    rw [hstep,ih,amount_add]
    by_cases he : (e.account,e.resource,e.period) = (a,r,p)
    · simp only [he,↓reduceIte,delta,decide_true,List.filter_cons_of_pos,List.map_cons,
        List.sum_cons]
      ring
    · simp only [he,↓reduceIte,delta,decide_false,Bool.false_eq_true,not_false_eq_true,
        List.filter_cons_of_neg]
      ring

/-- What a store that counts each batch once does. -/
class LawfulMeterStore (σ : Type) [MeterStore σ] : Prop where
  counters_empty : MeterStore.counters (MeterStore.empty : σ) = ∅
  remembers_empty : ∀ id now, MeterStore.remembers (MeterStore.empty : σ) id now = false
  /-- A batch on record changes no counter. -/
  duplicate : ∀ (s : σ) id entries now keep, MeterStore.remembers s id now = true →
    (MeterStore.addBatch s id entries now keep).2 = .duplicate ∧
    MeterStore.counters (MeterStore.addBatch s id entries now keep).1 = MeterStore.counters s
  /-- Any other batch is added entry by entry. -/
  added : ∀ (s : σ) id entries now keep, MeterStore.remembers s id now = false →
    (∃ totals, (MeterStore.addBatch s id entries now keep).2 = .added totals) ∧
    MeterStore.counters (MeterStore.addBatch s id entries now keep).1 =
      ((MeterStore.counters s).addAll now entries).1
  /-- Only the batch itself comes on record. -/
  remembered : ∀ (s : σ) id entries now keep id' now',
    MeterStore.remembers (MeterStore.addBatch s id entries now keep).1 id' now' = true →
    id' = id ∨ MeterStore.remembers s id' now' = true

theorem get?_dropWhile {batches : OrdMap Text Int} {now kept : Int} {id : Text}
    (h : (InMemoryMeterStore.forgetLapsed batches now).get? id = some kept) :
    batches.get? id = some kept := by
  rw [← OrdMap.mem_entries] at h ⊢
  exact (List.dropWhile_sublist _).mem h

/-- Forgetting lapsed ids forgets no other. -/
theorem forgetLapsed_kept {batches : OrdMap Text Int} {now kept : Int} {id : Text}
    (h : batches.get? id = some kept) (hk : now ≤ kept) :
    (InMemoryMeterStore.forgetLapsed batches now).get? id = some kept := by
  rw [← OrdMap.mem_entries] at h ⊢
  have hsplit := List.takeWhile_append_dropWhile (p := fun e : Text × Int => decide (e.2 < now))
    (l := batches.entries)
  rw [← hsplit,List.mem_append] at h
  rcases h with h | h
  · have hlapsed := List.mem_takeWhile_imp h
    simp only [decide_eq_true_eq] at hlapsed
    omega
  · exact h

theorem any_kept {kept : Option Int} {now : Int} :
    kept.any (fun k => decide (now ≤ k)) = true ↔ ∃ k, kept = some k ∧ now ≤ k := by
  cases kept with
  | none => simp
  | some k => simp

instance : LawfulMeterStore InMemoryMeterStore where
  counters_empty := rfl
  remembers_empty _ _ := rfl
  duplicate s id entries now keep h := by
    obtain ⟨kept,hget,hk⟩ := any_kept.mp h
    have hseen : ((InMemoryMeterStore.forgetLapsed s.batches now).get? id).any
        (fun seen => decide (now ≤ seen)) = true :=
      any_kept.mpr ⟨kept,forgetLapsed_kept hget hk,hk⟩
    simp [MeterStore.addBatch,InMemoryMeterStore.addBatch,hseen,MeterStore.counters]
  added s id entries now keep h := by
    have hseen : ((InMemoryMeterStore.forgetLapsed s.batches now).get? id).any
        (fun seen => decide (now ≤ seen)) = false := by
      rw [Bool.eq_false_iff]
      intro hany
      obtain ⟨kept,hget,hk⟩ := any_kept.mp hany
      have hold := any_kept.mpr ⟨kept,get?_dropWhile hget,hk⟩
      simp [MeterStore.remembers,hold] at h
    simp [MeterStore.addBatch,InMemoryMeterStore.addBatch,hseen,MeterStore.counters]
  remembered s id entries now keep id' now' h := by
    by_cases hid : id' = id
    · exact Or.inl hid
    · refine Or.inr ?_
      obtain ⟨kept,hget,hk⟩ := any_kept.mp h
      refine any_kept.mpr ⟨kept,?_,hk⟩
      simp only [MeterStore.addBatch,InMemoryMeterStore.addBatch] at hget
      split at hget
      · exact get?_dropWhile hget
      · rw [OrdMap.get?_set_ne hid,OrdMap.get?_erase_ne hid] at hget
        exact get?_dropWhile hget

theorem mem_lapsed {batches : OrdMap Text Int} {batchId id : Text} {now : Int}
    (h : id ∈ SqliteMeterStore.lapsed batches batchId now) :
    id ≠ batchId ∧ ∃ kept, batches.get? id = some kept ∧ kept < now := by
  obtain ⟨⟨id',kept⟩,hmem,rfl⟩ := List.mem_map.mp h
  have hfilter := List.mem_filter.mp (List.mem_of_mem_take hmem)
  simp only [Bool.and_eq_true,decide_eq_true_eq,bne_iff_ne] at hfilter
  exact ⟨hfilter.2.2,kept,batches.mem_entries.mp hfilter.1,hfilter.2.1⟩

/-- The batch's own row is never among those pruned. -/
theorem get?_pruned (batches : OrdMap Text Int) (batchId : Text) (now : Int) :
    (batches.filterMapVals (fun id kept =>
      if id ∈ SqliteMeterStore.lapsed batches batchId now then none else some kept)).get? batchId =
      batches.get? batchId := by
  have hnot : batchId ∉ SqliteMeterStore.lapsed batches batchId now := fun h => (mem_lapsed h).1 rfl
  rw [OrdMap.get?_filterMapVals]
  cases batches.get? batchId with
  | none => rfl
  | some kept => simp [hnot]

instance : LawfulMeterStore SqliteMeterStore where
  counters_empty := rfl
  remembers_empty _ _ := rfl
  duplicate s id entries now keep h := by
    obtain ⟨kept,hget,hk⟩ := any_kept.mp h
    have hnot : ¬ kept < now := by omega
    simp [MeterStore.addBatch,SqliteMeterStore.addBatch,get?_pruned,hget,hnot,MeterStore.counters]
  added s id entries now keep h := by
    cases hget : s.batches.get? id with
    | none =>
      simp [MeterStore.addBatch,SqliteMeterStore.addBatch,get?_pruned,hget,MeterStore.counters]
    | some kept =>
      have hlapsed : kept < now := by
        by_contra hk
        have hold := any_kept.mpr ⟨kept,hget,Int.not_lt.mp hk⟩
        simp [MeterStore.remembers,hold] at h
      simp [MeterStore.addBatch,SqliteMeterStore.addBatch,get?_pruned,hget,hlapsed,
        MeterStore.counters]
  remembered s id entries now keep id' now' h := by
    by_cases hid : id' = id
    · exact Or.inl hid
    · refine Or.inr ?_
      obtain ⟨kept,hget,hk⟩ := any_kept.mp h
      refine any_kept.mpr ⟨kept,?_,hk⟩
      have hpruned : (s.batches.filterMapVals (fun x kept =>
          if x ∈ SqliteMeterStore.lapsed s.batches id now then none else some kept)).get? id' =
          some kept := by
        simp only [MeterStore.addBatch,SqliteMeterStore.addBatch] at hget
        split at hget
        · simp only [↓reduceIte] at hget
          rwa [OrdMap.get?_set_ne hid] at hget
        · split at hget
          · rwa [OrdMap.get?_set_ne hid] at hget
          · exact hget
      rw [OrdMap.get?_filterMapVals] at hpruned
      cases hold : s.batches.get? id' with
      | none => simp [hold] at hpruned
      | some k =>
        simp only [hold,Option.bind_some] at hpruned
        split at hpruned
        · cases hpruned
        · exact hpruned

/-- A sum over the values of a map of which all but one key's are left out. -/
theorem sum_filter_vals {κ ν : Type} [DecidableEq κ] (m : OrdMap κ ν) (k : κ) (p : ν → Bool)
    (f : ν → Rat) (hp : ∀ k' v, m.get? k' = some v → p v = true → k' = k) :
    (((m.entries.map Prod.snd).filter p).map f).sum =
      (((m.get? k).filter p).map f).getD 0 := by
  have hmem : ∀ e ∈ m.entries, p e.2 = true → e.1 = k := fun e he => hp e.1 e.2 (m.mem_entries.mp he)
  have hnodup := m.nodup
  unfold OrdMap.get?
  generalize m.entries = es at hmem hnodup
  induction es with
  | nil => rfl
  | cons e es ih =>
    obtain ⟨hnew,hrest⟩ := List.nodup_cons.mp hnodup
    have hih := ih (fun x hx => hmem x (List.mem_cons_of_mem e hx)) hrest
    obtain ⟨k',v⟩ := e
    by_cases hk : k = k'
    · subst hk
      -- no other pair has this key, so nothing else passes
      have hnone : (es.map Prod.snd).filter p = [] := by
        rw [List.filter_eq_nil_iff]
        intro x hx hpx
        obtain ⟨⟨k'',x'⟩,he,rfl⟩ := List.mem_map.mp hx
        have hkey := hmem (k'',x') (List.mem_cons_of_mem _ he) hpx
        exact hnew (List.mem_map.mpr ⟨(k'',x'),he,hkey⟩)
      cases hv : p v with
      | true => simp [hv,hnone,Option.filter]
      | false => simp [hv,hnone,Option.filter]
    · have hv : p v = false := by
        rw [Bool.eq_false_iff]
        exact fun hv => hk (hmem (k',v) List.mem_cons_self hv).symm
      have hne : (k == k') = false := by simpa using hk
      simpa [hv,List.lookup_cons,hne] using hih

variable {setup : MeterSetup} {now : Int}

/-- The entries of one resource's report, all in the period of the moment and of
whole amounts. -/
def Merged (setup : MeterSetup) (now : Int) (merged : OrdMap (Text × Text) MeterBatchEntry) : Prop :=
  ∀ k e, merged.get? k = some e → e.account = k.1 ∧ e.resource = k.2 ∧ k.2 = setup.resource ∧
    e.period = Metering.periodAt setup now ∧ 0 ≤ e.amount ∧ (⌊e.amount⌋ : Rat) = e.amount

/-- What is merged for an account. -/
def mergedAmount (setup : MeterSetup) (merged : OrdMap (Text × Text) MeterBatchEntry)
    (account : Text) : Rat :=
  ((merged.get? (account,setup.resource)).map MeterBatchEntry.amount).getD 0

theorem wholeUnits_cons (account : Text) (i : EdgeItem) (items : List EdgeItem) :
    wholeUnits account (i :: items) =
      (if i.account = account then (⌊i.amount⌋ : Rat) else 0) + wholeUnits account items := by
  by_cases h : i.account = account
  · simp [wholeUnits,h]
  · simp [wholeUnits,h]

/-- The entry one more item makes of what is merged for its account. -/
def mergedEntry (setup : MeterSetup) (now : Int) (merged : OrdMap (Text × Text) MeterBatchEntry)
    (account : Text) (period : MeterPeriod) (amount : Rat) : MeterBatchEntry :=
  match merged.get? (account,setup.resource) with
  | some prev => { prev with amount := prev.amount + amount }
  | none => ⟨account,setup.resource,meterPeriodKey period now,amount⟩

theorem mergedEntry_amount (merged : OrdMap (Text × Text) MeterBatchEntry) (account : Text)
    (period : MeterPeriod) (amount : Rat) :
    (mergedEntry setup now merged account period amount).amount =
      mergedAmount setup merged account + amount := by
  unfold mergedEntry mergedAmount
  cases merged.get? (account,setup.resource) with
  | none => simp
  | some prev => simp

theorem merged_set {merged : OrdMap (Text × Text) MeterBatchEntry} (hm : Merged setup now merged)
    {period : MeterPeriod} (hperiod : setup.catalog setup.resource = some period) (account : Text)
    (n : Int) (hn : 0 ≤ n) :
    Merged setup now (merged.set (account,setup.resource)
      (mergedEntry setup now merged account period n)) := by
  intro k e he
  rw [OrdMap.get?_set] at he
  split at he
  · rename_i hk
    subst hk
    simp only [Option.some.injEq] at he
    subst he
    have hnn : (0 : Rat) ≤ n := by exact_mod_cast hn
    unfold mergedEntry
    split
    · rename_i prev hprev
      obtain ⟨ha,hr,hs,hp,h0,hf⟩ := hm _ prev hprev
      refine ⟨ha,hr,hs,hp,add_nonneg h0 hnn,?_⟩
      simp only [Int.floor_add_intCast,Int.cast_add,hf]
    · exact ⟨rfl,rfl,rfl,by simp [Metering.periodAt,hperiod],hnn,by simp⟩
  · exact hm k e he

theorem mergedAmount_set (merged : OrdMap (Text × Text) MeterBatchEntry) (e : MeterBatchEntry)
    (account a : Text) :
    mergedAmount setup (merged.set (account,setup.resource) e) a =
      if account = a then e.amount else mergedAmount setup merged a := by
  by_cases h : account = a
  · simp [mergedAmount,h]
  · have hne : (a,setup.resource) ≠ (account,setup.resource) := by simpa using Ne.symm h
    simp [mergedAmount,OrdMap.get?_set_ne hne,h]

theorem mergeItems_spec {items : List EdgeItem} {merged merged' : OrdMap (Text × Text) MeterBatchEntry}
    (h : mergeItems setup.catalog now merged
      (items.map (fun i => ⟨i.account,setup.resource,i.amount⟩)) = .ok merged')
    (hm : Merged setup now merged) :
    Merged setup now merged' ∧ ∀ a, mergedAmount setup merged' a =
      mergedAmount setup merged a + wholeUnits a items := by
  induction items generalizing merged with
  | nil =>
    simp only [List.map_nil,mergeItems,Except.ok.injEq] at h
    subst h
    exact ⟨hm,fun a => by simp [wholeUnits]⟩
  | cons i items ih =>
    simp only [List.map_cons,mergeItems] at h
    split at h
    · cases h
    rename_i period hperiod
    split at h
    · cases h
    rename_i amount hamount
    unfold wholeNonNegative at hamount
    split at hamount
    · cases hamount
    rename_i hnn
    simp only [Except.ok.injEq] at hamount
    subst hamount
    have hset := merged_set hm hperiod i.account ⌊i.amount⌋ (Int.floor_nonneg.mpr (not_lt.mp hnn))
    obtain ⟨hm',hsum⟩ := ih h hset
    refine ⟨hm',fun a => ?_⟩
    rw [hsum a,wholeUnits_cons]
    have hone : mergedAmount setup (merged.set (i.account,setup.resource)
        (mergedEntry setup now merged i.account period ⌊i.amount⌋)) a = _ :=
      mergedAmount_set merged (mergedEntry setup now merged i.account period ⌊i.amount⌋) i.account a
    rw [mergedEntry_amount] at hone
    refine (congrArg (· + wholeUnits a items) hone).trans ?_
    split
    · rename_i ha
      subst ha
      ring
    · ring

/-- What the entries of a report add to a counter of its resource. -/
theorem delta_merged {merged : OrdMap (Text × Text) MeterBatchEntry} (hm : Merged setup now merged)
    (a p : Text) :
    delta (merged.entries.map Prod.snd) a setup.resource p =
      if p = Metering.periodAt setup now then mergedAmount setup merged a else 0 := by
  unfold delta
  rw [sum_filter_vals merged (a,setup.resource)]
  · unfold mergedAmount
    cases hget : merged.get? (a,setup.resource) with
    | none => simp
    | some e =>
      obtain ⟨ha,hr,-,hp,h0,hf⟩ := hm _ e hget
      have hwhole : max 0 (⌊e.amount⌋ : Rat) = e.amount := by rw [hf,max_eq_right h0]
      by_cases hper : p = Metering.periodAt setup now
      · simp [Option.filter,ha,hr,hp,hper,hwhole]
      · simp [Option.filter,ha,hr,hp,hper,Ne.symm hper]
  · intro k e he hkey
    obtain ⟨ha,hr,hs,-⟩ := hm k e he
    simp only [decide_eq_true_eq,Prod.mk.injEq] at hkey
    exact Prod.ext (ha.symm.trans hkey.1) hs

/-- What a batch that reaches central does to the counters of its resource. -/
theorem meterReport_spec {σ : Type} [MeterStore σ] [LawfulMeterStore σ] {store store' : σ}
    {b : EdgeBatch} {answer : MeterReportResult}
    (h : meterReport setup.catalog setup.keepMs store (Metering.report setup b) now =
      .ok (store',answer)) :
    answer.duplicate = MeterStore.remembers store b.id now ∧
    (∀ id t, MeterStore.remembers store' id t = true →
      id = b.id ∨ MeterStore.remembers store id t = true) ∧
    ∀ a p, (MeterStore.counters store').amount a setup.resource p =
      (MeterStore.counters store).amount a setup.resource p +
        if MeterStore.remembers store b.id now = false ∧ p = Metering.periodAt setup now then
          wholeUnits a b.items else 0 := by
  unfold meterReport Metering.report at h
  split at h
  · cases h
  split at h
  · cases h
  rename_i merged hmerged
  obtain ⟨hm,hamount⟩ := mergeItems_spec hmerged (fun k e he => by simp at he)
  simp only at h
  have hrem := LawfulMeterStore.remembered store b.id (merged.entries.map Prod.snd) now
    (now + setup.keepMs)
  cases hseen : MeterStore.remembers store b.id now with
  | true =>
    obtain ⟨hdup,hsame⟩ := LawfulMeterStore.duplicate store b.id (merged.entries.map Prod.snd) now
      (now + setup.keepMs) hseen
    generalize MeterStore.addBatch store b.id (merged.entries.map Prod.snd) now
      (now + setup.keepMs) = r at h hdup hsame hrem
    obtain ⟨store'',result⟩ := r
    subst hdup
    simp only [Except.ok.injEq,Prod.mk.injEq] at h
    obtain ⟨rfl,rfl⟩ := h
    exact ⟨rfl,hrem,fun a p => by rw [hsame]; simp⟩
  | false =>
    obtain ⟨⟨totals,hadd⟩,hcounters⟩ := LawfulMeterStore.added store b.id
      (merged.entries.map Prod.snd) now (now + setup.keepMs) hseen
    generalize MeterStore.addBatch store b.id (merged.entries.map Prod.snd) now
      (now + setup.keepMs) = r at h hadd hcounters hrem
    obtain ⟨store'',result⟩ := r
    subst hadd
    simp only [Except.ok.injEq,Prod.mk.injEq] at h
    obtain ⟨rfl,rfl⟩ := h
    refine ⟨rfl,hrem,fun a p => ?_⟩
    rw [hcounters,amount_addAll,delta_merged hm,hamount a]
    simp [mergedAmount]

end Flagship.Billing.Proofs

import Flagship.Relay.Proofs.Views

namespace Flagship.Relay.Proofs
open Lib Allocator

/-- The heir is chosen from members and queues only. -/
theorem pickHeir_congr {pods : Pods} {stopped : Finset Text} {set set' : SetEntry} {slot : Text}
    (hm : set'.members = set.members) (hq : set'.candidateQueue = set.candidateQueue) :
    pickHeir pods stopped set' slot = pickHeir pods stopped set slot := by
  unfold pickHeir liveCandidate fallbackHeir
  rw [hm,hq]

@[simp] theorem assignSlot_members (set : SetEntry) (slot : Text) (heir : Option Text) :
    (assignSlot set slot heir).members = set.members := by cases heir <;> rfl

@[simp] theorem assignSlot_candidateQueue (set : SetEntry) (slot : Text) (heir : Option Text) :
    (assignSlot set slot heir).candidateQueue = set.candidateQueue := by cases heir <;> rfl

@[simp] theorem get?_assignSlot (set : SetEntry) (slot s : Text) (heir : Option Text) :
    (assignSlot set slot heir).slotHolders.get? s =
      if s = slot then heir else set.slotHolders.get? s := by
  cases heir with
  | none => exact OrdMap.get?_erase _ _ _
  | some h => exact OrdMap.get?_set _ _ _ _

/-- Handing slots on changes nothing but their holders, and each slot's heir is
the one chosen from the set as it was. -/
structure HandedOver (pods : Pods) (stopped : Finset Text) (pc : Text) (set : SetEntry)
    (slots : List Text) (r : SetEntry × List Redistributed) : Prop where
  members : r.1.members = set.members
  queue : r.1.candidateQueue = set.candidateQueue
  holders : ∀ s, r.1.slotHolders.get? s =
    if s ∈ slots then pickHeir pods stopped set s else set.slotHolders.get? s
  reported : r.2 = slots.map (fun s => ⟨s,pc,pickHeir pods stopped set s⟩)

theorem handOver_spec (pods : Pods) (stopped : Finset Text) (pc : Text) (set : SetEntry)
    (slots : List Text) :
    HandedOver pods stopped pc set slots (handOver pods stopped pc set slots) := by
  induction slots using List.reverseRecOn with
  | nil => exact ⟨rfl,rfl,by simp [handOver],rfl⟩
  | append_singleton done slot h =>
    have hp : pickHeir pods stopped (handOver pods stopped pc set done).1 slot =
        pickHeir pods stopped set slot := pickHeir_congr h.members h.queue
    unfold handOver at h hp ⊢
    rw [List.foldl_append,List.foldl_cons,List.foldl_nil]
    constructor
    · simp [h.members]
    · simp [h.queue]
    · intro s
      simp only [get?_assignSlot,hp,h.holders,List.mem_append,List.mem_singleton]
      by_cases hs : s = slot <;> by_cases hd : s ∈ done <;> simp [hs,hd]
    · simp [h.reported,hp]

theorem mem_heldSlots {set : SetEntry} {pc s : Text} :
    s ∈ heldSlots set pc ↔ set.slotHolders.get? s = some pc := by
  rw [← OrdMap.mem_entries]
  constructor
  · intro h
    obtain ⟨⟨k,v⟩,hm,rfl⟩ := List.mem_map.mp h
    obtain ⟨hm,hv⟩ := List.mem_filter.mp hm
    have he : v = pc := by simpa using hv
    exact he ▸ hm
  · intro h
    exact List.mem_map.mpr ⟨(s,pc),List.mem_filter.mpr ⟨h,by simp⟩,rfl⟩

theorem fallbackHeir_mem {pods : Pods} {stopped : Finset Text} {set : SetEntry} {h : Text}
    (hf : fallbackHeir pods stopped set = some h) :
    set.members.contains h = true ∧ pods.contains h = true ∧ h ∉ stopped := by
  obtain ⟨b,hbest,rfl⟩ := Option.map_eq_some_iff.mp hf
  -- the best so far is always a registered, serving member
  refine List.foldlRecOn set.members.keys _ (motive := fun best => ∀ b, best = some b →
    set.members.contains b.1 = true ∧ pods.contains b.1 = true ∧ b.1 ∉ stopped)
    (by simp) (fun best hb m hm b he => ?_) b hbest
  split at he
  · exact hb b he
  · rename_i hs
    cases hp : pods.get? m with
    | none => exact hb b (by simpa [hp] using he)
    | some p =>
      simp only [hp] at he
      have hmember : set.members.contains m = true := set.members.contains_iff_mem.mpr hm
      have hpm : pods.contains m = true := pods.contains_iff.mpr ⟨p,hp⟩
      unfold betterHeir at he
      split at he
      · cases he
        exact ⟨hmember,hpm,hs⟩
      · rename_i q t hq
        split at he
        · cases he
          exact ⟨hmember,hpm,hs⟩
        · cases he
          exact hb _ rfl

theorem liveCandidate_mem {pods : Pods} {stopped : Finset Text} {set : SetEntry} {slot h : Text}
    (hc : liveCandidate pods stopped set slot = some h) :
    (set.members.contains h = true ∧ pods.contains h = true ∧ h ∉ stopped) ∧
      h ∈ (set.candidateQueue.get? slot).getD [] := by
  have hp := List.find?_some hc
  simp only [Bool.and_eq_true,decide_eq_true_eq] at hp
  exact ⟨⟨hp.1.2,hp.1.1,hp.2⟩,List.mem_of_find?_eq_some hc⟩

/-- Whoever inherits is a registered, serving member. -/
theorem pickHeir_mem {pods : Pods} {stopped : Finset Text} {set : SetEntry} {slot h : Text}
    (hp : pickHeir pods stopped set slot = some h) :
    set.members.contains h = true ∧ pods.contains h = true ∧ h ∉ stopped := by
  unfold pickHeir at hp
  split at hp
  · rename_i hc
    cases hp
    exact (liveCandidate_mem hc).1
  · exact fallbackHeir_mem hp

/-- Without a live candidate the heir is whatever member has been there longest. -/
theorem pickHeir_queued {pods : Pods} {stopped : Finset Text} {set : SetEntry} {slot h : Text}
    (hp : pickHeir pods stopped set slot = some h) :
    h ∈ (set.candidateQueue.get? slot).getD [] ∨
      liveCandidate pods stopped set slot = none ∧ fallbackHeir pods stopped set = some h := by
  unfold pickHeir at hp
  split at hp
  · rename_i hc
    cases hp
    exact Or.inl (liveCandidate_mem hc).2
  · rename_i hc
    exact Or.inr ⟨hc,hp⟩

theorem forgetPod_members (set : SetEntry) (pc p : Text) :
    (forgetPod set pc).members.contains p = true ↔ p ≠ pc ∧ set.members.contains p = true := by
  by_cases h : p = pc <;> simp [forgetPod,OrdMap.contains,OrdMap.get?_erase,h]

@[simp] theorem forgetPod_slotHolders (set : SetEntry) (pc : Text) :
    (forgetPod set pc).slotHolders = set.slotHolders := rfl

theorem mem_forgetPod_queue (set : SetEntry) (pc s p : Text) :
    p ∈ ((forgetPod set pc).candidateQueue.get? s).getD [] ↔
      p ≠ pc ∧ p ∈ (set.candidateQueue.get? s).getD [] := by
  simp only [forgetPod,OrdMap.get?_filterMapVals]
  cases set.candidateQueue.get? s with
  | none => simp
  | some q =>
    simp only [Option.bind_some,Option.getD_some]
    split
    · rename_i he
      have hnil : q.filter (· != pc) = [] := List.isEmpty_iff.mp he
      have hall := List.filter_eq_nil_iff.mp hnil
      simp only [Option.getD_none,List.not_mem_nil,false_iff,not_and]
      intro hne hm
      exact hall p hm (by simpa using hne)
    · simp [and_comm]

/-- One set of a removal, on its own; `none` when nobody is left in it. -/
def leaveEntry (pods : Pods) (stopped : Finset Text) (pc : Text) (set : SetEntry) :
    Option SetEntry :=
  let left := (handOver pods stopped pc (forgetPod set pc) (heldSlots set pc)).1
  if left.members.size = 0 ∧ left.slotHolders.size = 0 then none else some left

/-- One set of a serving stop, on its own. -/
def stopEntry (pods : Pods) (stopped : Finset Text) (pc : Text) (set : SetEntry) :
    Option SetEntry :=
  some (handOver pods stopped pc set (heldSlots set pc)).1

theorem leaveSet_get? (pods : Pods) (stopped : Finset Text) (pc : Text) (st : GiveUpLoop)
    (ks x : Text) : (leaveSet pods stopped pc st ks).sets.get? x =
      if x = ks then (st.sets.get? x).bind (leaveEntry pods stopped pc) else st.sets.get? x := by
  unfold leaveSet
  cases hg : st.sets.get? ks with
  | none => by_cases hx : x = ks <;> simp [hx,hg]
  | some set =>
    have hh : heldSlots (forgetPod set pc) pc = heldSlots set pc := rfl
    simp only [hh]
    by_cases hx : x = ks
    · subst hx
      simp only [hg,Option.bind_some,leaveEntry,↓reduceIte]
      split <;> simp
    · simp only [hx,↓reduceIte]
      split
      · exact OrdMap.get?_erase_ne hx
      · exact OrdMap.get?_set_ne hx

theorem stopInSet_get? (pods : Pods) (stopped : Finset Text) (pc : Text) (st : GiveUpLoop)
    (ks x : Text) : (stopInSet pods stopped pc st ks).sets.get? x =
      if x = ks then (st.sets.get? x).bind (stopEntry pods stopped pc) else st.sets.get? x := by
  unfold stopInSet
  cases hg : st.sets.get? ks with
  | none => by_cases hx : x = ks <;> simp [hx,hg]
  | some set =>
    by_cases hx : x = ks
    · subst hx
      simp [hg,stopEntry]
    · simp only [hx,↓reduceIte]
      exact OrdMap.get?_set_ne hx

/-- A loop over distinct sets, each turn touching only its own set. -/
theorem foldl_get? {f : GiveUpLoop → Text → GiveUpLoop} {g : SetEntry → Option SetEntry}
    (hf : ∀ st ks x, (f st ks).sets.get? x =
      if x = ks then (st.sets.get? x).bind g else st.sets.get? x)
    {keys : List Text} (hn : keys.Nodup) (st : GiveUpLoop) (x : Text) :
    (keys.foldl f st).sets.get? x =
      if x ∈ keys then (st.sets.get? x).bind g else st.sets.get? x := by
  induction keys generalizing st with
  | nil => simp
  | cons k ks ih =>
    obtain ⟨hk,hn⟩ := List.nodup_cons.mp hn
    rw [List.foldl_cons,ih hn,hf]
    by_cases hx : x = k
    · simp [hx,hk]
    · simp [hx]

/-- The hand-overs a loop reports come from the sets as they were before it. -/
theorem foldl_reported {f : GiveUpLoop → Text → GiveUpLoop} {g : SetEntry → Option SetEntry}
    (out : SetEntry → List Redistributed)
    (hf : ∀ st ks x, (f st ks).sets.get? x =
      if x = ks then (st.sets.get? x).bind g else st.sets.get? x)
    (ho : ∀ st ks, (f st ks).redistributed =
      st.redistributed ++ ((st.sets.get? ks).map out).getD [])
    {keys : List Text} (hn : keys.Nodup) (st : GiveUpLoop) {r : Redistributed}
    (hr : r ∈ (keys.foldl f st).redistributed) :
    r ∈ st.redistributed ∨ ∃ ks ∈ keys, ∃ set, st.sets.get? ks = some set ∧ r ∈ out set := by
  induction keys generalizing st with
  | nil => exact Or.inl hr
  | cons k ks ih =>
    obtain ⟨hk,hn⟩ := List.nodup_cons.mp hn
    rcases ih hn (f st k) hr with hr | ⟨x,hx,set,hg,hr⟩
    · rw [ho] at hr
      rcases List.mem_append.mp hr with hr | hr
      · exact Or.inl hr
      · cases hg : st.sets.get? k with
        | none => simp [hg] at hr
        | some set =>
          refine Or.inr ⟨k,List.mem_cons_self,set,hg,?_⟩
          simpa [hg] using hr
    · rw [hf] at hg
      have hne : x ≠ k := fun he => hk (he ▸ hx)
      simp only [hne,↓reduceIte] at hg
      exact Or.inr ⟨x,List.mem_cons_of_mem _ hx,set,hg,hr⟩

/-- The set heirs are chosen from: the leaving pod is out of it, a stopping one
still in it. -/
def heirSet (leaving : Bool) (pc : Text) (set : SetEntry) : SetEntry :=
  if leaving then forgetPod set pc else set

/-- What giving up a pod's slots in some sets does to every view. -/
structure GaveUp (pods : Pods) (stopped : Finset Text) (pc : Text) (leaving : Bool)
    (keys : List Text) (sets sets' : Sets) : Prop where
  other : ∀ ks, ks ∉ keys → sets'.get? ks = sets.get? ks
  member : ∀ ks ∈ keys, ∀ p, memberOf sets' ks p ↔
    memberOf sets ks p ∧ (leaving = true → p ≠ pc)
  holder : ∀ ks ∈ keys, ∀ s, holderOf sets' ks s =
    if holderOf sets ks s = some pc then
      (sets.get? ks).bind (fun set => pickHeir pods stopped (heirSet leaving pc set) s)
    else holderOf sets ks s
  queue : ∀ ks ∈ keys, ∀ s p, p ∈ queueOf sets' ks s →
    p ∈ queueOf sets ks s ∧ (leaving = true → p ≠ pc)

/-- The same on one set, which may be dropped. -/
structure GaveUpEntry (pods : Pods) (stopped : Finset Text) (pc : Text) (leaving : Bool)
    (set : SetEntry) (r : Option SetEntry) : Prop where
  member : ∀ p, (∃ left, r = some left ∧ left.members.contains p = true) ↔
    set.members.contains p = true ∧ (leaving = true → p ≠ pc)
  holder : ∀ s, r.bind (fun left => left.slotHolders.get? s) =
    if set.slotHolders.get? s = some pc then pickHeir pods stopped (heirSet leaving pc set) s
    else set.slotHolders.get? s
  queue : ∀ s p, p ∈ (r.bind (fun left => left.candidateQueue.get? s)).getD [] →
    p ∈ (set.candidateQueue.get? s).getD [] ∧ (leaving = true → p ≠ pc)

theorem leaveEntry_gaveUp (pods : Pods) (stopped : Finset Text) (pc : Text) (set : SetEntry) :
    GaveUpEntry pods stopped pc true set (leaveEntry pods stopped pc set) := by
  have hs := handOver_spec pods stopped pc (forgetPod set pc) (heldSlots set pc)
  unfold leaveEntry
  generalize handOver pods stopped pc (forgetPod set pc) (heldSlots set pc) = r at hs
  have hmem : ∀ p, r.1.members.contains p = true ↔ p ≠ pc ∧ set.members.contains p = true := by
    intro p
    rw [hs.members]
    exact forgetPod_members set pc p
  simp only
  split
  · rename_i hz
    constructor
    · intro p
      have hp := hmem p
      simp only [OrdMap.contains,r.1.members.size_eq_zero.mp hz.1 p,Option.isSome_none,
        Bool.false_eq_true,false_iff,not_and] at hp
      simp only [reduceCtorEq,false_and,exists_false,forall_const,false_iff,not_and]
      exact fun hc hne => hp hne hc
    · intro s
      have hh := r.1.slotHolders.size_eq_zero.mp hz.2 s
      rw [hs.holders] at hh
      simp only [mem_heldSlots,forgetPod_slotHolders] at hh
      simpa [heirSet] using hh.symm
    · intro s p hp
      simp at hp
  · constructor
    · intro p
      simp only [Option.some.injEq,exists_eq_left',hmem]
      simp [and_comm]
    · intro s
      simp [hs.holders,mem_heldSlots,heirSet]
    · intro s p hp
      rw [Option.bind_some,hs.queue] at hp
      obtain ⟨hne,hm⟩ := (mem_forgetPod_queue set pc s p).mp hp
      exact ⟨hm,fun _ => hne⟩

theorem stopEntry_gaveUp (pods : Pods) (stopped : Finset Text) (pc : Text) (set : SetEntry) :
    GaveUpEntry pods stopped pc false set (stopEntry pods stopped pc set) := by
  have hs := handOver_spec pods stopped pc set (heldSlots set pc)
  constructor
  · intro p
    simp [stopEntry,hs.members]
  · intro s
    simp [stopEntry,hs.holders,mem_heldSlots,heirSet]
  · intro s p hp
    rw [stopEntry,Option.bind_some,hs.queue] at hp
    exact ⟨hp,by simp⟩

theorem gaveUp_of_entries {pods : Pods} {stopped : Finset Text} {pc : Text} {leaving : Bool}
    {keys : List Text} {sets sets' : Sets} {g : SetEntry → Option SetEntry}
    (hg : ∀ set, GaveUpEntry pods stopped pc leaving set (g set))
    (hget : ∀ x, sets'.get? x = if x ∈ keys then (sets.get? x).bind g else sets.get? x) :
    GaveUp pods stopped pc leaving keys sets sets' := by
  constructor
  · intro ks hks
    rw [hget,if_neg hks]
  · intro ks hks p
    have hk := hget ks
    rw [if_pos hks] at hk
    cases hs : sets.get? ks with
    | none => simp [memberOf,hk,hs]
    | some set =>
      rw [hs,Option.bind_some] at hk
      rw [memberOf_of_get hs,← (hg set).member p,memberOf,hk]
  · intro ks hks s
    have hk := hget ks
    rw [if_pos hks] at hk
    cases hs : sets.get? ks with
    | none => simp [holderOf,hk,hs]
    | some set =>
      rw [hs,Option.bind_some] at hk
      rw [holderOf_of_get hs,Option.bind_some,← (hg set).holder s,holderOf,hk]
  · intro ks hks s p hp
    have hk := hget ks
    rw [if_pos hks] at hk
    cases hs : sets.get? ks with
    | none => simp [queueOf,hk,hs] at hp
    | some set =>
      rw [hs,Option.bind_some] at hk
      rw [queueOf,hk] at hp
      rw [queueOf_of_get hs]
      exact (hg set).queue s p hp

theorem leave_gaveUp (pods : Pods) (stopped : Finset Text) (pc : Text) (keys : OrdSet Text)
    (st : GiveUpLoop) : GaveUp pods stopped pc true keys.keys st.sets
      (keys.keys.foldl (leaveSet pods stopped pc) st).sets :=
  gaveUp_of_entries (leaveEntry_gaveUp pods stopped pc)
    (foldl_get? (leaveSet_get? pods stopped pc) keys.keys_nodup st)

theorem stop_gaveUp (pods : Pods) (stopped : Finset Text) (pc : Text) (keys : OrdSet Text)
    (st : GiveUpLoop) : GaveUp pods stopped pc false keys.keys st.sets
      (keys.keys.foldl (stopInSet pods stopped pc) st).sets :=
  gaveUp_of_entries (stopEntry_gaveUp pods stopped pc)
    (foldl_get? (stopInSet_get? pods stopped pc) keys.keys_nodup st)

/-- A holder after giving up either held the slot before, and is not the pod
which gave it up, or inherited it from that pod. -/
theorem GaveUp.holder_cases {pods : Pods} {stopped : Finset Text} {pc : Text} {leaving : Bool}
    {keys : List Text} {sets sets' : Sets} (g : GaveUp pods stopped pc leaving keys sets sets')
    {ks s h : Text} (hh : holderOf sets' ks s = some h) :
    (holderOf sets ks s = some h ∧ (ks ∈ keys → h ≠ pc)) ∨
    (ks ∈ keys ∧ holderOf sets ks s = some pc ∧ ∃ set, sets.get? ks = some set ∧
      pickHeir pods stopped (heirSet leaving pc set) s = some h) := by
  by_cases hks : ks ∈ keys
  · rw [g.holder ks hks] at hh
    split at hh
    · rename_i hp
      exact Or.inr ⟨hks,hp,Option.bind_eq_some_iff.mp hh⟩
    · rename_i hp
      refine Or.inl ⟨hh,fun _ he => ?_⟩
      subst he
      exact hp hh
  · rw [(views_congr (g.other ks hks)).2.1 s] at hh
    exact Or.inl ⟨hh,fun hm => absurd hm hks⟩

theorem reported_of_handOver {pods : Pods} {stopped : Finset Text} {pc : Text}
    (set set' : SetEntry) {r : Redistributed} (hs : set'.slotHolders = set.slotHolders)
    (h : r ∈ (handOver pods stopped pc set' (heldSlots set' pc)).2) :
    set.slotHolders.get? r.fqdn = some pc ∧ r.heir = pickHeir pods stopped set' r.fqdn := by
  rw [(handOver_spec pods stopped pc set' _).reported] at h
  obtain ⟨s,hm,rfl⟩ := List.mem_map.mp h
  exact ⟨hs ▸ mem_heldSlots.mp hm,rfl⟩

theorem mem_heirSet {leaving : Bool} {pc p : Text} {set : SetEntry}
    (h : (heirSet leaving pc set).members.contains p = true) :
    set.members.contains p = true ∧ (leaving = true → p ≠ pc) := by
  cases leaving with
  | false => exact ⟨h,by simp⟩
  | true =>
    obtain ⟨hne,hm⟩ := (forgetPod_members set pc p).mp h
    exact ⟨hm,fun _ => hne⟩

theorem mem_heirSet_queue {leaving : Bool} {pc s p : Text} {set : SetEntry}
    (h : p ∈ ((heirSet leaving pc set).candidateQueue.get? s).getD []) :
    p ∈ (set.candidateQueue.get? s).getD [] := by
  cases leaving with
  | false => exact h
  | true => exact ((mem_forgetPod_queue set pc s p).mp h).2

end Flagship.Relay.Proofs

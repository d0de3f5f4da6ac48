import Flagship.Relay.Allocator

namespace Flagship.Relay.Proofs
open Lib Allocator

/-- `pod` is a member of the set kept under `ks`. -/
def memberOf (sets : Sets) (ks pod : Text) : Prop :=
  ∃ set, sets.get? ks = some set ∧ set.members.contains pod = true

/-- Who holds a slot of the set kept under `ks`. -/
def holderOf (sets : Sets) (ks slot : Text) : Option Text :=
  (sets.get? ks).bind (fun set => set.slotHolders.get? slot)

/-- Who waits for a slot of the set kept under `ks`. -/
def queueOf (sets : Sets) (ks slot : Text) : List Text :=
  ((sets.get? ks).bind (fun set => set.candidateQueue.get? slot)).getD []

theorem holderOf_eq_some {sets : Sets} {ks slot h : Text} :
    holderOf sets ks slot = some h ↔
      ∃ set, sets.get? ks = some set ∧ set.slotHolders.get? slot = some h :=
  Option.bind_eq_some_iff

theorem memberOf_of_get {sets : Sets} {ks pod : Text} {set : SetEntry}
    (h : sets.get? ks = some set) : memberOf sets ks pod ↔ set.members.contains pod = true := by
  constructor
  · rintro ⟨s,hs,hm⟩
    rw [h] at hs
    cases hs
    exact hm
  · exact fun hm => ⟨set,h,hm⟩

theorem holderOf_of_get {sets : Sets} {ks slot : Text} {set : SetEntry}
    (h : sets.get? ks = some set) : holderOf sets ks slot = set.slotHolders.get? slot := by
  simp [holderOf,h]

theorem queueOf_of_get {sets : Sets} {ks slot : Text} {set : SetEntry}
    (h : sets.get? ks = some set) :
    queueOf sets ks slot = (set.candidateQueue.get? slot).getD [] := by
  simp [queueOf,h]

/-- The views of a set which was not touched. -/
theorem views_congr {sets sets' : Sets} {ks : Text} (h : sets'.get? ks = sets.get? ks) :
    (∀ p, memberOf sets' ks p ↔ memberOf sets ks p) ∧
    (∀ s, holderOf sets' ks s = holderOf sets ks s) ∧
    (∀ s, queueOf sets' ks s = queueOf sets ks s) := by
  simp [memberOf,holderOf,queueOf,h]

theorem new_views (key : SetKey) (p s : Text) :
    (SetEntry.new key).members.contains p = false ∧
    (SetEntry.new key).slotHolders.get? s = none ∧
    (SetEntry.new key).candidateQueue.get? s = none := ⟨rfl,rfl,rfl⟩

/-- Reading through `setEntry` sees an absent set as an empty one. -/
theorem setEntry_views (sets : Sets) (key : SetKey) :
    (∀ p, (setEntry sets key).members.contains p = true ↔ memberOf sets key.encode p) ∧
    (∀ s, (setEntry sets key).slotHolders.get? s = holderOf sets key.encode s) ∧
    (∀ s, ((setEntry sets key).candidateQueue.get? s).getD [] = queueOf sets key.encode s) := by
  unfold setEntry
  cases h : sets.get? key.encode with
  | none =>
    simp only [Option.getD_none]
    refine ⟨fun p => ?_,fun s => ?_,fun s => ?_⟩
    · simp [memberOf,h,(new_views key p p).1]
    · simp [holderOf,h,(new_views key s s).2.1]
    · simp [queueOf,h,(new_views key s s).2.2]
  | some set =>
    simp only [Option.getD_some]
    exact ⟨fun p => (memberOf_of_get h).symm,fun s => (holderOf_of_get h).symm,
      fun s => (queueOf_of_get h).symm⟩

theorem joinMembers_members (set : SetEntry) (pod name p : Text) :
    (joinMembers set pod name).members.contains p = true ↔
      p = pod ∨ set.members.contains p = true := by
  unfold joinMembers
  split
  · rename_i h
    constructor
    · exact Or.inr
    · rintro (rfl | hp)
      · exact h
      · exact hp
  · exact set.members.contains_set pod p name

@[simp] theorem joinMembers_slotHolders (set : SetEntry) (pod name : Text) :
    (joinMembers set pod name).slotHolders = set.slotHolders := by
  unfold joinMembers
  split <;> rfl

@[simp] theorem joinMembers_candidateQueue (set : SetEntry) (pod name : Text) :
    (joinMembers set pod name).candidateQueue = set.candidateQueue := by
  unfold joinMembers
  split <;> rfl

@[simp] theorem enqueue_members (set : SetEntry) (slot pod : Text) :
    (enqueue set slot pod).members = set.members := rfl

@[simp] theorem enqueue_slotHolders (set : SetEntry) (slot pod : Text) :
    (enqueue set slot pod).slotHolders = set.slotHolders := rfl

theorem mem_enqueue (set : SetEntry) (slot pod s p : Text) :
    p ∈ ((enqueue set slot pod).candidateQueue.get? s).getD [] ↔
      p ∈ (set.candidateQueue.get? s).getD [] ∨ s = slot ∧ p = pod := by
  simp only [enqueue,OrdMap.get?_set]
  by_cases hs : s = slot
  · subst hs
    simp only [↓reduceIte,Option.getD_some,true_and]
    split
    · rename_i hp
      constructor
      · exact Or.inl
      · rintro (h | rfl)
        · exact h
        · exact hp
    · simp
  · simp [hs]

section
variable [Lowercase]

/-- The set a name belongs to, by its encoded key. -/
def setKeyOf (apex name : Text) : Option Text := (parseSetKey name apex).map SetKey.encode

/-- What joining under one name does to every view. -/
structure Joined (apex pc : Text) (claim : Text → Bool) (names : List Text)
    (st st' : AddLoop) : Prop where
  member : ∀ ks p, memberOf st'.sets ks p ↔
    memberOf st.sets ks p ∨ p = pc ∧ ∃ n ∈ names, setKeyOf apex n = some ks
  queue : ∀ ks s p, p ∈ queueOf st'.sets ks s ↔
    p ∈ queueOf st.sets ks s ∨ p = pc ∧ s ∈ names ∧ setKeyOf apex s = some ks
  keeps : ∀ ks s h, holderOf st.sets ks s = some h → holderOf st'.sets ks s = some h
  claims : ∀ ks s h, holderOf st'.sets ks s = some h → holderOf st.sets ks s = some h ∨
    h = pc ∧ claim s = true ∧ s ∈ names ∧ setKeyOf apex s = some ks
  keys : ∀ ks, ks ∈ st'.setKeys.keys ↔
    ks ∈ st.setKeys.keys ∨ ∃ n ∈ names, setKeyOf apex n = some ks

theorem joinSet_joined (apex pc : Text) (claim : Text → Bool) (st : AddLoop) (name : Text) :
    Joined apex pc claim [name] st (joinSet apex pc claim st name) := by
  unfold joinSet
  cases hk : parseSetKey name apex with
  | none =>
    have hn : setKeyOf apex name = none := by simp [setKeyOf,hk]
    constructor
    · simp [hn]
    · intro ks s p
      constructor
      · exact Or.inl
      · rintro (h | ⟨_,hs,he⟩)
        · exact h
        · rw [List.mem_singleton.mp hs,hn] at he
          cases he
    · exact fun _ _ _ h => h
    · exact fun _ _ _ h => Or.inl h
    · simp [hn]
  | some key =>
    have hn : setKeyOf apex name = some key.encode := by simp [setKeyOf,hk]
    obtain ⟨hmem,hhold,hqueue⟩ := setEntry_views st.sets key
    simp only
    -- every view of another set is untouched, so only the joined set is looked at below
    have hother : ∀ (set : SetEntry) ks, ks ≠ key.encode →
        (st.sets.set key.encode set).get? ks = st.sets.get? ks :=
      fun set ks h => OrdMap.get?_set_ne h
    constructor
    · intro ks p
      by_cases he : ks = key.encode
      · subst he
        rw [memberOf_of_get (OrdMap.get?_set_self _ _ _)]
        simp only [List.mem_singleton,exists_eq_left,hn,and_true]
        have hjoin : ∀ b : Bool, ∀ set : SetEntry, (if b then { set with
            slotHolders := set.slotHolders.set name pc } else set).members = set.members := by
          intro b set; cases b <;> rfl
        rw [hjoin,enqueue_members,joinMembers_members,hmem p]
        exact or_comm
      · rw [(views_congr (hother _ ks he)).1 p]
        simp [hn,Ne.symm he]
    · intro ks s p
      by_cases he : ks = key.encode
      · subst he
        rw [queueOf_of_get (OrdMap.get?_set_self _ _ _)]
        have hjoin : ∀ b : Bool, ∀ set : SetEntry, (if b then { set with
            slotHolders := set.slotHolders.set name pc } else set).candidateQueue =
            set.candidateQueue := by
          intro b set; cases b <;> rfl
        rw [hjoin,mem_enqueue,joinMembers_candidateQueue,hqueue s]
        constructor
        · rintro (h | ⟨rfl,rfl⟩)
          · exact Or.inl h
          · exact Or.inr ⟨rfl,by simp,hn⟩
        · rintro (h | ⟨rfl,hs,_⟩)
          · exact Or.inl h
          · exact Or.inr ⟨List.mem_singleton.mp hs,rfl⟩
      · rw [(views_congr (hother _ ks he)).2.2 s]
        constructor
        · exact Or.inl
        · rintro (h | ⟨_,hs,hse⟩)
          · exact h
          · rw [List.mem_singleton.mp hs,hn] at hse
            exact absurd (Option.some.inj hse).symm he
    · intro ks s h hh
      by_cases he : ks = key.encode
      · subst he
        rw [holderOf_of_get (OrdMap.get?_set_self _ _ _)]
        split
        · rename_i hc
          simp only [enqueue_slotHolders,joinMembers_slotHolders,OrdMap.get?_set]
          split
          · rename_i hs
            subst hs
            simp [OrdMap.contains,hhold,hh] at hc
          · rw [hhold,hh]
        · simp only [enqueue_slotHolders,joinMembers_slotHolders,hhold,hh]
      · rw [(views_congr (hother _ ks he)).2.1 s]
        exact hh
    · intro ks s h hh
      by_cases he : ks = key.encode
      · subst he
        rw [holderOf_of_get (OrdMap.get?_set_self _ _ _)] at hh
        split at hh
        · rename_i hc
          simp only [enqueue_slotHolders,joinMembers_slotHolders,OrdMap.get?_set] at hh
          split at hh
          · rename_i hs
            subst hs
            simp only [Bool.and_eq_true] at hc
            exact Or.inr ⟨(Option.some.inj hh).symm,hc.1,by simp,hn⟩
          · exact Or.inl (hhold s ▸ hh)
        · simp only [enqueue_slotHolders,joinMembers_slotHolders,hhold] at hh
          exact Or.inl hh
      · rw [(views_congr (hother _ ks he)).2.1 s] at hh
        exact Or.inl hh
    · intro ks
      simp only [OrdMap.mem_keys_push,List.mem_singleton,exists_eq_left,hn,Option.some.injEq]
      constructor
      · rintro (rfl | h)
        · exact Or.inr rfl
        · exact Or.inl h
      · rintro (h | rfl)
        · exact Or.inr h
        · exact Or.inl rfl

theorem Joined.refl (apex pc : Text) (claim : Text → Bool) (st : AddLoop) :
    Joined apex pc claim [] st st := by
  constructor <;> simp

/-- Two stretches of names, possibly under different claim rules. -/
theorem Joined.trans {apex pc : Text} {claim claim' both : Text → Bool} {ns ms : List Text}
    {st st' st'' : AddLoop} (h : Joined apex pc claim ns st st')
    (h' : Joined apex pc claim' ms st' st'') (hc : ∀ s ∈ ns, claim s = true → both s = true)
    (hc' : ∀ s ∈ ms, claim' s = true → both s = true) :
    Joined apex pc both (ns ++ ms) st st'' := by
  constructor
  · intro ks p
    rw [h'.member,h.member]
    simp only [List.mem_append,or_and_right,exists_or,and_or_left,or_assoc]
  · intro ks s p
    rw [h'.queue,h.queue]
    simp only [List.mem_append]
    tauto
  · exact fun ks s hd hh => h'.keeps ks s hd (h.keeps ks s hd hh)
  · intro ks s hd hh
    rcases h'.claims ks s hd hh with hh | ⟨rfl,hcl,hm,hk⟩
    · rcases h.claims ks s hd hh with hh | ⟨rfl,hcl,hm,hk⟩
      · exact Or.inl hh
      · exact Or.inr ⟨rfl,hc s hm hcl,List.mem_append_left _ hm,hk⟩
    · exact Or.inr ⟨rfl,hc' s hm hcl,List.mem_append_right _ hm,hk⟩
  · intro ks
    rw [h'.keys,h.keys]
    simp only [List.mem_append,or_and_right,exists_or,or_assoc]

theorem foldl_joinSet_joined (apex pc : Text) (claim : Text → Bool) (names : List Text)
    (st : AddLoop) : Joined apex pc claim names st (names.foldl (joinSet apex pc claim) st) := by
  induction names generalizing st with
  | nil => exact Joined.refl apex pc claim st
  | cons n ns ih =>
    exact (joinSet_joined apex pc claim st n).trans (ih _) (fun _ _ h => h) (fun _ _ h => h)

end
end Flagship.Relay.Proofs

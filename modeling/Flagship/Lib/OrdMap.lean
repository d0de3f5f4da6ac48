import Mathlib.Algebra.Order.Ring.Nat
import Mathlib.Data.List.Nodup

namespace Flagship.Lib

/-- A map which remembers the order its keys were first set in. Overwriting a
key keeps its place; every key occurs once. -/
structure OrdMap (κ ν : Type) where
  entries : List (κ × ν)
  nodup : (entries.map Prod.fst).Nodup
  deriving DecidableEq

namespace OrdMap
variable {κ ν : Type}

def keys (m : OrdMap κ ν) : List κ := m.entries.map Prod.fst

theorem keys_nodup (m : OrdMap κ ν) : m.keys.Nodup := m.nodup

def size (m : OrdMap κ ν) : Nat := m.entries.length

def empty : OrdMap κ ν := ⟨[],by simp⟩

instance : EmptyCollection (OrdMap κ ν) := ⟨empty⟩

instance : Inhabited (OrdMap κ ν) := ⟨empty⟩

/-- The same map with its pairs in the order of their keys. -/
def sorted [LE κ] [DecidableLE κ] (m : OrdMap κ ν) : OrdMap κ ν where
  entries := m.entries.mergeSort fun a b => decide (a.1 ≤ b.1)
  nodup := ((List.mergeSort_perm _ _).map Prod.fst).nodup_iff.mpr m.nodup

theorem entries_sorted [LE κ] [DecidableLE κ] (m : OrdMap κ ν) :
    m.sorted.entries.Perm m.entries :=
  List.mergeSort_perm _ _

variable [DecidableEq κ]

def get? (m : OrdMap κ ν) (k : κ) : Option ν := m.entries.lookup k

def contains (m : OrdMap κ ν) (k : κ) : Bool := (m.get? k).isSome

/-- Replace the value of `k` in place, or append a new pair. -/
def setList (k : κ) (v : ν) : List (κ × ν) → List (κ × ν)
  | [] => [(k,v)]
  | e :: es => if e.1 = k then (k,v) :: es else e :: setList k v es

theorem mem_keys_setList {k x : κ} {v : ν} {es : List (κ × ν)} :
    x ∈ (setList k v es).map Prod.fst ↔ x = k ∨ x ∈ es.map Prod.fst := by
  induction es with
  | nil => simp [setList]
  | cons e es ih =>
    by_cases he : e.1 = k
    · simp [setList,he]
    · simp only [setList,he,↓reduceIte,List.map_cons,List.mem_cons,ih]
      exact ⟨fun h => by rcases h with h | h | h <;> simp [h],
        fun h => by rcases h with h | h | h <;> simp [h]⟩

theorem setList_nodup {k : κ} {v : ν} {es : List (κ × ν)}
    (h : (es.map Prod.fst).Nodup) : ((setList k v es).map Prod.fst).Nodup := by
  induction es with
  | nil => simp [setList]
  | cons e es ih =>
    obtain ⟨hn,ht⟩ := List.nodup_cons.mp h
    by_cases he : e.1 = k
    · simpa [setList,he] using h
    · simp only [setList,he,↓reduceIte,List.map_cons,List.nodup_cons]
      refine ⟨?_,ih ht⟩
      intro hm
      rcases mem_keys_setList.mp hm with hk | hm
      · exact he hk
      · exact hn hm

def set (m : OrdMap κ ν) (k : κ) (v : ν) : OrdMap κ ν :=
  ⟨setList k v m.entries,setList_nodup m.nodup⟩

/-- Keep the pairs `f` answers, with the value it answers. -/
def filterMapVals (m : OrdMap κ ν) (f : κ → ν → Option ν) : OrdMap κ ν where
  entries := m.entries.filterMap (fun e => (f e.1 e.2).map (fun v => (e.1,v)))
  nodup := by
    refine List.Nodup.sublist ?_ m.nodup
    induction m.entries with
    | nil => simp
    | cons e es ih =>
      cases hf : f e.1 e.2 with
      | none => simpa [hf] using ih.cons e.1
      | some v => simpa [hf] using ih.cons_cons e.1

def erase (m : OrdMap κ ν) (k : κ) : OrdMap κ ν :=
  m.filterMapVals (fun x v => if x = k then none else some v)

@[simp] theorem get?_empty (k : κ) : (∅ : OrdMap κ ν).get? k = none := rfl

@[simp] theorem contains_empty (k : κ) : (∅ : OrdMap κ ν).contains k = false := rfl

theorem lookup_setList (k x : κ) (v : ν) (es : List (κ × ν)) :
    (setList k v es).lookup x = if x = k then some v else es.lookup x := by
  induction es with
  | nil =>
    by_cases hx : x = k
    · simp [setList,hx]
    · have hb : (x == k) = false := by simpa using hx
      simp [setList,List.lookup_cons,hx,hb]
  | cons e es ih =>
    obtain ⟨a,b⟩ := e
    by_cases ha : a = k
    · subst ha
      by_cases hx : x = a
      · simp [setList,hx]
      · have hb : (x == a) = false := by simpa using hx
        simp [setList,List.lookup_cons,hx,hb]
    · simp only [setList,ha,↓reduceIte,List.lookup_cons,ih]
      by_cases hx : x = a
      · have hk : ¬ x = k := fun h => ha (hx ▸ h)
        simp [hx,ha]
      · have hb : (x == a) = false := by simpa using hx
        simp [hb]

theorem get?_set (m : OrdMap κ ν) (k x : κ) (v : ν) :
    (m.set k v).get? x = if x = k then some v else m.get? x :=
  lookup_setList k x v m.entries

@[simp] theorem get?_set_self (m : OrdMap κ ν) (k : κ) (v : ν) :
    (m.set k v).get? k = some v := by simp [get?_set]

theorem get?_set_ne {m : OrdMap κ ν} {k x : κ} {v : ν} (h : x ≠ k) :
    (m.set k v).get? x = m.get? x := by simp [get?_set,h]

/-- Only what a key was set to last counts. -/
theorem set_set (m : OrdMap κ ν) (k : κ) (v w : ν) : (m.set k v).set k w = m.set k w := by
  have hlist : ∀ es : List (κ × ν),setList k w (setList k v es) = setList k w es := by
    intro es
    induction es with
    | nil => simp [setList]
    | cons e es ih =>
      by_cases he : e.1 = k
      · simp [setList,he]
      · simp [setList,he,ih]
  simp only [set,hlist]

/-- Setting a key to the value it has changes nothing. -/
theorem set_of_get? {m : OrdMap κ ν} {k : κ} {v : ν} (h : m.get? k = some v) : m.set k v = m := by
  obtain ⟨es,hn⟩ := m
  have hlist : setList k v es = es := by
    replace h : es.lookup k = some v := h
    clear hn
    induction es with
    | nil => cases h
    | cons e es ih =>
      obtain ⟨a,b⟩ := e
      by_cases ha : a = k
      · subst ha
        simp only [List.lookup_cons_self,Option.some.injEq] at h
        simp [setList,h]
      · have hb : (k == a) = false := by simpa using Ne.symm ha
        rw [List.lookup_cons,hb] at h
        simp [setList,ha,ih h]
  simp only [set,hlist]

theorem setList_of_not_mem {k : κ} {v : ν} {es : List (κ × ν)} (h : k ∉ es.map Prod.fst) :
    setList k v es = es ++ [(k,v)] := by
  induction es with
  | nil => rfl
  | cons e es ih =>
    simp only [List.map_cons,List.mem_cons,not_or] at h
    simp only [setList,Ne.symm h.1,↓reduceIte,ih h.2,List.cons_append]

theorem setList_of_mem {k : κ} {v : ν} {es : List (κ × ν)} (hn : (es.map Prod.fst).Nodup)
    (h : k ∈ es.map Prod.fst) :
    setList k v es = es.map fun e => if e.1 = k then (k,v) else e := by
  induction es with
  | nil => cases h
  | cons e es ih =>
    obtain ⟨hnot,hes⟩ := List.nodup_cons.mp hn
    by_cases he : e.1 = k
    · have hrest : es.map (fun e => if e.1 = k then (k,v) else e) = es := by
        refine (List.map_congr_left ?_).trans (List.map_id es)
        intro a ha
        have hne : a.1 ≠ k := fun hk => hnot (he ▸ hk ▸ List.mem_map_of_mem ha)
        simp [hne]
      simp [setList,he,hrest]
    · have hmem : k ∈ es.map Prod.fst := by
        rcases List.mem_cons.mp h with hk | hk
        · exact absurd hk.symm he
        · exact hk
      simp [setList,he,ih hes hmem]

/-- With unique keys, membership in the pair list is exactly a lookup. -/
theorem mem_entries (m : OrdMap κ ν) {k : κ} {v : ν} :
    (k,v) ∈ m.entries ↔ m.get? k = some v := by
  obtain ⟨es,hn⟩ := m
  simp only [get?]
  induction es with
  | nil => simp
  | cons e es ih =>
    obtain ⟨a,b⟩ := e
    simp only [List.map_cons,List.nodup_cons] at hn
    simp only [List.mem_cons,Prod.mk.injEq,List.lookup_cons]
    by_cases hk : k = a
    · subst hk
      have hnot : (k,v) ∉ es := fun hm => hn.1 (List.mem_map.mpr ⟨(k,v),hm,rfl⟩)
      simp [hnot,eq_comm]
    · have hb : (k == a) = false := by simpa using hk
      simp [hk,hb,ih hn.2]

theorem mem_keys (m : OrdMap κ ν) {k : κ} : k ∈ m.keys ↔ ∃ v, m.get? k = some v := by
  constructor
  · intro h
    obtain ⟨⟨a,v⟩,hm,rfl⟩ := List.mem_map.mp h
    exact ⟨v,m.mem_entries.mp hm⟩
  · rintro ⟨v,h⟩
    exact List.mem_map.mpr ⟨(k,v),m.mem_entries.mpr h,rfl⟩

theorem contains_iff (m : OrdMap κ ν) {k : κ} : m.contains k = true ↔ ∃ v, m.get? k = some v :=
  Option.isSome_iff_exists

theorem contains_iff_mem (m : OrdMap κ ν) {k : κ} : m.contains k = true ↔ k ∈ m.keys :=
  m.contains_iff.trans m.mem_keys.symm

/-- A new key comes last. -/
theorem entries_set_of_none {m : OrdMap κ ν} {k : κ} (v : ν) (h : m.get? k = none) :
    (m.set k v).entries = m.entries ++ [(k,v)] := by
  apply setList_of_not_mem
  intro hmem
  obtain ⟨w,hw⟩ := m.mem_keys.mp hmem
  rw [h] at hw
  cases hw

/-- A key that is there keeps its place. -/
theorem entries_set_of_some {m : OrdMap κ ν} {k : κ} (v : ν) {w : ν} (h : m.get? k = some w) :
    (m.set k v).entries = m.entries.map fun e => if e.1 = k then (k,v) else e :=
  setList_of_mem m.nodup (m.mem_keys.mpr ⟨w,h⟩)

theorem contains_set (m : OrdMap κ ν) (k x : κ) (v : ν) :
    (m.set k v).contains x = true ↔ x = k ∨ m.contains x = true := by
  by_cases h : x = k <;> simp [contains,get?_set,h]

theorem get?_filterMapVals (m : OrdMap κ ν) (f : κ → ν → Option ν) (k : κ) :
    (m.filterMapVals f).get? k = (m.get? k).bind (f k) := by
  apply Option.ext
  intro v
  rw [← mem_entries]
  constructor
  · intro h
    obtain ⟨⟨a,b⟩,hm,he⟩ := List.mem_filterMap.mp h
    obtain ⟨w,hw,hp⟩ := Option.map_eq_some_iff.mp he
    simp only [Prod.mk.injEq] at hp
    obtain ⟨rfl,rfl⟩ := hp
    rw [m.mem_entries.mp hm]
    exact hw
  · intro h
    obtain ⟨b,hb,hf⟩ := Option.bind_eq_some_iff.mp h
    exact List.mem_filterMap.mpr ⟨(k,b),m.mem_entries.mpr hb,by simp [hf]⟩

theorem get?_erase (m : OrdMap κ ν) (k x : κ) :
    (m.erase k).get? x = if x = k then none else m.get? x := by
  rw [erase,get?_filterMapVals]
  by_cases h : x = k <;> cases m.get? x <;> simp [h]

@[simp] theorem get?_erase_self (m : OrdMap κ ν) (k : κ) : (m.erase k).get? k = none := by
  simp [get?_erase]

theorem get?_erase_ne {m : OrdMap κ ν} {k x : κ} (h : x ≠ k) :
    (m.erase k).get? x = m.get? x := by simp [get?_erase,h]

theorem size_eq_zero (m : OrdMap κ ν) : m.size = 0 ↔ ∀ k, m.get? k = none := by
  constructor
  · intro h k
    have he : m.entries = [] := List.length_eq_zero_iff.mp h
    simp [get?,he]
  · intro h
    apply List.length_eq_zero_iff.mpr
    apply List.eq_nil_iff_forall_not_mem.mpr
    rintro ⟨k,v⟩ hm
    have hk := m.mem_entries.mp hm
    rw [h k] at hk
    cases hk

/-- An element of some value's list is one found under its key. -/
theorem mem_flatMap_entries {α : Type} {m : OrdMap κ (List α)} {x : α} :
    x ∈ m.entries.flatMap (fun e => e.2) ↔ ∃ k, x ∈ (m.get? k).getD [] := by
  rw [List.mem_flatMap]
  constructor
  · rintro ⟨⟨k,list⟩,he,hx⟩
    refine ⟨k,?_⟩
    rw [m.mem_entries.mp he]
    exact hx
  · rintro ⟨k,hx⟩
    cases hg : m.get? k with
    | none =>
      rw [hg] at hx
      cases hx
    | some list =>
      rw [hg] at hx
      exact ⟨(k,list),m.mem_entries.mpr hg,hx⟩

theorem get?_foldl_erase (ks : List κ) (m : OrdMap κ ν) (x : κ) :
    (ks.foldl erase m).get? x = if x ∈ ks then none else m.get? x := by
  induction ks generalizing m with
  | nil => simp
  | cons k ks ih =>
    rw [List.foldl_cons,ih,get?_erase]
    by_cases hx : x ∈ ks
    · simp [hx]
    · by_cases hk : x = k <;> simp [hx,hk]

/-- The weights of all values together. -/
def total (w : ν → Nat) (m : OrdMap κ ν) : Nat := (m.entries.map (fun e => w e.2)).sum

theorem sum_setList {w : ν → Nat} {k : κ} {v : ν} {es : List (κ × ν)}
    (h : (es.map Prod.fst).Nodup) :
    ((setList k v es).map (fun e => w e.2)).sum + ((es.lookup k).map w).getD 0 =
      (es.map (fun e => w e.2)).sum + w v := by
  induction es with
  | nil => simp [setList]
  | cons e es ih =>
    obtain ⟨a,b⟩ := e
    obtain ⟨_,ht⟩ := List.nodup_cons.mp h
    by_cases ha : a = k
    · subst ha
      simp [setList]
      omega
    · have hb : (k == a) = false := by simpa using Ne.symm ha
      have hsum := ih ht
      simp only [setList,ha,↓reduceIte,List.map_cons,List.sum_cons,List.lookup_cons,hb]
      omega

theorem total_set (w : ν → Nat) (m : OrdMap κ ν) (k : κ) (v : ν) :
    (m.set k v).total w + ((m.get? k).map w).getD 0 = m.total w + w v := sum_setList m.nodup

theorem total_erase (w : ν → Nat) (m : OrdMap κ ν) (k : κ) :
    (m.erase k).total w + ((m.get? k).map w).getD 0 = m.total w := by
  obtain ⟨es,hn⟩ := m
  simp only [total,erase,filterMapVals,get?]
  induction es with
  | nil => simp
  | cons e es ih =>
    obtain ⟨a,b⟩ := e
    obtain ⟨hnot,ht⟩ := List.nodup_cons.mp hn
    have hsum := ih ht
    by_cases ha : a = k
    · subst ha
      have hnone : es.lookup a = none := by
        rw [List.lookup_eq_none_iff]
        intro p hp
        rw [bne_iff_ne]
        intro he
        exact hnot (List.mem_map.mpr ⟨p,hp,he.symm⟩)
      simp only [hnone] at hsum
      simp
      simpa [Nat.add_comm] using hsum
    · have hb : (k == a) = false := by simpa using Ne.symm ha
      simp only [List.filterMap_cons,ha,↓reduceIte,Option.map_some,List.map_cons,List.sum_cons,
        List.lookup_cons,hb]
      omega

section
variable {ν' : Type} {R : ν → ν' → Prop}

/-- Two maps with the same keys, and related values under each of them. -/
def Alike (R : ν → ν' → Prop) (m : OrdMap κ ν) (m' : OrdMap κ ν') : Prop :=
  ∀ k, Option.Rel R (m.get? k) (m'.get? k)

theorem alike_empty : Alike R (∅ : OrdMap κ ν) ∅ := fun _ => .none

theorem Alike.set {m : OrdMap κ ν} {m' : OrdMap κ ν'} (h : Alike R m m') (k : κ) {v : ν} {v' : ν'}
    (hv : R v v') : Alike R (m.set k v) (m'.set k v') := by
  intro x
  rw [get?_set,get?_set]
  by_cases hx : x = k
  · rw [if_pos hx,if_pos hx]
    exact .some hv
  · rw [if_neg hx,if_neg hx]
    exact h x

theorem Alike.erase {m : OrdMap κ ν} {m' : OrdMap κ ν'} (h : Alike R m m') (k : κ) :
    Alike R (m.erase k) (m'.erase k) := by
  intro x
  rw [get?_erase,get?_erase]
  by_cases hx : x = k
  · rw [if_pos hx,if_pos hx]
    exact .none
  · rw [if_neg hx,if_neg hx]
    exact h x

theorem Alike.contains_eq {m : OrdMap κ ν} {m' : OrdMap κ ν'} (h : Alike R m m') (k : κ) :
    m.contains k = m'.contains k := by
  unfold contains
  generalize hm : m.get? k = v
  generalize hm' : m'.get? k = v'
  have hk := h k
  rw [hm,hm'] at hk
  cases hk <;> rfl

end

section
variable {α ν' : Type}

/-- The pairs `f` answers, as a map; of two with one key the later stays. -/
def collect (f : κ → α → Option ν) (es : List (κ × α)) : OrdMap κ ν :=
  es.foldl (fun m e => match f e.1 e.2 with
    | some v => m.set e.1 v
    | none => m) ∅

theorem get?_collect (f : κ → α → Option ν) {es : List (κ × α)} (h : (es.map Prod.fst).Nodup)
    (k : κ) : (collect f es).get? k = (es.lookup k).bind (f k) := by
  have hfold : ∀ m : OrdMap κ ν,(es.foldl (fun m e => match f e.1 e.2 with
      | some v => m.set e.1 v
      | none => m) m).get? k = ((es.lookup k).bind (f k)).or (m.get? k) := by
    induction es with
    | nil => simp
    | cons e es ih =>
      obtain ⟨a,b⟩ := e
      obtain ⟨hnot,hrest⟩ := List.nodup_cons.mp h
      intro m
      rw [List.foldl_cons,ih hrest]
      by_cases hk : k = a
      · subst hk
        have hnone : es.lookup k = none := by
          rw [List.lookup_eq_none_iff]
          intro p hp
          rw [bne_iff_ne]
          rintro rfl
          exact hnot (List.mem_map.mpr ⟨p,hp,rfl⟩)
        cases hf : f k b <;> simp [hnone,hf]
      · have hb : (k == a) = false := by simpa using hk
        cases f a b <;> simp [List.lookup_cons,hb,get?_set_ne hk]
  rw [collect,hfold]
  simp

theorem alike_collect {R : ν → ν' → Prop} {f : κ → α → Option ν} {g : κ → α → Option ν'}
    (h : ∀ k a,Option.Rel R (f k a) (g k a)) (es : List (κ × α)) :
    Alike R (collect f es) (collect g es) := by
  have hfold : ∀ (m : OrdMap κ ν) (m' : OrdMap κ ν'),Alike R m m' →
      Alike R (es.foldl (fun m e => match f e.1 e.2 with
        | some v => m.set e.1 v
        | none => m) m) (es.foldl (fun m e => match g e.1 e.2 with
        | some v => m.set e.1 v
        | none => m) m') := by
    induction es with
    | nil => exact fun _ _ hm => hm
    | cons e es ih =>
      intro m m' hm
      simp only [List.foldl_cons]
      apply ih
      have he := h e.1 e.2
      revert he
      cases f e.1 e.2 <;> cases g e.1 e.2 <;> intro he <;> cases he
      · exact hm
      · rename_i hv
        exact hm.set e.1 hv
  exact hfold ∅ ∅ alike_empty

end

/-- Add a key to a map without values: an insertion-ordered set. -/
def push (s : OrdMap κ Unit) (k : κ) : OrdMap κ Unit := s.set k ()

theorem mem_keys_push (s : OrdMap κ Unit) {k x : κ} :
    x ∈ (s.push k).keys ↔ x = k ∨ x ∈ s.keys :=
  mem_keys_setList

theorem mem_keys_foldl_push (ks : List κ) (s : OrdMap κ Unit) {x : κ} :
    x ∈ (ks.foldl push s).keys ↔ x ∈ ks ∨ x ∈ s.keys := by
  induction ks generalizing s with
  | nil => simp
  | cons k ks ih =>
    simp only [List.foldl_cons,ih,mem_keys_push,List.mem_cons]
    exact ⟨fun h => by rcases h with h | h | h <;> simp [h],
      fun h => by rcases h with (h | h) | h <;> simp [h]⟩

end OrdMap

abbrev OrdSet (κ : Type) := OrdMap κ Unit

end Flagship.Lib

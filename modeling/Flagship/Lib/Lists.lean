import Mathlib.Algebra.BigOperators.Group.List.Basic
import Mathlib.Algebra.Order.Ring.Nat
import Mathlib.Data.List.Nodup

namespace Flagship.Lib

/-- Replace the first element a test accepts. -/
def replaceFirst {α : Type} (p : α → Bool) (v : α) : List α → List α
  | [] => []
  | x :: xs => if p x then v :: xs else x :: replaceFirst p v xs

/-- The greatest element, the last one among equals. -/
def maxBy {α : Type} (cmp : α → α → Ordering) : List α → Option α
  | [] => none
  | x :: xs => some (xs.foldl (fun best y => if cmp best y = .gt then best else y) x)

/-- The element with the least key, the first one among equals. -/
def minByKey {α : Type} (key : α → Nat) : List α → Option α
  | [] => none
  | x :: xs => some (xs.foldl (fun best y => if key y < key best then y else best) x)

/-- With distinct keys, looking a key up is membership. -/
theorem find?_key {α κ : Type} [DecidableEq κ] {key : α → κ} {l : List α}
    (hn : (l.map key).Nodup) {k : κ} {a : α} :
    l.find? (fun x => decide (key x = k)) = some a ↔ a ∈ l ∧ key a = k := by
  induction l with
  | nil => simp
  | cons b l ih =>
    obtain ⟨hb,hn⟩ := List.nodup_cons.mp hn
    rw [List.find?_cons]
    by_cases hk : key b = k
    · simp only [hk,decide_true,Option.some.injEq,List.mem_cons]
      constructor
      · rintro rfl
        exact ⟨Or.inl rfl,hk⟩
      · rintro ⟨rfl | ha,he⟩
        · rfl
        · exact absurd (List.mem_map.mpr ⟨a,ha,he.trans hk.symm⟩) hb
    · simp only [hk,decide_false,List.mem_cons,ih hn]
      constructor
      · exact fun h => ⟨Or.inr h.1,h.2⟩
      · rintro ⟨rfl | ha,he⟩
        · exact absurd he hk
        · exact ⟨ha,he⟩

theorem find?_key_none {α κ : Type} [DecidableEq κ] {key : α → κ} {l : List α} {k : κ} :
    l.find? (fun x => decide (key x = k)) = none ↔ ∀ a ∈ l, key a ≠ k := by
  simp [List.find?_eq_none]

theorem map_replaceFirst {α κ : Type} [DecidableEq κ] (key : α → κ) {k : κ} {v : α}
    (hv : key v = k) (l : List α) :
    (replaceFirst (fun x => decide (key x = k)) v l).map key = l.map key := by
  induction l with
  | nil => rfl
  | cons b l ih =>
    simp only [replaceFirst]
    by_cases hb : key b = k
    · simp [hb,hv]
    · simp [hb,ih]

theorem mem_replaceFirst {α κ : Type} [DecidableEq κ] (key : α → κ) {k : κ} {v : α} {l : List α}
    (hn : (l.map key).Nodup) (hk : k ∈ l.map key) {a : α} :
    a ∈ replaceFirst (fun x => decide (key x = k)) v l ↔ a = v ∨ a ∈ l ∧ key a ≠ k := by
  induction l with
  | nil => simp at hk
  | cons b l ih =>
    obtain ⟨hb,hn⟩ := List.nodup_cons.mp hn
    simp only [replaceFirst]
    by_cases hbk : key b = k
    · simp only [hbk,decide_true,↓reduceIte,List.mem_cons]
      constructor
      · rintro (rfl | ha)
        · exact Or.inl rfl
        · refine Or.inr ⟨Or.inr ha,fun he => hb ?_⟩
          exact List.mem_map.mpr ⟨a,ha,he.trans hbk.symm⟩
      · rintro (rfl | ⟨rfl | ha,he⟩)
        · exact Or.inl rfl
        · exact absurd hbk he
        · exact Or.inr ha
    · have hk' : k ∈ l.map key := by
        rcases List.mem_cons.mp hk with he | hk
        · exact absurd he.symm hbk
        · exact hk
      simp only [hbk,decide_false,Bool.false_eq_true,↓reduceIte,List.mem_cons,ih hn hk']
      constructor
      · rintro (rfl | rfl | ⟨ha,he⟩)
        · exact Or.inr ⟨Or.inl rfl,hbk⟩
        · exact Or.inl rfl
        · exact Or.inr ⟨Or.inr ha,he⟩
      · rintro (rfl | ⟨rfl | ha,he⟩)
        · exact Or.inr (Or.inl rfl)
        · exact Or.inl rfl
        · exact Or.inr (Or.inr ⟨ha,he⟩)

/-- Replacing an element leaves those the test refuses. -/
theorem mem_replaceFirst_of_not {α : Type} {p : α → Bool} {v a : α} {l : List α} (ha : a ∈ l)
    (hp : p a = false) : a ∈ replaceFirst p v l := by
  induction l with
  | nil => cases ha
  | cons b l ih =>
    simp only [replaceFirst]
    rcases List.mem_cons.mp ha with rfl | ha
    · rw [hp]
      exact List.mem_cons_self
    · split
      · exact List.mem_cons_of_mem _ ha
      · exact List.mem_cons_of_mem _ (ih ha)

theorem mem_of_mem_replaceFirst {α : Type} {p : α → Bool} {v a : α} {l : List α}
    (h : a ∈ replaceFirst p v l) : a = v ∨ a ∈ l := by
  induction l with
  | nil => cases h
  | cons b l ih =>
    simp only [replaceFirst] at h
    split at h
    · exact (List.mem_cons.mp h).imp_right (List.mem_cons_of_mem _)
    · rcases List.mem_cons.mp h with rfl | h
      · exact Or.inr List.mem_cons_self
      · exact (ih h).imp_right (List.mem_cons_of_mem _)

theorem maxBy_eq_none {α : Type} {cmp : α → α → Ordering} {l : List α} :
    maxBy cmp l = none ↔ l = [] := by
  cases l <;> simp [maxBy]

section
variable {α β : Type} [LinearOrder β] {cmp : α → α → Ordering} {key : α → β}

/-- A comparison by keys finds an element with the greatest key. -/
theorem maxBy_spec (hc : ∀ a b, cmp a b = .gt ↔ key b < key a) {l : List α} {m : α}
    (h : maxBy cmp l = some m) : m ∈ l ∧ ∀ x ∈ l, key x ≤ key m := by
  have hfold : ∀ (ys : List α) (best : α), let m := ys.foldl (fun best y =>
      if cmp best y = .gt then best else y) best
      (m = best ∨ m ∈ ys) ∧ key best ≤ key m ∧ ∀ x ∈ ys, key x ≤ key m := by
    intro ys
    induction ys with
    | nil => exact fun best => ⟨Or.inl rfl,le_refl _,by simp⟩
    | cons y ys ih =>
      intro best
      simp only [List.foldl_cons]
      by_cases hgt : cmp best y = .gt
      · obtain ⟨hm,hb,hall⟩ := ih best
        rw [if_pos hgt]
        refine ⟨hm.imp_right (List.mem_cons_of_mem _),hb,fun x hx => ?_⟩
        rcases List.mem_cons.mp hx with rfl | hx
        · exact (((hc _ _).mp hgt).le).trans hb
        · exact hall x hx
      · obtain ⟨hm,hb,hall⟩ := ih y
        rw [if_neg hgt]
        have hle : key best ≤ key y := le_of_not_gt (fun hlt => hgt ((hc _ _).mpr hlt))
        refine ⟨Or.inr ?_,hle.trans hb,fun x hx => ?_⟩
        · rcases hm with hm | hm
          · rw [hm]
            exact List.mem_cons_self
          · exact List.mem_cons_of_mem _ hm
        · rcases List.mem_cons.mp hx with rfl | hx
          · exact hb
          · exact hall x hx
  cases l with
  | nil => cases h
  | cons a as =>
    cases h
    obtain ⟨hm,hb,hall⟩ := hfold as a
    refine ⟨?_,fun x hx => ?_⟩
    · rcases hm with hm | hm
      · rw [hm]
        exact List.mem_cons_self
      · exact List.mem_cons_of_mem _ hm
    · rcases List.mem_cons.mp hx with rfl | hx
      · exact hb
      · exact hall x hx

end
theorem minByKey_eq_none {α : Type} {key : α → Nat} {l : List α} :
    minByKey key l = none ↔ l = [] := by
  cases l <;> simp [minByKey]

theorem minByKey_mem {α : Type} {key : α → Nat} {l : List α} {m : α}
    (h : minByKey key l = some m) : m ∈ l := by
  have hfold : ∀ (ys : List α) (best : α),
      ys.foldl (fun best y => if key y < key best then y else best) best ∈ best :: ys := by
    intro ys
    induction ys with
    | nil => exact fun best => List.mem_singleton.mpr rfl
    | cons y ys ih =>
      intro best
      rw [List.foldl_cons]
      split
      · exact List.mem_cons_of_mem _ (ih y)
      · rcases List.mem_cons.mp (ih best) with h | h
        · rw [h]
          exact List.mem_cons_self
        · exact List.mem_cons_of_mem _ (List.mem_cons_of_mem _ h)
  cases l with
  | nil => cases h
  | cons a as =>
    cases h
    exact hfold as a

/-- Replacing an element moves a sum by the difference. -/
theorem sum_map_set {α : Type} (f : α → Nat) {l : List α} {i : Nat} {x : α} (h : l[i]? = some x)
    (y : α) : ((l.set i y).map f).sum + f x = (l.map f).sum + f y := by
  induction l generalizing i with
  | nil => simp at h
  | cons a l ih =>
    cases i with
    | zero =>
      simp only [List.getElem?_cons_zero,Option.some.injEq] at h
      subst h
      simp only [List.set_cons_zero,List.map_cons,List.sum_cons]
      omega
    | succ i =>
      have hsum := ih (by simpa using h)
      simp only [List.set_cons_succ,List.map_cons,List.sum_cons]
      omega

theorem sum_map_filter {α M : Type} [AddMonoid M] (f : α → M) (p : α → Bool) (l : List α) :
    ((l.filter p).map f).sum = (l.map (fun x => if p x then f x else 0)).sum := by
  induction l with
  | nil => rfl
  | cons a l ih =>
    cases hp : p a with
    | true => simp [hp,ih]
    | false => simp [hp,ih]

theorem map_range_getElem? {α : Type} (f : Option α → Nat) (l : List α) :
    (List.range l.length).map (fun i => f l[i]?) = l.map (fun x => f (some x)) := by
  refine List.ext_getElem (by simp) fun i hi _ => ?_
  simp only [List.length_map,List.length_range] at hi
  simp [hi]

/-- A loop whose every step succeeds. -/
theorem mapM_eq_ok {α β ε : Type} {f : α → Except ε β} {g : α → β} {l : List α}
    (h : ∀ x ∈ l, f x = .ok (g x)) : l.mapM f = .ok (l.map g) := by
  induction l with
  | nil => rfl
  | cons a l ih =>
    rw [List.mapM_cons,h a List.mem_cons_self,ih fun x hx => h x (List.mem_cons_of_mem _ hx)]
    rfl

/-- Two folds agree that agree wherever an invariant of theirs holds. -/
theorem foldl_eq_of_invariant {α β : Type} {f g : β → α → β} (I : β → Prop)
    (hstep : ∀ b a, I b → f b a = g b a ∧ I (g b a)) (l : List α) {b : β} (hb : I b) :
    l.foldl f b = l.foldl g b := by
  induction l generalizing b with
  | nil => rfl
  | cons a l ih =>
    obtain ⟨heq,hnext⟩ := hstep b a hb
    rw [List.foldl_cons,List.foldl_cons,heq]
    exact ih hnext

/-- Two folds over one list keep a relation that each step keeps. -/
theorem foldl_related {α β γ : Type} {f : β → α → β} {g : γ → α → γ} (R : β → γ → Prop)
    (l : List α) (hstep : ∀ b c, ∀ a ∈ l, R b c → R (f b a) (g c a)) {b : β} {c : γ} (h : R b c) :
    R (l.foldl f b) (l.foldl g c) := by
  induction l generalizing b c with
  | nil => exact h
  | cons a l ih =>
    refine ih (fun b c x hx => hstep b c x (List.mem_cons_of_mem _ hx)) ?_
    exact hstep b c a List.mem_cons_self h

theorem getElem?_append_one {γ : Type} {l : List γ} {a b : γ} {i : Nat}
    (h : (l ++ [a])[i]? = some b) : l[i]? = some b ∨ i = l.length ∧ b = a := by
  rcases Nat.lt_trichotomy i l.length with hlt | heq | hgt
  · rw [List.getElem?_append_left hlt] at h
    exact Or.inl h
  · subst heq
    rw [List.getElem?_append_right (Nat.le_refl _),Nat.sub_self,List.getElem?_cons_zero,
      Option.some.injEq] at h
    exact Or.inr ⟨rfl,h.symm⟩
  · rw [List.getElem?_eq_none] at h
    · cases h
    · rw [List.length_append,List.length_singleton]
      omega

/-- A list that is cut in two places. -/
theorem append_eq_cut {α : Type} {l m a b : List α} {x : α} (h : l ++ m = a ++ x :: b) :
    (∃ b',l = a ++ x :: b' ∧ b = b' ++ m) ∨ ∃ a',m = a' ++ x :: b ∧ a = l ++ a' := by
  rcases List.append_eq_append_iff.mp h with ⟨a',ha,hm⟩ | ⟨c,hl,hc⟩
  · exact Or.inr ⟨a',hm,ha⟩
  · cases c with
    | nil =>
      rw [List.append_nil] at hl
      exact Or.inr ⟨[],by simpa using hc.symm,by simp [hl]⟩
    | cons y c =>
      rw [List.cons_append,List.cons.injEq] at hc
      obtain ⟨rfl,rfl⟩ := hc
      exact Or.inl ⟨c,hl,rfl⟩

/-- What every step of a fold keeps holds at its end. -/
theorem foldl_keeps {α β : Type} {f : β → α → β} {I : β → Prop} (l : List α)
    (hstep : ∀ b,∀ a ∈ l,I b → I (f b a)) {b : β} (h : I b) : I (l.foldl f b) := by
  induction l generalizing b with
  | nil => exact h
  | cons a l ih =>
    refine ih (fun b x hx => hstep b x (List.mem_cons_of_mem _ hx)) ?_
    exact hstep b a List.mem_cons_self h

/-- The same for what speaks of the elements that were passed. -/
theorem foldl_history {α β : Type} {f : β → α → β} {I : List α → β → Prop} {l : List α}
    (hstep : ∀ b before a after,l = before ++ a :: after → I before b → I (before ++ [a]) (f b a))
    {b : β} (h : I [] b) : I l (l.foldl f b) := by
  suffices hall : ∀ before after b,l = before ++ after → I before b → I l (after.foldl f b) from
    hall [] l b rfl h
  intro before after
  induction after generalizing before with
  | nil =>
    intro b heq hb
    rw [heq,List.append_nil]
    exact hb
  | cons a after ih =>
    intro b heq hb
    exact ih (before ++ [a]) (f b a) (by simp [heq]) (hstep b before a after heq hb)

/-- Two majorities of the numbers below a bound have one in common. -/
theorem majorities_meet {n : Nat} {p q : Nat → Bool}
    (hp : n / 2 + 1 ≤ ((List.range n).filter p).length)
    (hq : n / 2 + 1 ≤ ((List.range n).filter q).length) :
    ∃ i,i < n ∧ p i = true ∧ q i = true := by
  by_contra hnone
  have hsplit : ∀ l : List Nat,(∀ i ∈ l,¬ (p i = true ∧ q i = true)) →
      (l.filter p).length + (l.filter q).length ≤ l.length := by
    intro l hl
    induction l with
    | nil => simp
    | cons i l ih =>
      have hrest := ih fun j hj => hl j (List.mem_cons_of_mem _ hj)
      have hhead := hl i List.mem_cons_self
      cases hpi : p i <;> cases hqi : q i <;> simp_all <;> omega
  have := hsplit (List.range n) fun i hi hboth =>
    hnone ⟨i,List.mem_range.mp hi,hboth.1,hboth.2⟩
  rw [List.length_range] at this
  omega

end Flagship.Lib

import Mathlib.Data.List.TakeWhile
import Flagship.Lib.Bytes

namespace Flagship.Lib

/-- The characters of a text are gone through, not all that there are. -/
instance (priority := high) decidableForallMem {p : Char → Prop} [DecidablePred p] (l : List Char) :
    Decidable (∀ c ∈ l,p c) := List.decidableBAll p l

section
variable {α β : Type}

/-- What is left when the elements that meet a condition are taken off both ends. -/
def trimEnds (p : α → Bool) (l : List α) : List α :=
  ((l.dropWhile p).reverse.dropWhile p).reverse

theorem dropWhile_map (f : α → β) (p : β → Bool) (l : List α) :
    (l.map f).dropWhile p = (l.dropWhile fun a => p (f a)).map f := by
  induction l with
  | nil => rfl
  | cons a l ih =>
    simp only [List.map_cons,List.dropWhile_cons]
    split <;> simp [ih]

theorem trimEnds_map (f : α → β) (p : β → Bool) (l : List α) :
    trimEnds p (l.map f) = (trimEnds (fun a => p (f a)) l).map f := by
  simp only [trimEnds,dropWhile_map,← List.map_reverse]

theorem trimEnds_cons_of_pos {p : α → Bool} {a : α} (l : List α) (h : p a = true) :
    trimEnds p (a :: l) = trimEnds p l := by
  rw [trimEnds,List.dropWhile_cons_of_pos h,trimEnds]

theorem mem_of_mem_trimEnds {p : α → Bool} {l : List α} {a : α} (h : a ∈ trimEnds p l) : a ∈ l := by
  rw [trimEnds,List.mem_reverse] at h
  have hmem := (List.dropWhile_suffix p).subset h
  exact (List.dropWhile_suffix p).subset (List.mem_reverse.mp hmem)

theorem dropWhile_eq_self {p : α → Bool} {l : List α} (h : ∀ a ∈ l.head?,p a = false) :
    l.dropWhile p = l := by
  cases l with
  | nil => rfl
  | cons a l => exact List.dropWhile_cons_of_neg (by rw [h a (by simp)]; simp)

/-- Nothing is taken off where no element meets the condition. -/
theorem trimEnds_eq_self {p : α → Bool} {l : List α} (h : ∀ a ∈ l,p a = false) :
    trimEnds p l = l := by
  have hfirst : l.dropWhile p = l :=
    dropWhile_eq_self fun a ha => h a (List.mem_of_mem_head? ha)
  rw [trimEnds,hfirst,dropWhile_eq_self,List.reverse_reverse]
  intro a ha
  exact h a (List.mem_reverse.mp (List.mem_of_mem_head? ha))

/-- What is left begins and ends with an element that does not meet the condition. -/
theorem trimEnds_eq_iff {p : α → Bool} {l : List α} :
    trimEnds p l = l ↔ (∀ a ∈ l.head?,p a = false) ∧ ∀ a ∈ l.getLast?,p a = false := by
  constructor
  · intro h
    have hlen : (trimEnds p l).length = l.length := by rw [h]
    have hle := (List.dropWhile_suffix (l := (l.dropWhile p).reverse) p).length_le
    have hle' := (List.dropWhile_suffix (l := l) p).length_le
    rw [List.length_reverse] at hle
    have hfirst : l.dropWhile p = l := by
      refine (List.dropWhile_suffix p).eq_of_length ?_
      rw [trimEnds,List.length_reverse] at hlen
      omega
    have hlast : l.reverse.dropWhile p = l.reverse := by
      rw [trimEnds,hfirst] at h
      rw [← List.reverse_reverse (l.reverse.dropWhile p),h]
    refine ⟨fun a ha => ?_,fun a ha => ?_⟩
    · have hnot := List.head?_dropWhile_not p l
      rw [hfirst,Option.mem_def.mp ha] at hnot
      simpa using hnot
    · have hnot := List.head?_dropWhile_not p l.reverse
      rw [hlast,List.head?_reverse,Option.mem_def.mp ha] at hnot
      simpa using hnot
  · rintro ⟨hhead,hlast⟩
    rw [trimEnds,dropWhile_eq_self hhead,dropWhile_eq_self,List.reverse_reverse]
    intro a ha
    rw [List.head?_reverse] at ha
    exact hlast a ha

theorem trimEnds_trimEnds (p : α → Bool) (l : List α) :
    trimEnds p (trimEnds p l) = trimEnds p l := by
  rw [trimEnds_eq_iff]
  constructor
  · intro a ha
    -- the first element is the first that was left by the cut at the front
    have hpre : trimEnds p l <+: l.dropWhile p := by
      rw [trimEnds,← List.reverse_suffix,List.reverse_reverse]
      exact List.dropWhile_suffix p
    obtain ⟨t,ht⟩ := hpre
    have hhead : (l.dropWhile p).head? = some a := by
      rw [← ht]
      cases htrim : trimEnds p l with
      | nil => simp [htrim] at ha
      | cons b m => simpa [htrim] using ha
    have hnot := List.head?_dropWhile_not p l
    rw [hhead] at hnot
    simpa using hnot
  · intro a ha
    rw [trimEnds,List.getLast?_reverse] at ha
    have hnot := List.head?_dropWhile_not p (l.dropWhile p).reverse
    rw [Option.mem_def.mp ha] at hnot
    simpa using hnot

theorem dropWhile_dropWhile {p q : α → Bool} {l : List α}
    (hpq : ∀ a ∈ l,p a = true → q a = true) : (l.dropWhile p).dropWhile q = l.dropWhile q := by
  induction l with
  | nil => rfl
  | cons a l ih =>
    rw [List.dropWhile_cons]
    split
    · next hp =>
      rw [ih fun b hb => hpq b (List.mem_cons_of_mem _ hb),
        List.dropWhile_cons_of_pos (hpq a List.mem_cons_self hp)]
    · rfl

theorem trimEnds_append_right {q : α → Bool} {l tail : List α} (h : ∀ a ∈ tail,q a = true) :
    trimEnds q (l ++ tail) = trimEnds q l := by
  have htail : ∀ m : List α,(tail.reverse ++ m).dropWhile q = m.dropWhile q := by
    intro m
    rw [List.dropWhile_append_of_pos fun a ha => h a (List.mem_reverse.mp ha)]
  by_cases hall : ∀ a ∈ l,q a = true
  · have hdrop : l.dropWhile q = [] := List.dropWhile_eq_nil_iff.mpr hall
    rw [trimEnds,List.dropWhile_append_of_pos hall,List.dropWhile_eq_nil_iff.mpr h,trimEnds,hdrop]
  · rw [trimEnds,List.dropWhile_append,if_neg,List.reverse_append,htail,trimEnds]
    rw [List.isEmpty_iff,List.dropWhile_eq_nil_iff]
    exact hall

/-- Taking off more finds the same whether or not some was taken off before. -/
theorem trimEnds_of_le {p q : α → Bool} {l : List α} (hpq : ∀ a ∈ l,p a = true → q a = true) :
    trimEnds q (trimEnds p l) = trimEnds q l := by
  have hfront : trimEnds q (l.dropWhile p) = trimEnds q l := by
    rw [trimEnds,dropWhile_dropWhile hpq,trimEnds]
  have hback : l.dropWhile p = trimEnds p l ++ ((l.dropWhile p).reverse.takeWhile p).reverse := by
    rw [trimEnds,← List.reverse_append,List.takeWhile_append_dropWhile,List.reverse_reverse]
  rw [← hfront,hback,trimEnds_append_right]
  · intro a ha
    have hmem := (List.takeWhile_prefix p).subset (List.mem_reverse.mp ha)
    exact hpq a ((List.dropWhile_suffix p).subset (List.mem_reverse.mp hmem))
      (List.all_eq_true.mp List.all_takeWhile a (List.mem_reverse.mp ha))

/-- A list can be split before or after it is mapped. -/
theorem splitOn_map [BEq α] [BEq β] {f : α → β} {a : α} {b : β}
    (hf : ∀ x,(f x == b) = (x == a)) (l : List α) :
    (l.map f).splitOn b = (l.splitOn a).map (List.map f) := by
  induction l with
  | nil => rfl
  | cons x l ih =>
    rw [List.map_cons,List.splitOn_cons_eq_if_modifyHead,List.splitOn_cons_eq_if_modifyHead,hf,ih]
    split
    · rfl
    · cases l.splitOn a <;> rfl

variable [DecidableEq α] [DecidableEq β]

/-- The pieces of a list at a separator of two elements. -/
def splitPair (x y : α) : List α → List (List α)
  | [] => [[]]
  | [a] => [[a]]
  | a :: b :: l =>
    if a = x ∧ b = y then [] :: splitPair x y l
    else match splitPair x y (b :: l) with
      | [] => [[a]]
      | piece :: pieces => (a :: piece) :: pieces

theorem splitPair_ne_nil (x y : α) (l : List α) : splitPair x y l ≠ [] := by
  fun_induction splitPair x y l <;> simp

/-- Text in which the separator does not begin is one piece, up to the first separator. -/
theorem splitPair_append {x y : α} {piece : List α} (hx : x ∉ piece) (l : List α) :
    splitPair x y (piece ++ x :: y :: l) = piece :: splitPair x y l := by
  induction piece with
  | nil => simp [splitPair]
  | cons a piece ih =>
    rw [List.mem_cons,not_or] at hx
    rcases hp : piece ++ x :: y :: l with _ | ⟨b,rest⟩
    · simp at hp
    · rw [List.cons_append,hp,splitPair,if_neg (fun h => hx.1 h.1.symm),← hp,ih hx.2]

theorem splitPair_one {x y : α} {piece : List α} (hx : x ∉ piece) :
    splitPair x y piece = [piece] := by
  induction piece with
  | nil => rfl
  | cons a piece ih =>
    rw [List.mem_cons,not_or] at hx
    cases piece with
    | nil => rfl
    | cons b rest => rw [splitPair,if_neg (fun h => hx.1 h.1.symm),ih hx.2]

theorem splitPair_map {f : α → β} (hf : Function.Injective f) (x y : α) (l : List α) :
    splitPair (f x) (f y) (l.map f) = (splitPair x y l).map (List.map f) := by
  fun_induction splitPair x y l with
  | case1 => rfl
  | case2 a => rfl
  | case3 a b l h ih =>
    simp only [List.map_cons,splitPair,hf.eq_iff,if_pos h,ih,List.map_nil]
  | case4 a b l h hnil ih =>
    exact absurd hnil (splitPair_ne_nil x y (b :: l))
  | case5 a b l h piece pieces heq ih =>
    rw [heq] at ih
    simp only [List.map_cons] at ih ⊢
    simp only [splitPair,hf.eq_iff,if_neg h,ih]

end
end Flagship.Lib

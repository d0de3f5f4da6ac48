import Mathlib.Algebra.Order.Ring.Nat
import Mathlib.Data.Char
import Mathlib.Data.List.Infix
import Mathlib.Data.List.Lex

namespace Flagship.Lib

/-- A string as its characters. -/
abbrev Text := List Char

instance Text.lawfulBEq : LawfulBEq Text := List.instLawfulBEq

/-- Unicode lowercasing. The tables are not fixed here: what a program relies
on is that lowercasing yields only characters it leaves alone, leaves a string
of such characters alone whatever their neighbours are, and is the ASCII one on
ASCII text. -/
class Lowercase where
  toLowercase : Text → Text
  Lowered : Char → Prop
  lowered_of_mem : ∀ s, ∀ c ∈ toLowercase s, Lowered c
  toLowercase_of_lowered : ∀ s : Text, (∀ c ∈ s, Lowered c) → toLowercase s = s
  toLowercase_ascii : ∀ s : Text, (∀ c ∈ s, c.toNat < 128) → toLowercase s = s.map Char.toLower
  lowered_dot : Lowered '.'

export Lowercase (toLowercase)

/-- A character outside `A`..`Z` is left alone. -/
theorem toLower_of_not_upper {c : Char} (h : c.toNat < 65 ∨ 90 < c.toNat) : c.toLower = c := by
  unfold Char.toLower
  rw [dif_neg]
  intro hup
  simp only [ge_iff_le,UInt32.le_iff_toNat_le,Char.toNat_val] at hup
  have hA : ('A' : Char).toNat = 65 := rfl
  have hZ : ('Z' : Char).toNat = 90 := rfl
  omega

/-- A character that lowercases into ASCII is one of ASCII. -/
theorem ascii_of_toLower {c : Char} (h : c.toLower.toNat < 128) : c.toNat < 128 := by
  by_contra hge
  rw [toLower_of_not_upper (by omega)] at h
  exact hge h

theorem toLower_of_upper {c : Char} (h : 65 ≤ c.toNat) (h' : c.toNat ≤ 90) :
    c.toLower.toNat = c.toNat + 32 := by
  have hA : ('A' : Char).val.toNat = 65 := rfl
  have hZ : ('Z' : Char).val.toNat = 90 := rfl
  have hd : ('a'.val - 'A'.val : UInt32).toNat = 32 := rfl
  have hc : c.val.toNat = c.toNat := rfl
  unfold Char.toLower
  rw [dif_pos (by simp only [ge_iff_le,UInt32.le_iff_toNat_le]; omega)]
  change (c.val + ('a'.val - 'A'.val)).toNat = c.toNat + 32
  rw [UInt32.toNat_add,hd,hc]
  omega

/-- Lowercasing leads to a character that is no letter only from itself. -/
theorem toLower_eq_iff {c d : Char} (hd : d.toNat < 65 ∨ (90 < d.toNat ∧ d.toNat < 97) ∨
    122 < d.toNat) : c.toLower = d ↔ c = d := by
  by_cases hup : 65 ≤ c.toNat ∧ c.toNat ≤ 90
  · have hlow := toLower_of_upper hup.1 hup.2
    constructor
    · rintro rfl
      omega
    · rintro rfl
      omega
  · rw [toLower_of_not_upper (by omega)]

theorem toLower_toLower (c : Char) : c.toLower.toLower = c.toLower := by
  unfold Char.toLower
  split
  · rename_i h
    rw [dif_neg]
    intro h'
    simp only [ge_iff_le,UInt32.le_iff_toNat_le,UInt32.toNat_add] at h h'
    have ha : ('A' : Char).val.toNat = 65 := rfl
    have hz : ('Z' : Char).val.toNat = 90 := rfl
    have hd : ('a'.val - 'A'.val : UInt32).toNat = 32 := rfl
    omega
  · rfl

/-- On ASCII text lowercasing is character by character. -/
instance asciiLowercase : Lowercase where
  toLowercase s := s.map Char.toLower
  Lowered c := c.toLower = c
  lowered_of_mem := by
    intro s c hc
    obtain ⟨d,_,rfl⟩ := List.mem_map.mp hc
    exact toLower_toLower d
  toLowercase_of_lowered := by
    intro s h
    exact (List.map_congr_left h).trans (List.map_id _)
  toLowercase_ascii := fun _ _ => rfl
  lowered_dot := rfl

@[simp] theorem toLowercase_idem [Lowercase] (s : Text) :
    toLowercase (toLowercase s) = toLowercase s :=
  Lowercase.toLowercase_of_lowered _ (Lowercase.lowered_of_mem s)

/-- A text lowercasing leaves alone, character by character. -/
def IsLower [Lowercase] (s : Text) : Prop := ∀ c ∈ s, Lowercase.Lowered c

theorem isLower_toLowercase [Lowercase] (s : Text) : IsLower (toLowercase s) :=
  Lowercase.lowered_of_mem s

theorem IsLower.eq [Lowercase] {s : Text} (h : IsLower s) : toLowercase s = s :=
  Lowercase.toLowercase_of_lowered s h

theorem IsLower.append [Lowercase] {s t : Text} (hs : IsLower s) (ht : IsLower t) :
    IsLower (s ++ t) := by
  intro c hc
  rcases List.mem_append.mp hc with hc | hc
  · exact hs c hc
  · exact ht c hc

theorem IsLower.dot [Lowercase] {s : Text} (hs : IsLower s) : IsLower ('.' :: s) := by
  intro c hc
  rcases List.mem_cons.mp hc with rfl | hc
  · exact Lowercase.lowered_dot
  · exact hs c hc

/-- `strip_suffix`. -/
def stripSuffix (s suffix : Text) : Option Text :=
  if suffix <:+ s then some (s.take (s.length - suffix.length)) else none

theorem stripSuffix_eq_some {s suffix head : Text} :
    stripSuffix s suffix = some head ↔ s = head ++ suffix := by
  unfold stripSuffix
  constructor
  · intro h
    split at h
    · rename_i hs
      obtain ⟨t,rfl⟩ := hs
      simpa using h
    · cases h
  · rintro rfl
    simp

/-- The pieces of a split hold no separator. -/
theorem not_mem_of_mem_splitOn {α : Type} [BEq α] [LawfulBEq α] {sep : α} {s piece : List α}
    (h : piece ∈ s.splitOn sep) : sep ∉ piece := by
  induction s generalizing piece with
  | nil =>
    simp only [List.splitOn_nil,List.mem_singleton] at h
    simp [h]
  | cons c s ih =>
    rw [List.splitOn_cons_eq_if_modifyHead] at h
    split at h
    · rcases List.mem_cons.mp h with rfl | h
      · simp
      · exact ih h
    · rename_i hc
      have hc' : sep ≠ c := by
        intro he
        exact hc (by simp [he])
      cases hs : s.splitOn sep with
      | nil => exact absurd hs (List.splitOn_ne_nil sep s)
      | cons p ps =>
        rw [hs] at h ih
        simp only [List.modifyHead_cons,List.mem_cons] at h
        rcases h with rfl | h
        · simp only [List.mem_cons,not_or]
          exact ⟨hc',ih List.mem_cons_self⟩
        · exact ih (List.mem_cons_of_mem _ h)

/-- Every character of a piece comes from the text that was split. -/
theorem mem_of_mem_splitOn {sep c : Char} {s piece : Text}
    (h : piece ∈ s.splitOn sep) (hc : c ∈ piece) : c ∈ s := by
  induction s generalizing piece with
  | nil =>
    simp only [List.splitOn_nil,List.mem_singleton] at h
    simp [h] at hc
  | cons d s ih =>
    rw [List.splitOn_cons_eq_if_modifyHead] at h
    split at h
    · rcases List.mem_cons.mp h with rfl | h
      · simp at hc
      · exact List.mem_cons_of_mem _ (ih h hc)
    · cases hs : s.splitOn sep with
      | nil => exact absurd hs (List.splitOn_ne_nil sep s)
      | cons p ps =>
        rw [hs] at h ih
        simp only [List.modifyHead_cons,List.mem_cons] at h
        rcases h with rfl | h
        · rcases List.mem_cons.mp hc with rfl | hc
          · exact List.mem_cons_self
          · exact List.mem_cons_of_mem _ (ih List.mem_cons_self hc)
        · exact List.mem_cons_of_mem _ (ih (List.mem_cons_of_mem _ h) hc)

/-- Every other character than the separator is in some piece. -/
theorem exists_mem_splitOn {sep c : Char} {s : Text} (hc : c ∈ s) (hne : c ≠ sep) :
    ∃ piece ∈ s.splitOn sep, c ∈ piece := by
  induction s with
  | nil => cases hc
  | cons d s ih =>
    rw [List.splitOn_cons_eq_if_modifyHead]
    rcases List.mem_cons.mp hc with rfl | hc
    · rw [if_neg (by simpa using hne)]
      cases hs : s.splitOn sep with
      | nil => exact absurd hs (List.splitOn_ne_nil sep s)
      | cons p ps => exact ⟨c :: p,by simp,by simp⟩
    · obtain ⟨piece,hp,hm⟩ := ih hc
      split
      · exact ⟨piece,List.mem_cons_of_mem _ hp,hm⟩
      · cases hs : s.splitOn sep with
        | nil => exact absurd hs (List.splitOn_ne_nil sep s)
        | cons p ps =>
          rw [hs] at hp
          rcases List.mem_cons.mp hp with rfl | hp
          · exact ⟨d :: piece,by simp,List.mem_cons_of_mem _ hm⟩
          · exact ⟨piece,by simp [hp],hm⟩

/-- Joining two separator-free pieces and splitting again gives them back. -/
theorem splitOn_pair {sep : Char} {a b : Text} (ha : sep ∉ a) (hb : sep ∉ b) :
    (a ++ sep :: b).splitOn sep = [a,b] := by
  rw [List.splitOn_append_cons_self,List.splitOn_eq_singleton ha,List.splitOn_eq_singleton hb]
  rfl

/-- Parts without the separator can be read back from the text they are joined to. -/
theorem separated_inj {sep : Char} {ps qs : List Text} (hp : ∀ p ∈ ps, sep ∉ p)
    (hq : ∀ q ∈ qs, sep ∉ q) (h : ps.flatMap (sep :: ·) = qs.flatMap (sep :: ·)) : ps = qs := by
  -- a part ends where the rest is empty or starts with the separator
  have hhead : ∀ {p : Text} (rest : List Text), sep ∉ p →
      (p ++ rest.flatMap (sep :: ·)).takeWhile (fun c => c != sep) = p := by
    intro p rest hp
    have hnot : ∀ c ∈ p, (c != sep) = true := by
      intro c hc
      rw [bne_iff_ne]
      rintro rfl
      exact hp hc
    rw [List.takeWhile_append_of_pos hnot]
    cases rest <;> simp
  induction ps generalizing qs with
  | nil =>
    cases qs with
    | nil => rfl
    | cons q qs => simp at h
  | cons p ps ih =>
    cases qs with
    | nil => simp at h
    | cons q qs =>
      simp only [List.flatMap_cons,List.cons_append,List.cons.injEq,true_and] at h
      have hpq : p = q := by
        rw [← hhead ps (hp p List.mem_cons_self),h,hhead qs (hq q List.mem_cons_self)]
      subst hpq
      rw [ih (fun x hx => hp x (List.mem_cons_of_mem _ hx))
        (fun x hx => hq x (List.mem_cons_of_mem _ hx)) (List.append_cancel_left h)]

theorem not_mem_digits {c : Char} {n : Nat} (h : c.isDigit = false) : c ∉ Nat.toDigits 10 n := by
  intro hc
  rw [Nat.isDigit_of_mem_toDigits (by decide) (by decide) hc] at h
  cases h

theorem toDigits_inj {n m : Nat} (h : Nat.toDigits 10 n = Nat.toDigits 10 m) : n = m := by
  rw [← Nat.ofDigitChars_ten_toDigits (n := n),h,Nat.ofDigitChars_ten_toDigits]

end Flagship.Lib

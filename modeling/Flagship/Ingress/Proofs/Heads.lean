import Flagship.Ingress.Http

namespace Flagship.Ingress
open Lib Gate

/-- Every character has a byte. -/
def IsLatin1 (s : Text) : Prop := ∀ c ∈ s,c.toNat < 256

section
variable {s t : Text} {c : Char}

theorem IsLatin1.append (hs : IsLatin1 s) (ht : IsLatin1 t) : IsLatin1 (s ++ t) := by
  intro c hc
  rcases List.mem_append.mp hc with hc | hc
  · exact hs c hc
  · exact ht c hc

theorem toNat_ofNat_byte (b : UInt8) : (Char.ofNat b.toNat).toNat = b.toNat := by
  have hlt := b.toNat_lt
  have hvalid : b.toNat.isValidChar := Or.inl (by omega)
  rw [Char.ofNat,dif_pos hvalid]
  rfl

theorem isLatin1_latin1 (bs : Bytes) : IsLatin1 (latin1 bs) := by
  intro c hc
  obtain ⟨b,_,rfl⟩ := List.mem_map.mp hc
  rw [toNat_ofNat_byte]
  exact b.toNat_lt

theorem toNat_latin1Byte (h : c.toNat < 256) :
    (if c.toNat < 256 then UInt8.ofNat c.toNat else 0x3f : UInt8).toNat = c.toNat := by
  rw [if_pos h,UInt8.toNat_ofNat']
  omega

theorem toLatin1_append : toLatin1 (s ++ t) = toLatin1 s ++ toLatin1 t := List.map_append

theorem latin1_toLatin1 (h : IsLatin1 s) : latin1 (toLatin1 s) = s := by
  rw [latin1,toLatin1,List.map_map]
  refine (List.map_congr_left fun c hc => ?_).trans (List.map_id s)
  rw [Function.comp_apply,toNat_latin1Byte (h c hc),Char.ofNat_toNat]
  rfl

/-- A test of bytes, on what a text is written as. -/
theorem mem_toLatin1 {b : UInt8} (h : IsLatin1 s) (hb : b ∈ toLatin1 s) :
    ∃ c ∈ s,b.toNat = c.toNat := by
  obtain ⟨c,hc,rfl⟩ := List.mem_map.mp hb
  exact ⟨c,hc,toNat_latin1Byte (h c hc)⟩

theorem all_toLatin1 {p : Nat → Bool} (h : IsLatin1 s) (hp : ∀ c ∈ s,p c.toNat = true) :
    (toLatin1 s).all (fun b => p b.toNat) = true := by
  rw [List.all_eq_true]
  intro b hb
  obtain ⟨c,hc,heq⟩ := mem_toLatin1 h hb
  rw [heq]
  exact hp c hc

theorem not_mem_toLatin1 {b : UInt8} (h : IsLatin1 s) (hc : ∀ c ∈ s,c.toNat ≠ b.toNat) :
    b ∉ toLatin1 s := by
  intro hb
  obtain ⟨c,hmem,heq⟩ := mem_toLatin1 h hb
  exact hc c hmem heq.symm

/-- JavaScript's `trim`, as far as latin1 goes. -/
def trimText (s : Text) : Text := trimEnds (fun c => jsSpace c.toNat) s

theorem jsTrim_toLatin1 (h : IsLatin1 s) : jsTrim (toLatin1 s) = toLatin1 (trimText s) := by
  rw [jsTrim,toLatin1,trimEnds_map,toLatin1,trimText]
  congr 1
  simp only [trimEnds]
  have hsame : ∀ l : Text,(∀ c ∈ l,c ∈ s) →
      l.dropWhile (fun c => jsSpace
        (if c.toNat < 256 then UInt8.ofNat c.toNat else 0x3f : UInt8).toNat) =
      l.dropWhile fun c => jsSpace c.toNat := by
    intro l hl
    induction l with
    | nil => rfl
    | cons c l ih =>
      rw [List.dropWhile_cons,List.dropWhile_cons,
        toNat_latin1Byte (h c (hl c List.mem_cons_self)),
        ih fun d hd => hl d (List.mem_cons_of_mem _ hd)]
  rw [hsame s fun _ hc => hc,hsame]
  intro c hc
  exact (List.dropWhile_suffix _).subset (List.mem_reverse.mp hc)

theorem isTchar_lt {n : Nat} (h : isTchar n = true) : n < 128 := by
  by_contra hge
  simp only [isTchar,Bool.or_eq_true,Bool.and_eq_true,decide_eq_true_eq,List.contains_iff_mem,
    List.mem_cons,List.not_mem_nil,or_false] at h
  omega

theorem isTchar_ne {n m : Nat} (h : isTchar n = true) (hm : isTchar m = false) : n ≠ m := by
  rintro rfl
  rw [hm] at h
  cases h

theorem safeChar_ne {n m : Nat} (h : safeChar n = true) (hm : safeChar m = false) : n ≠ m := by
  rintro rfl
  rw [hm] at h
  cases h

/-- A name and a value that can stand on a header line. -/
structure LineOk (h : Text × Text) : Prop where
  nonempty : h.1 ≠ []
  token : ∀ c ∈ h.1,isTchar c.toNat = true
  safe : ∀ c ∈ h.2,safeChar c.toNat = true
  latin : IsLatin1 h.2

theorem LineOk.name_latin {h : Text × Text} (hok : LineOk h) : IsLatin1 h.1 := by
  intro c hc
  have := isTchar_lt (hok.token c hc)
  omega

/-- A header line is read back, its value trimmed. -/
theorem headerLine_eq {h : Text × Text} (hok : LineOk h) :
    headerLine (toLatin1 (h.1 ++ ": ".toList ++ h.2)) =
      some (toLatin1 h.1,toLatin1 (trimText h.2)) := by
  have hsplit : toLatin1 (h.1 ++ ": ".toList ++ h.2) = toLatin1 h.1 ++ 0x3a :: 0x20 :: toLatin1 h.2 := by
    rw [toLatin1_append,toLatin1_append,List.append_assoc]
    rfl
  have hcolon : ∀ b ∈ toLatin1 h.1,(b != 0x3a) = true := by
    intro b hb
    rw [bne_iff_ne]
    rintro rfl
    exact not_mem_toLatin1 hok.name_latin (fun c hc => isTchar_ne (hok.token c hc) (by decide)) hb
  have hname : (toLatin1 h.1 ++ 0x3a :: 0x20 :: toLatin1 h.2).takeWhile (· != 0x3a) =
      toLatin1 h.1 := by
    rw [List.takeWhile_append_of_pos hcolon]
    simp
  have hvalue : jsTrim (0x20 :: toLatin1 h.2) = toLatin1 (trimText h.2) := by
    rw [jsTrim,trimEnds_cons_of_pos _ (by decide),← jsTrim_toLatin1 hok.latin,jsTrim]
  have hsafe : (toLatin1 (trimText h.2)).all (fun b => safeChar b.toNat) = true :=
    all_toLatin1 (fun c hc => hok.latin c (mem_of_mem_trimEnds hc))
      fun c hc => hok.safe c (mem_of_mem_trimEnds hc)
  have htoken := all_toLatin1 hok.name_latin hok.token
  have hne : (toLatin1 h.1).isEmpty = false := by
    rw [List.isEmpty_eq_false_iff,toLatin1,ne_eq,List.map_eq_nil_iff]
    exact hok.nonempty
  rw [hsplit,headerLine,hname]
  simp only [List.drop_left,hvalue,hsafe,htoken,hne]
  rfl

/-- What a header line is read as can stand on one. -/
theorem lineOk_of_headerLine {line name value : Bytes} (h : headerLine line = some (name,value)) :
    LineOk (latin1 name,latin1 value) := by
  rw [headerLine] at h
  split at h
  · cases h
  dsimp only at h
  split at h
  · cases h
  next hok =>
    cases h
    simp only [Bool.or_eq_true,List.isEmpty_iff,Bool.not_eq_true',not_or,Bool.not_eq_false] at hok
    obtain ⟨⟨hne,htoken⟩,hsafe⟩ := hok
    refine ⟨?_,?_,?_,isLatin1_latin1 _⟩
    · rw [latin1,ne_eq,List.map_eq_nil_iff]
      exact hne
    · intro c hc
      obtain ⟨b,hb,rfl⟩ := List.mem_map.mp hc
      rw [toNat_ofNat_byte]
      exact List.all_eq_true.mp htoken b hb
    · intro c hc
      obtain ⟨b,hb,rfl⟩ := List.mem_map.mp hc
      rw [toNat_ofNat_byte]
      exact List.all_eq_true.mp hsafe b hb

theorem digit_facts {c : Char} (h : c.isDigit = true) :
    safeChar c.toNat = true ∧ c.toNat < 256 ∧ jsSpace c.toNat = false := by
  have hall : ∀ n < 58,48 ≤ n → safeChar n = true ∧ n < 256 ∧ jsSpace n = false := by decide
  simp only [Char.isDigit,Bool.and_eq_true,decide_eq_true_eq,ge_iff_le,UInt32.le_iff_toNat_le] at h
  have hlow : 48 ≤ c.toNat := h.1
  have hhigh : c.toNat ≤ 57 := h.2
  exact hall c.toNat (by omega) hlow

theorem trimText_eq_self (h : ∀ c ∈ s,jsSpace c.toNat = false) : trimText s = s :=
  trimEnds_eq_self h

/-- A header line holds no carriage return. -/
theorem no_cr_line {h : Text × Text} (hok : LineOk h) :
    (13 : UInt8) ∉ toLatin1 (h.1 ++ ": ".toList ++ h.2) := by
  refine not_mem_toLatin1 ?_ ?_
  · refine (hok.name_latin.append ?_).append hok.latin
    intro c hc
    revert c
    decide
  · intro c hc
    rcases List.mem_append.mp hc with hc | hc
    · rcases List.mem_append.mp hc with hc | hc
      · exact isTchar_ne (hok.token c hc) (by decide)
      · have hsep : ∀ c ∈ ": ".toList,c.toNat ≠ (13 : UInt8).toNat := by decide
        exact hsep c hc
    · exact safeChar_ne (hok.safe c hc) (by decide)

end

section
variable {lines : List Bytes} {line rest : Bytes}

/-- Lines that stand before the empty line are found again. -/
theorem splitCrlf_lines (hcr : ∀ l ∈ line :: lines,(13 : UInt8) ∉ l) :
    splitCrlf (line ++ lines.flatMap (crlf ++ ·)) = line :: lines := by
  induction lines generalizing line with
  | nil =>
    rw [List.flatMap_nil,List.append_nil,splitCrlf]
    exact splitPair_one (hcr line List.mem_cons_self)
  | cons next lines ih =>
    have hrest := ih fun l hl => hcr l (List.mem_cons_of_mem _ hl)
    rw [List.flatMap_cons,splitCrlf,crlf] at *
    simp only [List.cons_append,List.nil_append] at *
    rw [splitPair_append (hcr line List.mem_cons_self),hrest]

theorem findHeadEnd_of_ne {b : UInt8} {l : Bytes} (h : b ≠ 13) :
    findHeadEnd (b :: l) = (findHeadEnd l).map (· + 1) := by
  rw [findHeadEnd,if_neg]
  intro hpre
  obtain ⟨t,ht⟩ := hpre
  exact h (List.cons.inj ht).1.symm

theorem findHeadEnd_append (hcr : (13 : UInt8) ∉ line) (l : Bytes) :
    findHeadEnd (line ++ l) = (findHeadEnd l).map (· + line.length) := by
  induction line with
  | nil => simp
  | cons b line ih =>
    rw [List.mem_cons,not_or] at hcr
    rw [List.cons_append,findHeadEnd_of_ne (Ne.symm hcr.1),ih hcr.2,Option.map_map]
    congr 1

/-- The head ends behind the last of its lines. -/
theorem findHeadEnd_lines (hcr : ∀ l ∈ line :: lines,(13 : UInt8) ∉ l) (hne : [] ∉ lines)
    (after : Bytes) :
    findHeadEnd (line ++ lines.flatMap (crlf ++ ·) ++ (crlf ++ crlf) ++ after) =
      some (line ++ lines.flatMap (crlf ++ ·)).length := by
  have hself : findHeadEnd (crlf ++ crlf ++ after) = some 0 := by
    rw [crlf]
    simp only [List.cons_append,List.nil_append]
    rw [findHeadEnd,if_pos ⟨after,rfl⟩]
  have hline := hcr line List.mem_cons_self
  induction lines generalizing line with
  | nil =>
    rw [List.flatMap_nil,List.append_nil,List.append_assoc,findHeadEnd_append hline,hself]
    simp
  | cons next lines ih =>
    rw [List.mem_cons,not_or] at hne
    have hrest := ih (fun l hl => hcr l (List.mem_cons_of_mem _ hl)) hne.2
      (hcr next (List.mem_cons_of_mem _ List.mem_cons_self))
    have hnext := hcr next (List.mem_cons_of_mem _ List.mem_cons_self)
    -- the line break is not doubled, since the next line is not empty
    have hbreak : ∀ l,findHeadEnd (crlf ++ (next ++ l)) = (findHeadEnd (next ++ l)).map (· + 2) := by
      intro l
      rcases next with _ | ⟨b,next⟩
      · exact absurd rfl hne.1
      rw [List.mem_cons,not_or] at hnext
      rw [crlf]
      simp only [List.cons_append,List.nil_append]
      rw [findHeadEnd,if_neg,findHeadEnd_of_ne (by decide),Option.map_map]
      · congr 1
      · rintro ⟨t,ht⟩
        simp only [crlf,List.cons_append,List.nil_append] at ht
        injection ht with _ ht
        injection ht with _ ht
        injection ht with ht
        exact hnext.1 ht
    have hassoc : line ++ (next :: lines).flatMap (crlf ++ ·) ++ (crlf ++ crlf) ++ after =
        line ++ (crlf ++ (next ++ (lines.flatMap (crlf ++ ·) ++ (crlf ++ crlf) ++ after))) := by
      simp only [List.flatMap_cons,List.append_assoc]
    rw [hassoc,findHeadEnd_append hline,hbreak]
    have hrest' : findHeadEnd (next ++ (lines.flatMap (crlf ++ ·) ++ (crlf ++ crlf) ++ after)) =
        some (next ++ lines.flatMap (crlf ++ ·)).length := by
      rw [← hrest]
      simp only [List.append_assoc]
    rw [hrest']
    simp only [Option.map_some,List.flatMap_cons,List.length_append,crlf,List.length_cons,List.length_nil]
    congr 1
    omega

end
end Flagship.Ingress

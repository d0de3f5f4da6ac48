import Mathlib.Data.List.Forall2
import Flagship.Protocol.CanonicalV1

namespace Flagship.Protocol
open Lib

/-- The same value to the encoder: a sorted list stands for its items in any
order. -/
def Field.Same : Field → Field → Prop
  | .list items true,.list items' true => items.Perm items'
  | f,f' => f = f'

namespace Proofs

theorem checkFieldText_ok {s : Text} (h : checkFieldText s = .ok ()) : '|' ∉ s := by
  induction s with
  | nil => simp
  | cons c s ih =>
    unfold checkFieldText at h
    split at h
    · cases h
    rename_i hc
    split at h
    · cases h
    · rw [List.mem_cons,not_or]
      exact ⟨Ne.symm hc,ih h⟩

theorem checkItems_ok {items : List Text} (h : checkItems items = .ok ()) :
    ∀ item ∈ items, item ≠ [] ∧ ',' ∉ item ∧ '|' ∉ item := by
  induction items with
  | nil => simp
  | cons item items ih =>
    unfold checkItems at h
    split at h
    · cases h
    rename_i hitem
    unfold checkItem at hitem
    split at hitem
    · cases hitem
    rename_i hok
    simp only [Bool.or_eq_true,not_or,List.isEmpty_iff,List.contains_iff_mem] at hok
    rw [List.forall_mem_cons]
    exact ⟨⟨hok.1,hok.2,checkFieldText_ok hitem⟩,ih h⟩

theorem intString_inj {n m : Int} (h : intString n = intString m) : n = m := by
  unfold intString at h
  have hsign : ∀ {a b : Nat}, '-' :: Nat.toDigits 10 a ≠ Nat.toDigits 10 b := by
    intro a b heq
    have hmem : '-' ∈ Nat.toDigits 10 b := heq ▸ List.mem_cons_self
    exact not_mem_digits (by decide) hmem
  split at h
  · split at h
    · have := toDigits_inj (List.cons.inj h).2
      omega
    · exact absurd h hsign
  · split at h
    · exact absurd h.symm hsign
    · have := toDigits_inj h
      omega

/-- The two digits of a byte. -/
def hexPair (b : UInt8) : Text := [b >>> 4,b &&& 0x0f].filterMap (fun d => lowerDigits[d.toNat]?)

theorem hexPair_spec (b : UInt8) : (hexPair b).length = 2 ∧ '|' ∉ hexPair b ∧
    (hexPair b).map (fun c => lowerDigits.idxOf c) = [b.toNat / 16,b.toNat % 16] := by
  have hall : ∀ n : Fin 256, (hexPair (UInt8.ofNat n)).length = 2 ∧ '|' ∉ hexPair (UInt8.ofNat n) ∧
      (hexPair (UInt8.ofNat n)).map (fun c => lowerDigits.idxOf c) = [n.val / 16,n.val % 16] := by
    decide +kernel
  have h := hall ⟨b.toNat,b.toNat_lt⟩
  simpa using h

theorem hexPair_inj {a b : UInt8} (h : hexPair a = hexPair b) : a = b := by
  have ha := (hexPair_spec a).2.2
  rw [h,(hexPair_spec b).2.2] at ha
  simp only [List.cons.injEq,and_true] at ha
  apply UInt8.toNat_inj.mp
  omega

theorem encodeLowerHex_eq (bs : Bytes) : encodeLowerHex bs = bs.flatMap hexPair := rfl

theorem encodeLowerHex_inj {as bs : Bytes} (h : encodeLowerHex as = encodeLowerHex bs) : as = bs := by
  rw [encodeLowerHex_eq,encodeLowerHex_eq] at h
  induction as generalizing bs with
  | nil =>
    cases bs with
    | nil => rfl
    | cons b bs =>
      have hlen := congrArg List.length h
      simp [(hexPair_spec b).1] at hlen
      omega
  | cons a as ih =>
    cases bs with
    | nil =>
      have hlen := congrArg List.length h
      simp [(hexPair_spec a).1] at hlen
    | cons b bs =>
      rw [List.flatMap_cons,List.flatMap_cons] at h
      obtain ⟨hpair,hrest⟩ := List.append_inj h ((hexPair_spec a).1.trans (hexPair_spec b).1.symm)
      rw [hexPair_inj hpair,ih hrest]

theorem bar_not_mem_encodeLowerHex (bs : Bytes) : '|' ∉ encodeLowerHex bs := by
  rw [encodeLowerHex_eq,List.mem_flatMap]
  rintro ⟨b,_,hb⟩
  exact (hexPair_spec b).2.1 hb

/-- Joined items can be told apart. -/
theorem intercalate_inj {sep : Char} {xs ys : List Text} (hx : ∀ x ∈ xs, x ≠ [] ∧ sep ∉ x)
    (hy : ∀ y ∈ ys, y ≠ [] ∧ sep ∉ y) (h : [sep].intercalate xs = [sep].intercalate ys) :
    xs = ys := by
  have hempty : ∀ {zs : List Text}, (∀ z ∈ zs, z ≠ [] ∧ sep ∉ z) → [sep].intercalate zs = [] →
      zs = [] := by
    intro zs hz hnil
    cases zs with
    | nil => rfl
    | cons z zs =>
      cases z with
      | nil => exact absurd rfl (hz [] List.mem_cons_self).1
      | cons c z => cases zs <;> simp [List.intercalate] at hnil
  by_cases hxs : xs = []
  · subst hxs
    exact (hempty hy h.symm).symm
  · have hys : ys ≠ [] := by
      rintro rfl
      exact hxs (hempty hx h)
    rw [← List.splitOn_intercalate sep (fun x hm => (hx x hm).2) hxs,h,
      List.splitOn_intercalate sep (fun y hm => (hy y hm).2) hys]

theorem mem_intercalate {sep c : Char} {xs : List Text} (h : c ∈ [sep].intercalate xs) :
    c = sep ∨ ∃ x ∈ xs, c ∈ x := by
  induction xs with
  | nil => simp [List.intercalate] at h
  | cons x xs ih =>
    cases xs with
    | nil =>
      rw [List.intercalate_singleton] at h
      exact Or.inr ⟨x,List.mem_cons_self,h⟩
    | cons y ys =>
      rw [List.intercalate_cons_cons,List.mem_append,List.mem_append] at h
      rcases h with (h | h) | h
      · exact Or.inr ⟨x,List.mem_cons_self,h⟩
      · exact Or.inl (List.mem_singleton.mp h)
      · rcases ih h with h | ⟨z,hz,hc⟩
        · exact Or.inl h
        · exact Or.inr ⟨z,List.mem_cons_of_mem _ hz,hc⟩

theorem sortUtf16_perm (items : List Text) : (sortUtf16 items).Perm items :=
  List.mergeSort_perm _ _

theorem render_text {value s : Text} (h : (Field.text value).render = .ok s) :
    s = value ∧ checkFieldText value = .ok () := by
  simp only [Field.render] at h
  cases hc : checkFieldText value with
  | error e =>
    rw [hc] at h
    cases h
  | ok u =>
    rw [hc] at h
    cases h
    exact ⟨rfl,rfl⟩

theorem render_list {items : List Text} {sort : Bool} {s : Text}
    (h : (Field.list items sort).render = .ok s) :
    s = [','].intercalate (if sort then sortUtf16 items else items) ∧ checkItems items = .ok () := by
  simp only [Field.render] at h
  cases hc : checkItems items with
  | error e =>
    rw [hc] at h
    cases h
  | ok u =>
    rw [hc] at h
    cases h
    exact ⟨rfl,rfl⟩

/-- A field's text has no bar. -/
theorem render_no_bar {f : Field} {s : Text} (h : f.render = .ok s) : '|' ∉ s := by
  cases f with
  | text value =>
    obtain ⟨rfl,hc⟩ := render_text h
    exact checkFieldText_ok hc
  | uint value =>
    simp only [Field.render] at h
    split at h
    · cases h
    · cases h
      exact not_mem_digits (by decide)
  | int value =>
    simp only [Field.render] at h
    split at h
    · cases h
    · cases h
      unfold intString
      split
      · rw [List.mem_cons,not_or]
        exact ⟨by decide,not_mem_digits (by decide)⟩
      · exact not_mem_digits (by decide)
  | hex bytes =>
    cases h
    exact bar_not_mem_encodeLowerHex bytes
  | flag01 value =>
    cases h
    cases value <;> decide
  | list items sort =>
    obtain ⟨rfl,hc⟩ := render_list h
    intro hbar
    rcases mem_intercalate hbar with h | ⟨item,hm,hc'⟩
    · revert h
      decide
    · refine (checkItems_ok hc item ?_).2.2 hc'
      split at hm
      · exact (sortUtf16_perm items).mem_iff.mp hm
      · exact hm

/-- A field of a known kind is read off its text. -/
theorem render_same {f f' : Field} {s : Text} (hk : f.kind = f'.kind) (h : f.render = .ok s)
    (h' : f'.render = .ok s) : f.Same f' := by
  cases f with
  | text value =>
    cases f' with
    | text value' =>
      obtain ⟨rfl,_⟩ := render_text h
      obtain ⟨rfl,_⟩ := render_text h'
      rfl
    | _ => cases hk
  | uint value =>
    cases f' with
    | uint value' =>
      simp only [Field.render] at h h'
      split at h
      · cases h
      split at h'
      · cases h'
      cases h
      rw [toDigits_inj (Except.ok.inj h')]
      rfl
    | _ => cases hk
  | int value =>
    cases f' with
    | int value' =>
      simp only [Field.render] at h h'
      split at h
      · cases h
      split at h'
      · cases h'
      cases h
      rw [intString_inj (Except.ok.inj h')]
      rfl
    | _ => cases hk
  | hex bytes =>
    cases f' with
    | hex bytes' =>
      cases h
      rw [encodeLowerHex_inj (Except.ok.inj h')]
      rfl
    | _ => cases hk
  | flag01 value =>
    cases f' with
    | flag01 value' =>
      cases h
      have hbit := Except.ok.inj h'
      cases value <;> cases value' <;> first | rfl | exact absurd hbit (by decide)
    | _ => cases hk
  | list items sort =>
    cases f' with
    | list items' sort' =>
      obtain rfl : sort = sort' := FieldKind.list.inj hk
      obtain ⟨rfl,hc⟩ := render_list h
      obtain ⟨hjoin,hc'⟩ := render_list h'
      have hok := fun item hm => And.intro (checkItems_ok hc item hm).1 (checkItems_ok hc item hm).2.1
      have hok' := fun item hm => And.intro (checkItems_ok hc' item hm).1
        (checkItems_ok hc' item hm).2.1
      cases sort with
      | false => exact congrArg (Field.list · false) (intercalate_inj hok hok' hjoin)
      | true =>
        have hsorted := intercalate_inj
          (fun item hm => hok item ((sortUtf16_perm items).mem_iff.mp hm))
          (fun item hm => hok' item ((sortUtf16_perm items').mem_iff.mp hm)) hjoin
        show items.Perm items'
        exact (sortUtf16_perm items).symm.trans (hsorted ▸ sortUtf16_perm items')
    | _ => cases hk

/-- A purpose tag has no bar. -/
theorem tag_no_bar {tag : Text} {ns : TagNamespace} (h : validatePurposeTag tag ns = .ok ()) :
    '|' ∉ tag := by
  unfold validatePurposeTag at h
  split at h
  · cases h
  simp only at h
  split at h
  · cases h
  rename_i hns
  split at h
  · cases h
  rename_i htwo
  split at h
  · cases h
  split at h
  · cases h
  rename_i hseg
  split at h
  · cases h
  rename_i hver
  intro hbar
  obtain ⟨piece,hp,hc⟩ := exists_mem_splitOn hbar (show '|' ≠ '/' by decide)
  generalize tag.splitOn '/' = parts at *
  cases parts with
  | nil => cases hp
  | cons first rest =>
    rcases List.mem_cons.mp hp with rfl | hrest
    · -- the namespace
      have hfirst : piece = "flagship".toList ∨ piece = "pb".toList := by
        cases ns with
        | flagship =>
          rw [Bool.not_eq_false] at hns
          exact Or.inl (of_decide_eq_true hns)
        | flagshipOrLegacyPb =>
          rw [Bool.not_eq_false] at hns
          exact of_decide_eq_true hns
      rcases hfirst with rfl | rfl
      · revert hc
        decide
      · revert hc
        decide
    · rcases List.eq_nil_or_concat rest with rfl | ⟨segs,last,rfl⟩
      · cases hrest
      · simp only [List.concat_eq_append] at *
        rcases List.mem_append.mp hrest with hs | hl
        · -- a segment
          have hvalid : validSegment piece = true := by
            simp only [Bool.not_eq_false,List.all_eq_true] at hseg
            apply hseg
            simpa using hs
          simp only [validSegment,Bool.and_eq_true,List.all_eq_true] at hvalid
          have := hvalid.2 _ hc
          revert this
          decide
        · -- the version
          obtain rfl := List.mem_singleton.mp hl
          have hlast : validVersion piece = true := by
            rw [Bool.not_eq_false,← List.cons_append,List.getLast?_append] at hver
            exact hver
          unfold validVersion at hlast
          split at hlast
          · rename_i digits
            simp only [Bool.and_eq_true,List.all_eq_true] at hlast
            rcases List.mem_cons.mp hc with hv | hd
            · revert hv
              decide
            · have := hlast.2 _ hd
              revert this
              decide
          · cases hlast

/-- Pieces without the separator come back from splitting what joins them. -/
theorem splitN_intercalate {sep : Char} {parts : List Text} {n : Nat} (hne : parts ≠ [])
    (hfree : ∀ p ∈ parts, sep ∉ p) (hn : parts.length ≤ n) :
    splitN sep n ([sep].intercalate parts) = parts := by
  induction parts generalizing n with
  | nil => exact absurd rfl hne
  | cons p parts ih =>
    have hp : ∀ c ∈ p, (c != sep) = true := by
      intro c hc
      rw [bne_iff_ne]
      rintro rfl
      exact hfree p List.mem_cons_self hc
    match n with
    | 0 => simp at hn
    | 1 =>
      cases parts with
      | nil => rw [List.intercalate_singleton,splitN]
      | cons q parts => simp at hn
    | n + 2 =>
      cases parts with
      | nil =>
        have hnone : p.dropWhile (fun c => c != sep) = [] := by
          rw [← List.append_nil p,List.dropWhile_append_of_pos hp,List.dropWhile_nil]
        rw [List.intercalate_singleton,splitN,hnone]
      | cons q parts =>
        rw [List.intercalate_cons_cons,List.append_assoc,List.singleton_append,splitN,
          List.dropWhile_append_of_pos hp,List.takeWhile_append_of_pos hp]
        simp only [bne_self_eq_false,Bool.false_eq_true,not_false_eq_true,List.dropWhile_cons_of_neg,
          List.takeWhile_cons_of_neg,List.append_nil]
        rw [ih (List.cons_ne_nil _ _) (fun x hx => hfree x (List.mem_cons_of_mem _ hx))
          (by simpa using hn)]

theorem pushFields_ok {fs : List Field} {buf s : Text} (h : pushFields buf fs = .ok s) :
    ∃ parts, List.Forall₂ (fun f p => Field.render f = .ok p) fs parts ∧ (∀ p ∈ parts, '|' ∉ p) ∧
      s = [('|' : Char)].intercalate (buf :: parts) := by
  induction fs generalizing buf with
  | nil =>
    cases h
    exact ⟨[],List.Forall₂.nil,by simp,List.intercalate_singleton.symm⟩
  | cons f fs ih =>
    unfold pushFields at h
    split at h
    · cases h
    · rename_i p hp
      obtain ⟨parts,hall,hfree,rfl⟩ := ih h
      refine ⟨p :: parts,List.Forall₂.cons hp hall,?_,?_⟩
      · rw [List.forall_mem_cons]
        exact ⟨render_no_bar hp,hfree⟩
      · cases parts with
        | nil => simp [List.intercalate]
        | cons q parts => simp [List.intercalate_cons_cons]

/-- A message is its tag and the texts of its fields, and splits into them. -/
theorem canonicalV1_ok {tag s : Text} {fs : List Field} (h : canonicalV1 tag fs = .ok s) :
    ∃ parts, List.Forall₂ (fun f p => Field.render f = .ok p) fs parts ∧
      s.splitOn '|' = tag :: parts ∧ splitFieldsExact s (fs.length + 1) = .ok (tag :: parts) := by
  unfold canonicalV1 at h
  split at h
  · cases h
  · rename_i u htag
    obtain ⟨parts,hall,hbars,rfl⟩ := pushFields_ok h
    have hfree : ∀ p ∈ tag :: parts, '|' ∉ p := by
      rw [List.forall_mem_cons]
      exact ⟨tag_no_bar htag,hbars⟩
    have hlen := hall.length_eq
    refine ⟨parts,hall,List.splitOn_intercalate '|' hfree (List.cons_ne_nil _ _),?_⟩
    have hsplit := splitN_intercalate (n := fs.length + 1 + 1) (List.cons_ne_nil tag parts) hfree
      (by simp only [List.length_cons]; omega)
    unfold splitFieldsExact
    rw [if_neg (by omega)]
    simp only [hsplit]
    rw [if_neg]
    simp [hlen]

theorem same_of_parts {fs fs' : List Field} {parts : List Text}
    (h : List.Forall₂ (fun f p => Field.render f = .ok p) fs parts)
    (h' : List.Forall₂ (fun f p => Field.render f = .ok p) fs' parts)
    (hk : fs.map Field.kind = fs'.map Field.kind) : List.Forall₂ Field.Same fs fs' := by
  induction h generalizing fs' with
  | nil =>
    cases h'
    exact .nil
  | cons hf _ ih =>
    cases h' with
    | cons hf' hrest =>
      simp only [List.map_cons,List.cons.injEq] at hk
      exact .cons (render_same hk.1 hf hf') (ih hrest hk.2)

/-- Two builds of one shape that give the same message are of the same tag and
the same values, and the message splits into the tag and the fields' texts. -/
theorem canonicalV1_injective (tag tag' : Text) (fs fs' : List Field) (s : Text)
    (hkinds : fs.map Field.kind = fs'.map Field.kind) (h : canonicalV1 tag fs = .ok s)
    (h' : canonicalV1 tag' fs' = .ok s) :
    tag = tag' ∧ List.Forall₂ Field.Same fs fs' ∧
    ∃ parts, List.Forall₂ (fun f p => Field.render f = .ok p) fs parts ∧
      splitFieldsExact s (fs.length + 1) = .ok (tag :: parts) := by
  obtain ⟨parts,hall,hsplit,hexact⟩ := canonicalV1_ok h
  obtain ⟨parts',hall',hsplit',_⟩ := canonicalV1_ok h'
  have hsame := hsplit.symm.trans hsplit'
  rw [List.cons.injEq] at hsame
  obtain ⟨rfl,rfl⟩ := hsame
  exact ⟨rfl,same_of_parts hall hall' hkinds,parts,hall,hexact⟩

theorem canonicalV1_roles {items : List Text} (hc : checkItems items = .ok ())
    (hsort : sortUtf16 items = ["a".toList,"b".toList]) :
    canonicalV1 "flagship/x/v1".toList [.text "harry".toList,.list items true] =
      .ok "flagship/x/v1|harry|a,b".toList := by
  have htag : validatePurposeTag "flagship/x/v1".toList .flagshipOrLegacyPb = .ok () := by
    decide +kernel
  have hlist : (Field.list items true).render = .ok "a,b".toList := by
    rw [Field.render,hc,if_pos rfl,hsort]
    decide +kernel
  rw [canonicalV1,htag]
  simp only [pushFields,hlist]
  decide +kernel

theorem sortUtf16_two {a b : Text} (h : List.lex (encodeUtf16 a) (encodeUtf16 b) = true)
    (h' : List.lex (encodeUtf16 b) (encodeUtf16 a) = false) :
    sortUtf16 [a,b] = [a,b] ∧ sortUtf16 [b,a] = [a,b] := by
  constructor
  · simp [sortUtf16,List.mergeSort,List.MergeSort.Internal.splitInTwo,h']
  · simp [sortUtf16,List.mergeSort,List.MergeSort.Internal.splitInTwo,h]

theorem canonicalV1_injective_roles :
    List.Forall₂ Field.Same [.text "harry".toList,.list ["b".toList,"a".toList] true]
      [.text "harry".toList,.list ["a".toList,"b".toList] true] :=
  (canonicalV1_injective "flagship/x/v1".toList "flagship/x/v1".toList
    [.text "harry".toList,.list ["b".toList,"a".toList] true]
    [.text "harry".toList,.list ["a".toList,"b".toList] true]
    "flagship/x/v1|harry|a,b".toList rfl
    (canonicalV1_roles (by decide +kernel) (sortUtf16_two (by decide +kernel) (by decide +kernel)).2)
    (canonicalV1_roles (by decide +kernel)
      (sortUtf16_two (by decide +kernel) (by decide +kernel)).1)).2.1

end Proofs
end Flagship.Protocol

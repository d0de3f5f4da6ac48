import Flagship.Gate.Decide

namespace Flagship.Gate.Proofs
open Lib Access

theorem hexVal_some {b v : UInt8} (h : hexVal b = some v) :
    b.toNat < 128 ∧ v.toNat < 16 ∧ (v.toNat = 2 → b.toNat = 50) ∧ (v.toNat = 5 → b.toNat = 53) := by
  unfold hexVal at h
  simp only [UInt8.le_iff_toNat_le,UInt8.reduceToNat] at h
  split at h
  · rename_i hr
    obtain rfl := Option.some.inj h
    have hs : (b - 48).toNat = b.toNat - 48 :=
      UInt8.toNat_sub_of_le _ _ (UInt8.le_iff_toNat_le.mpr hr.1)
    omega
  · split at h
    · rename_i hr
      obtain rfl := Option.some.inj h
      have hs : (b - 97).toNat = b.toNat - 97 :=
        UInt8.toNat_sub_of_le _ _ (UInt8.le_iff_toNat_le.mpr hr.1)
      simp only [UInt8.toNat_add,hs,UInt8.reduceToNat]
      omega
    · split at h
      · rename_i hr
        obtain rfl := Option.some.inj h
        have hs : (b - 65).toNat = b.toNat - 65 :=
          UInt8.toNat_sub_of_le _ _ (UInt8.le_iff_toNat_le.mpr hr.1)
        simp only [UInt8.toNat_add,hs,UInt8.reduceToNat]
        omega
      · cases h

theorem decodeBytes_cons {b : UInt8} (h : b ≠ 37) (rest : Bytes) :
    decodeBytes (b :: rest) = (decodeBytes rest).map (b :: ·) := by
  conv_lhs => unfold decodeBytes
  split
  · rename_i heq
    cases heq
  · rename_i heq
    exact absurd (List.cons.inj heq).1 h
  · rename_i heq
    exact absurd (List.cons.inj heq).1 h
  · rename_i heq
    obtain ⟨rfl,rfl⟩ := List.cons.inj heq
    rfl

/-- Bytes that are no percent sign pass through. -/
theorem decodeBytes_append {bs : Bytes} (h : ∀ b ∈ bs,b ≠ 37) (rest : Bytes) :
    decodeBytes (bs ++ rest) = (decodeBytes rest).map (bs ++ ·) := by
  induction bs with
  | nil => simp
  | cons b bs ih =>
    have hb : b ≠ 37 := h b List.mem_cons_self
    rw [List.cons_append,decodeBytes_cons hb,ih fun x hx => h x (List.mem_cons_of_mem _ hx)]
    cases decodeBytes rest <;> rfl

theorem decodeBytes_self {bs : Bytes} (h : ∀ b ∈ bs,b ≠ 37) : decodeBytes bs = some bs := by
  have happ := decodeBytes_append h []
  rw [List.append_nil] at happ
  rw [happ]
  simp [decodeBytes]

theorem decodeBytes_percent {bs out : Bytes} (h : decodeBytes (37 :: bs) = some out) :
    ∃ hi lo rest h' l' out',bs = hi :: lo :: rest ∧ hexVal hi = some h' ∧ hexVal lo = some l' ∧
      decodeBytes rest = some out' ∧ out = (h' * 16 + l') :: out' := by
  match bs with
  | [] => simp [decodeBytes] at h
  | [_] => simp [decodeBytes] at h
  | hi :: lo :: rest =>
    simp only [decodeBytes,Option.bind_eq_bind,Option.bind_eq_some_iff,Option.some.injEq] at h
    obtain ⟨h',hhi,l',hlo,out',hrest,rfl⟩ := h
    exact ⟨hi,lo,rest,h',l',out',rfl,hhi,hlo,hrest,rfl⟩

/-- A percent sign is decoded only from one that was encoded. -/
theorem percent_of_decoded {s : Text} {out : Bytes} (h : decodeBytes (utf8Bytes s) = some out)
    (hm : (37 : UInt8) ∈ out) : ['%','2','5'] <:+: s := by
  induction hn : s.length using Nat.strong_induction_on generalizing s out with
  | _ n ih =>
    cases s with
    | nil =>
      simp only [utf8Bytes,List.flatMap_nil,decodeBytes,Option.some.injEq] at h
      subst h
      cases hm
    | cons c s =>
      have hlen : s.length < n := by
        rw [← hn]
        exact Nat.lt_succ_self _
      have hbytes : utf8Bytes (c :: s) = String.utf8EncodeChar c ++ utf8Bytes s :=
        List.flatMap_cons
      by_cases hc : (37 : UInt8) ∈ String.utf8EncodeChar c
      · obtain ⟨hone,hval⟩ := utf8EncodeChar_of_ascii hc (by decide)
        obtain rfl : c = '%' := Char.toNat_inj.mp hval
        rw [hbytes,hone,List.singleton_append] at h
        obtain ⟨hi,lo,rest,h',l',out',hbs,hhi,hlo,hrest,rfl⟩ := decodeBytes_percent h
        obtain ⟨hhi128,hhi16,hhi2,_⟩ := hexVal_some hhi
        obtain ⟨hlo128,hlo16,_,hlo5⟩ := hexVal_some hlo
        obtain ⟨c1,s1,rfl,hc1,hs1⟩ := utf8Bytes_head hbs hhi128
        obtain ⟨c2,s2,rfl,hc2,hs2⟩ := utf8Bytes_head hs1 hlo128
        rcases List.mem_cons.mp hm with hhead | hm
        · have hsum : (37 : UInt8).toNat = h'.toNat * 16 + l'.toNat := by
            rw [hhead]
            simp only [UInt8.toNat_add,UInt8.toNat_mul,UInt8.reduceToNat]
            omega
          simp only [UInt8.reduceToNat] at hsum
          obtain rfl : c1 = '2' := Char.toNat_inj.mp (hc1.trans (hhi2 (by omega)))
          obtain rfl : c2 = '5' := Char.toNat_inj.mp (hc2.trans (hlo5 (by omega)))
          exact ⟨[],s2,rfl⟩
        · have hshort : s2.length < n := by
            simp only [List.length_cons] at hlen
            omega
          obtain ⟨a,b,hab⟩ := ih s2.length hshort (by rw [hs2]; exact hrest) hm rfl
          exact ⟨'%' :: c1 :: c2 :: a,b,by rw [← hab]; rfl⟩
      · rw [hbytes,decodeBytes_append fun b hb he => hc (he ▸ hb)] at h
        obtain ⟨out',hout,rfl⟩ := Option.map_eq_some_iff.mp h
        rcases List.mem_append.mp hm with hm | hm
        · exact absurd hm hc
        · obtain ⟨a,b,hab⟩ := ih s.length hlen hout hm rfl
          exact ⟨c :: a,b,by rw [← hab]; rfl⟩

/-- The parts of a path between its slashes, the empty ones left out. -/
def segments (path : Text) : List Text := (path.splitOn '/').filter fun seg => !seg.isEmpty

theorem mem_segments {path seg : Text} (h : seg ∈ segments path) :
    seg ∈ path.splitOn '/' ∧ seg ≠ [] ∧ '/' ∉ seg := by
  obtain ⟨hmem,hne⟩ := List.mem_filter.mp h
  exact ⟨hmem,by simpa using hne,not_mem_of_mem_splitOn hmem⟩

theorem containsText_iff {part s : Text} : containsText part s = true ↔ part <:+: s := by
  simp only [containsText,List.any_eq_true,List.mem_tails,decide_eq_true_eq]
  constructor
  · rintro ⟨t,ht,hp⟩
    exact hp.isInfix.trans ht.isInfix
  · rintro ⟨a,b,rfl⟩
    exact ⟨part ++ b,⟨a,by simp⟩,List.prefix_append part b⟩

/-- What a path is like that can be compared, once it is decoded. -/
structure Comparable (decoded : Text) : Prop where
  no_percent : '%' ∉ decoded
  plain : ∀ c ∈ decoded,0x1f < c.toNat ∧ c.toNat ≠ 0x7f ∧ c ≠ '\\'
  no_dots : ∀ seg ∈ decoded.splitOn '/',dotSegment seg = false

theorem normalizePublicPath_some {path out : Text} (h : normalizePublicPath path = some out) :
    ∃ decoded,decodeOnce path = some decoded ∧ Comparable decoded ∧
      out = '/' :: ['/'].intercalate (segments decoded) := by
  unfold normalizePublicPath at h
  dsimp only at h
  split at h
  · cases h
  split at h
  · cases h
  rename_i hencoded
  split at h
  · cases h
  rename_i decoded hdecoded
  split at h
  · cases h
  rename_i hplain
  split at h
  · cases h
  rename_i hdots
  simp only [not_or] at hencoded
  refine ⟨decoded,hdecoded,⟨?_,?_,?_⟩,(Option.some.inj h).symm⟩
  · intro hmem
    obtain ⟨bs,hbs,htext⟩ := Option.bind_eq_some_iff.mp hdecoded
    have hbyte : (37 : UInt8) ∈ bs := by
      rw [← utf8Bytes_of_utf8Text htext]
      exact List.mem_flatMap.mpr ⟨'%',hmem,by decide⟩
    obtain ⟨a,b,hab⟩ := percent_of_decoded hbs hbyte
    refine hencoded.2.2 (containsText_iff.mpr ⟨asciiLower a,asciiLower b,?_⟩)
    rw [← hab]
    simp [asciiLower]
  · intro c hc
    simp only [List.any_eq_true,not_exists,not_and,Bool.or_eq_true,decide_eq_true_eq,beq_iff_eq,
      not_or,not_le] at hplain
    obtain ⟨⟨hlow,hdel⟩,hback⟩ := hplain c hc
    exact ⟨hlow,hdel,hback⟩
  · intro seg hseg
    by_contra hdot
    exact hdots (List.any_eq_true.mpr ⟨seg,hseg,by simpa using hdot⟩)

theorem splitOn_joined {segs : List Text} (h : ∀ seg ∈ segs,seg ≠ [] ∧ '/' ∉ seg) :
    ('/' :: ['/'].intercalate segs).splitOn '/' =
      [] :: (if segs = [] then [[]] else segs) := by
  rw [List.splitOn_cons_eq_if_modifyHead,if_pos (by simp)]
  split
  · rename_i hnil
    subst hnil
    rfl
  · rename_i hne
    rw [List.splitOn_intercalate '/' (fun seg hseg => (h seg hseg).2) hne]

/-- The joined segments are read back. -/
theorem segments_joined {segs : List Text} (h : ∀ seg ∈ segs,seg ≠ [] ∧ '/' ∉ seg) :
    segments ('/' :: ['/'].intercalate segs) = segs := by
  unfold segments
  rw [splitOn_joined h]
  split
  · rename_i hnil
    subst hnil
    rfl
  · rw [List.filter_cons_of_neg (by simp)]
    exact List.filter_eq_self.mpr fun seg hseg => by simpa using (h seg hseg).1

theorem mem_joined {segs : List Text} {c : Char} (h : c ∈ '/' :: ['/'].intercalate segs) :
    c = '/' ∨ ∃ seg ∈ segs,c ∈ seg := by
  rcases List.mem_cons.mp h with rfl | h
  · exact .inl rfl
  · induction segs with
    | nil => simp [List.intercalate] at h
    | cons a rest ih =>
      cases rest with
      | nil => exact .inr ⟨a,by simp,by simpa [List.intercalate] using h⟩
      | cons b rest =>
        rw [List.intercalate_cons_cons] at h
        simp only [List.append_assoc,List.mem_append,List.mem_singleton] at h
        rcases h with h | rfl | h
        · exact .inr ⟨a,by simp,h⟩
        · exact .inl rfl
        · rcases ih (List.mem_cons_of_mem _ h) h with hc | ⟨seg,hseg,hc⟩
          · exact .inl hc
          · exact .inr ⟨seg,List.mem_cons_of_mem _ hseg,hc⟩

theorem decodeOnce_of_no_percent {s : Text} (h : '%' ∉ s) : decodeOnce s = some s := by
  have hbytes : ∀ b ∈ utf8Bytes s,b ≠ 37 := by
    rintro b hb rfl
    obtain ⟨c,hc,hval⟩ := mem_of_mem_utf8Bytes hb (by decide)
    have hpercent : c = '%' := Char.toNat_inj.mp hval
    exact h (hpercent ▸ hc)
  rw [decodeOnce,decodeBytes_self hbytes,Option.bind_some,utf8Text_utf8Bytes]

theorem not_containsText {part s : Text} (hp : '%' ∈ part) (h : '%' ∉ s) :
    containsText part (asciiLower s) = false := by
  rw [Bool.eq_false_iff]
  intro hc
  have hmem : '%' ∈ asciiLower s := (containsText_iff.mp hc).subset hp
  obtain ⟨c,hcs,hlow⟩ := List.mem_map.mp hmem
  have hval : c = '%' := (toLower_eq_iff (by decide)).mp hlow
  exact h (hval ▸ hcs)

/-- A comparable path that starts with a slash is normalised to its segments. -/
theorem normalizePublicPath_of_comparable {path : Text} (hhead : path.head? = some '/')
    (h : Comparable path) :
    normalizePublicPath path = some ('/' :: ['/'].intercalate (segments path)) := by
  unfold normalizePublicPath
  dsimp only
  have hback : path.contains '\\' = false := by
    rw [Bool.eq_false_iff]
    intro hc
    exact (h.plain _ (List.contains_iff_mem.mp hc)).2.2 rfl
  rw [if_neg (by rw [hhead,hback]; simp)]
  rw [if_neg (by
    rw [not_containsText (by decide) h.no_percent,not_containsText (by decide) h.no_percent,
      not_containsText (by decide) h.no_percent]
    simp)]
  rw [decodeOnce_of_no_percent h.no_percent]
  dsimp only
  rw [if_neg,if_neg]
  · rfl
  · simp only [List.any_eq_true,not_exists,not_and]
    intro seg hseg hdot
    rw [h.no_dots seg hseg] at hdot
    cases hdot
  · simp only [List.any_eq_true,not_exists,not_and,Bool.or_eq_true,decide_eq_true_eq,beq_iff_eq,
      not_or,not_le]
    intro c hc
    obtain ⟨hlow,hdel,hne⟩ := h.plain c hc
    exact ⟨⟨hlow,hdel⟩,hne⟩

theorem Comparable.joined {decoded : Text} (h : Comparable decoded) :
    Comparable ('/' :: ['/'].intercalate (segments decoded)) := by
  have hmem : ∀ {c : Char},c ∈ '/' :: ['/'].intercalate (segments decoded) →
      c = '/' ∨ c ∈ decoded := by
    intro c hc
    rcases mem_joined hc with rfl | ⟨seg,hseg,hc⟩
    · exact .inl rfl
    · exact .inr (mem_of_mem_splitOn (mem_segments hseg).1 hc)
  have hsegs : ∀ seg ∈ segments decoded,seg ≠ [] ∧ '/' ∉ seg := fun seg hseg =>
    (mem_segments hseg).2
  refine ⟨?_,?_,?_⟩
  · intro hc
    rcases hmem hc with hc | hc
    · cases hc
    · exact h.no_percent hc
  · intro c hc
    rcases hmem hc with rfl | hc
    · decide
    · exact h.plain c hc
  · intro seg hseg
    rw [splitOn_joined hsegs] at hseg
    have hempty : dotSegment [] = false := by decide
    rcases List.mem_cons.mp hseg with rfl | hseg
    · exact hempty
    · split at hseg
      · rw [List.mem_singleton.mp hseg]
        exact hempty
      · exact h.no_dots seg (mem_segments hseg).1

theorem normalizePublicPath_idempotent {path out : Text}
    (h : normalizePublicPath path = some out) : normalizePublicPath out = some out := by
  obtain ⟨decoded,_,hcomparable,rfl⟩ := normalizePublicPath_some h
  have hsegs : ∀ seg ∈ segments decoded,seg ≠ [] ∧ '/' ∉ seg := fun seg hseg =>
    (mem_segments hseg).2
  rw [normalizePublicPath_of_comparable rfl hcomparable.joined,segments_joined hsegs]

theorem segments_append (a b : Text) : segments (a ++ '/' :: b) = segments a ++ segments b := by
  unfold segments
  rw [List.splitOn_append_cons_self,List.filter_append]

/-- Where a joined path is under another, its segments start with the other's. -/
theorem segments_of_under {head segs : List Text} (hh : ∀ seg ∈ head,seg ≠ [] ∧ '/' ∉ seg)
    (hs : ∀ seg ∈ segs,seg ≠ [] ∧ '/' ∉ seg)
    (h : '/' :: ['/'].intercalate head = ['/'] ∨
      '/' :: ['/'].intercalate segs = '/' :: ['/'].intercalate head ∨
      ('/' :: ['/'].intercalate head ++ ['/']) <+: '/' :: ['/'].intercalate segs) :
    head <+: segs := by
  have hread := segments_joined hh
  have hread' := segments_joined hs
  rcases h with hroot | hsame | ⟨rest,hrest⟩
  · rw [hroot] at hread
    have hnil : head = [] := hread.symm.trans (by decide)
    rw [hnil]
    exact List.nil_prefix
  · rw [hsame,hread] at hread'
    rw [hread']
  · rw [← hrest,List.append_assoc,List.singleton_append,segments_append,hread] at hread'
    exact ⟨segments rest,hread'⟩

theorem routeMatches_segments {decoded route : Text}
    (h : routeMatches ('/' :: ['/'].intercalate (segments decoded)) route = true) :
    (∀ p,route = p ++ "/*".toList → ∃ stem,decodeOnce p = some stem ∧
      segments stem <+: segments decoded) ∧
    (¬ "/*".toList <:+ route → ∃ exact,decodeOnce route = some exact ∧
      segments exact = segments decoded) := by
  have hsegs : ∀ (s : Text),∀ seg ∈ segments s,seg ≠ [] ∧ '/' ∉ seg := fun s seg hseg =>
    (mem_segments hseg).2
  unfold routeMatches at h
  split at h
  · rename_i hsuffix
    refine ⟨?_,fun hnot => absurd hsuffix hnot⟩
    rintro p rfl
    have htake : (p ++ "/*".toList).take ((p ++ "/*".toList).length - 2) = p := by simp
    rw [htake] at h
    dsimp only at h
    split at h
    · cases h
    · rename_i head hhead
      obtain ⟨stem,hstem,_,rfl⟩ := normalizePublicPath_some hhead
      have hunder := segments_of_under (hsegs stem) (hsegs decoded) (of_decide_eq_true h)
      split at hstem
      · rename_i hp
        rw [hp]
        refine ⟨[],rfl,?_⟩
        exact List.nil_prefix
      · exact ⟨stem,hstem,hunder⟩
  · rename_i hsuffix
    refine ⟨fun p hp => absurd ⟨p,hp.symm⟩ hsuffix,fun _ => ?_⟩
    obtain ⟨exact',hexact,_,hout⟩ := normalizePublicPath_some (of_decide_eq_true h)
    refine ⟨exact',hexact,?_⟩
    have hread := congrArg segments hout
    rw [segments_joined (hsegs decoded),segments_joined (hsegs exact')] at hread
    exact hread.symm

/-- A request path that is public has no dot segment and, once decoded, starts with
the segments of a route that lets it through; and normalising a path again changes
nothing. -/
theorem public_routes_are_not_escaped :
    (∀ (rawPath : Text) (routes : List Text),matchesPublicRoute rawPath routes = true →
      ∃ path,decodeOnce (stripQuery rawPath) = some path ∧
        (∀ seg ∈ path.splitOn '/',seg.takeWhile (fun c => c != ';') ≠ ".".toList ∧
          seg.takeWhile (fun c => c != ';') ≠ "..".toList) ∧
        ∃ route ∈ routes,
          (∀ p,route = p ++ "/*".toList → ∃ stem,decodeOnce p = some stem ∧
            segments stem <+: segments path) ∧
          (¬ "/*".toList <:+ route → ∃ exact,decodeOnce route = some exact ∧
            segments exact = segments path)) ∧
    ∀ path out : Text,normalizePublicPath path = some out → normalizePublicPath out = some out := by
  refine ⟨?_,fun _ _ h => normalizePublicPath_idempotent h⟩
  intro rawPath routes h
  unfold matchesPublicRoute at h
  split at h
  · cases h
  · rename_i path hpath
    obtain ⟨decoded,hdecoded,hcomparable,rfl⟩ := normalizePublicPath_some hpath
    obtain ⟨route,hroute,hmatch⟩ := List.any_eq_true.mp h
    refine ⟨decoded,hdecoded,?_,route,hroute,routeMatches_segments hmatch⟩
    intro seg hseg
    have hdot := hcomparable.no_dots seg hseg
    unfold dotSegment at hdot
    simpa using hdot

theorem public_routes_are_not_escaped_below :
    ∃ path,decodeOnce (stripQuery "/a/b?c".toList) = some path ∧
      segments "/a".toList <+: segments path := by
  have hmatch : matchesPublicRoute "/a/b?c".toList ["/a/*".toList] = true := by decide +kernel
  obtain ⟨path,hpath,_,route,hroute,hstem,_⟩ :=
    public_routes_are_not_escaped.1 "/a/b?c".toList ["/a/*".toList] hmatch
  obtain ⟨stem,hdecoded,hbegins⟩ := hstem "/a".toList (List.mem_singleton.mp hroute)
  have hself : decodeOnce "/a".toList = some "/a".toList :=
    decodeOnce_of_no_percent (by decide)
  rw [hself] at hdecoded
  cases hdecoded
  exact ⟨path,hpath,hbegins⟩

end Flagship.Gate.Proofs

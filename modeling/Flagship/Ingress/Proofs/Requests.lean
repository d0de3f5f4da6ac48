import Flagship.Ingress.Proofs.Heads

namespace Flagship.Ingress
open Lib Gate

/-- A header as the parser leaves it. -/
structure HeaderOk (h : Text × Text) : Prop extends LineOk h where
  lower : asciiLower h.1 = h.1
  plain : h.1 ∉ prototypeNames

/-- Each name stands once. -/
structure HeadersOk (headers : Headers) : Prop where
  each : ∀ h ∈ headers,HeaderOk h
  once : (headers.map Prod.fst).Nodup

theorem headersOk_nil : HeadersOk [] := ⟨by simp,List.nodup_nil⟩

section
variable {headers : Headers} {k v : Text} {f : Option Text → Text} {h : Text × Text}

theorem keys_upsert : (upsert k f headers).map Prod.fst =
    if k ∈ headers.map Prod.fst then headers.map Prod.fst else headers.map Prod.fst ++ [k] := by
  induction headers with
  | nil => simp [upsert]
  | cons h headers ih =>
    obtain ⟨k',v'⟩ := h
    rw [upsert]
    by_cases heq : k' = k
    · simp [heq]
    · rw [if_neg heq,List.map_cons,ih]
      by_cases hmem : k ∈ headers.map Prod.fst
      · rw [if_pos hmem,List.map_cons,if_pos (List.mem_cons_of_mem _ hmem)]
      · rw [if_neg hmem,List.map_cons,if_neg]
        · rfl
        · rw [List.mem_cons,not_or]
          exact ⟨Ne.symm heq,hmem⟩

theorem mem_upsert (hmem : h ∈ upsert k f headers) :
    h ∈ headers ∨ h = (k,f none) ∨ ∃ v,(k,v) ∈ headers ∧ h = (k,f (some v)) := by
  induction headers with
  | nil => exact Or.inr (Or.inl (List.mem_singleton.mp hmem))
  | cons h' headers ih =>
    obtain ⟨k',v'⟩ := h'
    rw [upsert] at hmem
    split at hmem
    · next heq =>
      subst heq
      rcases List.mem_cons.mp hmem with rfl | hmem
      · exact Or.inr (Or.inr ⟨v',List.mem_cons_self,rfl⟩)
      · exact Or.inl (List.mem_cons_of_mem _ hmem)
    · rcases List.mem_cons.mp hmem with rfl | hmem
      · exact Or.inl List.mem_cons_self
      · rcases ih hmem with h | h | ⟨v,hv,h⟩
        · exact Or.inl (List.mem_cons_of_mem _ h)
        · exact Or.inr (Or.inl h)
        · exact Or.inr (Or.inr ⟨v,List.mem_cons_of_mem _ hv,h⟩)

theorem upsert_new (hk : k ∉ headers.map Prod.fst) : upsert k f headers = headers ++ [(k,f none)] := by
  induction headers with
  | nil => rfl
  | cons h headers ih =>
    rw [List.map_cons,List.mem_cons,not_or] at hk
    rw [upsert,if_neg (Ne.symm hk.1),ih hk.2]
    rfl

theorem upsert_append {front : Headers} (hk : k ∉ front.map Prod.fst) :
    upsert k f (front ++ headers) = front ++ upsert k f headers := by
  induction front with
  | nil => rfl
  | cons h front ih =>
    rw [List.map_cons,List.mem_cons,not_or] at hk
    rw [List.cons_append,upsert,if_neg (Ne.symm hk.1),ih hk.2]
    rfl

/-- A header is set, to a value that can stand there. -/
theorem HeadersOk.upsert (hok : HeadersOk headers) (hnone : HeaderOk (k,f none))
    (hsome : ∀ v,(k,v) ∈ headers → HeaderOk (k,f (some v))) :
    HeadersOk (upsert k f headers) := by
  constructor
  · intro h hmem
    rcases mem_upsert hmem with h' | rfl | ⟨v,hv,rfl⟩
    · exact hok.each h h'
    · exact hnone
    · exact hsome v hv
  · rw [keys_upsert]
    split
    · exact hok.once
    next hnot =>
      refine List.Nodup.append hok.once (List.nodup_singleton k) ?_
      rw [List.disjoint_singleton]
      exact hnot

theorem isTchar_toLower {c : Char} (h : isTchar c.toNat = true) :
    isTchar c.toLower.toNat = true := by
  have hall : ∀ n < 128,isTchar n = true → isTchar (Char.ofNat n).toLower.toNat = true := by decide
  have hc := hall c.toNat (isTchar_lt h) h
  rw [Char.ofNat_toNat] at hc
  exact hc

theorem asciiLower_asciiLower (s : Text) : asciiLower (asciiLower s) = asciiLower s := by
  rw [asciiLower,asciiLower,List.map_map]
  exact List.map_congr_left fun c _ => toLower_toLower c

theorem LineOk.lowered (hok : LineOk (k,v)) : LineOk (asciiLower k,v) := by
  refine ⟨?_,?_,hok.safe,hok.latin⟩
  · rw [asciiLower,ne_eq,List.map_eq_nil_iff]
    exact hok.nonempty
  · intro c hc
    obtain ⟨d,hd,rfl⟩ := List.mem_map.mp hc
    exact isTchar_toLower (hok.token d hd)

theorem HeaderOk.combine (hv : HeaderOk (k,v)) {prev : Text} (hprev : HeaderOk (k,prev)) :
    HeaderOk (k,combine k v (some prev)) := by
  have hsep : ∀ c ∈ (if k = "cookie".toList then "; ".toList else ", ".toList),
      safeChar c.toNat = true ∧ c.toNat < 256 := by
    split <;> decide
  refine ⟨⟨hv.nonempty,hv.token,?_,?_⟩,hv.lower,hv.plain⟩
  · intro c hc
    rcases List.mem_append.mp hc with hc | hc
    · rcases List.mem_append.mp hc with hc | hc
      · exact hprev.safe c hc
      · exact (hsep c hc).1
    · exact hv.safe c hc
  · exact (hprev.latin.append fun c hc => (hsep c hc).2).append hv.latin

theorem HeadersOk.addLine {line : Bytes} {headers' : Headers} (hok : HeadersOk headers)
    (h : addLine headers line = some headers') : HeadersOk headers' := by
  simp only [Ingress.addLine,Option.bind_eq_bind,Option.bind_eq_some_iff] at h
  obtain ⟨⟨name,value⟩,hline,h⟩ := h
  dsimp only at h
  split at h
  · cases h
  next hplain =>
    cases h
    have hnew : HeaderOk (asciiLower (latin1 name),latin1 value) :=
      ⟨(lineOk_of_headerLine hline).lowered,asciiLower_asciiLower _,by simpa using hplain⟩
    exact hok.upsert hnew fun v hv => hnew.combine (hok.each _ hv)

theorem HeadersOk.foldlM {lines : List Bytes} {headers' : Headers} (hok : HeadersOk headers)
    (h : lines.foldlM Ingress.addLine headers = some headers') : HeadersOk headers' := by
  induction lines generalizing headers with
  | nil =>
    cases h
    exact hok
  | cons line lines ih =>
    rw [List.foldlM_cons,Option.bind_eq_bind,Option.bind_eq_some_iff] at h
    obtain ⟨next,hnext,h⟩ := h
    exact ih (hok.addLine hnext) h

end

/-- A method and a target that can stand on a request line. -/
structure RequestOk (method target : Text) : Prop where
  nonempty : method ≠ []
  token : ∀ c ∈ method,isTchar c.toNat = true
  slash : target.head? = some '/'
  noSpace : ∀ c ∈ target,jsSpace c.toNat = false
  latin : IsLatin1 target

theorem RequestOk.method_latin {method target : Text} (hok : RequestOk method target) :
    IsLatin1 method := by
  intro c hc
  have := isTchar_lt (hok.token c hc)
  omega

theorem requestOk_of_requestLine {first method target : Bytes} {version : Version}
    (h : requestLine first = some (method,target,version)) :
    RequestOk (latin1 method) (latin1 target) := by
  rw [requestLine] at h
  split at h
  · cases h
  dsimp only at h
  split at h
  · cases h
  next hmethod =>
  split at h
  · cases h
  split at h
  · cases h
  next htarget =>
    cases h
    simp only [Bool.or_eq_true,List.isEmpty_iff,Bool.not_eq_true',not_or,Bool.not_eq_false] at hmethod
    simp only [Bool.or_eq_true,bne_iff_ne,ne_eq,not_or,Decidable.not_not,Bool.not_eq_true] at htarget
    refine ⟨?_,?_,?_,?_,isLatin1_latin1 _⟩
    · rw [latin1,ne_eq,List.map_eq_nil_iff]
      exact hmethod.1
    · intro c hc
      obtain ⟨b,hb,rfl⟩ := List.mem_map.mp hc
      rw [toNat_ofNat_byte]
      exact List.all_eq_true.mp hmethod.2 b hb
    · rw [latin1,List.head?_map,htarget.1]
      rfl
    · intro c hc
      obtain ⟨b,hb,rfl⟩ := List.mem_map.mp hc
      rw [toNat_ofNat_byte]
      exact Bool.not_eq_true _ ▸ fun hsp => absurd (List.any_eq_true.mpr ⟨b,hb,hsp⟩)
        (by rw [htarget.2]; simp)

/-- A head that was parsed: what can be said of it. -/
theorem parsed_ok {block : Bytes} {head : RequestHead} (h : parseRequestHead block = some head) :
    RequestOk head.method head.target ∧ HeadersOk head.headers := by
  rw [parseRequestHead] at h
  split at h
  · cases h
  simp only [Option.bind_eq_bind,Option.bind_eq_some_iff] at h
  obtain ⟨⟨method,target,version⟩,hfirst,headers,hheaders,h⟩ := h
  cases h
  exact ⟨requestOk_of_requestLine hfirst,headersOk_nil.foldlM hheaders⟩

/-- A header as it is read back. -/
def trimmed (h : Text × Text) : Text × Text := (h.1,trimText h.2)

/-- The lines of a head, without their line breaks. -/
def requestLines (method target : Text) (headers : Headers) : Bytes × List Bytes :=
  (toLatin1 (method ++ ' ' :: target ++ versionSuffix .http11),
    headers.map fun h => toLatin1 (h.1 ++ ": ".toList ++ h.2))

section
variable {headers : Headers} {method target : Text}

theorem addLine_eq {h : Text × Text} (hok : HeaderOk h) (hnew : h.1 ∉ headers.map Prod.fst) :
    addLine headers (toLatin1 (h.1 ++ ": ".toList ++ h.2)) = some (headers ++ [trimmed h]) := by
  have hvalue : IsLatin1 (trimText h.2) := fun c hc => hok.latin c (mem_of_mem_trimEnds hc)
  simp only [addLine,headerLine_eq hok.toLineOk,Option.bind_eq_bind,Option.bind_some]
  rw [latin1_toLatin1 hok.name_latin,latin1_toLatin1 hvalue,hok.lower,if_neg,upsert_new hnew]
  · rfl
  · simpa using hok.plain

theorem foldlM_eq {front : Headers} (hok : ∀ h ∈ headers,HeaderOk h)
    (honce : ((front ++ headers).map Prod.fst).Nodup) :
    (headers.map fun h => toLatin1 (h.1 ++ ": ".toList ++ h.2)).foldlM addLine front =
      some (front ++ headers.map trimmed) := by
  induction headers generalizing front with
  | nil => simp
  | cons h headers ih =>
    have hnew : h.1 ∉ front.map Prod.fst := by
      rw [List.map_append,List.map_cons] at honce
      intro hmem
      exact List.disjoint_of_nodup_append honce hmem List.mem_cons_self
    rw [List.map_cons,List.foldlM_cons,addLine_eq (hok h List.mem_cons_self) hnew,
      Option.bind_eq_bind,Option.bind_some,ih fun h' hh => hok h' (List.mem_cons_of_mem _ hh)]
    · simp
    · simpa [trimmed] using honce

theorem requestLine_eq (hok : RequestOk method target) :
    requestLine (requestLines method target headers).1 =
      some (toLatin1 method,toLatin1 target,.http11) := by
  have hmethod := hok.method_latin
  have hsplit : (requestLines method target headers).1 =
      toLatin1 method ++ 0x20 :: (toLatin1 target ++ toLatin1 (versionSuffix .http11)) := by
    simp only [requestLines,toLatin1_append]
    simp [toLatin1]
  have hspace : ∀ b ∈ toLatin1 method,(b != 0x20) = true := by
    intro b hb
    rw [bne_iff_ne]
    rintro rfl
    exact not_mem_toLatin1 hmethod (fun c hc => isTchar_ne (hok.token c hc) (by decide)) hb
  have hname : (requestLines method target headers).1.takeWhile (· != 0x20) = toLatin1 method := by
    rw [hsplit,List.takeWhile_append_of_pos hspace]
    simp
  have htoken := all_toLatin1 hmethod hok.token
  have hne : (toLatin1 method).isEmpty = false := by
    rw [List.isEmpty_eq_false_iff,toLatin1,ne_eq,List.map_eq_nil_iff]
    exact hok.nonempty
  have hsuffix : toLatin1 (versionSuffix .http11) <:+
      toLatin1 target ++ toLatin1 (versionSuffix .http11) := List.suffix_append _ _
  have hlen : (toLatin1 (versionSuffix .http11)).length = 9 := by decide
  have hslash : (toLatin1 target).head? = some 0x2f := by
    rw [toLatin1,List.head?_map,hok.slash]
    rfl
  have hspaces : (toLatin1 target).any (fun b => jsSpace b.toNat) = false := by
    rw [List.any_eq_false]
    intro b hb
    obtain ⟨c,hc,heq⟩ := mem_toLatin1 hok.latin hb
    rw [heq,hok.noSpace c hc]
    simp
  rw [requestLine,hname,hsplit]
  simp only [List.drop_left,hne,htoken,if_pos hsuffix,List.length_append,hlen,Nat.add_sub_cancel]
  rw [List.take_left,hslash,hspaces]
  rfl

/-- No line of a head holds a carriage return. -/
theorem no_cr_lines (hreq : RequestOk method target) (hok : HeadersOk headers) :
    ∀ l ∈ (requestLines method target headers).1 :: (requestLines method target headers).2,
      (13 : UInt8) ∉ l := by
  have hmethod := hreq.method_latin
  intro l hl
  rcases List.mem_cons.mp hl with rfl | hl
  · refine not_mem_toLatin1 ?_ ?_
    · refine (hmethod.append ?_).append (by unfold IsLatin1; decide)
      intro c hc
      rcases List.mem_cons.mp hc with rfl | hc
      · decide
      · exact hreq.latin c hc
    · intro c hc heq
      rcases List.mem_append.mp hc with hc | hc
      · rcases List.mem_append.mp hc with hc | hc
        · exact isTchar_ne (hreq.token c hc) (by decide) heq
        · rcases List.mem_cons.mp hc with rfl | hc
          · revert heq
            decide
          · have hno := hreq.noSpace c hc
            rw [heq] at hno
            revert hno
            decide
      · have hall : ∀ c ∈ versionSuffix .http11,c.toNat ≠ (13 : UInt8).toNat := by decide
        exact hall c hc heq
  · obtain ⟨h,hh,rfl⟩ := List.mem_map.mp hl
    exact no_cr_line (hok.each h hh).toLineOk

/-- A head that is written is read back, its values trimmed. -/
theorem parseRequestHead_eq (hreq : RequestOk method target) (hok : HeadersOk headers) :
    parseRequestHead ((requestLines method target headers).1 ++
        (requestLines method target headers).2.flatMap (crlf ++ ·)) =
      some ⟨method,target,.http11,headers.map trimmed⟩ := by
  rw [parseRequestHead,splitCrlf_lines (no_cr_lines hreq hok)]
  simp only [requestLine_eq hreq,Option.bind_eq_bind,Option.bind_some]
  have hfold := @foldlM_eq headers [] hok.each hok.once
  rw [requestLines,hfold]
  simp [latin1_toLatin1 hreq.method_latin,latin1_toLatin1 hreq.latin]

end
end Flagship.Ingress

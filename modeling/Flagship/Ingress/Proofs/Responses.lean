import Flagship.Ingress.Proofs.Heads
import Flagship.Ingress.Responses

namespace Flagship.Ingress
open Lib Gate

/-- A header of an answer, its value trimmed. -/
structure RawOk (h : Text × Text) : Prop extends LineOk h where
  trimmed : trimText h.2 = h.2

section
variable {headers : Headers} {lines : List Bytes} {line name value : Bytes}

theorem headerLine_value (h : headerLine line = some (name,value)) :
    ∃ rest,value = jsTrim rest := by
  rw [headerLine] at h
  split at h
  · cases h
  next rest _ =>
    dsimp only at h
    split at h
    · cases h
    · cases h
      exact ⟨rest,rfl⟩

theorem trimText_latin1 (rest : Bytes) : trimText (latin1 (jsTrim rest)) = latin1 (jsTrim rest) := by
  have hsame : (fun b : UInt8 => jsSpace (Char.ofNat b.toNat).toNat) = fun b => jsSpace b.toNat := by
    funext b
    rw [toNat_ofNat_byte]
  rw [trimText,latin1,trimEnds_map,hsame,jsTrim,trimEnds_trimEnds]

theorem rawOk_of_rawHeader {h : Text × Text} (hraw : rawHeader line = some h) : RawOk h := by
  rw [rawHeader,Option.map_eq_some_iff] at hraw
  obtain ⟨⟨name,value⟩,hline,rfl⟩ := hraw
  refine ⟨lineOk_of_headerLine hline,?_⟩
  obtain ⟨rest,rfl⟩ := headerLine_value hline
  exact trimText_latin1 rest

theorem rawHeader_eq {h : Text × Text} (hok : RawOk h) :
    rawHeader (toLatin1 (h.1 ++ ": ".toList ++ h.2)) = some h := by
  rw [rawHeader,headerLine_eq hok.toLineOk,hok.trimmed]
  simp only [Option.map_some]
  rw [latin1_toLatin1 hok.name_latin,latin1_toLatin1 hok.latin]

theorem mapM_rawHeader {hs : Headers} (h : lines.mapM rawHeader = some hs) : ∀ h ∈ hs,RawOk h := by
  induction lines generalizing hs with
  | nil =>
    cases h
    simp
  | cons line lines ih =>
    rw [List.mapM_cons] at h
    simp only [Option.bind_eq_bind,Option.bind_eq_some_iff,Option.pure_def,Option.some.injEq] at h
    obtain ⟨first,hfirst,rest,hrest,rfl⟩ := h
    intro h' hh'
    rcases List.mem_cons.mp hh' with rfl | hh'
    · exact rawOk_of_rawHeader hfirst
    · exact ih hrest h' hh'

theorem mapM_rawHeader_eq (hok : ∀ h ∈ headers,RawOk h) :
    (headers.map fun h => toLatin1 (h.1 ++ ": ".toList ++ h.2)).mapM rawHeader = some headers := by
  induction headers with
  | nil => rfl
  | cons h headers ih =>
    rw [List.map_cons,List.mapM_cons,rawHeader_eq (hok h List.mem_cons_self),
      ih fun h' hh' => hok h' (List.mem_cons_of_mem _ hh')]
    rfl

end

/-- A status and a reason that can stand on a status line. -/
structure StatusOk (status : Nat) (reason : Text) : Prop where
  low : 100 ≤ status
  high : status ≤ 599
  safe : safeValue reason = true
  latin : IsLatin1 reason

theorem statusOk_of_responseLine {first : Bytes} {status : Nat} {reason : Text}
    (h : responseLine first = some (status,reason)) : StatusOk status reason := by
  rw [responseLine] at h
  dsimp only at h
  split at h
  · cases h
  split at h
  · cases h
  split at h
  · cases h
  next hrange =>
    simp only [Bool.or_eq_true,decide_eq_true_eq,not_or,not_lt] at hrange
    split at h
    · cases h
      exact ⟨hrange.1,hrange.2,rfl,fun c hc => absurd hc List.not_mem_nil⟩
    · split at h
      next hsafe =>
        cases h
        exact ⟨hrange.1,hrange.2,hsafe,isLatin1_latin1 _⟩
      · cases h
    · cases h

theorem parseDigits_append (s t : Text) :
    parseDigits (s ++ t) = t.foldl (fun n c => n * 10 + (c.toNat - 0x30)) (parseDigits s) :=
  List.foldl_append

theorem parseDigits_toDigits (n : Nat) : parseDigits (Nat.toDigits 10 n) = n := by
  have hdigit : ∀ d < 10,d.digitChar.toNat - 0x30 = d := by decide
  induction n using Nat.strong_induction_on with
  | _ n ih =>
  rw [Nat.toDigits_eq_if (by decide)]
  split
  · next hlt => simp [parseDigits,hdigit n hlt]
  · next hge =>
    rw [parseDigits_append,ih (n / 10) (by omega),List.foldl_cons,List.foldl_nil,
      hdigit (n % 10) (Nat.mod_lt _ (by decide))]
    omega

theorem length_status {status : Nat} (hlow : 100 ≤ status) (hhigh : status ≤ 599) :
    (Nat.toDigits 10 status).length = 3 := by
  have hle : (Nat.toDigits 10 status).length ≤ 3 :=
    (Nat.length_toDigits_le_iff (by decide) (by decide)).mpr (by omega)
  have hgt : ¬ (Nat.toDigits 10 status).length ≤ 2 := by
    rw [Nat.length_toDigits_le_iff (by decide) (by decide)]
    omega
  omega

section
variable {status : Nat} {reason : Text}

theorem isLatin1_digits (n : Nat) : IsLatin1 (Nat.toDigits 10 n) := by
  intro c hc
  exact (digit_facts (Nat.isDigit_of_mem_toDigits (by decide) (by decide) hc)).2.1

theorem toLatin1_statusLine (status : Nat) (reason : Text) :
    toLatin1 (statusLine status reason) = toLatin1 "HTTP/1.1 ".toList ++
      (toLatin1 (Nat.toDigits 10 status) ++ 0x20 :: toLatin1 reason) := by
  have hlast : toLatin1 (' ' :: reason) = 0x20 :: toLatin1 reason := by simp [toLatin1]
  have houter := @toLatin1_append ("HTTP/1.1 ".toList ++ Nat.toDigits 10 status) (' ' :: reason)
  have hinner := @toLatin1_append "HTTP/1.1 ".toList (Nat.toDigits 10 status)
  unfold statusLine
  rw [houter,hinner,hlast,List.append_assoc]

theorem responseLine_eq (hok : StatusOk status reason) :
    responseLine (toLatin1 (statusLine status reason)) = some (status,reason) := by
  have hsplit := toLatin1_statusLine status reason
  have hlen : (toLatin1 (Nat.toDigits 10 status)).length = 3 := by
    rw [toLatin1,List.length_map,length_status hok.low hok.high]
  have hpre : (toLatin1 "HTTP/1.1 ".toList).isPrefixOf (toLatin1 (statusLine status reason)) = true := by
    rw [List.isPrefixOf_iff_prefix,hsplit]
    exact List.prefix_append _ _
  have hrest : (toLatin1 (statusLine status reason)).drop 9 =
      toLatin1 (Nat.toDigits 10 status) ++ 0x20 :: toLatin1 reason := by
    rw [hsplit]
    exact List.drop_left' (by decide)
  have hcode : latin1 ((toLatin1 (Nat.toDigits 10 status) ++ 0x20 :: toLatin1 reason).take 3) =
      Nat.toDigits 10 status := by
    rw [← hlen,List.take_left,latin1_toLatin1 (isLatin1_digits status)]
  have htail : (toLatin1 (Nat.toDigits 10 status) ++ 0x20 :: toLatin1 reason).drop 3 =
      0x20 :: toLatin1 reason := by
    rw [← hlen,List.drop_left]
  have hall : (Nat.toDigits 10 status).all Char.isDigit = true := by
    rw [List.all_eq_true]
    exact fun c hc => Nat.isDigit_of_mem_toDigits (by decide) (by decide) hc
  rw [responseLine]
  simp only [hpre,hrest,hcode,hall,htail,parseDigits_toDigits,length_status hok.low hok.high,
    latin1_toLatin1 hok.latin,hok.safe]
  have hlow := hok.low
  have hhigh := hok.high
  simp [Nat.not_lt.mpr hlow,Nat.not_lt.mpr hhigh]

theorem defaultReason_ok (hlow : 100 ≤ status) (hhigh : status ≤ 599) :
    StatusOk status (defaultReason status) := by
  have hall : ∀ c ∈ statusCodes,safeValue c.2 = true ∧ ∀ d ∈ c.2,d.toNat < 256 := by decide
  rw [defaultReason]
  cases hfind : statusCodes.find? fun c => c.1 = status with
  | none => exact ⟨hlow,hhigh,by decide,by unfold IsLatin1; decide⟩
  | some c =>
    obtain ⟨hsafe,hlatin⟩ := hall c (List.mem_of_find?_eq_some hfind)
    exact ⟨hlow,hhigh,hsafe,hlatin⟩

theorem no_cr_statusLine (hok : StatusOk status reason) :
    (13 : UInt8) ∉ toLatin1 (statusLine status reason) := by
  have hfirst : IsLatin1 "HTTP/1.1 ".toList := by unfold IsLatin1; decide
  refine not_mem_toLatin1 ?_ ?_
  · refine (hfirst.append (isLatin1_digits status)).append ?_
    intro c hc
    rcases List.mem_cons.mp hc with rfl | hc
    · decide
    · exact hok.latin c hc
  · intro c hc
    rcases List.mem_append.mp hc with hc | hc
    · rcases List.mem_append.mp hc with hc | hc
      · have hall : ∀ c ∈ "HTTP/1.1 ".toList,c.toNat ≠ (13 : UInt8).toNat := by decide
        exact hall c hc
      · have hdigit := digit_facts (Nat.isDigit_of_mem_toDigits (by decide) (by decide) hc)
        exact safeChar_ne hdigit.1 (by decide)
    · rcases List.mem_cons.mp hc with rfl | hc
      · decide
      · exact safeChar_ne (List.all_eq_true.mp hok.safe c hc) (by decide)

end

section
variable {status : Nat} {reason : Text} {headers : Headers}

/-- The lines of a head that is written, as bytes. -/
theorem intercalate_lines (first : Text) (lines : List Text) :
    toLatin1 (crlfText.intercalate (first :: lines)) =
      toLatin1 first ++ (lines.map toLatin1).flatMap (crlf ++ ·) := by
  have hcrlf : toLatin1 crlfText = crlf := by decide
  induction lines generalizing first with
  | nil => simp
  | cons line lines ih =>
    rw [List.intercalate_cons_cons,toLatin1_append,toLatin1_append,hcrlf,ih]
    simp only [List.map_cons,List.flatMap_cons,List.append_assoc]

/-- An answer that is written is read back. -/
theorem parseResponseHead_eq (hstatus : StatusOk status reason) (hok : ∀ h ∈ headers,RawOk h) :
    parseResponseHead (toLatin1 (statusLine status reason) ++
        (headers.map fun h => toLatin1 (h.1 ++ ": ".toList ++ h.2)).flatMap (crlf ++ ·)) =
      some ⟨status,reason,headers⟩ := by
  have hcr : ∀ l ∈ toLatin1 (statusLine status reason) ::
      (headers.map fun h => toLatin1 (h.1 ++ ": ".toList ++ h.2)),(13 : UInt8) ∉ l := by
    intro l hl
    rcases List.mem_cons.mp hl with rfl | hl
    · exact no_cr_statusLine hstatus
    · obtain ⟨h,hh,rfl⟩ := List.mem_map.mp hl
      exact no_cr_line (hok h hh).toLineOk
  rw [parseResponseHead,splitCrlf_lines hcr]
  simp only [responseLine_eq hstatus,Option.bind_eq_bind,Option.bind_some,mapM_rawHeader_eq hok]

theorem addedHeaders_ok (chunked : Bool) : ∀ h ∈ addedHeaders chunked,RawOk h := by
  have hte : RawOk ("Transfer-Encoding".toList,"chunked".toList) :=
    ⟨⟨by decide,by decide,by decide,by unfold IsLatin1; decide⟩,by decide⟩
  have hclose : RawOk ("Connection".toList,"close".toList) :=
    ⟨⟨by decide,by decide,by decide,by unfold IsLatin1; decide⟩,by decide⟩
  intro h hh
  cases chunked with
  | true =>
    rcases List.mem_cons.mp hh with rfl | hh
    · exact hte
    · rw [List.mem_singleton.mp hh]
      exact hclose
  | false =>
    rw [List.mem_singleton.mp hh]
    exact hclose

theorem valuesOf_append (headers others : Headers) (name : Text) :
    valuesOf (headers ++ others) name = valuesOf headers name ++ valuesOf others name := by
  rw [valuesOf,List.filter_append,List.map_append,valuesOf,valuesOf]

theorem hop_of_kept {h : Text × Text} (hh : h ∈ keptHeaders headers) :
    h ∈ headers ∧ asciiLower h.1 ∉ hopResponse ∧
      asciiLower h.1 ∉ connectionNames headers := by
  simp only [keptHeaders,List.mem_filter,Bool.and_eq_true,Bool.not_eq_true',
    ← Bool.not_eq_true,List.contains_iff_mem] at hh
  exact ⟨hh.1,hh.2.1,hh.2.2⟩

theorem valuesOf_nil {name : Text} (h : ∀ x ∈ headers,asciiLower x.1 ≠ name) :
    valuesOf headers name = [] := by
  rw [valuesOf,List.map_eq_nil_iff,List.filter_eq_nil_iff]
  intro x hx
  rw [decide_eq_true_eq]
  exact h x hx

/-- Of a name that is no hop's, all values are kept or none. -/
theorem valuesOf_kept {name : Text} (hhop : name ∉ hopResponse) :
    valuesOf (keptHeaders headers) name = valuesOf headers name ∨
      valuesOf (keptHeaders headers) name = [] := by
  by_cases hnamed : name ∈ connectionNames headers
  · refine Or.inr (valuesOf_nil fun x hx heq => ?_)
    exact (hop_of_kept hx).2.2 (heq ▸ hnamed)
  · left
    rw [valuesOf,valuesOf,keptHeaders,List.filter_filter]
    congr 1
    refine List.filter_congr fun h _ => ?_
    by_cases heq : asciiLower h.1 = name
    · simp [heq,hhop,hnamed]
    · simp [heq]

/-- The head that is written, in lines. -/
theorem clientResponseHead_eq (resp : ResponseHead) (framing : ResponseBody) (client : Version) :
    (clientResponseHead resp framing client).1 =
      toLatin1 (statusLine resp.status
        (if resp.reason.isEmpty then defaultReason resp.status else resp.reason)) ++
      ((keptHeaders resp.headers ++ addedHeaders (clientResponseHead resp framing client).2).map
        fun h => toLatin1 (h.1 ++ ": ".toList ++ h.2)).flatMap (crlf ++ ·) ++ crlf ++ crlf := by
  have hcrlf : toLatin1 crlfText = crlf := by decide
  rw [clientResponseHead]
  dsimp only
  rw [toLatin1_append,toLatin1_append,hcrlf,intercalate_lines,List.map_map]
  rfl

/-- Neither a length nor a transfer coding is left of the hop-by-hop headers. -/
theorem values_sent (chunked : Bool) :
    valuesOf (keptHeaders headers ++ addedHeaders chunked) teName =
        (if chunked then ["chunked".toList] else []) ∧
      valuesOf (keptHeaders headers ++ addedHeaders chunked) clName =
        valuesOf (keptHeaders headers) clName := by
  have hte : valuesOf (keptHeaders headers) teName = [] := by
    refine valuesOf_nil fun x hx heq => (hop_of_kept hx).2.1 ?_
    rw [heq]
    decide
  have hadded : ∀ chunked,valuesOf (addedHeaders chunked) teName =
      (if chunked then ["chunked".toList] else []) ∧
      valuesOf (addedHeaders chunked) clName = [] := by decide
  rw [valuesOf_append,valuesOf_append,hte,(hadded chunked).1,(hadded chunked).2,List.append_nil,
    List.nil_append]
  exact ⟨rfl,rfl⟩

theorem any_length_iff : ((keptHeaders headers).any
    fun h => asciiLower h.1 = clName) = true ↔
      valuesOf (keptHeaders headers) clName ≠ [] := by
  rw [valuesOf,ne_eq,List.map_eq_nil_iff,List.filter_eq_nil_iff,List.any_eq_true]
  push Not
  rfl

end

section
variable {resp : ResponseHead} {method : Text} {framing : ResponseBody}

/-- What a framing says of the head it was found in. -/
theorem body_cases (h : resp.body method = some framing) :
    ∃ length,contentLength (valuesOf resp.headers clName) = some length ∧
      (valuesOf resp.headers teName = [] ∨
        valuesOf resp.headers clName = []) ∧
      framing = if bodyless resp.status method then .none
        else if !(valuesOf resp.headers teName).isEmpty then .chunked
        else lengthFraming length := by
  rw [ResponseHead.body] at h
  split at h
  · cases h
  next hboth =>
  split at h
  · cases h
  next length hlength =>
  split at h
  · cases h
  refine ⟨length,hlength,?_,?_⟩
  · by_contra hne
    rw [not_or] at hne
    exact hboth (by simp [hne.1,hne.2])
  · split at h
    next hless =>
      rw [if_pos hless]
      exact (Option.some.inj h).symm
    next hless =>
      rw [if_neg hless]
      exact (Option.some.inj h).symm

/-- A head without transfer codings, or with the one the proxy wrote. -/
theorem body_sent {status : Nat} {reason : Text} {headers : Headers} {chunked : Bool}
    {length : Option Nat}
    (hte : valuesOf headers teName = if chunked then ["chunked".toList] else [])
    (hcl : chunked = true → valuesOf headers clName = [])
    (hlength : contentLength (valuesOf headers clName) = some length) :
    ResponseHead.body ⟨status,reason,headers⟩ method =
      some (if bodyless status method then .none else if chunked then .chunked
        else lengthFraming length) := by
  have hlast : chunkedLast ["chunked".toList] = true := by decide
  cases chunked with
  | true =>
    have hnone := hcl rfl
    rw [hnone] at hlength
    simp only [ResponseHead.body,hte,hnone,hlength,if_true,hlast,List.isEmpty_cons,List.isEmpty_nil,
      Bool.not_true,Bool.not_false,Bool.and_false,Bool.false_eq_true,if_false]
    split <;> rfl
  | false =>
    simp only [ResponseHead.body,hte,hlength,Bool.false_eq_true,if_false,List.isEmpty_nil,
      Bool.not_true,Bool.false_and]
    split <;> rfl

/-- The length that is left in the head, and the framing it gives. -/
theorem client_length {status : Nat} {reason : Text} {headers : Headers} {length : Option Nat}
    (hkept : valuesOf (keptHeaders headers) clName = valuesOf headers clName ∨
      valuesOf (keptHeaders headers) clName = [])
    (hlength : contentLength (valuesOf headers clName) = some length)
    (hone : valuesOf headers teName = [] ∨ valuesOf headers clName = [])
    (hframing : framing = if bodyless status method then .none
      else if !(valuesOf headers teName).isEmpty then .chunked else lengthFraming length) :
    ∃ length',contentLength (valuesOf (keptHeaders headers) clName) = some length' ∧
      (framing ≠ .none →
        clientFraming ⟨status,reason,headers⟩ framing false = lengthFraming length') := by
  rcases hkept with hkept | hkept
  · refine ⟨length,hkept ▸ hlength,fun hne => ?_⟩
    split at hframing
    · exact absurd hframing hne
    split at hframing
    next hte =>
      -- chunked by the app, so that there is no length
      have hcl := hone.resolve_left (by simpa using hte)
      rw [hcl] at hlength
      cases hlength
      rw [hframing]
      rfl
    next hte =>
      cases length with
      | none =>
        rw [hframing]
        rfl
      | some n =>
        have hcl : valuesOf headers clName ≠ [] := by
          intro hcl
          rw [hcl] at hlength
          cases hlength
        rw [hframing]
        simp [lengthFraming,clientFraming,hkept,hcl]
  · refine ⟨none,by rw [hkept]; rfl,fun hne => ?_⟩
    cases framing with
    | none => exact absurd rfl hne
    | length n => simp [clientFraming,hkept,lengthFraming]
    | chunked => rfl
    | untilClose => rfl

/-- The answer the client gets parses back to the status of the app's; the only headers of
the hop in it are the proxy's own, and it has one framing: chunked just where the body is
cut into chunks again, the app's own length where that header is left, and none or until
the connection closes in the other cases. -/
theorem client_framing_is_one {block : Bytes} (hresp : parseResponseHead block = some resp)
    (hbody : resp.body method = some framing) (client : Version) :
    ∃ block' head',(∀ after,
      (clientResponseHead resp framing client).1 = block' ++ crlf ++ crlf ∧
        findHeadEnd ((clientResponseHead resp framing client).1 ++ after) = some block'.length) ∧
      parseResponseHead block' = some head' ∧ head'.status = resp.status ∧
      head'.headers.filter (fun h => hopResponse.contains (asciiLower h.1)) =
        addedHeaders (clientResponseHead resp framing client).2 ∧
      head'.body method =
        some (clientFraming resp framing (clientResponseHead resp framing client).2) ∧
      (valuesOf head'.headers clName = [] ∨ valuesOf head'.headers teName = []) := by
  rw [parseResponseHead] at hresp
  split at hresp
  · cases hresp
  simp only [Option.bind_eq_bind,Option.bind_eq_some_iff] at hresp
  obtain ⟨⟨status,reason⟩,hline,headers,hheaders,hresp⟩ := hresp
  cases hresp
  have hstatus := statusOk_of_responseLine hline
  have hraw := mapM_rawHeader hheaders
  obtain ⟨length,hlength,hone,hframing⟩ := body_cases hbody
  dsimp only at hlength hone hframing
  have hreason : StatusOk status (if reason.isEmpty then defaultReason status else reason) := by
    split
    · exact defaultReason_ok hstatus.low hstatus.high
    · exact hstatus
  have hsent : ∀ chunked,∀ h ∈ keptHeaders headers ++ addedHeaders chunked,RawOk h := by
    intro chunked h hh
    rcases List.mem_append.mp hh with hh | hh
    · exact hraw h (hop_of_kept hh).1
    · exact addedHeaders_ok chunked h hh
  have hlines := clientResponseHead_eq ⟨status,reason,headers⟩ framing client
  have hflag : (clientResponseHead ⟨status,reason,headers⟩ framing client).2 =
      (framing ≠ .none && !((keptHeaders headers).any fun h => asciiLower h.1 = clName) &&
        client = .http11) := rfl
  generalize hchunked : (clientResponseHead ⟨status,reason,headers⟩ framing client).2 = chunked
    at hlines hflag ⊢
  obtain ⟨hte,hcl⟩ := @values_sent headers chunked
  have hno : chunked = true → valuesOf (keptHeaders headers) clName = [] := by
    intro h
    rw [h,eq_comm,Bool.and_eq_true,Bool.and_eq_true,Bool.not_eq_true',← Bool.not_eq_true,
      any_length_iff] at hflag
    exact not_not.mp hflag.1.2
  refine ⟨_,_,fun after => ⟨hlines,?_⟩,parseResponseHead_eq hreason (hsent chunked),rfl,?_,?_,?_⟩
  · rw [hlines,List.append_assoc _ crlf crlf]
    refine findHeadEnd_lines ?_ ?_ after
    · intro l hl
      rcases List.mem_cons.mp hl with rfl | hl
      · exact no_cr_statusLine hreason
      · obtain ⟨h,hh,rfl⟩ := List.mem_map.mp hl
        exact no_cr_line (hsent chunked h hh).toLineOk
    · intro hmem
      obtain ⟨h,hh,heq⟩ := List.mem_map.mp hmem
      rw [toLatin1,List.map_eq_nil_iff] at heq
      simp at heq
  · have hown : ∀ chunked,(addedHeaders chunked).filter
        (fun h => hopResponse.contains (asciiLower h.1)) = addedHeaders chunked := by decide
    have hrest : (keptHeaders headers).filter
        (fun h => hopResponse.contains (asciiLower h.1)) = [] := by
      rw [List.filter_eq_nil_iff]
      intro h hh
      rw [List.contains_iff_mem]
      exact (hop_of_kept hh).2.1
    rw [List.filter_append,hown,hrest,List.nil_append]
  · -- the length headers are all there or all gone
    have hkept : valuesOf (keptHeaders headers) clName = valuesOf headers clName ∨
        valuesOf (keptHeaders headers) clName = [] := valuesOf_kept (by decide)
    obtain ⟨length',hlength',hleft⟩ := client_length hkept hlength hone hframing
    rw [body_sent hte (fun h => hcl.trans (hno h)) (hcl ▸ hlength')]
    by_cases hless : bodyless status method = true
    · rw [if_pos hless] at hframing ⊢
      subst hframing
      rw [hflag]
      rfl
    · rw [if_neg hless] at hframing ⊢
      cases chunked with
      | true => rfl
      | false =>
        refine congrArg some (hleft ?_).symm
        intro hnone
        rw [hnone] at hframing
        split at hframing
        · cases hframing
        · cases length <;> cases hframing
  · cases chunked with
    | true => exact Or.inl (hcl.trans (hno rfl))
    | false => exact Or.inr hte

/-- An answer whose length the app's own `Connection` line takes out: it is cut into
chunks. -/
def unnamedLength : ResponseHead :=
  ⟨200,"OK".toList,[("Content-Length".toList,"3".toList),
    ("Connection".toList,"content-length".toList)]⟩

theorem client_framing_is_one_rechunked : ∃ block,parseResponseHead block = some unnamedLength ∧
    unnamedLength.body "GET".toList = some (.length 3) ∧
    ∃ block' head',(∀ after,
      (clientResponseHead unnamedLength (.length 3) .http11).1 = block' ++ crlf ++ crlf ∧
        findHeadEnd ((clientResponseHead unnamedLength (.length 3) .http11).1 ++ after) =
          some block'.length) ∧
      parseResponseHead block' = some head' ∧ head'.status = 200 ∧
      head'.headers.filter (fun h => hopResponse.contains (asciiLower h.1)) =
        addedHeaders (clientResponseHead unnamedLength (.length 3) .http11).2 ∧
      head'.body "GET".toList = some (clientFraming unnamedLength (.length 3)
        (clientResponseHead unnamedLength (.length 3) .http11).2) ∧
      (valuesOf head'.headers clName = [] ∨ valuesOf head'.headers teName = []) := by
  have hresp : parseResponseHead (toLatin1
      "HTTP/1.1 200 OK\r\nContent-Length: 3\r\nConnection: content-length".toList) =
      some unnamedLength := by decide
  have hbody : unnamedLength.body "GET".toList = some (.length 3) := by decide
  exact ⟨_,hresp,hbody,client_framing_is_one hresp hbody .http11⟩

/-- The proxy's own `Connection` header is one of the hop. -/
theorem client_head_says_close : ∃ block resp block' head',parseResponseHead block = some resp ∧
    resp.body "GET".toList = some .untilClose ∧
    (clientResponseHead resp .untilClose .http10).1 = block' ++ crlf ++ crlf ∧
    parseResponseHead block' = some head' ∧
    head'.headers.filter (fun h => hopResponse.contains (asciiLower h.1)) ≠ [] := by
  refine ⟨toLatin1 "HTTP/1.1 200 OK".toList,⟨200,"OK".toList,[]⟩,
    toLatin1 "HTTP/1.1 200 OK\r\nConnection: close".toList,
    ⟨200,"OK".toList,[("Connection".toList,"close".toList)]⟩,?_,?_,?_,?_,?_⟩
  all_goals decide

end
end Flagship.Ingress

import Flagship.Ingress.AppConnection
import Flagship.Ingress.Proofs.Forwarded

namespace Flagship.Ingress
open Lib Gate

theorem latin1_append (as bs : Bytes) : latin1 (as ++ bs) = latin1 as ++ latin1 bs := List.map_append

theorem ofNat_byte_injective : Function.Injective fun b : UInt8 => Char.ofNat b.toNat := by
  intro a b h
  have hnat := congrArg Char.toNat h
  simp only [toNat_ofNat_byte] at hnat
  exact UInt8.toNat_inj.mp hnat

theorem lines_latin1 (block : Bytes) :
    splitPair '\r' '\n' (latin1 block) = (splitCrlf block).map latin1 :=
  splitPair_map ofNat_byte_injective 13 10 block

theorem jsWhitespace_of_lt {c : Char} (h : c.toNat < 256) : Ts.jsWhitespace c = jsSpace c.toNat := by
  have hall : ∀ n < 256,Ts.jsWhitespace (Char.ofNat n) = jsSpace n := by decide +kernel
  have hc := hall c.toNat h
  rw [Char.ofNat_toNat] at hc
  exact hc

theorem trim_latin1 (rest : Bytes) : Ts.trim (latin1 rest) = latin1 (jsTrim rest) := by
  have hsame : (fun b : UInt8 => Ts.jsWhitespace (Char.ofNat b.toNat)) = fun b => jsSpace b.toNat := by
    funext b
    have hlt : (Char.ofNat b.toNat).toNat < 256 := by
      rw [toNat_ofNat_byte]
      exact b.toNat_lt
    rw [jsWhitespace_of_lt hlt,toNat_ofNat_byte]
  rw [Ts.trim,latin1,trimEnds_map,hsame,jsTrim,latin1]

theorem lowerLatin1_ascii {c : Char} (h : c.toNat < 128) : Ts.lowerLatin1 c = c.toLower := by
  rw [Ts.lowerLatin1,if_neg]
  simp only [Bool.and_eq_true,decide_eq_true_eq]
  omega

theorem toLowerCase_ascii {s : Text} (h : ∀ c ∈ s,c.toNat < 128) :
    Ts.toLowerCase s = asciiLower s :=
  List.map_congr_left fun c hc => lowerLatin1_ascii (h c hc)

section
variable {headers : Headers} {line : Bytes}

/-- Setting a header from what it is found to be is setting it from what it has. -/
theorem upsert_headerOf (k : Text) (f : Option Text → Text) :
    upsert k (fun _ => f (headerOf headers k)) headers = upsert k f headers := by
  suffices h : ∀ g : Option Text → Text,(∀ v,headerOf headers k = some v → g (some v) = f (some v)) →
      (headerOf headers k = none → g none = f none) → upsert k g headers = upsert k f headers by
    refine h _ (fun v hv => ?_) fun hnone => ?_
    · rw [hv]
    · rw [hnone]
  intro g hsome hnone
  induction headers with
  | nil => rw [upsert,upsert,hnone rfl]
  | cons h headers ih =>
    obtain ⟨k',v'⟩ := h
    rw [upsert,upsert]
    by_cases heq : k' = k
    · have hv := hsome v' (by simp [headerOf,heq])
      rw [if_pos heq,if_pos heq,hv]
    · have hrest : headerOf ((k',v') :: headers) k = headerOf headers k := by
        simp [headerOf,heq]
      rw [if_neg heq,if_neg heq,ih (fun v hv => hsome v (hrest.trans hv))
        fun hn => hnone (hrest.trans hn)]

theorem addLine_ts {headers' : Headers} (h : addLine headers line = some headers') :
    Ts.addLine headers (latin1 line) = some headers' := by
  simp only [addLine,Option.bind_eq_bind,Option.bind_eq_some_iff] at h
  obtain ⟨⟨name,value⟩,hline,h⟩ := h
  dsimp only at h
  split at h
  · cases h
  next hplain =>
  cases h
  have hok := lineOk_of_headerLine hline
  rw [headerLine] at hline
  split at hline
  · cases hline
  next c rest hdrop =>
  dsimp only at hline
  split at hline
  · cases hline
  cases hline
  have hcolon : ∀ b : UInt8,(Char.ofNat b.toNat != ':') = (b != 0x3a) := by
    intro b
    have hiff : Char.ofNat b.toNat = ':' ↔ b = 0x3a := ofNat_byte_injective.eq_iff (b := 0x3a)
    by_cases hb : b = 0x3a
    · rw [hb]
      rfl
    · rw [bne_iff_ne.mpr hb,bne_iff_ne.mpr (mt hiff.mp hb)]
  have hname : (latin1 line).takeWhile (· != ':') = latin1 (line.takeWhile (· != 0x3a)) := by
    rw [latin1,List.takeWhile_map,latin1]
    congr 2
    funext b
    exact hcolon b
  have hrest : (latin1 line).drop (latin1 (line.takeWhile (· != 0x3a))).length =
      Char.ofNat c.toNat :: latin1 rest := by
    rw [latin1,latin1,List.length_map,← List.map_drop,hdrop]
    rfl
  have hkey : Ts.toLowerCase (latin1 (line.takeWhile (· != 0x3a))) =
      asciiLower (latin1 (line.takeWhile (· != 0x3a))) :=
    toLowerCase_ascii fun c hc => isTchar_lt (hok.token c hc)
  have htoken : (latin1 (line.takeWhile (· != 0x3a))).all (fun c => isTchar c.toNat) = true :=
    List.all_eq_true.mpr hok.token
  have hne : (latin1 (line.takeWhile (· != 0x3a))).isEmpty = false := by
    rw [List.isEmpty_eq_false_iff]
    exact hok.nonempty
  have hsafe : (latin1 (jsTrim rest)).all
      (fun c => safeChar c.toNat && decide (c.toNat ≤ 0xff)) = true := by
    rw [List.all_eq_true]
    intro c hc
    have hlt := hok.latin c hc
    rw [Bool.and_eq_true,decide_eq_true_eq]
    exact ⟨hok.safe c hc,by omega⟩
  generalize hk : asciiLower (latin1 (line.takeWhile (· != 0x3a))) = key at hplain hkey ⊢
  have hproto : key ≠ "__proto__".toList := by
    rintro rfl
    exact hplain (by decide)
  have hinherited : headerOf Ts.inherited key = none := by
    refine headerOf_none fun hmem => hplain ?_
    rw [List.contains_iff_mem]
    exact hmem
  rw [Ts.addLine,hname,hrest]
  simp only [hne,htoken,hkey,trim_latin1,hsafe,Ts.assign,if_neg hproto,Ts.property,hinherited,
    Option.or_none]
  rw [upsert_headerOf]
  rfl

theorem foldlM_ts {lines : List Bytes} {headers' : Headers}
    (h : lines.foldlM addLine headers = some headers') :
    (lines.map latin1).foldlM Ts.addLine headers = some headers' := by
  induction lines generalizing headers with
  | nil => exact h
  | cons line lines ih =>
    rw [List.foldlM_cons,Option.bind_eq_bind,Option.bind_eq_some_iff] at h
    obtain ⟨next,hnext,h⟩ := h
    rw [List.map_cons,List.foldlM_cons,addLine_ts hnext,Option.bind_eq_bind,Option.bind_some,ih h]

end

/-- What the request line is made of. -/
theorem requestLine_shape {first method target : Bytes} {version : Version}
    (h : requestLine first = some (method,target,version)) :
    first = method ++ 0x20 :: (target ++ toLatin1 (versionSuffix version)) := by
  rw [requestLine] at h
  split at h
  · cases h
  next c after hdrop =>
  dsimp only at h
  split at h
  · cases h
  split at h
  · cases h
  next v hversion =>
  split at h
  · cases h
  cases h
  have happend : first.takeWhile (· != 0x20) ++ first.dropWhile (· != 0x20) = first :=
    List.takeWhile_append_dropWhile
  have hrest : first.dropWhile (· != 0x20) = c :: after := by
    have hleft := @List.drop_left _ (first.takeWhile (· != 0x20)) (first.dropWhile (· != 0x20))
    rw [happend,hdrop] at hleft
    exact hleft.symm
  have hc : c = 0x20 := by
    have hnot := List.head?_dropWhile_not (· != 0x20) first
    rw [hrest] at hnot
    simpa using hnot
  have hafter : toLatin1 (versionSuffix version) <:+ after := by
    split at hversion
    · next h11 =>
      cases hversion
      exact h11
    split at hversion
    · next h10 =>
      cases hversion
      exact h10
    · cases hversion
  have hlen : (toLatin1 (versionSuffix version)).length = 9 := by
    cases version <;> decide
  obtain ⟨target,rfl⟩ := hafter
  subst hc
  rw [List.length_append,hlen,Nat.add_sub_cancel,List.take_left,← hrest,happend]

theorem matchRequestLine_ts {first method target : Bytes} {version : Version}
    (h : requestLine first = some (method,target,version)) :
    Ts.matchRequestLine (latin1 first) = some (latin1 method,latin1 target,version) := by
  have hok := requestOk_of_requestLine h
  have hshape : latin1 first = latin1 method ++ ' ' :: (latin1 target ++ versionSuffix version) := by
    have hsuffix : IsLatin1 (versionSuffix version) := by
      unfold IsLatin1
      cases version <;> decide
    rw [requestLine_shape h,latin1_append]
    congr 1
    have hcons : ∀ bs : Bytes,latin1 (0x20 :: bs) = ' ' :: latin1 bs := fun _ => rfl
    rw [hcons,latin1_append,latin1_toLatin1 hsuffix]
  have hmethod : (latin1 first).takeWhile (fun c => isTchar c.toNat) = latin1 method := by
    rw [hshape,List.takeWhile_append_of_pos hok.token,List.takeWhile_cons_of_neg (by decide),
      List.append_nil]
  have hspace : ∀ c ∈ latin1 target,(!Ts.jsWhitespace c) = true := by
    intro c hc
    rw [jsWhitespace_of_lt (hok.latin c hc),hok.noSpace c hc]
    rfl
  have hpath : (latin1 target ++ versionSuffix version).takeWhile (fun c => !Ts.jsWhitespace c) =
      latin1 target := by
    have hstop : (versionSuffix version).takeWhile (fun c => !Ts.jsWhitespace c) = [] := by
      cases version <;> decide
    rw [List.takeWhile_append_of_pos hspace,hstop,List.append_nil]
  have hne : (latin1 method).isEmpty = false := by
    rw [List.isEmpty_eq_false_iff]
    exact hok.nonempty
  rw [Ts.matchRequestLine,hmethod,hshape]
  simp only [hne,List.drop_left,hpath,hok.slash]
  cases version <;> rfl

/-- The daemon reads every head that the proxy reads, and reads the same. -/
theorem parseHead_ts {block : Bytes} {head : RequestHead} (h : parseRequestHead block = some head) :
    Ts.parseHead (latin1 block) =
      some ⟨head.method,head.target,head.version,head.headers⟩ := by
  rw [parseRequestHead] at h
  split at h
  · cases h
  next first lines hlines =>
  simp only [Option.bind_eq_bind,Option.bind_eq_some_iff] at h
  obtain ⟨⟨method,target,version⟩,hfirst,headers,hheaders,h⟩ := h
  cases h
  rw [Ts.parseHead,lines_latin1,hlines]
  simp only [List.map_cons,matchRequestLine_ts hfirst,foldlM_ts hheaders,Option.bind_eq_bind,
    Option.bind_some]

/-- What is so of every character of latin1. -/
theorem latin1_cases {P : Char → Prop} (h : ∀ n < 256,P (Char.ofNat n)) {c : Char}
    (hc : c.toNat < 256) : P c := by
  have h' := h c.toNat hc
  rw [Char.ofNat_toNat] at h'
  exact h'

theorem comma_lower (c : Char) : (c.toLower == ',') = (c == ',') := by
  by_cases hc : c.toNat < 128
  · have hall : ∀ n < 128,((Char.ofNat n).toLower == ',') = (Char.ofNat n == ',') := by decide
    have h := hall c.toNat hc
    rw [Char.ofNat_toNat] at h
    exact h
  · rw [toLower_of_not_upper (by omega)]

theorem comma_lowerLatin1 (c : Char) : (Ts.lowerLatin1 c == ',') = (c == ',') := by
  by_cases hc : c.toNat < 256
  · exact latin1_cases (P := fun c => (Ts.lowerLatin1 c == ',') = (c == ',')) (by decide +kernel) hc
  · rw [Ts.lowerLatin1,if_neg,toLower_of_not_upper (by omega)]
    simp only [Bool.and_eq_true,decide_eq_true_eq]
    omega

section
variable {value name : Text}

theorem mem_elements : name ∈ elements value ↔ ∃ piece ∈ value.splitOn ',',
    (trimEnds (fun c => whiteSpace c.toLower) piece).map Char.toLower = name := by
  rw [elements,asciiLower,splitOn_map comma_lower,List.map_map,List.mem_map]
  refine exists_congr fun piece => and_congr_right fun _ => ?_
  rw [Function.comp_apply,← trimEnds_map]
  rfl

theorem mem_ts_elements : name ∈ Ts.elements value ↔ ∃ piece ∈ value.splitOn ',',
    (trimEnds (fun c => Ts.jsWhitespace (Ts.lowerLatin1 c)) piece).map Ts.lowerLatin1 = name := by
  rw [Ts.elements,Ts.toLowerCase,splitOn_map comma_lowerLatin1,List.map_map,List.mem_map]
  refine exists_congr fun piece => and_congr_right fun _ => ?_
  rw [Function.comp_apply,Ts.trim,← trimEnds_map]

/-- A name that the daemon finds in a list the proxy finds there too. -/
theorem elements_of_ts (hvalue : IsLatin1 value) (hname : ∀ c ∈ name,isTchar c.toNat = true)
    (h : name ∈ Ts.elements value) : name ∈ elements value := by
  obtain ⟨piece,hpiece,heq⟩ := mem_ts_elements.mp h
  have hlatin : ∀ c ∈ piece,c.toNat < 256 :=
    fun c hc => hvalue c (mem_of_mem_splitOn hpiece hc)
  have hspace : ∀ c ∈ piece,Ts.jsWhitespace (Ts.lowerLatin1 c) = true →
      whiteSpace c.toLower = true := fun c hc =>
    latin1_cases (P := fun c => Ts.jsWhitespace (Ts.lowerLatin1 c) = true →
      whiteSpace c.toLower = true) (by decide +kernel) (hlatin c hc)
  have htoken : ∀ c ∈ piece,isTchar (Ts.lowerLatin1 c).toNat = true →
      Ts.lowerLatin1 c = c.toLower ∧ whiteSpace c.toLower = false := fun c hc =>
    latin1_cases (P := fun c => isTchar (Ts.lowerLatin1 c).toNat = true →
      Ts.lowerLatin1 c = c.toLower ∧ whiteSpace c.toLower = false) (by decide +kernel) (hlatin c hc)
  refine mem_elements.mpr ⟨piece,hpiece,?_⟩
  have hcore := fun c (hc : c ∈ trimEnds (fun c => Ts.jsWhitespace (Ts.lowerLatin1 c)) piece) =>
    htoken c (mem_of_mem_trimEnds hc) (hname _ (heq ▸ List.mem_map_of_mem hc))
  rw [← trimEnds_of_le hspace,trimEnds_eq_self fun c hc => (hcore c hc).2,← heq]
  exact List.map_congr_left fun c hc => (hcore c hc).1.symm

/-- A text of ASCII letters is found by either way of lowering. -/
theorem lower_eq_iff {word : Text} (hvalue : IsLatin1 value)
    (hword : ∀ c ∈ word,isTchar c.toNat = true) :
    Ts.toLowerCase value = word ↔ asciiLower value = word := by
  have hpoint : ∀ c : Char,c.toNat < 256 →
      isTchar (Ts.lowerLatin1 c).toNat = true ∨ isTchar c.toLower.toNat = true →
      Ts.lowerLatin1 c = c.toLower := fun c hc =>
    latin1_cases (P := fun c => isTchar (Ts.lowerLatin1 c).toNat = true ∨
      isTchar c.toLower.toNat = true → Ts.lowerLatin1 c = c.toLower) (by decide +kernel) hc
  constructor
  · intro h
    rw [← h]
    refine List.map_congr_left fun c hc => (hpoint c (hvalue c hc) (Or.inl ?_)).symm
    exact hword _ (h ▸ List.mem_map_of_mem hc)
  · intro h
    rw [← h]
    refine List.map_congr_left fun c hc => hpoint c (hvalue c hc) (Or.inr ?_)
    exact hword _ (h ▸ List.mem_map_of_mem hc)

end

section
variable {headers client : Headers} {inj : Injection} {k : Text}

theorem HeadersOk.value_latin (hok : HeadersOk headers) (k : Text) :
    IsLatin1 ((headerOf headers k).getD []) := by
  rcases hv : headerOf headers k with _ | v
  · exact fun c hc => absurd hc List.not_mem_nil
  · rw [headerOf,Option.map_eq_some_iff] at hv
    obtain ⟨h,hh,rfl⟩ := hv
    exact (hok.each h (List.mem_of_find?_eq_some hh)).latin

/-- Where the elements are the same, so is what is taken for an upgrade. -/
theorem upgrade_agrees_iff (hok : HeadersOk headers) :
    Ts.isWebSocketUpgrade headers = isWebsocketUpgrade headers ↔
      (asciiLower ((headerOf headers "upgrade".toList).getD []) = "websocket".toList →
        "upgrade".toList ∈ elements ((headerOf headers "connection".toList).getD []) →
        "upgrade".toList ∈ Ts.elements ((headerOf headers "connection".toList).getD [])) := by
  have hweb := @lower_eq_iff _ "websocket".toList (hok.value_latin "upgrade".toList) (by decide)
  have hup := @elements_of_ts _ "upgrade".toList (hok.value_latin "connection".toList) (by decide)
  rw [Bool.eq_iff_iff,Ts.isWebSocketUpgrade,isWebsocketUpgrade,Bool.and_eq_true,Bool.and_eq_true,
    decide_eq_true_eq,decide_eq_true_eq,List.contains_iff_mem,List.contains_iff_mem,hweb]
  constructor
  · exact fun h hw hr => (h.mpr ⟨hw,hr⟩).2
  · exact fun h => ⟨fun ht => ⟨ht.1,hup ht.2⟩,fun hr => ⟨hr.1,h hr.1 hr.2⟩⟩

theorem bodyFraming_congr {f g : Text → Bool} (upgrade : Bool)
    (h : ∀ te,headerOf headers "transfer-encoding".toList = some te → f te = g te) :
    bodyFraming headers f upgrade = bodyFraming headers g upgrade := by
  rw [bodyFraming,bodyFraming]
  rcases hte : headerOf headers "transfer-encoding".toList with _ | te
  · cases headerOf headers "content-length".toList with
    | none => rfl
    | some cl => rfl
  · simp only [h te hte]

theorem framing_agrees (hok : HeadersOk headers) (upgrade : Bool) :
    Ts.requestBodyFraming headers upgrade =
      bodyFraming headers (fun te => asciiLower te = "chunked".toList) upgrade := by
  refine bodyFraming_congr upgrade fun te hte => ?_
  have hlatin := hok.value_latin "transfer-encoding".toList
  rw [hte] at hlatin
  have hiff := @lower_eq_iff te "chunked".toList hlatin (by decide)
  exact decide_eq_decide.mpr hiff

theorem fold_ascii {c : Char} (h : c.toNat < 128) :
    (if Ts.lowerLatin1 c = '_' then '-' else Ts.lowerLatin1 c) = if c = '_' then '-' else c.toLower := by
  have hall : ∀ n < 128,(if Ts.lowerLatin1 (Char.ofNat n) = '_' then '-'
      else Ts.lowerLatin1 (Char.ofNat n)) =
      if Char.ofNat n = '_' then '-' else (Char.ofNat n).toLower := by decide +kernel
  have hc := hall c.toNat h
  rw [Char.ofNat_toNat] at hc
  exact hc

theorem prepared_agrees (hok : HeadersOk client) : Ts.prepared client inj = prepare client inj := by
  rw [Ts.prepared,prepare,Ts.stripIdentityHeaders,List.filter_filter]
  congr 1
  refine List.filter_congr fun h hh => ?_
  have hfold : (Ts.toLowerCase h.1).map (fun c => if c = '_' then '-' else c) = foldName h.1 := by
    rw [Ts.toLowerCase,List.map_map,foldName]
    exact List.map_congr_left fun c hc => fold_ascii (isTchar_lt ((hok.each h hh).token c hc))
  rw [hfold,Bool.and_comm,isIdentityHeader]
  congr 2
  rw [Bool.eq_iff_iff,List.isPrefixOf_iff_prefix,decide_eq_true_eq]

/-- The names that the daemon takes from the `Connection` value. -/
def tsNamed (headers : Headers) : List Text :=
  (Ts.elements ((headerOf headers "connection".toList).getD [])).filter fun t => !t.isEmpty

theorem toLowerCase_key (hok : HeadersOk headers) {h : Text × Text} (hh : h ∈ headers) :
    Ts.toLowerCase h.1 = h.1 := by
  rw [toLowerCase_ascii fun c hc => isTchar_lt ((hok.each h hh).token c hc)]
  exact (hok.each h hh).lower

theorem foldl_keeps_passing {named : List Text} {out : Headers} (hok : HeadersOk headers)
    (hnew : ∀ h ∈ headers,h.1 ∉ out.map Prod.fst) :
    headers.foldl (fun out h => if passes named (Ts.toLowerCase h.1) then
      upsert (Ts.toLowerCase h.1) (fun _ => h.2) out else out) out =
      out ++ headers.filter fun h => passes named h.1 := by
  induction headers generalizing out with
  | nil => simp
  | cons h headers ih =>
    have hrest : HeadersOk headers :=
      ⟨fun h' hh' => hok.each h' (List.mem_cons_of_mem _ hh'),(List.nodup_cons.mp hok.once).2⟩
    have hkey := toLowerCase_key hok List.mem_cons_self
    rw [List.foldl_cons,hkey,List.filter_cons]
    split
    · rw [upsert_new (hnew h List.mem_cons_self),ih hrest]
      · simp
      · intro h' hh' hmem
        rw [List.map_append,List.mem_append] at hmem
        rcases hmem with hmem | hmem
        · exact hnew h' (List.mem_cons_of_mem _ hh') hmem
        · have heq : h'.1 = h.1 := by simpa using hmem
          refine (List.nodup_cons.mp hok.once).1 ?_
          rw [← heq]
          exact List.mem_map_of_mem hh'
    · exact ih hrest fun h' hh' => hnew h' (List.mem_cons_of_mem _ hh')

/-- What the daemon sends on. -/
theorem ts_forwarded (hok : HeadersOk headers) (upgrade : Bool) :
    Ts.forwardRequestHeaders headers upgrade =
      headers.filter (fun h => passes (tsNamed headers) h.1) ++ ownConnection upgrade := by
  have hfold := @foldl_keeps_passing headers (tsNamed headers) [] hok (by simp)
  have hhop : ∀ k ∈ hopRequest,
      k ∉ (headers.filter fun h => passes (tsNamed headers) h.1).map Prod.fst := by
    intro k hk hmem
    obtain ⟨h,hh,rfl⟩ := List.mem_map.mp hmem
    exact not_hop_of_passes (List.mem_filter.mp hh).2 hk
  rw [List.nil_append] at hfold
  have hsplit : Ts.forwardRequestHeaders headers upgrade =
      (ownConnection upgrade).foldl (fun out h => upsert h.1 (fun _ => h.2) out)
        (headers.filter fun h => passes (tsNamed headers) h.1) := by
    rw [← hfold]
    rfl
  rw [hsplit]
  cases upgrade with
  | false => exact upsert_new (hhop _ (by decide))
  | true =>
    have hfirst := @upsert_new (headers.filter fun h => passes (tsNamed headers) h.1)
      "connection".toList (fun _ => "Upgrade".toList) (hhop _ (by decide))
    simp only [ownConnection,if_true,List.foldl_cons,List.foldl_nil]
    rw [hfirst,upsert_new]
    · simp
    · rw [List.map_append,List.mem_append,not_or]
      exact ⟨hhop _ (by decide),by decide⟩

end

section
variable {client : Headers} {inj : Injection} {named named' : List Text} {k : Text}

theorem passes_eq_true : passes named k = true ↔
    k ∉ hopRequest ∧ (k ∈ named → identityPrefix <+: k ∨ "sec-websocket-".toList <+: k) := by
  rw [passes,Bool.and_eq_true,Bool.not_eq_true',Bool.not_eq_true',← Bool.not_eq_true,
    ← Bool.not_eq_true,List.contains_iff_mem,Bool.and_eq_true,Bool.and_eq_true,
    List.contains_iff_mem,Bool.not_eq_true',Bool.not_eq_true',← Bool.not_eq_true,
    ← Bool.not_eq_true,List.isPrefixOf_iff_prefix,List.isPrefixOf_iff_prefix]
  refine and_congr_right fun _ => ?_
  tauto

/-- The `Connection` value is the client's, or it was dropped. -/
theorem connection_of_prepare (hinj : ∀ h ∈ inj.set,InjectedOk h) :
    headerOf (prepare client inj) "connection".toList =
      headerOf client "connection".toList ∨
    headerOf (prepare client inj) "connection".toList = none := by
  have hnone : headerOf inj.injected "connection".toList = none := by
    refine headerOf_none fun hmem => ?_
    obtain ⟨h,hh,heq⟩ := List.mem_map.mp hmem
    have hbegins := ((injected_headers_ok hinj).2 h hh).identity
    rw [heq] at hbegins
    exact absurd hbegins (by decide)
  rw [prepare_eq hinj,headerOf_append,hnone,Option.or_none]
  by_cases hremoved : inj.remove.contains "connection".toList = true
  · refine Or.inr (headerOf_none fun hmem => ?_)
    obtain ⟨h,hh,heq⟩ := List.mem_map.mp hmem
    rw [ownHeaders,List.mem_filter,heq,hremoved,Bool.and_eq_true] at hh
    cases hh.2.2
  · refine Or.inl (headerOf_filter (p := fun k => !isIdentityHeader k && !inj.remove.contains k) ?_)
    rw [Bool.not_eq_true] at hremoved
    rw [hremoved]
    decide

/-- A header that both take for the client's own passes the one list or the other. -/
theorem passes_agrees (hok : HeadersOk client) (hinj : ∀ h ∈ inj.set,InjectedOk h)
    (hsame : SameElements client) {h : Text × Text} (hh : h ∈ prepare client inj) :
    passes (namedBy (prepare client inj)) h.1 = passes (tsNamed (prepare client inj)) h.1 := by
  have hheader := (prepare_ok hok hinj).each h hh
  rw [Bool.eq_iff_iff,passes_eq_true,passes_eq_true]
  refine and_congr_right fun hhop => ?_
  have hback : h.1 ∈ tsNamed (prepare client inj) → h.1 ∈ namedBy (prepare client inj) := by
    intro hmem
    obtain ⟨hmem,hne⟩ := List.mem_filter.mp hmem
    exact List.mem_filter.mpr ⟨elements_of_ts ((prepare_ok hok hinj).value_latin _) hheader.token hmem,hne⟩
  refine ⟨fun hpass hmem => hpass (hback hmem),fun hpass hmem => ?_⟩
  by_contra hnot
  rw [not_or] at hnot
  rw [prepare_eq hinj,List.mem_append] at hh
  rcases hh with hh | hh
  · obtain ⟨hclient,hidentity⟩ := ownHeaders_not_identity hh
    obtain ⟨hmem,hne⟩ := List.mem_filter.mp hmem
    rcases @connection_of_prepare client _ hinj with hvalue | hvalue
    · refine (not_or.mpr hnot) (hpass (List.mem_filter.mpr ⟨?_,hne⟩))
      rw [hvalue] at hmem ⊢
      exact hsame h.1 hmem (Or.inr ⟨List.mem_map_of_mem hclient,hhop,hidentity,hnot.2⟩)
    · rw [hvalue] at hmem
      have hempty : h.1 = [] := by simpa [elements,asciiLower,trim] using hmem
      exact hheader.nonempty hempty
  · exact hnot.1 ((injected_headers_ok hinj).2 h hh).identity

theorem forwarded_agrees (hok : HeadersOk client) (hinj : ∀ h ∈ inj.set,InjectedOk h)
    (hsame : SameElements client) (upgrade : Bool) (body : RequestBody) :
    forwardRequestHeaders client inj upgrade body =
      Ts.forwardRequestHeaders (Ts.prepared client inj) upgrade ++ framingHeader body := by
  rw [prepared_agrees hok,ts_forwarded (prepare_ok hok hinj)]
  have hfilter : (prepare client inj).filter (fun h => passes (namedBy (prepare client inj)) h.1) =
      (prepare client inj).filter fun h => passes (tsNamed (prepare client inj)) h.1 :=
    List.filter_congr fun h hh => passes_agrees hok hinj hsame hh
  rw [← hfilter]
  rfl

end

/-- What must be so for the two to send on the same headers. -/
theorem same_of_forwarded {client : Headers} (hok : HeadersOk client)
    (hupgrade : Ts.isWebSocketUpgrade client = isWebsocketUpgrade client)
    (hforward : ∀ k,headerOf (forwardRequestHeaders client ⟨[],[]⟩ false .none) k =
      headerOf (Ts.forwardRequestHeaders (Ts.prepared client ⟨[],[]⟩) false ++
        framingHeader .none) k) : SameElements client := by
  intro name hname hmatters
  have hinj : ∀ h ∈ (⟨[],[]⟩ : Injection).set,InjectedOk h := fun _ h => absurd h List.not_mem_nil
  rcases hmatters with ⟨rfl,hweb⟩ | ⟨hmem,hhop,hidentity,hsec⟩
  · exact (upgrade_agrees_iff hok).mp hupgrade hweb hname
  by_contra hnot
  obtain ⟨h,hh,rfl⟩ := List.mem_map.mp hmem
  have hprepare : prepare client ⟨[],[]⟩ = client.filter fun h => !isIdentityHeader h.1 := by
    simp [prepare]
  have hin : h ∈ prepare client ⟨[],[]⟩ := by
    rw [hprepare,List.mem_filter,hidentity]
    exact ⟨hh,rfl⟩
  have hvalue : headerOf (prepare client ⟨[],[]⟩) "connection".toList =
      headerOf client "connection".toList := by
    rw [hprepare]
    exact headerOf_filter (p := fun k => !isIdentityHeader k) (by decide)
  have hne : (!h.1.isEmpty) = true := by
    rw [Bool.not_eq_true',List.isEmpty_eq_false_iff]
    exact (hok.each h hh).nonempty
  have hbegins : ¬ identityPrefix <+: h.1 := by
    intro hp
    rw [isIdentityHeader_of_begins hp] at hidentity
    cases hidentity
  have hdropped : passes (namedBy (prepare client ⟨[],[]⟩)) h.1 = false := by
    rw [← Bool.not_eq_true,passes_eq_true]
    rintro ⟨_,hpass⟩
    refine (not_or.mpr ⟨hbegins,hsec⟩) (hpass (List.mem_filter.mpr ⟨?_,hne⟩))
    rw [hvalue]
    exact hname
  have hkept : passes (tsNamed (prepare client ⟨[],[]⟩)) h.1 = true := by
    refine passes_eq_true.mpr ⟨hhop,fun hmem => absurd (List.mem_filter.mp hmem).1 ?_⟩
    rw [hvalue]
    exact hnot
  have hown : h.1 ∉ (ownConnection false).map Prod.fst := fun hmem =>
    hhop (by rcases ownConnection_names false _ hmem with heq | heq <;> rw [heq] <;> decide)
  have hrust : headerOf (forwardRequestHeaders client ⟨[],[]⟩ false .none) h.1 = none := by
    have heq : forwardRequestHeaders client ⟨[],[]⟩ false .none =
        (prepare client ⟨[],[]⟩).filter (fun h => passes (namedBy (prepare client ⟨[],[]⟩)) h.1) ++
          ownConnection false := List.append_nil _
    rw [heq]
    refine headerOf_none fun hmem => ?_
    rw [List.map_append,List.mem_append] at hmem
    rcases hmem with hmem | hmem
    · obtain ⟨h',hh',heq⟩ := List.mem_map.mp hmem
      have hpass := (List.mem_filter.mp hh').2
      rw [heq,hdropped] at hpass
      cases hpass
    · exact hown hmem
  have hts : headerOf (Ts.forwardRequestHeaders (Ts.prepared client ⟨[],[]⟩) false ++
      framingHeader .none) h.1 ≠ none := by
    rw [prepared_agrees hok,ts_forwarded (prepare_ok hok hinj),headerOf_append,headerOf_append,
      headerOf_filter hkept]
    intro hnone
    rw [Option.or_eq_none_iff,Option.or_eq_none_iff] at hnone
    have hfind := hnone.1.1
    rw [headerOf,Option.map_eq_none_iff,List.find?_eq_none] at hfind
    exact hfind h hin (decide_eq_true rfl)
  exact hts ((hforward h.1).symm.trans hrust)

/-- The daemon reads each head that the proxy reads as the proxy does; the two take the
same requests for upgrades and send on the same headers just where they find the same
elements in the `Connection` value. -/
theorem proxies_agree_iff {block : Bytes} {head : RequestHead}
    (hhead : parseRequestHead block = some head) :
    (Ts.parseHead (latin1 block) = some ⟨head.method,head.target,head.version,head.headers⟩ ∧
      Ts.requestBodyFraming head.headers (Ts.isWebSocketUpgrade head.headers) = requestBody head ∧
      Ts.isWebSocketUpgrade head.headers = isWebsocketUpgrade head.headers ∧
      ∀ inj upgrade body k,inj.validate = .ok () →
        headerOf (forwardRequestHeaders head.headers inj upgrade body) k =
          headerOf (Ts.forwardRequestHeaders (Ts.prepared head.headers inj) upgrade ++
            framingHeader body) k) ↔
    SameElements head.headers := by
  have hok := (parsed_ok hhead).2
  constructor
  · rintro ⟨_,_,hupgrade,hforward⟩
    exact same_of_forwarded hok hupgrade fun k => hforward ⟨[],[]⟩ false .none k rfl
  · intro hsame
    have hupgrade : Ts.isWebSocketUpgrade head.headers = isWebsocketUpgrade head.headers :=
      (upgrade_agrees_iff hok).mpr fun hweb hname => hsame _ hname (Or.inl ⟨rfl,hweb⟩)
    refine ⟨parseHead_ts hhead,?_,hupgrade,?_⟩
    · rw [hupgrade,framing_agrees hok,requestBody]
    · intro inj upgrade body k hvalid
      rw [forwarded_agrees hok (injectedOk_of_validate hvalid) hsame]

/-- A header that the client asks to drop is dropped by both. -/
theorem proxies_agree_iff_once : ∃ head : RequestHead,
    parseRequestHead (toLatin1 "GET / HTTP/1.1\r\nX: y\r\nConnection: x, close".toList) =
      some head ∧
    Ts.parseHead (latin1 (toLatin1 "GET / HTTP/1.1\r\nX: y\r\nConnection: x, close".toList)) =
      some ⟨head.method,head.target,head.version,head.headers⟩ ∧
    headerOf (forwardRequestHeaders head.headers ⟨[],[]⟩ false .none) "x".toList =
      headerOf (Ts.forwardRequestHeaders (Ts.prepared head.headers ⟨[],[]⟩) false) "x".toList := by
  have hhead : parseRequestHead
      (toLatin1 "GET / HTTP/1.1\r\nX: y\r\nConnection: x, close".toList) =
      some ⟨"GET".toList,"/".toList,.http11,
        [("x".toList,"y".toList),("connection".toList,"x, close".toList)]⟩ := by decide
  have hsame : SameElements [("x".toList,"y".toList),("connection".toList,"x, close".toList)] := by
    intro name hname _
    have hall : ∀ name ∈ elements "x, close".toList,name ∈ Ts.elements "x, close".toList := by decide
    exact hall name hname
  obtain ⟨hparse,_,_,hforward⟩ := (proxies_agree_iff hhead).mpr hsame
  refine ⟨_,hhead,hparse,?_⟩
  have hx := hforward ⟨[],[]⟩ false .none "x".toList rfl
  rw [framingHeader,List.append_nil] at hx
  exact hx

/-- U+0085 after the word: the proxy sees an upgrade, the daemon does not. -/
theorem next_line_after_upgrade_differs : ∃ head : RequestHead,
    parseRequestHead (toLatin1
      "GET / HTTP/1.1\r\nUpgrade: websocket\r\nConnection: Upgrade\u0085".toList) = some head ∧
    isWebsocketUpgrade head.headers = true ∧ Ts.isWebSocketUpgrade head.headers = false :=
  ⟨⟨"GET".toList,"/".toList,.http11,
    [("upgrade".toList,"websocket".toList),("connection".toList,"Upgrade\u0085".toList)]⟩,
    by decide,by decide,by decide⟩

end Flagship.Ingress

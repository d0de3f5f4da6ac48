import Flagship.Ingress.Proofs.Requests

namespace Flagship.Ingress
open Lib Gate

theorem forM_ok {α ε : Type} {f : α → Except ε Unit} {l : List α} (h : l.forM f = .ok ()) :
    ∀ a ∈ l,f a = .ok () := by
  induction l with
  | nil => simp
  | cons a l ih =>
    change (f a >>= fun _ => l.forM f) = .ok () at h
    rcases hf : f a with e | u
    · rw [hf] at h
      cases h
    · rw [hf] at h
      intro b hb
      rcases List.mem_cons.mp hb with rfl | hb
      · exact hf
      · exact ih h b hb

/-- What the daemon may inject. -/
structure InjectedOk (h : Text × Text) : Prop extends LineOk h where
  identity : identityPrefix <+: h.1
  lower : asciiLower h.1 = h.1

theorem asciiLower_of_lowerToken {k : Text} (h : lowerToken k = true) : asciiLower k = k := by
  rw [lowerToken,Bool.and_eq_true,Bool.not_eq_true',List.any_eq_false] at h
  refine (List.map_congr_left fun c hc => ?_).trans (List.map_id k)
  apply toLower_of_not_upper
  have hc := h.2 c hc
  simp only [Bool.and_eq_true,decide_eq_true_eq] at hc
  omega

theorem injectedOk_of_validate {inj : Injection} (h : inj.validate = .ok ()) :
    ∀ h ∈ inj.set,InjectedOk h := by
  intro hd hmem
  rw [Injection.validate] at h
  rcases hset : inj.set.forM checkSet with e | u
  · rw [hset] at h
    cases h
  have hd' := forM_ok hset hd hmem
  rw [checkSet] at hd'
  split at hd'
  · cases hd'
  next hname =>
  split at hd'
  · cases hd'
  next hvalue =>
    simp only [Bool.or_eq_true,Bool.not_eq_true',not_or,Bool.not_eq_false] at hname hvalue
    obtain ⟨hbegins,htoken⟩ := hname
    have hbegins' := List.isPrefixOf_iff_prefix.mp hbegins
    refine ⟨⟨?_,?_,?_,?_⟩,hbegins',asciiLower_of_lowerToken htoken⟩
    · intro hnil
      rw [hnil,List.prefix_nil] at hbegins'
      cases hbegins'
    · rw [lowerToken,Bool.and_eq_true] at htoken
      exact List.all_eq_true.mp htoken.1
    · exact List.all_eq_true.mp hvalue.1
    · intro c hc
      have hbig := hvalue.2
      rw [List.any_eq_true] at hbig
      by_contra hge
      exact hbig ⟨c,hc,by simp only [decide_eq_true_eq]; omega⟩

section
variable {k : Text} {headers client : Headers} {inj : Injection}

theorem isIdentityHeader_of_begins (h : identityPrefix <+: k) : isIdentityHeader k = true := by
  have hself : identityPrefix.map (fun c => if c = '_' then '-' else c.toLower) = identityPrefix := by
    decide
  rw [isIdentityHeader,decide_eq_true_eq]
  obtain ⟨t,rfl⟩ := h
  rw [foldName,List.map_append,hself]
  exact List.prefix_append _ _

theorem foldl_upsert_append {set : Headers} {front : Headers}
    (hfront : ∀ h ∈ set,h.1 ∉ front.map Prod.fst) (headers : Headers) :
    set.foldl (fun headers h => upsert h.1 (fun _ => h.2) headers) (front ++ headers) =
      front ++ set.foldl (fun headers h => upsert h.1 (fun _ => h.2) headers) headers := by
  induction set generalizing headers with
  | nil => rfl
  | cons h set ih =>
    rw [List.foldl_cons,List.foldl_cons,upsert_append (hfront h List.mem_cons_self),
      ih fun h' hh => hfront h' (List.mem_cons_of_mem _ hh)]

/-- What the client's headers come to before the daemon's are added. -/
def ownHeaders (client : Headers) (inj : Injection) : Headers :=
  client.filter fun h => !isIdentityHeader h.1 && !inj.remove.contains h.1

theorem ownHeaders_not_identity {h : Text × Text} (hmem : h ∈ ownHeaders client inj) :
    h ∈ client ∧ isIdentityHeader h.1 = false := by
  rw [ownHeaders,List.mem_filter,Bool.and_eq_true,Bool.not_eq_true'] at hmem
  exact ⟨hmem.1,hmem.2.1⟩

theorem prepare_eq (hinj : ∀ h ∈ inj.set,InjectedOk h) :
    prepare client inj = ownHeaders client inj ++ inj.injected := by
  have hfront : ∀ h ∈ inj.set,h.1 ∉ (ownHeaders client inj).map Prod.fst := by
    intro h hmem hkey
    obtain ⟨h',hh',heq⟩ := List.mem_map.mp hkey
    have hnot := (ownHeaders_not_identity hh').2
    rw [heq,isIdentityHeader_of_begins (hinj h hmem).identity] at hnot
    cases hnot
  have h := foldl_upsert_append hfront []
  rw [List.append_nil] at h
  exact h

theorem injected_ok {set : Headers} (hset : ∀ h ∈ set,InjectedOk h) (hheaders : HeadersOk headers)
    (hall : ∀ h ∈ headers,InjectedOk h) :
    HeadersOk (set.foldl (fun headers h => upsert h.1 (fun _ => h.2) headers) headers) ∧
      ∀ h ∈ set.foldl (fun headers h => upsert h.1 (fun _ => h.2) headers) headers,
        InjectedOk h := by
  induction set generalizing headers with
  | nil => exact ⟨hheaders,hall⟩
  | cons h set ih =>
    have hh := hset h List.mem_cons_self
    have hplain : h.1 ∉ prototypeNames := by
      have hall : ∀ k ∈ prototypeNames,¬ identityPrefix <+: k := by decide
      exact fun hmem => hall h.1 hmem hh.identity
    have hok : HeaderOk (h.1,h.2) := ⟨hh.toLineOk,hh.lower,hplain⟩
    refine ih (fun h' hh' => hset h' (List.mem_cons_of_mem _ hh')) (hheaders.upsert hok fun _ _ => hok) ?_
    intro h' hh'
    rcases mem_upsert hh' with hh' | rfl | ⟨_,_,rfl⟩
    · exact hall h' hh'
    · exact hh
    · exact hh

theorem injected_headers_ok (hinj : ∀ h ∈ inj.set,InjectedOk h) :
    HeadersOk inj.injected ∧ ∀ h ∈ inj.injected,InjectedOk h :=
  injected_ok hinj headersOk_nil fun _ h => absurd h List.not_mem_nil

/-- No identity header is one of the hop. -/
theorem not_hop_of_prefix (h : identityPrefix <+: k) : k ∉ hopRequest := by
  have hall : ∀ k ∈ hopRequest,¬ identityPrefix <+: k := by decide
  exact fun hmem => hall k hmem h

theorem passes_of_prefix (named : List Text) (h : identityPrefix <+: k) : passes named k = true := by
  have hhop := not_hop_of_prefix h
  rw [passes,List.isPrefixOf_iff_prefix.mpr h]
  simpa using hhop

/-- The names that a list takes from the client's own headers. -/
def namedBy (headers : Headers) : List Text :=
  (elements ((headerOf headers "connection".toList).getD [])).filter fun t => !t.isEmpty

theorem forwardRequestHeaders_eq (hinj : ∀ h ∈ inj.set,InjectedOk h) (upgrade : Bool)
    (body : RequestBody) : forwardRequestHeaders client inj upgrade body =
      (ownHeaders client inj).filter (fun h => passes (namedBy (prepare client inj)) h.1) ++
        inj.injected ++ ownConnection upgrade ++ framingHeader body := by
  have hpass : inj.injected.filter (fun h => passes (namedBy (prepare client inj)) h.1) =
      inj.injected := by
    rw [List.filter_eq_self]
    exact fun h hh => passes_of_prefix _ ((injected_headers_ok hinj).2 h hh).identity
  have hsplit : (prepare client inj).filter
      (fun h => passes (namedBy (prepare client inj)) h.1) =
      (ownHeaders client inj).filter (fun h => passes (namedBy (prepare client inj)) h.1) ++
        inj.injected := by
    generalize namedBy (prepare client inj) = named at hpass ⊢
    rw [prepare_eq hinj,List.filter_append,hpass]
  rw [forwardRequestHeaders]
  exact congrArg (· ++ ownConnection upgrade ++ framingHeader body) hsplit

end

section
variable {k : Text} {headers others client : Headers} {inj : Injection}

theorem headerOf_append : headerOf (headers ++ others) k =
    (headerOf headers k).or (headerOf others k) := by
  rw [headerOf,List.find?_append,headerOf,headerOf]
  cases headers.find? fun h => decide (h.1 = k) <;> rfl

theorem headerOf_none (h : k ∉ headers.map Prod.fst) : headerOf headers k = none := by
  rw [headerOf,Option.map_eq_none_iff,List.find?_eq_none]
  intro h' hh'
  rw [decide_eq_true_eq]
  rintro rfl
  exact h (List.mem_map_of_mem hh')

theorem headerOf_trimmed : headerOf (headers.map trimmed) k = (headerOf headers k).map trimText := by
  rw [headerOf,List.find?_map,headerOf,Option.map_map,Option.map_map]
  rfl

theorem headerOf_filter {p : Text → Bool} (hk : p k = true) :
    headerOf (headers.filter fun h => p h.1) k = headerOf headers k := by
  rw [headerOf,List.find?_filter,headerOf]
  congr 2
  funext h
  by_cases heq : h.1 = k
  · simp [heq,hk]
  · simp [heq]

theorem HeadersOk.filter (hok : HeadersOk headers) (p : Text × Text → Bool) :
    HeadersOk (headers.filter p) := by
  refine ⟨fun h hh => hok.each h (List.mem_of_mem_filter hh),?_⟩
  exact hok.once.sublist (List.filter_sublist.map _)

theorem HeadersOk.append (hok : HeadersOk headers) (hothers : HeadersOk others)
    (hdisjoint : ∀ k ∈ headers.map Prod.fst,k ∉ others.map Prod.fst) :
    HeadersOk (headers ++ others) := by
  constructor
  · intro h hh
    rcases List.mem_append.mp hh with hh | hh
    · exact hok.each h hh
    · exact hothers.each h hh
  · rw [List.map_append]
    exact List.Nodup.append hok.once hothers.once fun k hk hk' => hdisjoint k hk hk'

theorem HeadersOk.single {k v : Text} (hok : HeaderOk (k,v)) : HeadersOk [(k,v)] :=
  ⟨fun _ hh => List.mem_singleton.mp hh ▸ hok,List.nodup_singleton k⟩

/-- A header of the proxy's own. -/
theorem headerOk_of_checks {k v : Text} (hne : k ≠ []) (htoken : ∀ c ∈ k,isTchar c.toNat = true)
    (hvalue : ∀ c ∈ v,safeChar c.toNat = true ∧ c.toNat < 256) (hlower : asciiLower k = k)
    (hplain : k ∉ prototypeNames) : HeaderOk (k,v) :=
  ⟨⟨hne,htoken,fun c hc => (hvalue c hc).1,fun c hc => (hvalue c hc).2⟩,hlower,hplain⟩

theorem ownConnection_ok (upgrade : Bool) : HeadersOk (ownConnection upgrade) := by
  have hup : HeaderOk ("connection".toList,"Upgrade".toList) :=
    headerOk_of_checks (by decide) (by decide) (by decide) (by decide) (by decide)
  have hweb : HeaderOk ("upgrade".toList,"websocket".toList) :=
    headerOk_of_checks (by decide) (by decide) (by decide) (by decide) (by decide)
  have hclose : HeaderOk ("connection".toList,"close".toList) :=
    headerOk_of_checks (by decide) (by decide) (by decide) (by decide) (by decide)
  cases upgrade with
  | true => exact (HeadersOk.single hup).append (HeadersOk.single hweb) (by decide)
  | false => exact HeadersOk.single hclose

theorem framingHeader_ok (body : RequestBody) : HeadersOk (framingHeader body) := by
  cases body with
  | none => exact headersOk_nil
  | length n =>
    refine HeadersOk.single (headerOk_of_checks (by decide) (by decide) ?_ (by decide) (by decide))
    intro c hc
    have hdigit := digit_facts (Nat.isDigit_of_mem_toDigits (by decide) (by decide) hc)
    exact ⟨hdigit.1,hdigit.2.1⟩
  | chunked =>
    exact HeadersOk.single
      (headerOk_of_checks (by decide) (by decide) (by decide) (by decide) (by decide))

/-- The names of the proxy's own headers: all of the hop, and none twice. -/
theorem ownConnection_names (upgrade : Bool) :
    ∀ k ∈ (ownConnection upgrade).map Prod.fst,k = "connection".toList ∨ k = "upgrade".toList := by
  cases upgrade <;> decide

theorem framingHeader_names (body : RequestBody) : ∀ k ∈ (framingHeader body).map Prod.fst,
    k = "content-length".toList ∨ k = "transfer-encoding".toList := by
  cases body <;> simp [framingHeader]

/-- What passes is not of the hop. -/
theorem not_hop_of_passes {named : List Text} (h : passes named k = true) : k ∉ hopRequest := by
  rw [passes,Bool.and_eq_true,Bool.not_eq_true',← Bool.not_eq_true,List.contains_iff_mem] at h
  exact h.1

theorem forwarded_front {h : Text × Text} (hinj : ∀ h ∈ inj.set,InjectedOk h)
    (hmem : h ∈ (ownHeaders client inj).filter
      (fun h => passes (namedBy (prepare client inj)) h.1) ++ inj.injected) :
    h.1 ∉ hopRequest := by
  rcases List.mem_append.mp hmem with hmem | hmem
  · exact not_hop_of_passes (List.mem_filter.mp hmem).2
  · exact not_hop_of_prefix ((injected_headers_ok hinj).2 h hmem).identity

theorem prepare_ok (hclient : HeadersOk client) (hinj : ∀ h ∈ inj.set,InjectedOk h) :
    HeadersOk (prepare client inj) := by
  rw [prepare_eq hinj]
  refine HeadersOk.append (hclient.filter _) (injected_headers_ok hinj).1 ?_
  intro k hk hk'
  obtain ⟨h,hh,rfl⟩ := List.mem_map.mp hk
  obtain ⟨h',hh',heq⟩ := List.mem_map.mp hk'
  have hnot := (ownHeaders_not_identity hh).2
  rw [← heq,isIdentityHeader_of_begins ((injected_headers_ok hinj).2 h' hh').identity] at hnot
  cases hnot

theorem forwarded_ok (hclient : HeadersOk client) (hinj : ∀ h ∈ inj.set,InjectedOk h)
    (upgrade : Bool) (body : RequestBody) :
    HeadersOk (forwardRequestHeaders client inj upgrade body) := by
  have hhop : ∀ k ∈ ((prepare client inj).filter
      (fun h => passes (namedBy (prepare client inj)) h.1)).map Prod.fst,k ∉ hopRequest := by
    intro k hk
    obtain ⟨h,hh,rfl⟩ := List.mem_map.mp hk
    exact not_hop_of_passes (List.mem_filter.mp hh).2
  refine HeadersOk.append (HeadersOk.append ((prepare_ok hclient hinj).filter _)
    (ownConnection_ok upgrade) ?_) (framingHeader_ok body) ?_
  · intro k hk hk'
    refine hhop k hk ?_
    rcases ownConnection_names upgrade k hk' with rfl | rfl <;> decide
  · intro k hk hk'
    rw [List.map_append,List.mem_append] at hk
    rcases framingHeader_names body k hk' with rfl | rfl
    all_goals
      rcases hk with hk | hk
      · exact hhop _ hk (by decide)
      · rcases ownConnection_names upgrade _ hk with h | h <;> revert h <;> decide

end

section
variable {k host fallback method target : Text} {headers : Headers}

theorem serverName_chars (h : isServerName host = true) :
    ∀ c ∈ host,safeChar c.toNat = true ∧ c.toNat < 256 ∧ jsSpace c.toNat = false := by
  rw [isServerName,Bool.and_eq_true,List.all_eq_true] at h
  intro c hc
  have hall : ∀ n < 123,(97 ≤ n ∨ 48 ≤ n ∧ n ≤ 57 ∨ n = 45 ∨ n = 95 ∨ n = 46) →
      safeChar n = true ∧ n < 256 ∧ jsSpace n = false := by decide
  have hc' := h.2 c hc
  simp only [Bool.or_eq_true,Bool.and_eq_true,decide_eq_true_eq,Char.le_def,
    UInt32.le_iff_toNat_le] at hc'
  have hcode : ∀ d : Char,c = d → c.toNat = d.toNat := fun d hd => by rw [hd]
  rcases hc' with (((⟨hlow,hhigh⟩ | ⟨hlow,hhigh⟩) | heq) | heq) | heq
  · have h1 : 97 ≤ c.toNat := hlow
    have h2 : c.toNat ≤ 122 := hhigh
    exact hall c.toNat (by omega) (Or.inl h1)
  · have h1 : 48 ≤ c.toNat := hlow
    have h2 : c.toNat ≤ 57 := hhigh
    exact hall c.toNat (by omega) (Or.inr (Or.inl ⟨h1,h2⟩))
  · have h1 : c.toNat = 45 := hcode '-' heq
    exact hall c.toNat (by omega) (by omega)
  · have h1 : c.toNat = 95 := hcode '_' heq
    exact hall c.toNat (by omega) (by omega)
  · have h1 : c.toNat = 46 := hcode '.' heq
    exact hall c.toNat (by omega) (by omega)

/-- The headers of the host that the proxy states itself. -/
def hostNames : List Text :=
  ["host".toList,"x-forwarded-host".toList,"x-forwarded-proto".toList]

theorem withRoutedHost_eq (hne : host ≠ []) : withRoutedHost headers host =
    [("host".toList,host)] ++ headers.filter (fun h => !hostNames.contains h.1) ++
      [("x-forwarded-host".toList,host),("x-forwarded-proto".toList,"https".toList)] := by
  rw [withRoutedHost,if_neg (by simpa using hne)]
  simp only [List.singleton_append]
  congr 3
  funext h
  simp only [hostNames,List.contains_cons,List.contains_nil,bne,Bool.or_false,Bool.not_or,
    Bool.and_assoc]

theorem withRoutedHost_ok (hok : HeadersOk headers) (hhost : isServerName host = true) :
    HeadersOk (withRoutedHost headers host) := by
  have hne : host ≠ [] := by
    rintro rfl
    cases hhost
  have hvalue := fun c hc => And.intro (serverName_chars hhost c hc).1 (serverName_chars hhost c hc).2.1
  have hfirst : HeaderOk ("host".toList,host) :=
    headerOk_of_checks (by decide) (by decide) hvalue (by decide) (by decide)
  have hforwarded : HeaderOk ("x-forwarded-host".toList,host) :=
    headerOk_of_checks (by decide) (by decide) hvalue (by decide) (by decide)
  have hproto : HeaderOk ("x-forwarded-proto".toList,"https".toList) :=
    headerOk_of_checks (by decide) (by decide) (by decide) (by decide) (by decide)
  have hlast : HeadersOk [("x-forwarded-host".toList,host),
      ("x-forwarded-proto".toList,"https".toList)] :=
    HeadersOk.append (HeadersOk.single hforwarded) (HeadersOk.single hproto) (by simp)
  have hnames : ∀ k ∈ (headers.filter fun h => !hostNames.contains h.1).map Prod.fst,
      k ∉ hostNames := by
    intro k hk
    obtain ⟨h,hh,rfl⟩ := List.mem_map.mp hk
    simpa using (List.mem_filter.mp hh).2
  rw [withRoutedHost_eq hne]
  refine HeadersOk.append (HeadersOk.append (HeadersOk.single hfirst) (hok.filter _) ?_) hlast ?_
  · intro k hk hk'
    have hk'' : k = "host".toList := by simpa using hk
    refine hnames k hk' ?_
    rw [hk'']
    decide
  · intro k hk hk'
    rw [List.map_append,List.mem_append] at hk
    have hk'' : k = "x-forwarded-host".toList ∨ k = "x-forwarded-proto".toList := by
      simpa using hk'
    rcases hk with hk | hk
    · have hhost : k = "host".toList := by simpa using hk
      rw [hhost] at hk''
      revert hk''
      decide
    · refine hnames k hk ?_
      rcases hk'' with rfl | rfl <;> decide

theorem withRoutedHost_other (hne : host ≠ []) (hk : k ∉ hostNames) :
    headerOf (withRoutedHost headers host) k = headerOf headers k := by
  have hk' : (!hostNames.contains k) = true := by simpa using hk
  simp only [hostNames,List.mem_cons,List.not_mem_nil,or_false,not_or] at hk
  have hfirst : headerOf [("host".toList,host)] k = none := headerOf_none (by simpa using hk.1)
  have hlast : headerOf [("x-forwarded-host".toList,host),
      ("x-forwarded-proto".toList,"https".toList)] k = none := headerOf_none (by simpa using hk.2)
  rw [withRoutedHost_eq hne,headerOf_append,headerOf_append,
    headerOf_filter (p := fun k => !hostNames.contains k) hk',hfirst,hlast]
  cases headerOf headers k <;> rfl

theorem flatMap_headerText (headers : Headers) (first : Text) :
    toLatin1 (first ++ crlfText ++ headers.flatMap headerText ++ crlfText) =
      toLatin1 first ++ (headers.map fun h => toLatin1 (h.1 ++ ": ".toList ++ h.2)).flatMap
        (crlf ++ ·) ++ crlf ++ crlf := by
  have hcrlf : toLatin1 crlfText = crlf := by decide
  simp only [toLatin1_append,hcrlf]
  congr 1
  simp only [List.append_assoc]
  congr 1
  induction headers with
  | nil => rfl
  | cons h headers ih =>
    simp only [List.flatMap_cons,List.map_cons,headerText,toLatin1_append,hcrlf,
      List.append_assoc] at ih ⊢
    rw [ih]

/-- The head on the wire, in lines. -/
theorem encodeRequestHead_eq (hhost : headers.any (fun h => h.1 = "host".toList) = true) :
    encodeRequestHead method target headers fallback =
      (requestLines method target headers).1 ++
        (requestLines method target headers).2.flatMap (crlf ++ ·) ++ crlf ++ crlf := by
  rw [encodeRequestHead,hhost,requestLines]
  simp only [Bool.not_true,Bool.false_eq_true,if_false,List.append_nil]
  exact flatMap_headerText headers _

theorem headerOf_injected {client : Headers} {inj : Injection} (hinj : ∀ h ∈ inj.set,InjectedOk h)
    (upgrade : Bool) (body : RequestBody) (hk : k ∈ hopRequest) :
    headerOf (forwardRequestHeaders client inj upgrade body) k =
      headerOf (ownConnection upgrade ++ framingHeader body) k := by
  rw [forwardRequestHeaders_eq hinj,List.append_assoc,headerOf_append,headerOf_none,Option.none_or]
  intro hmem
  obtain ⟨h,hh,rfl⟩ := List.mem_map.mp hmem
  exact forwarded_front hinj hh hk

/-- Among the headers that are sent, those that fold to an identity header are the ones
the daemon set. -/
theorem identity_sent {client : Headers} {inj : Injection} (hinj : ∀ h ∈ inj.set,InjectedOk h)
    (upgrade : Bool) (body : RequestBody) (hne : host ≠ []) :
    (withRoutedHost (forwardRequestHeaders client inj upgrade body) host).filter
      (fun h => isIdentityHeader h.1) = inj.injected := by
  have hnone : ∀ headers : Headers,(∀ h ∈ headers,isIdentityHeader h.1 = false) →
      headers.filter (fun h => isIdentityHeader h.1) = [] := by
    intro headers hall
    rw [List.filter_eq_nil_iff]
    intro h hh
    rw [hall h hh]
    simp
  have hself : inj.injected.filter (fun h => isIdentityHeader h.1) = inj.injected := by
    rw [List.filter_eq_self]
    exact fun h hh => isIdentityHeader_of_begins ((injected_headers_ok hinj).2 h hh).identity
  have hhostNames : ∀ k ∈ hostNames,isIdentityHeader k = false := by decide
  have hkeep : ∀ headers : Headers,(headers.filter fun h => !hostNames.contains h.1).filter
      (fun h => isIdentityHeader h.1) = headers.filter fun h => isIdentityHeader h.1 := by
    intro headers
    rw [List.filter_filter]
    refine List.filter_congr fun h _ => ?_
    by_cases hmem : h.1 ∈ hostNames
    · simp [hhostNames h.1 hmem]
    · simp [hmem]
  have hconnection : ∀ h ∈ ownConnection upgrade,isIdentityHeader h.1 = false := by
    cases upgrade <;> decide
  have hframing : ∀ h ∈ framingHeader body,isIdentityHeader h.1 = false := by
    intro h hh
    rcases framingHeader_names body h.1 (List.mem_map_of_mem hh) with heq | heq
    all_goals
      rw [heq]
      decide
  rw [withRoutedHost_eq hne,List.filter_append,List.filter_append,hkeep,
    forwardRequestHeaders_eq hinj,List.filter_append,List.filter_append,List.filter_append,
    hnone _ hconnection,hnone _ hframing,hself,hnone _ fun h hh =>
      (ownHeaders_not_identity (List.mem_of_mem_filter hh)).2,hnone [("host".toList,host)],hnone]
  · simp
  · intro h hh
    refine hhostNames h.1 ?_
    simp only [List.mem_cons,List.not_mem_nil,or_false] at hh
    rcases hh with rfl | rfl <;> simp [hostNames]
  · intro h hh
    rw [List.mem_singleton.mp hh]
    exact hhostNames _ (by simp [hostNames])

theorem headerOf_framing (upgrade : Bool) (body : RequestBody) :
    ((headerOf (ownConnection upgrade ++ framingHeader body) "content-length".toList).map trimText,
      (headerOf (ownConnection upgrade ++ framingHeader body) "transfer-encoding".toList).map
        trimText) = framingOf body := by
  have hcl : headerOf (ownConnection upgrade) "content-length".toList = none := by
    cases upgrade <;> decide
  have hte : headerOf (ownConnection upgrade) "transfer-encoding".toList = none := by
    cases upgrade <;> decide
  rw [headerOf_append,headerOf_append,hcl,hte]
  cases body with
  | none => rfl
  | length n =>
    have htrim : trimText (Nat.toDigits 10 n) = Nat.toDigits 10 n := by
      refine trimText_eq_self fun c hc => ?_
      exact (digit_facts (Nat.isDigit_of_mem_toDigits (by decide) (by decide) hc)).2.2
    have hsame : headerOf (framingHeader (.length n)) "content-length".toList =
        some (Nat.toDigits 10 n) := by
      rw [headerOf,framingHeader,List.find?_cons_of_pos]
      · rfl
      · exact decide_eq_true rfl
    have hother : headerOf (framingHeader (.length n)) "transfer-encoding".toList = none := by
      have hne : "transfer-encoding".toList ≠ "content-length".toList := by decide
      exact headerOf_none fun hmem => hne (List.mem_singleton.mp hmem)
    rw [hsame,hother,Option.none_or,Option.none_or,Option.map_some,htrim]
    rfl
  | chunked => decide

/-- The head that an app is sent for a request: it parses back to the same method and
target, its identity headers are those the daemon set and nothing else, its host is the
one the request was routed by, and its framing is that of the plan. -/
theorem forwarded_head_is_not_forged {block : Bytes} {head : RequestHead} {inj : Injection}
    (hhead : parseRequestHead block = some head) (hinj : inj.validate = .ok ())
    (hhost : isServerName host = true) (upgrade : Bool) (body : RequestBody) (fallback : Text) :
    ∃ block' head',(∀ after,
      let wire := encodeRequestHead head.method head.target
        (withRoutedHost (forwardRequestHeaders head.headers inj upgrade body) host) fallback
      wire = block' ++ crlf ++ crlf ∧ findHeadEnd (wire ++ after) = some block'.length) ∧
      parseRequestHead block' = some head' ∧
      head'.method = head.method ∧ head'.target = head.target ∧
      head'.headers.filter (fun h => isIdentityHeader h.1) =
        inj.injected.map (fun h => (h.1,trimText h.2)) ∧
      head'.get "host".toList = some host ∧
      (head'.get "content-length".toList,head'.get "transfer-encoding".toList) =
        framingOf body := by
  obtain ⟨hreq,hclient⟩ := parsed_ok hhead
  have hset := injectedOk_of_validate hinj
  have hne : host ≠ [] := by
    rintro rfl
    cases hhost
  have hok := withRoutedHost_ok (forwarded_ok hclient hset upgrade body) hhost
  generalize hsent : withRoutedHost (forwardRequestHeaders head.headers inj upgrade body) host =
    sent at hok
  have hany : sent.any (fun h => h.1 = "host".toList) = true := by
    rw [← hsent,withRoutedHost_eq hne]
    simp
  refine ⟨_,_,fun after => ⟨encodeRequestHead_eq hany,?_⟩,parseRequestHead_eq hreq hok,rfl,rfl,
    ?_,?_,?_⟩
  · rw [encodeRequestHead_eq hany,List.append_assoc _ crlf crlf]
    refine findHeadEnd_lines (no_cr_lines hreq hok) ?_ after
    intro hmem
    obtain ⟨h,hh,heq⟩ := List.mem_map.mp hmem
    rw [toLatin1,List.map_eq_nil_iff] at heq
    simp at heq
  · have hfilter : ∀ hs : Headers,(hs.map trimmed).filter (fun h => isIdentityHeader h.1) =
        (hs.filter fun h => isIdentityHeader h.1).map trimmed := by
      intro hs
      rw [List.filter_map]
      rfl
    rw [hfilter,← hsent,identity_sent hset upgrade body hne]
    rfl
  · rw [RequestHead.get,headerOf_trimmed,← hsent,withRoutedHost_eq hne]
    simp only [headerOf,List.cons_append]
    rw [List.find?_cons_of_pos (by simp)]
    exact congrArg some (trimText_eq_self fun c hc => (serverName_chars hhost c hc).2.2)
  · rw [RequestHead.get,RequestHead.get,headerOf_trimmed,headerOf_trimmed,← hsent,
      withRoutedHost_other hne (by decide),withRoutedHost_other hne (by decide),
      headerOf_injected hset upgrade body (by decide),
      headerOf_injected hset upgrade body (by decide)]
    exact headerOf_framing upgrade body

/-- An identity header of the client's is dropped, the daemon's sent in its place. -/
theorem forwarded_head_is_not_forged_once : ∃ head : RequestHead,
    parseRequestHead (toLatin1 "GET / HTTP/1.1\r\nX_Flagship_Role: owner\r\nHost: x".toList) =
      some head ∧
    ∃ block' head',(∀ after,
      let wire := encodeRequestHead head.method head.target
        (withRoutedHost (forwardRequestHeaders head.headers
          ⟨[("x-flagship-role".toList,"guest".toList)],[]⟩ false .none) "a.b".toList) []
      wire = block' ++ crlf ++ crlf ∧ findHeadEnd (wire ++ after) = some block'.length) ∧
      parseRequestHead block' = some head' ∧
      head'.method = head.method ∧ head'.target = head.target ∧
      head'.headers.filter (fun h => isIdentityHeader h.1) =
        [("x-flagship-role".toList,"guest".toList)] ∧
      head'.get "host".toList = some "a.b".toList ∧
      (head'.get "content-length".toList,head'.get "transfer-encoding".toList) = (none,none) := by
  have hhead : parseRequestHead
      (toLatin1 "GET / HTTP/1.1\r\nX_Flagship_Role: owner\r\nHost: x".toList) =
      some ⟨"GET".toList,"/".toList,.http11,
        [("x_flagship_role".toList,"owner".toList),("host".toList,"x".toList)]⟩ := by decide
  exact ⟨_,hhead,@forwarded_head_is_not_forged "a.b".toList _ _
    ⟨[("x-flagship-role".toList,"guest".toList)],[]⟩ hhead rfl (by decide) false .none []⟩

end
end Flagship.Ingress

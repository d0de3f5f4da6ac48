import Flagship.Lib.While
import Flagship.Protocol.Envelope

namespace Flagship.Protocol.Proofs
open Lib

/-- A field on the wire. -/
def tlv (f : UInt8 × Bytes) : Bytes := f.1 :: beBytes 2 f.2.length ++ f.2

/-- The fields of a header, in the order of their types. -/
def fieldsOf (h : EnvelopeHeader) : List (UInt8 × Bytes) :=
  [(tPurpose,utf8Bytes h.purpose),(tSuite,beBytes 2 h.suite.id),(tSender,h.senderKeyId.1)] ++
  (h.recipientKeyId.map (fun v => (tRecipient,v.1))).toList ++
  (h.installationId.map (fun v => (tInstallation,v.1))).toList ++
  (h.authorityGeneration.map (fun v => (tGeneration,beBytes 8 v.toNat))).toList ++
  (h.sessionNonce.map (fun v => (tSession,v.1))).toList ++
  (h.policyDigest.map (fun v => (tPolicy,v.1))).toList ++
  [(tIssued,beBytes 8 h.issuedAt.toNat)] ++
  (h.expiresAt.map (fun v => (tExpires,beBytes 8 v.toNat))).toList ++
  [(tBodyLen,beBytes 4 h.bodyLen.toNat)]

/-- The header's bytes. -/
def wire (h : EnvelopeHeader) : Bytes :=
  magic ++ beBytes 2 ((fieldsOf h).flatMap tlv).length ++ (fieldsOf h).flatMap tlv

theorem put_eq {out : Bytes} {ty : UInt8} {value : Bytes} (h : value.length < 2 ^ 16) :
    put out ty value = .ok (out ++ tlv (ty,value)) := by
  rw [put,if_neg (by omega),tlv]
  simp

theorem putSome_eq {α : Type} {out : Bytes} {ty : UInt8} {o : Option α} {f : α → Bytes}
    (h : ∀ v, (f v).length < 2 ^ 16) :
    putSome out ty (o.map f) = .ok (out ++ (o.map (fun v => (ty,f v))).toList.flatMap tlv) := by
  cases o with
  | none => simp [putSome]
  | some v => simp [putSome,put_eq (h v)]

theorem purpose_length {h : EnvelopeHeader} (hv : h.validate = .ok ()) :
    h.purpose.isEmpty = false ∧ (utf8Bytes h.purpose).length ≤ 128 := by
  unfold EnvelopeHeader.validate at hv
  split at hv
  · cases hv
  · rename_i hlen
    simp only [not_or,maxPurposeLen] at hlen
    exact ⟨by simpa using hlen.1,by omega⟩

theorem length_some_tlv {α : Type} (ty : UInt8) {f : α → Bytes} {n : Nat} (o : Option α)
    (h : ∀ v, (f v).length = n) :
    ((o.map (fun v => (ty,f v))).toList.flatMap tlv).length ≤ n + 3 := by
  cases o with
  | none => simp
  | some v =>
    simp [tlv,h]
    omega

/-- No header is longer than 390 bytes, so the encoder's limits never bind. -/
theorem length_fields {h : EnvelopeHeader} (hv : h.validate = .ok ()) :
    ((fieldsOf h).flatMap tlv).length ≤ 367 := by
  have hp := (purpose_length hv).2
  have h1 := length_some_tlv tRecipient (n := 32) h.recipientKeyId (fun v => v.2)
  have h2 := length_some_tlv tInstallation (n := 16) h.installationId (fun v => v.2)
  have h3 := length_some_tlv tGeneration h.authorityGeneration
    (fun v => length_beBytes 8 v.toNat)
  have h4 := length_some_tlv tSession (n := 32) h.sessionNonce (fun v => v.2)
  have h5 := length_some_tlv tPolicy (n := 64) h.policyDigest (fun v => v.2)
  have h6 := length_some_tlv tExpires h.expiresAt (fun v => length_beBytes 8 v.toNat)
  have hs : h.senderKeyId.1.length = 32 := h.senderKeyId.2
  simp only [fieldsOf,List.flatMap_append,List.flatMap_cons,List.flatMap_nil,List.length_append,
    tlv,List.length_cons,List.length_nil,length_beBytes] at *
  omega

theorem ok_bind {ε α β : Type} (x : α) (f : α → Except ε β) : (Except.ok x >>= f) = f x := rfl

theorem length_magic : magic.length = 21 := by decide +kernel

/-- A header that validates is encoded. -/
theorem encode_eq {h : EnvelopeHeader} (hv : h.validate = .ok ()) : h.encode = .ok (wire h) := by
  have hlen := length_fields hv
  have hp := (purpose_length hv).2
  have hn : ∀ {n : Nat}, n < 2 ^ 16 → ∀ v : BytesN n, v.1.length < 2 ^ 16 := by
    intro n hn v
    rwa [v.2]
  have h8 : ∀ v : UInt64, (beBytes 8 v.toNat).length < 2 ^ 16 := fun v => by simp
  unfold EnvelopeHeader.encode
  rw [hv,ok_bind,put_eq (by omega),ok_bind,put_eq (by simp),ok_bind,put_eq (hn (by decide) _),
    ok_bind,putSome_eq (hn (by decide)),ok_bind,putSome_eq (hn (by decide)),ok_bind,putSome_eq h8,
    ok_bind,putSome_eq (hn (by decide)),ok_bind,putSome_eq (hn (by decide)),ok_bind,put_eq (h8 _),ok_bind,putSome_eq h8,ok_bind,put_eq (by simp),ok_bind]
  have hall : ∀ t, t = (fieldsOf h).flatMap tlv → (if 2 ^ 16 ≤ t.length then
      Except.error ProtocolError.headerTooLarge
      else if maxHeaderLen < (magic ++ beBytes 2 t.length ++ t).length then .error .headerTooLarge
      else .ok (magic ++ beBytes 2 t.length ++ t)) = Except.ok (wire h) := by
    rintro t rfl
    rw [if_neg (by omega),if_neg]
    · rfl
    · simp only [List.length_append,length_beBytes,length_magic,maxHeaderLen]
      omega
  apply hall
  simp [fieldsOf,List.flatMap_append]

theorem take_append {a rest : Bytes} {n : Nat} (h : a.length = n) :
    take n (a ++ rest) = .ok (a,rest) := by
  subst h
  rw [take,if_pos (by simp)]
  simp

theorem readField_tlv {f : UInt8 × Bytes} {rest : Bytes} (h : f.2.length < 2 ^ 16) :
    readField (tlv f ++ rest) = .ok (f.1,f.2,rest) := by
  have hlen : ofBe (beBytes 2 f.2.length) = f.2.length := ofBe_beBytes (by omega)
  rw [tlv,List.cons_append,List.cons_append,readField,List.append_assoc,
    take_append (length_beBytes _ _)]
  simp only [hlen,take_append rfl]

theorem checkType_ok {ty prev : UInt8} (hlt : prev < ty) (hle : ty ≤ tBodyLen) :
    checkType ty prev = .ok () := by
  have hlt' : prev.toNat < ty.toNat := hlt
  have hone : tPurpose ≤ ty := by
    show 1 ≤ ty.toNat
    omega
  have hne : ty ≠ prev := by
    rintro rfl
    omega
  rw [checkType,if_neg (fun h => h ⟨hone,hle⟩),if_neg hne,if_neg]
  intro hgt
  have : ty.toNat < prev.toNat := hgt
  omega

/-- Every field into the builder. -/
def setAll (b : Builder) (fs : List (UInt8 × Bytes)) : Except ProtocolError Builder :=
  fs.foldlM (fun b f => b.set f.1 f.2) b

/-- The loop reads ascending fields one by one. -/
theorem readFields_tlvs {fs : List (UInt8 × Bytes)} {b : Builder} {prev : UInt8}
    (hprev : ∀ f ∈ fs, prev < f.1) (hasc : fs.Pairwise (fun f g => f.1 < g.1))
    (hle : ∀ f ∈ fs, f.1 ≤ tBodyLen) (hlen : ∀ f ∈ fs, f.2.length < 2 ^ 16) :
    readFields b prev (fs.flatMap tlv) = setAll b fs := by
  induction fs generalizing b prev with
  | nil =>
    unfold readFields
    rfl
  | cons f fs ih =>
    rw [List.pairwise_cons] at hasc
    rw [List.forall_mem_cons] at hprev hle hlen
    have hne : (tlv f ++ fs.flatMap tlv).isEmpty = false := rfl
    unfold readFields
    rw [List.flatMap_cons,if_neg (by rw [hne]; decide)]
    split
    · rename_i e he
      rw [readField_tlv hlen.1] at he
      cases he
    · rename_i ty value t' he
      rw [readField_tlv hlen.1] at he
      cases he
      rw [checkType_ok hprev.1 hle.1]
      simp only [setAll,List.foldlM_cons]
      cases b.set f.1 f.2 with
      | error e => rfl
      | ok b' =>
        simp only
        rw [ih hasc.1 hasc.2 hle.2 hlen.2]
        rfl

def types : List UInt8 :=
  [tPurpose,tSuite,tSender,tRecipient,tInstallation,tGeneration,tSession,tPolicy,tIssued,tExpires,
    tBodyLen]

theorem some_sublist {α : Type} (ty : UInt8) (f : α → Bytes) (o : Option α) :
    ((o.map (fun v => (ty,f v))).toList.map Prod.fst).Sublist [ty] := by
  cases o with
  | none => simp
  | some v => simp

theorem types_sublist (h : EnvelopeHeader) : ((fieldsOf h).map Prod.fst).Sublist types := by
  have hpieces := (((((((List.Sublist.refl [tPurpose,tSuite,tSender]).append
    (some_sublist tRecipient Subtype.val h.recipientKeyId)).append
    (some_sublist tInstallation Subtype.val h.installationId)).append
    (some_sublist tGeneration (fun v => beBytes 8 v.toNat) h.authorityGeneration)).append
    (some_sublist tSession Subtype.val h.sessionNonce)).append
    (some_sublist tPolicy Subtype.val h.policyDigest)).append
    (List.Sublist.refl [tIssued])).append
    (some_sublist tExpires (fun v => beBytes 8 v.toNat) h.expiresAt) |>.append
    (List.Sublist.refl [tBodyLen])
  simpa [fieldsOf,types] using hpieces

/-- The fields of a header come in strictly ascending order. -/
theorem fields_ascend (h : EnvelopeHeader) :
    (fieldsOf h).Pairwise (fun f g => f.1 < g.1) ∧ ∀ f ∈ fieldsOf h, 0 < f.1 ∧ f.1 ≤ tBodyLen := by
  have hsub := types_sublist h
  constructor
  · have hasc : types.Pairwise (· < ·) := by decide
    exact List.pairwise_map.mp (hasc.sublist hsub)
  · have hall : (types.all fun ty => decide (0 < ty ∧ ty ≤ tBodyLen)) = true := by decide
    intro f hf
    exact of_decide_eq_true (List.all_eq_true.mp hall _ (hsub.subset (List.mem_map_of_mem hf)))

theorem length_value {fs : List (UInt8 × Bytes)} {f : UInt8 × Bytes} (hf : f ∈ fs) :
    f.2.length ≤ (fs.flatMap tlv).length := by
  have hsub : (tlv f).Sublist (fs.flatMap tlv) :=
    List.sublist_flatten_of_mem (List.mem_map_of_mem hf)
  have hlen := hsub.length_le
  simp only [tlv,List.length_append,List.length_cons,length_beBytes] at hlen
  omega

theorem setAll_append (b : Builder) (fs gs : List (UInt8 × Bytes)) :
    setAll b (fs ++ gs) = setAll b fs >>= (setAll · gs) := List.foldlM_append

theorem setAll_one {b b' : Builder} {f : UInt8 × Bytes} (h : b.set f.1 f.2 = .ok b') :
    setAll b [f] = .ok b' := by
  rw [setAll,List.foldlM_cons,h]
  rfl

theorem fixed_val {n : Nat} (v : BytesN n) : fixed n v.1 = .ok v := by
  rw [fixed,bytesN?_val]

theorem fixed_of_length {n : Nat} {v : Bytes} (h : v.length = n) : fixed n v = .ok ⟨v,h⟩ :=
  fixed_val ⟨v,h⟩

theorem readU64_beBytes (v : UInt64) : readU64 (beBytes 8 v.toNat) = .ok v := by
  have hv := v.toNat_lt
  rw [readU64,fixed_of_length (length_beBytes _ _),Except.map,ofBe_beBytes (by omega),
    UInt64.ofNat_toNat]

theorem readU32_beBytes (v : UInt32) : readU32 (beBytes 4 v.toNat) = .ok v := by
  have hv := v.toNat_lt
  rw [readU32,fixed_of_length (length_beBytes _ _),Except.map,ofBe_beBytes (by omega),
    UInt32.ofNat_toNat]

theorem readSuite_beBytes (s : SuiteId) : readSuite (beBytes 2 s.id) = .ok s := by
  cases s <;> decide +kernel

theorem readPurpose_utf8Bytes {h : EnvelopeHeader} (hv : h.validate = .ok ()) :
    readPurpose (utf8Bytes h.purpose) = .ok h.purpose := by
  obtain ⟨hne,hlen⟩ := purpose_length hv
  have hbytes : (utf8Bytes h.purpose).isEmpty = false := by
    cases hp : h.purpose with
    | nil => simp [hp] at hne
    | cons c s =>
      have hc := String.utf8EncodeChar_ne_nil (c := c)
      simp [utf8Bytes,hc]
  rw [readPurpose,if_neg,utf8Text_utf8Bytes]
  rw [hbytes]
  simp only [Bool.false_eq_true,false_or,maxPurposeLen]
  omega

/-- Every value the encoder writes is read back into its own field. -/
theorem set_written {h : EnvelopeHeader} (hv : h.validate = .ok ()) :
    (∀ b, Builder.set b tPurpose (utf8Bytes h.purpose) = .ok { b with purpose := some h.purpose }) ∧
    (∀ b s, Builder.set b tSuite (beBytes 2 (SuiteId.id s)) = .ok { b with suite := some s }) ∧
    (∀ b v, Builder.set b tSender v.1 = .ok { b with sender := some v }) ∧
    (∀ b v, Builder.set b tRecipient v.1 = .ok { b with recipient := some v }) ∧
    (∀ b v, Builder.set b tInstallation v.1 = .ok { b with installation := some v }) ∧
    (∀ b v, Builder.set b tGeneration (beBytes 8 (UInt64.toNat v)) =
      .ok { b with generation := some v }) ∧
    (∀ b v, Builder.set b tSession v.1 = .ok { b with session := some v }) ∧
    (∀ b v, Builder.set b tPolicy v.1 = .ok { b with policy := some v }) ∧
    (∀ b v, Builder.set b tIssued (beBytes 8 (UInt64.toNat v)) = .ok { b with issued := some v }) ∧
    (∀ b v, Builder.set b tExpires (beBytes 8 (UInt64.toNat v)) =
      .ok { b with expires := some v }) ∧
    (∀ b v, Builder.set b tBodyLen (beBytes 4 (UInt32.toNat v)) =
      .ok { b with bodyLen := some v }) := by
  simp [Builder.set,tPurpose,tSuite,tSender,tRecipient,tInstallation,tGeneration,tSession,tPolicy,
    tIssued,tExpires,tBodyLen,readPurpose_utf8Bytes hv,readSuite_beBytes,fixed_val,readU64_beBytes,
    readU32_beBytes,Except.map]

/-- An optional field leaves the builder with what the header has. -/
theorem setAll_some {α : Type} {b : Builder} {ty : UInt8} {f : α → Bytes} {o : Option α}
    (upd : Option α → Builder) (hnone : upd none = b)
    (hset : ∀ v, b.set ty (f v) = .ok (upd (some v))) :
    setAll b (o.map (fun v => (ty,f v))).toList = .ok (upd o) := by
  cases o with
  | none =>
    rw [hnone]
    rfl
  | some v => exact setAll_one (hset v)

/-- The builder with a header's fields. -/
def Builder.of (h : EnvelopeHeader) : Builder where
  purpose := some h.purpose
  suite := some h.suite
  sender := some h.senderKeyId
  recipient := h.recipientKeyId
  installation := h.installationId
  generation := h.authorityGeneration
  session := h.sessionNonce
  policy := h.policyDigest
  issued := some h.issuedAt
  expires := h.expiresAt
  bodyLen := some h.bodyLen

theorem setAll_fields {h : EnvelopeHeader} (hv : h.validate = .ok ()) :
    setAll {} (fieldsOf h) = .ok (Builder.of h) := by
  obtain ⟨hpurpose,hsuite,hsender,hrecipient,hinst,hgen,hsession,hpolicy,hissued,hexpires,hbody⟩ :=
    set_written hv
  let b₀ : Builder :=
    { purpose := some h.purpose, suite := some h.suite, sender := some h.senderKeyId }
  have h₀ : setAll {} [(tPurpose,utf8Bytes h.purpose),(tSuite,beBytes 2 h.suite.id),
      (tSender,h.senderKeyId.1)] = .ok b₀ := by
    simp only [setAll,List.foldlM_cons,List.foldlM_nil,hpurpose,hsuite,hsender,ok_bind]
    rfl
  let b₁ : Builder := { b₀ with recipient := h.recipientKeyId }
  have h₁ : setAll b₀ _ = .ok b₁ :=
    setAll_some (fun o => { b₀ with recipient := o }) rfl (hrecipient b₀)
  let b₂ : Builder := { b₁ with installation := h.installationId }
  have h₂ : setAll b₁ _ = .ok b₂ :=
    setAll_some (fun o => { b₁ with installation := o }) rfl (hinst b₁)
  let b₃ : Builder := { b₂ with generation := h.authorityGeneration }
  have h₃ : setAll b₂ _ = .ok b₃ :=
    setAll_some (fun o => { b₂ with generation := o }) rfl (hgen b₂)
  let b₄ : Builder := { b₃ with session := h.sessionNonce }
  have h₄ : setAll b₃ _ = .ok b₄ :=
    setAll_some (fun o => { b₃ with session := o }) rfl (hsession b₃)
  let b₅ : Builder := { b₄ with policy := h.policyDigest }
  have h₅ : setAll b₄ _ = .ok b₅ :=
    setAll_some (fun o => { b₄ with policy := o }) rfl (hpolicy b₄)
  let b₆ : Builder := { b₅ with issued := some h.issuedAt }
  have h₆ : setAll b₅ [(tIssued,beBytes 8 h.issuedAt.toNat)] = .ok b₆ :=
    setAll_one (hissued b₅ h.issuedAt)
  let b₇ : Builder := { b₆ with expires := h.expiresAt }
  have h₇ : setAll b₆ _ = .ok b₇ :=
    setAll_some (fun o => { b₆ with expires := o }) rfl (hexpires b₆)
  have h₈ : setAll b₇ [(tBodyLen,beBytes 4 h.bodyLen.toNat)] = .ok (Builder.of h) :=
    setAll_one (hbody b₇ h.bodyLen)
  rw [fieldsOf]
  iterate 8 rw [setAll_append]
  rw [h₀,ok_bind,h₁,ok_bind,h₂,ok_bind,h₃,ok_bind,h₄,ok_bind,h₅,ok_bind,h₆,ok_bind,h₇,ok_bind,h₈]

theorem finish_of (h : EnvelopeHeader) : (Builder.of h).finish = .ok h := rfl

/-- A header is read back off its bytes, whatever follows them. -/
theorem decode_wire {h : EnvelopeHeader} (hv : h.validate = .ok ()) (rest : Bytes) :
    EnvelopeHeader.decodePrefix (wire h ++ rest) = .ok (h,(wire h).length) := by
  have hlen := length_fields hv
  have hof : ofBe (beBytes 2 ((fieldsOf h).flatMap tlv).length) =
      ((fieldsOf h).flatMap tlv).length := ofBe_beBytes (by omega)
  have hread : readFields {} 0 ((fieldsOf h).flatMap tlv) = .ok (Builder.of h) := by
    obtain ⟨hasc,hty⟩ := fields_ascend h
    rw [readFields_tlvs (fun f hf => (hty f hf).1) hasc (fun f hf => (hty f hf).2),
      setAll_fields hv]
    intro f hf
    have := length_value hf
    omega
  have htotal : magic.length + 2 + ((fieldsOf h).flatMap tlv).length = (wire h).length := by
    simp only [wire,List.length_append,length_beBytes]
  have hbytes : wire h ++ rest = magic ++ (beBytes 2 ((fieldsOf h).flatMap tlv).length ++
      ((fieldsOf h).flatMap tlv ++ rest)) := by
    simp only [wire,List.append_assoc]
  have hmax : ¬ maxHeaderLen < (wire h).length := by
    rw [← htotal,length_magic,maxHeaderLen]
    omega
  unfold EnvelopeHeader.decodePrefix
  rw [hbytes,take_append rfl,ok_bind]
  simp only [ne_eq,not_true_eq_false,if_false,take_append (length_beBytes _ _),ok_bind,hof,
    take_append rfl,hread,finish_of,hv,encode_eq hv,htotal,if_neg hmax]
  rw [← hbytes]
  simp

theorem validate_of_encode {h : EnvelopeHeader} {enc : Bytes} (he : h.encode = .ok enc) :
    h.validate = .ok () := by
  obtain ⟨_,hv,_⟩ := bind_ok he
  exact hv

/-- What is decoded validates and is the encoding of what it decodes to. -/
theorem decode_sound {b : Bytes} {h : EnvelopeHeader} {n : Nat}
    (hd : EnvelopeHeader.decodePrefix b = .ok (h,n)) :
    h.validate = .ok () ∧ n ≤ b.length ∧ h.encode = .ok (b.take n) := by
  obtain ⟨⟨head,r⟩,_,hd⟩ := bind_ok hd
  dsimp only at hd
  split at hd
  · cases hd
  obtain ⟨⟨len,r⟩,_,hd⟩ := bind_ok hd
  dsimp only at hd
  split at hd
  · cases hd
  obtain ⟨⟨t,r⟩,_,hd⟩ := bind_ok hd
  obtain ⟨builder,_,hd⟩ := bind_ok hd
  obtain ⟨header,_,hd⟩ := bind_ok hd
  obtain ⟨_,hv,hd⟩ := bind_ok hd
  obtain ⟨again,henc,hd⟩ := bind_ok hd
  by_cases hlen : magic.length + 2 + ofBe len ≤ b.length
  · rw [if_pos hlen] at hd
    split at hd
    · cases hd
    · rename_i hsame
      rw [ne_eq,not_not,Option.some.injEq] at hsame
      cases hd
      rw [henc,hsame]
      exact ⟨hv,hlen,rfl⟩
  · rw [if_neg hlen,if_pos (Option.some_ne_none _).symm] at hd
    cases hd

/-- The codec is a bijection between the headers that validate and the byte
prefixes that decode. -/
theorem envelope_bijective :
    (∀ h rest, EnvelopeHeader.validate h = .ok () → ∃ enc, h.encode = .ok enc ∧
      EnvelopeHeader.decodePrefix (enc ++ rest) = .ok (h,enc.length)) ∧
    (∀ b h n, EnvelopeHeader.decodePrefix b = .ok (h,n) →
      h.validate = .ok () ∧ n ≤ b.length ∧ h.encode = .ok (b.take n)) ∧
    (∀ b b' h n n', EnvelopeHeader.decodePrefix b = .ok (h,n) →
      EnvelopeHeader.decodePrefix b' = .ok (h,n') → b.take n = b'.take n') ∧
    (∀ h h' enc enc' rest rest', EnvelopeHeader.encode h = .ok enc →
      EnvelopeHeader.encode h' = .ok enc' → enc ++ rest = enc' ++ rest' → h = h') := by
  refine ⟨?_,fun b h n hd => decode_sound hd,?_,?_⟩
  · intro h rest hv
    exact ⟨wire h,encode_eq hv,decode_wire hv rest⟩
  · intro b b' h n n' hd hd'
    have henc := (decode_sound hd).2.2
    rw [(decode_sound hd').2.2] at henc
    exact (Except.ok.inj henc).symm
  · intro h h' enc enc' rest rest' he he' heq
    have hv := validate_of_encode he
    have hv' := validate_of_encode he'
    obtain rfl := Except.ok.inj ((encode_eq hv).symm.trans he)
    obtain rfl := Except.ok.inj ((encode_eq hv').symm.trans he')
    have hd := decode_wire hv rest
    rw [heq,decode_wire hv' rest'] at hd
    exact (Prod.mk.inj (Except.ok.inj hd)).1.symm

/-- A header with every optional field absent but the recipient. -/
def sealHeader : EnvelopeHeader where
  purpose := "flagship/boot-unlock-response/v2".toList
  suite := .hybridSealV1
  senderKeyId := ⟨List.replicate 32 1,List.length_replicate⟩
  recipientKeyId := some ⟨List.replicate 32 2,List.length_replicate⟩
  installationId := none
  authorityGeneration := some 7
  sessionNonce := none
  policyDigest := none
  issuedAt := 1760000000000
  expiresAt := some 1760000060000
  bodyLen := 80

theorem envelope_bijective_seal : ∃ enc, sealHeader.encode = .ok enc ∧
    EnvelopeHeader.decodePrefix (enc ++ [1,2,3]) = .ok (sealHeader,enc.length) :=
  envelope_bijective.1 sealHeader [1,2,3] (by decide +kernel)

/-- An envelope decodes exactly when it is a header's bytes and a body of the
length the header declares. -/
theorem decodeEnvelope_iff {bytes head body : Bytes} {h : EnvelopeHeader} :
    EnvelopeHeader.decodeEnvelope bytes = .ok (h,head,body) ↔
      bytes = head ++ body ∧ h.encode = .ok head ∧ body.length = h.bodyLen.toNat := by
  constructor
  · intro hd
    obtain ⟨⟨header,used⟩,hp,hd⟩ := bind_ok hd
    obtain ⟨_,hlen,henc⟩ := decode_sound hp
    dsimp only at hd
    rw [if_neg (by omega)] at hd
    split at hd
    · cases hd
    · rename_i hbody
      rw [ne_eq,not_not] at hbody
      cases hd
      exact ⟨(List.take_append_drop _ _).symm,henc,hbody⟩
  · rintro ⟨rfl,henc,hbody⟩
    have hv := validate_of_encode henc
    obtain rfl := Except.ok.inj ((encode_eq hv).symm.trans henc)
    rw [EnvelopeHeader.decodeEnvelope,decode_wire hv,ok_bind]
    simp [hbody]

end Flagship.Protocol.Proofs

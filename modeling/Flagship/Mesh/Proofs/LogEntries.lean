import Flagship.Mesh.Proofs.LogRuns

namespace Flagship.Mesh.Proofs
open Lib Mesh

/-- A digit is the character of its value. -/
theorem digitChar_of_isDigit {c : Char} (h : c.isDigit = true) :
    c.toNat - '0'.toNat < 10 ∧ Nat.digitChar (c.toNat - '0'.toNat) = c := by
  have hrange := Char.isDigit_iff_toNat.mp h
  rw [show '0'.toNat = 48 from rfl,show '9'.toNat = 57 from rfl] at hrange
  rw [show '0'.toNat = 48 from rfl]
  have hlt : c.toNat - 48 < 10 := by omega
  refine ⟨hlt,?_⟩
  have hback : c = Char.ofNat (48 + (c.toNat - 48)) := by
    rw [Nat.add_sub_cancel' hrange.1,Char.ofNat_toNat]
  generalize c.toNat - 48 = d at hlt hback
  have hall : ∀ d < 10,Nat.digitChar d = Char.ofNat (48 + d) := by decide
  rw [hback,hall d hlt]

/-- Digits without a zero in front are those of the number they stand for. -/
theorem toDigits_ofDigitChars {v : Text} (hdigits : ∀ c ∈ v,c.isDigit = true) (hne : v ≠ [])
    (hlead : v.length = 1 ∨ v.head? ≠ some '0') :
    Nat.toDigits 10 (Nat.ofDigitChars 10 v 0) = v := by
  induction v using List.reverseRecOn with
  | nil => exact absurd rfl hne
  | append_singleton cs c ih =>
    obtain ⟨hlt,hchar⟩ := digitChar_of_isDigit (hdigits c (by simp))
    have hlast : Nat.toDigits 10 (c.toNat - '0'.toNat) = [c] := by
      rw [Nat.toDigits_of_lt_base hlt,hchar]
    rw [Nat.ofDigitChars_append,Nat.ofDigitChars_cons,Nat.ofDigitChars_nil]
    cases cs with
    | nil => simpa using hlast
    | cons c0 cs =>
      have hzero : c0 ≠ '0' := by
        rintro rfl
        rcases hlead with hlead | hlead <;> simp at hlead
      have hinner := ih (fun x hx => hdigits x (List.mem_append_left _ hx)) (by simp)
        (.inr (by simpa using hzero))
      have hpos : 0 < Nat.ofDigitChars 10 (c0 :: cs) 0 := by
        apply Nat.pos_of_ne_zero
        intro hnil
        rw [hnil,Nat.toDigits_zero] at hinner
        exact hzero (List.cons.inj hinner).1.symm
      rw [← Nat.toDigits_append_toDigits (by decide) hpos hlt,hinner,hlast]

/-- A number above zero is not written with a zero in front. -/
theorem head_toDigits {n : Nat} (h : 0 < n) : (Nat.toDigits 10 n).head? ≠ some '0' := by
  induction n using Nat.strong_induction_on with
  | _ n ih =>
    by_cases hlt : n < 10
    · have hall : ∀ d < 10,0 < d → [Nat.digitChar d].head? ≠ some '0' := by decide
      rw [Nat.toDigits_of_lt_base hlt]
      exact hall n hlt h
    · rw [Nat.toDigits_of_base_le (by decide) (Nat.not_lt.mp hlt),List.head?_append]
      have hdiv := ih (n / 10) (by omega) (by omega)
      cases hhead : (Nat.toDigits 10 (n / 10)).head? with
      | none => exact absurd (List.head?_eq_none_iff.mp hhead) Nat.toDigits_ne_nil
      | some c =>
        rw [hhead] at hdiv
        simpa using hdiv

/-- The texts read as decimals are those of the numbers in range. -/
theorem decimal_ok {name : String} {v : Text} {least n : Nat} (hleast : 1 ≤ least) :
    decimal name v least = .ok n ↔ v = Nat.toDigits 10 n ∧ least ≤ n ∧ n ≤ maxSafeInteger := by
  unfold decimal bad
  dsimp only
  constructor
  · intro h
    split at h
    · rename_i hok
      simp only [Bool.and_eq_true,Bool.or_eq_true,decide_eq_true_eq,bne_iff_ne,
        List.all_eq_true] at hok
      obtain ⟨⟨⟨⟨hlen,_⟩,hdigits⟩,hlead⟩,hrange⟩ := hok
      cases h
      exact ⟨(toDigits_ofDigitChars hdigits (List.length_pos_iff.mp hlen) hlead).symm,hrange⟩
    · cases h
  · rintro ⟨rfl,hlow,hhigh⟩
    have hlen : 1 ≤ (Nat.toDigits 10 n).length := Nat.length_toDigits_pos
    have hlen' : (Nat.toDigits 10 n).length ≤ 16 := by
      rw [Nat.length_toDigits_le_iff (by decide) (by decide)]
      unfold maxSafeInteger at hhigh
      omega
    have hdigits : (Nat.toDigits 10 n).all Char.isDigit = true :=
      List.all_eq_true.mpr fun c hc => Nat.isDigit_of_mem_toDigits (by decide) (by decide) hc
    have hlead := head_toDigits (n := n) (by omega)
    rw [Nat.ofDigitChars_ten_toDigits,hdigits]
    simp [hlen,hlen',hlead,hlow,hhigh]

/-- A generation that can be written down. -/
def genOk (n : Nat) : Bool := decide (1 ≤ n ∧ n ≤ maxSafeInteger)

/-- A body each field of which is well formed. -/
def validBody : RelayLogBody → Bool
  | .boxRegister nameHash boxPub regGen => hex64 nameHash && hex64 boxPub && genOk regGen
  | .boxRevoke boxPub regGen => hex64 boxPub && genOk regGen
  | .accountAuthority accountHash adminRootPub irkPub authorityGen =>
    hex64 accountHash && adminRootPub.all hex64 && hex64 irkPub && genOk authorityGen
  | .policyHead boxPub regGen policyGen policySha256 =>
    hex64 boxPub && genOk regGen && genOk policyGen && hex64 policySha256
  | .renewalKeyRevoke renewalPub => p256Pub renewalPub
  | .deviceGrantRevoke grantId devicePub => relayLogGrantIdOk grantId && hex64 devicePub
  | .certRevoke accountHash certId => hex64 accountHash && hex64 certId
  | .relayRevoke relayId relayKey => isRelayId relayId && hex64 relayKey

/-- The row that a body is written in. -/
def rowOf (sequence «at» : Nat) (b : RelayLogBody) : RelayLogEntry :=
  ⟨sequence,b.kind,«at»,b.fields.1,b.fields.2.1,b.fields.2.2.1,b.fields.2.2.2⟩

section
variable {β : Type} {name why : String} {b : β}

theorem ensure_bind {ok : Bool} {f : Unit → Except String β} :
    (ensure ok name why >>= f) = .ok b ↔ ok = true ∧ f () = .ok b := by
  cases ok with
  | true => exact ⟨fun h => ⟨rfl,h⟩,fun h => h.2⟩
  | false =>
    constructor
    · intro h
      cases h
    · rintro ⟨h,_⟩
      cases h

theorem decimal_bind {v : Text} {f : Nat → Except String β} :
    (decimal name v 1 >>= f) = .ok b ↔
      ∃ n,v = Nat.toDigits 10 n ∧ genOk n = true ∧ f n = .ok b := by
  constructor
  · intro h
    cases hdec : decimal name v 1 with
    | error why =>
      rw [hdec] at h
      cases h
    | ok n =>
      rw [hdec] at h
      obtain ⟨hv,hrange⟩ := (decimal_ok (Nat.le_refl 1)).mp hdec
      exact ⟨n,hv,decide_eq_true hrange,h⟩
  · rintro ⟨n,hv,hgen,h⟩
    rw [(decimal_ok (Nat.le_refl 1)).mpr ⟨hv,of_decide_eq_true hgen⟩]
    exact h

end

theorem hex64Field_bind {β : Type} {name : String} {v : Text} {b : β} {f : Unit → Except String β} :
    (hex64Field name v >>= f) = .ok b ↔ hex64 v = true ∧ f () = .ok b :=
  ensure_bind

theorem emptyField_bind {β : Type} {name : String} {v : Text} {b : β} {f : Unit → Except String β} :
    (emptyField name v >>= f) = .ok b ↔ v = [] ∧ f () = .ok b := by
  rw [← List.isEmpty_iff]
  exact ensure_bind

/-- What an entry is read as is a well formed body, and the entry is its row. -/
theorem parse_ok {e : RelayLogEntry} {b : RelayLogBody} (h : parseRelayLogEntry e = .ok b) :
    validBody b = true ∧ e = rowOf e.sequence e.at b := by
  obtain ⟨seq,kind,«at»,f1,f2,f3,f4⟩ := e
  unfold parseRelayLogEntry at h
  dsimp only at h ⊢
  by_cases hlow : seq < 1
  · rw [if_pos hlow] at h
    cases h
  rw [if_neg hlow] at h
  by_cases hbig : maxSafeInteger < seq ∨ maxSafeInteger < «at»
  · rw [if_pos hbig] at h
    cases h
  rw [if_neg hbig] at h
  by_cases hkind : kind = "box-register".toList
  · rw [if_pos hkind] at h
    rw [hex64Field_bind,hex64Field_bind,emptyField_bind,decimal_bind] at h
    obtain ⟨h1,h2,rfl,n,rfl,hn,h⟩ := h
    cases h
    exact ⟨by simp [validBody,h1,h2,hn],by rw [hkind]; rfl⟩
  rw [if_neg hkind] at h
  by_cases hkind : kind = "box-revoke".toList
  · rw [if_pos hkind] at h
    rw [hex64Field_bind,emptyField_bind,emptyField_bind,decimal_bind] at h
    obtain ⟨h1,rfl,rfl,n,rfl,hn,h⟩ := h
    cases h
    exact ⟨by simp [validBody,h1,hn],by rw [hkind]; rfl⟩
  rw [if_neg hkind] at h
  by_cases hkind : kind = "account-authority".toList
  · rw [if_pos hkind] at h
    rw [hex64Field_bind] at h
    obtain ⟨h1,h⟩ := h
    by_cases hroot : f2 ≠ []
    · rw [if_pos hroot,if_neg hroot,hex64Field_bind,hex64Field_bind,decimal_bind] at h
      obtain ⟨h2,h3,n,rfl,hn,h⟩ := h
      cases h
      exact ⟨by simp [validBody,h1,h2,h3,hn],by rw [hkind]; rfl⟩
    · rw [not_not] at hroot
      subst hroot
      rw [if_neg (not_not.mpr rfl),hex64Field_bind,decimal_bind] at h
      obtain ⟨h3,n,rfl,hn,h⟩ := h
      cases h
      exact ⟨by simp [validBody,h1,h3,hn],by rw [hkind]; rfl⟩
  rw [if_neg hkind] at h
  by_cases hkind : kind = "policy-head".toList
  · rw [if_pos hkind] at h
    rw [hex64Field_bind,hex64Field_bind,decimal_bind] at h
    obtain ⟨h1,h4,n,rfl,hn,h⟩ := h
    rw [decimal_bind] at h
    obtain ⟨m,rfl,hm,h⟩ := h
    cases h
    exact ⟨by simp [validBody,h1,h4,hn,hm],by rw [hkind]; rfl⟩
  rw [if_neg hkind] at h
  by_cases hkind : kind = "renewal-key-revoke".toList
  · rw [if_pos hkind] at h
    rw [ensure_bind,emptyField_bind,emptyField_bind,emptyField_bind] at h
    obtain ⟨h1,rfl,rfl,rfl,h⟩ := h
    cases h
    exact ⟨h1,by rw [hkind]; rfl⟩
  rw [if_neg hkind] at h
  by_cases hkind : kind = "device-grant-revoke".toList
  · rw [if_pos hkind] at h
    rw [ensure_bind,hex64Field_bind,emptyField_bind,emptyField_bind] at h
    obtain ⟨h1,h2,rfl,rfl,h⟩ := h
    cases h
    exact ⟨by simp [validBody,h1,h2],by rw [hkind]; rfl⟩
  rw [if_neg hkind] at h
  by_cases hkind : kind = "cert-revoke".toList
  · rw [if_pos hkind] at h
    rw [hex64Field_bind,hex64Field_bind,emptyField_bind,emptyField_bind] at h
    obtain ⟨h1,h2,rfl,rfl,h⟩ := h
    cases h
    exact ⟨by simp [validBody,h1,h2],by rw [hkind]; rfl⟩
  rw [if_neg hkind] at h
  by_cases hkind : kind = "relay-revoke".toList
  · rw [if_pos hkind] at h
    rw [ensure_bind,hex64Field_bind,emptyField_bind,emptyField_bind] at h
    obtain ⟨h1,h2,rfl,rfl,h⟩ := h
    cases h
    exact ⟨by simp [validBody,h1,h2],by rw [hkind]; rfl⟩
  rw [if_neg hkind] at h
  cases h

/-- An entry with the kind and fields of a well formed body is read as that body. -/
theorem parse_of_fields {e : RelayLogEntry} {b : RelayLogBody} (hlow : 1 ≤ e.sequence)
    (hhigh : e.sequence ≤ maxSafeInteger) (hat : e.at ≤ maxSafeInteger)
    (hvalid : validBody b = true) (hkind : e.kind = b.kind)
    (hfields : e.f1 = b.fields.1 ∧ e.f2 = b.fields.2.1 ∧ e.f3 = b.fields.2.2.1 ∧
      e.f4 = b.fields.2.2.2) : parseRelayLogEntry e = .ok b := by
  unfold parseRelayLogEntry
  rw [if_neg (by omega),if_neg (by omega)]
  cases b with
  | boxRegister nameHash boxPub regGen =>
    obtain ⟨rfl,rfl,h3,h4⟩ := hfields
    simp only [validBody,Bool.and_eq_true] at hvalid
    obtain ⟨⟨h1,h2⟩,hgen⟩ := hvalid
    have hkind : e.kind = "box-register".toList := hkind
    rw [if_pos hkind,hex64Field_bind,hex64Field_bind,emptyField_bind,decimal_bind]
    exact ⟨h1,h2,h4,regGen,h3,hgen,rfl⟩
  | boxRevoke boxPub regGen =>
    obtain ⟨rfl,h2,h3,h4⟩ := hfields
    simp only [validBody,Bool.and_eq_true] at hvalid
    obtain ⟨h1,hgen⟩ := hvalid
    have hkind : e.kind = "box-revoke".toList := hkind
    rw [if_neg (by rw [hkind]; decide),if_pos hkind,hex64Field_bind,emptyField_bind,
      emptyField_bind,decimal_bind]
    exact ⟨h1,h3,h4,regGen,h2,hgen,rfl⟩
  | accountAuthority accountHash adminRootPub irkPub authorityGen =>
    obtain ⟨rfl,h2,rfl,h4⟩ := hfields
    simp only [validBody,Bool.and_eq_true] at hvalid
    obtain ⟨⟨⟨h1,hroot⟩,h3⟩,hgen⟩ := hvalid
    have hkind : e.kind = "account-authority".toList := hkind
    rw [if_neg (by rw [hkind]; decide),if_neg (by rw [hkind]; decide),if_pos hkind,
      hex64Field_bind]
    refine ⟨h1,?_⟩
    cases adminRootPub with
    | none =>
      have hnil : e.f2 = [] := h2
      rw [if_neg (not_not.mpr hnil),if_pos hnil,hex64Field_bind,decimal_bind]
      exact ⟨h3,authorityGen,h4,hgen,rfl⟩
    | some root =>
      have heq : e.f2 = root := h2
      subst heq
      have hne : e.f2 ≠ [] := by
        intro hnil
        rw [Option.all_some,hnil] at hroot
        cases hroot
      rw [if_pos hne,if_neg hne,hex64Field_bind,hex64Field_bind,decimal_bind]
      exact ⟨hroot,h3,authorityGen,h4,hgen,rfl⟩
  | policyHead boxPub regGen policyGen policySha256 =>
    obtain ⟨rfl,h2,h3,rfl⟩ := hfields
    simp only [validBody,Bool.and_eq_true] at hvalid
    obtain ⟨⟨⟨h1,hreg⟩,hpolicy⟩,h4⟩ := hvalid
    have hkind : e.kind = "policy-head".toList := hkind
    rw [if_neg (by rw [hkind]; decide),if_neg (by rw [hkind]; decide),
      if_neg (by rw [hkind]; decide),if_pos hkind,hex64Field_bind,hex64Field_bind,decimal_bind]
    refine ⟨h1,h4,regGen,h2,hreg,?_⟩
    rw [decimal_bind]
    exact ⟨policyGen,h3,hpolicy,rfl⟩
  | renewalKeyRevoke renewalPub =>
    obtain ⟨rfl,h2,h3,h4⟩ := hfields
    have hkind : e.kind = "renewal-key-revoke".toList := hkind
    rw [if_neg (by rw [hkind]; decide),if_neg (by rw [hkind]; decide),
      if_neg (by rw [hkind]; decide),if_neg (by rw [hkind]; decide),if_pos hkind,ensure_bind,
      emptyField_bind,emptyField_bind,emptyField_bind]
    exact ⟨hvalid,h2,h3,h4,rfl⟩
  | deviceGrantRevoke grantId devicePub =>
    obtain ⟨rfl,rfl,h3,h4⟩ := hfields
    simp only [validBody,Bool.and_eq_true] at hvalid
    obtain ⟨h1,h2⟩ := hvalid
    have hkind : e.kind = "device-grant-revoke".toList := hkind
    rw [if_neg (by rw [hkind]; decide),if_neg (by rw [hkind]; decide),
      if_neg (by rw [hkind]; decide),if_neg (by rw [hkind]; decide),
      if_neg (by rw [hkind]; decide),if_pos hkind,ensure_bind,hex64Field_bind,emptyField_bind,
      emptyField_bind]
    exact ⟨h1,h2,h3,h4,rfl⟩
  | certRevoke accountHash certId =>
    obtain ⟨rfl,rfl,h3,h4⟩ := hfields
    simp only [validBody,Bool.and_eq_true] at hvalid
    obtain ⟨h1,h2⟩ := hvalid
    have hkind : e.kind = "cert-revoke".toList := hkind
    rw [if_neg (by rw [hkind]; decide),if_neg (by rw [hkind]; decide),
      if_neg (by rw [hkind]; decide),if_neg (by rw [hkind]; decide),
      if_neg (by rw [hkind]; decide),if_neg (by rw [hkind]; decide),if_pos hkind,hex64Field_bind,
      hex64Field_bind,emptyField_bind,emptyField_bind]
    exact ⟨h1,h2,h3,h4,rfl⟩
  | relayRevoke relayId relayKey =>
    obtain ⟨rfl,rfl,h3,h4⟩ := hfields
    simp only [validBody,Bool.and_eq_true] at hvalid
    obtain ⟨h1,h2⟩ := hvalid
    have hkind : e.kind = "relay-revoke".toList := hkind
    rw [if_neg (by rw [hkind]; decide),if_neg (by rw [hkind]; decide),
      if_neg (by rw [hkind]; decide),if_neg (by rw [hkind]; decide),
      if_neg (by rw [hkind]; decide),if_neg (by rw [hkind]; decide),
      if_neg (by rw [hkind]; decide),if_pos hkind,ensure_bind,hex64Field_bind,emptyField_bind,
      emptyField_bind]
    exact ⟨h1,h2,h3,h4,rfl⟩

theorem make_eq (sequence «at» : Nat) (b : RelayLogBody) : makeRelayLogEntry sequence «at» b =
    (parseRelayLogEntry (rowOf sequence «at» b) >>= fun _ => .ok (rowOf sequence «at» b)) := rfl

theorem make_of_parse {sequence «at» : Nat} {b b' : RelayLogBody}
    (h : parseRelayLogEntry (rowOf sequence «at» b) = .ok b') :
    makeRelayLogEntry sequence «at» b = .ok (rowOf sequence «at» b) := by
  rw [make_eq,h]
  rfl

/-- The row and its signature are read back from what a relay sends. -/
theorem logEntry_json (e : RelayLogEntry) (signature : Text) :
    logEntryFromJson (logEntryToJson e signature) = some (e,signature) := rfl

/-- A well formed body is made into a row that is read back as the same body, also over the
wire; an entry that is read is the row of what it is read as; and a message is of one apex
and one entry, whatever their kinds. -/
theorem relay_log_entry_codec :
    (∀ sequence «at» b,1 ≤ sequence → sequence ≤ maxSafeInteger → «at» ≤ maxSafeInteger →
      validBody b = true → ∃ e,makeRelayLogEntry sequence «at» b = .ok e ∧
        e.sequence = sequence ∧ e.at = «at» ∧ parseRelayLogEntry e = .ok b ∧
        ∀ signature,logEntryFromJson (logEntryToJson e signature) = some (e,signature)) ∧
    (∀ e b,parseRelayLogEntry e = .ok b →
      validBody b = true ∧ makeRelayLogEntry e.sequence e.at b = .ok e) ∧
    ∀ apex apex' e e' canonical,relayLogEntryCanonical apex e = some canonical →
      relayLogEntryCanonical apex' e' = some canonical → apex = apex' ∧ e = e' := by
  refine ⟨?_,?_,?_⟩
  · intro sequence «at» b hlow hhigh hat hvalid
    have hparse : parseRelayLogEntry (rowOf sequence «at» b) = .ok b :=
      parse_of_fields hlow hhigh hat hvalid rfl ⟨rfl,rfl,rfl,rfl⟩
    exact ⟨rowOf sequence «at» b,make_of_parse hparse,rfl,rfl,hparse,logEntry_json _⟩
  · intro e b hparse
    obtain ⟨hvalid,hrow⟩ := parse_ok hparse
    refine ⟨hvalid,?_⟩
    rw [hrow] at hparse
    have hmake := make_of_parse hparse
    rw [← hrow] at hmake
    exact hmake
  · intro apex apex' e e' canonical h h'
    exact relayLogEntryCanonical_inj h h'

/-- An account without an admin root. -/
def bareAuthority : RelayLogBody :=
  .accountAuthority (List.replicate 64 'a') none (List.replicate 64 'b') 3

theorem relay_log_entry_codec_bare :
    ∃ e,makeRelayLogEntry 7 5 bareAuthority = .ok e ∧
      parseRelayLogEntry e = .ok bareAuthority := by
  obtain ⟨e,hmake,_,_,hparse,_⟩ := relay_log_entry_codec.1 7 5 bareAuthority (by decide)
    (by decide) (by decide) (by decide)
  exact ⟨e,hmake,hparse⟩

end Flagship.Mesh.Proofs

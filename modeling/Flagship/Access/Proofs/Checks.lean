import Flagship.Access.Proofs.Rows

namespace Flagship.Access
open Lib

/-- The parts of a row no rank of an invited person touches. -/
structure Quiet (e e' : Row) : Prop where
  restricted : e'.restricted = e.restricted
  allow : e'.allow = e.allow
  groups : e'.groups = e.groups
  tiers : e'.roles.tiers = e.roles.tiers
  creators : e'.roles.creators = e.roles.creators
  ranks : e'.roles.ranks = e.roles.ranks
  withdrawn : e'.roles.withdrawn = e.roles.withdrawn
  coManagers : e'.roles.coManagers = e.roles.coManagers
  seq : ∀ key : Text, key.head? ∈ [some 'm',some 'r',some 'd',some 's'] →
    e'.roles.seq.get? key = e.roles.seq.get? key

theorem Quiet.refl (e : Row) : Quiet e e := ⟨rfl,rfl,rfl,rfl,rfl,rfl,rfl,rfl,fun _ _ => rfl⟩

theorem setRole_quiet (e : Row) (target : RoleTarget) {key : Text} (role : Text) (t : Nat)
    (evidence : Text) (hkey : key.head? ∈ [some 'a',some 'i',some 'g']) :
    Quiet e (e.setRole target key role t evidence).1 := by
  unfold Row.setRole
  split
  · exact Quiet.refl e
  · have hseq : ∀ k : Text, k.head? ∈ [some 'm',some 'r',some 'd',some 's'] →
        (e.roles.seq.set key (.u64 t)).get? k = e.roles.seq.get? k := by
      intro k hk
      apply OrdMap.get?_set_ne
      rintro rfl
      revert hk
      simp only [List.mem_cons,List.not_mem_nil,or_false] at hkey ⊢
      rcases hkey with h | h | h <;> rw [h] <;> decide
    cases target <;> exact ⟨rfl,rfl,rfl,rfl,rfl,rfl,rfl,rfl,hseq⟩

theorem applyInvitedRank_quiet {s : Store} {r : Text} {order : AppRankOrder} {evidence : Text}
    {target : RoleTarget} {stands : Bool}
    (hkey : order.target.head? ∈ [some 'a',some 'i',some 'g']) :
    Quiet (s.entry r) ((applyInvitedRank s r order evidence target stands).1.entry r) := by
  unfold applyInvitedRank
  split
  · exact Quiet.refl _
  · split
    · rw [staleOrApplied,Store.entry_put]
      exact setRole_quiet _ _ _ _ _ hkey
    · exact Quiet.refl _

theorem afterHead_head {t rest : Text} {c : Char} {tail : Text}
    (h : afterHead t (c :: tail) = some rest) : t.head? = some c := by
  unfold afterHead at h
  split at h
  · rename_i hp
    obtain ⟨u,rfl⟩ := hp
    rfl
  · cases h

/-- The kind of a rank target shows in its first letter. -/
theorem parseAppRankTarget_head {t : Text} {target : AppRankTarget}
    (h : parseAppRankTarget t = some target) :
    t.head? = some (match target with
      | .device _ => 'd' | .share _ => 's' | .aid _ => 'a' | .invite _ => 'i' | .grant .. => 'g') := by
  unfold parseAppRankTarget at h
  split at h
  · rename_i hh
    split at h
    · cases h
      exact afterHead_head hh
    · cases h
  split at h
  · rename_i hh
    split at h
    · cases h
      exact afterHead_head hh
    · cases h
  split at h
  · rename_i hh
    split at h
    · cases h
      exact afterHead_head hh
    · cases h
  split at h
  · rename_i hh
    split at h
    · cases h
      exact afterHead_head hh
    · cases h
  · obtain ⟨rest,hh,h⟩ := Option.bind_eq_some_iff.mp h
    obtain ⟨⟨invite,aid⟩,_,h⟩ := Option.bind_eq_some_iff.mp h
    simp only at h
    split at h
    · cases h
      exact afterHead_head hh
    · cases h

section
variable [Lowercase] [Ed25519] (people : People) (f : Facts) (r : Text)

/-- What this box trusts to sign in a state. -/
def trustAt (s : Store) : EntryTrust :=
  View.entryTrust ⟨s,people,f.catchingUp⟩ r f.installed f.nowMs people.anchors.strict

/-- The entry verifies in a state, and this is what it says. -/
def Says (s : Store) (e : AccessEntry) (v : Verified) : Prop :=
  verifyEntry e r (trustAt people f r s) = .verified v

instance (s : Store) (e : AccessEntry) (v : Verified) : Decidable (Says people f r s e v) :=
  inferInstanceAs (Decidable (_ = _))

/-- The create of a join or an accept and its signature, as they are checked. -/
def createOf (e : AccessEntry) : Option (CreateServiceInvite × Text) :=
  match e.body with
  | .join c signature _ _ _ _ => some ({ c with authorAid := asciiLower c.authorAid },signature)
  | .accept c signature _ _ => some ({ c with authorAid := asciiLower c.authorAid },signature)
  | _ => none

/-- The rank an entry sets for a device or a share: the target, the rank, when. -/
def accountRankOf (e : AccessEntry) : Option (Text × Text × Nat) :=
  match e.body with
  | .rank o signature =>
    if (appRankCanonical o).isNone = true ∨ o.serviceRef ≠ r ∨ f.installed = false ∨
        lowerHex (asciiLower signature) 128 = false ∨
        people.adminSignedAt (verifyAppRank o signature) f.nowMs people.anchors.strict = false then
      none
    else
      match parseAppRankTarget o.target with
      | some (.device pubHex) =>
        match people.classify pubHex with
        | some (.device k tier legacy) =>
          some (rankKey (.device k tier legacy),o.rank,o.issuedAt)
        | _ => none
      | some (.share _) => some (o.target,o.rank,o.issuedAt)
      | _ => none
  | _ => none

variable {people f r}

theorem applyEntry_of_said {s : Store} {e : AccessEntry} {v : Verified}
    (h : Says people f r s e v) :
    applyEntry s people f r e = applyVerified s people f r v := by
  obtain ⟨body,hshape⟩ := e
  unfold Says trustAt at h
  cases body with
  | rank o signature => cases h
  | _ =>
    simp only [applyEntry]
    rw [h]

variable (people) in
/-- A rank entry sets the rank of a device or a share, or touches nothing the
access questions read. -/
theorem applyEntry_rank (s : Store) {e : AccessEntry} {o : AppRankOrder} {signature : Text}
    (hb : e.body = .rank o signature) :
    (∃ key rank t evidence, accountRankOf people f r e = some (key,rank,t) ∧
      key.head? ∈ [some 'd',some 's'] ∧
      (applyEntry s people f r e).1.entry r =
        ((s.entry r).setAccountRank key rank t evidence).1) ∨
    accountRankOf people f r e = none ∧
      Quiet (s.entry r) ((applyEntry s people f r e).1.entry r) := by
  simp only [applyEntry,accountRankOf,hb]
  unfold applyRank
  cases hc : appRankCanonical o with
  | none => exact Or.inr ⟨by simp,Quiet.refl _⟩
  | some canonical =>
    simp only [Option.isNone_some,Bool.false_eq_true,false_or]
    split
    · exact Or.inr ⟨rfl,Quiet.refl _⟩
    cases ht : parseAppRankTarget o.target with
    | none => exact Or.inr ⟨rfl,Quiet.refl _⟩
    | some target =>
      have hhead := parseAppRankTarget_head ht
      cases target with
      | device pubHex =>
        simp only
        cases hp : people.classify pubHex with
        | none => exact Or.inr ⟨rfl,Quiet.refl _⟩
        | some p =>
          cases p with
          | coManager c => exact Or.inr ⟨rfl,Quiet.refl _⟩
          | device k tier legacy =>
            exact Or.inl ⟨rankKey (.device k tier legacy),o.rank,o.issuedAt,_,rfl,
              List.mem_cons.mpr (Or.inl rfl),Store.entry_put _ _ _⟩
      | share id =>
        exact Or.inl ⟨o.target,o.rank,o.issuedAt,_,rfl,by simp [hhead],Store.entry_put _ _ _⟩
      | aid aid => exact Or.inr ⟨rfl,applyInvitedRank_quiet (by simp [hhead])⟩
      | invite id => exact Or.inr ⟨rfl,applyInvitedRank_quiet (by simp [hhead])⟩
      | grant id aid => exact Or.inr ⟨rfl,applyInvitedRank_quiet (by simp [hhead])⟩

end

theorem ascii_of_lowerHexDigit {c : Char} (h : lowerHexDigit c = true) : c.toNat < 128 := by
  simp only [lowerHexDigit,Bool.or_eq_true,Char.isDigit,decide_eq_true_eq,Char.le_def,
    Bool.and_eq_true,UInt32.le_iff_toNat_le] at h
  have hc : c.toNat = c.val.toNat := rfl
  have hf : ('f' : Char).val.toNat = 102 := rfl
  have h9 : ('9' : Char).val.toNat = 57 := rfl
  omega

theorem toLower_of_lowerHexDigit {c : Char} (h : lowerHexDigit c = true) : c.toLower = c := by
  simp only [lowerHexDigit,Bool.or_eq_true,Char.isDigit,decide_eq_true_eq,Char.le_def,
    Bool.and_eq_true,UInt32.le_iff_toNat_le] at h
  have hc : c.toNat = c.val.toNat := rfl
  have ha : ('a' : Char).val.toNat = 97 := rfl
  have h9 : ('9' : Char).val.toNat = 57 := rfl
  exact toLower_of_not_upper (by omega)

/-- A time stands before the first colon. -/
theorem splitOnce_digits (t : Nat) (rest : Text) :
    splitOnce ':' (Nat.toDigits 10 t ++ ':' :: rest) = some (Nat.toDigits 10 t,rest) := by
  have hdigit : ∀ c ∈ Nat.toDigits 10 t, (c != ':') = true := by
    intro c hc
    have hd := Nat.isDigit_of_mem_toDigits (by decide) (by decide) hc
    rw [bne_iff_ne]
    rintro rfl
    revert hd
    decide
  unfold splitOnce
  rw [List.dropWhile_append_of_pos hdigit,List.takeWhile_append_of_pos hdigit]
  simp

theorem all_toDigits (t : Nat) : (Nat.toDigits 10 t).all Char.isDigit = true :=
  List.all_eq_true.mpr fun _ hc => Nat.isDigit_of_mem_toDigits (by decide) (by decide) hc

/-- Reading back a withdraw as it is held. -/
theorem withdrawn_of_held {e : Row} {id : Text} {t : Nat} {signature : Text}
    (h : e.roles.withdrawn.get? id = some (Nat.toDigits 10 t ++ ':' :: signature))
    (hs : lowerHex signature 128 = true) :
    e.withdrawn id = if t < 2 ^ 64 then some (t,signature) else none := by
  have hempty : (Nat.toDigits 10 t).isEmpty = false := by
    simp [Nat.toDigits_ne_nil]
  unfold Row.withdrawn
  simp only [h,Option.bind_eq_bind,Option.bind_some,splitOnce_digits,hempty,all_toDigits,hs,Bool.not_true,
    Bool.or_self,Bool.false_eq_true,↓reduceIte,Nat.ofDigitChars_ten_toDigits]

section
variable [Lowercase]

theorem toLowercase_of_lowerHex {s : Text} {n : Nat} (h : lowerHex s n = true) :
    toLowercase s = s := by
  simp only [lowerHex,Bool.and_eq_true,List.all_eq_true] at h
  rw [Lowercase.toLowercase_ascii s fun c hc => ascii_of_lowerHexDigit (h.2 c hc)]
  exact (List.map_congr_left fun c hc => toLower_of_lowerHexDigit (h.2 c hc)).trans (List.map_id _)

/-- A signature of an entry is kept in lowercase hex. -/
theorem lowerHex_of_isSig {s : Text} (h : isSig s = true) : lowerHex (toLowercase s) 128 = true := by
  simp only [isSig,anyHex,Bool.and_eq_true,List.all_eq_true,decide_eq_true_eq] at h
  have hdigit : ∀ c ∈ s, lowerHexDigit c.toLower = true := by
    intro c hc
    have hx := h.2 c hc
    simp only [hexDigit,Bool.or_eq_true] at hx
    rcases hx with hx | hx
    · rw [toLower_of_lowerHexDigit hx]
      exact hx
    · simp only [decide_eq_true_eq,Char.le_def,UInt32.le_iff_toNat_le] at hx
      have hA : ('A' : Char).val.toNat = 65 := rfl
      have hF : ('F' : Char).val.toNat = 70 := rfl
      have hn : c.toNat = c.val.toNat := rfl
      have hcase : c.toNat = 65 ∨ c.toNat = 66 ∨ c.toNat = 67 ∨ c.toNat = 68 ∨ c.toNat = 69 ∨
          c.toNat = 70 := by omega
      rcases hcase with h | h | h | h | h | h <;>
        (rw [← Char.ofNat_toNat c,h]; decide)
  have hascii : ∀ c ∈ s,c.toNat < 128 := fun c hc =>
    ascii_of_toLower (ascii_of_lowerHexDigit (hdigit c hc))
  rw [Lowercase.toLowercase_ascii s hascii]
  simp only [lowerHex,List.length_map,h.1,decide_true,Bool.true_and,List.all_eq_true,List.mem_map]
  rintro _ ⟨c,hc,rfl⟩
  exact hdigit c hc

variable [Ed25519]

variable {people : People} {f : Facts} {r : Text} {s : Store} {e : AccessEntry}

theorem verifyComCreate_some {c : CreateServiceInvite} {signature : Text} {hash : Option Text}
    {t : EntryTrust} {v : VerifiedCreate} (h : verifyComCreate c signature hash t = some v) :
    verifyCreate { c with authorAid := asciiLower c.authorAid } signature v.creatorPub = true := by
  unfold verifyComCreate at h
  split at h
  · cases h
  · obtain ⟨k,hk,rfl⟩ := Option.map_eq_some_iff.mp h
    have := List.find?_some hk
    exact this

/-- Everything an entry can say, and what it took to say it. -/
theorem verifyEntry_cases {t : EntryTrust} {v : Verified} (h : verifyEntry e r t = .verified v) :
    (∃ o signature, e.body = .mode o false signature ∧ v = .mode o.mode o.issuedAt) ∨
    (∃ o signature, e.body = .remove o false signature ∧ v = .remove o.aid o.issuedAt) ∨
    (∃ rv signature, e.body = .withdraw rv signature ∧ v = .withdraw rv (toLowercase signature)) ∨
    (∃ create signature c aid time, createOf e = some (create,signature) ∧
      verifyCreate create signature c.creatorPub = true ∧ toLowercase aid = aid ∧
      v = .join c aid time) ∨
    ∃ g signature ended, e.body = .share g signature ended ∧ lowerHex g.memberPubHex 64 = true ∧
      v = .share g.shareId
        ⟨g.memberPubHex,g.level,g.label,g.serverDomain,.u64 g.issuedAt,ended.isSome⟩ := by
  obtain ⟨body,hshape⟩ := e
  cases body with
  | rank o signature => cases h
  | mode o id signature =>
    simp only [verifyEntry] at h
    split at h
    · cases h
    · rename_i hok
      cases h
      simp only [Bool.or_eq_true,not_or,Bool.not_eq_true] at hok
      exact Or.inl ⟨o,signature,by rw [hok.1.1.1],rfl⟩
  | remove o id signature =>
    simp only [verifyEntry] at h
    split at h
    · cases h
    · rename_i hok
      cases h
      simp only [Bool.or_eq_true,not_or,Bool.not_eq_true] at hok
      exact Or.inr (Or.inl ⟨o,signature,by rw [hok.1.1],rfl⟩)
  | withdraw rv signature =>
    cases h
    exact Or.inr (Or.inr (Or.inl ⟨rv,signature,rfl,rfl⟩))
  | join create signature hash visitor time aidSig =>
    simp only [verifyEntry] at h
    split at h
    · cases h
    · generalize hv : verifyComCreate create signature (some (toLowercase hash)) t = c at h
      cases c with
      | none => cases h
      | some c =>
        simp only [Option.bind_some] at h
        split at h
        · cases h
        · cases h
          exact Or.inr (Or.inr (Or.inr (Or.inl ⟨_,_,c,_,_,rfl,verifyComCreate_some hv,
            toLowercase_idem _,rfl⟩)))
  | accept create signature a acceptSig =>
    simp only [verifyEntry] at h
    generalize hv : verifyComCreate create signature none t = c at h
    cases c with
    | none => cases h
    | some c =>
      simp only [Option.bind_some] at h
      split at h
      · cases h
      · cases h
        exact Or.inr (Or.inr (Or.inr (Or.inl ⟨_,_,c,_,_,rfl,verifyComCreate_some hv,
          toLowercase_idem _,rfl⟩)))
  | share g signature ended =>
    simp only [verifyEntry,verifyShare] at h
    split at h
    · split at h
      · rename_i hv
        cases h
        simp only [Bool.and_eq_true,EntryTrust.adminSigned,List.any_eq_true] at hv
        obtain ⟨k,_,hk⟩ := hv.1.2
        obtain ⟨canonical,hc,_⟩ := (Option.any_eq_true _ _).mp hk
        unfold shareGrantCanonical at hc
        split at hc
        · cases hc
        · rename_i hok
          simp only [not_or,Bool.not_eq_false] at hok
          exact Or.inr (Or.inr (Or.inr (Or.inr ⟨g,signature,ended,rfl,hok.2.2.1,rfl⟩)))
      · cases h
    · cases h

theorem says_join {c : VerifiedCreate} {aid : Text} {t : Nat}
    (h : Says people f r s e (.join c aid t)) : toLowercase aid = aid ∧
      ∃ create signature, createOf e = some (create,signature) ∧
        verifyCreate create signature c.creatorPub = true := by
  rcases verifyEntry_cases h with ⟨_,_,_,hv⟩ | ⟨_,_,_,hv⟩ | ⟨_,_,_,hv⟩ |
    ⟨create,signature,_,_,_,hb,hk,ha,hv⟩ | ⟨_,_,_,_,_,hv⟩ <;> cases hv
  exact ⟨ha,create,signature,hb,hk⟩

theorem says_withdraw {rv : RevokeServiceInvite} {signature : Text}
    (h : Says people f r s e (.withdraw rv signature)) : lowerHex signature 128 = true := by
  rcases verifyEntry_cases h with ⟨_,_,_,hv⟩ | ⟨_,_,_,hv⟩ | ⟨_,_,hb,hv⟩ |
    ⟨_,_,_,_,_,_,_,_,hv⟩ | ⟨_,_,_,_,_,hv⟩ <;> cases hv
  have hshape := e.shaped
  rw [hb] at hshape
  exact lowerHex_of_isSig hshape

end
end Flagship.Access

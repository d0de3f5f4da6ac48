import Flagship.Access.Proofs.Removals

namespace Flagship.Access
open Lib
open Row (removeKey)

/-- What an entry asks for, whatever the state it is handed over in. -/
inductive Terms
  | mode (restricted : Bool) (t : Nat)
  | remove (aid : Text) (t : Nat)
  | withdraw (inviteId : Text)
  | join (inviteId aid : Text) (t : Nat) (expiresAt maxRedemptions : Option Nat)
  | share
  deriving DecidableEq

def Verified.terms : Verified → Terms
  | .mode m t => .mode (decide (m = "restricted".toList)) t
  | .remove aid t => .remove aid t
  | .withdraw revoke _ => .withdraw revoke.inviteId
  | .join c aid t => .join c.inviteId aid t c.expiresAt c.maxRedemptions
  | .share _ _ => .share

section
variable [Lowercase]

def terms (e : AccessEntry) : Option Terms :=
  match e.body with
  | .rank _ _ => none
  | .mode o _ _ => some (.mode (decide (o.mode = "restricted".toList)) o.issuedAt)
  | .remove o _ _ => some (.remove o.aid o.issuedAt)
  | .withdraw rv _ => some (.withdraw rv.inviteId)
  | .join c _ _ aid t _ => some (.join c.inviteId (toLowercase aid) t c.expiresAt c.maxRedemptions)
  | .accept c _ a _ =>
    some (.join c.inviteId (toLowercase a.contactAid) a.acceptedAt c.expiresAt c.maxRedemptions)
  | .share _ _ _ => some .share

variable {people : People} {f : Facts} {r : Text} {s : Store} {e : AccessEntry}

theorem terms_rank {o : AppRankOrder} {signature : Text} (hb : e.body = .rank o signature) :
    terms e = none := by
  unfold terms
  rw [hb]

variable [Ed25519]

theorem verifyComCreate_terms {c : CreateServiceInvite} {signature : Text} {hash : Option Text}
    {t : EntryTrust} {v : VerifiedCreate} (h : verifyComCreate c signature hash t = some v) :
    v.inviteId = c.inviteId ∧ v.expiresAt = c.expiresAt ∧ v.maxRedemptions = c.maxRedemptions := by
  unfold verifyComCreate at h
  split at h
  · cases h
  · obtain ⟨k,_,rfl⟩ := Option.map_eq_some_iff.mp h
    exact ⟨rfl,rfl,rfl⟩

/-- An entry that verifies says what it asks for. -/
theorem says_terms {v : Verified} (h : Says people f r s e v) : terms e = some v.terms := by
  obtain ⟨body,hshape⟩ := e
  unfold Says at h
  cases body with
  | rank o signature => cases h
  | withdraw rv signature =>
    cases h
    rfl
  | mode o id signature =>
    simp only [verifyEntry] at h
    split at h
    · cases h
    · cases h
      rfl
  | remove o id signature =>
    simp only [verifyEntry] at h
    split at h
    · cases h
    · cases h
      rfl
  | share g signature ended =>
    simp only [verifyEntry,verifyShare] at h
    split at h
    · split at h
      · cases h
        rfl
      · cases h
    · cases h
  | join create signature hash visitor time aidSig =>
    simp only [verifyEntry] at h
    split at h
    · cases h
    · generalize hv : verifyComCreate create signature (some (toLowercase hash)) _ = c at h
      cases c with
      | none => cases h
      | some c =>
        obtain ⟨hid,hexp,hmax⟩ := verifyComCreate_terms hv
        simp only [Option.bind_some] at h
        split at h
        · cases h
        · cases h
          simp only [terms,Verified.terms,hid,hexp,hmax]
  | accept create signature a acceptSig =>
    simp only [verifyEntry] at h
    generalize hv : verifyComCreate create signature none _ = c at h
    cases c with
    | none => cases h
    | some c =>
      obtain ⟨hid,hexp,hmax⟩ := verifyComCreate_terms hv
      simp only [Option.bind_some] at h
      split at h
      · cases h
      · cases h
        simp only [terms,Verified.terms,hid,hexp,hmax]

/-- The rank order of an entry is one this box accepts. -/
def RankSigned (people : People) (f : Facts) (r : Text) (e : AccessEntry) : Prop :=
  ∃ o signature, e.body = .rank o signature ∧ (appRankCanonical o).isSome = true ∧
    o.serviceRef = r ∧ f.installed = true ∧ lowerHex (asciiLower signature) 128 = true ∧
    people.adminSignedAt (verifyAppRank o signature) f.nowMs people.anchors.strict = true

/-- The entry carries a proof this box accepts in the state. -/
def Verifies (people : People) (f : Facts) (r : Text) (s : Store) (e : AccessEntry) : Prop :=
  (∃ v, Says people f r s e v) ∨ RankSigned people f r e

/-- The state after an entry is handed over. -/
def hand (people : People) (f : Facts) (r : Text) (s : Store) (e : AccessEntry) : Store :=
  (applyEntry s people f r e).1

/-- No withdraw that counts is held for the invite, and its maker may still invite. -/
def passes (people : People) (f : Facts) (r : Text) (s : Store) (c : VerifiedCreate) : Bool :=
  !heldAgainst people f (s.entry r) c && (decide (c.tier = .admin) ||
    View.mayInvite ⟨s,people,f.catchingUp⟩ r (decide (c.tier = .coManager))
      (((s.entry r).inviteCreator c.inviteId).getD c.creatorPub))

/-- The join is in time. -/
def inTime (t : Nat) (expiresAt : Option Nat) : Bool := expiresAt.all (fun x => decide (t ≤ x))

/-- Whom a join through an uncapped invite lets in. -/
theorem join_spec {c : VerifiedCreate} {a : Text} {t : Nat}
    (hroom : (s.entry r).allow.length < allowListCap) (hid : c.inviteId ≠ [])
    (hmax : c.maxRedemptions = some 0) (hlow : toLowercase a = a) :
    (∀ i x, ((join s people f r c a t).1.entry r).InGroup i x ↔ (s.entry r).InGroup i x ∨
      i = c.inviteId ∧ x = a ∧ inTime t c.expiresAt = true ∧
        (s.entry r).stale (removeKey a) t = false ∧ passes people f r s c = true) ∧
    ∀ x, x ∈ ((join s people f r c a t).1.entry r).allow ↔ x ∈ (s.entry r).allow ∨
      x = a ∧ ¬ (s.entry r).InGroup c.inviteId a ∧ inTime t c.expiresAt = true ∧
        (s.entry r).stale (removeKey a) t = false ∧ passes people f r s c = true := by
  have hgranted : ((s.entry r).grantsOf (toLowercase a)).contains c.inviteId = true ↔
      (s.entry r).InGroup c.inviteId a := by
    rw [hlow,List.contains_iff_mem,Row.mem_grantsOf]
  -- a join that is turned away lets nobody in whom the checks would let in
  have hout : ∀ {s' : Store}, s' = s → (inTime t c.expiresAt = true →
      (s.entry r).stale (removeKey a) t = false → passes people f r s c = true →
      (s.entry r).InGroup c.inviteId a) →
      (∀ i x, (s'.entry r).InGroup i x ↔ (s.entry r).InGroup i x ∨ i = c.inviteId ∧ x = a ∧
        inTime t c.expiresAt = true ∧ (s.entry r).stale (removeKey a) t = false ∧
        passes people f r s c = true) ∧
      ∀ x, x ∈ (s'.entry r).allow ↔ x ∈ (s.entry r).allow ∨ x = a ∧
        ¬ (s.entry r).InGroup c.inviteId a ∧ inTime t c.expiresAt = true ∧
        (s.entry r).stale (removeKey a) t = false ∧ passes people f r s c = true := by
    rintro s' rfl hin
    refine ⟨fun i x => ⟨Or.inl,?_⟩,fun x => ⟨Or.inl,?_⟩⟩
    · rintro (h | ⟨rfl,rfl,h1,h2,h3⟩)
      · exact h
      · exact hin h1 h2 h3
    · rintro (h | ⟨_,hno,h1,h2,h3⟩)
      · exact h
      · exact absurd (hin h1 h2 h3) hno
  unfold join
  simp only
  split
  · rename_i hg
    exact hout rfl fun _ _ _ => hgranted.mp hg
  rename_i hnot
  split
  · rename_i hexp
    refine hout rfl fun hin => ?_
    obtain ⟨x,hx,hlt⟩ := (Option.any_eq_true _ _).mp hexp
    simp only [inTime,hx,Option.all_some,decide_eq_true_eq] at hin hlt
    omega
  rename_i hlive
  split
  · rename_i hcap
    simp [hmax] at hcap
  split
  · rename_i hrem
    refine hout rfl fun _ hst => ?_
    rw [Row.removedAfter,hlow,hst] at hrem
    cases hrem
  rename_i hrem
  split
  · rename_i hheld
    refine hout rfl fun _ _ hp => ?_
    simp only [passes,heldAgainst,hheld,Bool.not_true,Bool.false_and] at hp
    cases hp
  rename_i hheld
  split
  · rename_i hmaker
    refine hout rfl fun _ _ hp => ?_
    simp [passes,hmaker.1,hmaker.2] at hp
  rename_i hmaker
  have henters : inTime t c.expiresAt = true ∧ (s.entry r).stale (removeKey a) t = false ∧
      passes people f r s c = true := by
    refine ⟨?_,?_,?_⟩
    · unfold inTime
      cases hx : c.expiresAt with
      | none => rfl
      | some x => simpa [hx] using hlive
    · rw [Row.removedAfter,hlow] at hrem
      exact Bool.eq_false_iff.mpr hrem
    · unfold passes heldAgainst
      rw [Bool.and_eq_true,Bool.not_eq_true',Bool.or_eq_true,decide_eq_true_eq]
      refine ⟨Bool.eq_false_iff.mpr hheld,?_⟩
      by_contra hno
      obtain ⟨htier,hmay⟩ := not_or.mp hno
      exact hmaker ⟨htier,Bool.eq_false_iff.mpr hmay⟩
  have hput : ∀ (b : Bool) (s' : Store),
      (if b = true then (s',EntryResult.refused) else (s',EntryResult.applied)).1 = s' := by
    intro b s'
    cases b <;> rfl
  obtain ⟨hallow,hgroups,_,_⟩ := setInvite_effect (s.entry r) c.inviteId (tierStr c.tier) c.creatorPub
  have hroom' : (withMaker (s.entry r) c).allow.length < allowListCap := by
    unfold withMaker
    rwa [hallow]
  have hsame : ∀ i x, (withMaker (s.entry r) c).InGroup i x ↔ (s.entry r).InGroup i x := by
    intro i x
    unfold withMaker Row.InGroup Row.group
    rw [hgroups]
  rw [hput,Store.entry_put]
  refine ⟨fun i x => ?_,fun x => ?_⟩
  · refine (Row.addAllowed_inGroup hid hroom').trans ?_
    rw [hsame,hlow]
    exact or_congr_right ⟨fun h => ⟨h.1,h.2,henters⟩,fun h => ⟨h.1,h.2.1⟩⟩
  · refine (Row.addAllowed_allow hroom').trans ?_
    unfold withMaker
    rw [hallow,hlow]
    refine or_congr_right ⟨fun h => ⟨h,fun hin => hnot (hgranted.mpr hin),henters⟩,And.left⟩

/-- The invite of a join has no redemption cap. -/
def Uncapped (e : AccessEntry) : Prop :=
  ∀ i a t x m, terms e = some (.join i a t x m) → m = some 0

/-- The invite of a join has an id. -/
def Named (e : AccessEntry) : Prop :=
  ∀ i a t x m, terms e = some (.join i a t x m) → i ≠ []

/-- A signed withdraw prunes the app. -/
def prunes (people : People) (f : Facts) (r : Text) (s : Store) (rv : RevokeServiceInvite)
    (signature : Text) : Bool :=
  (withdrawRefs ⟨s,people,f.catchingUp⟩ rv signature f.nowMs).contains r

/-- What an entry does to the list and the groups of its app. -/
inductive Moves (people : People) (f : Facts) (r : Text) (s : Store) (e : AccessEntry) (row : Row) :
    Prop
  | quiet (calm : ∀ i a t x m, terms e ≠ some (.remove a t) ∧ terms e ≠ some (.withdraw i) ∧
        terms e ≠ some (.join i a t x m))
      (groups : row.groups = (s.entry r).groups) (allow : row.allow = (s.entry r).allow)
  | remove (a : Text) (t : Nat) (said : Says people f r s e (.remove a t))
      (groups : ∀ i x, row.InGroup i x ↔ (s.entry r).InGroup i x ∧
        ((s.entry r).stale (removeKey a) t = true ∨ x ≠ a))
      (allow : ∀ x, x ∈ row.allow ↔ x ∈ (s.entry r).allow ∧
        ((s.entry r).stale (removeKey a) t = true ∨ x ≠ a))
  | withdraw (rv : RevokeServiceInvite) (signature : Text)
      (said : Says people f r s e (.withdraw rv signature))
      (groups : ∀ i x, row.InGroup i x ↔ (s.entry r).InGroup i x ∧
        (prunes people f r s rv signature = true → i ≠ rv.inviteId))
      (allow : ∀ x, x ∈ row.allow ↔ x ∈ (s.entry r).allow ∧
        (prunes people f r s rv signature = true → ¬ ((s.entry r).InGroup rv.inviteId x ∧
          ∀ i, i ≠ rv.inviteId → ¬ (s.entry r).InGroup i x)))
  | join (c : VerifiedCreate) (a : Text) (t : Nat) (said : Says people f r s e (.join c a t))
      (groups : ∀ i x, row.InGroup i x ↔ (s.entry r).InGroup i x ∨ i = c.inviteId ∧ x = a ∧
        inTime t c.expiresAt = true ∧ (s.entry r).stale (removeKey a) t = false ∧
        passes people f r s c = true)
      (allow : ∀ x, x ∈ row.allow ↔ x ∈ (s.entry r).allow ∨ x = a ∧
        ¬ (s.entry r).InGroup c.inviteId a ∧ inTime t c.expiresAt = true ∧
        (s.entry r).stale (removeKey a) t = false ∧ passes people f r s c = true)

theorem hand_moves (hroom : (s.entry r).allow.length < allowListCap) (hplain : Uncapped e) (hnamed : Named e)
    (hv : Verifies people f r s e) : Moves people f r s e ((hand people f r s e).entry r) := by
  rcases hv with ⟨v,hv⟩ | ⟨o,signature,hb,_⟩
  · have hterms := says_terms hv
    have hrow : hand people f r s e = (applyVerified s people f r v).1 := by
      unfold hand
      rw [applyEntry_of_said hv]
    rw [hrow]
    cases v with
    | mode m t =>
      refine .quiet (fun _ _ _ _ _ => by simp [hterms,Verified.terms]) ?_ ?_
      · simp only [applyVerified,Store.entry_put]
        exact (applyModeOrder_effect _ _ _).2.1
      · simp only [applyVerified,Store.entry_put]
        exact (applyModeOrder_effect _ _ _).1
    | share id record =>
      refine .quiet (fun _ _ _ _ _ => by simp [hterms,Verified.terms]) ?_ ?_
      · simp only [applyVerified,Store.entry_put]
        exact (noteCoManager_effect _ _ _).2.1
      · simp only [applyVerified,Store.entry_put]
        exact (noteCoManager_effect _ _ _).1
    | remove a t =>
      have hlow : toLowercase a = a :=
        (says_remove (c := ⟨people,f,e⟩) hv).1
      refine .remove a t hv (fun i x => ?_) fun x => ?_
      · simp only [applyVerified,Store.entry_put,Row.applyRemoveOrder_inGroup,hlow]
      · simp only [applyVerified,Store.entry_put,Row.applyRemoveOrder_allow,hlow]
    | withdraw rv signature =>
      obtain ⟨hallow,hgroups,_⟩ := noteWithdrawn_effect (s.entry r) rv.inviteId rv.issuedAt signature
      obtain ⟨_,_,_,hin,hon,_⟩ := Row.revokeGroup_effect
        ((s.entry r).noteWithdrawn rv.inviteId rv.issuedAt signature) rv.inviteId
      have hsame : ∀ i x, ((s.entry r).noteWithdrawn rv.inviteId rv.issuedAt signature).InGroup i x ↔
          (s.entry r).InGroup i x := by
        intro i x
        unfold Row.InGroup Row.group
        rw [hgroups]
      simp only [hsame] at hin hon
      rw [hallow] at hon
      refine .withdraw rv signature hv (fun i x => ?_) fun x => ?_
      · simp only [applyVerified,applyWithdraw,prunes]
        split
        · rename_i hp
          rw [Store.entry_put,hin,hp]
          simp
        · rename_i hp
          rw [Store.entry_put,hsame]
          exact ⟨fun h => ⟨h,fun h' => absurd h' hp⟩,And.left⟩
      · simp only [applyVerified,applyWithdraw,prunes]
        split
        · rename_i hp
          rw [Store.entry_put,hon,hp]
          simp
        · rename_i hp
          rw [Store.entry_put,hallow]
          exact ⟨fun h => ⟨h,fun h' => absurd h' hp⟩,And.left⟩
    | join c a t =>
      have hid := hnamed _ _ _ _ _ hterms
      have hmax := hplain _ _ _ _ _ hterms
      have hlow := (says_join hv).1
      exact .join c a t hv (join_spec hroom hid hmax hlow).1 (join_spec hroom hid hmax hlow).2
  · obtain ⟨hallow,hgroups,_,_⟩ := Call.step_rank (c := ⟨people,f,e⟩) (r := r) (s := s) hb
    exact .quiet (fun _ _ _ _ _ => by simp [terms_rank hb]) hgroups hallow

end
end Flagship.Access

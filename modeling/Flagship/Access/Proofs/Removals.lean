import Flagship.Access.Proofs.Calls

namespace Flagship.Access
open Lib
open Row (removeKey)

/-- Whole numbers up to the safe bound are doubles. -/
theorem f64OfNat_of_safe {n : Nat} (h : n ≤ maxSafeInteger) : f64OfNat n = n := by
  have hlog : n.log2 - 52 = 0 := by
    have : n.log2 < 53 := by
      by_cases h0 : n = 0
      · simp [h0]
      · exact (Nat.log2_lt h0).mpr (by unfold maxSafeInteger at h; omega)
    omega
  simp [f64OfNat,hlog,Nat.mod_one]

theorem stale_u64 {e : Row} {key : Text} {n t : Nat} (hs : e.roles.seq.get? key = some (.u64 n))
    (hn : n ≤ maxSafeInteger) (h : e.stale key t = false) : n < t := by
  by_contra hle
  have ht : t ≤ maxSafeInteger := by omega
  simp only [Row.stale,hs,Option.any_some,numF64,f64OfNat_of_safe hn,f64OfNat_of_safe ht,
    decide_eq_false_iff_not,Rat.natCast_le_natCast] at h
  exact h (by omega)

theorem entryResult_stale {w : WriteAnswer} : entryResult w = .stale ↔ w = .stale := by
  cases w <;> simp [entryResult]

/-- Nothing but safe times are recorded for removals. -/
def SafeFence (r : Text) (s : Store) : Prop :=
  ∀ a l, (s.entry r).roles.seq.get? (removeKey a) = some l → ∃ n, l = .u64 n ∧ n ≤ maxSafeInteger

theorem safeFence_empty (r : Text) (b : Bool) : SafeFence r (Store.empty b) := by
  intro a l hl
  rw [Store.entry_empty] at hl
  cases hl

section
variable [Lowercase] [Ed25519]

/-- A remove order of a person that verified and was not stale. -/
def Removed (r : Text) (s : Store) (c : Call) (a : Text) (t : Nat) : Prop :=
  c.Says r s (.remove a t) ∧ c.answer r s ≠ .stale

/-- A join or an accept of a person that was applied. -/
def Joined (r : Text) (s : Store) (c : Call) (a : Text) (t : Nat) : Prop :=
  (∃ create, c.Says r s (.join create a t)) ∧ c.answer r s = .applied

variable {r a : Text} {s : Store} {c : Call} {t : Nat}

theorem says_remove (h : c.Says r s (.remove a t)) : toLowercase a = a ∧ t ≤ maxSafeInteger := by
  obtain ⟨people,f,⟨body,hshape⟩⟩ := c
  cases body with
  | remove o id signature =>
    simp only [Call.Says,Says,verifyEntry] at h
    split at h
    · cases h
    · rename_i hok
      cases h
      simp only [Bool.or_eq_true,not_or,Bool.not_eq_true,Bool.not_eq_false',EntryTrust.adminSigned,
        List.any_eq_true] at hok
      obtain ⟨k,_,hk⟩ := hok.2
      obtain ⟨canonical,hc,_⟩ := (Option.any_eq_true _ _).mp hk
      unfold serviceAllowRemoveCanonical at hc
      split at hc
      · cases hc
      · rename_i hform
        simp only [not_or,Bool.not_eq_false,not_lt] at hform
        exact ⟨toLowercase_of_lowerHex hform.2.1,hform.2.2⟩
  | _ =>
    rcases verifyEntry_cases h with ⟨_,_,_,hv⟩ | ⟨_,_,hb,_⟩ | ⟨_,_,_,hv⟩ |
      ⟨_,_,_,_,_,_,_,_,hv⟩ | ⟨_,_,_,_,_,hv⟩
    all_goals first | cases hv | cases hb

/-- A remove order is stale by the time of the last one applied. -/
theorem removed_iff : Removed r s c a t ↔
    c.Says r s (.remove a t) ∧ (s.entry r).stale (removeKey a) t = false := by
  refine and_congr_right fun hs => ?_
  have hlow := (says_remove hs).1
  have ha : c.answer r s = entryResult ((s.entry r).applyRemoveOrder a t).2 := by
    unfold Call.answer
    rw [applyEntry_of_said hs]
    rfl
  rw [ha,ne_eq,entryResult_stale]
  unfold Row.applyRemoveOrder
  rw [hlow]
  simp only
  by_cases hst : (s.entry r).stale (removeKey a) t = true
  · simp [hst]
  · rw [if_neg hst]
    simp only [hst,iff_true]
    split <;> simp

theorem not_removed {v : Verified} (hv : c.Says r s v) (hne : v ≠ .remove a t) :
    ¬ Removed r s c a t := fun h => hne (hv.unique h.1)

/-- Nobody is on the list after a call but those who were and were not removed,
and a person who joined after their last removal. -/
theorem allow_step (h : a ∈ ((c.step r s).entry r).allow) :
    (a ∈ (s.entry r).allow ∧ ∀ t, ¬ Removed r s c a t) ∨
      ∃ t, Joined r s c a t ∧ (s.entry r).stale (removeKey a) t = false := by
  rcases c.step_cases r s with ⟨hno,o,signature,hb⟩ | ⟨v,hv,he⟩ | ⟨hno,he⟩
  · rw [(Call.step_rank hb).1] at h
    exact Or.inl ⟨h,fun t hr => hno _ hr.1⟩
  · unfold Call.step at h
    rw [he] at h
    cases v with
    | mode mode t =>
      simp only [applyVerified,Store.entry_put,(applyModeOrder_effect _ _ _).1] at h
      exact Or.inl ⟨h,fun t => not_removed hv (by simp)⟩
    | share id record =>
      simp only [applyVerified,Store.entry_put,(noteCoManager_effect _ _ _).1] at h
      exact Or.inl ⟨h,fun t => not_removed hv (by simp)⟩
    | remove aid t =>
      simp only [applyVerified,Store.entry_put,Row.applyRemoveOrder_allow] at h
      refine Or.inl ⟨h.1,fun t' hr => ?_⟩
      cases hv.unique hr.1
      obtain ⟨hs,hst⟩ := removed_iff.mp hr
      rw [(says_remove hs).1,hst] at h
      rcases h.2 with hs | hne
      · cases hs
      · exact hne rfl
    | withdraw rv signature =>
      refine Or.inl ⟨?_,fun t => not_removed hv (by simp)⟩
      simp only [applyVerified,applyWithdraw] at h
      obtain ⟨ha,_,_⟩ := noteWithdrawn_effect (s.entry r) rv.inviteId rv.issuedAt signature
      split at h
      · rw [Store.entry_put,(Row.revokeGroup_effect _ _).2.2.2.2.1,ha] at h
        exact h.1
      · rw [Store.entry_put,ha] at h
        exact h
    | join create aid t =>
      have hlow := (says_join hv).1
      simp only [applyVerified] at h
      rcases join_cases s c.people c.facts r create aid t with ⟨hs,_⟩ | ⟨hrem,_,hs,hadd⟩
      · rw [hs] at h
        exact Or.inl ⟨h,fun t => not_removed hv (by simp)⟩
      · rw [hs,Store.entry_put] at h
        unfold Row.removedAfter at hrem
        rw [hlow] at hrem
        have hallow : (withMaker (s.entry r) create).allow = (s.entry r).allow :=
          (setInvite_effect _ _ _ _).1
        by_cases hin : a ∈ (s.entry r).allow
        · exact Or.inl ⟨hin,fun t => not_removed hv (by simp)⟩
        · obtain ⟨rfl,hnew⟩ := Row.addAllowed_new h (hallow ▸ hin)
          rw [hlow]
          refine Or.inr ⟨t,⟨⟨create,hv⟩,?_⟩,hrem⟩
          unfold Call.answer
          rw [he]
          exact hadd hnew
  · rw [he] at h
    exact Or.inl ⟨h,fun t hr => hno _ hr.1⟩

/-- When a person was last removed is written by their remove orders only. -/
theorem seq_step (r : Text) (s : Store) (c : Call) (a : Text) :
    ((∀ t, ¬ Removed r s c a t) ∧ ((c.step r s).entry r).roles.seq.get? (removeKey a) =
      (s.entry r).roles.seq.get? (removeKey a)) ∨
    ∃ t, Removed r s c a t ∧
      ((c.step r s).entry r).roles.seq.get? (removeKey a) = some (.u64 t) := by
  rcases c.step_cases r s with ⟨hno,o,signature,hb⟩ | ⟨v,hv,he⟩ | ⟨hno,he⟩
  · exact Or.inl ⟨fun t hr => hno _ hr.1,(Call.step_rank hb).2.2.2 a⟩
  · unfold Call.step
    rw [he]
    cases v with
    | mode mode t =>
      refine Or.inl ⟨fun t => not_removed hv (by simp),?_⟩
      simp only [applyVerified,Store.entry_put]
      exact (applyModeOrder_effect _ _ _).2.2.2 _ (ne_removeKey (by decide) a)
    | share id record =>
      refine Or.inl ⟨fun t => not_removed hv (by simp),?_⟩
      simp only [applyVerified,Store.entry_put,(noteCoManager_effect _ _ _).2.2.2]
    | remove aid t =>
      have hlow := (says_remove hv).1
      simp only [applyVerified,Store.entry_put,Row.applyRemoveOrder,hlow]
      by_cases hst : (s.entry r).stale (removeKey aid) t = true
      · rw [if_pos hst]
        refine Or.inl ⟨fun t' hr => ?_,rfl⟩
        cases hv.unique hr.1
        rw [(removed_iff.mp hr).2] at hst
        cases hst
      · rw [if_neg hst]
        by_cases ha : a = aid
        · subst ha
          exact Or.inr ⟨t,removed_iff.mpr ⟨hv,Bool.eq_false_iff.mpr hst⟩,
            OrdMap.get?_set_self _ _ _⟩
        · refine Or.inl ⟨fun t' => not_removed hv ?_,
            OrdMap.get?_set_ne fun hk => ha (removeKey_inj hk)⟩
          rintro ⟨⟩
          exact ha rfl
    | withdraw rv signature =>
      refine Or.inl ⟨fun t => not_removed hv (by simp),?_⟩
      simp only [applyVerified,applyWithdraw]
      obtain ⟨_,_,hs⟩ := noteWithdrawn_effect (s.entry r) rv.inviteId rv.issuedAt signature
      split
      · rw [Store.entry_put,(Row.revokeGroup_effect _ _).1.seq,hs]
      · rw [Store.entry_put,hs]
    | join create aid t =>
      refine Or.inl ⟨fun t => not_removed hv (by simp),?_⟩
      simp only [applyVerified]
      rcases join_cases s c.people c.facts r create aid t with ⟨hs,_⟩ | ⟨_,_,hs,_⟩
      · rw [hs]
      · rw [hs,Store.entry_put,Row.addAllowed_roles.1]
        unfold withMaker
        rw [(setInvite_effect _ _ _ _).2.2.2]
  · rw [he]
    exact Or.inl ⟨fun t hr => hno _ hr.1,rfl⟩

theorem safeFence_step (h : SafeFence r s) : SafeFence r (c.step r s) := by
  intro a l hl
  rcases seq_step r s c a with ⟨_,he⟩ | ⟨t,hr,he⟩
  · exact h a l (he ▸ hl)
  · rw [he] at hl
    cases hl
    exact ⟨t,rfl,(says_remove hr.1).2⟩

theorem safeFence_run (h : SafeFence r s) (calls : List Call) :
    SafeFence r (run (Call.step r) s calls) :=
  run_invariant (I := SafeFence r) (fun _ _ hs => safeFence_step hs) h calls

/-- The recorded removal of a person only moves on. -/
theorem fence_step {n : Nat} (hf : SafeFence r s)
    (h : (s.entry r).roles.seq.get? (removeKey a) = some (.u64 n)) :
    ∃ n', ((c.step r s).entry r).roles.seq.get? (removeKey a) = some (.u64 n') ∧ n ≤ n' := by
  rcases seq_step r s c a with ⟨_,he⟩ | ⟨t,hr,he⟩
  · exact ⟨n,he.trans h,le_refl n⟩
  · obtain ⟨_,hl,hn⟩ := hf a _ h
    cases hl
    exact ⟨t,he,(stale_u64 h hn (removed_iff.mp hr).2).le⟩

theorem fence_run {n : Nat} (hf : SafeFence r s) (calls : List Call)
    (h : (s.entry r).roles.seq.get? (removeKey a) = some (.u64 n)) :
    ∃ n', ((run (Call.step r) s calls).entry r).roles.seq.get? (removeKey a) = some (.u64 n') ∧
      n ≤ n' := by
  induction calls generalizing s n with
  | nil => exact ⟨n,h,le_refl n⟩
  | cons c calls ih =>
    obtain ⟨m,hm,hle⟩ := fence_step (c := c) hf h
    obtain ⟨n',hn,hle'⟩ := ih (safeFence_step hf) hm
    exact ⟨n',hn,hle.trans hle'⟩

/-- Every removal of a run is dated no later than the one recorded. -/
theorem removals_before {u : Nat} (hf : SafeFence r s) (calls : List Call)
    (hst : ((run (Call.step r) s calls).entry r).stale (removeKey a) u = false) :
    Along (Call.step r) (fun s c => ∀ t, Removed r s c a t → t < u) s calls := by
  induction calls generalizing s with
  | nil => trivial
  | cons c calls ih =>
    refine ⟨fun t hr => ?_,ih (safeFence_step hf) hst⟩
    have hseq : ((c.step r s).entry r).roles.seq.get? (removeKey a) = some (.u64 t) := by
      rcases seq_step r s c a with ⟨hno,_⟩ | ⟨t',hr',he⟩
      · exact absurd hr (hno t)
      · cases hr.1.unique hr'.1
        exact he
    obtain ⟨n,hn,hle⟩ := fence_run (safeFence_step hf) calls hseq
    obtain ⟨_,hl,hsafe⟩ := safeFence_run (safeFence_step hf) calls a _ hn
    cases hl
    exact hle.trans_lt (stale_u64 hn hsafe hst)

/-- Whoever is on the list at the end of a run was on it at the start or came
in by a join that no removal recorded by then is newer than. -/
theorem allow_run (calls : List Call) (h : a ∈ ((run (Call.step r) s calls).entry r).allow) :
    a ∈ (s.entry r).allow ∨ ∃ mid join rest u, calls = mid ++ join :: rest ∧
      Joined r (run (Call.step r) s mid) join a u ∧
      ((run (Call.step r) s mid).entry r).stale (removeKey a) u = false := by
  induction calls generalizing s with
  | nil => exact Or.inl h
  | cons c calls ih =>
    rcases ih h with hs | ⟨mid,join,rest,u,rfl,hj,hst⟩
    · rcases allow_step hs with ⟨ha,_⟩ | ⟨u,hj,hst⟩
      · exact Or.inl ha
      · exact Or.inr ⟨[],c,calls,u,rfl,hj,hst⟩
    · exact Or.inr ⟨c :: mid,join,rest,u,rfl,hj,hst⟩

/-- The removal fence: a removed person who is on the list afterwards came back
by a later join dated after every removal of them before it, and the removal
recorded for a person never moves back. -/
theorem removed_stays_out_until_newer_join (b : Bool) (r a : Text) (before after : List Call) :
    (∀ (call : Call) (t : Nat), Removed r (run (Call.step r) (Store.empty b) before) call a t →
      a ∈ ((run (Call.step r) (Store.empty b) (before ++ call :: after)).entry r).allow →
      ∃ mid join rest u, after = mid ++ join :: rest ∧
        Joined r (run (Call.step r) (Store.empty b) (before ++ call :: mid)) join a u ∧ t < u ∧
        Along (Call.step r) (fun s c => ∀ t', Removed r s c a t' → t' < u) (Store.empty b)
          (before ++ call :: mid)) ∧
    ∀ l, ((run (Call.step r) (Store.empty b) before).entry r).roles.seq.get? (removeKey a) =
        some l →
      ∃ n n', l = .u64 n ∧ n ≤ n' ∧
        ((run (Call.step r) (Store.empty b) (before ++ after)).entry r).roles.seq.get?
          (removeKey a) = some (.u64 n') := by
  have hf := safeFence_run (safeFence_empty r b) before
  constructor
  · intro call t hr ha
    rw [run_append,run_cons] at ha
    rcases allow_run after ha with hs | ⟨mid,join,rest,u,rfl,hj,hst⟩
    · rcases allow_step hs with ⟨_,hno⟩ | ⟨u,⟨⟨create,hj⟩,_⟩,_⟩
      · exact absurd hr (hno t)
      · cases hj.unique hr.1
    · have hrun : run (Call.step r) (Store.empty b) (before ++ call :: mid) =
          run (Call.step r) (call.step r (run (Call.step r) (Store.empty b) before)) mid := by
        rw [run_append,run_cons]
      have hall := removals_before (safeFence_empty r b) (before ++ call :: mid) (hrun ▸ hst)
      exact ⟨mid,join,rest,u,rfl,hrun ▸ hj,(along_append.mp hall).2.1 t hr,hall⟩
  · intro l hl
    obtain ⟨n,rfl,_⟩ := hf a l hl
    obtain ⟨n',hn,hle⟩ := fence_run hf after hl
    exact ⟨n,n',rfl,hle,by rw [run_append]; exact hn⟩

end

section
open Sample

theorem joined_again_after_removal : ∃ mid join rest u,
    [laterJoin] = mid ++ join :: rest ∧
    Joined app (run (Call.step app) (Store.empty true)
      ([call 20 (joins 'a' 3)] ++ call 20 (removes 'a' 5) :: mid)) join (key 'a') u ∧ 5 < u ∧
    Along (Call.step app) (fun s c => ∀ t, Removed app s c (key 'a') t → t < u) (Store.empty true)
      ([call 20 (joins 'a' 3)] ++ call 20 (removes 'a' 5) :: mid) :=
  (removed_stays_out_until_newer_join true app (key 'a') [call 20 (joins 'a' 3)]
    [laterJoin]).1 (call 20 (removes 'a' 5)) 5 ⟨by decide +kernel,by decide +kernel⟩
    (by decide +kernel)

end
end Flagship.Access

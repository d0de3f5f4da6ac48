import Flagship.Access.Proofs.Calls

namespace Flagship.Access
open Lib

theorem inGroup_of_groups {e e' : Row} {id x : Text} (h : e'.groups = e.groups)
    (hx : e'.InGroup id x) : e.InGroup id x := by
  unfold Row.InGroup Row.group at hx ⊢
  rwa [h] at hx

theorem withdrawn_congr {e e' : Row} {id : Text}
    (h : e'.roles.withdrawn.get? id = e.roles.withdrawn.get? id) :
    e'.withdrawn id = e.withdrawn id := by
  unfold Row.withdrawn
  rw [h]

section
variable [Ed25519]

/-- A withdraw that verifies was issued at a time that can be signed. -/
theorem issuedAt_of_verifies {rv : RevokeServiceInvite} {signature k : Text}
    (h : verifyInviteRevoke rv signature k = true) : rv.issuedAt ≤ maxSafeInteger := by
  obtain ⟨canonical,hc,_⟩ := (Option.any_eq_true _ _).mp h
  by_contra hbig
  simp only [revokeInviteCanonical,canonicalV1,List.mapM_cons,List.mapM_nil,Field.render,
    if_neg hbig] at hc
  cases hf : fieldText rv.inviteId <;> simp [hf] at hc

variable [Lowercase]

theorem verifies_of_adminSigned {people : People} {rv : RevokeServiceInvite} {signature : Text}
    {now : Nat} (h : withdrawAdminSigned people rv signature now = true) :
    ∃ k, verifyInviteRevoke rv signature k = true := by
  simp only [withdrawAdminSigned,Bool.or_eq_true,Bool.and_eq_true] at h
  rcases h with h | ⟨_,h⟩
  · unfold People.adminSignedAt at h
    split at h
    · cases h
    · split at h
      · exact ⟨_,h⟩
      · simp only [Bool.or_eq_true,List.any_eq_true,Bool.and_eq_true] at h
        rcases h with h | ⟨g,_,h⟩
        · exact ⟨_,h⟩
        · exact ⟨_,h.1.2⟩
  · obtain ⟨k,_,hk⟩ := (Option.any_eq_true _ _).mp h
    exact ⟨k,hk⟩

variable {r id x : Text} {s : Store} {c : Call}

/-- A join is applied, and a person comes into a group, only past the withdraw
held for the invite. -/
theorem applied_not_held {create : VerifiedCreate} {aid : Text} {t : Nat}
    (hv : c.Says r s (.join create aid t)) (h : c.answer r s = .applied) :
    heldAgainst c.people c.facts (s.entry r) create = false := by
  unfold Call.answer at h
  rw [applyEntry_of_said hv] at h
  rcases join_cases s c.people c.facts r create aid t with ⟨_,hs⟩ | ⟨_,hheld,_⟩
  · exact absurd h hs
  · exact hheld

theorem inGroup_step (h : ((c.step r s).entry r).InGroup id x) :
    (s.entry r).InGroup id x ∨ ∃ create aid t, c.Says r s (.join create aid t) ∧
      create.inviteId = id ∧ heldAgainst c.people c.facts (s.entry r) create = false := by
  rcases c.step_cases r s with ⟨_,o,signature,hb⟩ | ⟨v,hv,he⟩ | ⟨_,he⟩
  · exact Or.inl (inGroup_of_groups (Call.step_rank hb).2.1 h)
  · unfold Call.step at h
    rw [he] at h
    cases v with
    | mode mode t =>
      simp only [applyVerified,Store.entry_put] at h
      exact Or.inl (inGroup_of_groups (applyModeOrder_effect _ _ _).2.1 h)
    | share id record =>
      simp only [applyVerified,Store.entry_put] at h
      exact Or.inl (inGroup_of_groups (noteCoManager_effect _ _ _).2.1 h)
    | remove aid t =>
      simp only [applyVerified,Store.entry_put,Row.applyRemoveOrder_inGroup] at h
      exact Or.inl h.1
    | withdraw rv signature =>
      have hnote := (noteWithdrawn_effect (s.entry r) rv.inviteId rv.issuedAt signature).2.1
      simp only [applyVerified,applyWithdraw] at h
      split at h
      · rw [Store.entry_put,(Row.revokeGroup_effect _ _).2.2.2.1] at h
        exact Or.inl (inGroup_of_groups hnote h.1)
      · rw [Store.entry_put] at h
        exact Or.inl (inGroup_of_groups hnote h)
    | join create aid t =>
      simp only [applyVerified] at h
      rcases join_cases s c.people c.facts r create aid t with ⟨hs,_⟩ | ⟨_,hheld,hs,_⟩
      · rw [hs] at h
        exact Or.inl h
      · by_cases hid : create.inviteId = id
        · exact Or.inr ⟨create,aid,t,hv,hid,hheld⟩
        · rw [hs,Store.entry_put] at h
          have hg := (setInvite_effect (s.entry r) create.inviteId (tierStr create.tier)
            create.creatorPub).2.1
          exact Or.inl (inGroup_of_groups hg (Row.addAllowed_inGroup_other (Ne.symm hid) h))
  · rw [he] at h
    exact Or.inl h

/-- A withdraw held for an invite stays as it is. -/
theorem held_step {raw : Text} (h : (s.entry r).roles.withdrawn.get? id = some raw)
    (hne : raw ≠ []) : ((c.step r s).entry r).roles.withdrawn.get? id = some raw := by
  rcases c.step_cases r s with ⟨_,o,signature,hb⟩ | ⟨v,hv,he⟩ | ⟨_,he⟩
  · rw [(Call.step_rank hb).2.2.1]
    exact h
  · unfold Call.step
    rw [he]
    cases v with
    | mode mode t =>
      simp only [applyVerified,Store.entry_put]
      rw [(applyModeOrder_effect _ _ _).2.2.1]
      exact h
    | share id record =>
      simp only [applyVerified,Store.entry_put]
      rw [(noteCoManager_effect _ _ _).2.2.1]
      exact h
    | remove aid t =>
      simp only [applyVerified,Store.entry_put,Row.applyRemoveOrder]
      split <;> exact h
    | withdraw rv signature =>
      have hnote := Row.noteWithdrawn_keeps rv.inviteId rv.issuedAt signature h hne
      simp only [applyVerified,applyWithdraw]
      split
      · rw [Store.entry_put,(Row.revokeGroup_effect _ _).2.1]
        exact hnote
      · rw [Store.entry_put]
        exact hnote
    | join create aid t =>
      simp only [applyVerified]
      rcases join_cases s c.people c.facts r create aid t with ⟨hs,_⟩ | ⟨_,_,hs,_⟩
      · rw [hs]
        exact h
      · rw [hs,Store.entry_put,Row.addAllowed_roles.1]
        unfold withMaker
        rw [(setInvite_effect _ _ _ _).2.2.1]
        exact h
  · rw [he]
    exact h

theorem held_run {raw : Text} (calls : List Call)
    (h : (s.entry r).roles.withdrawn.get? id = some raw) (hne : raw ≠ []) :
    ((run (Call.step r) s calls).entry r).roles.withdrawn.get? id = some raw :=
  run_invariant (I := fun s : Store => (s.entry r).roles.withdrawn.get? id = some raw)
    (fun _ _ hs => held_step hs hne) h calls

/-- Once a withdraw is handed over, one is held: this one where none was. -/
theorem held_of_withdraw {rv : RevokeServiceInvite} {signature : Text}
    (hv : c.Says r s (.withdraw rv signature)) : ∃ raw, raw ≠ [] ∧
      ((c.step r s).entry r).roles.withdrawn.get? rv.inviteId = some raw ∧
      (raw = Nat.toDigits 10 rv.issuedAt ++ ':' :: signature ∨
        (s.entry r).roles.withdrawn.get? rv.inviteId = some raw) := by
  have hstep : ((c.step r s).entry r).roles.withdrawn =
      ((s.entry r).noteWithdrawn rv.inviteId rv.issuedAt signature).roles.withdrawn := by
    unfold Call.step
    rw [applyEntry_of_said hv]
    simp only [applyVerified,applyWithdraw]
    split
    · rw [Store.entry_put,(Row.revokeGroup_effect _ _).2.1]
    · rw [Store.entry_put]
  rw [hstep]
  unfold Row.noteWithdrawn
  split
  · rename_i hheld
    obtain ⟨raw,hraw,hne⟩ := (Option.any_eq_true _ _).mp hheld
    exact ⟨raw,by simpa using hne,hraw,Or.inr hraw⟩
  · refine ⟨_,?_,OrdMap.get?_set_self _ _ _,Or.inl ?_⟩
    · simp
    · rw [toLowercase_of_lowerHex (says_withdraw hv)]

/-- A held withdraw counts against an entry: an admin signed it, or whoever
signed the create that the entry carries. -/
def Counts (id : Text) (held : Nat × Text) (c : Call) : Prop :=
  withdrawAdminSigned c.people ⟨id,held.1⟩ held.2 c.facts.nowMs = true ∨
    ∀ create signature k, createOf c.entry = some (create,signature) →
      verifyCreate create signature k = true → verifyInviteRevoke ⟨id,held.1⟩ held.2 k = true

theorem Counts.against {held : Nat × Text} {create : VerifiedCreate} {aid : Text} {t : Nat}
    (h : Counts create.inviteId held c) (hv : c.Says r s (.join create aid t))
    (hw : (s.entry r).withdrawn create.inviteId = some held) :
    heldAgainst c.people c.facts (s.entry r) create = true := by
  simp only [heldAgainst,hw,Option.any_some,Bool.or_eq_true]
  rcases h with h | h
  · exact Or.inl h
  · obtain ⟨_,message,signature,hc,hk⟩ := says_join hv
    exact Or.inr (h message signature create.creatorPub hc hk)

/-- Nothing else is held for the invite when the withdraw comes, or what is held
counts against every entry that follows. -/
def HeldCounts (r id : Text) (s : Store) (calls : List Call) : Prop :=
  ∀ raw, (s.entry r).roles.withdrawn.get? id = some raw → raw ≠ [] →
    ∃ held, (s.entry r).withdrawn id = some held ∧ ∀ c ∈ calls, Counts id held c

/-- After a withdraw that an admin signed, handed over where nothing else is
held that does not count, no join through the invite is applied and nobody comes
into its group. -/
theorem withdrawn_for_good (r : Text) (s : Store) (w : Call) (rv : RevokeServiceInvite)
    (signature : Text) (calls : List Call) (hw : w.Says r s (.withdraw rv signature))
    (hsigned : ∀ c ∈ calls,
      withdrawAdminSigned c.people rv signature c.facts.nowMs = true)
    (hheld : HeldCounts r rv.inviteId s calls) (before : List Call) (c : Call) (after : List Call)
    (hcalls : calls = before ++ c :: after) :
    (∀ create aid t, c.Says r (run (Call.step r) (w.step r s) before) (.join create aid t) →
      create.inviteId = rv.inviteId →
      c.answer r (run (Call.step r) (w.step r s) before) ≠ .applied) ∧
    ∀ x, ((c.step r (run (Call.step r) (w.step r s) before)).entry r).InGroup rv.inviteId x →
      ((run (Call.step r) (w.step r s) before).entry r).InGroup rv.inviteId x := by
  have hmem : c ∈ calls := by simp [hcalls]
  obtain ⟨raw,hne,hraw,hfrom⟩ := held_of_withdraw hw
  have hat := held_run before hraw hne
  obtain ⟨held,hread,hcounts⟩ : ∃ held,
      ((run (Call.step r) (w.step r s) before).entry r).withdrawn rv.inviteId = some held ∧
        Counts rv.inviteId held c := by
    rcases hfrom with rfl | hold
    · obtain ⟨k,hk⟩ := verifies_of_adminSigned (hsigned c hmem)
      have hsafe : rv.issuedAt < 2 ^ 64 := by
        have := issuedAt_of_verifies hk
        unfold maxSafeInteger at this
        omega
      refine ⟨(rv.issuedAt,signature),?_,Or.inl (hsigned c hmem)⟩
      rw [withdrawn_of_held hat (says_withdraw hw),if_pos hsafe]
    · obtain ⟨held,hread,hall⟩ := hheld raw hold hne
      exact ⟨held,(withdrawn_congr (hat.trans hold.symm)).trans hread,hall c hmem⟩
  have hbars : ∀ create aid t,
      c.Says r (run (Call.step r) (w.step r s) before) (.join create aid t) →
      create.inviteId = rv.inviteId → heldAgainst c.people c.facts
        ((run (Call.step r) (w.step r s) before).entry r) create = true := by
    intro create aid t hv hid
    rw [← hid] at hcounts hread
    exact hcounts.against hv hread
  constructor
  · intro create aid t hv hid happlied
    have := applied_not_held hv happlied
    rw [hbars create aid t hv hid] at this
    cases this
  · intro x hx
    rcases inGroup_step hx with hin | ⟨create,aid,t,hv,hid,hno⟩
    · exact hin
    · rw [hbars create aid t hv hid] at hno
      cases hno

end

section
open Sample

theorem withdrawn_for_good_first : laterJoin.answer app
    ((call 20 (withdraws '0' 2)).step app (Store.empty true)) ≠ .applied :=
  (withdrawn_for_good app (Store.empty true) (call 20 (withdraws '0' 2)) ⟨invite,2⟩ (sig '0')
    [laterJoin] (by decide +kernel) (by decide +kernel)
    (fun _ h => by rw [Store.entry_empty] at h; cases h) [] laterJoin [] rfl).1
    ⟨invite,app,some 0,none,.admin,key '0'⟩ (key 'a') 10 (by decide +kernel) rfl

/-- A withdraw with a made-up signature comes first and is the one held: after
the owner's own, the next person still joins. -/
theorem joined_after_owner_withdrew :
    let s := (call 20 (withdraws '1' 1)).step app (Store.empty true)
    let s' := (call 20 (withdraws '0' 2)).step app s
    withdrawAdminSigned people ⟨invite,2⟩ (sig '0') 20 = true ∧ people.anchors.strict = false ∧
    (call 20 (withdraws '0' 2)).Says app s (.withdraw ⟨invite,2⟩ (sig '0')) ∧
    laterJoin.answer app s' = .applied ∧
    ¬ (s'.entry app).InGroup invite (key 'a') ∧
    ((laterJoin.step app s').entry app).InGroup invite (key 'a') := by
  unfold Row.InGroup
  decide +kernel

end
end Flagship.Access

import Flagship.Authority.Proofs.Progress
import Flagship.Authority.Proofs.StartsOnce

namespace Flagship.Authority
open Lib Mesh OperationLedger

section
variable {c : Call} {i : Nat} {x : Outside} {s₀ d : Daemon}

/-- A write of the grants. -/
theorem persist_progress {write : GrantWrite} (hinv : Steady d) (hguar : Progress s₀ d)
    {post : Outside → Daemon → Except Failure Unit → Daemon → Prop}
    (h : ∀ y t₀ t,Steady t → Progress t₀ t → Progress d t → post y t₀ (.ok ()) t) :
    (GrantIndex.persist write).wp (hubContract.terms c i) post x s₀ d := by
  simp only [GrantIndex.persist,wp_bind,wp_get,wp_disk,wp_modify,wp_awaits]
  refine ⟨hinv,hguar,?_⟩
  intro y t hrely hinv' hcond
  rw [if_pos (hub_made _ y t hcond)]
  refine ⟨hinv'.of_eq rfl,(Progress.refl t).into rfl rfl,?_⟩
  intro y t' hrely' hinv'' hcond'
  refine ⟨hinv''.of_eq rfl,(Progress.refl t').into rfl rfl,?_⟩
  intro y u hrely'' hinvu hcond''
  rw [if_pos (hub_made _ y u hcond'')]
  have hfirst : Progress d t := hrely
  have hsecond : Progress t t' := Progress.outOf hrely' rfl rfl
  have hthird : Progress t' u := Progress.outOf hrely'' rfl rfl
  exact h y u _ (hinvu.of_eq rfl) ((Progress.refl u).into rfl rfl)
    ((hfirst.trans (hsecond.trans hthird)).into rfl rfl)

/-- A change of the grants that keeps what is revoked revoked. -/
theorem progress_grants {index : GrantIndex} {events : List Event}
    (h : ∀ a g,d.hub.grants.get? a = some g → g.revokedAt.isSome = true →
      ∃ g',index.get? a = some g' ∧ g'.revokedAt.isSome = true) :
    Progress d { d with hub := { d.hub with grants := index },history := d.history ++ events } := by
  refine ⟨?_,fun _ hop => hop,events,rfl,fun _ _ hw => Or.inl hw⟩
  intro a ha
  obtain ⟨g,hg,hrevoked⟩ := ha
  exact h a g hg hrevoked

theorem issue_progress {input : NewGrant} (hinv : Steady d) (hguar : Progress s₀ d)
    {post : Outside → Daemon → Except Failure Grant → Daemon → Prop}
    (h : ∀ y t₀ result t,Steady t → Progress t₀ t → post y t₀ result t) :
    (GrantIndex.issue input).wp (hubContract.terms c i) post x s₀ d := by
  rw [GrantIndex.issue,wp_bind,wp_get]
  dsimp only
  split
  · exact (wp_throw _).mpr (h x s₀ _ d hinv hguar)
  next grant hgrant =>
    have hadmits := GrantIndex.admits_of_newGrant hgrant
    have hput : Progress d { d with
        hub := { d.hub with grants := d.hub.grants.put grant }
        history := d.history ++ [.issues grant.id] } := by
      refine progress_grants ?_
      intro a g hg hrevoked
      refine ⟨g,?_,hrevoked⟩
      rw [GrantIndex.get?_put hinv.grants,if_neg]
      · exact hg
      · intro heq
        rw [heq,hadmits.get?] at hg
        cases hg
    simp only [modifyGrants,notes,wp_bind,wp_modify,wp_tryCatch]
    refine persist_progress ?_ (hguar.trans ?_) ?_
    · exact ⟨hinv.keyed,hinv.usable,hinv.grants.put grant,hinv.work⟩
    · exact hput
    · intro y t₀ t hinv' hguar' _
      exact (wp_pure _).mpr (h y t₀ _ t hinv' hguar')

/-- A revocation in the index: the grant is revoked from then on. -/
theorem revokeGrant_progress {id reason : Text} {time : Int} (hinv : Steady d)
    (hguar : Progress s₀ d)
    {post : Outside → Daemon → Except Failure RevocationResult → Daemon → Prop}
    (h : ∀ y t₀ t result,Steady t → Progress t₀ t → Progress d t →
      result.revoked.map (·.id) = d.hub.grants.revokes id →
      (d.hub.grants.grants.contains id = true → t.hub.grants.Revoked id) →
      post y t₀ (.ok result) t) :
    (GrantIndex.revoke id reason time).wp (hubContract.terms c i) post x s₀ d := by
  simp only [GrantIndex.revoke,notes,wp_bind,wp_get,wp_modify]
  split
  next hempty =>
    have hnotes : Progress d { d with
        history := d.history ++ if d.hub.grants.grants.contains id then [.revokes id] else [] } :=
      Progress.of_eq rfl rfl rfl _ rfl
    refine (wp_pure _).mpr (h x s₀ _ _ (hinv.of_eq rfl) (hguar.trans hnotes) hnotes ?_ ?_)
    · rw [← @GrantIndex.revokes_eq _ time _ reason,List.isEmpty_iff.mp hempty]
    · exact GrantIndex.revoked_of_empty hinv.grants hempty
  next =>
    have hchange : Progress d { d with
        hub := { d.hub with grants := d.hub.grants.afterRevoke id reason time }
        history := d.history ++ if d.hub.grants.grants.contains id then [.revokes id] else [] } := by
      refine progress_grants ?_
      intro a g hg hrevoked
      exact GrantIndex.revoked_afterRevoke ⟨g,hg,hrevoked⟩
    simp only [modifyGrants,wp_bind,wp_modify,wp_tryCatch]
    refine persist_progress ?_ (hguar.trans ?_) ?_
    · exact ⟨hinv.keyed,hinv.usable,hinv.grants.afterRevoke id reason time,hinv.work⟩
    · exact hchange
    · intro y t₀ t hinv' hguar' hon
      dsimp only
      rw [wp_get]
      refine (wp_pure _).mpr (h y t₀ t _ hinv' hguar' (hchange.trans hon) ?_ ?_)
      · exact GrantIndex.revokes_eq
      · intro hcontains
        exact hon.revoked id (GrantIndex.revoked_self hinv.grants hcontains)

theorem awaitAll_progress {α : Type} (ks : List α) (place : Place) (hinv : Steady d)
    (hguar : Progress s₀ d) {post : Outside → Daemon → Except Failure PUnit → Daemon → Prop}
    (h : ∀ y t₀ t,Steady t → Progress t₀ t → Progress d t → post y t₀ (.ok ()) t) :
    (ks.forM fun _ => awaits place : Code PUnit).wp (hubContract.terms c i) post x s₀ d := by
  induction ks generalizing x s₀ d with
  | nil => exact (wp_pure _).mpr (h x s₀ d hinv hguar (.refl d))
  | cons k ks ih =>
    simp only [List.forM,wp_bind,wp_awaits]
    refine ⟨hinv,hguar,?_⟩
    intro y t hrely hinv' _
    refine ih hinv' (.refl t) ?_
    intro z t₀ u hinvu hguaru hon
    exact h z t₀ u hinvu hguaru (Progress.trans hrely hon)

theorem awaitRevoked_progress (handlers : List GrantKind) (gs : List Grant) (hinv : Steady d)
    (hguar : Progress s₀ d) {post : Outside → Daemon → Except Failure Unit → Daemon → Prop}
    (h : ∀ y t₀ t,Steady t → Progress t₀ t → Progress d t → post y t₀ (.ok ()) t) :
    (AuthorityHub.awaitRevoked handlers gs).wp (hubContract.terms c i) post x s₀ d := by
  induction gs generalizing x s₀ d with
  | nil => exact (wp_pure _).mpr (h x s₀ d hinv hguar (.refl d))
  | cons g gs ih =>
    rw [AuthorityHub.awaitRevoked,wp_bind]
    refine awaitAll_progress _ _ hinv hguar ?_
    intro y t₀ t hinv' hguar' hon
    refine ih hinv' hguar' ?_
    intro z t₀ u hinvu hguaru hon'
    exact h z t₀ u hinvu hguaru (hon.trans hon')

/-- The operation the ledger holds under this id is stopped. -/
def StoppedAt (id : Text) (d : Daemon) : Prop :=
  ∃ now,d.hub.ops.ops.get? id = some now ∧ isStopped now = true

theorem Tracks.stopped {op : Operation} (h : Tracks op d) (hstopped : isStopped op = true) :
    StoppedAt op.id d := by
  obtain ⟨now,hnow,_,hstops⟩ := h
  exact ⟨now,hnow,hstops hstopped⟩

theorem StoppedAt.on {t : Daemon} {id : Text} (h : StoppedAt id d) (hinv : Steady d)
    (hon : Progress d t) : StoppedAt id t := by
  obtain ⟨now,hnow,hstopped⟩ := h
  rw [← hinv.keyed id now hnow]
  exact (hon.tracks now (tracks_self hinv.keyed hnow)).stopped hstopped

/-- The operation is not over. -/
def OpenAt (id : Text) (d : Daemon) : Prop :=
  ∃ now,d.hub.ops.ops.get? id = some now ∧ now.state ∉ terminal

/-- `cancel` of an operation, which is stopped after it. -/
theorem cancel_progress {id reason : Text} (hinv : Steady d) (hguar : Progress s₀ d)
    {post : Outside → Daemon → Except Failure Operation → Daemon → Prop}
    (herr : ¬ OpenAt id d → ∀ e,post x s₀ (.error e) d)
    (h : ∀ y t₀ t next,Steady t → Progress t₀ t → Progress d t → StoppedAt id t →
      post y t₀ (.ok next) t) :
    (cancel i id reason).wp (hubContract.terms c i) post x s₀ d := by
  refine wp_cancel hub_made ?_ ?_ ?_
  · intro hnot
    refine herr ?_
    intro hopen
    obtain ⟨now,hnow,hlive⟩ := hopen
    rcases hnot with hclosed | hnot
    · rw [hinv.usable] at hclosed
      cases hclosed
    · exact hnot now hnow (mem_live.mpr hlive)
  · intro op hop hlive _
    have hid := hinv.keyed id op hop
    refine lands_progress hinv hguar (held_self (hid.symm ▸ hop)) (fun h => absurd h hlive) ?_
    intro y t₀ t next hmoved hnext hinv' hguar' hon htracks
    refine h y t₀ t next hinv' hguar' hon ?_
    rw [← hid,← hmoved.id]
    exact htracks.stopped (by simp [isStopped,hnext,terminal])
  · intro op next hop hexec hcrossed hmoved hnext hcancel
    have hid := hinv.keyed id op hop
    have hstopped : isStopped next = true := by
      simp [isStopped,hmoved.crossed hcrossed,hcancel]
    refine commits_progress hinv hguar ?_ (fun _ => ⟨rfl,rfl⟩) ?_
    · intro now hnow
      rw [hmoved.id,hid,hop] at hnow
      cases hnow
      exact ⟨hmoved.grantDeps,fun _ => hstopped⟩
    · intro y t₀ t hinv' hguar' hon htracks
      refine h y t₀ t next hinv' hguar' hon ?_
      rw [← hid,← hmoved.id]
      exact htracks.stopped hstopped

/-- What is asked of a walk that is to come through: the operation it is to cancel
next is not over whenever it goes on. -/
def GoesThrough (c : Call) (i : Nat) : Prop :=
  ∀ op rest y t,(hubContract.terms c i).cond (.cancelling (op :: rest)) y t → OpenAt op.id t

theorem cancelEach_progress {ids : List Text} {reason : Text}
    {post : Outside → Daemon → Except Failure (List Operation) → Daemon → Prop}
    (ops touched : List Operation) (hinv : Steady d) (hguar : Progress s₀ d)
    (htracks : ∀ op ∈ ops,Tracks op d)
    (hnext : GoesThrough c i → ∀ op ∈ (ops.filter (toCancel ids)).head?,OpenAt op.id d)
    (h : ∀ y t₀ result t,Steady t → Progress t₀ t → Progress d t →
      (GoesThrough c i → (∃ touched,result = .ok touched) ∧
        ∀ op ∈ ops,dependsOn ids op = true → StoppedAt op.id t) → post y t₀ result t) :
    (cancelEach i ids reason ops touched).wp (hubContract.terms c i) post x s₀ d := by
  induction ops generalizing touched x s₀ d with
  | nil =>
    exact (wp_pure _).mpr (h x s₀ _ d hinv hguar (.refl d)
      fun _ => ⟨⟨touched,rfl⟩,fun op hop => by cases hop⟩)
  | cons op rest ih =>
    have hrest : ∀ op' ∈ rest,Tracks op' d := fun op' hop' => htracks op' (List.mem_cons_of_mem _ hop')
    rw [cancelEach]
    split
    next hcancel =>
      rw [List.filter_cons_of_pos hcancel] at hnext
      rw [wp_bind]
      refine cancel_progress hinv hguar ?_ ?_
      · intro hover e
        refine h x s₀ _ d hinv hguar (.refl d) ?_
        intro hgoes
        exact absurd (hnext hgoes op (by simp)) hover
      · intro y t₀ t next hinv' hguar' hon hstopped
        dsimp only
        rw [wp_bind,wp_awaits]
        refine ⟨hinv',hguar',?_⟩
        intro z u hrely hinvu hcond
        have honu : Progress d u := hon.trans hrely
        refine ih _ hinvu (.refl u) (fun op' hop' => honu.tracks op' (hrest op' hop')) ?_ ?_
        · intro hgoes op' hop'
          cases hfilter : rest.filter (toCancel ids) with
          | nil => rw [hfilter] at hop'; cases hop'
          | cons first others =>
            rw [hfilter] at hop' hcond
            cases hop'
            exact hgoes op' others z u hcond
        · intro y t₀ result v hinvv hguarv honv hall
          refine h y t₀ result v hinvv hguarv (honu.trans honv) ?_
          intro hgoes
          obtain ⟨hok,hstops⟩ := hall hgoes
          refine ⟨hok,?_⟩
          intro op' hop' hdeps
          rcases List.mem_cons.mp hop' with rfl | hop'
          · exact hstopped.on hinv' (Progress.trans hrely honv)
          · exact hstops op' hop' hdeps
    next hcancel =>
      rw [List.filter_cons_of_neg hcancel] at hnext
      refine ih touched hinv hguar hrest hnext ?_
      intro y t₀ result v hinvv hguarv honv hall
      refine h y t₀ result v hinvv hguarv honv ?_
      intro hgoes
      obtain ⟨hok,hstops⟩ := hall hgoes
      refine ⟨hok,?_⟩
      intro op' hop' hdeps
      rcases List.mem_cons.mp hop' with rfl | hop'
      · -- it depends on the grants and is not to be cancelled, so it is over
        have hover : isStopped op' = true := by
          cases hterminal : terminal.contains op'.state with
          | true => rw [isStopped,hterminal,Bool.true_or]
          | false => rw [toCancel,hterminal,hdeps] at hcancel; exact absurd rfl hcancel
        exact ((htracks op' (by simp)).stopped hover).on hinv honv
      · exact hstops op' hop' hdeps

theorem tracks_values (hinv : Steady d) : ∀ op ∈ d.hub.ops.values,Tracks op d :=
  fun _ hop => tracks_self hinv.keyed ((mem_values hinv.keyed).mp hop)

/-- What is to be cancelled first is not over, where the operations are read. -/
theorem open_first {ids : List Text} (hinv : Steady d) :
    ∀ op ∈ (d.hub.ops.values.filter (toCancel ids)).head?,OpenAt op.id d := by
  intro op hop
  obtain ⟨hmem,hcancel⟩ := List.mem_filter.mp (List.mem_of_mem_head? hop)
  refine ⟨op,(mem_values hinv.keyed).mp hmem,?_⟩
  simp only [toCancel,Bool.and_eq_true,Bool.not_eq_eq_eq_not,Bool.not_true] at hcancel
  intro hterminal
  rw [List.contains_iff_mem.mpr hterminal] at hcancel
  cases hcancel.1

/-- Work whose handler was called is not there any more. -/
theorem progress_erase {work : Text} (h : .cancels work ∈ d.history) :
    Progress d { d with hub := { d.hub with work := d.hub.work.erase work } } := by
  refine ⟨fun _ h => h,fun _ h => h,[],by simp,?_⟩
  intro id w hw
  by_cases hid : id = work
  · subst hid
    exact Or.inr (Or.inl h)
  · exact Or.inl ((OrdMap.get?_erase_ne hid).trans hw)

theorem Steady.erase (h : Steady d) (work : Text) :
    Steady { d with hub := { d.hub with work := d.hub.work.erase work } } := by
  refine ⟨h.keyed,h.usable,h.grants,?_⟩
  intro id w hw
  by_cases hid : id = work
  · subst hid
    rw [OrdMap.get?_erase_self] at hw
    cases hw
  · rw [OrdMap.get?_erase_ne hid] at hw
    exact h.work id w hw

theorem awaitHandlers_progress (n : Nat) (pending : List (Text × Work)) (stopped stuck : List Text)
    (hinv : Steady d) (hguar : Progress s₀ d) (hcalled : ∀ p ∈ pending,.cancels p.1 ∈ d.history)
    {post : Outside → Daemon → Except Failure (List Text × List Text) → Daemon → Prop}
    (h : ∀ y t₀ t result,Steady t → Progress t₀ t → Progress d t → post y t₀ (.ok result) t) :
    (AuthorityHub.awaitHandlers n pending stopped stuck).wp (hubContract.terms c i) post x s₀ d := by
  induction n generalizing x s₀ d pending stopped stuck with
  | zero =>
    rw [AuthorityHub.awaitHandlers,wp_bind,wp_awaits]
    refine ⟨hinv,hguar,?_⟩
    intro y t hrely hinv' _
    exact (wp_pure _).mpr (h y t t _ hinv' (.refl t) hrely)
  | succ n ih =>
    rw [AuthorityHub.awaitHandlers,wp_bind,wp_awaits]
    refine ⟨hinv,hguar,?_⟩
    intro y t hrely hinv' _
    obtain ⟨events,hevents,_⟩ := Progress.history hrely
    have hcalled' : ∀ p ∈ pending,.cancels p.1 ∈ t.history := by
      intro p hp
      rw [hevents]
      exact List.mem_append_left _ (hcalled p hp)
    dsimp only
    rw [wp_bind,wp_read]
    dsimp only
    split
    · refine ih pending stopped stuck hinv' (.refl t) hcalled' ?_
      intro z t₀ u result hinvu hguaru hon
      exact h z t₀ u result hinvu hguaru (Progress.trans hrely hon)
    next work w hget =>
      have hless : ∀ p ∈ pending.eraseIdx (y.handler % pending.length),.cancels p.1 ∈ t.history :=
        fun p hp => hcalled' p (List.mem_of_mem_eraseIdx hp)
      split
      · rw [wp_bind,wp_modify]
        have herase := progress_erase (hcalled' _ (List.mem_of_getElem? hget))
        refine ih _ _ _ (hinv'.erase work) herase hless ?_
        intro z t₀ u result hinvu hguaru hon
        exact h z t₀ u result hinvu hguaru (Progress.trans hrely (herase.trans hon))
      · refine ih _ _ _ hinv' (.refl t) hless ?_
        intro z t₀ u result hinvu hguaru hon
        exact h z t₀ u result hinvu hguaru (Progress.trans hrely hon)

end

section
variable {c : Call} {i : Nat} {x : Outside} {s₀ d : Daemon} {id : Text}

/-- A revocation that covers what depends on a grant it is to end revokes one of
the grants it depends on. -/
theorem revokes_of_covered {index : GrantIndex} {deps : List Text} (hsound : index.Sound)
    (h : isCovered index id deps = true) {dep : Text} (hdep : dep ∈ deps)
    (hderives : index.Derives dep id) : deps.any (index.revokes id).contains = true := by
  rw [isCovered,Bool.or_eq_true] at h
  rcases h with h | h
  · have hany : deps.any (index.family id).contains = true :=
      List.any_eq_true.mpr ⟨dep,hdep,List.contains_iff_mem.mpr (GrantIndex.mem_family hsound hderives)⟩
    rw [hany] at h
    cases h
  · exact h

/-- A grant whose ancestor is revoked is not live. -/
theorem dead_of_revoked (h : d.hub.grants.Revoked id) {a : Text} (ha : d.hub.grants.Derives a id)
    (time : Int) : d.hub.grants.isLive a time = false := by
  obtain ⟨g,hg,hrevoked⟩ := h
  cases hlive : d.hub.grants.isLive a time with
  | false => rfl
  | true =>
    obtain ⟨g',hg',hnot,_⟩ := GrantIndex.stands_of_isLive hlive ha
    rw [hg] at hg'
    cases hg'
    rw [hnot] at hrevoked
    cases hrevoked

/-- What a revocation has found and stopped in the state in which it looked through
the operations, and through the work. -/
theorem reached_of {began looked called ended : Daemon} (hinv : Steady began)
    (hcovers : coversAll id began = true) (hlookedInv : Steady looked)
    (hlooked : Progress began looked)
    (hrevoked : ended.hub.grants.Revoked id) (hcalled : Progress began called) (hended : Progress called ended)
    (hoperations : ∀ op ∈ looked.hub.ops.values,
      dependsOn (began.hub.grants.revokes id) op = true → StoppedAt op.id ended)
    (hwork : ∀ work w,called.hub.work.get? work = some w →
      AuthorityHub.runsUnder (began.hub.grants.revokes id) w = true → .cancels work ∈ ended.history) :
    Reached id began ended := by
  simp only [coversAll,Bool.and_eq_true,List.all_eq_true,Bool.or_eq_true] at hcovers
  obtain ⟨⟨_,hops⟩,hworks⟩ := hcovers
  have hon := hcalled.trans hended
  refine ⟨?_,?_,?_⟩
  · intro a time ha
    exact dead_of_revoked hrevoked ha time
  · intro op hop hdep
    obtain ⟨dep,hdep,_,hderives⟩ := hdep
    have hget := (mem_values hinv.keyed).mp hop
    have htracks := tracks_self hinv.keyed hget
    rcases hops op hop with hstopped | hcovered
    · exact (hon.tracks op htracks).stopped hstopped
    · obtain ⟨now,hnow,hdeps,_⟩ := hlooked.tracks op htracks
      have hid := hlookedInv.keyed op.id now hnow
      have hfinds : dependsOn (began.hub.grants.revokes id) now = true := by
        rw [dependsOn,hdeps]
        exact revokes_of_covered hinv.grants hcovered hdep hderives
      rw [← hid]
      exact hoperations now ((mem_values hlookedInv.keyed).mpr (hid.symm ▸ hnow)) hfinds
  · intro work w hw hdep hnot
    obtain ⟨dep,hdep,_,hderives⟩ := hdep
    obtain ⟨events,hevents,hkept⟩ := hcalled.history
    obtain ⟨events',hevents',_⟩ := hended.history
    rcases hworks (work,w) (began.hub.work.mem_entries.mpr hw) with hcancels | hcovered
    · rw [hevents',hevents]
      exact List.mem_append_left _ (List.mem_append_left _ (List.contains_iff_mem.mp hcancels))
    · rcases hkept work w hw with hw | hcancels | hunregisters
      · exact hwork work w hw (revokes_of_covered hinv.grants hcovered hdep hderives)
      · rw [hevents']
        exact List.mem_append_left _ hcancels
      · refine absurd ?_ hnot
        rw [hevents',hevents,List.append_assoc,List.drop_left]
        exact List.mem_append_left _ hunregisters

/-- The handlers of all doomed work are called at once. -/
theorem progress_cancelAll (doomed : List (Text × Work)) :
    Progress d { d with
      flagged := d.flagged ++ doomed.filterMap (·.2.order)
      history := d.history ++ doomed.map (.cancels ·.1) } :=
  Progress.of_eq rfl rfl rfl _ rfl

/-- `revoke` of the hub: where nothing it is to cancel ends before its turn comes, it
resolves and has reached everything. -/
theorem revoke_progress {reason : Text} (hinv : Steady d) (hguar : Progress s₀ d)
    {post : Outside → Daemon → Except Failure RevocationReport → Daemon → Prop}
    (h : ∀ y t₀ result t,Steady t → Progress t₀ t → (GoesThrough c i → coversAll id d = true →
      (∃ report,result = .ok report) ∧ Reached id d t) → post y t₀ result t) :
    (AuthorityHub.revoke i id reason).wp (hubContract.terms c i) post x s₀ d := by
  rw [AuthorityHub.revoke,wp_bind,wp_read]
  dsimp only
  rw [wp_bind]
  refine revokeGrant_progress hinv hguar ?_
  intro y t₀ t₁ result hinv₁ hguar₁ hon₁ hids hrevoked
  dsimp only
  rw [wp_bind,wp_awaits]
  refine ⟨hinv₁,hguar₁,?_⟩
  intro y t₂ hrely hinv₂ _
  dsimp only
  rw [wp_bind,wp_get]
  dsimp only
  rw [wp_bind]
  refine awaitRevoked_progress _ _ hinv₂ (.refl t₂) ?_
  intro y t₀ t₃ hinv₃ hguar₃ hon₃
  have hon₂ : Progress d t₃ := hon₁.trans (Progress.trans hrely hon₃)
  dsimp only
  rw [wp_bind,cancelDependingOn,wp_bind,wp_get]
  dsimp only
  refine cancelEach_progress _ _ hinv₃ hguar₃ (tracks_values hinv₃) (fun _ => open_first hinv₃) ?_
  · intro y t₀ found t₄ hinv₄ hguar₄ hon₄ hall
    rw [hids] at hall
    cases found with
    | error e =>
      refine h y t₀ _ t₄ hinv₄ hguar₄ ?_
      intro hgoes _
      obtain ⟨⟨_,hok⟩,_⟩ := hall hgoes
      cases hok
    | ok touched =>
      dsimp only
      rw [wp_bind,wp_awaits]
      refine ⟨hinv₄,hguar₄,?_⟩
      intro y t₅ hrely₅ hinv₅ _
      have hon₅ : Progress d t₅ := hon₂.trans (hon₄.trans hrely₅)
      dsimp only
      rw [wp_bind,wp_get]
      dsimp only
      rw [hids,wp_bind,AuthorityHub.cancelAll,wp_bind,wp_modify]
      dsimp only
      rw [notes,wp_modify]
      dsimp only
      rw [wp_bind]
      refine awaitHandlers_progress _ _ _ _ ?_ ?_ ?_ ?_
      · exact hinv₅.of_eq rfl
      · exact progress_cancelAll _
      · intro p hp
        exact List.mem_append_right _ (List.mem_map_of_mem hp)
      · intro y t₀ t₆ ends hinv₆ hguar₆ hon₆
        refine (wp_pure _).mpr (h y t₀ _ t₆ hinv₆ hguar₆ ?_)
        intro hgoes hcovers
        obtain ⟨_,hstops⟩ := hall hgoes
        have hcontains : d.hub.grants.grants.contains id = true := by
          simp only [coversAll,Bool.and_eq_true] at hcovers
          exact hcovers.1.1
        have hend : Progress t₅ t₆ := (progress_cancelAll _).trans hon₆
        refine ⟨⟨_,rfl⟩,reached_of hinv hcovers hinv₃ hon₂ ?_ hon₅ hend ?_ ?_⟩
        · exact hend.revoked id (Progress.revoked hrely₅ id (hon₄.revoked id (hon₃.revoked id
            (Progress.revoked hrely id (hrevoked hcontains)))))
        · intro op hop hdeps
          exact (hstops op hop hdeps).on hinv₄ (Progress.trans hrely₅ hend)
        · intro work w hw hunder
          obtain ⟨events,hevents,_⟩ := hon₆.history
          rw [hevents]
          refine List.mem_append_left _ (List.mem_append_right _ (List.mem_map.mpr ⟨(work,w),?_,rfl⟩))
          exact List.mem_filter.mpr ⟨t₅.hub.work.mem_entries.mpr hw,hunder⟩

end
end Flagship.Authority

import Flagship.Authority.Proofs.Attempts
import Flagship.Authority.Proofs.Transitions

namespace Flagship.Authority
open Lib Mesh OperationLedger

section
variable {c : Call} {i : Nat} {x : Outside} {s₀ d : Daemon}

theorem leaves_error (e : Failure) (hkept : Kept d.hub.ops.ops d.history)
    (hchanges : Changes (·.call = some i) s₀ d) :
    transitionContract.leaves c i x s₀ (.error e) d := by
  refine ⟨hkept,hchanges,by cases c <;> trivial,?_⟩
  intro id answer _ h
  cases h

/-- A call that neither starts an operation, nor takes it past the point of no
return, nor cancels it. -/
def isPlain : Call → Bool
  | .begins _ | .crossPointOfNoReturn _ | .cancel _ _ => false
  | _ => true

/-- A plain call leaves off with nothing to show but what it committed. -/
theorem leaves_ok {answer : Answer} (hplain : isPlain c = true)
    (hkept : Kept d.hub.ops.ops d.history) (hchanges : Changes (·.call = some i) s₀ d) :
    transitionContract.leaves c i x s₀ (.ok answer) d := by
  refine ⟨hkept,hchanges,?_,?_⟩
  · cases c with
    | begins id => cases hplain
    | cancel id reason => cases hplain
    | _ => trivial
  · intro id _ hgoes
    rcases hgoes with rfl | rfl
    · cases hplain
    · cases hplain

theorem begins_keeps {id : Text} (hkept : Kept d.hub.ops.ops d.history) (hunseen : Unseen i d) :
    (do return Answer.operation (← begins i id) : Code Answer).wp
      (transitionContract.terms (.begins id) i) (transitionContract.leaves (.begins id) i) x d d := by
  have herr : ∀ y t₀ e t,Kept t.hub.ops.ops t.history → Changes (·.call = some i) t₀ t →
      transitionContract.leaves (.begins id) i y t₀ (.error e) t :=
    fun y t₀ e t hk hc => leaves_error e hk hc
  rw [wp_bind]
  refine wp_begins transitions_made (fun e => herr x d e d hkept (Changes.refl d)) ?_
  intro op hop hstate
  refine ⟨lands_cancelled hkept (Changes.refl d) hop (onward_cancelled (by simp [hstate,terminal]))
    herr,checked_of hkept hunseen hop (Or.inl hstate) herr ?_⟩
  intro y t₀ t _ now next hnow hmoved hnext hcommitted
  have hid : next.id = id := hmoved.id.trans (hkept.keyed id op hop)
  refine (wp_pure _).mpr
    ⟨hcommitted.kept,hcommitted.changes,⟨now,next,hcommitted.commits,⟨?_,hnext⟩,hid⟩,?_⟩
  · rw [hnow,hstate]
    simp
  · intro id' answer hgoes _ j n hmem hn
    have hid' : id' = id := by
      rcases hgoes with h | h
      · cases h; rfl
      · cases h
    exact hcommitted.first hnext j n hmem (by rw [hn,hid',hid])

theorem cross_keeps {id : Text} (hkept : Kept d.hub.ops.ops d.history) (hunseen : Unseen i d) :
    (do return Answer.operation (← crossPointOfNoReturn i id) : Code Answer).wp
      (transitionContract.terms (.crossPointOfNoReturn id) i)
      (transitionContract.leaves (.crossPointOfNoReturn id) i) x d d := by
  have herr : ∀ y t₀ e t,Kept t.hub.ops.ops t.history → Changes (·.call = some i) t₀ t →
      transitionContract.leaves (.crossPointOfNoReturn id) i y t₀ (.error e) t :=
    fun y t₀ e t hk hc => leaves_error e hk hc
  rw [wp_bind]
  refine wp_crossPointOfNoReturn transitions_made
    (fun e => herr x d e d hkept (Changes.refl d)) ?_
  intro op hop hstate
  refine checked_of hkept hunseen hop (Or.inr hstate) herr ?_
  intro y t₀ t _ now next _ hmoved hnext hcommitted
  refine (wp_pure _).mpr ⟨hcommitted.kept,hcommitted.changes,trivial,?_⟩
  intro id' answer hgoes _ j n hmem hn
  have hid' : id' = id := by
    rcases hgoes with h | h
    · cases h
    · cases h; rfl
  exact hcommitted.first hnext j n hmem
    (by rw [hn,hid',hmoved.id,hkept.keyed id op hop])

/-- A move that ends in the ledger and nothing more. -/
theorem lands_leaves {id : Text} {op : Operation} {state : OperationState}
    (hplain : isPlain c = true) (hkept : Kept d.hub.ops.ops d.history)
    (hguar : Changes (·.call = some i) s₀ d) (hop : d.hub.ops.ops.get? id = some op)
    (hon : Onward op.state state) (hexec : state ≠ .executing) :
    Lands (transitionContract.terms c i) i op state
      (fun y t₀ result t => match result with
        | .ok a => (pure (Answer.operation a) : Code Answer).wp (transitionContract.terms c i)
            (transitionContract.leaves c i) y t₀ t
        | .error e => transitionContract.leaves c i y t₀ (.error e) t) s₀ d := by
  refine lands_of hkept hguar ((hkept.keyed id op hop).symm ▸ hop) hon
    (fun h => absurd h hexec) ?_
  intro y t₀ t next _ _ hcommitted
  exact (wp_pure _).mpr (leaves_ok hplain hcommitted.kept hcommitted.changes)

/-- `cancel`, whoever calls it: it commits, or leaves things as they are. -/
theorem cancel_keeps {id reason : Text}
    {post : Outside → Daemon → Except Failure Operation → Daemon → Prop}
    (hkept : Kept d.hub.ops.ops d.history) (hguar : Changes (·.call = some i) s₀ d)
    (hunseen : ∀ next,.answers i next ∈ d.history → next.id ≠ id)
    (herr : ∀ e,post x s₀ (.error e) d)
    (h : ∀ y t₀ t next,next.id = id →
      Committed i d.history (d.hub.ops.ops.get? id) next t₀ t → post y t₀ (.ok next) t) :
    (cancel i id reason).wp (transitionContract.terms c i) post x s₀ d := by
  refine wp_cancel transitions_made (fun _ => herr) ?_ ?_
  · intro op hop hlive _
    have hid := hkept.keyed id op hop
    refine lands_of hkept hguar (hid.symm ▸ hop) (onward_cancelled hlive) (fun h => by cases h) ?_
    intro y t₀ t next hmoved _ hcommitted
    exact h y t₀ t next (hmoved.id.trans hid) (hop ▸ hcommitted)
  · intro op next hop hexec _ hmoved hnext _
    have hid : next.id = id := hmoved.id.trans (hkept.keyed id op hop)
    refine Committed.of_may (fun _ => rfl) hkept hguar ⟨?_,?_⟩ ?_ ?_
    · intro op' hop'
      rw [hid,hop] at hop'
      cases hop'
      rw [hexec,hnext]
      exact Onward.refl _
    · intro _
      exact ⟨op,by rw [hid]; exact hop,Or.inr hexec⟩
    · intro _ hmem
      exact hunseen next hmem hid
    · intro y t₀ t hcommitted
      rw [hid] at hcommitted
      exact h y t₀ t next hid hcommitted

theorem cancelEach_keeps {grantIds : List Text} {reason : Text}
    {post : Outside → Daemon → Except Failure (List Operation) → Daemon → Prop}
    (hpost : ∀ y t₀ result t,Kept t.hub.ops.ops t.history → Changes (·.call = some i) t₀ t →
      post y t₀ result t) (ops touched : List Operation) (hnodup : (ops.map (·.id)).Nodup)
    (hkept : Kept d.hub.ops.ops d.history) (hguar : Changes (·.call = some i) s₀ d)
    (hunseen : ∀ next,.answers i next ∈ d.history → ∀ op ∈ ops,next.id ≠ op.id) :
    (cancelEach i grantIds reason ops touched).wp (transitionContract.terms c i) post x s₀ d := by
  induction ops generalizing touched x s₀ d with
  | nil => exact (wp_pure _).mpr (hpost x s₀ _ d hkept hguar)
  | cons op rest ih =>
    obtain ⟨hnot,hrest⟩ := List.nodup_cons.mp hnodup
    simp only [cancelEach]
    split
    · rw [wp_bind]
      refine cancel_keeps hkept hguar (fun next hmem => hunseen next hmem op (by simp))
        (fun e => hpost x s₀ _ d hkept hguar) ?_
      intro y t₀ t next hid hcommitted
      simp only [wp_bind,wp_awaits]
      refine ⟨hcommitted.kept,hcommitted.changes,?_⟩
      intro z u hrely hinv _
      refine ih _ hrest hinv (Changes.refl u) ?_
      intro n hmem op' hop' hn
      obtain ⟨_,events,hevents,hcalls⟩ := hrely
      rw [hevents] at hmem
      rcases List.mem_append.mp hmem with hmem | hmem
      · rcases hcommitted.mine n hmem with rfl | hmem
        · exact hnot (List.mem_map.mpr ⟨op',hop',hn.symm.trans hid⟩)
        · exact hunseen n hmem op' (List.mem_cons_of_mem _ hop') hn
      · exact absurd rfl (hcalls _ hmem)
    · exact ih touched hrest hkept hguar fun next hmem op' hop' =>
        hunseen next hmem op' (List.mem_cons_of_mem _ hop')

theorem values_nodup (hkeyed : ∀ id op,d.hub.ops.ops.get? id = some op → op.id = id) :
    (d.hub.ops.values.map (·.id)).Nodup := by
  have hids : d.hub.ops.values.map (·.id) = d.hub.ops.ops.keys := by
    simp only [OperationLedger.values,OrdMap.keys,List.map_map]
    apply List.map_congr_left
    intro entry hentry
    exact hkeyed entry.1 entry.2 (d.hub.ops.ops.mem_entries.mp hentry)
  rw [hids]
  exact OrdMap.keys_nodup _

theorem ledgerLoaded_holds (ops : List Operation) :
    transitionContract.Holds (ledgerLoaded ops) := by
  refine ⟨⟨keyed_ofFile ops,?_,?_,?_,?_⟩,?_,?_⟩
  · intro i prior next hmem
    cases hmem
  · intro i prior next j prior' next' hmem
    cases hmem
  · intro i next hmem
    cases hmem
  · intro i next hmem
    cases hmem
  · intro i _ e he
    cases he
  · intro i c fiber hi
    simp [ledgerLoaded] at hi

theorem cancelResolved_answers {w : Process} (hw : transitionContract.Holds w) {id : Text}
    (h : CancelResolved w id) :
    ∃ i op,.answers i op ∈ w.shared.history ∧ op.id = id ∧ op.state = .cancelled := by
  rcases h with ⟨i,reason,op,hended,hstate⟩ | h
  · obtain ⟨hmem,hid⟩ := hw.2.2 i _ _ hended
    exact ⟨i,op,hmem,hid,hstate⟩
  · exact h

variable [Sha256]

/-- Every transition keeps to the contract. -/
theorem transition_keeps (hkept : Kept d.hub.ops.ops d.history) (hunseen : Unseen i d)
    (htransition : isTransition c = true) (hfresh : FreshId x d) :
    (body c i).wp (transitionContract.terms c i) (transitionContract.leaves c i) x d d := by
  have hrefl : Changes (·.call = some i) d d := Changes.refl d
  have herr : ∀ e,transitionContract.leaves c i x d (.error e) d :=
    fun e => leaves_error e hkept hrefl
  have hthrow : ∀ y t₀ e t,Kept t.hub.ops.ops t.history → Changes (·.call = some i) t₀ t →
      transitionContract.leaves c i y t₀ (.error e) t := fun y t₀ e t hk hc => leaves_error e hk hc
  cases c with
  | request input =>
    simp only [body]
    rw [wp_bind]
    refine wp_request transitions_made herr ?_ ?_
    · intro id op _ _
      exact (wp_pure _).mpr (leaves_ok rfl hkept hrefl)
    · intro op _ hasked
      have hnone : d.hub.ops.ops.get? op.id = none := hasked.id ▸ hfresh
      refine Committed.of_may (fun _ => rfl) hkept hrefl ⟨?_,?_⟩ ?_ ?_
      · intro op' hop'
        rw [hnone] at hop'
        cases hop'
      · intro hexec
        rw [hasked.state] at hexec
        cases hexec
      · intro hexec
        rw [hasked.state] at hexec
        cases hexec
      · intro y t₀ t hcommitted
        exact (wp_pure _).mpr (leaves_ok rfl hcommitted.kept hcommitted.changes)
  | awaitApproval id =>
    simp only [body]
    rw [wp_bind]
    refine wp_awaitApproval transitions_made herr ?_
    intro op hop hstate
    refine lands_leaves rfl hkept hrefl hop ?_ (by simp)
    rw [hstate]
    exact Or.inr ⟨by decide,by decide⟩
  | approve id approval within =>
    simp only [body]
    rw [wp_bind]
    refine wp_approve transitions_made herr ?_ ?_
    · intro op hop hstate
      exact lands_cancelled hkept hrefl hop (onward_cancelled (by simp [hstate,terminal])) hthrow
    · intro op hop hstate
      refine ⟨hkept,hrefl,?_⟩
      intro y t _ hinv _
      refine ⟨fun e => leaves_error e hinv (Changes.refl t),?_⟩
      intro again hagain hstate'
      refine lands_leaves rfl hinv (Changes.refl t) hagain ?_ (by simp)
      rw [hstate']
      exact Or.inr ⟨by decide,by decide⟩
  | authorizeVerifiedOrder id order within =>
    simp only [body]
    rw [wp_bind]
    refine wp_authorizeVerifiedOrder transitions_made herr ?_
    intro op hop hstate
    refine ⟨lands_leaves rfl hkept hrefl hop ?_ (by simp),
      lands_cancelled hkept hrefl hop (onward_cancelled (by simp [hstate,terminal])) hthrow⟩
    rw [hstate]
    exact Or.inr ⟨by decide,by decide⟩
  | begins id => exact begins_keeps hkept hunseen
  | crossPointOfNoReturn id => exact cross_keeps hkept hunseen
  | complete id resultDigest =>
    simp only [body]
    rw [wp_bind]
    refine wp_complete transitions_made herr ?_
    intro op hop hstate
    refine lands_leaves rfl hkept hrefl hop ?_ (by simp)
    rw [hstate]
    exact Or.inr ⟨by decide,by decide⟩
  | fail id reason =>
    simp only [body]
    rw [wp_bind]
    refine wp_fail transitions_made herr ?_
    intro op hop hlive
    refine lands_leaves rfl hkept hrefl hop ?_ (by simp)
    refine Or.inr ⟨?_,by simp⟩
    cases hstate : op.state <;> simp_all [terminal,OperationState.rank]
  | cancel id reason =>
    simp only [body]
    rw [wp_bind]
    refine cancel_keeps hkept hrefl (fun next hmem => absurd rfl (hunseen _ hmem)) herr ?_
    intro y t₀ t next hid hcommitted
    refine (wp_pure _).mpr ⟨hcommitted.kept,hcommitted.changes,⟨hcommitted.answers,hid⟩,?_⟩
    intro id' answer hgoes
    rcases hgoes with h | h <;> cases h
  | cancelDependingOn grantIds reason =>
    simp only [body,cancelDependingOn]
    rw [wp_bind,wp_bind,wp_get]
    refine cancelEach_keeps ?_ _ _ (values_nodup hkept.keyed) hkept hrefl
      fun next hmem => absurd rfl (hunseen _ hmem)
    intro y t₀ result t hk hc
    cases result with
    | ok touched => exact (wp_pure _).mpr (leaves_ok rfl hk hc)
    | error e => exact leaves_error e hk hc
  | _ => cases htransition

end

section
variable [Sha256]

/-- The calls of the ledger keep to the contract of the transitions. -/
theorem transitions_meet : service.Meets transitionContract where
  rely_refl _ d := Changes.refl d
  rely_trans _ _ _ _ h h' := h.trans h'
  others i j d d' hne h := h.mono fun e he hj => hne (Option.some.inj (he.symm.trans hj))
  stable c i result d d' hpost hrely _ := by
    cases c with
    | begins id => cases result with
      | error e => trivial
      | ok answer => cases answer with
        | operation op =>
          obtain ⟨prior,next,hmem,hstarts⟩ := hpost
          exact ⟨prior,next,hrely.mem hmem,hstarts⟩
        | _ => trivial
    | cancel id reason => cases result with
      | error e => trivial
      | ok answer => cases answer with
        | operation op => exact ⟨hrely.mem hpost.1,hpost.2⟩
        | _ => trivial
    | _ => trivial
  untouched _ _ _ h hrely := Unseen.on h hrely
  body _ _ _ _ hinv hfresh hmade := transition_keeps hinv hfresh hmade.1.1 hmade.1.2
  crash _ _ _ hcrash := absurd hcrash.1 not_false

/-- In every run of the ledger's transitions in which the checks come back to
operations that are as they were read, cancelled work never starts, no operation
starts twice, and what is applied, failed or cancelled stays so. -/
theorem cancelled_never_starts (ops : List Operation) (turns : List ProcessTurn)
    (h : Along service.turn (transitions.and stillAsRead).allow (ledgerLoaded ops) turns) :
    CancelledNeverStarts (ledgerLoaded ops) turns := by
  have hstart := ledgerLoaded_holds ops
  refine ⟨?_,?_⟩
  · intro id i j op op' hi hj
    obtain ⟨hinv,_,hcalls⟩ := transitions_meet.run hstart h
    obtain ⟨prior,next,hmem,hstarts,hid⟩ := hcalls i _ _ hi
    obtain ⟨prior',next',hmem',hstarts',hid'⟩ := hcalls j _ _ hj
    exact hinv.once i prior next j prior' next' hmem hstarts hmem' hstarts' (hid.trans hid'.symm)
  · intro first middle last heq
    subst heq
    have hfirst := (along_append.mp (along_append.mp h).1).1
    have hmiddle := (along_append.mp (along_append.mp h).1).2
    have hw := transitions_meet.run hstart hfirst
    -- from one point of the run to a later one the operations move onward
    have hon : ∀ a b : List ProcessTurn,∀ rest,first ++ middle = a ++ b ++ rest → Changes (fun _ => True)
        (run service.turn (ledgerLoaded ops) a).shared
        (run service.turn (ledgerLoaded ops) (a ++ b)).shared := by
      intro a b rest heq
      refine transitions_meet.between (fun d => Changes.refl d) (fun _ _ _ h h' => h.trans h')
        (fun i d d' _ _ hguar => hguar.mono fun _ _ => trivial)
        (fun _ _ _ hcrash => absurd hcrash.1 not_false) hstart a b (rest ++ last) ?_
      rw [← List.append_assoc,← heq]
      exact h
    have hlater := hon first middle [] (by simp)
    refine ⟨?_,?_⟩
    · intro id hresolved
      obtain ⟨j,next,hmem,hid,hstate⟩ := cancelResolved_answers hw hresolved
      refine ⟨?_,?_⟩
      · obtain ⟨op,hop,hcancelled⟩ := hw.1.cancelled j next hmem hstate
        obtain ⟨op',hop',hon'⟩ := hlater.1 next.id op hop
        rw [← hid,stateOf,hop',Option.map_some,hon'.of_terminal (by rw [hcancelled]; rfl),hcancelled]
      · intro i c answer hgoes hended
        rw [run_append] at hended
        rcases transitions_meet.ended hw hmiddle hended with
          hearlier | ⟨before,turn,after,rfl,hends⟩
        · exact hearlier
        · refine absurd hstate (hends id answer hgoes rfl j next ?_ hid)
          rw [← run_append]
          exact (hon first before (turn :: after) (by simp)).mem hmem
    · intro id state hstate hterminal
      obtain ⟨state',hstate',hon'⟩ := hlater.stateOf hterminal
      rw [hstate',hon'.of_terminal]
      simp only [List.mem_cons,List.not_mem_nil,or_false] at hstate
      rcases hstate with rfl | rfl | rfl <;> rfl

end

/-- An operation that was authorized. -/
def approved : Operation where
  id := ['a']
  requester := []
  kind := []
  idempotencyKey := []
  payloadHash := []
  capabilityDigest := none
  expectedRevision := 0
  grantDeps := []
  challenge := none
  approvalDeadline := 0
  executeBy := none
  state := .authorized
  createdAt := 0
  updatedAt := 0
  approval := some ⟨[],0,[]⟩
  irreversibleAt := none
  cancelRequested := none
  resultDigest := none
  reason := none
  downstreamId := []

/-- An outside in which everything that is asked goes well. -/
def allWell : Outside where
  now _ := 0
  persisted := true
  error := []
  random _ := []
  grantsLive := true
  revision := 0
  verified := true
  exec := .pauses
  catches := false
  handler := 0
  handled := true

/-- An operation is begun, and cancelled after that. -/
def begunThenCancelled : List ProcessTurn :=
  [.call (.begins ['a']) allWell,.resume 0 allWell,.resume 0 allWell,.resume 0 allWell,
    .resume 0 allWell,.call (.cancel ['a'] []) allWell,.resume 1 allWell,.resume 1 allWell]

theorem cancelled_never_starts_once_begun : let _ : Sha256 := ⟨id⟩
    Along service.turn (transitions.and stillAsRead).allow (ledgerLoaded [approved])
      begunThenCancelled ∧
    stateOf (run service.turn (ledgerLoaded [approved]) begunThenCancelled).shared ['a'] =
      some .cancelled ∧
    CancelledNeverStarts (ledgerLoaded [approved]) begunThenCancelled :=
  let _ : Sha256 := ⟨id⟩
  ⟨by decide,by decide,cancelled_never_starts [approved] begunThenCancelled (by decide)⟩

/-- Two calls read the operation before either of them has started it. -/
def overlappingBegins : List ProcessTurn :=
  [.call (.begins ['a']) allWell,.call (.begins ['a']) allWell,.resume 0 allWell,
    .resume 1 allWell,.resume 0 allWell,.resume 1 allWell,.resume 0 allWell,.resume 0 allWell,
    .resume 1 allWell,.resume 1 allWell]

/-- Both of two overlapping `begin` calls may resolve. -/
theorem overlapping_begins_both_start : ¬ ∀ (_ : Sha256) ops turns,
    Along service.turn transitions.allow (ledgerLoaded ops) turns →
      CancelledNeverStarts (ledgerLoaded ops) turns := by
  intro h
  have honce := (h ⟨id⟩ [approved] overlappingBegins (by decide)).1
  have hsame := honce ['a'] 0 1 _ _ rfl rfl
  cases hsame

end Flagship.Authority

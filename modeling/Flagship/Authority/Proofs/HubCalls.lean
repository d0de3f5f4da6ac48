import Flagship.Authority.Proofs.HubCode

namespace Flagship.Authority
open Lib Mesh OperationLedger

/-- Wherever the call leaves off, this holds. -/
def Anyhow {α : Type} (post : Outside → Daemon → Except Failure α → Daemon → Prop) : Prop :=
  ∀ y t₀ result t,Steady t → Progress t₀ t → post y t₀ result t

section
variable {c : Call} {i : Nat} {x : Outside} {s₀ d : Daemon} {id : Text} {op : Operation}
  {post : Outside → Daemon → Except Failure Operation → Daemon → Prop}

theorem Anyhow.throwing {α β : Type}
    {post : Outside → Daemon → Except Failure α → Daemon → Prop} (h : Anyhow post) :
    Anyhow (throwing (β := β) post) :=
  fun y t₀ _ t hinv hguar e => h y t₀ (.error e) t hinv hguar

theorem lands_anyhow (hinv : Steady d) (hguar : Progress s₀ d) {state : OperationState}
    (hop : d.hub.ops.ops.get? id = some op) (hstate : op.state ∈ terminal → state ∈ terminal)
    (h : Anyhow post) : Lands (hubContract.terms c i) i op state post s₀ d := by
  have hid := hinv.keyed id op hop
  refine lands_progress hinv hguar (held_self (hid.symm ▸ hop)) hstate ?_
  exact fun y t₀ t next _ _ hinv' hguar' _ _ => h y t₀ (.ok next) t hinv' hguar'

theorem refused_anyhow {α : Type} {post : Outside → Daemon → Except Failure α → Daemon → Prop}
    (hinv : Steady d) (hguar : Progress s₀ d) (h : Anyhow post) :
    Refused (hubContract.terms c i) i id post x s₀ d := by
  refine ⟨fun e => h x s₀ _ d hinv hguar,?_⟩
  intro now hnow
  exact lands_anyhow hinv hguar hnow (by simp [terminal]) h.throwing

/-- A check comes back to an operation that was not stopped since it was read. -/
theorem checked_anyhow {irreversible : Bool} (hinv : Steady d) (hguar : Progress s₀ d)
    (hop : d.hub.ops.ops.get? id = some op) (hlive : op.state ∉ terminal) (h : Anyhow post) :
    Checked (hubContract.terms c i) i op irreversible post x s₀ d := by
  refine ⟨refused_anyhow hinv hguar h,hinv,hguar,?_⟩
  intro y t hrely hinv' _
  refine ⟨fun _ => refused_anyhow hinv' (.refl t) h,fun _ => ⟨.refl t,?_⟩⟩
  intro z u hrely' hinvu hcond
  have htracks : Tracks op u :=
    Progress.tracks hrely' op (Progress.tracks hrely op (tracks_self hinv.keyed hop))
  refine lands_progress hinvu (.refl u) ?_ (fun h => absurd h hlive)
    fun y t₀ t next _ _ hinv'' hguar'' _ _ => h y t₀ (.ok next) t hinv'' hguar''
  intro now hnow
  obtain ⟨now',hnow',hdeps,_⟩ := htracks
  rw [hnow] at hnow'
  cases hnow'
  refine ⟨hdeps.symm,?_⟩
  have hfinds := hub_finds _ z u hcond
  simp only [findsOpen,hnow,Option.all_some,Bool.or_eq_true,Bool.not_eq_eq_eq_not,
    Bool.not_true] at hfinds
  intro hstopped
  rcases hfinds with hnot | hop'
  · rw [hstopped] at hnot
    cases hnot
  · exact hop'

theorem resolveUnknown_anyhow {outcome : Reconciled} {detail : Text} (hinv : Steady d)
    (hguar : Progress s₀ d) (h : Anyhow post) :
    (resolveUnknown i id outcome detail).wp (hubContract.terms c i) post x s₀ d := by
  rw [resolveUnknown,wp_bind]
  refine wp_must ?_ (fun _ e => h x s₀ _ d hinv hguar)
  intro op hop _
  dsimp only
  rw [wp_bind,wp_read]
  cases outcome with
  | applied =>
    refine wp_move hub_made op (lands_anyhow hinv hguar hop (by simp [terminal]) h) ?_
    constructor <;> simp
  | failed =>
    refine wp_move hub_made op (lands_anyhow hinv hguar hop (by simp [terminal]) h) ?_
    constructor <;> simp

theorem cancelDependingOn_anyhow {ids : List Text} {reason : Text}
    {post : Outside → Daemon → Except Failure (List Operation) → Daemon → Prop} (hinv : Steady d)
    (hguar : Progress s₀ d) (h : Anyhow post) :
    (cancelDependingOn i ids reason).wp (hubContract.terms c i) post x s₀ d := by
  rw [cancelDependingOn,wp_bind,wp_get]
  exact cancelEach_progress _ _ hinv hguar (tracks_values hinv) (fun _ => open_first hinv)
    fun y t₀ result t hinv' hguar' _ _ => h y t₀ result t hinv' hguar'

theorem revokeEach_anyhow {reason : Text} {time : Int}
    {post : Outside → Daemon → Except Failure RevocationResult → Daemon → Prop} (gs : List Grant)
    (result : RevocationResult) (hinv : Steady d) (hguar : Progress s₀ d) (h : Anyhow post) :
    (GrantIndex.revokeEach reason time gs result).wp (hubContract.terms c i) post x s₀ d := by
  induction gs generalizing result x s₀ d with
  | nil => exact (wp_pure _).mpr (h x s₀ _ d hinv hguar)
  | cons g gs ih =>
    rw [GrantIndex.revokeEach,wp_bind]
    refine revokeGrant_progress hinv hguar ?_
    intro y t₀ t r hinv' hguar' _ _ _
    dsimp only
    rw [wp_bind,wp_awaits]
    exact ⟨hinv',hguar',fun z u _ hinvu _ => ih _ hinvu (.refl u)⟩

theorem hubRevokeEach_anyhow {reason : Text}
    {post : Outside → Daemon → Except Failure (List RevocationReport) → Daemon → Prop}
    (gs : List Grant) (reports : List RevocationReport) (hinv : Steady d) (hguar : Progress s₀ d)
    (h : Anyhow post) :
    (AuthorityHub.revokeEach i reason gs reports).wp (hubContract.terms c i) post x s₀ d := by
  induction gs generalizing reports x s₀ d with
  | nil => exact (wp_pure _).mpr (h x s₀ _ d hinv hguar)
  | cons g gs ih =>
    rw [AuthorityHub.revokeEach,wp_bind]
    refine revoke_progress hinv hguar ?_
    intro y t₀ result t hinv' hguar' _
    cases result with
    | error e => exact h y t₀ _ t hinv' hguar'
    | ok report =>
      dsimp only
      rw [wp_bind,wp_awaits]
      exact ⟨hinv',hguar',fun z u _ hinvu _ => ih _ hinvu (.refl u)⟩

theorem registerWork_anyhow {grantIds : List Text} {label : Text} {order : Option Nat}
    {post : Outside → Daemon → Except Failure Text → Daemon → Prop} (hinv : Steady d)
    (hguar : Progress s₀ d) (h : Anyhow post) :
    (AuthorityHub.registerWork grantIds label order).wp (hubContract.terms c i) post x s₀ d := by
  rw [AuthorityHub.registerWork,wp_bind,wp_get]
  dsimp only
  rw [wp_bind,wp_modify]
  dsimp only
  -- the number is one that no work has
  have hnew : ∀ a w,d.hub.work.get? a = some w → a ≠ 'w' :: Nat.toDigits 10 (d.hub.seq + 1) := by
    intro a w hw heq
    obtain ⟨k,hk,rfl⟩ := hinv.work a w hw
    have hdigits := List.tail_eq_of_cons_eq heq
    have hsame : k = d.hub.seq + 1 := by
      rw [← Nat.ofDigitChars_ten_toDigits (n := k),hdigits,Nat.ofDigitChars_ten_toDigits]
    omega
  refine (wp_pure _).mpr (h x s₀ _ _ ⟨hinv.keyed,hinv.usable,hinv.grants,?_⟩ (hguar.trans
    ⟨fun _ h => h,fun _ h => h,[],by simp,?_⟩))
  · intro a w hw
    by_cases ha : a = 'w' :: Nat.toDigits 10 (d.hub.seq + 1)
    · exact ⟨d.hub.seq + 1,Nat.le_refl _,ha⟩
    · have hset : (d.hub.work.set _ _).get? a = some w := hw
      rw [OrdMap.get?_set_ne ha] at hset
      obtain ⟨k,hk,heq⟩ := hinv.work a w hset
      exact ⟨k,Nat.le_succ_of_le hk,heq⟩
  · intro a w hw
    exact Or.inl ((OrdMap.get?_set_ne (hnew a w hw)).trans hw)

theorem unregister_anyhow {work : Text}
    {post : Outside → Daemon → Except Failure Unit → Daemon → Prop} (hinv : Steady d)
    (hguar : Progress s₀ d) (h : Anyhow post) :
    (AuthorityHub.unregister work).wp (hubContract.terms c i) post x s₀ d := by
  simp only [AuthorityHub.unregister,notes,wp_bind,wp_modify]
  refine h x s₀ _ _ ((hinv.erase work).of_eq rfl) (hguar.trans
    ⟨fun _ h => h,fun _ h => h,[.unregisters work],rfl,?_⟩)
  intro a w hw
  by_cases ha : a = work
  · exact Or.inr (Or.inr (by simp [ha]))
  · exact Or.inl ((OrdMap.get?_erase_ne ha).trans hw)

/-- A call of the hub answers with what its code gives. -/
theorem answers_anyhow {α : Type} {code : Code α} {answer : α → Answer}
    {post : Outside → Daemon → Except Failure Answer → Daemon → Prop} (h : Anyhow post)
    (hcode : ∀ {post : Outside → Daemon → Except Failure α → Daemon → Prop},Anyhow post →
      code.wp (hubContract.terms c i) post x s₀ d) :
    (do return answer (← code) : Code Answer).wp (hubContract.terms c i) post x s₀ d := by
  rw [wp_bind]
  refine hcode ?_
  intro y t₀ result t hinv hguar
  cases result with
  | ok a => exact (wp_pure _).mpr (h y t₀ _ t hinv hguar)
  | error e => exact h y t₀ _ t hinv hguar

theorem hubLoaded_holds (grants : GrantsFile) (ops : List Operation)
    (revokedHandlers : List GrantKind) : hubContract.Holds (hubLoaded grants ops revokedHandlers) := by
  refine ⟨⟨keyed_ofFile ops,?_,GrantIndex.sound_ofFile grants,?_⟩,fun _ _ => trivial,?_⟩
  · suffices hfold : ∀ l : OperationLedger,
        (ops.foldl OperationLedger.enter l).failedClosed = l.failedClosed from hfold .empty
    induction ops with
    | nil => exact fun l => rfl
    | cons op ops ih => exact fun l => ih (l.enter op)
  · intro work w hw
    simp [hubLoaded,Daemon.new,AuthorityHub.new] at hw
  · intro i c fiber hcall
    cases hcall

/-- The grounds of a revocation let its walk through the operations go through. -/
theorem revoke_goesThrough {id reason : Text} {i : Nat} : GoesThrough (.revoke id reason) i := by
  intro op rest y t hcond
  have hfinds := hub_finds _ y t hcond
  simp only [findsOpen,Option.any_eq_true,Bool.not_eq_eq_eq_not,Bool.not_true] at hfinds
  obtain ⟨now,hnow,hopen⟩ := hfinds
  refine ⟨now,hnow,?_⟩
  intro hterminal
  rw [List.contains_iff_mem.mpr hterminal] at hopen
  cases hopen

variable [Sha256]

theorem request_anyhow {input : RequestInput} (hinv : Steady d) (hguar : Progress s₀ d)
    (hfresh : FreshId x d) (h : Anyhow post) :
    (request i input).wp (hubContract.terms c i) post x s₀ d := by
  refine wp_request hub_made (fun e => h x s₀ _ d hinv hguar)
    (fun _ op _ _ => h x s₀ _ d hinv hguar) ?_
  intro op _ hasked
  refine commits_progress hinv hguar ?_ (fun l => ⟨(rfl : (indexed op l).ops = l.ops),rfl⟩)
    fun y t₀ t hinv' hguar' _ _ => h y t₀ (.ok op) t hinv' hguar'
  intro now hnow
  rw [hasked.id,hfresh] at hnow
  cases hnow

theorem body_anyhow {post : Outside → Daemon → Except Failure Answer → Daemon → Prop}
    (hcall : isHubCall c = true) (hfresh : FreshId x d) (hinv : Steady d) (hguar : Progress s₀ d)
    (h : Anyhow post) : (body c i).wp (hubContract.terms c i) post x s₀ d := by
  cases c with
  | request input =>
    exact answers_anyhow h fun h => request_anyhow hinv hguar hfresh h
  | awaitApproval id =>
    refine answers_anyhow h fun h => wp_awaitApproval hub_made (fun e => h x s₀ _ d hinv hguar) ?_
    intro op hop hstate
    exact lands_anyhow hinv hguar hop (by simp [hstate,terminal]) h
  | approve id approval within =>
    refine answers_anyhow h fun h =>
      wp_approve hub_made (fun e => h x s₀ _ d hinv hguar) ?_ ?_
    · intro op hop hstate
      exact lands_anyhow hinv hguar hop (by simp [hstate,terminal]) h.throwing
    · intro op hop _
      refine ⟨hinv,hguar,?_⟩
      intro y t _ hinv' _
      refine ⟨fun e => h y t _ t hinv' (.refl t),?_⟩
      intro again hagain hstate
      exact lands_anyhow hinv' (.refl t) hagain (by simp [hstate,terminal]) h
  | authorizeVerifiedOrder id order within =>
    refine answers_anyhow h fun h =>
      wp_authorizeVerifiedOrder hub_made (fun e => h x s₀ _ d hinv hguar) ?_
    intro op hop hstate
    exact ⟨lands_anyhow hinv hguar hop (by simp [hstate,terminal]) h,
      lands_anyhow hinv hguar hop (by simp [hstate,terminal]) h.throwing⟩
  | begins id =>
    refine answers_anyhow h fun h => wp_begins hub_made (fun e => h x s₀ _ d hinv hguar) ?_
    intro op hop hstate
    exact ⟨lands_anyhow hinv hguar hop (by simp [hstate,terminal]) h.throwing,
      checked_anyhow hinv hguar hop (by simp [hstate,terminal]) h⟩
  | crossPointOfNoReturn id =>
    refine answers_anyhow h fun h =>
      wp_crossPointOfNoReturn hub_made (fun e => h x s₀ _ d hinv hguar) ?_
    intro op hop hstate
    exact checked_anyhow hinv hguar hop (by simp [hstate,terminal]) h
  | complete id resultDigest =>
    refine answers_anyhow h fun h => wp_complete hub_made (fun e => h x s₀ _ d hinv hguar) ?_
    intro op hop hstate
    exact lands_anyhow hinv hguar hop (by simp [terminal]) h
  | fail id reason =>
    refine answers_anyhow h fun h => wp_fail hub_made (fun e => h x s₀ _ d hinv hguar) ?_
    intro op hop _
    exact lands_anyhow hinv hguar hop (by simp [terminal]) h
  | cancel id reason =>
    exact answers_anyhow h fun h => cancel_progress hinv hguar
      (fun _ e => h x s₀ _ d hinv hguar) fun y t₀ t next hinv' hguar' _ _ =>
        h y t₀ _ t hinv' hguar'
  | cancelDependingOn grantIds reason =>
    exact answers_anyhow h fun h => cancelDependingOn_anyhow hinv hguar h
  | resolveUnknown id outcome detail =>
    exact answers_anyhow h fun h => resolveUnknown_anyhow hinv hguar h
  | issue input => exact answers_anyhow h fun h => issue_progress hinv hguar h
  | revokeGrant id reason time =>
    exact answers_anyhow h fun h => revokeGrant_progress hinv hguar
      fun y t₀ t result hinv' hguar' _ _ _ => h y t₀ (.ok result) t hinv' hguar'
  | revokeGrants service reason time =>
    refine answers_anyhow h fun h => ?_
    rw [GrantIndex.revokeService,wp_bind,wp_get]
    exact revokeEach_anyhow _ _ hinv hguar h
  | registerWork grantIds label =>
    exact answers_anyhow h fun h => registerWork_anyhow hinv hguar h
  | unregister work =>
    rw [body,wp_bind]
    refine unregister_anyhow hinv hguar ?_
    intro y t₀ result t hinv' hguar'
    cases result with
    | ok a => exact (wp_pure _).mpr (h y t₀ _ t hinv' hguar')
    | error e => exact h y t₀ _ t hinv' hguar'
  | revoke grantId reason =>
    exact answers_anyhow h fun h => revoke_progress hinv hguar
      fun y t₀ result t hinv' hguar' _ => h y t₀ result t hinv' hguar'
  | revokeService service reason =>
    refine answers_anyhow h fun h => ?_
    rw [AuthorityHub.revokeService,wp_bind,wp_get]
    exact hubRevokeEach_anyhow _ _ hinv hguar h
  | _ => cases hcall

theorem hub_meets : service.Meets hubContract where
  rely_refl _ d := Progress.refl d
  rely_trans _ _ _ _ h h' := Progress.trans h h'
  others _ _ _ _ _ h := h
  stable _ _ _ _ _ _ _ _ := trivial
  untouched _ _ _ _ _ := trivial
  body _ _ _ d hinv _ hmade := body_anyhow hmade.1.1 hmade.1.2 hinv (.refl d)
    fun _ _ _ _ hinv' hguar' => ⟨hinv',hguar',trivial,trivial⟩
  crash _ _ _ hcrash := absurd hcrash.1 not_false

/-- A revocation among the calls it may count on. -/
theorem revoke_reaches {id reason : Text} (hinv : Steady d) (hcovers : coversAll id d = true) :
    (body (.revoke id reason) i).wp (hubContract.terms (.revoke id reason) i)
      (fun y s₀ result s => hubContract.leaves (.revoke id reason) i y s₀ result s ∧
        (∃ report,result = .ok (.report report)) ∧ Reached id d s) x d d := by
  rw [body,wp_bind]
  refine revoke_progress hinv (.refl d) ?_
  intro y t₀ result t hinv' hguar' hall
  obtain ⟨⟨report,rfl⟩,hreached⟩ := hall revoke_goesThrough hcovers
  exact (wp_pure _).mpr ⟨⟨hinv',hguar',trivial,trivial⟩,⟨report,rfl⟩,hreached⟩

/-- In every run of the calls of the hub in which a revocation finds its grant and
revokes what anything still depends on, finds nothing over that it is to cancel
next, and no check comes back to an operation that was stopped meanwhile, a
revocation resolves and has reached everything when it does. -/
theorem revocation_reaches_everything (grants : GrantsFile) (ops : List Operation)
    (revokedHandlers : List GrantKind) (turns : List ProcessTurn)
    (h : Along service.turn (hubCalls.and reachable).allow (hubLoaded grants ops revokedHandlers)
      turns) (id reason : Text) (x : Outside) :
    RevocationReaches (hubCalls.and reachable)
      (run service.turn (hubLoaded grants ops revokedHandlers) turns) id reason x := by
  have hholds := hub_meets.run (hubLoaded_holds grants ops revokedHandlers) h
  generalize run service.turn (hubLoaded grants ops revokedHandlers) turns = w at hholds
  refine ⟨?_,?_⟩
  · intro turns' turn result halong hbefore hend
    exact hub_meets.resolves hholds (revoke_reaches hholds.1 halong.1.2) halong hbefore hend
  · intro schedule halong hfair
    have hcrash : ∀ n k,schedule n ≠ .crash k := by
      intro n k heq
      have hturn := (halong (n + 1)).2
      rw [first_add,along_append] at hturn
      have hlast := hturn.2.1
      dsimp only at hlast
      rw [Nat.zero_add,heq] at hlast
      exact hlast.1
    exact Service.ends_of_resumed service _ (service.call_made w (.revoke id reason) x) hcrash hfair

end

/-- A grant that nothing else stands behind. -/
def rootGrant : Grant where
  id := ['g']
  kind := .ownerSession
  issuer := []
  subject := []
  accountGeneration := 0
  service := none
  audience := []
  capability := []
  parents := []
  policyRevision := 0
  issuedAt := 0
  expiresAt := none
  revokedAt := none
  revokeReason := none
  secretAccess := false

/-- An authorized operation under that grant. -/
def underRoot (id : Text) : Operation := { approved with id := id,grantDeps := [['g']] }

def awaiting (n i : Nat) : List ProcessTurn := List.replicate n (.resume i allWell)

/-- The grant, two operations under it, and no call yet. -/
def twoUnderRoot : Process := hubLoaded ⟨0,[rootGrant]⟩ [underRoot ['a'],underRoot ['b']] []

theorem revocation_reaches_everything_under_root : let _ : Sha256 := ⟨id⟩
    Along service.turn (hubCalls.and reachable).allow twoUnderRoot
      (.call (.registerWork [['g']] []) allWell :: .call (.revoke ['g'] []) allWell ::
        awaiting 14 1) ∧
    .cancels ['w','1'] ∈ (run service.turn twoUnderRoot
      (.call (.registerWork [['g']] []) allWell :: .call (.revoke ['g'] []) allWell ::
        awaiting 14 1)).shared.history ∧
    RevocationReaches (hubCalls.and reachable)
      (run service.turn twoUnderRoot [.call (.registerWork [['g']] []) allWell]) ['g'] [] allWell :=
  let _ : Sha256 := ⟨id⟩
  ⟨by decide,by decide,revocation_reaches_everything ⟨0,[rootGrant]⟩
    [underRoot ['a'],underRoot ['b']] [] [.call (.registerWork [['g']] []) allWell] (by decide)
    ['g'] [] allWell⟩

/-- While a revocation waits for the first of its cancellations to be written, the
second operation it is to cancel fails. -/
def failsMeanwhile : List ProcessTurn :=
  awaiting 6 0 ++ .call (.fail ['b'] []) allWell :: awaiting 2 1

/-- A revocation may be rejected half way. -/
theorem revocation_stops_half_way : ¬ ∀ (_ : Sha256) grants ops revokedHandlers turns,
    Along service.turn hubCalls.allow (hubLoaded grants ops revokedHandlers) turns →
      ∀ id reason x,RevocationReaches hubCalls
        (run service.turn (hubLoaded grants ops revokedHandlers) turns) id reason x := by
  intro h
  let _ : Sha256 := ⟨id⟩
  have hreaches := (h ⟨id⟩ ⟨0,[rootGrant]⟩ [underRoot ['a'],underRoot ['b']] [] [] trivial ['g'] []
    allWell).reaches failsMeanwhile (.resume 0 allWell) (.error (.ledger .wrongState
      ("operation is ".toList ++ OperationState.failed.text))) (by decide)
    (fun hended => absurd (Loop.place_of_ended hended) (by decide)) rfl
  obtain ⟨⟨_,hok⟩,_⟩ := hreaches
  cases hok

end Flagship.Authority

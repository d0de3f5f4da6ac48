import Flagship.Authority.LedgerRuns

namespace Flagship.Authority
open Lib Mesh OperationLedger

/-- An operation is put in the ledger. -/
def Daemon.commits (d : Daemon) (call : Nat) (next : Operation) : Daemon :=
  { d with
    hub := { d.hub with ops := { d.hub.ops with ops := d.hub.ops.ops.set next.id next } }
    history := d.history ++ [.commits call (d.hub.ops.ops.get? next.id) next] }

/-- The write of the ledger joins the queue. -/
def Daemon.asks (d : Daemon) : Daemon :=
  { d with operationsFile := d.operationsFile.ask d.hub.ops.values }

/-- The write was made, and the call hears of it. -/
def Daemon.answers (d : Daemon) (call : Nat) (next : Operation) (ticket : Nat)
    (after : OperationLedger → OperationLedger) : Daemon :=
  { d with
    hub := { d.hub with ops := after d.hub.ops }
    operationsFile := d.operationsFile.settle ticket
    history := d.history ++ [.answers call next] }

section
variable {terms : Terms Daemon Outside Place} {x : Outside} {s₀ d : Daemon} {i : Nat}

@[simp] theorem wp_disk {place : Place} {post : Outside → Daemon → Except Failure Unit → Daemon → Prop} :
    (disk place).wp terms post x s₀ d ↔ terms.inv d ∧ terms.guar s₀ d ∧
      ∀ y t,terms.rely d t → terms.inv t → terms.cond place y t →
        if y.persisted then post y t (.ok ()) t else post y t (.error (.storage y.error)) t := by
  simp only [disk,wp_bind,wp_awaits,wp_read]
  refine and_congr_right fun _ => and_congr_right fun _ => ?_
  refine forall_congr' fun y => forall_congr' fun t => imp_congr_right fun _ =>
    imp_congr_right fun _ => imp_congr_right fun _ => ?_
  cases y.persisted <;> simp

/-- A commit whose write is made: what it needs at each of its two awaits, and
where it leaves off. -/
def Commits (terms : Terms Daemon Outside Place) (i : Nat) (next : Operation)
    (after : OperationLedger → OperationLedger)
    (post : Outside → Daemon → Except Failure Operation → Daemon → Prop) (s₀ d : Daemon) : Prop :=
  terms.inv (d.commits i next) ∧ terms.guar s₀ (d.commits i next) ∧
    ∀ y t,terms.rely (d.commits i next) t → terms.inv t → terms.cond (.opsFolder next) y t →
      terms.inv t.asks ∧ terms.guar t t.asks ∧
        ∀ z u,terms.rely t.asks u → terms.inv u →
          terms.cond (.opsWrite next t.operationsFile.writes.length) z u →
          post z u (.ok next) (u.answers i next t.operationsFile.writes.length after)

theorem wp_commit (hmade : ∀ place y t,terms.cond place y t → y.persisted = true)
    {next : Operation} {after : OperationLedger → OperationLedger}
    {post : Outside → Daemon → Except Failure Operation → Daemon → Prop} :
    (commit i next after).wp terms post x s₀ d ↔ Commits terms i next after post s₀ d := by
  simp only [commit,persist,modifyOps,notes,wp_bind,wp_get,wp_modify,wp_tryCatch,wp_disk,wp_throw,
    wp_pure]
  refine and_congr_right fun _ => and_congr_right fun _ => ?_
  refine forall_congr' fun y => forall_congr' fun t => imp_congr_right fun _ =>
    imp_congr_right fun _ => imp_congr_right fun hfolder => ?_
  rw [if_pos (hmade _ y t hfolder)]
  refine and_congr_right fun _ => and_congr_right fun _ => ?_
  refine forall_congr' fun z => forall_congr' fun u => imp_congr_right fun _ =>
    imp_congr_right fun _ => imp_congr_right fun hwrite => ?_
  rw [if_pos (hmade _ z u hwrite)]
  exact Iff.rfl

theorem wp_refuses {α : Type} {code : LedgerErrorCode} {message : String}
    {post : Outside → Daemon → Except Failure α → Daemon → Prop} :
    (refuses code message).wp terms post x s₀ d ↔
      post x s₀ (.error (.ledger code message.toList)) d := by
  rw [refuses,wp_throw]

theorem wp_assertUsable {post : Outside → Daemon → Except Failure Unit → Daemon → Prop}
    (hok : post x s₀ (.ok ()) d)
    (herr : d.hub.ops.failedClosed = true → ∀ e,post x s₀ (.error e) d) :
    assertUsable.wp terms post x s₀ d := by
  rw [assertUsable,wp_bind,wp_get]
  dsimp only
  split
  next hclosed => exact wp_refuses.mpr (herr hclosed _)
  next => exact (wp_pure _).mpr hok

/-- No operation of the ledger stands under the id in one of these states. -/
def NotIn (states : List OperationState) (id : Text) (l : OperationLedger) : Prop :=
  l.failedClosed = true ∨ ∀ op,l.ops.get? id = some op → op.state ∉ states

theorem wp_must {id : Text} {states : List OperationState}
    {post : Outside → Daemon → Except Failure Operation → Daemon → Prop}
    (hok : ∀ op,d.hub.ops.ops.get? id = some op → op.state ∈ states → post x s₀ (.ok op) d)
    (herr : NotIn states id d.hub.ops → ∀ e,post x s₀ (.error e) d) :
    (must id states).wp terms post x s₀ d := by
  simp only [must,wp_bind,wp_get]
  refine wp_assertUsable ?_ fun hclosed => herr (Or.inl hclosed)
  cases hop : d.hub.ops.ops.get? id with
  | none => exact (wp_throw _).mpr (herr (Or.inr fun op h => by rw [hop] at h; cases h) _)
  | some op =>
    dsimp only
    split
    next hstate => exact (wp_pure _).mpr (hok op hop (List.contains_iff_mem.mp hstate))
    next hstate =>
      refine (wp_throw _).mpr (herr (Or.inr ?_) _)
      intro op' hop'
      rw [hop] at hop'
      cases hop'
      exact fun hin => hstate (List.contains_iff_mem.mpr hin)

end

/-- An operation moved on: what was asked for stays, and so does what was crossed
or asked to be cancelled. -/
structure Moved (op next : Operation) : Prop where
  id : next.id = op.id
  requester : next.requester = op.requester
  kind : next.kind = op.kind
  idempotencyKey : next.idempotencyKey = op.idempotencyKey
  payloadHash : next.payloadHash = op.payloadHash
  grantDeps : next.grantDeps = op.grantDeps
  crossed : op.irreversibleAt.isSome → next.irreversibleAt.isSome
  cancelRequested : op.cancelRequested.isSome → next.cancelRequested.isSome

/-- The operation may be moved on to a state. -/
def Lands (terms : Terms Daemon Outside Place) (i : Nat) (op : Operation) (state : OperationState)
    (post : Outside → Daemon → Except Failure Operation → Daemon → Prop) (s₀ d : Daemon) : Prop :=
  ∀ next,Moved op next → next.state = state → Commits terms i next (fun l => l) post s₀ d

/-- A call that throws. -/
def throwing {α β : Type} (post : Outside → Daemon → Except Failure α → Daemon → Prop) :
    Outside → Daemon → Except Failure β → Daemon → Prop :=
  fun y t₀ _ t => ∀ e,post y t₀ (.error e) t

section
variable {terms : Terms Daemon Outside Place} {x : Outside} {s₀ d : Daemon} {i : Nat}
  {post : Outside → Daemon → Except Failure Operation → Daemon → Prop}

theorem wp_move (hmade : ∀ place y t,terms.cond place y t → y.persisted = true)
    (op : Operation) {next : Operation} (h : Lands terms i op next.state post s₀ d) (hmoved : Moved op next) :
    (move i next).wp terms post x s₀ d :=
  (wp_commit hmade).mpr (h next hmoved rfl)

theorem wp_move_throw {β : Type} (hmade : ∀ place y t,terms.cond place y t → y.persisted = true)
    {post : Outside → Daemon → Except Failure β → Daemon → Prop} (op : Operation)
    {next : Operation} {f : Operation → Code β} (hf : ∀ a,∃ e,f a = throw e)
    (h : Lands terms i op next.state (throwing post) s₀ d) (hmoved : Moved op next) :
    (move i next >>= f).wp terms post x s₀ d := by
  rw [wp_bind]
  refine (wp_move hmade op h hmoved).mono ?_
  intro y t₀ result t hpost
  cases result with
  | ok a =>
    obtain ⟨e,he⟩ := hf a
    simp only [he,wp_throw]
    exact hpost e
  | error e => exact hpost e

theorem wp_awaitApproval (hmade : ∀ place y t,terms.cond place y t → y.persisted = true)
    {id : Text} (herr : ∀ e,post x s₀ (.error e) d)
    (h : ∀ op,d.hub.ops.ops.get? id = some op → op.state = .requested →
      Lands terms i op .awaitingApproval post s₀ d) :
    (awaitApproval i id).wp terms post x s₀ d := by
  simp only [awaitApproval,wp_bind]
  refine wp_must ?_ fun _ => herr
  intro op hop hstate
  simp only [wp_read]
  refine wp_move hmade op (h op hop (by simpa using hstate)) ?_
  constructor <;> simp

theorem wp_authorizeVerifiedOrder
    (hmade : ∀ place y t,terms.cond place y t → y.persisted = true) {id : Text}
    {order : VerifiedOrder} {within : Int} (herr : ∀ e,post x s₀ (.error e) d)
    (h : ∀ op,d.hub.ops.ops.get? id = some op → op.state = .requested →
      Lands terms i op .authorized post s₀ d ∧ Lands terms i op .cancelled (throwing post) s₀ d) :
    (authorizeVerifiedOrder i id order within).wp terms post x s₀ d := by
  simp only [authorizeVerifiedOrder,wp_bind]
  refine wp_must ?_ fun _ => herr
  intro op hop hstate
  obtain ⟨hgoes,hends⟩ := h op hop (by simpa using hstate)
  simp only [wp_read]
  split
  · refine wp_move_throw hmade op (fun _ => ⟨_,rfl⟩) hends ?_
    constructor <;> simp
  · refine wp_move hmade op hgoes ?_
    constructor <;> simp

theorem wp_consumeChallenge (hmade : ∀ place y t,terms.cond place y t → y.persisted = true)
    {id : Text} {challenge : Option Text} {approval : ApprovalInput} {time within : Int}
    (herr : ∀ e,post x s₀ (.error e) d)
    (h : ∀ op,d.hub.ops.ops.get? id = some op → op.state = .awaitingApproval →
      Lands terms i op .authorized post s₀ d) :
    (consumeChallenge i id challenge approval time within).wp terms post x s₀ d := by
  simp only [consumeChallenge,wp_bind]
  refine wp_must ?_ fun _ => herr
  intro op hop hstate
  dsimp only
  split
  · exact wp_refuses.mpr (herr _)
  · refine wp_move hmade op (h op hop (by simpa using hstate)) ?_
    constructor <;> simp

theorem wp_approve (hmade : ∀ place y t,terms.cond place y t → y.persisted = true) {id : Text}
    {approval : ApprovalInput} {within : Int} (herr : ∀ e,post x s₀ (.error e) d)
    (hends : ∀ op,d.hub.ops.ops.get? id = some op → op.state = .awaitingApproval →
      Lands terms i op .cancelled (throwing post) s₀ d)
    (hverify : ∀ op,d.hub.ops.ops.get? id = some op → op.state = .awaitingApproval →
      terms.inv d ∧ terms.guar s₀ d ∧ ∀ y t,terms.rely d t → terms.inv t →
        terms.cond (.verify op) y t → (∀ e,post y t (.error e) t) ∧
        ∀ again,t.hub.ops.ops.get? id = some again → again.state = .awaitingApproval →
          Lands terms i again .authorized post t t) :
    (approve i id approval within).wp terms post x s₀ d := by
  simp only [approve,wp_bind]
  refine wp_must ?_ fun _ => herr
  intro op hop hstate
  have hwaits : op.state = .awaitingApproval := by simpa using hstate
  simp only [wp_read]
  split
  · refine wp_move_throw hmade op (fun _ => ⟨_,rfl⟩) (hends op hop hwaits) ?_
    constructor <;> simp
  · split
    · exact wp_refuses.mpr (herr _)
    · simp only [wp_bind,wp_awaits]
      obtain ⟨hinv,hguar,hresume⟩ := hverify op hop hwaits
      refine ⟨hinv,hguar,?_⟩
      intro y t hrely hinv' hcond
      obtain ⟨herr',hgoes⟩ := hresume y t hrely hinv' hcond
      simp only [wp_read]
      split
      · exact wp_refuses.mpr (herr' _)
      · exact wp_consumeChallenge hmade herr' hgoes

/-- A check that finds against an operation cancels it as the ledger holds it. -/
def Refused {α : Type} (terms : Terms Daemon Outside Place) (i : Nat) (id : Text)
    (post : Outside → Daemon → Except Failure α → Daemon → Prop) (y : Outside)
    (s₀ d : Daemon) : Prop :=
  (∀ e,post y s₀ (.error e) d) ∧
    ∀ now,d.hub.ops.ops.get? id = some now → Lands terms i now .cancelled (throwing post) s₀ d

/-- The checks of an operation as it was read, and the move after them. -/
def Checked (terms : Terms Daemon Outside Place) (i : Nat) (op : Operation) (irreversible : Bool)
    (post : Outside → Daemon → Except Failure Operation → Daemon → Prop) (y : Outside)
    (s₀ d : Daemon) : Prop :=
  Refused terms i op.id post y s₀ d ∧ terms.inv d ∧ terms.guar s₀ d ∧
    ∀ y t,terms.rely d t → terms.inv t → terms.cond (.revision op irreversible) y t →
      (recheckFails y op irreversible = true → Refused terms i op.id post y t t) ∧
      (recheckFails y op irreversible = false → terms.guar t t ∧
        ∀ z u,terms.rely t u → terms.inv u → terms.cond (.rechecked op) z u →
          Lands terms i op .executing post u u)

theorem wp_cancelChecked (hmade : ∀ place y t,terms.cond place y t → y.persisted = true)
    {post : Outside → Daemon → Except Failure Unit → Daemon → Prop} {op : Operation} {time : Int}
    {code : LedgerErrorCode} {message : String} (h : Refused terms i op.id post x s₀ d) :
    (cancelChecked i op time code message).wp terms post x s₀ d := by
  obtain ⟨herr,hmoves⟩ := h
  simp only [cancelChecked]
  rw [wp_bind,wp_get]
  dsimp only
  split
  · exact (wp_throw _).mpr (herr _)
  next now hnow =>
    refine wp_move_throw hmade now (fun _ => ⟨_,rfl⟩) (hmoves now hnow) ?_
    constructor <;> simp

theorem wp_recheck (hmade : ∀ place y t,terms.cond place y t → y.persisted = true)
    {op : Operation} {time : Int} {irreversible : Bool} {f : Unit → Code Operation}
    (h : Checked terms i op irreversible post x s₀ d)
    (hf : ∀ y t,terms.guar t t → (∀ z u,terms.rely t u → terms.inv u →
      terms.cond (.rechecked op) z u → Lands terms i op .executing post u u) → terms.inv t →
      (f ()).wp terms post y t t) :
    (recheck i op time irreversible >>= f).wp terms post x s₀ d := by
  obtain ⟨hrefused,hinv,hguar,hresume⟩ := h
  simp only [recheck,wp_bind,wp_read]
  split
  · exact wp_cancelChecked hmade hrefused
  · simp only [wp_bind,wp_awaits]
    refine ⟨hinv,hguar,?_⟩
    intro y t hrely hinv' hcond
    obtain ⟨hfails,hgoes⟩ := hresume y t hrely hinv' hcond
    simp only [wp_read]
    split
    next hrevision => exact wp_cancelChecked hmade (hfails (by simp [recheckFails,hrevision]))
    next hrevision =>
      split
      next happroval =>
        exact wp_cancelChecked hmade (hfails (by rw [recheckFails,happroval,Bool.or_true]))
      next happroval =>
        have hpasses : recheckFails y op irreversible = false := by
          simp only [recheckFails,Bool.or_eq_false_iff,decide_eq_false_iff_not]
          exact ⟨hrevision,Bool.eq_false_of_not_eq_true happroval⟩
        obtain ⟨hguar',hlands⟩ := hgoes hpasses
        exact (wp_pure _).mpr (hf y t hguar' hlands hinv')

theorem wp_begins (hmade : ∀ place y t,terms.cond place y t → y.persisted = true) {id : Text}
    (herr : ∀ e,post x s₀ (.error e) d)
    (h : ∀ op,d.hub.ops.ops.get? id = some op → op.state = .authorized →
      Lands terms i op .cancelled (throwing post) s₀ d ∧ Checked terms i op false post x s₀ d) :
    (begins i id).wp terms post x s₀ d := by
  simp only [begins,wp_bind]
  refine wp_must ?_ fun _ => herr
  intro op hop hstate
  obtain ⟨hlate,hchecked⟩ := h op hop (by simpa using hstate)
  simp only [wp_read]
  split
  · refine wp_move_throw hmade op (fun _ => ⟨_,rfl⟩) hlate ?_
    constructor <;> simp
  · refine wp_recheck hmade hchecked ?_
    intro y t hguar hlands hinv
    rw [wp_bind,wp_awaits]
    refine ⟨hinv,hguar,?_⟩
    intro z u hrely hinv' hcond
    refine wp_move hmade op (hlands z u hrely hinv' hcond) ?_
    constructor <;> simp

theorem wp_crossPointOfNoReturn (hmade : ∀ place y t,terms.cond place y t → y.persisted = true)
    {id : Text} (herr : ∀ e,post x s₀ (.error e) d)
    (h : ∀ op,d.hub.ops.ops.get? id = some op → op.state = .executing →
      Checked terms i op true post x s₀ d) :
    (crossPointOfNoReturn i id).wp terms post x s₀ d := by
  simp only [crossPointOfNoReturn,wp_bind]
  refine wp_must ?_ fun _ => herr
  intro op hop hstate
  have hexec : op.state = .executing := by simpa using hstate
  dsimp only
  split
  · exact (wp_throw _).mpr (herr _)
  · rw [wp_bind,wp_read]
    refine wp_recheck hmade (h op hop hexec) ?_
    intro y t hguar hlands hinv
    rw [wp_bind,wp_awaits]
    refine ⟨hinv,hguar,?_⟩
    intro z u hrely hinv' hcond
    simp only [wp_bind,wp_read]
    refine wp_move hmade op ?_ ?_
    · rw [hexec]
      exact hlands z u hrely hinv' hcond
    · constructor <;> simp

theorem wp_complete (hmade : ∀ place y t,terms.cond place y t → y.persisted = true)
    {id resultDigest : Text} (herr : ∀ e,post x s₀ (.error e) d)
    (h : ∀ op,d.hub.ops.ops.get? id = some op → op.state = .executing →
      Lands terms i op .applied post s₀ d) :
    (complete i id resultDigest).wp terms post x s₀ d := by
  simp only [complete,wp_bind]
  refine wp_must ?_ fun _ => herr
  intro op hop hstate
  simp only [wp_read]
  refine wp_move hmade op (h op hop (by simpa using hstate)) ?_
  constructor <;> simp

theorem wp_fail (hmade : ∀ place y t,terms.cond place y t → y.persisted = true)
    {id reason : Text} (herr : ∀ e,post x s₀ (.error e) d)
    (h : ∀ op,d.hub.ops.ops.get? id = some op → op.state ∉ terminal →
      Lands terms i op .failed post s₀ d) :
    (fail i id reason).wp terms post x s₀ d := by
  simp only [fail,wp_bind]
  refine wp_must ?_ fun _ => herr
  intro op hop hstate
  simp only [wp_read]
  refine wp_move hmade op (h op hop ?_) ?_
  · cases hs : op.state <;> simp_all [terminal]
  · constructor <;> simp

/-- The states an operation may be cancelled in. -/
def live : List OperationState := [.requested,.awaitingApproval,.authorized,.executing]

theorem mem_live {state : OperationState} : state ∈ live ↔ state ∉ terminal := by
  cases state <;> simp [live,terminal]

theorem wp_cancel (hmade : ∀ place y t,terms.cond place y t → y.persisted = true)
    {id reason : Text} (herr : NotIn live id d.hub.ops → ∀ e,post x s₀ (.error e) d)
    (hcancels : ∀ op,d.hub.ops.ops.get? id = some op → op.state ∉ terminal →
      (op.state = .executing → op.irreversibleAt = none) → Lands terms i op .cancelled post s₀ d)
    (hcrossed : ∀ op next,d.hub.ops.ops.get? id = some op → op.state = .executing →
      op.irreversibleAt.isSome → Moved op next → next.state = .executing →
      next.cancelRequested.isSome → Commits terms i next (fun l => l) post s₀ d) :
    (cancel i id reason).wp terms post x s₀ d := by
  simp only [cancel,wp_bind]
  refine wp_must ?_ herr
  intro op hop hstate
  have hnot : op.state ∉ terminal := by cases hs : op.state <;> simp_all [terminal]
  simp only [wp_read]
  split
  next hexec =>
    split
    next hsome =>
      refine (wp_commit hmade).mpr (hcrossed op _ hop hexec hsome ?_ hexec rfl)
      constructor <;> simp
    next hnone =>
      refine wp_move hmade op (hcancels op hop hnot fun _ => by simpa using hnone) ?_
      constructor <;> simp
  next hexec =>
    refine wp_move hmade op (hcancels op hop hnot fun h => absurd h hexec) ?_
    constructor <;> simp

/-- The operation a request makes. -/
structure Asked [Sha256] (input : RequestInput) (x : Outside) (op : Operation) : Prop where
  id : op.id = x.random 0
  requester : op.requester = input.requester
  kind : op.kind = input.kind
  idempotencyKey : op.idempotencyKey = input.idempotencyKey
  payloadHash : op.payloadHash = Sha256.sha256Hex input.canonicalPayload
  grantDeps : op.grantDeps = input.grantDeps
  state : op.state = .requested

/-- The key of an operation leads to it. -/
def indexed (op : Operation) (l : OperationLedger) : OperationLedger :=
  { l with byKey := l.byKey.set (lookupKey op.requester op.idempotencyKey) op.id }

theorem wp_request [Sha256] (hmade : ∀ place y t,terms.cond place y t → y.persisted = true)
    {input : RequestInput} (herr : ∀ e,post x s₀ (.error e) d)
    (hfound : ∀ id op,truthy (d.hub.ops.byKey.get?
      (lookupKey input.requester input.idempotencyKey)) = some id →
      d.hub.ops.ops.get? id = some op → post x s₀ (.ok op) d)
    (hnew : ∀ op,truthy (d.hub.ops.byKey.get?
      (lookupKey input.requester input.idempotencyKey)) = none → Asked input x op →
      Commits terms i op (indexed op) post s₀ d) :
    (request i input).wp terms post x s₀ d := by
  simp only [request,wp_bind,wp_get,wp_read]
  refine wp_assertUsable ?_ (fun _ => herr)
  dsimp only
  split
  next id hid =>
    simp only [wp_bind,wp_get]
    split
    · exact (wp_throw _).mpr (herr _)
    next op hop =>
      split
      · exact wp_refuses.mpr (herr _)
      · exact (wp_pure _).mpr (hfound id op hid hop)
  next hnone =>
    refine (wp_commit hmade).mpr (hnew _ hnone ?_)
    constructor <;> rfl

end
end Flagship.Authority

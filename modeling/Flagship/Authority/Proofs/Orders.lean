import Flagship.Authority.Proofs.OrderOwners

namespace Flagship.Authority
open Lib Mesh OperationLedger

theorem StateFile.HasBegun.on {i : Nat} {id : Text} {op : Operation} {runs started : Prop} {d d' : Daemon}
    (h : d.operationsFile.HasBegun id) (ho : Owner i id op runs started d) (hid : op.id = id)
    (hrank : 3 ≤ op.state.rank) (hspares : Spares i d d') :
    d'.operationsFile.HasBegun id := by
  obtain ⟨hknown,hin⟩ := h
  obtain ⟨new,hnew,hnewin⟩ := hspares.writes
  refine ⟨fun hzero => hknown (Nat.le_zero.mp (hzero ▸ hspares.known)),?_⟩
  intro c hc
  obtain ⟨m,hm,hle⟩ := hc
  rw [hnew] at hm
  rcases Nat.lt_or_ge m d.operationsFile.writes.length with hlt | hge
  · rw [List.getElem?_append_left hlt] at hm
    exact hin c ⟨m,hm,Nat.le_trans hspares.known hle⟩
  · rw [List.getElem?_append_right hge] at hm
    exact ⟨op,hnewin c (List.mem_of_getElem? hm) id op (Or.inl ho.hand) ho.held,hid,hrank⟩

/-- The operation in the hands of a call is the one the ledger holds under its id. -/
theorem Owner.eq {i : Nat} {id : Text} {op op' : Operation} {runs started : Prop} {d : Daemon}
    (ho : Owner i id op runs started d)
    (h : d.hub.ops.ops.get? id = some op') : op' = op := by
  rw [ho.held] at h
  exact (Option.some.inj h).symm

theorem Owner.weaken {i : Nat} {id : Text} {op : Operation} {runs started : Prop} {d : Daemon}
    (ho : Owner i id op runs started d) : Owner i id op runs False d :=
  ⟨ho.hand,ho.held,ho.opened,ho.running,fun h => h.elim⟩

theorem sparesOthers_works {i : Nat} {d : Daemon} (ho : d.phase = .opened) (seq : Nat) (work : OrdMap Text Work) :
    SparesOthers i d { d with hub := { d.hub with seq := seq,work := work } } :=
  sparesOthers_of_eq (.of_opened ho) rfl rfl (Nat.le_refl _) (fun h => h) [] (by simp) (by simp)
    (fun _ _ _ => Iff.rfl) (fun _ hmem => Or.inl hmem) (fun _ _ _ => Iff.rfl)

theorem Owner.works {i : Nat} {id : Text} {op : Operation} {runs started : Prop} {d : Daemon}
    (ho : Owner i id op runs started d) (seq : Nat) (work : OrdMap Text Work) :
    Owner i id op runs started { d with hub := { d.hub with seq := seq,work := work } } :=
  ⟨ho.hand,ho.held,ho.opened,ho.running,ho.started⟩

section
variable [Sha256] {order : OrderOperationInput} {c : Call} {i : Nat} {x : Outside} {s₀ d : Daemon}
  {id : Text} {op : Operation} {runs started : Prop} {α : Type}

/-- Where a piece of an order leaves off: it still has its operation. -/
def Holding (order : OrderOperationInput) (i : Nat) (id : Text) (runs started : Prop)
    (t₀ t : Daemon) (op : Operation) : Prop :=
  Once order t ∧ SparesOthers i t₀ t ∧ Owner i id op runs started t

/-- A cancellation by the owner, before it throws. -/
theorem Owner.cancels (ho : Owner i id op runs started d) (hinv : Once order d)
    (hguar : SparesOthers i s₀ d) (hlive : op.state ∉ terminal)
    {post : Outside → Daemon → Except Failure α → Daemon → Prop}
    (herr : ∀ y t₀ e t op',Holding order i id runs started t₀ t op' → post y t₀ (.error e) t) :
    Lands ((orderContract order).terms c i) i op .cancelled (throwing post) s₀ d := by
  refine ho.lands hinv hguar hlive (rank_le_four _) (by simp) (by simp) (fun h => by cases h) ?_
  intro y t₀ t next _ hinv' hguar' ho' _ _ e
  exact herr y t₀ e t next ⟨hinv',hguar',ho'⟩

theorem authorize_holds {order' : VerifiedOrder} {within : Int}
    {post : Outside → Daemon → Except Failure Operation → Daemon → Prop}
    (ho : Owner i id op runs started d) (hinv : Once order d) (hguar : SparesOthers i s₀ d)
    (herr : ∀ y t₀ e t op',Holding order i id runs started t₀ t op' → post y t₀ (.error e) t)
    (h : ∀ y t₀ a t op',Holding order i id runs started t₀ t op' → op'.state = .authorized →
      post y t₀ (.ok a) t) :
    (authorizeVerifiedOrder i id order' within).wp ((orderContract order).terms c i) post x s₀ d := by
  refine wp_authorizeVerifiedOrder orders_made (fun e => herr x s₀ e d op ⟨hinv,hguar,ho⟩) ?_
  intro op' hop' hstate
  have heq := ho.eq hop'
  subst heq
  have hlive : op'.state ∉ terminal := by simp [hstate,terminal]
  refine ⟨?_,ho.cancels hinv hguar hlive herr⟩
  refine ho.lands hinv hguar hlive (by simp [hstate,OperationState.rank]) (by simp) (by simp)
    (fun h => by cases h) ?_
  intro y t₀ t next hnext hinv' hguar' ho' _ _
  exact h y t₀ next t next ⟨hinv',hguar',ho'⟩ hnext

/-- The checks of an operation by its owner, who finds it as it was. -/
theorem Owner.checked {irreversible : Bool}
    {post : Outside → Daemon → Except Failure Operation → Daemon → Prop}
    (ho : Owner i id op runs started d) (hinv : Once order d) (hguar : SparesOthers i s₀ d)
    (hlive : op.state ∉ terminal) (hrank : op.state.rank ≤ 3)
    (herr : ∀ y t₀ e t op',Holding order i id runs started t₀ t op' → post y t₀ (.error e) t)
    (h : ∀ y t₀ a t op',Holding order i id runs started t₀ t op' → op'.state = .executing →
      t.operationsFile.HasBegun id → post y t₀ (.ok a) t) :
    Checked ((orderContract order).terms c i) i op irreversible post x s₀ d := by
  have hid := hinv.ledger.keyed id op ho.held
  have hrefused : ∀ y t₀ t,Once order t → SparesOthers i t₀ t → Owner i id op runs started t →
      Refused ((orderContract order).terms c i) i op.id post y t₀ t := by
    intro y t₀ t hinv' hguar' ho'
    refine ⟨fun e => herr y t₀ e t op ⟨hinv',hguar',ho'⟩,?_⟩
    intro now hnow
    rw [hid] at hnow
    rw [ho'.eq hnow]
    exact ho'.cancels hinv' hguar' hlive herr
  refine ⟨hrefused x s₀ d hinv hguar ho,hinv,hguar,?_⟩
  intro y t hrely hinv' _
  refine ⟨fun _ => hrefused y t t hinv' (.refl i t) (ho.on hrely),?_⟩
  intro _
  refine ⟨.refl i t,?_⟩
  intro z u hrely' hinv'' _
  have ho' := (ho.on hrely).on hrely'
  refine ho'.lands hinv'' (.refl i u) hlive (by simpa [OperationState.rank] using hrank) (by simp)
    (by simp) (fun h => by cases h) ?_
  intro y t₀ t next hnext hinv' hguar' ho'' hknown hin
  refine h y t₀ next t next ⟨hinv',hguar',ho''⟩ hnext ⟨hknown,?_⟩
  intro c hc
  exact ⟨next,hin c hc,hinv'.ledger.keyed id next ho''.held,by simp [hnext,OperationState.rank]⟩

theorem begin_holds {post : Outside → Daemon → Except Failure Operation → Daemon → Prop}
    (ho : Owner i id op runs started d) (hinv : Once order d) (hguar : SparesOthers i s₀ d)
    (herr : ∀ y t₀ e t op',Holding order i id runs started t₀ t op' → post y t₀ (.error e) t)
    (h : ∀ y t₀ a t op',Holding order i id runs started t₀ t op' → op'.state = .executing →
      t.operationsFile.HasBegun id → post y t₀ (.ok a) t) :
    (begins i id).wp ((orderContract order).terms c i) post x s₀ d := by
  refine wp_begins orders_made (fun e => herr x s₀ e d op ⟨hinv,hguar,ho⟩) ?_
  intro op' hop' hstate
  have heq := ho.eq hop'
  subst heq
  have hlive : op'.state ∉ terminal := by simp [hstate,terminal]
  exact ⟨ho.cancels hinv hguar hlive herr,
    ho.checked hinv hguar hlive (by simp [hstate,OperationState.rank]) herr h⟩

theorem cross_holds {post : Outside → Daemon → Except Failure Unit → Daemon → Prop}
    (ho : Owner i id op runs started d) (hinv : Once order d) (hguar : SparesOthers i s₀ d)
    (h : ∀ y t₀ result t op',Holding order i id runs started t₀ t op' → post y t₀ result t) :
    (crosses i id).wp ((orderContract order).terms c i) post x s₀ d := by
  simp only [crosses,wp_bind,wp_get]
  split
  · exact wp_refuses.mpr (h x s₀ _ d op ⟨hinv,hguar,ho⟩)
  · rw [wp_bind]
    refine wp_crossPointOfNoReturn orders_made (fun e => h x s₀ _ d op ⟨hinv,hguar,ho⟩) ?_
    intro op' hop' hstate
    have heq := ho.eq hop'
    subst heq
    refine ho.checked hinv hguar (by simp [hstate,terminal]) (by simp [hstate,OperationState.rank])
      (fun y t₀ e t op' hold => h y t₀ _ t op' hold) ?_
    intro y t₀ a t op'' hold _ _
    exact (wp_pure _).mpr (h y t₀ _ t op'' hold)

theorem runExec_holds (moves : Nat)
    {post : Outside → Daemon → Except Failure (Text × Text) → Daemon → Prop}
    (ho : Owner i id op runs started d) (hinv : Once order d) (hguar : SparesOthers i s₀ d)
    (h : ∀ y t₀ result t op',Holding order i id runs started t₀ t op' → post y t₀ result t) :
    (runExec i id moves).wp ((orderContract order).terms c i) post x s₀ d := by
  induction moves generalizing x s₀ d op with
  | zero => exact (wp_throw _).mpr (h x s₀ _ d op ⟨hinv,hguar,ho⟩)
  | succ moves ih =>
    simp only [runExec,wp_bind,wp_awaits,wp_read]
    refine ⟨hinv,hguar,?_⟩
    intro y t hrely hinv' _
    have ho' := ho.on hrely
    split
    · exact ih ho' hinv' (.refl i t)
    · simp only [wp_bind,wp_attempt]
      refine cross_holds ho' hinv' (.refl i t) ?_
      intro z t₀ result u op' hold
      obtain ⟨hinv'',hguar'',ho''⟩ := hold
      cases result with
      | ok a => exact ih ho'' hinv'' hguar''
      | error e =>
        simp only [wp_bind,wp_read]
        split
        · exact ih ho'' hinv'' hguar''
        · exact (wp_throw _).mpr (h z t₀ _ u op' ⟨hinv'',hguar'',ho''⟩)
    · exact (wp_pure _).mpr (h y t _ t op ⟨hinv',.refl i t,ho'⟩)
    · exact (wp_throw _).mpr (h y t _ t op ⟨hinv',.refl i t,ho'⟩)

/-- The callback of an order that has begun, whatever comes of it. -/
theorem exec_holds {moves : Nat}
    {post : Outside → Daemon → Except Failure (Text × Text) → Daemon → Prop}
    (ho : Owner i id op False False d) (hinv : Once order d) (hguar : SparesOthers i s₀ d)
    (hexec : op.state = .executing) (hwritten : d.operationsFile.HasBegun id)
    (h : ∀ y t₀ result t op',Holding order i id False True t₀ t op' → post y t₀ result t) :
    (exec i id moves).wp ((orderContract order).terms c i) post x s₀ d := by
  have hstarts := hinv.starts ho.opened ho.hand ho.running ho.held hexec hwritten
  have hbegins : SparesOthers i d { d with
      running := d.running ++ [(i,id)]
      history := d.history ++ [.execStarts i id] } := by
    refine sparesOthers_of_eq (.of_opened ho.opened) rfl rfl (Nat.le_refl _) (fun h => h) _ rfl ?_
      (fun _ _ _ => Iff.rfl) (fun _ hmem => Or.inl hmem) ?_
    · intro e he j hj hcall
      cases List.mem_singleton.mp he
      exact hj (Option.some.inj hcall).symm
    · intro j id' hj
      simp [hj]
  have hruns : Owner i id op True True { d with
      running := d.running ++ [(i,id)]
      history := d.history ++ [.execStarts i id] } :=
    ⟨ho.hand,ho.held,ho.opened,fun _ _ => trivial,fun _ => by simp⟩
  simp only [exec,notes,wp_bind,wp_modify,wp_attempt]
  refine runExec_holds moves hruns hstarts (hguar.trans hbegins) ?_
  intro y t₀ result t op' hold
  obtain ⟨hinv',hguar',ho'⟩ := hold
  have hends : SparesOthers i t { t with running := t.running.filter (·.1 ≠ i) } := by
    refine sparesOthers_of_eq (.of_opened ho'.opened) rfl rfl (Nat.le_refl _) (fun h => h)
      [] (by simp) (by simp) (fun _ _ _ => Iff.rfl) (fun _ hmem => Or.inl hmem) ?_
    intro j id' hj
    simp [hj]
  have ho'' : Owner i id op' False True { t with running := t.running.filter (·.1 ≠ i) } :=
    ⟨ho'.hand,ho'.held,ho'.opened,fun id' hmem => by simp at hmem,ho'.started⟩
  have hinv'' := hinv'.ends i
  have hguar'' := hguar'.trans hends
  cases result with
  | error e => exact (wp_throw _).mpr (h y t₀ _ _ op' ⟨hinv'',hguar'',ho''⟩)
  | ok out =>
    simp only [wp_bind,wp_awaits]
    refine ⟨hinv'',hguar'',?_⟩
    intro z u hrely hinvu _
    exact (wp_pure _).mpr (h z u _ u op' ⟨hinvu,.refl i u,ho''.on hrely⟩)

theorem carryOut_holds {input : OrderOperationInput} {moves : Nat}
    {post : Outside → Daemon → Except Failure OrderOperationResult → Daemon → Prop}
    (ho : Owner i id op False False d) (hinv : Once order d) (hguar : SparesOthers i s₀ d)
    (h : ∀ y t₀ result t op',Holding order i id False False t₀ t op' → post y t₀ result t) :
    (carryOut i input id moves).wp ((orderContract order).terms c i) post x s₀ d := by
  simp only [carryOut]
  rw [wp_bind]
  refine authorize_holds ho hinv hguar (fun y t₀ e t op' hold => h y t₀ _ t op' hold) ?_
  intro y t₀ _ t op₁ hold hauthorized
  obtain ⟨hinv₁,hguar₁,ho₁⟩ := hold
  simp only [wp_bind,wp_awaits]
  refine ⟨hinv₁,hguar₁,?_⟩
  intro y t hrely hinv₁ _
  refine begin_holds (ho₁.on hrely) hinv₁ (.refl i t) (fun y t₀ e t op' hold => h y t₀ _ t op' hold) ?_
  intro y t₀ _ t op₂ hold hexec hwritten
  obtain ⟨hinv₂,hguar₂,ho₂⟩ := hold
  refine ⟨hinv₂,hguar₂,?_⟩
  intro y u hrely hinvu _
  have hid := hinv₂.ledger.keyed id op₂ ho₂.held
  refine exec_holds (ho₂.on hrely) hinvu (.refl i u) hexec
    (hwritten.on ho₂ hid (by simp [hexec,OperationState.rank]) hrely) ?_
  intro y t₀ result t op₃ hold
  obtain ⟨hinv₃,hguar₃,ho₃⟩ := hold
  cases result with
  | error e => exact h y t₀ _ t op₃ ⟨hinv₃,hguar₃,ho₃.weaken⟩
  | ok out =>
    dsimp only
    refine wp_complete orders_made (fun e => h y t₀ _ t op₃ ⟨hinv₃,hguar₃,ho₃.weaken⟩) ?_
    intro op' hop' hstate
    have heq := ho₃.eq hop'
    subst heq
    refine ho₃.lands hinv₃ hguar₃ (by simp [hstate,terminal]) (rank_le_four _) (by simp)
      (by simp) (fun _ => trivial) ?_
    intro y t₀ t next _ hinv' hguar' ho' _ _
    exact (wp_pure _).mpr (h y t₀ _ t next ⟨hinv',hguar',ho'.weaken⟩)

theorem giveUp_holds {e : Failure}
    {post : Outside → Daemon → Except Failure OrderOperationResult → Daemon → Prop}
    (ho : Owner i id op False False d) (hinv : Once order d) (hguar : SparesOthers i s₀ d)
    (h : ∀ y t₀ result t op',Holding order i id False False t₀ t op' → post y t₀ result t) :
    (giveUp i id e).wp ((orderContract order).terms c i) post x s₀ d := by
  have hanswer : ∀ y t₀ t op',Holding order i id False False t₀ t op' →
      (rethrows id e).wp ((orderContract order).terms c i) post y t₀ t := by
    intro y t₀ t op' hold
    unfold rethrows
    split
    · exact (wp_pure _).mpr (h y t₀ _ t op' hold)
    · exact (wp_throw _).mpr (h y t₀ _ t op' hold)
  simp only [giveUp,closes,wp_bind,wp_awaits,wp_get]
  refine ⟨hinv,hguar,?_⟩
  intro y t hrely hinv' _
  have ho' := ho.on hrely
  rw [ho'.held]
  dsimp only
  split
  · rw [wp_bind,wp_attempt]
    refine wp_fail orders_made (fun e => (wp_pure _).mpr (hanswer y t t op ⟨hinv',.refl i t,ho'⟩)) ?_
    intro op' hop' hlive
    have heq := ho'.eq hop'
    subst heq
    refine ho'.lands hinv' (.refl i t) hlive (rank_le_four _) (by simp) (by simp)
      (fun h => by cases h) ?_
    intro y t₀ t next _ hinv'' hguar'' ho'' _ _
    exact (wp_pure _).mpr (hanswer y t₀ t next ⟨hinv'',hguar'',ho''⟩)
  · exact (wp_pure _).mpr (hanswer y t t op ⟨hinv',.refl i t,ho'⟩)

theorem Once.works (h : Once order d) (seq : Nat) (work : OrdMap Text Work) :
    Once order { d with hub := { d.hub with seq := seq,work := work } } :=
  { h with contents := fun c hc => (h.contents c hc).of_eq rfl rfl }

/-- A call that carries nothing out lets go of what it had. -/
theorem Holding.letsGo {t₀ t : Daemon} (h : Holding order i id False False t₀ t op) :
    Once order { t with hands := t.hands.filter (·.1 ≠ i) } ∧
      SparesOthers i t₀ { t with hands := t.hands.filter (·.1 ≠ i) } := by
  obtain ⟨hinv,hguar,ho⟩ := h
  refine ⟨hinv.letsGo ho.running,hguar.trans ?_⟩
  refine sparesOthers_of_eq (.of_opened ho.opened) rfl rfl (Nat.le_refl _) (fun h => h) [] (by simp)
    (by simp) ?_ ?_ (fun _ _ _ => Iff.rfl)
  · intro j id' hj
    simp [hj]
  · intro id' hmem
    simp at hmem

/-- The work of an order is not registered any more, and the call lets go. -/
theorem finishes_keeps {work : Text} {answer : Except Failure OrderOperationResult}
    {post : Outside → Daemon → Except Failure OrderOperationResult → Daemon → Prop}
    (hold : Holding order i id False False s₀ d op)
    (h : ∀ t,Once order t → SparesOthers i s₀ t → ∀ result,post x s₀ result t) :
    (finishes i work answer).wp ((orderContract order).terms c i) post x s₀ d := by
  obtain ⟨hinv,hguar,ho⟩ := hold
  have hworks := hinv.works d.hub.seq (d.hub.work.erase work)
  let t : Daemon := { d with
    hub := { d.hub with work := d.hub.work.erase work }
    history := d.history ++ [.unregisters work] }
  have hinv' : Once order t :=
    hworks.note (.unregisters work) rfl rfl rfl rfl rfl rfl (by simp) (by simp) rfl
  have hguar' : SparesOthers i d t := by
    refine sparesOthers_of_eq (.of_opened ho.opened) rfl rfl (Nat.le_refl _) (fun h => h) _ rfl ?_
      (fun _ _ _ => Iff.rfl) (fun _ hmem => Or.inl hmem) (fun _ _ _ => Iff.rfl)
    intro e he j _ hcall
    cases List.mem_singleton.mp he
    cases hcall
  have ho' : Owner i id op False False t :=
    ⟨ho.hand,ho.held,ho.opened,ho.running,fun h => h.elim⟩
  obtain ⟨hinv'',hguar''⟩ := Holding.letsGo ⟨hinv',hguar.trans hguar',ho'⟩
  simp only [finishes,AuthorityHub.unregister,Authority.letsGo,notes,wp_bind,wp_modify]
  cases answer with
  | error e => exact (wp_throw _).mpr (h _ hinv'' hguar'' _)
  | ok answer => exact (wp_pure _).mpr (h _ hinv'' hguar'' _)

/-- An order that has an operation to carry out, from there to its end. -/
theorem carriesOut_keeps {input : OrderOperationInput} {moves : Nat}
    {post : Outside → Daemon → Except Failure OrderOperationResult → Daemon → Prop}
    (ho : Owner i id op False False d) (hinv : Once order d) (hguar : SparesOthers i s₀ d)
    (h : ∀ y t₀ result t,Once order t → SparesOthers i t₀ t → post y t₀ result t) :
    (carriesOut i input id moves).wp ((orderContract order).terms c i) post x s₀ d := by
  simp only [carriesOut,AuthorityHub.registerWork,wp_bind,wp_get,wp_modify,wp_pure,wp_attempt,
    wp_tryCatch]
  refine carryOut_holds (ho.works _ _) (hinv.works _ _)
    (hguar.trans (sparesOthers_works ho.opened _ _)) ?_
  intro y t₀ result t op' hold
  cases result with
  | ok answer =>
    exact finishes_keeps hold fun t hinv' hguar' result => h y t₀ result t hinv' hguar'
  | error e =>
    obtain ⟨hinv',hguar',ho'⟩ := hold
    refine giveUp_holds ho' hinv' hguar' ?_
    intro y t₀ result t op'' hold'
    exact finishes_keeps hold' fun t hinv'' hguar'' result => h y t₀ result t hinv'' hguar''

end
end Flagship.Authority

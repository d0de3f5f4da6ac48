import Flagship.Authority.Proofs.Orders
import Flagship.Authority.Proofs.StartsOnce

namespace Flagship.Authority
open Lib Mesh OperationLedger

/-- What the condition on a call of the order says of an attempt. -/
theorem free_of_all {d : Daemon} {op : Operation} (h : d.hub.ops.values.all (isFree d) = true)
    (hop : op ∈ d.hub.ops.values) :
    (op.state = .requested → d.hub.ops.byKey.get? (keyOf op) = some op.id ∧
      ∀ j,(j,op.id) ∉ d.hands) ∧
    (isRetired op = true → ∀ j,(j,op.id) ∉ d.running) := by
  have hfree := List.all_eq_true.mp h op hop
  simp only [isFree,Bool.and_eq_true,Bool.or_eq_true,decide_eq_true_eq,List.all_eq_true,
    Bool.not_eq_eq_eq_not,Bool.not_true] at hfree
  obtain ⟨hrequested,hretired⟩ := hfree
  refine ⟨?_,?_⟩
  · intro hstate
    rcases hrequested with hnot | ⟨hled,hhands⟩
    · exact absurd hstate hnot
    · exact ⟨hled,fun j hmem => hhands (j,op.id) hmem rfl⟩
  · intro hover j hmem
    rcases hretired with hnot | hrunning
    · rw [hover] at hnot
      cases hnot
    · exact hrunning (j,op.id) hmem rfl

section
variable [Sha256] {order : OrderOperationInput} {c : Call} {i : Nat} {x : Outside} {s₀ d : Daemon}
  {op : Operation}

/-- A call that found or made its operation, from there to its end. -/
theorem goesOn_keeps {input : OrderOperationInput} {moves : Nat}
    {post : Outside → Daemon → Except Failure OrderOperationResult → Daemon → Prop}
    (hinv : Once order d) (hguar : SparesOthers i s₀ d) (hphase : d.phase = .opened)
    (hidle : ∀ id,(i,id) ∉ d.running) (hop : d.hub.ops.ops.get? op.id = some op)
    (hfree : op.state = .requested → d.hub.ops.byKey.get? (keyOf op) = some op.id ∧
      ∀ j,(j,op.id) ∉ d.hands)
    (h : ∀ y t₀ result t,Once order t → SparesOthers i t₀ t → post y t₀ result t) :
    (goesOn i input op moves).wp ((orderContract order).terms c i) post x s₀ d := by
  rw [goesOn,holds,wp_bind,wp_modify]
  dsimp only
  rw [wp_bind,wp_awaits]
  by_cases hstate : op.state = .requested
  · obtain ⟨hled,hnone⟩ := hfree hstate
    rw [if_pos hstate]
    have htakes := hinv.takes hphase hop hled hnone i
    have ho : Owner i op.id op False False { d with hands := d.hands ++ [(i,op.id)] } :=
      ⟨by simp,hop,hphase,hidle,fun h => h.elim⟩
    refine ⟨htakes,hguar.trans ?_,?_⟩
    · refine sparesOthers_of_eq (.of_opened hphase) rfl rfl (Nat.le_refl _) (fun h => h) [] (by simp)
        (by simp) ?_ ?_ (fun _ _ _ => Iff.rfl)
      · intro j id hj
        simp [hj]
      · intro id hmem
        rcases List.mem_append.mp hmem with hmem | hmem
        · exact Or.inl hmem
        · cases List.mem_singleton.mp hmem
          exact Or.inr ⟨keyOf op,hled⟩
    · intro y t hrely hinv' _
      dsimp only
      rw [if_neg (by rw [hstate]; simp),if_neg (by rw [hstate]; simp),if_neg (by simp [hstate])]
      exact carriesOut_keeps (ho.on hrely) hinv' (.refl i t) h
  · rw [if_neg hstate]
    refine ⟨hinv,hguar,?_⟩
    intro y t _ hinv' _
    dsimp only
    split
    · rw [wp_pure]
      exact h y t _ t hinv' (.refl i t)
    · split
      · rw [wp_pure]
        exact h y t _ t hinv' (.refl i t)
      · rw [wp_pure]
        exact h y t _ t hinv' (.refl i t)

/-- What the ledger is asked for, where nothing leads to the key of this try: all
tries so far are over, and the key is the next. -/
theorem next_try {input : OrderOperationInput} (hinv : Once order d)
    (hsame : sameOrder order input = true) (hfree : d.hub.ops.values.all (isFree d) = true)
    (hnone : truthy (d.hub.ops.byKey.get?
      (lookupKey input.requester (attemptKey input d.hub.ops))) = none) :
    (∀ a ∈ d.hub.ops.values,isRetired a = true) ∧
      attemptKey input d.hub.ops = tryKey order d.hub.ops.values.length := by
  rcases attemptKey_of_line hinv.ledger.line hsame with ⟨live,hlive,_,hkey⟩ | hover
  · exfalso
    have hled : d.hub.ops.byKey.get? (keyOf live) = some live.id := by
      by_cases hstate : live.state = .requested
      · exact ((free_of_all hfree hlive).1 hstate).1
      · exact hinv.ledger.led live hlive hstate
    obtain ⟨k,_,htry⟩ := hinv.ledger.line.tryOf hlive
    simp only [sameOrder,Bool.and_eq_true,decide_eq_true_eq] at hsame
    rw [hkey,hsame.1.1.2,← htry.requester] at hnone
    change truthy (d.hub.ops.byKey.get? (keyOf live)) = none at hnone
    rw [hled] at hnone
    simp [truthy,Option.filter,htry.id] at hnone
  · exact hover

/-- The try an order puts in the ledger, with an id that was never used. -/
theorem isTry_of_asked {input : OrderOperationInput} {k : Nat}
    (hsame : sameOrder order input = true) (hid : x.random 0 ≠ [])
    (hasked : Asked (input.request (tryKey order k)) x op) : IsTry order k op := by
  simp only [sameOrder,Bool.and_eq_true,decide_eq_true_eq] at hsame
  obtain ⟨⟨⟨hkind,hrequester⟩,_⟩,hpayload⟩ := hsame
  refine ⟨by rw [hasked.id]; exact hid,hasked.requester.trans hrequester,hasked.kind.trans hkind,?_,
    hasked.idempotencyKey⟩
  rw [hasked.payloadHash]
  exact congrArg Sha256.sha256Hex hpayload

theorem unled_of_new (hinv : Once order d) (hnone : d.hub.ops.ops.get? op.id = none) :
    Unled op.id d := by
  refine ⟨?_,?_⟩
  · intro key hkey
    obtain ⟨a,ha,hid,_⟩ := hinv.ledger.byKeys key op.id hkey
    rw [mem_values hinv.ledger.keyed,hid,hnone] at ha
    cases ha
  · intro j hmem
    obtain ⟨a,ha,_⟩ := hinv.hands j op.id hmem
    rw [hnone] at ha
    cases ha

/-- A call of the order that puts a new try in the ledger, from there to its end. -/
theorem tries_keeps {input : OrderOperationInput} {moves : Nat}
    {post : Outside → Daemon → Except Failure OrderOperationResult → Daemon → Prop}
    (hinv : Once order d) (hphase : d.phase = .opened)
    (hfresh : (orderContract order).fresh i d) (hover : ∀ a ∈ d.hub.ops.values,isRetired a = true)
    (hidle : ∀ a ∈ d.hub.ops.values,∀ j,(j,a.id) ∉ d.running)
    (hnone : d.hub.ops.ops.get? op.id = none)
    (hnever : ∀ j prior a,.commits j prior a ∈ d.history → a.id ≠ op.id)
    (htry : IsTry order d.hub.ops.values.length op) (hstate : op.state = .requested)
    (h : ∀ y t₀ result t,Once order t → SparesOthers i t₀ t → post y t₀ result t) :
    Commits ((orderContract order).terms c i) i op (indexed op) (fun y t₀ result t =>
      match result with
      | .ok op => (goesOn i input op moves).wp ((orderContract order).terms c i) post y t₀ t
      | .error e => post y t₀ (.ok (.notRan .refused none (some e.message))) t) d d := by
  obtain ⟨_,hhands,hrunning⟩ := hfresh
  have hunled := unled_of_new hinv hnone
  refine commits_of (hinv.tries hphase hover hidle hnone hnever htry hstate i)
    (sparesOthers_commits (.of_opened hphase) ?_) hphase
    (Or.inr ⟨⟨op,by simp [Daemon.commits,hnone],rfl⟩,hunled⟩) ?_
  · intro j _ hm
    rcases hm with hm | ⟨⟨a,ha,hid⟩,_⟩
    · exact hunled.2 j hm
    · exact hnever j none a ha hid
  · intro y t₀ ticket hinv' hopened hspares hticket hheld _
    have hmine : Mine i op.id (d.commits i op) :=
      Or.inr ⟨⟨op,by simp [Daemon.commits,hnone],rfl⟩,hunled⟩
    -- nobody has come upon the operation while it was being written
    have hcreated : (∃ a,.commits i none a ∈ t₀.history ∧ a.id = op.id) ∧ Unled op.id t₀ := by
      rcases hspares.mine op.id hmine with hm | hm
      · exact absurd ((hspares.hands op.id).mp hm) (hhands op.id)
      · exact hm
    obtain ⟨⟨a,ha,haid⟩,_,hfree⟩ := hcreated
    have hothers : ∀ j,j ≠ i → ¬ Mine j op.id t₀ := by
      intro j hj hm
      rcases hm with hm | ⟨⟨b,hb,hbid⟩,_⟩
      · exact hfree j hm
      · exact hj (hinv'.creators j i b a hb ha (hbid.trans haid.symm))
    have hleads := (hinv'.settles hticket).leads hheld
    have hanswers : Once order (t₀.answers i op ticket (indexed op)) :=
      hleads.note (.answers i op) rfl rfl rfl rfl rfl rfl (by simp) (by simp) rfl
    have hguar : SparesOthers i t₀ (t₀.answers i op ticket (indexed op)) := by
      refine (sparesOthers_leads (.of_opened hopened) hothers).trans ?_
      refine sparesOthers_of_eq (.of_opened hopened) rfl rfl (Nat.le_max_left _ _)
        (fun h => h) _ rfl ?_ (fun _ _ _ => Iff.rfl) (fun _ hmem => Or.inl hmem)
        (fun _ _ _ => Iff.rfl)
      intro e he j hj hcall
      cases List.mem_singleton.mp he
      exact hj (Option.some.inj hcall).symm
    refine goesOn_keeps hanswers hguar hopened ?_ hheld ?_ h
    · intro id hmem
      exact hrunning id ((hspares.running id).mp hmem)
    · intro _
      exact ⟨OrdMap.get?_set_self ..,hfree⟩

theorem runOrderOperation_keeps {input : OrderOperationInput} {moves : Nat} (hinv : Once order d)
    (hfresh : (orderContract order).fresh i d)
    (hasks : ordersOrOpens order (.order input moves) x d = true)
    (hfree : d.hub.ops.values.all (isFree d) = true)
    {post : Outside → Daemon → Except Failure OrderOperationResult → Daemon → Prop}
    (h : ∀ y t₀ result t,Once order t → SparesOthers i t₀ t → post y t₀ result t) :
    (runOrderOperation i input moves).wp ((orderContract order).terms c i) post x d d := by
  simp only [ordersOrOpens,drawsNew,Bool.and_eq_true,Bool.not_eq_eq_eq_not,
    Bool.not_true,decide_eq_true_eq] at hasks
  obtain ⟨⟨⟨hsame,hretry⟩,hphase⟩,⟨hid,hcontains⟩,hnever⟩ := hasks
  rw [runOrderOperation,if_neg (by rw [hretry]; simp),wp_bind,wp_get]
  dsimp only
  rw [wp_bind,wp_attempt]
  refine wp_request orders_made (fun e => (wp_pure _).mpr (h x d _ d hinv (.refl i d))) ?_ ?_
  · intro id op _ hop
    have hopid := hinv.ledger.keyed id op hop
    have hheld : d.hub.ops.ops.get? op.id = some op := hopid.symm ▸ hop
    exact goesOn_keeps hinv (.refl i d) hphase hfresh.2.2 hheld
      (free_of_all hfree ((mem_values hinv.ledger.keyed).mpr hheld)).1 h
  · intro op hnone hasked
    obtain ⟨hover,hkey⟩ := next_try hinv hsame hfree hnone
    rw [hkey] at hasked
    have hnew : d.hub.ops.ops.get? op.id = none := by
      rw [hasked.id]
      simpa [OrdMap.contains] using hcontains
    refine tries_keeps hinv hphase hfresh hover ?_ hnew ?_ (isTry_of_asked hsame hid hasked)
      hasked.state h
    · intro a ha
      exact (free_of_all hfree ha).2 (hover a ha)
    · intro j prior a ha
      rw [hasked.id]
      simpa using List.all_eq_true.mp hnever _ ha

/-- While the daemon opens, nothing it holds is any call's. -/
theorem not_mine_of_closed (hinv : Once order d) (hphase : d.phase ≠ .opened)
    (hop : op ∈ d.hub.ops.values) (j : Nat) : ¬ Mine j op.id d := by
  obtain ⟨hhands,_,hled⟩ := hinv.closed hphase
  intro hm
  rcases hm with hm | ⟨_,hkeys,_⟩
  · rw [hhands] at hm
    cases hm
  · exact hkeys _ (hled op hop)

/-- The call that opens the daemon moves an operation on, and nothing else happens
until it goes on. -/
theorem opening_commits {next : Operation} (hinv : Once order d) (hphase : d.phase = .opening i)
    (hguar : SparesOthers i s₀ d) (ha : Advances d op next)
    {post : Outside → Daemon → Except Failure Operation → Daemon → Prop}
    (h : ∀ y t₀ t,Once order t → t.phase = .opening i → SparesOthers i t₀ t →
      t.hub.ops.ops = d.hub.ops.ops.set next.id next → post y t₀ (.ok next) t) :
    Commits ((orderContract order).terms c i) i next (fun l => l) post s₀ d := by
  have hmem : op ∈ d.hub.ops.values := (mem_values hinv.ledger.keyed).mpr ha.held
  have hinv' := hinv.advances ha i
  refine ⟨hinv',hguar.trans (sparesOthers_commits (.of_opening hphase) ?_),?_⟩
  · intro j _
    rw [ha.moved.id]
    exact not_mine_of_closed hinv (by rw [hphase]; simp) hmem j
  · intro y t hrely _ _
    have heq : t = d.commits i next := hrely.opening hphase
    subst heq
    refine ⟨hinv'.asks,sparesOthers_asks (.of_opening hphase) hinv'.ledger.keyed,?_⟩
    intro z u hrely' _ _
    have heq' : u = (d.commits i next).asks := hrely'.opening hphase
    subst heq'
    have hlt : (d.commits i next).operationsFile.writes.length <
        (d.commits i next).asks.operationsFile.writes.length := by simp [Daemon.asks,StateFile.ask]
    have hsettles := hinv'.asks.settles hlt
    refine h z _ _ (hsettles.note (.answers i next) rfl rfl rfl rfl rfl rfl (by simp) (by simp) rfl)
      hphase ?_ rfl
    refine sparesOthers_of_eq (.of_opening hphase) rfl rfl (Nat.le_max_left _ _)
      (fun h => h) _ rfl ?_ (fun _ _ _ => Iff.rfl) (fun _ hmem => Or.inl hmem) (fun _ _ _ => Iff.rfl)
    intro e he j hj hcall
    cases List.mem_singleton.mp he
    exact hj (Option.some.inj hcall).symm

/-- What `recover` closes, one after another: none is left executing. -/
theorem recoverEach_keeps {time : Int}
    {post : Outside → Daemon → Except Failure (List Operation × List Operation) → Daemon → Prop}
    (h : ∀ y t₀ found t,Once order t → t.phase = .opening i → SparesOthers i t₀ t →
      (∀ a ∈ t.hub.ops.values,a.state ≠ .executing) → post y t₀ (.ok found) t)
    (ops : List Operation) (found : List Operation × List Operation) (hinv : Once order d)
    (hphase : d.phase = .opening i) (hguar : SparesOthers i s₀ d)
    (hnodup : (ops.map (·.id)).Nodup) (hheld : ∀ a ∈ ops,d.hub.ops.ops.get? a.id = some a)
    (hleft : ∀ a ∈ d.hub.ops.values,a.state = .executing → a ∈ ops) :
    (recoverEach i time ops found).wp ((orderContract order).terms c i) post x s₀ d := by
  induction ops generalizing x s₀ d found with
  | nil =>
    rw [recoverEach,wp_pure]
    exact h x s₀ found d hinv hphase hguar fun a ha hexec => by cases hleft a ha hexec
  | cons op rest ih =>
    obtain ⟨unknown,expired⟩ := found
    obtain ⟨hnot,hrest⟩ := List.nodup_cons.mp hnodup
    have hclosed : d.phase ≠ .opened := by rw [hphase]; simp
    have hop := hheld op (by simp)
    have hmem : op ∈ d.hub.ops.values := (mem_values hinv.ledger.keyed).mpr hop
    -- an operation that is closed leaves the others as they were
    have hcloses : ∀ state (found' : Operation → List Operation × List Operation),
        state ∉ [OperationState.requested,.executing,.applied] →
        op.state ∉ terminal → op.state.rank ≤ state.rank →
        (op.state = .executing ↔ state = .outcomeUnknown) →
        Lands ((orderContract order).terms c i) i op state (fun y t₀ result t =>
          match result with
          | .ok op' => (recoverEach i time rest (found' op')).wp
              ((orderContract order).terms c i) post y t₀ t
          | .error e => post y t₀ (.error e) t) s₀ d := by
      intro state found' hstates hlive hrank hunknown next hmoved hstate
      simp only [List.mem_cons,List.not_mem_nil,or_false,not_or] at hstates
      obtain ⟨hrequested,hexecuting,happlied⟩ := hstates
      refine opening_commits hinv hphase hguar ⟨hop,(hinv.closed hclosed).2.2 op hmem,hlive,hmoved,
        hstate ▸ hrank,hstate ▸ hrequested,fun _ => ⟨hstate ▸ hexecuting,?_⟩,?_⟩ ?_
      · intro hexec
        rw [hstate]
        exact hunknown.mp hexec
      · intro hdone
        rw [hstate] at hdone
        rcases hdone with hdone | hdone
        · exact absurd hdone happlied
        · exact hinv.begun hclosed op hmem (hunknown.mpr hdone)
      · intro y t₀ t hinv' hphase' hguar' hops
        refine ih (found' next) hinv' hphase' hguar' hrest ?_ ?_
        · intro a ha
          have hne : a.id ≠ next.id := by
            intro heq
            exact hnot (List.mem_map.mpr ⟨a,ha,heq.trans hmoved.id⟩)
          rw [hops,OrdMap.get?_set_ne hne]
          exact hheld a (List.mem_cons_of_mem _ ha)
        · intro a ha hexec
          rw [mem_values hinv'.ledger.keyed,hops] at ha
          by_cases heq : a.id = next.id
          · rw [heq,OrdMap.get?_set_self] at ha
            cases ha
            exact absurd (hstate ▸ hexec) hexecuting
          · rw [OrdMap.get?_set_ne heq] at ha
            rcases List.mem_cons.mp (hleft a ((mem_values hinv.ledger.keyed).mpr ha) hexec) with
              rfl | hin
            · exact absurd hmoved.id.symm heq
            · exact hin
    simp only [recoverEach]
    split
    next hexec =>
      rw [wp_bind]
      refine wp_move orders_made op (hcloses .outcomeUnknown _ (by simp) (by simp [hexec,terminal])
        (rank_le_four _) (by simp [hexec])) ?_
      constructor <;> simp
    next hexec =>
      split
      next hwaits =>
        rw [wp_bind]
        refine wp_move orders_made op (hcloses .cancelled _ (by simp) ?_ (rank_le_four _)
          (by simp [hexec])) ?_
        · rcases hwaits.1 with hstate | hstate <;> simp [hstate,terminal]
        · constructor <;> simp
      next =>
        split
        next hlate =>
          rw [wp_bind]
          refine wp_move orders_made op (hcloses .cancelled _ (by simp)
            (by simp [hlate.1,terminal]) (rank_le_four _) (by simp [hexec])) ?_
          constructor <;> simp
        next =>
          refine ih (unknown,expired) hinv hphase hguar hrest
            (fun a ha => hheld a (List.mem_cons_of_mem _ ha)) ?_
          intro a ha hexec'
          rcases List.mem_cons.mp (hleft a ha hexec') with rfl | hin
          · exact absurd hexec' hexec
          · exact hin

/-- The call that opens the daemon. -/
theorem recovers_keeps (hinv : Once order d) (hphase : d.phase = .down)
    {post : Outside → Daemon → Except Failure Answer → Daemon → Prop}
    (h : ∀ y t₀ result t,Once order t → SparesOthers i t₀ t → post y t₀ result t) :
    (recovers i).wp ((orderContract order).terms c i) post x d d := by
  have hclosed : d.phase ≠ .opened := by rw [hphase]; simp
  have hundisturbed : Undisturbed i d := by
    intro j hj
    rw [hphase] at hj
    cases hj
  have hopening : SparesOthers i d { d with phase := .opening i } :=
    sparesOthers_of_eq hundisturbed rfl rfl (Nat.le_refl _) (fun h => absurd h hclosed) []
      (by simp) (by simp) (fun _ _ _ => Iff.rfl) (fun _ hmem => Or.inl hmem)
      (fun _ _ _ => Iff.rfl)
  simp only [recovers,recover,wp_bind,wp_modify,wp_attempt,wp_read,wp_get]
  have hinv' := hinv.opening hclosed i
  refine recoverEach_keeps ?_ _ _ hinv' rfl hopening hinv'.ledger.line.nodup ?_ fun a ha _ => ha
  · intro y t₀ found t hinvt hphaset hguart hnone
    refine (wp_pure _).mpr (h y t₀ _ _ (hinvt.opens hnone) (hguart.trans ?_))
    exact sparesOthers_of_eq (.of_opening hphaset) rfl rfl (Nat.le_refl _) (fun _ => rfl) []
      (by simp) (by simp) (fun _ _ _ => Iff.rfl) (fun _ hmem => Or.inl hmem)
      (fun _ _ _ => Iff.rfl)
  · intro a ha
    exact (mem_values hinv'.ledger.keyed).mp ha

/-- A daemon that was never started has no order to account for. -/
theorem once_new (order : OrderOperationInput) (hub : List GrantKind) :
    Once order (Daemon.new (.new hub)) := by
  refine ⟨⟨keyed_empty,Line.nil order,?_,?_⟩,Nat.le_refl _,?_,?_,?_,?_,?_,Nat.zero_le _,?_,?_,?_,?_,
    ?_,?_⟩
  · intro key id hkey
    simp [Daemon.new,AuthorityHub.new,OperationLedger.empty] at hkey
  · intro op hop
    cases hop
  · intro c hc
    obtain ⟨m,hm,_⟩ := hc
    cases hm
  · intro _
    refine ⟨fun j id hmem => (by cases hmem),?_⟩
    intro hdone
    obtain ⟨e,he,_⟩ := hdone
    cases he
  · intro j id hmem
    cases hmem
  · intro j k id hmem
    cases hmem
  · intro j id hmem
    cases hmem
  · intro j id hmem
    cases hmem
  · intro hdone
    obtain ⟨e,he,_⟩ := hdone
    cases he
  · intro before e after heq
    have hlen := congrArg List.length heq
    simp [Daemon.new] at hlen
  · intro j k a b hmem
    cases hmem
  · intro _
    exact ⟨rfl,rfl,fun op hop => by cases hop⟩
  · intro _ op hop
    cases hop

theorem orders_meet (order : OrderOperationInput) : service.Meets (orderContract order) where
  rely_refl i d := Spares.refl i d
  rely_trans _ _ _ _ h h' := h.trans h'
  others i j _ _ hne h := h j hne.symm
  stable _ _ _ _ _ _ _ _ := trivial
  untouched i d d' hfresh hspares := by
    obtain ⟨hhistory,hhands,hrunning⟩ := hfresh
    obtain ⟨events,hevents,hothers⟩ := hspares.history
    refine ⟨?_,fun id hmem => hhands id ((hspares.hands id).mp hmem),
      fun id hmem => hrunning id ((hspares.running id).mp hmem)⟩
    intro e he
    rw [hevents] at he
    rcases List.mem_append.mp he with he | he
    · exact hhistory e he
    · exact hothers e he
  body c i x d hinv hfresh hmade := by
    have hleaves : ∀ y t₀ (result : Except Failure Answer) t,Once order t → SparesOthers i t₀ t →
        (orderContract order).leaves c i y t₀ result t :=
      fun y t₀ result t hinv' hguar' => ⟨hinv',hguar',trivial,trivial⟩
    cases c with
    | order input moves =>
      simp only [service,body,wp_bind]
      refine runOrderOperation_keeps hinv hfresh hmade.1 hmade.2 ?_
      intro y t₀ result t hinv' hguar'
      cases result with
      | ok a => exact (wp_pure _).mpr (hleaves y t₀ _ t hinv' hguar')
      | error e => exact hleaves y t₀ _ t hinv' hguar'
    | recovers => exact recovers_keeps hinv (of_decide_eq_true hmade.1) hleaves
    | _ => exact absurd hmade.1 (by simp [orderCalls,ordersOrOpens])
  crash r d hinv hcrashed := by
    refine ⟨hinv.restarts hcrashed.1,?_,fun _ _ _ _ => trivial⟩
    intro i hfresh
    refine ⟨?_,fun id hmem => (by cases hmem),fun id hmem => (by cases hmem)⟩
    intro e he
    rcases mem_of_restart he with he | ⟨id,_,rfl⟩
    · exact hfresh.1 e he
    · simp [Event.call]

/-- In every run of the calls of one order, with restarts, in which each call finds
the attempts so far out of its way, two callbacks never overlap, and none is
started once an attempt was applied or interrupted. -/
theorem order_takes_effect_once (order : OrderOperationInput) (revokedHandlers : List GrantKind)
    (turns : List ProcessTurn)
    (h : Along service.turn ((orderCalls order).and oneAtATime).allow
      (firstStart revokedHandlers) turns) :
    TakesEffectOnce (run service.turn (firstStart revokedHandlers) turns).shared := by
  have hstart : (orderContract order).Holds (firstStart revokedHandlers) := by
    refine ⟨once_new order revokedHandlers,?_,?_⟩
    · intro i _
      exact ⟨fun e he => (by cases he),fun id hmem => (by cases hmem),
        fun id hmem => (by cases hmem)⟩
    · intro i c fiber hcall
      cases hcall
  have hinv := ((orders_meet order).run hstart h).1
  exact ⟨hinv.alone,hinv.last⟩

end

/-- An order to update. -/
def update : OrderOperationInput where
  kind := ['u']
  requester := ['o']
  idempotencyKey := ['k']
  canonicalPayload := []
  capabilityDigest := none
  grantDeps := []
  approvedBy := []
  orderSignatureHex := []
  label := []
  retryInterruptedAttempt := false

/-- An outside that draws this id, and whose callback comes back. -/
def drawing (c : Char) : Outside := { allWell with random := fun _ => [c],exec := .returns [] [] }

def resumes (n i : Nat) : List ProcessTurn := List.replicate n (.resume i (drawing 'r'))

/-- The order is carried out, the daemon restarts, and the order comes again. -/
def orderedAgain : List ProcessTurn :=
  [.call .recovers (drawing 'z'),.call (.order update 1) (drawing 'a')] ++ resumes 15 1 ++
    [.crash ⟨0,true,0,true⟩,.call .recovers (drawing 'z'),.call (.order update 1) (drawing 'b')] ++
    resumes 15 3

theorem order_takes_effect_once_over_a_restart : let _ : Sha256 := ⟨id⟩
    Along service.turn ((orderCalls update).and oneAtATime).allow (firstStart []) orderedAgain ∧
    (run service.turn (firstStart []) orderedAgain).shared.history.countP
      (fun e => match e with | .execStarts _ _ => true | _ => false) = 1 ∧
    TakesEffectOnce (run service.turn (firstStart []) orderedAgain).shared :=
  let _ : Sha256 := ⟨id⟩
  ⟨by decide,by decide,order_takes_effect_once update [] orderedAgain (by decide)⟩

/-- The order comes again before the first of its attempts is in the file. -/
def orderedTwice : List ProcessTurn :=
  [.call .recovers (drawing 'z'),.call (.order update 1) (drawing 'a'),
    .call (.order update 1) (drawing 'b')] ++ resumes 2 1 ++ resumes 2 2 ++ resumes 9 1 ++
    resumes 9 2

/-- Two overlapping calls of one order may both carry it out. -/
theorem overlapping_orders_both_run : ¬ ∀ (_ : Sha256) order revokedHandlers turns,
    Along service.turn (orderCalls order).allow (firstStart revokedHandlers) turns →
      TakesEffectOnce (run service.turn (firstStart revokedHandlers) turns).shared := by
  intro h
  have halone := (h ⟨id⟩ update [] orderedTwice (by decide)).alone
  revert halone
  decide

end Flagship.Authority

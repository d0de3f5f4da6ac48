import Flagship.Authority.Proofs.OrderInvariant

namespace Flagship.Authority
open Lib Mesh OperationLedger

/-- Nothing leads to the operation: no key, and no call that is to carry it out. -/
def Unled (id : Text) (d : Daemon) : Prop :=
  (∀ key,d.hub.ops.byKey.get? key ≠ some id) ∧ ∀ j,(j,id) ∉ d.hands

/-- The call is to carry the operation out, or made it and has not heard yet that it
is in the file. -/
def Mine (j : Nat) (id : Text) (d : Daemon) : Prop :=
  (j,id) ∈ d.hands ∨ (∃ op,.commits j none op ∈ d.history ∧ op.id = id) ∧ Unled id d

/-- What others leave to a call. -/
structure Spares (j : Nat) (d d' : Daemon) : Prop where
  history : ∃ events,d'.history = d.history ++ events ∧ ∀ e ∈ events,e.call ≠ some j
  writes : ∃ new,d'.operationsFile.writes = d.operationsFile.writes ++ new ∧
    ∀ c ∈ new,∀ id op,Mine j id d → d.hub.ops.ops.get? id = some op → op ∈ c
  known : d.operationsFile.known ≤ d'.operationsFile.known
  hands : ∀ id,(j,id) ∈ d'.hands ↔ (j,id) ∈ d.hands
  running : ∀ id,(j,id) ∈ d'.running ↔ (j,id) ∈ d.running
  same : ∀ id op,Mine j id d → d.hub.ops.ops.get? id = some op → d'.hub.ops.ops.get? id = some op
  mine : ∀ id,Mine j id d → Mine j id d'
  opened : d.phase = .opened → d'.phase = .opened
  opening : d.phase = .opening j → d' = d

section
variable {i j : Nat} {d d' d'' : Daemon} {op next : Operation}

theorem Spares.refl (j : Nat) (d : Daemon) : Spares j d d :=
  ⟨⟨[],by simp,by simp⟩,⟨[],by simp,by simp⟩,Nat.le_refl _,fun _ => Iff.rfl,fun _ => Iff.rfl,
    fun _ _ _ h => h,fun _ h => h,fun h => h,fun _ => rfl⟩

theorem Spares.trans (h : Spares j d d') (h' : Spares j d' d'') : Spares j d d'' := by
  obtain ⟨events,hevents,hothers⟩ := h.history
  obtain ⟨events',hevents',hothers'⟩ := h'.history
  obtain ⟨new,hnew,hin⟩ := h.writes
  obtain ⟨new',hnew',hin'⟩ := h'.writes
  refine ⟨⟨events ++ events',by rw [hevents',hevents,List.append_assoc],?_⟩,
    ⟨new ++ new',by rw [hnew',hnew,List.append_assoc],?_⟩,Nat.le_trans h.known h'.known,
    fun id => (h'.hands id).trans (h.hands id),fun id => (h'.running id).trans (h.running id),
    fun id op hm hop => h'.same id op (h.mine id hm) (h.same id op hm hop),
    fun id hm => h'.mine id (h.mine id hm),fun ho => h'.opened (h.opened ho),?_⟩
  · intro e he
    rcases List.mem_append.mp he with he | he
    · exact hothers e he
    · exact hothers' e he
  · intro c hc id op hm hop
    rcases List.mem_append.mp hc with hc | hc
    · exact hin c hc id op hm hop
    · exact hin' c hc id op (h.mine id hm) (h.same id op hm hop)
  · intro hopening
    have heq := h.opening hopening
    subst heq
    exact h'.opening hopening

/-- A stretch of a call leaves to every other call what is its own. -/
def SparesOthers (i : Nat) (d d' : Daemon) : Prop := ∀ j,j ≠ i → Spares j d d'

theorem SparesOthers.refl (i : Nat) (d : Daemon) : SparesOthers i d d := fun j _ => Spares.refl j d

theorem SparesOthers.trans (h : SparesOthers i d d') (h' : SparesOthers i d' d'') :
    SparesOthers i d d'' := fun j hj => (h j hj).trans (h' j hj)

/-- No other call is recovering the ledger. -/
def Undisturbed (i : Nat) (d : Daemon) : Prop := ∀ j,d.phase = .opening j → j = i

/-- A step that changes neither the ledger nor what others have in hand. -/
theorem sparesOthers_of_eq (hphase : Undisturbed i d) (hops : d'.hub.ops = d.hub.ops)
    (hwrites : d'.operationsFile.writes = d.operationsFile.writes)
    (hknown : d.operationsFile.known ≤ d'.operationsFile.known)
    (hopened : d.phase = .opened → d'.phase = .opened) (events : List Event)
    (hhistory : d'.history = d.history ++ events) (hevents : ∀ e ∈ events,∀ j,j ≠ i → e.call ≠ some j)
    (hhands : ∀ j id,j ≠ i → ((j,id) ∈ d'.hands ↔ (j,id) ∈ d.hands))
    (hled : ∀ id,(i,id) ∈ d'.hands → (i,id) ∈ d.hands ∨ ∃ key,d.hub.ops.byKey.get? key = some id)
    (hrunning : ∀ j id,j ≠ i → ((j,id) ∈ d'.running ↔ (j,id) ∈ d.running)) :
    SparesOthers i d d' := by
  intro j hj
  refine ⟨⟨events,hhistory,fun e he => hevents e he j hj⟩,⟨[],by simp [hwrites],by simp⟩,hknown,
    fun id => hhands j id hj,fun id => hrunning j id hj,fun id op _ hop => by rw [hops]; exact hop,
    ?_,hopened,fun hopening => absurd (hphase j hopening) hj⟩
  intro id hm
  rcases hm with hm | ⟨⟨op,hcommits,hid⟩,hkeys,hfree⟩
  · exact Or.inl ((hhands j id hj).mpr hm)
  · refine Or.inr ⟨⟨op,by rw [hhistory]; exact List.mem_append_left _ hcommits,hid⟩,
      by rw [hops]; exact hkeys,?_⟩
    intro k hk
    by_cases hki : k = i
    · subst hki
      rcases hled id hk with hwas | ⟨key,hkey⟩
      · exact hfree k hwas
      · exact hkeys key hkey
    · exact hfree k ((hhands k id hki).mp hk)

theorem sparesOthers_commits (hphase : Undisturbed i d) (hnot : ∀ j,j ≠ i → ¬ Mine j next.id d) :
    SparesOthers i d (d.commits i next) := by
  intro j hj
  refine ⟨⟨_,rfl,?_⟩,⟨[],by simp [Daemon.commits],by simp⟩,Nat.le_refl _,
    fun _ => Iff.rfl,fun _ => Iff.rfl,?_,?_,
    fun h => h,fun hopening => absurd (hphase j hopening) hj⟩
  · intro e he hcall
    cases List.mem_singleton.mp he
    exact hj (Option.some.inj hcall).symm
  · intro id op hm hop
    have hne : id ≠ next.id := fun heq => hnot j hj (heq ▸ hm)
    exact (OrdMap.get?_set_ne hne).trans hop
  · intro id hm
    rcases hm with hm | ⟨⟨op,hcommits,hid⟩,hunled⟩
    · exact Or.inl hm
    · exact Or.inr ⟨⟨op,List.mem_append_left _ hcommits,hid⟩,hunled⟩

theorem spares_asks (hphase : d.phase ≠ .opening j) (hkeyed : Keyed d.hub.ops) :
    Spares j d d.asks := by
  refine ⟨⟨[],by simp [Daemon.asks],by simp⟩,⟨[d.hub.ops.values],rfl,?_⟩,Nat.le_refl _,
    fun _ => Iff.rfl,fun _ => Iff.rfl,fun _ _ _ h => h,fun _ h => h,fun h => h,
    fun hopening => absurd hopening hphase⟩
  intro c hc id op _ hop
  cases List.mem_singleton.mp hc
  exact (mem_values hkeyed).mpr (by rw [hkeyed id op hop]; exact hop)

theorem sparesOthers_asks (hphase : Undisturbed i d) (hkeyed : Keyed d.hub.ops) :
    SparesOthers i d d.asks :=
  fun j hj => spares_asks (fun hopening => hj (hphase j hopening)) hkeyed

/-- The key of an operation that is no other call's leads to it from now on. -/
theorem sparesOthers_leads (hphase : Undisturbed i d) (hnot : ∀ j,j ≠ i → ¬ Mine j op.id d) :
    SparesOthers i d { d with hub := { d.hub with ops := indexed op d.hub.ops } } := by
  intro j hj
  refine ⟨⟨[],by simp,by simp⟩,⟨[],by simp,by simp⟩,Nat.le_refl _,fun _ => Iff.rfl,fun _ => Iff.rfl,
    fun _ _ _ h => h,?_,fun h => h,fun hopening => absurd (hphase j hopening) hj⟩
  intro id hm
  have hne : op.id ≠ id := fun heq => hnot j hj (heq ▸ hm)
  rcases hm with hm | ⟨hcreated,hkeys,hfree⟩
  · exact Or.inl hm
  · refine Or.inr ⟨hcreated,?_,hfree⟩
    intro key hkey
    have hset : (d.hub.ops.byKey.set (keyOf op) op.id).get? key = some id := hkey
    rw [OrdMap.get?_set] at hset
    split at hset
    · exact hne (Option.some.inj hset)
    · exact hkeys key hset

theorem Undisturbed.of_opened (h : d.phase = .opened) : Undisturbed i d := by
  intro j hj
  rw [h] at hj
  cases hj

theorem Undisturbed.of_opening (h : d.phase = .opening i) : Undisturbed i d := by
  intro j hj
  rw [h] at hj
  exact (Phase.opening.inj hj).symm

end

/-- A call that is to carry out an operation, which the ledger holds like this. -/
structure Owner (i : Nat) (id : Text) (op : Operation) (runs started : Prop) (d : Daemon) : Prop where
  hand : (i,id) ∈ d.hands
  held : d.hub.ops.ops.get? id = some op
  opened : d.phase = .opened
  running : ∀ id',(i,id') ∈ d.running → runs
  started : started → .execStarts i id ∈ d.history

theorem Owner.on {i : Nat} {id : Text} {op : Operation} {runs started : Prop} {d d' : Daemon}
    (h : Owner i id op runs started d) (hspares : Spares i d d') :
    Owner i id op runs started d' := by
  obtain ⟨events,hevents,_⟩ := hspares.history
  refine ⟨(hspares.hands id).mpr h.hand,hspares.same id op (Or.inl h.hand) h.held,
    hspares.opened h.opened,fun id' hmem => h.running id' ((hspares.running id').mp hmem),?_⟩
  intro hstarted
  rw [hevents]
  exact List.mem_append_left _ (h.started hstarted)

section
variable [Sha256] {order : OrderOperationInput} {c : Call} {i : Nat} {x : Outside} {s₀ d : Daemon}
  {id : Text} {op next : Operation} {runs started : Prop}

/-- What every call of the order keeps to. -/
def orderContract (order : OrderOperationInput) :
    Contract Call Daemon Outside Place Failure Answer Restart where
  toGrounds := (orderCalls order).and oneAtATime
  inv := Once order
  rely := Spares
  guar := SparesOthers
  fresh i d := (∀ e ∈ d.history,e.call ≠ some i) ∧ (∀ id,(i,id) ∉ d.hands) ∧
    ∀ id,(i,id) ∉ d.running
  post _ _ _ _ := True
  ends _ _ _ _ := True

theorem orders_made (place : Place) (y : Outside) (t : Daemon)
    (h : ((orderContract order).terms c i).cond place y t) : y.persisted = true := h.1.1

/-- The operation of an owner is nobody else's. -/
theorem Owner.alone (h : Owner i id op runs started d) (hinv : Once order d) {j : Nat}
    (hj : j ≠ i) : ¬ Mine j id d := by
  intro hm
  rcases hm with hm | ⟨_,_,hfree⟩
  · exact hj (hinv.oneHand j i id hm h.hand)
  · exact hfree i h.hand

/-- A commit of an operation that others leave alone while it is under way. -/
theorem commits_of (hinv : Once order (d.commits i next))
    (hguar : SparesOthers i s₀ (d.commits i next)) (hphase : d.phase = .opened)
    (hmine : Mine i next.id (d.commits i next))
    {after : OperationLedger → OperationLedger}
    {post : Outside → Daemon → Except Failure Operation → Daemon → Prop}
    (h : ∀ y t₀ ticket,Once order t₀ → t₀.phase = .opened →
      Spares i (d.commits i next) t₀ → ticket < t₀.operationsFile.writes.length →
      t₀.hub.ops.ops.get? next.id = some next →
      t₀.operationsFile.Since ticket (next ∈ ·) →
      post y t₀ (.ok next) (t₀.answers i next ticket after)) :
    Commits ((orderContract order).terms c i) i next after post s₀ d := by
  have hheld : (d.commits i next).hub.ops.ops.get? next.id = some next := by simp [Daemon.commits]
  refine ⟨hinv,hguar,?_⟩
  intro y t hrely hinvt _
  have hopened : t.phase = .opened := hrely.opened hphase
  have hheldt := hrely.same next.id next hmine hheld
  refine ⟨hinvt.asks,sparesOthers_asks (.of_opened hopened) hinvt.ledger.keyed,?_⟩
  intro z u hrely' hinvu _
  have hminet : Mine i next.id t.asks := hrely.mine next.id hmine
  obtain ⟨new,hnew,hin⟩ := hrely'.writes
  have hlen : t.operationsFile.writes.length < u.operationsFile.writes.length := by
    rw [hnew]
    simp only [Daemon.asks,StateFile.ask,List.length_append,List.length_singleton]
    omega
  apply h z u _ hinvu (hrely'.opened hopened) ?_ hlen (hrely'.same next.id next hminet hheldt)
  · -- the replacement of this call holds the operation, and so does every later one
    intro m c hm hc
    rw [hnew] at hc
    rcases Nat.lt_or_ge m t.asks.operationsFile.writes.length with hlt | hge
    · rw [List.getElem?_append_left hlt] at hc
      rcases getElem?_append_one hc with hold | ⟨_,rfl⟩
      · have := (List.getElem?_eq_some_iff.mp hold).1
        omega
      · exact (mem_values hinvt.ledger.keyed).mpr hheldt
    · rw [List.getElem?_append_right hge] at hc
      exact hin c (List.mem_of_getElem? hc) next.id next hminet hheldt
  · have hasks : Spares i t t.asks := spares_asks (by rw [hopened]; simp) hinvt.ledger.keyed
    exact (hrely.trans hasks).trans hrely'

/-- The owner of an operation moves it on. -/
theorem Owner.commits (ho : Owner i id op runs started d) (hinv : Once order d)
    (hguar : SparesOthers i s₀ d) (hadvances : Advances d op next) (hid : op.id = id)
    {post : Outside → Daemon → Except Failure Operation → Daemon → Prop}
    (h : ∀ y t₀ t,Once order t → SparesOthers i t₀ t → Owner i id next runs started t →
      t.operationsFile.known ≠ 0 → (∀ c,t.operationsFile.Possible c → next ∈ c) →
      post y t₀ (.ok next) t) :
    Commits ((orderContract order).terms c i) i next (fun l => l) post s₀ d := by
  have hnext : next.id = id := hadvances.moved.id.trans hid
  have howner : Owner i id next runs started (d.commits i next) := by
    refine ⟨ho.hand,by simp [Daemon.commits,← hnext],ho.opened,ho.running,?_⟩
    exact fun hs => List.mem_append_left _ (ho.started hs)
  refine commits_of (hinv.advances hadvances i)
    (hguar.trans (sparesOthers_commits (.of_opened ho.opened) ?_)) ho.opened
    (Or.inl (hnext ▸ howner.hand)) ?_
  · intro j hj
    rw [hnext]
    exact ho.alone hinv hj
  · intro y t₀ ticket hinv' _ hspares hticket _ hsince
    have howner' := howner.on hspares
    refine h y t₀ _ ?_ ?_ ?_ ?_ ?_
    · exact (hinv'.settles hticket).note (.answers i next) rfl rfl rfl rfl rfl rfl (by simp) (by simp) rfl
    · refine sparesOthers_of_eq (.of_opened howner'.opened) rfl rfl (Nat.le_max_left _ _)
        (fun h => h) _ rfl ?_ (fun _ _ _ => Iff.rfl) (fun _ hmem => Or.inl hmem) (fun _ _ _ => Iff.rfl)
      intro e he j hj hcall
      cases List.mem_singleton.mp he
      exact hj (Option.some.inj hcall).symm
    · exact ⟨howner'.hand,howner'.held,howner'.opened,howner'.running,
        fun hs => List.mem_append_left _ (howner'.started hs)⟩
    · have hpos : ticket + 1 ≤ max t₀.operationsFile.known (ticket + 1) := Nat.le_max_right _ _
      intro hzero
      have : max t₀.operationsFile.known (ticket + 1) = 0 := hzero
      omega
    · intro c hc
      exact hsince.of_settle hc

/-- The owner of an operation may move it on to a state. -/
theorem Owner.lands {state : OperationState} (ho : Owner i id op runs started d)
    (hinv : Once order d) (hguar : SparesOthers i s₀ d) (hlive : op.state ∉ terminal)
    (hrank : op.state.rank ≤ state.rank) (hrequested : state ≠ .requested)
    (hunknown : state ≠ .outcomeUnknown) (happlied : state = .applied → started)
    {post : Outside → Daemon → Except Failure Operation → Daemon → Prop}
    (h : ∀ y t₀ t next,next.state = state → Once order t → SparesOthers i t₀ t →
      Owner i id next runs started t → t.operationsFile.known ≠ 0 →
      (∀ c,t.operationsFile.Possible c → next ∈ c) → post y t₀ (.ok next) t) :
    Lands ((orderContract order).terms c i) i op state post s₀ d := by
  intro next hmoved hstate
  have hid := hinv.ledger.keyed id op ho.held
  have hled : d.hub.ops.byKey.get? (keyOf op) = some op.id := by
    obtain ⟨op',hop',hled⟩ := hinv.hands i id ho.hand
    rw [ho.held] at hop'
    cases hop'
    rw [hled,hid]
  refine ho.commits hinv hguar ⟨hid.symm ▸ ho.held,hled,hlive,hmoved,hstate ▸ hrank,
    hstate ▸ hrequested,fun hnot => absurd ho.opened hnot,?_⟩ hid
    (fun y t₀ t hinv' hguar' ho' hknown hin => h y t₀ t next hstate hinv' hguar' ho' hknown hin)
  intro hdone
  rw [hstate] at hdone
  rcases hdone with hdone | hdone
  · have hstarts := ho.started (happlied hdone)
    refine ⟨fun hzero => (hinv.missing hzero).1 i id hstarts,?_⟩
    intro c hc
    obtain ⟨a,ha,haid,hrank'⟩ := (hinv.contents c hc).started i id hstarts
    exact ⟨a,ha,haid.trans hid.symm,hrank'⟩
  · exact absurd hdone hunknown

end
end Flagship.Authority

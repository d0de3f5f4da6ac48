import Flagship.Authority.Proofs.LedgerCode

namespace Flagship.Authority
open Lib Mesh OperationLedger

def OperationState.rank : OperationState → Nat
  | requested => 0
  | awaitingApproval => 1
  | authorized => 2
  | executing => 3
  | applied | failed | cancelled | outcomeUnknown => 4

/-- A state an operation may have come to from another by transitions. -/
def Onward (a b : OperationState) : Prop := a = b ∨ a.rank < b.rank ∧ b ≠ .outcomeUnknown

theorem Onward.refl (a : OperationState) : Onward a a := Or.inl rfl

theorem Onward.trans {a b c : OperationState} (hab : Onward a b) (hbc : Onward b c) :
    Onward a c := by
  rcases hab with rfl | ⟨hlt,_⟩
  · exact hbc
  · rcases hbc with rfl | ⟨hlt',hc⟩
    · exact Or.inr ⟨hlt,by assumption⟩
    · exact Or.inr ⟨Nat.lt_trans hlt hlt',hc⟩

theorem Onward.rank_le {a b : OperationState} (h : Onward a b) : a.rank ≤ b.rank := by
  rcases h with rfl | ⟨hlt,_⟩
  · exact Nat.le_refl _
  · exact Nat.le_of_lt hlt

theorem rank_le_four (a : OperationState) : a.rank ≤ 4 := by
  cases a <;> simp [OperationState.rank]

theorem Onward.of_terminal {a b : OperationState} (h : Onward a b) (ha : a.rank = 4) : b = a := by
  rcases h with rfl | ⟨hlt,_⟩
  · rfl
  · have := rank_le_four b
    omega

/-- The call an event belongs to. -/
def Event.call : Event → Option Nat
  | .commits call _ _ => some call
  | .answers call _ => some call
  | .execStarts call _ => some call
  | _ => none

section
variable {ops ops' ops'' : OrdMap Text Operation}

/-- No operation goes back. -/
def Onwards (ops ops' : OrdMap Text Operation) : Prop :=
  ∀ id op,ops.get? id = some op → ∃ op',ops'.get? id = some op' ∧ Onward op.state op'.state

theorem Onwards.refl (ops : OrdMap Text Operation) : Onwards ops ops := by
  intro id op h
  exact ⟨op,h,Onward.refl _⟩

theorem Onwards.trans (h : Onwards ops ops') (h' : Onwards ops' ops'') : Onwards ops ops'' := by
  intro id op hop
  obtain ⟨op',hop',hon⟩ := h id op hop
  obtain ⟨op'',hop'',hon'⟩ := h' id op' hop'
  exact ⟨op'',hop'',hon.trans hon'⟩

theorem onwards_set {next : Operation}
    (h : ∀ op,ops.get? next.id = some op → Onward op.state next.state) :
    Onwards ops (ops.set next.id next) := by
  intro id op hop
  by_cases hid : id = next.id
  · subst hid
    exact ⟨next,by simp,h op hop⟩
  · exact ⟨op,by rw [OrdMap.get?_set_ne hid]; exact hop,Onward.refl _⟩

end

/-- How the ledger and the history may change, by events of a kind. -/
def Changes (mine : Event → Prop) (d d' : Daemon) : Prop :=
  Onwards d.hub.ops.ops d'.hub.ops.ops ∧
    ∃ events,d'.history = d.history ++ events ∧ ∀ e ∈ events,mine e

section
variable {mine : Event → Prop} {d d' d'' : Daemon}

theorem Changes.refl (d : Daemon) : Changes mine d d :=
  ⟨Onwards.refl _,[],by simp,by simp⟩

theorem Changes.trans (h : Changes mine d d') (h' : Changes mine d' d'') :
    Changes mine d d'' := by
  obtain ⟨hon,events,hevents,hmine⟩ := h
  obtain ⟨hon',events',hevents',hmine'⟩ := h'
  refine ⟨hon.trans hon',events ++ events',by rw [hevents',hevents,List.append_assoc],?_⟩
  intro e he
  rcases List.mem_append.mp he with he | he
  · exact hmine e he
  · exact hmine' e he

theorem Changes.mono {yours : Event → Prop} (h : Changes mine d d')
    (himp : ∀ e,mine e → yours e) : Changes yours d d' := by
  obtain ⟨hon,events,hevents,hmine⟩ := h
  exact ⟨hon,events,hevents,fun e he => himp e (hmine e he)⟩

theorem Changes.mem (h : Changes mine d d') {e : Event} (he : e ∈ d.history) :
    e ∈ d'.history := by
  obtain ⟨_,events,hevents,_⟩ := h
  rw [hevents]
  exact List.mem_append_left _ he

theorem Changes.not_mem (h : Changes mine d d') {e : Event} (he : e ∉ d.history)
    (hmine : ¬ mine e) : e ∉ d'.history := by
  obtain ⟨_,events,hevents,hall⟩ := h
  rw [hevents,List.mem_append]
  intro h'
  rcases h' with h' | h'
  · exact he h'
  · exact hmine (hall e h')

theorem Changes.stateOf (h : Changes mine d d') {id : Text} {state : OperationState}
    (hstate : stateOf d id = some state) :
    ∃ state',Authority.stateOf d' id = some state' ∧ Onward state state' := by
  obtain ⟨op,hop,rfl⟩ := Option.map_eq_some_iff.mp hstate
  obtain ⟨op',hop',hon⟩ := h.1 id op hop
  exact ⟨op'.state,by simp [Authority.stateOf,hop'],hon⟩

end

/-- A commit that starts its operation. -/
def Starts (prior next : Operation) : Prop := prior.state ≠ .executing ∧ next.state = .executing

/-- What holds of the ledger and the history whenever no transition is in the
middle of a stretch. -/
structure Kept (ops : OrdMap Text Operation) (history : List Event) : Prop where
  keyed : ∀ id op,ops.get? id = some op → op.id = id
  started : ∀ i prior next,.commits i (some prior) next ∈ history → Starts prior next →
    ∃ op,ops.get? next.id = some op ∧ 3 ≤ op.state.rank
  once : ∀ i prior next j prior' next',.commits i (some prior) next ∈ history →
    Starts prior next → .commits j (some prior') next' ∈ history → Starts prior' next' →
    next.id = next'.id → i = j
  cancelled : ∀ i next,.answers i next ∈ history → next.state = .cancelled →
    ∃ op,ops.get? next.id = some op ∧ op.state = .cancelled
  answered : ∀ i next,.answers i next ∈ history → next.state = .cancelled →
    ∀ call prior n,.commits call prior n ∈ history → n.id = next.id →
      n.state = .executing → .answers call n ∈ history

/-- An operation that may be put in the ledger. -/
structure MayMove (ops : OrdMap Text Operation) (next : Operation) : Prop where
  onward : ∀ op,ops.get? next.id = some op → Onward op.state next.state
  begins : next.state = .executing →
    ∃ op,ops.get? next.id = some op ∧ (op.state = .authorized ∨ op.state = .executing)

section
variable {ops : OrdMap Text Operation} {history : List Event} {next : Operation} {i : Nat}

theorem Kept.commits (h : Kept ops history) (hnext : MayMove ops next) (i : Nat) :
    Kept (ops.set next.id next) (history ++ [.commits i (ops.get? next.id) next]) := by
  have hon := onwards_set hnext.onward
  -- an operation that was started before is past `authorized`, so this is no second start
  have hfirst : ∀ j prior n op,.commits j (some prior) n ∈ history → Starts prior n →
      n.id = next.id → ops.get? next.id = some op → Starts op next → False := by
    intro j prior n op hmem hstarts hid hop hagain
    obtain ⟨op',hop',hrank⟩ := h.started j prior n hmem hstarts
    rw [hid,hop] at hop'
    cases hop'
    obtain ⟨op',hop',hstate⟩ := hnext.begins hagain.2
    rw [hop] at hop'
    cases hop'
    rcases hstate with hstate | hstate
    · simp [hstate,OperationState.rank] at hrank
    · exact hagain.1 hstate
  refine ⟨?_,?_,?_,?_,?_⟩
  · intro id op hop
    by_cases hid : id = next.id
    · subst hid
      simp only [OrdMap.get?_set_self,Option.some.injEq] at hop
      rw [hop]
    · rw [OrdMap.get?_set_ne hid] at hop
      exact h.keyed id op hop
  · intro j prior n hmem hstarts
    rcases List.mem_append.mp hmem with hmem | hmem
    · obtain ⟨op,hop,hrank⟩ := h.started j prior n hmem hstarts
      obtain ⟨op',hop',hon'⟩ := hon n.id op hop
      exact ⟨op',hop',Nat.le_trans hrank hon'.rank_le⟩
    · obtain ⟨_,_,rfl⟩ := Event.commits.inj (List.mem_singleton.mp hmem)
      exact ⟨n,by simp,by simp [hstarts.2,OperationState.rank]⟩
  · intro j prior n j' prior' n' hmem hstarts hmem' hstarts' hid
    rcases List.mem_append.mp hmem with hin | hin <;>
      rcases List.mem_append.mp hmem' with hin' | hin'
    · exact h.once j prior n j' prior' n' hin hstarts hin' hstarts' hid
    · obtain ⟨_,hop,rfl⟩ := Event.commits.inj (List.mem_singleton.mp hin')
      exact absurd (hfirst j prior n prior' hin hstarts hid hop.symm hstarts') not_false
    · obtain ⟨_,hop,rfl⟩ := Event.commits.inj (List.mem_singleton.mp hin)
      exact absurd (hfirst j' prior' n' prior hin' hstarts' hid.symm hop.symm hstarts) not_false
    · obtain ⟨rfl,_,_⟩ := Event.commits.inj (List.mem_singleton.mp hin)
      obtain ⟨rfl,_,_⟩ := Event.commits.inj (List.mem_singleton.mp hin')
      rfl
  · intro j n hmem hstate
    rcases List.mem_append.mp hmem with hmem | hmem
    · obtain ⟨op,hop,hop'⟩ := h.cancelled j n hmem hstate
      obtain ⟨op',hget,hon'⟩ := hon n.id op hop
      refine ⟨op',hget,?_⟩
      rw [hon'.of_terminal (by rw [hop']; rfl),hop']
    · cases List.mem_singleton.mp hmem
  · intro j n hmem hstate call prior m hmem' hid hexec
    rcases List.mem_append.mp hmem with hmem | hmem
    · rcases List.mem_append.mp hmem' with hmem' | hmem'
      · exact List.mem_append_left _ (h.answered j n hmem hstate call prior m hmem' hid hexec)
      · cases List.mem_singleton.mp hmem'
        obtain ⟨op,hop,hcancelled⟩ := h.cancelled j n hmem hstate
        obtain ⟨op',hop',hstate'⟩ := hnext.begins hexec
        rw [hid,hop] at hop'
        cases hop'
        rw [hcancelled] at hstate'
        rcases hstate' with hstate' | hstate' <;> cases hstate'
    · cases List.mem_singleton.mp hmem

theorem Kept.answers (h : Kept ops history)
    (hstate : next.state = .cancelled → ∃ op,ops.get? next.id = some op ∧ op.state = .cancelled)
    (hstarts : next.state = .cancelled → ∀ call prior n,.commits call prior n ∈ history →
      n.id = next.id → n.state = .executing → .answers call n ∈ history) (i : Nat) :
    Kept ops (history ++ [.answers i next]) := by
  have hold : ∀ {call prior n},.commits call prior n ∈ history ++ [.answers i next] →
      .commits call prior n ∈ history := by
    intro call prior n hmem
    rcases List.mem_append.mp hmem with hmem | hmem
    · exact hmem
    · cases List.mem_singleton.mp hmem
  refine ⟨h.keyed,?_,?_,?_,?_⟩
  · intro j prior n hmem
    exact h.started j prior n (hold hmem)
  · intro j prior n j' prior' n' hmem hstarts hmem' hstarts' hid
    exact h.once j prior n j' prior' n' (hold hmem) hstarts (hold hmem') hstarts' hid
  · intro j n hmem hn
    rcases List.mem_append.mp hmem with hmem | hmem
    · exact h.cancelled j n hmem hn
    · cases List.mem_singleton.mp hmem
      exact hstate hn
  · intro j n hmem hn call prior m hmem' hid hexec
    apply List.mem_append_left
    rcases List.mem_append.mp hmem with hmem | hmem
    · exact h.answered j n hmem hn call prior m (hold hmem') hid hexec
    · cases List.mem_singleton.mp hmem
      exact hstarts hn call prior m (hold hmem') hid hexec

end

/-- What every transition keeps to. -/
def transitionContract : Contract Call Daemon Outside Place Failure Answer Restart where
  toGrounds := transitions.and stillAsRead
  inv d := Kept d.hub.ops.ops d.history
  rely i := Changes (·.call ≠ some i)
  guar i := Changes (·.call = some i)
  fresh i d := ∀ e ∈ d.history,e.call ≠ some i
  post c i result d := match c,result with
    | .begins id,.ok (.operation _) => ∃ prior next,.commits i (some prior) next ∈ d.history ∧
        Starts prior next ∧ next.id = id
    | .cancel id _,.ok (.operation op) => .answers i op ∈ d.history ∧ op.id = id
    | _,_ => True
  ends c _ d result := ∀ id answer,letsGoOn id c → result = .ok answer →
    ∀ j next,.answers j next ∈ d.history → next.id = id → next.state ≠ .cancelled

section
variable {c : Call} {i : Nat} {x : Outside} {s₀ d : Daemon} {α : Type}

/-- How a commit leaves things, and what of the call it found before. -/
structure Committed (i : Nat) (before : List Event) (prior : Option Operation)
    (next : Operation) (t₀ t : Daemon) : Prop where
  kept : Kept t.hub.ops.ops t.history
  changes : Changes (·.call = some i) t₀ t
  commits : .commits i prior next ∈ t.history
  answers : .answers i next ∈ t.history
  mine : ∀ n,.answers i n ∈ t.history → n = next ∨ .answers i n ∈ before
  first : next.state = .executing → ∀ j n,.answers j n ∈ t₀.history → n.id = next.id →
    n.state ≠ .cancelled

theorem transitions_made (place : Place) (y : Outside) (t : Daemon)
    (h : (transitionContract.terms c i).cond place y t) : y.persisted = true := h.1.1

theorem Committed.of_may {next : Operation} {after : OperationLedger → OperationLedger}
    {post : Outside → Daemon → Except Failure Operation → Daemon → Prop}
    (hafter : ∀ l,(after l).ops = l.ops) (hkept : Kept d.hub.ops.ops d.history)
    (hguar : Changes (·.call = some i) s₀ d) (hmay : MayMove d.hub.ops.ops next)
    (hnew : next.state = .executing → .answers i next ∉ d.history)
    (h : ∀ y t₀ t,Committed i d.history (d.hub.ops.ops.get? next.id) next t₀ t →
      post y t₀ (.ok next) t) :
    Commits (transitionContract.terms c i) i next after post s₀ d := by
  have hcommit : Changes (·.call = some i) d (d.commits i next) :=
    ⟨onwards_set hmay.onward,_,rfl,by simp [Event.call]⟩
  refine ⟨hkept.commits hmay i,hguar.trans hcommit,?_⟩
  intro y t hrely hinv _
  refine ⟨hinv,Changes.refl t,?_⟩
  intro z u hrely' hinv' hcond
  -- the others changed nothing of this call's own, and moved its operation only onward
  have hothers : Changes (·.call ≠ some i) (d.commits i next) u := hrely.trans hrely'
  have hnow : ∃ op,u.hub.ops.ops.get? next.id = some op ∧ Onward next.state op.state :=
    hothers.1 next.id next (by simp [Daemon.commits])
  have hcommits : .commits i (d.hub.ops.ops.get? next.id) next ∈ u.history :=
    hothers.mem (by simp [Daemon.commits])
  have hops : (u.answers i next t.operationsFile.writes.length after).hub.ops.ops =
      u.hub.ops.ops := hafter u.hub.ops
  have hcancelled : next.state = .cancelled →
      ∃ op,u.hub.ops.ops.get? next.id = some op ∧ op.state = .cancelled := by
    intro hstate
    obtain ⟨op,hop,hon⟩ := hnow
    exact ⟨op,hop,(hon.of_terminal (by rw [hstate]; rfl)).trans hstate⟩
  have hstarts : next.state = .cancelled → ∀ call prior n,.commits call prior n ∈ u.history →
      n.id = next.id → n.state = .executing → .answers call n ∈ u.history := by
    intro hstate call prior n hmem hid hexec
    have hall := List.all_eq_true.mp (of_decide_eq_true hcond.2 hstate) _ hmem
    exact of_decide_eq_true hall ⟨hid,hexec⟩
  apply h
  refine ⟨?_,?_,List.mem_append_left _ hcommits,by simp [Daemon.answers],?_,?_⟩
  · rw [hops]
    exact hinv'.answers hcancelled hstarts i
  · refine ⟨by rw [hops]; exact Onwards.refl _,_,rfl,by simp [Event.call]⟩
  · intro n hmem
    rcases List.mem_append.mp hmem with hmem | hmem
    · obtain ⟨_,events,hevents,hcalls⟩ := hothers
      rw [hevents,Daemon.commits,List.append_assoc] at hmem
      rcases List.mem_append.mp hmem with hmem | hmem
      · exact Or.inr hmem
      · rcases List.mem_append.mp hmem with hmem | hmem
        · cases List.mem_singleton.mp hmem
        · exact absurd rfl (hcalls _ hmem)
    · cases List.mem_singleton.mp hmem
      exact Or.inl rfl
  · intro hexec j n hmem hid hstate
    have hanswered := hinv'.answered j n hmem hstate i _ next hcommits hid.symm hexec
    refine hothers.not_mem ?_ (by simp [Event.call]) hanswered
    simpa [Daemon.commits] using hnew hexec

/-- There is nothing of the call in the history yet. -/
def Unseen (i : Nat) (d : Daemon) : Prop := ∀ e ∈ d.history,e.call ≠ some i

theorem Unseen.on {d' : Daemon} (h : Unseen i d) (hrely : Changes (·.call ≠ some i) d d') :
    Unseen i d' := by
  obtain ⟨_,events,hevents,hothers⟩ := hrely
  intro e he
  rw [hevents] at he
  rcases List.mem_append.mp he with he | he
  · exact h e he
  · exact hothers e he

theorem lands_of {op now : Operation} {state : OperationState}
    {post : Outside → Daemon → Except Failure Operation → Daemon → Prop}
    (hkept : Kept d.hub.ops.ops d.history) (hguar : Changes (·.call = some i) s₀ d)
    (hnow : d.hub.ops.ops.get? op.id = some now) (hon : Onward now.state state)
    (hexec : state = .executing →
      (now.state = .authorized ∨ now.state = .executing) ∧ Unseen i d)
    (h : ∀ y t₀ t next,Moved op next → next.state = state →
      Committed i d.history (some now) next t₀ t → post y t₀ (.ok next) t) :
    Lands (transitionContract.terms c i) i op state post s₀ d := by
  intro next hmoved hstate
  refine Committed.of_may (fun _ => rfl) hkept hguar ⟨?_,?_⟩ ?_ ?_
  · intro op' hop'
    rw [hmoved.id,hnow] at hop'
    cases hop'
    rw [hstate]
    exact hon
  · intro hnext
    rw [hmoved.id]
    exact ⟨now,hnow,(hexec (hstate ▸ hnext)).1⟩
  · intro hnext hmem
    exact (hexec (hstate ▸ hnext)).2 _ hmem rfl
  · intro y t₀ t hcommitted
    rw [hmoved.id,hnow] at hcommitted
    exact h y t₀ t next hmoved hstate hcommitted

/-- A cancellation of what the ledger holds, before the call throws. -/
theorem lands_cancelled {α : Type} {op : Operation}
    {post : Outside → Daemon → Except Failure α → Daemon → Prop}
    (hkept : Kept d.hub.ops.ops d.history) (hguar : Changes (·.call = some i) s₀ d) {id : Text}
    (hop : d.hub.ops.ops.get? id = some op) (hon : Onward op.state .cancelled)
    (herr : ∀ y t₀ e t,Kept t.hub.ops.ops t.history → Changes (·.call = some i) t₀ t →
      post y t₀ (.error e) t) :
    Lands (transitionContract.terms c i) i op .cancelled (throwing post) s₀ d := by
  refine lands_of hkept hguar ((hkept.keyed id op hop).symm ▸ hop) hon (fun h => by cases h) ?_
  intro y t₀ t next _ _ hcommitted e
  exact herr y t₀ e t hcommitted.kept hcommitted.changes

theorem onward_cancelled {state : OperationState} (h : state ∉ terminal) :
    Onward state .cancelled := by
  refine Or.inr ⟨?_,by simp⟩
  cases state <;> simp_all [terminal,OperationState.rank]

/-- The checks of `begin` and `crossPointOfNoReturn`, and the commit after them. -/
theorem checked_of {id : Text} {op : Operation} {irreversible : Bool}
    {post : Outside → Daemon → Except Failure Operation → Daemon → Prop}
    (hkept : Kept d.hub.ops.ops d.history) (hunseen : Unseen i d)
    (hop : d.hub.ops.ops.get? id = some op)
    (hstate : op.state = .authorized ∨ op.state = .executing)
    (herr : ∀ y t₀ e t,Kept t.hub.ops.ops t.history → Changes (·.call = some i) t₀ t →
      post y t₀ (.error e) t)
    (h : ∀ y t₀ t before now next,now.state = op.state → Moved op next →
      next.state = .executing → Committed i before (some now) next t₀ t →
      post y t₀ (.ok next) t) :
    Checked (transitionContract.terms c i) i op irreversible post x d d := by
  have hid := hkept.keyed id op hop
  have hlive : op.state ∉ terminal := by rcases hstate with h | h <;> simp [h,terminal]
  refine ⟨⟨fun e => herr x d e d hkept (Changes.refl d),?_⟩,hkept,Changes.refl d,?_⟩
  · intro now hnow
    rw [hid,hop] at hnow
    cases hnow
    exact lands_cancelled hkept (Changes.refl d) hop (onward_cancelled hlive) herr
  · intro y t hrely hinv hcond
    obtain ⟨now,hnow,hon⟩ := hrely.1 id op hop
    refine ⟨?_,?_⟩
    · intro hfails
      refine ⟨fun e => herr y t e t hinv (Changes.refl t),?_⟩
      intro now' hnow'
      rw [hid,hnow] at hnow'
      cases hnow'
      refine lands_cancelled hinv (Changes.refl t) hnow ?_ herr
      -- it may be cancelled already, but it is not applied or failed
      have hnot := of_decide_eq_true hcond.2 hfails
      rw [hid] at hnot
      simp only [stateOf,hnow,Option.map_some,ne_eq,Option.some.injEq] at hnot
      rcases hstate with hs | hs <;> rw [hs] at hon <;> cases hstate' : now.state <;>
        simp_all [Onward,OperationState.rank]
    · intro _
      refine ⟨Changes.refl t,?_⟩
      intro z u hrely' hinv' hcond'
      have hnow' : stateOf u op.id = some op.state := of_decide_eq_true hcond'.2
      obtain ⟨now',hget,hsame⟩ := Option.map_eq_some_iff.mp hnow'
      refine lands_of hinv' (Changes.refl u) hget ?_ ?_ ?_
      · rcases hstate with hs | hs <;> rw [hsame,hs]
        · exact Or.inr ⟨by decide,by decide⟩
        · exact Onward.refl _
      · intro _
        exact ⟨by rw [hsame]; exact hstate,(hunseen.on hrely).on hrely'⟩
      · intro y t₀ t next hmoved hnext hcommitted
        exact h y t₀ t _ now' next hsame hmoved hnext hcommitted

end
end Flagship.Authority

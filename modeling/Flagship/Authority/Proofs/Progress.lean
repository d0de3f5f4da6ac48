import Flagship.Authority.Proofs.Attempts
import Flagship.Authority.Proofs.Families

namespace Flagship.Authority
open Lib Mesh OperationLedger

/-- The work was dealt with after these events: its handler was called, or it was
unregistered. -/
def Handled (work : Text) (events history : List Event) : Prop :=
  .cancels work ∈ history ∨ .unregisters work ∈ events

/-- The ledger holds an operation for this one, which is stopped if this one is. -/
def Tracks (op : Operation) (d : Daemon) : Prop :=
  ∃ now,d.hub.ops.ops.get? op.id = some now ∧ now.grantDeps = op.grantDeps ∧
    (isStopped op = true → isStopped now = true)

/-- Whatever the calls of the hub do: what is revoked or stopped stays so, and work
does not vanish. -/
structure Progress (d d' : Daemon) : Prop where
  revoked : ∀ id,d.hub.grants.Revoked id → d'.hub.grants.Revoked id
  tracks : ∀ op,Tracks op d → Tracks op d'
  history : ∃ events,d'.history = d.history ++ events ∧
    ∀ work w,d.hub.work.get? work = some w →
      d'.hub.work.get? work = some w ∨ Handled work events d'.history

section
variable {d d' d'' : Daemon}

theorem Progress.refl (d : Daemon) : Progress d d :=
  ⟨fun _ h => h,fun _ h => h,[],by simp,fun _ _ h => Or.inl h⟩

theorem Progress.trans (h : Progress d d') (h' : Progress d' d'') : Progress d d'' := by
  obtain ⟨events,hevents,hwork⟩ := h.history
  obtain ⟨events',hevents',hwork'⟩ := h'.history
  refine ⟨fun id hid => h'.revoked id (h.revoked id hid),
    fun op hop => h'.tracks op (h.tracks op hop),events ++ events',?_,?_⟩
  · rw [hevents',hevents,List.append_assoc]
  · intro work w hw
    rcases hwork work w hw with hw | hcancels | hunregisters
    · rcases hwork' work w hw with hw | hcancels | hunregisters
      · exact Or.inl hw
      · exact Or.inr (Or.inl hcancels)
      · exact Or.inr (Or.inr (List.mem_append_right _ hunregisters))
    · rw [hevents']
      exact Or.inr (Or.inl (List.mem_append_left _ hcancels))
    · exact Or.inr (Or.inr (List.mem_append_left _ hunregisters))

/-- What is noted that concerns no work. -/
theorem Progress.of_eq (hgrants : d'.hub.grants = d.hub.grants) (hops : d'.hub.ops.ops = d.hub.ops.ops)
    (hwork : d'.hub.work = d.hub.work) (events : List Event)
    (hhistory : d'.history = d.history ++ events) : Progress d d' := by
  refine ⟨?_,?_,events,hhistory,?_⟩
  · intro id hid
    obtain ⟨g,hg,hrevoked⟩ := hid
    exact ⟨g,by rw [hgrants]; exact hg,hrevoked⟩
  · intro op hop
    obtain ⟨now,hnow,hrest⟩ := hop
    exact ⟨now,by rw [hops]; exact hnow,hrest⟩
  · intro work w hw
    rw [hwork]
    exact Or.inl hw

theorem Progress.into (h : Progress d d') (hhub : d''.hub = d'.hub)
    (hhistory : d''.history = d'.history) : Progress d d'' :=
  h.trans (Progress.of_eq (by rw [hhub]) (by rw [hhub]) (by rw [hhub]) [] (by simp [hhistory]))

theorem Progress.outOf (h : Progress d' d'') (hhub : d'.hub = d.hub)
    (hhistory : d'.history = d.history) : Progress d d'' :=
  ((Progress.refl d).into hhub hhistory).trans h

/-- What the calls of the hub count on wherever they stand. -/
structure Steady (d : Daemon) : Prop where
  keyed : Keyed d.hub.ops
  usable : d.hub.ops.failedClosed = false
  grants : d.hub.grants.Sound
  /-- The numbers work was registered under so far. -/
  work : ∀ id w,d.hub.work.get? id = some w → ∃ k,k ≤ d.hub.seq ∧ id = 'w' :: Nat.toDigits 10 k

theorem Steady.of_eq (h : Steady d) (hhub : d'.hub = d.hub) : Steady d' :=
  ⟨hhub ▸ h.keyed,hhub ▸ h.usable,hhub ▸ h.grants,hhub ▸ h.work⟩

theorem tracks_self (h : Keyed d.hub.ops) {id : Text} {op : Operation}
    (hop : d.hub.ops.ops.get? id = some op) : Tracks op d :=
  ⟨op,by rw [h id op hop]; exact hop,rfl,fun hs => hs⟩

/-- A step of an operation that was not over keeps it stopped if it was. -/
theorem Moved.stopped {op next : Operation} (h : Moved op next)
    (hstate : op.state ∈ terminal → next.state ∈ terminal) (hop : isStopped op = true) :
    isStopped next = true := by
  simp only [isStopped,Bool.or_eq_true,List.contains_iff_mem,Bool.and_eq_true] at hop ⊢
  rcases hop with hop | ⟨hcrossed,hcancel⟩
  · exact Or.inl (hstate hop)
  · exact Or.inr ⟨h.crossed hcrossed,h.cancelRequested hcancel⟩

end

/-- What every call of the hub keeps to. -/
def hubContract : Contract Call Daemon Outside Place Failure Answer Restart where
  toGrounds := hubCalls.and reachable
  inv := Steady
  rely _ := Progress
  guar _ := Progress
  fresh _ _ := True
  post _ _ _ _ := True
  ends _ _ _ _ := True

section
variable {c : Call} {i : Nat} {x : Outside} {s₀ d : Daemon} {op next : Operation}

theorem hub_made (place : Place) (y : Outside) (t : Daemon)
    (h : (hubContract.terms c i).cond place y t) : y.persisted = true := h.1

theorem hub_finds (place : Place) (y : Outside) (t : Daemon)
    (h : (hubContract.terms c i).cond place y t) : findsOpen c place t = true := h.2

/-- An operation is put in the ledger that is stopped if what was there is. -/
theorem progress_commits (hnext : ∀ now,d.hub.ops.ops.get? next.id = some now →
      next.grantDeps = now.grantDeps ∧ (isStopped now = true → isStopped next = true)) :
    Progress d (d.commits i next) := by
  refine ⟨fun _ h => h,?_,_,rfl,fun _ _ h => Or.inl h⟩
  intro op hop
  obtain ⟨now,hnow,hdeps,hstopped⟩ := hop
  by_cases hid : op.id = next.id
  · obtain ⟨hdeps',hstopped'⟩ := hnext now (hid ▸ hnow)
    refine ⟨next,?_,hdeps'.trans hdeps,fun hs => hstopped' (hstopped hs)⟩
    rw [hid]
    exact OrdMap.get?_set_self ..
  · exact ⟨now,(OrdMap.get?_set_ne hid).trans hnow,hdeps,hstopped⟩

theorem Steady.commits (h : Steady d) (i : Nat) (next : Operation) : Steady (d.commits i next) :=
  ⟨keyed_set rfl h.keyed,h.usable,h.grants,h.work⟩

/-- Such a commit, with what is done after it. -/
theorem commits_progress (hinv : Steady d) (hguar : Progress s₀ d)
    (hnext : ∀ now,d.hub.ops.ops.get? next.id = some now →
      next.grantDeps = now.grantDeps ∧ (isStopped now = true → isStopped next = true))
    {after : OperationLedger → OperationLedger}
    (hafter : ∀ l,(after l).ops = l.ops ∧ (after l).failedClosed = l.failedClosed)
    {post : Outside → Daemon → Except Failure Operation → Daemon → Prop}
    (h : ∀ y t₀ t,Steady t → Progress t₀ t → Progress d t → Tracks next t → post y t₀ (.ok next) t) :
    Commits (hubContract.terms c i) i next after post s₀ d := by
  have hon := progress_commits (i := i) hnext
  have htracks : Tracks next (d.commits i next) :=
    tracks_self (hinv.commits i next).keyed (OrdMap.get?_set_self ..)
  refine ⟨hinv.commits i next,hguar.trans hon,?_⟩
  intro y t hrely hinvt _
  refine ⟨hinvt.of_eq rfl,Progress.of_eq rfl rfl rfl [] (by simp [Daemon.asks]),?_⟩
  intro z u hrely' hinvu _
  have hasks : Progress t t.asks := Progress.of_eq rfl rfl rfl [] (by simp [Daemon.asks])
  have hu := hrely.trans (hasks.trans hrely')
  obtain ⟨hops,hclosed⟩ := hafter u.hub.ops
  have hanswers : Progress u (u.answers i next t.operationsFile.writes.length after) :=
    Progress.of_eq rfl hops rfl [.answers i next] rfl
  refine h z u _ ?_ hanswers (hon.trans (hu.trans hanswers))
    (hanswers.tracks next (hu.tracks next htracks))
  refine ⟨?_,?_,hinvu.grants,hinvu.work⟩
  · intro id op hop
    exact hinvu.keyed id op (by rw [← hops]; exact hop)
  · exact hclosed.trans hinvu.usable

/-- An operation the ledger still holds like this may be moved on. -/
theorem lands_progress (hinv : Steady d) (hguar : Progress s₀ d) {state : OperationState}
    (hheld : ∀ now,d.hub.ops.ops.get? op.id = some now →
      op.grantDeps = now.grantDeps ∧ (isStopped now = true → isStopped op = true))
    (hstate : op.state ∈ terminal → state ∈ terminal)
    {post : Outside → Daemon → Except Failure Operation → Daemon → Prop}
    (h : ∀ y t₀ t next,Moved op next → next.state = state → Steady t → Progress t₀ t → Progress d t →
      Tracks next t → post y t₀ (.ok next) t) :
    Lands (hubContract.terms c i) i op state post s₀ d := by
  intro next hmoved hnext
  refine commits_progress hinv hguar ?_ (fun _ => ⟨rfl,rfl⟩)
    (fun y t₀ t => h y t₀ t next hmoved hnext)
  intro now hnow
  rw [hmoved.id] at hnow
  obtain ⟨hdeps,hstopped⟩ := hheld now hnow
  exact ⟨hmoved.grantDeps.trans hdeps,
    fun hs => hmoved.stopped (hnext ▸ hstate) (hstopped hs)⟩

theorem held_self (hop : d.hub.ops.ops.get? op.id = some op) (now : Operation)
    (hnow : d.hub.ops.ops.get? op.id = some now) :
    op.grantDeps = now.grantDeps ∧ (isStopped now = true → isStopped op = true) := by
  rw [hop] at hnow
  cases hnow
  exact ⟨rfl,fun h => h⟩

end
end Flagship.Authority

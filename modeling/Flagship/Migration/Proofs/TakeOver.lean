import Flagship.Migration.Proofs.Phases

namespace Flagship.Migration.Proofs
open Lib Control

/-- What the parties to a move share. -/
abbrev MoveShared := Shared MigrationWorld MigrationEvent

/-- The leases of the first kind that were there when the phase became taken-over
and still are have these ids. -/
def AutoLeft (s : MoveShared) (ids : List Text) : Prop :=
  ∀ time auto box,.tookOver time auto box ∈ s.history →
    ∀ l ∈ auto,l ∈ s.tables.tables.autoLeases → l.leaseId ∈ ids

def SealedLeft (s : MoveShared) (ids : List Text) : Prop :=
  ∀ time auto box,.tookOver time auto box ∈ s.history →
    ∀ l ∈ box,l ∈ s.tables.tables.sealedLeases → l.leaseId ∈ ids

/-- A take-over whose clock was read before the phase became taken-over. -/
def Precedes (k : TakingOver) (s : MoveShared) : Prop :=
  k.time ≤ s.clock ∧ ∀ time auto box,.tookOver time auto box ∈ s.history → k.time ≤ time

def Taken (s : MoveShared) : Prop := InPhase s.tables.tables (· = .takenOver)

section
variable (host : Text) (first : ServerMigrationRecord)

/-- The take-over is of the session the run began with. -/
def OfSession (k : TakingOver) : Prop :=
  k.session.oldStkPubHex = first.oldStkPubHex ∧ first.newStkPubHex = some k.newStkPubHex

def RowStands (s : MoveShared) : Prop :=
  ∃ row,s.tables.tables.evictions first.oldStkPubHex = some row

/-- Nothing is left to do. -/
structure Done (s : MoveShared) : Prop where
  taken : Taken s
  auto : AutoLeft s []
  box : SealedLeft s []
  acked : ∃ row,s.tables.tables.evictions first.oldStkPubHex = some row ∧
    row.newAckedAt.isSome = true

/-- What a take-over has done by the call it stands before. -/
def Takes (s : MoveShared) : MigrationProgress → Prop
  | .ackSession phase _ time => phase = .takeOver ∧ time ≤ s.clock
  | .getEviction k => OfSession first k ∧ Precedes k s
  | .rebind k _ => OfSession first k ∧ Precedes k s ∧ RowStands first s
  | .markTakenOver k => OfSession first k ∧ Precedes k s ∧ RowStands first s ∧
      s.tables.tables.identity host = first.newStkPubHex
  | .listAuto k => Precedes k s ∧ RowStands first s ∧ Taken s
  | .revokeAuto k id others => Precedes k s ∧ RowStands first s ∧ Taken s ∧
      AutoLeft s (id :: others)
  | .listSealed k => Precedes k s ∧ RowStands first s ∧ Taken s ∧ AutoLeft s []
  | .revokeSealed _ id others => RowStands first s ∧ Taken s ∧ AutoLeft s [] ∧
      SealedLeft s (id :: others)
  | .markNewAcked _ => RowStands first s ∧ Taken s ∧ AutoLeft s [] ∧ SealedLeft s []
  | .answered _ (.ok _ _) => Done first s
  | .answered _ _ => True
  | .stopped => True
  | _ => False

/-- The session of the run, and what its take-over has left behind so far. -/
structure SessionTakes (s : MoveShared) : Prop where
  session : ∃ now,s.tables.tables.session = some now ∧ now.oldStkPubHex = first.oldStkPubHex ∧
    now.newStkPubHex = first.newStkPubHex
  events : ∀ time auto box,.tookOver time auto box ∈ s.history → Taken s ∧
    (∀ l ∈ auto,l.live time = true) ∧ ∀ l ∈ box,l.live time = true
  taken : Taken s → (∃ time auto box,.tookOver time auto box ∈ s.history) ∧
    first.newStkPubHex.isSome = true ∧ s.tables.tables.identity host = first.newStkPubHex
  confirmed : .confirmed ∈ s.history → Done first s

/-- How a run of take-overs changes what they share. -/
structure TakesOn (s s' : MoveShared) : Prop where
  clock : s.clock ≤ s'.clock
  taken : Taken s → Taken s'
  events : ∀ time auto box,.tookOver time auto box ∈ s'.history →
    .tookOver time auto box ∈ s.history ∨ ¬ Taken s ∧ s.clock ≤ time
  auto : ∀ l ∈ s'.tables.tables.autoLeases,l ∈ s.tables.tables.autoLeases
  box : ∀ l ∈ s'.tables.tables.sealedLeases,l ∈ s.tables.tables.sealedLeases
  row : ∀ row,s.tables.tables.evictions first.oldStkPubHex = some row →
    ∃ row',s'.tables.tables.evictions first.oldStkPubHex = some row' ∧
      (row.newAckedAt.isSome = true → row'.newAckedAt.isSome = true)
  identity : s'.tables.tables.identity host = s.tables.tables.identity host ∨
    s'.tables.tables.identity host = first.newStkPubHex

variable {host first} {s s' : MoveShared}

theorem TakesOn.past (h : TakesOn host first s s') (htaken : Taken s) {time : Int}
    {auto : List AutoUnlockLease} {box : List BoxSealedLease}
    (hevent : .tookOver time auto box ∈ s'.history) : .tookOver time auto box ∈ s.history := by
  rcases h.events time auto box hevent with hpast | ⟨hnot,_⟩
  · exact hpast
  · exact absurd htaken hnot

theorem AutoLeft.on (h : TakesOn host first s s') (htaken : Taken s) {ids : List Text}
    (hleft : AutoLeft s ids) : AutoLeft s' ids :=
  fun time auto box hevent l hl hstill =>
    hleft time auto box (h.past htaken hevent) l hl (h.auto l hstill)

theorem SealedLeft.on (h : TakesOn host first s s') (htaken : Taken s) {ids : List Text}
    (hleft : SealedLeft s ids) : SealedLeft s' ids :=
  fun time auto box hevent l hl hstill =>
    hleft time auto box (h.past htaken hevent) l hl (h.box l hstill)

theorem Precedes.on (h : TakesOn host first s s') {k : TakingOver} (hk : Precedes k s) :
    Precedes k s' := by
  refine ⟨hk.1.trans h.clock,?_⟩
  intro time auto box hevent
  rcases h.events time auto box hevent with hpast | ⟨_,hlate⟩
  · exact hk.2 time auto box hpast
  · exact hk.1.trans hlate

theorem RowStands.on (h : TakesOn host first s s') (hrow : RowStands first s) :
    RowStands first s' := by
  obtain ⟨row,hrow⟩ := hrow
  obtain ⟨row',hrow',_⟩ := h.row row hrow
  exact ⟨row',hrow'⟩

theorem Done.on (h : TakesOn host first s s') (hdone : Done first s) : Done first s' := by
  obtain ⟨row,hrow,hacked⟩ := hdone.acked
  obtain ⟨row',hrow',hkept⟩ := h.row row hrow
  exact ⟨h.taken hdone.taken,hdone.auto.on h hdone.taken,hdone.box.on h hdone.taken,
    row',hrow',hkept hacked⟩

theorem Takes.on (h : TakesOn host first s s') {p : MigrationProgress}
    (hp : Takes host first s p) : Takes host first s' p := by
  cases p with
  | ackSession phase a time => exact ⟨hp.1,hp.2.trans h.clock⟩
  | getEviction k => exact ⟨hp.1,hp.2.on h⟩
  | rebind k deposit => exact ⟨hp.1,hp.2.1.on h,hp.2.2.on h⟩
  | markTakenOver k =>
    obtain ⟨hof,hk,hrow,hid⟩ := hp
    refine ⟨hof,hk.on h,hrow.on h,?_⟩
    rcases h.identity with heq | heq
    · rw [heq,hid]
    · exact heq
  | listAuto k => exact ⟨hp.1.on h,hp.2.1.on h,h.taken hp.2.2⟩
  | revokeAuto k id others =>
    obtain ⟨hk,hrow,htaken,hleft⟩ := hp
    exact ⟨hk.on h,hrow.on h,h.taken htaken,hleft.on h htaken⟩
  | listSealed k =>
    obtain ⟨hk,hrow,htaken,hleft⟩ := hp
    exact ⟨hk.on h,hrow.on h,h.taken htaken,hleft.on h htaken⟩
  | revokeSealed k id others =>
    obtain ⟨hrow,htaken,hauto,hbox⟩ := hp
    exact ⟨hrow.on h,h.taken htaken,hauto.on h htaken,hbox.on h htaken⟩
  | markNewAcked k =>
    obtain ⟨hrow,htaken,hauto,hbox⟩ := hp
    exact ⟨hrow.on h,h.taken htaken,hauto.on h htaken,hbox.on h htaken⟩
  | answered asked answer => cases answer with
    | ok phase recorded => exact Done.on h hp
    | _ => trivial
  | stopped => trivial
  | _ => exact hp.elim

theorem takes_nextAuto {k : TakingOver} (hk : Precedes k s) (hrow : RowStands first s)
    (htaken : Taken s) {ids : List Text} (hleft : AutoLeft s ids) :
    Takes host first s (nextAuto k ids) := by
  cases ids with
  | nil => exact ⟨hk,hrow,htaken,hleft⟩
  | cons id others => exact ⟨hk,hrow,htaken,hleft⟩

theorem takes_nextSealed {k : TakingOver} (hrow : RowStands first s) (htaken : Taken s)
    (hauto : AutoLeft s []) {ids : List Text} (hleft : SealedLeft s ids) :
    Takes host first s (nextSealed k ids) := by
  cases ids with
  | nil => exact ⟨hrow,htaken,hauto,hleft⟩
  | cons id others => exact ⟨hrow,htaken,hauto,hleft⟩

/-- A lease that was live when the phase became taken-over is listed by every
take-over that read its clock before. -/
theorem autoLeft_list {k : TakingOver} (h : SessionTakes host first s) (hk : Precedes k s) :
    AutoLeft s ((AutoUnlockLease.list s.tables.tables.autoLeases k.time).map (·.leaseId)) := by
  intro time auto box hevent l hl hstill
  refine List.mem_map_of_mem ?_
  have hlive := (h.events time auto box hevent).2.1 l hl
  have htime := hk.2 time auto box hevent
  rw [AutoUnlockLease.list,List.mem_insertionSort,List.mem_filter]
  refine ⟨hstill,?_⟩
  rw [AutoUnlockLease.live,decide_eq_true_eq] at hlive ⊢
  exact htime.trans_lt hlive

theorem sealedLeft_list {k : TakingOver} (h : SessionTakes host first s) (hk : Precedes k s) :
    SealedLeft s ((BoxSealedLease.list s.tables.tables.sealedLeases k.time).map (·.leaseId)) := by
  intro time auto box hevent l hl hstill
  refine List.mem_map_of_mem ?_
  have hlive := (h.events time auto box hevent).2.2 l hl
  have htime := hk.2 time auto box hevent
  rw [BoxSealedLease.list,List.mem_insertionSort,List.mem_filter]
  refine ⟨hstill,?_⟩
  rw [BoxSealedLease.live,Bool.and_eq_true,decide_eq_true_eq] at hlive ⊢
  exact ⟨htime.trans_lt hlive.1,hlive.2⟩

/-- What is shared after a call at the control plane. -/
def afterCall (s : MoveShared) (ticks : List Nat) (t' : MigrationTables)
    (events : List MigrationEvent) : MoveShared :=
  s.after ticks { s.tables with tables := t' } events

variable (host first) in
/-- A call that keeps the run of take-overs whole. -/
def GoesWhole (s : MoveShared) (p' : MigrationProgress) (s' : MoveShared) : Prop :=
  SessionTakes host first s' ∧ Takes host first s' p' ∧ TakesOn host first s s'

section
variable {ticks : List Nat} {t' : MigrationTables} {events : List MigrationEvent}

/-- What a call has to keep for the take-overs under way. -/
theorem TakesOn.call (htaken : Taken s → InPhase t' (· = .takenOver))
    (hevents : ∀ time auto box,.tookOver time auto box ∈ events → ¬ Taken s ∧ s.clock ≤ time)
    (hauto : ∀ l ∈ t'.autoLeases,l ∈ s.tables.tables.autoLeases)
    (hbox : ∀ l ∈ t'.sealedLeases,l ∈ s.tables.tables.sealedLeases)
    (hrow : ∀ row,s.tables.tables.evictions first.oldStkPubHex = some row →
      ∃ row',t'.evictions first.oldStkPubHex = some row' ∧
        (row.newAckedAt.isSome = true → row'.newAckedAt.isSome = true))
    (hid : t'.identity host = s.tables.tables.identity host ∨
      t'.identity host = first.newStkPubHex) :
    TakesOn host first s (afterCall s ticks t' events) := by
  refine ⟨?_,htaken,?_,hauto,hbox,hrow,hid⟩
  · simp only [afterCall,Shared.after]
    omega
  · intro time auto box hevent
    rcases List.mem_append.mp hevent with hpast | hnew
    · exact Or.inl hpast
    · exact Or.inr (hevents time auto box hnew)

theorem TakesOn.waits (s : MoveShared) (ticks : List Nat) :
    TakesOn host first s (s.after ticks s.tables []) := by
  refine .call id ?_ (fun _ hl => hl) (fun _ hl => hl) (fun row hrow => ⟨row,hrow,id⟩)
    (Or.inl rfl)
  intro time auto box hevent
  cases hevent

/-- What a call has to leave behind of the session. -/
theorem SessionTakes.call (h : SessionTakes host first s)
    (hon : TakesOn host first s (afterCall s ticks t' events))
    (hsession : ∃ now,t'.session = some now ∧ now.oldStkPubHex = first.oldStkPubHex ∧
      now.newStkPubHex = first.newStkPubHex)
    (hevents : ∀ time auto box,.tookOver time auto box ∈ events →
      InPhase t' (· = .takenOver) ∧ (∀ l ∈ auto,l.live time = true) ∧
        ∀ l ∈ box,l.live time = true)
    (htaken : InPhase t' (· = .takenOver) →
      (Taken s ∨ ∃ time auto box,.tookOver time auto box ∈ events) ∧
        first.newStkPubHex.isSome = true ∧ t'.identity host = first.newStkPubHex)
    (hconfirmed : .confirmed ∈ events → Done first (afterCall s ticks t' events)) :
    SessionTakes host first (afterCall s ticks t' events) := by
  refine ⟨hsession,?_,?_,?_⟩
  · intro time auto box hevent
    rcases List.mem_append.mp hevent with hpast | hnew
    · obtain ⟨hwas,hlive⟩ := h.events time auto box hpast
      exact ⟨hon.taken hwas,hlive⟩
    · exact hevents time auto box hnew
  · intro hnow
    obtain ⟨hwhen,hsome,hid⟩ := htaken hnow
    refine ⟨?_,hsome,hid⟩
    rcases hwhen with hwas | ⟨time,auto,box,hevent⟩
    · obtain ⟨⟨time,auto,box,hevent⟩,_⟩ := h.taken hwas
      exact ⟨time,auto,box,List.mem_append_left _ hevent⟩
    · exact ⟨time,auto,box,List.mem_append_right _ hevent⟩
  · intro hevent
    rcases List.mem_append.mp hevent with hpast | hnew
    · exact (h.confirmed hpast).on hon
    · exact hconfirmed hnew

end

theorem GoesWhole.shrinks (h : SessionTakes host first s) {ticks : List Nat}
    {t' : MigrationTables} {p' : MigrationProgress}
    (hsession : t'.session = s.tables.tables.session)
    (hservers : t'.servers = s.tables.tables.servers)
    (hevictions : t'.evictions = s.tables.tables.evictions)
    (hauto : ∀ l ∈ t'.autoLeases,l ∈ s.tables.tables.autoLeases)
    (hbox : ∀ l ∈ t'.sealedLeases,l ∈ s.tables.tables.sealedLeases)
    (hp : TakesOn host first s (afterCall s ticks t' []) →
      Takes host first (afterCall s ticks t' []) p') :
    GoesWhole host first s p' (afterCall s ticks t' []) := by
  have hid : t'.identity host = s.tables.tables.identity host := by
    rw [MigrationTables.identity,hservers,MigrationTables.identity]
  have htaken : InPhase t' (· = .takenOver) ↔ Taken s := by
    rw [InPhase,hsession,Taken,InPhase]
  have hon : TakesOn host first s (afterCall s ticks t' []) := by
    refine .call htaken.mpr ?_ hauto hbox ?_ (Or.inl hid)
    · intro time auto box hevent
      cases hevent
    · intro row hrow
      exact ⟨row,(congrFun hevictions _).trans hrow,id⟩
  refine ⟨h.call hon ?_ ?_ ?_ ?_,hp hon,hon⟩
  · rw [hsession]
    exact h.session
  · intro time auto box hevent
    cases hevent
  · intro hnow
    rw [hid]
    exact ⟨Or.inl (htaken.mp hnow),(h.taken (htaken.mp hnow)).2⟩
  · intro hevent
    cases hevent

theorem GoesWhole.read (h : SessionTakes host first s) {ticks : List Nat} {p' : MigrationProgress}
    (hp : Takes host first s p') :
    GoesWhole host first s p' (afterCall s ticks s.tables.tables []) :=
  GoesWhole.shrinks h rfl rfl rfl (fun _ hl => hl) (fun _ hl => hl) fun hon => hp.on hon

theorem takes_refused {p : MigrationProgress} (h : refused p = true) : Takes host first s p := by
  cases p with
  | answered asked answer => cases answer with
    | ok phase recorded => cases h
    | _ => trivial
  | _ => cases h

theorem RefusedOr.takes {p : MigrationProgress} {goesOn : MigrationProgress → Prop}
    (h : RefusedOr p goesOn) (hgoes : ∀ p',goesOn p' → Takes host first s p') :
    Takes host first s p := by
  rcases h with hrefused | hon
  · exact takes_refused hrefused
  · exact hgoes p hon

theorem takes_checkBarrier {k : TakingOver} (hof : OfSession first k) (hk : Precedes k s) :
    Takes host first s (checkBarrier k s.tables.tables) := by
  apply (checkBarrier_spec k s.tables.tables).takes
  rintro _ ⟨row,hrow,_,rfl⟩
  rw [hof.1] at hrow
  exact ⟨hof,hk,row,hrow⟩

/-- The name goes to the attached box. -/
theorem rebind_whole (h : SessionTakes host first s) {k : TakingOver} {deposit : Nat}
    (hp : Takes host first s (.rebind k deposit)) (ticks : List Nat) {t' : MigrationTables}
    (ht : t' = { s.tables.tables with
      servers := s.tables.tables.servers.put host k.session.username k.newStkPubHex k.time })
    {event : MigrationEvent} (hevent : ∃ n stored,
      event = .rebound k.session.oldStkPubHex k.newStkPubHex n stored) :
    GoesWhole host first s (.markTakenOver k) (afterCall s ticks t' [event]) := by
  obtain ⟨hof,hk,hrow⟩ := hp
  obtain ⟨n,stored,rfl⟩ := hevent
  have hid : t'.identity host = first.newStkPubHex := by
    rw [ht]
    simp only [MigrationTables.identity,Directory.put,Function.update_self,Option.map_some,hof.2]
  have hsession : t'.session = s.tables.tables.session := by rw [ht]
  have htaken : InPhase t' (· = .takenOver) ↔ Taken s := by
    rw [InPhase,hsession,Taken,InPhase]
  have hon : TakesOn host first s (afterCall s ticks t'
      [.rebound k.session.oldStkPubHex k.newStkPubHex n stored]) := by
    refine .call htaken.mpr ?_ ?_ ?_ ?_ (Or.inr hid)
    · intro time auto box hevent
      cases List.mem_singleton.mp hevent
    · rw [ht]
      exact fun _ hl => hl
    · rw [ht]
      exact fun _ hl => hl
    · rw [ht]
      exact fun row hrow => ⟨row,hrow,id⟩
  refine ⟨h.call hon ?_ ?_ ?_ ?_,⟨hof,hk.on hon,hrow.on hon,hid⟩,hon⟩
  · rw [hsession]
    exact h.session
  · intro time auto box hevent
    cases List.mem_singleton.mp hevent
  · intro hnow
    exact ⟨Or.inl (htaken.mp hnow),(h.taken (htaken.mp hnow)).2.1,hid⟩
  · intro hevent
    cases List.mem_singleton.mp hevent

/-- The event of a stamp, which is the first that makes the phase taken-over. -/
theorem mem_takesOver {t : MigrationTables} {now time : Int} {auto : List AutoUnlockLease}
    {box : List BoxSealedLease} :
    .tookOver time auto box ∈ t.takesOver now ↔ InPhase t (· ≠ .takenOver) ∧ time = now ∧
      auto = t.autoLeases.filter (·.live now) ∧ box = t.sealedLeases.filter (·.live now) := by
  rw [MigrationTables.takesOver]
  cases hsession : t.session with
  | none =>
    refine ⟨fun h => absurd h List.not_mem_nil,?_⟩
    rintro ⟨⟨session,hs,_⟩,_⟩
    rw [hsession] at hs
    cases hs
  | some session =>
    simp only
    by_cases hphase : session.phase = .takenOver
    · rw [if_pos hphase]
      refine ⟨fun h => absurd h List.not_mem_nil,?_⟩
      rintro ⟨⟨session',hs,hnot⟩,_⟩
      cases hsession.symm.trans hs
      exact absurd hphase hnot
    · rw [if_neg hphase,List.mem_singleton,MigrationEvent.tookOver.injEq]
      exact ⟨fun h => ⟨⟨session,hsession,hphase⟩,h⟩,And.right⟩

theorem confirmed_notMem_takesOver (t : MigrationTables) (now : Int) :
    .confirmed ∉ t.takesOver now := by
  rw [MigrationTables.takesOver]
  cases t.session with
  | none => exact List.not_mem_nil
  | some session =>
    simp only
    split_ifs
    · exact List.not_mem_nil
    · intro h
      cases List.mem_singleton.mp h

/-- The phase becomes taken-over, with the name at the attached box. -/
theorem stamp_whole (h : SessionTakes host first s) {k : TakingOver}
    (hp : Takes host first s (.markTakenOver k)) (ticks : List Nat) {now : Int}
    (hnow : s.clock ≤ now) :
    GoesWhole host first s (.listAuto k) (afterCall s ticks
      (s.tables.tables.stamp (·.markTakenOver k.time)) (s.tables.tables.takesOver now)) := by
  obtain ⟨hof,hk,hrow,hid⟩ := hp
  obtain ⟨session,hsession,hold,hnew⟩ := h.session
  have hsession' : (s.tables.tables.stamp (·.markTakenOver k.time)).session =
      some (session.markTakenOver k.time) := by
    rw [MigrationTables.stamp,hsession,Option.map_some]
  have htaken' : InPhase (s.tables.tables.stamp (·.markTakenOver k.time)) (· = .takenOver) :=
    ⟨_,hsession',rfl⟩
  have hnot : InPhase s.tables.tables (· ≠ .takenOver) → ¬ Taken s := by
    rintro ⟨session₁,hs₁,hphase⟩ ⟨session₂,hs₂,htaken⟩
    cases hs₁.symm.trans hs₂
    exact hphase htaken
  have hon : TakesOn host first s (afterCall s ticks
      (s.tables.tables.stamp (·.markTakenOver k.time)) (s.tables.tables.takesOver now)) := by
    refine .call (fun _ => htaken') ?_ (fun _ hl => hl) (fun _ hl => hl)
      (fun row hrow => ⟨row,hrow,id⟩) (Or.inl rfl)
    intro time auto box hevent
    obtain ⟨hphase,rfl,_⟩ := mem_takesOver.mp hevent
    exact ⟨hnot hphase,hnow⟩
  refine ⟨h.call hon ⟨_,hsession',hold,hnew⟩ ?_ ?_ ?_,⟨hk.on hon,hrow.on hon,htaken'⟩,hon⟩
  · intro time auto box hevent
    obtain ⟨_,rfl,rfl,rfl⟩ := mem_takesOver.mp hevent
    exact ⟨htaken',fun l hl => (List.mem_filter.mp hl).2,fun l hl => (List.mem_filter.mp hl).2⟩
  · intro _
    have hsome : first.newStkPubHex.isSome = true := by
      rw [hof.2]
      rfl
    refine ⟨?_,hsome,hid⟩
    by_cases hphase : session.phase = .takenOver
    · exact Or.inl ⟨session,hsession,hphase⟩
    · exact Or.inr ⟨now,_,_,mem_takesOver.mpr ⟨⟨session,hsession,hphase⟩,rfl,rfl,rfl⟩⟩
  · intro hevent
    exact absurd hevent (confirmed_notMem_takesOver _ _)

/-- The last call: the successor is confirmed on every row. -/
theorem confirm_whole (h : SessionTakes host first s) {k : TakingOver}
    (hp : Takes host first s (.markNewAcked k)) (ticks : List Nat) :
    GoesWhole host first s (.answered (.ack .takeOver) (.ok (some .takenOver) false))
      (afterCall s ticks (s.tables.tables.markNewAcked k.time) [.confirmed]) := by
  obtain ⟨⟨row,hrow⟩,htaken,hauto,hbox⟩ := hp
  have hrows : ∀ row,s.tables.tables.evictions first.oldStkPubHex = some row →
      (s.tables.tables.markNewAcked k.time).evictions first.oldStkPubHex =
        some { row with newAckedAt := some k.time } := by
    intro row hrow
    simp only [MigrationTables.markNewAcked,hrow,Option.map_some]
  have hon : TakesOn host first s
      (afterCall s ticks (s.tables.tables.markNewAcked k.time) [.confirmed]) := by
    refine .call id ?_ (fun _ hl => hl) (fun _ hl => hl)
      (fun row hrow => ⟨_,hrows row hrow,fun _ => rfl⟩) (Or.inl rfl)
    intro time auto box hevent
    cases List.mem_singleton.mp hevent
  have hdone : Done first
      (afterCall s ticks (s.tables.tables.markNewAcked k.time) [.confirmed]) :=
    ⟨hon.taken htaken,hauto.on hon htaken,hbox.on hon htaken,_,hrows row hrow,rfl⟩
  refine ⟨h.call hon h.session ?_ (fun _ => ⟨Or.inl htaken,(h.taken htaken).2⟩) fun _ => hdone,
    hdone,hon⟩
  intro time auto box hevent
  cases List.mem_singleton.mp hevent

/-- A lease that is left once the first listed is revoked is one of the others. -/
theorem left_of_revoked {α : Type} {leases : List α} {leaseId : α → Text} {id : Text}
    {others : List Text} {l : α} (hleft : leaseId l ∈ id :: others)
    (hstill : l ∈ leases.filter (leaseId · != id)) : leaseId l ∈ others := by
  have hother := (List.mem_filter.mp hstill).2
  rcases List.mem_cons.mp hleft with heq | hmem
  · rw [heq,bne_self_eq_false] at hother
    cases hother
  · exact hmem

variable [Lowercase]

/-- A take-over that is answered as recorded already is one that is done. -/
theorem takes_checkAck (h : SessionTakes host first s) {a : AckFields} {time : Int}
    (htime : time ≤ s.clock) (outside : MigrationElsewhere)
    (hrepeats : repeatsTakeOver outside a s.tables.tables = true → .confirmed ∈ s.history) :
    Takes host first s (checkAck outside .takeOver a time s.tables.tables.session) := by
  apply (checkAck_spec outside .takeOver a time s.tables.tables.session).takes
  rintro p ⟨session,newStkPubHex,hsession,hbox,hsame,hauthorized,hgoes⟩
  cases hgoes with
  | taken htaken =>
    refine h.confirmed (hrepeats ?_)
    rw [repeatsTakeOver,hauthorized,hsession,Option.any_some,htaken,hbox,hsame]
    simp
  | takes hfreezing =>
    obtain ⟨now,hnow,hold,hnew⟩ := h.session
    cases hsession.symm.trans hnow
    refine ⟨⟨hold,hnew.symm.trans hbox⟩,htime,?_⟩
    intro t auto box hevent
    obtain ⟨⟨session',hs',htaken⟩,_⟩ := h.events t auto box hevent
    cases hsession.symm.trans hs'
    rw [hfreezing] at htaken
    cases htaken

theorem call_whole (h : SessionTakes host first s) {p : MigrationProgress}
    (hp : Takes host first s p) (ticks : List Nat) {now : Nat → Int} (hnow : s.clock ≤ now 0)
    (outside : MigrationElsewhere)
    (hrepeats : ∀ phase a time,p = .ackSession phase a time →
      repeatsTakeOver outside a s.tables.tables = true → .confirmed ∈ s.history) :
    GoesWhole host first s (p.call host now outside s.tables.tables).1
      (afterCall s ticks (p.call host now outside s.tables.tables).2.1
        (p.call host now outside s.tables.tables).2.2) := by
  cases p with
  | ackSession phase a time =>
    obtain ⟨rfl,htime⟩ := hp
    exact .read h (takes_checkAck h htime outside (hrepeats .takeOver a time rfl))
  | getEviction k => exact .read h (takes_checkBarrier hp.1 hp.2)
  | rebind k deposit => exact rebind_whole h hp ticks rfl ⟨_,_,rfl⟩
  | markTakenOver k => exact stamp_whole h hp ticks hnow
  | listAuto k =>
    obtain ⟨hk,hrow,htaken⟩ := hp
    exact .read h (takes_nextAuto hk hrow htaken (autoLeft_list h hk))
  | revokeAuto k id others =>
    obtain ⟨hk,hrow,htaken,hleft⟩ := hp
    refine .shrinks h rfl rfl rfl (fun l hl => (List.mem_filter.mp hl).1) (fun _ hl => hl) ?_
    intro hon
    refine takes_nextAuto (hk.on hon) (hrow.on hon) (hon.taken htaken) ?_
    intro time auto box hevent l hl hstill
    exact left_of_revoked (hleft.on hon htaken time auto box hevent l hl hstill) hstill
  | listSealed k =>
    obtain ⟨hk,hrow,htaken,hauto⟩ := hp
    exact .read h (takes_nextSealed hrow htaken hauto (sealedLeft_list h hk))
  | revokeSealed k id others =>
    obtain ⟨hrow,htaken,hauto,hleft⟩ := hp
    refine .shrinks h rfl rfl rfl (fun _ hl => hl) (fun l hl => (List.mem_filter.mp hl).1) ?_
    intro hon
    refine takes_nextSealed (hrow.on hon) (hon.taken htaken) (hauto.on hon htaken) ?_
    intro time auto box hevent l hl hstill
    exact left_of_revoked (hleft.on hon htaken time auto box hevent l hl hstill) hstill
  | markNewAcked k => exact confirm_whole h hp ticks
  | answered asked answer => exact .read h hp
  | stopped => exact .read h trivial
  | _ => exact hp.elim

variable (host first) in
def PartyTakes (s : MoveShared) : Party → Prop
  | .control p => Takes host first s p
  | _ => False

omit [Lowercase] in
theorem PartyTakes.on (h : TakesOn host first s s') {party : Party}
    (hp : PartyTakes host first s party) : PartyTakes host first s' party := by
  cases party with
  | control p => exact Takes.on h hp
  | _ => exact hp

variable (host first) in
/-- What holds along a run of take-overs. -/
def TakesHeld (w : MigrationState) : Prop :=
  SessionTakes host first w.shared ∧ ∀ party ∈ w.requests,PartyTakes host first w.shared party

theorem takes_startAck {now : Nat → Int} (hnow : now 0 ≤ s.clock) (body : Option AckFields) :
    Takes host first s (startAck host now .takeOver body) := by
  apply (startAck_spec host now .takeOver body).takes
  rintro _ ⟨a,rfl⟩
  exact ⟨rfl,hnow⟩

theorem takes_broken {w : MigrationState} {i : Nat} {p : MigrationProgress} {ticks : List Nat}
    {outside : MigrationElsewhere} (hi : w.requests[i]? = some (.control p))
    (hc : takesOverWhole w (.resume i ticks outside) = true) (hgoes : outside.outcome ≠ .goes)
    (hp : Takes host first w.shared p) :
    Takes host first w.shared (p.broken outside.outcome) := by
  cases houtcome : outside.outcome with
  | goes => exact absurd houtcome hgoes
  | fails => cases p with
    | listAuto k => simp [takesOverWhole,hi,houtcome] at hc
    | revokeAuto k id others => simp [takesOverWhole,hi,houtcome] at hc
    | listSealed k => simp [takesOverWhole,hi,houtcome] at hc
    | revokeSealed k id others => simp [takesOverWhole,hi,houtcome] at hc
    | answered asked answer => exact hp
    | deleteEviction oldStk => exact hp.elim
    | _ => trivial
  | stops => cases p with
    | answered asked answer => exact hp
    | _ => trivial

theorem advance_whole {w : MigrationState} (hw : SessionTakes host first w.shared) {i : Nat}
    {p : MigrationProgress} (hi : w.requests[i]? = some (.control p))
    (hp : Takes host first w.shared p) {ticks : List Nat} {outside : MigrationElsewhere}
    (hc : takesOverWhole w (.resume i ticks outside) = true) :
    GoesWhole host first w.shared
      (p.advance host (reading w.shared.clock ticks) outside w.shared.tables.tables).1
      (afterCall w.shared ticks
        (p.advance host (reading w.shared.clock ticks) outside w.shared.tables.tables).2.1
        (p.advance host (reading w.shared.clock ticks) outside w.shared.tables.tables).2.2) := by
  rw [MigrationProgress.advance]
  cases houtcome : outside.outcome with
  | goes =>
    refine call_whole hw hp ticks (clock_le_reading _ ticks 0) outside ?_
    rintro phase a time rfl hrepeats
    simpa [takesOverWhole,hi,houtcome,hrepeats] using hc
  | fails =>
    have hbroken := takes_broken hi hc (by rw [houtcome]; decide) hp
    rw [houtcome] at hbroken
    exact .read hw hbroken
  | stops =>
    have hbroken := takes_broken hi hc (by rw [houtcome]; decide) hp
    rw [houtcome] at hbroken
    exact .read hw hbroken

theorem step_whole {w : MigrationState} (hw : TakesHeld host first w)
    (move : Move MigrationRequest MigrationElsewhere) (hc : takesOverWhole w move = true) :
    TakesHeld host first ((migrationHandlers host).step w move) := by
  refine (migrationHandlers host).step_holds (J := SessionTakes host first)
    (A := fun party s => PartyTakes host first s party)
    (fun w move => takesOverWhole w move = true) ?_ ?_ ?_ ?_ w move hw hc
  · intro s ticks hsession
    have hwaits : GoesWhole host first s .stopped (s.after ticks s.tables []) :=
      .read hsession trivial
    rw [Shared.later_eq]
    exact hwaits.1
  · intro party s ticks hparty
    rw [Shared.later_eq]
    exact hparty.on (TakesOn.waits s ticks)
  · intro w request ticks outside hc _
    cases request with
    | ack phase body => cases phase with
      | preSeeded => cases hc
      | takeOver => exact takes_startAck (reading_le _ ticks 0) body
    | _ => cases hc
  · intro w i party ticks outside party' world' events hi hc hsession hparty hadv
    cases party with
    | control p =>
      obtain ⟨hsession',hparty',hon⟩ := advance_whole hsession hi hparty hc
      have hadv' : (Party.control p).advance host (reading w.shared.clock ticks) outside
        w.shared.tables = (party',world',events) := hadv
      simp only [Party.advance,Prod.mk.injEq] at hadv'
      obtain ⟨rfl,rfl,rfl⟩ := hadv'
      exact ⟨hsession',hparty',fun q _ hq => hq.on hon⟩
    | oldBox b => exact hparty.elim
    | inFlight k => exact hparty.elim

variable (host) in
/-- In every run of take-overs of one session in which no report is taken for a
repeated one before a request has confirmed the successor: once a take-over is
answered ok the name is at the attached box, the leases there were are revoked,
and the successor is confirmed to the old box. -/
theorem take_over_survives_crash {world : MigrationWorld} {session : ServerMigrationRecord}
    (hs : world.tables.session = some session) (hphase : session.phase ≠ .takenOver) (clock : Int)
    (moves : List (Move MigrationRequest MigrationElsewhere))
    (h : Along (migrationHandlers host).step (fun w move => takesOverWhole w move = true)
      (MigrationState.idle world clock) moves)
    (hok : answeredOk (run (migrationHandlers host).step (MigrationState.idle world clock) moves)
      (.ack .takeOver)) :
    TookOverWhole host
      (run (migrationHandlers host).step (MigrationState.idle world clock) moves) := by
  have hstart : TakesHeld host session (MigrationState.idle world clock) := by
    refine ⟨⟨⟨session,hs,rfl,rfl⟩,?_,?_,?_⟩,?_⟩
    · intro time auto box hevent
      cases hevent
    · rintro ⟨session',hs',htaken⟩
      cases hs.symm.trans hs'
      exact absurd htaken hphase
    · intro hconfirmed
      cases hconfirmed
    · intro party hparty
      cases hparty
  have hend := Along.invariant (I := TakesHeld host session)
    (fun w move hw hc => step_whole hw move hc) hstart h
  generalize run (migrationHandlers host).step (MigrationState.idle world clock) moves = w
    at hend hok
  obtain ⟨hsession,hparties⟩ := hend
  obtain ⟨phase,recorded,hmem⟩ := hok
  have hdone : Done session w.shared := hparties _ hmem
  obtain ⟨now,hnow,hold,hnew⟩ := hsession.session
  obtain ⟨hevent,hsome,hid⟩ := hsession.taken hdone.taken
  refine ⟨⟨now,hnow,?_,?_⟩,hevent,?_,?_⟩
  · rw [hnew]
    exact hsome
  · rw [hnew]
    exact hid
  · intro time auto box hevent
    refine ⟨?_,?_⟩
    · intro l hl hstill
      exact absurd (hdone.auto time auto box hevent l hl hstill) List.not_mem_nil
    · intro l hl hstill
      exact absurd (hdone.box time auto box hevent l hl hstill) List.not_mem_nil
  · obtain ⟨row,hrow,hacked⟩ := hdone.acked
    refine ⟨now,row,hnow,?_,hacked⟩
    rw [hold]
    exact hrow

end

/-- The new box asks again after its take-over. -/
def tookOverTwice : List (Move MigrationRequest MigrationElsewhere) :=
  tookOver ++ takesOver :: callsOf 1 1

theorem take_over_survives_crash_repeated :
    (.tookOver 0 [⟨keyOf '3',0,100⟩] [⟨keyOf '4',0,100,none,0⟩] ∈
        (fromFreeze tookOverTwice).shared.history) ∧
      TookOverWhole boxName (fromFreeze tookOverTwice) := by
  have halong : Along (@migrationHandlers asciiLowercase boxName).step
      (fun w move => @takesOverWhole asciiLowercase w move = true)
      (MigrationState.idle (movingBox (sessionIn .freezing) (some reported)) 0) tookOverTwice := by
    decide +kernel
  refine ⟨by decide +kernel,?_⟩
  exact @take_over_survives_crash boxName asciiLowercase _ (sessionIn .freezing) rfl
    Phase.noConfusion 0 tookOverTwice halong ⟨some .takenOver,true,by decide +kernel⟩

/-- A take-over stops once it has stamped the phase, and the new box asks again. -/
def crashedAndRepeated : List (Move MigrationRequest MigrationElsewhere) :=
  takesOver :: callsOf 0 4 ++ .resume 0 [] ⟨.stops,none,false,false,false⟩ :: takesOver ::
    callsOf 1 1

/-- The second request is answered ok, with the leases there and the successor not
confirmed. -/
theorem crashed_take_over_half_done :
    answeredOk (fromFreeze crashedAndRepeated) (.ack .takeOver) ∧
      ¬ TookOverWhole boxName (fromFreeze crashedAndRepeated) := by
  refine ⟨⟨some .takenOver,true,by decide +kernel⟩,?_⟩
  intro h
  obtain ⟨hauto,_⟩ := h.revoked 0 [⟨keyOf '3',0,100⟩] [⟨keyOf '4',0,100,none,0⟩] (by decide +kernel)
  refine hauto ⟨keyOf '3',0,100⟩ (List.mem_singleton_self _) ?_
  decide +kernel

end Flagship.Migration.Proofs

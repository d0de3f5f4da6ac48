import Flagship.Migration.Proofs.Handlers

namespace Flagship.Migration.Proofs
open Lib Control

theorem onward_trans {a b c : Phase} (hab : a.Onward b) (hbc : b.Onward c) : a.Onward c := by
  rcases hab with rfl | hab
  · exact hbc
  · rcases hbc with rfl | hbc
    · exact Or.inr hab
    · exact Or.inr (hab.trans hbc)

/-- The first phase is not come back to. -/
theorem onward_ne_initiated {a b : Phase} (h : a.Onward b) (ha : a ≠ .initiated) :
    b ≠ .initiated := by
  rcases h with rfl | h
  · exact ha
  · rintro rfl
    exact absurd h (Nat.not_lt_zero _)

/-- A phase that ends the move is the last. -/
theorem onward_last {a b : Phase} (h : a.Onward b) (ha : a.active = false) : b = a := by
  rcases h with rfl | h
  · rfl
  · cases a <;> cases ha <;> cases b <;> exact absurd h (by decide)

section
variable (host : Text)

/-- The session is in a phase for which this holds. -/
def InPhase (t : MigrationTables) (P : Phase → Prop) : Prop :=
  ∃ s,t.session = some s ∧ P s.phase

/-- The session is attached to the box a take-over comes from. -/
def Attached (t : MigrationTables) (k : TakingOver) : Prop :=
  ∃ s,t.session = some s ∧ s.phase ≠ .initiated ∧ s.newStkPubHex = some k.newStkPubHex

/-- What holds once a request by this route is answered ok. -/
def OkStands (t : MigrationTables) : Asked → Prop
  | .ack .takeOver => InPhase t (· = .takenOver)
  | .control .abort => InPhase t (· = .aborted)
  | .attach => InPhase t (· ≠ .initiated)
  | _ => True

/-- What holds at the call a request stands before. -/
def Stands (t : MigrationTables) : MigrationProgress → Prop
  | .startServer _ _ _ => False
  | .startSession _ _ _ => False
  | .putSession _ => False
  | .attachServer _ s _ => s.phase ≠ .initiated → InPhase t (· ≠ .initiated)
  | .getEviction k => Attached t k
  | .rebind k _ => Attached t k
  | .markTakenOver k => Attached t k ∧ t.identity host = some k.newStkPubHex
  | .listAuto _ => InPhase t (· = .takenOver)
  | .revokeAuto _ _ _ => InPhase t (· = .takenOver)
  | .listSealed _ => InPhase t (· = .takenOver)
  | .revokeSealed _ _ _ => InPhase t (· = .takenOver)
  | .markNewAcked _ => InPhase t (· = .takenOver)
  | .deleteEviction _ => InPhase t (· = .aborted)
  | .answered asked (.ok _ _) => OkStands t asked
  | _ => True

/-- The session goes on, with the box it is attached to. -/
def SessionOnward (t t' : MigrationTables) : Prop :=
  ∀ s,t.session = some s → ∃ s',t'.session = some s' ∧ s.phase.Onward s'.phase ∧
    s'.oldStkPubHex = s.oldStkPubHex ∧ (s.phase ≠ .initiated → s'.attached = s.attached)

theorem SessionOnward.refl (t : MigrationTables) : SessionOnward t t :=
  fun s hs => ⟨s,hs,Or.inl rfl,rfl,fun _ => rfl⟩

theorem SessionOnward.trans {a b c : MigrationTables} (hab : SessionOnward a b)
    (hbc : SessionOnward b c) : SessionOnward a c := by
  intro s hs
  obtain ⟨s',hs',honward,hold,hattached⟩ := hab s hs
  obtain ⟨s'',hs'',honward',hold',hattached'⟩ := hbc s' hs'
  refine ⟨s'',hs'',onward_trans honward honward',hold'.trans hold,?_⟩
  intro hphase
  exact (hattached' (onward_ne_initiated honward hphase)).trans (hattached hphase)

/-- How a call may change the tables. -/
structure TablesOnward (t t' : MigrationTables) : Prop where
  session : SessionOnward t t'
  identity : t'.identity host = t.identity host ∨
    ∃ s,t.session = some s ∧ t'.identity host = s.newStkPubHex

variable {host}

theorem TablesOnward.of_eq {t t' : MigrationTables} (hs : t'.session = t.session)
    (hd : t'.servers = t.servers) : TablesOnward host t t' := by
  refine ⟨fun s hsome => ⟨s,hs.trans hsome,Or.inl rfl,rfl,fun _ => rfl⟩,Or.inl ?_⟩
  rw [MigrationTables.identity,hd,MigrationTables.identity]

theorem InPhase.onward {t t' : MigrationTables} {P : Phase → Prop}
    (hP : ∀ a b,P a → a.Onward b → P b) (hon : TablesOnward host t t') (h : InPhase t P) :
    InPhase t' P := by
  obtain ⟨s,hs,hphase⟩ := h
  obtain ⟨s',hs',honward,_,_⟩ := hon.session s hs
  exact ⟨s',hs',hP _ _ hphase honward⟩

theorem Attached.onward {t t' : MigrationTables} {k : TakingOver} (hon : TablesOnward host t t')
    (h : Attached t k) : Attached t' k := by
  obtain ⟨s,hs,hphase,hnew⟩ := h
  obtain ⟨s',hs',honward,_,hattached⟩ := hon.session s hs
  refine ⟨s',hs',onward_ne_initiated honward hphase,?_⟩
  have hsame := congrArg Prod.snd (hattached hphase)
  exact hsame.trans hnew

theorem takenOver_last {a b : Phase} (ha : a = .takenOver) (h : a.Onward b) : b = .takenOver := by
  subst ha
  exact onward_last h rfl

theorem aborted_last {a b : Phase} (ha : a = .aborted) (h : a.Onward b) : b = .aborted := by
  subst ha
  exact onward_last h rfl

theorem Stands.onward {t t' : MigrationTables} {p : MigrationProgress}
    (hon : TablesOnward host t t') (h : Stands host t p) : Stands host t' p := by
  have htaken : InPhase t (· = .takenOver) → InPhase t' (· = .takenOver) :=
    InPhase.onward (fun _ _ => takenOver_last) hon
  have haborted : InPhase t (· = .aborted) → InPhase t' (· = .aborted) :=
    InPhase.onward (fun _ _ => aborted_last) hon
  have hbegun : InPhase t (· ≠ .initiated) → InPhase t' (· ≠ .initiated) :=
    InPhase.onward (fun _ _ ha hab => onward_ne_initiated hab ha) hon
  cases p with
  | attachServer a s time => exact fun hs => hbegun (h hs)
  | getEviction k => exact Attached.onward hon h
  | rebind k deposit => exact Attached.onward hon h
  | markTakenOver k =>
    obtain ⟨hattached,hid⟩ := h
    refine ⟨hattached.onward hon,?_⟩
    rcases hon.identity with heq | ⟨s,hs,heq⟩
    · rw [heq,hid]
    · obtain ⟨s',hs',_,hnew⟩ := hattached
      rw [hs,Option.some.injEq] at hs'
      rw [heq,hs',hnew]
  | listAuto k => exact htaken h
  | revokeAuto k id others => exact htaken h
  | listSealed k => exact htaken h
  | revokeSealed k id others => exact htaken h
  | markNewAcked k => exact htaken h
  | deleteEviction oldStk => exact haborted h
  | answered asked answer => cases answer with
    | ok phase recorded => cases asked with
      | ack phase => cases phase with
        | preSeeded => trivial
        | takeOver => exact htaken h
      | control action => cases action with
        | confirmReady => trivial
        | abort => exact haborted h
      | attach => exact hbegun h
      | _ => trivial
    | _ => trivial
  | startServer body username time => exact h
  | startSession body username time => exact h
  | putSession rec => exact h
  | _ => trivial

theorem stands_refused {t : MigrationTables} {p : MigrationProgress} (h : refused p = true) :
    Stands host t p := by
  cases p with
  | answered asked answer => cases answer with
    | ok phase recorded => cases h
    | _ => trivial
  | _ => cases h

/-- A check may refuse, so where it goes on is all that is asked of it. -/
theorem RefusedOr.stands {t : MigrationTables} {p : MigrationProgress}
    {goesOn : MigrationProgress → Prop} (h : RefusedOr p goesOn)
    (hgoes : ∀ p',goesOn p' → Stands host t p') : Stands host t p := by
  rcases h with hrefused | hon
  · exact stands_refused hrefused
  · exact hgoes p hon

theorem stands_checkPhase {t : MigrationTables} (action : ControlAction) (time : Int) :
    Stands host t (checkPhase action time t.session) := by
  apply (checkPhase_spec action time t.session).stands
  intro p hgoes
  cases hgoes with
  | aborted s hs haborted => exact ⟨s,hs,haborted⟩
  | _ => trivial

theorem stands_checkBarrier {t : MigrationTables} {k : TakingOver} (h : Attached t k) :
    Stands host t (checkBarrier k t) := by
  apply (checkBarrier_spec k t).stands
  rintro _ ⟨ev,_,_,rfl⟩
  exact h

theorem stands_nextAuto {t : MigrationTables} (h : InPhase t (· = .takenOver)) (k : TakingOver)
    (ids : List Text) : Stands host t (nextAuto k ids) := by
  cases ids with
  | nil => exact h
  | cons id others => exact h

theorem stands_nextSealed {t : MigrationTables} (h : InPhase t (· = .takenOver)) (k : TakingOver)
    (ids : List Text) : Stands host t (nextSealed k ids) := by
  cases ids with
  | nil => exact h
  | cons id others => exact h

theorem stands_afterDeposit {t : MigrationTables} (freeze : Option Phase) (time : Int) :
    Stands host t (afterDeposit freeze time) := by
  cases freeze with
  | none => trivial
  | some phase =>
    simp only [afterDeposit]
    split_ifs <;> trivial

theorem stands_markAnswer {t : MigrationTables} (asked : Asked) (h : OkStands t asked)
    (row : Option ServerEvictionRecord) : Stands host t (markAnswer asked row) := by
  apply (markAnswer_spec asked row).stands
  rintro _ rfl
  exact h

theorem stands_broken {t : MigrationTables} {p : MigrationProgress} (h : Stands host t p)
    (outcome : Outcome) : Stands host t (p.broken outcome) := by
  cases outcome with
  | fails => cases p with
    | listAuto k => exact h
    | revokeAuto k id others => exact stands_nextAuto h k others
    | listSealed k => exact h
    | revokeSealed k id others => exact stands_nextSealed h k others
    | deleteEviction oldStk => exact h
    | answered asked answer => exact h
    | _ => trivial
  | _ => cases p with
    | answered asked answer => exact h
    | _ => trivial

variable [Lowercase]

variable (host) in
/-- A session that has ended has left the name at the right box. -/
structure SessionFits (t : MigrationTables) : Prop where
  session : ∃ s,t.session = some s
  aborted : ∀ s,t.session = some s → s.phase = .aborted →
    (t.identity host).map toLowercase = some s.oldStkPubHex
  takenOver : ∀ s,t.session = some s → s.phase = .takenOver →
    s.newStkPubHex.isSome = true ∧ t.identity host = s.newStkPubHex

theorem SessionFits.of_eq {t t' : MigrationTables} (h : SessionFits host t)
    (hs : t'.session = t.session) (hd : t'.servers = t.servers) : SessionFits host t' := by
  have hid : t'.identity host = t.identity host := by
    rw [MigrationTables.identity,hd,MigrationTables.identity]
  refine ⟨?_,?_,?_⟩
  · rw [hs]
    exact h.session
  · rw [hs,hid]
    exact h.aborted
  · rw [hs,hid]
    exact h.takenOver

theorem stands_startAttach {t : MigrationTables} (now : Nat → Int) (body : Option AttachFields) :
    Stands host t (startAttach host now body) := by
  apply (startAttach_spec host now body).stands
  rintro _ ⟨a,rfl⟩
  trivial

theorem stands_startAck {t : MigrationTables} (now : Nat → Int) (phase : AckPhase)
    (body : Option AckFields) : Stands host t (startAck host now phase body) := by
  apply (startAck_spec host now phase body).stands
  rintro _ ⟨a,rfl⟩
  trivial

theorem stands_startMark {t : MigrationTables} (asked : Asked) {mark : Text → MigrationProgress}
    (hmark : ∀ stk,Stands host t (mark stk)) (stk : Option Text) :
    Stands host t (startMark asked mark stk) := by
  apply (startMark_spec asked mark stk).stands
  rintro _ ⟨stk',rfl⟩
  exact hmark stk'

theorem stands_checkAttachable {t : MigrationTables} (a : AttachFields) (time : Int) :
    Stands host t (checkAttachable host a time t.session) := by
  apply (checkAttachable_spec host a time t.session).stands
  rintro _ ⟨s,hs,rfl⟩ hphase
  exact ⟨s,hs,hphase⟩

theorem stands_checkAttach {t : MigrationTables} (outside : MigrationElsewhere) (a : AttachFields)
    {s : ServerMigrationRecord} (h : s.phase ≠ .initiated → InPhase t (· ≠ .initiated))
    (time : Int) (newReg : Option ServerRecord) :
    Stands host t (checkAttach outside a s time newReg) := by
  apply (checkAttach_spec outside a s time newReg).stands
  rintro _ (⟨hphase,rfl⟩ | rfl)
  · exact h hphase
  · trivial

theorem stands_checkAck {t : MigrationTables} (outside : MigrationElsewhere) (phase : AckPhase)
    (a : AckFields) (time : Int) : Stands host t (checkAck outside phase a time t.session) := by
  apply (checkAck_spec outside phase a time t.session).stands
  rintro p ⟨s,newStkPubHex,hs,hnew,_,_,hgoes⟩
  cases hgoes with
  | taken htaken => exact ⟨s,hs,htaken⟩
  | takes hfreezing =>
    refine ⟨s,hs,?_,hnew⟩
    rw [hfreezing]
    exact Phase.noConfusion
  | _ => trivial

theorem stands_checkControl {t : MigrationTables} (outside : MigrationElsewhere)
    (action : ControlAction) (body : Option ControlFields) (username : Text) (time : Int)
    (reg : Option ServerRecord) :
    Stands host t (checkControl host outside action body username time reg) := by
  apply (checkControl_spec host outside action body username time reg).stands
  rintro _ rfl
  trivial

theorem stands_checkFreeze {t : MigrationTables} (body : DecommissionBody) (time : Int)
    (session : Option ServerMigrationRecord) : Stands host t (checkFreeze body time session) := by
  apply (checkFreeze_spec body time session).stands
  rintro _ ⟨phase,rfl⟩
  trivial

theorem stands_checkDeposit {t : MigrationTables} (outside : MigrationElsewhere)
    (freeze : Option Phase) (body : DecommissionBody) (time : Int) (reg : Option ServerRecord) :
    Stands host t (checkDeposit host outside freeze body time reg) := by
  apply (checkDeposit_spec host outside freeze body time reg).stands
  rintro _ ⟨order,signature,rfl⟩
  trivial

omit [Lowercase] in
theorem mem_of_inPhase {t : MigrationTables} {s : ServerMigrationRecord} {phases : List Phase}
    (hs : t.session = some s) (h : t.inPhase phases = true) : s.phase ∈ phases := by
  rw [MigrationTables.inPhase,hs,Option.all_some] at h
  exact List.contains_iff_mem.mp h

omit [Lowercase] in
theorem TablesOnward.stamp {t : MigrationTables}
    {f : ServerMigrationRecord → ServerMigrationRecord}
    (hf : ∀ s,t.session = some s → s.phase.Onward (f s).phase ∧
      (f s).oldStkPubHex = s.oldStkPubHex ∧ (s.phase ≠ .initiated → (f s).attached = s.attached)) :
    TablesOnward host t (t.stamp f) := by
  refine ⟨?_,Or.inl rfl⟩
  intro s hs
  refine ⟨f s,?_,hf s hs⟩
  rw [MigrationTables.stamp,hs,Option.map_some]

theorem SessionFits.stamp {t : MigrationTables} (h : SessionFits host t)
    {f : ServerMigrationRecord → ServerMigrationRecord}
    (hf : ∀ s,t.session = some s →
      ((f s).phase = .aborted → (t.identity host).map toLowercase = some (f s).oldStkPubHex) ∧
      ((f s).phase = .takenOver →
        (f s).newStkPubHex.isSome = true ∧ t.identity host = (f s).newStkPubHex)) :
    SessionFits host (t.stamp f) := by
  obtain ⟨s,hs⟩ := h.session
  have hnow : (t.stamp f).session = some (f s) := by
    rw [MigrationTables.stamp,hs,Option.map_some]
  refine ⟨⟨f s,hnow⟩,?_,?_⟩
  · intro s' hs' hphase
    rw [hnow,Option.some.injEq] at hs'
    subst hs'
    exact (hf s hs).1 hphase
  · intro s' hs' hphase
    rw [hnow,Option.some.injEq] at hs'
    subst hs'
    exact (hf s hs).2 hphase

variable (host) in
/-- A call that leaves the session onward, and its request where it may stand. -/
def GoesOnward (t : MigrationTables) (p' : MigrationProgress) (t' : MigrationTables) : Prop :=
  SessionFits host t' ∧ Stands host t' p' ∧ TablesOnward host t t'

theorem GoesOnward.frame {t t' : MigrationTables} {p' : MigrationProgress}
    (hfit : SessionFits host t) (hs : t'.session = t.session) (hd : t'.servers = t.servers)
    (hp : Stands host t p') : GoesOnward host t p' t' :=
  have hon := TablesOnward.of_eq hs hd
  ⟨hfit.of_eq hs hd,hp.onward hon,hon⟩

theorem GoesOnward.read {t : MigrationTables} {p' : MigrationProgress}
    (hfit : SessionFits host t) (hp : Stands host t p') : GoesOnward host t p' t :=
  GoesOnward.frame hfit rfl rfl hp

/-- A stamp of a phase no later than the next, made from there or from just before. -/
theorem GoesOnward.stamp {t : MigrationTables} {p' : MigrationProgress} (hfit : SessionFits host t)
    {f : ServerMigrationRecord → ServerMigrationRecord} {before phase : Phase}
    (hrank : before.rank < phase.rank) (hactive : phase.active = true)
    (hf : ∀ s,(f s).phase = phase ∧ (f s).oldStkPubHex = s.oldStkPubHex ∧
      (f s).attached = s.attached)
    (hc : t.inPhase [before,phase] = true) (hp : Stands host (t.stamp f) p') :
    GoesOnward host t p' (t.stamp f) := by
  refine ⟨hfit.stamp ?_,hp,TablesOnward.stamp ?_⟩
  · intro s _
    rw [(hf s).1]
    refine ⟨?_,?_⟩
    · rintro rfl
      cases hactive
    · rintro rfl
      cases hactive
  · intro s hs
    obtain ⟨hphase,hold,hattached⟩ := hf s
    refine ⟨?_,hold,fun _ => hattached⟩
    rw [hphase]
    rcases List.mem_pair.mp (mem_of_inPhase hs hc) with heq | heq
    · rw [heq]
      exact Or.inr hrank
    · exact Or.inl heq

theorem attach_onward {t : MigrationTables} (hfit : SessionFits host t)
    {newServerDomain newStkPubHex : Text} {time : Int}
    (hc : writesOnward host t (.attachNewBox newServerDomain newStkPubHex time) = true) :
    GoesOnward host t (.answered .attach (.ok (some .provisioned) false))
      (t.stamp (·.attachNewBox newServerDomain newStkPubHex time)) := by
  refine ⟨hfit.stamp ?_,?_,TablesOnward.stamp ?_⟩
  · intro s _
    refine ⟨?_,?_⟩
    · intro hphase
      cases hphase
    · intro hphase
      cases hphase
  · obtain ⟨s,hs⟩ := hfit.session
    refine ⟨s.attachNewBox newServerDomain newStkPubHex time,?_,Phase.noConfusion⟩
    rw [MigrationTables.stamp,hs,Option.map_some]
  · intro s hs
    simp only [writesOnward,Bool.or_eq_true,Bool.and_eq_true] at hc
    rcases hc with hc | ⟨hc,hsame⟩
    · have hphase := List.mem_singleton.mp (mem_of_inPhase hs hc)
      refine ⟨Or.inr ?_,rfl,fun hne => absurd hphase hne⟩
      rw [hphase]
      exact Nat.zero_lt_one
    · have hphase := List.mem_singleton.mp (mem_of_inPhase hs hc)
      rw [hs,Option.all_some,beq_iff_eq] at hsame
      exact ⟨Or.inl hphase,rfl,fun _ => hsame.symm⟩

theorem abort_onward {t : MigrationTables} (hfit : SessionFits host t) {oldStkPubHex : Text}
    {time : Int} (hc : writesOnward host t (.markAborted oldStkPubHex time) = true) :
    GoesOnward host t (.deleteEviction oldStkPubHex) (t.stamp (·.markAborted time)) := by
  simp only [writesOnward,Bool.and_eq_true,Bool.not_eq_true'] at hc
  obtain ⟨hlive,hnames⟩ := hc
  refine ⟨hfit.stamp ?_,?_,TablesOnward.stamp ?_⟩
  · intro s hs
    rw [hs,Option.all_some,beq_iff_eq] at hnames
    refine ⟨fun _ => hnames,?_⟩
    intro hphase
    cases hphase
  · obtain ⟨s,hs⟩ := hfit.session
    refine ⟨s.markAborted time,?_,rfl⟩
    rw [MigrationTables.stamp,hs,Option.map_some]
  · intro s hs
    refine ⟨?_,rfl,fun _ => rfl⟩
    have hphase : s.phase ≠ .takenOver := by
      intro hphase
      rw [MigrationTables.inPhase,hs,Option.all_some,hphase] at hlive
      cases hlive
    change s.phase.Onward .aborted
    cases h : s.phase with
    | takenOver => exact absurd h hphase
    | aborted => exact Or.inl rfl
    | _ => exact Or.inr (by decide)

/-- Out of the freeze the name goes to the attached box. -/
theorem rebind_onward {t : MigrationTables} (hfit : SessionFits host t) {k : TakingOver}
    {deposit : Nat} (h : Attached t k) (hc : writesOnward host t (.rebind k deposit) = true) :
    GoesOnward host t (.markTakenOver k)
      { t with servers := t.servers.put host k.session.username k.newStkPubHex k.time } := by
  have hid : MigrationTables.identity host
      { t with servers := t.servers.put host k.session.username k.newStkPubHex k.time } =
        some k.newStkPubHex := by
    simp only [MigrationTables.identity,Directory.put,Function.update_self,Option.map_some]
  have hon : TablesOnward host t
      { t with servers := t.servers.put host k.session.username k.newStkPubHex k.time } := by
    obtain ⟨s,hs,_,hnew⟩ := h
    refine ⟨fun s hs => ⟨s,hs,Or.inl rfl,rfl,fun _ => rfl⟩,Or.inr ⟨s,hs,?_⟩⟩
    rw [hid,hnew]
  refine ⟨⟨hfit.session,?_,?_⟩,⟨h.onward hon,hid⟩,hon⟩
  · intro s hs hphase
    have hmem := mem_of_inPhase (show t.session = some s from hs) hc
    rw [hphase] at hmem
    exact absurd hmem (by decide)
  · intro s hs _
    obtain ⟨s',hs',_,hnew⟩ := h
    have heq := hs.symm.trans hs'
    rw [Option.some.injEq] at heq
    rw [heq,hnew]
    exact ⟨rfl,hid⟩

theorem takeOver_onward {t : MigrationTables} (hfit : SessionFits host t) {k : TakingOver}
    (h : Stands host t (.markTakenOver k))
    (hc : writesOnward host t (.markTakenOver k) = true) :
    GoesOnward host t (.listAuto k) (t.stamp (·.markTakenOver k.time)) := by
  obtain ⟨⟨s,hs,_,hnew⟩,hid⟩ := h
  refine ⟨hfit.stamp ?_,?_,TablesOnward.stamp ?_⟩
  · intro s' hs'
    rw [hs,Option.some.injEq] at hs'
    subst hs'
    refine ⟨?_,?_⟩
    · intro hphase
      cases hphase
    · intro _
      change s.newStkPubHex.isSome = true ∧ t.identity host = s.newStkPubHex
      rw [hnew]
      exact ⟨rfl,hid⟩
  · refine ⟨s.markTakenOver k.time,?_,rfl⟩
    rw [MigrationTables.stamp,hs,Option.map_some]
  · intro s' hs'
    refine ⟨?_,rfl,fun _ => rfl⟩
    change s'.phase.Onward .takenOver
    rcases List.mem_pair.mp (mem_of_inPhase hs' hc) with heq | heq
    · rw [heq]
      exact Or.inr (by decide)
    · exact Or.inl heq

theorem call_onward {t : MigrationTables} {p : MigrationProgress} (hfit : SessionFits host t)
    (hp : Stands host t p) (hc : writesOnward host t p = true) (now : Nat → Int)
    (outside : MigrationElsewhere) :
    GoesOnward host t (p.call host now outside t).1 (p.call host now outside t).2.1 := by
  cases p with
  | startServer body username time => exact hp.elim
  | startSession body username time => exact hp.elim
  | putSession rec => exact hp.elim
  | attachSession a time => exact .read hfit (stands_checkAttachable a time)
  | attachServer a s time => exact .read hfit (stands_checkAttach outside a hp time _)
  | attachNewBox newServerDomain newStkPubHex time => exact attach_onward hfit hc
  | ackSession phase a time => exact .read hfit (stands_checkAck outside phase a time)
  | markPreSeeded time =>
    exact .stamp hfit (by decide) rfl (fun s => ⟨rfl,rfl,rfl⟩) hc trivial
  | getEviction k => exact .read hfit (stands_checkBarrier hp)
  | rebind k deposit => exact rebind_onward hfit hp hc
  | markTakenOver k => exact takeOver_onward hfit hp hc
  | listAuto k => exact .read hfit (stands_nextAuto hp k _)
  | revokeAuto k id others => exact .frame hfit rfl rfl (stands_nextAuto hp k others)
  | listSealed k => exact .read hfit (stands_nextSealed hp k _)
  | revokeSealed k id others => exact .frame hfit rfl rfl (stands_nextSealed hp k others)
  | markNewAcked k => exact .frame hfit rfl rfl hp
  | controlServer action body username time =>
    exact .read hfit (stands_checkControl outside action body username time _)
  | controlSession action time => exact .read hfit (stands_checkPhase action time)
  | markReady time =>
    exact .stamp hfit (by decide) rfl (fun s => ⟨rfl,rfl,rfl⟩) hc trivial
  | markAborted oldStk time => exact abort_onward hfit hc
  | deleteEviction oldStk => exact .frame hfit rfl rfl hp
  | freezeSession body time => exact .read hfit (stands_checkFreeze body time _)
  | evictServer freeze body time =>
    exact .read hfit (stands_checkDeposit outside freeze body time _)
  | recordEviction freeze order signature time =>
    exact .frame hfit rfl rfl (stands_afterDeposit freeze time)
  | markFreeze time =>
    exact .stamp hfit (by decide) rfl (fun s => ⟨rfl,rfl,rfl⟩) hc trivial
  | markEpochComplete stk =>
    exact .frame hfit rfl rfl (stands_markAnswer .epochComplete trivial _)
  | markOldAcked stk => exact .frame hfit rfl rfl (stands_markAnswer .ackOld trivial _)
  | ackNew => exact .frame hfit rfl rfl trivial
  | answered asked answer => exact .read hfit hp
  | stopped => exact .read hfit trivial

theorem advance_onward {t : MigrationTables} {p : MigrationProgress} (hfit : SessionFits host t)
    (hp : Stands host t p) (now : Nat → Int) (outside : MigrationElsewhere)
    (hc : outside.outcome = .goes → writesOnward host t p = true) :
    GoesOnward host t (p.advance host now outside t).1 (p.advance host now outside t).2.1 := by
  rw [MigrationProgress.advance]
  cases houtcome : outside.outcome with
  | goes => exact call_onward hfit hp (hc houtcome) now outside
  | fails => exact .read hfit (stands_broken hp .fails)
  | stops => exact .read hfit (stands_broken hp .stops)

variable (host) in
def PartyStands (t : MigrationTables) : Party → Prop
  | .control p => Stands host t p
  | _ => True

omit [Lowercase] in
theorem PartyStands.onward {t t' : MigrationTables} {party : Party}
    (hon : TablesOnward host t t') (h : PartyStands host t party) : PartyStands host t' party := by
  cases party with
  | control p => exact Stands.onward hon h
  | _ => trivial

variable (host) in
/-- What holds along a run of one session. -/
def SessionHeld (w : MigrationState) : Prop :=
  SessionFits host w.shared.tables.tables ∧
    ∀ party ∈ w.requests,PartyStands host w.shared.tables.tables party

theorem party_onward {world : MigrationWorld} {party : Party}
    (hfit : SessionFits host world.tables) (hp : PartyStands host world.tables party)
    (now : Nat → Int) (outside : MigrationElsewhere)
    (hc : ∀ p,party = .control p → outside.outcome = .goes →
      writesOnward host world.tables p = true) :
    SessionFits host (party.advance host now outside world).2.1.tables ∧
      PartyStands host (party.advance host now outside world).2.1.tables
        (party.advance host now outside world).1 ∧
      TablesOnward host world.tables (party.advance host now outside world).2.1.tables := by
  cases party with
  | control p => exact advance_onward hfit hp now outside (hc p rfl)
  | oldBox b => exact ⟨hfit,trivial,.of_eq rfl rfl⟩
  | inFlight k =>
    simp only [Party.advance]
    cases world.sent[k]? with
    | none => exact ⟨hfit,trivial,.of_eq rfl rfl⟩
    | some message => cases message with
      | epochComplete stk deposit backedUp =>
        exact advance_onward (p := .markEpochComplete stk) hfit trivial now outside fun _ => rfl
      | ackOld stk =>
        exact advance_onward (p := .markOldAcked stk) hfit trivial now outside fun _ => rfl

theorem accept_stands (t : MigrationTables) (now : Nat → Int) (outside : MigrationElsewhere)
    {request : MigrationRequest} (hstart : ∀ body,request ≠ .start body) :
    PartyStands host t (request.accept host now outside) := by
  cases request with
  | start body => exact absurd rfl (hstart body)
  | attach body => exact stands_startAttach now body
  | ack phase body => exact stands_startAck now phase body
  | control action body =>
    simp only [MigrationRequest.accept]
    cases outside.mailbox with
    | none => trivial
    | some username => trivial
  | epochComplete stk =>
    refine stands_startMark .epochComplete (fun _ => ?_) stk
    trivial
  | ackOld stk =>
    refine stands_startMark .ackOld (fun _ => ?_) stk
    trivial
  | _ => trivial

theorem step_onward {w : MigrationState} (hw : SessionHeld host w)
    (move : Move MigrationRequest MigrationElsewhere) (hc : movesOnward host w move = true) :
    SessionHeld host ((migrationHandlers host).step w move) ∧
      TablesOnward host w.shared.tables.tables
        ((migrationHandlers host).step w move).shared.tables.tables := by
  obtain ⟨hfit,hstands⟩ := hw
  refine (migrationHandlers host).step_rule (K := fun w' => SessionHeld host w' ∧
    TablesOnward host w.shared.tables.tables w'.shared.tables.tables) w move ?_ ?_ ?_
  · rintro request ticks outside rfl
    refine ⟨⟨hfit,?_⟩,.of_eq rfl rfl⟩
    intro party hparty
    rcases List.mem_append.mp hparty with hparty | hparty
    · exact hstands party hparty
    · rw [List.mem_singleton.mp hparty]
      refine accept_stands _ _ outside ?_
      rintro body rfl
      cases hc
  · exact ⟨⟨hfit,hstands⟩,.of_eq rfl rfl⟩
  · rintro i ticks outside party party' world' events rfl hi hadv
    have hwrites : ∀ p,party = .control p → outside.outcome = .goes →
        writesOnward host w.shared.tables.tables p = true := by
      rintro p rfl hgoes
      simpa [movesOnward,hi,hgoes] using hc
    have hparty := party_onward hfit (hstands party (List.mem_of_getElem? hi))
      (reading w.shared.clock ticks) outside hwrites
    have hadv' : party.advance host (reading w.shared.clock ticks) outside w.shared.tables =
      (party',world',events) := hadv
    rw [hadv'] at hparty
    obtain ⟨hfit',hparty',hon⟩ := hparty
    refine ⟨⟨hfit',?_⟩,hon⟩
    intro q hq
    rcases List.mem_or_eq_of_mem_set hq with hq | rfl
    · exact (hstands q hq).onward hon
    · exact hparty'

end

/-- Names, keys and signatures for a run. -/
def boxName : Text := "box.alice.flagship.services".toList

def newName : Text := "new.alice.flagship.services".toList

def keyOf (c : Char) : Text := List.replicate 64 c

def signed : Text := List.replicate 128 '1'

/-- A session of alice's box, attached to the new one. -/
def sessionIn (phase : Phase) : ServerMigrationRecord where
  username := "alice".toList
  oldStkPubHex := keyOf 'a'
  order := ⟨boxName,keyOf 'a',.wipeAfterHandoff,keyOf '0',0⟩
  orderSignatureHex := signed
  disposition := .wipeAfterHandoff
  phase := phase
  initiatedAt := 0
  newServerDomain := some newName
  newStkPubHex := some (keyOf 'b')
  attachedAt := some 0
  preSeededAt := none
  readyAt := none
  freezeAt := none
  takenOverAt := none
  abortedAt := none

/-- The order that retires the old box. -/
def retiring : ServerDecommission :=
  ⟨boxName,keyOf 'a',true,.wipeAfterHandoff,1,keyOf '2',0⟩

/-- Alice's two boxes, one move between them, and a lease of each kind. -/
def movingBox (session : ServerMigrationRecord) (eviction : Option ServerEvictionRecord) :
    MigrationWorld where
  tables :=
    { servers := Function.update (Function.update (fun _ => none) boxName
        (some ⟨"alice".toList,keyOf 'a',0,none,none⟩)) newName
        (some ⟨"alice".toList,keyOf 'b',0,none,none⟩)
      session := some session
      evictions := Function.update (fun _ => none) (keyOf 'a') eviction
      autoLeases := [⟨keyOf '3',0,100⟩]
      sealedLeases := [⟨keyOf '4',0,100,none,0⟩]
      deposits := fun _ => 0 }
  disks := fun _ => ⟨false,none,false⟩
  sent := []

/-- The final backup is reported. -/
def reported : ServerEvictionRecord := ⟨retiring,signed,0,none,none,some 0⟩

/-- A call that goes through, with every check in order. -/
def permits : MigrationElsewhere := ⟨.goes,some "alice".toList,true,true,false⟩

def callsOf (i n : Nat) : List (Move MigrationRequest MigrationElsewhere) :=
  List.replicate n (.resume i [] permits)

/-- The new box asks to take over. -/
def takesOver : Move MigrationRequest MigrationElsewhere :=
  .receive (.ack .takeOver (some ⟨boxName,keyOf 'b',0,signed⟩)) [] permits

def aborts : Move MigrationRequest MigrationElsewhere :=
  .receive (.control .abort (some ⟨boxName,keyOf '5',0,signed⟩)) [] permits

/-- Where moves lead from the freeze on, with the final backup reported. -/
def fromFreeze (moves : List (Move MigrationRequest MigrationElsewhere)) : MigrationState :=
  run (@migrationHandlers asciiLowercase boxName).step
    (MigrationState.idle (movingBox (sessionIn .freezing) (some reported)) 0) moves

/-- The new box takes over. -/
def tookOver : List (Move MigrationRequest MigrationElsewhere) := takesOver :: callsOf 0 9

/-- An abort is answered while a take-over stands before the rebinding. -/
def abortedMeanwhile : List (Move MigrationRequest MigrationElsewhere) :=
  takesOver :: callsOf 0 2 ++ aborts :: callsOf 1 4

end Flagship.Migration.Proofs

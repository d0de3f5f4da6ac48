import Flagship.Migration.Runs

namespace Flagship.Migration.Proofs
open Lib Control

/-- A request that is answered, and not with ok. -/
def refused : MigrationProgress → Bool
  | .answered _ (.ok _ _) => false
  | .answered _ _ => true
  | _ => false

/-- Where a request goes on if it is not refused. -/
def RefusedOr (p : MigrationProgress) (goesOn : MigrationProgress → Prop) : Prop :=
  refused p = true ∨ goesOn p

/-- A check that refuses. -/
theorem RefusedOr.check {c : Prop} [Decidable c] {p q : MigrationProgress}
    {goesOn : MigrationProgress → Prop} (hp : refused p = true) (hq : RefusedOr q goesOn) :
    RefusedOr (if c then p else q) goesOn := by
  by_cases hc : c
  · rw [if_pos hc]
    exact Or.inl hp
  · rw [if_neg hc]
    exact hq

theorem checkBarrier_spec (k : TakingOver) (t : MigrationTables) :
    RefusedOr (checkBarrier k t) fun p =>
      ∃ ev,t.evictions k.session.oldStkPubHex = some ev ∧ ev.epochCompleteAt.isSome = true ∧
        p = .rebind k (t.deposits k.session.oldStkPubHex) := by
  rw [checkBarrier]
  cases t.evictions k.session.oldStkPubHex with
  | none => exact Or.inl rfl
  | some ev =>
    simp only
    split_ifs with hnone
    · exact Or.inl rfl
    · refine Or.inr ⟨ev,rfl,?_,rfl⟩
      rwa [Bool.not_eq_true,Option.isNone_eq_false_iff] at hnone

theorem markAnswer_spec (asked : Asked) (row : Option ServerEvictionRecord) :
    RefusedOr (markAnswer asked row) fun p => p = .answered asked (.ok none false) := by
  rw [markAnswer]
  split_ifs
  · exact Or.inl rfl
  · exact Or.inr rfl

/-- Where a verified report goes on. -/
inductive AckGoesOn (s : ServerMigrationRecord) (newStkPubHex : Text) (time : Int) :
    AckPhase → MigrationProgress → Prop
  | marks : AckGoesOn s newStkPubHex time .preSeeded (.markPreSeeded time)
  | seeded : AckGoesOn s newStkPubHex time .preSeeded
      (.answered (.ack .preSeeded) (.ok (some s.phase) true))
  | taken : s.phase = .takenOver → AckGoesOn s newStkPubHex time .takeOver
      (.answered (.ack .takeOver) (.ok (some .takenOver) true))
  | takes : s.phase = .freezing → AckGoesOn s newStkPubHex time .takeOver
      (.getEviction ⟨s,newStkPubHex,time⟩)

theorem recordAck_spec (phase : AckPhase) (s : ServerMigrationRecord) (newStkPubHex : Text)
    (time : Int) :
    RefusedOr (recordAck phase s newStkPubHex time) (AckGoesOn s newStkPubHex time phase) := by
  cases phase with
  | preSeeded =>
    rw [recordAck]
    split_ifs
    · exact Or.inr .marks
    · exact Or.inr .seeded
  | takeOver =>
    rw [recordAck]
    split_ifs with htaken hfreezing
    · exact Or.inr (.taken htaken)
    · exact Or.inl rfl
    · exact Or.inr (.takes (not_not.mp hfreezing))

/-- Where an order of the owner goes on. -/
inductive ControlGoesOn (session : Option ServerMigrationRecord) (time : Int) :
    ControlAction → MigrationProgress → Prop
  | marksReady : ControlGoesOn session time .confirmReady (.markReady time)
  | ready : ControlGoesOn session time .confirmReady
      (.answered (.control .confirmReady) (.ok (some .ready) true))
  | marksAborted (oldStkPubHex : Text) : ControlGoesOn session time .abort
      (.markAborted oldStkPubHex time)
  | aborted (s : ServerMigrationRecord) : session = some s → s.phase = .aborted →
      ControlGoesOn session time .abort
        (.answered (.control .abort) (.ok (some .aborted) true))

theorem checkPhase_spec (action : ControlAction) (time : Int)
    (session : Option ServerMigrationRecord) :
    RefusedOr (checkPhase action time session) (ControlGoesOn session time action) := by
  cases session with
  | none => exact Or.inl rfl
  | some s => cases action with
    | confirmReady =>
      rw [checkPhase]
      split_ifs
      · exact Or.inr .ready
      · exact Or.inl rfl
      · exact Or.inr .marksReady
    | abort =>
      rw [checkPhase]
      split_ifs with haborted
      · exact Or.inr (.aborted s rfl haborted)
      · exact Or.inl rfl
      · exact Or.inr (.marksAborted s.oldStkPubHex)

section
variable [Lowercase]

theorem startAttach_spec (host : Text) (now : Nat → Int) (body : Option AttachFields) :
    RefusedOr (startAttach host now body) fun p => ∃ a,p = .attachSession a (now 0) := by
  cases body with
  | none => exact Or.inl rfl
  | some a =>
    rw [startAttach]
    repeat apply RefusedOr.check rfl
    exact Or.inr ⟨a,rfl⟩

theorem startAck_spec (host : Text) (now : Nat → Int) (phase : AckPhase) (body : Option AckFields) :
    RefusedOr (startAck host now phase body) fun p => ∃ a,p = .ackSession phase a (now 0) := by
  cases body with
  | none => exact Or.inl rfl
  | some a =>
    rw [startAck]
    repeat apply RefusedOr.check rfl
    exact Or.inr ⟨a,rfl⟩

theorem startMark_spec (asked : Asked) (mark : Text → MigrationProgress) (stk : Option Text) :
    RefusedOr (startMark asked mark stk) fun p => ∃ stk',p = mark stk' := by
  cases stk with
  | none => exact Or.inl rfl
  | some stk =>
    simp only [startMark]
    split_ifs
    · exact Or.inl rfl
    · exact Or.inr ⟨_,rfl⟩

theorem checkStart_spec (host : Text) (outside : MigrationElsewhere) (body : Option StartFields)
    (username : Text) (time : Int) (reg : Option ServerRecord) :
    RefusedOr (checkStart host outside body username time reg)
      fun p => ∃ b name,p = .startSession b name time := by
  cases reg with
  | none => exact Or.inl rfl
  | some reg => cases body with
    | none =>
      apply RefusedOr.check rfl
      exact Or.inl rfl
    | some b =>
      rw [checkStart]
      repeat apply RefusedOr.check rfl
      exact Or.inr ⟨b,_,rfl⟩

theorem checkExisting_spec (b : StartFields) (username : Text) (time : Int)
    (session : Option ServerMigrationRecord) :
    RefusedOr (checkExisting b username time session) fun p =>
      p = .putSession (newSession b username time) ∨
        ∃ phase,p = .answered .start (.ok phase false) := by
  cases session with
  | none => exact Or.inr (Or.inl rfl)
  | some s =>
    simp only [checkExisting]
    split_ifs
    · exact Or.inr (Or.inl rfl)
    · exact Or.inl rfl
    · exact Or.inr (Or.inr ⟨_,rfl⟩)

theorem checkAttachable_spec (host : Text) (a : AttachFields) (time : Int)
    (session : Option ServerMigrationRecord) :
    RefusedOr (checkAttachable host a time session)
      fun p => ∃ s,session = some s ∧ p = .attachServer a s time := by
  cases session with
  | none => exact Or.inl rfl
  | some s =>
    rw [checkAttachable]
    repeat apply RefusedOr.check rfl
    exact Or.inr ⟨s,rfl,rfl⟩

theorem checkAttach_spec (outside : MigrationElsewhere) (a : AttachFields)
    (s : ServerMigrationRecord) (time : Int) (newReg : Option ServerRecord) :
    RefusedOr (checkAttach outside a s time newReg) fun p =>
      (s.phase ≠ .initiated ∧ p = .answered .attach (.ok (some s.phase) false)) ∨
      p = .attachNewBox (toLowercase a.newServerDomain) (toLowercase a.newStkPubHex) time := by
  cases newReg with
  | none => exact Or.inl rfl
  | some newReg =>
    simp only [checkAttach]
    split_ifs with _ _ _ _ hphase
    all_goals first
      | exact Or.inl rfl
      | exact Or.inr (Or.inl ⟨hphase,rfl⟩)
      | exact Or.inr (Or.inr rfl)

/-- A report that is not refused comes from the attached box. -/
theorem checkAck_spec (outside : MigrationElsewhere) (phase : AckPhase) (a : AckFields)
    (time : Int) (session : Option ServerMigrationRecord) :
    RefusedOr (checkAck outside phase a time session) fun p =>
      ∃ s newStkPubHex,session = some s ∧ s.newStkPubHex = some newStkPubHex ∧
        toLowercase a.stkPubHex = newStkPubHex ∧ outside.authorized = true ∧
        AckGoesOn s newStkPubHex time phase p := by
  cases session with
  | none => exact Or.inl rfl
  | some s =>
    rw [checkAck]
    apply RefusedOr.check rfl
    cases hpresent : present s.newStkPubHex with
    | none => exact Or.inl rfl
    | some newStkPubHex =>
      simp only
      split_ifs with hother hunauthorized
      · exact Or.inl rfl
      · exact Or.inl rfl
      · rcases recordAck_spec phase s newStkPubHex time with hrefused | hgoes
        · exact Or.inl hrefused
        · refine Or.inr ⟨s,newStkPubHex,rfl,(Option.filter_eq_some_iff.mp hpresent).1,
            not_not.mp hother,?_,hgoes⟩
          simpa using hunauthorized

theorem checkControl_spec (host : Text) (outside : MigrationElsewhere) (action : ControlAction)
    (body : Option ControlFields) (username : Text) (time : Int) (reg : Option ServerRecord) :
    RefusedOr (checkControl host outside action body username time reg)
      fun p => p = .controlSession action time := by
  cases reg with
  | none => exact Or.inl rfl
  | some reg => cases body with
    | none =>
      apply RefusedOr.check rfl
      exact Or.inl rfl
    | some c =>
      rw [checkControl]
      repeat apply RefusedOr.check rfl
      exact Or.inr rfl

theorem checkFreeze_spec (body : DecommissionBody) (time : Int)
    (session : Option ServerMigrationRecord) :
    RefusedOr (checkFreeze body time session)
      fun p => ∃ phase,p = .evictServer (some phase) body time := by
  cases session with
  | none => exact Or.inl rfl
  | some s =>
    rw [checkFreeze]
    repeat apply RefusedOr.check rfl
    exact Or.inr ⟨_,rfl⟩

theorem checkDeposit_spec (host : Text) (outside : MigrationElsewhere) (freeze : Option Phase)
    (body : DecommissionBody) (time : Int) (reg : Option ServerRecord) :
    RefusedOr (checkDeposit host outside freeze body time reg)
      fun p => ∃ order signature,p = .recordEviction freeze order signature time := by
  rw [checkDeposit]
  cases outside.mailbox with
  | none => exact Or.inl rfl
  | some username => cases reg with
    | none => exact Or.inl rfl
    | some reg =>
      apply RefusedOr.check rfl
      cases body.order with
      | none => exact Or.inl rfl
      | some deposit =>
        obtain ⟨order,signature⟩ := deposit
        repeat apply RefusedOr.check rfl
        exact Or.inr ⟨order,signature,rfl⟩

/-- A request about to rebind the name. -/
def isRebind : MigrationProgress → Bool
  | .rebind _ _ => true
  | _ => false

omit [Lowercase] in
theorem RefusedOr.not_rebind {p : MigrationProgress} {goesOn : MigrationProgress → Prop}
    (h : RefusedOr p goesOn) (hgoes : ∀ p',goesOn p' → isRebind p' = false) :
    isRebind p = false := by
  rcases h with hrefused | hon
  · cases p with
    | rebind k deposit => cases hrefused
    | _ => rfl
  · exact hgoes p hon

omit [Lowercase] in
theorem broken_not_rebind (p : MigrationProgress) (outcome : Outcome) :
    isRebind (p.broken outcome) = false := by
  cases outcome with
  | fails => cases p with
    | revokeAuto k id others => cases others <;> rfl
    | revokeSealed k id others => cases others <;> rfl
    | _ => rfl
  | _ => cases p <;> rfl

/-- Only the reading of the barrier leads to the rebinding. -/
theorem call_not_rebind (host : Text) {p : MigrationProgress} (hp : ∀ k,p ≠ .getEviction k)
    (now : Nat → Int) (outside : MigrationElsewhere) (t : MigrationTables) :
    isRebind (p.call host now outside t).1 = false := by
  cases p with
  | getEviction k => exact absurd rfl (hp k)
  | startServer body username time =>
    apply (checkStart_spec host outside body username time (t.servers host)).not_rebind
    rintro _ ⟨b,name,rfl⟩
    rfl
  | startSession body username time =>
    apply (checkExisting_spec body username time t.session).not_rebind
    rintro _ (rfl | ⟨phase,rfl⟩) <;> rfl
  | attachSession a time =>
    apply (checkAttachable_spec host a time t.session).not_rebind
    rintro _ ⟨s,_,rfl⟩
    rfl
  | attachServer a s time =>
    apply (checkAttach_spec outside a s time
      (t.servers (toLowercase a.newServerDomain))).not_rebind
    rintro _ (⟨_,rfl⟩ | rfl) <;> rfl
  | ackSession phase a time =>
    apply (checkAck_spec outside phase a time t.session).not_rebind
    rintro _ ⟨s,newStkPubHex,_,_,_,_,hgoes⟩
    cases hgoes <;> rfl
  | listAuto k =>
    change isRebind (nextAuto k _) = false
    cases (AutoUnlockLease.list t.autoLeases k.time).map (·.leaseId) <;> rfl
  | revokeAuto k id others => cases others <;> rfl
  | listSealed k =>
    change isRebind (nextSealed k _) = false
    cases (BoxSealedLease.list t.sealedLeases k.time).map (·.leaseId) <;> rfl
  | revokeSealed k id others => cases others <;> rfl
  | controlServer action body username time =>
    apply (checkControl_spec host outside action body username time (t.servers host)).not_rebind
    rintro _ rfl
    rfl
  | controlSession action time =>
    apply (checkPhase_spec action time t.session).not_rebind
    intro p hgoes
    cases hgoes <;> rfl
  | freezeSession body time =>
    apply (checkFreeze_spec body time t.session).not_rebind
    rintro _ ⟨phase,rfl⟩
    rfl
  | evictServer freeze body time =>
    apply (checkDeposit_spec host outside freeze body time (t.servers host)).not_rebind
    rintro _ ⟨order,signature,rfl⟩
    rfl
  | recordEviction freeze order signature time =>
    change isRebind (afterDeposit freeze time) = false
    cases freeze with
    | none => rfl
    | some phase =>
      rw [afterDeposit]
      split_ifs <;> rfl
  | markEpochComplete stk =>
    apply (markAnswer_spec .epochComplete (t.evictions stk)).not_rebind
    rintro _ rfl
    rfl
  | markOldAcked stk =>
    apply (markAnswer_spec .ackOld (t.evictions stk)).not_rebind
    rintro _ rfl
    rfl
  | _ => rfl

end
end Flagship.Migration.Proofs

import Flagship.Migration.Proofs.TakeOver

namespace Flagship.Migration.Proofs
open Lib Control

/-- The order may be the one stored for the box under that number. -/
def FitsDeposit (t : MigrationTables) (stk : Text) (deposit : Nat) (order : ServerDecommission) :
    Prop :=
  deposit ≤ t.deposits stk ∧
    (deposit = t.deposits stk → ∀ row,t.evictions stk = some row → row.order = order)

/-- How a call changes the row of a box: it keeps the order, and reports a backup
only where it may; or it stores another order, with nothing reported. -/
def RowOn (may : Text → Prop) (t t' : MigrationTables) (stk : Text) : Prop :=
  t'.deposits stk = t.deposits stk ∧
    (∀ row',t'.evictions stk = some row' → ∃ row,t.evictions stk = some row ∧
      row'.order = row.order ∧
      (row'.epochCompleteAt.isSome = true → row.epochCompleteAt.isSome = true ∨ may stk)) ∨
  t.deposits stk < t'.deposits stk ∧
    ∀ row',t'.evictions stk = some row' → row'.epochCompleteAt = none

def RowsOn (may : Text → Prop) (t t' : MigrationTables) : Prop := ∀ stk,RowOn may t t' stk

section
variable {may : Text → Prop} {t t' : MigrationTables}

theorem FitsDeposit.on (h : RowsOn may t t') {stk : Text} {deposit : Nat}
    {order : ServerDecommission} (hfits : FitsDeposit t stk deposit order) :
    FitsDeposit t' stk deposit order := by
  obtain ⟨hle,horder⟩ := hfits
  rcases h stk with ⟨hsame,hrows⟩ | ⟨hmore,_⟩
  · refine ⟨hle.trans_eq hsame.symm,?_⟩
    intro heq row' hrow'
    obtain ⟨row,hrow,hkept,_⟩ := hrows row' hrow'
    rw [hkept]
    exact horder (heq.trans hsame) row hrow
  · refine ⟨hle.trans hmore.le,?_⟩
    intro heq
    exact absurd heq (hle.trans_lt hmore).ne

theorem RowsOn.same (hevictions : t'.evictions = t.evictions)
    (hdeposits : t'.deposits = t.deposits) : RowsOn may t t' := by
  intro stk
  refine Or.inl ⟨congrFun hdeposits stk,?_⟩
  intro row hrow
  exact ⟨row,(congrFun hevictions stk).symm.trans hrow,rfl,Or.inl⟩

theorem rowsOn_mark (t : MigrationTables) (stk : Text)
    {f : ServerEvictionRecord → ServerEvictionRecord}
    (hf : ∀ r,(f r).order = r.order ∧
      ((f r).epochCompleteAt.isSome = true → r.epochCompleteAt.isSome = true ∨ may stk)) :
    RowsOn may t (t.mark stk f) := by
  intro stk'
  refine Or.inl ⟨rfl,?_⟩
  intro row' hrow'
  by_cases heq : stk' = stk
  · subst heq
    simp only [MigrationTables.mark,Function.update_self,Option.map_eq_some_iff] at hrow'
    obtain ⟨row,hrow,rfl⟩ := hrow'
    exact ⟨row,hrow,hf row⟩
  · simp only [MigrationTables.mark,Function.update_of_ne heq] at hrow'
    exact ⟨row',hrow',rfl,Or.inl⟩

theorem rowsOn_markNewAcked (t : MigrationTables) (time : Int) :
    RowsOn may t (t.markNewAcked time) := by
  intro stk
  refine Or.inl ⟨rfl,?_⟩
  intro row' hrow'
  obtain ⟨row,hrow,rfl⟩ := Option.map_eq_some_iff.mp hrow'
  exact ⟨row,hrow,rfl,Or.inl⟩

theorem rowsOn_deleteEviction (t : MigrationTables) (stk : Text) :
    RowsOn may t (t.deleteEviction stk) := by
  intro stk'
  refine Or.inl ⟨rfl,?_⟩
  intro row' hrow'
  by_cases heq : stk' = stk
  · subst heq
    simp only [MigrationTables.deleteEviction,Function.update_self] at hrow'
    cases hrow'
  · simp only [MigrationTables.deleteEviction,Function.update_of_ne heq] at hrow'
    exact ⟨row',hrow',rfl,Or.inl⟩

theorem rowsOn_recordEviction (t : MigrationTables) (stk : Text) {rec : ServerEvictionRecord}
    (hrec : rec.epochCompleteAt = none) : RowsOn may t (t.recordEviction stk rec) := by
  intro stk'
  by_cases heq : stk' = stk
  · subst heq
    refine Or.inr ⟨?_,?_⟩
    · simp only [MigrationTables.recordEviction,Function.update_self]
      omega
    · intro row' hrow'
      simp only [MigrationTables.recordEviction,Function.update_self,Option.some.injEq] at hrow'
      rw [← hrow',hrec]
  · refine Or.inl ⟨?_,?_⟩
    · simp only [MigrationTables.recordEviction,Function.update_of_ne heq]
    · intro row' hrow'
      simp only [MigrationTables.recordEviction,Function.update_of_ne heq] at hrow'
      exact ⟨row',hrow',rfl,Or.inl⟩

variable [Lowercase] (host : Text)

/-- A call reports a backup only as a report. -/
theorem call_rows (p : MigrationProgress) (now : Nat → Int) (outside : MigrationElsewhere)
    (t : MigrationTables) :
    RowsOn (fun stk => p = .markEpochComplete stk) t (p.call host now outside t).2.1 := by
  cases p with
  | markNewAcked k => exact rowsOn_markNewAcked t k.time
  | ackNew => exact rowsOn_markNewAcked t (now 0)
  | deleteEviction oldStk => exact rowsOn_deleteEviction t oldStk
  | recordEviction freeze order signature time => exact rowsOn_recordEviction t _ rfl
  | markEpochComplete stk => exact rowsOn_mark t stk fun r => ⟨rfl,fun _ => Or.inr rfl⟩
  | markOldAcked stk => exact rowsOn_mark t stk fun r => ⟨rfl,Or.inl⟩
  | _ => exact RowsOn.same rfl rfl

/-- What a call makes happen: at most one thing, never a backup, and the
rebinding only where it stands before it. -/
inductive CallEvents (t : MigrationTables) : MigrationProgress → List MigrationEvent → Prop
  | nothing (p : MigrationProgress) : CallEvents t p []
  | tookOver (p : MigrationProgress) (time : Int) (auto : List AutoUnlockLease)
      (box : List BoxSealedLease) : CallEvents t p [.tookOver time auto box]
  | confirmed (p : MigrationProgress) : CallEvents t p [.confirmed]
  | rebound (k : TakingOver) (deposit : Nat) : CallEvents t (.rebind k deposit)
      [.rebound k.session.oldStkPubHex k.newStkPubHex (t.deposits k.session.oldStkPubHex)
        ((t.evictions k.session.oldStkPubHex).map (·.order))]

theorem call_events (p : MigrationProgress) (now : Nat → Int) (outside : MigrationElsewhere)
    (t : MigrationTables) : CallEvents t p (p.call host now outside t).2.2 := by
  cases p with
  | rebind k deposit => exact .rebound k deposit
  | markTakenOver k =>
    change CallEvents t _ (t.takesOver (now 0))
    rw [MigrationTables.takesOver]
    cases t.session with
    | none => exact .nothing _
    | some s =>
      simp only
      split_ifs
      · exact .nothing _
      · exact .tookOver _ _ _ _
  | markNewAcked k => exact .confirmed _
  | _ => exact .nothing _

end

/-- The final backup of the order stored under that number was completed. -/
def Flushed (history : List MigrationEvent) (stk : Text) (deposit : Nat) : Prop :=
  ∃ order,.flushed stk deposit order ∈ history

theorem Flushed.append {history : List MigrationEvent} {stk : Text} {deposit : Nat}
    (h : Flushed history stk deposit) (events : List MigrationEvent) :
    Flushed (history ++ events) stk deposit := by
  obtain ⟨order,horder⟩ := h
  exact ⟨order,List.mem_append_left _ horder⟩

/-- What the reports stand for: backups are of orders that were stored, a report
that is recorded or on its way, of a backup that was completed. -/
structure BarrierFits (s : MoveShared) : Prop where
  numbered : ∀ stk deposit order,.flushed stk deposit order ∈ s.history →
    FitsDeposit s.tables.tables stk deposit order
  reported : ∀ stk row,s.tables.tables.evictions stk = some row →
    row.epochCompleteAt.isSome = true → Flushed s.history stk (s.tables.tables.deposits stk)
  sent : ∀ stk deposit,.epochComplete stk deposit true ∈ s.tables.sent →
    Flushed s.history stk deposit
  each : Each BackedUpBefore s.history

/-- What holds of a party by the call it stands before. -/
def PartyFits (s : MoveShared) : Party → Prop
  | .control (.rebind k deposit) => Flushed s.history k.session.oldStkPubHex deposit
  | .oldBox (.clearStage c) => FitsDeposit s.tables.tables c.stk c.deposit c.order
  | .oldBox (.backupFlush c) => FitsDeposit s.tables.tables c.stk c.deposit c.order
  | .oldBox (.reportEpoch c backedUp) => backedUp = true → Flushed s.history c.stk c.deposit
  | _ => True

theorem partyFits_control {s : MoveShared} {p : MigrationProgress} (h : isRebind p = false) :
    PartyFits s (.control p) := by
  cases p with
  | rebind k deposit => cases h
  | _ => trivial

theorem PartyFits.on {s s' : MoveShared} {may : Text → Prop} {events : List MigrationEvent}
    (hrows : RowsOn may s.tables.tables s'.tables.tables)
    (hhistory : s'.history = s.history ++ events) {party : Party} (h : PartyFits s party) :
    PartyFits s' party := by
  have hflushed : ∀ {stk deposit},Flushed s.history stk deposit →
      Flushed s'.history stk deposit := by
    intro stk deposit hflushed
    rw [hhistory]
    exact hflushed.append events
  cases party with
  | control p => cases p with
    | rebind k deposit => exact hflushed h
    | _ => trivial
  | oldBox b => cases b with
    | clearStage c => exact FitsDeposit.on hrows h
    | backupFlush c => exact FitsDeposit.on hrows h
    | reportEpoch c backedUp => exact fun hbacked => hflushed (h hbacked)
    | _ => trivial
  | inFlight k => trivial

/-- What a call has to keep: reports it records or sends and backups it completes
are as the reports before them. -/
theorem BarrierFits.on {s s' : MoveShared} (h : BarrierFits s) {may : Text → Prop}
    (hrows : RowsOn may s.tables.tables s'.tables.tables) {events : List MigrationEvent}
    (hhistory : s'.history = s.history ++ events) {messages : List Message}
    (hsent : s'.tables.sent = s.tables.sent ++ messages)
    (hmay : ∀ stk row,may stk → s.tables.tables.evictions stk = some row →
      Flushed s.history stk (s.tables.tables.deposits stk))
    (hmessages : ∀ stk deposit,.epochComplete stk deposit true ∈ messages →
      Flushed s.history stk deposit)
    (hflushes : ∀ stk deposit order,.flushed stk deposit order ∈ events →
      FitsDeposit s.tables.tables stk deposit order)
    (heach : Each BackedUpBefore (s.history ++ events)) : BarrierFits s' := by
  refine ⟨?_,?_,?_,hhistory ▸ heach⟩
  · intro stk deposit order hflushed
    rw [hhistory] at hflushed
    rcases List.mem_append.mp hflushed with hpast | hlast
    · exact (h.numbered stk deposit order hpast).on hrows
    · exact (hflushes stk deposit order hlast).on hrows
  · intro stk row' hrow' hreported
    rw [hhistory]
    rcases hrows stk with ⟨hsame,hkept⟩ | ⟨_,hfresh⟩
    · obtain ⟨row,hrow,_,hwas⟩ := hkept row' hrow'
      rw [hsame]
      rcases hwas hreported with hwas | hmight
      · exact (h.reported stk row hrow hwas).append events
      · exact (hmay stk row hmight hrow).append events
    · rw [hfresh row' hrow'] at hreported
      cases hreported
  · intro stk deposit hmem
    rw [hsent] at hmem
    rw [hhistory]
    rcases List.mem_append.mp hmem with hpast | hlast
    · exact (h.sent stk deposit hpast).append events
    · exact (hmessages stk deposit hlast).append events

/-- A call that sends nothing and completes no backup. -/
theorem BarrierFits.rows {s s' : MoveShared} (h : BarrierFits s) {may : Text → Prop}
    (hrows : RowsOn may s.tables.tables s'.tables.tables) {events : List MigrationEvent}
    (hhistory : s'.history = s.history ++ events) (hsent : s'.tables.sent = s.tables.sent)
    (hmay : ∀ stk row,may stk → s.tables.tables.evictions stk = some row →
      Flushed s.history stk (s.tables.tables.deposits stk))
    (hnew : ∀ stk deposit order,.flushed stk deposit order ∉ events)
    (heach : Each BackedUpBefore (s.history ++ events)) : BarrierFits s' := by
  refine h.on hrows hhistory (hsent.trans (List.append_nil _).symm) hmay ?_ ?_ heach
  · exact fun _ _ hmem => absurd hmem List.not_mem_nil
  · exact fun stk deposit order hmem => absurd hmem (hnew stk deposit order)

theorem BarrierFits.each_nil {s : MoveShared} (h : BarrierFits s) :
    Each BackedUpBefore (s.history ++ []) := by
  rw [List.append_nil]
  exact h.each

/-- The rebinding after the backup of the stored order. -/
theorem backedUpBefore_rebound {s : MoveShared} (h : BarrierFits s) {oldStk newStk : Text}
    (hflushed : Flushed s.history oldStk (s.tables.tables.deposits oldStk)) :
    BackedUpBefore s.history (.rebound oldStk newStk (s.tables.tables.deposits oldStk)
      ((s.tables.tables.evictions oldStk).map (·.order))) := by
  obtain ⟨order,horder⟩ := hflushed
  refine ⟨order,horder,?_⟩
  intro o hstored
  obtain ⟨row,hrow,rfl⟩ := Option.map_eq_some_iff.mp hstored
  exact (h.numbered oldStk _ order horder).2 rfl row hrow

/-- A box that has no report of its backup before it. -/
def reportsNothing : BoxProgress → Bool
  | .clearStage _ => false
  | .backupFlush _ => false
  | .reportEpoch _ _ => false
  | _ => true

theorem partyFits_oldBox {s : MoveShared} {b : BoxProgress} (h : reportsNothing b = true) :
    PartyFits s (.oldBox b) := by
  cases b with
  | clearStage c => cases h
  | backupFlush c => cases h
  | reportEpoch c backedUp => cases h
  | _ => trivial

theorem unconfirmed_reportsNothing (c : Closeout) : reportsNothing (unconfirmed c) = true := by
  rw [unconfirmed]
  split_ifs <;> rfl

theorem poll_reportsNothing (c : Closeout) (attempts : Nat) :
    reportsNothing (poll c attempts) = true := by
  cases attempts with
  | zero => exact unconfirmed_reportsNothing c
  | succ attempts => rfl

theorem applyDisposition_reportsNothing (c : Closeout) :
    reportsNothing (applyDisposition c) = true := by
  rw [applyDisposition]
  cases c.order.diskDisposition with
  | wipeAfterHandoff => exact poll_reportsNothing c maxAttempts
  | _ => rfl

theorem closeOut_fits {s : MoveShared} {c : Closeout}
    (h : FitsDeposit s.tables.tables c.stk c.deposit c.order) :
    PartyFits s (.oldBox (closeOut c)) := by
  rw [closeOut]
  split_ifs
  · exact partyFits_oldBox (applyDisposition_reportsNothing c)
  · exact h
  · trivial

/-- What is shared after a call of a box. -/
def afterBox (s : MoveShared) (ticks : List Nat) (stk : Text)
    (called : BoxProgress × BoxDisk × List Message × List MigrationEvent) : MoveShared :=
  s.after ticks ⟨s.tables.tables,Function.update s.tables.disks stk called.2.1,
    s.tables.sent ++ called.2.2.1⟩ called.2.2.2

/-- A call of an old box leaves the tables as they are. -/
theorem BarrierFits.box {s : MoveShared} (h : BarrierFits s) {ticks : List Nat} {stk : Text}
    {b' : BoxProgress} {disk : BoxDisk} {messages : List Message} {events : List MigrationEvent}
    (hmessages : ∀ stk deposit,.epochComplete stk deposit true ∈ messages →
      Flushed s.history stk deposit)
    (hflushes : ∀ stk deposit order,.flushed stk deposit order ∈ events →
      FitsDeposit s.tables.tables stk deposit order)
    (heach : Each BackedUpBefore (s.history ++ events)) :
    BarrierFits (afterBox s ticks stk (b',disk,messages,events)) := by
  have hsame : RowsOn (fun _ => False) s.tables.tables s.tables.tables := .same rfl rfl
  exact h.on hsame rfl rfl (fun _ _ hfalse => hfalse.elim) hmessages hflushes heach

theorem BarrierFits.quiet {s : MoveShared} (h : BarrierFits s) (ticks : List Nat) (stk : Text)
    (b' : BoxProgress) (disk : BoxDisk) : BarrierFits (afterBox s ticks stk (b',disk,[],[])) := by
  refine h.box ?_ ?_ h.each_nil
  · exact fun _ _ hmem => absurd hmem List.not_mem_nil
  · exact fun _ _ _ hmem => absurd hmem List.not_mem_nil

section
variable [Lowercase] {host : Text}

theorem checkOrder_fits {s s' : MoveShared} (htables : s'.tables.tables = s.tables.tables)
    (outside : MigrationElsewhere) (stk : Text) (staged : Option Text) :
    PartyFits s' (.oldBox (checkOrder outside stk staged (s.tables.tables.deposits stk)
      (s.tables.tables.evictions stk))) := by
  cases hrow : s.tables.tables.evictions stk with
  | none => trivial
  | some row =>
    have hfits : FitsDeposit s'.tables.tables stk (s.tables.tables.deposits stk) row.order := by
      rw [htables]
      refine ⟨Nat.le_refl _,?_⟩
      intro _ row' hrow'
      rw [hrow,Option.some.injEq] at hrow'
      rw [hrow']
    simp only [checkOrder]
    split_ifs
    · trivial
    · trivial
    · exact hfits
    · exact closeOut_fits (c := ⟨stk,row.order,_,_⟩) hfits

theorem checkHandoff_reportsNothing (c : Closeout) (attempts : Nat)
    (session : Option ServerMigrationRecord) :
    reportsNothing (checkHandoff c attempts session) = true := by
  cases session with
  | none => rfl
  | some s =>
    rw [checkHandoff]
    split_ifs
    · rfl
    · cases s.phase with
      | takenOver => rfl
      | aborted => exact unconfirmed_reportsNothing c
      | _ => exact poll_reportsNothing c attempts

theorem box_call_barrier {s : MoveShared} (h : BarrierFits s) {b : BoxProgress}
    (hb : PartyFits s (.oldBox b)) (ticks : List Nat) (stk : Text) (outside : MigrationElsewhere)
    (disk : BoxDisk) :
    BarrierFits (afterBox s ticks stk (b.call outside s.tables.tables disk)) ∧
      PartyFits (afterBox s ticks stk (b.call outside s.tables.tables disk))
        (.oldBox (b.call outside s.tables.tables disk).1) := by
  cases b with
  | hasMarker stk' =>
    refine ⟨h.quiet ticks stk _ _,partyFits_oldBox ?_⟩
    simp only [BoxProgress.call]
    split_ifs <;> rfl
  | fetchOrder stk' staged => exact ⟨h.quiet ticks stk _ _,checkOrder_fits rfl outside stk' staged⟩
  | clearStage c => exact ⟨h.quiet ticks stk _ _,closeOut_fits hb⟩
  | backupFlush c =>
    refine ⟨h.box ?_ ?_ (h.each.append trivial),?_⟩
    · exact fun _ _ hmem => absurd hmem List.not_mem_nil
    · intro stk' deposit order hmem
      cases List.mem_singleton.mp hmem
      exact hb
    · exact fun _ => ⟨c.order,List.mem_append_right _ (List.mem_singleton_self _)⟩
  | reportEpoch c backedUp =>
    refine ⟨h.box ?_ ?_ h.each_nil,trivial⟩
    · intro stk' deposit hmem
      cases List.mem_singleton.mp hmem
      exact hb rfl
    · exact fun _ _ _ hmem => absurd hmem List.not_mem_nil
  | releaseRouting c =>
    exact ⟨h.quiet ticks stk _ _,partyFits_oldBox (applyDisposition_reportsNothing c)⟩
  | wipeContent c =>
    refine ⟨h.box ?_ ?_ (h.each.append trivial),trivial⟩
    · exact fun _ _ hmem => absurd hmem List.not_mem_nil
    · intro stk' deposit order hmem
      cases List.mem_singleton.mp hmem
  | pollMigration c attempts =>
    exact ⟨h.quiet ticks stk _ _,partyFits_oldBox (checkHandoff_reportsNothing c attempts _)⟩
  | pollReplacement c =>
    refine ⟨h.quiet ticks stk _ _,partyFits_oldBox ?_⟩
    simp only [BoxProgress.call]
    split_ifs
    · rfl
    · exact unconfirmed_reportsNothing c
  | postAckOld c wiped =>
    refine ⟨h.box ?_ ?_ h.each_nil,trivial⟩
    · intro stk' deposit hmem
      cases List.mem_singleton.mp hmem
    · exact fun _ _ _ hmem => absurd hmem List.not_mem_nil
  | _ => exact ⟨h.quiet ticks stk _ _,trivial⟩

theorem call_barrier {s : MoveShared} (h : BarrierFits s) {p : MigrationProgress} (ticks : List Nat)
    (now : Nat → Int) (outside : MigrationElsewhere)
    (hreport : ∀ stk row,p = .markEpochComplete stk → s.tables.tables.evictions stk = some row →
      Flushed s.history stk (s.tables.tables.deposits stk))
    (hrebind : ∀ k deposit,p = .rebind k deposit →
      Flushed s.history k.session.oldStkPubHex
        (s.tables.tables.deposits k.session.oldStkPubHex)) :
    BarrierFits (afterCall s ticks (p.call host now outside s.tables.tables).2.1
        (p.call host now outside s.tables.tables).2.2) ∧
      PartyFits (afterCall s ticks (p.call host now outside s.tables.tables).2.1
        (p.call host now outside s.tables.tables).2.2)
        (.control (p.call host now outside s.tables.tables).1) := by
  have hrows := call_rows host p now outside s.tables.tables
  have hevents := call_events host p now outside s.tables.tables
  refine ⟨?_,?_⟩
  · generalize (p.call host now outside s.tables.tables).2.2 = events at hevents
    refine h.rows hrows rfl rfl hreport ?_ ?_
    · intro stk deposit order hmem
      cases hevents <;> simp at hmem
    · cases hevents with
      | nothing p => exact h.each_nil
      | tookOver p time auto box => exact h.each.append trivial
      | confirmed p => exact h.each.append trivial
      | rebound k deposit =>
        exact h.each.append (backedUpBefore_rebound h (hrebind k deposit rfl))
  · by_cases hbarrier : ∃ k,p = .getEviction k
    · obtain ⟨k,rfl⟩ := hbarrier
      change PartyFits _ (.control (checkBarrier k s.tables.tables))
      rcases checkBarrier_spec k s.tables.tables with hrefused | ⟨row,hrow,hreported,hgoes⟩
      · refine partyFits_control ?_
        cases hp : checkBarrier k s.tables.tables with
        | rebind k' deposit =>
          rw [hp] at hrefused
          cases hrefused
        | _ => rfl
      · rw [hgoes]
        exact (h.reported _ row hrow hreported).append []
    · exact partyFits_control
        (call_not_rebind host (fun k hk => hbarrier ⟨k,hk⟩) now outside s.tables.tables)

theorem advance_barrier {s : MoveShared} (h : BarrierFits s) {p : MigrationProgress}
    (ticks : List Nat) (now : Nat → Int) (outside : MigrationElsewhere)
    (hreport : ∀ stk row,outside.outcome = .goes → p = .markEpochComplete stk →
      s.tables.tables.evictions stk = some row →
      Flushed s.history stk (s.tables.tables.deposits stk))
    (hrebind : ∀ k deposit,outside.outcome = .goes → p = .rebind k deposit →
      Flushed s.history k.session.oldStkPubHex
        (s.tables.tables.deposits k.session.oldStkPubHex)) :
    BarrierFits (afterCall s ticks (p.advance host now outside s.tables.tables).2.1
        (p.advance host now outside s.tables.tables).2.2) ∧
      PartyFits (afterCall s ticks (p.advance host now outside s.tables.tables).2.1
        (p.advance host now outside s.tables.tables).2.2)
        (.control (p.advance host now outside s.tables.tables).1) ∧
      ∃ may,RowsOn may s.tables.tables (p.advance host now outside s.tables.tables).2.1 := by
  have hbroken : ∀ outcome,BarrierFits (afterCall s ticks s.tables.tables []) ∧
      PartyFits (afterCall s ticks s.tables.tables []) (.control (p.broken outcome)) ∧
      ∃ may,RowsOn may s.tables.tables s.tables.tables := by
    intro outcome
    have hsame : RowsOn (fun _ => False) s.tables.tables s.tables.tables := .same rfl rfl
    refine ⟨?_,partyFits_control (broken_not_rebind p outcome),_,hsame⟩
    exact h.rows hsame rfl rfl (fun _ _ hfalse => hfalse.elim)
      (fun _ _ _ => List.not_mem_nil) h.each_nil
  rw [MigrationProgress.advance]
  cases houtcome : outside.outcome with
  | goes =>
    obtain ⟨hfits,hparty⟩ := call_barrier (p := p) h ticks now outside
      (fun stk row => hreport stk row houtcome) (fun k deposit => hrebind k deposit houtcome)
    exact ⟨hfits,hparty,_,call_rows host p now outside s.tables.tables⟩
  | fails => exact hbroken .fails
  | stops => exact hbroken .stops

omit [Lowercase] in
theorem box_broken_fits {s s' : MoveShared} (htables : s'.tables.tables = s.tables.tables)
    {b : BoxProgress} (hb : PartyFits s (.oldBox b)) (outcome : Outcome) :
    PartyFits s' (.oldBox (b.broken outcome)) := by
  cases outcome with
  | stops => cases b <;> trivial
  | _ => cases b with
    | clearStage c =>
      have hfits : FitsDeposit s'.tables.tables c.stk c.deposit c.order := by
        rw [htables]
        exact hb
      exact closeOut_fits hfits
    | backupFlush c => exact fun hfalse => absurd hfalse Bool.false_ne_true
    | releaseRouting c => exact partyFits_oldBox (applyDisposition_reportsNothing c)
    | pollMigration c attempts => exact partyFits_oldBox (poll_reportsNothing c attempts)
    | pollReplacement c => exact partyFits_oldBox (unconfirmed_reportsNothing c)
    | _ => trivial

theorem box_barrier {s : MoveShared} (h : BarrierFits s) {b : BoxProgress}
    (hb : PartyFits s (.oldBox b)) (ticks : List Nat) (stk : Text) (outside : MigrationElsewhere)
    (disk : BoxDisk) :
    BarrierFits (afterBox s ticks stk (b.advance outside s.tables.tables disk)) ∧
      PartyFits (afterBox s ticks stk (b.advance outside s.tables.tables disk))
        (.oldBox (b.advance outside s.tables.tables disk).1) := by
  have hbroken : ∀ outcome,BarrierFits (afterBox s ticks stk (b.broken outcome,disk,[],[])) ∧
      PartyFits (afterBox s ticks stk (b.broken outcome,disk,[],[]))
        (.oldBox (b.broken outcome)) := by
    intro outcome
    refine ⟨h.quiet ticks stk _ _,box_broken_fits ?_ hb outcome⟩
    rfl
  rw [BoxProgress.advance]
  cases outside.outcome with
  | goes => exact box_call_barrier h hb ticks stk outside disk
  | fails => exact hbroken .fails
  | stops => exact hbroken .stops

omit [Lowercase] in
theorem flushed_of_backedUpNow {w : MigrationState} {stk : Text} (h : backedUpNow w stk = true) :
    Flushed w.shared.history stk (w.shared.tables.tables.deposits stk) := by
  obtain ⟨event,hevent,hmatch⟩ := List.any_eq_true.mp h
  cases event with
  | flushed stk' deposit order =>
    simp only [Bool.and_eq_true,beq_iff_eq] at hmatch
    obtain ⟨rfl,rfl⟩ := hmatch
    exact ⟨order,hevent⟩
  | _ => cases hmatch

theorem accept_fits (s : MoveShared) (now : Nat → Int) (outside : MigrationElsewhere)
    (request : MigrationRequest) : PartyFits s (request.accept host now outside) := by
  cases request with
  | start body =>
    simp only [MigrationRequest.accept]
    cases outside.mailbox <;> trivial
  | attach body =>
    apply partyFits_control
    apply (startAttach_spec host now body).not_rebind
    rintro _ ⟨a,rfl⟩
    rfl
  | ack phase body =>
    apply partyFits_control
    apply (startAck_spec host now phase body).not_rebind
    rintro _ ⟨a,rfl⟩
    rfl
  | control action body =>
    simp only [MigrationRequest.accept]
    cases outside.mailbox <;> trivial
  | epochComplete stk =>
    apply partyFits_control
    apply (startMark_spec .epochComplete .markEpochComplete stk).not_rebind
    rintro _ ⟨stk',rfl⟩
    rfl
  | ackOld stk =>
    apply partyFits_control
    apply (startMark_spec .ackOld .markOldAcked stk).not_rebind
    rintro _ ⟨stk',rfl⟩
    rfl
  | _ => trivial

/-- What holds along a run in which reports stand for backups. -/
def BarrierHeld (w : MigrationState) : Prop :=
  BarrierFits w.shared ∧ ∀ party ∈ w.requests,PartyFits w.shared party

/-- A call of a party, with what is shared after it. -/
theorem party_barrier {w : MigrationState} (hfits : BarrierFits w.shared) {i : Nat}
    {party party' : Party} (hparty : PartyFits w.shared party) {ticks : List Nat}
    {outside : MigrationElsewhere} {world' : MigrationWorld} {events : List MigrationEvent}
    (hi : w.requests[i]? = some party)
    (hc : barrierHolds w (.resume i ticks outside) = true)
    (hadv : party.advance host (reading w.shared.clock ticks) outside w.shared.tables =
      (party',world',events)) :
    BarrierFits (w.shared.after ticks world' events) ∧
      PartyFits (w.shared.after ticks world' events) party' ∧
      ∃ may,RowsOn may w.shared.tables.tables world'.tables := by
  cases party with
  | control p =>
    simp only [Party.advance,Prod.mk.injEq] at hadv
    obtain ⟨rfl,rfl,rfl⟩ := hadv
    refine advance_barrier hfits ticks _ outside ?_ ?_
    · rintro stk row hgoes rfl hrow
      have hflushed : backedUpNow w stk = true := by
        simpa [barrierHolds,hi,hgoes,hrow] using hc
      exact flushed_of_backedUpNow hflushed
    · rintro k deposit hgoes rfl
      have hcases : deposit = w.shared.tables.tables.deposits k.session.oldStkPubHex ∨
          backedUpNow w k.session.oldStkPubHex = true := by
        simpa [barrierHolds,hi,hgoes] using hc
      rcases hcases with hsame | hflushed
      · rw [← hsame]
        exact hparty
      · exact flushed_of_backedUpNow hflushed
  | oldBox b =>
    simp only [Party.advance,Prod.mk.injEq] at hadv
    obtain ⟨rfl,rfl,rfl⟩ := hadv
    obtain ⟨hbox,hbox'⟩ := box_barrier hfits hparty ticks b.stk outside
      (w.shared.tables.disks b.stk)
    exact ⟨hbox,hbox',fun _ => False,.same rfl rfl⟩
  | inFlight k =>
    simp only [Party.advance] at hadv
    cases hsent : w.shared.tables.sent[k]? with
    | none =>
      rw [hsent] at hadv
      cases hadv
      rw [← Shared.later_eq]
      exact ⟨⟨hfits.numbered,hfits.reported,hfits.sent,hfits.each⟩,trivial,fun _ => False,
        .same rfl rfl⟩
    | some message =>
      rw [hsent] at hadv
      simp only [Prod.mk.injEq] at hadv
      obtain ⟨rfl,rfl,rfl⟩ := hadv
      refine advance_barrier hfits ticks _ outside ?_ ?_
      · intro stk row hgoes hprogress hrow
        cases message with
        | ackOld stk' => cases hprogress
        | epochComplete stk' deposit backedUp =>
          cases hprogress
          have hcases : backedUpNow w stk = true ∨ backedUp = true ∧
              deposit = w.shared.tables.tables.deposits stk := by
            simpa [barrierHolds,hi,hgoes,hsent,reportHolds,hrow] using hc
          rcases hcases with hflushed | ⟨rfl,hsame⟩
          · exact flushed_of_backedUpNow hflushed
          · rw [← hsame]
            exact hfits.sent stk deposit (List.mem_of_getElem? hsent)
      · intro k deposit _ hprogress
        cases message <;> cases hprogress

theorem step_barrier {w : MigrationState} (hw : BarrierHeld w)
    (move : Move MigrationRequest MigrationElsewhere) (hc : barrierHolds w move = true) :
    BarrierHeld ((migrationHandlers host).step w move) := by
  refine (migrationHandlers host).step_holds (J := BarrierFits)
    (A := fun party s => PartyFits s party) (fun w move => barrierHolds w move = true)
    ?_ ?_ ?_ ?_ w move hw hc
  · exact fun s ticks hfits => ⟨hfits.numbered,hfits.reported,hfits.sent,hfits.each⟩
  · intro party s ticks hparty
    have hsame : RowsOn (fun _ => False) s.tables.tables s.tables.tables := .same rfl rfl
    exact hparty.on hsame (List.append_nil _).symm
  · exact fun w request ticks outside _ _ => accept_fits _ _ outside request
  · intro w i party ticks outside party' world' events hi hc hfits hparty hadv
    obtain ⟨hfits',hparty',may,hrows⟩ := party_barrier hfits hparty hi hc hadv
    exact ⟨hfits',hparty',fun q _ hq => hq.on hrows rfl⟩

variable (host) in
/-- In every run in which a report is recorded only for a backup that was
completed, of the order that is stored, and no order is stored between the
reading of the report and the rebinding: the name goes to the new box only after
the old one completed the final backup of the order that is stored. -/
theorem name_moves_after_backup {world : MigrationWorld}
    (hrows : ∀ stk row,world.tables.evictions stk = some row → row.epochCompleteAt = none)
    (hsent : world.sent = []) (clock : Int)
    (moves : List (Move MigrationRequest MigrationElsewhere))
    (h : Along (migrationHandlers host).step (fun w move => barrierHolds w move = true)
      (MigrationState.idle world clock) moves) :
    Each BackedUpBefore
      (run (migrationHandlers host).step (MigrationState.idle world clock) moves).shared.history := by
  have hstart : BarrierHeld (MigrationState.idle world clock) := by
    refine ⟨⟨?_,?_,?_,each_nil _⟩,?_⟩
    · intro stk deposit order hmem
      cases hmem
    · intro stk row hrow hreported
      rw [hrows stk row hrow] at hreported
      cases hreported
    · intro stk deposit hmem
      simp only [MigrationState.idle,hsent] at hmem
      cases hmem
    · intro party hparty
      cases hparty
  have hend := Along.invariant (I := BarrierHeld) (fun w move hw hc => step_barrier hw move hc)
    hstart h
  exact hend.1.each

end

/-- Where moves lead once the owner may freeze the old box. -/
def fromReady (moves : List (Move MigrationRequest MigrationElsewhere)) :
    Served MigrationWorld MigrationEvent Party :=
  run (@migrationHandlers asciiLowercase boxName).step
    (MigrationState.idle (movingBox (sessionIn .ready) none) 0) moves

def freezes : Move MigrationRequest MigrationElsewhere :=
  .receive (.freeze ⟨some boxName,some (keyOf 'a'),some true,some .wipeAfterHandoff,some 1,
    some (keyOf '2'),some 0,some signed⟩) [] permits

/-- The old box closes out: it fetches its order and backs up, and reports. -/
def closesOut (backup : Outcome) : List (Move MigrationRequest MigrationElsewhere) :=
  .receive (.closeOut (keyOf 'a')) [] permits :: callsOf 1 3 ++
    .resume 1 [] { permits with outcome := backup } :: callsOf 1 1

/-- The freeze, the closeout of the old box, its report, and the take-over. -/
def frozenAndMoved (backup : Outcome) : List (Move MigrationRequest MigrationElsewhere) :=
  freezes :: callsOf 0 4 ++ closesOut backup ++
    .receive (.deliver 0) [] permits :: callsOf 2 1 ++ takesOver :: callsOf 3 3

theorem name_moves_after_backup_moved :
    .rebound (keyOf 'a') (keyOf 'b') 1 (some retiring) ∈
        (fromReady (frozenAndMoved .goes)).shared.history ∧
      Each BackedUpBefore (fromReady (frozenAndMoved .goes)).shared.history := by
  have halong : Along (@migrationHandlers asciiLowercase boxName).step
      (fun w move => barrierHolds w move = true)
      (MigrationState.idle (movingBox (sessionIn .ready) none) 0) (frozenAndMoved .goes) := by
    decide +kernel
  have hrows : ∀ stk row,(movingBox (sessionIn .ready) none).tables.evictions stk = some row →
      row.epochCompleteAt = none := by
    intro stk row hrow
    simp only [movingBox] at hrow
    by_cases heq : stk = keyOf 'a'
    · rw [heq,Function.update_self] at hrow
      cases hrow
    · rw [Function.update_of_ne heq] at hrow
      cases hrow
  refine ⟨by decide +kernel,?_⟩
  rw [fromReady]
  exact @name_moves_after_backup asciiLowercase boxName _ hrows rfl 0 (frozenAndMoved .goes) halong

/-- The backup fails, the old box reports it all the same, and the name moves. -/
theorem name_moves_without_backup :
    (fromReady (frozenAndMoved .fails)).shared.history =
        [.rebound (keyOf 'a') (keyOf 'b') 1 (some retiring)] ∧
      ¬ Each BackedUpBefore (fromReady (frozenAndMoved .fails)).shared.history := by
  have hhistory : (fromReady (frozenAndMoved .fails)).shared.history =
      [.rebound (keyOf 'a') (keyOf 'b') 1 (some retiring)] := by
    decide +kernel
  refine ⟨hhistory,?_⟩
  intro h
  obtain ⟨order,hmem,_⟩ := h [] _ [] hhistory
  exact absurd hmem List.not_mem_nil

end Flagship.Migration.Proofs

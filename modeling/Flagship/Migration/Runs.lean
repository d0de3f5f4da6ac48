import Flagship.Migration.Handlers

namespace Flagship.Migration
open Lib Control

/-- What a box keeps on its disk: the marker of a closeout that ran, the nonce of
the order one is waiting on, and whether the content is wiped. -/
structure BoxDisk where
  marked : Bool
  awaitingNonce : Option Text
  wiped : Bool
  deriving DecidableEq

/-- A message of an old box to the control plane. With the report of the final
backup stand the number of the order it is for, and whether the backup was
completed; neither is sent. -/
inductive Message
  | epochComplete (stk : Text) (deposit : Nat) (backedUp : Bool)
  | ackOld (stk : Text)
  deriving DecidableEq

/-- A closeout under way: the order it read, with its number. -/
structure Closeout where
  stk : Text
  order : ServerDecommission
  deposit : Nat
  resuming : Bool
  deriving DecidableEq

inductive DecommissionOutcome
  | alreadyDone
  | noOrder
  | rejected
  | wrongStk
  | error
  | decommissioned (disposition : DiskDisposition) (wiped : Bool)
  deriving DecidableEq

/-- `runDecommissionConsumer` before its next call. -/
inductive BoxProgress
  | hasMarker (stk : Text)
  | awaitingConfirmNonce (stk : Text)
  | fetchOrder (stk : Text) (staged : Option Text)
  | clearStage (c : Closeout)
  | backupFlush (c : Closeout)
  | reportEpoch (c : Closeout) (backedUp : Bool)
  | releaseRouting (c : Closeout)
  | wipeContent (c : Closeout)
  /-- `pollMigrationAwareHandoffConfirm`, with the attempts after this one. -/
  | pollMigration (c : Closeout) (attempts : Nat)
  | pollReplacement (c : Closeout)
  | markAwaitingConfirm (c : Closeout)
  | mark (c : Closeout) (wiped : Bool)
  | clearAwaitingConfirm (c : Closeout) (wiped : Bool)
  | postAckOld (c : Closeout) (wiped : Bool)
  | lockAndPower (c : Closeout) (wiped : Bool)
  | finished (outcome : DecommissionOutcome)
  | stopped
  deriving DecidableEq

/-- The attempts the daemon gives the poll. -/
def maxAttempts : Nat := 24

/-- A hand-off that is not confirmed: the data is kept. -/
def unconfirmed (c : Closeout) : BoxProgress :=
  if c.resuming then .finished .error else .markAwaitingConfirm c

/-- The poll while it has attempts left. -/
def poll (c : Closeout) : Nat → BoxProgress
  | 0 => unconfirmed c
  | attempts + 1 => .pollMigration c attempts

/-- Where a closeout goes by the disposition of its order. -/
def applyDisposition (c : Closeout) : BoxProgress :=
  match c.order.diskDisposition with
  | .wipeNow => .wipeContent c
  | .wipeAfterHandoff => poll c maxAttempts
  | .keep => .mark c false

def closeOut (c : Closeout) : BoxProgress :=
  if c.resuming then applyDisposition c
  else if c.order.finalBackup then .backupFlush c
  else .releaseRouting c

section
variable [Lowercase]

/-- The order fetched for this box: it must verify and name the box. -/
def checkOrder (outside : MigrationElsewhere) (stk : Text) (staged : Option Text) (deposit : Nat) :
    Option ServerEvictionRecord → BoxProgress
  | none => .finished .noOrder
  | some row =>
    let resuming := staged == some (toLowercase row.order.nonce)
    if !outside.authorized then .finished .rejected
    else if toLowercase row.order.retiredStkPubHex ≠ stk then .finished .wrongStk
    else if staged.isSome && !resuming then .clearStage ⟨stk,row.order,deposit,false⟩
    else closeOut ⟨stk,row.order,deposit,resuming⟩

/-- One attempt of the poll: only a taken-over session of this box confirms. -/
def checkHandoff (c : Closeout) (attempts : Nat) : Option ServerMigrationRecord → BoxProgress
  | none => .pollReplacement c
  | some s =>
    if toLowercase s.oldStkPubHex ≠ c.stk then .pollReplacement c
    else match s.phase with
    | .takenOver => .wipeContent c
    | .aborted => unconfirmed c
    | _ => poll c attempts

/-- A call that fails, or a box that stops before it: every failure is logged and
passed over, but for that of the fetch. -/
def BoxProgress.broken (b : BoxProgress) (outcome : Outcome) : BoxProgress :=
  match b,outcome with
  | .finished outcome,_ => .finished outcome
  | _,.stops => .stopped
  | .hasMarker stk,_ => .awaitingConfirmNonce stk
  | .awaitingConfirmNonce stk,_ => .fetchOrder stk none
  | .fetchOrder _ _,_ => .finished .error
  | .clearStage c,_ => closeOut c
  | .backupFlush c,_ => .reportEpoch c false
  | .reportEpoch c _,_ => .releaseRouting c
  | .releaseRouting c,_ => applyDisposition c
  | .wipeContent c,_ => .mark c false
  | .pollMigration c attempts,_ => poll c attempts
  | .pollReplacement c,_ => unconfirmed c
  | .markAwaitingConfirm c,_ => .lockAndPower c false
  | .mark c wiped,_ => .postAckOld c wiped
  | .clearAwaitingConfirm c wiped,_ => .postAckOld c wiped
  | .postAckOld c wiped,_ => .lockAndPower c wiped
  | .lockAndPower c wiped,_ =>
    .finished (.decommissioned c.order.diskDisposition wiped)
  | .stopped,_ => .stopped

/-- A call of the box that goes through: what it leaves on the disk, and what it
sends. -/
def BoxProgress.call (outside : MigrationElsewhere) (b : BoxProgress) (t : MigrationTables)
    (disk : BoxDisk) : BoxProgress × BoxDisk × List Message × List MigrationEvent :=
  match b with
  | .hasMarker stk =>
    (if disk.marked then .finished .alreadyDone else .awaitingConfirmNonce stk,disk,[],[])
  | .awaitingConfirmNonce stk =>
    (.fetchOrder stk (disk.awaitingNonce.map toLowercase),disk,[],[])
  | .fetchOrder stk staged =>
    (checkOrder outside stk staged (t.deposits stk) (t.evictions stk),disk,[],[])
  | .clearStage c => (closeOut c,{ disk with awaitingNonce := none },[],[])
  | .backupFlush c => (.reportEpoch c true,disk,[],[.flushed c.stk c.deposit c.order])
  | .reportEpoch c backedUp =>
    (.releaseRouting c,disk,[.epochComplete c.stk c.deposit backedUp],[])
  | .releaseRouting c => (applyDisposition c,disk,[],[])
  | .wipeContent c => (.mark c true,{ disk with wiped := true },[],[.wiped c.stk])
  | .pollMigration c attempts => (checkHandoff c attempts t.session,disk,[],[])
  | .pollReplacement c =>
    (if outside.restored then .wipeContent c else unconfirmed c,disk,[],[])
  | .markAwaitingConfirm c =>
    (.lockAndPower c false,{ disk with awaitingNonce := some c.order.nonce },[],[])
  | .mark c wiped => (.clearAwaitingConfirm c wiped,{ disk with marked := true },[],[])
  | .clearAwaitingConfirm c wiped =>
    (.postAckOld c wiped,{ disk with awaitingNonce := none },[],[])
  | .postAckOld c wiped => (.lockAndPower c wiped,disk,[.ackOld c.stk],[])
  | .lockAndPower c wiped =>
    (.finished (.decommissioned c.order.diskDisposition wiped),disk,[],[])
  | .finished outcome => (.finished outcome,disk,[],[])
  | .stopped => (.stopped,disk,[],[])

end

/-- The tables of the control plane, the disks of the boxes by their keys, and
the messages the boxes have sent. -/
structure MigrationWorld where
  tables : MigrationTables
  disks : Text → BoxDisk
  sent : List Message

/-- What goes on at one time: a request at the control plane, an old box at its
closeout, and a message on its way. -/
inductive Party
  | control (p : MigrationProgress)
  | oldBox (b : BoxProgress)
  | inFlight (k : Nat)
  deriving DecidableEq

/-- What can come up. The new box has no part of its own in it: what it does is
to send an attach or a report, and anyone may try that. -/
inductive MigrationRequest
  | start (body : Option StartFields)
  | attach (body : Option AttachFields)
  | ack (phase : AckPhase) (body : Option AckFields)
  | control (action : ControlAction) (body : Option ControlFields)
  | freeze (body : DecommissionBody)
  | decommission (body : DecommissionBody)
  | epochComplete (stk : Option Text)
  | ackOld (stk : Option Text)
  | ackNew
  /-- A message of an old box arrives, for the first time or again. -/
  | deliver (k : Nat)
  /-- An old box polls for its order. -/
  | closeOut (stk : Text)
  deriving DecidableEq

abbrev MigrationState := Served MigrationWorld MigrationEvent Party

def MigrationState.idle (world : MigrationWorld) (clock : Int) : MigrationState :=
  ⟨⟨world,clock,[]⟩,[]⟩

/-- The box a progress is of. -/
def BoxProgress.stk : BoxProgress → Text
  | .hasMarker stk => stk
  | .awaitingConfirmNonce stk => stk
  | .fetchOrder stk _ => stk
  | .clearStage c => c.stk
  | .backupFlush c => c.stk
  | .reportEpoch c _ => c.stk
  | .releaseRouting c => c.stk
  | .wipeContent c => c.stk
  | .pollMigration c _ => c.stk
  | .pollReplacement c => c.stk
  | .markAwaitingConfirm c => c.stk
  | .mark c _ => c.stk
  | .clearAwaitingConfirm c _ => c.stk
  | .postAckOld c _ => c.stk
  | .lockAndPower c _ => c.stk
  | .finished _ => []
  | .stopped => []

/-- The request a message is. -/
def Message.progress : Message → MigrationProgress
  | .epochComplete stk _ _ => .markEpochComplete stk
  | .ackOld stk => .markOldAcked stk

section
variable [Lowercase] (host : Text)

/-- A request at the control plane, before its first storage call. -/
def MigrationRequest.accept (now : Nat → Int) (outside : MigrationElsewhere) :
    MigrationRequest → Party
  | .start body => .control (match outside.mailbox with
    | none => .answered .start .mailboxRefused
    | some username => .startServer body username (now 0))
  | .attach body => .control (startAttach host now body)
  | .ack phase body => .control (startAck host now phase body)
  | .control action body => .control (match outside.mailbox with
    | none => .answered (.control action) .mailboxRefused
    | some username => .controlServer action body username (now 0))
  | .freeze body => .control (.freezeSession body (now 0))
  | .decommission body => .control (.evictServer none body (now 0))
  | .epochComplete stk => .control (startMark .epochComplete .markEpochComplete stk)
  | .ackOld stk => .control (startMark .ackOld .markOldAcked stk)
  | .ackNew => .control .ackNew
  | .deliver k => .inFlight k
  | .closeOut stk => .oldBox (.hasMarker (toLowercase stk))

/-- A call of a request at the control plane. -/
def MigrationProgress.advance (now : Nat → Int) (outside : MigrationElsewhere)
    (p : MigrationProgress) (t : MigrationTables) :
    MigrationProgress × MigrationTables × List MigrationEvent :=
  match outside.outcome with
  | .goes => p.call host now outside t
  | outcome => (p.broken outcome,t,[])

/-- A call of an old box. -/
def BoxProgress.advance (outside : MigrationElsewhere) (b : BoxProgress) (t : MigrationTables)
    (disk : BoxDisk) : BoxProgress × BoxDisk × List Message × List MigrationEvent :=
  match outside.outcome with
  | .goes => b.call outside t disk
  | outcome => (b.broken outcome,disk,[],[])

def Party.advance (now : Nat → Int) (outside : MigrationElsewhere) (party : Party)
    (w : MigrationWorld) : Party × MigrationWorld × List MigrationEvent :=
  match party with
  | .control p =>
    let (p',t',events) := p.advance host now outside w.tables
    (.control p',{ w with tables := t' },events)
  | .oldBox b =>
    let (b',disk,sent,events) := b.advance outside w.tables (w.disks b.stk)
    (.oldBox b',⟨w.tables,Function.update w.disks b.stk disk,w.sent ++ sent⟩,events)
  | .inFlight k => match w.sent[k]? with
    | none => (.inFlight k,w,[])
    | some message =>
      let (p',t',events) := message.progress.advance host now outside w.tables
      (.control p',{ w with tables := t' },events)

/-- The handlers of the control plane and the old boxes, for the server of one
name, given in lower case. -/
def migrationHandlers : Handlers MigrationWorld MigrationEvent Party MigrationRequest
    MigrationElsewhere where
  accept := fun now outside request => request.accept host now outside
  advance := fun now outside party w => party.advance host now outside w

/-- The key the directory names for the server. -/
def MigrationTables.identity (t : MigrationTables) : Option Text :=
  (t.servers host).map (·.identityPubKeyHex)

/-- The session stands in one of the phases. -/
def MigrationTables.inPhase (t : MigrationTables) (phases : List Phase) : Bool :=
  t.session.all fun s => phases.contains s.phase

/-- A write that finds the session where its request left it, or already where
the write takes it. An abort finds the name with the old box too. -/
def writesOnward (t : MigrationTables) : MigrationProgress → Bool
  | .attachNewBox newServerDomain newStkPubHex _ => t.inPhase [.initiated] ||
      t.inPhase [.provisioned] &&
        t.session.all fun s => s.attached == (some newServerDomain,some newStkPubHex)
  | .markPreSeeded _ => t.inPhase [.provisioned,.preSeeded]
  | .markReady _ => t.inPhase [.preSeeded,.ready]
  | .markFreeze _ => t.inPhase [.ready,.freezing]
  | .rebind _ _ => t.inPhase [.freezing,.takenOver]
  | .markTakenOver _ => t.inPhase [.freezing,.takenOver]
  | .markAborted _ _ => !t.inPhase [.takenOver] &&
      t.session.all fun s => (t.identity host).map toLowercase == some s.oldStkPubHex
  | _ => true

/-- A move of one session: nobody starts another, and every write is made where
it takes the session onward. -/
def movesOnward (w : MigrationState) : Move MigrationRequest MigrationElsewhere → Bool
  | .receive (.start _) _ _ => false
  | .receive _ _ _ => true
  | .resume i _ outside => match w.requests[i]? with
    | some (.control p) => outside.outcome != .goes || writesOnward host w.shared.tables.tables p
    | _ => true

/-- How far a phase is on the way. A move ends in one of two. -/
def Phase.rank : Phase → Nat
  | .initiated => 0
  | .provisioned => 1
  | .preSeeded => 2
  | .ready => 3
  | .freezing => 4
  | .takenOver => 5
  | .aborted => 5

def Phase.Onward (p q : Phase) : Prop := p = q ∨ p.rank < q.rank

/-- A request by this route was answered ok. -/
def answeredOk (w : MigrationState) (asked : Asked) : Prop :=
  ∃ phase recorded,.control (.answered asked (.ok phase recorded)) ∈ w.requests

/-- What one state says of a later one: the phase is no earlier; what ended the
move before ends it still, with the name at the box it left it at; and an
attached box is the attached one. -/
structure EndsOneWay (w w' : MigrationState) : Prop where
  phase : ∃ s s',w.shared.tables.tables.session = some s ∧
    w'.shared.tables.tables.session = some s' ∧ s.phase.Onward s'.phase ∧
    s'.oldStkPubHex = s.oldStkPubHex
  aborted : answeredOk w (.control .abort) → ∃ s,w'.shared.tables.tables.session = some s ∧
    s.phase = .aborted ∧
    (w'.shared.tables.tables.identity host).map toLowercase = some s.oldStkPubHex
  takenOver : answeredOk w (.ack .takeOver) → ∃ s,w'.shared.tables.tables.session = some s ∧
    s.phase = .takenOver ∧ s.newStkPubHex.isSome = true ∧
    w'.shared.tables.tables.identity host = s.newStkPubHex
  attached : answeredOk w .attach → ∃ s s',w.shared.tables.tables.session = some s ∧
    w'.shared.tables.tables.session = some s' ∧ s'.attached = s.attached

/-- A report that is answered as recorded already: it comes from the attached box
and finds the phase taken-over. -/
def repeatsTakeOver (outside : MigrationElsewhere) (a : AckFields) (t : MigrationTables) : Bool :=
  outside.authorized && t.session.any fun s =>
    s.phase == .takenOver && s.newStkPubHex == some (toLowercase a.stkPubHex)

/-- A move of take-over requests that leaves no take-over half done: no report is
taken for a repeated one before a request has confirmed the successor, and no
call about the leases fails. -/
def takesOverWhole (w : MigrationState) : Move MigrationRequest MigrationElsewhere → Bool
  | .receive (.ack .takeOver _) _ _ => true
  | .receive _ _ _ => false
  | .resume i _ outside => match w.requests[i]? with
    | some (.control (.ackSession _ a _)) => outside.outcome != .goes ||
        !repeatsTakeOver outside a w.shared.tables.tables || w.shared.history.contains .confirmed
    | some (.control (.listAuto _)) => outside.outcome != .fails
    | some (.control (.revokeAuto _ _ _)) => outside.outcome != .fails
    | some (.control (.listSealed _)) => outside.outcome != .fails
    | some (.control (.revokeSealed _ _ _)) => outside.outcome != .fails
    | _ => true

/-- What a take-over leaves behind: the name at the attached box, no lease of those
there were when the phase became taken-over, and the successor confirmed to the
old box. -/
structure TookOverWhole (w : MigrationState) : Prop where
  named : ∃ s,w.shared.tables.tables.session = some s ∧ s.newStkPubHex.isSome = true ∧
    w.shared.tables.tables.identity host = s.newStkPubHex
  happened : ∃ time auto box,.tookOver time auto box ∈ w.shared.history
  revoked : ∀ time auto box,.tookOver time auto box ∈ w.shared.history →
    (∀ l ∈ auto,l ∉ w.shared.tables.tables.autoLeases) ∧
    ∀ l ∈ box,l ∉ w.shared.tables.tables.sealedLeases
  confirmed : ∃ s row,w.shared.tables.tables.session = some s ∧
    w.shared.tables.tables.evictions s.oldStkPubHex = some row ∧ row.newAckedAt.isSome = true

/-- The old box has completed the final backup of the order it has now. -/
def backedUpNow (w : MigrationState) (stk : Text) : Bool :=
  w.shared.history.any fun
    | .flushed stk' deposit _ => stk' == stk && deposit == w.shared.tables.tables.deposits stk
    | _ => false

/-- A report that is recorded only where the backup it stands for was completed:
there is no order, or the backup of the stored one is done, or the report is of
that order and was sent after its backup. -/
def reportHolds (w : MigrationState) : Message → Bool
  | .epochComplete stk deposit backedUp => (w.shared.tables.tables.evictions stk).isNone ||
      backedUpNow w stk || backedUp && deposit == w.shared.tables.tables.deposits stk
  | .ackOld _ => true

/-- A move after which a recorded report stands for a backup of the stored order:
nobody reports one that was not completed, and no order is stored between the
reading of the report and the rebinding of the name. -/
def barrierHolds (w : MigrationState) : Move MigrationRequest MigrationElsewhere → Bool
  | .receive _ _ _ => true
  | .resume i _ outside => outside.outcome != .goes || match w.requests[i]? with
    | some (.control (.markEpochComplete stk)) =>
        (w.shared.tables.tables.evictions stk).isNone || backedUpNow w stk
    | some (.inFlight k) => w.shared.tables.sent[k]?.all (reportHolds w)
    | some (.control (.rebind k deposit)) =>
        deposit == w.shared.tables.tables.deposits k.session.oldStkPubHex ||
          backedUpNow w k.session.oldStkPubHex
    | _ => true

/-- The name is bound to a new box only after the old one completed the final
backup of the order stored last, which is the one stored now. -/
def BackedUpBefore (before : List MigrationEvent) : MigrationEvent → Prop
  | .rebound oldStk _ deposit stored => ∃ order,.flushed oldStk deposit order ∈ before ∧
      ∀ o,stored = some o → o = order
  | _ => True

end
end Flagship.Migration

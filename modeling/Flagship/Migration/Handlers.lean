import Mathlib.Data.List.Sort
import Mathlib.Algebra.Order.Ring.Rat
import Flagship.Control.Directory
import Flagship.Lib.Interleave

namespace Flagship.Migration
open Lib Control

inductive Phase
  | initiated
  | provisioned
  | preSeeded
  | ready
  | freezing
  | takenOver
  | aborted
  deriving DecidableEq

/-- `ACTIVE_PHASES` -/
def Phase.active : Phase → Bool
  | .takenOver => false
  | .aborted => false
  | _ => true

inductive DiskDisposition
  | keep
  | wipeAfterHandoff
  | wipeNow
  deriving DecidableEq

structure ServerMigrationOrder where
  serverDomain : Text
  oldStkPubHex : Text
  diskDisposition : DiskDisposition
  nonce : Text
  issuedAt : Rat
  deriving DecidableEq

/-- The row of `server_migrations` of one server, its order read back from JSON. -/
structure ServerMigrationRecord where
  username : Text
  oldStkPubHex : Text
  order : ServerMigrationOrder
  orderSignatureHex : Text
  disposition : DiskDisposition
  phase : Phase
  initiatedAt : Int
  newServerDomain : Option Text
  newStkPubHex : Option Text
  attachedAt : Option Int
  preSeededAt : Option Int
  readyAt : Option Int
  freezeAt : Option Int
  takenOverAt : Option Int
  abortedAt : Option Int
  deriving DecidableEq

/-- The box a session is attached to. -/
def ServerMigrationRecord.attached (s : ServerMigrationRecord) : Option Text × Option Text :=
  (s.newServerDomain,s.newStkPubHex)

def ServerMigrationRecord.attachNewBox (s : ServerMigrationRecord)
    (newServerDomain newStkPubHex : Text) (time : Int) : ServerMigrationRecord :=
  { s with
    newServerDomain := some newServerDomain
    newStkPubHex := some newStkPubHex
    attachedAt := some time
    phase := .provisioned }

def ServerMigrationRecord.markPreSeeded (s : ServerMigrationRecord) (time : Int) :
    ServerMigrationRecord :=
  { s with preSeededAt := some time,phase := .preSeeded }

def ServerMigrationRecord.markReady (s : ServerMigrationRecord) (time : Int) :
    ServerMigrationRecord :=
  { s with readyAt := some time,phase := .ready }

def ServerMigrationRecord.markFreeze (s : ServerMigrationRecord) (time : Int) :
    ServerMigrationRecord :=
  { s with freezeAt := some time,phase := .freezing }

def ServerMigrationRecord.markTakenOver (s : ServerMigrationRecord) (time : Int) :
    ServerMigrationRecord :=
  { s with takenOverAt := some time,phase := .takenOver }

def ServerMigrationRecord.markAborted (s : ServerMigrationRecord) (time : Int) :
    ServerMigrationRecord :=
  { s with abortedAt := some time,phase := .aborted }

structure ServerDecommission where
  podCanonical : Text
  retiredStkPubHex : Text
  finalBackup : Bool
  diskDisposition : DiskDisposition
  backupEpoch : Rat
  nonce : Text
  issuedAt : Rat
  deriving DecidableEq

/-- A row of `server_evictions` of one server. -/
structure ServerEvictionRecord where
  order : ServerDecommission
  orderSignatureHex : Text
  issuedAt : Rat
  oldAckedAt : Option Int
  newAckedAt : Option Int
  epochCompleteAt : Option Int
  deriving DecidableEq

/-- What `list` and `revoke` read of a row of `auto_unlock_leases`. -/
structure AutoUnlockLease where
  leaseId : Text
  depositedAt : Int
  expiresAt : Int
  deriving DecidableEq

/-- What `list` and `revoke` read of a row of `box_sealed_leases`. -/
structure BoxSealedLease where
  leaseId : Text
  depositedAt : Int
  expiresAt : Int
  maxUses : Option Int
  usesConsumed : Int
  deriving DecidableEq

def AutoUnlockLease.live (l : AutoUnlockLease) (now : Int) : Bool := decide (now < l.expiresAt)

def BoxSealedLease.live (l : BoxSealedLease) (now : Int) : Bool :=
  decide (now < l.expiresAt) && l.maxUses.all fun uses => decide (l.usesConsumed < uses)

def AutoUnlockLease.list (leases : List AutoUnlockLease) (now : Int) : List AutoUnlockLease :=
  (leases.filter (·.live now)).insertionSort fun a b => b.depositedAt ≤ a.depositedAt

def AutoUnlockLease.revoke (leases : List AutoUnlockLease) (leaseId : Text) :
    List AutoUnlockLease :=
  leases.filter (·.leaseId != leaseId)

def BoxSealedLease.list (leases : List BoxSealedLease) (now : Int) : List BoxSealedLease :=
  (leases.filter (·.live now)).insertionSort fun a b => b.depositedAt ≤ a.depositedAt

def BoxSealedLease.revoke (leases : List BoxSealedLease) (leaseId : Text) : List BoxSealedLease :=
  leases.filter (·.leaseId != leaseId)

/-- The tables of the control plane, up to the rows of other servers than the one
that moves: of those only the directory is read. -/
structure MigrationTables where
  servers : Directory
  session : Option ServerMigrationRecord
  /-- By the key of the retired box. -/
  evictions : Text → Option ServerEvictionRecord
  autoLeases : List AutoUnlockLease
  sealedLeases : List BoxSealedLease
  /-- How often an order has been stored for a box. No code reads it. -/
  deposits : Text → Nat

/-- A change of the row of a box, where it has one. -/
def MigrationTables.mark (t : MigrationTables) (stk : Text)
    (f : ServerEvictionRecord → ServerEvictionRecord) : MigrationTables :=
  { t with evictions := Function.update t.evictions stk ((t.evictions stk).map f) }

def MigrationTables.recordEviction (t : MigrationTables) (stk : Text)
    (rec : ServerEvictionRecord) : MigrationTables :=
  { t with
    evictions := Function.update t.evictions stk (some rec)
    deposits := Function.update t.deposits stk (t.deposits stk + 1) }

def MigrationTables.deleteEviction (t : MigrationTables) (stk : Text) : MigrationTables :=
  { t with evictions := Function.update t.evictions stk none }

def MigrationTables.markEpochComplete (t : MigrationTables) (stk : Text) (time : Int) :
    MigrationTables :=
  t.mark stk fun r => { r with epochCompleteAt := some time }

def MigrationTables.markOldAcked (t : MigrationTables) (stk : Text) (time : Int) :
    MigrationTables :=
  t.mark stk fun r => { r with oldAckedAt := some time }

/-- The successor confirms every row of the server at once. -/
def MigrationTables.markNewAcked (t : MigrationTables) (time : Int) : MigrationTables :=
  { t with evictions := fun stk => (t.evictions stk).map fun r =>
      { r with newAckedAt := some time } }

structure StartFields where
  order : ServerMigrationOrder
  signature : Text
  deriving DecidableEq

structure AttachFields where
  serverDomain : Text
  newServerDomain : Text
  newStkPubHex : Text
  issuedAt : Rat
  signatureHex : Text
  deriving DecidableEq

/-- The two reports of the new box. -/
inductive AckPhase
  | preSeeded
  | takeOver
  deriving DecidableEq

structure AckFields where
  serverDomain : Text
  stkPubHex : Text
  issuedAt : Rat
  signatureHex : Text
  deriving DecidableEq

inductive ControlAction
  | confirmReady
  | abort
  deriving DecidableEq

structure ControlFields where
  serverDomain : Text
  nonce : Text
  issuedAt : Rat
  signature : Text
  deriving DecidableEq

/-- A decommission deposit, each field as far as it has the type it must have. -/
structure DecommissionBody where
  podCanonical : Option Text
  retiredStkPubHex : Option Text
  finalBackup : Option Bool
  diskDisposition : Option DiskDisposition
  backupEpoch : Option Rat
  nonce : Option Text
  issuedAt : Option Rat
  signature : Option Text
  deriving DecidableEq

/-- The order and the signature of a body that has all its fields. -/
def DecommissionBody.order (b : DecommissionBody) : Option (ServerDecommission × Text) := do
  let order : ServerDecommission :=
    ⟨← b.podCanonical,← b.retiredStkPubHex,← b.finalBackup,← b.diskDisposition,
      ← b.backupEpoch,← b.nonce,← b.issuedAt⟩
  return (order,← b.signature)

/-- The route a request came by. -/
inductive Asked
  | start
  | attach
  | ack (phase : AckPhase)
  | control (action : ControlAction)
  | freeze
  | decommission
  | epochComplete
  | ackOld
  | ackNew
  deriving DecidableEq

inductive MigrationAnswer
  | malformed (reason : String)
  | forbidden (reason : String)
  | notFound (reason : String)
  | conflict (reason : String)
  /-- The answer of `authPhoneMailbox`. -/
  | mailboxRefused
  | ok (phase : Option Phase) (alreadyRecorded : Bool)
  deriving DecidableEq

/-- What a take-over holds once its report is verified: the session as it read
it, the key of the attached box in it, and its reading of the clock. -/
structure TakingOver where
  session : ServerMigrationRecord
  newStkPubHex : Text
  time : Int
  deriving DecidableEq

/-- A request before its next storage call, with what it has read so far. -/
inductive MigrationProgress
  | startServer (body : Option StartFields) (username : Text) (time : Int)
  | startSession (body : StartFields) (username : Text) (time : Int)
  | putSession (rec : ServerMigrationRecord)
  | attachSession (a : AttachFields) (time : Int)
  | attachServer (a : AttachFields) (session : ServerMigrationRecord) (time : Int)
  | attachNewBox (newServerDomain newStkPubHex : Text) (time : Int)
  | ackSession (phase : AckPhase) (a : AckFields) (time : Int)
  | markPreSeeded (time : Int)
  | getEviction (k : TakingOver)
  /-- The rebinding of the name, by a request that read the barrier when so many
  orders had been stored for the old box. -/
  | rebind (k : TakingOver) (deposit : Nat)
  | markTakenOver (k : TakingOver)
  | listAuto (k : TakingOver)
  | revokeAuto (k : TakingOver) (leaseId : Text) (others : List Text)
  | listSealed (k : TakingOver)
  | revokeSealed (k : TakingOver) (leaseId : Text) (others : List Text)
  | markNewAcked (k : TakingOver)
  | controlServer (action : ControlAction) (body : Option ControlFields) (username : Text)
      (time : Int)
  | controlSession (action : ControlAction) (time : Int)
  | markReady (time : Int)
  | markAborted (oldStkPubHex : Text) (time : Int)
  | deleteEviction (oldStkPubHex : Text)
  | freezeSession (body : DecommissionBody) (time : Int)
  /-- `handlePostDecommission`, with the phase a freeze has read. -/
  | evictServer (freeze : Option Phase) (body : DecommissionBody) (time : Int)
  | recordEviction (freeze : Option Phase) (order : ServerDecommission) (signature : Text)
      (time : Int)
  | markFreeze (time : Int)
  | markEpochComplete (stk : Text)
  | markOldAcked (stk : Text)
  | ackNew
  | answered (asked : Asked) (answer : MigrationAnswer)
  | stopped
  deriving DecidableEq

/-- What a call brings besides the tables: how it goes, the account the mailbox
credential is for, whether the owner has an account, what the signature checks
say, and how the wait for a restored replacement ends. -/
structure MigrationElsewhere where
  outcome : Outcome
  mailbox : Option Text
  account : Bool
  authorized : Bool
  restored : Bool

inductive MigrationEvent
  /-- The name is bound to the new box, when so many orders had been stored for
  the old one, and this is the one stored now. -/
  | rebound (oldStkPubHex newStkPubHex : Text) (deposit : Nat) (stored : Option ServerDecommission)
  /-- The phase becomes taken-over, while the server has these leases. -/
  | tookOver (time : Int) (auto : List AutoUnlockLease) (box : List BoxSealedLease)
  | confirmed
  /-- The old box has completed the final backup an order asks for. -/
  | flushed (stk : Text) (deposit : Nat) (order : ServerDecommission)
  | wiped (stk : Text)
  deriving DecidableEq

/-- `ACK_FRESHNESS_MS` -/
def ackFreshnessMs : Int := 10 * 60000

def fresh (now : Int) (issuedAt : Rat) : Bool :=
  decide (|(now : Rat) - issuedAt| ≤ (ackFreshnessMs : Rat))

/-- Where a take-over goes on in its list of leases. -/
def nextAuto (k : TakingOver) : List Text → MigrationProgress
  | [] => .listSealed k
  | id :: others => .revokeAuto k id others

def nextSealed (k : TakingOver) : List Text → MigrationProgress
  | [] => .markNewAcked k
  | id :: others => .revokeSealed k id others

section
variable [Lowercase]

def startAttach (host : Text) (now : Nat → Int) : Option AttachFields → MigrationProgress
  | none => .answered .attach (.malformed "malformed attach")
  | some a =>
    if !lowerHexDigits 128 (toLowercase a.signatureHex) then
      .answered .attach (.malformed "malformed attach")
    else if !lowerHexDigits 64 (toLowercase a.newStkPubHex) then
      .answered .attach (.malformed "newStkPubHex must be 32 bytes hex")
    else if toLowercase a.serverDomain ≠ host then
      .answered .attach (.forbidden "attach serverDomain does not match the domain")
    else if !fresh (now 0) a.issuedAt then .answered .attach (.forbidden "stale attach")
    else .attachSession a (now 0)

/-- `verifyNewBoxAck` up to its read of the session. -/
def startAck (host : Text) (now : Nat → Int) (phase : AckPhase) :
    Option AckFields → MigrationProgress
  | none => .answered (.ack phase) (.malformed "malformed ack")
  | some a =>
    if !lowerHexDigits 128 (toLowercase a.signatureHex) then
      .answered (.ack phase) (.malformed "malformed ack")
    else if toLowercase a.serverDomain ≠ host then
      .answered (.ack phase) (.forbidden "ack serverDomain does not match the domain")
    else if !fresh (now 1) a.issuedAt then .answered (.ack phase) (.forbidden "stale ack")
    else .ackSession phase a (now 0)

def startMark (asked : Asked) (mark : Text → MigrationProgress) : Option Text → MigrationProgress
  | none => .answered asked (.malformed "stk must be 32 bytes hex")
  | some stk =>
    if !lowerHexDigits 64 (toLowercase stk) then
      .answered asked (.malformed "stk must be 32 bytes hex")
    else mark (toLowercase stk)

def checkStart (host : Text) (outside : MigrationElsewhere) (body : Option StartFields)
    (username : Text) (time : Int) (reg : Option ServerRecord) : MigrationProgress :=
  match reg with
  | none => .answered .start (.notFound "unknown server")
  | some reg =>
    if toLowercase reg.username ≠ username then
      .answered .start (.forbidden "server belongs to a different account")
    else match body with
    | none => .answered .start (.malformed "malformed order")
    | some b =>
      if b.order.diskDisposition = .wipeNow then
        .answered .start (.malformed "malformed order")
      else if !lowerHexDigits 64 (toLowercase b.order.oldStkPubHex) then
        .answered .start (.malformed "oldStkPubHex must be 32 bytes hex")
      else if !lowerHexDigits 64 (toLowercase b.order.nonce) then
        .answered .start (.malformed "nonce must be 32 bytes hex")
      else if !lowerHexDigits 128 (toLowercase b.signature) then
        .answered .start (.malformed "signature must be 64 bytes hex")
      else if toLowercase b.order.serverDomain ≠ host then
        .answered .start (.forbidden "order serverDomain does not match the domain")
      else if toLowercase b.order.oldStkPubHex ≠ toLowercase reg.identityPubKeyHex then
        .answered .start (.conflict "order oldStkPubHex is not the server's current identity")
      else if !outside.account then .answered .start (.notFound "unknown user")
      else if (hexToBytes b.signature).isNone then .answered .start (.malformed "invalid hex")
      else if !outside.authorized then .answered .start (.forbidden "invalid signature")
      else .startSession b (toLowercase reg.username) time

def newSession (b : StartFields) (username : Text) (time : Int) : ServerMigrationRecord where
  username := username
  oldStkPubHex := toLowercase b.order.oldStkPubHex
  order := b.order
  orderSignatureHex := toLowercase b.signature
  disposition := b.order.diskDisposition
  phase := .initiated
  initiatedAt := time
  newServerDomain := none
  newStkPubHex := none
  attachedAt := none
  preSeededAt := none
  readyAt := none
  freezeAt := none
  takenOverAt := none
  abortedAt := none

def checkExisting (b : StartFields) (username : Text) (time : Int) :
    Option ServerMigrationRecord → MigrationProgress
  | none => .putSession (newSession b username time)
  | some s =>
    if !s.phase.active then .putSession (newSession b username time)
    else if toLowercase s.order.nonce ≠ toLowercase b.order.nonce then
      .answered .start (.conflict "a migration is already in progress for this server")
    else .answered .start (.ok (some s.phase) false)

def checkAttachable (host : Text) (a : AttachFields) (time : Int) :
    Option ServerMigrationRecord → MigrationProgress
  | none => .answered .attach (.notFound "no migration session")
  | some s =>
    if s.phase = .aborted then .answered .attach (.conflict "migration aborted")
    else if toLowercase a.newServerDomain = host then
      .answered .attach (.forbidden "the new box cannot be the migrating server itself")
    else .attachServer a s time

def checkAttach (outside : MigrationElsewhere) (a : AttachFields) (s : ServerMigrationRecord)
    (time : Int) (newReg : Option ServerRecord) : MigrationProgress :=
  match newReg with
  | none => .answered .attach (.notFound "new box is not a registered server")
  | some newReg =>
    if newReg.revoked then .answered .attach (.forbidden "new box registration is revoked")
    else if toLowercase newReg.username ≠ s.username then
      .answered .attach (.forbidden "new box belongs to a different account")
    else if toLowercase newReg.identityPubKeyHex ≠ toLowercase a.newStkPubHex then
      .answered .attach
        (.forbidden "newStkPubHex is not the registered identity of newServerDomain")
    else if !outside.authorized then
      .answered .attach (.forbidden "invalid attach signature")
    else if s.phase ≠ .initiated then
      if s.newStkPubHex = some (toLowercase a.newStkPubHex) then
        .answered .attach (.ok (some s.phase) false)
      else .answered .attach (.conflict "a different box is already attached")
    else .attachNewBox (toLowercase a.newServerDomain) (toLowercase a.newStkPubHex) time

/-- A verified report: pre-seeded is recorded only out of the phase before, and a
take-over goes on only out of the freeze. -/
def recordAck (phase : AckPhase) (s : ServerMigrationRecord) (newStkPubHex : Text) (time : Int) :
    MigrationProgress :=
  match phase with
  | .preSeeded =>
    if s.phase = .provisioned then .markPreSeeded time
    else .answered (.ack .preSeeded) (.ok (some s.phase) true)
  | .takeOver =>
    if s.phase = .takenOver then .answered (.ack .takeOver) (.ok (some .takenOver) true)
    else if s.phase ≠ .freezing then
      .answered (.ack .takeOver) (.conflict "take-over requires the freeze phase")
    else .getEviction ⟨s,newStkPubHex,time⟩

/-- `verifyNewBoxAck` from its read of the session on. -/
def checkAck (outside : MigrationElsewhere) (phase : AckPhase) (a : AckFields) (time : Int) :
    Option ServerMigrationRecord → MigrationProgress
  | none => .answered (.ack phase) (.notFound "no migration session")
  | some s =>
    if s.phase = .aborted then .answered (.ack phase) (.conflict "migration aborted")
    else match present s.newStkPubHex with
    | none => .answered (.ack phase) (.conflict "no box attached to this migration")
    | some newStkPubHex =>
      if toLowercase a.stkPubHex ≠ newStkPubHex then
        .answered (.ack phase) (.forbidden "ack is not from the attached box")
      else if !outside.authorized then
        .answered (.ack phase) (.forbidden "invalid ack signature")
      else recordAck phase s newStkPubHex time

/-- `parseAdminControl` from its read of the directory on, and the check of the
signature. -/
def checkControl (host : Text) (outside : MigrationElsewhere) (action : ControlAction)
    (body : Option ControlFields) (username : Text) (time : Int) (reg : Option ServerRecord) :
    MigrationProgress :=
  match reg with
  | none => .answered (.control action) (.notFound "unknown server")
  | some reg =>
    if toLowercase reg.username ≠ username then
      .answered (.control action) (.forbidden "server belongs to a different account")
    else match body with
    | none => .answered (.control action) (.malformed "malformed control")
    | some c =>
      if !lowerHexDigits 128 (toLowercase c.signature) then
        .answered (.control action) (.malformed "malformed control")
      else if !lowerHexDigits 64 (toLowercase c.nonce) then
        .answered (.control action) (.malformed "nonce must be 32 bytes hex")
      else if toLowercase c.serverDomain ≠ host then
        .answered (.control action)
          (.forbidden "control serverDomain does not match the domain")
      else if !outside.account then .answered (.control action) (.notFound "unknown user")
      else if (hexToBytes c.signature).isNone then
        .answered (.control action) (.malformed "invalid hex")
      else if !outside.authorized then
        .answered (.control action) (.forbidden "invalid signature")
      else .controlSession action time

def checkPhase (action : ControlAction) (time : Int) :
    Option ServerMigrationRecord → MigrationProgress
  | none => .answered (.control action) (.notFound "no migration session")
  | some s => match action with
    | .confirmReady =>
      if s.phase = .ready then .answered (.control .confirmReady) (.ok (some .ready) true)
      else if s.phase ≠ .preSeeded then
        .answered (.control .confirmReady)
          (.conflict "confirm-ready requires a pre-seeded migration")
      else .markReady time
    | .abort =>
      if s.phase = .aborted then .answered (.control .abort) (.ok (some .aborted) true)
      else if s.phase = .takenOver then
        .answered (.control .abort)
          (.conflict "migration already took over — past the point of no return")
      else .markAborted s.oldStkPubHex time

def checkFreeze (body : DecommissionBody) (time : Int) :
    Option ServerMigrationRecord → MigrationProgress
  | none => .answered .freeze (.notFound "no migration session")
  | some s =>
    if s.phase = .aborted then .answered .freeze (.conflict "migration aborted")
    else if s.phase ≠ .ready ∧ s.phase ≠ .freezing then
      .answered .freeze (.conflict "freeze requires a ready migration")
    else if body.retiredStkPubHex.map toLowercase ≠ some s.oldStkPubHex then
      .answered .freeze (.conflict "decommission order does not target the migrating instance")
    else if body.finalBackup ≠ some true then
      .answered .freeze (.conflict "migration freeze requires finalBackup (the final delta)")
    else if body.diskDisposition ≠ some s.disposition then
      .answered .freeze (.conflict "decommission disposition does not match the migration order")
    else .evictServer (some s.phase) body time

/-- The route a deposit came by. -/
def depositAsked (freeze : Option Phase) : Asked :=
  if freeze.isSome then .freeze else .decommission

/-- `handlePostDecommission` up to its write. -/
def checkDeposit (host : Text) (outside : MigrationElsewhere) (freeze : Option Phase)
    (body : DecommissionBody) (time : Int) (reg : Option ServerRecord) : MigrationProgress :=
  match outside.mailbox with
  | none => .answered (depositAsked freeze) .mailboxRefused
  | some username => match reg with
    | none => .answered (depositAsked freeze) (.notFound "unknown server")
    | some reg =>
      if toLowercase reg.username ≠ username then
        .answered (depositAsked freeze) (.forbidden "server belongs to a different account")
      else match body.order with
      | none => .answered (depositAsked freeze) (.malformed "malformed order")
      | some (order,signature) =>
        if !lowerHexDigits 64 (toLowercase order.retiredStkPubHex) then
          .answered (depositAsked freeze) (.malformed "retiredStkPubHex must be 32 bytes hex")
        else if !lowerHexDigits 64 (toLowercase order.nonce) then
          .answered (depositAsked freeze) (.malformed "nonce must be 32 bytes hex")
        else if !lowerHexDigits 128 (toLowercase signature) then
          .answered (depositAsked freeze) (.malformed "signature must be 64 bytes hex")
        else if toLowercase order.podCanonical ≠ host then
          .answered (depositAsked freeze)
            (.forbidden "order podCanonical does not match the domain")
        else if !outside.account then .answered (depositAsked freeze) (.notFound "unknown user")
        else if (hexToBytes signature).isNone then
          .answered (depositAsked freeze) (.malformed "invalid hex")
        else if !outside.authorized then
          .answered (depositAsked freeze) (.forbidden "invalid signature")
        else .recordEviction freeze order signature time

/-- Where a deposit goes on: a freeze stamps the phase unless it read it so. -/
def afterDeposit (freeze : Option Phase) (time : Int) : MigrationProgress :=
  match freeze with
  | none => .answered .decommission (.ok none false)
  | some phase =>
    if phase ≠ .freezing then .markFreeze time
    else .answered .freeze (.ok (some .freezing) false)

/-- The leases there are when a stamp makes the phase taken-over. -/
def MigrationTables.takesOver (t : MigrationTables) (time : Int) : List MigrationEvent :=
  match t.session with
  | none => []
  | some s =>
    if s.phase = .takenOver then []
    else [.tookOver time (t.autoLeases.filter (·.live time)) (t.sealedLeases.filter (·.live time))]

def newEviction (order : ServerDecommission) (signature : Text) : ServerEvictionRecord where
  order := order
  orderSignatureHex := toLowercase signature
  issuedAt := order.issuedAt
  oldAckedAt := none
  newAckedAt := none
  epochCompleteAt := none

/-- A change of the session, where there is one. -/
def MigrationTables.stamp (t : MigrationTables)
    (f : ServerMigrationRecord → ServerMigrationRecord) : MigrationTables :=
  { t with session := t.session.map f }

def checkBarrier (k : TakingOver) (t : MigrationTables) : MigrationProgress :=
  match t.evictions k.session.oldStkPubHex with
  | none => .answered (.ack .takeOver) (.conflict "final delta not flushed yet")
  | some ev =>
    if ev.epochCompleteAt.isNone then
      .answered (.ack .takeOver) (.conflict "final delta not flushed yet")
    else .rebind k (t.deposits k.session.oldStkPubHex)

/-- How a mark of the row of one box is answered. -/
def markAnswer (asked : Asked) (row : Option ServerEvictionRecord) : MigrationProgress :=
  if row.isNone then .answered asked (.notFound "no decommission order")
  else .answered asked (.ok none false)

/-- A call that throws, or a request that stops before it. Of the leases and of
the retracted order a failure is swallowed. -/
def MigrationProgress.broken (p : MigrationProgress) (outcome : Outcome) : MigrationProgress :=
  match p,outcome with
  | .listAuto k,.fails => .listSealed k
  | .revokeAuto k _ others,.fails => nextAuto k others
  | .listSealed k,.fails => .markNewAcked k
  | .revokeSealed k _ others,.fails => nextSealed k others
  | .deleteEviction _,.fails => .answered (.control .abort) (.ok (some .aborted) false)
  | .answered asked answer,_ => .answered asked answer
  | _,_ => .stopped

variable (host : Text)

/-- The storage call a request stands before, when it goes through. -/
def MigrationProgress.call (now : Nat → Int) (outside : MigrationElsewhere)
    (p : MigrationProgress) (t : MigrationTables) :
    MigrationProgress × MigrationTables × List MigrationEvent :=
  match p with
  | .startServer body username time =>
    (checkStart host outside body username time (t.servers host),t,[])
  | .startSession body username time => (checkExisting body username time t.session,t,[])
  | .putSession rec =>
    (.answered .start (.ok (some .initiated) false),{ t with session := some rec },[])
  | .attachSession a time => (checkAttachable host a time t.session,t,[])
  | .attachServer a s time =>
    (checkAttach outside a s time (t.servers (toLowercase a.newServerDomain)),t,[])
  | .attachNewBox newServerDomain newStkPubHex time =>
    (.answered .attach (.ok (some .provisioned) false),
      t.stamp (·.attachNewBox newServerDomain newStkPubHex time),[])
  | .ackSession phase a time => (checkAck outside phase a time t.session,t,[])
  | .markPreSeeded time =>
    (.answered (.ack .preSeeded) (.ok (some .preSeeded) false),t.stamp (·.markPreSeeded time),[])
  | .getEviction k => (checkBarrier k t,t,[])
  | .rebind k _ =>
    (.markTakenOver k,
      { t with servers := t.servers.put host k.session.username k.newStkPubHex k.time },
      [.rebound k.session.oldStkPubHex k.newStkPubHex (t.deposits k.session.oldStkPubHex)
        ((t.evictions k.session.oldStkPubHex).map (·.order))])
  | .markTakenOver k => (.listAuto k,t.stamp (·.markTakenOver k.time),t.takesOver (now 0))
  | .listAuto k => (nextAuto k ((AutoUnlockLease.list t.autoLeases k.time).map (·.leaseId)),t,[])
  | .revokeAuto k id others =>
    (nextAuto k others,{ t with autoLeases := AutoUnlockLease.revoke t.autoLeases id },[])
  | .listSealed k =>
    (nextSealed k ((BoxSealedLease.list t.sealedLeases k.time).map (·.leaseId)),t,[])
  | .revokeSealed k id others =>
    (nextSealed k others,{ t with sealedLeases := BoxSealedLease.revoke t.sealedLeases id },[])
  | .markNewAcked k =>
    (.answered (.ack .takeOver) (.ok (some .takenOver) false),t.markNewAcked k.time,[.confirmed])
  | .controlServer action body username time =>
    (checkControl host outside action body username time (t.servers host),t,[])
  | .controlSession action time => (checkPhase action time t.session,t,[])
  | .markReady time =>
    (.answered (.control .confirmReady) (.ok (some .ready) false),t.stamp (·.markReady time),[])
  | .markAborted oldStk time => (.deleteEviction oldStk,t.stamp (·.markAborted time),[])
  | .deleteEviction oldStk =>
    (.answered (.control .abort) (.ok (some .aborted) false),t.deleteEviction oldStk,[])
  | .freezeSession body time => (checkFreeze body time t.session,t,[])
  | .evictServer freeze body time =>
    (checkDeposit host outside freeze body time (t.servers host),t,[])
  | .recordEviction freeze order signature time =>
    (afterDeposit freeze time,
      t.recordEviction (toLowercase order.retiredStkPubHex) (newEviction order signature),[])
  | .markFreeze time =>
    (.answered .freeze (.ok (some .freezing) false),t.stamp (·.markFreeze time),[])
  | .markEpochComplete stk =>
    (markAnswer .epochComplete (t.evictions stk),t.markEpochComplete stk (now 0),[])
  | .markOldAcked stk => (markAnswer .ackOld (t.evictions stk),t.markOldAcked stk (now 0),[])
  | .ackNew => (.answered .ackNew (.ok none false),t.markNewAcked (now 0),[])
  | .answered asked answer => (.answered asked answer,t,[])
  | .stopped => (.stopped,t,[])

end
end Flagship.Migration

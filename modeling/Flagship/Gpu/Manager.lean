import Flagship.Gpu.Journal
import Flagship.Gpu.Queue

namespace Flagship.Gpu
open Lib

/-- What the runtime says about an allocation's workload. -/
inductive Presence
  | present
  | absent
  | unknown
  deriving DecidableEq

inductive DeviceActivity
  | idle
  | busy (processes : Nat)
  | unknown
  deriving DecidableEq

inductive CleanupOutcome
  | proven
  | unproven (why : Text)
  deriving DecidableEq

structure PartitionRecord where
  id : PartitionId
  cdiName : Text
  deriving DecidableEq

/-- A device of the inventory, as far as what is held of it goes. -/
structure DeviceRecord where
  id : Text
  backend : Backend
  partitioned : Bool
  partitions : List PartitionRecord
  deriving DecidableEq

def DeviceRecord.partition (d : DeviceRecord) (p : PartitionId) : Option PartitionRecord :=
  d.partitions.find? fun r => r.id = p

/-- The answers of the runtime and the providers. -/
structure Surroundings where
  presence : Text → Presence
  provider : Backend → Bool
  observe : DeviceRecord → Option PartitionId → DeviceActivity
  cleanup : DeviceRecord → Option PartitionId → CleanupOutcome

inductive ManagerError
  | journal (e : JournalError)
  | request (why : Text)
  | notApproved (why : Text)
  | queue (e : QueueError)
  deriving DecidableEq

inductive ReserveOutcome
  | reserved (rec : AllocationRecord)
  | noCapacity
  deriving DecidableEq

inductive Settle
  | released
  | quarantined (reason : Text)
  | held (why : Text)
  deriving DecidableEq

inductive ReconcileAction
  | adopted
  | requeued
  | closed
  | settled (settle : Settle)
  deriving DecidableEq

/-- What was learnt and done about devices. -/
inductive Evidence
  | took (id : Text) (policy : Policy) (claims : List DeviceClaim)
  /-- The runtime reported the workload gone. -/
  | absent (id : Text)
  | idle (device : Text) (partition : Option PartitionId)
  /-- A cleanup was reported proven, with nobody else left on what was cleaned, or not. -/
  | cleaned (device : Text) (partition : Option PartitionId) (alone : Bool)
  /-- Maintenance ended the quarantine of a device. -/
  | cleared (device : Text)
  deriving DecidableEq

structure Manager where
  journal : Journal
  queue : FairQueue
  inventory : List DeviceRecord
  generation : Nat
  paused : Bool
  trail : List Evidence

namespace Manager

abbrev Answer (α : Type) := Except ManagerError α × Manager

/-- A write of the journal: what it answers, and the manager after it. -/
def write {α : Type} (m : Manager) (r : Except JournalError (α × Journal)) : Answer α :=
  match r with
  | .ok (a,j) => (.ok a,{ m with journal := j })
  | .error e => (.error (.journal e),m)

/-- Go on with what a call answers; an error ends the calls that wait for it. -/
def andThen {α β : Type} (r : Answer α) (f : α → Manager → Answer β) : Answer β :=
  match r with
  | (.ok a,m) => f a m
  | (.error e,m) => (.error e,m)

def note (m : Manager) (e : List Evidence) : Manager := { m with trail := m.trail ++ e }

def get (m : Manager) (id : Text) : Except ManagerError AllocationRecord :=
  match m.journal.allocations.get? id with
  | some rec => .ok rec
  | none => .error (.journal (.notFound id))

/-- Go on with the record of an allocation. -/
def withRecord {α : Type} (m : Manager) (id : Text) (f : AllocationRecord → Answer α) : Answer α :=
  match m.get id with
  | .ok rec => f rec
  | .error e => (.error e,m)

def device (m : Manager) (id : Text) : Option DeviceRecord :=
  m.inventory.find? fun d => d.id = id

def holdings (m : Manager) (device : Text) : List Holding :=
  Journal.onDevice device m.journal.holdings

/-- An allocation that holds nothing yet fails, and is released. -/
def close (m : Manager) (id : Text) (state : AllocationState) (reason : Text) :
    Answer AllocationRecord :=
  andThen (m.write (m.journal.transition id state .failed (some reason))) fun _ m =>
    m.write (m.journal.finish id .failed .released)

def request (m : Manager) (id : Text) (req : GpuRequest) (secrecy : Bool) : Answer Unit :=
  m.write ((m.journal.create (.new id req secrecy)).map fun j => ((),j))

/-- From requested to admitted, where the owner's approval has nothing against it. -/
def admitted (m : Manager) (id : Text) (why : Option Text) : Answer AllocationRecord :=
  m.withRecord id fun _ =>
    match why with
    | some why => andThen (m.close id .requested why) fun _ m => (.error (.notApproved why),m)
    | none => m.write (m.journal.transition id .requested .admitted none)

/-- Stop the workload; ownership is kept. -/
def drain (m : Manager) (id : Text) (reason : Text) : Answer AllocationRecord :=
  m.withRecord id fun rec =>
    match rec.state with
    | .reserved | .attached | .running =>
      m.write (m.journal.transition id rec.state .draining (some reason))
    | .draining | .failed => (.ok rec,m)
    | other => (.error (.journal (.illegalTransition other .draining)),m)

/-- Stop one allocation wherever it is. -/
def cancel (m : Manager) (id : Text) (reason : Text) : Answer AllocationRecord :=
  m.withRecord id fun rec =>
    let m := { m with queue := (m.queue.remove id).2 }
    match rec.state with
    | .requested | .admitted => m.close id rec.state reason
    | .released | .quarantined => (.ok rec,m)
    | _ => m.drain id reason

/-- Each of the records in turn, until a call fails. -/
def each {α : Type} (f : Manager → AllocationRecord → Answer α) :
    Manager → List AllocationRecord → Answer (List (Text × α))
  | m,[] => (.ok [],m)
  | m,rec :: recs => andThen (f m rec) fun a m =>
      andThen (each f m recs) fun rest m => (.ok ((rec.id,a) :: rest),m)

def drainAll (m : Manager) (reason : Text) : Answer (List Text) :=
  andThen (each (fun m rec => m.cancel rec.id reason) m m.journal.listOpen) fun out m =>
    (.ok (out.map Prod.fst),m)

/-- The owner withdrew approval: drain every open allocation of the app. -/
def revokeApp (m : Manager) (appId : Text) : Answer (List Text) :=
  andThen (each (fun m rec =>
    match rec.state with
    | .requested | .admitted => m.close rec.id rec.state "approval revoked".toList
    | _ => m.drain rec.id "approval revoked".toList) m
    (m.journal.listOpen.filter fun rec => rec.request.appId = appId)) fun out m =>
    (.ok (out.map Prod.fst),m)

def fail (m : Manager) (id : Text) (reason : Text) : Answer AllocationRecord :=
  m.withRecord id fun rec => m.write (m.journal.transition id rec.state .failed (some reason))

/-- `reserve` for the claims that were picked, where some were, with the memory of their
devices. -/
def reserve (m : Manager) (id : Text) (picked : Option (List DeviceClaim × List (Text × Nat))) :
    Answer ReserveOutcome :=
  m.withRecord id fun rec =>
    if rec.state ≠ .admitted then (.error (.journal (.stateConflict .admitted rec.state)),m)
    else if m.paused then (.ok .noCapacity,m)
    else
      match picked with
      | none => (.ok .noCapacity,m)
      | some (claims,memory) =>
        match m.journal.reserve id claims memory m.generation with
        | .ok (rec',j) =>
          (.ok (.reserved rec'),
            { m with journal := j }.note [.took id rec.request.policy claims])
        | .error (.conflict _ _) => (.ok .noCapacity,m)
        | .error e => (.error (.journal e),m)

def enqueue (m : Manager) (id : Text) : Answer Nat :=
  m.withRecord id fun rec =>
    if rec.state ≠ .admitted then
      (.error (.request "only admitted allocations queue".toList),m)
    else
      match m.queue.enqueue rec.request.appId id with
      | (.ok position,q) => (.ok position,{ m with queue := q })
      | (.error e,q) => (.error (.queue e),{ m with queue := q })

/-- The candidates of one round of `pump`, and the first of them that is reserved. -/
def pumpRound (pick : Manager → Text → Option (List DeviceClaim × List (Text × Nat))) :
    Manager → List Text → Answer (Option Text)
  | m,[] => (.ok none,m)
  | m,id :: ids =>
    let stale : Bool := match m.get id with
      | .ok rec => decide (rec.state ≠ .admitted)
      | .error _ => true
    if stale then pumpRound pick { m with queue := (m.queue.remove id).2 } ids
    else andThen (m.reserve id (pick m id)) fun outcome m =>
      match outcome with
      | .reserved _ => (.ok (some id),{ m with queue := (m.queue.remove id).2 })
      | .noCapacity => pumpRound pick m ids

/-- Reserve queued allocations until nothing more fits. -/
def pump (pick : Manager → Text → Option (List DeviceClaim × List (Text × Nat))) :
    Nat → Manager → Answer (List Text)
  | 0,m => (.ok [],m)
  | rounds + 1,m => andThen (pumpRound pick m m.queue.candidates) fun progressed m =>
      match progressed with
      | none => (.ok [],m)
      | some id => andThen (pump pick rounds m) fun done m => (.ok (id :: done),m)

def observe (m : Manager) (s : Surroundings) (claim : DeviceClaim) : DeviceActivity :=
  match m.device claim.device with
  | some d => if s.provider d.backend then s.observe d claim.partition else .unknown
  | none => .unknown

def cleanup (m : Manager) (s : Surroundings) (claim : DeviceClaim) : CleanupOutcome :=
  match m.device claim.device with
  | some d =>
    if s.provider d.backend then s.cleanup d claim.partition
    else .unproven "device is gone".toList
  | none => .unproven "device is gone".toList

/-- Why a device cannot be let go yet. -/
def busyReason (claim : DeviceClaim) : DeviceActivity → Option Text
  | .idle => none
  | .busy processes => some (claim.device ++ " still has ".toList ++ Nat.toDigits 10 processes ++
      " processes".toList)
  | .unknown => some (claim.device ++ " cannot be observed".toList)

/-- Nobody but the allocation holds what it claimed. -/
def alone (m : Manager) (id : Text) (claim : DeviceClaim) : Bool :=
  (m.holdings claim.device).all fun h => h.allocation == id || h.partition != claim.partition

def unprovenReason (m : Manager) (s : Surroundings) (claim : DeviceClaim) : Option Text :=
  match m.cleanup s claim with
  | .proven => none
  | .unproven why => some why

def finish (m : Manager) (id : Text) (state : AllocationState) (how : Finish) (settle : Settle) :
    Answer Settle :=
  andThen (m.write (m.journal.finish id state how)) fun _ m => (.ok settle,m)

/-- The devices are idle: clean them, and release or quarantine. -/
def cleanAll (m : Manager) (s : Surroundings) (rec : AllocationRecord) : Answer Settle :=
  let proven := rec.claims.filter fun c => (m.unprovenReason s c).isNone
  let unproven := rec.claims.filterMap fun c => (m.unprovenReason s c).map fun why => (c.device,why)
  let cleaned := m.note (proven.map fun c => .cleaned c.device c.partition (m.alone rec.id c))
  if unproven.isEmpty then cleaned.finish rec.id rec.state .released .released
  else
    let reason := List.intercalate "; ".toList
      (unproven.map fun u => u.1 ++ ": ".toList ++ u.2)
    cleaned.finish rec.id rec.state (.quarantined (unproven.map Prod.fst) reason)
      (.quarantined reason)

/-- The workload is gone: let the devices go, on proof only. -/
def letGo (m : Manager) (s : Surroundings) (rec : AllocationRecord) : Answer Settle :=
  if rec.request.policy.kind = .cooperative ∧
    rec.claims.all (fun c => (m.holdings c.device).any fun h => h.allocation != rec.id) then
    m.finish rec.id rec.state .released .released
  else
    match rec.claims.findSome? fun c => busyReason c (m.observe s c) with
    | some why => (.ok (.held why),m)
    | none => (m.note (rec.claims.map fun c => .idle c.device c.partition)).cleanAll s rec

/-- Release only on proof: no workload, every device idle, and cleanup proven. -/
def settle (m : Manager) (s : Surroundings) (id : Text) : Answer Settle :=
  m.withRecord id fun rec =>
    if rec.state ≠ .draining ∧ rec.state ≠ .failed then
      (.ok (.held ("allocation is ".toList ++ rec.state.asStr)),m)
    else if rec.claims.isEmpty then m.finish id rec.state .released .released
    else
      match s.presence id with
      | .present => (.ok (.held "workload still present".toList),m)
      | .unknown => (.ok (.held "runtime cannot confirm the workload is gone".toList),m)
      | .absent => (m.note [.absent id]).letGo s rec

/-- A device or partition that vanished or changed under its claim. -/
def moved (m : Manager) (claim : DeviceClaim) : Bool :=
  match m.device claim.device,claim.partition with
  | none,_ => true
  | some d,some p => (d.partition p).all fun now => now.cdiName != claim.cdiName
  | some d,none => d.partitioned

def movedReason : Text := "device or partition changed while held; cleanup cannot be proven".toList

/-- A claimed device that changed cannot be proven clean: quarantine all of them. -/
def abandon (m : Manager) (rec : AllocationRecord) : Answer ReconcileAction :=
  let devices := rec.claims.map DeviceClaim.device
  let ended := fun (state : AllocationState) (m : Manager) =>
    andThen (m.finish rec.id state (.quarantined devices movedReason) (.quarantined movedReason))
      fun settle m => ((.ok (.settled settle),m) : Answer ReconcileAction)
  if rec.state = .failed then ended .failed m
  else andThen (m.write (m.journal.transition rec.id rec.state .draining
    (some "device topology changed under the allocation".toList))) fun _ m => ended .draining m

/-- What the runtime answers first, and what it and the providers answer when the allocation is
settled. -/
def reconcileHeld (m : Manager) (first s : Surroundings) (rec : AllocationRecord) :
    Answer ReconcileAction :=
  let settled := fun (m : Manager) => andThen (m.settle s rec.id) fun settle m =>
    ((.ok (.settled settle),m) : Answer ReconcileAction)
  if rec.claims.any m.moved then m.abandon rec
  else
    match rec.state,first.presence rec.id with
    | .running,.present => (.ok .adopted,m)
    | _,.unknown =>
      (.ok (.settled (.held "runtime cannot confirm the workload's state".toList)),m)
    | .reserved,_ | .attached,_ | .running,_ =>
      andThen (m.drain rec.id "reconciled after restart".toList) fun _ m => settled m
    | _,_ => settled m

def reconcileOne (first s : Surroundings) (m : Manager) (rec : AllocationRecord) :
    Answer ReconcileAction :=
  match rec.state with
  | .requested =>
    andThen (m.close rec.id .requested "broker restarted before admission; resubmit".toList)
      fun _ m => (.ok .closed,m)
  | .admitted =>
    match m.queue.enqueue rec.request.appId rec.id with
    | (.ok _,q) | (.error .duplicate,q) => (.ok .requeued,{ m with queue := q })
    | (.error _,q) =>
      andThen ({ m with queue := q }.close rec.id .admitted "queue full after restart".toList)
        fun _ m => (.ok .closed,m)
  | _ => m.reconcileHeld first s rec

/-- After a restart of the broker or a change of the topology. -/
def reconcile (m : Manager) (surroundings : Text → Surroundings × Surroundings) :
    Answer (List (Text × ReconcileAction)) :=
  andThen (each (fun m rec => reconcileOne (surroundings rec.id).1 (surroundings rec.id).2 m rec)
    m m.journal.listOpen) fun out m =>
    (.ok out,{ m with journal := m.journal.markReconciled m.generation })

/-- The new inventory, with the fingerprint that stands for it. -/
def refreshInventory (m : Manager) (devices : List DeviceRecord) (fingerprint : Text) : Manager :=
  let t := m.journal.recordTopology fingerprint
  { m with journal := t.2,inventory := devices,generation := t.1.generation }

/-- Maintenance clears a quarantine through the store. -/
def clearQuarantine (m : Manager) (device maintenanceRef : Text) : Answer Unit :=
  let noted := if m.journal.quarantined.contains device then [Evidence.cleared device] else []
  andThen (m.write ((m.journal.clearQuarantine device maintenanceRef).map fun j => ((),j)))
    fun _ m => (.ok (),m.note noted)

/-- The broker starts again: the store stays, the queue and the inventory do not. -/
def restart (m : Manager) : Manager :=
  { m with
    queue := .new m.queue.perApp m.queue.total
    inventory := []
    generation := 0
    paused := false }

end Manager

inductive ManagerCall
  | request (id : Text) (req : GpuRequest) (secrecy : Bool)
  | admission (id : Text) (why : Option Text)
  | cancel (id reason : Text)
  | drainAll (reason : Text)
  | drain (id reason : Text)
  | revokeApp (appId : Text)
  | fail (id reason : Text)
  | reserve (id : Text) (picked : Option (List DeviceClaim × List (Text × Nat)))
  | enqueue (id : Text)
  | pump (pick : Manager → Text → Option (List DeviceClaim × List (Text × Nat))) (rounds : Nat)
  /-- `attach` after its checks, and `started`. -/
  | attach (id : Text)
  | started (id : Text)
  | heartbeat (id : Text) (nowMs : Nat)
  | settle (id : Text) (s : Surroundings)
  | reconcile (surroundings : Text → Surroundings × Surroundings)
  | refreshInventory (devices : List DeviceRecord) (fingerprint : Text)
  | setAdmissionPaused (paused : Bool)
  | clearQuarantine (device maintenanceRef : Text)
  | restart

def Manager.call (m : Manager) : ManagerCall → Manager
  | .request id req secrecy => (m.request id req secrecy).2
  | .admission id why => (m.admitted id why).2
  | .cancel id reason => (m.cancel id reason).2
  | .drainAll reason => (m.drainAll reason).2
  | .drain id reason => (m.drain id reason).2
  | .revokeApp appId => (m.revokeApp appId).2
  | .fail id reason => (m.fail id reason).2
  | .reserve id picked => (m.reserve id picked).2
  | .enqueue id => (m.enqueue id).2
  | .pump pick rounds => (Manager.pump pick rounds m).2
  | .attach id => (m.write (m.journal.transition id .reserved .attached none)).2
  | .started id => (m.write (m.journal.transition id .attached .running none)).2
  | .heartbeat id nowMs =>
    (m.write ((m.journal.heartbeat id nowMs).map fun j => ((),j))).2
  | .settle id s => (m.settle s id).2
  | .reconcile surroundings => (m.reconcile surroundings).2
  | .refreshInventory devices fingerprint => m.refreshInventory devices fingerprint
  | .setAdmissionPaused paused => { m with paused := paused }
  | .clearQuarantine device maintenanceRef => (m.clearQuarantine device maintenanceRef).2
  | .restart => m.restart

def Manager.new (queuePerApp queueTotal : Nat) : Manager :=
  ⟨.new,.new queuePerApp queueTotal,[],0,false,[]⟩

end Flagship.Gpu

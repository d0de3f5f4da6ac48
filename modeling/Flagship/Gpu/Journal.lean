import Flagship.Lib.OrdMap
import Flagship.Lib.Run
import Flagship.Lib.Text

namespace Flagship.Gpu
open Lib

/-- At most this many cooperative workloads share one device. -/
def maxCooperativeSharers : Nat := 4

inductive PolicyKind
  | exclusive
  | partition
  | cooperative
  deriving DecidableEq

inductive Policy
  /-- The whole device, nobody else. -/
  | exclusive
  /-- One hardware partition of a device. -/
  | partition
  /-- Sharing in time, within one trust domain. -/
  | cooperative (trustDomain ownerConsent : Text)
  deriving DecidableEq

def Policy.kind : Policy → PolicyKind
  | .exclusive => .exclusive
  | .partition => .partition
  | .cooperative _ _ => .cooperative

def Policy.domain : Policy → Option Text
  | .cooperative trustDomain _ => some trustDomain
  | _ => none

structure PartitionId where
  gpuInstance : Nat
  computeInstance : Nat
  deriving DecidableEq

/-- One allocation's hold on one device or partition. -/
structure Holding where
  allocation : Text
  appId : Text
  device : Text
  partition : Option PartitionId
  policy : Policy
  secrecy : Bool
  memoryMib : Nat
  deriving DecidableEq

inductive Conflict
  | quarantined
  | held (allocation : Text)
  | partitionHeld (allocation : Text)
  | policyClaimMismatch
  | noOwnerConsent
  | trustDomain
  | secrecy
  | tooManySharers
  | memoryOversubscribed
  deriving DecidableEq

def Conflict.display : Conflict → Text
  | .quarantined => "device is quarantined until maintenance".toList
  | .held a => "device is held by ".toList ++ a
  | .partitionHeld a => "partition is held by ".toList ++ a
  | .policyClaimMismatch => "policy does not match the claim".toList
  | .noOwnerConsent => "cooperative sharing needs the owner's consent".toList
  | .trustDomain => "cooperative sharing is only within one trust domain".toList
  | .secrecy => "an app that requires secrecy never shares a device with another app".toList
  | .tooManySharers => "device already has the maximum number of sharers".toList
  | .memoryOversubscribed => "device memory would be oversubscribed".toList

/-- Addition of 64-bit numbers that stops at the greatest. -/
def saturatingAdd (a b : Nat) : Nat := min (a + b) (2 ^ 64 - 1)

/-- The partitions that are held already. -/
def besidePartitions (new : Holding) : List Holding → Except Conflict Unit
  | [] => .ok ()
  | h :: rest =>
    match h.partition with
    | none => .error (.held h.allocation)
    | some p =>
      if some p = new.partition then .error (.partitionHeld h.allocation)
      else besidePartitions new rest

/-- The sharers that are there already; what they and the new one use of the memory. -/
def besideSharers (trustDomain : Text) (new : Holding) : List Holding → Nat → Except Conflict Nat
  | [],used => .ok used
  | h :: rest,used =>
    match h.policy with
    | .cooperative theirs _ =>
      if theirs ≠ trustDomain then .error .trustDomain
      else if h.appId ≠ new.appId && (h.secrecy || new.secrecy) then .error .secrecy
      else besideSharers trustDomain new rest (saturatingAdd used h.memoryMib)
    | _ => .error (.held h.allocation)

/-- May a holding join those on the same device? -/
def admissible (existing : List Holding) (new : Holding) (deviceMemoryMib : Nat) :
    Except Conflict Unit :=
  match new.policy,new.partition with
  | .exclusive,none =>
    match existing.head? with
    | some h => .error (.held h.allocation)
    | none => .ok ()
  | .partition,some _ => besidePartitions new existing
  | .cooperative trustDomain ownerConsent,none =>
    if trustDomain.isEmpty || ownerConsent.isEmpty then .error .noOwnerConsent
    else
      match besideSharers trustDomain new existing new.memoryMib with
      | .error c => .error c
      | .ok used =>
        if maxCooperativeSharers ≤ existing.length then .error .tooManySharers
        else if new.memoryMib = 0 ∨ deviceMemoryMib < used then .error .memoryOversubscribed
        else .ok ()
  | _,_ => .error .policyClaimMismatch

inductive AllocationState
  | requested
  | admitted
  | reserved
  | attached
  | running
  | draining
  | released
  | failed
  | quarantined
  deriving DecidableEq

namespace AllocationState

def canTransitionTo : AllocationState → AllocationState → Bool
  | .requested,.admitted => true
  | .requested,.failed => true
  | .admitted,.reserved => true
  | .admitted,.failed => true
  | .reserved,.attached => true
  | .reserved,.draining => true
  | .reserved,.failed => true
  | .attached,.running => true
  | .attached,.draining => true
  | .attached,.failed => true
  | .running,.draining => true
  | .running,.failed => true
  | .draining,.released => true
  | .draining,.quarantined => true
  | .draining,.failed => true
  | .failed,.released => true
  | .failed,.quarantined => true
  | _,_ => false

def isTerminal : AllocationState → Bool
  | .released => true
  | .quarantined => true
  | _ => false

def asStr : AllocationState → Text
  | .requested => "requested".toList
  | .admitted => "admitted".toList
  | .reserved => "reserved".toList
  | .attached => "attached".toList
  | .running => "running".toList
  | .draining => "draining".toList
  | .released => "released".toList
  | .failed => "failed".toList
  | .quarantined => "quarantined".toList

end AllocationState

structure DeviceClaim where
  device : Text
  partition : Option PartitionId
  memoryMib : Nat
  cdiName : Text
  deriving DecidableEq

inductive Backend
  | nvidiaCuda
  | amdRocm
  | intelLevelZero
  deriving DecidableEq

inductive Capability
  | compute
  | graphics
  | videoEncode
  | videoDecode
  deriving DecidableEq

inductive IsolationProfile
  | gvisorNvproxy
  | vmPassthrough
  deriving DecidableEq

inductive GangRequirement
  | any
  | sameNuma
  | peerFabric
  deriving DecidableEq

structure GpuRequest where
  appId : Text
  backend : Backend
  count : Nat
  minimumMemoryMib : Nat
  capabilities : List Capability
  policy : Policy
  isolation : IsolationProfile
  gang : GangRequirement
  deriving DecidableEq

structure AllocationRecord where
  id : Text
  request : GpuRequest
  secrecy : Bool
  state : AllocationState
  claims : List DeviceClaim
  topologyGeneration : Nat
  reason : Option Text
  lastHeartbeatMs : Option Nat
  revision : Nat
  deriving DecidableEq

def AllocationRecord.new (id : Text) (request : GpuRequest) (secrecy : Bool) : AllocationRecord :=
  ⟨id,request,secrecy,.requested,[],0,none,none,0⟩

def AllocationRecord.holding (rec : AllocationRecord) (claim : DeviceClaim) : Holding :=
  ⟨rec.id,rec.request.appId,claim.device,claim.partition,rec.request.policy,rec.secrecy,
    claim.memoryMib⟩

/-- How an allocation ends. -/
inductive Finish
  /-- Ownership is dropped. -/
  | released
  /-- Ownership is dropped and these devices are blocked until maintenance clears them. -/
  | quarantined (devices : List Text) (reason : Text)
  deriving DecidableEq

structure TopologyState where
  generation : Nat
  reconciled : Nat
  fingerprint : Text
  deriving DecidableEq

inductive JournalError
  | notFound (id : Text)
  | duplicate (id : Text)
  | stateConflict (expected actual : AllocationState)
  | illegalTransition (source target : AllocationState)
  | conflict (device : Text) (conflict : Conflict)
  | reconcileRequired
  | unknownDevice (device : Text)
  | storage (why : Text)
  deriving DecidableEq

/-- The tables: allocations in the order of their rows, holdings in the order of their
allocations. -/
structure Journal where
  allocations : OrdMap Text AllocationRecord
  holdings : List Holding
  quarantined : OrdMap Text Text
  topology : TopologyState
  deriving DecidableEq

namespace Journal

def new : Journal := ⟨∅,[],∅,⟨0,0,[]⟩⟩

def create (j : Journal) (rec : AllocationRecord) : Except JournalError Journal :=
  if j.allocations.contains rec.id then .error (.duplicate rec.id)
  else .ok { j with allocations := j.allocations.set rec.id rec }

/-- Every allocation that is not released or quarantined, the oldest first. -/
def listOpen (j : Journal) : List AllocationRecord :=
  (j.allocations.entries.map Prod.snd).filter fun rec => !rec.state.isTerminal

/-- A record in the state that a caller expects. -/
def load (j : Journal) (id : Text) (source : AllocationState) :
    Except JournalError AllocationRecord :=
  match j.allocations.get? id with
  | none => .error (.notFound id)
  | some rec => if rec.state ≠ source then .error (.stateConflict source rec.state) else .ok rec

/-- A change of state that leaves ownership alone. -/
def transition (j : Journal) (id : Text) (source target : AllocationState)
    (reason : Option Text) : Except JournalError (AllocationRecord × Journal) :=
  if !source.canTransitionTo target || target = .reserved || target.isTerminal then
    .error (.illegalTransition source target)
  else
    match j.load id source with
    | .error e => .error e
    | .ok rec =>
      let rec' := { rec with
        state := target
        reason := reason.or rec.reason
        revision := saturatingAdd rec.revision 1 }
      .ok (rec',{ j with allocations := j.allocations.set id rec' })

def onDevice (device : Text) (holdings : List Holding) : List Holding :=
  holdings.filter fun h => h.device = device

def insertHolding (new : Holding) : List Holding → List Holding
  | [] => [new]
  | h :: rest => if h.allocation ≤ new.allocation then h :: insertHolding new rest
    else new :: h :: rest

/-- The holdings with those for the claims, each of them checked against what is there. -/
def takeClaims (j : Journal) (rec : AllocationRecord) (deviceMemory : List (Text × Nat)) :
    List DeviceClaim → List DeviceClaim → List Holding → Except JournalError (List Holding)
  | _,[],holdings => .ok holdings
  | taken,claim :: rest,holdings =>
    if taken.any (·.device = claim.device) then .error (.conflict claim.device (.held rec.id))
    else if j.quarantined.contains claim.device then
      .error (.conflict claim.device .quarantined)
    else
      match deviceMemory.lookup claim.device with
      | none => .error (.unknownDevice claim.device)
      | some total =>
        match admissible (onDevice claim.device holdings) (rec.holding claim) total with
        | .error conflict => .error (.conflict claim.device conflict)
        | .ok () =>
          takeClaims j rec deviceMemory (taken ++ [claim]) rest
            (insertHolding (rec.holding claim) holdings)

/-- From admitted to reserved with the ownership for every claim, or nothing. -/
def reserve (j : Journal) (id : Text) (claims : List DeviceClaim)
    (deviceMemory : List (Text × Nat)) (topologyGeneration : Nat) :
    Except JournalError (AllocationRecord × Journal) :=
  match j.load id .admitted with
  | .error e => .error e
  | .ok rec =>
    if j.topology.generation ≠ j.topology.reconciled ∨
      j.topology.generation ≠ topologyGeneration then .error .reconcileRequired
    else
      match j.takeClaims rec deviceMemory [] claims j.holdings with
      | .error e => .error e
      | .ok holdings =>
        let rec' := { rec with
          state := .reserved
          claims := claims
          topologyGeneration := topologyGeneration
          revision := saturatingAdd rec.revision 1 }
        .ok (rec',{ j with
          allocations := j.allocations.set id rec'
          holdings := holdings })

def finished : Finish → AllocationState
  | .released => .released
  | .quarantined _ _ => .quarantined

/-- From draining or failed to released or quarantined, dropping ownership. -/
def finish (j : Journal) (id : Text) (source : AllocationState) (how : Finish) :
    Except JournalError (AllocationRecord × Journal) :=
  if !source.canTransitionTo (finished how) then
    .error (.illegalTransition source (finished how))
  else
    match j.load id source with
    | .error e => .error e
    | .ok rec =>
      let rec' := { rec with
        state := finished how
        reason := match how with
          | .released => rec.reason
          | .quarantined _ reason => some reason
        revision := saturatingAdd rec.revision 1 }
      .ok (rec',{ j with
        allocations := j.allocations.set id rec'
        holdings := j.holdings.filter fun h => h.allocation ≠ id
        quarantined := match how with
          | .released => j.quarantined
          | .quarantined devices reason =>
            devices.foldl (fun q d => q.set d reason) j.quarantined })

def heartbeat (j : Journal) (id : Text) (nowMs : Nat) : Except JournalError Journal :=
  match j.allocations.get? id with
  | none => .error (.notFound id)
  | some rec =>
    .ok { j with allocations := j.allocations.set id { rec with lastHeartbeatMs := some nowMs } }

def clearQuarantine (j : Journal) (device maintenanceRef : Text) : Except JournalError Journal :=
  if maintenanceRef.isEmpty then
    .error (.storage "clearing a quarantine needs a maintenance order".toList)
  else .ok { j with quarantined := j.quarantined.erase device }

def i64Of (v : Nat) : Nat := min v (2 ^ 63 - 1)

/-- Record the inventory; a change begins a new generation. -/
def recordTopology (j : Journal) (fingerprint : Text) : TopologyState × Journal :=
  let t := j.topology
  if t.fingerprint ≠ fingerprint then
    let generation := saturatingAdd t.generation 1
    -- the first inventory of a fresh journal has nothing to reconcile
    let reconciled := if t.fingerprint.isEmpty && t.generation = 0 then generation
      else t.reconciled
    (⟨generation,reconciled,fingerprint⟩,
      { j with topology := ⟨i64Of generation,i64Of reconciled,fingerprint⟩ })
  else (t,j)

def markReconciled (j : Journal) (generation : Nat) : Journal :=
  if j.topology.generation = i64Of generation then
    { j with topology := { j.topology with reconciled := i64Of generation } }
  else j

end Journal

/-- A call of the journal that writes. -/
inductive JournalCall
  | create (id : Text) (request : GpuRequest) (secrecy : Bool)
  | transition (id : Text) (source target : AllocationState) (reason : Option Text)
  | reserve (id : Text) (claims : List DeviceClaim) (deviceMemory : List (Text × Nat))
    (topologyGeneration : Nat)
  | finish (id : Text) (source : AllocationState) (how : Finish)
  | heartbeat (id : Text) (nowMs : Nat)
  | clearQuarantine (device maintenanceRef : Text)
  | recordTopology (fingerprint : Text)
  | markReconciled (generation : Nat)

/-- What a call that fails leaves is what was there. -/
def keep {α : Type} (j : Journal) : Except JournalError (α × Journal) → Journal
  | .ok (_,j') => j'
  | .error _ => j

def Journal.call (j : Journal) : JournalCall → Journal
  | .create id request secrecy =>
    keep j ((j.create (.new id request secrecy)).map fun j' => ((),j'))
  | .transition id source target reason => keep j (j.transition id source target reason)
  | .reserve id claims deviceMemory topologyGeneration =>
    keep j (j.reserve id claims deviceMemory topologyGeneration)
  | .finish id source how => keep j (j.finish id source how)
  | .heartbeat id nowMs => keep j ((j.heartbeat id nowMs).map fun j' => ((),j'))
  | .clearQuarantine device maintenanceRef =>
    keep j ((j.clearQuarantine device maintenanceRef).map fun j' => ((),j'))
  | .recordTopology fingerprint => (j.recordTopology fingerprint).2
  | .markReconciled generation => j.markReconciled generation

end Flagship.Gpu

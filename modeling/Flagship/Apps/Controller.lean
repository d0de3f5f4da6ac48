import Mathlib.Data.List.Sort
import Flagship.Apps.Workloads
import Flagship.Lib.Run

namespace Flagship.Apps
open Lib

/-- The app reconciler: the rows of its journal, and what it holds in memory. -/
structure AppController where
  /-- The workloads, each with whether it is forgotten. -/
  desired : OrdMap Text (DesiredWorkload × Bool)
  deployed : OrdMap Text Deployed
  ops : List OpRow
  /-- By network and owner. -/
  addresses : OrdMap (Text × Text) Text
  live : Bool
  lastGeneration : Int
  agreePasses : Nat
  term : Nat
  pools : OrdMap Text AddressPool
  /-- What others held on each network at the last sync. -/
  foreign : OrdMap Text (List Text)
  deriving DecidableEq

/-- A map as it is walked: by its keys. -/
def ascending {ν : Type} (m : OrdMap Text ν) : List (Text × ν) :=
  m.entries.insertionSort fun a b => a.1 ≤ b.1

namespace AppController
variable (c : AppController)

/-- An empty journal, opened for the first time. -/
def fresh : AppController := ⟨∅,∅,[],∅,false,0,0,1,∅,∅⟩

/-- The process ends, and another opens the journal. -/
def restart : AppController := { c with term := c.term + 1,pools := ∅,foreign := ∅ }

def upsertDesired (d : DesiredWorkload) : AppController :=
  { c with desired := c.desired.set d.key.id (d,false) }

def markForgotten (k : WorkloadKey) : AppController :=
  match c.desired.get? k.id with
  | none => c
  | some (d,_) => { c with desired := c.desired.set k.id (d,true) }

def dropDesired (key : Text) : AppController :=
  { c with desired := c.desired.erase key,deployed := c.deployed.erase key }

def setDeployed (key : Text) (d : Deployed) : AppController :=
  { c with deployed := c.deployed.set key { d with epoch := stored d.epoch } }

def clearDeployed (key : Text) (generation : Int) : AppController :=
  match c.deployed.get? key with
  | some d =>
    if d.generation = generation then { c with deployed := c.deployed.erase key } else c
  | none => c

/-- The operations that are with an executor. -/
def openOps : List OpRow := c.ops.filter (·.state = .intent)

def deploysOf (key : Text) : List OpRow := c.ops.filter fun op => op.key = key ∧ op.kind = .deploy

def nextId : Nat := c.ops.length + 1

/-- The row of an effect that is about to be handed out. -/
def row (key : Text) (e : Effect) (executor : Text) (now : Nat) : OpRow where
  id := c.nextId
  key := key
  kind := e.kind
  generation := e.generation
  specDigest := e.specDigest
  epoch := stored e.epoch
  network := e.network
  address := e.address
  executor := executor
  state := .intent
  detail := none
  updatedAt := stored now

def intent (key : Text) (e : Effect) (executor : Text) (now : Nat) : AppController :=
  { c with ops := c.ops ++ [c.row key e executor now] }

def settleOp (id : Nat) (state : OpState) (detail : Option Text) (now : Nat) : AppController :=
  { c with
    ops := c.ops.map fun op =>
      if op.id = id ∧ op.state = .intent then
        { op with state := state,detail := detail,updatedAt := stored now }
      else op }

def persistAddress (network owner : Text) (ip : Option Text) : AppController :=
  { c with
    addresses := match ip with
      | some ip => c.addresses.set (network,owner) ip
      | none => c.addresses.erase (network,owner) }

/-- The owners of a network and their addresses. -/
def persistedAddresses (network : Text) : List (Text × Text) :=
  (c.addresses.entries.filterMap fun ((net,owner),ip) =>
    if net = network then some (owner,ip) else none).insertionSort fun a b => a.1 ≤ b.1

/-- The pool of a network is built from the assignments that were persisted. -/
def openPool (n : NetworkInfo) : AppController :=
  if !validNetwork n.name || c.pools.contains n.name then c
  else match AddressPool.new n.subnet n.gateways AddressPool.defaultQuarantineMs with
    | none => c
    | some pool =>
      { c with
        pools := c.pools.set n.name ((c.persistedAddresses n.name).foldl
          (fun pool row => pool.adopt row.1 row.2) pool) }

def modifyPool (network : Text) (f : AddressPool → AddressPool) : AppController :=
  match c.pools.get? network with
  | none => c
  | some pool => { c with pools := c.pools.set network (f pool) }

/-- Something core does not own holds an address. -/
def takeOccupied (a : OccupiedAddress) : AppController :=
  c.modifyPool a.network fun pool =>
    if (pool.ownerOf a.ip).isNone then pool.occupy a.ip "engine".toList else pool

/-- The addresses of a list by their network. -/
def byNetwork (occupied : List OccupiedAddress) : OrdMap Text (List Text) :=
  occupied.foldl (fun m a => m.set a.network ((m.get? a.network).getD [] ++ [a.ip])) ∅

/-- What others do not hold any more. -/
def vacateGone (foreign : OrdMap Text (List Text)) : AppController :=
  (ascending c.foreign).foldl (fun c (net,before) =>
    before.foldl (fun c ip =>
      if ((foreign.get? net).getD []).contains ip then c
      else c.modifyPool net fun pool => pool.vacate ip) c) c

/-- A container holds addresses; those that its workload does not have are taken. -/
def takeObserved (o : ObservedContainer) : AppController :=
  (ascending o.addresses).foldl (fun c (net,ip) =>
    c.modifyPool net fun pool =>
      if pool.ownerOf ip ≠ some (.owner o.key.id) ∧ pool.addressOf o.key.id ≠ some ip then
        pool.occupy ip o.name
      else pool) c

def refreshPools (req : SyncRequest) : AppController :=
  let c := req.networks.foldl openPool c
  let c := req.occupied.foldl takeOccupied c
  let foreign := byNetwork req.occupied
  let c := { c.vacateGone foreign with foreign := foreign }
  req.observed.foldl takeObserved c

/-- An address for a workload that wants one, or why there is none. -/
def addressFor (d : DesiredWorkload) (now : Nat) : AppController × Except Text (Option Text) :=
  if !d.wantsAddress then (c,.ok none)
  else match c.pools.get? d.network with
    | none => (c,.error ("the ".toList ++ d.network ++
        " network's subnet is not known yet".toList))
    | some pool =>
      let (pool,ip) := pool.assign d.key.id now
      let c := { c with pools := c.pools.set d.network pool }
      match ip with
      | none => (c,.error "no free address on the app network".toList)
      | some ip => (c.persistAddress d.network d.key.id (some ip),.ok (some ip))

def releaseAddress (network owner : Text) (now : Nat) : AppController :=
  (c.modifyPool network fun pool => pool.release owner now).persistAddress network owner none

/-- The record of a deploy that was made. -/
def deployedBy (op : OpRow) : Deployed :=
  ⟨op.generation,op.specDigest.getD [],op.epoch,op.network,op.address⟩

/-- An operation of an executor that is gone, from what the engine shows. -/
def recoverOp (seen : OrdMap Text ObservedContainer) (now : Nat) (op : OpRow) : AppController :=
  let there := (seen.get? op.key).any (·.generation = some op.generation)
  match op.kind with
  | .deploy =>
    if there then
      (c.settleOp op.id .done (some "inspection: the container it deployed exists".toList)
        now).setDeployed op.key (deployedBy op)
    else c.settleOp op.id .abandoned
      (some "interrupted before the engine created it; decided again".toList) now
  | .remove =>
    if there then c.settleOp op.id .abandoned
      (some "interrupted; the container is still there, decided again".toList) now
    else (c.settleOp op.id .done (some "inspection: the container is gone".toList)
      now).clearDeployed op.key op.generation

def recover (executor : Text) (seen : OrdMap Text ObservedContainer) (now : Nat) : AppController :=
  c.openOps.foldl (fun c op => if op.executor = executor then c else c.recoverOp seen now op) c

/-- What is adopted of a workload: its container, if it runs as wanted and core has
no record of it. -/
def adoptable (seen : OrdMap Text ObservedContainer) (key : Text) (d : DesiredWorkload) :
    Option (ObservedContainer × Int) :=
  match seen.get? key with
  | none => none
  | some o =>
    match o.generation with
    | none => none
    | some generation =>
      if !o.running || !d.running || (c.deployed.get? key).isSome then none
      else some (o,generation)

def adoptOne (key : Text) (d : DesiredWorkload) (o : ObservedContainer) (generation : Int) :
    AppController :=
  let address := o.addresses.get? d.network
  let c := match address with
    | none => c
    | some ip => (c.modifyPool d.network fun pool => pool.adopt key ip).persistAddress d.network key
      (some ip)
  c.setDeployed key ⟨generation,d.specDigest,d.epoch,d.network,address⟩

/-- On the first sync in rust mode: adopt each wanted workload that runs. -/
def adoptRunning (desired : List (Text × DesiredWorkload × Bool))
    (seen : OrdMap Text ObservedContainer) : AppController :=
  desired.foldl (fun c (key,d,_) =>
    match c.adoptable seen key d with
    | none => c
    | some (o,generation) => c.adoptOne key d o generation) c

def firstBackoffMs : Nat := 5000

def maxBackoffMs : Nat := 5 * 60000

/-- The failed deploys of a workload since the last that did not fail. -/
def misses (key : Text) : List OpRow :=
  ((c.deploysOf key).reverse.takeWhile fun op => op.state = .abandoned ∨ op.state = .failed).filter
    (·.state = .failed)

def backoffUntil (key : Text) : Option Nat :=
  let misses := c.misses key
  if misses = [] then none
  else
    let wait := min (firstBackoffMs * 2 ^ min (misses.length - 1) 16) maxBackoffMs
    some (satAdd ((misses.map (·.updatedAt)).foldl max 0) wait)

/-- Memory already promised: every running wanted workload's limit. -/
def committedMemory (desired : List (Text × DesiredWorkload × Bool))
    (seen : OrdMap Text ObservedContainer) : OrdMap Text Nat :=
  desired.foldl (fun m (key,d,_) =>
    if d.running && (seen.get? key).any (·.running) then m.set key d.resources.memoryBytes
    else m) ∅

end AppController

/-- One container for each key; if two carry a key, the running one wins. -/
def seenOf (observed : List ObservedContainer) : OrdMap Text ObservedContainer :=
  observed.foldl (fun seen o =>
    if (seen.get? o.key.id).all (fun prev => !prev.running && o.running) then seen.set o.key.id o
    else seen) ∅

def effectOf (op : OpRow) (d : DesiredWorkload) : Effect where
  op := op.id
  kind := op.kind
  installation := d.installation
  component := d.component
  generation := op.generation
  specDigest := op.specDigest
  epoch := op.epoch
  network := op.network
  address := op.address

/-- Stop and delete the container of a generation. -/
def removes (key : WorkloadKey) (o : ObservedContainer) (epoch : Nat) (network : Text) : Effect where
  op := 0
  kind := .remove
  installation := key.installation
  component := key.component
  generation := o.generation.getD 0
  specDigest := none
  epoch := epoch
  network := network
  address := none

/-- What a pass looks at. -/
structure View where
  executor : Text
  now : Nat
  capacity : Capacity
  seen : OrdMap Text ObservedContainer
  /-- The operations that were open when the pass began. -/
  outstanding : OrdMap Text OpRow

/-- A pass as far as it has come. -/
structure Pass where
  controller : AppController
  effects : List Effect
  workloads : List WorkloadStatus
  committed : OrdMap Text Nat

namespace Pass
variable (p : Pass) (v : View)

/-- An effect is journalled and handed out. -/
def hand (key : Text) (e : Effect) : Pass :=
  { p with
    controller := p.controller.intent key e v.executor v.now
    effects := p.effects ++ [{ e with op := p.controller.nextId }] }

def report (d : DesiredWorkload) (state : WorkloadState) (generation : Option Int)
    (reason : Option Text) : Pass :=
  { p with workloads := p.workloads ++ [⟨d.installation,d.component,state,generation,reason⟩] }

/-- A container is to go. -/
def remove (key : Text) (d : DesiredWorkload) (o : ObservedContainer) (reason : Text) : Pass :=
  (p.hand v key (removes d.key o d.epoch d.network)).report d .pending (some (o.generation.getD 0))
    (some reason)

/-- A forgotten workload of which nothing is left. -/
def forget (key : Text) (d : DesiredWorkload) : Pass :=
  let c := match p.controller.deployed.get? key with
    | some r => p.controller.clearDeployed key r.generation
    | none => p.controller
  { p with controller := (c.releaseAddress d.network key v.now).dropDesired key }

/-- A workload is put at its address. -/
def deploy (key : Text) (d : DesiredWorkload) (address : Option Text) : Pass :=
  let generation := nextGeneration p.controller.lastGeneration (min v.now (2 ^ 63 - 1) : Nat)
  let p := { p with controller := { p.controller with lastGeneration := generation } }
  let p := p.hand v key {
    op := 0
    kind := .deploy
    installation := d.installation
    component := d.component
    generation := generation
    specDigest := some d.specDigest
    epoch := d.epoch
    network := d.network
    address := address }
  let p := { p with committed := p.committed.set key d.resources.memoryBytes }
  p.report d .pending (some generation) (some "deploying".toList)

/-- Why a workload whose last deploy failed is not tried again yet. -/
def backoff (key : Text) : Option Text :=
  match p.controller.backoffUntil key with
  | none => none
  | some ends =>
    if v.now < ends then
      some (((p.controller.deploysOf key).getLast?.bind (·.detail)).getD
        "the last deploy failed".toList)
    else none

/-- What the other workloads were promised. -/
def others (key : Text) : Nat :=
  ((ascending p.committed).filter (·.1 ≠ key)).foldl (fun sum e => satAdd sum e.2) 0

/-- A workload that runs nowhere. -/
def place (key : Text) (d : DesiredWorkload) : Pass :=
  match p.backoff v key with
  | some why => p.report d .failed none (some why)
  | none =>
    match fits v.capacity (p.others key) d.resources with
    | some reason => p.report d .unschedulable none (some reason)
    | none =>
      let (c,address) := p.controller.addressFor d v.now
      let p := { p with controller := c }
      match address with
      | .error reason => p.report d .unschedulable none (some reason)
      | .ok address => p.deploy v key d address

end Pass

/-- The container is the one that is wanted. -/
def isCurrent (record : Option Deployed) (obs : Option ObservedContainer) (d : DesiredWorkload) :
    Bool :=
  match record,obs with
  | some r,some o => o.generation = some r.generation && r.specDigest = d.specDigest &&
      r.epoch = d.epoch && o.running
  | _,_ => false

/-- One workload of a pass. -/
def visit (v : View) (p : Pass) (key : Text) (d : DesiredWorkload) (gone : Bool) : Pass :=
  match v.outstanding.get? key with
  | some op =>
    let p := p.report d .waiting (some op.generation)
      (some (op.kind.text ++ " with the executor".toList))
    -- it lost its answer
    if op.executor = v.executor then { p with effects := p.effects ++ [effectOf op d] } else p
  | none =>
    let obs := v.seen.get? key
    let record := p.controller.deployed.get? key
    if gone || !d.running then
      match obs with
      | some o => p.remove v key d o "removing".toList
      | none => if gone then p.forget v key d else p.report d .stopped none none
    else if isCurrent record obs d then p.report d .running (record.map (·.generation)) none
    else match obs with
      | some o => p.remove v key d o "replacing".toList
      | none => p.place v key d

/-- A workload core has no record of is dropped for good: its container goes. -/
def forgetUnknown (v : View) (desired : OrdMap Text (DesiredWorkload × Bool)) (p : Pass)
    (k : WorkloadKey) : Pass :=
  if desired.contains k.id || v.outstanding.contains k.id then p
  else match v.seen.get? k.id with
    | none => p
    | some o =>
      p.hand v k.id (removes k o 0 (((ascending o.addresses).head?.map Prod.fst).getD []))

/-- The operations by their key. -/
def byKey (ops : List OpRow) : OrdMap Text OpRow := ops.foldl (fun m op => m.set op.key op) ∅

namespace AppController

/-- The verdict of shadow mode on a workload. -/
def shadowVerdict (key : Text) (want running : Bool) : Option Text :=
  match want,running with
  | true,true => none
  | false,false => none
  | true,false => some (key ++ ": would deploy (the engine runs none)".toList)
  | false,true => some (key ++ ": would remove (not wanted, the engine runs it)".toList)

def shadowStatus (key : Text) (d : DesiredWorkload) (gone : Bool)
    (o : Option ObservedContainer) : WorkloadStatus :=
  let want := d.running && !gone
  let running := o.any (·.running)
  ⟨d.installation,d.component,
    if want && running then .running else if !want && !running then .stopped else .pending,
    o.bind (·.generation),shadowVerdict key want running⟩

def shadowPass (c : AppController) (desired : List (Text × DesiredWorkload × Bool))
    (seen : OrdMap Text ObservedContainer) (unmanaged : List Text) :
    AppController × SyncResponse :=
  let workloads := desired.map fun (key,d,gone) => shadowStatus key d gone (seen.get? key)
  let divergent := workloads.filterMap (·.reason)
  let c := desired.foldl (fun c (key,_,gone) =>
    if gone && !(seen.get? key).any (·.running) then c.dropDesired key else c) c
  let passes := if divergent.isEmpty then satAdd c.agreePasses 1 else 0
  let c := { c with agreePasses := passes }
  (c,⟨.shadow,false,[],workloads,divergent,passes,unmanaged,c.term⟩)

/-- What the daemon wants and drops. -/
def intake (c : AppController) (req : SyncRequest) : AppController :=
  req.forget.foldl markForgotten (req.desired.foldl upsertDesired c)

/-- In rust mode: what was left open is settled, and what runs is adopted the first
time. -/
def takeOver (c : AppController) (req : SyncRequest) (now : Nat) : AppController :=
  let seen := seenOf req.observed
  let desired := ascending c.desired
  let c := c.recover req.executor seen now
  if c.live then c else { c.adoptRunning desired seen with live := true }

def view (c : AppController) (req : SyncRequest) (now : Nat) : View where
  executor := req.executor
  now := now
  capacity := req.capacity
  seen := seenOf req.observed
  outstanding := byKey c.openOps

/-- The pass over the workloads, after those that are dropped and not known. -/
def rustPass (c : AppController) (req : SyncRequest) (now : Nat) : Pass :=
  let v := c.view req now
  let p := req.forget.foldl (forgetUnknown v c.desired) ⟨c,[],[],∅⟩
  let p := { p with committed := committedMemory (ascending c.desired) v.seen }
  (ascending c.desired).foldl (fun p (key,d,gone) => visit v p key d gone) p

/-- One pass for the executor that called. -/
def sync (c : AppController) (req : SyncRequest) (now : Nat) :
    AppController × Except AppsError SyncResponse :=
  match validate req with
  | some e => (c,.error e)
  | none =>
    let c := c.intake req
    let seen := seenOf req.observed
    let c := c.refreshPools req
    let unmanaged := ((ascending seen).filter fun e => !c.desired.contains e.1).map (·.2.name)
    match req.mode with
    | .shadow =>
      let (c,response) := shadowPass { c with live := false } (ascending c.desired) seen unmanaged
      (c,.ok response)
    | .rust =>
      let p := (c.takeOver req now).rustPass req now
      (p.controller,.ok ⟨.rust,true,p.effects,p.workloads,[],p.controller.agreePasses,unmanaged,
        p.controller.term⟩)

/-- What the report of an effect makes of its operation. -/
def settleKind (s : SettleRequest) (op : OpRow) : OpState :=
  match s.outcome,op.kind with
  | .ok,_ => .done
  | .definite,.deploy => if s.conflictIp.isSome then .abandoned else .failed
  | .definite,.remove => .failed
  | .unknown,_ => .abandoned

/-- The address the engine refused is held, and the workload gets another. -/
def conflict (c : AppController) (op : OpRow) (ip : Text) (now : Nat) : AppController :=
  match c.pools.get? op.network with
  | none => c
  | some pool =>
    let pool := (pool.occupy ip "unknown-holder".toList).release op.key now
    persistAddress { c with pools := c.pools.set op.network pool } op.network op.key none

/-- The operation is over, and what core knows to be deployed follows from it. -/
def settled (c : AppController) (s : SettleRequest) (op : OpRow) (now : Nat) : AppController :=
  let c := c.settleOp op.id (settleKind s op) (s.detail.map (·.take 2000)) now
  match s.outcome,op.kind with
  | .ok,.deploy => c.setDeployed op.key (deployedBy op)
  | .ok,.remove => c.clearDeployed op.key op.generation
  | _,_ => c

/-- The executor's report of one effect. -/
def settle (c : AppController) (s : SettleRequest) (now : Nat) :
    AppController × Except AppsError Unit :=
  match c.ops.find? (·.id = s.op) with
  | none => (c,.error ⟨"no operation ".toList ++ Nat.toDigits 10 s.op⟩)
  | some op =>
    if op.executor ≠ s.executor then
      (c,.error ⟨"this operation was handed to another executor".toList⟩)
    else if op.state ≠ .intent then (c,.ok ())
    else
      let c := c.settled s op now
      match s.conflictIp with
      | some ip => (c.conflict op ip now,.ok ())
      | none => (c,.ok ())

end AppController

/-- What happens to a controller: a request with the clock it reads, or its process
ends and another starts. -/
inductive Request
  | sync (req : SyncRequest) (now : Nat)
  | settle (s : SettleRequest) (now : Nat)
  | restart
  deriving DecidableEq

def step (c : AppController) : Request → AppController
  | .sync req now => (c.sync req now).1
  | .settle s now => (c.settle s now).1
  | .restart => c.restart

/-- The effects a sync hands out. -/
def handed (c : AppController) : Request → List Effect
  | .sync req now => match (c.sync req now).2 with
    | .ok response => response.effects
    | .error _ => []
  | _ => []

/-- No workload is dropped twice in one request. -/
def forgetsOnce (_ : AppController) : Request → Prop
  | .sync req _ => req.forget.Nodup
  | _ => True

instance : ∀ c r,Decidable (forgetsOnce c r)
  | _,.sync req _ => inferInstanceAs (Decidable req.forget.Nodup)
  | _,.settle _ _ => isTrue trivial
  | _,.restart => isTrue trivial

/-- The operations of a journal are serial, and their generations fresh. -/
structure Serial (c : AppController) : Prop where
  /-- At most one operation of a workload is with an executor. -/
  one : (c.openOps.map (·.key)).Nodup
  /-- A later deploy has a greater generation, as long as there is one. -/
  fresh : c.ops.Pairwise fun a b => a.kind = .deploy → b.kind = .deploy →
    b.generation < i64Max → a.generation < b.generation
  /-- A remove of what was deployed before it names nothing that is deployed later. -/
  remove : ∀ before r middle later after,
    c.ops = before ++ r :: middle ++ later :: after → r.kind = .remove → later.kind = .deploy →
    later.generation < i64Max →
    (∃ e ∈ before,e.kind = .deploy ∧ e.generation = r.generation) →
    r.generation ≠ later.generation

/-- The effect is the operation again. -/
def Effect.repeats (e : Effect) (op : OpRow) : Prop :=
  e.op = op.id ∧ e.kind = op.kind ∧ e.generation = op.generation ∧ e.address = op.address

/-- Every operation that is with the executor of a sync, and stays so, is among the
effects of the sync. -/
def HandedAgain (c : AppController) (r : Request) : Prop :=
  ∀ req now,r = .sync req now → req.mode = .rust → validate req = none →
    ∀ op ∈ c.openOps,op.executor = req.executor → op ∈ (step c r).openOps →
      ∃ e ∈ handed c r,e.repeats op

/-- No operation comes to be of a workload that core does not want: a sync in rust
mode drops nothing unknown whose container is there, unless an operation of it is
open, and one in shadow mode drops nothing that has one. -/
def leavesNone (c : AppController) : Request → Bool
  | .sync req _ => (validate req).isSome || match req.mode with
    | .rust => req.forget.all fun k =>
        (c.intake req).desired.contains k.id || !(seenOf req.observed).contains k.id ||
          c.openOps.any fun op => op.key = k.id ∧ op.executor = req.executor
    | .shadow => c.openOps.all fun op =>
        !((c.intake req).desired.get? op.key).any (·.2) ||
          ((seenOf req.observed).get? op.key).any (·.running)
  | _ => true

end Flagship.Apps

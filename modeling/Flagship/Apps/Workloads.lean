import Flagship.Lib.OrdMap
import Flagship.Lib.Text

namespace Flagship.Apps
open Lib

def isDigit (c : Char) : Bool := '0' ≤ c && c ≤ '9'

def digitValue (c : Char) : Nat := c.toNat - 48

/-- The number a text of digits stands for. -/
def decimal (digits : Text) : Nat := digits.foldl (fun n c => n * 10 + digitValue c) 0

/-- One part of a dotted address. -/
def parsePart (part : Text) : Option Nat :=
  if part = [] ∨ 3 < part.length ∨ !part.all isDigit then none
  else if 255 < decimal part then none
  else some (decimal part)

def parseIp (ip : Text) : Option Nat :=
  ((ip.splitOn '.').mapM parsePart).bind fun parts =>
    if parts.length = 4 then some (parts.foldl (fun n v => n * 256 + v) 0) else none

def formatIp (n : Nat) : Text :=
  Nat.toDigits 10 (n / 2 ^ 24 % 256) ++ '.' :: Nat.toDigits 10 (n / 2 ^ 16 % 256) ++
    '.' :: Nat.toDigits 10 (n / 2 ^ 8 % 256) ++ '.' :: Nat.toDigits 10 (n % 256)

/-- Who holds an address: a workload, or something of the engine (`engine:` and a
tag in the code; the name of a workload has no colon). -/
inductive Holder
  | owner (id : Text)
  | engine (tag : Text)
  deriving DecidableEq

/-- The addresses of one bridge. -/
structure AddressPool where
  first : Nat
  last : Nat
  byOwner : OrdMap Text Text
  byIp : OrdMap Text Holder
  quarantine : OrdMap Text Nat
  reserved : List Text
  quarantineMs : Nat
  deriving DecidableEq

def u32Max : Nat := 2 ^ 32 - 1

def u64Max : Nat := 2 ^ 64 - 1

namespace AddressPool

def defaultQuarantineMs : Nat := 60000

/-- What stands before and after the first slash. -/
def splitSubnet (subnet : Text) : Option (Text × Text) :=
  match subnet.span (· ≠ '/') with
  | (_,[]) => none
  | (addr,_ :: bits) => some (addr,bits)

/-- A pool, or none for a subnet that cannot be used. The network address and the
conventional gateway are never given out, nor is the broadcast address. -/
def new (subnet : Text) (reserved : List Text) (quarantineMs : Nat) : Option AddressPool := do
  let (addr,bits) ← splitSubnet subnet
  let baseIp ← parseIp addr
  guard (bits ≠ [] ∧ bits.all isDigit ∧ 16 ≤ decimal bits ∧ decimal bits ≤ 29)
  let size := 2 ^ (32 - decimal bits)
  let base := baseIp / size * size
  return {
    first := min (base + 2) u32Max
    last := min (base + size) u32Max - 2
    byOwner := ∅
    byIp := ∅
    quarantine := ∅
    reserved := reserved
    quarantineMs := quarantineMs }

/-- An address that may be given to a workload. -/
def isFree (pool : AddressPool) (ip : Text) : Bool :=
  !(pool.byIp.contains ip || pool.quarantine.contains ip || pool.reserved.contains ip)

/-- The addresses of the range, lowest first. -/
def range (pool : AddressPool) : List Text :=
  (List.range' pool.first (pool.last + 1 - pool.first)).map formatIp

/-- What is left of the quarantine. -/
def expire (pool : AddressPool) (nowMs : Nat) : AddressPool :=
  { pool with
    quarantine := pool.quarantine.filterMapVals fun _ ends =>
      if nowMs < ends then some ends else none }

def give (pool : AddressPool) (owner ip : Text) : AddressPool :=
  { pool with byOwner := pool.byOwner.set owner ip,byIp := pool.byIp.set ip (.owner owner) }

/-- The owner's address, assigned on first use; none where the pool is full. -/
def assign (pool : AddressPool) (owner : Text) (nowMs : Nat) : AddressPool × Option Text :=
  match pool.byOwner.get? owner with
  | some ip => (pool,some ip)
  | none =>
    let pool := pool.expire nowMs
    match pool.range.find? pool.isFree with
    | some ip => (pool.give owner ip,some ip)
    | none => (pool,none)

/-- An address a container holds that this process did not give out. -/
def occupy (pool : AddressPool) (ip tag : Text) : AddressPool :=
  if pool.byIp.contains ip then pool
  else { pool with byIp := pool.byIp.set ip (.engine tag) }

/-- A container holds the address for this owner. -/
def adopt (pool : AddressPool) (owner ip : Text) : AddressPool :=
  if pool.byOwner.contains owner ∨ pool.byIp.contains ip then pool.occupy ip owner
  else pool.give owner ip

/-- The engine has no container any more behind an occupied address. -/
def vacate (pool : AddressPool) (ip : Text) : AddressPool :=
  match pool.byIp.get? ip with
  | some (.engine _) => { pool with byIp := pool.byIp.erase ip }
  | _ => pool

def ownerOf (pool : AddressPool) (ip : Text) : Option Holder := pool.byIp.get? ip

def addressOf (pool : AddressPool) (owner : Text) : Option Text := pool.byOwner.get? owner

/-- The address stays out of use for the quarantine. -/
def release (pool : AddressPool) (owner : Text) (nowMs : Nat) : AddressPool :=
  match pool.byOwner.get? owner with
  | none => pool
  | some ip =>
    { pool with
      byOwner := pool.byOwner.erase owner
      byIp := pool.byIp.erase ip
      quarantine := pool.quarantine.set ip (min (nowMs + pool.quarantineMs) u64Max) }

end AddressPool

inductive Mode
  | shadow
  | rust
  deriving DecidableEq

structure Resources where
  memoryBytes : Nat
  deriving DecidableEq

/-- One workload the daemon wants. -/
structure DesiredWorkload where
  installation : Text
  component : Text
  network : Text
  specDigest : Text
  running : Bool
  epoch : Nat
  resources : Resources
  wantsAddress : Bool
  deriving DecidableEq

/-- One container as the engine reports it, with its address on each network. -/
structure ObservedContainer where
  name : Text
  installation : Text
  component : Text
  generation : Option Int
  running : Bool
  addresses : OrdMap Text Text
  deriving DecidableEq

structure NetworkInfo where
  name : Text
  subnet : Text
  gateways : List Text
  deriving DecidableEq

structure OccupiedAddress where
  network : Text
  ip : Text
  deriving DecidableEq

structure WorkloadKey where
  installation : Text
  component : Text
  deriving DecidableEq

def WorkloadKey.id (k : WorkloadKey) : Text := k.installation ++ '/' :: k.component

def DesiredWorkload.key (d : DesiredWorkload) : WorkloadKey := ⟨d.installation,d.component⟩

def ObservedContainer.key (o : ObservedContainer) : WorkloadKey := ⟨o.installation,o.component⟩

/-- The memory of the box; zero where it is not known. -/
structure Capacity where
  memoryBytes : Nat
  deriving DecidableEq

structure SyncRequest where
  executor : Text
  mode : Mode
  desired : List DesiredWorkload
  /-- Workloads the daemon dropped for good. -/
  forget : List WorkloadKey
  observed : List ObservedContainer
  networks : List NetworkInfo
  /-- What containers hold that core does not own. -/
  occupied : List OccupiedAddress
  capacity : Capacity
  deriving DecidableEq

inductive EffectKind
  | deploy
  | remove
  deriving DecidableEq

def EffectKind.text : EffectKind → Text
  | .deploy => "deploy".toList
  | .remove => "remove".toList

/-- One effect for the executor. -/
structure Effect where
  op : Nat
  kind : EffectKind
  installation : Text
  component : Text
  generation : Int
  specDigest : Option Text
  epoch : Nat
  network : Text
  address : Option Text
  deriving DecidableEq

inductive Outcome
  | ok
  /-- The effect certainly did not happen. -/
  | definite
  /-- Nobody knows. -/
  | unknown
  deriving DecidableEq

structure SettleRequest where
  executor : Text
  op : Nat
  outcome : Outcome
  detail : Option Text
  /-- The engine said that this address is held by something else. -/
  conflictIp : Option Text
  deriving DecidableEq

inductive WorkloadState
  | running
  | pending
  | stopped
  | unschedulable
  | failed
  /-- An effect is with the executor. -/
  | waiting
  deriving DecidableEq

structure WorkloadStatus where
  installation : Text
  component : Text
  state : WorkloadState
  generation : Option Int
  reason : Option Text
  deriving DecidableEq

structure SyncResponse where
  mode : Mode
  live : Bool
  effects : List Effect
  workloads : List WorkloadStatus
  divergent : List Text
  agreePasses : Nat
  unmanaged : List Text
  term : Nat
  deriving DecidableEq

/-- The container core last put there. -/
structure Deployed where
  generation : Int
  specDigest : Text
  epoch : Nat
  network : Text
  address : Option Text
  deriving DecidableEq

inductive OpState
  | intent
  | done
  | failed
  | abandoned
  deriving DecidableEq

structure OpRow where
  id : Nat
  key : Text
  kind : EffectKind
  generation : Int
  specDigest : Option Text
  epoch : Nat
  network : Text
  address : Option Text
  executor : Text
  state : OpState
  detail : Option Text
  updatedAt : Nat
  deriving DecidableEq

/-- A request that is refused. -/
structure AppsError where
  bad : Text
  deriving DecidableEq

def i64Max : Int := 2 ^ 63 - 1

/-- `u(i(v))`: what a column gives back of a number. -/
def stored (v : Nat) : Nat := min v (2 ^ 63 - 1)

def validName (s : Text) (max : Nat) : Bool :=
  s ≠ [] && s.length ≤ max && s.all (fun c => ('a' ≤ c && c ≤ 'z') || isDigit c || c = '-') &&
    s.head? ≠ some '-'

def validNetwork (s : Text) : Bool :=
  s ≠ [] && s.length ≤ 64 && s.all fun c =>
    ('a' ≤ c && c ≤ 'z') || ('A' ≤ c && c ≤ 'Z') || isDigit c || c = '-' || c = '_' || c = '.'

def validHex64 (s : Text) : Bool :=
  s.length = 64 && s.all fun c => isDigit c || ('a' ≤ c && c ≤ 'f')

/-- What is wrong with a workload. -/
def DesiredWorkload.validate (d : DesiredWorkload) : Option AppsError :=
  if !validName d.installation 160 || !validName d.component 64 then
    some ⟨"bad workload name ".toList ++ d.key.id⟩
  else if !validNetwork d.network then some ⟨"bad network ".toList ++ d.network⟩
  else if !validHex64 d.specDigest then some ⟨"spec digest is not 64 lowercase hex".toList⟩
  else none

/-- The first workload that is wrong, or listed before. -/
def validateDesired : List DesiredWorkload → List WorkloadKey → Option AppsError
  | [],_ => none
  | d :: rest,keys =>
    match d.validate with
    | some e => some e
    | none =>
      if keys.contains d.key then some ⟨d.key.id ++ " is listed twice".toList⟩
      else validateDesired rest (d.key :: keys)

def validateObserved : List ObservedContainer → Option AppsError
  | [] => none
  | o :: rest =>
    if !validName o.installation 160 || !validName o.component 64 then
      some ⟨"bad observed workload ".toList ++ o.name⟩
    else validateObserved rest

def byteLength (s : Text) : Nat := (s.map Char.utf8Size).sum

def validate (req : SyncRequest) : Option AppsError :=
  if req.executor = [] ∨ 64 < byteLength req.executor then some ⟨"bad executor id".toList⟩
  else (validateDesired req.desired []).or (validateObserved req.observed)

/-- A number no earlier deploy has had. -/
def nextGeneration (last nowMs : Int) : Int := max (min (last + 1) i64Max) nowMs

def memoryOvercommit : Nat := 2

def satAdd (a b : Nat) : Nat := min (a + b) u64Max

def satMul (a b : Nat) : Nat := min (a * b) u64Max

def mib (b : Nat) : Text := Nat.toDigits 10 (b / (1024 * 1024))

/-- Why a workload does not fit in the memory that is left, if it does not. -/
def fits (cap : Capacity) (committedBytes : Nat) (want : Resources) : Option Text :=
  if cap.memoryBytes = 0 then none
  else if satAdd committedBytes want.memoryBytes ≤ satMul cap.memoryBytes memoryOvercommit then none
  else some ("not enough memory on this server: it needs ".toList ++ mib want.memoryBytes ++
    " MiB, and ".toList ++ mib committedBytes ++ " MiB of ".toList ++
    mib (satMul cap.memoryBytes memoryOvercommit) ++
    " MiB is already promised to running apps".toList)

end Flagship.Apps

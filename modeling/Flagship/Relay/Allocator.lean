import Mathlib.Data.Finset.Insert
import Mathlib.Data.Finset.Erase
import Mathlib.Data.List.Sort
import Flagship.Lib.OrdMap
import Flagship.Lib.Run
import Flagship.Relay.Names

namespace Flagship.Relay
open Lib

def defaultApex : Text := "flagship.services".toList

inductive TransferError
  | notDerivable | podNotRegistered | notParseable | appsStopped | controlNameReserved
  deriving DecidableEq

/-- A slot given up (`from` the leaving pod `to` its heir). -/
structure Redistributed where
  fqdn : Text
  leaving : Text
  heir : Option Text
  deriving DecidableEq

structure AddPodResult where
  affectedSets : List SetKey
  shortenedsHeld : List Text

structure RemovePodResult where
  affectedSets : List SetKey
  redistributed : List Redistributed

structure PodEntry where
  firstRegisteredAt : Nat
  canonicals : Finset Text
  derivable : Finset Text
  setKeys : OrdSet Text

/-- One (slug, author, user) set: who is in it, who holds each of its slots and
who waits for each of them. -/
structure SetEntry where
  key : SetKey
  members : OrdMap Text Text
  slotHolders : OrdMap Text Text
  candidateQueue : OrdMap Text (List Text)

structure SnapshotMember where
  podCanonical : Text
  canonicalForSet : Text
  joinedAt : Nat
  deriving DecidableEq

structure Snapshot where
  key : SetKey
  members : List SnapshotMember
  slotHolders : List (Text × Text)
  deriving DecidableEq

abbrev Pods := OrdMap Text PodEntry

abbrev Sets := OrdMap Text SetEntry

/-- The allocator's apex is lowercased when it is made. `appsStopped` holds the
pods whose serving decision says `apps: false`. -/
structure Allocator [Lowercase] where
  pods : Pods
  sets : Sets
  appsStopped : Finset Text
  apex : Text
  apexLower : IsLower apex

def SetEntry.new (key : SetKey) : SetEntry := ⟨key,∅,∅,∅⟩

/-- The set of a key, made empty when there is none. -/
def setEntry (sets : Sets) (key : SetKey) : SetEntry :=
  (sets.get? key.encode).getD (SetEntry.new key)

def enqueue (set : SetEntry) (slot pod : Text) : SetEntry :=
  let q := (set.candidateQueue.get? slot).getD []
  { set with candidateQueue := set.candidateQueue.set slot (if pod ∈ q then q else q ++ [pod]) }

/-- Become a member under the first name that placed the pod in the set. -/
def joinMembers (set : SetEntry) (pod name : Text) : SetEntry :=
  if set.members.contains pod then set else { set with members := set.members.set pod name }

/-- The earlier registered of two members, the smaller name on a tie. -/
def betterHeir (best : Option (Text × Nat)) (m : Text) (since : Nat) : Option (Text × Nat) :=
  match best with
  | none => some (m,since)
  | some (b,t) => if since < t ∨ since = t ∧ m < b then some (m,since) else some (b,t)

/-- A queued candidate which is registered, a member and serving. -/
def liveCandidate (pods : Pods) (stopped : Finset Text) (set : SetEntry) (slot : Text) :
    Option Text :=
  ((set.candidateQueue.get? slot).getD []).find?
    (fun c => pods.contains c && set.members.contains c && decide (c ∉ stopped))

/-- The longest registered serving member, whatever it queued for. -/
def fallbackHeir (pods : Pods) (stopped : Finset Text) (set : SetEntry) : Option Text :=
  (set.members.keys.foldl (fun best m =>
    if m ∈ stopped then best
    else match pods.get? m with
      | none => best
      | some p => betterHeir best m p.firstRegisteredAt) none).map Prod.fst

def pickHeir (pods : Pods) (stopped : Finset Text) (set : SetEntry) (slot : Text) : Option Text :=
  match liveCandidate pods stopped set slot with
  | some c => some c
  | none => fallbackHeir pods stopped set

/-- The slots a pod holds in a set, in slot order. -/
def heldSlots (set : SetEntry) (pc : Text) : List Text :=
  (set.slotHolders.entries.filter (fun e => e.2 == pc)).map Prod.fst

def assignSlot (set : SetEntry) (slot : Text) (heir : Option Text) : SetEntry :=
  match heir with
  | some h => { set with slotHolders := set.slotHolders.set slot h }
  | none => { set with slotHolders := set.slotHolders.erase slot }

/-- Hand every listed slot on, or free it. -/
def handOver (pods : Pods) (stopped : Finset Text) (pc : Text) (set : SetEntry)
    (slots : List Text) : SetEntry × List Redistributed :=
  slots.foldl (fun (set,out) slot =>
    let heir := pickHeir pods stopped set slot
    (assignSlot set slot heir,out ++ [⟨slot,pc,heir⟩])) (set,[])

/-- The keys of the sets in a list which still exist. -/
def keysOf (sets : Sets) (affected : OrdSet Text) : List SetKey :=
  affected.keys.filterMap (fun k => (sets.get? k).map SetEntry.key)

section
variable [Lowercase]

namespace Allocator

def new (apex : Text) : Allocator := ⟨∅,∅,∅,toLowercase apex,isLower_toLowercase apex⟩

def isControlName (a : Allocator) (fqdn : Text) : Bool := a.pods.contains (toLowercase fqdn)

/-- The names of a registration: lowercased, no wildcards, each once, the pod's
own name last when it was not listed. -/
def orderedNames (pc : Text) (canonicals : List Text) : OrdSet Text :=
  let ordered := canonicals.foldl (fun acc c =>
    let l := toLowercase c
    if l.contains '*' then acc else acc.push l) (∅ : OrdSet Text)
  ordered.push pc

def derivableNames (ordered : OrdSet Text) (apex : Text) : OrdSet Text :=
  ordered.keys.foldl (fun acc c => (derivableShorteneds c apex).foldl OrdMap.push acc) ∅

/-- What one loop of `add_pod_serving` carries. -/
structure AddLoop where
  sets : Sets
  setKeys : OrdSet Text
  affected : OrdSet Text
  held : List Text

/-- One name of a registration: join its set, queue for it, and claim it when
`claim` allows and nobody holds it. -/
def joinSet (apex pc : Text) (claim : Text → Bool) (st : AddLoop) (name : Text) : AddLoop :=
  match parseSetKey name apex with
  | none => st
  | some key =>
    let ks := key.encode
    let set := enqueue (joinMembers (setEntry st.sets key) pc name) name pc
    let claimed := claim name && !set.slotHolders.contains name
    { sets := st.sets.set ks
        (if claimed then { set with slotHolders := set.slotHolders.set name pc } else set)
      setKeys := st.setKeys.push ks
      affected := st.affected.push ks
      held := if claimed then st.held ++ [name] else st.held }

/-- A listed canonical is claimed only in the short, leader-routed form. -/
def claimCanonical (apex pc : Text) (control : Finset Text) (appsAllowed : Bool) (c : Text) : Bool :=
  appsAllowed && decide (c ≠ pc) && isShortServiceCanonical c apex && decide (c ∉ control)

def claimDerived (control : Finset Text) (appsAllowed : Bool) (sh : Text) : Bool :=
  appsAllowed && decide (sh ∉ control)

/-- Both loops of a registration. -/
def addLoops (sets : Sets) (apex pc : Text) (control : Finset Text) (appsAllowed : Bool)
    (ordered : OrdSet Text) : AddLoop :=
  (derivableNames ordered apex).keys.foldl (joinSet apex pc (claimDerived control appsAllowed))
    (ordered.keys.foldl (joinSet apex pc (claimCanonical apex pc control appsAllowed))
      ⟨sets,∅,∅,[]⟩)

def stopFlag (stopped : Finset Text) (pc : Text) (appsAllowed : Bool) : Finset Text :=
  if appsAllowed then stopped.erase pc else insert pc stopped

def addPodServing (a : Allocator) (podCanonical : Text) (canonicals : List Text) (nowMs : Nat)
    (appsAllowed : Bool) : Allocator × AddPodResult :=
  let pc := toLowercase podCanonical
  let control := insert pc a.pods.keys.toFinset
  let ordered := orderedNames pc canonicals
  let loop := addLoops a.sets a.apex pc control appsAllowed ordered
  let entry : PodEntry :=
    { firstRegisteredAt := ((a.pods.get? pc).map PodEntry.firstRegisteredAt).getD nowMs
      canonicals := ordered.keys.toFinset
      derivable := (derivableNames ordered a.apex).keys.toFinset
      setKeys := loop.setKeys }
  ({ a with
      pods := a.pods.set pc entry
      sets := loop.sets
      appsStopped := stopFlag a.appsStopped pc appsAllowed },
    ⟨keysOf loop.sets loop.affected,loop.held⟩)

def addPod (a : Allocator) (podCanonical : Text) (canonicals : List Text) (nowMs : Nat) :
    Allocator × AddPodResult :=
  a.addPodServing podCanonical canonicals nowMs true

/-- One label under the pod's own user zone. -/
def inOwnUserZone (a : Allocator) (podCanonical fqdn : Text) : Bool :=
  isShortServiceCanonical fqdn a.apex &&
    match userOf podCanonical a.apex,userOf fqdn a.apex with
    | some u,some v => u == v
    | _,_ => false

/-- The own-zone case joins the set first, so that the name follows the box's
socket death like any other held slot. -/
def joinOwnZone (a : Allocator) (pc fq : Text) (key : SetKey) : Allocator :=
  { a with
    sets := a.sets.set key.encode (enqueue (joinMembers (setEntry a.sets key) pc fq) fq pc)
    pods := match a.pods.get? pc with
      | none => a.pods
      | some p => a.pods.set pc { p with setKeys := p.setKeys.push key.encode } }

/-- Put the pod in front of the slot's queue and give it the slot. -/
def promote (set : SetEntry) (fq pc : Text) : SetEntry :=
  let q := (set.candidateQueue.get? fq).getD []
  { set with
    candidateQueue := set.candidateQueue.set fq (pc :: q.filter (· != pc))
    slotHolders := set.slotHolders.set fq pc }

def requestTransfer (a : Allocator) (podCanonical fqdn : Text) :
    Allocator × Except TransferError (SetKey × Option Text) :=
  let pc := toLowercase podCanonical
  let fq := toLowercase fqdn
  match a.pods.get? pc with
  | none => (a,.error .podNotRegistered)
  | some pod =>
    if pc ∈ a.appsStopped then (a,.error .appsStopped)
    else match parseSetKey fq a.apex with
    | none => (a,.error .notParseable)
    | some key =>
      if fq ≠ pc ∧ a.pods.contains fq then (a,.error .controlNameReserved)
      else
        let derivable := decide (fq ∈ pod.derivable) || decide (fq ∈ pod.canonicals)
        let ownZone := !derivable && a.inOwnUserZone pc fq
        if !derivable && !ownZone then (a,.error .notDerivable)
        else
          let a := if ownZone then a.joinOwnZone pc fq key else a
          match a.sets.get? key.encode with
          | none => (a,.error .notParseable)
          | some set =>
            ({ a with sets := a.sets.set key.encode (promote set fq pc) },
              .ok (key,set.slotHolders.get? fq))

/-- Take a pod out of a set's members and queues. -/
def forgetPod (set : SetEntry) (pc : Text) : SetEntry :=
  { set with
    members := set.members.erase pc
    candidateQueue := set.candidateQueue.filterMapVals (fun _ q =>
      let q := q.filter (· != pc)
      if q.isEmpty then none else some q) }

structure GiveUpLoop where
  sets : Sets
  affected : OrdSet Text
  redistributed : List Redistributed

/-- One set of a removal. A set with nobody left in it is dropped. -/
def leaveSet (pods : Pods) (stopped : Finset Text) (pc : Text) (st : GiveUpLoop) (ks : Text) :
    GiveUpLoop :=
  match st.sets.get? ks with
  | none => st
  | some set =>
    let set := forgetPod set pc
    let (set,out) := handOver pods stopped pc set (heldSlots set pc)
    { sets := if set.members.size = 0 ∧ set.slotHolders.size = 0 then st.sets.erase ks
        else st.sets.set ks set
      affected := st.affected.push ks
      redistributed := st.redistributed ++ out }

def removePod (a : Allocator) (podCanonical : Text) : Allocator × RemovePodResult :=
  let pc := toLowercase podCanonical
  match a.pods.get? pc with
  | none => (a,⟨[],[]⟩)
  | some pod =>
    let loop := pod.setKeys.keys.foldl (leaveSet a.pods a.appsStopped pc) ⟨a.sets,∅,[]⟩
    ({ a with
        pods := a.pods.erase pc
        sets := loop.sets
        appsStopped := a.appsStopped.erase pc },
      ⟨keysOf loop.sets loop.affected,loop.redistributed⟩)

/-- One set of a serving stop. -/
def stopInSet (pods : Pods) (stopped : Finset Text) (pc : Text) (st : GiveUpLoop) (ks : Text) :
    GiveUpLoop :=
  match st.sets.get? ks with
  | none => st
  | some set =>
    let held := heldSlots set pc
    let (set,out) := handOver pods stopped pc set held
    { sets := st.sets.set ks set
      affected := if held.isEmpty then st.affected else st.affected.push ks
      redistributed := st.redistributed ++ out }

/-- The free slots a resuming pod is queued for and may hold, in name order. -/
def freeSlots (apex pc : Text) (derivable : Finset Text) (set : SetEntry) : List Text :=
  (set.candidateQueue.entries.filter (fun (slot,q) =>
    decide (slot ≠ pc) && !set.slotHolders.contains slot && decide (pc ∈ q) &&
      (decide (slot ∈ derivable) || isShortServiceCanonical slot apex))).map Prod.fst
    |>.insertionSort (· ≤ ·)

/-- One set of a serving resume. -/
def resumeInSet (apex pc : Text) (derivable : Finset Text) (st : GiveUpLoop) (ks : Text) :
    GiveUpLoop :=
  match st.sets.get? ks with
  | none => st
  | some set =>
    let free := freeSlots apex pc derivable set
    { sets := st.sets.set ks
        { set with slotHolders := free.foldl (fun m slot => m.set slot pc) set.slotHolders }
      affected := if free.isEmpty then st.affected else st.affected.push ks
      redistributed := st.redistributed }

def setAppsAllowed (a : Allocator) (podCanonical : Text) (allowed : Bool) :
    Allocator × RemovePodResult :=
  let pc := toLowercase podCanonical
  match a.pods.get? pc with
  | none => (a,⟨[],[]⟩)
  | some pod =>
    if allowed ≠ decide (pc ∈ a.appsStopped) then (a,⟨[],[]⟩)
    else
      let stopped := stopFlag a.appsStopped pc allowed
      let loop := pod.setKeys.keys.foldl
        (if allowed then resumeInSet a.apex pc pod.derivable else stopInSet a.pods stopped pc)
        ⟨a.sets,∅,[]⟩
      ({ a with sets := loop.sets, appsStopped := stopped },
        ⟨keysOf loop.sets loop.affected,loop.redistributed⟩)

def appsAllowed (a : Allocator) (podCanonical : Text) : Bool :=
  decide (toLowercase podCanonical ∉ a.appsStopped)

def findHolder (a : Allocator) (fqdn : Text) : Option Text :=
  let lower := toLowercase fqdn
  if a.pods.contains lower then some lower
  else do
    let key ← parseSetKey lower a.apex
    let set ← a.sets.get? key.encode
    set.slotHolders.get? lower

def memberLe (m n : SnapshotMember) : Bool :=
  decide (m.joinedAt < n.joinedAt) ||
    decide (m.joinedAt = n.joinedAt) && decide (¬n.podCanonical < m.podCanonical)

def snapshotSet (a : Allocator) (set : SetEntry) : Snapshot :=
  { key := set.key
    members := (set.members.entries.map (fun e =>
      (⟨e.1,e.2,((a.pods.get? e.1).map PodEntry.firstRegisteredAt).getD 0⟩ : SnapshotMember))).mergeSort
        memberLe
    slotHolders := set.slotHolders.entries.mergeSort (fun s t => decide (¬t.1 < s.1)) }

def snapshotByKey (a : Allocator) (key : SetKey) : Option Snapshot :=
  (a.sets.get? key.encode).map a.snapshotSet

/-- Every call that changes an allocator. -/
inductive Op
  | addPodServing (podCanonical : Text) (canonicals : List Text) (nowMs : Nat) (appsAllowed : Bool)
  | requestTransfer (podCanonical fqdn : Text)
  | setAppsAllowed (podCanonical : Text) (allowed : Bool)
  | removePod (podCanonical : Text)

def step (a : Allocator) : Op → Allocator
  | .addPodServing pod canonicals nowMs apps => (a.addPodServing pod canonicals nowMs apps).1
  | .requestTransfer pod fqdn => (a.requestTransfer pod fqdn).1
  | .setAppsAllowed pod allowed => (a.setAppsAllowed pod allowed).1
  | .removePod pod => (a.removePod pod).1

/-- The hand-overs a call reports. -/
def redistributed (a : Allocator) : Op → List Redistributed
  | .setAppsAllowed pod allowed => (a.setAppsAllowed pod allowed).2.redistributed
  | .removePod pod => (a.removePod pod).2.redistributed
  | _ => []

end Allocator
end

/-- Two boxes of one account, for runs on fixed names. -/
def homePod : Text := "home.alice.flagship.services".toList

def cabinPod : Text := "cabin.alice.flagship.services".toList

/-- A box's serving decision as routing sees it: its exact control name routes
while `control`, every other name only while `apps` too. -/
structure ServingView where
  control : Bool
  apps : Bool
  deriving DecidableEq

/-- The tunnels by pod, over any kind of tunnel handle. A pod without a serving
view routes under every name. -/
structure Registry [Lowercase] (T : Type) where
  tunnels : OrdMap Text T
  phone : Option (Text → Option T)
  serving : OrdMap Text ServingView
  redirections : OrdMap Text Text
  knownBoxCanonicals : Finset Text
  allocator : Allocator
  apex : Text

/-- `<account>.<apex>` with an account label. -/
def bareAccount (lower apex : Text) : Bool :=
  match stripApex lower apex with
  | none => false
  | some head =>
    !head.isEmpty && decide (head.length ≤ 63) && head.head?.any lowerAlnum &&
      head.getLast?.any lowerAlnum && head.all (fun c => lowerAlnum c || c == '-')

/-- What follows the first `.`. -/
def parentOf : Text → Option Text
  | [] => none
  | c :: rest => if c = '.' then some rest else parentOf rest

namespace Registry
variable [Lowercase] {T : Type}

def new (apex : Text) : Registry T :=
  ⟨∅,none,∅,∅,∅,Allocator.new (toLowercase apex),toLowercase apex⟩

def register (r : Registry T) (podCanonical : Text) (tunnel : T) (canonicals : List Text)
    (nowMs : Nat) : Registry T × AddPodResult :=
  let pc := toLowercase podCanonical
  let apps := ((r.serving.get? pc).map ServingView.apps).getD true
  let (allocator,added) := r.allocator.addPodServing pc canonicals nowMs apps
  ({ r with
      tunnels := r.tunnels.set pc tunnel
      knownBoxCanonicals := insert pc r.knownBoxCanonicals
      allocator },added)

def setServing (r : Registry T) (podCanonical : Text) (view : ServingView) :
    Registry T × List SetKey :=
  let pc := toLowercase podCanonical
  let r := { r with serving := r.serving.set pc view }
  if r.tunnels.contains pc then
    let (allocator,moved) := r.allocator.setAppsAllowed pc view.apps
    ({ r with allocator },moved.affectedSets)
  else (r,[])

def setPhoneRoutes (r : Registry T) (lookup : Option (Text → Option T)) : Registry T :=
  { r with phone := lookup }

def isCurrent (r : Registry T) (podCanonical : Text) (isCurrent : T → Bool) : Bool :=
  (r.tunnels.get? (toLowercase podCanonical)).any isCurrent

def requestTransfer (r : Registry T) (podCanonical fqdn : Text) :
    Registry T × Except TransferError (SetKey × Option Text) :=
  let (allocator,answer) := r.allocator.requestTransfer podCanonical fqdn
  ({ r with allocator },answer)

/-- Unregister only while the pod is still held by the closing tunnel. -/
def unregisterIf (r : Registry T) (podCanonical : Text) (isCurrent : T → Bool) :
    Registry T × Option RemovePodResult :=
  let pc := toLowercase podCanonical
  if (r.tunnels.get? pc).any isCurrent then
    let (allocator,removed) := r.allocator.removePod pc
    ({ r with tunnels := r.tunnels.erase pc, serving := r.serving.erase pc, allocator },some removed)
  else (r,none)

/-- The pod a name resolves to: exact, one label stripped, the pod's own name,
a custom domain. -/
def resolve (r : Registry T) (lower : Text) : Option Text :=
  let online (h : Text) : Option Text := if r.tunnels.contains h then some h else none
  if lower.contains '*' then none
  else match r.allocator.findHolder lower with
  | some h => online h
  | none => do
    let parent ← parentOf lower
    match r.allocator.findHolder parent with
    | some h => online h
    | none =>
      if r.tunnels.contains parent then some parent
      else do
        let pod ← r.redirections.get? lower
        online pod

def findBySni (r : Registry T) (sni : Text) : Option T :=
  let lower := toLowercase sni
  if bareAccount lower r.apex then r.phone.bind (fun lookup => lookup lower)
  else do
    let pc ← r.resolve lower
    match r.serving.get? pc with
    | none => r.tunnels.get? pc
    | some v =>
      if v.control = false then none
      else if v.apps = true ∨ lower = pc then r.tunnels.get? pc
      else none

def addRedirection (r : Registry T) (fqdn pod : Text) : Registry T :=
  { r with redirections := r.redirections.set (toLowercase fqdn) (toLowercase pod) }

def removeRedirection (r : Registry T) (fqdn : Text) : Registry T :=
  { r with redirections := r.redirections.erase (toLowercase fqdn) }

def loadRedirections (r : Registry T) (entries : List (Text × Text)) : Registry T :=
  entries.foldl (fun r e => r.addRedirection e.1 e.2) { r with redirections := ∅ }

/-- Every critical section on the registry's lock that changes it. A tunnel
closes by its identity. -/
inductive Op (T : Type)
  | register (podCanonical : Text) (tunnel : T) (canonicals : List Text) (nowMs : Nat)
  | setServing (podCanonical : Text) (view : ServingView)
  | setPhoneRoutes (lookup : Option (Text → Option T))
  | requestTransfer (podCanonical fqdn : Text)
  | unregisterIf (podCanonical : Text) (closing : T)
  | addRedirection (fqdn pod : Text)
  | removeRedirection (fqdn : Text)
  | loadRedirections (entries : List (Text × Text))

def step [DecidableEq T] (r : Registry T) : Op T → Registry T
  | .register pod tunnel canonicals nowMs => (r.register pod tunnel canonicals nowMs).1
  | .setServing pod view => (r.setServing pod view).1
  | .setPhoneRoutes lookup => r.setPhoneRoutes lookup
  | .requestTransfer pod fqdn => (r.requestTransfer pod fqdn).1
  | .unregisterIf pod closing => (r.unregisterIf pod (fun t => decide (t = closing))).1
  | .addRedirection fqdn pod => r.addRedirection fqdn pod
  | .removeRedirection fqdn => r.removeRedirection fqdn
  | .loadRedirections entries => r.loadRedirections entries

end Registry
end Flagship.Relay

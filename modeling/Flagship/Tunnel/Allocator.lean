import Flagship.Lib.Text
import Flagship.Lib.OrdMap

namespace Flagship.Tunnel
open Lib

structure AppUserSetKey where
  slug : Text
  author : Text
  user : Text
  deriving DecidableEq

def encodeSetKey (k : AppUserSetKey) : Text := k.slug ++ '|' :: k.author ++ '|' :: k.user

/-- The class `[a-z0-9]`. -/
def wordChar (c : Char) : Bool := ('a' ≤ c && c ≤ 'z') || ('0' ≤ c && c ≤ '9')

/-- The pattern `[a-z0-9][a-z0-9-]{0,62}`: a slug or a plain DNS label. -/
def labelOk : Text → Bool
  | [] => false
  | first :: rest =>
    wordChar first && decide (rest.length ≤ 62) && rest.all (fun c => wordChar c || c == '-')

/-- The pattern `[a-z0-9]{1,63}`: a username. -/
def userOk (s : Text) : Bool := decide (1 ≤ s.length) && decide (s.length ≤ 63) && s.all wordChar

/-- Where the last `c` stands. -/
def lastIndexOf (s : Text) (c : Char) : Option Nat :=
  (s.reverse.findIdx? (· == c)).map (fun i => s.length - 1 - i)

/-- The last hyphen of a label, when it is neither first nor last: the author is
hyphen-free, the slug need not be. -/
def dashIdx (leftmost : Text) : Option Nat :=
  match lastIndexOf leftmost '-' with
  | none => none
  | some i => if 0 < i ∧ i < leftmost.length - 1 then some i else none

/-- What stands in front of the apex and its dot. -/
def headUnder (lower apex : Text) : Option Text :=
  let apexSuffix := '.' :: apex
  if apexSuffix.isSuffixOf lower then some (lower.take (lower.length - apexSuffix.length)) else none

/-- The slug and the author a leftmost label names, in the zone of a user. -/
def slugAndAuthor (leftmost user : Text) : Text × Text :=
  match dashIdx leftmost with
  | some i => (leftmost.take i,leftmost.drop (i + 1))
  | none => (leftmost,user)

section
variable [Lowercase]

def parseSetKey (fqdn apex : Text) : Option AppUserSetKey :=
  match headUnder (toLowercase fqdn) apex with
  | none => none
  | some head =>
    let parts := head.splitOn '.'
    if head.length = 0 then none
    else if parts.length < 2 then none
    else if parts.any (fun p => !labelOk p) then none
    else
      let user := parts.getLastD []
      if !userOk user then none
      else
        let named := slugAndAuthor (parts.headD []) user
        if !labelOk named.1 || !userOk named.2 then none else some ⟨named.1,named.2,user⟩

/-- The shortened names of a canonical: without its host, and without its author. -/
def derivableShorteneds (canonical apex : Text) : List Text :=
  match headUnder (toLowercase canonical) apex with
  | none => []
  | some head =>
    let parts := head.splitOn '.'
    if head.contains '*' then []
    else if parts.length < 3 then []
    else
      let leftmost := parts.headD []
      let host := parts.getD (parts.length - 2) []
      let user := parts.getLastD []
      (leftmost ++ '.' :: user ++ '.' :: apex) ::
        match dashIdx leftmost with
        | none => []
        | some i =>
          let slug := leftmost.take i
          [slug ++ '.' :: user ++ '.' :: apex,slug ++ '.' :: host ++ '.' :: user ++ '.' :: apex]

/-- Exactly two plain labels under the apex. -/
def isShortServiceCanonical (fqdn apex : Text) : Bool :=
  match headUnder (toLowercase fqdn) apex with
  | none => false
  | some head =>
    let parts := head.splitOn '.'
    if head.length = 0 || head.contains '*' then false
    else if parts.length ≠ 2 then false
    else parts.all labelOk && userOk (parts.getD 1 [])

end

/-- Lowercased ASCII in the order of the root collation. -/
def collationOrder : Text :=
  "_-,;:!?.'\"()[]\x7b\x7d@*/\\&#%`^+<=>|~$0123456789abcdefghijklmnopqrstuvwxyz".toList

/-- `a.localeCompare(b) < 0`, for lowercased ASCII under the root collation. -/
def localeBefore (a b : Text) : Bool :=
  decide (a.map collationOrder.idxOf < b.map collationOrder.idxOf)

inductive TransferRejection
  | notDerivable | podNotRegistered | notParseable | appsStopped | controlNameReserved
  deriving DecidableEq

def TransferRejection.reason : TransferRejection → String
  | .notDerivable => "fqdn not derivable from any of pod's canonicals"
  | .podNotRegistered => "pod not registered"
  | .notParseable => "fqdn not parseable"
  | .appsStopped => "apps stopped"
  | .controlNameReserved => "control name reserved"

structure TransferResult where
  affectedSet : AppUserSetKey
  previousHolder : Option Text
  deriving DecidableEq

/-- A slot given up (`from` the leaving pod `to` its heir). -/
structure Redistributed where
  fqdn : Text
  leaving : Text
  heir : Option Text
  deriving DecidableEq

structure AddPodResult where
  affectedSets : List AppUserSetKey
  shortenedsHeld : List Text

structure RemovePodResult where
  affectedSets : List AppUserSetKey
  redistributed : List Redistributed

structure PodEntry where
  podCanonical : Text
  firstRegisteredAt : Nat
  canonicals : OrdSet Text
  derivableShorteneds : OrdSet Text
  setKeys : OrdSet Text

structure SetEntry where
  key : AppUserSetKey
  /-- A pod and the canonical that placed it here. -/
  members : OrdMap Text Text
  slotHolders : OrdMap Text Text
  /-- Who waits for a slot, its holder in front. -/
  candidateQueue : OrdMap Text (List Text)

abbrev Pods := OrdMap Text PodEntry

abbrev Sets := OrdMap Text SetEntry

structure AppUserAllocator where
  pods : Pods
  sets : Sets
  appsStopped : OrdSet Text
  reservedControl : OrdSet Text
  apex : Text

structure MemberSnapshot where
  podCanonical : Text
  canonicalForSet : Text
  joinedAt : Nat
  deriving DecidableEq

structure AppUserSetSnapshot where
  key : AppUserSetKey
  members : List MemberSnapshot
  slotHolders : List (Text × Text)
  deriving DecidableEq

def SetEntry.new (key : AppUserSetKey) : SetEntry := ⟨key,∅,∅,∅⟩

def enqueueCandidate (set : SetEntry) (slot pod : Text) : SetEntry :=
  match set.candidateQueue.get? slot with
  | none => { set with candidateQueue := set.candidateQueue.set slot [pod] }
  | some cur =>
    if pod ∈ cur then set
    else { set with candidateQueue := set.candidateQueue.set slot (cur ++ [pod]) }

def promoteToHead (set : SetEntry) (slot pod : Text) : SetEntry :=
  let cur := (set.candidateQueue.get? slot).getD []
  { set with candidateQueue := set.candidateQueue.set slot (pod :: cur.filter (· != pod)) }

def joinMembers (set : SetEntry) (pod name : Text) : SetEntry :=
  if set.members.contains pod then set else { set with members := set.members.set pod name }

/-- One member of the fallback: the longest running socket, the smaller name on a tie. -/
def longerRunning (best : Option (Text × Nat)) (m : Text) (since : Nat) : Option (Text × Nat) :=
  match best with
  | none => some (m,since)
  | some (b,t) => if since < t ∨ since = t ∧ localeBefore m b then some (m,since) else some (b,t)

/-- The heir of a slot whose holder left: the first of its queue that is
registered, a member and serving, or else the longest running serving member. -/
def pickHeir (pods : Pods) (stopped : OrdSet Text) (set : SetEntry) (slot : Text) : Option Text :=
  match ((set.candidateQueue.get? slot).getD []).find?
      (fun cand => pods.contains cand && set.members.contains cand && !stopped.contains cand) with
  | some cand => some cand
  | none =>
    (set.members.keys.foldl (fun best m =>
      match pods.get? m with
      | none => best
      | some pod =>
        if stopped.contains m then best else longerRunning best m pod.firstRegisteredAt)
      none).map Prod.fst

/-- The sets of a list which still exist. -/
def keysOf (sets : Sets) (affected : OrdSet Text) : List AppUserSetKey :=
  affected.keys.filterMap (fun k => (sets.get? k).map SetEntry.key)

section
variable [Lowercase]

namespace AppUserAllocator

def new (apex : Text) : AppUserAllocator := ⟨∅,∅,∅,∅,apex⟩

def reserveControlNames (a : AppUserAllocator) (names : List Text) : AppUserAllocator :=
  { a with reservedControl := names.foldl (fun r n => r.push (toLowercase n)) a.reservedControl }

/-- A box's own name, whoever asks. -/
def isControlName (a : AppUserAllocator) (fqdn : Text) : Bool :=
  a.pods.contains (toLowercase fqdn) || a.reservedControl.contains (toLowercase fqdn)

/-- What the two loops of a registration carry. -/
structure AddLoop where
  sets : Sets
  setKeys : OrdSet Text
  affected : OrdSet Text
  shortenedsHeld : List Text

/-- One name of a registration: join its set, queue for it, and claim it when it
may be claimed and nobody holds it. -/
def joinSet (apex pc : Text) (claim : Text → Bool) (st : AddLoop) (name : Text) : AddLoop :=
  match parseSetKey name apex with
  | none => st
  | some key =>
    let ks := encodeSetKey key
    let set := (st.sets.get? ks).getD (SetEntry.new key)
    let set := enqueueCandidate (joinMembers set pc name) name pc
    let claimed := claim name && !set.slotHolders.contains name
    { sets := st.sets.set ks
        (if claimed then { set with slotHolders := set.slotHolders.set name pc } else set)
      setKeys := st.setKeys.push ks
      affected := st.affected.push ks
      shortenedsHeld := if claimed then st.shortenedsHeld ++ [name] else st.shortenedsHeld }

/-- The names a registration indexes: a wildcard never, the pod's own always. -/
def canonicalSet (pc : Text) (canonicals : List Text) : OrdSet Text :=
  let set := canonicals.foldl (fun set c =>
    let lower := toLowercase c
    if lower.contains '*' then set else set.push lower) (∅ : OrdSet Text)
  set.push pc

def derivableSet (canonicals : OrdSet Text) (apex : Text) : OrdSet Text :=
  canonicals.keys.foldl (fun set c => (derivableShorteneds c apex).foldl OrdMap.push set) ∅

/-- A presented canonical is claimed only in the short, leader-routed form. -/
def claimCanonical (a : AppUserAllocator) (pc : Text) (appsAllowed : Bool) (c : Text) : Bool :=
  appsAllowed && c != pc && isShortServiceCanonical c a.apex && !a.isControlName c

def claimShortened (a : AppUserAllocator) (appsAllowed : Bool) (sh : Text) : Bool :=
  appsAllowed && !a.isControlName sh

/-- Both loops of a registration. -/
def addLoops (a : AppUserAllocator) (pc : Text) (appsAllowed : Bool)
    (canonicals derivable : OrdSet Text) : AddLoop :=
  derivable.keys.foldl (joinSet a.apex pc (a.claimShortened appsAllowed))
    (canonicals.keys.foldl (joinSet a.apex pc (a.claimCanonical pc appsAllowed))
      ⟨a.sets,∅,∅,[]⟩)

/-- The record of a registering pod, before it has joined a set. -/
def podRecord (a : AppUserAllocator) (pc : Text) (canonicals : OrdSet Text) (now : Nat) : PodEntry :=
  { podCanonical := pc
    firstRegisteredAt := ((a.pods.get? pc).map PodEntry.firstRegisteredAt).getD now
    canonicals := canonicals
    derivableShorteneds := derivableSet canonicals a.apex
    setKeys := ∅ }

def withRecord (a : AppUserAllocator) (pc : Text) (entry : PodEntry) (appsAllowed : Bool) :
    AppUserAllocator :=
  { a with
    pods := a.pods.set pc entry
    appsStopped := if appsAllowed then a.appsStopped.erase pc else a.appsStopped.push pc }

/-- The record goes in before the loops, and the loops fill in its set keys. -/
def addPod (a : AppUserAllocator) (podCanonical : Text) (canonicals : List Text) (now : Nat)
    (appsAllowed : Bool) : AppUserAllocator × AddPodResult :=
  let pc := toLowercase podCanonical
  let canonicals := canonicalSet pc canonicals
  let entry := a.podRecord pc canonicals now
  let a := a.withRecord pc entry appsAllowed
  let loop := a.addLoops pc appsAllowed canonicals entry.derivableShorteneds
  ({ a with pods := a.pods.set pc { entry with setKeys := loop.setKeys }, sets := loop.sets },
    ⟨keysOf loop.sets loop.affected,loop.shortenedsHeld⟩)

/-- One label under the pod's own user zone. -/
def inOwnUserZone (a : AppUserAllocator) (podCanonical fqdn : Text) : Bool :=
  let suffix := '.' :: a.apex
  let userOf := fun (f : Text) => ((f.take (f.length - suffix.length)).splitOn '.').getLast?
  if !isShortServiceCanonical fqdn a.apex then false
  else if !suffix.isSuffixOf podCanonical then false
  else userOf podCanonical == userOf fqdn

/-- The set of a transfer, and the pod's record, once a claim in the own zone has
joined it. -/
def joinOwnZone (set : SetEntry) (pod : PodEntry) (ks pc fqdn : Text) : SetEntry × PodEntry :=
  (enqueueCandidate (joinMembers set pc fqdn) fqdn pc,{ pod with setKeys := pod.setKeys.push ks })

def requestTransfer (a : AppUserAllocator) (podCanonical fqdn : Text) :
    AppUserAllocator × Except TransferRejection TransferResult :=
  let pc := toLowercase podCanonical
  let fqdn := toLowercase fqdn
  match a.pods.get? pc with
  | none => (a,.error .podNotRegistered)
  | some pod =>
    if a.appsStopped.contains pc then (a,.error .appsStopped)
    else
      match parseSetKey fqdn a.apex with
      | none => (a,.error .notParseable)
      | some key =>
        if fqdn != pc && a.isControlName fqdn then (a,.error .controlNameReserved)
        else
          let registered := pod.derivableShorteneds.contains fqdn || pod.canonicals.contains fqdn
          let ownZone := if registered then false else a.inOwnUserZone pc fqdn
          if !registered && !ownZone then (a,.error .notDerivable)
          else
            let ks := encodeSetKey key
            match a.sets.get? ks,ownZone with
            | none,false => (a,.error .notParseable)
            | found,_ =>
              let set := found.getD (SetEntry.new key)
              let (set,pod) := if ownZone then joinOwnZone set pod ks pc fqdn else (set,pod)
              let previousHolder := set.slotHolders.get? fqdn
              let set := promoteToHead set fqdn pc
              let set := { set with slotHolders := set.slotHolders.set fqdn pc }
              ({ a with
                  pods := if ownZone then a.pods.set pc pod else a.pods
                  sets := a.sets.set ks set },
                .ok ⟨key,previousHolder⟩)

/-- Take a pod out of every queue of a set. -/
def dropFromQueues (set : SetEntry) (pc : Text) : SetEntry :=
  { set with
    candidateQueue := set.candidateQueue.filterMapVals (fun _ queue =>
      let next := queue.filter (· != pc)
      if next.length = 0 then none else some next) }

def setOrDelete (slotHolders : OrdMap Text Text) (slot : Text) (heir : Option Text) :
    OrdMap Text Text :=
  match heir with
  | some h => slotHolders.set slot h
  | none => slotHolders.erase slot

/-- One slot and its holder: a slot of the pod goes to its heir, or is free. -/
def giveUpSlot (pods : Pods) (stopped : OrdSet Text) (pc : Text)
    (acc : SetEntry × List Redistributed) (e : Text × Text) : SetEntry × List Redistributed :=
  if e.2 != pc then acc
  else
    let heir := pickHeir pods stopped acc.1 e.1
    ({ acc.1 with slotHolders := setOrDelete acc.1.slotHolders e.1 heir },
      acc.2 ++ [⟨e.1,pc,heir⟩])

/-- Every slot the pod held, in the order the slots were first taken. -/
def redistribute (pods : Pods) (stopped : OrdSet Text) (pc : Text) (set : SetEntry) :
    SetEntry × List Redistributed :=
  set.slotHolders.entries.foldl (giveUpSlot pods stopped pc) (set,[])

structure GiveUpLoop where
  sets : Sets
  affected : OrdSet Text
  redistributed : List Redistributed

/-- One set of a removal; an empty set is dropped. -/
def leaveSet (pods : Pods) (stopped : OrdSet Text) (pc : Text) (st : GiveUpLoop) (ks : Text) :
    GiveUpLoop :=
  match st.sets.get? ks with
  | none => st
  | some set =>
    let set := dropFromQueues { set with members := set.members.erase pc } pc
    let (set,out) := redistribute pods stopped pc set
    { sets := if set.members.size = 0 ∧ set.slotHolders.size = 0 then st.sets.erase ks
        else st.sets.set ks set
      affected := st.affected.push ks
      redistributed := st.redistributed ++ out }

def removePod (a : AppUserAllocator) (podCanonical : Text) : AppUserAllocator × RemovePodResult :=
  let pc := toLowercase podCanonical
  match a.pods.get? pc with
  | none => (a,⟨[],[]⟩)
  | some pod =>
    let loop := pod.setKeys.keys.foldl (leaveSet a.pods a.appsStopped pc) ⟨a.sets,∅,[]⟩
    ({ a with
        pods := a.pods.erase pc
        sets := loop.sets
        appsStopped := a.appsStopped.erase pc },
      ⟨keysOf loop.sets loop.affected,loop.redistributed⟩)

/-- One set of a serving stop. -/
def stopInSet (pods : Pods) (stopped : OrdSet Text) (pc : Text) (st : GiveUpLoop) (ks : Text) :
    GiveUpLoop :=
  match st.sets.get? ks with
  | none => st
  | some set =>
    let (set,out) := redistribute pods stopped pc set
    { sets := st.sets.set ks set
      affected := if out.isEmpty then st.affected else st.affected.push ks
      redistributed := st.redistributed ++ out }

/-- A free slot that a resuming pod is queued for and may hold. -/
def mayResume (apex pc : Text) (pod : PodEntry) (set : SetEntry) (slot : Text)
    (queue : List Text) : Bool :=
  !(slot == pc || set.slotHolders.contains slot || !queue.contains pc) &&
    !(!pod.derivableShorteneds.contains slot && !isShortServiceCanonical slot apex)

/-- One queue of a set on resume. -/
def claimSlot (apex pc : Text) (pod : PodEntry) (acc : SetEntry × List Text)
    (e : Text × List Text) : SetEntry × List Text :=
  if mayResume apex pc pod acc.1 e.1 e.2 then
    ({ acc.1 with slotHolders := acc.1.slotHolders.set e.1 pc },acc.2 ++ [e.1])
  else acc

/-- The free slots of a set, claimed one after another. -/
def claimFree (apex pc : Text) (pod : PodEntry) (set : SetEntry) : SetEntry × List Text :=
  set.candidateQueue.entries.foldl (claimSlot apex pc pod) (set,[])

/-- One set of a serving resume. -/
def resumeInSet (apex pc : Text) (pod : PodEntry) (st : GiveUpLoop) (ks : Text) : GiveUpLoop :=
  match st.sets.get? ks with
  | none => st
  | some set =>
    let (set,claimed) := claimFree apex pc pod set
    { st with
      sets := st.sets.set ks set
      affected := if claimed.isEmpty then st.affected else st.affected.push ks }

def setAppsAllowed (a : AppUserAllocator) (podCanonical : Text) (allowed : Bool) :
    AppUserAllocator × RemovePodResult :=
  let pc := toLowercase podCanonical
  match a.pods.get? pc with
  | none => (a,⟨[],[]⟩)
  | some pod =>
    if allowed = !a.appsStopped.contains pc then (a,⟨[],[]⟩)
    else
      let stopped := if allowed then a.appsStopped.erase pc else a.appsStopped.push pc
      let loop := pod.setKeys.keys.foldl
        (if allowed then resumeInSet a.apex pc pod else stopInSet a.pods stopped pc) ⟨a.sets,∅,[]⟩
      ({ a with sets := loop.sets, appsStopped := stopped },
        ⟨keysOf loop.sets loop.affected,loop.redistributed⟩)

def findHolderByFqdn (a : AppUserAllocator) (fqdn : Text) : Option Text :=
  let lower := toLowercase fqdn
  if a.pods.contains lower then some lower
  else
    match parseSetKey lower a.apex with
    | none => none
    | some key => (a.sets.get? (encodeSetKey key)).bind (fun set => set.slotHolders.get? lower)

def memberBefore (a b : MemberSnapshot) : Bool :=
  decide (a.joinedAt < b.joinedAt) ||
    decide (a.joinedAt = b.joinedAt) && !localeBefore b.podCanonical a.podCanonical

def snapshotSet (a : AppUserAllocator) (set : SetEntry) : AppUserSetSnapshot :=
  { key := set.key
    members := (set.members.entries.map (fun e =>
      (⟨e.1,e.2,((a.pods.get? e.1).map PodEntry.firstRegisteredAt).getD 0⟩ : MemberSnapshot))).mergeSort
        memberBefore
    slotHolders := set.slotHolders.entries.mergeSort (fun s t => !localeBefore t.1 s.1) }

def snapshotByKey (a : AppUserAllocator) (key : AppUserSetKey) : Option AppUserSetSnapshot :=
  (a.sets.get? (encodeSetKey key)).map a.snapshotSet

end AppUserAllocator
end
end Flagship.Tunnel

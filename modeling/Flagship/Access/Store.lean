import Mathlib.Algebra.Order.Ring.Unbundled.Rat
import Flagship.Lib.OrdMap
import Flagship.Access.Orders

namespace Flagship.Access
open Lib

/-- Allow-list size cap per app. -/
def allowListCap : Nat := 5000

/-- A number of the state file. -/
inductive Number
  | u64 (n : Nat)
  | i64 (n : Int)
  | f64 (q : Rat)
  deriving DecidableEq

/-- The double nearest to a natural, ties to even: 53 significant bits are kept. -/
def f64OfNat (n : Nat) : Nat :=
  let unit := 2 ^ (n.log2 - 52)
  let up := decide (unit < 2 * (n % unit)) || (decide (2 * (n % unit) = unit) && n / unit % 2 == 1)
  (n / unit + if up then 1 else 0) * unit

def numF64 : Number → Rat
  | .u64 n => f64OfNat n
  | .i64 n => if n < 0 then -(f64OfNat n.natAbs) else f64OfNat n.natAbs
  | .f64 q => q

/-- The names of the ladder and the older ones they took over. -/
def ladderRole (s : Option Text) : Option Text :=
  s.bind fun s =>
    if s ∈ ["member".toList,"viewer".toList] then some "member".toList
    else if s ∈ ["manager".toList,"editor".toList] then some "manager".toList
    else if s ∈ ["master".toList,"admin".toList,"owner".toList] then some "master".toList
    else none

def cappedTier (t : Option Text) : Bool :=
  decide (t = some "member".toList ∨ t = some "co-manager".toList)

structure CoManagerRecord where
  pubHex : Text
  level : Text
  label : Text
  serverDomain : Text
  issuedAt : Number
  ended : Bool
  deriving DecidableEq

structure Roles where
  aids : OrdMap Text Text
  invites : OrdMap Text Text
  grants : OrdMap Text Text
  seq : OrdMap Text Number
  tiers : OrdMap Text Text
  creators : OrdMap Text Text
  ranks : OrdMap Text Text
  evidence : OrdMap Text Text
  withdrawn : OrdMap Text Text
  coManagers : OrdMap Text CoManagerRecord
  deriving DecidableEq

/-- What a write answers. -/
inductive WriteAnswer
  | ok | stale | removed | absent | applied | unchanged
  deriving DecidableEq

/-- One app's access state. -/
structure Row where
  restricted : Bool
  allow : List Text
  groups : OrdMap Text (List Text)
  roles : Roles
  deriving DecidableEq

/-- An invited target of a rank order. -/
inductive RoleTarget
  | aid (aid : Text)
  | invite (inviteId : Text)
  | grant (inviteId aid : Text)
  deriving DecidableEq

namespace Row

def new (restricted : Bool) : Row := ⟨restricted,[],∅,⟨∅,∅,∅,∅,∅,∅,∅,∅,∅,∅⟩⟩

def group (e : Row) (id : Text) : Option (List Text) := e.groups.get? id

/-- The invites a member joined through, in the groups' order. -/
def grantsOf (e : Row) (aid : Text) : List Text :=
  (e.groups.entries.filter (fun g => g.2.contains aid)).map Prod.fst

/-- An order for a target is stale unless newer than the last one applied. -/
def stale (e : Row) (key : Text) (issuedAt : Nat) : Bool :=
  (e.roles.seq.get? key).any (fun l => decide ((f64OfNat issuedAt : Rat) ≤ numF64 l))

/-- Take down when the last order for a target was issued. -/
def sequenced (e : Row) (key : Text) (issuedAt : Nat) : Row :=
  { e with roles := { e.roles with seq := e.roles.seq.set key (.u64 issuedAt) } }

def applyModeOrder (e : Row) (restricted : Bool) (issuedAt : Nat) : Row × WriteAnswer :=
  if e.stale "mode".toList issuedAt then (e,.stale)
  else ({ e.sequenced "mode".toList issuedAt with restricted := restricted },.ok)

def removeKey (aid : Text) : Text := "remove:".toList ++ aid

def removeAllowed (e : Row) (aid : Text) : Row where
  restricted := e.restricted
  allow := e.allow.filter (fun x => decide (x ≠ aid))
  groups := e.groups.filterMapVals fun _ m =>
    let m := m.filter (fun x => decide (x ≠ aid))
    if m.isEmpty then none else some m
  roles := { e.roles with
    aids := e.roles.aids.erase aid
    grants := e.roles.grants.filterMapVals fun k v => if '/' :: aid <:+ k then none else some v }

def applyRemoveOrder [Lowercase] (e : Row) (aid : Text) (issuedAt : Nat) : Row × WriteAnswer :=
  let aid := toLowercase aid
  if e.stale (removeKey aid) issuedAt then (e,.stale)
  else
    let e' := (e.sequenced (removeKey aid) issuedAt).removeAllowed aid
    (e',if e'.allow.length ≠ e.allow.length then .removed else .absent)

/-- Put a person on the list, and in the invite's group where an invite is
named; were they new on it? -/
def addAllowed [Lowercase] (e : Row) (aid : Text) (inviteId : Option Text) : Row × Bool :=
  let aid := toLowercase aid
  let already := e.allow.contains aid
  if !already && decide (allowListCap ≤ e.allow.length) then (e,false)
  else
    let groups := match inviteId.filter (fun i => !i.isEmpty) with
      | none => e.groups
      | some id =>
        let g := (e.groups.get? id).getD []
        e.groups.set id (if g.contains aid then g else g ++ [aid])
    let allow := if already then e.allow else e.allow ++ [aid]
    ({ e with allow := allow, groups := groups },!already)

/-- Whoever has no grant left goes off the list. -/
def dropUngranted (e : Row) (aid : Text) : Row :=
  if (e.grantsOf aid).isEmpty then
    { e with
      allow := e.allow.filter (fun x => decide (x ≠ aid))
      roles := { e.roles with aids := e.roles.aids.erase aid } }
  else e

def pruneMember (acc : Row × Nat) (aid : Text) : Row × Nat :=
  let e := acc.1.dropUngranted aid
  (e,if e.allow.length ≠ acc.1.allow.length then acc.2 + 1 else acc.2)

/-- An invite's group, and what was set for the invite, are gone. -/
def dropGroup (e : Row) (inviteId : Text) : Row :=
  { e with
    groups := e.groups.erase inviteId
    roles := { e.roles with
      invites := e.roles.invites.erase inviteId
      tiers := e.roles.tiers.erase inviteId
      creators := e.roles.creators.erase inviteId
      grants := e.roles.grants.filterMapVals fun k v =>
        if inviteId ++ ['/'] <+: k then none else some v } }

/-- Drop an invite's group; how many people that took off the list. -/
def revokeGroup (e : Row) (inviteId : Text) : Row × Nat :=
  let members := (e.group inviteId).getD []
  if members.isEmpty then (e,0) else members.foldl pruneMember (e.dropGroup inviteId,0)

/-- The first withdraw of an invite is held, whatever signed it. -/
def noteWithdrawn [Lowercase] (e : Row) (inviteId : Text) (issuedAt : Nat) (signature : Text) :
    Row :=
  if (e.roles.withdrawn.get? inviteId).any (fun v => !v.isEmpty) then e
  else { e with roles := { e.roles with
    withdrawn := e.roles.withdrawn.set inviteId
      (Nat.toDigits 10 issuedAt ++ ':' :: toLowercase signature) } }

/-- The held withdraw's time and signature, unverified. -/
def withdrawn (e : Row) (inviteId : Text) : Option (Nat × Text) := do
  let v ← e.roles.withdrawn.get? inviteId
  let (n,signature) ← splitOnce ':' v
  if n.isEmpty || !n.all Char.isDigit || !lowerHex signature 128 then none
  else if Nat.ofDigitChars 10 n 0 < 2 ^ 64 then some (Nat.ofDigitChars 10 n 0,signature) else none

def boundThrough (e : Row) (inviteId : Text) : Nat := ((e.group inviteId).getD []).length

/-- Was the person removed at or after this time? -/
def removedAfter [Lowercase] (e : Row) (aid : Text) (time : Nat) : Bool :=
  e.stale (removeKey (toLowercase aid)) time

def hasInvite (e : Row) (inviteId : Text) : Bool :=
  (e.group inviteId).isSome || e.roles.creators.contains inviteId || e.roles.tiers.contains inviteId

/-- A capped tier stays. -/
def setInviteTier (e : Row) (inviteId tier : Text) : Row :=
  let was := e.roles.tiers.get? inviteId
  if was = some tier ∨ cappedTier was = true then e
  else { e with roles := { e.roles with tiers := e.roles.tiers.set inviteId tier } }

def inviteTier (e : Row) (inviteId : Text) : Option Text :=
  (e.roles.tiers.get? inviteId).filter
    (fun t => decide (t ∈ ["admin".toList,"member".toList,"co-manager".toList]))

/-- The first creator stays. -/
def setInviteCreator [Lowercase] (e : Row) (inviteId pubHex : Text) : Row :=
  if (e.roles.creators.get? inviteId).any (fun v => !v.isEmpty) then e
  else
    let creators := e.roles.creators.set inviteId (toLowercase pubHex)
    { e with roles := { e.roles with creators := creators } }

def inviteCreator (e : Row) (inviteId : Text) : Option Text := e.roles.creators.get? inviteId

/-- What shows that an admin made someone a master is kept with the rank. -/
def withEvidence (e : Row) (key rank evidence : Text) : Row :=
  let kept := if rank = "master".toList ∧ evidence ≠ [] then e.roles.evidence.set key evidence
    else e.roles.evidence.erase key
  { e with roles := { e.roles with evidence := kept } }

def setRole (e : Row) (target : RoleTarget) (key role : Text) (issuedAt : Nat) (evidence : Text) :
    Row × WriteAnswer :=
  if e.stale key issuedAt then (e,.stale)
  else
    let e := (e.sequenced key issuedAt).withEvidence key role evidence
    let roles := match target with
      | .aid aid => { e.roles with aids := e.roles.aids.set aid role }
      | .invite id => { e.roles with invites := e.roles.invites.set id role }
      | .grant id aid => { e.roles with grants := e.roles.grants.set (id ++ '/' :: aid) role }
    ({ e with roles := roles },.ok)

def setAccountRank (e : Row) (key rank : Text) (issuedAt : Nat) (evidence : Text) :
    Row × WriteAnswer :=
  if e.stale key issuedAt then (e,.stale)
  else
    let e := e.sequenced key issuedAt
    let e := { e with roles := { e.roles with ranks := e.roles.ranks.set key rank } }
    (e.withEvidence key rank evidence,.ok)

/-- What keeps a record from taking the place of the one held: an ended share
stays so, the member stays, and a grant has to be newer. -/
def coManagerKept (prev record : CoManagerRecord) : Option WriteAnswer :=
  if prev.ended then some (if record.ended then .unchanged else .stale)
  else if prev.pubHex ≠ record.pubHex then some .stale
  else if !record.ended && decide (numF64 record.issuedAt ≤ numF64 prev.issuedAt) then
    some (if numF64 prev.issuedAt - numF64 record.issuedAt < 1 / 2 ^ 52 then .unchanged else .stale)
  else none

def noteCoManager [Lowercase] (e : Row) (shareId : Text) (record : CoManagerRecord) :
    Row × WriteAnswer :=
  match (e.roles.coManagers.get? shareId).bind (fun prev => coManagerKept prev record) with
  | some answer => (e,answer)
  | none =>
    let record := { record with
      pubHex := toLowercase record.pubHex
      serverDomain := toLowercase record.serverDomain }
    ({ e with roles := { e.roles with coManagers := e.roles.coManagers.set shareId record } },
      .applied)

/-- The records by share id, in the ids' order. -/
def coManagersInOrder (e : Row) : List (Text × CoManagerRecord) :=
  e.roles.coManagers.entries.mergeSort (fun a b => decide (a.1 ≤ b.1))

/-- The journal's record of the co-manager holding a key. -/
def coManagerRecord [Lowercase] (e : Row) (pubHex : Text) : Option (Text × CoManagerRecord) :=
  e.coManagersInOrder.find? (fun c => decide (c.2.pubHex = toLowercase pubHex))

end Row

/-- The whole state file. -/
structure Store where
  defaultRestricted : Bool
  rows : OrdMap Text Row

namespace Store

/-- The app's row; one that is not there yet is new, with the default mode. -/
def entry (s : Store) (r : Text) : Row :=
  (s.rows.get? r).getD (Row.new s.defaultRestricted)

def put (s : Store) (r : Text) (e : Row) : Store := { s with rows := s.rows.set r e }

def restricted (s : Store) (r : Text) : Bool := (s.entry r).restricted

def servicesWithInvite (s : Store) (inviteId : Text) : List Text :=
  (s.rows.entries.filter (fun e => e.2.hasInvite inviteId)).map Prod.fst

end Store
end Flagship.Access

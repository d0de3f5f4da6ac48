import Mathlib.Data.Finset.Insert
import Mathlib.Data.Finset.Erase
import Flagship.Lib.OrdMap
import Flagship.Lib.Lists
import Flagship.Mesh.Items
import Flagship.Lib.Run

namespace Flagship.Mesh
open Lib

structure Caps where
  boxItems : Nat
  perRelay : Nat
  phoneItems : Nat

def defaultCaps : Caps := ⟨200000,100000,20000⟩

def tombstonesPerRelayMax : Nat := 100000

def tombstoneKeepMs : Nat := 60 * 60000

def phoneGenerationMemoryMs : Nat := 3600000

inductive Inserted
  | stored | stale
  deriving DecidableEq

/-- The attachment store: one box item per (name, relay), one phone item per
(bare name, holder), what the withdrawals left behind and what is counted. -/
structure Store where
  selfId : Text
  apex : Text
  caps : Caps
  boxes : OrdMap Text (List AttachmentItem)
  phones : OrdMap Text (List PhoneItem)
  byAccount : OrdMap Text (Finset Text)
  generations : OrdMap Text (OrdMap Text (Nat × Nat))
  byHash : OrdMap Text Text
  perRelay : OrdMap Text Nat
  boxCount : Nat
  phoneCount : Nat
  tombstones : OrdMap Text (Nat × Nat)
  tombstonesByRelay : OrdMap Text (List Text)

/-- `<kind>|<subject>|<relayId>`. -/
def tombKey (kind : SubjectKind) (subject relay : Text) : Text :=
  kind.name ++ '|' :: subject ++ '|' :: relay

namespace Store

def new (selfId apex : Text) (caps : Caps) : Store :=
  ⟨selfId,apex,caps,∅,∅,∅,∅,∅,∅,0,0,∅,∅⟩

/-- A relay's share of the items; a share of nothing is not kept. -/
def bump (perRelay : OrdMap Text Nat) (relay : Text) (up : Bool) : OrdMap Text Nat :=
  let c := (perRelay.get? relay).getD 0
  let c := if up then c + 1 else c - 1
  if c = 0 then perRelay.erase relay else perRelay.set relay c

/-- Is an item of `relay` for `subject` issued then covered by a kept withdrawal? -/
def withdrawn (s : Store) (kind : SubjectKind) (subject relay : Text) (issued : Nat) : Bool :=
  (s.tombstones.get? (tombKey kind subject relay)).any (fun t => decide (issued ≤ t.1))

def keepTombstone (s : Store) (w : RelayWithdraw) (now : Nat) : Store :=
  let k := tombKey w.subjectKind w.subject w.relayId
  match s.tombstones.get? k with
  | some t =>
    if t.1 < w.withdrawnIssuedAt then
      { s with tombstones := s.tombstones.set k (w.withdrawnIssuedAt,now) }
    else s
  | none =>
    let order := (s.tombstonesByRelay.get? w.relayId).getD []
    let excess := order.length + 1 - tombstonesPerRelayMax
    let left := (order.take excess).foldl OrdMap.erase s.tombstones
    { s with
      tombstones := left.set k (w.withdrawnIssuedAt,now)
      tombstonesByRelay := s.tombstonesByRelay.set w.relayId (order.drop excess ++ [k]) }

section
variable [Sha256]

/-- Forget a name nothing is stored for any more. -/
def dropName (s : Store) (name : Text) : Store :=
  { s with
    boxes := s.boxes.erase name
    byHash := match nameHash name with
      | some h => s.byHash.erase h
      | none => s.byHash
    byAccount := match accountOfPodName name s.apex with
      | none => s.byAccount
      | some account => match s.byAccount.get? account with
        | none => s.byAccount
        | some names =>
          if names.erase name = ∅ then s.byAccount.erase account
          else s.byAccount.set account (names.erase name) }

def removeBoxWhere (s : Store) (name : Text) (pred : AttachmentItem → Bool) : Store × Nat :=
  match s.boxes.get? name with
  | none => (s,0)
  | some list =>
    let gone := list.filter pred
    let kept := list.filter (fun i => !pred i)
    let s := { s with
      boxes := s.boxes.set name kept
      perRelay := gone.foldl (fun m i => bump m i.attachment.relayId false) s.perRelay
      boxCount := s.boxCount - gone.length }
    (if kept.isEmpty then s.dropName name else s,gone.length)

/-- Drop the item from another relay (or from `only`) with the oldest `issuedAt`. -/
def evictBox (s : Store) (only : Option Text) : Store :=
  let others := s.boxes.entries.flatMap (fun e => (e.2.filter (fun i =>
    decide (i.attachment.relayId ≠ s.selfId) &&
      only.all (fun o => decide (o = i.attachment.relayId)))).map (fun i => (e.1,i)))
  match minByKey (fun e => e.2.attachment.issuedAt) others with
  | none => s
  | some (name,i) =>
    (s.removeBoxWhere name (fun x => decide (x.attachment.relayId = i.attachment.relayId))).1

/-- Make room for an item of another relay. -/
def makeRoom (s : Store) (relay : Text) : Store :=
  if relay = s.selfId then s
  else
    let s := if s.caps.perRelay ≤ (s.perRelay.get? relay).getD 0 then s.evictBox (some relay) else s
    if s.caps.boxItems ≤ s.boxCount then s.evictBox none else s

/-- The first item of a relay for a (name, relay) pair that has none. -/
def pushBox (s : Store) (item : AttachmentItem) : Store :=
  let name := item.attachment.serverFqdn
  { s with
    byAccount := match accountOfPodName name s.apex with
      | none => s.byAccount
      | some account =>
        s.byAccount.set account (insert name ((s.byAccount.get? account).getD ∅))
    byHash := if s.boxes.contains name then s.byHash
      else match nameHash name with
        | none => s.byHash
        | some h => s.byHash.set h name
    boxes := s.boxes.set name ((s.boxes.get? name).getD [] ++ [item])
    boxCount := s.boxCount + 1
    perRelay := bump s.perRelay item.attachment.relayId true }

/-- Insert a checked attachment item. -/
def insertBox (s : Store) (item : AttachmentItem) : Store × Inserted :=
  let name := item.attachment.serverFqdn
  let relay := item.attachment.relayId
  if s.withdrawn .box name relay item.attachment.issuedAt then (s,.stale)
  else
    let list := (s.boxes.get? name).getD []
    match list.find? (fun x => decide (x.attachment.relayId = relay)) with
    | some had =>
      if compareAttachments item had = .gt then
        let list := replaceFirst (fun x => decide (x.attachment.relayId = relay)) item list
        ({ s with boxes := s.boxes.set name list },.stored)
      else (s,.stale)
    | none => ((s.makeRoom relay).pushBox item,.stored)

def removeBox (s : Store) (name relay : Text) : Store × Bool :=
  let (s,n) := s.removeBoxWhere name (fun i => decide (i.attachment.relayId = relay))
  (s,decide (0 < n))

end

/-- The latest end of what is remembered for a host. -/
def rememberedUntil (m : OrdMap Text (Nat × Nat)) : Nat :=
  (m.entries.map (fun e => e.2.2)).foldl max 0

/-- What a new ledger relay starts above. -/
def rememberGeneration (s : Store) (item : PhoneItem) : Store :=
  let g := item.grant
  let generations :=
    if !s.generations.contains g.hostname && decide (s.caps.phoneItems ≤ s.generations.size) then
      match minByKey (fun e => rememberedUntil e.2) s.generations.entries with
      | some e => s.generations.erase e.1
      | none => s.generations
    else s.generations
  let m := (generations.get? g.hostname).getD ∅
  let e := (m.get? g.ledgerRelayId).getD (0,0)
  let m := m.set g.ledgerRelayId (max e.1 g.generation,max e.2 g.notAfter)
  { s with generations := generations.set g.hostname m }

def highestLive (s : Store) (host : Text) (now : Nat) : Nat :=
  (((s.phones.get? host).getD []).filter (fun i => decide (now < i.grant.notAfter))).foldl
    (fun m i => max m i.grant.generation) 0

/-- Keep the phone items of a host a test accepts. -/
def keepPhones (s : Store) (host : Text) (keep : PhoneItem → Bool) : Store × Nat :=
  match s.phones.get? host with
  | none => (s,0)
  | some list =>
    let kept := list.filter keep
    let gone := list.length - kept.length
    ({ s with
        phones := if kept.isEmpty then s.phones.erase host else s.phones.set host kept
        phoneCount := s.phoneCount - gone },gone)

def removePhone (s : Store) (host holder : Text) : Store × Bool :=
  let (s,n) := s.keepPhones host (fun i => decide (i.grant.holderRelayId ≠ holder))
  (s,decide (0 < n))

/-- Make room for a phone item of another relay: the one issued first goes. -/
def makePhoneRoom (s : Store) (holder : Text) : Store :=
  if holder = s.selfId ∨ s.phoneCount < s.caps.phoneItems then s
  else
    let others := s.phones.entries.flatMap (fun e => (e.2.filter (fun i =>
      decide (i.grant.holderRelayId ≠ s.selfId))).map (fun i => (e.1,i)))
    match minByKey (fun e => e.2.grant.issuedAt) others with
    | none => s
    | some (h,i) => (s.removePhone h i.grant.holderRelayId).1

/-- Insert a checked phone item. -/
def insertPhone (s : Store) (item : PhoneItem) : Store × Inserted :=
  let s := s.rememberGeneration item
  let host := item.grant.hostname
  let holder := item.grant.holderRelayId
  if s.withdrawn .phone host holder item.grant.issuedAt then (s,.stale)
  else
    let list := (s.phones.get? host).getD []
    match list.find? (fun x => decide (x.grant.holderRelayId = holder)) with
    | some had =>
      if comparePhoneItems item had = .gt then
        let list := replaceFirst (fun x => decide (x.grant.holderRelayId = holder)) item list
        ({ s with phones := s.phones.set host list },.stored)
      else (s,.stale)
    | none =>
      let s := s.makePhoneRoom holder
      ({ s with
          phones := s.phones.set host ((s.phones.get? host).getD [] ++ [item])
          phoneCount := s.phoneCount + 1 },.stored)

/-- Apply a checked withdrawal. -/
def withdraw [Sha256] (s : Store) (w : RelayWithdraw) : Store × Bool :=
  match w.subjectKind with
  | .box =>
    let (s,n) := s.removeBoxWhere w.subject (withdrawCoversBox w)
    (s,decide (0 < n))
  | .phone =>
    let (s,n) := s.keepPhones w.subject (fun i => !withdrawCoversPhone w i)
    (s,decide (0 < n))

/-- A checked withdrawal that arrived: any removes items, one for a subject the
log registers is kept as a tombstone too. -/
def acceptWithdraw [Sha256] (s : Store) (w : RelayWithdraw) (now : Nat) (registered : Bool) : Store :=
  ((if registered then s.keepTombstone w now else s).withdraw w).1

def retainPhones (s : Store) (keep : PhoneItem → Bool) : Store :=
  s.phones.keys.foldl (fun s h => (s.keepPhones h keep).1) s

def retainBoxes [Sha256] (s : Store) (names : Option (List Text)) (keep : AttachmentItem → Bool) :
    Store :=
  (names.getD s.boxes.keys).foldl (fun s n => (s.removeBoxWhere n (fun i => !keep i)).1) s

/-- Every item of a relay: it was revoked, or left the directory. -/
def removeRelay [Sha256] (s : Store) (relay : Text) : Store :=
  let s := s.retainBoxes none (fun i => decide (i.attachment.relayId ≠ relay))
  let s := s.phones.keys.foldl (fun s h => (s.removePhone h relay).1) s
  { s with generations := s.generations.filterMapVals (fun _ m =>
      let m := m.erase relay
      if m.size = 0 then none else some m) }

/-- Drop what has expired, and forget what was kept long enough. -/
def sweep [Sha256] (s : Store) (now : Nat) : Store :=
  let s := s.retainBoxes none (fun i => decide (now < i.attachment.notAfter))
  let s := s.retainPhones (fun p => decide (now < p.grant.notAfter))
  let tombstones := s.tombstones.filterMapVals (fun _ t =>
    if now - t.2 < tombstoneKeepMs then some t else none)
  { s with
    tombstones
    tombstonesByRelay := s.tombstonesByRelay.filterMapVals (fun _ order =>
      let order := order.filter tombstones.contains
      if order.isEmpty then none else some order)
    generations := s.generations.filterMapVals (fun _ m =>
      let m := m.filterMapVals (fun _ e =>
        if now < saturatingAdd e.2 phoneGenerationMemoryMs then some e else none)
      if m.size = 0 then none else some m) }

/-- The winning unexpired attachment for a name. -/
def winner (s : Store) (name : Text) (now : Nat) : Option AttachmentItem :=
  maxBy compareAttachments
    (((s.boxes.get? name).getD []).filter (fun i => decide (now < i.attachment.notAfter)))

/-- The winning unexpired phone item for a bare name. -/
def phoneWinner (s : Store) (host : Text) (now : Nat) : Option PhoneItem :=
  maxBy comparePhoneItems
    (((s.phones.get? host).getD []).filter (fun i => decide (now < i.grant.notAfter)))

/-- The highest generation remembered for a host. -/
def maxPhoneGeneration (s : Store) (host : Text) : Nat :=
  let items := ((s.phones.get? host).getD []).foldl (fun m i => max m i.grant.generation) 0
  let seen := (((s.generations.get? host).getD ∅).entries.map (fun e => e.2.1)).foldl max 0
  max items seen

end Store

/-- An order the entries of a hash map may be walked in. -/
structure Walk (α : Type) where
  order : List α → List α
  perm : ∀ l, (order l).Perm l

/-- Which of several oldest items an eviction meets first is up to the maps. -/
structure MapOrder where
  boxes : Walk (Text × AttachmentItem)
  phones : Walk (Text × PhoneItem)
  generations : Walk (Text × OrdMap Text (Nat × Nat))

/-- The order the keys were first set in. -/
def MapOrder.insertion : MapOrder :=
  ⟨⟨id,List.Perm.refl⟩,⟨id,List.Perm.refl⟩,⟨id,List.Perm.refl⟩⟩

namespace Store

/-- Every item. -/
def all (s : Store) : List AttachmentItem × List PhoneItem :=
  (s.boxes.entries.flatMap (fun e => e.2),s.phones.entries.flatMap (fun e => e.2))

/-- The items of other relays (or of `only`) that may have to go, with their names. -/
def victims (s : Store) (only : Option Text) : List (Text × AttachmentItem) :=
  s.boxes.entries.flatMap (fun e => (e.2.filter (fun i =>
    decide (i.attachment.relayId ≠ s.selfId) &&
      only.all (fun o => decide (o = i.attachment.relayId)))).map (fun i => (e.1,i)))

def phoneVictims (s : Store) : List (Text × PhoneItem) :=
  s.phones.entries.flatMap (fun e => (e.2.filter (fun i =>
    decide (i.grant.holderRelayId ≠ s.selfId))).map (fun i => (e.1,i)))

section
variable [Sha256] (o : MapOrder)

/-- The victim goes, with its place. -/
def evict (s : Store) : Option (Text × AttachmentItem) → Store
  | none => s
  | some (name,i) =>
    (s.removeBoxWhere name (fun x => decide (x.attachment.relayId = i.attachment.relayId))).1

def evictBoxIn (s : Store) (only : Option Text) : Store :=
  s.evict (minByKey (fun e => e.2.attachment.issuedAt) (o.boxes.order (s.victims only)))

def makeRoomIn (s : Store) (relay : Text) : Store :=
  if relay = s.selfId then s
  else
    let s := if s.caps.perRelay ≤ (s.perRelay.get? relay).getD 0 then s.evictBoxIn o (some relay)
      else s
    if s.caps.boxItems ≤ s.boxCount then s.evictBoxIn o none else s

/-- `insert_box` over a map walked in this order. -/
def insertBoxIn (s : Store) (item : AttachmentItem) : Store × Inserted :=
  let name := item.attachment.serverFqdn
  let relay := item.attachment.relayId
  if s.withdrawn .box name relay item.attachment.issuedAt then (s,.stale)
  else
    let list := (s.boxes.get? name).getD []
    match list.find? (fun x => decide (x.attachment.relayId = relay)) with
    | some had =>
      if compareAttachments item had = .gt then
        let list := replaceFirst (fun x => decide (x.attachment.relayId = relay)) item list
        ({ s with boxes := s.boxes.set name list },.stored)
      else (s,.stale)
    | none => ((s.makeRoomIn o relay).pushBox item,.stored)

theorem insertBoxIn_insertion (s : Store) (item : AttachmentItem) :
    s.insertBoxIn .insertion item = s.insertBox item := rfl

end

section
variable (o : MapOrder)

def evictPhone (s : Store) : Option (Text × PhoneItem) → Store
  | none => s
  | some (h,i) => (s.removePhone h i.grant.holderRelayId).1

def makePhoneRoomIn (s : Store) (holder : Text) : Store :=
  if holder = s.selfId ∨ s.phoneCount < s.caps.phoneItems then s
  else s.evictPhone (minByKey (fun e => e.2.grant.issuedAt) (o.phones.order s.phoneVictims))

def rememberGenerationIn (s : Store) (item : PhoneItem) : Store :=
  let g := item.grant
  let generations :=
    if !s.generations.contains g.hostname && decide (s.caps.phoneItems ≤ s.generations.size) then
      match minByKey (fun e => rememberedUntil e.2) (o.generations.order s.generations.entries) with
      | some e => s.generations.erase e.1
      | none => s.generations
    else s.generations
  let m := (generations.get? g.hostname).getD ∅
  let e := (m.get? g.ledgerRelayId).getD (0,0)
  let m := m.set g.ledgerRelayId (max e.1 g.generation,max e.2 g.notAfter)
  { s with generations := generations.set g.hostname m }

/-- `insert_phone` over maps walked in this order. -/
def insertPhoneIn (s : Store) (item : PhoneItem) : Store × Inserted :=
  let s := s.rememberGenerationIn o item
  let host := item.grant.hostname
  let holder := item.grant.holderRelayId
  if s.withdrawn .phone host holder item.grant.issuedAt then (s,.stale)
  else
    let list := (s.phones.get? host).getD []
    match list.find? (fun x => decide (x.grant.holderRelayId = holder)) with
    | some had =>
      if comparePhoneItems item had = .gt then
        let list := replaceFirst (fun x => decide (x.grant.holderRelayId = holder)) item list
        ({ s with phones := s.phones.set host list },.stored)
      else (s,.stale)
    | none =>
      let s := s.makePhoneRoomIn o holder
      ({ s with
          phones := s.phones.set host ((s.phones.get? host).getD [] ++ [item])
          phoneCount := s.phoneCount + 1 },.stored)

theorem insertPhoneIn_insertion (s : Store) (item : PhoneItem) :
    s.insertPhoneIn .insertion item = s.insertPhone item := rfl

end

/-- `accept_withdraw`: a withdrawal with no canonical form is refused like one
the directory, the clock or the signature speaks against. -/
def gossipWithdraw [Sha256] (s : Store) (w : RelayWithdraw) (now : Nat) (verified registered : Bool) :
    Store :=
  if withdrawShape w && verified then s.acceptWithdraw w now registered else s

end Store

/-- Everything the relay does to its store. -/
inductive StoreOp
  | insertBox (item : AttachmentItem)
  | insertPhone (item : PhoneItem)
  | removeBox (name relay : Text)
  | removePhone (host holder : Text)
  | withdraw (w : RelayWithdraw)
  | gossipWithdraw (w : RelayWithdraw) (now : Nat) (verified registered : Bool)
  | removeRelay (relay : Text)
  | retainBoxes (names : Option (List Text)) (keep : AttachmentItem → Bool)
  | retainPhones (keep : PhoneItem → Bool)
  | sweep (now : Nat)

/-- One operation, with the order its maps are walked in. -/
def storeStep [Sha256] (s : Store) (op : MapOrder × StoreOp) : Store :=
  match op.2 with
  | .insertBox item => (s.insertBoxIn op.1 item).1
  | .insertPhone item => (s.insertPhoneIn op.1 item).1
  | .removeBox name relay => (s.removeBox name relay).1
  | .removePhone host holder => (s.removePhone host holder).1
  | .withdraw w => (s.withdraw w).1
  | .gossipWithdraw w now verified registered => s.gossipWithdraw w now verified registered
  | .removeRelay relay => s.removeRelay relay
  | .retainBoxes names keep => s.retainBoxes names keep
  | .retainPhones keep => s.retainPhones keep
  | .sweep now => s.sweep now

end Flagship.Mesh

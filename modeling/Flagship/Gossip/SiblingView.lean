import Mathlib.Algebra.Order.Ring.Rat
import Flagship.Lib.OrdMap
import Flagship.Lib.Bytes

namespace Flagship.Gossip
open Lib

inductive Liveness
  | live | unreachable | never
  deriving DecidableEq

/-- What a sealed frame says of its sender; no text where the frame has none. -/
structure GossipAnnouncement where
  user : Option Text
  name : Option Text
  birthAuthHex : Option Text
  birthDate : Rat
  orderDate : Rat
  services : List Text
  liveness : Liveness
  issuedAt : Rat
  deriving DecidableEq

structure SiblingRecord where
  id : Text
  domain : Text
  stkHex : Text
  birthDate : Rat
  orderDate : Rat
  services : List Text
  liveness : Liveness
  issuedAt : Rat
  receivedAt : Int
  deriving DecidableEq

/-- A frame of a sibling: an announcement that names it and its key. -/
structure SiblingFrame where
  name : Text
  birthAuthHex : Text
  announcement : GossipAnnouncement
  deriving DecidableEq

structure SiblingView where
  records : OrdMap Text SiblingRecord
  livenessWindowMs : Int

section
variable [Lowercase]

def SiblingFrame.id (f : SiblingFrame) : Text := toLowercase f.name

def SiblingFrame.issuedAt (f : SiblingFrame) : Rat := f.announcement.issuedAt

namespace SiblingView

def new (livenessWindowMs : Int) : SiblingView := ⟨∅,livenessWindowMs⟩

/-- What a frame leaves of its sender. -/
def recordOf (f : SiblingFrame) (now : Int) : SiblingRecord where
  id := f.id
  domain := toLowercase f.name
  stkHex := toLowercase f.birthAuthHex
  birthDate := f.announcement.birthDate
  orderDate := f.announcement.orderDate
  services := f.announcement.services
  liveness := f.announcement.liveness
  issuedAt := f.issuedAt
  receivedAt := now

/-- A frame older than the record held is stale and ignored. -/
def upsert (v : SiblingView) (f : SiblingFrame) (now : Int) : SiblingView :=
  if (v.records.get? f.id).any (fun prev => decide (f.issuedAt < prev.issuedAt)) then v
  else { v with records := v.records.set f.id (recordOf f now) }

/-- Drop records aged past the window. -/
def prune (v : SiblingView) (now : Int) : SiblingView :=
  { v with records := v.records.filterMapVals fun _ r =>
      if v.livenessWindowMs < now - r.receivedAt then none else some r }

/-- All siblings still within the liveness window. -/
def liveSiblings (v : SiblingView) (now : Int) : List SiblingRecord :=
  (v.records.entries.map Prod.snd).filter fun r => decide (now - r.receivedAt ≤ v.livenessWindowMs)

end SiblingView

structure HttpRequest where
  method : Text
  path : Text
  body : Bytes
  deriving DecidableEq

def stripQuery (p : Text) : Text := p.takeWhile (· != '?')

/-- What the ingest handler is built from: the seal and the MAC of the cloud's key, and whether a
sibling may be counted at all. Opening gives no frame where the blob cannot be opened, is no JSON,
or has no announcement or no MAC text. -/
structure IngestDeps where
  openFrame : Bytes → Option (GossipAnnouncement × Text)
  verifyFrameMac : GossipAnnouncement → Text → Bool
  user : Text
  selfId : Text
  admitSibling : Text → Option Text

/-- The frame of a request that reaches the view. -/
def ingested (deps : IngestDeps) (body : Bytes) : Option SiblingFrame := do
  let (a,mac) ← deps.openFrame body
  if deps.verifyFrameMac a mac = false then none
  else
    let user ← a.user
    if toLowercase user ≠ toLowercase deps.user then none
    else
      let name ← a.name
      if toLowercase name = toLowercase deps.selfId then none
      else
        let birthAuthHex ← a.birthAuthHex
        if (deps.admitSibling birthAuthHex).any (fun refused => !refused.isEmpty) then none
        else some ⟨name,birthAuthHex,a⟩

/-- The answer's status, none for another path, and the view after it. -/
def handle (deps : IngestDeps) (v : SiblingView) (req : HttpRequest) (now : Int) :
    SiblingView × Option Nat :=
  if stripQuery req.path ≠ "/internal/gossip".toList then (v,none)
  else if req.method ≠ "POST".toList then (v,some 405)
  else match ingested deps req.body with
    | none => (v,some 204)
    | some f => (v.upsert f now,some 204)

/-- What reaches a view over its life: requests and prunes, each at a time of the box's clock. -/
inductive ViewEvent
  | request (req : HttpRequest) (now : Int)
  | prune (now : Int)

def ViewEvent.now : ViewEvent → Int
  | .request _ now => now
  | .prune now => now

/-- The frame an event delivers to the view. -/
def ViewEvent.delivers (deps : IngestDeps) : ViewEvent → Option SiblingFrame
  | .request req _ =>
    if stripQuery req.path = "/internal/gossip".toList ∧ req.method = "POST".toList then
      ingested deps req.body
    else none
  | .prune _ => none

/-- A view with the frames delivered to it, each with the time it came. -/
structure Watched where
  view : SiblingView
  delivered : List (SiblingFrame × Int)

def Watched.step (deps : IngestDeps) (w : Watched) (e : ViewEvent) : Watched where
  view := match e with
    | .request req now => (handle deps w.view req now).1
    | .prune now => w.view.prune now
  delivered := w.delivered ++ ((e.delivers deps).map fun f => (f,e.now)).toList

def Watched.new (livenessWindowMs : Int) : Watched := ⟨.new livenessWindowMs,[]⟩

def Watched.run (deps : IngestDeps) (w : Watched) (es : List ViewEvent) : Watched :=
  es.foldl (step deps) w

end
end Flagship.Gossip

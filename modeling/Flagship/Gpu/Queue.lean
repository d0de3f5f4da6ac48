import Flagship.Lib.OrdMap
import Flagship.Lib.Run
import Flagship.Lib.Text

namespace Flagship.Gpu
open Lib

inductive QueueError
  | full
  | appFull
  | duplicate
  deriving DecidableEq

/-- One queue of allocations for each app, served in rotation. -/
structure FairQueue where
  perApp : Nat
  total : Nat
  queues : OrdMap Text (List Text)
  rotation : List Text
  len : Nat
  deriving DecidableEq

namespace FairQueue

def new (perApp total : Nat) : FairQueue := ⟨perApp,total,∅,[],0⟩

def isEmpty (q : FairQueue) : Bool := q.len = 0

/-- An app that has no turn yet gets one after the others. -/
def join (rotation : List Text) (app : Text) : List Text :=
  if rotation.any (· == app) then rotation else rotation ++ [app]

/-- The position within the app's own queue, where there is room for the allocation. -/
def enqueue (q : FairQueue) (app id : Text) : Except QueueError Nat × FairQueue :=
  if q.queues.entries.any fun e => e.2.contains id then (.error .duplicate,q)
  else if q.total ≤ q.len then (.error .full,q)
  else
    let own := (q.queues.get? app).getD []
    -- `or_default` leaves an empty queue where there was none
    if q.perApp ≤ own.length then (.error .appFull,{ q with queues := q.queues.set app own })
    else (.ok own.length,{ q with
      queues := q.queues.set app (own ++ [id])
      rotation := join q.rotation app
      len := q.len + 1 })

/-- The head of each app's queue, in the order they should be tried. -/
def candidates (q : FairQueue) : List Text :=
  q.rotation.filterMap fun app => (q.queues.get? app).bind List.head?

/-- Every app's queue, in rotation order. -/
def snapshot (q : FairQueue) : List (Text × List Text) :=
  q.rotation.filterMap fun app => (q.queues.get? app).map fun own => (app,own)

/-- Take an allocation off the queue. If it was an app's head, that app moves to the back of the
rotation. An allocation waits once, so it does not matter in which order the queues are searched. -/
def remove (q : FairQueue) (id : Text) : Bool × FairQueue :=
  match q.queues.entries.find? fun e => e.2.contains id with
  | none => (false,q)
  | some (app,own) =>
    let wasHead := own.head? == some id
    let rest := own.filter (· != id)
    let q := { q with queues := q.queues.set app rest,len := q.len - 1 }
    if rest.isEmpty then (true,{ q with
      queues := q.queues.erase app
      rotation := q.rotation.filter (· != app) })
    else if wasHead then (true,{ q with rotation := q.rotation.filter (· != app) ++ [app] })
    else (true,q)

end FairQueue

inductive QueueMove
  | enqueue (app id : Text)
  | remove (id : Text)
  deriving DecidableEq

inductive QueueAnswer
  | enqueued (position : Except QueueError Nat)
  | removed (found : Bool)
  deriving DecidableEq

/-- A move of the queue, with the answers so far. -/
def FairQueue.step (s : FairQueue × List QueueAnswer) : QueueMove → FairQueue × List QueueAnswer
  | .enqueue app id => ((s.1.enqueue app id).2,s.2 ++ [.enqueued (s.1.enqueue app id).1])
  | .remove id => ((s.1.remove id).2,s.2 ++ [.removed (s.1.remove id).1])

/-- What the queue is for: everyone who waits, in the order they came, each with its app. -/
abbrev Line := List (Text × Text)

namespace Line

def of (line : Line) (app : Text) : List Text :=
  (line.filter fun e => e.1 == app).map Prod.snd

def enqueue (perApp total : Nat) (line : Line) (app id : Text) : Except QueueError Nat × Line :=
  if id ∈ line.map Prod.snd then (.error .duplicate,line)
  else if total ≤ line.length then (.error .full,line)
  else if perApp ≤ (of line app).length then (.error .appFull,line)
  else (.ok (of line app).length,line ++ [(app,id)])

def remove (line : Line) (id : Text) : Bool × Line :=
  (decide (id ∈ line.map Prod.snd),line.filter fun e => e.2 != id)

def step (perApp total : Nat) (s : Line × List QueueAnswer) : QueueMove → Line × List QueueAnswer
  | .enqueue app id => ((enqueue perApp total s.1 app id).2,
      s.2 ++ [.enqueued (enqueue perApp total s.1 app id).1])
  | .remove id => ((remove s.1 id).2,s.2 ++ [.removed (remove s.1 id).1])

end Line
end Flagship.Gpu

import Flagship.Mesh.Items
import Flagship.Lib.Bytes
import Flagship.Lib.OrdMap
import Flagship.Lib.Run

namespace Flagship.Relay
open Mesh (saturatingAdd)

def streamInitialWindow : Nat := 256 * 1024

/-- Credit past this is ignored. -/
def streamMaxWindow : Nat := streamInitialWindow * 4

/-- Bytes that may still be sent. -/
structure SendWindow where
  credit : Nat
  deriving DecidableEq

namespace SendWindow

def new (initial : Nat) : SendWindow := ⟨initial⟩

def available (w : SendWindow) : Nat := w.credit

def consume (w : SendWindow) (n : Nat) : SendWindow := ⟨w.credit - n⟩

def grant (w : SendWindow) (n : Nat) : SendWindow := ⟨min (saturatingAdd w.credit n) streamMaxWindow⟩

end SendWindow

inductive FlowError
  /-- The peer sent more than the credit it was given. -/
  | overrun
  deriving DecidableEq

/-- Bytes the peer may still send; grants are batched so that credit frames stay
rare. -/
structure RecvWindow where
  window : Nat
  outstanding : Nat
  unreported : Nat
  deriving DecidableEq

namespace RecvWindow

def new (window : Nat) : RecvWindow := ⟨window,0,0⟩

def onData (w : RecvWindow) (n : Nat) : Except FlowError RecvWindow :=
  let next := saturatingAdd w.outstanding n
  if w.window < next then .error .overrun else .ok { w with outstanding := next }

/-- The sink took bytes: a grant to send once a quarter of the window drained. -/
def onConsumed (w : RecvWindow) (n : Nat) : RecvWindow × Option Nat :=
  let n := min n w.outstanding
  let w := { w with outstanding := w.outstanding - n, unreported := saturatingAdd w.unreported n }
  if w.window / 4 ≤ w.unreported then
    let g := min w.unreported (2 ^ 32 - 1)
    ({ w with unreported := w.unreported - g },some g)
  else (w,none)

end RecvWindow

/-- One direction of a credited stream: the sender's window, the DATA frames on
their way, the receiver's window and the STREAM_CREDIT frames on their way back.
Frames stand as how many bytes they carry or grant. -/
structure Link where
  sender : SendWindow
  data : List Nat
  receiver : RecvWindow
  grants : List Nat
  /-- The receiver reported an overrun, and the stream was cut. -/
  overrun : Bool
  deriving DecidableEq

inductive LinkOp
  | send (n : Nat)
  | deliverData
  | consume (n : Nat)
  | deliverGrant
  deriving DecidableEq

namespace Link

def new (window : Nat) : Link := ⟨.new window,[],.new window,[],false⟩

/-- A credit frame is never made of nothing. -/
def creditFrame (g : Option Nat) : List Nat := g.toList.filter (fun n => decide (n ≠ 0))

/-- A sender takes no more than its credit at once; each channel delivers in
order. -/
def step (l : Link) : LinkOp → Link
  | .send n =>
    if n ≤ l.sender.available then { l with sender := l.sender.consume n, data := l.data ++ [n] }
    else l
  | .deliverData =>
    match l.data with
    | [] => l
    | n :: data =>
      match l.receiver.onData n with
      | .ok receiver => { l with data := data, receiver := receiver }
      | .error .overrun => { l with data := data, overrun := true }
  | .consume n =>
    let (receiver,g) := l.receiver.onConsumed n
    { l with receiver := receiver, grants := l.grants ++ creditFrame g }
  | .deliverGrant =>
    match l.grants with
    | [] => l
    | n :: grants => { l with sender := l.sender.grant n, grants := grants }

end Link

open Lib

/-- What one stream has queued. Its bytes are all in memory, so a counter never
reaches the end of its numbers. -/
structure Lane where
  chunks : List Bytes
  bytes : Nat
  deficit : Nat
  credit : Option SendWindow
  queued : Bool
  deriving DecidableEq

def Lane.sendable (l : Lane) : Bool :=
  !l.chunks.isEmpty && l.credit.all fun c => decide (0 < c.available)

/-- The greatest `usize`. -/
def usizeMax : Nat := 2 ^ 64 - 1

/-- How much a turn of the lane may take. -/
def Lane.limit (l : Lane) (most : Nat) : Nat :=
  let credit := match l.credit with
    | none => usizeMax
    | some c => min c.available usizeMax
  max (min (min most l.deficit) credit) 1

/-- Deficit round robin over the queues of the streams, with credit for some of
them. -/
structure FairQueue where
  lanes : OrdMap Nat Lane
  ring : List Nat
  quantum : Nat
  total : Nat
  deriving DecidableEq

namespace FairQueue

def new (quantum : Nat) : FairQueue := ⟨∅,[],max quantum 1,0⟩

/-- Start with a stream, if it is not there yet. -/
def openStream (q : FairQueue) (id : Nat) (credit : Option SendWindow) : FairQueue :=
  if q.lanes.contains id then q
  else { q with lanes := q.lanes.set id ⟨[],0,0,credit,false⟩ }

/-- Forget a stream and what it has queued; the bytes that are dropped. -/
def remove (q : FairQueue) (id : Nat) : FairQueue × Nat :=
  match q.lanes.get? id with
  | none => (q,0)
  | some l =>
    ({ q with
      lanes := q.lanes.erase id
      ring := q.ring.filter fun x => x ≠ id
      total := q.total - l.bytes },l.bytes)

def requeue (q : FairQueue) (id : Nat) : FairQueue :=
  match q.lanes.get? id with
  | none => q
  | some l =>
    if !l.queued && l.sendable then
      { q with
        lanes := q.lanes.set id { l with queued := true }
        ring := q.ring ++ [id] }
    else q

/-- Queue bytes; false for a stream that is not known. -/
def push (q : FairQueue) (id : Nat) (data : Bytes) : FairQueue × Bool :=
  match q.lanes.get? id with
  | none => (q,false)
  | some l =>
    if data.isEmpty then (q,true)
    else
      ({ q with
        lanes := q.lanes.set id { l with
          bytes := l.bytes + data.length
          chunks := l.chunks ++ [data] }
        total := q.total + data.length }.requeue id,true)

def grant (q : FairQueue) (id n : Nat) : FairQueue :=
  match q.lanes.get? id with
  | some l =>
    { q with
      lanes := q.lanes.set id { l with
        credit := l.credit.map fun (c : SendWindow) => c.grant n } }.requeue id
  | none => q.requeue id

/-- The first chunk cut at a limit: what goes out, and the chunks that stay. -/
def cutHead (limit : Nat) (head : Bytes) (rest : List Bytes) : Bytes × List Bytes :=
  if head.length ≤ limit then (head,rest) else (head.take limit,head.drop limit :: rest)

/-- The next chunk to send of the streams in what is left of the ring. -/
def popFrom (most : Nat) (q : FairQueue) : List Nat → FairQueue × Option (Nat × Bytes)
  | [] => ({ q with ring := [] },none)
  | id :: ring =>
    match q.lanes.get? id with
    | none => popFrom most q ring
    | some l =>
      let l := { l with queued := false }
      if !l.sendable then
        popFrom most { q with lanes := q.lanes.set id { l with deficit := 0 } } ring
      else
        let l := if l.deficit = 0 then { l with deficit := q.quantum } else l
        match l.chunks with
        | [] => popFrom most { q with lanes := q.lanes.set id l } ring
        | head :: rest =>
          let (out,chunks) := cutHead (l.limit most) head rest
          let n := out.length
          let l := { l with
            chunks := chunks
            bytes := l.bytes - n
            deficit := l.deficit - n
            credit := l.credit.map fun (c : SendWindow) => c.consume n }
          if 0 < l.deficit ∧ l.sendable then
            ({ q with
              lanes := q.lanes.set id { l with queued := true }
              ring := id :: ring
              total := q.total - n },some (id,out))
          else
            ({ q with
              lanes := q.lanes.set id { l with deficit := 0 }
              ring := ring
              total := q.total - n }.requeue id,some (id,out))

/-- The next chunk to send, at most so long and within the stream's credit. -/
def pop (q : FairQueue) (most : Nat) : FairQueue × Option (Nat × Bytes) := q.popFrom most q.ring

end FairQueue

inductive FairOp
  | openStream (id : Nat) (credit : Option SendWindow)
  | push (id : Nat) (data : Bytes)
  | grant (id n : Nat)
  | pop (most : Nat)
  | requeue (id : Nat)
  | remove (id : Nat)
  deriving DecidableEq

def FairQueue.step (q : FairQueue) : FairOp → FairQueue
  | .openStream id credit => q.openStream id credit
  | .push id data => (q.push id data).1
  | .grant id n => q.grant id n
  | .pop most => (q.pop most).1
  | .requeue id => q.requeue id
  | .remove id => (q.remove id).1

end Flagship.Relay

import Flagship.Relay.Flow

namespace Flagship.Relay
open Lib

/-- Bytes queued toward visitors across every stream of one tunnel. -/
structure Budget where
  used : Nat
  cap : Nat
  deriving DecidableEq

namespace Budget

def new (cap : Nat) : Budget := ⟨0,cap⟩

def tryTake (b : Budget) (n : Nat) : Option Budget :=
  let next := b.used + n
  if 0 < b.used ∧ b.cap < next then none else some { b with used := next }

def give (b : Budget) (n : Nat) : Budget := { b with used := b.used - n }

end Budget

inductive PushError
  | full
  | closed
  deriving DecidableEq

/-- One stream's downlink. An empty queue always admits one chunk. -/
structure DownQueue where
  chunks : List Bytes
  bytes : Nat
  ended : Bool
  aborted : Bool
  cap : Nat
  deriving DecidableEq

/-- What a pop answers: a chunk, the end of the queue, or nothing yet. -/
inductive Popped
  | chunk (c : Bytes) (q : DownQueue) (budget : Budget)
  | finished
  | waits
  deriving DecidableEq

namespace DownQueue

def new (cap : Nat) : DownQueue := ⟨[],0,false,false,cap⟩

def tryPush (q : DownQueue) (budget : Budget) (data : Bytes) :
    Except PushError (DownQueue × Budget) :=
  if q.ended || q.aborted then .error .closed
  else if 0 < q.bytes ∧ q.cap < q.bytes + data.length then .error .full
  else
    match budget.tryTake data.length with
    | none => .error .full
    | some budget =>
      .ok ({ q with bytes := q.bytes + data.length, chunks := q.chunks ++ [data] },budget)

def pop (q : DownQueue) (budget : Budget) : Popped :=
  if q.aborted then .finished
  else
    match q.chunks with
    | c :: chunks =>
      .chunk c { q with chunks := chunks, bytes := q.bytes - c.length } (budget.give c.length)
    | [] => if q.ended then .finished else .waits

/-- No more data will come; what is queued still drains. -/
def finish (q : DownQueue) : DownQueue := { q with ended := true }

/-- Drop everything queued. -/
def abort (q : DownQueue) (budget : Budget) : DownQueue × Budget :=
  ({ q with aborted := true, chunks := [], bytes := 0 },budget.give q.bytes)

end DownQueue

structure HubConfig where
  maxStreamsPerTunnel : Nat
  streamQueueBytes : Nat
  tunnelQueueBytes : Nat
  deriving DecidableEq

inductive OpenError
  | tooManyStreams
  | tunnelClosed
  deriving DecidableEq

structure StreamEntry where
  /-- The queue the stream shares with whoever reads it, by its place in
  `Tunnel.queues`. -/
  down : Nat
  sni : Text
  recv : Option RecvWindow
  remoteClosed : Bool
  deriving DecidableEq

structure Tunnel where
  cfg : HubConfig
  closed : Bool
  budget : Budget
  /-- Every queue the tunnel ever made. -/
  queues : List DownQueue
  streams : OrdMap Nat StreamEntry
  nextId : Nat
  streamCredit : Bool
  /-- A mesh bridge's stream mux: `some true` opens odd ids (the dialer),
  `some false` even. -/
  bridge : Option Bool
  deriving DecidableEq

/-- Bridge stream ids are below this. -/
def bridgeMaxStreamId : Nat := 0x7fffffff

def outboundStreamIdBase : Nat := 0x80000000

def bridgeFirst (odd : Bool) : Nat := if odd then 1 else 2

def bridgeNext (odd : Bool) (id : Nat) : Nat :=
  if bridgeMaxStreamId - 1 ≤ id then bridgeFirst odd else id + 2

def boxNext (id : Nat) : Nat := if outboundStreamIdBase - 1 ≤ id then 1 else id + 1

/-- The first id from `id` on which is not taken, in at most as many steps as
are allowed. -/
def freeId (next : Nat → Nat) (taken : Nat → Bool) : Nat → Nat → Option Nat
  | 0,_ => none
  | steps + 1,id => if taken id then freeId next taken steps (next id) else some id

def toAsciiLowercase (t : Text) : Text := t.map Char.toLower

namespace Tunnel

def new (cfg : HubConfig) : Tunnel :=
  ⟨cfg,false,.new cfg.tunnelQueueBytes,[],∅,1,false,none⟩

def newBridge (cfg : HubConfig) (odd : Bool) : Tunnel :=
  { new cfg with bridge := some odd, nextId := bridgeFirst odd, streamCredit := true }

/-- The id for a new stream and the counter after it; nothing when every id the
search comes to is taken, where the search would not end. -/
def allocateId (t : Tunnel) : Option (Nat × Nat) :=
  match t.bridge with
  | some odd =>
    (freeId (bridgeNext odd) (fun id => t.streams.contains id || id == 0)
      (t.streams.size + 2) t.nextId).map (fun id => (id,bridgeNext odd id))
  | none =>
    (freeId boxNext t.streams.contains (t.streams.size + 1) t.nextId).map
      (fun id => (id,boxNext id))

/-- Register a stream under its id, with a queue of its own. -/
def insertStream (t : Tunnel) (id : Nat) (sni : Text) (credit : Bool) : Tunnel :=
  { t with
    queues := t.queues ++ [.new t.cfg.streamQueueBytes]
    streams := t.streams.set id ⟨t.queues.length,toAsciiLowercase sni,
      if credit then some (.new streamInitialWindow) else none,false⟩ }

/-- Open a stream; nothing when the search for an id does not end. -/
def openStreamKind (t : Tunnel) (sni : Text) : Option (Except OpenError (Nat × Tunnel)) :=
  if t.closed then some (.error .tunnelClosed)
  else if t.cfg.maxStreamsPerTunnel ≤ t.streams.size then some (.error .tooManyStreams)
  else
    t.allocateId.map (fun (id,next) =>
      .ok (id,{ t with nextId := next }.insertStream id sni t.streamCredit))

/-- Whether an id is one the peer of a bridge may open. -/
def theirs (t : Tunnel) (id : Nat) : Bool :=
  match t.bridge with
  | some odd => id != 0 && id < bridgeMaxStreamId && (id % 2 == 1) != odd
  | none => false

/-- A bridge stream the peer opened: register it like one this side opened. -/
def acceptStream (t : Tunnel) (id : Nat) (sni : Text) : Except OpenError Tunnel :=
  if t.closed then .error .tunnelClosed
  else if !t.theirs id || t.streams.contains id then .error .tunnelClosed
  else if t.cfg.maxStreamsPerTunnel ≤ t.streams.size then .error .tooManyStreams
  else .ok (t.insertStream id sni true)

def endQueue (t : Tunnel) (down : Nat) : Tunnel :=
  { t with queues := t.queues.modify down DownQueue.finish }

def abortQueue (t : Tunnel) (down : Nat) : Tunnel :=
  match t.queues[down]? with
  | none => t
  | some q =>
    { t with queues := t.queues.set down (q.abort t.budget).1, budget := (q.abort t.budget).2 }

/-- The visitor side is finished. -/
def closeStream (t : Tunnel) (id : Nat) : Tunnel := { t with streams := t.streams.erase id }

/-- The box closed or broke a stream: what is queued drains, unless the stream
is cut. -/
def remoteClose (t : Tunnel) (id : Nat) (abort : Bool) : Tunnel :=
  match t.streams.get? id with
  | none => t
  | some e =>
    let t := { t with streams := t.streams.set id { e with remoteClosed := true } }
    if abort then t.abortQueue e.down else t.endQueue e.down

/-- A stream broke its bounds: drop the visitor. -/
def killStream (t : Tunnel) (id : Nat) : Tunnel :=
  let t := t.remoteClose id true
  { t with streams := t.streams.erase id }

/-- The visitor's sink took bytes of a stream. -/
def consumed (t : Tunnel) (id n : Nat) : Tunnel :=
  match t.streams.get? id with
  | none => t
  | some e =>
    { t with streams := t.streams.set id { e with recv := e.recv.map (fun r => (r.onConsumed n).1) } }

/-- The box's app routes stopped: every stream ends but those for its control
name. -/
def closeAppStreams (t : Tunnel) (control : Text) : Tunnel :=
  let ended := t.streams.entries.filter (fun (_,e) => e.sni != control)
  let t := { t with
    streams := t.streams.filterMapVals (fun _ e => if e.sni != control then none else some e) }
  ended.foldl (fun t e => t.endQueue e.2.down) t

def close (t : Tunnel) : Tunnel :=
  if t.closed then t
  else t.streams.entries.foldl (fun t e => t.endQueue e.2.down) { t with closed := true, streams := ∅ }

end Tunnel

/-- The two ends of a mesh bridge, the odd one at `true`. -/
abbrev Bridge := Bool → Tunnel

inductive BridgeOp
  | openStream (odd : Bool) (sni : Text)
  /-- The peer's OPEN of an id reaches an end. -/
  | acceptStream (odd : Bool) (id : Nat) (sni : Text)
  | closeStream (odd : Bool) (id : Nat)
  | remoteClose (odd : Bool) (id : Nat) (abort : Bool)
  | killStream (odd : Bool) (id : Nat)
  | close (odd : Bool)
  deriving DecidableEq

namespace Bridge

def new (cfg : Bool → HubConfig) : Bridge := fun odd => .newBridge (cfg odd) odd

def step (b : Bridge) : BridgeOp → Bridge
  | .openStream odd sni =>
    match (b odd).openStreamKind sni with
    | some (.ok (_,t)) => Function.update b odd t
    | some (.error _) | none => b
  | .acceptStream odd id sni =>
    match (b odd).acceptStream id sni with
    | .ok t => Function.update b odd t
    | .error _ => b
  | .closeStream odd id => Function.update b odd ((b odd).closeStream id)
  | .remoteClose odd id abort => Function.update b odd ((b odd).remoteClose id abort)
  | .killStream odd id => Function.update b odd ((b odd).killStream id)
  | .close odd => Function.update b odd (b odd).close

end Bridge

/-- Where a splice of a visitor and a stream stands: both directions run, or only
the queue still drains, or the call returned. -/
inductive PipePhase
  | spliced
  | draining
  | returned
  deriving DecidableEq

/-- One call that splices a visitor to a stream. -/
structure Pipe where
  id : Nat
  down : Nat
  phase : PipePhase
  /-- The chunk the downlink took and is writing to the visitor. -/
  writing : Option Bytes
  deriving DecidableEq

/-- Box data the tunnel's reader is about to queue: the stream it was for and the
queue found for it. -/
structure Arriving where
  id : Nat
  down : Nat
  data : Bytes
  credited : Bool
  /-- The queue was full, and the reader waits for room. -/
  refused : Bool
  deriving DecidableEq

/-- A tunnel with every splice on it. -/
structure Visitors where
  tunnel : Tunnel
  pipes : List Pipe
  arriving : Option Arriving
  deriving DecidableEq

inductive VisitorOp
  | visit (sni : Text)
  /-- DATA from the box for a stream. -/
  | boxData (id : Nat) (data : Bytes)
  /-- The reader tries to queue what arrived. -/
  | push
  /-- The reader waited long enough for room. -/
  | graceOver
  | boxClose (id : Nat)
  | stopApps (control : Text)
  | closeTunnel
  /-- The downlink of a splice takes the next chunk. -/
  | pop (pipe : Nat)
  /-- The visitor's socket took the chunk. -/
  | wrote (pipe : Nat)
  /-- The visitor's socket is broken. -/
  | writeFailed (pipe : Nat)
  /-- The uplink ended: the visitor half-closed or left, or the box took no more. -/
  | upEnded (pipe : Nat)
  | seesTunnelClosed (pipe : Nat)
  /-- Thirty seconds of draining passed. -/
  | drainLimit (pipe : Nat)
  deriving DecidableEq

namespace Visitors

/-- A tunnel whose box asked for credit or did not. -/
def new (cfg : HubConfig) (streamCredit : Bool) : Visitors :=
  ⟨{ Tunnel.new cfg with streamCredit := streamCredit },[],none⟩

def setPipe (s : Visitors) (i : Nat) (p : Pipe) : Visitors := { s with pipes := s.pipes.set i p }

/-- One of the two directions ended while both ran: the stream closes, and its
queue takes no more. -/
def unsplice (s : Visitors) (i : Nat) (p : Pipe) (phase : PipePhase) : Visitors :=
  { s with tunnel := (s.tunnel.closeStream p.id).endQueue p.down }.setPipe i { p with phase := phase }

/-- The downlink of a splice returned. -/
def downDone (s : Visitors) (i : Nat) (p : Pipe) : Visitors :=
  match p.phase with
  | .spliced => s.unsplice i { p with writing := none } .returned
  | .draining => s.setPipe i { p with phase := .returned, writing := none }
  | .returned => s

def visit (s : Visitors) (sni : Text) : Visitors :=
  match s.tunnel.openStreamKind sni with
  | some (.ok (id,t)) =>
    { s with tunnel := t, pipes := s.pipes ++ [⟨id,s.tunnel.queues.length,.spliced,none⟩] }
  | some (.error _) | none => s

/-- DATA from the box: its stream's queue is looked up and the bytes counted
against the stream's credit, if it has any. -/
def boxData (s : Visitors) (id : Nat) (data : Bytes) : Visitors :=
  match s.tunnel.streams.get? id with
  | none => s
  | some e =>
    if e.remoteClosed then s
    else
      match e.recv with
      | none => { s with arriving := some ⟨id,e.down,data,false,false⟩ }
      | some r =>
        match r.onData data.length with
        | .error .overrun => { s with tunnel := s.tunnel.killStream id }
        | .ok r =>
          { s with
            tunnel := { s.tunnel with streams := s.tunnel.streams.set id { e with recv := some r } }
            arriving := some ⟨id,e.down,data,true,false⟩ }

/-- A full queue cuts a credited stream, and keeps the reader of another one
waiting. -/
def push (s : Visitors) : Visitors :=
  match s.arriving with
  | none => s
  | some a =>
    match s.tunnel.queues[a.down]? with
    | none => { s with arriving := none }
    | some q =>
      match q.tryPush s.tunnel.budget a.data with
      | .ok (q,budget) =>
        { s with
          tunnel := { s.tunnel with queues := s.tunnel.queues.set a.down q, budget := budget }
          arriving := none }
      | .error .closed => { s with arriving := none }
      | .error .full =>
        if a.credited then { s with tunnel := s.tunnel.killStream a.id, arriving := none }
        else { s with arriving := some { a with refused := true } }

/-- The wait for room is over: the stream is cut. -/
def graceOver (s : Visitors) : Visitors :=
  match s.arriving with
  | none => s
  | some a => if a.refused then { s with tunnel := s.tunnel.killStream a.id, arriving := none } else s

def pop (s : Visitors) (i : Nat) (p : Pipe) : Visitors :=
  match s.tunnel.queues[p.down]? with
  | none => s
  | some q =>
    match q.pop s.tunnel.budget with
    | .chunk c q budget =>
      { s with tunnel := { s.tunnel with queues := s.tunnel.queues.set p.down q, budget := budget } }
        |>.setPipe i { p with writing := some c }
    | .finished => s.downDone i p
    | .waits => s

/-- A step at a splice which did not return yet. -/
def atPipe (s : Visitors) (i : Nat) (f : Pipe → Visitors) : Visitors :=
  match s.pipes[i]? with
  | none => s
  | some p => if p.phase = .returned then s else f p

def step (s : Visitors) : VisitorOp → Visitors
  | .visit sni => s.visit sni
  | .boxData id data => if s.arriving.isSome then s else s.boxData id data
  | .push => s.push
  | .graceOver => s.graceOver
  | .boxClose id => { s with tunnel := s.tunnel.remoteClose id false }
  | .stopApps control => { s with tunnel := s.tunnel.closeAppStreams control }
  | .closeTunnel => { s with tunnel := s.tunnel.close }
  | .pop i => s.atPipe i (fun p => if p.writing.isSome then s else s.pop i p)
  | .wrote i => s.atPipe i (fun p =>
    match p.writing with
    | none => s
    | some c =>
      { s with tunnel := s.tunnel.consumed p.id c.length }.setPipe i { p with writing := none })
  | .writeFailed i => s.atPipe i (fun p =>
    if p.writing.isSome then
      { s with tunnel := (s.tunnel.abortQueue p.down).closeStream p.id }.downDone i p
    else s)
  | .upEnded i => s.atPipe i (fun p => if p.phase = .spliced then s.unsplice i p .draining else s)
  | .seesTunnelClosed i => s.atPipe i (fun p =>
    if p.phase = .spliced ∧ s.tunnel.closed = true then s.unsplice i p .draining else s)
  | .drainLimit i => s.atPipe i (fun p =>
    if p.phase = .draining then s.setPipe i { p with phase := .returned, writing := none } else s)

/-- Bytes queued for the visitor of a splice. -/
def queued (s : Visitors) (p : Pipe) : Nat :=
  (s.tunnel.queues[p.down]?.map DownQueue.bytes).getD 0

/-- Bytes queued for the splices that did not return. -/
def queuedForRunning (s : Visitors) : Nat :=
  ((s.pipes.filter (fun p => p.phase != .returned)).map s.queued).sum

end Visitors
end Flagship.Relay

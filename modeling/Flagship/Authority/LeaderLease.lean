import Flagship.Lib.Run
import Flagship.Mesh.Items

namespace Flagship.Authority
open Lib
open Flagship.Mesh (maxSafeInteger)

/-- What a voter keeps: the highest term it has seen, who holds its lease, until when. -/
structure VoterState where
  highestTerm : Nat
  holder : Option Text
  leaseUntil : Int
  deriving DecidableEq

inductive LeaseRefusal
  | oldTerm
  | leasedToAnother
  | recovering
  deriving DecidableEq

inductive GrantResult
  | granted (leaseUntil : Int)
  | refused (reason : LeaseRefusal)
  deriving DecidableEq

def GrantResult.leaseUntil? : GrantResult → Option Int
  | .granted leaseUntil => some leaseUntil
  | .refused _ => none

/-- What `readStateFile` finds at the path of a voter. -/
inductive VoterFile
  | missing
  | corrupt
  | saved (state : VoterState)
  deriving DecidableEq

structure LeaseVoter where
  state : VoterState
  /-- A voter that lost its state stays silent until every lease it could have granted ended. -/
  silentUntil : Int
  deriving DecidableEq

namespace LeaseVoter

def new : LeaseVoter := ⟨⟨0,none,0⟩,0⟩

/-- The clock is the trusted one, or the wall clock where there is no trusted time. -/
def silent (now : Option Int) (wall maxLeaseMs : Int) : LeaseVoter :=
  { new with silentUntil := now.getD wall + maxLeaseMs }

/-- There is a file, and it holds no voter's state. -/
def lost : VoterFile → Bool
  | .missing => false
  | .corrupt => true
  | .saved s => decide (maxSafeInteger < s.highestTerm)

def load (file : VoterFile) (now : Option Int) (wall maxLeaseMs : Int) : LeaseVoter :=
  if lost file then silent now wall maxLeaseMs
  else
    match file with
    | .saved s => ⟨s,0⟩
    | _ => new

/-- Another candidate's lease is still running. -/
def others (v : LeaseVoter) (candidate : Text) (t : Int) : Bool :=
  v.state.holder.isSome && v.state.holder != some candidate && decide (t < v.state.leaseUntil)

/-- Grant a lease for a term, unless another holder's lease is still running. -/
def grant (v : LeaseVoter) (maxLeaseMs : Int) (now : Option Int) (candidate : Text) (term : Nat)
    (leaseMs : Int) : GrantResult × LeaseVoter :=
  match now with
  | none => (.refused .recovering,v)
  | some t =>
    if t < v.silentUntil then (.refused .recovering,v)
    else if term < v.state.highestTerm then (.refused .oldTerm,v)
    else if v.others candidate t && decide (term ≤ v.state.highestTerm) then
      (.refused .leasedToAnother,v)
    else if v.others candidate t then (.refused .leasedToAnother,v)
    else
      let leaseUntil := t + min leaseMs maxLeaseMs
      (.granted leaseUntil,
        { v with state := ⟨max term v.state.highestTerm,some candidate,leaseUntil⟩ })

/-- The holder gives its lease back. -/
def release (v : LeaseVoter) (holder : Text) : Bool × LeaseVoter :=
  if v.state.holder ≠ some holder then (false,v)
  else (true,{ v with state := { v.state with holder := none,leaseUntil := 0 } })

end LeaseVoter

/-- A call of `campaign` that waits for its answers, one for each place in the membership. -/
structure Campaign where
  call : Nat
  t0 : Int
  term : Nat
  answers : Nat → Option GrantResult

structure LeaderCandidate where
  term : Nat
  acts : Option Int
  campaigns : List Campaign
  /-- How many campaigns this candidate began, in this process or an earlier one. -/
  calls : Nat
  /-- What `persistTerm` keeps. -/
  savedTerm : Nat

namespace LeaderCandidate

def new : LeaderCandidate := ⟨0,none,[],0,0⟩

def majority (members : List Text) : Nat := members.length / 2 + 1

def nextTerm (c : LeaderCandidate) (t0 : Int) : Nat :=
  match c.acts with
  | some acts => if t0 < acts then c.term else c.term + 1
  | none => c.term + 1

/-- The leases a campaign was granted; a member that did not answer counts as one that refused. -/
def grants (members : List Text) (p : Campaign) : List Int :=
  (List.range members.length).filterMap fun slot =>
    ((p.answers slot).getD (.refused .recovering)).leaseUntil?

/-- Act only until the earliest expiry in the majority, less a margin for the drift of the
clocks, measured from before the requests went out. -/
def actsOf (members : List Text) (leaseMs : Int) (driftMs : Nat) (p : Campaign) : Option Int :=
  if (grants members p).length < majority members then none
  else (grants members p).min?.map fun earliest =>
    min (earliest - driftMs) (p.t0 + leaseMs - driftMs)

def mayAct (c : LeaderCandidate) (now : Option Int) : Bool :=
  match now,c.acts with
  | some t,some acts => decide (t < acts)
  | _,_ => false

end LeaderCandidate

/-- The options of the parties. -/
structure Membership where
  members : List Text
  maxLeaseMs : Text → Int
  leaseMs : Text → Int
  driftMs : Text → Nat
  /-- The candidates that were given a `persistTerm`. -/
  persists : Text → Bool

/-- A call of a voter that waits for `persist`. -/
inductive VoterWrite
  | grant (candidate : Text) (call slot : Nat) (leaseUntil : Int)
  | release

/-- A member: the voter, its file, the writes that wait for their turn and what the first of
them writes once it has it. -/
structure Voter where
  voter : LeaseVoter
  file : VoterFile
  writes : List VoterWrite
  body : Option VoterState

structure LeaseRequest where
  candidate : Text
  call : Nat
  slot : Nat
  term : Nat

structure LeaseReply where
  candidate : Text
  call : Nat
  slot : Nat
  result : GrantResult

structure ReleaseMessage where
  holder : Text
  member : Text

/-- The members and the candidates with the trusted time they share, and what is under way
between them. -/
structure Election where
  time : Int
  voters : Text → Voter
  candidates : Text → LeaderCandidate
  requests : List LeaseRequest
  replies : List LeaseReply
  releases : List ReleaseMessage

namespace Election

def start (time : Nat) : Election :=
  ⟨time,fun _ => ⟨.new,.missing,[],none⟩,fun _ => .new,[],[],[]⟩

inductive Move
  | passes (ms : Nat)
  /-- A candidate calls `campaign`, with or without trusted time. -/
  | campaign (candidate : Text) (known : Bool)
  /-- A request reaches its member, which has trusted time or not. -/
  | ask (request : Nat) (known : Bool)
  | writeBegins (member : Text)
  | writeLands (member : Text)
  /-- A write fails, before it replaced the file or after. -/
  | writeFails (member : Text) (replaced : Bool)
  | answer (reply : Nat)
  /-- Every member has answered or is given up, and `campaign` goes on. -/
  | resolve (candidate : Text) (call : Nat)
  | stepDown (candidate : Text)
  | release (message : Nat)
  | releaseLost (message : Nat)
  /-- A member starts again, with its file as it was or not; a file that holds no state is
  moved away, where that does not fail. -/
  | voterRestarts (member : Text) (intact moved known : Bool) (wall : Int)
  | candidateRestarts (candidate : Text)

def setVoter (w : Election) (member : Text) (v : Voter) : Election :=
  { w with voters := Function.update w.voters member v }

def setCandidate (w : Election) (candidate : Text) (c : LeaderCandidate) : Election :=
  { w with candidates := Function.update w.candidates candidate c }

def clock (w : Election) (known : Bool) : Option Int := if known then some w.time else none

def campaign (g : Membership) (w : Election) (id : Text) (known : Bool) : Election :=
  let c := w.candidates id
  match w.clock known with
  | none => w.setCandidate id { c with acts := none }
  | some t0 =>
    let term := c.nextTerm t0
    { w.setCandidate id { c with
        campaigns := c.campaigns ++ [⟨c.calls,t0,term,fun _ => none⟩]
        calls := c.calls + 1
        savedTerm := if g.persists id && decide (term ≠ c.term) then term else c.savedTerm } with
      requests := w.requests ++
        (List.range g.members.length).map fun slot => ⟨id,c.calls,slot,term⟩ }

def ask (g : Membership) (w : Election) (i : Nat) (known : Bool) : Election :=
  match w.requests[i]? with
  | none => w
  | some r =>
    let w := { w with requests := w.requests.eraseIdx i }
    match g.members[r.slot]? with
    | none => w
    | some member =>
      let v := w.voters member
      match v.voter.grant (g.maxLeaseMs member) (w.clock known) r.candidate r.term
        (g.leaseMs r.candidate) with
      | (.granted leaseUntil,voter) => w.setVoter member { v with
          voter := voter
          writes := v.writes ++ [.grant r.candidate r.call r.slot leaseUntil] }
      | (.refused reason,_) =>
        { w with replies := w.replies ++ [⟨r.candidate,r.call,r.slot,.refused reason⟩] }

def writeBegins (w : Election) (member : Text) : Election :=
  let v := w.voters member
  match v.writes,v.body with
  | _ :: _,none => w.setVoter member { v with body := some v.voter.state }
  | _,_ => w

def writeLands (w : Election) (member : Text) : Election :=
  let v := w.voters member
  match v.writes,v.body with
  | first :: rest,some state =>
    let w := w.setVoter member { v with file := .saved state,writes := rest,body := none }
    match first with
    | .grant candidate call slot leaseUntil =>
      { w with replies := w.replies ++ [⟨candidate,call,slot,.granted leaseUntil⟩] }
    | .release => w
  | _,_ => w

def writeFails (w : Election) (member : Text) (replaced : Bool) : Election :=
  let v := w.voters member
  let file := match v.body with
    | some state => if replaced then .saved state else v.file
    | none => v.file
  w.setVoter member { v with file := file,writes := v.writes.tail,body := none }

def answer (w : Election) (i : Nat) : Election :=
  match w.replies[i]? with
  | none => w
  | some r =>
    let c := w.candidates r.candidate
    { w.setCandidate r.candidate { c with
        campaigns := c.campaigns.map fun p => if p.call = r.call then
          { p with answers := Function.update p.answers r.slot (some r.result) } else p } with
      replies := w.replies.eraseIdx i }

def resolve (g : Membership) (w : Election) (id : Text) (call : Nat) : Election :=
  let c := w.candidates id
  match c.campaigns.find? fun p => decide (p.call = call) with
  | none => w
  | some p => w.setCandidate id { c with
      term := p.term
      acts := LeaderCandidate.actsOf g.members (g.leaseMs id) (g.driftMs id) p
      campaigns := c.campaigns.filter fun q => decide (q.call ≠ call) }

def stepDown (g : Membership) (w : Election) (id : Text) : Election :=
  { w.setCandidate id { w.candidates id with acts := none } with
    releases := w.releases ++ g.members.map fun member => ⟨id,member⟩ }

def release (w : Election) (i : Nat) : Election :=
  match w.releases[i]? with
  | none => w
  | some r =>
    let w := { w with releases := w.releases.eraseIdx i }
    let v := w.voters r.member
    match v.voter.release r.holder with
    | (true,voter) =>
      w.setVoter r.member { v with voter := voter,writes := v.writes ++ [.release] }
    | (false,_) => w

def voterRestarts (g : Membership) (w : Election) (member : Text) (intact moved known : Bool)
    (wall : Int) : Election :=
  let file := if intact then (w.voters member).file else .corrupt
  -- `keepCorruptAside`
  let kept := if LeaseVoter.lost file && moved then .missing else file
  w.setVoter member
    ⟨.load file (w.clock known) wall (g.maxLeaseMs member),kept,[],none⟩

def candidateRestarts (g : Membership) (w : Election) (id : Text) : Election :=
  let c := w.candidates id
  w.setCandidate id { c with
    term := if g.persists id then c.savedTerm else 0
    acts := none
    campaigns := [] }

def step (g : Membership) (w : Election) : Move → Election
  | .passes ms => { w with time := w.time + ms }
  | .campaign candidate known => w.campaign g candidate known
  | .ask request known => w.ask g request known
  | .writeBegins member => w.writeBegins member
  | .writeLands member => w.writeLands member
  | .writeFails member replaced => w.writeFails member replaced
  | .answer reply => w.answer reply
  | .resolve candidate call => w.resolve g candidate call
  | .stepDown candidate => w.stepDown g candidate
  | .release message => w.release message
  | .releaseLost message => { w with releases := w.releases.eraseIdx message }
  | .voterRestarts member intact moved known wall =>
    w.voterRestarts g member intact moved known wall
  | .candidateRestarts candidate => w.candidateRestarts g candidate

end Election
end Flagship.Authority

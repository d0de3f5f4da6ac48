import Flagship.Authority.Daemon

namespace Flagship.Authority
open Lib

/-- Authenticated time: the last one that was observed with the monotonic time of that moment,
and the highest that ever was. -/
structure AuthClock where
  anchor : Option (Int × Int)
  high : Int
  deriving DecidableEq

namespace AuthClock

def new : AuthClock := ⟨none,0⟩

/-- The trusted time, where one has been observed since the process started. -/
def now (c : AuthClock) (mono : Int) : Option Int :=
  c.anchor.map fun anchor => anchor.1 + (mono - anchor.2)

/-- Record an authenticated time; one that is more than a second behind the estimate, or below
the highest, is ignored. -/
def observe (c : AuthClock) (mono authMs : Int) : AuthClock :=
  if (c.now mono).any fun estimate => decide (authMs < estimate - 1000) then c
  else if authMs < c.high then c
  else ⟨some (authMs,mono),authMs⟩

end AuthClock

structure FreshnessCheckpoint where
  app : Text
  authorityEpoch : Int
  policyRevision : Int
  revocationDigest : Text
  leaderTerm : Int
  /-- Authenticated time after which external access is no longer authorized. -/
  freshUntil : Int
  deriving DecidableEq

structure FreshnessMark where
  policyRevision : Int
  leaderTerm : Int
  authorityEpoch : Int
  digest : Text
  deriving DecidableEq

inductive CheckpointRefusal
  | noTrustedTime
  | stalePolicy
  | oldTerm
  | oldEpoch
  | alreadyExpired
  | sameRevisionDifferentDigest
  deriving DecidableEq

abbrev FreshnessMarks := OrdMap Text FreshnessMark

structure FreshnessLeases where
  current : OrdMap Text FreshnessCheckpoint
  marks : FreshnessMarks
  deriving DecidableEq

namespace FreshnessLeases

/-- Why a mark refuses a checkpoint. -/
def behind (mark : FreshnessMark) (cp : FreshnessCheckpoint) : Option CheckpointRefusal :=
  if cp.authorityEpoch < mark.authorityEpoch then some .oldEpoch
  else if cp.leaderTerm < mark.leaderTerm then some .oldTerm
  else if cp.policyRevision < mark.policyRevision then some .stalePolicy
  else if cp.policyRevision = mark.policyRevision ∧ cp.revocationDigest ≠ mark.digest ∧
    cp.leaderTerm = mark.leaderTerm then some .sameRevisionDifferentDigest
  else none

/-- Where there is no mark the checkpoint is compared with nothing. -/
def raised (mark : Option FreshnessMark) (cp : FreshnessCheckpoint) : FreshnessMark where
  policyRevision := max cp.policyRevision ((mark.map (·.policyRevision)).getD 0)
  leaderTerm := max cp.leaderTerm ((mark.map (·.leaderTerm)).getD 0)
  authorityEpoch := max cp.authorityEpoch ((mark.map (·.authorityEpoch)).getD 0)
  digest := cp.revocationDigest

/-- `accept` up to its write. The deadline is capped, never trusted. -/
def accept (l : FreshnessLeases) (maxMs : Int) (now : Option Int) (cp : FreshnessCheckpoint) :
    Except CheckpointRefusal FreshnessLeases :=
  match now with
  | none => .error .noTrustedTime
  | some now =>
    match (l.marks.get? cp.app).bind fun mark => behind mark cp with
    | some refusal => .error refusal
    | none =>
      let freshUntil := min cp.freshUntil (now + maxMs)
      if freshUntil ≤ now then .error .alreadyExpired
      else .ok {
        current := l.current.set cp.app { cp with freshUntil := freshUntil }
        marks := l.marks.set cp.app (raised (l.marks.get? cp.app) cp) }

/-- May external access to the app be honoured now? -/
def externalAccessAllowed (l : FreshnessLeases) (now : Option Int) (app : Text)
    (policyRevision : Int) : Bool :=
  match now,l.current.get? app with
  | some now,some cp => decide (policyRevision ≤ cp.policyRevision) && decide (now < cp.freshUntil)
  | _,_ => false

/-- The `fresh` of `status`. -/
def fresh (l : FreshnessLeases) (now : Option Int) (app : Text) : Bool :=
  match now,l.current.get? app with
  | some now,some cp => decide (now < cp.freshUntil)
  | _,_ => false

/-- `load`, from a file that can be read or is missing. -/
def load (content : Option FreshnessMarks) : FreshnessLeases := ⟨∅,content.getD ∅⟩

end FreshnessLeases

/-- A box with its freshness leases: the monotonic time, the calls of `accept` that took a
checkpoint and have not asked for their write yet, those that wait for it, and the checkpoints
whose call answered that they are accepted. -/
structure FreshBox where
  mono : Int
  clock : AuthClock
  leases : FreshnessLeases
  file : StateFile FreshnessMarks
  taken : List FreshnessCheckpoint
  asked : List (Nat × FreshnessCheckpoint)
  told : List FreshnessCheckpoint
  deriving DecidableEq

namespace FreshBox

def boot (mono : Int) : FreshBox := ⟨mono,.new,.load none,.missing,[],[],[]⟩

inductive Move
  | passes (ms : Nat)
  | observe (authMs : Int)
  | accept (cp : FreshnessCheckpoint)
  /-- The directory is there, and the write joins the queue with the marks of this moment. -/
  | asks (call : Nat)
  | writes (call : Nat)
  /-- The directory is not there and cannot be made. -/
  | fails (call : Nat)
  | writeFails (call : Nat)
  /-- The process dies, with this many writes made, and another one starts. -/
  | restarts (made : Nat) (mono : Int)

def now (b : FreshBox) : Option Int := b.clock.now b.mono

def allowed (b : FreshBox) (app : Text) (policyRevision : Int) : Bool :=
  b.leases.externalAccessAllowed b.now app policyRevision

def fresh (b : FreshBox) (app : Text) : Bool := b.leases.fresh b.now app

def accept (maxMs : Int) (b : FreshBox) (cp : FreshnessCheckpoint) : FreshBox :=
  match b.leases.accept maxMs b.now cp with
  | .error _ => b
  | .ok leases => { b with leases := leases,taken := b.taken ++ [cp] }

def asks (b : FreshBox) (call : Nat) : FreshBox :=
  match b.taken[call]? with
  | none => b
  | some cp => { b with
      taken := b.taken.eraseIdx call
      file := b.file.ask b.leases.marks
      asked := b.asked ++ [(b.file.writes.length,cp)] }

def writes (b : FreshBox) (call : Nat) : FreshBox :=
  match b.asked[call]? with
  | none => b
  | some (ticket,cp) => { b with
      asked := b.asked.eraseIdx call
      file := b.file.settle ticket
      told := b.told ++ [cp] }

def restarts (b : FreshBox) (made : Nat) (mono : Int) : FreshBox :=
  let file := b.file.crash made
  ⟨mono,.new,.load file.content,file,[],[],b.told⟩

def step (maxMs : Int) (b : FreshBox) : Move → FreshBox
  | .passes ms => { b with mono := b.mono + ms }
  | .observe authMs => { b with clock := b.clock.observe b.mono authMs }
  | .accept cp => b.accept maxMs cp
  | .asks call => b.asks call
  | .writes call => b.writes call
  | .fails call => { b with taken := b.taken.eraseIdx call }
  | .writeFails call => { b with asked := b.asked.eraseIdx call }
  | .restarts made mono => b.restarts made mono

end FreshBox
end Flagship.Authority

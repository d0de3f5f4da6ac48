import Flagship.Lib.Async
import Flagship.Lib.Text

namespace Flagship.Updater
open Lib

structure Refusal where
  code : Text
  detail : Option Text
  deriving DecidableEq

def Refusal.display (r : Refusal) : Text :=
  match r.detail with
  | some d => "refused: ".toList ++ r.code ++ " (".toList ++ d ++ ")".toList
  | none => "refused: ".toList ++ r.code

/-- A failed install or restore, with the exit code of the shell scripts. -/
structure Failure where
  exit : Nat
  refusal : Refusal
  deriving DecidableEq

def treeFailed (code detail : Text) : Failure := ⟨3,⟨code,some detail⟩⟩

def isCommit (s : Text) : Bool :=
  s.length = 40 && s.all fun c => ('0' ≤ c && c ≤ '9') || ('a' ≤ c && c ≤ 'f')

/-- The names on the way, from the root. -/
abbrev Path := List Text

def Path.display (p : Path) : Text := p.flatMap fun name => '/' :: name

structure Paths where
  releases : Path
  current : Path
  deriving DecidableEq

/-- What `INSTALLED.json` and `artifact-current.json` hold. -/
structure Record where
  commit : Option Text
  arch : Option Text
  sequence : Option Nat
  artifactSha256 : Option Text
  deriving DecidableEq

inductive File
  | notJson
  | object (r : Record)
  deriving DecidableEq

/-- The file as a record that names the commit. -/
def File.naming (commit : Text) : File → Option Record
  | .notJson => none
  | .object r => if r.commit = some commit then some r else none

/-- A tree as it was unpacked, and whether its Node can be executed. -/
structure Tree where
  files : List (Text × Text)
  node : Bool
  deriving DecidableEq

/-- A directory under `releases`. -/
structure Release where
  app : Option Tree
  record : Option File
  deriving DecidableEq

/-- What stands where the release link belongs. -/
inductive Current
  | absent
  | directory
  | link (target : Path)
  deriving DecidableEq

def releaseCommitOf (target : Path) : Option Text := target.dropLast.getLast?.filter isCommit

inductive Phase
  | staged
  | switching
  | switched
  deriving DecidableEq

structure Intent where
  phase : Phase
  commit : Text
  previous : Option Text
  sequence : Nat
  atMs : Nat
  deriving DecidableEq

/-- The marker of the daemon's health gate. A text that is not JSON has no field. -/
structure MarkerFields where
  previousCommit : Option Text
  targetCommit : Option Text
  stage : Option Text
  /-- `some none` is a value that is no number. -/
  bootAttempts : Option (Option Nat)
  deriving DecidableEq

inductive Marker
  | absent
  | unreadable
  | text (fields : MarkerFields)
  deriving DecidableEq

structure Outcome where
  outcome : Option Text
  atMs : Nat
  previousCommit : Option Text
  targetCommit : Option Text
  bootAttempts : Nat
  deriving DecidableEq

structure Disk where
  releases : Text → Option Release
  /-- The names of the directories that releases are unpacked in. -/
  incoming : List Text
  current : Current
  /-- Where the link of `node` points. -/
  node : Option Path
  /-- `artifact-sequence`. -/
  sequence : Option Nat
  /-- `artifact-previous`. -/
  previous : Option Path
  /-- `artifact-current.json`. -/
  currentJson : Option File
  /-- `update-intent.json`. -/
  intent : Option Intent
  marker : Marker
  starts : Option (Text × Nat)
  outcome : Option Outcome

/-- A box: its disk, and every state the disk has been in, the last one first. -/
structure Box where
  disk : Disk
  passed : List Disk

def Box.of (d : Disk) : Box := ⟨d,[d]⟩

def Box.put (b : Box) (d : Disk) : Box := ⟨d,d :: b.passed⟩

/-- What a command does. The process may end before each durable step. -/
abbrev Code := Async Box Unit Unit Failure

/-- A durable step. -/
def writes (f : Disk → Disk) : Code Unit := do
  awaits ()
  modify fun b => b.put (f b.disk)

def disk : Code Disk := do
  let b ← get
  return b.disk

namespace Disk

def currentCommit (d : Disk) : Option Text :=
  match d.current with
  | .link target => releaseCommitOf target
  | _ => none

/-- The record of a release, if it names the release. -/
def recordOf (d : Disk) (commit : Text) : Option Record :=
  (d.releases commit).bind fun r => r.record.bind (File.naming commit)

/-- The sequence of the release that the link points to. -/
def currentSequence (d : Disk) : Option Nat :=
  d.currentCommit.bind fun commit => (d.recordOf commit).bind (·.sequence)

def setRecord (d : Disk) (commit : Text) (file : File) : Disk :=
  { d with releases := fun c =>
      if c = commit then (d.releases c).map fun r => { r with record := some file }
      else d.releases c }

end Disk

def Paths.app (paths : Paths) (commit : Text) : Path := paths.releases ++ [commit,"app".toList]

def Paths.node (paths : Paths) : Path :=
  paths.current ++ [".runtime".toList,"node".toList,"bin".toList,"node".toList]

def linkNode (paths : Paths) : Code Unit := writes fun d => { d with node := some paths.node }

def writeIntent (intent : Option Intent) : Code Unit := writes fun d => { d with intent := intent }

/-- The signed fields that an install goes by. -/
structure Manifest where
  commit : Text
  arch : Text
  sequence : Nat
  hex : isCommit commit = true

/-- What a removal leaves of a directory: nothing, or some of its tree and perhaps its
record. -/
structure Removal where
  name : Text
  left : Option (Option Tree × Bool)

/-- An install: its arguments, and what it finds outside of the state it keeps. -/
structure InstallArgs where
  manifest : Except Refusal Manifest
  /-- What the checks of `verify` before the sequence come to, and those after it. -/
  trusted : Except Refusal Unit
  floor : Except Refusal Unit
  expectSha256 : Text
  minSequence : Option Nat
  /-- What unpacking and the checks of the tree and its runtime come to. The archives hold
  the tree, and no record. -/
  unpacked : Except Failure Tree
  nowMs : Nat
  pid : Nat
  /-- What `prune` gets removed, in the order of the directory. -/
  removals : List Removal

structure Installed where
  commit : Text
  arch : Text
  sequence : Nat
  deriving DecidableEq

def lastSequence (a : InstallArgs) (d : Disk) : Option Nat :=
  d.sequence.or ((a.minSequence.filter (0 < ·)).map (· - 1))

def verify (a : InstallArgs) (last : Option Nat) : Except Refusal Manifest :=
  match a.manifest with
  | .error r => .error r
  | .ok m =>
    match a.trusted with
    | .error r => .error r
    | .ok () =>
      if last.any (m.sequence ≤ ·) then .error ⟨"rollback".toList,none⟩
      else
        match a.floor with
        | .error r => .error r
        | .ok () => .ok m

def installedRecord (a : InstallArgs) (m : Manifest) : Record :=
  ⟨some m.commit,some m.arch,some m.sequence,some (a.expectSha256.map Char.toLower)⟩

def removeIncoming (name : Text) : Code Unit :=
  writes fun d => { d with incoming := d.incoming.filter (· ≠ name) }

def Removal.apply (r : Removal) (d : Disk) : Disk :=
  { d with releases := fun c =>
      if c = r.name then (d.releases c).bind fun release => r.left.map fun left =>
        ⟨left.1,if left.2 then release.record else none⟩
      else d.releases c }

def prune (keep : List Text) : List Removal → Code Unit
  | [] => pure ()
  | r :: rest => do
    if !keep.contains r.name then writes r.apply
    prune keep rest

def writePrevious : Current → Code Unit
  | .link target => writes fun d => { d with previous := some target }
  | _ => pure ()

/-- The part of `stageAndSwitch` that comes once the release is in its place. -/
def switchRelease (paths : Paths) (a : InstallArgs) (m : Manifest) : Code Installed := do
  writes (·.setRecord m.commit (.object (installedRecord a m)))
  let d ← disk
  if d.current = .directory then
    throw (treeFailed "legacy-install".toList (paths.current.display ++
      " is a real directory (a legacy install); migrate it with the update path".toList))
  let intent : Intent := ⟨.staged,m.commit,d.currentCommit,m.sequence,a.nowMs⟩
  writeIntent (some intent)
  writePrevious d.current
  writeIntent (some { intent with phase := .switching })
  writes fun d => { d with current := .link (paths.app m.commit) }
  linkNode paths
  writes fun d => { d with sequence := some m.sequence }
  writes fun d => { d with currentJson := some (.object (installedRecord a m)) }
  writeIntent (some { intent with phase := .switched })
  prune (m.commit :: d.currentCommit.toList) a.removals
  return ⟨m.commit,m.arch,m.sequence⟩

/-- The unpacked tree moves to its place; a release that is there already must be the
same. -/
def stageAndSwitch (paths : Paths) (a : InstallArgs) (m : Manifest) (staging : Text) :
    Code Installed := do
  match a.unpacked with
  | .error f => throw f
  | .ok app =>
    let d ← disk
    match d.releases m.commit with
    | some release =>
      if release.app ≠ some app then
        throw (treeFailed "release-exists".toList
          (Path.display (paths.releases ++ [m.commit]) ++
            " already exists with different contents".toList))
    | none => writes fun d => { d with
        incoming := d.incoming.filter (· ≠ staging)
        releases := fun c => if c = m.commit then some ⟨some app,none⟩ else d.releases c }
    switchRelease paths a m

def stagingName (a : InstallArgs) (m : Manifest) : Text :=
  ".incoming-".toList ++ m.commit ++ "-".toList ++ Nat.toDigits 10 a.pid

/-- Verifies, unpacks and switches to a release. -/
def install (paths : Paths) (a : InstallArgs) : Code Installed := do
  let d ← disk
  match verify a (lastSequence a d) with
  | .error r => throw ⟨1,r⟩
  | .ok m =>
    removeIncoming (stagingName a m)
    writes fun d => { d with incoming := stagingName a m :: d.incoming }
    let outcome ← attempt (stageAndSwitch paths a m (stagingName a m))
    removeIncoming (stagingName a m)
    match outcome with
    | .ok installed => return installed
    | .error f => throw f

/-- What a restore checks before it writes anything, and the record it finds. -/
def restorable (paths : Paths) (d : Disk) (commit : Text) : Except Failure Record :=
  let release := (d.releases commit).getD ⟨none,none⟩
  if !isCommit commit then .error ⟨2,⟨"bad-commit".toList,some "not a full commit".toList⟩⟩
  else if !release.app.any (·.node) then
    .error (treeFailed "not-installed".toList
      ("release ".toList ++ commit ++ " is not installed on this box".toList))
  else match release.record with
    | none => .error (treeFailed "not-installed".toList
        ("release ".toList ++ commit ++ " has no record".toList))
    | some .notJson =>
      .error (treeFailed "not-installed".toList "the release record is not JSON".toList)
    | some (.object r) =>
      if r.commit ≠ some commit then
        .error (treeFailed "not-installed".toList "the release record names another commit".toList)
      else if d.current = .directory then
        .error (treeFailed "legacy-install".toList
          (paths.current.display ++ " is not a release link".toList))
      else .ok r

/-- Flips back to a release that is already installed. -/
def restore (paths : Paths) (commit : Text) (nowMs : Nat) : Code Unit := do
  let d ← disk
  match restorable paths d commit with
  | .error f => throw f
  | .ok r =>
    writeIntent (some ⟨.switching,commit,d.currentCommit,r.sequence.getD 0,nowMs⟩)
    writes fun d => { d with current := .link (paths.app commit) }
    linkNode paths
    writes fun d => { d with currentJson := some (.object r) }
    writeIntent none

inductive GuardAction
  /-- No update is pending. -/
  | noMarker
  | counted (starts : Nat)
  | rolledBack (prev : Text)
  | rollbackFailed (prev why : Text)
  /-- An unreadable marker and no release known to be good. -/
  | nothingKnown
  deriving DecidableEq

def sweep : List Text → Code Unit
  | [] => pure ()
  | name :: rest => do
    removeIncoming name
    sweep rest

/-- Finishes or undoes a switch that was cut short, and removes what an interrupted
unpack left. -/
def reconcile (paths : Paths) : Code Unit := do
  let d ← disk
  sweep d.incoming
  match d.intent with
  | none => pure ()
  | some intent =>
    if intent.phase = .staged ∨ d.currentCommit ≠ some intent.commit then writeIntent none
    else
      match d.recordOf intent.commit with
      | none => pure ()
      | some r =>
        writes fun d => { d with currentJson := some (.object r) }
        match r.sequence with
        | none => pure ()
        | some seq =>
          if d.sequence.all (· < seq) then writes fun d => { d with sequence := some seq }
      linkNode paths
      if intent.phase = .switching then writeIntent (some { intent with phase := .switched })

/-- A marker that cannot be read stands for an update that was cut short; the release to go
back to is the last one known to be good. -/
def unreadable (d : Disk) : Option (Text × Text × Text × Nat) :=
  let prev := (d.outcome.bind fun o =>
    if o.outcome = some "applied".toList then o.targetCommit
    else if o.outcome = some "rolled-back".toList then o.previousCommit
    else none).filter isCommit
  prev.map fun prev =>
    let target := (d.currentJson.bind fun file => match file with
      | .notJson => none
      | .object r => r.commit.filter isCommit).getD prev
    (prev,target,"applying".toList,0)

/-- What the guard goes by: the release to go back to, the one the update is to, the stage
and the attempts. -/
def pendingUpdate (d : Disk) : Option (Text × Text × Text × Nat) :=
  match d.marker with
  | .text m =>
    match m.previousCommit.filter isCommit,m.targetCommit.filter isCommit,
      m.bootAttempts.getD (some 0) with
    | some prev,some target,some attempts =>
      some (prev,target,m.stage.getD "staged".toList,attempts)
    | _,_,_ => unreadable d
  | _ => unreadable d

/-- The starts with an update to this release, this one among them. -/
def startsOf (d : Disk) (target : Text) : Nat :=
  (match d.starts with
  | some (c,n) => if c = target then n else 0
  | none => 0) + 1

/-- The release the guard goes back to, if it does. -/
def rollbackTo (d : Disk) (maxStarts : Nat) : Option Text :=
  if d.marker = .absent then none
  else (pendingUpdate d).bind fun (prev,target,stage,_) =>
    if stage ≠ "applying".toList ∧ startsOf d target ≤ maxStarts then none else some prev

def guard (paths : Paths) (maxStarts nowMs : Nat) : Code GuardAction := do
  reconcile paths
  let d ← disk
  if d.marker = .absent then
    writes fun d => { d with starts := none }
    if d.intent.any (·.phase = .switched) then writeIntent none
    return .noMarker
  else
    match pendingUpdate d with
    | none => return .nothingKnown
    | some (prev,target,_,attempts) =>
      writes fun d' => { d' with starts := some (target,startsOf d target) }
      match rollbackTo d maxStarts with
      | none => return .counted (startsOf d target)
      | some _ =>
        let outcome ← attempt (restore paths prev nowMs)
        match outcome with
        | .error f => return .rollbackFailed prev f.refusal.display
        | .ok () =>
          writes fun d => { d with marker := .absent }
          writes fun d => { d with starts := none }
          let outcome : Outcome :=
            ⟨some "rolled-back".toList,nowMs,some prev,some target,attempts⟩
          writes fun d => { d with outcome := some outcome }
          return .rolledBack prev

inductive Command
  | install (a : InstallArgs)
  | restore (commit : Text) (nowMs : Nat)
  | guard (maxStarts nowMs : Nat)
  | reconcile

def Command.code (paths : Paths) : Command → Code Unit
  | .install a => do
    let _ ← Updater.install paths a
  | .restore commit nowMs => Updater.restore paths commit nowMs
  | .guard maxStarts nowMs => do
    let _ ← Updater.guard paths maxStarts nowMs
  | .reconcile => Updater.reconcile paths

inductive Event
  /-- A command that gets as far as its first steps, so many of them. -/
  | command (c : Command) (steps : Nat)
  /-- The daemon leaves a marker and an outcome. -/
  | daemon (marker : Marker) (outcome : Option Outcome)

def step (paths : Paths) (b : Box) : Event → Box
  | .command c steps => ((c.code paths).alone (List.replicate steps ()) b).1
  | .daemon marker outcome => b.put { b.disk with marker := marker,outcome := outcome }

end Flagship.Updater

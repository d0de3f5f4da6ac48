import Flagship.Apps.Controller
import Flagship.Lib.Async
import Flagship.Lib.Interleave

namespace Flagship.Core
open Lib Apps

inductive OpKind
  | pull
  | create
  | start
  | stop
  | delete
  deriving DecidableEq

def OpKind.asStr : OpKind → Text
  | .pull => "pull".toList
  | .create => "create".toList
  | .start => "start".toList
  | .stop => "stop".toList
  | .delete => "delete".toList

/-- Effects that destroy something. -/
def OpKind.destructive : OpKind → Bool
  | .stop => true
  | .delete => true
  | _ => false

inductive OpState
  | intent
  | done
  | failed
  | abandoned
  /-- A destructive intent whose outcome could not be established. -/
  | needsReview
  deriving DecidableEq

structure Op where
  id : Nat
  installation : Text
  generation : Nat
  kind : OpKind
  planDigest : Option Text
  state : OpState
  runtimeId : Option Text
  detail : Option Text
  deriving DecidableEq

/-- What is to run. The digest is of the whole plan, and stands here for the parts
of it that are handed to the engine. -/
structure ExecutionPlan where
  installation : Text
  generation : Nat
  digest : Text
  valid : 1 ≤ generation ∧ generation ≤ 2 ^ 63 - 1
  deriving DecidableEq

structure Desired where
  plan : ExecutionPlan
  digest : Text
  deriving DecidableEq

/-- A workload of the controller before this one. -/
structure Adopted where
  installation : Text
  generation : Nat
  runtimeId : Text
  image : Text
  deriving DecidableEq

inductive WorkloadState
  | created
  | running
  | restarting
  | paused
  | exited
  | dead
  | removing
  | unknown
  deriving DecidableEq

def WorkloadState.asStr : WorkloadState → Text
  | .created => "created".toList
  | .running => "running".toList
  | .restarting => "restarting".toList
  | .paused => "paused".toList
  | .exited => "exited".toList
  | .dead => "dead".toList
  | .removing => "removing".toList
  | .unknown => "unknown".toList

/-- One workload as the engine reports it; the labels give its generation and digest. -/
structure ObservedWorkload where
  runtimeId : Text
  name : Text
  installation : Text
  generation : Option Nat
  planDigest : Option Text
  image : Text
  state : WorkloadState
  deriving DecidableEq

/-- It has no labels, and is known by its name alone. -/
def ObservedWorkload.legacy (o : ObservedWorkload) : Bool :=
  o.generation.isNone || o.planDigest.isNone

structure CheckpointWorkload where
  installation : Text
  generation : Nat
  image : Text
  running : Bool
  deriving DecidableEq

/-- What the controller before this one ran when it paused. -/
structure TsCheckpoint where
  takenAt : Nat
  tsControllerPaused : Bool
  workloads : List CheckpointWorkload
  deriving DecidableEq

/-- The durable journal. -/
structure Journal where
  /-- By installation. -/
  desired : OrdMap Text ExecutionPlan
  keyed : ∀ inst plan,desired.get? inst = some plan → plan.installation = inst
  ops : List Op
  adopted : OrdMap Text Adopted
  effectsEnabled : Bool
  checkpoints : List TsCheckpoint
  shadow : List (Text × Text)
  deriving DecidableEq

namespace Journal
variable (j : Journal)

def fresh : Journal where
  desired := ∅
  keyed := by
    intro inst plan h
    cases h
  ops := []
  adopted := ∅
  effectsEnabled := false
  checkpoints := []
  shadow := []

def setEffectsEnabled (on : Bool) : Journal := { j with effectsEnabled := on }

def setDesired (plan : ExecutionPlan) : Journal :=
  { j with
    desired := j.desired.set plan.installation plan
    keyed := by
      intro inst p h
      rw [OrdMap.get?_set] at h
      split at h
      next heq =>
        cases h
        exact heq.symm
      next => exact j.keyed inst p h }

def removeDesired (installation : Text) : Journal :=
  { j with
    desired := j.desired.erase installation
    keyed := by
      intro inst p h
      rw [OrdMap.get?_erase] at h
      split at h
      · cases h
      · exact j.keyed inst p h }

/-- The plans, by their installation. -/
def desiredPlans : List Desired := (ascending j.desired).map fun e => ⟨e.2,e.2.digest⟩

/-- An effect is about to happen. -/
def intent (installation : Text) (generation : Nat) (kind : OpKind) (plan : Option Text) : Journal :=
  { j with ops := j.ops ++ [{
      id := j.ops.length + 1
      installation := installation
      generation := stored generation
      kind := kind
      planDigest := plan
      state := .intent
      runtimeId := none
      detail := none }] }

/-- Whatever state the operation was in. -/
def settle (id : Nat) (state : OpState) (runtimeId detail : Option Text) : Journal :=
  { j with
    ops := j.ops.map fun op =>
      if op.id = id then
        { op with state := state,runtimeId := runtimeId.or op.runtimeId,detail := detail }
      else op }

def pending : List Op := j.ops.filter (·.state = .intent)

def needsReview : List Op := j.ops.filter (·.state = .needsReview)

def adopt (a : Adopted) : Journal :=
  { j with
    adopted := j.adopted.set a.installation { a with generation := stored a.generation } }

def forgetAdopted (installation : Text) : Journal :=
  { j with adopted := j.adopted.erase installation }

def saveCheckpoint (cp : TsCheckpoint) : Journal := { j with checkpoints := j.checkpoints ++ [cp] }

def recordShadow (installation decision : Text) : Journal :=
  { j with shadow := j.shadow ++ [(installation,decision)] }

end Journal

inductive EffectError
  /-- The effect certainly did not happen. -/
  | definite (message : Text)
  /-- Nobody knows whether it happened. -/
  | unknown (message : Text)
  deriving DecidableEq

def EffectError.display : EffectError → Text
  | .definite m => m
  | .unknown m => "outcome unknown: ".toList ++ m

/-- What comes back of a call of the engine; a workload that was created has an id. -/
abbrev Answer := Except EffectError Text

inductive CoreError
  | observe (e : EffectError)
  deriving DecidableEq

inductive Mode
  /-- Decide, and never call the engine. -/
  | shadow
  | effects
  deriving DecidableEq

structure Decision where
  installation : Text
  generation : Nat
  kind : OpKind
  deriving DecidableEq

structure Report where
  decisions : List Decision
  performed : Bool
  blocked : List Text
  failures : List Text
  unmanaged : List Text
  deriving DecidableEq

inductive Review
  | alreadyDone
  | redo
  deriving DecidableEq

/-- What the engine was asked and what it showed, as it happened. -/
inductive Event
  /-- What a pass with effects has seen. -/
  | observed (seen : OrdMap Text ObservedWorkload)
  /-- The engine is called for an operation; the answer may never come to be known. -/
  | called (op : Nat) (kind : OpKind) (installation : Text) (answer : Answer)
  /-- The answer is in the journal. -/
  | journalled (op : Nat)
  | reviewed (op : Nat)
  deriving DecidableEq

structure Controller where
  journal : Journal
  mode : Mode
  history : List Event
  deriving DecidableEq

def Controller.effectsActive (c : Controller) : Bool :=
  c.mode = .effects && c.journal.effectsEnabled

/-- Where a process may end: before it writes to the journal, and before it calls
the engine. -/
inductive Place
  | write
  | engine
  deriving DecidableEq

/-- What a controller does. A write that fails ends a call as the end of the process
does, and leaves as much behind. -/
abbrev Code := Async Controller Answer Place CoreError

instance : Inhabited Answer := ⟨.ok []⟩

def writes (f : Journal → Journal) : Code Unit := do
  awaits .write
  modify fun c => { c with journal := f c.journal }

def notes (e : Event) : Code Unit := modify fun c => { c with history := c.history ++ [e] }

def planMatches (d : Desired) (o : ObservedWorkload) (adopted : Option Adopted) : Bool :=
  o.planDigest = some d.digest ||
    o.legacy && adopted.any fun a => a.generation = d.plan.generation ∧ a.runtimeId = o.runtimeId

def resolveReview (op : Nat) (review : Review) : Code Unit := do
  let state := match review with
    | .alreadyDone => .done
    | .redo => .abandoned
  writes (·.settle op state none (some "resolved by review".toList))
  notes (.reviewed op)

/-- The workloads by their installation. -/
def byInstallation (list : List ObservedWorkload) : OrdMap Text ObservedWorkload :=
  list.foldl (fun m o => m.set o.installation o) ∅

/-- How a pending intent from an earlier life is settled. -/
def settleFromObservation (op : Op) (obs : Option ObservedWorkload) : OpState × Option Text × Text :=
  match op.kind with
  | .pull => (.abandoned,none,"interrupted; decided again from observation".toList)
  | .start => (.abandoned,none,"interrupted; decided again from observation".toList)
  | .create =>
    match obs with
    | some o =>
      if o.planDigest.isSome && o.planDigest = op.planDigest then
        (.done,some o.runtimeId,"adopted the workload it created".toList)
      else (.abandoned,none,"interrupted before the engine created it".toList)
    | none => (.abandoned,none,"interrupted before the engine created it".toList)
  | .stop =>
    match obs with
    | none => (.done,none,"inspection: the workload is gone".toList)
    | some o =>
      if o.state ≠ .running ∧ o.state ≠ .restarting ∧ o.state ≠ .unknown then
        (.done,none,"inspection: the workload is not running".toList)
      else (.needsReview,none,
        "inspection: a stop with an unknown outcome and the workload still runs".toList)
  | .delete =>
    match obs with
    | none => (.done,none,"inspection: the workload is gone".toList)
    | some _ => (.needsReview,none,
        "inspection: a delete with an unknown outcome and the workload is still there".toList)

/-- The journal once an intent is settled from what the engine shows. -/
def Journal.recoverOp (j : Journal) (seen : OrdMap Text ObservedWorkload) (op : Op) : Journal :=
  let (state,rid,why) := settleFromObservation op (seen.get? op.installation)
  j.settle op.id state rid (some why)

/-- Settle intents left by an earlier life from what the engine shows now. -/
def recover (seen : OrdMap Text ObservedWorkload) : List Op → Code Unit
  | [] => return ()
  | op :: rest => do
    writes (·.recoverOp seen op)
    recover seen rest

def planFor (d : Desired) (obs : Option ObservedWorkload) (adopted : Option Adopted) :
    List OpKind :=
  match obs with
  | none => [.pull,.create,.start]
  | some o =>
    if planMatches d o adopted then
      if o.state = .running then [] else [.start]
    else
      (if o.state = .running ∨ o.state = .restarting ∨ o.state = .paused then [.stop] else []) ++
        [.delete,.pull,.create,.start]

def settleEffect (op : Nat) (kind : OpKind) (r : Except EffectError (Option Text)) :
    Code (Except EffectError Unit) :=
  match r with
  | .ok rid => do
    writes (·.settle op .done rid none)
    notes (.journalled op)
    return .ok ()
  | .error e => do
    let state := match e,kind.destructive with
      | .definite _,_ => .failed
      | .unknown _,true => .needsReview
      | .unknown _,false => .abandoned
    writes (·.settle op state none (some e.display))
    notes (.journalled op)
    return .error e

/-- The intent of an effect; gives the number of its operation. -/
def journals (installation : Text) (generation : Nat) (kind : OpKind) (plan : Option Text) :
    Code Nat := do
  writes (·.intent installation generation kind plan)
  return (← get).journal.ops.length

/-- The engine is called. -/
def calls (op : Nat) (kind : OpKind) (installation : Text) : Code Answer := do
  awaits .engine
  let answer ← read
  notes (.called op kind installation answer)
  return answer

/-- Journal the intent, make the call, journal what came back. -/
def perform (d : Desired) (kind : OpKind) (generation : Nat) : Code (Except EffectError Unit) := do
  let digest := match kind with
    | .create => some d.digest
    | .pull => some d.digest
    | .start => some d.digest
    | _ => none
  let op ← journals d.plan.installation generation kind digest
  let answer ← calls op kind d.plan.installation
  settleEffect op kind (answer.map fun rid => if kind = .create then some rid else none)

def performRemoval (installation : Text) (generation : Nat) (kind : OpKind) :
    Code (Except EffectError Unit) := do
  let op ← journals installation generation kind none
  let answer ← calls op kind installation
  settleEffect op kind (answer.map fun _ => none)

def shadowText (kind : OpKind) (generation : Nat) : Text :=
  kind.asStr ++ " generation ".toList ++ Nat.toDigits 10 generation

def failureText (installation : Text) (kind : OpKind) (e : EffectError) : Text :=
  installation ++ ' ' :: kind.asStr ++ ": ".toList ++ e.display

def Report.decide (r : Report) (installation : Text) (generation : Nat) (kind : OpKind) : Report :=
  { r with decisions := r.decisions ++ [⟨installation,generation,kind⟩] }

def Report.fail (r : Report) (installation : Text) (kind : OpKind) (e : EffectError) : Report :=
  { r with failures := r.failures ++ [failureText installation kind e] }

def Report.block (r : Report) (installation : Text) : Report :=
  { r with blocked := r.blocked ++ [installation] }

/-- The generation an effect is about. -/
def targetGeneration (d : Desired) (obs : Option ObservedWorkload) (adopted : Option Adopted)
    (kind : OpKind) : Nat :=
  if kind.destructive then
    ((obs.bind (·.generation)).or (adopted.map (·.generation))).getD 0
  else d.plan.generation

/-- The steps of one workload, up to the first that fails. -/
def closesGap (effects : Bool) (d : Desired) (adopted : Option Adopted) :
    List OpKind → Report × OrdMap Text ObservedWorkload →
      Code (Report × OrdMap Text ObservedWorkload)
  | [],pass => return pass
  | kind :: rest,(report,seen) => do
    let inst := d.plan.installation
    let generation := targetGeneration d (seen.get? inst) adopted kind
    let report := report.decide inst generation kind
    if !effects then
      writes (·.recordShadow inst (shadowText kind generation))
      closesGap effects d adopted rest (report,seen)
    else
      match ← perform d kind generation with
      | .ok () =>
        if kind = .delete then
          if adopted.isSome then writes (·.forgetAdopted inst)
          closesGap effects d adopted rest (report,seen.erase inst)
        else closesGap effects d adopted rest (report,seen)
      | .error e =>
        let report := report.fail inst kind e
        match e with
        | .unknown _ =>
          if kind.destructive then return (report.block inst,seen) else return (report,seen)
        | .definite _ => return (report,seen)

/-- The workloads that are wanted. -/
def reconcileDesired (effects : Bool) (blocked : List Text) :
    List Desired → Report × OrdMap Text ObservedWorkload →
      Code (Report × OrdMap Text ObservedWorkload)
  | [],pass => return pass
  | d :: rest,(report,seen) => do
    let inst := d.plan.installation
    if blocked.contains inst then reconcileDesired effects blocked rest (report.block inst,seen)
    else
      let adopted := (← get).journal.adopted.get? inst
      let pass ← closesGap effects d adopted (planFor d (seen.get? inst) adopted) (report,seen)
      reconcileDesired effects blocked rest pass

/-- The steps of an uninstall. -/
def removesAll (effects : Bool) (installation : Text) (o : ObservedWorkload) :
    List OpKind → Report → Code Report
  | [],report => return report
  | kind :: rest,report => do
    let generation := o.generation.getD 0
    let report := report.decide installation generation kind
    if !effects then
      writes (·.recordShadow installation (shadowText kind generation))
      removesAll effects installation o rest report
    else
      match ← performRemoval installation generation kind with
      | .ok () => removesAll effects installation o rest report
      | .error e => return report.fail installation kind e

/-- The workloads that are not wanted any more. -/
def reconcileOthers (effects : Bool) (blocked wanted : List Text) :
    List (Text × ObservedWorkload) → Report → Code Report
  | [],report => return report
  | (inst,o) :: rest,report => do
    if wanted.contains inst then reconcileOthers effects blocked wanted rest report
    else if blocked.contains inst then
      reconcileOthers effects blocked wanted rest (report.block inst)
    else if o.legacy then
      reconcileOthers effects blocked wanted rest
        { report with unmanaged := report.unmanaged ++ [o.name] }
    else
      let steps := (if o.state = .running then [.stop] else []) ++ [.delete]
      reconcileOthers effects blocked wanted rest (← removesAll effects inst o steps report)

/-- One pass, on what the engine shows. -/
def reconcile (observation : Except EffectError (List ObservedWorkload)) : Code Report := do
  let effects := (← get).effectsActive
  match observation with
  | .error e => throw (.observe e)
  | .ok list =>
    let seen := byInstallation list
    if effects then
      notes (.observed seen)
      recover seen (← get).journal.pending
    let journal := (← get).journal
    let blocked := journal.needsReview.map (·.installation)
    let desired := journal.desiredPlans
    let wanted := desired.map (·.plan.installation)
    let (report,seen) ← reconcileDesired effects blocked desired (⟨[],effects,[],[],[]⟩,seen)
    reconcileOthers effects blocked wanted (ascending seen) report

structure HandoverReport where
  adopted : List Text
  mismatches : List Text
  effectsEnabled : Bool
  deriving DecidableEq

/-- What is wrong with a workload of the checkpoint that the engine shows. -/
def mismatchesOf (desired : List Desired) (w : CheckpointWorkload) (o : ObservedWorkload) :
    List Text :=
  (if (o.state == .running) ≠ w.running then
    [w.installation ++ " is ".toList ++ o.state.asStr ++ " but the checkpoint says running=".toList ++
      (if w.running then "true" else "false").toList] else []) ++
  (if o.image ≠ w.image then
    [w.installation ++ " runs another image than the checkpoint names".toList] else []) ++
  (match desired.find? (·.plan.installation = w.installation) with
    | some d =>
      if d.plan.generation = w.generation then []
      else [w.installation ++ " is desired at generation ".toList ++
        Nat.toDigits 10 d.plan.generation ++ " but runs ".toList ++ Nat.toDigits 10 w.generation]
    | none => [w.installation ++ " runs but is not desired".toList]) ++
  (if !o.legacy ∧ o.generation ≠ some w.generation then
    [w.installation ++ " is labelled with another generation".toList] else [])

/-- The mismatches of the checkpoint so far, and the workloads to adopt. -/
def compares (desired : List Desired) (seen : OrdMap Text ObservedWorkload)
    (acc : List Text × List Adopted) (w : CheckpointWorkload) : List Text × List Adopted :=
  match seen.get? w.installation with
  | none => (acc.1 ++
      [w.installation ++ " is in the checkpoint but not in the engine".toList],acc.2)
  | some o => (acc.1 ++ mismatchesOf desired w o,
      if o.legacy then acc.2 ++ [⟨w.installation,w.generation,o.runtimeId,o.image⟩] else acc.2)

def unlisted (cp : TsCheckpoint) (seen : OrdMap Text ObservedWorkload) : List Text :=
  ((ascending seen).filter fun e => !(cp.workloads.map (·.installation)).contains e.1).map fun e =>
    e.1 ++ " runs but the checkpoint does not list it".toList

def adopts : List Adopted → Code Unit
  | [] => return ()
  | a :: rest => do
    writes (·.adopt a)
    adopts rest

/-- Taking over from the controller before this one. -/
def handover (cp : TsCheckpoint) (observation : Except EffectError (List ObservedWorkload)) :
    Code HandoverReport := do
  writes (·.setEffectsEnabled false)
  if !cp.tsControllerPaused then
    return ⟨[],["the TS controller has not paused".toList],false⟩
  writes (·.saveCheckpoint cp)
  match observation with
  | .error e => throw (.observe e)
  | .ok list =>
    let seen := byInstallation list
    let desired := (← get).journal.desiredPlans
    let (mismatches,adoptions) := cp.workloads.foldl (compares desired seen) ([],[])
    let mismatches := mismatches ++ unlisted cp seen
    if mismatches ≠ [] then return ⟨[],mismatches,false⟩
    adopts adoptions
    writes (·.setEffectsEnabled true)
    return ⟨adoptions.map (·.installation),[],true⟩

/-- What may be asked of a controller. -/
inductive Request
  /-- The process ends, and another takes the lock. -/
  | opens (mode : Mode)
  | setDesired (plan : ExecutionPlan)
  | removeDesired (installation : Text)
  | setEffectsEnabled (on : Bool)
  | resolveReview (op : Nat) (review : Review)
  | reconcile (observation : Except EffectError (List ObservedWorkload))
  | handover (cp : TsCheckpoint) (observation : Except EffectError (List ObservedWorkload))
  deriving DecidableEq

def Request.code : Request → Code Unit
  | .opens mode => modify fun c => { c with mode := mode }
  | .setDesired plan => writes (·.setDesired plan)
  | .removeDesired installation => writes (·.removeDesired installation)
  | .setEffectsEnabled on => writes (·.setEffectsEnabled on)
  | .resolveReview op review => Core.resolveReview op review
  | .reconcile observation => do let _ ← Core.reconcile observation
  | .handover cp observation => do let _ ← Core.handover cp observation

/-- A request as far as the process comes with it: so many writes and calls, and what
the engine answers. -/
def step (c : Controller) (r : Request × List Answer) : Controller := (r.1.code.alone r.2 c).1

open Lib

def Controller.fresh (mode : Mode) : Controller := ⟨.fresh,mode,[]⟩

/-- Nobody knows whether the effect happened. -/
def isUnknown : Answer → Bool
  | .error (.unknown _) => true
  | _ => false

/-- The engine shows that a destructive effect has happened: what was to be deleted is
gone, and what was to be stopped is gone or stands still. -/
def shownDone : OpKind → Option ObservedWorkload → Bool
  | _,none => true
  | .stop,some o =>
    o.state = .created || o.state = .exited || o.state = .dead || o.state = .removing
  | _,some _ => false

/-- A stop or delete was attempted, and it is open what came of it: the engine did not
say, or what it said is not in the journal, nothing that was observed since shows it
done, and nobody has reviewed it. -/
def Unresolved (history : List Event) (op : Nat) (kind : OpKind) (installation : Text)
    (answer : Answer) : Prop :=
  kind.destructive = true ∧ ∃ before since,
    history = before ++ .called op kind installation answer :: since ∧
    (isUnknown answer = true ∨ .journalled op ∉ since) ∧
    (∀ seen,.observed seen ∈ since → shownDone kind (seen.get? installation) = false) ∧
    .reviewed op ∉ since

/-- No call is made for an installation while something of it is open. -/
def Careful (history : List Event) : Prop :=
  Each (fun before event => ∀ op kind installation answer,
    event = .called op kind installation answer →
      ∀ op' kind' answer',¬ Unresolved before op' kind' installation answer') history

/-- No workload is seen paused that was being stopped when an earlier pass was cut off. -/
def seesNoPausedStop (c : Controller) : Request × List Answer → Bool
  | (.reconcile (.ok list),_) => !c.effectsActive || c.journal.pending.all fun op =>
      op.kind ≠ .stop ||
        ((byInstallation list).get? op.installation).all fun o => o.state ≠ .paused
  | _ => true

end Flagship.Core

import Flagship.Authority.Grants
import Flagship.Authority.Operations
import Flagship.Lib.Async

namespace Flagship.Authority
open Lib

/-- A state file behind its lock: the replacements that were asked for, oldest
first, and how many of them are known to have been made. A later one may have
been made as well, also one that was reported to have failed. -/
structure StateFile (α : Type) where
  writes : List α
  known : Nat
  deriving DecidableEq

namespace StateFile
variable {α : Type}

def missing : StateFile α := ⟨[],0⟩

/-- `withFileLock`: a replacement waits for its turn. -/
def ask (f : StateFile α) (body : α) : StateFile α := { f with writes := f.writes ++ [body] }

/-- The replacement with this number was made. -/
def settle (f : StateFile α) (ticket : Nat) : StateFile α :=
  { f with known := max f.known (ticket + 1) }

/-- A crash finds a number of the replacements made, and none of the others ever is. -/
def crash (f : StateFile α) (made : Nat) : StateFile α :=
  ⟨f.writes.take (max f.known made),(f.writes.take (max f.known made)).length⟩

/-- What a process that starts finds in the file. -/
def content (f : StateFile α) : Option α := (f.writes.take f.known).getLast?

end StateFile

/-- Work that runs on borrowed authority, with the grants it runs under. -/
structure Work where
  label : Text
  grants : List Text
  /-- The order it belongs to, whose `cancelled` its handler sets. -/
  order : Option Nat
  deriving DecidableEq

structure AuthorityHub where
  grants : GrantIndex
  ops : OperationLedger
  work : OrdMap Text Work
  seq : Nat
  /-- The kinds `onRevoked` handlers were given for, one for each handler. -/
  revokedHandlers : List GrantKind
  deriving DecidableEq

/-- The hub before anything is loaded. -/
def AuthorityHub.new (revokedHandlers : List GrantKind) : AuthorityHub :=
  ⟨.empty,.empty,∅,0,revokedHandlers⟩

/-- What happens that the state does not show. -/
inductive Event
  /-- A call puts an operation in the place of what the ledger held for it. -/
  | commits (call : Nat) (prior : Option Operation) (next : Operation)
  /-- The call hears that the operation is in the file. -/
  | answers (call : Nat) (next : Operation)
  | execStarts (call : Nat) (id : Text)
  /-- The process dies while the operation is being carried out. -/
  | interrupts (id : Text)
  /-- The cancel handler of work is called. -/
  | cancels (work : Text)
  | unregisters (work : Text)
  | issues (id : Text)
  /-- The grant is asked to be revoked, and is known. -/
  | revokes (id : Text)
  | prunes (id : Text)
  deriving DecidableEq

/-- How far `openAuthorityHub` has come in this process. -/
inductive Phase
  | down
  /-- This call recovers what the ledger holds. -/
  | opening (call : Nat)
  | opened
  deriving DecidableEq

/-- The daemon: the hub, the files its indexes are kept in, and what happened. -/
structure Daemon where
  hub : AuthorityHub
  operationsFile : StateFile (List Operation)
  grantsFile : StateFile GrantsFile
  /-- How many writes of the grants joined the queue in this process, and how many
  had their turn. -/
  grantsAsked : Nat
  grantsBegun : Nat
  phase : Phase
  /-- The orders that have an operation to carry out, and those that are at it. -/
  hands : List (Nat × Text)
  running : List (Nat × Text)
  /-- The orders whose `cancelled` is set. -/
  flagged : List Nat
  history : List Event
  deriving DecidableEq

/-- What the callback of an order does next. -/
inductive ExecMove
  | pauses
  | crosses
  | returns (value resultDigest : Text)
  | throws (message : Text)
  deriving DecidableEq

/-- What the code reads from outside between two awaits. -/
structure Outside where
  /-- The readings of the clock, by their order. -/
  now : Nat → Int
  /-- The file system did what it was asked for, or says why not. -/
  persisted : Bool
  error : Text
  /-- `randomBytes`, by their order. -/
  random : Nat → Text
  grantsLive : Bool
  revision : Int
  verified : Bool
  /-- What the callback of an order does, and whether it goes on after an error. -/
  exec : ExecMove
  catches : Bool
  /-- Which cancel handler ends next, and whether in time and without an error. -/
  handler : Nat
  handled : Bool

/-- What a call throws. -/
inductive Failure
  | ledger (code : LedgerErrorCode) (message : Text)
  | grant (code : GrantRefusal) (message : Text)
  /-- The file system failed. -/
  | storage (message : Text)
  /-- The callback of an order threw. -/
  | thrown (message : Text)
  /-- Something that was taken to be there was not. -/
  | missing
  deriving DecidableEq

def Failure.message : Failure → Text
  | .ledger _ message => message
  | .grant _ message => message
  | .storage message => message
  | .thrown message => message
  | .missing => "Cannot read properties of undefined".toList

/-- What a write of the grants was for. -/
inductive GrantWrite
  | issue (id : Text)
  | revoke (ids : List Text)
  | prune
  deriving DecidableEq

/-- Where a call stands. -/
inductive Place
  /-- `verifyApproval` of an operation. -/
  | verify (op : Operation)
  /-- `currentRevision`, asked for an operation as it was read. -/
  | revision (op : Operation) (irreversible : Bool)
  /-- `await this.recheck`, of an operation as it was read. -/
  | rechecked (op : Operation)
  /-- The folder of the ledger, and its replacement, for an operation put there. -/
  | opsFolder (next : Operation)
  | opsWrite (next : Operation) (ticket : Nat)
  /-- The same for the grants, with the wait in the queue between. -/
  | grantsFolder (write : GrantWrite) (body : GrantsBody)
  | grantsTurn (write : GrantWrite) (body : GrantsBody) (number : Nat)
  | grantsWrite (write : GrantWrite) (ticket : Nat)
  /-- `await hub.ops.request` of an order. -/
  | requested (op : Operation)
  | authorized (id : Text)
  | begun (id : Text)
  | exec (id : Text)
  | executed (id : Text)
  | caught (id : Text)
  /-- `await this.grants.revoke`. -/
  | grantRevoked
  | revokedHandler (id : Text)
  /-- `await this.cancel`, with the operations that are to be cancelled after it. -/
  | cancelling (remaining : List Operation)
  | handlers (pending : List Text)
  deriving DecidableEq

/-- Code of the daemon. -/
abbrev Code (α : Type) : Type := Async Daemon Outside Place Failure α

/-- The texts that count as given. -/
def truthy (t : Option Text) : Option Text := t.filter (· ≠ [])

def modifyOps (f : OperationLedger → OperationLedger) : Code Unit :=
  modify fun d => { d with hub := { d.hub with ops := f d.hub.ops } }

def modifyGrants (f : GrantIndex → GrantIndex) : Code Unit :=
  modify fun d => { d with hub := { d.hub with grants := f d.hub.grants } }

/-- A restart: how many replacements of each file were made, and whether what is
there can be read. -/
structure Restart where
  opsMade : Nat
  opsReadable : Bool
  grantsMade : Nat
  grantsReadable : Bool
  deriving DecidableEq

/-- What is left of a file that cannot be read is moved aside. -/
def StateFile.restart {α : Type} (f : StateFile α) (made : Nat) (readable : Bool) : StateFile α :=
  if readable then f.crash made else .missing

/-- `load` of the ledger. -/
def OperationLedger.load (file : StateFile (List Operation)) (readable : Bool) : OperationLedger :=
  if !readable then { OperationLedger.empty with failedClosed := true }
  else match file.content with
    | none => .empty
    | some ops => .ofFile ops

/-- `load` of the grants. -/
def GrantIndex.load (file : StateFile GrantsFile) (readable : Bool) : GrantIndex :=
  if !readable then { GrantIndex.empty with failedClosed := true }
  else match file.content with
    | none => .empty
    | some body => .ofFile body

/-- What is being carried out, by a call and by the ledger. -/
def Daemon.interrupted (d : Daemon) : List Text :=
  (d.running.map Prod.snd).filter fun id =>
    (d.hub.ops.ops.get? id).any fun op => decide (op.state = .executing)

/-- The process dies, and another starts and loads what the files hold. -/
def restart (r : Restart) (d : Daemon) : Daemon :=
  let operationsFile := d.operationsFile.restart r.opsMade r.opsReadable
  let grantsFile := d.grantsFile.restart r.grantsMade r.grantsReadable
  { d with
    hub :=
      { AuthorityHub.new d.hub.revokedHandlers with
        ops := .load operationsFile r.opsReadable
        grants := .load grantsFile r.grantsReadable }
    operationsFile := operationsFile
    grantsFile := grantsFile
    grantsAsked := 0
    grantsBegun := 0
    phase := .down
    hands := []
    running := []
    flagged := []
    history := d.history ++ d.interrupted.map .interrupts }

/-- The file system is asked for something; the call goes on once it is done. -/
def disk (place : Place) : Code Unit := do
  awaits place
  if !(← read).persisted then throw (.storage (← read).error)

/-- Note what happens. -/
def notes (events : List Event) : Code Unit :=
  modify fun d => { d with history := d.history ++ events }

end Flagship.Authority

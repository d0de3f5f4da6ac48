import Mathlib.Data.List.Sort
import Mathlib.Algebra.Order.Ring.Rat
import Flagship.Lib.Interleave
import Flagship.Control.Directory

namespace Flagship.Control
open Lib

/-- A rotation as the handler reads it: an old and a new root, in lowercase hex. -/
structure Rotation where
  oldHex : Text
  newHex : Text
  issuedAt : Rat
  sigHex : Text
  deriving DecidableEq

/-- A row of `admin_root_rotations`, and an entry of the served chain. -/
structure RotationRecord extends Rotation where
  seq : Nat
  deriving DecidableEq

/-- The check of a rotation's signature: of an account, two roots and an issue
time, against a signature and a key. -/
class RotationChecks where
  verifyAdminRootRotation : Text → Bytes → Bytes → Rat → Bytes → Bytes → Bool

/-- The account's rows. -/
structure RootTables where
  /-- The pinned root of the row of `usernames`, where there is a row. -/
  user : Option (Option Text)
  rotations : List RotationRecord
  deriving DecidableEq

namespace RootTables

/-- The conditional swap of the root. -/
def swapAdminRootPub (t : RootTables) (expectedOld new : Text) : Bool × RootTables :=
  match t.user with
  | some (some root) =>
    if sqlLower root = sqlLower expectedOld then (true,{ t with user := some (some new) })
    else (false,t)
  | _ => (false,t)

/-- `MAX(seq)`, and zero where there is no row. -/
def maxSeq (t : RootTables) : Nat := (t.rotations.map (·.seq)).foldl max 0

/-- The insert fails where the sequence number is taken. -/
def insert (t : RootTables) (rot : Rotation) (seq : Nat) : Option RootTables :=
  if t.rotations.any (·.seq == seq) then none
  else some { t with rotations := t.rotations ++ [⟨rot,seq⟩] }

/-- The served chain, in the order of its sequence numbers. -/
def list (t : RootTables) : List RotationRecord :=
  t.rotations.insertionSort (fun a b => a.seq ≤ b.seq)

end RootTables

/-- A body with the fields it must have. -/
structure RotationBody where
  username : Text
  oldAdminRootPub : Text
  newAdminRootPub : Text
  issuedAt : Rat
  signatureHex : Text
  deriving DecidableEq

inductive RotationAnswer
  | malformed (reason : String)
  | notFound (reason : String)
  | conflict (reason : String)
  | forbidden (reason : String)
  | ok (adminRootPub : Text) (seq : Option Nat)
  deriving DecidableEq

def RotationAnswer.status : RotationAnswer → Nat
  | .malformed _ => 400
  | .notFound _ => 404
  | .conflict _ => 409
  | .forbidden _ => 403
  | .ok _ _ => 200

inductive RotationProgress
  | user (rot : Rotation)
  | swap (rot : Rotation) (current : Text)
  /-- `append`, before it reads the highest sequence number. -/
  | maxSeq (rot : Rotation)
  | insert (rot : Rotation) (seq : Nat)
  | answered (rot : Option Rotation) (answer : RotationAnswer)
  /-- A request that stopped between two storage calls, or threw. -/
  | stopped (rot : Rotation)
  deriving DecidableEq

/-- The rotation of a request that has swapped the root and not recorded the proof. -/
def RotationProgress.owedProof : RotationProgress → Option Rotation
  | .maxSeq rot => some rot
  | .insert rot _ => some rot
  | _ => none

section
variable [Lowercase] [RotationChecks] (account : Text)

def startRotation : Option RotationBody → RotationProgress
  | none => .answered none (.malformed "malformed body")
  | some b =>
    let rot : Rotation := ⟨toLowercase b.oldAdminRootPub,toLowercase b.newAdminRootPub,b.issuedAt,
      toLowercase b.signatureHex⟩
    if b.username.isEmpty || !lowerHexDigits 64 rot.oldHex || !lowerHexDigits 64 rot.newHex ||
        !lowerHexDigits 128 rot.sigHex then .answered none (.malformed "malformed body")
    else if toLowercase b.username ≠ account then
      .answered none (.malformed "rotation username does not match path")
    else if equalHex rot.oldHex rot.newHex then
      .answered none (.malformed "new admin root equals old")
    else .user rot

/-- Whether a signature by the old root stands under a rotation. -/
def signedByOld (rot : Rotation) : Option Bool :=
  match hexToBytes rot.oldHex,hexToBytes rot.newHex,hexToBytes rot.sigHex with
  | some old,some new,some sig =>
    some (RotationChecks.verifyAdminRootRotation account old new rot.issuedAt sig old)
  | _,_,_ => none

/-- From the read of the account's row to the swap. -/
def checkRotation (rot : Rotation) (user : Option (Option Text)) : RotationProgress :=
  match user with
  | none => .answered (some rot) (.notFound "username not registered")
  | some root => match present (root.map toLowercase) with
    | none => .answered (some rot) (.malformed "account has no admin root")
    | some current =>
      if equalHex rot.newHex current then .answered (some rot) (.ok current none)
      else if !equalHex rot.oldHex current then
        .answered (some rot) (.conflict "rotation does not chain to the current admin root")
      else match signedByOld account rot with
      | none => .answered (some rot) (.malformed "invalid hex")
      | some true => .swap rot current
      | some false => .answered (some rot) (.forbidden "invalid rotation signature")

/-- The storage call a request stands before, unless it stops there. -/
def advanceRotation (stops : Bool) (p : RotationProgress) (t : RootTables) :
    RotationProgress × RootTables × List Rotation :=
  match p with
  | .user rot => if stops then (.stopped rot,t,[]) else (checkRotation account rot t.user,t,[])
  | .swap rot current =>
    if stops then (.stopped rot,t,[])
    else match t.swapAdminRootPub current rot.newHex with
    | (true,t) => (.maxSeq rot,t,[rot])
    | (false,t) => (.answered (some rot) (.conflict "admin root changed concurrently"),t,[])
  | .maxSeq rot =>
    if stops then (.stopped rot,t,[]) else (.insert rot (t.maxSeq + 1),t,[])
  | .insert rot seq =>
    if stops then (.stopped rot,t,[])
    else match t.insert rot seq with
    | some t => (.answered (some rot) (.ok rot.newHex (some seq)),t,[])
    | none => (.stopped rot,t,[])
  | p => (p,t,[])

/-- `handleApplyAdminRootRotation` for one account. What happens is that a
rotation swaps the root; a request is told from outside whether it stops. -/
def rotationHandlers :
    Handlers RootTables Rotation RotationProgress (Option RotationBody) Bool where
  accept := fun _ _ body => startRotation account body
  advance := fun _ stops p t => advanceRotation account stops p t

/-- One pass of a box over the served chain, from the root it holds. -/
def replayChain (current : Text) (applied lastSeq : Nat) (started : Bool) :
    List RotationRecord → Text × Nat × Nat
  | [] => (current,applied,lastSeq)
  | entry :: rest =>
    let oldHex := toLowercase entry.oldHex
    let newHex := toLowercase entry.newHex
    let sigHex := toLowercase entry.sigHex
    if !started && oldHex != current then replayChain current applied lastSeq false rest
    else if oldHex ≠ current then (current,applied,lastSeq)
    else if !lowerHexDigits 64 newHex || !lowerHexDigits 128 sigHex || newHex == current then
      (current,applied,lastSeq)
    else if signedByOld account ⟨current,newHex,entry.issuedAt,sigHex⟩ = some true then
      replayChain newHex (applied + 1) entry.seq true rest
    else (current,applied,lastSeq)

/-- The root a box holds after a pass. -/
def applyRotationChain (chain : List RotationRecord) (pinnedHex : Text) : Text :=
  (replayChain account (toLowercase pinnedHex) 0 0 false chain).1

end

/-- No request is under way, and each that stopped was repeated and answered. -/
def Quiet (w : Served RootTables Rotation RotationProgress) : Prop :=
  ∀ p ∈ w.requests,(∃ rot answer,p = .answered rot answer) ∨
    ∃ rot,p = .stopped rot ∧ ∃ answer,.answered (some rot) answer ∈ w.requests

/-- The roots the account has had, in lowercase. -/
def rootsHad [Lowercase] (user : Option (Option Text)) (swaps : List Rotation) : List Text :=
  (user.bind id).toList.map toLowercase ++ swaps.map (·.newHex)

/-- The root the account has, in lowercase. -/
def currentRoot [Lowercase] (t : RootTables) : Option Text := (t.user.bind id).map toLowercase

/-- The proofs on record are those of the first swaps, in order. -/
def RecordedInOrder (s : Shared RootTables Rotation) : Prop :=
  s.tables.rotations.map (·.toRotation) = s.history.take s.tables.rotations.length

instance (s : Shared RootTables Rotation) : Decidable (RecordedInOrder s) :=
  inferInstanceAs (Decidable (_ = _))

/-- A move that loses no proof and mixes up none. A request that has swapped the
root does not stop before it has recorded the proof, and records it under a
number above all others. Once a root is back that the account had before, the
proofs are recorded in the order of the swaps. -/
def recordsProofs [Lowercase] (user : Option (Option Text))
    (w : Served RootTables Rotation RotationProgress) : Move (Option RotationBody) Bool → Bool
  | .receive _ _ _ => true
  | .resume i _ stops => match w.requests[i]? with
    | some (.swap rot current) =>
      stops || !(w.shared.tables.swapAdminRootPub current rot.newHex).1 ||
        !(rootsHad user w.shared.history).contains rot.newHex || decide (RecordedInOrder w.shared)
    | some (.maxSeq _) => !stops
    | some (.insert rot seq) =>
      !stops && seq == w.shared.tables.maxSeq + 1 &&
        (decide (rootsHad user w.shared.history).Nodup ||
          w.shared.history[w.shared.tables.rotations.length]? == some rot)
    | _ => true

/-- A move that does not bring back a root the account had before. -/
def bringsNewRoot [Lowercase] (user : Option (Option Text))
    (w : Served RootTables Rotation RotationProgress) : Move (Option RotationBody) Bool → Bool
  | .receive _ _ _ => true
  | .resume i _ stops => match w.requests[i]? with
    | some (.swap rot current) =>
      stops || !(w.shared.tables.swapAdminRootPub current rot.newHex).1 ||
        !(rootsHad user w.shared.history).contains rot.newHex
    | _ => true

/-- What the signature of a rotation covers, beside the account. -/
def Rotation.signedPart (rot : Rotation) : Text × Text × Rat := (rot.oldHex,rot.newHex,rot.issuedAt)

/-- No signed rotation has swapped the root twice. -/
def SwapsOnce (history : List Rotation) : Prop := (history.map Rotation.signedPart).Nodup

/-- A further request, served alone to its end. -/
def servedAlone (w : Served RootTables Rotation RotationProgress) (body : Option RotationBody) :
    List (Move (Option RotationBody) Bool) :=
  .receive body [] false :: List.replicate 4 (.resume w.requests.length [] false)

/-- An account before any rotation. -/
def neverRotated (user : Option (Option Text)) (clock : Int) :
    Served RootTables Rotation RotationProgress :=
  ⟨⟨⟨user,[]⟩,clock,[]⟩,[]⟩

end Flagship.Control

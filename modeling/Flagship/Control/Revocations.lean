import Mathlib.Algebra.Order.Ring.Rat
import Flagship.Lib.Interleave
import Flagship.Control.Directory

namespace Flagship.Control
open Lib

section
variable {κ ρ ν : Type} [DecidableEq κ] [LinearOrder ν]

/-- A table whose rows are replaced by newer ones: its primary key, and the
column a replacement must exceed. -/
structure NewerTable (κ ρ ν : Type) where
  key : ρ → κ
  version : ρ → ν

/-- `putIfNewer` before its read, before its write, and answered. -/
inductive Put (ρ : Type)
  | read (rec : ρ)
  | write (rec : ρ)
  | answered (stored : ρ) (accepted : Bool)
  deriving DecidableEq

/-- The read and the write are storage calls of their own; the write replaces
whatever row has the key. -/
def NewerTable.putIfNewer (table : NewerTable κ ρ ν) (p : Put ρ) (rows : κ → Option ρ) :
    Put ρ × (κ → Option ρ) :=
  match p with
  | .read rec => match rows (table.key rec) with
    | some existing =>
      if table.version rec ≤ table.version existing then (.answered existing false,rows)
      else (.write rec,rows)
    | none => (.write rec,rows)
  | .write rec => (.answered rec true,Function.update rows (table.key rec) (some rec))
  | .answered stored accepted => (.answered stored accepted,rows)

/-- Calls of `putIfNewer` itself. -/
def NewerTable.handlers (table : NewerTable κ ρ ν) :
    Handlers (κ → Option ρ) Empty (Put ρ) ρ Unit where
  accept := fun _ _ rec => .read rec
  advance := fun _ _ p rows => ((table.putIfNewer p rows).1,(table.putIfNewer p rows).2,[])

/-- Every row is still there, or one with a higher version is in its place. -/
def NewerTable.Onward (table : NewerTable κ ρ ν) (rows rows' : κ → Option ρ) : Prop :=
  ∀ k old,rows k = some old →
    ∃ new,rows' k = some new ∧ (new = old ∨ table.version old < table.version new)

/-- A write replaces no row that is as new, but the same row. -/
def NewerTable.writeNewer [DecidableEq ρ] (table : NewerTable κ ρ ν) (p : Put ρ)
    (rows : κ → Option ρ) : Bool :=
  match p with
  | .write rec => (rows (table.key rec)).all fun old =>
    old == rec || decide (table.version old < table.version rec)
  | _ => true

end

structure EntitlementRevocationListRecord where
  username : Text
  certIds : List Text
  irkSignatureHex : Text
  issuedAt : Rat
  updatedAt : Int
  deriving DecidableEq

/-- `entitlement_revocation_lists`. The handler passes the username on as it came. -/
def revocationLists : NewerTable Text EntitlementRevocationListRecord Rat :=
  ⟨(·.username),(·.issuedAt)⟩

structure UserIdentityRecord where
  usernameHash : Text
  encryptedBlob : List UInt8
  authorizedSigners : List Text
  blobVersion : Rat
  signatureHex : Text
  updatedAt : Int
  deriving DecidableEq

def identityRecords : NewerTable Text UserIdentityRecord Rat := ⟨(·.usernameHash),(·.blobVersion)⟩

/-- A body with the fields it must have. -/
structure RevocationsBody where
  username : Text
  certIds : List Text
  issuedAt : Rat
  signature : Text
  deriving DecidableEq

inductive RevocationsAnswer
  | malformed (reason : String)
  | notFound (reason : String)
  | forbidden (reason : String)
  | conflict (reason : String)
  | ok (count : Nat) (issuedAt : Rat)
  deriving DecidableEq

def RevocationsAnswer.status : RevocationsAnswer → Nat
  | .malformed _ => 400
  | .notFound _ => 404
  | .forbidden _ => 403
  | .conflict _ => 409
  | .ok _ _ => 200

inductive RevocationsProgress
  /-- Before the read of the account's row. -/
  | user (body : RevocationsBody)
  | put (p : Put EntitlementRevocationListRecord)
  | answered (answer : RevocationsAnswer)
  deriving DecidableEq

/-- What the handler reads elsewhere: whether the username is registered, and
whether `authorizeSensitiveComOp` takes the signature. -/
structure RevocationsElsewhere where
  registered : Bool
  authorized : Bool

def startRevocations : Option RevocationsBody → RevocationsProgress
  | none => .answered (.malformed "malformed body")
  | some r =>
    if !lowerHexDigits 128 r.signature then .answered (.malformed "malformed body")
    else if r.certIds.any (fun id => !lowerHexDigits 64 id) then
      .answered (.malformed "certIds must be 32-byte hex")
    else .user r

/-- From the read of the account's row to the first call of `putIfNewer`. -/
def checkRevocations (maxAgeMs : Option Int) (now : Int) (outside : RevocationsElsewhere)
    (r : RevocationsBody) : RevocationsProgress :=
  if !outside.registered then .answered (.notFound "username not registered")
  else if !outside.authorized then .answered (.forbidden "invalid IRK signature")
  else if ((maxAgeMs.getD (30 * 24 * 60 * 60 * 1000) : Int) : Rat) < |(now : Rat) - r.issuedAt| then
    .answered (.forbidden "issuedAt outside replay window")
  else .put (.read ⟨r.username,r.certIds,r.signature,r.issuedAt,now⟩)

/-- What the handler makes of an answer of `putIfNewer`. -/
def answerRevocations : Put EntitlementRevocationListRecord → RevocationsProgress
  | .answered stored true => .answered (.ok stored.certIds.length stored.issuedAt)
  | .answered _ false => .answered (.conflict "a newer list is already on record")
  | p => .put p

/-- `handlePostEntitlementRevocations`. -/
def revocationHandlers (maxAgeMs : Option Int) :
    Handlers (Text → Option EntitlementRevocationListRecord) Empty RevocationsProgress
      (Option RevocationsBody) RevocationsElsewhere where
  accept := fun _ _ body => startRevocations body
  advance := fun now outside p rows => match p with
    | .user r => (checkRevocations maxAgeMs (now 1) outside r,rows,[])
    | .put p =>
      (answerRevocations (revocationLists.putIfNewer p rows).1,
        (revocationLists.putIfNewer p rows).2,[])
    | .answered answer => (.answered answer,rows,[])

/-- The write of a request that stands before it finds an older row. -/
def revocationNewer (w : Served (Text → Option EntitlementRevocationListRecord) Empty
    RevocationsProgress) : Move (Option RevocationsBody) RevocationsElsewhere → Bool
  | .receive _ _ _ => true
  | .resume i _ _ => match w.requests[i]? with
    | some (.put p) => revocationLists.writeNewer p w.shared.tables
    | _ => true

/-- The same for bare calls of `putIfNewer`. -/
def putNewer {κ ρ ν : Type} [DecidableEq κ] [LinearOrder ν] [DecidableEq ρ]
    (table : NewerTable κ ρ ν) (w : Served (κ → Option ρ) Empty (Put ρ)) : Move ρ Unit → Bool
  | .receive _ _ _ => true
  | .resume i _ _ => match w.requests[i]? with
    | some p => table.writeNewer p w.shared.tables
    | none => true

end Flagship.Control

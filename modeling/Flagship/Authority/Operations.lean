import Flagship.Lib.OrdMap
import Flagship.Mesh.Items

namespace Flagship.Authority
open Lib

inductive OperationState
  | requested
  | awaitingApproval
  | authorized
  | executing
  | applied
  | failed
  | cancelled
  | outcomeUnknown
  deriving DecidableEq

def OperationState.text : OperationState → Text
  | requested => "requested".toList
  | awaitingApproval => "awaiting-approval".toList
  | authorized => "authorized".toList
  | executing => "executing".toList
  | applied => "applied".toList
  | failed => "failed".toList
  | cancelled => "cancelled".toList
  | outcomeUnknown => "outcome-unknown".toList

def terminal : List OperationState := [.applied,.failed,.cancelled,.outcomeUnknown]

/-- `approval?: { by, at, signatureHex }`. -/
structure Approval where
  approver : Text
  time : Int
  signatureHex : Text
  deriving DecidableEq

/-- What someone asked the box to do, bound to the payload, the state it was asked
against and the grants it depends on. -/
structure Operation where
  id : Text
  requester : Text
  kind : Text
  idempotencyKey : Text
  payloadHash : Text
  capabilityDigest : Option Text
  expectedRevision : Int
  grantDeps : List Text
  challenge : Option Text
  approvalDeadline : Int
  executeBy : Option Int
  state : OperationState
  createdAt : Int
  updatedAt : Int
  approval : Option Approval
  /-- Set once the point of no return is crossed. -/
  irreversibleAt : Option Int
  cancelRequested : Option Text
  resultDigest : Option Text
  reason : Option Text
  downstreamId : Text
  deriving DecidableEq

inductive LedgerErrorCode
  | idempotencyConflict
  | notFound
  | wrongState
  | expired
  | badChallenge
  | payloadChanged
  | stateChanged
  | authorityLost
  | approvalInvalid
  | ledgerUnavailable
  deriving DecidableEq

def LedgerErrorCode.text : LedgerErrorCode → Text
  | idempotencyConflict => "idempotency-conflict".toList
  | notFound => "not-found".toList
  | wrongState => "wrong-state".toList
  | expired => "expired".toList
  | badChallenge => "bad-challenge".toList
  | payloadChanged => "payload-changed".toList
  | stateChanged => "state-changed".toList
  | authorityLost => "authority-lost".toList
  | approvalInvalid => "approval-invalid".toList
  | ledgerUnavailable => "ledger-unavailable".toList

structure RequestInput where
  requester : Text
  kind : Text
  idempotencyKey : Text
  canonicalPayload : Text
  capabilityDigest : Option Text
  expectedRevision : Int
  grantDeps : List Text
  approvalTtlMs : Int
  deriving DecidableEq

/-- What the approving device sends. -/
structure ApprovalInput where
  approver : Text
  signatureHex : Text
  challenge : Text
  payloadHash : Text
  expectedRevision : Int
  deriving DecidableEq

/-- The order a verified signature stands for. -/
structure VerifiedOrder where
  approver : Text
  signatureHex : Text
  deriving DecidableEq

structure OperationLedger where
  ops : OrdMap Text Operation
  byKey : OrdMap Text Text
  failedClosed : Bool
  deriving DecidableEq

def lookupKey (requester idempotencyKey : Text) : Text := requester ++ '|' :: idempotencyKey

namespace OperationLedger

def empty : OperationLedger := ⟨∅,∅,false⟩

def values (l : OperationLedger) : List Operation := l.ops.entries.map Prod.snd

/-- An operation of the file. -/
def enter (l : OperationLedger) (op : Operation) : OperationLedger :=
  { l with
    ops := l.ops.set op.id op
    byKey := l.byKey.set (lookupKey op.requester op.idempotencyKey) op.id }

/-- What `load` makes of the operations in the file. -/
def ofFile (ops : List Operation) : OperationLedger := ops.foldl enter empty

end OperationLedger
end Flagship.Authority

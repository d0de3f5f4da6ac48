import Flagship.Control.Directory

namespace Flagship.Recovery
open Lib Control

inductive AccountType
  | single
  | multi
  | demo
  deriving DecidableEq

inductive RecoveryWipePolicy
  | strict
  | graceful
  deriving DecidableEq

/-- The account's row of `usernames`. -/
structure UsernameRecord where
  irkPubHex : Text
  claimedAt : Int
  accountType : Option AccountType
  totpSecretEncrypted : Option Text
  recoveryCodesHashesJson : Option Text
  recoveryWipePolicy : Option RecoveryWipePolicy
  adminRootPubHex : Option Text
  deriving DecidableEq

/-- The signatures an initiate carried. -/
structure RePairProof where
  issuedAt : Rat
  newIrkSignature : Text
  oldIrkSignature : Option Text
  deriving DecidableEq

/-- The account's row of `pending_re_pairs`. -/
structure PendingRePair where
  /-- Which accepted initiate inserted the row, counted from the first. Not a
  column: it tells attempts apart that agree in every column. -/
  attempt : Nat
  newIrkPubHex : Text
  oldIrkPubHex : Text
  initiatedAt : Int
  completesAt : Int
  objectedAt : Option Int
  completingAt : Option Int
  vetoedByHex : Option Text
  vetoSignatureHex : Option Text
  graceSeconds : Int
  totpRequired : Bool
  totpProofConsumed : Bool
  alertsFiredBitmap : Nat
  offlineAlertMs : Option Int
  proof : Option RePairProof
  deriving DecidableEq

/-- `objected_at IS NULL AND completing_at IS NULL`. -/
def PendingRePair.isOpen (row : PendingRePair) : Bool :=
  row.objectedAt.isNone && row.completingAt.isNone

/-- The rows of one account. The primary key of `pending_re_pairs` is the
username, so there is at most one attempt stored. -/
structure Tables where
  user : Option UsernameRecord
  pending : Option PendingRePair
  /-- How many attempts were ever inserted. -/
  attempts : Nat
  deriving DecidableEq

namespace Tables

/-- The insert fails where any row is stored. -/
def initiate (t : Tables) (rec : PendingRePair) : Bool × Tables :=
  match t.pending with
  | some _ => (false,t)
  | none =>
    (true,{ t with
      pending := some { rec with
        attempt := t.attempts
        objectedAt := none
        completingAt := none
        vetoedByHex := none
        vetoSignatureHex := none }
      attempts := t.attempts + 1 })

/-- An update of whatever open row is stored under the name, and whether there
was one. -/
def updateOpen (t : Tables) (f : PendingRePair → PendingRePair) : Bool × Tables :=
  match t.pending with
  | some row => if row.isOpen then (true,{ t with pending := some (f row) }) else (false,t)
  | none => (false,t)

def object (t : Tables) (stamp : Int) : Bool × Tables :=
  t.updateOpen (fun row => { row with objectedAt := some stamp })

def veto (t : Tables) (stamp : Int) (byHex signatureHex : Text) : Bool × Tables :=
  t.updateOpen (fun row => { row with
    objectedAt := some stamp
    vetoedByHex := some byHex
    vetoSignatureHex := some signatureHex })

def claimCompletion (t : Tables) (stamp : Int) : Bool × Tables :=
  t.updateOpen (fun row => { row with completingAt := some stamp })

def delete (t : Tables) : Tables := { t with pending := none }

/-- The conditional update of the account's key. -/
def swapIrkPub (t : Tables) (expectedOldIrkPubHex newIrkPubHex : Text) (stamp : Int) :
    Bool × Tables :=
  match t.user with
  | none => (false,t)
  | some user =>
    if sqlLower user.irkPubHex = sqlLower expectedOldIrkPubHex then
      (true,{ t with user := some { user with irkPubHex := newIrkPubHex, claimedAt := stamp } })
    else (false,t)

/-- The conditional update of the hashed codes; an empty baseline also matches
an absent one. -/
def casRecoveryCodes (t : Tables) (expectedJson newJson : Text) : Bool × Tables :=
  match t.user with
  | none => (false,t)
  | some user =>
    let held := match user.recoveryCodesHashesJson with
      | none => expectedJson.isEmpty
      | some json => json == expectedJson
    if held then (true,{ t with user := some { user with recoveryCodesHashesJson := some newJson } })
    else (false,t)

end Tables

/-- What may authorize a re-pair. -/
inductive RecoveryMethod
  | totp
  | recoveryCode
  | recoveryCredential
  | registeredKey
  deriving DecidableEq

inductive CodeMethod
  | totp
  | recovery
  deriving DecidableEq

/-- Why a recovery proof is refused. -/
inductive ProofRefusal
  | malformed
  | badSignature
  | expired
  | ttlTooLong
  deriving DecidableEq

structure RePairInitiate where
  username : Text
  newIrkPub : Bytes
  oldIrkPub : Bytes
  issuedAt : Rat

structure RePairObject where
  username : Text
  newIrkPub : Bytes
  issuedAt : Rat

structure RePairComplete where
  username : Text
  newIrkPub : Bytes
  issuedAt : Rat

structure RePairVeto where
  username : Text
  newIrkPub : Bytes
  initiatedAt : Rat
  completesAt : Rat
  vetoerPub : Bytes
  issuedAt : Rat

/-- The checks of signatures, proofs and codes, which no table takes part in. -/
class Checks where
  verifyRePairInitiate : RePairInitiate → Bytes → Bytes → Bool
  verifyRePairObject : RePairObject → Bytes → Bytes → Bool
  verifyRePairComplete : RePairComplete → Bytes → Bytes → Bool
  verifyRePairVeto : RePairVeto → Bytes → Bool
  /-- Of a token, for a username, a fetch token's hash, a secret and a time. -/
  verifyRecoveryProof : Text → Text → Text → Text → Int → Option ProofRefusal
  /-- Of a code, against an encrypted secret, hashed codes, a key and a time. -/
  validateTotpCode : Text → Option Text → Option Text → Text → Int → Option CodeMethod
  /-- Whether a column of hashed codes parses to a list that holds some. -/
  someCodes : Text → Bool
  /-- The column without the first code that matches. -/
  withoutCode : Text → Text → Option Text

/-- How the handlers are deployed. -/
structure RePairDeps where
  pushTokens : Bool
  webauthnRecovery : Bool
  deviceCapabilityGrants : Bool
  graceMs : Option Int
  singleDeviceGraceMs : Option Int
  quarantineMs : Option Int
  completeWindowMs : Option Int
  maxAgeMs : Option Int
  totpKekHex : Option Text
  recoveryProofSecret : Option Text

namespace RePairDeps

def multiGrace (deps : RePairDeps) : Int := deps.graceMs.getD (24 * 60 * 60000)

def singleGrace (deps : RePairDeps) : Int := deps.singleDeviceGraceMs.getD (3 * 24 * 60 * 60000)

def completeWindow (deps : RePairDeps) : Int := deps.completeWindowMs.getD (7 * 24 * 60 * 60000)

def quarantine (deps : RePairDeps) : Int := deps.quarantineMs.getD (14 * 24 * 60 * 60000)

def maxAge (deps : RePairDeps) : Int := deps.maxAgeMs.getD (5 * 60000)

/-- The wait of an attempt on an account. -/
def grace (deps : RePairDeps) (user : UsernameRecord) : Int :=
  if user.accountType = some .multi then deps.multiGrace else deps.singleGrace

def stale (deps : RePairDeps) (now : Int) (issuedAt : Rat) : Bool :=
  decide ((deps.maxAge : Rat) < |(now : Rat) - issuedAt|)

end RePairDeps

/-- What the handlers read outside the account's two rows. -/
structure Elsewhere where
  devicesEtag : Text
  /-- How long the calling device is quarantined, where it has a row. -/
  quarantineUntil : Option Int
  /-- The fetch token's hash of the account's recovery record. -/
  fetchTokenHashHex : Option Text
  /-- When the window of too many failed codes began. -/
  trippedSince : Option Int
  remainingAttempts : Nat
  /-- Why the refreshed grants of a completion are refused. -/
  grantsRefused : Option (Nat × String)
  /-- The refreshed grant the table would not take, and why. -/
  grantNotStored : Option (Text × String)

/-- A body that has the fields it must have, of the types they must have. -/
structure InitiateBody where
  username : Text
  newIrkPub : Text
  oldIrkPub : Text
  issuedAt : Rat
  signature : Text
  totpProof : Option (Text × CodeMethod)
  callerTokenId : Option Text
  recoveryProof : Option Text
  oldIrkSignature : Option Text
  ifMatch : Option Text
  deriving DecidableEq

structure VetoBody where
  username : Text
  newIrkPub : Text
  vetoerPub : Text
  initiatedAt : Rat
  completesAt : Rat
  issuedAt : Rat
  signature : Text
  deriving DecidableEq

structure ObjectBody where
  username : Text
  newIrkPub : Text
  issuedAt : Rat
  signature : Text
  deriving DecidableEq

structure CompleteBody where
  username : Text
  newIrkPub : Text
  issuedAt : Rat
  signature : Text
  /-- Whether it carries refreshed grants. -/
  refreshes : Bool
  deriving DecidableEq

/-- A request to one of the four handlers; a body is missing where it is
malformed. -/
inductive Request
  | initiate (body : Option InitiateBody)
  | veto (body : Option VetoBody)
  | object (body : Option ObjectBody)
  | complete (body : Option CompleteBody)

inductive Answer
  | malformed (reason : String)
  | forbidden (reason : String)
  | notFound (reason : String)
  | conflict (reason : String)
  /-- A call the handler does not guard throws. -/
  | threw
  | deviceListShifted (currentEtag : Text)
  | quarantined (expiry : Int)
  | recoveryProofUnavailable
  | totpKekUnavailable
  | badRegisteredKeyProof (accountType : AccountType)
  | noCredential (accountType : AccountType)
  | proofRequired (accountType : AccountType) (codes : Bool)
      (credentialRequired : List RecoveryMethod)
  | invalidRecoveryProof (reason : ProofRefusal) (accountType : AccountType)
      (credentialRequired : List RecoveryMethod)
  | tooManyAttempts (retryAfterMs : Int)
  | invalidTotpProof (remainingAttempts : Nat)
  | recoveryCodeConsumed (reason : String)
  | initiated (completesAt graceMs : Int) (accountType : AccountType) (totpRequired : Bool)
      (quarantineMs : Int) (credentialUsed : RecoveryMethod)
  | vetoed
  | objected
  | signatureRequired
  | cancelled (byAdmin : Bool) (objectedAt : Int)
  | tooEarly (completesAt secondsRemaining : Int)
  | expired (completesAt completionDeadline : Int)
  | grantsRefused (status : Nat) (error : String)
  | notCompletable (byAdmin : Bool) (objectedAt : Option Int)
  | grantNotStored (grantId : Text) (reason : String)
  | completed (newIrkPub : Text) (swappedAt quarantineUntil : Int) (policy : RecoveryWipePolicy)
  deriving DecidableEq

def Answer.status : Answer → Nat
  | .malformed _ => 400
  | .forbidden _ => 403
  | .notFound _ => 404
  | .conflict _ => 409
  | .threw => 500
  | .deviceListShifted _ => 412
  | .quarantined _ => 403
  | .recoveryProofUnavailable => 503
  | .totpKekUnavailable => 503
  | .badRegisteredKeyProof _ => 401
  | .noCredential _ => 409
  | .proofRequired _ _ _ => 401
  | .invalidRecoveryProof _ _ _ => 401
  | .tooManyAttempts _ => 429
  | .invalidTotpProof _ => 401
  | .recoveryCodeConsumed _ => 401
  | .initiated _ _ _ _ _ _ => 200
  | .vetoed => 200
  | .objected => 200
  | .signatureRequired => 401
  | .cancelled _ _ => 409
  | .tooEarly _ _ => 425
  | .expired _ _ => 410
  | .grantsRefused status _ => status
  | .notCompletable _ _ => 409
  | .grantNotStored _ _ => 500
  | .completed _ _ _ _ => 200

end Flagship.Recovery

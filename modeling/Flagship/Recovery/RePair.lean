import Mathlib.Algebra.Order.Ring.Rat
import Flagship.Lib.Interleave
import Flagship.Recovery.Requests

namespace Flagship.Recovery
open Lib Control

/-- An initiate past the credential gate: the row of the account it was checked
against, when the credential was checked, and which one it was. -/
structure Cleared where
  body : InitiateBody
  user : UsernameRecord
  fetchTokenHashHex : Option Text
  checkedAt : Int
  method : RecoveryMethod
  deriving DecidableEq

/-- A request and the storage call it stands before. -/
inductive Progress
  | initiateUser (body : InitiateBody)
  /-- `consumeRecoveryCode`, before its read. -/
  | consumeRead (cleared : Cleared) (code : Text) (attempt : Nat)
  | consumeCas (cleared : Cleared) (code : Text) (attempt : Nat) (currentJson newJson : Text)
  | initiatePending (cleared : Cleared)
  | initiateSweep (cleared : Cleared) (existing : PendingRePair)
  | initiateInsert (cleared : Cleared) (rec : PendingRePair)
  | vetoPending (body : VetoBody)
  | vetoUser (body : VetoBody) (pending : PendingRePair)
  | vetoStore (body : VetoBody) (pending : PendingRePair) (stamp : Int)
  | objectPending (body : ObjectBody)
  | objectStore (body : ObjectBody) (pending : PendingRePair) (stamp : Int)
  | completePending (body : Option CompleteBody)
  | completeExpire (pending : PendingRePair)
  | completeUser (body : CompleteBody) (pending : PendingRePair)
  | completeClaim (pending : PendingRePair) (policy : RecoveryWipePolicy) (refreshes : Bool)
      (stamp : Int)
  | completeRefused
  | completeSwap (pending : PendingRePair) (policy : RecoveryWipePolicy) (refreshes : Bool)
      (stamp : Int)
  | completeDrop (pending : PendingRePair)
  | completeDelete (pending : PendingRePair) (policy : RecoveryWipePolicy)
  | answered (answer : Answer)
  deriving DecidableEq

inductive Event
  /-- An initiate inserted a row and is answered as accepted. -/
  | initiated (cleared : Cleared) (row : PendingRePair)
  /-- A veto that read one row and cancelled another or the same is answered as
  accepted. -/
  | vetoed (body : VetoBody) (pending marked : PendingRePair)
  /-- An objection that read a row is answered as accepted, whether or not it
  cancelled one. -/
  | objected (body : ObjectBody) (pending : PendingRePair) (marked : Option PendingRePair)
  /-- A completion that read a row swapped the account's key. -/
  | swapped (pending : PendingRePair) (old new : Text) (time : Int)
  deriving DecidableEq

section
variable [Lowercase] [Checks] (deps : RePairDeps) (account : Text)

def startInitiate (now : Nat → Int) (outside : Elsewhere) : Option InitiateBody → Progress
  | none => .answered (.malformed "malformed body")
  | some r =>
    if toLowercase r.username ≠ account then .answered (.forbidden "username / url mismatch")
    else if deps.stale (now 0) r.issuedAt then .answered (.forbidden "stale request")
    else if deps.pushTokens && r.ifMatch.any (· != outside.devicesEtag) then
      .answered (.deviceListShifted outside.devicesEtag)
    else if deps.pushTokens && (present r.callerTokenId).isSome &&
        outside.quarantineUntil.any (fun expiry => decide (now 1 < expiry)) then
      .answered (.quarantined (outside.quarantineUntil.getD 0))
    else .initiateUser r

/-- Whether the request carries a second signature by the registered key. -/
def provenKey (r : InitiateBody) (claim : RePairInitiate) (user : UsernameRecord) :
    Except Answer Bool :=
  match present r.oldIrkSignature with
  | none => .ok false
  | some s => match hexToBytes s with
    | none => .error (.malformed "invalid hex")
    | some sig => match hexToBytes user.irkPubHex with
      | none => .error .threw
      | some pub =>
        if Checks.verifyRePairInitiate claim sig pub then .ok true
        else .error (.badRegisteredKeyProof (user.accountType.getD .single))

def hasTotpSecret (user : UsernameRecord) : Bool := (present user.totpSecretEncrypted).isSome

def hasRecoveryCodes (user : UsernameRecord) : Bool :=
  (present user.recoveryCodesHashesJson).any Checks.someCodes

/-- The secret, where recovery records can be read and proofs of them checked. -/
def recoveryCredentialSecret : Option Text :=
  if deps.webauthnRecovery then present deps.recoveryProofSecret else none

/-- What a recovery proof is bound to: a secret and a hash, on an account of one
device. -/
def recoveryCredential (user : UsernameRecord) (hash : Option Text) : Option (Text × Text) :=
  if user.accountType = some .multi then none
  else match recoveryCredentialSecret deps,present hash with
    | some secret,some hash => some (secret,hash)
    | _,_ => none

def enrolledMethods (user : UsernameRecord) (hash : Option Text) : List RecoveryMethod :=
  (if hasTotpSecret user then [.totp] else []) ++
    (if hasRecoveryCodes user then [.recoveryCode] else []) ++
    if (recoveryCredential deps user hash).isSome then [.recoveryCredential] else []

def credentialRequired (user : UsernameRecord) (hash : Option Text) : List RecoveryMethod :=
  if user.accountType = some .multi then [.totp,.recoveryCode]
  else enrolledMethods deps user hash ++ [.registeredKey]

/-- The code a request shows, on an account that has codes. -/
def shownCode (r : InitiateBody) (user : UsernameRecord) : Option Text :=
  if hasTotpSecret user || hasRecoveryCodes user then present (r.totpProof.map Prod.fst) else none

/-- The credential a request without the registered key shows, and when it was
checked. -/
def shownCredential (now : Nat → Int) (outside : Elsewhere) (r : InitiateBody)
    (user : UsernameRecord) : Except Answer (RecoveryMethod × Int) :=
  let accountType := user.accountType.getD .single
  let required := credentialRequired deps user outside.fetchTokenHashHex
  if enrolledMethods deps user outside.fetchTokenHashHex = [] then .error (.noCredential accountType)
  else match shownCode r user with
  | none => match recoveryCredential deps user outside.fetchTokenHashHex,r.recoveryProof with
    | some (secret,hash),some token =>
      match Checks.verifyRecoveryProof token r.username hash secret (now 1) with
      | none => .ok (.recoveryCredential,now 1)
      | some reason => .error (.invalidRecoveryProof reason accountType required)
    | _,_ => .error (.proofRequired accountType (hasTotpSecret user || hasRecoveryCodes user) required)
  | some code => match present deps.totpKekHex with
    | none => .error .totpKekUnavailable
    | some kek => match outside.trippedSince with
      | some since => .error (.tooManyAttempts (max 0 (15 * 60000 - (now 2 - since))))
      | none => match Checks.validateTotpCode code user.totpSecretEncrypted
          user.recoveryCodesHashesJson kek (now 2) with
        | none => .error (.invalidTotpProof outside.remainingAttempts)
        | some .totp => .ok (.totp,now 2)
        | some .recovery => .ok (.recoveryCode,now 2)

/-- The credential that authorizes an initiate. -/
def credentialUsed (now : Nat → Int) (outside : Elsewhere) (r : InitiateBody)
    (claim : RePairInitiate) (user : UsernameRecord) : Except Answer (RecoveryMethod × Int) :=
  if (recoveryCredentialSecret deps).isNone && !hasTotpSecret user && !hasRecoveryCodes user then
    .error .recoveryProofUnavailable
  else match provenKey r claim user with
  | .error answer => .error answer
  | .ok true => .ok (.registeredKey,now 1)
  | .ok false => shownCredential deps now outside r user

def initiateClaim (r : InitiateBody) : Option RePairInitiate :=
  match hexToBytes r.newIrkPub,hexToBytes r.oldIrkPub with
  | some newIrkPub,some oldIrkPub => some ⟨r.username,newIrkPub,oldIrkPub,r.issuedAt⟩
  | _,_ => none

/-- From the read of the account's row to the next storage call. -/
def checkInitiate (now : Nat → Int) (outside : Elsewhere) (r : InitiateBody) :
    Option UsernameRecord → Progress
  | none => .answered (.notFound "unknown username")
  | some user =>
    if toLowercase user.irkPubHex ≠ toLowercase r.oldIrkPub then
      .answered (.forbidden "oldIrkPub does not match the current registered IRK")
    else if toLowercase user.irkPubHex = toLowercase r.newIrkPub then
      .answered (.malformed "newIrkPub equals current IRK")
    else match initiateClaim r,hexToBytes r.signature with
    | some claim,some sig =>
      if Checks.verifyRePairInitiate claim sig claim.newIrkPub then
        match credentialUsed deps now outside r claim user with
        | .error answer => .answered answer
        | .ok (method,checkedAt) =>
          let cleared : Cleared := ⟨r,user,outside.fetchTokenHashHex,checkedAt,method⟩
          if method = .recoveryCode then .consumeRead cleared ((shownCode r user).getD []) 0
          else .initiatePending cleared
      else .answered (.forbidden "invalid signature")
    | _,_ => .answered (.malformed "invalid hex")

/-- From a read of the account's row in `consumeRecoveryCode`. -/
def consumeCode (cleared : Cleared) (code : Text) (attempt : Nat) : Option UsernameRecord → Progress
  | none => .answered (.recoveryCodeConsumed "unknown username")
  | some user => match present user.recoveryCodesHashesJson with
    | none => .answered (.recoveryCodeConsumed "no recovery codes")
    | some json => match Checks.withoutCode code json with
      | none => .answered (.recoveryCodeConsumed "code did not match")
      | some newJson => .consumeCas cleared code attempt json newJson

/-- After the conditional update: four tries in all. -/
def consumed (cleared : Cleared) (code : Text) (attempt : Nat) (ok : Bool) : Progress :=
  if ok then .initiatePending cleared
  else if attempt + 1 < 4 then .consumeRead cleared code (attempt + 1)
  else .answered (.recoveryCodeConsumed "concurrent contention")

/-- The row an initiate inserts, from two readings of the clock. -/
def newRow (cleared : Cleared) (first second : Int) : PendingRePair where
  attempt := 0
  newIrkPubHex := cleared.body.newIrkPub
  oldIrkPubHex := cleared.body.oldIrkPub
  initiatedAt := first
  completesAt := second + deps.grace cleared.user
  objectedAt := none
  completingAt := none
  vetoedByHex := none
  vetoSignatureHex := none
  graceSeconds := deps.grace cleared.user / 1000
  totpRequired := decide (cleared.user.accountType = some .multi)
  totpProofConsumed := true
  alertsFiredBitmap := 1
  offlineAlertMs := some (12 * 60 * 60000)
  proof := some
    { issuedAt := cleared.body.issuedAt
      newIrkSignature := cleared.body.signature
      oldIrkSignature :=
        if cleared.method = .registeredKey then cleared.body.oldIrkSignature else none }

/-- A row that an initiate sweeps: cancelled, or past its completion window. -/
def dead (now : Int) (row : PendingRePair) : Bool :=
  row.objectedAt.isSome || decide (row.completesAt + deps.completeWindow ≤ now)

/-- From the read of the pending row: a dead one is swept first. -/
def sweepOrInsert (now : Nat → Int) (cleared : Cleared) (existing : Option PendingRePair) :
    Progress :=
  match existing with
  | none => .initiateInsert cleared (newRow deps cleared (now 1) (now 2))
  | some row =>
    if dead deps (now 1) row then .initiateSweep cleared row
    else .initiateInsert cleared (newRow deps cleared (now 2) (now 3))

def initiateAnswer (now : Int) (cleared : Cleared) : Answer :=
  .initiated (now + deps.grace cleared.user) (deps.grace cleared.user)
    (cleared.user.accountType.getD .single) (decide (cleared.user.accountType = some .multi))
    deps.quarantine cleared.method

def startVeto (now : Nat → Int) : Option VetoBody → Progress
  | none => .answered (.malformed "malformed body")
  | some r =>
    if toLowercase r.username ≠ account then .answered (.forbidden "username / url mismatch")
    else if deps.stale (now 0) r.issuedAt then .answered (.forbidden "stale request")
    else .vetoPending r

/-- Whether a veto names the attempt of a row. -/
def namesAttempt (r : VetoBody) (pending : PendingRePair) : Bool :=
  toLowercase pending.newIrkPubHex == toLowercase r.newIrkPub &&
    decide ((pending.initiatedAt : Rat) = r.initiatedAt) &&
    decide ((pending.completesAt : Rat) = r.completesAt)

def matchVeto (r : VetoBody) : Option PendingRePair → Progress
  | none => .answered (.notFound "no pending re-pair")
  | some pending =>
    if namesAttempt r pending then .vetoUser r pending
    else .answered (.conflict "the veto names a different recovery attempt")

def vetoClaim (r : VetoBody) : Option RePairVeto :=
  match hexToBytes r.newIrkPub,hexToBytes r.vetoerPub with
  | some newIrkPub,some vetoerPub =>
    some ⟨r.username,newIrkPub,r.initiatedAt,r.completesAt,vetoerPub,r.issuedAt⟩
  | _,_ => none

/-- From the read of the account's row in a veto. -/
def checkVeto (now : Nat → Int) (r : VetoBody) (pending : PendingRePair)
    (user : Option UsernameRecord) : Progress :=
  match present ((user.bind (·.adminRootPubHex)).map toLowercase) with
  | none => .answered (.forbidden "this account has no pinned admin key to veto with")
  | some adminPin =>
    if toLowercase r.vetoerPub ≠ adminPin then
      .answered (.forbidden "only an active admin can veto a recovery")
    else match vetoClaim r,hexToBytes r.signature with
    | some claim,some sig =>
      if Checks.verifyRePairVeto claim sig then .vetoStore r pending (now 1)
      else .answered (.forbidden "invalid signature")
    | _,_ => .answered (.malformed "invalid hex")

def startObject (now : Nat → Int) : Option ObjectBody → Progress
  | none => .answered (.malformed "malformed body")
  | some r =>
    if toLowercase r.username ≠ account then .answered (.forbidden "username / url mismatch")
    else if deps.stale (now 0) r.issuedAt then .answered (.forbidden "stale request")
    else .objectPending r

def checkObject (now : Nat → Int) (r : ObjectBody) : Option PendingRePair → Progress
  | none => .answered (.notFound "no pending re-pair")
  | some pending =>
    if toLowercase pending.newIrkPubHex ≠ toLowercase r.newIrkPub then
      .answered (.conflict "newIrkPub does not match the pending re-pair")
    else match hexToBytes r.newIrkPub,hexToBytes r.signature with
    | some newIrkPub,some sig =>
      if Checks.verifyRePairObject ⟨r.username,newIrkPub,r.issuedAt⟩ sig newIrkPub then
        .objectStore r pending (now 1)
      else .answered (.forbidden "invalid signature")
    | _,_ => .answered (.malformed "invalid hex")

/-- Whether the row lets a completion go on at the readings of the clock. -/
def completable (now : Nat → Int) (r : CompleteBody) (pending : PendingRePair) : Progress :=
  match pending.objectedAt.filter (· != 0) with
  | some objectedAt => .answered (.cancelled (present pending.vetoedByHex).isSome objectedAt)
  | none =>
    if now 2 < pending.completesAt then
      .answered (.tooEarly pending.completesAt ((pending.completesAt - now 3 + 999) / 1000))
    else if pending.completesAt + deps.completeWindow ≤ now 3 then .completeExpire pending
    else .completeUser r pending

/-- From the read of the pending row in a completion. -/
def checkComplete (now : Nat → Int) (body : Option CompleteBody) : Option PendingRePair → Progress
  | none => .answered (.notFound "no pending re-pair")
  | some pending => match body with
    | none => .answered .signatureRequired
    | some r =>
      if toLowercase r.username ≠ account then .answered (.forbidden "username / url mismatch")
      else if deps.stale (now 1) r.issuedAt then .answered (.forbidden "stale request")
      else if toLowercase r.newIrkPub ≠ toLowercase pending.newIrkPubHex then
        .answered (.forbidden "newIrkPub does not match the pending re-pair")
      else match hexToBytes r.newIrkPub,hexToBytes r.signature with
      | some newIrkPub,some sig =>
        if Checks.verifyRePairComplete ⟨r.username,newIrkPub,r.issuedAt⟩ sig newIrkPub then
          completable deps now r pending
        else .answered (.forbidden "invalid signature")
      | _,_ => .answered (.malformed "invalid hex")

/-- From the read of the account's row in a completion: refreshed grants are
checked before the claim. -/
def checkGrants (now : Nat → Int) (outside : Elsewhere) (r : CompleteBody) (pending : PendingRePair)
    (user : Option UsernameRecord) : Progress :=
  let policy := (user.bind (·.recoveryWipePolicy)).getD .graceful
  if policy = .graceful && r.refreshes && deps.deviceCapabilityGrants then
    match hexToBytes pending.newIrkPubHex,outside.grantsRefused with
    | none,_ => .answered (.grantsRefused 500 "pending row has invalid newIrkPubHex")
    | some _,some (status,error) => .answered (.grantsRefused status error)
    | some _,none => .completeClaim pending policy true (now 1)
  else .completeClaim pending policy false (now 1)

/-- After the swap. -/
def afterSwap (outside : Elsewhere) (pending : PendingRePair) (policy : RecoveryWipePolicy)
    (refreshes : Bool) : Progress :=
  match outside.grantNotStored with
  | some (grantId,reason) =>
    if refreshes then .answered (.grantNotStored grantId reason) else .completeDelete pending policy
  | none => .completeDelete pending policy

def accept (now : Nat → Int) (outside : Elsewhere) : Request → Progress
  | .initiate body => startInitiate deps account now outside body
  | .veto body => startVeto deps account now body
  | .object body => startObject deps account now body
  | .complete body => .completePending body

/-- The storage call a request stands before, and the code up to the next. -/
def advance (now : Nat → Int) (outside : Elsewhere) (p : Progress) (t : Tables) :
    Progress × Tables × List Event :=
  match p with
  | .initiateUser r => (checkInitiate deps now outside r t.user,t,[])
  | .consumeRead cleared code attempt => (consumeCode cleared code attempt t.user,t,[])
  | .consumeCas cleared code attempt currentJson newJson =>
    let (ok,t) := t.casRecoveryCodes currentJson newJson
    (consumed cleared code attempt ok,t,[])
  | .initiatePending cleared => (sweepOrInsert deps now cleared t.pending,t,[])
  | .initiateSweep cleared _ =>
    (.initiateInsert cleared (newRow deps cleared (now 1) (now 2)),t.delete,[])
  | .initiateInsert cleared rec => match t.initiate rec with
    | (true,t) =>
      (.answered (initiateAnswer deps (now 1) cleared),t,t.pending.toList.map (.initiated cleared))
    | (false,t) => (.answered (.conflict "re-pair already pending"),t,[])
  | .vetoPending r => (matchVeto r t.pending,t,[])
  | .vetoUser r pending => (checkVeto now r pending t.user,t,[])
  | .vetoStore r pending stamp => match t.veto stamp (toLowercase r.vetoerPub) r.signature with
    | (true,t') => (.answered .vetoed,t',t.pending.toList.map (.vetoed r pending))
    | (false,t) =>
      (.answered (.conflict "this recovery was already cancelled or completed"),t,[])
  | .objectPending r => (checkObject now r t.pending,t,[])
  | .objectStore r pending stamp => match t.object stamp with
    | (true,t') => (.answered .objected,t',[.objected r pending t.pending])
    | (false,t) => (.answered .objected,t,[.objected r pending none])
  | .completePending body => (checkComplete deps account now body t.pending,t,[])
  | .completeExpire pending =>
    (.answered (.expired pending.completesAt (pending.completesAt + deps.completeWindow)),t.delete,[])
  | .completeUser r pending => (checkGrants deps now outside r pending t.user,t,[])
  | .completeClaim pending policy refreshes stamp => match t.claimCompletion stamp with
    | (true,t) => (.completeSwap pending policy refreshes (now 1),t,[])
    | (false,t) => (.completeRefused,t,[])
  | .completeRefused =>
    (.answered (.notCompletable (t.pending.any fun row => (present row.vetoedByHex).isSome)
      (t.pending.bind fun row => row.objectedAt.filter (· != 0))),t,[])
  | .completeSwap pending policy refreshes stamp =>
    match t.swapIrkPub pending.oldIrkPubHex pending.newIrkPubHex stamp with
    | (true,t') =>
      (afterSwap outside pending policy refreshes,t',
        t.user.toList.map fun user => .swapped pending user.irkPubHex pending.newIrkPubHex (now 0))
    | (false,t) => (.completeDrop pending,t,[])
  | .completeDrop _ =>
    (.answered (.conflict "username's current IRK no longer matches the pending old IRK"),t.delete,[])
  | .completeDelete pending policy =>
    (.answered (.completed pending.newIrkPubHex (now 1) (now 2 + deps.quarantine) policy),t.delete,[])
  | .answered answer => (.answered answer,t,[])

/-- The four re-pair handlers of one account. -/
def handlers : Handlers Tables Event Progress Request Elsewhere :=
  ⟨accept deps account,advance deps account⟩

end

section
variable [Lowercase] [Checks] (deps : RePairDeps)

/-- The credential an initiate was let through with is one the account has, and
it was verified. -/
def Cleared.Verified (c : Cleared) : Prop :=
  match c.method with
  | .registeredKey => ∃ claim s sig pub,initiateClaim c.body = some claim ∧
      present c.body.oldIrkSignature = some s ∧ hexToBytes s = some sig ∧
      hexToBytes c.user.irkPubHex = some pub ∧ Checks.verifyRePairInitiate claim sig pub = true
  | .recoveryCredential => ∃ secret hash token,
      recoveryCredential deps c.user c.fetchTokenHashHex = some (secret,hash) ∧
      c.body.recoveryProof = some token ∧
      Checks.verifyRecoveryProof token c.body.username hash secret c.checkedAt = none
  | .totp => ∃ code kek,shownCode c.body c.user = some code ∧ present deps.totpKekHex = some kek ∧
      Checks.validateTotpCode code c.user.totpSecretEncrypted c.user.recoveryCodesHashesJson kek
        c.checkedAt = some .totp
  | .recoveryCode => ∃ code kek,shownCode c.body c.user = some code ∧
      present deps.totpKekHex = some kek ∧
      Checks.validateTotpCode code c.user.totpSecretEncrypted c.user.recoveryCodesHashesJson kek
        c.checkedAt = some .recovery

/-- What earns a swap of the key: an accepted initiate that named both keys with
a verified credential, whose wait is over and whose window is not, and which
nobody's accepted veto or objection cancelled. -/
def Earned (before : List Event) (old new : Text) (time : Int) : Prop :=
  ∃ c row,.initiated c row ∈ before ∧ sqlLower c.body.oldIrkPub = sqlLower old ∧
    c.body.newIrkPub = new ∧ c.Verified deps ∧
    row.initiatedAt + deps.grace c.user ≤ row.completesAt ∧ row.completesAt ≤ time ∧
    time < row.completesAt + deps.completeWindow ∧
    (∀ r pending marked,.vetoed r pending marked ∈ before → pending.attempt ≠ row.attempt) ∧
    ∀ r pending marked,.objected r pending marked ∈ before → pending.attempt ≠ row.attempt

def SwapEarned (before : List Event) : Event → Prop
  | .swapped _ old new time => Earned deps before old new time
  | _ => True

/-- Every swap so far was earned when it took place. -/
def SwapsEarned (history : List Event) : Prop := Each (SwapEarned deps) history

/-- A completion of the attempt stands between its claim and its swap. -/
def claimedFor (attempt : Nat) : Progress → Bool
  | .completeSwap pending _ _ _ => pending.attempt == attempt
  | _ => false

/-- Nobody's completion of the attempt stands between its claim and its swap. -/
def unclaimed (w : Served Tables Event Progress) (attempt : Nat) : Bool :=
  w.requests.all fun p => !claimedFor attempt p

/-- A move that keeps the attempts apart: a completion claims no other row than
the one it read and swaps before that row's window is over, and no veto or
objection is accepted while a completion of the attempt it read is past its
claim. -/
def keepsApart (w : Served Tables Event Progress) : Move Request Elsewhere → Bool
  | .receive _ _ _ => true
  | .resume i ticks _ => match w.requests[i]? with
    | some (.completeClaim pending _ _ _) =>
      w.shared.tables.pending.all fun row => !row.isOpen || row.attempt == pending.attempt
    | some (.completeSwap pending _ _ _) =>
      w.shared.tables.user.all fun user =>
        sqlLower user.irkPubHex != sqlLower pending.oldIrkPubHex ||
          decide (reading w.shared.clock ticks 0 < pending.completesAt + deps.completeWindow)
    | some (.vetoStore _ pending _) =>
      w.shared.tables.pending.all fun row => !row.isOpen || unclaimed w pending.attempt
    | some (.objectStore _ pending _) => unclaimed w pending.attempt
    | _ => true

/-- What may have become of an accepted attempt since: its row is stored and not
cancelled, its completion swapped the key, a veto or an objection that names it
cancelled its row, or its window is over. -/
def Standing (s : Shared Tables Event) (since : List Event) (row : PendingRePair) : Prop :=
  (∃ stored,s.tables.pending = some stored ∧ stored.attempt = row.attempt ∧
    stored.objectedAt = none) ∨
  (∃ pending old new time,.swapped pending old new time ∈ since ∧ pending.attempt = row.attempt) ∨
  (∃ r pending marked,.vetoed r pending marked ∈ since ∧ marked.attempt = row.attempt ∧
    namesAttempt r row = true) ∨
  (∃ r pending marked,.objected r pending (some marked) ∈ since ∧ marked.attempt = row.attempt ∧
    toLowercase row.newIrkPubHex = toLowercase r.newIrkPub) ∨
  row.completesAt + deps.completeWindow ≤ s.clock

/-- No attempt accepted so far was displaced. -/
def NoneDisplaced (s : Shared Tables Event) : Prop :=
  ∀ before c row since,s.history = before ++ .initiated c row :: since → Standing deps s since row

/-- The requests that end by removing whatever row is stored. -/
def removes : Progress → Bool
  | .initiateSweep _ _ => true
  | .completeExpire _ => true
  | .completeDrop _ => true
  | .completeDelete _ _ => true
  | _ => false

/-- A row that a delete of a request may remove: a dead one, or the one whose key
the request has swapped in. -/
def mayRemove (now : Int) (row : PendingRePair) : Progress → Bool
  | .completeDelete pending _ => dead deps now row || row.attempt == pending.attempt
  | _ => dead deps now row

/-- A move that finds under the account's name the row it is meant for: no delete
finds a live row, and no veto or objection an open row it does not name. -/
def findsItsRow (w : Served Tables Event Progress) : Move Request Elsewhere → Bool
  | .receive _ _ _ => true
  | .resume i ticks _ => match w.requests[i]? with
    | some (.vetoStore r _ _) =>
      w.shared.tables.pending.all fun row => !row.isOpen || namesAttempt r row
    | some (.objectStore r _ _) =>
      w.shared.tables.pending.all fun row =>
        !row.isOpen || toLowercase row.newIrkPubHex == toLowercase r.newIrkPub
    | some p =>
      !removes p || w.shared.tables.pending.all fun row =>
        mayRemove deps (reading w.shared.clock ticks 0) row p
    | none => true

/-- No request has been served yet. -/
def fresh (user : Option UsernameRecord) (clock : Int) : Served Tables Event Progress :=
  ⟨⟨⟨user,none,0⟩,clock,[]⟩,[]⟩

end
end Flagship.Recovery

import Flagship.Lib.Interleave
import Flagship.Lib.OrdMap
import Flagship.Lib.Text

namespace Flagship.Control
open Lib

def verifyLimit : Nat := 5
def verifyWindowMs : Int := 15 * 60000

structure VerifyAttempts where
  windowStart : Int
  count : Nat
  lastAlertAt : Option Int
  deriving DecidableEq

abbrev AttemptStore := OrdMap Text VerifyAttempts

structure RecordedAttempt where
  count : Nat
  windowStart : Int
  remaining : Nat
  deriving DecidableEq

structure PeekedAttempts where
  count : Nat
  windowStart : Int
  tripped : Bool
  deriving DecidableEq

section
variable [Lowercase]

/-- The attempts of the window that is not over yet. -/
def activeAttempts (store : AttemptStore) (username : Text) (now : Int) : Option VerifyAttempts :=
  (store.get? (toLowercase username)).filter fun a => decide (now - a.windowStart < verifyWindowMs)

/-- Tick the verify counter. -/
def recordVerifyAttempt (store : AttemptStore) (username : Text) (now : Int) :
    AttemptStore × RecordedAttempt :=
  match activeAttempts store username now with
  | none =>
    (store.set (toLowercase username) ⟨now,1,none⟩,⟨1,now,verifyLimit - 1⟩)
  | some existing =>
    let existing := { existing with count := existing.count + 1 }
    (store.set (toLowercase username) existing,
      ⟨existing.count,existing.windowStart,verifyLimit - existing.count⟩)

/-- Claim the alert slot for this window, once. -/
def claimFailedRateAlertSlot (store : AttemptStore) (username : Text) (now : Int) :
    AttemptStore × Bool :=
  match activeAttempts store username now with
  | none => (store,false)
  | some existing =>
    if existing.count < verifyLimit then (store,false)
    -- A time of zero counts as none.
    else if existing.lastAlertAt.any (fun l => decide (l ≠ 0 ∧ existing.windowStart ≤ l)) then
      (store,false)
    else (store.set (toLowercase username) { existing with lastAlertAt := some now },true)

def peekVerifyAttempts (store : AttemptStore) (username : Text) (now : Int) : PeekedAttempts :=
  match activeAttempts store username now with
  | none => ⟨0,now,false⟩
  | some existing => ⟨existing.count,existing.windowStart,decide (verifyLimit ≤ existing.count)⟩

end

inductive TotpMethod
  | totp | recovery
  deriving DecidableEq

/-- What the account's row has for checking a code. -/
structure TotpUser where
  totpSecretEncrypted : Option Text
  recoveryCodesHashesJson : Option Text
  deriving DecidableEq

/-- The key of the secrets, where one is configured, and the check of a code at a time: the way
in which it is valid, if it is. -/
structure TotpDeps where
  kekHex : Option Text
  validateTotpCode : Text → TotpUser → Text → Int → Option TotpMethod

/-- The code is none where the body has no text for it. -/
structure VerifyRequest where
  username : Text
  code : Option Text
  deriving DecidableEq

inductive VerifyAnswer
  | notConfigured
  | tooMany (retryAfterMs retryAfterSec : Int)
  | malformed (reason : String)
  | notFound (reason : String)
  | invalid (remainingAttempts : Nat)
  | valid (method : TotpMethod)
  deriving DecidableEq

def VerifyAnswer.status : VerifyAnswer → Nat
  | .notConfigured => 503
  | .tooMany _ _ => 429
  | .malformed _ => 400
  | .notFound _ => 404
  | .invalid _ => 401
  | .valid _ => 200

inductive VerifyProgress
  | arrived (request : VerifyRequest)
  /-- At the read of the account's row, with the reading of the clock taken before it. -/
  | readsUser (username code kek : Text) (t : Int)
  /-- At the check of the code. -/
  | checks (username code kek : Text) (t : Int) (user : TotpUser)
  /-- At the alert, after a wrong code was counted. -/
  | alerts (remaining : Nat)
  | answered (answer : VerifyAnswer)
  /-- A call it waited for failed. -/
  | failed
  deriving DecidableEq

/-- What a request meets when it goes on: whether the call it waited for fails, and the account's
row. -/
structure VerifyOutside where
  rejects : Bool
  userRec : Option TotpUser

/-- A wrong code as it was counted: by which reading of the clock, at what time, and as which of
its window. -/
structure CountedCode where
  key : Text
  reading : Int
  «at» : Int
  count : Nat
  deriving DecidableEq

section
variable [Lowercase]

/-- Up to the read of the account's row. -/
def startVerify (deps : TotpDeps) (store : AttemptStore) (r : VerifyRequest) (t : Int) :
    VerifyProgress :=
  match deps.kekHex with
  | none | some [] => .answered .notConfigured
  | some kek =>
    let peek := peekVerifyAttempts store r.username t
    if peek.tripped then
      let retryAfterMs := max 0 (verifyWindowMs - (t - peek.windowStart))
      .answered (.tooMany retryAfterMs ((retryAfterMs + 999) / 1000))
    else match r.code with
      | none | some [] => .answered (.malformed "malformed body")
      | some code => .readsUser r.username code kek t

/-- A wrong code is counted, and the alert's slot claimed if it is due. -/
def countWrong (store : AttemptStore) (username : Text) (t now : Int) :
    VerifyProgress × AttemptStore × List CountedCode :=
  let (store,post) := recordVerifyAttempt store username t
  (.alerts post.remaining,(claimFailedRateAlertSlot store username t).1,
    [⟨toLowercase username,t,now,post.count⟩])

/-- `handleTotpVerify` from one await to the next. -/
def advanceVerify (deps : TotpDeps) (now : Int) (outside : VerifyOutside) (store : AttemptStore) :
    VerifyProgress → VerifyProgress × AttemptStore × List CountedCode
  | .arrived r => (startVerify deps store r now,store,[])
  | .readsUser username code kek t =>
    if outside.rejects then (.failed,store,[])
    else match outside.userRec with
      | none => (.answered (.notFound "unknown username"),store,[])
      | some user => (.checks username code kek t user,store,[])
  | .checks username code kek t user =>
    if outside.rejects then (.failed,store,[])
    else match deps.validateTotpCode code user kek t with
      | none => countWrong store username t now
      | some method => (.answered (.valid method),store,[])
  | .alerts remaining =>
    if outside.rejects then (.failed,store,[]) else (.answered (.invalid remaining),store,[])
  | .answered answer => (.answered answer,store,[])
  | .failed => (.failed,store,[])

def handleTotpVerify (deps : TotpDeps) :
    Handlers AttemptStore CountedCode VerifyProgress VerifyRequest VerifyOutside where
  accept := fun _ _ r => .arrived r
  advance := fun clock outside p store => advanceVerify deps (clock 0) outside store p

/-- No wrong code is counted while the window's count stands at the limit. -/
def countsBelowLimit (deps : TotpDeps) (w : Served AttemptStore CountedCode VerifyProgress) :
    Move VerifyRequest VerifyOutside → Bool
  | .receive _ _ _ => true
  | .resume i ticks outside =>
    match w.requests[i]? with
    | some (.checks username code kek t user) =>
      outside.rejects || (deps.validateTotpCode code user kek t).isSome ||
        !(peekVerifyAttempts w.shared.tables username (reading w.shared.clock ticks 0)).tripped
    | _ => true

end
end Flagship.Control

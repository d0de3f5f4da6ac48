import Mathlib.Algebra.Order.Ring.Rat
import Flagship.Lib.Interleave
import Flagship.Control.Directory

namespace Flagship.Control
open Lib

/-- A row of `routing`. -/
structure RoutingRecord where
  username : Text
  rckPubKeyHex : Text
  currentTargetHex : Text
  registeredAt : Int
  lastTargetUpdate : Int
  lastTargetNonce : Text
  deriving DecidableEq

/-- A row of `server_transfers`, up to the columns of the later handoffs. -/
structure ServerTransferRecord where
  giverUsername : Text
  transferNonce : Text
  giverIrkPubHex : Text
  issuedAt : Rat
  expiresAt : Int
  offerSignatureHex : Text
  claimedAt : Option Int
  acquirerUsername : Option Text
  acquirerIrkPubHex : Option Text
  acquirerAdminRootPubHex : Option Text
  claimIssuedAt : Option Rat
  claimSignatureHex : Option Text
  deriving DecidableEq

/-- What the handlers read of a row of `usernames`. -/
structure AccountRecord where
  irkPubHex : Text
  adminRootPubHex : Option Text
  isDemo : Bool
  deriving DecidableEq

structure TransferTables where
  servers : Directory
  routing : Text → Option RoutingRecord
  transfers : Text → Option ServerTransferRecord

structure TransferConfig where
  apex : Text
  maxAgeMs : Int
  offerTtlMs : Int

def defaultTransferConfig : TransferConfig :=
  ⟨"flagship.services".toList,5 * 60000,15 * 60000⟩

/-- A mailbox credential with the fields it must have. -/
structure MailboxAuth where
  username : Text
  phoneIrkPub : Text
  issuedAt : Rat
  expiresAt : Rat
  nonce : Text
  authSignature : Text
  deriving DecidableEq

structure OfferFields where
  serverDomain : Text
  transferNonce : Text
  issuedAt : Rat
  offerSignature : Text
  deriving DecidableEq

structure ClaimFields where
  serverDomain : Text
  transferNonce : Text
  acquirerUsername : Text
  acquirerIrkPub : Text
  acquirerAdminRootPub : Text
  issuedAt : Rat
  claimSignature : Text
  deriving DecidableEq

inductive TransferRequest
  | offer (host : Text) (auth : Option MailboxAuth) (offer : Option OfferFields)
  | claim (host : Text) (claim : Option ClaimFields)

/-- A claim past the reading of its body. -/
structure Claim where
  host : Text
  transferNonce : Text
  acquirer : Text
  acquirerIrkPub : Text
  acquirerAdminRootPub : Text
  issuedAt : Rat
  claimSignature : Text
  deriving DecidableEq

inductive TransferAnswer
  | malformed (reason : String)
  | forbidden (reason : String)
  | notFound (reason : String)
  | gone (reason : String)
  | addServerRefused
  | offered (expiresAt : Int)
  | claimed (newServerDomain : Option Text) (routingError : Bool)
  deriving DecidableEq

def TransferAnswer.status : TransferAnswer → Nat
  | .malformed _ => 400
  | .forbidden _ => 403
  | .notFound _ => 404
  | .gone _ => 410
  | .addServerRefused => 403
  | .offered _ => 200
  | .claimed _ _ => 200

/-- The labels of `<server>.<user>.<apex>`. -/
structure PodLabels where
  server : Text
  user : Text
  deriving DecidableEq

def labelChar (c : Char) : Bool := c.isDigit || decide ('a' ≤ c ∧ c ≤ 'z') || c == '-'

/-- `^[a-z0-9-]{1,63}$` -/
def serverLabel (s : Text) : Bool :=
  decide (1 ≤ s.length ∧ s.length ≤ 63) && s.all labelChar

/-- `^[a-z0-9][a-z0-9-]{1,28}[a-z0-9]$` -/
def userLabel (s : Text) : Bool :=
  decide (3 ≤ s.length ∧ s.length ≤ 30) && s.all labelChar && s.head? != some '-' &&
    s.getLast? != some '-'

/-- A box that is being moved from one name to another. -/
structure Moving where
  claim : Claim
  /-- The directory row as the claim read it. -/
  reg : ServerRecord
  labels : PodLabels
  newDomain : Text
  deriving DecidableEq

def Moving.oldSubdomain (m : Moving) : Text := m.labels.server ++ '.' :: m.labels.user

def Moving.newSubdomain (m : Moving) : Text := m.labels.server ++ '.' :: m.claim.acquirer

/-- A request before its next storage call, with what it has read so far. -/
inductive TransferProgress
  | mailboxUser (host : Text) (auth : MailboxAuth) (offer : Option OfferFields)
  | offerServer (host : Text) (username : Text) (offer : OfferFields)
  | owner (host : Text) (username : Text) (offer : OfferFields)
  | putOffer (host : Text) (rec : ServerTransferRecord)
  /-- `getOffer`, and its delete of an expired offer. -/
  | getOffer (c : Claim) (time : Int)
  | collect (c : Claim)
  | server (c : Claim) (offer : ServerTransferRecord)
  | acquirer (c : Claim) (reg : ServerRecord)
  /-- The two calls of `claim`. -/
  | claimRead (c : Claim) (reg : ServerRecord) (acquirerIrkPubHex : Text) (time : Int)
  | claimWrite (c : Claim) (reg : ServerRecord) (acquirerIrkPubHex : Text) (time : Int)
  | put (m : Moving)
  | revoke (m : Moving) (time : Int)
  | routing (m : Moving) (error : Bool)
  /-- The two calls of `register`. -/
  | registerRead (m : Moving) (old : RoutingRecord) (time : Int) (error : Bool)
  | registerWrite (m : Moving) (old : RoutingRecord) (time : Int) (error : Bool)
  | release (m : Moving) (error : Bool)
  | answered (claim : Option Claim) (answer : TransferAnswer)
  /-- A request that stopped or threw, and the claim it had recorded by then. -/
  | stopped (recorded : Option Claim)
  deriving DecidableEq

/-- What a storage call brings besides the tables: how it goes, the account it
looks up, and what the signature check made with that account says. -/
structure TransferElsewhere where
  outcome : Outcome
  account : Option AccountRecord
  authorized : Bool

inductive TransferEvent
  /-- A claim is recorded on the stored offer. -/
  | recorded (c : Claim) (offer : ServerTransferRecord) (reg : ServerRecord)
  /-- The box is put under the acquirer's name. -/
  | moved (m : Moving)
  deriving DecidableEq

section
variable [Lowercase]

def splitPodCanonical (domain apex : Text) : Option PodLabels :=
  let lower := toLowercase domain
  let suffix := '.' :: toLowercase apex
  if !suffix.isSuffixOf lower then none
  else match (lower.take (lower.length - suffix.length)).splitOn '.' with
  | [server,user] => if serverLabel server && userLabel user then some ⟨server,user⟩ else none
  | _ => none

variable (cfg : TransferConfig)

/-- The name of the box under its acquirer. -/
def newDomain (labels : PodLabels) (acquirer : Text) : Text :=
  labels.server ++ '.' :: acquirer ++ '.' :: cfg.apex

/-- `authPhoneMailbox` up to its lookup of the account. -/
def startOffer (now : Nat → Int) (host : Text) (auth : Option MailboxAuth)
    (offer : Option OfferFields) : TransferProgress :=
  match auth with
  | none => .answered none (.malformed "malformed mailbox auth")
  | some a =>
    if !lowerHexDigits 64 (toLowercase a.phoneIrkPub) then
      .answered none (.malformed "phoneIrkPub must be 32 bytes hex")
    else if !lowerHexDigits 64 (toLowercase a.nonce) then
      .answered none (.malformed "auth nonce must be 32 bytes hex")
    else if !lowerHexDigits 128 (toLowercase a.authSignature) then
      .answered none (.malformed "authSignature must be 64 bytes hex")
    else if (cfg.maxAgeMs : Rat) < |(now 0 : Rat) - a.issuedAt| then
      .answered none (.forbidden "stale mailbox auth")
    else if a.expiresAt ≤ (now 1 : Rat) then .answered none (.forbidden "mailbox auth expired")
    else .mailboxUser host a offer

/-- From the lookup of the account to the read of the directory. -/
def checkOffer (now : Nat → Int) (outside : TransferElsewhere) (host : Text) (a : MailboxAuth)
    (offer : Option OfferFields) : TransferProgress :=
  match outside.account with
  | none => .answered none (.notFound "unknown user")
  | some account =>
    if !equalHex a.phoneIrkPub account.irkPubHex then
      .answered none (.forbidden "phoneIrkPub does not match account IRK")
    else if (hexToBytes a.phoneIrkPub).isNone || (hexToBytes a.nonce).isNone ||
        (hexToBytes a.authSignature).isNone then .answered none (.malformed "invalid hex")
    else if !outside.authorized then
      .answered none (.forbidden "invalid mailbox auth signature")
    else match offer with
    | none => .answered none (.malformed "malformed offer")
    | some o =>
      if o.serverDomain ≠ host then .answered none (.forbidden "serverDomain / host mismatch")
      else if !lowerHexDigits 64 (toLowercase o.transferNonce) then
        .answered none (.malformed "transferNonce must be 32 bytes hex")
      else if !lowerHexDigits 128 (toLowercase o.offerSignature) then
        .answered none (.malformed "offerSignature must be 64 bytes hex")
      else if (cfg.maxAgeMs : Rat) < |(now 1 : Rat) - o.issuedAt| then
        .answered none (.forbidden "stale offer")
      else .offerServer host (toLowercase a.username) o

/-- From the read of the directory to the lookup of the owner. -/
def checkOwned (host username : Text) (o : OfferFields) (reg : Option ServerRecord) :
    TransferProgress :=
  match reg with
  | none => .answered none (.notFound "unknown server")
  | some reg =>
    if reg.revoked then .answered none (.forbidden "server is revoked")
    else if toLowercase reg.username ≠ username then
      .answered none (.forbidden "server belongs to a different account")
    else .owner host username o

/-- From the lookup of the owner to the write of the offer. -/
def checkOwner (now : Nat → Int) (outside : TransferElsewhere) (host username : Text)
    (o : OfferFields) : TransferProgress :=
  match outside.account with
  | none => .answered none (.notFound "unknown owner")
  | some owner =>
    if (hexToBytes o.offerSignature).isNone then .answered none (.malformed "invalid hex")
    else if !outside.authorized then .answered none (.forbidden "invalid offer signature")
    else .putOffer host
      { giverUsername := username
        transferNonce := toLowercase o.transferNonce
        giverIrkPubHex := toLowercase owner.irkPubHex
        issuedAt := o.issuedAt
        expiresAt := now 1 + cfg.offerTtlMs
        offerSignatureHex := toLowercase o.offerSignature
        claimedAt := none
        acquirerUsername := none
        acquirerIrkPubHex := none
        acquirerAdminRootPubHex := none
        claimIssuedAt := none
        claimSignatureHex := none }

def startClaim (now : Nat → Int) (host : Text) : Option ClaimFields → TransferProgress
  | none => .answered none (.malformed "malformed claim")
  | some c =>
    if c.serverDomain ≠ host then .answered none (.forbidden "serverDomain / host mismatch")
    else if !lowerHexDigits 64 (toLowercase c.transferNonce) then
      .answered none (.malformed "transferNonce must be 32 bytes hex")
    else if !lowerHexDigits 64 (toLowercase c.acquirerIrkPub) then
      .answered none (.malformed "acquirerIrkPub must be 32 bytes hex")
    else if !c.acquirerAdminRootPub.isEmpty &&
        !lowerHexDigits 64 (toLowercase c.acquirerAdminRootPub) then
      .answered none (.malformed "acquirerAdminRootPub must be empty or 32 bytes hex")
    else if !lowerHexDigits 128 (toLowercase c.claimSignature) then
      .answered none (.malformed "claimSignature must be 64 bytes hex")
    else if (cfg.maxAgeMs : Rat) < |(now 0 : Rat) - c.issuedAt| then
      .answered none (.forbidden "stale claim")
    else .getOffer ⟨host,toLowercase c.transferNonce,toLowercase c.acquirerUsername,
      c.acquirerIrkPub,toLowercase c.acquirerAdminRootPub,c.issuedAt,c.claimSignature⟩ (now 1)

/-- From the read of the offer on. -/
def checkLive (c : Claim) (time : Int) (offer : Option ServerTransferRecord) : TransferProgress :=
  match offer with
  | none => .answered (some c) (.notFound "no live transfer offer")
  | some offer =>
    if offer.claimedAt.isNone && decide (offer.expiresAt ≤ time) then .collect c
    else if offer.claimedAt.isSome then .answered (some c) (.gone "offer already claimed")
    else if offer.transferNonce ≠ c.transferNonce then
      .answered (some c) (.forbidden "transferNonce mismatch")
    else .server c offer

/-- From the read of the directory to the lookup of the acquirer. -/
def checkGiven (c : Claim) (offer : ServerTransferRecord) (reg : Option ServerRecord) :
    TransferProgress :=
  match reg with
  | none => .answered (some c) (.notFound "unknown server")
  | some reg =>
    if reg.revoked then .answered (some c) (.forbidden "server is revoked")
    else if toLowercase reg.username ≠ offer.giverUsername then
      .answered (some c) (.forbidden "server no longer owned by the offering account")
    else if c.acquirer = offer.giverUsername then
      .answered (some c) (.forbidden "cannot transfer a box to its current owner")
    else .acquirer c reg

/-- From the lookup of the acquirer to `claim`. -/
def checkAcquirer (now : Nat → Int) (outside : TransferElsewhere) (c : Claim)
    (reg : ServerRecord) : TransferProgress :=
  match outside.account with
  | none => .answered (some c) (.notFound "unknown acquirer account")
  | some account =>
    if !equalHex c.acquirerIrkPub account.irkPubHex then
      .answered (some c)
        (.forbidden "acquirerIrkPub does not match the acquirer's registered IRK")
    else if (hexToBytes c.claimSignature).isNone then
      .answered (some c) (.malformed "invalid hex")
    else if account.isDemo then
      if !outside.authorized then .answered (some c) (.forbidden "invalid claim signature")
      else .claimRead c reg (toLowercase account.irkPubHex) (now 1)
    else if (present account.adminRootPubHex).map toLowercase ≠ some c.acquirerAdminRootPub then
      .answered (some c) .addServerRefused
    else if !outside.authorized then .answered (some c) .addServerRefused
    else .claimRead c reg (toLowercase account.irkPubHex) (now 1)

/-- `claim` after its read. -/
def checkClaim (c : Claim) (reg : ServerRecord) (acquirerIrkPubHex : Text) (time : Int)
    (offer : Option ServerTransferRecord) : TransferProgress :=
  match offer with
  | none => .answered (some c) (.notFound "no live transfer offer")
  | some offer =>
    if offer.claimedAt.isSome then .answered (some c) (.gone "offer already claimed")
    else if offer.expiresAt ≤ time then .answered (some c) (.gone "offer expired")
    else if offer.transferNonce ≠ c.transferNonce then
      .answered (some c) (.forbidden "nonce mismatch")
    else .claimWrite c reg acquirerIrkPubHex time

/-- The offer with the claim on it. -/
def ServerTransferRecord.claim (offer : ServerTransferRecord) (c : Claim)
    (acquirerIrkPubHex : Text) (time : Int) : ServerTransferRecord :=
  { offer with
    claimedAt := some time
    acquirerUsername := some c.acquirer
    acquirerIrkPubHex := some acquirerIrkPubHex
    claimIssuedAt := some c.issuedAt
    claimSignatureHex := some (toLowercase c.claimSignature)
    acquirerAdminRootPubHex := some c.acquirerAdminRootPub }

/-- Where a claim that is recorded goes on: a name without the two labels, and
one that stays as it is, are not moved. -/
def startMove (c : Claim) (reg : ServerRecord) : TransferProgress :=
  match splitPodCanonical c.host cfg.apex with
  | none => .answered (some c) (.claimed none false)
  | some labels =>
    if newDomain cfg labels c.acquirer = c.host then
      .answered (some c) (.claimed (some c.host) false)
    else .put ⟨c,reg,labels,newDomain cfg labels c.acquirer⟩

/-- The delete of an offer, unless it is claimed by then. -/
def collectOffer (transfers : Text → Option ServerTransferRecord) (host : Text) :
    Text → Option ServerTransferRecord :=
  Function.update transfers host
    ((transfers host).filter fun offer => offer.claimedAt.isSome)

/-- The box under its new name, with the identity key it has. -/
def Moving.put (m : Moving) (servers : Directory) : Directory :=
  servers.put m.newDomain m.claim.acquirer m.reg.identityPubKeyHex m.reg.registeredAt

def Moving.answer (m : Moving) (error : Bool) : TransferProgress :=
  .answered (some m.claim) (.claimed (some m.newDomain) error)

/-- The write of `register`: it refuses another routing key. -/
def registerRouting (routing : Text → Option RoutingRecord) (m : Moving) (old : RoutingRecord)
    (time : Int) : Text → Option RoutingRecord :=
  match routing m.newSubdomain with
  | none => Function.update routing m.newSubdomain
      (some { old with username := m.claim.acquirer,lastTargetUpdate := time })
  | some existing =>
    if existing.rckPubKeyHex = old.rckPubKeyHex then
      Function.update routing m.newSubdomain
        (some { existing with username := m.claim.acquirer,registeredAt := old.registeredAt })
    else routing

/-- A call that throws, or a request that stops before it. -/
def TransferProgress.broken (p : TransferProgress) (outcome : Outcome) : TransferProgress :=
  match p,outcome with
  | .put m,.fails => .routing m true
  | .revoke m _,.fails => .routing m true
  | .routing m _,.fails => m.answer true
  | .registerRead m _ _ _,.fails => m.answer true
  | .registerWrite m _ _ _,.fails => m.answer true
  | .release m _,.fails => m.answer true
  | .put m,_ => .stopped (some m.claim)
  | .revoke m _,_ => .stopped (some m.claim)
  | .routing m _,_ => .stopped (some m.claim)
  | .registerRead m _ _ _,_ => .stopped (some m.claim)
  | .registerWrite m _ _ _,_ => .stopped (some m.claim)
  | .release m _,_ => .stopped (some m.claim)
  | .answered c answer,_ => .answered c answer
  | .stopped c,_ => .stopped c
  | _,_ => .stopped none

/-- The storage call a request stands before, when it goes through. -/
def TransferProgress.call (now : Nat → Int) (outside : TransferElsewhere) (p : TransferProgress)
    (t : TransferTables) : TransferProgress × TransferTables × List TransferEvent :=
  match p with
  | .mailboxUser host a offer => (checkOffer cfg now outside host a offer,t,[])
  | .offerServer host username o => (checkOwned host username o (t.servers host),t,[])
  | .owner host username o => (checkOwner cfg now outside host username o,t,[])
  | .putOffer host rec =>
    (.answered none (.offered rec.expiresAt),
      { t with transfers := Function.update t.transfers host (some rec) },[])
  | .getOffer c time => (checkLive c time (t.transfers c.host),t,[])
  | .collect c =>
    (.answered (some c) (.notFound "no live transfer offer"),
      { t with transfers := collectOffer t.transfers c.host },[])
  | .server c offer => (checkGiven c offer (t.servers c.host),t,[])
  | .acquirer c reg => (checkAcquirer now outside c reg,t,[])
  | .claimRead c reg irk time => (checkClaim c reg irk time (t.transfers c.host),t,[])
  | .claimWrite c reg irk time => match t.transfers c.host with
    | some offer =>
      if offer.claimedAt.isSome then (.answered (some c) (.gone "offer already claimed"),t,[])
      else (startMove cfg c reg,
        { t with transfers := Function.update t.transfers c.host (some (offer.claim c irk time)) },
        [.recorded c offer reg])
    | none => (.answered (some c) (.gone "offer already claimed"),t,[])
  | .put m =>
    (.revoke m (now 1),
      { t with servers := m.put t.servers },[.moved m])
  | .revoke m time =>
    (.routing m false,{ t with servers := t.servers.revoke m.claim.host "transferred" time },[])
  | .routing m error => match t.routing m.oldSubdomain with
    | none => (m.answer error,t,[])
    | some old => (.registerRead m old (now 1) error,t,[])
  -- The answer of `register` is not looked at: where it refuses, the old name is released too.
  | .registerRead m old time error => match t.routing m.newSubdomain with
    | some existing =>
      if existing.rckPubKeyHex ≠ old.rckPubKeyHex then (.release m error,t,[])
      else (.registerWrite m old time error,t,[])
    | none => (.registerWrite m old time error,t,[])
  | .registerWrite m old time error =>
    (.release m error,{ t with routing := registerRouting t.routing m old time },[])
  | .release m error =>
    (m.answer error,{ t with routing := Function.update t.routing m.oldSubdomain none },[])
  | p => (p,t,[])

/-- `handlePostTransferOffer` and `handlePostTransferClaim`. -/
def transferHandlers : Handlers TransferTables TransferEvent TransferProgress TransferRequest
    TransferElsewhere where
  accept := fun now _ request => match request with
    | .offer host auth offer => startOffer cfg now host auth offer
    | .claim host claim => startClaim cfg now host claim
  advance := fun now outside p t => match outside.outcome with
    | .goes => p.call cfg now outside t
    | outcome => (p.broken outcome,t,[])

end

/-- The claim a request has recorded. -/
def TransferProgress.recorded : TransferProgress → Option Claim
  | .put m => some m.claim
  | .revoke m _ => some m.claim
  | .routing m _ => some m.claim
  | .registerRead m _ _ _ => some m.claim
  | .registerWrite m _ _ _ => some m.claim
  | .release m _ => some m.claim
  | .answered (some c) (.claimed _ _) => some c
  | .stopped c => c
  | _ => none

/-- The claim an event records. -/
def TransferEvent.claim : TransferEvent → Option Claim
  | .recorded c _ _ => some c
  | .moved _ => none

/-- The box a request is moving: it has recorded its claim and not revoked the
old name yet. -/
def TransferProgress.moving : TransferProgress → Option Moving
  | .put m => some m
  | .revoke m _ => some m
  | _ => none

/-- A claim of that box and nonce that was answered as accepted. -/
def TransferProgress.accepted (host nonce : Text) : TransferProgress → Bool
  | .answered (some c) (.claimed _ _) => c.host == host && c.transferNonce == nonce
  | _ => false

def TransferProgress.inProgress : TransferProgress → Bool
  | .answered _ _ => false
  | .stopped _ => false
  | _ => true

abbrev TransferState := Served TransferTables TransferEvent TransferProgress

/-- Before any request. -/
def TransferState.idle (t : TransferTables) (clock : Int) : TransferState := ⟨⟨t,clock,[]⟩,[]⟩

/-- No request is in progress. -/
def transfersQuiet (w : TransferState) : Bool := w.requests.all fun p => !p.inProgress

/-- A move after which no stored claim names an offer it did not mean: a claim is
recorded on an offer of its own nonce, and an offer replaces no claimed one. -/
def claimsItsOffer (w : TransferState) : Move TransferRequest TransferElsewhere → Bool
  | .receive _ _ _ => true
  | .resume i _ outside => match w.requests[i]? with
    | some (.claimWrite c _ _ _) => outside.outcome != .goes ||
        (w.shared.tables.transfers c.host).all fun offer =>
          offer.claimedAt.isSome || offer.transferNonce == c.transferNonce
    | some (.putOffer host _) => outside.outcome != .goes ||
        (w.shared.tables.transfers host).all fun offer => offer.claimedAt.isNone
    | _ => true

section
variable [Lowercase] (cfg : TransferConfig)

/-- The identity key of a box, whatever the case of its letters. -/
def boxKey (r : ServerRecord) : Text := toLowercase r.identityPubKeyHex

/-- The name has an unrevoked row of the box. -/
def Directory.Live (dir : Directory) (domain key : Text) : Prop :=
  ∃ r,dir domain = some r ∧ r.revokedAt = none ∧ boxKey r = key

/-- Every box has at most one unrevoked row. -/
def OneRow (dir : Directory) : Prop :=
  ∀ d d' key,dir.Live d key → dir.Live d' key → d = d'

/-- No box has unrevoked rows under two accounts. -/
def OneAccount (dir : Directory) : Prop :=
  ∀ d d' r r',dir d = some r → dir d' = some r' → r.revokedAt = none → r'.revokedAt = none →
    boxKey r = boxKey r' → r.username = r'.username

/-- A claim of the box was recorded under a name, and the box has not been put
under that name since. -/
def GivenAway (history : List TransferEvent) (host acquirer key : Text) : Prop :=
  ∃ before c offer reg since,history = before ++ .recorded c offer reg :: since ∧
    c.host = host ∧ c.acquirer = acquirer ∧ boxKey reg = key ∧
    ∀ m,.moved m ∈ since → m.newDomain = host → boxKey m.reg ≠ key

/-- A box is put under an acquirer's name only where no other account claimed it
under the old one. -/
def NotAcquiredTwice (before : List TransferEvent) : TransferEvent → Prop
  | .moved m => ∀ acquirer,GivenAway before m.claim.host acquirer (boxKey m.reg) →
      acquirer = m.claim.acquirer
  | _ => True

/-- A move that leaves no box half moved. A request that has recorded its claim
revokes the old name without a failure; a claim is recorded only while the
directory row is the one the claim read, no other claim of the name is being
carried out, and the name is not the acquirer's own. -/
def movesWhole (w : TransferState) : Move TransferRequest TransferElsewhere → Bool
  | .receive _ _ _ => true
  | .resume i _ outside => match w.requests[i]? with
    | some (.put _) => outside.outcome == .goes
    | some (.revoke _ _) => outside.outcome == .goes
    | some (.claimWrite c reg _ _) => outside.outcome != .goes ||
        !(w.shared.tables.transfers c.host).any (fun offer => offer.claimedAt.isNone) ||
        (w.shared.tables.servers c.host == some reg && reg.revokedAt.isNone &&
          (w.requests.all fun p => p.moving.all fun m => m.claim.host != c.host) &&
          (splitPodCanonical c.host cfg.apex).all
            fun labels => newDomain cfg labels c.acquirer != c.host)
    | _ => true

/-- A request of its own, served call by call. -/
def serveTransfer (s : TransferProgress × TransferTables)
    (input : (Nat → Int) × TransferElsewhere) : TransferProgress × TransferTables :=
  let next := (transferHandlers cfg).advance input.1 input.2 s.1 s.2
  (next.1,next.2.1)

/-- Every row there was is as it was, but for the rows of one name. -/
def OnlyOffered (host : Text) (t t' : TransferTables) : Prop :=
  (∀ d r,d ≠ host → t.servers d = some r → t'.servers d = some r) ∧
    ∀ sub r,(∀ labels,splitPodCanonical host cfg.apex = some labels →
        sub ≠ labels.server ++ '.' :: labels.user) →
      t.routing sub = some r → t'.routing sub = some r

/-- A call that finds nothing under the acquirer's name which it would change. -/
def nameFree (s : TransferProgress × TransferTables) (input : (Nat → Int) × TransferElsewhere) :
    Bool :=
  match s.1 with
  | .put m => input.2.outcome != .goes || (s.2.servers m.newDomain).all fun r =>
      r == ⟨m.claim.acquirer,m.reg.identityPubKeyHex,m.reg.registeredAt,none,none⟩
  | .registerWrite m old _ _ => input.2.outcome != .goes || m.newSubdomain == m.oldSubdomain ||
      (s.2.routing m.newSubdomain).all fun r => r.rckPubKeyHex != old.rckPubKeyHex ||
        (r.username == m.claim.acquirer && r.registeredAt == old.registeredAt)
  | _ => true

end
end Flagship.Control

import Flagship.Mesh.RelayLog

namespace Flagship.Mesh
open Lib
open Access (Ed25519 canonicalV1 Field lowerHex)

def hourMs : Nat := 60 * 60000
def dayMs : Nat := 24 * hourMs

/-- One entry relay's share of the window. -/
structure RebalanceWindow where
  relayId : Text
  bytes : Nat
  streams : Nat
  deriving DecidableEq

structure RebalanceRelay where
  relayId : Text
  relayKind : RelayKind
  lastLoadAt : Option Nat
  draining : Bool
  tunnels : Nat
  capacity : Nat
  deriving DecidableEq

def accountMoveMinIntervalMs : Nat := 6 * hourMs
def meshLoadFreshMs : Nat := 60000
def rebalanceMinBytes : Nat := 64 * 1024 * 1024
def rebalanceMinStreams : Nat := 500
def rebalanceMinShareTenths : Nat := 6
def rebalanceMinLeadTenths : Nat := 3
def rebalanceMaxLoadTenths : Nat := 8

/-- `u128` arithmetic that stops at the top. -/
def saturatingAdd128 (a b : Nat) : Nat := min (a + b) (2 ^ 128 - 1)
def saturatingMul128 (a b : Nat) : Nat := min (a * b) (2 ^ 128 - 1)

/-- What the window adds up to. -/
structure Traffic where
  bytes : OrdMap Text Nat
  total : Nat
  streams : Nat

def Traffic.add (t : Traffic) (w : RebalanceWindow) : Traffic where
  bytes := t.bytes.set w.relayId (saturatingAdd128 ((t.bytes.get? w.relayId).getD 0) w.bytes)
  total := saturatingAdd128 t.total w.bytes
  streams := saturatingAdd128 t.streams w.streams

def traffic (window : List RebalanceWindow) : Traffic := window.foldl Traffic.add ⟨∅,0,0⟩

/-- More bytes, then the smaller id. -/
def compareShares (a b : Text × Nat) : Ordering := (cmp a.2 b.2).then (cmp b.1 a.1)

/-- The relay the most bytes came in at, the home apart. -/
def topRelay (bytes : OrdMap Text Nat) (home : Text) : Option (Text × Nat) :=
  maxBy compareShares (bytes.sorted.entries.filter fun e => decide (e.1 ≠ home ∧ 0 < e.2))

/-- The target to move an account to, or the reason not to. -/
def rebalanceDecision (home : Text) (window : List RebalanceWindow) (relays : List RebalanceRelay)
    (lastMoveAt : Option Nat) (hasLegacyBox : Bool) (now : Nat) : Except String Text := do
  if hasLegacyBox then throw "legacy-box"
  if lastMoveAt.any (fun t => decide (now - t < accountMoveMinIntervalMs)) then throw "recent-move"
  let t := traffic window
  if t.total < rebalanceMinBytes ∧ t.streams < rebalanceMinStreams then throw "below-threshold"
  match topRelay t.bytes home with
  | none => throw "no-candidate"
  | some (target,bt) =>
    let bh := (t.bytes.get? home).getD 0
    if saturatingMul128 bt 10 < saturatingMul128 rebalanceMinShareTenths t.total then throw "share"
    if saturatingMul128 (bt - bh) 10 < saturatingMul128 rebalanceMinLeadTenths t.total ∨
      bt < bh then throw "lead"
    match relays.find? (fun r => decide (r.relayId = target)) with
    | none => throw "unknown-relay"
    | some r =>
      if r.relayKind ≠ .full then throw "not-full"
      if r.lastLoadAt.all (fun l => decide (meshLoadFreshMs ≤ now - l)) then throw "load-stale"
      if r.draining then throw "draining"
      if r.capacity = 0 ∨ saturatingMul128 rebalanceMaxLoadTenths r.capacity ≤
        saturatingMul128 r.tunnels 10 then throw "load-high"
      return target

structure RelayBlessingBody where
  relayId : Text
  relayKey : Text
  servicesApex : Text
  tunnelHost : Text
  relayKind : RelayKind
  nonce : Text
  issuedAt : Nat
  expiresAt : Nat
  deriving DecidableEq

/-- A blessing with its signatures, pairs of a key and what it signed. -/
structure RelayBlessing where
  body : RelayBlessingBody
  signedBy : Text
  signatures : List (Text × Text)
  deriving DecidableEq

def RelayKind.asStr : RelayKind → Text
  | .full => "full".toList
  | .entry => "entry".toList

def relayTunnelHost (relayId servicesApex : Text) : Text :=
  relayId ++ ".tunnel.".toList ++ servicesApex

/-- The message a CA key signs; none for a field out of shape. -/
def relayBlessingCanonical (b : RelayBlessingBody) : Option Text :=
  if isRelayId b.relayId && hex64 b.relayKey && isServicesApex b.servicesApex &&
      decide (b.tunnelHost = relayTunnelHost b.relayId b.servicesApex) && lowerHex b.nonce 32 &&
      decide (b.issuedAt < b.expiresAt) then
    canonicalV1 "flagship/relay-blessing/v1" [.text b.relayId,.text b.relayKey,.text b.servicesApex,
      .text b.tunnelHost,.text b.relayKind.asStr,.text b.nonce,.uint b.issuedAt,.uint b.expiresAt]
  else none

structure MoveHint where
  serverFqdn : Text
  boxPub : Text
  fromRelayId : Text
  toRelayId : Text
  reason : Text
  issuedAt : Nat
  notAfter : Nat
  deriving DecidableEq

def locality : Text := "locality".toList
def coLocate : Text := "co-locate".toList
def retire : Text := "retire".toList

/-- The message the current relay signs; none for a field out of shape. -/
def moveHintCanonical (h : MoveHint) : Option Text :=
  if hostLabels h.serverFqdn 1 && hex64 h.boxPub && isRelayId h.fromRelayId &&
      isRelayId h.toRelayId && decide (h.fromRelayId ≠ h.toRelayId) &&
      [locality,coLocate,retire].contains h.reason && decide (h.issuedAt < h.notAfter) then
    canonicalV1 "flagship/relay-move-hint/v1" [.text h.serverFqdn,.text h.boxPub,
      .text h.fromRelayId,.text h.toRelayId,.text h.reason,.uint h.issuedAt,.uint h.notAfter]
  else none

def moveHintTtlMs : Nat := 10 * 60000
def moveLocalityMinMs : Nat := 6 * hourMs
def moveColocateMinMs : Nat := 10 * 60000
def moveColocateMaxPerDay : Nat := 6
def moveFailedTargetMs : Nat := hourMs
def boxDirectoryMaxAgeMs : Nat := dayMs

/-- The box's hint bookkeeping. -/
structure MoveHintRateState where
  lastLocalityAt : Option Nat
  coLocateAt : List Nat
  failedTargets : OrdMap Text Nat

def MoveHintRateState.default : MoveHintRateState := ⟨none,[],∅⟩

structure MoveHintCheck where
  hint : MoveHint
  signature : Text
  target : RelayBlessing
  boxServerFqdn : Text
  boxPub : Text
  servicesApex : Text
  currentRelayId : Text
  currentRelayKey : Text
  directory : Option RelayDirectoryBody
  directoryFetchedAt : Option Nat
  caKeys : List Text
  rate : MoveHintRateState
  now : Nat

section
variable [Ed25519]

def caSigned (signedBy : Text) (signatures : List (Text × Text)) (canonical : Text)
    (caKeys : List Text) : Bool :=
  caKeys.any (fun k => decide (k.map Char.toLower = signedBy)) &&
    signatures.any fun s => decide (s.1 = signedBy) && verifyLower canonical s.2 signedBy

def verifyRelayBlessing (b : RelayBlessing) (caKeys : List Text) (now : Nat)
    (servicesApex : Text) : Except String Unit := do
  match relayBlessingCanonical b.body with
  | none => throw "malformed"
  | some canonical =>
    if b.body.servicesApex ≠ servicesApex then throw "wrong-apex"
    if caKeys = [] then throw "no-authorized-ca-keys"
    if saturatingAdd now meshClockSkewMs < b.body.issuedAt ∨ b.body.expiresAt ≤ now then
      throw "artifact-expired"
    if caSigned b.signedBy b.signatures canonical caKeys = false then throw "signature-unverified"

/-- The co-locate hints of the last day. -/
def inDay (coLocateAt : List Nat) (now : Nat) : List Nat :=
  coLocateAt.filter fun t => decide (now - t < dayMs)

/-- Too soon after the hints acted on before. -/
def rateLimited (rate : MoveHintRateState) (reason : Text) (now : Nat) : Bool :=
  if reason = locality then
    rate.lastLocalityAt.any fun t => decide (now - t < moveLocalityMinMs)
  else if reason = coLocate then
    let day := inDay rate.coLocateAt now
    day.any (fun t => decide (now - t < moveColocateMinMs)) ||
      decide (moveColocateMaxPerDay ≤ day.length)
  else false

/-- Whether the box acts on a hint, or the reason it does not. -/
def checkMoveHint (c : MoveHintCheck) : Except String Unit := do
  let h := c.hint
  match moveHintCanonical h with
  | none => throw "malformed"
  | some canonical =>
    if h.serverFqdn ≠ c.boxServerFqdn ∨ h.boxPub ≠ c.boxPub then throw "not-this-box"
    if h.fromRelayId ≠ c.currentRelayId then throw "wrong-from"
    if verifyLower canonical c.signature c.currentRelayKey = false then throw "bad-signature"
    if moveHintTtlMs < h.notAfter - h.issuedAt then throw "ttl-too-long"
    if saturatingAdd c.now meshClockSkewMs < h.issuedAt then throw "future"
    if h.notAfter ≤ c.now then throw "expired"
    if (verifyRelayBlessing c.target c.caKeys c.now c.servicesApex).isOk = false then
      throw "bad-target"
    if c.target.body.relayKind ≠ .full then throw "target-not-full"
    if c.target.body.relayId ≠ h.toRelayId then throw "target-mismatch"
    let fresh := c.directoryFetchedAt.any fun t => decide (c.now - t ≤ boxDirectoryMaxAgeMs)
    if c.directory = none ∨ fresh = false then throw "directory-stale"
    if (directoryRelay c.directory h.toRelayId).any
      (fun e => decide (e.relayKey = c.target.body.relayKey)) = false then throw "not-in-directory"
    if (c.rate.failedTargets.get? h.toRelayId).any
      (fun t => decide (c.now - t < moveFailedTargetMs)) then throw "target-failed"
    if rateLimited c.rate h.reason c.now then throw "rate-limited"

end

/-- The targets that failed within the hour. -/
def recentlyFailed (failedTargets : OrdMap Text Nat) (now : Nat) : OrdMap Text Nat :=
  failedTargets.filterMapVals fun _ t => if now - t < moveFailedTargetMs then some t else none

/-- The rate state after acting on a hint. -/
def recordMoveHint (rate : MoveHintRateState) (reason : Text) (now : Nat) : MoveHintRateState where
  lastLocalityAt := if reason = locality then some now else rate.lastLocalityAt
  coLocateAt := inDay rate.coLocateAt now ++ if reason = coLocate then [now] else []
  failedTargets := recentlyFailed rate.failedTargets now

/-- The rate state after a move to a relay failed. -/
def recordMoveTargetFailed (rate : MoveHintRateState) (relayId : Text) (now : Nat) :
    MoveHintRateState :=
  { rate with failedTargets := (recentlyFailed rate.failedTargets now).set relayId now }

/-- What happens at a box: a hint comes in (the rate state it is checked with is the box's),
or a move it made failed. -/
inductive MoveEvent
  | hint (c : MoveHintCheck)
  | failed (relayId : Text) (now : Nat)

def MoveEvent.now : MoveEvent → Nat
  | .hint c => c.now
  | .failed _ now => now

/-- A box with the hints it acted on, each with its reason and time. -/
structure MovingBox where
  rate : MoveHintRateState
  accepted : List (Text × Nat)

def MovingBox.step [Ed25519] (b : MovingBox) : MoveEvent → MovingBox
  | .hint c =>
    match checkMoveHint { c with rate := b.rate } with
    | .error _ => b
    | .ok _ => ⟨recordMoveHint b.rate c.hint.reason c.now,b.accepted ++ [(c.hint.reason,c.now)]⟩
  | .failed relayId now => { b with rate := recordMoveTargetFailed b.rate relayId now }

def MovingBox.run [Ed25519] (b : MovingBox) (es : List MoveEvent) : MovingBox := es.foldl step b

end Flagship.Mesh

import Flagship.Mesh.Store
import Flagship.Access.Store

namespace Flagship.Mesh
open Lib Relay

def leaseMs : Nat := 60000

def phoneRouteGrantTtlMs : Nat := 60000

structure Holder where
  relayId : Text
  sessionId : Text
  phoneRoutePub : Text
  deriving DecidableEq

/-- What the ledger keeps for one bare hostname. -/
structure Entry where
  generation : Nat
  holder : Option Holder
  leaseUntil : Nat
  deriving DecidableEq

inductive Refusal
  | malformed | routeHeld | staleGeneration | notHolder | expired
  deriving DecidableEq

/-- A lapsed lease is no lease. -/
def live (e : Entry) (now : Nat) : Entry :=
  if e.holder.isSome ∧ now < e.leaseUntil then e else ⟨e.generation,none,0⟩

/-- The length of a text in UTF-8 bytes. -/
def byteLen (s : Text) : Nat := (s.map Char.utf8Size).sum

def validHolder (h : Holder) : Bool :=
  decide (1 ≤ byteLen h.relayId ∧ byteLen h.relayId ≤ 64) &&
    decide (1 ≤ byteLen h.sessionId ∧ byteLen h.sessionId ≤ 64) && hex64 h.phoneRoutePub

/-- Only while vacant, only for exactly the next generation. -/
def ledgerAcquire (e : Entry) (generation : Nat) (holder : Holder) (now : Nat) :
    Except Refusal Entry :=
  if ¬ (1 ≤ generation ∧ generation ≤ maxSafeInteger) ∨ validHolder holder = false then
    .error .malformed
  else if (live e now).holder.isSome then .error .routeHeld
  else if generation ≠ saturatingAdd e.generation 1 then .error .staleGeneration
  else .ok ⟨generation,some holder,saturatingAdd now leaseMs⟩

/-- The current generation's own session, before its lease lapsed. -/
def ledgerRenew (e : Entry) (generation : Nat) (sessionId : Text) (now : Nat) :
    Except Refusal Entry :=
  if generation ≠ e.generation then .error .staleGeneration
  else if e.holder.all (fun h => decide (h.sessionId ≠ sessionId)) then .error .notHolder
  else if e.leaseUntil ≤ now then .error .expired
  else .ok { e with leaseUntil := saturatingAdd now leaseMs }

/-- The generation stays. -/
def ledgerRelease (e : Entry) (generation : Nat) (sessionId : Text) : Except Refusal Entry :=
  if generation ≠ e.generation then .error .staleGeneration
  else if e.holder.all (fun h => decide (h.sessionId ≠ sessionId)) then .error .notHolder
  else .ok ⟨e.generation,none,0⟩

/-- One relay's table. -/
structure Ledger where
  entries : OrdMap Text Entry

/-- Read a host's entry; the first read starts it at what the store has seen. -/
def Ledger.entry (l : Ledger) (host : Text) (seen : Nat) : Ledger × Entry :=
  match l.entries.get? host with
  | some e => (l,e)
  | none => (⟨l.entries.set host ⟨seen,none,0⟩⟩,⟨seen,none,0⟩)

def Ledger.setEntry (l : Ledger) (host : Text) (e : Entry) : Ledger := ⟨l.entries.set host e⟩

/-- A phone request as the ledger relay parsed it. -/
inductive Request
  | begin (account : Text)
  | claim (hostname : Text) (generation : Nat) (holder : Holder) (claim : Option RouteClaim)
      (claimSignature : Text) (grants : Option (List PhoneItemGrant))
  | renew (hostname : Text) (generation : Nat) (sessionId : Text)
  | release (hostname : Text) (generation : Nat) (sessionId : Text)

inductive Answer
  | begun (generation : Nat) (vacant : Bool) (holderGeneration : Option Nat)
  | notLedger
  | refused (code : Refusal) (generation : Option Nat)
  | granted (grant : PhoneRouteGrant)
  | released
  deriving DecidableEq

/-- What a relay knows of itself and of the log when it answers: its names, the
signature checks, and whether it may act as an account's ledger. -/
structure Knows where
  relayId : Text
  apex : Text
  verifyCanonical : RouteClaim → Text → Text → Bool
  eligible : List PhoneItemGrant → Text → Text → Nat → Bool
  mayLead : Text → Bool
  leads : Text → Bool

/-- The phone's own claim for exactly this hostname, generation and key, signed
by that key. -/
def claimMatches (k : Knows) (claim : RouteClaim) (signature hostname : Text) (generation : Nat)
    (phoneRoutePub : Text) : Bool :=
  decide (claim.hostname = hostname) &&
    decide (claim.account = ((hostname.splitOn '.').head?).getD []) &&
    decide (claim.generation = generation) && decide (claim.phoneRoutePub = phoneRoutePub) &&
    k.verifyCanonical claim signature phoneRoutePub

def accountOfHost (k : Knows) (host : Text) : Option Text :=
  (stripApex host k.apex).filter (fun a => !a.isEmpty && !a.contains '.')

def signGrant (k : Knows) (host : Text) (e : Entry) (holderRelay : Text) (now : Nat) :
    Option PhoneRouteGrant := do
  let h ← e.holder
  let g : PhoneRouteGrant :=
    { hostname := host
      phoneRoutePub := h.phoneRoutePub
      generation := e.generation
      holderRelayId := holderRelay
      ledgerRelayId := k.relayId
      issuedAt := now
      notAfter := saturatingAdd now phoneRouteGrantTtlMs }
  if phoneRouteGrantShape g then some g else none

/-- The host whose entry a request reads, or its answer when it reads none. -/
def lookup (k : Knows) : Request → Answer ⊕ Text
  | .begin account =>
    if k.leads account && k.mayLead account then .inr (account ++ '.' :: k.apex) else .inl .notLedger
  | .claim hostname _ _ _ _ _ => .inr hostname
  | .renew hostname _ _ | .release hostname _ _ =>
    if (accountOfHost k hostname).any k.mayLead then .inr hostname
    else .inl (.refused .malformed none)

/-- What a request does with the entry it read: the entry it writes back, and
the answer, which is missing when the grant has no canonical form. -/
structure Outcome where
  write : Option Entry
  answer : Option Answer

/-- The decision of `ledger_answer` on the entry it read: `t` is when the request
came in, `now` when the grant is signed. -/
def judge (k : Knows) (sender : Text) (t now : Nat) (e : Entry) : Request → Outcome
  | .begin _ =>
    let l := live e t
    ⟨none,some (.begun (saturatingAdd l.generation 1) l.holder.isNone
      (if l.holder.isSome then some l.generation else none))⟩
  | .claim hostname generation holder claim claimSignature grants =>
    match accountOfHost k hostname with
    | none => ⟨none,some (.refused .malformed (some e.generation))⟩
    | some account =>
      let claimOk := claim.any (fun c =>
        claimMatches k c claimSignature hostname generation holder.phoneRoutePub)
      let proofOk := grants.any (fun g => k.eligible g account holder.phoneRoutePub t)
      if holder.relayId ≠ sender ∨ claimOk = false ∨ proofOk = false ∨ k.mayLead account = false then
        ⟨none,some (.refused .malformed (some e.generation))⟩
      else match ledgerAcquire e generation holder t with
      | .error code => ⟨none,some (.refused code (some e.generation))⟩
      | .ok next => ⟨some next,(signGrant k hostname next sender now).map .granted⟩
  | .renew hostname generation sessionId =>
    match ledgerRenew e generation sessionId t with
    | .error code => ⟨none,some (.refused code none)⟩
    | .ok next =>
      if next.holder.any (fun h => decide (h.relayId = sender)) then
        ⟨some next,(signGrant k hostname next sender now).map .granted⟩
      else ⟨none,some (.refused .notHolder none)⟩
  | .release _ generation sessionId =>
    if e.holder.any (fun h => decide (h.relayId ≠ sender)) then
      ⟨none,some (.refused .notHolder (some e.generation))⟩
    else match ledgerRelease e generation sessionId with
    | .error code => ⟨none,some (.refused code none)⟩
    | .ok next => ⟨some next,some .released⟩

/-- One request from start to end with nothing in between. -/
def ledgerAnswer (k : Knows) (l : Ledger) (seen : Text → Nat) (request : Request) (sender : Text)
    (t : Nat) : Ledger × Option Answer :=
  match lookup k request with
  | .inl answer => (l,some answer)
  | .inr host =>
    let (l,e) := l.entry host (seen host)
    let o := judge k sender t t e request
    (match o.write with
      | some next => l.setEntry host next
      | none => l,o.answer)

/-- A request under way: when it came in, and the host's entry once it is read. -/
structure Pending where
  request : Request
  sender : Text
  t : Nat
  read : Option (Text × Entry)

/-- A grant as it was signed, with the holder it was signed for. -/
structure Signed where
  holder : Holder
  grant : PhoneRouteGrant

/-- A ledger relay with requests in flight. `signed` remembers every grant. -/
structure Handling where
  clock : Nat
  ledger : Ledger
  pending : OrdMap Nat Pending
  signed : List Signed

/-- Reading and writing an entry are separate critical sections of the ledger's
lock, so other requests may move between them. -/
inductive Act
  | tick (ms : Nat)
  | ask (id : Nat) (request : Request) (sender : Text)
  | read (id : Nat) (k : Knows) (seen : Nat)
  | finish (id : Nat) (k : Knows)

namespace Handling

def new : Handling := ⟨0,⟨∅⟩,∅,[]⟩

def ask (s : Handling) (id : Nat) (request : Request) (sender : Text) : Handling :=
  if s.pending.contains id then s
  else { s with pending := s.pending.set id ⟨request,sender,s.clock,none⟩ }

/-- The critical section of `entry`; a request that needs no entry is answered. -/
def read (s : Handling) (id : Nat) (k : Knows) (seen : Nat) : Handling :=
  match s.pending.get? id with
  | none => s
  | some p =>
    if p.read.isSome then s
    else match lookup k p.request with
    | .inl _ => { s with pending := s.pending.erase id }
    | .inr host =>
      let (ledger,e) := s.ledger.entry host seen
      { s with ledger, pending := s.pending.set id { p with read := some (host,e) } }

/-- The grant an outcome carries, with the holder it names. -/
def signedBy (o : Outcome) : Option Signed :=
  match o.write,o.answer with
  | some next,some (.granted g) => next.holder.map (fun h => ⟨h,g⟩)
  | _,_ => none

/-- The decision, the signature and the critical section of `set_entry`. -/
def finish (s : Handling) (id : Nat) (k : Knows) : Handling :=
  match s.pending.get? id with
  | none => s
  | some p => match p.read with
    | none => s
    | some (host,e) =>
      let o := judge k p.sender p.t s.clock e p.request
      { s with
        ledger := match o.write with
          | some next => s.ledger.setEntry host next
          | none => s.ledger
        pending := s.pending.erase id
        signed := s.signed ++ (signedBy o).toList }

def step (s : Handling) : Act → Handling
  | .tick ms => { s with clock := s.clock + ms }
  | .ask id request sender => s.ask id request sender
  | .read id k seen => s.read id k seen
  | .finish id k => s.finish id k

end Handling

/-- A relay whose store learns from gossip between the requests it answers. -/
structure LedgerRelay where
  clock : Nat
  ledger : Ledger
  store : Store

/-- A request, or any call that changes the store. -/
inductive RelayOp
  | tick (ms : Nat)
  | answer (k : Knows) (request : Request) (sender : Text)
  | insertPhone (item : PhoneItem)
  | insertBox (item : AttachmentItem)
  | keepTombstone (w : RelayWithdraw)
  | withdraw (w : RelayWithdraw)
  | removePhone (host holder : Text)
  | removeBox (name relay : Text)
  | removeRelay (relay : Text)
  | retainBoxes (names : Option (List Text)) (keep : AttachmentItem → Bool)
  | retainPhones (keep : PhoneItem → Bool)
  | sweep

namespace LedgerRelay

def new (selfId apex : Text) (caps : Caps) : LedgerRelay := ⟨0,⟨∅⟩,Store.new selfId apex caps⟩

def answer (s : LedgerRelay) (k : Knows) (request : Request) (sender : Text) :
    LedgerRelay × Option Answer :=
  let (ledger,a) := ledgerAnswer k s.ledger s.store.maxPhoneGeneration request sender s.clock
  ({ s with ledger },a)

def step [Sha256] (s : LedgerRelay) : RelayOp → LedgerRelay
  | .tick ms => { s with clock := s.clock + ms }
  | .answer k request sender => (s.answer k request sender).1
  | .insertPhone item => { s with store := (s.store.insertPhone item).1 }
  | .insertBox item => { s with store := (s.store.insertBox item).1 }
  | .keepTombstone w => { s with store := s.store.keepTombstone w s.clock }
  | .withdraw w => { s with store := (s.store.withdraw w).1 }
  | .removePhone host holder => { s with store := (s.store.removePhone host holder).1 }
  | .removeBox name relay => { s with store := (s.store.removeBox name relay).1 }
  | .removeRelay relay => { s with store := s.store.removeRelay relay }
  | .retainBoxes names keep => { s with store := s.store.retainBoxes names keep }
  | .retainPhones keep => { s with store := s.store.retainPhones keep }
  | .sweep => { s with store := s.store.sweep s.clock }

end LedgerRelay
end Flagship.Mesh

/-! The ledger rules of the TypeScript port, and runs of requests on one entry. -/

namespace Flagship.PhoneRoute
open Lib Mesh

def phoneRouteLeaseMs : Nat := 60000

inductive LedgerResult
  | ok (entry : Entry)
  | refused (code : Refusal) (entry : Entry)
  deriving DecidableEq

/-- The length of a text in UTF-16 units. -/
def utf16Len (s : Text) : Nat := (s.map (fun c => if c.toNat < 0x10000 then 1 else 2)).sum

/-- A sum of two numbers is the nearest double. -/
def numberAdd (a b : Nat) : Nat := Access.f64OfNat (a + b)

/-- The entry as seen at a time: a lapsed lease has no holder. -/
def liveEntry (e : Entry) (now : Nat) : Entry :=
  if e.holder.isSome ∧ e.leaseUntil > now then e else ⟨e.generation,none,0⟩

def validHolder (h : Holder) : Bool :=
  decide (0 < utf16Len h.relayId) && decide (utf16Len h.relayId ≤ 64) &&
    decide (0 < utf16Len h.sessionId) && decide (utf16Len h.sessionId ≤ 64) && hex64 h.phoneRoutePub

def ledgerAcquire (e : Entry) (generation : Nat) (holder : Holder) (now : Nat) : LedgerResult :=
  if ¬ generation ≤ maxSafeInteger ∨ generation < 1 ∨ validHolder holder = false then
    .refused .malformed e
  else if (liveEntry e now).holder.isSome then .refused .routeHeld e
  else if generation ≠ numberAdd e.generation 1 then .refused .staleGeneration e
  else .ok ⟨generation,some holder,numberAdd now phoneRouteLeaseMs⟩

def ledgerRenew (e : Entry) (generation : Nat) (sessionId : Text) (now : Nat) : LedgerResult :=
  if generation ≠ e.generation then .refused .staleGeneration e
  else if e.holder.all (fun h => decide (h.sessionId ≠ sessionId)) then .refused .notHolder e
  else if e.leaseUntil ≤ now then .refused .expired e
  else .ok { e with leaseUntil := numberAdd now phoneRouteLeaseMs }

def ledgerRelease (e : Entry) (generation : Nat) (sessionId : Text) : LedgerResult :=
  if generation ≠ e.generation then .refused .staleGeneration e
  else if e.holder.all (fun h => decide (h.sessionId ≠ sessionId)) then .refused .notHolder e
  else .ok ⟨e.generation,none,0⟩

end Flagship.PhoneRoute

namespace Flagship.Mesh
open Lib

/-- A request on one entry. -/
inductive LedgerRequest
  | acquire (generation : Nat) (holder : Holder) (now : Nat)
  | renew (generation : Nat) (sessionId : Text) (now : Nat)
  | release (generation : Nat) (sessionId : Text)
  deriving DecidableEq

namespace LedgerRequest

/-- What the Rust ledger answers. -/
def apply (e : Entry) : LedgerRequest → Except Refusal Entry
  | .acquire generation holder now => ledgerAcquire e generation holder now
  | .renew generation sessionId now => ledgerRenew e generation sessionId now
  | .release generation sessionId => ledgerRelease e generation sessionId

/-- What the TypeScript ledger answers. -/
def applyPort (e : Entry) : LedgerRequest → PhoneRoute.LedgerResult
  | .acquire generation holder now => PhoneRoute.ledgerAcquire e generation holder now
  | .renew generation sessionId now => PhoneRoute.ledgerRenew e generation sessionId now
  | .release generation sessionId => PhoneRoute.ledgerRelease e generation sessionId

/-- An answer and the entry it leaves, as the TypeScript ledger gives them. -/
def result (e : Entry) : Except Refusal Entry → PhoneRoute.LedgerResult
  | .ok next => .ok next
  | .error code => .refused code e

/-- The entry after a request. -/
def next (e : Entry) (r : LedgerRequest) : Entry :=
  match r.apply e with
  | .ok e' => e'
  | .error _ => e

def succeeds (e : Entry) (r : LedgerRequest) : Bool :=
  match r.apply e with
  | .ok _ => true
  | .error _ => false

def time : LedgerRequest → Option Nat
  | .acquire _ _ now | .renew _ _ now => some now
  | .release _ _ => none

/-- The session an acquire is for. -/
def acquirer : LedgerRequest → Option Text
  | .acquire _ holder _ => some holder.sessionId
  | .renew .. | .release .. => none

/-- The session that renews or releases. -/
def session : LedgerRequest → Option Text
  | .acquire .. => none
  | .renew _ sessionId _ | .release _ sessionId => some sessionId

def isRelease : LedgerRequest → Bool
  | .release .. => true
  | .acquire .. | .renew .. => false

end LedgerRequest

/-- Whose acquire of the current generation it was. -/
def acquiredBy (e : Entry) : List LedgerRequest → Option Text → Option Text
  | [],who => who
  | r :: rs,who =>
    acquiredBy (r.next e) rs (if r.succeeds e then r.acquirer.or who else who)

end Flagship.Mesh

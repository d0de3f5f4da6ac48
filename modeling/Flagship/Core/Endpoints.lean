import Flagship.Lib.OrdMap
import Flagship.Lib.Run
import Flagship.Lib.Text

namespace Flagship.Core
open Lib

inductive EndpointEnv
  | live
  | staging
  | build
  deriving DecidableEq

def EndpointEnv.asStr : EndpointEnv → Text
  | .live => "live".toList
  | .staging => "staging".toList
  | .build => "build".toList

inductive EndpointRole
  | http
  | data
  | ai
  deriving DecidableEq

def EndpointRole.asStr : EndpointRole → Text
  | .http => "http".toList
  | .data => "data".toList
  | .ai => "ai".toList

structure EndpointKey where
  serviceId : Text
  env : EndpointEnv
  component : Text
  role : EndpointRole
  deriving DecidableEq

def EndpointKey.keyString (k : EndpointKey) : Text :=
  k.env.asStr ++ '/' :: k.serviceId ++ '/' :: k.component ++ '/' :: k.role.asStr

def drainKey (serviceId : Text) (env : EndpointEnv) : Option Text → Text
  | none => env.asStr ++ '/' :: serviceId
  | some c => env.asStr ++ '/' :: serviceId ++ '/' :: c

def EndpointKey.drains (k : EndpointKey) : List Text :=
  [drainKey k.serviceId k.env none,drainKey k.serviceId k.env (some k.component)]

structure Endpoint where
  host : Text
  port : Nat
  generation : Int
  incarnation : Text
  deriving DecidableEq

/-- One caller's hold on an endpoint. The last four are not in the code: which
publication it was issued for, whether its holder released it, which call removed its
endpoint before that, and whether a cancellation has taken its hooks. -/
structure Lease where
  key : Text
  endpoint : Endpoint
  done : Bool
  /-- The hooks, each by the number of the call that bound it. -/
  hooks : List Nat
  serial : Nat
  released : Bool
  cutBy : Option Nat
  drained : Bool
  deriving DecidableEq

structure EndpointTable where
  /-- Each with the number of its publication. -/
  entries : OrdMap Text (Endpoint × Nat)
  draining : List Text
  /-- The open leases of each key. -/
  leases : OrdMap Text (List Nat)
  /-- Every lease there ever was. -/
  issued : List Lease
  /-- How often was published. -/
  published : Nat
  /-- The hooks that ran, oldest first. -/
  ran : List Nat
  deriving DecidableEq

/-- Which endpoints an invalidation is about. -/
structure Target where
  serviceId : Text
  env : Option EndpointEnv
  component : Option Text
  deriving DecidableEq

def Target.hit (t : Target) (k : Text) : Bool :=
  let parts := k.splitOn '/'
  parts[1]? = some t.serviceId && t.env.all (fun e => parts[0]? = some e.asStr) &&
    t.component.all fun c => parts[2]? = some c

namespace EndpointTable
variable (t : EndpointTable)

def publish (key : EndpointKey) (endpoint : Endpoint) : EndpointTable :=
  { t with
    entries := t.entries.set key.keyString (endpoint,t.published)
    draining := t.draining.filter fun d => !key.drains.contains d
    published := t.published + 1 }

def lookup (key : EndpointKey) : Option (Endpoint × Nat) :=
  if key.drains.any t.draining.contains then none else t.entries.get? key.keyString

/-- A new lease, on an endpoint that was looked up before. -/
def register (key : EndpointKey) (endpoint : Endpoint) (serial : Nat) : EndpointTable :=
  { t with
    leases := t.leases.set key.keyString
      ((t.leases.get? key.keyString).getD [] ++ [t.issued.length])
    issued := t.issued ++ [⟨key.keyString,endpoint,false,[],serial,false,none,false⟩] }

def modifyLease (lease : Nat) (f : Lease → Lease) : EndpointTable :=
  { t with issued := t.issued.modify lease f }

/-- The lease's flag. -/
def isDone (lease : Nat) : Bool := t.issued[lease]?.any (·.done)

/-- The hooks of a lease are taken, and run. -/
def runHooks (lease : Nat) : EndpointTable :=
  { t.modifyLease lease fun l => { l with hooks := [] } with
    ran := t.ran ++ (t.issued[lease]?.map (·.hooks)).getD [] }

/-- The leases an invalidation takes away: whichever of the keys it hits they are of. -/
def hitLeases (target : Target) : List Nat :=
  (t.leases.entries.filter fun e => target.hit e.1).flatMap Prod.snd

/-- The endpoint a lease was issued for is there. -/
def there (l : Lease) : Bool := (t.entries.get? l.key).any fun e => e.2 = l.serial

/-- Everything the target hits goes at once. -/
def remove (target : Target) (self : Nat) : EndpointTable :=
  { t with
    entries := t.entries.filterMapVals fun k e => if target.hit k then none else some e
    leases := t.leases.filterMapVals fun k ls => if target.hit k then none else some ls
    issued := t.issued.map fun l =>
      if target.hit l.key && t.there l && !l.released then { l with cutBy := some self } else l }

def beginStop (serviceId : Text) (env : EndpointEnv) (component : Option Text) : EndpointTable :=
  { t with draining := t.draining ++ [drainKey serviceId env component] }

end EndpointTable

/-- What may be called on a table and its leases. -/
inductive EndpointCall
  | publish (key : EndpointKey) (endpoint : Endpoint)
  | acquire (key : EndpointKey)
  | bind (lease : Nat)
  | release (lease : Nat)
  | invalidate (target : Target)
  | beginStop (serviceId : Text) (env : EndpointEnv) (component : Option Text)
  deriving DecidableEq

/-- Where a thread stands: before the next lock it takes, or the next access to the
flag of a lease. -/
inductive Stage
  | publish (key : EndpointKey) (endpoint : Endpoint)
  | lookup (key : EndpointKey)
  | register (key : EndpointKey) (endpoint : Endpoint) (serial : Nat)
  | check (lease : Nat)
  | push (lease : Nat)
  | recheck (lease : Nat)
  /-- An invalidation between the check and the push would have missed the hook. -/
  | take (lease : Nat)
  | swap (lease : Nat)
  | clear (lease : Nat)
  | unregister (lease : Nat)
  | drain (serviceId : Text) (env : EndpointEnv) (component : Option Text)
  | remove (target : Target)
  /-- The leases that are still to be cancelled. -/
  | cancel (todo : List Nat)
  | cancelTake (lease : Nat) (todo : List Nat)
  | ended (lease : Option Nat)
  deriving DecidableEq

def EndpointCall.first : EndpointCall → Stage
  | .publish key endpoint => .publish key endpoint
  | .acquire key => .lookup key
  | .bind lease => .check lease
  | .release lease => .swap lease
  | .invalidate target => .remove target
  | .beginStop serviceId env component => .drain serviceId env component

/-- The next lock or flag of a thread, and the code up to the one after. The number is
the thread's own, and `pick` the lease a cancellation comes to next: the order of a
hash map. -/
def Stage.next (self pick : Nat) (t : EndpointTable) : Stage → Stage × EndpointTable
  | .publish key endpoint => (.ended none,t.publish key endpoint)
  | .lookup key =>
    match t.lookup key with
    | none => (.ended none,t)
    | some (endpoint,serial) => (.register key endpoint serial,t)
  | .register key endpoint serial => (.ended (some t.issued.length),t.register key endpoint serial)
  | .check lease =>
    if t.isDone lease then (.ended none,{ t with ran := t.ran ++ [self] }) else (.push lease,t)
  | .push lease =>
    (.recheck lease,t.modifyLease lease fun l => { l with hooks := l.hooks ++ [self] })
  | .recheck lease => (if t.isDone lease then .take lease else .ended none,t)
  | .take lease => (.ended none,t.runHooks lease)
  | .swap lease =>
    if t.isDone lease then (.ended none,t)
    else (.clear lease,t.modifyLease lease fun l => { l with done := true,released := true })
  | .clear lease => (.unregister lease,t.modifyLease lease fun l => { l with hooks := [] })
  | .unregister lease =>
    (.ended none,
      match t.issued[lease]? with
      | none => t
      | some l => { t with
          leases := match t.leases.get? l.key with
            | none => t.leases
            | some ls => t.leases.set l.key (ls.filter (· ≠ lease)) })
  | .drain serviceId env component =>
    (.remove ⟨serviceId,some env,component⟩,t.beginStop serviceId env component)
  | .remove target => (.cancel (t.hitLeases target),t.remove target self)
  | .cancel todo =>
    match todo[pick % todo.length]? with
    | none => (.ended none,t)
    | some lease =>
      if t.isDone lease then (.cancel (todo.erase lease),t)
      else (.cancelTake lease (todo.erase lease),
        t.modifyLease lease fun l => { l with done := true })
  | .cancelTake lease todo =>
    (.cancel todo,(t.runHooks lease).modifyLease lease fun l => { l with drained := true })
  | .ended lease => (.ended lease,t)

/-- The leases a thread has still to cancel. -/
def Stage.todo : Stage → List Nat
  | .cancel todo => todo
  | .cancelTake lease todo => lease :: todo
  | _ => []

/-- A table and the threads that use it. -/
structure Threads where
  table : EndpointTable
  threads : List (EndpointCall × Stage)
  deriving DecidableEq

/-- A thread makes a call, or a call comes to its next lock. -/
inductive ThreadMove
  | call (c : EndpointCall)
  | go (i pick : Nat)
  deriving DecidableEq

namespace Threads

def fresh : Threads := ⟨⟨∅,[],∅,[],0,[]⟩,[]⟩

/-- A lease has to have been acquired before it is bound or released. -/
def knows (w : Threads) : EndpointCall → Bool
  | .bind lease => lease < w.table.issued.length
  | .release lease => lease < w.table.issued.length
  | _ => true

def step (w : Threads) : ThreadMove → Threads
  | .call c => if w.knows c then { w with threads := w.threads ++ [(c,c.first)] } else w
  | .go i pick =>
    match w.threads[i]? with
    | none => w
    | some (c,stage) =>
      let (stage,table) := stage.next i pick w.table
      ⟨table,w.threads.set i (c,stage)⟩

/-- No call that has looked an endpoint up has still to register its lease when that
endpoint is removed, and no lease is released between the removal of its endpoint and
its cancellation. -/
def reaches (w : Threads) : ThreadMove → Bool
  | .call _ => true
  | .go i _ =>
    match w.threads[i]? with
    | some (_,.remove target) => w.threads.all fun thread =>
      match thread.2 with
      | .register key _ serial => !(target.hit key.keyString &&
          (w.table.entries.get? key.keyString).any fun e => e.2 = serial)
      | _ => true
    | some (_,.swap lease) => w.table.isDone lease ||
        (w.table.issued[lease]?).all fun l => l.cutBy.isNone
    | _ => true

/-- No hook runs twice. Once a thread that removed endpoints has ended, each lease on one
of these that was not released before has had every hook run that was bound to it, once
and after the removal. -/
def ReachesAll (moves : List ThreadMove) : Prop :=
  (∀ hook,(run step fresh moves).table.ran.count hook ≤ 1) ∧
  ∀ before i pick after w₀ c target,moves = before ++ .go i pick :: after →
    w₀ = run step fresh before → w₀.threads[i]? = some (c,.remove target) →
    ∀ r,(run step fresh moves).threads[i]? = some (c,.ended r) →
    ∀ (a : Nat) l,(run step fresh moves).table.issued[a]? = some l →
      target.hit l.key = true → (w₀.table.entries.get? l.key).map Prod.snd = some l.serial →
      (∀ l₀,w₀.table.issued[a]? = some l₀ → l₀.released = false) →
      ∀ (hook : Nat) r',(run step fresh moves).threads[hook]? = some (.bind a,.ended r') →
        (run step fresh moves).table.ran.count hook = 1 ∧ hook ∉ w₀.table.ran

end Threads
end Flagship.Core

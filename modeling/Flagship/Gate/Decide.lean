import Flagship.Gate.Origin
import Flagship.Access.Apply
import Flagship.Access.StateFile

namespace Flagship.Gate
open Lib Access

/-- The path without its query or fragment. -/
def stripQuery (path : Text) : Text := path.takeWhile (fun c => c != '?' && c != '#')

def hexVal (b : UInt8) : Option UInt8 :=
  if 48 ≤ b ∧ b ≤ 57 then some (b - 48)
  else if 97 ≤ b ∧ b ≤ 102 then some (b - 97 + 10)
  else if 65 ≤ b ∧ b ≤ 70 then some (b - 65 + 10)
  else none

/-- Every `%XX` decoded once. -/
def decodeBytes : Bytes → Option Bytes
  | [] => some []
  | 37 :: hi :: lo :: rest => do
    let hi ← hexVal hi
    let lo ← hexVal lo
    let rest ← decodeBytes rest
    some ((hi * 16 + lo) :: rest)
  | 37 :: _ => none
  | c :: rest => (decodeBytes rest).map (c :: ·)

/-- A malformed escape or bytes that are not UTF-8 fail. -/
def decodeOnce (s : Text) : Option Text := (decodeBytes (utf8Bytes s)).bind utf8Text

def containsText (part s : Text) : Bool := s.tails.any (fun t => decide (part <+: t))

/-- A dot segment, whatever its parameters. -/
def dotSegment (seg : Text) : Bool :=
  let bare := seg.takeWhile (fun c => c != ';')
  decide (bare = ".".toList ∨ bare = "..".toList)

/-- The form a path is compared in, or none when it cannot be compared safely. -/
def normalizePublicPath (path : Text) : Option Text :=
  if path.head? ≠ some '/' ∨ path.contains '\\' then none
  else
    let lower := asciiLower path
    if containsText "%2f".toList lower ∨ containsText "%5c".toList lower ∨
        containsText "%25".toList lower then none
    else
      match decodeOnce path with
      | none => none
      | some decoded =>
        if decoded.any (fun c => decide (c.toNat ≤ 0x1f) || c.toNat == 0x7f || c == '\\') then none
        else
          let segs := decoded.splitOn '/'
          if segs.any dotSegment then none
          else some ('/' :: ['/'].intercalate (segs.filter (fun seg => !seg.isEmpty)))

/-- Does one route of the manifest let a path through? -/
def routeMatches (path route : Text) : Bool :=
  if "/*".toList <:+ route then
    let stem := route.take (route.length - 2)
    match normalizePublicPath (if stem = [] then ['/'] else stem) with
    | none => false
    | some head => decide (head = ['/'] ∨ path = head ∨ (head ++ ['/']) <+: path)
  else decide (normalizePublicPath route = some path)

/-- Is a request path public: exact paths, or a leading part ending in `/*`? -/
def matchesPublicRoute (rawPath : Text) (publicRoutes : List Text) : Bool :=
  match normalizePublicPath (stripQuery rawPath) with
  | none => false
  | some path => publicRoutes.any (routeMatches path)

inductive Rank
  | member | manager | master
  deriving DecidableEq

def Rank.level : Rank → Nat
  | .member => 0
  | .manager => 1
  | .master => 2

def Rank.max (a b : Rank) : Rank := if b.level < a.level then a else b

/-- Older names map onto the ladder; anything else is none. -/
def Rank.ladder (s : Option Text) : Option Rank :=
  s.bind fun s =>
    if s ∈ ["member".toList,"viewer".toList] then some .member
    else if s ∈ ["manager".toList,"editor".toList] then some .manager
    else if s ∈ ["master".toList,"admin".toList,"owner".toList] then some .master
    else none

/-- An admin's override of an account person in one app. -/
inductive AccountRank
  | rank (r : Rank)
  | refused
  deriving DecidableEq

structure Roles where
  aids : OrdMap Text Text
  invites : OrdMap Text Text
  grants : OrdMap Text Text
  tiers : OrdMap Text Text
  ranks : OrdMap Text AccountRank
  deriving DecidableEq

/-- An app's row of the access file. -/
structure Entry where
  restricted : Bool
  allow : List Text
  groups : OrdMap Text (List Text)
  roles : Roles
  deriving DecidableEq

structure AccessState where
  /-- The mode of an app with no row. -/
  defaultRestricted : Bool
  services : OrdMap Text Entry
  deriving DecidableEq

/-- Members-only or open. -/
def AccessState.restricted (s : AccessState) (serviceRef : Text) : Bool :=
  match s.services.get? serviceRef with
  | none => s.defaultRestricted
  | some e => e.restricted

/-- Who a signing key is on this box. -/
inductive Principal
  | device (pubHex : Text) (admin : Bool)
  | coManager (pubHex shareId : Text)
  deriving DecidableEq

def Principal.pubHex : Principal → Text
  | .device pubHex _ => pubHex
  | .coManager pubHex _ => pubHex

def Principal.isCoManager : Principal → Bool
  | .device _ _ => false
  | .coManager _ _ => true

/-- An admin device is master, every other one manager. -/
def Principal.defaultRank : Principal → Rank
  | .device _ admin => if admin then .master else .manager
  | .coManager _ _ => .manager

structure Principals where
  list : List Principal
  /-- Every device of the account is this one person to an app. -/
  ownerAid : Option Text

def Principals.classify [Lowercase] (ps : Principals) (key : Text) : Option Principal :=
  ps.list.find? (fun p => decide (p.pubHex = toLowercase key))

/-- The installed app as the router selected it. -/
structure AppFacts where
  serviceRef : Text
  routedHost : Text
  publicRoutes : List Text
  /-- Only an admin's invite takes it. -/
  defaultRole : Text

/-- The session cookie's record. -/
structure SessionFact where
  serviceRef : Text
  aid : Text
  /-- Present, unexpired and not closed. -/
  live : Bool

inductive ApiKeyCheck
  | none | invalid | scope | rateLimited
  | ok (keyId : Text)

structure RequestFacts where
  method : Text
  path : Text
  upgrade : Bool
  headers : OrdMap Text Text
  session : Option SessionFact
  apiKey : ApiKeyCheck
  /-- May guest access be honoured now? -/
  externalFresh : Bool
  /-- The app's access list is being caught up: invited people and co-managers wait. -/
  catchingUp : Bool

inductive Decision
  | deny | apiInvalid | apiScope | apiRateLimited | anonymous
  | api (keyId : Text)
  | member (rank : Rank) (identity : Text) (external : Bool)
  deriving DecidableEq

def Decision.outcome : Decision → Text
  | .deny => "deny".toList
  | .apiInvalid => "api-invalid".toList
  | .apiScope => "api-scope".toList
  | .apiRateLimited => "api-rate-limited".toList
  | .anonymous => "forward".toList
  | .api _ => "forward".toList
  | .member _ _ _ => "forward".toList

def rankKey : Principal → Text
  | .device pubHex _ => "device:".toList ++ pubHex
  | .coManager _ shareId => "share:".toList ++ shareId

/-- The access questions about one app. -/
structure AppAccess where
  state : AccessState
  principals : Principals
  serviceRef : Text
  catchingUp : Bool

namespace AppAccess

def entry (acc : AppAccess) : Option Entry := acc.state.services.get? acc.serviceRef

/-- The admin's override, else the default; none when refused or held. -/
def accountRank (acc : AppAccess) (p : Principal) : Option Rank :=
  let set := acc.entry.bind (fun e => e.roles.ranks.get? (rankKey p))
  if set = some .refused then none
  else if p.isCoManager && acc.catchingUp then none
  else
    match set with
    | some (.rank r) => some r
    | _ => some p.defaultRank

section
variable [Lowercase]

/-- Account people unless refused, anyone else only on the list. -/
def isAllowed (acc : AppAccess) (key : Text) : Bool :=
  let k := toLowercase key
  match acc.principals.classify k with
  | some p => (acc.accountRank p).isSome
  | none => if acc.catchingUp then false else acc.entry.any (fun e => e.allow.contains k)

def unsetRank (e : Entry) (invite defaultRole : Text) : Rank :=
  if e.roles.tiers.get? invite = some "admin".toList then
    (Rank.ladder (some defaultRole)).getD .member
  else .member

/-- The rank an invite gives its member, and whether something says so. -/
def grantRank (e : Entry) (aid defaultRole id : Text) : Rank × Bool :=
  let set := (Rank.ladder (e.roles.grants.get? (id ++ '/' :: aid))).or
    (Rank.ladder (e.roles.invites.get? id))
  let tier := e.roles.tiers.get? id
  (set.getD (unsetRank e id defaultRole),set.isSome ||
    decide (tier ∈ [some "member".toList,some "co-manager".toList,some "admin".toList]))

/-- An admin order on an invited person replaces everything, else the highest of
their grants; none when no grant says. -/
def roleOf (acc : AppAccess) (aid defaultRole : Text) : Option Rank :=
  match acc.entry with
  | none => none
  | some e =>
    let aid := toLowercase aid
    match Rank.ladder (e.roles.aids.get? aid) with
    | some r => some r
    | none =>
      let joined := e.groups.entries.filter (fun g => g.2.contains aid)
      let grants := joined.map (fun g => grantRank e aid defaultRole g.1)
      let best := grants.foldl (fun best g => some (best.elim g.1 (fun b => b.max g.1))) none
      if grants.any (fun g => g.2) then best else none

end
end AppAccess

section
variable [Lowercase]

/-- The member a live session names, or none. -/
def sessionMember (acc : AppAccess) (app : AppFacts) (s : SessionFact) : Option Decision :=
  if s.live = false ∨ s.serviceRef ≠ app.serviceRef ∨ lowerHex s.aid 64 = false then none
  else if acc.isAllowed s.aid = false then none
  else
    match acc.principals.classify s.aid with
    | some p =>
      (acc.accountRank p).map fun rank =>
        match p with
        | .device pubHex _ => .member rank (acc.principals.ownerAid.getD pubHex) false
        | .coManager _ _ => .member rank s.aid true
    | none => some (.member ((acc.roleOf s.aid app.defaultRole).getD .member) s.aid true)

/-- Outside the owner's own devices. -/
def Decision.external : Decision → Bool
  | .member _ _ external => external
  | _ => false

/-- May this request reach the app, and as whom? -/
def decide (state : AccessState) (principals : Principals) (app : AppFacts) (req : RequestFacts) :
    Decision :=
  match req.apiKey with
  | .invalid => .apiInvalid
  | .rateLimited => .apiRateLimited
  | .scope => .apiScope
  | .ok keyId => .api keyId
  | .none =>
    let acc : AppAccess := ⟨state,principals,app.serviceRef,req.catchingUp⟩
    let member := req.session.bind (sessionMember acc app)
    let member := member.filter fun _ =>
      !isCrossOriginUnsafe req.method req.upgrade req.headers app.routedHost
    let member := member.filter fun m => !m.external || req.externalFresh
    match member with
    | some m => m
    | none =>
      if state.restricted app.serviceRef = false ∨ matchesPublicRoute req.path app.publicRoutes then
        .anonymous
      else .deny

end
end Flagship.Gate

namespace Flagship.Gate
open Lib
open Access (lowerHex afterHead)
open Journal (Json)

def Rank.asStr : Rank → Text
  | .member => "member".toList
  | .manager => "manager".toList
  | .master => "master".toList

def AccountRank.parse (s : Text) : Option AccountRank :=
  if s = "refused".toList then some .refused
  else if s = "member".toList then some (.rank .member)
  else if s = "manager".toList then some (.rank .manager)
  else if s = "master".toList then some (.rank .master)
  else none

def strMap (v : Option Json) : OrdMap Text Text := Json.collect (fun _ x => x.asStr) v

def rankKeyOk (k : Text) : Bool :=
  (afterHead k "device:".toList).any (fun h => lowerHex h 64) ||
    (afterHead k "share:".toList).any (fun h => lowerHex h 32)

def readRoles (v : Option Json) : Roles :=
  match v.bind Json.asObj with
  | none => ⟨∅,∅,∅,∅,∅⟩
  | some fields =>
    let r := Json.obj fields
    { aids := strMap (r.get "aids")
      invites := strMap (r.get "invites")
      grants := strMap (r.get "grants")
      tiers := strMap (r.get "tiers")
      ranks := OrdMap.collect (fun k v => if rankKeyOk k then AccountRank.parse v else none)
        (strMap (r.get "ranks")).entries }

/-- Lowercased texts of an array, the first of each kept. -/
def lowerSet [Lowercase] (v : Option Json) : List Text :=
  (((v.bind Json.asArr).getD []).filterMap Json.asStr).foldl (fun out s =>
    if out.contains (toLowercase s) then out else out ++ [toLowercase s]) []

def readEntry [Lowercase] (fields : List (Text × Json)) : Option Entry :=
  let e := Json.obj fields
  (e.text "mode").bind fun m =>
    (if m = "open".toList then some false
      else if m = "restricted".toList then some true else none).map fun restricted =>
    { restricted := restricted
      allow := lowerSet (e.get "allow")
      -- a map ordered by its keys, whatever the order in the file
      groups := (Json.collect (fun _ m =>
        if m.asArr.isSome then some (lowerSet (some m)) else none) (e.get "groups")).sorted
      roles := readRoles (e.get "roles") }

/-- The state from the file's text: open without a file, members-only where the file
cannot be read. -/
def AccessState.parse [Lowercase] (fromStr : Text → Option Json) : Option Text → AccessState
  | none => ⟨false,∅⟩
  | some text =>
    match (fromStr text).bind Json.asObj with
    | none => ⟨true,∅⟩
    | some raw =>
      { defaultRestricted := Decidable.decide (((raw.lookup "*".toList).bind fun r => r.text "mode") =
          some "restricted".toList)
        services := OrdMap.collect (fun k v =>
          if k = "*".toList then none else v.asObj.bind readEntry) raw }

/-- The account's people as the decision needs them. -/
def principals [Lowercase] (people : Access.People) : Principals where
  list := people.devices.map (fun d => .device d.pubHex (Decidable.decide (d.tier = .admin))) ++
    (match people.anchors.ownerAidHex.bind people.classify with
      | some (.device pubHex tier true) =>
        [.device pubHex (Decidable.decide (tier = .admin))]
      | _ => []) ++
    people.coManagers.map fun c => .coManager c.pubHex c.shareId
  ownerAid := people.anchors.ownerAidHex

end Flagship.Gate

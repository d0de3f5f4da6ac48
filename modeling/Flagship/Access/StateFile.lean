import Flagship.Lib.Bytes
import Flagship.Access.Journal

namespace Flagship.Journal.Json
open Lib Access

def asBool : Json → Option Bool
  | .bool b => some b
  | _ => none

def asNum : Json → Option Number
  | .num n => some n
  | _ => none

def asArr : Json → Option (List Json)
  | .arr items => some items
  | _ => none

def asObj : Json → Option (List (Text × Json))
  | .obj fields => some fields
  | _ => none

/-- A field's text. -/
def text (v : Json) (name : String) : Option Text := (v.get name).bind asStr

/-- The fields of an object that `f` takes, as a map. -/
def collect {ν : Type} (f : Text → Json → Option ν) (v : Option Json) : OrdMap Text ν :=
  OrdMap.collect f ((v.bind asObj).getD [])

end Flagship.Journal.Json

namespace Flagship.Access
open Lib
open Journal (Json)

/-- What is kept of a map. -/
def retain {ν : Type} (p : Text → ν → Bool) (m : OrdMap Text ν) : OrdMap Text ν :=
  m.filterMapVals fun k v => if p k v then some v else none

def defaultRow : Text := "*".toList

def rankIndex (r : Text) : Nat :=
  if r = "master".toList then 2 else if r = "manager".toList then 1 else 0

def higher (a : Option Text) (b : Text) : Text :=
  match a with
  | some a => if rankIndex b ≤ rankIndex a then a else b
  | none => b

def accountRankOk (v : Text) : Bool :=
  decide (v ∈ ["refused","member","manager","master"].map String.toList)

def strMap (v : Option Json) : OrdMap Text Text := Json.collect (fun _ x => x.asStr) v

/-- A co-manager's record, or nothing where one of its fields is not what it should be. -/
def readCoManager (id : Text) (o : Json) : Option CoManagerRecord :=
  if lowerHex id 32 && o.isObj then do
    let pubHex ← (o.text "pub").filter fun p => lowerHex p 64
    let level ← (o.text "level").filter fun l => decide (l ∈ ["view".toList,"manage".toList])
    let serverDomain ← o.text "serverDomain"
    let issuedAt ← (o.get "issuedAt").bind Json.asNum
    some
      { pubHex := pubHex
        level := level
        label := (o.text "label").getD []
        serverDomain := serverDomain
        issuedAt := issuedAt
        ended := decide ((o.get "ended").bind Json.asBool = some true) }
  else none

/-- A signature, then the rank order it signs. -/
def evidenceOk (v : Text) : Bool :=
  decide ((utf8Bytes v).length ≤ 4400) && lowerHex (v.take 128) 128 &&
    decide (":flagship/app-rank/v1|".toList <+: v.drop 128)

/-- When the withdraw was issued, and its signature. -/
def withdrawnOk (v : Text) : Bool :=
  (splitOnce ':' v).any fun (n,s) => !n.isEmpty && n.all Char.isDigit && lowerHex s 128

def rankKeyOk (k : Text) : Bool :=
  (afterHead k "device:".toList).any (fun h => lowerHex h 64) ||
    (afterHead k "share:".toList).any (fun h => lowerHex h 32)

def emptyRoles : Roles := ⟨∅,∅,∅,∅,∅,∅,∅,∅,∅,∅⟩

def readRoles (v : Option Json) : Roles :=
  match v.filter Json.isObj with
  | none => emptyRoles
  | some r =>
    { aids := strMap (r.get "aids")
      invites := strMap (r.get "invites")
      grants := strMap (r.get "grants")
      seq := Json.collect (fun _ x => x.asNum) (r.get "seq")
      tiers := strMap (r.get "tiers")
      creators := retain (fun _ v => lowerHex v 64) (strMap (r.get "creators"))
      ranks := retain (fun k v => rankKeyOk k && accountRankOk v) (strMap (r.get "ranks"))
      evidence := retain (fun _ v => evidenceOk v) (strMap (r.get "evidence"))
      withdrawn := retain (fun _ v => withdrawnOk v) (strMap (r.get "withdrawn"))
      coManagers := Json.collect readCoManager (r.get "coManagers") }

/-- Lowercased texts of an array, the first of each kept. -/
def lowerUnique [Lowercase] (v : Option Json) : List Text :=
  (((v.bind Json.asArr).getD []).filterMap Json.asStr).foldl (fun out s =>
    if out.contains (toLowercase s) then out else out ++ [toLowercase s]) []

/-- An app's row; one without a mode is passed over. -/
def readRow [Lowercase] (e : Json) : Option Row :=
  (match e.text "mode" with
    | some m => if m = "open".toList then some false
      else if m = "restricted".toList then some true else none
    | none => none).map fun restricted =>
    { restricted := restricted
      allow := lowerUnique (e.get "allow")
      groups := Json.collect (fun _ m => if m.asArr.isSome then some (lowerUnique (some m)) else none)
        (e.get "groups")
      roles := readRoles (e.get "roles") }

/-- `from_map`. -/
def Store.fromMap [Lowercase] (raw : List (Text × Json)) : Store where
  defaultRestricted := decide (((raw.lookup defaultRow).bind fun r => r.text "mode") =
    some "restricted".toList)
  rows := OrdMap.collect (fun k e => if k = defaultRow then none else readRow e) raw

/-- Why the state file could not be read. -/
inductive Unreadable
  | unreadable
  deriving DecidableEq

/-- The state from the file's text; without a file it is the empty open state. -/
def Store.parse [Lowercase] (fromStr : Text → Option Json) : Option Text → Except Unreadable Store
  | none => .ok ⟨false,∅⟩
  | some text =>
    match (fromStr text).bind Json.asObj with
    | none => .error .unreadable
    | some raw => .ok (Store.fromMap raw)

/-- A map's pairs as the fields of an object. -/
def mapJson {ν : Type} (f : ν → Json) (m : OrdMap Text ν) : Json :=
  .obj (m.entries.map fun e => (e.1,f e.2))

def coManagerJson (c : CoManagerRecord) : Json :=
  .obj [("pub".toList,.str c.pubHex),("level".toList,.str c.level),("label".toList,.str c.label),
    ("serverDomain".toList,.str c.serverDomain),("issuedAt".toList,.num c.issuedAt),
    ("ended".toList,.bool c.ended)]

def rolesJson (r : Roles) : Json :=
  .obj [("aids".toList,mapJson .str r.aids),("invites".toList,mapJson .str r.invites),
    ("grants".toList,mapJson .str r.grants),("seq".toList,mapJson .num r.seq),
    ("tiers".toList,mapJson .str r.tiers),("creators".toList,mapJson .str r.creators),
    ("ranks".toList,mapJson .str r.ranks),("evidence".toList,mapJson .str r.evidence),
    ("withdrawn".toList,mapJson .str r.withdrawn),
    ("coManagers".toList,mapJson coManagerJson r.coManagers)]

def rowJson (e : Row) : Json :=
  .obj [("mode".toList,.str (if e.restricted then "restricted".toList else "open".toList)),
    ("allow".toList,.arr (e.allow.map .str)),
    ("groups".toList,mapJson (fun m => .arr (m.map .str)) e.groups),("roles".toList,rolesJson e.roles)]

/-- The file's value; a row replaces one of its name that is there already. -/
def Store.toJson (s : Store) : Json :=
  let byDefault : List (Text × Json) :=
    if s.defaultRestricted then [(defaultRow,.obj [("mode".toList,.str "restricted".toList),
      ("allow".toList,.arr []),("groups".toList,.obj [])])]
    else []
  .obj (OrdMap.collect (fun _ v => some v)
    (byDefault ++ s.rows.entries.map fun e => (e.1,rowJson e.2))).entries

def Store.row (s : Store) (r : Text) : Option Row := s.rows.get? r

def unsetRank (e : Row) (inviteId defaultRole : Text) : Text :=
  if e.roles.tiers.get? inviteId = some "admin".toList then
    (ladderRole (some defaultRole)).getD "member".toList
  else "member".toList

/-- The role a grant gives its member, and whether something says so. -/
def grantRole (e : Row) (aid defaultRole id : Text) : Text × Bool :=
  let set := (ladderRole (e.roles.grants.get? (id ++ '/' :: aid))).or
    (ladderRole (e.roles.invites.get? id))
  let tier := e.roles.tiers.get? id
  (set.getD (unsetRank e id defaultRole),
    set.isSome || cappedTier tier || decide (tier = some "admin".toList))

/-- An admin's order on the person, else the highest of their grants; none when none was
set. -/
def Store.roleOf [Lowercase] (s : Store) (r aid defaultRole : Text) : Option Text :=
  match s.row r with
  | none => none
  | some e =>
    let aid := toLowercase aid
    match ladderRole (e.roles.aids.get? aid) with
    | some d => some d
    | none =>
      let grants := (e.grantsOf aid).map (grantRole e aid defaultRole)
      let best := grants.foldl (fun best g => some (higher best g.1)) none
      if grants.any (fun g => g.2) then best else none

end Flagship.Access

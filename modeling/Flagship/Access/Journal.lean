import Flagship.Access.Store

namespace Flagship.Journal
open Lib
open Access (Number numF64 anyHex)

/-- A JSON value. An object holds its fields in the order of their names. -/
inductive Json
  | null
  | bool (b : Bool)
  | num (n : Number)
  | str (s : Text)
  | arr (items : List Json)
  | obj (fields : List (Text × Json))

namespace Json

def get (v : Json) (name : String) : Option Json :=
  match v with
  | .obj fields => fields.lookup name.toList
  | _ => none

def asStr : Json → Option Text
  | .str s => some s
  | _ => none

def asF64 : Json → Option Rat
  | .num n => some (numF64 n)
  | _ => none

def isObj : Json → Bool
  | .obj _ => true
  | _ => false

mutual

/-- Every object's names stand in strictly increasing order. -/
def ordered : Json → Bool
  | .arr items => orderedItems items
  | .obj fields => decide ((fields.map Prod.fst).Pairwise (· < ·)) && orderedFields fields
  | _ => true

def orderedItems : List Json → Bool
  | [] => true
  | x :: xs => ordered x && orderedItems xs

def orderedFields : List (Text × Json) → Bool
  | [] => true
  | (_,x) :: xs => ordered x && orderedFields xs

end
end Json

/-- What the platform prints and hashes: the shortest decimal of a double, and
SHA-256 in lowercase hex. -/
class Platform where
  f64Text : Rat → Text
  sha256Hex : Text → Text

export Platform (f64Text sha256Hex)

/-- A character of a quoted JSON string. -/
def jsonChar (c : Char) : Text :=
  if c = '"' then ['\\','"']
  else if c = '\\' then ['\\','\\']
  else if c.toNat = 8 then ['\\','b']
  else if c.toNat = 9 then ['\\','t']
  else if c.toNat = 10 then ['\\','n']
  else if c.toNat = 12 then ['\\','f']
  else if c.toNat = 13 then ['\\','r']
  else if c.toNat < 32 then
    ['\\','u','0','0'] ++ [Nat.digitChar (c.toNat / 16),Nat.digitChar (c.toNat % 16)]
  else [c]

def jsonString (s : Text) : Text := '"' :: s.flatMap jsonChar ++ ['"']

section
variable [Platform]

def numText : Number → Text
  | .u64 n => Nat.toDigits 10 n
  | .i64 n => if n < 0 then '-' :: Nat.toDigits 10 n.natAbs else Nat.toDigits 10 n.natAbs
  | .f64 q => f64Text q

mutual

/-- JavaScript's `String(value)` for the shapes an invite id can take. -/
def jsString : Json → Text
  | .null => "null".toList
  | .str s => s
  | .bool b => if b then "true".toList else "false".toList
  | .num n => numText n
  | .arr items => jsItems items
  | .obj _ => "[object Object]".toList

/-- The items of an array with commas between them, null as nothing. -/
def jsItems : List Json → Text
  | [] => []
  | [.null] => []
  | [x] => jsString x
  | .null :: xs => ',' :: jsItems xs
  | x :: xs => jsString x ++ ',' :: jsItems xs

end

def jsField (v : Option Json) : Text := (v.map jsString).getD "undefined".toList

mutual

/-- JSON with sorted names, as the TypeScript twin writes it. -/
def stableJson : Json → Text
  | .arr items => '[' :: stableItems items ++ [']']
  | .obj fields => '\x7b' :: stableFields fields ++ ['\x7d']
  | .null => "null".toList
  | .bool b => if b then "true".toList else "false".toList
  | .num n => numText n
  | .str s => jsonString s

def stableItems : List Json → Text
  | [] => []
  | [x] => stableJson x
  | x :: xs => stableJson x ++ ',' :: stableItems xs

def stableFields : List (Text × Json) → Text
  | [] => []
  | [(k,x)] => jsonString k ++ ':' :: stableJson x
  | (k,x) :: xs => jsonString k ++ ':' :: (stableJson x ++ ',' :: stableFields xs)

end
end

/-- Entries kept per app, at most. -/
def journalCap : Nat := 20000

inductive Kind
  | rank | mode | remove | join | accept | withdraw | share
  deriving DecidableEq

def Kind.ofText (s : Text) : Option Kind :=
  [("rank",Kind.rank),("mode",.mode),("remove",.remove),("join",.join),("accept",.accept),
    ("withdraw",.withdraw),("share",.share)].findSome? fun k =>
      if k.1.toList = s then some k.2 else none

def isSig (v : Option Json) : Bool := (v.bind Json.asStr).any (anyHex · 128)

def isStr (v : Option Json) : Bool := (v.bind Json.asStr).isSome

def isNum (v : Option Json) : Bool := (v.bind Json.asF64).isSome

/-- A field that is an object passing a test of its own fields. -/
def objWith (v : Option Json) (test : Json → Bool) : Bool := v.any fun o => o.isObj && test o

def kindOf (v : Json) : Option Kind := ((v.get "kind").bind Json.asStr).bind Kind.ofText

/-- `parse_entry`: is this the shape of an entry? The applier verifies. -/
def parseEntry (v : Json) : Bool :=
  let order := fun test => isSig (v.get "signature") && objWith (v.get "order") fun o =>
    isStr (o.get "serviceRef") && isNum (o.get "issuedAt") && test o
  match kindOf v with
  | some .rank => order fun o => isStr (o.get "target") && isStr (o.get "rank")
  | some .mode => order fun o => decide ((o.get "mode").bind Json.asStr ∈
      [some "open".toList,some "restricted".toList])
  | some .remove => order fun o => isStr (o.get "aid")
  | some .join => objWith (v.get "create") (fun _ => true) && isSig (v.get "createSig") &&
      objWith (v.get "redeem") fun d => isStr (d.get "secretHash") && isStr (d.get "visitorAID") &&
        isNum (d.get "redeemedAt") && isSig (d.get "aidSig")
  | some .accept => objWith (v.get "create") (fun _ => true) && isSig (v.get "createSig") &&
      isSig (v.get "acceptSig") && objWith (v.get "accept") fun a => isStr (a.get "inviteId") &&
        isStr (a.get "serviceRef") && isStr (a.get "contactAID") && isNum (a.get "acceptedAt")
  | some .withdraw => isSig (v.get "signature") &&
      objWith (v.get "revoke") fun rv => isStr (rv.get "inviteId") && isNum (rv.get "issuedAt")
  | some .share => isSig (v.get "signature") &&
      objWith (v.get "grant") (fun g => isStr (g.get "shareId") && isNum (g.get "issuedAt")) &&
      (v.get "end").all fun e => e.isObj && isSig (e.get "signature") &&
        (if (e.get "kind").bind Json.asStr = some "revoke".toList then
          objWith (e.get "revoke") fun _ => true
        else if (e.get "kind").bind Json.asStr = some "leave".toList then
          objWith (e.get "leave") fun _ => true
        else false)
  | none => false

/-- A shape-checked entry: the JSON it came as. -/
structure AccessEntry where
  json : Json
  ordered : json.ordered = true
  shaped : parseEntry json = true

namespace AccessEntry

def field (e : AccessEntry) (outer inner : String) : Option Json :=
  (e.json.get outer).bind (·.get inner)

def kind (e : AccessEntry) : Option Kind := kindOf e.json

def hasEnd (e : AccessEntry) : Bool := (e.json.get "end").isSome

end AccessEntry

/-- The time that orders entries under one key. -/
def entryTime (e : AccessEntry) : Option Rat :=
  let at' := fun outer inner => (e.field outer inner).bind Json.asF64
  match e.kind with
  | some .rank | some .mode | some .remove => at' "order" "issuedAt"
  | some .join => at' "redeem" "redeemedAt"
  | some .accept => at' "accept" "acceptedAt"
  | some .withdraw => at' "revoke" "issuedAt"
  | some .share => at' "grant" "issuedAt"
  | none => none

/-- A comparison with a missing number is false. -/
def laterThan (a b : Option Rat) : Bool :=
  match a,b with
  | some a,some b => decide (b < a)
  | _,_ => false

def latestWins (e : AccessEntry) : Bool :=
  decide (e.kind = some .rank ∨ e.kind = some .mode ∨ e.kind = some .remove)

/-- Does an entry replace the one before it under the same key? A share's end is
final; otherwise the newer grant. -/
def supersedes (e prev : AccessEntry) : Bool :=
  if e.kind = some .share ∧ prev.kind = some .share then
    if prev.hasEnd then false
    else if e.hasEnd then true
    else laterThan (entryTime e) (entryTime prev)
  else latestWins e && laterThan (entryTime e) (entryTime prev)

section
variable [Platform] [Lowercase]

/-- Which entry an entry supersedes: one is kept per key. -/
def entryKey (e : AccessEntry) : Text :=
  match e.kind with
  | some .rank => "rank:".toList ++ jsField (e.field "order" "target")
  | some .mode => "mode".toList
  | some .remove => "remove:".toList ++ jsField (e.field "order" "aid")
  | some .join => "join:".toList ++ jsField (e.field "create" "inviteId") ++
      '/' :: toLowercase (jsField (e.field "redeem" "visitorAID"))
  | some .accept => "join:".toList ++ jsField (e.field "accept" "inviteId") ++
      '/' :: toLowercase (jsField (e.field "accept" "contactAID"))
  | some .withdraw => "withdraw:".toList ++ jsField (e.field "revoke" "inviteId")
  | some .share => "share:".toList ++ jsField (e.field "grant" "shareId")
  | none => []

def entryHash (e : AccessEntry) : Text := sha256Hex (stableJson e.json)

end

/-- The entries of each app. -/
structure AccessJournal where
  byApp : OrdMap Text (OrdMap Text AccessEntry)

namespace AccessJournal

def empty : AccessJournal := ⟨∅⟩

/-- An app's entries by their keys. -/
def app (j : AccessJournal) (serviceRef : Text) : OrdMap Text AccessEntry :=
  (j.byApp.get? serviceRef).getD ∅

def entries (j : AccessJournal) (serviceRef : Text) : List AccessEntry :=
  (j.app serviceRef).entries.map Prod.snd

section
variable [Platform] [Lowercase]

/-- Keep an entry; is it new, or newer than the one it supersedes? -/
def add (j : AccessJournal) (serviceRef : Text) (e : AccessEntry) : AccessJournal × Bool :=
  let key := entryKey e
  let app := j.app serviceRef
  let keep := match app.get? key with
    | some prev => !(decide (entryHash prev = entryHash e) || !supersedes e prev)
    | none => !decide (journalCap ≤ app.size)
  (⟨j.byApp.set serviceRef (if keep then app.set key e else app)⟩,keep)

/-- A short fingerprint of an app's entries. -/
def digest (j : AccessJournal) (serviceRef : Text) : Text :=
  let lines := (j.app serviceRef).entries.map fun (k,e) => k ++ '=' :: entryHash e
  sha256Hex (List.intercalate ['\n'] (lines.mergeSort (fun a b => decide (a ≤ b))))

end
end AccessJournal
end Flagship.Journal

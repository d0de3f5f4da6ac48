import Flagship.Lib.OrdMap
import Flagship.Lib.Text

namespace Flagship.Authority
open Lib

inductive GrantKind
  | ownerSession
  | companionSession
  | companionDelegation
  | appApiKey
  | mcpKey
  | buildToken
  | share
  | memberInvite
  | browserGrant
  | secretHandle
  | streamTicket
  | job
  deriving DecidableEq

/-- Something that lets someone act for the owner, with the grants it derives from. -/
structure Grant where
  id : Text
  kind : GrantKind
  issuer : Text
  subject : Text
  accountGeneration : Int
  service : Option Text
  audience : Text
  capability : Text
  parents : List Text
  policyRevision : Int
  issuedAt : Int
  expiresAt : Option Int
  revokedAt : Option Int
  revokeReason : Option Text
  secretAccess : Bool
  deriving DecidableEq

/-- `NewGrant`: what a caller of `issue` gives. -/
structure NewGrant where
  id : Text
  kind : Option GrantKind
  issuer : Text
  subject : Text
  accountGeneration : Int
  service : Option Text
  audience : Text
  capability : Text
  parents : Option (List Text)
  policyRevision : Int
  issuedAt : Int
  expiresAt : Option Int
  secretAccess : Option Bool
  deriving DecidableEq

inductive GrantRefusal
  | unknownParent
  | deadParent
  | secretWidening
  | duplicate
  | badGrant
  | indexUnavailable
  deriving DecidableEq

/-- The index. A grant is an object of the process, which a revocation changes in
place; what is still to be written to the file holds on to the objects. -/
structure GrantIndex where
  /-- Which object stands for an id. -/
  grants : OrdMap Text Nat
  objects : List Grant
  epochValue : Int
  failedClosed : Bool
  deriving DecidableEq

/-- What the file holds: the epoch and the grants. -/
structure GrantsFile where
  epoch : Int
  grants : List Grant
  deriving DecidableEq

/-- `Persisted`, before it is made text: the epoch, and the objects. -/
structure GrantsBody where
  epoch : Int
  objects : List Nat
  deriving DecidableEq

namespace GrantIndex

def empty : GrantIndex := ⟨∅,[],0,false⟩

def get? (index : GrantIndex) (id : Text) : Option Grant :=
  (index.grants.get? id).bind fun object => index.objects[object]?

def values (index : GrantIndex) : List Grant :=
  index.grants.entries.filterMap fun entry => index.objects[entry.2]?

/-- A new object stands for its id. -/
def put (index : GrantIndex) (g : Grant) : GrantIndex :=
  { index with
    grants := index.grants.set g.id index.objects.length
    objects := index.objects ++ [g] }

/-- What `load` makes of the file. -/
def ofFile (file : GrantsFile) : GrantIndex :=
  file.grants.foldl put { empty with epochValue := file.epoch }

/-- What `persist` is to write. -/
def snapshot (index : GrantIndex) : GrantsBody :=
  ⟨index.epochValue,index.grants.entries.map Prod.snd⟩

/-- `JSON.stringify`: the objects as they are by now. -/
def stringify (index : GrantIndex) (body : GrantsBody) : GrantsFile :=
  ⟨body.epoch,body.objects.filterMap fun object => index.objects[object]?⟩

/-- `walk`: one set of the grants seen goes along the whole walk. The fuel bounds
the depth; a path that is not cut short meets every grant at most once. -/
def walk (index : GrantIndex) (time : Int) : Nat → List Text → Text → Bool × List Text
  | 0,seen,_ => (false,seen)
  | fuel + 1,seen,gid =>
    if seen.contains gid then (false,seen)
    else match index.get? gid with
      | none => (false,gid :: seen)
      | some g =>
        if g.revokedAt.isSome then (false,gid :: seen)
        else if g.expiresAt.any (· ≤ time) then (false,gid :: seen)
        else g.parents.foldl
          (fun acc parent => if acc.1 then walk index time fuel acc.2 parent else acc)
          (true,gid :: seen)

def isLive (index : GrantIndex) (id : Text) (time : Int) : Bool :=
  !index.failedClosed && (index.walk time (index.grants.size + 1) [] id).1

/-- One grant of the queue at a time, and after it the grants below it that were
not found before. -/
def search (index : GrantIndex) : Nat → List Text → List Text → List Grant → List Grant
  | 0,_,_,out => out
  | _,[],_,out => out
  | fuel + 1,cur :: queue,seen,out =>
    let found := index.values.filter fun g => !seen.contains g.id && g.parents.contains cur
    search index fuel (queue ++ found.map (·.id)) (seen ++ found.map (·.id)) (out ++ found)

def descendants (index : GrantIndex) (id : Text) : List Grant :=
  index.search (index.grants.size + 1) [id] [id] []

end GrantIndex
end Flagship.Authority

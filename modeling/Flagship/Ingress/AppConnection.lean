import Flagship.Ingress.Http

namespace Flagship.Ingress.Ts
open Lib Gate

/-- What `\s` matches and `trim` takes off. -/
def jsWhitespace (c : Char) : Bool :=
  (0x09 ≤ c.toNat && c.toNat ≤ 0x0d) || c.toNat == 0x20 || c.toNat == 0xa0 || c.toNat == 0x1680 ||
    (0x2000 ≤ c.toNat && c.toNat ≤ 0x200a) || c.toNat == 0x2028 || c.toNat == 0x2029 ||
    c.toNat == 0x202f || c.toNat == 0x205f || c.toNat == 0x3000 || c.toNat == 0xfeff

def trim (s : Text) : Text := trimEnds jsWhitespace s

def lowerLatin1 (c : Char) : Char :=
  if 0xc0 ≤ c.toNat && c.toNat ≤ 0xde && c.toNat != 0xd7 then Char.ofNat (c.toNat + 0x20)
  else c.toLower

/-- `toLowerCase`, of text that came from latin1. -/
def toLowerCase (s : Text) : Text := s.map lowerLatin1

structure ParsedHead where
  method : Text
  path : Text
  version : Version
  headers : Headers
  deriving DecidableEq

/-- What a plain object has before anything is assigned, as the text it is joined into. -/
def inherited : Headers :=
  [("__proto__".toList,"[object Object]".toList),
    ("constructor".toList,"function Object() \x7b [native code] \x7d".toList)]

def property (headers : Headers) (key : Text) : Option Text :=
  (headerOf headers key).or (headerOf inherited key)

/-- `headers[key] = value`; a text given as the prototype changes nothing. -/
def assign (key value : Text) (headers : Headers) : Headers :=
  if key = "__proto__".toList then headers else upsert key (fun _ => value) headers

/-- The regular expression of the request line: a token, a target that starts with a slash
and holds no whitespace, and the version. -/
def matchRequestLine (line : Text) : Option (Text × Text × Version) :=
  let method := line.takeWhile fun c => isTchar c.toNat
  if method.isEmpty then none
  else match line.drop method.length with
    | ' ' :: rest =>
      let path := rest.takeWhile fun c => !jsWhitespace c
      if path.head? != some '/' then none
      else if rest.drop path.length = versionSuffix .http11 then some (method,path,.http11)
      else if rest.drop path.length = versionSuffix .http10 then some (method,path,.http10)
      else none
    | _ => none

def addLine (headers : Headers) (line : Text) : Option Headers :=
  let k := line.takeWhile (· != ':')
  match line.drop k.length with
  | [] => none
  | _ :: rest =>
    if k.isEmpty || !k.all (fun c => isTchar c.toNat) then none
    else
      let key := toLowerCase k
      let v := trim rest
      if !v.all (fun c => safeChar c.toNat && c.toNat ≤ 0xff) then none
      else some (assign key (combine key v (property headers key)) headers)

def parseHead (block : Text) : Option ParsedHead :=
  match splitPair '\r' '\n' block with
  | [] => none
  | first :: lines => do
    let (method,path,version) ← matchRequestLine first
    let headers ← lines.foldlM addLine []
    some ⟨method,path,version,headers⟩

def elements (value : Text) : List Text := ((toLowerCase value).splitOn ',').map trim

def isWebSocketUpgrade (headers : Headers) : Bool :=
  toLowerCase ((headerOf headers "upgrade".toList).getD []) = "websocket".toList &&
    (elements ((headerOf headers "connection".toList).getD [])).contains "upgrade".toList

def requestBodyFraming (headers : Headers) (upgrade : Bool) : Except Refusal RequestBody :=
  bodyFraming headers (fun te => toLowerCase te = "chunked".toList) upgrade

def stripIdentityHeaders (headers : Headers) : Headers :=
  headers.filter fun h => !identityPrefix.isPrefixOf
    ((toLowerCase h.1).map fun c => if c = '_' then '-' else c)

/-- What the access decision makes of the client's headers: those of an identity and those
to be dropped are gone, those it sets are there. -/
def prepared (client : Headers) (inj : Injection) : Headers :=
  inj.set.foldl (fun headers h => upsert h.1 (fun _ => h.2) headers)
    ((stripIdentityHeaders client).filter fun h => !inj.remove.contains h.1)

def forwardRequestHeaders (prepared : Headers) (upgrade : Bool) : Headers :=
  let named := (elements ((headerOf prepared "connection".toList).getD [])).filter
    fun t => !t.isEmpty
  let out := prepared.foldl (fun out h =>
    if passes named (toLowerCase h.1) then upsert (toLowerCase h.1) (fun _ => h.2) out else out) []
  (ownConnection upgrade).foldl (fun out h => upsert h.1 (fun _ => h.2) out) out

end Flagship.Ingress.Ts

namespace Flagship.Ingress
open Lib Gate

/-- An element of the `Connection` value that says something: that the connection is
upgraded, where the request asks for a WebSocket, or that a header is to be dropped which
is sent on otherwise. -/
def Matters (headers : Headers) (name : Text) : Prop :=
  name = "upgrade".toList ∧
      asciiLower ((headerOf headers "upgrade".toList).getD []) = "websocket".toList ∨
    name ∈ headers.map Prod.fst ∧ name ∉ hopRequest ∧ isIdentityHeader name = false ∧
      ¬ "sec-websocket-".toList <+: name

/-- Every such element is one with JavaScript's whitespace around it already, which is all
but U+0085. -/
def SameElements (headers : Headers) : Prop :=
  ∀ name ∈ elements ((headerOf headers "connection".toList).getD []),Matters headers name →
    name ∈ Ts.elements ((headerOf headers "connection".toList).getD [])

end Flagship.Ingress

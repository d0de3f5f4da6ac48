import Flagship.Gate.Origin
import Flagship.Ingress.Chunked
import Flagship.Lib.Split

namespace Flagship.Ingress
open Lib Gate

inductive Version
  | http10
  | http11
  deriving DecidableEq

/-- Name and value of a header, in the order of the head. -/
abbrev Headers := List (Text × Text)

structure RequestHead where
  method : Text
  target : Text
  version : Version
  headers : Headers
  deriving DecidableEq

def headerOf (headers : Headers) (name : Text) : Option Text :=
  (headers.find? fun h => h.1 = name).map Prod.snd

def RequestHead.get (head : RequestHead) (name : Text) : Option Text := headerOf head.headers name

/-- `to_ascii_lowercase`. -/
def asciiLower (s : Text) : Text := s.map Char.toLower

/-- Of a byte, or of the character it stands for: a character of a token. -/
def isTchar (n : Nat) : Bool :=
  (0x30 ≤ n && n ≤ 0x39) || (0x41 ≤ n && n ≤ 0x5a) || (0x61 ≤ n && n ≤ 0x7a) ||
    [0x21,0x23,0x24,0x25,0x26,0x27,0x2a,0x2b,0x2e,0x5e,0x5f,0x60,0x7c,0x7e,0x2d].contains n

/-- JavaScript's whitespace, as far as latin1 goes. -/
def jsSpace (n : Nat) : Bool := (0x09 ≤ n && n ≤ 0x0d) || n == 0x20 || n == 0xa0

/-- What may stand in a value. -/
def safeChar (n : Nat) : Bool := n == 0x09 || (0x20 ≤ n && n ≤ 0x7e) || 0x80 ≤ n

def jsTrim (s : Bytes) : Bytes := trimEnds (fun b => jsSpace b.toNat) s

def latin1 (s : Bytes) : Text := s.map fun b => Char.ofNat b.toNat

/-- Back to bytes; a character that has none is written as a question mark. -/
def toLatin1 (s : Text) : Bytes :=
  s.map fun c => if c.toNat < 256 then UInt8.ofNat c.toNat else 0x3f

def prototypeNames : List Text := ["__proto__".toList,"constructor".toList]

def splitCrlf (block : Bytes) : List Bytes := splitPair 13 10 block

/-- Name and value of a header line, the value trimmed. -/
def headerLine (line : Bytes) : Option (Bytes × Bytes) :=
  let name := line.takeWhile (· != 0x3a)
  match line.drop name.length with
  | [] => none
  | _ :: rest =>
    let value := jsTrim rest
    if name.isEmpty || !name.all (fun b => isTchar b.toNat) ||
      !value.all (fun b => safeChar b.toNat) then none
    else some (name,value)

/-- The value of a header is set from the one it has; a header that is not there yet comes
last. -/
def upsert (k : Text) (f : Option Text → Text) : Headers → Headers
  | [] => [(k,f none)]
  | (k',v') :: headers =>
    if k' = k then (k',f (some v')) :: headers else (k',v') :: upsert k f headers

/-- Repeated headers are combined. -/
def combine (k v : Text) : Option Text → Text
  | none => v
  | some prev => prev ++ (if k = "cookie".toList then "; ".toList else ", ".toList) ++ v

def addLine (headers : Headers) (line : Bytes) : Option Headers := do
  let (name,value) ← headerLine line
  let key := asciiLower (latin1 name)
  if prototypeNames.contains key then none
  else some (upsert key (combine key (latin1 value)) headers)

/-- How a request line ends. -/
def versionSuffix : Version → Text
  | .http10 => " HTTP/1.0".toList
  | .http11 => " HTTP/1.1".toList

def requestLine (first : Bytes) : Option (Bytes × Bytes × Version) :=
  let method := first.takeWhile (· != 0x20)
  match first.drop method.length with
  | [] => none
  | _ :: after =>
    if method.isEmpty || !method.all (fun b => isTchar b.toNat) then none
    else
      let version := if toLatin1 (versionSuffix .http11) <:+ after then some Version.http11
        else if toLatin1 (versionSuffix .http10) <:+ after then some Version.http10 else none
      match version with
      | none => none
      | some version =>
        let target := after.take (after.length - 9)
        if target.head? != some 0x2f || target.any (fun b => jsSpace b.toNat) then none
        else some (method,target,version)

/-- Of the bytes before the first empty line. There is one way to fail: the head goes to
the daemon. -/
def parseRequestHead (block : Bytes) : Option RequestHead :=
  match splitCrlf block with
  | [] => none
  | first :: lines => do
    let (method,target,version) ← requestLine first
    let headers ← lines.foldlM addLine []
    some ⟨latin1 method,latin1 target,version,headers⟩

/-- Where the first empty line begins. -/
def findHeadEnd : Bytes → Option Nat
  | [] => none
  | b :: buf =>
    if (crlf ++ crlf) <+: b :: buf then some 0 else (findHeadEnd buf).map (· + 1)

inductive RequestBody
  | none
  | length (n : Nat)
  | chunked
  deriving DecidableEq

structure Refusal where
  status : Nat
  text : Text
  deriving DecidableEq

/-- The elements of a list in a value, without the whitespace around them. -/
def elements (value : Text) : List Text := ((asciiLower value).splitOn ',').map trim

def isWebsocketUpgrade (headers : Headers) : Bool :=
  asciiLower ((headerOf headers "upgrade".toList).getD []) = "websocket".toList &&
    (elements ((headerOf headers "connection".toList).getD [])).contains "upgrade".toList

def parseDigits (s : Text) : Nat := s.foldl (fun n c => n * 10 + (c.toNat - 0x30)) 0

/-- One to fifteen digits. (The code counts bytes, which for digits is the same.) -/
def isLength (s : Text) : Bool := !s.isEmpty && s.length ≤ 15 && s.all Char.isDigit

/-- How the body is framed, of a request for whose upgrade is known. -/
def bodyFraming (headers : Headers) (isChunked : Text → Bool) (upgrade : Bool) :
    Except Refusal RequestBody := do
  let te := headerOf headers "transfer-encoding".toList
  let cl := headerOf headers "content-length".toList
  if te.isSome && cl.isSome then
    throw ⟨400,"both Transfer-Encoding and Content-Length".toList⟩
  let plan ← match te,cl with
    | some te,_ =>
      if !isChunked te then throw ⟨501,"unsupported transfer-encoding".toList⟩
      else pure RequestBody.chunked
    | none,some cl =>
      if !isLength cl then throw ⟨400,"bad content-length".toList⟩
      else pure (if 0 < parseDigits cl then RequestBody.length (parseDigits cl) else .none)
    | none,none => pure RequestBody.none
  if upgrade && plan ≠ .none then throw ⟨400,"an upgrade request has no body".toList⟩
  return plan

def requestBody (head : RequestHead) : Except Refusal RequestBody :=
  bodyFraming head.headers (fun te => asciiLower te = "chunked".toList)
    (isWebsocketUpgrade head.headers)

def hopRequest : List Text :=
  ["connection","keep-alive","proxy-connection","proxy-authorization","te","trailer",
    "transfer-encoding","upgrade","content-length","expect","http2-settings"].map String.toList

def hopResponse : List Text :=
  ["connection","keep-alive","proxy-connection","transfer-encoding","upgrade","te",
    "trailer"].map String.toList

def identityPrefix : Text := "x-flagship-".toList

/-- Case and underscores folded away. -/
def foldName (name : Text) : Text := name.map fun c => if c = '_' then '-' else c.toLower

def isIdentityHeader (name : Text) : Bool := identityPrefix <+: foldName name

structure Injection where
  set : Headers
  remove : List Text
  deriving DecidableEq

inductive InjectionError
  | notIdentityHeader
  | badValue
  | badRemoval
  deriving DecidableEq

def safeValue (v : Text) : Bool := v.all fun c => safeChar c.toNat

/-- A token without capitals. -/
def lowerToken (k : Text) : Bool :=
  k.all (fun c => isTchar c.toNat) && !k.any fun c => 0x41 ≤ c.toNat && c.toNat ≤ 0x5a

def checkSet (h : Text × Text) : Except InjectionError Unit :=
  if !identityPrefix.isPrefixOf h.1 || !lowerToken h.1 then .error .notIdentityHeader
  else if !safeValue h.2 || h.2.any (fun c => 0xff < c.toNat) then .error .badValue
  else .ok ()

def checkRemoval (r : Text) : Except InjectionError Unit :=
  if r.isEmpty || !lowerToken r then .error .badRemoval else .ok ()

def Injection.validate (inj : Injection) : Except InjectionError Unit := do
  inj.set.forM checkSet
  inj.remove.forM checkRemoval

/-- The client's headers without its identity headers and those to be dropped, with the
identity headers of the daemon. -/
def prepare (client : Headers) (inj : Injection) : Headers :=
  inj.set.foldl (fun headers h => upsert h.1 (fun _ => h.2) headers)
    (client.filter fun h => !isIdentityHeader h.1 && !inj.remove.contains h.1)

/-- The identity headers the daemon sets: of a name that it sets twice the last value
counts. -/
def Injection.injected (inj : Injection) : Headers :=
  inj.set.foldl (fun headers h => upsert h.1 (fun _ => h.2) headers) []

/-- Neither a header of this hop nor one that the list names. -/
def passes (named : List Text) (k : Text) : Bool :=
  !hopRequest.contains k && !(named.contains k && !identityPrefix.isPrefixOf k &&
    !"sec-websocket-".toList.isPrefixOf k)

/-- What the proxy says itself of the connection. -/
def ownConnection (upgrade : Bool) : Headers :=
  if upgrade then
    [("connection".toList,"Upgrade".toList),("upgrade".toList,"websocket".toList)]
  else [("connection".toList,"close".toList)]

def framingHeader : RequestBody → Headers
  | .none => []
  | .length n => [("content-length".toList,Nat.toDigits 10 n)]
  | .chunked => [("transfer-encoding".toList,"chunked".toList)]

/-- What is sent for a body plan. -/
def framingOf : RequestBody → Option Text × Option Text
  | .none => (none,none)
  | .length n => (some (Nat.toDigits 10 n),none)
  | .chunked => (none,some "chunked".toList)

def forwardRequestHeaders (client : Headers) (inj : Injection) (upgrade : Bool)
    (body : RequestBody) : Headers :=
  let prepared := prepare client inj
  let named := (elements ((headerOf prepared "connection".toList).getD [])).filter
    fun t => !t.isEmpty
  prepared.filter (fun h => passes named h.1) ++ ownConnection upgrade ++ framingHeader body

def withRoutedHost (headers : Headers) (routedHost : Text) : Headers :=
  if routedHost.isEmpty then headers
  else ("host".toList,routedHost) :: (headers.filter fun h =>
      h.1 != "host".toList && h.1 != "x-forwarded-host".toList &&
        h.1 != "x-forwarded-proto".toList) ++
    [("x-forwarded-host".toList,routedHost),("x-forwarded-proto".toList,"https".toList)]

/-- What the TLS library takes for a server name, in lower case: the name a connection is
routed by. -/
def isServerName (host : Text) : Bool :=
  !host.isEmpty && host.all fun c =>
    ('a' ≤ c && c ≤ 'z') || ('0' ≤ c && c ≤ '9') || c = '-' || c = '_' || c = '.'

def crlfText : Text := ['\r','\n']

def headerText (h : Text × Text) : Text := h.1 ++ ": ".toList ++ h.2 ++ crlfText

def encodeRequestHead (method target : Text) (headers : Headers) (hostFallback : Text) : Bytes :=
  toLatin1 (method ++ ' ' :: target ++ versionSuffix .http11 ++ crlfText ++
    (if !headers.any (fun h => h.1 = "host".toList) then headerText ("host".toList,hostFallback)
      else []) ++ headers.flatMap headerText ++ crlfText)

end Flagship.Ingress

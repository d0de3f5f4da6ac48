import Flagship.Ingress.Http

namespace Flagship.Ingress
open Lib Gate

structure ResponseHead where
  status : Nat
  reason : Text
  headers : Headers
  deriving DecidableEq

inductive ResponseBody
  | none
  | length (n : Nat)
  | chunked
  | untilClose
  deriving DecidableEq

def teName : Text := "transfer-encoding".toList

def clName : Text := "content-length".toList

/-- The values of every header of a name, which is given in lower case. -/
def valuesOf (headers : Headers) (name : Text) : List Text :=
  (headers.filter fun h => asciiLower h.1 = name).map Prod.snd

/-- One of the lengths that the length headers give: all have to be the same. -/
def takeLength (n : Option Nat) (part : Text) : Option (Option Nat) :=
  let p := trim part
  if !isLength p then none
  else if n.any (· ≠ parseDigits p) then none else some (some (parseDigits p))

def contentLength (values : List Text) : Option (Option Nat) :=
  (values.flatMap (·.splitOn ',')).foldlM takeLength none

/-- Whether the last of the transfer codings is `chunked`. -/
def chunkedLast (values : List Text) : Bool :=
  (((asciiLower ([','].intercalate values)).splitOn ',').getLast?.map trim).getD [] =
    "chunked".toList

/-- An answer that has no body, whatever its headers say. -/
def bodyless (status : Nat) (requestMethod : Text) : Bool :=
  asciiLower requestMethod = "head".toList || status = 204 || status = 304 ||
    (100 ≤ status && status < 200)

def lengthFraming : Option Nat → ResponseBody
  | some n => .length n
  | none => .untilClose

def ResponseHead.body (resp : ResponseHead) (requestMethod : Text) : Option ResponseBody :=
  let te := valuesOf resp.headers teName
  let cl := valuesOf resp.headers clName
  if !te.isEmpty && !cl.isEmpty then none
  else match contentLength cl with
    | none => none
    | some length =>
      if !te.isEmpty && !chunkedLast te then none
      else if bodyless resp.status requestMethod then some .none
      else some (if !te.isEmpty then .chunked else lengthFraming length)

def responseLine (first : Bytes) : Option (Nat × Text) :=
  let prefixed := fun v : Text => (toLatin1 v).isPrefixOf first
  if !prefixed "HTTP/1.1 ".toList && !prefixed "HTTP/1.0 ".toList then none
  else
    let rest := first.drop 9
    let code := latin1 (rest.take 3)
    if code.length ≠ 3 || !code.all Char.isDigit then none
    else
      let status := parseDigits code
      if status < 100 || 599 < status then none
      else match rest.drop 3 with
        | [] => some (status,[])
        | 0x20 :: reason => if safeValue (latin1 reason) then some (status,latin1 reason) else none
        | _ => none

def rawHeader (line : Bytes) : Option (Text × Text) :=
  (headerLine line).map fun h => (latin1 h.1,latin1 h.2)

/-- Names as the app wrote them, in the order it wrote them. -/
def parseResponseHead (block : Bytes) : Option ResponseHead :=
  match splitCrlf block with
  | [] => none
  | first :: lines => do
    let (status,reason) ← responseLine first
    let headers ← lines.mapM rawHeader
    some ⟨status,reason,headers⟩

def statusCodes : List (Nat × Text) :=
  [(100,"Continue"),(101,"Switching Protocols"),(200,"OK"),(201,"Created"),(202,"Accepted"),
    (204,"No Content"),(206,"Partial Content"),(301,"Moved Permanently"),(302,"Found"),
    (303,"See Other"),(304,"Not Modified"),(307,"Temporary Redirect"),(308,"Permanent Redirect"),
    (400,"Bad Request"),(401,"Unauthorized"),(403,"Forbidden"),(404,"Not Found"),
    (405,"Method Not Allowed"),(408,"Request Timeout"),(409,"Conflict"),(413,"Payload Too Large"),
    (429,"Too Many Requests"),(431,"Request Header Fields Too Large"),
    (500,"Internal Server Error"),(501,"Not Implemented"),(502,"Bad Gateway"),
    (503,"Service Unavailable"),(504,"Gateway Timeout")].map fun c => (c.1,c.2.toList)

def defaultReason (status : Nat) : Text :=
  ((statusCodes.find? fun c => c.1 = status).map Prod.snd).getD "Unknown".toList

/-- The headers that the app's `Connection` lines name. -/
def connectionNames (headers : Headers) : List Text :=
  ((((valuesOf headers "connection".toList).flatMap (·.splitOn ',')).map
    fun t => asciiLower (trim t))).filter fun t => !t.isEmpty

def keptHeaders (headers : Headers) : Headers :=
  headers.filter fun h => !hopResponse.contains (asciiLower h.1) &&
    !(connectionNames headers).contains (asciiLower h.1)

/-- The headers the proxy adds itself. -/
def addedHeaders (chunked : Bool) : Headers :=
  (if chunked then [("Transfer-Encoding".toList,"chunked".toList)] else []) ++
    [("Connection".toList,"close".toList)]

def statusLine (status : Nat) (reason : Text) : Text :=
  "HTTP/1.1 ".toList ++ Nat.toDigits 10 status ++ ' ' :: reason

/-- The head, and whether the body is cut into chunks again. -/
def clientResponseHead (resp : ResponseHead) (framing : ResponseBody) (client : Version) :
    Bytes × Bool :=
  let reason := if resp.reason.isEmpty then defaultReason resp.status else resp.reason
  let kept := keptHeaders resp.headers
  let hasLength := kept.any fun h => asciiLower h.1 = clName
  let chunked := framing ≠ .none && !hasLength && client = .http11
  let lines := statusLine resp.status reason ::
    (kept ++ addedHeaders chunked).map fun h => h.1 ++ ": ".toList ++ h.2
  (toLatin1 (crlfText.intercalate lines ++ crlfText ++ crlfText),chunked)

/-- How the client finds the end of the body. -/
def clientFraming (resp : ResponseHead) (framing : ResponseBody) (chunked : Bool) : ResponseBody :=
  if chunked then .chunked
  else match framing with
    | .none => .none
    | .length n =>
      -- unless the app's own `Connection` line took the header out
      if valuesOf (keptHeaders resp.headers) clName = [] then .untilClose
      else .length n
    | _ => .untilClose

end Flagship.Ingress

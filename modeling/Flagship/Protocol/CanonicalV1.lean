import Flagship.Lib.Bytes

namespace Flagship.Protocol
open Lib

/-- Every refusal of the functions here. -/
inductive ProtocolError
  | integerRange | fieldCount | fieldSeparator | fieldControlChar | badPurpose | listItem
  | headerBadMagic | headerTruncated | headerTooLarge | headerUnknownField | headerDuplicateField
  | headerFieldOrder | headerFieldLength | headerMissingField | headerBadValue | unknownSuite
  | bodyLength
  deriving DecidableEq

/-- The largest integer every port can carry exactly. -/
def maxSafeInteger : Nat := 2 ^ 53 - 1

/-- Longest purpose tag accepted anywhere. -/
def maxPurposeLen : Nat := 128
def maxPurposeSegments : Nat := 6
def maxSegmentLen : Nat := 48
def maxVersionDigits : Nat := 4

def lowerDigits : List Char := "0123456789abcdef".toList

def encodeLowerHex (bytes : Bytes) : Text :=
  bytes.flatMap fun (b : UInt8) => [b >>> 4,b &&& 0x0f].filterMap (fun d => lowerDigits[d.toNat]?)

/-- The pieces of a text at a separator, at most so many; the last is the rest. -/
def splitN (sep : Char) : Nat → Text → List Text
  | 0,_ => []
  | 1,s => [s]
  | n + 2,s =>
    match s.dropWhile (fun c => c != sep) with
    | [] => [s]
    | _ :: rest => s.takeWhile (fun c => c != sep) :: splitN sep (n + 1) rest

/-- A canonical string split into exactly so many fields. -/
def splitFieldsExact (s : Text) (count : Nat) : Except ProtocolError (List Text) :=
  if count = 0 then .error .fieldCount
  else
    let fields := splitN '|' (count + 1) s
    if fields.length ≠ count then .error .fieldCount else .ok fields

/-- No separator and no control character. -/
def checkFieldText : Text → Except ProtocolError Unit
  | [] => .ok ()
  | c :: value =>
    if c = '|' then .error .fieldSeparator
    else if c.toNat ≤ 0x1f ∨ c.toNat = 0x7f then .error .fieldControlChar
    else checkFieldText value

/-- Which namespaces a purpose tag may start with. -/
inductive TagNamespace
  | flagship
  | flagshipOrLegacyPb
  deriving DecidableEq

def TagNamespace.admits (first : Text) : TagNamespace → Bool
  | .flagship => decide (first = "flagship".toList)
  | .flagshipOrLegacyPb => decide (first = "flagship".toList ∨ first = "pb".toList)

def lowerAlnum (c : Char) : Bool := decide ('a' ≤ c ∧ c ≤ 'z') || c.isDigit

def validSegment (seg : Text) : Bool :=
  !seg.isEmpty && decide ((utf8Bytes seg).length ≤ maxSegmentLen) && seg.head?.any lowerAlnum &&
    seg.all (fun c => lowerAlnum c || c == '-')

/-- The version of a tag: `v` and a number up to four digits. -/
def validVersion (last : Text) : Bool :=
  match last with
  | 'v' :: digits =>
    digits.head?.any (fun c => decide ('1' ≤ c ∧ c ≤ '9')) &&
      decide ((utf8Bytes digits).length ≤ maxVersionDigits) && digits.all Char.isDigit
  | _ => false

/-- `<namespace>/<segment>(/<segment>)*/v<N>`. -/
def validatePurposeTag (tag : Text) (ns : TagNamespace) : Except ProtocolError Unit :=
  if tag.isEmpty ∨ maxPurposeLen < (utf8Bytes tag).length then .error .badPurpose
  else
    let parts := tag.splitOn '/'
    let first := parts.head?.getD []
    let last := parts.getLast?.getD []
    if ns.admits first = false then .error .badPurpose
    else if parts.length < 2 then .error .badPurpose
    else
      let segments := parts.length - 2
      if segments = 0 ∨ maxPurposeSegments < segments then .error .badPurpose
      else if ((parts.drop 1).take segments).all validSegment = false then .error .badPurpose
      else if validVersion last = false then .error .badPurpose
      else .ok ()

/-- A field of a message, as the builder is given it. -/
inductive Field
  | text (value : Text)
  | uint (value : Nat)
  | int (value : Int)
  | hex (bytes : Bytes)
  | flag01 (value : Bool)
  | list (items : List Text) (sort : Bool)
  deriving DecidableEq

/-- Which method of the builder a field is given to. -/
inductive FieldKind
  | text | uint | int | hex | flag01
  | list (sort : Bool)
  deriving DecidableEq

def Field.kind : Field → FieldKind
  | .text _ => .text
  | .uint _ => .uint
  | .int _ => .int
  | .hex _ => .hex
  | .flag01 _ => .flag01
  | .list _ sort => .list sort

/-- `i64::to_string`. -/
def intString (n : Int) : Text :=
  if n < 0 then '-' :: Nat.toDigits 10 n.natAbs else Nat.toDigits 10 n.natAbs

/-- The UTF-16 units of a text. -/
def encodeUtf16 (s : Text) : List Nat :=
  s.flatMap fun c =>
    if c.toNat < 0x10000 then [c.toNat]
    else [0xd800 + (c.toNat - 0x10000) / 0x400,0xdc00 + (c.toNat - 0x10000) % 0x400]

/-- Items in the order of their UTF-16 units. -/
def sortUtf16 (items : List Text) : List Text :=
  items.mergeSort (fun a b => !List.lex (encodeUtf16 b) (encodeUtf16 a))

/-- An item of a list is not empty, has no comma and passes the text guard. -/
def checkItem (item : Text) : Except ProtocolError Unit :=
  if item.isEmpty || item.contains ',' then .error .listItem else checkFieldText item

def checkItems : List Text → Except ProtocolError Unit
  | [] => .ok ()
  | item :: items =>
    match checkItem item with
    | .error e => .error e
    | .ok _ => checkItems items

/-- The text of a field in the message. -/
def Field.render : Field → Except ProtocolError Text
  | .text value => (checkFieldText value).map fun _ => value
  | .uint value => if maxSafeInteger < value then .error .integerRange else .ok (Nat.toDigits 10 value)
  | .int value =>
    if maxSafeInteger < value.natAbs then .error .integerRange else .ok (intString value)
  | .hex bytes => .ok (encodeLowerHex bytes)
  | .flag01 value => .ok (if value then ['1'] else ['0'])
  | .list items sort => (checkItems items).map fun _ =>
    [','].intercalate (if sort then sortUtf16 items else items)

/-- Each field is pushed behind a bar. -/
def pushFields (buf : Text) : List Field → Except ProtocolError Text
  | [] => .ok buf
  | f :: fs =>
    match f.render with
    | .error e => .error e
    | .ok s => pushFields (buf ++ '|' :: s) fs

/-- A whole build: the tag, the fields, `finish_string`. -/
def canonicalV1 (tag : Text) (fields : List Field) : Except ProtocolError Text :=
  match validatePurposeTag tag .flagshipOrLegacyPb with
  | .error e => .error e
  | .ok _ => pushFields tag fields

end Flagship.Protocol

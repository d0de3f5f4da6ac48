import Flagship.Lib.Bytes
import Flagship.Lib.Reader

namespace Flagship.Ingress
open Lib

inductive ChunkError
  | lineTooLong
  | badSize
  | missingCrlf
  deriving DecidableEq

inductive ChunkState
  | size
  | data
  | dataCrlf
  | trailers
  | done
  deriving DecidableEq

structure ChunkedDecoder where
  state : ChunkState
  line : Bytes
  left : Nat
  deriving DecidableEq

def chunkLineMax : Nat := 4096

def crlf : Bytes := [13,10]

def isAsciiHexdigit (b : UInt8) : Bool :=
  (0x30 ≤ b && b ≤ 0x39) || (0x41 ≤ b && b ≤ 0x46) || (0x61 ≤ b && b ≤ 0x66)

def hexDigitVal (b : UInt8) : Nat :=
  if b ≤ 0x39 then b.toNat - 0x30 else if b ≤ 0x46 then b.toNat - 0x37 else b.toNat - 0x57

/-- The number that hex digits stand for, of either case. -/
def fromHex (digits : Bytes) : Nat := digits.foldl (fun n b => n * 16 + hexDigitVal b) 0

namespace ChunkedDecoder

def new : ChunkedDecoder := ⟨.size,[],0⟩

def done (d : ChunkedDecoder) : Bool := d.state = .done

section
-- how a size line is read: both proxies read everything else alike
variable (size : Bytes → Option Nat)

/-- A line is there in full, and the line buffer is empty again. -/
def takeLine (d : ChunkedDecoder) (text : Bytes) : Except ChunkError ChunkedDecoder :=
  match d.state with
  | .size =>
    match size text with
    | none => .error .badSize
    | some n => .ok ⟨if n = 0 then .trailers else .data,[],n⟩
  | .dataCrlf => if text ≠ [] then .error .missingCrlf else .ok ⟨.size,[],d.left⟩
  | .trailers => .ok ⟨if text = [] then .done else .trailers,[],d.left⟩
  | .data => .ok ⟨.data,[],d.left⟩
  | .done => .ok ⟨.done,[],d.left⟩

/-- One byte of a line. -/
def takeByte (d : ChunkedDecoder) (c : UInt8) : Except ChunkError ChunkedDecoder :=
  let line := d.line ++ [c]
  if chunkLineMax < line.length then .error .lineTooLong
  else if !crlf.isSuffixOf line then .ok ⟨d.state,line,d.left⟩
  else takeLine size d (line.take (line.length - 2))

/-- As much data as there is and is due. -/
def takeData (d : ChunkedDecoder) (n : Nat) : ChunkedDecoder :=
  ⟨if d.left - n = 0 then .dataCrlf else .data,d.line,d.left - n⟩

def pushWith (d : ChunkedDecoder) (input : Bytes) : Fed ChunkedDecoder UInt8 ChunkError :=
  match input with
  | [] => .stay d
  | c :: rest =>
    if d.state = .done then .stay d
    else if d.state = .data then
      let n := min d.left (c :: rest).length
      Fed.next ((c :: rest).take n,.ok (n,d.takeData n)) fun _ =>
        pushWith (d.takeData n) ((c :: rest).drop n)
    else
      match takeByte size d c with
      | .error e => ([],.error e)
      | .ok d' => Fed.next ([],.ok (1,d')) fun _ => pushWith d' rest
termination_by 2 * input.length + if d.state = .data then 1 else 0
decreasing_by
  · -- with nothing due, the loop goes on without a byte in another state
    rename_i hdata
    simp only [List.length_drop,List.length_cons,takeData,if_pos hdata]
    split <;> split <;> simp_all <;> omega
  · simp only [List.length_cons]
    split <;> omega

end

/-- The digits are what stands before the first semicolon. -/
def chunkSize (text : Bytes) : Option Nat :=
  let digits := text.takeWhile (· != 0x3b)
  if digits.isEmpty || decide (12 < digits.length) || !digits.all isAsciiHexdigit then none
  else some (fromHex digits)

def push (d : ChunkedDecoder) (input : Bytes) : Fed ChunkedDecoder UInt8 ChunkError :=
  pushWith chunkSize d input

/-- The dot of a regular expression matches no line break. -/
def dot (b : UInt8) : Bool := b != 10 && b != 13

/-- The daemon's `/^([0-9a-fA-F]{1,12})(;.*)?$/`. -/
def tsChunkSize (text : Bytes) : Option Nat :=
  let digits := (text.takeWhile isAsciiHexdigit).take 12
  if digits.isEmpty then none
  else match text.drop digits.length with
    | [] => some (fromHex digits)
    | c :: rest => if c = 0x3b && rest.all dot then some (fromHex digits) else none

/-- The daemon's decoder, which does not say how much it used. -/
def tsPush (d : ChunkedDecoder) (input : Bytes) : Fed ChunkedDecoder UInt8 ChunkError :=
  pushWith tsChunkSize d input

end ChunkedDecoder

/-- What both decoders report: the output, and the error or whether the body is at its end. -/
def outcome (fed : Fed ChunkedDecoder UInt8 ChunkError) : Bytes × Except ChunkError Bool :=
  (fed.1,fed.2.map fun used => used.2.done)

/-- Digits in hex, lowercase, as few as there can be. -/
def lowerHex (n : Nat) : Bytes := (Nat.toDigits 16 n).map fun c => UInt8.ofNat c.toNat

def encodeChunk (data : Bytes) : Bytes := lowerHex data.length ++ crlf ++ data ++ crlf

/-- What may stand on one line of the body, before the line break. -/
def IsLine (text : Bytes) : Prop := ¬ crlf <:+: text ∧ text.length + 2 ≤ chunkLineMax

/-- A size line for a chunk of so many bytes, with any extension. -/
structure SizeLine (n : Nat) where
  digits : Bytes
  ext : Bytes
  some_digit : digits ≠ []
  few_digits : digits.length ≤ 12
  hex : digits.all isAsciiHexdigit = true
  value : fromHex digits = n
  ext_shape : ext = [] ∨ ∃ rest,ext = 0x3b :: rest
  isLine : IsLine (digits ++ ext)

def SizeLine.text {n : Nat} (l : SizeLine n) : Bytes := l.digits ++ l.ext

structure Chunk where
  data : Bytes
  nonempty : data ≠ []
  line : SizeLine data.length

def Chunk.encode (c : Chunk) : Bytes := c.line.text ++ crlf ++ c.data ++ crlf

structure ChunkedBody where
  chunks : List Chunk
  last : SizeLine 0
  trailers : List Bytes
  trailer : ∀ t ∈ trailers,t ≠ [] ∧ IsLine t

def ChunkedBody.data (b : ChunkedBody) : Bytes := b.chunks.flatMap Chunk.data

def ChunkedBody.encode (b : ChunkedBody) : Bytes :=
  b.chunks.flatMap Chunk.encode ++ b.last.text ++ crlf ++ b.trailers.flatMap (· ++ crlf) ++ crlf

/-- The extension of a chunk of the body, where the body goes that far. -/
inductive ExtensionIn : Bytes → Bytes → Prop
  | here {n : Nat} (l : SizeLine n) (rest : Bytes) : ExtensionIn (l.text ++ crlf ++ rest) l.ext
  | later (c : Chunk) {rest ext : Bytes} (h : ExtensionIn rest ext) :
    ExtensionIn (c.encode ++ rest) ext

/-- No extension has a line break of one byte in it. -/
def CleanExtensions (input : Bytes) : Prop :=
  ∀ ext,ExtensionIn input ext → (10 : UInt8) ∉ ext ∧ (13 : UInt8) ∉ ext

end Flagship.Ingress

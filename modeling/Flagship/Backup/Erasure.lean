import Mathlib.Logic.Function.Basic

namespace Flagship.Backup

/-- A byte, as the element of GF(2^8) it stands for. -/
structure Gf256 where
  byte : BitVec 8
  deriving DecidableEq

namespace Gf256

/-- What a byte array keeps of a number. -/
def ofNat (n : Nat) : Gf256 := ⟨BitVec.ofNat 8 n⟩

def toNat (a : Gf256) : Nat := a.byte.toNat

instance : Zero Gf256 := ⟨ofNat 0⟩

instance : One Gf256 := ⟨ofNat 1⟩

end Gf256

def primPoly : Nat := 0x11d

/-- The next power of alpha after `acc`. -/
def nextPower (acc : Nat) : Nat :=
  let acc := acc <<< 1
  if acc &&& 0x100 ≠ 0 then acc ^^^ primPoly else acc

/-- The log and antilog tables. -/
structure Tables where
  exp : Nat → Gf256
  log : Nat → Nat

/-- The powers of alpha, written from place `i` on. -/
def fillTables : Nat → Nat → Nat → Tables → Tables
  | 0,_,_,t => t
  | steps + 1,i,acc,t =>
    fillTables steps (i + 1) (nextPower acc)
      ⟨Function.update t.exp i (.ofNat acc),Function.update t.log acc i⟩

/-- The antilog table once more behind itself, so that a product needs no modulo. -/
def wrapExp : Nat → Nat → (Nat → Gf256) → Nat → Gf256
  | 0,_,exp => exp
  | steps + 1,i,exp => wrapExp steps (i + 1) (Function.update exp i (exp (i - 255)))

def tables : Tables :=
  let t := fillTables 255 0 1 ⟨fun _ => 0,fun _ => 0⟩
  { t with exp := wrapExp 257 255 t.exp }

inductive CodingError
  | divisionByZero
  | singular
  | kBelowOne
  | nBelowK
  | nTooLarge
  | recoveredLength (got n : Nat)
  | allLost
  | tooFew (k got : Nat)
  | inconsistentLength
  | needData (k : Nat)
  | indexOutOfRange
  deriving DecidableEq

def CodingError.message : CodingError → String
  | .divisionByZero => "GF(256) division by zero"
  | .singular => "matrix is singular — surviving shard set has dependencies"
  | .kBelowOne => "k must be >= 1"
  | .nBelowK => "n must be >= k"
  | .nTooLarge => "n must be <= 255"
  | .recoveredLength got n => s!"recovered.length {got} != n {n}"
  | .allLost => "All shards lost — cannot recover"
  | .tooFew k got => s!"need at least {k} shards, got {got}"
  | .inconsistentLength => "shards have inconsistent length"
  | .needData k => s!"need the {k} data shards"
  | .indexOutOfRange => "shard index out of range"

def gfAdd (a b : Gf256) : Gf256 := ⟨a.byte ^^^ b.byte⟩

def gfMul (a b : Gf256) : Gf256 :=
  if a = 0 ∨ b = 0 then 0 else tables.exp (tables.log a.toNat + tables.log b.toNat)

def gfDiv (a b : Gf256) : Except CodingError Gf256 :=
  if a = 0 then .ok 0
  else if b = 0 then .error .divisionByZero
  else .ok (tables.exp ((tables.log a.toNat + 255 - tables.log b.toNat) % 255))

abbrev Bytes := List Gf256

abbrev Matrix := List (List Gf256)

/-- The byte at `b`, zero past the end. -/
def byteAt (s : Bytes) (b : Nat) : Gf256 := s.getD b 0

def entry (m : Matrix) (r j : Nat) : Gf256 := byteAt (m.getD r []) j

/-- The table of the multiples of one element. -/
def mulTable (c : Gf256) : List Gf256 := (List.range 256).map fun v => gfMul c (.ofNat v)

/-- `dst ^= c * src`, bytewise. -/
def mulAdd (dst src : Bytes) (c : Gf256) : Bytes :=
  if c = 0 then dst
  else if c = 1 then dst.mapIdx fun b d => gfAdd d (byteAt src b)
  else dst.mapIdx fun b d => gfAdd d (byteAt (mulTable c) (byteAt src b).toNat)

/-- A zero shard with `row[j]` times each of the first `k` shards added. -/
def combine (k shardLen : Nat) (shards : List Bytes) (row : List Gf256) : Bytes :=
  (List.range k).foldl (fun acc j => mulAdd acc (shards.getD j []) (byteAt row j))
    (List.replicate shardLen 0)

def unitRow (k r : Nat) : List Gf256 := (List.replicate k 0).set r 1

/-- Identity for data shards, Cauchy for parity. -/
def generatorRow (index k : Nat) : Except CodingError (List Gf256) :=
  if index < k then .ok (unitRow k index)
  else (List.range k).mapM fun j => gfDiv 1 (gfAdd (.ofNat index) (.ofNat j))

structure Shards where
  k : Nat
  n : Nat
  dataLength : Nat
  shards : List Bytes
  deriving DecidableEq

def maxN : Nat := 256

def validateKN (k n : Nat) : Except CodingError Unit :=
  if k < 1 then .error .kBelowOne
  else if n < k then .error .nBelowK
  else if n > maxN - 1 then .error .nTooLarge
  else .ok ()

def shardLength (length k : Nat) : Nat := (length + k - 1) / k

/-- The data with the zeros behind it, in `k` pieces. -/
def dataShards (data : Bytes) (k : Nat) : List Bytes :=
  let shardLen := shardLength data.length k
  let padded := data ++ List.replicate (shardLen * k - data.length) 0
  (List.range k).map fun i => (padded.drop (i * shardLen)).take shardLen

def encodeShards (data : Bytes) (k n : Nat) : Except CodingError Shards := do
  validateKN k n
  if k = 1 then
    return ⟨k,n,data.length,List.replicate n data⟩
  else
    let shards := dataShards data k
    let parity ← (List.range' k (n - k)).mapM fun i => do
      let row ← generatorRow i k
      return combine k (shardLength data.length k) shards row
    return ⟨k,n,data.length,shards ++ parity⟩

/-- Re-make one shard of a segment from its `k` data shards. -/
def encodeOneShard (dataShards : List Bytes) (index : Int) (k n : Nat) :
    Except CodingError Bytes := do
  validateKN k n
  if dataShards.length ≠ k then throw (.needData k)
  else if index < 0 ∨ (n : Int) ≤ index then throw .indexOutOfRange
  else if k = 1 then return dataShards.getD 0 []
  else if index < k then return dataShards.getD index.toNat []
  else
    let row ← generatorRow index.toNat k
    return combine k (dataShards.getD 0 []).length dataShards row

/-- The matrix on its way to the identity, and what it has made of the identity. -/
structure Reduction where
  a : Matrix
  id : Matrix

def swapRows (m : Matrix) (col pivot : Nat) : Matrix :=
  if pivot ≠ col then (m.set col (m.getD pivot [])).set pivot (m.getD col []) else m

def scaleRow (k col : Nat) (m : Matrix) (pinv : Gf256) : Except CodingError Matrix := do
  let row ← (List.range k).mapM fun j => gfDiv (entry m col j) pinv
  return m.set col row

/-- The row at `col` added to every other row, as often as `factors` says. -/
def clearColumn (k col : Nat) (factors : Nat → Gf256) (m : Matrix) : Matrix :=
  m.mapIdx fun r row =>
    if r = col then row
    else if factors r = 0 then row
    else (List.range k).map fun j => gfAdd (byteAt row j) (gfMul (factors r) (entry m col j))

def reduceColumn (k : Nat) (s : Reduction) (col : Nat) : Except CodingError Reduction :=
  match (List.range' col (k - col)).find? fun r => entry s.a r col ≠ 0 with
  | none => .error .singular
  | some pivot => do
    let a := swapRows s.a col pivot
    let id := swapRows s.id col pivot
    let pinv := entry a col col
    let a ← scaleRow k col a pinv
    let id ← scaleRow k col id pinv
    let factors := fun r => entry a r col
    return ⟨clearColumn k col factors a,clearColumn k col factors id⟩

/-- Gauss-Jordan inversion in GF(2^8). -/
def invertMatrix (m : Matrix) (k : Nat) : Except CodingError Matrix := do
  let s ← (List.range k).foldlM (reduceColumn k) ⟨m,(List.range k).map (unitRow k)⟩
  return s.id

/-- `out.set(bytes, offset)`. -/
def setAt (out : Bytes) (offset : Nat) (bytes : Bytes) : Bytes :=
  out.take offset ++ bytes ++ out.drop (offset + bytes.length)

/-- The array a restore fills, from nulls, with the shards it could fetch, in the
order in which they came. -/
def gather (shards : List Bytes) (kept : List Nat) (n : Nat) : List (Option Bytes) :=
  kept.foldl (fun recovered i => recovered.set i shards[i]?) (List.replicate n none)

/-- The first `k` places that hold a shard. -/
def survivingIndices (recovered : List (Option Bytes)) (k n : Nat) : List Nat :=
  ((List.range n).filter fun i => (recovered.getD i none).isSome).take k

/-- What the loop over the rows writes for row `r`. -/
def writeRow (k shardLen dataLength : Nat) (indices : List Nat) (survivors : List Bytes)
    (inv : Matrix) (out : Bytes) (r : Nat) : Bytes :=
  let offset := r * shardLen
  let len := min shardLen (dataLength - offset)
  if len = 0 then out
  else if indices[r]? = some r then setAt out offset ((survivors.getD r []).take len)
  else setAt out offset ((combine k shardLen survivors (inv.getD r [])).take len)

def decodeShards (recovered : List (Option Bytes)) (k n dataLength : Nat) :
    Except CodingError Bytes := do
  validateKN k n
  if recovered.length ≠ n then
    throw (.recoveredLength recovered.length n)
  else if k = 1 then
    match recovered.findSome? fun s => s with
    | some s => return s.take dataLength
    | none => throw .allLost
  else
    let indices := survivingIndices recovered k n
    if indices.length < k then
      throw (.tooFew k indices.length)
    else
      let survivors := indices.map fun i => (recovered.getD i none).getD []
      let shardLen := (survivors.getD 0 []).length
      if survivors.any fun s => s.length ≠ shardLen then
        throw .inconsistentLength
      else
        let rows ← indices.mapM fun i => generatorRow i k
        let inv ← invertMatrix rows k
        return (List.range k).foldl (writeRow k shardLen dataLength indices survivors inv)
          (List.replicate dataLength 0)

end Flagship.Backup

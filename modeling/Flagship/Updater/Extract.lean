import Flagship.Lib.Bytes
import Flagship.Lib.FileTree
import Flagship.Lib.While

namespace Flagship.Updater.Extract
open Lib

structure Limits where
  maxEntries : Nat
  maxTotalBytes : Nat
  maxFileBytes : Nat
  maxPathBytes : Nat
  maxDepth : Nat
  deriving DecidableEq

def defaultLimits : Limits where
  maxEntries := 600000
  maxTotalBytes := 3 * 2 ^ 30
  maxFileBytes := 2 ^ 30
  maxPathBytes := 1024
  maxDepth := 48

structure Extracted where
  files : Nat
  dirs : Nat
  symlinks : Nat
  bytes : Nat
  deriving DecidableEq

/-- Why nothing is installed: `unpack-failed` for `io`, `unsafe-artifact` for the rest. -/
inductive Refusal
  | io
  | headerTooLarge
  | endsInEntry
  | endsInFile
  | wrongChecksum
  | badSize
  | badPax
  | tooManyEntries
  | pathTooLong
  | pathControl
  | absolutePath
  | pathNotUtf8
  | pathClimbs
  | pathTooDeep
  | badTarget
  | targetNotUtf8
  | targetClimbs
  | targetLeaves
  | belowNoDirectory
  | emptyPath
  | fileTooLarge
  | archiveTooLarge
  | notADirectory
  | hardLink
  | special (type : UInt8)
  deriving DecidableEq

/-- `saturating_add` of two numbers of 64 bits. -/
def satAdd (a b : Nat) : Nat := min (a + b) (2 ^ 64 - 1)

/-- The decompressed archive that is still to come, and how much of it may be read. -/
structure Capped where
  bytes : Bytes
  left : Nat
  deriving DecidableEq

/-- So many bytes, however the reads cut them. -/
def Capped.take (n : Nat) (short : Refusal) (r : Capped) : Except Refusal (Bytes × Capped) :=
  if r.left < min n r.bytes.length then .error .io
  else if r.bytes.length < n then .error short
  else .ok (r.bytes.take n,⟨r.bytes.drop n,r.left - n⟩)

def readBlock (r : Capped) : Except Refusal (Option Bytes × Capped) :=
  if r.bytes = [] then .ok (none,r) else (r.take 512 .io).map fun (b,r) => (some b,r)

def cstr (field : Bytes) : Bytes := field.takeWhile (· != 0)

/-- A number of 64 bits from its digits in a base. -/
def digits (base : Nat) (digit : UInt8 → Nat) : Nat → Bytes → Option Nat
  | v,[] => some v
  | v,b :: bs =>
    if v * base + digit b < 2 ^ 64 then digits base digit (v * base + digit b) bs else none

def octal (field : Bytes) : Option Nat :=
  let octalText := ((field.dropWhile (· == 0x20)).takeWhile fun b => 0x30 ≤ b && b ≤ 0x37)
  match field with
  | [] => some 0
  | first :: rest =>
    if first &&& 0x80 ≠ 0 then digits 256 UInt8.toNat (first &&& 0x7f).toNat rest
    else digits 8 (fun b => b.toNat - 0x30) 0 octalText

def checksumOk (block : Bytes) : Bool :=
  let sum := (block.zipIdx.map fun (b,i) => if 148 ≤ i && i < 156 then 0x20 else b.toNat).sum
  octal (slice block 148 156) = some sum

/-- `len.div_ceil(512).saturating_mul(512)`. -/
def padded (len : Nat) : Nat := min ((len + 511) / 512 * 512) (2 ^ 64 - 1)

def skip (n : Nat) (r : Capped) : Except Refusal Capped :=
  (r.take n .endsInEntry).map Prod.snd

def readExactVec (len cap : Nat) (r : Capped) : Except Refusal (Bytes × Capped) := do
  if cap < len then throw .headerTooLarge
  let (v,r) ← r.take len .io
  let r ← skip (padded len - len) r
  return (v,r)

/-- `str::parse` of an unsigned number of 64 bits: digits, after a plus sign or none. -/
def parseUnsigned (bs : Bytes) : Option Nat :=
  let number := match bs with
    | 0x2b :: rest => rest
    | bs => bs
  if number.isEmpty || !number.all (fun b => 0x30 ≤ b && b ≤ 0x39) then none
  else digits 10 (fun b => b.toNat - 0x30) 0 number

/-- One record of a pax header, and what follows it. -/
def paxRecord (rest : Bytes) : Option ((Text × Bytes) × Bytes) := do
  let sp ← rest.findIdx? (· == 0x20)
  let len ← parseUnsigned (rest.take sp)
  if len ≤ sp + 1 || rest.length < len then none
  else
    let record := slice rest (sp + 1) len
    if record.getLast? != some 0x0a then none
    else
      let record := record.dropLast
      let eq ← record.findIdx? (· == 0x3d)
      let key ← utf8Text (record.take eq)
      return ((key,record.drop (eq + 1)),rest.drop len)

/-- Each record takes a byte at least, so as many rounds as there are bytes are enough. -/
def paxRecords : (fuel : Nat) → Bytes → Option (List (Text × Bytes))
  | _,[] => some []
  | 0,_ :: _ => none
  | fuel + 1,b :: bs => do
    let (record,rest) ← paxRecord (b :: bs)
    return record :: (← paxRecords fuel rest)

def isControl (b : UInt8) : Bool := b < 0x20 || b == 0x7f

def dot : Text := ['.']

def dotdot : Text := ['.','.']

/-- The components of a path that are kept, unless one climbs. -/
def keepParts : List Text → Except Refusal (List Text)
  | [] => .ok []
  | c :: cs =>
    if c = [] || c = dot then keepParts cs
    else if c = dotdot then .error .pathClimbs
    else (keepParts cs).map (c :: ·)

/-- A path split into safe components with the first `strip` removed; `none` skips the entry. -/
def components (raw : Bytes) (strip : Nat) (limits : Limits) :
    Except Refusal (Option (List Text)) := do
  if limits.maxPathBytes < raw.length then throw .pathTooLong
  if raw.any isControl then throw .pathControl
  if raw.head? = some 0x2f then throw .absolutePath
  let some text := utf8Text raw | throw .pathNotUtf8
  let parts ← keepParts (text.splitOn '/')
  if parts.length ≤ strip then return none
  let kept := parts.drop strip
  if limits.maxDepth < kept.length then throw .pathTooDeep
  return some kept

/-- How often a target climbs, which it may before its first name only. -/
def climbs : (ups : Nat) → (descended : Bool) → List Text → Except Refusal Nat
  | ups,_,[] => .ok ups
  | ups,descended,c :: cs =>
    if c = [] || c = dot then climbs ups descended cs
    else if c = dotdot then
      if descended then .error .targetClimbs else climbs (ups + 1) descended cs
    else climbs ups true cs

/-- Checks a symlink target and returns it as text. -/
def linkTarget (raw : Bytes) (depthOfLinkDir : Nat) : Except Refusal Text := do
  if raw.isEmpty || raw.any isControl || raw.head? = some 0x2f then throw .badTarget
  let some text := utf8Text raw | throw .targetNotUtf8
  let ups ← climbs 0 false (text.splitOn '/')
  if depthOfLinkDir < ups then throw .targetLeaves
  return text

def stepOf (c : Text) : PathStep Text := if c = dotdot then .up else .name c

/-- A link's target as the system reads it. -/
def targetOf (text : Text) : LinkTarget Text :=
  if text.head? = some '/' then .absolute
  else .relative (((text.splitOn '/').filter fun c => c != [] && c != dot).map stepOf)

/-- What lies in the destination, and where something was made, in order. -/
structure Disk where
  tree : FileTree Text
  made : List (FilePlace Text × FileNode Text)

namespace Disk

/-- The place that the system finds for a path; links on the way to its last name are followed,
for so many steps at most. -/
def resolve (fuel : Nat) (d : Disk) (path : List Text) : Except Refusal (FilePlace Text) :=
  match FileTree.find fuel d.tree (some []) (path.dropLast.map .name) with
  | none => .error .io
  | some none => .ok none
  | some (some dir) =>
    if dir = [] || d.tree dir = some .dir then .ok (some (dir ++ path.getLast?.toList))
    else .error .io

/-- `symlink_metadata`: what lies at a path, not following it. -/
def stat (fuel : Nat) (d : Disk) (path : List Text) : Except Refusal (Option (FileNode Text)) :=
  (d.resolve fuel path).map fun place => place.bind d.tree

/-- Makes a directory, a file or a link where there is nothing yet. -/
def make (fuel : Nat) (d : Disk) (path : List Text) (node : FileNode Text) :
    Except Refusal Disk := do
  match ← d.resolve fuel path with
  | none => return { d with made := d.made ++ [(none,node)] }
  | some p =>
    if d.tree p ≠ none then throw .io
    return ⟨d.tree.put p node,d.made ++ [(some p,node)]⟩

/-- A directory that is there, or is made now. -/
def directory (fuel : Nat) (d : Disk) (path : List Text) (other : Refusal) :
    Except Refusal Disk := do
  match ← d.stat fuel path with
  | some .dir => return d
  | some _ => throw other
  | none => d.make fuel path .dir

end Disk

structure Writer where
  disk : Disk
  realDirs : List (List Text)

/-- Creates the parents of `cur ++ rel` below `cur` as real directories; refuses one that is a
link. -/
def Writer.parents (fuel : Nat) (w : Writer) (cur : List Text) :
    List Text → Except Refusal Writer
  | [] => .error .emptyPath
  | [_] => .ok w
  | c :: rel => do
    let cur := cur ++ [c]
    if cur ∈ w.realDirs then w.parents fuel cur rel
    else
      let disk ← w.disk.directory fuel cur .belowNoDirectory
      parents fuel ⟨disk,w.realDirs.insert cur⟩ cur rel

/-- Where the loop of `extract_tar_gz` stands; `written` counts the bytes put into files. -/
structure State where
  r : Capped
  w : Writer
  stats : Extracted
  entries : Nat
  longName : Option Bytes
  longLink : Option Bytes
  paxPath : Option Bytes
  paxLink : Option Bytes
  paxSize : Option Nat
  zeroBlocks : Nat
  written : Nat

def State.pax (s : State) : Text × Bytes → State
  | (key,value) =>
    if key = "path".toList then { s with paxPath := some value }
    else if key = "linkpath".toList then { s with paxLink := some value }
    else if key = "size".toList then
      { s with paxSize := (utf8Text value).bind fun _ => parseUnsigned value }
    else s

/-- What a header block says of its entry. -/
structure Entry where
  type : UInt8
  size : Nat
  name : Bytes
  link : Bytes
  deriving DecidableEq

def entryOf (s : State) (block : Bytes) (headerSize : Nat) : Entry :=
  let short := cstr (slice block 0 100)
  let ustar : Bytes := [0x75,0x73,0x74,0x61,0x72]
  let front := if slice block 257 262 = ustar then cstr (slice block 345 500) else []
  let name := if front.isEmpty then short else front ++ [0x2f] ++ short
  { type := block.getD 156 0
    size := s.paxSize.getD headerSize
    name := s.paxPath.getD ((s.longName.map cstr).getD name)
    link := s.paxLink.getD ((s.longLink.map cstr).getD (cstr (slice block 157 257))) }

def isFile (type : UInt8) : Bool := type = 0x30 || type = 0 || type = 0x37

def unpackFile (fuel : Nat) (limits : Limits) (s : State) (e : Entry) (parts : Option (List Text)) :
    Except Refusal State := do
  if limits.maxFileBytes < e.size then throw .fileTooLarge
  let s := { s with stats.bytes := satAdd s.stats.bytes e.size }
  if limits.maxTotalBytes < s.stats.bytes then throw .archiveTooLarge
  match parts with
  | none => return { s with r := ← skip (padded e.size) s.r }
  | some rel =>
    let w ← s.w.parents fuel [] rel
    let disk ← w.disk.make fuel rel .file
    let (data,r) ← s.r.take e.size .endsInFile
    let r ← skip (padded e.size - e.size) r
    return { s with
      r, w := { w with disk }, written := s.written + data.length, stats.files := s.stats.files + 1 }

def unpackDir (fuel : Nat) (s : State) (e : Entry) (parts : Option (List Text)) :
    Except Refusal State := do
  let s := { s with r := ← skip (padded e.size) s.r }
  match parts with
  | none => return s
  | some rel =>
    let w ← s.w.parents fuel [] rel
    let disk ← w.disk.directory fuel rel .notADirectory
    return { s with w := ⟨disk,w.realDirs.insert rel⟩, stats.dirs := s.stats.dirs + 1 }

def unpackLink (fuel : Nat) (s : State) (e : Entry) (parts : Option (List Text)) :
    Except Refusal State := do
  let s := { s with r := ← skip (padded e.size) s.r }
  match parts with
  | none => return s
  | some rel =>
    let target ← linkTarget e.link (rel.length - 1)
    let w ← s.w.parents fuel [] rel
    let disk ← w.disk.make fuel rel (.link (targetOf target))
    return { s with w := { w with disk }, stats.symlinks := s.stats.symlinks + 1 }

def unpackEntry (fuel strip : Nat) (limits : Limits) (s : State) (e : Entry) :
    Except Refusal State := do
  let parts ← components e.name strip limits
  if isFile e.type then unpackFile fuel limits s e parts
  else if e.type = 0x35 then unpackDir fuel s e parts
  else if e.type = 0x32 then unpackLink fuel s e parts
  else if e.type = 0x31 then throw .hardLink
  else throw (.special e.type)

/-- A header block that is not zero, and what belongs to it. -/
def header (fuel strip : Nat) (limits : Limits) (s : State) (block : Bytes) :
    Except Refusal State := do
  if !checksumOk block then throw .wrongChecksum
  let some headerSize := octal (slice block 124 136) | throw .badSize
  let type := block.getD 156 0
  if type = 0x4c then
    let (v,r) ← readExactVec headerSize 8192 s.r
    return { s with r, longName := some v }
  if type = 0x4b then
    let (v,r) ← readExactVec headerSize 8192 s.r
    return { s with r, longLink := some v }
  if type = 0x78 then
    let (data,r) ← readExactVec headerSize (2 ^ 20) s.r
    let some records := paxRecords data.length data | throw .badPax
    return records.foldl State.pax { s with r }
  if type = 0x67 then return { s with r := ← skip (padded headerSize) s.r }
  let s := { s with entries := s.entries + 1 }
  if limits.maxEntries < s.entries then throw .tooManyEntries
  let e := entryOf s block headerSize
  unpackEntry fuel strip limits
    { s with
      longName := none, longLink := none, paxPath := none, paxLink := none, paxSize := none } e

/-- Once round the loop; `none` ends it. -/
def round (fuel strip : Nat) (limits : Limits) (s : State) : Except Refusal (Option State) := do
  match ← readBlock s.r with
  | (none,_) => return none
  | (some block,r) =>
    let s := { s with r }
    if block.all (· == 0) then
      if 2 ≤ s.zeroBlocks + 1 then return none
      return some { s with zeroBlocks := s.zeroBlocks + 1 }
    return some (← header fuel strip limits { s with zeroBlocks := 0 } block)

/-- So many bytes were read. -/
structure Read (r : Capped) (n : Nat) (r' : Capped) : Prop where
  bytes : r.bytes.length = n + r'.bytes.length
  left : r.left = n + r'.left

theorem Read.trans {r r' r'' : Capped} {n m : Nat} (h : Read r n r') (h' : Read r' m r'') :
    Read r (n + m) r'' := by
  have hbytes := h.bytes
  have hbytes' := h'.bytes
  have hleft := h.left
  have hleft' := h'.left
  exact ⟨by omega,by omega⟩

theorem take_ok {n : Nat} {short : Refusal} {r r' : Capped} {b : Bytes}
    (h : r.take n short = .ok (b,r')) : Read r n r' ∧ b.length = n := by
  unfold Capped.take at h
  split at h
  · cases h
  split at h
  · cases h
  cases h
  refine ⟨⟨?_,?_⟩,?_⟩
  · rw [List.length_drop]
    omega
  · dsimp only
    omega
  · rw [List.length_take]
    omega

theorem skip_ok {n : Nat} {r r' : Capped} (h : skip n r = .ok r') : Read r n r' := by
  unfold skip at h
  cases htake : r.take n .endsInEntry with
  | error e =>
    rw [htake] at h
    cases h
  | ok out =>
    rw [htake] at h
    cases h
    exact (take_ok htake).1

theorem readExactVec_ok {len cap : Nat} {r r' : Capped} {v : Bytes}
    (h : readExactVec len cap r = .ok (v,r')) : ∃ n,Read r n r' := by
  unfold readExactVec at h
  obtain ⟨_,h⟩ := unless_ok h
  obtain ⟨⟨v',r₁⟩,htake,h⟩ := bind_ok h
  obtain ⟨r₂,hskip,h⟩ := bind_ok h
  cases h
  exact ⟨_,(take_ok htake).1.trans (skip_ok hskip)⟩

/-- What a header block and what belongs to it do, besides reading so many bytes and keeping
names for the next entry. -/
inductive Effect (fuel : Nat) (limits : Limits) (s : State) (n : Nat) (s' : State) : Prop
  | none (hw : s'.w = s.w) (hwritten : s'.written = s.written)
      (hbytes : s'.stats.bytes = s.stats.bytes)
  | skipped (size : Nat) (hw : s'.w = s.w) (hwritten : s'.written = s.written)
      (hbytes : s'.stats.bytes = satAdd s.stats.bytes size)
      (hmax : s'.stats.bytes ≤ limits.maxTotalBytes)
  | file {rel : List Text} {w : Writer} {disk : Disk} (size : Nat)
      (hparents : s.w.parents fuel [] rel = .ok w) (hmake : w.disk.make fuel rel .file = .ok disk)
      (hw : s'.w = ⟨disk,w.realDirs⟩) (hwritten : s'.written = s.written + size) (hsize : size ≤ n)
      (hbytes : s'.stats.bytes = satAdd s.stats.bytes size)
      (hmax : s'.stats.bytes ≤ limits.maxTotalBytes)
  | dir {rel : List Text} {w : Writer} {disk : Disk}
      (hparents : s.w.parents fuel [] rel = .ok w)
      (hmake : w.disk.directory fuel rel .notADirectory = .ok disk)
      (hw : s'.w = ⟨disk,w.realDirs.insert rel⟩) (hwritten : s'.written = s.written)
      (hbytes : s'.stats.bytes = s.stats.bytes)
  | link {rel : List Text} {w : Writer} {disk : Disk} {raw : Bytes} {target : Text}
      (htarget : linkTarget raw (rel.length - 1) = .ok target)
      (hparents : s.w.parents fuel [] rel = .ok w)
      (hmake : w.disk.make fuel rel (.link (targetOf target)) = .ok disk)
      (hw : s'.w = ⟨disk,w.realDirs⟩) (hwritten : s'.written = s.written)
      (hbytes : s'.stats.bytes = s.stats.bytes)

section
variable {fuel strip : Nat} {limits : Limits} {s s' : State} {e : Entry}
  {parts : Option (List Text)}

/-- Only the writer and the two counts matter before. -/
theorem Effect.from {s₀ : State} {n : Nat} (h : Effect fuel limits s₀ n s') (hw₀ : s₀.w = s.w)
    (hwritten₀ : s₀.written = s.written) (hbytes₀ : s₀.stats.bytes = s.stats.bytes) :
    Effect fuel limits s n s' := by
  cases h with
  | none hw hwritten hbytes => exact .none (hw₀ ▸ hw) (hwritten₀ ▸ hwritten) (hbytes₀ ▸ hbytes)
  | skipped size hw hwritten hbytes hmax =>
    exact .skipped size (hw₀ ▸ hw) (hwritten₀ ▸ hwritten) (hbytes₀ ▸ hbytes) hmax
  | file size hparents hmake hw hwritten hsize hbytes hmax =>
    exact .file size (hw₀ ▸ hparents) hmake hw (hwritten₀ ▸ hwritten) hsize (hbytes₀ ▸ hbytes) hmax
  | dir hparents hmake hw hwritten hbytes =>
    exact .dir (hw₀ ▸ hparents) hmake hw (hwritten₀ ▸ hwritten) (hbytes₀ ▸ hbytes)
  | link htarget hparents hmake hw hwritten hbytes =>
    exact .link htarget (hw₀ ▸ hparents) hmake hw (hwritten₀ ▸ hwritten) (hbytes₀ ▸ hbytes)

theorem unpackFile_ok (h : unpackFile fuel limits s e parts = .ok s') :
    ∃ n,Read s.r n s'.r ∧ Effect fuel limits s n s' := by
  unfold unpackFile at h
  obtain ⟨_,h⟩ := unless_ok h
  obtain ⟨hmax,h⟩ := unless_ok h
  cases parts with
  | none =>
    obtain ⟨r,hskip,h⟩ := bind_ok h
    cases h
    exact ⟨_,skip_ok hskip,.skipped e.size rfl rfl rfl (Nat.le_of_not_lt hmax)⟩
  | some rel =>
    obtain ⟨w,hparents,h⟩ := bind_ok h
    obtain ⟨disk,hmake,h⟩ := bind_ok h
    obtain ⟨⟨data,r₁⟩,htake,h⟩ := bind_ok h
    obtain ⟨r₂,hskip,h⟩ := bind_ok h
    cases h
    obtain ⟨hread,hlen⟩ := take_ok htake
    refine ⟨_,hread.trans (skip_ok hskip),?_⟩
    exact .file e.size hparents hmake rfl (by rw [← hlen]) (Nat.le_add_right _ _) rfl
      (Nat.le_of_not_lt hmax)

theorem unpackDir_ok (h : unpackDir fuel s e parts = .ok s') :
    ∃ n,Read s.r n s'.r ∧ Effect fuel limits s n s' := by
  unfold unpackDir at h
  obtain ⟨r,hskip,h⟩ := bind_ok h
  cases parts with
  | none =>
    cases h
    exact ⟨_,skip_ok hskip,.none rfl rfl rfl⟩
  | some rel =>
    obtain ⟨w,hparents,h⟩ := bind_ok h
    obtain ⟨disk,hmake,h⟩ := bind_ok h
    cases h
    exact ⟨_,skip_ok hskip,.dir hparents hmake rfl rfl rfl⟩

theorem unpackLink_ok (h : unpackLink fuel s e parts = .ok s') :
    ∃ n,Read s.r n s'.r ∧ Effect fuel limits s n s' := by
  unfold unpackLink at h
  obtain ⟨r,hskip,h⟩ := bind_ok h
  cases parts with
  | none =>
    cases h
    exact ⟨_,skip_ok hskip,.none rfl rfl rfl⟩
  | some rel =>
    obtain ⟨target,htarget,h⟩ := bind_ok h
    obtain ⟨w,hparents,h⟩ := bind_ok h
    obtain ⟨disk,hmake,h⟩ := bind_ok h
    cases h
    exact ⟨_,skip_ok hskip,.link htarget hparents hmake rfl rfl rfl⟩

theorem unpackEntry_ok (h : unpackEntry fuel strip limits s e = .ok s') :
    ∃ n,Read s.r n s'.r ∧ Effect fuel limits s n s' := by
  unfold unpackEntry at h
  obtain ⟨parts,_,h⟩ := bind_ok h
  split at h
  · exact unpackFile_ok h
  split at h
  · exact unpackDir_ok h
  split at h
  · exact unpackLink_ok h
  split at h
  · cases h
  · cases h

theorem pax_foldl (records : List (Text × Bytes)) (s : State) :
    (records.foldl State.pax s).r = s.r ∧ (records.foldl State.pax s).w = s.w ∧
      (records.foldl State.pax s).written = s.written ∧
      (records.foldl State.pax s).stats = s.stats := by
  induction records generalizing s with
  | nil => exact ⟨rfl,rfl,rfl,rfl⟩
  | cons record records ih =>
    obtain ⟨hr,hw,hwritten,hstats⟩ := ih (s.pax record)
    rw [List.foldl_cons,hr,hw,hwritten,hstats]
    obtain ⟨key,value⟩ := record
    dsimp only [State.pax]
    split_ifs <;> exact ⟨rfl,rfl,rfl,rfl⟩

theorem header_ok {block : Bytes} (h : header fuel strip limits s block = .ok s') :
    ∃ n,Read s.r n s'.r ∧ Effect fuel limits s n s' := by
  unfold header at h
  obtain ⟨_,h⟩ := unless_ok h
  cases hsize : octal (slice block 124 136) with
  | none =>
    rw [hsize] at h
    cases h
  | some headerSize =>
    rw [hsize] at h
    dsimp only at h
    split at h
    · obtain ⟨⟨v,r⟩,hread,h⟩ := bind_ok h
      cases h
      obtain ⟨n,hread⟩ := readExactVec_ok hread
      exact ⟨n,hread,.none rfl rfl rfl⟩
    split at h
    · obtain ⟨⟨v,r⟩,hread,h⟩ := bind_ok h
      cases h
      obtain ⟨n,hread⟩ := readExactVec_ok hread
      exact ⟨n,hread,.none rfl rfl rfl⟩
    split at h
    · obtain ⟨⟨data,r⟩,hread,h⟩ := bind_ok h
      obtain ⟨n,hread⟩ := readExactVec_ok hread
      dsimp only at h
      cases hpax : paxRecords data.length data with
      | none =>
        rw [hpax] at h
        cases h
      | some records =>
        rw [hpax] at h
        cases h
        obtain ⟨hr,hw,hwritten,hstats⟩ := pax_foldl records { s with r }
        refine ⟨n,by rwa [hr],.none hw hwritten ?_⟩
        rw [hstats]
    split at h
    · obtain ⟨r,hskip,h⟩ := bind_ok h
      cases h
      exact ⟨_,skip_ok hskip,.none rfl rfl rfl⟩
    obtain ⟨_,h⟩ := unless_ok h
    obtain ⟨n,hread,heffect⟩ := unpackEntry_ok h
    exact ⟨n,hread,heffect.from rfl rfl rfl⟩

/-- One round reads a block and what belongs to it. -/
theorem round_ok (h : round fuel strip limits s = .ok (some s')) :
    ∃ n,Read s.r (512 + n) s'.r ∧ Effect fuel limits s n s' := by
  unfold round at h
  obtain ⟨⟨got,r⟩,hblock,h⟩ := bind_ok h
  cases got with
  | none => cases h
  | some block =>
    have hread : Read s.r 512 r := by
      unfold readBlock at hblock
      split at hblock
      · cases hblock
      · cases htake : s.r.take 512 .io with
        | error e =>
          rw [htake] at hblock
          cases hblock
        | ok out =>
          rw [htake] at hblock
          cases hblock
          exact (take_ok htake).1
    dsimp only at h
    split at h
    · split at h
      · cases h
      · cases h
        exact ⟨0,hread,.none rfl rfl rfl⟩
    · obtain ⟨t,hheader,h⟩ := bind_ok h
      cases h
      obtain ⟨n,hrest,heffect⟩ := header_ok hheader
      exact ⟨n,hread.trans hrest,heffect.from rfl rfl rfl⟩

end

/-- The loop of `extract_tar_gz`. -/
def extracting (fuel strip : Nat) (limits : Limits) : While State Refusal State where
  step := fun s => do
    match ← round fuel strip limits s with
    | none => return .inl s
    | some s' => return .inr s'
  size := fun s => s.r.bytes.length
  smaller := by
    intro s s' h
    obtain ⟨next,hround,h⟩ := bind_ok h
    cases next with
    | none => cases h
    | some t =>
      cases h
      obtain ⟨n,hread,_⟩ := round_ok hround
      have hbytes := hread.bytes
      omega

def start (archive : Bytes) (limits : Limits) : State where
  r := ⟨archive,satAdd limits.maxTotalBytes (2 ^ 24)⟩
  w := ⟨⟨fun _ => none,[]⟩,[]⟩
  stats := ⟨0,0,0,0⟩
  entries := 0
  longName := none
  longLink := none
  paxPath := none
  paxLink := none
  paxSize := none
  zeroBlocks := 0
  written := 0

/-- Unpacks a decompressed archive into an empty directory. The system follows links for so many
steps at most. -/
def extractTarGz (fuel : Nat) (archive : Bytes) (strip : Nat) (limits : Limits) :
    Except Refusal State :=
  (extracting fuel strip limits).run (start archive limits)

end Flagship.Updater.Extract

import Flagship.Lib.OrdMap
import Flagship.Lib.Source
import Flagship.Lib.Split

namespace Flagship.Broker.Tar
open Lib

/-- An app's files folder, or a server archive of regular files only. -/
inductive Profile
  | volume
  | archive
  deriving DecidableEq

structure Limits where
  maxEntries : Nat
  maxEntryBytes : Nat
  maxTotalBytes : Nat
  maxNameBytes : Nat
  maxPaxBytes : Nat
  maxNameTotalBytes : Nat
  deriving DecidableEq

def defaultLimits : Limits where
  maxEntries := 100000
  maxEntryBytes := 64 * 1024 * 1024 * 1024
  maxTotalBytes := 512 * 1024 * 1024 * 1024
  maxNameBytes := 4096
  maxPaxBytes := 64 * 1024
  maxNameTotalBytes := 32 * 1024 * 1024

inductive Refusal
  | badHeader
  | truncated
  | unsupported
  | tooManyEntries
  | badName
  | absolutePath
  | pathEscape
  | specialFile
  | notAllowed
  | duplicate
  | throughLink
  | symlinkEscape
  | hardlinkEscape
  | entryTooLarge
  | totalTooLarge
  | io
  deriving DecidableEq

def Refusal.code : Refusal → Text
  | .badHeader => "bad-header".toList
  | .truncated => "truncated".toList
  | .unsupported => "unsupported".toList
  | .tooManyEntries => "too-many-entries".toList
  | .badName => "bad-name".toList
  | .absolutePath => "absolute-path".toList
  | .pathEscape => "path-escape".toList
  | .specialFile => "special-file".toList
  | .notAllowed => "not-allowed".toList
  | .duplicate => "duplicate".toList
  | .throughLink => "through-link".toList
  | .symlinkEscape => "symlink-escape".toList
  | .hardlinkEscape => "hardlink-escape".toList
  | .entryTooLarge => "entry-too-large".toList
  | .totalTooLarge => "total-too-large".toList
  | .io => "io".toList

structure Summary where
  entries : Nat
  bytes : Nat
  deriving DecidableEq

/-- The file the broker copies to; it takes so many bytes more. -/
structure Sink where
  written : Bytes
  room : Nat
  deriving DecidableEq

def Sink.writeAll (w : Sink) (bs : Bytes) : Option Sink :=
  if bs.length ≤ w.room then some ⟨w.written ++ bs,w.room - bs.length⟩ else none

structure Reader where
  inner : Source
  sink : Option Sink
  deriving DecidableEq

/-- What reads from the stream, and leaves the reader behind. -/
abbrev Reading (α : Type) := Reader → Except Refusal (α × Reader)

/-- The loop of `exact`: what was got so far, and what is still to come. -/
def filling (n : Nat) : While (Bytes × Source) Refusal (Option Bytes × Source) where
  step := fun x =>
    if n ≤ x.1.length then .ok (.inl (some x.1,x.2))
    else match x.2.read (n - x.1.length) with
      | (.bytes [],src) => if x.1 = [] then .ok (.inl (none,src)) else .error .truncated
      | (.bytes (b :: bs),src) => .ok (.inr (x.1 ++ b :: bs,src))
      | (.interrupted,src) => .ok (.inr (x.1,src))
      | (.failed,_) => .error .io
  size := fun x => x.2.weight
  smaller := by
    rintro ⟨got,src⟩ s' h
    dsimp only at h ⊢
    split at h
    · cases h
    · next hn =>
      split at h
      · split at h <;> cases h
      · next hread =>
        cases h
        exact Source.weight_read (by omega) hread (by simp)
      · next hread =>
        cases h
        exact Source.weight_read (by omega) hread (by simp)
      · cases h

/-- Exactly so many bytes; none only when the stream ended before the first of them. -/
def exact (n : Nat) : Reading (Option Bytes) := fun r => do
  let (got,src) ← (filling n).run ([],r.inner)
  match got,r.sink with
  | some buf,some w =>
    match w.writeAll buf with
    | some w => .ok (some buf,⟨src,some w⟩)
    | none => .error .io
  | got,sink => .ok (got,⟨src,sink⟩)

/-- The reader took these bytes from the stream, and they are in the copy if there is one. -/
structure Moved (r : Reader) (x : Bytes) (r' : Reader) : Prop where
  bytes : r.inner.bytes = x ++ r'.inner.bytes
  sink : r'.sink = r.sink.map fun w => ⟨w.written ++ x,w.room - x.length⟩

theorem Moved.refl (r : Reader) : Moved r [] r := by
  refine ⟨rfl,?_⟩
  cases r.sink <;> simp

theorem Moved.trans {r r' r'' : Reader} {x y : Bytes} (h : Moved r x r') (h' : Moved r' y r'') :
    Moved r (x ++ y) r'' := by
  refine ⟨by rw [h.bytes,h'.bytes,List.append_assoc],?_⟩
  rw [h'.sink,h.sink,Option.map_map]
  congr 1
  funext w
  simp [Nat.sub_sub]

theorem filling_ok {n : Nat} {got buf : Bytes} {src src' : Source} (hn : got.length ≤ n)
    (h : (filling n).run (got,src) = .ok (some buf,src')) :
    buf.length = n ∧ ∃ x,buf = got ++ x ∧ src.bytes = x ++ src'.bytes := by
  refine While.run_induction (l := filling n)
    (P := fun s out => s.1.length ≤ n → ∀ buf src',out = .ok (some buf,src') →
      buf.length = n ∧ ∃ x,buf = s.1 ++ x ∧ s.2.bytes = x ++ src'.bytes)
    ?_ ?_ ?_ (got,src) hn buf src' h
  · intro s e _ _ buf src' h
    cases h
  · intro s a hs hle buf src' h
    cases h
    simp only [filling] at hs
    split at hs
    · next hn =>
      cases hs
      exact ⟨by omega,[],by simp,rfl⟩
    · split at hs
      · split at hs <;> cases hs
      · cases hs
      · cases hs
      · cases hs
  · intro s s' hs ih hle buf src' h
    simp only [filling] at hs
    split at hs
    · cases hs
    · split at hs
      · split at hs <;> cases hs
      · next b bs src₁ hread =>
        cases hs
        have hlen := Source.length_of_read hread
        have hbytes := Source.bytes_of_read hread
        obtain ⟨hb,x,hx,hrest⟩ := ih (by rw [List.length_append]; omega) buf src' h
        refine ⟨hb,b :: bs ++ x,by rw [hx,List.append_assoc],?_⟩
        rw [hbytes,hrest,List.append_assoc]
      · next hread =>
        cases hs
        rw [Source.bytes_of_interrupted hread]
        exact ih hle buf src' h
      · cases hs

/-- What `exact` gets has gone through the copy. -/
theorem exact_moved {n : Nat} {r r' : Reader} {buf : Bytes} (h : exact n r = .ok (some buf,r')) :
    buf.length = n ∧ Moved r buf r' := by
  obtain ⟨⟨got,src⟩,hfill,h⟩ := bind_ok h
  dsimp only at h
  split at h
  · next w hsink =>
    split at h
    · next w' hw =>
      cases h
      obtain ⟨hlen,x,hx,hbytes⟩ := filling_ok (Nat.zero_le _) hfill
      rw [List.nil_append] at hx
      subst hx
      simp only [Sink.writeAll] at hw
      split at hw
      · cases hw
        exact ⟨hlen,hbytes,by rw [hsink]; rfl⟩
      · cases hw
    · cases h
  · next sink hnone =>
    cases h
    obtain ⟨hlen,x,hx,hbytes⟩ := filling_ok (Nat.zero_le _) hfill
    rw [List.nil_append] at hx
    subst hx
    refine ⟨hlen,hbytes,?_⟩
    cases hs : r.sink with
    | none => rfl
    | some w => exact absurd hs (hnone buf w rfl)

def skipping : While (Nat × Reader) Refusal Reader where
  step := fun x =>
    if x.1 = 0 then .ok (.inl x.2)
    else match exact (min x.1 (64 * 1024)) x.2 with
      | .error e => .error e
      | .ok (none,_) => .error .truncated
      | .ok (some _,r) => .ok (.inr (x.1 - min x.1 (64 * 1024),r))
  size := fun x => x.1
  smaller := by
    rintro ⟨n,r⟩ s' h
    dsimp only at h ⊢
    split at h
    · cases h
    · split at h
      · cases h
      · cases h
      · cases h
        dsimp only
        omega

def skip (n : Nat) : Reading Unit := fun r => (skipping.run (n,r)).map fun r => ((),r)

/-- What is skipped goes through the copy. -/
theorem skip_moved {n : Nat} {r r' : Reader} (h : skip n r = .ok ((),r')) :
    ∃ x,x.length = n ∧ Moved r x r' := by
  have hrun : skipping.run (n,r) = .ok r' := by
    unfold skip at h
    cases hrun : skipping.run (n,r) with
    | error e => simp [hrun,Except.map] at h
    | ok t =>
      simp only [hrun,Except.map,Except.ok.injEq,Prod.mk.injEq,true_and] at h
      rw [h]
  refine While.run_induction (l := skipping)
    (P := fun s out => ∀ r',out = .ok r' → ∃ x,x.length = s.1 ∧ Moved s.2 x r')
    ?_ ?_ ?_ (n,r) r' hrun
  · intro s e _ r' h
    cases h
  · intro s a hs r' h
    cases h
    simp only [skipping] at hs
    split at hs
    · next hn =>
      cases hs
      exact ⟨[],by simp [hn],Moved.refl _⟩
    · split at hs <;> cases hs
  · intro s s' hs ih r' h
    simp only [skipping] at hs
    split at hs
    · cases hs
    · split at hs
      · cases hs
      · cases hs
      · next buf t hexact =>
        cases hs
        obtain ⟨hlen,hmoved⟩ := exact_moved hexact
        obtain ⟨x,hx,hrest⟩ := ih r' h
        refine ⟨buf ++ x,?_,hmoved.trans hrest⟩
        rw [List.length_append,hlen,hx]
        omega

def ascii (s : String) : Bytes := s.toList.map fun c => UInt8.ofNat c.toNat

/-- The bytes up to the first that is zero. -/
def cstr (b : Bytes) : Bytes := b.takeWhile (· != 0)

def field (h : Bytes) (i len : Nat) : Bytes := slice h i (i + len)

def maxSafe : Nat := 2 ^ 53 - 1

def isOctal (c : UInt8) : Bool := 0x30 ≤ c && c ≤ 0x37

def isDigit (c : UInt8) : Bool := 0x30 ≤ c && c ≤ 0x39

/-- A number in 64 bits from its octal digits. -/
def octal : Nat → Bytes → Option Nat
  | v,[] => some v
  | v,c :: cs =>
    if isOctal c && v * 8 + (c.toNat - 0x30) < 2 ^ 64 then octal (v * 8 + (c.toNat - 0x30)) cs
    else none

def decimal (digits : Bytes) : Nat := digits.foldl (fun v c => v * 10 + (c.toNat - 0x30)) 0

def parseSize : Bytes → Except Refusal Nat
  | [] => .error .badHeader
  | first :: rest =>
    if first &&& 0x80 ≠ 0 then
      if first ≠ 0x80 then .error .badHeader
      else if ofBe rest ≤ maxSafe then .ok (ofBe rest)
      else .error .badHeader
    else
      let f := (first :: rest).dropWhile (· == 0x20)
      let inner := fun c : UInt8 => c != 0 && c != 0x20
      if (f.dropWhile inner).any inner then .error .badHeader
      else match octal 0 (f.takeWhile inner) with
        | some v => if v ≤ maxSafe then .ok v else .error .badHeader
        | none => .error .badHeader

/-- Unicode's `White_Space`. -/
def isWhiteSpace (c : Char) : Bool :=
  (0x09 ≤ c.toNat && c.toNat ≤ 0x0d) ||
    [0x20,0x85,0xa0,0x1680,0x2028,0x2029,0x202f,0x205f,0x3000].contains c.toNat ||
    (0x2000 ≤ c.toNat && c.toNat ≤ 0x200a)

/-- The block with blanks for its checksum. -/
def blanked (h : Bytes) : Bytes :=
  h.zipIdx.map fun (b,i) => if 148 ≤ i && i < 156 then 0x20 else b

def unsignedSum (h : Bytes) : Int := ((blanked h).map fun b => (b.toNat : Int)).sum

def signedSum (h : Bytes) : Int := ((blanked h).map fun b => b.toInt8.toInt).sum

def checksumOk (h : Bytes) : Bool :=
  let text := utf8Bytes (trimEnds isWhiteSpace (utf8Lossy 0 (cstr (field h 148 8))))
  if text.isEmpty || 7 < text.length || !text.all isOctal then false
  else match octal 0 text with
    | none => false
    | some want => (want : Int) == unsignedSum h || (want : Int) == signedSum h

abbrev Pax := OrdMap Bytes Bytes

/-- One record `<len> <key>=<value>` of a pax header, and what follows it. -/
def paxRecord (rest : Bytes) : Except Refusal ((Bytes × Bytes) × Bytes) :=
  match rest.findIdx? (· == 0x20) with
  | none => .error .badHeader
  | some sp =>
    if 20 < sp || sp == 0 then .error .badHeader
    else
      let lenText := rest.take sp
      let len := decimal lenText
      if !lenText.all isDigit || 2 ^ 64 ≤ len then .error .badHeader
      else if len ≤ sp + 1 || rest.length < len || rest[len - 1]? != some 0x0a then
        .error .badHeader
      else
        let record := slice rest (sp + 1) (len - 1)
        match record.findIdx? (· == 0x3d) with
        | none => .error .badHeader
        | some eq =>
          if eq = 0 then .error .badHeader
          else .ok ((record.take eq,record.drop (eq + 1)),rest.drop len)

theorem length_of_paxRecord {rest rest' : Bytes} {record : Bytes × Bytes}
    (h : paxRecord rest = .ok (record,rest')) : rest'.length < rest.length := by
  unfold paxRecord at h
  dsimp only at h
  split at h
  · cases h
  split at h
  · cases h
  split at h
  · cases h
  split at h
  · cases h
  next hlen =>
    split at h
    · cases h
    split at h
    · cases h
    · cases h
      simp only [Bool.or_eq_true,decide_eq_true_eq,not_or] at hlen
      rw [List.length_drop]
      omega

def paxLoop : While (Bytes × Pax) Refusal Pax where
  step := fun x =>
    match x.1 with
    | [] => .ok (.inl x.2)
    | b :: rest =>
      if b = 0 then .ok (.inl x.2)
      else match paxRecord (b :: rest) with
        | .error e => .error e
        | .ok ((key,value),rest') => .ok (.inr (rest',x.2.set key value))
  size := fun x => x.1.length
  smaller := by
    rintro ⟨rest,out⟩ s' h
    dsimp only at h ⊢
    split at h
    · cases h
    · split at h
      · cases h
      · split at h
        · cases h
        · next hrec =>
          cases h
          exact length_of_paxRecord hrec

def parsePax (data : Bytes) : Except Refusal Pax := paxLoop.run (data,∅)

def dot : Bytes := ascii "."

def dotdot : Bytes := ascii ".."

def keepComponents (escape : Refusal) : List Bytes → Except Refusal (List Bytes)
  | [] => .ok []
  | c :: rest =>
    if c.isEmpty || c == dot then keepComponents escape rest
    else if c == dotdot then .error escape
    else (keepComponents escape rest).map (c :: ·)

/-- Components with `.` and empty ones dropped; an absolute name and any `..` is refused. -/
def components (name : Bytes) (absolute escape : Refusal) : Except Refusal (List Bytes) :=
  if name.head? = some 0x2f then .error absolute
  else keepComponents escape (name.splitOn 0x2f)

def join (parts : List Bytes) : Bytes := List.intercalate [0x2f] parts

def roundUp (n : Nat) : Except Refusal Nat :=
  if n + 511 < 2 ^ 64 then .ok ((n + 511) / 512 * 512) else .error .badHeader

def readMeta (size max : Nat) : Reading Bytes := fun r => do
  if max < size then throw .badHeader
  let padded ← roundUp size
  if padded = 0 then return ([],r)
  match ← exact padded r with
  | (none,_) => throw .truncated
  | (some d,r) => return (d.take size,r)

inductive Kind
  | file
  | dir
  | symlink
  | hardlink
  deriving DecidableEq

/-- What is known of the archive so far: the counts, the paths that were seen, and the
long names and pax records that stand for the next entry. -/
structure State where
  entries : Nat
  total : Nat
  nameBytes : Nat
  seen : List Bytes
  files : List Bytes
  links : List Bytes
  dirs : List Bytes
  longName : Option Bytes
  longLink : Option Bytes
  pax : Option Pax

def start : State := ⟨0,0,0,[],[],[],[[]],none,none,none⟩

/-- `saturating_add` of two numbers of 64 bits. -/
def satAdd (a b : Nat) : Nat := min (a + b) (2 ^ 64 - 1)

/-- A header block: whether it is a POSIX one, its type and its size. -/
structure Header where
  posix : Bool
  type : UInt8
  size : Nat
  deriving DecidableEq

def readHeader (h : Bytes) : Except Refusal Header := do
  if !checksumOk h then throw .badHeader
  let magic := field h 257 8
  let posix := (ascii "ustar\x00").isPrefixOf magic
  if !posix && magic != ascii "ustar  \x00" then throw .badHeader
  let size ← parseSize (field h 124 12)
  return ⟨posix,h.getD 156 0,size⟩

/-- The size a pax header gives, or the one of the entry's own header. -/
def paxSize (pax : Pax) (size : Nat) : Except Refusal Nat :=
  match pax.get? (ascii "size") with
  | none => .ok size
  | some v =>
    if v.isEmpty || 20 < v.length || !v.all isDigit then .error .badHeader
    else if decimal v ≤ maxSafe then .ok (decimal v)
    else .error .badHeader

/-- What an entry is called, what it links to, and how much data follows it. -/
structure Entry where
  name : Bytes
  link : Bytes
  size : Nat
  sparse : Bool
  deriving DecidableEq

def entryOf (st : State) (h : Bytes) (header : Header) : Except Refusal Entry := do
  let short := cstr (field h 0 100)
  let front := if header.posix then cstr (field h 345 155) else []
  let name := st.longName.getD (if front.isEmpty then short else front ++ [0x2f] ++ short)
  let link := st.longLink.getD (cstr (field h 157 100))
  match st.pax with
  | none => return ⟨name,link,header.size,false⟩
  | some pax =>
    let size ← paxSize pax header.size
    return ⟨(pax.get? (ascii "path")).getD name,(pax.get? (ascii "linkpath")).getD link,size,
      pax.keys.any fun k => (ascii "GNU.sparse.").isPrefixOf k⟩

def kindOf (type : UInt8) : Option Kind :=
  if type = 0x30 || type = 0 || type = 0x37 then some .file
  else if type = 0x35 then some .dir
  else if type = 0x32 then some .symlink
  else if type = 0x31 then some .hardlink
  else none

/-- The folders above a path, from the outermost. -/
def above (parts : List Bytes) : List Bytes :=
  (List.range' 1 (parts.length - 1)).map fun i => join (parts.take i)

/-- A link's target is walked from its folder; every step but the last is a folder, which
must not be a link. -/
def walk (links : List Bytes) : List Bytes → List Bytes → Except Refusal (List Bytes)
  | _,[] => .ok []
  | dir,c :: steps =>
    if c = dotdot then
      if dir = [] then .error .symlinkEscape else walk links dir.dropLast steps
    else if steps = [] then .ok []
    else if links.contains (join (dir ++ [c])) then .error .throughLink
    else (walk links (dir ++ [c]) steps).map (join (dir ++ [c]) :: ·)

/-- The folders a link's target walks through. -/
def checkLink (st : State) (kind : Kind) (parts : List Bytes) (link : Bytes) :
    Except Refusal (List Bytes) :=
  match kind with
  | .symlink =>
    if link = [] || link.head? = some 0x2f then .error .symlinkEscape
    else walk st.links parts.dropLast
      ((link.splitOn 0x2f).filter fun c => !c.isEmpty && c != dot)
  | .hardlink => do
    let target ← components link .hardlinkEscape .hardlinkEscape
    if target.isEmpty || !st.files.contains (join target) then throw .hardlinkEscape
    return []
  | .file | .dir => .ok []

/-- Where the entry lies and what it is. -/
def place (profile : Profile) (type : UInt8) (e : Entry) : Except Refusal (List Bytes × Kind) := do
  if e.name = [] then throw .badName
  let parts ← components e.name .absolutePath .pathEscape
  if e.sparse || type = 0x53 || type = 0x33 || type = 0x34 || type = 0x36 then throw .specialFile
  let some kind := kindOf type | throw .unsupported
  if parts = [] && kind ≠ .dir then throw .badName
  if profile = .archive && (kind ≠ .file || parts = []) then throw .notAllowed
  return (parts,kind)

/-- What the entry adds to what is known. -/
def State.add (st : State) (parts : List Bytes) (kind : Kind) (walked : List Bytes) : State :=
  let path := join parts
  let dirs := (walked ++ above parts).foldl (fun ds d => ds.insert d) st.dirs
  { st with
    seen := st.seen.insert path
    files := if kind = .file then st.files.insert path else st.files
    links := if kind = .symlink then st.links.insert path else st.links
    dirs := if kind = .dir then dirs.insert path else dirs }

/-- An entry that may be unpacked, and how much data follows its header. -/
def admitEntry (profile : Profile) (limits : Limits) (st : State) (h : Bytes) (header : Header) :
    Except Refusal (State × Nat) := do
  let st := { st with entries := satAdd st.entries 1 }
  if limits.maxEntries < st.entries then throw .tooManyEntries
  let e ← entryOf st h header
  let st := { st with longName := none, longLink := none, pax := none }
  let (parts,kind) ← place profile header.type e
  let path := join parts
  if st.seen.contains path then throw .duplicate
  if (above parts).any st.links.contains then throw .throughLink
  if kind = .symlink && st.dirs.contains path then throw .throughLink
  let walked ← checkLink st kind parts e.link
  if limits.maxEntryBytes < e.size then throw .entryTooLarge
  let st := { st with total := satAdd st.total e.size }
  if limits.maxTotalBytes < st.total then throw .totalTooLarge
  let st := { st with nameBytes := satAdd st.nameBytes path.length }
  if limits.maxNameTotalBytes < st.nameBytes then throw .tooManyEntries
  return (st.add parts kind walked,e.size)

/-- Once round the loop of `run_ref`: the header, and what belongs to it. -/
def round (profile : Profile) (limits : Limits) (st : State) : Reading (Summary ⊕ State) := fun r => do
  match ← exact 512 r with
  | (none,_) => throw .truncated
  | (some h,r) =>
    if h.all (· == 0) then return (.inl ⟨st.entries,st.total⟩,r)
    let header ← readHeader h
    if header.type = 0x4c || header.type = 0x4b then
      let (d,r) ← readMeta header.size limits.maxNameBytes r
      if header.type = 0x4c then return (.inr { st with longName := some (cstr d) },r)
      return (.inr { st with longLink := some (cstr d) },r)
    if header.type = 0x78 || header.type = 0x67 then
      let (d,r) ← readMeta header.size limits.maxPaxBytes r
      let records ← parsePax d
      if header.type = 0x67 then throw .unsupported
      return (.inr { st with pax := some records },r)
    let (st,size) ← admitEntry profile limits st h header
    let ((),r) ← skip (← roundUp size) r
    return (.inr st,r)

theorem readMeta_moved {size max : Nat} {r r' : Reader} {d : Bytes}
    (h : readMeta size max r = .ok (d,r')) : ∃ n x,size ≤ max ∧ roundUp size = .ok n ∧
      x.length = n ∧ d = x.take size ∧ Moved r x r' := by
  unfold readMeta at h
  split at h
  · cases h
  next hle =>
    obtain ⟨n,hn,h⟩ := bind_ok h
    split at h
    · next hzero =>
      cases h
      exact ⟨n,[],Nat.le_of_not_lt hle,hn,hzero.symm,by simp,Moved.refl _⟩
    · obtain ⟨⟨got,r₁⟩,hexact,h⟩ := bind_ok h
      cases got with
      | none => cases h
      | some buf =>
        cases h
        obtain ⟨hlen,hmoved⟩ := exact_moved hexact
        exact ⟨n,buf,Nat.le_of_not_lt hle,hn,hlen,rfl,hmoved⟩

/-- What follows a header block, and what is known after it. -/
inductive Takes (profile : Profile) (limits : Limits) (st : State) (h : Bytes) :
    Bytes → State → Prop
  | name {header : Header} {x : Bytes} (hread : readHeader h = .ok header)
      (htype : header.type = 0x4c) (hmax : header.size ≤ limits.maxNameBytes)
      (hlen : roundUp header.size = .ok x.length) :
      Takes profile limits st h x { st with longName := some (cstr (x.take header.size)) }
  | link {header : Header} {x : Bytes} (hread : readHeader h = .ok header)
      (htype : header.type = 0x4b) (hmax : header.size ≤ limits.maxNameBytes)
      (hlen : roundUp header.size = .ok x.length) :
      Takes profile limits st h x { st with longLink := some (cstr (x.take header.size)) }
  | pax {header : Header} {x : Bytes} {records : Pax} (hread : readHeader h = .ok header)
      (htype : header.type = 0x78) (hmax : header.size ≤ limits.maxPaxBytes)
      (hlen : roundUp header.size = .ok x.length)
      (hparse : parsePax (x.take header.size) = .ok records) :
      Takes profile limits st h x { st with pax := some records }
  | entry {header : Header} {x : Bytes} {st' : State} {size : Nat}
      (hread : readHeader h = .ok header)
      (htype : header.type ≠ 0x4c ∧ header.type ≠ 0x4b ∧ header.type ≠ 0x78 ∧ header.type ≠ 0x67)
      (htaken : admitEntry profile limits st h header = .ok (st',size))
      (hlen : roundUp size = .ok x.length) : Takes profile limits st h x st'

section
variable {profile : Profile} {limits : Limits} {st : State} {r r' : Reader} {out : Summary ⊕ State}

/-- One round reads the end of the archive, or a header and what follows it. -/
theorem round_ok (h : round profile limits st r = .ok (out,r')) :
    ∃ b x,b.length = 512 ∧ Moved r (b ++ x) r' ∧
      (b.all (· == 0) = true ∧ x = [] ∧ out = .inl ⟨st.entries,st.total⟩ ∨
      b.all (· == 0) = false ∧ ∃ st',out = .inr st' ∧ Takes profile limits st b x st') := by
  obtain ⟨⟨got,r₁⟩,hexact,h⟩ := bind_ok h
  cases got with
  | none => cases h
  | some b =>
    obtain ⟨hlen,hmoved⟩ := exact_moved hexact
    dsimp only at h
    by_cases hzero : b.all (· == 0) = true
    · rw [if_pos hzero] at h
      cases h
      exact ⟨b,[],hlen,by rwa [List.append_nil],Or.inl ⟨hzero,rfl,rfl⟩⟩
    rw [if_neg hzero] at h
    have hnot : b.all (· == 0) = false := Bool.eq_false_iff.mpr hzero
    obtain ⟨header,hread,h⟩ := bind_ok h
    by_cases hlong : (header.type = 0x4c || header.type = 0x4b) = true
    · rw [if_pos hlong] at h
      obtain ⟨⟨d,r₂⟩,hmeta,h⟩ := bind_ok h
      obtain ⟨n,x,hmax,hn,hx,rfl,hdata⟩ := readMeta_moved hmeta
      dsimp only at h
      by_cases hname : header.type = 0x4c
      · rw [if_pos hname] at h
        cases h
        exact ⟨b,x,hlen,hmoved.trans hdata,Or.inr ⟨hnot,_,rfl,.name hread hname hmax (hx ▸ hn)⟩⟩
      · rw [if_neg hname] at h
        cases h
        have hlink : header.type = 0x4b := by simpa [hname] using hlong
        exact ⟨b,x,hlen,hmoved.trans hdata,Or.inr ⟨hnot,_,rfl,.link hread hlink hmax (hx ▸ hn)⟩⟩
    rw [if_neg hlong] at h
    by_cases hpax : (header.type = 0x78 || header.type = 0x67) = true
    · rw [if_pos hpax] at h
      obtain ⟨⟨d,r₂⟩,hmeta,h⟩ := bind_ok h
      obtain ⟨n,x,hmax,hn,hx,rfl,hdata⟩ := readMeta_moved hmeta
      obtain ⟨records,hparse,h⟩ := bind_ok h
      by_cases hglobal : header.type = 0x67
      · rw [if_pos hglobal] at h
        cases h
      · rw [if_neg hglobal] at h
        cases h
        have htype : header.type = 0x78 := by simpa [hglobal] using hpax
        exact ⟨b,x,hlen,hmoved.trans hdata,
          Or.inr ⟨hnot,_,rfl,.pax hread htype hmax (hx ▸ hn) hparse⟩⟩
    rw [if_neg hpax] at h
    obtain ⟨⟨st',size⟩,htaken,h⟩ := bind_ok h
    obtain ⟨n,hn,h⟩ := bind_ok h
    obtain ⟨⟨⟨⟩,r₂⟩,hskip,h⟩ := bind_ok h
    cases h
    obtain ⟨x,hx,hskip⟩ := skip_moved hskip
    simp only [Bool.or_eq_true,decide_eq_true_eq,not_or] at hlong hpax
    exact ⟨b,x,hlen,hmoved.trans hskip,Or.inr ⟨hnot,st',rfl,
      .entry hread ⟨hlong.1,hlong.2,hpax.1,hpax.2⟩ htaken (hx ▸ hn)⟩⟩

theorem round_moved (h : round profile limits st r = .ok (out,r')) :
    r'.inner.bytes.length < r.inner.bytes.length := by
  obtain ⟨b,x,hlen,hmoved,_⟩ := round_ok h
  rw [hmoved.bytes,List.length_append,List.length_append]
  omega

end

/-- The loop of `run_ref`. -/
def checking (profile : Profile) (limits : Limits) :
    While (State × Reader) Refusal (Summary × Reader) where
  step := fun x => do
    match ← round profile limits x.1 x.2 with
    | (.inl s,r) => return .inl (s,r)
    | (.inr st,r) => return .inr (st,r)
  size := fun x => x.2.inner.bytes.length
  smaller := by
    intro x s' h
    obtain ⟨⟨out,r⟩,hround,h⟩ := bind_ok h
    cases out with
    | inl s => cases h
    | inr st =>
      cases h
      exact round_moved hround

def runRef (profile : Profile) (limits : Limits) : Reading Summary := fun r =>
  (checking profile limits).run (start,r)

def check (input : Source) (profile : Profile) (limits : Limits) : Except Refusal Summary :=
  (runRef profile limits ⟨input,none⟩).map Prod.fst

/-- Checks a stream while it is copied, and ends the copy with a second zero block. -/
def checkCopy (input : Source) (out : Sink) (profile : Profile) (limits : Limits) :
    Except Refusal (Summary × Reader) := do
  let (s,r) ← runRef profile limits ⟨input,some out⟩
  match r.sink with
  | none => return (s,r)
  | some w =>
    let some w := w.writeAll (List.replicate 512 0) | throw .io
    return (s,⟨r.inner,some w⟩)

end Flagship.Broker.Tar

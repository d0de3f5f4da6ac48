import Flagship.Broker.Tar

namespace Flagship.Broker.Tar
open Lib

/-- An entry as a reader of archives meets it. -/
structure Member where
  type : UInt8
  name : Bytes
  link : Bytes
  size : Nat
  deriving DecidableEq

def isMeta (type : UInt8) : Bool :=
  type = 0x4c || type = 0x4b || type = 0x78 || type = 0x67

/-- The entry a header block begins, if it begins one. -/
def memberOf (st : State) (h : Bytes) : Option Member :=
  match readHeader h with
  | .error _ => none
  | .ok header =>
    if isMeta header.type then none
    else match entryOf st h header with
      | .error _ => none
      | .ok e => some ⟨header.type,e.name,e.link,e.size⟩

/-- A header block that is not zero, and what follows it. -/
structure Record where
  header : Bytes
  data : Bytes
  length : header.length = 512
  filled : header.all (· == 0) = false

def flat (records : List Record) : Bytes := records.flatMap fun x => x.header ++ x.data

def zeroBlock : Bytes := List.replicate 512 0

theorem all_zeroBlock : zeroBlock.all (· == 0) = true := by
  refine List.all_eq_true.mpr ?_
  intro c hc
  rw [List.eq_of_mem_replicate hc]
  rfl

theorem eq_zeroBlock {b : Bytes} (hlen : b.length = 512) (h : b.all (· == 0) = true) :
    b = zeroBlock := by
  rw [List.eq_replicate_iff.mpr ⟨hlen,fun c hc => by simpa using List.all_eq_true.mp h c hc⟩]
  rfl

/-- The records of an archive that is checked, and its entries, from one state to another. -/
inductive Checked (profile : Profile) (limits : Limits) :
    State → List Record → List Member → State → Prop
  | nil (st : State) : Checked profile limits st [] [] st
  | cons {st st' st'' : State} {x : Record} {records : List Record} {members : List Member}
      (head : Takes profile limits st x.header x.data st')
      (tail : Checked profile limits st' records members st'') :
      Checked profile limits st (x :: records) ((memberOf st x.header).toList ++ members) st''

/-- A reader that meets no failure and copies nothing, with these bytes before it. -/
structure Ready (r : Reader) (bs : Bytes) : Prop where
  whole : r.inner.Whole
  bytes : r.inner.bytes = bs
  sink : r.sink = none

section
variable {n : Nat} {x y : Bytes} {r : Reader}

theorem filling_ready (got : Bytes) {src : Source} (hsrc : src.Whole) (hbytes : src.bytes = x ++ y)
    (hlen : (got ++ x).length = n) : ∃ src',
      (filling n).run (got,src) = .ok (some (got ++ x),src') ∧ src'.Whole ∧ src'.bytes = y := by
  refine While.run_induction (l := filling n)
    (P := fun s out => ∀ x,s.2.Whole → s.2.bytes = x ++ y → (s.1 ++ x).length = n →
      ∃ src',out = .ok (some (s.1 ++ x),src') ∧ src'.Whole ∧ src'.bytes = y)
    ?_ ?_ ?_ (got,src) x hsrc hbytes hlen
  · intro s e hs x hwhole hbytes hlen
    exfalso
    simp only [filling] at hs
    split at hs
    · cases hs
    next hn =>
      split at hs
      · next hread =>
        obtain ⟨hnil,_⟩ := Source.bytes_of_read_nil (by omega) hread
        rw [hnil] at hbytes
        have hx : x = [] := (List.append_eq_nil_iff.mp hbytes.symm).1
        rw [hx,List.append_nil] at hlen
        omega
      · cases hs
      · cases hs
      · next hread => exact (hwhole.of_read hread).2 rfl
  · intro s a hs x hwhole hbytes hlen
    simp only [filling] at hs
    rw [List.length_append] at hlen
    split at hs
    · next hn =>
      cases hs
      have hx : x = [] := List.eq_nil_of_length_eq_zero (by omega)
      subst hx
      exact ⟨s.2,by rw [List.append_nil],hwhole,hbytes⟩
    next hn =>
      split at hs
      · next hread =>
        obtain ⟨hnil,_⟩ := Source.bytes_of_read_nil (by omega) hread
        rw [hnil] at hbytes
        have hx : x = [] := (List.append_eq_nil_iff.mp hbytes.symm).1
        rw [hx,List.length_nil] at hlen
        omega
      · cases hs
      · cases hs
      · cases hs
  · intro s s' hs ih x hwhole hbytes hlen
    simp only [filling] at hs
    rw [List.length_append] at hlen
    split at hs
    · cases hs
    next hn =>
      split at hs
      · split at hs <;> cases hs
      · next b bs src hread =>
        cases hs
        have hle := Source.length_of_read hread
        rw [Source.bytes_of_read hread] at hbytes
        obtain ⟨z,rfl,hrest⟩ : ∃ z,x = b :: bs ++ z ∧ src.bytes = z ++ y := by
          rcases List.append_eq_append_iff.mp hbytes with ⟨z,hx,hz⟩ | ⟨z,hx,hz⟩
          · exact ⟨z,hx,hz⟩
          · have hlen' := congrArg List.length hx
            rw [List.length_append] at hlen'
            have hz0 : z = [] := List.eq_nil_of_length_eq_zero (by omega)
            subst hz0
            exact ⟨[],by simpa using hx.symm,by simpa using hz.symm⟩
        rw [List.length_append] at hlen
        have hz : ((s.1 ++ b :: bs) ++ z).length = n := by
          simp only [List.length_append]
          omega
        obtain ⟨src',hrun,hw,hb⟩ := ih z (hwhole.of_read hread).1 hrest hz
        exact ⟨src',by rw [hrun,List.append_assoc],hw,hb⟩
      · next hread =>
        cases hs
        have hbytes' := Source.bytes_of_interrupted hread
        exact ih x (hwhole.of_read hread).1 (hbytes' ▸ hbytes)
          (by rw [List.length_append]; exact hlen)
      · cases hs

theorem exact_ready (h : Ready r (x ++ y)) (hlen : x.length = n) :
    ∃ r',exact n r = .ok (some x,r') ∧ Ready r' y := by
  obtain ⟨src',hrun,hw,hb⟩ := filling_ready [] h.whole h.bytes hlen
  refine ⟨⟨src',none⟩,?_,hw,hb,rfl⟩
  simp only [exact,hrun,List.nil_append,bind,Except.bind,h.sink]

theorem skip_ready (h : Ready r (x ++ y)) (hlen : x.length = n) :
    ∃ r',skip n r = .ok ((),r') ∧ Ready r' y := by
  have hrun : ∃ r',skipping.run (n,r) = .ok r' ∧ Ready r' y := by
    refine While.run_induction (l := skipping)
      (P := fun s out => ∀ x,Ready s.2 (x ++ y) → x.length = s.1 → ∃ r',out = .ok r' ∧ Ready r' y)
      ?_ ?_ ?_ (n,r) x h hlen
    · intro s e hs x h hlen
      exfalso
      obtain ⟨r',hexact,_⟩ := exact_ready (n := min s.1 (64 * 1024))
        (x := x.take (min s.1 (64 * 1024))) (y := x.drop (min s.1 (64 * 1024)) ++ y)
        (by rwa [← List.append_assoc,List.take_append_drop]) (by rw [List.length_take]; omega)
      simp only [skipping,hexact] at hs
      split at hs <;> cases hs
    · intro s a hs x h hlen
      simp only [skipping] at hs
      split at hs
      · next hn =>
        cases hs
        have hx : x = [] := List.eq_nil_of_length_eq_zero (by omega)
        subst hx
        exact ⟨s.2,rfl,h⟩
      · split at hs <;> cases hs
    · intro s s' hs ih x h hlen
      obtain ⟨r',hexact,hready⟩ := exact_ready (n := min s.1 (64 * 1024))
        (x := x.take (min s.1 (64 * 1024))) (y := x.drop (min s.1 (64 * 1024)) ++ y)
        (by rwa [← List.append_assoc,List.take_append_drop]) (by rw [List.length_take]; omega)
      simp only [skipping,hexact] at hs
      split at hs
      · cases hs
      · cases hs
        exact ih (x.drop (min s.1 (64 * 1024))) hready (by rw [List.length_drop,hlen])
  obtain ⟨r',hrun,hready⟩ := hrun
  exact ⟨r',by rw [skip,hrun]; rfl,hready⟩

theorem readMeta_ready {size max : Nat} (h : Ready r (x ++ y)) (hmax : size ≤ max)
    (hlen : roundUp size = .ok x.length) :
    ∃ r',readMeta size max r = .ok (x.take size,r') ∧ Ready r' y := by
  simp only [readMeta,if_neg (Nat.not_lt.mpr hmax),hlen,bind,Except.bind]
  by_cases hzero : x.length = 0
  · have hx : x = [] := List.eq_nil_of_length_eq_zero hzero
    subst hx
    exact ⟨r,by simp [pure,Except.pure],h⟩
  · obtain ⟨r',hexact,hready⟩ := exact_ready h rfl
    refine ⟨r',?_,hready⟩
    rw [if_neg hzero,hexact]
    rfl

variable {profile : Profile} {limits : Limits} {st st' : State} {b : Bytes}

/-- A ready reader finds the same record that was found before. -/
theorem round_takes (h : Ready r (b ++ x ++ y)) (hlen : b.length = 512)
    (hnot : b.all (· == 0) = false) (htakes : Takes profile limits st b x st') :
    ∃ r',round profile limits st r = .ok (.inr st',r') ∧ Ready r' y := by
  rw [List.append_assoc] at h
  obtain ⟨r₁,hexact,hready⟩ := exact_ready h hlen
  cases htakes with
  | name hread htype hmax hpad =>
    obtain ⟨r₂,hmeta,hlast⟩ := readMeta_ready hready hmax hpad
    exact ⟨r₂,by simp [round,hexact,hnot,hread,htype,hmeta,bind,Except.bind,pure,Except.pure],hlast⟩
  | link hread htype hmax hpad =>
    obtain ⟨r₂,hmeta,hlast⟩ := readMeta_ready hready hmax hpad
    exact ⟨r₂,by simp [round,hexact,hnot,hread,htype,hmeta,bind,Except.bind,pure,Except.pure],hlast⟩
  | pax hread htype hmax hpad hparse =>
    obtain ⟨r₂,hmeta,hlast⟩ := readMeta_ready hready hmax hpad
    exact ⟨r₂,by
      simp [round,hexact,hnot,hread,htype,hmeta,hparse,bind,Except.bind,pure,Except.pure],hlast⟩
  | entry hread htype htaken hpad =>
    obtain ⟨r₂,hskip,hlast⟩ := skip_ready hready rfl
    exact ⟨r₂,by
      simp [round,hexact,hnot,hread,htype,htaken,hpad,hskip,bind,Except.bind,pure,Except.pure],hlast⟩

theorem round_ends (h : Ready r (zeroBlock ++ y)) :
    ∃ r',round profile limits st r = .ok (.inl ⟨st.entries,st.total⟩,r') ∧ Ready r' y := by
  obtain ⟨r',hexact,hready⟩ := exact_ready h (List.length_replicate (n := 512))
  refine ⟨r',?_,hready⟩
  simp only [round,hexact,all_zeroBlock,bind,Except.bind,if_true]
  rfl

/-- A run that ends well has read checked records, a zero block and nothing more. -/
theorem checking_ok {s : Summary} {r r' : Reader}
    (h : (checking profile limits).run (st,r) = .ok (s,r')) :
    ∃ records members st',Checked profile limits st records members st' ∧
      s = ⟨st'.entries,st'.total⟩ ∧ Moved r (flat records ++ zeroBlock) r' := by
  refine While.run_induction (l := checking profile limits)
    (P := fun x out => ∀ s r',out = .ok (s,r') → ∃ records members st',
      Checked profile limits x.1 records members st' ∧ s = ⟨st'.entries,st'.total⟩ ∧
        Moved x.2 (flat records ++ zeroBlock) r') ?_ ?_ ?_ (st,r) s r' h
  · intro x e _ s r' h
    cases h
  · intro x a hs s r' h
    cases h
    obtain ⟨⟨out,r₁⟩,hround,hs⟩ := bind_ok hs
    obtain ⟨b,z,hlen,hmoved,⟨hzero,rfl,rfl⟩ | ⟨_,st',rfl,_⟩⟩ := round_ok hround
    · cases hs
      rw [List.append_nil,eq_zeroBlock hlen hzero] at hmoved
      exact ⟨[],[],x.1,.nil x.1,rfl,hmoved⟩
    · cases hs
  · intro x x' hs ih s r' h
    obtain ⟨⟨out,r₁⟩,hround,hs⟩ := bind_ok hs
    obtain ⟨b,z,hlen,hmoved,⟨hzero,rfl,rfl⟩ | ⟨hnot,st',rfl,htakes⟩⟩ := round_ok hround
    · cases hs
    · cases hs
      obtain ⟨records,members,st'',hchecked,hs,hrest⟩ := ih s r' h
      refine ⟨⟨b,z,hlen,hnot⟩ :: records,_,st'',.cons htakes hchecked,hs,?_⟩
      have htrans := hmoved.trans hrest
      rwa [← List.append_assoc] at htrans

/-- Checked records and a zero block are checked again with the same result. -/
theorem checking_ready {records : List Record} {members : List Member}
    (h : Checked profile limits st records members st')
    (hready : Ready r (flat records ++ zeroBlock ++ y)) : ∃ r',
      (checking profile limits).run (st,r) = .ok (⟨st'.entries,st'.total⟩,r') ∧ Ready r' y := by
  induction h generalizing r with
  | nil st =>
    obtain ⟨r',hround,hlast⟩ : ∃ r',
        round profile limits st r = .ok (.inl ⟨st.entries,st.total⟩,r') ∧ Ready r' y :=
      round_ends hready
    refine ⟨r',While.run_done ?_,hlast⟩
    simp only [checking,hround,bind,Except.bind]
    rfl
  | @cons st st₁ st₂ x records members head tail ih =>
    have hall : Ready r (x.header ++ x.data ++ (flat records ++ zeroBlock ++ y)) := by
      simpa [flat,List.append_assoc] using hready
    obtain ⟨r₁,hround,hnext⟩ := round_takes hall x.length x.filled head
    obtain ⟨r',hrun,hlast⟩ := ih hnext
    refine ⟨r',?_,hlast⟩
    rw [← hrun]
    refine While.run_more ?_
    simp only [checking,hround,bind,Except.bind]
    rfl

end

theorem written_of_writeAll {w w' : Sink} {bs : Bytes} (h : w.writeAll bs = some w') :
    w'.written = w.written ++ bs := by
  unfold Sink.writeAll at h
  split at h
  · cases h
    rfl
  · cases h

/-- What is fed to the extractor is what was checked: the copy is the records up to the first
header that is a zero block, with that block and one more, and it is accepted again with the
same summary. -/
theorem copy_is_what_was_checked {input : Source} {out : Sink} {profile : Profile}
    {limits : Limits} {s : Summary} {r : Reader}
    (h : checkCopy input out profile limits = .ok (s,r)) :
    ∃ records members st copy,Checked profile limits start records members st ∧
      input.bytes = flat records ++ zeroBlock ++ r.inner.bytes ∧
      copy = flat records ++ zeroBlock ++ zeroBlock ∧
      r.sink.map Sink.written = some (out.written ++ copy) ∧
      ∀ again : Source,again.Whole → again.bytes = copy → check again profile limits = .ok s := by
  obtain ⟨⟨s₁,r₁⟩,hrun,h⟩ := bind_ok h
  obtain ⟨records,members,st,hchecked,rfl,hmoved⟩ := checking_ok hrun
  have hsink := hmoved.sink
  simp only [Option.map_some] at hsink
  simp only [hsink] at h
  split at h
  · next w hw =>
    cases h
    refine ⟨records,members,st,_,hchecked,hmoved.bytes,rfl,?_,?_⟩
    · rw [Option.map_some,written_of_writeAll hw,List.append_assoc]
      rfl
    · intro again hwhole hbytes
      obtain ⟨r',hagain,_⟩ := checking_ready hchecked (r := ⟨again,none⟩) ⟨hwhole,hbytes,rfl⟩
      rw [check,runRef,hagain]
      rfl
  · cases h

/-- The header of a file of three bytes. -/
def oneFile : Bytes :=
  ascii "a" ++ List.replicate 123 0 ++ ascii "00000000003\x00" ++ List.replicate 12 0 ++
    ascii "002723\x00 " ++ ascii "0" ++ List.replicate 100 0 ++ ascii "ustar\x00" ++
    List.replicate 249 0

/-- The file in two deliveries, and a zero block with a byte after it that is not read. -/
def oneFileInput : Source :=
  [.part 97 (oneFile.drop 1),.interrupted,.part 1 [2,3],.part 0 (List.replicate 508 0),
    .part 0 (List.replicate 511 0 ++ [9])]

theorem copy_of_one_file : ∃ r,
    checkCopy oneFileInput ⟨[],4096⟩ .volume defaultLimits = .ok (⟨1,3⟩,r) ∧
    ∃ records members st copy,Checked .volume defaultLimits start records members st ∧
      oneFileInput.bytes = flat records ++ zeroBlock ++ r.inner.bytes ∧
      copy = flat records ++ zeroBlock ++ zeroBlock ∧ r.sink.map Sink.written = some ([] ++ copy) ∧
      ∀ again : Source,again.Whole → again.bytes = copy →
        check again .volume defaultLimits = .ok ⟨1,3⟩ := by
  have h : checkCopy oneFileInput ⟨[],4096⟩ .volume defaultLimits = .ok (⟨1,3⟩,⟨[.part 9 []],
      some ⟨oneFile ++ [1,2,3] ++ List.replicate (509 + 1024) 0,4096 - 2048⟩⟩) := by
    decide +kernel
  exact ⟨_,h,copy_is_what_was_checked h⟩

section
variable {profile : Profile} {limits : Limits} {st st' : State} {b x : Bytes} {header : Header}
  {size : Nat}

/-- What is checked of an entry that is admitted. -/
theorem admitEntry_ok (h : admitEntry profile limits st b header = .ok (st',size)) :
    ∃ e parts kind walked,entryOf st b header = .ok e ∧ size = e.size ∧
      place profile header.type e = .ok (parts,kind) ∧ join parts ∉ st.seen ∧
      (∀ d ∈ above parts,d ∉ st.links) ∧ (kind = .symlink → join parts ∉ st.dirs) ∧
      checkLink st kind parts e.link = .ok walked ∧ ∃ total names,
        st' = State.add ⟨satAdd st.entries 1,total,names,st.seen,st.files,st.links,st.dirs,
          none,none,none⟩ parts kind walked := by
  unfold admitEntry at h
  obtain ⟨_,h⟩ := unless_ok h
  obtain ⟨e,hentry,h⟩ := bind_ok h
  obtain ⟨⟨parts,kind⟩,hplace,h⟩ := bind_ok h
  obtain ⟨hseen,h⟩ := unless_ok h
  obtain ⟨habove,h⟩ := unless_ok h
  obtain ⟨hdirs,h⟩ := unless_ok h
  obtain ⟨walked,hlink,h⟩ := bind_ok h
  obtain ⟨_,h⟩ := unless_ok h
  obtain ⟨_,h⟩ := unless_ok h
  obtain ⟨_,h⟩ := unless_ok h
  cases h
  refine ⟨e,parts,kind,walked,hentry,rfl,hplace,by simpa using hseen,?_,?_,?_,_,_,rfl⟩
  · intro d hd hin
    exact habove (List.any_eq_true.mpr ⟨d,hd,by simpa using hin⟩)
  · rintro rfl hin
    exact hdirs (by simpa using hin)
  · cases kind <;> exact hlink

theorem readHeader_type (h : readHeader b = .ok header) : header.type = b.getD 156 0 := by
  unfold readHeader at h
  obtain ⟨_,h⟩ := unless_ok h
  obtain ⟨_,h⟩ := unless_ok h
  obtain ⟨size,_,h⟩ := bind_ok h
  cases h
  rfl

theorem memberOf_meta (hread : readHeader b = .ok header) (hmeta : isMeta header.type = true) :
    memberOf st b = none := by
  simp only [memberOf,hread,if_pos hmeta]

theorem memberOf_entry {e : Entry} (hread : readHeader b = .ok header)
    (hmeta : isMeta header.type = false) (hentry : entryOf st b header = .ok e) :
    memberOf st b = some ⟨header.type,e.name,e.link,e.size⟩ := by
  simp only [memberOf,hread,hmeta,hentry,Bool.false_eq_true,if_false]

theorem roundUp_ok {n m : Nat} (h : roundUp n = .ok m) : m = (n + 511) / 512 * 512 := by
  unfold roundUp at h
  split at h
  · cases h
    rfl
  · cases h

end

/-- By POSIX links, folders, devices and pipes have no data, whatever size they give. -/
def hasData (type : UInt8) : Bool := !([0x31,0x32,0x33,0x34,0x35,0x36].contains type)

/-- What a reader that goes by POSIX makes of a header and of what follows it. -/
def posixStep (st : State) (h rest : Bytes) : Option (Option Member × State × Bytes) :=
  let after := fun size => rest.drop ((size + 511) / 512 * 512)
  match readHeader h with
  | .error _ => none
  | .ok header =>
    if header.type = 0x4c then
      some (none,{ st with longName := some (cstr (rest.take header.size)) },after header.size)
    else if header.type = 0x4b then
      some (none,{ st with longLink := some (cstr (rest.take header.size)) },after header.size)
    else if header.type = 0x78 then
      match parsePax (rest.take header.size) with
      | .error _ => none
      | .ok records => some (none,{ st with pax := some records },after header.size)
    else if header.type = 0x67 then some (none,st,after header.size)
    else match entryOf st h header with
      | .error _ => none
      | .ok e => some (some ⟨header.type,e.name,e.link,e.size⟩,
          { st with longName := none,longLink := none,pax := none },
          if hasData header.type then after e.size else rest)

def posixMembers : Nat → State → Bytes → List Member
  | 0,_,_ => []
  | n + 1,st,bs =>
    if bs.length < 512 || (bs.take 512).all (· == 0) then []
    else match posixStep st (bs.take 512) (bs.drop 512) with
      | none => []
      | some (found,st,rest) => found.toList ++ posixMembers n st rest

/-- Two states with the same long names and pax records to come. -/
structure SamePending (st s : State) : Prop where
  longName : st.longName = s.longName
  longLink : st.longLink = s.longLink
  pax : st.pax = s.pax

theorem SamePending.entryOf {st s : State} (h : SamePending st s) (b : Bytes) (header : Header) :
    entryOf st b header = entryOf s b header := by
  simp only [Tar.entryOf,h.longName,h.longLink,h.pax]

section
variable {profile : Profile} {limits : Limits} {st st' s : State} {b x y : Bytes}

/-- The data that follows a header is data of a file, or what a record says of the next entry. -/
def Accounted (b x : Bytes) : Prop :=
  x ≠ [] → isMeta (b.getD 156 0) = true ∨ kindOf (b.getD 156 0) = some .file

theorem kindOf_hasData {type : UInt8} {kind : Kind} (h : kindOf type = some kind) :
    hasData type = true ↔ kind = .file := by
  unfold kindOf at h
  split at h
  · next htype =>
    cases h
    simp only [Bool.or_eq_true,decide_eq_true_eq] at htype
    rcases htype with (rfl | rfl) | rfl <;> decide
  split at h
  · next htype =>
    subst htype
    cases h
    decide
  split at h
  · next htype =>
    subst htype
    cases h
    decide
  split at h
  · next htype =>
    subst htype
    cases h
    decide
  · cases h

theorem padded_data {n : Nat} (hlen : roundUp n = .ok x.length) :
    (x ++ y).take n = x.take n ∧ (x ++ y).drop ((n + 511) / 512 * 512) = y := by
  have hx := roundUp_ok hlen
  refine ⟨List.take_append_of_le_length (by omega),?_⟩
  rw [← hx,List.drop_left]

theorem place_ok {type : UInt8} {e : Entry} {parts : List Bytes} {kind : Kind}
    (h : place profile type e = .ok (parts,kind)) :
    components e.name .absolutePath .pathEscape = .ok parts ∧ kindOf type = some kind ∧
      (parts = [] → kind = .dir) := by
  unfold place at h
  obtain ⟨_,h⟩ := unless_ok h
  obtain ⟨parts',hparts,h⟩ := bind_ok h
  obtain ⟨_,h⟩ := unless_ok h
  cases hkind : kindOf type with
  | none =>
    rw [hkind] at h
    cases h
  | some kind' =>
    rw [hkind] at h
    obtain ⟨hempty,h⟩ := unless_ok h
    obtain ⟨_,h⟩ := unless_ok h
    cases h
    refine ⟨hparts,rfl,?_⟩
    rintro rfl
    simpa using hempty

/-- What a record of a checked archive brings. -/
structure Brings (st : State) (b x : Bytes) (st' : State) : Prop where
  entry : ∀ m,memberOf st b = some m → m.type = b.getD 156 0 ∧ (∃ kind,kindOf m.type = some kind) ∧
    x.length = (m.size + 511) / 512 * 512 ∧ st'.entries = satAdd st.entries 1
  other : memberOf st b = none → isMeta (b.getD 156 0) = true ∧ st'.entries = st.entries
  /-- A reader that goes by POSIX finds the same and goes on after it. -/
  posix : ∀ s y,SamePending st s →
    (∀ m,memberOf st b = some m → kindOf m.type ≠ some .file → m.size = 0) →
    ∃ s',posixStep s b (x ++ y) = some (memberOf st b,s',y) ∧ SamePending st' s'

theorem Takes.brings (h : Takes profile limits st b x st') : Brings st b x st' := by
  cases h with
  | @name header _ hread htype _ hlen =>
    have hnone : memberOf st b = none := memberOf_meta hread (by rw [htype]; rfl)
    refine ⟨by simp [hnone],fun _ => ⟨by rw [← readHeader_type hread,htype]; rfl,rfl⟩,?_⟩
    intro s y hsame _
    obtain ⟨htake,hdrop⟩ := padded_data (y := y) hlen
    refine ⟨{ s with longName := some (cstr (x.take header.size)) },?_,?_⟩
    · simp only [posixStep,hread,if_pos htype,htake,hdrop,hnone]
    · exact ⟨rfl,hsame.longLink,hsame.pax⟩
  | @link header _ hread htype _ hlen =>
    have hnone : memberOf st b = none := memberOf_meta hread (by rw [htype]; rfl)
    refine ⟨by simp [hnone],fun _ => ⟨by rw [← readHeader_type hread,htype]; rfl,rfl⟩,?_⟩
    intro s y hsame _
    obtain ⟨htake,hdrop⟩ := padded_data (y := y) hlen
    refine ⟨{ s with longLink := some (cstr (x.take header.size)) },?_,?_⟩
    · simp only [posixStep,hread,htype,htake,hdrop,hnone]
      rfl
    · exact ⟨hsame.longName,rfl,hsame.pax⟩
  | @pax header _ records hread htype _ hlen hparse =>
    have hnone : memberOf st b = none := memberOf_meta hread (by rw [htype]; rfl)
    refine ⟨by simp [hnone],fun _ => ⟨by rw [← readHeader_type hread,htype]; rfl,rfl⟩,?_⟩
    intro s y hsame _
    obtain ⟨htake,hdrop⟩ := padded_data (y := y) hlen
    refine ⟨{ s with pax := some records },?_,?_⟩
    · simp only [posixStep,hread,htype,htake,hdrop,hnone,hparse]
      rfl
    · exact ⟨hsame.longName,hsame.longLink,rfl⟩
  | @entry header _ _ size hread htype htaken hlen =>
    obtain ⟨e,parts,kind,walked,hentry,rfl,hplace,_,_,_,_,total,names,rfl⟩ := admitEntry_ok htaken
    obtain ⟨_,hkind,_⟩ := place_ok hplace
    have hmeta : isMeta header.type = false := by simp [isMeta,htype]
    have hsome := memberOf_entry hread hmeta hentry
    refine ⟨?_,by simp [hsome],?_⟩
    · intro m hm
      rw [hsome] at hm
      cases hm
      exact ⟨readHeader_type hread,⟨kind,hkind⟩,roundUp_ok hlen,rfl⟩
    · intro s y hsame hsize
      refine ⟨{ s with longName := none,longLink := none,pax := none },?_,⟨rfl,rfl,rfl⟩⟩
      simp only [posixStep,hread,htype,if_false,← hsame.entryOf,hentry,hsome]
      by_cases hfile : kind = .file
      · rw [if_pos ((kindOf_hasData hkind).mpr hfile),(padded_data hlen).2]
      · have hdata : ¬ hasData header.type = true := fun h => hfile ((kindOf_hasData hkind).mp h)
        have hzero : e.size = 0 := hsize _ hsome (by rw [hkind]; simpa using hfile)
        have hx : x = [] := by
          have := roundUp_ok hlen
          rw [hzero] at this
          exact List.eq_nil_of_length_eq_zero this
        rw [if_neg hdata,hx]
        rfl

end

/-- A reader that goes by POSIX finds the entries that were checked. -/
theorem posixMembers_checked {profile : Profile} {limits : Limits} {st st' s : State}
    {records : List Record} {members : List Member} {n : Nat} {y : Bytes}
    (h : Checked profile limits st records members st') (hsame : SamePending st s)
    (hsize : ∀ m ∈ members,kindOf m.type ≠ some .file → m.size = 0) (hn : records.length < n) :
    posixMembers n s (flat records ++ zeroBlock ++ y) = members := by
  induction h generalizing s n with
  | nil st =>
    obtain ⟨n,rfl⟩ := Nat.exists_eq_succ_of_ne_zero (Nat.pos_iff_ne_zero.mp hn)
    have hzero : (zeroBlock ++ y).take 512 = zeroBlock := List.take_left' List.length_replicate
    change posixMembers (n + 1) s (zeroBlock ++ y) = []
    rw [posixMembers,hzero,all_zeroBlock,Bool.or_true,if_pos rfl]
  | @cons st st₁ st₂ x records members head tail ih =>
    obtain ⟨n,rfl⟩ := Nat.exists_eq_succ_of_ne_zero (Nat.pos_iff_ne_zero.mp (Nat.zero_lt_of_lt hn))
    have hall : flat (x :: records) ++ zeroBlock ++ y =
        x.header ++ (x.data ++ (flat records ++ zeroBlock ++ y)) := by
      simp [flat,List.append_assoc]
    obtain ⟨s',hstep,hsame'⟩ := head.brings.posix s (flat records ++ zeroBlock ++ y) hsame
      fun m hm => hsize m (by simp [hm])
    have hlong : ¬ (x.header ++ (x.data ++ (flat records ++ zeroBlock ++ y))).length < 512 := by
      rw [List.length_append,x.length]
      omega
    rw [hall,posixMembers,← x.length,List.take_left,List.drop_left,x.filled,Bool.or_false,
      x.length,if_neg (by simpa using hlong),hstep]
    dsimp only
    rw [ih hsame' (fun m hm => hsize m (by simp [hm])) (Nat.lt_of_succ_lt_succ hn)]

section
variable {profile : Profile} {limits : Limits} {st st' : State} {records : List Record}
  {members : List Member}

theorem Checked.entries (h : Checked profile limits st records members st')
    (hst : st.entries < 2 ^ 64) : st'.entries = satAdd st.entries members.length := by
  induction h with
  | nil st =>
    rw [satAdd,List.length_nil]
    omega
  | @cons st st₁ st₂ x records members head tail ih =>
    cases hfound : memberOf st x.header with
    | none =>
      have hsame := (head.brings.other hfound).2
      rw [ih (hsame ▸ hst),hsame]
      rfl
    | some m =>
      obtain ⟨_,_,_,hmore⟩ := head.brings.entry m hfound
      have hlt : st₁.entries < 2 ^ 64 := by
        rw [hmore,satAdd]
        omega
      rw [ih hlt,hmore]
      simp only [satAdd,Option.toList_some,List.length_append,List.length_cons,List.length_nil]
      omega

/-- Every entry has its record, with as much data as its size says. -/
theorem Checked.record (h : Checked profile limits st records members st') :
    ∀ m ∈ members,∃ x ∈ records,m.type = x.header.getD 156 0 ∧ (∃ kind,kindOf m.type = some kind) ∧
      x.data.length = (m.size + 511) / 512 * 512 := by
  induction h with
  | nil st => simp
  | @cons st st₁ st₂ x records members head tail ih =>
    intro m hm
    rcases List.mem_append.mp hm with hm | hm
    · obtain ⟨htype,hkind,hlen,_⟩ := head.brings.entry m (Option.mem_toList.mp hm)
      exact ⟨x,List.mem_cons_self,htype,hkind,hlen⟩
    · obtain ⟨x',hx',hspec⟩ := ih m hm
      exact ⟨x',List.mem_cons_of_mem x hx',hspec⟩

theorem Checked.accounted (h : Checked profile limits st records members st')
    (hsize : ∀ m ∈ members,kindOf m.type ≠ some .file → m.size = 0) :
    ∀ x ∈ records,Accounted x.header x.data := by
  induction h with
  | nil st => simp
  | @cons st st₁ st₂ x records members head tail ih =>
    intro x' hx'
    rcases List.mem_cons.mp hx' with rfl | hx'
    · intro hdata
      cases hfound : memberOf st x'.header with
      | none => exact Or.inl (head.brings.other hfound).1
      | some m =>
        obtain ⟨htype,_,hlen,_⟩ := head.brings.entry m hfound
        refine Or.inr ?_
        rw [← htype]
        by_contra hfile
        rw [hsize m (by simp [hfound]) hfile] at hlen
        exact hdata (List.eq_nil_of_length_eq_zero hlen)
    · exact ih (fun m hm => hsize m (by simp [hm])) x' hx'

theorem length_flat (records : List Record) : records.length ≤ (flat records).length := by
  induction records with
  | nil => exact Nat.le_refl _
  | cons x records ih =>
    simp only [flat,List.flatMap_cons,List.length_append,List.length_cons,x.length] at ih ⊢
    omega

end

theorem checked_of_check {input : Source} {profile : Profile} {limits : Limits} {s : Summary}
    (h : check input profile limits = .ok s) : ∃ records members st rest,
      Checked profile limits start records members st ∧ s = ⟨st.entries,st.total⟩ ∧
      input.bytes = flat records ++ zeroBlock ++ rest := by
  unfold check at h
  cases hrun : runRef profile limits ⟨input,none⟩ with
  | error e =>
    rw [hrun] at h
    cases h
  | ok out =>
    rw [hrun] at h
    cases h
    obtain ⟨records,members,st,hchecked,hs,hmoved⟩ := checking_ok hrun
    exact ⟨records,members,st,_,hchecked,hs,hmoved.bytes⟩

/-- Of an archive that is accepted, each block that is passed over belongs to a file or to a
record about the next entry, and a reader that goes by POSIX sees the entries that were
checked, exactly where no link and no folder gives a size. -/
theorem posix_sees_what_was_checked_iff {input : Source} {profile : Profile} {limits : Limits}
    {s : Summary} (h : check input profile limits = .ok s) : ∃ records members st rest,
      Checked profile limits start records members st ∧
      input.bytes = flat records ++ zeroBlock ++ rest ∧
      ((∀ x ∈ records,Accounted x.header x.data) ∧
        posixMembers input.bytes.length start input.bytes = members ↔
        ∀ m ∈ members,kindOf m.type ≠ some .file → m.size = 0) := by
  obtain ⟨records,members,st,rest,hchecked,_,hbytes⟩ := checked_of_check h
  refine ⟨records,members,st,rest,hchecked,hbytes,?_,?_⟩
  · rintro ⟨haccounted,_⟩ m hm hfile
    obtain ⟨x,hx,htype,⟨kind,hkind⟩,hlen⟩ := hchecked.record m hm
    have hdata : x.data = [] := by
      by_contra hne
      rcases haccounted x hx hne with hmeta | hkind'
      · rw [← htype] at hmeta
        simp only [isMeta,Bool.or_eq_true,decide_eq_true_eq] at hmeta
        rcases hmeta with ((hmeta | hmeta) | hmeta) | hmeta <;> rw [hmeta] at hkind <;> cases hkind
      · exact hfile (htype ▸ hkind')
    rw [hdata,List.length_nil] at hlen
    omega
  · intro hsize
    refine ⟨hchecked.accounted hsize,?_⟩
    have hn : records.length < input.bytes.length := by
      have hflat := length_flat records
      rw [hbytes]
      simp only [List.length_append,zeroBlock,List.length_replicate]
      omega
    have hposix := posixMembers_checked (y := rest) hchecked ⟨rfl,rfl,rfl⟩ hsize hn
    rwa [← hbytes] at hposix

theorem posix_sees_one_file : ∃ records members st rest,
    Checked .volume defaultLimits start records members st ∧
    oneFileInput.bytes = flat records ++ zeroBlock ++ rest ∧
    ((∀ x ∈ records,Accounted x.header x.data) ∧
      posixMembers oneFileInput.bytes.length start oneFileInput.bytes = members ↔
      ∀ m ∈ members,kindOf m.type ≠ some .file → m.size = 0) := by
  have h : check oneFileInput .volume defaultLimits = .ok ⟨1,3⟩ := by decide +kernel
  exact posix_sees_what_was_checked_iff h

/-- The header of a link to `b` that gives a size of one block. -/
def linkWithData : Bytes :=
  ascii "a" ++ List.replicate 123 0 ++ ascii "00000001000\x00" ++ List.replicate 12 0 ++
    ascii "003065\x00 " ++ ascii "2" ++ ascii "b" ++ List.replicate 99 0 ++ ascii "ustar\x00" ++
    List.replicate 249 0

/-- The header of an empty file at an absolute path. -/
def absoluteFile : Bytes :=
  ascii "/x" ++ List.replicate 122 0 ++ ascii "00000000000\x00" ++ List.replicate 12 0 ++
    ascii "003026\x00 " ++ ascii "0" ++ List.replicate 100 0 ++ ascii "ustar\x00" ++
    List.replicate 249 0

/-- The second header in the place of the first one's data. -/
def hidingInput : Source := [.part 97 (linkWithData.drop 1 ++ absoluteFile ++ List.replicate 1024 0)]

/-- The checker passes over a header that a reader that goes by POSIX unpacks. -/
theorem link_hides_header : ¬ ∀ (input : Source) (profile : Profile) (limits : Limits) (s : Summary),
    check input profile limits = .ok s → ∀ records members st rest,
      Checked profile limits start records members st →
      input.bytes = flat records ++ zeroBlock ++ rest →
      (∀ x ∈ records,Accounted x.header x.data) ∧
        posixMembers input.bytes.length start input.bytes = members := by
  intro h
  have hcheck : check hidingInput .volume defaultLimits = .ok ⟨1,512⟩ := by decide +kernel
  have hposix : (posixMembers hidingInput.bytes.length start hidingInput.bytes).length = 2 := by
    decide +kernel
  obtain ⟨records,members,st,rest,hchecked,hs,hbytes⟩ := checked_of_check hcheck
  have hentries := hchecked.entries (by decide)
  rw [← (h _ _ _ _ hcheck records members st rest hchecked hbytes).2,hposix] at hentries
  have hone : st.entries = 1 := (congrArg Summary.entries hs).symm
  rw [hone] at hentries
  exact absurd hentries (by decide)

end Flagship.Broker.Tar

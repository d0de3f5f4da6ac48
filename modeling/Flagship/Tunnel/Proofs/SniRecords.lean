import Flagship.Tunnel.Sni
import Flagship.Relay.Sni

namespace Flagship.Tunnel.Proofs
open Lib

/-- What the relay's walk over a body came to, in the words of the other parser. -/
def ofBody : Except String (Option Text) → SniParseResult
  | .ok sni => .ok sni
  | .error reason => .error reason

theorem lower_fin : ∀ n : Fin 256,(Char.ofNat (UInt8.ofNat n.1).toNat).toLower =
    Char.ofNat (Relay.byteToAsciiLowercase (UInt8.ofNat n.1)).toNat := by
  decide +kernel

theorem hostText_eq (name : Bytes) :
    hostText name = name.map fun c => Char.ofNat (Relay.byteToAsciiLowercase c).toNat := by
  refine List.map_congr_left fun c _ => ?_
  have h := lower_fin ⟨c.toNat,c.toNat_lt⟩
  rwa [UInt8.ofNat_toNat] at h

theorem any_not_printable (name : Bytes) :
    (name.any fun c => !(0x20 ≤ c && c ≤ 0x7e)) = !name.all isPrintable := by
  rw [List.not_all_eq_any_not]
  refine congrArg name.any (funext fun c => ?_)
  simp only [isPrintable,Bool.not_not,Bool.not_and,← decide_not,UInt8.not_le]

theorem getElem?_eq_getD {b : Bytes} {i : Nat} (h : i < b.length) : b[i]? = some (b.getD i 0) := by
  rw [List.getD_eq_getElem?_getD,List.getElem?_eq_getElem h,Option.getD_some]

/-- The entries of a list, walked within the whole buffer and on their own. -/
theorem walkNames_slice {buf : Bytes} {start stop : Nat} (hstop : stop ≤ buf.length) (n p : Nat)
    (hn : stop - (start + p) ≤ n) : walkNames buf (start + p) stop =
      ofBody ((Relay.walkNames (slice buf start stop) p).map some) := by
  have hlen : (slice buf start stop).length = stop - start := length_slice hstop
  induction n generalizing p with
  | zero =>
    rw [walkNames,Relay.walkNames,if_neg (by omega),if_neg (by omega)]
    rfl
  | succ n ih =>
    rw [walkNames,Relay.walkNames]
    by_cases hp : p + 3 ≤ stop - start
    · have htype : (slice buf start stop).getD p 0 = buf.getD (start + p) 0 := getD_slice (by omega)
      have hnl : u16 (slice buf start stop) (p + 1) = u16 buf (start + (p + 1)) :=
        u16_slice (by omega)
      rw [if_pos (show start + p + 3 ≤ stop by omega),
        if_pos (show p + 3 ≤ (slice buf start stop).length by omega),getElem?_eq_getD (by omega),
        Relay.u16At_of_le (by omega),htype,hnl,← Nat.add_assoc]
      dsimp only
      generalize u16 buf (start + p + 1) = nameLen
      by_cases hover : stop < start + p + 3 + nameLen
      · rw [if_pos hover,slice?_of_lt (by omega)]
        rfl
      · have hname : slice (slice buf start stop) (p + 3) (p + 3 + nameLen) =
            slice buf (start + p + 3) (start + p + 3 + nameLen) := by
          rw [slice_slice (by omega)]
          congr 1
          omega
        rw [if_neg hover,slice?_of_le (by omega) (by omega),hname]
        dsimp only
        by_cases hhost : buf.getD (start + p) 0 = nameTypeHost
        · rw [if_pos hhost,if_pos (show _ = Relay.nameTypeHost from hhost),any_not_printable,
            hostText_eq]
          cases (slice buf (start + p + 3) (start + p + 3 + nameLen)).all isPrintable
          · rfl
          · cases (slice buf (start + p + 3) (start + p + 3 + nameLen)).isEmpty <;> rfl
        · rw [if_neg hhost,if_neg (show ¬_ = Relay.nameTypeHost from hhost),← ih (p + 3 + nameLen) (by omega)]
          congr 1
          omega
    · rw [if_neg (by omega),if_neg (by omega)]
      rfl

theorem parseServerNameExtension_eq {buf : Bytes} {start stop : Nat} (hle : start ≤ stop)
    (hstop : stop ≤ buf.length) : parseServerNameExtension buf start stop =
      ofBody ((Relay.parseServerName (slice buf start stop)).map some) := by
  have hlen : (slice buf start stop).length = stop - start := length_slice hstop
  unfold parseServerNameExtension Relay.parseServerName
  by_cases hshort : stop < start + 2
  · rw [if_pos hshort,Relay.u16At_of_lt (by omega)]
    rfl
  · rw [if_neg hshort,Relay.u16At_of_le (by omega),u16_slice (by omega),Nat.add_zero]
    dsimp only
    generalize u16 buf start = listLen
    by_cases hover : stop < start + 2 + listLen
    · rw [if_pos hover,slice?_of_lt (by omega)]
      rfl
    · rw [if_neg hover,slice?_of_le (by omega) (by omega),slice_slice (by omega),← Nat.add_assoc]
      exact walkNames_slice (by omega) _ 0 (Nat.le_refl _)

theorem walkExtensions_eq {buf : Bytes} {extsEnd : Nat} (hend : extsEnd ≤ buf.length) (n p : Nat)
    (hn : extsEnd - p ≤ n) :
    walkExtensions buf p extsEnd = ofBody (Relay.walkExtensions buf p extsEnd) := by
  induction n generalizing p with
  | zero =>
    rw [walkExtensions,Relay.walkExtensions,if_neg (by omega),if_neg (by omega)]
    rfl
  | succ n ih =>
    rw [walkExtensions,Relay.walkExtensions]
    by_cases hp : p + 4 ≤ extsEnd
    · rw [if_pos hp,if_pos hp,Relay.u16At_of_le (by omega),Relay.u16At_of_le (by omega)]
      dsimp only
      generalize u16 buf (p + 2) = extLen
      by_cases hover : extsEnd < p + 4 + extLen
      · rw [if_pos hover,if_pos hover]
        rfl
      · rw [if_neg hover,if_neg hover,slice?_of_le (by omega) (by omega)]
        by_cases hname : u16 buf p = extServerName
        · rw [if_pos hname,if_pos (show _ = Relay.extServerName from hname)]
          exact parseServerNameExtension_eq (by omega) (by omega)
        · rw [if_neg hname,if_neg (show ¬_ = Relay.extServerName from hname)]
          exact ih _ (by omega)
    · rw [if_neg hp,if_neg hp]
      rfl

/-- The two walks over a hello's body agree, down to the reason they refuse it for. -/
theorem parseClientHelloBody_eq (buf : Bytes) :
    parseClientHelloBody buf = ofBody (Relay.parseBody buf) := by
  unfold parseClientHelloBody Relay.parseBody
  dsimp only
  by_cases hshort : buf.length < 34
  · rw [if_pos hshort,if_pos hshort]
    rfl
  rw [if_neg hshort,if_neg hshort]
  by_cases hsession : buf.length ≤ 34
  · rw [if_pos hsession,List.getElem?_eq_none hsession]
    rfl
  rw [if_neg hsession,getElem?_eq_getD (by omega)]
  dsimp only
  generalize 34 + 1 + (buf.getD 34 0).toNat = p
  by_cases hp : buf.length < p
  · rw [if_pos hp,if_pos hp]
    rfl
  rw [if_neg hp,if_neg hp]
  by_cases hcipher : buf.length < p + 2
  · rw [if_pos hcipher,if_pos hcipher]
    rfl
  rw [if_neg hcipher,if_neg hcipher,Relay.u16At_of_le (by omega)]
  dsimp only
  generalize p + 2 + u16 buf p = q
  by_cases hq : buf.length < q
  · rw [if_pos hq,if_pos hq]
    rfl
  rw [if_neg hq,if_neg hq]
  by_cases hcomp : buf.length < q + 1
  · rw [if_pos hcomp,List.getElem?_eq_none (by omega)]
    rfl
  rw [if_neg hcomp,getElem?_eq_getD (by omega)]
  dsimp only
  generalize q + 1 + (buf.getD q 0).toNat = s
  by_cases hs : buf.length < s
  · rw [if_pos hs,if_pos hs]
    rfl
  rw [if_neg hs,if_neg hs]
  by_cases hnone : s = buf.length
  · rw [if_pos hnone,if_pos hnone]
    rfl
  rw [if_neg hnone,if_neg hnone]
  by_cases hexts : buf.length < s + 2
  · rw [if_pos hexts,if_pos hexts]
    rfl
  rw [if_neg hexts,if_neg hexts,Relay.u16At_of_le (by omega)]
  dsimp only
  by_cases hend : buf.length < s + 2 + u16 buf s
  · rw [if_pos hend,if_pos hend]
    rfl
  rw [if_neg hend,if_neg hend]
  exact walkExtensions_eq (by omega) _ _ (Nat.le_refl _)

open Relay (ClientHelloReader)

/-- The limits as the relay states them. -/
def forRelay (limits : SniLimits) : Relay.SniLimits :=
  ⟨limits.maxRawBytes,limits.maxHelloBytes,limits.maxRecords⟩

/-- What the bytes at a record boundary come to. -/
inductive RecordOutcome
  | more (n : Nat)
  | refused (reason : String)
  | whole (len : Nat)
  deriving DecidableEq

/-- The record at an offset, with so many records before it. -/
def recordAt (buf : Bytes) (maxRecords pos records : Nat) : RecordOutcome :=
  let len := u16 buf (pos + 3)
  if buf.length < pos + 5 then .more (pos + 5)
  else if buf.getD pos 0 ≠ tlsRecordHandshake then .refused "not a TLS handshake record"
  else if len = 0 then
    .refused (if records = 0 then "record too small for handshake header"
      else "empty handshake record")
  else if maxRecordLen < len then .refused "record length exceeds TLS maximum"
  else if buf.length < pos + 5 + len then .more (pos + 5 + len)
  else if maxRecords ≤ records then .refused "ClientHello spans too many records"
  else .whole len

theorem recordAt_whole {buf : Bytes} {maxRecords pos records len : Nat}
    (h : recordAt buf maxRecords pos records = .whole len) :
    len = u16 buf (pos + 3) ∧ 0 < len ∧ pos + 5 + len ≤ buf.length := by
  unfold recordAt at h
  dsimp only at h
  split at h
  · cases h
  split at h
  · cases h
  split at h
  · cases h
  split at h
  · cases h
  split at h
  · cases h
  split at h
  · cases h
  cases h
  omega

theorem recordAt_more {buf : Bytes} {maxRecords pos records n : Nat}
    (h : recordAt buf maxRecords pos records = .more n) :
    buf.length < pos + 5 + u16 buf (pos + 3) := by
  unfold recordAt at h
  dsimp only at h
  split at h
  · omega
  split at h
  · cases h
  split at h
  · cases h
  split at h
  · cases h
  split at h
  · assumption
  split at h <;> cases h

/-- A reading with one more record in it. -/
def takeFragment (r : Reading) (buf : Bytes) (len : Nat) : Reading :=
  { r with
    fragments := r.fragments ++ [slice buf (r.pos + 5) (r.pos + 5 + len)]
    held := r.held + len
    pos := r.pos + 5 + len
    records := r.records + 1 }

/-- What an iteration does at each outcome of the record it starts at. -/
def stepReading (buf : Bytes) (limits : SniLimits) (r : Reading) :
    RecordOutcome → Except SniParseResult Reading
  | .more n => .error (need n limits)
  | .refused reason => .error (.error reason)
  | .whole len => checkHello limits (takeFragment r buf len)

theorem readRecord_eq (buf : Bytes) (limits : SniLimits) (r : Reading) :
    readRecord buf limits r =
      stepReading buf limits r (recordAt buf limits.maxRecords r.pos r.records) := by
  unfold readRecord recordAt
  rw [show tlsRecordHeader = 5 from rfl]
  dsimp only
  by_cases hhdr : buf.length < r.pos + 5
  · rw [if_pos hhdr,if_pos hhdr]
    rfl
  rw [if_neg hhdr,if_neg hhdr]
  by_cases hty : buf.getD r.pos 0 ≠ tlsRecordHandshake
  · rw [if_pos hty,if_pos hty]
    rfl
  rw [if_neg hty,if_neg hty]
  by_cases hzero : u16 buf (r.pos + 3) = 0
  · rw [if_pos hzero,if_pos hzero]
    rfl
  rw [if_neg hzero,if_neg hzero]
  by_cases hmax : maxRecordLen < u16 buf (r.pos + 3)
  · rw [if_pos hmax,if_pos hmax]
    rfl
  rw [if_neg hmax,if_neg hmax]
  by_cases hwhole : buf.length < r.pos + 5 + u16 buf (r.pos + 3)
  · rw [if_pos hwhole,if_pos hwhole]
    rfl
  rw [if_neg hwhole,if_neg hwhole]
  by_cases hrecords : limits.maxRecords ≤ r.records
  · rw [if_pos hrecords,if_pos hrecords]
    rfl
  rw [if_neg hrecords,if_neg hrecords]
  rfl

/-- A reader with one more record in it. -/
def takeRecord (r : ClientHelloReader) (len : Nat) : ClientHelloReader :=
  { r with
    records := r.records + 1
    handshake := r.handshake ++ slice r.raw (r.pos + 5) (r.pos + 5 + len)
    pos := r.pos + 5 + len }

/-- What an iteration of the relay's reader does at each outcome. -/
def stepReader (r : ClientHelloReader) : RecordOutcome → ClientHelloReader × Option Relay.SniStatus
  | .more n => (r,some (.needMore n))
  | .refused reason => (r,some (.reject reason))
  | .whole len => (takeRecord r len,(takeRecord r len).checkHello)

theorem relay_readRecord_eq (r : ClientHelloReader) : r.readRecord =
    stepReader r (recordAt r.raw r.limits.maxRecords r.pos r.records) := by
  unfold ClientHelloReader.readRecord recordAt
  simp only [Relay.tlsRecordHeader]
  by_cases hhdr : r.raw.length < r.pos + 5
  · rw [if_pos hhdr,Relay.u16At_of_lt (by omega)]
    cases r.raw[r.pos]? <;> rfl
  rw [if_neg hhdr,Relay.u16At_of_le (by omega),getElem?_eq_getD (by omega)]
  dsimp only
  by_cases hty : r.raw.getD r.pos 0 ≠ tlsRecordHandshake
  · rw [if_pos hty,if_pos (show _ ≠ Relay.tlsRecordHandshake from hty)]
    rfl
  rw [if_neg hty,if_neg (show ¬_ ≠ Relay.tlsRecordHandshake from hty)]
  generalize u16 r.raw (r.pos + 3) = len
  by_cases hzero : len = 0
  · rw [if_pos hzero,if_pos hzero]
    rfl
  rw [if_neg hzero,if_neg hzero]
  by_cases hmax : maxRecordLen < len
  · rw [if_pos hmax,if_pos (show Relay.maxRecordLen < len from hmax)]
    rfl
  rw [if_neg hmax,if_neg (show ¬Relay.maxRecordLen < len from hmax)]
  by_cases hwhole : r.raw.length < r.pos + 5 + len
  · rw [if_pos hwhole,slice?_of_lt hwhole]
    rfl
  rw [if_neg hwhole,slice?_of_le (by omega) (by omega)]
  dsimp only
  by_cases hrecords : r.limits.maxRecords ≤ r.records
  · rw [if_pos hrecords,if_pos hrecords]
    rfl
  rw [if_neg hrecords,if_neg hrecords]
  rfl

/-- The handshake bytes carried by the first so many records of a buffer, and where
the last of them ends. -/
structure RecordsRead where
  payload : Bytes
  stop : Nat

/-- The first `k` records of a buffer, if it holds as many whole ones. -/
def recordsRead (buf : Bytes) : Nat → Option RecordsRead
  | 0 => some ⟨[],0⟩
  | k + 1 => (recordsRead buf k).bind fun read =>
    let stop := read.stop + 5 + u16 buf (read.stop + 3)
    if stop ≤ buf.length then some ⟨read.payload ++ slice buf (read.stop + 5) stop,stop⟩ else none

/-- The handshake header and as many bytes as it announces. -/
def WholeHello (payload : Bytes) : Prop :=
  4 ≤ payload.length ∧ 4 + u24 payload 1 ≤ payload.length

/-- A hello is announced, and what is missing of it does not fit the raw byte limit
together with the record header it needs. -/
def CannotFitAfter (maxRaw : Nat) (read : RecordsRead) : Prop :=
  4 ≤ read.payload.length ∧ read.payload.length < 4 + u24 read.payload 1 ∧
    maxRaw < read.stop + 5 + (4 + u24 read.payload 1 - read.payload.length)

/-- The records of the buffer announce a hello that cannot fit any more. -/
def CannotFit (maxRaw : Nat) (buf : Bytes) : Prop :=
  ∃ k read,recordsRead buf k = some read ∧ CannotFitAfter maxRaw read

/-- The record that completes the hello ends past the raw byte limit. -/
def EndsPast (maxRaw : Nat) (buf : Bytes) : Prop :=
  ∃ k read,recordsRead buf k = some read ∧ WholeHello read.payload ∧
    (∀ j < k,∀ early,recordsRead buf j = some early → ¬WholeHello early.payload) ∧
    maxRaw < read.stop

theorem recordsRead_succ {buf : Bytes} {k : Nat} {read : RecordsRead}
    (h : recordsRead buf k = some read)
    (hle : read.stop + 5 + u16 buf (read.stop + 3) ≤ buf.length) :
    recordsRead buf (k + 1) = some ⟨read.payload ++
      slice buf (read.stop + 5) (read.stop + 5 + u16 buf (read.stop + 3)),
      read.stop + 5 + u16 buf (read.stop + 3)⟩ := by
  rw [recordsRead,h,Option.bind_some]
  exact if_pos hle

/-- No records are read past one that is not whole. -/
theorem le_of_recordsRead {buf : Bytes} {k : Nat} {read : RecordsRead}
    (h : recordsRead buf k = some read)
    (hmore : buf.length < read.stop + 5 + u16 buf (read.stop + 3)) {j : Nat} {later : RecordsRead}
    (hj : recordsRead buf j = some later) : j ≤ k := by
  have hnone : ∀ i,recordsRead buf (k + 1 + i) = none := by
    intro i
    induction i with
    | zero =>
      rw [Nat.add_zero,recordsRead,h,Option.bind_some]
      exact if_neg (Nat.not_le.mpr hmore)
    | succ i ih => rw [← Nat.add_assoc,recordsRead,ih,Option.bind_none]
  apply Nat.le_of_not_lt
  intro hlt
  obtain ⟨i,rfl⟩ := Nat.exists_eq_add_of_le (Nat.succ_le_of_lt hlt)
  rw [Nat.succ_eq_add_one,hnone i] at hj
  cases hj

/-- With a record more a hello that cannot fit still cannot, unless the record ends
past the limit and completes it. -/
theorem CannotFitAfter.next {maxRaw : Nat} {payload : Bytes} {stop : Nat}
    (h : CannotFitAfter maxRaw ⟨payload,stop⟩) (more : Bytes) :
    CannotFitAfter maxRaw ⟨payload ++ more,stop + 5 + more.length⟩ ∨
      WholeHello (payload ++ more) ∧ maxRaw < stop + 5 + more.length := by
  obtain ⟨hheader,hlt,hpast⟩ := h
  dsimp only at hheader hlt hpast
  have hlen : u24 (payload ++ more) 1 = u24 payload 1 := u24_append_left (by omega)
  by_cases hwhole : 4 + u24 payload 1 ≤ payload.length + more.length
  · right
    rw [WholeHello,hlen,List.length_append]
    omega
  · left
    simp only [CannotFitAfter,hlen,List.length_append]
    omega

theorem joinInto_eq (n : Nat) (parts : List Bytes) (out : Bytes) (h : out.length ≤ n) :
    joinInto n parts out = (out ++ parts.flatten).take n := by
  induction parts generalizing out with
  | nil => simp [joinInto,List.take_of_length_le h]
  | cons p parts ih =>
    rw [joinInto]
    split
    · rename_i hfull
      have hlen : out.length = n := Nat.le_antisymm h hfull
      rw [← hlen,List.take_left']
      rfl
    · rename_i hroom
      rw [ih _ (by simp; omega),List.flatten_cons,← List.append_assoc]
      by_cases hp : p.length ≤ n - out.length
      · rw [List.take_of_length_le hp]
      · have hcut : (out ++ p.take (n - out.length)).length = n := by simp; omega
        rw [List.take_append_of_le_length (by omega),List.take_of_length_le (by omega),
          List.take_append_of_le_length (by simp; omega),List.take_append]
        rw [List.take_of_length_le h]

/-- Enough parts give the first bytes of what they hold together. -/
theorem joinPrefix_eq {parts : List Bytes} {n : Nat} (h : n ≤ parts.flatten.length) :
    joinPrefix parts n = parts.flatten.take n := by
  have hjoin := joinInto_eq n parts [] (Nat.zero_le _)
  rw [List.nil_append] at hjoin
  rw [joinPrefix,hjoin,List.length_take,Nat.min_eq_left h,Nat.sub_self,List.replicate_zero,
    List.append_nil]

/-- The fragments of a reading stand for handshake bytes. -/
structure Holds (maxHello : Nat) (t : Reading) (handshake : Bytes) : Prop where
  flat : t.fragments.flatten = handshake
  filled : ∀ f ∈ t.fragments,f ≠ []
  held : t.held = handshake.length
  helloLen : ∀ n,t.helloLen = some n → 4 ≤ handshake.length ∧ n = u24 handshake 1 ∧ n ≤ maxHello

theorem Holds.first {maxHello : Nat} {t : Reading} {handshake : Bytes}
    (h : Holds maxHello t handshake) : (t.fragments.headD []).getD 0 0 = handshake.getD 0 0 := by
  rw [← h.flat]
  cases hf : t.fragments with
  | nil => rfl
  | cons f fs =>
    have hne := h.filled f (by simp [hf])
    obtain ⟨b,bs,rfl⟩ := List.exists_cons_of_ne_nil hne
    rfl

/-- The message both parsers hand to the walk over its body. -/
theorem Holds.message {maxHello : Nat} {t : Reading} {handshake : Bytes}
    (h : Holds maxHello t handshake) {n : Nat} (hn : 4 + n ≤ handshake.length) :
    slice (if t.fragments.length = 1 then t.fragments.headD []
      else joinPrefix t.fragments (4 + n)) 4 (4 + n) = slice handshake 4 (4 + n) := by
  split
  · rename_i hone
    obtain ⟨f,hf⟩ := List.length_eq_one_iff.mp hone
    rw [← h.flat,hf]
    simp
  · have hlen : 4 + n ≤ t.fragments.flatten.length := by rwa [h.flat]
    rw [joinPrefix_eq hlen,h.flat,slice,slice,List.drop_take,List.take_take,Nat.min_self]

/-- What the two checks behind a record come to together. -/
inductive Checked (limits : SniLimits) (t : Reading) (r : ClientHelloReader) :
    Except SniParseResult Reading → Option Relay.SniStatus → Prop
  | refused (reason : String) : Checked limits t r (.error (.error reason)) (some (.reject reason))
  | whole (sni : Option Text) (hwhole : WholeHello r.handshake) :
    Checked limits t r (.error (.ok sni)) (some (.done ⟨sni,r.records,r.pos⟩))
  | early (reason : String) (hfit : CannotFitAfter limits.maxRawBytes ⟨r.handshake,r.pos⟩) :
    Checked limits t r (.error (.error reason)) none
  | next (t' : Reading) (hholds : Holds limits.maxHelloBytes t' r.handshake) (hpos : t'.pos = t.pos)
    (hrecords : t'.records = t.records) (hwhole : ¬WholeHello r.handshake)
    (hfit : ¬CannotFitAfter limits.maxRawBytes ⟨r.handshake,r.pos⟩) :
    Checked limits t r (.ok t') none

/-- What the walk over its body makes of a whole hello. -/
def bodyStatus (r : ClientHelloReader) : Except String (Option Text) → Relay.SniStatus
  | .ok sni => .done ⟨sni,r.records,r.pos⟩
  | .error reason => .reject reason

section
variable {r : ClientHelloReader}

theorem relay_head (hne : r.handshake ≠ []) :
    (r.handshake.head?.any (· != Relay.tlsHandshakeClientHello) = true) ↔
      r.handshake.getD 0 0 ≠ tlsHandshakeClientHello := by
  obtain ⟨b,bs,hb⟩ := List.exists_cons_of_ne_nil hne
  rw [hb,List.head?_cons,Option.any_some,bne_iff_ne]
  rfl

theorem relay_check_other (hne : r.handshake ≠ [])
    (hmsg : r.handshake.getD 0 0 ≠ tlsHandshakeClientHello) :
    r.checkHello = some (.reject "handshake is not ClientHello") :=
  if_pos ((relay_head hne).mpr hmsg)

variable (hne : r.handshake ≠ []) (hmsg : ¬r.handshake.getD 0 0 ≠ tlsHandshakeClientHello)
include hne hmsg

theorem relay_check_short (hlt : ¬4 ≤ r.handshake.length) : r.checkHello = none := by
  unfold ClientHelloReader.checkHello
  rw [if_neg ((relay_head hne).not.mpr hmsg),Relay.u24At_of_lt (by omega)]

theorem relay_check_big (hheader : 4 ≤ r.handshake.length)
    (hmax : r.limits.maxHelloLen < u24 r.handshake 1) :
    r.checkHello = some (.reject "ClientHello exceeds the size limit") := by
  unfold ClientHelloReader.checkHello
  rw [if_neg ((relay_head hne).not.mpr hmsg),Relay.u24At_of_le (by omega)]
  exact if_pos hmax

theorem relay_check_part (hheader : 4 ≤ r.handshake.length)
    (hmax : ¬r.limits.maxHelloLen < u24 r.handshake 1)
    (hpart : ¬4 + u24 r.handshake 1 ≤ r.handshake.length) : r.checkHello = none := by
  unfold ClientHelloReader.checkHello
  rw [if_neg ((relay_head hne).not.mpr hmsg),Relay.u24At_of_le (by omega)]
  dsimp only
  rw [if_neg hmax,show Relay.handshakeHeader = 4 from rfl,slice?_of_lt (by omega)]

theorem relay_check_whole (hheader : 4 ≤ r.handshake.length)
    (hmax : ¬r.limits.maxHelloLen < u24 r.handshake 1)
    (hwhole : 4 + u24 r.handshake 1 ≤ r.handshake.length) : r.checkHello =
      some (bodyStatus r (Relay.parseBody (slice r.handshake 4 (4 + u24 r.handshake 1)))) := by
  unfold ClientHelloReader.checkHello
  rw [if_neg ((relay_head hne).not.mpr hmsg),Relay.u24At_of_le (by omega)]
  dsimp only
  rw [if_neg hmax,show Relay.handshakeHeader = 4 from rfl,slice?_of_le (by omega) hwhole]
  dsimp only
  cases Relay.parseBody (slice r.handshake 4 (4 + u24 r.handshake 1)) <;> rfl

end

section
variable {limits : SniLimits} {t : Reading} {r : ClientHelloReader}

/-- The end of an iteration that knows how long the hello is. -/
theorem finish_checked (hne : r.handshake ≠ [])
    (hmsg : ¬r.handshake.getD 0 0 ≠ tlsHandshakeClientHello) (hlimits : r.limits = forRelay limits)
    (hholds : Holds limits.maxHelloBytes t r.handshake) (hpos : t.pos = r.pos)
    (hheader : 4 ≤ r.handshake.length) (hmax : ¬limits.maxHelloBytes < u24 r.handshake 1) :
    Checked limits t r (finishRecord limits t (u24 r.handshake 1)) r.checkHello := by
  have hmax' : ¬r.limits.maxHelloLen < u24 r.handshake 1 := by rwa [hlimits]
  unfold finishRecord
  rw [show handshakeHeader = 4 from rfl,show tlsRecordHeader = 5 from rfl,hholds.held]
  by_cases hle : 4 + u24 r.handshake 1 ≤ r.handshake.length
  · rw [if_pos hle,relay_check_whole hne hmsg hheader hmax' hle]
    dsimp only
    rw [hholds.message hle,parseClientHelloBody_eq]
    cases Relay.parseBody (slice r.handshake 4 (4 + u24 r.handshake 1)) with
    | ok sni => exact .whole sni ⟨hheader,hle⟩
    | error reason => exact .refused reason
  · rw [if_neg hle,hpos,relay_check_part hne hmsg hheader hmax' hle]
    by_cases hraw : limits.maxRawBytes < r.pos + 5 + (4 + u24 r.handshake 1 - r.handshake.length)
    · rw [if_pos hraw]
      exact .early _ ⟨hheader,Nat.lt_of_not_le hle,hraw⟩
    · rw [if_neg hraw]
      refine .next _ ⟨hholds.flat,hholds.filled,rfl,?_⟩ hpos.symm rfl (fun h => hle h.2)
        (fun h => hraw h.2.2)
      intro n hn
      cases hn
      exact ⟨hheader,rfl,Nat.le_of_not_lt hmax⟩

/-- The checks of the two parsers, behind the same handshake bytes. -/
theorem checkHello_checked (hne : r.handshake ≠ []) (hlimits : r.limits = forRelay limits)
    (hholds : Holds limits.maxHelloBytes t r.handshake) (hpos : t.pos = r.pos) :
    Checked limits t r (checkHello limits t) r.checkHello := by
  unfold checkHello
  rw [hholds.first]
  by_cases hmsg : r.handshake.getD 0 0 ≠ tlsHandshakeClientHello
  · rw [if_pos hmsg,relay_check_other hne hmsg]
    exact .refused _
  rw [if_neg hmsg,show handshakeHeader = 4 from rfl,hholds.held]
  by_cases hheader : 4 ≤ r.handshake.length
  · cases hlen : t.helloLen with
    | some n =>
      obtain ⟨_,rfl,hmax⟩ := hholds.helloLen n hlen
      exact finish_checked hne hmsg hlimits hholds hpos hheader (Nat.not_lt.mpr hmax)
    | none =>
      have hjoin : u24 (joinPrefix t.fragments 4) 1 = u24 r.handshake 1 := by
        rw [joinPrefix_eq (by rwa [hholds.flat]),hholds.flat]
        exact u24_take (by omega)
      dsimp only
      rw [if_pos hheader,hjoin]
      by_cases hmax : limits.maxHelloBytes < u24 r.handshake 1
      · rw [if_pos hmax,relay_check_big hne hmsg hheader (by rwa [hlimits])]
        exact .refused _
      · rw [if_neg hmax]
        exact finish_checked hne hmsg hlimits hholds hpos hheader hmax
  · rw [relay_check_short hne hmsg hheader]
    cases hlen : t.helloLen with
    | some n => exact absurd (hholds.helloLen n hlen).1 hheader
    | none =>
      dsimp only
      rw [if_neg hheader]
      exact .next _ hholds rfl rfl (fun h => hheader h.1) (fun h => hheader h.1)

end

/-- A check that names a host has the whole hello. -/
theorem relay_check_done {r : ClientHelloReader} {info : Relay.ClientHelloInfo}
    (hne : r.handshake ≠ []) (h : r.checkHello = some (.done info)) :
    WholeHello r.handshake ∧ info.consumed = r.pos := by
  by_cases hmsg : r.handshake.getD 0 0 ≠ tlsHandshakeClientHello
  · rw [relay_check_other hne hmsg] at h
    cases h
  by_cases hheader : 4 ≤ r.handshake.length
  · by_cases hmax : r.limits.maxHelloLen < u24 r.handshake 1
    · rw [relay_check_big hne hmsg hheader hmax] at h
      cases h
    by_cases hwhole : 4 + u24 r.handshake 1 ≤ r.handshake.length
    · rw [relay_check_whole hne hmsg hheader hmax hwhole] at h
      cases hbody : Relay.parseBody (slice r.handshake 4 (4 + u24 r.handshake 1)) with
      | ok sni =>
        rw [hbody] at h
        cases h
        exact ⟨⟨hheader,hwhole⟩,rfl⟩
      | error reason =>
        rw [hbody] at h
        cases h
    · rw [relay_check_part hne hmsg hheader hmax hwhole] at h
      cases h
  · rw [relay_check_short hne hmsg hheader] at h
    cases h

/-- A check that reads on does not have the whole hello yet. -/
theorem relay_check_open {r : ClientHelloReader} (hne : r.handshake ≠ [])
    (h : r.checkHello = none) : ¬WholeHello r.handshake := by
  rintro ⟨hheader,hwhole⟩
  by_cases hmsg : r.handshake.getD 0 0 ≠ tlsHandshakeClientHello
  · rw [relay_check_other hne hmsg] at h
    cases h
  by_cases hmax : r.limits.maxHelloLen < u24 r.handshake 1
  · rw [relay_check_big hne hmsg hheader hmax] at h
    cases h
  · rw [relay_check_whole hne hmsg hheader hmax hwhole] at h
    cases h

end Flagship.Tunnel.Proofs

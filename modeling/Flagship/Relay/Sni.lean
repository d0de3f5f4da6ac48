import Flagship.Lib.Bytes

namespace Flagship.Relay
open Lib

structure SniLimits where
  /-- Raw bytes, record headers included, buffered before the hello must be complete. -/
  maxRawBytes : Nat
  /-- Largest body of a hello accepted, by its own length field. -/
  maxHelloLen : Nat
  /-- Most records a fragmented hello may span. -/
  maxRecords : Nat
  deriving DecidableEq

structure ClientHelloInfo where
  sni : Option Text
  records : Nat
  /-- Raw bytes up to the end of the last record carrying the hello. -/
  consumed : Nat
  deriving DecidableEq

inductive SniStatus
  /-- So many raw bytes, counted from the first, before the next try. -/
  | needMore (n : Nat)
  | reject (reason : String)
  | done (info : ClientHelloInfo)
  deriving DecidableEq

def tlsRecordHandshake : UInt8 := 0x16

def tlsHandshakeClientHello : UInt8 := 0x01

def extServerName : Nat := 0x0000

def nameTypeHost : UInt8 := 0x00

def tlsRecordHeader : Nat := 5

def handshakeHeader : Nat := 4

def maxRecordLen : Nat := 16640

def u16At (b : Lib.Bytes) (i : Nat) : Option Nat :=
  match b[i]?,b[i + 1]? with
  | some hi,some lo => some (hi.toNat * 2 ^ 8 + lo.toNat)
  | _,_ => none

def u24At (b : Lib.Bytes) (i : Nat) : Option Nat :=
  match b[i]?,u16At b (i + 1) with
  | some a,some rest => some (a.toNat * 2 ^ 16 + rest)
  | _,_ => none

def byteToAsciiLowercase (c : UInt8) : UInt8 := if 0x41 ≤ c ∧ c ≤ 0x5a then c + 0x20 else c

/-- The names of a list from `p` on. -/
def walkNames (list : Lib.Bytes) (p : Nat) : Except String Text :=
  if p + 3 ≤ list.length then
    match list[p]? with
    | none => .error "SNI name length exceeds list"
    | some nameType =>
      match u16At list (p + 1) with
      | none => .error "SNI name length exceeds list"
      | some nameLen =>
        match slice? list (p + 3) (p + 3 + nameLen) with
        | none => .error "SNI name length exceeds list"
        | some name =>
          if nameType = nameTypeHost then
            if name.any fun c => !(0x20 ≤ c && c ≤ 0x7e) then
              .error "SNI hostname contains non-printable bytes"
            else if name.isEmpty then .error "SNI hostname is empty"
            else .ok (name.map fun c => Char.ofNat (byteToAsciiLowercase c).toNat)
          else walkNames list (p + 3 + nameLen)
  else .error "SNI extension had no host_name entry"
termination_by list.length - p

def parseServerName (e : Lib.Bytes) : Except String Text :=
  match u16At e 0 with
  | none => .error "SNI extension too short for list length"
  | some listLen =>
    match slice? e 2 (2 + listLen) with
    | none => .error "SNI list length exceeds extension"
    | some list => walkNames list 0

/-- The extensions from `p` on. -/
def walkExtensions (b : Lib.Bytes) (p extsEnd : Nat) : Except String (Option Text) :=
  if p + 4 ≤ extsEnd then
    match u16At b p with
    | none => .error "extension length overruns extensions block"
    | some extType =>
      match u16At b (p + 2) with
      | none => .error "extension length overruns extensions block"
      | some extLen =>
        if extsEnd < p + 4 + extLen then .error "extension length overruns extensions block"
        else if extType = extServerName then
          match slice? b (p + 4) (p + 4 + extLen) with
          | none => .error "SNI extension too short for list length"
          | some ext => (parseServerName ext).map some
        else walkExtensions b (p + 4 + extLen) extsEnd
  else .ok none
termination_by extsEnd - p

/-- The walk over a hello's body. -/
def parseBody (b : Lib.Bytes) : Except String (Option Text) :=
  let stop := b.length
  if stop < 34 then .error "ClientHello too short"
  else
    let p := 34
    match b[p]? with
    | none => .error "truncated at session_id"
    | some sessionLen =>
      let p := p + 1 + sessionLen.toNat
      if stop < p then .error "session_id overruns handshake"
      else if stop < p + 2 then .error "truncated at cipher_suites"
      else
        match u16At b p with
        | none => .error "truncated at cipher_suites"
        | some cipherLen =>
          let p := p + 2 + cipherLen
          if stop < p then .error "cipher_suites overruns handshake"
          else
            match b[p]? with
            | none => .error "truncated at compression_methods"
            | some compLen =>
              let p := p + 1 + compLen.toNat
              if stop < p then .error "compression_methods overruns handshake"
              else if p = stop then .ok none
              else if stop < p + 2 then .error "truncated at extensions length"
              else
                match u16At b p with
                | none => .error "truncated at extensions length"
                | some extsLen =>
                  let extsEnd := p + 2 + extsLen
                  if stop < extsEnd then .error "extensions overrun handshake"
                  else walkExtensions b (p + 2) extsEnd

/-- Bytes are fed as they arrive; `pos` is where the next record header starts. -/
structure ClientHelloReader where
  limits : SniLimits
  raw : Lib.Bytes
  pos : Nat
  handshake : Lib.Bytes
  records : Nat
  status : SniStatus
  deriving DecidableEq

namespace ClientHelloReader

def new (limits : SniLimits) : ClientHelloReader :=
  ⟨limits,[],0,[],0,.needMore tlsRecordHeader⟩

/-- An iteration past its record: the status once the hello is whole or refused,
none to read the next record. -/
def checkHello (r : ClientHelloReader) : Option SniStatus :=
  if r.handshake.head?.any (· != tlsHandshakeClientHello) then
    some (.reject "handshake is not ClientHello")
  else
    match u24At r.handshake 1 with
    | none => none
    | some hsLen =>
      if r.limits.maxHelloLen < hsLen then some (.reject "ClientHello exceeds the size limit")
      else
        match slice? r.handshake handshakeHeader (handshakeHeader + hsLen) with
        | none => none
        | some body =>
          match parseBody body with
          | .ok sni => some (.done ⟨sni,r.records,r.pos⟩)
          | .error reason => some (.reject reason)

/-- One iteration of `advance`: the reader after it, and the status it returns. -/
def readRecord (r : ClientHelloReader) : ClientHelloReader × Option SniStatus :=
  let hdrEnd := r.pos + tlsRecordHeader
  match r.raw[r.pos]?,u16At r.raw (r.pos + 3) with
  | some ty,some recLen =>
    if ty ≠ tlsRecordHandshake then (r,some (.reject "not a TLS handshake record"))
    else if recLen = 0 then
      (r,some (.reject (if r.records = 0 then "record too small for handshake header"
        else "empty handshake record")))
    else if maxRecordLen < recLen then (r,some (.reject "record length exceeds TLS maximum"))
    else
      match slice? r.raw hdrEnd (hdrEnd + recLen) with
      | none => (r,some (.needMore (hdrEnd + recLen)))
      | some fragment =>
        if r.limits.maxRecords ≤ r.records then
          (r,some (.reject "ClientHello spans too many records"))
        else
          let r := { r with
            records := r.records + 1
            handshake := r.handshake ++ fragment
            pos := hdrEnd + recLen }
          (r,r.checkHello)
  | _,_ => (r,some (.needMore hdrEnd))

end ClientHelloReader

/-- What two bytes give, when both are there. -/
theorem u16At_of_le {b : Lib.Bytes} {i : Nat} (h : i + 2 ≤ b.length) :
    u16At b i = some (u16 b i) := by
  have hi : i < b.length := by omega
  have hj : i + 1 < b.length := by omega
  simp only [u16At,u16,List.getElem?_eq_getElem hi,List.getElem?_eq_getElem hj,
    List.getD_eq_getElem?_getD,Option.getD_some]

theorem u16At_of_lt {b : Lib.Bytes} {i : Nat} (h : b.length < i + 2) : u16At b i = none := by
  unfold u16At
  rw [List.getElem?_eq_none (show b.length ≤ i + 1 by omega)]
  cases b[i]? <;> rfl

theorem u24At_of_le {b : Lib.Bytes} {i : Nat} (h : i + 3 ≤ b.length) :
    u24At b i = some (u24 b i) := by
  have hi : i < b.length := by omega
  simp only [u24At,u24,u16At_of_le (show i + 1 + 2 ≤ b.length by omega),
    List.getElem?_eq_getElem hi,List.getD_eq_getElem?_getD,Option.getD_some]

theorem u24At_of_lt {b : Lib.Bytes} {i : Nat} (h : b.length < i + 3) : u24At b i = none := by
  unfold u24At
  rw [u16At_of_lt (show b.length < i + 1 + 2 by omega)]
  cases b[i]? <;> rfl

namespace ClientHelloReader

/-- An iteration that returns no status has moved past a record. -/
theorem readRecord_next {r r' : ClientHelloReader} (h : r.readRecord = (r',none)) :
    r'.raw = r.raw ∧ r.pos < r'.pos ∧ r'.pos ≤ r.raw.length := by
  unfold readRecord at h
  dsimp only at h
  split at h
  · split at h
    · cases h
    split at h
    · cases h
    split at h
    · cases h
    split at h
    · cases h
    split at h
    · cases h
    rename_i hslice _
    have hr' := (Prod.ext_iff.mp h).1
    subst hr'
    unfold slice? at hslice
    split at hslice
    · rename_i hle
      refine ⟨rfl,?_,hle.2⟩
      simp only [tlsRecordHeader]
      omega
    · cases hslice
  · cases h

/-- Records are read until one of them settles the hello. -/
def advance (r : ClientHelloReader) : ClientHelloReader × SniStatus :=
  match _h : r.readRecord with
  | (r',some status) => (r',status)
  | (r',none) => advance r'
termination_by r.raw.length - r.pos
decreasing_by
  have := readRecord_next _h
  rw [this.1]
  omega

/-- The status runs past the raw byte limit. -/
def isOver (r : ClientHelloReader) : Bool :=
  match r.status with
  | .needMore n => decide (r.limits.maxRawBytes < n)
  | .done info => decide (r.limits.maxRawBytes < info.consumed)
  | .reject _ => false

/-- The bytes are tried again only once as many are there as were asked for. -/
def retry (r : ClientHelloReader) : ClientHelloReader :=
  match r.status with
  | .needMore n =>
    if n ≤ r.raw.length then
      let (r,status) := r.advance
      { r with status := status }
    else r
  | _ => r

def push (r : ClientHelloReader) (data : Lib.Bytes) : ClientHelloReader :=
  let r := retry { r with raw := r.raw ++ data }
  if r.isOver then { r with status := .reject "ClientHello exceeds the peek limit" } else r

end ClientHelloReader

/-- `parse_client_hello`: a reader fed a whole buffer in one push. -/
def parseClientHello (buf : Lib.Bytes) (limits : SniLimits) : SniStatus :=
  ((ClientHelloReader.new limits).push buf).status

end Flagship.Relay

import Flagship.Lib.Bytes

namespace Flagship.Tunnel
open Lib

/-- What a parse came to: a hello and its host name if it named one, a buffer to
fill up to so many bytes, or a refusal. -/
inductive SniParseResult
  | ok (sni : Option Text)
  | incomplete (needAtLeast : Nat)
  | error (reason : String)
  deriving DecidableEq

structure SniLimits where
  /-- Raw bytes, record headers included, the whole hello must arrive within. -/
  maxRawBytes : Nat
  /-- Largest body of a hello, by its own length field. -/
  maxHelloBytes : Nat
  /-- Most records a hello may span. -/
  maxRecords : Nat
  deriving DecidableEq

def defaultSniLimits : SniLimits := ⟨32 * 1024,24 * 1024,512⟩

def tlsRecordHandshake : UInt8 := 0x16

def tlsHandshakeClientHello : UInt8 := 0x01

def extServerName : Nat := 0x0000

def nameTypeHost : UInt8 := 0x00

/-- Type, version and length. -/
def tlsRecordHeader : Nat := 5

/-- Message type and length. -/
def handshakeHeader : Nat := 4

def maxRecordLen : Nat := 16640

def need (n : Nat) (limits : SniLimits) : SniParseResult :=
  if limits.maxRawBytes < n then .error "ClientHello exceeds the peek limit" else .incomplete n

/-- The parts one after another, up to `n` bytes in all. -/
def joinInto (n : Nat) : List Bytes → Bytes → Bytes
  | [],out => out
  | p :: parts,out =>
    if n ≤ out.length then out else joinInto n parts (out ++ p.take (n - out.length))

/-- The first `n` bytes of the parts; a byte that none of them holds stays zero. -/
def joinPrefix (parts : List Bytes) (n : Nat) : Bytes :=
  let out := joinInto n parts []
  out ++ List.replicate (n - out.length) 0

def isPrintable (b : UInt8) : Bool := !(b < 0x20 || 0x7e < b)

/-- The text of printable bytes, in lower case. -/
def hostText (name : Bytes) : Text := name.map fun b => (Char.ofNat b.toNat).toLower

/-- The entries of a server name list from `p` on. -/
def walkNames (buf : Bytes) (p listEnd : Nat) : SniParseResult :=
  if p + 3 ≤ listEnd then
    let nameType := buf.getD p 0
    let nameLen := u16 buf (p + 1)
    if listEnd < p + 3 + nameLen then .error "SNI name length exceeds list"
    else if nameType = nameTypeHost then
      let name := slice buf (p + 3) (p + 3 + nameLen)
      if name.all isPrintable then
        if name.isEmpty then .error "SNI hostname is empty" else .ok (some (hostText name))
      else .error "SNI hostname contains non-printable bytes"
    else walkNames buf (p + 3 + nameLen) listEnd
  else .error "SNI extension had no host_name entry"
termination_by listEnd - p

def parseServerNameExtension (buf : Bytes) (start stop : Nat) : SniParseResult :=
  if stop < start + 2 then .error "SNI extension too short for list length"
  else
    let listLen := u16 buf start
    if stop < start + 2 + listLen then .error "SNI list length exceeds extension"
    else walkNames buf (start + 2) (start + 2 + listLen)

/-- The extensions from `p` on. -/
def walkExtensions (buf : Bytes) (p extsEnd : Nat) : SniParseResult :=
  if p + 4 ≤ extsEnd then
    let extType := u16 buf p
    let extLen := u16 buf (p + 2)
    if extsEnd < p + 4 + extLen then .error "extension length overruns extensions block"
    else if extType = extServerName then parseServerNameExtension buf (p + 4) (p + 4 + extLen)
    else walkExtensions buf (p + 4 + extLen) extsEnd
  else .ok none
termination_by extsEnd - p

/-- The body of a hello, past its handshake header. -/
def parseClientHelloBody (buf : Bytes) : SniParseResult :=
  let handshakeEnd := buf.length
  if handshakeEnd < 34 then .error "ClientHello too short"
  else
    let p := 34
    if handshakeEnd ≤ p then .error "truncated at session_id"
    else
      let p := p + 1 + (buf.getD p 0).toNat
      if handshakeEnd < p then .error "session_id overruns handshake"
      else if handshakeEnd < p + 2 then .error "truncated at cipher_suites"
      else
        let p := p + 2 + u16 buf p
        if handshakeEnd < p then .error "cipher_suites overruns handshake"
        else if handshakeEnd < p + 1 then .error "truncated at compression_methods"
        else
          let p := p + 1 + (buf.getD p 0).toNat
          if handshakeEnd < p then .error "compression_methods overruns handshake"
          else if p = handshakeEnd then .ok none
          else if handshakeEnd < p + 2 then .error "truncated at extensions length"
          else
            let extsEnd := p + 2 + u16 buf p
            if handshakeEnd < extsEnd then .error "extensions overrun handshake"
            else walkExtensions buf (p + 2) extsEnd

/-- What the loop over records holds: `helloLen` is not there until the fragments
hold the handshake header. -/
structure Reading where
  fragments : List Bytes
  held : Nat
  pos : Nat
  records : Nat
  helloLen : Option Nat
  deriving DecidableEq

def Reading.start : Reading := ⟨[],0,0,0,none⟩

/-- The end of an iteration, once the length of the hello is known: the hello is
whole, or the rest of it needs one more record header on top of its own bytes. -/
def finishRecord (limits : SniLimits) (r : Reading) (helloLen : Nat) :
    Except SniParseResult Reading :=
  if handshakeHeader + helloLen ≤ r.held then
    let message :=
      if r.fragments.length = 1 then r.fragments.headD []
      else joinPrefix r.fragments (handshakeHeader + helloLen)
    .error (parseClientHelloBody (slice message handshakeHeader (handshakeHeader + helloLen)))
  else if limits.maxRawBytes < r.pos + tlsRecordHeader + (handshakeHeader + helloLen - r.held) then
    .error (.error "ClientHello exceeds the peek limit")
  else .ok { r with helloLen := some helloLen }

/-- An iteration past its record, which is the last of the fragments. -/
def checkHello (limits : SniLimits) (r : Reading) : Except SniParseResult Reading :=
  if (r.fragments.headD []).getD 0 0 ≠ tlsHandshakeClientHello then
    .error (.error "handshake is not ClientHello")
  else
    match r.helloLen with
    | some helloLen => finishRecord limits r helloLen
    | none =>
      if handshakeHeader ≤ r.held then
        let helloLen := u24 (joinPrefix r.fragments handshakeHeader) 1
        if limits.maxHelloBytes < helloLen then .error (.error "ClientHello exceeds the size limit")
        else finishRecord limits r helloLen
      else .ok r

/-- One iteration of the loop: it returns with a result or reads on. -/
def readRecord (buf : Bytes) (limits : SniLimits) (r : Reading) : Except SniParseResult Reading :=
  let recordStart := r.pos + tlsRecordHeader
  if buf.length < recordStart then .error (need recordStart limits)
  else if buf.getD r.pos 0 ≠ tlsRecordHandshake then .error (.error "not a TLS handshake record")
  else
    let recordLen := u16 buf (r.pos + 3)
    if recordLen = 0 then
      .error (.error (if r.records = 0 then "record too small for handshake header"
        else "empty handshake record"))
    else if maxRecordLen < recordLen then .error (.error "record length exceeds TLS maximum")
    else
      let recordEnd := recordStart + recordLen
      if buf.length < recordEnd then .error (need recordEnd limits)
      else if limits.maxRecords ≤ r.records then
        .error (.error "ClientHello spans too many records")
      else
        checkHello limits {
          r with
          fragments := r.fragments ++ [slice buf recordStart recordEnd]
          held := r.held + recordLen
          pos := recordEnd
          records := r.records + 1 }

theorem finishRecord_pos {limits : SniLimits} {r r' : Reading} {n : Nat}
    (h : finishRecord limits r n = .ok r') : r'.pos = r.pos := by
  unfold finishRecord at h
  split at h
  · cases h
  · split at h
    · cases h
    · cases h
      rfl

theorem checkHello_pos {limits : SniLimits} {r r' : Reading} (h : checkHello limits r = .ok r') :
    r'.pos = r.pos := by
  unfold checkHello at h
  split at h
  · cases h
  · split at h
    · exact finishRecord_pos h
    · split at h
      · dsimp only at h
        split at h
        · cases h
        · exact finishRecord_pos h
      · cases h
        rfl

/-- An iteration that reads on has moved past a record of the buffer. -/
theorem readRecord_pos {buf : Bytes} {limits : SniLimits} {r r' : Reading}
    (h : readRecord buf limits r = .ok r') : r.pos < r'.pos ∧ r'.pos ≤ buf.length := by
  unfold readRecord at h
  simp only at h
  split at h
  · cases h
  split at h
  · cases h
  split at h
  · cases h
  split at h
  · cases h
  split at h
  · cases h
  split at h
  · cases h
  have hpos := checkHello_pos h
  simp only [tlsRecordHeader] at *
  omega

/-- The loop from a reading on. -/
def readRecords (buf : Bytes) (limits : SniLimits) (r : Reading) : SniParseResult :=
  match _h : readRecord buf limits r with
  | .error result => result
  | .ok r' => readRecords buf limits r'
termination_by buf.length - r.pos
decreasing_by
  have := readRecord_pos _h
  omega

def parseClientHelloSni (buf : Bytes) (limits : SniLimits) : SniParseResult :=
  readRecords buf limits .start

end Flagship.Tunnel

import Flagship.Protocol.CanonicalV1

namespace Flagship.Protocol
open Lib

/-- A registered suite. -/
inductive SuiteId
  | hybridSealV1
  | hybridSigEd25519MlDsa65V1
  deriving DecidableEq

def SuiteId.id : SuiteId → Nat
  | .hybridSealV1 => 0x0001
  | .hybridSigEd25519MlDsa65V1 => 0x0002

def SuiteId.fromId (id : Nat) : Except ProtocolError SuiteId :=
  if id = 0x0001 then .ok .hybridSealV1
  else if id = 0x0002 then .ok .hybridSigEd25519MlDsa65V1
  else .error .unknownSuite

def envelopeV2Tag : Text := "flagship/envelope/v2".toList

/-- Largest encoded header, magic and length included. -/
def maxHeaderLen : Nat := 1024

/-- Largest body an envelope may declare. -/
def maxBodyLen : Nat := 1048576 + 4096
def keyIdLen : Nat := 32
def installationIdLen : Nat := 16
def sessionNonceLen : Nat := 32
def policyDigestLen : Nat := 64

def tPurpose : UInt8 := 0x01
def tSuite : UInt8 := 0x02
def tSender : UInt8 := 0x03
def tRecipient : UInt8 := 0x04
def tInstallation : UInt8 := 0x05
def tGeneration : UInt8 := 0x06
def tSession : UInt8 := 0x07
def tPolicy : UInt8 := 0x08
def tIssued : UInt8 := 0x09
def tExpires : UInt8 := 0x0a
def tBodyLen : UInt8 := 0x0b

/-- What an envelope declares before its body. -/
structure EnvelopeHeader where
  purpose : Text
  suite : SuiteId
  senderKeyId : BytesN keyIdLen
  recipientKeyId : Option (BytesN keyIdLen)
  installationId : Option (BytesN installationIdLen)
  authorityGeneration : Option UInt64
  sessionNonce : Option (BytesN sessionNonceLen)
  policyDigest : Option (BytesN policyDigestLen)
  issuedAt : UInt64
  expiresAt : Option UInt64
  bodyLen : UInt32
  deriving DecidableEq

/-- Checks shared by encode and decode. -/
def EnvelopeHeader.validate (h : EnvelopeHeader) : Except ProtocolError Unit :=
  if h.purpose.isEmpty ∨ maxPurposeLen < (utf8Bytes h.purpose).length then .error .headerFieldLength
  else if validatePurposeTag h.purpose .flagship ≠ .ok () then .error .headerBadValue
  else if ([some h.issuedAt,h.expiresAt,h.authorityGeneration].filterMap id).any
    (fun v => decide (maxSafeInteger < v.toNat)) then .error .headerBadValue
  else if h.expiresAt.any (fun exp => decide (exp ≤ h.issuedAt)) then .error .headerBadValue
  else if maxBodyLen < h.bodyLen.toNat then .error .headerBadValue
  else if h.suite = .hybridSealV1 ∧ h.recipientKeyId.isNone then .error .headerMissingField
  else .ok ()

def magic : Bytes :=
  UInt8.ofNat (utf8Bytes envelopeV2Tag).length :: utf8Bytes envelopeV2Tag

/-- A type, a two-byte length and a value behind what is there. -/
def put (out : Bytes) (ty : UInt8) (value : Bytes) : Except ProtocolError Bytes :=
  if 2 ^ 16 ≤ value.length then .error .headerTooLarge
  else .ok (out ++ ty :: beBytes 2 value.length ++ value)

/-- An optional field is absent, never empty. -/
def putSome (out : Bytes) (ty : UInt8) : Option Bytes → Except ProtocolError Bytes
  | none => .ok out
  | some value => put out ty value

/-- The canonical encoding. -/
def EnvelopeHeader.encode (h : EnvelopeHeader) : Except ProtocolError Bytes := do
  h.validate
  let tlv ← put [] tPurpose (utf8Bytes h.purpose)
  let tlv ← put tlv tSuite (beBytes 2 h.suite.id)
  let tlv ← put tlv tSender h.senderKeyId.1
  let tlv ← putSome tlv tRecipient (h.recipientKeyId.map (·.1))
  let tlv ← putSome tlv tInstallation (h.installationId.map (·.1))
  let tlv ← putSome tlv tGeneration (h.authorityGeneration.map (fun v => beBytes 8 v.toNat))
  let tlv ← putSome tlv tSession (h.sessionNonce.map (·.1))
  let tlv ← putSome tlv tPolicy (h.policyDigest.map (·.1))
  let tlv ← put tlv tIssued (beBytes 8 h.issuedAt.toNat)
  let tlv ← putSome tlv tExpires (h.expiresAt.map (fun v => beBytes 8 v.toNat))
  let tlv ← put tlv tBodyLen (beBytes 4 h.bodyLen.toNat)
  if 2 ^ 16 ≤ tlv.length then .error .headerTooLarge
  else
    let out := magic ++ beBytes 2 tlv.length ++ tlv
    if maxHeaderLen < out.length then .error .headerTooLarge else .ok out

/-- The first bytes of a reader's rest, and what is left. -/
def take (n : Nat) (rest : Bytes) : Except ProtocolError (Bytes × Bytes) :=
  if n ≤ rest.length then .ok (rest.take n,rest.drop n) else .error .headerTruncated

def fixed (n : Nat) (v : Bytes) : Except ProtocolError (BytesN n) :=
  match bytesN? n v with
  | some v => .ok v
  | none => .error .headerFieldLength

/-- The fields met so far. -/
structure Builder where
  purpose : Option Text := none
  suite : Option SuiteId := none
  sender : Option (BytesN keyIdLen) := none
  recipient : Option (BytesN keyIdLen) := none
  installation : Option (BytesN installationIdLen) := none
  generation : Option UInt64 := none
  session : Option (BytesN sessionNonceLen) := none
  policy : Option (BytesN policyDigestLen) := none
  issued : Option UInt64 := none
  expires : Option UInt64 := none
  bodyLen : Option UInt32 := none

def readPurpose (v : Bytes) : Except ProtocolError Text :=
  if v.isEmpty ∨ maxPurposeLen < v.length then .error .headerFieldLength
  else
    match utf8Text v with
    | none => .error .headerBadValue
    | some s => .ok s

def readSuite (v : Bytes) : Except ProtocolError SuiteId :=
  match fixed 2 v with
  | .error e => .error e
  | .ok id => (SuiteId.fromId (ofBe id.1)).mapError fun _ => .headerBadValue

/-- `u64::from_be_bytes`. -/
def readU64 (v : Bytes) : Except ProtocolError UInt64 :=
  (fixed 8 v).map fun v => UInt64.ofNat (ofBe v.1)

def readU32 (v : Bytes) : Except ProtocolError UInt32 :=
  (fixed 4 v).map fun v => UInt32.ofNat (ofBe v.1)

def Builder.set (b : Builder) (ty : UInt8) (v : Bytes) : Except ProtocolError Builder :=
  if ty = tPurpose then (readPurpose v).map fun x => { b with purpose := some x }
  else if ty = tSuite then (readSuite v).map fun x => { b with suite := some x }
  else if ty = tSender then (fixed keyIdLen v).map fun x => { b with sender := some x }
  else if ty = tRecipient then (fixed keyIdLen v).map fun x => { b with recipient := some x }
  else if ty = tInstallation then
    (fixed installationIdLen v).map fun x => { b with installation := some x }
  else if ty = tGeneration then (readU64 v).map fun x => { b with generation := some x }
  else if ty = tSession then (fixed sessionNonceLen v).map fun x => { b with session := some x }
  else if ty = tPolicy then (fixed policyDigestLen v).map fun x => { b with policy := some x }
  else if ty = tIssued then (readU64 v).map fun x => { b with issued := some x }
  else if ty = tExpires then (readU64 v).map fun x => { b with expires := some x }
  else if ty = tBodyLen then (readU32 v).map fun x => { b with bodyLen := some x }
  else .error .headerUnknownField

/-- A field that must be there. -/
def required {α : Type} : Option α → Except ProtocolError α
  | none => .error .headerMissingField
  | some x => .ok x

def Builder.finish (b : Builder) : Except ProtocolError EnvelopeHeader := do
  let purpose ← required b.purpose
  let suite ← required b.suite
  let sender ← required b.sender
  let issued ← required b.issued
  let bodyLen ← required b.bodyLen
  return {
    purpose := purpose
    suite := suite
    senderKeyId := sender
    recipientKeyId := b.recipient
    installationId := b.installation
    authorityGeneration := b.generation
    sessionNonce := b.session
    policyDigest := b.policy
    issuedAt := issued
    expiresAt := b.expires
    bodyLen := bodyLen }

/-- One field off the front: its type, its value and the rest. -/
def readField (t : Bytes) : Except ProtocolError (UInt8 × Bytes × Bytes) :=
  match t with
  | [] => .error .headerTruncated
  | ty :: t =>
    match take 2 t with
    | .error e => .error e
    | .ok (len,t) =>
      match take (ofBe len) t with
      | .error e => .error e
      | .ok (value,t) => .ok (ty,value,t)

theorem length_of_readField {t value t' : Bytes} {ty : UInt8} (h : readField t = .ok (ty,value,t')) :
    t'.length < t.length := by
  unfold readField at h
  split at h
  · cases h
  · split at h
    · cases h
    · rename_i htake
      split at h
      · cases h
      · rename_i htake'
        cases h
        simp only [take] at htake htake'
        split at htake
        · cases htake
          split at htake'
          · cases htake'
            simp only [List.drop_drop,List.length_drop,List.length_cons]
            omega
          · cases htake'
        · cases htake

/-- A field's type is known, and after the one before it. -/
def checkType (ty prev : UInt8) : Except ProtocolError Unit :=
  if ¬ (tPurpose ≤ ty ∧ ty ≤ tBodyLen) then .error .headerUnknownField
  else if ty = prev then .error .headerDuplicateField
  else if ty < prev then .error .headerFieldOrder
  else .ok ()

/-- The loop of `decode_prefix` over the fields. -/
def readFields (b : Builder) (prev : UInt8) (t : Bytes) : Except ProtocolError Builder :=
  if t.isEmpty then .ok b
  else
    match _h : readField t with
    | .error e => .error e
    | .ok (ty,value,t') =>
      match checkType ty prev with
      | .error e => .error e
      | .ok _ =>
        match b.set ty value with
        | .error e => .error e
        | .ok b => readFields b ty t'
termination_by t.length
decreasing_by exact length_of_readField _h

/-- The header at the start of some bytes, and its encoded length. -/
def EnvelopeHeader.decodePrefix (bytes : Bytes) : Except ProtocolError (EnvelopeHeader × Nat) := do
  let (head,r) ← take magic.length bytes
  if head ≠ magic then .error .headerBadMagic
  else
    let (len,r) ← take 2 r
    let total := magic.length + 2 + ofBe len
    if maxHeaderLen < total then .error .headerTooLarge
    else
      let (t,_) ← take (ofBe len) r
      let b ← readFields {} 0 t
      let header ← b.finish
      header.validate
      let again ← header.encode
      if (if total ≤ bytes.length then some (bytes.take total) else none) ≠ some again then
        .error .headerBadValue
      else .ok (header,total)

/-- A header, its bytes and a body of the declared length. -/
def EnvelopeHeader.decodeEnvelope (bytes : Bytes) :
    Except ProtocolError (EnvelopeHeader × Bytes × Bytes) := do
  let (header,used) ← decodePrefix bytes
  if bytes.length < used then .error .headerTruncated
  else if (bytes.drop used).length ≠ header.bodyLen.toNat then .error .bodyLength
  else .ok (header,bytes.take used,bytes.drop used)

end Flagship.Protocol

import Flagship.Lib.Bytes

namespace Flagship.Tunnel
open Lib

def frameHello : Nat := 0x10
def frameHelloAck : Nat := 0x11
def frameDomainGranted : Nat := 0x12
def frameRequestTransfer : Nat := 0x13
def frameOpen : Nat := 0x01
def frameData : Nat := 0x02
def frameClose : Nat := 0x03
def frameCloseRemote : Nat := 0x04
def frameDrainNotice : Nat := 0x05
def frameAttachment : Nat := 0x07
def frameMoveHint : Nat := 0x08
def framePbPut : Nat := 0x20
def framePbPutAck : Nat := 0x21
def framePbGet : Nat := 0x22
def framePbGetData : Nat := 0x23
def framePbGetEnd : Nat := 0x24
def framePbChallenge : Nat := 0x30
def framePbResponse : Nat := 0x31
def frameOutboundOpen : Nat := 0x40
def frameOutboundResult : Nat := 0x41
def frameOutboundCredit : Nat := 0x42
def framePbMailReq : Nat := 0x50
def framePbMailResp : Nat := 0x51
def framePbMailboxAnnounce : Nat := 0x52

/-- Numbers are JavaScript's, whole ones here. -/
structure Frame where
  streamId : Int
  type : Nat
  payload : Bytes
  deriving DecidableEq

def frameHeaderBytes : Nat := 9

def maxFramePayload : Nat := 1 <<< 20

/-- Types beyond v1 a decoder accepts because the capability was negotiated. -/
structure DecodeOptions where
  drainNotice : Option Bool
  mesh : Option Bool
  deriving DecidableEq

/-- `v << k`: the low 32 bits, as a signed number. -/
def shl (v : Int) (k : Nat) : Int := (BitVec.ofInt 32 v <<< k).toInt

/-- `v >>> k`: the low 32 bits of `v`, shifted as an unsigned number. -/
def ushr (v : Int) (k : Nat) : Int := (BitVec.ofInt 32 v >>> k).toNat

/-- `v & 0xff`. -/
def lowByte (v : Int) : Int := (BitVec.ofInt 32 v &&& 0xff).toInt

/-- What an element of a byte array holds of a number. -/
def toUint8 (v : Int) : UInt8 := UInt8.ofNat (v % 256).toNat

/-- The four bytes `writeU32BE` stores. -/
def writeU32BE (v : Int) : Except String Bytes :=
  if v < 0 ∨ 0xffffffff < v then .error "u32 out of range"
  else .ok [toUint8 (lowByte (ushr v 24)),toUint8 (lowByte (ushr v 16)),
    toUint8 (lowByte (ushr v 8)),toUint8 (lowByte v)]

/-- The byte at an offset, as a number. -/
def byteAt (buf : Bytes) (i : Nat) : Int := (buf.getD i 0).toNat

def readU32BE (buf : Bytes) (offset : Nat) : Int :=
  ushr (shl (byteAt buf offset) 24) 0 + shl (byteAt buf (offset + 1)) 16 +
    shl (byteAt buf (offset + 2)) 8 + byteAt buf (offset + 3)

def encodeFrame (frame : Frame) : Except String Bytes := do
  let len := frame.payload.length
  if maxFramePayload < len then
    throw ("frame payload exceeds " ++ toString maxFramePayload ++ " bytes")
  let id ← writeU32BE frame.streamId
  let size ← writeU32BE len
  return id ++ [toUint8 frame.type] ++ size ++ frame.payload

inductive DecodeResult
  | ok (frame : Frame) (consumed : Int)
  | incomplete (needAtLeast : Int)
  | error (reason : String)
  deriving DecidableEq

def isFrameType (t : Nat) : Bool :=
  t == frameHello || t == frameHelloAck || t == frameDomainGranted || t == frameRequestTransfer ||
    t == frameOpen || t == frameData || t == frameClose || t == frameCloseRemote ||
    t == framePbPut || t == framePbPutAck || t == framePbGet || t == framePbGetData ||
    t == framePbGetEnd || t == framePbChallenge || t == framePbResponse || t == frameOutboundOpen ||
    t == frameOutboundResult || t == frameOutboundCredit || t == framePbMailReq ||
    t == framePbMailResp || t == framePbMailboxAnnounce

/-- One frame from the front of a buffer. -/
def decodeFrame (buf : Bytes) (opts : DecodeOptions) : DecodeResult :=
  if buf.length < frameHeaderBytes then .incomplete frameHeaderBytes
  else
    let streamId := readU32BE buf 0
    let type := (buf.getD 4 0).toNat
    if !isFrameType type && !(opts.drainNotice == some true && type == frameDrainNotice) &&
        !(opts.mesh == some true && (type == frameAttachment || type == frameMoveHint)) then
      .error ("unknown frame type 0x" ++ String.ofList (Nat.toDigits 16 type))
    else
      let payloadLen := readU32BE buf 5
      if (maxFramePayload : Int) < payloadLen then
        .error ("payload length " ++ toString payloadLen ++ " exceeds max " ++
          toString maxFramePayload)
      else
        let total := (frameHeaderBytes : Int) + payloadLen
        if (buf.length : Int) < total then .incomplete total
        else .ok ⟨streamId,type,slice buf frameHeaderBytes total.toNat⟩ total

end Flagship.Tunnel

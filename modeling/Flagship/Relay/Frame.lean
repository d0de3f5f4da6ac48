import Flagship.Lib.Bytes
import Flagship.Lib.While

namespace Flagship.Relay
open Lib (Bytes slice? beBytes ofBe)

def frameOpen : UInt8 := 0x01
def frameData : UInt8 := 0x02
def frameClose : UInt8 := 0x03
def frameCloseRemote : UInt8 := 0x04
/-- Not a v1 type: only sent to a peer that negotiated `drain-v1`. -/
def frameDrainNotice : UInt8 := 0x05
def frameStreamCredit : UInt8 := 0x06
def frameAttachment : UInt8 := 0x07
def frameMoveHint : UInt8 := 0x08
def frameHello : UInt8 := 0x10
def frameHelloAck : UInt8 := 0x11
def frameDomainGranted : UInt8 := 0x12
def frameRequestTransfer : UInt8 := 0x13
def framePbPut : UInt8 := 0x20
def framePbPutAck : UInt8 := 0x21
def framePbGet : UInt8 := 0x22
def framePbGetData : UInt8 := 0x23
def framePbGetEnd : UInt8 := 0x24
def framePbChallenge : UInt8 := 0x30
def framePbResponse : UInt8 := 0x31
def frameOutboundOpen : UInt8 := 0x40
def frameOutboundResult : UInt8 := 0x41
def frameOutboundCredit : UInt8 := 0x42
def framePbMailReq : UInt8 := 0x50
def framePbMailResp : UInt8 := 0x51
def framePbMailboxAnnounce : UInt8 := 0x52

def frameHeaderBytes : Nat := 9

def maxFramePayload : Nat := 1 <<< 20

/-- The types a v1 decoder accepts. -/
def v1Types : List UInt8 :=
  [frameHello,frameHelloAck,frameDomainGranted,frameRequestTransfer,frameOpen,frameData,frameClose,
    frameCloseRemote,framePbPut,framePbPutAck,framePbGet,framePbGetData,framePbGetEnd,
    framePbChallenge,framePbResponse,frameOutboundOpen,frameOutboundResult,frameOutboundCredit,
    framePbMailReq,framePbMailResp,framePbMailboxAnnounce]

def isV1FrameType (t : UInt8) : Bool := v1Types.contains t

/-- Which types a decoder accepts beyond v1. -/
structure TypeSet where
  drainNotice : Bool
  streamCredit : Bool
  mesh : Bool
  deriving DecidableEq

def TypeSet.accepts (s : TypeSet) (t : UInt8) : Bool :=
  isV1FrameType t || (s.drainNotice && t == frameDrainNotice) ||
    (s.streamCredit && t == frameStreamCredit) ||
    (s.mesh && (t == frameAttachment || t == frameMoveHint))

structure Frame where
  streamId : UInt32
  frameType : UInt8
  payload : Bytes
  deriving DecidableEq

inductive EncodeError
  | payloadTooLarge (len : Nat)
  deriving DecidableEq

def EncodeError.text : EncodeError → String
  | .payloadTooLarge _ => "frame payload exceeds " ++ toString maxFramePayload ++ " bytes"

/-- The frame behind what is there already. -/
def encodeFrameInto (streamId : UInt32) (frameType : UInt8) (payload out : Bytes) :
    Except EncodeError Bytes :=
  let len := payload.length
  if maxFramePayload < len then .error (.payloadTooLarge len)
  else if 2 ^ 32 ≤ len then .error (.payloadTooLarge len)
  else .ok (out ++ beBytes 4 streamId.toNat ++ [frameType] ++ beBytes 4 len ++ payload)

def encodeFrame (frame : Frame) : Except EncodeError Bytes :=
  encodeFrameInto frame.streamId frame.frameType frame.payload []

inductive Decoded
  | ok (streamId : UInt32) (frameType : UInt8) (payload : Bytes) (consumed : Nat)
  | incomplete (needAtLeast : Nat)
  | error (reason : String)
  deriving DecidableEq

def be32 (b : Bytes) (i : Nat) : Option UInt32 :=
  (slice? b i (i + 4)).map fun s => UInt32.ofNat (ofBe s)

/-- One frame from the front of a buffer. -/
def decodeFrameWith (buf : Bytes) (types : TypeSet) : Decoded :=
  match be32 buf 0,buf[4]?,be32 buf 5 with
  | some streamId,some frameType,some len =>
    if types.accepts frameType = false then
      .error ("unknown frame type 0x" ++ String.ofList (Nat.toDigits 16 frameType.toNat))
    else
      let len := len.toNat
      if maxFramePayload < len then
        .error ("payload length " ++ toString len ++ " exceeds max " ++ toString maxFramePayload)
      else
        let total := frameHeaderBytes + len
        match slice? buf frameHeaderBytes total with
        | some payload => .ok streamId frameType payload total
        | none => .incomplete total
  | _,_,_ => .incomplete frameHeaderBytes

/-- A decoder over carrier bytes: what was read of its buffer stays there until a push
drops it. -/
structure FrameDecoder where
  buf : Bytes
  start : Nat
  types : TypeSet
  maxChunk : Nat
  deriving DecidableEq

namespace FrameDecoder

def new (types : TypeSet) (maxChunk : Nat) : FrameDecoder := ⟨[],0,types,maxChunk⟩

def buffered (d : FrameDecoder) : Nat := d.buf.length - d.start

/-- Append carrier bytes; the buffer is in memory, so no count of its bytes saturates. -/
def push (d : FrameDecoder) (chunk : Bytes) : Except String FrameDecoder :=
  if d.maxChunk < chunk.length then .error "carrier chunk too large"
  else
    let limit := frameHeaderBytes + maxFramePayload + d.maxChunk
    if limit < d.buffered + chunk.length then .error "decoder buffer limit exceeded"
    else
      let d := if 0 < d.start ∧ d.buf.length / 2 ≤ d.start then
          { d with buf := d.buf.drop d.start, start := 0 }
        else d
      .ok { d with buf := d.buf ++ chunk }

/-- The next complete frame, if one is there. -/
def nextFrame (d : FrameDecoder) : Except String (FrameDecoder × Option Frame) :=
  match decodeFrameWith (d.buf.drop d.start) d.types with
  | .ok streamId frameType payload consumed =>
    let start := d.start + consumed
    .ok (if start = d.buf.length then { d with buf := [], start := 0 } else { d with start := start },
      some ⟨streamId,frameType,payload⟩)
  | .incomplete _ => .ok (d,none)
  | .error reason => .error reason

end FrameDecoder

theorem consumed_of_decoded {buf : Bytes} {types : TypeSet} {streamId : UInt32} {frameType : UInt8}
    {payload : Bytes} {consumed : Nat}
    (h : decodeFrameWith buf types = .ok streamId frameType payload consumed) :
    0 < consumed ∧ consumed ≤ buf.length := by
  unfold decodeFrameWith at h
  split at h
  · split at h
    · cases h
    dsimp only at h
    split at h
    · cases h
    split at h
    · rename_i hslice
      cases h
      unfold slice? at hslice
      split at hslice
      · rename_i hle
        exact ⟨Nat.add_pos_left (by decide) _,hle.2⟩
      · cases hslice
    · cases h
  · cases h

namespace FrameDecoder

/-- A frame taken leaves fewer bytes behind. -/
theorem buffered_of_frame {d d' : FrameDecoder} {frame : Frame}
    (h : d.nextFrame = .ok (d',some frame)) : d'.buffered < d.buffered := by
  unfold nextFrame at h
  split at h
  · rename_i hdec
    have hconsumed := consumed_of_decoded hdec
    rw [List.length_drop] at hconsumed
    simp only [Except.ok.injEq,Prod.mk.injEq] at h
    obtain ⟨rfl,_⟩ := h
    unfold buffered
    split
    · simp only [List.length_nil]
      omega
    · dsimp only
      omega
  · cases h
  · cases h

/-- Taking frames until no complete one is left, as every reader of the decoder does
after a push. -/
def draining : Lib.While (FrameDecoder × List Frame) String (FrameDecoder × List Frame) where
  step s := do
    let (d,frame?) ← s.1.nextFrame
    match frame? with
    | some frame => return .inr (d,s.2 ++ [frame])
    | none => return .inl (d,s.2)
  size s := s.1.buffered
  smaller := by
    intro s s' h
    obtain ⟨⟨d,frame?⟩,hnext,h⟩ := Lib.bind_ok h
    cases frame? with
    | none => cases h
    | some frame =>
      cases h
      exact buffered_of_frame hnext

def drain (d : FrameDecoder) : Except String (FrameDecoder × List Frame) := draining.run (d,[])

/-- A push, and the frames that are complete after it. -/
def feed (s : FrameDecoder × List Frame) (chunk : Bytes) :
    Except String (FrameDecoder × List Frame) := do
  let d ← s.1.push chunk
  let (d,frames) ← d.drain
  return (d,s.2 ++ frames)

end FrameDecoder
end Flagship.Relay

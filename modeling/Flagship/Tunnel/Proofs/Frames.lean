import Flagship.Relay.Frame
import Flagship.Tunnel.Frames

namespace Flagship.Tunnel.Proofs
open Lib

theorem ofInt_toNat {v : Nat} (h : v < 2 ^ 32) : (BitVec.ofInt 32 v).toNat = v := by
  rw [BitVec.ofInt_natCast,BitVec.toNat_ofNat,Nat.mod_eq_of_lt h]

/-- A shift that stays below the sign bit. -/
theorem shl_small {v k : Nat} (h : v * 2 ^ k < 2 ^ 31) : shl v k = (v * 2 ^ k : Nat) := by
  have hv : v < 2 ^ 32 := by
    have := Nat.le_mul_of_pos_right v (Nat.two_pow_pos k)
    omega
  have hnat : (BitVec.ofInt 32 v <<< k).toNat = v * 2 ^ k := by
    rw [BitVec.toNat_shiftLeft,ofInt_toNat hv,Nat.shiftLeft_eq,Nat.mod_eq_of_lt (by omega)]
  rw [shl,BitVec.toInt_eq_toNat_of_lt (by omega),hnat]

/-- A byte shifted into the sign bit is brought back by the unsigned shift. -/
theorem ushr_shl {v : Nat} (h : v < 256) : ushr (shl v 24) 0 = (v * 2 ^ 24 : Nat) := by
  rw [ushr,shl,BitVec.ofInt_toInt,BitVec.ushiftRight_zero,BitVec.toNat_shiftLeft,
    ofInt_toNat (by omega),Nat.shiftLeft_eq,Nat.mod_eq_of_lt (by omega)]

theorem readU32BE_eq {buf : Bytes} {i : Nat} (h : i + 4 ≤ buf.length) :
    readU32BE buf i = (ofBe (slice buf i (i + 4)) : Nat) := by
  have hslice : slice buf i (i + 4) =
      [buf.getD i 0,buf.getD (i + 1) 0,buf.getD (i + 2) 0,buf.getD (i + 3) 0] := by
    have hfour : ∀ l : Bytes,l.length = 4 →
        l = [l.getD 0 0,l.getD 1 0,l.getD 2 0,l.getD 3 0]
      | [_,_,_,_],_ => rfl
    rw [hfour (slice buf i (i + 4)) (by rw [length_slice h]; omega),getD_slice (by omega),getD_slice (by omega),
      getD_slice (by omega),getD_slice (by omega)]
    rfl
  have h0 := (buf.getD i 0).toNat_lt
  have h1 := (buf.getD (i + 1) 0).toNat_lt
  have h2 := (buf.getD (i + 2) 0).toNat_lt
  rw [hslice]
  unfold readU32BE byteAt
  rw [ushr_shl (by omega),shl_small (by omega),shl_small (by omega)]
  simp only [ofBe,List.foldl_cons,List.foldl_nil]
  omega

theorem ushr_eq {v k : Nat} (h : v < 2 ^ 32) : ushr v k = (v / 2 ^ k : Nat) := by
  rw [ushr,BitVec.toNat_ushiftRight,ofInt_toNat h,Nat.shiftRight_eq_div_pow]

theorem lowByte_eq {v : Nat} (h : v < 2 ^ 32) : lowByte v = (v % 256 : Nat) := by
  have hnat : (BitVec.ofInt 32 v &&& 0xff).toNat = v % 256 := by
    rw [BitVec.toNat_and,ofInt_toNat h]
    exact Nat.and_two_pow_sub_one_eq_mod v 8
  rw [lowByte,BitVec.toInt_eq_toNat_of_lt (by omega),hnat]

theorem toUint8_mod (v : Nat) : toUint8 (v % 256 : Nat) = UInt8.ofNat v := by
  apply UInt8.toNat_inj.mp
  simp only [toUint8,UInt8.toNat_ofNat']
  omega

theorem writeU32BE_eq {v : Nat} (h : v < 2 ^ 32) : writeU32BE v = .ok (beBytes 4 v) := by
  unfold writeU32BE
  rw [if_neg (by omega),ushr_eq h,ushr_eq h,ushr_eq h,lowByte_eq (by omega),lowByte_eq (by omega),
    lowByte_eq (by omega),lowByte_eq h,toUint8_mod,toUint8_mod,toUint8_mod,toUint8_mod]
  simp [beBytes]

/-- The type set of a decoder with the same capabilities, and no credit frames. -/
def typesFor (opts : DecodeOptions) : Relay.TypeSet :=
  ⟨opts.drainNotice == some true,false,opts.mesh == some true⟩

theorem isFrameType_eq (t : UInt8) : isFrameType t.toNat = Relay.isV1FrameType t := by
  rw [Bool.eq_iff_iff]
  simp only [isFrameType,Relay.isV1FrameType,Relay.v1Types,List.contains_iff_mem,List.mem_cons,
    Bool.or_eq_true,beq_iff_eq,← UInt8.toNat_inj,List.not_mem_nil,or_false,or_assoc]
  rfl

theorem accepts_eq (opts : DecodeOptions) (t : UInt8) : (typesFor opts).accepts t =
    (isFrameType t.toNat || (opts.drainNotice == some true && t.toNat == frameDrainNotice) ||
      (opts.mesh == some true && (t.toNat == frameAttachment || t.toNat == frameMoveHint))) := by
  have hbeq : ∀ code : UInt8,(t == code) = (t.toNat == code.toNat) := by
    intro code
    rw [Bool.eq_iff_iff,beq_iff_eq,beq_iff_eq,UInt8.toNat_inj]
  rw [Relay.TypeSet.accepts,isFrameType_eq,hbeq,hbeq,hbeq,hbeq]
  simp only [typesFor,Bool.false_and,Bool.or_false]
  rfl

/-- The relay's result as the other port gives it. -/
def ofDecoded : Relay.Decoded → DecodeResult
  | .ok streamId frameType payload consumed => .ok ⟨streamId.toNat,frameType.toNat,payload⟩ consumed
  | .incomplete n => .incomplete n
  | .error reason => .error reason

theorem be32_eq {buf : Bytes} {i : Nat} (h : i + 4 ≤ buf.length) :
    Relay.be32 buf i = some (UInt32.ofNat (ofBe (slice buf i (i + 4)))) := by
  rw [Relay.be32,slice?_of_le (by omega) h,Option.map_some]

theorem ofBe_lt (bs : Bytes) : ofBe bs < 256 ^ bs.length := by
  induction bs using List.reverseRecOn with
  | nil => decide
  | append_singleton bs b ih =>
    have hb := b.toNat_lt
    rw [ofBe,List.foldl_append,List.foldl_cons,List.foldl_nil,List.length_append,
      List.length_singleton,Nat.pow_succ]
    rw [ofBe] at ih
    omega

theorem toNat_be32 {buf : Bytes} {i : Nat} (h : i + 4 ≤ buf.length) :
    (UInt32.ofNat (ofBe (slice buf i (i + 4)))).toNat = ofBe (slice buf i (i + 4)) := by
  have hlt := ofBe_lt (slice buf i (i + 4))
  rw [length_slice h,Nat.add_sub_cancel_left] at hlt
  rw [UInt32.toNat_ofNat']
  omega

/-- The two decoders give the same result for every buffer, down to the reason they refuse
it for. -/
theorem decodeFrame_eq (buf : Bytes) (opts : DecodeOptions) :
    decodeFrame buf opts = ofDecoded (Relay.decodeFrameWith buf (typesFor opts)) := by
  unfold decodeFrame Relay.decodeFrameWith
  rw [show frameHeaderBytes = 9 from rfl,show Relay.frameHeaderBytes = 9 from rfl,
    show Relay.maxFramePayload = maxFramePayload from rfl]
  by_cases hlen : buf.length < 9
  · have hnone : Relay.be32 buf 5 = none := by rw [Relay.be32,slice?_of_lt hlen,Option.map_none]
    rw [if_pos hlen,hnone]
    cases Relay.be32 buf 0 <;> cases buf[4]? <;> rfl
  have hty : buf[4]? = some (buf.getD 4 0) := by
    rw [List.getD_eq_getElem?_getD,List.getElem?_eq_getElem (by omega),Option.getD_some]
  rw [if_neg hlen,be32_eq (by omega),be32_eq (by omega),hty]
  dsimp only
  rw [readU32BE_eq (by omega),readU32BE_eq (by omega),toNat_be32 (by omega),accepts_eq]
  generalize isFrameType (buf.getD 4 0).toNat = v1
  generalize (opts.drainNotice == some true && (buf.getD 4 0).toNat == frameDrainNotice) = drain
  generalize (opts.mesh == some true && ((buf.getD 4 0).toNat == frameAttachment ||
    (buf.getD 4 0).toNat == frameMoveHint)) = mesh
  have hsame : (!v1 && !drain && !mesh) = !(v1 || drain || mesh) := by
    cases v1 <;> cases drain <;> cases mesh <;> rfl
  rw [hsame]
  cases v1 || drain || mesh with
  | false => rfl
  | true =>
    rw [if_neg (show ¬(!true) = true by decide),if_neg (show ¬true = false by decide)]
    generalize ofBe (slice buf 5 (5 + 4)) = len
    by_cases hmax : maxFramePayload < len
    · rw [if_pos (Int.ofNat_lt.mpr hmax),if_pos hmax]
      rfl
    · rw [if_neg (fun h => hmax (Int.ofNat_lt.mp h)),if_neg hmax]
      by_cases hwhole : buf.length < 9 + len
      · rw [if_pos (by omega),slice?_of_lt hwhole]
        rfl
      · rw [if_neg (by omega),slice?_of_le (Nat.le_add_right _ _) (Nat.not_lt.mp hwhole)]
        simp only [ofDecoded,toNat_be32 (show 0 + 4 ≤ buf.length by omega)]
        rfl

/-- A frame of the relay's, in the other port's terms. -/
def forTunnel (frame : Relay.Frame) : Frame :=
  ⟨frame.streamId.toNat,frame.frameType.toNat,frame.payload⟩

/-- The two encoders give the same bytes, or refuse the frame with the same text. -/
theorem encodeFrame_eq (frame : Relay.Frame) :
    encodeFrame (forTunnel frame) = (Relay.encodeFrame frame).mapError Relay.EncodeError.text := by
  have hid : frame.streamId.toNat < 2 ^ 32 := frame.streamId.toNat_lt
  unfold encodeFrame Relay.encodeFrame Relay.encodeFrameInto forTunnel
  rw [show Relay.maxFramePayload = maxFramePayload from rfl]
  dsimp only
  by_cases hmax : maxFramePayload < frame.payload.length
  · rw [if_pos hmax,if_pos hmax]
    rfl
  · have hlen : frame.payload.length < 2 ^ 32 := by
      unfold maxFramePayload at hmax
      omega
    have hty : toUint8 frame.frameType.toNat = frame.frameType := by
      apply UInt8.toNat_inj.mp
      have := frame.frameType.toNat_lt
      simp only [toUint8,UInt8.toNat_ofNat']
      omega
    rw [if_neg hmax,if_neg hmax,if_neg (Nat.not_le.mpr hlen),writeU32BE_eq hid,writeU32BE_eq hlen,
      hty]
    rfl

/-- For every buffer and the same capabilities the decoders of the two ports report the same
frame and length, ask for the same bytes, or refuse with the same reason; and for every
frame within the limit their encoders write the same bytes. -/
theorem frame_codecs_agree :
    (∀ buf opts,decodeFrame buf opts = ofDecoded (Relay.decodeFrameWith buf (typesFor opts))) ∧
    (∀ frame : Relay.Frame,frame.payload.length ≤ maxFramePayload →
      ∃ bytes,Relay.encodeFrame frame = .ok bytes ∧ encodeFrame (forTunnel frame) = .ok bytes) ∧
    ∀ frame : Relay.Frame,
      encodeFrame (forTunnel frame) = (Relay.encodeFrame frame).mapError Relay.EncodeError.text := by
  refine ⟨decodeFrame_eq,?_,encodeFrame_eq⟩
  intro frame hlen
  have hboth := encodeFrame_eq frame
  cases hrelay : Relay.encodeFrame frame with
  | ok bytes =>
    rw [hrelay] at hboth
    exact ⟨bytes,rfl,hboth⟩
  | error e =>
    unfold Relay.encodeFrame Relay.encodeFrameInto at hrelay
    rw [show Relay.maxFramePayload = maxFramePayload from rfl,if_neg (Nat.not_lt.mpr hlen),
      if_neg (by unfold maxFramePayload at hlen; omega)] at hrelay
    cases hrelay

theorem frame_codecs_agree_high_id :
    ∃ bytes,Relay.encodeFrame ⟨0xfffffffe,Relay.frameData,[7,8]⟩ = .ok bytes ∧
      encodeFrame ⟨4294967294,frameData,[7,8]⟩ = .ok bytes :=
  frame_codecs_agree.2.1 ⟨0xfffffffe,Relay.frameData,[7,8]⟩ (by decide)

end Flagship.Tunnel.Proofs

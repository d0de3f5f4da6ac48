import Flagship.Relay.Frame

namespace Flagship.Relay.Proofs
open Lib (Bytes slice slice? beBytes ofBe)
open FrameDecoder

/-- The bytes of a frame. -/
def wire (f : Frame) : Bytes :=
  beBytes 4 f.streamId.toNat ++ [f.frameType] ++ beBytes 4 f.payload.length ++ f.payload

/-- A frame a decoder accepts, with a payload within the limit. -/
def Sendable (types : TypeSet) (f : Frame) : Prop :=
  types.accepts f.frameType = true ∧ f.payload.length ≤ maxFramePayload

/-- Frames written one behind another. -/
def encodeFrames (frames : List Frame) : Except EncodeError Bytes :=
  frames.foldlM (fun out f => encodeFrameInto f.streamId f.frameType f.payload out) []

theorem length_wire (f : Frame) : (wire f).length = 9 + f.payload.length := by
  simp [wire]
  omega

theorem encodeFrameInto_ok {types : TypeSet} {f : Frame} (h : Sendable types f) (out : Bytes) :
    encodeFrameInto f.streamId f.frameType f.payload out = .ok (out ++ wire f) := by
  have hlen := h.2
  unfold encodeFrameInto
  dsimp only
  rw [if_neg (Nat.not_lt.mpr hlen),if_neg (by unfold maxFramePayload at hlen; omega)]
  simp [wire]

theorem encodeFrames_ok {types : TypeSet} {frames : List Frame}
    (h : ∀ f ∈ frames,Sendable types f) : encodeFrames frames = .ok (frames.flatMap wire) := by
  have hgo : ∀ out,frames.foldlM (fun out f =>
      encodeFrameInto f.streamId f.frameType f.payload out) out =
        .ok (out ++ frames.flatMap wire) := by
    induction frames with
    | nil => simp [pure,Except.pure]
    | cons f frames ih =>
      intro out
      have htail := ih (fun g hg => h g (List.mem_cons_of_mem _ hg)) (out ++ wire f)
      rw [List.foldlM_cons,encodeFrameInto_ok (h f List.mem_cons_self)]
      exact htail.trans (by rw [List.flatMap_cons,List.append_assoc])
  exact hgo []

section
variable {types : TypeSet} {f : Frame} {buf rest : Bytes}

/-- A part of a buffer that starts with a frame is that part of the frame. -/
theorem slice?_of_wire (h : buf <+: wire f ++ rest) {i j : Nat} (hij : i ≤ j)
    (hbuf : j ≤ buf.length) (hwire : j ≤ (wire f).length) :
    slice? buf i j = some (slice (wire f) i j) := by
  obtain ⟨more,hmore⟩ := h
  have hleft : slice (buf ++ more) i j = slice buf i j := Lib.slice_append_left hbuf
  have hright : slice (wire f ++ rest) i j = slice (wire f) i j := Lib.slice_append_left hwire
  rw [Lib.slice?_of_le hij hbuf,← hleft,hmore,hright]

theorem slice_wire_id : slice (wire f) 0 4 = beBytes 4 f.streamId.toNat := by
  simp [slice,wire,beBytes]

theorem slice_wire_length : slice (wire f) 5 9 = beBytes 4 f.payload.length := by
  simp [slice,wire,beBytes]

theorem slice_wire_payload : slice (wire f) 9 (9 + f.payload.length) = f.payload := by
  simp [slice,wire,beBytes]

/-- The start of a frame's bytes is decoded as the frame once they are all there, and until
then it waits. -/
theorem decode_prefix (hf : Sendable types f) (h : buf <+: wire f ++ rest) :
    decodeFrameWith buf types =
      if buf.length < 9 then .incomplete 9
      else if buf.length < (wire f).length then .incomplete (wire f).length
      else .ok f.streamId f.frameType f.payload (wire f).length := by
  have hlen := length_wire f
  have hmax := hf.2
  unfold decodeFrameWith
  rw [show frameHeaderBytes = 9 from rfl]
  by_cases hshort : buf.length < 9
  · have hnone : be32 buf 5 = none := by rw [be32,Lib.slice?_of_lt hshort,Option.map_none]
    rw [if_pos hshort,hnone]
    cases be32 buf 0 <;> cases buf[4]? <;> rfl
  · have hid : be32 buf 0 = some f.streamId := by
      rw [be32,slice?_of_wire h (by omega) (by omega) (by omega),slice_wire_id,Option.map_some,
        Lib.ofBe_beBytes f.streamId.toNat_lt,UInt32.ofNat_toNat]
    have hsize : be32 buf 5 = some (UInt32.ofNat f.payload.length) := by
      rw [be32,slice?_of_wire h (by omega) (by omega) (by omega),slice_wire_length,
        Option.map_some,Lib.ofBe_beBytes (by unfold maxFramePayload at hmax; omega)]
    have hty : buf[4]? = some f.frameType := by
      obtain ⟨more,hmore⟩ := h
      have hboth : (buf ++ more)[4]? = (wire f ++ rest)[4]? := by rw [hmore]
      rw [List.getElem?_append_left (by omega),List.getElem?_append_left (by omega)] at hboth
      rw [hboth]
      simp [wire,beBytes]
    have hnat : (UInt32.ofNat f.payload.length).toNat = f.payload.length := by
      unfold maxFramePayload at hmax
      rw [UInt32.toNat_ofNat']
      omega
    rw [if_neg hshort,hid,hsize,hty]
    dsimp only
    rw [hf.1,hnat,if_neg (by decide),if_neg (Nat.not_lt.mpr hmax),← hlen]
    by_cases hpart : buf.length < (wire f).length
    · rw [if_pos hpart,Lib.slice?_of_lt hpart]
    · rw [if_neg hpart,slice?_of_wire h (by omega) (by omega) (Nat.le_refl _)]
      dsimp only
      rw [hlen,slice_wire_payload]

end

/-- A decoder and the bytes it has yet to read. -/
structure Holding (types : TypeSet) (maxChunk : Nat) (d : FrameDecoder) (unread : Bytes) :
    Prop where
  types_eq : d.types = types
  maxChunk_eq : d.maxChunk = maxChunk
  start_le : d.start ≤ d.buf.length
  rest : d.buf.drop d.start = unread

/-- A beginning, not whole, of the next frame's bytes; none where no frame is left. -/
def Begun : List Frame → Bytes → Prop
  | [],part => part = []
  | f :: _,part => part <+: wire f ∧ part.length < (wire f).length

section
variable {types : TypeSet} {maxChunk : Nat} {d : FrameDecoder} {unread : Bytes}

theorem Holding.buffered_eq (h : Holding types maxChunk d unread) :
    d.buffered = unread.length := by
  rw [← h.rest,List.length_drop]
  rfl

/-- A push adds the chunk to what is unread, whether or not it drops what was read. -/
theorem Holding.push (h : Holding types maxChunk d unread) {chunk : Bytes}
    (hchunk : chunk.length ≤ maxChunk) (hroom : unread.length ≤ 9 + maxFramePayload) :
    ∃ d',d.push chunk = .ok d' ∧ Holding types maxChunk d' (unread ++ chunk) := by
  have hbuffered := h.buffered_eq
  obtain ⟨rfl,rfl,hstart,rfl⟩ := h
  unfold FrameDecoder.push
  dsimp only
  rw [if_neg (Nat.not_lt.mpr hchunk),if_neg (by simp only [frameHeaderBytes]; omega)]
  refine ⟨_,rfl,?_⟩
  split
  · exact ⟨rfl,rfl,Nat.zero_le _,rfl⟩
  · refine ⟨rfl,rfl,?_,?_⟩
    · dsimp only
      rw [List.length_append]
      omega
    · exact List.drop_append_of_le_length hstart

theorem Holding.next_waits (h : Holding types maxChunk d unread) {n : Nat}
    (hdec : decodeFrameWith unread types = .incomplete n) : d.nextFrame = .ok (d,none) := by
  unfold nextFrame
  rw [h.rest,h.types_eq,hdec]

/-- Taking a frame leaves what is behind it, whether or not the buffer is emptied. -/
theorem Holding.next_frame (h : Holding types maxChunk d unread) {streamId : UInt32}
    {frameType : UInt8} {payload : Bytes} {consumed : Nat}
    (hdec : decodeFrameWith unread types = .ok streamId frameType payload consumed) :
    ∃ d',d.nextFrame = .ok (d',some ⟨streamId,frameType,payload⟩) ∧
      Holding types maxChunk d' (unread.drop consumed) := by
  have hle := (consumed_of_decoded hdec).2
  rw [← h.buffered_eq,buffered] at hle
  obtain ⟨rfl,rfl,hstart,rfl⟩ := h
  unfold nextFrame
  rw [hdec]
  refine ⟨_,rfl,?_⟩
  rw [List.drop_drop]
  split
  · rename_i hall
    refine ⟨rfl,rfl,Nat.le_refl _,?_⟩
    rw [hall,List.drop_length]
    rfl
  · refine ⟨rfl,rfl,?_,rfl⟩
    dsimp only
    omega

theorem Begun.waits {frames : List Frame} {part : Bytes} (h : Begun frames part)
    (hframes : ∀ f ∈ frames,Sendable types f) :
    ∃ n,decodeFrameWith part types = .incomplete n := by
  cases frames with
  | nil =>
    cases h
    exact ⟨9,rfl⟩
  | cons f frames =>
    obtain ⟨hbegins,hlt⟩ := h
    have hdec := decode_prefix (hframes f List.mem_cons_self)
      (show part <+: wire f ++ [] by rwa [List.append_nil])
    rw [if_pos hlt] at hdec
    split at hdec
    · exact ⟨_,hdec⟩
    · exact ⟨_,hdec⟩

theorem Begun.length_le {frames : List Frame} {part : Bytes} (h : Begun frames part)
    (hframes : ∀ f ∈ frames,Sendable types f) : part.length ≤ 9 + maxFramePayload := by
  cases frames with
  | nil =>
    cases h
    exact Nat.zero_le _
  | cons f frames =>
    have hlen := length_wire f
    have hmax := (hframes f List.mem_cons_self).2
    have hlt := h.2
    omega

/-- Draining takes every complete frame and keeps the begun one. -/
theorem Holding.drain {frames later : List Frame} {part : Bytes}
    (h : Holding types maxChunk d (frames.flatMap wire ++ part))
    (hframes : ∀ f ∈ frames ++ later,Sendable types f) (hpart : Begun later part)
    (taken : List Frame) :
    ∃ d',draining.run (d,taken) = .ok (d',taken ++ frames) ∧ Holding types maxChunk d' part := by
  induction frames generalizing d taken with
  | nil =>
    obtain ⟨n,hdec⟩ := hpart.waits fun f hf => hframes f (by simpa using hf)
    have hnext := h.next_waits hdec
    have hstep : draining.step (d,taken) = .ok (.inl (d,taken)) := by
      simp only [draining,hnext]
      rfl
    refine ⟨d,?_,h⟩
    rw [Lib.While.run_done hstep,List.append_nil]
  | cons f frames ih =>
    rw [List.flatMap_cons,List.append_assoc] at h
    have hdec := decode_prefix (hframes f (by simp)) (List.prefix_refl
      (wire f ++ (frames.flatMap wire ++ part)))
    have hlen := length_wire f
    rw [if_neg (by rw [List.length_append]; omega),if_neg (by rw [List.length_append]; omega)]
      at hdec
    obtain ⟨d1,hnext,hheld⟩ := h.next_frame hdec
    rw [List.drop_left] at hheld
    have hstep : draining.step (d,taken) = .ok (.inr (d1,taken ++ [f])) := by
      simp only [draining,hnext]
      rfl
    obtain ⟨d',hrun,hheld'⟩ := ih hheld
      (fun g hg => hframes g (by rw [List.cons_append]; exact List.mem_cons_of_mem _ hg))
      (taken ++ [f])
    refine ⟨d',?_,hheld'⟩
    rw [Lib.While.run_more hstep,hrun,List.append_assoc]
    rfl

end

/-- A beginning of the frames' bytes is some of the frames and a begun one. -/
theorem exists_begun {frames : List Frame} {bytes : Bytes} (h : bytes <+: frames.flatMap wire) :
    ∃ complete later part,frames = complete ++ later ∧ bytes = complete.flatMap wire ++ part ∧
      Begun later part := by
  induction frames generalizing bytes with
  | nil => exact ⟨[],[],[],rfl,by simpa using h,rfl⟩
  | cons f frames ih =>
    rw [List.flatMap_cons] at h
    by_cases hlt : bytes.length < (wire f).length
    · exact ⟨[],f :: frames,bytes,rfl,rfl,
        List.prefix_of_prefix_length_le h (List.prefix_append _ _) (Nat.le_of_lt hlt),hlt⟩
    · obtain ⟨more,rfl⟩ := List.prefix_of_prefix_length_le (List.prefix_append (wire f) _) h
        (Nat.not_lt.mp hlt)
      obtain ⟨complete,later,part,rfl,rfl,hbegun⟩ := ih ((List.prefix_append_right_inj _).mp h)
      exact ⟨f :: complete,later,part,rfl,by simp,hbegun⟩

/-- Chunks that continue the begun frame are fed without an error. -/
theorem feed_chunks {types : TypeSet} {maxChunk : Nat} {d : FrameDecoder} {frames : List Frame}
    {part : Bytes} (h : Holding types maxChunk d part) (hbegun : Begun frames part)
    (hframes : ∀ f ∈ frames,Sendable types f) {chunks : List Bytes}
    (hchunks : ∀ c ∈ chunks,c.length ≤ maxChunk)
    (hbytes : part ++ chunks.flatten <+: frames.flatMap wire) (taken : List Frame) :
    ∃ d' complete later part',chunks.foldlM feed (d,taken) = .ok (d',taken ++ complete) ∧
      frames = complete ++ later ∧ part ++ chunks.flatten = complete.flatMap wire ++ part' ∧
      Begun later part' ∧ Holding types maxChunk d' part' := by
  induction chunks generalizing d frames part taken with
  | nil => exact ⟨d,[],frames,part,by simp [pure,Except.pure],rfl,by simp,hbegun,h⟩
  | cons chunk chunks ih =>
    rw [List.flatten_cons,← List.append_assoc] at hbytes
    obtain ⟨d1,hpush,hheld⟩ := h.push (hchunks chunk List.mem_cons_self)
      (hbegun.length_le hframes)
    obtain ⟨complete,later,part1,rfl,hsplit,hbegun1⟩ :=
      exists_begun ((List.prefix_append (part ++ chunk) chunks.flatten).trans hbytes)
    rw [hsplit] at hheld hbytes
    obtain ⟨d2,hdrain,hheld2⟩ := hheld.drain hframes hbegun1 []
    have hstep : feed (d,taken) chunk = .ok (d2,taken ++ complete) := by
      unfold feed FrameDecoder.drain
      rw [hpush]
      change (draining.run (d1,[]) >>= fun x => .ok (x.1,taken ++ x.2)) = _
      rw [hdrain]
      rfl
    rw [List.flatMap_append,List.append_assoc] at hbytes
    obtain ⟨d',complete',later',part',hrun,rfl,hrest,hbegun',hheld'⟩ := ih hheld2 hbegun1
      (fun f hf => hframes f (List.mem_append_right _ hf))
      (fun c hc => hchunks c (List.mem_cons_of_mem _ hc))
      ((List.prefix_append_right_inj _).mp hbytes) (taken ++ complete)
    refine ⟨d',complete ++ complete',later',part',?_,by simp,?_,hbegun',hheld'⟩
    · rw [List.foldlM_cons,hstep,← List.append_assoc]
      exact hrun
    · rw [List.flatten_cons,← List.append_assoc,hsplit,List.append_assoc,hrest]
      simp

theorem holding_new (types : TypeSet) (maxChunk : Nat) :
    Holding types maxChunk (FrameDecoder.new types maxChunk) [] :=
  ⟨rfl,rfl,Nat.le_refl _,rfl⟩

/-- However the bytes of acceptable frames are cut into chunks within the limit, feeding them
to a new decoder never fails: it yields the frames in order and keeps nothing; of bytes that
are cut off it yields the frames that are complete, keeps the rest and waits. -/
theorem frame_stream_decoded (types : TypeSet) (maxChunk : Nat) (frames : List Frame)
    (hframes : ∀ f ∈ frames,Sendable types f) (chunks : List Bytes)
    (hchunks : ∀ c ∈ chunks,c.length ≤ maxChunk) :
    encodeFrames frames = .ok (frames.flatMap wire) ∧
    (chunks.flatten = frames.flatMap wire →
      ∃ d,chunks.foldlM feed (FrameDecoder.new types maxChunk,[]) = .ok (d,frames) ∧
        d.buffered = 0) ∧
    (chunks.flatten <+: frames.flatMap wire →
      ∃ d complete later,
        chunks.foldlM feed (FrameDecoder.new types maxChunk,[]) = .ok (d,complete) ∧
        frames = complete ++ later ∧
        chunks.flatten.length = (complete.flatMap wire).length + d.buffered ∧
        (∀ f more,later = f :: more → d.buffered < (wire f).length) ∧
        d.nextFrame = .ok (d,none)) := by
  have hnew := holding_new types maxChunk
  have hnone : Begun frames [] := by
    cases frames with
    | nil => rfl
    | cons f frames => exact ⟨List.nil_prefix,by rw [length_wire,List.length_nil]; omega⟩
  refine ⟨encodeFrames_ok hframes,?_,?_⟩
  · intro hall
    obtain ⟨d,complete,later,part,hrun,rfl,hbytes,hbegun,hheld⟩ := feed_chunks hnew hnone hframes
      hchunks (by rw [List.nil_append,hall]) []
    rw [List.nil_append] at hrun hbytes
    -- all bytes are there, so no frame is left over
    rw [hall,List.flatMap_append,List.append_cancel_left_eq] at hbytes
    have hlater : later = [] := by
      cases later with
      | nil => rfl
      | cons f later =>
        have hlt := hbegun.2
        rw [← hbytes,List.flatMap_cons,List.length_append] at hlt
        omega
    subst hlater
    refine ⟨d,by rw [hrun,List.append_nil],?_⟩
    rw [hheld.buffered_eq,← hbytes]
    rfl
  · intro hcut
    obtain ⟨d,complete,later,part,hrun,rfl,hbytes,hbegun,hheld⟩ := feed_chunks hnew hnone hframes
      hchunks (by rwa [List.nil_append]) []
    rw [List.nil_append] at hrun hbytes
    obtain ⟨n,hwaits⟩ := hbegun.waits fun f hf => hframes f (List.mem_append_right _ hf)
    refine ⟨d,complete,later,hrun,rfl,?_,?_,hheld.next_waits hwaits⟩
    · rw [hbytes,List.length_append,hheld.buffered_eq]
    · rintro f more rfl
      rw [hheld.buffered_eq]
      exact hbegun.2

/-- Two frames in chunks of five bytes. -/
theorem frame_stream_decoded_fives :
    ∃ d,(((wire ⟨1,frameData,[7,8]⟩ ++ wire ⟨0,frameDrainNotice,[]⟩).toChunks 5).foldlM feed
        (FrameDecoder.new ⟨true,false,false⟩ 5,[])) =
      .ok (d,[⟨1,frameData,[7,8]⟩,⟨0,frameDrainNotice,[]⟩]) ∧ d.buffered = 0 := by
  refine (frame_stream_decoded ⟨true,false,false⟩ 5 [⟨1,frameData,[7,8]⟩,⟨0,frameDrainNotice,[]⟩]
    ?_ _ ?_).2.1 ?_
  · intro f hf
    rw [List.mem_cons,List.mem_singleton] at hf
    rcases hf with rfl | rfl
    · exact ⟨by decide,by decide⟩
    · exact ⟨by decide,by decide⟩
  · decide +kernel
  · decide +kernel

end Flagship.Relay.Proofs

import Flagship.Lib.Lists
import Flagship.Relay.Mail

namespace Flagship.Relay.Proofs
open Lib MailAssembler

section
variable {a : MailAssembler} {flags : UInt8} {part : Bytes} {last : Bool}

/-- What a frame leaves and returns, by its last flag. -/
def after (a : MailAssembler) (last : Bool) (part : Bytes) :
    MailAssembler × Except String (Option Bytes) :=
  if last then ({ a with parts := [] },.ok (some (a.parts ++ part)))
  else ({ a with parts := a.parts ++ part },.ok none)

theorem take_fits (hfits : a.parts.length + part.length ≤ mailMaxEnvelope)
    (hflags : flags &&& mailLast = if last then mailLast else 0) :
    a.take flags part = after a last part := by
  rw [MailAssembler.take,if_neg (Nat.not_lt.mpr hfits),after,hflags]
  cases last <;> rfl

theorem push_next (hdone : a.headDone = true)
    (hfits : a.parts.length + part.length ≤ mailMaxEnvelope) :
    a.push ((0 ||| if last then mailLast else 0) :: part) = after a last part := by
  have hflags : (0 ||| if last then mailLast else 0) &&& mailLast = if last then mailLast else 0 := by
    cases last <;> rfl
  have hfirst : (0 ||| if last then mailLast else 0) &&& mailFirst = 0 := by cases last <;> rfl
  rw [push,if_neg (not_not.mpr hfirst),hdone,if_neg (Ne.symm Bool.false_ne_true)]
  exact take_fits hfits hflags

theorem push_head {b : MailAssembler} {head : Bytes} (hdone : a.headDone = false)
    (hhead : a.readHead (head ++ part) = (b,part))
    (hfits : b.parts.length + part.length ≤ mailMaxEnvelope) :
    a.push ((mailFirst ||| if last then mailLast else 0) :: (head ++ part)) =
      after { b with headDone := true } last part := by
  have hflags : (mailFirst ||| if last then mailLast else 0) &&& mailLast =
      if last then mailLast else 0 := by
    cases last <;> rfl
  have hfirst : (mailFirst ||| if last then mailLast else 0) &&& mailFirst ≠ 0 := by
    cases last <;> decide
  rw [push,if_pos hfirst,hdone,if_neg Bool.false_ne_true,hhead]
  exact take_fits hfits hflags

end

/-- What pushing the frames of a body returns: nothing before the last of them. -/
def returns (frames : List Frame) (body : Bytes) : List (Except String (Option Bytes)) :=
  List.replicate (frames.length - 1) (.ok none) ++ [.ok (some body)]

section
variable {a b : MailAssembler} {frameType : UInt8} {streamId : UInt32} {head body part : Bytes}
  {off stop : Nat}

/-- The frame of a round, and those of the rounds after it. -/
theorem pushAll_round {f : Frame} {rest : List Frame}
    (hpush : a.push f.payload = after b (decide (body.length ≤ stop)) part)
    (htake : b.parts ++ part = body.take stop) (hend : body.length ≤ stop → rest = [])
    (hmore : ¬ body.length ≤ stop → rest ≠ [] ∧
      { b with parts := body.take stop }.pushAll (rest.map Frame.payload) =
        ({ b with parts := [] },returns rest body)) :
    a.pushAll ((f :: rest).map Frame.payload) = ({ b with parts := [] },returns (f :: rest) body) := by
  rw [List.map_cons,pushAll,hpush,after,htake]
  by_cases hlast : body.length ≤ stop
  · rw [hend hlast,decide_eq_true hlast,if_pos rfl,List.take_of_length_le hlast]
    rfl
  · obtain ⟨hne,hrest⟩ := hmore hlast
    rw [decide_eq_false hlast,if_neg Bool.false_ne_true]
    dsimp only
    rw [hrest]
    obtain ⟨g,gs,rfl⟩ := List.exists_cons_of_ne_nil hne
    rfl

theorem splitFrom_ne_nil {first : Bool} : splitFrom frameType streamId head body first off ≠ [] := by
  rw [splitFrom]
  exact List.cons_ne_nil _ _

theorem take_append_slice (hle : off ≤ stop) :
    body.take off ++ slice body off stop = body.take stop := by
  have h : stop = off + (stop - off) := by omega
  rw [slice,h,List.take_add,Nat.add_sub_cancel_left]

/-- Pushing the frames from a round on, where the assembler holds the body before it. -/
theorem pushAll_rest (hbody : body.length ≤ mailMaxEnvelope) (hdone : a.headDone = true)
    (hoff : off ≤ body.length) (hparts : a.parts = body.take off) :
    a.pushAll ((splitFrom frameType streamId head body false off).map Frame.payload) =
      ({ a with parts := [] },returns (splitFrom frameType streamId head body false off) body) := by
  induction hn : body.length - off using Nat.strongRecOn generalizing a off with
  | ind n ih =>
    have hchunk : 0 < mailChunk := by decide
    have hle : off ≤ min body.length (off + mailChunk) := by omega
    have hfits : a.parts.length + (slice body off (min body.length (off + mailChunk))).length ≤
        mailMaxEnvelope := by
      rw [hparts,length_slice (Nat.min_le_left _ _),List.length_take]
      omega
    rw [splitFrom]
    simp only [Bool.false_eq_true,if_false,Nat.sub_zero,List.nil_append]
    rw [slice?_of_le hle (Nat.min_le_left _ _),Option.getD_some]
    refine pushAll_round (push_next hdone hfits) ?_ (fun h => if_pos h) ?_
    · rw [hparts,take_append_slice hle]
    · intro hlast
      rw [if_neg hlast]
      exact ⟨splitFrom_ne_nil,ih _ (by omega) hdone (Nat.min_le_left _ _) rfl rfl⟩

/-- Pushing all the frames, where the head is what the assembler reads off the first one. -/
theorem pushAll_split {kind : MailKind} (hbody : body.length ≤ mailMaxEnvelope)
    (hparts : b.parts = [])
    (hhead : ∀ part,(MailAssembler.new kind).readHead (head ++ part) = (b,part)) :
    (MailAssembler.new kind).pushAll ((split frameType streamId head body).map Frame.payload) =
      ({ b with headDone := true },returns (split frameType streamId head body) body) := by
  have hsame : ({ b with headDone := true } : MailAssembler) =
      { { b with headDone := true } with parts := [] } := by rw [← hparts]
  have hle : 0 ≤ min body.length (0 + (mailChunk - head.length)) := Nat.zero_le _
  have hfits : b.parts.length + (slice body 0 (min body.length
      (0 + (mailChunk - head.length)))).length ≤ mailMaxEnvelope := by
    rw [hparts,length_slice (Nat.min_le_left _ _),List.length_nil]
    omega
  rw [hsame,split,splitFrom]
  simp only [if_true]
  rw [slice?_of_le hle (Nat.min_le_left _ _),Option.getD_some]
  refine pushAll_round (b := { b with headDone := true })
    (push_head rfl (hhead (slice body 0 (min body.length (0 + (mailChunk - head.length))))) hfits) ?_
    (fun h => if_pos h) ?_
  · dsimp only
    rw [hparts,← take_append_slice hle,List.take_zero]
  · intro hlast
    rw [if_neg hlast]
    exact ⟨splitFrom_ne_nil,pushAll_rest hbody rfl (Nat.min_le_left _ _) rfl⟩

/-- No frame is longer than a frame may be. -/
theorem splitFrom_small (hhead : head.length ≤ mailChunk) {first : Bool} :
    ∀ f ∈ splitFrom frameType streamId head body first off,f.payload.length ≤ maxFramePayload := by
  have hmax : mailChunk + 64 = maxFramePayload := by decide
  fun_induction splitFrom frameType streamId head body first off with
  | case1 first off room stop part last payload ih =>
    intro f hf
    rcases List.mem_cons.mp hf with rfl | hf
    · have hpart : part.length ≤ room := by
        simp only [part,slice?]
        split
        · rw [Option.getD_some,length_slice (by omega)]
          omega
        · exact Nat.zero_le _
      simp only [payload,room] at hpart ⊢
      cases first <;> simp at hpart ⊢ <;> omega
    · split at hf
      · cases hf
      · exact ih (by assumption) f hf

end

section
variable {id : Text} {part : Bytes}

theorem readHead_request (hid : (utf8Bytes id).length ≤ 64) (hbom : id.head? ≠ some '\uFEFF') :
    (MailAssembler.new .req).readHead
        ((UInt8.ofNat (utf8Bytes id).length :: utf8Bytes id) ++ part) =
      ({ MailAssembler.new .req with mailboxId := id },part) := by
  have hn : (UInt8.ofNat (utf8Bytes id).length).toNat = (utf8Bytes id).length := by
    rw [UInt8.toNat_ofNat']
    omega
  have hslice : slice? (UInt8.ofNat (utf8Bytes id).length :: (utf8Bytes id ++ part)) 1
      ((utf8Bytes id).length + 1) = some (utf8Bytes id) := by
    rw [slice?_of_le (by omega) (by simp)]
    simp [slice]
  have htext : fromUtf8Lossy (utf8Bytes id) = id := by
    rw [fromUtf8Lossy,utf8Text_utf8Bytes,Option.getD_some]
  have hstop : min (UInt8.ofNat (utf8Bytes id).length :: (utf8Bytes id ++ part)).length
      ((utf8Bytes id).length + 1) = (utf8Bytes id).length + 1 := by
    simp only [List.length_cons,List.length_append]
    omega
  have hone : min 1 ((utf8Bytes id).length + 1) = 1 := by omega
  have hrest : (UInt8.ofNat (utf8Bytes id).length :: (utf8Bytes id ++ part)).drop
      ((utf8Bytes id).length + 1) = part := by
    rw [List.drop_succ_cons,List.drop_left]
  unfold readHead
  simp only [MailAssembler.new,List.cons_append,List.headD_cons,hn,hstop,hone,hslice,hrest,
    Option.getD_some,htext]
  rw [if_neg hbom]

theorem readHead_response (status : UInt16) :
    (MailAssembler.new .resp).readHead (beBytes 2 status.toNat ++ part) =
      ({ MailAssembler.new .resp with status := status },part) := by
  have hstatus := status.toNat_lt
  have hhi : (UInt8.ofNat (status.toNat / 256)).toUInt16.toNat = status.toNat / 256 := by
    rw [UInt8.toNat_toUInt16,UInt8.toNat_ofNat']
    omega
  have hlo : (UInt8.ofNat status.toNat).toUInt16.toNat = status.toNat % 256 := by
    rw [UInt8.toNat_toUInt16,UInt8.toNat_ofNat']
  have hwhole : (UInt8.ofNat (status.toNat / 256)).toUInt16 <<< 8 |||
      (UInt8.ofNat status.toNat).toUInt16 = status := by
    apply UInt16.toNat_inj.mp
    have hshift : (status.toNat / 256) <<< 8 < 2 ^ 16 := by
      rw [Nat.shiftLeft_eq]
      omega
    have hor := Nat.shiftLeft_add_eq_or_of_lt (show status.toNat % 256 < 2 ^ 8 by omega)
      (status.toNat / 256)
    rw [UInt16.toNat_or,UInt16.toNat_shiftLeft,hhi,hlo,show (8 : UInt16).toNat % 16 = 8 from rfl,
      Nat.mod_eq_of_lt hshift,← hor,Nat.shiftLeft_eq]
    omega
  have hbytes : beBytes 2 status.toNat ++ part =
      UInt8.ofNat (status.toNat / 256) :: UInt8.ofNat status.toNat :: part := by
    simp only [beBytes,Nat.pow_one,Nat.pow_zero,Nat.div_one,List.cons_append,List.nil_append]
  have htwo : min 2 (UInt8.ofNat (status.toNat / 256) :: UInt8.ofNat status.toNat :: part).length =
      2 := by
    simp only [List.length_cons]
    omega
  rw [hbytes,readHead]
  simp only [MailAssembler.new,htwo,List.headD_cons,List.getD_cons_succ,List.getD_cons_zero,hwhole,
    List.drop_succ_cons,List.drop_zero]

end
/-- Splitting and assembling are inverse: the last frame alone returns the body, the id or the
status is left in the assembler, and every payload fits a frame. -/
theorem mail_split_and_assembled (streamId : UInt32) (id : Text) (status : UInt16) (body : Bytes)
    (hid : (utf8Bytes id).length ≤ 64) (hbom : id.head? ≠ some '\uFEFF')
    (hbody : body.length ≤ mailMaxEnvelope) :
    (∃ frames a,mailRequestFrames streamId id body = .ok frames ∧
      (MailAssembler.new .req).pushAll (frames.map Frame.payload) = (a,returns frames body) ∧
      a.mailboxId = id ∧ ∀ f ∈ frames,f.payload.length ≤ maxFramePayload) ∧
    ∃ frames a,mailResponseFrames streamId status body = frames ∧
      (MailAssembler.new .resp).pushAll (frames.map Frame.payload) = (a,returns frames body) ∧
      a.status = status ∧ ∀ f ∈ frames,f.payload.length ≤ maxFramePayload := by
  have hchunk : 65 ≤ mailChunk := by decide
  constructor
  · have hok : mailRequestFrames streamId id body = .ok (split framePbMailReq streamId
        (UInt8.ofNat (utf8Bytes id).length :: utf8Bytes id) body) := by
      rw [mailRequestFrames,if_neg (by omega)]
    refine ⟨_,_,hok,pushAll_split hbody rfl fun _ => readHead_request hid hbom,rfl,
      splitFrom_small ?_⟩
    rw [List.length_cons]
    omega
  · refine ⟨_,_,rfl,pushAll_split hbody rfl fun _ => readHead_response status,rfl,
      splitFrom_small ?_⟩
    rw [length_beBytes]
    omega

/-- A message of three bytes for a mailbox with a one-letter id. -/
theorem short_mail_split_and_assembled :
    ∃ frames a,mailRequestFrames 7 ['m'] [1,2,3] = .ok frames ∧
      (MailAssembler.new .req).pushAll (frames.map Frame.payload) = (a,returns frames [1,2,3]) ∧
      a.mailboxId = ['m'] ∧ ∀ f ∈ frames,f.payload.length ≤ maxFramePayload :=
  (mail_split_and_assembled 7 ['m'] 200 [1,2,3] (by decide) (by decide) (by decide)).1

/-- The relays of the bound candidates, in their order. -/
def boundRelays (l : List MailboxCandidate) : List Text :=
  (l.filter (·.bound)).map MailboxCandidate.relay

/-- The first relays to make a bound claim, as many as a list may hold. -/
def firstBound (claims : List MailboxCandidate) : List Text :=
  (boundRelays claims).eraseDups.take mailboxCandidatesMax

/-- The list after claims in their order. -/
def placeAll (claims : List MailboxCandidate) : List MailboxCandidate :=
  claims.foldl (fun l c => placeMailbox l c.relay c.epoch c.bound) []

/-- What holds of a list after claims. -/
structure Placed (claims l : List MailboxCandidate) : Prop where
  short : l.length ≤ mailboxCandidatesMax
  distinct : (l.map MailboxCandidate.relay).Nodup
  ordered : l.Pairwise fun c d => d.bound = true → c.bound = true
  first : boundRelays l = firstBound claims

section
variable {claims l l' bs us : List MailboxCandidate} {c : MailboxCandidate}

/-- All of it that matters is which relays the list has and which of them are bound. -/
theorem Placed.of_keys (h : Placed claims l)
    (hkeys : l'.map (fun c => (c.relay,c.bound)) = l.map fun c => (c.relay,c.bound)) :
    Placed claims l' := by
  have hlen : l'.length = l.length := by simpa using congrArg List.length hkeys
  have hrelays : l'.map MailboxCandidate.relay = l.map MailboxCandidate.relay := by
    simpa [Function.comp_def] using congrArg (List.map Prod.fst) hkeys
  have hbound : boundRelays l' = boundRelays l := by
    have hfilter := congrArg (fun ks : List (Text × Bool) => (ks.filter Prod.snd).map Prod.fst) hkeys
    simpa [boundRelays,List.filter_map,Function.comp_def] using hfilter
  have hpairs : (l'.map fun c => (c.relay,c.bound)).Pairwise
      fun k k' => k'.2 = true → k.2 = true := by
    rw [hkeys,List.pairwise_map]
    exact h.ordered
  exact ⟨hlen ▸ h.short,hrelays ▸ h.distinct,List.pairwise_map.mp hpairs,hbound.trans h.first⟩

/-- Bound candidates, then unbound ones. -/
theorem bound_then_unbound (h : l.Pairwise fun c d => d.bound = true → c.bound = true) :
    ∃ bs us,l = bs ++ us ∧ (∀ c ∈ bs,c.bound = true) ∧ ∀ c ∈ us,c.bound = false := by
  induction l with
  | nil => exact ⟨[],[],rfl,by simp,by simp⟩
  | cons c l ih =>
    obtain ⟨hc,hl⟩ := List.pairwise_cons.mp h
    cases hb : c.bound with
    | true =>
      obtain ⟨bs,us,rfl,hbs,hus⟩ := ih hl
      exact ⟨c :: bs,us,rfl,List.forall_mem_cons.mpr ⟨hb,hbs⟩,hus⟩
    | false =>
      refine ⟨[],c :: l,rfl,by simp,List.forall_mem_cons.mpr ⟨hb,fun d hd => ?_⟩⟩
      cases hd' : d.bound with
      | false => rfl
      | true => exact absurd (hc d hd hd') (by rw [hb]; exact Bool.false_ne_true)

theorem ordered_append (hbs : ∀ c ∈ bs,c.bound = true) (hus : ∀ c ∈ us,c.bound = false) :
    (bs ++ us).Pairwise fun c d => d.bound = true → c.bound = true := by
  refine List.pairwise_append.mpr ⟨?_,?_,fun c hc _ _ _ => hbs c hc⟩
  · exact List.pairwise_of_forall_mem_list fun c hc _ _ _ => hbs c hc
  · refine List.pairwise_of_forall_mem_list fun _ _ d hd hd' => ?_
    rw [hus d hd] at hd'
    cases hd'

theorem boundRelays_append (hbs : ∀ c ∈ bs,c.bound = true) (hus : ∀ c ∈ us,c.bound = false) :
    boundRelays (bs ++ us) = bs.map MailboxCandidate.relay := by
  rw [boundRelays,List.filter_append,List.filter_eq_self.mpr hbs,
    List.filter_eq_nil_iff.mpr fun c hc => by rw [hus c hc]; exact Bool.false_ne_true,List.append_nil]

theorem insertIdx_between (bs us : List MailboxCandidate) (c : MailboxCandidate) :
    (bs ++ us).insertIdx (min bs.length (bs ++ us).length) c = bs ++ c :: us := by
  rw [List.length_append,Nat.min_eq_left (Nat.le_add_right _ _)]
  induction bs with
  | nil => rfl
  | cons b bs ih =>
    rw [List.cons_append,List.length_cons,List.insertIdx_succ_cons,ih]
    rfl

/-- Where a bound candidate of a new relay goes. -/
theorem insertMailbox_bound (hbs : ∀ c ∈ bs,c.bound = true) (hus : ∀ c ∈ us,c.bound = false)
    (hc : c.bound = true) : insertMailbox (bs ++ us) c =
      if (bs ++ us).length < mailboxCandidatesMax then bs ++ c :: us
      else if us = [] then bs else bs ++ c :: us.dropLast := by
  have htake : (bs ++ us).takeWhile (·.bound) = bs := by
    rw [List.takeWhile_append_of_pos hbs]
    cases us with
    | nil => rw [List.takeWhile_nil,List.append_nil]
    | cons u us =>
      rw [List.takeWhile_cons,hus u List.mem_cons_self]
      exact List.append_nil bs
  rw [insertMailbox,if_neg (by rw [hc]; exact Ne.symm Bool.false_ne_true),htake]
  by_cases hfull : (bs ++ us).length < mailboxCandidatesMax
  · rw [if_neg (Nat.not_le.mpr hfull),if_pos hfull,insertIdx_between]
  · rw [if_pos (Nat.not_lt.mp hfull),if_neg hfull]
    by_cases hnil : us = []
    · subst hnil
      have hlast : bs.getLast?.any (!·.bound) = false := by
        rw [Option.any_eq_false]
        intro d hd
        rw [hbs d (List.mem_of_getLast? hd)]
        rfl
      rw [List.append_nil,if_neg (by rw [hlast]; exact Bool.false_ne_true),if_pos rfl]
    · have hlast : (bs ++ us).getLast?.any (!·.bound) = true := by
        rw [List.getLast?_append_of_ne_nil _ hnil,List.getLast?_eq_some_getLast hnil,Option.any_some,
          hus _ (List.getLast_mem hnil)]
        rfl
      rw [if_pos hlast,if_neg hnil,List.dropLast_append_of_ne_nil hnil,insertIdx_between]

theorem eraseDups_append_one (rs : List Text) (r : Text) :
    (rs ++ [r]).eraseDups = if r ∈ rs then rs.eraseDups else rs.eraseDups ++ [r] := by
  rw [List.eraseDups_append]
  by_cases h : r ∈ rs <;> simp [h,List.removeAll,List.eraseDups_cons]

theorem boundRelays_append_one (claims : List MailboxCandidate) (c : MailboxCandidate) :
    boundRelays (claims ++ [c]) = boundRelays claims ++ if c.bound then [c.relay] else [] := by
  unfold boundRelays
  rw [List.filter_append,List.map_append]
  cases hc : c.bound <;> simp [hc]

/-- A claim that is not bound, or of a relay that made a bound one, changes none of the first. -/
theorem firstBound_same (h : c.bound = true → c.relay ∈ boundRelays claims) :
    firstBound (claims ++ [c]) = firstBound claims := by
  rw [firstBound,boundRelays_append_one]
  cases hc : c.bound with
  | false => simp [firstBound]
  | true =>
    rw [if_pos rfl,eraseDups_append_one,if_pos (h hc)]
    rfl

theorem firstBound_new (hshort : (firstBound claims).length < mailboxCandidatesMax)
    (hnew : c.relay ∉ firstBound claims) (hc : c.bound = true) :
    firstBound (claims ++ [c]) = firstBound claims ++ [c.relay] := by
  have hall : firstBound claims = (boundRelays claims).eraseDups := by
    refine List.take_of_length_le ?_
    rw [firstBound,List.length_take] at hshort
    omega
  have hnot : c.relay ∉ boundRelays claims := by
    rw [hall,List.mem_eraseDups] at hnew
    exact hnew
  rw [firstBound,boundRelays_append_one,if_pos hc,eraseDups_append_one,if_neg hnot,← hall]
  refine List.take_of_length_le ?_
  rw [List.length_append,List.length_singleton]
  omega

theorem firstBound_full (hfull : mailboxCandidatesMax ≤ (firstBound claims).length) :
    firstBound (claims ++ [c]) = firstBound claims := by
  rw [firstBound,List.length_take] at hfull
  rw [firstBound,boundRelays_append_one]
  cases c.bound with
  | false => simp [firstBound]
  | true =>
    rw [if_pos rfl,eraseDups_append_one]
    split
    · rfl
    · exact List.take_append_of_le_length (by omega)

/-- A bound claim of a relay that is not in the list. -/
theorem Placed.insert_bound (h : Placed claims l) (hnew : c.relay ∉ l.map MailboxCandidate.relay)
    (hc : c.bound = true) : Placed (claims ++ [c]) (insertMailbox l c) := by
  obtain ⟨bs,us,rfl,hbs,hus⟩ := bound_then_unbound h.ordered
  have hfirst : bs.map MailboxCandidate.relay = firstBound claims :=
    (boundRelays_append hbs hus).symm.trans h.first
  have hlen : bs.length = (firstBound claims).length := by rw [← hfirst,List.length_map]
  have hin : c.relay ∉ firstBound claims := by
    rw [← hfirst]
    intro hmem
    rw [List.map_append] at hnew
    exact hnew (List.mem_append_left _ hmem)
  -- The candidate goes behind the bound ones, before what is left of the unbound.
  have hplaced : ∀ us',us'.Sublist us → (bs ++ c :: us').length ≤ mailboxCandidatesMax →
      Placed (claims ++ [c]) (bs ++ c :: us') := by
    intro us' hsub hshort
    have hbs' : ∀ d ∈ bs ++ [c],d.bound = true := List.forall_mem_append.mpr ⟨hbs,by simp [hc]⟩
    have hus' : ∀ d ∈ us',d.bound = false := fun d hd => hus d (hsub.subset hd)
    have heq : bs ++ c :: us' = bs ++ [c] ++ us' := by rw [List.append_assoc]; rfl
    refine ⟨hshort,?_,?_,?_⟩
    · have hperm : ((bs ++ c :: us').map MailboxCandidate.relay).Perm
          (c.relay :: (bs ++ us').map MailboxCandidate.relay) :=
        (List.perm_middle.map _)
      have hsub' := (List.Sublist.append_left hsub bs).map MailboxCandidate.relay
      refine hperm.nodup_iff.mpr (List.nodup_cons.mpr ⟨?_,h.distinct.sublist hsub'⟩)
      exact fun hmem => hnew (hsub'.subset hmem)
    · rw [heq]
      exact ordered_append hbs' hus'
    · rw [heq,boundRelays_append hbs' hus',List.map_append,hfirst,firstBound_new _ hin hc]
      · rfl
      · rw [← hlen]
        rw [List.length_append,List.length_cons] at hshort
        omega
  have hshort := h.short
  rw [insertMailbox_bound hbs hus hc]
  by_cases hroom : (bs ++ us).length < mailboxCandidatesMax
  · rw [if_pos hroom]
    refine hplaced us (List.Sublist.refl us) ?_
    rw [List.length_append] at hroom
    rw [List.length_append,List.length_cons]
    omega
  · rw [if_neg hroom]
    by_cases hnil : us = []
    · subst hnil
      rw [if_pos rfl]
      rw [List.append_nil] at h hroom
      refine ⟨h.short,h.distinct,h.ordered,?_⟩
      rw [h.first,firstBound_full (by omega)]
    · rw [if_neg hnil]
      refine hplaced us.dropLast (List.dropLast_sublist us) ?_
      have hpos := List.length_pos_iff.mpr hnil
      rw [List.length_append] at hshort
      rw [List.length_append,List.length_cons,List.length_dropLast]
      omega

/-- An unbound claim of a relay that is not in the list. -/
theorem Placed.insert_unbound (h : Placed claims l) (hnew : c.relay ∉ l.map MailboxCandidate.relay)
    (hc : c.bound = false) : Placed (claims ++ [c]) (insertMailbox l c) := by
  have hsame : firstBound (claims ++ [c]) = firstBound claims :=
    firstBound_same fun hb => absurd (hc.symm.trans hb) Bool.false_ne_true
  rw [insertMailbox,if_pos hc]
  split
  · rename_i hroom
    refine ⟨?_,?_,?_,?_⟩
    · rw [List.length_append,List.length_singleton]
      omega
    · rw [List.map_append]
      refine List.Nodup.append h.distinct (List.nodup_singleton _) ?_
      intro r hr hr'
      rw [List.mem_singleton.mp hr'] at hr
      exact hnew hr
    · refine List.pairwise_append.mpr ⟨h.ordered,List.pairwise_singleton _ _,fun d _ e he hb => ?_⟩
      rw [List.mem_singleton.mp he,hc] at hb
      cases hb
    · rw [boundRelays_append_one,hc,if_neg Bool.false_ne_true,List.append_nil,h.first,hsame]
  · exact ⟨h.short,h.distinct,h.ordered,h.first.trans hsame.symm⟩

/-- An unbound candidate taken out of the list. -/
theorem Placed.remove {xs ys : List MailboxCandidate} (h : Placed claims (xs ++ c :: ys))
    (hc : c.bound = false) :
    Placed claims (xs ++ ys) ∧ c.relay ∉ (xs ++ ys).map MailboxCandidate.relay := by
  have hsub : (xs ++ ys).Sublist (xs ++ c :: ys) :=
    List.Sublist.append_left (List.sublist_cons_self c ys) xs
  have hperm : ((xs ++ c :: ys).map MailboxCandidate.relay).Perm
      (c.relay :: (xs ++ ys).map MailboxCandidate.relay) := List.perm_middle.map _
  have hbound : boundRelays (xs ++ ys) = boundRelays (xs ++ c :: ys) := by
    simp [boundRelays,hc]
  refine ⟨⟨hsub.length_le.trans h.short,h.distinct.sublist (hsub.map _),h.ordered.sublist hsub,
    hbound.trans h.first⟩,?_⟩
  exact (List.nodup_cons.mp (hperm.nodup_iff.mp h.distinct)).1

theorem keys_modify (l : List MailboxCandidate) (i : Nat) (epoch : UInt64) :
    (l.modify i fun c => { c with epoch := epoch }).map (fun c => (c.relay,c.bound)) =
      l.map fun c => (c.relay,c.bound) := by
  induction l generalizing i with
  | nil => rw [List.modify_nil]
  | cons c l ih =>
    cases i with
    | zero => rfl
    | succ i => rw [List.modify_succ_cons,List.map_cons,List.map_cons,ih]

/-- One more claim. -/
theorem Placed.place (h : Placed claims l) (c : MailboxCandidate) :
    Placed (claims ++ [c]) (placeMailbox l c.relay c.epoch c.bound) := by
  unfold placeMailbox
  split
  · rename_i i hfound
    obtain ⟨hi,hrelay,-⟩ := List.findIdx?_eq_some_iff_getElem.mp hfound
    have hrelay : l[i].relay = c.relay := eq_of_beq hrelay
    have hcut : l = l.take i ++ l[i] :: l.drop (i + 1) := by
      rw [List.getElem_cons_drop,List.take_append_drop]
    have hwas : l[i]?.any (·.bound) = l[i].bound := by
      rw [List.getElem?_eq_getElem hi,Option.any_some]
    dsimp only
    rw [hwas]
    by_cases hup : (c.bound && !l[i].bound) = true
    · obtain ⟨hb,hnot⟩ := Bool.and_eq_true_iff.mp hup
      rw [Bool.not_eq_true'] at hnot
      obtain ⟨hrest,hnew⟩ := (hcut ▸ h).remove hnot
      rw [if_pos hup,List.eraseIdx_eq_take_drop_succ]
      rw [hrelay] at hnew
      exact hrest.insert_bound hnew hb
    · rw [if_neg hup]
      have hkept := h.of_keys (keys_modify l i c.epoch)
      refine ⟨hkept.short,hkept.distinct,hkept.ordered,?_⟩
      rw [hkept.first,firstBound_same]
      intro hb
      have hwasBound : l[i].bound = true := by
        rw [hb,Bool.true_and,Bool.not_eq_true',Bool.not_eq_false] at hup
        exact hup
      have hmem : c.relay ∈ boundRelays l :=
        List.mem_map.mpr ⟨l[i],List.mem_filter.mpr ⟨List.getElem_mem hi,hwasBound⟩,hrelay⟩
      rw [h.first] at hmem
      exact List.mem_eraseDups.mp (List.mem_of_mem_take hmem)
  · rename_i hnone
    have hnew : c.relay ∉ l.map MailboxCandidate.relay := by
      intro hmem
      obtain ⟨d,hd,hrelay⟩ := List.mem_map.mp hmem
      have hno := List.findIdx?_eq_none_iff.mp hnone d hd
      rw [hrelay,beq_self_eq_true] at hno
      cases hno
    cases hb : c.bound with
    | true =>
      have hins := h.insert_bound hnew hb
      rw [← hb]
      exact hins
    | false =>
      have hins := h.insert_unbound hnew hb
      rw [← hb]
      exact hins

theorem placed_all (claims : List MailboxCandidate) : Placed claims (placeAll claims) := by
  refine foldl_history (I := Placed) ?_ ⟨Nat.zero_le _,List.nodup_nil,List.Pairwise.nil,rfl⟩
  intro l before c after _ h
  exact h.place c

/-- After any claims the list is short and holds distinct relays, bound ones first; those are
the first relays to make a bound claim, and a further unbound claim leaves them in their order. -/
theorem mailbox_candidates_placed (claims : List MailboxCandidate) :
    (placeAll claims).length ≤ mailboxCandidatesMax ∧
    ((placeAll claims).map MailboxCandidate.relay).Nodup ∧
    ((placeAll claims).Pairwise fun c d => d.bound = true → c.bound = true) ∧
    boundRelays (placeAll claims) = (boundRelays claims).eraseDups.take mailboxCandidatesMax ∧
    ∀ c : MailboxCandidate,c.bound = false →
      boundRelays (placeAll (claims ++ [c])) = boundRelays (placeAll claims) := by
  have h := placed_all claims
  refine ⟨h.short,h.distinct,h.ordered,h.first,fun c hc => ?_⟩
  rw [(placed_all (claims ++ [c])).first,h.first]
  exact firstBound_same fun hb => absurd (hc.symm.trans hb) Bool.false_ne_true

end
end Flagship.Relay.Proofs

import Flagship.Tunnel.Proofs.SniRecords

namespace Flagship.Tunnel.Proofs
open Lib
open Relay (ClientHelloReader)

/-- The two parsers in front of the same record of a buffer: neither of them settled
the hello on the records before it. -/
structure InStep (limits : SniLimits) (buf : Bytes) (t : Reading) (r : ClientHelloReader) :
    Prop where
  raw : r.raw = buf
  limits_eq : r.limits = forRelay limits
  pos : t.pos = r.pos
  records : t.records = r.records
  holds : Holds limits.maxHelloBytes t r.handshake
  read : recordsRead buf r.records = some ⟨r.handshake,r.pos⟩
  unsettled : ∀ j ≤ r.records,∀ early,recordsRead buf j = some early →
    ¬WholeHello early.payload ∧ ¬CannotFitAfter limits.maxRawBytes early

/-- How the loops of the two parsers end on one buffer, before the relay looks at
the raw byte limit. -/
inductive Ended (limits : SniLimits) (buf : Bytes) : SniParseResult → Relay.SniStatus → Prop
  | more (n : Nat) (hfit : ¬CannotFit limits.maxRawBytes buf) :
    Ended limits buf (need n limits) (.needMore n)
  | refused (reason reason' : String) : Ended limits buf (.error reason) (.reject reason')
  | whole (info : Relay.ClientHelloInfo)
    (hpast : limits.maxRawBytes < info.consumed → EndsPast limits.maxRawBytes buf) :
    Ended limits buf (.ok info.sni) (.done info)
  | early (reason : String) (status : Relay.SniStatus) (hfit : CannotFit limits.maxRawBytes buf)
    (hpast : ∀ info,status = .done info → limits.maxRawBytes < info.consumed) :
    Ended limits buf (.error reason) status

theorem advance_of_some {r r' : ClientHelloReader} {status : Relay.SniStatus}
    (h : r.readRecord = (r',some status)) : r.advance = (r',status) := by
  rw [ClientHelloReader.advance]
  split
  · rename_i heq
    rw [h] at heq
    cases heq
    rfl
  · rename_i heq
    rw [h] at heq
    cases heq

theorem advance_of_none {r r' : ClientHelloReader} (h : r.readRecord = (r',none)) :
    r.advance = r'.advance := by
  rw [ClientHelloReader.advance]
  split
  · rename_i heq
    rw [h] at heq
    cases heq
  · rename_i heq
    rw [h] at heq
    cases heq
    rfl

theorem readRecords_of_error {buf : Bytes} {limits : SniLimits} {t : Reading}
    {result : SniParseResult} (h : readRecord buf limits t = .error result) :
    readRecords buf limits t = result := by
  rw [readRecords]
  split
  · rename_i heq
    rw [h] at heq
    cases heq
    rfl
  · rename_i heq
    rw [h] at heq
    cases heq

theorem readRecords_of_ok {buf : Bytes} {limits : SniLimits} {t t' : Reading}
    (h : readRecord buf limits t = .ok t') :
    readRecords buf limits t = readRecords buf limits t' := by
  rw [readRecords]
  split
  · rename_i heq
    rw [h] at heq
    cases heq
  · rename_i heq
    rw [h] at heq
    cases heq
    rfl

theorem takeRecord_ne_nil {r : ClientHelloReader} {len : Nat} (hlen : 0 < len)
    (hle : r.pos + 5 + len ≤ r.raw.length) : (takeRecord r len).handshake ≠ [] := by
  apply List.append_ne_nil_of_right_ne_nil
  apply List.ne_nil_of_length_pos
  rw [length_slice hle]
  omega

/-- One iteration of the relay's loop, by the outcome of its record. -/
theorem advance_stopped {r r' : ClientHelloReader} {status : Relay.SniStatus} {out : RecordOutcome}
    (hrec : recordAt r.raw r.limits.maxRecords r.pos r.records = out)
    (h : stepReader r out = (r',some status)) : r.advance = (r',status) :=
  advance_of_some ((relay_readRecord_eq r).trans (by rw [hrec,h]))

theorem advance_next {r r' : ClientHelloReader} {out : RecordOutcome}
    (hrec : recordAt r.raw r.limits.maxRecords r.pos r.records = out)
    (h : stepReader r out = (r',none)) : r.advance = r'.advance :=
  advance_of_none ((relay_readRecord_eq r).trans (by rw [hrec,h]))

/-- Once a hello cannot fit any more, the relay's reader completes it only past the
raw byte limit. -/
theorem advance_past {maxRaw : Nat} (n : Nat) {r : ClientHelloReader}
    (hn : r.raw.length - r.pos = n) (hfit : CannotFitAfter maxRaw ⟨r.handshake,r.pos⟩)
    {info : Relay.ClientHelloInfo} (h : r.advance.2 = .done info) : maxRaw < info.consumed := by
  induction n using Nat.strong_induction_on generalizing r with
  | _ n ih =>
    cases hrec : recordAt r.raw r.limits.maxRecords r.pos r.records with
    | more m =>
      rw [advance_stopped hrec rfl] at h
      cases h
    | refused reason =>
      rw [advance_stopped hrec rfl] at h
      cases h
    | whole len =>
      obtain ⟨_,hlen,hle⟩ := recordAt_whole hrec
      have hne := takeRecord_ne_nil hlen hle
      have hslice : (slice r.raw (r.pos + 5) (r.pos + 5 + len)).length = len := by
        rw [length_slice hle]
        omega
      have hnext := hfit.next (slice r.raw (r.pos + 5) (r.pos + 5 + len))
      rw [hslice] at hnext
      cases hcheck : (takeRecord r len).checkHello with
      | some status =>
        rw [advance_stopped hrec (Prod.ext rfl hcheck)] at h
        cases h
        obtain ⟨hwhole,hconsumed⟩ := relay_check_done hne hcheck
        rw [hconsumed]
        rcases hnext with hnext | hnext
        · exact absurd hwhole.2 (Nat.not_le.mpr hnext.2.1)
        · exact hnext.2
      | none =>
        rw [advance_next hrec (Prod.ext rfl hcheck)] at h
        rcases hnext with hnext | hnext
        · refine ih (r.raw.length - (r.pos + 5 + len)) (by omega) ?_ ?_ h
          · rfl
          · exact hnext
        · exact absurd hnext.1 (relay_check_open hne hcheck)

theorem InStep.readRecord {limits : SniLimits} {buf : Bytes} {t : Reading} {r : ClientHelloReader}
    (h : InStep limits buf t r) : readRecord buf limits t =
      stepReading buf limits t (recordAt r.raw r.limits.maxRecords r.pos r.records) := by
  rw [readRecord_eq,h.raw,h.limits_eq,h.pos,h.records]
  rfl

/-- The reading and the reader with a record more hold the same bytes. -/
theorem InStep.holds_take {limits : SniLimits} {buf : Bytes} {t : Reading} {r : ClientHelloReader}
    (h : InStep limits buf t r) {len : Nat} (hlen : 0 < len) (hle : r.pos + 5 + len ≤ buf.length) :
    Holds limits.maxHelloBytes (takeFragment t buf len) (takeRecord r len).handshake := by
  have hslice : (slice buf (r.pos + 5) (r.pos + 5 + len)).length = len := by
    rw [length_slice hle]
    omega
  refine ⟨?_,?_,?_,?_⟩
  · simp only [takeFragment,takeRecord,List.flatten_append,List.flatten_singleton,h.holds.flat,h.pos,
      h.raw]
  · intro f hf
    rcases List.mem_append.mp hf with hf | hf
    · exact h.holds.filled f hf
    · rw [List.mem_singleton.mp hf,h.pos]
      apply List.ne_nil_of_length_pos
      omega
  · simp only [takeFragment,takeRecord,List.length_append,h.raw,hslice,h.holds.held]
  · intro n hn
    obtain ⟨hheader,rfl,hmax⟩ := h.holds.helloLen n hn
    refine ⟨?_,?_,hmax⟩
    · simp only [takeRecord,List.length_append]
      omega
    · exact (u24_append_left (by omega)).symm

/-- How the loops end that start in front of the same record. -/
theorem InStep.ended {limits : SniLimits} {buf : Bytes} (n : Nat) {t : Reading}
    {r : ClientHelloReader} (h : InStep limits buf t r) (hn : buf.length - r.pos = n) :
    Ended limits buf (readRecords buf limits t) r.advance.2 := by
  induction n using Nat.strong_induction_on generalizing t r with
  | _ n ih =>
    have hts := h.readRecord
    cases hrec : recordAt r.raw r.limits.maxRecords r.pos r.records with
    | more m =>
      rw [hrec] at hts
      rw [advance_stopped hrec rfl,readRecords_of_error hts]
      refine .more m ?_
      rintro ⟨k,read,hread,hcannot⟩
      have hk := le_of_recordsRead h.read (h.raw ▸ recordAt_more hrec) hread
      exact (h.unsettled k hk read hread).2 hcannot
    | refused reason =>
      rw [hrec] at hts
      rw [advance_stopped hrec rfl,readRecords_of_error hts]
      exact .refused reason reason
    | whole len =>
      rw [hrec] at hts
      obtain ⟨hlen,hpos,hle⟩ := recordAt_whole hrec
      have hne := takeRecord_ne_nil hpos hle
      rw [h.raw] at hlen hle
      have hholds := h.holds_take hpos hle
      have hread := recordsRead_succ h.read (hlen ▸ hle)
      dsimp only at hread
      rw [← hlen] at hread
      have hread' : recordsRead buf (takeRecord r len).records =
          some ⟨(takeRecord r len).handshake,(takeRecord r len).pos⟩ := by
        rw [show (takeRecord r len).handshake =
          r.handshake ++ slice buf (r.pos + 5) (r.pos + 5 + len) by rw [← h.raw]; rfl]
        exact hread
      have hboth := checkHello_checked hne h.limits_eq hholds (congrArg (· + 5 + len) h.pos)
      generalize hcheck : checkHello limits (takeFragment t buf len) = result at hboth
      generalize hstatus : (takeRecord r len).checkHello = status at hboth
      cases hboth with
      | refused reason =>
        rw [advance_stopped hrec (Prod.ext rfl hstatus),readRecords_of_error (hts.trans hcheck)]
        exact .refused reason reason
      | whole sni hwhole =>
        rw [advance_stopped hrec (Prod.ext rfl hstatus),readRecords_of_error (hts.trans hcheck)]
        refine .whole ⟨sni,_,_⟩ fun hpast => ⟨_,_,hread',hwhole,?_,hpast⟩
        intro j hj early hearly
        exact (h.unsettled j (Nat.le_of_lt_succ hj) early hearly).1
      | early reason hfit =>
        rw [advance_next hrec (Prod.ext rfl hstatus),readRecords_of_error (hts.trans hcheck)]
        refine .early reason _ ⟨_,_,hread',hfit⟩ fun info hinfo => ?_
        exact advance_past _ rfl hfit hinfo
      | next t' hholds' hpos' hrecords hwhole hfit =>
        rw [advance_next hrec (Prod.ext rfl hstatus),readRecords_of_ok (hts.trans hcheck)]
        have hnext : InStep limits buf t' (takeRecord r len) := {
          raw := h.raw
          limits_eq := h.limits_eq
          pos := hpos'.trans (congrArg (· + 5 + len) h.pos)
          records := hrecords.trans (congrArg (· + 1) h.records)
          holds := hholds'
          read := hread'
          unsettled := by
            intro j hj early hearly
            rcases Nat.lt_or_eq_of_le hj with hj | rfl
            · exact h.unsettled j (Nat.le_of_lt_succ hj) early hearly
            · rw [hread'] at hearly
              cases hearly
              exact ⟨hwhole,hfit⟩ }
        refine ih (buf.length - (r.pos + 5 + len)) ?_ hnext rfl
        omega

theorem advance_limits (n : Nat) {r : ClientHelloReader} (hn : r.raw.length - r.pos = n) :
    r.advance.1.limits = r.limits := by
  induction n using Nat.strong_induction_on generalizing r with
  | _ n ih =>
    cases hrec : recordAt r.raw r.limits.maxRecords r.pos r.records with
    | more m => rw [advance_stopped hrec rfl]
    | refused reason => rw [advance_stopped hrec rfl]
    | whole len =>
      obtain ⟨_,hpos,hle⟩ := recordAt_whole hrec
      cases hcheck : (takeRecord r len).checkHello with
      | some status =>
        rw [advance_stopped hrec (Prod.ext rfl hcheck)]
        rfl
      | none =>
        rw [advance_next hrec (Prod.ext rfl hcheck)]
        refine ih (r.raw.length - (r.pos + 5 + len)) ?_ rfl
        omega

/-- A status past the raw byte limit is a refusal. -/
def capped (maxRaw : Nat) : Relay.SniStatus → Relay.SniStatus
  | .needMore n => if maxRaw < n then .reject "ClientHello exceeds the peek limit" else .needMore n
  | .done info =>
    if maxRaw < info.consumed then .reject "ClientHello exceeds the peek limit" else .done info
  | .reject reason => .reject reason

/-- A reader holding a whole buffer it has not looked at. -/
def fed (limits : SniLimits) (buf : Bytes) : ClientHelloReader :=
  { ClientHelloReader.new (forRelay limits) with raw := buf }

theorem status_capped (r : ClientHelloReader) : (if r.isOver then
    { r with status := .reject "ClientHello exceeds the peek limit" } else r).status =
      capped r.limits.maxRawBytes r.status := by
  unfold ClientHelloReader.isOver
  cases hs : r.status with
  | needMore n => by_cases h : r.limits.maxRawBytes < n <;> simp [capped,h,hs]
  | reject reason => simp [capped,hs]
  | done info => by_cases h : r.limits.maxRawBytes < info.consumed <;> simp [capped,h,hs]

/-- One push of a whole buffer is the loop over its records, capped. -/
theorem parseClientHello_eq (limits : SniLimits) (buf : Bytes) :
    Relay.parseClientHello buf (forRelay limits) =
      capped limits.maxRawBytes (fed limits buf).advance.2 := by
  have hretry : (fed limits buf).retry.status = (fed limits buf).advance.2 ∧
      (fed limits buf).retry.limits = forRelay limits := by
    by_cases hlen : 5 ≤ buf.length
    · have h : (fed limits buf).retry =
          { (fed limits buf).advance.1 with status := (fed limits buf).advance.2 } := if_pos hlen
      rw [h]
      exact ⟨rfl,advance_limits _ rfl⟩
    · have h : (fed limits buf).retry = fed limits buf := if_neg hlen
      have hrec : recordAt buf limits.maxRecords 0 0 = .more 5 := if_pos (by omega)
      rw [h,advance_stopped (r := fed limits buf) hrec rfl]
      exact ⟨rfl,rfl⟩
  have hpush := status_capped (fed limits buf).retry
  exact hpush.trans (by rw [hretry.1,hretry.2]; rfl)

theorem inStep_start (limits : SniLimits) (buf : Bytes) :
    InStep limits buf .start (fed limits buf) where
  raw := rfl
  limits_eq := rfl
  pos := rfl
  records := rfl
  holds := ⟨rfl,by simp [Reading.start],rfl,by simp [Reading.start]⟩
  read := rfl
  unsettled := by
    intro j hj early hearly
    cases Nat.le_zero.mp hj
    cases hearly
    exact ⟨fun h => absurd h.1 (by simp),fun h => absurd h.1 (by simp)⟩

/-- Unless the hello is whole and the record that completes it ends past the raw byte
limit, the two readers give the same host name for the same bytes and refuse the same
bytes, apart from a hello announced too long for that limit: one reader refuses it at
once, the other may still ask for more of it. -/
theorem sni_readers_agree (limits : SniLimits) (buf : Bytes) :
    (EndsPast limits.maxRawBytes buf ∨
      (∀ sni,parseClientHelloSni buf limits = .ok sni ↔
        ∃ info,Relay.parseClientHello buf (forRelay limits) = .done info ∧ info.sni = sni) ∧
      ((∃ reason,parseClientHelloSni buf limits = .error reason) ↔
        (∃ reason,Relay.parseClientHello buf (forRelay limits) = .reject reason) ∨
        (∃ n,Relay.parseClientHello buf (forRelay limits) = .needMore n) ∧
          CannotFit limits.maxRawBytes buf)) ∧
    ∀ n,parseClientHelloSni buf limits = .incomplete n ↔
      Relay.parseClientHello buf (forRelay limits) = .needMore n ∧
        ¬CannotFit limits.maxRawBytes buf := by
  have hended := (inStep_start limits buf).ended _ rfl
  rw [parseClientHello_eq]
  unfold parseClientHelloSni
  generalize readRecords buf limits .start = result at hended
  generalize (fed limits buf).advance.2 = status at hended
  cases hended with
  | more n hfit =>
    unfold need capped
    dsimp only
    split
    · simp
    · simp [hfit]
  | refused reason reason' => simp [capped]
  | whole info hpast =>
    unfold capped
    dsimp only
    split
    · rename_i h
      simp [hpast h]
    · simp
  | early reason status hfit hpast =>
    cases status with
    | needMore n =>
      unfold capped
      dsimp only
      split <;> simp [hfit]
    | reject reason' => simp [capped]
    | done info => simp [capped,hpast info rfl]

/-- The first record of a hello announced too long for the raw byte limit. -/
def announced : Bytes := [22,3,1,0,4,1,0,0,60]

theorem sni_readers_differ :
    ¬((∃ reason,parseClientHelloSni announced ⟨50,100,10⟩ = .error reason) ↔
      ∃ reason,Relay.parseClientHello announced (forRelay ⟨50,100,10⟩) = .reject reason) := by
  have hfirst : recordAt announced 10 0 0 = .whole 4 := by decide
  have hts : parseClientHelloSni announced ⟨50,100,10⟩ =
      .error "ClientHello exceeds the peek limit" := by
    apply readRecords_of_error
    rw [readRecord_eq]
    change stepReading announced ⟨50,100,10⟩ .start (recordAt announced 10 0 0) = _
    rw [hfirst]
    simp [stepReading,checkHello,finishRecord,takeFragment,announced,Reading.start,u24,u16,joinPrefix,
      joinInto,slice,tlsHandshakeClientHello,handshakeHeader,tlsRecordHeader]
  have hadvance : (fed ⟨50,100,10⟩ announced).advance.2 = .needMore 14 := by
    have hsecond : recordAt announced 10 9 1 = .more 14 := by decide
    have hcheck : (takeRecord (fed ⟨50,100,10⟩ announced) 4).checkHello = none := by decide
    have hstep : stepReader (fed ⟨50,100,10⟩ announced) (.whole 4) =
        (takeRecord (fed ⟨50,100,10⟩ announced) 4,none) := congrArg (Prod.mk _) hcheck
    rw [advance_next (r := fed ⟨50,100,10⟩ announced) hfirst hstep,
      advance_stopped (r := takeRecord (fed ⟨50,100,10⟩ announced) 4) hsecond rfl]
  rw [hts,parseClientHello_eq,hadvance]
  simp [capped]

end Flagship.Tunnel.Proofs

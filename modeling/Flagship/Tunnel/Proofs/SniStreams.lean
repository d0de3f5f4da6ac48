import Flagship.Tunnel.Proofs.SniAgreement

namespace Flagship.Tunnel.Proofs
open Lib
open Relay (ClientHelloReader)

/-- A record that is not waited for is the same with more bytes behind it. -/
theorem recordAt_append {buf : Bytes} {maxRecords pos records : Nat} {out : RecordOutcome}
    (h : recordAt buf maxRecords pos records = out) (hout : ∀ n,out ≠ .more n) (m : Bytes) :
    recordAt (buf ++ m) maxRecords pos records = out := by
  unfold recordAt at h ⊢
  dsimp only at h ⊢
  by_cases hhdr : buf.length < pos + 5
  · rw [if_pos hhdr] at h
    exact absurd h.symm (hout _)
  have hlen : u16 (buf ++ m) (pos + 3) = u16 buf (pos + 3) := by
    rw [u16,u16,getD_append_left (by omega),getD_append_left (by omega)]
  have hty : (buf ++ m).getD pos 0 = buf.getD pos 0 := getD_append_left (by omega)
  rw [hlen,hty,if_neg (by rw [List.length_append]; omega)]
  rw [if_neg hhdr] at h
  split at h
  · rw [if_pos ‹_›]
    exact h
  rw [if_neg ‹_›]
  split at h
  · rw [if_pos ‹_›]
    exact h
  rw [if_neg ‹_›]
  split at h
  · rw [if_pos ‹_›]
    exact h
  rw [if_neg ‹_›]
  split at h
  · exact absurd h.symm (hout _)
  · rw [if_neg (by rw [List.length_append]; omega)]
    exact h

/-- A record that is waited for is waited for as long as it is not there. -/
theorem recordAt_append_more {buf : Bytes} {maxRecords pos records n : Nat}
    (h : recordAt buf maxRecords pos records = .more n) {m : Bytes} (hm : (buf ++ m).length < n) :
    recordAt (buf ++ m) maxRecords pos records = .more n := by
  unfold recordAt at h ⊢
  dsimp only at h ⊢
  by_cases hhdr : buf.length < pos + 5
  · rw [if_pos hhdr] at h
    cases h
    rw [if_pos hm]
  have hlen : u16 (buf ++ m) (pos + 3) = u16 buf (pos + 3) := by
    rw [u16,u16,getD_append_left (by omega),getD_append_left (by omega)]
  have hty : (buf ++ m).getD pos 0 = buf.getD pos 0 := getD_append_left (by omega)
  rw [hlen,hty,if_neg (by rw [List.length_append]; omega)]
  rw [if_neg hhdr] at h
  split at h
  · cases h
  rw [if_neg ‹_›]
  split at h
  · cases h
  rw [if_neg ‹_›]
  split at h
  · cases h
  rw [if_neg ‹_›]
  split at h
  · cases h
    rw [if_pos hm]
  · split at h <;> cases h

/-- What is waited for is not there yet, and ends past the record's header. -/
theorem recordAt_more_bounds {buf : Bytes} {maxRecords pos records n : Nat}
    (h : recordAt buf maxRecords pos records = .more n) : buf.length < n ∧ pos + 5 ≤ n ∧
      (n = pos + 5 ∨ pos + 5 ≤ buf.length ∧ ∀ m,pos + 5 + u16 (buf ++ m) (pos + 3) = n) := by
  unfold recordAt at h
  dsimp only at h
  split at h
  · cases h
    exact ⟨‹_›,Nat.le_refl _,.inl rfl⟩
  next hhdr =>
    split at h
    · cases h
    split at h
    · cases h
    split at h
    · cases h
    split at h
    · next hlt =>
      cases h
      refine ⟨hlt,Nat.le_add_right _ _,.inr ⟨by omega,fun m => ?_⟩⟩
      rw [u16,u16,getD_append_left (by omega),getD_append_left (by omega)]
    · split at h <;> cases h

/-- A reader whose buffer has more bytes at its end. -/
def extend (r : ClientHelloReader) (m : Bytes) : ClientHelloReader := { r with raw := r.raw ++ m }

theorem takeRecord_extend {r : ClientHelloReader} {len : Nat} (h : r.pos + 5 + len ≤ r.raw.length)
    (m : Bytes) : takeRecord (extend r m) len = extend (takeRecord r len) m := by
  simp only [takeRecord,extend,slice_append_left h]

/-- A hello that is looked at is settled or needs another record. -/
theorem checkHello_settles {r : ClientHelloReader} {status : Relay.SniStatus}
    (h : r.checkHello = some status) : (∃ reason,status = .reject reason) ∨
      ∃ sni,status = .done ⟨sni,r.records,r.pos⟩ := by
  unfold ClientHelloReader.checkHello at h
  split at h
  · cases h
    exact .inl ⟨_,rfl⟩
  split at h
  · cases h
  split at h
  · cases h
    exact .inl ⟨_,rfl⟩
  split at h
  · cases h
  split at h
  · cases h
    exact .inr ⟨_,rfl⟩
  · cases h
    exact .inl ⟨_,rfl⟩

theorem advance_raw (n : Nat) {r : ClientHelloReader} (hn : r.raw.length - r.pos = n) :
    r.advance.1.raw = r.raw := by
  induction n using Nat.strong_induction_on generalizing r with
  | _ n ih =>
    cases hrec : recordAt r.raw r.limits.maxRecords r.pos r.records with
    | more m => rw [advance_stopped hrec rfl]
    | refused reason => rw [advance_stopped hrec rfl]
    | whole len =>
      obtain ⟨_,hpos,hle⟩ := recordAt_whole hrec
      cases hcheck : (takeRecord r len).checkHello with
      | some status =>
        rw [advance_stopped hrec (Prod.ext rfl hcheck)]
        rfl
      | none =>
        rw [advance_next hrec (Prod.ext rfl hcheck)]
        refine ih (r.raw.length - (r.pos + 5 + len)) ?_ rfl
        omega

/-- How the loop ends on a buffer and on the buffer with more bytes: it is settled alike,
or it goes on from where it waited. -/
inductive Goes (r : ClientHelloReader) (m : Bytes) : Prop
  | on (k : Nat) (hstatus : r.advance.2 = .needMore k)
    (hrec : recordAt r.raw r.limits.maxRecords r.advance.1.pos r.advance.1.records = .more k)
    (hext : (extend r m).advance.2 = (extend r.advance.1 m).advance.2) : Goes r m
  | settled (hstatus : ∀ k,r.advance.2 ≠ .needMore k)
    (hext : (extend r m).advance.2 = r.advance.2) : Goes r m

theorem advance_extend (n : Nat) {r : ClientHelloReader} (hn : r.raw.length - r.pos = n)
    (m : Bytes) : Goes r m := by
  induction n using Nat.strong_induction_on generalizing r with
  | _ n ih =>
    cases hrec : recordAt r.raw r.limits.maxRecords r.pos r.records with
    | more k =>
      have hadv : r.advance = (r,.needMore k) := advance_stopped hrec rfl
      refine .on k (by rw [hadv]) (by rw [hadv]; exact hrec) (by rw [hadv])
    | refused reason =>
      have hadv : r.advance = (r,.reject reason) := advance_stopped hrec rfl
      have hrec' := recordAt_append hrec nofun m
      have hadv' : (extend r m).advance = (extend r m,.reject reason) :=
        advance_stopped (r := extend r m) hrec' rfl
      exact .settled (by rw [hadv]; exact nofun) (by rw [hadv,hadv'])
    | whole len =>
      obtain ⟨_,hpos,hle⟩ := recordAt_whole hrec
      have hrec' := recordAt_append hrec nofun m
      have htake := takeRecord_extend hle m
      cases hcheck : (takeRecord r len).checkHello with
      | some status =>
        have hadv : r.advance = (takeRecord r len,status) :=
          advance_stopped hrec (Prod.ext rfl hcheck)
        have hcheck' : (takeRecord (extend r m) len).checkHello = some status := by
          rw [htake]
          exact hcheck
        have hadv' : (extend r m).advance = (takeRecord (extend r m) len,status) :=
          advance_stopped (r := extend r m) hrec' (Prod.ext rfl hcheck')
        refine .settled ?_ (by rw [hadv,hadv'])
        rw [hadv]
        intro k hk
        rcases checkHello_settles hcheck with ⟨reason,rfl⟩ | ⟨sni,rfl⟩ <;> cases hk
      | none =>
        have hadv : r.advance = (takeRecord r len).advance :=
          advance_next hrec (Prod.ext rfl hcheck)
        have hcheck' : (takeRecord (extend r m) len).checkHello = none := by
          rw [htake]
          exact hcheck
        have hadv' : (extend r m).advance = (extend (takeRecord r len) m).advance := by
          rw [← htake]
          exact advance_next (r := extend r m) hrec' (Prod.ext rfl hcheck')
        cases ih (r.raw.length - (r.pos + 5 + len)) (by omega) (r := takeRecord r len) rfl with
        | on k hstatus hrec'' hext =>
          exact .on k (hadv ▸ hstatus) (hadv ▸ hrec'') (by rw [hadv',hadv]; exact hext)
        | settled hstatus hext =>
          exact .settled (hadv ▸ hstatus) (by rw [hadv',hadv]; exact hext)

/-- The loop settles a hello, or asks for more, past the header of the record it starts at. -/
theorem advance_bound (n : Nat) {r : ClientHelloReader} (hn : r.raw.length - r.pos = n) :
    (∀ k,r.advance.2 = .needMore k → r.pos + 5 ≤ k) ∧
    ∀ info,r.advance.2 = .done info → r.pos + 5 ≤ info.consumed := by
  induction n using Nat.strong_induction_on generalizing r with
  | _ n ih =>
    cases hrec : recordAt r.raw r.limits.maxRecords r.pos r.records with
    | more k =>
      rw [advance_stopped hrec rfl]
      refine ⟨fun k' h => ?_,nofun⟩
      cases h
      exact (recordAt_more_bounds hrec).2.1
    | refused reason =>
      rw [advance_stopped hrec rfl]
      exact ⟨nofun,nofun⟩
    | whole len =>
      obtain ⟨_,hpos,hle⟩ := recordAt_whole hrec
      cases hcheck : (takeRecord r len).checkHello with
      | some status =>
        rw [advance_stopped hrec (Prod.ext rfl hcheck)]
        rcases checkHello_settles hcheck with ⟨reason,rfl⟩ | ⟨sni,rfl⟩
        · exact ⟨nofun,nofun⟩
        · refine ⟨nofun,fun info h => ?_⟩
          cases h
          simp only [takeRecord]
          omega
      | none =>
        rw [advance_next hrec (Prod.ext rfl hcheck)]
        obtain ⟨hmore,hdone⟩ :=
          ih (r.raw.length - (r.pos + 5 + len)) (by omega) (r := takeRecord r len) rfl
        simp only [takeRecord] at hmore hdone
        exact ⟨fun k h => by have := hmore k h; omega,fun info h => by have := hdone info h; omega⟩

def Refused (status : Relay.SniStatus) : Prop := ∃ reason,status = .reject reason

theorem refused_capped {maxRaw : Nat} {status : Relay.SniStatus}
    (hmore : ∀ k,status = .needMore k → maxRaw < k)
    (hdone : ∀ info,status = .done info → maxRaw < info.consumed) :
    Refused (capped maxRaw status) := by
  cases status with
  | needMore k => exact ⟨_,if_pos (hmore k rfl)⟩
  | reject reason => exact ⟨reason,rfl⟩
  | done info => exact ⟨_,if_pos (hdone info rfl)⟩

/-- A record that ends past the raw byte limit leads to a refusal, whatever comes. -/
theorem refused_past {r : ClientHelloReader} {maxRaw k : Nat}
    (hrec : recordAt r.raw r.limits.maxRecords r.pos r.records = .more k) (hk : maxRaw < k)
    (m : Bytes) : Refused (capped maxRaw (extend r m).advance.2) := by
  obtain ⟨hshort,_,hwhere⟩ := recordAt_more_bounds hrec
  rcases hwhere with rfl | ⟨hheader,hlen⟩
  · -- not even the header fits
    obtain ⟨hmore,hdone⟩ := advance_bound _ (r := extend r m) rfl
    refine refused_capped (fun k h => ?_) (fun info h => ?_)
    · have := hmore k h
      simp only [extend] at this
      omega
    · have := hdone info h
      simp only [extend] at this
      omega
  · cases hext : recordAt (extend r m).raw (extend r m).limits.maxRecords (extend r m).pos
      (extend r m).records with
    | more k' =>
      rw [advance_stopped hext rfl]
      obtain ⟨hshort',_,hwhere'⟩ := recordAt_more_bounds hext
      refine refused_capped (fun k₁ h => ?_) nofun
      cases h
      rcases hwhere' with rfl | ⟨_,hlen'⟩
      · simp only [extend,List.length_append] at hshort'
        omega
      · have h₁ := hlen m
        have h₂ := hlen' []
        simp only [extend,List.append_nil] at h₂
        omega
    | refused reason =>
      rw [advance_stopped hext rfl]
      exact ⟨reason,rfl⟩
    | whole len =>
      obtain ⟨hlen',hpos,hle⟩ := recordAt_whole hext
      have hend : r.pos + 5 + len = k := by
        rw [hlen']
        exact hlen m
      cases hcheck : (takeRecord (extend r m) len).checkHello with
      | some status =>
        rw [advance_stopped hext (Prod.ext rfl hcheck)]
        rcases checkHello_settles hcheck with ⟨reason,rfl⟩ | ⟨sni,rfl⟩
        · exact ⟨reason,rfl⟩
        · refine refused_capped nofun (fun info h => ?_)
          cases h
          simp only [takeRecord,extend]
          omega
      | none =>
        rw [advance_next hext (Prod.ext rfl hcheck)]
        obtain ⟨hmore,hdone⟩ := advance_bound _ (r := takeRecord (extend r m) len) rfl
        simp only [takeRecord,extend] at hmore hdone
        refine refused_capped (fun k₁ h => ?_) (fun info h => ?_)
        · have := hmore k₁ h
          omega
        · have := hdone info h
          omega

/-- A reader that was not pushed anything. -/
def unread (limits : Relay.SniLimits) (buf : Bytes) : ClientHelloReader :=
  { ClientHelloReader.new limits with raw := buf }

/-- A reader that was pushed some bytes stands where a push of all of them at once leads,
whatever follows them. -/
structure Tracks (limits : Relay.SniLimits) (bytes : Bytes) (r : ClientHelloReader) : Prop where
  raw : r.raw = bytes
  limits_eq : r.limits = limits
  waits : ∀ n,r.status = .needMore n →
    recordAt bytes limits.maxRecords r.pos r.records = .more n ∧
    (bytes ≠ [] → n ≤ limits.maxRawBytes) ∧
    ∀ m,(unread limits (bytes ++ m)).advance.2 = (extend r m).advance.2
  whole : ∀ info,r.status = .done info → info.consumed ≤ limits.maxRawBytes ∧
    ∀ m,(unread limits (bytes ++ m)).advance.2 = .done info
  refused : Refused r.status →
    ∀ m,Refused (capped limits.maxRawBytes (unread limits (bytes ++ m)).advance.2)

theorem tracks_new (limits : Relay.SniLimits) : Tracks limits [] (.new limits) where
  raw := rfl
  limits_eq := rfl
  waits := by
    intro n h
    cases h
    exact ⟨rfl,fun h => absurd rfl h,fun _ => rfl⟩
  whole := nofun
  refused := by
    rintro ⟨reason,h⟩
    cases h

/-- The loop does not look at the status. -/
theorem advance_status (n : Nat) {r : ClientHelloReader} (hn : r.raw.length - r.pos = n)
    (status : Relay.SniStatus) : ({ r with status := status }).advance.2 = r.advance.2 := by
  induction n using Nat.strong_induction_on generalizing r with
  | _ n ih =>
    generalize hs : ({ r with status := status } : ClientHelloReader) = s
    have hraw : s.raw = r.raw := by rw [← hs]
    have htake : ∀ len,takeRecord s len = { takeRecord r len with status := status } := by
      intro len
      rw [← hs]
      rfl
    cases hrec : recordAt r.raw r.limits.maxRecords r.pos r.records with
    | more m =>
      have hrec' : recordAt s.raw s.limits.maxRecords s.pos s.records = .more m := by
        rw [← hs]
        exact hrec
      rw [advance_stopped hrec rfl,advance_stopped hrec' rfl]
    | refused reason =>
      have hrec' : recordAt s.raw s.limits.maxRecords s.pos s.records = .refused reason := by
        rw [← hs]
        exact hrec
      rw [advance_stopped hrec rfl,advance_stopped hrec' rfl]
    | whole len =>
      obtain ⟨_,hpos,hle⟩ := recordAt_whole hrec
      have hrec' : recordAt s.raw s.limits.maxRecords s.pos s.records = .whole len := by
        rw [← hs]
        exact hrec
      have hsame : (takeRecord s len).checkHello = (takeRecord r len).checkHello := by
        rw [htake]
        rfl
      cases hcheck : (takeRecord r len).checkHello with
      | some status' =>
        rw [advance_stopped hrec (Prod.ext rfl hcheck),
          advance_stopped hrec' (Prod.ext rfl (hsame.trans hcheck))]
      | none =>
        rw [advance_next hrec (Prod.ext rfl hcheck),
          advance_next hrec' (Prod.ext rfl (hsame.trans hcheck))]
        change (takeRecord s len).advance.2 = (takeRecord r len).advance.2
        rw [htake]
        refine ih (r.raw.length - (r.pos + 5 + len)) (by omega) ?_
        rfl

/-- The last step of a push. -/
def cap (r : ClientHelloReader) : ClientHelloReader :=
  if r.isOver then { r with status := .reject "ClientHello exceeds the peek limit" } else r

theorem cap_fields (r : ClientHelloReader) : (cap r).raw = r.raw ∧ (cap r).limits = r.limits ∧
    (cap r).pos = r.pos ∧ (cap r).records = r.records ∧
    (cap r).status = capped r.limits.maxRawBytes r.status ∧
    ∀ m,(extend (cap r) m).advance.2 = (extend r m).advance.2 := by
  have hstatus := status_capped r
  unfold cap
  split
  · next hover =>
    rw [if_pos hover] at hstatus
    refine ⟨rfl,rfl,rfl,rfl,hstatus,fun m => ?_⟩
    exact advance_status _ (r := extend r m) rfl _
  · next hover =>
    rw [if_neg hover] at hstatus
    exact ⟨rfl,rfl,rfl,rfl,hstatus,fun _ => rfl⟩

/-- A reader that looked at its buffer again. -/
theorem tracks_of_advance {limits : Relay.SniLimits} {bytes : Bytes} {a : ClientHelloReader}
    (hraw : a.raw = bytes) (hlimits : a.limits = limits)
    (hsame : ∀ m,(unread limits (bytes ++ m)).advance.2 = (extend a m).advance.2) :
    Tracks limits bytes (cap { a.advance.1 with status := a.advance.2 }) := by
  have hraw' : a.advance.1.raw = bytes := (advance_raw _ rfl).trans hraw
  have hlimits' : a.advance.1.limits = limits := (advance_limits _ rfl).trans hlimits
  obtain ⟨hcraw,hclimits,hcpos,hcrecords,hcstatus,hcext⟩ :=
    cap_fields { a.advance.1 with status := a.advance.2 }
  have hext : ∀ m,(extend (cap { a.advance.1 with status := a.advance.2 }) m).advance.2 =
      (extend a.advance.1 m).advance.2 := by
    intro m
    rw [hcext]
    exact advance_status _ (r := extend a.advance.1 m) rfl _
  refine ⟨hcraw.trans hraw',hclimits.trans hlimits',?_,?_,?_⟩
  · intro n hn
    rw [hcstatus,hlimits'] at hn
    rw [hcpos,hcrecords]
    cases hadv : a.advance.2 with
    | reject reason => simp [hadv,capped] at hn
    | done info =>
      simp only [hadv,capped] at hn
      split at hn <;> cases hn
    | needMore k =>
      simp only [hadv,capped] at hn
      split at hn
      · cases hn
      next hk =>
        cases hn
        have hgoes : ∀ m,recordAt bytes limits.maxRecords a.advance.1.pos a.advance.1.records =
            .more n ∧ (extend a m).advance.2 = (extend a.advance.1 m).advance.2 := by
          intro m
          cases advance_extend _ (r := a) rfl m with
          | on k' hstatus hrec hgo =>
            rw [hadv] at hstatus
            cases hstatus
            rw [hraw,hlimits] at hrec
            exact ⟨hrec,hgo⟩
          | settled hstatus _ => exact absurd hadv (hstatus n)
        refine ⟨(hgoes []).1,fun _ => Nat.le_of_not_lt hk,fun m => ?_⟩
        rw [hsame,(hgoes m).2,← hadv,hext]
  · intro info hinfo
    rw [hcstatus,hlimits'] at hinfo
    cases hadv : a.advance.2 with
    | reject reason => simp [hadv,capped] at hinfo
    | needMore k =>
      simp only [hadv,capped] at hinfo
      split at hinfo <;> cases hinfo
    | done info' =>
      simp only [hadv,capped] at hinfo
      split at hinfo
      · cases hinfo
      next hle =>
        cases hinfo
        refine ⟨Nat.le_of_not_lt hle,fun m => ?_⟩
        cases advance_extend _ (r := a) rfl m with
        | on k hstatus _ _ =>
          rw [hadv] at hstatus
          cases hstatus
        | settled _ hgo => rw [hsame,hgo,hadv]
  · intro hrefused m
    rw [hcstatus,hlimits'] at hrefused
    rw [hsame]
    cases advance_extend _ (r := a) rfl m with
    | settled _ hgo =>
      rw [hgo]
      exact hrefused
    | on k hstatus hrec hgo =>
      rw [hgo]
      have hk : limits.maxRawBytes < k := by
        by_contra hle
        obtain ⟨reason,hreason⟩ := hrefused
        simp [hstatus,capped,hle] at hreason
      refine refused_past (k := k) ?_ hk m
      rw [advance_raw _ rfl,advance_limits _ rfl]
      exact hrec

/-- A push leaves the reader where all bytes at once lead. -/
theorem Tracks.push {limits : Relay.SniLimits} {bytes data : Bytes} {r : ClientHelloReader}
    (h : Tracks limits bytes r) : Tracks limits (bytes ++ data) (r.push data) := by
  have hpush : r.push data = cap (extend r data).retry := rfl
  have hraw : (extend r data).raw = bytes ++ data := by rw [extend,h.raw]
  have hstatus : (extend r data).status = r.status := rfl
  rw [hpush]
  cases hs : r.status with
  | needMore n =>
    obtain ⟨hrec,_,hsame⟩ := h.waits n hs
    have hretry : (extend r data).retry =
        { (extend r data).advance.1 with status := (extend r data).advance.2 } := by
      unfold ClientHelloReader.retry
      rw [hstatus,hs]
      dsimp only
      by_cases hlen : n ≤ (extend r data).raw.length
      · rw [if_pos hlen]
      · have hrec' : recordAt (extend r data).raw (extend r data).limits.maxRecords
            (extend r data).pos (extend r data).records = .more n := by
          rw [hraw]
          refine recordAt_append_more (m := data) ?_ (by rw [← hraw]; omega)
          simp only [extend,h.limits_eq]
          exact hrec
        rw [if_neg hlen,advance_stopped hrec' rfl,← hs]
        rfl
    rw [hretry]
    refine tracks_of_advance hraw h.limits_eq fun m => ?_
    rw [List.append_assoc,hsame]
    simp only [extend,List.append_assoc]
  | done info =>
    obtain ⟨hle,hsame⟩ := h.whole info hs
    have hretry : (extend r data).retry = extend r data := by
      unfold ClientHelloReader.retry
      rw [hstatus,hs]
    have hcap : cap (extend r data) = extend r data := by
      refine if_neg ?_
      simp only [ClientHelloReader.isOver,hs,decide_eq_true_eq,extend,h.limits_eq]
      omega
    rw [hretry,hcap]
    refine ⟨hraw,h.limits_eq,?_,?_,?_⟩
    · intro n hn
      rw [hstatus,hs] at hn
      cases hn
    · intro info' hinfo
      rw [hstatus,hs] at hinfo
      cases hinfo
      exact ⟨hle,fun m => by rw [List.append_assoc]; exact hsame _⟩
    · rintro ⟨reason,hreason⟩
      rw [hstatus,hs] at hreason
      cases hreason
  | reject reason =>
    have hretry : (extend r data).retry = extend r data := by
      unfold ClientHelloReader.retry
      rw [hstatus,hs]
    have hcap : cap (extend r data) = extend r data := by
      refine if_neg ?_
      simp [ClientHelloReader.isOver,hstatus,hs]
    rw [hretry,hcap]
    refine ⟨hraw,h.limits_eq,?_,?_,?_⟩
    · intro n hn
      rw [hstatus,hs] at hn
      cases hn
    · intro info hinfo
      rw [hstatus,hs] at hinfo
      cases hinfo
    · intro _ m
      rw [List.append_assoc]
      exact h.refused ⟨reason,hs⟩ _

/-- The reader after some pushes. -/
def pushed (limits : Relay.SniLimits) (pushes : List Bytes) : ClientHelloReader :=
  pushes.foldl ClientHelloReader.push (.new limits)

theorem tracks_pushed {limits : Relay.SniLimits} {bytes : Bytes} {r : ClientHelloReader}
    (h : Tracks limits bytes r) (pushes : List Bytes) :
    Tracks limits (bytes ++ pushes.flatten) (pushes.foldl ClientHelloReader.push r) := by
  induction pushes generalizing bytes r with
  | nil => simpa using h
  | cons p pushes ih =>
    rw [List.foldl_cons,List.flatten_cons,← List.append_assoc]
    exact ih h.push

/-- The same end: the same hello, a refusal, or a wait for the same bytes. -/
def SameEnd : Relay.SniStatus → Relay.SniStatus → Prop
  | .done info,.done info' => info = info'
  | .reject _,.reject _ => True
  | .needMore n,.needMore m => n = m
  | _,_ => False

theorem SameEnd.trans_symm {a b c : Relay.SniStatus} (h : SameEnd a c) (h' : SameEnd b c) :
    SameEnd a b := by
  cases a <;> cases b <;> cases c <;> simp_all [SameEnd]

/-- A reader that was pushed something ends as one push of all of it does. -/
theorem Tracks.sameEnd {limits : Relay.SniLimits} {bytes : Bytes} {r : ClientHelloReader}
    (h : Tracks limits bytes r) (hne : bytes ≠ []) :
    SameEnd r.status (capped limits.maxRawBytes (unread limits bytes).advance.2) := by
  cases hs : r.status with
  | needMore n =>
    obtain ⟨hrec,hle,hsame⟩ := h.waits n hs
    have hadv := hsame []
    have hext : extend r [] = r := by simp [extend]
    have hrec' : recordAt r.raw r.limits.maxRecords r.pos r.records = .more n := by
      rw [h.raw,h.limits_eq]
      exact hrec
    rw [List.append_nil,hext,advance_stopped hrec' rfl] at hadv
    rw [hadv,capped,if_neg (Nat.not_lt.mpr (hle hne))]
    exact rfl
  | done info =>
    obtain ⟨hle,hsame⟩ := h.whole info hs
    have hadv := hsame []
    rw [List.append_nil] at hadv
    rw [hadv,capped,if_neg (Nat.not_lt.mpr hle)]
    exact rfl
  | reject reason =>
    obtain ⟨reason',hreason⟩ := h.refused ⟨reason,hs⟩ []
    rw [List.append_nil] at hreason
    rw [hreason]
    exact trivial

/-- However the bytes of a connection are cut into pushes, the reader ends with the same
hello, refuses them all the same, or waits for the same bytes. -/
theorem sni_reading_ignores_cuts (limits : Relay.SniLimits) (pushes pushes' : List Bytes)
    (hne : ∀ p ∈ pushes,p ≠ []) (hne' : ∀ p ∈ pushes',p ≠ [])
    (hsame : pushes.flatten = pushes'.flatten) :
    SameEnd (pushed limits pushes).status (pushed limits pushes').status := by
  have htracks := tracks_pushed (tracks_new limits) pushes
  have htracks' := tracks_pushed (tracks_new limits) pushes'
  rw [List.nil_append] at htracks htracks'
  by_cases hbytes : pushes.flatten = []
  · -- no bytes at all: there was no push
    have hnil : ∀ l : List Bytes,(∀ p ∈ l,p ≠ []) → l.flatten = [] → l = [] := by
      intro l hl hflat
      cases l with
      | nil => rfl
      | cons p l =>
        have hp := List.flatten_eq_nil_iff.mp hflat p List.mem_cons_self
        exact absurd hp (hl p List.mem_cons_self)
    rw [hnil pushes hne hbytes,hnil pushes' hne' (hsame ▸ hbytes)]
    exact rfl
  · rw [← hsame] at htracks'
    exact (htracks.sameEnd hbytes).trans_symm (htracks'.sameEnd hbytes)

/-- A hello without a server name, in two records. -/
def twoRecords : Bytes :=
  [0x16,3,1,0,2,1,0,0x16,3,1,0,43,0,41] ++ List.replicate 34 0 ++ [0,0,2,0x13,1,1,0]

set_option maxRecDepth 2000 in
theorem sni_reading_ignores_cuts_once :
    (pushed ⟨100,64,2⟩ (twoRecords.map fun b => [b])).status = .done ⟨none,2,55⟩ ∧
    SameEnd (pushed ⟨100,64,2⟩ (twoRecords.map fun b => [b])).status
      (pushed ⟨100,64,2⟩ [twoRecords.take 8,twoRecords.drop 8]).status := by
  refine ⟨by decide +kernel,?_⟩
  exact sni_reading_ignores_cuts ⟨100,64,2⟩ (twoRecords.map fun b => [b])
    [twoRecords.take 8,twoRecords.drop 8] (by decide +kernel) (by decide +kernel)
    (by decide +kernel)

/-- A TLS handshake record: its version bytes and the fragment it carries. -/
structure HandshakeRecord where
  version : UInt8 × UInt8
  fragment : Bytes
  filled : fragment ≠ []
  fits : fragment.length ≤ maxRecordLen

def HandshakeRecord.encode (r : HandshakeRecord) : Bytes :=
  tlsRecordHandshake :: r.version.1 :: r.version.2 :: beBytes 2 r.fragment.length ++ r.fragment

/-- A ClientHello handshake message. -/
structure HelloMessage where
  body : Bytes
  fits : body.length < 2 ^ 24

def HelloMessage.bytes (m : HelloMessage) : Bytes :=
  tlsHandshakeClientHello :: beBytes 3 m.body.length ++ m.body

/-- What records carry, one after another. -/
def carried (records : List HandshakeRecord) : Bytes := records.flatMap HandshakeRecord.fragment

def encoded (records : List HandshakeRecord) : Bytes := records.flatMap HandshakeRecord.encode

theorem HandshakeRecord.length_encode (r : HandshakeRecord) :
    r.encode.length = 5 + r.fragment.length := by
  simp [encode]
  omega

theorem length_encoded (records : List HandshakeRecord) :
    (encoded records).length = 5 * records.length + (carried records).length := by
  induction records with
  | nil => rfl
  | cons r records ih =>
    have hr := r.length_encode
    simp only [encoded,carried,List.flatMap_cons,List.length_append,List.length_cons] at ih ⊢
    omega

theorem carried_eq_nil {records : List HandshakeRecord} (h : carried records = []) :
    records = [] := by
  cases records with
  | nil => rfl
  | cons r records =>
    rw [carried,List.flatMap_cons] at h
    exact absurd (List.append_eq_nil_iff.mp h).1 r.filled

section
variable (before after : Bytes) (r : HandshakeRecord)

theorem getD_at_record (i : Nat) (hi : i < r.encode.length) :
    (before ++ (r.encode ++ after)).getD (before.length + i) 0 = r.encode.getD i 0 := by
  simp only [List.getD_eq_getElem?_getD]
  rw [List.getElem?_append_right (Nat.le_add_right _ _),Nat.add_sub_cancel_left,
    List.getElem?_append_left hi]

theorem u16_at_record :
    u16 (before ++ (r.encode ++ after)) (before.length + 3) = r.fragment.length := by
  have hlen := r.length_encode
  have hfits := r.fits
  rw [maxRecordLen] at hfits
  rw [u16,Nat.add_assoc,getD_at_record _ _ _ _ (by omega),getD_at_record _ _ _ _ (by omega)]
  simp only [HandshakeRecord.encode,beBytes,List.cons_append,List.getD_cons_succ,
    List.getD_cons_zero,UInt8.toNat_ofNat']
  omega

theorem slice_at_record : slice (before ++ (r.encode ++ after)) (before.length + 5)
    (before.length + 5 + r.fragment.length) = r.fragment := by
  rw [slice,Nat.add_sub_cancel_left,List.drop_append,List.drop_of_length_le (by omega),
    Nat.add_sub_cancel_left,List.nil_append]
  simp [HandshakeRecord.encode,beBytes]

/-- The loop finds a record where it stands. -/
theorem recordAt_record {maxRecords records : Nat} (h : records < maxRecords) :
    recordAt (before ++ (r.encode ++ after)) maxRecords before.length records =
      .whole r.fragment.length := by
  have hlen := r.length_encode
  have hpos := List.length_pos_iff.mpr r.filled
  have hty : (before ++ (r.encode ++ after)).getD before.length 0 = tlsRecordHandshake :=
    getD_at_record before after r 0 (by omega)
  unfold recordAt
  dsimp only
  rw [hty,u16_at_record,if_neg (by simp only [List.length_append]; omega),if_neg (by simp),
    if_neg (Nat.ne_of_gt hpos),if_neg (Nat.not_lt.mpr r.fits),
    if_neg (by simp only [List.length_append]; omega),if_neg (Nat.not_le.mpr h)]

end

section
variable (m : HelloMessage)

theorem HelloMessage.length_bytes : m.bytes.length = 4 + m.body.length := by
  simp [bytes]
  omega

theorem HelloMessage.u24_bytes : u24 m.bytes 1 = m.body.length := by
  have hfits := m.fits
  rw [u24,u16]
  simp only [bytes,beBytes,List.cons_append,List.getD_cons_succ,List.getD_cons_zero,
    UInt8.toNat_ofNat']
  omega

theorem HelloMessage.slice_bytes : slice m.bytes 4 (4 + m.body.length) = m.body := by
  rw [slice,Nat.add_sub_cancel_left]
  simp [bytes,beBytes]

variable {m} {limits : SniLimits} (hmax : m.body.length ≤ limits.maxHelloBytes) {t : Reading}
include hmax

/-- An iteration whose records carry the whole message walks over its body. -/
theorem checkHello_whole (h : Holds limits.maxHelloBytes t m.bytes) :
    checkHello limits t = .error (parseClientHelloBody m.body) := by
  have hlen := m.length_bytes
  have hfinish : finishRecord limits t m.body.length = .error (parseClientHelloBody m.body) := by
    unfold finishRecord
    rw [show handshakeHeader = 4 from rfl,h.held,hlen,if_pos (Nat.le_refl _)]
    dsimp only
    rw [h.message (Nat.le_of_eq hlen.symm),m.slice_bytes]
  unfold checkHello
  rw [h.first,if_neg (by simp [HelloMessage.bytes])]
  cases hlen' : t.helloLen with
  | some n =>
    obtain ⟨_,rfl,_⟩ := h.helloLen n hlen'
    dsimp only
    rw [m.u24_bytes,hfinish]
  | none =>
    have hheader : 4 ≤ t.held := by rw [h.held]; omega
    have hjoin : u24 (joinPrefix t.fragments 4) 1 = m.body.length := by
      rw [joinPrefix_eq (by rw [h.flat]; omega),h.flat,u24_take (by omega),m.u24_bytes]
    dsimp only
    rw [show handshakeHeader = 4 from rfl,if_pos hheader,hjoin,if_neg (Nat.not_lt.mpr hmax),
      hfinish]

/-- An iteration whose records carry a part of the message reads on, if the rest fits the
raw byte limit. -/
theorem checkHello_part {part rest : Bytes} (h : Holds limits.maxHelloBytes t part)
    (hpart : part ≠ []) (hm : part ++ rest = m.bytes) (hrest : rest ≠ [])
    (hraw : t.pos + 5 + rest.length ≤ limits.maxRawBytes) :
    ∃ helloLen,checkHello limits t = .ok { t with helloLen := helloLen } ∧
      Holds limits.maxHelloBytes { t with helloLen := helloLen } part := by
  have hlen := m.length_bytes
  have hpos := List.length_pos_iff.mpr hpart
  have hpos' := List.length_pos_iff.mpr hrest
  rw [← hm,List.length_append] at hlen
  have htype : part.getD 0 0 = tlsHandshakeClientHello := by
    have happend : (part ++ rest).getD 0 0 = part.getD 0 0 := getD_append_left hpos
    rw [← happend,hm]
    rfl
  have hu24 : 4 ≤ part.length → u24 part 1 = m.body.length := by
    intro hheader
    have happend : u24 (part ++ rest) 1 = u24 part 1 := u24_append_left (by omega)
    rw [← happend,hm,m.u24_bytes]
  have hfinish : finishRecord limits t m.body.length =
      .ok { t with helloLen := some m.body.length } := by
    unfold finishRecord
    rw [show handshakeHeader = 4 from rfl,show tlsRecordHeader = 5 from rfl,h.held,
      if_neg (by omega),if_neg (by omega)]
  have hknown : 4 ≤ part.length →
      Holds limits.maxHelloBytes { t with helloLen := some m.body.length } part := by
    intro hheader
    refine ⟨h.flat,h.filled,h.held,?_⟩
    intro n hn
    cases hn
    exact ⟨hheader,(hu24 hheader).symm,hmax⟩
  unfold checkHello
  rw [h.first,if_neg (not_not.mpr htype)]
  cases hlen' : t.helloLen with
  | some n =>
    obtain ⟨hheader,rfl,_⟩ := h.helloLen n hlen'
    dsimp only
    rw [hu24 hheader]
    exact ⟨_,hfinish,hknown hheader⟩
  | none =>
    have hheld := h.held
    dsimp only
    rw [show handshakeHeader = 4 from rfl]
    by_cases hheader : 4 ≤ t.held
    · have hheader' : 4 ≤ part.length := by omega
      have hjoin : u24 (joinPrefix t.fragments 4) 1 = m.body.length := by
        rw [joinPrefix_eq (by rwa [h.flat]),h.flat,u24_take (by omega),hu24 hheader']
      rw [if_pos hheader,hjoin,if_neg (Nat.not_lt.mpr hmax)]
      exact ⟨_,hfinish,hknown hheader'⟩
    · rw [if_neg hheader]
      exact ⟨t.helloLen,rfl,h⟩

end

/-- The loop in front of a record, with those before it read. -/
structure Midway (maxHello : Nat) (before : List HandshakeRecord) (t : Reading) : Prop where
  pos : t.pos = (encoded before).length
  records : t.records = before.length
  holds : Holds maxHello t (carried before)

section
variable {limits : SniLimits} {before : List HandshakeRecord} {t : Reading}

theorem midway_start : Midway limits.maxHelloBytes [] .start :=
  ⟨rfl,rfl,rfl,by simp [Reading.start],rfl,by simp [Reading.start]⟩

/-- One more record, before the checks behind it. -/
theorem Midway.take (h : Midway limits.maxHelloBytes before t) (r : HandshakeRecord)
    (after : Bytes) : Midway limits.maxHelloBytes (before ++ [r])
      (takeFragment t (encoded before ++ (r.encode ++ after)) r.fragment.length) := by
  have hlen := r.length_encode
  have hcarried : carried (before ++ [r]) = carried before ++ r.fragment := by simp [carried]
  have hencoded : encoded (before ++ [r]) = encoded before ++ r.encode := by simp [encoded]
  have hslice : slice (encoded before ++ (r.encode ++ after)) (t.pos + 5)
      (t.pos + 5 + r.fragment.length) = r.fragment := by
    rw [h.pos]
    exact slice_at_record _ _ _
  have hsame : takeFragment t (encoded before ++ (r.encode ++ after)) r.fragment.length =
      { t with fragments := t.fragments ++ [r.fragment],held := t.held + r.fragment.length,
               pos := t.pos + 5 + r.fragment.length,records := t.records + 1 } := by
    rw [takeFragment,hslice]
  rw [hsame]
  refine ⟨?_,?_,?_,?_,?_,?_⟩
  · dsimp only
    rw [hencoded,List.length_append,h.pos,hlen]
    omega
  · dsimp only
    rw [h.records,List.length_append]
    rfl
  · rw [hcarried,List.flatten_append,h.holds.flat]
    simp
  · intro f hf
    rcases List.mem_append.mp hf with hf | hf
    · exact h.holds.filled f hf
    · rw [List.mem_singleton.mp hf]
      exact r.filled
  · dsimp only
    rw [hcarried,List.length_append,h.holds.held]
  · intro n hn
    obtain ⟨hheader,hn,hle⟩ := h.holds.helloLen n hn
    rw [hcarried]
    refine ⟨?_,?_,hle⟩
    · rw [List.length_append]
      omega
    · rw [hn,u24_append_left (by omega)]

/-- The loop over the records of a message walks over its body, wherever it stands. -/
theorem Midway.readRecords_eq {m : HelloMessage} (hmax : m.body.length ≤ limits.maxHelloBytes)
    {rest : List HandshakeRecord} (tail : Bytes) (h : Midway limits.maxHelloBytes before t)
    (hm : carried before ++ carried rest = m.bytes) (hrest : rest ≠ [])
    (hraw : (encoded before).length + (encoded rest).length ≤ limits.maxRawBytes)
    (hrecords : before.length + rest.length ≤ limits.maxRecords) :
    readRecords (encoded before ++ (encoded rest ++ tail)) limits t =
      parseClientHelloBody m.body := by
  induction rest generalizing before t with
  | nil => exact absurd rfl hrest
  | cons r rest ih =>
    have hbuf : encoded before ++ (encoded (r :: rest) ++ tail) =
        encoded before ++ (r.encode ++ (encoded rest ++ tail)) := by simp [encoded]
    have hbuf' : encoded before ++ (encoded (r :: rest) ++ tail) =
        encoded (before ++ [r]) ++ (encoded rest ++ tail) := by simp [encoded]
    have hencoded : (encoded (before ++ [r])).length + (encoded rest).length =
        (encoded before).length + (encoded (r :: rest)).length := by
      simp [encoded]
      omega
    have hcarried : carried (before ++ [r]) ++ carried rest = m.bytes := by
      rw [← hm]
      simp [carried]
    have hnext := h.take r (encoded rest ++ tail)
    have hstep : readRecord (encoded before ++ (encoded (r :: rest) ++ tail)) limits t =
        checkHello limits
          (takeFragment t (encoded before ++ (r.encode ++ (encoded rest ++ tail)))
            r.fragment.length) := by
      rw [List.length_cons] at hrecords
      rw [readRecord_eq,hbuf,h.pos,h.records,recordAt_record _ _ _ (by omega)]
      rfl
    generalize takeFragment t (encoded before ++ (r.encode ++ (encoded rest ++ tail)))
      r.fragment.length = t' at hnext hstep
    by_cases hlast : rest = []
    · -- the last record: the message is whole
      subst hlast
      rw [show carried [] = [] from rfl,List.append_nil] at hcarried
      have hholds := hnext.holds
      rw [hcarried] at hholds
      rw [checkHello_whole hmax hholds] at hstep
      exact readRecords_of_error hstep
    · have hlen := length_encoded rest
      have hpos := List.length_pos_iff.mpr hlast
      have hne : carried (before ++ [r]) ≠ [] := by
        intro hnil
        exact absurd (carried_eq_nil hnil) (by simp)
      obtain ⟨helloLen,hok,hholds⟩ := checkHello_part hmax hnext.holds hne hcarried
        (fun hnil => hlast (carried_eq_nil hnil)) (by rw [hnext.pos]; omega)
      rw [hok] at hstep
      rw [readRecords_of_ok hstep,hbuf']
      exact ih ⟨hnext.pos,hnext.records,hholds⟩ hcarried hlast (by omega)
        (by rw [List.length_append,List.length_singleton]; rw [List.length_cons] at hrecords; omega)

end

/-- Records that carry a message within the limits are read as its body. -/
theorem parse_of_carried {limits : SniLimits} {m : HelloMessage} {records : List HandshakeRecord}
    (tail : Bytes) (hsplit : carried records = m.bytes)
    (hraw : (encoded records).length ≤ limits.maxRawBytes)
    (hhello : m.body.length ≤ limits.maxHelloBytes)
    (hrecords : records.length ≤ limits.maxRecords) :
    parseClientHelloSni (encoded records ++ tail) limits = parseClientHelloBody m.body := by
  have hne : records ≠ [] := by
    rintro rfl
    cases hsplit
  exact midway_start.readRecords_eq hhello tail (by simpa [carried] using hsplit) hne
    (by simpa [encoded] using hraw) (by simpa using hrecords)

/-- However a ClientHello is split over handshake records, within the limits, the parser
reads the body of the message; so it gives the answer it gives to the message in one
record, whatever follows on the connection. -/
theorem sni_survives_fragmentation (limits : SniLimits) (m : HelloMessage)
    (records : List HandshakeRecord) (tail : Bytes) (hsplit : carried records = m.bytes)
    (hraw : (encoded records).length ≤ limits.maxRawBytes)
    (hhello : m.body.length ≤ limits.maxHelloBytes)
    (hrecords : records.length ≤ limits.maxRecords) :
    parseClientHelloSni (encoded records ++ tail) limits = parseClientHelloBody m.body ∧
    ∀ (one : HandshakeRecord) (tail' : Bytes),one.fragment = m.bytes →
      parseClientHelloSni (encoded records ++ tail) limits =
        parseClientHelloSni (one.encode ++ tail') limits := by
  have hmany := parse_of_carried tail hsplit hraw hhello hrecords
  refine ⟨hmany,?_⟩
  intro one tail' hone
  have hcarried : carried [one] = m.bytes := by simpa [carried] using hone
  have hpos : 0 < records.length := by
    apply List.length_pos_iff.mpr
    rintro rfl
    cases hsplit
  -- one record has the fewest headers, so it is within the limits too
  have hlen := length_encoded records
  have hlen' := length_encoded [one]
  rw [hsplit] at hlen
  rw [hcarried,List.length_singleton] at hlen'
  have hsingle := parse_of_carried tail' hcarried
    (show (encoded [one]).length ≤ limits.maxRawBytes by omega) hhello
    (by rw [List.length_singleton]; omega)
  rw [hmany,← hsingle,encoded,List.flatMap_singleton]

/-- A hello without a server name. -/
def bareHello : HelloMessage := ⟨List.replicate 34 0 ++ [0,0,2,0x13,1,1,0],by decide⟩

/-- The records that split its first two bytes off. -/
def splitHello : List HandshakeRecord :=
  [⟨(3,1),bareHello.bytes.take 2,by decide,by decide⟩,
    ⟨(3,3),bareHello.bytes.drop 2,by decide,by decide⟩]

theorem sni_survives_fragmentation_in_header :
    parseClientHelloSni (encoded splitHello) ⟨100,64,2⟩ = .ok none := by
  have h := sni_survives_fragmentation ⟨100,64,2⟩ bareHello splitHello [] (by decide) (by decide)
    (by decide) (by decide)
  rw [List.append_nil] at h
  rw [h.1]
  decide +kernel

end Flagship.Tunnel.Proofs

import Flagship.Relay.Flow

namespace Flagship.Relay.Proofs
open Lib Relay

/-- The bytes of a lane are those of its chunks, and no chunk is empty. -/
structure Filled (l : Lane) : Prop where
  counted : l.bytes = (l.chunks.map List.length).sum
  full : ∀ c ∈ l.chunks,c ≠ []

/-- The ring, the lanes and the counters agree; a lane that may send waits in the
ring, with one lane perhaps apart. -/
structure FairBut (apart : Option Nat) (q : FairQueue) : Prop where
  counted : q.total = q.lanes.total Lane.bytes
  filled : ∀ id l,q.lanes.get? id = some l → Filled l
  once : q.ring.Nodup
  marked : ∀ id,id ∈ q.ring ↔ ∃ l,q.lanes.get? id = some l ∧ l.queued = true
  waiting : ∀ id l,some id ≠ apart → q.lanes.get? id = some l → l.sendable = true →
    l.queued = true

abbrev Fair (q : FairQueue) : Prop := FairBut none q

variable {q : FairQueue} {id : Nat} {l : Lane}

theorem fair_new (quantum : Nat) : Fair (.new quantum) where
  counted := rfl
  filled := fun id l h => by simp [FairQueue.new] at h
  once := .nil
  marked := fun id => by simp [FairQueue.new]
  waiting := fun id l _ h => by simp [FairQueue.new] at h

theorem FairBut.weaken (h : Fair q) (apart : Option Nat) : FairBut apart q :=
  ⟨h.counted,h.filled,h.once,h.marked,fun x lane _ => h.waiting x lane (by simp)⟩

/-- One lane is replaced, and the ring and the total follow. -/
theorem FairBut.put {apart : Option Nat} (h : FairBut apart q) (hl : q.lanes.get? id = some l)
    (l' : Lane) {ring : List Nat} {total : Nat} (hfilled : Filled l') (honce : ring.Nodup)
    (hself : id ∈ ring ↔ l'.queued = true) (hothers : ∀ x,x ≠ id → (x ∈ ring ↔ x ∈ q.ring))
    (htotal : total + l.bytes = q.total + l'.bytes) {apart' : Option Nat}
    (hwait : some id ≠ apart' → l'.sendable = true → l'.queued = true)
    (hapart : apart = some id ∨ apart = none) :
    FairBut apart' { q with lanes := q.lanes.set id l', ring := ring, total := total } where
  counted := by
    have hset := q.lanes.total_set Lane.bytes id l'
    rw [hl] at hset
    have hq := h.counted
    simp only [Option.map_some,Option.getD_some] at hset
    dsimp only
    omega
  filled := by
    intro x lane hx
    rw [OrdMap.get?_set] at hx
    split at hx
    · cases hx
      exact hfilled
    · exact h.filled x lane hx
  once := honce
  marked := by
    intro x
    rw [OrdMap.get?_set]
    by_cases hx : x = id
    · subst hx
      simpa using hself
    · simp only [hx,↓reduceIte]
      exact (hothers x hx).trans (h.marked x)
  waiting := by
    intro x lane hne hx hs
    rw [OrdMap.get?_set] at hx
    split at hx
    · rename_i heq
      cases hx
      exact hwait (heq ▸ hne) hs
    · rename_i hx'
      refine h.waiting x lane ?_ hx hs
      rcases hapart with rfl | rfl
      · intro he
        exact hx' (Option.some.inj he)
      · simp

theorem requeue_fair (h : FairBut (some id) q) : Fair (q.requeue id) := by
  unfold FairQueue.requeue
  split
  · rename_i hnone
    refine ⟨h.counted,h.filled,h.once,h.marked,?_⟩
    intro x lane _ hx hs
    refine h.waiting x lane ?_ hx hs
    rintro heq
    rw [Option.some.inj heq,hnone] at hx
    cases hx
  · rename_i l hl
    split
    · rename_i hnew
      simp only [Bool.and_eq_true,Bool.not_eq_true'] at hnew
      have hnot : id ∉ q.ring := by
        intro hm
        obtain ⟨lane,hlane,hq⟩ := (h.marked id).mp hm
        rw [hl] at hlane
        cases hlane
        rw [hnew.1] at hq
        cases hq
      refine h.put hl { l with queued := true } ⟨(h.filled id l hl).counted,
        (h.filled id l hl).full⟩ ?_ (by simp) (fun x hx => by simp [hx]) rfl (fun _ _ => rfl)
        (.inl rfl)
      rw [List.nodup_append]
      refine ⟨h.once,List.nodup_singleton id,?_⟩
      intro a ha b hb he
      rw [List.mem_singleton.mp hb] at he
      exact hnot (he ▸ ha)
    · rename_i hold
      refine ⟨h.counted,h.filled,h.once,h.marked,?_⟩
      intro x lane _ hx hs
      by_cases heq : x = id
      · subst heq
        rw [hl] at hx
        cases hx
        simpa [hs] using hold
      · exact h.waiting x lane (fun he => heq (Option.some.inj he)) hx hs

theorem open_fair (h : Fair q) (credit : Option SendWindow) : Fair (q.openStream id credit) := by
  unfold FairQueue.openStream
  split
  · exact h
  · rename_i hnew
    have hnone : q.lanes.get? id = none := by simpa [OrdMap.contains] using hnew
    refine ⟨?_,?_,h.once,?_,?_⟩
    · have hset := q.lanes.total_set Lane.bytes id ⟨[],0,0,credit,false⟩
      rw [hnone] at hset
      exact h.counted.trans (by simpa using hset.symm)
    · intro x lane hx
      rw [OrdMap.get?_set] at hx
      split at hx
      · cases hx
        exact ⟨rfl,by simp⟩
      · exact h.filled x lane hx
    · intro x
      rw [h.marked,OrdMap.get?_set]
      by_cases hx : x = id
      · simp [hx,hnone]
      · simp [hx]
    · intro x lane _ hx hs
      rw [OrdMap.get?_set] at hx
      split at hx
      · cases hx
        simp [Lane.sendable] at hs
      · exact h.waiting x lane (by simp) hx hs

theorem remove_fair (h : Fair q) : Fair (q.remove id).1 := by
  unfold FairQueue.remove
  split
  · exact h
  · rename_i l hl
    refine ⟨?_,?_,h.once.filter _,?_,?_⟩
    · have herase := q.lanes.total_erase Lane.bytes id
      rw [hl] at herase
      have hq := h.counted
      simp only [Option.map_some,Option.getD_some] at herase
      dsimp only
      omega
    · intro x lane hx
      rw [OrdMap.get?_erase] at hx
      split at hx
      · cases hx
      · exact h.filled x lane hx
    · intro x
      rw [List.mem_filter,h.marked,OrdMap.get?_erase]
      by_cases hx : x = id
      · simp [hx]
      · simp [hx]
    · intro x lane _ hx hs
      rw [OrdMap.get?_erase] at hx
      split at hx
      · cases hx
      · exact h.waiting x lane (by simp) hx hs

/-- A lane marked as queued is the one that stands in the ring. -/
theorem FairBut.mem_ring {apart : Option Nat} (h : FairBut apart q)
    (hl : q.lanes.get? id = some l) : id ∈ q.ring ↔ l.queued = true := by
  rw [h.marked,hl]
  simp

theorem push_fair (h : Fair q) (data : Bytes) : Fair (q.push id data).1 := by
  unfold FairQueue.push
  split
  · exact h
  · rename_i l hl
    split
    · exact h
    · rename_i hdata
      obtain ⟨hcounted,hfull⟩ := h.filled id l hl
      have hmem := h.mem_ring hl
      apply requeue_fair
      refine h.put hl { l with
          bytes := l.bytes + data.length
          chunks := l.chunks ++ [data] } ⟨?_,?_⟩ h.once hmem (fun _ _ => Iff.rfl)
        (by dsimp only; omega) (fun hne => absurd rfl hne) (.inr rfl)
      · simp [hcounted]
      · intro c hc
        rcases List.mem_append.mp hc with hc | hc
        · exact hfull c hc
        · rw [List.mem_singleton.mp hc]
          simpa using hdata

theorem grant_fair (h : Fair q) (n : Nat) : Fair (q.grant id n) := by
  unfold FairQueue.grant
  split
  · rename_i l hl
    obtain ⟨hcounted,hfull⟩ := h.filled id l hl
    have hmem := h.mem_ring hl
    apply requeue_fair
    exact h.put hl { l with credit := l.credit.map fun c => c.grant n } ⟨hcounted,hfull⟩ h.once hmem
      (fun _ _ => Iff.rfl) rfl (fun hne => absurd rfl hne) (.inr rfl)
  · exact requeue_fair (h.weaken _)

/-- Cutting the first chunk loses no byte and leaves no empty chunk. -/
theorem cutHead_filled (limit : Nat) {head : Bytes} {rest : List Bytes}
    (hfull : ∀ c ∈ head :: rest,c ≠ []) :
    (FairQueue.cutHead limit head rest).1.length +
      ((FairQueue.cutHead limit head rest).2.map List.length).sum =
        ((head :: rest).map List.length).sum ∧
    ∀ c ∈ (FairQueue.cutHead limit head rest).2,c ≠ [] := by
  unfold FairQueue.cutHead
  split
  · exact ⟨by simp,fun c hc => hfull c (List.mem_cons_of_mem _ hc)⟩
  · rename_i hlong
    refine ⟨?_,?_⟩
    · simp only [List.length_take,List.map_cons,List.length_drop,List.sum_cons]
      omega
    · intro c hc
      rcases List.mem_cons.mp hc with rfl | hc
      · intro hnil
        have hlen := congrArg List.length hnil
        simp only [List.length_drop,List.length_nil] at hlen
        omega
      · exact hfull c (List.mem_cons_of_mem _ hc)

/-- A lane that had its turn: it goes on at the front, or waits for the end of the ring. -/
theorem served_fair {ring : List Nat} (h : Fair { q with ring := id :: ring })
    (hl : q.lanes.get? id = some l) {head : Bytes} {rest : List Bytes}
    (hchunks : l.chunks = head :: rest) (limit deficit : Nat) (credit : Option SendWindow) :
    let out := FairQueue.cutHead limit head rest
    let lane : Lane := ⟨out.2,l.bytes - out.1.length,deficit,credit,false⟩
    Fair { q with
      lanes := q.lanes.set id { lane with queued := true }
      ring := id :: ring
      total := q.total - out.1.length } ∧
    Fair ({ q with
      lanes := q.lanes.set id { lane with deficit := 0 }
      ring := ring
      total := q.total - out.1.length }.requeue id) := by
  intro out lane
  obtain ⟨hnot,honce⟩ := List.nodup_cons.mp h.once
  obtain ⟨hcounted,hfull⟩ := h.filled id l hl
  rw [hchunks] at hcounted hfull
  obtain ⟨hcut,hfull'⟩ := cutHead_filled limit hfull
  have hlane : lane.bytes = (lane.chunks.map List.length).sum := by
    dsimp only [lane,out]
    omega
  have hle : l.bytes ≤ q.total := by
    have hset := q.lanes.total_set Lane.bytes id { l with bytes := 0 }
    have hq := h.counted
    rw [hl] at hset
    simp only [Option.map_some,Option.getD_some] at hset hq
    omega
  have htotal : q.total - out.1.length + l.bytes = q.total + lane.bytes := by
    dsimp only [lane,out]
    omega
  refine ⟨?_,requeue_fair ?_⟩
  · exact h.put hl { lane with queued := true } ⟨hlane,hfull'⟩ h.once (by simp)
      (fun _ _ => Iff.rfl) htotal (fun _ _ => rfl) (.inr rfl)
  · exact h.put hl { lane with deficit := 0 } ⟨hlane,hfull'⟩ honce (by simpa [lane] using hnot)
      (fun x hx => by simp [hx]) htotal (fun hne => absurd rfl hne) (.inr rfl)

theorem pop_fair (most : Nat) (ring : List Nat) (h : Fair { q with ring := ring }) :
    Fair (q.popFrom most ring).1 := by
  induction ring generalizing q with
  | nil => exact h
  | cons id ring ih =>
    obtain ⟨l,hl,_⟩ := (h.marked id).mp List.mem_cons_self
    obtain ⟨hnot,honce⟩ := List.nodup_cons.mp h.once
    dsimp only at hl
    simp only [FairQueue.popFrom,hl]
    split
    · rename_i hidle
      apply ih
      obtain ⟨hcounted,hfull⟩ := h.filled id l hl
      refine h.put hl { l with queued := false,deficit := 0 } ⟨hcounted,hfull⟩ honce
        (by simpa using hnot) (fun x hx => by simp [hx]) rfl ?_ (.inr rfl)
      intro _ hs
      rw [Bool.not_eq_true'] at hidle
      exact absurd (hs.symm.trans hidle) (by simp)
    · rename_i hsend
      -- the turn of the lane does not depend on what its deficit starts from
      generalize hstart : (if l.deficit = 0 then
        { l with queued := false,deficit := q.quantum } else { l with queued := false }) = start
      have hchunks : start.chunks = l.chunks := by rw [← hstart]; split <;> rfl
      have hbytes : start.bytes = l.bytes := by rw [← hstart]; split <;> rfl
      have hqueued : start.queued = false := by rw [← hstart]; split <;> rfl
      cases hc : l.chunks with
      | nil => simp [Lane.sendable,hc] at hsend
      | cons head rest =>
        simp only [hchunks,hc,hbytes,hqueued]
        split
        · exact (served_fair h hl hc _ _ _).1
        · exact (served_fair h hl hc _ 0 _).2

theorem step_fair (h : Fair q) (op : FairOp) : Fair (q.step op) := by
  cases op with
  | openStream id credit => exact open_fair h credit
  | push id data => exact push_fair h data
  | grant id n => exact grant_fair h n
  | pop most => exact pop_fair most q.ring h
  | requeue id => exact requeue_fair (h.weaken _)
  | remove id => exact remove_fair h

theorem bytes_pos (h : Filled l) (hb : 0 < l.bytes) : l.chunks ≠ [] := by
  intro hnil
  rw [h.counted,hnil] at hb
  cases hb

/-- After any calls of a fair queue its counters are the bytes it holds, its ring
names each lane that is marked once and nothing else, and every stream that could
send is in the ring. -/
theorem fair_queue_forgets_none (quantum : Nat) (ops : List FairOp) :
    let q := run FairQueue.step (.new quantum) ops
    q.total = q.lanes.total Lane.bytes ∧
    q.total = q.lanes.total (fun l => (l.chunks.map List.length).sum) ∧
    (∀ id,q.ring.count id ≤ 1) ∧
    (∀ id,id ∈ q.ring ↔ ∃ l,q.lanes.get? id = some l ∧ l.queued = true) ∧
    ∀ id l,q.lanes.get? id = some l → 0 < l.bytes → (∀ c,l.credit = some c → 0 < c.available) →
      id ∈ q.ring := by
  intro q
  have h : Fair q := run_invariant (I := Fair) (fun _ op h => step_fair h op) (fair_new quantum) ops
  refine ⟨h.counted,?_,fun id => List.nodup_iff_count_le_one.mp h.once id,h.marked,?_⟩
  · rw [h.counted]
    refine congrArg List.sum (List.map_congr_left fun e he => ?_)
    exact (h.filled e.1 e.2 (q.lanes.mem_entries.mp he)).counted
  · intro id l hl hbytes hcredit
    refine (h.marked id).mpr ⟨l,hl,h.waiting id l (by simp) hl ?_⟩
    have hchunks := bytes_pos (h.filled id l hl) hbytes
    cases hc : l.credit with
    | none => simp [Lane.sendable,hc,hchunks]
    | some c => simpa [Lane.sendable,hc,hchunks] using hcredit c hc

end Flagship.Relay.Proofs

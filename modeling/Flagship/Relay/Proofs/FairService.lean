import Flagship.Relay.Proofs.FairQueue

namespace Flagship.Relay.Proofs
open Lib Relay
open Mesh (saturatingAdd)

/-- A lane that was not served: it may have lost its place and its deficit. -/
structure Rests (l l' : Lane) : Prop where
  chunks : l'.chunks = l.chunks
  bytes : l'.bytes = l.bytes
  credit : l'.credit = l.credit
  deficit : l'.deficit = l.deficit ∨ l'.deficit = 0

theorem Rests.refl (l : Lane) : Rests l l := ⟨rfl,rfl,rfl,.inl rfl⟩

theorem Rests.trans {l l' l'' : Lane} (h : Rests l l') (h' : Rests l' l'') : Rests l l'' where
  chunks := h'.chunks.trans h.chunks
  bytes := h'.bytes.trans h.bytes
  credit := h'.credit.trans h.credit
  deficit := by
    rcases h'.deficit with heq | hzero
    · rw [heq]
      exact h.deficit
    · exact .inr hzero

theorem Rests.sendable {l l' : Lane} (h : Rests l l') : l'.sendable = l.sendable := by
  rw [Lane.sendable,h.chunks,h.credit,Lane.sendable]

/-- What the lane may still take in the turn it has, or in its next one. -/
def allowance (quantum : Nat) (l : Lane) : Nat := if l.deficit = 0 then quantum else l.deficit

/-- A lane that was served a chunk. -/
structure Turn (most quantum : Nat) (l : Lane) (out : Bytes) (l' : Lane) : Prop where
  sends : l.sendable = true
  chunks : out ++ l'.chunks.flatten = l.chunks.flatten
  carries : Filled l → out ≠ []
  most : 0 < most → out.length ≤ most
  credit : l'.credit = l.credit.map fun c => c.consume out.length
  within : ∀ c,l.credit = some c → out.length ≤ c.available
  turn : out.length + l'.deficit ≤ allowance quantum l

theorem limit_le {l : Lane} (most : Nat) (hdeficit : 0 < l.deficit)
    (hsend : ∀ c,l.credit = some c → 0 < c.available) :
    0 < l.limit most ∧ (0 < most → l.limit most ≤ most) ∧ l.limit most ≤ l.deficit ∧
      ∀ c,l.credit = some c → l.limit most ≤ c.available := by
  have hmax : 0 < usizeMax := by decide
  unfold Lane.limit
  cases hc : l.credit with
  | none =>
    dsimp only
    refine ⟨by omega,by omega,by omega,?_⟩
    intro c h
    cases h
  | some c =>
    have hpos := hsend c hc
    dsimp only
    refine ⟨by omega,by omega,by omega,?_⟩
    intro c' h
    cases h
    omega

theorem cutHead_join (limit : Nat) (head : Bytes) (rest : List Bytes) :
    (FairQueue.cutHead limit head rest).1 ++ (FairQueue.cutHead limit head rest).2.flatten =
      (head :: rest).flatten ∧ (FairQueue.cutHead limit head rest).1.length ≤ limit ∧
    (0 < limit → head ≠ [] → (FairQueue.cutHead limit head rest).1 ≠ []) := by
  unfold FairQueue.cutHead
  split
  · next hle => exact ⟨rfl,hle,fun _ h => h⟩
  · refine ⟨by simp [← List.append_assoc],by simp,?_⟩
    intro hpos hne hnil
    rcases List.take_eq_nil_iff.mp hnil with h | h
    · omega
    · exact hne h

/-- What one call of `pop` did: the lanes before the one it served were passed over, and
that one stays in front, goes to the back or leaves the ring. -/
structure Popped (most : Nat) (q : FairQueue) (ring : List Nat) (id : Nat) (out : Bytes)
    (before after : List Nat) (l l' : Lane) (q' : FairQueue) : Prop where
  ring : ring = before ++ id :: after
  passed : ∀ x ∈ before,∀ lane,q.lanes.get? x = some lane → lane.sendable = false
  lane : q.lanes.get? id = some l
  lane' : q'.lanes.get? id = some l'
  turn : Turn most q.quantum l out l'
  place : 0 < l'.deficit ∧ q'.ring = id :: after ∨
    l'.deficit = 0 ∧ (q'.ring = after ∨ q'.ring = after ++ [id])
  others : ∀ x lane,x ≠ id → q.lanes.get? x = some lane →
    ∃ lane',q'.lanes.get? x = some lane' ∧ Rests lane lane' ∧
      (x ∉ before → lane'.deficit = lane.deficit)
  quantum : q'.quantum = q.quantum

variable {q q' : FairQueue} {id most : Nat} {l : Lane} {ring : List Nat} {out : Bytes}

/-- A lane that is passed over does not count for the rest of the ring. -/
theorem Popped.of_passed {x : Nat} {lx : Lane} (hlx : q.lanes.get? x = some lx)
    (hidle : lx.sendable = false) {before after : List Nat} {l l' : Lane}
    (h : Popped most { q with lanes := q.lanes.set x { lx with queued := false,deficit := 0 } } ring
      id out before after l l' q') :
    ∃ l,Popped most q (x :: ring) id out (x :: before) after l l' q' := by
  have hrest : Rests lx { lx with queued := false,deficit := 0 } := ⟨rfl,rfl,rfl,.inr rfl⟩
  have hne : id ≠ x := by
    rintro rfl
    have hl := h.lane
    dsimp only at hl
    rw [OrdMap.get?_set_self] at hl
    cases hl
    have hsends := h.turn.sends
    rw [hrest.sendable,hidle] at hsends
    cases hsends
  have hl := h.lane
  dsimp only at hl
  rw [OrdMap.get?_set_ne hne] at hl
  refine ⟨l,by rw [h.ring]; rfl,?_,hl,h.lane',h.turn,h.place,?_,h.quantum⟩
  · intro y hy lane hlane
    by_cases hyx : y = x
    · subst hyx
      rw [hlx] at hlane
      cases hlane
      exact hidle
    · rcases List.mem_cons.mp hy with heq | hy
      · exact absurd heq hyx
      · exact h.passed y hy lane (by dsimp only; rw [OrdMap.get?_set_ne hyx]; exact hlane)
  · intro y lane hyid hlane
    by_cases hyx : y = x
    · subst hyx
      rw [hlx] at hlane
      cases hlane
      obtain ⟨lane',hlane',hrests,_⟩ := h.others y _ hyid (OrdMap.get?_set_self _ _ _)
      exact ⟨lane',hlane',hrest.trans hrests,fun hnot => absurd List.mem_cons_self hnot⟩
    · obtain ⟨lane',hlane',hrests,hsame⟩ :=
        h.others y lane hyid (by dsimp only; rw [OrdMap.get?_set_ne hyx]; exact hlane)
      exact ⟨lane',hlane',hrests,fun hnot => hsame fun hmem => hnot (List.mem_cons_of_mem _ hmem)⟩

/-- The lane that is put back after its turn, at the end of the ring if it can send. -/
theorem requeue_get? (q : FairQueue) (x id : Nat) :
    ((q.requeue x).lanes.get? id = q.lanes.get? id ∨
      ∃ l,q.lanes.get? id = some l ∧ (q.requeue x).lanes.get? id = some { l with queued := true }) ∧
    ((q.requeue x).ring = q.ring ∨ (q.requeue x).ring = q.ring ++ [x]) ∧
    (q.requeue x).quantum = q.quantum := by
  unfold FairQueue.requeue
  split
  · exact ⟨.inl rfl,.inl rfl,rfl⟩
  · next l hl =>
    split
    · refine ⟨?_,.inr rfl,rfl⟩
      by_cases hx : id = x
      · subst hx
        exact .inr ⟨l,hl,OrdMap.get?_set_self _ _ _⟩
      · exact .inl (OrdMap.get?_set_ne hx)
    · exact ⟨.inl rfl,.inl rfl,rfl⟩

theorem requeue_rests (q : FairQueue) (x : Nat) {id : Nat} {l : Lane}
    (hl : q.lanes.get? id = some l) :
    ∃ l',(q.requeue x).lanes.get? id = some l' ∧ Rests l l' ∧ l'.deficit = l.deficit := by
  rcases (requeue_get? q x id).1 with h | ⟨l₁,hl₁,h⟩
  · exact ⟨l,h.trans hl,Rests.refl l,rfl⟩
  · rw [hl] at hl₁
    cases hl₁
    exact ⟨_,h,⟨rfl,rfl,rfl,.inl rfl⟩,rfl⟩

/-- The turn of a lane that can send. -/
theorem turn_of_cut (hquantum : 0 < q.quantum) (hsend : l.sendable = true) {head : Bytes}
    {rest : List Bytes} (hchunks : l.chunks = head :: rest) {l₀ l' : Lane}
    (hl₀ : l₀ = { l with deficit := allowance q.quantum l,queued := false })
    (hout : out = (FairQueue.cutHead (l₀.limit most) head rest).1)
    (hchunks' : l'.chunks = (FairQueue.cutHead (l₀.limit most) head rest).2)
    (hdeficit : l'.deficit ≤ l₀.deficit - out.length)
    (hcredit : l'.credit = l.credit.map fun c => c.consume out.length) :
    Turn most q.quantum l out l' := by
  have hpos : 0 < l₀.deficit := by
    rw [hl₀]
    simp only [allowance]
    split <;> omega
  have hcan : ∀ c,l₀.credit = some c → 0 < c.available := by
    intro c hc
    have hc' : l.credit = some c := by rw [← hc,hl₀]
    simpa [Lane.sendable,hc',hchunks] using hsend
  obtain ⟨hlimit,hmost,hle,hwithin⟩ := limit_le most hpos hcan
  obtain ⟨hjoin,hlen,hne⟩ := cutHead_join (l₀.limit most) head rest
  have hallow : l₀.deficit = allowance q.quantum l := by rw [hl₀]
  rw [← hout] at hjoin hlen hne
  refine ⟨hsend,?_,?_,?_,hcredit,?_,?_⟩
  · rw [hchunks',hjoin,hchunks]
  · intro hfilled
    exact hne hlimit (hfilled.full head (by rw [hchunks]; exact List.mem_cons_self))
  · intro h
    exact Nat.le_trans hlen (hmost h)
  · intro c hc
    exact Nat.le_trans hlen (hwithin c (by rw [hl₀]; exact hc))
  · omega

/-- What `pop` does when it serves a lane. -/
theorem popFrom_served (hquantum : 0 < q.quantum)
    (h : q.popFrom most ring = (q',some (id,out))) :
    ∃ before after l l',Popped most q ring id out before after l l' q' := by
  induction ring generalizing q with
  | nil => simp [FairQueue.popFrom] at h
  | cons x ring ih =>
    simp only [FairQueue.popFrom] at h
    cases hlx : q.lanes.get? x with
    | none =>
      simp only [hlx] at h
      obtain ⟨before,after,l,l',hp⟩ := ih hquantum h
      refine ⟨x :: before,after,l,l',by rw [hp.ring]; rfl,?_,hp.lane,hp.lane',hp.turn,hp.place,
        ?_,hp.quantum⟩
      · intro y hy lane hlane
        rcases List.mem_cons.mp hy with rfl | hy
        · rw [hlx] at hlane
          cases hlane
        · exact hp.passed y hy lane hlane
      · intro y lane hy hlane
        obtain ⟨lane',hlane',hrests,hsame⟩ := hp.others y lane hy hlane
        exact ⟨lane',hlane',hrests,fun hnot => hsame fun hmem => hnot (List.mem_cons_of_mem _ hmem)⟩
    | some lx =>
      simp only [hlx] at h
      split at h
      · next hidle =>
        rw [Bool.not_eq_true'] at hidle
        obtain ⟨before,after,l,l',hp⟩ := ih (q := { q with
          lanes := q.lanes.set x { lx with queued := false,deficit := 0 } }) hquantum h
        obtain ⟨l,hp⟩ := Popped.of_passed hlx hidle hp
        exact ⟨x :: before,after,l,l',hp⟩
      · next hsend =>
        have hsend' : lx.sendable = true := by simpa [Lane.sendable] using hsend
        generalize hl₀ : (if lx.deficit = 0 then
          { lx with queued := false,deficit := q.quantum } else { lx with queued := false }) = l₀ at h
        have hl₀' : l₀ = { lx with deficit := allowance q.quantum lx,queued := false } := by
          rw [← hl₀,allowance]
          split <;> rfl
        have hch : l₀.chunks = lx.chunks := by rw [hl₀']
        have hcr : l₀.credit = lx.credit := by rw [hl₀']
        cases hc : lx.chunks with
        | nil => simp [Lane.sendable,hc] at hsend'
        | cons head rest =>
          simp only [hch,hc] at h
          split at h
          · next hmore =>
            cases h
            refine ⟨[],ring,lx,_,rfl,fun y hy => absurd hy List.not_mem_nil,hlx,
              OrdMap.get?_set_self _ _ _,?_,.inl ⟨hmore.1,rfl⟩,?_,rfl⟩
            · exact turn_of_cut hquantum hsend' hc hl₀' rfl rfl (Nat.le_refl _)
                (by rw [hcr])
            · intro y lane hy hlane
              exact ⟨lane,(OrdMap.get?_set_ne hy).trans hlane,Rests.refl lane,fun _ => rfl⟩
          · obtain ⟨heq,hid⟩ := Prod.mk.inj h
            cases hid
            subst heq
            generalize hcut : FairQueue.cutHead (l₀.limit most) head rest = cut
            generalize hq₁ : ({ q with
              lanes := q.lanes.set id { l₀ with
                chunks := cut.2
                bytes := l₀.bytes - cut.1.length
                deficit := 0
                credit := l₀.credit.map fun c => c.consume cut.1.length }
              ring := ring
              total := q.total - cut.1.length } : FairQueue) = q₁
            have hself : q₁.lanes.get? id = some { l₀ with
                chunks := cut.2
                bytes := l₀.bytes - cut.1.length
                deficit := 0
                credit := l₀.credit.map fun c => c.consume cut.1.length } := by
              rw [← hq₁]
              exact OrdMap.get?_set_self _ _ _
            have hring : q₁.ring = ring := by rw [← hq₁]
            obtain ⟨l',hl',hrests,hdeficit⟩ := requeue_rests q₁ id hself
            obtain ⟨_,hplace,hquant⟩ := requeue_get? q₁ id id
            have hzero : l'.deficit = 0 := hdeficit
            refine ⟨[],ring,lx,l',rfl,fun y hy => absurd hy List.not_mem_nil,hlx,hl',?_,
              .inr ⟨hzero,by rwa [hring] at hplace⟩,?_,hquant.trans (by rw [← hq₁])⟩
            · exact turn_of_cut hquantum hsend' hc hl₀' (by rw [hcut]) (by rw [hcut,hrests.chunks])
                (by rw [hzero]; exact Nat.zero_le _) (by rw [hrests.credit,hcr])
            · intro y lane hy hlane
              have hlane₁ : q₁.lanes.get? y = some lane := by
                rw [← hq₁]
                exact (OrdMap.get?_set_ne hy).trans hlane
              obtain ⟨lane',hlane',hrests',hsame⟩ := requeue_rests q₁ id hlane₁
              exact ⟨lane',hlane',hrests',fun _ => hsame⟩

/-- When `pop` finds nothing, no lane of the ring can send. -/
theorem popFrom_none (h : q.popFrom most ring = (q',none)) :
    (∀ x lane,q.lanes.get? x = some lane →
      ∃ lane',q'.lanes.get? x = some lane' ∧ Rests lane lane') ∧
    (∀ x ∈ ring,∀ lane,q.lanes.get? x = some lane → lane.sendable = false) ∧
    q'.quantum = q.quantum := by
  induction ring generalizing q with
  | nil =>
    cases h
    exact ⟨fun x lane hlane => ⟨lane,hlane,Rests.refl lane⟩,nofun,rfl⟩
  | cons x ring ih =>
    simp only [FairQueue.popFrom] at h
    cases hlx : q.lanes.get? x with
    | none =>
      simp only [hlx] at h
      obtain ⟨hrest,hidle,hquantum⟩ := ih h
      refine ⟨hrest,?_,hquantum⟩
      intro y hy lane hlane
      rcases List.mem_cons.mp hy with rfl | hy
      · rw [hlx] at hlane
        cases hlane
      · exact hidle y hy lane hlane
    | some lx =>
      simp only [hlx] at h
      split at h
      · next hnot =>
        have hnot' : lx.sendable = false := by rwa [Bool.not_eq_true'] at hnot
        obtain ⟨hrest,hidle,hquantum⟩ := ih h
        have hx : Rests lx { lx with queued := false,deficit := 0 } := ⟨rfl,rfl,rfl,.inr rfl⟩
        refine ⟨?_,?_,hquantum⟩
        · intro y lane hlane
          by_cases hyx : y = x
          · subst hyx
            rw [hlx] at hlane
            cases hlane
            obtain ⟨lane',hlane',hrests⟩ := hrest y _ (OrdMap.get?_set_self _ _ _)
            exact ⟨lane',hlane',hx.trans hrests⟩
          · exact hrest y lane (by rw [OrdMap.get?_set_ne hyx]; exact hlane)
        · intro y hy lane hlane
          by_cases hyx : y = x
          · subst hyx
            rw [hlx] at hlane
            cases hlane
            exact hnot'
          · rcases List.mem_cons.mp hy with heq | hy
            · exact absurd heq hyx
            · exact hidle y hy lane (by rw [OrdMap.get?_set_ne hyx]; exact hlane)
      · next hsend =>
        cases hc : lx.chunks with
        | nil => simp [Lane.sendable,hc] at hsend
        | cons head rest =>
          generalize hl₀ : (if lx.deficit = 0 then
            { lx with queued := false,deficit := q.quantum }
            else { lx with queued := false }) = l₀ at h
          have hch : l₀.chunks = head :: rest := by rw [← hl₀,← hc]; split <;> rfl
          simp only [hch] at h
          split at h <;> cases h

/-- The chunks a call sends for the stream, each with the most that was asked for. -/
def sentFor (id : Nat) (q : FairQueue) : FairOp → List (Nat × Bytes)
  | .pop most =>
    match (q.pop most).2 with
    | some (x,chunk) => if x = id then [(most,chunk)] else []
    | none => []
  | _ => []

def pushedTo (id : Nat) : FairOp → Bytes
  | .push x data => if x = id then data else []
  | _ => []

def grantedTo (id : Nat) : FairOp → Nat
  | .grant x n => if x = id then n else 0
  | _ => 0

def sentBytes (sent : List (Nat × Bytes)) : Bytes := (sent.map Prod.snd).flatten

/-- What a call does to the lane of a stream it does not remove. -/
structure LaneKept (id : Nat) (q : FairQueue) (op : FairOp) (l l' : Lane) : Prop where
  lane' : (q.step op).lanes.get? id = some l'
  bytes : sentBytes (sentFor id q op) ++ l'.chunks.flatten = l.chunks.flatten ++ pushedTo id op
  chunks : ∀ p ∈ sentFor id q op,p.2 ≠ [] ∧ (0 < p.1 → p.2.length ≤ p.1)
  credit : ∀ c,l.credit = some c → ∃ c',l'.credit = some c' ∧
    (sentBytes (sentFor id q op)).length + c'.available ≤ c.available + grantedTo id op
  keeps : sentFor id q op = [] → l.sendable = true → l'.sendable = true
  deficit : l'.deficit ≤ max l.deficit q.quantum

/-- A lane that rests while nothing is sent, queued or granted for it. -/
theorem LaneKept.of_rests {op : FairOp} {l l' : Lane} (hl' : (q.step op).lanes.get? id = some l')
    (h : Rests l l') (hsent : sentFor id q op = []) (hpushed : pushedTo id op = []) :
    LaneKept id q op l l' := by
  refine ⟨hl',?_,?_,?_,fun _ hsend => h.sendable.trans hsend,?_⟩
  · rw [hsent,hpushed,h.chunks]
    simp [sentBytes]
  · rw [hsent]
    exact nofun
  · intro c hc
    rw [hsent]
    exact ⟨c,h.credit.trans hc,by simp [sentBytes]⟩
  · rcases h.deficit with heq | hzero <;> omega

theorem available_grant (c : SendWindow) (n : Nat) : (c.grant n).available ≤ c.available + n := by
  simp only [SendWindow.grant,SendWindow.available,saturatingAdd]
  omega

theorem available_grant_pos {c : SendWindow} (n : Nat) (h : 0 < c.available) :
    0 < (c.grant n).available := by
  simp only [SendWindow.grant,SendWindow.available,saturatingAdd,streamMaxWindow,
    streamInitialWindow] at h ⊢
  omega

theorem push_kept (hl : q.lanes.get? id = some l) (x : Nat) (data : Bytes) :
    ∃ l',LaneKept id q (.push x data) l l' := by
  by_cases hx : x = id
  · subst hx
    by_cases hdata : data = []
    · subst hdata
      refine ⟨l,?_,?_,nofun,fun c hc => ⟨c,hc,by simp [sentBytes,sentFor]⟩,fun _ hsend => hsend,
        Nat.le_max_left _ _⟩
      · simp [FairQueue.step,FairQueue.push,hl]
      · simp [sentBytes,sentFor,pushedTo]
    · have hstep : (q.step (.push x data)) = ({ q with
          lanes := q.lanes.set x { l with
            bytes := l.bytes + data.length
            chunks := l.chunks ++ [data] }
          total := q.total + data.length }.requeue x) := by
        simp [FairQueue.step,FairQueue.push,hl,hdata]
      obtain ⟨l',hl',hrests,hdeficit⟩ := requeue_rests { q with
          lanes := q.lanes.set x { l with
            bytes := l.bytes + data.length
            chunks := l.chunks ++ [data] }
          total := q.total + data.length } x (OrdMap.get?_set_self _ _ _)
      refine ⟨l',by rw [hstep]; exact hl',?_,nofun,fun c hc => ⟨c,hrests.credit.trans hc,?_⟩,?_,
        by rw [hdeficit]; exact Nat.le_max_left _ _⟩
      · rw [hrests.chunks]
        simp [sentBytes,sentFor,pushedTo]
      · simp [sentBytes,sentFor]
      · intro _ hsend
        rw [hrests.sendable]
        simp only [Lane.sendable,Bool.and_eq_true] at hsend ⊢
        exact ⟨by simp,hsend.2⟩
  · have hpushed : pushedTo id (.push x data) = [] := if_neg hx
    cases hlx : q.lanes.get? x with
    | none =>
      refine ⟨l,.of_rests ?_ (Rests.refl l) rfl hpushed⟩
      simpa [FairQueue.step,FairQueue.push,hlx] using hl
    | some lx =>
      by_cases hdata : data = []
      · refine ⟨l,.of_rests ?_ (Rests.refl l) rfl hpushed⟩
        simpa [FairQueue.step,FairQueue.push,hlx,hdata] using hl
      · obtain ⟨l',hl',hrests,hdeficit⟩ := requeue_rests { q with
          lanes := q.lanes.set x { lx with
            bytes := lx.bytes + data.length
            chunks := lx.chunks ++ [data] }
          total := q.total + data.length } x
          ((OrdMap.get?_set_ne (Ne.symm hx)).trans hl)
        refine ⟨l',.of_rests ?_ hrests rfl hpushed⟩
        simpa [FairQueue.step,FairQueue.push,hlx,hdata] using hl'

theorem grant_kept (hl : q.lanes.get? id = some l) (x n : Nat) :
    ∃ l',LaneKept id q (.grant x n) l l' := by
  by_cases hx : x = id
  · subst hx
    obtain ⟨l',hl',hrests,hdeficit⟩ := requeue_rests { q with
        lanes := q.lanes.set x { l with credit := l.credit.map fun c => c.grant n } } x
      (OrdMap.get?_set_self _ _ _)
    refine ⟨l',?_,?_,nofun,?_,?_,by rw [hdeficit]; exact Nat.le_max_left _ _⟩
    · simpa [FairQueue.step,FairQueue.grant,hl] using hl'
    · rw [hrests.chunks]
      simp [sentBytes,sentFor,pushedTo]
    · intro c hc
      refine ⟨c.grant n,by rw [hrests.credit]; simp [hc],?_⟩
      have hle := available_grant c n
      simpa [sentBytes,sentFor,grantedTo] using hle
    · intro _ hsend
      rw [hrests.sendable]
      simp only [Lane.sendable,Bool.and_eq_true] at hsend ⊢
      refine ⟨hsend.1,?_⟩
      cases hc : l.credit with
      | none => rfl
      | some c =>
        have hpos : 0 < c.available := by simpa [hc] using hsend.2
        simpa using available_grant_pos n hpos
  · cases hlx : q.lanes.get? x with
    | none =>
      obtain ⟨l',hl',hrests,hdeficit⟩ := requeue_rests q x hl
      refine ⟨l',.of_rests ?_ hrests rfl rfl⟩
      simpa [FairQueue.step,FairQueue.grant,hlx] using hl'
    | some lx =>
      obtain ⟨l',hl',hrests,hdeficit⟩ := requeue_rests { q with
          lanes := q.lanes.set x { lx with credit := lx.credit.map fun c => c.grant n } } x
        ((OrdMap.get?_set_ne (Ne.symm hx)).trans hl)
      refine ⟨l',.of_rests ?_ hrests rfl rfl⟩
      simpa [FairQueue.step,FairQueue.grant,hlx] using hl'

theorem pop_kept (hquantum : 0 < q.quantum) (hl : q.lanes.get? id = some l) (hfilled : Filled l)
    (most : Nat) : ∃ l',LaneKept id q (.pop most) l l' := by
  have hstep : q.step (.pop most) = (q.popFrom most q.ring).1 := rfl
  rcases hpop : q.popFrom most q.ring with ⟨q',_ | ⟨x,out⟩⟩
  · obtain ⟨l',hl',hrests⟩ := (popFrom_none hpop).1 id l hl
    refine ⟨l',.of_rests (by rw [hstep,hpop]; exact hl') hrests ?_ rfl⟩
    simp [sentFor,FairQueue.pop,hpop]
  · obtain ⟨before,after,lx,lx',hp⟩ := popFrom_served hquantum hpop
    by_cases hx : x = id
    · subst hx
      have hsent : sentFor x q (.pop most) = [(most,out)] := by
        simp [sentFor,FairQueue.pop,hpop]
      have hlane := hp.lane
      rw [hl] at hlane
      cases hlane
      refine ⟨lx',by rw [hstep,hpop]; exact hp.lane',?_,?_,?_,?_,?_⟩
      · rw [hsent]
        simpa [sentBytes,pushedTo] using hp.turn.chunks
      · rw [hsent]
        intro p hp'
        rw [List.mem_singleton.mp hp']
        exact ⟨hp.turn.carries hfilled,hp.turn.most⟩
      · intro c hc
        have hwithin := hp.turn.within c hc
        refine ⟨c.consume out.length,by rw [hp.turn.credit,hc]; rfl,?_⟩
        rw [hsent]
        simp only [sentBytes,List.map_cons,List.map_nil,List.flatten_cons,List.flatten_nil,
          List.append_nil,grantedTo,SendWindow.consume,SendWindow.available] at hwithin ⊢
        omega
      · intro hnone
        rw [hsent] at hnone
        cases hnone
      · have hturn := hp.turn.turn
        simp only [allowance] at hturn
        split at hturn <;> omega
    · obtain ⟨l',hl',hrests,_⟩ := hp.others id l (Ne.symm hx) hl
      refine ⟨l',.of_rests (by rw [hstep,hpop]; exact hl') hrests ?_ rfl⟩
      simp [sentFor,FairQueue.pop,hpop,hx]

theorem step_kept (hquantum : 0 < q.quantum) (hl : q.lanes.get? id = some l) (hfilled : Filled l)
    {op : FairOp} (hop : op ≠ .remove id) : ∃ l',LaneKept id q op l l' := by
  cases op with
  | openStream x credit =>
    refine ⟨l,.of_rests ?_ (Rests.refl l) rfl rfl⟩
    simp only [FairQueue.step,FairQueue.openStream]
    split
    · exact hl
    · next hnew =>
      refine (OrdMap.get?_set_ne ?_).trans hl
      rintro rfl
      exact hnew (by rw [OrdMap.contains,hl]; rfl)
  | push x data => exact push_kept hl x data
  | grant x n => exact grant_kept hl x n
  | pop most => exact pop_kept hquantum hl hfilled most
  | requeue x =>
    obtain ⟨l',hl',hrests,hdeficit⟩ := requeue_rests q x hl
    exact ⟨l',.of_rests hl' hrests rfl rfl⟩
  | remove x =>
    have hx : id ≠ x := by
      rintro rfl
      exact hop rfl
    refine ⟨l,.of_rests ?_ (Rests.refl l) rfl rfl⟩
    simp only [FairQueue.step,FairQueue.remove]
    split
    · exact hl
    · exact (OrdMap.get?_erase_ne hx).trans hl

theorem quantum_step (hquantum : 0 < q.quantum) (op : FairOp) :
    (q.step op).quantum = q.quantum := by
  cases op with
  | openStream x credit =>
    simp only [FairQueue.step,FairQueue.openStream]
    split <;> rfl
  | push x data =>
    simp only [FairQueue.step,FairQueue.push]
    split
    · rfl
    · split
      · rfl
      · exact (requeue_get? _ x x).2.2
  | grant x n =>
    simp only [FairQueue.step,FairQueue.grant]
    split
    · exact (requeue_get? _ x x).2.2
    · exact (requeue_get? _ x x).2.2
  | pop most =>
    have hstep : q.step (.pop most) = (q.popFrom most q.ring).1 := rfl
    rcases hpop : q.popFrom most q.ring with ⟨q',_ | ⟨x,out⟩⟩
    · rw [hstep,hpop]
      exact (popFrom_none hpop).2.2
    · obtain ⟨_,_,_,_,hp⟩ := popFrom_served hquantum hpop
      rw [hstep,hpop]
      exact hp.quantum
  | requeue x => exact (requeue_get? q x x).2.2
  | remove x =>
    simp only [FairQueue.step,FairQueue.remove]
    split <;> rfl

/-- Fair, with a quantum that lets every turn send. -/
structure Serving (q : FairQueue) : Prop where
  fair : Fair q
  quantum : 0 < q.quantum

theorem serving_new (quantum : Nat) : Serving (.new quantum) :=
  ⟨fair_new quantum,Nat.lt_of_lt_of_le Nat.one_pos (Nat.le_max_right _ _)⟩

theorem Serving.step (h : Serving q) (op : FairOp) : Serving (q.step op) :=
  ⟨step_fair h.fair op,by rw [quantum_step h.quantum]; exact h.quantum⟩

theorem serving_run (quantum : Nat) (ops : List FairOp) :
    Serving (run FairQueue.step (.new quantum) ops) :=
  run_invariant (I := Serving) (fun _ op h => h.step op) (serving_new quantum) ops

/-- The chunks sent for a stream during some calls, in order. -/
def sentAlong (id : Nat) : FairQueue → List FairOp → List (Nat × Bytes)
  | _,[] => []
  | q,op :: ops => sentFor id q op ++ sentAlong id (q.step op) ops

theorem sentBytes_append (a b : List (Nat × Bytes)) :
    sentBytes (a ++ b) = sentBytes a ++ sentBytes b := by
  simp [sentBytes]

theorem run_kept (h : Serving q) (hl : q.lanes.get? id = some l) {ops : List FairOp}
    (hops : .remove id ∉ ops) : ∃ l',(run FairQueue.step q ops).lanes.get? id = some l' ∧
      sentBytes (sentAlong id q ops) ++ l'.chunks.flatten =
        l.chunks.flatten ++ ops.flatMap (pushedTo id) ∧
      (∀ p ∈ sentAlong id q ops,p.2 ≠ [] ∧ (0 < p.1 → p.2.length ≤ p.1)) ∧
      ∀ c,l.credit = some c → ∃ c',l'.credit = some c' ∧
        (sentBytes (sentAlong id q ops)).length + c'.available ≤
          c.available + (ops.map (grantedTo id)).sum := by
  induction ops generalizing q l with
  | nil =>
    refine ⟨l,hl,by simp [sentAlong,sentBytes],nofun,fun c hc => ⟨c,hc,?_⟩⟩
    simp [sentAlong,sentBytes]
  | cons op ops ih =>
    rw [List.mem_cons,not_or] at hops
    obtain ⟨l₁,hk⟩ := step_kept h.quantum hl (h.fair.filled id l hl) (Ne.symm hops.1)
    obtain ⟨l',hl',hbytes,hchunks,hcredit⟩ := ih (h.step op) hk.lane' hops.2
    refine ⟨l',hl',?_,?_,?_⟩
    · rw [sentAlong,sentBytes_append,List.append_assoc,hbytes,← List.append_assoc,hk.bytes,
        List.flatMap_cons,List.append_assoc]
    · intro p hp
      rcases List.mem_append.mp hp with hp | hp
      · exact hk.chunks p hp
      · exact hchunks p hp
    · intro c hc
      obtain ⟨c₁,hc₁,hle₁⟩ := hk.credit c hc
      obtain ⟨c',hc',hle⟩ := hcredit c₁ hc₁
      refine ⟨c',hc',?_⟩
      rw [sentAlong,sentBytes_append,List.length_append,List.map_cons,List.sum_cons]
      omega

/-- From when a stream is opened until it is removed, what was sent for it and what is
still queued are the bytes that were pushed, in order; no chunk is empty or longer than
was asked for, and no more is sent than its first credit and the grants allow. -/
theorem stream_is_sent_in_order (quantum : Nat) (before during : List FairOp) (id : Nat)
    (credit : Option SendWindow)
    (hnew : (run FairQueue.step (.new quantum) before).lanes.get? id = none)
    (hkeep : .remove id ∉ during) :
    let q₀ := (run FairQueue.step (.new quantum) before).openStream id credit
    let sent := sentAlong id q₀ during
    ∃ l,(run FairQueue.step q₀ during).lanes.get? id = some l ∧
      sentBytes sent ++ l.chunks.flatten = during.flatMap (pushedTo id) ∧
      (∀ p ∈ sent,p.2 ≠ [] ∧ (1 ≤ p.1 → p.2.length ≤ p.1)) ∧
      ∀ w,credit = some w →
        (sentBytes sent).length ≤ w.available + (during.map (grantedTo id)).sum := by
  intro q₀ sent
  have hserving : Serving q₀ := (serving_run quantum before).step (.openStream id credit)
  have hlane : q₀.lanes.get? id = some ⟨[],0,0,credit,false⟩ := by
    simp only [q₀,FairQueue.openStream]
    rw [if_neg (by rw [OrdMap.contains,hnew]; simp)]
    exact OrdMap.get?_set_self _ _ _
  obtain ⟨l,hl,hbytes,hchunks,hcredit⟩ := run_kept hserving hlane hkeep
  refine ⟨l,hl,by simpa using hbytes,hchunks,?_⟩
  intro w hw
  obtain ⟨c',_,hle⟩ := hcredit w hw
  exact Nat.le_trans (Nat.le_add_right _ _) hle

/-- Of seven bytes five go out, under a credit of three and a grant of two. -/
theorem stream_is_sent_in_order_once :
    let q₀ := (run FairQueue.step (.new 4) [.openStream 9 none,.push 9 [1]]).openStream 5
      (some ⟨3⟩)
    let during : List FairOp := [.push 5 [1,2,3,4],.pop 8,.pop 2,.push 5 [5,6,7],.pop 8,.grant 5 2,
      .pop 8,.pop 8]
    let sent := sentAlong 5 q₀ during
    (run FairQueue.step (.new 4) [.openStream 9 none,.push 9 [1]]).lanes.get? 5 = none ∧
    .remove 5 ∉ during ∧ sent = [(2,[1,2]),(8,[3]),(8,[4]),(8,[5])] ∧
    ∃ l,(run FairQueue.step q₀ during).lanes.get? 5 = some l ∧
      sentBytes sent ++ l.chunks.flatten = [1,2,3,4,5,6,7] := by
  intro q₀ during sent
  obtain ⟨l,hl,hbytes,_⟩ := stream_is_sent_in_order 4 [.openStream 9 none,.push 9 [1]] during 5
    (some ⟨3⟩) (by decide +kernel) (by decide)
  exact ⟨by decide +kernel,by decide,by decide +kernel,l,hl,hbytes⟩

/-- What another lane may still send before this one is served. -/
def ahead (id x : Nat) (q : FairQueue) : Nat :=
  if x ∈ q.ring.takeWhile (· != id) then
    match q.lanes.get? x with
    | some l => allowance q.quantum l
    | none => 0
  else 0

theorem takeWhile_ne {pre post : List Nat} (h : id ∉ pre) :
    (pre ++ id :: post).takeWhile (· != id) = pre := by
  rw [List.takeWhile_append_of_pos]
  · simp
  · intro x hx
    rw [bne_iff_ne]
    rintro rfl
    exact h hx

/-- Another lane may send no more than before when it keeps its deficit and comes to no
better place. -/
theorem ahead_le {x : Nat} {q q' : FairQueue} (hquantum : q'.quantum = q.quantum)
    (hring : x ∈ q'.ring.takeWhile (· != id) → x ∈ q.ring.takeWhile (· != id))
    (hlane : x ∈ q'.ring.takeWhile (· != id) → ∀ l',q'.lanes.get? x = some l' →
      ∃ l,q.lanes.get? x = some l ∧ l'.deficit = l.deficit) : ahead id x q' ≤ ahead id x q := by
  unfold ahead
  split
  · next hx =>
    rw [if_pos (hring hx)]
    split
    · next l' hl' =>
      obtain ⟨l,hl,hdeficit⟩ := hlane hx l' hl'
      rw [hl]
      simp only [allowance,hdeficit,hquantum,Nat.le_refl]
    · exact Nat.zero_le _
  · exact Nat.zero_le _

theorem takeWhile_append_one {ring : List Nat} (h : id ∈ ring) (x : Nat) :
    (ring ++ [x]).takeWhile (· != id) = ring.takeWhile (· != id) := by
  obtain ⟨pre,post,rfl,hnot⟩ := List.eq_append_cons_of_mem h
  rw [List.append_assoc,List.cons_append,takeWhile_ne hnot,takeWhile_ne hnot]

/-- A lane that is put at the end of the ring lets no other lane go before this one. -/
theorem requeue_ahead (h : id ∈ q.ring) (x y : Nat) :
    ahead id x (q.requeue y) ≤ ahead id x q := by
  obtain ⟨hlane,hring,hquantum⟩ := requeue_get? q y x
  have htake : (q.requeue y).ring.takeWhile (· != id) = q.ring.takeWhile (· != id) := by
    rcases hring with hring | hring <;> rw [hring]
    exact takeWhile_append_one h y
  refine ahead_le hquantum (fun hx => by rwa [htake] at hx) ?_
  intro _ l' hl'
  rcases hlane with heq | ⟨l,hl,heq⟩
  · exact ⟨l',heq ▸ hl',rfl⟩
  · rw [hl'] at heq
    cases heq
    exact ⟨l,hl,rfl⟩

theorem Serving.mem_ring (h : Serving q) (hl : q.lanes.get? id = some l)
    (hsend : l.sendable = true) : id ∈ q.ring :=
  (h.fair.mem_ring hl).mpr (h.fair.waiting id l (by simp) hl hsend)

/-- A lane replaced by one with the same deficit, and put in the ring if it can send. -/
theorem put_ahead (hmem : id ∈ q.ring) {x y : Nat} {ly ly' : Lane}
    (hly : q.lanes.get? y = some ly) (hdeficit : ly'.deficit = ly.deficit) (total : Nat) :
    ahead id x ({ q with lanes := q.lanes.set y ly',total := total }.requeue y) ≤
      ahead id x q := by
  have hput : id ∈ ({ q with lanes := q.lanes.set y ly',total := total } : FairQueue).ring := hmem
  refine Nat.le_trans (requeue_ahead hput x y) (ahead_le rfl (fun hx => hx) ?_)
  intro _ l' hl'
  by_cases hxy : x = y
  · subst hxy
    rw [OrdMap.get?_set_self] at hl'
    cases hl'
    exact ⟨ly,hly,hdeficit⟩
  · rw [OrdMap.get?_set_ne hxy] at hl'
    exact ⟨l',hl',rfl⟩

/-- What a call of `pop` that serves another lane leaves to the lanes before this one. -/
theorem pop_ahead (h : Serving q) (hl : q.lanes.get? id = some l) (hsend : l.sendable = true)
    {x y most : Nat} (hx : x ≠ id) (hy : y ≠ id) {out : Bytes}
    (hpop : q.popFrom most q.ring = (q',some (y,out))) :
    (if y = x then out.length else 0) + ahead id x q' ≤ ahead id x q := by
  obtain ⟨before,after,ly,ly',hp⟩ := popFrom_served h.quantum hpop
  have honce := h.fair.once
  have hmem := h.mem_ring hl hsend
  rw [hp.ring] at honce hmem
  have hbefore : id ∉ before := by
    intro hin
    rw [hp.passed id hin l hl] at hsend
    cases hsend
  -- this lane stands behind the one that is served
  have hafter : id ∈ after := by
    rcases List.mem_append.mp hmem with hin | hin
    · exact absurd hin hbefore
    · rcases List.mem_cons.mp hin with heq | hin
      · exact absurd heq.symm hy
      · exact hin
  obtain ⟨pre,post,rfl,hpre⟩ := List.eq_append_cons_of_mem hafter
  have htake : q.ring.takeWhile (· != id) = before ++ y :: pre := by
    rw [hp.ring,← List.cons_append,← List.append_assoc,takeWhile_ne]
    simp only [List.mem_append,List.mem_cons,not_or]
    exact ⟨hbefore,Ne.symm hy,hpre⟩
  have hfront : (y :: (pre ++ id :: post)).takeWhile (· != id) = y :: pre := by
    rw [← List.cons_append,takeWhile_ne]
    simp only [List.mem_cons,not_or]
    exact ⟨Ne.symm hy,hpre⟩
  have hback : (pre ++ id :: post).takeWhile (· != id) = pre := takeWhile_ne hpre
  have hback' : (pre ++ id :: post ++ [y]).takeWhile (· != id) = pre := by
    rw [takeWhile_append_one (by simp),hback]
  obtain ⟨_,hsecond,hapart⟩ := List.nodup_append.mp honce
  obtain ⟨hynot,_⟩ := List.nodup_cons.mp hsecond
  have hypre : y ∉ pre := fun hin => hynot (List.mem_append_left _ hin)
  by_cases hyx : y = x
  · subst hyx
    have hnow : ahead id y q = allowance q.quantum ly := by
      rw [ahead,htake,if_pos (by simp),hp.lane]
    have hturn := hp.turn.turn
    rw [if_pos rfl,hnow]
    rcases hp.place with ⟨hpos,hring⟩ | ⟨hzero,hring⟩
    · rw [ahead,hring,hfront,if_pos List.mem_cons_self,hp.lane']
      simp only [allowance] at hturn ⊢
      rw [if_neg (by omega)]
      exact hturn
    · have hnone : ahead id y q' = 0 := by
        rw [ahead,if_neg]
        rcases hring with hring | hring <;> rw [hring]
        · rwa [hback]
        · rwa [hback']
      omega
  · rw [if_neg hyx,Nat.zero_add]
    have hin : x ∈ q'.ring.takeWhile (· != id) → x ∈ pre := by
      intro hin
      rcases hp.place with ⟨_,hring⟩ | ⟨_,hring | hring⟩ <;> rw [hring] at hin
      · rw [hfront] at hin
        rcases List.mem_cons.mp hin with heq | hin
        · exact absurd heq.symm hyx
        · exact hin
      · rwa [hback] at hin
      · rwa [hback'] at hin
    refine ahead_le hp.quantum (fun hx' => ?_) (fun hx' l' hl' => ?_)
    · rw [htake]
      exact List.mem_append_right _ (List.mem_cons_of_mem _ (hin hx'))
    · have hxring : x ∈ q.ring := by
        rw [hp.ring]
        exact List.mem_append_right _ (List.mem_cons_of_mem _ (List.mem_append_left _ (hin hx')))
      obtain ⟨lx,hlx,_⟩ := (h.fair.marked x).mp hxring
      obtain ⟨lx',hlx',_,hsame⟩ := hp.others x lx (Ne.symm hyx) hlx
      rw [hl'] at hlx'
      cases hlx'
      refine ⟨lx,hlx,hsame fun hxb => ?_⟩
      exact hapart x hxb x (List.mem_cons_of_mem _ (List.mem_append_left _ (hin hx'))) rfl

theorem step_ahead (h : Serving q) (hl : q.lanes.get? id = some l) (hsend : l.sendable = true)
    {x : Nat} (hx : x ≠ id) {op : FairOp} (hop : op ≠ .remove id) (hserve : sentFor id q op = []) :
    (sentBytes (sentFor x q op)).length + ahead id x (q.step op) ≤ ahead id x q := by
  have hmem := h.mem_ring hl hsend
  cases op with
  | openStream y credit =>
    simp only [sentFor,sentBytes,List.map_nil,List.flatten_nil,List.length_nil,Nat.zero_add,
      FairQueue.step,FairQueue.openStream]
    split
    · exact Nat.le_refl _
    · next hnew =>
      refine ahead_le rfl (fun hx' => hx') ?_
      intro hx' l' hl'
      have hxring : x ∈ q.ring := (List.takeWhile_prefix _).subset hx'
      obtain ⟨lx,hlx,_⟩ := (h.fair.marked x).mp hxring
      have hne : x ≠ y := by
        rintro rfl
        exact hnew (by rw [OrdMap.contains,hlx]; rfl)
      rw [OrdMap.get?_set_ne hne] at hl'
      exact ⟨l',hl',rfl⟩
  | push y data =>
    simp only [sentFor,sentBytes,List.map_nil,List.flatten_nil,List.length_nil,Nat.zero_add,
      FairQueue.step,FairQueue.push]
    split
    · exact Nat.le_refl _
    · next ly hly =>
      split
      · exact Nat.le_refl _
      · refine put_ahead hmem hly ?_ _
        rfl
  | grant y n =>
    simp only [sentFor,sentBytes,List.map_nil,List.flatten_nil,List.length_nil,Nat.zero_add,
      FairQueue.step,FairQueue.grant]
    split
    · next ly hly =>
      refine put_ahead hmem hly ?_ _
      rfl
    · exact requeue_ahead hmem x y
  | pop most =>
    have hstep : q.step (.pop most) = (q.popFrom most q.ring).1 := rfl
    rcases hpop : q.popFrom most q.ring with ⟨q',_ | ⟨y,out⟩⟩
    · rw [(popFrom_none hpop).2.1 id hmem l hl] at hsend
      cases hsend
    · have hy : y ≠ id := by
        rintro rfl
        simp [sentFor,FairQueue.pop,hpop] at hserve
      have hle := pop_ahead h hl hsend hx hy hpop
      have hlen : (sentBytes (sentFor x q (.pop most))).length =
          if y = x then out.length else 0 := by
        simp only [sentFor,FairQueue.pop,hpop]
        split <;> simp [sentBytes]
      rw [hlen,hstep,hpop]
      exact hle
  | requeue y =>
    simp only [sentFor,sentBytes,List.map_nil,List.flatten_nil,List.length_nil,Nat.zero_add]
    exact requeue_ahead hmem x y
  | remove y =>
    have hne : id ≠ y := by
      rintro rfl
      exact hop rfl
    simp only [sentFor,sentBytes,List.map_nil,List.flatten_nil,List.length_nil,Nat.zero_add,
      FairQueue.step,FairQueue.remove]
    split
    · exact Nat.le_refl _
    · obtain ⟨pre,post,hring,hpre⟩ := List.eq_append_cons_of_mem hmem
      have htake : (q.ring.filter fun z => z ≠ y).takeWhile (· != id) =
          pre.filter fun z => z ≠ y := by
        rw [hring,List.filter_append,List.filter_cons_of_pos (by simpa using hne),takeWhile_ne]
        exact fun hin => hpre (List.mem_of_mem_filter hin)
      refine ahead_le rfl ?_ ?_
      · intro hx'
        rw [htake] at hx'
        rw [hring,takeWhile_ne hpre]
        exact List.mem_of_mem_filter hx'
      · intro hx' l' hl'
        have hxy : x ≠ y := by
          rw [htake] at hx'
          simpa using (List.mem_filter.mp hx').2
        rw [OrdMap.get?_erase_ne hxy] at hl'
        exact ⟨l',hl',rfl⟩

theorem run_ahead (h : Serving q) (hl : q.lanes.get? id = some l) (hsend : l.sendable = true)
    {x : Nat} (hx : x ≠ id) {ops : List FairOp} (hops : .remove id ∉ ops)
    (hserve : sentAlong id q ops = []) :
    (sentBytes (sentAlong x q ops)).length ≤ ahead id x q := by
  induction ops generalizing q l with
  | nil => exact Nat.zero_le _
  | cons op ops ih =>
    rw [List.mem_cons,not_or] at hops
    obtain ⟨hnow,hlater⟩ := List.append_eq_nil_iff.mp hserve
    obtain ⟨l',hk⟩ := step_kept h.quantum hl (h.fair.filled id l hl) (Ne.symm hops.1)
    have hstep := step_ahead h hl hsend hx (Ne.symm hops.1) hnow
    have hrest := ih (h.step op) hk.lane' (hk.keeps hnow hsend) hops.2 hlater
    rw [sentAlong,sentBytes_append,List.length_append]
    omega

theorem popFrom_missing {x : Nat} (hx : q.lanes.get? x = none) :
    (q.popFrom most ring).1.lanes.get? x = none := by
  induction ring generalizing q with
  | nil => exact hx
  | cons y ring ih =>
    simp only [FairQueue.popFrom]
    cases hly : q.lanes.get? y with
    | none => exact ih hx
    | some ly =>
      have hne : x ≠ y := by
        rintro rfl
        rw [hx] at hly
        cases hly
      have hset : ∀ lane,(q.lanes.set y lane).get? x = none :=
        fun lane => (OrdMap.get?_set_ne hne).trans hx
      dsimp only
      split
      · exact ih (hset _)
      · generalize (if ly.deficit = 0 then { ly with queued := false,deficit := q.quantum }
          else { ly with queued := false }) = l₀
        split
        · exact ih (hset _)
        · split
          · exact hset _
          · rcases (requeue_get? _ y x).1 with heq | ⟨lane,hlane,_⟩
            · exact heq.trans (hset _)
            · rw [hset] at hlane
              cases hlane

/-- The deficit of a lane is never more than a quantum. -/
def Bounded (q : FairQueue) : Prop :=
  ∀ id l,q.lanes.get? id = some l → l.deficit ≤ q.quantum

/-- A lane that was not there is one of a stream just opened. -/
theorem step_missing {x : Nat} (hx : q.lanes.get? x = none) {op : FairOp} {l' : Lane}
    (hl' : (q.step op).lanes.get? x = some l') : l'.deficit = 0 := by
  have hrequeue : ∀ (q₁ : FairQueue) (y : Nat),q₁.lanes.get? x = none →
      (q₁.requeue y).lanes.get? x ≠ some l' := by
    intro q₁ y hnone heq
    rcases (requeue_get? q₁ y x).1 with h | ⟨lane,hlane,_⟩
    · rw [h,hnone] at heq
      cases heq
    · rw [hnone] at hlane
      cases hlane
  have hset : ∀ y ly,q.lanes.get? y = some ly → ∀ lane,(q.lanes.set y lane).get? x = none := by
    intro y ly hly lane
    have hne : x ≠ y := by
      rintro rfl
      rw [hx] at hly
      cases hly
    exact (OrdMap.get?_set_ne hne).trans hx
  cases op with
  | openStream y credit =>
    simp only [FairQueue.step,FairQueue.openStream] at hl'
    split at hl'
    · rw [hx] at hl'
      cases hl'
    · rw [OrdMap.get?_set] at hl'
      split at hl'
      · cases hl'
        rfl
      · rw [hx] at hl'
        cases hl'
  | push y data =>
    simp only [FairQueue.step,FairQueue.push] at hl'
    split at hl'
    · rw [hx] at hl'
      cases hl'
    · next ly hly =>
      split at hl'
      · rw [hx] at hl'
        cases hl'
      · exact absurd hl' (hrequeue _ y (hset y ly hly _))
  | grant y n =>
    simp only [FairQueue.step,FairQueue.grant] at hl'
    split at hl'
    · next ly hly => exact absurd hl' (hrequeue _ y (hset y ly hly _))
    · exact absurd hl' (hrequeue _ y hx)
  | pop most =>
    have hnone : (q.step (.pop most)).lanes.get? x = none := popFrom_missing hx
    rw [hnone] at hl'
    cases hl'
  | requeue y => exact absurd hl' (hrequeue q y hx)
  | remove y =>
    simp only [FairQueue.step,FairQueue.remove] at hl'
    split at hl'
    · rw [hx] at hl'
      cases hl'
    · rw [OrdMap.get?_erase,hx] at hl'
      simp at hl'

theorem Bounded.step (h : Serving q) (hb : Bounded q) (op : FairOp) : Bounded (q.step op) := by
  intro id l' hl'
  rw [quantum_step h.quantum]
  cases hl : q.lanes.get? id with
  | none =>
    rw [step_missing hl hl']
    exact Nat.zero_le _
  | some l =>
    by_cases hop : op = .remove id
    · subst hop
      simp only [FairQueue.step,FairQueue.remove,hl] at hl'
      rw [OrdMap.get?_erase_self] at hl'
      cases hl'
    · obtain ⟨l₁,hk⟩ := step_kept h.quantum hl (h.fair.filled id l hl) hop
      rw [hk.lane'] at hl'
      cases hl'
      have hle := hb id l hl
      have hmax := hk.deficit
      omega

theorem ahead_le_quantum (hb : Bounded q) (id x : Nat) : ahead id x q ≤ q.quantum := by
  unfold ahead
  split
  · split
    · next l hl =>
      have hle := hb x l hl
      unfold allowance
      split <;> omega
    · exact Nat.zero_le _
  · exact Nat.zero_le _

theorem bounded_run (quantum : Nat) (ops : List FairOp) :
    Bounded (run FairQueue.step (.new quantum) ops) ∧
    (run FairQueue.step (.new quantum) ops).quantum = max quantum 1 := by
  have hall : Serving (run FairQueue.step (.new quantum) ops) ∧
      Bounded (run FairQueue.step (.new quantum) ops) ∧
      (run FairQueue.step (.new quantum) ops).quantum = max quantum 1 := by
    refine run_invariant (I := fun q => Serving q ∧ Bounded q ∧ q.quantum = max quantum 1) ?_
      ⟨serving_new quantum,fun id l hl => by simp [FairQueue.new] at hl,rfl⟩ ops
    rintro q op ⟨hserving,hbounded,heq⟩
    exact ⟨hserving.step op,hbounded.step hserving op,(quantum_step hserving.quantum op).trans heq⟩
  exact hall.2

/-- While a stream that can send waits to be served, every other stream is sent no more
than one quantum, whatever is called meanwhile. -/
theorem waiting_stream_is_overtaken_once (quantum : Nat) (before ops : List FairOp) (id : Nat)
    (l : Lane) (hl : (run FairQueue.step (.new quantum) before).lanes.get? id = some l)
    (hsend : l.sendable = true) (hkeep : .remove id ∉ ops)
    (hwait : sentAlong id (run FairQueue.step (.new quantum) before) ops = []) (x : Nat)
    (hx : x ≠ id) :
    (sentBytes (sentAlong x (run FairQueue.step (.new quantum) before) ops)).length ≤
      max quantum 1 := by
  obtain ⟨hbounded,hquantum⟩ := bounded_run quantum before
  have hle := run_ahead (serving_run quantum before) hl hsend hx hkeep hwait
  have hmost := ahead_le_quantum hbounded id x
  omega

/-- A stream with more to send takes its quantum of four in two chunks, and waits then. -/
theorem waiting_stream_is_overtaken_once_here :
    let q := run FairQueue.step (.new 4) [.openStream 1 none,.openStream 2 none,
      .push 1 [1,2,3,4,5,6],.push 2 [7]]
    let ops : List FairOp := [.pop 3,.push 1 [8],.pop 3,.grant 1 5]
    (∃ l,q.lanes.get? 2 = some l ∧ l.sendable = true) ∧ sentAlong 2 q ops = [] ∧
    sentBytes (sentAlong 1 q ops) = [1,2,3,4] ∧ (sentBytes (sentAlong 1 q ops)).length ≤ 4 ∧
    (q.step (.pop 3)).ring = [1,2] ∧ sentFor 2 (run FairQueue.step q ops) (.pop 3) = [(3,[7])] := by
  intro q ops
  exact ⟨⟨⟨[[7]],1,0,none,true⟩,by decide +kernel,by decide⟩,by decide +kernel,by decide +kernel,
    waiting_stream_is_overtaken_once 4 [.openStream 1 none,.openStream 2 none,
      .push 1 [1,2,3,4,5,6],.push 2 [7]] ops 2 ⟨[[7]],1,0,none,true⟩ (by decide +kernel)
      (by decide) (by decide) (by decide +kernel) 1 (by decide),by decide +kernel,by decide +kernel⟩

end Flagship.Relay.Proofs

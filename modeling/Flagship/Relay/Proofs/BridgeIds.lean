import Mathlib.Data.List.Perm.Subperm
import Mathlib.Data.Int.ModEq
import Flagship.Relay.Hub

namespace Flagship.Relay.Proofs
open Lib Relay

/-- The ids the odd or the even end of a bridge counts through. -/
structure OnCycle (odd : Bool) (id : Nat) : Prop where
  parity : id % 2 = if odd then 1 else 0
  pos : 0 < id
  bounded : id ≤ bridgeMaxStreamId

variable {odd : Bool} {id : Nat}

theorem onCycle_first (odd : Bool) : OnCycle odd (bridgeFirst odd) := by
  cases odd
  · exact ⟨rfl,by decide,by decide⟩
  · exact ⟨rfl,by decide,by decide⟩

theorem bridgeNext_below (h : id < bridgeMaxStreamId - 1) : bridgeNext odd id = id + 2 := by
  unfold bridgeNext
  rw [if_neg (by omega)]

theorem bridgeNext_top (h : bridgeMaxStreamId - 1 ≤ id) : bridgeNext odd id = bridgeFirst odd := by
  unfold bridgeNext
  rw [if_pos h]

theorem OnCycle.next (h : OnCycle odd id) : OnCycle odd (bridgeNext odd id) := by
  have hp := h.parity
  by_cases htop : id < bridgeMaxStreamId - 1
  · rw [bridgeNext_below htop]
    exact ⟨by omega,by omega,by omega⟩
  · rw [bridgeNext_top (by omega)]
    exact onCycle_first odd

section
variable {next : Nat → Nat} {taken : Nat → Bool} {steps start : Nat}

theorem freeId_free (h : freeId next taken steps start = some id) : taken id = false := by
  induction steps generalizing start with
  | zero => cases h
  | succ steps ih =>
    simp only [freeId] at h
    split at h
    · exact ih h
    · rename_i hfree
      simp only [Option.some.injEq] at h
      subst h
      simpa using hfree

theorem freeId_invariant {I : Nat → Prop} (hnext : ∀ id, I id → I (next id))
    (hs : I start) (h : freeId next taken steps start = some id) : I id := by
  induction steps generalizing start with
  | zero => cases h
  | succ steps ih =>
    simp only [freeId] at h
    split at h
    · exact ih (hnext start hs) h
    · simp only [Option.some.injEq] at h
      exact h ▸ hs

theorem freeId_none (h : freeId next taken steps start = none) :
    ∀ i < steps, taken (next^[i] start) = true := by
  induction steps generalizing start with
  | zero => intro i hi; omega
  | succ steps ih =>
    simp only [freeId] at h
    split at h
    · rename_i htaken
      rintro (_ | i) hi
      · exact htaken
      · exact ih h i (by omega)
    · cases h

/-- The search never passes a free id further up. -/
theorem freeId_le {free : Nat} (hs : OnCycle odd start) (hf : OnCycle odd free)
    (hle : start ≤ free) (hfree : taken free = false)
    (h : freeId (bridgeNext odd) taken steps start = some id) : id ≤ free := by
  induction steps generalizing start with
  | zero => cases h
  | succ steps ih =>
    simp only [freeId] at h
    split at h
    · rename_i htaken
      have hne : start ≠ free := by
        rintro rfl
        simp [hfree] at htaken
      have hp := hs.parity
      have hpf := hf.parity
      have hb := hf.bounded
      have hup : start + 2 ≤ free := by omega
      rw [bridgeNext_below (by omega)] at h
      refine ih ?_ hup h
      have hnext : bridgeNext odd start = start + 2 := bridgeNext_below (by omega)
      exact hnext ▸ hs.next
    · simp only [Option.some.injEq] at h
      exact h ▸ hle

/-- With everything below it taken, the search climbs to a free id. -/
theorem freeId_climbs {free : Nat} (hs : OnCycle odd start) (hf : OnCycle odd free)
    (hle : start ≤ free) (hfree : taken free = false)
    (hbelow : ∀ id, OnCycle odd id → start ≤ id → id < free → taken id = true)
    (hsteps : (free - start) / 2 < steps) :
    freeId (bridgeNext odd) taken steps start = some free := by
  induction steps generalizing start with
  | zero => omega
  | succ steps ih =>
    by_cases heq : start = free
    · simp [freeId,heq,hfree]
    · have hp := hs.parity
      have hpf := hf.parity
      have hb := hf.bounded
      have hup : start + 2 ≤ free := by omega
      have hnext : bridgeNext odd start = start + 2 := bridgeNext_below (by omega)
      simp only [freeId,hbelow start hs (le_refl _) (by omega),↓reduceIte,hnext]
      exact ih (hnext ▸ hs.next) hup (fun id hid hl hu => hbelow id hid (by omega) hu) (by omega)

end

/-- Where an id stands among those of its end. -/
def position (odd : Bool) (id : Nat) : Nat := (id - bridgeFirst odd) / 2

def cycleLength (odd : Bool) : Nat := if odd then 2 ^ 30 else 2 ^ 30 - 1

theorem position_next (h : OnCycle odd id) :
    position odd (bridgeNext odd id) = (position odd id + 1) % cycleLength odd := by
  have hp := h.parity
  have hpos := h.pos
  have hb := h.bounded
  unfold bridgeMaxStreamId at hb
  by_cases htop : id < bridgeMaxStreamId - 1
  · rw [bridgeNext_below htop]
    unfold bridgeMaxStreamId at htop
    cases odd
    · simp only [position,cycleLength,bridgeFirst,Bool.false_eq_true,↓reduceIte] at hp ⊢
      omega
    · simp only [position,cycleLength,bridgeFirst,↓reduceIte] at hp ⊢
      omega
  · rw [bridgeNext_top (by omega)]
    unfold bridgeMaxStreamId at htop
    cases odd
    · simp only [position,cycleLength,bridgeFirst,Bool.false_eq_true,↓reduceIte] at hp ⊢
      omega
    · simp only [position,cycleLength,bridgeFirst,↓reduceIte] at hp ⊢
      omega

theorem OnCycle.iterate (h : OnCycle odd id) (i : Nat) : OnCycle odd ((bridgeNext odd)^[i] id) := by
  induction i with
  | zero => exact h
  | succ i ih =>
    rw [Function.iterate_succ_apply']
    exact ih.next

theorem position_lt (h : OnCycle odd id) : position odd id < cycleLength odd := by
  have hp := h.parity
  have hpos := h.pos
  have hb := h.bounded
  unfold bridgeMaxStreamId at hb
  cases odd
  · simp only [position,cycleLength,bridgeFirst,Bool.false_eq_true,↓reduceIte] at hp ⊢
    omega
  · simp only [position,cycleLength,bridgeFirst,↓reduceIte] at hp ⊢
    omega

theorem position_iterate (h : OnCycle odd id) (i : Nat) :
    position odd ((bridgeNext odd)^[i] id) = (position odd id + i) % cycleLength odd := by
  induction i with
  | zero => exact (Nat.mod_eq_of_lt (position_lt h)).symm
  | succ i ih => rw [Function.iterate_succ_apply',position_next (h.iterate i),ih,Nat.mod_add_mod,
      Nat.add_assoc]

/-- The search comes to every id of its end before it comes to one again. -/
theorem iterate_injective (h : OnCycle odd id) {i j : Nat} (hi : i < cycleLength odd)
    (hj : j < cycleLength odd) (heq : (bridgeNext odd)^[i] id = (bridgeNext odd)^[j] id) : i = j := by
  have hp : (position odd id + i) % cycleLength odd = (position odd id + j) % cycleLength odd := by
    rw [← position_iterate h,← position_iterate h,heq]
  have hmod : i ≡ j [MOD cycleLength odd] := Nat.ModEq.add_left_cancel' _ hp
  exact hmod.eq_of_lt_of_lt hi hj

/-- A map holds at least as many pairs as any list of different keys of it. -/
theorem length_le_size {ν : Type} (m : OrdMap Nat ν) {ids : List Nat} (hn : ids.Nodup)
    (hin : ∀ id ∈ ids, m.contains id = true) : ids.length ≤ m.size := by
  have hsub : ids ⊆ m.keys := fun id hid => m.contains_iff_mem.mp (hin id hid)
  have hlen := (List.subperm_of_subset hn hsub).length_le
  simpa [OrdMap.keys,OrdMap.size] using hlen

/-- What an end of a bridge keeps for life. -/
structure CountsOn (odd : Bool) (t : Tunnel) : Prop where
  bridge : t.bridge = some odd
  counter : OnCycle odd t.nextId

section
variable {t : Tunnel}

theorem countsOn_of_eq {t' : Tunnel} (h : CountsOn odd t) (hb : t'.bridge = t.bridge)
    (hn : t'.nextId = t.nextId) : CountsOn odd t' := ⟨hb ▸ h.bridge,hn ▸ h.counter⟩

theorem countsOn_newBridge (cfg : HubConfig) (odd : Bool) : CountsOn odd (.newBridge cfg odd) :=
  ⟨rfl,onCycle_first odd⟩

/-- Whether an id is taken in the search of a bridge. -/
def takenOn (t : Tunnel) (id : Nat) : Bool := t.streams.contains id || id == 0

theorem OnCycle.takenOn_eq (h : OnCycle odd id) (t : Tunnel) :
    takenOn t id = t.streams.contains id := by
  have hpos := h.pos
  have hne : (id == 0) = false := by simpa using (by omega : id ≠ 0)
  simp [takenOn,hne]

/-- What an opened stream's id is, and what the end is after it. -/
theorem openStreamKind_spec (h : CountsOn odd t) {sni : Text} {t' : Tunnel}
    (hopen : t.openStreamKind sni = some (.ok (id,t'))) :
    t.closed = false ∧ t.streams.size < t.cfg.maxStreamsPerTunnel ∧
    freeId (bridgeNext odd) (takenOn t) (t.streams.size + 2) t.nextId = some id ∧
    t'.bridge = t.bridge ∧ t'.nextId = bridgeNext odd id := by
  unfold Tunnel.openStreamKind at hopen
  split at hopen
  · simp at hopen
  split at hopen
  · simp at hopen
  rename_i hc hsize
  simp only [Tunnel.allocateId,h.bridge,Option.map_map,Option.map_eq_some_iff,Function.comp_apply,
    Except.ok.injEq,Prod.mk.injEq] at hopen
  obtain ⟨id',hfree,rfl,rfl⟩ := hopen
  exact ⟨by simpa using hc,by omega,hfree,h.bridge.symm,rfl⟩

theorem openStreamKind_eq (h : CountsOn odd t) (hc : t.closed = false)
    (hsize : t.streams.size < t.cfg.maxStreamsPerTunnel)
    (hfree : freeId (bridgeNext odd) (takenOn t) (t.streams.size + 2) t.nextId = some id)
    (sni : Text) :
    t.openStreamKind sni = some (.ok (id,
      { t with nextId := bridgeNext odd id }.insertStream id sni t.streamCredit)) := by
  unfold takenOn at hfree
  unfold Tunnel.openStreamKind
  rw [if_neg (by simp [hc]),if_neg (by omega)]
  simp only [Tunnel.allocateId,h.bridge,hfree,Option.map_some]

theorem openStreamKind_onCycle (h : CountsOn odd t) {sni : Text} {t' : Tunnel}
    (hopen : t.openStreamKind sni = some (.ok (id,t'))) :
    OnCycle odd id ∧ t.streams.contains id = false ∧ CountsOn odd t' := by
  obtain ⟨-,-,hfree,hb,hn⟩ := openStreamKind_spec h hopen
  have hid : OnCycle odd id :=
    freeId_invariant (I := OnCycle odd) (fun _ hi => hi.next) h.counter hfree
  refine ⟨hid,?_,⟨hb ▸ h.bridge,hn ▸ hid.next⟩⟩
  rw [← hid.takenOn_eq t]
  exact freeId_free hfree

/-- An open ends unless every id of the end is open. -/
theorem openStreamKind_ends (h : CountsOn odd t) (hsize : t.streams.size + 2 ≤ cycleLength odd)
    (sni : Text) : t.openStreamKind sni ≠ none := by
  intro hnone
  unfold Tunnel.openStreamKind at hnone
  split at hnone
  · cases hnone
  split at hnone
  · cases hnone
  simp only [Tunnel.allocateId,h.bridge,Option.map_eq_none_iff] at hnone
  let ids := (List.range (t.streams.size + 2)).map (fun i => (bridgeNext odd)^[i] t.nextId)
  have hnodup : ids.Nodup := by
    refine List.Nodup.map_on ?_ List.nodup_range
    intro i hi j hj heq
    rw [List.mem_range] at hi hj
    exact iterate_injective h.counter (by omega) (by omega) heq
  have hopen : ∀ id ∈ ids, t.streams.contains id = true := by
    intro id hid
    obtain ⟨i,hi,rfl⟩ := List.mem_map.mp hid
    rw [← (h.counter.iterate i).takenOn_eq t]
    exact freeId_none hnone i (List.mem_range.mp hi)
  have hlen := length_le_size t.streams hnodup hopen
  simp only [ids,List.length_map,List.length_range] at hlen
  omega

theorem countsOn_foldl_endQueue (h : CountsOn odd t) (es : List (Nat × StreamEntry)) :
    CountsOn odd (es.foldl (fun t e => t.endQueue e.2.down) t) := by
  induction es generalizing t with
  | nil => exact h
  | cons e es ih => exact ih (countsOn_of_eq h rfl rfl)

theorem countsOn_remoteClose (h : CountsOn odd t) (id : Nat) (abort : Bool) :
    CountsOn odd (t.remoteClose id abort) := by
  unfold Tunnel.remoteClose
  split
  · exact h
  · cases abort
    · exact countsOn_of_eq h rfl rfl
    · simp only [↓reduceIte,Tunnel.abortQueue]
      split
      · exact countsOn_of_eq h rfl rfl
      · exact countsOn_of_eq h rfl rfl

theorem countsOn_close (h : CountsOn odd t) : CountsOn odd t.close := by
  unfold Tunnel.close
  split
  · exact h
  · refine countsOn_foldl_endQueue ?_ _
    exact countsOn_of_eq h rfl rfl

theorem countsOn_acceptStream (h : CountsOn odd t) {sni : Text} {t' : Tunnel}
    (haccept : t.acceptStream id sni = .ok t') : CountsOn odd t' := by
  unfold Tunnel.acceptStream at haccept
  split at haccept
  · cases haccept
  split at haccept
  · cases haccept
  split at haccept
  · cases haccept
  simp only [Except.ok.injEq] at haccept
  exact haccept ▸ countsOn_of_eq h rfl rfl

end

/-- Both ends count on their own ids. -/
def Counting (b : Bridge) : Prop := ∀ odd, CountsOn odd (b odd)

section
variable {b : Bridge}

theorem counting_update {t : Tunnel} (h : Counting b) (ht : CountsOn odd t) :
    Counting (Function.update b odd t) := by
  intro side
  by_cases hside : side = odd
  · subst hside
    simpa using ht
  · simpa [Function.update,hside] using h side

theorem counting_step (b : Bridge) (op : BridgeOp) (h : Counting b) : Counting (b.step op) := by
  cases op with
  | openStream odd sni =>
    simp only [Bridge.step]
    split
    · rename_i hopen
      exact counting_update h (openStreamKind_onCycle (h odd) hopen).2.2
    · exact h
    · exact h
  | acceptStream odd id sni =>
    simp only [Bridge.step]
    split
    · rename_i haccept
      exact counting_update h (countsOn_acceptStream (h odd) haccept)
    · exact h
  | closeStream odd id => exact counting_update h (countsOn_of_eq (h odd) rfl rfl)
  | remoteClose odd id abort => exact counting_update h (countsOn_remoteClose (h odd) id abort)
  | killStream odd id =>
    exact counting_update h (countsOn_of_eq (countsOn_remoteClose (h odd) id true) rfl rfl)
  | close odd => exact counting_update h (countsOn_close (h odd))

/-- An end admits from its peer exactly the ids of the peer's cycle below the
top. -/
theorem theirs_iff (h : Counting b) (hid : OnCycle odd id) :
    (b !odd).theirs id = true ↔ id < bridgeMaxStreamId := by
  have hp := hid.parity
  have hpos := hid.pos
  cases odd
  · simp only [Bool.not_false,Tunnel.theirs,(h true).bridge,Bool.false_eq_true,↓reduceIte] at hp ⊢
    have hne : (id % 2 == 1) = false := by simp [hp]
    simp only [hne,Bool.and_eq_true,bne_iff_ne,decide_eq_true_eq,ne_eq,Bool.false_eq_true,
      not_false_eq_true,and_true]
    omega
  · simp only [Bool.not_true,Tunnel.theirs,(h false).bridge,↓reduceIte] at hp ⊢
    have heq : (id % 2 == 1) = true := by simp [hp]
    simp only [heq,Bool.and_eq_true,bne_iff_ne,decide_eq_true_eq,ne_eq,Bool.true_eq_false,
      not_false_eq_true,and_true]
    omega

end

/-- An id an end allocates is of its parity, is not open there, and passes the
peer's test. -/
def Admissible (b : Bridge) : BridgeOp → Prop
  | .openStream odd sni => ∀ id t, (b odd).openStreamKind sni = some (.ok (id,t)) →
      (id % 2 == 1) = odd ∧ (b odd).streams.contains id = false ∧ (b !odd).theirs id = true
  | _ => True

/-- When the odd end opens a stream, an odd id from its counter on is free below
the top one, or the top one is open too. -/
def SparesTop (b : Bridge) : BridgeOp → Prop
  | .openStream true _ =>
    (b true).closed = true ∨ (b true).cfg.maxStreamsPerTunnel ≤ (b true).streams.size ∨
    (b true).streams.contains bridgeMaxStreamId = true ∨
    ∃ id, (b true).nextId ≤ id ∧ id < bridgeMaxStreamId ∧ id % 2 = 1 ∧
      (b true).streams.contains id = false
  | _ => True

section
variable {b : Bridge}

theorem onCycle_top : OnCycle true bridgeMaxStreamId := ⟨by decide,by decide,le_refl _⟩

theorem admissible_of_below (h : Counting b) {sni : Text}
    (hbelow : ∀ id t, (b odd).openStreamKind sni = some (.ok (id,t)) → id < bridgeMaxStreamId) :
    Admissible b (.openStream odd sni) := by
  intro id t hopen
  obtain ⟨hid,hfree,-⟩ := openStreamKind_onCycle (h odd) hopen
  refine ⟨?_,hfree,(theirs_iff h hid).mpr (hbelow id t hopen)⟩
  have hp := hid.parity
  cases odd
  · simpa using hp
  · simpa using hp

/-- The odd end opens the top id exactly where everything from its counter up to
it is open and it is not. -/
theorem opens_top {t : Tunnel} (h : CountsOn true t) (sni : Text) (hc : t.closed = false)
    (hsize : t.streams.size < t.cfg.maxStreamsPerTunnel)
    (htop : t.streams.contains bridgeMaxStreamId = false)
    (hbelow : ∀ id, t.nextId ≤ id → id < bridgeMaxStreamId → id % 2 = 1 →
      t.streams.contains id = true) :
    ∃ t', t.openStreamKind sni = some (.ok (bridgeMaxStreamId,t')) := by
  have hle := h.counter.bounded
  have hp := h.counter.parity
  simp only [↓reduceIte] at hp
  have hroom : (bridgeMaxStreamId - t.nextId) / 2 ≤ t.streams.size := by
    let ids := (List.range ((bridgeMaxStreamId - t.nextId) / 2)).map (fun i => t.nextId + 2 * i)
    have hnodup : ids.Nodup := List.Nodup.map_on (fun i _ j _ heq => by omega) List.nodup_range
    have hlen := length_le_size t.streams hnodup (by
      intro id hid
      obtain ⟨i,hi,rfl⟩ := List.mem_map.mp hid
      rw [List.mem_range] at hi
      exact hbelow _ (by omega) (by omega) (by omega))
    simpa [ids] using hlen
  have hfree : freeId (bridgeNext true) (takenOn t) (t.streams.size + 2) t.nextId =
      some bridgeMaxStreamId := by
    refine freeId_climbs h.counter onCycle_top hle ?_ ?_ (by omega)
    · rw [onCycle_top.takenOn_eq]
      exact htop
    · intro id hid hl hu
      rw [hid.takenOn_eq]
      exact hbelow id hl hu hid.parity
  exact ⟨_,openStreamKind_eq h hc hsize hfree sni⟩

theorem admissible_iff_sparesTop (b : Bridge) (op : BridgeOp) (h : Counting b) :
    Admissible b op ↔ SparesTop b op := by
  rcases op with ⟨_ | _,sni⟩ | _ | _ | _ | _ | _
  case openStream.false =>
    refine iff_of_true (admissible_of_below h fun id t hopen => ?_) trivial
    -- the top id is odd, so the even end never comes to it
    obtain ⟨hid,-⟩ := openStreamKind_onCycle (h false) hopen
    have hp := hid.parity
    have hb := hid.bounded
    unfold bridgeMaxStreamId at hb ⊢
    simp only [Bool.false_eq_true,↓reduceIte] at hp
    omega
  case openStream.true =>
    constructor
    · intro hadm
      by_contra hspare
      simp only [SparesTop,not_or,not_exists,not_and,Bool.not_eq_true,Bool.not_eq_false] at hspare
      obtain ⟨hc,hsize,htop,hbelow⟩ := hspare
      obtain ⟨t',hopen⟩ := opens_top (h true) sni hc (by omega) htop hbelow
      have htheirs := (hadm _ _ hopen).2.2
      rw [theirs_iff h onCycle_top] at htheirs
      omega
    · intro hspare
      refine admissible_of_below h fun id t hopen => ?_
      obtain ⟨hc,hsize,hfree,-⟩ := openStreamKind_spec (h true) hopen
      obtain ⟨hid,hnew,-⟩ := openStreamKind_onCycle (h true) hopen
      have hb := hid.bounded
      rcases hspare with hs | hs | hs | ⟨free,hle,hlt,hodd,hnot⟩
      · simp [hc] at hs
      · omega
      · refine lt_of_le_of_ne hb ?_
        rintro rfl
        simp [hs] at hnew
      · have hcycle : OnCycle true free := ⟨hodd,by omega,by omega⟩
        have hle := freeId_le (h true).counter hcycle hle (by rw [hcycle.takenOn_eq,hnot]) hfree
        omega
  all_goals exact Iff.rfl

end

/-- The ids the two ends of a bridge allocate pass the other end's test in
exactly the runs where the odd end never comes to the top id. -/
theorem bridge_ids_admissible_iff (cfg : Bool → HubConfig) (ops : List BridgeOp) :
    Along Bridge.step Admissible (Bridge.new cfg) ops ↔
      Along Bridge.step SparesTop (Bridge.new cfg) ops :=
  along_congr counting_step admissible_iff_sparesTop
    (fun odd => countsOn_newBridge (cfg odd) odd) ops

/-- In every state that a bridge comes to, the search for an id ends while ids are left. -/
theorem bridge_opens_end (cfg : Bool → HubConfig) (ops : List BridgeOp) (odd : Bool) (sni : Text)
    (hsize : ((run Bridge.step (Bridge.new cfg) ops) odd).streams.size + 2 ≤ cycleLength odd) :
    ((run Bridge.step (Bridge.new cfg) ops) odd).openStreamKind sni ≠ none := by
  have hcounting : Counting (run Bridge.step (Bridge.new cfg) ops) :=
    run_invariant counting_step (fun odd => countsOn_newBridge (cfg odd) odd) ops
  exact openStreamKind_ends (hcounting odd) hsize sni

/-- The odd end opens a stream and closes it, over and over. -/
def openAndClose (n : Nat) : List BridgeOp :=
  (List.range n).flatMap (fun i => [.openStream true [],.closeStream true (1 + 2 * i)])

/-- The config a mesh bridge runs with. -/
def meshConfig : HubConfig := ⟨20000,streamInitialWindow,16 * 1024 * 1024⟩

theorem bridge_opens_end_twice :
    ((run Bridge.step (Bridge.new fun _ => meshConfig) [.openStream true []]) true).openStreamKind
      [] ≠ none :=
  bridge_opens_end (fun _ => meshConfig) [.openStream true []] true [] (by decide)

/-- An open end with nothing on it and its counter at `id`. -/
structure Idle (id : Nat) (t : Tunnel) : Prop where
  counts : CountsOn true t
  closed : t.closed = false
  cfg : t.cfg = meshConfig
  streams : t.streams = ∅
  counter : t.nextId = id

theorem erase_set_empty (id : Nat) (e : StreamEntry) :
    ((∅ : OrdMap Nat StreamEntry).set id e).erase id = ∅ := by
  simp [OrdMap.erase,OrdMap.filterMapVals,OrdMap.set,OrdMap.setList,EmptyCollection.emptyCollection,
    OrdMap.empty]

theorem Idle.openAndClose {id : Nat} {b : Bridge} (h : Idle id (b true)) :
    Idle (bridgeNext true id) ((run Bridge.step b [.openStream true [],.closeStream true id]) true) := by
  have hfree : freeId (bridgeNext true) (takenOn (b true)) ((b true).streams.size + 2)
      (b true).nextId = some id := by
    have hpos : id ≠ 0 := by
      have := h.counts.counter.pos
      rw [h.counter] at this
      omega
    rw [h.counter]
    simp [freeId,takenOn,h.streams,hpos]
  have hsize : (b true).streams.size < (b true).cfg.maxStreamsPerTunnel := by
    rw [h.streams,h.cfg]
    decide
  have hopen := openStreamKind_eq h.counts h.closed hsize hfree []
  have hcounts := (openStreamKind_onCycle h.counts hopen).2.2
  simp only [run_cons,run_nil,Bridge.step,hopen,Function.update_self]
  refine ⟨countsOn_of_eq hcounts rfl rfl,h.closed,h.cfg,?_,rfl⟩
  simp only [Tunnel.closeStream,Tunnel.insertStream,h.streams,erase_set_empty]

theorem idle_after {n : Nat} (hn : n < 2 ^ 30) :
    Idle (1 + 2 * n)
      ((run Bridge.step (Bridge.new fun _ => meshConfig) (openAndClose n)) true) := by
  induction n with
  | zero => exact ⟨countsOn_newBridge meshConfig true,rfl,rfl,rfl,rfl⟩
  | succ n ih =>
    have hstep := (ih (by omega)).openAndClose
    rw [bridgeNext_below (by unfold bridgeMaxStreamId; omega)] at hstep
    have hsplit : openAndClose (n + 1) =
        openAndClose n ++ [.openStream true [],.closeStream true (1 + 2 * n)] := by
      simp [openAndClose,List.range_succ]
    rw [hsplit,run_append]
    exact hstep

theorem opens_top_after {n : Nat} (hn : 1 + 2 * n = bridgeMaxStreamId) :
    ¬ Along Bridge.step Admissible (Bridge.new fun _ => meshConfig)
      (openAndClose n ++ [.openStream true []]) := by
  intro halong
  have hidle := idle_after (n := n) (by unfold bridgeMaxStreamId at hn; omega)
  have hadm := (along_append.mp halong).2.1
  have hcount : Counting (run Bridge.step (Bridge.new fun _ => meshConfig) (openAndClose n)) :=
    run_invariant (I := Counting) counting_step (fun odd => countsOn_newBridge meshConfig odd) _
  generalize run Bridge.step (Bridge.new fun _ => meshConfig) (openAndClose n) = b
    at hidle hadm hcount
  have hsize : (b true).streams.size < (b true).cfg.maxStreamsPerTunnel := by
    rw [hidle.streams,hidle.cfg]
    decide
  obtain ⟨t,hopen⟩ := opens_top hidle.counts [] hidle.closed hsize
    (by rw [hidle.streams]; rfl)
    (by intro id hl hu; rw [hidle.counter] at hl; omega)
  have htheirs := (hadm _ _ hopen).2.2
  rw [theirs_iff hcount onCycle_top] at htheirs
  omega

/-- After enough streams, one at a time, the odd end opens the top id, which the
even end refuses. -/
theorem odd_end_opens_top :
    ¬ Along Bridge.step Admissible (Bridge.new fun _ => meshConfig)
      (openAndClose 0x3fffffff ++ [.openStream true []]) :=
  opens_top_after (by decide)
end Flagship.Relay.Proofs

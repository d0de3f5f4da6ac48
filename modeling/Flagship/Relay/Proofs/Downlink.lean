import Mathlib.Algebra.Order.BigOperators.Group.List
import Flagship.Lib.Lists
import Flagship.Relay.Hub

namespace Flagship.Relay.Proofs
open Lib Relay

/-- A queue counts what it holds, and holds nothing once it was cut. -/
structure DownQueue.Sound (q : DownQueue) : Prop where
  counted : q.bytes = (q.chunks.map List.length).sum
  cut : q.aborted = true → q.chunks = []

/-- A queue that takes no more. -/
def DownQueue.Shut (q : DownQueue) : Prop := q.ended = true ∨ q.aborted = true

/-- The budget counts what the queues hold. -/
structure Balanced (t : Tunnel) : Prop where
  used : t.budget.used = (t.queues.map DownQueue.bytes).sum
  sound : ∀ q ∈ t.queues, DownQueue.Sound q

/-- Nothing comes to this queue any more. -/
def ShutAt (t : Tunnel) (i : Nat) : Prop := ∃ q, t.queues[i]? = some q ∧ DownQueue.Shut q

/-- And nothing is left in it. -/
def SpentAt (t : Tunnel) (i : Nat) : Prop :=
  ∃ q, t.queues[i]? = some q ∧ DownQueue.Shut q ∧ q.bytes = 0

/-- What happens to a tunnel keeps its balance, opens no shut queue and adds to no
spent one. -/
structure Kept (t t' : Tunnel) : Prop where
  queues : t'.queues.length = t.queues.length
  balanced : Balanced t → Balanced t'
  shut : ∀ i, ShutAt t i → ShutAt t' i
  spent : ∀ i, SpentAt t i → SpentAt t' i

variable {t t' t'' : Tunnel}

theorem Kept.trans (h : Kept t t') (h' : Kept t' t'') : Kept t t'' :=
  ⟨h'.queues.trans h.queues,fun hb => h'.balanced (h.balanced hb),
    fun i hi => h'.shut i (h.shut i hi),fun i hi => h'.spent i (h.spent i hi)⟩

theorem kept_of_eq (hq : t'.queues = t.queues) (hb : t'.budget = t.budget) : Kept t t' :=
  ⟨by rw [hq],fun h => ⟨by rw [hq,hb,h.used],fun q hm => h.sound q (hq ▸ hm)⟩,
    fun i h => by simpa only [ShutAt,hq] using h,fun i h => by simpa only [SpentAt,hq] using h⟩

/-- One queue is replaced, and the budget moves with it. -/
theorem kept_set {i : Nat} {q q' : DownQueue} {budget : Budget} (hi : t.queues[i]? = some q)
    (hq : t'.queues = t.queues.set i q') (hb : t'.budget = budget)
    (hsound : DownQueue.Sound q → DownQueue.Sound q')
    (hused : DownQueue.Sound q → q.bytes ≤ t.budget.used →
      budget.used + q.bytes = t.budget.used + q'.bytes)
    (hshut : DownQueue.Shut q → DownQueue.Shut q')
    (hempty : DownQueue.Shut q → q.bytes = 0 → q'.bytes = 0) : Kept t t' := by
  have hlt : i < t.queues.length := (List.getElem?_eq_some_iff.mp hi).1
  have hmem : q ∈ t.queues := List.mem_of_getElem? hi
  have hat : ∀ j, t'.queues[j]? = if j = i then some q' else t.queues[j]? := by
    intro j
    rw [hq,List.getElem?_set]
    by_cases hj : i = j
    · subst hj
      simp [hlt]
    · simp [hj,Ne.symm hj]
  refine ⟨by simp [hq],fun h => ⟨?_,?_⟩,fun j hj => ?_,fun j hj => ?_⟩
  · have hsum := sum_map_set DownQueue.bytes hi q'
    have hle : q.bytes ≤ t.budget.used := by
      rw [h.used]
      exact List.le_sum_of_mem (List.mem_map_of_mem hmem)
    have hmove := hused (h.sound q hmem) hle
    have hbal := h.used
    rw [hq,hb]
    omega
  · intro x hx
    rw [hq] at hx
    rcases List.mem_or_eq_of_mem_set hx with hx | rfl
    · exact h.sound x hx
    · exact hsound (h.sound q hmem)
  · obtain ⟨x,hx,hs⟩ := hj
    by_cases hji : j = i
    · subst hji
      obtain rfl : q = x := by simpa [hi] using hx
      exact ⟨q',by simp [hat],hshut hs⟩
    · exact ⟨x,by simp [hat,hji,hx],hs⟩
  · obtain ⟨x,hx,hs,hz⟩ := hj
    by_cases hji : j = i
    · subst hji
      obtain rfl : q = x := by simpa [hi] using hx
      exact ⟨q',by simp [hat],hshut hs,hempty hs hz⟩
    · exact ⟨x,by simp [hat,hji,hx],hs,hz⟩

theorem kept_endQueue (t : Tunnel) (i : Nat) : Kept t (t.endQueue i) := by
  cases hi : t.queues[i]? with
  | none =>
    have hlen := List.getElem?_eq_none_iff.mp hi
    exact kept_of_eq (List.modify_eq_self hlen) rfl
  | some q =>
    have hset : (t.endQueue i).queues = t.queues.set i q.finish := by
      simp [Tunnel.endQueue,List.modify_eq_set_getElem?,hi]
    exact kept_set hi hset rfl (fun h => ⟨h.counted,h.cut⟩) (fun _ _ => rfl)
      (fun _ => Or.inl rfl) (fun _ hz => hz)

theorem shutAt_endQueue {i : Nat} (h : i < t.queues.length) : ShutAt (t.endQueue i) i :=
  ⟨t.queues[i].finish,by simp [Tunnel.endQueue,h],Or.inl rfl⟩

theorem kept_abortQueue (t : Tunnel) (i : Nat) : Kept t (t.abortQueue i) := by
  unfold Tunnel.abortQueue
  split
  · exact kept_of_eq rfl rfl
  · rename_i q hi
    refine kept_set hi rfl rfl (fun _ => ⟨rfl,fun _ => rfl⟩) (fun _ hle => ?_) (fun _ => Or.inr rfl)
      (fun _ _ => rfl)
    simp only [DownQueue.abort,Budget.give]
    omega

theorem spentAt_abortQueue {i : Nat} (h : i < t.queues.length) : SpentAt (t.abortQueue i) i := by
  refine ⟨(t.queues[i].abort t.budget).1,?_,Or.inr rfl,rfl⟩
  simp [Tunnel.abortQueue,h]

theorem kept_closeStream (t : Tunnel) (id : Nat) : Kept t (t.closeStream id) := kept_of_eq rfl rfl

theorem kept_remoteClose (t : Tunnel) (id : Nat) (abort : Bool) : Kept t (t.remoteClose id abort) := by
  unfold Tunnel.remoteClose
  split
  · exact kept_of_eq rfl rfl
  · rename_i e he
    have hmark : Kept t { t with streams := t.streams.set id { e with remoteClosed := true } } :=
      kept_of_eq rfl rfl
    cases abort
    · exact hmark.trans (kept_endQueue _ _)
    · exact hmark.trans (kept_abortQueue _ _)

theorem kept_killStream (t : Tunnel) (id : Nat) : Kept t (t.killStream id) :=
  (kept_remoteClose t id true).trans (kept_of_eq rfl rfl)

theorem kept_consumed (t : Tunnel) (id n : Nat) : Kept t (t.consumed id n) := by
  unfold Tunnel.consumed
  split
  · exact kept_of_eq rfl rfl
  · exact kept_of_eq rfl rfl

theorem kept_foldl_endQueue (t : Tunnel) (es : List (Nat × StreamEntry)) :
    Kept t (es.foldl (fun t e => t.endQueue e.2.down) t) := by
  induction es generalizing t with
  | nil => exact kept_of_eq rfl rfl
  | cons e es ih => exact (kept_endQueue t e.2.down).trans (ih _)

theorem kept_closeAppStreams (t : Tunnel) (control : Text) : Kept t (t.closeAppStreams control) := by
  refine Kept.trans ?_ (kept_foldl_endQueue _ _)
  exact kept_of_eq rfl rfl

theorem kept_close (t : Tunnel) : Kept t t.close := by
  unfold Tunnel.close
  split
  · exact kept_of_eq rfl rfl
  · refine Kept.trans ?_ (kept_foldl_endQueue _ _)
    exact kept_of_eq rfl rfl

theorem kept_tryPush {i : Nat} {q q' : DownQueue} {budget : Budget} {data : Bytes}
    (hi : t.queues[i]? = some q) (h : q.tryPush t.budget data = .ok (q',budget)) :
    Kept t { t with queues := t.queues.set i q', budget := budget } := by
  unfold DownQueue.tryPush at h
  split at h
  · cases h
  rename_i hopen
  split at h
  · cases h
  split at h
  · cases h
  rename_i budget' htake
  simp only [Except.ok.injEq,Prod.mk.injEq] at h
  obtain ⟨rfl,rfl⟩ := h
  have hopen' : ¬ DownQueue.Shut q := by simpa [DownQueue.Shut] using hopen
  have hused : budget'.used = t.budget.used + data.length := by
    simp only [Budget.tryTake] at htake
    split at htake
    · cases htake
    · simp only [Option.some.injEq] at htake
      rw [← htake]
  refine kept_set hi rfl rfl (fun hs => ⟨?_,fun ha => ?_⟩) (fun _ _ => ?_)
    (fun hs => absurd hs hopen') (fun hs => absurd hs hopen')
  · simp [hs.counted]
  · exact absurd (Or.inr ha) hopen'
  · simp only
    omega

theorem kept_pop {i : Nat} {q q' : DownQueue} {budget : Budget} {c : Bytes}
    (hi : t.queues[i]? = some q) (h : q.pop t.budget = .chunk c q' budget) :
    Kept t { t with queues := t.queues.set i q', budget := budget } := by
  unfold DownQueue.pop at h
  split at h
  · cases h
  rename_i hopen
  split at h
  · rename_i chunk chunks hchunks
    simp only [Popped.chunk.injEq] at h
    obtain ⟨rfl,rfl,rfl⟩ := h
    refine kept_set hi rfl rfl (fun hs => ⟨?_,fun ha => absurd ha hopen⟩) (fun hs hle => ?_)
      (fun hs => hs) (fun _ hz => by simp [hz])
    · have hcount := hs.counted
      rw [hchunks,List.map_cons,List.sum_cons] at hcount
      simp only
      omega
    · have hcount := hs.counted
      rw [hchunks,List.map_cons,List.sum_cons] at hcount
      simp only [Budget.give]
      omega
  · split at h
    · cases h
    · cases h

/-- A pop that finds the end leaves nothing behind. -/
theorem spentAt_of_finished {i : Nat} {q : DownQueue} {budget : Budget} (hb : Balanced t)
    (hi : t.queues[i]? = some q) (h : q.pop budget = .finished) : SpentAt t i := by
  have hs := hb.sound q (List.mem_of_getElem? hi)
  have hcount := hs.counted
  unfold DownQueue.pop at h
  split at h
  · rename_i ha
    rw [hs.cut ha] at hcount
    exact ⟨q,hi,Or.inr ha,hcount⟩
  · split at h
    · cases h
    · rename_i hchunks
      split at h
      · rename_i hended
        rw [hchunks] at hcount
        exact ⟨q,hi,Or.inl hended,hcount⟩
      · cases h

theorem openStreamKind_queues {id : Nat} {sni : Text}
    (h : t.openStreamKind sni = some (.ok (id,t'))) :
    t'.queues = t.queues ++ [.new t.cfg.streamQueueBytes] ∧ t'.budget = t.budget := by
  unfold Tunnel.openStreamKind at h
  split at h
  · simp at h
  split at h
  · simp at h
  simp only [Option.map_eq_some_iff,Except.ok.injEq,Prod.mk.injEq] at h
  obtain ⟨_,-,-,rfl⟩ := h
  exact ⟨rfl,rfl⟩

/-- What a splice has queued, as long as it runs. -/
def queuedIfRunning (s : Visitors) (p : Pipe) : Nat :=
  if p.phase != .returned then s.queued p else 0

/-- Every queue belongs to one splice, takes no more once its splice only drains,
and is spent when the splice returned. -/
structure Settled (s : Visitors) : Prop where
  balanced : Balanced s.tunnel
  paired : s.pipes.map Pipe.down = List.range s.tunnel.queues.length
  draining : ∀ p ∈ s.pipes, p.phase = .draining → ShutAt s.tunnel p.down
  returned : ∀ p ∈ s.pipes, p.phase = .returned → SpentAt s.tunnel p.down

section
variable {s s' : Visitors}

theorem settled_new (cfg : HubConfig) (credit : Bool) : Settled (.new cfg credit) := by
  refine ⟨⟨rfl,?_⟩,rfl,?_,?_⟩
  all_goals simp [Visitors.new,Tunnel.new]

theorem Settled.down_lt (h : Settled s) {p : Pipe} (hp : p ∈ s.pipes) :
    p.down < s.tunnel.queues.length := by
  rw [← List.mem_range,← h.paired]
  exact List.mem_map_of_mem hp

/-- The splices stay as they are. -/
theorem Settled.keep (h : Settled s) (hk : Kept s.tunnel s'.tunnel) (hp : s'.pipes = s.pipes) :
    Settled s' :=
  ⟨hk.balanced h.balanced,by rw [hp,hk.queues,h.paired],
    fun p hm hd => hk.shut _ (h.draining p (hp ▸ hm) hd),
    fun p hm hr => hk.spent _ (h.returned p (hp ▸ hm) hr)⟩

/-- One splice moves on. -/
theorem Settled.move (h : Settled s) (hk : Kept s.tunnel s'.tunnel) {i : Nat} {p p' : Pipe}
    (hi : s.pipes[i]? = some p) (hp : s'.pipes = s.pipes.set i p') (hdown : p'.down = p.down)
    (hdrain : p'.phase = .draining → ShutAt s'.tunnel p.down)
    (hreturn : p'.phase = .returned → SpentAt s'.tunnel p.down) : Settled s' := by
  refine ⟨hk.balanced h.balanced,?_,?_,?_⟩
  · have hsame : (s.pipes.set i p').map Pipe.down = s.pipes.map Pipe.down := by
      rw [List.map_set,hdown]
      refine List.ext_getElem? fun j => ?_
      rw [List.getElem?_set]
      split
      · rename_i hij
        subst hij
        obtain ⟨hlt,hat⟩ := List.getElem?_eq_some_iff.mp hi
        simp [hlt,hat]
      · rfl
    rw [hp,hsame,hk.queues,h.paired]
  · intro x hx hd
    rw [hp] at hx
    rcases List.mem_or_eq_of_mem_set hx with hx | rfl
    · exact hk.shut _ (h.draining x hx hd)
    · exact hdown ▸ hdrain hd
  · intro x hx hr
    rw [hp] at hx
    rcases List.mem_or_eq_of_mem_set hx with hx | rfl
    · exact hk.spent _ (h.returned x hx hr)
    · exact hdown ▸ hreturn hr

theorem kept_unsplice (s : Visitors) (i : Nat) (p : Pipe) (phase : PipePhase) :
    Kept s.tunnel (s.unsplice i p phase).tunnel := by
  exact (kept_closeStream s.tunnel p.id).trans (kept_endQueue _ _)

theorem Settled.unsplice (h : Settled s) {i : Nat} {p : Pipe} (hi : s.pipes[i]? = some p) :
    Settled (s.unsplice i p .draining) := by
  refine h.move (kept_unsplice s i p _) hi rfl rfl (fun _ => ?_) (fun hr => by cases hr)
  exact shutAt_endQueue (h.down_lt (List.mem_of_getElem? hi))

/-- A downlink that returns leaves a spent queue, if it was spent before. -/
theorem Settled.downDone (h : Settled s) {i : Nat} {p : Pipe} (hi : s.pipes[i]? = some p)
    (hspent : SpentAt s.tunnel p.down) : Settled (s.downDone i p) := by
  cases hphase : p.phase with
  | spliced =>
    simp only [Visitors.downDone,hphase]
    have hk := kept_unsplice s i { p with writing := none } .returned
    exact h.move hk hi rfl rfl (fun hd => by cases hd) (fun _ => hk.spent _ hspent)
  | draining =>
    simp only [Visitors.downDone,hphase]
    exact h.move (kept_of_eq rfl rfl) hi rfl rfl (fun hd => by cases hd) (fun _ => hspent)
  | returned =>
    simp only [Visitors.downDone,hphase]
    exact h

theorem Settled.visit (h : Settled s) (sni : Text) : Settled (s.visit sni) := by
  unfold Visitors.visit
  split
  · rename_i id t hopen
    obtain ⟨hq,hb⟩ := openStreamKind_queues hopen
    have hnew : ∀ i, i < s.tunnel.queues.length → t.queues[i]? = s.tunnel.queues[i]? := by
      intro i hi
      rw [hq,List.getElem?_append_left hi]
    refine ⟨⟨?_,?_⟩,?_,?_,?_⟩
    · simp [hq,hb,h.balanced.used,DownQueue.new]
    · intro q hm
      rw [hq,List.mem_append,List.mem_singleton] at hm
      rcases hm with hm | rfl
      · exact h.balanced.sound q hm
      · exact ⟨rfl,fun ha => by cases ha⟩
    · simp [hq,h.paired,List.range_succ]
    · intro p hp hd
      rcases List.mem_append.mp hp with hp | hp
      · obtain ⟨q,hat,hs⟩ := h.draining p hp hd
        exact ⟨q,(hnew _ (h.down_lt hp)).trans hat,hs⟩
      · simp only [List.mem_singleton] at hp
        subst hp
        cases hd
    · intro p hp hr
      rcases List.mem_append.mp hp with hp | hp
      · obtain ⟨q,hat,hs⟩ := h.returned p hp hr
        exact ⟨q,(hnew _ (h.down_lt hp)).trans hat,hs⟩
      · simp only [List.mem_singleton] at hp
        subst hp
        cases hr
  · exact h
  · exact h

theorem Settled.boxData (h : Settled s) (id : Nat) (data : Bytes) : Settled (s.boxData id data) := by
  unfold Visitors.boxData
  split
  · exact h
  split
  · exact h
  split
  · exact h.keep (kept_of_eq rfl rfl) rfl
  split
  · exact h.keep (kept_killStream _ _) rfl
  · exact h.keep (kept_of_eq rfl rfl) rfl

theorem Settled.push (h : Settled s) : Settled s.push := by
  unfold Visitors.push
  split
  · exact h
  split
  · exact h.keep (kept_of_eq rfl rfl) rfl
  rename_i q hq
  split
  · rename_i hpush
    exact h.keep (kept_tryPush hq hpush) rfl
  · exact h.keep (kept_of_eq rfl rfl) rfl
  · split
    · exact h.keep (kept_killStream _ _) rfl
    · exact h.keep (kept_of_eq rfl rfl) rfl

theorem Settled.graceOver (h : Settled s) : Settled s.graceOver := by
  unfold Visitors.graceOver
  split
  · exact h
  split
  · exact h.keep (kept_killStream _ _) rfl
  · exact h

theorem Settled.pop (h : Settled s) {i : Nat} {p : Pipe} (hi : s.pipes[i]? = some p)
    (hrun : p.phase ≠ .returned) : Settled (s.pop i p) := by
  unfold Visitors.pop
  split
  · exact h
  rename_i q hq
  split
  · rename_i hpop
    have hk := kept_pop hq hpop
    refine h.move hk hi rfl rfl (fun hd => ?_) (fun hr => absurd hr hrun)
    exact hk.shut _ (h.draining p (List.mem_of_getElem? hi) hd)
  · rename_i hpop
    exact h.downDone hi (spentAt_of_finished h.balanced hq hpop)
  · exact h

/-- A step at a splice keeps what its body keeps. -/
theorem atPipe_induct {motive : Visitors → Prop} {i : Nat} {f : Pipe → Visitors} (hs : motive s)
    (hf : ∀ p, s.pipes[i]? = some p → p.phase ≠ .returned → motive (f p)) :
    motive (s.atPipe i f) := by
  unfold Visitors.atPipe
  split
  · exact hs
  · rename_i p hp
    split
    · exact hs
    · rename_i hrun
      exact hf p hp hrun

/-- The drain limit of a splice is over only when nothing is queued for its
visitor. -/
def DrainsEmpty (s : Visitors) : VisitorOp → Prop
  | .drainLimit i => ∀ p ∈ s.pipes[i]?, p.phase = .draining → s.queued p = 0
  | _ => True

theorem Settled.step (s : Visitors) (op : VisitorOp) (h : Settled s) (hop : DrainsEmpty s op) :
    Settled (s.step op) := by
  cases op with
  | visit sni => exact h.visit sni
  | boxData id data =>
    simp only [Visitors.step]
    split
    · exact h
    · exact h.boxData id data
  | push => exact h.push
  | graceOver => exact h.graceOver
  | boxClose id => exact h.keep (kept_remoteClose _ _ _) rfl
  | stopApps control => exact h.keep (kept_closeAppStreams _ _) rfl
  | closeTunnel => exact h.keep (kept_close _) rfl
  | pop i =>
    refine atPipe_induct h fun p hp hrun => ?_
    split
    · exact h
    · exact h.pop hp hrun
  | wrote i =>
    refine atPipe_induct h fun p hp hrun => ?_
    split
    · exact h
    · have hk := kept_consumed s.tunnel p.id
      refine h.move (hk _) hp rfl rfl (fun hd => ?_) (fun hr => absurd hr hrun)
      exact (hk _).shut _ (h.draining p (List.mem_of_getElem? hp) hd)
  | writeFailed i =>
    refine atPipe_induct h fun p hp hrun => ?_
    split
    · have hlt := h.down_lt (List.mem_of_getElem? hp)
      have hk := (kept_abortQueue s.tunnel p.down).trans
        (kept_closeStream (s.tunnel.abortQueue p.down) p.id)
      have hspent : SpentAt ((s.tunnel.abortQueue p.down).closeStream p.id) p.down :=
        spentAt_abortQueue hlt
      have hcut : Settled { s with tunnel := (s.tunnel.abortQueue p.down).closeStream p.id } :=
        h.keep hk rfl
      exact hcut.downDone hp hspent
    · exact h
  | upEnded i =>
    refine atPipe_induct h fun p hp hrun => ?_
    split
    · exact h.unsplice hp
    · exact h
  | seesTunnelClosed i =>
    refine atPipe_induct h fun p hp hrun => ?_
    split
    · exact h.unsplice hp
    · exact h
  | drainLimit i =>
    refine atPipe_induct h fun p hp hrun => ?_
    split
    · rename_i hd
      have hmem := List.mem_of_getElem? hp
      obtain ⟨q,hq,hs⟩ := h.draining p hmem hd
      have hz := hop p hp hd
      simp only [Visitors.queued,hq,Option.map_some,Option.getD_some] at hz
      exact h.move (kept_of_eq rfl rfl) hp rfl rfl (fun hd => by cases hd)
        (fun _ => ⟨q,hq,hs,hz⟩)
    · exact h

theorem queuedForRunning_eq (s : Visitors) :
    s.queuedForRunning = (s.pipes.map (queuedIfRunning s)).sum := sum_map_filter _ _ _

/-- With every splice's leavings spent, what the running ones have queued is all
there is. -/
theorem Settled.queuedForRunning (h : Settled s) :
    s.queuedForRunning = s.tunnel.budget.used := by
  have hall : s.queuedForRunning = (s.pipes.map s.queued).sum := by
    rw [queuedForRunning_eq]
    refine congrArg List.sum (List.map_congr_left fun p hp => ?_)
    unfold queuedIfRunning
    split
    · rfl
    · rename_i hr
      obtain ⟨q,hq,-,hz⟩ := h.returned p hp (by simpa using hr)
      simp [Visitors.queued,hq,hz]
  have hqueues : s.pipes.map s.queued = s.tunnel.queues.map DownQueue.bytes := by
    have hmap : s.pipes.map s.queued = (s.pipes.map Pipe.down).map
        (fun i => (s.tunnel.queues[i]?.map DownQueue.bytes).getD 0) := by
      rw [List.map_map]
      rfl
    rw [hmap,h.paired]
    exact map_range_getElem? (fun q => (q.map DownQueue.bytes).getD 0) _
  rw [hall,hqueues,h.balanced.used]

/-- The budget is what is queued for the splices still running; nothing of it is
used once all returned. -/
def BudgetReturned (s : Visitors) : Prop :=
  ((∀ p ∈ s.pipes, p.phase = .returned) → s.tunnel.budget.used = 0) ∧
  s.tunnel.budget.used = s.queuedForRunning

theorem Settled.budgetReturned (h : Settled s) : BudgetReturned s := by
  refine ⟨fun hall => ?_,h.queuedForRunning.symm⟩
  have hnone : s.pipes.filter (fun p => p.phase != .returned) = [] := by
    rw [List.filter_eq_nil_iff]
    intro p hp
    simp [hall p hp]
  rw [← h.queuedForRunning]
  simp [Visitors.queuedForRunning,hnone]

/-- A drain limit that leaves bytes behind leaves them on the budget. -/
theorem drainsEmpty_of_returned (op : VisitorOp) (hbefore : BudgetReturned s)
    (hafter : BudgetReturned (s.step op)) : DrainsEmpty s op := by
  cases op with
  | drainLimit i =>
    intro p hp hd
    have hstep : s.step (.drainLimit i) = s.setPipe i { p with phase := .returned, writing := none } := by
      simp [Visitors.step,Visitors.atPipe,Option.mem_def.mp hp,hd]
    rw [hstep] at hafter
    have hb : s.tunnel.budget.used = (s.pipes.map (queuedIfRunning s)).sum :=
      hbefore.2.trans (queuedForRunning_eq s)
    have ha : s.tunnel.budget.used =
        ((s.pipes.set i { p with phase := .returned, writing := none }).map (queuedIfRunning s)).sum :=
      hafter.2.trans (queuedForRunning_eq _)
    have hmove := sum_map_set (queuedIfRunning s) hp { p with phase := .returned, writing := none }
    simp only [queuedIfRunning,hd,bne_self_eq_false,Bool.false_eq_true,↓reduceIte,
      show (PipePhase.draining != .returned) = true from rfl] at hmove hb ha
    omega
  | _ => trivial

end

/-- A tunnel's budget is returned in exactly the runs where every drain limit finds
its queue empty. -/
theorem budget_returned_iff (cfg : HubConfig) (credit : Bool) (ops : List VisitorOp) :
    (∀ before after, ops = before ++ after →
      BudgetReturned (run Visitors.step (.new cfg credit) before)) ↔
    Along Visitors.step DrainsEmpty (.new cfg credit) ops := by
  constructor
  · intro h
    rw [along_iff]
    rintro before op after rfl
    refine drainsEmpty_of_returned op (h before (op :: after) rfl) ?_
    have hnext := h (before ++ [op]) after (by simp)
    rwa [run_append,run_cons,run_nil] at hnext
  · rintro h before after rfl
    have hsettled : Settled (run Visitors.step (.new cfg credit) before) :=
      Along.invariant Settled.step (settled_new cfg credit) (along_append.mp h).1
    exact hsettled.budgetReturned

/-- A visitor takes one chunk, stalls and half-closes: what the box sent meanwhile
stays on the budget when the drain limit is over. -/
def stalledVisitor : List VisitorOp :=
  [.visit [],.boxData 1 [7],.push,.pop 0,.boxData 1 [8,9],.push,.upEnded 0,.drainLimit 0]

theorem stalled_visitor_keeps_budget :
    ¬ BudgetReturned (run Visitors.step (.new ⟨512,262144,16777216⟩ false) stalledVisitor) := by
  intro h
  have hzero := h.1 (by decide)
  revert hzero
  decide
end Flagship.Relay.Proofs

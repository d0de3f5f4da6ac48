import Flagship.Apps.Proofs.Passes

namespace Flagship.Apps
open Lib AppController

/-- A later deploy has a greater generation, as long as there is one. -/
def Later (a b : OpRow) : Prop :=
  a.kind = .deploy → b.kind = .deploy → b.generation < i64Max → a.generation < b.generation

/-- What keeps the operations serial and their generations fresh; where a workload
may be dropped twice in one request, only its deploys are serial. -/
structure Ordered (once : Prop) (c : AppController) : Prop where
  one : ∀ a ∈ c.openOps,∀ b ∈ c.openOps,once ∨ a.kind = .deploy → a.key = b.key → a = b
  fresh : c.ops.Pairwise Later
  below : ∀ op ∈ c.ops,op.kind = .deploy → op.generation ≤ c.lastGeneration
  limit : c.lastGeneration ≤ i64Max
  numbered : ∀ i op,c.ops[i]? = some op → op.id = i + 1

section
variable {once : Prop} {c c' : AppController} {key executor : Text} {now : Nat} {e : Effect}

theorem Ordered.of_eq (h : Ordered once c) (hops : c'.ops = c.ops)
    (hlast : c'.lastGeneration = c.lastGeneration) : Ordered once c' := by
  refine ⟨?_,?_,?_,?_,?_⟩
  · rw [openOps,hops]
    exact h.one
  · rw [hops]
    exact h.fresh
  · rw [hops,hlast]
    exact h.below
  · rw [hlast]
    exact h.limit
  · rw [hops]
    exact h.numbered

/-- An operation is known by its number. -/
theorem Ordered.op_ext (h : Ordered once c) {a b : OpRow} (ha : a ∈ c.ops) (hb : b ∈ c.ops)
    (hid : a.id = b.id) : a = b := by
  obtain ⟨i,hi⟩ := List.mem_iff_getElem?.mp ha
  obtain ⟨j,hj⟩ := List.mem_iff_getElem?.mp hb
  have hidi := h.numbered i a hi
  have hidj := h.numbered j b hj
  have hij : i = j := by omega
  subst hij
  rw [hi] at hj
  exact Option.some.inj hj

theorem openOps_settleOp {id : Nat} {state : OpState} {detail : Option Text}
    (hstate : state ≠ .intent) :
    (c.settleOp id state detail now).openOps = c.openOps.filter (·.id ≠ id) := by
  simp only [openOps,settleOp]
  induction c.ops with
  | nil => rfl
  | cons op ops ih =>
    rw [List.map_cons,List.filter_cons,ih]
    by_cases hopen : op.state = .intent
    · by_cases hid : op.id = id
      · simp [hopen,hid,hstate]
      · simp [hopen,hid]
    · simp [hopen]

theorem Ordered.settleOp {state : OpState} (h : Ordered once c) (id : Nat) (detail : Option Text)
    (now : Nat) (hstate : state ≠ .intent) : Ordered once (c.settleOp id state detail now) := by
  have hrow : ∀ op : OpRow,(if op.id = id ∧ op.state = .intent then
      { op with state := state,detail := detail,updatedAt := stored now } else op).kind = op.kind ∧
      (if op.id = id ∧ op.state = .intent then
        { op with state := state,detail := detail,updatedAt := stored now }
        else op).generation = op.generation ∧
      (if op.id = id ∧ op.state = .intent then
        { op with state := state,detail := detail,updatedAt := stored now }
        else op).id = op.id := by
    intro op
    split <;> exact ⟨rfl,rfl,rfl⟩
  refine ⟨?_,?_,?_,h.limit,?_⟩
  · rw [openOps_settleOp hstate]
    intro a ha b hb
    exact h.one a (List.mem_of_mem_filter ha) b (List.mem_of_mem_filter hb)
  · refine List.pairwise_map.mpr (h.fresh.imp ?_)
    intro a b hlater
    rw [Later,(hrow a).1,(hrow b).1,(hrow a).2.1,(hrow b).2.1]
    exact hlater
  · intro op hop
    obtain ⟨op',hop',rfl⟩ := List.mem_map.mp hop
    rw [(hrow op').1,(hrow op').2.1]
    exact h.below op' hop'
  · intro i op hop
    obtain ⟨op',hop',rfl⟩ := Option.map_eq_some_iff.mp ((List.getElem?_map ..).symm.trans hop)
    rw [(hrow op').2.2]
    exact h.numbered i op' hop'

theorem openOps_intent : (c.intent key e executor now).openOps =
    c.openOps ++ [c.row key e executor now] := by
  simp [openOps,AppController.intent,row]

/-- An operation of a workload that has none with an executor. -/
theorem Ordered.intent (h : Ordered once c) (key executor : Text) (now : Nat) (e : Effect)
    (hkey : ∀ op ∈ c.openOps,once ∨ op.kind = .deploy ∨ e.kind = .deploy → op.key ≠ key)
    (hlater : ∀ op ∈ c.ops,op.kind = .deploy → e.kind = .deploy →
      e.generation < i64Max → op.generation < e.generation)
    (hbelow : e.kind = .deploy → e.generation ≤ c.lastGeneration) :
    Ordered once (c.intent key e executor now) := by
  refine ⟨?_,?_,?_,h.limit,?_⟩
  · rw [openOps_intent]
    intro a ha b hb hserial heq
    rw [List.mem_append,List.mem_singleton] at ha hb
    rcases ha with ha | rfl
    · rcases hb with hb | rfl
      · exact h.one a ha b hb hserial heq
      · exact absurd heq (hkey a ha (hserial.imp_right Or.inl))
    · rcases hb with hb | rfl
      · exact absurd heq.symm (hkey b hb (hserial.imp_right Or.inr))
      · rfl
  · refine List.pairwise_append.mpr ⟨h.fresh,by simp,?_⟩
    intro a ha b hb
    rw [List.mem_singleton] at hb
    subst hb
    exact fun hdeploy => hlater a ha hdeploy
  · intro op hop
    rcases List.mem_append.mp hop with hop | hop
    · exact h.below op hop
    · rw [List.mem_singleton] at hop
      subst hop
      exact hbelow
  · intro i op hop
    rcases getElem?_append_one hop with hold | ⟨rfl,rfl⟩
    · exact h.numbered i op hold
    · rfl

theorem nextGeneration_spec {last : Int} {n : Nat} (hlast : last ≤ i64Max) :
    last ≤ nextGeneration last (min n (2 ^ 63 - 1) : Nat) ∧
      nextGeneration last (min n (2 ^ 63 - 1) : Nat) ≤ i64Max ∧
      (nextGeneration last (min n (2 ^ 63 - 1) : Nat) < i64Max →
        last < nextGeneration last (min n (2 ^ 63 - 1) : Nat)) := by
  simp only [nextGeneration,i64Max] at hlast ⊢
  omega

theorem addressFor_frame {d : DesiredWorkload} {result : Except Text (Option Text)}
    (h : c.addressFor d now = (c',result)) :
    c' = { c with pools := c'.pools,addresses := c'.addresses } := by
  rw [addressFor] at h
  split at h
  · cases h
    rfl
  · split at h
    · cases h
      rfl
    · dsimp only at h
      split at h
      · cases h
        rfl
      · cases h
        rfl

/-- A pass as far as it has come keeps the operations serial; those that were not
open when it began are of the workloads it has handled. -/
structure Passing (once : Prop) (desired : OrdMap Text (DesiredWorkload × Bool)) (v : View)
    (handled : List Text) (p : Pass) : Prop where
  ordered : Ordered once p.controller
  covered : ∀ op ∈ p.controller.openOps,v.outstanding.contains op.key = true ∨
    op.key ∈ handled ∧ (op.kind = .deploy → desired.contains op.key = true)

variable {desired : OrdMap Text (DesiredWorkload × Bool)} {v : View} {handled : List Text} {p p' : Pass} {d : DesiredWorkload} {gone : Bool}

theorem Passing.of_eq (h : Passing once desired v handled p) (more : List Text)
    (hops : p'.controller.ops = p.controller.ops)
    (hlast : p'.controller.lastGeneration = p.controller.lastGeneration) :
    Passing once desired v (handled ++ more) p' := by
  refine ⟨h.ordered.of_eq hops hlast,?_⟩
  intro op hop
  rw [openOps,hops] at hop
  exact (h.covered op hop).imp_right (And.imp_left (List.mem_append_left _))

theorem Passing.not_open (h : Passing once desired v handled p)
    (hout : v.outstanding.get? key = none) (hkey : key ∉ handled) :
    ∀ op ∈ p.controller.openOps,op.key ≠ key := by
  intro op hop heq
  rcases h.covered op hop with hin | ⟨hin,_⟩
  · rw [heq,OrdMap.contains,hout] at hin
    cases hin
  · exact hkey (heq ▸ hin)

/-- An effect is handed out for a workload that was not handled yet. -/
theorem Passing.hand (h : Passing once desired v handled p) (key : Text) (e : Effect)
    (hwanted : e.kind = .deploy → desired.contains key = true)
    (hordered : Ordered once (p.hand v key e).controller) :
    Passing once desired v (handled ++ [key]) (p.hand v key e) := by
  refine ⟨hordered,?_⟩
  intro op hop
  rw [Pass.hand,openOps_intent,List.mem_append,List.mem_singleton] at hop
  rcases hop with hop | rfl
  · exact (h.covered op hop).imp_right (And.imp_left (List.mem_append_left _))
  · exact Or.inr ⟨List.mem_append_right _ (List.mem_singleton.mpr rfl),hwanted⟩

theorem forget_frame (p : Pass) (v : View) (key : Text) (d : DesiredWorkload) :
    (p.forget v key d).controller = { p.controller with
      desired := (p.forget v key d).controller.desired
      deployed := (p.forget v key d).controller.deployed
      pools := (p.forget v key d).controller.pools
      addresses := (p.forget v key d).controller.addresses } := by
  have hrelease : ∀ c : AppController,∀ network,c.releaseAddress network key v.now = { c with
      pools := (c.releaseAddress network key v.now).pools
      addresses := (c.releaseAddress network key v.now).addresses } := by
    intro c network
    rw [releaseAddress,persistAddress,modifyPool]
    split <;> rfl
  simp only [Pass.forget]
  split
  · rw [clearDeployed_frame,hrelease]
    rfl
  · rw [hrelease]
    rfl

theorem forget_desired (p : Pass) (v : View) (key : Text) (d : DesiredWorkload) :
    (p.forget v key d).controller.desired = p.controller.desired.erase key := by
  have hrelease : ∀ c : AppController,∀ network,
      (c.releaseAddress network key v.now).desired = c.desired := by
    intro c network
    rw [releaseAddress,persistAddress,modifyPool_frame]
  simp only [Pass.forget,dropDesired]
  split
  · rw [hrelease,clearDeployed_frame]
  · rw [hrelease]

theorem Passing.visit (h : Passing once desired v handled p) (d : DesiredWorkload) (gone : Bool)
    (hkey : key ∉ handled) (hwanted : desired.contains key = true) :
    Passing once desired v (handled ++ [key]) (visit v p key d gone) := by
  have hvisit := visit_visits v p key d gone
  generalize Apps.visit v p key d gone = p' at hvisit
  cases hvisit with
  | again op workloads hout hexecutor => exact h.of_eq [key] rfl rfl
  | rests workloads hout => exact h.of_eq [key] rfl rfl
  | removes o workloads hout hobs hcurrent =>
    have hremoved := h.hand key (removes d.key o d.epoch d.network) (fun _ => hwanted)
      (h.ordered.intent key _ _ _ (fun op hop _ => h.not_open hout hkey op hop)
        (fun _ _ _ hdeploy => by cases hdeploy) (fun hdeploy => by cases hdeploy))
    exact ⟨hremoved.ordered,hremoved.covered⟩
  | forgets hout hobs hgone =>
    refine h.of_eq [key] ?_ ?_
    · rw [forget_frame]
    · rw [forget_frame]
  | starves c reason workloads hout haddress =>
    have hframe := addressFor_frame haddress
    refine h.of_eq [key] ?_ ?_
    · rw [hframe]
    · rw [hframe]
  | deploys c address hout hobs hgone hrunning hfits haddress =>
    have hframe := addressFor_frame haddress
    have hops : c.ops = p.controller.ops := by rw [hframe]
    have hlast : c.lastGeneration = p.controller.lastGeneration := by rw [hframe]
    have hplaced : Ordered once c := h.ordered.of_eq hops hlast
    obtain ⟨hle,hlimit,hless⟩ := nextGeneration_spec (n := v.now) hplaced.limit
    have hraised : Ordered once { c with
        lastGeneration := nextGeneration c.lastGeneration (min v.now (2 ^ 63 - 1) : Nat) } :=
      ⟨hplaced.one,hplaced.fresh,
        fun op hop hdeploy => Int.le_trans (hplaced.below op hop hdeploy) hle,hlimit,
        hplaced.numbered⟩
    have hnew : ∀ op ∈ c.openOps,op.key ≠ key := by
      rw [openOps,hops]
      exact h.not_open hout hkey
    have hdeployed := hraised.intent key v.executor v.now ⟨0,.deploy,d.installation,d.component,
      nextGeneration c.lastGeneration (min v.now (2 ^ 63 - 1) : Nat),some d.specDigest,d.epoch,
      d.network,address⟩ (fun op hop _ => hnew op hop) ?_ (fun _ => Int.le_refl _)
    · refine ⟨hdeployed,?_⟩
      have hpassing : Passing once desired v handled { p with controller := { c with
          lastGeneration := nextGeneration c.lastGeneration (min v.now (2 ^ 63 - 1) : Nat) } } := by
        refine ⟨hraised,?_⟩
        intro op hop
        refine h.covered op ?_
        rw [openOps,← hops]
        exact hop
      exact (hpassing.hand key _ (fun _ => hwanted) hdeployed).covered
    · intro op hop hdeploy _ hbelow
      exact Int.lt_of_le_of_lt (hplaced.below op hop hdeploy) (hless hbelow)

theorem Passing.forgetUnknown (h : Passing once desired v handled p) {k : WorkloadKey}
    (hkey : once → v.seen.contains k.id = true → k.id ∉ handled) :
    Passing once desired v (handled ++ unknown desired [k]) (forgetUnknown v desired p k) := by
  rw [Apps.forgetUnknown]
  split
  · exact h.of_eq _ rfl rfl
  next hknown =>
    rw [Bool.not_eq_true,Bool.or_eq_false_iff] at hknown
    split
    · exact h.of_eq _ rfl rfl
    next o hseen =>
      have hout : v.outstanding.get? k.id = none := by
        rw [← Option.isNone_iff_eq_none,← Option.not_isSome,← OrdMap.contains,hknown.2]
        rfl
      have hunknown : unknown desired [k] = [k.id] := by simp [unknown,hknown.1]
      rw [hunknown]
      refine h.hand k.id _ (fun hdeploy => by cases hdeploy) (h.ordered.intent k.id _ _ _ ?_
        (fun _ _ _ hdeploy => by cases hdeploy) (fun hdeploy => by cases hdeploy))
      intro op hop hserial heq
      rcases hserial with honce | hdeploy | hdeploy
      · exact h.not_open hout (hkey honce ((OrdMap.contains_iff _).mpr ⟨o,hseen⟩)) op hop heq
      · rcases h.covered op hop with hin | ⟨_,hwanted⟩
        · rw [heq,OrdMap.contains,hout] at hin
          cases hin
        · have hin := hwanted hdeploy
          rw [heq,hknown.1] at hin
          cases hin
      · cases hdeploy

theorem ordered_recover (h : Ordered once c) (executor : Text) (seen : OrdMap Text ObservedContainer)
    (now : Nat) : Ordered once (c.recover executor seen now) := by
  refine foldl_keeps _ (fun c' op _ h => ?_) h
  split
  · exact h
  · obtain ⟨state,detail,hstate,hframe⟩ := recoverOp_frame c' now seen op
    rw [hframe]
    exact (h.settleOp op.id detail now hstate).of_eq rfl rfl

theorem ordered_takeOver {req : SyncRequest} (h : Ordered once c) (now : Nat) :
    Ordered once (c.takeOver req now) := by
  have hrecovered := ordered_recover h req.executor (seenOf req.observed) now
  rw [takeOver]
  dsimp only
  split
  · exact hrecovered
  · refine hrecovered.of_eq ?_ ?_
    · rw [adoptRunning_frame]
    · rw [adoptRunning_frame]

theorem byKey_contains {ops : List OpRow} {op : OpRow} (h : op ∈ ops) :
    (byKey ops).contains op.key = true := by
  suffices hall : ∀ op ∈ ops,(byKey ops).contains op.key = true from hall op h
  refine foldl_history (I := fun (before : List OpRow) (m : OrdMap Text OpRow) =>
    ∀ op ∈ before,m.contains op.key = true) ?_ (by simp)
  intro m before a after _ ih op hop
  rw [OrdMap.contains_set]
  rcases List.mem_append.mp hop with hop | hop
  · simp [ih op hop]
  · rw [List.mem_singleton] at hop
    simp [hop]

/-- A whole pass keeps the operations serial. -/
theorem ordered_rustPass {req : SyncRequest} (h : Ordered once c) (hvalid : validate req = none)
    (honce : once → req.forget.Nodup) (now : Nat) : Ordered once (c.rustPass req now).controller := by
  have hpass := rustPass_induction c req now hvalid
    (I := fun handled p => Passing once c.desired (c.view req now) handled p) ?_ ?_ ?_ ?_
  · obtain ⟨handled,_,hpassing⟩ := hpass
    exact hpassing.ordered
  · refine ⟨h,?_⟩
    intro op hop
    exact Or.inl (byKey_contains hop)
  · intro handled p k hpassing _ hnew
    exact hpassing.forgetUnknown fun hnodup => hnew (honce hnodup)
  · intro handled p hpassing
    exact ⟨hpassing.ordered,hpassing.covered⟩
  · intro handled p key d gone hpassing hget hnew
    exact hpassing.visit d gone hnew ((OrdMap.contains_iff _).mpr ⟨_,hget⟩)

theorem ordered_sync {req : SyncRequest} (h : Ordered once c) (honce : once → req.forget.Nodup) (now : Nat) :
    Ordered once (c.sync req now).1 := by
  rw [sync]
  split
  · exact h
  next hvalid =>
    have hready : Ordered once ((c.intake req).refreshPools req) := by
      refine h.of_eq ?_ ?_
      · rw [refreshPools_frame,intake_frame]
      · rw [refreshPools_frame,intake_frame]
    dsimp only
    split
    next =>
      refine hready.of_eq ?_ ?_
      · rw [shadowPass_frame]
      · rw [shadowPass_frame]
    next => exact ordered_rustPass (ordered_takeOver hready now) hvalid honce now

theorem ordered_settle (h : Ordered once c) (s : SettleRequest) (now : Nat) :
    Ordered once (c.settle s now).1 := by
  rcases settle_spec c now s with heq | ⟨op,_,_,_,heq⟩
  · rw [heq]
    exact h
  · have hsettled : Ordered once (c.settled s op now) := by
      rw [settled_frame]
      exact (h.settleOp op.id (s.detail.map (·.take 2000)) now (settleKind_ne s op)).of_eq rfl rfl
    rw [heq]
    split
    · refine hsettled.of_eq ?_ ?_
      · rw [conflict_frame]
      · rw [conflict_frame]
    · exact hsettled

theorem ordered_step (h : Ordered once c) (r : Request) (honce : once → forgetsOnce c r) :
    Ordered once (step c r) := by
  cases r with
  | sync req now => exact ordered_sync h honce now
  | settle s now => exact ordered_settle h s now
  | restart => exact h.of_eq rfl rfl

theorem Ordered.nodup (h : Ordered once c) : c.ops.Nodup := by
  refine List.pairwise_iff_getElem.mpr ?_
  intro i j hi hj hlt heq
  have hidi := h.numbered i _ (List.getElem?_eq_getElem hi)
  have hidj := h.numbered j _ (List.getElem?_eq_getElem hj)
  rw [heq] at hidi
  omega

theorem Ordered.serial (h : Ordered True c) : Serial c := by
  have hone : (c.openOps.map (·.key)).Nodup := by
    refine (h.nodup.filter _).map_on ?_
    intro a ha b hb hkey
    exact h.one a ha b hb (Or.inl trivial) hkey
  refine ⟨hone,h.fresh,?_⟩
  intro before r middle later after heq _ hlater hlimit hearlier hsame
  obtain ⟨e,he,hdeploy,hgeneration⟩ := hearlier
  have hfresh := h.fresh
  rw [heq,List.append_assoc,List.pairwise_append] at hfresh
  have hless := hfresh.2.2 e he later (by simp) hdeploy hlater hlimit
  rw [hgeneration,hsame] at hless
  exact Int.lt_irrefl _ hless

theorem ordered_fresh : Ordered once AppController.fresh := by
  refine ⟨?_,List.Pairwise.nil,?_,by decide,?_⟩
  · intro a ha
    cases ha
  · intro op hop
    cases hop
  · intro i op hop
    cases hop

/-- In every state a controller can reach, whatever is asked of it in whichever mode
and order, at most one operation of a workload is with an executor, the generations
of its deploys rise, and no remove names a later deploy. -/
theorem operations_stay_serial (requests : List Request)
    (h : Along step forgetsOnce AppController.fresh requests) :
    Serial (run step AppController.fresh requests) := by
  exact (Along.invariant (I := Ordered True)
    (fun c r hc honce => ordered_step hc r fun _ => honce) ordered_fresh h).serial

end

/-- A workload that is to run, at an address of its own. -/
def wanted (name : Char) : DesiredWorkload where
  installation := [name]
  component := ['m']
  network := ['n']
  specDigest := List.replicate 64 'a'
  running := true
  epoch := 0
  resources := ⟨1⟩
  wantsAddress := true

/-- A sync in rust mode that wants some workloads and sees some containers. -/
def asks (desired : List DesiredWorkload) (observed : List ObservedContainer) : SyncRequest where
  executor := ['x']
  mode := .rust
  desired := desired
  forget := []
  observed := observed
  networks := [⟨['n'],"10.0.0.0/29".toList,[]⟩]
  occupied := []
  capacity := ⟨0⟩

theorem operations_stay_serial_over_a_restart :
    Along step forgetsOnce AppController.fresh
      [.sync (asks [wanted 'a'] []) 5,.restart,.sync (asks [wanted 'a',wanted 'b'] []) 3] ∧
    (run step AppController.fresh [.sync (asks [wanted 'a'] []) 5,.restart,
      .sync (asks [wanted 'a',wanted 'b'] []) 3]).ops.map (·.generation) = [5,6] ∧
    Serial (run step AppController.fresh
      [.sync (asks [wanted 'a'] []) 5,.restart,.sync (asks [wanted 'a',wanted 'b'] []) 3]) :=
  ⟨by decide,by decide,operations_stay_serial _ (by decide)⟩

end Flagship.Apps

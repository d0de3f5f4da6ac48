import Flagship.Apps.Controller
import Flagship.Lib.Lists

namespace Flagship.Apps
open Lib

theorem mem_ascending {ν : Type} {m : OrdMap Text ν} {e : Text × ν} :
    e ∈ ascending m ↔ m.get? e.1 = some e.2 := by
  rw [ascending,List.mem_insertionSort]
  exact m.mem_entries

theorem ascending_nodup {ν : Type} (m : OrdMap Text ν) :
    ((ascending m).map Prod.fst).Nodup :=
  ((List.perm_insertionSort _ m.entries).map Prod.fst).nodup_iff.mpr m.nodup

namespace AppController
variable (c : AppController) (req : SyncRequest) (now : Nat)

/-- What the daemon wants changes the wanted workloads only. -/
theorem intake_frame : c.intake req = { c with desired := (c.intake req).desired } := by
  have hwants : ∀ (ds : List DesiredWorkload) (c : AppController),
      ds.foldl upsertDesired c = { c with desired := (ds.foldl upsertDesired c).desired } := by
    intro ds
    induction ds with
    | nil => exact fun c => rfl
    | cons d ds ih => exact fun c => ih (c.upsertDesired d)
  have hforgets : ∀ (ks : List WorkloadKey) (c : AppController),
      ks.foldl markForgotten c = { c with desired := (ks.foldl markForgotten c).desired } := by
    intro ks
    induction ks with
    | nil => exact fun c => rfl
    | cons k ks ih =>
      intro c
      have hone : c.markForgotten k = { c with desired := (c.markForgotten k).desired } := by
        rw [markForgotten]
        split <;> rfl
      rw [List.foldl_cons,ih,hone]
  have h := hforgets req.forget (req.desired.foldl upsertDesired c)
  rw [hwants] at h
  rw [intake,hwants]
  exact h

theorem modifyPool_frame (network : Text) (f : AddressPool → AddressPool) :
    c.modifyPool network f = { c with pools := (c.modifyPool network f).pools } := by
  rw [modifyPool]
  split <;> rfl

/-- Nothing but what is held in memory has changed. -/
def InMemory (c c' : AppController) : Prop :=
  c' = { c with pools := c'.pools,foreign := c'.foreign }

variable {c} in
theorem InMemory.modifyPool {c' : AppController} (h : InMemory c c') (network : Text)
    (f : AddressPool → AddressPool) : InMemory c (c'.modifyPool network f) := by
  rw [AppController.modifyPool]
  split
  · exact h
  · rw [InMemory,h]

variable {c} in
theorem InMemory.openPool {c' : AppController} (h : InMemory c c') (n : NetworkInfo) :
    InMemory c (c'.openPool n) := by
  rw [AppController.openPool]
  split
  · exact h
  · split
    · exact h
    · rw [InMemory,h]

/-- Refreshing the pools changes nothing else. -/
theorem refreshPools_frame : InMemory c (c.refreshPools req) := by
  rw [refreshPools]
  have hopened : InMemory c (req.networks.foldl openPool c) :=
    foldl_keeps _ (fun c' n _ h => h.openPool n) rfl
  have htaken : InMemory c (req.occupied.foldl takeOccupied (req.networks.foldl openPool c)) :=
    foldl_keeps _ (fun c' a _ h => h.modifyPool a.network _) hopened
  have hvacated : InMemory c ((req.occupied.foldl takeOccupied
      (req.networks.foldl openPool c)).vacateGone (byNetwork req.occupied)) := by
    refine foldl_keeps _ (fun c' e _ h => ?_) htaken
    refine foldl_keeps _ (fun c' ip _ h => ?_) h
    split
    · exact h
    · exact h.modifyPool e.1 _
  refine foldl_keeps _ (fun c' o _ h => ?_) ?_
  · exact foldl_keeps _ (fun c' e _ h => h.modifyPool e.1 _) h
  · rw [InMemory,hvacated]

theorem clearDeployed_frame (key : Text) (generation : Int) :
    c.clearDeployed key generation =
      { c with deployed := (c.clearDeployed key generation).deployed } := by
  rw [clearDeployed]
  split
  · split <;> rfl
  · rfl

/-- What settles an operation: its row, and the record of what is deployed. -/
theorem recoverOp_frame (seen : OrdMap Text ObservedContainer) (op : OpRow) :
    ∃ state detail,state ≠ .intent ∧ c.recoverOp seen now op =
      { c.settleOp op.id state detail now with deployed := (c.recoverOp seen now op).deployed } := by
  rw [recoverOp]
  cases op.kind with
  | deploy =>
    dsimp only
    split
    · exact ⟨.done,_,by simp,rfl⟩
    · exact ⟨.abandoned,_,by simp,rfl⟩
  | remove =>
    dsimp only
    split
    · exact ⟨.abandoned,_,by simp,rfl⟩
    · exact ⟨.done,_,by simp,clearDeployed_frame _ _ _⟩

/-- Nothing but the addresses, the pools and the records has changed. -/
def Adopting (c c' : AppController) : Prop :=
  c' = { c with pools := c'.pools,addresses := c'.addresses,deployed := c'.deployed }

theorem adoptRunning_frame (desired : List (Text × DesiredWorkload × Bool))
    (seen : OrdMap Text ObservedContainer) : Adopting c (c.adoptRunning desired seen) := by
  refine foldl_keeps _ (fun c' e _ h => ?_) rfl
  obtain ⟨key,d,gone⟩ := e
  dsimp only
  split
  · exact h
  · rw [adoptOne]
    split
    · rw [Adopting,setDeployed,h]
    · rw [Adopting,setDeployed,persistAddress,modifyPool]
      split <;> rw [h]

theorem shadowPass_frame (desired : List (Text × DesiredWorkload × Bool))
    (seen : OrdMap Text ObservedContainer) (unmanaged : List Text) :
    (c.shadowPass desired seen unmanaged).1 = { c with
      desired := (c.shadowPass desired seen unmanaged).1.desired
      deployed := (c.shadowPass desired seen unmanaged).1.deployed
      agreePasses := (c.shadowPass desired seen unmanaged).1.agreePasses } := by
  have hdropped := foldl_keeps (b := c) (f := fun (c : AppController)
      (e : Text × DesiredWorkload × Bool) =>
        if e.2.2 && !(seen.get? e.1).any (·.running) then c.dropDesired e.1 else c)
    (I := fun c' => c' = { c with desired := c'.desired,deployed := c'.deployed }) desired
    (fun c' e _ h => by
      split
      · rw [h]
        rfl
      · exact h) rfl
  simp only [shadowPass]
  rw [hdropped]

theorem conflict_frame (op : OpRow) (ip : Text) :
    c.conflict op ip now = { c with
      pools := (c.conflict op ip now).pools,addresses := (c.conflict op ip now).addresses } := by
  rw [conflict]
  split <;> rfl

theorem settled_frame (s : SettleRequest) (op : OpRow) :
    c.settled s op now = { c.settleOp op.id (settleKind s op) (s.detail.map (·.take 2000)) now with
      deployed := (c.settled s op now).deployed } := by
  simp only [settled]
  split
  · rfl
  · rw [clearDeployed_frame]
  · rfl

theorem settleKind_ne (s : SettleRequest) (op : OpRow) : settleKind s op ≠ .intent := by
  rw [settleKind]
  split
  · simp
  · split <;> simp
  · simp
  · simp

/-- What a report does, where it does anything. -/
theorem settle_spec (s : SettleRequest) :
    (c.settle s now).1 = c ∨ ∃ op ∈ c.openOps,op.id = s.op ∧ op.executor = s.executor ∧
      (c.settle s now).1 = match s.conflictIp with
        | some ip => (c.settled s op now).conflict op ip now
        | none => c.settled s op now := by
  rw [settle]
  split
  · exact Or.inl rfl
  next op hfind =>
    split
    · exact Or.inl rfl
    next hexecutor =>
      split
      · exact Or.inl rfl
      next hopen =>
        have hmem := List.mem_of_find?_eq_some hfind
        have hid := List.find?_some hfind
        refine Or.inr ⟨op,List.mem_filter.mpr ⟨hmem,by simpa using hopen⟩,by simpa using hid,
          by simpa using hexecutor,?_⟩
        cases s.conflictIp <;> rfl

end AppController

/-- What one workload of a pass may come to. -/
inductive Visits (v : View) (p : Pass) (key : Text) (d : DesiredWorkload) (gone : Bool) :
    Pass → Prop
  /-- Its operation is with the executor that asks, and is handed out again. -/
  | again (op : OpRow) (workloads : List WorkloadStatus)
      (hout : v.outstanding.get? key = some op) (hexecutor : op.executor = v.executor) :
      Visits v p key d gone
        { p with effects := p.effects ++ [effectOf op d],workloads := workloads }
  /-- Nothing is done. -/
  | rests (workloads : List WorkloadStatus)
      (hout : ∀ op,v.outstanding.get? key = some op → op.executor ≠ v.executor) :
      Visits v p key d gone { p with workloads := workloads }
  | removes (o : ObservedContainer) (workloads : List WorkloadStatus)
      (hout : v.outstanding.get? key = none) (hobs : v.seen.get? key = some o)
      (hcurrent : gone = false → d.running = true →
        isCurrent (p.controller.deployed.get? key) (some o) d = false) :
      Visits v p key d gone
        { p.hand v key (removes d.key o d.epoch d.network) with workloads := workloads }
  | forgets (hout : v.outstanding.get? key = none) (hobs : v.seen.get? key = none)
      (hgone : gone = true) : Visits v p key d gone (p.forget v key d)
  /-- There is no address for it. -/
  | starves (c : AppController) (reason : Text) (workloads : List WorkloadStatus)
      (hout : v.outstanding.get? key = none)
      (haddress : p.controller.addressFor d v.now = (c,.error reason)) :
      Visits v p key d gone { p with controller := c,workloads := workloads }
  | deploys (c : AppController) (address : Option Text)
      (hout : v.outstanding.get? key = none) (hobs : v.seen.get? key = none)
      (hgone : gone = false) (hrunning : d.running = true)
      (hfits : fits v.capacity (p.others key) d.resources = none)
      (haddress : p.controller.addressFor d v.now = (c,.ok address)) :
      Visits v p key d gone (Pass.deploy { p with controller := c } v key d address)

theorem visit_visits (v : View) (p : Pass) (key : Text) (d : DesiredWorkload) (gone : Bool) :
    Visits v p key d gone (visit v p key d gone) := by
  rw [visit]
  cases hout : v.outstanding.get? key with
  | some op =>
    dsimp only
    split
    next hexecutor => exact .again op _ hout hexecutor
    next hexecutor =>
      refine .rests _ ?_
      intro op' hop'
      rw [hout] at hop'
      cases hop'
      exact hexecutor
  | none =>
    have hrests : ∀ op,v.outstanding.get? key = some op → op.executor ≠ v.executor := by
      intro op hop
      rw [hout] at hop
      cases hop
    dsimp only
    split
    next hends =>
      cases hobs : v.seen.get? key with
      | some o =>
        refine .removes o _ hout hobs ?_
        intro hgone hrunning
        simp [hgone,hrunning] at hends
      | none =>
        dsimp only
        split
        next hgone => exact .forgets hout hobs hgone
        next => exact .rests _ hrests
    next hwanted =>
      simp only [Bool.or_eq_true,Bool.not_eq_eq_eq_not,Bool.not_true,not_or,
        Bool.not_eq_true,Bool.not_eq_false] at hwanted
      split
      next => exact .rests _ hrests
      next hcurrent =>
        cases hobs : v.seen.get? key with
        | some o =>
          refine .removes o _ hout hobs ?_
          intro _ _
          rw [hobs] at hcurrent
          exact Bool.eq_false_of_not_eq_true hcurrent
        | none =>
          dsimp only
          rw [Pass.place]
          split
          · exact .rests _ hrests
          · split
            · exact .rests _ hrests
            next hfits =>
              cases haddress : p.controller.addressFor d v.now with
              | mk c address => cases address with
                | error reason => exact .starves c reason _ hout haddress
                | ok address =>
                  exact .deploys c address hout hobs hwanted.1 hwanted.2 hfits haddress

/-- Two keys with the same id are one, where one of them has valid names. -/
theorem id_inj {k : WorkloadKey} {installation component : Text}
    (hinstallation : validName installation 160 = true) (hcomponent : validName component 64 = true)
    (h : k.id = WorkloadKey.id ⟨installation,component⟩) : k = ⟨installation,component⟩ := by
  have hslash : ∀ {s : Text} {n : Nat},validName s n = true → '/' ∉ s := by
    intro s n hs hmem
    simp only [validName,Bool.and_eq_true,List.all_eq_true] at hs
    exact absurd (hs.1.2 '/' hmem) (by decide)
  obtain ⟨a,b⟩ := k
  simp only [WorkloadKey.id] at h
  rcases append_eq_cut h.symm with ⟨l,hl,hr⟩ | ⟨l,hl,hr⟩
  · exact absurd (by rw [hl]; simp) (hslash hinstallation)
  · cases l with
    | nil =>
      rw [List.nil_append,List.cons.injEq] at hl
      rw [List.append_nil] at hr
      rw [hr,hl.2]
    | cons x l =>
      rw [List.cons_append,List.cons.injEq] at hl
      exact absurd (by rw [hl.2]; simp) (hslash hcomponent)

theorem seenOf_spec {observed : List ObservedContainer} {id : Text} {o : ObservedContainer}
    (h : (seenOf observed).get? id = some o) : o ∈ observed ∧ o.key.id = id := by
  suffices hall : ∀ id o,(seenOf observed).get? id = some o → o ∈ observed ∧ o.key.id = id from
    hall id o h
  refine foldl_keeps (I := fun seen : OrdMap Text ObservedContainer =>
    ∀ id o,seen.get? id = some o → o ∈ observed ∧ o.key.id = id) observed ?_ ?_
  · intro seen o' ho' ih id o hget
    split at hget
    · rw [OrdMap.get?_set] at hget
      split at hget
      next heq =>
        cases hget
        exact ⟨ho',heq.symm⟩
      next => exact ih id o hget
    · exact ih id o hget
  · intro id o hget
    cases hget

theorem validateObserved_spec {observed : List ObservedContainer}
    (h : validateObserved observed = none) {o : ObservedContainer} (ho : o ∈ observed) :
    validName o.installation 160 = true ∧ validName o.component 64 = true := by
  induction observed with
  | nil => cases ho
  | cons o' rest ih =>
    rw [validateObserved] at h
    split at h
    · cases h
    next hvalid =>
      rcases List.mem_cons.mp ho with rfl | ho
      · simpa using hvalid
      · exact ih h ho

theorem validate_spec {req : SyncRequest} (h : validate req = none) :
    validateDesired req.desired [] = none ∧ validateObserved req.observed = none := by
  rw [validate] at h
  split at h
  · cases h
  · cases hdesired : validateDesired req.desired [] with
    | some e =>
      rw [hdesired] at h
      cases h
    | none =>
      rw [hdesired] at h
      exact ⟨rfl,h⟩

/-- A key is that of a container it is seen with. -/
theorem key_of_seen {req : SyncRequest} (h : validate req = none) {k : WorkloadKey}
    {o : ObservedContainer} (hseen : (seenOf req.observed).get? k.id = some o) : k = o.key := by
  obtain ⟨hmem,hid⟩ := seenOf_spec hseen
  obtain ⟨hinstallation,hcomponent⟩ := validateObserved_spec (validate_spec h).2 hmem
  exact id_inj hinstallation hcomponent hid.symm

/-- The keys that are dropped and core has no record of. -/
def unknown (desired : OrdMap Text (DesiredWorkload × Bool)) (ks : List WorkloadKey) : List Text :=
  (ks.map (·.id)).filter fun id => !desired.contains id

/-- What holds of a pass when it begins, and of every workload and the keys that
were handled before it, holds at its end. -/
theorem rustPass_induction (c : AppController) (req : SyncRequest) (now : Nat)
    (hvalid : validate req = none) {I : List Text → Pass → Prop} (hstart : I [] ⟨c,[],[],∅⟩)
    (hforget : ∀ handled p k,I handled p → k ∈ req.forget →
      (req.forget.Nodup → (c.view req now).seen.contains k.id = true → k.id ∉ handled) →
      I (handled ++ unknown c.desired [k]) (forgetUnknown (c.view req now) c.desired p k))
    (hcommitted : ∀ handled p,I handled p → I handled { p with
      committed := AppController.committedMemory (ascending c.desired) (c.view req now).seen })
    (hvisit : ∀ handled p key d gone,I handled p → c.desired.get? key = some (d,gone) →
      key ∉ handled → I (handled ++ [key]) (visit (c.view req now) p key d gone)) :
    ∃ handled,(∀ key,c.desired.contains key = true → key ∈ handled) ∧
      I handled (c.rustPass req now) := by
  have hforgot : I (unknown c.desired req.forget)
      (req.forget.foldl (forgetUnknown (c.view req now) c.desired) ⟨c,[],[],∅⟩) := by
    refine foldl_history (I := fun before p => I (unknown c.desired before) p) ?_ hstart
    intro p before k after heq hp
    have hsplit : unknown c.desired (before ++ [k]) =
        unknown c.desired before ++ unknown c.desired [k] := by simp [unknown]
    rw [hsplit]
    refine hforget _ p k hp (by rw [heq]; simp) ?_
    intro honce hcontains hmem
    obtain ⟨o,hget⟩ := (OrdMap.contains_iff _).mp hcontains
    obtain ⟨k',hk',hid⟩ := List.mem_map.mp (List.mem_of_mem_filter hmem)
    have hsame : k' = k := by
      have hkey := key_of_seen hvalid hget
      rw [← hid] at hget
      exact (key_of_seen hvalid hget).trans hkey.symm
    rw [heq] at honce
    exact (List.nodup_append.mp honce).2.2 k' hk' k List.mem_cons_self hsame
  have hnew : ∀ key ∈ (ascending c.desired).map Prod.fst,key ∉ unknown c.desired req.forget := by
    intro key hkey hmem
    obtain ⟨e,he,rfl⟩ := List.mem_map.mp hkey
    have hcontains := (OrdMap.contains_iff c.desired).mpr ⟨e.2,mem_ascending.mp he⟩
    have hunknown := (List.mem_filter.mp hmem).2
    rw [hcontains] at hunknown
    cases hunknown
  refine ⟨unknown c.desired req.forget ++ (ascending c.desired).map Prod.fst,?_,?_⟩
  · intro key hkey
    obtain ⟨value,hget⟩ := (OrdMap.contains_iff _).mp hkey
    refine List.mem_append_right _ (List.mem_map.mpr ⟨(key,value),?_,rfl⟩)
    exact mem_ascending.mpr hget
  refine foldl_history (I := fun (before : List (Text × DesiredWorkload × Bool)) p =>
    I (unknown c.desired req.forget ++ before.map Prod.fst) p) ?_ ?_
  · intro p before e after heq hp
    obtain ⟨key,d,gone⟩ := e
    have hmem : (key,d,gone) ∈ ascending c.desired := by
      rw [heq]
      simp
    rw [List.map_append,← List.append_assoc]
    refine hvisit _ p key d gone hp (mem_ascending.mp hmem) ?_
    have hnodup := ascending_nodup c.desired
    rw [heq,List.map_append] at hnodup
    rw [List.mem_append,not_or]
    refine ⟨hnew key (by rw [heq]; simp),?_⟩
    intro hmem
    exact (List.nodup_append.mp hnodup).2.2 key hmem key (by simp) rfl
  · rw [List.map_nil,List.append_nil]
    exact hcommitted _ _ hforgot

end Flagship.Apps

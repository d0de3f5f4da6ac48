import Flagship.Relay.Proofs.Operations

namespace Flagship.Relay.Proofs
open Lib Allocator
variable [Lowercase]

/-- The call entitles a pod to a name: it registers the name, derives it, or is
a granted transfer of it. -/
def Earns (a : Allocator) (p s : Text) : Op → Prop
  | .addPodServing pod canonicals _ _ =>
    toLowercase pod = p ∧ s ∈ joinedNames a.apex p canonicals
  | .requestTransfer pod fqdn => toLowercase pod = p ∧ toLowercase fqdn = s ∧
    ∃ r, (a.requestTransfer pod fqdn).2 = .ok r
  | _ => False

/-- How a pod comes to hold a slot in one step. -/
inductive HolderFrom (a : Allocator) (ks s h : Text) (op : Op) : Prop
  | kept (hold : holderOf a.sets ks s = some h)
  | claimed (earns : Earns a h s op) (key : setKeyOf a.apex s = some ks) (own : s ≠ h)
      (free : ¬ Registered a s)
  | granted (pod fqdn : Text) (call : op = .requestTransfer pod fqdn) (earns : Earns a h s op)
      (own : Bool) (moved : Transferred a (step a op) h s ks own)
  | inherited (pc : Text) (leaving : Bool) (e : PodEntry) (stopped : Finset Text) (set : SetEntry)
      (call : op = (if leaving then .removePod pc else .setAppsAllowed pc false))
      (gave : Released a (step a op) (toLowercase pc) leaving e) (listed : ks ∈ e.setKeys.keys)
      (stops : ∀ p, p ∈ stopped ↔ p ∈ a.appsStopped ∨ leaving = false ∧ p = toLowercase pc)
      (found : a.sets.get? ks = some set) (held : set.slotHolders.get? s = some (toLowercase pc))
      (heir : pickHeir a.pods stopped (heirSet leaving (toLowercase pc) set) s = some h)
  | resumed (pc : Text) (e : PodEntry) (set : SetEntry) (call : op = .setAppsAllowed pc true)
      (who : h = toLowercase pc) (record : a.pods.get? h = some e) (was : h ∈ a.appsStopped)
      (listed : ks ∈ e.setKeys.keys) (found : a.sets.get? ks = some set)
      (free : s ∈ freeSlots a.apex h e.derivable set)

theorem step_apex (a : Allocator) (op : Op) : (step a op).apex = a.apex := by
  cases op with
  | addPodServing pod canonicals nowMs apps =>
    exact (addPodServing_added a pod canonicals nowMs apps).apex
  | requestTransfer pod fqdn =>
    rcases requestTransfer_cases a pod fqdn with ⟨hs,_⟩ | ⟨_,_,ht,_⟩
    · rw [step,hs]
    · exact ht.apex
  | setAppsAllowed pod allowed =>
    rcases setAppsAllowed_cases a pod allowed with ⟨hs,_⟩ | ⟨_,_,hr⟩ | ⟨_,_,hr⟩
    · rw [step,hs]
    · exact hr.apex
    · exact hr.apex
  | removePod pod =>
    rcases removePod_cases a pod with ⟨hs,_⟩ | ⟨_,hr⟩
    · rw [step,hs]
    · exact hr.apex

theorem run_apex (apex : Text) (ops : List Op) :
    (run step (Allocator.new apex) ops).apex = toLowercase apex :=
  run_invariant (fun a op h => (step_apex a op).trans h) rfl ops

theorem step_holder {a : Allocator} {op : Op} {ks s h : Text}
    (hh : holderOf (step a op).sets ks s = some h) : HolderFrom a ks s h op := by
  cases op with
  | addPodServing pod canonicals nowMs apps =>
    rcases (addPodServing_added a pod canonicals nowMs apps).claims ks s h hh with
      hh | ⟨rfl,_,hne,hfree,hn,hk⟩
    · exact .kept hh
    · exact .claimed ⟨rfl,hn⟩ hk hne hfree
  | requestTransfer pod fqdn =>
    rcases requestTransfer_cases a pod fqdn with ⟨hs,_⟩ | ⟨x,own,ht,key,hok⟩
    · rw [step,hs] at hh
      exact .kept hh
    · rw [step,ht.holder] at hh
      split at hh
      · rename_i hx
        obtain ⟨rfl,rfl⟩ := hx
        cases hh
        exact .granted pod fqdn rfl ⟨rfl,rfl,_,hok⟩ own ht
      · exact .kept hh
  | setAppsAllowed pod allowed =>
    rcases setAppsAllowed_cases a pod allowed with ⟨hs,_⟩ | ⟨rfl,e,hr⟩ | ⟨rfl,e,hr⟩
    · rw [step,hs] at hh
      exact .kept hh
    · obtain ⟨stopped,hstop,g⟩ := hr.views
      rcases g.holder_cases hh with ⟨hh,_⟩ | ⟨hks,hheld,set,hg,hp⟩
      · exact .kept hh
      · rw [holderOf_of_get hg] at hheld
        exact .inherited pod false e stopped set rfl hr hks hstop hg hheld hp
    · rcases hr.claims ks s h hh with hh | ⟨rfl,hks,set,hg,hf⟩
      · exact .kept hh
      · exact .resumed pod e set rfl rfl hr.record hr.was hks hg hf
  | removePod pod =>
    rcases removePod_cases a pod with ⟨hs,_⟩ | ⟨e,hr⟩
    · rw [step,hs] at hh
      exact .kept hh
    · obtain ⟨stopped,hstop,g⟩ := hr.views
      rcases g.holder_cases hh with ⟨hh,_⟩ | ⟨hks,hheld,set,hg,hp⟩
      · exact .kept hh
      · rw [holderOf_of_get hg] at hheld
        exact .inherited pod true e stopped set rfl hr hks hstop hg hheld hp

/-- A pod waits for a slot only once it has earned the name. -/
theorem step_queue {a : Allocator} {op : Op} {ks s p : Text}
    (hq : p ∈ queueOf (step a op).sets ks s) :
    p ∈ queueOf a.sets ks s ∨ Earns a p s op ∧ setKeyOf a.apex s = some ks := by
  cases op with
  | addPodServing pod canonicals nowMs apps =>
    rcases ((addPodServing_added a pod canonicals nowMs apps).queue ks s p).mp hq with
      hq | ⟨rfl,hn,hk⟩
    · exact Or.inl hq
    · exact Or.inr ⟨⟨rfl,hn⟩,hk⟩
  | requestTransfer pod fqdn =>
    rcases requestTransfer_cases a pod fqdn with ⟨hs,_⟩ | ⟨x,own,ht,key,hok⟩
    · rw [step,hs] at hq
      exact Or.inl hq
    · rcases (ht.queue ks s p).mp hq with hq | ⟨rfl,rfl,rfl⟩
      · exact Or.inl hq
      · exact Or.inr ⟨⟨rfl,rfl,_,hok⟩,ht.key⟩
  | setAppsAllowed pod allowed =>
    rcases setAppsAllowed_cases a pod allowed with ⟨hs,_⟩ | ⟨_,e,hr⟩ | ⟨_,e,hr⟩
    · rw [step,hs] at hq
      exact Or.inl hq
    · exact Or.inl (hr.queue hq)
    · exact Or.inl (hr.queue ks s ▸ hq)
  | removePod pod =>
    rcases removePod_cases a pod with ⟨hs,_⟩ | ⟨e,hr⟩
    · rw [step,hs] at hq
      exact Or.inl hq
    · exact Or.inl (hr.queue hq)

/-- A pod is in a set only through a name it has earned there. -/
theorem step_member {a : Allocator} {op : Op} {ks p : Text}
    (hm : memberOf (step a op).sets ks p) :
    memberOf a.sets ks p ∨ ∃ n, Earns a p n op ∧ setKeyOf a.apex n = some ks := by
  cases op with
  | addPodServing pod canonicals nowMs apps =>
    rcases ((addPodServing_added a pod canonicals nowMs apps).member ks p).mp hm with
      hm | ⟨rfl,n,hn,hk⟩
    · exact Or.inl hm
    · exact Or.inr ⟨n,⟨rfl,hn⟩,hk⟩
  | requestTransfer pod fqdn =>
    rcases requestTransfer_cases a pod fqdn with ⟨hs,_⟩ | ⟨x,own,ht,key,hok⟩
    · rw [step,hs] at hm
      exact Or.inl hm
    · rcases (ht.member ks p).mp hm with hm | ⟨_,rfl,rfl⟩
      · exact Or.inl hm
      · exact Or.inr ⟨_,⟨rfl,rfl,_,hok⟩,ht.key⟩
  | setAppsAllowed pod allowed =>
    rcases setAppsAllowed_cases a pod allowed with ⟨hs,_⟩ | ⟨_,e,hr⟩ | ⟨_,e,hr⟩
    · rw [step,hs] at hm
      exact Or.inl hm
    · exact Or.inl (hr.member hm)
    · exact Or.inl ((hr.member ks p).mp hm)
  | removePod pod =>
    rcases removePod_cases a pod with ⟨hs,_⟩ | ⟨e,hr⟩
    · rw [step,hs] at hm
      exact Or.inl hm
    · exact Or.inl (hr.member hm)

/-- What a pod's record lists, it earned by registering, now or before. -/
theorem step_record {a : Allocator} {op : Op} {p : Text} {e : PodEntry}
    (he : (step a op).pods.get? p = some e) :
    (∃ e', a.pods.get? p = some e' ∧
      ∀ f, f ∈ e.canonicals ∨ f ∈ e.derivable → f ∈ e'.canonicals ∨ f ∈ e'.derivable) ∨
    ∃ pod canonicals nowMs apps, op = .addPodServing pod canonicals nowMs apps ∧
      ∀ f, f ∈ e.canonicals ∨ f ∈ e.derivable → Earns a p f op := by
  cases op with
  | addPodServing pod canonicals nowMs apps =>
    have ha := addPodServing_added a pod canonicals nowMs apps
    by_cases hp : p = toLowercase pod
    · subst hp
      obtain ⟨r,hr,hnames,_⟩ := ha.record
      rw [step,hr] at he
      cases he
      exact Or.inr ⟨pod,canonicals,nowMs,apps,rfl,fun f hf => ⟨rfl,(hnames f).mp hf⟩⟩
    · exact Or.inl ⟨e,(ha.others p hp).symm.trans he,fun _ h => h⟩
  | requestTransfer pod fqdn =>
    refine Or.inl ?_
    rcases requestTransfer_cases a pod fqdn with ⟨hs,_⟩ | ⟨x,own,ht,key,hok⟩
    · rw [step,hs] at he
      exact ⟨e,he,fun _ h => h⟩
    · by_cases hp : p = toLowercase pod
      · subst hp
        obtain ⟨r,r',hr,hr',hcan,hder,_⟩ := ht.record
        rw [step,hr'] at he
        cases he
        exact ⟨r,hr,fun f hf => hcan ▸ hder ▸ hf⟩
      · exact ⟨e,(ht.others p hp).symm.trans he,fun _ h => h⟩
  | setAppsAllowed pod allowed =>
    refine Or.inl ⟨e,?_,fun _ h => h⟩
    rcases setAppsAllowed_cases a pod allowed with ⟨hs,_⟩ | ⟨_,r,hr⟩ | ⟨_,r,hr⟩
    · rwa [step,hs] at he
    · simpa [step,hr.pods] using he
    · rwa [step,hr.pods] at he
  | removePod pod =>
    refine Or.inl ⟨e,?_,fun _ h => h⟩
    rcases removePod_cases a pod with ⟨hs,_⟩ | ⟨r,hr⟩
    · rwa [step,hs] at he
    · rw [step,hr.pods] at he
      split at he
      · cases he
      · exact he

/-- A pod registered after a step was registered before it or is the one it adds. -/
theorem step_registered {a : Allocator} {op : Op} {p : Text} (hp : Registered (step a op) p) :
    Registered a p ∨
      ∃ pod canonicals nowMs apps, op = .addPodServing pod canonicals nowMs apps ∧
        toLowercase pod = p := by
  obtain ⟨e,he⟩ := registered_iff.mp hp
  cases op with
  | addPodServing pod canonicals nowMs apps =>
    by_cases hpc : p = toLowercase pod
    · exact Or.inr ⟨pod,canonicals,nowMs,apps,rfl,hpc.symm⟩
    · rw [step,(addPodServing_added a pod canonicals nowMs apps).others p hpc] at he
      exact Or.inl (registered_iff.mpr ⟨e,he⟩)
  | requestTransfer | setAppsAllowed | removePod =>
    rcases step_record he with ⟨e',he',_⟩ | ⟨_,_,_,_,hop,_⟩
    · exact Or.inl (registered_iff.mpr ⟨e',he'⟩)
    · cases hop

end Flagship.Relay.Proofs

namespace Flagship.Relay.Proofs
open Lib Allocator

section
variable [Lowercase]

/-- No slot of any set carries the name of a registered pod. -/
def SlotsAvoidPods (a : Allocator) : Prop :=
  ∀ ks s h, holderOf a.sets ks s = some h → ¬ Registered a s

/-- A box's own name is no app slot, and the box itself is found under it. -/
def ControlReserved (a : Allocator) : Prop :=
  SlotsAvoidPods a ∧ ∀ p, Registered a p → a.findHolder p = some p

/-- Somebody holds a slot with this name. -/
def SlotTaken (a : Allocator) (s : Text) : Prop :=
  ∃ e ∈ a.sets.entries, e.2.slotHolders.contains s = true

theorem slotTaken_of_holder {a : Allocator} {ks s h : Text} (hh : holderOf a.sets ks s = some h) :
    SlotTaken a s := by
  obtain ⟨set,hs,hg⟩ := holderOf_eq_some.mp hh
  exact ⟨(ks,set),a.sets.mem_entries.mpr hs,set.slotHolders.contains_iff.mpr ⟨h,hg⟩⟩

/-- What keeps control names off the slots: a pod registers under a name nobody
holds as a slot, a pod is not granted its own name as a slot, and a resuming
pod takes back no slot which is by now the name of a registered pod. -/
def KeepsReserved (a : Allocator) : Op → Prop
  | .addPodServing pod _ _ _ => ¬ SlotTaken a (toLowercase pod)
  | .requestTransfer pod fqdn => toLowercase fqdn = toLowercase pod →
    Registered a (toLowercase pod) → toLowercase pod ∉ a.appsStopped →
      parseSetKey fqdn a.apex = none
  | .setAppsAllowed pod allowed => allowed = true → toLowercase pod ∈ a.appsStopped →
    ∀ e ∈ a.pods.get? (toLowercase pod), ∀ ks ∈ e.setKeys.keys, ∀ set ∈ a.sets.get? ks,
      ∀ s ∈ freeSlots a.apex (toLowercase pod) e.derivable set, ¬ Registered a s
  | .removePod _ => True

instance (a : Allocator) (s : Text) : Decidable (SlotTaken a s) :=
  inferInstanceAs (Decidable (∃ e ∈ a.sets.entries, _))

instance (a : Allocator) (op : Op) : Decidable (KeepsReserved a op) :=
  match op with
  | .addPodServing .. => by dsimp only [KeepsReserved]; infer_instance
  | .requestTransfer .. => by dsimp only [KeepsReserved]; infer_instance
  | .setAppsAllowed .. => by dsimp only [KeepsReserved]; infer_instance
  | .removePod .. => by dsimp only [KeepsReserved]; infer_instance

/-- Pods are registered under lowercased names. -/
def PodsLower (a : Allocator) : Prop := ∀ p, Registered a p → toLowercase p = p

theorem step_podsLower {a : Allocator} {op : Op} (h : PodsLower a) : PodsLower (step a op) := by
  intro p hp
  rcases step_registered hp with hp | ⟨pod,_,_,_,_,rfl⟩
  · exact h p hp
  · exact toLowercase_idem pod

theorem run_podsLower (apex : Text) (ops : List Op) :
    PodsLower (run step (Allocator.new apex) ops) :=
  run_invariant (fun _ _ => step_podsLower)
    (fun p hp => by simp [Registered,Allocator.new] at hp) ops

/-- No step but a registration adds a pod, so the names to avoid only grow there. -/
theorem step_slotsAvoidPods {a : Allocator} {op : Op} (h : SlotsAvoidPods a)
    (hc : KeepsReserved a op) : SlotsAvoidPods (step a op) := by
  intro ks s p hh hs
  -- whoever holds the slot now, the slot's name was free of pods before the step
  have hbefore : ¬ Registered a s := by
    cases step_holder hh with
    | kept hold => exact h ks s p hold
    | claimed earns key own free => exact free
    | granted pod fqdn call earns own moved =>
      subst call
      by_cases hown : s = p
      · subst hown
        obtain ⟨hp,hf,_⟩ := earns
        obtain ⟨e,_,he,_⟩ := moved.record
        have hnone := hc (hf.trans hp.symm) (hp ▸ registered_iff.mpr ⟨e,he⟩) (hp ▸ moved.serving)
        have hkey := moved.key
        rw [← hf,setKeyOf,parseSetKey_toLowercase,hnone] at hkey
        cases hkey
      · exact moved.free hown
    | inherited pc leaving e stopped set call gave listed stops found held heir =>
      exact h ks s _ ((holderOf_of_get found).trans held)
    | resumed pc e set call who record was listed found free =>
      subst call who
      exact hc rfl was e record ks listed set found s free
  rcases step_registered hs with hs | ⟨pod,canonicals,nowMs,apps,rfl,rfl⟩
  · exact hbefore hs
  · -- the pod just added: its name was nobody's slot, and it claims none of its own name
    cases step_holder hh with
    | kept hold => exact hc (slotTaken_of_holder hold)
    | claimed earns key own free => exact own earns.1
    | granted _ _ call => cases call
    | inherited _ leaving _ _ _ call => cases leaving <;> cases call
    | resumed _ _ _ call => cases call

theorem new_slotsAvoidPods (apex : Text) : SlotsAvoidPods (Allocator.new apex) := by
  intro ks s h hh
  simp [Allocator.new,holderOf] at hh

theorem findHolder_registered {a : Allocator} {p : Text} (hl : toLowercase p = p)
    (hp : Registered a p) : a.findHolder p = some p := by
  unfold findHolder
  rw [hl]
  exact if_pos hp

/-- In every run whose steps keep the names reserved, no slot is ever named
like a registered pod, and every registered pod is found under its own name. -/
theorem control_names_reserved (apex : Text) (ops : List Op)
    (hc : Along step KeepsReserved (Allocator.new apex) ops) :
    ControlReserved (run step (Allocator.new apex) ops) :=
  ⟨hc.invariant (fun _ _ => step_slotsAvoidPods) (new_slotsAvoidPods apex),
    fun p hp => findHolder_registered (run_podsLower apex ops p hp) hp⟩

end

/-- Two boxes with one app; the first stops, resumes and goes. -/
theorem control_names_reserved_two_boxes :
    ControlReserved (run step (Allocator.new defaultApex)
      [.addPodServing homePod ["chess.home.alice.flagship.services".toList] 1 true,
        .addPodServing cabinPod ["chess.cabin.alice.flagship.services".toList] 2 true,
        .setAppsAllowed homePod false, .setAppsAllowed homePod true, .removePod homePod]) :=
  control_names_reserved defaultApex _ (by decide +kernel)

/-- A box registers under a short name another box already holds as a slot: the
slot stays, though the name is a registered pod's own. -/
theorem registered_name_stays_slot :
    ¬ ControlReserved (run step (Allocator.new defaultApex)
      [.addPodServing homePod ["chess.home.alice.flagship.services".toList] 1 true,
        .addPodServing "chess.alice.flagship.services".toList [] 2 true]) := by
  intro h
  have hheld : holderOf (run step (Allocator.new defaultApex)
      [.addPodServing homePod ["chess.home.alice.flagship.services".toList] 1 true,
        .addPodServing "chess.alice.flagship.services".toList [] 2 true]).sets
      "chess|alice|alice".toList "chess.alice.flagship.services".toList =
        some (toLowercase homePod) := by decide +kernel
  exact absurd (by decide +kernel) (h.1 _ _ _ hheld)

end Flagship.Relay.Proofs

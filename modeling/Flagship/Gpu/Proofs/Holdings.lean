import Flagship.Gpu.Journal
import Mathlib.Algebra.Order.BigOperators.Group.List
import Mathlib.Data.List.Pairwise

namespace Flagship.Gpu
open Lib

def sharers (held : List Holding) : List Holding :=
  held.filter fun h => h.policy.kind = .cooperative

def budget (held : List Holding) : Nat := ((sharers held).map Holding.memoryMib).sum

/-- The holdings of one device with so much memory go together. -/
structure Compatible (memory : Nat) (held : List Holding) : Prop where
  exclusive_alone : ∀ h ∈ held,h.policy = .exclusive → held = [h]
  partitions_named : ∀ h ∈ held,h.policy = .partition ↔ h.partition.isSome
  partitions_distinct : held.Pairwise fun a b => a.partition.isSome → a.partition ≠ b.partition
  no_whole_device_beside : ∀ a ∈ held,∀ b ∈ held,a.partition.isSome → b.partition.isSome
  at_most_four : (sharers held).length ≤ 4
  one_domain : ∀ a ∈ held,∀ b ∈ held,a.policy.kind = .cooperative →
    b.policy.kind = .cooperative ∧ b.policy.domain = a.policy.domain
  secrecy_with_itself : ∀ a ∈ sharers held,∀ b ∈ sharers held,a.secrecy → b.appId = a.appId
  within_memory : budget held ≤ memory

/-- The partition a holding names suits its policy. -/
def Holding.Shaped (h : Holding) : Prop := h.policy = .partition ↔ h.partition.isSome

/-- Two holdings that may stand on one device. -/
inductive Beside (a b : Holding) : Prop
  | partitions (ha : a.policy = .partition) (hb : b.policy = .partition)
    (hne : a.partition ≠ b.partition)
  | sharers (ha : a.policy.kind = .cooperative) (hb : b.policy.kind = .cooperative)
    (hdomain : b.policy.domain = a.policy.domain)
    (hsecrecy : a.secrecy ∨ b.secrecy → b.appId = a.appId)

theorem Beside.symm {a b : Holding} (h : Beside a b) : Beside b a := by
  cases h with
  | partitions ha hb hne => exact .partitions hb ha hne.symm
  | sharers ha hb hdomain hsecrecy =>
    exact .sharers hb ha hdomain.symm fun h => (hsecrecy h.symm).symm

/-- What the check of each newcomer keeps of a device, its memory apart. -/
structure Apart (held : List Holding) : Prop where
  shaped : ∀ h ∈ held,h.Shaped
  beside : held.Pairwise Beside
  at_most_four : (sharers held).length ≤ maxCooperativeSharers

theorem Apart.nil : Apart [] := ⟨by simp,.nil,by simp [sharers]⟩

theorem Apart.perm {held held' : List Holding} (h : Apart held) (hp : held.Perm held') :
    Apart held' := by
  refine ⟨fun x hx => h.shaped x (hp.mem_iff.mpr hx),?_,?_⟩
  · exact (hp.pairwise_iff (fun hxy => Beside.symm hxy)).mp h.beside
  · exact ((hp.filter _).length_eq).symm.trans_le h.at_most_four

theorem Apart.sublist {held held' : List Holding} (h : Apart held) (hs : held'.Sublist held) :
    Apart held' :=
  ⟨fun x hx => h.shaped x (hs.subset hx),h.beside.sublist hs,
    ((hs.filter _).length_le).trans h.at_most_four⟩

theorem budget_perm {held held' : List Holding} (hp : held.Perm held') :
    budget held = budget held' :=
  ((hp.filter _).map _).sum_eq

theorem budget_sublist {held held' : List Holding} (hs : held'.Sublist held) :
    budget held' ≤ budget held :=
  List.Sublist.sum_le_sum ((hs.filter _).map _) fun _ _ => Nat.zero_le _

instance : Std.Symm Beside := ⟨fun _ _ h => h.symm⟩

/-- Any two holdings of a device are equal or stand beside each other. -/
theorem Apart.eq_or_beside {held : List Holding} (h : Apart held) {a b : Holding} (ha : a ∈ held)
    (hb : b ∈ held) : a = b ∨ Beside a b := by
  by_cases hab : a = b
  · exact .inl hab
  · exact .inr (h.beside.forall ha hb hab)

theorem Beside.not_exclusive {a b : Holding} (h : Beside a b) : a.policy ≠ .exclusive := by
  intro he
  cases h with
  | partitions ha hb hne => rw [he] at ha; cases ha
  | sharers ha hb hdomain hsecrecy => rw [he] at ha; cases ha

theorem Apart.exclusive_alone {held : List Holding} (h : Apart held) {x : Holding} (hx : x ∈ held)
    (he : x.policy = .exclusive) : held = [x] := by
  have hsame : ∀ y ∈ held,y = x := by
    intro y hy
    rcases h.eq_or_beside hx hy with heq | hb
    · exact heq.symm
    · exact absurd he hb.not_exclusive
  obtain ⟨first,last,rfl⟩ := List.append_of_mem hx
  have hp : (x :: (first ++ last)).Pairwise Beside :=
    (List.perm_middle.pairwise_iff fun hxy => Beside.symm hxy).mp h.beside
  have hrest : first ++ last = [] := by
    refine List.eq_nil_iff_forall_not_mem.mpr fun y hy => ?_
    exact ((List.pairwise_cons.mp hp).1 y hy).not_exclusive he
  obtain ⟨rfl,rfl⟩ := List.append_eq_nil_iff.mp hrest
  rfl

theorem mem_sharers {held : List Holding} {h : Holding} :
    h ∈ sharers held ↔ h ∈ held ∧ h.policy.kind = .cooperative := by
  simp [sharers]

/-- Holdings that stand apart and have the memory they need are compatible. -/
theorem Apart.compatible {held : List Holding} (h : Apart held) {memory : Nat}
    (hm : budget held ≤ memory) : Compatible memory held where
  exclusive_alone := fun _ hx he => h.exclusive_alone hx he
  partitions_named := h.shaped
  partitions_distinct := by
    refine h.beside.imp_of_mem ?_
    intro a b ha hb hab hsome
    cases hab with
    | partitions _ _ hne => exact hne
    | sharers hcoop _ _ _ =>
      have hpart : a.policy = .partition := (h.shaped a ha).mpr hsome
      rw [hpart] at hcoop
      cases hcoop
  no_whole_device_beside := by
    intro a ha b hb hsome
    rcases h.eq_or_beside ha hb with rfl | hab
    · exact hsome
    · have hpart : a.policy = .partition := (h.shaped a ha).mpr hsome
      cases hab with
      | partitions _ hpb _ => exact (h.shaped b hb).mp hpb
      | sharers hcoop _ _ _ =>
        rw [hpart] at hcoop
        cases hcoop
  at_most_four := h.at_most_four
  one_domain := by
    intro a ha b hb hcoop
    rcases h.eq_or_beside ha hb with rfl | hab
    · exact ⟨hcoop,rfl⟩
    · cases hab with
      | partitions hpa _ _ =>
        rw [hpa] at hcoop
        cases hcoop
      | sharers _ hcb hdomain _ => exact ⟨hcb,hdomain⟩
  secrecy_with_itself := by
    intro a ha b hb hsecret
    obtain ⟨ha,hcoop⟩ := mem_sharers.mp ha
    rcases h.eq_or_beside ha (mem_sharers.mp hb).1 with rfl | hab
    · rfl
    · cases hab with
      | partitions hpa _ _ =>
        rw [hpa] at hcoop
        cases hcoop
      | sharers _ _ _ hsecrecy => exact hsecrecy (.inl hsecret)
  within_memory := hm

section
variable {existing : List Holding} {new : Holding} {memory : Nat}

theorem besidePartitions_ok (h : besidePartitions new existing = .ok ()) :
    ∀ x ∈ existing,x.partition.isSome ∧ x.partition ≠ new.partition := by
  induction existing with
  | nil => simp
  | cons y rest ih =>
    simp only [besidePartitions] at h
    split at h
    · cases h
    · rename_i p hp
      split at h
      · cases h
      · rename_i hne
        intro x hx
        rcases List.mem_cons.mp hx with rfl | hx
        · exact ⟨by rw [hp]; rfl,by rw [hp]; exact hne⟩
        · exact ih h x hx

/-- Whoever shares with those that are there is of their domain, keeps to their
secrecy and is counted with all of them. -/
theorem besideSharers_ok {domain : Text} {used all : Nat}
    (h : besideSharers domain new existing used = .ok all) :
    (∀ x ∈ existing,x.policy.kind = .cooperative ∧ x.policy.domain = some domain ∧
      (x.secrecy ∨ new.secrecy → x.appId = new.appId)) ∧
    min (used + (existing.map Holding.memoryMib).sum) (2 ^ 64 - 1) ≤ all := by
  induction existing generalizing used with
  | nil =>
    simp only [besideSharers,Except.ok.injEq] at h
    subst h
    simp
  | cons y rest ih =>
    simp only [besideSharers] at h
    split at h
    · rename_i theirs consent hp
      split at h
      · cases h
      · rename_i hdomain
        split at h
        · cases h
        · rename_i hsecrecy
          obtain ⟨hrest,hall⟩ := ih h
          refine ⟨?_,?_⟩
          · intro x hx
            rcases List.mem_cons.mp hx with rfl | hx
            · refine ⟨by rw [hp]; rfl,by rw [hp]; simpa [Policy.domain] using hdomain,?_⟩
              intro hs
              by_contra hne
              exact hsecrecy (by simpa [hne] using hs)
            · exact hrest x hx
          · simp only [List.map_cons,List.sum_cons]
            simp only [saturatingAdd] at hall
            omega
    · cases h

theorem sharers_eq_self (h : ∀ x ∈ existing,x.policy.kind = .cooperative) :
    sharers existing = existing :=
  List.filter_eq_self.mpr fun x hx => by simpa using h x hx

theorem sharers_eq_nil (h : ∀ x ∈ existing,x.policy.kind ≠ .cooperative) :
    sharers existing = [] :=
  List.filter_eq_nil_iff.mpr fun x hx => by simpa using h x hx

/-- What it takes for a holding to be let in. -/
inductive Admitted (existing : List Holding) (new : Holding) (memory : Nat) : Prop
  | alone (hp : new.policy = .exclusive) (hnone : new.partition = none) (hempty : existing = [])
  | apart (hp : new.policy = .partition) (hsome : new.partition.isSome)
    (hrest : ∀ x ∈ existing,x.partition.isSome ∧ x.partition ≠ new.partition)
  | shared (hp : new.policy.kind = .cooperative) (hnone : new.partition = none)
    (hrest : ∀ x ∈ existing,x.policy.kind = .cooperative ∧ x.policy.domain = new.policy.domain ∧
      (x.secrecy ∨ new.secrecy → x.appId = new.appId))
    (hfour : existing.length < maxCooperativeSharers)
    (hused : min (new.memoryMib + (existing.map Holding.memoryMib).sum) (2 ^ 64 - 1) ≤ memory)

theorem admissible_ok (h : admissible existing new memory = .ok ()) :
    Admitted existing new memory := by
  unfold admissible at h
  split at h
  · rename_i hp hnone
    split at h
    · cases h
    · rename_i hempty
      exact .alone hp hnone (List.head?_eq_none_iff.mp hempty)
  · rename_i p hp hsome
    exact .apart hp (by rw [hsome]; rfl) (besidePartitions_ok h)
  · rename_i domain consent hp hnone
    split at h
    · cases h
    · split at h
      · cases h
      · rename_i all hall
        split at h
        · cases h
        · rename_i hfour
          split at h
          · cases h
          · rename_i hused
            obtain ⟨hrest,hsum⟩ := besideSharers_ok hall
            refine .shared (by rw [hp]; rfl) hnone ?_ (Nat.lt_of_not_le hfour)
              (hsum.trans (Nat.le_of_not_lt fun hlt => hused (.inr hlt)))
            rw [hp]
            exact hrest
  · cases h

/-- A holding that is let in leaves the device as it should be. -/
theorem Admitted.apart_cons (h : Admitted existing new memory) (ha : Apart existing) :
    Apart (new :: existing) := by
  cases h with
  | alone hp hnone hempty =>
    subst hempty
    refine ⟨?_,List.pairwise_singleton _ _,?_⟩
    · intro x hx
      obtain rfl := List.mem_singleton.mp hx
      simp [Holding.Shaped,hp,hnone]
    · simp [sharers,hp,Policy.kind]
  | apart hp hsome hrest =>
    have hparts : ∀ x ∈ existing,x.policy = .partition := fun x hx =>
      (ha.shaped x hx).mpr (hrest x hx).1
    refine ⟨?_,List.pairwise_cons.mpr ⟨?_,ha.beside⟩,?_⟩
    · intro x hx
      rcases List.mem_cons.mp hx with rfl | hx
      · simp [Holding.Shaped,hp,hsome]
      · exact ha.shaped x hx
    · intro x hx
      exact .partitions hp (hparts x hx) (hrest x hx).2.symm
    · have hnone : sharers (new :: existing) = [] := by
        refine sharers_eq_nil fun x hx => ?_
        rcases List.mem_cons.mp hx with rfl | hx
        · simp [hp,Policy.kind]
        · simp [hparts x hx,Policy.kind]
      simp [hnone]
  | shared hp hnone hrest hfour hused =>
    refine ⟨?_,List.pairwise_cons.mpr ⟨?_,ha.beside⟩,?_⟩
    · intro x hx
      rcases List.mem_cons.mp hx with rfl | hx
      · have hne : x.policy ≠ .partition := fun he => by rw [he] at hp; cases hp
        simp [Holding.Shaped,hne,hnone]
      · exact ha.shaped x hx
    · intro x hx
      obtain ⟨hcoop,hdomain,hsecrecy⟩ := hrest x hx
      exact .sharers hp hcoop hdomain fun hs => hsecrecy hs.symm
    · exact (List.length_filter_le _ _).trans hfour

/-- With a count that cannot stop short, a holding that is let in fits the memory. -/
theorem Admitted.budget_le (h : Admitted existing new memory)
    (hm : budget existing ≤ memory) (hcount : new.policy.kind = .cooperative →
      memory < 2 ^ 64 - 1 ∨ budget existing + new.memoryMib < 2 ^ 64) :
    budget (new :: existing) ≤ memory := by
  by_cases hp : new.policy.kind = .cooperative
  · cases h with
    | alone he _ _ => rw [he] at hp; cases hp
    | apart he _ _ => rw [he] at hp; cases hp
    | shared _ hnone hrest hfour hused =>
      have hall : sharers existing = existing := sharers_eq_self fun x hx => (hrest x hx).1
      have hbudget : budget existing = (existing.map Holding.memoryMib).sum := by
        rw [budget,hall]
      have hcons : budget (new :: existing) = new.memoryMib + budget existing := by
        simp [budget,sharers,hp]
      have hc := hcount hp
      omega
  · have hcons : budget (new :: existing) = budget existing := by
      simp [budget,sharers,hp]
    exact hcons.trans_le hm

end

namespace Journal

theorem insertHolding_perm (new : Holding) (held : List Holding) :
    (insertHolding new held).Perm (new :: held) := by
  induction held with
  | nil => exact .refl _
  | cons h rest ih =>
    unfold insertHolding
    split
    · exact (ih.cons h).trans (.swap new h rest)
    · exact .refl _

theorem mem_onDevice {device : Text} {held : List Holding} {h : Holding} :
    h ∈ onDevice device held ↔ h ∈ held ∧ h.device = device := by
  simp [onDevice]

/-- A holding is put on its own device. -/
theorem onDevice_insert_self (new : Holding) (held : List Holding) :
    (onDevice new.device (insertHolding new held)).Perm (new :: onDevice new.device held) := by
  refine ((insertHolding_perm new held).filter _).trans ?_
  rw [List.filter_cons_of_pos (by simp)]
  exact .refl _

/-- A holding is put on no other device. -/
theorem onDevice_insert_other {new : Holding} {device : Text} (held : List Holding)
    (hne : new.device ≠ device) :
    onDevice device (insertHolding new held) = onDevice device held := by
  induction held with
  | nil => simp [insertHolding,onDevice,hne]
  | cons h rest ih =>
    unfold insertHolding
    split
    · simp only [onDevice,List.filter_cons] at ih ⊢
      rw [ih]
    · simp [onDevice,hne]

/-- What a reservation found and what it put down. -/
structure Took (j : Journal) (rec : AllocationRecord) (deviceMemory : List (Text × Nat))
    (claims : List DeviceClaim) (held out : List Holding) : Prop where
  perm : out.Perm (claims.map rec.holding ++ held)
  distinct : (claims.map DeviceClaim.device).Nodup
  admitted : ∀ c ∈ claims,j.quarantined.contains c.device = false ∧
    ∃ total,deviceMemory.lookup c.device = some total ∧
      Admitted (onDevice c.device held) (rec.holding c) total
  claimed : ∀ c ∈ claims,
    (onDevice c.device out).Perm (rec.holding c :: onDevice c.device held)
  elsewhere : ∀ device,device ∉ claims.map DeviceClaim.device →
    onDevice device out = onDevice device held

theorem takeClaims_ok {j : Journal} {rec : AllocationRecord} {deviceMemory : List (Text × Nat)}
    {claims taken : List DeviceClaim} {held out : List Holding}
    (h : j.takeClaims rec deviceMemory taken claims held = .ok out) :
    Took j rec deviceMemory claims held out ∧
      ∀ t ∈ taken,t.device ∉ claims.map DeviceClaim.device := by
  induction claims generalizing taken held with
  | nil =>
    simp only [takeClaims,Except.ok.injEq] at h
    subst h
    exact ⟨⟨.refl _,.nil,by simp,by simp,fun _ _ => rfl⟩,by simp⟩
  | cons c rest ih =>
    simp only [takeClaims] at h
    split at h
    · cases h
    rename_i htaken
    split at h
    · cases h
    rename_i hquarantined
    split at h
    · cases h
    rename_i total htotal
    split at h
    · cases h
    rename_i hadmissible
    obtain ⟨took,happ⟩ := ih h
    have hfresh : c.device ∉ rest.map DeviceClaim.device := happ c (by simp)
    have hother : ∀ x ∈ rest,(rec.holding c).device ≠ x.device := by
      intro x hx he
      exact hfresh (List.mem_map.mpr ⟨x,hx,he.symm⟩)
    refine ⟨⟨?_,?_,?_,?_,?_⟩,?_⟩
    · refine took.perm.trans (((insertHolding_perm _ _).append_left _).trans ?_)
      exact List.perm_middle
    · exact List.nodup_cons.mpr ⟨hfresh,took.distinct⟩
    · intro x hx
      rcases List.mem_cons.mp hx with rfl | hx
      · exact ⟨by simpa using hquarantined,total,htotal,admissible_ok hadmissible⟩
      · have hx' := took.admitted x hx
        rwa [onDevice_insert_other held (hother x hx)] at hx'
    · intro x hx
      rcases List.mem_cons.mp hx with rfl | hx
      · rw [took.elsewhere _ hfresh]
        exact onDevice_insert_self (rec.holding x) held
      · have hx' := took.claimed x hx
        rwa [onDevice_insert_other held (hother x hx)] at hx'
    · intro device hd
      simp only [List.map_cons,List.mem_cons,not_or] at hd
      rw [took.elsewhere device hd.2]
      exact onDevice_insert_other held (Ne.symm hd.1)
    · intro t ht hmem
      rcases List.mem_cons.mp hmem with he | hmem
      · exact htaken (List.any_eq_true.mpr ⟨t,ht,by simpa using he⟩)
      · exact happ t (List.mem_append_left _ ht) hmem

/-- Devices that are as they should be stay so when a reservation takes its claims. -/
theorem Took.apart {j : Journal} {rec : AllocationRecord} {deviceMemory : List (Text × Nat)}
    {claims : List DeviceClaim} {held out : List Holding}
    (h : Took j rec deviceMemory claims held out) (ha : ∀ d,Apart (onDevice d held)) (d : Text) :
    Apart (onDevice d out) := by
  by_cases hd : d ∈ claims.map DeviceClaim.device
  · obtain ⟨c,hc,rfl⟩ := List.mem_map.mp hd
    obtain ⟨_,total,_,hadmitted⟩ := h.admitted c hc
    exact (hadmitted.apart_cons (ha c.device)).perm (h.claimed c hc).symm
  · rw [h.elsewhere d hd]
    exact ha d

section
variable {j j' : Journal} {id : Text} {source target : AllocationState} {rec rec' : AllocationRecord}

theorem load_ok (h : j.load id source = .ok rec) :
    j.allocations.get? id = some rec ∧ rec.state = source := by
  unfold load at h
  split at h
  · cases h
  · rename_i found hfound
    split at h
    · cases h
    · rename_i hstate
      cases h
      exact ⟨hfound,not_not.mp hstate⟩

/-- A change of state and nothing else. -/
theorem transition_ok {reason : Option Text}
    (h : j.transition id source target reason = .ok (rec',j')) :
    ∃ rec,j.allocations.get? id = some rec ∧ rec.state = source ∧
      source.canTransitionTo target = true ∧ target ≠ .reserved ∧ target.isTerminal = false ∧
      rec' = { rec with
        state := target
        reason := reason.or rec.reason
        revision := saturatingAdd rec.revision 1 } ∧
      j' = { j with allocations := j.allocations.set id rec' } := by
  unfold transition at h
  split at h
  · cases h
  · rename_i hlegal
    split at h
    · cases h
    · rename_i rec hload
      cases h
      obtain ⟨hrec,hstate⟩ := load_ok hload
      simp only [Bool.or_eq_true,Bool.not_eq_true',decide_eq_true_eq,not_or,
        Bool.not_eq_false,Bool.not_eq_true] at hlegal
      exact ⟨rec,hrec,hstate,hlegal.1.1,hlegal.1.2,hlegal.2,rfl,rfl⟩

theorem reserve_ok {claims : List DeviceClaim} {deviceMemory : List (Text × Nat)} {generation : Nat}
    (h : j.reserve id claims deviceMemory generation = .ok (rec',j')) :
    ∃ rec held,j.allocations.get? id = some rec ∧ rec.state = .admitted ∧
      j.topology.generation = j.topology.reconciled ∧ j.topology.generation = generation ∧
      Took j rec deviceMemory claims j.holdings held ∧
      rec' = { rec with
        state := .reserved
        claims := claims
        topologyGeneration := generation
        revision := saturatingAdd rec.revision 1 } ∧
      j' = { j with
        allocations := j.allocations.set id rec'
        holdings := held } := by
  unfold reserve at h
  split at h
  · cases h
  · rename_i rec hload
    split at h
    · cases h
    · rename_i hreconciled
      split at h
      · cases h
      · rename_i held htake
        cases h
        obtain ⟨hrec,hstate⟩ := load_ok hload
        simp only [not_or,not_not] at hreconciled
        exact ⟨rec,held,hrec,hstate,hreconciled.1,hreconciled.2,(takeClaims_ok htake).1,rfl,rfl⟩

theorem finish_ok {how : Finish} (h : j.finish id source how = .ok (rec',j')) :
    ∃ rec,j.allocations.get? id = some rec ∧ rec.state = source ∧
      source.canTransitionTo (finished how) = true ∧
      rec'.id = rec.id ∧ rec'.request = rec.request ∧ rec'.secrecy = rec.secrecy ∧
      rec'.claims = rec.claims ∧ rec'.state = finished how ∧
      j'.allocations = j.allocations.set id rec' ∧
      j'.holdings = (j.holdings.filter fun h => h.allocation ≠ id) ∧
      j'.topology = j.topology ∧
      j'.quarantined = match how with
        | .released => j.quarantined
        | .quarantined devices reason =>
          devices.foldl (fun q d => q.set d reason) j.quarantined := by
  unfold finish at h
  split at h
  · cases h
  · rename_i hlegal
    split at h
    · cases h
    · rename_i rec hload
      cases h
      obtain ⟨hrec,hstate⟩ := load_ok hload
      refine ⟨rec,hrec,hstate,by simpa using hlegal,rfl,rfl,rfl,rfl,rfl,rfl,rfl,rfl,?_⟩
      cases how <;> rfl

end

def ofAllocation (id : Text) (held : List Holding) : List Holding :=
  held.filter fun h => h.allocation = id

/-- What a call that writes can do to allocations and holdings. -/
inductive Change (j j' : Journal) : Prop
  | kept (ha : j'.allocations = j.allocations) (hh : j'.holdings = j.holdings)
  | created (id : Text) (request : GpuRequest) (secrecy : Bool)
    (hnone : j.allocations.get? id = none)
    (ha : j'.allocations = j.allocations.set id (.new id request secrecy))
    (hh : j'.holdings = j.holdings)
  | updated (id : Text) (rec rec' : AllocationRecord) (hrec : j.allocations.get? id = some rec)
    (ha : j'.allocations = j.allocations.set id rec') (hh : j'.holdings = j.holdings)
    (hid : rec'.id = rec.id) (hclaims : rec'.claims = rec.claims)
    (hholding : rec'.holding = rec.holding)
    (hopen : rec'.state.isTerminal = rec.state.isTerminal)
    (hearly : rec'.state = .requested ∨ rec'.state = .admitted →
      rec.state = .requested ∨ rec.state = .admitted)
  | reserved (id : Text) (rec rec' : AllocationRecord) (hrec : j.allocations.get? id = some rec)
    (hstate : rec.state = .admitted) (ha : j'.allocations = j.allocations.set id rec')
    (deviceMemory : List (Text × Nat))
    (took : Took j rec deviceMemory rec'.claims j.holdings j'.holdings)
    (hid : rec'.id = rec.id) (hholding : rec'.holding = rec.holding)
    (hreserved : rec'.state = .reserved)
  | finished (id : Text) (rec rec' : AllocationRecord) (hrec : j.allocations.get? id = some rec)
    (ha : j'.allocations = j.allocations.set id rec')
    (hh : j'.holdings = j.holdings.filter fun h => h.allocation ≠ id)
    (hid : rec'.id = rec.id) (hclosed : rec'.state.isTerminal = true)

section
variable {j j' : Journal} {id : Text} {source target : AllocationState} {rec' : AllocationRecord}

theorem create_change {request : GpuRequest} {secrecy : Bool}
    (h : j.create (.new id request secrecy) = .ok j') : Change j j' := by
  unfold create at h
  split at h
  · cases h
  · rename_i hnone
    cases h
    refine .created id request secrecy ?_ rfl rfl
    simpa [OrdMap.contains,AllocationRecord.new] using hnone

theorem early_of_transition {source target : AllocationState}
    (h : source.canTransitionTo target = true) (ht : target = .requested ∨ target = .admitted) :
    source = .requested ∨ source = .admitted := by
  rcases ht with rfl | rfl <;> cases source <;> simp_all [AllocationState.canTransitionTo]

theorem open_of_transition {source target : AllocationState}
    (h : source.canTransitionTo target = true) : source.isTerminal = false := by
  cases source <;> simp_all [AllocationState.canTransitionTo,AllocationState.isTerminal]

theorem transition_change {reason : Option Text}
    (h : j.transition id source target reason = .ok (rec',j')) : Change j j' := by
  obtain ⟨rec,hrec,hstate,hlegal,hne,hopen,rfl,rfl⟩ := transition_ok h
  refine .updated id rec _ hrec rfl rfl rfl rfl rfl ?_ ?_
  · subst hstate
    exact hopen.trans (open_of_transition hlegal).symm
  · intro hearly
    subst hstate
    exact early_of_transition hlegal hearly

theorem reserve_change {claims : List DeviceClaim} {deviceMemory : List (Text × Nat)}
    {generation : Nat} (h : j.reserve id claims deviceMemory generation = .ok (rec',j')) :
    Change j j' := by
  obtain ⟨rec,held,hrec,hstate,_,_,took,rfl,rfl⟩ := reserve_ok h
  exact .reserved id rec _ hrec hstate rfl deviceMemory took rfl rfl rfl

theorem finished_terminal (how : Finish) : (finished how).isTerminal = true := by
  cases how <;> rfl

theorem finish_change {how : Finish} (h : j.finish id source how = .ok (rec',j')) :
    Change j j' := by
  obtain ⟨rec,hrec,_,_,hid,_,_,_,hstate,ha,hh,_,_⟩ := finish_ok h
  exact .finished id rec rec' hrec ha hh hid (by rw [hstate]; exact finished_terminal how)

theorem heartbeat_change {nowMs : Nat} (h : j.heartbeat id nowMs = .ok j') : Change j j' := by
  unfold heartbeat at h
  split at h
  · cases h
  · rename_i rec hrec
    cases h
    exact .updated id rec _ hrec rfl rfl rfl rfl rfl rfl fun hearly => hearly

theorem clearQuarantine_change {device maintenanceRef : Text}
    (h : j.clearQuarantine device maintenanceRef = .ok j') : Change j j' := by
  unfold clearQuarantine at h
  split at h
  · cases h
  · cases h
    exact .kept rfl rfl

theorem recordTopology_change (j : Journal) (fingerprint : Text) :
    Change j (j.recordTopology fingerprint).2 := by
  unfold recordTopology
  dsimp only
  split
  · exact .kept rfl rfl
  · exact .kept rfl rfl

theorem markReconciled_change (j : Journal) (generation : Nat) :
    Change j (j.markReconciled generation) := by
  unfold markReconciled
  split
  · exact .kept rfl rfl
  · exact .kept rfl rfl

theorem keep_change {α : Type} {r : Except JournalError (α × Journal)}
    (h : ∀ a j',r = .ok (a,j') → Change j j') : Change j (keep j r) := by
  match r,h with
  | .ok (a,j'),h => exact h a j' rfl
  | .error _,_ => exact .kept rfl rfl

theorem keep_map_change {r : Except JournalError Journal} (h : ∀ j',r = .ok j' → Change j j') :
    Change j (keep j (r.map fun j' => ((),j'))) := by
  match r,h with
  | .ok j',h => exact h j' rfl
  | .error _,_ => exact .kept rfl rfl

theorem call_change (j : Journal) (call : JournalCall) : Change j (j.call call) := by
  cases call with
  | create id request secrecy => exact keep_map_change fun _ h => create_change h
  | transition id source target reason => exact keep_change fun _ _ h => transition_change h
  | reserve id claims deviceMemory generation => exact keep_change fun _ _ h => reserve_change h
  | finish id source how => exact keep_change fun _ _ h => finish_change h
  | heartbeat id nowMs => exact keep_map_change fun _ h => heartbeat_change h
  | clearQuarantine device maintenanceRef =>
    exact keep_map_change fun _ h => clearQuarantine_change h
  | recordTopology fingerprint => exact recordTopology_change j fingerprint
  | markReconciled generation => exact markReconciled_change j generation

end

/-- What an allocation owns: a holding for every claim as long as it is open. -/
def owned (rec : AllocationRecord) : List Holding :=
  if rec.state.isTerminal then [] else rec.claims.map rec.holding

/-- Every holding is accounted for, and the devices are as they should be. -/
structure Accounted (j : Journal) : Prop where
  keyed : ∀ id rec,j.allocations.get? id = some rec → rec.id = id
  unreserved : ∀ id rec,j.allocations.get? id = some rec →
    rec.state = .requested ∨ rec.state = .admitted → rec.claims = []
  owns : ∀ id rec,j.allocations.get? id = some rec →
    (ofAllocation id j.holdings).Perm (owned rec)
  known : ∀ h ∈ j.holdings,(j.allocations.get? h.allocation).isSome
  apart : ∀ d,Apart (onDevice d j.holdings)

theorem Accounted.new : Accounted .new where
  keyed := fun id rec h => by simp [Journal.new] at h
  unreserved := fun id rec h => by simp [Journal.new] at h
  owns := fun id rec h => by simp [Journal.new] at h
  known := by simp [Journal.new]
  apart := fun d => Apart.nil

theorem ofAllocation_eq_nil {j : Journal} (hj : Accounted j) {id : Text}
    (h : j.allocations.get? id = none) : ofAllocation id j.holdings = [] := by
  refine List.filter_eq_nil_iff.mpr fun x hx he => ?_
  have hknown := hj.known x hx
  rw [of_decide_eq_true he,h] at hknown
  cases hknown

theorem get?_set_cases {m : OrdMap Text AllocationRecord} {id k : Text}
    {rec' rec : AllocationRecord} (h : (m.set id rec').get? k = some rec) :
    k = id ∧ rec = rec' ∨ k ≠ id ∧ m.get? k = some rec := by
  rw [OrdMap.get?_set] at h
  split at h
  · rename_i hk
    exact .inl ⟨hk,(Option.some.inj h).symm⟩
  · rename_i hk
    exact .inr ⟨hk,h⟩

/-- Records may change as long as what they say of ownership and of the way there stays. -/
theorem Accounted.record {j j' : Journal} (hj : Accounted j) {id : Text} {rec' : AllocationRecord}
    (ha : j'.allocations = j.allocations.set id rec') (hh : j'.holdings = j.holdings)
    (hid : rec'.id = id)
    (hearly : rec'.state = .requested ∨ rec'.state = .admitted → rec'.claims = [])
    (howns : (ofAllocation id j.holdings).Perm (owned rec')) : Accounted j' where
  keyed := by
    intro k rec h
    rw [ha] at h
    rcases get?_set_cases h with ⟨rfl,rfl⟩ | ⟨_,h⟩
    · exact hid
    · exact hj.keyed k rec h
  unreserved := by
    intro k rec h hs
    rw [ha] at h
    rcases get?_set_cases h with ⟨rfl,rfl⟩ | ⟨_,h⟩
    · exact hearly hs
    · exact hj.unreserved k rec h hs
  owns := by
    intro k rec h
    rw [ha] at h
    rw [hh]
    rcases get?_set_cases h with ⟨rfl,rfl⟩ | ⟨_,h⟩
    · exact howns
    · exact hj.owns k rec h
  known := by
    intro x hx
    rw [hh] at hx
    rw [ha,OrdMap.get?_set]
    split
    · rfl
    · exact hj.known x hx
  apart := by
    rw [hh]
    exact hj.apart

theorem ofAllocation_took {j : Journal} {rec : AllocationRecord} {deviceMemory : List (Text × Nat)}
    {claims : List DeviceClaim} {held out : List Holding}
    (took : Took j rec deviceMemory claims held out) (id : Text) :
    (ofAllocation id out).Perm
      ((if rec.id = id then claims.map rec.holding else []) ++ ofAllocation id held) := by
  refine (took.perm.filter _).trans ?_
  rw [List.filter_append]
  refine .append_right _ (.of_eq ?_)
  split
  · rename_i hid
    refine List.filter_eq_self.mpr fun x hx => ?_
    obtain ⟨c,_,rfl⟩ := List.mem_map.mp hx
    exact decide_eq_true hid
  · rename_i hid
    refine List.filter_eq_nil_iff.mpr fun x hx => ?_
    obtain ⟨c,_,rfl⟩ := List.mem_map.mp hx
    exact fun he => hid (of_decide_eq_true he)

theorem Accounted.change {j j' : Journal} (hj : Accounted j) (h : Change j j') :
    Accounted j' := by
  cases h with
  | kept ha hh =>
    refine ⟨?_,?_,?_,?_,?_⟩
    · rw [ha]; exact hj.keyed
    · rw [ha]; exact hj.unreserved
    · rw [ha,hh]; exact hj.owns
    · rw [ha,hh]; exact hj.known
    · rw [hh]; exact hj.apart
  | created id request secrecy hnone ha hh =>
    refine hj.record ha hh rfl (fun _ => rfl) ?_
    rw [ofAllocation_eq_nil hj hnone]
    exact .refl _
  | updated id rec rec' hrec ha hh hid hclaims hholding hopen hearly =>
    refine hj.record ha hh (hid.trans (hj.keyed id rec hrec)) ?_ ?_
    · intro hs
      exact hclaims.trans (hj.unreserved id rec hrec (hearly hs))
    · have heq : owned rec' = owned rec := by
        unfold owned
        rw [hopen,hclaims,hholding]
      rw [heq]
      exact hj.owns id rec hrec
  | reserved id rec rec' hrec hstate ha deviceMemory took hid hholding hreserved =>
    have hkey : rec.id = id := hj.keyed id rec hrec
    have hnone : ofAllocation id j.holdings = [] := by
      have hown := hj.owns id rec hrec
      unfold owned at hown
      rw [hj.unreserved id rec hrec (.inr hstate)] at hown
      simpa using hown
    refine ⟨?_,?_,?_,?_,took.apart hj.apart⟩
    · intro k x h
      rw [ha] at h
      rcases get?_set_cases h with ⟨rfl,rfl⟩ | ⟨_,h⟩
      · exact hid.trans hkey
      · exact hj.keyed k x h
    · intro k x h hs
      rw [ha] at h
      rcases get?_set_cases h with ⟨rfl,rfl⟩ | ⟨_,h⟩
      · rw [hreserved] at hs
        rcases hs with hs | hs <;> cases hs
      · exact hj.unreserved k x h hs
    · intro k x h
      rw [ha] at h
      refine (ofAllocation_took took k).trans ?_
      rcases get?_set_cases h with ⟨rfl,rfl⟩ | ⟨hne,h⟩
      · rw [if_pos hkey,hnone,List.append_nil]
        unfold owned
        rw [hreserved,hholding]
        exact .refl _
      · rw [if_neg (fun he => hne (he.symm.trans hkey)),List.nil_append]
        exact hj.owns k x h
    · intro x hx
      rw [ha,OrdMap.get?_set]
      split
      · rfl
      · rename_i hne
        rcases List.mem_append.mp (took.perm.mem_iff.mp hx) with hx | hx
        · obtain ⟨c,_,rfl⟩ := List.mem_map.mp hx
          exact absurd hkey hne
        · exact hj.known x hx
  | finished id rec rec' hrec ha hh hid hclosed =>
    refine ⟨?_,?_,?_,?_,?_⟩
    · intro k x h
      rw [ha] at h
      rcases get?_set_cases h with ⟨rfl,rfl⟩ | ⟨_,h⟩
      · exact hid.trans (hj.keyed k rec hrec)
      · exact hj.keyed k x h
    · intro k x h hs
      rw [ha] at h
      rcases get?_set_cases h with ⟨rfl,rfl⟩ | ⟨_,h⟩
      · rcases hs with hs | hs <;> rw [hs] at hclosed <;> cases hclosed
      · exact hj.unreserved k x h hs
    · intro k x h
      rw [ha] at h
      rw [hh]
      rcases get?_set_cases h with ⟨rfl,rfl⟩ | ⟨hne,h⟩
      · unfold owned
        rw [if_pos hclosed]
        refine .of_eq (List.filter_eq_nil_iff.mpr fun y hy he => ?_)
        exact of_decide_eq_true (List.mem_filter.mp hy).2 (of_decide_eq_true he)
      · have heq : ofAllocation k (j.holdings.filter fun h => h.allocation ≠ id) =
            ofAllocation k j.holdings := by
          unfold ofAllocation
          rw [List.filter_filter]
          refine List.filter_congr fun y _ => ?_
          by_cases hy : y.allocation = k
          · simp [hy,hne]
          · simp [hy]
        rw [heq]
        exact hj.owns k x h
    · intro x hx
      rw [hh] at hx
      rw [ha,OrdMap.get?_set]
      split
      · rfl
      · exact hj.known x (List.mem_filter.mp hx).1
    · intro d
      rw [hh]
      exact (hj.apart d).sublist (List.filter_sublist.filter _)

end Journal

/-- A reservation is told the memory the devices always have. -/
def JournalCall.Steady (memory : Text → Nat) : JournalCall → Prop
  | .reserve _ _ deviceMemory _ => ∀ e ∈ deviceMemory,e.2 = memory e.1
  | _ => True

/-- A sharer's budget and those on the device add up without reaching the end of the
numbers, unless the memory stays below it. -/
def Countable (memory : Text → Nat) (j : Journal) : JournalCall → Prop
  | .reserve id claims _ _ => ∀ rec,j.allocations.get? id = some rec →
    rec.request.policy.kind = .cooperative → ∀ c ∈ claims,
      memory c.device < 2 ^ 64 - 1 ∨
        budget (Journal.onDevice c.device j.holdings) + c.memoryMib < 2 ^ 64
  | _ => True

namespace Journal

/-- The sharers of every device have the memory they need. -/
def Fits (memory : Text → Nat) (held : List Holding) : Prop :=
  ∀ d,budget (onDevice d held) ≤ memory d

theorem mem_of_lookup {l : List (Text × Nat)} {k : Text} {v : Nat} (h : l.lookup k = some v) :
    (k,v) ∈ l := by
  induction l with
  | nil => cases h
  | cons e l ih =>
    rw [List.lookup_cons] at h
    by_cases hk : k == e.1
    · rw [hk] at h
      have he : e = (k,v) := Prod.ext (eq_of_beq hk).symm (Option.some.inj h)
      exact he ▸ List.mem_cons_self
    · rw [Bool.not_eq_true] at hk
      rw [hk] at h
      exact List.mem_cons_of_mem _ (ih h)

theorem Fits.took {memory : Text → Nat} {j : Journal} {rec : AllocationRecord}
    {deviceMemory : List (Text × Nat)} {claims : List DeviceClaim} {held out : List Holding}
    (hf : Fits memory held) (took : Took j rec deviceMemory claims held out)
    (hsteady : ∀ e ∈ deviceMemory,e.2 = memory e.1)
    (hcount : rec.request.policy.kind = .cooperative → ∀ c ∈ claims,
      memory c.device < 2 ^ 64 - 1 ∨ budget (onDevice c.device held) + c.memoryMib < 2 ^ 64) :
    Fits memory out := by
  intro d
  by_cases hd : d ∈ claims.map DeviceClaim.device
  · obtain ⟨c,hc,rfl⟩ := List.mem_map.mp hd
    obtain ⟨_,total,htotal,hadmitted⟩ := took.admitted c hc
    have hmemory : total = memory c.device := hsteady (c.device,total) (mem_of_lookup htotal)
    rw [hmemory] at hadmitted
    rw [budget_perm (took.claimed c hc)]
    exact hadmitted.budget_le (hf c.device) fun hcoop => hcount hcoop c hc
  · rw [took.elsewhere d hd]
    exact hf d

theorem Fits.sublist {memory : Text → Nat} {held held' : List Holding} (hf : Fits memory held)
    (hs : held'.Sublist held) : Fits memory held' := fun d =>
  (budget_sublist (hs.filter _)).trans (hf d)

theorem keep_fits {memory : Text → Nat} {j : Journal} (hf : Fits memory j.holdings) {α : Type}
    {r : Except JournalError (α × Journal)}
    (h : ∀ a j',r = .ok (a,j') → Fits memory j'.holdings) : Fits memory (keep j r).holdings := by
  match r,h with
  | .ok (a,j'),h => exact h a j' rfl
  | .error _,_ => exact hf

/-- Every call keeps the sharers within the memory, a reservation where the count holds. -/
theorem Fits.call {memory : Text → Nat} {j : Journal} (hf : Fits memory j.holdings)
    {call : JournalCall} (hsteady : call.Steady memory) (hcount : Countable memory j call) :
    Fits memory (j.call call).holdings := by
  cases call with
  | create id request secrecy =>
    refine keep_fits hf fun _ j' h => ?_
    simp only [create] at h
    split at h <;> cases h
    exact hf
  | transition id source target reason =>
    refine keep_fits hf fun _ j' h => ?_
    obtain ⟨_,_,_,_,_,_,_,rfl⟩ := transition_ok h
    exact hf
  | reserve id claims deviceMemory generation =>
    refine keep_fits hf fun _ j' h => ?_
    obtain ⟨rec,held,hrec,_,_,_,took,_,rfl⟩ := reserve_ok h
    exact hf.took took hsteady (hcount rec hrec)
  | finish id source how =>
    refine keep_fits hf fun _ j' h => ?_
    obtain ⟨_,_,_,_,_,_,_,_,_,_,hh,_,_⟩ := finish_ok h
    rw [hh]
    exact hf.sublist List.filter_sublist
  | heartbeat id nowMs =>
    refine keep_fits hf fun _ j' h => ?_
    simp only [heartbeat] at h
    split at h <;> cases h
    exact hf
  | clearQuarantine device maintenanceRef =>
    refine keep_fits hf fun _ j' h => ?_
    simp only [clearQuarantine] at h
    split at h <;> cases h
    exact hf
  | recordTopology fingerprint =>
    simp only [Journal.call,recordTopology]
    split <;> exact hf
  | markReconciled generation =>
    simp only [Journal.call,markReconciled]
    split <;> exact hf

/-- An allocation owns holdings for its claims, or nothing, as its state says. -/
structure Owns (j : Journal) (id : Text) (rec : AllocationRecord) : Prop where
  not_yet : rec.state = .requested ∨ rec.state = .admitted → ofAllocation id j.holdings = []
  exactly : rec.state = .reserved ∨ rec.state = .attached ∨ rec.state = .running ∨
    rec.state = .draining ∨ rec.state = .failed →
      (ofAllocation id j.holdings).Perm (rec.claims.map rec.holding)
  no_more : rec.state = .released ∨ rec.state = .quarantined → ofAllocation id j.holdings = []

theorem Accounted.holds {j : Journal} (hj : Accounted j) {id : Text} {rec : AllocationRecord}
    (hrec : j.allocations.get? id = some rec) : Owns j id rec where
  not_yet := by
    intro hs
    have hown := hj.owns id rec hrec
    unfold owned at hown
    rw [hj.unreserved id rec hrec hs] at hown
    simpa using hown
  exactly := by
    intro hs
    have hown := hj.owns id rec hrec
    have hopen : rec.state.isTerminal = false := by
      rcases hs with hs | hs | hs | hs | hs <;> rw [hs] <;> rfl
    unfold owned at hown
    rwa [hopen] at hown
  no_more := by
    intro hs
    have hown := hj.owns id rec hrec
    have hclosed : rec.state.isTerminal = true := by
      rcases hs with hs | hs <;> rw [hs] <;> rfl
    unfold owned at hown
    rw [if_pos hclosed] at hown
    simpa using hown

end Journal

/-- In every run of the journal with constant device memory, where no count of a
device's sharers reaches the end of the numbers, the holdings of each device are
compatible, every holding belongs to a known allocation and each allocation owns
what its state says. -/
theorem holdings_compatible (memory : Text → Nat) (calls : List JournalCall)
    (hsteady : ∀ call ∈ calls,call.Steady memory)
    (hcount : Along Journal.call (Countable memory) .new calls) :
    (∀ d,Compatible (memory d) (Journal.onDevice d (run Journal.call .new calls).holdings)) ∧
    (∀ h ∈ (run Journal.call .new calls).holdings,
      ((run Journal.call .new calls).allocations.get? h.allocation).isSome) ∧
    ∀ id rec,(run Journal.call .new calls).allocations.get? id = some rec →
      Journal.Owns (run Journal.call .new calls) id rec := by
  have haccounted : Journal.Accounted (run Journal.call .new calls) :=
    run_invariant (fun j call hj => hj.change (Journal.call_change j call)) Journal.Accounted.new
      calls
  have hfits : Journal.Fits memory (run Journal.call .new calls).holdings := by
    have hsteps : Along Journal.call
        (fun j call => Countable memory j call ∧ call.Steady memory) .new calls := by
      refine along_iff.mpr fun before call after heq => ⟨along_iff.mp hcount _ _ _ heq,?_⟩
      exact hsteady call (by rw [heq]; simp)
    exact hsteps.invariant (I := fun j => Journal.Fits memory j.holdings)
      (fun j call hf hc => hf.call hc.2 hc.1) fun d => Nat.zero_le _
  exact ⟨fun d => (haccounted.apart d).compatible (hfits d),haccounted.known,
    fun id rec hrec => haccounted.holds hrec⟩

/-- A request to share a device within a domain. -/
def shareRequest (app : Text) : GpuRequest :=
  ⟨app,.nvidiaCuda,1,1,[],.cooperative ['t'] ['c'],.gvisorNvproxy,.any⟩

/-- Two sharers of the device `d`, with these budgets. -/
def twoSharers (memory first second : Nat) : List JournalCall :=
  [.recordTopology ['f'],
    .create ['a'] (shareRequest ['p']) false,.transition ['a'] .requested .admitted none,
    .create ['b'] (shareRequest ['q']) false,.transition ['b'] .requested .admitted none,
    .reserve ['a'] [⟨['d'],none,first,['d']⟩] [(['d'],memory)] 1,
    .reserve ['b'] [⟨['d'],none,second,['d']⟩] [(['d'],memory)] 1]

theorem holdings_compatible_twice :
    budget (Journal.onDevice ['d'] (run Journal.call .new (twoSharers 16 8 8)).holdings) = 16 ∧
    Compatible 16 (Journal.onDevice ['d'] (run Journal.call .new (twoSharers 16 8 8)).holdings) := by
  refine ⟨by decide +kernel,(holdings_compatible (fun _ => 16) (twoSharers 16 8 8) ?_ ?_).1 ['d']⟩
  · simp [twoSharers,JournalCall.Steady]
  · simp [twoSharers,Along,Countable]

/-- On a device with the greatest memory there is, the count of the sharers stops at
it and lets in a sharer too many. -/
theorem sharers_outgrow_the_count :
    ¬ ∀ (memory : Text → Nat) (calls : List JournalCall),
      (∀ d,memory d < 2 ^ 64) → (∀ call ∈ calls,call.Steady memory) →
      ∀ d,Compatible (memory d) (Journal.onDevice d (run Journal.call .new calls).holdings) := by
  intro h
  have hc := h (fun _ => 2 ^ 64 - 1) (twoSharers (2 ^ 64 - 1) (2 ^ 64 - 1) 1) (by simp)
    (by simp [twoSharers,JournalCall.Steady]) ['d']
  have hb : budget (Journal.onDevice ['d']
      (run Journal.call .new (twoSharers (2 ^ 64 - 1) (2 ^ 64 - 1) 1)).holdings) = 2 ^ 64 := by
    decide +kernel
  have hle := hc.within_memory
  rw [hb] at hle
  omega

end Flagship.Gpu

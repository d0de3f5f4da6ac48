import Flagship.Relay.Proofs.Steps

namespace Flagship.Relay.Proofs
open Lib Allocator

section
variable [Lowercase]

/-- The apps decision an operation carries for a pod. -/
def decision (p : Text) : Op → Option Bool
  | .addPodServing pod _ _ apps => if toLowercase pod = p then some apps else none
  | .setAppsAllowed pod allowed => if toLowercase pod = p then some allowed else none
  | _ => none

/-- The most recent apps decision of a pod in a run. -/
def lastDecision (ops : List Op) (p : Text) : Option Bool :=
  ops.foldl (fun d op => (decision p op).or d) none

theorem lastDecision_concat (ops : List Op) (op : Op) (p : Text) :
    lastDecision (ops ++ [op]) p = (decision p op).or (lastDecision ops p) := by
  simp [lastDecision]

/-- A pod holds some slot of some set. -/
def HoldsSlot (a : Allocator) (p : Text) : Prop := ∃ ks s, holderOf a.sets ks s = some p

theorem holdsSlot_iff {a : Allocator} {p : Text} :
    HoldsSlot a p ↔ ∃ e ∈ a.sets.entries, ∃ x ∈ e.2.slotHolders.entries, x.2 = p := by
  constructor
  · rintro ⟨ks,s,h⟩
    obtain ⟨set,hs,hh⟩ := holderOf_eq_some.mp h
    exact ⟨(ks,set),a.sets.mem_entries.mpr hs,(s,p),set.slotHolders.mem_entries.mpr hh,rfl⟩
  · rintro ⟨⟨ks,set⟩,hs,⟨s,q⟩,hh,rfl⟩
    exact ⟨ks,s,holderOf_eq_some.mpr ⟨set,a.sets.mem_entries.mp hs,set.slotHolders.mem_entries.mp hh⟩⟩

instance (a : Allocator) (p : Text) : Decidable (HoldsSlot a p) :=
  decidable_of_iff _ holdsSlot_iff.symm

/-- The pod holds slots only in the sets of a list. -/
def HoldsOnlyIn (a : Allocator) (p : Text) (keys : List Text) : Prop :=
  ∀ ks s, holderOf a.sets ks s = some p → ks ∈ keys

theorem holdsOnlyIn_iff {a : Allocator} {p : Text} {keys : List Text} :
    HoldsOnlyIn a p keys ↔
      ∀ e ∈ a.sets.entries, ∀ x ∈ e.2.slotHolders.entries, x.2 = p → e.1 ∈ keys := by
  constructor
  · rintro h ⟨ks,set⟩ hs ⟨s,q⟩ hh rfl
    exact h ks s (holderOf_eq_some.mpr
      ⟨set,a.sets.mem_entries.mp hs,set.slotHolders.mem_entries.mp hh⟩)
  · intro h ks s hp
    obtain ⟨set,hs,hh⟩ := holderOf_eq_some.mp hp
    exact h (ks,set) (a.sets.mem_entries.mpr hs) (s,p) (set.slotHolders.mem_entries.mpr hh) rfl

instance (a : Allocator) (p : Text) (keys : List Text) : Decidable (HoldsOnlyIn a p keys) :=
  decidable_of_iff _ holdsOnlyIn_iff.symm

/-- What a stopped pod must not do after a run: hold a slot, be found under a
name that is not its own, inherit a slot another pod gives up. -/
def StoppedServeNothing (a : Allocator) (ops : List Op) : Prop :=
  ∀ p, Registered a p → lastDecision ops p = some false →
    ¬ HoldsSlot a p ∧ (∀ f, a.findHolder f = some p → toLowercase f = p) ∧
      ∀ op, ∀ r ∈ a.redistributed op, r.heir ≠ some p

/-- A registration without apps is of a pod that holds no slot, and a pod that
is stopped holds slots only in the sets its record lists. -/
def StopsClean (a : Allocator) : Op → Prop
  | .addPodServing pod _ _ apps => apps = false → ¬ HoldsSlot a (toLowercase pod)
  | .setAppsAllowed pod allowed => allowed = false → toLowercase pod ∉ a.appsStopped →
    ∀ e ∈ a.pods.get? (toLowercase pod), HoldsOnlyIn a (toLowercase pod) e.setKeys.keys
  | _ => True

instance (a : Allocator) (op : Op) : Decidable (StopsClean a op) :=
  match op with
  | .addPodServing .. => by dsimp only [StopsClean]; infer_instance
  | .requestTransfer .. => by dsimp only [StopsClean]; infer_instance
  | .setAppsAllowed .. => by dsimp only [StopsClean]; infer_instance
  | .removePod .. => by dsimp only [StopsClean]; infer_instance

/-- The stopped flag of a registered pod is its most recent decision. -/
def FlagTracks (a : Allocator) (ops : List Op) : Prop :=
  ∀ p, Registered a p → (p ∈ a.appsStopped ↔ lastDecision ops p = some false)

theorem step_flagTracks {a : Allocator} {ops : List Op} (h : FlagTracks a ops) (op : Op) :
    FlagTracks (step a op) (ops ++ [op]) := by
  intro p hp
  rw [lastDecision_concat]
  cases op with
  | addPodServing pod canonicals nowMs apps =>
    have ha := addPodServing_added a pod canonicals nowMs apps
    by_cases hpc : p = toLowercase pod
    · subst hpc
      rw [step,ha.stopped]
      cases apps <;> simp [decision,stopFlag]
    · have hreg : Registered a p := by
        rw [registered_iff] at hp ⊢
        exact (ha.others p hpc) ▸ hp
      rw [step,ha.stopped,decision,if_neg (Ne.symm hpc),Option.none_or,← h p hreg]
      cases apps <;> simp [stopFlag,hpc]
  | requestTransfer pod fqdn =>
    simp only [decision,Option.none_or]
    rcases requestTransfer_cases a pod fqdn with ⟨hs,_⟩ | ⟨ks,own,ht,_⟩
    · rw [step,hs] at hp ⊢
      exact h p hp
    · rw [step,ht.stopped]
      apply h
      rw [registered_iff] at hp ⊢
      by_cases hpc : p = toLowercase pod
      · obtain ⟨e,_,he,_⟩ := ht.record
        exact ⟨e,hpc ▸ he⟩
      · exact (ht.others p hpc) ▸ hp
  | setAppsAllowed pod allowed =>
    rcases setAppsAllowed_cases a pod allowed with ⟨hs,_,hsame⟩ | ⟨rfl,e,hr⟩ | ⟨rfl,e,hr⟩
    · rw [step,hs] at hp ⊢
      by_cases hpc : p = toLowercase pod
      · subst hpc
        rw [hsame hp]
        simp [decision]
      · rw [decision,if_neg (Ne.symm hpc),Option.none_or]
        exact h p hp
    · have hreg : Registered a p := by
        rw [registered_iff] at hp ⊢
        simpa [step,hr.pods] using hp
      by_cases hpc : p = toLowercase pod
      · subst hpc
        simp only [step,decision,↓reduceIte,Option.some_or,iff_true]
        exact (hr.stops rfl).2
      · rw [step,hr.stopped p hpc,decision,if_neg (Ne.symm hpc),Option.none_or]
        exact h p hreg
    · have hreg : Registered a p := by
        rw [registered_iff] at hp ⊢
        simpa [step,hr.pods] using hp
      by_cases hpc : p = toLowercase pod
      · subst hpc
        simp [step,hr.stopped,decision]
      · rw [step,hr.stopped,decision,if_neg (Ne.symm hpc),Option.none_or,← h p hreg]
        simp [hpc]
  | removePod pod =>
    simp only [decision,Option.none_or]
    rcases removePod_cases a pod with ⟨hs,_⟩ | ⟨e,hr⟩
    · rw [step,hs] at hp ⊢
      exact h p hp
    · rw [registered_iff,step,hr.pods] at hp
      split at hp
      · obtain ⟨_,hp⟩ := hp
        cases hp
      · rename_i hne
        simp only [true_and] at hne
        rw [step,hr.stopped p hne]
        exact h p (registered_iff.mpr hp)

theorem run_flagTracks (apex : Text) (ops : List Op) :
    FlagTracks (run step (Allocator.new apex) ops) ops := by
  induction ops using List.reverseRecOn with
  | nil => exact fun p hp => by simp [Registered,Allocator.new] at hp
  | append_singleton ops op ih =>
    rw [run_append]
    exact step_flagTracks ih op

/-- No registered, stopped pod holds a slot. -/
def StoppedHoldNone (a : Allocator) : Prop :=
  ∀ p, Registered a p → p ∈ a.appsStopped → ¬ HoldsSlot a p

theorem step_stoppedHoldNone {a : Allocator} {op : Op} (h : StoppedHoldNone a)
    (hc : StopsClean a op) : StoppedHoldNone (step a op) := by
  rintro p hp hstop ⟨ks,s,hh⟩
  cases op with
  | addPodServing pod canonicals nowMs apps =>
    have ha := addPodServing_added a pod canonicals nowMs apps
    rw [step,ha.stopped] at hstop
    by_cases hpc : p = toLowercase pod
    · subst hpc
      cases apps with
      | true => simp [stopFlag] at hstop
      | false =>
        rcases ha.claims ks s _ hh with hh | ⟨_,hf,_⟩
        · exact hc rfl ⟨ks,s,hh⟩
        · cases hf
    · have hreg : Registered a p := by
        rw [registered_iff] at hp ⊢
        exact (ha.others p hpc) ▸ hp
      have hold : p ∈ a.appsStopped := by cases apps <;> simpa [stopFlag,hpc] using hstop
      rcases ha.claims ks s p hh with hh | ⟨hf,_⟩
      · exact h p hreg hold ⟨ks,s,hh⟩
      · exact hpc hf
  | requestTransfer pod fqdn =>
    rcases requestTransfer_cases a pod fqdn with ⟨hs,_⟩ | ⟨x,own,ht,_⟩
    · rw [step,hs] at hp hstop hh
      exact h p hp hstop ⟨ks,s,hh⟩
    · rw [step,ht.stopped] at hstop
      have hpc : p ≠ toLowercase pod := fun he => ht.serving (he ▸ hstop)
      have hreg : Registered a p := by
        rw [registered_iff] at hp ⊢
        exact (ht.others p hpc) ▸ hp
      rw [step,ht.holder] at hh
      split at hh
      · exact hpc (Option.some.inj hh).symm
      · exact h p hreg hstop ⟨ks,s,hh⟩
  | setAppsAllowed pod allowed =>
    rcases setAppsAllowed_cases a pod allowed with ⟨hs,_⟩ | ⟨rfl,e,hr⟩ | ⟨rfl,e,hr⟩
    · rw [step,hs] at hp hstop hh
      exact h p hp hstop ⟨ks,s,hh⟩
    · have hreg : Registered a p := by
        rw [registered_iff] at hp ⊢
        simpa [step,hr.pods] using hp
      obtain ⟨stopped,hset,g⟩ := hr.views
      have hmem : p ∈ stopped := by
        rw [hset]
        by_cases hpc : p = toLowercase pod
        · exact Or.inr ⟨rfl,hpc⟩
        · exact Or.inl ((hr.stopped p hpc).mp hstop)
      rcases g.holder_cases hh with ⟨hold,hne⟩ | ⟨_,_,set,_,hp⟩
      · by_cases hpc : p = toLowercase pod
        · subst hpc
          exact hne (hc rfl (hr.stops rfl).1 e hr.record ks s hold) rfl
        · exact h p hreg ((hr.stopped p hpc).mp hstop) ⟨ks,s,hold⟩
      · exact (pickHeir_mem hp).2.2 hmem
    · have hreg : Registered a p := by
        rw [registered_iff] at hp ⊢
        simpa [step,hr.pods] using hp
      rw [step,hr.stopped,Finset.mem_erase] at hstop
      rcases hr.claims ks s p hh with hh | ⟨he,_⟩
      · exact h p hreg hstop.2 ⟨ks,s,hh⟩
      · exact hstop.1 he
  | removePod pod =>
    rcases removePod_cases a pod with ⟨hs,_⟩ | ⟨e,hr⟩
    · rw [step,hs] at hp hstop hh
      exact h p hp hstop ⟨ks,s,hh⟩
    · rw [registered_iff,step,hr.pods] at hp
      split at hp
      · obtain ⟨_,hp⟩ := hp
        cases hp
      · rename_i hpc
        simp only [true_and] at hpc
        have hold := (hr.stopped p hpc).mp hstop
        obtain ⟨stopped,hset,g⟩ := hr.views
        rcases g.holder_cases hh with ⟨hh,_⟩ | ⟨_,_,set,_,hp⟩
        · exact h p (registered_iff.mpr hp) hold ⟨ks,s,hh⟩
        · exact (pickHeir_mem hp).2.2 ((hset p).mpr (Or.inl hold))

theorem new_stoppedHoldNone (apex : Text) : StoppedHoldNone (Allocator.new apex) :=
  fun p hp => by simp [Registered,Allocator.new] at hp

theorem findHolder_cases {a : Allocator} {f p : Text} (h : a.findHolder f = some p) :
    toLowercase f = p ∧ Registered a p ∨
    ¬ Registered a (toLowercase f) ∧ ∃ ks, setKeyOf a.apex (toLowercase f) = some ks ∧
      holderOf a.sets ks (toLowercase f) = some p := by
  unfold findHolder at h
  simp only at h
  split at h
  · rename_i hr
    cases h
    exact Or.inl ⟨rfl,hr⟩
  · rename_i hr
    refine Or.inr ⟨hr,?_⟩
    simp only [Option.bind_eq_bind,Option.bind_eq_some_iff] at h
    obtain ⟨key,hk,set,hs,hh⟩ := h
    exact ⟨key.encode,by rw [setKeyOf,hk]; rfl,holderOf_eq_some.mpr ⟨set,hs,hh⟩⟩

theorem redistributed_serving {a : Allocator} {op : Op} {r : Redistributed} {p : Text}
    (hr : r ∈ a.redistributed op) (hp : r.heir = some p) : p ∉ a.appsStopped := by
  obtain ⟨pc,leaving,stopped,ks,set,h⟩ := redistributed_reported hr
  rw [h.heir] at hp
  exact fun hs => (pickHeir_mem hp).2.2 ((h.stops p).mpr (Or.inl hs))

/-- A run keeps every stopped pod off every app slot, in every state it reaches,
exactly when each of its steps stops clean. -/
theorem stopped_serve_nothing_iff (apex : Text) (ops : List Op) :
    (∀ before after, ops = before ++ after →
      StoppedServeNothing (run step (Allocator.new apex) before) before) ↔
    Along step StopsClean (Allocator.new apex) ops := by
  constructor
  · intro h
    induction ops using List.reverseRecOn with
    | nil => exact trivial
    | append_singleton ops op ih =>
      have hprev := ih (fun before after he => h before (after ++ [op]) (by simp [he]))
      rw [along_append]
      refine ⟨hprev,?_,trivial⟩
      have hlast := h (ops ++ [op]) [] (by simp)
      rw [run_append] at hlast
      generalize run step (Allocator.new apex) ops = a at hlast
      simp only [run_cons,run_nil] at hlast
      -- a dirty step leaves its own pod stopped and holding
      cases op with
      | addPodServing pod canonicals nowMs apps =>
        rintro rfl ⟨ks,s,hh⟩
        have ha := addPodServing_added a pod canonicals nowMs false
        obtain ⟨e,he,_⟩ := ha.record
        refine (hlast (toLowercase pod) (registered_iff.mpr ⟨e,he⟩) ?_).1 ⟨ks,s,ha.keeps ks s _ hh⟩
        simp [lastDecision_concat,decision]
      | setAppsAllowed pod allowed =>
        rintro rfl hserving e he ks s hh
        by_contra hks
        rcases setAppsAllowed_cases a pod false with ⟨_,_,hsame⟩ | ⟨_,q,hr⟩ | ⟨hf,_⟩
        · exact hserving ((hsame (registered_iff.mpr ⟨e,he⟩)).mpr rfl)
        · obtain ⟨stopped,_,g⟩ := hr.views
          rw [hr.record] at he
          cases he
          refine (hlast (toLowercase pod) ?_ ?_).1 ⟨ks,s,?_⟩
          · rw [registered_iff,step,hr.pods]
            exact ⟨e,by simpa using hr.record⟩
          · simp [lastDecision_concat,decision]
          · exact ((views_congr (g.other ks hks)).2.1 s).trans hh
        · cases hf
      | requestTransfer | removePod => exact trivial
  · rintro h before after rfl p hp hd
    have hbefore := (along_append.mp h).1
    have hstop := (run_flagTracks apex before p hp).mpr hd
    have hnone := hbefore.invariant (fun _ _ => step_stoppedHoldNone) (new_stoppedHoldNone apex)
      p hp hstop
    refine ⟨hnone,?_,?_⟩
    · intro f hf
      rcases findHolder_cases hf with ⟨he,_⟩ | ⟨_,ks,_,hh⟩
      · exact he
      · exact absurd ⟨ks,_,hh⟩ hnone
    · exact fun op r hr he => redistributed_serving hr he hstop

end

/-- A box that is refreshed without apps while it serves one keeps the slot,
and is found under the app's name. -/
theorem refresh_without_apps_keeps_slot :
    ¬ StoppedServeNothing (run step (Allocator.new defaultApex)
      [.addPodServing homePod ["chess.home.alice.flagship.services".toList] 1 true,
        .addPodServing homePod ["chess.home.alice.flagship.services".toList] 2 false])
      [.addPodServing homePod ["chess.home.alice.flagship.services".toList] 1 true,
        .addPodServing homePod ["chess.home.alice.flagship.services".toList] 2 false] := by
  intro h
  have hfound := (h homePod (by decide +kernel) (by decide +kernel)).2.1
    "chess.alice.flagship.services".toList (by decide +kernel)
  exact absurd hfound (by decide +kernel)

section
variable [Lowercase]

/-- A registration names only the account its pod belongs to. -/
def OneAccount (a : Allocator) : Op → Prop
  | .addPodServing pod canonicals _ _ => ∀ c ∈ canonicals,
    userOf (toLowercase c) a.apex = userOf (toLowercase pod) a.apex
  | _ => True

instance (a : Allocator) (op : Op) : Decidable (OneAccount a op) :=
  match op with
  | .addPodServing .. => by dsimp only [OneAccount]; infer_instance
  | .requestTransfer .. => by dsimp only [OneAccount]; infer_instance
  | .setAppsAllowed .. => by dsimp only [OneAccount]; infer_instance
  | .removePod .. => by dsimp only [OneAccount]; infer_instance

/-- The pod belongs to the account of the set kept under `ks`. -/
def InZone (apex ks p : Text) : Prop :=
  ∃ key : SetKey, key.Plain ∧ key.encode = ks ∧ userOf p apex = some key.user

/-- A set's account is the account of any name in it. -/
theorem inZone_of_name {apex ks n p : Text} (hk : setKeyOf apex n = some ks)
    (hl : toLowercase n = n) (hu : userOf n apex = userOf p apex) : InZone apex ks p := by
  obtain ⟨key,hkey,rfl⟩ := Option.map_eq_some_iff.mp hk
  obtain ⟨hplain,huser⟩ := parseSetKey_spec hkey
  rw [hl] at huser
  exact ⟨key,hplain,rfl,hu.symm.trans huser⟩

theorem userOf_of_inZone {apex ks n p : Text} (hz : InZone apex ks p)
    (hk : setKeyOf apex n = some ks) (hl : toLowercase n = n) : userOf n apex = userOf p apex := by
  obtain ⟨key,hkey,he⟩ := Option.map_eq_some_iff.mp hk
  obtain ⟨hplain,huser⟩ := parseSetKey_spec hkey
  obtain ⟨key',hplain',rfl,hp⟩ := hz
  cases SetKey.encode_injective hplain hplain' he
  rw [hl] at huser
  exact huser.trans hp.symm

/-- Every name of a registration is lowercased and of the pod's own account. -/
theorem joinedNames_zone {a : Allocator} {pod : Text} {canonicals : List Text} {n : Text}
    (hc : ∀ c ∈ canonicals, userOf (toLowercase c) a.apex = userOf (toLowercase pod) a.apex)
    (hn : n ∈ joinedNames a.apex (toLowercase pod) canonicals) :
    toLowercase n = n ∧ userOf n a.apex = userOf (toLowercase pod) a.apex := by
  have hlisted : ∀ m ∈ (orderedNames (toLowercase pod) canonicals).keys,
      toLowercase m = m ∧ userOf m a.apex = userOf (toLowercase pod) a.apex := by
    intro m hm
    rcases mem_orderedNames.mp hm with rfl | ⟨c,hmem,rfl,_⟩
    · exact ⟨toLowercase_idem pod,rfl⟩
    · exact ⟨toLowercase_idem c,hc c hmem⟩
  rcases List.mem_append.mp hn with hn | hn
  · exact hlisted n hn
  · obtain ⟨m,hm,hd⟩ := mem_derivableNames.mp hn
    obtain ⟨hl,hu⟩ := hlisted m hm
    refine ⟨derivableShorteneds_lower a.apexLower hd,?_⟩
    rw [derivableShorteneds_user hd,hl,hu]

/-- Every set holds pods of its own account only, and every pod's record lists
names of the pod's own account only. -/
structure Zoned (a : Allocator) : Prop where
  member : ∀ ks p, memberOf a.sets ks p → InZone a.apex ks p
  queue : ∀ ks s p, p ∈ queueOf a.sets ks s → InZone a.apex ks p
  holder : ∀ ks s h, holderOf a.sets ks s = some h → InZone a.apex ks h
  names : ∀ p e, a.pods.get? p = some e → ∀ f, f ∈ e.canonicals ∨ f ∈ e.derivable →
    userOf f a.apex = userOf p a.apex

theorem new_zoned (apex : Text) : Zoned (Allocator.new apex) := by
  constructor <;> simp [Allocator.new,memberOf,holderOf,queueOf]

/-- Whatever a call entitles a pod to lies in the pod's own account. -/
theorem Zoned.earns {a : Allocator} (z : Zoned a) {op : Op} (hc : OneAccount a op) {p n : Text}
    (h : Earns a p n op) : toLowercase n = n ∧ userOf n a.apex = userOf p a.apex := by
  cases op with
  | addPodServing pod canonicals nowMs apps =>
    obtain ⟨rfl,hn⟩ := h
    exact joinedNames_zone hc hn
  | requestTransfer pod fqdn =>
    obtain ⟨rfl,rfl,r,hok⟩ := h
    refine ⟨toLowercase_idem fqdn,?_⟩
    rcases requestTransfer_cases a pod fqdn with ⟨_,err,he⟩ | ⟨ks,own,ht,_⟩
    · rw [hok] at he
      cases he
    · cases own with
      | true => exact (ht.zone rfl).2.symm
      | false =>
        obtain ⟨e,_,he,_,_,_,_,hnames⟩ := ht.record
        exact z.names _ e he _ (hnames rfl)
  | setAppsAllowed | removePod => cases h

theorem step_zoned {a : Allocator} {op : Op} (z : Zoned a) (hc : OneAccount a op) :
    Zoned (step a op) := by
  have hnew : ∀ {ks n p}, Earns a p n op → setKeyOf a.apex n = some ks → InZone a.apex ks p :=
    fun he hk => inZone_of_name hk (z.earns hc he).1 (z.earns hc he).2
  constructor
  · intro ks p hm
    rw [step_apex]
    rcases step_member hm with hm | ⟨n,he,hk⟩
    · exact z.member ks p hm
    · exact hnew he hk
  · intro ks s p hq
    rw [step_apex]
    rcases step_queue hq with hq | ⟨he,hk⟩
    · exact z.queue ks s p hq
    · exact hnew he hk
  · intro ks s h hh
    rw [step_apex]
    cases step_holder hh with
    | kept hold => exact z.holder ks s h hold
    | claimed earns key own free => exact hnew earns key
    | granted pod fqdn call earns own moved => exact hnew earns moved.key
    | inherited pc leaving e stopped set call gave listed stops found held heir =>
      -- the fallback may pick any member, and every member is of the account
      exact z.member ks h ((memberOf_of_get found).mpr (mem_heirSet (pickHeir_mem heir).1).1)
    | resumed pc e set call who record was listed found free =>
      apply z.queue ks s h
      rw [queueOf_of_get found]
      exact (mem_freeSlots free).2.2
  · intro p e he f hf
    rw [step_apex]
    rcases step_record he with ⟨e',he',hsub⟩ | ⟨pod,cs,now,apps,rfl,hearn⟩
    · exact z.names p e' he' f (hsub f hf)
    · exact (z.earns hc (hearn f hf)).2

/-- When every registration names its own account only, whoever is found under
a name belongs to the name's account, in every state of the run. -/
theorem accounts_isolated (apex : Text) (ops : List Op)
    (hc : Along step OneAccount (Allocator.new apex) ops) (f p : Text)
    (hf : (run step (Allocator.new apex) ops).findHolder f = some p) :
    userOf (toLowercase f) (toLowercase apex) = userOf p (toLowercase apex) := by
  have z := hc.invariant (fun _ _ => step_zoned) (new_zoned apex)
  rcases findHolder_cases hf with ⟨rfl,_⟩ | ⟨_,ks,hk,hh⟩
  · rfl
  · rw [← run_apex apex ops]
    exact userOf_of_inZone (z.holder ks _ p hh) hk (toLowercase_idem f)

end

/-- The cabin inherits the home box's app name, within one account. -/
theorem accounts_isolated_heir :
    (run step (Allocator.new defaultApex)
      [.addPodServing homePod ["chess.home.alice.flagship.services".toList] 1 true,
        .addPodServing cabinPod ["chess.cabin.alice.flagship.services".toList] 2 true,
        .removePod homePod]).findHolder "Chess.alice.flagship.services".toList = some cabinPod ∧
    userOf (toLowercase "Chess.alice.flagship.services".toList) (toLowercase defaultApex) =
      userOf cabinPod (toLowercase defaultApex) := by
  have hfound : (run step (Allocator.new defaultApex)
      [.addPodServing homePod ["chess.home.alice.flagship.services".toList] 1 true,
        .addPodServing cabinPod ["chess.cabin.alice.flagship.services".toList] 2 true,
        .removePod homePod]).findHolder "Chess.alice.flagship.services".toList = some cabinPod := by
    decide +kernel
  exact ⟨hfound,accounts_isolated defaultApex _ (by decide +kernel) _ _ hfound⟩

end Flagship.Relay.Proofs

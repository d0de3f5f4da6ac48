import Flagship.Relay.Proofs.Operations

namespace Flagship.Relay.Proofs
open Lib Allocator

section
variable [Lowercase]

/-- Every recorded holder is a registered pod and a member of the slot's set. -/
def HoldersLive (a : Allocator) : Prop :=
  ∀ ks s h, holderOf a.sets ks s = some h → Registered a h ∧ memberOf a.sets ks h

/-- Some set's members, slot holders or candidate queues name the pod. -/
def Mentions (a : Allocator) (p : Text) : Prop :=
  ∃ ks, memberOf a.sets ks p ∨ ∃ s, holderOf a.sets ks s = some p ∨ p ∈ queueOf a.sets ks s

/-- The call adds this pod. -/
def AddsPod (p : Text) : Op → Prop
  | .addPodServing pod _ _ _ => toLowercase pod = toLowercase p
  | _ => False

/-- A refresh of a registered pod lists, or derives, a name in every set the
pod's record lists. Nothing is asked of any other call. -/
def KeepsSets (a : Allocator) : Op → Prop
  | .addPodServing pod canonicals _ _ => ∀ e ∈ a.pods.get? (toLowercase pod),
    ∀ ks ∈ e.setKeys.keys, ∃ n ∈ joinedNames a.apex (toLowercase pod) canonicals,
      setKeyOf a.apex n = some ks
  | _ => True

instance (a : Allocator) (op : Op) : Decidable (KeepsSets a op) :=
  match op with
  | .addPodServing .. => by dsimp only [KeepsSets]; infer_instance
  | .requestTransfer .. => by dsimp only [KeepsSets]; infer_instance
  | .setAppsAllowed .. => by dsimp only [KeepsSets]; infer_instance
  | .removePod .. => by dsimp only [KeepsSets]; infer_instance

/-- A pod's own record of its sets and the sets' views of the pod agree. -/
structure InStep (a : Allocator) : Prop where
  listed : ∀ p e, a.pods.get? p = some e → ∀ ks ∈ e.setKeys.keys, memberOf a.sets ks p
  member : ∀ ks p, memberOf a.sets ks p → ∃ e, a.pods.get? p = some e ∧ ks ∈ e.setKeys.keys
  holder : ∀ ks s h, holderOf a.sets ks s = some h → memberOf a.sets ks h
  queue : ∀ ks s p, p ∈ queueOf a.sets ks s → memberOf a.sets ks p
  names : ∀ p e, a.pods.get? p = some e → ∀ f, f ∈ e.canonicals ∨ f ∈ e.derivable →
    ∀ ks, setKeyOf a.apex f = some ks → ks ∈ e.setKeys.keys

theorem InStep.registered {a : Allocator} (i : InStep a) {ks p : Text}
    (h : memberOf a.sets ks p) : Registered a p := by
  obtain ⟨e,he,_⟩ := i.member ks p h
  exact registered_iff.mpr ⟨e,he⟩

theorem InStep.holdersLive {a : Allocator} (i : InStep a) : HoldersLive a :=
  fun ks s h hh => ⟨i.registered (i.holder ks s h hh),i.holder ks s h hh⟩

theorem InStep.not_mentions {a : Allocator} (i : InStep a) {p : Text} (hp : ¬ Registered a p) :
    ¬ Mentions a p := by
  rintro ⟨ks,hm | ⟨s,hh | hq⟩⟩
  · exact hp (i.registered hm)
  · exact hp (i.registered (i.holder ks s p hh))
  · exact hp (i.registered (i.queue ks s p hq))

theorem new_inStep (apex : Text) : InStep (Allocator.new apex) := by
  constructor <;> simp [Allocator.new,memberOf,holderOf,queueOf]

theorem Added.inStep {a a' : Allocator} {pc : Text} {names : List Text} {apps : Bool}
    (h : Added a a' pc names apps) (i : InStep a)
    (hk : ∀ e ∈ a.pods.get? pc, ∀ ks ∈ e.setKeys.keys, ∃ n ∈ names, setKeyOf a.apex n = some ks) :
    InStep a' := by
  obtain ⟨e,he,hnames,hkeys⟩ := h.record
  constructor
  · intro p e' hp ks hm
    rw [h.member]
    by_cases hpc : p = pc
    · subst hpc
      rw [he] at hp
      cases hp
      exact Or.inr ⟨rfl,(hkeys ks).mp hm⟩
    · rw [h.others p hpc] at hp
      exact Or.inl (i.listed p e' hp ks hm)
  · intro ks p hm
    rcases (h.member ks p).mp hm with hm | ⟨rfl,hn⟩
    · obtain ⟨e',hp,hm⟩ := i.member ks p hm
      by_cases hpc : p = pc
      · -- the refreshed record must still list this set
        subst hpc
        exact ⟨e,he,(hkeys ks).mpr (hk e' hp ks hm)⟩
      · exact ⟨e',(h.others p hpc).trans hp,hm⟩
    · exact ⟨e,he,(hkeys ks).mpr hn⟩
  · intro ks s hd hh
    rw [h.member]
    rcases h.claims ks s hd hh with hh | ⟨rfl,_,_,_,hn,hks⟩
    · exact Or.inl (i.holder ks s hd hh)
    · exact Or.inr ⟨rfl,s,hn,hks⟩
  · intro ks s p hq
    rw [h.member]
    rcases (h.queue ks s p).mp hq with hq | ⟨rfl,hn,hks⟩
    · exact Or.inl (i.queue ks s p hq)
    · exact Or.inr ⟨rfl,s,hn,hks⟩
  · intro p e' hp f hf ks hks
    rw [h.apex] at hks
    by_cases hpc : p = pc
    · subst hpc
      rw [he] at hp
      cases hp
      exact (hkeys ks).mpr ⟨f,(hnames f).mp hf,hks⟩
    · rw [h.others p hpc] at hp
      exact i.names p e' hp f hf ks hks

theorem Transferred.inStep {a a' : Allocator} {pc fq ks : Text} {own : Bool}
    (h : Transferred a a' pc fq ks own) (i : InStep a) : InStep a' := by
  obtain ⟨e,e',he,he',hcan,hder,hkeys,hown⟩ := h.record
  have hmember : memberOf a'.sets ks pc := by
    rw [h.member]
    cases own with
    | true => exact Or.inr ⟨rfl,rfl,rfl⟩
    | false => exact Or.inl (i.listed pc e he ks (i.names pc e he fq (hown rfl) ks h.key))
  constructor
  · intro p q hp x hx
    rw [h.member]
    by_cases hpc : p = pc
    · subst hpc
      rw [he'] at hp
      cases hp
      rcases (hkeys x).mp hx with hx | ⟨ho,hx⟩
      · exact Or.inl (i.listed p e he x hx)
      · exact Or.inr ⟨ho,rfl,hx⟩
    · rw [h.others p hpc] at hp
      exact Or.inl (i.listed p q hp x hx)
  · intro x p hm
    rcases (h.member x p).mp hm with hm | ⟨ho,rfl,rfl⟩
    · obtain ⟨q,hp,hx⟩ := i.member x p hm
      by_cases hpc : p = pc
      · subst hpc
        rw [he] at hp
        cases hp
        exact ⟨e',he',(hkeys x).mpr (Or.inl hx)⟩
      · exact ⟨q,(h.others p hpc).trans hp,hx⟩
    · exact ⟨e',he',(hkeys x).mpr (Or.inr ⟨ho,rfl⟩)⟩
  · intro x s hd hh
    rw [h.holder] at hh
    split at hh
    · rename_i hx
      cases hh
      exact hx.1 ▸ hmember
    · exact (h.member x hd).mpr (Or.inl (i.holder x s hd hh))
  · intro x s p hq
    rcases (h.queue x s p).mp hq with hq | ⟨rfl,_,rfl⟩
    · exact (h.member x p).mpr (Or.inl (i.queue x s p hq))
    · exact hmember
  · intro p q hp f hf x hx
    rw [h.apex] at hx
    by_cases hpc : p = pc
    · subst hpc
      rw [he'] at hp
      cases hp
      rw [hcan,hder] at hf
      exact (hkeys x).mpr (Or.inl (i.names p e he f hf x hx))
    · rw [h.others p hpc] at hp
      exact i.names p q hp f hf x hx

theorem Released.inStep {a a' : Allocator} {pc : Text} {leaving : Bool} {e : PodEntry}
    (h : Released a a' pc leaving e) (i : InStep a) : InStep a' := by
  obtain ⟨stopped,_,g⟩ := h.views
  -- a pod other than a leaving one stays wherever it was
  have hstay : ∀ ks p, memberOf a.sets ks p → (leaving = true → p ≠ pc) → memberOf a'.sets ks p := by
    intro ks p hm hp
    by_cases hks : ks ∈ e.setKeys.keys
    · exact (g.member ks hks p).mpr ⟨hm,hp⟩
    · exact ((views_congr (g.other ks hks)).1 p).mpr hm
  -- a leaving pod was only in the sets its record lists
  have hgone : ∀ ks p, ks ∉ e.setKeys.keys → memberOf a.sets ks p → p ≠ pc := by
    rintro ks p hks hm rfl
    obtain ⟨q,hq,hm⟩ := i.member ks p hm
    rw [h.record] at hq
    cases hq
    exact hks hm
  have hmember : ∀ ks p, memberOf a'.sets ks p →
      memberOf a.sets ks p ∧ (leaving = true → p ≠ pc) := by
    intro ks p hm
    by_cases hks : ks ∈ e.setKeys.keys
    · exact (g.member ks hks p).mp hm
    · have hm := ((views_congr (g.other ks hks)).1 p).mp hm
      exact ⟨hm,fun _ => hgone ks p hks hm⟩
  constructor
  · intro p q hp ks hks
    rw [h.pods] at hp
    split at hp
    · cases hp
    · rename_i hne
      exact hstay ks p (i.listed p q hp ks hks) (fun hl he => hne ⟨hl,he⟩)
  · intro ks p hm
    obtain ⟨hm,hp⟩ := hmember ks p hm
    obtain ⟨q,hq,hks⟩ := i.member ks p hm
    refine ⟨q,?_,hks⟩
    rw [h.pods,if_neg (fun hc => hp hc.1 hc.2)]
    exact hq
  · intro ks s hd hh
    rcases g.holder_cases hh with ⟨hh,hne⟩ | ⟨hks,_,set,hg,hp⟩
    · have hm := i.holder ks s hd hh
      refine hstay ks hd hm (fun _ => ?_)
      by_cases hks : ks ∈ e.setKeys.keys
      · exact hne hks
      · exact hgone ks hd hks hm
    · obtain ⟨hm,hne⟩ := mem_heirSet (pickHeir_mem hp).1
      exact hstay ks hd ((memberOf_of_get hg).mpr hm) hne
  · intro ks s p hq
    by_cases hks : ks ∈ e.setKeys.keys
    · obtain ⟨hq,hp⟩ := g.queue ks hks s p hq
      exact hstay ks p (i.queue ks s p hq) hp
    · rw [(views_congr (g.other ks hks)).2.2 s] at hq
      have hm := i.queue ks s p hq
      exact hstay ks p hm (fun _ => hgone ks p hks hm)
  · intro p q hp f hf ks hks
    rw [h.pods] at hp
    rw [h.apex] at hks
    split at hp
    · cases hp
    · exact i.names p q hp f hf ks hks

theorem Resumed.inStep {a a' : Allocator} {pc : Text} {e : PodEntry}
    (h : Resumed a a' pc e) (i : InStep a) : InStep a' := by
  constructor
  · intro p q hp ks hks
    rw [h.pods] at hp
    exact (h.member ks p).mpr (i.listed p q hp ks hks)
  · intro ks p hm
    rw [h.pods]
    exact i.member ks p ((h.member ks p).mp hm)
  · intro ks s hd hh
    rw [h.member]
    rcases h.claims ks s hd hh with hh | ⟨rfl,hks,_⟩
    · exact i.holder ks s hd hh
    · exact i.listed hd e h.record ks hks
  · intro ks s p hq
    rw [h.queue] at hq
    exact (h.member ks p).mpr (i.queue ks s p hq)
  · intro p q hp f hf ks hks
    rw [h.pods] at hp
    rw [h.apex] at hks
    exact i.names p q hp f hf ks hks

theorem step_inStep {a : Allocator} {op : Op} (i : InStep a) (hk : KeepsSets a op) :
    InStep (step a op) := by
  cases op with
  | addPodServing pod canonicals nowMs apps =>
    exact (addPodServing_added a pod canonicals nowMs apps).inStep i hk
  | requestTransfer pod fqdn =>
    rcases requestTransfer_cases a pod fqdn with ⟨he,_⟩ | ⟨ks,own,ht,_⟩
    · rw [step,he]
      exact i
    · exact ht.inStep i
  | setAppsAllowed pod allowed =>
    rcases setAppsAllowed_cases a pod allowed with ⟨he,_⟩ | ⟨_,e,hr⟩ | ⟨_,e,hr⟩
    · rw [step,he]
      exact i
    · exact hr.inStep i
    · exact hr.inStep i
  | removePod pod =>
    rcases removePod_cases a pod with ⟨he,_⟩ | ⟨e,hr⟩
    · rw [step,he]
      exact i
    · exact hr.inStep i

theorem run_inStep {apex : Text} {ops : List Op}
    (hk : Along step KeepsSets (Allocator.new apex) ops) :
    InStep (run step (Allocator.new apex) ops) :=
  hk.invariant (fun _ _ => step_inStep) (new_inStep apex)

/-- Only a registration makes a pod registered. -/
theorem step_not_registered {a : Allocator} {op : Op} {p : Text}
    (hp : ¬ Registered a (toLowercase p)) (hop : ¬ AddsPod p op) :
    ¬ Registered (step a op) (toLowercase p) := by
  rw [registered_iff] at hp ⊢
  rintro ⟨e,he⟩
  apply hp
  cases op with
  | addPodServing pod canonicals nowMs apps =>
    have h := addPodServing_added a pod canonicals nowMs apps
    exact ⟨e,(h.others _ (Ne.symm hop)).symm.trans he⟩
  | requestTransfer pod fqdn =>
    rcases requestTransfer_cases a pod fqdn with ⟨hs,_⟩ | ⟨ks,own,ht,_⟩
    · rw [step,hs] at he
      exact ⟨e,he⟩
    · obtain ⟨q,_,hq,_⟩ := ht.record
      by_cases hpc : toLowercase p = toLowercase pod
      · exact ⟨q,hpc ▸ hq⟩
      · exact ⟨e,(ht.others _ hpc).symm.trans he⟩
  | setAppsAllowed pod allowed =>
    rcases setAppsAllowed_cases a pod allowed with ⟨hs,_⟩ | ⟨_,q,hr⟩ | ⟨_,q,hr⟩
    · rw [step,hs] at he
      exact ⟨e,he⟩
    · rw [step,hr.pods] at he
      simp only [Bool.false_eq_true,false_and,↓reduceIte] at he
      exact ⟨e,he⟩
    · rw [step,hr.pods] at he
      exact ⟨e,he⟩
  | removePod pod =>
    rcases removePod_cases a pod with ⟨hs,_⟩ | ⟨q,hr⟩
    · rw [step,hs] at he
      exact ⟨e,he⟩
    · rw [step,hr.pods] at he
      split at he
      · cases he
      · exact ⟨e,he⟩

theorem removePod_not_registered (a : Allocator) (p : Text) :
    ¬ Registered (step a (.removePod p)) (toLowercase p) := by
  rcases removePod_cases a p with ⟨hs,hn,_⟩ | ⟨e,hr⟩
  · rw [step,hs]
    exact hn
  · rw [registered_iff,step,hr.pods]
    simp

/-- In every run whose refreshes keep the pod's sets, no slot is held by a pod
that is gone, and a removed pod is named nowhere until it is added again. -/
theorem kept_sets_no_dangling (apex : Text) (ops : List Op)
    (hk : Along step KeepsSets (Allocator.new apex) ops) :
    HoldersLive (run step (Allocator.new apex) ops) ∧
    ∀ p before after, ops = before ++ .removePod p :: after → (∀ op ∈ after, ¬ AddsPod p op) →
      ¬ Mentions (run step (Allocator.new apex) ops) (toLowercase p) := by
  have hi := run_inStep hk
  refine ⟨hi.holdersLive,?_⟩
  rintro p before after rfl hafter
  apply hi.not_mentions
  rw [run_append,run_cons]
  generalize run step (Allocator.new apex) before = a
  have hstart := removePod_not_registered a p
  generalize step a (.removePod p) = b at hstart
  clear hi hk
  induction after generalizing b with
  | nil => exact hstart
  | cons op ops ih =>
    rw [run_cons]
    apply ih (fun x hx => hafter x (List.mem_cons_of_mem _ hx))
    exact step_not_registered hstart (hafter op List.mem_cons_self)

end

/-- A box with one app, refreshed without a change and then removed. -/
theorem kept_sets_no_dangling_home :
    HoldersLive (run step (Allocator.new defaultApex)
      [.addPodServing homePod ["chess.home.alice.flagship.services".toList] 1 true,
        .addPodServing homePod ["chess.home.alice.flagship.services".toList] 2 true,
        .removePod homePod]) ∧
    ¬ Mentions (run step (Allocator.new defaultApex)
      [.addPodServing homePod ["chess.home.alice.flagship.services".toList] 1 true,
        .addPodServing homePod ["chess.home.alice.flagship.services".toList] 2 true,
        .removePod homePod]) (toLowercase homePod) := by
  have h := kept_sets_no_dangling defaultApex
    [.addPodServing homePod ["chess.home.alice.flagship.services".toList] 1 true,
      .addPodServing homePod ["chess.home.alice.flagship.services".toList] 2 true,
      .removePod homePod] (by decide +kernel)
  exact ⟨h.1,h.2 homePod
    [.addPodServing homePod ["chess.home.alice.flagship.services".toList] 1 true,
      .addPodServing homePod ["chess.home.alice.flagship.services".toList] 2 true] [] rfl (by simp)⟩

/-- The same box, refreshed without its app and then removed: the app's short
name is still held by the box, which is no longer registered. -/
theorem dropped_set_dangles :
    ¬ HoldersLive (run step (Allocator.new defaultApex)
      [.addPodServing homePod ["chess.home.alice.flagship.services".toList] 1 true,
        .addPodServing homePod [] 2 true, .removePod homePod]) ∧
    Mentions (run step (Allocator.new defaultApex)
      [.addPodServing homePod ["chess.home.alice.flagship.services".toList] 1 true,
        .addPodServing homePod [] 2 true, .removePod homePod]) (toLowercase homePod) := by
  have hheld : holderOf (run step (Allocator.new defaultApex)
      [.addPodServing homePod ["chess.home.alice.flagship.services".toList] 1 true,
        .addPodServing homePod [] 2 true, .removePod homePod]).sets "chess|alice|alice".toList
      "chess.alice.flagship.services".toList = some (toLowercase homePod) := by decide +kernel
  refine ⟨fun h => ?_,_,Or.inr ⟨_,Or.inl hheld⟩⟩
  exact absurd (h _ _ _ hheld).1 (by decide +kernel)

end Flagship.Relay.Proofs

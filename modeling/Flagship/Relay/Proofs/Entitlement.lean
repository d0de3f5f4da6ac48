import Flagship.Relay.Proofs.Steps

namespace Flagship.Relay.Proofs
open Lib Allocator

section
variable [Lowercase]

/-- Some call of the run entitled the pod to the name. -/
def Entitled (a : Allocator) (p s : Text) : List Op → Prop
  | [] => False
  | op :: ops => Earns a p s op ∨ Entitled (step a op) p s ops

instance (a : Allocator) (p s : Text) (op : Op) : Decidable (Earns a p s op) :=
  match op with
  | .addPodServing .. => inferInstanceAs (Decidable (_ ∧ _))
  | .requestTransfer pod fqdn =>
    have : Decidable (∃ r, (a.requestTransfer pod fqdn).2 = .ok r) :=
      match (a.requestTransfer pod fqdn).2 with
      | .ok r => isTrue ⟨r,rfl⟩
      | .error _ => isFalse (by simp)
    inferInstanceAs (Decidable (_ ∧ _ ∧ _))
  | .setAppsAllowed .. => isFalse id
  | .removePod .. => isFalse id

instance Entitled.decidable (p s : Text) : ∀ a ops, Decidable (Entitled a p s ops)
  | _,[] => isFalse id
  | a,op :: ops =>
    have := Entitled.decidable p s (step a op) ops
    inferInstanceAs (Decidable (_ ∨ _))

theorem entitled_append {a : Allocator} {p s : Text} {before after : List Op} :
    Entitled a p s (before ++ after) ↔
      Entitled a p s before ∨ Entitled (run step a before) p s after := by
  induction before generalizing a with
  | nil => simp [Entitled]
  | cons op ops ih => simp only [List.cons_append,Entitled,ih,run_cons,or_assoc]

/-- Some registration of the run listed or derived the name for the pod. -/
def Registers (apex : Text) (ops : List Op) (p s : Text) : Prop :=
  ∃ pod canonicals nowMs apps, .addPodServing pod canonicals nowMs apps ∈ ops ∧
    toLowercase pod = p ∧ s ∈ joinedNames (toLowercase apex) p canonicals

/-- Every slot the pod holds in one of its sets has a live candidate waiting for
it, or no member is left to fall back on. -/
def HeirsWait (a : Allocator) (stopped : Finset Text) (leaving : Bool) (pc : Text) : Prop :=
  ∀ e ∈ a.pods.get? pc, ∀ ks ∈ e.setKeys.keys, ∀ set ∈ a.sets.get? ks, ∀ s ∈ heldSlots set pc,
    liveCandidate a.pods stopped (heirSet leaving pc set) s = none →
      fallbackHeir a.pods stopped (heirSet leaving pc set) = none

/-- A removal or stop hands no slot to a member that never queued for it. -/
def NoFallback (a : Allocator) : Op → Prop
  | .removePod pod => HeirsWait a a.appsStopped true (toLowercase pod)
  | .setAppsAllowed pod allowed => allowed = false → toLowercase pod ∉ a.appsStopped →
    HeirsWait a (insert (toLowercase pod) a.appsStopped) false (toLowercase pod)
  | _ => True

instance (a : Allocator) (stopped : Finset Text) (leaving : Bool) (pc : Text) :
    Decidable (HeirsWait a stopped leaving pc) := by unfold HeirsWait; infer_instance

instance (a : Allocator) (op : Op) : Decidable (NoFallback a op) :=
  match op with
  | .addPodServing .. => by dsimp only [NoFallback]; infer_instance
  | .requestTransfer .. => by dsimp only [NoFallback]; infer_instance
  | .setAppsAllowed .. => by dsimp only [NoFallback]; infer_instance
  | .removePod .. => by dsimp only [NoFallback]; infer_instance

/-- The box a name `<svc>.<server>.<user>.<apex>` embeds. -/
def boxOf (f apex : Text) : Option Text :=
  match (stripApex f apex).map (·.splitOn '.') with
  | some [_,server,user] => some (underApex [server,user] apex)
  | _ => none

/-- A registration lists and derives box-specific names of its own box only. -/
def OwnBoxNames (a : Allocator) : Op → Prop
  | .addPodServing pod canonicals _ _ => ∀ n ∈ joinedNames a.apex (toLowercase pod) canonicals,
    ∀ b ∈ boxOf n a.apex, b = toLowercase pod
  | _ => True

instance (a : Allocator) (op : Op) : Decidable (OwnBoxNames a op) :=
  match op with
  | .addPodServing .. => by dsimp only [OwnBoxNames]; infer_instance
  | .requestTransfer .. => by dsimp only [OwnBoxNames]; infer_instance
  | .setAppsAllowed .. => by dsimp only [OwnBoxNames]; infer_instance
  | .removePod .. => by dsimp only [OwnBoxNames]; infer_instance

theorem Registers.concat {apex : Text} {ops : List Op} {p s : Text} (h : Registers apex ops p s)
    (op : Op) : Registers apex (ops ++ [op]) p s := by
  obtain ⟨pod,cs,now,apps,hm,hp⟩ := h
  exact ⟨pod,cs,now,apps,List.mem_append_left _ hm,hp⟩

/-- Holders and candidates are entitled to what they hold or wait for, and
records list nothing a registration did not bring. -/
structure Earned (apex : Text) (ops : List Op) (a : Allocator) : Prop where
  holder : ∀ ks s h, holderOf a.sets ks s = some h → Entitled (Allocator.new apex) h s ops
  queue : ∀ ks s p, p ∈ queueOf a.sets ks s → Entitled (Allocator.new apex) p s ops
  names : ∀ p e, a.pods.get? p = some e → ∀ f, f ∈ e.canonicals ∨ f ∈ e.derivable →
    Registers apex ops p f

/-- Without the fallback, an heir waited for what it inherits. -/
theorem heir_queued {a : Allocator} {stopped : Finset Text} {leaving : Bool} {pc ks s h : Text}
    {e : PodEntry} {set : SetEntry} (hw : HeirsWait a stopped leaving pc)
    (he : a.pods.get? pc = some e) (hks : ks ∈ e.setKeys.keys) (hg : a.sets.get? ks = some set)
    (hheld : set.slotHolders.get? s = some pc)
    (hp : pickHeir a.pods stopped (heirSet leaving pc set) s = some h) :
    h ∈ queueOf a.sets ks s := by
  rw [queueOf_of_get hg]
  rcases pickHeir_queued hp with hq | ⟨hnone,hfall⟩
  · exact mem_heirSet_queue hq
  · rw [hw e he ks hks set hg s (mem_heldSlots.mpr hheld) hnone] at hfall
    cases hfall

theorem step_earned {apex : Text} {ops : List Op} {op : Op}
    (i : Earned apex ops (run step (Allocator.new apex) ops))
    (hc : NoFallback (run step (Allocator.new apex) ops) op) :
    Earned apex (ops ++ [op]) (run step (Allocator.new apex) (ops ++ [op])) := by
  have happ : run step (Allocator.new apex) (ops ++ [op]) =
      step (run step (Allocator.new apex) ops) op := by rw [run_append]; rfl
  have hlast : ∀ {p s}, Earns (run step (Allocator.new apex) ops) p s op →
      Entitled (Allocator.new apex) p s (ops ++ [op]) :=
    fun he => entitled_append.mpr (Or.inr (Or.inl he))
  have hkeep : ∀ {p s}, Entitled (Allocator.new apex) p s ops →
      Entitled (Allocator.new apex) p s (ops ++ [op]) :=
    fun he => entitled_append.mpr (Or.inl he)
  have hapex := run_apex apex ops
  rw [happ]
  generalize run step (Allocator.new apex) ops = a at i hc hlast hapex
  constructor
  · intro ks s h hh
    cases step_holder hh with
    | kept hold => exact hkeep (i.holder ks s h hold)
    | claimed earns key own free => exact hlast earns
    | granted pod fqdn call earns own moved => exact hlast earns
    | inherited pc leaving e stopped set call gave listed stops found held heir =>
      refine hkeep (i.queue ks s h ?_)
      cases leaving with
      | true =>
        have hst : stopped = a.appsStopped := Finset.ext (by simpa using stops)
        subst call hst
        exact heir_queued hc gave.record listed found held heir
      | false =>
        have hst : stopped = insert (toLowercase pc) a.appsStopped :=
          Finset.ext (by simpa [or_comm] using stops)
        subst call hst
        exact heir_queued (hc rfl (gave.stops rfl).1) gave.record listed found held heir
    | resumed pc e set call who record was listed found free =>
      refine hkeep (i.queue ks s h ?_)
      rw [queueOf_of_get found]
      exact (mem_freeSlots free).2.2
  · intro ks s p hq
    rcases step_queue hq with hq | ⟨he,_⟩
    · exact hkeep (i.queue ks s p hq)
    · exact hlast he
  · intro p e he f hf
    rcases step_record he with ⟨e',he',hsub⟩ | ⟨pod,cs,now,apps,rfl,hearn⟩
    · exact (i.names p e' he' f (hsub f hf)).concat op
    · obtain ⟨hp,hn⟩ := hearn f hf
      rw [hapex] at hn
      exact ⟨pod,cs,now,apps,by simp,hp,hn⟩

theorem run_earned {apex : Text} {ops : List Op}
    (hc : Along step NoFallback (Allocator.new apex) ops) :
    Earned apex ops (run step (Allocator.new apex) ops) := by
  induction ops using List.reverseRecOn with
  | nil => constructor <;> simp [Allocator.new,holderOf,queueOf]
  | append_singleton ops op ih =>
    obtain ⟨hc,hop,_⟩ := along_append.mp hc
    exact step_earned (ih hc) hop

/-- A name with a box in it is not of the short form. -/
theorem boxOf_not_short {f apex b : Text} (hl : toLowercase f = f) (hb : boxOf f apex = some b) :
    isShortServiceCanonical f apex = false := by
  unfold boxOf at hb
  split at hb
  · rename_i svc server user hs
    obtain ⟨head,hhead,hsplit⟩ := Option.map_eq_some_iff.mp hs
    simp [isShortServiceCanonical,hl,hhead,hsplit]
  · cases hb

/-- A transfer only ever moves a box-specific name the pod's record lists. -/
theorem entitled_registers {apex : Text} {ops : List Op} {p s b : Text}
    (hc : Along step NoFallback (Allocator.new apex) ops)
    (hb : boxOf s (toLowercase apex) = some b) (h : Entitled (Allocator.new apex) p s ops) :
    Registers apex ops p s := by
  induction ops using List.reverseRecOn with
  | nil => cases h
  | append_singleton ops op ih =>
    have hc := (along_append.mp hc).1
    have hi := run_earned hc
    have hapex := run_apex apex ops
    rcases entitled_append.mp h with h | h | h
    · exact (ih hc h).concat op
    · generalize run step (Allocator.new apex) ops = a at hi h hapex
      cases op with
      | addPodServing pod canonicals nowMs apps =>
        obtain ⟨hp,hn⟩ := h
        rw [hapex] at hn
        exact ⟨pod,canonicals,nowMs,apps,by simp,hp,hn⟩
      | requestTransfer pod fqdn =>
        obtain ⟨rfl,rfl,r,hok⟩ := h
        rcases requestTransfer_cases a pod fqdn with ⟨_,err,herr⟩ | ⟨ks,own,ht,_⟩
        · rw [hok] at herr
          cases herr
        · cases own with
          | true =>
            have hshort := (ht.zone rfl).1
            rw [hapex,boxOf_not_short (toLowercase_idem fqdn) hb] at hshort
            cases hshort
          | false =>
            obtain ⟨e,_,hrec,_,_,_,_,hnames⟩ := ht.record
            exact (hi.names _ e hrec _ (hnames rfl)).concat _
      | setAppsAllowed | removePod => cases h
    · cases h

/-- In every run without a fallback succession, whoever holds a slot has itself
registered, derived or been granted its name; and where boxes list and derive
box-specific names of their own only, such a name is held by its own box. -/
theorem holders_entitled (apex : Text) (ops : List Op)
    (hc : Along step NoFallback (Allocator.new apex) ops) :
    (∀ ks s h, holderOf (run step (Allocator.new apex) ops).sets ks s = some h →
      Entitled (Allocator.new apex) h s ops) ∧
    (Along step OwnBoxNames (Allocator.new apex) ops → ∀ ks s h,
      holderOf (run step (Allocator.new apex) ops).sets ks s = some h →
        ∀ b ∈ boxOf s (toLowercase apex), b = h) := by
  have hi := run_earned hc
  refine ⟨hi.holder,?_⟩
  intro hown ks s h hh b hb
  obtain ⟨pod,cs,now,apps,hm,rfl,hn⟩ := entitled_registers hc hb (hi.holder ks s h hh)
  obtain ⟨before,after,rfl⟩ := List.append_of_mem hm
  have hop := (along_append.mp hown).2.1
  simp only [OwnBoxNames,run_apex] at hop
  exact hop s hn b hb

end

/-- Two boxes with one app, of which the second goes: the first still holds the
name that embeds it. -/
theorem holders_entitled_two_boxes :
    Entitled (Allocator.new defaultApex) homePod "chess.home.alice.flagship.services".toList
      [.addPodServing homePod ["chess-bob.home.alice.flagship.services".toList] 1 true,
        .addPodServing cabinPod ["chess.cabin.alice.flagship.services".toList] 2 true,
        .removePod cabinPod] ∧
    ∀ b ∈ boxOf "chess.home.alice.flagship.services".toList (toLowercase defaultApex),
      b = homePod := by
  have h := holders_entitled defaultApex
    [.addPodServing homePod ["chess-bob.home.alice.flagship.services".toList] 1 true,
      .addPodServing cabinPod ["chess.cabin.alice.flagship.services".toList] 2 true,
      .removePod cabinPod] (by decide +kernel)
  exact ⟨h.1 "chess|alice|alice".toList _ _ (by decide +kernel),
    h.2 (by decide +kernel) "chess|alice|alice".toList _ _ (by decide +kernel)⟩

/-- Two boxes run one author's app under their own names. When the first goes,
the second, which never asked for it, holds the name that embeds the first. -/
theorem sibling_inherits_box_name :
    ∃ ks s h, holderOf (run step (Allocator.new defaultApex)
      [.addPodServing homePod ["chess-bob.home.alice.flagship.services".toList] 1 true,
        .addPodServing cabinPod ["chess-bob.cabin.alice.flagship.services".toList] 2 true,
        .removePod homePod]).sets ks s = some h ∧
      ¬ Entitled (Allocator.new defaultApex) h s
        [.addPodServing homePod ["chess-bob.home.alice.flagship.services".toList] 1 true,
          .addPodServing cabinPod ["chess-bob.cabin.alice.flagship.services".toList] 2 true,
          .removePod homePod] ∧
      ∃ b ∈ boxOf s (toLowercase defaultApex), b ≠ h :=
  ⟨"chess|alice|alice".toList,"chess.home.alice.flagship.services".toList,cabinPod,
    by decide +kernel,by decide +kernel,homePod,by decide +kernel,by decide +kernel⟩

end Flagship.Relay.Proofs

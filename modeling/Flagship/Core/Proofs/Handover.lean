import Flagship.Core.Proofs.Reviews

namespace Flagship.Core
open Lib Apps

/-- The journal once everything pending is settled from what the engine shows. -/
def Journal.recovered (j : Journal) (seen : OrdMap Text ObservedWorkload) : Journal :=
  j.pending.foldl (fun j op => j.recoverOp seen op) j

/-- The installations a pass holds for review. -/
def blockedIn (c : Controller) (effects : Bool) (seen : OrdMap Text ObservedWorkload) : List Text :=
  (if effects then c.journal.recovered seen else c.journal).needsReview.map (·.installation)

/-- A workload of a checkpoint that carries the digest of its plan, has no labels at
all, or is held for review. -/
def labelledAsPlanned (c : Controller) (seen : OrdMap Text ObservedWorkload)
    (w : CheckpointWorkload) : Bool :=
  (seen.get? w.installation).all (fun o => o.legacy ||
    (c.journal.desired.get? w.installation).any fun plan => o.planDigest = some plan.digest) ||
    (blockedIn c (c.mode = .effects) seen).contains w.installation

/-- A pass has decided to stop or delete a workload. -/
def Report.destroys (r : Report) (installation : Text) : Bool :=
  r.decisions.any fun d => d.installation = installation && d.kind.destructive

section
variable {s s₀ : Controller} {x : Answer} {i : Text}

/-- Nothing is asked of the state in between. -/
abbrev anywhere : Terms Controller Answer Place := Terms.alone fun _ => True

theorem recover_eq (seen : OrdMap Text ObservedWorkload) (list : List Op)
    {post : Answer → Controller → Except CoreError Unit → Controller → Prop}
    (h : ∀ y t₀,post y t₀ (.ok ())
      { s with journal := list.foldl (fun j op => j.recoverOp seen op) s.journal }) :
    (recover seen list).wp anywhere post x s₀ s := by
  induction list generalizing s s₀ x with
  | nil =>
    rw [recover,wp_pure]
    exact h x s₀
  | cons op rest ih =>
    simp only [recover,wp_bind]
    refine (wp_writes _).mpr ⟨trivial,?_⟩
    intro y
    exact ih h

theorem adopts_eq (list : List Adopted)
    {post : Answer → Controller → Except CoreError Unit → Controller → Prop}
    (h : ∀ y t₀,post y t₀ (.ok ()) { s with journal := list.foldl Journal.adopt s.journal }) :
    (adopts list).wp anywhere post x s₀ s := by
  induction list generalizing s s₀ x with
  | nil =>
    rw [adopts,wp_pure]
    exact h x s₀
  | cons a rest ih =>
    simp only [adopts,wp_bind]
    refine (wp_writes _).mpr ⟨trivial,?_⟩
    intro y
    exact ih h

theorem destroys_decide (r : Report) (installation : Text) (generation : Nat) (kind : OpKind) :
    (r.decide installation generation kind).destroys i =
      (r.destroys i || (decide (installation = i) && kind.destructive)) := by
  simp [Report.destroys,Report.decide]

/-- An effect leaves the adopted workloads and the mode alone. -/
theorem effect_adopted {kind : OpKind} {inst : Text} (generation : Nat) (plan : Option Text)
    (f : Text → Option Text) :
    Async.wp anywhere (do
      let op ← journals inst generation kind plan
      let answer ← calls op kind inst
      settleEffect op kind (answer.map f))
      (fun _ _ r t => (∃ outcome,r = .ok outcome) ∧ t.journal.adopted = s.journal.adopted)
      x s₀ s := by
  simp only [anywhere,wp_bind,journals,calls,wp_writes,wp_get,wp_pure,wp_awaits_alone,wp_read,
    wp_notes]
  refine ⟨trivial,?_⟩
  intro _
  refine ⟨trivial,?_⟩
  intro answer
  cases answer with
  | ok rid =>
    simp only [Except.map,settleEffect,wp_bind,wp_writes,wp_notes,wp_pure]
    exact ⟨trivial,fun _ => ⟨⟨_,rfl⟩,rfl⟩⟩
  | error e =>
    simp only [Except.map,settleEffect,wp_bind,wp_writes,wp_notes,wp_pure]
    exact ⟨trivial,fun _ => ⟨⟨_,rfl⟩,rfl⟩⟩

/-- What the steps of one workload come to: nothing that was decided is taken back, and
nothing changes for the others. -/
structure Closes (inst : Text) (steps : List OpKind)
    (pass pass' : Report × OrdMap Text ObservedWorkload) (s t : Controller) : Prop where
  keeps : pass.1.destroys inst = true → pass'.1.destroys inst = true
  only : pass'.1.destroys inst = true →
    pass.1.destroys inst = true ∨ steps.any (·.destructive) = true
  others : ∀ j,j ≠ inst → pass'.1.destroys j = pass.1.destroys j ∧
    pass'.2.get? j = pass.2.get? j ∧ t.journal.adopted.get? j = s.journal.adopted.get? j

theorem Closes.refl (inst : Text) (steps : List OpKind)
    (pass : Report × OrdMap Text ObservedWorkload) (s : Controller) :
    Closes inst steps pass pass s s :=
  ⟨id,Or.inl,fun _ _ => ⟨rfl,rfl,rfl⟩⟩

/-- The first step is decided, whatever comes of it. -/
theorem Closes.cons {inst : Text} {kind : OpKind} {rest : List OpKind} {report report' : Report}
    {seen seen' : OrdMap Text ObservedWorkload} {pass' : Report × OrdMap Text ObservedWorkload}
    {s s' t : Controller} (generation : Nat)
    (hreport : report'.decisions = (report.decide inst generation kind).decisions)
    (hothers : ∀ j,j ≠ inst → seen'.get? j = seen.get? j ∧
      s'.journal.adopted.get? j = s.journal.adopted.get? j)
    (h : Closes inst rest (report',seen') pass' s' t) :
    Closes inst (kind :: rest) (report,seen) pass' s t ∧
      (kind.destructive = true → pass'.1.destroys inst = true) := by
  have hdecided : ∀ j,report'.destroys j =
      (report.destroys j || (decide (inst = j) && kind.destructive)) := by
    intro j
    rw [← destroys_decide (i := j) report inst generation kind,Report.destroys,hreport]
    rfl
  refine ⟨⟨?_,?_,?_⟩,?_⟩
  · intro hold
    refine h.keeps ?_
    rw [hdecided,hold]
    rfl
  · intro hnew
    rcases h.only hnew with hold | hany
    · rw [hdecided,Bool.or_eq_true,Bool.and_eq_true] at hold
      exact hold.imp_right fun hkind => by simp [hkind.2]
    · exact Or.inr (by simp [hany])
  · intro j hj
    obtain ⟨hdestroys,hseen,hadopted⟩ := h.others j hj
    obtain ⟨hseen',hadopted'⟩ := hothers j hj
    refine ⟨?_,hseen.trans hseen',hadopted.trans hadopted'⟩
    rw [hdestroys,hdecided]
    simp [Ne.symm hj]
  · intro hkind
    refine h.keeps ?_
    rw [hdecided,hkind]
    simp

/-- What becomes of one workload in a pass. -/
def Closed (inst : Text) (steps : List OpKind) (pass pass' : Report × OrdMap Text ObservedWorkload)
    (s t : Controller) : Prop :=
  Closes inst steps pass pass' s t ∧
    (steps.head?.any (·.destructive) = true → pass'.1.destroys inst = true)

theorem closesGap_decides {effects : Bool} {d : Desired} {adopted : Option Adopted}
    {steps : List OpKind} {pass : Report × OrdMap Text ObservedWorkload} :
    (closesGap effects d adopted steps pass).wp anywhere (fun _ _ r t => ∀ pass',r = .ok pass' →
      Closed d.plan.installation steps pass pass' s t) x s₀ s := by
  induction steps generalizing pass s s₀ x with
  | nil =>
    rw [closesGap,wp_pure]
    intro pass' heq
    cases heq
    exact ⟨.refl ..,by simp⟩
  | cons kind rest ih =>
    obtain ⟨report,seen⟩ := pass
    rw [closesGap]
    cases effects with
    | false =>
      simp only [Bool.not_false,↓reduceIte,wp_bind]
      refine (wp_writes _).mpr ⟨trivial,?_⟩
      intro y
      refine ih.mono ?_
      intro _ _ result t hend pass' heq
      refine Closes.cons _ rfl ?_ (hend pass' heq).1
      exact fun _ _ => ⟨rfl,rfl⟩
    | true =>
      simp only [Bool.not_true,Bool.false_eq_true,↓reduceIte,wp_bind]
      refine (effect_adopted _ _ _).mono ?_
      intro y t₀ result t hperformed
      obtain ⟨⟨outcome,rfl⟩,hadopted⟩ := hperformed
      cases outcome with
      | ok u =>
        dsimp only
        split
        next =>
          split
          · simp only [wp_bind]
            refine (wp_writes _).mpr ⟨trivial,?_⟩
            intro y
            refine ih.mono ?_
            intro _ _ result t' hend pass' heq
            refine Closes.cons _ rfl ?_ (hend pass' heq).1
            intro j hj
            refine ⟨OrdMap.get?_erase_ne hj,(OrdMap.get?_erase_ne hj).trans ?_⟩
            rw [hadopted]
          · refine ih.mono ?_
            intro _ _ result t' hend pass' heq
            refine Closes.cons _ rfl ?_ (hend pass' heq).1
            intro j hj
            exact ⟨OrdMap.get?_erase_ne hj,by rw [hadopted]⟩
        next =>
          refine ih.mono ?_
          intro _ _ result t' hend pass' heq
          exact Closes.cons _ rfl (fun _ _ => ⟨rfl,by rw [hadopted]⟩) (hend pass' heq).1
      | error e =>
        have hbreaks : ∀ report' : Report,report'.decisions = (report.decide d.plan.installation
            (targetGeneration d (seen.get? d.plan.installation) adopted kind) kind).decisions →
            Closed d.plan.installation (kind :: rest) (report,seen) (report',seen) s t := by
          intro report' hreport
          exact Closes.cons _ hreport (fun _ _ => ⟨rfl,by rw [hadopted]⟩) (.refl ..)
        dsimp only
        cases e with
        | definite m =>
          simp only [wp_pure]
          intro pass' heq
          cases heq
          exact hbreaks _ rfl
        | unknown m =>
          dsimp only
          split
          · simp only [wp_pure]
            intro pass' heq
            cases heq
            exact hbreaks _ rfl
          · simp only [wp_pure]
            intro pass' heq
            cases heq
            exact hbreaks _ rfl

theorem planFor_destroys (d : Desired) (obs : Option ObservedWorkload) (adopted : Option Adopted) :
    (planFor d obs adopted).any (·.destructive) = obs.any (fun o => !planMatches d o adopted) ∧
      (planFor d obs adopted).head?.any (·.destructive) =
        obs.any (fun o => !planMatches d o adopted) := by
  cases obs with
  | none => exact ⟨rfl,rfl⟩
  | some o =>
    simp only [planFor,Option.any_some]
    split
    next hmatches =>
      rw [hmatches]
      split <;> exact ⟨rfl,rfl⟩
    next hnot =>
      rw [Bool.eq_false_of_not_eq_true hnot]
      split <;> exact ⟨rfl,rfl⟩

/-- Which workloads of the desired ones a pass decides to destroy. -/
theorem reconcileDesired_decides {effects : Bool} {blocked : List Text} {list : List Desired}
    {pass : Report × OrdMap Text ObservedWorkload}
    (hnodup : (list.map (·.plan.installation)).Nodup) :
    (reconcileDesired effects blocked list pass).wp anywhere (fun _ _ r _ => ∀ pass',r = .ok pass' →
      (pass'.1.destroys i = true ↔ pass.1.destroys i = true ∨
        ∃ d ∈ list,d.plan.installation = i ∧ i ∉ blocked ∧ (pass.2.get? i).any (fun o =>
          !planMatches d o (s.journal.adopted.get? i)) = true)) x s₀ s := by
  induction list generalizing pass s s₀ x with
  | nil =>
    rw [reconcileDesired,wp_pure]
    intro pass' heq
    cases heq
    simp
  | cons d rest ih =>
    obtain ⟨report,seen⟩ := pass
    rw [List.map_cons,List.nodup_cons] at hnodup
    rw [reconcileDesired]
    dsimp only
    split
    next hblocked =>
      refine (ih hnodup.2).mono ?_
      intro _ _ result t hend pass' heq
      refine (hend pass' heq).trans (or_congr Iff.rfl ?_)
      simp only [List.mem_cons,exists_eq_or_imp]
      refine ⟨Or.inr,fun h => h.resolve_left ?_⟩
      intro h
      exact h.2.1 (h.1 ▸ by simpa using hblocked)
    next hblocked =>
      simp only [wp_bind,wp_get]
      refine closesGap_decides.mono ?_
      intro y t₀ result t hclosed
      cases result with
      | error e =>
        intro pass' heq
        cases heq
      | ok pass₁ =>
        obtain ⟨hcloses,hfirst⟩ := hclosed pass₁ rfl
        obtain ⟨hany,hhead⟩ := planFor_destroys d (seen.get? d.plan.installation)
          (s.journal.adopted.get? d.plan.installation)
        refine (ih hnodup.2).mono ?_
        intro _ _ result t' hend pass' heq
        refine (hend pass' heq).trans ?_
        simp only [List.mem_cons,exists_eq_or_imp]
        by_cases hi : d.plan.installation = i
        · subst hi
          -- the rest of the list is about other installations
          have hrest : ∀ P : Desired → Prop,
              ¬ ∃ d' ∈ rest,d'.plan.installation = d.plan.installation ∧ P d' := by
            intro P h
            obtain ⟨d',hd',heq',_⟩ := h
            exact hnodup.1 (List.mem_map.mpr ⟨d',hd',heq'⟩)
          have hnot : d.plan.installation ∉ blocked := by simpa using hblocked
          constructor
          · intro h
            rcases hcloses.only (h.resolve_right (hrest _)) with hold | hnew
            · exact Or.inl hold
            · exact Or.inr (Or.inl ⟨rfl,hnot,hany ▸ hnew⟩)
          · intro h
            left
            rcases h with hold | ⟨_,_,hnew⟩ | hlater
            · exact hcloses.keeps hold
            · exact hfirst (hhead.trans hnew)
            · exact absurd hlater (hrest _)
        · obtain ⟨hdestroys,hseen,hadopted⟩ := hcloses.others i (Ne.symm hi)
          rw [hdestroys,hseen,hadopted]
          simp only [hi,false_and,false_or]

theorem removesAll_decides {effects : Bool} {inst : Text} {o : ObservedWorkload}
    {steps : List OpKind} {report : Report} (hi : inst ≠ i) :
    (removesAll effects inst o steps report).wp anywhere (fun _ _ r _ => ∀ report',r = .ok report' →
      report'.destroys i = report.destroys i) x s₀ s := by
  induction steps generalizing report s s₀ x with
  | nil =>
    rw [removesAll,wp_pure]
    intro report' heq
    cases heq
    rfl
  | cons kind rest ih =>
    have hsame : ∀ generation,(report.decide inst generation kind).destroys i =
        report.destroys i := by
      intro generation
      rw [destroys_decide]
      simp [hi]
    rw [removesAll]
    cases effects with
    | false =>
      simp only [Bool.not_false,↓reduceIte,wp_bind]
      refine (wp_writes _).mpr ⟨trivial,?_⟩
      intro y
      refine ih.mono ?_
      intro _ _ result t hend report' heq
      exact (hend report' heq).trans (hsame _)
    | true =>
      simp only [Bool.not_true,Bool.false_eq_true,↓reduceIte,wp_bind]
      refine (effect_adopted _ _ _).mono ?_
      intro y t₀ result t hperformed
      obtain ⟨⟨outcome,rfl⟩,_⟩ := hperformed
      cases outcome with
      | ok u =>
        refine ih.mono ?_
        intro _ _ result t' hend report' heq
        exact (hend report' heq).trans (hsame _)
      | error e =>
        simp only [wp_pure]
        intro report' heq
        cases heq
        exact hsame _

theorem reconcileOthers_decides {effects : Bool} {blocked wanted : List Text}
    {list : List (Text × ObservedWorkload)} {report : Report} (hi : i ∈ wanted) :
    (reconcileOthers effects blocked wanted list report).wp anywhere (fun _ _ r _ =>
      ∀ report',r = .ok report' → report'.destroys i = report.destroys i) x s₀ s := by
  induction list generalizing report s s₀ x with
  | nil =>
    rw [reconcileOthers,wp_pure]
    intro report' heq
    cases heq
    rfl
  | cons e rest ih =>
    obtain ⟨inst,o⟩ := e
    rw [reconcileOthers]
    split
    · exact ih
    next hwanted =>
      split
      · exact ih
      · split
        · exact ih
        · simp only [wp_bind]
          have hne : inst ≠ i := by
            intro heq
            exact hwanted (by simpa [heq] using hi)
          refine (removesAll_decides hne).mono ?_
          intro y t₀ result t hone
          cases result with
          | error e =>
            intro report' heq
            cases heq
          | ok report₁ =>
            refine ih.mono ?_
            intro _ _ result t' hend report' heq
            exact (hend report' heq).trans (hone report₁ rfl)

theorem recovered_frame (j : Journal) (seen : OrdMap Text ObservedWorkload) :
    (j.recovered seen).desired = j.desired ∧ (j.recovered seen).adopted = j.adopted := by
  refine foldl_keeps (I := fun j' : Journal => j'.desired = j.desired ∧ j'.adopted = j.adopted) _
    ?_ ⟨rfl,rfl⟩
  intro j' op _ h
  exact h

theorem desiredPlans_congr {j j' : Journal} (h : j.desired = j'.desired) :
    j.desiredPlans = j'.desiredPlans := by
  rw [Journal.desiredPlans,Journal.desiredPlans,h]

/-- Which workloads a pass decides to destroy, of those that are desired. -/
theorem reconcile_decides {list : List ObservedWorkload}
    (hi : i ∈ s.journal.desiredPlans.map (·.plan.installation)) :
    (reconcile (.ok list)).wp anywhere (fun _ _ r _ => ∀ report,r = .ok report →
      (report.destroys i = true ↔
        ∃ d ∈ s.journal.desiredPlans,d.plan.installation = i ∧
          i ∉ blockedIn s s.effectsActive (byInstallation list) ∧
          ((byInstallation list).get? i).any (fun o =>
            !planMatches d o (s.journal.adopted.get? i)) = true)) x s₀ s := by
  -- both loops, from wherever they begin
  have hloops : ∀ {y : Answer} {t₀ : Controller} (effects : Bool) (t : Controller),
      t.journal.desired = s.journal.desired → t.journal.adopted = s.journal.adopted →
      (reconcileDesired effects (t.journal.needsReview.map (·.installation))
        t.journal.desiredPlans (⟨[],effects,[],[],[]⟩,byInstallation list) >>= fun pass =>
          reconcileOthers effects (t.journal.needsReview.map (·.installation))
            (t.journal.desiredPlans.map (·.plan.installation)) (ascending pass.2) pass.1).wp
        anywhere (fun _ _ r _ => ∀ report,r = .ok report → (report.destroys i = true ↔
          ∃ d ∈ s.journal.desiredPlans,d.plan.installation = i ∧
            i ∉ t.journal.needsReview.map (·.installation) ∧
            ((byInstallation list).get? i).any (fun o =>
              !planMatches d o (s.journal.adopted.get? i)) = true)) y t₀ t := by
    intro y t₀ effects t hdesired hadopted
    rw [desiredPlans_congr hdesired,← hadopted,wp_bind]
    refine (reconcileDesired_decides (i := i) (desiredPlans_nodup _)).mono ?_
    intro y' t₀' result t' hend
    cases result with
    | error e =>
      intro report heq
      cases heq
    | ok pass =>
      refine (reconcileOthers_decides hi).mono ?_
      intro _ _ result t'' hsame report heq
      rw [hsame report heq,hend pass rfl]
      simp [Report.destroys]
  rw [reconcile]
  simp only [wp_bind,wp_get]
  cases heffects : s.effectsActive with
  | false =>
    simp only [Bool.false_eq_true,↓reduceIte,wp_bind,wp_get]
    exact (wp_bind _ _).mp (hloops false s rfl rfl)
  | true =>
    simp only [↓reduceIte,wp_bind,wp_notes,wp_get]
    refine recover_eq _ _ ?_
    intro y t₀
    obtain ⟨hdesired,hadopted⟩ := recovered_frame s.journal (byInstallation list)
    exact (wp_bind _ _).mp (hloops true { s with
      journal := s.journal.recovered (byInstallation list)
      history := s.history ++ [.observed (byInstallation list)] } hdesired hadopted)

/-- What a handover compares, and the journal it leaves behind if all agrees. -/
theorem handover_eq {cp : TsCheckpoint} {list : List ObservedWorkload} :
    (handover cp (.ok list)).wp anywhere (fun _ _ r t => ∀ report,r = .ok report →
      report.effectsEnabled = true →
        (cp.workloads.foldl (compares s.journal.desiredPlans (byInstallation list)) ([],[])).1 = [] ∧
        t = { s with
          journal := ((cp.workloads.foldl (compares s.journal.desiredPlans (byInstallation list))
            ([],[])).2.foldl Journal.adopt ((s.journal.setEffectsEnabled false).saveCheckpoint
              cp)).setEffectsEnabled true }) x s₀ s := by
  have hplans : ((s.journal.setEffectsEnabled false).saveCheckpoint cp).desiredPlans =
      s.journal.desiredPlans := rfl
  simp only [handover,wp_bind]
  refine (wp_writes _).mpr ⟨trivial,?_⟩
  intro _
  dsimp only
  split
  · rw [wp_pure]
    intro report heq henabled
    cases heq
    cases henabled
  · simp only [wp_bind]
    refine (wp_writes _).mpr ⟨trivial,?_⟩
    intro _
    simp only [wp_get,hplans]
    split
    · rw [wp_pure]
      intro report heq henabled
      cases heq
      cases henabled
    next hagrees =>
      simp only [wp_bind]
      refine adopts_eq _ ?_
      intro _ _
      refine (wp_writes _).mpr ⟨trivial,?_⟩
      intro _
      rw [wp_pure]
      intro report _ _
      exact ⟨(List.append_eq_nil_iff.mp (not_not.mp hagrees)).1,rfl⟩

/-- A workload of the checkpoint is seen as the checkpoint says. -/
structure Agrees (desired : List Desired) (w : CheckpointWorkload) (o : ObservedWorkload) : Prop where
  desired : ∃ d ∈ desired,d.plan.installation = w.installation ∧ d.plan.generation = w.generation
  labelled : o.legacy = false → o.generation = some w.generation

theorem agrees_of_mismatches {desired : List Desired} {w : CheckpointWorkload}
    {o : ObservedWorkload} (h : mismatchesOf desired w o = []) : Agrees desired w o := by
  rw [mismatchesOf,List.append_eq_nil_iff,List.append_eq_nil_iff] at h
  obtain ⟨⟨_,hdesired⟩,hlabelled⟩ := h
  constructor
  · split at hdesired
    next d hfind =>
      refine ⟨d,List.mem_of_find?_eq_some hfind,by simpa using List.find?_some hfind,?_⟩
      by_contra hne
      rw [if_neg hne] at hdesired
      cases hdesired
    next => cases hdesired
  · intro hlegacy
    by_contra hne
    rw [if_pos ⟨by simp [hlegacy],hne⟩] at hlabelled
    cases hlabelled

/-- What a handover has compared of a checkpoint. -/
theorem compares_spec (desired : List Desired) (seen : OrdMap Text ObservedWorkload)
    (ws : List CheckpointWorkload) :
    ((ws.foldl (compares desired seen) ([],[])).1 = [] →
      ∀ w ∈ ws,∃ o,seen.get? w.installation = some o ∧ Agrees desired w o) ∧
    ∀ a,a ∈ (ws.foldl (compares desired seen) ([],[])).2 ↔ ∃ w ∈ ws,∃ o,
      seen.get? w.installation = some o ∧ o.legacy = true ∧
        a = ⟨w.installation,w.generation,o.runtimeId,o.image⟩ := by
  refine foldl_history (I := fun (before : List CheckpointWorkload)
    (acc : List Text × List Adopted) =>
      (acc.1 = [] → ∀ w ∈ before,∃ o,seen.get? w.installation = some o ∧ Agrees desired w o) ∧
      ∀ a,a ∈ acc.2 ↔ ∃ w ∈ before,∃ o,seen.get? w.installation = some o ∧ o.legacy = true ∧
        a = ⟨w.installation,w.generation,o.runtimeId,o.image⟩) ?_ (by simp)
  intro acc before w after _ ih
  rw [compares]
  cases hobs : seen.get? w.installation with
  | none =>
    dsimp only
    refine ⟨fun h => by simp at h,?_⟩
    intro a
    rw [ih.2]
    simp [List.mem_append,hobs,or_and_right,exists_or]
  | some o =>
    dsimp only
    constructor
    · intro h w' hw'
      rw [List.append_eq_nil_iff] at h
      rcases List.mem_append.mp hw' with hw' | hw'
      · exact ih.1 h.1 w' hw'
      · rw [List.mem_singleton] at hw'
        subst hw'
        exact ⟨o,hobs,agrees_of_mismatches h.2⟩
    · intro a
      cases hlegacy : o.legacy with
      | false =>
        rw [if_neg (by simp),ih.2]
        simp [List.mem_append,hobs,or_and_right,exists_or,hlegacy]
      | true =>
        rw [if_pos rfl,List.mem_append,ih.2]
        simp [List.mem_append,hobs,or_and_right,exists_or,hlegacy]

/-- An installation that is adopted, always with the same generation and id. -/
theorem adopted_of_adopts {list : List Adopted} {j : Journal} {generation : Nat} {rid : Text}
    (hsame : ∀ a ∈ list,a.installation = i → a.generation = generation ∧ a.runtimeId = rid)
    (hone : ∃ a ∈ list,a.installation = i) :
    ∃ a,(list.foldl Journal.adopt j).adopted.get? i = some a ∧ a.generation = stored generation ∧
      a.runtimeId = rid := by
  have hfold := foldl_history (l := list) (f := Journal.adopt) (b := j)
    (I := fun before j' => (∃ a ∈ before,a.installation = i) →
      ∃ a,j'.adopted.get? i = some a ∧ a.generation = stored generation ∧ a.runtimeId = rid) ?_
    (by simp)
  · exact hfold hone
  · intro j' before a after heq ih hadopts
    rw [Journal.adopt,OrdMap.get?_set]
    by_cases hi : i = a.installation
    · rw [if_pos hi]
      obtain ⟨hgeneration,hrid⟩ := hsame a (by rw [heq]; simp) hi.symm
      exact ⟨_,rfl,by rw [hgeneration],hrid⟩
    · rw [if_neg hi]
      refine ih ?_
      obtain ⟨b,hb,hbi⟩ := hadopts
      rcases List.mem_append.mp hb with hb | hb
      · exact ⟨b,hb,hbi⟩
      · rw [List.mem_singleton] at hb
        subst hb
        exact absurd hbi.symm hi

/-- What is held for review depends on the operations alone. -/
theorem blockedIn_congr {c : Controller} (c' : Controller)
    (h : c.journal.ops = c'.journal.ops) (effects : Bool) (seen : OrdMap Text ObservedWorkload) :
    blockedIn c effects seen = blockedIn c' effects seen := by
  have hrecovered : (c.journal.recovered seen).ops = (c'.journal.recovered seen).ops := by
    rw [Journal.recovered,Journal.recovered,Journal.pending,Journal.pending,h]
    refine foldl_related (fun j j' : Journal => j.ops = j'.ops) _ ?_ h
    intro j j' op _ heq
    simp only [Journal.recoverOp,Journal.settle,heq]
  rw [blockedIn,blockedIn,Journal.needsReview,Journal.needsReview]
  cases effects with
  | false =>
    simp only [Bool.false_eq_true,↓reduceIte]
    rw [h]
  | true =>
    simp only [↓reduceIte]
    rw [hrecovered]

theorem mem_desiredPlans {j : Journal} {d : Desired} (h : d ∈ j.desiredPlans) :
    j.desired.get? d.plan.installation = some d.plan ∧ d.digest = d.plan.digest := by
  obtain ⟨e,he,rfl⟩ := List.mem_map.mp h
  have hget := mem_ascending.mp he
  refine ⟨?_,rfl⟩
  rw [j.keyed e.1 e.2 hget]
  exact hget

theorem adopt_frame (list : List Adopted) (j : Journal) :
    (list.foldl Journal.adopt j).ops = j.ops ∧ (list.foldl Journal.adopt j).desired = j.desired := by
  refine foldl_keeps (I := fun j' : Journal => j'.ops = j.ops ∧ j'.desired = j.desired) _ ?_
    ⟨rfl,rfl⟩
  intro j' a _ h
  exact h

theorem desiredPlans_ext {j : Journal} {d d' : Desired} (hd : d ∈ j.desiredPlans)
    (hd' : d' ∈ j.desiredPlans) (h : d'.plan.installation = d.plan.installation) : d' = d := by
  obtain ⟨hget,hdigest⟩ := mem_desiredPlans hd
  obtain ⟨hget',hdigest'⟩ := mem_desiredPlans hd'
  rw [h,hget,Option.some.injEq] at hget'
  cases d
  cases d'
  simp_all

/-- A workload without labels is adopted as it is planned, so that it matches its plan;
one with labels matches by its digest alone. -/
theorem planMatches_adopted {j : Journal} (j' : Journal) {seen : OrdMap Text ObservedWorkload}
    {ws : List CheckpointWorkload} {adoptions : List Adopted} {w : CheckpointWorkload}
    {o : ObservedWorkload} {d : Desired}
    (hcompared : ∀ w ∈ ws,∃ o,seen.get? w.installation = some o ∧ Agrees j.desiredPlans w o)
    (hadopts : ∀ a,a ∈ adoptions ↔ ∃ w ∈ ws,∃ o,seen.get? w.installation = some o ∧
      o.legacy = true ∧ a = ⟨w.installation,w.generation,o.runtimeId,o.image⟩)
    (hw : w ∈ ws) (hobs : seen.get? w.installation = some o) (hd : d ∈ j.desiredPlans)
    (hinst : d.plan.installation = w.installation) :
    planMatches d o ((adoptions.foldl Journal.adopt j').adopted.get? w.installation) =
      (o.legacy || decide (o.planDigest = some d.digest)) := by
  rw [planMatches]
  cases hlegacy : o.legacy with
  | false => simp
  | true =>
    have hadopted : ∃ a,(adoptions.foldl Journal.adopt j').adopted.get? w.installation = some a ∧
        a.generation = stored d.plan.generation ∧ a.runtimeId = o.runtimeId := by
      refine adopted_of_adopts ?_ ⟨_,(hadopts _).mpr ⟨w,hw,o,hobs,hlegacy,rfl⟩,rfl⟩
      intro a ha hai
      obtain ⟨w',hw',o',hobs',_,rfl⟩ := (hadopts a).mp ha
      obtain ⟨_,_,⟨d',hd',hinst',hgeneration'⟩,_⟩ := hcompared w' hw'
      have hwi : w'.installation = w.installation := hai
      have hsame := desiredPlans_ext hd hd' (by rw [hinst',hwi,hinst])
      rw [hwi,hobs,Option.some.injEq] at hobs'
      exact ⟨by rw [← hgeneration',hsame],by rw [hobs']⟩
    obtain ⟨a,ha,hgen,hrid⟩ := hadopted
    have hbound := d.plan.valid.2
    have hstored : stored d.plan.generation = d.plan.generation := by
      rw [stored]
      omega
    rw [ha]
    simp [hgen,hrid,hstored]

/-- The pass after a handover that enabled effects decides to stop or delete none of the
workloads it took over, exactly where each of those with labels carries the digest of
its plan or is held for review. -/
theorem handover_spares_workloads_iff {c c₁ c₂ : Controller} {cp : TsCheckpoint}
    {list : List ObservedWorkload} {answers pass : List Answer} {taken : HandoverReport}
    {report : Report} (hover : (handover cp (.ok list)).alone answers c = (c₁,.done (.ok taken)))
    (henabled : taken.effectsEnabled = true)
    (hpass : (reconcile (.ok list)).alone pass c₁ = (c₂,.done (.ok report))) :
    (∀ w ∈ cp.workloads,report.destroys w.installation = false) ↔
      ∀ w ∈ cp.workloads,labelledAsPlanned c (byInstallation list) w = true := by
  obtain ⟨hagrees,rfl⟩ := handover_eq.ends hover taken rfl henabled
  obtain ⟨hcompared,hadopts⟩ := compares_spec c.journal.desiredPlans (byInstallation list)
    cp.workloads
  generalize (cp.workloads.foldl (compares c.journal.desiredPlans (byInstallation list))
    ([],[])).2 = adoptions at *
  obtain ⟨hops,hdesired⟩ := adopt_frame adoptions
    ((c.journal.setEffectsEnabled false).saveCheckpoint cp)
  refine forall₂_congr ?_
  intro w hw
  obtain ⟨o,hobs,⟨d,hd,hinst,_⟩,_⟩ := hcompared hagrees w hw
  obtain ⟨hget,hdigest⟩ := mem_desiredPlans hd
  -- the plans are those of the controller before
  have hplans : ((adoptions.foldl Journal.adopt ((c.journal.setEffectsEnabled
      false).saveCheckpoint cp)).setEffectsEnabled true).desiredPlans = c.journal.desiredPlans :=
    desiredPlans_congr hdesired
  have hdecides := (reconcile_decides (i := w.installation) (by
    rw [hplans]
    exact List.mem_map.mpr ⟨d,hd,hinst⟩)).ends hpass report rfl
  dsimp only at hdecides
  rw [hplans,blockedIn_congr c hops,hobs] at hdecides
  have hactive : Controller.effectsActive { c with journal := (adoptions.foldl Journal.adopt
      ((c.journal.setEffectsEnabled false).saveCheckpoint cp)).setEffectsEnabled true } =
      decide (c.mode = .effects) := by
    simp [Controller.effectsActive,Journal.setEffectsEnabled]
  rw [hactive] at hdecides
  have hmatches := planMatches_adopted
    ((c.journal.setEffectsEnabled false).saveCheckpoint cp) (hcompared hagrees) hadopts hw hobs hd
    hinst
  have hone : (∃ d' ∈ c.journal.desiredPlans,d'.plan.installation = w.installation ∧
      w.installation ∉ blockedIn c (decide (c.mode = .effects)) (byInstallation list) ∧
      (!planMatches d' o ((adoptions.foldl Journal.adopt ((c.journal.setEffectsEnabled
        false).saveCheckpoint cp)).adopted.get? w.installation)) = true) ↔
      w.installation ∉ blockedIn c (decide (c.mode = .effects)) (byInstallation list) ∧
      (o.legacy || decide (o.planDigest = some d.digest)) = false := by
    constructor
    · intro h
      obtain ⟨d',hd',hinst',hfree,hnot⟩ := h
      rw [desiredPlans_ext hd hd' (hinst'.trans hinst.symm),hmatches] at hnot
      exact ⟨hfree,by simpa using hnot⟩
    · intro h
      refine ⟨d,hd,hinst,h.1,?_⟩
      rw [hmatches,h.2]
      rfl
  have hiff := hdecides.trans hone
  rw [labelledAsPlanned,hobs,← hinst,hget,Option.all_some,Option.any_some,hinst]
  rw [← Bool.not_eq_true,hiff]
  simp only [Bool.or_eq_false_iff,Bool.or_eq_true,List.contains_iff_mem]
  rw [hdigest]
  cases o.legacy <;> cases decide (o.planDigest = some d.plan.digest) <;> simp

end

/-- The workload at its second generation, with a digest on its label. -/
def labelled (digest : Char) : ObservedWorkload where
  runtimeId := ['r']
  name := ['n']
  installation := ['a']
  generation := some 2
  planDigest := some [digest]
  image := ['i']
  state := .running

/-- The controller before this one ran it. -/
def ranSecond : TsCheckpoint := ⟨0,true,[⟨['a'],2,['i'],true⟩]⟩

/-- The workload is wanted at its second generation. -/
def wantsSecond : Controller := step (.fresh .effects) (.setDesired second,[.ok []])

theorem handover_spares_workloads_iff_labelled :
    (∀ w ∈ ranSecond.workloads,Report.destroys ⟨[],true,[],[],[]⟩ w.installation = false) ↔
      ∀ w ∈ ranSecond.workloads,
        labelledAsPlanned wantsSecond (byInstallation [labelled 'd']) w = true :=
  handover_spares_workloads_iff
    (rfl : (handover ranSecond (.ok [labelled 'd'])).alone [.ok [],.ok [],.ok []] wantsSecond =
      (_,.done (.ok ⟨[],[],true⟩))) rfl
    (rfl : (reconcile (.ok [labelled 'd'])).alone [] _ = (_,.done (.ok ⟨[],true,[],[],[]⟩)))

/-- A workload whose label carries another digest is taken over, and then destroyed. -/
theorem handover_destroys_relabelled : ¬ ∀ (c c₁ c₂ : Controller) (cp : TsCheckpoint)
    (list : List ObservedWorkload) (answers pass : List Answer) (taken : HandoverReport)
    (report : Report),(handover cp (.ok list)).alone answers c = (c₁,.done (.ok taken)) →
    taken.effectsEnabled = true →
    (reconcile (.ok list)).alone pass c₁ = (c₂,.done (.ok report)) →
    ∀ w ∈ cp.workloads,report.destroys w.installation = false := by
  intro h
  have hspared := h wantsSecond _ _ ranSecond [labelled 'e'] [.ok [],.ok [],.ok []]
    [.ok [],.error (.definite []),.ok []] _ _ rfl rfl rfl ⟨['a'],2,['i'],true⟩ (by decide)
  cases hspared

end Flagship.Core

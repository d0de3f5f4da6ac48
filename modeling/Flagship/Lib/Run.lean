import Mathlib.Data.List.Induction

namespace Flagship.Lib

section
variable {σ ι : Type} (step : σ → ι → σ)

/-- The state after every operation of a list, in order. -/
def run (s : σ) (ops : List ι) : σ := ops.foldl step s

/-- A condition on the state before each operation and the operation itself,
required at every operation of a run. -/
def Along (cond : σ → ι → Prop) : σ → List ι → Prop
  | _,[] => True
  | s,op :: ops => cond s op ∧ Along cond (step s op) ops

instance Along.decidable (cond : σ → ι → Prop) [∀ s op, Decidable (cond s op)] :
    ∀ s ops, Decidable (Along step cond s ops)
  | _,[] => isTrue trivial
  | s,op :: ops =>
    have := Along.decidable cond (step s op) ops
    inferInstanceAs (Decidable (_ ∧ _))

@[simp] theorem run_nil (s : σ) : run step s [] = s := rfl

@[simp] theorem run_cons (s : σ) (op : ι) (ops : List ι) :
    run step s (op :: ops) = run step (step s op) ops := rfl

theorem run_append (s : σ) (before after : List ι) :
    run step s (before ++ after) = run step (run step s before) after :=
  List.foldl_append

variable {step} {cond : σ → ι → Prop}

theorem along_append {s : σ} {before after : List ι} :
    Along step cond s (before ++ after) ↔
      Along step cond s before ∧ Along step cond (run step s before) after := by
  induction before generalizing s with
  | nil => simp [Along]
  | cons op ops ih => simp only [List.cons_append,Along,ih,run_cons,and_assoc]

theorem along_iff {s : σ} {ops : List ι} : Along step cond s ops ↔
    ∀ before op after, ops = before ++ op :: after → cond (run step s before) op := by
  constructor
  · rintro h before op after rfl
    exact (along_append.mp h).2.1
  · intro h
    induction ops generalizing s with
    | nil => trivial
    | cons op ops ih =>
      refine ⟨h [] op ops rfl,ih fun before op' after heq => ?_⟩
      exact h (op :: before) op' after (by rw [heq,List.cons_append])

/-- A property which every conditioned step preserves holds at the end of
every conditioned run. -/
theorem Along.invariant {I : σ → Prop}
    (hstep : ∀ s op, I s → cond s op → I (step s op))
    {s : σ} {ops : List ι} (hs : I s) (ha : Along step cond s ops) :
    I (run step s ops) := by
  induction ops generalizing s with
  | nil => exact hs
  | cons op ops ih => exact ih (hstep s op hs ha.1) ha.2

/-- What every conditioned step preserves may be used as part of the condition. -/
theorem Along.with_invariant {I : σ → Prop} (hstep : ∀ s op, I s → cond s op → I (step s op))
    {s : σ} {ops : List ι} (hs : I s) (ha : Along step cond s ops) :
    Along step (fun s op => cond s op ∧ I s) s ops := by
  induction ops generalizing s with
  | nil => trivial
  | cons op ops ih => exact ⟨⟨ha.1,hs⟩,ih (hstep s op hs ha.1) ha.2⟩

/-- What holds of the operations so far and the state they led to holds of a
whole conditioned run, where each step keeps it. -/
theorem Along.history {I : List ι → σ → Prop} {s : σ} {ops : List ι} (h0 : I [] s)
    (hstep : ∀ before op after, ops = before ++ op :: after → I before (run step s before) →
      cond (run step s before) op → I (before ++ [op]) (step (run step s before) op))
    (ha : Along step cond s ops) : I ops (run step s ops) := by
  suffices h : ∀ before after, ops = before ++ after → I before (run step s before) from
    h ops [] (List.append_nil ops).symm
  intro before
  induction before using List.reverseRecOn with
  | nil => exact fun _ _ => h0
  | append_singleton before op ih =>
    intro after heq
    have heq' : ops = before ++ op :: after := by
      rw [heq,List.append_assoc,List.singleton_append]
    rw [run_append]
    exact hstep before op after heq' (ih _ heq') (along_iff.mp ha _ _ _ heq')

theorem run_invariant {I : σ → Prop} (hstep : ∀ s op, I s → I (step s op))
    {s : σ} (hs : I s) (ops : List ι) : I (run step s ops) := by
  induction ops generalizing s with
  | nil => exact hs
  | cons op ops ih => exact ih (hstep s op hs)

/-- A preorder which every conditioned step keeps to is kept by every stretch of
a conditioned run. -/
theorem Along.stretch {I : σ → Prop} {R : σ → σ → Prop} (hrefl : ∀ s,R s s)
    (htrans : ∀ a b c,R a b → R b c → R a c) (hI : ∀ s op,I s → cond s op → I (step s op))
    (hcond : ∀ s op,I s → cond s op → R s (step s op)) {s : σ} {first middle last : List ι}
    (hs : I s) (h : Along step cond s (first ++ middle ++ last)) :
    R (run step s first) (run step s (first ++ middle)) := by
  rw [List.append_assoc] at h
  have hfirst := Along.invariant hI hs (along_append.mp h).1
  have hmiddle := (along_append.mp (along_append.mp h).2).1
  rw [run_append]
  clear h
  generalize run step s first = t at hfirst hmiddle
  induction middle generalizing t with
  | nil => exact hrefl t
  | cons op ops ih =>
    exact htrans _ _ _ (hcond t op hfirst hmiddle.1)
      (ih (step t op) (hI t op hfirst hmiddle.1) hmiddle.2)

/-- Where the condition on a step says just that it keeps to a preorder, a run
meets it exactly when every stretch of the run keeps to the preorder. -/
theorem along_iff_related {I : σ → Prop} {R : σ → σ → Prop} (hrefl : ∀ s,R s s)
    (htrans : ∀ a b c,R a b → R b c → R a c) (hI : ∀ s op,I s → I (step s op))
    (hcond : ∀ s op,I s → (cond s op ↔ R s (step s op))) {s : σ} (hs : I s) {ops : List ι} :
    Along step cond s ops ↔
      ∀ first middle last,ops = first ++ middle ++ last →
        R (run step s first) (run step s (first ++ middle)) := by
  constructor
  · rintro h first middle last rfl
    exact Along.stretch hrefl htrans (fun s op hs _ => hI s op hs)
      (fun s op hs hc => (hcond s op hs).mp hc) hs h
  · intro h
    refine along_iff.mpr fun before op after heq => (hcond _ op (run_invariant hI hs before)).mpr ?_
    have hone := h before [op] after (by rw [heq,List.append_assoc,List.singleton_append])
    rwa [run_append] at hone

/-- Two conditions which agree wherever an invariant holds are met by the same
runs. -/
theorem along_congr {I : σ → Prop} {cond' : σ → ι → Prop}
    (hstep : ∀ s op, I s → I (step s op)) (hcond : ∀ s op, I s → (cond s op ↔ cond' s op))
    {s : σ} (hs : I s) (ops : List ι) : Along step cond s ops ↔ Along step cond' s ops := by
  induction ops generalizing s with
  | nil => exact Iff.rfl
  | cons op ops ih => exact and_congr (hcond s op hs) (ih (hstep s op hs))

end
end Flagship.Lib

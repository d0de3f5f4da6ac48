import Mathlib.Logic.Relation

namespace Flagship.Lib

section
variable {ε α β : Type}

theorem bind_ok {x : Except ε α} {f : α → Except ε β} {r : β} (h : x >>= f = .ok r) :
    ∃ a,x = .ok a ∧ f a = .ok r := by
  cases x with
  | error e => cases h
  | ok a => exact ⟨a,rfl,h⟩

/-- A check that refuses, and what follows it. -/
theorem unless_ok {c : Prop} [Decidable c] {e : ε} {f : PUnit → Except ε α} {r : α}
    (h : (if c then throw e >>= f else f ⟨⟩) = .ok r) : ¬ c ∧ f ⟨⟩ = .ok r := by
  by_cases hc : c
  · rw [if_pos hc] at h
    cases h
  · rw [if_neg hc] at h
    exact ⟨hc,h⟩

end

/-- A loop: its body ends it with a result, or goes round again from a smaller state. -/
structure While (σ ε α : Type) where
  step : σ → Except ε (α ⊕ σ)
  size : σ → Nat
  smaller : ∀ s s',step s = .ok (.inr s') → size s' < size s

namespace While
variable {σ τ ε α β : Type} (l : While σ ε α)

def go : (n : Nat) → (s : σ) → l.size s < n → Except ε α
  | n + 1,s,h =>
    match hs : l.step s with
    | .error e => .error e
    | .ok (.inl a) => .ok a
    | .ok (.inr s') => go n s' (Nat.lt_of_lt_of_le (l.smaller s s' hs) (Nat.le_of_lt_succ h))

def run (s : σ) : Except ε α := l.go (l.size s + 1) s (Nat.lt_succ_self _)

theorem go_eq {n m : Nat} {s : σ} (hn : l.size s < n) (hm : l.size s < m) :
    l.go n s hn = l.go m s hm := by
  induction n generalizing m s with
  | zero => exact absurd hn (Nat.not_lt_zero _)
  | succ n ih =>
    cases m with
    | zero => exact absurd hm (Nat.not_lt_zero _)
    | succ m =>
      simp only [go]
      split
      · rfl
      · rfl
      · exact ih _ _

variable {l} {s s' : σ}

theorem run_error {e : ε} (h : l.step s = .error e) : l.run s = .error e := by
  simp only [run,go]
  split <;> simp_all

theorem run_done {a : α} (h : l.step s = .ok (.inl a)) : l.run s = .ok a := by
  simp only [run,go]
  split <;> simp_all

theorem run_more (h : l.step s = .ok (.inr s')) : l.run s = l.run s' := by
  rw [run,go]
  split
  · simp_all
  · simp_all
  · rename_i t ht
    rw [h] at ht
    cases ht
    exact l.go_eq _ _

/-- One round leads from one state to the other. -/
def Next (l : While σ ε α) (s s' : σ) : Prop := l.step s = .ok (.inr s')

/-- Some rounds do. -/
def Reaches (l : While σ ε α) : σ → σ → Prop := Relation.ReflTransGen l.Next

/-- What holds of a run is shown round by round, from its last. -/
theorem run_induction {P : σ → Except ε α → Prop}
    (herror : ∀ s e,l.step s = .error e → P s (.error e))
    (hdone : ∀ s a,l.step s = .ok (.inl a) → P s (.ok a))
    (hmore : ∀ s s',l.step s = .ok (.inr s') → P s' (l.run s') → P s (l.run s')) (s : σ) :
    P s (l.run s) := by
  induction hn : l.size s using Nat.strongRecOn generalizing s with
  | ind n ih =>
    subst hn
    rcases hs : l.step s with e | a | s'
    · rw [run_error hs]
      exact herror s e hs
    · rw [run_done hs]
      exact hdone s a hs
    · rw [run_more hs]
      exact hmore s s' hs (ih _ (l.smaller s s' hs) s' rfl)

end While
end Flagship.Lib

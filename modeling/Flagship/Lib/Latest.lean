import Mathlib.Order.Lattice
import Flagship.Lib.Run

namespace Flagship.Lib

/-- A register that takes a value only with a time later than its last one. -/
structure Latest (τ α : Type) where
  last : Option τ
  value : α

namespace Latest
variable {τ α β : Type} [LinearOrder τ]

def stale (s : Latest τ α) (t : τ) : Bool := s.last.any (fun l => decide (t ≤ l))

def step (s : Latest τ α) (op : τ × α) : Latest τ α :=
  if s.stale op.1 then s else ⟨some op.1,op.2⟩

theorem stale_of_le {s : Latest τ α} {t u : τ} (h : t ≤ u) (hu : s.stale u = true) :
    s.stale t = true := by
  obtain ⟨l,hl,hle⟩ := (Option.any_eq_true _ _).mp hu
  refine (Option.any_eq_true _ _).mpr ⟨l,hl,?_⟩
  rw [decide_eq_true_eq] at hle ⊢
  exact h.trans hle

/-- What a register that saw these operations looks like: all it saw is stale
now, and it holds its first value or one it saw. -/
structure Saw (s : Latest τ α) (ops : List (τ × α)) (s' : Latest τ α) : Prop where
  stale : ∀ t, s'.stale t = true ↔ s.stale t = true ∨ ∃ op ∈ ops, t ≤ op.1
  held : s' = s ∨ ∃ op ∈ ops, s.stale op.1 = false ∧ s' = ⟨some op.1,op.2⟩

theorem step_stale (s : Latest τ α) (op : τ × α) (t : τ) :
    (s.step op).stale t = true ↔ s.stale t = true ∨ t ≤ op.1 := by
  unfold step
  by_cases h : s.stale op.1 = true
  · rw [if_pos h]
    exact ⟨Or.inl,fun ht => ht.elim id fun hle => stale_of_le hle h⟩
  · rw [if_neg h]
    simp only [stale,Option.any_some,decide_eq_true_eq]
    refine ⟨Or.inr,fun ht => ht.elim (fun hs => ?_) id⟩
    obtain ⟨l,hl,hle⟩ := (Option.any_eq_true _ _).mp hs
    simp only [stale,hl,Option.any_some,decide_eq_true_eq,not_le] at h hle
    exact hle.trans h.le

theorem Saw.start (s : Latest τ α) : Saw s [] s := ⟨by simp,Or.inl rfl⟩

theorem Saw.snoc {s s' : Latest τ α} {ops : List (τ × α)} (h : Saw s ops s') (op : τ × α) :
    Saw s (ops ++ [op]) (s'.step op) := by
  refine ⟨fun t => ?_,?_⟩
  · rw [step_stale,h.stale]
    simp only [List.mem_append,List.mem_singleton]
    constructor
    · rintro ((hs | ⟨x,hx,hle⟩) | hle)
      · exact Or.inl hs
      · exact Or.inr ⟨x,Or.inl hx,hle⟩
      · exact Or.inr ⟨op,Or.inr rfl,hle⟩
    · rintro (hs | ⟨x,hx | rfl,hle⟩)
      · exact Or.inl (Or.inl hs)
      · exact Or.inl (Or.inr ⟨x,hx,hle⟩)
      · exact Or.inr hle
  · unfold step
    by_cases hst : s'.stale op.1 = true
    · rw [if_pos hst]
      rcases h.held with he | ⟨x,hx,hs,he⟩
      · exact Or.inl he
      · exact Or.inr ⟨x,List.mem_append_left _ hx,hs,he⟩
    · rw [if_neg hst]
      refine Or.inr ⟨op,by simp,?_,rfl⟩
      rw [← Bool.not_eq_true]
      exact fun hs => hst ((h.stale _).mpr (Or.inl hs))

/-- The register saw the operations of every run whose steps each do one on it
or leave it alone. -/
theorem saw_run {σ ι : Type} {next : σ → ι → σ} {cond : σ → ι → Prop} (reg : σ → Latest τ α)
    (op : ι → Option (τ × α))
    (hstep : ∀ s i, cond s i → reg (next s i) = (op i).elim (reg s) (reg s).step)
    {s : σ} {l : List ι} (h : Along next cond s l) :
    Saw (reg s) (l.filterMap op) (reg (run next s l)) := by
  refine h.history (I := fun before s' => Saw (reg s) (before.filterMap op) (reg s'))
    (Saw.start _) fun before i _ _ hsaw hc => ?_
  rw [hstep _ _ hc,List.filterMap_append,List.filterMap_cons,List.filterMap_nil]
  cases op i with
  | none => simpa using hsaw
  | some x => exact hsaw.snoc x

/-- The newest of the operations, where they count at all, agree. -/
def Decided (s : Latest τ α) (ops : List (τ × α)) (g : α → β) : Prop :=
  ∀ x ∈ ops, ∀ y ∈ ops, s.stale x.1 = false → x.1 = y.1 → (∀ z ∈ ops, z.1 ≤ x.1) → g x.2 = g y.2

/-- Two registers that saw the same operations agree on what the newest of
these agree on. -/
theorem Saw.agree {s a b : Latest τ α} {ops ops' : List (τ × α)} (ha : Saw s ops a)
    (hb : Saw s ops' b) (hsame : ∀ op, op ∈ ops ↔ op ∈ ops') (g : α → β)
    (hties : s.Decided ops g) : g a.value = g b.value := by
  have hnew : ∀ {c : Latest τ α} {l : List (τ × α)}, Saw s l c → ∀ x ∈ l,
      c = ⟨some x.1,x.2⟩ → ∀ z ∈ l, z.1 ≤ x.1 := by
    rintro c l hc x hx rfl z hz
    have := (hc.stale z.1).mpr (Or.inr ⟨z,hz,le_rfl⟩)
    simpa [Latest.stale] using this
  have hmoved : ∀ {d : Latest τ α} {l m : List (τ × α)}, Saw s m d →
      (∀ op, op ∈ l ↔ op ∈ m) → ∀ x ∈ l, s.stale x.1 = false → d ≠ s := by
    rintro d l m hd hlm x hx hs rfl
    have := (hd.stale x.1).mpr (Or.inr ⟨x,(hlm x).mp hx,le_rfl⟩)
    rw [hs] at this
    cases this
  rcases ha.held with he | ⟨x,hx,hs,he⟩
  · rcases hb.held with he' | ⟨y,hy,hs',he'⟩
    · rw [he,he']
    · exact absurd he (hmoved ha (fun op => (hsame op).symm) y hy hs')
  · rcases hb.held with he' | ⟨y,hy,hs',he'⟩
    · exact absurd he' (hmoved hb hsame x hx hs)
    · have hmax := hnew ha x hx he
      have hmax' := hnew hb y hy he'
      have hxy := le_antisymm (hmax' x ((hsame x).mp hx)) (hmax y ((hsame y).mpr hy))
      rw [he,he']
      exact hties x hx y ((hsame y).mpr hy) hs hxy hmax

end Latest
end Flagship.Lib

import Mathlib.Algebra.BigOperators.Field
import Mathlib.LinearAlgebra.Lagrange

namespace Flagship.Lib
open Finset

variable {F : Type} [Field F] {k : Nat}

/-- Only the zero vector is sent to zero by a matrix of `k` rows and columns. -/
def Nonsingular (k : Nat) (a : Nat → Nat → F) : Prop :=
  ∀ v : Nat → F, (∀ r < k, ∑ j ∈ range k, a r j * v j = 0) → ∀ j < k, v j = 0

/-- A reduction of `m` which has come to column `col`: the rows are combinations of
those of `m`, recorded in `e`; no solution was lost; and the columns before `col`
are those of the identity. -/
structure Reduced (k : Nat) (m : Nat → Nat → F) (col : Nat) (a e : Nat → Nat → F) : Prop where
  rows : ∀ r < k, ∀ j < k, a r j = ∑ i ∈ range k, e r i * m i j
  kernel : Nonsingular k a
  unit : ∀ j < col, ∀ r < k, a r j = if r = j then 1 else 0

variable {m a e a' e' : Nat → Nat → F} {col : Nat}

theorem Reduced.start (h : Nonsingular k m) (he : ∀ r < k, ∀ i < k, e r i = if r = i then 1 else 0) :
    Reduced k m 0 m e := by
  refine ⟨fun r hr j _ => ?_,h,fun j hj => absurd hj (Nat.not_lt_zero j)⟩
  have hsum : ∑ i ∈ range k, e r i * m i j = ∑ i ∈ range k, if r = i then m i j else 0 := by
    refine sum_congr rfl fun i hi => ?_
    rw [he r hr i (mem_range.mp hi)]
    split
    · ring
    · ring
  rw [hsum,sum_ite_eq,if_pos (mem_range.mpr hr)]

/-- Were the rest of the column zero, a vector other than zero would be lost. -/
theorem Reduced.pivot (h : Reduced k m col a e) (hcol : col < k) :
    ∃ r, col ≤ r ∧ r < k ∧ a r col ≠ 0 := by
  by_contra hnone
  push Not at hnone
  let v : Nat → F := fun j => if j = col then 1 else if j < col then - a j col else 0
  have hzero : ∀ r < k, ∑ j ∈ range k, a r j * v j = 0 := by
    intro r hr
    have hsplit : ∑ j ∈ range k, a r j * v j = a r col + ∑ j ∈ range col, a r j * (- a j col) := by
      rw [← sum_subset (range_subset_range.mpr (Nat.succ_le_of_lt hcol)),sum_range_succ]
      · rw [add_comm]
        congr 1
        · simp [v]
        · refine sum_congr rfl fun j hj => ?_
          have hlt := mem_range.mp hj
          simp [v,hlt,Nat.ne_of_lt hlt]
      · intro j _ hj
        have hge : ¬ j < col + 1 := fun hlt => hj (mem_range.mpr hlt)
        have h1 : j ≠ col := by omega
        have h2 : ¬ j < col := by omega
        simp [v,h1,h2]
    rw [hsplit]
    have hsum : ∑ j ∈ range col, a r j * (- a j col) =
        ∑ j ∈ range col, if r = j then - a j col else 0 := by
      refine sum_congr rfl fun j hj => ?_
      rw [h.unit j (mem_range.mp hj) r hr]
      split
      · ring
      · ring
    rw [hsum,sum_ite_eq]
    split
    · ring
    · rename_i hout
      rw [hnone r (by simpa using hout) hr]
      ring
  have hone := h.kernel v hzero col hcol
  simp [v] at hone

/-- Two rows from `col` on change places. -/
theorem Reduced.swap (h : Reduced k m col a e) {p : Nat} (hcol : col < k) (hp : col ≤ p) (hpk : p < k)
    (ha : ∀ r < k, ∀ j < k, a' r j = a (Equiv.swap col p r) j)
    (he : ∀ r < k, ∀ i < k, e' r i = e (Equiv.swap col p r) i) : Reduced k m col a' e' := by
  have hin : ∀ r < k, Equiv.swap col p r < k := by
    intro r hr
    rw [Equiv.swap_apply_def]
    split
    · exact hpk
    · split
      · exact hcol
      · exact hr
  refine ⟨fun r hr j hj => ?_,fun v hv => h.kernel v fun r hr => ?_,fun j hj r hr => ?_⟩
  · rw [ha r hr j hj,h.rows _ (hin r hr) j hj]
    exact sum_congr rfl fun i hi => by rw [he r hr i (mem_range.mp hi)]
  · rw [← hv _ (hin r hr)]
    refine sum_congr rfl fun j hj => ?_
    rw [ha _ (hin r hr) j (mem_range.mp hj),Equiv.swap_apply_self]
  · rw [ha r hr j (by omega),h.unit j hj _ (hin r hr)]
    have hiff : Equiv.swap col p r = j ↔ r = j := by
      rw [Equiv.swap_apply_def]
      split
      · omega
      · split
        · omega
        · rfl
    simp only [hiff]

/-- The pivot's row is divided by the pivot. -/
theorem Reduced.scale (h : Reduced k m col a e) (hcol : col < k) (hp : a col col ≠ 0)
    (ha : ∀ r < k, ∀ j < k, a' r j = if r = col then a r j / a col col else a r j)
    (he : ∀ r < k, ∀ i < k, e' r i = if r = col then e r i / a col col else e r i) :
    Reduced k m col a' e' ∧ a' col col = 1 := by
  refine ⟨⟨fun r hr j hj => ?_,fun v hv => h.kernel v fun r hr => ?_,fun j hj r hr => ?_⟩,?_⟩
  · have hsum : ∑ i ∈ range k, e' r i * m i j = ∑ i ∈ range k,
        (if r = col then (e r i * m i j) / a col col else e r i * m i j) := by
      refine sum_congr rfl fun i hi => ?_
      rw [he r hr i (mem_range.mp hi)]
      split
      · ring
      · rfl
    rw [ha r hr j hj,hsum]
    split
    · rw [h.rows r hr j hj,sum_div]
    · exact h.rows r hr j hj
  · have hrow := hv r hr
    have hsum : ∑ j ∈ range k, a' r j * v j = ∑ j ∈ range k,
        (if r = col then (a r j * v j) / a col col else a r j * v j) := by
      refine sum_congr rfl fun j hj => ?_
      rw [ha r hr j (mem_range.mp hj)]
      split
      · ring
      · rfl
    rw [hsum] at hrow
    by_cases hr' : r = col
    · simp only [hr',↓reduceIte,← sum_div] at hrow ⊢
      exact (div_eq_zero_iff.mp hrow).resolve_right hp
    · simpa only [hr',↓reduceIte] using hrow
  · rw [ha r hr j (by omega),h.unit j hj r hr]
    split
    · rename_i hr'
      rw [if_neg (by omega),zero_div]
    · rfl
  · rw [ha col hcol col hcol,if_pos rfl,div_self hp]

/-- The pivot's row is taken from every other row as often as clears the column. -/
theorem Reduced.eliminate (h : Reduced k m col a e) (hcol : col < k) (hp : a col col = 1)
    (ha : ∀ r < k, ∀ j < k, a' r j = if r = col then a r j else a r j - a r col * a col j)
    (he : ∀ r < k, ∀ i < k, e' r i = if r = col then e r i else e r i - a r col * e col i) :
    Reduced k m (col + 1) a' e' := by
  refine ⟨fun r hr j hj => ?_,fun v hv => h.kernel v fun r hr => ?_,fun j hj r hr => ?_⟩
  · rw [ha r hr j hj]
    split
    · rename_i hr'
      rw [h.rows r hr j hj]
      refine sum_congr rfl fun i hi => ?_
      rw [he r hr i (mem_range.mp hi),if_pos hr']
    · rename_i hr'
      rw [h.rows r hr j hj,h.rows col hcol j hj,mul_sum,← sum_sub_distrib]
      refine sum_congr rfl fun i hi => ?_
      rw [he r hr i (mem_range.mp hi),if_neg hr']
      ring
  · have hpivot : ∑ j ∈ range k, a col j * v j = 0 := by
      rw [← hv col hcol]
      refine sum_congr rfl fun j hj => ?_
      rw [ha col hcol j (mem_range.mp hj),if_pos rfl]
    by_cases hr' : r = col
    · rw [hr']
      exact hpivot
    · have hrow := hv r hr
      have hsum : ∑ j ∈ range k, a' r j * v j =
          ∑ j ∈ range k, a r j * v j - a r col * ∑ j ∈ range k, a col j * v j := by
        rw [mul_sum,← sum_sub_distrib]
        refine sum_congr rfl fun j hj => ?_
        rw [ha r hr j (mem_range.mp hj),if_neg hr']
        ring
      rw [hsum,hpivot,mul_zero,sub_zero] at hrow
      exact hrow
  · rcases Nat.lt_succ_iff_lt_or_eq.mp hj with hj | rfl
    · rw [ha r hr j (by omega),h.unit j hj r hr,h.unit j hj col hcol,if_neg (by omega : col ≠ j)]
      split
      · rfl
      · ring
    · rw [ha r hr j hcol,hp]
      split
      · rename_i hr'
        rw [hr',hp]
      · ring

/-- Past the last column, the record inverts the matrix. -/
theorem Reduced.finish (h : Reduced k m k a e) {r j : Nat} (hr : r < k) (hj : j < k) :
    ∑ i ∈ range k, e r i * m i j = if r = j then 1 else 0 := by
  rw [← h.rows r hr j hj,h.unit j hj r hr]

end Flagship.Lib

namespace Flagship.Lib
open Finset Polynomial

variable {F : Type} [Field F] {k : Nat}

/-- The numerator of a sum of simple fractions. -/
noncomputable def numerator (x v : Nat → F) (poles : Finset Nat) : F[X] :=
  ∑ j ∈ poles, C (v j) * Lagrange.nodal (poles.erase j) x

theorem degree_numerator_lt (x v : Nat → F) (poles : Finset Nat) :
    (numerator x v poles).degree < max 1 poles.card := by
  refine lt_of_le_of_lt (degree_sum_le _ _) ((Finset.sup_lt_iff (WithBot.bot_lt_coe _)).mpr ?_)
  intro j hj
  have hpos : 0 < poles.card := card_pos.mpr ⟨j,hj⟩
  calc (C (v j) * Lagrange.nodal (poles.erase j) x).degree
      ≤ (C (v j)).degree + (Lagrange.nodal (poles.erase j) x).degree := degree_mul_le _ _
    _ ≤ 0 + ((poles.erase j).card : WithBot Nat) := by
      rw [Lagrange.degree_nodal]
      exact add_le_add degree_C_le (le_refl _)
    _ < max 1 poles.card := by
      rw [zero_add,card_erase_of_mem hj]
      exact_mod_cast (by omega : poles.card - 1 < max 1 poles.card)

/-- Away from the poles, the numerator is the sum times the product of the
denominators. -/
theorem eval_numerator (x v : Nat → F) (poles : Finset Nat) {t : F}
    (ht : ∀ j ∈ poles, t - x j ≠ 0) :
    (numerator x v poles).eval t = (∏ l ∈ poles, (t - x l)) * ∑ j ∈ poles, v j / (t - x j) := by
  simp only [numerator,eval_finsetSum,eval_mul,eval_C,Lagrange.eval_nodal,mul_sum]
  refine sum_congr rfl fun j hj => ?_
  rw [← mul_prod_erase _ _ hj]
  have hne := ht j hj
  field_simp

/-- At a pole, only its own term is left. -/
theorem eval_numerator_pole (x v : Nat → F) (poles : Finset Nat) {j : Nat} (hj : j ∈ poles) :
    (numerator x v poles).eval (x j) = v j * ∏ l ∈ poles.erase j, (x j - x l) := by
  simp only [numerator,eval_finsetSum,eval_mul,eval_C,Lagrange.eval_nodal]
  rw [sum_eq_single j]
  · intro i _ hij
    rw [prod_eq_zero (mem_erase.mpr ⟨Ne.symm hij,hj⟩) (sub_self _),mul_zero]
  · exact fun hout => absurd hj hout

/-- A sum of simple fractions which vanishes at as many points as it has poles has
no residue. -/
theorem residues_eq_zero {x : Nat → F} {poles points : Finset Nat}
    (hinj : Set.InjOn x (poles ∪ points)) (hdisj : Disjoint poles points)
    (hcard : poles.card = points.card) (v : Nat → F)
    (hzero : ∀ i ∈ points, ∑ j ∈ poles, v j / (x i - x j) = 0) : ∀ j ∈ poles, v j = 0 := by
  intro j hj
  have hne : ∀ i ∈ points, ∀ l ∈ poles, x i - x l ≠ 0 := by
    intro i hi l hl heq
    have hil : i = l := hinj (by simp [hi]) (by simp [hl]) (sub_eq_zero.mp heq)
    exact disjoint_left.mp hdisj hl (hil ▸ hi)
  have hp : numerator x v poles = 0 := by
    refine eq_zero_of_degree_lt_of_eval_index_eq_zero points
      (hinj.mono Set.subset_union_right) ?_ fun i hi => ?_
    · have hdegree := degree_numerator_lt x v poles
      rwa [max_eq_right (card_pos.mpr ⟨j,hj⟩),hcard] at hdegree
    · rw [eval_numerator x v poles (hne i hi),hzero i hi,mul_zero]
  have hval := eval_numerator_pole x v poles hj
  rw [hp,eval_zero] at hval
  refine (mul_eq_zero.mp hval.symm).resolve_right (prod_ne_zero_iff.mpr fun l hl => ?_)
  obtain ⟨hlj,hl⟩ := mem_erase.mp hl
  exact sub_ne_zero.mpr fun heq => hlj (hinj (by simp [hj]) (by simp [hl]) heq).symm

/-- The code whose first `k` symbols are the data and whose others are sums of simple
fractions of it. -/
def codeRow (k : Nat) (x : Nat → F) (i j : Nat) : F :=
  if i < k then if i = j then 1 else 0 else 1 / (x i - x j)

/-- Any `k` symbols determine the data. -/
theorem nonsingular_codeRow {x : Nat → F} {indices : Nat → Nat}
    (hindices : Set.InjOn indices (range k))
    (hx : Set.InjOn x (range k ∪ (range k).image indices : Finset Nat)) :
    Nonsingular k (fun r j => codeRow k x (indices r) j) := by
  intro v hv
  let kept := (range k).image indices
  have hcardKept : kept.card = k := by
    rw [card_image_of_injOn hindices,card_range]
  -- a data symbol that is kept is read off its own row
  have hdata : ∀ j < k, j ∈ kept → v j = 0 := by
    intro j hj hkept
    obtain ⟨r,hr,rfl⟩ := mem_image.mp hkept
    have hrow := hv r (mem_range.mp hr)
    simpa [codeRow,hj] using hrow
  have hlost : ∀ j ∈ range k \ kept, v j = 0 := by
    refine residues_eq_zero (hx.mono ?_) (?_ : Disjoint _ (kept \ range k)) ?_ v ?_
    · intro i hi
      simp only [coe_sdiff,Set.mem_union,Set.mem_sdiff,mem_coe] at hi
      rcases hi with hi | hi
      · simp only [coe_union,Set.mem_union,mem_coe]
        exact .inl hi.1
      · simp only [coe_union,Set.mem_union,mem_coe]
        exact .inr hi.1
    · exact disjoint_left.mpr fun i hi hi' => (mem_sdiff.mp hi).2 (mem_sdiff.mp hi').1
    · rw [card_sdiff,card_sdiff,inter_comm,card_range,hcardKept]
    · intro i hi
      obtain ⟨hkept,hparity⟩ := mem_sdiff.mp hi
      obtain ⟨r,hr,rfl⟩ := mem_image.mp hkept
      have hrow := hv r (mem_range.mp hr)
      have hge : ¬ indices r < k := fun hlt => hparity (mem_range.mpr hlt)
      rw [← hrow]
      refine sum_subset_zero_on_sdiff sdiff_subset ?_ ?_
      · intro j hj
        have hk : j ∈ kept := by
          by_contra hout
          exact (mem_sdiff.mp hj).2 (mem_sdiff.mpr ⟨(mem_sdiff.mp hj).1,hout⟩)
        rw [hdata j (mem_range.mp (mem_sdiff.mp hj).1) hk,mul_zero]
      · intro j hj
        simp only [codeRow,hge,↓reduceIte]
        ring
  intro j hj
  by_cases hkept : j ∈ kept
  · exact hdata j hj hkept
  · exact hlost j (mem_sdiff.mpr ⟨mem_range.mpr hj,hkept⟩)

end Flagship.Lib

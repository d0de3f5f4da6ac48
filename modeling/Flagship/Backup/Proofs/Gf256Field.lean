import Mathlib.Algebra.Field.Basic
import Mathlib.Data.Fintype.EquivFin
import Flagship.Backup.Erasure

namespace Flagship.Backup.Proofs
open Backup

variable {a b c : Gf256} {n : Nat}

theorem toNat_lt (a : Gf256) : a.toNat < 256 := a.byte.isLt

theorem toNat_ofNat (h : n < 256) : (Gf256.ofNat n).toNat = n := Nat.mod_eq_of_lt h

theorem gf256_ext (h : a.toNat = b.toNat) : a = b := by
  obtain ⟨a⟩ := a
  obtain ⟨b⟩ := b
  exact congrArg Gf256.mk (BitVec.eq_of_toNat_eq h)

theorem ofNat_toNat (a : Gf256) : Gf256.ofNat a.toNat = a := gf256_ext (toNat_ofNat (toNat_lt a))

theorem toNat_gfAdd (a b : Gf256) : (gfAdd a b).toNat = a.toNat ^^^ b.toNat := BitVec.toNat_xor ..

theorem toNat_zero : (0 : Gf256).toNat = 0 := rfl

/-- Multiplication by alpha. -/
def shift (a : Gf256) : Gf256 := .ofNat (nextPower a.toNat)

/-- The powers of alpha. -/
def power (i : Nat) : Gf256 := shift^[i] 1

theorem nextPower_lt : ∀ n < 256, nextPower n < 256 := by decide +kernel

theorem nextPower_eq : ∀ n < 256,
    nextPower n = (n <<< 1) ^^^ (if n.testBit 7 then 0x11d else 0) := by decide +kernel

theorem nextPower_eq_zero : ∀ n < 256, nextPower n = 0 → n = 0 := by decide +kernel

theorem toNat_shift (a : Gf256) : (shift a).toNat = nextPower a.toNat :=
  toNat_ofNat (nextPower_lt _ (toNat_lt a))

theorem toNat_power (i : Nat) : (power i).toNat = nextPower^[i] 1 := by
  induction i with
  | zero => rfl
  | succ i ih =>
    rw [power,Function.iterate_succ_apply',toNat_shift,← power,ih,Function.iterate_succ_apply']

theorem shift_add (a b : Gf256) : shift (gfAdd a b) = gfAdd (shift a) (shift b) := by
  refine gf256_ext ?_
  have hab := toNat_lt (gfAdd a b)
  rw [toNat_shift,toNat_gfAdd,toNat_gfAdd,toNat_shift,toNat_shift,nextPower_eq _ (toNat_lt a),
    nextPower_eq _ (toNat_lt b),nextPower_eq _ (toNat_gfAdd a b ▸ hab),Nat.shiftLeft_xor_distrib,
    Nat.testBit_xor]
  refine Nat.eq_of_testBit_eq fun i => ?_
  cases a.toNat.testBit 7 <;> cases b.toNat.testBit 7
  all_goals simp [Bool.xor_comm,Bool.xor_left_comm]

theorem shift_zero : shift 0 = 0 := by decide

theorem shift_injective : Function.Injective shift := by
  intro a b h
  have hsum : shift (gfAdd a b) = 0 := by
    rw [shift_add,h]
    exact gf256_ext (by simp [toNat_gfAdd,toNat_zero])
  have hzero : (gfAdd a b).toNat = 0 := by
    refine nextPower_eq_zero _ (toNat_lt _) ?_
    rw [← toNat_shift,hsum]
    rfl
  rw [toNat_gfAdd] at hzero
  have hback := congrArg (· ^^^ b.toNat) hzero
  exact gf256_ext (by simpa [Nat.xor_assoc] using hback)

theorem power_ne_one : ∀ i < 255, 0 < i → nextPower^[i] 1 ≠ 1 := by decide +kernel

theorem power_period : power 255 = 1 := by
  refine gf256_ext ?_
  rw [toNat_power]
  decide +kernel

theorem power_add (i j : Nat) : power (i + j) = shift^[i] (power j) := Function.iterate_add_apply ..

theorem power_injective {i j : Nat} (hj : j < 255) (hij : i ≤ j) (h : power i = power j) : i = j := by
  have hone : power (j - i) = 1 := by
    refine (shift_injective.iterate i) ?_
    rw [← power_add,show i + (j - i) = j by omega,← h]
    rfl
  by_contra hne
  refine power_ne_one (j - i) (by omega) (by omega) ?_
  rw [← toNat_power,hone]
  rfl

theorem power_ne_zero (i : Nat) : power i ≠ 0 := by
  intro h
  have hone : (1 : Gf256) = 0 := by
    refine (shift_injective.iterate i) ?_
    have hz : shift^[i] 0 = 0 := Function.iterate_fixed shift_zero i
    rw [hz]
    exact h
  revert hone
  decide

/-- What the loop leaves in the tables. -/
theorem fillTables_exp (steps i acc : Nat) (t : Tables) (j : Nat) :
    (fillTables steps i acc t).exp j =
      if i ≤ j ∧ j < i + steps then .ofNat (nextPower^[j - i] acc) else t.exp j := by
  induction steps generalizing i acc t with
  | zero =>
    rw [if_neg (by omega)]
    rfl
  | succ steps ih =>
    rw [fillTables,ih]
    by_cases hj : j = i
    · subst hj
      simp
    · by_cases hin : i + 1 ≤ j ∧ j < i + 1 + steps
      · rw [if_pos hin,if_pos (by omega),← Function.iterate_succ_apply,
          show (j - (i + 1)).succ = j - i by omega]
      · rw [if_neg hin,if_neg (by omega)]
        exact Function.update_of_ne hj ..

theorem fillTables_log_of_ne {steps i acc x : Nat} {t : Tables}
    (h : ∀ d < steps, nextPower^[d] acc ≠ x) : (fillTables steps i acc t).log x = t.log x := by
  induction steps generalizing i acc t with
  | zero => rfl
  | succ steps ih =>
    rw [fillTables,ih fun d hd => h (d + 1) (by omega)]
    exact Function.update_of_ne (Ne.symm (h 0 (by omega))) ..

theorem fillTables_log {steps i acc d : Nat} {t : Tables} (hd : d < steps)
    (h : ∀ d' < steps, d < d' → nextPower^[d'] acc ≠ nextPower^[d] acc) :
    (fillTables steps i acc t).log (nextPower^[d] acc) = i + d := by
  induction steps generalizing i acc d t with
  | zero => omega
  | succ steps ih =>
    cases d with
    | zero =>
      rw [fillTables,fillTables_log_of_ne fun d' hd' => h (d' + 1) (by omega) (by omega)]
      exact Function.update_self ..
    | succ d =>
      have hlog : (fillTables steps (i + 1) (nextPower acc)
          ⟨Function.update t.exp i (.ofNat acc),Function.update t.log acc i⟩).log
            (nextPower^[d] (nextPower acc)) = i + 1 + d :=
        ih (by omega) fun d' hd' hlt => h (d' + 1) (by omega) (by omega)
      rw [fillTables,Function.iterate_succ_apply,hlog]
      omega

/-- The wrapped table goes on as it began. -/
theorem wrapExp_eq {steps i j : Nat} {exp f : Nat → Gf256} (hi : 255 ≤ i)
    (h : ∀ j < i, exp j = f (j % 255)) (hj : j < i + steps) : wrapExp steps i exp j = f (j % 255) := by
  induction steps generalizing i exp with
  | zero => exact h j hj
  | succ steps ih =>
    refine ih (by omega) (fun l hl => ?_) (by omega)
    by_cases hli : l = i
    · subst hli
      rw [Function.update_self,h _ (by omega),show (l - 255) % 255 = l % 255 by omega]
    · rw [Function.update_of_ne hli,h l (by omega)]

theorem ofNat_iterate (i : Nat) : Gf256.ofNat (nextPower^[i] 1) = power i := by
  rw [← toNat_power,ofNat_toNat]

theorem tables_exp {j : Nat} (hj : j < 512) : tables.exp j = power (j % 255) := by
  have hfill : ∀ l < 255, (fillTables 255 0 1 ⟨fun _ => 0,fun _ => 0⟩).exp l = power (l % 255) := by
    intro l hl
    rw [fillTables_exp,if_pos ⟨Nat.zero_le l,by omega⟩,Nat.sub_zero,ofNat_iterate,Nat.mod_eq_of_lt hl]
  have hwrap : wrapExp 257 255 (fillTables 255 0 1 ⟨fun _ => 0,fun _ => 0⟩).exp j = power (j % 255) :=
    wrapExp_eq (Nat.le_refl 255) hfill (by omega)
  rw [← hwrap,tables]

theorem tables_log {i : Nat} (hi : i < 255) : tables.log (power i).toNat = i := by
  have hlog : (fillTables 255 0 1 ⟨fun _ => 0,fun _ => 0⟩).log (nextPower^[i] 1) = 0 + i := by
    refine fillTables_log hi fun d' hd' hlt heq => ?_
    have hsame : power i = power d' := gf256_ext (by rw [toNat_power,toNat_power,heq])
    exact absurd (power_injective hd' (by omega) hsame) (by omega)
  rw [toNat_power]
  exact hlog.trans (Nat.zero_add i)

instance : Fintype Gf256 :=
  Fintype.ofEquiv (Fin 256) ⟨fun n => .ofNat n,fun a => ⟨a.toNat,toNat_lt a⟩,
    fun n => Fin.ext (toNat_ofNat n.isLt),ofNat_toNat⟩

/-- Every element but zero is a power of alpha. -/
theorem exists_power (h : a ≠ 0) : ∃ i < 255, power i = a := by
  let f : Fin 255 → { x : Gf256 // x ≠ 0 } := fun i => ⟨power i,power_ne_zero i⟩
  have hinj : Function.Injective f := by
    intro i j hij
    have hp : power i = power j := congrArg Subtype.val hij
    rcases Nat.le_total i j with hle | hle
    · exact Fin.ext (power_injective j.isLt hle hp)
    · exact Fin.ext (power_injective i.isLt hle hp.symm).symm
  have hcard : Fintype.card (Fin 255) = Fintype.card { x : Gf256 // x ≠ 0 } := by
    have hall : Fintype.card Gf256 = 256 := (Fintype.ofEquiv_card _).trans (Fintype.card_fin 256)
    rw [Fintype.card_fin,Fintype.card_subtype_compl,Fintype.card_subtype_eq,hall]
  obtain ⟨i,hi⟩ := ((Fintype.bijective_iff_injective_and_card f).mpr ⟨hinj,hcard⟩).2 ⟨a,h⟩
  exact ⟨i,i.isLt,congrArg Subtype.val hi⟩

/-- The log of an element. -/
def logOf (a : Gf256) : Nat := tables.log a.toNat

theorem power_logOf (h : a ≠ 0) : power (logOf a) = a ∧ logOf a < 255 := by
  obtain ⟨i,hi,rfl⟩ := exists_power h
  rw [logOf,tables_log hi]
  exact ⟨rfl,hi⟩

theorem shift_iterate_add (i : Nat) (a b : Gf256) :
    shift^[i] (gfAdd a b) = gfAdd (shift^[i] a) (shift^[i] b) := by
  induction i with
  | zero => rfl
  | succ i ih => rw [Function.iterate_succ_apply',Function.iterate_succ_apply',
      Function.iterate_succ_apply',ih,shift_add]

theorem shift_iterate_zero (i : Nat) : shift^[i] 0 = 0 := Function.iterate_fixed shift_zero i

theorem shift_period (a : Gf256) : shift^[255] a = a := by
  by_cases ha : a = 0
  · rw [ha]
    exact shift_iterate_zero 255
  · obtain ⟨i,-,rfl⟩ := exists_power ha
    rw [← power_add,Nat.add_comm,power_add,power_period]
    rfl

theorem shift_mod (i : Nat) (a : Gf256) : shift^[i % 255] a = shift^[i] a := by
  have hdiv : i = i % 255 + 255 * (i / 255) := (Nat.mod_add_div i 255).symm
  rw [show shift^[i] a = shift^[i % 255 + 255 * (i / 255)] a by rw [← hdiv],
    Function.iterate_add_apply,Function.iterate_mul,Function.iterate_fixed (shift_period a)]

theorem power_mod (i : Nat) : power (i % 255) = power i := shift_mod i 1

/-- A product is as many shifts as the log of one factor. -/
theorem gfMul_eq (h : a ≠ 0) (b : Gf256) : gfMul a b = shift^[logOf a] b := by
  unfold gfMul
  split
  · rename_i hz
    rw [hz.resolve_left h,shift_iterate_zero]
  · rename_i hz
    obtain ⟨-,hb⟩ := not_or.mp hz
    obtain ⟨-,ha'⟩ := power_logOf h
    obtain ⟨hpb,hb'⟩ := power_logOf hb
    rw [tables_exp (by unfold logOf at ha' hb'; omega),power_mod,← logOf,← logOf,power_add,hpb]

theorem gfMul_comm (a b : Gf256) : gfMul a b = gfMul b a := by
  simp only [gfMul,or_comm,Nat.add_comm]

theorem zero_gfMul (a : Gf256) : gfMul 0 a = 0 := if_pos (.inl rfl)

theorem gfMul_zero (a : Gf256) : gfMul a 0 = 0 := if_pos (.inr rfl)

theorem gfMul_assoc (a b c : Gf256) : gfMul (gfMul a b) c = gfMul a (gfMul b c) := by
  by_cases ha : a = 0
  · rw [ha,zero_gfMul,zero_gfMul,zero_gfMul]
  · by_cases hc : c = 0
    · rw [hc,gfMul_zero,gfMul_zero,gfMul_zero]
    · rw [gfMul_comm _ c,gfMul_comm b c,gfMul_eq hc,gfMul_eq hc,gfMul_eq ha,gfMul_eq ha,
        ← Function.iterate_add_apply,← Function.iterate_add_apply,Nat.add_comm]

theorem gfMul_add (a b c : Gf256) : gfMul a (gfAdd b c) = gfAdd (gfMul a b) (gfMul a c) := by
  by_cases ha : a = 0
  · rw [ha,zero_gfMul,zero_gfMul,zero_gfMul]
    rfl
  · rw [gfMul_eq ha,gfMul_eq ha,gfMul_eq ha,shift_iterate_add]

theorem one_gfMul (a : Gf256) : gfMul 1 a = a := by
  have hone : logOf 1 = 0 := tables_log (i := 0) (by omega)
  rw [gfMul_eq (by decide),hone]
  rfl

theorem gfAdd_comm (a b : Gf256) : gfAdd a b = gfAdd b a :=
  congrArg Gf256.mk (BitVec.xor_comm ..)

/-- What is left of a full turn after `a`'s log. -/
def inverse (a : Gf256) : Gf256 := if a = 0 then 0 else power (255 - logOf a)

theorem inverse_zero : inverse 0 = 0 := if_pos rfl

theorem gfMul_inverse (h : a ≠ 0) : gfMul a (inverse a) = 1 := by
  obtain ⟨-,hlt⟩ := power_logOf h
  rw [gfMul_eq h,inverse,if_neg h,← power_add,show logOf a + (255 - logOf a) = 255 by omega,
    power_period]

instance : Add Gf256 := ⟨gfAdd⟩

instance : Neg Gf256 := ⟨id⟩

instance : Mul Gf256 := ⟨gfMul⟩

instance : Inv Gf256 := ⟨inverse⟩

instance : Field Gf256 where
  add_assoc a b c := congrArg Gf256.mk (BitVec.xor_assoc ..)
  zero_add a := congrArg Gf256.mk BitVec.zero_xor
  add_zero a := congrArg Gf256.mk BitVec.xor_zero
  add_comm := gfAdd_comm
  nsmul := nsmulRec
  neg_add_cancel a := congrArg Gf256.mk BitVec.xor_self
  zsmul := zsmulRec
  mul_assoc := gfMul_assoc
  mul_comm := gfMul_comm
  one_mul := one_gfMul
  mul_one a := (gfMul_comm a 1).trans (one_gfMul a)
  zero_mul := zero_gfMul
  mul_zero := gfMul_zero
  left_distrib := gfMul_add
  right_distrib a b c := by
    change gfMul (gfAdd a b) c = gfAdd (gfMul a c) (gfMul b c)
    rw [gfMul_comm,gfMul_add,gfMul_comm c a,gfMul_comm c b]
  exists_pair_ne := ⟨0,1,by decide⟩
  mul_inv_cancel _ := gfMul_inverse
  inv_zero := inverse_zero
  nnqsmul := _
  nnqsmul_def _ _ := rfl
  qsmul := _
  qsmul_def _ _ := rfl

theorem gfAdd_eq (a b : Gf256) : gfAdd a b = a + b := rfl

theorem gfAdd_eq_sub (a b : Gf256) : gfAdd a b = a - b := (sub_eq_add_neg a b).symm

theorem gfMul_eq_mul (a b : Gf256) : gfMul a b = a * b := rfl

/-- The tables divide as the field does. -/
theorem gfDiv_eq (a : Gf256) (h : b ≠ 0) : gfDiv a b = .ok (a / b) := by
  have hdiv : a / b = gfMul a (inverse b) := div_eq_mul_inv a b
  by_cases ha : a = 0
  · rw [gfDiv,if_pos ha,ha,zero_div]
  · obtain ⟨-,hb'⟩ := power_logOf h
    have hlog : tables.log a.toNat + 255 - tables.log b.toNat = logOf a + (255 - logOf b) := by
      change logOf a + 255 - logOf b = _
      omega
    have hexp : tables.exp ((logOf a + (255 - logOf b)) % 255) = power (logOf a + (255 - logOf b)) := by
      rw [tables_exp (by omega),Nat.mod_mod,power_mod]
    rw [gfDiv,if_neg ha,if_neg h,hlog,hexp,power_add,hdiv,gfMul_eq ha,inverse,if_neg h]

theorem ofNat_injective {i j : Nat} (hi : i < 256) (hj : j < 256)
    (h : Gf256.ofNat i = Gf256.ofNat j) : i = j := by
  rw [← toNat_ofNat hi,h,toNat_ofNat hj]

end Flagship.Backup.Proofs

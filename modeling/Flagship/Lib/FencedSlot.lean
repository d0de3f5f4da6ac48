import Mathlib.Order.Lattice
import Flagship.Lib.Run

namespace Flagship.Lib

/-- A register that keeps the best value put into it, with a fence: values
stamped at or before the fence are forgotten and refused. -/
structure FencedSlot (α : Type) where
  fence : Option Nat
  cur : Option α

inductive SlotOp (α : Type)
  | put (a : α)
  | raise (n : Nat)

namespace FencedSlot
variable {α : Type} (better : α → α → Bool) (stamp : α → Nat)

def empty : FencedSlot α := ⟨none,none⟩

/-- A value is stamped at or before the fence. -/
def fenced (s : FencedSlot α) (a : α) : Bool := s.fence.any (fun f => decide (stamp a ≤ f))

def step (s : FencedSlot α) : SlotOp α → FencedSlot α
  | .put a =>
    if s.fenced stamp a then s
    else if s.cur.all (fun b => better a b) then { s with cur := some a } else s
  | .raise n =>
    { fence := some (max n (s.fence.getD n))
      cur := s.cur.filter (fun a => !decide (stamp a ≤ n)) }

variable {better stamp}

variable (stamp) in
/-- The fence is as high as everything it was raised to, and what is kept was
put and lies beyond the fence. -/
structure Tracks (ops : List (SlotOp α)) (s : FencedSlot α) : Prop where
  raised : ∀ n, .raise n ∈ ops → ∃ f, s.fence = some f ∧ n ≤ f
  fence : ∀ f, s.fence = some f → .raise f ∈ ops
  cur : ∀ a, s.cur = some a → .put a ∈ ops ∧ ∀ n, .raise n ∈ ops → n < stamp a

theorem step_tracks {ops : List (SlotOp α)} {s : FencedSlot α}
    (h : Tracks stamp ops s) (op : SlotOp α) :
    Tracks stamp (ops ++ [op]) (s.step better stamp op) := by
  have hput : ∀ {a : α}, .put a ∈ ops → .put a ∈ ops ++ [op] := List.mem_append_left _
  cases op with
  | put a =>
    have hraise : ∀ {n : Nat}, .raise n ∈ ops ++ [SlotOp.put a] → .raise n ∈ ops := by
      intro n hn
      rcases List.mem_append.mp hn with hn | hn
      · exact hn
      · cases List.mem_singleton.mp hn
    simp only [step]
    have hkeep : Tracks stamp (ops ++ [SlotOp.put a]) s :=
      ⟨fun n hn => h.raised n (hraise hn),fun f hf => List.mem_append_left _ (h.fence f hf),
        fun b hb => ⟨hput (h.cur b hb).1,fun n hn => (h.cur b hb).2 n (hraise hn)⟩⟩
    split
    · exact hkeep
    rename_i hfree
    split
    · refine ⟨hkeep.raised,hkeep.fence,?_⟩
      intro b hb
      cases hb
      refine ⟨by simp,fun n hn => ?_⟩
      obtain ⟨f,hf,hle⟩ := hkeep.raised n hn
      simp only [fenced,hf,Option.any_some,decide_eq_true_eq] at hfree
      omega
    · exact hkeep
  | raise m =>
    refine ⟨?_,?_,?_⟩
    · intro n hn
      refine ⟨_,rfl,?_⟩
      rcases List.mem_append.mp hn with hn | hn
      · obtain ⟨f,hf,hle⟩ := h.raised n hn
        simp only [hf,Option.getD_some]
        omega
      · cases List.mem_singleton.mp hn
        exact Nat.le_max_left _ _
    · intro f hf
      cases hf
      cases hs : s.fence with
      | none => simp
      | some g =>
        simp only [Option.getD_some]
        rcases Nat.le_total m g with hle | hle
        · rw [Nat.max_eq_right hle]
          exact List.mem_append_left _ (h.fence g hs)
        · rw [Nat.max_eq_left hle]
          simp
    · intro a ha
      obtain ⟨ha,hm⟩ := Option.filter_eq_some_iff.mp ha
      obtain ⟨hp,hr⟩ := h.cur a ha
      refine ⟨hput hp,fun n hn => ?_⟩
      rcases List.mem_append.mp hn with hn | hn
      · exact hr n hn
      · cases List.mem_singleton.mp hn
        simpa using hm

variable (stamp) in
theorem run_tracks (ops : List (SlotOp α)) :
    Tracks stamp ops (run (step better stamp) empty ops) := by
  induction ops using List.reverseRecOn with
  | nil => exact ⟨by simp,by simp [empty],by simp [empty]⟩
  | append_singleton ops op ih =>
    rw [run_append]
    exact step_tracks ih op

variable (stamp) in
/-- Where nothing that ranks as high as `m` is ever fenced off, what is left
ranks as high as `m`. -/
theorem run_atLeast {K : Type} [LinearOrder K] {key : α → K}
    (hb : ∀ a b, better a b = true ↔ key b < key a) {ops : List (SlotOp α)} {m : α}
    (hm : .put m ∈ ops)
    (hfree : ∀ a, .put a ∈ ops → key m ≤ key a → ∀ n, .raise n ∈ ops → n < stamp a) :
    ∃ a, (run (step better stamp) empty ops).cur = some a ∧ key m ≤ key a := by
  induction ops using List.reverseRecOn with
  | nil => cases hm
  | append_singleton ops op ih =>
    have hleft : ∀ {x : SlotOp α}, x ∈ ops → x ∈ ops ++ [op] := List.mem_append_left _
    have ih := fun h => ih h (fun a ha hle n hn => hfree a (hleft ha) hle n (hleft hn))
    have ht : Tracks stamp ops (run (step better stamp) empty ops) := run_tracks stamp ops
    rw [run_append,run_cons,run_nil]
    generalize run (step better stamp) empty ops = s at ih ht
    cases op with
    | raise n =>
      have hm : .put m ∈ ops := by simpa using hm
      obtain ⟨a,ha,hle⟩ := ih hm
      have hlt := hfree a (hleft (ht.cur a ha).1) hle n (by simp)
      refine ⟨a,?_,hle⟩
      simp only [step,ha]
      exact Option.filter_eq_some_iff.mpr ⟨rfl,by simpa using hlt⟩
    | put b =>
      have hmb : .put m ∈ ops ∨ m = b := by simpa using hm
      simp only [step]
      split
      · rename_i hfenced
        -- a fenced value ranks below `m`
        rcases hmb with hm | rfl
        · exact ih hm
        · simp only [fenced] at hfenced
          obtain ⟨f,hf,hle⟩ := (Option.any_eq_true _ _).mp hfenced
          have := hfree m (by simp) le_rfl f (hleft (ht.fence f hf))
          simp only [decide_eq_true_eq] at hle
          omega
      · split
        · rename_i hall
          refine ⟨b,rfl,?_⟩
          rcases hmb with hm | rfl
          · obtain ⟨a,ha,hle⟩ := ih hm
            rw [ha,Option.all_some,hb] at hall
            exact hle.trans hall.le
          · exact le_rfl
        · rename_i hall
          rcases hmb with hm | rfl
          · exact ih hm
          · cases hc : s.cur with
            | none => simp [hc] at hall
            | some a =>
              rw [hc,Option.all_some,hb] at hall
              exact ⟨a,rfl,not_lt.mp hall⟩

/-- Values that are fenced off or no better leave the register alone. -/
theorem run_puts {ops : List (SlotOp α)} {s : FencedSlot α} {m : α} (hs : s.cur = some m)
    (hops : ∀ op ∈ ops, ∃ a, op = .put a ∧ (s.fenced stamp a = true ∨ better a m = false)) :
    run (step better stamp) s ops = s := by
  induction ops with
  | nil => rfl
  | cons op ops ih =>
    obtain ⟨a,rfl,ha⟩ := hops op List.mem_cons_self
    have hstep : s.step better stamp (.put a) = s := by
      simp only [step]
      split
      · rfl
      · rename_i hopen
        rcases ha with ha | ha
        · exact absurd ha hopen
        · rw [hs,Option.all_some,ha,if_neg Bool.false_ne_true]
    rw [run_cons,hstep]
    exact ih fun op h => hops op (List.mem_cons_of_mem _ h)

/-- Raising the fence only ever forgets. -/
theorem run_raises {ops : List (SlotOp α)} {s : FencedSlot α}
    (hops : ∀ op ∈ ops, ∃ n, op = .raise n) {a : α}
    (ha : (run (step better stamp) s ops).cur = some a) :
    s.cur = some a ∧ ∀ n, .raise n ∈ ops → n < stamp a := by
  induction ops generalizing s with
  | nil => exact ⟨ha,by simp⟩
  | cons op ops ih =>
    obtain ⟨k,rfl⟩ := hops op List.mem_cons_self
    obtain ⟨hc,hr⟩ := ih (fun op h => hops op (List.mem_cons_of_mem _ h)) ha
    obtain ⟨hc,hk⟩ := Option.filter_eq_some_iff.mp hc
    refine ⟨hc,fun n hn => ?_⟩
    rcases List.mem_cons.mp hn with hn | hn
    · cases hn
      simpa using hk
    · exact hr n hn

end FencedSlot
end Flagship.Lib

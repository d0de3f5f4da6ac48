import Mathlib.Algebra.Order.BigOperators.Group.List
import Flagship.Relay.Flow

namespace Flagship.Relay.Proofs
open Lib Relay
open Mesh (saturatingAdd)

/-- Every byte of the window is somewhere, and what is consumed but not yet
granted stays below a quarter of it. -/
structure Credited (window : Nat) (l : Link) : Prop where
  conserved : l.sender.credit + l.data.sum + l.receiver.outstanding + l.receiver.unreported +
    l.grants.sum = window
  sized : l.receiver.window = window
  batched : l.receiver.unreported < window / 4
  clean : l.overrun = false

theorem saturatingAdd_eq {a b : Nat} (h : a + b ≤ streamMaxWindow) : saturatingAdd a b = a + b := by
  unfold saturatingAdd
  have hmax : streamMaxWindow = 1048576 := rfl
  omega

variable {window : Nat} {l : Link}

theorem credited_new (h : 4 ≤ window) : Credited window (Link.new window) := by
  refine ⟨?_,rfl,?_,rfl⟩
  · simp [Link.new,SendWindow.new,RecvWindow.new]
  · simp only [Link.new,RecvWindow.new]
    omega

/-- The receiver has room for whatever is on its way to it. -/
theorem Credited.onData (h : Credited window l) (hmax : window ≤ streamMaxWindow) {n : Nat}
    (hn : n ∈ l.data) : l.receiver.onData n =
      .ok { l.receiver with outstanding := l.receiver.outstanding + n } := by
  have hsum := List.le_sum_of_mem hn
  have hcons := h.conserved
  have hnext : saturatingAdd l.receiver.outstanding n = l.receiver.outstanding + n :=
    saturatingAdd_eq (by omega)
  unfold RecvWindow.onData
  simp only [hnext]
  rw [if_neg]
  rw [h.sized]
  omega

/-- The cap on credit discards nothing of a grant on its way back. -/
theorem Credited.grant (h : Credited window l) (hmax : window ≤ streamMaxWindow) {n : Nat}
    (hn : n ∈ l.grants) : (l.sender.grant n).credit = l.sender.credit + n := by
  have hsum := List.le_sum_of_mem hn
  have hcons := h.conserved
  have hnext : saturatingAdd l.sender.credit n = l.sender.credit + n := saturatingAdd_eq (by omega)
  simp only [SendWindow.grant,hnext]
  omega

theorem sum_creditFrame (g : Option Nat) : (Link.creditFrame g).sum = g.getD 0 := by
  cases g with
  | none => rfl
  | some n =>
    by_cases hn : n = 0
    · simp [Link.creditFrame,hn]
    · simp [Link.creditFrame,hn]

/-- What the sink takes is granted, or waits below the threshold. -/
theorem onConsumed_spec (w : RecvWindow) (n : Nat) (hmax : w.window ≤ streamMaxWindow)
    (hfit : w.outstanding + w.unreported ≤ w.window) (hbatch : w.unreported < w.window / 4) :
    (w.onConsumed n).1.window = w.window ∧
    (w.onConsumed n).1.unreported < w.window / 4 ∧
    (w.onConsumed n).1.outstanding + (w.onConsumed n).1.unreported +
      (w.onConsumed n).2.getD 0 = w.outstanding + w.unreported := by
  have hlimit : streamMaxWindow = 1048576 := rfl
  have hadd : saturatingAdd w.unreported (min n w.outstanding) =
      w.unreported + min n w.outstanding := saturatingAdd_eq (by omega)
  unfold RecvWindow.onConsumed
  simp only [hadd]
  split
  · refine ⟨rfl,?_,?_⟩
    · simp only
      omega
    · simp only [Option.getD_some]
      omega
  · refine ⟨rfl,?_,?_⟩
    · simp only
      omega
    · simp only [Option.getD_none]
      omega

theorem credited_step (hmax : window ≤ streamMaxWindow) (h : Credited window l) (op : LinkOp) :
    Credited window (l.step op) := by
  have hcons := h.conserved
  cases op with
  | send n =>
    simp only [Link.step]
    split
    · rename_i hn
      unfold SendWindow.available at hn
      refine ⟨?_,h.sized,h.batched,h.clean⟩
      simp only [SendWindow.consume,List.sum_append,List.sum_cons,List.sum_nil]
      omega
    · exact h
  | deliverData =>
    simp only [Link.step]
    cases hd : l.data with
    | nil => exact h
    | cons n data =>
      simp only [h.onData hmax (n := n) (by simp [hd])]
      refine ⟨?_,h.sized,h.batched,h.clean⟩
      rw [hd,List.sum_cons] at hcons
      simp only
      omega
  | consume n =>
    obtain ⟨hw,hb,hsum⟩ := onConsumed_spec l.receiver n (h.sized.symm ▸ hmax)
      (by rw [h.sized]; omega) (h.sized.symm ▸ h.batched)
    refine ⟨?_,hw.trans h.sized,h.sized ▸ hb,h.clean⟩
    simp only [Link.step,List.sum_append,sum_creditFrame]
    omega
  | deliverGrant =>
    simp only [Link.step]
    cases hg : l.grants with
    | nil => exact h
    | cons n grants =>
      have hcredit := h.grant hmax (n := n) (by simp [hg])
      refine ⟨?_,h.sized,h.batched,h.clean⟩
      rw [hg,List.sum_cons] at hcons
      simp only [hcredit]
      omega

end Flagship.Relay.Proofs

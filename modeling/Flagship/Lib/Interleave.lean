import Mathlib.Algebra.Order.BigOperators.Group.List
import Mathlib.Algebra.Order.Ring.Nat
import Flagship.Lib.Run

namespace Flagship.Lib

/-- What the requests served at one time have in common. -/
structure Shared (T E : Type) where
  tables : T
  clock : Int
  /-- What has happened so far, oldest first. -/
  history : List E

/-- Requests under way, each standing before its next storage call. -/
structure Served (T E P : Type) where
  shared : Shared T E
  requests : List P

/-- How requests are served. `accept` runs a request up to its first storage
call; `advance` makes the storage call a request stands before and runs it up to
the one after. The first reading of the clock is the moment of the call. -/
structure Handlers (T E P R X : Type) where
  accept : (Nat → Int) → X → R → P
  advance : (Nat → Int) → X → P → T → P × T × List E

/-- One move of an interleaving. The ticks are how far the clock moves before
each reading, and `outside` is whatever else the code reads. -/
inductive Move (R X : Type)
  | receive (request : R) (ticks : List Nat) (outside : X)
  | resume (i : Nat) (ticks : List Nat) (outside : X)

/-- The readings of a clock that never runs back. -/
def reading (clock : Int) (ticks : List Nat) (k : Nat) : Int :=
  clock + ((ticks.take (k + 1)).sum : Nat)

section
variable {T E P R X : Type}

def Shared.later (s : Shared T E) (ticks : List Nat) : Shared T E :=
  { s with clock := s.clock + (ticks.sum : Nat) }

/-- What a storage call leaves behind. -/
def Shared.after (s : Shared T E) (ticks : List Nat) (tables : T) (events : List E) : Shared T E :=
  ⟨tables,s.clock + (ticks.sum : Nat),s.history ++ events⟩

theorem Shared.later_eq (s : Shared T E) (ticks : List Nat) :
    s.later ticks = s.after ticks s.tables [] := by
  rw [Shared.later,Shared.after,List.append_nil]

def Handlers.step (h : Handlers T E P R X) (w : Served T E P) : Move R X → Served T E P
  | .receive request ticks outside =>
    ⟨w.shared.later ticks,
      w.requests ++ [h.accept (reading w.shared.clock ticks) outside request]⟩
  | .resume i ticks outside =>
    match w.requests[i]? with
    | none => w
    | some p =>
      let (p',tables,events) := h.advance (reading w.shared.clock ticks) outside p w.shared.tables
      ⟨w.shared.after ticks tables events,w.requests.set i p'⟩

theorem reading_mono (clock : Int) (ticks : List Nat) {j k : Nat} (h : j ≤ k) :
    reading clock ticks j ≤ reading clock ticks k := by
  have hsub : (ticks.take (j + 1)).Sublist (ticks.take (k + 1)) :=
    (List.take_prefix_take_left (Nat.succ_le_succ h)).sublist
  have hsum := hsub.sum_le_sum (fun _ _ => Nat.zero_le _)
  unfold reading
  omega

theorem clock_le_reading (clock : Int) (ticks : List Nat) (k : Nat) :
    clock ≤ reading clock ticks k := by
  unfold reading
  omega

theorem reading_le (clock : Int) (ticks : List Nat) (k : Nat) :
    reading clock ticks k ≤ clock + (ticks.sum : Nat) := by
  have hsum := (List.take_sublist (k + 1) ticks).sum_le_sum (fun _ _ => Nat.zero_le _)
  unfold reading
  omega

/-- A fact of what the requests share, and an assertion of each request at the
call it stands before. -/
def Served.Holds (J : Shared T E → Prop) (A : P → Shared T E → Prop) (w : Served T E P) : Prop :=
  J w.shared ∧ ∀ p ∈ w.requests,A p w.shared

/-- What holds after a request is received, where nothing happens, and after
every call a request makes, holds after a move. -/
theorem Handlers.step_rule (h : Handlers T E P R X) {K : Served T E P → Prop}
    (w : Served T E P) (move : Move R X)
    (hreceive : ∀ request ticks outside,move = .receive request ticks outside →
      K ⟨w.shared.later ticks,
        w.requests ++ [h.accept (reading w.shared.clock ticks) outside request]⟩)
    (hidle : K w)
    (hresume : ∀ i ticks outside p p' tables events,move = .resume i ticks outside →
      w.requests[i]? = some p →
      h.advance (reading w.shared.clock ticks) outside p w.shared.tables = (p',tables,events) →
      K ⟨w.shared.after ticks tables events,w.requests.set i p'⟩) :
    K (h.step w move) := by
  cases move with
  | receive request ticks outside => exact hreceive request ticks outside rfl
  | resume i ticks outside =>
    cases hi : w.requests[i]? with
    | none =>
      simp only [Handlers.step,hi]
      exact hidle
    | some p =>
      rcases hadv : h.advance (reading w.shared.clock ticks) outside p w.shared.tables
        with ⟨p',tables,events⟩
      simp only [Handlers.step,hi,hadv]
      exact hresume i ticks outside p p' tables events rfl hi hadv

/-- Where every call keeps the fact, makes the assertion of the request that made
it and spoils no other request's, a move keeps them all. -/
theorem Handlers.step_holds (h : Handlers T E P R X) (cond : Served T E P → Move R X → Prop)
    {J : Shared T E → Prop} {A : P → Shared T E → Prop}
    (hlater : ∀ s ticks,J s → J (s.later ticks))
    (hwaits : ∀ p s ticks,A p s → A p (s.later ticks))
    (haccept : ∀ w request ticks outside,cond w (.receive request ticks outside) → J w.shared →
      A (h.accept (reading w.shared.clock ticks) outside request) (w.shared.later ticks))
    (hadvance : ∀ w i p ticks outside p' tables events,w.requests[i]? = some p →
      cond w (.resume i ticks outside) → J w.shared → A p w.shared →
      h.advance (reading w.shared.clock ticks) outside p w.shared.tables = (p',tables,events) →
      J (w.shared.after ticks tables events) ∧ A p' (w.shared.after ticks tables events) ∧
        ∀ q ∈ w.requests,A q w.shared → A q (w.shared.after ticks tables events))
    (w : Served T E P) (move : Move R X) (hw : w.Holds J A) (hc : cond w move) :
    (h.step w move).Holds J A := by
  refine h.step_rule (K := fun w' => w'.Holds J A) w move ?_ hw ?_
  · rintro request ticks outside rfl
    refine ⟨hlater _ ticks hw.1,?_⟩
    intro p hp
    rcases List.mem_append.mp hp with hp | hp
    · exact hwaits p _ ticks (hw.2 p hp)
    · rw [List.mem_singleton.mp hp]
      exact haccept w request ticks outside hc hw.1
  · rintro i ticks outside p p' tables events rfl hi hadv
    obtain ⟨hJ',hp',hothers⟩ := hadvance w i p ticks outside p' tables events hi hc hw.1
      (hw.2 p (List.mem_of_getElem? hi)) hadv
    refine ⟨hJ',?_⟩
    intro q hq
    rcases List.mem_or_eq_of_mem_set hq with hq | rfl
    · exact hothers q hq (hw.2 q hq)
    · exact hp'

/-- The last request makes its call. -/
theorem Handlers.step_last (h : Handlers T E P R X) (s : Shared T E) (others : List P) (p : P)
    (ticks : List Nat) (outside : X) {p' : P} {tables : T} {events : List E}
    (hadv : h.advance (reading s.clock ticks) outside p s.tables = (p',tables,events)) :
    h.step ⟨s,others ++ [p]⟩ (.resume others.length ticks outside) =
      ⟨s.after ticks tables events,others ++ [p']⟩ := by
  have hp : (others ++ [p])[others.length]? = some p := by
    rw [List.getElem?_append_right (Nat.le_refl _),Nat.sub_self,List.getElem?_cons_zero]
  have hset : (others ++ [p]).set others.length p' = others ++ [p'] := by
    rw [List.set_append_right _ _ (Nat.le_refl _),Nat.sub_self,List.set_cons_zero]
  simp only [Handlers.step,hp,hadv,hset]

/-- What the requests owe together, when one of them goes on. -/
theorem filterMap_set_perm (f : P → Option E) {requests : List P} {i : Nat} {p : P}
    (hp : requests[i]? = some p) (p' : P) :
    ((f p).toList ++ (requests.set i p').filterMap f).Perm
      ((f p').toList ++ requests.filterMap f) := by
  obtain ⟨hi,rfl⟩ := List.getElem?_eq_some_iff.mp hp
  have hcons : ∀ (q : P) (l : List P),(q :: l).filterMap f = (f q).toList ++ l.filterMap f := by
    intro q l
    rw [List.filterMap_cons]
    cases f q <;> rfl
  have hset := (List.set_perm_cons_eraseIdx hi p').filterMap f
  have hself := (List.getElem_cons_eraseIdx_perm hi).symm.filterMap f
  rw [hcons] at hset hself
  refine (hset.append_left _).trans ?_
  refine List.perm_append_comm_assoc _ _ _ |>.trans ?_
  exact hself.symm.append_left _

/-- The other requests are still there when one of them goes on. -/
theorem mem_set_of_ne {requests : List P} {i : Nat} {p q : P} (hi : requests[i]? = some p)
    (hq : q ∈ requests) (hne : q ≠ p) (p' : P) : q ∈ requests.set i p' := by
  obtain ⟨j,hj⟩ := List.mem_iff_getElem?.mp hq
  have hij : i ≠ j := by
    rintro rfl
    rw [hi,Option.some.injEq] at hj
    exact hne hj.symm
  exact List.mem_of_getElem? ((List.getElem?_set_ne hij).trans hj)

theorem self_mem_set {requests : List P} {i : Nat} {p : P} (hi : requests[i]? = some p) (p' : P) :
    p' ∈ requests.set i p' := by
  obtain ⟨hlt,_⟩ := List.getElem?_eq_some_iff.mp hi
  exact List.mem_set hlt p'

/-- Where an event stands in a history that has grown by one more. -/
theorem append_singleton_cases {history before since : List E} {event x : E}
    (h : history ++ [event] = before ++ x :: since) :
    (∃ rest,history = before ++ x :: rest ∧ since = rest ++ [event]) ∨
      history = before ∧ x = event ∧ since = [] := by
  rcases List.eq_nil_or_concat since with rfl | ⟨rest,last,rfl⟩
  · obtain ⟨rfl,hlast⟩ := List.append_inj' h rfl
    cases hlast
    exact Or.inr ⟨rfl,rfl,rfl⟩
  · rw [List.concat_eq_append] at h ⊢
    have heq : history ++ [event] = (before ++ x :: rest) ++ [last] := by
      rw [h,List.append_assoc,List.cons_append]
    obtain ⟨rfl,hlast⟩ := List.append_inj' heq rfl
    cases hlast
    exact Or.inl ⟨rest,rfl,rfl⟩

/-- Every event, with those before it, is as stated. -/
def Each (P : List E → E → Prop) (history : List E) : Prop :=
  ∀ before event after, history = before ++ event :: after → P before event

theorem each_nil (P : List E → E → Prop) : Each P [] := by
  intro before event after h
  simp at h

theorem Each.append {P : List E → E → Prop} {history : List E} (h : Each P history) {event : E}
    (hnew : P history event) : Each P (history ++ [event]) := by
  intro before e after heq
  rcases append_singleton_cases heq with ⟨rest,hrest,_⟩ | ⟨rfl,rfl,_⟩
  · exact h before e rest hrest
  · exact hnew

end
end Flagship.Lib

import Flagship.Lib.Lists
import Flagship.Lib.Run

namespace Flagship.Lib

/-- An asynchronous call that has run up to an await, or to its end. `run` and
`next` are what it does to the shared state once it is resumed, up to the await
after; the label says where it stands. -/
inductive Fiber (S X L E α : Type)
  | done (result : Except E α)
  | wait (place : L) (run : X → S → S) (next : X → S → Fiber S X L E α)

/-- What code that came to its end well gives back. -/
def Fiber.value? {S X L E α : Type} : Fiber S X L E α → Option α
  | .done (.ok a) => some a
  | _ => none

theorem Fiber.eq_done {S X L E α : Type} {p : S × Fiber S X L E α} {a : α}
    (h : p.2.value? = some a) : p = (p.1,.done (.ok a)) := by
  obtain ⟨s,f⟩ := p
  cases f with
  | done result =>
    cases result with
    | error e => cases h
    | ok b =>
      cases h
      rfl
  | wait place run next => cases h

/-- Asynchronous code over a shared state. It runs by itself up to an await, and
there anything else may run. The input is whatever the code reads from outside
in one such stretch. -/
def Async (S X L E α : Type) : Type := X → S → S × Fiber S X L E α

section
variable {S X L E α β : Type}

/-- The code that goes on with the result. -/
def Fiber.andThen (f : α → Async S X L E β) : Fiber S X L E α → Async S X L E β
  | .done (.ok a),x,s => f a x s
  | .done (.error e),_,s => (s,.done (.error e))
  | .wait place run next,_,s =>
    (s,.wait place (fun y t => ((next y t).andThen f y (run y t)).1)
      fun y t => ((next y t).andThen f y (run y t)).2)

def Fiber.orElse (f : E → Async S X L E α) : Fiber S X L E α → Async S X L E α
  | .done (.ok a),_,s => (s,.done (.ok a))
  | .done (.error e),x,s => f e x s
  | .wait place run next,_,s =>
    (s,.wait place (fun y t => ((next y t).orElse f y (run y t)).1)
      fun y t => ((next y t).orElse f y (run y t)).2)

instance : Monad (Async S X L E) where
  pure a := fun _ s => (s,.done (.ok a))
  bind m f := fun x s => (m x s).2.andThen f x (m x s).1

instance : MonadExceptOf E (Async S X L E) where
  throw e := fun _ s => (s,.done (.error e))
  tryCatch m f := fun x s => (m x s).2.orElse f x (m x s).1

instance : MonadStateOf S (Async S X L E) where
  get := fun _ s => (s,.done (.ok s))
  set s := fun _ _ => (s,.done (.ok ()))
  modifyGet f := fun _ s => ((f s).2,.done (.ok (f s).1))

instance : MonadReaderOf X (Async S X L E) where
  read := fun x s => (s,.done (.ok x))

/-- Stand at an await until resumed. -/
def awaits (place : L) : Async S X L E Unit :=
  fun _ s => (s,.wait place (fun _ t => t) fun _ _ => .done (.ok ()))

/-- The outcome of code, kept for what comes after it. -/
def attempt (m : Async S X L E α) : Async S X L E (Except E α) :=
  tryCatch (m >>= fun a => pure (.ok a)) fun e => pure (.error e)

/-- What is asked of the stretches of a call, and what they may count on. -/
structure Terms (S X L : Type) where
  /-- What holds wherever any call stands. -/
  inv : S → Prop
  /-- How the others may change the state while the call stands at an await. -/
  rely : S → S → Prop
  /-- How a stretch of the call may change it. -/
  guar : S → S → Prop
  /-- What a resumption may count on besides. -/
  cond : L → X → S → Prop

variable (terms : Terms S X L)

/-- A call that keeps to its terms, and leaves off in `post`: the input and the
state its last stretch began with, its result, and the state it ended in. -/
def Fiber.Keeps (post : X → S → Except E α → S → Prop) (x : X) (s₀ s : S) :
    Fiber S X L E α → Prop
  | .done result => post x s₀ result s
  | .wait place run next => terms.inv s ∧ terms.guar s₀ s ∧
      ∀ y t,terms.rely s t → terms.inv t → terms.cond place y t →
        (next y t).Keeps post y t (run y t)

/-- The weakest precondition of code in the middle of a stretch. -/
def Async.wp (m : Async S X L E α) (post : X → S → Except E α → S → Prop) (x : X) (s₀ s : S) :
    Prop :=
  (m x s).2.Keeps terms post x s₀ (m x s).1

variable {terms} {x : X} {s₀ s : S} {post : X → S → Except E α → S → Prop}

@[simp] theorem wp_pure (a : α) :
    Async.wp terms (pure a : Async S X L E α) post x s₀ s ↔ post x s₀ (.ok a) s := Iff.rfl

@[simp] theorem wp_throw (e : E) :
    Async.wp terms (throw e : Async S X L E α) post x s₀ s ↔ post x s₀ (.error e) s := Iff.rfl

@[simp] theorem wp_get {post : X → S → Except E S → S → Prop} :
    Async.wp terms (get : Async S X L E S) post x s₀ s ↔ post x s₀ (.ok s) s := Iff.rfl

@[simp] theorem wp_read {post : X → S → Except E X → S → Prop} :
    Async.wp terms (read : Async S X L E X) post x s₀ s ↔ post x s₀ (.ok x) s := Iff.rfl

@[simp] theorem wp_modify {post : X → S → Except E PUnit → S → Prop} (f : S → S) :
    Async.wp terms (modify f : Async S X L E PUnit) post x s₀ s ↔ post x s₀ (.ok ()) (f s) :=
  Iff.rfl

@[simp] theorem wp_awaits {post : X → S → Except E Unit → S → Prop} (place : L) :
    Async.wp terms (awaits place : Async S X L E Unit) post x s₀ s ↔
      terms.inv s ∧ terms.guar s₀ s ∧ ∀ y t,terms.rely s t → terms.inv t →
        terms.cond place y t → post y t (.ok ()) t := Iff.rfl

theorem Fiber.keeps_andThen (f : α → Async S X L E β) {post : X → S → Except E β → S → Prop}
    (fiber : Fiber S X L E α) (x : X) (s₀ s : S) :
    (fiber.andThen f x s).2.Keeps terms post x s₀ (fiber.andThen f x s).1 ↔
      fiber.Keeps terms (fun y t₀ result t => match result with
        | .ok a => (f a).wp terms post y t₀ t
        | .error e => post y t₀ (.error e) t) x s₀ s := by
  induction fiber generalizing x s₀ s with
  | done result => cases result <;> exact Iff.rfl
  | wait place run next ih => simp only [Fiber.andThen,Fiber.Keeps,ih]

@[simp] theorem wp_bind (m : Async S X L E α) (f : α → Async S X L E β)
    {post : X → S → Except E β → S → Prop} :
    (m >>= f).wp terms post x s₀ s ↔ m.wp terms (fun y t₀ result t => match result with
      | .ok a => (f a).wp terms post y t₀ t
      | .error e => post y t₀ (.error e) t) x s₀ s :=
  (m x s).2.keeps_andThen f x s₀ (m x s).1

theorem Fiber.keeps_orElse (f : E → Async S X L E α) (fiber : Fiber S X L E α) (x : X)
    (s₀ s : S) :
    (fiber.orElse f x s).2.Keeps terms post x s₀ (fiber.orElse f x s).1 ↔
      fiber.Keeps terms (fun y t₀ result t => match result with
        | .ok a => post y t₀ (.ok a) t
        | .error e => (f e).wp terms post y t₀ t) x s₀ s := by
  induction fiber generalizing x s₀ s with
  | done result => cases result <;> exact Iff.rfl
  | wait place run next ih => simp only [Fiber.orElse,Fiber.Keeps,ih]

@[simp] theorem wp_tryCatch (m : Async S X L E α) (f : E → Async S X L E α) :
    (tryCatch m f).wp terms post x s₀ s ↔ m.wp terms (fun y t₀ result t => match result with
      | .ok a => post y t₀ (.ok a) t
      | .error e => (f e).wp terms post y t₀ t) x s₀ s :=
  (m x s).2.keeps_orElse f x s₀ (m x s).1

theorem Fiber.Keeps.mono {post' : X → S → Except E α → S → Prop}
    (himp : ∀ x s₀ result s,post x s₀ result s → post' x s₀ result s) {fiber : Fiber S X L E α}
    (h : fiber.Keeps terms post x s₀ s) : fiber.Keeps terms post' x s₀ s := by
  induction fiber generalizing x s₀ s with
  | done result => exact himp x s₀ result s h
  | wait place run next ih =>
    obtain ⟨hinv,hguar,hnext⟩ := h
    refine ⟨hinv,hguar,?_⟩
    intro y t hrely hinv' hcond
    exact ih y t (hnext y t hrely hinv' hcond)

theorem Async.wp.mono {post' : X → S → Except E α → S → Prop} {m : Async S X L E α}
    (h : m.wp terms post x s₀ s)
    (himp : ∀ x s₀ result s,post x s₀ result s → post' x s₀ result s) :
    m.wp terms post' x s₀ s :=
  Fiber.Keeps.mono himp h

@[simp] theorem wp_attempt (m : Async S X L E α) {post : X → S → Except E (Except E α) → S → Prop} :
    (attempt m).wp terms post x s₀ s ↔
      m.wp terms (fun y t₀ result t => post y t₀ (.ok result) t) x s₀ s := by
  simp only [attempt,wp_tryCatch,wp_bind,wp_pure]
  constructor
  · intro h
    refine h.mono ?_
    intro y t₀ result t hpost
    cases result <;> exact hpost
  · intro h
    refine h.mono ?_
    intro y t₀ result t hpost
    cases result <;> exact hpost

theorem Async.wp.keeps {m : Async S X L E α} (h : m.wp terms post x s₀ s) :
    (m x s).2.Keeps terms post x s₀ (m x s).1 := h

/-- What code asks for wherever its first stretch may stop. -/
theorem Async.wp.stops {m : Async S X L E α} (h : m.wp terms post x s₀ s) {P : S → Prop}
    (hinv : ∀ s,terms.inv s → P s) (hpost : ∀ y t₀ result t,post y t₀ result t → P t) :
    P (m x s).1 := by
  have hkeeps := h.keeps
  generalize (m x s).2 = fiber at hkeeps
  cases fiber with
  | done result => exact hpost _ _ _ _ hkeeps
  | wait place run next => exact hinv _ hkeeps.1

-- from here on code is looked at by the rules above only
attribute [irreducible] Async.wp

end

/-- The calls that share a state, each as far as it has come; one that a crash
caught on its way is lost. -/
structure Loop (C S X L E α : Type) where
  shared : S
  calls : List (C × Option (Fiber S X L E α))

/-- A turn of the loop: a call is made and runs up to its first await, a call is
resumed, or the process dies and starts again. -/
inductive Turn (C X K : Type)
  | call (c : C) (x : X)
  | resume (i : Nat) (x : X)
  | crash (k : K)

/-- The code of every call, which knows its own number, and what is left of the
shared state after a crash. -/
structure Service (C S X L E α K : Type) where
  body : C → Nat → Async S X L E α
  crash : K → S → S

section
variable {C S X L E α K : Type}

/-- A call that has ended stays; one that has not is lost. -/
def lose : C × Option (Fiber S X L E α) → C × Option (Fiber S X L E α)
  | (c,some (.done result)) => (c,some (.done result))
  | (c,_) => (c,none)

def Service.turn (v : Service C S X L E α K) (w : Loop C S X L E α) :
    Turn C X K → Loop C S X L E α
  | .call c x =>
    ⟨(v.body c w.calls.length x w.shared).1,
      w.calls ++ [(c,some (v.body c w.calls.length x w.shared).2)]⟩
  | .resume i x =>
    match w.calls[i]? with
    | some (c,some (.wait _ run next)) =>
      ⟨run x w.shared,w.calls.set i (c,some (next x w.shared))⟩
    | _ => w
  | .crash k => ⟨v.crash k w.shared,w.calls.map lose⟩

/-- Where a call stands, if it does. -/
def Loop.place (w : Loop C S X L E α) (i : Nat) : Option L :=
  match w.calls[i]? with
  | some (_,some (.wait place _ _)) => some place
  | _ => none

/-- The call with this number ended with this result. -/
def Loop.ended (w : Loop C S X L E α) (i : Nat) (c : C) (result : Except E α) : Prop :=
  w.calls[i]? = some (c,some (.done result))

theorem Loop.place_of_ended {w : Loop C S X L E α} {i : Nat} {c : C} {result : Except E α}
    (h : w.ended i c result) : w.place i = none := by
  have hcall : w.calls[i]? = some (c,some (.done result)) := h
  simp only [Loop.place,hcall]

/-- What the turns of a run find: a call when it is made, a call when it is resumed
where it stands, and a crash. -/
structure Grounds (C S X L K : Type) where
  made : C → X → S → Prop
  resumed : C → L → X → S → Prop
  crashed : K → S → Prop

/-- A turn finds its grounds. -/
def Grounds.allow {E α : Type} (g : Grounds C S X L K) (w : Loop C S X L E α) :
    Turn C X K → Prop
  | .call c x => g.made c x w.shared
  | .resume i x => ∀ c place run next,w.calls[i]? = some (c,some (.wait place run next)) →
      g.resumed c place x w.shared
  | .crash k => g.crashed k w.shared

def Grounds.and (g h : Grounds C S X L K) : Grounds C S X L K where
  made c x s := g.made c x s ∧ h.made c x s
  resumed c place x s := g.resumed c place x s ∧ h.resumed c place x s
  crashed k s := g.crashed k s ∧ h.crashed k s

/-- Grounds that can be looked up. -/
class Grounds.Checkable (g : Grounds C S X L K) where
  made : ∀ c x s,Decidable (g.made c x s)
  resumed : ∀ c place x s,Decidable (g.resumed c place x s)
  crashed : ∀ k s,Decidable (g.crashed k s)

instance (g h : Grounds C S X L K) [hg : g.Checkable] [hh : h.Checkable] :
    (g.and h).Checkable where
  made c x s := @instDecidableAnd _ _ (hg.made c x s) (hh.made c x s)
  resumed c place x s := @instDecidableAnd _ _ (hg.resumed c place x s) (hh.resumed c place x s)
  crashed k s := @instDecidableAnd _ _ (hg.crashed k s) (hh.crashed k s)

/-- The grounds of a resumption, where there is a call to resume. -/
def Grounds.resumable {E α : Type} (g : Grounds C S X L K) (x : X) (s : S) :
    Option (C × Option (Fiber S X L E α)) → Prop
  | some (c,some (.wait place _ _)) => g.resumed c place x s
  | _ => True

theorem Grounds.allow_resume {E α : Type} (g : Grounds C S X L K) (w : Loop C S X L E α)
    (i : Nat) (x : X) :
    g.allow w (.resume i x) ↔ g.resumable x w.shared w.calls[i]? := by
  constructor
  · intro h
    match hcall : w.calls[i]? with
    | some (c,some (.wait place run next)) => exact h c place run next hcall
    | some (c,some (.done result)) => trivial
    | some (c,none) => trivial
    | none => trivial
  · intro h c place run next hcall
    rw [hcall] at h
    exact h

instance {E α : Type} (g : Grounds C S X L K) [hg : g.Checkable] (w : Loop C S X L E α) :
    (turn : Turn C X K) → Decidable (g.allow w turn)
  | .call c x => hg.made c x w.shared
  | .resume i x =>
    @decidable_of_iff _ _ (g.allow_resume w i x).symm (match w.calls[i]? with
      | some (c,some (.wait place _ _)) => hg.resumed c place x w.shared
      | some (_,some (.done _)) => isTrue trivial
      | some (_,none) => isTrue trivial
      | none => isTrue trivial)
  | .crash k => hg.crashed k w.shared

/-- What every call of a service keeps to, by its number. -/
structure Contract (C S X L E α K : Type) extends Grounds C S X L K where
  inv : S → Prop
  rely : Nat → S → S → Prop
  guar : Nat → S → S → Prop
  /-- There is no trace of a call with this number yet. -/
  fresh : Nat → S → Prop
  /-- What a call that ended has left behind, and still holds. -/
  post : C → Nat → Except E α → S → Prop
  /-- What holds of the state a call ended from. -/
  ends : C → Nat → S → Except E α → Prop

def Contract.terms (t : Contract C S X L E α K) (c : C) (i : Nat) : Terms S X L :=
  ⟨t.inv,t.rely i,t.guar i,t.resumed c⟩

/-- How a call leaves off. -/
def Contract.leaves (t : Contract C S X L E α K) (c : C) (i : Nat) (_ : X) (s₀ : S)
    (result : Except E α) (s : S) : Prop :=
  t.inv s ∧ t.guar i s₀ s ∧ t.post c i result s ∧ t.ends c i s₀ result

/-- The calls of a service keep to the contract. -/
structure Service.Meets (v : Service C S X L E α K) (t : Contract C S X L E α K) : Prop where
  rely_refl : ∀ i s,t.rely i s s
  rely_trans : ∀ i a b c,t.rely i a b → t.rely i b c → t.rely i a c
  others : ∀ i j s s',i ≠ j → t.guar i s s' → t.rely j s s'
  stable : ∀ c i result s s',t.post c i result s → t.rely i s s' → t.inv s' →
    t.post c i result s'
  untouched : ∀ i s s',t.fresh i s → t.rely i s s' → t.fresh i s'
  body : ∀ c i x s,t.inv s → t.fresh i s → t.made c x s →
    (v.body c i).wp (t.terms c i) (t.leaves c i) x s s
  crash : ∀ k s,t.inv s → t.crashed k s → t.inv (v.crash k s) ∧
    (∀ i,t.fresh i s → t.fresh i (v.crash k s)) ∧
    ∀ c i result,t.post c i result s → t.post c i result (v.crash k s)

/-- A call that stands by the contract. -/
def Contract.Stands (t : Contract C S X L E α K) (c : C) (i : Nat) (s : S) :
    Fiber S X L E α → Prop
  | .done result => t.post c i result s
  | .wait place run next => ∀ y s',t.rely i s s' → t.inv s' → t.resumed c place y s' →
      (next y s').Keeps (t.terms c i) (t.leaves c i) y s' (run y s')

/-- Every call stands by the contract. -/
def Contract.Holds (t : Contract C S X L E α K) (w : Loop C S X L E α) : Prop :=
  t.inv w.shared ∧ (∀ i,w.calls.length ≤ i → t.fresh i w.shared) ∧
    ∀ i c fiber,w.calls[i]? = some (c,some fiber) → t.Stands c i w.shared fiber

variable {v : Service C S X L E α K} {t : Contract C S X L E α K}

theorem Contract.stands_of_keeps {c : C} {i : Nat} {x : X} {s₀ s : S} {fiber : Fiber S X L E α}
    (h : fiber.Keeps (t.terms c i) (t.leaves c i) x s₀ s) :
    t.inv s ∧ t.guar i s₀ s ∧ t.Stands c i s fiber ∧
      ∀ result,fiber = .done result → t.ends c i s₀ result := by
  cases fiber with
  | done result =>
    obtain ⟨hinv,hguar,hpost,hends⟩ := h
    refine ⟨hinv,hguar,hpost,?_⟩
    intro result' heq
    cases heq
    exact hends
  | wait place run next =>
    obtain ⟨hinv,hguar,hnext⟩ := h
    refine ⟨hinv,hguar,hnext,?_⟩
    intro result heq
    cases heq

theorem Contract.Stands.on (hv : v.Meets t) {c : C} {i : Nat} {s s' : S}
    {fiber : Fiber S X L E α} (h : t.Stands c i s fiber) (hrely : t.rely i s s')
    (hinv : t.inv s') : t.Stands c i s' fiber := by
  cases fiber with
  | done result => exact hv.stable c i result s s' h hrely hinv
  | wait place run next =>
    intro y u hrely' hinv' hcond
    exact h y u (hv.rely_trans i s s' u hrely hrely') hinv' hcond

/-- What a turn other than a crash does: nothing, or a stretch of one call, which
keeps to the contract and leaves the other calls as they are. -/
theorem Service.Meets.stretch (hv : v.Meets t) {w : Loop C S X L E α} (hw : t.Holds w)
    {turn : Turn C X K} (hc : t.allow w turn) (hturn : ∀ k,turn ≠ .crash k) :
    v.turn w turn = w ∨ ∃ i c fiber,t.inv (v.turn w turn).shared ∧
      t.guar i w.shared (v.turn w turn).shared ∧ t.Stands c i (v.turn w turn).shared fiber ∧
      (∀ result,fiber = .done result → t.ends c i w.shared result) ∧
      (i < (v.turn w turn).calls.length ∧ w.calls.length ≤ (v.turn w turn).calls.length) ∧
      (i < w.calls.length → ∃ x,turn = .resume i x) ∧
      ∀ j c' fiber',(v.turn w turn).calls[j]? = some (c',some fiber') →
        i ≠ j ∧ w.calls[j]? = some (c',some fiber') ∨ j = i ∧ c' = c ∧ fiber' = fiber := by
  obtain ⟨hinv,hfresh,hcalls⟩ := hw
  cases turn with
  | call c x =>
    obtain ⟨hinv',hguar,hstands,hends⟩ :=
      Contract.stands_of_keeps (hv.body c w.calls.length x w.shared hinv
        (hfresh _ (Nat.le_refl _)) hc).keeps
    refine Or.inr ⟨w.calls.length,c,_,hinv',hguar,hstands,hends,by simp [Service.turn],
      fun hlt => absurd hlt (Nat.lt_irrefl _),?_⟩
    intro j c' fiber' hj
    rcases getElem?_append_one hj with hold | ⟨rfl,heq⟩
    · obtain ⟨hlt,_⟩ := List.getElem?_eq_some_iff.mp hold
      exact Or.inl ⟨by omega,hold⟩
    · cases heq
      exact Or.inr ⟨rfl,rfl,rfl⟩
  | resume i x =>
    cases hplace : w.calls[i]? with
    | none =>
      left
      simp only [Service.turn,hplace]
    | some entry =>
      obtain ⟨c,fiber⟩ := entry
      cases fiber with
      | none =>
        left
        simp only [Service.turn,hplace]
      | some fiber => cases fiber with
        | done result =>
          left
          simp only [Service.turn,hplace]
        | wait place run next =>
          right
          obtain ⟨hinv',hguar,hstands,hends⟩ := Contract.stands_of_keeps
            (hcalls i c _ hplace x w.shared (hv.rely_refl i _) hinv (hc c place run next hplace))
          have hi := (List.getElem?_eq_some_iff.mp hplace).1
          simp only [Service.turn,hplace]
          refine ⟨i,c,_,hinv',hguar,hstands,hends,by simpa using hi,fun _ => ⟨x,rfl⟩,?_⟩
          intro j c' fiber' hj
          by_cases heq : i = j
          · subst heq
            rw [List.getElem?_set_self hi] at hj
            cases hj
            exact Or.inr ⟨rfl,rfl,rfl⟩
          · rw [List.getElem?_set_ne heq] at hj
            exact Or.inl ⟨heq,hj⟩
  | crash k => exact absurd rfl (hturn k)

/-- A crash keeps what the calls that ended have left behind. -/
theorem Service.Meets.lost (hv : v.Meets t) {w : Loop C S X L E α} (hw : t.Holds w) {k : K}
    (hc : t.crashed k w.shared) : t.Holds (v.turn w (.crash k)) := by
  obtain ⟨hinv,hfresh,hcalls⟩ := hw
  obtain ⟨hinv',hfresh',hpost⟩ := hv.crash k w.shared hinv hc
  refine ⟨hinv',fun i hi => hfresh' i (hfresh i (by simpa [Service.turn] using hi)),?_⟩
  intro i c fiber hi
  have hi' : (w.calls.map lose)[i]? = some (c,some fiber) := hi
  rw [List.getElem?_map] at hi'
  obtain ⟨⟨c',fiber'⟩,hmem,hlose⟩ := Option.map_eq_some_iff.mp hi'
  cases fiber' with
  | none => cases hlose
  | some fiber' => cases fiber' with
    | wait place run next => cases hlose
    | done result =>
      cases hlose
      exact hpost c i result (hcalls i c _ hmem)

/-- A turn keeps every call standing by the contract. -/
theorem Service.Meets.turn (hv : v.Meets t) {w : Loop C S X L E α} (hw : t.Holds w)
    {turn : Turn C X K} (hc : t.allow w turn) : t.Holds (v.turn w turn) := by
  by_cases hturn : ∃ k,turn = .crash k
  · obtain ⟨k,rfl⟩ := hturn
    exact hv.lost hw hc
  · rcases hv.stretch hw hc (fun k hk => hturn ⟨k,hk⟩) with
      heq | ⟨i,c,fiber,hinv,hguar,hstands,_,⟨hi,hlen⟩,_,hothers⟩
    · rw [heq]
      exact hw
    · obtain ⟨_,hfresh,hcalls⟩ := hw
      refine ⟨hinv,?_,?_⟩
      · intro j hj
        exact hv.untouched j _ _ (hfresh j (Nat.le_trans hlen hj))
          (hv.others i j _ _ (Nat.ne_of_lt (Nat.lt_of_lt_of_le hi hj)) hguar)
      · intro j c' fiber' hj
        rcases hothers j c' fiber' hj with ⟨hne,hold⟩ | ⟨rfl,rfl,rfl⟩
        · exact (hcalls j c' fiber' hold).on hv (hv.others i j _ _ hne hguar) hinv
        · exact hstands

/-- A run whose turns all find what they may count on keeps every call standing
by the contract. -/
theorem Service.Meets.run (hv : v.Meets t) {w : Loop C S X L E α} (hw : t.Holds w)
    {turns : List (Turn C X K)} (h : Along v.turn t.allow w turns) :
    t.Holds (Lib.run v.turn w turns) :=
  Along.invariant (I := t.Holds) (fun _ _ hw hc => hv.turn hw hc) hw h

/-- A preorder that every stretch and every crash keeps to holds from each point
of a run to each later one. -/
theorem Service.Meets.between (hv : v.Meets t) {R : S → S → Prop} (hrefl : ∀ s,R s s)
    (htrans : ∀ a b c,R a b → R b c → R a c)
    (hguar : ∀ i s s',t.inv s → t.inv s' → t.guar i s s' → R s s')
    (hcrash : ∀ k s,t.inv s → t.crashed k s → R s (v.crash k s)) {w : Loop C S X L E α}
    (hw : t.Holds w) (first middle last : List (Turn C X K))
    (h : Along v.turn t.allow w (first ++ middle ++ last)) :
    R (Lib.run v.turn w first).shared (Lib.run v.turn w (first ++ middle)).shared := by
  refine Along.stretch (I := t.Holds) (R := fun a b => R a.shared b.shared)
    (fun w => hrefl _) (fun a b c => htrans _ _ _) (fun _ _ hw hc => hv.turn hw hc) ?_ hw h
  intro w turn hw hc
  by_cases hturn : ∃ k,turn = .crash k
  · obtain ⟨k,rfl⟩ := hturn
    exact hcrash k _ hw.1 hc
  · rcases hv.stretch hw hc (fun k hk => hturn ⟨k,hk⟩) with
      heq | ⟨i,c,fiber,hinv,hstretch,_⟩
    · rw [heq]
      exact hrefl _
    · exact hguar i _ _ hw.1 hinv hstretch

theorem Loop.ended_of_lost {w : Loop C S X L E α} {k : K} {i : Nat} {c : C} {result : Except E α}
    (h : (v.turn w (.crash k)).ended i c result) : w.ended i c result := by
  have hi : (w.calls.map lose)[i]? = some (c,some (.done result)) := h
  rw [List.getElem?_map] at hi
  obtain ⟨⟨c',fiber⟩,hmem,hlose⟩ := Option.map_eq_some_iff.mp hi
  cases fiber with
  | none => cases hlose
  | some fiber => cases fiber with
    | wait place run next => cases hlose
    | done result' =>
      cases hlose
      exact hmem

/-- A call that has ended by the end of a stretch of a run had ended before, or
ended in one of its turns. -/
theorem Service.Meets.ended (hv : v.Meets t) {w : Loop C S X L E α} (hw : t.Holds w)
    {turns : List (Turn C X K)} (h : Along v.turn t.allow w turns) {i : Nat} {c : C}
    {result : Except E α} (hend : (Lib.run v.turn w turns).ended i c result) :
    w.ended i c result ∨ ∃ before turn after,turns = before ++ turn :: after ∧
      t.ends c i (Lib.run v.turn w before).shared result := by
  induction turns generalizing w with
  | nil => exact Or.inl hend
  | cons turn turns ih =>
    rcases ih (hv.turn hw h.1) h.2 hend with hone | ⟨before,turn',after,rfl,hends⟩
    · by_cases hturn : ∃ k,turn = .crash k
      · obtain ⟨k,rfl⟩ := hturn
        exact Or.inl (Loop.ended_of_lost hone)
      · rcases hv.stretch hw h.1 (fun k hk => hturn ⟨k,hk⟩) with
          heq | ⟨j,c',fiber,_,_,_,hends,_,_,hothers⟩
        · rw [heq] at hone
          exact Or.inl hone
        · rcases hothers i c _ hone with ⟨_,hold⟩ | ⟨rfl,rfl,rfl⟩
          · exact Or.inl hold
          · exact Or.inr ⟨[],turn,turns,rfl,hends result rfl⟩
    · exact Or.inr ⟨turn :: before,turn',after,rfl,hends⟩

end

section
variable {S X L E α : Type}

/-- A call that nothing runs beside, for as long as it is resumed. -/
def Fiber.drive : List X → S → Fiber S X L E α → S × Fiber S X L E α
  | x :: xs,s,.wait _ run next => (next x s).drive xs (run x s)
  | _,s,fiber => (s,fiber)

/-- Code that nothing runs beside, cut off where it is not resumed any more. -/
def Async.alone [Inhabited X] (m : Async S X L E α) (inputs : List X) (s : S) :
    S × Fiber S X L E α :=
  (m default s).2.drive inputs (m default s).1

/-- The terms of code that nothing runs beside. -/
def Terms.alone (inv : S → Prop) : Terms S X L := ⟨inv,Eq,fun _ _ => True,fun _ _ _ => True⟩

variable {inv : S → Prop} {Q : Except E α → S → Prop}

theorem wp_awaits_alone {post : X → S → Except E Unit → S → Prop} (place : L) {x : X} {s₀ s : S} :
    Async.wp (Terms.alone inv) (awaits place : Async S X L E Unit) post x s₀ s ↔
      inv s ∧ ∀ y,post y s (.ok ()) s := by
  rw [wp_awaits]
  constructor
  · intro h
    exact ⟨h.1,fun y => h.2.2 y s rfl h.1 trivial⟩
  · intro h
    refine ⟨h.1,trivial,?_⟩
    intro y t heq _ _
    subst heq
    exact h.2 y

/-- Where code that nothing runs beside is left off. -/
def Fiber.Stops (inv : S → Prop) (Q : Except E α → S → Prop) (s : S) : Fiber S X L E α → Prop
  | .done result => Q result s
  | .wait _ _ _ => inv s

theorem Fiber.Keeps.drive {fiber : Fiber S X L E α} {x : X} {s₀ s : S}
    (h : fiber.Keeps (Terms.alone inv) (fun _ _ result t => Q result t) x s₀ s) (inputs : List X) :
    (fiber.drive inputs s).2.Stops inv Q (fiber.drive inputs s).1 := by
  induction inputs generalizing fiber x s₀ s with
  | nil =>
    cases fiber with
    | done result => exact h
    | wait place run next => exact h.1
  | cons y inputs ih =>
    cases fiber with
    | done result => exact h
    | wait place run next => exact ih (h.2.2 y s rfl h.1 trivial)

/-- Code that nothing runs beside keeps its invariant, wherever it is cut off. -/
theorem Async.wp.alone [Inhabited X] {m : Async S X L E α} {s : S}
    (h : m.wp (Terms.alone inv) (fun _ _ _ t => inv t) default s s) (inputs : List X) :
    inv (m.alone inputs s).1 := by
  have hstops := h.keeps.drive inputs
  rw [Async.alone]
  generalize (m default s).2.drive inputs (m default s).1 = stop at hstops ⊢
  obtain ⟨t,fiber⟩ := stop
  cases fiber <;> exact hstops

/-- Code that nothing runs beside ends as it should, if it ends. -/
theorem Async.wp.ends [Inhabited X] {m : Async S X L E α} {s t : S}
    (h : m.wp (Terms.alone inv) (fun _ _ result t => Q result t) default s s) {inputs : List X}
    {result : Except E α} (hend : m.alone inputs s = (t,.done result)) : Q result t := by
  have hstops := h.keeps.drive inputs
  rw [Async.alone] at hend
  rw [hend] at hstops
  exact hstops

/-- What holds wherever code is cut off it keeps as an invariant, where there is nothing
to choose at an await. -/
theorem Async.alone_iff_wp [Unique X] {m : Async S X L E α} {s : S} :
    (∀ inputs,inv (m.alone inputs s).1) ↔
      m.wp (Terms.alone inv) (fun _ _ _ t => inv t) default s s := by
  refine ⟨fun h => ?_,fun h => h.alone⟩
  suffices hkeeps : ∀ (fiber : Fiber S X L E α) x s₀ t,(∀ inputs,inv (fiber.drive inputs t).1) →
      fiber.Keeps (Terms.alone inv) (fun _ _ _ t => inv t) x s₀ t by
    unfold Async.wp
    exact hkeeps _ _ _ _ h
  intro fiber
  induction fiber with
  | done result => exact fun x s₀ t h => h []
  | wait place run next ih =>
    refine fun x s₀ t h => ⟨h [],trivial,?_⟩
    intro y t' heq _ _
    subst heq
    exact ih y t _ _ _ fun inputs => h (y :: inputs)

/-- A call that nothing runs beside, to its end. -/
def Fiber.finish [Inhabited X] : Fiber S X L E α → S → S × Except E α
  | .done result,s => (s,result)
  | .wait _ run next,s => (next default s).finish (run default s)

/-- Code that nothing runs beside, to its end. -/
def Async.finish [Inhabited X] (m : Async S X L E α) (s : S) : S × Except E α :=
  (m default s).2.finish (m default s).1

theorem Async.wp.finish [Inhabited X] {m : Async S X L E α} {s : S}
    (h : m.wp (Terms.alone inv) (fun _ _ result t => Q result t) default s s) :
    Q (m.finish s).2 (m.finish s).1 := by
  suffices hfinish : ∀ (fiber : Fiber S X L E α) x s₀ t,
      fiber.Keeps (Terms.alone inv) (fun _ _ result t => Q result t) x s₀ t →
      Q (fiber.finish t).2 (fiber.finish t).1 from hfinish _ _ _ _ h.keeps
  intro fiber
  induction fiber with
  | done result => exact fun x s₀ t h => h
  | wait place run next ih =>
    exact fun x s₀ t h => ih default t _ _ _ (h.2.2 default t rfl h.1 trivial)

end
end Flagship.Lib

import Mathlib.Data.List.Basic

namespace Flagship.Lib

section
variable {σ β ω ε : Type}

/-- What a reader made of its input: the output up to there, and the error that ended it
or how many symbols it used and the state it is in. -/
abbrev Fed (σ ω ε : Type) := List ω × Except ε (Nat × σ)

def Fed.stay (s : σ) : Fed σ ω ε := ([],.ok (0,s))

/-- Reading on from where something was read to. -/
def Fed.next (fed : Fed σ ω ε) (f : σ → Fed σ ω ε) : Fed σ ω ε :=
  match fed with
  | (out,.error e) => (out,.error e)
  | (out,.ok (n,s)) => (out ++ (f s).1,(f s).2.map fun used => (n + used.1,used.2))

@[simp] theorem Fed.stay_next (s : σ) (f : σ → Fed σ ω ε) : (Fed.stay s).next f = f s := by
  rcases hf : f s with ⟨out,_ | ⟨n,t⟩⟩ <;> simp [Fed.stay,Fed.next,hf,Except.map]

theorem Fed.next_next (fed : Fed σ ω ε) (f g : σ → Fed σ ω ε) :
    (fed.next f).next g = fed.next fun s => (f s).next g := by
  rcases fed with ⟨out,_ | ⟨n,s⟩⟩
  · rfl
  rcases hf : f s with ⟨out',_ | ⟨m,t⟩⟩
  · simp [Fed.next,hf,Except.map]
  rcases hg : g t with ⟨out'',_ | ⟨k,u⟩⟩ <;>
    simp [Fed.next,hf,hg,Except.map,Nat.add_assoc]

/-- Input that arrives in pieces, up to the first error. -/
def feed (push : σ → List β → Fed σ ω ε) : σ → List (List β) → Fed σ ω ε
  | s,[] => .stay s
  | s,piece :: pieces => (push s piece).next fun s => feed push s pieces

/-- A reader that takes one symbol after another, until it is at its end. -/
structure Reader (σ β ω ε : Type) where
  atEnd : σ → Bool
  step : σ → β → Except ε (List ω × σ)

def Reader.read (r : Reader σ β ω ε) : σ → List β → Fed σ ω ε
  | s,[] => .stay s
  | s,b :: bs =>
    if r.atEnd s then .stay s
    else match r.step s b with
      | .error e => ([],.error e)
      | .ok (out,s) => Fed.next (out,.ok (1,s)) fun s => r.read s bs

variable {r : Reader σ β ω ε} {s s' : σ} {b : β} {bs : List β} {out : List ω} {e : ε}

@[simp] theorem Reader.read_nil : r.read s [] = .stay s := rfl

theorem Reader.read_atEnd (h : r.atEnd s = true) : r.read s bs = .stay s := by
  cases bs <;> simp [Reader.read,h]

theorem Reader.read_cons (h : r.atEnd s = false) (hstep : r.step s b = .ok (out,s')) :
    r.read s (b :: bs) = Fed.next (out,.ok (1,s')) fun s => r.read s bs := by
  simp [Reader.read,h,hstep]

theorem Reader.read_error (h : r.atEnd s = false) (hstep : r.step s b = .error e) :
    r.read s (b :: bs) = ([],.error e) := by
  simp [Reader.read,h,hstep]

theorem Reader.read_append (as bs : List β) :
    r.read s (as ++ bs) = (r.read s as).next fun s => r.read s bs := by
  induction as generalizing s with
  | nil => simp
  | cons b as ih =>
    cases hend : r.atEnd s with
    | true => rw [read_atEnd hend,read_atEnd hend,Fed.stay_next,read_atEnd hend]
    | false =>
      rw [List.cons_append]
      rcases hstep : r.step s b with e | ⟨out,s'⟩
      · rw [read_error hend hstep,read_error hend hstep]
        rfl
      · rw [read_cons hend hstep,read_cons hend hstep,Fed.next_next]
        simp only [ih]

/-- A state that reading leads to keeps what each step keeps. -/
theorem Reader.read_keeps {I : σ → Prop}
    (hI : ∀ s b out s',I s → r.atEnd s = false → r.step s b = .ok (out,s') → I s')
    {n : Nat} (h : I s) (hread : r.read s bs = (out,.ok (n,s'))) : I s' := by
  induction bs generalizing s out n with
  | nil =>
    cases hread
    exact h
  | cons b bs ih =>
    cases hend : r.atEnd s with
    | true =>
      rw [read_atEnd hend] at hread
      cases hread
      exact h
    | false =>
      rcases hstep : r.step s b with e | ⟨out₁,s₁⟩
      · rw [read_error hend hstep] at hread
        cases hread
      · rw [read_cons hend hstep] at hread
        rcases hrest : r.read s₁ bs with ⟨out₂,e | ⟨m,s₂⟩⟩
        · simp [Fed.next,hrest,Except.map] at hread
        · simp only [Fed.next,hrest,Except.map,Prod.mk.injEq,Except.ok.injEq] at hread
          obtain ⟨_,_,rfl⟩ := hread
          exact ih (hI s b out₁ s₁ h hend hstep) hrest

/-- All of the input is used unless the reader comes to its end. -/
theorem Reader.read_used {n : Nat} (hread : r.read s bs = (out,.ok (n,s'))) :
    n ≤ bs.length ∧ (r.atEnd s' = false → n = bs.length) := by
  induction bs generalizing s out n with
  | nil =>
    cases hread
    exact ⟨Nat.le_refl _,fun _ => rfl⟩
  | cons b bs ih =>
    cases hend : r.atEnd s with
    | true =>
      rw [read_atEnd hend] at hread
      cases hread
      exact ⟨Nat.zero_le _,fun hnot => absurd hend (by rw [hnot]; simp)⟩
    | false =>
      rcases hstep : r.step s b with e | ⟨out₁,s₁⟩
      · rw [read_error hend hstep] at hread
        cases hread
      · rw [read_cons hend hstep] at hread
        rcases hrest : r.read s₁ bs with ⟨out₂,e | ⟨m,s₂⟩⟩
        · simp [Fed.next,hrest,Except.map] at hread
        · simp only [Fed.next,hrest,Except.map,Prod.mk.injEq,Except.ok.injEq] at hread
          obtain ⟨_,rfl,rfl⟩ := hread
          obtain ⟨hle,heq⟩ := ih hrest
          rw [List.length_cons]
          exact ⟨by omega,fun hnot => by have := heq hnot; omega⟩

/-- Where all of an input is used, nothing that it starts with ends the reader or is
refused. -/
theorem Reader.read_of_append {as : List β} {n : Nat} (hne : bs ≠ [])
    (hread : r.read s (as ++ bs) = (out,.ok (n,s'))) (hn : n = (as ++ bs).length) :
    ∃ out' t,r.read s as = (out',.ok (as.length,t)) ∧ r.atEnd t = false := by
  rw [read_append] at hread
  have hpos := List.length_pos_of_ne_nil hne
  rw [List.length_append] at hn
  rcases has : r.read s as with ⟨out',e | ⟨m,t⟩⟩
  · simp [has,Fed.next] at hread
  obtain ⟨hle,heq⟩ := read_used has
  cases hend : r.atEnd t with
  | true =>
    simp only [has,Fed.next,read_atEnd hend,Fed.stay,Except.map,Prod.mk.injEq,
      Except.ok.injEq] at hread
    omega
  | false =>
    rw [heq hend]
    exact ⟨out',t,rfl,hend⟩

/-- However the input is cut into pieces, it is read as one. -/
theorem feed_eq_read {I : σ → Prop} {push : σ → List β → Fed σ ω ε}
    (hpush : ∀ s bs,I s → push s bs = r.read s bs)
    (hI : ∀ s b out s',I s → r.atEnd s = false → r.step s b = .ok (out,s') → I s')
    (pieces : List (List β)) (h : I s) : feed push s pieces = r.read s pieces.flatten := by
  induction pieces generalizing s with
  | nil => rfl
  | cons piece pieces ih =>
    rw [feed,hpush s piece h,List.flatten_cons,Reader.read_append]
    rcases hread : r.read s piece with ⟨out,e | ⟨n,s'⟩⟩
    · rfl
    · simp only [Fed.next]
      rw [ih (Reader.read_keeps hI h hread)]

end
end Flagship.Lib

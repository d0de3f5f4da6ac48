import Flagship.Control.Revocations

namespace Flagship.Control.Proofs
open Lib

section
variable {κ ρ ν : Type} [LinearOrder ν] (table : NewerTable κ ρ ν)

theorem Onward.refl (rows : κ → Option ρ) : table.Onward rows rows :=
  fun _ old h => ⟨old,h,Or.inl rfl⟩

variable {table}

theorem Onward.trans {a b c : κ → Option ρ} (hab : table.Onward a b) (hbc : table.Onward b c) :
    table.Onward a c := by
  intro k old hold
  obtain ⟨mid,hmid,hle⟩ := hab k old hold
  obtain ⟨new,hnew,hle'⟩ := hbc k mid hmid
  refine ⟨new,hnew,?_⟩
  rcases hle with rfl | hlt
  · exact hle'
  · rcases hle' with rfl | hlt'
    · exact Or.inr hlt
    · exact Or.inr (hlt.trans hlt')

variable [DecidableEq κ] [DecidableEq ρ]

/-- A write moves a row on exactly where it finds none that is as new. -/
theorem onward_write {rec : ρ} {rows : κ → Option ρ} :
    table.Onward rows (Function.update rows (table.key rec) (some rec)) ↔
      table.writeNewer (.write rec) rows = true := by
  constructor
  · intro h
    cases hold : rows (table.key rec) with
    | none => simp only [NewerTable.writeNewer,hold,Option.all_none]
    | some old =>
      obtain ⟨new,hnew,hle⟩ := h _ old hold
      rw [Function.update_self,Option.some.injEq] at hnew
      subst hnew
      simp only [NewerTable.writeNewer,hold,Option.all_some,Bool.or_eq_true,beq_iff_eq,
        decide_eq_true_eq]
      exact hle.imp_left Eq.symm
  · intro h k old hold
    by_cases hk : k = table.key rec
    · subst hk
      refine ⟨rec,Function.update_self ..,?_⟩
      simp only [NewerTable.writeNewer,hold,Option.all_some,Bool.or_eq_true,beq_iff_eq,
        decide_eq_true_eq] at h
      exact h.imp_left Eq.symm
    · exact ⟨old,(Function.update_of_ne hk _ _).trans hold,Or.inl rfl⟩

/-- A storage call of `putIfNewer` moves the table on exactly where the row it
writes over is older. -/
theorem onward_putIfNewer (p : Put ρ) (rows : κ → Option ρ) :
    table.writeNewer p rows = true ↔ table.Onward rows (table.putIfNewer p rows).2 := by
  cases p with
  | read rec =>
    have hrows : (table.putIfNewer (.read rec) rows).2 = rows := by
      simp only [NewerTable.putIfNewer]
      split
      · split_ifs <;> rfl
      · rfl
    rw [hrows]
    exact iff_of_true rfl (Onward.refl table rows)
  | write rec => exact onward_write.symm
  | answered stored accepted => exact iff_of_true rfl (Onward.refl table rows)

end

theorem onward_revocations (maxAgeMs : Option Int)
    (w : Served (Text → Option EntitlementRevocationListRecord) Empty RevocationsProgress)
    (move : Move (Option RevocationsBody) RevocationsElsewhere) :
    revocationNewer w move = true ↔ revocationLists.Onward w.shared.tables
      ((revocationHandlers maxAgeMs).step w move).shared.tables := by
  cases move with
  | receive body ticks outside => exact iff_of_true rfl (Onward.refl _ _)
  | resume i ticks outside =>
    cases hi : w.requests[i]? with
    | none =>
      simp only [revocationNewer,Handlers.step,hi]
      exact iff_of_true trivial (Onward.refl _ _)
    | some p =>
      cases p with
      | user r =>
        simp only [revocationNewer,Handlers.step,hi]
        exact iff_of_true trivial (Onward.refl _ _)
      | put p =>
        simp only [revocationNewer,Handlers.step,hi]
        exact onward_putIfNewer p w.shared.tables
      | answered answer =>
        simp only [revocationNewer,Handlers.step,hi]
        exact iff_of_true trivial (Onward.refl _ _)

theorem onward_put {κ ρ ν : Type} [DecidableEq κ] [LinearOrder ν] [DecidableEq ρ]
    (table : NewerTable κ ρ ν) (w : Served (κ → Option ρ) Empty (Put ρ)) (move : Move ρ Unit) :
    putNewer table w move = true ↔
      table.Onward w.shared.tables (table.handlers.step w move).shared.tables := by
  cases move with
  | receive rec ticks outside => exact iff_of_true rfl (Onward.refl _ _)
  | resume i ticks outside =>
    cases hi : w.requests[i]? with
    | none =>
      simp only [putNewer,Handlers.step,hi]
      exact iff_of_true trivial (Onward.refl _ _)
    | some p =>
      simp only [putNewer,Handlers.step,hi]
      exact onward_putIfNewer p w.shared.tables

def someSignature : Text := List.replicate 128 'a'

def revokesNothing (issuedAt : Rat) : RevocationsBody := ⟨"alice".toList,[],issuedAt,someSignature⟩

def allowed : RevocationsElsewhere := ⟨true,true⟩

/-- Two lists are posted at once; the later one is written first. -/
def crossedPosts : List (Move (Option RevocationsBody) RevocationsElsewhere) :=
  [.receive (some (revokesNothing 1)) [] allowed,.receive (some (revokesNothing 2)) [] allowed,
    .resume 0 [] allowed,.resume 1 [] allowed,.resume 0 [] allowed,.resume 1 [] allowed,
    .resume 1 [] allowed,.resume 0 [] allowed]

end Flagship.Control.Proofs

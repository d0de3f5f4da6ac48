import Flagship.Recovery.RePair

namespace Flagship.Recovery.Proofs
open Lib Control

/-- Two rows of one attempt, up to what updates change. -/
structure SameAttempt (a b : PendingRePair) : Prop where
  attempt : a.attempt = b.attempt
  newKey : a.newIrkPubHex = b.newIrkPubHex
  oldKey : a.oldIrkPubHex = b.oldIrkPubHex
  initiatedAt : a.initiatedAt = b.initiatedAt
  completesAt : a.completesAt = b.completesAt

theorem SameAttempt.refl (a : PendingRePair) : SameAttempt a a := ⟨rfl,rfl,rfl,rfl,rfl⟩

theorem SameAttempt.trans {a b c : PendingRePair} (h : SameAttempt a b) (h' : SameAttempt b c) :
    SameAttempt a c :=
  ⟨h.attempt.trans h'.attempt,h.newKey.trans h'.newKey,h.oldKey.trans h'.oldKey,
    h.initiatedAt.trans h'.initiatedAt,h.completesAt.trans h'.completesAt⟩

/-- The row an insert stores. -/
def inserted (t : Tables) (rec : PendingRePair) : PendingRePair :=
  { rec with
    attempt := t.attempts
    objectedAt := none
    completingAt := none
    vetoedByHex := none
    vetoSignatureHex := none }

/-- What a storage call can do to the pending row, and what is recorded of it. -/
inductive Effect (now : Nat → Int) (t : Tables) : Progress → Tables → List Event → Prop
  | quiet {p : Progress} {t' : Tables} (hpending : t'.pending = t.pending)
      (hattempts : t'.attempts = t.attempts) : Effect now t p t' []
  | inserts {c : Cleared} {rec : PendingRePair} {t' : Tables} (hnone : t.pending = none)
      (hpending : t'.pending = some (inserted t rec)) (hattempts : t'.attempts = t.attempts + 1) :
      Effect now t (.initiateInsert c rec) t' [.initiated c (inserted t rec)]
  | removes {p : Progress} {t' : Tables} (hp : Recovery.removes p = true) (hpending : t'.pending = none)
      (hattempts : t'.attempts = t.attempts) : Effect now t p t' []
  | vetoes {r : VetoBody} {q row row' : PendingRePair} {stamp : Int} {t' : Tables}
      (hrow : t.pending = some row) (hopen : row.isOpen = true) (hsame : SameAttempt row row')
      (hobjected : row'.objectedAt.isSome = true) (hpending : t'.pending = some row')
      (hattempts : t'.attempts = t.attempts) :
      Effect now t (.vetoStore r q stamp) t' [.vetoed r q row]
  | objects {r : ObjectBody} {q row row' : PendingRePair} {stamp : Int} {t' : Tables}
      (hrow : t.pending = some row) (hopen : row.isOpen = true) (hsame : SameAttempt row row')
      (hobjected : row'.objectedAt.isSome = true) (hpending : t'.pending = some row')
      (hattempts : t'.attempts = t.attempts) :
      Effect now t (.objectStore r q stamp) t' [.objected r q (some row)]
  | objectsNothing {r : ObjectBody} {q : PendingRePair} {stamp : Int} {t' : Tables}
      (hclosed : ∀ row,t.pending = some row → row.isOpen = false)
      (hpending : t'.pending = t.pending) (hattempts : t'.attempts = t.attempts) :
      Effect now t (.objectStore r q stamp) t' [.objected r q none]
  | claims {q row row' : PendingRePair} {policy : RecoveryWipePolicy} {refreshes : Bool}
      {stamp : Int} {t' : Tables} (hrow : t.pending = some row) (hopen : row.isOpen = true)
      (hsame : SameAttempt row row') (hobjected : row'.objectedAt = row.objectedAt)
      (hcompleting : row'.completingAt.isSome = true)
      (hpending : t'.pending = some row') (hattempts : t'.attempts = t.attempts) :
      Effect now t (.completeClaim q policy refreshes stamp) t' []
  | swaps {q : PendingRePair} {policy : RecoveryWipePolicy} {refreshes : Bool} {stamp : Int}
      {t' : Tables} {user : UsernameRecord} (huser : t.user = some user)
      (hkey : sqlLower user.irkPubHex = sqlLower q.oldIrkPubHex)
      (hpending : t'.pending = t.pending) (hattempts : t'.attempts = t.attempts) :
      Effect now t (.completeSwap q policy refreshes stamp) t'
        [.swapped q user.irkPubHex q.newIrkPubHex (now 0)]

theorem updateOpen_cases (t : Tables) (f : PendingRePair → PendingRePair) :
    (∃ row,t.pending = some row ∧ row.isOpen = true ∧
      t.updateOpen f = (true,{ t with pending := some (f row) })) ∨
    (∀ row,t.pending = some row → row.isOpen = false) ∧ t.updateOpen f = (false,t) := by
  cases hrow : t.pending with
  | none =>
    refine Or.inr ⟨?_,?_⟩
    · intro row h
      cases h
    · simp only [Tables.updateOpen,hrow]
  | some row =>
    cases hopen : row.isOpen with
    | true =>
      refine Or.inl ⟨row,rfl,hopen,?_⟩
      simp only [Tables.updateOpen,hrow,hopen,if_true]
    | false =>
      refine Or.inr ⟨?_,?_⟩
      · intro row' h
        cases h
        exact hopen
      · simp only [Tables.updateOpen,hrow,hopen,if_neg Bool.false_ne_true]

theorem veto_cases (t : Tables) (stamp : Int) (byHex signatureHex : Text) :
    (∃ row row',t.pending = some row ∧ row.isOpen = true ∧ SameAttempt row row' ∧
      row'.objectedAt.isSome = true ∧
      t.veto stamp byHex signatureHex = (true,{ t with pending := some row' })) ∨
    (∀ row,t.pending = some row → row.isOpen = false) ∧
      t.veto stamp byHex signatureHex = (false,t) := by
  unfold Tables.veto
  rcases updateOpen_cases t _ with ⟨row,hrow,hopen,heq⟩ | h
  · refine Or.inl ⟨row,_,hrow,hopen,?_,?_,heq⟩
    · exact ⟨rfl,rfl,rfl,rfl,rfl⟩
    · rfl
  · exact Or.inr h

theorem object_cases (t : Tables) (stamp : Int) :
    (∃ row row',t.pending = some row ∧ row.isOpen = true ∧ SameAttempt row row' ∧
      row'.objectedAt.isSome = true ∧ t.object stamp = (true,{ t with pending := some row' })) ∨
    (∀ row,t.pending = some row → row.isOpen = false) ∧ t.object stamp = (false,t) := by
  unfold Tables.object
  rcases updateOpen_cases t _ with ⟨row,hrow,hopen,heq⟩ | h
  · refine Or.inl ⟨row,_,hrow,hopen,?_,?_,heq⟩
    · exact ⟨rfl,rfl,rfl,rfl,rfl⟩
    · rfl
  · exact Or.inr h

theorem claimCompletion_cases (t : Tables) (stamp : Int) :
    (∃ row row',t.pending = some row ∧ row.isOpen = true ∧ SameAttempt row row' ∧
      row'.objectedAt = row.objectedAt ∧ row'.completingAt.isSome = true ∧
      t.claimCompletion stamp = (true,{ t with pending := some row' })) ∨
    (∀ row,t.pending = some row → row.isOpen = false) ∧ t.claimCompletion stamp = (false,t) := by
  unfold Tables.claimCompletion
  rcases updateOpen_cases t _ with ⟨row,hrow,hopen,heq⟩ | h
  · refine Or.inl ⟨row,_,hrow,hopen,?_,?_,?_,heq⟩
    · exact ⟨rfl,rfl,rfl,rfl,rfl⟩
    · rfl
    · rfl
  · exact Or.inr h

theorem initiate_cases (t : Tables) (rec : PendingRePair) :
    t.pending = none ∧ t.initiate rec =
      (true,{ t with pending := some (inserted t rec), attempts := t.attempts + 1 }) ∨
    t.pending.isSome = true ∧ t.initiate rec = (false,t) := by
  unfold Tables.initiate
  cases hrow : t.pending with
  | none => exact Or.inl ⟨rfl,rfl⟩
  | some row => exact Or.inr ⟨rfl,rfl⟩

theorem swapIrkPub_cases (t : Tables) (old new : Text) (stamp : Int) :
    (∃ user t',t.user = some user ∧ sqlLower user.irkPubHex = sqlLower old ∧
      t.swapIrkPub old new stamp = (true,t') ∧ t'.pending = t.pending ∧ t'.attempts = t.attempts) ∨
    t.swapIrkPub old new stamp = (false,t) := by
  unfold Tables.swapIrkPub
  cases huser : t.user with
  | none => exact Or.inr rfl
  | some user =>
    by_cases hkey : sqlLower user.irkPubHex = sqlLower old
    · exact Or.inl ⟨user,_,rfl,hkey,if_pos hkey,rfl,rfl⟩
    · exact Or.inr (if_neg hkey)

theorem casRecoveryCodes_frame (t : Tables) (expectedJson newJson : Text) :
    (t.casRecoveryCodes expectedJson newJson).2.pending = t.pending ∧
      (t.casRecoveryCodes expectedJson newJson).2.attempts = t.attempts := by
  unfold Tables.casRecoveryCodes
  cases t.user with
  | none => exact ⟨rfl,rfl⟩
  | some user =>
    dsimp only
    split_ifs
    · exact ⟨rfl,rfl⟩
    · exact ⟨rfl,rfl⟩

/-- A completion past its claim. -/
def pastClaim : Progress → Bool
  | .completeSwap _ _ _ _ => true
  | .completeDelete _ _ => true
  | _ => false

section
variable [Lowercase] [Checks] {deps : RePairDeps} {account : Text}

/-- Every storage call of the four handlers has one of these effects. -/
theorem advance_effect (now : Nat → Int) (outside : Elsewhere) (p : Progress) (t : Tables) :
    Effect now t p (advance deps account now outside p t).2.1
      (advance deps account now outside p t).2.2 := by
  cases p with
  | initiateUser r => exact .quiet rfl rfl
  | consumeRead c code attempt => exact .quiet rfl rfl
  | consumeCas c code attempt currentJson newJson =>
    obtain ⟨hpending,hattempts⟩ := casRecoveryCodes_frame t currentJson newJson
    exact .quiet hpending hattempts
  | initiatePending c => exact .quiet rfl rfl
  | initiateSweep c existing => exact .removes rfl rfl rfl
  | initiateInsert c rec =>
    rcases initiate_cases t rec with ⟨hnone,heq⟩ | ⟨_,heq⟩
    · simp only [advance,heq]
      exact .inserts hnone rfl rfl
    · simp only [advance,heq]
      exact .quiet rfl rfl
  | vetoPending r => exact .quiet rfl rfl
  | vetoUser r q => exact .quiet rfl rfl
  | vetoStore r q stamp =>
    rcases veto_cases t stamp (toLowercase r.vetoerPub) r.signature with
      ⟨row,row',hrow,hopen,hsame,hobjected,heq⟩ | ⟨_,heq⟩
    · simp only [advance,heq,hrow,Option.toList_some,List.map_cons,List.map_nil]
      exact .vetoes hrow hopen hsame hobjected rfl rfl
    · simp only [advance,heq]
      exact .quiet rfl rfl
  | objectPending r => exact .quiet rfl rfl
  | objectStore r q stamp =>
    rcases object_cases t stamp with ⟨row,row',hrow,hopen,hsame,hobjected,heq⟩ | ⟨hclosed,heq⟩
    · simp only [advance,heq,hrow]
      exact .objects hrow hopen hsame hobjected rfl rfl
    · simp only [advance,heq]
      exact .objectsNothing hclosed rfl rfl
  | completePending body => exact .quiet rfl rfl
  | completeExpire q => exact .removes rfl rfl rfl
  | completeUser r q => exact .quiet rfl rfl
  | completeClaim q policy refreshes stamp =>
    rcases claimCompletion_cases t stamp with
      ⟨row,row',hrow,hopen,hsame,hobjected,hcompleting,heq⟩ | ⟨_,heq⟩
    · simp only [advance,heq]
      exact .claims hrow hopen hsame hobjected hcompleting rfl rfl
    · simp only [advance,heq]
      exact .quiet rfl rfl
  | completeRefused => exact .quiet rfl rfl
  | completeSwap q policy refreshes stamp =>
    rcases swapIrkPub_cases t q.oldIrkPubHex q.newIrkPubHex stamp with
      ⟨user,t',huser,hkey,heq,hpending,hattempts⟩ | heq
    · simp only [advance,heq,huser,Option.toList_some,List.map_cons,List.map_nil]
      exact .swaps huser hkey hpending hattempts
    · simp only [advance,heq]
      exact .quiet rfl rfl
  | completeDrop q => exact .removes rfl rfl rfl
  | completeDelete q policy => exact .removes rfl rfl rfl
  | answered answer => exact .quiet rfl rfl

theorem effect_of {now : Nat → Int} {outside : Elsewhere} {p p' : Progress} {t t' : Tables}
    {events : List Event} (hadv : (handlers deps account).advance now outside p t = (p',t',events)) :
    Effect now t p t' events := by
  have heffect : Effect now t p ((handlers deps account).advance now outside p t).2.1
      ((handlers deps account).advance now outside p t).2.2 := advance_effect now outside p t
  rw [hadv] at heffect
  exact heffect

/-- Only claims and swaps lead past the claim. -/
theorem pastClaim_advance (deps : RePairDeps) (account : Text) (now : Nat → Int)
    (outside : Elsewhere) {p : Progress} (t : Tables)
    (hclaim : ∀ q policy refreshes stamp,p ≠ .completeClaim q policy refreshes stamp)
    (hswap : ∀ q policy refreshes stamp,p ≠ .completeSwap q policy refreshes stamp) :
    pastClaim (advance deps account now outside p t).1 = false := by
  cases p with
  | initiateUser r =>
    simp only [advance]
    unfold checkInitiate
    (repeat' split) <;> rfl
  | consumeRead c code n =>
    simp only [advance]
    unfold consumeCode
    (repeat' split) <;> rfl
  | consumeCas c code n currentJson newJson =>
    simp only [advance]
    unfold consumed
    (repeat' split) <;> rfl
  | initiatePending c =>
    simp only [advance]
    unfold sweepOrInsert
    (repeat' split) <;> rfl
  | initiateInsert c rec =>
    simp only [advance]
    split <;> rfl
  | vetoPending r =>
    simp only [advance]
    unfold matchVeto
    (repeat' split) <;> rfl
  | vetoUser r q =>
    simp only [advance]
    unfold checkVeto
    (repeat' split) <;> rfl
  | vetoStore r q stamp =>
    simp only [advance]
    split <;> rfl
  | objectPending r =>
    simp only [advance]
    unfold checkObject
    (repeat' split) <;> rfl
  | objectStore r q stamp =>
    simp only [advance]
    split <;> rfl
  | completePending body =>
    simp only [advance]
    unfold checkComplete completable
    (repeat' split) <;> rfl
  | completeUser r q =>
    simp only [advance]
    unfold checkGrants
    dsimp only
    (repeat' split) <;> rfl
  | completeClaim q policy refreshes stamp => exact absurd rfl (hclaim q policy refreshes stamp)
  | completeSwap q policy refreshes stamp => exact absurd rfl (hswap q policy refreshes stamp)
  | _ => rfl

omit [Checks] in
theorem pastClaim_accept (now : Nat → Int) (outside : Elsewhere) (request : Request) :
    pastClaim (accept deps account now outside request) = false := by
  cases request with
  | initiate body =>
    simp only [accept]
    unfold startInitiate
    (repeat' split) <;> rfl
  | veto body =>
    simp only [accept]
    unfold startVeto
    (repeat' split) <;> rfl
  | object body =>
    simp only [accept]
    unfold startObject
    (repeat' split) <;> rfl
  | complete body => rfl

end
end Flagship.Recovery.Proofs

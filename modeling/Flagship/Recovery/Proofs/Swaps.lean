import Flagship.Recovery.Proofs.Attempts

namespace Flagship.Recovery.Proofs
open Lib Control

/-- An accepted veto or objection read the attempt. -/
def Cancelled (history : List Event) (attempt : Nat) : Prop :=
  (∃ r q marked,.vetoed r q marked ∈ history ∧ q.attempt = attempt) ∨
    ∃ r q marked,.objected r q marked ∈ history ∧ q.attempt = attempt

theorem cancelled_append {history events : List Event} {attempt : Nat} :
    Cancelled (history ++ events) attempt ↔ Cancelled history attempt ∨ Cancelled events attempt := by
  simp only [Cancelled,List.mem_append,or_and_right,exists_or]
  exact or_or_or_comm

theorem not_cancelled_nil (attempt : Nat) : ¬ Cancelled [] attempt := by
  simp [Cancelled]

theorem isOpen_of_objected {row : PendingRePair} (h : row.objectedAt.isSome = true) :
    row.isOpen = false := by
  cases hobjected : row.objectedAt with
  | none => simp [hobjected] at h
  | some stamp => simp [PendingRePair.isOpen,hobjected]

theorem isOpen_of_completing {row : PendingRePair} (h : row.completingAt.isSome = true) :
    row.isOpen = false := by
  cases hcompleting : row.completingAt with
  | none => simp [hcompleting] at h
  | some stamp => simp [PendingRePair.isOpen,hcompleting]

theorem cancelled_vetoed {r : VetoBody} {q marked : PendingRePair} {attempt : Nat} :
    Cancelled [.vetoed r q marked] attempt ↔ attempt = q.attempt := by
  simp [Cancelled,eq_comm]

theorem cancelled_objected {r : ObjectBody} {q : PendingRePair} {marked : Option PendingRePair}
    {attempt : Nat} : Cancelled [.objected r q marked] attempt ↔ attempt = q.attempt := by
  simp [Cancelled,eq_comm]

/-- A completion past its claim is of an attempt nobody cancelled. -/
def Uncancelled (p : Progress) (s : Shared Tables Event) : Prop :=
  ∀ attempt,claimedFor attempt p = true → ¬ Cancelled s.history attempt

theorem of_unclaimed {w : Served Tables Event Progress} {attempt : Nat}
    (h : unclaimed w attempt = true) {p : Progress} (hp : p ∈ w.requests) :
    claimedFor attempt p = false := by
  have hall := List.all_eq_true.mp h p hp
  rwa [Bool.not_eq_true'] at hall

/-- Nobody cancels an attempt whose completion is past its claim. -/
theorem Uncancelled.others {deps : RePairDeps} {w : Served Tables Event Progress} {i : Nat} {p : Progress}
    {ticks : List Nat} {outside : Elsewhere} (hi : w.requests[i]? = some p)
    (hc : keepsApart deps w (.resume i ticks outside) = true) {t' : Tables} {events : List Event}
    (heffect : Effect (reading w.shared.clock ticks) w.shared.tables p t' events)
    {q : Progress} (hq : q ∈ w.requests) (h : Uncancelled q w.shared) :
    Uncancelled q (w.shared.after ticks t' events) := by
  intro attempt hclaimed hcancelled
  rcases cancelled_append.mp hcancelled with hcancelled | hcancelled
  · exact h attempt hclaimed hcancelled
  · have hnot : claimedFor attempt q = false := by
      cases heffect with
      | vetoes hrow hopen hsame hobjected hpending hattempts =>
        simp only [keepsApart,hi,hrow,Option.all_some,hopen,Bool.not_true,Bool.false_or] at hc
        rw [cancelled_vetoed.mp hcancelled]
        exact of_unclaimed hc hq
      | objects hrow hopen hsame hobjected hpending hattempts =>
        simp only [keepsApart,hi] at hc
        rw [cancelled_objected.mp hcancelled]
        exact of_unclaimed hc hq
      | objectsNothing hclosed hpending hattempts =>
        simp only [keepsApart,hi] at hc
        rw [cancelled_objected.mp hcancelled]
        exact of_unclaimed hc hq
      | _ => simp [Cancelled] at hcancelled
    rw [hclaimed] at hnot
    cases hnot

section
variable [Checks] {deps : RePairDeps}

/-- A cancelled attempt cannot be claimed any more, and every swap was earned. -/
structure Fair (deps : RePairDeps) (s : Shared Tables Event) : Prop where
  counted : ∀ attempt,Cancelled s.history attempt → attempt < s.tables.attempts
  closed : ∀ row,s.tables.pending = some row → Cancelled s.history row.attempt → row.isOpen = false
  earned : SwapsEarned deps s.history

/-- A swap of a completion nobody cancelled, before its window is over. -/
theorem earned_swap {s : Shared Tables Event} (hbooks : Books deps s) {q : PendingRePair}
    (hq : Known s q ∧ q.completesAt ≤ s.clock) (hcancelled : ¬ Cancelled s.history q.attempt)
    {old : Text} (hkey : sqlLower old = sqlLower q.oldIrkPubHex) {time : Int}
    (hclock : s.clock ≤ time) (htime : time < q.completesAt + deps.completeWindow) :
    Earned deps s.history old q.newIrkPubHex time := by
  obtain ⟨⟨c,first,hmem,hsame⟩,hwaited⟩ := hq
  have hfirst := hbooks.accepted c first hmem
  have hcompletes := hsame.completesAt
  have hwaits := hfirst.waits
  refine ⟨c,first,hmem,?_,?_,hfirst.verified,hwaits,by omega,by omega,?_,?_⟩
  · rw [hkey,← hfirst.oldKey,hsame.oldKey]
  · rw [← hfirst.newKey,hsame.newKey]
  · intro r pending marked hvetoed heq
    exact hcancelled (Or.inl ⟨r,pending,marked,hvetoed,heq.trans hsame.attempt⟩)
  · intro r pending marked hobjected heq
    exact hcancelled (Or.inr ⟨r,pending,marked,hobjected,heq.trans hsame.attempt⟩)

/-- A call that records no cancellation, stores no open row that was not stored
open, and swaps only what is earned. -/
theorem Fair.quiet {s : Shared Tables Event} (h : Fair deps s) {ticks : List Nat} {t' : Tables}
    {events : List Event} (hattempts : s.tables.attempts ≤ t'.attempts)
    (hevents : ∀ attempt,¬ Cancelled events attempt)
    (hpending : ∀ row',t'.pending = some row' → row'.isOpen = true →
      row'.attempt = s.tables.attempts ∨
        ∃ row,s.tables.pending = some row ∧ row.attempt = row'.attempt ∧ row.isOpen = true)
    (hearned : SwapsEarned deps (s.history ++ events)) : Fair deps (s.after ticks t' events) := by
  have hold : ∀ attempt,Cancelled (s.history ++ events) attempt → Cancelled s.history attempt := by
    intro attempt hcancelled
    exact (cancelled_append.mp hcancelled).resolve_right (hevents attempt)
  refine ⟨?_,?_,hearned⟩
  · intro attempt hcancelled
    exact lt_of_lt_of_le (h.counted attempt (hold attempt hcancelled)) hattempts
  · intro row' hrow' hcancelled
    by_contra hopen
    rw [Bool.not_eq_false] at hopen
    have hbefore := hold row'.attempt hcancelled
    rcases hpending row' hrow' hopen with heq | ⟨row,hrow,heq,hrowopen⟩
    · exact absurd (h.counted _ hbefore) (by omega)
    · rw [← heq] at hbefore
      rw [h.closed row hrow hbefore] at hrowopen
      cases hrowopen

/-- A cancellation leaves no open row. -/
theorem Fair.cancels {s : Shared Tables Event} (h : Fair deps s) (hbooks : Books deps s)
    {ticks : List Nat} {t' : Tables} {event : Event} {q : PendingRePair} (hq : Known s q)
    (hattempts : t'.attempts = s.tables.attempts)
    (hevent : ∀ attempt,Cancelled [event] attempt → attempt = q.attempt)
    (hclosed : ∀ row',t'.pending = some row' → row'.isOpen = false)
    (hearned : SwapEarned deps s.history event) : Fair deps (s.after ticks t' [event]) := by
  refine ⟨?_,fun row' hrow' _ => hclosed row' hrow',h.earned.append hearned⟩
  intro attempt hcancelled
  simp only [Shared.after,hattempts]
  rcases cancelled_append.mp hcancelled with hcancelled | hcancelled
  · exact h.counted attempt hcancelled
  · obtain ⟨c,first,hmem,hsame⟩ := hq
    rw [hevent attempt hcancelled,← hsame.attempt]
    exact hbooks.counted c first hmem

/-- A call of a run that keeps the attempts apart. -/
theorem Fair.effect {w : Served Tables Event Progress} (h : Fair deps w.shared)
    (hbooks : Books deps w.shared) {i : Nat} {p : Progress} {ticks : List Nat} {outside : Elsewhere}
    (hi : w.requests[i]? = some p) (hp : Asserted deps p w.shared) (hu : Uncancelled p w.shared)
    (hc : keepsApart deps w (.resume i ticks outside) = true) {t' : Tables} {events : List Event}
    (heffect : Effect (reading w.shared.clock ticks) w.shared.tables p t' events) :
    Fair deps (w.shared.after ticks t' events) := by
  cases heffect with
  | quiet hpending hattempts =>
    refine h.quiet hattempts.ge not_cancelled_nil ?_ (by rw [List.append_nil]; exact h.earned)
    intro row hrow hopen
    exact Or.inr ⟨row,hpending.symm.trans hrow,rfl,hopen⟩
  | inserts hnone hpending hattempts =>
    refine h.quiet (by omega) (by simp [Cancelled]) ?_ (h.earned.append trivial)
    intro row hrow _
    cases hpending.symm.trans hrow
    exact Or.inl rfl
  | removes _ hpending hattempts =>
    refine h.quiet hattempts.ge not_cancelled_nil ?_ (by rw [List.append_nil]; exact h.earned)
    intro row hrow
    cases hpending.symm.trans hrow
  | vetoes hrow hopen hsame hobjected hpending hattempts =>
    refine h.cancels hbooks hp hattempts (fun _ => cancelled_vetoed.mp) ?_ trivial
    intro row hrow'
    cases hpending.symm.trans hrow'
    exact isOpen_of_objected hobjected
  | objects hrow hopen hsame hobjected hpending hattempts =>
    refine h.cancels hbooks hp hattempts (fun _ => cancelled_objected.mp) ?_ trivial
    intro row hrow'
    cases hpending.symm.trans hrow'
    exact isOpen_of_objected hobjected
  | objectsNothing hclosed hpending hattempts =>
    refine h.cancels hbooks hp hattempts (fun _ => cancelled_objected.mp) ?_ trivial
    intro row hrow
    exact hclosed row (hpending.symm.trans hrow)
  | claims hrow hopen hsame hobjected hcompleting hpending hattempts =>
    refine h.quiet hattempts.ge not_cancelled_nil ?_ (by rw [List.append_nil]; exact h.earned)
    intro row hrow' hopen'
    cases hpending.symm.trans hrow'
    rw [isOpen_of_completing hcompleting] at hopen'
    cases hopen'
  | @swaps q policy refreshes stamp _ user huser hkey hpending hattempts =>
    refine h.quiet hattempts.ge (by simp [Cancelled]) ?_ (h.earned.append ?_)
    · intro row hrow hopen
      exact Or.inr ⟨row,hpending.symm.trans hrow,rfl,hopen⟩
    · simp only [keepsApart,hi,huser,Option.all_some,hkey,bne_self_eq_false,Bool.false_or,
        decide_eq_true_eq] at hc
      exact earned_swap hbooks hp (hu q.attempt (beq_self_eq_true _)) hkey
        (clock_le_reading _ ticks 0) hc

variable [Lowercase] {account : Text}

theorem claimedFor_of_swap {now : Nat → Int} {outside : Elsewhere} {q : PendingRePair}
    {policy : RecoveryWipePolicy} {refreshes : Bool} {stamp : Int} {p' : Progress} {t t' : Tables}
    {events : List Event} {attempt : Nat}
    (hadv : advance deps account now outside (.completeSwap q policy refreshes stamp) t =
      (p',t',events)) : claimedFor attempt p' = false := by
  have hp' : p' = (advance deps account now outside (.completeSwap q policy refreshes stamp) t).1 := by
    rw [hadv]
  rw [hp']
  simp only [advance]
  unfold afterSwap
  (repeat' split) <;> rfl

omit [Checks] [Lowercase] in
theorem pastClaim_of_claimedFor {attempt : Nat} {p : Progress} (h : claimedFor attempt p = true) :
    pastClaim p = true := by
  cases p with
  | completeSwap q policy refreshes stamp => rfl
  | _ => cases h

/-- A completion that has just claimed its row is of an attempt nobody cancelled. -/
theorem claimed_uncancelled {w : Served Tables Event Progress} (h : Fair deps w.shared)
    {i : Nat} {p p' : Progress} {ticks : List Nat} {outside : Elsewhere}
    (hi : w.requests[i]? = some p) (hc : keepsApart deps w (.resume i ticks outside) = true)
    {t' : Tables} {events : List Event}
    (hadv : advance deps account (reading w.shared.clock ticks) outside p w.shared.tables =
      (p',t',events)) : Uncancelled p' (w.shared.after ticks t' events) := by
  intro attempt hclaimed
  by_cases hp : ∃ q policy refreshes stamp,p = .completeClaim q policy refreshes stamp
  · obtain ⟨q,policy,refreshes,stamp,rfl⟩ := hp
    rcases claimCompletion_cases w.shared.tables stamp with
      ⟨row,_,hrow,hopen,_,_,_,heq⟩ | ⟨_,heq⟩
    · simp only [advance,heq] at hadv
      cases hadv
      simp only [keepsApart,hi,hrow,Option.all_some,hopen,Bool.not_true,Bool.false_or,
        beq_iff_eq] at hc
      have hattempt : q.attempt = attempt := beq_iff_eq.mp hclaimed
      intro hcancelled
      rw [Shared.after,List.append_nil,← hattempt,← hc] at hcancelled
      rw [h.closed row hrow hcancelled] at hopen
      cases hopen
    · simp only [advance,heq] at hadv
      cases hadv
      cases hclaimed
  · by_cases hswap : ∃ q policy refreshes stamp,p = .completeSwap q policy refreshes stamp
    · obtain ⟨q,policy,refreshes,stamp,rfl⟩ := hswap
      rw [claimedFor_of_swap hadv] at hclaimed
      cases hclaimed
    · have hpast := pastClaim_advance deps account (reading w.shared.clock ticks) outside
        w.shared.tables (fun q policy refreshes stamp heq => hp ⟨q,policy,refreshes,stamp,heq⟩)
        (fun q policy refreshes stamp heq => hswap ⟨q,policy,refreshes,stamp,heq⟩)
      rw [hadv,pastClaim_of_claimedFor hclaimed] at hpast
      cases hpast

theorem step_fair (w : Served Tables Event Progress) (move : Move Request Elsewhere)
    (hw : w.Holds (Fair deps) Uncancelled)
    (hc : keepsApart deps w move = true ∧ w.Holds (Books deps) (Asserted deps)) :
    ((handlers deps account).step w move).Holds (Fair deps) Uncancelled := by
  refine (handlers deps account).step_holds
    (fun w move => keepsApart deps w move = true ∧ w.Holds (Books deps) (Asserted deps))
    ?_ ?_ ?_ ?_ w move hw hc
  · intro s ticks hs
    exact ⟨hs.counted,hs.closed,hs.earned⟩
  · exact fun p s ticks hp => hp
  · intro w request ticks outside _ _ attempt hclaimed
    have hpast : pastClaim
        (accept deps account (reading w.shared.clock ticks) outside request) = false :=
      pastClaim_accept _ outside request
    exact absurd (hpast.symm.trans (pastClaim_of_claimedFor hclaimed)) Bool.false_ne_true
  · intro w i p ticks outside p' t' events hi hc hfair hu hadv
    obtain ⟨hc,hbooks,hasserted⟩ := hc
    exact ⟨hfair.effect hbooks hi (hasserted p (List.mem_of_getElem? hi)) hu hc (effect_of hadv),
      claimed_uncancelled hfair hi hc hadv,
      fun q hq h => h.others hi hc (effect_of hadv) hq⟩

end

/-- Checks that take a signature for good where it repeats the signer's key. -/
instance plainChecks : Checks where
  verifyRePairInitiate _ sig pub := sig == pub
  verifyRePairObject _ sig pub := sig == pub
  verifyRePairComplete _ sig pub := sig == pub
  verifyRePairVeto claim sig := sig == claim.vetoerPub
  verifyRecoveryProof _ _ _ _ _ := some .malformed
  validateTotpCode _ _ _ _ _ := none
  someCodes _ := false
  withoutCode _ _ := none

def plainDeps : RePairDeps where
  pushTokens := false
  webauthnRecovery := true
  deviceCapabilityGrants := false
  graceMs := none
  singleDeviceGraceMs := none
  quarantineMs := none
  completeWindowMs := none
  maxAgeMs := none
  totpKekHex := none
  recoveryProofSecret := some "secret".toList

def nothingElse : Elsewhere := ⟨[],none,none,none,0,none,none⟩

def alice : Text := "alice".toList

/-- An account with key `aa` whose admin key is `dd`. -/
def aliceRecord : UsernameRecord where
  irkPubHex := "aa".toList
  claimedAt := 0
  accountType := none
  totpSecretEncrypted := none
  recoveryCodesHashesJson := none
  recoveryWipePolicy := none
  adminRootPubHex := some "dd".toList

/-- A recovery to a key, authorized by the registered one. -/
def initiateTo (key : Text) (issuedAt : Rat) : InitiateBody where
  username := alice
  newIrkPub := key
  oldIrkPub := "aa".toList
  issuedAt := issuedAt
  signature := key
  totpProof := none
  callerTokenId := none
  recoveryProof := none
  oldIrkSignature := some "aa".toList
  ifMatch := none

def threeDays : Nat := 3 * 24 * 60 * 60000

def completeTo (key : Text) : CompleteBody := ⟨alice,key,threeDays,key,false⟩

def vetoOf (key : Text) : VetoBody := ⟨alice,key,"dd".toList,0,threeDays,threeDays,"dd".toList⟩

def resumes (i n : Nat) : List (Move Request Elsewhere) := List.replicate n (.resume i [] nothingElse)

/-- A recovery to `bb` that is started, waited out and completed. -/
def plainRecovery : List (Move Request Elsewhere) :=
  .receive (.initiate (some (initiateTo "bb".toList 0))) [] nothingElse :: resumes 0 3 ++
    .receive (.complete (some (completeTo "bb".toList))) [threeDays] nothingElse :: resumes 1 5

/-- The completion to `bb` is past its checks when an admin vetoes it; the
recovery to `cc` sweeps the vetoed row, and the completion claims that of `cc`. -/
def lateVeto : List (Move Request Elsewhere) :=
  .receive (.initiate (some (initiateTo "bb".toList 0))) [] nothingElse :: resumes 0 3 ++
    .receive (.complete (some (completeTo "bb".toList))) [threeDays] nothingElse :: resumes 1 2 ++
    .receive (.veto (some (vetoOf "bb".toList))) [] nothingElse :: resumes 2 3 ++
    .receive (.initiate (some (initiateTo "cc".toList threeDays))) [] nothingElse :: resumes 3 4 ++
    resumes 1 2

/-- The attempt the late veto cancels, as it was inserted. -/
def vetoedRow : PendingRePair :=
  newRow plainDeps ⟨initiateTo "bb".toList 0,aliceRecord,none,0,.registeredKey⟩ 0 0

theorem lateVeto_history :
    (run (handlers plainDeps alice).step (fresh (some aliceRecord) 0) lateVeto).shared.history =
      [.initiated ⟨initiateTo "bb".toList 0,aliceRecord,none,0,.registeredKey⟩ vetoedRow,
        .vetoed (vetoOf "bb".toList) vetoedRow vetoedRow,
        .initiated ⟨initiateTo "cc".toList threeDays,aliceRecord,none,threeDays,.registeredKey⟩
          { newRow plainDeps ⟨initiateTo "cc".toList threeDays,aliceRecord,none,threeDays,
            .registeredKey⟩ threeDays threeDays with attempt := 1 },
        .swapped vetoedRow "aa".toList "bb".toList threeDays] := by
  decide +kernel

end Flagship.Recovery.Proofs

import Flagship.Recovery.Proofs.Swaps

namespace Flagship.Recovery.Proofs
open Lib Control

/-- A row and the event of its attempt agree in what names the attempt. -/
theorem Books.same_attempt [Checks] {deps : RePairDeps} {s : Shared Tables Event}
    (h : Books deps s) {stored row : PendingRePair} {c : Cleared}
    (hstored : s.tables.pending = some stored) (hmem : .initiated c row ∈ s.history)
    (hattempt : stored.attempt = row.attempt) : SameAttempt row stored := by
  obtain ⟨c',first,hfirst,hsame⟩ := h.stored stored hstored
  have heq := h.single c' first c row hfirst hmem (hsame.attempt.trans hattempt)
  rwa [← heq]

/-- The key was swapped since the row's attempt was accepted. -/
def SwappedSince (s : Shared Tables Event) (q : PendingRePair) : Prop :=
  ∀ before c row since,s.history = before ++ .initiated c row :: since → row.attempt = q.attempt →
    ∃ pending old new time,.swapped pending old new time ∈ since ∧ pending.attempt = row.attempt

/-- A completion about to delete a row has swapped the key. -/
def SwappedFirst (p : Progress) (s : Shared Tables Event) : Prop :=
  match p with
  | .completeDelete q _ => SwappedSince s q
  | _ => True

theorem swappedFirst_of {p : Progress} (h : pastClaim p = false) (s : Shared Tables Event) :
    SwappedFirst p s := by
  cases p with
  | completeDelete q policy => cases h
  | _ => trivial

theorem le_after_clock (s : Shared Tables Event) (ticks : List Nat) (t : Tables)
    (events : List Event) : s.clock ≤ (s.after ticks t events).clock := by
  simp only [Shared.after]
  omega

/-- What was swapped stays swapped: a later attempt has another number. -/
theorem SwappedSince.after [Checks] {deps : RePairDeps} {s : Shared Tables Event} (hbooks : Books deps s)
    {q : PendingRePair} (hq : Known s q) (h : SwappedSince s q) {now : Nat → Int} {p : Progress}
    {ticks : List Nat} {t' : Tables} {events : List Event}
    (heffect : Effect now s.tables p t' events) : SwappedSince (s.after ticks t' events) q := by
  have hone : ∀ event,(∀ c row,event = .initiated c row → row.attempt = s.tables.attempts) →
      SwappedSince (s.after ticks t' [event]) q := by
    intro event hevent before c row since heq hattempt
    rcases append_singleton_cases heq with ⟨rest,hrest,rfl⟩ | ⟨_,hx,_⟩
    · obtain ⟨pending,old,new,time,hmem,hpending⟩ := h before c row rest hrest hattempt
      exact ⟨pending,old,new,time,List.mem_append_left _ hmem,hpending⟩
    · obtain ⟨c',first,hfirst,hsame⟩ := hq
      have hlt := hbooks.counted c' first hfirst
      have hnew := hevent c row hx.symm
      have hsame' := hsame.attempt
      omega
  have hnil : SwappedSince (s.after ticks t' []) q := by
    intro before c row since heq
    rw [Shared.after,List.append_nil] at heq
    exact h before c row since heq
  cases heffect with
  | quiet _ _ => exact hnil
  | inserts _ _ _ =>
    refine hone _ ?_
    intro c row heq
    cases heq
    rfl
  | removes _ _ _ => exact hnil
  | claims _ _ _ _ _ _ _ => exact hnil
  | vetoes _ _ _ _ _ _ => exact hone _ (by simp)
  | objects _ _ _ _ _ _ => exact hone _ (by simp)
  | objectsNothing _ _ _ => exact hone _ (by simp)
  | swaps _ _ _ _ => exact hone _ (by simp)

section
variable [Lowercase] {deps : RePairDeps}

/-- What settles an attempt settles it for good. -/
theorem Standing.settled {s s' : Shared Tables Event} {since since' : List Event} {row : PendingRePair}
    (h : Standing deps s since row) (hsub : since ⊆ since') (hclock : s.clock ≤ s'.clock)
    (hstored : ∀ stored,s.tables.pending = some stored → stored.attempt = row.attempt →
      stored.objectedAt = none → Standing deps s' since' row) : Standing deps s' since' row := by
  rcases h with ⟨stored,hpending,hattempt,hobjected⟩ | ⟨q,old,new,time,hmem,hattempt⟩ |
    ⟨r,q,marked,hmem,hattempt,hnames⟩ | ⟨r,q,marked,hmem,hattempt,hnames⟩ | hlate
  · exact hstored stored hpending hattempt hobjected
  · exact Or.inr (Or.inl ⟨q,old,new,time,hsub hmem,hattempt⟩)
  · exact Or.inr (Or.inr (Or.inl ⟨r,q,marked,hsub hmem,hattempt,hnames⟩))
  · exact Or.inr (Or.inr (Or.inr (Or.inl ⟨r,q,marked,hsub hmem,hattempt,hnames⟩)))
  · exact Or.inr (Or.inr (Or.inr (Or.inr (hlate.trans hclock))))

theorem Standing.stored {s : Shared Tables Event} {since : List Event} {stored row : PendingRePair}
    (hpending : s.tables.pending = some stored) (hattempt : stored.attempt = row.attempt)
    (hobjected : stored.objectedAt = none) : Standing deps s since row :=
  Or.inl ⟨stored,hpending,hattempt,hobjected⟩

theorem Standing.late {s : Shared Tables Event} {since : List Event} {row : PendingRePair}
    (h : row.completesAt + deps.completeWindow ≤ s.clock) : Standing deps s since row :=
  Or.inr (Or.inr (Or.inr (Or.inr h)))

theorem namesAttempt_of_same {r : VetoBody} {row stored : PendingRePair}
    (hsame : SameAttempt row stored) (h : namesAttempt r stored = true) :
    namesAttempt r row = true := by
  rw [namesAttempt,hsame.newKey,hsame.initiatedAt,hsame.completesAt]
  exact h

/-- A call that records nothing displaces nobody, where it displaces no stored
row. -/
theorem NoneDisplaced.silent {s : Shared Tables Event} (h : NoneDisplaced deps s)
    {ticks : List Nat} {t' : Tables}
    (hstored : ∀ before c row since stored,s.history = before ++ .initiated c row :: since →
      s.tables.pending = some stored → stored.attempt = row.attempt → stored.objectedAt = none →
      Standing deps (s.after ticks t' []) since row) :
    NoneDisplaced deps (s.after ticks t' []) := by
  intro before c row since heq
  have heq' : s.history = before ++ .initiated c row :: since := by
    rw [← heq,Shared.after,List.append_nil]
  refine Standing.settled (h before c row since heq') (List.Subset.refl since)
    (le_after_clock s ticks t' []) ?_
  exact fun stored => hstored before c row since stored heq'

/-- A call that records an event other than an accepted initiate. -/
theorem NoneDisplaced.records {s : Shared Tables Event} (h : NoneDisplaced deps s)
    {ticks : List Nat} {t' : Tables} {event : Event} (hevent : ∀ c row,event ≠ .initiated c row)
    (hstored : ∀ before c row since stored,s.history = before ++ .initiated c row :: since →
      s.tables.pending = some stored → stored.attempt = row.attempt → stored.objectedAt = none →
      Standing deps (s.after ticks t' [event]) (since ++ [event]) row) :
    NoneDisplaced deps (s.after ticks t' [event]) := by
  intro before c row since heq
  rcases append_singleton_cases heq with ⟨rest,hrest,rfl⟩ | ⟨_,hx,_⟩
  · refine Standing.settled (h before c row rest hrest) (List.subset_append_left rest [event])
      (le_after_clock s ticks t' [event]) ?_
    exact fun stored => hstored before c row rest stored hrest
  · exact absurd hx.symm (hevent c row)

theorem NoneDisplaced.inserts {s : Shared Tables Event} (h : NoneDisplaced deps s) {ticks : List Nat}
    {t' : Tables} {c : Cleared} {rec : PendingRePair} (hnone : s.tables.pending = none)
    (hpending : t'.pending = some (inserted s.tables rec)) :
    NoneDisplaced deps (s.after ticks t' [.initiated c (inserted s.tables rec)]) := by
  intro before c' row since heq
  rcases append_singleton_cases heq with ⟨rest,hrest,rfl⟩ | ⟨_,hx,_⟩
  · refine Standing.settled (h before c' row rest hrest) (List.subset_append_left rest _)
      (le_after_clock s ticks t' _) ?_
    intro stored hstored
    rw [hnone] at hstored
    cases hstored
  · cases hx
    exact Standing.stored hpending rfl rfl

/-- A delete that finds a dead row, or the one whose key is swapped in. -/
theorem NoneDisplaced.removes [Checks] {s : Shared Tables Event} (h : NoneDisplaced deps s)
    (hbooks : Books deps s) {ticks : List Nat} {t' : Tables} {p : Progress}
    (hswapped : SwappedFirst p s)
    (hmay : ∀ row,s.tables.pending = some row →
      mayRemove deps (reading s.clock ticks 0) row p = true) :
    NoneDisplaced deps (s.after ticks t' []) := by
  refine NoneDisplaced.silent h ?_
  intro before c row since stored heq hstored hattempt hobjected
  have hmem : .initiated c row ∈ s.history := by
    rw [heq]
    exact List.mem_append_right before List.mem_cons_self
  have hsame := hbooks.same_attempt hstored hmem hattempt
  have hdead : dead deps (reading s.clock ticks 0) stored = true →
      Standing deps (s.after ticks t' []) since row := by
    intro hdead
    simp only [dead,hobjected,Option.isSome_none,Bool.false_or,decide_eq_true_eq] at hdead
    refine Standing.late ?_
    rw [hsame.completesAt]
    exact hdead.trans (reading_le s.clock ticks 0)
  have hmay := hmay stored hstored
  cases p with
  | completeDelete q policy =>
    simp only [mayRemove,Bool.or_eq_true,beq_iff_eq] at hmay
    rcases hmay with hmay | hmay
    · exact hdead hmay
    · exact Or.inr (Or.inl (hswapped before c row since heq (hattempt.symm.trans hmay)))
  | _ => exact hdead hmay

/-- A call of a run in which every move finds its row. -/
theorem NoneDisplaced.effect [Checks] {w : Served Tables Event Progress}
    (h : NoneDisplaced deps w.shared) (hbooks : Books deps w.shared) {i : Nat} {p : Progress}
    {ticks : List Nat} {outside : Elsewhere} (hi : w.requests[i]? = some p)
    (hswapped : SwappedFirst p w.shared)
    (hc : findsItsRow deps w (.resume i ticks outside) = true) {t' : Tables} {events : List Event}
    (heffect : Effect (reading w.shared.clock ticks) w.shared.tables p t' events) :
    NoneDisplaced deps (w.shared.after ticks t' events) := by
  have hmem : ∀ before c row since,w.shared.history = before ++ .initiated c row :: since →
      .initiated c row ∈ w.shared.history := by
    intro before c row since heq
    rw [heq]
    exact List.mem_append_right before List.mem_cons_self
  cases heffect with
  | quiet hpending _ =>
    refine NoneDisplaced.silent h ?_
    intro _ _ row since stored _ hstored hattempt hobjected
    exact Standing.stored (hpending.trans hstored) hattempt hobjected
  | inserts hnone hpending _ => exact NoneDisplaced.inserts h hnone hpending
  | removes hp hpending _ =>
    refine NoneDisplaced.removes h hbooks hswapped ?_
    intro row hrow
    have hall : ∀ q,q = p → (!Recovery.removes q || w.shared.tables.pending.all fun row =>
        mayRemove deps (reading w.shared.clock ticks 0) row q) = true := by
      rintro q rfl
      cases q with
      | initiateSweep c existing => simpa only [findsItsRow,hi] using hc
      | completeExpire q => simpa only [findsItsRow,hi] using hc
      | completeDrop q => simpa only [findsItsRow,hi] using hc
      | completeDelete q policy => simpa only [findsItsRow,hi] using hc
      | _ => cases hp
    have hmay := hall p rfl
    rw [hp,hrow] at hmay
    exact hmay
  | @vetoes r q marked marked' stamp _ hrow hopen hsame hobjected hpending _ =>
    simp only [findsItsRow,hi,hrow,Option.all_some,hopen,Bool.not_true,Bool.false_or] at hc
    refine NoneDisplaced.records h (by simp) ?_
    intro before c row since stored heq hstored hattempt _
    cases hrow.symm.trans hstored
    have hnames := namesAttempt_of_same
      (hbooks.same_attempt hrow (hmem before c row since heq) hattempt) hc
    exact Or.inr (Or.inr (Or.inl ⟨r,q,marked,
      List.mem_append_right since (List.mem_singleton.mpr rfl),hattempt,hnames⟩))
  | @objects r q marked marked' stamp _ hrow hopen hsame hobjected hpending _ =>
    simp only [findsItsRow,hi,hrow,Option.all_some,hopen,Bool.not_true,Bool.false_or,
      beq_iff_eq] at hc
    refine NoneDisplaced.records h (by simp) ?_
    intro before c row since stored heq hstored hattempt _
    cases hrow.symm.trans hstored
    have hkey := (hbooks.same_attempt hrow (hmem before c row since heq) hattempt).newKey
    refine Or.inr (Or.inr (Or.inr (Or.inl ⟨r,q,marked,
      List.mem_append_right since (List.mem_singleton.mpr rfl),hattempt,?_⟩)))
    rw [hkey]
    exact hc
  | objectsNothing _ hpending _ =>
    refine NoneDisplaced.records h (by simp) ?_
    intro _ _ row since stored _ hstored hattempt hobjected
    exact Standing.stored (hpending.trans hstored) hattempt hobjected
  | claims hrow _ hsame hkept _ hpending _ =>
    refine NoneDisplaced.silent h ?_
    intro _ _ row since stored _ hstored hattempt hobjected
    cases hrow.symm.trans hstored
    exact Standing.stored hpending (hsame.attempt.symm.trans hattempt) (hkept.trans hobjected)
  | swaps _ _ hpending _ =>
    refine NoneDisplaced.records h (by simp) ?_
    intro _ _ row since stored _ hstored hattempt hobjected
    exact Standing.stored (hpending.trans hstored) hattempt hobjected

variable [Checks] {account : Text}

/-- A completion that has just swapped the key has recorded it. -/
theorem swappedFirst_advance {s : Shared Tables Event} {p p' : Progress} {ticks : List Nat}
    {outside : Elsewhere} {t' : Tables} {events : List Event}
    (hadv : advance deps account (reading s.clock ticks) outside p s.tables = (p',t',events)) :
    SwappedFirst p' (s.after ticks t' events) := by
  by_cases hclaim : ∃ q policy refreshes stamp,p = .completeClaim q policy refreshes stamp
  · obtain ⟨q,policy,refreshes,stamp,rfl⟩ := hclaim
    simp only [advance] at hadv
    split at hadv
    · cases hadv
      trivial
    · cases hadv
      trivial
  by_cases hswap : ∃ q policy refreshes stamp,p = .completeSwap q policy refreshes stamp
  · obtain ⟨q,policy,refreshes,stamp,rfl⟩ := hswap
    rcases swapIrkPub_cases s.tables q.oldIrkPubHex q.newIrkPubHex stamp with
      ⟨user,_,huser,_,heq,_,_⟩ | heq
    · simp only [advance,heq,huser,Option.toList_some,List.map_cons,List.map_nil] at hadv
      cases hadv
      have hswapped : ∀ ticks t',SwappedSince (s.after ticks t'
          [.swapped q user.irkPubHex q.newIrkPubHex (reading s.clock ticks 0)]) q := by
        intro ticks t' before c row since heq hattempt
        rcases append_singleton_cases heq with ⟨rest,_,rfl⟩ | ⟨_,hx,_⟩
        · exact ⟨q,_,_,_,List.mem_append_right rest (List.mem_singleton.mpr rfl),hattempt.symm⟩
        · cases hx
      unfold afterSwap
      split
      · split_ifs
        · trivial
        · exact hswapped ticks _
      · exact hswapped ticks _
    · simp only [advance,heq] at hadv
      cases hadv
      trivial
  · refine swappedFirst_of ?_ _
    have hpast := pastClaim_advance deps account (reading s.clock ticks) outside s.tables
      (fun q policy refreshes stamp heq => hclaim ⟨q,policy,refreshes,stamp,heq⟩)
      (fun q policy refreshes stamp heq => hswap ⟨q,policy,refreshes,stamp,heq⟩)
    rwa [hadv] at hpast

theorem step_displaced (w : Served Tables Event Progress) (move : Move Request Elsewhere)
    (hw : w.Holds (NoneDisplaced deps) SwappedFirst)
    (hc : findsItsRow deps w move = true ∧ w.Holds (Books deps) (Asserted deps)) :
    ((handlers deps account).step w move).Holds (NoneDisplaced deps) SwappedFirst := by
  refine (handlers deps account).step_holds
    (fun w move => findsItsRow deps w move = true ∧ w.Holds (Books deps) (Asserted deps))
    ?_ ?_ ?_ ?_ w move hw hc
  · intro s ticks hs
    rw [Shared.later_eq]
    refine NoneDisplaced.silent hs ?_
    intro _ _ row since stored _ hstored hattempt hobjected
    exact Standing.stored hstored hattempt hobjected
  · exact fun p s ticks hp => hp
  · intro w request ticks outside _ _
    exact swappedFirst_of (pastClaim_accept _ outside request) _
  · intro w i p ticks outside p' t' events hi hc hs hp hadv
    obtain ⟨hc,hbooks,hasserted⟩ := hc
    refine ⟨NoneDisplaced.effect hs hbooks hi hp hc (effect_of hadv),swappedFirst_advance hadv,?_⟩
    intro q hq h
    cases q with
    | completeDelete q policy =>
      exact SwappedSince.after hbooks (hasserted _ hq) h (effect_of hadv)
    | _ => trivial

end
def objectTo (key : Text) : ObjectBody := ⟨alice,key,0,key⟩

/-- A recovery to `bb` that its own device cancels, and one to `cc` after it. -/
def cancelledRecovery : List (Move Request Elsewhere) :=
  .receive (.initiate (some (initiateTo "bb".toList 0))) [] nothingElse :: resumes 0 3 ++
    .receive (.object (some (objectTo "bb".toList))) [] nothingElse :: resumes 1 2 ++
    .receive (.initiate (some (initiateTo "cc".toList 0))) [] nothingElse :: resumes 2 4

/-- Recoveries to `cc` and to `ee` both read the cancelled row of `bb`; the sweep of
the second removes the row the first has inserted since. -/
def twoSweeps : List (Move Request Elsewhere) :=
  .receive (.initiate (some (initiateTo "bb".toList 0))) [] nothingElse :: resumes 0 3 ++
    .receive (.object (some (objectTo "bb".toList))) [] nothingElse :: resumes 1 2 ++
    .receive (.initiate (some (initiateTo "cc".toList 0))) [] nothingElse :: resumes 2 2 ++
    .receive (.initiate (some (initiateTo "ee".toList 0))) [] nothingElse :: resumes 3 2 ++
    resumes 2 2 ++ resumes 3 1

def firstRow (key : Text) : PendingRePair :=
  newRow plainDeps ⟨initiateTo key 0,aliceRecord,none,0,.registeredKey⟩ 0 0

theorem twoSweeps_shared :
    (run (handlers plainDeps alice).step (fresh (some aliceRecord) 0) twoSweeps).shared.history =
        [.initiated ⟨initiateTo "bb".toList 0,aliceRecord,none,0,.registeredKey⟩
            (firstRow "bb".toList),
          .objected (objectTo "bb".toList) (firstRow "bb".toList) (some (firstRow "bb".toList)),
          .initiated ⟨initiateTo "cc".toList 0,aliceRecord,none,0,.registeredKey⟩
            { firstRow "cc".toList with attempt := 1 }] ∧
      (run (handlers plainDeps alice).step (fresh (some aliceRecord) 0)
        twoSweeps).shared.tables.pending = none ∧
      (run (handlers plainDeps alice).step (fresh (some aliceRecord) 0) twoSweeps).shared.clock =
        0 := by
  decide +kernel

end Flagship.Recovery.Proofs

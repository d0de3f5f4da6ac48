import Flagship.Recovery.Proofs.Effects

namespace Flagship.Recovery.Proofs
open Lib Control

/-- A row of an attempt that was accepted. -/
def Known (s : Shared Tables Event) (row : PendingRePair) : Prop :=
  ∃ c first,.initiated c first ∈ s.history ∧ SameAttempt first row

theorem Known.after {s : Shared Tables Event} {row : PendingRePair} (h : Known s row)
    (ticks : List Nat) (t : Tables) (events : List Event) : Known (s.after ticks t events) row := by
  obtain ⟨c,first,hmem,hsame⟩ := h
  exact ⟨c,first,List.mem_append_left events hmem,hsame⟩

theorem Known.same {s : Shared Tables Event} {row row' : PendingRePair} (h : Known s row)
    (hsame : SameAttempt row row') : Known s row' := by
  obtain ⟨c,first,hmem,hfirst⟩ := h
  exact ⟨c,first,hmem,hfirst.trans hsame⟩

section
variable [Checks] (deps : RePairDeps)

/-- What an initiate stands for once it is past the credential gate. -/
structure Accepted (c : Cleared) (row : PendingRePair) : Prop where
  verified : c.Verified deps
  newKey : row.newIrkPubHex = c.body.newIrkPub
  oldKey : row.oldIrkPubHex = c.body.oldIrkPub
  waits : row.initiatedAt + deps.grace c.user ≤ row.completesAt

/-- What the accepted attempts so far have in common. -/
structure Books (s : Shared Tables Event) : Prop where
  stored : ∀ row,s.tables.pending = some row → Known s row
  counted : ∀ c row,.initiated c row ∈ s.history → row.attempt < s.tables.attempts
  accepted : ∀ c row,.initiated c row ∈ s.history → Accepted deps c row
  single : ∀ c row c' row',.initiated c row ∈ s.history → .initiated c' row' ∈ s.history →
    row.attempt = row'.attempt → row = row'

/-- What a request may rely on at the call it stands before. -/
def Asserted (p : Progress) (s : Shared Tables Event) : Prop :=
  match p with
  | .consumeRead c _ _ => c.Verified deps
  | .consumeCas c _ _ _ _ => c.Verified deps
  | .initiatePending c => c.Verified deps
  | .initiateSweep c _ => c.Verified deps
  | .initiateInsert c rec => Accepted deps c rec
  | .vetoUser _ q => Known s q
  | .vetoStore _ q _ => Known s q
  | .objectStore _ q _ => Known s q
  | .completeUser _ q => Known s q ∧ q.completesAt ≤ s.clock
  | .completeClaim q _ _ _ => Known s q ∧ q.completesAt ≤ s.clock
  | .completeSwap q _ _ _ => Known s q ∧ q.completesAt ≤ s.clock
  | .completeDelete q _ => Known s q
  | _ => True

variable {deps}

theorem Asserted.after {p : Progress} {s : Shared Tables Event} (h : Asserted deps p s)
    (ticks : List Nat) (t : Tables) (events : List Event) :
    Asserted deps p (s.after ticks t events) := by
  have hclock : ∀ q : PendingRePair,q.completesAt ≤ s.clock →
      q.completesAt ≤ (s.after ticks t events).clock := by
    intro q hq
    simp only [Shared.after]
    omega
  cases p with
  | consumeRead c code attempt => exact h
  | consumeCas c code attempt currentJson newJson => exact h
  | initiatePending c => exact h
  | initiateSweep c existing => exact h
  | initiateInsert c rec => exact h
  | vetoUser r q => exact Known.after h ticks t events
  | vetoStore r q stamp => exact Known.after h ticks t events
  | objectStore r q stamp => exact Known.after h ticks t events
  | completeUser r q => exact ⟨h.1.after ticks t events,hclock q h.2⟩
  | completeClaim q policy refreshes stamp => exact ⟨h.1.after ticks t events,hclock q h.2⟩
  | completeSwap q policy refreshes stamp => exact ⟨h.1.after ticks t events,hclock q h.2⟩
  | completeDelete q policy => exact Known.after h ticks t events
  | _ => trivial

theorem provenKey_verified {r : InitiateBody} {claim : RePairInitiate} {user : UsernameRecord}
    (h : provenKey r claim user = .ok true) :
    ∃ s sig pub,present r.oldIrkSignature = some s ∧ hexToBytes s = some sig ∧
      hexToBytes user.irkPubHex = some pub ∧ Checks.verifyRePairInitiate claim sig pub = true := by
  unfold provenKey at h
  split at h
  · cases h
  · rename_i s hs
    split at h
    · cases h
    · rename_i sig hsig
      split at h
      · cases h
      · rename_i pub hpub
        split at h
        · rename_i hverify
          exact ⟨s,sig,pub,hs,hsig,hpub,hverify⟩
        · cases h

theorem shownCredential_verified {now : Nat → Int} {outside : Elsewhere} {r : InitiateBody}
    {user : UsernameRecord} {method : RecoveryMethod} {checkedAt : Int}
    (h : shownCredential deps now outside r user = .ok (method,checkedAt)) :
    Cleared.Verified deps ⟨r,user,outside.fetchTokenHashHex,checkedAt,method⟩ := by
  unfold shownCredential at h
  dsimp only at h
  split at h
  · cases h
  · split at h
    · split at h
      · rename_i secret hash token hcredential hproof
        split at h
        · rename_i hverify
          cases h
          exact ⟨secret,hash,token,hcredential,hproof,hverify⟩
        · cases h
      · cases h
    · rename_i code hcode
      split at h
      · cases h
      · rename_i kek hkek
        split at h
        · cases h
        · split at h
          · cases h
          · rename_i hvalid
            cases h
            exact ⟨code,kek,hcode,hkek,hvalid⟩
          · rename_i hvalid
            cases h
            exact ⟨code,kek,hcode,hkek,hvalid⟩

/-- Whatever lets an initiate through the gate was verified. -/
theorem credentialUsed_verified {now : Nat → Int} {outside : Elsewhere} {r : InitiateBody}
    {claim : RePairInitiate} {user : UsernameRecord} {method : RecoveryMethod} {checkedAt : Int}
    (hclaim : initiateClaim r = some claim)
    (h : credentialUsed deps now outside r claim user = .ok (method,checkedAt)) :
    Cleared.Verified deps ⟨r,user,outside.fetchTokenHashHex,checkedAt,method⟩ := by
  unfold credentialUsed at h
  split at h
  · cases h
  · split at h
    · cases h
    · rename_i hproven
      cases h
      obtain ⟨s,sig,pub,hs,hsig,hpub,hverify⟩ := provenKey_verified hproven
      exact ⟨claim,s,sig,pub,hclaim,hs,hsig,hpub,hverify⟩
    · exact shownCredential_verified h

theorem consumeCode_asserted {c : Cleared} (h : c.Verified deps) (code : Text) (attempt : Nat)
    (user : Option UsernameRecord) (s : Shared Tables Event) :
    Asserted deps (consumeCode c code attempt user) s := by
  unfold consumeCode
  split
  · trivial
  · split
    · trivial
    · split
      · trivial
      · exact h

theorem consumed_asserted {c : Cleared} (h : c.Verified deps) (code : Text) (attempt : Nat)
    (ok : Bool) (s : Shared Tables Event) : Asserted deps (consumed c code attempt ok) s := by
  unfold consumed
  split_ifs
  · exact h
  · exact h
  · trivial

theorem newRow_accepted {c : Cleared} (h : c.Verified deps) {first second : Int}
    (hle : first ≤ second) : Accepted deps c (newRow deps c first second) := by
  refine ⟨h,rfl,rfl,?_⟩
  simp only [newRow]
  omega

theorem sweepOrInsert_asserted {c : Cleared} (h : c.Verified deps) {now : Nat → Int}
    (hnow : ∀ j k,j ≤ k → now j ≤ now k) (existing : Option PendingRePair)
    (s : Shared Tables Event) : Asserted deps (sweepOrInsert deps now c existing) s := by
  unfold sweepOrInsert
  split
  · exact newRow_accepted h (hnow 1 2 (by omega))
  · split_ifs
    · exact h
    · exact newRow_accepted h (hnow 2 3 (by omega))

theorem completable_asserted {now : Nat → Int} {r : CompleteBody} {q : PendingRePair}
    {s : Shared Tables Event} (hq : Known s q) (hclock : now 2 ≤ s.clock) :
    Asserted deps (completable deps now r q) s := by
  unfold completable
  split
  · trivial
  · split_ifs with hearly hlate
    · trivial
    · trivial
    · exact ⟨hq,by omega⟩

theorem checkGrants_asserted {now : Nat → Int} {outside : Elsewhere} {r : CompleteBody}
    {q : PendingRePair} {s : Shared Tables Event} (hq : Known s q ∧ q.completesAt ≤ s.clock)
    (user : Option UsernameRecord) : Asserted deps (checkGrants deps now outside r q user) s := by
  unfold checkGrants
  dsimp only
  split_ifs
  · split
    · trivial
    · trivial
    · exact hq
  · exact hq

theorem afterSwap_asserted {outside : Elsewhere} {q : PendingRePair} {s : Shared Tables Event}
    (hq : Known s q) (policy : RecoveryWipePolicy) (refreshes : Bool) :
    Asserted deps (afterSwap outside q policy refreshes) s := by
  unfold afterSwap
  split
  · split_ifs
    · trivial
    · exact hq
  · exact hq

variable [Lowercase]

theorem checkInitiate_asserted (now : Nat → Int) (outside : Elsewhere) (r : InitiateBody)
    (user : Option UsernameRecord) (s : Shared Tables Event) :
    Asserted deps (checkInitiate deps now outside r user) s := by
  unfold checkInitiate
  split
  · trivial
  · split_ifs
    · trivial
    · trivial
    · split
      · rename_i hclaim _
        split_ifs
        · split
          · trivial
          · rename_i hused
            have hverified := credentialUsed_verified hclaim hused
            dsimp only
            split_ifs
            · exact hverified
            · exact hverified
        · trivial
      · trivial

theorem matchVeto_asserted {s : Shared Tables Event} {pending : Option PendingRePair}
    (h : ∀ row,pending = some row → Known s row) (r : VetoBody) :
    Asserted deps (matchVeto r pending) s := by
  unfold matchVeto
  split
  · trivial
  · rename_i row
    split_ifs
    · exact h row rfl
    · trivial

theorem checkVeto_asserted {s : Shared Tables Event} {q : PendingRePair} (h : Known s q)
    (now : Nat → Int) (r : VetoBody) (user : Option UsernameRecord) :
    Asserted deps (checkVeto now r q user) s := by
  unfold checkVeto
  split
  · trivial
  · split_ifs
    · trivial
    · split
      · split_ifs
        · exact h
        · trivial
      · trivial

theorem checkObject_asserted {s : Shared Tables Event} {pending : Option PendingRePair}
    (h : ∀ row,pending = some row → Known s row) (now : Nat → Int) (r : ObjectBody) :
    Asserted deps (checkObject now r pending) s := by
  unfold checkObject
  split
  · trivial
  · rename_i row
    split_ifs
    · trivial
    · split
      · split_ifs
        · exact h row rfl
        · trivial
      · trivial

theorem checkComplete_asserted {s : Shared Tables Event} {pending : Option PendingRePair}
    (h : ∀ row,pending = some row → Known s row) {account : Text} {now : Nat → Int}
    (hclock : now 2 ≤ s.clock) (body : Option CompleteBody) :
    Asserted deps (checkComplete deps account now body pending) s := by
  unfold checkComplete
  split
  · trivial
  · rename_i row
    split
    · trivial
    · split_ifs
      · trivial
      · trivial
      · trivial
      · split
        · split_ifs
          · exact completable_asserted (h row rfl) hclock
          · trivial
        · trivial

theorem accept_asserted {account : Text} (now : Nat → Int) (outside : Elsewhere) (request : Request)
    (s : Shared Tables Event) : Asserted deps (accept deps account now outside request) s := by
  cases request with
  | initiate body =>
    simp only [accept]
    unfold startInitiate
    split
    · trivial
    · split_ifs <;> trivial
  | veto body =>
    simp only [accept]
    unfold startVeto
    split
    · trivial
    · split_ifs <;> trivial
  | object body =>
    simp only [accept]
    unfold startObject
    split
    · trivial
    · split_ifs <;> trivial
  | complete body => trivial

/-- A request's next call finds what it relies on. -/
theorem advance_asserted {account : Text} {s : Shared Tables Event} {p p' : Progress}
    {ticks : List Nat} {outside : Elsewhere} {t' : Tables} {events : List Event}
    (hbooks : Books deps s) (hp : Asserted deps p s)
    (hadv : advance deps account (reading s.clock ticks) outside p s.tables = (p',t',events)) :
    Asserted deps p' (s.after ticks t' events) := by
  have hstored : ∀ row,s.tables.pending = some row → Known (s.after ticks t' events) row :=
    fun row hrow => (hbooks.stored row hrow).after ticks t' events
  have hkept := hp.after ticks t' events
  have hmono : ∀ j k,j ≤ k → reading s.clock ticks j ≤ reading s.clock ticks k :=
    fun _ _ h => reading_mono s.clock ticks h
  have hclock : reading s.clock ticks 2 ≤ (s.after ticks t' events).clock :=
    reading_le s.clock ticks 2
  cases p with
  | initiateUser r =>
    cases hadv
    exact checkInitiate_asserted _ outside r _ _
  | consumeRead c code attempt =>
    cases hadv
    exact consumeCode_asserted hp code attempt _ _
  | consumeCas c code attempt currentJson newJson =>
    cases hadv
    exact consumed_asserted hp code attempt _ _
  | initiatePending c =>
    cases hadv
    exact sweepOrInsert_asserted hp hmono _ _
  | initiateSweep c existing =>
    cases hadv
    exact newRow_accepted hp (hmono 1 2 (by omega))
  | initiateInsert c rec =>
    rcases initiate_cases s.tables rec with ⟨_,heq⟩ | ⟨_,heq⟩
    · simp only [advance,heq] at hadv
      cases hadv
      trivial
    · simp only [advance,heq] at hadv
      cases hadv
      trivial
  | vetoPending r =>
    cases hadv
    exact matchVeto_asserted hstored r
  | vetoUser r q =>
    cases hadv
    exact checkVeto_asserted hkept _ r _
  | vetoStore r q stamp =>
    rcases veto_cases s.tables stamp (toLowercase r.vetoerPub) r.signature with
      ⟨_,_,_,_,_,_,heq⟩ | ⟨_,heq⟩
    · simp only [advance,heq] at hadv
      cases hadv
      trivial
    · simp only [advance,heq] at hadv
      cases hadv
      trivial
  | objectPending r =>
    cases hadv
    exact checkObject_asserted hstored _ r
  | objectStore r q stamp =>
    rcases object_cases s.tables stamp with ⟨_,_,_,_,_,_,heq⟩ | ⟨_,heq⟩
    · simp only [advance,heq] at hadv
      cases hadv
      trivial
    · simp only [advance,heq] at hadv
      cases hadv
      trivial
  | completePending body =>
    cases hadv
    exact checkComplete_asserted hstored hclock body
  | completeExpire q =>
    cases hadv
    trivial
  | completeUser r q =>
    cases hadv
    exact checkGrants_asserted hkept _
  | completeClaim q policy refreshes stamp =>
    rcases claimCompletion_cases s.tables stamp with ⟨_,_,_,_,_,_,_,heq⟩ | ⟨_,heq⟩
    · simp only [advance,heq] at hadv
      cases hadv
      exact hkept
    · simp only [advance,heq] at hadv
      cases hadv
      trivial
  | completeRefused =>
    cases hadv
    trivial
  | completeSwap q policy refreshes stamp =>
    rcases swapIrkPub_cases s.tables q.oldIrkPubHex q.newIrkPubHex stamp with
      ⟨_,_,_,_,heq,_,_⟩ | heq
    · simp only [advance,heq] at hadv
      cases hadv
      exact afterSwap_asserted hkept.1 policy refreshes
    · simp only [advance,heq] at hadv
      cases hadv
      trivial
  | completeDrop q =>
    cases hadv
    trivial
  | completeDelete q policy =>
    cases hadv
    trivial
  | answered answer =>
    cases hadv
    trivial

omit [Lowercase] in
/-- Where a call neither inserts a row nor changes what attempt is stored, the
books stand. -/
theorem Books.unchanged {s : Shared Tables Event} (h : Books deps s) {ticks : List Nat} {t' : Tables}
    {events : List Event} (hattempts : t'.attempts = s.tables.attempts)
    (hevents : ∀ c row,.initiated c row ∉ events)
    (hstored : ∀ row',t'.pending = some row' →
      ∃ row,s.tables.pending = some row ∧ SameAttempt row row') :
    Books deps (s.after ticks t' events) := by
  have hold : ∀ c row,.initiated c row ∈ s.history ++ events → .initiated c row ∈ s.history := by
    intro c row hmem
    rcases List.mem_append.mp hmem with hmem | hmem
    · exact hmem
    · exact absurd hmem (hevents c row)
  constructor
  · intro row' hrow'
    obtain ⟨row,hrow,hsame⟩ := hstored row' hrow'
    exact ((h.stored row hrow).same hsame).after ticks t' events
  · intro c row hmem
    simp only [Shared.after,hattempts]
    exact h.counted c row (hold c row hmem)
  · exact fun c row hmem => h.accepted c row (hold c row hmem)
  · exact fun c row c' row' hmem hmem' =>
      h.single c row c' row' (hold c row hmem) (hold c' row' hmem')

omit [Lowercase] in
theorem Books.inserts {s : Shared Tables Event} (h : Books deps s) {ticks : List Nat} {t' : Tables}
    {c : Cleared} {rec : PendingRePair} (hrec : Accepted deps c rec)
    (hpending : t'.pending = some (inserted s.tables rec))
    (hattempts : t'.attempts = s.tables.attempts + 1) :
    Books deps (s.after ticks t' [.initiated c (inserted s.tables rec)]) := by
  have hcases : ∀ c' row,.initiated c' row ∈ s.history ++ [.initiated c (inserted s.tables rec)] →
      .initiated c' row ∈ s.history ∨ c' = c ∧ row = inserted s.tables rec := by
    intro c' row hmem
    rcases List.mem_append.mp hmem with hmem | hmem
    · exact Or.inl hmem
    · cases List.mem_singleton.mp hmem
      exact Or.inr ⟨rfl,rfl⟩
  constructor
  · intro row hrow
    cases hpending.symm.trans hrow
    exact ⟨c,_,List.mem_append_right _ (List.mem_singleton.mpr rfl),SameAttempt.refl _⟩
  · intro c' row hmem
    simp only [Shared.after,hattempts]
    rcases hcases c' row hmem with hmem | ⟨_,rfl⟩
    · exact Nat.lt_succ_of_lt (h.counted c' row hmem)
    · exact Nat.lt_succ_self _
  · intro c' row hmem
    rcases hcases c' row hmem with hmem | ⟨rfl,rfl⟩
    · exact h.accepted c' row hmem
    · exact ⟨hrec.verified,hrec.newKey,hrec.oldKey,hrec.waits⟩
  · intro c₁ row₁ c₂ row₂ h₁ h₂ heq
    rcases hcases c₁ row₁ h₁ with h₁ | ⟨_,rfl⟩
    · rcases hcases c₂ row₂ h₂ with h₂ | ⟨_,rfl⟩
      · exact h.single c₁ row₁ c₂ row₂ h₁ h₂ heq
      · exact absurd heq (Nat.ne_of_lt (h.counted c₁ row₁ h₁))
    · rcases hcases c₂ row₂ h₂ with h₂ | ⟨_,rfl⟩
      · exact absurd heq.symm (Nat.ne_of_lt (h.counted c₂ row₂ h₂))
      · rfl

omit [Lowercase] in
theorem Books.effect {s : Shared Tables Event} (h : Books deps s) {ticks : List Nat} {now : Nat → Int}
    {p : Progress} {t' : Tables} {events : List Event} (hp : Asserted deps p s)
    (heffect : Effect now s.tables p t' events) : Books deps (s.after ticks t' events) := by
  cases heffect with
  | quiet hpending hattempts =>
    refine h.unchanged hattempts (fun _ _ => List.not_mem_nil) ?_
    intro row hrow
    exact ⟨row,hpending.symm.trans hrow,SameAttempt.refl row⟩
  | inserts hnone hpending hattempts => exact h.inserts hp hpending hattempts
  | removes _ hpending hattempts =>
    refine h.unchanged hattempts (fun _ _ => List.not_mem_nil) ?_
    intro row hrow
    cases hpending.symm.trans hrow
  | vetoes hrow _ hsame _ hpending hattempts =>
    refine h.unchanged hattempts (by simp) ?_
    intro row' hrow'
    cases hpending.symm.trans hrow'
    exact ⟨_,hrow,hsame⟩
  | objects hrow _ hsame _ hpending hattempts =>
    refine h.unchanged hattempts (by simp) ?_
    intro row' hrow'
    cases hpending.symm.trans hrow'
    exact ⟨_,hrow,hsame⟩
  | objectsNothing _ hpending hattempts =>
    refine h.unchanged hattempts (by simp) ?_
    intro row hrow
    exact ⟨row,hpending.symm.trans hrow,SameAttempt.refl row⟩
  | claims hrow _ hsame _ _ hpending hattempts =>
    refine h.unchanged hattempts (fun _ _ => List.not_mem_nil) ?_
    intro row' hrow'
    cases hpending.symm.trans hrow'
    exact ⟨_,hrow,hsame⟩
  | swaps _ _ hpending hattempts =>
    refine h.unchanged hattempts (by simp) ?_
    intro row hrow
    exact ⟨row,hpending.symm.trans hrow,SameAttempt.refl row⟩

/-- Whatever else a run is asked to keep to, the books and the assertions stand
at every state of it. -/
theorem step_books {account : Text}
    {cond : Served Tables Event Progress → Move Request Elsewhere → Prop}
    (w : Served Tables Event Progress) (move : Move Request Elsewhere)
    (hw : w.Holds (Books deps) (Asserted deps)) (hc : cond w move) :
    ((handlers deps account).step w move).Holds (Books deps) (Asserted deps) := by
  refine (handlers deps account).step_holds cond ?_ ?_ ?_ ?_ w move hw hc
  · intro s ticks hs
    rw [Shared.later_eq]
    refine hs.unchanged rfl (fun _ _ => List.not_mem_nil) ?_
    intro row hrow
    exact ⟨row,hrow,SameAttempt.refl row⟩
  · intro p s ticks hp
    rw [Shared.later_eq]
    exact hp.after ticks _ _
  · intro w request ticks outside _ _
    exact accept_asserted _ outside request _
  · intro w i p ticks outside p' t' events _ _ hbooks hp hadv
    exact ⟨hbooks.effect hp (effect_of hadv),advance_asserted hbooks hp hadv,
      fun q _ hq => hq.after ticks t' events⟩

omit [Lowercase] in
theorem fresh_books (user : Option UsernameRecord) (clock : Int) :
    (fresh user clock).Holds (Books deps) (Asserted deps) := by
  refine ⟨⟨?_,?_,?_,?_⟩,?_⟩
  · intro row h
    cases h
  · intro c row h
    cases h
  · intro c row h
    cases h
  · intro c row c' row' h
    cases h
  · intro p h
    cases h

end
end Flagship.Recovery.Proofs

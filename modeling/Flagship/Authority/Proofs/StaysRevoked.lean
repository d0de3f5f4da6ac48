import Flagship.Authority.Proofs.HubCalls
import Flagship.Authority.Proofs.Lasting

namespace Flagship.Authority
open Lib Mesh

def lastingContract : Contract Call Daemon Outside Place Failure Answer Restart where
  toGrounds := grantCalls.and durable
  inv := Lasting
  rely _ := Endures
  guar _ := Endures
  fresh _ _ := True
  post _ _ _ _ := True
  ends _ _ _ _ := True

/-- Wherever a call of the grant index leaves off, this holds. -/
def Whenever {α : Type} (post : Outside → Daemon → Except Failure α → Daemon → Prop) : Prop :=
  ∀ y t₀ result t,Lasting t → Endures t₀ t → post y t₀ result t

section
variable {c : Call} {i : Nat} {x : Outside} {s₀ d : Daemon}

/-- The file found as it was, or with what was carried. -/
theorem StateFile.found_ask {f : StateFile GrantsFile} {body c : GrantsFile}
    (h : (f.ask body).Found c) : f.Found c ∨ c = body := by
  rcases h with h | ⟨hknown,rfl⟩
  · rcases StateFile.possible_ask h with hold | heq
    · exact Or.inl (Or.inl hold)
    · exact Or.inr heq
  · exact Or.inl (Or.inr ⟨hknown,rfl⟩)

theorem StateFile.found_settle {f : StateFile GrantsFile} {ticket : Nat} {c : GrantsFile}
    (h : (f.settle ticket).Found c) : f.Found c := by
  rcases h with h | ⟨hknown,_⟩
  · exact Or.inl (StateFile.possible_settle h)
  · have hpositive : 0 < max f.known (ticket + 1) := by omega
    exact absurd hknown (Nat.ne_of_gt hpositive)

/-- The write has its turn. -/
theorem Lasting.asks {body : GrantsBody} {begun : Nat} (h : Lasting d) (hcarried : Carried body d) :
    Lasting { d with
      grantsFile := d.grantsFile.ask (d.hub.grants.stringify body),grantsBegun := begun } := by
  have hon : Endures d { d with
      grantsFile := d.grantsFile.ask (d.hub.grants.stringify body),grantsBegun := begun } :=
    .of_eq rfl rfl (by simp [StateFile.ask])
  refine h.next hon h.sound ?_ h.accounts h.orderly ?_
  · have hbound := h.bound
    simp only [StateFile.ask,List.length_append]
    omega
  · intro c hc
    rcases StateFile.found_ask hc with hold | heq
    · exact Or.inl hold
    · exact Or.inr ⟨body,hcarried.on hon,heq⟩

/-- The write was made. -/
theorem Lasting.settles {ticket : Nat} (h : Lasting d)
    (hticket : ticket < d.grantsFile.writes.length) :
    Lasting { d with grantsFile := d.grantsFile.settle ticket } := by
  refine h.next (.of_eq rfl rfl (Nat.le_refl _)) h.sound ?_ h.accounts h.orderly ?_
  · have hbound := h.bound
    simp only [StateFile.settle]
    omega
  · intro c hc
    exact Or.inl (StateFile.found_settle hc)

/-- A write of the grants. One that fails was not for a revocation, nor for a grant
that is revoked by then. -/
theorem persist_lasting {write : GrantWrite} (hinv : Lasting d) (hguar : Endures s₀ d)
    {post : Outside → Daemon → Except Failure Unit → Daemon → Prop}
    (hok : ∀ y t₀ t,Lasting t → Endures t₀ t → post y t₀ (.ok ()) t)
    (herr : ∀ y t e,Lasting t → y.persisted = false → writeStands (.grantsWrite write 0) y t = true →
      post y t (.error e) t) :
    (GrantIndex.persist write).wp (lastingContract.terms c i) post x s₀ d := by
  simp only [GrantIndex.persist,wp_bind,wp_get,wp_disk,wp_modify,wp_awaits]
  refine ⟨hinv,hguar,?_⟩
  intro y t hrely hinv' hcond
  split
  next =>
    have hasked : Endures t { t with grantsAsked := t.grantsAsked + 1 } :=
      .of_eq rfl rfl (Nat.le_refl _)
    refine ⟨hinv'.next hasked hinv'.sound hinv'.bound hinv'.accounts hinv'.orderly
      (fun _ hc => Or.inl hc),hasked,?_⟩
    intro y t' hrely' hinv'' _
    have hcarried := (hinv.carried.on hrely).on (hasked.trans hrely')
    refine ⟨hinv''.asks hcarried,.of_eq rfl rfl (by simp [StateFile.ask]),?_⟩
    intro y u hrely'' hinvu hcond''
    split
    next =>
      refine hok y u _ (hinvu.settles ?_) (.of_eq rfl rfl (Nat.le_refl _))
      refine Nat.lt_of_lt_of_le ?_ (Endures.writes hrely'')
      simp [StateFile.ask]
    next hfailed => exact herr y u _ hinvu (Bool.eq_false_of_not_eq_true hfailed) hcond''.2
  next hfailed => exact herr y t _ hinv' (Bool.eq_false_of_not_eq_true hfailed) hcond.2

/-- A grant is put in the index. -/
theorem Lasting.issues {g : Grant} (h : Lasting d) (hadmits : d.hub.grants.Admits g) :
    Lasting { d with
      hub := { d.hub with grants := d.hub.grants.put g },history := d.history ++ [.issues g.id] } ∧
    Endures d { d with
      hub := { d.hub with grants := d.hub.grants.put g }
      history := d.history ++ [.issues g.id] } := by
  have hget := GrantIndex.get?_put h.sound g
  have hon : Endures d { d with
      hub := { d.hub with grants := d.hub.grants.put g }
      history := d.history ++ [.issues g.id] } := by
    refine ⟨Nat.le_refl _,Int.le_refl _,⟨_,rfl,fun _ id hid => by simp at hid⟩,
      fun _ => ⟨[g],rfl⟩,?_⟩
    intro _ id hrevoked
    obtain ⟨g',hg',hat⟩ := hrevoked
    have hput := (hget id).symm.trans hg'
    split at hput
    · cases hput
      rw [hadmits.unrevoked] at hat
      cases hat
    · exact ⟨g',hput,hat⟩
  refine ⟨h.changes hon (h.sound.put g) ?_ ?_,hon⟩
  · intro id a b heq hnot
    rcases append_eq_cut heq with ⟨b',hold,rfl⟩ | ⟨a',hevents,_⟩
    · rw [List.mem_append,not_or,List.mem_singleton,Event.issues.injEq] at hnot
      have hne : ¬ id = g.id := hnot.2
      have hsame : (d.hub.grants.put g).get? id = d.hub.grants.get? id := by
        rw [hget,if_neg hne]
      rcases h.accounts id a b' hold hnot.1 with ⟨g',hg',hat⟩ | ⟨hnone,hpruned⟩
      · exact Or.inl ⟨g',hsame.trans hg',hat⟩
      · exact Or.inr ⟨hsame.trans hnone,List.mem_append_left _ hpruned⟩
    · cases a' <;> simp at hevents
  · refine h.orderly.issue ?_
    intro a b heq hnot
    rcases h.accounts g.id a b heq hnot with ⟨g',hg',_⟩ | ⟨_,hpruned⟩
    · rw [hadmits.get?] at hg'
      cases hg'
    · exact hpruned

/-- A write that fails while its grant is not revoked takes the grant out again. -/
theorem Lasting.erases {id : Text} (h : Lasting d) (hnot : ¬ d.hub.grants.Revoked id) :
    Lasting { d with hub := { d.hub with
      grants := { d.hub.grants with grants := d.hub.grants.grants.erase id } } } ∧
    Endures d { d with hub := { d.hub with
      grants := { d.hub.grants with grants := d.hub.grants.grants.erase id } } } := by
  have hget : ∀ a,a ≠ id → GrantIndex.get? { d.hub.grants with
      grants := d.hub.grants.grants.erase id } a = d.hub.grants.get? a := by
    intro a ha
    simp only [GrantIndex.get?,OrdMap.get?_erase_ne ha]
  have hself : GrantIndex.get? { d.hub.grants with
      grants := d.hub.grants.grants.erase id } id = none := by
    simp only [GrantIndex.get?,OrdMap.get?_erase_self,Option.bind_none]
  have hon : Endures d { d with hub := { d.hub with
      grants := { d.hub.grants with grants := d.hub.grants.grants.erase id } } } := by
    refine ⟨Nat.le_refl _,Int.le_refl _,⟨[],by simp,by simp⟩,fun _ => ⟨[],by simp⟩,?_⟩
    intro _ a ha
    obtain ⟨g,hg,hat⟩ := ha
    by_cases heq : a = id
    · subst heq
      exact absurd (hself.symm.trans hg) (by simp)
    · exact ⟨g,(hget a heq).symm.trans hg,hat⟩
  refine ⟨h.next hon ?_ h.bound ?_ h.orderly (fun _ hc => Or.inl hc),hon⟩
  · intro a object hobject
    by_cases heq : a = id
    · subst heq
      simp at hobject
    · exact h.sound a object ((OrdMap.get?_erase_ne heq).symm.trans hobject)
  · intro a before b hhistory hissues
    rcases h.accounts a before b hhistory hissues with hrevoked | ⟨hnone,hpruned⟩
    · have heq : a ≠ id := fun heq => hnot (heq ▸ hrevoked)
      obtain ⟨g,hg,hat⟩ := hrevoked
      exact Or.inl ⟨g,(hget a heq).trans hg,hat⟩
    · refine Or.inr ⟨?_,hpruned⟩
      by_cases heq : a = id
      · subst heq
        exact hself
      · exact (hget a heq).trans hnone

theorem issue_lasting {input : NewGrant} (hinv : Lasting d) (hguar : Endures s₀ d)
    {post : Outside → Daemon → Except Failure Grant → Daemon → Prop} (h : Whenever post) :
    (GrantIndex.issue input).wp (lastingContract.terms c i) post x s₀ d := by
  rw [GrantIndex.issue,wp_bind,wp_get]
  dsimp only
  split
  · exact (wp_throw _).mpr (h x s₀ _ d hinv hguar)
  next grant hgrant =>
    obtain ⟨hput,hon⟩ := hinv.issues (GrantIndex.admits_of_newGrant hgrant)
    simp only [modifyGrants,notes,wp_bind,wp_modify,wp_tryCatch]
    refine persist_lasting hput (hguar.trans hon) ?_ ?_
    · intro y t₀ t hinv' hguar'
      exact (wp_pure _).mpr (h y t₀ _ t hinv' hguar')
    · intro y t e hinv' hfailed hstands
      simp only [writeStands,hfailed,Bool.false_or,Bool.not_eq_eq_eq_not,Bool.not_true] at hstands
      have hnot : ¬ t.hub.grants.Revoked grant.id := by
        intro hrevoked
        obtain ⟨g,hg,hat⟩ := hrevoked
        rw [hg,Option.any_some,hat] at hstands
        cases hstands
      obtain ⟨herased,hon'⟩ := hinv'.erases hnot
      exact (wp_throw _).mpr (h y t _ _ herased hon')

/-- A grant is asked to be revoked that is revoked, or not known. -/
theorem Lasting.notesRevoked {id : Text} (h : Lasting d)
    (hrevoked : d.hub.grants.grants.contains id = true → d.hub.grants.Revoked id) :
    Lasting { d with
      history := d.history ++ if d.hub.grants.grants.contains id then [.revokes id] else [] } ∧
    Endures d { d with
      history := d.history ++ if d.hub.grants.grants.contains id then [.revokes id] else [] } := by
  have hnew : ∀ a,Event.revokes a ∈
      (if d.hub.grants.grants.contains id then [.revokes id] else [] : List Event) →
      d.hub.grants.Revoked a := by
    intro a ha
    split at ha
    next hknown =>
      rw [List.mem_singleton,Event.revokes.injEq] at ha
      rw [ha]
      exact hrevoked hknown
    next => simp at ha
  have hon : Endures d { d with
      history := d.history ++ if d.hub.grants.grants.contains id then [.revokes id] else [] } :=
    ⟨Nat.le_refl _,Int.le_refl _,⟨_,rfl,fun _ => hnew⟩,fun _ => ⟨[],by simp⟩,fun _ _ ha => ha⟩
  refine ⟨@Lasting.changes _ d.hub.grants _ h hon h.sound (h.accounts.append hnew)
    (h.orderly.append ?_),hon⟩
  intro a ha
  split at ha <;> simp at ha

/-- The grant and what is below it is revoked, under an epoch that no file has. -/
theorem Lasting.revokes (h : Lasting d) (id reason : Text) (time : Int) :
    Lasting { d with
      hub := { d.hub with grants := d.hub.grants.afterRevoke id reason time }
      history := d.history ++ if d.hub.grants.grants.contains id then [.revokes id] else [] } ∧
    Endures d { d with
      hub := { d.hub with grants := d.hub.grants.afterRevoke id reason time }
      history := d.history ++ if d.hub.grants.grants.contains id then [.revokes id] else [] } := by
  have hepoch : ¬ (d.hub.grants.afterRevoke id reason time).epochValue ≤
      d.hub.grants.epochValue := by
    simp only [GrantIndex.afterRevoke]
    omega
  have hon : Endures d { d with
      hub := { d.hub with grants := d.hub.grants.afterRevoke id reason time }
      history := d.history ++ if d.hub.grants.grants.contains id then [.revokes id] else [] } :=
    ⟨Nat.le_refl _,Int.le_of_lt (Int.not_le.mp hepoch),⟨_,rfl,fun hle => absurd hle hepoch⟩,
      fun hle => absurd hle hepoch,fun hle => absurd hle hepoch⟩
  refine ⟨h.changes hon (h.sound.afterRevoke id reason time) ?_ (h.orderly.append ?_),hon⟩
  · refine Accounts.append (h.accounts.into (fun a ha => GrantIndex.revoked_afterRevoke ha) ?_) ?_
    · intro a hnone
      cases hobject : d.hub.grants.grants.get? a with
      | none => simp only [GrantIndex.get?,GrantIndex.afterRevoke,GrantIndex.change,hobject,
          Option.bind_none]
      | some object =>
        obtain ⟨g,hg,_⟩ := h.sound.get? hobject
        rw [hnone] at hg
        cases hg
    · intro a ha
      split at ha
      next hknown =>
        rw [List.mem_singleton,Event.revokes.injEq] at ha
        subst ha
        exact GrantIndex.revoked_self h.sound hknown
      next => simp at ha
  · intro a ha
    split at ha <;> simp at ha

theorem revokeGrant_lasting {id reason : Text} {time : Int} (hinv : Lasting d)
    (hguar : Endures s₀ d)
    {post : Outside → Daemon → Except Failure RevocationResult → Daemon → Prop}
    (h : Whenever post) :
    (GrantIndex.revoke id reason time).wp (lastingContract.terms c i) post x s₀ d := by
  simp only [GrantIndex.revoke,notes,wp_bind,wp_get,wp_modify]
  split
  next hempty =>
    obtain ⟨hnoted,hon⟩ := hinv.notesRevoked (GrantIndex.revoked_of_empty hinv.sound hempty)
    exact (wp_pure _).mpr (h x s₀ _ _ hnoted (hguar.trans hon))
  next =>
    obtain ⟨hrevoked,hon⟩ := hinv.revokes id reason time
    simp only [modifyGrants,wp_bind,wp_modify,wp_tryCatch]
    refine persist_lasting hrevoked (hguar.trans hon) ?_ ?_
    · intro y t₀ t hinv' hguar'
      dsimp only
      rw [wp_get]
      exact (wp_pure _).mpr (h y t₀ _ t hinv' hguar')
    · intro y t e _ hfailed hstands
      simp only [writeStands,hfailed,Bool.or_self] at hstands
      cases hstands

theorem revokeEach_lasting {reason : Text} {time : Int}
    {post : Outside → Daemon → Except Failure RevocationResult → Daemon → Prop} (gs : List Grant)
    (result : RevocationResult) (hinv : Lasting d) (hguar : Endures s₀ d) (h : Whenever post) :
    (GrantIndex.revokeEach reason time gs result).wp (lastingContract.terms c i) post x s₀ d := by
  induction gs generalizing result x s₀ d with
  | nil => exact (wp_pure _).mpr (h x s₀ _ d hinv hguar)
  | cons g gs ih =>
    rw [GrantIndex.revokeEach,wp_bind]
    refine revokeGrant_lasting hinv hguar ?_
    intro y t₀ r t hinv' hguar'
    cases r with
    | error e => exact h y t₀ _ t hinv' hguar'
    | ok r =>
      dsimp only
      rw [wp_bind,wp_awaits]
      exact ⟨hinv',hguar',fun z u _ hinvu _ => ih _ hinvu (.refl u)⟩

/-- Some grants are pruned. -/
theorem Lasting.prunes (h : Lasting d) (dropped : List Grant) :
    Lasting { d with
      hub := { d.hub with grants := { d.hub.grants with
        grants := dropped.foldl (fun m g => m.erase g.id) d.hub.grants.grants } }
      history := d.history ++ dropped.map (.prunes ·.id) } ∧
    Endures d { d with
      hub := { d.hub with grants := { d.hub.grants with
        grants := dropped.foldl (fun m g => m.erase g.id) d.hub.grants.grants } }
      history := d.history ++ dropped.map (.prunes ·.id) } := by
  have hobjects : ∀ a,(dropped.foldl (fun m g => m.erase g.id) d.hub.grants.grants).get? a =
      if a ∈ dropped.map (·.id) then none else d.hub.grants.grants.get? a := by
    intro a
    have herased := OrdMap.get?_foldl_erase (dropped.map (·.id)) d.hub.grants.grants a
    rw [List.foldl_map] at herased
    rw [herased]
    congr
  have hget : ∀ a,GrantIndex.get? { d.hub.grants with
      grants := dropped.foldl (fun m g => m.erase g.id) d.hub.grants.grants } a =
      if a ∈ dropped.map (·.id) then none else d.hub.grants.get? a := by
    intro a
    simp only [GrantIndex.get?,hobjects]
    split <;> rfl
  have hon : Endures d { d with
      hub := { d.hub with grants := { d.hub.grants with
        grants := dropped.foldl (fun m g => m.erase g.id) d.hub.grants.grants } }
      history := d.history ++ dropped.map (.prunes ·.id) } := by
    refine ⟨Nat.le_refl _,Int.le_refl _,⟨_,rfl,fun _ a ha => by simp at ha⟩,
      fun _ => ⟨[],by simp⟩,?_⟩
    intro _ a ha
    obtain ⟨g,hg,hat⟩ := ha
    have hkept := (hget a).symm.trans hg
    split at hkept
    · cases hkept
    · exact ⟨g,hkept,hat⟩
  refine ⟨h.changes hon ?_ ?_ (h.orderly.append (by simp)),hon⟩
  · intro a object hobject
    have hkept := (hobjects a).symm.trans hobject
    split at hkept
    · cases hkept
    · exact h.sound a object hkept
  · intro a before b hhistory hissues
    rcases append_eq_cut hhistory with ⟨b',hold,rfl⟩ | ⟨a',hevents,_⟩
    · rw [List.mem_append,not_or] at hissues
      by_cases hdropped : a ∈ dropped.map (·.id)
      · refine Or.inr ⟨(hget a).trans (if_pos hdropped),List.mem_append_right _ ?_⟩
        obtain ⟨g,hg,rfl⟩ := List.mem_map.mp hdropped
        exact List.mem_map.mpr ⟨g,hg,rfl⟩
      · have hkept := (hget a).trans (if_neg hdropped)
        rcases h.accounts a before b' hold hissues.1 with ⟨g,hg,hat⟩ | ⟨hnone,hpruned⟩
        · exact Or.inl ⟨g,hkept.trans hg,hat⟩
        · exact Or.inr ⟨hkept.trans hnone,List.mem_append_left _ hpruned⟩
    · have hmem : Event.revokes a ∈ dropped.map (.prunes ·.id) := by simp [hevents]
      simp at hmem

theorem prune_lasting {olderThanMs time : Int} (hinv : Lasting d) (hguar : Endures s₀ d)
    {post : Outside → Daemon → Except Failure Nat → Daemon → Prop} (h : Whenever post) :
    (GrantIndex.prune olderThanMs time).wp (lastingContract.terms c i) post x s₀ d := by
  obtain ⟨hpruned,hon⟩ :=
    hinv.prunes (d.hub.grants.values.filter (GrantIndex.longDead olderThanMs time))
  simp only [GrantIndex.prune,modifyGrants,notes,wp_bind,wp_get,wp_modify]
  split
  next =>
    rw [wp_bind]
    refine persist_lasting hpruned (hguar.trans hon) ?_ ?_
    · intro y t₀ t hinv' hguar'
      exact (wp_pure _).mpr (h y t₀ _ t hinv' hguar')
    · intro y t e hinv' _ _
      exact h y t _ t hinv' (.refl t)
  next => exact (wp_pure _).mpr (h x s₀ _ _ hpruned (hguar.trans hon))

theorem answers_whenever {α : Type} {code : Code α} {answer : α → Answer}
    {post : Outside → Daemon → Except Failure Answer → Daemon → Prop} (h : Whenever post)
    (hcode : ∀ {post : Outside → Daemon → Except Failure α → Daemon → Prop},Whenever post →
      code.wp (lastingContract.terms c i) post x s₀ d) :
    (do return answer (← code) : Code Answer).wp (lastingContract.terms c i) post x s₀ d := by
  rw [wp_bind]
  refine hcode ?_
  intro y t₀ result t hinv hguar
  cases result with
  | ok a => exact (wp_pure _).mpr (h y t₀ _ t hinv hguar)
  | error e => exact h y t₀ _ t hinv hguar

/-- What a start finds in a file may be found there. -/
theorem StateFile.found_crash {f : StateFile GrantsFile} {made : Nat}
    (hbound : f.known ≤ f.writes.length) : f.Found (GrantsFile.found (f.crash made)) := by
  rw [GrantsFile.found]
  cases hcontent : (f.crash made).content with
  | none => exact Or.inr ⟨StateFile.known_of_content hbound hcontent,rfl⟩
  | some c => exact Or.inl (StateFile.possible_of_content hbound hcontent)

/-- And after the start nothing else may be. -/
theorem StateFile.found_of_crash {f : StateFile GrantsFile} {made : Nat} {c : GrantsFile}
    (h : (f.crash made).Found c) : c = GrantsFile.found (f.crash made) := by
  rw [GrantsFile.found]
  rcases h with h | ⟨hknown,rfl⟩
  · rw [StateFile.possible_crash h]
    rfl
  · rw [StateFile.content,hknown,List.take_zero]
    rfl

theorem load_found (f : StateFile GrantsFile) :
    GrantIndex.load f true = .ofFile (GrantsFile.found f) := by
  rw [GrantIndex.load,GrantsFile.found]
  cases f.content <;> rfl

/-- A crash that finds a file with the epoch of the index loses no revocation. -/
theorem Lasting.crash {r : Restart} (h : Lasting d) (hreadable : r.grantsReadable = true)
    (hepoch : d.hub.grants.epochValue ≤ (GrantsFile.found (d.grantsFile.crash r.grantsMade)).epoch) :
    Lasting (restart r d) := by
  have hfaithful := h.faithful _ (StateFile.found_crash h.bound) hepoch
  have hgrants : (restart r d).hub.grants =
      .ofFile (GrantsFile.found (d.grantsFile.crash r.grantsMade)) := by
    simp only [restart,hreadable,StateFile.restart,if_true,load_found]
  have hfile : (restart r d).grantsFile = d.grantsFile.crash r.grantsMade := by
    simp only [restart,hreadable,StateFile.restart,if_true]
  have hnew : ∀ id,Event.issues id ∉ d.interrupted.map .interrupts ∧
      Event.revokes id ∉ d.interrupted.map .interrupts := by
    intro id
    simp
  have haccounts : Accounts (restart r d).hub.grants (restart r d).history := by
    rw [hgrants]
    exact hfaithful.accounts.append fun id hid => absurd hid (hnew id).2
  refine ⟨?_,?_,?_,haccounts,h.orderly.append fun id => (hnew id).1,?_⟩
  · rw [hgrants]
    exact GrantIndex.sound_ofFile _
  · rw [hfile]
    exact StateFile.bound_crash _ _
  · intro c hc
    rw [hfile] at hc
    rw [StateFile.found_of_crash hc,hgrants,GrantIndex.ofFile_epoch]
  · intro c hc _
    rw [hfile] at hc
    rw [StateFile.found_of_crash hc]
    refine ⟨?_,?_⟩
    · intro id hid
      rw [hgrants] at hid
      exact hid
    · rw [← hgrants]
      exact haccounts

theorem grantsLoaded_holds (file : Option GrantsFile) :
    lastingContract.Holds (grantsLoaded file) := by
  have hgrants : (grantsLoaded file).shared.hub.grants = .ofFile (file.getD ⟨0,[]⟩) := by
    cases file <;> rfl
  have hfound : ∀ c,(grantsLoaded file).shared.grantsFile.Found c → c = file.getD ⟨0,[]⟩ := by
    intro c hc
    cases file with
    | none =>
      rcases hc with ⟨m,hm,_⟩ | ⟨_,hc⟩
      · cases hm
      · exact hc
    | some body =>
      rcases hc with ⟨m,hm,_⟩ | ⟨hknown,_⟩
      · obtain ⟨_,rfl⟩ := List.mem_singleton.mp (List.mem_of_getElem? hm)
        rfl
      · cases hknown
  have hempty : ∀ {a b : List Event} {e : Event},[] ≠ a ++ e :: b := by simp
  have haccounts : ∀ index,Accounts index (grantsLoaded file).shared.history :=
    fun index id a b heq => absurd heq hempty
  refine ⟨⟨?_,?_,?_,haccounts _,fun id a b heq => absurd heq hempty,?_⟩,fun _ _ => trivial,?_⟩
  · rw [hgrants]
    exact GrantIndex.sound_ofFile _
  · cases file <;> exact Nat.le_refl _
  · intro c hc
    rw [hgrants,hfound c hc,GrantIndex.ofFile_epoch]
  · intro c hc _
    rw [hfound c hc]
    refine ⟨?_,haccounts _⟩
    intro id hid
    rw [hgrants] at hid
    exact hid
  · intro i c fiber hcall
    cases hcall

/-- From one point of a run to a later one the epoch does not go back, and nothing
that happened is forgotten. -/
def Later (d d' : Daemon) : Prop :=
  d.hub.grants.epochValue ≤ d'.hub.grants.epochValue ∧ ∃ events,d'.history = d.history ++ events

theorem Later.trans {d d' d'' : Daemon} (h : Later d d') (h' : Later d' d'') : Later d d'' := by
  obtain ⟨hepoch,events,heq⟩ := h
  obtain ⟨hepoch',events',heq'⟩ := h'
  exact ⟨Int.le_trans hepoch hepoch',events ++ events',by rw [heq',heq,List.append_assoc]⟩

/-- Where a revocation was noted, the grant is dead with all that derives from it,
unless it was issued anew. -/
theorem dead_of_noted {id : Text} {before events : List Event} (hinv : Lasting d)
    (hhistory : d.history = before ++ .revokes id :: events) :
    IssuedAnew id (.revokes id :: events) ∨
      ∀ a now,d.hub.grants.Derives a id → d.hub.grants.isLive a now = false := by
  by_cases hissued : .issues id ∈ events
  · left
    obtain ⟨first,last,rfl,hfirst⟩ := List.eq_append_cons_of_mem hissued
    have hpruned := hinv.orderly id (before ++ .revokes id :: first) last
      (by simp [hhistory]) before first rfl hfirst
    obtain ⟨a,b,rfl⟩ := List.append_of_mem hpruned
    exact ⟨.revokes id :: a,b,last,by simp⟩
  · right
    intro a now hderives
    by_contra hlive
    rw [Bool.not_eq_false] at hlive
    obtain ⟨g,hg,hat,_⟩ := GrantIndex.stands_of_isLive hlive hderives
    rcases hinv.accounts id before events hhistory hissued with ⟨g',hg',hat'⟩ | ⟨hnone,_⟩
    · rw [hg] at hg'
      cases hg'
      rw [hat] at hat'
      cases hat'
    · rw [hg] at hnone
      cases hnone

end

section
variable [Sha256] {c : Call} {i : Nat} {x : Outside} {d : Daemon}

theorem body_whenever {post : Outside → Daemon → Except Failure Answer → Daemon → Prop}
    (hcall : isGrantCall c = true) (hinv : Lasting d) (h : Whenever post) :
    (body c i).wp (lastingContract.terms c i) post x d d := by
  cases c with
  | issue input => exact answers_whenever h fun h => issue_lasting hinv (.refl d) h
  | revokeGrant id reason time =>
    exact answers_whenever h fun h => revokeGrant_lasting hinv (.refl d) h
  | revokeGrants service reason time =>
    refine answers_whenever h fun h => ?_
    rw [GrantIndex.revokeService,wp_bind,wp_get]
    exact revokeEach_lasting _ _ hinv (.refl d) h
  | prune olderThanMs time => exact answers_whenever h fun h => prune_lasting hinv (.refl d) h
  | _ => cases hcall

theorem lasting_meets : service.Meets lastingContract where
  rely_refl _ d := Endures.refl d
  rely_trans _ _ _ _ h h' := Endures.trans h h'
  others _ _ _ _ _ h := h
  stable _ _ _ _ _ _ _ _ := trivial
  untouched _ _ _ _ _ := trivial
  body _ _ _ _ hinv _ hmade := body_whenever hmade.1 hinv
    fun _ _ _ _ hinv' hguar' => ⟨hinv',hguar',trivial,trivial⟩
  crash _ _ hinv hcrash :=
    ⟨hinv.crash hcrash.1 hcrash.2,fun _ _ => trivial,fun _ _ _ _ => trivial⟩

theorem lasting_between {file : Option GrantsFile} {before after : List ProcessTurn}
    (h : Along service.turn (grantCalls.and durable).allow (grantsLoaded file) (before ++ after)) :
    Later (run service.turn (grantsLoaded file) before).shared
      (run service.turn (grantsLoaded file) (before ++ after)).shared := by
  refine lasting_meets.between (R := Later) (fun d => ⟨Int.le_refl _,[],by simp⟩)
    (fun _ _ _ => Later.trans) ?_ ?_ (grantsLoaded_holds file) before after [] (by rw [List.append_nil]; exact h)
  · intro _ d d' _ _ hon
    obtain ⟨events,heq,_⟩ := Endures.history hon
    exact ⟨Endures.epoch hon,events,heq⟩
  · intro r d hinv hcrash
    have hepoch : (restart r d).hub.grants.epochValue =
        (GrantsFile.found (d.grantsFile.crash r.grantsMade)).epoch := by
      have hreadable : r.grantsReadable = true := hcrash.1
      simp only [restart,hreadable,StateFile.restart,if_true,load_found,GrantIndex.ofFile_epoch]
    exact ⟨Int.le_trans hcrash.2 (Int.le_of_eq hepoch.symm),_,rfl⟩

/-- A revocation is noted before its first await. -/
theorem revoke_noted {id reason : Text} {time : Int}
    (hknown : d.hub.grants.grants.contains id = true) :
    (body (.revokeGrant id reason time) i x d).1.history = d.history ++ [.revokes id] := by
  have hstops : (body (.revokeGrant id reason time) i).wp
      ⟨fun s => s.history = d.history ++ [.revokes id],fun _ _ => False,fun _ _ => True,
        fun _ _ _ => True⟩ (fun _ _ _ s => s.history = d.history ++ [.revokes id]) x d d := by
    simp only [body,GrantIndex.revoke,notes,wp_bind,wp_get,wp_modify,hknown,if_true]
    split
    next => simp only [wp_pure]
    next =>
      simp only [modifyGrants,GrantIndex.persist,wp_bind,wp_modify,wp_tryCatch,wp_get,wp_disk]
      exact ⟨trivial,trivial,fun _ _ hrely => hrely.elim⟩
  exact hstops.stops (fun _ h => h) fun _ _ _ _ h => h

end

/-- The root grant is revoked and the process dies after the write. -/
def revokedAndRestarted : List ProcessTurn :=
  .call (.revokeGrant ['g'] [] 0) allWell :: awaiting 3 0 ++ [.crash ⟨0,true,2,true⟩]

/-- The file system does not do what it is asked for. -/
def writeFails : Outside := { allWell with persisted := false }

end Flagship.Authority

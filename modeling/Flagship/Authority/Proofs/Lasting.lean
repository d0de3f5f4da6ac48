import Flagship.Authority.LedgerRuns
import Flagship.Authority.Proofs.Families
import Flagship.Authority.Proofs.StateFiles

namespace Flagship.Authority
open Lib

/-- What a start may find; a file that is missing counts as one without grants. -/
def StateFile.Found (f : StateFile GrantsFile) (c : GrantsFile) : Prop :=
  f.Possible c ∨ f.known = 0 ∧ c = ⟨0,[]⟩

/-- What holds of everything that happened since a grant was last asked to be revoked,
where it was not issued after that. -/
def SinceRevoked (id : Text) (history : List Event) (P : List Event → Prop) : Prop :=
  ∀ a b,history = a ++ .revokes id :: b → .issues id ∉ b → P b

/-- An index keeps what was revoked revoked, or it was pruned. -/
def Accounts (index : GrantIndex) (history : List Event) : Prop :=
  ∀ id,SinceRevoked id history fun b =>
    index.Revoked id ∨ index.get? id = none ∧ .prunes id ∈ b

/-- An id that was revoked is issued again only after it was pruned. -/
def Orderly (history : List Event) : Prop :=
  ∀ id a b,history = a ++ .issues id :: b → SinceRevoked id a fun m => .prunes id ∈ m

section
variable {index : GrantIndex} {history events : List Event} {id : Text}

/-- Whatever else happens, as long as a grant that is asked to be revoked is revoked. -/
theorem Accounts.append (h : Accounts index history)
    (hnew : ∀ id,.revokes id ∈ events → index.Revoked id) :
    Accounts index (history ++ events) := by
  intro id a b heq hnot
  rcases append_eq_cut heq with ⟨b',hold,rfl⟩ | ⟨a',hevents,_⟩
  · rw [List.mem_append,not_or] at hnot
    rcases h id a b' hold hnot.1 with hrevoked | ⟨hnone,hpruned⟩
    · exact Or.inl hrevoked
    · exact Or.inr ⟨hnone,List.mem_append_left _ hpruned⟩
  · exact Or.inl (hnew id (by simp [hevents]))

/-- The index changed, but not for what was revoked. -/
theorem Accounts.into {index' : GrantIndex} (h : Accounts index history)
    (hrevoked : ∀ id,index.Revoked id → index'.Revoked id)
    (hnone : ∀ id,index.get? id = none → index'.get? id = none) : Accounts index' history := by
  intro id a b heq hnot
  rcases h id a b heq hnot with hold | ⟨hold,hpruned⟩
  · exact Or.inl (hrevoked id hold)
  · exact Or.inr ⟨hnone id hold,hpruned⟩

theorem Orderly.append (h : Orderly history) (hnew : ∀ id,.issues id ∉ events) :
    Orderly (history ++ events) := by
  intro id a b heq
  rcases append_eq_cut heq with ⟨b',hold,_⟩ | ⟨a',hevents,_⟩
  · exact h id a b' hold
  · exact absurd (by simp [hevents]) (hnew id)

theorem Orderly.issue (h : Orderly history)
    (hnew : SinceRevoked id history fun m => .prunes id ∈ m) :
    Orderly (history ++ [.issues id]) := by
  intro id' a b heq
  rcases append_eq_cut heq with ⟨b',hold,_⟩ | ⟨a',hevents,rfl⟩
  · exact h id' a b' hold
  · cases a' with
    | nil =>
      rw [List.nil_append,List.cons.injEq,Event.issues.injEq] at hevents
      obtain ⟨rfl,_⟩ := hevents
      rw [List.append_nil]
      exact hnew
    | cons _ a' => simp at hevents

end

namespace GrantIndex
variable {index : GrantIndex}

theorem foldl_put_epoch (gs : List Grant) (index : GrantIndex) :
    (gs.foldl put index).epochValue = index.epochValue := by
  induction gs generalizing index with
  | nil => rfl
  | cons g gs ih => exact ih (index.put g)

theorem ofFile_epoch (file : GrantsFile) : (ofFile file).epochValue = file.epoch :=
  foldl_put_epoch file.grants _

/-- Grants of an index that are put in another stand there as they stood. -/
theorem get?_foldl_put (index : GrantIndex) (gs : List Grant) (base : GrantIndex)
    (hbase : base.Sound) (hgs : ∀ g ∈ gs,index.get? g.id = some g) (a : Text) :
    (gs.foldl put base).get? a = if a ∈ gs.map (·.id) then index.get? a else base.get? a := by
  induction gs generalizing base with
  | nil => simp
  | cons g gs ih =>
    rw [List.foldl_cons,ih (base.put g) (hbase.put g) fun g' hg' =>
      hgs g' (List.mem_cons_of_mem _ hg'),get?_put hbase]
    by_cases hself : a = g.id
    · subst hself
      simp [hgs g List.mem_cons_self]
    · simp [hself]

/-- What is written is read back as it was. -/
theorem get?_stringify (hsound : index.Sound) (a : Text) :
    (ofFile (index.stringify index.snapshot)).get? a = index.get? a := by
  have hvalues : (index.stringify index.snapshot).grants = index.values := by
    simp only [stringify,snapshot,values,List.filterMap_map]
    rfl
  have hbase : ({ GrantIndex.empty with epochValue := index.epochValue } : GrantIndex).Sound := by
    intro b object hobject
    simp [GrantIndex.empty] at hobject
  rw [ofFile,hvalues]
  refine (get?_foldl_put index _ _ hbase (fun g hg => hsound.mem_values.mp hg) a).trans ?_
  split
  · rfl
  next hnot =>
    cases hget : index.get? a with
    | none => rfl
    | some g =>
      have hid := hsound.id_of_get? hget
      refine absurd (List.mem_map.mpr ⟨g,hsound.mem_values.mpr ?_,hid⟩) hnot
      rw [hid]
      exact hget

end GrantIndex

/-- A start from this file knows every revocation. -/
structure Faithful (c : GrantsFile) (d : Daemon) : Prop where
  revoked : ∀ id,d.hub.grants.Revoked id → (GrantIndex.ofFile c).Revoked id
  accounts : Accounts (.ofFile c) d.history

/-- No revocation is lost: every file with the epoch of the index knows them all. -/
structure Lasting (d : Daemon) : Prop where
  sound : d.hub.grants.Sound
  bound : d.grantsFile.known ≤ d.grantsFile.writes.length
  behind : ∀ c,d.grantsFile.Found c → c.epoch ≤ d.hub.grants.epochValue
  accounts : Accounts d.hub.grants d.history
  orderly : Orderly d.history
  faithful : ∀ c,d.grantsFile.Found c → d.hub.grants.epochValue ≤ c.epoch → Faithful c d

/-- What a stretch of a call does to the grants: where the epoch stays, no object
changes and nothing is revoked that was not. -/
structure Endures (d d' : Daemon) : Prop where
  writes : d.grantsFile.writes.length ≤ d'.grantsFile.writes.length
  epoch : d.hub.grants.epochValue ≤ d'.hub.grants.epochValue
  history : ∃ events,d'.history = d.history ++ events ∧
    (d'.hub.grants.epochValue ≤ d.hub.grants.epochValue →
      ∀ id,.revokes id ∈ events → d.hub.grants.Revoked id)
  objects : d'.hub.grants.epochValue ≤ d.hub.grants.epochValue →
    ∃ new,d'.hub.grants.objects = d.hub.grants.objects ++ new
  revoked : d'.hub.grants.epochValue ≤ d.hub.grants.epochValue →
    ∀ id,d'.hub.grants.Revoked id → d.hub.grants.Revoked id

/-- What a write is about to put in the file. -/
def Carried (body : GrantsBody) (d : Daemon) : Prop :=
  body.epoch ≤ d.hub.grants.epochValue ∧ (d.hub.grants.epochValue ≤ body.epoch →
    (∀ object ∈ body.objects,object < d.hub.grants.objects.length) ∧
      Faithful (d.hub.grants.stringify body) d)

section
variable {d d' d'' : Daemon} {c : GrantsFile} {body : GrantsBody}

/-- A change that leaves the grants as they are. -/
theorem Endures.of_eq (hgrants : d'.hub.grants = d.hub.grants) (hhistory : d'.history = d.history)
    (hwrites : d.grantsFile.writes.length ≤ d'.grantsFile.writes.length) : Endures d d' := by
  refine ⟨hwrites,by rw [hgrants],⟨[],by simp [hhistory],by simp⟩,fun _ => ⟨[],by simp [hgrants]⟩,?_⟩
  intro _ id hid
  rw [← hgrants]
  exact hid

theorem Endures.refl (d : Daemon) : Endures d d := .of_eq rfl rfl (Nat.le_refl _)

theorem Endures.trans (h : Endures d d') (h' : Endures d' d'') : Endures d d'' := by
  obtain ⟨events,heq,hevents⟩ := h.history
  obtain ⟨events',heq',hevents'⟩ := h'.history
  have hfirst := h.epoch
  have hsecond := h'.epoch
  refine ⟨Nat.le_trans h.writes h'.writes,by omega,⟨events ++ events',by rw [heq',heq,List.append_assoc],?_⟩,?_,?_⟩
  · intro hepoch id hid
    rcases List.mem_append.mp hid with hid | hid
    · exact hevents (by omega) id hid
    · exact h.revoked (by omega) id (hevents' (by omega) id hid)
  · intro hepoch
    obtain ⟨new,hnew⟩ := h.objects (by omega)
    obtain ⟨new',hnew'⟩ := h'.objects (by omega)
    exact ⟨new ++ new',by rw [hnew',hnew,List.append_assoc]⟩
  · intro hepoch id hid
    exact h.revoked (by omega) id (h'.revoked (by omega) id hid)

theorem Faithful.on (h : Faithful c d) (hon : Endures d d')
    (hepoch : d'.hub.grants.epochValue ≤ d.hub.grants.epochValue) : Faithful c d' := by
  obtain ⟨events,heq,hevents⟩ := hon.history
  refine ⟨fun id hid => h.revoked id (hon.revoked hepoch id hid),?_⟩
  rw [heq]
  exact h.accounts.append fun id hid => h.revoked id (hevents hepoch id hid)

/-- What a write carries stays good while other calls go on. -/
theorem Carried.on (h : Carried body d) (hon : Endures d d') : Carried body d' := by
  obtain ⟨hle,hcarried⟩ := h
  have hepoch := hon.epoch
  refine ⟨by omega,?_⟩
  intro hge
  obtain ⟨hobjects,hfaithful⟩ := hcarried (by omega)
  obtain ⟨new,hnew⟩ := hon.objects (by omega)
  have hsame : d'.hub.grants.stringify body = d.hub.grants.stringify body := by
    simp only [GrantIndex.stringify,hnew]
    congr 1
    refine List.filterMap_congr ?_
    intro object hobject
    exact List.getElem?_append_left (hobjects object hobject)
  refine ⟨?_,?_⟩
  · intro object hobject
    rw [hnew,List.length_append]
    exact Nat.lt_add_right _ (hobjects object hobject)
  · rw [hsame]
    exact hfaithful.on hon (by omega)

/-- The index as it is, to be written. -/
theorem Lasting.carried (h : Lasting d) : Carried d.hub.grants.snapshot d := by
  have hget := GrantIndex.get?_stringify h.sound
  refine ⟨Int.le_refl _,fun _ => ⟨?_,?_,?_⟩⟩
  · intro object hobject
    obtain ⟨⟨id,_⟩,hentry,rfl⟩ := List.mem_map.mp hobject
    obtain ⟨g,hg,_⟩ := h.sound id _ (d.hub.grants.grants.mem_entries.mp hentry)
    exact (List.getElem?_eq_some_iff.mp hg).1
  · intro id hid
    obtain ⟨g,hg,hrevoked⟩ := hid
    exact ⟨g,(hget id).trans hg,hrevoked⟩
  · refine h.accounts.into ?_ fun id hnone => (hget id).trans hnone
    intro id hid
    obtain ⟨g,hg,hrevoked⟩ := hid
    exact ⟨g,(hget id).trans hg,hrevoked⟩

/-- A stretch that leaves the file to what was there, or to what it carries. -/
theorem Lasting.next (h : Lasting d) (hon : Endures d d') (hsound : d'.hub.grants.Sound)
    (hbound : d'.grantsFile.known ≤ d'.grantsFile.writes.length)
    (haccounts : Accounts d'.hub.grants d'.history) (horderly : Orderly d'.history)
    (hfile : ∀ c,d'.grantsFile.Found c → d.grantsFile.Found c ∨
      ∃ body,Carried body d' ∧ c = d'.hub.grants.stringify body) : Lasting d' := by
  have hepoch := hon.epoch
  refine ⟨hsound,hbound,?_,haccounts,horderly,?_⟩
  · intro c hc
    rcases hfile c hc with hold | ⟨body,hcarried,rfl⟩
    · exact Int.le_trans (h.behind c hold) hepoch
    · exact hcarried.1
  · intro c hc hge
    rcases hfile c hc with hold | ⟨body,hcarried,rfl⟩
    · have hbehind := h.behind c hold
      exact (h.faithful c hold (by omega)).on hon (by omega)
    · exact (hcarried.2 hge).2

/-- A stretch that only changes the grants. -/
theorem Lasting.changes {index : GrantIndex} {events : List Event} (h : Lasting d)
    (hon : Endures d { d with
      hub := { d.hub with grants := index },history := d.history ++ events })
    (hsound : index.Sound) (haccounts : Accounts index (d.history ++ events))
    (horderly : Orderly (d.history ++ events)) :
    Lasting { d with hub := { d.hub with grants := index },history := d.history ++ events } :=
  h.next hon hsound h.bound haccounts horderly fun _ hc => Or.inl hc

end
end Flagship.Authority

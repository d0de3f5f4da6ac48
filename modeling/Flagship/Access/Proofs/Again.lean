import Flagship.Access.Proofs.Registers

namespace Flagship.Access
open Lib
open Row (removeKey)

theorem Store.put_put (s : Store) (r : Text) (e e' : Row) : (s.put r e).put r e' = s.put r e' := by
  simp only [Store.put,OrdMap.set_set]

namespace Row
variable {e : Row} {key : Text} {t : Nat}

theorem stale_of_sequenced (h : e.roles.seq.get? key = some (.u64 t)) : e.stale key t = true := by
  simp [stale,h,numF64]

/-- An order that takes down when it was issued is stale the second time. -/
theorem order_again (key : Text) (t : Nat) (op : Row → Row × WriteAnswer) (e : Row)
    (hstale : ∀ e : Row,e.stale key t = true → op e = (e,.stale))
    (hseq : ∀ e : Row,e.stale key t = false → (op e).1.roles.seq.get? key = some (.u64 t)) :
    op (op e).1 = ((op e).1,.stale) := by
  cases h : e.stale key t with
  | true =>
    rw [hstale e h]
    exact hstale e h
  | false => exact hstale _ (stale_of_sequenced (hseq e h))

theorem applyModeOrder_again (e : Row) (restricted : Bool) (t : Nat) :
    (e.applyModeOrder restricted t).1.applyModeOrder restricted t =
      ((e.applyModeOrder restricted t).1,.stale) := by
  apply order_again "mode".toList t fun e => e.applyModeOrder restricted t
  · intro e h
    exact if_pos h
  · intro e h
    simp only [applyModeOrder,h]
    exact OrdMap.get?_set_self _ _ _

theorem setAccountRank_again (e : Row) (key rank : Text) (t : Nat) (evidence : Text) :
    (e.setAccountRank key rank t evidence).1.setAccountRank key rank t evidence =
      ((e.setAccountRank key rank t evidence).1,.stale) := by
  apply order_again key t fun e => e.setAccountRank key rank t evidence
  · intro e h
    exact if_pos h
  · intro e h
    simp only [setAccountRank,h]
    exact OrdMap.get?_set_self _ _ _

theorem setRole_again (e : Row) (target : RoleTarget) (key role : Text) (t : Nat)
    (evidence : Text) :
    (e.setRole target key role t evidence).1.setRole target key role t evidence =
      ((e.setRole target key role t evidence).1,.stale) := by
  apply order_again key t fun e => e.setRole target key role t evidence
  · intro e h
    exact if_pos h
  · intro e h
    simp only [setRole,h]
    cases target <;> exact OrdMap.get?_set_self _ _ _

/-- The record just written keeps itself out. -/
theorem coManagerKept_self (record : CoManagerRecord) (pubHex domain : Text) :
    ∃ answer ∈ [WriteAnswer.unchanged,WriteAnswer.stale],
      coManagerKept { record with pubHex := pubHex, serverDomain := domain } record = some answer := by
  unfold coManagerKept
  cases hended : record.ended with
  | true => exact ⟨.unchanged,by simp,by simp⟩
  | false =>
    simp only [Bool.false_eq_true,↓reduceIte,ne_eq]
    by_cases hpub : pubHex = record.pubHex
    · have hsmall : (0 : Rat) < 1 / 2 ^ 52 := by decide +kernel
      exact ⟨.unchanged,by simp,by simpa [hpub] using hsmall⟩
    · exact ⟨.stale,by simp,by simp [hpub]⟩

theorem coManagerKept_answer {prev record : CoManagerRecord} {answer : WriteAnswer}
    (h : coManagerKept prev record = some answer) :
    answer ∈ [WriteAnswer.unchanged,WriteAnswer.stale] := by
  unfold coManagerKept at h
  split at h
  · cases h
    split <;> simp
  split at h
  · cases h
    simp
  split at h
  · cases h
    split <;> simp
  · cases h

/-- Pruning leaves nothing to prune: there was no one, or the app does not know the
invite any more. -/
theorem revokeGroup_done (e : Row) (id : Text) :
    (e.revokeGroup id = (e,0) ∧ (e.group id).getD [] = []) ∨
    (e.revokeGroup id).1.hasInvite id = false := by
  unfold revokeGroup
  simp only
  split
  · rename_i hempty
    exact Or.inl ⟨rfl,List.isEmpty_iff.mp hempty⟩
  · obtain ⟨_,hg,ht,hc,_⟩ := foldl_pruneMember ((e.group id).getD []) (e.dropGroup id) 0
    generalize List.foldl pruneMember (e.dropGroup id,0) ((e.group id).getD []) = after at hg ht hc
    refine Or.inr ?_
    simp only [hasInvite,group,hg,ht,hc]
    simp [dropGroup,OrdMap.contains]

variable [Lowercase]

theorem applyRemoveOrder_again (e : Row) (aid : Text) (t : Nat) :
    (e.applyRemoveOrder aid t).1.applyRemoveOrder aid t = ((e.applyRemoveOrder aid t).1,.stale) := by
  apply order_again (removeKey (toLowercase aid)) t fun e => e.applyRemoveOrder aid t
  · intro e h
    exact if_pos h
  · intro e h
    simp [applyRemoveOrder,h,sequenced,removeAllowed]

/-- A share's record is not taken a second time: what stands is the one just written, or
the one that kept it out. -/
theorem noteCoManager_again (e : Row) (id : Text) (record : CoManagerRecord) :
    ((e.noteCoManager id record).1.noteCoManager id record).1 = (e.noteCoManager id record).1 ∧
    ((e.noteCoManager id record).1.noteCoManager id record).2 ∈
      [WriteAnswer.unchanged,WriteAnswer.stale] := by
  cases h : (e.roles.coManagers.get? id).bind (fun prev => coManagerKept prev record) with
  | some answer =>
    have hkept : e.noteCoManager id record = (e,answer) := by simp only [noteCoManager,h]
    obtain ⟨_,_,hanswer⟩ := Option.bind_eq_some_iff.mp h
    rw [hkept,hkept]
    exact ⟨rfl,coManagerKept_answer hanswer⟩
  | none =>
    obtain ⟨answer,hanswer,hself⟩ := coManagerKept_self record (toLowercase record.pubHex)
      (toLowercase record.serverDomain)
    have hagain : (e.noteCoManager id record).1.noteCoManager id record =
        ((e.noteCoManager id record).1,answer) := by
      have hheld : (e.noteCoManager id record).1.roles.coManagers.get? id = some
          { record with
            pubHex := toLowercase record.pubHex
            serverDomain := toLowercase record.serverDomain } := by
        simp only [noteCoManager,h]
        exact OrdMap.get?_set_self _ _ _
      generalize (e.noteCoManager id record).1 = e' at hheld
      simp only [noteCoManager,hheld,Option.bind_some,hself]
    rw [hagain]
    exact ⟨rfl,hanswer⟩

/-- The withdraw that is held stays held. -/
theorem noteWithdrawn_of_held {e : Row} {id held : Text} (t : Nat) (signature : Text)
    (h : e.roles.withdrawn.get? id = some held) (hne : held ≠ []) :
    e.noteWithdrawn id t signature = e := by
  unfold noteWithdrawn
  rw [if_pos (by simp [h,hne])]

theorem noteWithdrawn_held (e : Row) (id : Text) (t : Nat) (signature : Text) :
    ∃ held,(e.noteWithdrawn id t signature).roles.withdrawn.get? id = some held ∧ held ≠ [] := by
  unfold noteWithdrawn
  split
  · rename_i hheld
    obtain ⟨held,hget,hne⟩ := (Option.any_eq_true _ _).mp hheld
    exact ⟨held,hget,by simpa using hne⟩
  · exact ⟨_,OrdMap.get?_set_self _ _ _,by simp⟩

end Row

section
variable {people : People} {f : Facts} {r : Text} {s s' : Store}

theorem mem_servicesWithInvite {id : Text} :
    r ∈ s.servicesWithInvite id ↔ (s.entry r).hasInvite id = true := by
  unfold Store.servicesWithInvite
  simp only [List.mem_map,List.mem_filter,Prod.exists,exists_and_right,exists_eq_right,
    OrdMap.mem_entries,Store.entry]
  cases hrow : s.rows.get? r with
  | none => simp [Row.hasInvite,Row.group,Row.new]
  | some row => simp

theorem staleOrApplied_again (s : Store) (r : Text) (op : Row → Row × WriteAnswer)
    (h : ∀ e,op (op e).1 = ((op e).1,.stale)) :
    (staleOrApplied (s.put r (op (s.entry r)).1) r (op ((s.put r (op (s.entry r)).1).entry r))).1 =
      s.put r (op (s.entry r)).1 := by
  unfold staleOrApplied
  rw [Store.entry_put,h,Store.put_put]

/-- The rank of an invited target is refused, or it is stale however the target stands then. -/
theorem applyInvitedRank_again (s : Store) (r : Text) (o : AppRankOrder) (evidence : Text)
    (target : RoleTarget) (stands stands' : Bool) :
    (applyInvitedRank s r o evidence target stands).1 = s ∨
    (applyInvitedRank (applyInvitedRank s r o evidence target stands).1 r o evidence target
      stands').1 = (applyInvitedRank s r o evidence target stands).1 := by
  unfold applyInvitedRank
  cases ladderRole (some o.rank) with
  | none => exact Or.inl rfl
  | some role =>
    dsimp only
    by_cases hok : o.rank ∈ ["member".toList,"manager".toList,"master".toList] ∧ stands = true
    · refine Or.inr ?_
      rw [if_pos hok]
      split
      · exact staleOrApplied_again s r (fun e => e.setRole target o.target role o.issuedAt evidence)
          fun e => e.setRole_again target o.target role o.issuedAt evidence
      · rfl
    · rw [if_neg hok]
      exact Or.inl rfl

variable [Lowercase]

theorem classify_toLowercase (people : People) (k : Text) :
    people.classify (toLowercase k) = people.classify k := by
  unfold People.classify
  rw [toLowercase_idem]

theorem mayInvite_toLowercase (v : View) (r : Text) (co : Bool) (k : Text) :
    v.mayInvite r co (toLowercase k) = v.mayInvite r co k := by
  unfold View.mayInvite View.coManagerMayInvite View.shareOf
  simp only [toLowercase_idem,classify_toLowercase]

/-- Who may invite is read off the ranks and the co-managers. -/
theorem mayInvite_congr (hranks : (s'.entry r).roles.ranks = (s.entry r).roles.ranks)
    (hco : (s'.entry r).roles.coManagers = (s.entry r).roles.coManagers) (co : Bool) (key : Text) :
    View.mayInvite ⟨s',people,f.catchingUp⟩ r co key =
      View.mayInvite ⟨s,people,f.catchingUp⟩ r co key := by
  have hrank : ∀ p,View.accountRank ⟨s',people,f.catchingUp⟩ r p =
      View.accountRank ⟨s,people,f.catchingUp⟩ r p := by
    intro p
    unfold View.accountRank View.catching
    rw [hranks]
  have hrecord : ∀ k,(s'.entry r).coManagerRecord k = (s.entry r).coManagerRecord k := by
    intro k
    unfold Row.coManagerRecord Row.coManagersInOrder
    rw [hco]
  have hshare : View.shareOf ⟨s',people,f.catchingUp⟩ r key =
      View.shareOf ⟨s,people,f.catchingUp⟩ r key := by
    unfold View.shareOf
    simp only [hrecord]
  unfold View.mayInvite View.coManagerMayInvite View.catching
  simp only [hshare,hranks,funext hrank]

/-- The maker of an invite as the row has it once someone joined by it; an empty record
does not stay. -/
def makerAfter (e : Row) (c : VerifiedCreate) : Text :=
  ((e.inviteCreator c.inviteId).filter (fun k => !k.isEmpty)).getD c.creatorPub

/-- The maker's standing after a join is that of the maker on record. -/
theorem withMaker_maker (e : Row) (c : VerifiedCreate) (v : View) (r : Text) (co : Bool) :
    v.mayInvite r co (((withMaker e c).inviteCreator c.inviteId).getD c.creatorPub) =
      v.mayInvite r co (makerAfter e c) := by
  have hkeep : ∀ id tier,(e.setInviteTier id tier).roles.creators = e.roles.creators := by
    intro id tier
    unfold Row.setInviteTier
    dsimp only
    split <;> rfl
  unfold withMaker Row.setInviteCreator makerAfter Row.inviteCreator
  rw [hkeep]
  cases hget : e.roles.creators.get? c.inviteId with
  | none =>
    rw [if_neg (by simp)]
    simp [mayInvite_toLowercase]
  | some k =>
    by_cases hk : k = []
    · rw [if_neg (by simp [hk])]
      simp [hk,mayInvite_toLowercase,Option.filter]
    · rw [if_pos (by simp [hk]),hkeep,hget]
      simp [hk,Option.filter]

/-- With the maker taken down there is nothing more to take down. -/
theorem withMaker_again {e e' : Row} (c : VerifiedCreate)
    (h : e'.roles = (withMaker e c).roles) : withMaker e' c = e' := by
  have htier : e'.roles.tiers.get? c.inviteId = some (tierStr c.tier) ∨
      cappedTier (e'.roles.tiers.get? c.inviteId) = true := by
    have hkeep : ∀ e : Row,(e.setInviteCreator c.inviteId c.creatorPub).roles.tiers = e.roles.tiers := by
      intro e
      unfold Row.setInviteCreator
      split <;> rfl
    rw [h,withMaker,hkeep]
    unfold Row.setInviteTier
    dsimp only
    split
    · rename_i hset
      exact hset
    · exact Or.inl (OrdMap.get?_set_self _ _ _)
  have hcreator : (e'.roles.creators.get? c.inviteId).any (fun v => !v.isEmpty) = true ∨
      e'.roles.creators.get? c.inviteId = some (toLowercase c.creatorPub) := by
    rw [h,withMaker]
    unfold Row.setInviteCreator
    split
    · rename_i hset
      exact Or.inl hset
    · exact Or.inr (OrdMap.get?_set_self _ _ _)
  have hsame : e'.setInviteTier c.inviteId (tierStr c.tier) = e' := if_pos htier
  unfold withMaker Row.setInviteCreator
  rw [hsame]
  split
  · rfl
  · rename_i hnone
    have hset := OrdMap.set_of_get? (hcreator.resolve_left hnone)
    dsimp only
    rw [hset]

/-- A full list takes no one in. -/
theorem addAllowed_full {e : Row} {aid : Text} (id : Text)
    (h : toLowercase aid ∉ e.allow ∧ allowListCap ≤ e.allow.length) :
    e.addAllowed aid (some id) = (e,false) := by
  unfold Row.addAllowed
  exact if_pos (by simpa using h)

theorem addAllowed_room {e : Row} {aid : Text} (id : Text)
    (h : ¬ (toLowercase aid ∉ e.allow ∧ allowListCap ≤ e.allow.length)) :
    toLowercase aid ∈ (e.addAllowed aid (some id)).1.allow := by
  unfold Row.addAllowed
  dsimp only
  rw [if_neg (by simpa using h)]
  dsimp only
  split
  · rename_i hc
    exact List.contains_iff_mem.mp hc
  · simp

/-- Where an addition makes no grant the groups stay, and it changes nothing the second
time. -/
theorem addAllowed_again {e : Row} {aid id : Text} (h : id = [] ∨
      toLowercase aid ∉ e.allow ∧ allowListCap ≤ e.allow.length) :
    (e.addAllowed aid (some id)).1.groups = e.groups ∧
    (e.addAllowed aid (some id)).1.addAllowed aid (some id) = ((e.addAllowed aid (some id)).1,false) := by
  by_cases hfull : toLowercase aid ∉ e.allow ∧ allowListCap ≤ e.allow.length
  · rw [addAllowed_full id hfull]
    exact ⟨rfl,addAllowed_full id hfull⟩
  · have hid := h.resolve_right hfull
    have hon := addAllowed_room id hfull
    constructor
    · unfold Row.addAllowed
      dsimp only
      rw [if_neg (by simpa using hfull),hid]
      rfl
    · generalize (e.addAllowed aid (some id)).1 = added at hon
      unfold Row.addAllowed
      simp [hon,hid,Option.filter]

/-- Everywhere else the person is in the invite's group. -/
theorem addAllowed_grants {e : Row} {aid id : Text} (h : ¬ (id = [] ∨
      toLowercase aid ∉ e.allow ∧ allowListCap ≤ e.allow.length)) :
    (e.addAllowed aid (some id)).1.InGroup id (toLowercase aid) := by
  obtain ⟨hid,hroom⟩ := not_or.mp h
  have hfilter : (some id).filter (fun i : Text => !i.isEmpty) = some id := by
    simp [Option.filter,hid]
  unfold Row.addAllowed Row.InGroup Row.group
  dsimp only
  rw [if_neg (by simpa using hroom),hfilter]
  simp only [OrdMap.get?_set_self,Option.getD_some]
  split
  · rename_i hc
    exact List.contains_iff_mem.mp hc
  · simp

/-- Who is let in after the addition. -/
theorem isAllowed_added {e : Row} {aid id : Text}
    (hranks : e.roles.ranks = (s.entry r).roles.ranks) (hallow : e.allow = (s.entry r).allow) :
    View.isAllowed ⟨s.put r (e.addAllowed aid (some id)).1,people,f.catchingUp⟩ r aid = true ↔
      match people.classify (toLowercase aid) with
      | some p => (View.accountRank ⟨s,people,f.catchingUp⟩ r p).isSome = true
      | none => f.catchingUp.contains r = false ∧
        (toLowercase aid ∈ (s.entry r).allow ∨ (s.entry r).allow.length < allowListCap) := by
  unfold View.isAllowed
  dsimp only
  cases people.classify (toLowercase aid) with
  | some p =>
    dsimp only
    unfold View.accountRank View.catching
    rw [Store.entry_put,Row.addAllowed_roles.1,hranks]
  | none =>
    dsimp only
    rw [Store.entry_put,Bool.and_eq_true,Bool.not_eq_true',List.contains_iff_mem,← hallow]
    refine and_congr_right fun _ => ?_
    by_cases hfull : toLowercase aid ∉ e.allow ∧ allowListCap ≤ e.allow.length
    · rw [addAllowed_full id hfull]
      have hno : ¬ e.allow.length < allowListCap := Nat.not_lt.mpr hfull.2
      simp [hfull.1,hno]
    · refine iff_of_true (addAllowed_room id hfull) ?_
      rw [not_and_or,not_not,Nat.not_le] at hfull
      exact hfull

variable [Ed25519]

/-- Whether a withdraw prunes an app is read off the app's own row. -/
theorem prunes_iff {rv : RevokeServiceInvite} {signature : Text} :
    prunes people f r s rv signature = true ↔ (s.entry r).hasInvite rv.inviteId = true ∧
      (withdrawAdminSigned people rv signature f.nowMs = true ∨
        cappedTier ((s.entry r).inviteTier rv.inviteId) = true ∧
        ((s.entry r).inviteCreator rv.inviteId).any (fun creator =>
          verifyInviteRevoke rv signature creator && View.mayInvite ⟨s,people,f.catchingUp⟩ r
            (decide ((s.entry r).inviteTier rv.inviteId = some "co-manager".toList)) creator) = true) := by
  unfold prunes withdrawRefs
  rw [List.contains_iff_mem]
  dsimp only
  split
  · rename_i hall
    rw [mem_servicesWithInvite]
    refine ⟨fun h => ⟨h,Or.inl (hall.resolve_left ?_)⟩,And.left⟩
    intro hnil
    rw [← mem_servicesWithInvite,hnil] at h
    cases h
  · rename_i hsome
    simp only [not_or,Bool.not_eq_true] at hsome
    rw [List.mem_filter,mem_servicesWithInvite,Bool.and_eq_true,hsome.2]
    simp

/-- Holding a withdraw does not change what a withdraw may prune. -/
theorem prunes_noteWithdrawn (s : Store) (id : Text) (t : Nat) (held : Text)
    (rv : RevokeServiceInvite) (signature : Text) :
    prunes people f r (s.put r ((s.entry r).noteWithdrawn id t held)) rv signature =
      prunes people f r s rv signature := by
  have hsame : ∀ e : Row,(e.noteWithdrawn id t held).groups = e.groups ∧
      (e.noteWithdrawn id t held).roles.tiers = e.roles.tiers ∧
      (e.noteWithdrawn id t held).roles.creators = e.roles.creators ∧
      (e.noteWithdrawn id t held).roles.ranks = e.roles.ranks ∧
      (e.noteWithdrawn id t held).roles.coManagers = e.roles.coManagers := by
    intro e
    unfold Row.noteWithdrawn
    split <;> exact ⟨rfl,rfl,rfl,rfl,rfl⟩
  obtain ⟨hgroups,htiers,hcreators,hranks,hco⟩ := hsame (s.entry r)
  have hmay : ∀ co key,
      View.mayInvite ⟨s.put r ((s.entry r).noteWithdrawn id t held),people,f.catchingUp⟩ r co key =
        View.mayInvite ⟨s,people,f.catchingUp⟩ r co key :=
    mayInvite_congr (by rw [Store.entry_put,hranks]) (by rw [Store.entry_put,hco])
  rw [Bool.eq_iff_iff,prunes_iff,prunes_iff]
  simp only [hmay]
  rw [Store.entry_put]
  unfold Row.hasInvite Row.group Row.inviteTier Row.inviteCreator
  rw [hgroups,htiers,hcreators]

/-- A withdraw that is handed over again finds it held, and nothing more to prune. -/
theorem applyWithdraw_again (s : Store) (people : People) (f : Facts) (r : Text)
    (rv : RevokeServiceInvite) (signature : Text) :
    (applyWithdraw (applyWithdraw s people f r rv signature).1 people f r rv signature).1 =
      (applyWithdraw s people f r rv signature).1 := by
  have hunfold : ∀ s,(applyWithdraw s people f r rv signature).1 =
      s.put r (if prunes people f r s rv signature = true then
        (((s.entry r).noteWithdrawn rv.inviteId rv.issuedAt signature).revokeGroup rv.inviteId).1
      else (s.entry r).noteWithdrawn rv.inviteId rv.issuedAt signature) := by
    intro s
    unfold applyWithdraw prunes
    dsimp only
    split <;> rfl
  rw [hunfold s]
  generalize hnoted : (s.entry r).noteWithdrawn rv.inviteId rv.issuedAt signature = noted
  obtain ⟨held,hheld,hne⟩ := Row.noteWithdrawn_held (s.entry r) rv.inviteId rv.issuedAt signature
  rw [hnoted] at hheld
  cases hp : prunes people f r s rv signature with
  | true =>
    rw [if_pos rfl,hunfold,Store.entry_put,Store.put_put]
    have hheld' : (noted.revokeGroup rv.inviteId).1.roles.withdrawn.get? rv.inviteId = some held := by
      rw [(noted.revokeGroup_effect rv.inviteId).2.1]
      exact hheld
    rw [Row.noteWithdrawn_of_held _ _ hheld' hne]
    rcases noted.revokeGroup_done rv.inviteId with ⟨hsame,_⟩ | hgone
    · rw [hsame,hsame,ite_self]
    · have hno : prunes people f r (s.put r (noted.revokeGroup rv.inviteId).1) rv signature = false := by
        rw [← Bool.not_eq_true,prunes_iff,Store.entry_put,hgone]
        simp
      rw [hno,if_neg (by simp)]
  | false =>
    rw [if_neg (by simp),hunfold,Store.entry_put,Store.put_put,Row.noteWithdrawn_of_held _ _ hheld hne]
    rw [← hnoted,prunes_noteWithdrawn,hp,if_neg (by simp)]

/-- Every check of a join. -/
structure Passes (people : People) (f : Facts) (r : Text) (s : Store) (c : VerifiedCreate)
    (aid : Text) (t : Nat) : Prop where
  ungranted : ¬ (s.entry r).InGroup c.inviteId (toLowercase aid)
  inTime : inTime t c.expiresAt = true
  room : ¬ (0 < c.maxRedemptions.getD 1 ∧
    c.maxRedemptions.getD 1 ≤ (s.entry r).boundThrough c.inviteId)
  notRemoved : (s.entry r).removedAfter aid t = false
  passes : passes people f r s c = true

/-- The checks as they are made, one after the other. -/
theorem passes_iff {c : VerifiedCreate} {aid : Text} {t : Nat} :
    Passes people f r s c aid t ↔
      ¬ ((s.entry r).grantsOf (toLowercase aid)).contains c.inviteId = true ∧
      ¬ c.expiresAt.any (fun x => decide (x < t)) = true ∧
      ¬ (0 < c.maxRedemptions.getD 1 ∧
        c.maxRedemptions.getD 1 ≤ (s.entry r).boundThrough c.inviteId) ∧
      ¬ (s.entry r).removedAfter aid t = true ∧ ¬ heldAgainst people f (s.entry r) c = true ∧
      ¬ (c.tier ≠ .admin ∧ View.mayInvite ⟨s,people,f.catchingUp⟩ r (decide (c.tier = .coManager))
        (((s.entry r).inviteCreator c.inviteId).getD c.creatorPub) = false) := by
  have hin : inTime t c.expiresAt = true ↔ ¬ c.expiresAt.any (fun x => decide (x < t)) = true := by
    unfold inTime
    cases c.expiresAt <;> simp
  have hpasses : passes people f r s c = true ↔ ¬ heldAgainst people f (s.entry r) c = true ∧
      ¬ (c.tier ≠ .admin ∧ View.mayInvite ⟨s,people,f.catchingUp⟩ r (decide (c.tier = .coManager))
        (((s.entry r).inviteCreator c.inviteId).getD c.creatorPub) = false) := by
    unfold passes
    rw [Bool.and_eq_true,Bool.or_eq_true,decide_eq_true_eq,Bool.not_eq_true',Bool.not_eq_true]
    refine and_congr_right fun _ => ?_
    rw [not_and_or,not_not,Bool.not_eq_false]
  constructor
  · intro h
    refine ⟨fun hg => h.ungranted (Row.mem_grantsOf.mp (List.contains_iff_mem.mp hg)),hin.mp h.inTime,
      h.room,by simp [h.notRemoved],hpasses.mp h.passes⟩
  · rintro ⟨hgranted,htime,hroom,hremoved,hrest⟩
    refine ⟨fun hg => hgranted (List.contains_iff_mem.mpr (Row.mem_grantsOf.mpr hg)),hin.mpr htime,
      hroom,Bool.eq_false_iff.mpr hremoved,hpasses.mpr hrest⟩

theorem join_of_not_passes {c : VerifiedCreate} {aid : Text} {t : Nat}
    (h : ¬ Passes people f r s c aid t) :
    (join s people f r c aid t).1 = s ∧ (join s people f r c aid t).2 ≠ .applied := by
  unfold join
  simp only
  split
  · exact ⟨rfl,by simp⟩
  rename_i hgranted
  split
  · exact ⟨rfl,by simp⟩
  rename_i htime
  split
  · exact ⟨rfl,by simp⟩
  rename_i hroom
  split
  · exact ⟨rfl,by simp⟩
  rename_i hremoved
  split
  · exact ⟨rfl,by simp⟩
  rename_i hheld
  split
  · exact ⟨rfl,by simp⟩
  rename_i hmaker
  exact absurd (passes_iff.mpr ⟨hgranted,htime,hroom,hremoved,hheld,hmaker⟩) h

theorem join_of_passes {c : VerifiedCreate} {aid : Text} {t : Nat}
    (h : Passes people f r s c aid t) :
    let bound := (withMaker (s.entry r) c).addAllowed aid (some c.inviteId)
    (join s people f r c aid t).1 = s.put r bound.1 ∧
    ((join s people f r c aid t).2 = .applied ↔
      bound.2 = true ∨ View.isAllowed ⟨s.put r bound.1,people,f.catchingUp⟩ r aid = true) := by
  obtain ⟨hgranted,htime,hroom,hremoved,hheld,hmaker⟩ := passes_iff.mp h
  unfold heldAgainst at hheld
  intro bound
  have hjoin : join s people f r c aid t =
      if !bound.2 && !View.isAllowed ⟨s.put r bound.1,people,f.catchingUp⟩ r aid then
        (s.put r bound.1,.refused) else (s.put r bound.1,.applied) := by
    unfold join
    simp only
    rw [if_neg hgranted,if_neg htime,if_neg hroom,if_neg hremoved,if_neg hheld,if_neg hmaker]
    rfl
  rw [hjoin]
  cases bound.2 <;> cases View.isAllowed ⟨s.put r bound.1,people,f.catchingUp⟩ r aid <;> simp

/-- A join that passes every check and lets the person in, with no grant to show for it:
its invite has no id, or the list is full and the person is not on it. -/
structure LeavesNoGrant (people : People) (f : Facts) (r : Text) (s : Store) (c : VerifiedCreate)
    (aid : Text) (t : Nat) : Prop where
  passes : Passes people f r s c aid t
  maker : c.tier = .admin ∨ View.mayInvite ⟨s,people,f.catchingUp⟩ r
    (decide (c.tier = .coManager)) (makerAfter (s.entry r) c) = true
  noGrant : c.inviteId = [] ∨
    toLowercase aid ∉ (s.entry r).allow ∧ allowListCap ≤ (s.entry r).allow.length
  letIn : match people.classify (toLowercase aid) with
    | some p => (View.accountRank ⟨s,people,f.catchingUp⟩ r p).isSome = true
    | none => f.catchingUp.contains r = false ∧
      (toLowercase aid ∈ (s.entry r).allow ∨ (s.entry r).allow.length < allowListCap)

/-- After a join that left no grant, every check passes again when the maker still may
invite. -/
theorem passes_after {c : VerifiedCreate} {aid : Text} {t : Nat} (hpass : Passes people f r s c aid t)
    (hgroups : ((withMaker (s.entry r) c).addAllowed aid (some c.inviteId)).1.groups =
      (s.entry r).groups) :
    Passes people f r (s.put r ((withMaker (s.entry r) c).addAllowed aid (some c.inviteId)).1) c aid t ↔
      (c.tier = .admin ∨ View.mayInvite ⟨s,people,f.catchingUp⟩ r (decide (c.tier = .coManager))
        (makerAfter (s.entry r) c) = true) := by
  have hroles : ((withMaker (s.entry r) c).addAllowed aid (some c.inviteId)).1.roles =
      (withMaker (s.entry r) c).roles := Row.addAllowed_roles.1
  obtain ⟨_,_,hwithdrawn,hseq⟩ :=
    setInvite_effect (s.entry r) c.inviteId (tierStr c.tier) c.creatorPub
  have hstanding := join_standing s people f r c aid t
  rw [(join_of_passes hpass).1] at hstanding
  have hmay : ∀ co key,View.mayInvite ⟨_,people,f.catchingUp⟩ r co key =
      View.mayInvite ⟨s,people,f.catchingUp⟩ r co key :=
    mayInvite_congr hstanding.ranks hstanding.coManagers
  have hmaker := withMaker_maker (s.entry r) c ⟨s,people,f.catchingUp⟩ r (decide (c.tier = .coManager))
  have hheld : heldAgainst people f
      ((withMaker (s.entry r) c).addAllowed aid (some c.inviteId)).1 c = false := by
    have hnot := (passes_iff.mp hpass).2.2.2.2.1
    unfold heldAgainst Row.withdrawn at hnot ⊢
    rw [hroles,withMaker,hwithdrawn]
    exact Bool.eq_false_iff.mpr hnot
  have hpasses : passes people f r
      (s.put r ((withMaker (s.entry r) c).addAllowed aid (some c.inviteId)).1) c = true ↔
      (c.tier = .admin ∨ View.mayInvite ⟨s,people,f.catchingUp⟩ r (decide (c.tier = .coManager))
        (makerAfter (s.entry r) c) = true) := by
    unfold passes
    rw [hmay,Store.entry_put,hheld,← hmaker,Row.inviteCreator,hroles]
    simp [Row.inviteCreator]
  refine ⟨fun h => hpasses.mp h.passes,fun h => ⟨?_,hpass.inTime,?_,?_,hpasses.mpr h⟩⟩
  · rw [Store.entry_put,Row.InGroup,Row.group,hgroups]
    exact hpass.ungranted
  · rw [Store.entry_put,Row.boundThrough,Row.group,hgroups]
    exact hpass.room
  · have hnot := hpass.notRemoved
    unfold Row.removedAfter Row.stale at hnot ⊢
    rw [Store.entry_put,hroles,withMaker,hseq]
    exact hnot

/-- A second join changes nothing, and is taken for a new one only where the first left no
grant. -/
theorem join_again (s : Store) (people : People) (f : Facts) (r : Text) (c : VerifiedCreate)
    (aid : Text) (t : Nat) :
    (join (join s people f r c aid t).1 people f r c aid t).1 = (join s people f r c aid t).1 ∧
    ((join (join s people f r c aid t).1 people f r c aid t).2 = .applied ↔
      LeavesNoGrant people f r s c aid t) := by
  by_cases hpass : Passes people f r s c aid t
  swap
  · have hout := join_of_not_passes hpass
    rw [hout.1]
    exact ⟨hout.1,iff_of_false hout.2 fun h => hpass h.passes⟩
  rw [(join_of_passes hpass).1]
  have hallow : (withMaker (s.entry r) c).allow = (s.entry r).allow :=
    (setInvite_effect (s.entry r) c.inviteId (tierStr c.tier) c.creatorPub).1
  have hranks : (withMaker (s.entry r) c).roles.ranks = (s.entry r).roles.ranks := by
    have hstanding := (join_standing s people f r c aid t).ranks
    rw [(join_of_passes hpass).1,Store.entry_put,Row.addAllowed_roles.1] at hstanding
    exact hstanding
  by_cases hgrant : c.inviteId = [] ∨
      toLowercase aid ∉ (s.entry r).allow ∧ allowListCap ≤ (s.entry r).allow.length
  · obtain ⟨hgroups,hagain⟩ := addAllowed_again (e := withMaker (s.entry r) c) (by rwa [hallow])
    replace hgroups := hgroups.trans
      (setInvite_effect (s.entry r) c.inviteId (tierStr c.tier) c.creatorPub).2.1
    have hafter := passes_after hpass hgroups
    have hallowed : View.isAllowed ⟨s.put r
        ((withMaker (s.entry r) c).addAllowed aid (some c.inviteId)).1,people,f.catchingUp⟩ r aid =
          true ↔ _ := isAllowed_added hranks hallow
    have hmade : withMaker ((withMaker (s.entry r) c).addAllowed aid (some c.inviteId)).1 c =
        ((withMaker (s.entry r) c).addAllowed aid (some c.inviteId)).1 :=
      withMaker_again c Row.addAllowed_roles.1
    generalize ((withMaker (s.entry r) c).addAllowed aid (some c.inviteId)).1 = e' at *
    by_cases hpass' : Passes people f r (s.put r e') c aid t
    · obtain ⟨hstore,hanswer⟩ := join_of_passes hpass'
      rw [Store.entry_put,hmade,hagain,Store.put_put] at hstore hanswer
      refine ⟨hstore,hanswer.trans ?_⟩
      rw [hallowed]
      refine ⟨fun h => ⟨hpass,hafter.mp hpass',hgrant,h.resolve_left (by simp)⟩,fun h => Or.inr h.letIn⟩
    · have hout := join_of_not_passes hpass'
      exact ⟨hout.1,iff_of_false hout.2 fun h => hpass' (hafter.mpr h.maker)⟩
  · have hin := addAllowed_grants (e := withMaker (s.entry r) c) (by rwa [hallow])
    have hpass' : ¬ Passes people f r
        (s.put r ((withMaker (s.entry r) c).addAllowed aid (some c.inviteId)).1) c aid t := by
      intro h
      exact h.ungranted (by rwa [Store.entry_put])
    have hout := join_of_not_passes hpass'
    exact ⟨hout.1,iff_of_false hout.2 fun h => hgrant h.noGrant⟩

/-- A rank order is refused, or stale the second time. -/
theorem applyRank_again (s : Store) (people : People) (f : Facts) (r : Text) (o : AppRankOrder)
    (signature : Text) :
    (applyRank (applyRank s people f r o signature).1 people f r o signature).1 =
      (applyRank s people f r o signature).1 := by
  have hdone : (applyRank s people f r o signature).1 = s ∨
      (applyRank (applyRank s people f r o signature).1 people f r o signature).1 =
        (applyRank s people f r o signature).1 := by
    unfold applyRank
    cases appRankCanonical o with
    | none => exact Or.inl rfl
    | some canonical =>
      dsimp only
      by_cases hbad : o.serviceRef ≠ r ∨ f.installed = false ∨
          lowerHex (asciiLower signature) 128 = false ∨
          people.adminSignedAt (verifyAppRank o signature) f.nowMs people.anchors.strict = false
      · exact Or.inl (congrArg Prod.fst (if_pos hbad))
      simp only [if_neg hbad]
      have hrank := fun key : Text => staleOrApplied_again s r
        (fun e => e.setAccountRank key o.rank o.issuedAt (asciiLower signature ++ ':' :: canonical))
        fun e => e.setAccountRank_again key o.rank o.issuedAt _
      cases parseAppRankTarget o.target with
      | none => exact Or.inl rfl
      | some target =>
        cases target with
        | device pubHex =>
          dsimp only
          cases people.classify pubHex with
          | none => exact Or.inl rfl
          | some p =>
            cases p with
            | coManager c => exact Or.inl rfl
            | device k tier legacy => exact Or.inr (hrank _)
        | share id => exact Or.inr (hrank _)
        | aid aid => exact applyInvitedRank_again s r o _ _ _ _
        | invite id => exact applyInvitedRank_again s r o _ _ _ _
        | grant id aid => exact applyInvitedRank_again s r o _ _ _ _
  rcases hdone with hsame | hdone
  · rw [hsame]
    exact hsame
  · exact hdone

/-- The kinds of entries that settle something once. -/
def EntryBody.settles : EntryBody → Bool
  | .mode .. | .remove .. | .join .. | .accept .. | .share .. => true
  | .rank .. | .withdraw .. => false

theorem trustAt_congr (h : (s'.entry r).roles.coManagers = (s.entry r).roles.coManagers) :
    trustAt people f r s' = trustAt people f r s := by
  unfold trustAt View.entryTrust View.coManagerKeys Row.coManagersInOrder
  simp only [h]

/-- An entry that was applied verifies again, and says the same. -/
theorem says_again {e : AccessEntry} {v : Verified} (h : Says people f r s e v) :
    Says people f r (applyVerified s people f r v).1 e v := by
  cases v with
  | mode mode t =>
    unfold Says
    rw [trustAt_congr]
    · exact h
    · simp only [applyVerified,Store.entry_put]
      unfold Row.applyModeOrder
      split <;> rfl
  | remove aid t =>
    unfold Says
    rw [trustAt_congr]
    · exact h
    · simp only [applyVerified,Store.entry_put]
      unfold Row.applyRemoveOrder
      dsimp only
      split <;> rfl
  | withdraw rv signature =>
    unfold Says
    rw [trustAt_congr]
    · exact h
    · have hnoted : ((s.entry r).noteWithdrawn rv.inviteId rv.issuedAt signature).roles.coManagers =
          (s.entry r).roles.coManagers := by
        unfold Row.noteWithdrawn
        split <;> rfl
      simp only [applyVerified,applyWithdraw]
      split
      · rw [Store.entry_put]
        exact (Row.revokeGroup_effect _ _).1.coManagers.trans hnoted
      · rw [Store.entry_put]
        exact hnoted
  | join c aid t =>
    unfold Says
    rw [trustAt_congr]
    · exact h
    · exact (join_standing s people f r c aid t).coManagers
  | share id record =>
    obtain ⟨g,signature,ended,hb⟩ : ∃ g signature ended,e.body = .share g signature ended := by
      rcases verifyEntry_cases h with ⟨_,_,_,hv⟩ | ⟨_,_,_,hv⟩ | ⟨_,_,_,hv⟩ |
        ⟨_,_,_,_,_,_,_,_,hv⟩ | ⟨g,signature,ended,hb,_⟩
      · cases hv
      · cases hv
      · cases hv
      · cases hv
      · exact ⟨g,signature,ended,hb⟩
    -- a share is checked against the admins' keys, which the state does not name
    unfold Says verifyEntry at h ⊢
    rw [hb] at h ⊢
    exact h

/-- What an entry says is settled by its first application. -/
theorem applyVerified_again (s : Store) (people : People) (f : Facts) (r : Text) (v : Verified) :
    (applyVerified (applyVerified s people f r v).1 people f r v).1 =
      (applyVerified s people f r v).1 ∧
    ((∀ rv signature,v ≠ .withdraw rv signature) →
      ((applyVerified (applyVerified s people f r v).1 people f r v).2 = .applied ↔
        ∃ c aid t,v = .join c aid t ∧ LeavesNoGrant people f r s c aid t)) := by
  cases v with
  | mode mode t =>
    simp only [applyVerified,Store.entry_put,Row.applyModeOrder_again,Store.put_put]
    simp [entryResult]
  | remove aid t =>
    simp only [applyVerified,Store.entry_put,Row.applyRemoveOrder_again,Store.put_put]
    simp [entryResult]
  | withdraw rv signature =>
    exact ⟨applyWithdraw_again s people f r rv signature,fun h => absurd rfl (h rv signature)⟩
  | join c aid t =>
    obtain ⟨hstore,hanswer⟩ := join_again s people f r c aid t
    refine ⟨hstore,fun _ => hanswer.trans ⟨fun h => ⟨c,aid,t,rfl,h⟩,?_⟩⟩
    rintro ⟨c',aid',t',heq,h⟩
    cases heq
    exact h
  | share id record =>
    obtain ⟨hrow,hanswer⟩ := (s.entry r).noteCoManager_again id record
    simp only [applyVerified,Store.entry_put,hrow,Store.put_put]
    generalize (((s.entry r).noteCoManager id record).1.noteCoManager id record).2 = answer at hanswer
    simp only [List.mem_cons,List.not_mem_nil,or_false] at hanswer
    rcases hanswer with rfl | rfl <;> simp [entryResult]

/-- What else verifies than a withdraw settles something. -/
theorem settles_of_said {e : AccessEntry} {v : Verified} (h : Says people f r s e v)
    (hno : ∀ rv signature,v ≠ .withdraw rv signature) : e.body.settles = true := by
  rcases verifyEntry_cases h with ⟨o,signature,hb,_⟩ | ⟨o,signature,hb,_⟩ | ⟨rv,signature,_,hv⟩ |
    ⟨create,signature,_,_,_,hc,_⟩ | ⟨g,signature,ended,hb,_⟩
  · rw [hb]
    rfl
  · rw [hb]
    rfl
  · exact absurd hv (hno rv _)
  · unfold createOf at hc
    split at hc
    · rename_i hb
      rw [hb]
      rfl
    · rename_i hb
      rw [hb]
      rfl
    · cases hc
  · rw [hb]
    rfl

/-- An entry that verifies nowhere does nothing, unless it is a rank. -/
theorem applyEntry_unsaid {e : AccessEntry} (h : ∀ v,¬ Says people f r s e v) :
    (∃ o signature,e.body = .rank o signature) ∨
    (applyEntry s people f r e).1 = s ∧ (applyEntry s people f r e).2 ≠ .applied := by
  by_cases hrank : ∃ o signature,e.body = .rank o signature
  · exact Or.inl hrank
  refine Or.inr ?_
  unfold applyEntry
  split
  · rename_i o signature hb
    exact absurd ⟨o,signature,hb⟩ hrank
  · dsimp only
    split
    · exact ⟨rfl,by simp⟩
    · exact ⟨rfl,by simp⟩
    · rename_i v hv
      exact absurd hv (h v)

/-- An entry that is applied again right away changes nothing; and it is not answered as
applied, exactly unless it is a join that let someone in and left no grant. -/
theorem entry_settles_once_iff (r : Text) (s : Store) (c : Call) :
    (c.step r (c.step r s) = c.step r s ∧
      (c.entry.body.settles = true → c.answer r (c.step r s) ≠ .applied)) ↔
    ¬ ∃ create aid t,c.Says r s (.join create aid t) ∧
      LeavesNoGrant c.people c.facts r s create aid t := by
  unfold Call.step Call.answer Call.Says
  generalize c.people = people
  generalize c.facts = f
  generalize c.entry = e
  by_cases hsaid : ∃ v,Says people f r s e v
  · obtain ⟨v,hv⟩ := hsaid
    obtain ⟨hstore,hanswer⟩ := applyVerified_again s people f r v
    rw [applyEntry_of_said hv,applyEntry_of_said (says_again hv)]
    refine (and_iff_right hstore).trans ?_
    have hsaid : ∀ v',Says people f r s e v' ↔ v = v' := by
      intro v'
      unfold Says at hv ⊢
      rw [hv,Verdict.verified.injEq]
    simp only [hsaid]
    by_cases hw : ∃ rv signature,v = .withdraw rv signature
    · obtain ⟨rv,signature,rfl⟩ := hw
      refine iff_of_true (fun hsettles => ?_) ?_
      · have hb : ∃ rv signature,e.body = .withdraw rv signature := by
          rcases verifyEntry_cases hv with ⟨_,_,_,hv⟩ | ⟨_,_,_,hv⟩ | ⟨rv,signature,hb,_⟩ |
            ⟨_,_,_,_,_,_,_,_,hv⟩ | ⟨_,_,_,_,_,hv⟩
          · cases hv
          · cases hv
          · exact ⟨rv,signature,hb⟩
          · cases hv
          · cases hv
        obtain ⟨_,_,hb⟩ := hb
        rw [hb] at hsettles
        cases hsettles
      · rintro ⟨_,_,_,heq,_⟩
        cases heq
    · have hno : ∀ rv signature,v ≠ .withdraw rv signature :=
        fun rv signature heq => hw ⟨rv,signature,heq⟩
      rw [Ne,hanswer hno]
      exact ⟨fun h => h (settles_of_said hv hno),fun h _ => h⟩
  · have hunsaid : ∀ v,¬ Says people f r s e v := fun v hv => hsaid ⟨v,hv⟩
    refine iff_of_true ?_ (fun ⟨_,_,_,hv,_⟩ => hunsaid _ hv)
    rcases applyEntry_unsaid hunsaid with ⟨o,signature,hb⟩ | ⟨hstore,hanswer⟩
    · have happly : ∀ s,applyEntry s people f r e = applyRank s people f r o signature := by
        intro s
        unfold applyEntry
        rw [hb]
      rw [happly s,happly]
      refine ⟨applyRank_again s people f r o signature,fun hsettles => ?_⟩
      rw [hb] at hsettles
      cases hsettles
    · rw [hstore]
      exact ⟨hstore,fun _ => hanswer⟩

end

namespace Sample

/-- Five thousand people are on the list, each with a key of digits. -/
def fullList : List Text :=
  (List.range allowListCap).map fun n => '0' :: (Nat.toDigits 10 (10 ^ 62 + n))

def fullStore : Store := ⟨true,OrdMap.set ∅ app { Row.new true with allow := fullList }⟩

/-- A device of the account joins by the owner's invite. -/
def deviceJoins : Call :=
  ⟨{ people with devices := [⟨key 'a',.admin,none⟩] },⟨true,[],20⟩,laterJoin.entry⟩

end Sample

open Sample in
/-- On a full list the device's join is applied every time it is handed over. -/
theorem full_list_joins_again : ¬ (deviceJoins.step app (deviceJoins.step app fullStore) =
    deviceJoins.step app fullStore ∧ (deviceJoins.entry.body.settles = true →
      deviceJoins.answer app (deviceJoins.step app fullStore) ≠ .applied)) := by
  intro h
  have happlied : deviceJoins.answer app (deviceJoins.step app fullStore) = .applied := by
    decide +kernel
  exact h.2 rfl happlied

end Flagship.Access

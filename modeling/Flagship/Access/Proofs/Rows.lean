import Flagship.Access.Apply

namespace Flagship.Access
open Lib

@[simp] theorem Store.entry_put (s : Store) (r : Text) (e : Row) : (s.put r e).entry r = e := by
  simp [Store.entry,Store.put]

namespace Row

/-- The person joined through the invite. -/
def InGroup (e : Row) (id aid : Text) : Prop := aid ∈ (e.group id).getD []

theorem mem_grantsOf {e : Row} {id aid : Text} : id ∈ e.grantsOf aid ↔ e.InGroup id aid := by
  simp only [grantsOf,List.mem_map,List.mem_filter,List.contains_iff_mem,InGroup,group]
  constructor
  · rintro ⟨⟨a,m⟩,⟨hm,ha⟩,rfl⟩
    rw [(e.groups.mem_entries).mp hm]
    exact ha
  · intro h
    cases hg : e.groups.get? id with
    | none => simp [hg] at h
    | some m =>
      rw [hg] at h
      exact ⟨(id,m),⟨e.groups.mem_entries.mpr hg,h⟩,rfl⟩

theorem grantsOf_isEmpty {e : Row} {aid : Text} :
    (e.grantsOf aid).isEmpty = true ↔ ∀ id, ¬ e.InGroup id aid := by
  rw [List.isEmpty_iff,List.eq_nil_iff_forall_not_mem]
  exact forall_congr' fun id => not_congr mem_grantsOf

theorem new_inGroup {b : Bool} {id aid : Text} : ¬ (Row.new b).InGroup id aid := by
  simp [InGroup,group,Row.new]

@[simp] theorem sequenced_groups (e : Row) (key : Text) (t : Nat) :
    (e.sequenced key t).groups = e.groups := rfl

@[simp] theorem sequenced_allow (e : Row) (key : Text) (t : Nat) :
    (e.sequenced key t).allow = e.allow := rfl

section
variable {e : Row} {id id' aid x : Text} {t : Nat}

theorem removeAllowed_inGroup : (e.removeAllowed aid).InGroup id x ↔ e.InGroup id x ∧ x ≠ aid := by
  simp only [InGroup,group,removeAllowed,OrdMap.get?_filterMapVals]
  cases e.groups.get? id with
  | none => simp
  | some m =>
    simp only [Option.bind_some,Option.getD_some]
    split
    · rename_i he
      have hnil := List.isEmpty_iff.mp he
      simp only [Option.getD_none,List.not_mem_nil,false_iff,not_and]
      intro hm hne
      have : x ∈ m.filter (fun x => decide (x ≠ aid)) := by simp [hm,hne]
      rw [hnil] at this
      cases this
    · simp

variable [Lowercase]

/-- A remove order that is not stale takes the person out of everything. -/
theorem applyRemoveOrder_inGroup :
    (e.applyRemoveOrder aid t).1.InGroup id x ↔ e.InGroup id x ∧
      (e.stale (removeKey (toLowercase aid)) t = true ∨ x ≠ toLowercase aid) := by
  unfold applyRemoveOrder
  by_cases h : e.stale (removeKey (toLowercase aid)) t = true
  · simp [h]
  · simp only [h,Bool.false_eq_true,↓reduceIte,removeAllowed_inGroup,false_or]
    rfl

theorem applyRemoveOrder_allow : x ∈ (e.applyRemoveOrder aid t).1.allow ↔ x ∈ e.allow ∧
    (e.stale (removeKey (toLowercase aid)) t = true ∨ x ≠ toLowercase aid) := by
  unfold applyRemoveOrder
  by_cases h : e.stale (removeKey (toLowercase aid)) t = true
  · simp [h]
  · simp [h,removeAllowed]

/-- Joining through a named invite below the cap. -/
theorem addAllowed_inGroup (hid : id ≠ []) (hcap : e.allow.length < allowListCap) :
    (e.addAllowed aid (some id)).1.InGroup id' x ↔
      e.InGroup id' x ∨ id' = id ∧ x = toLowercase aid := by
  have hroom : decide (allowListCap ≤ e.allow.length) = false := by simpa using hcap
  have hne : id.isEmpty = false := by simpa using hid
  simp only [addAllowed,hroom,Bool.and_false,Bool.false_eq_true,↓reduceIte,Option.filter,hne,
    Bool.not_false,InGroup,group]
  by_cases hi : id' = id
  · subst hi
    simp only [OrdMap.get?_set_self,Option.getD_some,true_and]
    split
    · rename_i hc
      rw [List.contains_iff_mem] at hc
      exact ⟨Or.inl,fun h => h.elim (fun h => h) (fun h => h ▸ hc)⟩
    · simp
  · simp [OrdMap.get?_set_ne hi,hi]

theorem addAllowed_allow (hcap : e.allow.length < allowListCap) :
    x ∈ (e.addAllowed aid (some id)).1.allow ↔ x ∈ e.allow ∨ x = toLowercase aid := by
  have hroom : decide (allowListCap ≤ e.allow.length) = false := by simpa using hcap
  simp only [addAllowed,hroom,Bool.and_false,Bool.false_eq_true,↓reduceIte]
  split
  · rename_i hc
    rw [List.contains_iff_mem] at hc
    exact ⟨Or.inl,fun h => h.elim (fun h => h) (fun h => h ▸ hc)⟩
  · simp

theorem addAllowed_inGroup_other (hid : id' ≠ id)
    (h : (e.addAllowed aid (some id)).1.InGroup id' x) : e.InGroup id' x := by
  unfold addAllowed at h
  simp only at h
  split at h
  · exact h
  · cases hf : (some id).filter (fun i => !i.isEmpty) with
    | none =>
      simp only [hf] at h
      exact h
    | some i =>
      obtain ⟨hi,_⟩ := Option.filter_eq_some_iff.mp hf
      cases hi
      simp only [hf,InGroup,group,OrdMap.get?_set_ne hid] at h
      exact h

/-- The withdraw of an invite that is held already stays. -/
theorem noteWithdrawn_keeps {raw : Text} (i : Text) (at' : Nat) (signature : Text)
    (h : e.roles.withdrawn.get? id = some raw) (hne : raw ≠ []) :
    (e.noteWithdrawn i at' signature).roles.withdrawn.get? id = some raw := by
  unfold noteWithdrawn
  split
  · exact h
  · rename_i hfree
    refine (OrdMap.get?_set_ne ?_).trans h
    rintro rfl
    simp [h,hne] at hfree

/-- Whoever is new on the list is the person added, and was added. -/
theorem addAllowed_new {invite : Option Text} (h : x ∈ (e.addAllowed aid invite).1.allow)
    (hx : x ∉ e.allow) : x = toLowercase aid ∧ (e.addAllowed aid invite).2 = true := by
  unfold addAllowed at h ⊢
  simp only at h ⊢
  split
  · rename_i hfull
    rw [if_pos hfull] at h
    exact absurd h hx
  · rename_i hroom
    rw [if_neg hroom] at h
    by_cases hal : toLowercase aid ∈ e.allow
    · rw [if_pos (List.contains_iff_mem.mpr hal)] at h
      exact absurd h hx
    · rw [if_neg (mt List.contains_iff_mem.mp hal),List.mem_append,List.mem_singleton] at h
      exact ⟨h.resolve_left hx,by simpa using hal⟩

theorem addAllowed_roles : (e.addAllowed aid (some id)).1.roles = e.roles ∧
    (e.addAllowed aid (some id)).1.restricted = e.restricted := by
  unfold addAllowed
  simp only
  split <;> exact ⟨rfl,rfl⟩

end

/-- The rows' parts an invite's withdrawal leaves alone. -/
structure SameStanding (e e' : Row) : Prop where
  restricted : e'.restricted = e.restricted
  seq : e'.roles.seq = e.roles.seq
  ranks : e'.roles.ranks = e.roles.ranks
  coManagers : e'.roles.coManagers = e.roles.coManagers

theorem SameStanding.refl (e : Row) : SameStanding e e := ⟨rfl,rfl,rfl,rfl⟩

theorem SameStanding.trans {a b c : Row} (h : SameStanding a b) (h' : SameStanding b c) :
    SameStanding a c :=
  ⟨h'.restricted.trans h.restricted,h'.seq.trans h.seq,h'.ranks.trans h.ranks,
    h'.coManagers.trans h.coManagers⟩

/-- The pass over an invite's members touches the list and personal roles only. -/
theorem foldl_pruneMember (members : List Text) (e : Row) (n : Nat) :
    let e' := (members.foldl pruneMember (e,n)).1
    SameStanding e e' ∧ e'.groups = e.groups ∧ e'.roles.tiers = e.roles.tiers ∧
    e'.roles.creators = e.roles.creators ∧ e'.roles.withdrawn = e.roles.withdrawn ∧
    e'.allow.length ≤ e.allow.length ∧
    ∀ x, x ∈ e'.allow ↔ x ∈ e.allow ∧ ¬ (x ∈ members ∧ ∀ id, ¬ e.InGroup id x) := by
  induction members generalizing e n with
  | nil => exact ⟨SameStanding.refl e,rfl,rfl,rfl,rfl,le_refl _,by simp⟩
  | cons aid members ih =>
    have hone : SameStanding e (e.dropUngranted aid) ∧ (e.dropUngranted aid).groups = e.groups ∧
        (e.dropUngranted aid).roles.tiers = e.roles.tiers ∧
        (e.dropUngranted aid).roles.creators = e.roles.creators ∧
        (e.dropUngranted aid).roles.withdrawn = e.roles.withdrawn ∧
        (e.dropUngranted aid).allow.length ≤ e.allow.length ∧
        ∀ x, x ∈ (e.dropUngranted aid).allow ↔
          x ∈ e.allow ∧ ¬ (x = aid ∧ ∀ id, ¬ e.InGroup id x) := by
      unfold dropUngranted
      by_cases hg : (e.grantsOf aid).isEmpty = true
      · rw [if_pos hg]
        refine ⟨⟨rfl,rfl,rfl,rfl⟩,rfl,rfl,rfl,rfl,List.length_filter_le _ _,fun x => ?_⟩
        rw [grantsOf_isEmpty] at hg
        simp only [List.mem_filter,decide_eq_true_eq]
        refine and_congr_right fun _ => not_congr ⟨fun h => ⟨h,h ▸ hg⟩,And.left⟩
      · rw [if_neg hg]
        refine ⟨SameStanding.refl e,rfl,rfl,rfl,rfl,le_refl _,fun x => ?_⟩
        rw [grantsOf_isEmpty] at hg
        refine ⟨fun h => ⟨h,?_⟩,And.left⟩
        rintro ⟨rfl,hno⟩
        exact hg hno
    obtain ⟨hs,hgr,ht,hc,hw,hlen,hallow⟩ := hone
    have hin : ∀ id x, (e.dropUngranted aid).InGroup id x ↔ e.InGroup id x := by
      intro id x
      simp only [InGroup,group,hgr]
    obtain ⟨hs',hgr',ht',hc',hw',hlen',hallow'⟩ := ih (e.dropUngranted aid)
      (if (e.dropUngranted aid).allow.length ≠ e.allow.length then n + 1 else n)
    refine ⟨hs.trans hs',hgr'.trans hgr,ht'.trans ht,hc'.trans hc,hw'.trans hw,hlen'.trans hlen,
      fun x => ?_⟩
    refine (hallow' x).trans ?_
    rw [hallow x]
    simp only [hin,List.mem_cons]
    constructor
    · rintro ⟨⟨hm,ha⟩,hb⟩
      refine ⟨hm,?_⟩
      rintro ⟨rfl | hx,hno⟩
      · exact ha ⟨rfl,hno⟩
      · exact hb ⟨hx,hno⟩
    · rintro ⟨hm,hno⟩
      exact ⟨⟨hm,fun h => hno ⟨Or.inl h.1,h.2⟩⟩,fun h => hno ⟨Or.inr h.1,h.2⟩⟩

/-- What pruning an invite's group does. -/
theorem revokeGroup_effect (e : Row) (id : Text) :
    SameStanding e (e.revokeGroup id).1 ∧
    (e.revokeGroup id).1.roles.withdrawn = e.roles.withdrawn ∧
    (e.revokeGroup id).1.allow.length ≤ e.allow.length ∧
    (∀ id' x, (e.revokeGroup id).1.InGroup id' x ↔ e.InGroup id' x ∧ id' ≠ id) ∧
    (∀ x, x ∈ (e.revokeGroup id).1.allow ↔ x ∈ e.allow ∧
      ¬ (e.InGroup id x ∧ ∀ id', id' ≠ id → ¬ e.InGroup id' x)) ∧
    ∀ id', ((e.revokeGroup id).1.roles.tiers.get? id' = e.roles.tiers.get? id' ∧
        (e.revokeGroup id).1.roles.creators.get? id' = e.roles.creators.get? id') ∨
      id' = id ∧ (e.revokeGroup id).1.roles.tiers.get? id = none ∧
        (e.revokeGroup id).1.roles.creators.get? id = none := by
  by_cases hm : ((e.group id).getD []).isEmpty = true
  · have hr : e.revokeGroup id = (e,0) := if_pos hm
    have hnone : ∀ x, ¬ e.InGroup id x := by
      intro x hx
      rw [InGroup,List.isEmpty_iff.mp hm] at hx
      cases hx
    rw [hr]
    refine ⟨SameStanding.refl e,rfl,le_refl _,fun id' x => ⟨fun h => ⟨h,?_⟩,And.left⟩,
      fun x => ⟨fun h => ⟨h,fun hx => hnone x hx.1⟩,And.left⟩,fun id' => Or.inl ⟨rfl,rfl⟩⟩
    rintro rfl
    exact hnone x h
  · have hr : e.revokeGroup id = ((e.group id).getD []).foldl pruneMember (e.dropGroup id,0) :=
      if_neg hm
    obtain ⟨hs,hg,ht,hc,hw,hlen,hallow⟩ := foldl_pruneMember ((e.group id).getD []) (e.dropGroup id) 0
    have hin : ∀ id' x, (e.dropGroup id).InGroup id' x ↔ e.InGroup id' x ∧ id' ≠ id := by
      intro id' x
      by_cases hi : id' = id
      · simp [hi,InGroup,group,dropGroup]
      · simp [OrdMap.get?_erase_ne hi,hi,InGroup,group,dropGroup]
    rw [hr]
    generalize ((e.group id).getD []).foldl pruneMember (e.dropGroup id,0) = after at *
    refine ⟨⟨hs.restricted,hs.seq,hs.ranks,hs.coManagers⟩,hw,hlen,fun id' x => ?_,fun x => ?_,
      fun id' => ?_⟩
    · rw [← hin id' x]
      simp only [InGroup,group,hg]
    · refine (hallow x).trans (and_congr_right fun _ => not_congr ?_)
      refine and_congr_right fun _ => forall_congr' fun id' => ?_
      rw [hin id' x]
      exact ⟨fun h hne hx => h ⟨hx,hne⟩,fun h hx => h hx.2 hx.1⟩
    · rw [ht,hc]
      by_cases hi : id' = id
      · exact Or.inr ⟨hi,by simp [dropGroup],by simp [dropGroup]⟩
      · exact Or.inl ⟨OrdMap.get?_erase_ne hi,OrdMap.get?_erase_ne hi⟩

end Row
end Flagship.Access

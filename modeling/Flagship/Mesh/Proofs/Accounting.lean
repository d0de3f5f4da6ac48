import Flagship.Mesh.Proofs.StoreEffects

namespace Flagship.Mesh.Proofs
open Lib Relay Store

/-- A count as the counters keep it: none is not kept. -/
def nonzero (c : Nat) : Option Nat := if c = 0 then none else some c

theorem nonzero_getD (c : Nat) : (nonzero c).getD 0 = c := by
  unfold nonzero
  split
  · rename_i h
    rw [h]
    rfl
  · rfl

theorem bump_exact {m : OrdMap Text Nat} {relay : Text} {c : Nat} (h : m.get? relay = nonzero c)
    (up : Bool) (x : Text) : (bump m relay up).get? x =
      if x = relay then nonzero (if up then c + 1 else c - 1) else m.get? x := by
  simp only [bump,h,nonzero_getD]
  generalize (if up = true then c + 1 else c - 1) = d
  unfold nonzero
  by_cases hd : d = 0
  · rw [if_pos hd,OrdMap.get?_erase,if_pos hd]
  · rw [if_neg hd,OrdMap.get?_set,if_neg hd]

def sameRelay (relay : Text) (i : AttachmentItem) : Bool := decide (i.attachment.relayId = relay)

theorem foldl_bump_exact {gone : List AttachmentItem} {m : OrdMap Text Nat} {c : Text → Nat}
    (h : ∀ x, m.get? x = nonzero (c x)) (x : Text) :
    (gone.foldl (fun m i => bump m i.attachment.relayId false) m).get? x =
      nonzero (c x - gone.countP (sameRelay x)) := by
  induction gone generalizing m c with
  | nil => exact h x
  | cons i gone ih =>
    have hnext : ∀ y, (bump m i.attachment.relayId false).get? y =
        nonzero (if y = i.attachment.relayId then c y - 1 else c y) := by
      intro y
      rw [bump_exact (h _)]
      by_cases hy : y = i.attachment.relayId
      · simp [hy]
      · simp [hy,h y]
    rw [List.foldl_cons,ih hnext,List.countP_cons]
    by_cases hx : x = i.attachment.relayId
    · simp only [hx,↓reduceIte,sameRelay,decide_true]
      congr 1
      omega
    · have hx' : ¬ i.attachment.relayId = x := fun he => hx he.symm
      simp [hx,hx',sameRelay]

/-- How many stored box items a test accepts. -/
def boxTotal (s : Store) (p : AttachmentItem → Bool) : Nat := s.boxes.total (fun l => l.countP p)

/-- Every box item is stored once, under its own name, and counted. -/
structure Counted (s : Store) : Prop where
  present : ∀ n, s.boxes.get? n ≠ some []
  named : ∀ n, ∀ i ∈ listAt s n, i.attachment.serverFqdn = n
  unique : ∀ n, ((listAt s n).map (fun i => i.attachment.relayId)).Nodup
  boxCount : s.boxCount = boxTotal s (fun _ => true)
  perRelay : ∀ r, s.perRelay.get? r = nonzero (boxTotal s (sameRelay r))
  byAccount : ∀ a n, n ∈ (s.byAccount.get? a).getD ∅ ↔
    listAt s n ≠ [] ∧ accountOfPodName n s.apex = some a
  accounts : ∀ a, s.byAccount.get? a ≠ some ∅

/-- The part of a store that the box items, their indexes and their counters are. -/
structure SameBoxes (s s' : Store) : Prop where
  selfId : s'.selfId = s.selfId
  apex : s'.apex = s.apex
  caps : s'.caps = s.caps
  boxes : s'.boxes = s.boxes
  byAccount : s'.byAccount = s.byAccount
  byHash : s'.byHash = s.byHash
  perRelay : s'.perRelay = s.perRelay
  boxCount : s'.boxCount = s.boxCount

section
variable {s s' : Store}

theorem SameBoxes.listAt (h : SameBoxes s s') (n : Text) : listAt s' n = listAt s n := by
  simp only [Proofs.listAt,h.boxes]

theorem SameBoxes.boxTotal (h : SameBoxes s s') (p : AttachmentItem → Bool) :
    boxTotal s' p = boxTotal s p := by simp only [Proofs.boxTotal,h.boxes]

theorem SameBoxes.counted (h : SameBoxes s s') (hc : Counted s) : Counted s' := by
  refine ⟨?_,?_,?_,?_,?_,?_,?_⟩
  · rw [h.boxes]
    exact hc.present
  · simp only [h.listAt]
    exact hc.named
  · simp only [h.listAt]
    exact hc.unique
  · rw [h.boxCount,h.boxTotal]
    exact hc.boxCount
  · simp only [h.perRelay,h.boxTotal]
    exact hc.perRelay
  · simp only [h.byAccount,h.listAt,h.apex]
    exact hc.byAccount
  · rw [h.byAccount]
    exact hc.accounts

end

/-- A list of the store, one of them replaced. -/
theorem total_listAt (s : Store) (name : Text) (list : List AttachmentItem)
    (p : AttachmentItem → Bool) :
    (s.boxes.set name list).total (fun l => l.countP p) + (listAt s name).countP p =
      boxTotal s p + list.countP p := by
  have h := OrdMap.total_set (fun l : List AttachmentItem => l.countP p) s.boxes name list
  rw [boxTotal,← h,listAt]
  cases s.boxes.get? name <;> rfl

section
variable [Sha256] {s : Store}

/-- What dropping a name does to the accounts. -/
theorem dropName_byAccount (s : Store) (name a : Text) :
    ((s.dropName name).byAccount.get? a).getD ∅ =
      (if accountOfPodName name s.apex = some a then ((s.byAccount.get? a).getD ∅).erase name
        else (s.byAccount.get? a).getD ∅) ∧
    ((s.byAccount.get? a ≠ some ∅) → (s.dropName name).byAccount.get? a ≠ some ∅) := by
  simp only [dropName]
  cases hacc : accountOfPodName name s.apex with
  | none => simp
  | some account =>
    simp only [Option.some.injEq]
    cases hg : s.byAccount.get? account with
    | none =>
      by_cases ha : account = a
      · subst ha
        simp [hg]
      · simp [ha]
    | some names =>
      simp only
      by_cases ha : account = a
      · subst ha
        by_cases he : names.erase name = ∅
        · rw [if_pos he,if_pos rfl,hg,OrdMap.get?_erase_self]
          simp [he]
        · rw [if_neg he,if_pos rfl,hg,OrdMap.get?_set_self]
          simp [he]
      · have ha' : a ≠ account := fun h => ha h.symm
        rw [if_neg ha]
        by_cases he : names.erase name = ∅
        · rw [if_pos he,OrdMap.get?_erase_ne ha']
          exact ⟨rfl,id⟩
        · rw [if_neg he,OrdMap.get?_set_ne ha']
          exact ⟨rfl,id⟩

theorem removeBoxWhere_total (s : Store) (name : Text) (pred p : AttachmentItem → Bool) :
    boxTotal (s.removeBoxWhere name pred).1 p + ((listAt s name).filter pred).countP p =
      boxTotal s p := by
  have hsplit : ∀ l : List AttachmentItem, (l.filter pred).countP p +
      (l.filter (fun i => !pred i)).countP p = l.countP p := by
    intro l
    induction l with
    | nil => rfl
    | cons i l ih => cases hi : pred i <;> simp [hi,List.countP_cons] <;> omega
  unfold removeBoxWhere
  cases hg : s.boxes.get? name with
  | none => simp [listAt,hg]
  | some list =>
    have hl : listAt s name = list := by simp [listAt,hg]
    have hset := total_listAt s name (list.filter (fun i => !pred i)) p
    have hlist := hsplit list
    rw [hl] at hset ⊢
    simp only
    split
    · rename_i he
      have hnil : list.filter (fun i => !pred i) = [] := List.isEmpty_iff.mp he
      have herase := OrdMap.total_erase (fun l : List AttachmentItem => l.countP p)
        (s.boxes.set name (list.filter (fun i => !pred i))) name
      rw [OrdMap.get?_set_self,hnil] at herase
      rw [hnil] at hset hlist
      simp only [boxTotal,dropName,hnil] at hset herase ⊢
      simp only [Option.map_some,List.countP_nil,Option.getD_some,Nat.add_zero] at herase hset hlist
      omega
    · simp only [boxTotal] at hset ⊢
      omega

theorem removeBoxWhere_config (s : Store) (name : Text) (pred : AttachmentItem → Bool) :
    (s.removeBoxWhere name pred).1.selfId = s.selfId ∧
    (s.removeBoxWhere name pred).1.apex = s.apex ∧ (s.removeBoxWhere name pred).1.caps = s.caps := by
  unfold removeBoxWhere
  cases s.boxes.get? name with
  | none => exact ⟨rfl,rfl,rfl⟩
  | some list =>
    simp only
    split <;> exact ⟨rfl,rfl,rfl⟩

theorem removeBoxWhere_perRelay (s : Store) (name : Text) (pred : AttachmentItem → Bool) :
    (s.removeBoxWhere name pred).1.perRelay = ((listAt s name).filter pred).foldl
      (fun m i => bump m i.attachment.relayId false) s.perRelay := by
  unfold removeBoxWhere
  cases hg : s.boxes.get? name with
  | none => simp [listAt,hg]
  | some list =>
    have hl : listAt s name = list := by simp [listAt,hg]
    rw [hl]
    simp only
    split <;> rfl

/-- The indexes forget a name with its last item. -/
theorem removeBoxWhere_indexes (h : Counted s) (name : Text) (pred : AttachmentItem → Bool) :
    (listAt s name ≠ [] ∧ (listAt s name).filter (fun i => !pred i) = [] ∧
      (s.removeBoxWhere name pred).1.byAccount = (s.dropName name).byAccount ∧
      (s.removeBoxWhere name pred).1.byHash = (s.dropName name).byHash) ∨
    ((listAt s name ≠ [] → (listAt s name).filter (fun i => !pred i) ≠ []) ∧
      (s.removeBoxWhere name pred).1.byAccount = s.byAccount ∧
      (s.removeBoxWhere name pred).1.byHash = s.byHash) := by
  unfold removeBoxWhere
  cases hg : s.boxes.get? name with
  | none => exact Or.inr ⟨by simp [listAt,hg],rfl,rfl⟩
  | some list =>
    have hl : listAt s name = list := by simp [listAt,hg]
    have hne : list ≠ [] := by
      rintro rfl
      exact h.present name hg
    rw [hl]
    simp only
    split
    · rename_i he
      exact Or.inl ⟨hne,List.isEmpty_iff.mp he,rfl,rfl⟩
    · rename_i he
      exact Or.inr ⟨fun _ hnil => he (List.isEmpty_iff.mpr hnil),rfl,rfl⟩

/-- Removing items keeps the books. -/
theorem Counted.remove (h : Counted s) (name : Text) (pred : AttachmentItem → Bool) :
    Counted (s.removeBoxWhere name pred).1 := by
  obtain ⟨_,hlist,hcount,_⟩ := removeBoxWhere_effect s name pred
  obtain ⟨_,hapex,_⟩ := removeBoxWhere_config s name pred
  have htotal := removeBoxWhere_total s name pred
  have hsub : ∀ n, (listAt (s.removeBoxWhere name pred).1 n).Sublist (listAt s n) := by
    intro n
    rw [hlist]
    split
    · rename_i hn
      rw [hn]
      exact List.filter_sublist
    · exact List.Sublist.refl _
  refine ⟨fun n => ?_,fun n i hi => h.named n i ((hsub n).subset hi),
    fun n => (h.unique n).sublist ((hsub n).map _),?_,fun r => ?_,fun a n => ?_,fun a => ?_⟩
  · unfold removeBoxWhere
    cases hg : s.boxes.get? name with
    | none => exact h.present n
    | some list =>
      simp only
      split
      · rename_i he
        simp only [dropName]
        by_cases hn : n = name
        · rw [hn,OrdMap.get?_erase_self]
          simp
        · rw [OrdMap.get?_erase_ne hn,OrdMap.get?_set_ne hn]
          exact h.present n
      · rename_i he
        by_cases hn : n = name
        · rw [hn,OrdMap.get?_set_self]
          exact fun hnil => he (List.isEmpty_iff.mpr (Option.some.inj hnil))
        · rw [OrdMap.get?_set_ne hn]
          exact h.present n
  · have hall := htotal (fun _ => true)
    rw [List.countP_true] at hall
    rw [hcount,h.boxCount]
    omega
  · rw [removeBoxWhere_perRelay,foldl_bump_exact h.perRelay]
    have hr := htotal (sameRelay r)
    congr 1
    omega
  · rw [hapex]
    rcases removeBoxWhere_indexes h name pred with ⟨hne,hnil,hacc,_⟩ | ⟨hkept,hacc,_⟩
    · rw [hacc,(dropName_byAccount s name a).1,hlist]
      by_cases hn : n = name
      · subst hn
        have := h.byAccount a n
        rw [if_pos rfl,hnil]
        split
        · simp
        · rename_i ha
          simp only [this,ne_eq,not_true_eq_false,false_and,iff_false,not_and]
          exact fun _ => ha
      · rw [if_neg hn,← h.byAccount a n]
        split
        · simp [hn]
        · rfl
    · rw [hacc,h.byAccount,hlist]
      by_cases hn : n = name
      · subst hn
        rw [if_pos rfl]
        constructor
        · exact fun hp => ⟨hkept hp.1,hp.2⟩
        · rintro ⟨hp,ha⟩
          refine ⟨?_,ha⟩
          intro hnil
          rw [hnil] at hp
          exact hp rfl
      · rw [if_neg hn]
  · rcases removeBoxWhere_indexes h name pred with ⟨_,_,hacc,_⟩ | ⟨_,hacc,_⟩
    · rw [hacc]
      exact (dropName_byAccount s name a).2 (h.accounts a)
    · rw [hacc]
      exact h.accounts a

theorem pushBox_total (s : Store) (item : AttachmentItem) (p : AttachmentItem → Bool) :
    boxTotal (s.pushBox item) p = boxTotal s p + if p item then 1 else 0 := by
  have h := total_listAt s item.attachment.serverFqdn
    (listAt s item.attachment.serverFqdn ++ [item]) p
  rw [List.countP_append,List.countP_singleton] at h
  have hboxes : boxTotal (s.pushBox item) p = (s.boxes.set item.attachment.serverFqdn
      (listAt s item.attachment.serverFqdn ++ [item])).total (fun l => l.countP p) := rfl
  omega

theorem listAt_pushBox (s : Store) (item : AttachmentItem) (n : Text) : listAt (s.pushBox item) n =
    if n = item.attachment.serverFqdn then listAt s n ++ [item] else listAt s n := by
  simp only [listAt,pushBox,OrdMap.get?_set]
  split
  · rename_i hn
    rw [hn]
    rfl
  · rfl

/-- A first item of a relay for a name is counted in. -/
theorem Counted.push (h : Counted s) {item : AttachmentItem}
    (hnone : itemAt s item.attachment.serverFqdn item.attachment.relayId = none) :
    Counted (s.pushBox item) := by
  have hfresh := find?_key_none.mp hnone
  refine ⟨fun n => ?_,fun n i hi => ?_,fun n => ?_,?_,fun r => ?_,fun a n => ?_,fun a => ?_⟩
  · simp only [pushBox,OrdMap.get?_set]
    split
    · simp
    · exact h.present n
  · rw [listAt_pushBox] at hi
    split at hi
    · rename_i hn
      rcases List.mem_append.mp hi with hi | hi
      · exact h.named n i hi
      · rw [List.mem_singleton.mp hi,hn]
    · exact h.named n i hi
  · rw [listAt_pushBox]
    split
    · rename_i hn
      rw [List.map_append,hn]
      refine List.nodup_append.mpr ⟨h.unique _,by simp,?_⟩
      intro a ha b hb he
      obtain ⟨i,hi,rfl⟩ := List.mem_map.mp ha
      rw [List.map_cons,List.map_nil,List.mem_singleton] at hb
      exact hfresh i hi (he.trans hb)
    · exact h.unique n
  · rw [pushBox_total,← h.boxCount]
    rfl
  · have hr := h.perRelay item.attachment.relayId
    show (bump s.perRelay item.attachment.relayId true).get? r = _
    rw [bump_exact hr,pushBox_total]
    by_cases hx : r = item.attachment.relayId
    · simp [hx,sameRelay]
    · have hx' : ¬ item.attachment.relayId = r := fun he => hx he.symm
      simp [hx,hx',sameRelay,h.perRelay r]
  · rw [listAt_pushBox]
    simp only [pushBox]
    have hold := h.byAccount a n
    cases hacc : accountOfPodName item.attachment.serverFqdn s.apex with
    | none =>
      simp only
      rw [hold]
      by_cases hn : n = item.attachment.serverFqdn
      · simp [hn,hacc]
      · rw [if_neg hn]
    | some account =>
      simp only
      rw [OrdMap.get?_set]
      by_cases hn : n = item.attachment.serverFqdn
      · rw [if_pos hn,hn,hacc]
        rw [hn,hacc] at hold
        by_cases ha : a = account
        · simp [ha]
        · have ha' : account ≠ a := fun he => ha he.symm
          rw [if_neg ha,hold]
          simp [ha']
      · rw [if_neg hn,← hold]
        by_cases ha : a = account
        · simp [ha,hn]
        · rw [if_neg ha]
  · simp only [pushBox]
    cases hacc : accountOfPodName item.attachment.serverFqdn s.apex with
    | none => exact h.accounts a
    | some account =>
      simp only
      rw [OrdMap.get?_set]
      split
      · rw [ne_eq,Option.some.injEq]
        exact Finset.insert_ne_empty _ _
      · exact h.accounts a

end

section
variable {s : Store}

/-- The item takes the place of an older one of the same relay. -/
def replaceBox (s : Store) (item : AttachmentItem) : Store :=
  { s with
    boxes := s.boxes.set item.attachment.serverFqdn
      (replaceFirst (fun x => decide (x.attachment.relayId = item.attachment.relayId)) item
        (listAt s item.attachment.serverFqdn)) }

theorem listAt_replaceBox (s : Store) (item : AttachmentItem) (n : Text) :
    listAt (replaceBox s item) n = if n = item.attachment.serverFqdn then
      replaceFirst (fun x => decide (x.attachment.relayId = item.attachment.relayId)) item
        (listAt s item.attachment.serverFqdn) else listAt s n := by
  unfold replaceBox
  generalize replaceFirst _ _ _ = list
  simp only [listAt,OrdMap.get?_set]
  split <;> rfl

theorem replaceBox_relays (s : Store) (item : AttachmentItem) (n : Text) :
    (listAt (replaceBox s item) n).map (fun i => i.attachment.relayId) =
      (listAt s n).map (fun i => i.attachment.relayId) := by
  rw [listAt_replaceBox]
  split
  · rename_i hn
    rw [hn]
    exact map_replaceFirst (fun i : AttachmentItem => i.attachment.relayId) rfl _
  · rfl

theorem replaceBox_empty (s : Store) (item : AttachmentItem) (n : Text) :
    listAt (replaceBox s item) n = [] ↔ listAt s n = [] := by
  have hlen := congrArg List.length (replaceBox_relays s item n)
  rw [List.length_map,List.length_map] at hlen
  rw [← List.length_eq_zero_iff,hlen,List.length_eq_zero_iff]

/-- A test of the relay alone cannot tell the new item from the old one. -/
theorem replaceBox_total (s : Store) (item : AttachmentItem) (q : Text → Bool) :
    boxTotal (replaceBox s item) (fun i => q i.attachment.relayId) =
      boxTotal s (fun i => q i.attachment.relayId) := by
  have hcount : ∀ l : List AttachmentItem, l.countP (fun i => q i.attachment.relayId) =
      (l.map (fun i => i.attachment.relayId)).countP q := fun l => (List.countP_map).symm
  have hrelays := replaceBox_relays s item item.attachment.serverFqdn
  have hlist : listAt (replaceBox s item) item.attachment.serverFqdn =
      replaceFirst (fun x => decide (x.attachment.relayId = item.attachment.relayId)) item
        (listAt s item.attachment.serverFqdn) := by rw [listAt_replaceBox,if_pos rfl]
  have h := total_listAt s item.attachment.serverFqdn
    (listAt (replaceBox s item) item.attachment.serverFqdn) (fun i => q i.attachment.relayId)
  rw [hcount,hcount,hrelays,hlist] at h
  exact Nat.add_right_cancel h

theorem Counted.replace (h : Counted s) {item had : AttachmentItem}
    (hat : itemAt s item.attachment.serverFqdn item.attachment.relayId = some had) :
    Counted (replaceBox s item) := by
  obtain ⟨hmem,hrelay⟩ := (find?_key (h.unique _)).mp hat
  have hempty := replaceBox_empty s item
  refine ⟨fun n => ?_,fun n i hi => ?_,fun n => ?_,?_,fun r => ?_,fun a n => ?_,h.accounts⟩
  · intro hnil
    have hlist : listAt (replaceBox s item) n = [] := by
      unfold listAt
      rw [hnil]
      rfl
    by_cases hn : n = item.attachment.serverFqdn
    · rw [hempty,hn] at hlist
      rw [hlist] at hmem
      cases hmem
    · simp only [replaceBox,OrdMap.get?_set_ne hn] at hnil
      exact h.present n hnil
  · rw [listAt_replaceBox] at hi
    split at hi
    · rename_i hn
      rcases (mem_replaceFirst (fun i : AttachmentItem => i.attachment.relayId) (h.unique _)
        (List.mem_map.mpr ⟨had,hmem,hrelay⟩)).mp hi with rfl | ⟨hi,_⟩
      · exact hn.symm
      · rw [hn]
        exact h.named _ i hi
    · exact h.named n i hi
  · rw [replaceBox_relays]
    exact h.unique n
  · have := replaceBox_total s item (fun _ => true)
    rw [this]
    exact h.boxCount
  · have := replaceBox_total s item (fun x => decide (x = r))
    show s.perRelay.get? r = _
    rw [h.perRelay]
    exact congrArg nonzero this.symm
  · rw [ne_eq,hempty]
    exact h.byAccount a n

end
end Flagship.Mesh.Proofs

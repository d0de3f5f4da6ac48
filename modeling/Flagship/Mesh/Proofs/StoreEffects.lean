import Mathlib.Data.Finset.Card
import Flagship.Lib.FencedSlot
import Flagship.Mesh.Store

namespace Flagship.Mesh.Proofs
open Lib Relay Store

theorem bump_get? (m : OrdMap Text Nat) (relay x : Text) (up : Bool) :
    ((bump m relay up).get? x).getD 0 =
      if x = relay then (if up then (m.get? x).getD 0 + 1 else (m.get? x).getD 0 - 1)
      else (m.get? x).getD 0 := by
  by_cases hx : x = relay
  · subst hx
    rw [if_pos rfl]
    simp only [bump]
    generalize (if up = true then (m.get? x).getD 0 + 1 else (m.get? x).getD 0 - 1) = c
    split
    · rename_i h0
      simp [h0]
    · simp
  · rw [if_neg hx]
    simp only [bump]
    generalize (if up = true then (m.get? relay).getD 0 + 1 else (m.get? relay).getD 0 - 1) = c
    split
    · rw [OrdMap.get?_erase_ne hx]
    · rw [OrdMap.get?_set_ne hx]

/-- What is stored for a name. -/
def listAt (s : Store) (name : Text) : List AttachmentItem := (s.boxes.get? name).getD []

/-- What is stored for a name and a relay. -/
def itemAt (s : Store) (name relay : Text) : Option AttachmentItem :=
  (listAt s name).find? (fun x => decide (x.attachment.relayId = relay))

def newer (a b : AttachmentItem) : Bool := decide (compareAttachments a b = .gt)

def stampOf (a : AttachmentItem) : Nat := a.attachment.issuedAt

/-- A name and relay of the store as a register with a fence. -/
def slotOf (s : Store) (name relay : Text) : FencedSlot AttachmentItem :=
  ⟨(s.tombstones.get? (tombKey .box name relay)).map Prod.fst,itemAt s name relay⟩

theorem slotOf_fenced (s : Store) (name relay : Text) (a : AttachmentItem) :
    (slotOf s name relay).fenced stampOf a = s.withdrawn .box name relay (stampOf a) := by
  simp only [FencedSlot.fenced,slotOf,withdrawn]
  cases s.tombstones.get? (tombKey .box name relay) <;> rfl

/-- The items of a list that are stored. -/
def held (items : Finset AttachmentItem) (s : Store) : Finset AttachmentItem :=
  items.filter (fun i => itemAt s i.attachment.serverFqdn i.attachment.relayId = some i)

/-- A store fed from these items and withdrawals, none of which it lost to a cap. -/
structure Kept (items : Finset AttachmentItem) (ws : Finset RelayWithdraw) (s : Store) : Prop where
  unique : ∀ name, ((listAt s name).map (fun i => i.attachment.relayId)).Nodup
  named : ∀ name, ∀ i ∈ listAt s name, i.attachment.serverFqdn = name ∧ i ∈ items
  boxCount : s.boxCount ≤ (held items s).card
  perRelay : ∀ relay, (s.perRelay.get? relay).getD 0 ≤
    ((held items s).filter (fun i => i.attachment.relayId = relay)).card
  order : ∀ relay, ((s.tombstonesByRelay.get? relay).getD []).Nodup
  orderOf : ∀ relay, ∀ k ∈ (s.tombstonesByRelay.get? relay).getD [],
    s.tombstones.contains k = true ∧ ∃ w ∈ ws, k = tombKey w.subjectKind w.subject w.relayId

section
variable {items : Finset AttachmentItem} {ws : Finset RelayWithdraw} {s : Store}

theorem Kept.itemAt_eq (h : Kept items ws s) {name relay : Text} {i : AttachmentItem} :
    itemAt s name relay = some i ↔ i ∈ listAt s name ∧ i.attachment.relayId = relay :=
  find?_key (h.unique name)

theorem mem_held {i : AttachmentItem} : i ∈ held items s ↔
    i ∈ items ∧ itemAt s i.attachment.serverFqdn i.attachment.relayId = some i := by
  simp [held]

/-- An item that is stored anywhere is stored in its own place. -/
theorem Kept.mem_held (h : Kept items ws s) {name relay : Text} {i : AttachmentItem}
    (hi : itemAt s name relay = some i) :
    i ∈ held items s ∧ i.attachment.serverFqdn = name ∧ i.attachment.relayId = relay := by
  obtain ⟨hm,rfl⟩ := h.itemAt_eq.mp hi
  obtain ⟨rfl,hin⟩ := h.named name i hm
  exact ⟨Proofs.mem_held.mpr ⟨hin,hi⟩,rfl,rfl⟩

/-- Below the caps nothing has to make room. -/
theorem Kept.makeRoom [Sha256] (h : Kept items ws s) (hbox : items.card < s.caps.boxItems)
    (hper : items.card < s.caps.perRelay) (relay : Text) : s.makeRoom relay = s := by
  have hle : (held items s).card ≤ items.card := Finset.card_filter_le _ _
  have hb := h.boxCount
  have hp := (h.perRelay relay).trans (Finset.card_filter_le _ _)
  unfold Store.makeRoom
  rw [if_neg (by omega : ¬ s.caps.perRelay ≤ (s.perRelay.get? relay).getD 0)]
  simp only
  rw [if_neg (by omega : ¬ s.caps.boxItems ≤ s.boxCount)]
  exact ite_self s

end

theorem foldl_bump_down (gone : List AttachmentItem) (m : OrdMap Text Nat) (x : Text) :
    ((gone.foldl (fun m i => bump m i.attachment.relayId false) m).get? x).getD 0 =
      (m.get? x).getD 0 - (gone.filter (fun i => decide (i.attachment.relayId = x))).length := by
  induction gone generalizing m with
  | nil => simp
  | cons i gone ih =>
    rw [List.foldl_cons,ih,bump_get?]
    by_cases hx : x = i.attachment.relayId
    · simp only [hx,↓reduceIte,Bool.false_eq_true,List.filter_cons,decide_true,List.length_cons]
      omega
    · have hx' : ¬ i.attachment.relayId = x := fun h => hx h.symm
      simp [hx,hx']

/-- What the caps and the withdrawals of a store go by, left alone. -/
structure SameFences (s s' : Store) : Prop where
  tombstones : s'.tombstones = s.tombstones
  order : s'.tombstonesByRelay = s.tombstonesByRelay
  caps : s'.caps = s.caps

section
variable [Sha256]

theorem removeBoxWhere_effect (s : Store) (name : Text) (pred : AttachmentItem → Bool) :
    SameFences s (s.removeBoxWhere name pred).1 ∧
    (∀ n, listAt (s.removeBoxWhere name pred).1 n =
      if n = name then (listAt s name).filter (fun i => !pred i) else listAt s n) ∧
    (s.removeBoxWhere name pred).1.boxCount = s.boxCount - ((listAt s name).filter pred).length ∧
    ∀ x, ((s.removeBoxWhere name pred).1.perRelay.get? x).getD 0 = (s.perRelay.get? x).getD 0 -
      (((listAt s name).filter pred).filter (fun i => decide (i.attachment.relayId = x))).length := by
  unfold removeBoxWhere
  cases hg : s.boxes.get? name with
  | none =>
    have hl : listAt s name = [] := by simp [listAt,hg]
    refine ⟨⟨rfl,rfl,rfl⟩,fun n => ?_,by simp [hl],by simp [hl]⟩
    by_cases hn : n = name
    · simp [hn,hl]
    · simp [hn]
  | some list =>
    have hl : listAt s name = list := by simp [listAt,hg]
    rw [hl]
    simp only
    split
    · rename_i he
      have hnil : list.filter (fun i => !pred i) = [] := List.isEmpty_iff.mp he
      refine ⟨⟨rfl,rfl,rfl⟩,fun n => ?_,rfl,foldl_bump_down _ _⟩
      simp only [listAt,dropName,hnil]
      by_cases hn : n = name
      · simp [hn]
      · rw [OrdMap.get?_erase_ne hn,OrdMap.get?_set_ne hn,if_neg hn]
    · refine ⟨⟨rfl,rfl,rfl⟩,fun n => ?_,rfl,foldl_bump_down _ _⟩
      simp only [listAt]
      by_cases hn : n = name
      · simp [hn]
      · rw [OrdMap.get?_set_ne hn,if_neg hn]

/-- The item takes its place, whoever had it. -/
structure Placed (s s' : Store) (item : AttachmentItem) : Prop where
  fences : SameFences s s'
  other : ∀ n, n ≠ item.attachment.serverFqdn → listAt s' n = listAt s n
  unique : ((listAt s' item.attachment.serverFqdn).map (fun i => i.attachment.relayId)).Nodup
  mem : ∀ i, i ∈ listAt s' item.attachment.serverFqdn ↔
    i = item ∨ i ∈ listAt s item.attachment.serverFqdn ∧
      i.attachment.relayId ≠ item.attachment.relayId
  boxCount : s'.boxCount = s.boxCount +
    if itemAt s item.attachment.serverFqdn item.attachment.relayId = none then 1 else 0
  perRelay : ∀ x, (s'.perRelay.get? x).getD 0 = (s.perRelay.get? x).getD 0 +
    if itemAt s item.attachment.serverFqdn item.attachment.relayId = none ∧
      item.attachment.relayId = x then 1 else 0

/-- An insert leaves everything as it is, or places the item; either way the
item's slot makes the step of putting it. -/
theorem insertBox_cases {s : Store} {item : AttachmentItem}
    (hu : ((listAt s item.attachment.serverFqdn).map (fun i => i.attachment.relayId)).Nodup)
    (hroom : s.makeRoom item.attachment.relayId = s) :
    ((s.insertBox item).1 = s ∧
      ((slotOf s item.attachment.serverFqdn item.attachment.relayId).step newer stampOf
        (.put item)).cur = itemAt s item.attachment.serverFqdn item.attachment.relayId) ∨
    (Placed s (s.insertBox item).1 item ∧
      ((slotOf s item.attachment.serverFqdn item.attachment.relayId).step newer stampOf
        (.put item)).cur = some item) := by
  have hstep : ((slotOf s item.attachment.serverFqdn item.attachment.relayId).step newer stampOf
      (.put item)).cur = if s.withdrawn .box item.attachment.serverFqdn item.attachment.relayId
        item.attachment.issuedAt then itemAt s item.attachment.serverFqdn item.attachment.relayId
      else if (itemAt s item.attachment.serverFqdn item.attachment.relayId).all (newer item) then
        some item else itemAt s item.attachment.serverFqdn item.attachment.relayId := by
    simp only [FencedSlot.step,slotOf_fenced,apply_ite FencedSlot.cur]
    rfl
  rw [hstep]
  unfold insertBox
  simp only
  split
  · exact Or.inl ⟨rfl,rfl⟩
  have hfind : (((s.boxes.get? item.attachment.serverFqdn).getD []).find?
      (fun x => decide (x.attachment.relayId = item.attachment.relayId))) =
      itemAt s item.attachment.serverFqdn item.attachment.relayId := rfl
  rw [hfind]
  cases hat : itemAt s item.attachment.serverFqdn item.attachment.relayId with
  | some had =>
    obtain ⟨hmem,hrelay⟩ := (find?_key hu).mp hat
    simp only
    by_cases hgt : compareAttachments item had = .gt
    · refine Or.inr ⟨?_,by simp [newer,hgt]⟩
      rw [if_pos hgt]
      refine ⟨⟨rfl,rfl,rfl⟩,fun n hn => ?_,?_,fun i => ?_,by simp [hat],by simp [hat]⟩
      · simp only [listAt,OrdMap.get?_set_ne hn]
      · simp only [listAt,OrdMap.get?_set_self,Option.getD_some]
        rw [map_replaceFirst (fun i : AttachmentItem => i.attachment.relayId) rfl]
        exact hu
      · simp only [listAt,OrdMap.get?_set_self,Option.getD_some]
        exact mem_replaceFirst (fun i : AttachmentItem => i.attachment.relayId) hu
          (List.mem_map.mpr ⟨had,hmem,hrelay⟩)
    · refine Or.inl ⟨?_,by simp [newer,hgt]⟩
      rw [if_neg hgt]
  | none =>
    have hnone := find?_key_none.mp hat
    refine Or.inr ⟨?_,by simp⟩
    simp only [hroom]
    refine ⟨⟨rfl,rfl,rfl⟩,fun n hn => ?_,?_,fun i => ?_,by simp [pushBox,hat],fun x => ?_⟩
    · simp only [listAt,pushBox,OrdMap.get?_set_ne hn]
    · simp only [listAt,pushBox,OrdMap.get?_set_self,Option.getD_some,List.map_append,
        List.map_cons,List.map_nil]
      refine List.nodup_append.mpr ⟨hu,by simp,?_⟩
      intro a ha b hb he
      obtain ⟨i,hi,rfl⟩ := List.mem_map.mp ha
      rw [List.mem_singleton.mp hb] at he
      exact hnone i hi he
    · simp only [listAt,pushBox,OrdMap.get?_set_self,Option.getD_some,List.mem_append,
        List.mem_singleton]
      constructor
      · rintro (hi | rfl)
        · exact Or.inr ⟨hi,hnone i hi⟩
        · exact Or.inl rfl
      · rintro (rfl | ⟨hi,_⟩)
        · exact Or.inr rfl
        · exact Or.inl hi
    · simp only [pushBox,bump_get?,hat,true_and,↓reduceIte]
      by_cases hx : x = item.attachment.relayId
      · simp [hx]
      · have hx' : ¬ item.attachment.relayId = x := fun h => hx h.symm
        simp [hx,hx']

end

section
variable {items : Finset AttachmentItem} {ws : Finset RelayWithdraw} {s s' : Store}

theorem Placed.itemAt {item : AttachmentItem} (p : Placed s s' item) (h : Kept items ws s)
    (n r : Text) : itemAt s' n r =
      if n = item.attachment.serverFqdn ∧ r = item.attachment.relayId then some item
      else itemAt s n r := by
  apply Option.ext
  intro i
  by_cases hn : n = item.attachment.serverFqdn
  · subst hn
    rw [Proofs.itemAt,find?_key p.unique,p.mem]
    by_cases hr : r = item.attachment.relayId
    · simp only [hr,and_self,↓reduceIte,Option.some.injEq]
      constructor
      · rintro ⟨rfl | ⟨_,hne⟩,he⟩
        · rfl
        · exact absurd he hne
      · rintro rfl
        exact ⟨Or.inl rfl,rfl⟩
    · simp only [hr,and_false,↓reduceIte,h.itemAt_eq]
      constructor
      · rintro ⟨rfl | ⟨hi,_⟩,rfl⟩
        · exact absurd rfl hr
        · exact ⟨hi,rfl⟩
      · rintro ⟨hi,rfl⟩
        exact ⟨Or.inr ⟨hi,hr⟩,rfl⟩
  · simp only [Proofs.itemAt,p.other n hn,hn,false_and,↓reduceIte]

/-- Placing an item adds to what is held exactly when its place was empty. -/
theorem Placed.card_held {item : AttachmentItem} (p : Placed s s' item) (h : Kept items ws s)
    (hi : item ∈ items) (q : AttachmentItem → Prop) [DecidablePred q]
    (hq : ∀ a b : AttachmentItem, a.attachment.relayId = b.attachment.relayId → (q a ↔ q b)) :
    ((held items s).filter q).card +
      (if Proofs.itemAt s item.attachment.serverFqdn item.attachment.relayId = none ∧ q item
        then 1 else 0) ≤ ((held items s').filter q).card := by
  -- the items elsewhere stay as they are
  have hsub : ∀ i ∈ held items s, ¬ (i.attachment.serverFqdn = item.attachment.serverFqdn ∧
      i.attachment.relayId = item.attachment.relayId) → i ∈ held items s' := by
    intro i him hne
    obtain ⟨hin,hat⟩ := Proofs.mem_held.mp him
    refine Proofs.mem_held.mpr ⟨hin,?_⟩
    rw [p.itemAt h,if_neg hne]
    exact hat
  have hitem : item ∈ held items s' := by
    refine Proofs.mem_held.mpr ⟨hi,?_⟩
    rw [p.itemAt h,if_pos ⟨rfl,rfl⟩]
  cases hat : Proofs.itemAt s item.attachment.serverFqdn item.attachment.relayId with
  | none =>
    have hfresh : ∀ i ∈ held items s, ¬ (i.attachment.serverFqdn = item.attachment.serverFqdn ∧
        i.attachment.relayId = item.attachment.relayId) := by
      rintro i him ⟨hn,hr⟩
      have := (Proofs.mem_held.mp him).2
      rw [hn,hr,hat] at this
      cases this
    have hle : (held items s).filter q ⊆ (held items s').filter q := by
      intro i him
      obtain ⟨him,hqi⟩ := Finset.mem_filter.mp him
      exact Finset.mem_filter.mpr ⟨hsub i him (hfresh i him),hqi⟩
    by_cases hqi : q item
    · simp only [hqi,and_self,↓reduceIte]
      have hnot : item ∉ (held items s).filter q := fun hm =>
        hfresh item (Finset.mem_filter.mp hm).1 ⟨rfl,rfl⟩
      rw [← Finset.card_insert_of_notMem hnot]
      apply Finset.card_le_card
      intro i him
      rcases Finset.mem_insert.mp him with rfl | him
      · exact Finset.mem_filter.mpr ⟨hitem,hqi⟩
      · exact hle him
    · simp only [hqi,and_false,↓reduceIte,Nat.add_zero]
      exact Finset.card_le_card hle
  | some had =>
    simp only [reduceCtorEq,false_and,↓reduceIte,Nat.add_zero]
    -- the item stands in for the one it replaces
    apply Finset.card_le_card_of_injOn (fun i => if i = had then item else i)
    · intro i him
      obtain ⟨him,hqi⟩ := Finset.mem_filter.mp him
      apply Finset.mem_filter.mpr
      beta_reduce
      by_cases he : i = had
      · rw [if_pos he]
        subst he
        exact ⟨hitem,(hq item i (h.mem_held hat).2.2.symm).mpr hqi⟩
      · rw [if_neg he]
        refine ⟨hsub i him ?_,hqi⟩
        rintro ⟨hn,hr⟩
        have := (Proofs.mem_held.mp him).2
        rw [hn,hr,hat] at this
        exact he (Option.some.inj this).symm
    · intro a ha b hb hab
      have hslot : ∀ i ∈ (held items s).filter q, i ≠ had → i ≠ item := by
        rintro i him hne rfl
        have := (Proofs.mem_held.mp (Finset.mem_filter.mp him).1).2
        rw [hat] at this
        exact hne (Option.some.inj this).symm
      simp only at hab
      split at hab <;> split at hab
      · rename_i h1 h2
        rw [h1,h2]
      · rename_i h1 h2
        exact absurd hab.symm (hslot b hb h2)
      · rename_i h1 h2
        exact absurd hab (hslot a ha h1)
      · exact hab

theorem Placed.kept {item : AttachmentItem} (p : Placed s s' item) (h : Kept items ws s)
    (hi : item ∈ items) : Kept items ws s' := by
  refine ⟨fun n => ?_,fun n i him => ?_,?_,fun x => ?_,?_,?_⟩
  · by_cases hn : n = item.attachment.serverFqdn
    · rw [hn]
      exact p.unique
    · rw [p.other n hn]
      exact h.unique n
  · by_cases hn : n = item.attachment.serverFqdn
    · subst hn
      rcases (p.mem i).mp him with rfl | ⟨him,_⟩
      · exact ⟨rfl,hi⟩
      · exact h.named _ i him
    · rw [p.other n hn] at him
      exact h.named n i him
  · have hc := p.card_held h hi (fun _ => True) (fun _ _ _ => Iff.rfl)
    simp only [Finset.filter_true,and_true] at hc
    rw [p.boxCount]
    exact (Nat.add_le_add_right h.boxCount _).trans hc
  · have hc := p.card_held h hi (fun i => i.attachment.relayId = x) (fun a b he => by rw [he])
    rw [p.perRelay]
    exact (Nat.add_le_add_right (h.perRelay x) _).trans hc
  · rw [p.fences.order]
    exact h.order
  · rw [p.fences.order,p.fences.tombstones]
    exact h.orderOf

end
/-- The key under which a withdrawal is kept. -/
def keyOf (w : RelayWithdraw) : Text := tombKey w.subjectKind w.subject w.relayId

/-- Neither part of a place holds the separator of the tombstone keys. -/
def PlainPlace (name relay : Text) : Prop := '|' ∉ name ∧ '|' ∉ relay

theorem tombKey_injective {k k' : SubjectKind} {n n' r r' : Text} (h : PlainPlace n r)
    (h' : PlainPlace n' r') (he : tombKey k n r = tombKey k' n' r') : k = k' ∧ n = n' ∧ r = r' := by
  have hname : ∀ k : SubjectKind, '|' ∉ k.name := by
    intro k
    cases k <;> decide
  have hkey : (⟨k.name,n,r⟩ : SetKey) = ⟨k'.name,n',r'⟩ :=
    SetKey.encode_injective ⟨hname k,h.1,h.2⟩ ⟨hname k',h'.1,h'.2⟩ he
  simp only [SetKey.mk.injEq] at hkey
  refine ⟨?_,hkey.2.1,hkey.2.2⟩
  have hk := hkey.1
  cases k <;> cases k' <;> first | rfl | (revert hk; decide)

/-- Keeping a tombstone below the cap raises one fence and drops none. -/
structure FenceRaised (s s' : Store) (w : RelayWithdraw) : Prop where
  boxes : s'.boxes = s.boxes
  boxCount : s'.boxCount = s.boxCount
  perRelay : s'.perRelay = s.perRelay
  caps : s'.caps = s.caps
  fence : ∀ k, (s'.tombstones.get? k).map Prod.fst = if k = keyOf w then
      some (max w.withdrawnIssuedAt
        (((s.tombstones.get? (keyOf w)).map Prod.fst).getD w.withdrawnIssuedAt))
    else (s.tombstones.get? k).map Prod.fst
  order : (s'.tombstonesByRelay = s.tombstonesByRelay ∧ s.tombstones.contains (keyOf w) = true) ∨
    (s.tombstones.get? (keyOf w) = none ∧ s'.tombstonesByRelay = s.tombstonesByRelay.set w.relayId
      ((s.tombstonesByRelay.get? w.relayId).getD [] ++ [keyOf w]))

theorem keepTombstone_raised {s : Store} {w : RelayWithdraw} (now : Nat)
    (hroom : ((s.tombstonesByRelay.get? w.relayId).getD []).length < tombstonesPerRelayMax) :
    FenceRaised s (s.keepTombstone w now) w := by
  have hkey : tombKey w.subjectKind w.subject w.relayId = keyOf w := rfl
  simp only [keepTombstone,hkey]
  cases hg : s.tombstones.get? (keyOf w) with
  | some t =>
    simp only
    have hin : s.tombstones.contains (keyOf w) = true := s.tombstones.contains_iff.mpr ⟨t,hg⟩
    split
    · rename_i hlt
      refine ⟨rfl,rfl,rfl,rfl,fun k => ?_,Or.inl ⟨rfl,hin⟩⟩
      rw [OrdMap.get?_set]
      split
      · simp [hg,Nat.max_eq_left hlt.le]
      · rfl
    · rename_i hlt
      refine ⟨rfl,rfl,rfl,rfl,fun k => ?_,Or.inl ⟨rfl,hin⟩⟩
      split
      · rename_i hk
        simp [hk,hg,Nat.max_eq_right (Nat.le_of_not_lt hlt)]
      · rfl
  | none =>
    have hover : ((s.tombstonesByRelay.get? w.relayId).getD []).length + 1 -
        tombstonesPerRelayMax = 0 := by omega
    simp only [hover,List.take_zero,List.foldl_nil,List.drop_zero]
    refine ⟨rfl,rfl,rfl,rfl,fun k => ?_,Or.inr ⟨hg,rfl⟩⟩
    rw [OrdMap.get?_set]
    split
    · simp [hg]
    · rfl

section
variable {items : Finset AttachmentItem} {ws : Finset RelayWithdraw} {s s' : Store}

theorem Kept.order_lt (h : Kept items ws s) (hcap : ws.card < tombstonesPerRelayMax)
    (relay : Text) : ((s.tombstonesByRelay.get? relay).getD []).length < tombstonesPerRelayMax := by
  refine lt_of_le_of_lt ?_ hcap
  rw [← List.toFinset_card_of_nodup (h.order relay)]
  refine le_trans (Finset.card_le_card (t := ws.image keyOf) ?_) Finset.card_image_le
  intro k hk
  obtain ⟨_,w,hw,rfl⟩ := h.orderOf relay k (List.mem_toFinset.mp hk)
  exact Finset.mem_image.mpr ⟨w,hw,rfl⟩

theorem FenceRaised.itemAt {w : RelayWithdraw} (f : FenceRaised s s' w) (n r : Text) :
    itemAt s' n r = itemAt s n r := by simp only [Proofs.itemAt,listAt,f.boxes]

theorem FenceRaised.kept {w : RelayWithdraw} (f : FenceRaised s s' w) (h : Kept items ws s)
    (hw : w ∈ ws) : Kept items ws s' := by
  have hlist : ∀ n, listAt s' n = listAt s n := fun n => by simp only [listAt,f.boxes]
  have hheld : held items s' = held items s := by simp only [held,f.itemAt]
  have hmono : ∀ k, s.tombstones.contains k = true → s'.tombstones.contains k = true := by
    intro k hk
    have hf := f.fence k
    obtain ⟨t,ht⟩ := s.tombstones.contains_iff.mp hk
    refine s'.tombstones.contains_iff.mpr ?_
    cases hk' : s'.tombstones.get? k with
    | some t' => exact ⟨t',rfl⟩
    | none =>
      rw [hk',ht] at hf
      split at hf <;> cases hf
  have hnew : s'.tombstones.contains (keyOf w) = true := by
    have hf := f.fence (keyOf w)
    rw [if_pos rfl] at hf
    obtain ⟨t,ht,_⟩ := Option.map_eq_some_iff.mp hf
    exact s'.tombstones.contains_iff.mpr ⟨t,ht⟩
  refine ⟨fun n => hlist n ▸ h.unique n,fun n => hlist n ▸ h.named n,?_,?_,fun r => ?_,
    fun r k hk => ?_⟩
  · rw [f.boxCount,hheld]
    exact h.boxCount
  · rw [f.perRelay,hheld]
    exact h.perRelay
  · rcases f.order with ⟨ho,_⟩ | ⟨hg,ho⟩
    · rw [ho]
      exact h.order r
    · rw [ho,OrdMap.get?_set]
      split
      · simp only [Option.getD_some]
        refine List.nodup_append.mpr ⟨h.order _,by simp,?_⟩
        intro a ha b hb he
        rw [List.mem_singleton.mp hb] at he
        obtain ⟨t,ht⟩ := s.tombstones.contains_iff.mp (h.orderOf _ a ha).1
        rw [he,hg] at ht
        cases ht
      · exact h.order r
  · have hold : ∀ x, k ∈ (s.tombstonesByRelay.get? x).getD [] → s'.tombstones.contains k = true ∧
        ∃ w ∈ ws, k = tombKey w.subjectKind w.subject w.relayId :=
      fun x hx => ⟨hmono k (h.orderOf x k hx).1,(h.orderOf x k hx).2⟩
    rcases f.order with ⟨ho,_⟩ | ⟨_,ho⟩
    · rw [ho] at hk
      exact hold r hk
    · rw [ho,OrdMap.get?_set] at hk
      split at hk
      · rcases List.mem_append.mp hk with hk | hk
        · exact hold _ hk
        · rw [List.mem_singleton.mp hk]
          exact ⟨hnew,w,hw,rfl⟩
      · exact hold r hk

/-- A withdrawal takes away exactly what it covers. -/
structure Cleared (s s' : Store) (w : RelayWithdraw) : Prop where
  fences : SameFences s s'
  list : ∀ n, listAt s' n =
    if n = w.subject then (listAt s n).filter (fun i => !withdrawCoversBox w i) else listAt s n
  boxCount : s'.boxCount =
    s.boxCount - ((listAt s w.subject).filter (withdrawCoversBox w)).length
  perRelay : ∀ x, (s'.perRelay.get? x).getD 0 = (s.perRelay.get? x).getD 0 -
    (((listAt s w.subject).filter (withdrawCoversBox w)).filter
      (fun i => decide (i.attachment.relayId = x))).length

theorem withdraw_cleared [Sha256] (s : Store) (w : RelayWithdraw) :
    Cleared s (s.withdraw w).1 w := by
  unfold withdraw
  cases hk : w.subjectKind with
  | box =>
    obtain ⟨hf,hl,hb,hp⟩ := removeBoxWhere_effect s w.subject (withdrawCoversBox w)
    refine ⟨hf,fun n => ?_,hb,hp⟩
    refine (hl n).trans ?_
    split
    · rename_i hn
      rw [hn]
    · rfl
  | phone =>
    have hno : ∀ i, withdrawCoversBox w i = false := by
      intro i
      simp [withdrawCoversBox,hk]
    have hsame : ∀ l : List AttachmentItem, l.filter (withdrawCoversBox w) = [] := by
      intro l
      simp [List.filter_eq_nil_iff,hno]
    simp only [keepPhones]
    cases hg : s.phones.get? w.subject with
    | none => exact ⟨⟨rfl,rfl,rfl⟩,fun n => by simp [hno],by simp [hsame],by simp [hsame]⟩
    | some list =>
      refine ⟨⟨rfl,rfl,rfl⟩,fun n => ?_,by simp [hsame],by simp [hsame]⟩
      simp only [hno,Bool.not_false,List.filter_true,ite_self]
      rfl

theorem Cleared.unique {w : RelayWithdraw} (c : Cleared s s' w) (h : Kept items ws s) (n : Text) :
    ((listAt s' n).map (fun i => i.attachment.relayId)).Nodup := by
  rw [c.list]
  split
  · exact (h.unique n).sublist ((List.filter_sublist).map _)
  · exact h.unique n

theorem Cleared.mem {w : RelayWithdraw} (c : Cleared s s' w) (h : Kept items ws s) {n : Text}
    {i : AttachmentItem} :
    i ∈ listAt s' n ↔ i ∈ listAt s n ∧ withdrawCoversBox w i = false := by
  rw [c.list]
  split
  · simp
  · rename_i hn
    constructor
    · intro hi
      refine ⟨hi,?_⟩
      simp only [withdrawCoversBox,decide_eq_false_iff_not]
      rintro ⟨_,hs,_⟩
      exact hn ((h.named n i hi).1.symm.trans hs)
    · exact fun hi => hi.1

theorem Cleared.itemAt {w : RelayWithdraw} (c : Cleared s s' w) (h : Kept items ws s) (n r : Text) :
    itemAt s' n r = (itemAt s n r).filter (fun i => !withdrawCoversBox w i) := by
  apply Option.ext
  intro i
  rw [Option.filter_eq_some_iff,h.itemAt_eq,Proofs.itemAt,find?_key (c.unique h n),c.mem h]
  simp only [Bool.not_eq_true']
  exact ⟨fun ⟨⟨a,b⟩,d⟩ => ⟨⟨a,d⟩,b⟩,fun ⟨⟨a,d⟩,b⟩ => ⟨⟨a,b⟩,d⟩⟩

/-- What is held falls by no more than what the withdrawal took. -/
theorem Cleared.card_held {w : RelayWithdraw} (c : Cleared s s' w) (h : Kept items ws s)
    (q : AttachmentItem → Bool) :
    ((held items s).filter (fun i => q i = true)).card ≤
      ((held items s').filter (fun i => q i = true)).card +
        (((listAt s w.subject).filter (withdrawCoversBox w)).filter q).length := by
  rw [← Finset.card_filter_add_card_filter_not (s := (held items s).filter (fun i => q i = true))
    (fun i => withdrawCoversBox w i = false)]
  refine Nat.add_le_add (Finset.card_le_card ?_) ?_
  · intro i hi
    obtain ⟨hi,hc⟩ := Finset.mem_filter.mp hi
    obtain ⟨hi,hq⟩ := Finset.mem_filter.mp hi
    obtain ⟨hin,hat⟩ := Proofs.mem_held.mp hi
    refine Finset.mem_filter.mpr ⟨Proofs.mem_held.mpr ⟨hin,?_⟩,hq⟩
    rw [c.itemAt h,hat]
    exact Option.filter_eq_some_iff.mpr ⟨rfl,by simp [hc]⟩
  · refine le_trans (Finset.card_le_card (t := (((listAt s w.subject).filter
      (withdrawCoversBox w)).filter q).toFinset) ?_) (List.toFinset_card_le _)
    intro i hi
    obtain ⟨hi,hc⟩ := Finset.mem_filter.mp hi
    obtain ⟨hi,hq⟩ := Finset.mem_filter.mp hi
    have hm := (h.itemAt_eq.mp (Proofs.mem_held.mp hi).2).1
    have hcov : withdrawCoversBox w i = true := by simpa using hc
    have hsub : i.attachment.serverFqdn = w.subject := by
      simp only [withdrawCoversBox,decide_eq_true_eq] at hcov
      exact hcov.2.1
    simp only [List.mem_toFinset,List.mem_filter]
    exact ⟨⟨hsub ▸ hm,hcov⟩,hq⟩

theorem Cleared.kept {w : RelayWithdraw} (c : Cleared s s' w) (h : Kept items ws s) :
    Kept items ws s' := by
  refine ⟨c.unique h,fun n i hi => h.named n i ((c.mem h).mp hi).1,?_,fun x => ?_,?_,?_⟩
  · have hc := c.card_held h (fun _ => true)
    simp only [Finset.filter_true,List.filter_true] at hc
    rw [c.boxCount]
    have := h.boxCount
    omega
  · have hc := c.card_held h (fun i => decide (i.attachment.relayId = x))
    simp only [decide_eq_true_eq] at hc
    rw [c.perRelay]
    have := h.perRelay x
    omega
  · rw [c.fences.order]
    exact h.order
  · rw [c.fences.order,c.fences.tombstones]
    exact h.orderOf

end

/-- What reaches a store: a checked box item, or a checked withdrawal for a
registered pod with the time it arrives. -/
inductive Delivery
  | item (i : AttachmentItem)
  | withdrawal (w : RelayWithdraw) (now : Nat)

def deliver [Sha256] (s : Store) : Delivery → Store
  | .item i => (s.insertBox i).1
  | .withdrawal w now => s.acceptWithdraw w now true

/-- What a delivery does to the slot of a name and a relay. -/
def opAt (name relay : Text) : Delivery → Option (SlotOp AttachmentItem)
  | .item i =>
    if i.attachment.serverFqdn = name ∧ i.attachment.relayId = relay then some (.put i) else none
  | .withdrawal w _ =>
    if w.subjectKind = .box ∧ w.subject = name ∧ w.relayId = relay then
      some (.raise w.withdrawnIssuedAt)
    else none

theorem labelChars_no_bar {s : Text} (h : s.all (fun c => lowerAlnum c || c == '-') = true) :
    '|' ∉ s := by
  intro hm
  have hc := List.all_eq_true.mp h _ hm
  revert hc
  decide

theorem hostLabels_no_bar {s : Text} {n : Nat} (h : hostLabels s n = true) : '|' ∉ s := by
  intro hm
  obtain ⟨piece,hp,hb⟩ := exists_mem_splitOn hm (by decide : '|' ≠ '.')
  simp only [hostLabels,Bool.and_eq_true,List.all_eq_true] at h
  have hl := h.2 piece hp
  simp only [labelOk,Bool.and_eq_true] at hl
  exact labelChars_no_bar hl.2 hb

theorem isRelayId_no_bar {s : Text} (h : isRelayId s = true) : '|' ∉ s := by
  simp only [isRelayId,Bool.and_eq_true] at h
  exact labelChars_no_bar h.2

theorem attachmentShape_plain {a : BoxAttachment} (h : attachmentShape a = true) :
    PlainPlace a.serverFqdn a.relayId := by
  simp only [attachmentShape,Bool.and_eq_true] at h
  exact ⟨hostLabels_no_bar h.1.1.1.1.1.1,isRelayId_no_bar h.1.1.1.2⟩

theorem withdrawShape_plain {w : RelayWithdraw} (h : withdrawShape w = true) :
    PlainPlace w.subject w.relayId := by
  simp only [withdrawShape,Bool.and_eq_true] at h
  exact ⟨hostLabels_no_bar h.1.1,isRelayId_no_bar h.1.2⟩

/-- Checked items and withdrawals, fewer than every cap of a store. -/
structure Fits (items : Finset AttachmentItem) (ws : Finset RelayWithdraw) (caps : Caps) : Prop where
  shape : ∀ i ∈ items, attachmentShape i.attachment = true
  wshape : ∀ w ∈ ws, withdrawShape w = true
  boxItems : items.card < caps.boxItems
  perRelay : items.card < caps.perRelay
  tombstones : ws.card < tombstonesPerRelayMax

/-- A delivery of one of these. -/
def Delivery.From (items : Finset AttachmentItem) (ws : Finset RelayWithdraw) : Delivery → Prop
  | .item i => i ∈ items
  | .withdrawal w _ => w ∈ ws

/-- The step a slot makes on a delivery; on one for another place, none. -/
def slotStep (slot : FencedSlot AttachmentItem) : Option (SlotOp AttachmentItem) →
    FencedSlot AttachmentItem
  | some op => slot.step newer stampOf op
  | none => slot

theorem put_fence (slot : FencedSlot AttachmentItem) (i : AttachmentItem) :
    (slot.step newer stampOf (.put i)).fence = slot.fence := by
  simp only [FencedSlot.step]
  split
  · rfl
  · split <;> rfl

section
variable [Sha256] {items : Finset AttachmentItem} {ws : Finset RelayWithdraw} {s : Store}

theorem insertBox_slot (h : Kept items ws s) (hf : Fits items ws s.caps) {i : AttachmentItem}
    (hi : i ∈ items) :
    Kept items ws (s.insertBox i).1 ∧ (s.insertBox i).1.caps = s.caps ∧
      ∀ n r, slotOf (s.insertBox i).1 n r = slotStep (slotOf s n r) (opAt n r (.item i)) := by
  have hroom := h.makeRoom hf.boxItems hf.perRelay i.attachment.relayId
  have hput : ∀ {cur}, ((slotOf s i.attachment.serverFqdn i.attachment.relayId).step newer stampOf
      (.put i)).cur = cur →
      (slotOf s i.attachment.serverFqdn i.attachment.relayId).step newer stampOf (.put i) =
        ⟨(slotOf s i.attachment.serverFqdn i.attachment.relayId).fence,cur⟩ := by
    rintro cur rfl
    rw [← put_fence]
  rcases insertBox_cases (h.unique _) hroom with ⟨hs,hcur⟩ | ⟨hp,hcur⟩
  · rw [hs]
    refine ⟨h,rfl,fun n r => ?_⟩
    simp only [opAt]
    split
    · rename_i hat
      obtain ⟨rfl,rfl⟩ := hat
      rw [slotStep,hput hcur]
      rfl
    · rfl
  · refine ⟨hp.kept h hi,hp.fences.caps,fun n r => ?_⟩
    simp only [slotOf,hp.fences.tombstones,hp.itemAt h,opAt]
    by_cases hat : i.attachment.serverFqdn = n ∧ i.attachment.relayId = r
    · obtain ⟨rfl,rfl⟩ := hat
      simp only [and_self,↓reduceIte,slotStep]
      rw [show FencedSlot.mk _ _ = slotOf s i.attachment.serverFqdn i.attachment.relayId from rfl,
        hput hcur]
      rfl
    · rw [if_neg hat,if_neg (fun he => hat ⟨he.1.symm,he.2.symm⟩)]
      rfl

theorem withdrawal_slot (h : Kept items ws s) (hf : Fits items ws s.caps) {w : RelayWithdraw}
    (hw : w ∈ ws) (now : Nat) :
    Kept items ws (s.acceptWithdraw w now true) ∧ (s.acceptWithdraw w now true).caps = s.caps ∧
      ∀ n r, PlainPlace n r → slotOf (s.acceptWithdraw w now true) n r =
        slotStep (slotOf s n r) (opAt n r (.withdrawal w now)) := by
  have hraise := keepTombstone_raised now (h.order_lt hf.tombstones w.relayId)
  have hclear := withdraw_cleared (s.keepTombstone w now) w
  simp only [acceptWithdraw,↓reduceIte]
  generalize s.keepTombstone w now = s1 at hraise hclear
  generalize (s1.withdraw w).1 = s2 at hclear
  have h1 := hraise.kept h hw
  refine ⟨hclear.kept h1,hclear.fences.caps.trans hraise.caps,fun n r hplain => ?_⟩
  -- what stands in this place is of this place, so the cover test is about the times only
  have hcover : ∀ i, itemAt s n r = some i → (withdrawCoversBox w i = true ↔
      (w.subjectKind = .box ∧ w.subject = n ∧ w.relayId = r) ∧
        stampOf i ≤ w.withdrawnIssuedAt) := by
    intro i hi
    obtain ⟨_,hn,hr⟩ := h.mem_held hi
    simp only [withdrawCoversBox,decide_eq_true_eq,hn,hr,stampOf]
    constructor
    · rintro ⟨hk,hs,hre,hle⟩
      exact ⟨⟨hk,hs.symm,hre.symm⟩,hle⟩
    · rintro ⟨⟨hk,hs,hre⟩,hle⟩
      exact ⟨hk,hs.symm,hre.symm,hle⟩
  simp only [slotOf,hclear.fences.tombstones,hclear.itemAt h1,hraise.itemAt,hraise.fence,opAt]
  by_cases hat : w.subjectKind = .box ∧ w.subject = n ∧ w.relayId = r
  · rw [if_pos hat]
    have hkey : tombKey .box n r = keyOf w := by rw [keyOf,hat.1,hat.2.1,hat.2.2]
    simp only [hkey,↓reduceIte,slotStep,FencedSlot.step,FencedSlot.mk.injEq,true_and]
    cases hi : itemAt s n r with
    | none => rfl
    | some i =>
      have hiff := hcover i hi
      simp only [hat,and_self,true_and] at hiff
      have hsame : withdrawCoversBox w i = decide (stampOf i ≤ w.withdrawnIssuedAt) := by
        rw [Bool.eq_iff_iff,hiff,decide_eq_true_iff]
      simp only [Option.filter,hsame]
  · rw [if_neg hat]
    have hkey : tombKey .box n r ≠ keyOf w := by
      intro he
      obtain ⟨hk,hn,hr⟩ := tombKey_injective hplain (withdrawShape_plain (hf.wshape w hw)) he
      exact hat ⟨hk.symm,hn.symm,hr.symm⟩
    simp only [if_neg hkey,slotStep,FencedSlot.mk.injEq,true_and]
    cases hi : itemAt s n r with
    | none => rfl
    | some i =>
      refine Option.filter_eq_some_iff.mpr ⟨rfl,?_⟩
      have hno : withdrawCoversBox w i = false := by
        rw [← Bool.not_eq_true]
        exact fun hc => hat ((hcover i hi).mp hc).1
      simp [hno]

theorem deliver_slot (h : Kept items ws s) (hf : Fits items ws s.caps) {d : Delivery}
    (hd : d.From items ws) :
    Kept items ws (deliver s d) ∧ (deliver s d).caps = s.caps ∧
      ∀ n r, PlainPlace n r → slotOf (deliver s d) n r = slotStep (slotOf s n r) (opAt n r d) := by
  cases d with
  | item i =>
    obtain ⟨hk,hc,hs⟩ := insertBox_slot h hf hd
    exact ⟨hk,hc,fun n r _ => hs n r⟩
  | withdrawal w now => exact withdrawal_slot h hf hd now

theorem run_slots (h : Kept items ws s) (hf : Fits items ws s.caps) {l : List Delivery}
    (hl : ∀ d ∈ l, d.From items ws) :
    Kept items ws (run deliver s l) ∧ ∀ n r, PlainPlace n r → slotOf (run deliver s l) n r =
      run (FencedSlot.step newer stampOf) (slotOf s n r) (l.filterMap (opAt n r)) := by
  induction l generalizing s with
  | nil => exact ⟨h,fun _ _ _ => rfl⟩
  | cons d l ih =>
    obtain ⟨hk,hc,hs⟩ := deliver_slot h hf (hl d List.mem_cons_self)
    obtain ⟨hk',hs'⟩ := ih hk (hc ▸ hf) (fun x hx => hl x (List.mem_cons_of_mem _ hx))
    refine ⟨hk',fun n r hp => ?_⟩
    rw [run_cons,hs' n r hp,hs n r hp]
    cases ho : opAt n r d with
    | none => rw [List.filterMap_cons_none ho]; rfl
    | some op => rw [List.filterMap_cons_some ho]; rfl

end

end Flagship.Mesh.Proofs

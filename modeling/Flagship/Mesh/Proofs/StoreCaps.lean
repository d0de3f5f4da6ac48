import Mathlib.Algebra.Order.BigOperators.Group.List
import Flagship.Mesh.Proofs.Accounting

namespace Flagship.Mesh.Proofs
open Lib Relay Store

/-- Neither the box items nor the phone items change. -/
structure SameItems (s s' : Store) : Prop extends SameBoxes s s' where
  phones : s'.phones = s.phones
  phoneCount : s'.phoneCount = s.phoneCount

/-- The phone items are counted. -/
def PhonesCounted (s : Store) : Prop := s.phoneCount = s.phones.total List.length

/-- What is stored for a bare name. -/
def phonesAt (s : Store) (host : Text) : List PhoneItem := (s.phones.get? host).getD []

section
variable (o : MapOrder) (s : Store)

theorem keepPhones_same (host : Text) (keep : PhoneItem → Bool) :
    SameBoxes s (s.keepPhones host keep).1 := by
  unfold keepPhones
  cases s.phones.get? host <;> exact ⟨rfl,rfl,rfl,rfl,rfl,rfl,rfl,rfl⟩

theorem keepPhones_counted (host : Text) (keep : PhoneItem → Bool) (h : PhonesCounted s) :
    PhonesCounted (s.keepPhones host keep).1 := by
  unfold keepPhones
  cases hg : s.phones.get? host with
  | none => exact h
  | some list =>
    have hle : (list.filter keep).length ≤ list.length := List.length_filter_le _ _
    simp only [PhonesCounted] at h ⊢
    rw [h]
    split
    · rename_i he
      have hnil : list.filter keep = [] := List.isEmpty_iff.mp he
      have herase := OrdMap.total_erase List.length s.phones host
      rw [hg] at herase
      simp only [hnil,Option.map_some,Option.getD_some,List.length_nil] at herase ⊢
      omega
    · have hset := OrdMap.total_set List.length s.phones host (list.filter keep)
      rw [hg] at hset
      simp only [Option.map_some,Option.getD_some] at hset
      omega

theorem phonesAt_keepPhones (host : Text) (keep : PhoneItem → Bool) (h : Text) :
    phonesAt (s.keepPhones host keep).1 h =
      if h = host then (phonesAt s host).filter keep else phonesAt s h := by
  unfold keepPhones
  cases hg : s.phones.get? host with
  | none =>
    simp only [phonesAt]
    by_cases hh : h = host
    · rw [if_pos hh,hh,hg]
      rfl
    · rw [if_neg hh]
  | some list =>
    simp only [phonesAt,hg,Option.getD_some]
    split
    · rename_i he
      rw [OrdMap.get?_erase]
      by_cases hh : h = host
      · rw [if_pos hh,if_pos hh,List.isEmpty_iff.mp he]
        rfl
      · rw [if_neg hh,if_neg hh]
    · rw [OrdMap.get?_set]
      by_cases hh : h = host
      · rw [if_pos hh,if_pos hh]
        rfl
      · rw [if_neg hh,if_neg hh]

theorem keepTombstone_same (w : RelayWithdraw) (now : Nat) : SameItems s (s.keepTombstone w now) := by
  simp only [keepTombstone]
  split
  · split <;> exact ⟨⟨rfl,rfl,rfl,rfl,rfl,rfl,rfl,rfl⟩,rfl,rfl⟩
  · exact ⟨⟨rfl,rfl,rfl,rfl,rfl,rfl,rfl,rfl⟩,rfl,rfl⟩

theorem makePhoneRoomIn_same (holder : Text) : SameBoxes s (s.makePhoneRoomIn o holder) := by
  unfold makePhoneRoomIn evictPhone
  split
  · exact ⟨rfl,rfl,rfl,rfl,rfl,rfl,rfl,rfl⟩
  · split
    · exact ⟨rfl,rfl,rfl,rfl,rfl,rfl,rfl,rfl⟩
    · exact keepPhones_same s _ _

theorem insertPhoneIn_same (item : PhoneItem) : SameBoxes s (s.insertPhoneIn o item).1 := by
  have hroom := makePhoneRoomIn_same o (s.rememberGenerationIn o item) item.grant.holderRelayId
  simp only [insertPhoneIn]
  split
  · exact ⟨rfl,rfl,rfl,rfl,rfl,rfl,rfl,rfl⟩
  · split
    · split <;> exact ⟨rfl,rfl,rfl,rfl,rfl,rfl,rfl,rfl⟩
    · exact ⟨hroom.selfId,hroom.apex,hroom.caps,hroom.boxes,hroom.byAccount,hroom.byHash,
        hroom.perRelay,hroom.boxCount⟩

end

section
variable [Sha256] {s s' : Store}

/-- What a store that takes nothing in does to its items: nothing, or some are
removed. -/
inductive Trims : Store → Store → Prop
  | frame {s s' : Store} (same : SameItems s s') : Trims s s'
  | remove (s : Store) (name : Text) (pred : AttachmentItem → Bool) :
    Trims s (s.removeBoxWhere name pred).1
  | keepPhones (s : Store) (host : Text) (keep : PhoneItem → Bool) :
    Trims s (s.keepPhones host keep).1

abbrev Trimmed : Store → Store → Prop := Relation.ReflTransGen Trims

theorem Trims.counted (t : Trims s s') (h : Counted s) : Counted s' := by
  cases t with
  | frame same => exact same.toSameBoxes.counted h
  | remove name pred => exact h.remove name pred
  | keepPhones host keep => exact (keepPhones_same s host keep).counted h

theorem removeBoxWhere_phones (s : Store) (name : Text) (pred : AttachmentItem → Bool) :
    (s.removeBoxWhere name pred).1.phones = s.phones ∧
    (s.removeBoxWhere name pred).1.phoneCount = s.phoneCount := by
  unfold removeBoxWhere
  cases s.boxes.get? name with
  | none => exact ⟨rfl,rfl⟩
  | some list =>
    simp only
    split <;> exact ⟨rfl,rfl⟩

theorem Trims.phonesCounted (t : Trims s s') (h : PhonesCounted s) : PhonesCounted s' := by
  cases t with
  | frame same =>
    unfold PhonesCounted
    rw [same.phones,same.phoneCount]
    exact h
  | remove name pred =>
    obtain ⟨hp,hc⟩ := removeBoxWhere_phones s name pred
    unfold PhonesCounted
    rw [hp,hc]
    exact h
  | keepPhones host keep => exact keepPhones_counted s host keep h

theorem Trims.total_le (t : Trims s s') (p : AttachmentItem → Bool) :
    boxTotal s' p ≤ boxTotal s p := by
  cases t with
  | frame same => rw [same.boxTotal]
  | remove name pred =>
    have := removeBoxWhere_total s name pred p
    omega
  | keepPhones host keep => rw [(keepPhones_same s host keep).boxTotal]

theorem Trims.config (t : Trims s s') : s'.selfId = s.selfId ∧ s'.apex = s.apex ∧ s'.caps = s.caps := by
  cases t with
  | frame same => exact ⟨same.selfId,same.apex,same.caps⟩
  | remove name pred => exact removeBoxWhere_config s name pred
  | keepPhones host keep =>
    have same := keepPhones_same s host keep
    exact ⟨same.selfId,same.apex,same.caps⟩

theorem Trims.sublist (t : Trims s s') (n : Text) : (listAt s' n).Sublist (listAt s n) := by
  cases t with
  | frame same => rw [same.listAt]
  | remove name pred =>
    rw [(removeBoxWhere_effect s name pred).2.1]
    split
    · rename_i hn
      rw [hn]
      exact List.filter_sublist
    · exact List.Sublist.refl _
  | keepPhones host keep => rw [(keepPhones_same s host keep).listAt]

theorem Trimmed.phonesCounted (t : Trimmed s s') (h : PhonesCounted s) : PhonesCounted s' := by
  induction t with
  | refl => exact h
  | tail _ t ih => exact t.phonesCounted ih

theorem Trimmed.counted (t : Trimmed s s') (h : Counted s) : Counted s' := by
  induction t with
  | refl => exact h
  | tail _ t ih => exact t.counted ih

theorem Trimmed.total_le (t : Trimmed s s') (p : AttachmentItem → Bool) :
    boxTotal s' p ≤ boxTotal s p := by
  induction t with
  | refl => exact Nat.le_refl _
  | tail _ t ih => exact (t.total_le p).trans ih

theorem Trimmed.config (t : Trimmed s s') :
    s'.selfId = s.selfId ∧ s'.apex = s.apex ∧ s'.caps = s.caps := by
  induction t with
  | refl => exact ⟨rfl,rfl,rfl⟩
  | tail _ t ih =>
    obtain ⟨h1,h2,h3⟩ := t.config
    exact ⟨h1.trans ih.1,h2.trans ih.2.1,h3.trans ih.2.2⟩

theorem Trimmed.sublist (t : Trimmed s s') (n : Text) : (listAt s' n).Sublist (listAt s n) := by
  induction t with
  | refl => exact List.Sublist.refl _
  | tail _ t ih => exact (t.sublist n).trans ih

/-- A loop of such steps. -/
theorem trimmed_foldl {α : Type} {f : Store → α → Store} (hf : ∀ s x, Trimmed s (f s x))
    (xs : List α) (s : Store) : Trimmed s (xs.foldl f s) := by
  induction xs generalizing s with
  | nil => exact .refl
  | cons x xs ih => exact (hf s x).trans (ih (f s x))

theorem retainBoxes_trims (s : Store) (names : Option (List Text)) (keep : AttachmentItem → Bool) :
    Trimmed s (s.retainBoxes names keep) :=
  trimmed_foldl (fun s n => .single (.remove s n _)) _ s

theorem withdraw_trims (s : Store) (w : RelayWithdraw) : Trimmed s (s.withdraw w).1 := by
  unfold withdraw
  cases w.subjectKind with
  | box => exact .single (.remove s w.subject _)
  | phone => exact .single (.keepPhones s w.subject _)

theorem acceptWithdraw_trims (s : Store) (w : RelayWithdraw) (now : Nat) (registered : Bool) :
    Trimmed s (s.acceptWithdraw w now registered) := by
  unfold acceptWithdraw
  cases registered with
  | false => exact withdraw_trims s w
  | true =>
    exact .head (.frame (keepTombstone_same s w now)) (withdraw_trims _ w)

/-- No operation but an insert puts an item in. -/
theorem storeStep_trims (s : Store) (o : MapOrder) (op : StoreOp)
    (hbox : ∀ item, op ≠ .insertBox item) (hphone : ∀ item, op ≠ .insertPhone item) :
    Trimmed s (storeStep s (o,op)) := by
  cases op with
  | insertBox item => exact absurd rfl (hbox item)
  | insertPhone item => exact absurd rfl (hphone item)
  | removeBox name relay => exact .single (.remove s name _)
  | removePhone host holder => exact .single (.keepPhones s host _)
  | withdraw w => exact withdraw_trims s w
  | gossipWithdraw w now verified registered =>
    simp only [storeStep,gossipWithdraw]
    split
    · exact acceptWithdraw_trims s w now registered
    · exact .refl
  | removeRelay relay =>
    refine (retainBoxes_trims s none _).trans
      ((trimmed_foldl (fun s h => .single (.keepPhones s h _)) _ _).trans
        (.single (.frame ⟨⟨rfl,rfl,rfl,rfl,rfl,rfl,rfl,rfl⟩,rfl,rfl⟩)))
  | retainBoxes names keep => exact retainBoxes_trims s names keep
  | retainPhones keep => exact trimmed_foldl (fun s h => .single (.keepPhones s h _)) _ s
  | sweep now =>
    refine (retainBoxes_trims s none _).trans
      ((trimmed_foldl (fun s h => .single (.keepPhones s h _)) _ _).trans
        (.single (.frame ⟨⟨rfl,rfl,rfl,rfl,rfl,rfl,rfl,rfl⟩,rfl,rfl⟩)))

end

/-- May this item have to go for an item of another relay (or of `only`)? -/
def candidate (selfId : Text) (only : Option Text) (i : AttachmentItem) : Bool :=
  decide (i.attachment.relayId ≠ selfId) && only.all (fun o => decide (o = i.attachment.relayId))

theorem mem_victims {s : Store} {only : Option Text} {name : Text} {i : AttachmentItem}
    (h : (name,i) ∈ s.victims only) :
    i ∈ listAt s name ∧ candidate s.selfId only i = true := by
  obtain ⟨⟨n,list⟩,he,hm⟩ := List.mem_flatMap.mp h
  obtain ⟨j,hj,hp⟩ := List.mem_map.mp hm
  simp only [Prod.mk.injEq] at hp
  obtain ⟨rfl,rfl⟩ := hp
  obtain ⟨hj,hc⟩ := List.mem_filter.mp hj
  refine ⟨?_,hc⟩
  rw [listAt,s.boxes.mem_entries.mp he]
  exact hj

theorem length_victims (s : Store) (only : Option Text) :
    (s.victims only).length = boxTotal s (candidate s.selfId only) := by
  simp only [victims,boxTotal,OrdMap.total,List.length_flatMap,List.length_map,
    List.countP_eq_length_filter]
  rfl

theorem boxTotal_congr {s : Store} {p q : AttachmentItem → Bool} (h : ∀ i, p i = q i) :
    boxTotal s p = boxTotal s q := by rw [funext h]

theorem boxTotal_mono {s : Store} {p q : AttachmentItem → Bool} (h : ∀ i, p i = true → q i = true) :
    boxTotal s p ≤ boxTotal s q := by
  unfold boxTotal OrdMap.total
  apply List.sum_le_sum
  intro e _
  exact List.countP_mono_left fun i _ hi => h i hi

section
variable [Sha256] {s : Store} (o : MapOrder)

/-- An eviction removes nothing, where there is nobody to remove, or the items
a victim's relay has for its name. -/
theorem evictBoxIn_cases (s : Store) (only : Option Text) :
    (s.evictBoxIn o only = s ∧ boxTotal s (candidate s.selfId only) = 0) ∨
    ∃ name i, i ∈ listAt s name ∧ candidate s.selfId only i = true ∧
      s.evictBoxIn o only = (s.removeBoxWhere name (sameRelay i.attachment.relayId)).1 := by
  unfold evictBoxIn
  have hperm := o.boxes.perm (s.victims only)
  cases hmin : minByKey (fun e => e.2.attachment.issuedAt) (o.boxes.order (s.victims only)) with
  | none =>
    rw [minByKey_eq_none] at hmin
    rw [hmin] at hperm
    refine Or.inl ⟨rfl,?_⟩
    rw [← length_victims,← hperm.length_eq]
    rfl
  | some e =>
    obtain ⟨name,i⟩ := e
    obtain ⟨hi,hc⟩ := mem_victims (hperm.mem_iff.mp (minByKey_mem hmin))
    exact Or.inr ⟨name,i,hi,hc,rfl⟩

theorem evictBoxIn_trims (s : Store) (only : Option Text) : Trimmed s (s.evictBoxIn o only) := by
  rcases evictBoxIn_cases o s only with ⟨he,_⟩ | ⟨name,i,_,_,he⟩
  · rw [he]
  · rw [he]
    exact .single (.remove s name _)

/-- An eviction makes room for one. -/
theorem evictBoxIn_total (s : Store) (only : Option Text) :
    boxTotal (s.evictBoxIn o only) (candidate s.selfId only) + 1 ≤
      max (boxTotal s (candidate s.selfId only)) 1 := by
  rcases evictBoxIn_cases o s only with ⟨he,hzero⟩ | ⟨name,i,hi,hc,he⟩
  · rw [he,hzero]
    exact Nat.le_refl _
  · rw [he]
    have htotal := removeBoxWhere_total s name (sameRelay i.attachment.relayId)
      (candidate s.selfId only)
    have hpos : 0 < ((listAt s name).filter (sameRelay i.attachment.relayId)).countP
        (candidate s.selfId only) := by
      rw [List.countP_pos_iff]
      exact ⟨i,List.mem_filter.mpr ⟨hi,by simp [sameRelay]⟩,hc⟩
    omega

/-- No eviction takes an item of this relay. -/
theorem evictBoxIn_own {only : Option Text} {n : Text} {i : AttachmentItem}
    (hi : i ∈ listAt s n) (hown : i.attachment.relayId = s.selfId) :
    i ∈ listAt (s.evictBoxIn o only) n := by
  rcases evictBoxIn_cases o s only with ⟨he,_⟩ | ⟨name,v,_,hc,he⟩
  · rwa [he]
  · rw [he,(removeBoxWhere_effect s name _).2.1]
    split
    · rename_i hn
      rw [hn] at hi
      apply List.mem_filter.mpr
      refine ⟨hi,?_⟩
      simp only [candidate,Bool.and_eq_true,decide_eq_true_eq] at hc
      simp only [sameRelay,hown,Bool.not_eq_true',decide_eq_false_iff_not]
      exact fun heq => hc.1 heq.symm
    · exact hi

/-- Room is made by at most two evictions. -/
theorem makeRoomIn_of {R : Store → Store → Prop} (hrefl : ∀ s, R s s)
    (htrans : ∀ {s s' s''}, R s s' → R s' s'' → R s s'')
    (hevict : ∀ s only, R s (s.evictBoxIn o only)) (s : Store) (relay : Text) :
    R s (s.makeRoomIn o relay) := by
  unfold makeRoomIn
  split
  · exact hrefl s
  · simp only
    split
    · split
      · exact htrans (hevict s _) (hevict _ _)
      · exact hevict s _
    · split
      · exact hevict s _
      · exact hrefl s

theorem makeRoomIn_trims (s : Store) (relay : Text) : Trimmed s (s.makeRoomIn o relay) :=
  makeRoomIn_of o (fun _ => .refl) (fun h h' => h.trans h') (evictBoxIn_trims o) s relay

theorem makeRoomIn_own (relay : Text) {n : Text} {i : AttachmentItem} (hi : i ∈ listAt s n)
    (hown : i.attachment.relayId = s.selfId) : i ∈ listAt (s.makeRoomIn o relay) n := by
  have hkeep := makeRoomIn_of (R := fun s s' => i.attachment.relayId = s.selfId → i ∈ listAt s n →
    i.attachment.relayId = s'.selfId ∧ i ∈ listAt s' n) o (fun _ h hi => ⟨h,hi⟩)
    (fun h h' hown hi => h' (h hown hi).1 (h hown hi).2)
    (fun s only hown hi => ⟨by rw [(evictBoxIn_trims o s only).config.1,hown],
      evictBoxIn_own o hi hown⟩) s relay
  exact (hkeep hown hi).2

/-- The items of the other relays are within the caps, a cap of none counting
as one. -/
structure Capped (s : Store) : Prop where
  others : boxTotal s (candidate s.selfId none) ≤ max s.caps.boxItems 1
  perRelay : ∀ r, r ≠ s.selfId → boxTotal s (sameRelay r) ≤ max s.caps.perRelay 1

omit [Sha256] in
theorem SameBoxes.capped {s' : Store} (same : SameBoxes s s') (h : Capped s) : Capped s' := by
  refine ⟨?_,fun r hr => ?_⟩
  · rw [same.selfId,same.caps,same.boxTotal]
    exact h.others
  · rw [same.selfId] at hr
    rw [same.caps,same.boxTotal]
    exact h.perRelay r hr

theorem Trimmed.capped {s' : Store} (t : Trimmed s s') (h : Capped s) : Capped s' := by
  obtain ⟨hself,_,hcaps⟩ := t.config
  refine ⟨?_,fun r hr => ?_⟩
  · rw [hself,hcaps]
    exact (t.total_le _).trans h.others
  · rw [hself] at hr
    rw [hcaps]
    exact (t.total_le _).trans (h.perRelay r hr)

/-- Once there is room, one more item of the relay is within the caps. -/
theorem makeRoomIn_room (hc : Counted s) (h : Capped s) {relay : Text} (hr : relay ≠ s.selfId) :
    boxTotal (s.makeRoomIn o relay) (candidate s.selfId none) + 1 ≤ max s.caps.boxItems 1 ∧
    boxTotal (s.makeRoomIn o relay) (sameRelay relay) + 1 ≤ max s.caps.perRelay 1 := by
  have hsame : ∀ i, candidate s.selfId (some relay) i = sameRelay relay i := by
    intro i
    simp only [candidate,sameRelay,Option.all_some]
    by_cases he : i.attachment.relayId = relay
    · simp [he,hr]
    · have he' : ¬ relay = i.attachment.relayId := fun h => he h.symm
      simp [he,he']
  have hper := h.perRelay relay hr
  have hothers := h.others
  unfold makeRoomIn
  rw [if_neg hr,hc.perRelay,nonzero_getD]
  -- the store once the relay is below its own cap
  have hfirst : ∃ s₁, Trimmed s s₁ ∧ boxTotal s₁ (sameRelay relay) + 1 ≤ max s.caps.perRelay 1 ∧
      s₁ = if s.caps.perRelay ≤ boxTotal s (sameRelay relay) then s.evictBoxIn o (some relay)
        else s := by
    refine ⟨_,?_,?_,rfl⟩
    · split
      · exact evictBoxIn_trims o s _
      · exact .refl
    · split
      · have hevict := evictBoxIn_total o s (some relay)
        rw [boxTotal_congr hsame,boxTotal_congr hsame] at hevict
        omega
      · omega
  obtain ⟨s₁,ht,hroom,hs₁⟩ := hfirst
  simp only [← hs₁]
  obtain ⟨hself,_,hcaps⟩ := ht.config
  have hle := ht.total_le (candidate s.selfId none)
  split
  · have hevict := evictBoxIn_total o s₁ none
    rw [hself] at hevict
    have hmono := (evictBoxIn_trims o s₁ none).total_le (sameRelay relay)
    omega
  · rename_i hcap
    have hall : boxTotal s₁ (candidate s.selfId none) ≤ boxTotal s₁ (fun _ => true) :=
      boxTotal_mono fun _ _ => rfl
    rw [hcaps,(ht.counted hc).boxCount] at hcap
    omega

end
end Flagship.Mesh.Proofs

import Flagship.Mesh.Proofs.StoreCaps

namespace Flagship.Mesh.Proofs
open Lib Relay Store

section
variable [Sha256] {names : Text → Prop} {s : Store}

/-- The names have distinct hashes. -/
def DistinctHashes (names : Text → Prop) : Prop :=
  ∀ n n' h, names n → names n' → nameHash n = some h → nameHash n' = some h → n = n'

/-- The stored names are among these, and the hash index leads to each of them
and to no other. -/
structure HashIndexed (names : Text → Prop) (s : Store) : Prop where
  stored : ∀ n, listAt s n ≠ [] → names n
  byHash : ∀ h n, s.byHash.get? h = some n ↔ listAt s n ≠ [] ∧ nameHash n = some h

theorem HashIndexed.of_same {s' : Store} (h : HashIndexed names s) (same : SameBoxes s s') :
    HashIndexed names s' := by
  refine ⟨?_,?_⟩
  · simp only [same.listAt]
    exact h.stored
  · simp only [same.listAt,same.byHash]
    exact h.byHash

theorem HashIndexed.remove (hd : DistinctHashes names) (h : HashIndexed names s) (hc : Counted s)
    (name : Text) (pred : AttachmentItem → Bool) :
    HashIndexed names (s.removeBoxWhere name pred).1 := by
  have hsub := (Trims.remove s name pred).sublist
  have hlist := (removeBoxWhere_effect s name pred).2.1
  refine ⟨fun n hn => h.stored n fun hnil => hn ?_,fun x n => ?_⟩
  · have := hsub n
    rw [hnil] at this
    exact List.sublist_nil.mp this
  · rw [hlist]
    rcases removeBoxWhere_indexes hc name pred with ⟨hne,hnil,_,hhash⟩ | ⟨hkept,_,hhash⟩
    · rw [hhash]
      simp only [dropName]
      cases hx : nameHash name with
      | none =>
        simp only
        rw [h.byHash]
        by_cases hn : n = name
        · subst hn
          simp [hx]
        · rw [if_neg hn]
      | some y =>
        simp only
        rw [OrdMap.get?_erase]
        by_cases hn : n = name
        · subst hn
          rw [if_pos rfl,hnil,hx]
          by_cases hxy : x = y
          · simp [hxy]
          · rw [if_neg hxy,h.byHash,hx]
            simp [Ne.symm hxy]
        · rw [if_neg hn]
          by_cases hxy : x = y
          · subst hxy
            simp only [↓reduceIte,reduceCtorEq,false_iff,not_and]
            intro hp hn'
            exact hn (hd n name x (h.stored n hp) (h.stored name hne) hn' hx)
          · rw [if_neg hxy,h.byHash]
    · rw [hhash,h.byHash]
      by_cases hn : n = name
      · subst hn
        rw [if_pos rfl]
        constructor
        · exact fun hp => ⟨hkept hp.1,hp.2⟩
        · rintro ⟨hp,ha⟩
          refine ⟨fun hnil => ?_,ha⟩
          rw [hnil] at hp
          exact hp rfl
      · rw [if_neg hn]

theorem Trimmed.hashIndexed {s' : Store} (t : Trimmed s s') (hd : DistinctHashes names)
    (h : HashIndexed names s) (hc : Counted s) : HashIndexed names s' := by
  induction t with
  | refl => exact h
  | tail ts t ih =>
    have hc' := Trimmed.counted ts hc
    cases t with
    | frame same => exact ih.of_same same.toSameBoxes
    | remove name pred => exact ih.remove hd hc' name pred
    | keepPhones host keep => exact ih.of_same (keepPhones_same _ host keep)

theorem HashIndexed.push (hd : DistinctHashes names) (h : HashIndexed names s) (hc : Counted s)
    {item : AttachmentItem} (hname : names item.attachment.serverFqdn) :
    HashIndexed names (s.pushBox item) := by
  have hstored : ∀ n, listAt (s.pushBox item) n ≠ [] ↔
      n = item.attachment.serverFqdn ∨ listAt s n ≠ [] := by
    intro n
    rw [listAt_pushBox]
    by_cases hn : n = item.attachment.serverFqdn <;> simp [hn]
  have hcontains : s.boxes.contains item.attachment.serverFqdn = true ↔
      listAt s item.attachment.serverFqdn ≠ [] := by
    rw [OrdMap.contains_iff,listAt]
    cases hg : s.boxes.get? item.attachment.serverFqdn with
    | none => simp
    | some list =>
      have := hc.present item.attachment.serverFqdn
      rw [hg] at this
      simpa using this
  refine ⟨fun n hn => ?_,fun x n => ?_⟩
  · rcases (hstored n).mp hn with rfl | hn
    · exact hname
    · exact h.stored n hn
  · rw [hstored]
    simp only [pushBox]
    split
    · rename_i hin
      rw [h.byHash]
      have := hcontains.mp hin
      constructor
      · exact fun hp => ⟨Or.inr hp.1,hp.2⟩
      · rintro ⟨rfl | hp,hx⟩
        · exact ⟨this,hx⟩
        · exact ⟨hp,hx⟩
    · rename_i hin
      rw [hcontains,not_not] at hin
      cases hy : nameHash item.attachment.serverFqdn with
      | none =>
        simp only
        rw [h.byHash]
        constructor
        · exact fun hp => ⟨Or.inr hp.1,hp.2⟩
        · rintro ⟨rfl | hp,hx⟩
          · rw [hy] at hx
            cases hx
          · exact ⟨hp,hx⟩
      | some y =>
        simp only
        rw [OrdMap.get?_set]
        by_cases hxy : x = y
        · subst hxy
          rw [if_pos rfl,Option.some.injEq]
          constructor
          · rintro rfl
            exact ⟨Or.inl rfl,hy⟩
          · rintro ⟨rfl | hp,hx⟩
            · rfl
            · exact hd _ n x hname (h.stored n hp) hy hx
        · rw [if_neg hxy,h.byHash]
          constructor
          · exact fun hp => ⟨Or.inr hp.1,hp.2⟩
          · rintro ⟨rfl | hp,hx⟩
            · rw [hy] at hx
              exact absurd (Option.some.inj hx).symm hxy
            · exact ⟨hp,hx⟩

theorem HashIndexed.replace (h : HashIndexed names s) (item : AttachmentItem) :
    HashIndexed names (replaceBox s item) := by
  have hempty := replaceBox_empty s item
  refine ⟨?_,?_⟩
  · simp only [ne_eq,hempty]
    exact h.stored
  · simp only [ne_eq,hempty]
    exact h.byHash

/-- An insert leaves a store as it is, replaces the relay's item, or makes room
and puts the item in. -/
theorem insertBoxIn_cases (o : MapOrder) (s : Store) (item : AttachmentItem) :
    (s.insertBoxIn o item).1 = s ∨
    (s.withdrawn .box item.attachment.serverFqdn item.attachment.relayId
      item.attachment.issuedAt = false ∧
      ((∃ had, itemAt s item.attachment.serverFqdn item.attachment.relayId = some had ∧
        (s.insertBoxIn o item).1 = replaceBox s item) ∨
      (itemAt s item.attachment.serverFqdn item.attachment.relayId = none ∧
        (s.insertBoxIn o item).1 = (s.makeRoomIn o item.attachment.relayId).pushBox item))) := by
  have hfind : (((s.boxes.get? item.attachment.serverFqdn).getD []).find?
      (fun x => decide (x.attachment.relayId = item.attachment.relayId))) =
      itemAt s item.attachment.serverFqdn item.attachment.relayId := rfl
  simp only [insertBoxIn,hfind]
  split
  · exact Or.inl rfl
  rename_i hw
  rw [Bool.not_eq_true] at hw
  cases hat : itemAt s item.attachment.serverFqdn item.attachment.relayId with
  | none => exact Or.inr ⟨hw,Or.inr ⟨rfl,rfl⟩⟩
  | some had =>
    simp only
    split
    · exact Or.inr ⟨hw,Or.inl ⟨had,rfl,rfl⟩⟩
    · exact Or.inl rfl

theorem itemAt_none_of_trimmed {s' : Store} (t : Trimmed s s') {n r : Text}
    (h : itemAt s n r = none) : itemAt s' n r = none :=
  find?_key_none.mpr fun i hi => find?_key_none.mp h i ((t.sublist n).subset hi)

theorem insertBoxIn_counted (o : MapOrder) (h : Counted s) (item : AttachmentItem) :
    Counted (s.insertBoxIn o item).1 := by
  rcases insertBoxIn_cases o s item with he | ⟨_,⟨had,hat,he⟩ | ⟨hnone,he⟩⟩
  · rwa [he]
  · rw [he]
    exact h.replace hat
  · rw [he]
    have t := makeRoomIn_trims o s item.attachment.relayId
    exact (t.counted h).push (itemAt_none_of_trimmed t hnone)

theorem insertBoxIn_config (o : MapOrder) (s : Store) (item : AttachmentItem) :
    (s.insertBoxIn o item).1.selfId = s.selfId ∧ (s.insertBoxIn o item).1.apex = s.apex ∧
    (s.insertBoxIn o item).1.caps = s.caps := by
  rcases insertBoxIn_cases o s item with he | ⟨_,⟨_,_,he⟩ | ⟨_,he⟩⟩
  · rw [he]
    exact ⟨rfl,rfl,rfl⟩
  · rw [he]
    exact ⟨rfl,rfl,rfl⟩
  · rw [he]
    exact (makeRoomIn_trims o s item.attachment.relayId).config

theorem insertBoxIn_capped (o : MapOrder) (hc : Counted s) (h : Capped s) (item : AttachmentItem) :
    Capped (s.insertBoxIn o item).1 := by
  rcases insertBoxIn_cases o s item with he | ⟨_,⟨had,hat,he⟩ | ⟨_,he⟩⟩
  · rwa [he]
  · rw [he]
    refine ⟨?_,fun r hr => ?_⟩
    · refine le_trans (le_of_eq ?_) h.others
      exact replaceBox_total s item (fun x => decide (x ≠ s.selfId) && (none : Option Text).all
        (fun o => decide (o = x)))
    · refine le_trans (le_of_eq ?_) (h.perRelay r hr)
      exact replaceBox_total s item (fun x => decide (x = r))
  · rw [he]
    have t := makeRoomIn_trims o s item.attachment.relayId
    obtain ⟨hself,_,hcaps⟩ := t.config
    have hself' : ((s.makeRoomIn o item.attachment.relayId).pushBox item).selfId = s.selfId := hself
    have hcaps' : ((s.makeRoomIn o item.attachment.relayId).pushBox item).caps = s.caps := hcaps
    have hothers := (t.total_le (candidate s.selfId none)).trans h.others
    refine ⟨?_,fun r hr => ?_⟩
    · rw [hself',hcaps',pushBox_total]
      by_cases hown : item.attachment.relayId = s.selfId
      · have hno : candidate s.selfId none item = false := by simp [candidate,hown]
        rw [hno]
        exact hothers
      · have := (makeRoomIn_room o hc h hown).1
        split <;> omega
    · rw [hself'] at hr
      rw [hcaps',pushBox_total]
      have hle := (t.total_le (sameRelay r)).trans (h.perRelay r hr)
      by_cases hx : item.attachment.relayId = r
      · subst hx
        have := (makeRoomIn_room o hc h hr).2
        split <;> omega
      · have hno : sameRelay r item = false := by simp [sameRelay,hx]
        rw [hno]
        exact hle

theorem insertBoxIn_hashIndexed (o : MapOrder) (hd : DistinctHashes names) (hc : Counted s)
    (h : HashIndexed names s) {item : AttachmentItem} (hname : names item.attachment.serverFqdn) :
    HashIndexed names (s.insertBoxIn o item).1 := by
  rcases insertBoxIn_cases o s item with he | ⟨_,⟨_,_,he⟩ | ⟨_,he⟩⟩
  · rwa [he]
  · rw [he]
    exact h.replace item
  · rw [he]
    have t := makeRoomIn_trims o s item.attachment.relayId
    exact (t.hashIndexed hd h hc).push hd (t.counted hc) hname

/-- An item of this relay survives every insert of another relay's item. -/
theorem insertBoxIn_own (o : MapOrder) {item i : AttachmentItem} {n : Text}
    (hother : item.attachment.relayId ≠ s.selfId) (hi : i ∈ listAt s n)
    (hown : i.attachment.relayId = s.selfId) : i ∈ listAt (s.insertBoxIn o item).1 n := by
  rcases insertBoxIn_cases o s item with he | ⟨_,⟨_,_,he⟩ | ⟨_,he⟩⟩
  · rwa [he]
  · rw [he,listAt_replaceBox]
    split
    · rename_i hn
      rw [hn] at hi
      apply mem_replaceFirst_of_not hi
      rw [decide_eq_false_iff_not,hown]
      exact hother.symm
    · exact hi
  · rw [he,listAt_pushBox]
    have hkept := makeRoomIn_own o item.attachment.relayId hi hown
    split
    · exact List.mem_append_left _ hkept
    · exact hkept

end
section
variable (o : MapOrder) {s : Store}

theorem makePhoneRoomIn_counted (holder : Text) (h : PhonesCounted s) :
    PhonesCounted (s.makePhoneRoomIn o holder) := by
  unfold makePhoneRoomIn evictPhone
  split
  · exact h
  · split
    · exact h
    · exact keepPhones_counted s _ _ h

theorem insertPhoneIn_counted (item : PhoneItem) (h : PhonesCounted s) :
    PhonesCounted (s.insertPhoneIn o item).1 := by
  have hg : PhonesCounted (s.rememberGenerationIn o item) := h
  have hroom := makePhoneRoomIn_counted o item.grant.holderRelayId hg
  simp only [insertPhoneIn]
  generalize s.rememberGenerationIn o item = s₁ at hg hroom ⊢
  split
  · exact hg
  · split
    · split
      · have hset := OrdMap.total_set List.length s₁.phones item.grant.hostname
          (replaceFirst (fun x => decide (x.grant.holderRelayId = item.grant.holderRelayId)) item
            ((s₁.phones.get? item.grant.hostname).getD []))
        have hlen := congrArg List.length (map_replaceFirst
          (fun x : PhoneItem => x.grant.holderRelayId) (v := item) rfl
          ((s₁.phones.get? item.grant.hostname).getD []))
        rw [List.length_map,List.length_map] at hlen
        simp only [PhonesCounted] at hg ⊢
        rw [hlen] at hset
        rw [hg]
        cases hp : s₁.phones.get? item.grant.hostname with
        | none =>
          simp only [hp,Option.map_none,Option.getD_none,List.length_nil] at hset ⊢
          omega
        | some list =>
          simp only [hp,Option.map_some,Option.getD_some] at hset ⊢
          omega
      · exact hg
    · generalize s₁.makePhoneRoomIn o item.grant.holderRelayId = s₂ at hroom ⊢
      have hset := OrdMap.total_set List.length s₂.phones item.grant.hostname
        ((s₂.phones.get? item.grant.hostname).getD [] ++ [item])
      rw [List.length_append,List.length_singleton] at hset
      simp only [PhonesCounted] at hroom ⊢
      rw [hroom]
      cases hp : s₂.phones.get? item.grant.hostname with
      | none =>
        simp only [hp,Option.map_none,Option.getD_none,List.length_nil] at hset ⊢
        omega
      | some list =>
        simp only [hp,Option.map_some,Option.getD_some] at hset ⊢
        omega

theorem mem_phoneVictims {h : Text} {i : PhoneItem} (hv : (h,i) ∈ s.phoneVictims) :
    i.grant.holderRelayId ≠ s.selfId := by
  obtain ⟨e,_,hm⟩ := List.mem_flatMap.mp hv
  obtain ⟨j,hj,hp⟩ := List.mem_map.mp hm
  simp only [Prod.mk.injEq] at hp
  obtain ⟨_,rfl⟩ := hp
  exact of_decide_eq_true (List.mem_filter.mp hj).2

/-- A phone item of this relay survives the room made for another's. -/
theorem makePhoneRoomIn_own (holder : Text) {h : Text} {i : PhoneItem} (hi : i ∈ phonesAt s h)
    (hown : i.grant.holderRelayId = s.selfId) : i ∈ phonesAt (s.makePhoneRoomIn o holder) h := by
  unfold makePhoneRoomIn
  split
  · exact hi
  · cases hmin : minByKey (fun e => e.2.grant.issuedAt) (o.phones.order s.phoneVictims) with
    | none => exact hi
    | some e =>
      have hv := mem_phoneVictims ((o.phones.perm _).mem_iff.mp (minByKey_mem hmin))
      show i ∈ phonesAt (s.keepPhones e.1 _).1 h
      rw [phonesAt_keepPhones]
      split
      · rename_i hh
        rw [hh] at hi
        apply List.mem_filter.mpr
        refine ⟨hi,?_⟩
        rw [hown]
        exact decide_eq_true hv.symm
      · exact hi

theorem insertPhoneIn_own {item i : PhoneItem} {h : Text} (hother : item.grant.holderRelayId ≠ s.selfId)
    (hi : i ∈ phonesAt s h) (hown : i.grant.holderRelayId = s.selfId) :
    i ∈ phonesAt (s.insertPhoneIn o item).1 h := by
  have hi₁ : i ∈ phonesAt (s.rememberGenerationIn o item) h := hi
  have hown₁ : i.grant.holderRelayId = (s.rememberGenerationIn o item).selfId := hown
  have hroom := makePhoneRoomIn_own o item.grant.holderRelayId hi₁ hown₁
  simp only [insertPhoneIn]
  generalize s.rememberGenerationIn o item = s₁ at hi₁ hroom ⊢
  split
  · exact hi₁
  · split
    · split
      · simp only [phonesAt,OrdMap.get?_set]
        split
        · rename_i hh
          rw [hh] at hi₁
          apply mem_replaceFirst_of_not hi₁
          rw [decide_eq_false_iff_not,hown]
          exact hother.symm
        · exact hi₁
      · exact hi₁
    · generalize s₁.makePhoneRoomIn o item.grant.holderRelayId = s₂ at hroom ⊢
      simp only [phonesAt,OrdMap.get?_set]
      split
      · rename_i hh
        rw [hh] at hroom
        exact List.mem_append_left _ hroom
      · exact hroom

end
theorem countP_all (s : Store) (p : AttachmentItem → Bool) : s.all.1.countP p = boxTotal s p := by
  simp only [Store.all,List.countP_flatMap,boxTotal,OrdMap.total]
  rfl

theorem mem_all {s : Store} {i : AttachmentItem} : i ∈ s.all.1 ↔ ∃ n, i ∈ listAt s n :=
  OrdMap.mem_flatMap_entries

theorem mem_all_phones {s : Store} {i : PhoneItem} : i ∈ s.all.2 ↔ ∃ h, i ∈ phonesAt s h :=
  OrdMap.mem_flatMap_entries

/-- A name is stored when an item carries it. -/
theorem Counted.stored_iff {s : Store} (h : Counted s) (n : Text) :
    listAt s n ≠ [] ↔ ∃ i ∈ s.all.1, i.attachment.serverFqdn = n := by
  constructor
  · intro hne
    obtain ⟨i,hi⟩ := List.exists_mem_of_ne_nil _ hne
    exact ⟨i,mem_all.mpr ⟨n,hi⟩,h.named n i hi⟩
  · rintro ⟨i,hi,rfl⟩
    obtain ⟨n,hi⟩ := mem_all.mp hi
    rw [h.named n i hi]
    exact List.ne_nil_of_mem hi

/-- At most one item for a name and a relay. -/
theorem Counted.nodup_all {s : Store} (h : Counted s) : (s.all.1.map (fun i =>
    (i.attachment.serverFqdn,i.attachment.relayId))).Nodup := by
  have hat : ∀ e ∈ s.boxes.entries, listAt s e.1 = e.2 := by
    intro e he
    rw [listAt,s.boxes.mem_entries.mp he]
    rfl
  simp only [Store.all,List.map_flatMap]
  rw [List.nodup_flatMap]
  constructor
  · intro e he
    have hu := h.unique e.1
    rw [hat e he] at hu
    refine List.Nodup.of_map Prod.snd ?_
    rwa [List.map_map]
  · have hkeys : s.boxes.entries.Pairwise (fun e f => e.1 ≠ f.1) := List.pairwise_map.mp s.boxes.nodup
    refine List.Pairwise.imp_of_mem ?_ hkeys
    intro e f he hf hne p hp hq
    obtain ⟨i,hi,rfl⟩ := List.mem_map.mp hp
    obtain ⟨j,hj,hij⟩ := List.mem_map.mp hq
    rw [← hat e he] at hi
    rw [← hat f hf] at hj
    simp only [Prod.mk.injEq] at hij
    exact hne ((h.named _ i hi).symm.trans (hij.1.symm.trans (h.named _ j hj)))

/-- The counters and the account index describe the items, and the items of the
other relays are within the caps. -/
structure Accounted (selfId apex : Text) (caps : Caps) (s : Store) : Prop where
  one : (s.all.1.map (fun i => (i.attachment.serverFqdn,i.attachment.relayId))).Nodup
  boxCount : s.boxCount = s.all.1.length
  phoneCount : s.phoneCount = s.all.2.length
  perRelay : ∀ r, s.perRelay.get? r = nonzero (s.all.1.countP (sameRelay r))
  byAccount : ∀ a n, n ∈ (s.byAccount.get? a).getD ∅ ↔
    (∃ i ∈ s.all.1, i.attachment.serverFqdn = n) ∧ accountOfPodName n apex = some a
  accounts : ∀ a, s.byAccount.get? a ≠ some ∅
  others : s.all.1.countP (fun i => decide (i.attachment.relayId ≠ selfId)) ≤ max caps.boxItems 1
  relays : ∀ r, r ≠ selfId → s.all.1.countP (sameRelay r) ≤ max caps.perRelay 1

/-- What every step keeps of a store. -/
structure Books (selfId apex : Text) (caps : Caps) (s : Store) : Prop where
  selfId_eq : s.selfId = selfId
  apex_eq : s.apex = apex
  caps_eq : s.caps = caps
  counted : Counted s
  phones : PhonesCounted s
  capped : Capped s

section
variable {selfId apex : Text} {caps : Caps} {s : Store}

theorem Books.accounted (h : Books selfId apex caps s) : Accounted selfId apex caps s := by
  refine ⟨h.counted.nodup_all,?_,?_,fun r => ?_,fun a n => ?_,h.counted.accounts,?_,fun r hr => ?_⟩
  · rw [h.counted.boxCount,← countP_all,List.countP_true]
  · rw [h.phones]
    simp only [Store.all,List.length_flatMap,OrdMap.total]
  · rw [countP_all]
    exact h.counted.perRelay r
  · rw [← h.counted.stored_iff,← h.apex_eq]
    exact h.counted.byAccount a n
  · have hothers := h.capped.others
    rw [h.selfId_eq,h.caps_eq] at hothers
    rw [countP_all]
    refine le_trans (le_of_eq (boxTotal_congr fun i => ?_)) hothers
    simp [candidate]
  · rw [countP_all,← h.caps_eq]
    apply h.capped.perRelay
    rwa [h.selfId_eq]

variable [Sha256]

theorem Trimmed.books {s' : Store} (t : Trimmed s s') (h : Books selfId apex caps s) :
    Books selfId apex caps s' := by
  obtain ⟨hself,hapex,hcaps⟩ := t.config
  exact ⟨hself.trans h.selfId_eq,hapex.trans h.apex_eq,hcaps.trans h.caps_eq,t.counted h.counted,
    t.phonesCounted h.phones,t.capped h.capped⟩

omit [Sha256] in
theorem books_new (selfId apex : Text) (caps : Caps) :
    Books selfId apex caps (Store.new selfId apex caps) := by
  have hempty : ∀ n, listAt (Store.new selfId apex caps) n = [] := fun _ => rfl
  refine ⟨rfl,rfl,rfl,⟨fun _ => ?_,?_,?_,rfl,fun _ => rfl,fun _ _ => ?_,fun _ => ?_⟩,rfl,
    ⟨Nat.zero_le _,fun _ _ => Nat.zero_le _⟩⟩
  · simp [Store.new]
  · simp [hempty]
  · simp [hempty]
  · rw [hempty]
    simp [Store.new]
  · simp [Store.new]

theorem insertBoxIn_phones (o : MapOrder) (s : Store) (item : AttachmentItem) (h : PhonesCounted s) :
    PhonesCounted (s.insertBoxIn o item).1 := by
  rcases insertBoxIn_cases o s item with he | ⟨_,⟨_,_,he⟩ | ⟨_,he⟩⟩
  · rwa [he]
  · rw [he]
    exact h
  · rw [he]
    exact (makeRoomIn_trims o s item.attachment.relayId).phonesCounted h

theorem storeStep_books (h : Books selfId apex caps s) (op : MapOrder × StoreOp) :
    Books selfId apex caps (storeStep s op) := by
  obtain ⟨o,op⟩ := op
  by_cases hbox : ∃ item, op = .insertBox item
  · obtain ⟨item,rfl⟩ := hbox
    obtain ⟨hself,hapex,hcaps⟩ := insertBoxIn_config o s item
    exact ⟨hself.trans h.selfId_eq,hapex.trans h.apex_eq,hcaps.trans h.caps_eq,
      insertBoxIn_counted o h.counted item,insertBoxIn_phones o s item h.phones,
      insertBoxIn_capped o h.counted h.capped item⟩
  · by_cases hphone : ∃ item, op = .insertPhone item
    · obtain ⟨item,rfl⟩ := hphone
      have same := insertPhoneIn_same o s item
      exact ⟨same.selfId.trans h.selfId_eq,same.apex.trans h.apex_eq,same.caps.trans h.caps_eq,
        same.counted h.counted,insertPhoneIn_counted o item h.phones,same.capped h.capped⟩
    · exact (storeStep_trims s o op (fun item he => hbox ⟨item,he⟩)
        (fun item he => hphone ⟨item,he⟩)).books h

theorem storeStep_hashIndexed {names : Text → Prop} (hd : DistinctHashes names) (hc : Counted s)
    (h : HashIndexed names s) (op : MapOrder × StoreOp)
    (hname : ∀ item, op.2 = .insertBox item → names item.attachment.serverFqdn) :
    HashIndexed names (storeStep s op) := by
  obtain ⟨o,op⟩ := op
  by_cases hbox : ∃ item, op = .insertBox item
  · obtain ⟨item,rfl⟩ := hbox
    exact insertBoxIn_hashIndexed o hd hc h (hname item rfl)
  · by_cases hphone : ∃ item, op = .insertPhone item
    · obtain ⟨item,rfl⟩ := hphone
      exact h.of_same (insertPhoneIn_same o s item)
    · exact (storeStep_trims s o op (fun item he => hbox ⟨item,he⟩)
        (fun item he => hphone ⟨item,he⟩)).hashIndexed hd h hc

theorem run_hashIndexed {names : Text → Prop} (hd : DistinctHashes names)
    (hb : Books selfId apex caps s) (h : HashIndexed names s) (ops : List (MapOrder × StoreOp))
    (hnames : ∀ op ∈ ops, ∀ item, op.2 = .insertBox item → names item.attachment.serverFqdn) :
    HashIndexed names (run storeStep s ops) := by
  induction ops generalizing s with
  | nil => exact h
  | cons op ops ih =>
    rw [List.forall_mem_cons] at hnames
    exact ih (storeStep_books hb op) (storeStep_hashIndexed hd hb.counted h op hnames.1) hnames.2

end

theorem lower_of_lowerAlnum {c : Char} (h : lowerAlnum c = true ∨ c = '-') : c.toLower = c := by
  rcases h with h | rfl
  · unfold lowerAlnum Char.isLower Char.isDigit at h
    simp only [Bool.or_eq_true,Bool.and_eq_true,decide_eq_true_eq] at h
    apply toLower_of_not_upper
    rcases h with ⟨h,_⟩ | ⟨_,h⟩
    · have : 97 ≤ c.toNat := h
      omega
    · have : c.toNat ≤ 57 := h
      omega
  · decide

theorem hostLabels_lower {s : Text} {n : Nat} (h : hostLabels s n = true) :
    s.map Char.toLower = s := by
  have hchar : ∀ c ∈ s, c.toLower = c := by
    intro c hc
    by_cases hdot : c = '.'
    · rw [hdot]
      decide
    · obtain ⟨piece,hp,hb⟩ := exists_mem_splitOn hc hdot
      simp only [hostLabels,Bool.and_eq_true,List.all_eq_true] at h
      have hl := h.2 piece hp
      simp only [labelOk,Bool.and_eq_true,List.all_eq_true] at hl
      have hok := hl.2 c hb
      apply lower_of_lowerAlnum
      rcases Bool.or_eq_true_iff.mp hok with hok | hok
      · exact Or.inl hok
      · exact Or.inr (eq_of_beq hok)
  rw [List.map_congr_left hchar,List.map_id']

/-- A name some insert of a run carries. -/
def Named (ops : List (MapOrder × StoreOp)) (n : Text) : Prop :=
  ∃ op ∈ ops, ∃ item, op.2 = .insertBox item ∧ item.attachment.serverFqdn = n

/-- In every run the store holds one box item for a name and a relay, the
counters and indexes describe the items, the other relays stay within the caps,
and no item of this relay makes room for another's. -/
theorem store_accounted [Sha256] (selfId apex : Text) (caps : Caps)
    (ops : List (MapOrder × StoreOp)) :
    Accounted selfId apex caps (run storeStep (Store.new selfId apex caps) ops) ∧
    (∀ o item i, item.attachment.relayId ≠ selfId → i.attachment.relayId = selfId →
      i ∈ (run storeStep (Store.new selfId apex caps) ops).all.1 →
      i ∈ ((run storeStep (Store.new selfId apex caps) ops).insertBoxIn o item).1.all.1) ∧
    (∀ o item i, item.grant.holderRelayId ≠ selfId → i.grant.holderRelayId = selfId →
      i ∈ (run storeStep (Store.new selfId apex caps) ops).all.2 →
      i ∈ ((run storeStep (Store.new selfId apex caps) ops).insertPhoneIn o item).1.all.2) ∧
    ((∀ op ∈ ops, ∀ item, op.2 = .insertBox item → attachmentShape item.attachment = true) →
      (∀ n n', Named ops n → Named ops n' →
        Sha256.sha256Hex ("flagship/relay-name/v1|".toList ++ n) =
          Sha256.sha256Hex ("flagship/relay-name/v1|".toList ++ n') → n = n') →
      ∀ h n, (run storeStep (Store.new selfId apex caps) ops).byHash.get? h = some n ↔
        (∃ i ∈ (run storeStep (Store.new selfId apex caps) ops).all.1,
          i.attachment.serverFqdn = n) ∧ nameHash n = some h) := by
  have hb : Books selfId apex caps (run storeStep (Store.new selfId apex caps) ops) :=
    run_invariant (I := Books selfId apex caps) (fun s op h => storeStep_books h op)
      (books_new selfId apex caps) ops
  refine ⟨hb.accounted,fun o item i hother hown hi => ?_,fun o item i hother hown hi => ?_,
    fun hshape hsha h n => ?_⟩
  · obtain ⟨n,hi⟩ := mem_all.mp hi
    rw [← hb.selfId_eq] at hother hown
    exact mem_all.mpr ⟨n,insertBoxIn_own o hother hi hown⟩
  · obtain ⟨host,hi⟩ := mem_all_phones.mp hi
    rw [← hb.selfId_eq] at hother hown
    exact mem_all_phones.mpr ⟨host,insertPhoneIn_own o hother hi hown⟩
  · have hhash : ∀ n h, Named ops n → nameHash n = some h →
        h = Sha256.sha256Hex ("flagship/relay-name/v1|".toList ++ n) := by
      rintro n h ⟨op,hop,item,heq,rfl⟩ hn
      have hok := hshape op hop item heq
      simp only [attachmentShape,Bool.and_eq_true] at hok
      unfold nameHash at hn
      split at hn
      · cases hn
      · rw [hostLabels_lower hok.1.1.1.1.1.1] at hn
        exact (Option.some.inj hn).symm
    have hd : DistinctHashes (Named ops) := by
      intro n n' h hn hn' hh hh'
      exact hsha n n' hn hn' ((hhash n h hn hh).symm.trans (hhash n' h hn' hh'))
    have hindexed := run_hashIndexed hd (books_new selfId apex caps)
      ⟨fun n hn => absurd rfl hn,fun h n => by simp [Store.new,listAt]⟩ ops
      (fun op hop item heq => ⟨op,hop,item,heq,rfl⟩)
    rw [hindexed.byHash,hb.counted.stored_iff]

/-- A box's item at this relay or another. -/
def boxItemAt (relay : Text) (issuedAt : Nat) : AttachmentItem where
  kind := .box
  attachment := {
    serverFqdn := "box.harry.example.com".toList
    boxPub := List.replicate 64 'a'
    regGen := 1
    relayId := relay
    attachedAt := issuedAt
    issuedAt := issuedAt
    notAfter := issuedAt + 60000 }
  signature := []

/-- The digest of the one name inserted below. -/
local instance digestOfName : Sha256 where
  sha256Hex t :=
    if t = "flagship/relay-name/v1|box.harry.example.com".toList then
      "d029a64711f3bb06b7714648c3d2df2f2c990a1f89db4e3a18bd9bdffb571715".toList
    else []

def twoInserts : List (MapOrder × StoreOp) :=
  [(.insertion,.insertBox (boxItemAt "ams1".toList 100)),
    (.insertion,.insertBox (boxItemAt "iad1".toList 50))]

theorem store_accounted_two_inserts :
    (run storeStep (Store.new "iad1".toList "example.com".toList ⟨1,1,1⟩) twoInserts).byHash.get?
      "d029a64711f3bb06b7714648c3d2df2f2c990a1f89db4e3a18bd9bdffb571715".toList =
        some "box.harry.example.com".toList := by
  have hinserted : ∀ op ∈ twoInserts, ∀ item, op.2 = .insertBox item →
      item = boxItemAt "ams1".toList 100 ∨ item = boxItemAt "iad1".toList 50 := by
    intro op hop item heq
    rcases List.mem_cons.mp hop with rfl | hop
    · exact Or.inl (StoreOp.insertBox.inj heq).symm
    · rw [List.mem_singleton.mp hop] at heq
      exact Or.inr (StoreOp.insertBox.inj heq).symm
  have hshape : ∀ op ∈ twoInserts, ∀ item, op.2 = .insertBox item →
      attachmentShape item.attachment = true := by
    intro op hop item heq
    rcases hinserted op hop item heq with rfl | rfl
    · decide +kernel
    · decide +kernel
  have hname : ∀ n, Named twoInserts n → n = "box.harry.example.com".toList := by
    rintro n ⟨op,hop,item,heq,rfl⟩
    rcases hinserted op hop item heq with rfl | rfl <;> rfl
  apply ((store_accounted "iad1".toList "example.com".toList ⟨1,1,1⟩ twoInserts).2.2.2 hshape
    (fun n n' hn hn' _ => (hname n hn).trans (hname n' hn').symm) _ _).mpr
  exact ⟨⟨boxItemAt "iad1".toList 50,by decide +kernel,rfl⟩,by decide +kernel⟩

end Flagship.Mesh.Proofs

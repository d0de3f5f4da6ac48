import Flagship.Mesh.Proofs.StoreBooks

namespace Flagship.Mesh.Proofs
open Lib Relay Store

/-- The kept keys of a relay, oldest first. -/
def tombsOf (s : Store) (relay : Text) : List Text := (s.tombstonesByRelay.get? relay).getD []

/-- A tombstone key of a relay. -/
def OfRelay (relay key : Text) : Prop := ∃ kind subject, key = tombKey kind subject relay

theorem count_tombKey (kind : SubjectKind) (subject relay : Text) :
    (tombKey kind subject relay).count '|' = 2 + subject.count '|' + relay.count '|' := by
  have hname : kind.name.count '|' = 0 := by
    cases kind <;> decide
  simp only [tombKey,List.count_append,List.count_cons_self,hname]
  omega

/-- A key with plain parts has no others. -/
theorem tombKey_parts {k k' : SubjectKind} {n n' r r' : Text} (h : PlainPlace n r)
    (he : tombKey k n r = tombKey k' n' r') : k = k' ∧ n = n' ∧ r = r' := by
  have hcount := congrArg (List.count '|') he
  rw [count_tombKey,count_tombKey,List.count_eq_zero.mpr h.1,List.count_eq_zero.mpr h.2] at hcount
  have h' : PlainPlace n' r' :=
    ⟨List.count_eq_zero.mp (by omega),List.count_eq_zero.mp (by omega)⟩
  exact tombKey_injective h h' he

/-- The tombstones and the lists they are evicted by describe each other. -/
structure Entombed (s : Store) : Prop where
  plain : ∀ k, s.tombstones.contains k = true → ∃ kind n r, PlainPlace n r ∧ k = tombKey kind n r
  nodup : ∀ r, (tombsOf s r).Nodup
  mem : ∀ r k, k ∈ tombsOf s r ↔ s.tombstones.contains k = true ∧ OfRelay r k
  cap : ∀ r, (tombsOf s r).length ≤ tombstonesPerRelayMax

/-- No stored box item is covered by a kept tombstone. -/
def Uncovered (s : Store) : Prop :=
  ∀ n, ∀ i ∈ listAt s n, s.withdrawn .box n i.attachment.relayId i.attachment.issuedAt = false

theorem Entombed.relay_unique {s : Store} (h : Entombed s) {k r r' : Text}
    (hk : s.tombstones.contains k = true) (hr : OfRelay r k) (hr' : OfRelay r' k) : r = r' := by
  obtain ⟨kind,n,x,hp,rfl⟩ := h.plain k hk
  obtain ⟨_,_,he⟩ := hr
  obtain ⟨_,_,he'⟩ := hr'
  exact (tombKey_parts hp he).2.2.symm.trans (tombKey_parts hp he').2.2

/-- Items may go, the tombstones stay as they are. -/
structure Clears (s s' : Store) : Prop where
  sublist : ∀ n, (listAt s' n).Sublist (listAt s n)
  tombstones : s'.tombstones = s.tombstones
  order : s'.tombstonesByRelay = s.tombstonesByRelay

namespace Clears
variable {s s' s'' : Store}

theorem refl (s : Store) : Clears s s := ⟨fun _ => List.Sublist.refl _,rfl,rfl⟩

theorem trans (h : Clears s s') (h' : Clears s' s'') : Clears s s'' :=
  ⟨fun n => (h'.sublist n).trans (h.sublist n),h'.tombstones.trans h.tombstones,
    h'.order.trans h.order⟩

theorem foldl {α : Type} {f : Store → α → Store} (hf : ∀ s x, Clears s (f s x)) (xs : List α)
    (s : Store) : Clears s (xs.foldl f s) := by
  induction xs generalizing s with
  | nil => exact refl s
  | cons x xs ih => exact (hf s x).trans (ih (f s x))

theorem entombed (c : Clears s s') (h : Entombed s) : Entombed s' := by
  have hof : ∀ r, tombsOf s' r = tombsOf s r := fun r => by simp only [tombsOf,c.order]
  refine ⟨?_,?_,?_,?_⟩
  · rw [c.tombstones]
    exact h.plain
  · simp only [hof]
    exact h.nodup
  · simp only [hof,c.tombstones]
    exact h.mem
  · simp only [hof]
    exact h.cap

theorem uncovered (c : Clears s s') (h : Uncovered s) : Uncovered s' := by
  intro n i hi
  simp only [withdrawn,c.tombstones]
  exact h n i ((c.sublist n).subset hi)

end Clears

section
variable (o : MapOrder) (s : Store)

theorem keepPhones_clears (host : Text) (keep : PhoneItem → Bool) :
    Clears s (s.keepPhones host keep).1 := by
  refine ⟨fun n => ?_,?_,?_⟩
  · rw [(keepPhones_same s host keep).listAt]
  · unfold keepPhones
    cases s.phones.get? host <;> rfl
  · unfold keepPhones
    cases s.phones.get? host <;> rfl

theorem insertPhoneIn_clears (item : PhoneItem) : Clears s (s.insertPhoneIn o item).1 := by
  have hsame := insertPhoneIn_same o s item
  have hroom : Clears (s.rememberGenerationIn o item)
      ((s.rememberGenerationIn o item).makePhoneRoomIn o item.grant.holderRelayId) := by
    unfold makePhoneRoomIn evictPhone
    split
    · exact .refl _
    · split
      · exact .refl _
      · exact keepPhones_clears _ _ _
  refine ⟨fun n => ?_,?_,?_⟩
  · rw [hsame.listAt]
  · simp only [insertPhoneIn]
    split
    · rfl
    · split
      · split <;> rfl
      · exact hroom.tombstones
  · simp only [insertPhoneIn]
    split
    · rfl
    · split
      · split <;> rfl
      · exact hroom.order

theorem retainPhones_clears (keep : PhoneItem → Bool) : Clears s (s.retainPhones keep) :=
  .foldl (fun s h => keepPhones_clears s h keep) _ s

variable [Sha256]

theorem removeBoxWhere_clears (name : Text) (pred : AttachmentItem → Bool) :
    Clears s (s.removeBoxWhere name pred).1 :=
  have hf := (removeBoxWhere_effect s name pred).1
  ⟨(Trims.remove s name pred).sublist,hf.tombstones,hf.order⟩

theorem withdraw_clears (w : RelayWithdraw) : Clears s (s.withdraw w).1 := by
  unfold withdraw
  cases w.subjectKind with
  | box => exact removeBoxWhere_clears s w.subject _
  | phone => exact keepPhones_clears s w.subject _

theorem retainBoxes_clears (names : Option (List Text)) (keep : AttachmentItem → Bool) :
    Clears s (s.retainBoxes names keep) :=
  .foldl (fun s n => removeBoxWhere_clears s n _) _ s

theorem evictBoxIn_clears (only : Option Text) : Clears s (s.evictBoxIn o only) := by
  rcases evictBoxIn_cases o s only with ⟨he,_⟩ | ⟨name,i,_,_,he⟩
  · rw [he]
    exact .refl s
  · rw [he]
    exact removeBoxWhere_clears s name _

theorem makeRoomIn_clears (relay : Text) : Clears s (s.makeRoomIn o relay) :=
  makeRoomIn_of o .refl .trans (fun s only => evictBoxIn_clears o s only) s relay

end

section
variable {s : Store}

/-- A new tombstone takes the places of the oldest that are too many. -/
theorem keepTombstone_new {w : RelayWithdraw} (now : Nat)
    (hnone : s.tombstones.get? (keyOf w) = none) : ∃ excess,
    excess = (tombsOf s w.relayId).length + 1 - tombstonesPerRelayMax ∧
    (∀ k, (s.keepTombstone w now).tombstones.get? k = if k = keyOf w then
      some (w.withdrawnIssuedAt,now) else if k ∈ (tombsOf s w.relayId).take excess then none
        else s.tombstones.get? k) ∧
    ∀ r, tombsOf (s.keepTombstone w now) r = if r = w.relayId then
      (tombsOf s w.relayId).drop excess ++ [keyOf w] else tombsOf s r := by
  have hkey : tombKey w.subjectKind w.subject w.relayId = keyOf w := rfl
  obtain ⟨excess,he⟩ : ∃ n, n = ((s.tombstonesByRelay.get? w.relayId).getD []).length + 1 -
      tombstonesPerRelayMax := ⟨_,rfl⟩
  refine ⟨excess,he,fun k => ?_,fun r => ?_⟩
  · simp only [keepTombstone,hkey,hnone,OrdMap.get?_set,OrdMap.get?_foldl_erase,← he]
    by_cases hk : k = keyOf w
    · rw [if_pos hk,if_pos hk]
    · by_cases hm : k ∈ ((s.tombstonesByRelay.get? w.relayId).getD []).take excess
      · rw [if_neg hk,if_neg hk,if_pos hm]
        exact (if_pos hm).symm
      · rw [if_neg hk,if_neg hk,if_neg hm]
        exact (if_neg hm).symm
  · simp only [keepTombstone,hkey,hnone,tombsOf,OrdMap.get?_set,← he]
    split <;> rfl

/-- A kept withdrawal of checked parts leaves the lists exact. -/
theorem keepTombstone_entombed {w : RelayWithdraw} (now : Nat) (h : Entombed s)
    (hw : PlainPlace w.subject w.relayId) : Entombed (s.keepTombstone w now) := by
  have hkey : tombKey w.subjectKind w.subject w.relayId = keyOf w := rfl
  cases hg : s.tombstones.get? (keyOf w) with
  | some t =>
    have hcontains : ∀ k, (s.keepTombstone w now).tombstones.contains k = true ↔
        s.tombstones.contains k = true := by
      intro k
      simp only [keepTombstone,hkey,hg]
      split
      · rw [OrdMap.contains_set]
        constructor
        · rintro (rfl | hk)
          · exact s.tombstones.contains_iff.mpr ⟨t,hg⟩
          · exact hk
        · exact Or.inr
      · exact Iff.rfl
    have horder : ∀ r, tombsOf (s.keepTombstone w now) r = tombsOf s r := by
      intro r
      simp only [tombsOf,keepTombstone,hkey,hg]
      split <;> rfl
    refine ⟨fun k hk => h.plain k ((hcontains k).mp hk),fun r => ?_,fun r k => ?_,fun r => ?_⟩
    · rw [horder]
      exact h.nodup r
    · rw [horder,hcontains]
      exact h.mem r k
    · rw [horder]
      exact h.cap r
  | none =>
    obtain ⟨excess,hexcess,hget,horder⟩ := keepTombstone_new now hg
    generalize hof : tombsOf s w.relayId = order at hexcess hget horder
    have hnot : s.tombstones.contains (keyOf w) = false := by
      rw [OrdMap.contains,hg]
      rfl
    have hcontains : ∀ k, (s.keepTombstone w now).tombstones.contains k = true ↔
        k = keyOf w ∨ k ∉ order.take excess ∧ s.tombstones.contains k = true := by
      intro k
      rw [OrdMap.contains,hget]
      by_cases hk : k = keyOf w
      · simp [hk]
      · rw [if_neg hk]
        by_cases hm : k ∈ order.take excess
        · simp [hk,hm]
        · simp [hk,hm,OrdMap.contains]
    have hmem := fun k => hof ▸ h.mem w.relayId k
    have hnodup : order.Nodup := hof ▸ h.nodup w.relayId
    have hdrop : ∀ k, k ∈ order.drop excess ↔ k ∉ order.take excess ∧ k ∈ order := by
      intro k
      have happ := List.take_append_drop excess order
      have hd := hnodup
      rw [← happ,List.nodup_append] at hd
      constructor
      · intro hk
        exact ⟨fun ht => hd.2.2 k ht k hk rfl,List.mem_of_mem_drop hk⟩
      · rintro ⟨ht,hk⟩
        rw [← happ,List.mem_append] at hk
        exact hk.resolve_left ht
    refine ⟨fun k hk => ?_,fun r => ?_,fun r k => ?_,fun r => ?_⟩
    · rcases (hcontains k).mp hk with rfl | ⟨_,hk⟩
      · exact ⟨_,_,_,hw,rfl⟩
      · exact h.plain k hk
    · rw [horder]
      split
      · refine List.nodup_append.mpr ⟨hnodup.sublist (List.drop_sublist _ _),by simp,?_⟩
        rintro a ha b hb rfl
        rw [List.mem_singleton.mp hb] at ha
        have := ((hmem (keyOf w)).mp (List.mem_of_mem_drop ha)).1
        rw [hnot] at this
        cases this
      · exact h.nodup r
    · rw [horder,hcontains]
      by_cases hr : r = w.relayId
      · subst hr
        rw [if_pos rfl,List.mem_append,List.mem_singleton,hdrop,hmem]
        constructor
        · rintro (⟨ht,hk,hr⟩ | rfl)
          · exact ⟨Or.inr ⟨ht,hk⟩,hr⟩
          · exact ⟨Or.inl rfl,_,_,rfl⟩
        · rintro ⟨rfl | ⟨ht,hk⟩,hr⟩
          · exact Or.inr rfl
          · exact Or.inl ⟨ht,hk,hr⟩
      · rw [if_neg hr,h.mem]
        constructor
        · rintro ⟨hk,hr'⟩
          refine ⟨Or.inr ⟨fun ht => hr ?_,hk⟩,hr'⟩
          exact h.relay_unique hk hr' ((hmem k).mp (List.mem_of_mem_take ht)).2
        · rintro ⟨rfl | ⟨_,hk⟩,hr'⟩
          · obtain ⟨_,_,he⟩ := hr'
            exact absurd (tombKey_parts hw he).2.2.symm hr
          · exact ⟨hk,hr'⟩
    · rw [horder]
      split
      · have hmax : 0 < tombstonesPerRelayMax := by decide
        rw [List.length_append,List.length_drop,List.length_singleton]
        omega
      · exact h.cap r

theorem withdrawn_iff {kind : SubjectKind} {n r : Text} {issued : Nat} :
    s.withdrawn kind n r issued = true ↔
      ∃ t, s.tombstones.get? (tombKey kind n r) = some t ∧ issued ≤ t.1 := by
  simp only [withdrawn,Option.any_eq_true_iff_get]
  cases s.tombstones.get? (tombKey kind n r) <;> simp

/-- A kept tombstone covers what was covered before and what its withdrawal
covers. -/
theorem keepTombstone_withdrawn {w : RelayWithdraw} {now : Nat} {kind : SubjectKind} {n r : Text}
    {issued : Nat} (h : (s.keepTombstone w now).withdrawn kind n r issued = true) :
    s.withdrawn kind n r issued = true ∨
      tombKey kind n r = keyOf w ∧ issued ≤ w.withdrawnIssuedAt := by
  have hkey : tombKey w.subjectKind w.subject w.relayId = keyOf w := rfl
  obtain ⟨t,ht,hle⟩ := withdrawn_iff.mp h
  cases hg : s.tombstones.get? (keyOf w) with
  | some t' =>
    simp only [keepTombstone,hkey,hg] at ht
    split at ht
    · rw [OrdMap.get?_set] at ht
      split at ht
      · rename_i hk
        cases ht
        exact Or.inr ⟨hk,hle⟩
      · exact Or.inl (withdrawn_iff.mpr ⟨t,ht,hle⟩)
    · exact Or.inl (withdrawn_iff.mpr ⟨t,ht,hle⟩)
  | none =>
    obtain ⟨excess,_,hget,_⟩ := keepTombstone_new now hg
    rw [hget] at ht
    split at ht
    · rename_i hk
      cases ht
      exact Or.inr ⟨hk,hle⟩
    · split at ht
      · cases ht
      · exact Or.inl (withdrawn_iff.mpr ⟨t,ht,hle⟩)

/-- Forgetting tombstones, and their keys with them, keeps the lists exact. -/
theorem forget_entombed (h : Entombed s) {s' : Store} {young : Text → Nat × Nat → Option (Nat × Nat)}
    (htombs : s'.tombstones = s.tombstones.filterMapVals young)
    (horder : ∀ r, tombsOf s' r = (tombsOf s r).filter s'.tombstones.contains) : Entombed s' := by
  have hcontains : ∀ k, s'.tombstones.contains k = true → s.tombstones.contains k = true := by
    intro k hk
    obtain ⟨t,ht⟩ := s'.tombstones.contains_iff.mp hk
    rw [htombs,OrdMap.get?_filterMapVals] at ht
    obtain ⟨t',ht',_⟩ := Option.bind_eq_some_iff.mp ht
    exact s.tombstones.contains_iff.mpr ⟨t',ht'⟩
  refine ⟨fun k hk => h.plain k (hcontains k hk),fun r => ?_,fun r k => ?_,fun r => ?_⟩
  · rw [horder]
    exact (h.nodup r).filter _
  · rw [horder,List.mem_filter,h.mem]
    constructor
    · rintro ⟨⟨_,hr⟩,hk⟩
      exact ⟨hk,hr⟩
    · rintro ⟨hk,hr⟩
      exact ⟨⟨hcontains k hk,hr⟩,hk⟩
  · rw [horder]
    exact (List.length_filter_le _ _).trans (h.cap r)

/-- What was withdrawn stays so, and the tombstones are kept exactly. -/
structure Buried (s : Store) : Prop where
  entombed : Entombed s
  uncovered : Uncovered s

theorem Clears.buried {s' : Store} (c : Clears s s') (h : Buried s) : Buried s' :=
  ⟨c.entombed h.entombed,c.uncovered h.uncovered⟩

variable [Sha256]

theorem insertBoxIn_buried (o : MapOrder) (h : Buried s) (item : AttachmentItem) :
    Buried (s.insertBoxIn o item).1 := by
  rcases insertBoxIn_cases o s item with he | ⟨hw,⟨_,_,he⟩ | ⟨_,he⟩⟩
  · rwa [he]
  · rw [he]
    refine ⟨⟨h.entombed.plain,h.entombed.nodup,h.entombed.mem,h.entombed.cap⟩,fun n i hi => ?_⟩
    show s.withdrawn _ _ _ _ = false
    rw [listAt_replaceBox] at hi
    split at hi
    · rename_i hn
      rcases mem_of_mem_replaceFirst hi with rfl | hi
      · rw [hn]
        exact hw
      · rw [hn]
        exact h.uncovered _ i hi
    · exact h.uncovered n i hi
  · rw [he]
    have hroom := (makeRoomIn_clears o s item.attachment.relayId)
    have hb := hroom.buried h
    refine ⟨⟨hb.entombed.plain,hb.entombed.nodup,hb.entombed.mem,hb.entombed.cap⟩,fun n i hi => ?_⟩
    show (s.makeRoomIn o item.attachment.relayId).withdrawn _ _ _ _ = false
    rw [listAt_pushBox] at hi
    split at hi
    · rename_i hn
      rcases List.mem_append.mp hi with hi | hi
      · exact hb.uncovered n i hi
      · rw [List.mem_singleton.mp hi,hn]
        simp only [withdrawn,hroom.tombstones] at hw ⊢
        exact hw
    · exact hb.uncovered n i hi

theorem gossipWithdraw_buried (hc : Counted s) (h : Buried s) (w : RelayWithdraw) (now : Nat)
    (verified registered : Bool) : Buried (s.gossipWithdraw w now verified registered) := by
  unfold gossipWithdraw
  split
  · rename_i hok
    have hplain := withdrawShape_plain (Bool.and_eq_true_iff.mp hok).1
    unfold acceptWithdraw
    cases registered with
    | false => exact (withdraw_clears s w).buried h
    | true =>
      have hent := keepTombstone_entombed now h.entombed hplain
      have hc' := (keepTombstone_same s w now).toSameBoxes.counted hc
      have hclear := withdraw_clears (s.keepTombstone w now) w
      refine ⟨hclear.entombed hent,fun n i hi => ?_⟩
      rw [Bool.eq_false_iff]
      intro hcov
      simp only [↓reduceIte] at hi hcov
      have hi' := (hclear.sublist n).subset hi
      have hi₀ : i ∈ listAt s n := by
        rwa [(keepTombstone_same s w now).toSameBoxes.listAt] at hi'
      have hcov' : (s.keepTombstone w now).withdrawn .box n i.attachment.relayId
          i.attachment.issuedAt = true := by
        simp only [withdrawn,hclear.tombstones] at hcov ⊢
        exact hcov
      rcases keepTombstone_withdrawn hcov' with hold | ⟨hkey,hle⟩
      · rw [h.uncovered n i hi₀] at hold
        cases hold
      · -- the withdrawal names this place, so it removed the item
        obtain ⟨hk,hn,hr⟩ := tombKey_parts hplain hkey.symm
        have hcovers : withdrawCoversBox w i = true :=
          decide_eq_true ⟨hk,(hc.named n i hi₀).trans hn.symm,hr.symm,hle⟩
        simp only [withdraw,hk] at hi
        rw [(removeBoxWhere_effect _ w.subject _).2.1,if_pos hn.symm,List.mem_filter] at hi
        rw [hcovers] at hi
        exact absurd hi.2 (by decide)
  · exact h

theorem sweep_buried (h : Buried s) (now : Nat) : Buried (s.sweep now) := by
  have hclear := (retainBoxes_clears s none (fun i => decide (now < i.attachment.notAfter))).trans
    (retainPhones_clears _ (fun p => decide (now < p.grant.notAfter)))
  have hb := hclear.buried h
  have hlist : ∀ n, listAt (s.sweep now) n = listAt ((s.retainBoxes none (fun i =>
      decide (now < i.attachment.notAfter))).retainPhones (fun p => decide (now < p.grant.notAfter))) n :=
    fun _ => rfl
  have htombs : (s.sweep now).tombstones = ((s.retainBoxes none (fun i =>
      decide (now < i.attachment.notAfter))).retainPhones
        (fun p => decide (now < p.grant.notAfter))).tombstones.filterMapVals
      (fun _ t => if now - t.2 < tombstoneKeepMs then some t else none) := rfl
  have horder : (s.sweep now).tombstonesByRelay = ((s.retainBoxes none (fun i =>
      decide (now < i.attachment.notAfter))).retainPhones
        (fun p => decide (now < p.grant.notAfter))).tombstonesByRelay.filterMapVals
      (fun _ order => if (order.filter (s.sweep now).tombstones.contains).isEmpty then none
        else some (order.filter (s.sweep now).tombstones.contains)) := rfl
  generalize (s.retainBoxes none _).retainPhones _ = s₁ at hb hlist htombs horder
  refine ⟨forget_entombed hb.entombed htombs fun r => ?_,fun n i hi => ?_⟩
  · simp only [tombsOf,horder,OrdMap.get?_filterMapVals]
    cases s₁.tombstonesByRelay.get? r with
    | none => rfl
    | some order =>
      simp only [Option.bind_some,Option.getD_some]
      split
      · rename_i he
        rw [List.isEmpty_iff.mp he]
        rfl
      · rfl
  · rw [Bool.eq_false_iff]
    intro hcov
    obtain ⟨t,ht,hle⟩ := withdrawn_iff.mp hcov
    rw [htombs,OrdMap.get?_filterMapVals] at ht
    obtain ⟨t',ht',hyoung⟩ := Option.bind_eq_some_iff.mp ht
    split at hyoung
    · cases hyoung
      rw [hlist] at hi
      have hno := hb.uncovered n i hi
      rw [withdrawn_iff.mpr ⟨t,ht',hle⟩] at hno
      cases hno
    · cases hyoung

theorem removeRelay_clears (s : Store) (relay : Text) : Clears s (s.removeRelay relay) := by
  have hboxes := retainBoxes_clears s none (fun i => decide (i.attachment.relayId ≠ relay))
  have hphones : ∀ s : Store, Clears s (s.phones.keys.foldl (fun s h => (s.removePhone h relay).1) s) :=
    fun s => .foldl (fun s h => keepPhones_clears s h _) _ s
  have hboth := hboxes.trans (hphones _)
  exact ⟨hboth.sublist,hboth.tombstones,hboth.order⟩

theorem storeStep_buried (hc : Counted s) (h : Buried s) (op : MapOrder × StoreOp) :
    Buried (storeStep s op) := by
  obtain ⟨o,op⟩ := op
  cases op with
  | insertBox item => exact insertBoxIn_buried o h item
  | insertPhone item => exact (insertPhoneIn_clears o s item).buried h
  | removeBox name relay => exact (removeBoxWhere_clears s name _).buried h
  | removePhone host holder => exact (keepPhones_clears s host _).buried h
  | withdraw w => exact (withdraw_clears s w).buried h
  | gossipWithdraw w now verified registered =>
    exact gossipWithdraw_buried hc h w now verified registered
  | removeRelay relay => exact (removeRelay_clears s relay).buried h
  | retainBoxes names keep => exact (retainBoxes_clears s names keep).buried h
  | retainPhones keep => exact (retainPhones_clears s keep).buried h
  | sweep now => exact sweep_buried h now

end

theorem buried_new (selfId apex : Text) (caps : Caps) : Buried (Store.new selfId apex caps) := by
  refine ⟨⟨fun k hk => ?_,fun r => List.nodup_nil,fun r k => ?_,fun r => Nat.zero_le _⟩,
    fun n i hi => ?_⟩
  · cases hk
  · simp [tombsOf,Store.new]
  · cases hi

/-- In every run no stored box item is covered by a kept tombstone, a relay's
list holds each of its kept keys once and nothing else, and a relay never has
more tombstones than the cap. -/
theorem withdrawn_stays_withdrawn [Sha256] (selfId apex : Text) (caps : Caps)
    (ops : List (MapOrder × StoreOp)) :
    (∀ i ∈ (run storeStep (Store.new selfId apex caps) ops).all.1,
      (run storeStep (Store.new selfId apex caps) ops).withdrawn .box i.attachment.serverFqdn
        i.attachment.relayId i.attachment.issuedAt = false) ∧
    (∀ r, (tombsOf (run storeStep (Store.new selfId apex caps) ops) r).Nodup ∧
      ∀ k, k ∈ tombsOf (run storeStep (Store.new selfId apex caps) ops) r ↔
        (run storeStep (Store.new selfId apex caps) ops).tombstones.contains k = true ∧
          OfRelay r k) ∧
    ∀ (r : Text) (ks : List Text), ks.Nodup → (∀ k ∈ ks, OfRelay r k ∧
      (run storeStep (Store.new selfId apex caps) ops).tombstones.contains k = true) →
      ks.length ≤ tombstonesPerRelayMax := by
  have hall := run_invariant (I := fun s => Books selfId apex caps s ∧ Buried s)
    (fun s op h => ⟨storeStep_books h.1 op,storeStep_buried h.1.counted h.2 op⟩)
    ⟨books_new selfId apex caps,buried_new selfId apex caps⟩ ops
  obtain ⟨hbooks,hburied⟩ := hall
  refine ⟨fun i hi => ?_,fun r => ⟨hburied.entombed.nodup r,hburied.entombed.mem r⟩,
    fun r ks hks hof => ?_⟩
  · obtain ⟨n,hi⟩ := mem_all.mp hi
    rw [hbooks.counted.named n i hi]
    exact hburied.uncovered n i hi
  · have hsub : ks ⊆ tombsOf (run storeStep (Store.new selfId apex caps) ops) r := fun k hk =>
      (hburied.entombed.mem r k).mpr ⟨(hof k hk).2,(hof k hk).1⟩
    exact (List.subperm_of_subset hks hsub).length_le.trans (hburied.entombed.cap r)

end Flagship.Mesh.Proofs

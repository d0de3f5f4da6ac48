import Mathlib.Data.Prod.Lex
import Mathlib.Data.Finset.Max
import Flagship.Mesh.Proofs.StoreEffects

namespace Flagship.Mesh.Proofs
open Lib Relay Store

/-- The list delivers exactly these, in some order and as often as it likes. -/
def Delivers (items : Finset AttachmentItem) (ws : Finset RelayWithdraw) (l : List Delivery) : Prop :=
  (∀ i, .item i ∈ l ↔ i ∈ items) ∧ ∀ w, (∃ now, .withdrawal w now ∈ l) ↔ w ∈ ws

/-- Of one name and one relay: one place of a store. -/
def SamePlace (a b : AttachmentItem) : Prop :=
  a.attachment.serverFqdn = b.attachment.serverFqdn ∧ a.attachment.relayId = b.attachment.relayId

theorem SamePlace.symm {a b : AttachmentItem} (h : SamePlace a b) : SamePlace b a :=
  ⟨h.1.symm,h.2.symm⟩

theorem SamePlace.trans {a b c : AttachmentItem} (h : SamePlace a b) (h' : SamePlace b c) :
    SamePlace a c := ⟨h.1.trans h'.1,h.2.trans h'.2⟩

def Withdrawn (ws : Finset RelayWithdraw) (i : AttachmentItem) : Prop :=
  ∃ w ∈ ws, withdrawCoversBox w i = true

instance (a b : AttachmentItem) : Decidable (SamePlace a b) := inferInstanceAs (Decidable (_ ∧ _))

instance (ws : Finset RelayWithdraw) (i : AttachmentItem) : Decidable (Withdrawn ws i) :=
  inferInstanceAs (Decidable (∃ w ∈ ws, _))

/-- No unwithdrawn item of the place outranks this one. -/
def TopsLive (items : Finset AttachmentItem) (ws : Finset RelayWithdraw) (c : AttachmentItem) : Prop :=
  ∀ u ∈ items, SamePlace u c → ¬ Withdrawn ws u → compareAttachments u c ≠ .gt

/-- Some order can leave the item in its place: it is unwithdrawn, and either
no unwithdrawn item of the place outranks it, or a withdrawn one is there that
none of them outranks. -/
def CanStay (items : Finset AttachmentItem) (ws : Finset RelayWithdraw) (x : AttachmentItem) : Prop :=
  x ∈ items ∧ ¬ Withdrawn ws x ∧ (TopsLive items ws x ∨
    ∃ c ∈ items, SamePlace c x ∧ Withdrawn ws c ∧ TopsLive items ws c)

/-- Every order leaves the item in its place: it is unwithdrawn and outranks
every other item of the place, withdrawn or not. -/
def MustStay (items : Finset AttachmentItem) (ws : Finset RelayWithdraw) (m : AttachmentItem) : Prop :=
  m ∈ items ∧ ¬ Withdrawn ws m ∧
    ∀ y ∈ items, SamePlace y m → y ≠ m → compareAttachments m y = .gt

/-- Whatever can stay is, or is outranked by, an item of its name that must
stay and is valid as long. -/
def Settled (items : Finset AttachmentItem) (ws : Finset RelayWithdraw) : Prop :=
  ∀ x ∈ items, CanStay items ws x → ∃ m ∈ items, MustStay items ws m ∧
    m.attachment.serverFqdn = x.attachment.serverFqdn ∧
    x.attachment.notAfter ≤ m.attachment.notAfter ∧
    (m = x ∨ compareAttachments m x = .gt)

instance (items : Finset AttachmentItem) (ws : Finset RelayWithdraw) (c : AttachmentItem) :
    Decidable (TopsLive items ws c) := inferInstanceAs (Decidable (∀ u ∈ items,_))

instance (items : Finset AttachmentItem) (ws : Finset RelayWithdraw) (x : AttachmentItem) :
    Decidable (CanStay items ws x) := inferInstanceAs (Decidable (_ ∧ _ ∧ _))

instance (items : Finset AttachmentItem) (ws : Finset RelayWithdraw) (m : AttachmentItem) :
    Decidable (MustStay items ws m) := inferInstanceAs (Decidable (_ ∧ _ ∧ _))

instance (items : Finset AttachmentItem) (ws : Finset RelayWithdraw) :
    Decidable (Settled items ws) := inferInstanceAs (Decidable (∀ x ∈ items,_))

/-- What `compareAttachments` compares, as one ordered key. -/
def rankOf (a : AttachmentItem) : ℕ ×ₗ ℕ ×ₗ ℕ ×ₗ ℕ ×ₗ Textᵒᵈ :=
  toLex (a.attachment.regGen,toLex (kindRank a.kind,toLex (a.attachment.attachedAt,
    toLex (a.attachment.issuedAt,OrderDual.toDual a.attachment.relayId))))

theorem cmp_text_gt (x y : Text) : cmp x y = .gt ↔ y < x := by
  convert cmp_eq_gt_iff x y
  rfl

theorem compareAttachments_gt (a b : AttachmentItem) :
    compareAttachments a b = .gt ↔ rankOf b < rankOf a := by
  rw [compareAttachments,Ordering.then_eq_gt,Ordering.then_eq_gt,Ordering.then_eq_gt,
    Ordering.then_eq_gt,cmp_text_gt,cmp_eq_gt_iff,cmp_eq_gt_iff,cmp_eq_gt_iff,cmp_eq_gt_iff,
    cmp_eq_eq_iff,cmp_eq_eq_iff,cmp_eq_eq_iff,cmp_eq_eq_iff]
  simp only [rankOf,Prod.Lex.toLex_lt_toLex,OrderDual.toDual_lt_toDual,
    @eq_comm _ a.attachment.regGen,@eq_comm _ (kindRank a.kind),@eq_comm _ a.attachment.attachedAt,
    @eq_comm _ a.attachment.issuedAt]

theorem rankOf_relay {a b : AttachmentItem} (h : rankOf a = rankOf b) :
    a.attachment.relayId = b.attachment.relayId := by
  simp only [rankOf,EmbeddingLike.apply_eq_iff_eq,Prod.mk.injEq] at h
  exact h.2.2.2.2

theorem newer_iff (a b : AttachmentItem) : newer a b = true ↔ rankOf b < rankOf a := by
  rw [newer,decide_eq_true_iff,compareAttachments_gt]

/-- The operations a delivery list makes on the place of an item. -/
def opsAt (x : AttachmentItem) (l : List Delivery) : List (SlotOp AttachmentItem) :=
  l.filterMap (opAt x.attachment.serverFqdn x.attachment.relayId)

/-- The place of an item after a delivery list. -/
def slotAfter (x : AttachmentItem) (l : List Delivery) : FencedSlot AttachmentItem :=
  run (FencedSlot.step newer stampOf) FencedSlot.empty (opsAt x l)

theorem slotAfter_append (x : AttachmentItem) (before after : List Delivery) :
    slotAfter x (before ++ after) =
      run (FencedSlot.step newer stampOf) (slotAfter x before) (opsAt x after) := by
  rw [slotAfter,opsAt,List.filterMap_append,run_append]
  rfl

theorem slotAfter_congr {x y : AttachmentItem} (h : SamePlace x y) (l : List Delivery) :
    slotAfter x l = slotAfter y l := by
  rw [slotAfter,slotAfter,opsAt,opsAt,h.1,h.2]

theorem opsAt_item {x i : AttachmentItem} (h : SamePlace i x) (l : List Delivery) :
    opsAt x (.item i :: l) = .put i :: opsAt x l :=
  List.filterMap_cons_some (if_pos h)

theorem put_mem_opsAt {x i : AttachmentItem} {l : List Delivery} :
    .put i ∈ opsAt x l ↔ .item i ∈ l ∧ SamePlace i x := by
  rw [opsAt,List.mem_filterMap]
  constructor
  · rintro ⟨d,hm,ho⟩
    cases d with
    | item j =>
      simp only [opAt] at ho
      split at ho
      · rename_i hat
        cases ho
        exact ⟨hm,hat⟩
      · cases ho
    | withdrawal w now =>
      simp only [opAt] at ho
      split at ho <;> cases ho
  · rintro ⟨hm,hat⟩
    exact ⟨.item i,hm,if_pos hat⟩

theorem raise_mem_opsAt {x : AttachmentItem} {n : Nat} {l : List Delivery} :
    .raise n ∈ opsAt x l ↔ ∃ w now, .withdrawal w now ∈ l ∧ w.withdrawnIssuedAt = n ∧
      w.subjectKind = .box ∧ w.subject = x.attachment.serverFqdn ∧
      w.relayId = x.attachment.relayId := by
  rw [opsAt,List.mem_filterMap]
  constructor
  · rintro ⟨d,hm,ho⟩
    cases d with
    | item j =>
      simp only [opAt] at ho
      split at ho <;> cases ho
    | withdrawal w now =>
      simp only [opAt] at ho
      split at ho
      · rename_i hat
        cases ho
        exact ⟨w,now,hm,rfl,hat⟩
      · cases ho
  · rintro ⟨w,now,hm,rfl,hat⟩
    exact ⟨.withdrawal w now,hm,if_pos hat⟩

section
variable {items : Finset AttachmentItem} {ws : Finset RelayWithdraw} {l : List Delivery}
  {x i : AttachmentItem}

theorem delivered_from (hd : Delivers items ws l) : ∀ d ∈ l, d.From items ws := by
  intro d hm
  cases d with
  | item i => exact (hd.1 i).mp hm
  | withdrawal w now => exact (hd.2 w).mp ⟨now,hm⟩

/-- No withdrawal that is delivered fences off an unwithdrawn item. -/
theorem raise_lt (hl : ∀ d ∈ l, d.From items ws) (hi : ¬ Withdrawn ws i) (hp : SamePlace i x)
    {n : Nat} (hn : .raise n ∈ opsAt x l) : n < stampOf i := by
  obtain ⟨w,now,hm,rfl,hkind,hsub,hrel⟩ := raise_mem_opsAt.mp hn
  by_contra hle
  refine hi ⟨w,hl _ hm,?_⟩
  simp only [withdrawCoversBox,decide_eq_true_eq]
  exact ⟨hkind,hp.1.trans hsub.symm,hp.2.trans hrel.symm,Nat.le_of_not_lt hle⟩

/-- Once every withdrawal is delivered, one of them fences off a withdrawn item. -/
theorem exists_raise (hl : ∀ w ∈ ws, ∃ now, .withdrawal w now ∈ l) (hi : Withdrawn ws i)
    (hp : SamePlace i x) : ∃ n, .raise n ∈ opsAt x l ∧ stampOf i ≤ n := by
  obtain ⟨w,hw,hc⟩ := hi
  obtain ⟨now,hm⟩ := hl w hw
  simp only [withdrawCoversBox,decide_eq_true_eq] at hc
  obtain ⟨hkind,hsub,hrel,hle⟩ := hc
  exact ⟨_,raise_mem_opsAt.mpr ⟨w,now,hm,rfl,hkind,hsub.symm.trans hp.1,hrel.symm.trans hp.2⟩,hle⟩

theorem slotAfter_open (hl : ∀ d ∈ l, d.From items ws) (hx : ¬ Withdrawn ws x) :
    (slotAfter x l).fenced stampOf x = false := by
  rw [Bool.eq_false_iff]
  intro hf
  obtain ⟨f,hfence,hle⟩ := (Option.any_eq_true _ _).mp hf
  have hlt := raise_lt hl hx ⟨rfl,rfl⟩ ((FencedSlot.run_tracks stampOf _).fence f hfence)
  simp only [decide_eq_true_eq] at hle
  omega

/-- Whatever an order leaves in a place can stay there. -/
theorem left_canStay (hd : Delivers items ws l) (h : (slotAfter x l).cur = some i) :
    CanStay items ws i ∧ SamePlace i x := by
  obtain ⟨hput,hfree⟩ := (FencedSlot.run_tracks stampOf _).cur i h
  obtain ⟨hm,hp⟩ := put_mem_opsAt.mp hput
  have hin := (hd.1 i).mp hm
  have hlive : ¬ Withdrawn ws i := by
    intro hw
    obtain ⟨n,hn,hle⟩ := exists_raise (fun w hw => (hd.2 w).mpr hw) hw hp
    have := hfree n hn
    omega
  refine ⟨⟨hin,hlive,?_⟩,hp⟩
  by_contra hno
  obtain ⟨hnot,hcover⟩ := not_or.mp hno
  -- the highest unwithdrawn item of the place outranks every withdrawn one
  obtain ⟨top,htop,hmax⟩ := Finset.exists_max_image
    (items.filter (fun u => SamePlace u i ∧ ¬ Withdrawn ws u)) rankOf
    ⟨i,Finset.mem_filter.mpr ⟨hin,⟨rfl,rfl⟩,hlive⟩⟩
  obtain ⟨htop,htp,htlive⟩ := Finset.mem_filter.mp htop
  obtain ⟨a,ha,hle⟩ := FencedSlot.run_atLeast stampOf newer_iff
    (put_mem_opsAt.mpr ⟨(hd.1 top).mpr htop,htp.trans hp⟩) (by
      intro a ha hle n hn
      obtain ⟨ham,hap⟩ := put_mem_opsAt.mp ha
      refine raise_lt (delivered_from hd) ?_ hap hn
      intro haw
      refine hcover ⟨a,(hd.1 a).mp ham,hap.trans hp.symm,haw,?_⟩
      intro u hu hup hulive hgt
      have := hmax u (Finset.mem_filter.mpr ⟨hu,hup.trans (hap.trans hp.symm),hulive⟩)
      exact absurd ((compareAttachments_gt u a).mp hgt) (not_lt.mpr (this.trans hle)))
  obtain rfl : a = i := Option.some.inj (ha.symm.trans h)
  refine hnot fun u hu hup hulive hgt => ?_
  have := hmax u (Finset.mem_filter.mpr ⟨hu,hup,hulive⟩)
  exact absurd ((compareAttachments_gt u a).mp hgt) (not_lt.mpr (this.trans hle))

/-- Whatever must stay is left in its place by every order. -/
theorem mustStay_left (hd : Delivers items ws l) (hm : MustStay items ws x) :
    (slotAfter x l).cur = some x := by
  obtain ⟨hin,hlive,hbest⟩ := hm
  have hsole : ∀ a, .put a ∈ opsAt x l → rankOf x ≤ rankOf a → a = x := by
    intro a ha hle
    obtain ⟨ham,hap⟩ := put_mem_opsAt.mp ha
    by_contra hne
    have hgt := hbest a ((hd.1 a).mp ham) hap hne
    exact absurd ((compareAttachments_gt x a).mp hgt) (not_lt.mpr hle)
  obtain ⟨a,ha,hle⟩ := FencedSlot.run_atLeast stampOf newer_iff
    (put_mem_opsAt.mpr ⟨(hd.1 x).mpr hin,rfl,rfl⟩) (by
      intro a ha hle n hn
      obtain rfl := hsole a ha hle
      exact raise_lt (delivered_from hd) hlive ⟨rfl,rfl⟩ hn)
  obtain rfl := hsole a ((FencedSlot.run_tracks stampOf _).cur a ha).1 hle
  exact ha

theorem Delivers.snoc (hd : Delivers items ws l) (hx : x ∈ items) :
    Delivers items ws (l ++ [.item x]) := by
  refine ⟨fun i => ?_,fun w => ?_⟩
  · simp only [List.mem_append,hd.1,List.mem_singleton,Delivery.item.injEq]
    exact ⟨fun h => h.elim id (fun h => h ▸ hx),Or.inl⟩
  · simp only [List.mem_append,List.mem_singleton,reduceCtorEq,or_false]
    exact hd.2 w

noncomputable def inserts (items : Finset AttachmentItem) : List Delivery :=
  items.toList.map Delivery.item

noncomputable def withdrawals (ws : Finset RelayWithdraw) : List Delivery :=
  ws.toList.map (fun w => .withdrawal w 0)

theorem mem_inserts {d : Delivery} : d ∈ inserts items ↔ ∃ i ∈ items, d = .item i := by
  simp [inserts,eq_comm]

theorem mem_withdrawals {d : Delivery} : d ∈ withdrawals ws ↔ ∃ w ∈ ws, d = .withdrawal w 0 := by
  simp [withdrawals,eq_comm]

theorem opsAt_inserts {op : SlotOp AttachmentItem} (h : op ∈ opsAt x (inserts items)) :
    ∃ a ∈ items, SamePlace a x ∧ op = .put a := by
  obtain ⟨d,hd,ho⟩ := List.mem_filterMap.mp h
  obtain ⟨i,hi,rfl⟩ := mem_inserts.mp hd
  simp only [opAt] at ho
  split at ho
  · rename_i hat
    cases ho
    exact ⟨i,hi,hat,rfl⟩
  · cases ho

theorem opsAt_withdrawals {op : SlotOp AttachmentItem} (h : op ∈ opsAt x (withdrawals ws)) :
    ∃ n, op = .raise n := by
  obtain ⟨d,hd,ho⟩ := List.mem_filterMap.mp h
  obtain ⟨w,hw,rfl⟩ := mem_withdrawals.mp hd
  simp only [opAt] at ho
  split at ho
  · cases ho
    exact ⟨_,rfl⟩
  · cases ho

/-- Withdrawals first, then the item: it stays where no unwithdrawn item
outranks it. -/
theorem order_top (hx : x ∈ items) (hlive : ¬ Withdrawn ws x) (htop : TopsLive items ws x) :
    ∃ l, Delivers items ws l ∧ (slotAfter x l).cur = some x := by
  have hfrom : ∀ d ∈ withdrawals ws, d.From items ws := by
    intro d hd
    obtain ⟨w,hw,rfl⟩ := mem_withdrawals.mp hd
    exact hw
  have hnone : (slotAfter x (withdrawals ws)).cur = none := by
    cases hc : (slotAfter x (withdrawals ws)).cur with
    | none => rfl
    | some a => cases (FencedSlot.run_raises (fun op => opsAt_withdrawals) hc).1
  refine ⟨withdrawals ws ++ .item x :: inserts items,⟨fun i => ?_,fun w => ?_⟩,?_⟩
  · simp only [List.mem_append,List.mem_cons,mem_withdrawals,mem_inserts,Delivery.item.injEq]
    aesop
  · simp only [List.mem_append,List.mem_cons,mem_withdrawals,mem_inserts]
    aesop
  · rw [slotAfter_append,opsAt_item ⟨rfl,rfl⟩,run_cons]
    have hopen := slotAfter_open hfrom hlive
    have ht : FencedSlot.Tracks stampOf (opsAt x (withdrawals ws))
      (slotAfter x (withdrawals ws)) := FencedSlot.run_tracks stampOf _
    generalize slotAfter x (withdrawals ws) = s at hnone hopen ht
    have hput : s.step newer stampOf (.put x) = ⟨s.fence,some x⟩ := by
      simp [FencedSlot.step,hopen,hnone]
    rw [hput,FencedSlot.run_puts rfl]
    intro op hop
    obtain ⟨a,ha,hp,rfl⟩ := opsAt_inserts hop
    refine ⟨a,rfl,?_⟩
    by_cases haw : Withdrawn ws a
    · left
      obtain ⟨n,hn,hle⟩ := exists_raise
        (fun w hw => ⟨0,mem_withdrawals.mpr ⟨w,hw,rfl⟩⟩) haw hp
      obtain ⟨f,hf,hnf⟩ := ht.raised n hn
      simp only [FencedSlot.fenced,hf,Option.any_some,decide_eq_true_eq]
      omega
    · right
      simp only [newer,decide_eq_false_iff_not]
      exact htop a ha hp haw

/-- A withdrawn item that no unwithdrawn one outranks comes first and keeps all
out; then it is withdrawn and nothing is left. -/
theorem order_clear (hc : x ∈ items) (hw : Withdrawn ws x) (htop : TopsLive items ws x) :
    ∃ l, Delivers items ws l ∧ (slotAfter x l).cur = none := by
  obtain ⟨top,hin,hmax⟩ := Finset.exists_max_image
    (items.filter (fun u => SamePlace u x ∧ Withdrawn ws u)) rankOf
    ⟨x,Finset.mem_filter.mpr ⟨hc,⟨rfl,rfl⟩,hw⟩⟩
  obtain ⟨hin,hp,htw⟩ := Finset.mem_filter.mp hin
  have hkeep : ∀ a ∈ items, SamePlace a x → newer a top = false := by
    intro a ha hap
    rw [← Bool.not_eq_true,newer_iff,not_lt]
    by_cases haw : Withdrawn ws a
    · exact hmax a (Finset.mem_filter.mpr ⟨ha,hap,haw⟩)
    · have hle := hmax x (Finset.mem_filter.mpr ⟨hc,⟨rfl,rfl⟩,hw⟩)
      have hno := htop a ha hap haw
      rw [ne_eq,compareAttachments_gt,not_lt] at hno
      exact hno.trans hle
  refine ⟨.item top :: (inserts items ++ withdrawals ws),⟨fun i => ?_,fun w => ?_⟩,?_⟩
  · simp only [List.mem_append,List.mem_cons,mem_withdrawals,mem_inserts,Delivery.item.injEq]
    aesop
  · simp only [List.mem_append,List.mem_cons,mem_withdrawals,mem_inserts]
    aesop
  · have hfirst : slotAfter x (.item top :: inserts items) = ⟨none,some top⟩ := by
      rw [slotAfter,opsAt_item hp,run_cons]
      have hput : FencedSlot.empty.step newer stampOf (.put top) = ⟨none,some top⟩ := rfl
      rw [hput,FencedSlot.run_puts rfl]
      intro op hop
      obtain ⟨a,ha,hap,rfl⟩ := opsAt_inserts hop
      exact ⟨a,rfl,Or.inr (hkeep a ha hap)⟩
    rw [← List.cons_append,slotAfter_append,hfirst]
    cases hcur : (run (FencedSlot.step newer stampOf) ⟨none,some top⟩
        (opsAt x (withdrawals ws))).cur with
    | none => rfl
    | some a =>
      obtain ⟨ha,hfree⟩ := FencedSlot.run_raises (fun op => opsAt_withdrawals) hcur
      cases ha
      obtain ⟨n,hn,hle⟩ := exists_raise
        (fun w hw => ⟨0,mem_withdrawals.mpr ⟨w,hw,rfl⟩⟩) htw hp
      have := hfree n hn
      omega

/-- Some order leaves whatever can stay. -/
theorem canStay_order (h : CanStay items ws x) :
    ∃ l, Delivers items ws l ∧ (slotAfter x l).cur = some x := by
  obtain ⟨hx,hlive,htop | ⟨c,hc,hp,hw,htop⟩⟩ := h
  · exact order_top hx hlive htop
  · obtain ⟨l,hd,hnone⟩ := order_clear hc hw htop
    refine ⟨l ++ [.item x],hd.snoc hx,?_⟩
    have hopen := slotAfter_open (delivered_from hd) hlive
    rw [slotAfter_congr hp] at hnone
    rw [slotAfter_append,opsAt_item ⟨rfl,rfl⟩,run_cons]
    simp [opsAt,FencedSlot.step,hopen,hnone]

/-- Some order does not leave what need not stay. -/
theorem not_mustStay_order (hx : x ∈ items) (hlive : ¬ Withdrawn ws x)
    (h : ¬ MustStay items ws x) : ∃ l, Delivers items ws l ∧ (slotAfter x l).cur ≠ some x := by
  have hy : ∃ y ∈ items, SamePlace y x ∧ y ≠ x ∧ rankOf x ≤ rankOf y := by
    by_contra hno
    refine h ⟨hx,hlive,fun y hy hp hne => ?_⟩
    by_contra hle
    rw [compareAttachments_gt,not_lt] at hle
    exact hno ⟨y,hy,hp,hne,hle⟩
  by_cases hrival : ∃ y ∈ items, SamePlace y x ∧ y ≠ x ∧ ¬ Withdrawn ws y ∧ rankOf x ≤ rankOf y
  · -- the highest rival can stay instead
    obtain ⟨y,hy,hp,hne,hylive,hle⟩ := hrival
    obtain ⟨top,hin,hmax⟩ := Finset.exists_max_image
      (items.filter (fun u => SamePlace u x ∧ u ≠ x ∧ ¬ Withdrawn ws u)) rankOf
      ⟨y,Finset.mem_filter.mpr ⟨hy,hp,hne,hylive⟩⟩
    obtain ⟨hin,htp,htne,htlive⟩ := Finset.mem_filter.mp hin
    have hxt := hle.trans (hmax y (Finset.mem_filter.mpr ⟨hy,hp,hne,hylive⟩))
    have htops : TopsLive items ws top := by
      intro u hu hup hulive
      rw [ne_eq,compareAttachments_gt,not_lt]
      by_cases hux : u = x
      · rw [hux]
        exact hxt
      · exact hmax u (Finset.mem_filter.mpr ⟨hu,hup.trans htp,hux,hulive⟩)
    obtain ⟨l,hd,hl⟩ := order_top hin htlive htops
    rw [slotAfter_congr htp] at hl
    exact ⟨l,hd,fun he => htne (Option.some.inj (hl.symm.trans he))⟩
  · -- only a withdrawn item stands in its way
    obtain ⟨y,hy,hp,hne,hle⟩ := hy
    have hyw : Withdrawn ws y := by
      by_contra hylive
      exact hrival ⟨y,hy,hp,hne,hylive,hle⟩
    have htops : TopsLive items ws y := by
      intro u hu hup hulive
      rw [ne_eq,compareAttachments_gt,not_lt]
      by_cases hux : u = x
      · rw [hux]
        exact hle
      · by_contra hlt
        exact hrival ⟨u,hu,hup.trans hp,hux,hulive,hle.trans (not_le.mp hlt).le⟩
    obtain ⟨l,hd,hl⟩ := order_clear hy hyw htops
    rw [slotAfter_congr hp] at hl
    exact ⟨l,hd,fun he => by rw [hl] at he; cases he⟩

/-- One rank, one place: two items left with the same name and rank are one. -/
theorem left_unique {j : AttachmentItem} (hn : i.attachment.serverFqdn = j.attachment.serverFqdn)
    (hr : rankOf i = rankOf j) (hi : (slotAfter i l).cur = some i)
    (hj : (slotAfter j l).cur = some j) : i = j := by
  rw [slotAfter_congr ⟨hn,rankOf_relay hr⟩] at hi
  exact Option.some.inj (hi.symm.trans hj)

theorem new_kept (items : Finset AttachmentItem) (ws : Finset RelayWithdraw) (selfId apex : Text)
    (caps : Caps) : Kept items ws (Store.new selfId apex caps) := by
  constructor <;> simp [Store.new,listAt]

variable [Sha256] {selfId apex : Text} {caps : Caps} {name : Text} {now : Nat}

/-- A store holds what its places are left with. -/
theorem mem_stored (hf : Fits items ws caps) (hd : Delivers items ws l) :
    i ∈ listAt (run deliver (Store.new selfId apex caps) l) name ↔
      i ∈ items ∧ i.attachment.serverFqdn = name ∧ (slotAfter i l).cur = some i := by
  obtain ⟨hk,hslot⟩ := run_slots (new_kept items ws selfId apex caps) hf (delivered_from hd)
  have hat : ∀ i ∈ items, itemAt (run deliver (Store.new selfId apex caps) l)
      i.attachment.serverFqdn i.attachment.relayId = (slotAfter i l).cur := fun i hi =>
    congrArg FencedSlot.cur (hslot _ _ (attachmentShape_plain (hf.shape i hi)))
  constructor
  · intro hi
    obtain ⟨rfl,hin⟩ := hk.named name i hi
    rw [← hat i hin]
    exact ⟨hin,rfl,hk.itemAt_eq.mpr ⟨hi,rfl⟩⟩
  · rintro ⟨hin,rfl,hcur⟩
    rw [← hat i hin] at hcur
    exact (hk.itemAt_eq.mp hcur).1

/-- The winner of a name: the highest-ranked of what is left and valid. -/
theorem winner_some (hf : Fits items ws caps) (hd : Delivers items ws l)
    (h : (run deliver (Store.new selfId apex caps) l).winner name now = some x) :
    (x ∈ items ∧ x.attachment.serverFqdn = name ∧ (slotAfter x l).cur = some x) ∧
    now < x.attachment.notAfter ∧ ∀ i ∈ items, i.attachment.serverFqdn = name →
      (slotAfter i l).cur = some i → now < i.attachment.notAfter → rankOf i ≤ rankOf x := by
  obtain ⟨hx,hmax⟩ := maxBy_spec compareAttachments_gt h
  obtain ⟨hx,hnow⟩ := List.mem_filter.mp hx
  refine ⟨(mem_stored hf hd).mp hx,by simpa using hnow,fun i hi hn hc hnow => ?_⟩
  exact hmax i (List.mem_filter.mpr ⟨(mem_stored hf hd).mpr ⟨hi,hn,hc⟩,by simpa using hnow⟩)

theorem winner_exists (hf : Fits items ws caps) (hd : Delivers items ws l) (hi : i ∈ items)
    (hc : (slotAfter i l).cur = some i) (hnow : now < i.attachment.notAfter) :
    ∃ x, (run deliver (Store.new selfId apex caps) l).winner i.attachment.serverFqdn now =
      some x := by
  apply Option.ne_none_iff_exists'.mp
  intro hnone
  have hstored : i ∈ listAt (run deliver (Store.new selfId apex caps) l) i.attachment.serverFqdn :=
    (mem_stored hf hd).mpr ⟨hi,rfl,hc⟩
  have hempty := List.filter_eq_nil_iff.mp (maxBy_eq_none.mp hnone) i hstored
  exact hempty (decide_eq_true hnow)

/-- In settled items the winner is always one that must stay. -/
theorem winner_mustStay (hf : Fits items ws caps) (hs : Settled items ws)
    (hd : Delivers items ws l)
    (h : (run deliver (Store.new selfId apex caps) l).winner name now = some x) :
    MustStay items ws x := by
  obtain ⟨⟨hx,rfl,hc⟩,hnow,hmax⟩ := winner_some hf hd h
  obtain ⟨m,hm,hmust,hn,hafter,he | hgt⟩ := hs x hx (left_canStay hd hc).1
  · rwa [← he]
  · have hle := hmax m hm hn (mustStay_left hd hmust) (by omega)
    exact absurd ((compareAttachments_gt m x).mp hgt) (not_lt.mpr hle)

/-- Two settled stores name the same winner; one of them is enough to see. -/
theorem winner_agrees {l' : List Delivery} {selfId' apex' : Text} {caps' : Caps}
    (hf : Fits items ws caps) (hf' : Fits items ws caps') (hs : Settled items ws)
    (hd : Delivers items ws l) (hd' : Delivers items ws l')
    (h : (run deliver (Store.new selfId apex caps) l).winner name now = some x) :
    (run deliver (Store.new selfId' apex' caps') l').winner name now = some x := by
  have hmust := winner_mustStay hf hs hd h
  obtain ⟨⟨hx,rfl,hc⟩,hnow,hmax⟩ := winner_some hf hd h
  obtain ⟨y,hy⟩ : ∃ y, (run deliver (Store.new selfId' apex' caps') l').winner
      x.attachment.serverFqdn now = some y :=
    winner_exists hf' hd' hx (mustStay_left hd' hmust) hnow
  have hymust := winner_mustStay hf' hs hd' hy
  obtain ⟨⟨hyin,hyn,hyc⟩,hynow,hymax⟩ := winner_some hf' hd' hy
  have hle := hmax y hyin hyn (mustStay_left hd hymust) hynow
  have hle' := hymax x hx rfl (mustStay_left hd' hmust) hnow
  rw [hy,left_unique hyn (le_antisymm hle hle') (mustStay_left hd hymust) hc]

/-- Two stores that get the same items and withdrawals, in any order and any
number of times, always agree on every winner exactly where these are settled. -/
theorem winners_converge_iff (items : Finset AttachmentItem) (ws : Finset RelayWithdraw)
    (selfA selfB apexA apexB : Text) (capsA capsB : Caps) (hA : Fits items ws capsA)
    (hB : Fits items ws capsB) :
    (∀ l l', Delivers items ws l → Delivers items ws l' → ∀ name now,
      (run deliver (Store.new selfA apexA capsA) l).winner name now =
        (run deliver (Store.new selfB apexB capsB) l').winner name now) ↔ Settled items ws := by
  constructor
  · intro hall x hx hcan
    -- at the last moment of `x`, the highest of what can stay and is valid
    have hvalid : 0 < x.attachment.notAfter := by
      have hshape := hA.shape x hx
      simp only [attachmentShape,Bool.and_eq_true,decide_eq_true_eq] at hshape
      omega
    obtain ⟨m,hm,hmax⟩ := Finset.exists_max_image
      (items.filter (fun y => CanStay items ws y ∧
        y.attachment.serverFqdn = x.attachment.serverFqdn ∧
        x.attachment.notAfter - 1 < y.attachment.notAfter)) rankOf
      ⟨x,Finset.mem_filter.mpr ⟨hx,hcan,rfl,by omega⟩⟩
    obtain ⟨hm,hmcan,hname,hnow⟩ := Finset.mem_filter.mp hm
    have htop : ∀ {l}, Delivers items ws l → (slotAfter m l).cur = some m →
        (run deliver (Store.new selfA apexA capsA) l).winner m.attachment.serverFqdn
          (x.attachment.notAfter - 1) = some m := by
      intro l hd hc
      obtain ⟨y,hy⟩ : ∃ y, (run deliver (Store.new selfA apexA capsA) l).winner
          m.attachment.serverFqdn (x.attachment.notAfter - 1) = some y :=
        winner_exists hA hd hm hc hnow
      obtain ⟨⟨hyin,hyn,hyc⟩,hynow,hymax⟩ := winner_some hA hd hy
      have hle := hmax y (Finset.mem_filter.mpr
        ⟨hyin,(left_canStay hd hyc).1,hyn.trans hname,hynow⟩)
      rw [hy,left_unique hyn (le_antisymm hle (hymax m hm rfl hc hnow)) hyc hc]
    have hmust : MustStay items ws m := by
      by_contra hnot
      obtain ⟨l,hd,hc⟩ := canStay_order hmcan
      obtain ⟨l',hd',hc'⟩ := not_mustStay_order hm hmcan.2.1 hnot
      have hw := hall l l' hd hd' m.attachment.serverFqdn (x.attachment.notAfter - 1)
      rw [htop hd hc] at hw
      exact hc' (winner_some hB hd' hw.symm).1.2.2
    refine ⟨m,hm,hmust,hname,by omega,?_⟩
    by_cases he : m = x
    · exact Or.inl he
    · right
      have hle := hmax x (Finset.mem_filter.mpr ⟨hx,hcan,rfl,by omega⟩)
      rcases hle.lt_or_eq with hlt | heq
      · exact (compareAttachments_gt m x).mpr hlt
      · exact hmust.2.2 x hx ⟨hname.symm,rankOf_relay heq⟩ (fun h => he h.symm)
  · intro hs l l' hd hd' name now
    apply Option.ext
    intro x
    exact ⟨winner_agrees hA hB hs hd hd',winner_agrees hB hA hs hd' hd⟩

end

/-- Alice's home pod at `iad1`. -/
def homeItem (attachedAt issuedAt : Nat) : AttachmentItem :=
  ⟨.box,⟨"home.alice.flagship.services".toList,List.replicate 64 'a',1,"iad1".toList,attachedAt,
    issuedAt,100⟩,[]⟩

/-- The home pod's withdrawal from `iad1` of what was issued up to a time. -/
def homeWithdraw (withdrawnIssuedAt : Nat) : RelayWithdraw :=
  ⟨.box,"home.alice.flagship.services".toList,"iad1".toList,withdrawnIssuedAt,withdrawnIssuedAt⟩

local instance nameItself : Sha256 := ⟨id⟩

/-- The tunnel opened after the withdrawn one stays, whatever comes first. -/
theorem winners_converge_newer_tunnel :
    Settled {homeItem 5 10,homeItem 15 20} {homeWithdraw 10} ∧
    (run deliver (Store.new "ams1".toList "flagship.services".toList defaultCaps)
      [.item (homeItem 5 10),.item (homeItem 15 20),.withdrawal (homeWithdraw 10) 30]).winner
        "home.alice.flagship.services".toList 50 =
    (run deliver (Store.new "fra1".toList "flagship.services".toList defaultCaps)
      [.withdrawal (homeWithdraw 10) 12,.item (homeItem 15 20),.item (homeItem 5 10),
        .item (homeItem 15 20)]).winner "home.alice.flagship.services".toList 50 := by
  have hs : Settled {homeItem 5 10,homeItem 15 20} {homeWithdraw 10} := by decide +kernel
  have hf : Fits {homeItem 5 10,homeItem 15 20} {homeWithdraw 10} defaultCaps :=
    ⟨by decide +kernel,by decide +kernel,by decide +kernel,by decide +kernel,by decide +kernel⟩
  refine ⟨hs,(winners_converge_iff _ _ _ _ _ _ _ _ hf hf).mpr hs _ _ ⟨?_,?_⟩ ⟨?_,?_⟩ _ _⟩
  all_goals simp only [List.mem_cons,List.not_mem_nil,Delivery.item.injEq,
    Delivery.withdrawal.injEq,reduceCtorEq,Finset.mem_insert,Finset.mem_singleton]
  all_goals aesop

/-- An older tunnel's item, issued later and refused for the newer tunnel's
item, is lost when that is withdrawn; had the withdrawal come first, it would win. -/
theorem refused_item_lost_to_withdrawal :
    ¬ ∀ l l', Delivers {homeItem 5 10,homeItem 3 20} {homeWithdraw 10} l →
      Delivers {homeItem 5 10,homeItem 3 20} {homeWithdraw 10} l' → ∀ name now,
      (run deliver (Store.new "ams1".toList "flagship.services".toList defaultCaps) l).winner name now =
        (run deliver (Store.new "fra1".toList "flagship.services".toList defaultCaps) l').winner
          name now := by
  intro h
  have hboth := h
    [.item (homeItem 5 10),.item (homeItem 3 20),.withdrawal (homeWithdraw 10) 30]
    [.withdrawal (homeWithdraw 10) 12,.item (homeItem 5 10),.item (homeItem 3 20)]
    ⟨by simp,by simp⟩ ⟨by simp,by simp⟩
    "home.alice.flagship.services".toList 50
  revert hboth
  decide +kernel

end Flagship.Mesh.Proofs

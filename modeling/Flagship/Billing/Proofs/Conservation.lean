import Flagship.Billing.Proofs.Usage

namespace Flagship.Billing.Proofs
open Lib

/-- What stays of a batch when it is tried again. -/
def tag (b : EdgeBatch) : Text × List EdgeItem := (b.id,b.items)

/-- The batches in the edge's hands, and those it dropped. -/
def places {σ : Type} (s : Metering σ) : List EdgeBatch :=
  s.book.inFlight.toList ++ s.book.retained.toList ++ s.dropped

def countedIds {σ : Type} (s : Metering σ) : List Text := s.counted.map CountedBatch.id

/-- Every unit used is pending or in one batch, and every batch was counted or is in
one place. -/
structure Placed {σ : Type} (s : Metering σ) : Prop where
  nonneg : Pendings (0 ≤ ·) s.book.states
  moved : ∀ a, units a s.used =
    pendingOf s.book.states a + (s.sent.map (fun b => units a b.items)).sum
  distinct : (s.sent.map EdgeBatch.id).Nodup
  single : ∀ b, s.book.inFlight = some b → s.book.retained = none
  nodup : ((places s).map tag).Nodup
  sent : ∀ t ∈ (places s).map tag, t ∈ s.sent.map tag
  placed : ∀ b ∈ s.sent, b.id ∈ countedIds s ∨ tag b ∈ (places s).map tag

/-- The store's counters are what the counted batches hold, each counted once. -/
structure Tallied {σ : Type} [MeterStore σ] (setup : MeterSetup) (s : Metering σ) : Prop where
  sent : ∀ id ∈ countedIds s, id ∈ s.sent.map EdgeBatch.id
  once : (countedIds s).Nodup
  answered : ∀ id ∈ s.answered, id ∈ countedIds s
  known : ∀ id now, MeterStore.remembers s.store id now = true → id ∈ countedIds s
  central : ∀ a p, s.central a setup p =
    ((s.countedIn p).map (fun b => wholeUnits a b.items)).sum

/-- A new batch gets an id no other had. -/
def FreshId {σ : Type} (s : Metering σ) : MeteringOp → Prop
  | .takeBatch _ _ newBatchId => newBatchId ∉ s.sent.map EdgeBatch.id
  | _ => True

/-- A batch central counted is on record whenever it comes again. -/
def Remembers {σ : Type} [MeterStore σ] (s : Metering σ) : MeteringOp → Prop
  | .deliver id now => id ∈ countedIds s → MeterStore.remembers s.store id now = true
  | _ => True

instance {σ : Type} (s : Metering σ) : ∀ op, Decidable (FreshId s op)
  | .takeBatch _ _ _ => inferInstanceAs (Decidable (_ ∉ _))
  | .use _ _ _ | .deliver _ _ | .settle _ _ | .failed _ _ | .prune _ => isTrue trivial

instance {σ : Type} [MeterStore σ] (s : Metering σ) : ∀ op, Decidable (Remembers s op)
  | .deliver _ _ => inferInstanceAs (Decidable (_ → _))
  | .use _ _ _ | .takeBatch _ _ _ | .settle _ _ | .failed _ _ | .prune _ => isTrue trivial

section
variable {σ : Type} {s s' : Metering σ}

/-- The batches moved among their places. -/
theorem Placed.rearrange (h : Placed s) (hp : ∀ a, pendingOf s'.book.states a = pendingOf s.book.states a)
    (hu : s'.used = s.used) (hs : s'.sent = s.sent)
    (hc : s'.counted = s.counted) (hsingle : ∀ b, s'.book.inFlight = some b → s'.book.retained = none)
    (hperm : ((places s').map tag).Perm ((places s).map tag)) : Placed s' where
  nonneg a := by rw [hp]; exact h.nonneg a
  moved a := by rw [hu,hs,hp,h.moved]
  distinct := hs ▸ h.distinct
  single := hsingle
  nodup := hperm.nodup_iff.mpr h.nodup
  sent t ht := hs ▸ h.sent t (hperm.mem_iff.mp ht)
  placed b hb := by
    rw [countedIds,hc,hperm.mem_iff]
    exact h.placed b (hs ▸ hb)

theorem placed_new [MeterStore σ] (opts : LeaseBookOptions) : Placed (.new opts : Metering σ) := by
  refine ⟨?_,?_,?_,?_,?_,?_,?_⟩
  · intro a
    simp [Metering.new,LeaseBook.new,pendingOf]
  · intro a
    simp [Metering.new,LeaseBook.new,units,pendingOf]
  all_goals simp [Metering.new,LeaseBook.new,places]

theorem Placed.use (h : Placed s) (account : Text) (amount : Rat) (now : Int) :
    Placed { s with
      book := (s.book.use account amount now).1
      used := if amount ≤ 0 then s.used else s.used ++ [⟨account,amount⟩] } := by
  by_cases hle : amount ≤ 0
  · simpa [LeaseBook.use,hle] using h
  · obtain ⟨hpending,hflight,hretained⟩ := use_effect s.book account amount now hle
    have hplaces : places { s with
        book := (s.book.use account amount now).1
        used := if amount ≤ 0 then s.used else s.used ++ [⟨account,amount⟩] } = places s := by
      simp only [places,hflight,hretained]
    refine ⟨fun a => ?_,fun a => ?_,h.distinct,fun b hb => ?_,hplaces ▸ h.nodup,
      hplaces ▸ h.sent,hplaces ▸ h.placed⟩
    · have hold := h.nonneg a
      rw [hpending]
      split
      · linarith
      · simpa using hold
    · simp only [hle,↓reduceIte,units_append,units_singleton,hpending,h.moved]
      ring
    · rw [hretained]
      exact h.single b (hflight ▸ hb)

/-- A batch that was counted leaves its place. -/
theorem Placed.settle (h : Placed s) {b : EdgeBatch} (hb : s.book.inFlight = some b)
    (hcounted : b.id ∈ countedIds s) (leases : OrdMap Text EdgeLease) (now : Int) :
    Placed { s with book := s.book.settle b leases now } := by
  have hkeep := keeps_settle s.book b leases now
  rw [land_inFlight hb] at hkeep
  have hretained : s.book.retained = none := h.single b hb
  have hplaces : places s = b :: s.dropped := by simp [places,hb,hretained]
  have hplaces' : places { s with book := s.book.settle b leases now } = s.dropped := by
    simp [places,hkeep.inFlight,hkeep.retained,hretained]
  refine ⟨fun a => ?_,fun a => ?_,h.distinct,fun x hx => ?_,?_,fun t ht => ?_,fun x hx => ?_⟩
  · rw [hkeep.pending]
    exact h.nonneg a
  · rw [hkeep.pending]
    exact h.moved a
  · rw [hkeep.inFlight] at hx
    cases hx
  · rw [hplaces']
    exact (List.nodup_cons.mp (hplaces ▸ h.nodup)).2
  · rw [hplaces'] at ht
    exact h.sent t (by rw [hplaces]; exact List.mem_cons_of_mem _ ht)
  · rcases h.placed x hx with hc | hp
    · exact .inl hc
    · rw [hplaces,List.map_cons,List.mem_cons] at hp
      rcases hp with heq | hp
      · have hid : x.id = b.id := congrArg Prod.fst heq
        exact .inl (hid ▸ hcounted)
      · exact .inr (by rw [hplaces']; exact hp)

theorem Placed.failed (h : Placed s) {b : EdgeBatch} (hb : s.book.inFlight = some b) (now : Int)
    (retry : Bool) :
    Placed { s with
      book := s.book.failed b now retry
      dropped := if retry then s.dropped else s.dropped ++ [b] } := by
  have hretained : s.book.retained = none := h.single b hb
  have hplaces : places s = b :: s.dropped := by simp [places,hb,hretained]
  cases retry with
  | true =>
    refine h.rearrange (fun a => ?_) rfl rfl rfl (fun x hx => ?_) ?_
    · simp [LeaseBook.failed,land_inFlight hb]
    · simp [LeaseBook.failed,land_inFlight hb] at hx
    · rw [hplaces]
      simp [places,LeaseBook.failed,land_inFlight hb,tag]
  | false =>
    refine h.rearrange (fun a => ?_) rfl rfl rfl (fun x hx => ?_) ?_
    · simp [LeaseBook.failed,land_inFlight hb]
    · simp [LeaseBook.failed,land_inFlight hb] at hx
    · rw [hplaces]
      simp only [places,LeaseBook.failed,land_inFlight hb,hretained,Bool.false_eq_true,↓reduceIte,
        Option.toList_none,List.nil_append,List.map_append,List.map_cons,List.map_nil]
      exact List.perm_append_singleton _ _

theorem Placed.prune (h : Placed s) (now : Int) : Placed { s with book := s.book.prune now } :=
  h.rearrange (keeps_prune h.nonneg now).pending rfl rfl rfl h.single (List.Perm.refl _)

/-- A new batch under a fresh id is one more place, and what was kept for too long
is dropped. -/
theorem Placed.fresh (h : Placed s) {book : LeaseBook} {items : List EdgeItem}
    {batch gone : Option EdgeBatch} {newBatchId : Text} (hflight : s.book.inFlight = none)
    (hgone : s.book.retained = gone)
    (htotal : ∀ a, pendingOf book.states a + units a items = pendingOf s.book.states a)
    (hnonneg : Pendings (0 ≤ ·) book.states) (hretained : book.retained = none)
    (hbook : book.inFlight = batch)
    (hbatch : batch = none ∧ items = [] ∨ ∃ b, batch = some b ∧ b.id = newBatchId ∧ b.items = items)
    (hfresh : newBatchId ∉ s.sent.map EdgeBatch.id) :
    Placed { s with
      book := book, sent := s.sent ++ batch.toList, dropped := s.dropped ++ gone.toList } := by
  have hold : places s = gone.toList ++ s.dropped := by simp [places,hflight,hgone]
  have hnew : places { s with
      book := book, sent := s.sent ++ batch.toList, dropped := s.dropped ++ gone.toList } =
      batch.toList ++ (s.dropped ++ gone.toList) := by
    simp [places,hbook,hretained]
  have hperm : ((batch.toList ++ (s.dropped ++ gone.toList)).map tag).Perm
      ((batch.toList ++ places s).map tag) := by
    rw [hold]
    exact ((List.perm_append_comm).append_left _).map _
  have hid : ∀ b ∈ batch, b.id = newBatchId ∧ b.items = items := by
    intro b hb
    rcases hbatch with ⟨hnone,-⟩ | ⟨b',hsome,hb'⟩
    · simp [hnone] at hb
    · obtain rfl : b' = b := by simpa [hsome] using hb
      exact hb'
  refine ⟨hnonneg,fun a => ?_,?_,fun b _ => hretained,?_,fun t ht => ?_,fun b hb => ?_⟩
  · have hsum : ((batch.toList).map (fun b => units a b.items)).sum = units a items := by
      rcases hbatch with ⟨rfl,rfl⟩ | ⟨b,rfl,-,rfl⟩
      · simp [units]
      · simp
    rw [List.map_append,List.sum_append,hsum,h.moved,← htotal a]
    ring
  · rw [List.map_append,List.nodup_append]
    refine ⟨h.distinct,?_,?_⟩
    · cases batch <;> simp
    · intro x hx y hy
      obtain ⟨b,hb,rfl⟩ := List.mem_map.mp hy
      rw [(hid b (by simpa using hb)).1]
      rintro rfl
      exact hfresh hx
  · rw [hnew,hperm.nodup_iff,List.map_append,List.nodup_append]
    refine ⟨?_,h.nodup,?_⟩
    · cases batch <;> simp
    · intro x hx y hy
      obtain ⟨b,hb,rfl⟩ := List.mem_map.mp hx
      obtain ⟨b',hb',rfl⟩ := List.mem_map.mp (h.sent y hy)
      intro heq
      have hsame : newBatchId = b'.id :=
        (hid b (by simpa using hb)).1.symm.trans (congrArg Prod.fst heq)
      exact hfresh (hsame ▸ List.mem_map_of_mem hb')
  · rw [hnew,hperm.mem_iff,List.map_append,List.mem_append] at ht
    rw [List.map_append,List.mem_append]
    rcases ht with ht | ht
    · exact .inr ht
    · exact .inl (h.sent t ht)
  · rw [hnew,hperm.mem_iff,List.map_append,List.mem_append]
    rcases List.mem_append.mp hb with hb | hb
    · exact (h.placed b hb).imp_right Or.inr
    · exact .inr (.inl (List.mem_map_of_mem hb))

theorem Placed.takeBatch [MeterStore σ] (h : Placed s) (now : Int) (mode : BatchMode) {newBatchId : Text}
    (hfresh : newBatchId ∉ s.sent.map EdgeBatch.id) : Placed (s.takeBatch now mode newBatchId) := by
  have htakes := takes_takeBatch s.book now mode newBatchId
  unfold Metering.takeBatch
  generalize s.book.takeBatch now mode newBatchId = r at htakes
  obtain ⟨book,batch⟩ := r
  simp only at htakes ⊢
  cases htakes with
  | @busy b hb => simpa [hb] using h
  | @again b _ hflight hkept hyoung hstates hbook hretained =>
    simp only [hflight,hkept,hyoung,Option.isSome_none,Option.isSome_some,Option.isNone_none,
      Bool.false_eq_true,Bool.and_self,↓reduceIte,List.append_nil,Option.toList_none]
    refine h.rearrange (fun a => by simp only [hstates]) rfl rfl rfl
      (fun _ _ => hretained) ?_
    simp [places,hflight,hkept,hbook,hretained,tag]
  | fresh _ items hflight hgone htotal hamounts hretained _ hbook hbatch =>
    have hno : (s.book.retained.isSome && (s.book.expired now).isNone) = false := by
      rw [hgone]
      cases s.book.expired now with
      | none => rfl
      | some b => rfl
    simp only [hflight,hno,Option.isSome_none,Bool.false_eq_true,↓reduceIte]
    exact h.fresh hflight hgone htotal (hamounts _ (le_refl 0) h.nonneg).1 hretained hbook hbatch hfresh

end

/-- A sum over some elements grows by one element more of another key. -/
theorem sum_filter_or {α κ : Type} [DecidableEq κ] (key : α → κ) {l : List α} {b : α} (q : α → Bool)
    (f : α → Rat) (hn : (l.map key).Nodup) (hb : b ∈ l) (hq : q b = false) :
    ((l.filter (fun x => q x || decide (key x = key b))).map f).sum =
      ((l.filter q).map f).sum + f b := by
  induction l with
  | nil => cases hb
  | cons x l ih =>
    obtain ⟨hnew,hrest⟩ := List.nodup_cons.mp hn
    by_cases hx : key x = key b
    · obtain rfl : x = b := by
        rcases List.mem_cons.mp hb with rfl | hb
        · rfl
        · exact absurd (List.mem_map.mpr ⟨b,hb,hx.symm⟩) hnew
      -- no later element has this key
      have hsame : l.filter (fun y => q y || decide (key y = key x)) = l.filter q := by
        refine List.filter_congr fun y hy => ?_
        have hne : key y ≠ key x := fun h => hnew (h ▸ List.mem_map_of_mem hy)
        simp [hne]
      simp only [List.filter_cons,hq,hsame,decide_true,Bool.or_true,↓reduceIte,List.map_cons,
        List.sum_cons,Bool.false_eq_true]
      ring
    · have hb' : b ∈ l := (List.mem_cons.mp hb).resolve_left (fun h => hx (h ▸ rfl))
      have hih := ih hrest hb'
      cases hqx : q x with
      | true =>
        simp only [List.filter_cons,hqx,hx,decide_false,Bool.or_false,↓reduceIte,List.map_cons,
          List.sum_cons,hih]
        ring
      | false => simpa [List.filter_cons,hqx,hx] using hih

section
variable {σ : Type} [MeterStore σ] {setup : MeterSetup} {s s' : Metering σ}

/-- Nothing central knows of changed. -/
theorem Tallied.of_eq (h : Tallied setup s) (hs : s'.sent = s.sent) (hc : s'.counted = s.counted)
    (ha : s'.answered = s.answered) (hstore : s'.store = s.store) : Tallied setup s' := by
  have hids : countedIds s' = countedIds s := by rw [countedIds,hc,countedIds]
  have hin : ∀ p, s'.countedIn p = s.countedIn p := fun p => by
    rw [Metering.countedIn,hs,hc,Metering.countedIn]
  refine ⟨fun id hid => ?_,hids ▸ h.once,fun id hid => ?_,fun id now hr => ?_,fun a p => ?_⟩
  · rw [hs]
    exact h.sent id (hids ▸ hid)
  · rw [hids]
    exact h.answered id (ha ▸ hid)
  · rw [hids]
    exact h.known id now (hstore ▸ hr)
  · rw [hin,← h.central a p,Metering.central,Metering.central,hstore]

theorem tallied_new [LawfulMeterStore σ] (opts : LeaseBookOptions) :
    Tallied setup (.new opts : Metering σ) := by
  refine ⟨?_,?_,?_,fun id now hr => ?_,fun a p => ?_⟩
  · simp [countedIds,Metering.new]
  · simp [countedIds,Metering.new]
  · simp [Metering.new]
  · rw [Metering.new,LawfulMeterStore.remembers_empty] at hr
    cases hr
  · simp [Metering.central,Metering.new,LawfulMeterStore.counters_empty,Counters.amount,
      Metering.countedIn]

/-- A batch sent under a fresh id is not counted yet. -/
theorem Tallied.send (h : Tallied setup s) {fresh : List EdgeBatch}
    (hfresh : ∀ b ∈ fresh, b.id ∉ s.sent.map EdgeBatch.id) (hs : s'.sent = s.sent ++ fresh)
    (hc : s'.counted = s.counted) (ha : s'.answered = s.answered) (hstore : s'.store = s.store) :
    Tallied setup s' := by
  have hids : countedIds s' = countedIds s := by rw [countedIds,hc,countedIds]
  have hin : ∀ p, s'.countedIn p = s.countedIn p := fun p => by
    rw [Metering.countedIn,hs,hc,List.filter_append,Metering.countedIn]
    have hnone : fresh.filter (fun b => s.counted.contains ⟨b.id,p⟩) = [] := by
      rw [List.filter_eq_nil_iff]
      intro b hb hcontains
      have hmem : (⟨b.id,p⟩ : CountedBatch) ∈ s.counted := by simpa using hcontains
      exact hfresh b hb (h.sent b.id (List.mem_map.mpr ⟨_,hmem,rfl⟩))
    rw [hnone,List.append_nil]
  refine ⟨fun id hid => ?_,hids ▸ h.once,fun id hid => ?_,fun id now hr => ?_,fun a p => ?_⟩
  · rw [hs,List.map_append,List.mem_append]
    exact .inl (h.sent id (hids ▸ hid))
  · rw [hids]
    exact h.answered id (ha ▸ hid)
  · rw [hids]
    exact h.known id now (hstore ▸ hr)
  · rw [hin,← h.central a p,Metering.central,Metering.central,hstore]

theorem Tallied.takeBatch (h : Tallied setup s) (now : Int) (mode : BatchMode) {newBatchId : Text}
    (hfresh : newBatchId ∉ s.sent.map EdgeBatch.id) :
    Tallied setup (s.takeBatch now mode newBatchId) := by
  have htakes := takes_takeBatch s.book now mode newBatchId
  unfold Metering.takeBatch
  generalize s.book.takeBatch now mode newBatchId = r at htakes
  obtain ⟨book,batch⟩ := r
  simp only at htakes ⊢
  refine h.send (fun b hb => ?_) rfl rfl rfl rfl
  cases htakes with
  | busy hb' => simp at hb
  | again _ hflight hkept hyoung hstates hbook hretained => simp [hflight,hkept,hyoung] at hb
  | fresh _ items hflight hgone htotal hamounts hretained _ hbook hbatch =>
    have hmem : b ∈ batch.toList := by
      simp only [hflight,Option.isSome_none,Bool.false_eq_true,↓reduceIte] at hb
      split at hb
      · cases hb
      · exact hb
    rcases hbatch with ⟨rfl,-⟩ | ⟨b',rfl,hid,-⟩
    · simp at hmem
    · simp only [Option.toList_some,List.mem_singleton] at hmem
      rw [hmem,hid]
      exact hfresh

/-- A batch on record comes again. -/
theorem Tallied.again (h : Tallied setup s) {b : EdgeBatch} {now : Int} {store : σ}
    (hseen : MeterStore.remembers s.store b.id now = true)
    (hknown : ∀ id t, MeterStore.remembers store id t = true →
      id = b.id ∨ MeterStore.remembers s.store id t = true)
    (hamount : ∀ a p, (MeterStore.counters store).amount a setup.resource p =
      (MeterStore.counters s.store).amount a setup.resource p) :
    Tallied setup { s with store := store, answered := s.answered ++ [b.id] } := by
  have hcounted := h.known b.id now hseen
  refine ⟨h.sent,h.once,fun x hx => ?_,fun x t hx => ?_,fun a p => ?_⟩
  · rcases List.mem_append.mp hx with hx | hx
    · exact h.answered x hx
    · exact List.mem_singleton.mp hx ▸ hcounted
  · rcases hknown x t hx with rfl | hx
    · exact hcounted
    · exact h.known x t hx
  · exact (hamount a p).trans (h.central a p)

/-- A batch comes for the first time and is counted in a period. -/
theorem Tallied.count (h : Tallied setup s) {b : EdgeBatch} {period : Text} {store : σ}
    (hdistinct : (s.sent.map EdgeBatch.id).Nodup) (hb : b ∈ s.sent) (hnew : b.id ∉ countedIds s)
    (hknown : ∀ id t, MeterStore.remembers store id t = true →
      id = b.id ∨ MeterStore.remembers s.store id t = true)
    (hamount : ∀ a p, (MeterStore.counters store).amount a setup.resource p =
      (MeterStore.counters s.store).amount a setup.resource p +
        if p = period then wholeUnits a b.items else 0) :
    Tallied setup { s with
      store := store, answered := s.answered ++ [b.id], counted := s.counted ++ [⟨b.id,period⟩] } := by
  have hids : ∀ x, x ∈ countedIds { s with
      store := store, answered := s.answered ++ [b.id], counted := s.counted ++ [⟨b.id,period⟩] } ↔
      x ∈ countedIds s ∨ x = b.id := by
    intro x
    simp [countedIds]
  refine ⟨fun x hx => ?_,?_,fun x hx => ?_,fun x t hx => ?_,fun a p => ?_⟩
  · rcases (hids x).mp hx with hx | rfl
    · exact h.sent x hx
    · exact List.mem_map_of_mem hb
  · rw [countedIds,List.map_append,List.nodup_append]
    refine ⟨h.once,by simp,fun x hx y hy => ?_⟩
    simp only [List.map_cons,List.map_nil,List.mem_singleton] at hy
    rintro rfl
    exact hnew (hy ▸ hx)
  · rw [hids]
    rcases List.mem_append.mp hx with hx | hx
    · exact .inl (h.answered x hx)
    · exact .inr (List.mem_singleton.mp hx)
  · rw [hids]
    rcases hknown x t hx with rfl | hx
    · exact .inr rfl
    · exact .inl (h.known x t hx)
  · have hcentral := h.central a p
    unfold Metering.central at hcentral ⊢
    rw [hamount a p,hcentral,Metering.countedIn,Metering.countedIn]
    by_cases hper : p = period
    · have hnot : s.counted.contains ⟨b.id,p⟩ = false := by
        rw [Bool.eq_false_iff]
        intro hc
        exact hnew (List.mem_map.mpr ⟨⟨b.id,p⟩,by simpa using hc,rfl⟩)
      rw [if_pos hper,← sum_filter_or EdgeBatch.id _ _ hdistinct hb hnot]
      refine congrArg (fun l => (List.map (fun x : EdgeBatch => wholeUnits a x.items) l).sum)
        (List.filter_congr fun x _ => ?_)
      simp [hper]
    · rw [if_neg hper,add_zero]
      refine congrArg (fun l => (List.map (fun x : EdgeBatch => wholeUnits a x.items) l).sum)
        (List.filter_congr fun x _ => ?_)
      simp [hper]

variable [LawfulMeterStore σ]

/-- What a batch that reaches central changes: nothing at the edge, and central
counts it unless it is on record or refused. -/
theorem deliver_cases {id : Text} {now : Int} (hp : Placed s) (ht : Tallied setup s)
    (hrem : Remembers s (.deliver id now)) :
    (∃ store answered counted, s.deliver setup id now =
      { s with store := store, answered := answered, counted := s.counted ++ counted }) ∧
    Tallied setup (s.deliver setup id now) := by
  unfold Metering.deliver
  split
  · exact ⟨⟨s.store,s.answered,[],by simp⟩,ht⟩
  rename_i b hfind
  have hb : b ∈ s.sent := List.mem_of_find?_eq_some hfind
  obtain rfl : b.id = id := by simpa using List.find?_some hfind
  split
  · exact ⟨⟨s.store,s.answered,[],by simp⟩,ht⟩
  rename_i store answer hreport
  obtain ⟨hdup,hknown,hamount⟩ := meterReport_spec hreport
  cases hseen : MeterStore.remembers s.store b.id now with
  | true =>
    simp only [hdup,hseen,↓reduceIte]
    refine ⟨⟨store,s.answered ++ [b.id],[],by simp⟩,ht.again hseen hknown fun a p => ?_⟩
    simpa [hseen] using hamount a p
  | false =>
    have hnew : b.id ∉ countedIds s := fun hc => by simp [hrem hc] at hseen
    simp only [hdup,hseen,Bool.false_eq_true,↓reduceIte]
    refine ⟨⟨store,s.answered ++ [b.id],_,rfl⟩,ht.count hp.distinct hb hnew hknown fun a p => ?_⟩
    simpa [hseen] using hamount a p

theorem Placed.deliver {id : Text} {now : Int} (hp : Placed s) (ht : Tallied setup s)
    (hrem : Remembers s (.deliver id now)) : Placed (s.deliver setup id now) := by
  obtain ⟨⟨store,answered,counted,heq⟩,-⟩ := deliver_cases hp ht hrem
  rw [heq]
  refine ⟨hp.nonneg,hp.moved,hp.distinct,hp.single,hp.nodup,hp.sent,fun b hb => ?_⟩
  refine (hp.placed b hb).imp_left fun hc => ?_
  rw [countedIds,List.map_append,List.mem_append]
  exact .inl hc

/-- Both hold after every step of a run whose ids are fresh and remembered. -/
theorem balanced_step (s : Metering σ) (op : MeteringOp) (h : Placed s ∧ Tallied setup s)
    (hop : FreshId s op ∧ Remembers s op) :
    Placed (s.step setup op) ∧ Tallied setup (s.step setup op) := by
  obtain ⟨hp,ht⟩ := h
  cases op with
  | use account amount now => exact ⟨hp.use account amount now,ht.of_eq rfl rfl rfl rfl⟩
  | takeBatch now mode newBatchId =>
    exact ⟨hp.takeBatch now mode hop.1,ht.takeBatch now mode hop.1⟩
  | deliver id now => exact ⟨hp.deliver ht hop.2,(deliver_cases hp ht hop.2).2⟩
  | settle leases now =>
    simp only [Metering.step]
    split
    · exact ⟨hp,ht⟩
    rename_i b hb
    split
    · rename_i hanswered
      exact ⟨hp.settle hb (ht.answered b.id hanswered) leases now,ht.of_eq rfl rfl rfl rfl⟩
    · exact ⟨hp,ht⟩
  | failed now retry =>
    simp only [Metering.step]
    split
    · exact ⟨hp,ht⟩
    · rename_i b hb
      exact ⟨hp.failed hb now retry,ht.of_eq rfl rfl rfl rfl⟩
  | prune now => exact ⟨hp.prune now,ht.of_eq rfl rfl rfl rfl⟩

end
end Flagship.Billing.Proofs

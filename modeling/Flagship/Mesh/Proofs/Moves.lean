import Flagship.Lib.While
import Flagship.Mesh.Moves
import Flagship.Mesh.Proofs.Convergence

namespace Flagship.Mesh.Proofs
open Lib Mesh
open Access (Ed25519)

section
variable {window : List RebalanceWindow} {home target : Text}

/-- No relay has more bytes than the total. -/
theorem share_le_total (window : List RebalanceWindow) (id : Text) :
    ((traffic window).bytes.get? id).getD 0 ≤ (traffic window).total := by
  suffices h : (traffic window).total < 2 ^ 128 ∧
      ∀ id,((traffic window).bytes.get? id).getD 0 ≤ (traffic window).total from h.2 id
  refine foldl_keeps (I := fun t : Traffic => t.total < 2 ^ 128 ∧
    ∀ id,(t.bytes.get? id).getD 0 ≤ t.total) window ?_ ⟨by decide,fun id => Nat.zero_le _⟩
  intro t w _ ⟨htop,h⟩
  refine ⟨?_,fun id => ?_⟩
  · simp only [Traffic.add,saturatingAdd128]
    omega
  · have hid := h id
    have hw := h w.relayId
    simp only [Traffic.add,OrdMap.get?_set,saturatingAdd128]
    split
    · rw [Option.getD_some]
      omega
    · omega

/-- What `compareShares` compares, as one ordered key. -/
def shareRank (e : Text × Nat) : ℕ ×ₗ Textᵒᵈ := toLex (e.2,OrderDual.toDual e.1)

theorem compareShares_gt (a b : Text × Nat) :
    compareShares a b = .gt ↔ shareRank b < shareRank a := by
  rw [compareShares,Ordering.then_eq_gt,cmp_text_gt,cmp_eq_gt_iff,cmp_eq_eq_iff]
  simp only [shareRank,Prod.Lex.toLex_lt_toLex,OrderDual.toDual_lt_toDual,@eq_comm _ a.2]

theorem topRelay_spec {bytes : OrdMap Text Nat} {bt : Nat}
    (h : topRelay bytes home = some (target,bt)) :
    bytes.get? target = some bt ∧ target ≠ home ∧ 0 < bt ∧
      ∀ id,id ≠ home → (bytes.get? id).getD 0 ≤ bt := by
  obtain ⟨hmem,hmax⟩ := maxBy_spec compareShares_gt h
  obtain ⟨hin,hof⟩ := List.mem_filter.mp hmem
  obtain ⟨hne,hpos⟩ := of_decide_eq_true hof
  refine ⟨bytes.mem_entries.mp ((OrdMap.entries_sorted bytes).mem_iff.mp hin),hne,hpos,?_⟩
  intro id hid
  cases hv : bytes.get? id with
  | none => exact Nat.zero_le _
  | some v =>
    rw [Option.getD_some]
    by_cases hv0 : v = 0
    · omega
    · have hsorted := (OrdMap.entries_sorted bytes).mem_iff.mpr (bytes.mem_entries.mpr hv)
      have hle := hmax (id,v) (List.mem_filter.mpr
        ⟨hsorted,decide_eq_true ⟨hid,Nat.pos_of_ne_zero hv0⟩⟩)
      rcases Prod.Lex.toLex_le_toLex.mp hle with hlt | ⟨heq,-⟩
      · exact hlt.le
      · exact heq.le

/-- What a decision to move says of the window: the target leads the home. -/
theorem rebalanceDecision_ok {relays : List RebalanceRelay} {lastMoveAt : Option Nat}
    {hasLegacyBox : Bool} {now : Nat}
    (h : rebalanceDecision home window relays lastMoveAt hasLegacyBox now = .ok target) :
    ∃ bt,topRelay (traffic window).bytes home = some (target,bt) ∧
      saturatingMul128 rebalanceMinLeadTenths (traffic window).total ≤
        saturatingMul128 (bt - ((traffic window).bytes.get? home).getD 0) 10 ∧
      ((traffic window).bytes.get? home).getD 0 ≤ bt := by
  unfold rebalanceDecision at h
  obtain ⟨-,h⟩ := unless_ok h
  obtain ⟨-,h⟩ := unless_ok h
  obtain ⟨-,h⟩ := unless_ok h
  cases htop : topRelay (traffic window).bytes home with
  | none =>
    rw [htop] at h
    cases h
  | some top =>
    obtain ⟨found,bt⟩ := top
    rw [htop] at h
    obtain ⟨-,h⟩ := unless_ok h
    obtain ⟨hlead,h⟩ := unless_ok h
    cases hr : relays.find? (fun r => decide (r.relayId = found)) with
    | none =>
      rw [hr] at h
      cases h
    | some r =>
      rw [hr] at h
      obtain ⟨-,h⟩ := unless_ok h
      obtain ⟨-,h⟩ := unless_ok h
      obtain ⟨-,h⟩ := unless_ok h
      obtain ⟨-,h⟩ := unless_ok h
      cases h
      rw [not_or,Nat.not_lt,Nat.not_lt] at hlead
      exact ⟨bt,rfl,hlead⟩

/-- After a move the home has the most bytes, so nothing leads it. -/
theorem home_stays {relays relays' : List RebalanceRelay} {lastMoveAt lastMoveAt' : Option Nat}
    {hasLegacyBox hasLegacyBox' : Bool} {now now' : Nat} {next : Text}
    (h : rebalanceDecision home window relays lastMoveAt hasLegacyBox now = .ok target) :
    rebalanceDecision target window relays' lastMoveAt' hasLegacyBox' now' ≠ .ok next := by
  intro h'
  obtain ⟨bt,htop,-,hhome⟩ := rebalanceDecision_ok h
  obtain ⟨hget,-,hpos,hmost⟩ := topRelay_spec htop
  obtain ⟨bn,htop',hlead,hle⟩ := rebalanceDecision_ok h'
  obtain ⟨hget',-,-,-⟩ := topRelay_spec htop'
  rw [hget,Option.getD_some] at hlead hle
  have hbn : bn ≤ bt := by
    by_cases hn : next = home
    · subst hn
      rw [hget',Option.getD_some] at hhome
      exact hhome
    · have hm := hmost next hn
      rw [hget',Option.getD_some] at hm
      exact hm
  have htotal := share_le_total window target
  rw [hget,Option.getD_some] at htotal
  have hzero : bn - bt = 0 := Nat.sub_eq_zero_of_le hbn
  rw [hzero] at hlead
  simp only [saturatingMul128,rebalanceMinLeadTenths] at hlead
  omega

end

/-- What a decision depends on beside the home and the window. -/
structure Circumstances where
  relays : List RebalanceRelay
  lastMoveAt : Option Nat
  hasLegacyBox : Bool
  now : Nat

/-- The moves of repeated decisions on one window, each from the home the last one left. -/
def movesOn (window : List RebalanceWindow) : Text → List Circumstances → List Text
  | _,[] => []
  | home,c :: cs =>
    match rebalanceDecision home window c.relays c.lastMoveAt c.hasLegacyBox c.now with
    | .error _ => movesOn window home cs
    | .ok target => target :: movesOn window target cs

theorem movesOn_nil {window : List RebalanceWindow} {home : Text} (h : ∀ (c : Circumstances) next,
    rebalanceDecision home window c.relays c.lastMoveAt c.hasLegacyBox c.now ≠ .ok next)
    (cs : List Circumstances) : movesOn window home cs = [] := by
  induction cs with
  | nil => rfl
  | cons c cs ih =>
    rw [movesOn]
    split
    · exact ih
    · rename_i next hnext
      exact absurd hnext (h c next)

/-- Rebalancing is stable: where a window moved an account once, it moves it no further. -/
theorem rebalancing_settles (window : List RebalanceWindow) :
    (∀ home target (c : Circumstances),
      rebalanceDecision home window c.relays c.lastMoveAt c.hasLegacyBox c.now = .ok target →
      ∀ (c' : Circumstances) next,
        rebalanceDecision target window c'.relays c'.lastMoveAt c'.hasLegacyBox c'.now ≠ .ok next) ∧
    ∀ home cs,(movesOn window home cs).length ≤ 1 := by
  refine ⟨fun home target c h c' next => home_stays h,?_⟩
  intro home cs
  induction cs with
  | nil => exact Nat.zero_le 1
  | cons c cs ih =>
    rw [movesOn]
    split
    · exact ih
    · rename_i target htarget
      rw [movesOn_nil (fun c' next => home_stays htarget)]
      exact Nat.le_refl 1

/-- A hint the box acts on came at a time its rate state allows. -/
theorem checkMoveHint_ok [Ed25519] {c : MoveHintCheck} (h : checkMoveHint c = .ok ()) :
    rateLimited c.rate c.hint.reason c.now = false := by
  unfold checkMoveHint at h
  cases hc : moveHintCanonical c.hint with
  | none =>
    simp only [hc] at h
    cases h
  | some canonical =>
    simp only [hc] at h
    iterate 12 replace h := (unless_ok h).2
    exact Bool.eq_false_of_not_eq_true (unless_ok h).1

/-- The accepted times of a reason, in their order. -/
def timesOf (reason : Text) (accepted : List (Text × Nat)) : List Nat :=
  (accepted.filter fun a => decide (a.1 = reason)).map Prod.snd

theorem timesOf_append (reason : Text) (accepted : List (Text × Nat)) (a : Text × Nat) :
    timesOf reason (accepted ++ [a]) =
      timesOf reason accepted ++ if a.1 = reason then [a.2] else [] := by
  unfold timesOf
  rw [List.filter_append,List.map_append]
  by_cases h : a.1 = reason <;> simp [h]

/-- How many of the times lie in the day from one time on. -/
def countDay (times : List Nat) (start : Nat) : Nat :=
  (times.filter fun t => decide (start ≤ t ∧ t < start + dayMs)).length

/-- What the rate state knows of the accepted hints, and what that kept them to. -/
structure Spaced (b : MovingBox) (now : Nat) : Prop where
  past : ∀ a ∈ b.accepted,a.2 ≤ now
  known : (inDay (timesOf coLocate b.accepted) now).Sublist b.rate.coLocateAt
  lastKnown : ∀ t ∈ timesOf locality b.accepted,∃ l,b.rate.lastLocalityAt = some l ∧ t ≤ l ∧ l ≤ now
  perDay : ∀ start,countDay (timesOf coLocate b.accepted) start ≤ moveColocateMaxPerDay
  apart : (timesOf coLocate b.accepted).Pairwise fun s t => s + moveColocateMinMs ≤ t
  localApart : (timesOf locality b.accepted).Pairwise fun s t => s + moveLocalityMinMs ≤ t

theorem mem_timesOf {reason : Text} {accepted : List (Text × Nat)} {t : Nat}
    (h : t ∈ timesOf reason accepted) : (reason,t) ∈ accepted := by
  obtain ⟨⟨r,t'⟩,hmem,rfl⟩ := List.mem_map.mp h
  obtain ⟨hin,hr⟩ := List.mem_filter.mp hmem
  rw [← of_decide_eq_true hr]
  exact hin

/-- A later day knows no earlier time that this one does not. -/
theorem inDay_later {times known : List Nat} {now later : Nat} (hle : now ≤ later)
    (h : (inDay times now).Sublist known) : (inDay times later).Sublist (inDay known later) := by
  have heq : inDay times later = inDay (inDay times now) later := by
    unfold inDay
    rw [List.filter_filter]
    refine List.filter_congr fun t _ => ?_
    by_cases ht : later - t < dayMs
    · have hnow : now - t < dayMs := by omega
      simp [ht,hnow]
    · simp [ht]
  rw [heq]
  exact h.filter _

theorem Spaced.later {b : MovingBox} {now later : Nat} (h : Spaced b now) (hle : now ≤ later) :
    Spaced b later where
  past a ha := (h.past a ha).trans hle
  known := (inDay_later hle h.known).trans (List.filter_sublist)
  lastKnown t ht := by
    obtain ⟨l,hl,htl,hln⟩ := h.lastKnown t ht
    exact ⟨l,hl,htl,hln.trans hle⟩
  perDay := h.perDay
  apart := h.apart
  localApart := h.localApart

theorem Spaced.failed {b : MovingBox} {now : Nat} (h : Spaced b now) (relayId : Text) :
    Spaced { b with rate := recordMoveTargetFailed b.rate relayId now } now :=
  ⟨h.past,h.known,h.lastKnown,h.perDay,h.apart,h.localApart⟩

/-- Of the day that ends now, every accepted time is known. -/
theorem countDay_le {times known : List Nat} {now start : Nat}
    (hknown : (inDay times now).Sublist known) (hend : now < start + dayMs) :
    countDay times start ≤ (inDay known now).length := by
  have hsub : (times.filter fun t => decide (start ≤ t ∧ t < start + dayMs)).Sublist
      (inDay times now) := by
    refine List.monotone_filter_right times fun t => ?_
    simp only [decide_eq_true_eq]
    omega
  have hday := inDay_later (Nat.le_refl now) hknown
  exact (hsub.trans hday).length_le

theorem countDay_append (times : List Nat) (now start : Nat) :
    countDay (times ++ [now]) start =
      countDay times start + if start ≤ now ∧ now < start + dayMs then 1 else 0 := by
  unfold countDay
  rw [List.filter_append,List.length_append]
  by_cases h : start ≤ now ∧ now < start + dayMs <;> simp [h]

/-- What the limits say of a time at which they let a hint through. -/
theorem rateLimited_eq_false {rate : MoveHintRateState} {reason : Text} {now : Nat}
    (h : rateLimited rate reason now = false) :
    (reason = locality → ∀ l,rate.lastLocalityAt = some l → l + moveLocalityMinMs ≤ now) ∧
    (reason = coLocate → (inDay rate.coLocateAt now).length < moveColocateMaxPerDay ∧
      ∀ t ∈ inDay rate.coLocateAt now,t + moveColocateMinMs ≤ now) := by
  constructor
  · rintro rfl l hl
    have hmin : 0 < moveLocalityMinMs := by decide
    rw [rateLimited,if_pos rfl,hl,Option.any_some,decide_eq_false_iff_not] at h
    omega
  · rintro rfl
    have hmin : 0 < moveColocateMinMs := by decide
    have hne : coLocate ≠ locality := by decide
    simp only [rateLimited,if_neg hne,if_true,Bool.or_eq_false_iff,List.any_eq_false,
      decide_eq_true_eq,decide_eq_false_iff_not] at h
    refine ⟨by omega,fun t ht => ?_⟩
    have hapart := h.1 t ht
    omega

theorem pairwise_append_one {gap now : Nat} {times : List Nat}
    (h : times.Pairwise fun s t => s + gap ≤ t) (hnow : ∀ t ∈ times,t + gap ≤ now) :
    (times ++ [now]).Pairwise fun s t => s + gap ≤ t := by
  refine List.pairwise_append.mpr ⟨h,List.pairwise_singleton _ _,fun t ht u hu => ?_⟩
  rw [List.mem_singleton.mp hu]
  exact hnow t ht

/-- A hint the rate state allows, recorded. -/
theorem Spaced.record {b : MovingBox} {reason : Text} {now : Nat} (h : Spaced b now)
    (hrate : rateLimited b.rate reason now = false) :
    Spaced ⟨recordMoveHint b.rate reason now,b.accepted ++ [(reason,now)]⟩ now := by
  obtain ⟨hlocal,hco⟩ := rateLimited_eq_false hrate
  have hknown := inDay_later (Nat.le_refl now) h.known
  refine ⟨List.forall_mem_append.mpr ⟨h.past,by simp⟩,?_,?_,?_,?_,?_⟩
  · dsimp only [recordMoveHint]
    rw [timesOf_append,inDay,List.filter_append]
    refine List.Sublist.append hknown ?_
    have hday : 0 < dayMs := by decide
    split <;> simp [hday]
  · intro t ht
    rw [timesOf_append] at ht
    dsimp only [recordMoveHint]
    by_cases hr : reason = locality
    · rw [if_pos hr] at ht ⊢
      refine ⟨now,rfl,?_,Nat.le_refl now⟩
      rcases List.mem_append.mp ht with ht | ht
      · exact h.past _ (mem_timesOf ht)
      · exact (List.mem_singleton.mp ht).le
    · rw [if_neg hr,List.append_nil] at ht
      rw [if_neg hr]
      exact h.lastKnown t ht
  · intro start
    dsimp only
    rw [timesOf_append]
    by_cases hr : reason = coLocate
    · rw [if_pos hr,countDay_append]
      split
      · rename_i hin
        have hcount := countDay_le h.known hin.2
        have hroom := (hco hr).1
        omega
      · exact h.perDay start
    · rw [if_neg hr,List.append_nil]
      exact h.perDay start
  · dsimp only
    rw [timesOf_append]
    by_cases hr : reason = coLocate
    · rw [if_pos hr]
      refine pairwise_append_one h.apart fun t ht => ?_
      by_cases hday : now - t < dayMs
      · exact (hco hr).2 t (hknown.subset (List.mem_filter.mpr ⟨ht,decide_eq_true hday⟩))
      · have hmin : moveColocateMinMs < dayMs := by decide
        omega
    · rw [if_neg hr,List.append_nil]
      exact h.apart
  · dsimp only
    rw [timesOf_append]
    by_cases hr : reason = locality
    · rw [if_pos hr]
      refine pairwise_append_one h.localApart fun t ht => ?_
      obtain ⟨l,hl,htl,-⟩ := h.lastKnown t ht
      have hnow := hlocal hr l hl
      omega
    · rw [if_neg hr,List.append_nil]
      exact h.localApart

section
variable [Ed25519]

theorem Spaced.step {b : MovingBox} {e : MoveEvent} (h : Spaced b e.now) :
    Spaced (b.step e) e.now := by
  cases e with
  | failed relayId now => exact h.failed relayId
  | hint c =>
    cases hc : checkMoveHint { c with rate := b.rate } with
    | error _ =>
      simp only [MovingBox.step,hc]
      exact h
    | ok _ =>
      simp only [MovingBox.step,hc]
      exact h.record (checkMoveHint_ok hc)

theorem Spaced.run {b : MovingBox} {now : Nat} (h : Spaced b now) {es : List MoveEvent}
    (hnow : ∀ e ∈ es,now ≤ e.now) (hmono : es.Pairwise fun e e' => e.now ≤ e'.now) :
    ∃ last,Spaced (b.run es) last := by
  induction es generalizing b now with
  | nil => exact ⟨now,h⟩
  | cons e es ih =>
    obtain ⟨hfirst,hrest⟩ := List.pairwise_cons.mp hmono
    exact ih (h.later (hnow e List.mem_cons_self)).step hfirst hrest

end

end Flagship.Mesh.Proofs

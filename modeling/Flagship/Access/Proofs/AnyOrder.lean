import Mathlib.Data.List.MinMax
import Flagship.Access.Proofs.Registers
import Flagship.Access.Proofs.Withdrawals

namespace Flagship.Access
open Lib
open Row (removeKey)

/-- Whether someone has a rank is whether they are refused. -/
theorem rankUnder_isSome {p : Person} {catching : Bool} {set set' : Option Text}
    (h : decide (set = some "refused".toList) = decide (set' = some "refused".toList)) :
    (rankUnder p catching set).isSome = (rankUnder p catching set').isSome := by
  rw [decide_eq_decide] at h
  unfold rankUnder
  by_cases hset : set = some "refused".toList
  · rw [if_pos hset,if_pos (h.mp hset)]
  · rw [if_neg hset,if_neg (mt h.mpr hset)]
    cases p with
    | device k tier legacy => rfl
    | coManager c => cases catching <;> rfl

section
variable [Lowercase]

/-- Somebody who is on no box of the account, while the app's list is not being
caught up: whether they are allowed is whether they are on the list. -/
def Guest (people : People) (f : Facts) (r x : Text) : Prop :=
  people.classify x = none ∧ f.catchingUp.contains r = false

/-- An entry of the list withdraws the invite. -/
def Withdraws (l : List AccessEntry) (i : Text) : Prop := ∃ e ∈ l, terms e = some (.withdraw i)

/-- An entry of the list removes the person, later than the store last did. -/
def Removes (r : Text) (s : Store) (l : List AccessEntry) (x : Text) : Prop :=
  ∃ e ∈ l, ∃ t, terms e = some (.remove x t) ∧ (s.entry r).stale (removeKey x) t = false

/-- The entry is a join of the person through the invite, in time and later than
the store last removed them. -/
def Joins (r : Text) (s : Store) (e : AccessEntry) (i x : Text) : Prop :=
  ∃ t expiresAt m, terms e = some (.join i x t expiresAt m) ∧ inTime t expiresAt = true ∧
    (s.entry r).stale (removeKey x) t = false

theorem withdraws_snoc {p : List AccessEntry} {e : AccessEntry} {i : Text} :
    Withdraws (p ++ [e]) i ↔ Withdraws p i ∨ terms e = some (.withdraw i) := by
  simp only [Withdraws,List.mem_append,List.mem_singleton]
  constructor
  · rintro ⟨e',he | rfl,ht⟩
    · exact Or.inl ⟨e',he,ht⟩
    · exact Or.inr ht
  · rintro (⟨e',he,ht⟩ | ht)
    · exact ⟨e',Or.inl he,ht⟩
    · exact ⟨e,Or.inr rfl,ht⟩

variable {r : Text} {s0 : Store} {l : List AccessEntry} {answer : AccessEntry → Bool}
  {e : AccessEntry} {x : Text}

/-- The person is on the list without an invite. -/
def Loose (r : Text) (s : Store) (x : Text) : Prop :=
  x ∈ (s.entry r).allow ∧ ∀ i, ¬ (s.entry r).InGroup i x

/-- Where a person whom nothing removes stands after some of the entries. -/
structure Kept (r : Text) (s0 : Store) (l : List AccessEntry) (answer : AccessEntry → Bool)
    (x : Text) (p : List AccessEntry) (s : Store) : Prop where
  stale : ∀ t, (s.entry r).stale (removeKey x) t = (s0.entry r).stale (removeKey x) t
  groups : ∀ i, ¬ Withdraws l i → ((s.entry r).InGroup i x ↔
    (s0.entry r).InGroup i x ∨ ∃ e ∈ p, Joins r s0 e i x ∧ answer e = true)
  loose : Loose r s0 x → ∀ i, Withdraws l i → ¬ (s.entry r).InGroup i x
  allow : x ∈ (s.entry r).allow ↔ Loose r s0 x ∨ ∃ i, (s.entry r).InGroup i x

theorem kept_start (hl : ∀ i, (s0.entry r).InGroup i x → x ∈ (s0.entry r).allow) :
    Kept r s0 l answer x [] s0 := by
  refine ⟨fun _ => rfl,fun i _ => by simp,fun h i _ => h.2 i,?_⟩
  constructor
  · intro h
    by_cases hi : ∃ i, (s0.entry r).InGroup i x
    · exact Or.inr hi
    · exact Or.inl ⟨h,not_exists.mp hi⟩
  · rintro (h | ⟨i,h⟩)
    · exact h.1
    · exact hl i h

theorem joins_snoc {p : List AccessEntry} {i : Text} :
    (∃ e' ∈ p ++ [e], Joins r s0 e' i x ∧ answer e' = true) ↔
      (∃ e' ∈ p, Joins r s0 e' i x ∧ answer e' = true) ∨ Joins r s0 e i x ∧ answer e = true := by
  simp only [List.mem_append,List.mem_singleton]
  constructor
  · rintro ⟨e',he | rfl,h⟩
    · exact Or.inl ⟨e',he,h⟩
    · exact Or.inr h
  · rintro (⟨e',he,h⟩ | h)
    · exact ⟨e',Or.inl he,h⟩
    · exact ⟨e,Or.inr rfl,h⟩

/-- Where a person who is removed stands after some of the entries: past the
newest removal they are on the list through withdrawn invites only. -/
structure Cleared (r : Text) (s0 : Store) (l : List AccessEntry) (x : Text) (top : Rat)
    (p : List AccessEntry) (s : Store) : Prop where
  saw : Latest.Saw (removalAt r x s0) (p.filterMap (removeOp x)) (removalAt r x s)
  out : (top,()) ∈ p.filterMap (removeOp x) →
    (x ∈ (s.entry r).allow → ∃ i, (s.entry r).InGroup i x) ∧
    ∀ i, ¬ Withdraws l i → ¬ (s.entry r).InGroup i x

/-- A remove order is stale by those of the entries so far. -/
theorem Cleared.stale {s : Store} {top : Rat} {p : List AccessEntry} (h : Cleared r s0 l x top p s) (t : Nat) :
    (s.entry r).stale (removeKey x) t = true ↔ (s0.entry r).stale (removeKey x) t = true ∨
      ∃ op ∈ p.filterMap (removeOp x), (f64OfNat t : Rat) ≤ op.1 := by
  rw [← registerAt_stale _ _ (),← registerAt_stale _ _ ()]
  exact h.saw.stale _

variable [Ed25519]

/-- What the list has to meet for its order not to matter. -/
structure Orderly (people : People) (f : Facts) (r : Text) (s : Store) (l : List AccessEntry) :
    Prop where
  modes : (modeAt r s).Decided (l.filterMap modeOp) id
  ranks : ∀ x p, people.classify x = some p → (rankAt r (rankKey p) s).Decided
    (l.filterMap (rankOp people f r (rankKey p))) (fun set => decide (set = some "refused".toList))
  named : ∀ e ∈ l, Named e
  /-- No join outlives a removal but through an invite that goes too. -/
  removes : ∀ x, Guest people f r x → Removes r s l x → ∀ e ∈ l, ∀ i t expiresAt m,
    terms e = some (.join i x t expiresAt m) → inTime t expiresAt = true → ¬ Withdraws l i →
    ∃ e' ∈ l, ∃ t', terms e' = some (.remove x t') ∧ f64OfNat t ≤ f64OfNat t'
  listed : ∀ i x, Guest people f r x → (s.entry r).InGroup i x → x ∈ (s.entry r).allow
  /-- Nobody on the list without an invite joins through one that is withdrawn. -/
  ungrouped : ∀ x, Guest people f r x → x ∈ (s.entry r).allow →
    (∀ i, ¬ (s.entry r).InGroup i x) → ¬ Removes r s l x →
    ∀ e ∈ l, ∀ i, Withdraws l i → ¬ Joins r s e i x

/-- The entry verifies where it is handed over, and there is room on the list. -/
structure Taken (people : People) (f : Facts) (r : Text) (s : Store) (e : AccessEntry) : Prop where
  verifies : Verifies people f r s e
  room : (s.entry r).allow.length < allowListCap

/-- What an entry has to meet where it is handed over. A withdraw of an invite
somebody joined through prunes. A join through an invite of which a withdraw is
held and the list has one is turned away for it; one through any other invite
gets a fixed answer on the withdraws held and on its maker's standing. -/
structure Fits (people : People) (f : Facts) (r : Text) (s0 : Store) (l : List AccessEntry)
    (answer : AccessEntry → Bool) (s : Store) (e : AccessEntry) : Prop where
  withdraw : ∀ rv signature x, Says people f r s e (.withdraw rv signature) →
    Guest people f r x → (s.entry r).InGroup rv.inviteId x → prunes people f r s rv signature = true
  held : ∀ c x t, Says people f r s e (.join c x t) → Guest people f r x →
    inTime t c.expiresAt = true → (s.entry r).stale (removeKey x) t = false →
    ¬ (s.entry r).InGroup c.inviteId x → Withdraws l c.inviteId →
    ((s.entry r).roles.withdrawn.get? c.inviteId).any (fun v => !v.isEmpty) = true →
    heldAgainst people f (s.entry r) c = true
  answered : ∀ c x t, Says people f r s e (.join c x t) → Guest people f r x →
    inTime t c.expiresAt = true → (s.entry r).stale (removeKey x) t = false →
    ¬ (s.entry r).InGroup c.inviteId x → ¬ Withdraws l c.inviteId → ¬ Removes r s0 l x →
    passes people f r s c = answer e

/-- Entry for entry, what is asked and what is met. -/
def Meets (people : People) (f : Facts) (r : Text) (s0 : Store) (l : List AccessEntry)
    (answer : AccessEntry → Bool) (s : Store) (e : AccessEntry) : Prop :=
  Taken people f r s e ∧ Fits people f r s0 l answer s e

variable {people : People} {f : Facts} {s : Store}

/-- Nothing of a withdrawn invite is left for the person. -/
def Gone (r : Text) (p : List AccessEntry) (s : Store) (x : Text) : Prop :=
  ∀ i, Withdraws p i → ((s.entry r).roles.withdrawn.get? i).any (fun v => !v.isEmpty) = true ∧
    ¬ (s.entry r).InGroup i x

theorem held_hand {i : Text}
    (h : ((s.entry r).roles.withdrawn.get? i).any (fun v => !v.isEmpty) = true) :
    (((hand people f r s e).entry r).roles.withdrawn.get? i).any (fun v => !v.isEmpty) = true := by
  obtain ⟨raw,hraw,hne⟩ := (Option.any_eq_true _ _).mp h
  have hraw' := held_step (c := ⟨people,f,e⟩) hraw (by simpa using hne)
  exact (Option.any_eq_true _ _).mpr ⟨raw,hraw',hne⟩

theorem gone_hand {p : List AccessEntry} (hg : Gone r p s x) (hx : Guest people f r x)
    (hsub : ∀ i, Withdraws p i → Withdraws l i) (hplain : Uncapped e) (hnamed : Named e)
    (hm : Meets people f r s0 l answer s e) : Gone r (p ++ [e]) (hand people f r s e) x := by
  obtain ⟨⟨hv,hroom⟩,hfit⟩ := hm
  intro i hi
  have hold : Withdraws p i → ((s.entry r).roles.withdrawn.get? i).any (fun v => !v.isEmpty) = true ∧
      ¬ (s.entry r).InGroup i x := hg i
  cases hand_moves hroom hplain hnamed hv with
  | quiet calm groups allow =>
    have hp : Withdraws p i := (withdraws_snoc.mp hi).resolve_right (calm i [] 0 none none).2.1
    refine ⟨held_hand (hold hp).1,fun hin => (hold hp).2 ?_⟩
    exact inGroup_of_groups groups hin
  | remove a t said groups allow =>
    have hp : Withdraws p i := by
      refine (withdraws_snoc.mp hi).resolve_right ?_
      rw [says_terms said]
      simp [Verified.terms]
    exact ⟨held_hand (hold hp).1,fun hin => (hold hp).2 ((groups i x).mp hin).1⟩
  | withdraw rv signature said groups allow =>
    rcases withdraws_snoc.mp hi with hp | ht
    · exact ⟨held_hand (hold hp).1,fun hin => (hold hp).2 ((groups i x).mp hin).1⟩
    · rw [says_terms said] at ht
      cases ht
      obtain ⟨raw,hne,hraw,_⟩ := held_of_withdraw (c := ⟨people,f,e⟩) said
      refine ⟨(Option.any_eq_true _ _).mpr ⟨raw,hraw,by simpa using hne⟩,fun hin => ?_⟩
      obtain ⟨hin,hpr⟩ := (groups _ x).mp hin
      exact hpr (hfit.withdraw rv signature x said hx hin) rfl
  | join c a t said groups allow =>
    have hp : Withdraws p i := by
      refine (withdraws_snoc.mp hi).resolve_right ?_
      rw [says_terms said]
      simp [Verified.terms]
    refine ⟨held_hand (hold hp).1,fun hin => ?_⟩
    rcases (groups i x).mp hin with hin | ⟨rfl,rfl,htime,hst,hpass⟩
    · exact (hold hp).2 hin
    · have hheld := hfit.held c x t said hx htime hst (hold hp).2 (hsub _ hp) (hold hp).1
      simp [passes,hheld] at hpass

theorem removal_idle (hno : ¬ Removes r s0 l x) (he : e ∈ l) (hv : Verifies people f r s e)
    (hst : ∀ t, (s.entry r).stale (removeKey x) t = (s0.entry r).stale (removeKey x) t) (t : Nat) :
    ((hand people f r s e).entry r).stale (removeKey x) t =
      (s0.entry r).stale (removeKey x) t := by
  have hreg : removalAt r x (hand people f r s e) = removalAt r x s := by
    rw [removalAt_hand x hv]
    cases hop : removeOp x e with
    | none => rfl
    | some op =>
      obtain ⟨u,hu,rfl⟩ := removeOp_some.mp hop
      have hold : (s.entry r).stale (removeKey x) u = true := by
        rw [hst,← Bool.not_eq_false]
        exact fun hnew => hno ⟨e,he,u,hu,hnew⟩
      rw [Option.elim_some,removalAt,registerAt_step,if_pos hold]
  rw [← hst,← registerAt_stale _ _ (),← registerAt_stale _ _ ()]
  exact congrArg (fun reg => Latest.stale reg _) hreg

theorem kept_hand {p : List AccessEntry} (ho : Orderly people f r s0 l) (hx : Guest people f r x)
    (hno : ¬ Removes r s0 l x) (he : e ∈ l) (hplain : Uncapped e)
    (hm : Meets people f r s0 l answer s e) (hk : Kept r s0 l answer x p s) :
    Kept r s0 l answer x (p ++ [e]) (hand people f r s e) := by
  obtain ⟨⟨hv,hroom⟩,hfit⟩ := hm
  have hstale := removal_idle hno he hv hk.stale
  -- an entry that is no join of the person tells nothing new of them
  have hsame : ∀ i, (∀ t expiresAt m, terms e ≠ some (.join i x t expiresAt m)) →
      ((∃ e' ∈ p ++ [e], Joins r s0 e' i x ∧ answer e' = true) ↔
        ∃ e' ∈ p, Joins r s0 e' i x ∧ answer e' = true) := by
    intro i hnot
    rw [joins_snoc]
    refine ⟨fun h => h.resolve_right ?_,Or.inl⟩
    rintro ⟨⟨t,expiresAt,m,ht,_⟩,_⟩
    exact hnot t expiresAt m ht
  cases hand_moves hroom hplain (ho.named e he) hv with
  | quiet calm groups allow =>
    have hin : ∀ i, ((hand people f r s e).entry r).InGroup i x ↔ (s.entry r).InGroup i x :=
      fun i => ⟨inGroup_of_groups groups,inGroup_of_groups groups.symm⟩
    refine ⟨hstale,fun i hi => ?_,fun h i hi => ?_,?_⟩
    · rw [hin,hk.groups i hi,hsame i fun t expiresAt m => (calm i x t expiresAt m).2.2]
    · rw [hin]
      exact hk.loose h i hi
    · rw [allow,hk.allow]
      simp only [hin]
  | remove a t said groups allow =>
    have hterms := says_terms said
    have hstay : (s.entry r).stale (removeKey a) t = true ∨ x ≠ a := by
      by_cases ha : x = a
      · subst ha
        refine Or.inl ?_
        rw [hk.stale,← Bool.not_eq_false]
        exact fun hnew => hno ⟨e,he,t,hterms,hnew⟩
      · exact Or.inr ha
    refine ⟨hstale,fun i hi => ?_,fun h i hi hin => hk.loose h i hi ((groups i x).mp hin).1,?_⟩
    · rw [groups,and_iff_left hstay,hk.groups i hi,hsame i fun _ _ _ => by simp [hterms,Verified.terms]]
    · rw [allow,and_iff_left hstay,hk.allow]
      simp only [groups,and_iff_left hstay]
  | withdraw rv signature said groups allow =>
    have hterms := says_terms said
    have hmember : Withdraws l rv.inviteId := ⟨e,he,hterms⟩
    refine ⟨hstale,fun i hi => ?_,fun h i hi hin => hk.loose h i hi ((groups i x).mp hin).1,?_⟩
    · have hne : i ≠ rv.inviteId := by
        rintro rfl
        exact hi hmember
      rw [groups,and_iff_left fun _ => hne,hk.groups i hi,
        hsame i fun _ _ _ => by simp [hterms,Verified.terms]]
    · rw [allow,hk.allow]
      simp only [groups]
      constructor
      · rintro ⟨hloose | ⟨i,hi⟩,hpr⟩
        · exact Or.inl hloose
        · by_cases hp : prunes people f r s rv signature = true
          · by_cases hne : i = rv.inviteId
            · subst hne
              obtain ⟨j,hj⟩ := not_forall.mp fun hall => hpr hp ⟨hi,hall⟩
              obtain ⟨hne,hj⟩ := Classical.not_imp.mp hj
              exact Or.inr ⟨j,not_not.mp hj,fun _ => hne⟩
            · exact Or.inr ⟨i,hi,fun _ => hne⟩
          · exact Or.inr ⟨i,hi,fun h => absurd h hp⟩
      · rintro (hloose | ⟨i,hi,hne⟩)
        · exact ⟨Or.inl hloose,fun _ h => hk.loose hloose _ hmember h.1⟩
        · exact ⟨Or.inr ⟨i,hi⟩,fun hp h => h.2 i (hne hp) hi⟩
  | join c a t said groups allow =>
    have hterms := says_terms said
    refine ⟨hstale,fun i hi => ?_,fun h i hi hin => ?_,?_⟩
    · rw [groups,hk.groups i hi,joins_snoc,← or_assoc]
      by_cases hin : (s.entry r).InGroup i x
      · have hold := (hk.groups i hi).mp hin
        exact ⟨fun _ => Or.inl hold,fun _ => Or.inl hold⟩
      · refine or_congr_right ?_
        constructor
        · rintro ⟨rfl,rfl,htime,hst,hpass⟩
          refine ⟨⟨t,c.expiresAt,c.maxRedemptions,hterms,htime,by rw [← hk.stale]; exact hst⟩,?_⟩
          rw [← hfit.answered c x t said hx htime hst hin hi hno]
          exact hpass
        · rintro ⟨⟨u,expiresAt,m,hu,htime,hst⟩,hans⟩
          rw [hterms] at hu
          cases hu
          rw [← hk.stale] at hst
          refine ⟨rfl,rfl,htime,hst,?_⟩
          rw [hfit.answered c _ _ said hx htime hst hin hi hno]
          exact hans
    · rcases (groups i x).mp hin with hin | ⟨rfl,rfl,htime,hst,_⟩
      · exact hk.loose h i hi hin
      · rw [hk.stale] at hst
        exact ho.ungrouped x hx h.1 h.2 hno e he _ hi ⟨t,_,_,hterms,htime,hst⟩
    · rw [allow,hk.allow]
      simp only [groups]
      constructor
      · rintro ((hloose | ⟨i,hi⟩) | ⟨rfl,_,hok⟩)
        · exact Or.inl hloose
        · exact Or.inr ⟨i,Or.inl hi⟩
        · exact Or.inr ⟨c.inviteId,Or.inr ⟨rfl,rfl,hok⟩⟩
      · rintro (hloose | ⟨i,hi | ⟨rfl,rfl,hok⟩⟩)
        · exact Or.inl (Or.inl hloose)
        · exact Or.inl (Or.inr ⟨i,hi⟩)
        · by_cases hin : (s.entry r).InGroup c.inviteId x
          · exact Or.inl (Or.inr ⟨_,hin⟩)
          · exact Or.inr ⟨rfl,hin,hok⟩

theorem cleared_hand {top : Rat} {p : List AccessEntry} (ho : Orderly people f r s0 l)
    (hx : Guest people f r x) (hre : Removes r s0 l x)
    (htop : ∀ op ∈ l.filterMap (removeOp x), op.1 ≤ top) (hsub : ∀ e ∈ p, e ∈ l) (he : e ∈ l)
    (hplain : Uncapped e) (hm : Meets people f r s0 l answer s e)
    (hc : Cleared r s0 l x top p s) : Cleared r s0 l x top (p ++ [e]) (hand people f r s e) := by
  obtain ⟨⟨hv,hroom⟩,hfit⟩ := hm
  have hsaw : Latest.Saw (removalAt r x s0) ((p ++ [e]).filterMap (removeOp x))
      (removalAt r x (hand people f r s e)) := by
    rw [removalAt_hand x hv,List.filterMap_append,List.filterMap_cons,List.filterMap_nil]
    cases removeOp x e with
    | none => simpa using hc.saw
    | some op => exact hc.saw.snoc op
  refine ⟨hsaw,fun hdone => ?_⟩
  rw [List.filterMap_append,List.mem_append] at hdone
  by_cases hold : (top,()) ∈ p.filterMap (removeOp x)
  · obtain ⟨hallow,hgroups⟩ := hc.out hold
    cases hand_moves hroom hplain (ho.named e he) hv with
    | quiet calm groups allow =>
      refine ⟨fun h => ?_,fun i hi hin => hgroups i hi (inGroup_of_groups groups hin)⟩
      obtain ⟨i,hi⟩ := hallow (allow ▸ h)
      exact ⟨i,inGroup_of_groups groups.symm hi⟩
    | remove a t said groups allow =>
      refine ⟨fun h => ?_,fun i hi hin => hgroups i hi ((groups i x).mp hin).1⟩
      obtain ⟨hin,hstay⟩ := (allow x).mp h
      obtain ⟨i,hi⟩ := hallow hin
      exact ⟨i,(groups i x).mpr ⟨hi,hstay⟩⟩
    | withdraw rv signature said groups allow =>
      refine ⟨fun h => ?_,fun i hi hin => hgroups i hi ((groups i x).mp hin).1⟩
      obtain ⟨hin,hpr⟩ := (allow x).mp h
      obtain ⟨i,hi⟩ := hallow hin
      simp only [groups]
      by_cases hne : prunes people f r s rv signature = true → i ≠ rv.inviteId
      · exact ⟨i,hi,hne⟩
      · obtain ⟨hp,hne⟩ := Classical.not_imp.mp hne
        obtain rfl := not_not.mp hne
        obtain ⟨j,hj⟩ := not_forall.mp fun hall => hpr hp ⟨hi,hall⟩
        obtain ⟨hne,hj⟩ := Classical.not_imp.mp hj
        exact ⟨j,not_not.mp hj,fun _ => hne⟩
    | join c a t said groups allow =>
      refine ⟨fun h => ?_,fun i hi hin => ?_⟩
      · rcases (allow x).mp h with hin | ⟨rfl,_,hok⟩
        · obtain ⟨i,hi⟩ := hallow hin
          exact ⟨i,(groups i x).mpr (Or.inl hi)⟩
        · exact ⟨c.inviteId,(groups _ x).mpr (Or.inr ⟨rfl,rfl,hok⟩)⟩
      · rcases (groups i x).mp hin with hin | ⟨rfl,rfl,htime,hst,_⟩
        · exact hgroups i hi hin
        · -- the join is no newer than the newest removal, which is behind
          obtain ⟨e',he',t',ht',hle⟩ := ho.removes x hx hre e he _ t _ _ (says_terms said) htime hi
          have hmem : ((f64OfNat t' : Rat),()) ∈ l.filterMap (removeOp x) :=
            List.mem_filterMap.mpr ⟨e',he',removeOp_some.mpr ⟨t',ht',rfl⟩⟩
          have hlate : (f64OfNat t : Rat) ≤ top :=
            le_trans (Rat.natCast_le_natCast.mpr hle) (htop _ hmem)
          rw [(hc.stale t).mpr (Or.inr ⟨_,hold,hlate⟩)] at hst
          cases hst
  · -- the newest removal comes now, and nothing so far makes it stale
    have hop : removeOp x e = some (top,()) := by
      simpa using hdone.resolve_left hold
    obtain ⟨t,ht,htop'⟩ := removeOp_some.mp hop
    have hfresh : (s.entry r).stale (removeKey x) t = false := by
      rw [← Bool.not_eq_true,hc.stale]
      rintro (hs | ⟨op,hmem,hle⟩)
      · obtain ⟨e',he',t',ht',hnew⟩ := hre
        have hle := htop _ (List.mem_filterMap.mpr ⟨e',he',removeOp_some.mpr ⟨t',ht',rfl⟩⟩)
        rw [Prod.mk.injEq] at htop'
        rw [htop'.1] at hle
        rw [← registerAt_stale _ _ ()] at hs hnew
        rw [Latest.stale_of_le hle hs] at hnew
        cases hnew
      · obtain ⟨e',he',hop'⟩ := List.mem_filterMap.mp hmem
        have hback := htop op (List.mem_filterMap.mpr ⟨e',hsub e' he',hop'⟩)
        rw [Prod.mk.injEq] at htop'
        rw [← htop'.1] at hle
        have heq : op = (top,()) := Prod.ext (le_antisymm hback hle) rfl
        exact hold (heq ▸ hmem)
    cases hand_moves hroom hplain (ho.named e he) hv with
    | quiet calm groups allow => exact absurd ht (calm [] x t none none).1
    | withdraw rv signature said groups allow =>
      rw [says_terms said] at ht
      cases ht
    | join c a t said groups allow =>
      rw [says_terms said] at ht
      cases ht
    | remove a u said groups allow =>
      rw [says_terms said] at ht
      cases ht
      have hnone : ¬ ((s.entry r).stale (removeKey x) t = true ∨ x ≠ x) := by
        simp [hfresh]
      exact ⟨fun h => absurd ((allow x).mp h).2 hnone,fun i _ hin =>
        absurd ((groups i x).mp hin).2 hnone⟩

theorem gone_run {m : List AccessEntry} (hsame : ∀ e, e ∈ m ↔ e ∈ l)
    (hplain : ∀ e ∈ l, Uncapped e) (ho : Orderly people f r s0 l) (hx : Guest people f r x)
    (hrun : Along (hand people f r) (Meets people f r s0 l answer) s0 m) :
    Gone r m (run (hand people f r) s0 m) x := by
  apply hrun.history (I := fun p s => Gone r p s x)
  · rintro i ⟨_,h,_⟩
    cases h
  · intro p e q heq hg hm
    have he : e ∈ l := (hsame e).mp (by simp [heq])
    refine gone_hand hg hx ?_ (hplain e he) (ho.named e he) hm
    rintro i ⟨e',he',ht⟩
    exact ⟨e',(hsame e').mp (by simp [heq,he']),ht⟩

/-- Who is on the list after every entry: nobody who was removed, and else
those who were there without an invite or have one left that is not withdrawn. -/
theorem allow_end {m : List AccessEntry} (hsame : ∀ e, e ∈ m ↔ e ∈ l)
    (hplain : ∀ e ∈ l, Uncapped e) (ho : Orderly people f r s0 l) (hx : Guest people f r x)
    (hrun : Along (hand people f r) (Meets people f r s0 l answer) s0 m) :
    x ∈ ((run (hand people f r) s0 m).entry r).allow ↔ ¬ Removes r s0 l x ∧
      (Loose r s0 x ∨ ∃ i, ¬ Withdraws l i ∧ ((s0.entry r).InGroup i x ∨
        ∃ e ∈ l, Joins r s0 e i x ∧ answer e = true)) := by
  have hgone := gone_run hsame hplain ho hx hrun
  have hnone : ∀ i, Withdraws l i → ¬ ((run (hand people f r) s0 m).entry r).InGroup i x := by
    rintro i ⟨e,he,ht⟩
    exact (hgone i ⟨e,(hsame e).mpr he,ht⟩).2
  by_cases hre : Removes r s0 l x
  · obtain ⟨e,he,t,ht,_⟩ := id hre
    have hop : ((f64OfNat t : Rat),()) ∈ l.filterMap (removeOp x) :=
      List.mem_filterMap.mpr ⟨e,he,removeOp_some.mpr ⟨t,ht,rfl⟩⟩
    obtain ⟨top,htop⟩ : ∃ top, top ∈ (l.filterMap (removeOp x)).argmax Prod.fst := by
      apply Option.ne_none_iff_exists'.mp
      rw [ne_eq,List.argmax_eq_none]
      exact List.ne_nil_of_mem hop
    have hend : Cleared r s0 l x top.1 m (run (hand people f r) s0 m) := by
      apply hrun.history (I := Cleared r s0 l x top.1)
      · exact ⟨Latest.Saw.start _,fun h => by cases h⟩
      · intro p e q heq hc hm
        have he : e ∈ l := (hsame e).mp (by simp [heq])
        refine cleared_hand ho hx hre (fun op hop => List.le_of_mem_argmax hop htop)
          (fun e' he' => (hsame e').mp (by simp [heq,he'])) he (hplain e he) hm hc
    obtain ⟨hallow,hgroups⟩ := hend.out (by
      obtain ⟨e,he,hop⟩ := List.mem_filterMap.mp (List.argmax_mem htop)
      exact List.mem_filterMap.mpr ⟨e,(hsame e).mpr he,hop⟩)
    refine ⟨fun h => ?_,fun h => absurd hre h.1⟩
    obtain ⟨i,hi⟩ := hallow h
    by_cases hw : Withdraws l i
    · exact absurd hi (hnone i hw)
    · exact absurd hi (hgroups i hw)
  · have hend : Kept r s0 l answer x m (run (hand people f r) s0 m) := by
      apply hrun.history (I := Kept r s0 l answer x)
      · exact kept_start fun i hi => ho.listed i x hx hi
      · intro p e q heq hk hm
        have he : e ∈ l := (hsame e).mp (by simp [heq])
        exact kept_hand ho hx hre he (hplain e he) hm hk
    rw [hend.allow,and_iff_right hre]
    refine or_congr_right (exists_congr fun i => ?_)
    constructor
    · intro hi
      have hw : ¬ Withdraws l i := fun hw => hnone i hw hi
      rw [hend.groups i hw] at hi
      simpa only [hsame] using And.intro hw hi
    · rintro ⟨hw,hi⟩
      rw [hend.groups i hw]
      simpa only [hsame] using hi

end

section
open Sample

def boxFacts : Facts := ⟨true,[],20⟩

theorem earlyJoin_shaped : (joins 'a' 3).shaped = true := by decide +kernel

theorem removal_shaped : (removes 'a' 5).shaped = true := by decide +kernel

/-- A person joins at time three. -/
def earlyJoin : AccessEntry := ⟨joins 'a' 3,earlyJoin_shaped⟩

def removal : AccessEntry := ⟨removes 'a' 5,removal_shaped⟩

theorem pair_asks {e : AccessEntry} {t : Terms} (he : e ∈ [earlyJoin,removal])
    (ht : terms e = some t) : t = .join invite (key 'a') 3 none (some 0) ∨
      t = .remove (key 'a') 5 := by
  have hj : terms earlyJoin = some (.join invite (key 'a') 3 none (some 0)) := by decide +kernel
  have hr : terms removal = some (.remove (key 'a') 5) := by decide +kernel
  simp only [List.mem_cons,List.not_mem_nil,or_false] at he
  rcases he with rfl | rfl
  · rw [hj] at ht
    exact Or.inl (Option.some.inj ht).symm
  · rw [hr] at ht
    exact Or.inr (Option.some.inj ht).symm

theorem pair_withdraws_none (i : Text) : ¬ Withdraws [earlyJoin,removal] i := by
  rintro ⟨e,he,ht⟩
  rcases pair_asks he ht with h | h <;> cases h

theorem pair_removes : Removes app (Store.empty true) [earlyJoin,removal] (key 'a') :=
  ⟨removal,by simp,5,by decide +kernel,by decide +kernel⟩

theorem pair_orderly :
    Orderly people boxFacts app (Store.empty true) [earlyJoin,removal] := by
  refine ⟨?_,fun x p _ => ?_,fun e he i a t x m ht => ?_,fun x _ hre e he i t expiresAt m ht _ _ => ?_,
    fun i x _ h => ?_,fun x _ h => ?_⟩
  · have hnone : [earlyJoin,removal].filterMap modeOp = [] := by decide +kernel
    rw [hnone]
    intro x hx
    cases hx
  · have hnone : [earlyJoin,removal].filterMap (rankOp people boxFacts app (rankKey p)) = [] := rfl
    rw [hnone]
    intro x hx
    cases hx
  · rcases pair_asks he ht with h | h
    · cases h
      decide
    · cases h
  · refine ⟨removal,by simp,5,?_,?_⟩
    · rcases pair_asks he ht with h | h
      · cases h
        decide +kernel
      · cases h
    · rcases pair_asks he ht with h | h
      · cases h
        decide
      · cases h
  · rw [Store.entry_empty] at h
    exact absurd h Row.new_inGroup
  · rw [Store.entry_empty] at h
    cases h

/-- Nothing but to be taken is asked of either entry. -/
theorem pair_meets {s : Store} {e : AccessEntry} (he : e ∈ [earlyJoin,removal])
    (ht : Taken people boxFacts app s e) :
    Meets people boxFacts app (Store.empty true) [earlyJoin,removal] (fun _ => true) s e := by
  refine ⟨ht,fun rv signature x said => ?_,fun c x t _ _ _ _ _ hw => ?_,
    fun c x t said _ _ _ _ _ hno => ?_⟩
  · exact absurd ⟨e,he,says_terms said⟩ (pair_withdraws_none rv.inviteId)
  · exact absurd hw (pair_withdraws_none c.inviteId)
  · rcases pair_asks he (says_terms said) with h | h
    · obtain rfl : x = key 'a' := (Terms.join.inj h).2.1
      exact absurd pair_removes hno
    · cases h

end
end Flagship.Access

import Flagship.Lib.Latest
import Flagship.Access.Proofs.Terms

namespace Flagship.Access
open Lib
open Row (removeKey)

/-- The time of the last order for a target and what it set. -/
def registerAt {α : Type} (row : Row) (key : Text) (value : α) : Latest Rat α :=
  ⟨(row.roles.seq.get? key).map numF64,value⟩

def modeAt (r : Text) (s : Store) : Latest Rat Bool :=
  registerAt (s.entry r) "mode".toList (s.entry r).restricted

def rankAt (r key : Text) (s : Store) : Latest Rat (Option Text) :=
  registerAt (s.entry r) key ((s.entry r).roles.ranks.get? key)

def removalAt (r aid : Text) (s : Store) : Latest Rat Unit :=
  registerAt (s.entry r) (removeKey aid) ()

theorem registerAt_stale {α : Type} (row : Row) (key : Text) (value : α) (t : Nat) :
    (registerAt row key value).stale (f64OfNat t) = row.stale key t := by
  unfold registerAt Latest.stale Row.stale
  rw [Option.any_map]

/-- An order for the target of a register. -/
theorem registerAt_step {α : Type} (row : Row) (key : Text) (value new : α) (t : Nat) :
    (registerAt row key value).step (f64OfNat t,new) =
      if row.stale key t then registerAt row key value else ⟨some (f64OfNat t),new⟩ := by
  unfold Latest.step
  rw [registerAt_stale]

theorem sequenced_self (row : Row) (key : Text) (t : Nat) :
    (row.sequenced key t).roles.seq.get? key = some (.u64 t) := OrdMap.get?_set_self _ _ _

theorem sequenced_other (row : Row) {key k : Text} (h : k ≠ key) (t : Nat) :
    (row.sequenced key t).roles.seq.get? k = row.roles.seq.get? k := OrdMap.get?_set_ne h

section
variable [Lowercase]

/-- The mode an entry orders, and when. -/
def modeOp (e : AccessEntry) : Option (Rat × Bool) :=
  match terms e with
  | some (.mode restricted t) => some (f64OfNat t,restricted)
  | _ => none

/-- When an entry removes a person. -/
def removeOp (aid : Text) (e : AccessEntry) : Option (Rat × Unit) :=
  match terms e with
  | some (.remove a t) => if a = aid then some (f64OfNat t,()) else none
  | _ => none

theorem removeOp_some {aid : Text} {e : AccessEntry} {op : Rat × Unit} :
    removeOp aid e = some op ↔ ∃ t : Nat, terms e = some (.remove aid t) ∧ op = ((f64OfNat t : Rat),()) := by
  unfold removeOp
  constructor
  · intro h
    split at h
    · rename_i a t he
      split at h
      · rename_i ha
        cases h
        exact ⟨t,ha ▸ he,rfl⟩
      · cases h
    · cases h
  · rintro ⟨t,he,rfl⟩
    simp [he]

variable {people : People} {f : Facts} {r : Text} {s : Store} {e : AccessEntry}

/-- A mode or a remove order. -/
def Terms.isOrder : Terms → Bool
  | .mode _ _ | .remove _ _ => true
  | .withdraw _ | .join .. | .share => false

theorem unasked_of_terms {t : Terms} (h : terms e = some t) (hno : t.isOrder = false) :
    modeOp e = none ∧ ∀ a, removeOp a e = none := by
  unfold modeOp removeOp
  rw [h]
  cases t with
  | mode b n | remove a n => cases hno
  | withdraw i | join i a n x m | share => exact ⟨rfl,fun _ => rfl⟩

variable [Ed25519]

variable (people f r) in
/-- The rank an entry sets for a device or a share, and when. -/
def rankOp (key : Text) (e : AccessEntry) : Option (Rat × Option Text) :=
  (accountRankOf people f r e).bind fun o =>
    if o.1 = key then some (f64OfNat o.2.2,some o.2.1) else none

/-- What an entry does to the mode, the ranks and the times of its app. -/
inductive Sets (people : People) (f : Facts) (r : Text) (e : AccessEntry) (row row' : Row) : Prop
  | mode (restricted : Bool) (t : Nat) (asked : terms e = some (.mode restricted t))
      (unranked : accountRankOf people f r e = none)
      (after : row' = (row.applyModeOrder restricted t).1)
  | remove (a : Text) (t : Nat) (asked : terms e = some (.remove a t))
      (unranked : accountRankOf people f r e = none) (lower : toLowercase a = a)
      (after : row' = (row.applyRemoveOrder a t).1)
  | rank (key rank : Text) (t : Nat) (evidence : Text) (unasked : terms e = none)
      (ranked : accountRankOf people f r e = some (key,rank,t))
      (kind : key.head? ∈ [some 'd',some 's'])
      (after : row' = (row.setAccountRank key rank t evidence).1)
  | other (unasked : modeOp e = none ∧ ∀ a, removeOp a e = none)
      (unranked : accountRankOf people f r e = none)
      (restricted : row'.restricted = row.restricted) (ranks : row'.roles.ranks = row.roles.ranks)
      (seq : ∀ key : Text, key.head? ∈ [some 'm',some 'r',some 'd',some 's'] →
        row'.roles.seq.get? key = row.roles.seq.get? key)

theorem says_unranked {v : Verified} (h : Says people f r s e v) :
    accountRankOf people f r e = none := by
  obtain ⟨body,hshape⟩ := e
  cases body with
  | rank o signature => cases h
  | _ => rfl

theorem join_standing (s : Store) (people : People) (f : Facts) (r : Text) (c : VerifiedCreate)
    (aid : Text) (t : Nat) : Row.SameStanding (s.entry r) ((join s people f r c aid t).1.entry r) := by
  rcases join_cases s people f r c aid t with ⟨hs,_⟩ | ⟨_,_,hs,_⟩
  · rw [hs]
    exact Row.SameStanding.refl _
  · have hmaker : Row.SameStanding (s.entry r) (withMaker (s.entry r) c) := by
      unfold withMaker Row.setInviteCreator Row.setInviteTier
      simp only
      split <;> split <;> exact ⟨rfl,rfl,rfl,rfl⟩
    have hadd : Row.SameStanding (withMaker (s.entry r) c)
        ((withMaker (s.entry r) c).addAllowed aid (some c.inviteId)).1 := by
      have hroles : ((withMaker (s.entry r) c).addAllowed aid (some c.inviteId)).1.roles =
          (withMaker (s.entry r) c).roles := Row.addAllowed_roles.1
      exact ⟨Row.addAllowed_roles.2,by rw [hroles],by rw [hroles],by rw [hroles]⟩
    rw [hs,Store.entry_put]
    exact hmaker.trans hadd

theorem hand_sets (hv : Verifies people f r s e) :
    Sets people f r e (s.entry r) ((hand people f r s e).entry r) := by
  rcases hv with ⟨v,hv⟩ | ⟨o,signature,hb,_⟩
  · have hterms := says_terms hv
    have hrow : hand people f r s e = (applyVerified s people f r v).1 := by
      unfold hand
      rw [applyEntry_of_said hv]
    rw [hrow]
    cases v with
    | mode m t =>
      exact .mode _ t hterms (says_unranked hv) (Store.entry_put _ _ _)
    | remove a t =>
      have hlow := (says_remove (c := ⟨people,f,e⟩) hv).1
      exact .remove a t hterms (says_unranked hv) hlow (Store.entry_put _ _ _)
    | share id record =>
      refine .other (unasked_of_terms hterms rfl) (says_unranked hv) ?_ ?_ fun key _ => ?_
      all_goals
        simp only [applyVerified,Store.entry_put,Row.noteCoManager]
        split <;> rfl
    | join c a t =>
      have h := join_standing s people f r c a t
      refine .other (unasked_of_terms hterms rfl) (says_unranked hv) h.restricted h.ranks
        fun key _ => ?_
      simp only [applyVerified,h.seq]
    | withdraw rv signature =>
      have hnote : Row.SameStanding (s.entry r)
          ((s.entry r).noteWithdrawn rv.inviteId rv.issuedAt signature) := by
        unfold Row.noteWithdrawn
        split <;> exact ⟨rfl,rfl,rfl,rfl⟩
      have h : Row.SameStanding (s.entry r)
          ((applyVerified s people f r (.withdraw rv signature)).1.entry r) := by
        simp only [applyVerified,applyWithdraw]
        split
        · rw [Store.entry_put]
          exact hnote.trans (Row.revokeGroup_effect _ _).1
        · rw [Store.entry_put]
          exact hnote
      exact .other (unasked_of_terms hterms rfl) (says_unranked hv) h.restricted h.ranks
        fun key _ => by rw [h.seq]
  · have hno : modeOp e = none ∧ ∀ a, removeOp a e = none := by
      unfold modeOp removeOp
      rw [terms_rank hb]
      exact ⟨rfl,fun _ => rfl⟩
    rcases applyEntry_rank people (f := f) (r := r) s hb with ⟨key,rank,t,ev,hr,hk,he⟩ | ⟨hr,hq⟩
    · exact .rank key rank t ev (terms_rank hb) hr hk he
    · exact .other hno hr hq.restricted hq.ranks hq.seq

theorem modeAt_hand (hv : Verifies people f r s e) :
    modeAt r (hand people f r s e) = (modeOp e).elim (modeAt r s) (modeAt r s).step := by
  unfold modeAt
  cases hand_sets hv with
  | mode restricted t asked _ after =>
    rw [after]
    simp only [modeOp,asked,Option.elim_some]
    rw [registerAt_step]
    unfold Row.applyModeOrder
    split
    · rfl
    · simp only [registerAt,sequenced_self,Option.map_some,numF64]
  | remove a t asked _ _ after =>
    rw [after]
    simp only [modeOp,asked,Option.elim_none]
    unfold Row.applyRemoveOrder
    simp only
    split
    · rfl
    · have hne : "mode".toList ≠ removeKey (toLowercase a) := (ne_removeKey (by decide) _).symm
      have hkey := sequenced_other (s.entry r) hne t
      simp only [registerAt,Row.removeAllowed,hkey]
      rfl
  | rank key rank t evidence unasked _ kind after =>
    rw [after]
    simp only [modeOp,unasked,Option.elim_none]
    unfold Row.setAccountRank
    split
    · rfl
    · have hne : "mode".toList ≠ key := by
        rintro rfl
        revert kind
        decide
      have hkey := sequenced_other (s.entry r) hne t
      simp only [registerAt,Row.withEvidence,hkey]
      rfl
  | other unasked _ restricted _ seq =>
    rw [unasked.1,Option.elim_none,registerAt,registerAt,restricted,seq _ (by decide)]

theorem removalAt_hand (a : Text) (hv : Verifies people f r s e) :
    removalAt r a (hand people f r s e) =
      (removeOp a e).elim (removalAt r a s) (removalAt r a s).step := by
  unfold removalAt
  cases hand_sets hv with
  | mode restricted t asked _ after =>
    rw [after]
    simp only [removeOp,asked,Option.elim_none]
    unfold registerAt
    rw [(applyModeOrder_effect _ _ _).2.2.2 _ (ne_removeKey (by decide) a)]
  | remove x t asked _ lower after =>
    rw [after]
    simp only [removeOp,asked]
    unfold Row.applyRemoveOrder
    simp only [lower]
    by_cases hx : x = a
    · subst hx
      rw [if_pos rfl,Option.elim_some,registerAt_step]
      split
      · rfl
      · simp only [registerAt,Row.removeAllowed,sequenced_self,Option.map_some,numF64]
    · rw [if_neg hx,Option.elim_none]
      split
      · rfl
      · have hne : removeKey a ≠ removeKey x := fun hk => hx (removeKey_inj hk).symm
        simp only [registerAt,Row.removeAllowed,sequenced_other (s.entry r) hne]
  | rank key rank t evidence unasked _ kind after =>
    rw [after]
    simp only [removeOp,unasked,Option.elim_none]
    have hne : removeKey a ≠ key := by
      apply ne_removeKey
      intro hr
      rw [hr] at kind
      revert kind
      decide
    unfold registerAt
    rw [(setAccountRank_effect _ _ _ _ _).2.2.2 _ hne]
  | other unasked _ _ _ seq =>
    rw [unasked.2 a,Option.elim_none,registerAt,registerAt,seq _ (by simp [removeKey_head])]

theorem rankAt_hand {key : Text} (hkey : key.head? ∈ [some 'd',some 's'])
    (hv : Verifies people f r s e) : rankAt r key (hand people f r s e) =
      (rankOp people f r key e).elim (rankAt r key s) (rankAt r key s).step := by
  unfold rankAt rankOp
  cases hand_sets hv with
  | mode restricted t asked unranked after =>
    have hne : key ≠ "mode".toList := by
      rintro rfl
      revert hkey
      decide
    rw [after,unranked,Option.bind_none,Option.elim_none]
    unfold Row.applyModeOrder
    split
    · rfl
    · simp only [registerAt,sequenced_other (s.entry r) hne]
      rfl
  | remove a t asked unranked lower after =>
    have hne : key ≠ removeKey (toLowercase a) := by
      rintro rfl
      revert hkey
      simp [removeKey_head]
    rw [after,unranked,Option.bind_none,Option.elim_none]
    unfold Row.applyRemoveOrder
    simp only
    split
    · rfl
    · simp only [registerAt,Row.removeAllowed,sequenced_other (s.entry r) hne]
      rfl
  | rank k rank t evidence unasked ranked _ after =>
    rw [after,ranked,Option.bind_some]
    unfold Row.setAccountRank
    by_cases hk : k = key
    · subst hk
      simp only [↓reduceIte,Option.elim_some,registerAt_step]
      split
      · rfl
      · simp only [registerAt,Row.withEvidence,sequenced_self,Option.map_some,numF64,
          OrdMap.get?_set_self]
    · simp only [if_neg hk,Option.elim_none]
      split
      · rfl
      · simp only [registerAt,Row.withEvidence,sequenced_other (s.entry r) (Ne.symm hk),
          OrdMap.get?_set_ne (Ne.symm hk)]
        rfl
  | other _ unranked _ ranks seq =>
    have hseq : key.head? ∈ [some 'm',some 'r',some 'd',some 's'] := by
      simp only [List.mem_cons,List.not_mem_nil,or_false] at hkey ⊢
      exact Or.inr (Or.inr hkey)
    rw [unranked,Option.bind_none,Option.elim_none,registerAt,registerAt,ranks,seq _ hseq]

end
end Flagship.Access

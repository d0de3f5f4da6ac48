import Mathlib.Data.List.Sort
import Mathlib.Data.List.MinMax
import Mathlib.Data.List.Dedup
import Flagship.Lib.Run
import Flagship.Access.Journal

namespace Flagship.Journal
open Lib

/-- The letters a key starts with tell the kinds apart, but for a join and an accept. -/
def Kind.tag : Kind → Text
  | .rank => ['r','a']
  | .mode => ['m','o']
  | .remove => ['r','e']
  | .join | .accept => ['j','o']
  | .withdraw => ['w','i']
  | .share => ['s','h']

/-- What an entry weighs against the others under its key: an order its time, a
grant its time until the share's end, and what is final the most. -/
def weight (e : AccessEntry) : WithTop Rat :=
  match e.kind with
  | some .rank | some .mode | some .remove => ((entryTime e).getD 0 : Rat)
  | some .share => if e.hasEnd then ⊤ else ((entryTime e).getD 0 : Rat)
  | _ => ⊤

theorem kind_isSome (e : AccessEntry) : ∃ k, e.kind = some k := by
  cases hk : e.kind with
  | some k => exact ⟨k,rfl⟩
  | none =>
    have hs := e.shaped
    unfold parseEntry at hs
    unfold AccessEntry.kind at hk
    rw [hk] at hs
    cases hs

theorem time_of_objWith {v : Json} {outer inner : String} {test : Json → Bool}
    (h : objWith (v.get outer) test = true)
    (ht : ∀ o, test o = true → isNum (o.get inner) = true) :
    ∃ q, ((v.get outer).bind (·.get inner)).bind Json.asF64 = some q := by
  obtain ⟨o,ho,hok⟩ := (Option.any_eq_true _ _).mp h
  simp only [Bool.and_eq_true] at hok
  exact Option.isSome_iff_exists.mp (by simpa [ho,isNum] using ht o hok.2)

/-- An order and a grant carry their time. -/
theorem entryTime_isSome {e : AccessEntry}
    (h : e.kind = some .rank ∨ e.kind = some .mode ∨ e.kind = some .remove ∨ e.kind = some .share) :
    ∃ q, entryTime e = some q := by
  have hs := e.shaped
  unfold entryTime AccessEntry.field
  unfold parseEntry at hs
  unfold AccessEntry.kind at h ⊢
  rcases h with h | h | h | h
  all_goals rw [h] at hs
  all_goals simp only [Bool.and_eq_true] at hs
  · rw [h]
    exact time_of_objWith hs.2 fun o ho => by
      simp only [Bool.and_eq_true] at ho
      exact ho.1.2
  · rw [h]
    exact time_of_objWith hs.2 fun o ho => by
      simp only [Bool.and_eq_true] at ho
      exact ho.1.2
  · rw [h]
    exact time_of_objWith hs.2 fun o ho => by
      simp only [Bool.and_eq_true] at ho
      exact ho.1.2
  · rw [h]
    exact time_of_objWith hs.1.2 fun o ho => by
      simp only [Bool.and_eq_true] at ho
      exact ho.2

theorem Kind.eq_of_tag {k k' : Kind} (h : k.tag = k'.tag) :
    k = k' ∨ k ∈ [.join,.accept] ∧ k' ∈ [.join,.accept] := by
  cases k <;> cases k' <;> first | exact Or.inl rfl | exact Or.inr (by decide) | cases h

theorem laterThan_iff {a b : Rat} : laterThan (some a) (some b) = true ↔ b < a := by
  simp [laterThan]

theorem mem_entries_iff {r : Text} {j : AccessJournal} {e : AccessEntry} :
    e ∈ j.entries r ↔ ∃ k, (j.app r).get? k = some e := by
  simp only [AccessJournal.entries,List.mem_map,Prod.exists,OrdMap.mem_entries]
  constructor
  · rintro ⟨k,_,h,rfl⟩
    exact ⟨k,h⟩
  · rintro ⟨k,h⟩
    exact ⟨k,e,h,rfl⟩

section
variable [Platform]

/-- What is held under a key once an entry with that key is offered. -/
def offer (held : Option AccessEntry) (e : AccessEntry) : Option AccessEntry :=
  match held with
  | none => some e
  | some prev => if entryHash prev = entryHash e ∨ supersedes e prev = false then some prev else some e

theorem offer_some (held : Option AccessEntry) (e : AccessEntry) :
    offer held e = some e ∨ offer held e = held ∧ held ≠ none := by
  unfold offer
  cases held with
  | none => exact Or.inl rfl
  | some prev =>
    simp only
    split
    · exact Or.inr ⟨rfl,by simp⟩
    · exact Or.inl rfl

/-- Only entries offered are held. -/
theorem foldl_offer_of {p : AccessEntry → Prop} {l : List AccessEntry} {held : Option AccessEntry}
    (hl : ∀ e ∈ l, p e) (hh : ∀ e, held = some e → p e) :
    ∀ e, l.foldl offer held = some e → p e := by
  induction l generalizing held with
  | nil => exact hh
  | cons e l ih =>
    refine ih (fun x hx => hl x (List.mem_cons_of_mem _ hx)) fun x hx => ?_
    rcases offer_some held e with ho | ⟨ho,_⟩
    · rw [ho] at hx
      cases hx
      exact hl e List.mem_cons_self
    · exact hh x (ho ▸ hx)

/-- Two journals hold the same entries of an app, under the same keys, and so
have the same fingerprint of it. -/
def SameJournal (r : Text) (j j' : AccessJournal) : Prop :=
  (∀ k, (j.app r).get? k = (j'.app r).get? k) ∧ j.digest r = j'.digest r

theorem sameJournal_of_app {r : Text} {j j' : AccessJournal}
    (h : ∀ k, (j.app r).get? k = (j'.app r).get? k) : SameJournal r j j' := by
  refine ⟨h,?_⟩
  have hperm : (j.app r).entries.Perm (j'.app r).entries := by
    refine (List.perm_ext_iff_of_nodup (j.app r).nodup.of_map (j'.app r).nodup.of_map).mpr ?_
    rintro ⟨k,e⟩
    rw [OrdMap.mem_entries,OrdMap.mem_entries,h k]
  unfold AccessJournal.digest
  have hsort : ∀ {l l' : List Text}, l.Perm l' →
      l.mergeSort (fun a b => decide (a ≤ b)) = l'.mergeSort (fun a b => decide (a ≤ b)) :=
    fun hp => (((List.mergeSort_perm _ _).trans hp).trans (List.mergeSort_perm _ _).symm).eq_of_pairwise'
      (r := (· ≤ ·)) (List.pairwise_mergeSort' _ _) (List.pairwise_mergeSort' _ _)
  simp only
  rw [hsort (hperm.map _)]

variable [Lowercase]

theorem entryKey_tag {e : AccessEntry} {k : Kind} (h : e.kind = some k) :
    (entryKey e).take 2 = k.tag := by
  unfold entryKey
  rw [h]
  cases k <;> rfl

/-- Under one key, the heavier entry supersedes. -/
theorem supersedes_iff {e prev : AccessEntry} (hk : entryKey e = entryKey prev) :
    supersedes e prev = true ↔ weight prev < weight e := by
  obtain ⟨k,he⟩ := kind_isSome e
  obtain ⟨k',hp⟩ := kind_isSome prev
  have htag : k.tag = k'.tag := by rw [← entryKey_tag he,← entryKey_tag hp,hk]
  have horder : k = k' → k ∈ [.rank,.mode,.remove] →
      (supersedes e prev = true ↔ weight prev < weight e) := by
    rintro rfl hm
    have hkinds : ∀ {x : AccessEntry}, x.kind = some k → x.kind = some .rank ∨ x.kind = some .mode ∨
        x.kind = some .remove ∨ x.kind = some .share := by
      intro x hx
      rw [hx]
      simp only [List.mem_cons,List.not_mem_nil,or_false] at hm
      rcases hm with rfl | rfl | rfl <;> simp
    obtain ⟨q,hq⟩ := entryTime_isSome (hkinds he)
    obtain ⟨q',hq'⟩ := entryTime_isSome (hkinds hp)
    simp only [List.mem_cons,List.not_mem_nil,or_false] at hm
    rcases hm with rfl | rfl | rfl <;>
      simp [supersedes,weight,latestWins,he,hp,hq,hq',laterThan_iff]
  rcases Kind.eq_of_tag htag with rfl | ⟨hj,hj'⟩
  · cases k with
    | rank | mode | remove => exact horder rfl (by decide)
    | join | accept | withdraw => simp [supersedes,weight,latestWins,he,hp]
    | share =>
      obtain ⟨q,hq⟩ := entryTime_isSome (e := e) (by simp [he])
      obtain ⟨q',hq'⟩ := entryTime_isSome (e := prev) (by simp [hp])
      by_cases hend : prev.hasEnd = true
      · simp [supersedes,weight,he,hp,hend]
      · by_cases hend' : e.hasEnd = true
        · simp [supersedes,weight,he,hp,hend,hend']
        · simp [supersedes,weight,he,hp,hend,hend',hq,hq',laterThan_iff]
  · simp only [List.mem_cons,List.not_mem_nil,or_false] at hj hj'
    rcases hj with rfl | rfl <;> rcases hj' with rfl | rfl <;>
      simp [supersedes,weight,latestWins,he,hp]

/-- The journal after entries are added, in order. -/
def addAll (r : Text) : AccessJournal → List AccessEntry → AccessJournal :=
  run fun j e => (j.add r e).1

variable {r : Text} {S : List AccessEntry}

/-- The journal holds keys of some entries only, which are fewer than the cap. -/
def Room (S : List AccessEntry) (m : OrdMap Text AccessEntry) : Prop :=
  ((S.map entryKey).dedup).length < journalCap ∧ ∀ k ∈ m.keys, k ∈ S.map entryKey

theorem Room.size_lt {m : OrdMap Text AccessEntry} (h : Room S m) : m.size < journalCap := by
  have hsub : m.keys ⊆ (S.map entryKey).dedup := fun k hk => List.mem_dedup.mpr (h.2 k hk)
  have hle := (List.subperm_of_subset m.keys_nodup hsub).length_le
  have hsize : m.size = m.keys.length := by simp [OrdMap.size,OrdMap.keys]
  exact (hsize ▸ hle).trans_lt h.1

theorem app_add (j : AccessJournal) (e : AccessEntry) (hroom : Room S (j.app r)) (k : Text) :
    ((j.add r e).1.app r).get? k =
      if entryKey e = k then offer ((j.app r).get? k) e else (j.app r).get? k := by
  have happ : (j.add r e).1.app r = if (j.add r e).2 then (j.app r).set (entryKey e) e else j.app r := by
    simp [AccessJournal.add,AccessJournal.app]
  rw [happ]
  by_cases hk : entryKey e = k
  · subst hk
    have hfree : decide (journalCap ≤ (j.app r).size) = false := by
      simpa using hroom.size_lt
    rw [if_pos rfl]
    unfold offer
    cases hprev : (j.app r).get? (entryKey e) with
    | none =>
      have hkeep : (j.add r e).2 = true := by simp [AccessJournal.add,hprev,hfree]
      simp [hkeep]
    | some prev =>
      have hkeep : (j.add r e).2 = !(decide (entryHash prev = entryHash e) || !supersedes e prev) := by
        simp [AccessJournal.add,hprev]
      simp only
      by_cases hheld : entryHash prev = entryHash e ∨ supersedes e prev = false
      · rw [if_pos hheld,if_neg]
        · exact hprev
        · rw [hkeep]
          rcases hheld with h | h <;> simp [h]
      · rw [if_neg hheld,if_pos]
        · simp
        · rw [hkeep]
          simpa using hheld
  · rw [if_neg hk]
    split
    · exact OrdMap.get?_set_ne (Ne.symm hk)
    · rfl

theorem room_add {j : AccessJournal} {e : AccessEntry} (hroom : Room S (j.app r)) (he : e ∈ S) :
    Room S ((j.add r e).1.app r) := by
  refine ⟨hroom.1,fun k hk => ?_⟩
  obtain ⟨x,hx⟩ := ((j.add r e).1.app r).mem_keys.mp hk
  rw [app_add j e hroom] at hx
  split at hx
  · rename_i hkey
    exact List.mem_map.mpr ⟨e,he,hkey⟩
  · exact hroom.2 k ((j.app r).mem_keys.mpr ⟨x,hx⟩)

theorem room_empty (hcap : ((S.map entryKey).dedup).length < journalCap) :
    Room S (AccessJournal.empty.app r) := by
  refine ⟨hcap,fun k hk => ?_⟩
  obtain ⟨x,hx⟩ := (AccessJournal.empty.app r).mem_keys.mp hk
  cases hx

theorem room_addAll {j : AccessJournal} {l : List AccessEntry} (hroom : Room S (j.app r))
    (hl : l ⊆ S) : Room S ((addAll r j l).app r) := by
  induction l generalizing j with
  | nil => exact hroom
  | cons e l ih =>
    obtain ⟨he,hl⟩ := List.cons_subset.mp hl
    exact ih (room_add hroom he) hl

/-- Each key sees the entries with that key, one after the other. -/
theorem app_addAll {j : AccessJournal} {l : List AccessEntry} (hroom : Room S (j.app r))
    (hl : l ⊆ S) (k : Text) :
    ((addAll r j l).app r).get? k =
      (l.filter (fun e => decide (entryKey e = k))).foldl offer ((j.app r).get? k) := by
  induction l generalizing j with
  | nil => rfl
  | cons e l ih =>
    obtain ⟨he,hl⟩ := List.cons_subset.mp hl
    refine (ih (room_add hroom he) hl).trans ?_
    rw [app_add j e hroom]
    by_cases hk : entryKey e = k
    · simp [hk]
    · simp [hk]

/-- No entry of the set supersedes this one under its key. -/
def Greatest (S : List AccessEntry) (b : AccessEntry) : Prop :=
  b ∈ S ∧ ∀ c ∈ S, entryKey c = entryKey b → supersedes c b = false

/-- Under each key one entry stands over all others of the set, and no other
there hashes like it. -/
def OneWinner (S : List AccessEntry) : Prop :=
  ∀ a ∈ S, ∀ b, Greatest S b → entryKey a = entryKey b →
    supersedes b a = false ∨ entryHash a = entryHash b → a = b

theorem exists_greatest {k : Text} (h : ∃ e ∈ S, entryKey e = k) :
    ∃ w, Greatest S w ∧ entryKey w = k := by
  obtain ⟨e,he,hk⟩ := h
  have hmem : e ∈ S.filter (fun e => decide (entryKey e = k)) := by simp [he,hk]
  cases hmax : (S.filter (fun e => decide (entryKey e = k))).argmax weight with
  | none =>
    rw [List.argmax_eq_none.mp hmax] at hmem
    cases hmem
  | some w =>
    have hw := List.argmax_mem hmax
    simp only [List.mem_filter,decide_eq_true_eq] at hw
    refine ⟨w,⟨hw.1,fun c hc hck => ?_⟩,hw.2⟩
    rw [← Bool.not_eq_true,supersedes_iff hck,not_lt]
    exact List.le_of_mem_argmax (by simp [hc,hck,hw.2]) hmax

theorem offer_greatest {w e : AccessEntry} (hw : Greatest S w) (he : e ∈ S)
    (hk : entryKey e = entryKey w) : offer (some w) e = some w :=
  if_pos (Or.inr (hw.2 e he hk))

/-- What is held first and superseded by nothing stays. -/
theorem foldl_offer_greatest {w : AccessEntry} (hw : Greatest S w) {l : List AccessEntry}
    (hl : l ⊆ S) (hk : ∀ e ∈ l, entryKey e = entryKey w) : l.foldl offer (some w) = some w := by
  induction l with
  | nil => rfl
  | cons e l ih =>
    obtain ⟨he,hl⟩ := List.cons_subset.mp hl
    rw [List.foldl_cons,offer_greatest hw he (hk e List.mem_cons_self)]
    exact ih hl fun x hx => hk x (List.mem_cons_of_mem _ hx)

/-- The one winner among entries wins once it is offered, whatever comes before
and after it. -/
theorem foldl_offer_winner {w : AccessEntry} (hone : OneWinner S) (hw : Greatest S w)
    {l : List AccessEntry} (hl : l ⊆ S) (hk : ∀ e ∈ l, entryKey e = entryKey w) (hmem : w ∈ l) :
    l.foldl offer none = some w := by
  obtain ⟨before,after,rfl⟩ := List.append_of_mem hmem
  have hbefore : ∀ x, before.foldl offer none = some x → x ∈ S ∧ entryKey x = entryKey w :=
    foldl_offer_of (fun e he => ⟨hl (by simp [he]),hk e (by simp [he])⟩) (by simp)
  rw [List.foldl_append,List.foldl_cons]
  have htakes : offer (before.foldl offer none) w = some w := by
    cases hheld : before.foldl offer none with
    | none => rfl
    | some x =>
      obtain ⟨hx,hxk⟩ := hbefore x hheld
      unfold offer
      simp only
      split
      · rename_i h
        rw [hone x hx w hw hxk h.symm]
      · rfl
  rw [htakes]
  exact foldl_offer_greatest hw (fun e he => hl (by simp [he])) fun e he => hk e (by simp [he])

/-- A journal that was offered the winner of each key, and nothing outside the
set, holds the winners. -/
theorem app_winner {w : AccessEntry} {l : List AccessEntry}
    (hcap : ((S.map entryKey).dedup).length < journalCap) (hone : OneWinner S)
    (hw : Greatest S w) (hl : l ⊆ S) (hmem : w ∈ l) :
    ((addAll r .empty l).app r).get? (entryKey w) = some w := by
  rw [app_addAll (room_empty hcap) hl]
  refine foldl_offer_winner hone hw (fun e he => hl (List.mem_filter.mp he).1) (fun e he => ?_) ?_
  · simpa using (List.mem_filter.mp he).2
  · simp [hmem]

theorem app_none {l : List AccessEntry} (hcap : ((S.map entryKey).dedup).length < journalCap)
    (hl : l ⊆ S) {k : Text} (hk : ¬ ∃ e ∈ S, entryKey e = k) :
    ((addAll r .empty l).app r).get? k = none := by
  rw [app_addAll (room_empty hcap) hl,List.filter_eq_nil_iff.mpr]
  · rfl
  · intro e he hek
    exact hk ⟨e,hl he,by simpa using hek⟩

theorem app_mem {l : List AccessEntry} (hcap : ((S.map entryKey).dedup).length < journalCap)
    (hl : l ⊆ S) {k : Text} {e : AccessEntry}
    (h : ((addAll r .empty l).app r).get? k = some e) : e ∈ l ∧ entryKey e = k := by
  rw [app_addAll (room_empty hcap) hl] at h
  refine foldl_offer_of (p := fun e => e ∈ l ∧ entryKey e = k) (fun x hx => ?_) (by
    intro x hx
    cases hx) e h
  simpa using hx

theorem addAll_append (j : AccessJournal) (l l' : List AccessEntry) :
    addAll r j (l ++ l') = addAll r (addAll r j l) l' := run_append _ _ _ _

/-- With one winner a key, all that matters is that the winners were offered. -/
theorem sameJournal_of_winners {l l' : List AccessEntry}
    (hcap : ((S.map entryKey).dedup).length < journalCap) (hone : OneWinner S) (hl : l ⊆ S)
    (hl' : l' ⊆ S) (hw : ∀ w, Greatest S w → w ∈ l ∧ w ∈ l') :
    SameJournal r (addAll r .empty l) (addAll r .empty l') := by
  refine sameJournal_of_app fun k => ?_
  by_cases hk : ∃ e ∈ S, entryKey e = k
  · obtain ⟨w,hg,rfl⟩ := exists_greatest hk
    rw [app_winner hcap hone hg hl (hw w hg).1,app_winner hcap hone hg hl' (hw w hg).2]
  · rw [app_none hcap hl hk,app_none hcap hl' hk]

/-- Every order leaves the same journal only if one entry wins under each key. -/
theorem oneWinner_of_orders (hcap : ((S.map entryKey).dedup).length < journalCap)
    (h : ∀ l l', (∀ e, e ∈ l ↔ e ∈ S) → (∀ e, e ∈ l' ↔ e ∈ S) →
      SameJournal r (addAll r .empty l) (addAll r .empty l')) : OneWinner S := by
  intro a ha b hb hk htie
  by_contra hne
  classical
  have hlose : ∀ e, e ∈ a :: b :: S.filter (fun e => decide (e ≠ b)) ↔ e ∈ S := by
    intro e
    simp only [List.mem_cons,List.mem_filter,decide_eq_true_eq]
    constructor
    · rintro (rfl | rfl | h)
      · exact ha
      · exact hb.1
      · exact h.1
    · intro he
      by_cases heb : e = b
      · exact Or.inr (Or.inl heb)
      · exact Or.inr (Or.inr ⟨he,heb⟩)
  have hwin : ∀ e, e ∈ b :: S ↔ e ∈ S := fun e =>
    ⟨fun he => (List.mem_cons.mp he).elim (fun h => h ▸ hb.1) id,List.mem_cons_of_mem _⟩
  have hsame := (h _ _ hlose hwin).1 (entryKey b)
  rw [app_addAll (room_empty hcap) fun e he => (hlose e).mp he,
    app_addAll (room_empty hcap) fun e he => (hwin e).mp he] at hsame
  have hfirst : offer (some a) b = some a := if_pos htie.symm
  have hb' : (((b :: S).filter fun e => decide (entryKey e = entryKey b)).foldl offer
      ((AccessJournal.empty.app r).get? (entryKey b))) = some b := by
    rw [List.filter_cons_of_pos (by simp),List.foldl_cons]
    exact foldl_offer_greatest hb (fun e he => (List.mem_filter.mp he).1) fun e he => by
      simpa using (List.mem_filter.mp he).2
  rw [hb',List.filter_cons_of_pos (by simpa using hk),List.filter_cons_of_pos (by simp),
    List.foldl_cons,List.foldl_cons] at hsame
  refine foldl_offer_of (p := fun e => e ≠ b) (fun e he => ?_) (fun e he => ?_) b hsame rfl
  · simpa using (List.mem_filter.mp (List.mem_filter.mp he).1).2
  · have hfirst : offer (offer none a) b = some a := hfirst
    rw [show (AccessJournal.empty.app r).get? (entryKey b) = none from rfl,hfirst] at he
    cases he
    exact hne

/-- Two boxes that handed each other all they held then hold the same only if
one entry wins under each key. -/
theorem oneWinner_of_exchange (hcap : ((S.map entryKey).dedup).length < journalCap)
    (h : ∀ la lb toA toB, (∀ e, e ∈ la ∨ e ∈ lb ↔ e ∈ S) →
      (∀ e, e ∈ toA ↔ e ∈ (addAll r .empty lb).entries r) →
      (∀ e, e ∈ toB ↔ e ∈ (addAll r .empty la).entries r) →
      SameJournal r (addAll r (addAll r .empty la) toA) (addAll r (addAll r .empty lb) toB)) :
    OneWinner S := by
  intro a ha b hb hk htie
  have hA : ∀ e, e ∈ [a] ∨ e ∈ b :: S ↔ e ∈ S := by
    intro e
    simp only [List.mem_cons,List.not_mem_nil,or_false]
    constructor
    · rintro (rfl | rfl | he)
      · exact ha
      · exact hb.1
      · exact he
    · exact fun he => Or.inr (Or.inr he)
  have hsame := (h [a] (b :: S) _ _ hA (fun _ => Iff.rfl) (fun _ => Iff.rfl)).1 (entryKey b)
  have hsubA : [a] ⊆ S := fun e he => (hA e).mp (Or.inl he)
  have hsubB : b :: S ⊆ S := fun e he => (hA e).mp (Or.inr he)
  have hholdsB : ((addAll r .empty (b :: S)).app r).get? (entryKey b) = some b := by
    rw [app_addAll (room_empty hcap) hsubB,List.filter_cons_of_pos (by simp),List.foldl_cons]
    exact foldl_offer_greatest hb (fun e he => (List.mem_filter.mp he).1) fun e he => by
      simpa using (List.mem_filter.mp he).2
  have hholdsA : ((addAll r .empty [a]).app r).get? (entryKey b) = some a := by
    rw [app_addAll (room_empty hcap) hsubA,List.filter_cons_of_pos (by simpa using hk)]
    rfl
  rw [app_addAll (room_addAll (room_empty hcap) hsubA),
    app_addAll (room_addAll (room_empty hcap) hsubB),hholdsA,hholdsB] at hsame
  · have hright := foldl_offer_greatest (S := S) hb
      (l := ((addAll r .empty [a]).entries r).filter fun e => decide (entryKey e = entryKey b))
      (fun e he => ?_) (fun e he => by simpa using (List.mem_filter.mp he).2)
    · rw [hright] at hsame
      have hleft : ∀ l : List AccessEntry, (∀ e ∈ l, e = b) →
          l.foldl offer (some a) = some a := by
        intro l
        induction l with
        | nil => exact fun _ => rfl
        | cons e l ih =>
          intro hall
          rw [List.foldl_cons,hall e List.mem_cons_self,show offer (some a) b = some a from
            if_pos htie.symm]
          exact ih fun x hx => hall x (List.mem_cons_of_mem _ hx)
      rw [hleft] at hsame
      · exact Option.some.inj hsame
      · intro e he
        obtain ⟨he,hek⟩ := List.mem_filter.mp he
        obtain ⟨k,hget⟩ := mem_entries_iff.mp he
        have hkey := (app_mem hcap hsubB hget).2
        have hkb : k = entryKey b := hkey.symm.trans (by simpa using hek)
        rw [hkb,hholdsB] at hget
        exact (Option.some.inj hget).symm
    · obtain ⟨k,hget⟩ := mem_entries_iff.mp (List.mem_filter.mp he).1
      exact hsubA (app_mem hcap hsubA hget).1
  all_goals
    intro e he
    obtain ⟨k,hget⟩ := mem_entries_iff.mp he
  · exact hsubA (app_mem hcap hsubA hget).1
  · exact hsubB (app_mem hcap hsubB hget).1

end

/-! Entries of one app, where a text is its own hash. -/
namespace Sample

scoped instance identityHash : Platform := ⟨fun _ => [],id⟩

def app : Text := "app".toList

def text (s : String) : Json := .str s.toList

def sig : Json := .str (List.replicate 128 'a')

/-- A withdraw of one invite, dated. -/
def withdrawJson (t : Nat) : Json :=
  .obj [("kind".toList,text "withdraw"),("revoke".toList,.obj [("inviteId".toList,text "i"),
    ("issuedAt".toList,.num (.u64 t))]),("signature".toList,sig)]

/-- An order that closes the app, dated. -/
def restrictJson (t : Nat) : Json :=
  .obj [("kind".toList,text "mode"),("order".toList,.obj [("issuedAt".toList,.num (.u64 t)),
    ("mode".toList,text "restricted"),("serviceRef".toList,text "app")]),("signature".toList,sig)]

def withdraw1 : AccessEntry := ⟨withdrawJson 1,by decide +kernel,by decide +kernel⟩
def withdraw2 : AccessEntry := ⟨withdrawJson 2,by decide +kernel,by decide +kernel⟩
def restrict5 : AccessEntry := ⟨restrictJson 5,by decide +kernel,by decide +kernel⟩
def restrict10 : AccessEntry := ⟨restrictJson 10,by decide +kernel,by decide +kernel⟩

end Sample

section
open Sample

end
end Flagship.Journal

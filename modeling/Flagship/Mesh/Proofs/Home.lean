import Flagship.Mesh.RelayLog
import Flagship.Mesh.Proofs.Convergence

namespace Flagship.Mesh.Proofs
open Lib Mesh

/-- When the account's boxes attached at a relay. -/
def timesOn (attachments : List HomeAttachment) (relayId : Text) : List Nat :=
  (attachments.filter fun a => decide (a.relayId = relayId)).map HomeAttachment.attachedAt

/-- The first attachment at a relay. -/
def firstOn (attachments : List HomeAttachment) (relayId : Text) : Nat :=
  (timesOn attachments relayId).min?.getD 0

/-- More attachments; with as many, an earlier first one; with the same, a smaller id. -/
def Outranks (attachments : List HomeAttachment) (relayId other : Text) : Prop :=
  (timesOn attachments other).length < (timesOn attachments relayId).length ∨
  (timesOn attachments relayId).length = (timesOn attachments other).length ∧
    (firstOn attachments relayId < firstOn attachments other ∨
      firstOn attachments relayId = firstOn attachments other ∧ relayId < other)

/-- What `compareHomes` compares, as one ordered key. -/
def homeRank (e : Text × Nat × Nat) : ℕ ×ₗ ℕᵒᵈ ×ₗ Textᵒᵈ :=
  toLex (e.2.1,toLex (OrderDual.toDual e.2.2,OrderDual.toDual e.1))

theorem compareHomes_gt (a b : Text × Nat × Nat) :
    compareHomes a b = .gt ↔ homeRank b < homeRank a := by
  rw [compareHomes,Ordering.then_eq_gt,Ordering.then_eq_gt,cmp_text_gt,cmp_eq_gt_iff,
    cmp_eq_gt_iff,cmp_eq_eq_iff,cmp_eq_eq_iff]
  simp only [homeRank,Prod.Lex.toLex_lt_toLex,OrderDual.toDual_lt_toDual,OrderDual.toDual_inj,
    @eq_comm _ a.2.1]

theorem homeRank_id {a b : Text × Nat × Nat} (h : homeRank a = homeRank b) : a.1 = b.1 := by
  simp only [homeRank,EmbeddingLike.apply_eq_iff_eq,Prod.mk.injEq] at h
  exact h.2.2

section
variable (directory : Option RelayDirectoryBody)

theorem timesOn_append (attachments : List HomeAttachment) (a : HomeAttachment) (id : Text) :
    timesOn (attachments ++ [a]) id =
      if a.relayId = id then timesOn attachments id ++ [a.attachedAt] else timesOn attachments id := by
  unfold timesOn
  rw [List.filter_append,List.map_append]
  by_cases h : a.relayId = id <;> simp [h]

theorem firstOn_append {attachments : List HomeAttachment} {a : HomeAttachment} {id : Text}
    (h : a.relayId = id) : firstOn (attachments ++ [a]) id =
      if timesOn attachments id = [] then a.attachedAt
      else min (firstOn attachments id) a.attachedAt := by
  unfold firstOn
  rw [timesOn_append,if_pos h]
  cases timesOn attachments id with
  | nil => rfl
  | cons t ts =>
    rw [if_neg (List.cons_ne_nil t ts),List.cons_append,List.min?_cons',List.min?_cons',
      List.foldl_append]
    rfl

/-- One pass counts the attachments of every `full` relay and finds the first of them. -/
theorem counts_get? (attachments : List HomeAttachment) (id : Text) :
    (attachments.foldl (countAttachment directory) ∅).get? id =
      if isFullRelay directory id = true ∧ timesOn attachments id ≠ [] then
        some ((timesOn attachments id).length,firstOn attachments id)
      else none := by
  induction attachments using List.reverseRecOn with
  | nil => simp [timesOn]
  | append_singleton attachments a ih =>
    rw [List.foldl_append,List.foldl_cons,List.foldl_nil,countAttachment]
    generalize attachments.foldl (countAttachment directory) ∅ = per at ih
    by_cases hid : a.relayId = id
    · subst hid
      by_cases hfull : isFullRelay directory a.relayId = true
      · have hne : timesOn (attachments ++ [a]) a.relayId ≠ [] := by simp [timesOn_append]
        rw [if_pos hfull,OrdMap.get?_set_self,if_pos ⟨hfull,hne⟩,ih,timesOn_append,if_pos rfl,
          firstOn_append rfl]
        by_cases hnil : timesOn attachments a.relayId = []
        · simp [hfull,hnil]
        · simp [hfull,hnil]
      · rw [if_neg hfull,ih,if_neg (fun h => hfull h.1),if_neg (fun h => hfull h.1)]
    · have hsame : timesOn (attachments ++ [a]) id = timesOn attachments id := by
        rw [timesOn_append,if_neg hid]
      have hfirst : firstOn (attachments ++ [a]) id = firstOn attachments id := by
        rw [firstOn,hsame,firstOn]
      rw [hsame,hfirst,← ih]
      split
      · exact OrdMap.get?_set_ne (Ne.symm hid)
      · rfl

theorem timesOn_ne_nil {attachments : List HomeAttachment} {id : Text} :
    timesOn attachments id ≠ [] ↔ ∃ a ∈ attachments,a.relayId = id := by
  simp [timesOn,List.filter_eq_nil_iff]

/-- The pairs the ranking chooses among. -/
theorem mem_counts {attachments : List HomeAttachment} {id : Text} {v : Nat × Nat} :
    (id,v) ∈ (attachments.foldl (countAttachment directory) ∅).sorted.entries ↔
      isFullRelay directory id = true ∧ (∃ a ∈ attachments,a.relayId = id) ∧
        v = ((timesOn attachments id).length,firstOn attachments id) := by
  rw [(OrdMap.entries_sorted _).mem_iff,OrdMap.mem_entries,counts_get?,← timesOn_ne_nil]
  constructor
  · intro h
    split at h
    · rename_i hok
      exact ⟨hok.1,hok.2,(Option.some.inj h).symm⟩
    · cases h
  · rintro ⟨hfull,hne,rfl⟩
    rw [if_pos ⟨hfull,hne⟩]

variable {directory} {attachments : List HomeAttachment}

theorem homeRank_lt {id other : Text} :
    homeRank (other,(timesOn attachments other).length,firstOn attachments other) <
      homeRank (id,(timesOn attachments id).length,firstOn attachments id) ↔
    Outranks attachments id other := by
  simp only [homeRank,Outranks,Prod.Lex.toLex_lt_toLex,OrderDual.toDual_lt_toDual,
    OrderDual.toDual_inj]
  rw [@eq_comm _ (timesOn attachments other).length,@eq_comm _ (firstOn attachments other)]

/-- A relay the account could live at. -/
def Eligible (attachments : List HomeAttachment) (directory : Option RelayDirectoryBody)
    (id : Text) : Prop :=
  isFullRelay directory id = true ∧ ∃ a ∈ attachments,a.relayId = id

theorem rankedHome_spec {id : Text} (h : rankedHome attachments directory = some id) :
    Eligible attachments directory id ∧
      ∀ other,Eligible attachments directory other → other ≠ id → Outranks attachments id other := by
  obtain ⟨⟨_,v⟩,hmax,rfl⟩ := Option.map_eq_some_iff.mp h
  obtain ⟨hmem,hle⟩ := maxBy_spec compareHomes_gt hmax
  obtain ⟨hfull,hhas,rfl⟩ := (mem_counts directory).mp hmem
  refine ⟨⟨hfull,hhas⟩,?_⟩
  intro other ⟨hfull',hhas'⟩ hne
  have hother := hle _ ((mem_counts directory).mpr ⟨hfull',hhas',rfl⟩)
  exact homeRank_lt.mp (hother.lt_of_ne fun heq => hne (homeRank_id heq))

theorem rankedHome_none : rankedHome attachments directory = none ↔
    ∀ id,¬Eligible attachments directory id := by
  constructor
  · intro h id ⟨hfull,hhas⟩
    have hnil := maxBy_eq_none.mp (Option.map_eq_none_iff.mp h)
    have hmem := (mem_counts directory).mpr ⟨hfull,hhas,rfl⟩
    rw [hnil] at hmem
    cases hmem
  · intro h
    cases hhome : rankedHome attachments directory with
    | none => rfl
    | some id => exact absurd (rankedHome_spec hhome).1 (h id)

/-- The ranking chooses the eligible relay above all others. -/
theorem rankedHome_some {id : Text} : rankedHome attachments directory = some id ↔
    Eligible attachments directory id ∧
      ∀ other,Eligible attachments directory other → other ≠ id → Outranks attachments id other := by
  refine ⟨rankedHome_spec,?_⟩
  rintro ⟨helig,habove⟩
  cases hhome : rankedHome attachments directory with
  | none => exact absurd helig (rankedHome_none.mp hhome id)
  | some chosen =>
    obtain ⟨helig',habove'⟩ := rankedHome_spec hhome
    by_cases hsame : chosen = id
    · rw [hsame]
    · have hup := homeRank_lt.mpr (habove chosen helig' hsame)
      have hdown := homeRank_lt.mpr (habove' id helig (Ne.symm hsame))
      exact absurd hup (lt_asymm hdown)

theorem timesOn_perm {attachments' : List HomeAttachment} (h : attachments.Perm attachments')
    (id : Text) : (timesOn attachments id).Perm (timesOn attachments' id) :=
  (h.filter _).map _

theorem outranks_perm {attachments' : List HomeAttachment} (h : attachments.Perm attachments')
    (id other : Text) : Outranks attachments id other ↔ Outranks attachments' id other := by
  have hlen : ∀ x,(timesOn attachments x).length = (timesOn attachments' x).length :=
    fun x => (timesOn_perm h x).length_eq
  have hfirst : ∀ x,firstOn attachments x = firstOn attachments' x := by
    intro x
    have hmin : (timesOn attachments x).min? = (timesOn attachments' x).min? := by
      apply Option.ext
      intro t
      simp only [List.min?_eq_some_iff,(timesOn_perm h x).mem_iff]
    rw [firstOn,hmin,firstOn]
  unfold Outranks
  rw [hlen,hlen,hfirst,hfirst]

/-- The ranking does not look at the order of the attachments. -/
theorem rankedHome_perm {attachments' : List HomeAttachment} (h : attachments.Perm attachments') :
    rankedHome attachments directory = rankedHome attachments' directory := by
  have helig : ∀ id,Eligible attachments directory id ↔ Eligible attachments' directory id := by
    intro id
    simp only [Eligible,h.mem_iff]
  apply Option.ext
  intro id
  simp only [rankedHome_some,helig,outranks_perm h]

/-- An unexpired move to a relay that has an attachment. -/
def MovesTo (attachments : List HomeAttachment) (accountMove : Option (Text × Nat)) (now : Nat)
    (id : Text) : Prop :=
  ∃ notAfter,accountMove = some (id,notAfter) ∧ now < notAfter ∧ ∃ a ∈ attachments,a.relayId = id

variable {accountMove : Option (Text × Nat)} {now : Nat}

theorem accountHome_of_move {id : Text} (h : MovesTo attachments accountMove now id) :
    accountHome attachments directory accountMove now = some id := by
  obtain ⟨notAfter,rfl,hlive,a,ha,hid⟩ := h
  have hany : attachments.any (fun a => decide (a.relayId = id)) = true :=
    List.any_eq_true.mpr ⟨a,ha,decide_eq_true hid⟩
  unfold accountHome
  exact if_pos ⟨hlive,hany⟩

theorem accountHome_of_no_move (h : ∀ id,¬MovesTo attachments accountMove now id) :
    accountHome attachments directory accountMove now = rankedHome attachments directory := by
  unfold accountHome
  split
  · rename_i target notAfter
    apply if_neg
    rintro ⟨hlive,hany⟩
    obtain ⟨a,ha,hid⟩ := List.any_eq_true.mp hany
    exact h target ⟨notAfter,rfl,hlive,a,ha,of_decide_eq_true hid⟩
  · rfl

end

/-- The home is the same for every order of the attachments. Without an unexpired move to a
relay that has an attachment it is the `full` relay with the most attachments, then the
earliest first one, then the smallest id, and there is none exactly if no attachment is on
a `full` relay. With such a move it is the move's target, and only so can it be a relay
that is not `full` in the directory. -/
theorem account_home_choice (attachments : List HomeAttachment)
    (directory : Option RelayDirectoryBody) (accountMove : Option (Text × Nat)) (now : Nat) :
    (∀ attachments',attachments.Perm attachments' →
      accountHome attachments' directory accountMove now =
        accountHome attachments directory accountMove now) ∧
    ((∀ id,¬MovesTo attachments accountMove now id) →
      (∀ id,accountHome attachments directory accountMove now = some id ↔
        Eligible attachments directory id ∧
          ∀ other,Eligible attachments directory other → other ≠ id →
            Outranks attachments id other) ∧
      (accountHome attachments directory accountMove now = none ↔
        ∀ a ∈ attachments,isFullRelay directory a.relayId = false)) ∧
    (∀ id,MovesTo attachments accountMove now id →
      accountHome attachments directory accountMove now = some id) ∧
    ∀ id,accountHome attachments directory accountMove now = some id →
      isFullRelay directory id = true ∨ MovesTo attachments accountMove now id := by
  have hmoved : ∀ {attachments'},attachments.Perm attachments' →
      ∀ id,MovesTo attachments' accountMove now id ↔ MovesTo attachments accountMove now id := by
    intro attachments' h id
    simp only [MovesTo,h.mem_iff]
  refine ⟨?_,?_,fun id h => accountHome_of_move h,?_⟩
  · intro attachments' h
    by_cases hmove : ∃ id,MovesTo attachments accountMove now id
    · obtain ⟨id,hmove⟩ := hmove
      rw [accountHome_of_move hmove,accountHome_of_move ((hmoved h id).mpr hmove)]
    · rw [not_exists] at hmove
      rw [accountHome_of_no_move hmove,
        accountHome_of_no_move fun id hid => hmove id ((hmoved h id).mp hid),rankedHome_perm h]
  · intro hmove
    rw [accountHome_of_no_move hmove]
    refine ⟨fun id => rankedHome_some,?_⟩
    rw [rankedHome_none]
    constructor
    · intro hnone a ha
      rw [Bool.eq_false_iff]
      exact fun hfull => hnone a.relayId ⟨hfull,a,ha,rfl⟩
    · rintro hnone id ⟨hfull,a,ha,rfl⟩
      rw [hnone a ha] at hfull
      cases hfull
  · intro id hhome
    by_cases hmove : ∃ target,MovesTo attachments accountMove now target
    · obtain ⟨target,hmove⟩ := hmove
      rw [accountHome_of_move hmove] at hhome
      cases hhome
      exact .inr hmove
    · rw [not_exists] at hmove
      rw [accountHome_of_no_move hmove] at hhome
      exact .inl (rankedHome_spec hhome).1.1

/-- A directory of one `full` and one `entry` relay. -/
def twoRelays : RelayDirectoryBody :=
  ⟨"flagship.services".toList,1,1,9,
    [⟨"iad1".toList,[],[],.full,[],[],[]⟩,⟨"ent1".toList,[],[],.entry,[],[],[]⟩]⟩

/-- A move to the `entry` relay, which has an attachment. -/
theorem move_goes_to_entry_relay :
    ¬∀ attachments directory accountMove now id,
      accountHome attachments directory accountMove now = some id →
        isFullRelay directory id = true := by
  intro h
  have hhome : accountHome [⟨"iad1".toList,1⟩,⟨"ent1".toList,2⟩] (some twoRelays)
      (some ("ent1".toList,10)) 5 = some "ent1".toList := by decide +kernel
  exact absurd (h _ _ _ _ _ hhome) (by decide +kernel)

theorem account_home_choice_most :
    accountHome [⟨"iad1".toList,4⟩,⟨"ent1".toList,1⟩,⟨"ent1".toList,2⟩] (some twoRelays) none 5 =
      some "iad1".toList ∧
    isFullRelay (some twoRelays) "iad1".toList = true := by
  have hhome : accountHome [⟨"iad1".toList,4⟩,⟨"ent1".toList,1⟩,⟨"ent1".toList,2⟩]
      (some twoRelays) none 5 = some "iad1".toList := by decide +kernel
  have hmove : ∀ id,¬MovesTo [⟨"iad1".toList,4⟩,⟨"ent1".toList,1⟩,⟨"ent1".toList,2⟩] none 5 id := by
    rintro id ⟨_,hnone,_⟩
    cases hnone
  have hchoice := account_home_choice [⟨"iad1".toList,4⟩,⟨"ent1".toList,1⟩,⟨"ent1".toList,2⟩]
    (some twoRelays) none 5
  exact ⟨hhome,(((hchoice.2.1 hmove).1 _).mp hhome).1.1⟩

end Flagship.Mesh.Proofs

import Flagship.Control.Proofs.AdminRotation

namespace Flagship.Control.Proofs
open Lib

theorem foldl_max_range (n : Nat) : (List.range' 1 n).foldl max 0 = n := by
  induction n with
  | zero => rfl
  | succ n ih =>
    rw [List.range'_1_concat,List.foldl_append,ih,List.foldl_cons,List.foldl_nil]
    omega

/-- Sequence numbers without gaps. -/
def Numbered (t : RootTables) : Prop :=
  t.rotations.map (·.seq) = List.range' 1 t.rotations.length

theorem Numbered.maxSeq {t : RootTables} (h : Numbered t) : t.maxSeq = t.rotations.length := by
  rw [RootTables.maxSeq,h,foldl_max_range]

/-- The number after the highest is free. -/
theorem Numbered.insert {t : RootTables} (h : Numbered t) (rot : Rotation) :
    t.insert rot (t.maxSeq + 1) =
        some { t with rotations := t.rotations ++ [⟨rot,t.maxSeq + 1⟩] } ∧
      Numbered { t with rotations := t.rotations ++ [⟨rot,t.maxSeq + 1⟩] } := by
  refine ⟨?_,?_⟩
  · rw [RootTables.insert,if_neg]
    intro htaken
    obtain ⟨r,hr,hseq⟩ := List.any_eq_true.mp htaken
    have hmem : r.seq ∈ t.rotations.map (·.seq) := List.mem_map_of_mem hr
    rw [h,List.mem_range'_1] at hmem
    rw [beq_iff_eq,h.maxSeq] at hseq
    omega
  · rw [Numbered,List.map_append,h,List.length_append,List.length_singleton,
      List.range'_1_concat,h.maxSeq,Nat.add_comm 1]
    rfl

/-- The served chain is then the table as it stands. -/
theorem Numbered.list {t : RootTables} (h : Numbered t) : t.list = t.rotations := by
  refine List.Pairwise.insertionSort_eq ?_
  have hsorted : (t.rotations.map (·.seq)).Pairwise (· ≤ ·) := by
    rw [h]
    exact (List.pairwise_lt_range' ..).imp Nat.le_of_lt
  exact List.pairwise_map.mp hsorted

theorem RecordedInOrder.swap {s : Shared RootTables Rotation} (h : RecordedInOrder s)
    (hlen : s.tables.rotations.length ≤ s.history.length) (ticks : List Nat)
    (user : Option (Option Text)) (rot : Rotation) :
    RecordedInOrder (s.after ticks { s.tables with user := user } [rot]) := by
  rw [RecordedInOrder] at h ⊢
  rw [Shared.after,List.take_append_of_le_length hlen]
  exact h

theorem RecordedInOrder.insert {s : Shared RootTables Rotation} (h : RecordedInOrder s)
    {rot : Rotation} (hnext : s.history[s.tables.rotations.length]? = some rot) (ticks : List Nat)
    (seq : Nat) : RecordedInOrder (s.after ticks
      { s.tables with rotations := s.tables.rotations ++ [⟨rot,seq⟩] } []) := by
  rw [RecordedInOrder] at h ⊢
  rw [Shared.after,List.append_nil,List.map_append,h,List.length_append,List.length_singleton,
    List.take_add_one,hnext]
  rfl

/-- From each of its roots a path leads on to its end. -/
theorem Path.onward {rots : List Rotation} {first : Option Text} {root current : Text}
    (h : Path first rots (some current))
    (hroot : root ∈ first.toList ++ rots.map (·.newHex)) :
    ∃ rest,rest <:+ rots ∧ Path (some root) rest (some current) := by
  induction rots generalizing first with
  | nil =>
    rw [show first = some current from h] at hroot
    exact ⟨[],List.suffix_rfl,congrArg some (by simpa using hroot)⟩
  | cons rot more ih =>
    by_cases heq : first = some root
    · subst heq
      exact ⟨rot :: more,List.suffix_rfl,h⟩
    · have hmem : root ∈ (some rot.newHex).toList ++ more.map (·.newHex) := by
        refine (List.mem_append.mp hroot).resolve_left ?_
        intro hmem
        exact heq (Option.mem_toList.mp hmem)
      obtain ⟨rest,hsuffix,hpath⟩ := ih h.2 hmem
      exact ⟨rest,hsuffix.trans (List.suffix_cons rot more),hpath⟩

/-- A path that has a root ends at one. -/
theorem Path.ends {rots : List Rotation} {first current : Option Text} {root : Text}
    (h : Path first rots current) (hroot : root ∈ first.toList ++ rots.map (·.newHex)) :
    ∃ last,current = some last := by
  induction rots generalizing first root with
  | nil =>
    rw [List.map_nil,List.append_nil] at hroot
    exact ⟨root,(show first = current from h) ▸ Option.mem_toList.mp hroot⟩
  | cons rot more ih =>
    exact ih h.2 (List.mem_append_left _ (Option.mem_toList.mpr rfl))

section
variable [Lowercase]

/-- What a run that loses no proof has on record. -/
structure Recorded (user : Option (Option Text))
    (w : Served RootTables Rotation RotationProgress) : Prop where
  numbered : Numbered w.shared.tables
  accounted : (w.shared.tables.rotations.map (·.toRotation) ++
    w.requests.filterMap RotationProgress.owedProof).Perm w.shared.history
  ordered : RecordedInOrder w.shared ∨ (rootsHad user w.shared.history).Nodup

theorem Recorded.length_le {user : Option (Option Text)}
    {w : Served RootTables Rotation RotationProgress} (h : Recorded user w) :
    w.shared.tables.rotations.length ≤ w.shared.history.length := by
  have hlen := h.accounted.length_eq
  rw [List.length_append,List.length_map] at hlen
  omega

theorem not_losesProof {user : Option (Option Text)}
    {w : Served RootTables Rotation RotationProgress} (h : Numbered w.shared.tables) {i : Nat}
    {p : RotationProgress} (hi : w.requests[i]? = some p) {ticks : List Nat} {stops : Bool}
    (hc : recordsProofs user w (.resume i ticks stops) = true) :
    ¬ losesProof stops p w.shared.tables := by
  intro hl
  cases p with
  | maxSeq rot =>
    simp only [recordsProofs,hi,Bool.not_eq_true'] at hc
    cases hc.symm.trans hl
  | insert rot seq =>
    simp only [recordsProofs,hi,Bool.and_eq_true,Bool.not_eq_true',beq_iff_eq] at hc
    obtain ⟨⟨hstops,rfl⟩,_⟩ := hc
    rcases hl with hl | hl
    · cases hstops.symm.trans hl
    · cases hl.symm.trans (h.insert rot).1
  | _ => exact hl

variable [RotationChecks] {account : Text}

theorem Recorded.step {user : Option (Option Text)}
    {w : Served RootTables Rotation RotationProgress}
    (hw : w.Holds (Linked account user) (fun p _ => Carries account p)) (hr : Recorded user w)
    (move : Move (Option RotationBody) Bool) (hc : recordsProofs user w move = true) :
    Recorded user ((rotationHandlers account).step w move) := by
  refine (rotationHandlers account).step_rule (K := Recorded user) w move ?_ hr ?_
  · rintro body ticks stops rfl
    have howed : (startRotation account body).owedProof = none := by
      rcases startRotation_cases account body with ⟨rot,hstart,_⟩ | ⟨answer,hstart⟩
      · rw [hstart]; rfl
      · rw [hstart]; rfl
    refine ⟨hr.numbered,?_,hr.ordered⟩
    simp only [rotationHandlers,List.filterMap_append,List.filterMap_cons,howed,
      List.filterMap_nil,List.append_nil]
    exact hr.accounted
  · rintro i ticks stops p p' t' events rfl hi hadv
    have hset := filterMap_set_perm RotationProgress.owedProof hi p'
    rcases advanceRotation_cases (hw.2 p (List.mem_of_getElem? hi)) hadv with
      ⟨rfl,rfl,_,howed⟩ | ⟨rot,rfl,_,rfl,hswap,_,rfl,rfl,rfl⟩ | ⟨rot,seq,rfl,hins,rfl,rfl⟩
    · have howed := howed.resolve_right (not_losesProof hr.numbered hi hc)
      rw [howed,List.perm_append_left_iff] at hset
      refine ⟨hr.numbered,?_,?_⟩
      · rw [Shared.after,List.append_nil]
        exact (hset.append_left _).trans hr.accounted
      · rw [Shared.after,List.append_nil]
        exact hr.ordered
    · refine ⟨hr.numbered,?_,?_⟩
      · refine (hset.append_left _).trans ?_
        refine (List.perm_append_comm_assoc _ _ _).trans ?_
        refine List.perm_append_comm.trans ?_
        exact hr.accounted.append_right _
      · simp only [recordsProofs,hi,hswap,Bool.not_true,Bool.or_false,Bool.false_or,
          Bool.or_eq_true,Bool.not_eq_true',List.contains_eq_mem,decide_eq_false_iff_not,
          decide_eq_true_eq] at hc
        rcases hc with hnew | hinorder
        · rcases hr.ordered with hinorder | hnodup
          · exact Or.inl (RecordedInOrder.swap hinorder hr.length_le _ _ _)
          · exact Or.inr (rootsHad_append_nodup hnodup hnew)
        · exact Or.inl (RecordedInOrder.swap hinorder hr.length_le _ _ _)
    · simp only [recordsProofs,hi,Bool.and_eq_true,Bool.not_eq_true',beq_iff_eq,
        Bool.or_eq_true,decide_eq_true_eq] at hc
      obtain ⟨⟨_,rfl⟩,hnext⟩ := hc
      have hnumbered := (hr.numbered.insert rot).2
      obtain rfl := insert_eq hins
      refine ⟨hnumbered,?_,?_⟩
      · rw [Shared.after,List.append_nil,List.map_append,List.append_assoc]
        exact (hset.append_left _).trans hr.accounted
      · rcases hnext with hnodup | hnext
        · rw [Shared.after,List.append_nil]
          exact Or.inr hnodup
        · rcases hr.ordered with hinorder | hnodup
          · exact Or.inl (RecordedInOrder.insert hinorder hnext _ _)
          · rw [Shared.after,List.append_nil]
            exact Or.inr hnodup

/-- A box passes over what it does not stand at, until it has started. -/
theorem replayChain_skip {entry : RotationRecord} (hentry : Proved account entry.toRotation)
    {root : Text} (hne : entry.oldHex ≠ root) (applied lastSeq : Nat) (rest : List RotationRecord) :
    replayChain account root applied lastSeq false (entry :: rest) =
      replayChain account root applied lastSeq false rest := by
  have hold := toLowercase_hex hentry.oldHex
  rw [replayChain]
  exact if_pos (by simp [hold,hne])

theorem replayChain_stop {entry : RotationRecord} (hentry : Proved account entry.toRotation)
    {root : Text} (hne : entry.oldHex ≠ root) (applied lastSeq : Nat) (rest : List RotationRecord) :
    replayChain account root applied lastSeq true (entry :: rest) = (root,applied,lastSeq) := by
  have hold := toLowercase_hex hentry.oldHex
  rw [replayChain]
  refine (if_neg (by simp)).trans (if_pos ?_)
  rw [hold]
  exact hne

theorem replayChain_hop {entry : RotationRecord} (hentry : Proved account entry.toRotation)
    (applied lastSeq : Nat) (started : Bool) (rest : List RotationRecord) :
    replayChain account entry.oldHex applied lastSeq started (entry :: rest) =
      replayChain account entry.newHex (applied + 1) entry.seq true rest := by
  have hold := toLowercase_hex hentry.oldHex
  have hnew := toLowercase_hex hentry.newHex
  have hsig := toLowercase_hex hentry.sigHex
  have hfits : ¬ (!lowerHexDigits 64 entry.newHex || !lowerHexDigits 128 entry.sigHex ||
      entry.newHex == entry.oldHex) = true := by
    rw [hentry.newHex,hentry.sigHex]
    simpa using Ne.symm hentry.ne
  rw [replayChain]
  simp only [hold,hnew,hsig]
  refine (if_neg (by simp)).trans ((if_neg (by simp)).trans ((if_neg hfits).trans (if_pos ?_)))
  exact hentry.signed

/-- A chain that leads on from the root of a box takes the box to its end. -/
theorem replayChain_path {chain : List RotationRecord}
    (hproved : ∀ entry ∈ chain,Proved account entry.toRotation) {root current : Text}
    (hpath : Path (some root) (chain.map (·.toRotation)) (some current))
    (applied lastSeq : Nat) (started : Bool) :
    (replayChain account root applied lastSeq started chain).1 = current := by
  induction chain generalizing root applied lastSeq started with
  | nil => exact Option.some.inj hpath
  | cons entry rest ih =>
    obtain ⟨hold,hrest⟩ := hpath
    cases Option.some.inj hold
    rw [replayChain_hop (hproved entry List.mem_cons_self)]
    exact ih (fun e he => hproved e (List.mem_cons_of_mem _ he)) hrest _ _ _

/-- From any root on its way, a chain in the order of the swaps takes a box to
its end in one pass. -/
theorem replayChain_inOrder {chain : List RotationRecord}
    (hproved : ∀ entry ∈ chain,Proved account entry.toRotation) {first : Option Text}
    {root current : Text} (hpath : Path first (chain.map (·.toRotation)) (some current))
    (hroot : root ∈ first.toList ++ (chain.map (·.toRotation)).map (·.newHex)) :
    (replayChain account root 0 0 false chain).1 = current := by
  induction chain generalizing first with
  | nil =>
    rw [show first = some current from hpath] at hroot
    simpa [replayChain] using hroot
  | cons entry rest ih =>
    by_cases heq : entry.oldHex = root
    · subst heq
      exact replayChain_path hproved ⟨rfl,hpath.2⟩ 0 0 false
    · rw [replayChain_skip (hproved entry List.mem_cons_self) heq]
      refine ih (fun e he => hproved e (List.mem_cons_of_mem _ he)) hpath.2 ?_
      rw [hpath.1,List.map_cons,List.map_cons] at hroot
      exact (List.mem_cons.mp hroot).resolve_left (Ne.symm heq)

section
variable {chain : List RotationRecord} {history : List Rotation} {current : Text}

/-- Where no root was left twice, a box that has started only moves on towards
the end. -/
theorem replayChain_onward (hproved : ∀ entry ∈ chain,Proved account entry.toRotation)
    (hin : ∀ entry ∈ chain,entry.toRotation ∈ history)
    (hnodup : (history.map (·.oldHex) ++ [current]).Nodup) {root : Text}
    {rest : List Rotation} (hrest : rest <:+ history)
    (hpath : Path (some root) rest (some current)) (applied lastSeq : Nat) :
    ∃ rest',rest' <:+ rest ∧
      Path (some (replayChain account root applied lastSeq true chain).1) rest' (some current) := by
  induction chain generalizing root rest applied lastSeq with
  | nil => exact ⟨rest,List.suffix_rfl,hpath⟩
  | cons entry tail ih =>
    by_cases heq : entry.oldHex = root
    · subst heq
      have hmem := hin entry List.mem_cons_self
      rw [replayChain_hop (hproved entry List.mem_cons_self)]
      cases rest with
      | nil =>
        -- The last root was never left.
        cases Option.some.inj hpath
        exact absurd rfl ((List.nodup_append.mp hnodup).2.2 _ (List.mem_map_of_mem hmem) _
          (List.mem_singleton_self _))
      | cons rot more =>
        have hsame : entry.toRotation = rot :=
          List.inj_on_of_nodup_map hnodup.of_append_left hmem
            (hrest.subset List.mem_cons_self) (Option.some.inj hpath.1)
        subst hsame
        obtain ⟨rest',hsuffix,hpath'⟩ := ih (fun e he => hproved e (List.mem_cons_of_mem _ he))
          (fun e he => hin e (List.mem_cons_of_mem _ he))
          ((List.suffix_cons _ more).trans hrest) hpath.2 (applied + 1) entry.seq
        exact ⟨rest',hsuffix.trans (List.suffix_cons _ more),hpath'⟩
    · rw [replayChain_stop (hproved entry List.mem_cons_self) heq]
      exact ⟨rest,List.suffix_rfl,hpath⟩

/-- A pass of a box that is not at the end yet brings it nearer. -/
theorem replayChain_nearer (hproved : ∀ entry ∈ chain,Proved account entry.toRotation)
    (hin : ∀ entry ∈ chain,entry.toRotation ∈ history)
    (hnodup : (history.map (·.oldHex) ++ [current]).Nodup) {rot : Rotation}
    {rest : List Rotation} (hrest : rot :: rest <:+ history)
    (hpath : Path (some rot.newHex) rest (some current))
    (hmem : rot ∈ chain.map (·.toRotation)) :
    ∃ rest',rest' <:+ rest ∧
      Path (some (replayChain account rot.oldHex 0 0 false chain).1) rest' (some current) := by
  induction chain with
  | nil => cases hmem
  | cons entry tail ih =>
    have hproved' := fun e he => hproved e (List.mem_cons_of_mem entry he)
    have hin' := fun e he => hin e (List.mem_cons_of_mem entry he)
    by_cases heq : entry.oldHex = rot.oldHex
    · have hsame : entry.toRotation = rot :=
        List.inj_on_of_nodup_map hnodup.of_append_left (hin entry List.mem_cons_self)
          (hrest.subset List.mem_cons_self) heq
      subst hsame
      rw [replayChain_hop (hproved entry List.mem_cons_self)]
      exact replayChain_onward hproved' hin' hnodup ((List.suffix_cons _ rest).trans hrest) hpath _ _
    · rw [replayChain_skip (hproved entry List.mem_cons_self) heq]
      refine ih hproved' hin' ?_
      refine (List.mem_cons.mp hmem).resolve_left ?_
      rintro rfl
      exact heq rfl

/-- Where no root was left twice and every swap is on record, passes over the
chain end at the last root. -/
theorem applyRotationChain_reaches (hproved : ∀ entry ∈ chain,Proved account entry.toRotation)
    (hin : (chain.map (·.toRotation)).Perm history)
    (hnodup : (history.map (·.oldHex) ++ [current]).Nodup) {rest : List Rotation}
    (hrest : rest <:+ history) {root : Text} (hpath : Path (some root) rest (some current)) :
    ∃ n,(applyRotationChain account chain)^[n] root = current := by
  induction hlen : rest.length using Nat.strong_induction_on generalizing rest root with
  | h k ih =>
    cases rest with
    | nil => exact ⟨0,Option.some.inj hpath⟩
    | cons rot more =>
      obtain ⟨hold,hmore⟩ := hpath
      cases Option.some.inj hold
      have hmem : rot ∈ chain.map (·.toRotation) :=
        hin.symm.subset (hrest.subset List.mem_cons_self)
      have hlower : toLowercase rot.oldHex = rot.oldHex := by
        obtain ⟨entry,hentry,rfl⟩ := List.mem_map.mp hmem
        exact toLowercase_hex (hproved entry hentry).oldHex
      obtain ⟨rest',hsuffix,hpath'⟩ := replayChain_nearer hproved
        (fun e he => hin.subset (List.mem_map_of_mem he)) hnodup hrest hmore hmem
      have hshort : rest'.length < k := by
        rw [← hlen]
        exact Nat.lt_succ_of_le hsuffix.length_le
      obtain ⟨n,hn⟩ := ih rest'.length hshort
        (hsuffix.trans ((List.suffix_cons rot more).trans hrest)) hpath' rfl
      refine ⟨n + 1,?_⟩
      rw [Function.iterate_succ_apply,applyRotationChain,hlower]
      exact hn

end

theorem recorded_run {user : Option (Option Text)} {clock : Int}
    {moves : List (Move (Option RotationBody) Bool)}
    (h : Along (rotationHandlers account).step (fun w move => recordsProofs user w move = true)
      (neverRotated user clock) moves) :
    Recorded user (run (rotationHandlers account).step (neverRotated user clock) moves) := by
  have hstart : Recorded user (neverRotated user clock) := ⟨rfl,List.Perm.refl _,Or.inl rfl⟩
  refine (Along.invariant (I := fun w => (w.Holds (Linked account user)
    (fun p _ => Carries account p)) ∧ Recorded user w) ?_
    ⟨linked_run account user clock [],hstart⟩ h).2
  intro w move ⟨hw,hr⟩ hc
  exact ⟨Linked.step hw move,Recorded.step hw hr move hc⟩

omit [Lowercase] [RotationChecks] in
theorem quiet_owes_nothing {w : Served RootTables Rotation RotationProgress} (h : Quiet w) :
    w.requests.filterMap RotationProgress.owedProof = [] := by
  refine List.filterMap_eq_nil_iff.mpr ?_
  intro p hp
  rcases h p hp with ⟨rot,answer,rfl⟩ | ⟨rot,rfl,_⟩
  · rfl
  · rfl

theorem rootsHad_lower {user : Option (Option Text)} {history : List Rotation}
    (hproved : ∀ rot ∈ history,Proved account rot) {root : Text}
    (hroot : root ∈ rootsHad user history) : toLowercase root = root := by
  rcases List.mem_append.mp hroot with hroot | hroot
  · obtain ⟨first,_,rfl⟩ := List.mem_map.mp hroot
    exact toLowercase_idem first
  · obtain ⟨rot,hrot,rfl⟩ := List.mem_map.mp hroot
    exact toLowercase_hex (hproved rot hrot).newHex

/-- In every run that loses no proof and mixes up none, once nothing is under way
a box pinned to any root the account has had reaches its current one. -/
theorem boxes_follow (user : Option (Option Text)) (clock : Int)
    (moves : List (Move (Option RotationBody) Bool))
    (h : Along (rotationHandlers account).step (fun w move => recordsProofs user w move = true)
      (neverRotated user clock) moves)
    (hquiet : Quiet (run (rotationHandlers account).step (neverRotated user clock) moves)) :
    ∀ root ∈ rootsHad user
        (run (rotationHandlers account).step (neverRotated user clock) moves).shared.history,
      ∃ n,some ((applyRotationChain account (run (rotationHandlers account).step
          (neverRotated user clock) moves).shared.tables.list)^[n] root) =
        currentRoot (run (rotationHandlers account).step
          (neverRotated user clock) moves).shared.tables := by
  have hr := recorded_run h
  obtain ⟨hlinked,_⟩ := linked_run account user clock moves
  generalize run (rotationHandlers account).step (neverRotated user clock) moves = w
    at hquiet hr hlinked
  intro root hroot
  have hlower := rootsHad_lower hlinked.proved hroot
  have hpath := hlinked.path
  have hroot' := hroot
  rw [rootsHad,← Option.toList_map] at hroot'
  obtain ⟨current,hcurrent⟩ := hpath.ends hroot'
  rw [hcurrent] at hpath ⊢
  have hperm := hr.accounted
  rw [quiet_owes_nothing hquiet,List.append_nil] at hperm
  have hproved : ∀ entry ∈ w.shared.tables.rotations,Proved account entry.toRotation :=
    fun entry hentry => hlinked.proved _ (hperm.subset (List.mem_map_of_mem hentry))
  rw [hr.numbered.list]
  rcases hr.ordered with hinorder | hnodup
  · have hall : w.shared.tables.rotations.map (·.toRotation) = w.shared.history := by
      have hlen := hperm.length_eq
      rw [List.length_map] at hlen
      rw [hinorder,hlen,List.take_length]
    rw [← hall] at hpath hroot'
    refine ⟨1,congrArg some ?_⟩
    rw [Function.iterate_one,applyRotationChain,hlower]
    exact replayChain_inOrder hproved hpath hroot'
  · rw [rootsHad_eq hlinked.path,hcurrent] at hnodup
    obtain ⟨rest,hrest,honward⟩ := hpath.onward hroot'
    obtain ⟨n,hn⟩ := applyRotationChain_reaches hproved hperm hnodup hrest honward
    exact ⟨n,congrArg some hn⟩

end

/-- Two rotations, each recorded before the next. -/
def rotatedTwice : List (Move (Option RotationBody) Bool) :=
  postedAs 0 (rotates rootA rootB) ++ postedAs 1 (rotates rootB rootA)

theorem boxes_follow_twice :
    rootB ∈ @rootsHad asciiLowercase (some (some rootA))
        (run (@rotationHandlers asciiLowercase plainSignatures "alice".toList).step
          (neverRotated (some (some rootA)) 0) rotatedTwice).shared.history ∧
      ∃ n,some ((@applyRotationChain asciiLowercase plainSignatures "alice".toList
          (run (@rotationHandlers asciiLowercase plainSignatures "alice".toList).step
            (neverRotated (some (some rootA)) 0) rotatedTwice).shared.tables.list)^[n] rootB) =
        @currentRoot asciiLowercase
          (run (@rotationHandlers asciiLowercase plainSignatures "alice".toList).step
            (neverRotated (some (some rootA)) 0) rotatedTwice).shared.tables := by
  have halong : Along (@rotationHandlers asciiLowercase plainSignatures "alice".toList).step
      (fun w move => @recordsProofs asciiLowercase (some (some rootA)) w move = true)
      (neverRotated (some (some rootA)) 0) rotatedTwice := by
    decide +kernel
  have hrequests : (run (@rotationHandlers asciiLowercase plainSignatures "alice".toList).step
      (neverRotated (some (some rootA)) 0) rotatedTwice).requests =
      [.answered (some ⟨rootA,rootB,1,rootA ++ rootB⟩) (.ok rootB (some 1)),
        .answered (some ⟨rootB,rootA,1,rootB ++ rootA⟩) (.ok rootA (some 2))] := by
    decide +kernel
  have hquiet : Quiet (run (@rotationHandlers asciiLowercase plainSignatures "alice".toList).step
      (neverRotated (some (some rootA)) 0) rotatedTwice) := by
    rw [Quiet,hrequests]
    simp
  have hmem : rootB ∈ @rootsHad asciiLowercase (some (some rootA))
      (run (@rotationHandlers asciiLowercase plainSignatures "alice".toList).step
        (neverRotated (some (some rootA)) 0) rotatedTwice).shared.history := by
    decide +kernel
  exact ⟨hmem,@boxes_follow asciiLowercase plainSignatures "alice".toList _ 0 rotatedTwice
    halong hquiet rootB hmem⟩

/-- The root is swapped, the request stops before the proof is recorded, and its
repeat is answered as already applied. -/
def stoppedAndRepeated : Served RootTables Rotation RotationProgress :=
  run (@rotationHandlers asciiLowercase plainSignatures "alice".toList).step
    (neverRotated (some (some rootA)) 0)
    ([.receive (some (rotates rootA rootB)) [] false,.resume 0 [] false,.resume 0 [] false,
      .resume 0 [] true] ++ postedAs 1 (rotates rootA rootB))

/-- A box with the first root has no way on. -/
theorem stopped_rotation_strands :
    Quiet stoppedAndRepeated ∧
      rootA ∈ @rootsHad asciiLowercase (some (some rootA)) stoppedAndRepeated.shared.history ∧
      @currentRoot asciiLowercase stoppedAndRepeated.shared.tables = some rootB ∧
      ¬ ∃ n,(@applyRotationChain asciiLowercase plainSignatures "alice".toList
        stoppedAndRepeated.shared.tables.list)^[n] rootA = rootB := by
  have hrequests : stoppedAndRepeated.requests =
      [.stopped ⟨rootA,rootB,1,rootA ++ rootB⟩,
        .answered (some ⟨rootA,rootB,1,rootA ++ rootB⟩) (.ok rootB none)] := by
    decide +kernel
  have hlist : stoppedAndRepeated.shared.tables.list = [] := by decide +kernel
  refine ⟨?_,by decide +kernel,by decide +kernel,?_⟩
  · rw [Quiet,hrequests]
    simp
  · rintro ⟨n,hn⟩
    have hstays : @applyRotationChain asciiLowercase plainSignatures "alice".toList [] rootA =
        rootA := by
      decide +kernel
    rw [hlist,Function.iterate_fixed hstays] at hn
    exact absurd hn (by decide +kernel)

end Flagship.Control.Proofs

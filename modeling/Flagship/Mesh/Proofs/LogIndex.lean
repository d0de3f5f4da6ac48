import Flagship.Mesh.Proofs.LogRuns

namespace Flagship.Mesh.Proofs
open Lib Mesh
open Access (Ed25519)

/-- A name's box has that name, and a box's name has that box. -/
def NamesPaired (s : RelayLogState) : Prop :=
  ∀ name box,(s.boxesByName.get? name).map RelayLogBox.boxPub = some box ↔
    s.boxNames.get? box = some name

section
variable {s : RelayLogState} {name box : Text}

/-- The names once the box that had the name gave it up. -/
def namesWithout (s : RelayLogState) (name box : Text) : OrdMap Text Text :=
  match s.boxesByName.get? name with
  | some had =>
    if had.boxPub ≠ box ∧ s.boxNames.get? had.boxPub = some name then s.boxNames.erase had.boxPub
    else s.boxNames
  | none => s.boxNames

/-- The boxes once the box gave up its other name. -/
def boxesWithout (s : RelayLogState) (name box : Text) : OrdMap Text RelayLogBox :=
  match (namesWithout s name box).get? box with
  | some oldName => if oldName ≠ name then s.boxesByName.erase oldName else s.boxesByName
  | none => s.boxesByName

theorem register_eq (s : RelayLogState) (name box : Text) (regGen seq : Nat) :
    s.register name box regGen seq =
      { s with
        boxesByName := (boxesWithout s name box).set name ⟨box,regGen,seq⟩
        boxNames := (namesWithout s name box).set box name } := rfl

/-- Every other box keeps its name, but for the one that had this name. -/
theorem NamesPaired.namesWithout_get (h : NamesPaired s) (other : Text) (hother : other ≠ box) :
    (namesWithout s name box).get? other =
      if s.boxNames.get? other = some name then none else s.boxNames.get? other := by
  unfold namesWithout
  cases hhad : s.boxesByName.get? name with
  | none =>
    have hno : s.boxNames.get? other ≠ some name := by
      intro hname
      have := (h name other).mpr hname
      rw [hhad] at this
      cases this
    rw [if_neg hno]
  | some had =>
    have hback : s.boxNames.get? had.boxPub = some name := by
      refine (h name had.boxPub).mp ?_
      rw [hhad]
      rfl
    have hiff : s.boxNames.get? other = some name ↔ other = had.boxPub := by
      rw [← h,hhad,Option.map_some,Option.some.injEq,eq_comm]
    dsimp only
    by_cases hbox : had.boxPub = box
    · have hno : s.boxNames.get? other ≠ some name := by
        rw [ne_eq,hiff,hbox]
        exact hother
      rw [if_neg (fun hc => hc.1 hbox),if_neg hno]
    · rw [if_pos ⟨hbox,hback⟩,OrdMap.get?_erase]
      by_cases heq : other = had.boxPub
      · rw [if_pos heq,if_pos (hiff.mpr heq)]
      · rw [if_neg heq,if_neg (hiff.not.mpr heq)]

/-- The box itself keeps the name it has. -/
theorem namesWithout_self : (namesWithout s name box).get? box = s.boxNames.get? box := by
  unfold namesWithout
  split
  · split
    · rename_i hc
      exact OrdMap.get?_erase_ne hc.1.symm
    · rfl
  · rfl

/-- Every other name keeps its box, but for the one this box had. -/
theorem boxesWithout_get (other : Text) (hother : other ≠ name) :
    (boxesWithout s name box).get? other =
      if s.boxNames.get? box = some other then none else s.boxesByName.get? other := by
  unfold boxesWithout
  rw [namesWithout_self]
  cases hold : s.boxNames.get? box with
  | none => simp
  | some oldName =>
    dsimp only
    by_cases hname : oldName = name
    · have hno : some oldName ≠ some other := by
        rw [hname]
        exact fun heq => hother (Option.some.inj heq).symm
      rw [if_neg (not_not.mpr hname),if_neg hno]
    · rw [if_pos hname,OrdMap.get?_erase]
      by_cases heq : other = oldName
      · rw [if_pos heq,if_pos (by rw [heq])]
      · rw [if_neg heq,if_neg (fun h => heq (Option.some.inj h).symm)]

/-- A registration keeps the two maps paired, whatever the name and the box had before. -/
theorem NamesPaired.register (h : NamesPaired s) (name box : Text) (regGen seq : Nat) :
    NamesPaired (s.register name box regGen seq) := by
  intro other otherBox
  rw [register_eq]
  dsimp only
  rw [OrdMap.get?_set,OrdMap.get?_set]
  by_cases hname : other = name
  · subst hname
    rw [if_pos rfl,Option.map_some,Option.some.injEq]
    by_cases hbox : otherBox = box
    · subst hbox
      rw [if_pos rfl]
      simp
    · -- no other box is left with this name
      rw [if_neg hbox,h.namesWithout_get _ hbox]
      by_cases hhad : s.boxNames.get? otherBox = some other
      · rw [if_pos hhad]
        simp [Ne.symm hbox]
      · rw [if_neg hhad]
        simp [Ne.symm hbox,hhad]
  · rw [if_neg hname,boxesWithout_get _ hname]
    by_cases hbox : otherBox = box
    · -- the box is not left with any other name
      subst hbox
      rw [if_pos rfl,Option.some.injEq]
      by_cases hhad : s.boxNames.get? otherBox = some other
      · rw [if_pos hhad]
        simp [Ne.symm hname]
      · rw [if_neg hhad,h other otherBox]
        simp [hhad,Ne.symm hname]
    · rw [if_neg hbox,h.namesWithout_get _ hbox]
      by_cases hold : s.boxNames.get? box = some other
      · have hno : s.boxNames.get? otherBox ≠ some other := by
          intro heq
          have hone := ((h other box).mpr hold).symm.trans ((h other otherBox).mpr heq)
          exact hbox (Option.some.inj hone).symm
        rw [if_pos hold]
        by_cases hthis : s.boxNames.get? otherBox = some name
        · simp [if_pos hthis]
        · simp [if_neg hthis,hno]
      · rw [if_neg hold,h other otherBox]
        by_cases hthis : s.boxNames.get? otherBox = some name
        · rw [if_pos hthis,hthis]
          simp [Ne.symm hname]
        · rw [if_neg hthis]

/-- Only a registration touches the two maps. -/
theorem NamesPaired.advance (h : NamesPaired s) (b : RelayLogBody) (seq : Nat) (tip : Text) :
    NamesPaired (s.advance b seq tip) := by
  suffices hbody : NamesPaired (s.applyBody b seq) from hbody
  cases b with
  | boxRegister nameHash boxPub regGen => exact h.register nameHash boxPub regGen seq
  | accountAuthority | policyHead =>
    simp only [RelayLogState.applyBody]
    split <;> exact h
  | _ => exact h

end

theorem new_names {apex : Text} {s0 : RelayLogState} (h : RelayLogState.new apex = .ok s0) :
    NamesPaired s0 := by
  unfold RelayLogState.new apexField ensure at h
  split at h
  · cases h
    intro name box
    simp
  · cases h

/-- The tips a state remembers are those of its last sequence numbers, its own among them. -/
structure TipsKept (s : RelayLogState) : Prop where
  tip : s.recentTips.get? s.sequence = some s.tipSha256
  window : ∀ q,(∃ tip,s.recentTips.get? q = some tip) ↔
    q ≤ s.sequence ∧ s.sequence < q + relayLogTipHistory

theorem new_tips {apex : Text} {s0 : RelayLogState} (h : RelayLogState.new apex = .ok s0) :
    TipsKept s0 ∧ s0.sequence = 0 := by
  unfold RelayLogState.new apexField ensure at h
  split at h
  · cases h
    refine ⟨⟨by simp,?_⟩,rfl⟩
    intro q
    dsimp only
    rw [OrdMap.get?_set,relayLogTipHistory]
    by_cases hq : q = 0
    · simp [hq]
    · simp [hq]
  · cases h

section
variable {s : RelayLogState}

theorem applyBody_tips (s : RelayLogState) (b : RelayLogBody) (seq : Nat) :
    (s.applyBody b seq).recentTips = s.recentTips := by
  cases b with
  | accountAuthority | policyHead =>
    simp only [RelayLogState.applyBody]
    split <;> rfl
  | _ => rfl

/-- The tips after an entry: its own is added, and the one that falls out of the window
goes. -/
theorem advance_tips (s : RelayLogState) (b : RelayLogBody) (seq : Nat) (tip : Text) (q : Nat) :
    (s.advance b seq tip).recentTips.get? q =
      if q + relayLogTipHistory = seq then none
      else if q = seq then some tip else s.recentTips.get? q := by
  have htips : (s.advance b seq tip).recentTips =
      if relayLogTipHistory ≤ seq then
        (s.recentTips.set seq tip).erase (seq - relayLogTipHistory)
      else s.recentTips.set seq tip := by
    unfold RelayLogState.advance
    dsimp only
    rw [applyBody_tips]
  rw [htips]
  by_cases hfull : relayLogTipHistory ≤ seq
  · rw [if_pos hfull,OrdMap.get?_erase,OrdMap.get?_set]
    by_cases hq : q + relayLogTipHistory = seq
    · rw [if_pos (by omega),if_pos hq]
    · rw [if_neg (by omega),if_neg hq]
  · rw [if_neg hfull,OrdMap.get?_set,if_neg (show ¬q + relayLogTipHistory = seq by omega)]

/-- The tip of a state is remembered while its sequence number is in the window. -/
def TipRemembered (past s : RelayLogState) : Prop :=
  past.sequence ≤ s.sequence ∧ (s.sequence < past.sequence + relayLogTipHistory →
    s.recentTips.get? past.sequence = some past.tipSha256)

theorem TipRemembered.advance {past : RelayLogState} (h : TipRemembered past s) (b : RelayLogBody)
    {seq : Nat} (tip : Text) (hseq : seq = s.sequence + 1) :
    TipRemembered past (s.advance b seq tip) := by
  obtain ⟨hle,htip⟩ := h
  refine ⟨by rw [advance_sequence]; omega,?_⟩
  intro hwindow
  rw [advance_sequence] at hwindow
  rw [advance_tips,if_neg (by omega),if_neg (by omega)]
  exact htip (by omega)


theorem TipsKept.advance (h : TipsKept s) (b : RelayLogBody) {seq : Nat} (tip : Text)
    (hseq : seq = s.sequence + 1) : TipsKept (s.advance b seq tip) := by
  constructor
  · rw [advance_tips,advance_sequence,relayLogTipHistory,if_neg (by omega),if_pos rfl]
    rfl
  · intro q
    have hwindow := h.window q
    rw [advance_tips,advance_sequence]
    rw [relayLogTipHistory] at hwindow ⊢
    by_cases hout : q + 1024 = seq
    · simp [hout]
    · rw [if_neg hout]
      by_cases hq : q = seq
      · simp [hq]
      · rw [if_neg hq,hwindow]
        omega

section
variable {head : RelayLogHead}

theorem status_behind : relayLogHeadStatus s head = .behind ↔ s.sequence < head.sequence := by
  unfold relayLogHeadStatus
  by_cases hbehind : s.sequence < head.sequence
  · simp [hbehind]
  · rw [if_neg hbehind]
    split
    · simp [hbehind]
    · split <;> simp [hbehind]

/-- A head that is not behind is told by the tip remembered at its sequence number. -/
theorem TipsKept.status_of_some (h : TipsKept s) {tip : Text}
    (htip : s.recentTips.get? head.sequence = some tip) :
    relayLogHeadStatus s head = if tip = head.tipSha256 then .applied else .fork := by
  have hle := ((h.window head.sequence).mp ⟨tip,htip⟩).1
  unfold relayLogHeadStatus
  rw [if_neg (Nat.not_lt.mpr hle),htip]

theorem status_of_none (hnone : s.recentTips.get? head.sequence = none) :
    relayLogHeadStatus s head = if s.sequence < head.sequence then .behind else .unknown := by
  unfold relayLogHeadStatus
  rw [hnone]

theorem TipsKept.status_applied (h : TipsKept s) : relayLogHeadStatus s head = .applied ↔
    s.recentTips.get? head.sequence = some head.tipSha256 := by
  cases htip : s.recentTips.get? head.sequence with
  | none =>
    rw [status_of_none htip]
    split <;> simp
  | some tip =>
    rw [h.status_of_some htip,Option.some.injEq]
    split
    · simpa
    · simpa

theorem TipsKept.status_fork (h : TipsKept s) : relayLogHeadStatus s head = .fork ↔
    ∃ tip,s.recentTips.get? head.sequence = some tip ∧ tip ≠ head.tipSha256 := by
  cases htip : s.recentTips.get? head.sequence with
  | none =>
    rw [status_of_none htip]
    split <;> simp
  | some tip =>
    rw [h.status_of_some htip]
    split
    · simpa
    · simpa

theorem TipsKept.status_unknown (h : TipsKept s) : relayLogHeadStatus s head = .unknown ↔
    head.sequence + relayLogTipHistory ≤ s.sequence := by
  have hwindow := h.window head.sequence
  rw [relayLogTipHistory] at hwindow ⊢
  cases htip : s.recentTips.get? head.sequence with
  | none =>
    rw [htip] at hwindow
    simp only [reduceCtorEq,exists_false,false_iff] at hwindow
    rw [status_of_none htip]
    split
    · simp
      omega
    · simp
      omega
  | some tip =>
    have hin := hwindow.mp ⟨tip,htip⟩
    rw [h.status_of_some htip]
    split
    · simp
      omega
    · simp
      omega

end

/-- There are as many of them as the window has room for, or one more than there are
entries. -/
theorem TipsKept.size_eq (h : TipsKept s) :
    s.recentTips.size = min relayLogTipHistory (s.sequence + 1) := by
  have hperm : s.recentTips.keys.Perm (List.range' (s.sequence + 1 - relayLogTipHistory)
      (min relayLogTipHistory (s.sequence + 1))) := by
    refine (List.perm_ext_iff_of_nodup s.recentTips.keys_nodup List.nodup_range').mpr ?_
    intro q
    rw [OrdMap.mem_keys,h.window,List.mem_range'_1]
    omega
  have hlen := hperm.length_eq
  rwa [OrdMap.keys,List.length_map,List.length_range'] at hlen

end

section
variable [Ed25519] [Sha256]

theorem Chain.keeps {I : RelayLogState → Prop} {apex key : Text} {s t : RelayLogState}
    (hstep : ∀ s e body canonical,I s → SignedEntry apex key e body canonical →
      e.sequence = s.sequence + 1 → I (s.advance body e.sequence (Sha256.sha256Hex canonical)))
    (h : Chain apex key s t) (hs : I s) : I t := by
  induction h with
  | start => exact hs
  | next _ hsigned hseq ih => exact hstep _ _ _ _ ih hsigned hseq

/-- What a relay that was handed batches under some keys has come to. -/
def afterCalls (s0 : RelayLogState) (calls : List (Text × List (RelayLogEntry × Text))) :
    RelayLogState := run (fun s c => logStep c.1 s c.2) s0 calls

theorem logStep_chain (key : Text) (s : RelayLogState) (batch : List (RelayLogEntry × Text)) :
    Chain s.servicesApex key s (logStep key s batch) :=
  applySorted_chain .start 0 _

/-- In every state a relay comes to, the maps from names to boxes and from boxes to names
are inverse to each other. -/
theorem relay_log_names_inverse (apex : Text) (s0 : RelayLogState)
    (h0 : RelayLogState.new apex = .ok s0) (calls : List (Text × List (RelayLogEntry × Text)))
    (name box : Text) :
    (∃ reg,(afterCalls s0 calls).boxesByName.get? name = some reg ∧ reg.boxPub = box) ↔
      (afterCalls s0 calls).boxNames.get? box = some name := by
  have hpaired : NamesPaired (afterCalls s0 calls) := by
    refine run_invariant (fun s c hs => ?_) (new_names h0) calls
    exact (logStep_chain c.1 s c.2).keeps (fun _ _ body _ hs _ _ => hs.advance body _ _) hs
  rw [← hpaired name box,Option.map_eq_some_iff]

end

namespace IndexSample
open LogSample (key sig box)

/-- The log key signs whatever it is handed. -/
scoped instance signsAll : Ed25519 := ⟨fun _ signature k => signature == k ++ k⟩

scoped instance textAsTip : Sha256 := ⟨id⟩

def otherBox : Text := List.replicate 64 'd'

def firstName : Text := List.replicate 64 'a'

def takenName : Text := List.replicate 64 'c'

def registered (sequence : Nat) (name box : Text) : RelayLogEntry × Text :=
  (⟨sequence,"box-register".toList,5,name,box,"1".toList,[]⟩,sig)

/-- A box takes the name another box has, and has a name itself. -/
def taking : List (Text × List (RelayLogEntry × Text)) :=
  [(key,[registered 1 firstName box,registered 2 takenName otherBox]),
    (key,[registered 3 takenName box])]

end IndexSample

section
open IndexSample
open LogSample (apex key sig box start)

theorem relay_log_names_inverse_taken :
    (∃ reg,(afterCalls start taking).boxesByName.get? takenName = some reg ∧ reg.boxPub = box) ∧
    (afterCalls start taking).boxesByName.get? firstName = none ∧
    (afterCalls start taking).boxNames.get? otherBox = none := by
  refine ⟨?_,by decide +kernel,by decide +kernel⟩
  exact (relay_log_names_inverse apex start (by decide +kernel) taking takenName box).mpr
    (by decide +kernel)

end

section
variable [Ed25519] [Sha256]

/-- A state the relay was in: the first one, or one inside some call, after the first few
of its entries. -/
def Was (s0 : RelayLogState) (calls : List (Text × List (RelayLogEntry × Text)))
    (past : RelayLogState) : Prop :=
  past = s0 ∨ ∃ before key batch after taken,calls = before ++ (key,batch) :: after ∧
    taken <+: batch.insertionSort (fun a b => a.1.sequence ≤ b.1.sequence) ∧
    past = (applySorted (afterCalls s0 before).servicesApex key (afterCalls s0 before) 0
      taken).state

/-- A pass takes an entry on from a state with the same sequence number or the next one,
or ends at it. -/
theorem applySorted_cons (apex key : Text) (s : RelayLogState) (applied : Nat)
    (entry : RelayLogEntry × Text) :
    (∀ rest,(applySorted apex key s applied (entry :: rest)).state = s) ∨
    ∃ s' applied',(s' = s ∨ s'.sequence = s.sequence + 1) ∧
      ∀ rest,(applySorted apex key s applied (entry :: rest)).state =
        (applySorted apex key s' applied' rest).state := by
  obtain ⟨e,signature⟩ := entry
  simp only [applySorted]
  split
  · rename_i body canonical hparse _
    by_cases hold : e.sequence ≤ s.sequence
    · right
      refine ⟨s,applied,.inl rfl,?_⟩
      intro rest
      rw [if_pos hold]
    · simp only [if_neg hold]
      by_cases hgap : e.sequence ≠ saturatingAdd s.sequence 1
      · left
        intro rest
        rw [if_pos hgap]
        rfl
      · simp only [if_neg hgap]
        by_cases hverify : verifyLower canonical signature key = false
        · left
          intro rest
          rw [if_pos hverify]
          rfl
        · right
          refine ⟨s.advance body e.sequence (Sha256.sha256Hex canonical),saturatingAdd applied 1,
            .inr ?_,?_⟩
          · have hsafe := sequence_le_of_parse hparse
            rw [ne_eq,not_not,saturatingAdd] at hgap
            unfold maxSafeInteger at hsafe
            rw [advance_sequence]
            omega
          · intro rest
            rw [if_neg hverify]
  · left
    intro rest
    rfl

/-- From what the first few entries leave, a pass goes on by signed entries in sequence. -/
theorem applySorted_chain_of_taken {apex key : Text} {taken entries : List (RelayLogEntry × Text)}
    (h : taken <+: entries) (s : RelayLogState) (applied : Nat) :
    Chain apex key (applySorted apex key s applied taken).state
      (applySorted apex key s applied entries).state := by
  induction taken generalizing s applied entries with
  | nil => exact applySorted_chain .start applied entries
  | cons entry taken ih =>
    obtain ⟨rest,rfl⟩ := h
    rw [List.cons_append]
    rcases applySorted_cons apex key s applied entry with hends | ⟨s',applied',_,hon⟩
    · rw [hends,hends]
      exact .start
    · rw [hon,hon]
      exact ih (List.prefix_append taken rest) s' applied'

/-- A pass leaves no sequence number out. -/
theorem applySorted_reaches {apex key : Text} {entries : List (RelayLogEntry × Text)}
    {s : RelayLogState} {applied q : Nat} (hlow : s.sequence ≤ q)
    (hhigh : q ≤ (applySorted apex key s applied entries).state.sequence) :
    ∃ taken,taken <+: entries ∧ (applySorted apex key s applied taken).state.sequence = q := by
  induction entries generalizing s applied with
  | nil => exact ⟨[],List.nil_prefix,Nat.le_antisymm hlow hhigh⟩
  | cons entry rest ih =>
    by_cases hq : s.sequence = q
    · exact ⟨[],List.nil_prefix,hq⟩
    rcases applySorted_cons apex key s applied entry with hends | ⟨s',applied',hnext,hon⟩
    · rw [hends] at hhigh
      omega
    · rw [hon] at hhigh
      have hlow' : s'.sequence ≤ q := by
        rcases hnext with rfl | hnext <;> omega
      obtain ⟨taken,htaken,heq⟩ := ih hlow' hhigh
      refine ⟨entry :: taken,List.cons_prefix_cons.mpr ⟨rfl,htaken⟩,?_⟩
      rw [hon,heq]

variable {s0 past : RelayLogState} {calls : List (Text × List (RelayLogEntry × Text))}

theorem Chain.tips {apex key : Text} {s t : RelayLogState} (h : Chain apex key s t)
    (hs : TipsKept s) : TipsKept t :=
  h.keeps (fun _ _ body _ hs _ hseq => hs.advance body _ hseq) hs

theorem Chain.remembers {apex key : Text} {s t : RelayLogState} (h : Chain apex key s t)
    (hs : TipRemembered past s) : TipRemembered past t :=
  h.keeps (fun _ _ body _ hs _ hseq => hs.advance body _ hseq) hs

theorem afterCalls_tips (h0 : TipsKept s0) : TipsKept (afterCalls s0 calls) :=
  run_invariant (fun s c hs => (logStep_chain c.1 s c.2).tips hs) h0 calls

theorem afterCalls_remembers {s : RelayLogState} (hs : TipRemembered past s) :
    TipRemembered past (afterCalls s calls) :=
  run_invariant (fun s c hs => (logStep_chain c.1 s c.2).remembers hs) hs calls

/-- Every state the relay was in is remembered, up to the window. -/
theorem Was.remembers (h0 : TipsKept s0) (h : Was s0 calls past) :
    TipRemembered past (afterCalls s0 calls) := by
  rcases h with rfl | ⟨before,key,batch,after,taken,rfl,htaken,rfl⟩
  · exact afterCalls_remembers ⟨Nat.le_refl _,fun _ => h0.tip⟩
  · have hbefore : TipsKept (afterCalls s0 before) := afterCalls_tips h0
    have hsplit : afterCalls s0 (before ++ (key,batch) :: after) =
        afterCalls (logStep key (afterCalls s0 before) batch) after := by
      unfold afterCalls
      rw [run_append,run_cons]
    rw [hsplit]
    generalize afterCalls s0 before = s at hbefore
    have hpast : TipsKept (applySorted s.servicesApex key s 0 taken).state :=
      (applySorted_chain .start 0 taken).tips hbefore
    apply afterCalls_remembers
    exact (applySorted_chain_of_taken htaken s 0).remembers ⟨Nat.le_refl _,fun _ => hpast.tip⟩

theorem Was.append (h : Was s0 calls past) (more : List (Text × List (RelayLogEntry × Text))) :
    Was s0 (calls ++ more) past := by
  rcases h with rfl | ⟨before,key,batch,after,taken,rfl,htaken,rfl⟩
  · exact .inl rfl
  · exact .inr ⟨before,key,batch,after ++ more,taken,by simp,htaken,rfl⟩

/-- The relay was at every sequence number up to its own. -/
theorem was_at (hstart : s0.sequence = 0) {q : Nat} (hq : q ≤ (afterCalls s0 calls).sequence) :
    ∃ past,Was s0 calls past ∧ past.sequence = q := by
  induction calls using List.reverseRecOn with
  | nil =>
    rw [afterCalls,run_nil] at hq
    exact ⟨s0,.inl rfl,by omega⟩
  | append_singleton calls call ih =>
    obtain ⟨key,batch⟩ := call
    by_cases hle : q ≤ (afterCalls s0 calls).sequence
    · obtain ⟨past,hwas,hseq⟩ := ih hle
      exact ⟨past,hwas.append _,hseq⟩
    · have hlast : afterCalls s0 (calls ++ [(key,batch)]) =
          logStep key (afterCalls s0 calls) batch := by
        unfold afterCalls
        rw [run_append,run_cons,run_nil]
      rw [hlast] at hq
      obtain ⟨taken,htaken,hseq⟩ := applySorted_reaches (by omega) hq
      exact ⟨_,.inr ⟨calls,key,batch,[],taken,rfl,htaken,rfl⟩,hseq⟩

/-- A tip is remembered exactly if the relay had it, at a sequence number in the window. -/
theorem recentTips_iff (h0 : TipsKept s0) (hstart : s0.sequence = 0) {q : Nat} {tip : Text} :
    (afterCalls s0 calls).recentTips.get? q = some tip ↔
      (afterCalls s0 calls).sequence < q + relayLogTipHistory ∧
      ∃ past,Was s0 calls past ∧ past.sequence = q ∧ past.tipSha256 = tip := by
  have hkept : TipsKept (afterCalls s0 calls) := afterCalls_tips h0
  constructor
  · intro htip
    obtain ⟨hle,hwindow⟩ := (hkept.window q).mp ⟨tip,htip⟩
    obtain ⟨past,hwas,rfl⟩ := was_at hstart hle
    refine ⟨hwindow,past,hwas,rfl,?_⟩
    have hpast := (hwas.remembers h0).2 hwindow
    rw [htip] at hpast
    exact (Option.some.inj hpast).symm
  · rintro ⟨hwindow,past,hwas,rfl,rfl⟩
    exact (hwas.remembers h0).2 hwindow

/-- In every state a relay comes to, a secondHead head is told exactly: applied if it is a tip
the relay had within the window, a fork if it is another one there, behind if its sequence
number is beyond the relay's, unknown if it is older than the window; and the window is
that of the last tips. -/
theorem head_status_exact (apex : Text) (s0 : RelayLogState)
    (h0 : RelayLogState.new apex = .ok s0) (calls : List (Text × List (RelayLogEntry × Text)))
    (head : RelayLogHead) :
    (relayLogHeadStatus (afterCalls s0 calls) head = .applied ↔
      (afterCalls s0 calls).sequence < head.sequence + relayLogTipHistory ∧
      ∃ past,Was s0 calls past ∧ past.sequence = head.sequence ∧
        past.tipSha256 = head.tipSha256) ∧
    (relayLogHeadStatus (afterCalls s0 calls) head = .fork ↔
      (afterCalls s0 calls).sequence < head.sequence + relayLogTipHistory ∧
      ∃ past,Was s0 calls past ∧ past.sequence = head.sequence ∧
        past.tipSha256 ≠ head.tipSha256) ∧
    (relayLogHeadStatus (afterCalls s0 calls) head = .behind ↔
      (afterCalls s0 calls).sequence < head.sequence) ∧
    (relayLogHeadStatus (afterCalls s0 calls) head = .unknown ↔
      head.sequence + relayLogTipHistory ≤ (afterCalls s0 calls).sequence) ∧
    (∀ q tip,(afterCalls s0 calls).recentTips.get? q = some tip ↔
      (afterCalls s0 calls).sequence < q + relayLogTipHistory ∧
      ∃ past,Was s0 calls past ∧ past.sequence = q ∧ past.tipSha256 = tip) ∧
    (afterCalls s0 calls).recentTips.size =
      min relayLogTipHistory ((afterCalls s0 calls).sequence + 1) := by
  obtain ⟨htips,hstart⟩ := new_tips h0
  have hkept : TipsKept (afterCalls s0 calls) := afterCalls_tips htips
  have hiff : ∀ q tip,(afterCalls s0 calls).recentTips.get? q = some tip ↔
      (afterCalls s0 calls).sequence < q + relayLogTipHistory ∧
      ∃ past,Was s0 calls past ∧ past.sequence = q ∧ past.tipSha256 = tip :=
    fun q tip => recentTips_iff htips hstart
  refine ⟨?_,?_,status_behind,hkept.status_unknown,hiff,hkept.size_eq⟩
  · rw [hkept.status_applied,hiff]
  · rw [hkept.status_fork]
    constructor
    · rintro ⟨tip,htip,hne⟩
      obtain ⟨hwindow,past,hwas,hseq,rfl⟩ := (hiff _ _).mp htip
      exact ⟨hwindow,past,hwas,hseq,hne⟩
    · rintro ⟨hwindow,past,hwas,hseq,hne⟩
      exact ⟨past.tipSha256,(hiff _ _).mpr ⟨hwindow,past,hwas,hseq,rfl⟩,hne⟩

end

section
open IndexSample
open LogSample (apex key sig box start)

/-- A head with the tip of the second registration. -/
def secondHead : RelayLogHead :=
  ⟨apex,2,(relayLogEntryCanonical apex (registered 2 takenName otherBox).1).getD [],1,9⟩

theorem head_status_exact_claimed :
    relayLogHeadStatus (afterCalls start taking) secondHead = .applied ∧
    ∃ past,Was start taking past ∧ past.sequence = 2 ∧ past.tipSha256 = secondHead.tipSha256 := by
  have happlied : relayLogHeadStatus (afterCalls start taking) secondHead = .applied := by
    decide +kernel
  exact ⟨happlied,((head_status_exact apex start (by decide +kernel) taking secondHead).1.mp
    happlied).2⟩

end
end Flagship.Mesh.Proofs

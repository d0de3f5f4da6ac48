import Flagship.Updater.Recover

namespace Flagship.Updater
open Lib

section
variable {inv : Box → Prop} {x : Unit} {s s₀ : Box}

theorem wp_writes {post : Unit → Box → Except Failure Unit → Box → Prop} (f : Disk → Disk) :
    (writes f).wp (Terms.alone inv) post x s₀ s ↔
      inv s ∧ post () s (.ok ()) (s.put (f s.disk)) := by
  simp only [writes,wp_bind,wp_awaits_alone,wp_modify]
  exact and_congr_right fun _ => ⟨fun h => h (),fun h _ => h⟩

theorem wp_disk {post : Unit → Box → Except Failure Disk → Box → Prop} :
    disk.wp (Terms.alone inv) post x s₀ s ↔ post x s₀ (.ok s.disk) s := by
  simp only [disk,wp_bind,wp_get,wp_pure]

end

@[simp] theorem put_disk (b : Box) (d : Disk) : (b.put d).disk = d := rfl

/-- A sequence that is recorded is at most the one recorded later. -/
def NotAbove (earlier later : Option Nat) : Prop :=
  ∀ k,earlier = some k → ∃ k',later = some k' ∧ k ≤ k'

theorem NotAbove.trans {a b c : Option Nat} (hab : NotAbove a b) (hbc : NotAbove b c) :
    NotAbove a c := by
  intro k hk
  obtain ⟨k',hk',hle⟩ := hab k hk
  obtain ⟨k'',hk'',hle'⟩ := hbc k' hk'
  exact ⟨k'',hk'',hle.trans hle'⟩

/-- A number that is no more than `artifact-sequence`, or than the sequence of the release
the link points to. -/
def Disk.Known (d : Disk) (t : Nat) : Prop :=
  (∃ k,d.sequence = some k ∧ t ≤ k) ∨ ∃ k,d.currentSequence = some k ∧ t ≤ k

/-- What was known stays known, and `artifact-sequence` does not decrease. -/
structure Disk.Grows (d d' : Disk) : Prop where
  known : ∀ t,d.Known t → d'.Known t
  sequence : NotAbove d.sequence d'.sequence

section
variable {d d' : Disk}

/-- The link and the record of what it points to are left alone. -/
theorem Disk.grows_of_same (hcurrent : d'.current = d.current)
    (hrecord : ∀ c,d.currentCommit = some c → d'.recordOf c = d.recordOf c)
    (hsequence : NotAbove d.sequence d'.sequence) : d.Grows d' := by
  have hcommit : d'.currentCommit = d.currentCommit := by
    rw [Disk.currentCommit,Disk.currentCommit,hcurrent]
  have hcur : d'.currentSequence = d.currentSequence := by
    rw [Disk.currentSequence,Disk.currentSequence,hcommit]
    rcases hc : d.currentCommit with _ | c
    · rfl
    · simp only [Option.bind_some,hrecord c hc]
  refine ⟨?_,hsequence⟩
  rintro t (⟨k,hk,hle⟩ | ⟨k,hk,hle⟩)
  · obtain ⟨k',hk',hle'⟩ := hsequence k hk
    exact Or.inl ⟨k',hk',hle.trans hle'⟩
  · exact Or.inr ⟨k,hcur.trans hk,hle⟩

/-- A step that touches neither the releases nor the link nor `artifact-sequence`. -/
theorem Disk.grows_of_eq (hreleases : d'.releases = d.releases) (hcurrent : d'.current = d.current)
    (hsequence : d'.sequence = d.sequence) : d.Grows d' :=
  Disk.grows_of_same hcurrent (fun c _ => by rw [Disk.recordOf,Disk.recordOf,hreleases])
    fun k hk => ⟨k,hsequence.trans hk,le_refl k⟩

/-- A step to where all that was known is below what is known now. -/
theorem Disk.grows_of_le {n : Nat} (hbelow : ∀ t,d.Known t → t ≤ n) (hknown : d'.Known n)
    (hsequence : NotAbove d.sequence d'.sequence) : d.Grows d' := by
  refine ⟨fun t ht => ?_,hsequence⟩
  have hle := hbelow t ht
  rcases hknown with ⟨k,hk,hn⟩ | ⟨k,hk,hn⟩
  · exact Or.inl ⟨k,hk,hle.trans hn⟩
  · exact Or.inr ⟨k,hk,hle.trans hn⟩

end

/-- `artifact-sequence`, raised to what a record says. -/
def raised (sequence : Option Nat) (r : Record) : Option Nat :=
  match r.sequence with
  | none => sequence
  | some seq => if sequence.all (· < seq) then some seq else sequence

theorem raised_notAbove (sequence : Option Nat) (r : Record) :
    NotAbove sequence (raised sequence r) := by
  intro k hk
  subst hk
  rw [raised]
  split
  · exact ⟨k,rfl,le_refl k⟩
  next seq _ =>
  split
  · next hlt =>
    have hlt : k < seq := by simpa using hlt
    exact ⟨seq,rfl,hlt.le⟩
  · exact ⟨k,rfl,le_refl k⟩

theorem raised_covers {sequence : Option Nat} {r : Record} {k : Nat} (h : r.sequence = some k) :
    ∃ k',raised sequence r = some k' ∧ k ≤ k' := by
  rw [raised,h]
  dsimp only
  split
  · exact ⟨k,rfl,le_refl k⟩
  next hnot =>
  rcases sequence with _ | k'
  · simp at hnot
  · exact ⟨k',rfl,by simpa using hnot⟩

/-- The intent names the release the link points to, and the link was about to be
switched to it. -/
def Disk.Pending (d : Disk) (intent : Intent) : Prop :=
  d.intent = some intent ∧ intent.phase ≠ .staged ∧ d.currentCommit = some intent.commit

/-- What `reconcile` makes of a disk. -/
def settled (paths : Paths) (d : Disk) : Disk :=
  match d.intent with
  | none => { d with incoming := [] }
  | some intent =>
    if intent.phase = .staged ∨ d.currentCommit ≠ some intent.commit then
      { d with incoming := [],intent := none }
    else
      { d with
        incoming := []
        currentJson := match d.recordOf intent.commit with
          | some r => some (.object r)
          | none => d.currentJson
        sequence := match d.recordOf intent.commit with
          | some r => raised d.sequence r
          | none => d.sequence
        node := some paths.node
        intent := some { intent with phase := .switched } }

section
variable {paths : Paths} {d : Disk} {intent : Intent}

theorem settled_none (h : d.intent = none) : settled paths d = { d with incoming := [] } := by
  unfold settled
  rw [h]

theorem settled_undone (h : d.intent = some intent)
    (hundone : intent.phase = .staged ∨ d.currentCommit ≠ some intent.commit) :
    settled paths d = { d with incoming := [],intent := none } := by
  unfold settled
  rw [h]
  exact if_pos hundone

theorem settled_done (h : d.intent = some intent)
    (hdone : ¬ (intent.phase = .staged ∨ d.currentCommit ≠ some intent.commit)) :
    settled paths d = { d with
      incoming := []
      currentJson := match d.recordOf intent.commit with
        | some r => some (.object r)
        | none => d.currentJson
      sequence := match d.recordOf intent.commit with
        | some r => raised d.sequence r
        | none => d.sequence
      node := some paths.node
      intent := some { intent with phase := .switched } } := by
  unfold settled
  rw [h]
  exact if_neg hdone

theorem settled_notAbove : NotAbove d.sequence (settled paths d).sequence := by
  have hself : NotAbove d.sequence d.sequence := fun k hk => ⟨k,hk,le_refl k⟩
  rcases hintent : d.intent with _ | intent
  · rw [settled_none hintent]
    exact hself
  by_cases hundone : intent.phase = .staged ∨ d.currentCommit ≠ some intent.commit
  · rw [settled_undone hintent hundone]
    exact hself
  rw [settled_done hintent hundone]
  dsimp only
  cases d.recordOf intent.commit with
  | none => exact hself
  | some r => exact raised_notAbove _ r

/-- What `reconcile` leaves alone. -/
theorem settled_frame : (settled paths d).releases = d.releases ∧
    (settled paths d).current = d.current ∧ (settled paths d).marker = d.marker ∧
    (settled paths d).starts = d.starts ∧ (settled paths d).outcome = d.outcome := by
  rcases hintent : d.intent with _ | intent
  · rw [settled_none hintent]
    exact ⟨rfl,rfl,rfl,rfl,rfl⟩
  by_cases hundone : intent.phase = .staged ∨ d.currentCommit ≠ some intent.commit
  · rw [settled_undone hintent hundone]
    exact ⟨rfl,rfl,rfl,rfl,rfl⟩
  · rw [settled_done hintent hundone]
    exact ⟨rfl,rfl,rfl,rfl,rfl⟩

end

section
variable {inv : Box → Prop} {x : Unit} {s s₀ : Box}
  {post : Unit → Box → Except Failure Unit → Box → Prop}

theorem wp_sweep (hkeep : ∀ b d',inv b → b.disk.Grows d' → inv (b.put d')) (names : List Text)
    (hinv : inv s) (hpost : ∀ y t₀ t,inv t →
      t.disk = { s.disk with incoming := s.disk.incoming.filter (· ∉ names) } →
      post y t₀ (.ok ()) t) : (sweep names).wp (Terms.alone inv) post x s₀ s := by
  induction names generalizing s s₀ x with
  | nil =>
    rw [sweep,wp_pure]
    refine hpost _ _ _ hinv ?_
    rw [List.filter_eq_self.mpr fun _ _ => by simp]
  | cons name rest ih =>
    rw [sweep,wp_bind,removeIncoming,wp_writes]
    refine ⟨hinv,ih (hkeep _ _ hinv (Disk.grows_of_eq rfl rfl rfl)) ?_⟩
    intro y t₀ t ht hdisk
    refine hpost y t₀ t ht (hdisk.trans ?_)
    simp only [put_disk,List.filter_filter,List.mem_cons,not_or,decide_not,Bool.decide_and]
    congr 2
    funext name
    exact Bool.and_comm _ _

/-- How a switch is finished once the state files are written. -/
theorem wp_finish (paths : Paths) (hkeep : ∀ b d',inv b → b.disk.Grows d' → inv (b.put d'))
    {intent : Intent} (hintent : s.disk.intent = some intent) (hphase : intent.phase ≠ .staged)
    (hinv : inv s) (hpost : ∀ y t₀ t,inv t → t.disk = { s.disk with
      node := some paths.node,intent := some { intent with phase := .switched } } →
      post y t₀ (.ok ()) t) :
    Async.wp (Terms.alone inv) (do
      linkNode paths
      if intent.phase = .switching then writeIntent (some { intent with phase := .switched }))
      post x s₀ s := by
  rw [wp_bind,linkNode,wp_writes]
  refine ⟨hinv,?_⟩
  have hlinked := hkeep s { s.disk with node := some paths.node } hinv (Disk.grows_of_eq rfl rfl rfl)
  dsimp only
  split
  · rw [writeIntent,wp_writes]
    exact ⟨hlinked,hpost _ _ _ (hkeep _ _ hlinked (Disk.grows_of_eq rfl rfl rfl)) rfl⟩
  · next hswitching =>
    rw [wp_pure]
    refine hpost _ _ _ hlinked ?_
    have hphase : intent.phase = .switched := by
      cases h : intent.phase with
      | staged => exact absurd h hphase
      | switching => exact absurd h hswitching
      | switched => rfl
    rw [put_disk,← hphase,← hintent]

/-- `reconcile` as a whole: what every growing step keeps holds on the way and at the end. -/
theorem wp_reconcile (paths : Paths) (hkeep : ∀ b d',inv b → b.disk.Grows d' → inv (b.put d'))
    (hinv : inv s) (hpost : ∀ y t₀ t,inv t → t.disk = settled paths s.disk →
      post y t₀ (.ok ()) t) : (reconcile paths).wp (Terms.alone inv) post x s₀ s := by
  rw [reconcile,wp_bind,wp_disk]
  dsimp only
  rw [wp_bind]
  refine wp_sweep hkeep _ hinv ?_
  intro y t₀ t ht hdisk
  dsimp only
  have hempty : s.disk.incoming.filter (· ∉ s.disk.incoming) = [] := by simp
  rw [hempty] at hdisk
  rcases hintent : s.disk.intent with _ | intent
  · rw [wp_pure]
    exact hpost y t₀ t ht (hdisk.trans (settled_none hintent).symm)
  dsimp only
  by_cases hundone : intent.phase = .staged ∨ s.disk.currentCommit ≠ some intent.commit
  · rw [if_pos hundone,writeIntent,wp_writes]
    refine ⟨ht,hpost _ _ _ (hkeep _ _ ht (Disk.grows_of_eq rfl rfl rfl)) ?_⟩
    rw [put_disk,hdisk,settled_undone hintent hundone]
  rw [if_neg hundone]
  rw [not_or,not_not] at hundone
  have hphase := hundone.1
  have hdone := @settled_done paths s.disk intent hintent (by rw [not_or,not_not]; exact hundone)
  have hat : t.disk.intent = some intent := by rw [hdisk,← hintent]
  rcases hrecord : s.disk.recordOf intent.commit with _ | r <;> rw [hrecord] at hdone <;>
    dsimp only at hdone
  · refine wp_finish paths hkeep hat hphase ht fun y t₀ t' ht' hdisk' => hpost y t₀ t' ht' ?_
    rw [hdisk',hdone,hdisk]
  dsimp only
  rw [wp_bind,wp_writes]
  have hnamed := hkeep t { t.disk with currentJson := some (.object r) } ht
    (Disk.grows_of_eq rfl rfl rfl)
  refine ⟨ht,?_⟩
  dsimp only
  have hraised : raised s.disk.sequence r = match r.sequence with
    | none => s.disk.sequence
    | some seq => if s.disk.sequence.all (· < seq) then some seq else s.disk.sequence := rfl
  rcases hseq : r.sequence with _ | seq
  · refine wp_finish paths hkeep (by exact hat) hphase hnamed fun y t₀ t' ht' hdisk' =>
      hpost y t₀ t' ht' ?_
    rw [hseq] at hraised
    rw [hdisk',hdone,put_disk,hdisk,hraised]
  rw [hseq] at hraised
  dsimp only at hraised ⊢
  by_cases hlow : s.disk.sequence.all (· < seq) = true
  · rw [if_pos hlow] at hraised
    rw [if_pos hlow,wp_bind,wp_writes]
    have hgrows : ({ t.disk with currentJson := some (.object r) } : Disk).Grows
        { t.disk with currentJson := some (.object r),sequence := some seq } := by
      refine Disk.grows_of_same rfl (fun _ _ => rfl) fun k hk => ⟨seq,rfl,?_⟩
      have hs : s.disk.sequence = some k := by
        rw [← hk,hdisk]
      rw [hs] at hlow
      have hlt : k < seq := by simpa using hlow
      exact hlt.le
    refine ⟨hnamed,?_⟩
    refine wp_finish paths hkeep (by exact hat) hphase (hkeep _ _ hnamed hgrows)
      fun y t₀ t' ht' hdisk' => hpost y t₀ t' ht' ?_
    rw [hdisk',hdone,put_disk,put_disk,hdisk,hraised]
  · rw [if_neg hlow] at hraised
    rw [if_neg hlow]
    refine wp_finish paths hkeep (by exact hat) hphase hnamed fun y t₀ t' ht' hdisk' =>
      hpost y t₀ t' ht' ?_
    rw [hdisk',hdone,put_disk,hdisk,hraised]

end
end Flagship.Updater

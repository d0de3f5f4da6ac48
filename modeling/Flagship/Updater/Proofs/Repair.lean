import Flagship.Updater.Proofs.Sequence

namespace Flagship.Updater
open Lib

/-- A disk after `reconcile` has run on it. -/
def reconciled (paths : Paths) (d : Disk) : Disk :=
  ((reconcile paths).finish (Box.of d)).1.disk

theorem reconciled_eq (paths : Paths) (d : Disk) : reconciled paths d = settled paths d := by
  have h : (reconcile paths).wp (Terms.alone fun _ => True)
      (fun _ _ _ t => t.disk = settled paths d) default (Box.of d) (Box.of d) :=
    wp_reconcile paths (fun _ _ _ _ => trivial) trivial fun _ _ _ _ hdisk => hdisk
  exact h.finish

/-- The state files agree with the link: `artifact-current.json` names the commit it points
to, and `artifact-sequence` is at least that release's sequence. -/
structure Consistent (d : Disk) : Prop where
  named : ∀ c,d.currentCommit = some c →
    ∃ r,d.currentJson = some (.object r) ∧ r.commit = some c
  covered : ∀ s,d.currentSequence = some s → ∃ k,d.sequence = some k ∧ s ≤ k

inductive Switch
  | install (a : InstallArgs)
  | restore (commit : Text) (nowMs : Nat)

def Switch.command : Switch → Command
  | .install a => .install a
  | .restore commit nowMs => .restore commit nowMs

/-- The commit that is being switched to. -/
def Switch.Target : Switch → Text → Prop
  | .install a,c => ∃ m,a.manifest = .ok m ∧ m.commit = c
  | .restore commit _,c => commit = c

/-- What one run of `reconcile` makes of a disk that a switch was cut off on, and that a
second one changes nothing. -/
structure Repaired (paths : Paths) (start : Disk) (switch : Switch) (d : Disk) : Prop where
  consistent : Consistent (reconciled paths d)
  clean : (reconciled paths d).incoming = []
  link : (reconciled paths d).current = start.current ∨
    ∃ c,switch.Target c ∧ (reconciled paths d).current = .link (paths.app c)
  again : reconciled paths (reconciled paths d) = reconciled paths d

/-- An install that goes through is of another commit than the current one, and a restore
is to a release whose sequence is recorded. -/
def Repairable (paths : Paths) (d : Disk) : Switch → Prop
  | .install a => ∀ m app,verify a (lastSequence a d) = .ok m → a.unpacked = .ok app →
      (∀ release,d.releases m.commit = some release → release.app = some app) →
      d.currentCommit ≠ some m.commit
  | .restore commit _ => ∀ r,restorable paths d commit = .ok r →
      ∀ s,r.sequence = some s → ∃ k,d.sequence = some k ∧ s ≤ k

section
variable {paths : Paths} {d d' : Disk} {intent : Intent} {r : Record} {c : Text}

theorem commit_of_recordOf (h : d.recordOf c = some r) : r.commit = some c := by
  rw [Disk.recordOf,Option.bind_eq_some_iff] at h
  obtain ⟨release,_,h⟩ := h
  rw [Option.bind_eq_some_iff] at h
  obtain ⟨file,_,h⟩ := h
  cases file with
  | notJson => cases h
  | object r' =>
    rw [File.naming] at h
    split at h
    · next hcommit =>
      cases h
      exact hcommit
    · cases h

theorem settled_commit : (settled paths d).currentCommit = d.currentCommit := by
  rw [Disk.currentCommit,Disk.currentCommit,settled_frame.2.1]

theorem settled_recordOf (c : Text) : (settled paths d).recordOf c = d.recordOf c := by
  rw [Disk.recordOf,Disk.recordOf,settled_frame.1]

theorem settled_currentSequence : (settled paths d).currentSequence = d.currentSequence := by
  rw [Disk.currentSequence,Disk.currentSequence,settled_commit]
  simp only [settled_recordOf]

theorem settled_clean : (settled paths d).incoming = [] := by
  rcases hintent : d.intent with _ | intent
  · rw [settled_none hintent]
  by_cases hundone : intent.phase = .staged ∨ d.currentCommit ≠ some intent.commit
  · rw [settled_undone hintent hundone]
  · rw [settled_done hintent hundone]

theorem Disk.Pending.done (h : d.Pending intent) :
    ¬ (intent.phase = .staged ∨ d.currentCommit ≠ some intent.commit) := by
  rw [not_or,not_not]
  exact ⟨h.2.1,h.2.2⟩

/-- A switch that is pending is finished from the record. -/
theorem consistent_of_pending (h : d.Pending intent) (hr : d.recordOf intent.commit = some r) :
    Consistent (settled paths d) := by
  constructor
  · intro c hc
    rw [settled_commit,h.2.2] at hc
    cases hc
    refine ⟨r,?_,commit_of_recordOf hr⟩
    rw [settled_done h.1 h.done]
    dsimp only
    rw [hr]
  · intro s hs
    rw [settled_currentSequence,Disk.currentSequence,h.2.2,Option.bind_some,hr,
      Option.bind_some] at hs
    rw [settled_done h.1 h.done]
    dsimp only
    rw [hr]
    exact raised_covers hs

theorem consistent_settled (h : Consistent d) : Consistent (settled paths d) := by
  rcases hintent : d.intent with _ | intent
  · rw [settled_none hintent]
    exact ⟨h.named,h.covered⟩
  by_cases hundone : intent.phase = .staged ∨ d.currentCommit ≠ some intent.commit
  · rw [settled_undone hintent hundone]
    exact ⟨h.named,h.covered⟩
  have hpending : d.Pending intent := by
    rw [not_or,not_not] at hundone
    exact ⟨hintent,hundone⟩
  rcases hr : d.recordOf intent.commit with _ | r
  · rw [settled_done hintent hundone,hr]
    exact ⟨h.named,h.covered⟩
  · exact consistent_of_pending hpending hr

theorem raised_raised (sequence : Option Nat) (r : Record) :
    raised (raised sequence r) r = raised sequence r := by
  rcases hseq : r.sequence with _ | seq
  · simp only [raised,hseq]
  simp only [raised,hseq]
  by_cases hlow : sequence.all (· < seq) = true
  · rw [if_pos hlow,if_neg]
    simp
  · rw [if_neg hlow,if_neg hlow]

/-- A second run finds nothing to do. -/
theorem settled_settled : settled paths (settled paths d) = settled paths d := by
  rcases hintent : d.intent with _ | intent
  · have hnone : (settled paths d).intent = none := by rw [settled_none hintent,hintent]
    rw [settled_none hnone,settled_none hintent]
  by_cases hundone : intent.phase = .staged ∨ d.currentCommit ≠ some intent.commit
  · have hnone : (settled paths d).intent = none := by rw [settled_undone hintent hundone]
    rw [settled_none hnone,settled_undone hintent hundone]
  have hswitched : (settled paths d).intent = some { intent with phase := .switched } := by
    rw [settled_done hintent hundone]
  have hdone : ¬ (({ intent with phase := .switched } : Intent).phase = .staged ∨
      (settled paths d).currentCommit ≠ some ({ intent with phase := .switched } : Intent).commit) := by
    rw [not_or,not_not] at hundone ⊢
    exact ⟨by simp,settled_commit.trans hundone.2⟩
  rw [settled_done hswitched hdone]
  dsimp only
  rw [settled_recordOf,settled_done hintent hundone]
  cases d.recordOf intent.commit with
  | none => rfl
  | some r =>
    dsimp only
    rw [raised_raised]

theorem repaired_of {switch : Switch} (hcons : Consistent (settled paths d'))
    (hlink : d'.current = d.current ∨ ∃ c,switch.Target c ∧ d'.current = .link (paths.app c)) :
    Repaired paths d switch d' := by
  have hcurrent := (@settled_frame paths d').2.1
  constructor
  · rw [reconciled_eq]
    exact hcons
  · rw [reconciled_eq]
    exact settled_clean
  · rw [reconciled_eq,hcurrent]
    exact hlink
  · rw [reconciled_eq,reconciled_eq,settled_settled]

end
/-- The link, what it points to and the state files are as they were. -/
structure Unmoved (d d' : Disk) : Prop where
  current : d'.current = d.current
  record : ∀ c,d.currentCommit = some c → d'.recordOf c = d.recordOf c
  sequence : d'.sequence = d.sequence
  json : d'.currentJson = d.currentJson

/-- The link points to the release that is being switched to, and the intent says so. -/
structure Moved (paths : Paths) (c : Text) (d : Disk) : Prop where
  hex : isCommit c = true
  current : d.current = .link (paths.app c)
  record : (d.recordOf c).isSome
  intent : ∃ i,d.intent = some i ∧ i.phase ≠ .staged ∧ i.commit = c

section
variable {paths : Paths} {d d' : Disk} {switch : Switch} {c : Text}

theorem Unmoved.repaired (h : Unmoved d d') (hd : Consistent d) : Repaired paths d switch d' := by
  have hcommit : d'.currentCommit = d.currentCommit := by
    rw [Disk.currentCommit,Disk.currentCommit,h.current]
  refine repaired_of (consistent_settled ⟨?_,?_⟩) (Or.inl h.current)
  · rw [hcommit,h.json]
    exact hd.named
  · rw [Disk.currentSequence,hcommit,h.sequence]
    intro s hs
    refine hd.covered s ?_
    rw [Disk.currentSequence]
    rcases hc : d.currentCommit with _ | c
    · rw [hc] at hs
      cases hs
    · rw [hc,Option.bind_some,h.record c hc] at hs
      exact hs

theorem Moved.repaired (h : Moved paths c d') (hc : switch.Target c) : Repaired paths d switch d' := by
  obtain ⟨i,hi,hphase,rfl⟩ := h.intent
  obtain ⟨r,hr⟩ := Option.isSome_iff_exists.mp h.record
  have hcommit : d'.currentCommit = some i.commit := by
    rw [Disk.currentCommit,h.current]
    exact releaseCommitOf_app paths h.hex
  exact repaired_of (consistent_of_pending ⟨hi,hphase,hcommit⟩ hr) (Or.inr ⟨_,hc,h.current⟩)

end

section
variable {paths : Paths} {d : Disk} {switch : Switch} {x : Unit} {s s₀ : Box} {c : Text}

/-- The disk can be repaired. -/
abbrev canRepair (paths : Paths) (d : Disk) (switch : Switch) : Terms Box Unit Unit :=
  Terms.alone fun b => Repaired paths d switch b.disk

theorem wp_unmoved {post : Unit → Box → Except Failure Unit → Box → Prop} {f : Disk → Disk}
    (hd : Consistent d) (hs : Unmoved d s.disk)
    (hpost : post () s (.ok ()) (s.put (f s.disk))) :
    (writes f).wp (canRepair paths d switch) post x s₀ s :=
  (wp_writes f).mpr ⟨hs.repaired hd,hpost⟩

theorem wp_moved {post : Unit → Box → Except Failure Unit → Box → Prop} {f : Disk → Disk}
    (hc : switch.Target c) (hs : Moved paths c s.disk)
    (hpost : post () s (.ok ()) (s.put (f s.disk))) :
    (writes f).wp (canRepair paths d switch) post x s₀ s :=
  (wp_writes f).mpr ⟨hs.repaired hc,hpost⟩

theorem restore_repaired {commit : Text} {nowMs : Nat} (hd : Consistent d) (hs : s.disk = d)
    (hok : Repairable paths d (.restore commit nowMs)) :
    (restore paths commit nowMs).wp (canRepair paths d (.restore commit nowMs))
      (fun _ _ _ t => Repaired paths d (.restore commit nowMs) t.disk) x s₀ s := by
  have hself : Unmoved d d := ⟨rfl,fun _ _ => rfl,rfl,rfl⟩
  rw [restore,wp_bind,wp_disk,hs]
  dsimp only
  rcases hr : restorable paths d commit with f | r
  · rw [wp_throw,hs]
    exact hself.repaired hd
  obtain ⟨hhex,hrecord,_⟩ := restorable_ok hr
  have hsome : (d.recordOf commit).isSome := by rw [hrecord]; rfl
  dsimp only
  rw [wp_bind,writeIntent]
  refine wp_unmoved hd (hs ▸ hself) ?_
  dsimp only
  rw [wp_bind]
  refine wp_unmoved hd (by rw [hs]; exact ⟨rfl,fun _ _ => rfl,rfl,rfl⟩) ?_
  dsimp only
  rw [wp_bind,linkNode]
  refine wp_moved rfl (by rw [hs]; exact ⟨hhex,rfl,hsome,_,rfl,by simp,rfl⟩) ?_
  dsimp only
  rw [wp_bind]
  refine wp_moved rfl (by rw [hs]; exact ⟨hhex,rfl,hsome,_,rfl,by simp,rfl⟩) ?_
  dsimp only
  rw [writeIntent]
  refine wp_moved rfl (by rw [hs]; exact ⟨hhex,rfl,hsome,_,rfl,by simp,rfl⟩) ?_
  rw [hs]
  refine repaired_of (consistent_settled ⟨?_,?_⟩) (Or.inr ⟨commit,rfl,rfl⟩)
  · intro c hc
    have hlinked : releaseCommitOf (paths.app commit) = some c := hc
    rw [releaseCommitOf_app paths hhex] at hlinked
    cases hlinked
    exact ⟨r,rfl,commit_of_recordOf hrecord⟩
  · intro s hs
    have hseq : r.sequence = some s :=
      (@currentSequence_linked paths _ commit r hhex (by rfl) (by exact hrecord)).symm.trans hs
    exact hok r hr s hseq

theorem prune_repaired {keep : List Text} {removals : List Removal}
    {post : Unit → Box → Except Failure Unit → Box → Prop} (hc : switch.Target c)
    (hs : Moved paths c s.disk) (hkept : c ∈ keep)
    (hpost : ∀ y t₀ t,Moved paths c t.disk → post y t₀ (.ok ()) t) :
    (prune keep removals).wp (canRepair paths d switch) post x s₀ s := by
  induction removals generalizing s s₀ x with
  | nil =>
    rw [prune,wp_pure]
    exact hpost _ _ _ hs
  | cons r rest ih =>
    rw [prune]
    split
    · next hname =>
      rw [wp_bind]
      have hnot : r.name ∉ keep := by simpa using hname
      have hrecord : (r.apply s.disk).recordOf c = s.disk.recordOf c :=
        Removal.recordOf_apply fun heq => hnot (heq ▸ hkept)
      exact wp_moved hc hs (ih ⟨hs.hex,hs.current,hrecord ▸ hs.record,hs.intent⟩)
    · exact ih hs

theorem writePrevious_repaired {post : Unit → Box → Except Failure Unit → Box → Prop}
    (hd : Consistent d) (current : Current) (hs : Unmoved d s.disk)
    (hpost : ∀ y t₀ t,(∃ previous,t.disk = { s.disk with previous := previous }) →
      post y t₀ (.ok ()) t) :
    (writePrevious current).wp (canRepair paths d switch) post x s₀ s := by
  cases current with
  | link target =>
    rw [writePrevious]
    exact wp_unmoved hd hs (hpost _ _ _ ⟨some target,rfl⟩)
  | absent => exact (wp_pure ()).mpr (hpost _ _ _ ⟨s.disk.previous,rfl⟩)
  | directory => exact (wp_pure ()).mpr (hpost _ _ _ ⟨s.disk.previous,rfl⟩)

/-- The switch to another commit than the current one. -/
theorem switchRelease_repaired {a : InstallArgs} {m : Manifest}
    {post : Unit → Box → Except Failure Installed → Box → Prop} (hd : Consistent d)
    (hs : Unmoved d s.disk) (hthere : (s.disk.releases m.commit).isSome)
    (hother : d.currentCommit ≠ some m.commit) (hc : switch.Target m.commit)
    (hpost : ∀ y t₀ result t,Unmoved d t.disk ∨ Moved paths m.commit t.disk →
      post y t₀ result t) :
    (switchRelease paths a m).wp (canRepair paths d switch) post x s₀ s := by
  obtain ⟨release,hrelease⟩ := Option.isSome_iff_exists.mp hthere
  have hrecord : (s.disk.setRecord m.commit (.object (installedRecord a m))).recordOf m.commit =
      some (installedRecord a m) := by
    rw [recordOf_setRecord,if_pos rfl,hrelease,Option.bind_some,naming_installedRecord]
  have hset : Unmoved d (s.disk.setRecord m.commit (.object (installedRecord a m))) := by
    refine ⟨hs.current,fun c hc => ?_,hs.sequence,hs.json⟩
    rw [recordOf_setRecord,if_neg,hs.record c hc]
    rintro rfl
    exact hother hc
  rw [switchRelease,wp_bind]
  refine wp_unmoved hd hs ?_
  dsimp only
  rw [wp_bind,wp_disk]
  dsimp only
  split
  · rw [wp_bind,wp_throw]
    exact hpost _ _ _ _ (Or.inl hset)
  rw [wp_bind,writeIntent]
  refine wp_unmoved hd hset ?_
  dsimp only
  rw [wp_bind]
  refine writePrevious_repaired hd _ ⟨hset.current,hset.record,hset.sequence,hset.json⟩ ?_
  rintro y t₀ t ⟨previous,ht⟩
  have htset : Unmoved d t.disk := by
    rw [ht]
    exact ⟨hset.current,hset.record,hset.sequence,hset.json⟩
  have hsome : (t.disk.recordOf m.commit).isSome := by
    have heq : t.disk.recordOf m.commit = some (installedRecord a m) := by
      rw [ht]
      exact hrecord
    rw [heq]
    rfl
  dsimp only
  rw [wp_bind,writeIntent]
  refine wp_unmoved hd htset ?_
  dsimp only
  rw [wp_bind]
  refine wp_unmoved hd ⟨htset.current,htset.record,htset.sequence,htset.json⟩ ?_
  dsimp only
  rw [wp_bind,linkNode]
  refine wp_moved hc ⟨m.hex,rfl,hsome,_,rfl,by simp,rfl⟩ ?_
  dsimp only
  rw [wp_bind]
  refine wp_moved hc ⟨m.hex,rfl,hsome,_,rfl,by simp,rfl⟩ ?_
  dsimp only
  rw [wp_bind]
  refine wp_moved hc ⟨m.hex,rfl,hsome,_,rfl,by simp,rfl⟩ ?_
  dsimp only
  rw [wp_bind,writeIntent]
  refine wp_moved hc ⟨m.hex,rfl,hsome,_,rfl,by simp,rfl⟩ ?_
  dsimp only
  rw [wp_bind]
  refine prune_repaired hc ⟨m.hex,rfl,hsome,_,rfl,by simp,rfl⟩ List.mem_cons_self ?_
  intro y t₀ t hmoved
  exact (wp_pure _).mpr (hpost _ _ _ _ (Or.inr hmoved))

theorem stageAndSwitch_repaired {a : InstallArgs} {m : Manifest} {staging : Text}
    {post : Unit → Box → Except Failure Installed → Box → Prop} (hd : Consistent d)
    (hs : Unmoved d s.disk) (hreleases : s.disk.releases = d.releases)
    (hother : ∀ app,a.unpacked = .ok app →
      (∀ release,d.releases m.commit = some release → release.app = some app) →
      d.currentCommit ≠ some m.commit) (hc : switch.Target m.commit)
    (hpost : ∀ y t₀ result t,Unmoved d t.disk ∨ Moved paths m.commit t.disk →
      post y t₀ result t) :
    (stageAndSwitch paths a m staging).wp (canRepair paths d switch) post x s₀ s := by
  rw [stageAndSwitch]
  rcases hun : a.unpacked with f | app
  · rw [wp_throw]
    exact hpost _ _ _ _ (Or.inl hs)
  dsimp only
  rw [wp_bind,wp_disk]
  dsimp only
  rw [hreleases]
  rcases hrelease : d.releases m.commit with _ | release
  · have hne := hother app hun (fun release h => by rw [hrelease] at h; cases h)
    dsimp only
    rw [wp_bind]
    refine wp_unmoved hd hs (switchRelease_repaired hd ⟨hs.current,?_,hs.sequence,hs.json⟩ ?_
      hne hc hpost)
    · intro c hc
      have hnec : c ≠ m.commit := by
        rintro rfl
        exact hne hc
      rw [← hs.record c hc]
      simp only [Disk.recordOf,put_disk,if_neg hnec]
    · simp only [put_disk,if_true,Option.isSome_some]
  · dsimp only
    split
    · rw [wp_bind,wp_throw]
      exact hpost _ _ _ _ (Or.inl hs)
    · next happ =>
      have hne := hother app hun fun release' h => by
        rw [hrelease] at h
        cases h
        exact not_not.mp happ
      exact switchRelease_repaired hd hs (by rw [hreleases,hrelease]; rfl) hne hc hpost

theorem Moved.swept {f : List Text → List Text} (h : Moved paths c d) :
    Moved paths c { d with incoming := f d.incoming } := ⟨h.hex,h.current,h.record,h.intent⟩

theorem install_repaired {a : InstallArgs} (hd : Consistent d) (hs : s.disk = d)
    (hok : Repairable paths d (.install a)) :
    (install paths a).wp (canRepair paths d (.install a))
      (fun _ _ _ t => Repaired paths d (.install a) t.disk) x s₀ s := by
  have hself : Unmoved d d := ⟨rfl,fun _ _ => rfl,rfl,rfl⟩
  rw [install,wp_bind,wp_disk,hs]
  dsimp only
  rcases hv : verify a (lastSequence a d) with r | m
  · rw [wp_throw,hs]
    exact hself.repaired hd
  have hc : (Switch.install a).Target m.commit := ⟨m,(verify_ok hv).1,rfl⟩
  dsimp only
  rw [wp_bind,removeIncoming]
  refine wp_unmoved hd (hs ▸ hself) ?_
  dsimp only
  rw [wp_bind]
  refine wp_unmoved hd (by rw [hs]; exact ⟨rfl,fun _ _ => rfl,rfl,rfl⟩) ?_
  dsimp only
  rw [wp_bind,wp_attempt]
  refine stageAndSwitch_repaired hd (by rw [hs]; exact ⟨rfl,fun _ _ => rfl,rfl,rfl⟩)
    (by rw [hs]; rfl) (fun app => hok m app hv) hc ?_
  intro y t₀ result t ht
  have hdone : Repaired paths d (.install a)
      { t.disk with incoming := t.disk.incoming.filter (· ≠ stagingName a m) } := by
    rcases ht with ht | ht
    · exact Unmoved.repaired ⟨ht.current,ht.record,ht.sequence,ht.json⟩ hd
    · exact (ht.swept (f := List.filter (· ≠ stagingName a m))).repaired hc
  dsimp only
  rw [wp_bind]
  refine (wp_writes _).mpr ⟨ht.elim (fun h => h.repaired hd) fun h => h.repaired hc,?_⟩
  cases result with
  | ok i => exact (wp_pure i).mpr hdone
  | error f => exact (wp_throw f).mpr hdone

/-- A switch to the commit that is current raises the sequence in its record, and is cut off
before the intent says that the link is being switched. -/
theorem switchRelease_unrepaired {a : InstallArgs} {m : Manifest}
    {post : Unit → Box → Except Failure Installed → Box → Prop}
    (hthere : (s.disk.releases m.commit).isSome) (hcurrent : s.disk.currentCommit = some m.commit)
    (hlow : ∀ k,s.disk.sequence = some k → k < m.sequence) :
    ¬ (switchRelease paths a m).wp (canRepair paths d switch) post x s₀ s := by
  intro h
  obtain ⟨release,hrelease⟩ := Option.isSome_iff_exists.mp hthere
  have hlink : ∃ target,s.disk.current = .link target := by
    cases hc : s.disk.current with
    | link target => exact ⟨target,rfl⟩
    | absent => rw [Disk.currentCommit,hc] at hcurrent; cases hcurrent
    | directory => rw [Disk.currentCommit,hc] at hcurrent; cases hcurrent
  obtain ⟨target,hlink⟩ := hlink
  have hset : (s.disk.setRecord m.commit (.object (installedRecord a m))).current =
      .link target := hlink
  rw [switchRelease,wp_bind,wp_writes] at h
  replace h := h.2
  dsimp only at h
  rw [wp_bind,wp_disk] at h
  dsimp only at h
  rw [put_disk,hset,if_neg (by simp),wp_bind,writeIntent,wp_writes] at h
  replace h := h.2
  dsimp only at h
  rw [wp_bind,writePrevious,wp_writes] at h
  replace h := h.1.consistent.covered m.sequence
  rw [put_disk,put_disk,reconciled_eq,settled_undone rfl (Or.inl rfl)] at h
  have hcur : ({ s.disk.setRecord m.commit (.object (installedRecord a m)) with
      incoming := [],intent := none } : Disk).currentSequence = some m.sequence := by
    have hrecord : (s.disk.setRecord m.commit (.object (installedRecord a m))).recordOf m.commit =
        some (installedRecord a m) := by
      rw [recordOf_setRecord,if_pos rfl,hrelease,Option.bind_some,naming_installedRecord]
    have hcommit : ({ s.disk.setRecord m.commit (.object (installedRecord a m)) with
        incoming := [],intent := none } : Disk).currentCommit = some m.commit := hcurrent
    rw [Disk.currentSequence,hcommit,Option.bind_some]
    exact (congrArg (Option.bind · Record.sequence) hrecord)
  obtain ⟨k,hk,hle⟩ := h hcur
  exact absurd (hlow k hk) (not_lt.mpr hle)

theorem stageAndSwitch_unrepaired {a : InstallArgs} {m : Manifest} {app : Tree} {staging : Text}
    {post : Unit → Box → Except Failure Installed → Box → Prop} (hun : a.unpacked = .ok app)
    (hsame : ∀ release,s.disk.releases m.commit = some release → release.app = some app)
    (hcurrent : s.disk.currentCommit = some m.commit)
    (hlow : ∀ k,s.disk.sequence = some k → k < m.sequence) :
    ¬ (stageAndSwitch paths a m staging).wp (canRepair paths d switch) post x s₀ s := by
  intro h
  rw [stageAndSwitch,hun] at h
  dsimp only at h
  rw [wp_bind,wp_disk] at h
  dsimp only at h
  rcases hrelease : s.disk.releases m.commit with _ | release
  · rw [hrelease] at h
    dsimp only at h
    rw [wp_bind,wp_writes] at h
    exact switchRelease_unrepaired (by simp only [put_disk,if_true,Option.isSome_some])
      (by exact hcurrent) (by exact hlow) h.2
  · rw [hrelease] at h
    dsimp only at h
    rw [if_neg (not_not.mpr (hsame release hrelease))] at h
    exact switchRelease_unrepaired (by rw [hrelease]; rfl) hcurrent hlow h

/-- An install of the commit that is current. -/
theorem install_unrepaired {a : InstallArgs} {m : Manifest} {app : Tree}
    (hv : verify a (lastSequence a s.disk) = .ok m) (hun : a.unpacked = .ok app)
    (hsame : ∀ release,s.disk.releases m.commit = some release → release.app = some app)
    (hcurrent : s.disk.currentCommit = some m.commit) :
    ¬ (install paths a).wp (canRepair paths d switch)
      (fun _ _ _ t => Repaired paths d switch t.disk) x s₀ s := by
  intro h
  have hlow : ∀ k,s.disk.sequence = some k → k < m.sequence := by
    intro k hk
    refine (verify_ok hv).2 k ?_
    rw [lastSequence,hk]
    rfl
  rw [install,wp_bind,wp_disk] at h
  dsimp only at h
  rw [hv] at h
  dsimp only at h
  rw [wp_bind,removeIncoming,wp_writes] at h
  replace h := h.2
  dsimp only at h
  rw [wp_bind,wp_writes] at h
  replace h := h.2
  dsimp only at h
  rw [wp_bind,wp_attempt] at h
  refine stageAndSwitch_unrepaired hun ?_ ?_ ?_ h
  · exact hsame
  · exact hcurrent
  · exact hlow

/-- A restore to a release whose sequence is not recorded, once its intent is gone. -/
theorem restore_unrepaired {commit : Text} {nowMs : Nat} {r : Record} {n : Nat}
    (hr : restorable paths s.disk commit = .ok r) (hn : r.sequence = some n)
    (hlow : ∀ k,s.disk.sequence = some k → k < n) :
    ¬ (restore paths commit nowMs).wp (canRepair paths d switch)
      (fun _ _ _ t => Repaired paths d switch t.disk) x s₀ s := by
  intro h
  obtain ⟨hhex,hrecord,_⟩ := restorable_ok hr
  rw [restore,wp_bind,wp_disk] at h
  dsimp only at h
  rw [hr] at h
  dsimp only at h
  rw [wp_bind,writeIntent,wp_writes] at h
  replace h := h.2
  dsimp only at h
  rw [wp_bind,wp_writes] at h
  replace h := h.2
  dsimp only at h
  rw [wp_bind,linkNode,wp_writes] at h
  replace h := h.2
  dsimp only at h
  rw [wp_bind,wp_writes] at h
  replace h := h.2
  dsimp only at h
  rw [writeIntent,wp_writes] at h
  replace h := h.2.consistent.covered n
  rw [reconciled_eq,settled_none rfl] at h
  have hcur := @currentSequence_linked paths { s.disk with
    incoming := []
    current := .link (paths.app commit)
    node := some paths.node
    currentJson := some (.object r)
    intent := none } commit r hhex rfl hrecord
  obtain ⟨k,hk,hle⟩ := h (hcur.trans hn)
  exact absurd (hlow k hk) (not_lt.mpr hle)

/-- What an install returns does not matter here. -/
theorem wp_install_command {terms : Terms Box Unit Unit} {P : Box → Prop} (a : InstallArgs) :
    ((Command.install a).code paths).wp terms (fun _ _ _ t => P t) x s₀ s ↔
      (install paths a).wp terms (fun _ _ _ t => P t) x s₀ s := by
  rw [Command.code,wp_bind]
  constructor
  · intro h
    refine h.mono fun y t₀ result t hpost => ?_
    cases result with
    | ok i => exact (wp_pure ()).mp hpost
    | error f => exact hpost
  · intro h
    refine h.mono fun y t₀ result t hpost => ?_
    cases result with
    | ok i => exact (wp_pure ()).mpr hpost
    | error f => exact hpost

/-- Wherever a switch is cut off, `reconcile` repairs it, just where an install that goes
through is of another commit than the current one and a restore is to a release whose
sequence is recorded. -/
theorem switch_repaired_iff (hd : Consistent d) :
    (∀ steps,Repaired paths d switch
      (((switch.command.code paths).alone (List.replicate steps ()) (Box.of d)).1.disk)) ↔
    Repairable paths d switch := by
  have hall : (∀ steps,Repaired paths d switch
      (((switch.command.code paths).alone (List.replicate steps ()) (Box.of d)).1.disk)) ↔
      (switch.command.code paths).wp (canRepair paths d switch)
        (fun _ _ _ t => Repaired paths d switch t.disk) default (Box.of d) (Box.of d) := by
    rw [← Async.alone_iff_wp]
    refine ⟨fun h inputs => ?_,fun h steps => h _⟩
    have hsame : inputs = List.replicate inputs.length () := List.eq_replicate_length.mpr fun _ _ => rfl
    rw [hsame]
    exact h inputs.length
  rw [hall]
  cases switch with
  | install a =>
    rw [Switch.command,wp_install_command]
    refine ⟨fun h m app hv hun hsame hcurrent => ?_,fun hok => install_repaired hd rfl hok⟩
    exact install_unrepaired hv hun hsame hcurrent h
  | restore commit nowMs =>
    refine ⟨fun h r hr n hn => ?_,fun hok => restore_repaired hd rfl hok⟩
    by_contra hnot
    refine restore_unrepaired hr hn (fun k hk => ?_) h
    by_contra hge
    exact hnot ⟨k,hk,not_lt.mp hge⟩

/-- An install on a box on which nothing was installed. -/
theorem switch_repaired_iff_fresh : Consistent fresh ∧ ∀ steps,Repaired ⟨[],[]⟩ fresh
    (.install (installing (signed 'a' 5 (by decide))))
    ((((Switch.install (installing (signed 'a' 5 (by decide)))).command.code ⟨[],[]⟩).alone
      (List.replicate steps ()) (Box.of fresh)).1.disk) := by
  have hfresh : Consistent fresh := by
    constructor
    · intro c hc
      cases hc
    · intro s hs
      cases hs
  exact ⟨hfresh,(switch_repaired_iff hfresh).mpr fun m app _ _ _ hcurrent => by cases hcurrent⟩

/-- A box that runs one release, and knows no intent. -/
def running (m : Manifest) : Disk :=
  { fresh with
    releases := fun c => if c = m.commit then
      some ⟨some ⟨[],true⟩,some (.object (installedRecord (installing m) m))⟩ else none
    current := .link [m.commit,"app".toList]
    sequence := some m.sequence
    currentJson := some (.object (installedRecord (installing m) m)) }

/-- The current release is installed again with a higher sequence, and cut off with its
record written: `artifact-sequence` stays below it. -/
theorem reinstall_is_not_repaired :
    Consistent (running (signed 'a' 5 (by decide))) ∧
    ¬ Repaired ⟨[],[]⟩ (running (signed 'a' 5 (by decide)))
      (.install (installing (signed 'a' 6 (by decide))))
      ((((Switch.install (installing (signed 'a' 6 (by decide)))).command.code ⟨[],[]⟩).alone
        (List.replicate 4 ()) (Box.of (running (signed 'a' 5 (by decide))))).1.disk) := by
  refine ⟨⟨fun c hc => ?_,fun s hs => ?_⟩,fun h => ?_⟩
  · cases hc
    exact ⟨_,rfl,rfl⟩
  · cases hs
    exact ⟨5,rfl,le_refl 5⟩
  · obtain ⟨k,hk,hle⟩ := h.consistent.covered 6 rfl
    cases hk
    exact absurd hle (by decide)

end
end Flagship.Updater

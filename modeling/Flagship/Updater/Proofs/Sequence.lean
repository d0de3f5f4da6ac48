import Flagship.Updater.Proofs.Steps

namespace Flagship.Updater
open Lib

/-- Every release that was current is known by its sequence, and `artifact-sequence` has
never decreased. -/
structure Rising (b : Box) : Prop where
  current : ∀ d ∈ b.passed,∀ s,d.currentSequence = some s → b.disk.Known s
  sequence : ∀ d ∈ b.passed,NotAbove d.sequence b.disk.sequence
  ordered : b.passed.Pairwise fun later earlier => NotAbove earlier.sequence later.sequence

theorem rising_of (d : Disk) : Rising (Box.of d) := by
  constructor
  · intro d' hd' s hs
    rw [Box.of,List.mem_singleton] at hd'
    subst hd'
    exact Or.inr ⟨s,hs,le_refl s⟩
  · intro d' hd'
    rw [Box.of,List.mem_singleton] at hd'
    subst hd'
    exact fun k hk => ⟨k,hk,le_refl k⟩
  · exact List.pairwise_singleton _ _

theorem Rising.put {b : Box} {d : Disk} (h : Rising b) (hgrows : b.disk.Grows d) :
    Rising (b.put d) := by
  constructor
  · intro d' hd' s hs
    rcases List.mem_cons.mp hd' with rfl | hd'
    · exact Or.inr ⟨s,hs,le_refl s⟩
    · exact hgrows.known s (h.current d' hd' s hs)
  · intro d' hd'
    rcases List.mem_cons.mp hd' with rfl | hd'
    · exact fun k hk => ⟨k,hk,le_refl k⟩
    · exact (h.sequence d' hd').trans hgrows.sequence
  · exact List.pairwise_cons.mpr
      ⟨fun d' hd' => (h.sequence d' hd').trans hgrows.sequence,h.ordered⟩

/-- The link may leave the release it points to: its sequence is recorded already, or that
of the release it goes to is as high. -/
def Disk.Leaves (d : Disk) (next : Option Nat) : Prop :=
  ∀ s,d.currentSequence = some s →
    (∃ k,d.sequence = some k ∧ s ≤ k) ∨ ∃ n,next = some n ∧ s ≤ n

section
variable {paths : Paths} {x : Unit} {s s₀ : Box}

/-- A step on the way of a command. -/
theorem wp_grows {post : Unit → Box → Except Failure Unit → Box → Prop} {f : Disk → Disk}
    (hrising : Rising s) (hgrows : s.disk.Grows (f s.disk))
    (hpost : Rising (s.put (f s.disk)) → post () s (.ok ()) (s.put (f s.disk))) :
    (writes f).wp (Terms.alone Rising) post x s₀ s :=
  (wp_writes f).mpr ⟨hrising,hpost (hrising.put hgrows)⟩

theorem releaseCommitOf_app (paths : Paths) {commit : Text} (h : isCommit commit = true) :
    releaseCommitOf (paths.app commit) = some commit := by
  have happ : paths.app commit = (paths.releases ++ [commit]) ++ ["app".toList] := by
    rw [Paths.app,List.append_assoc]
    rfl
  rw [releaseCommitOf,happ,List.dropLast_concat,List.getLast?_concat]
  exact Option.filter_some_pos h

/-- Once the link is switched, the sequence is that of the record. -/
theorem currentSequence_linked {d : Disk} {commit : Text} {r : Record} (h : isCommit commit = true)
    (hcurrent : d.current = .link (paths.app commit)) (hrecord : d.recordOf commit = some r) :
    d.currentSequence = r.sequence := by
  have hcommit : d.currentCommit = some commit := by
    rw [Disk.currentCommit,hcurrent]
    exact releaseCommitOf_app paths h
  rw [Disk.currentSequence,hcommit,Option.bind_some,hrecord,Option.bind_some]

/-- The link goes to another release. -/
theorem Disk.Leaves.grows {d : Disk} {commit : Text} {r : Record} (h : d.Leaves r.sequence)
    (hhex : isCommit commit = true) (hrecord : d.recordOf commit = some r) :
    d.Grows { d with current := .link (paths.app commit) } := by
  have hcur := @currentSequence_linked paths { d with current := .link (paths.app commit) }
    commit r hhex rfl hrecord
  refine ⟨?_,fun k hk => ⟨k,hk,le_refl k⟩⟩
  rintro t (⟨k,hk,hle⟩ | ⟨k,hk,hle⟩)
  · exact Or.inl ⟨k,hk,hle⟩
  · rcases h k hk with ⟨k',hk',hle'⟩ | ⟨n,hn,hle'⟩
    · exact Or.inl ⟨k',hk',hle.trans hle'⟩
    · exact Or.inr ⟨n,hcur.trans hn,hle.trans hle'⟩

theorem restorable_ok {d : Disk} {commit : Text} {r : Record} (h : restorable paths d commit = .ok r) :
    isCommit commit = true ∧ d.recordOf commit = some r ∧ d.current ≠ .directory := by
  rw [restorable] at h
  split at h
  · cases h
  next hhex =>
  split at h
  · cases h
  split at h
  · cases h
  · cases h
  next r' hfile =>
  split at h
  · cases h
  next hcommit =>
  split at h
  · cases h
  next hlink =>
  cases h
  refine ⟨by simpa using hhex,?_,hlink⟩
  rcases hrelease : d.releases commit with _ | release
  · rw [hrelease] at hfile
    cases hfile
  · rw [hrelease] at hfile
    have hrecord : release.record = some (.object r) := hfile
    rw [Disk.recordOf,hrelease,Option.bind_some,hrecord,Option.bind_some,File.naming,
      if_pos (not_not.mp hcommit)]

theorem wp_restore {post : Unit → Box → Except Failure Unit → Box → Prop} {commit : Text} {nowMs : Nat}
    (hrising : Rising s)
    (hleaves : ∀ r,restorable paths s.disk commit = .ok r → s.disk.Leaves r.sequence)
    (hpost : ∀ y t₀ result t,Rising t → post y t₀ result t) :
    (restore paths commit nowMs).wp (Terms.alone Rising) post x s₀ s := by
  rw [restore,wp_bind,wp_disk]
  dsimp only
  rcases hr : restorable paths s.disk commit with f | r
  · rw [wp_throw]
    exact hpost _ _ _ _ hrising
  obtain ⟨hhex,hrecord,_⟩ := restorable_ok hr
  dsimp only
  rw [wp_bind,writeIntent]
  refine wp_grows hrising (Disk.grows_of_eq rfl rfl rfl) fun hrising => ?_
  dsimp only
  rw [wp_bind]
  refine wp_grows hrising (Disk.Leaves.grows (by exact hleaves r hr) hhex hrecord) fun hrising => ?_
  dsimp only
  rw [wp_bind,linkNode]
  refine wp_grows hrising (Disk.grows_of_eq rfl rfl rfl) fun hrising => ?_
  dsimp only
  rw [wp_bind]
  refine wp_grows hrising (Disk.grows_of_eq rfl rfl rfl) fun hrising => ?_
  dsimp only
  rw [writeIntent]
  exact wp_grows hrising (Disk.grows_of_eq rfl rfl rfl) (hpost _ _ _ _)

/-- What is kept is not touched. -/
theorem Removal.recordOf_apply {r : Removal} {d : Disk} {c : Text} (h : c ≠ r.name) :
    (r.apply d).recordOf c = d.recordOf c := by
  simp only [Disk.recordOf,Removal.apply,if_neg h]

theorem wp_prune {post : Unit → Box → Except Failure Unit → Box → Prop} {keep : List Text}
    {removals : List Removal} (hrising : Rising s)
    (hkept : ∀ c,s.disk.currentCommit = some c → c ∈ keep)
    (hpost : ∀ y t₀ t,Rising t → post y t₀ (.ok ()) t) :
    (prune keep removals).wp (Terms.alone Rising) post x s₀ s := by
  induction removals generalizing s s₀ x with
  | nil =>
    rw [prune,wp_pure]
    exact hpost _ _ _ hrising
  | cons r rest ih =>
    rw [prune]
    split
    · next hname =>
      rw [wp_bind]
      have hnot : r.name ∉ keep := by simpa using hname
      refine wp_grows hrising (Disk.grows_of_same rfl (fun c hc => ?_) fun k hk => ⟨k,hk,le_refl k⟩)
        fun hrising => ih hrising hkept
      exact Removal.recordOf_apply fun heq => hnot (heq ▸ hkept c hc)
    · exact ih hrising hkept

theorem recordOf_setRecord {d : Disk} {commit : Text} {file : File} {c : Text} :
    (d.setRecord commit file).recordOf c =
      if c = commit then (d.releases commit).bind fun _ => file.naming commit
      else d.recordOf c := by
  by_cases h : c = commit
  · subst h
    simp only [Disk.recordOf,Disk.setRecord,if_true]
    cases d.releases c <;> rfl
  · simp only [Disk.recordOf,Disk.setRecord,if_neg h]

theorem naming_installedRecord (a : InstallArgs) (m : Manifest) :
    (File.object (installedRecord a m)).naming m.commit = some (installedRecord a m) := by
  rw [File.naming,if_pos]
  rfl

section
variable {d : Disk} {a : InstallArgs} {m : Manifest}

/-- The record is written while all that is known is lower. -/
theorem grows_setRecord (hthere : (d.releases m.commit).isSome)
    (hlow : ∀ t,d.Known t → t < m.sequence) :
    d.Grows (d.setRecord m.commit (.object (installedRecord a m))) ∧
      ∀ t,(d.setRecord m.commit (.object (installedRecord a m))).Known t → t ≤ m.sequence := by
  obtain ⟨release,hrelease⟩ := Option.isSome_iff_exists.mp hthere
  have hrecord : ∀ c,(d.setRecord m.commit (.object (installedRecord a m))).recordOf c =
      if c = m.commit then some (installedRecord a m) else d.recordOf c := by
    intro c
    rw [recordOf_setRecord,hrelease,Option.bind_some,naming_installedRecord]
  by_cases hcurrent : d.currentCommit = some m.commit
  · have hcur : (d.setRecord m.commit (.object (installedRecord a m))).currentSequence =
        some m.sequence := by
      have hcommit : (d.setRecord m.commit (.object (installedRecord a m))).currentCommit =
          some m.commit := hcurrent
      rw [Disk.currentSequence,hcommit,Option.bind_some,hrecord,if_pos rfl]
      rfl
    refine ⟨Disk.grows_of_le (fun t ht => (hlow t ht).le) (Or.inr ⟨_,hcur,le_refl _⟩)
      fun k hk => ⟨k,hk,le_refl k⟩,?_⟩
    rintro t (⟨k,hk,hle⟩ | ⟨k,hk,hle⟩)
    · exact hle.trans (hlow k (Or.inl ⟨k,hk,le_refl k⟩)).le
    · rw [hcur] at hk
      cases hk
      exact hle
  · have hsame : ∀ c,d.currentCommit = some c →
        (d.setRecord m.commit (.object (installedRecord a m))).recordOf c = d.recordOf c := by
      intro c hc
      rw [hrecord,if_neg]
      rintro rfl
      exact hcurrent hc
    have hcur : (d.setRecord m.commit (.object (installedRecord a m))).currentSequence =
        d.currentSequence := by
      have hcommit : (d.setRecord m.commit (.object (installedRecord a m))).currentCommit =
          d.currentCommit := rfl
      rw [Disk.currentSequence,Disk.currentSequence,hcommit]
      rcases hc : d.currentCommit with _ | c
      · rfl
      · rw [Option.bind_some,Option.bind_some,hsame c hc]
    refine ⟨Disk.grows_of_same rfl hsame fun k hk => ⟨k,hk,le_refl k⟩,?_⟩
    rintro t (⟨k,hk,hle⟩ | ⟨k,hk,hle⟩)
    · exact hle.trans (hlow k (Or.inl ⟨k,hk,le_refl k⟩)).le
    · rw [hcur] at hk
      exact hle.trans (hlow k (Or.inr ⟨k,hk,le_refl k⟩)).le

end

theorem wp_writePrevious {post : Unit → Box → Except Failure Unit → Box → Prop} (current : Current)
    (hrising : Rising s) (hpost : ∀ y t₀ t,Rising t → (∃ previous,
      t.disk = { s.disk with previous := previous }) → post y t₀ (.ok ()) t) :
    (writePrevious current).wp (Terms.alone Rising) post x s₀ s := by
  cases current with
  | link target =>
    rw [writePrevious]
    exact wp_grows hrising (Disk.grows_of_eq rfl rfl rfl) fun h => hpost _ _ _ h ⟨_,rfl⟩
  | absent => exact (wp_pure ()).mpr (hpost _ _ _ hrising ⟨s.disk.previous,rfl⟩)
  | directory => exact (wp_pure ()).mpr (hpost _ _ _ hrising ⟨s.disk.previous,rfl⟩)

/-- The switch, while all that is known is lower. -/
theorem wp_switchRelease {a : InstallArgs} {m : Manifest}
    {post : Unit → Box → Except Failure Installed → Box → Prop} (hrising : Rising s)
    (hthere : (s.disk.releases m.commit).isSome) (hlow : ∀ t,s.disk.Known t → t < m.sequence)
    (hpost : ∀ y t₀ result t,Rising t → (∀ i,result = .ok i → i.sequence = m.sequence) →
      post y t₀ result t) :
    (switchRelease paths a m).wp (Terms.alone Rising) post x s₀ s := by
  obtain ⟨hgrows,hcap⟩ := @grows_setRecord s.disk a m hthere hlow
  obtain ⟨release,hrelease⟩ := Option.isSome_iff_exists.mp hthere
  have hrecord : (s.disk.setRecord m.commit (.object (installedRecord a m))).recordOf m.commit =
      some (installedRecord a m) := by
    rw [recordOf_setRecord,if_pos rfl,hrelease,Option.bind_some,naming_installedRecord]
  rw [switchRelease,wp_bind]
  refine wp_grows hrising hgrows fun hrising => ?_
  dsimp only
  rw [wp_bind,wp_disk]
  dsimp only
  split
  · rw [wp_bind,wp_throw]
    exact hpost _ _ _ _ hrising (fun i hi => by cases hi)
  rw [wp_bind,writeIntent]
  refine wp_grows hrising (Disk.grows_of_eq rfl rfl rfl) fun hrising => ?_
  dsimp only
  rw [wp_bind]
  refine wp_writePrevious _ hrising ?_
  rintro y t₀ t hrising ⟨previous,ht⟩
  dsimp only
  rw [wp_bind,writeIntent]
  refine wp_grows hrising (Disk.grows_of_eq rfl rfl rfl) fun hrising => ?_
  dsimp only
  rw [wp_bind]
  have hcap' : ∀ t',t.disk.Known t' → t' ≤ m.sequence := by
    rw [ht]
    exact hcap
  have hrecord' : t.disk.recordOf m.commit = some (installedRecord a m) := by
    rw [ht]
    exact hrecord
  have hleaves : t.disk.Leaves (installedRecord a m).sequence :=
    fun k hk => Or.inr ⟨m.sequence,rfl,hcap' k (Or.inr ⟨k,hk,le_refl k⟩)⟩
  refine wp_grows hrising (Disk.Leaves.grows (by exact hleaves) m.hex hrecord') fun hrising => ?_
  dsimp only
  rw [wp_bind,linkNode]
  refine wp_grows hrising (Disk.grows_of_eq rfl rfl rfl) fun hrising => ?_
  dsimp only
  rw [wp_bind]
  have hbelow : ∀ k,t.disk.sequence = some k → k ≤ m.sequence :=
    fun k hk => hcap' k (Or.inl ⟨k,hk,le_refl k⟩)
  refine wp_grows hrising (Disk.grows_of_same rfl (fun _ _ => rfl)
    fun k hk => ⟨m.sequence,rfl,hbelow k hk⟩) fun hrising => ?_
  dsimp only
  rw [wp_bind]
  refine wp_grows hrising (Disk.grows_of_eq rfl rfl rfl) fun hrising => ?_
  dsimp only
  rw [wp_bind,writeIntent]
  refine wp_grows hrising (Disk.grows_of_eq rfl rfl rfl) fun hrising => ?_
  dsimp only
  rw [wp_bind]
  refine wp_prune hrising ?_ fun y t₀ t hrising => ?_
  · intro c hc
    have hlinked : releaseCommitOf (paths.app m.commit) = some c := hc
    rw [releaseCommitOf_app paths m.hex] at hlinked
    cases hlinked
    exact List.mem_cons_self
  · dsimp only
    rw [wp_pure]
    refine hpost _ _ _ _ hrising fun i hi => ?_
    cases hi
    rfl

theorem wp_stageAndSwitch {a : InstallArgs} {m : Manifest} {staging : Text}
    {post : Unit → Box → Except Failure Installed → Box → Prop} (hrising : Rising s)
    (hlow : ∀ t,s.disk.Known t → t < m.sequence)
    (hpost : ∀ y t₀ result t,Rising t → (∀ i,result = .ok i → i.sequence = m.sequence) →
      post y t₀ result t) :
    (stageAndSwitch paths a m staging).wp (Terms.alone Rising) post x s₀ s := by
  rw [stageAndSwitch]
  rcases a.unpacked with f | app
  · rw [wp_throw]
    exact hpost _ _ _ _ hrising (fun i hi => by cases hi)
  dsimp only
  rw [wp_bind,wp_disk]
  dsimp only
  rcases hrelease : s.disk.releases m.commit with _ | release
  · dsimp only
    rw [wp_bind]
    have hrecord : ∀ c,(({ s.disk with
        incoming := s.disk.incoming.filter (· ≠ staging)
        releases := fun c => if c = m.commit then some ⟨some app,none⟩ else s.disk.releases c
        } : Disk).recordOf c) = s.disk.recordOf c := by
      intro c
      by_cases hc : c = m.commit
      · subst hc
        simp only [Disk.recordOf,if_true,hrelease]
        rfl
      · simp only [Disk.recordOf,if_neg hc]
    have hcur : ({ s.disk with
        incoming := s.disk.incoming.filter (· ≠ staging)
        releases := fun c => if c = m.commit then some ⟨some app,none⟩ else s.disk.releases c
        } : Disk).currentSequence = s.disk.currentSequence := by
      unfold Disk.currentSequence
      simp only [hrecord]
      rfl
    refine wp_grows hrising (Disk.grows_of_same rfl (fun c _ => hrecord c)
      fun k hk => ⟨k,hk,le_refl k⟩) fun hrising => wp_switchRelease hrising ?_ ?_ hpost
    · simp only [put_disk,if_true,Option.isSome_some]
    · rintro t (ht | ⟨k,hk,hle⟩)
      · exact hlow t (Or.inl ht)
      · exact hlow t (Or.inr ⟨k,hcur.symm.trans hk,hle⟩)
  · dsimp only
    split
    · rw [wp_bind,wp_throw]
      exact hpost _ _ _ _ hrising (fun i hi => by cases hi)
    · exact wp_switchRelease hrising (by rw [hrelease]; rfl) hlow hpost

theorem verify_ok {a : InstallArgs} {last : Option Nat} {m : Manifest} (h : verify a last = .ok m) :
    a.manifest = .ok m ∧ ∀ k,last = some k → k < m.sequence := by
  rw [verify] at h
  split at h
  · cases h
  next m' hm =>
  split at h
  · cases h
  split at h
  · cases h
  next hlast =>
  split at h
  · cases h
  cases h
  refine ⟨hm,fun k hk => ?_⟩
  rw [hk] at hlast
  simpa using hlast

/-- An install from a box where it is allowed. -/
theorem wp_install {a : InstallArgs} {post : Unit → Box → Except Failure Installed → Box → Prop}
    (hrising : Rising s)
    (hlow : ∀ m,verify a (lastSequence a s.disk) = .ok m → ∀ t,s.disk.Known t → t < m.sequence)
    (hpost : ∀ y t₀ result t,Rising t → post y t₀ result t) :
    (install paths a).wp (Terms.alone Rising) post x s₀ s := by
  rw [install,wp_bind,wp_disk]
  dsimp only
  rcases hv : verify a (lastSequence a s.disk) with r | m
  · rw [wp_throw]
    exact hpost _ _ _ _ hrising
  dsimp only
  rw [wp_bind,removeIncoming]
  refine wp_grows hrising (Disk.grows_of_eq rfl rfl rfl) fun hrising => ?_
  dsimp only
  rw [wp_bind]
  refine wp_grows hrising (Disk.grows_of_eq rfl rfl rfl) fun hrising => ?_
  dsimp only
  rw [wp_bind,wp_attempt]
  refine wp_stageAndSwitch hrising (hlow m hv) fun y t₀ result t hrising _ => ?_
  dsimp only
  rw [wp_bind]
  refine wp_grows hrising (Disk.grows_of_eq rfl rfl rfl) fun hrising => ?_
  cases result with
  | ok i => exact (wp_pure i).mpr (hpost _ _ _ _ hrising)
  | error f => exact (wp_throw f).mpr (hpost _ _ _ _ hrising)

end

section
variable {paths : Paths} {d : Disk}

/-- Where the marker cannot be read, the guard goes back to what is known to be good. -/
theorem unreadable_bind {d' : Disk} (houtcome : d'.outcome = d.outcome) (f : Text → Nat) (n : Nat) :
    ((unreadable d').bind fun (prev,target,stage,_) =>
      if stage ≠ "applying".toList ∧ f target ≤ n then none else some prev) =
    (unreadable d).bind fun (prev,target,stage,_) =>
      if stage ≠ "applying".toList ∧ f target ≤ n then none else some prev := by
  rw [unreadable,unreadable,houtcome]
  dsimp only
  generalize Option.filter isCommit _ = prev
  cases prev with
  | none => rfl
  | some prev =>
    simp only [Option.map_some,Option.bind_some,ne_eq,not_true_eq_false,false_and,if_false]

/-- The guard goes back to the same release whatever `reconcile` did. -/
theorem rollbackTo_settled (maxStarts : Nat) :
    rollbackTo (settled paths d) maxStarts = rollbackTo d maxStarts := by
  obtain ⟨_,_,hmarker,hstarts,houtcome⟩ := @settled_frame paths d
  have hof : startsOf (settled paths d) = startsOf d := by
    funext target
    rw [startsOf,startsOf,hstarts]
  rw [rollbackTo,rollbackTo,hmarker,hof]
  split
  · rfl
  rw [pendingUpdate,pendingUpdate,hmarker]
  split
  · split
    · rfl
    · exact unreadable_bind houtcome _ _
  · exact unreadable_bind houtcome _ _

theorem restorable_settled (commit : Text) :
    restorable paths (settled paths d) commit = restorable paths d commit := by
  obtain ⟨hreleases,hcurrent,_,_,_⟩ := @settled_frame paths d
  rw [restorable,restorable,hreleases,hcurrent]

/-- Once `reconcile` has run, a switch that it found pending is recorded. -/
theorem leaves_settled {next : Option Nat} (h : (∃ intent,d.Pending intent) ∨ d.Leaves next) :
    (settled paths d).Leaves next := by
  obtain ⟨hreleases,hcurrent,_,_,_⟩ := @settled_frame paths d
  have hcommit : (settled paths d).currentCommit = d.currentCommit := by
    rw [Disk.currentCommit,Disk.currentCommit,hcurrent]
  have hrecord : ∀ c,(settled paths d).recordOf c = d.recordOf c := by
    intro c
    rw [Disk.recordOf,Disk.recordOf,hreleases]
  have hcur : (settled paths d).currentSequence = d.currentSequence := by
    rw [Disk.currentSequence,Disk.currentSequence,hcommit]
    simp only [hrecord]
  intro k hk
  rw [hcur] at hk
  rcases h with ⟨intent,hintent,hphase,hat⟩ | h
  · have hdone : ¬ (intent.phase = .staged ∨ d.currentCommit ≠ some intent.commit) := by
      rw [not_or,not_not]
      exact ⟨hphase,hat⟩
    rw [Disk.currentSequence,hat,Option.bind_some,Option.bind_eq_some_iff] at hk
    obtain ⟨r,hr,hseq⟩ := hk
    have hraised : (settled paths d).sequence = raised d.sequence r := by
      rw [settled_done hintent hdone]
      dsimp only
      rw [hr]
    rw [hraised]
    exact Or.inl (raised_covers hseq)
  · rcases h k hk with ⟨k',hk',hle⟩ | h
    · obtain ⟨k'',hk'',hle'⟩ := @settled_notAbove paths d k' hk'
      exact Or.inl ⟨k'',hk'',hle.trans hle'⟩
    · exact Or.inr h

/-- The condition under which a command may be given. An install that the recorded
sequence lets pass, and a restore, leave a release whose sequence is recorded, or go to a
higher one; the guard finishes a switch that is pending before it goes back. -/
def Allowed (paths : Paths) (b : Box) : Event → Prop
  | .command (.install a) _ => ∀ m,a.manifest = .ok m →
      (∀ k,lastSequence a b.disk = some k → k < m.sequence) →
      ∀ s,b.disk.currentSequence = some s →
        (∃ k,b.disk.sequence = some k ∧ s ≤ k) ∨ s < m.sequence
  | .command (.restore commit _) _ => ∀ r,restorable paths b.disk commit = .ok r →
      b.disk.Leaves r.sequence
  | .command (.guard maxStarts _) _ => ∀ prev r,rollbackTo b.disk maxStarts = some prev →
      restorable paths b.disk prev = .ok r →
      (∃ intent,b.disk.Pending intent) ∨ b.disk.Leaves r.sequence
  | .command .reconcile _ => True
  | .daemon _ _ => True

/-- What an allowed install is above. -/
theorem above_known {a : InstallArgs} {m : Manifest}
    (hv : verify a (lastSequence a d) = .ok m)
    (hallowed : ∀ m,a.manifest = .ok m → (∀ k,lastSequence a d = some k → k < m.sequence) →
      ∀ s,d.currentSequence = some s → (∃ k,d.sequence = some k ∧ s ≤ k) ∨ s < m.sequence) :
    ∀ t,d.Known t → t < m.sequence := by
  obtain ⟨hm,hlast⟩ := verify_ok hv
  have hseq : ∀ k,d.sequence = some k → k < m.sequence := by
    intro k hk
    refine hlast k ?_
    rw [lastSequence,hk]
    rfl
  rintro t (⟨k,hk,hle⟩ | ⟨k,hk,hle⟩)
  · exact hle.trans_lt (hseq k hk)
  · rcases hallowed m hm hlast k hk with ⟨k',hk',hle'⟩ | hlt
    · exact (hle.trans hle').trans_lt (hseq k' hk')
    · exact hle.trans_lt hlt

end

section
variable {paths : Paths}

theorem wp_guard {maxStarts nowMs : Nat} {x : Unit} {s s₀ : Box}
    {post : Unit → Box → Except Failure GuardAction → Box → Prop} (hrising : Rising s)
    (hallowed : ∀ prev r,rollbackTo s.disk maxStarts = some prev →
      restorable paths s.disk prev = .ok r →
      (∃ intent,s.disk.Pending intent) ∨ s.disk.Leaves r.sequence)
    (hpost : ∀ y t₀ result t,Rising t → post y t₀ result t) :
    (guard paths maxStarts nowMs).wp (Terms.alone Rising) post x s₀ s := by
  rw [guard,wp_bind]
  refine wp_reconcile paths (fun b d' hb hg => hb.put hg) hrising ?_
  intro y t₀ t hrising hdisk
  dsimp only
  rw [wp_bind,wp_disk]
  dsimp only
  split
  · rw [wp_bind]
    refine wp_grows hrising (Disk.grows_of_eq rfl rfl rfl) fun hrising => ?_
    dsimp only
    split
    · rw [wp_bind,writeIntent]
      exact wp_grows hrising (Disk.grows_of_eq rfl rfl rfl) fun hrising =>
        (wp_pure _).mpr (hpost _ _ _ _ hrising)
    · exact (wp_pure _).mpr (hpost _ _ _ _ hrising)
  next hmarker =>
  rcases hpending : pendingUpdate t.disk with _ | ⟨prev,target,stage,attempts⟩
  · exact (wp_pure _).mpr (hpost _ _ _ _ hrising)
  dsimp only
  rw [wp_bind]
  refine wp_grows hrising (Disk.grows_of_eq rfl rfl rfl) fun hrising => ?_
  dsimp only
  rcases hto : rollbackTo t.disk maxStarts with _ | prev'
  · exact (wp_pure _).mpr (hpost _ _ _ _ hrising)
  have hprev : prev' = prev := by
    rw [rollbackTo,if_neg hmarker,hpending,Option.bind_some] at hto
    dsimp only at hto
    split at hto
    · cases hto
    · cases hto
      rfl
  dsimp only
  rw [wp_bind,wp_attempt]
  refine wp_restore hrising ?_ ?_
  · intro r hr
    have hr' : restorable paths t.disk prev = .ok r := hr
    rw [hdisk,restorable_settled] at hr'
    rw [hdisk,rollbackTo_settled,hprev] at hto
    have hleaves := @leaves_settled paths _ _ (hallowed prev r hto hr')
    rw [← hdisk] at hleaves
    exact hleaves
  intro y t₀ result t hrising
  cases result with
  | error f => exact (wp_pure _).mpr (hpost _ _ _ _ hrising)
  | ok _ =>
    dsimp only
    rw [wp_bind]
    refine wp_grows hrising (Disk.grows_of_eq rfl rfl rfl) fun hrising => ?_
    dsimp only
    rw [wp_bind]
    refine wp_grows hrising (Disk.grows_of_eq rfl rfl rfl) fun hrising => ?_
    dsimp only
    rw [wp_bind]
    exact wp_grows hrising (Disk.grows_of_eq rfl rfl rfl) fun hrising =>
      (wp_pure _).mpr (hpost _ _ _ _ hrising)

theorem step_rising {b : Box} {e : Event} (hrising : Rising b) (hallowed : Allowed paths b e) :
    Rising (step paths b e) := by
  cases e with
  | daemon marker outcome => exact hrising.put (Disk.grows_of_eq rfl rfl rfl)
  | command c steps =>
    rw [step]
    refine Async.wp.alone ?_ _
    cases c with
    | install a =>
      rw [Command.code,wp_bind]
      refine wp_install hrising (fun m hm => above_known hm hallowed) ?_
      intro y t₀ result t hrising
      cases result with
      | ok i => exact (wp_pure _).mpr hrising
      | error f => exact hrising
    | restore commit nowMs =>
      exact wp_restore hrising hallowed fun _ _ _ _ h => h
    | guard maxStarts nowMs =>
      rw [Command.code,wp_bind]
      refine wp_guard hrising hallowed ?_
      intro y t₀ result t hrising
      cases result with
      | ok i => exact (wp_pure _).mpr hrising
      | error f => exact hrising
    | reconcile =>
      exact wp_reconcile paths (fun b d' hb hg => hb.put hg) hrising fun _ _ _ h _ => h

/-- An install that succeeds was verified first. -/
theorem verified_of_ok {a : InstallArgs} {inputs : List Unit} {b b' : Box} {i : Installed}
    (h : (install paths a).alone inputs b = (b',.done (.ok i))) :
    ∃ m,verify a (lastSequence a b.disk) = .ok m := by
  rcases hv : verify a (lastSequence a b.disk) with r | m
  · have hrefused : (install paths a).wp (Terms.alone fun _ => True)
        (fun _ _ result _ => result = .error ⟨1,r⟩) default b b := by
      rw [install,wp_bind,wp_disk]
      dsimp only
      rw [hv,wp_throw]
    cases hrefused.ends h
  · exact ⟨m,rfl⟩

/-- In a run whose commands are all allowed, whatever cuts them off, an install succeeds
only with a sequence above that of every release that was current before it, and
`artifact-sequence` never decreases. -/
theorem installs_never_go_back {start : Disk} {events : List Event}
    (h : Along (step paths) (Allowed paths) (Box.of start) events) :
    (run (step paths) (Box.of start) events).passed.Pairwise
      (fun later earlier => NotAbove earlier.sequence later.sequence) ∧
    ∀ before a steps after,events = before ++ .command (.install a) steps :: after →
      ∀ b i,(install paths a).alone (List.replicate steps ())
          (run (step paths) (Box.of start) before) = (b,.done (.ok i)) →
        ∀ d ∈ (run (step paths) (Box.of start) before).passed,∀ s,
          d.currentSequence = some s → ∃ m,a.manifest = .ok m ∧ s < m.sequence := by
  have hstep : ∀ b e,Rising b → Allowed paths b e → Rising (step paths b e) :=
    fun _ _ => step_rising
  refine ⟨(Along.invariant hstep (rising_of start) h).ordered,?_⟩
  rintro before a steps after rfl b i hok d hd s hs
  obtain ⟨hbefore,hallowed,_⟩ := along_append.mp h
  have hrising := Along.invariant hstep (rising_of start) hbefore
  obtain ⟨m,hm⟩ := verified_of_ok hok
  exact ⟨m,(verify_ok hm).1,above_known hm hallowed s (hrising.current d hd s hs)⟩

/-- A box on which nothing was installed. -/
def fresh : Disk where
  releases _ := none
  incoming := []
  current := .absent
  node := none
  sequence := none
  previous := none
  currentJson := none
  intent := none
  marker := .absent
  starts := none
  outcome := none

/-- The manifest of a commit of one digit. -/
def signed (c : Char) (sequence : Nat) (h : isCommit (List.replicate 40 c) = true) : Manifest :=
  ⟨List.replicate 40 c,"amd64".toList,sequence,h⟩

def installing (m : Manifest) : InstallArgs where
  manifest := .ok m
  trusted := .ok ()
  floor := .ok ()
  expectSha256 := []
  minSequence := none
  unpacked := .ok ⟨[],true⟩
  nowMs := 0
  pid := 1
  removals := []

/-- The second of two installs. -/
theorem installs_never_go_back_twice : ∃ b i,
    (install ⟨[],[]⟩ (installing (signed 'b' 6 (by decide)))).alone (List.replicate 20 ())
      (run (step ⟨[],[]⟩) (Box.of fresh)
        [.command (.install (installing (signed 'a' 5 (by decide)))) 20]) = (b,.done (.ok i)) ∧
    ∀ d ∈ (run (step ⟨[],[]⟩) (Box.of fresh)
        [.command (.install (installing (signed 'a' 5 (by decide)))) 20]).passed,
      ∀ s,d.currentSequence = some s →
        ∃ m,(installing (signed 'b' 6 (by decide))).manifest = .ok m ∧ s < m.sequence := by
  have hallowed : Along (step ⟨[],[]⟩) (Allowed ⟨[],[]⟩) (Box.of fresh)
      [.command (.install (installing (signed 'a' 5 (by decide)))) 20,
        .command (.install (installing (signed 'b' 6 (by decide)))) 20] := by
    have hafter : (step ⟨[],[]⟩ (Box.of fresh)
        (.command (.install (installing (signed 'a' 5 (by decide)))) 20)).disk.currentSequence =
          some 5 ∧ (step ⟨[],[]⟩ (Box.of fresh)
        (.command (.install (installing (signed 'a' 5 (by decide)))) 20)).disk.sequence =
          some 5 := by decide +kernel
    refine ⟨?_,?_,trivial⟩
    · intro m _ _ s hs
      cases hs
    · intro m _ _ s hs
      have hseq := hafter.1.symm.trans hs
      cases hseq
      exact Or.inl ⟨5,hafter.2,le_refl 5⟩
  have hok : ((install ⟨[],[]⟩ (installing (signed 'b' 6 (by decide)))).alone
      (List.replicate 20 ()) (run (step ⟨[],[]⟩) (Box.of fresh)
        [.command (.install (installing (signed 'a' 5 (by decide)))) 20])).2.value? =
      some ⟨List.replicate 40 'b',"amd64".toList,6⟩ := by decide +kernel
  exact ⟨_,_,Fiber.eq_done hok,
    (installs_never_go_back hallowed).2 [_] _ 20 [] rfl _ _ (Fiber.eq_done hok)⟩

/-- An install is cut off once it has switched the link, and another with a lower sequence
goes through. -/
theorem interrupted_install_is_undercut : ∃ b i,
    (install ⟨[],[]⟩ (installing (signed 'c' 6 (by decide)))).alone (List.replicate 20 ())
      (run (step ⟨[],[]⟩) (Box.of fresh)
        [.command (.install (installing (signed 'a' 5 (by decide)))) 20,
          .command (.install (installing (signed 'b' 8 (by decide)))) 8]) = (b,.done (.ok i)) ∧
    ∃ d ∈ (run (step ⟨[],[]⟩) (Box.of fresh)
        [.command (.install (installing (signed 'a' 5 (by decide)))) 20,
          .command (.install (installing (signed 'b' 8 (by decide)))) 8]).passed,
      d.currentSequence = some 8 ∧ i.sequence = 6 := by
  have hok : ((install ⟨[],[]⟩ (installing (signed 'c' 6 (by decide)))).alone
      (List.replicate 20 ()) (run (step ⟨[],[]⟩) (Box.of fresh)
        [.command (.install (installing (signed 'a' 5 (by decide)))) 20,
          .command (.install (installing (signed 'b' 8 (by decide)))) 8])).2.value? =
      some ⟨List.replicate 40 'c',"amd64".toList,6⟩ := by decide +kernel
  have hpassed : (run (step ⟨[],[]⟩) (Box.of fresh)
      [.command (.install (installing (signed 'a' 5 (by decide)))) 20,
        .command (.install (installing (signed 'b' 8 (by decide)))) 8]).passed.any
          (fun d => decide (d.currentSequence = some 8)) = true := by decide +kernel
  obtain ⟨d,hd,hseq⟩ := List.any_eq_true.mp hpassed
  exact ⟨_,_,Fiber.eq_done hok,d,hd,of_decide_eq_true hseq,rfl⟩

end
end Flagship.Updater

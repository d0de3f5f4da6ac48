import Flagship.Updater.Extract

namespace Flagship.Updater.Extract
open Lib

/-- A target that climbs at its start only, and no further than so many folders. -/
def Climbs (depth : Nat) (target : LinkTarget Text) : Prop :=
  ∃ (k : Nat) (names : List Text),
    target = .relative (List.replicate k .up ++ names.map .name) ∧ k ≤ depth

/-- What holds of the destination while an archive is unpacked. -/
structure Solid (d : Disk) : Prop where
  /-- Everything lies in a folder. -/
  closed : ∀ p n,d.tree (p ++ [n]) ≠ none → p = [] ∨ d.tree p = some .dir
  /-- What was made is there as it was made, and nothing else. -/
  made : ∀ p node,d.tree p = some node ↔ (some p,node) ∈ d.made
  inside : ∀ x ∈ d.made,x.1 ≠ none
  once : (d.made.map Prod.fst).Nodup
  links : ∀ p n target,d.tree (p ++ [n]) = some (.link target) → Climbs p.length target

section
variable {d d' : Disk} {p : List Text} {n : Text} {fuel : Nat}

/-- Above a folder there are only folders. -/
theorem Solid.dirs (h : Solid d) (hdir : d.tree p = some .dir) :
    ∀ first,first ≠ [] → first <+: p → d.tree first = some .dir := by
  induction p using List.reverseRecOn with
  | nil =>
    intro first hne hfirst
    exact absurd (List.prefix_nil.mp hfirst) hne
  | append_singleton p n ih =>
    intro first hne hfirst
    rcases List.prefix_concat_iff.mp hfirst with rfl | hfirst
    · exact hdir
    · rcases h.closed p n (by rw [hdir]; simp) with rfl | hparent
      · exact absurd (List.prefix_nil.mp hfirst) hne
      · exact ih hparent first hne hfirst

/-- In a folder the system finds a name where the path says. -/
theorem Solid.resolve (h : Solid d) (hparent : p = [] ∨ d.tree p = some .dir)
    {place : FilePlace Text} (hresolve : d.resolve fuel (p ++ [n]) = .ok place) :
    place = some (p ++ [n]) := by
  have hdirs : ∀ first,first ≠ [] → first <+: p → d.tree ([] ++ first) = some .dir := by
    rcases hparent with rfl | hdir
    · intro first hne hfirst
      exact absurd (List.prefix_nil.mp hfirst) hne
    · exact h.dirs hdir
  rw [Disk.resolve,List.dropLast_concat] at hresolve
  rcases FileTree.find_dirs fuel hdirs with hfind | hfind
  · rw [hfind] at hresolve
    cases hresolve
  · rw [hfind] at hresolve
    dsimp only at hresolve
    split at hresolve
    · cases hresolve
      simp
    · cases hresolve

theorem Solid.stat (h : Solid d) (hparent : p = [] ∨ d.tree p = some .dir)
    {found : Option (FileNode Text)} (hstat : d.stat fuel (p ++ [n]) = .ok found) :
    found = d.tree (p ++ [n]) := by
  rw [Disk.stat] at hstat
  cases hresolve : d.resolve fuel (p ++ [n]) with
  | error e =>
    rw [hresolve] at hstat
    cases hstat
  | ok place =>
    rw [hresolve,h.resolve hparent hresolve] at hstat
    cases hstat
    rfl

/-- A folder stays when something is put where there was nothing. -/
theorem dir_put {t : FileTree Text} {q : List Text} (hfree : t p = none) (node : FileNode Text)
    (hq : t q = some .dir) : t.put p node q = some .dir := by
  rw [FileTree.put,Function.update_of_ne,hq]
  rintro rfl
  rw [hfree] at hq
  cases hq

/-- Something new in a folder leaves all else as it was. -/
theorem Solid.put (h : Solid d) (hparent : p = [] ∨ d.tree p = some .dir)
    (hfree : d.tree (p ++ [n]) = none) {node : FileNode Text}
    (hlink : ∀ target,node = .link target → Climbs p.length target) :
    Solid ⟨d.tree.put (p ++ [n]) node,d.made ++ [(some (p ++ [n]),node)]⟩ := by
  have hother : ∀ q,q ≠ p ++ [n] → (d.tree.put (p ++ [n]) node) q = d.tree q := by
    intro q hq
    exact Function.update_of_ne hq _ _
  have hnew : ∀ other,(some (p ++ [n]),other) ∉ d.made := by
    intro other hin
    rw [(h.made _ _).mpr hin] at hfree
    cases hfree
  refine ⟨?_,?_,?_,?_,?_⟩
  · intro q m hq
    dsimp only at hq ⊢
    by_cases heq : q ++ [m] = p ++ [n]
    · obtain ⟨rfl,_⟩ := List.append_inj' heq rfl
      exact hparent.imp_right (dir_put hfree node)
    · rw [hother _ heq] at hq
      exact (h.closed q m hq).imp_right (dir_put hfree node)
  · intro q other
    dsimp only
    rw [List.mem_append,List.mem_singleton,Prod.mk.injEq,Option.some.injEq]
    by_cases heq : q = p ++ [n]
    · subst heq
      rw [FileTree.put,Function.update_self]
      simp [hnew,eq_comm]
    · rw [hother q heq,h.made]
      simp [heq]
  · intro x hx
    rcases List.mem_append.mp hx with hx | hx
    · exact h.inside x hx
    · rw [List.mem_singleton.mp hx]
      simp
  · rw [List.map_append,List.nodup_append]
    refine ⟨h.once,by simp,?_⟩
    intro x hx y hy heq
    subst heq
    obtain ⟨⟨place,other⟩,hin,rfl⟩ := List.mem_map.mp hx
    rw [List.map_singleton,List.mem_singleton] at hy
    dsimp only at hy
    subst hy
    exact hnew other hin
  · intro q m target hq
    rcases FileTree.link_put hq with hq | ⟨heq,hnode⟩
    · exact h.links q m target hq
    · obtain ⟨rfl,_⟩ := List.append_inj' heq rfl
      exact hlink target hnode

/-- A folder, a file or a link is made where there was nothing. -/
theorem Solid.make (h : Solid d) (hparent : p = [] ∨ d.tree p = some .dir) {node : FileNode Text}
    (hmake : d.make fuel (p ++ [n]) node = .ok d') :
    d.tree (p ++ [n]) = none ∧
      d' = ⟨d.tree.put (p ++ [n]) node,d.made ++ [(some (p ++ [n]),node)]⟩ := by
  obtain ⟨place,hresolve,hmake⟩ := bind_ok hmake
  rw [h.resolve hparent hresolve] at hmake
  obtain ⟨hfree,hmake⟩ := unless_ok hmake
  rw [not_not] at hfree
  cases hmake
  exact ⟨hfree,rfl⟩

/-- A directory is there afterwards. -/
theorem Solid.directory (h : Solid d) (hparent : p = [] ∨ d.tree p = some .dir) {other : Refusal}
    (hdirectory : d.directory fuel (p ++ [n]) other = .ok d') :
    Solid d' ∧ d'.tree (p ++ [n]) = some .dir ∧ ∀ q,d.tree q = some .dir → d'.tree q = some .dir := by
  obtain ⟨found,hstat,hdirectory⟩ := bind_ok hdirectory
  have hfound := h.stat hparent hstat
  cases found with
  | none =>
    obtain ⟨hfree,rfl⟩ := h.make hparent hdirectory
    exact ⟨h.put hparent hfree nofun,Function.update_self ..,fun q hq => dir_put hfree .dir hq⟩
  | some node =>
    cases node with
    | dir =>
      cases hdirectory
      exact ⟨h,hfound.symm,fun _ hq => hq⟩
    | file => cases hdirectory
    | link target => cases hdirectory

end

/-- The folders that are remembered are there. -/
structure Writer.Solid (w : Writer) : Prop where
  disk : Extract.Solid w.disk
  real : ∀ p ∈ w.realDirs,w.disk.tree p = some .dir

theorem Writer.Solid.parents {fuel : Nat} {w w' : Writer} {cur rel : List Text} (h : w.Solid)
    (hcur : cur = [] ∨ w.disk.tree cur = some .dir) (hparents : w.parents fuel cur rel = .ok w') :
    w'.Solid ∧ ∃ p n,cur ++ rel = p ++ [n] ∧ (p = [] ∨ w'.disk.tree p = some .dir) := by
  induction rel generalizing w cur with
  | nil => cases hparents
  | cons c rel ih =>
    cases rel with
    | nil =>
      cases hparents
      exact ⟨h,cur,c,rfl,hcur⟩
    | cons c' rel =>
      rw [Writer.parents] at hparents
      have hassoc : cur ++ c :: c' :: rel = cur ++ [c] ++ c' :: rel := by simp
      rw [hassoc]
      split at hparents
      · next hreal => exact ih h (Or.inr (h.real _ hreal)) hparents
      · obtain ⟨disk,hdirectory,hparents⟩ := bind_ok hparents
        obtain ⟨hsolid,hdir,hkept⟩ := h.disk.directory hcur hdirectory
        refine ih ⟨hsolid,?_⟩ (Or.inr hdir) hparents
        intro p hp
        rcases List.mem_insert_iff.mp hp with rfl | hp
        · exact hdir
        · exact hkept p (h.real p hp)
      · simp

/-- A file or a link of a checked target is made below its parents. -/
theorem Writer.Solid.make {fuel : Nat} {w : Writer} {disk : Disk} {p : List Text} {n : Text}
    {node : FileNode Text} (h : w.Solid) (hparent : p = [] ∨ w.disk.tree p = some .dir)
    (hmake : w.disk.make fuel (p ++ [n]) node = .ok disk)
    (hlink : ∀ target,node = .link target → Climbs p.length target) :
    Writer.Solid ⟨disk,w.realDirs⟩ := by
  obtain ⟨hfree,rfl⟩ := h.disk.make hparent hmake
  exact ⟨h.disk.put hparent hfree hlink,fun q hq => dir_put hfree node (h.real q hq)⟩

theorem climbs_ok {ups total : Nat} {descended : Bool} {cs : List Text}
    (h : climbs ups descended cs = .ok total) : ∃ (k : Nat) (names : List Text),
      (cs.filter fun c => c != [] && c != dot).map stepOf =
        List.replicate k .up ++ names.map .name ∧ total = ups + k ∧ (descended = true → k = 0) := by
  induction cs generalizing ups descended with
  | nil =>
    cases h
    exact ⟨0,[],rfl,rfl,fun _ => rfl⟩
  | cons c cs ih =>
    rw [climbs] at h
    by_cases hskip : (c = [] || c = dot) = true
    · rw [if_pos hskip] at h
      rw [List.filter_cons_of_neg]
      · exact ih h
      · simp only [Bool.or_eq_true,decide_eq_true_eq] at hskip
        rcases hskip with hskip | hskip <;> simp [hskip]
    rw [if_neg hskip] at h
    simp only [Bool.or_eq_true,decide_eq_true_eq,not_or] at hskip
    rw [List.filter_cons_of_pos (by simp [hskip.1,hskip.2]),List.map_cons]
    by_cases hup : c = dotdot
    · rw [if_pos hup] at h
      cases descended with
      | true => cases h
      | false =>
        obtain ⟨k,names,hsteps,htotal,_⟩ := ih h
        refine ⟨k + 1,names,?_,by omega,nofun⟩
        rw [hsteps,stepOf,if_pos hup,List.replicate_succ,List.cons_append]
    · rw [if_neg hup] at h
      obtain ⟨k,names,hsteps,htotal,hzero⟩ := ih h
      obtain rfl := hzero rfl
      refine ⟨0,c :: names,?_,htotal,fun _ => rfl⟩
      rw [hsteps,stepOf,if_neg hup]
      rfl

theorem linkTarget_ok {raw : Bytes} {depth : Nat} {text : Text}
    (h : linkTarget raw depth = .ok text) : Climbs depth (targetOf text) := by
  unfold linkTarget at h
  obtain ⟨hraw,h⟩ := unless_ok h
  cases htext : utf8Text raw with
  | none =>
    rw [htext] at h
    cases h
  | some text' =>
    rw [htext] at h
    obtain ⟨ups,hclimbs,h⟩ := bind_ok h
    obtain ⟨hdepth,h⟩ := unless_ok h
    cases h
    obtain ⟨k,names,hsteps,htotal,_⟩ := climbs_ok hclimbs
    have hhead : text.head? ≠ some '/' := by
      intro hhead
      obtain ⟨rest,rfl⟩ := List.head?_eq_some_iff.mp hhead
      rw [← utf8Bytes_of_utf8Text htext] at hraw
      exact hraw (by simp [utf8Bytes,String.utf8EncodeChar])
    refine ⟨k,names,?_,by omega⟩
    rw [targetOf,if_neg hhead,hsteps]

/-- What holds of the loop at each round. -/
structure Sound (limits : Limits) (s : State) : Prop where
  writer : s.w.Solid
  bytes : s.stats.bytes ≤ limits.maxTotalBytes
  /-- All that is written is counted, as far as the count goes. -/
  counted : s.written ≤ s.stats.bytes ∨ s.stats.bytes = 2 ^ 64 - 1
  capped : s.written + s.r.left ≤ 2 ^ 64 - 1

section
variable {fuel strip : Nat} {limits : Limits} {s s' : State}

/-- What follows from a count that a file's size was added to. -/
theorem counted_add {written bytes : Nat} (size : Nat)
    (h : written ≤ bytes ∨ bytes = 2 ^ 64 - 1) :
    written + size ≤ satAdd bytes size ∨ satAdd bytes size = 2 ^ 64 - 1 := by
  unfold satAdd
  omega

theorem Effect.sound {n : Nat} (heffect : Effect fuel limits s n s') (h : Sound limits s)
    (hread : Read s.r (512 + n) s'.r) : Sound limits s' := by
  have hleft := hread.left
  have hcapped := h.capped
  have hcounted := h.counted
  have hbounds := h.bytes
  cases heffect with
  | none hw hwritten hbytes =>
    exact ⟨hw ▸ h.writer,by omega,by omega,by omega⟩
  | skipped size hw hwritten hbytes hmax =>
    have hcount := counted_add size hcounted
    exact ⟨hw ▸ h.writer,hmax,by omega,by omega⟩
  | file size hparents hmake hw hwritten hsize hbytes hmax =>
    obtain ⟨hsolid,p,name,rfl,hparent⟩ := h.writer.parents (Or.inl rfl) hparents
    have hcount := counted_add size hcounted
    refine ⟨?_,hmax,by omega,by omega⟩
    rw [hw]
    exact hsolid.make hparent hmake nofun
  | dir hparents hmake hw hwritten hbytes =>
    obtain ⟨hsolid,p,name,rfl,hparent⟩ := h.writer.parents (Or.inl rfl) hparents
    obtain ⟨hdisk,hdir,hkept⟩ := hsolid.disk.directory hparent hmake
    refine ⟨?_,by omega,by omega,by omega⟩
    rw [hw]
    refine ⟨hdisk,fun q hq => ?_⟩
    rcases List.mem_insert_iff.mp hq with rfl | hq
    · exact hdir
    · exact hkept q (hsolid.real q hq)
  | link htarget hparents hmake hw hwritten hbytes =>
    obtain ⟨hsolid,p,name,rfl,hparent⟩ := h.writer.parents (Or.inl rfl) hparents
    refine ⟨?_,by omega,by omega,by omega⟩
    rw [hw]
    refine hsolid.make hparent hmake fun target heq => ?_
    cases heq
    simpa using linkTarget_ok htarget

end

/-- Links that climb first and no further than the destination are contained. -/
theorem Solid.confined {d : Disk} (h : Solid d) : d.tree.Confined := by
  have hplain : ∀ (k : Nat) (p : List Text),k ≤ p.length →
      d.tree.Plain p (List.replicate k .up) (p.take (p.length - k)) := by
    intro k
    induction k with
    | zero =>
      intro p _
      rw [Nat.sub_zero,List.take_length]
      exact .nil p
    | succ k ih =>
      intro p hk
      rcases List.eq_nil_or_concat p with rfl | ⟨q,n,rfl⟩
      · exact absurd hk (by simp)
      · rw [List.concat_eq_append,List.length_append,List.length_singleton] at hk ⊢
        rw [List.replicate_succ,Nat.add_sub_add_right,List.take_append_of_le_length (by omega)]
        exact .up (ih q (by omega))
  intro p n target hlink
  obtain ⟨k,names,rfl,hk⟩ := h.links p n target hlink
  exact ⟨_,rfl,Or.inl ⟨_,names,_,rfl,hplain k p hk⟩⟩

theorem start_sound (archive : Bytes) (limits : Limits) : Sound limits (start archive limits) := by
  have hleft : (start archive limits).r.left ≤ 2 ^ 64 - 1 := Nat.min_le_right _ _
  refine ⟨⟨⟨nofun,?_,nofun,List.nodup_nil,nofun⟩,nofun⟩,Nat.zero_le _,Or.inl (Nat.le_refl _),?_⟩
  · intro p node
    exact ⟨nofun,nofun⟩
  · change 0 + _ ≤ _
    omega

/-- An archive that is unpacked makes everything inside the empty directory it was given, each
thing where there was none, leaves no path that leads outside through any of its links, and
writes no more bytes than it may. -/
theorem release_stays_in_directory {fuel strip : Nat} {archive : Bytes} {limits : Limits}
    {s : State} (h : extractTarGz fuel archive strip limits = .ok s) :
    (∀ x ∈ s.w.disk.made,x.1 ≠ none) ∧ (s.w.disk.made.map Prod.fst).Nodup ∧
      (∀ p node,s.w.disk.tree p = some node ↔ (some p,node) ∈ s.w.disk.made) ∧
      s.w.disk.tree.Inside ∧ s.written ≤ limits.maxTotalBytes := by
  have hsound : Sound limits s := by
    refine While.run_induction (l := extracting fuel strip limits)
      (P := fun s out => Sound limits s → ∀ s',out = .ok s' → Sound limits s') ?_ ?_ ?_
      (start archive limits) (start_sound archive limits) s h
    · intro s e _ _ s' h
      cases h
    · intro s a hs hsound s' h
      cases h
      obtain ⟨next,hround,hs⟩ := bind_ok hs
      cases next with
      | none =>
        cases hs
        exact hsound
      | some t => cases hs
    · intro s s' hs ih hsound
      obtain ⟨next,hround,hs⟩ := bind_ok hs
      cases next with
      | none => cases hs
      | some t =>
        cases hs
        obtain ⟨n,hread,heffect⟩ := round_ok hround
        exact ih (heffect.sound hsound hread)
  have hdisk := hsound.writer.disk
  have hbytes := hsound.bytes
  have hcapped := hsound.capped
  refine ⟨hdisk.inside,hdisk.once,hdisk.made,hdisk.confined.inside,?_⟩
  rcases hsound.counted with hcounted | hfull
  · omega
  · omega

/-- One file `x/a` of one byte. -/
def oneFileArchive : Bytes :=
  [0x78,0x2f,0x61] ++ List.replicate 121 0 ++ List.replicate 10 0x30 ++ [0x31,0] ++
    List.replicate 12 0 ++ [0x30,0x30,0x33,0x31,0x37,0x30,0,0x20,0x30] ++ List.replicate 100 0 ++
    [0x75,0x73,0x74,0x61,0x72] ++ List.replicate 250 0 ++ 7 :: List.replicate 1535 0

theorem one_file_stays_in_directory : ∃ s : State,s.stats = ⟨1,0,0,1⟩ ∧
    (∀ x ∈ s.w.disk.made,x.1 ≠ none) ∧ (s.w.disk.made.map Prod.fst).Nodup ∧
      (∀ p node,s.w.disk.tree p = some node ↔ (some p,node) ∈ s.w.disk.made) ∧
      s.w.disk.tree.Inside ∧ s.written ≤ defaultLimits.maxTotalBytes := by
  have hstats : ((extractTarGz 8 oneFileArchive 1 defaultLimits).map State.stats).toOption =
      some ⟨1,0,0,1⟩ := by decide +kernel
  cases h : extractTarGz 8 oneFileArchive 1 defaultLimits with
  | error e =>
    rw [h] at hstats
    cases hstats
  | ok s =>
    rw [h] at hstats
    exact ⟨s,Option.some.inj hstats,release_stays_in_directory h⟩

end Flagship.Updater.Extract

import Flagship.Broker.Proofs.Tar
import Flagship.Lib.FileTree

namespace Flagship.Broker.Tar
open Lib

def stepOf (c : Bytes) : PathStep Bytes := if c = dotdot then .up else .name c

def stepsOf (b : Bytes) : List (PathStep Bytes) :=
  ((b.splitOn 0x2f).filter fun c => !c.isEmpty && c != dot).map stepOf

/-- A path as the kernel reads it. -/
def targetOf (b : Bytes) : LinkTarget Bytes :=
  if b.head? = some 0x2f then .absolute else .relative (stepsOf b)

/-- One entry is unpacked: what is written to, and the tree after it. A hard link needs the
file that it names. -/
def extractMember (fuel : Nat) (t : FileTree Bytes) (m : Member) :
    FileTree Bytes × List (FilePlace Bytes) :=
  match targetOf m.name,kindOf m.type with
  | .absolute,_ => (t,[none])
  | .relative path,some .file => FileTree.create .file fuel t (some []) path
  | .relative path,some .dir => FileTree.create .dir fuel t (some []) path
  | .relative path,some .symlink => FileTree.create (.link (targetOf m.link)) fuel t (some []) path
  | .relative path,some .hardlink =>
    match targetOf m.link with
    | .absolute => (t,[none])
    | .relative target =>
      match FileTree.find fuel t (some []) target with
      | none => (t,[])
      | some none => (t,[none])
      | some (some p) =>
        if t p = some .file then FileTree.create .file fuel t (some []) path else (t,[])
  | .relative _,none => (t,[])

def extract (fuel : Nat) : FileTree Bytes → List Member → FileTree Bytes × List (FilePlace Bytes)
  | t,[] => (t,[])
  | t,m :: members =>
    let made := extractMember fuel t m
    let rest := extract fuel made.1 members
    (rest.1,made.2 ++ rest.2)

/-- Names that can be joined and split again. -/
def IsPath (p : List Bytes) : Prop := ∀ c ∈ p,c ≠ [] ∧ 0x2f ∉ c

theorem join_inj {p q : List Bytes} (hp : IsPath p) (hq : IsPath q) (h : join p = join q) :
    p = q := by
  have hempty : ∀ r,IsPath r → r ≠ [] → join r ≠ [] := by
    intro r hr hne hnil
    cases r with
    | nil => exact hne rfl
    | cons c r =>
      have hsplit := List.splitOn_intercalate 0x2f (fun c hc => (hr c hc).2) hne
      rw [← join,hnil,List.splitOn_nil] at hsplit
      cases hsplit
      exact (hr [] List.mem_cons_self).1 rfl
  by_cases hpn : p = []
  · subst hpn
    by_contra hne
    exact hempty q hq (Ne.symm hne) h.symm
  by_cases hqn : q = []
  · subst hqn
    exact absurd h (hempty p hp hpn)
  rw [← List.splitOn_intercalate 0x2f (fun c hc => (hp c hc).2) hpn,
    ← List.splitOn_intercalate 0x2f (fun c hc => (hq c hc).2) hqn]
  exact congrArg _ h

theorem keepComponents_ok {escape : Refusal} {cs parts : List Bytes}
    (h : keepComponents escape cs = .ok parts) :
    (cs.filter fun c => !c.isEmpty && c != dot).map stepOf = parts.map .name ∧
      ∀ c ∈ parts,c ∈ cs ∧ c ≠ [] := by
  induction cs generalizing parts with
  | nil =>
    cases h
    exact ⟨rfl,by simp⟩
  | cons c cs ih =>
    rw [keepComponents] at h
    by_cases hskip : (c.isEmpty || c == dot) = true
    · rw [if_pos hskip] at h
      obtain ⟨hsteps,hmem⟩ := ih h
      refine ⟨?_,fun d hd => ⟨List.mem_cons_of_mem c (hmem d hd).1,(hmem d hd).2⟩⟩
      rw [List.filter_cons_of_neg]
      · exact hsteps
      · simp only [Bool.or_eq_true] at hskip
        rcases hskip with hskip | hskip <;> simp [bne,hskip]
    rw [if_neg hskip] at h
    by_cases hup : (c == dotdot) = true
    · rw [if_pos hup] at h
      cases h
    rw [if_neg hup] at h
    cases hrest : keepComponents escape cs with
    | error e =>
      rw [hrest] at h
      cases h
    | ok rest =>
      rw [hrest] at h
      cases h
      obtain ⟨hsteps,hmem⟩ := ih hrest
      have hname : c ≠ dotdot := by simpa using hup
      simp only [Bool.or_eq_true,not_or,Bool.not_eq_true] at hskip
      refine ⟨?_,?_⟩
      · rw [List.filter_cons_of_pos (by simp [bne,hskip.1,hskip.2]),List.map_cons,List.map_cons,
          hsteps,stepOf,if_neg hname]
      · intro d hd
        rcases List.mem_cons.mp hd with rfl | hd
        · exact ⟨List.mem_cons_self,by simpa using hskip.1⟩
        · exact ⟨List.mem_cons_of_mem c (hmem d hd).1,(hmem d hd).2⟩

/-- A name that is accepted is a path of names below the folder. -/
theorem components_ok {name : Bytes} {absolute escape : Refusal} {parts : List Bytes}
    (h : components name absolute escape = .ok parts) :
    targetOf name = .relative (parts.map .name) ∧ IsPath parts := by
  rw [components] at h
  split at h
  · cases h
  next hhead =>
    obtain ⟨hsteps,hmem⟩ := keepComponents_ok h
    refine ⟨?_,?_⟩
    · rw [targetOf,if_neg hhead,stepsOf,hsteps]
    · intro c hc
      exact ⟨(hmem c hc).2,not_mem_of_mem_splitOn (hmem c hc).1⟩

/-- The steps of a link meet folders only, up to the last of them, or up to the link itself. -/
inductive Held (st : State) (self : List Bytes) : List Bytes → List (PathStep Bytes) → Prop
  | nil (p : List Bytes) : Held st self p []
  | last (p : List Bytes) (n : Bytes) : Held st self p [.name n]
  | up {p : List Bytes} {n : Bytes} {steps : List (PathStep Bytes)} (h : Held st self p steps) :
      Held st self (p ++ [n]) (.up :: steps)
  | name {p : List Bytes} {n : Bytes} {steps : List (PathStep Bytes)}
      (hdir : join (p ++ [n]) ∈ st.dirs) (hlink : join (p ++ [n]) ∉ st.links)
      (h : Held st self (p ++ [n]) steps) : Held st self p (.name n :: steps)
  | again {p : List Bytes} {n : Bytes} (steps : List (PathStep Bytes)) (h : p ++ [n] = self) :
      Held st self p (.name n :: steps)

section
variable {st st' : State} {self p : List Bytes} {steps : List (PathStep Bytes)}

theorem Held.mono (h : Held st self p steps) (hdirs : ∀ d ∈ st.dirs,d ∈ st'.dirs)
    (hlinks : ∀ d ∈ st.dirs,d ∉ st.links → d ∉ st'.links) : Held st' self p steps := by
  induction h with
  | nil p => exact .nil p
  | last p n => exact .last p n
  | up _ ih => exact .up ih
  | name hdir hlink _ ih => exact .name (hdirs _ hdir) (hlinks _ hdir hlink) ih
  | again steps h => exact .again steps h

/-- The walk of a link's target that is accepted. -/
theorem held_of_walk {links walked cs : List Bytes} (h : walk links p cs = .ok walked)
    (hwalked : ∀ d ∈ walked,d ∈ st.dirs) (hlinks : ∀ d ∈ st.links,d ∈ links ∨ d = join self)
    (hself : IsPath self) (hp : IsPath p) (hcs : IsPath cs) : Held st self p (cs.map stepOf) := by
  induction cs generalizing p walked with
  | nil => exact .nil p
  | cons c cs ih =>
    have hrest : IsPath cs := fun d hd => hcs d (List.mem_cons_of_mem c hd)
    rw [walk] at h
    by_cases hup : c = dotdot
    · rw [if_pos hup] at h
      by_cases hnil : p = []
      · rw [if_pos hnil] at h
        cases h
      · rw [if_neg hnil] at h
        rw [List.map_cons,stepOf,if_pos hup,← List.dropLast_append_getLast hnil]
        exact .up (ih h hwalked (fun d hd => hp d (List.dropLast_subset p hd)) hrest)
    rw [if_neg hup] at h
    rw [List.map_cons,stepOf,if_neg hup]
    by_cases hlast : cs = []
    · subst hlast
      exact .last p c
    rw [if_neg hlast] at h
    by_cases hlink : links.contains (join (p ++ [c])) = true
    · rw [if_pos hlink] at h
      cases h
    rw [if_neg hlink] at h
    cases hwalk : walk links (p ++ [c]) cs with
    | error e =>
      rw [hwalk] at h
      cases h
    | ok more =>
      rw [hwalk] at h
      cases h
      have hpath : IsPath (p ++ [c]) := by
        intro d hd
        rcases List.mem_append.mp hd with hd | hd
        · exact hp d hd
        · rw [List.mem_singleton.mp hd]
          exact hcs c List.mem_cons_self
      by_cases hagain : p ++ [c] = self
      · exact .again _ hagain
      · refine .name (hwalked _ List.mem_cons_self) ?_
          (ih hwalk (fun d hd => hwalked d (List.mem_cons_of_mem _ hd)) hpath hrest)
        intro hin
        rcases hlinks _ hin with hin | heq
        · exact hlink (by simpa using hin)
        · exact hagain (join_inj hpath hself heq)

end

/-- What the checker knows of what was unpacked. -/
structure Bounded (st : State) (t : FileTree Bytes) : Prop where
  linked : ∀ p target,t p = some (.link target) → IsPath p ∧ p ≠ [] ∧ join p ∈ st.links ∧
    ∃ steps,target = .relative steps ∧ Held st p p.dropLast steps
  seen : ∀ l ∈ st.links,l ∈ st.seen
  files : ∀ names,IsPath names → join names ∈ st.files →
    join names ∈ st.seen ∧ join names ∉ st.links ∧ ∀ first,first ≠ [] → first <+: names →
      first ≠ names → join first ∈ st.dirs ∧ join first ∉ st.links

section
variable {st : State} {t : FileTree Bytes}

theorem Bounded.not_link (h : Bounded st t) {p : List Bytes} (hp : join p ∉ st.links) :
    ¬ t.IsLink p := by
  rintro ⟨target,hlink⟩
  exact hp (h.linked p target hlink).2.2.1

/-- The steps of a link are plain up to their last name, or up to the link again. -/
theorem Bounded.plain (h : Bounded st t) {p q : List Bytes} {n : Bytes}
    {steps : List (PathStep Bytes)} (hheld : Held st (p ++ [n]) q steps) :
    (∃ (first : List (PathStep Bytes)) (names r : List Bytes),
      steps = first ++ names.map .name ∧ t.Plain q first r) ∨
    ∃ first rest,steps = first ++ .name n :: rest ∧ t.Plain q first p := by
  induction hheld with
  | nil q => exact Or.inl ⟨[],[],q,rfl,.nil q⟩
  | last q m => exact Or.inl ⟨[],[m],q,rfl,.nil q⟩
  | up _ ih =>
    rcases ih with ⟨first,names,r,rfl,hplain⟩ | ⟨first,rest,rfl,hplain⟩
    · exact Or.inl ⟨.up :: first,names,r,rfl,.up hplain⟩
    · exact Or.inr ⟨.up :: first,rest,rfl,.up hplain⟩
  | @name q m steps _ hlink _ ih =>
    rcases ih with ⟨first,names,r,rfl,hplain⟩ | ⟨first,rest,rfl,hplain⟩
    · exact Or.inl ⟨.name m :: first,names,r,rfl,.name (h.not_link hlink) hplain⟩
    · exact Or.inr ⟨.name m :: first,rest,rfl,.name (h.not_link hlink) hplain⟩
  | again steps heq =>
    obtain ⟨rfl,hn⟩ := List.append_inj' heq rfl
    cases hn
    exact Or.inr ⟨[],steps,rfl,.nil _⟩

theorem Bounded.confined (h : Bounded st t) : t.Confined := by
  intro p n target hlink
  obtain ⟨_,_,_,steps,rfl,hheld⟩ := h.linked _ target hlink
  rw [List.dropLast_concat] at hheld
  refine ⟨steps,rfl,?_⟩
  rcases h.plain hheld with hnames | ⟨first,rest,rfl,hplain⟩
  · exact Or.inl hnames
  · exact Or.inr ⟨first,rest,p,n,rfl,hplain,first,rest,hlink,hplain⟩

end

theorem mem_above {first parts : List Bytes} (hne : first ≠ []) (hfirst : first <+: parts)
    (hproper : first ≠ parts) : join first ∈ above parts := by
  obtain ⟨rest,rfl⟩ := hfirst
  have hpos := List.length_pos_of_ne_nil hne
  have hrest : rest ≠ [] := by
    rintro rfl
    exact hproper (by simp)
  have hmore := List.length_pos_of_ne_nil hrest
  refine List.mem_map.mpr ⟨first.length,?_,by rw [List.take_left]⟩
  rw [List.mem_range'_1,List.length_append]
  omega

/-- Folders that are known stay known. -/
theorem mem_foldl_insert {d : Bytes} (ds more : List Bytes) :
    d ∈ more.foldl (fun ds d => ds.insert d) ds ↔ d ∈ ds ∨ d ∈ more := by
  induction more generalizing ds with
  | nil => simp
  | cons m more ih =>
    rw [List.foldl_cons,ih,List.mem_insert_iff,List.mem_cons]
    tauto

/-- What an entry that was placed adds to the folders, links and files that are known. -/
structure Adds (st st' : State) (parts : List Bytes) (kind : Kind) (walked : List Bytes) :
    Prop where
  dirs : ∀ d,d ∈ st.dirs ∨ d ∈ walked ∨ d ∈ above parts → d ∈ st'.dirs
  links : ∀ d,d ∈ st'.links ↔ d ∈ st.links ∨ kind = .symlink ∧ d = join parts
  seen : ∀ d,d ∈ st'.seen ↔ d ∈ st.seen ∨ d = join parts
  files : ∀ d,d ∈ st'.files → d ∈ st.files ∨ kind = .file ∧ d = join parts

theorem adds_add (st : State) (entries total names : Nat) (parts : List Bytes) (kind : Kind)
    (walked : List Bytes) : Adds st (State.add ⟨entries,total,names,st.seen,st.files,st.links,
      st.dirs,none,none,none⟩ parts kind walked) parts kind walked := by
  refine ⟨?_,?_,?_,?_⟩
  · intro d hd
    have hin : d ∈ (walked ++ above parts).foldl (fun ds d => ds.insert d) st.dirs := by
      rw [mem_foldl_insert,List.mem_append]
      exact hd
    dsimp only [State.add]
    split
    · exact List.mem_insert_iff.mpr (Or.inr hin)
    · exact hin
  · intro d
    cases kind <;> simp [State.add,or_comm]
  · intro d
    simp [State.add,or_comm]
  · intro d hd
    cases kind <;> simp_all [State.add,or_comm]

section
variable {st st' : State} {t t' : FileTree Bytes} {parts walked : List Bytes} {kind : Kind}

/-- A path of names that was placed meets no link. -/
theorem Bounded.free (h : Bounded st t) (hseen : join parts ∉ st.seen)
    (habove : ∀ d ∈ above parts,d ∉ st.links) :
    ∀ first,first ≠ [] → first <+: parts → ¬ t.IsLink ([] ++ first) := by
  intro first hne hfirst
  refine h.not_link fun hlink => ?_
  by_cases hproper : first = parts
  · subst hproper
    exact hseen (h.seen _ hlink)
  · exact habove _ (mem_above hne hfirst hproper) hlink

/-- An entry that was checked and unpacked leaves what is known true. -/
theorem Bounded.add (h : Bounded st t) (hadds : Adds st st' parts kind walked)
    (hparts : IsPath parts) (hseen : join parts ∉ st.seen)
    (habove : ∀ d ∈ above parts,d ∉ st.links) (hdirs : kind = .symlink → join parts ∉ st.dirs)
    (hlinks : ∀ q target,t' q = some (.link target) → t q = some (.link target) ∨
      q = parts ∧ kind = .symlink ∧ parts ≠ [] ∧ ∃ steps,target = .relative steps ∧
        Held st' parts parts.dropLast steps) : Bounded st' t' := by
  have hfree : ∀ d,d ∈ st.dirs → d ∉ st.links → d ∉ st'.links := by
    intro d hd hlink hin
    rcases (hadds.links d).mp hin with hin | ⟨hkind,rfl⟩
    · exact hlink hin
    · exact hdirs hkind hd
  refine ⟨?_,?_,?_⟩
  · intro p target hp
    rcases hlinks p target hp with hp | ⟨rfl,hkind,hne,hheld⟩
    · obtain ⟨hpath,hne,hlink,steps,hsteps,hheld⟩ := h.linked p target hp
      refine ⟨hpath,hne,(hadds.links _).mpr (Or.inl hlink),steps,hsteps,?_⟩
      exact hheld.mono (fun d hd => hadds.dirs d (Or.inl hd)) hfree
    · exact ⟨hparts,hne,(hadds.links _).mpr (Or.inr ⟨hkind,rfl⟩),hheld⟩
  · intro l hl
    rw [hadds.seen]
    rcases (hadds.links l).mp hl with hl | ⟨_,rfl⟩
    · exact Or.inl (h.seen l hl)
    · exact Or.inr rfl
  · intro names hnames hfile
    rcases hadds.files _ hfile with hfile | ⟨rfl,heq⟩
    · obtain ⟨hin,hlink,hfirsts⟩ := h.files names hnames hfile
      refine ⟨(hadds.seen _).mpr (Or.inl hin),?_,?_⟩
      · intro hlink'
        rcases (hadds.links _).mp hlink' with hlink' | ⟨_,heq⟩
        · exact hlink hlink'
        · exact hseen (heq ▸ hin)
      · intro first hne hfirst hproper
        obtain ⟨hdir,hnot⟩ := hfirsts first hne hfirst hproper
        exact ⟨hadds.dirs _ (Or.inl hdir),hfree _ hdir hnot⟩
    · have hsame := join_inj hnames hparts heq
      subst hsame
      have hlinks' : ∀ d,d ∈ st'.links → d ∈ st.links := by
        intro d hd
        rcases (hadds.links d).mp hd with hd | ⟨hkind,_⟩
        · exact hd
        · cases hkind
      refine ⟨(hadds.seen _).mpr (Or.inr rfl),fun hlink => hseen (h.seen _ (hlinks' _ hlink)),?_⟩
      intro first hne hfirst hproper
      have hin := mem_above hne hfirst hproper
      exact ⟨hadds.dirs _ (Or.inr (Or.inr hin)),fun hlink => habove _ hin (hlinks' _ hlink)⟩

/-- The steps of a link that was checked. -/
theorem held_of_checkLink {link : Bytes} (hadds : Adds st st' parts .symlink walked)
    (hparts : IsPath parts) (h : checkLink st .symlink parts link = .ok walked) :
    targetOf link = .relative (stepsOf link) ∧ Held st' parts parts.dropLast (stepsOf link) := by
  rw [checkLink] at h
  split at h
  · cases h
  next hlink =>
    simp only [Bool.or_eq_true,decide_eq_true_eq,not_or] at hlink
    refine ⟨by rw [targetOf,if_neg hlink.2],?_⟩
    refine held_of_walk h (fun d hd => hadds.dirs d (Or.inr (Or.inl hd))) ?_ hparts
      (fun d hd => hparts d (List.dropLast_subset parts hd)) ?_
    · intro d hd
      rcases (hadds.links d).mp hd with hd | ⟨_,rfl⟩
      · exact Or.inl hd
      · exact Or.inr rfl
    · intro c hc
      obtain ⟨hmem,hkeep⟩ := List.mem_filter.mp hc
      simp only [Bool.and_eq_true,Bool.not_eq_true',List.isEmpty_eq_false_iff] at hkeep
      exact ⟨hkeep.1,not_mem_of_mem_splitOn hmem⟩

/-- A hard link that was checked names a file that no link leads to. -/
theorem Bounded.finds (h : Bounded st t) {link : Bytes}
    (hlink : checkLink st .hardlink parts link = .ok walked) : ∃ target,
      targetOf link = .relative target ∧ ∀ fuel,FileTree.find fuel t (some []) target ≠ some none := by
  obtain ⟨target,htarget,hlink⟩ := bind_ok hlink
  obtain ⟨hfile,_⟩ := unless_ok hlink
  obtain ⟨heq,hpath⟩ := components_ok htarget
  simp only [Bool.or_eq_true,not_or,Bool.not_eq_true',Bool.not_eq_false,
    List.contains_iff_mem] at hfile
  obtain ⟨_,hnot,hfirsts⟩ := h.files target hpath hfile.2
  refine ⟨_,heq,fun fuel => FileTree.find_names fuel fun first hne hfirst => h.not_link ?_⟩
  by_cases hproper : first = target
  · subst hproper
    exact hnot
  · exact (hfirsts first hne hfirst hproper).2

/-- One entry that was checked is unpacked inside, and what is known stays true. -/
theorem Bounded.extractMember (h : Bounded st t) (fuel : Nat) {profile : Profile} {type : UInt8}
    {e : Entry} (hplace : place profile type e = .ok (parts,kind)) (hseen : join parts ∉ st.seen)
    (habove : ∀ d ∈ above parts,d ∉ st.links) (hdirs : kind = .symlink → join parts ∉ st.dirs)
    (hlink : checkLink st kind parts e.link = .ok walked)
    (hadds : Adds st st' parts kind walked) :
    (∀ x ∈ (Tar.extractMember fuel t ⟨type,e.name,e.link,e.size⟩).2,x ≠ none) ∧
      Bounded st' (Tar.extractMember fuel t ⟨type,e.name,e.link,e.size⟩).1 := by
  obtain ⟨hparts,hkind,hempty⟩ := place_ok hplace
  obtain ⟨hname,hpath⟩ := components_ok hparts
  have hfree := h.free hseen habove
  have hkeep : ∀ t' : FileTree Bytes,(∀ q target,t' q = some (.link target) →
      t q = some (.link target)) → Bounded st' t' := fun t' ht' =>
    h.add hadds hpath hseen habove hdirs fun q target hq => Or.inl (ht' q target hq)
  unfold Tar.extractMember
  simp only [hname,hkind]
  cases kind with
  | file =>
    obtain ⟨hplaces,hlinks⟩ := FileTree.create_names .file fuel hfree
    refine ⟨hplaces,hkeep _ fun q target hq => ?_⟩
    rcases hlinks q target hq with hq | ⟨_,hnode⟩
    · exact hq
    · cases hnode
  | dir =>
    obtain ⟨hplaces,hlinks⟩ := FileTree.create_names .dir fuel hfree
    refine ⟨hplaces,hkeep _ fun q target hq => ?_⟩
    rcases hlinks q target hq with hq | ⟨_,hnode⟩
    · exact hq
    · cases hnode
  | symlink =>
    obtain ⟨htarget,hheld⟩ := held_of_checkLink hadds hpath hlink
    obtain ⟨hplaces,hlinks⟩ := FileTree.create_names (.link (targetOf e.link)) fuel hfree
    refine ⟨hplaces,h.add hadds hpath hseen habove hdirs fun q target hq => ?_⟩
    rcases hlinks q target hq with hold | ⟨hnew,hnode⟩
    · exact Or.inl hold
    · cases hnode
      refine Or.inr ⟨hnew,rfl,?_,_,htarget,hheld⟩
      intro hnil
      cases hempty hnil
  | hardlink =>
    obtain ⟨target,htarget,hfind⟩ := h.finds hlink
    simp only [htarget]
    split
    · exact ⟨by simp,hkeep t fun _ _ hq => hq⟩
    · next hout => exact absurd hout (hfind fuel)
    · next place hplace =>
      split
      · obtain ⟨hplaces,hlinks⟩ := FileTree.create_names .file fuel hfree
        refine ⟨hplaces,hkeep _ fun q target hq => ?_⟩
        rcases hlinks q target hq with hq | ⟨_,hnode⟩
        · exact hq
        · cases hnode
      · exact ⟨by simp,hkeep t fun _ _ hq => hq⟩

/-- What is known does not hang on the names that stand for the next entry. -/
theorem Bounded.pending (h : Bounded st t) (hdirs : st'.dirs = st.dirs)
    (hlinks : st'.links = st.links) (hseen : st'.seen = st.seen) (hfiles : st'.files = st.files) :
    Bounded st' t := by
  refine ⟨?_,?_,?_⟩
  · intro p target hp
    obtain ⟨hpath,hne,hlink,steps,hsteps,hheld⟩ := h.linked p target hp
    refine ⟨hpath,hne,hlinks ▸ hlink,steps,hsteps,?_⟩
    exact hheld.mono (fun d hd => hdirs ▸ hd) fun d _ hd => hlinks ▸ hd
  · rw [hlinks,hseen]
    exact h.seen
  · rw [hfiles,hseen,hlinks,hdirs]
    exact h.files

end

section
variable {profile : Profile} {limits : Limits} {st st' : State} {t : FileTree Bytes}

theorem Takes.bounded {b x : Bytes} (htakes : Takes profile limits st b x st') (h : Bounded st t)
    (fuel : Nat) : (∀ x ∈ (extract fuel t (memberOf st b).toList).2,x ≠ none) ∧
      Bounded st' (extract fuel t (memberOf st b).toList).1 := by
  cases htakes with
  | @name header _ hread htype _ _ =>
    rw [memberOf_meta hread (by rw [htype]; rfl)]
    exact ⟨by simp [extract],h.pending rfl rfl rfl rfl⟩
  | @link header _ hread htype _ _ =>
    rw [memberOf_meta hread (by rw [htype]; rfl)]
    exact ⟨by simp [extract],h.pending rfl rfl rfl rfl⟩
  | @pax header _ _ hread htype _ _ _ =>
    rw [memberOf_meta hread (by rw [htype]; rfl)]
    exact ⟨by simp [extract],h.pending rfl rfl rfl rfl⟩
  | @entry header _ _ size hread htype htaken _ =>
    obtain ⟨e,parts,kind,walked,hentry,_,hplace,hseen,habove,hdirs,hlink,total,names,rfl⟩ :=
      admitEntry_ok htaken
    rw [memberOf_entry hread (by simp [isMeta,htype]) hentry]
    simp only [Option.toList_some,extract,List.append_nil]
    exact h.extractMember fuel hplace hseen habove hdirs hlink (adds_add st _ _ _ _ _ _)

theorem extract_append (fuel : Nat) (t : FileTree Bytes) (members more : List Member) :
    extract fuel t (members ++ more) =
      ((extract fuel (extract fuel t members).1 more).1,
        (extract fuel t members).2 ++ (extract fuel (extract fuel t members).1 more).2) := by
  induction members generalizing t with
  | nil => rfl
  | cons m members ih => simp only [List.cons_append,extract,ih,List.append_assoc]

/-- A whole archive that was checked is unpacked inside. -/
theorem Checked.bounded {records : List Record} {members : List Member}
    (hchecked : Checked profile limits st records members st') (h : Bounded st t) (fuel : Nat) :
    (∀ x ∈ (extract fuel t members).2,x ≠ none) ∧ Bounded st' (extract fuel t members).1 := by
  induction hchecked generalizing t with
  | nil st => exact ⟨by simp [extract],h⟩
  | cons head tail ih =>
    obtain ⟨hplaces,hnext⟩ := head.bounded h fuel
    obtain ⟨hrest,hend⟩ := ih hnext
    rw [extract_append]
    refine ⟨fun x hx => ?_,hend⟩
    rcases List.mem_append.mp hx with hx | hx
    · exact hplaces x hx
    · exact hrest x hx

end

def emptyFolder : FileTree Bytes := fun _ => none

theorem bounded_start : Bounded start emptyFolder := by
  refine ⟨?_,?_,?_⟩
  · intro p target hp
    cases hp
  · intro l hl
    cases hl
  · intro names _ hfile
    cases hfile

/-- The entries of an archive that is accepted, unpacked in order into an empty folder, write to
no place outside of it, and leave no path that leads outside through any of their links. -/
theorem archive_stays_in_folder {input : Source} {limits : Limits} {s : Summary}
    (h : check input .volume limits = .ok s) : ∃ records members st rest,
      Checked .volume limits start records members st ∧
      input.bytes = flat records ++ zeroBlock ++ rest ∧
      ∀ fuel,(∀ x ∈ (extract fuel emptyFolder members).2,x ≠ none) ∧
        (extract fuel emptyFolder members).1.Inside := by
  obtain ⟨records,members,st,rest,hchecked,_,hbytes⟩ := checked_of_check h
  refine ⟨records,members,st,rest,hchecked,hbytes,fun fuel => ?_⟩
  obtain ⟨hplaces,hend⟩ := hchecked.bounded bounded_start fuel
  exact ⟨hplaces,hend.confined.inside⟩

theorem one_file_stays_in_folder : ∃ records members st rest,
    Checked .volume defaultLimits start records members st ∧
    oneFileInput.bytes = flat records ++ zeroBlock ++ rest ∧
    ∀ fuel,(∀ x ∈ (extract fuel emptyFolder members).2,x ≠ none) ∧
      (extract fuel emptyFolder members).1.Inside := by
  have h : check oneFileInput .volume defaultLimits = .ok ⟨1,3⟩ := by decide +kernel
  exact archive_stays_in_folder h

end Flagship.Broker.Tar

import Mathlib.Data.List.Basic
import Mathlib.Logic.Relation

namespace Flagship.Lib

/-- One step of a path: to the folder above, or to a name. -/
inductive PathStep (ν : Type)
  | up
  | name (n : ν)
  deriving DecidableEq

/-- Where a link points: from the root of the machine, or from the link's own folder. -/
inductive LinkTarget (ν : Type)
  | absolute
  | relative (steps : List (PathStep ν))
  deriving DecidableEq

inductive FileNode (ν : Type)
  | dir
  | file
  | link (target : LinkTarget ν)
  deriving DecidableEq

/-- What lies in a folder and below it, by the names that lead there. -/
abbrev FileTree (ν : Type) := List ν → Option (FileNode ν)

/-- A place in the folder; there is none for the places outside of it. -/
abbrev FilePlace (ν : Type) := Option (List ν)

/-- How far a path was followed, and its steps that are still to come. -/
abbrev Walk (ν : Type) := FilePlace ν × List (PathStep ν)

namespace FileTree
variable {ν : Type}

/-- One step further. A link stands for its steps, from the folder it lies in. -/
inductive Goes (t : FileTree ν) : Walk ν → Walk ν → Prop
  | out (todo : List (PathStep ν)) : Goes t (some [],.up :: todo) (none,todo)
  | up (p : List ν) (n : ν) (todo : List (PathStep ν)) :
      Goes t (some (p ++ [n]),.up :: todo) (some p,todo)
  | dir {p : List ν} {n : ν} (todo : List (PathStep ν)) (h : t (p ++ [n]) = some .dir) :
      Goes t (some p,.name n :: todo) (some (p ++ [n]),todo)
  | file {p : List ν} {n : ν} (h : t (p ++ [n]) = some .file) :
      Goes t (some p,[.name n]) (some (p ++ [n]),[])
  | link {p : List ν} {n : ν} {steps : List (PathStep ν)} (todo : List (PathStep ν))
      (h : t (p ++ [n]) = some (.link (.relative steps))) :
      Goes t (some p,.name n :: todo) (some p,steps ++ todo)
  | away {p : List ν} {n : ν} (todo : List (PathStep ν))
      (h : t (p ++ [n]) = some (.link .absolute)) : Goes t (some p,.name n :: todo) (none,todo)

/-- No path of names leads out of the folder, whatever links it goes through. -/
def Inside (t : FileTree ν) : Prop :=
  ∀ (names : List ν) (w : Walk ν),
    Relation.ReflTransGen t.Goes (some [],names.map .name) w → w.1 ≠ none

def IsLink (t : FileTree ν) (p : List ν) : Prop := ∃ target,t p = some (.link target)

/-- Steps that go through no link and never above the folder. -/
inductive Plain (t : FileTree ν) : List ν → List (PathStep ν) → List ν → Prop
  | nil (p : List ν) : Plain t p [] p
  | up {p q : List ν} {n : ν} {steps : List (PathStep ν)} (h : Plain t p steps q) :
      Plain t (p ++ [n]) (.up :: steps) q
  | name {p q : List ν} {n : ν} {steps : List (PathStep ν)} (hlink : ¬ t.IsLink (p ++ [n]))
      (h : Plain t (p ++ [n]) steps q) : Plain t p (.name n :: steps) q

/-- A link whose own steps come to the link again, so that no path gets past it. -/
def Endless (t : FileTree ν) (p : List ν) (n : ν) : Prop :=
  ∃ steps rest,t (p ++ [n]) = some (.link (.relative (steps ++ .name n :: rest))) ∧
    t.Plain p steps p

/-- Steps that are plain up to where only names follow, or up to a link that is endless. -/
def Contained (t : FileTree ν) (p : List ν) (todo : List (PathStep ν)) : Prop :=
  (∃ (steps : List (PathStep ν)) (names q : List ν),
    todo = steps ++ names.map .name ∧ t.Plain p steps q) ∨
  ∃ (steps rest : List (PathStep ν)) (q : List ν) (n : ν),
    todo = steps ++ .name n :: rest ∧ t.Plain p steps q ∧ t.Endless q n

/-- Every link is relative and contained. -/
def Confined (t : FileTree ν) : Prop :=
  ∀ p n target,t (p ++ [n]) = some (.link target) →
    ∃ steps,target = .relative steps ∧ t.Contained p steps

variable {t : FileTree ν} {p q : List ν} {n : ν} {steps todo : List (PathStep ν)}

theorem contained_names (names : List ν) : t.Contained p (names.map .name) :=
  Or.inl ⟨[],names,p,rfl,.nil p⟩

theorem Contained.append (h : t.Contained p steps) (names : List ν) :
    t.Contained p (steps ++ names.map .name) := by
  rcases h with ⟨first,rest,q,rfl,hplain⟩ | ⟨first,rest,q,n,rfl,hplain,hend⟩
  · exact Or.inl ⟨first,rest ++ names,q,by simp,hplain⟩
  · exact Or.inr ⟨first,rest ++ names.map .name,q,n,by simp,hplain,hend⟩

/-- Past a step that is no link, a contained walk stays contained. -/
theorem Contained.up (h : t.Contained (p ++ [n]) (.up :: todo)) : t.Contained p todo := by
  rcases h with ⟨first,names,q,heq,hplain⟩ | ⟨first,rest,q,m,heq,hplain,hend⟩
  · cases first with
    | nil => cases names <;> cases heq
    | cons step first =>
      cases heq
      generalize hp : p ++ [n] = p' at hplain
      cases hplain with
      | up hplain =>
        obtain ⟨rfl,_⟩ := List.append_inj' hp rfl
        exact Or.inl ⟨first,names,q,rfl,hplain⟩
  · cases first with
    | nil => cases heq
    | cons step first =>
      cases heq
      generalize hp : p ++ [n] = p' at hplain
      cases hplain with
      | up hplain =>
        obtain ⟨rfl,_⟩ := List.append_inj' hp rfl
        exact Or.inr ⟨first,rest,q,m,rfl,hplain,hend⟩

theorem not_contained_out : ¬ t.Contained [] (.up :: todo) := by
  rintro (⟨first,names,q,heq,hplain⟩ | ⟨first,rest,q,m,heq,hplain,_⟩)
  · cases first with
    | nil => cases names <;> cases heq
    | cons step first =>
      cases heq
      generalize hp : ([] : List ν) = p' at hplain
      cases hplain
      simp at hp
  · cases first with
    | nil => cases heq
    | cons step first =>
      cases heq
      generalize hp : ([] : List ν) = p' at hplain
      cases hplain
      simp at hp

theorem Contained.into (h : t.Contained p (.name n :: todo)) (hlink : ¬ t.IsLink (p ++ [n])) :
    t.Contained (p ++ [n]) todo := by
  rcases h with ⟨first,names,q,heq,hplain⟩ | ⟨first,rest,q,m,heq,hplain,hend⟩
  · cases first with
    | nil =>
      cases names with
      | nil => cases heq
      | cons n names =>
        cases heq
        exact contained_names names
    | cons step first =>
      cases heq
      cases hplain with
      | name _ hplain => exact Or.inl ⟨first,names,q,rfl,hplain⟩
  · cases first with
    | nil =>
      cases heq
      cases hplain
      obtain ⟨steps,rest,heq,_⟩ := hend
      exact absurd ⟨_,heq⟩ hlink
    | cons step first =>
      cases heq
      cases hplain with
      | name _ hplain => exact Or.inr ⟨first,rest,q,m,rfl,hplain,hend⟩

/-- At a link, the walk goes on with the steps of the link. -/
theorem Contained.follow (h : t.Contained p (.name n :: todo)) (hconfined : t.Confined)
    (hlink : t (p ++ [n]) = some (.link (.relative steps))) : t.Contained p (steps ++ todo) := by
  rcases h with ⟨first,names,q,heq,hplain⟩ | ⟨first,rest,q,m,heq,hplain,hend⟩
  · cases first with
    | nil =>
      cases names with
      | nil => cases heq
      | cons n names =>
        cases heq
        obtain ⟨_,heq,hcontained⟩ := hconfined p n _ hlink
        cases heq
        exact hcontained.append names
    | cons step first =>
      cases heq
      cases hplain with
      | name hnot _ => exact absurd ⟨_,hlink⟩ hnot
  · cases first with
    | nil =>
      cases heq
      cases hplain
      obtain ⟨steps',rest',heq,hagain⟩ := hend
      rw [hlink] at heq
      cases heq
      exact Or.inr ⟨steps',rest' ++ todo,p,n,by simp,hagain,steps',rest',hlink,hagain⟩
    | cons step first =>
      cases heq
      cases hplain with
      | name hnot _ => exact absurd ⟨_,hlink⟩ hnot

theorem Contained.goes {w : Walk ν} (h : t.Contained p todo) (hconfined : t.Confined)
    (hgoes : t.Goes (some p,todo) w) : ∃ p' todo',w = (some p',todo') ∧ t.Contained p' todo' := by
  cases hgoes with
  | out todo => exact absurd h not_contained_out
  | up p n todo => exact ⟨p,todo,rfl,h.up⟩
  | dir todo hdir =>
    refine ⟨_,todo,rfl,h.into ?_⟩
    rintro ⟨target,hlink⟩
    rw [hdir] at hlink
    cases hlink
  | file hfile =>
    refine ⟨_,[],rfl,h.into ?_⟩
    rintro ⟨target,hlink⟩
    rw [hfile] at hlink
    cases hlink
  | link todo hlink => exact ⟨p,_,rfl,h.follow hconfined hlink⟩
  | away todo hlink =>
    obtain ⟨steps,heq,_⟩ := hconfined _ _ _ hlink
    cases heq

/-- In a tree of contained links no path of names leads out. -/
theorem Confined.inside (hconfined : t.Confined) : t.Inside := by
  intro names w hreach
  have hall : ∃ p todo,w = (some p,todo) ∧ t.Contained p todo := by
    induction hreach with
    | refl => exact ⟨[],_,rfl,contained_names names⟩
    | tail _ hgoes ih =>
      obtain ⟨p,todo,rfl,hcontained⟩ := ih
      exact hcontained.goes hconfined hgoes
  obtain ⟨p,todo,rfl,_⟩ := hall
  simp

/-- The place a path leads to, if there is something at its end. -/
def find : Nat → FileTree ν → FilePlace ν → List (PathStep ν) → Option (FilePlace ν)
  | 0,_,_,_ => none
  | _ + 1,_,none,_ => some none
  | _ + 1,_,some p,[] => some (some p)
  | k + 1,t,some p,.up :: todo => if p = [] then some none else find k t (some p.dropLast) todo
  | k + 1,t,some p,.name n :: todo =>
    match t (p ++ [n]) with
    | some .dir => find k t (some (p ++ [n])) todo
    | some .file => if todo = [] then some (some (p ++ [n])) else none
    | some (.link (.relative steps)) => find k t (some p) (steps ++ todo)
    | some (.link .absolute) => some none
    | none => none

/-- A path of names that meets no link leads to no place outside. -/
theorem find_names (k : Nat) {names : List ν}
    (h : ∀ first,first ≠ [] → first <+: names → ¬ t.IsLink (p ++ first)) :
    find k t (some p) (names.map .name) ≠ some none := by
  induction k generalizing p names with
  | zero => simp [find]
  | succ k ih =>
    cases names with
    | nil => simp [find]
    | cons n names =>
      have hhere : ¬ t.IsLink (p ++ [n]) := h [n] (by simp) ⟨names,rfl⟩
      simp only [List.map_cons,find]
      cases hnode : t (p ++ [n]) with
      | none => simp
      | some found =>
        cases found with
        | dir =>
          dsimp only
          refine ih fun first hne hfirst => ?_
          rw [List.append_assoc]
          exact h (n :: first) (by simp) ((List.prefix_cons_inj n).mpr hfirst)
        | file =>
          dsimp only
          split <;> simp
        | link target => exact absurd ⟨target,hnode⟩ hhere

/-- A path through folders leads to its end. -/
theorem find_dirs (k : Nat) {names : List ν}
    (h : ∀ first,first ≠ [] → first <+: names → t (p ++ first) = some .dir) :
    find k t (some p) (names.map .name) = none ∨
      find k t (some p) (names.map .name) = some (some (p ++ names)) := by
  induction k generalizing p names with
  | zero => exact Or.inl rfl
  | succ k ih =>
    cases names with
    | nil => simp [find]
    | cons n names =>
      have hhere : t (p ++ [n]) = some .dir := h [n] (by simp) ⟨names,rfl⟩
      simp only [List.map_cons,find,hhere]
      have hnext : ∀ first,first ≠ [] → first <+: names → t (p ++ [n] ++ first) = some .dir := by
        intro first _ hfirst
        rw [List.append_assoc]
        exact h (n :: first) (by simp) ((List.prefix_cons_inj n).mpr hfirst)
      rcases ih hnext with hnone | hsome
      · exact Or.inl hnone
      · exact Or.inr (by rw [hsome,List.append_assoc]; rfl)

section
variable [DecidableEq ν]

def put (t : FileTree ν) (p : List ν) (node : FileNode ν) : FileTree ν :=
  Function.update t p (some node)

/-- Makes a node where a path leads, and the folders on the way that are missing. Links are
followed, for so many steps at most. With the tree come the places that were written to. -/
def create (node : FileNode ν) :
    Nat → FileTree ν → FilePlace ν → List (PathStep ν) → FileTree ν × List (FilePlace ν)
  | 0,t,_,_ => (t,[])
  | _ + 1,t,none,_ => (t,[none])
  | _ + 1,t,some _,[] => (t,[])
  | k + 1,t,some p,.up :: todo =>
    if p = [] then (t,[none]) else create node k t (some p.dropLast) todo
  | k + 1,t,some p,.name n :: todo =>
    match t (p ++ [n]) with
    | some .dir => create node k t (some (p ++ [n])) todo
    | some .file => if todo = [] then (t,[some (p ++ [n])]) else (t,[])
    | some (.link (.relative steps)) => create node k t (some p) (steps ++ todo)
    | some (.link .absolute) => (t,[none])
    | none =>
      if todo = [] then (t.put (p ++ [n]) node,[some (p ++ [n])])
      else
        let made := create node k (t.put (p ++ [n]) .dir) (some (p ++ [n])) todo
        (made.1,some (p ++ [n]) :: made.2)

theorem link_put {node : FileNode ν} {target : LinkTarget ν}
    (h : t.put p node q = some (.link target)) :
    t q = some (.link target) ∨ q = p ∧ node = .link target := by
  by_cases hq : q = p
  · subst hq
    rw [put,Function.update_self,Option.some.injEq] at h
    exact Or.inr ⟨rfl,h⟩
  · rw [put,Function.update_of_ne hq] at h
    exact Or.inl h

/-- A path of names that meets no link is made where it says, and no other link with it. -/
theorem create_names (node : FileNode ν) (k : Nat) {names : List ν}
    (h : ∀ first,first ≠ [] → first <+: names → ¬ t.IsLink (p ++ first)) :
    (∀ x ∈ (create node k t (some p) (names.map .name)).2,x ≠ none) ∧
    ∀ q target,(create node k t (some p) (names.map .name)).1 q = some (.link target) →
      t q = some (.link target) ∨ q = p ++ names ∧ node = .link target := by
  induction k generalizing t p names with
  | zero => exact ⟨by simp [create],fun q target hq => Or.inl hq⟩
  | succ k ih =>
    cases names with
    | nil => exact ⟨by simp [create],fun q target hq => Or.inl hq⟩
    | cons n names =>
      have hhere : ¬ t.IsLink (p ++ [n]) := h [n] (by simp) ⟨names,rfl⟩
      have hnext : ∀ first,first ≠ [] → first <+: names → ¬ t.IsLink (p ++ [n] ++ first) := by
        intro first _ hfirst
        rw [List.append_assoc]
        exact h (n :: first) (by simp) ((List.prefix_cons_inj n).mpr hfirst)
      simp only [List.map_cons,create]
      cases hnode : t (p ++ [n]) with
      | none =>
        dsimp only
        by_cases hlast : names = []
        · subst hlast
          simp only [List.map_nil,if_true]
          refine ⟨by simp,?_⟩
          intro q target hq
          exact link_put hq
        · have hmap : names.map PathStep.name ≠ [] := by simpa using hlast
          simp only [if_neg hmap]
          have hput : ∀ first,first ≠ [] → first <+: names →
              ¬ (t.put (p ++ [n]) .dir).IsLink (p ++ [n] ++ first) := by
            rintro first hne hfirst ⟨target,hlink⟩
            rcases link_put hlink with hlink | ⟨_,hdir⟩
            · exact hnext first hne hfirst ⟨target,hlink⟩
            · cases hdir
          obtain ⟨hplaces,hlinks⟩ := ih hput
          refine ⟨?_,?_⟩
          · intro x hx
            rcases List.mem_cons.mp hx with rfl | hx
            · simp
            · exact hplaces x hx
          · intro q target hq
            rcases hlinks q target hq with hq | ⟨rfl,hnode⟩
            · rcases link_put hq with hq | ⟨_,hdir⟩
              · exact Or.inl hq
              · cases hdir
            · exact Or.inr ⟨by simp,hnode⟩
      | some found =>
        cases found with
        | dir =>
          dsimp only
          obtain ⟨hplaces,hlinks⟩ := ih hnext
          refine ⟨hplaces,?_⟩
          intro q target hq
          rcases hlinks q target hq with hq | ⟨rfl,hnode⟩
          · exact Or.inl hq
          · exact Or.inr ⟨by simp,hnode⟩
        | file =>
          dsimp only
          split
          · exact ⟨by simp,fun q target hq => Or.inl hq⟩
          · exact ⟨by simp,fun q target hq => Or.inl hq⟩
        | link target => exact absurd ⟨target,hnode⟩ hhere

end
end FileTree
end Flagship.Lib

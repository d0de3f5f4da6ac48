import Flagship.Relay.Proofs.HandOver

namespace Flagship.Relay.Proofs
open Lib Allocator

theorem mem_promote_queue (set : SetEntry) (fq pc s p : Text) :
    p ∈ ((promote set fq pc).candidateQueue.get? s).getD [] ↔
      p ∈ (set.candidateQueue.get? s).getD [] ∨ s = fq ∧ p = pc := by
  simp only [promote,OrdMap.get?_set]
  by_cases hs : s = fq
  · subst hs
    simp only [↓reduceIte,Option.getD_some,List.mem_cons,List.mem_filter,bne_iff_ne,ne_eq,
      true_and]
    by_cases hp : p = pc <;> simp [hp]
  · simp [hs]

/-- The views after the last write of a transfer. -/
theorem promote_views (sets : Sets) (ks fq pc : Text) (set : SetEntry)
    (hg : sets.get? ks = some set) :
    (∀ x p, memberOf (sets.set ks (promote set fq pc)) x p ↔ memberOf sets x p) ∧
    (∀ x s p, p ∈ queueOf (sets.set ks (promote set fq pc)) x s ↔
      p ∈ queueOf sets x s ∨ x = ks ∧ s = fq ∧ p = pc) ∧
    (∀ x s, holderOf (sets.set ks (promote set fq pc)) x s =
      if x = ks ∧ s = fq then some pc else holderOf sets x s) := by
  have hself := OrdMap.get?_set_self sets ks (promote set fq pc)
  refine ⟨fun x p => ?_,fun x s p => ?_,fun x s => ?_⟩
  all_goals by_cases hx : x = ks
  · subst hx
    rw [memberOf_of_get hself,memberOf_of_get hg]
    rfl
  · exact (views_congr (OrdMap.get?_set_ne hx)).1 p
  · subst hx
    rw [queueOf_of_get hself,queueOf_of_get hg,mem_promote_queue]
    simp
  · rw [(views_congr (OrdMap.get?_set_ne hx)).2.2 s]
    simp [hx]
  · subst hx
    rw [holderOf_of_get hself,holderOf_of_get hg]
    simp [promote,OrdMap.get?_set]
  · rw [(views_congr (OrdMap.get?_set_ne hx)).2.1 s]
    simp [hx]

/-- The views after joining a set for an own-zone transfer. -/
theorem joinOwnZone_views (sets : Sets) (key : SetKey) (fq pc : Text) :
    let sets' := sets.set key.encode (enqueue (joinMembers (setEntry sets key) pc fq) fq pc)
    (∀ x p, memberOf sets' x p ↔ memberOf sets x p ∨ p = pc ∧ x = key.encode) ∧
    (∀ x s p, p ∈ queueOf sets' x s ↔
      p ∈ queueOf sets x s ∨ x = key.encode ∧ s = fq ∧ p = pc) ∧
    (∀ x s, holderOf sets' x s = holderOf sets x s) := by
  have hself := OrdMap.get?_set_self sets key.encode
    (enqueue (joinMembers (setEntry sets key) pc fq) fq pc)
  obtain ⟨hmem,hhold,hqueue⟩ := setEntry_views sets key
  refine ⟨fun x p => ?_,fun x s p => ?_,fun x s => ?_⟩
  all_goals by_cases hx : x = key.encode
  · subst hx
    rw [memberOf_of_get hself,enqueue_members,joinMembers_members,hmem p]
    simp [or_comm]
  · rw [(views_congr (OrdMap.get?_set_ne hx)).1 p]
    simp [hx]
  · subst hx
    rw [queueOf_of_get hself,mem_enqueue,joinMembers_candidateQueue,hqueue s]
    simp
  · rw [(views_congr (OrdMap.get?_set_ne hx)).2.2 s]
    simp [hx]
  · subst hx
    rw [holderOf_of_get hself,enqueue_slotHolders,joinMembers_slotHolders,hhold s]
  · exact (views_congr (OrdMap.get?_set_ne hx)).2.1 s

theorem get?_foldl_set (slots : List Text) (m : OrdMap Text Text) (pc s : Text) :
    (slots.foldl (fun m slot => m.set slot pc) m).get? s =
      if s ∈ slots then some pc else m.get? s := by
  induction slots generalizing m with
  | nil => simp
  | cons x xs ih =>
    rw [List.foldl_cons,ih,OrdMap.get?_set]
    by_cases hx : s = x <;> by_cases hm : s ∈ xs <;> simp [hx,hm]

variable [Lowercase]

/-- A pod is registered. -/
def Registered (a : Allocator) (p : Text) : Prop := a.pods.contains p = true

instance (a : Allocator) (p : Text) : Decidable (Registered a p) :=
  inferInstanceAs (Decidable (_ = true))

theorem registered_iff {a : Allocator} {p : Text} :
    Registered a p ↔ ∃ e, a.pods.get? p = some e := a.pods.contains_iff

/-- Every name a registration joins a set under: those it lists and those
derived from them. -/
def joinedNames (apex pc : Text) (canonicals : List Text) : List Text :=
  (orderedNames pc canonicals).keys ++ (derivableNames (orderedNames pc canonicals) apex).keys

theorem mem_orderedNames {pc n : Text} {canonicals : List Text} :
    n ∈ (orderedNames pc canonicals).keys ↔
      n = pc ∨ ∃ c ∈ canonicals, toLowercase c = n ∧ '*' ∉ n := by
  have hfold : ∀ (cs : List Text) (acc : OrdSet Text),
      n ∈ (cs.foldl (fun acc c =>
        let l := toLowercase c
        if l.contains '*' then acc else acc.push l) acc).keys ↔
      n ∈ acc.keys ∨ ∃ c ∈ cs, toLowercase c = n ∧ '*' ∉ n := by
    intro cs
    induction cs with
    | nil => simp
    | cons c cs ih =>
      intro acc
      rw [List.foldl_cons,ih]
      by_cases hc : (toLowercase c).contains '*' = true
      · simp only [hc,↓reduceIte,List.mem_cons,exists_eq_or_imp]
        have hne : ¬ (toLowercase c = n ∧ '*' ∉ n) := by
          rintro ⟨rfl,hn⟩
          exact hn (List.contains_iff_mem.mp hc)
        simp only [hne,false_or]
      · simp only [hc,Bool.false_eq_true,↓reduceIte,OrdMap.mem_keys_push,List.mem_cons,
          exists_eq_or_imp]
        have hstar : '*' ∉ toLowercase c := fun h => hc (List.contains_iff_mem.mpr h)
        constructor
        · rintro ((rfl | h) | h)
          · exact Or.inr (Or.inl ⟨rfl,hstar⟩)
          · exact Or.inl h
          · exact Or.inr (Or.inr h)
        · rintro (h | ⟨rfl,_⟩ | h)
          · exact Or.inl (Or.inr h)
          · exact Or.inl (Or.inl rfl)
          · exact Or.inr h
  simp only [orderedNames,OrdMap.mem_keys_push,hfold]
  simp [OrdMap.keys,EmptyCollection.emptyCollection,OrdMap.empty]

theorem mem_derivableNames {apex n : Text} {ordered : OrdSet Text} :
    n ∈ (derivableNames ordered apex).keys ↔
      ∃ c ∈ ordered.keys, n ∈ derivableShorteneds c apex := by
  have hfold : ∀ (cs : List Text) (acc : OrdSet Text),
      n ∈ (cs.foldl (fun acc c => (derivableShorteneds c apex).foldl OrdMap.push acc) acc).keys ↔
      n ∈ acc.keys ∨ ∃ c ∈ cs, n ∈ derivableShorteneds c apex := by
    intro cs
    induction cs with
    | nil => simp
    | cons c cs ih =>
      intro acc
      rw [List.foldl_cons,ih,OrdMap.mem_keys_foldl_push]
      simp only [List.mem_cons,exists_eq_or_imp]
      constructor
      · rintro ((h | h) | h)
        · exact Or.inr (Or.inl h)
        · exact Or.inl h
        · exact Or.inr (Or.inr h)
      · rintro (h | h | h)
        · exact Or.inl (Or.inr h)
        · exact Or.inl (Or.inl h)
        · exact Or.inr h
  simp only [derivableNames,hfold]
  simp [OrdMap.keys,EmptyCollection.emptyCollection,OrdMap.empty]

/-- The names reserved while a pod registers: every pod's own, its included. -/
def controlNames (a : Allocator) (pc : Text) : Finset Text := insert pc a.pods.keys.toFinset

theorem mem_controlNames {a : Allocator} {pc s : Text} :
    s ∈ controlNames a pc ↔ s = pc ∨ Registered a s := by
  simp [controlNames,Registered,OrdMap.contains_iff_mem]

/-- The loops of one registration. -/
def addLoop (a : Allocator) (pc : Text) (canonicals : List Text) (apps : Bool) : AddLoop :=
  addLoops a.sets a.apex pc (controlNames a pc) apps (orderedNames pc canonicals)

theorem addLoop_joined (a : Allocator) (pc : Text) (canonicals : List Text) (apps : Bool) :
    Joined a.apex pc (claimDerived (controlNames a pc) apps) (joinedNames a.apex pc canonicals)
      ⟨a.sets,∅,∅,[]⟩ (addLoop a pc canonicals apps) := by
  refine (foldl_joinSet_joined a.apex pc _ _ _).trans
    (foldl_joinSet_joined a.apex pc _ _ _) ?_ (fun _ _ h => h)
  intro s _ h
  simp only [claimCanonical,Bool.and_eq_true] at h
  simp only [claimDerived,Bool.and_eq_true]
  exact ⟨h.1.1.1,h.2⟩

/-- A registration: the pod's record is replaced, the sets are joined. -/
structure Added (a a' : Allocator) (pc : Text) (names : List Text) (apps : Bool) : Prop where
  record : ∃ e, a'.pods.get? pc = some e ∧
    (∀ f, f ∈ e.canonicals ∨ f ∈ e.derivable ↔ f ∈ names) ∧
    ∀ ks, ks ∈ e.setKeys.keys ↔ ∃ n ∈ names, setKeyOf a.apex n = some ks
  others : ∀ p, p ≠ pc → a'.pods.get? p = a.pods.get? p
  stopped : a'.appsStopped = stopFlag a.appsStopped pc apps
  apex : a'.apex = a.apex
  member : ∀ ks p, memberOf a'.sets ks p ↔
    memberOf a.sets ks p ∨ p = pc ∧ ∃ n ∈ names, setKeyOf a.apex n = some ks
  queue : ∀ ks s p, p ∈ queueOf a'.sets ks s ↔
    p ∈ queueOf a.sets ks s ∨ p = pc ∧ s ∈ names ∧ setKeyOf a.apex s = some ks
  keeps : ∀ ks s h, holderOf a.sets ks s = some h → holderOf a'.sets ks s = some h
  claims : ∀ ks s h, holderOf a'.sets ks s = some h → holderOf a.sets ks s = some h ∨
    h = pc ∧ apps = true ∧ s ≠ pc ∧ ¬ Registered a s ∧ s ∈ names ∧ setKeyOf a.apex s = some ks

theorem addPodServing_added (a : Allocator) (pod : Text) (canonicals : List Text) (nowMs : Nat)
    (apps : Bool) : Added a (a.addPodServing pod canonicals nowMs apps).1 (toLowercase pod)
      (joinedNames a.apex (toLowercase pod) canonicals) apps := by
  have hj := addLoop_joined a (toLowercase pod) canonicals apps
  constructor
  · refine ⟨_,OrdMap.get?_set_self _ _ _,?_,?_⟩
    · intro f
      simp [joinedNames]
    · intro ks
      refine (hj.keys ks).trans ?_
      simp [OrdMap.keys,EmptyCollection.emptyCollection,OrdMap.empty]
  · exact fun p hp => OrdMap.get?_set_ne hp
  · rfl
  · rfl
  · exact hj.member
  · exact hj.queue
  · exact hj.keeps
  · intro ks s h hh
    rcases hj.claims ks s h hh with hh | ⟨rfl,hc,hm,hk⟩
    · exact Or.inl hh
    · simp only [claimDerived,Bool.and_eq_true,decide_eq_true_eq,mem_controlNames,not_or] at hc
      exact Or.inr ⟨rfl,hc.1,hc.2.1,hc.2.2,hm,hk⟩

/-- A granted transfer of `fq` in the set `ks`, in the own-zone case or not. -/
structure Transferred (a a' : Allocator) (pc fq ks : Text) (own : Bool) : Prop where
  serving : pc ∉ a.appsStopped
  free : fq ≠ pc → ¬ Registered a fq
  key : setKeyOf a.apex fq = some ks
  record : ∃ e e', a.pods.get? pc = some e ∧ a'.pods.get? pc = some e' ∧
    e'.canonicals = e.canonicals ∧ e'.derivable = e.derivable ∧
    (∀ x, x ∈ e'.setKeys.keys ↔ x ∈ e.setKeys.keys ∨ own = true ∧ x = ks) ∧
    (own = false → fq ∈ e.canonicals ∨ fq ∈ e.derivable)
  zone : own = true → isShortServiceCanonical fq a.apex = true ∧
    userOf pc a.apex = userOf fq a.apex
  others : ∀ p, p ≠ pc → a'.pods.get? p = a.pods.get? p
  stopped : a'.appsStopped = a.appsStopped
  apex : a'.apex = a.apex
  member : ∀ x p, memberOf a'.sets x p ↔ memberOf a.sets x p ∨ own = true ∧ p = pc ∧ x = ks
  queue : ∀ x s p, p ∈ queueOf a'.sets x s ↔ p ∈ queueOf a.sets x s ∨ x = ks ∧ s = fq ∧ p = pc
  holder : ∀ x s, holderOf a'.sets x s = if x = ks ∧ s = fq then some pc else holderOf a.sets x s

theorem inOwnUserZone_spec {a : Allocator} {pc fq : Text} (h : a.inOwnUserZone pc fq = true) :
    isShortServiceCanonical fq a.apex = true ∧ userOf pc a.apex = userOf fq a.apex := by
  simp only [inOwnUserZone,Bool.and_eq_true] at h
  refine ⟨h.1,?_⟩
  have h2 := h.2
  split at h2
  · rename_i u v hu hv
    rw [hu,hv]
    simpa using h2
  · cases h2

/-- A transfer is refused without a trace, or granted. -/
theorem requestTransfer_cases (a : Allocator) (pod fqdn : Text) :
    ((a.requestTransfer pod fqdn).1 = a ∧ ∃ err, (a.requestTransfer pod fqdn).2 = .error err) ∨
    (∃ ks own, Transferred a (a.requestTransfer pod fqdn).1 (toLowercase pod) (toLowercase fqdn)
      ks own ∧ ∃ key, (a.requestTransfer pod fqdn).2 = .ok (key,holderOf a.sets ks (toLowercase fqdn))) := by
  unfold requestTransfer
  simp only
  generalize toLowercase pod = pc
  generalize toLowercase fqdn = fq
  cases hpod : a.pods.get? pc with
  | none => exact Or.inl ⟨rfl,_,rfl⟩
  | some e =>
    simp only
    by_cases hstop : pc ∈ a.appsStopped
    · rw [if_pos hstop]
      exact Or.inl ⟨rfl,_,rfl⟩
    rw [if_neg hstop]
    cases hkey : parseSetKey fq a.apex with
    | none => exact Or.inl ⟨rfl,_,rfl⟩
    | some key =>
      have hks : setKeyOf a.apex fq = some key.encode := by
        rw [setKeyOf,hkey]
        rfl
      simp only
      split
      · exact Or.inl ⟨rfl,_,rfl⟩
      rename_i hctl
      simp only [not_and,Bool.not_eq_true] at hctl
      have hfree : fq ≠ pc → ¬ Registered a fq := by
        intro hne hr
        rw [Registered,hctl hne] at hr
        cases hr
      cases hd : (decide (fq ∈ e.derivable) ||
          decide (fq ∈ e.canonicals)) with
      | true =>
        simp only [Bool.not_true,Bool.false_and,Bool.false_eq_true,↓reduceIte]
        cases hset : a.sets.get? key.encode with
        | none => exact Or.inl ⟨rfl,_,rfl⟩
        | some set =>
          obtain ⟨hm,hq,hh⟩ := promote_views a.sets key.encode fq
            pc set hset
          refine Or.inr ⟨key.encode,false,?_,key,by rw [holderOf_of_get hset]⟩
          refine ⟨hstop,hfree,hks,⟨e,e,hpod,hpod,rfl,rfl,by simp,?_⟩,by simp,fun _ _ => rfl,rfl,rfl,
            by simpa using hm,hq,hh⟩
          intro _
          simpa [or_comm] using hd
      | false =>
        simp only [Bool.not_false,Bool.true_and]
        cases hown : a.inOwnUserZone pc fq with
        | false => exact Or.inl ⟨rfl,_,rfl⟩
        | true =>
          simp only [Bool.not_true,Bool.false_eq_true,↓reduceIte]
          have hself := OrdMap.get?_set_self a.sets key.encode (enqueue (joinMembers
            (setEntry a.sets key) pc fq) fq
            pc)
          obtain ⟨hm,hq,hh⟩ := joinOwnZone_views a.sets key fq pc
          obtain ⟨hm',hq',hh'⟩ := promote_views _ key.encode fq
            pc _ hself
          have hj : (a.joinOwnZone pc fq key).sets = a.sets.set
            key.encode (enqueue (joinMembers (setEntry a.sets key) pc
              fq) fq pc) := rfl
          have hp : (a.joinOwnZone pc fq key).pods =
              a.pods.set pc { e with setKeys := e.setKeys.push key.encode } := by
            simp [joinOwnZone,hpod]
          rw [hj,hself]
          simp only
          refine Or.inr ⟨key.encode,true,?_,key,?_⟩
          · refine ⟨hstop,hfree,hks,⟨e,{ e with setKeys := e.setKeys.push key.encode },hpod,
                by simp [hp],rfl,rfl,?_,by simp⟩,
              fun _ => inOwnUserZone_spec hown,?_,rfl,rfl,?_,?_,?_⟩
            · intro x
              simp [OrdMap.mem_keys_push,or_comm]
            · intro p hne
              simp [hp,OrdMap.get?_set_ne hne]
            · intro x p
              rw [hm',hm]
              simp
            · intro x s p
              rw [hq',hq,or_assoc,or_self]
            · intro x s
              rw [hh',hh]
          · rw [← hh key.encode fq,holderOf_of_get hself]

/-- A removal or stop which took effect. -/
structure Released (a a' : Allocator) (pc : Text) (leaving : Bool) (e : PodEntry) : Prop where
  record : a.pods.get? pc = some e
  pods : ∀ p, a'.pods.get? p = if leaving = true ∧ p = pc then none else a.pods.get? p
  stopped : ∀ p, p ≠ pc → (p ∈ a'.appsStopped ↔ p ∈ a.appsStopped)
  stops : leaving = false → pc ∉ a.appsStopped ∧ pc ∈ a'.appsStopped
  apex : a'.apex = a.apex
  views : ∃ stopped, (∀ p, p ∈ stopped ↔ p ∈ a.appsStopped ∨ leaving = false ∧ p = pc) ∧
    GaveUp a.pods stopped pc leaving e.setKeys.keys a.sets a'.sets

/-- Giving up slots puts nobody into a set or a queue. -/
theorem Released.member {a a' : Allocator} {pc : Text} {leaving : Bool} {e : PodEntry}
    (h : Released a a' pc leaving e) {ks p : Text} (hm : memberOf a'.sets ks p) :
    memberOf a.sets ks p := by
  obtain ⟨_,_,g⟩ := h.views
  by_cases hks : ks ∈ e.setKeys.keys
  · exact ((g.member ks hks p).mp hm).1
  · exact ((views_congr (g.other ks hks)).1 p).mp hm

theorem Released.queue {a a' : Allocator} {pc : Text} {leaving : Bool} {e : PodEntry}
    (h : Released a a' pc leaving e) {ks s p : Text} (hq : p ∈ queueOf a'.sets ks s) :
    p ∈ queueOf a.sets ks s := by
  obtain ⟨_,_,g⟩ := h.views
  by_cases hks : ks ∈ e.setKeys.keys
  · exact (g.queue ks hks s p hq).1
  · rwa [(views_congr (g.other ks hks)).2.2 s] at hq

theorem removePod_cases (a : Allocator) (pod : Text) :
    ((a.removePod pod).1 = a ∧ ¬ Registered a (toLowercase pod) ∧
      (a.removePod pod).2.redistributed = []) ∨
    ∃ e, Released a (a.removePod pod).1 (toLowercase pod) true e := by
  unfold removePod
  simp only
  cases hpod : a.pods.get? (toLowercase pod) with
  | none =>
    refine Or.inl ⟨rfl,?_,rfl⟩
    rw [registered_iff,hpod]
    simp
  | some e =>
    refine Or.inr ⟨e,hpod,?_,?_,by simp,rfl,a.appsStopped,by simp,
      leave_gaveUp a.pods a.appsStopped (toLowercase pod) e.setKeys ⟨a.sets,∅,[]⟩⟩
    · intro p
      simp [OrdMap.get?_erase]
    · intro p hp
      simp [hp]

/-- A pod that takes back the free slots it waits for. -/
structure Resumed (a a' : Allocator) (pc : Text) (e : PodEntry) : Prop where
  record : a.pods.get? pc = some e
  pods : a'.pods = a.pods
  was : pc ∈ a.appsStopped
  stopped : a'.appsStopped = a.appsStopped.erase pc
  apex : a'.apex = a.apex
  member : ∀ ks p, memberOf a'.sets ks p ↔ memberOf a.sets ks p
  queue : ∀ ks s, queueOf a'.sets ks s = queueOf a.sets ks s
  claims : ∀ ks s h, holderOf a'.sets ks s = some h → holderOf a.sets ks s = some h ∨
    h = pc ∧ ks ∈ e.setKeys.keys ∧ ∃ set, a.sets.get? ks = some set ∧
      s ∈ freeSlots a.apex pc e.derivable set

theorem mem_freeSlots {apex pc s : Text} {derivable : Finset Text} {set : SetEntry}
    (h : s ∈ freeSlots apex pc derivable set) :
    s ≠ pc ∧ set.slotHolders.get? s = none ∧ pc ∈ (set.candidateQueue.get? s).getD [] := by
  rw [freeSlots,List.mem_insertionSort] at h
  obtain ⟨⟨slot,q⟩,hm,rfl⟩ := List.mem_map.mp h
  obtain ⟨hm,hc⟩ := List.mem_filter.mp hm
  simp only [Bool.and_eq_true,decide_eq_true_eq,Bool.not_eq_true',OrdMap.contains,
    Option.isSome_eq_false_iff,Option.isNone_iff_eq_none] at hc
  refine ⟨hc.1.1.1,hc.1.1.2,?_⟩
  rw [set.candidateQueue.mem_entries.mp hm]
  exact hc.1.2

/-- One set of a resume, on its own. -/
def resumeEntry (apex pc : Text) (derivable : Finset Text) (set : SetEntry) : SetEntry :=
  { set with
    slotHolders := (freeSlots apex pc derivable set).foldl (fun m slot => m.set slot pc)
      set.slotHolders }

theorem resumeInSet_get? (apex pc : Text) (derivable : Finset Text) (st : GiveUpLoop)
    (ks x : Text) : (resumeInSet apex pc derivable st ks).sets.get? x =
      if x = ks then (st.sets.get? x).bind (fun set => some (resumeEntry apex pc derivable set))
      else st.sets.get? x := by
  unfold resumeInSet
  cases hg : st.sets.get? ks with
  | none => by_cases hx : x = ks <;> simp [hx,hg]
  | some set =>
    by_cases hx : x = ks
    · subst hx
      simp [hg,resumeEntry]
    · simp only [hx,↓reduceIte]
      exact OrdMap.get?_set_ne hx

/-- A serving decision changes nothing, stops the pod or resumes it. -/
theorem setAppsAllowed_cases (a : Allocator) (pod : Text) (allowed : Bool) :
    ((a.setAppsAllowed pod allowed).1 = a ∧ (a.setAppsAllowed pod allowed).2.redistributed = [] ∧
      (Registered a (toLowercase pod) → (toLowercase pod ∈ a.appsStopped ↔ allowed = false))) ∨
    (allowed = false ∧ ∃ e, Released a (a.setAppsAllowed pod allowed).1 (toLowercase pod) false e) ∨
    (allowed = true ∧ ∃ e, Resumed a (a.setAppsAllowed pod allowed).1 (toLowercase pod) e) := by
  unfold setAppsAllowed
  simp only
  cases hpod : a.pods.get? (toLowercase pod) with
  | none =>
    refine Or.inl ⟨rfl,rfl,?_⟩
    rw [registered_iff,hpod]
    simp
  | some e =>
    simp only
    by_cases hsame : allowed ≠ decide (toLowercase pod ∈ a.appsStopped)
    · rw [if_pos hsame]
      refine Or.inl ⟨rfl,rfl,fun _ => ?_⟩
      cases allowed <;> simp_all
    · rw [if_neg hsame]
      simp only [ne_eq,not_not] at hsame
      cases allowed with
      | false =>
        have hnot : toLowercase pod ∉ a.appsStopped := by
          intro h
          simp [h] at hsame
        refine Or.inr (Or.inl ⟨rfl,e,hpod,by simp,?_,?_,rfl,_,?_,
          stop_gaveUp a.pods _ (toLowercase pod) e.setKeys ⟨a.sets,∅,[]⟩⟩)
        · intro p hp
          simp [stopFlag,hp]
        · exact fun _ => ⟨hnot,by simp [stopFlag]⟩
        · intro p
          simp [stopFlag,or_comm]
      | true =>
        have hin : toLowercase pod ∈ a.appsStopped := by simpa using hsame.symm
        have hget := foldl_get? (resumeInSet_get? a.apex (toLowercase pod) e.derivable)
          e.setKeys.keys_nodup ⟨a.sets,∅,[]⟩
        rw [if_pos (rfl : true = true)]
        generalize e.setKeys.keys.foldl (resumeInSet a.apex (toLowercase pod) e.derivable)
          ⟨a.sets,∅,[]⟩ = loop at hget ⊢
        -- a set is left as it was, or is one of the pod's own sets with its free slots taken
        have hk : ∀ ks, loop.sets.get? ks = a.sets.get? ks ∨ ∃ set, ks ∈ e.setKeys.keys ∧
            a.sets.get? ks = some set ∧ loop.sets.get? ks =
              some (resumeEntry a.apex (toLowercase pod) e.derivable set) := by
          intro ks
          have hks := hget ks
          split at hks
          · rename_i hm
            cases hg : a.sets.get? ks with
            | none => exact Or.inl (by simpa [hg] using hks)
            | some set => exact Or.inr ⟨set,hm,rfl,by simpa [hg] using hks⟩
          · exact Or.inl hks
        refine Or.inr (Or.inr ⟨rfl,e,hpod,rfl,hin,by simp [stopFlag],rfl,?_,?_,?_⟩)
        · intro ks p
          rcases hk ks with h | ⟨set,_,hg,hl⟩
          · exact (views_congr h).1 p
          · exact (memberOf_of_get hl).trans (memberOf_of_get hg).symm
        · intro ks s
          rcases hk ks with h | ⟨set,_,hg,hl⟩
          · exact (views_congr h).2.2 s
          · exact (queueOf_of_get hl).trans (queueOf_of_get hg).symm
        · intro ks s h hh
          rcases hk ks with hs | ⟨set,hm,hg,hl⟩
          · exact Or.inl (((views_congr hs).2.1 s).symm.trans hh)
          · rw [holderOf_of_get hg]
            replace hh := (holderOf_of_get hl).symm.trans hh
            simp only [resumeEntry,get?_foldl_set] at hh
            split at hh
            · rename_i hf
              exact Or.inr ⟨(Option.some.inj hh).symm,hm,set,hg,hf⟩
            · exact Or.inl hh

/-- Where a reported hand-over comes from: a slot the leaving pod held in one of
its own sets, handed to the heir chosen there. -/
structure Reported (a : Allocator) (r : Redistributed) (pc : Text) (leaving : Bool)
    (stopped : Finset Text) (ks : Text) (set : SetEntry) : Prop where
  record : ∃ e, a.pods.get? pc = some e ∧ ks ∈ e.setKeys.keys
  stops : ∀ p, p ∈ stopped ↔ p ∈ a.appsStopped ∨ leaving = false ∧ p = pc
  found : a.sets.get? ks = some set
  held : set.slotHolders.get? r.fqdn = some pc
  heir : r.heir = pickHeir a.pods stopped (heirSet leaving pc set) r.fqdn

theorem redistributed_reported {a : Allocator} {op : Op} {r : Redistributed}
    (h : r ∈ a.redistributed op) :
    ∃ pc leaving stopped ks set, Reported a r pc leaving stopped ks set := by
  cases op with
  | addPodServing | requestTransfer => cases h
  | removePod pod =>
    simp only [redistributed,removePod] at h
    cases hpod : a.pods.get? (toLowercase pod) with
    | none => simp [hpod] at h
    | some e =>
      simp only [hpod] at h
      rcases foldl_reported (g := leaveEntry a.pods a.appsStopped (toLowercase pod))
        (fun set => (handOver a.pods a.appsStopped (toLowercase pod)
          (forgetPod set (toLowercase pod)) (heldSlots (forgetPod set (toLowercase pod))
            (toLowercase pod))).2)
        (leaveSet_get? a.pods a.appsStopped (toLowercase pod)) (by
          intro st ks
          unfold leaveSet
          cases st.sets.get? ks <;> simp) e.setKeys.keys_nodup _ h with h | ⟨ks,hm,set,hg,h⟩
      · cases h
      · obtain ⟨hheld,hheir⟩ := reported_of_handOver set
          (forgetPod set (toLowercase pod)) rfl h
        exact ⟨toLowercase pod,true,a.appsStopped,ks,set,⟨e,hpod,hm⟩,by simp,hg,hheld,hheir⟩
  | setAppsAllowed pod allowed =>
    simp only [redistributed,setAppsAllowed] at h
    cases hpod : a.pods.get? (toLowercase pod) with
    | none => simp [hpod] at h
    | some e =>
      simp only [hpod] at h
      split at h
      · cases h
      cases allowed with
      | false =>
        rcases foldl_reported (g := stopEntry a.pods
            (stopFlag a.appsStopped (toLowercase pod) false) (toLowercase pod))
          (fun set => (handOver a.pods (stopFlag a.appsStopped (toLowercase pod) false)
            (toLowercase pod) set (heldSlots set (toLowercase pod))).2)
          (stopInSet_get? a.pods _ (toLowercase pod)) (by
            intro st ks
            unfold stopInSet
            cases st.sets.get? ks <;> simp) e.setKeys.keys_nodup _ h with h | ⟨ks,hm,set,hg,h⟩
        · cases h
        · obtain ⟨hheld,hheir⟩ := reported_of_handOver set set rfl h
          refine ⟨toLowercase pod,false,_,ks,set,⟨e,hpod,hm⟩,?_,hg,hheld,hheir⟩
          intro p
          simp [stopFlag,or_comm]
      | true =>
        -- a resume reports nothing
        have hnil : ∀ (keys : List Text) (st : GiveUpLoop), (keys.foldl
            (resumeInSet a.apex (toLowercase pod) e.derivable) st).redistributed =
            st.redistributed := by
          intro keys
          induction keys with
          | nil => exact fun _ => rfl
          | cons k ks ih =>
            intro st
            rw [List.foldl_cons,ih]
            unfold resumeInSet
            cases st.sets.get? k <;> rfl
        rw [if_pos (rfl : true = true),hnil] at h
        cases h

end Flagship.Relay.Proofs

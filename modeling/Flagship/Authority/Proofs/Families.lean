import Flagship.Authority.GrantIndex

namespace Flagship.Authority.GrantIndex
open Lib

variable {index : GrantIndex} {time : Int} {id : Text}

/-- A walk that found every one of some parents in order had found them one by one. -/
theorem walk_parents {fuel : Nat} {parents : List Text} {acc : Bool × List Text}
    (h : (parents.foldl
      (fun acc parent => if acc.1 then walk index time fuel acc.2 parent else acc) acc).1 = true) :
    acc.1 = true ∧ ∀ p ∈ parents,∃ seen,(walk index time fuel seen p).1 = true := by
  induction parents generalizing acc with
  | nil => exact ⟨h,by simp⟩
  | cons p parents ih =>
    obtain ⟨hhead,hrest⟩ := ih h
    dsimp only at hhead
    split at hhead
    next hacc =>
      refine ⟨hacc,?_⟩
      intro q hq
      rcases List.mem_cons.mp hq with rfl | hq
      · exact ⟨acc.2,hhead⟩
      · exact hrest q hq
    next hacc => exact absurd hhead hacc

/-- What a walk finds live is live with all its ancestors. -/
theorem stands_of_walk {fuel : Nat} {seen : List Text}
    (h : (walk index time fuel seen id).1 = true) {a : Text} (ha : index.Derives id a) :
    index.Stands time a := by
  induction fuel generalizing seen id with
  | zero => simp [walk] at h
  | succ fuel ih =>
    simp only [walk] at h
    split at h
    · cases h
    · split at h
      · cases h
      next g hg =>
        split at h
        · cases h
        next hrevoked =>
          split at h
          · cases h
          next hexpired =>
            obtain ⟨_,hparents⟩ := walk_parents h
            rcases Relation.ReflTransGen.cases_head ha with rfl | ⟨p,⟨g',hg',hp⟩,hrest⟩
            · refine ⟨g,hg,by simpa using hrevoked,?_⟩
              intro e he
              simp only [Option.any_eq_true,decide_eq_true_eq,not_exists,not_and] at hexpired
              exact Int.not_le.mp (hexpired e he)
            · rw [hg] at hg'
              cases hg'
              obtain ⟨seen',hseen'⟩ := hparents p hp
              exact ih hseen' hrest

theorem stands_of_isLive (h : index.isLive id time = true) {a : Text} (ha : index.Derives id a) :
    index.Stands time a := by
  simp only [isLive,Bool.and_eq_true] at h
  exact stands_of_walk h.2 ha

theorem Sound.get? (h : index.Sound) {object : Nat} (hid : index.grants.get? id = some object) :
    ∃ g,index.get? id = some g ∧ index.objects[object]? = some g ∧ g.id = id := by
  obtain ⟨g,hg,hgid⟩ := h id object hid
  exact ⟨g,by rw [GrantIndex.get?,hid]; exact hg,hg,hgid⟩

theorem Sound.id_of_get? (h : index.Sound) {g : Grant} (hg : index.get? id = some g) :
    g.id = id := by
  obtain ⟨object,hobject,hg'⟩ := Option.bind_eq_some_iff.mp hg
  obtain ⟨g'',hg'',hid⟩ := h id object hobject
  rw [hg'] at hg''
  cases hg''
  exact hid

theorem Sound.mem_values (h : index.Sound) {g : Grant} :
    g ∈ index.values ↔ index.get? g.id = some g := by
  constructor
  · intro hg
    obtain ⟨⟨id,object⟩,hentry,hobject⟩ := List.mem_filterMap.mp hg
    have hid := index.grants.mem_entries.mp hentry
    obtain ⟨g',hget,hg',hgid⟩ := h.get? hid
    rw [hobject] at hg'
    cases hg'
    rw [hgid]
    exact hget
  · intro hg
    obtain ⟨object,hobject,hg'⟩ := Option.bind_eq_some_iff.mp hg
    exact List.mem_filterMap.mpr ⟨(g.id,object),index.grants.mem_entries.mpr hobject,hg'⟩

theorem get?_put (hsound : index.Sound) (g : Grant) (a : Text) :
    (index.put g).get? a = if a = g.id then some g else index.get? a := by
  simp only [GrantIndex.get?,put,OrdMap.get?_set]
  split
  · simp
  · cases hobject : index.grants.get? a with
    | none => rfl
    | some object =>
      obtain ⟨g',hg',_⟩ := hsound a object hobject
      have hlt := (List.getElem?_eq_some_iff.mp hg').1
      exact List.getElem?_append_left hlt

theorem Sound.put (hsound : index.Sound) (g : Grant) : (index.put g).Sound := by
  intro a object hobject
  simp only [GrantIndex.put,OrdMap.get?_set] at hobject ⊢
  split at hobject
  next heq =>
    cases hobject
    exact ⟨g,by simp,heq.symm⟩
  next =>
    obtain ⟨g',hg',hid⟩ := hsound a object hobject
    have hlt := (List.getElem?_eq_some_iff.mp hg').1
    exact ⟨g',(List.getElem?_append_left hlt).trans hg',hid⟩

theorem sound_ofFile (file : GrantsFile) : (ofFile file).Sound := by
  suffices hfold : ∀ (gs : List Grant) (index : GrantIndex),index.Sound →
      (gs.foldl GrantIndex.put index).Sound from
    hfold file.grants _ fun a object hobject => by simp [GrantIndex.empty] at hobject
  intro gs
  induction gs with
  | nil => exact fun index h => h
  | cons g gs ih => exact fun index h => ih _ (h.put g)

/-- A grant that `issue` may put in the index. -/
structure Admits (index : GrantIndex) (g : Grant) : Prop where
  fresh : index.grants.contains g.id = false
  unrevoked : g.revokedAt = none
  checked : ∃ e,checkParents index g.secretAccess g.issuedAt g.parents e = .ok g.expiresAt

theorem admits_of_newGrant {input : NewGrant} {grant : Grant}
    (h : newGrant index input = .ok grant) : index.Admits grant := by
  unfold newGrant at h
  split at h
  · cases h
  · split at h
    · cases h
    · split at h
      · cases h
      · split at h
        · cases h
        next hnew =>
          split at h
          · cases h
          next expiresAt hparents =>
            cases h
            exact ⟨Bool.eq_false_of_not_eq_true hnew,rfl,input.expiresAt,hparents⟩

theorem Admits.get? {g : Grant} (h : index.Admits g) : index.get? g.id = none := by
  cases hobject : index.grants.get? g.id with
  | none => simp only [GrantIndex.get?,hobject,Option.bind_none]
  | some object =>
    have hknown := (OrdMap.contains_iff index.grants).mpr ⟨object,hobject⟩
    rw [h.fresh] at hknown
    cases hknown

/-- What a change in place makes of a grant. -/
theorem get?_change (index : GrantIndex) (objects : List Nat) (f : Grant → Grant) {a : Text}
    {object : Nat} (hobject : index.grants.get? a = some object) :
    (index.change objects f).get? a =
      (index.objects[object]?).map fun g => if objects.contains object then f g else g := by
  simp only [GrantIndex.get?,change,hobject,Option.bind_some,List.getElem?_mapIdx]

theorem Sound.change (hsound : index.Sound) (objects : List Nat) {f : Grant → Grant}
    (hf : ∀ g,(f g).id = g.id) : (index.change objects f).Sound := by
  intro a object hobject
  obtain ⟨g,hg,hid⟩ := hsound a object hobject
  refine ⟨if objects.contains object then f g else g,?_,?_⟩
  · simp only [GrantIndex.change,List.getElem?_mapIdx,hg,Option.map_some]
  · split
    · exact (hf g).trans hid
    · exact hid

theorem revokedBy_id (id reason : Text) (time : Int) (g : Grant) :
    (revokedBy id reason time g).id = g.id := rfl

/-- The object of the grant asked for is changed, if it is not revoked yet. -/
theorem affected_self {object : Nat} {g : Grant} (hobject : index.grants.get? id = some object)
    (hg : index.objects[object]? = some g) (hlive : g.revokedAt = none) :
    object ∈ index.affected id := by
  rw [affected,hobject]
  refine List.mem_filter.mpr ⟨List.mem_cons_self,?_⟩
  simp [hg,hlive]

theorem revokes_eq {reason : Text} :
    ((((index.affected id).filterMap fun object => index.objects[object]?).map
      (revokedBy id reason time)).map (·.id)) = index.revokes id := by
  rw [revokes,List.map_map]
  rfl

theorem Sound.afterRevoke (hsound : index.Sound) (id reason : Text) (time : Int) :
    (index.afterRevoke id reason time).Sound :=
  hsound.change (index.affected id) (revokedBy_id id reason time)

/-- What is revoked stays so in the index a revocation leaves. -/
theorem revoked_afterRevoke {a reason : Text} (h : index.Revoked a) :
    (index.afterRevoke id reason time).Revoked a := by
  obtain ⟨g,hg,hrevoked⟩ := h
  obtain ⟨object,hobject,hg'⟩ := Option.bind_eq_some_iff.mp hg
  refine ⟨_,(get?_change _ _ _ hobject).trans (by rw [hg']; rfl),?_⟩
  split
  · rfl
  · exact hrevoked

/-- The grant asked for is revoked then, if it is known. -/
theorem revoked_self {reason : Text} (hsound : index.Sound)
    (hcontains : index.grants.contains id = true) :
    (index.afterRevoke id reason time).Revoked id := by
  obtain ⟨object,hobject⟩ := (OrdMap.contains_iff _).mp hcontains
  obtain ⟨g,_,hg,_⟩ := hsound.get? hobject
  refine ⟨_,(get?_change _ _ _ hobject).trans (by rw [hg]; rfl),?_⟩
  split
  · rfl
  next hnot =>
    cases hrevoked : g.revokedAt with
    | some _ => rfl
    | none => exact absurd (List.contains_iff_mem.mpr (affected_self hobject hg hrevoked)) hnot

/-- Where a revocation finds nothing to revoke, the grant is revoked already. -/
theorem revoked_of_empty {reason : Text} (hsound : index.Sound)
    (hempty : (((index.affected id).filterMap fun object => index.objects[object]?).map
      (revokedBy id reason time)).isEmpty = true)
    (hcontains : index.grants.contains id = true) : index.Revoked id := by
  obtain ⟨object,hobject⟩ := (OrdMap.contains_iff _).mp hcontains
  obtain ⟨g,hget,hg,_⟩ := hsound.get? hobject
  refine ⟨g,hget,?_⟩
  cases hrevoked : g.revokedAt with
  | some _ => rfl
  | none =>
    have hmem := affected_self hobject hg hrevoked
    rw [List.isEmpty_iff,List.map_eq_nil_iff,List.filterMap_eq_nil_iff] at hempty
    rw [hempty object hmem] at hg
    cases hg

/-- What the search is to find, where it has come this far: nothing below a grant
that is not in the queue any more is missing. -/
structure Searching (index : GrantIndex) (root : Text) (queue seen : List Text)
    (out : List Grant) : Prop where
  start : root ∈ seen
  waiting : ∀ a ∈ queue,a ∈ seen
  closed : ∀ a ∈ seen,a ∉ queue → ∀ child,index.Below child a → child ∈ seen
  reported : ∀ a ∈ seen,a = root ∨ ∃ g ∈ out,g.id = a
  known : ∀ g ∈ out,g ∈ index.values

/-- A search with nothing left in its queue has found all there is. -/
theorem Searching.done {root : Text} {seen : List Text} {out : List Grant}
    (h : Searching index root [] seen out) :
    (∀ a,index.Derives a root → a = root ∨ ∃ g ∈ out,g.id = a) ∧ ∀ g ∈ out,g ∈ index.values := by
  refine ⟨?_,h.known⟩
  intro a ha
  refine h.reported a ?_
  induction ha using Relation.ReflTransGen.head_induction_on with
  | refl => exact h.start
  | head hbelow _ ih => exact h.closed _ ih (by simp) _ hbelow

theorem Searching.next {root cur : Text} {queue seen : List Text} {out : List Grant}
    (hsound : index.Sound) (h : Searching index root (cur :: queue) seen out) {found : List Grant}
    (hfound : found = index.values.filter fun g => !seen.contains g.id && g.parents.contains cur) :
    Searching index root (queue ++ found.map (·.id)) (seen ++ found.map (·.id)) (out ++ found) := by
  refine ⟨List.mem_append_left _ h.start,?_,?_,?_,?_⟩
  · intro a ha
    rcases List.mem_append.mp ha with ha | ha
    · exact List.mem_append_left _ (h.waiting a (List.mem_cons_of_mem _ ha))
    · exact List.mem_append_right _ ha
  · intro a ha hnot child hchild
    rw [List.mem_append,not_or] at hnot
    rcases List.mem_append.mp ha with ha | ha
    · by_cases hcur : a = cur
      · subst hcur
        obtain ⟨g,hg,hparent⟩ := hchild
        have hid := hsound.id_of_get? hg
        by_cases hseen : child ∈ seen
        · exact List.mem_append_left _ hseen
        · refine List.mem_append_right _ (List.mem_map.mpr ⟨g,?_,hid⟩)
          rw [hfound]
          refine List.mem_filter.mpr ⟨hsound.mem_values.mpr (hid.symm ▸ hg),?_⟩
          simp [hid,hseen,hparent]
      · refine List.mem_append_left _ (h.closed a ha ?_ child hchild)
        simp [hcur,hnot.1]
    · exact absurd ha hnot.2
  · intro a ha
    rcases List.mem_append.mp ha with ha | ha
    · rcases h.reported a ha with hroot | ⟨g,hg,hid⟩
      · exact Or.inl hroot
      · exact Or.inr ⟨g,List.mem_append_left _ hg,hid⟩
    · obtain ⟨g,hg,hid⟩ := List.mem_map.mp ha
      exact Or.inr ⟨g,List.mem_append_right _ hg,hid⟩
  · intro g hg
    rcases List.mem_append.mp hg with hg | hg
    · exact h.known g hg
    · rw [hfound] at hg
      exact List.mem_of_mem_filter hg

theorem length_filter_split {α : Type} {p q r : α → Bool} {l : List α}
    (h : ∀ a ∈ l,r a = true → p a = true ∧ q a = false) :
    (l.filter r).length + (l.filter fun a => p a && q a).length ≤ (l.filter p).length := by
  induction l with
  | nil => simp
  | cons a l ih =>
    have hrest := ih fun b hb => h b (List.mem_cons_of_mem _ hb)
    have ha := h a (by simp)
    cases hr : r a <;> cases hp : p a <;> cases hq : q a <;> simp_all <;> omega

/-- What was found is not to be found again. -/
theorem length_unseen {values found : List Grant} {seen : List Text} {cur : Text}
    (hfound : found = values.filter fun g => !seen.contains g.id && g.parents.contains cur) :
    (values.filter fun g => !(seen ++ found.map (·.id)).contains g.id).length + found.length ≤
      (values.filter fun g => !seen.contains g.id).length := by
  have hsplit := length_filter_split (l := values) (p := fun g => !seen.contains g.id)
    (q := fun g => g.parents.contains cur)
    (r := fun g => !(seen ++ found.map (·.id)).contains g.id) ?_
  · rw [← hfound] at hsplit
    exact hsplit
  · intro g hg hunseen
    rw [Bool.not_eq_true',← Bool.not_eq_true,List.contains_iff_mem,List.mem_append,
      not_or] at hunseen
    obtain ⟨hseen,hnew⟩ := hunseen
    refine ⟨by simpa using hseen,?_⟩
    rw [← Bool.not_eq_true,List.contains_iff_mem]
    intro hparent
    refine hnew (List.mem_map.mpr ⟨g,?_,rfl⟩)
    rw [hfound]
    exact List.mem_filter.mpr ⟨hg,by simp [hseen,hparent]⟩

/-- The search ends with all that is below the root. -/
theorem search_complete {root : Text} (hsound : index.Sound) (fuel : Nat) (queue seen : List Text)
    (out : List Grant) (h : Searching index root queue seen out)
    (hfuel : (index.values.filter fun g => !seen.contains g.id).length + queue.length ≤ fuel) :
    (∀ a,index.Derives a root → a = root ∨ ∃ g ∈ index.search fuel queue seen out,g.id = a) ∧
      ∀ g ∈ index.search fuel queue seen out,g ∈ index.values := by
  induction fuel generalizing queue seen out with
  | zero =>
    have hqueue : queue = [] := List.eq_nil_of_length_eq_zero (by omega)
    subst hqueue
    exact h.done
  | succ fuel ih =>
    cases queue with
    | nil => exact h.done
    | cons cur queue =>
      have hless := @length_unseen index.values _ seen cur rfl
      refine ih _ _ _ (h.next hsound rfl) ?_
      simp only [List.length_append,List.length_map,List.length_cons] at hfuel ⊢
      omega

theorem searching_root (index : GrantIndex) (id : Text) :
    Searching index id [id] [id] [] := by
  refine ⟨by simp,by simp,?_,by simp,by simp⟩
  intro a ha hnot
  exact absurd ha hnot

/-- Every grant that derives from another is one of its descendants, and these are
grants of the index. -/
theorem descendants_complete (hsound : index.Sound) :
    (∀ a,index.Derives a id → a = id ∨ ∃ g ∈ index.descendants id,g.id = a) ∧
      ∀ g ∈ index.descendants id,g ∈ index.values := by
  refine search_complete hsound _ _ _ _ (searching_root index id) ?_
  have hvalues : index.values.length ≤ index.grants.size := List.length_filterMap_le _ _
  have hfilter := List.length_filter_le (fun g : Grant => !([id] : List Text).contains g.id)
    index.values
  simp only [List.length_singleton]
  omega

theorem mem_family (hsound : index.Sound) {a : Text} (ha : index.Derives a id) :
    a ∈ index.family id := by
  rcases (descendants_complete hsound).1 a ha with rfl | ⟨g,hg,rfl⟩
  · exact List.mem_cons_self
  · exact List.mem_cons_of_mem _ (List.mem_map_of_mem hg)

end Flagship.Authority.GrantIndex

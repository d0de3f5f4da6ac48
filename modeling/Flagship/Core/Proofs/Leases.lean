import Flagship.Core.Endpoints
import Flagship.Lib.Lists

namespace Flagship.Core
open Lib

/-- A thread that binds has not given its hook to the lease yet. -/
def Stage.early (lease : Nat) (s : Stage) : Prop := s = .check lease ∨ s = .push lease

/-- It has, and looks again whether the lease is still good. -/
def Stage.late (lease : Nat) (s : Stage) : Prop := s = .recheck lease ∨ s = .take lease

/-- The thread is about to take the hooks of a lease that is done with. -/
def Stage.takes (lease : Nat) (s : Stage) : Prop :=
  s = .take lease ∨ ∃ todo,s = .cancelTake lease todo

/-- What the hooks of the leases have come to: each is with one lease, has run once, or
was given up when its lease was released. -/
structure HooksKept (w : Threads) : Prop where
  /-- A thread that binds stands at its own lease. -/
  shape : ∀ (h : Nat) lease s,w.threads[h]? = some (.bind lease,s) →
    lease < w.table.issued.length ∧ (s.early lease ∨ s.late lease ∨ ∃ r,s = .ended r)
  only : ∀ (i : Nat) c s lease,w.threads[i]? = some (c,s) → s.early lease ∨ s.late lease →
    c = .bind lease
  early : ∀ (h : Nat) lease s,w.threads[h]? = some (.bind lease,s) → s.early lease →
    h ∉ w.table.ran ∧ ∀ (a : Nat) l,w.table.issued[a]? = some l → h ∉ l.hooks
  late : ∀ (h : Nat) lease s l,w.threads[h]? = some (.bind lease,s) → s.late lease →
    w.table.issued[lease]? = some l → h ∈ w.table.ran ∨ h ∈ l.hooks ∨ l.released = true
  ended : ∀ (h : Nat) lease r l,w.threads[h]? = some (.bind lease,.ended r) →
    w.table.issued[lease]? = some l →
    h ∈ w.table.ran ∨ h ∈ l.hooks ∧ l.drained = false ∨ l.released = true
  swaps : ∀ (i : Nat) c lease,w.threads[i]? = some (c,.swap lease) →
    lease < w.table.issued.length
  taken : ∀ (i : Nat) c s lease,w.threads[i]? = some (c,s) → s.takes lease →
    ∃ l,w.table.issued[lease]? = some l ∧ l.done = true
  cleared : ∀ (i : Nat) c s lease,w.threads[i]? = some (c,s) →
    s = .clear lease ∨ s = .unregister lease →
    ∃ l,w.table.issued[lease]? = some l ∧ l.released = true
  ran : ∀ h ∈ w.table.ran,∃ lease s l,w.threads[h]? = some (.bind lease,s) ∧
    w.table.issued[lease]? = some l ∧ l.done = true
  hooks : ∀ (a : Nat) l h,w.table.issued[a]? = some l → h ∈ l.hooks →
    h ∉ w.table.ran ∧ ∃ s,w.threads[h]? = some (.bind a,s)
  once : w.table.ran.Nodup
  each : ∀ (a : Nat) l,w.table.issued[a]? = some l → l.hooks.Nodup
  drained : ∀ (a : Nat) l,w.table.issued[a]? = some l → l.drained = true → l.done = true

section
variable {w : Threads} {i lease : Nat} {c : EndpointCall} {t : EndpointTable} {stage next : Stage}

theorem getElem?_modifyLease (t : EndpointTable) (a b : Nat) (f : Lease → Lease) :
    (t.modifyLease a f).issued[b]? = if a = b then t.issued[b]?.map f else t.issued[b]? := by
  rw [EndpointTable.modifyLease,List.getElem?_modify]
  split
  · rfl
  · exact Option.map_id' ..

@[simp] theorem length_modifyLease (t : EndpointTable) (a : Nat) (f : Lease → Lease) :
    (t.modifyLease a f).issued.length = t.issued.length := List.length_modify ..

@[simp] theorem ran_modifyLease (t : EndpointTable) (a : Nat) (f : Lease → Lease) :
    (t.modifyLease a f).ran = t.ran := rfl

/-- A step of a thread that leaves all hooks, and what says whether they run, alone. -/
theorem HooksKept.frame (h : HooksKept w) (hi : w.threads[i]? = some (c,stage))
    (hran : t.ran = w.table.ran) (hlen : w.table.issued.length ≤ t.issued.length)
    (hold : ∀ (a : Nat) l,w.table.issued[a]? = some l → ∃ l',t.issued[a]? = some l' ∧
      l'.done = l.done ∧ l'.hooks = l.hooks ∧ l'.released = l.released ∧ l'.drained = l.drained)
    (hnew : ∀ (a : Nat) l',t.issued[a]? = some l' →
      a = w.table.issued.length ∧ l'.hooks = [] ∧ l'.drained = false ∨
      ∃ l,w.table.issued[a]? = some l ∧ l'.done = l.done ∧
        l'.hooks = l.hooks ∧ l'.released = l.released ∧ l'.drained = l.drained)
    (hcall : ∀ lease,c ≠ .bind lease)
    (hnext : ∀ lease,¬ next.early lease ∧ ¬ next.late lease ∧ ¬ next.takes lease ∧
      next ≠ .clear lease ∧ next ≠ .unregister lease ∧ next ≠ .swap lease) :
    HooksKept ⟨t,w.threads.set i (c,next)⟩ := by
  have hlt := (List.getElem?_eq_some_iff.mp hi).1
  obtain ⟨shape,only,early,late,ended,swaps,taken,cleared,ran,hooks,once,each,drained⟩ := h
  constructor
  all_goals simp only [List.getElem?_set,hran]
  all_goals grind -ring -linarith -ac

theorem isDone_iff {t : EndpointTable} {a : Nat} :
    t.isDone a = true ↔ ∃ l,t.issued[a]? = some l ∧ l.done = true := by
  rw [EndpointTable.isDone]
  cases t.issued[a]? <;> simp

/-- A hook is bound to a lease that still is good. -/
theorem HooksKept.checks (h : HooksKept w) (hi : w.threads[i]? = some (c,.check lease)) :
    HooksKept ⟨w.table,w.threads.set i (c,.push lease)⟩ := by
  have hlt := (List.getElem?_eq_some_iff.mp hi).1
  obtain rfl := h.only i c _ lease hi (Or.inl (Or.inl rfl))
  have hearly := h.early i lease _ hi (Or.inl rfl)
  have hknown := (h.shape i lease _ hi).1
  obtain ⟨shape,only,early,late,ended,swaps,taken,cleared,ran,hooks,once,each,drained⟩ := h
  constructor
  all_goals simp only [List.getElem?_set]
  all_goals grind -ring -linarith -ac [Stage.early,Stage.late,Stage.takes]

/-- A hook is bound to a lease that is done with, and runs at once. -/
theorem HooksKept.runs (h : HooksKept w) (hi : w.threads[i]? = some (c,.check lease))
    (hdone : w.table.isDone lease = true) :
    HooksKept ⟨{ w.table with ran := w.table.ran ++ [i] },w.threads.set i (c,.ended none)⟩ := by
  have hlt := (List.getElem?_eq_some_iff.mp hi).1
  obtain rfl := h.only i c _ lease hi (Or.inl (Or.inl rfl))
  have hearly := h.early i lease _ hi (Or.inl rfl)
  obtain ⟨l,hl,hl'⟩ := isDone_iff.mp hdone
  obtain ⟨shape,only,early,late,ended,swaps,taken,cleared,ran,hooks,once,each,drained⟩ := h
  constructor
  all_goals simp only [List.getElem?_set]
  all_goals grind -ring -linarith -ac [Stage.early,Stage.late,Stage.takes]

theorem HooksKept.push (h : HooksKept w) (hi : w.threads[i]? = some (c,.push lease)) :
    HooksKept ⟨w.table.modifyLease lease fun l => { l with hooks := l.hooks ++ [i] },
      w.threads.set i (c,.recheck lease)⟩ := by
  have hlt := (List.getElem?_eq_some_iff.mp hi).1
  obtain rfl := h.only i c _ lease hi (Or.inl (Or.inr rfl))
  have hearly := h.early i lease _ hi (Or.inr rfl)
  have hknown := (h.shape i lease _ hi).1
  obtain ⟨shape,only,early,late,ended,swaps,taken,cleared,ran,hooks,once,each,drained⟩ := h
  constructor
  all_goals simp only [List.getElem?_set,getElem?_modifyLease,length_modifyLease,ran_modifyLease]
  all_goals grind -ring -linarith -ac [Stage.early,Stage.late,Stage.takes]

theorem HooksKept.rechecks (h : HooksKept w) (hi : w.threads[i]? = some (c,.recheck lease)) :
    HooksKept ⟨w.table,
      w.threads.set i (c,if w.table.isDone lease then .take lease else .ended none)⟩ := by
  have hlt := (List.getElem?_eq_some_iff.mp hi).1
  obtain rfl := h.only i c _ lease hi (Or.inr (Or.inl rfl))
  have hlate := h.late i lease _ _ hi (Or.inl rfl) (List.getElem?_eq_getElem (h.shape i lease _ hi).1)
  have hdone := isDone_iff (t := w.table) (a := lease)
  obtain ⟨shape,only,early,late,ended,swaps,taken,cleared,ran,hooks,once,each,drained⟩ := h
  constructor
  all_goals simp only [List.getElem?_set]
  all_goals grind -ring -linarith -ac [Stage.early,Stage.late,Stage.takes]


theorem getElem?_runHooks (t : EndpointTable) (a b : Nat) : (t.runHooks a).issued[b]? =
    if a = b then t.issued[b]?.map fun l => { l with hooks := [] } else t.issued[b]? :=
  getElem?_modifyLease ..

theorem length_runHooks (t : EndpointTable) (a : Nat) :
    (t.runHooks a).issued.length = t.issued.length := List.length_modify ..

theorem ran_runHooks (t : EndpointTable) (a : Nat) :
    (t.runHooks a).ran = t.ran ++ (t.issued[a]?.map (·.hooks)).getD [] := rfl

theorem HooksKept.takes (h : HooksKept w) (hi : w.threads[i]? = some (c,.take lease)) :
    HooksKept ⟨w.table.runHooks lease,w.threads.set i (c,.ended none)⟩ := by
  have hlt := (List.getElem?_eq_some_iff.mp hi).1
  obtain rfl := h.only i c _ lease hi (Or.inr (Or.inr rfl))
  obtain ⟨l,hl,hdone⟩ := h.taken i _ _ lease hi (Or.inl rfl)
  have hlate := h.late i lease _ l hi (Or.inr rfl) hl
  have heach := h.each lease l hl
  obtain ⟨shape,only,early,late,ended,swaps,taken,cleared,ran,hooks,once,each,drained⟩ := h
  constructor
  all_goals simp only [List.getElem?_set,getElem?_runHooks,length_runHooks,ran_runHooks]
  all_goals grind -ring -linarith -ac [Stage.early,Stage.late,Stage.takes]

theorem HooksKept.swap (h : HooksKept w) (hi : w.threads[i]? = some (c,.swap lease)) :
    HooksKept ⟨w.table.modifyLease lease fun l => { l with done := true,released := true },
      w.threads.set i (c,.clear lease)⟩ := by
  have hlt := (List.getElem?_eq_some_iff.mp hi).1
  have hl := List.getElem?_eq_getElem (h.swaps i c lease hi)
  obtain ⟨shape,only,early,late,ended,swaps,taken,cleared,ran,hooks,once,each,drained⟩ := h
  constructor
  all_goals simp only [List.getElem?_set,getElem?_modifyLease,length_modifyLease,ran_modifyLease]
  all_goals grind -ring -linarith -ac [Stage.early,Stage.late,Stage.takes]

theorem HooksKept.clear (h : HooksKept w) (hi : w.threads[i]? = some (c,.clear lease)) :
    HooksKept ⟨w.table.modifyLease lease fun l => { l with hooks := [] },
      w.threads.set i (c,.unregister lease)⟩ := by
  have hlt := (List.getElem?_eq_some_iff.mp hi).1
  obtain ⟨l,hl,hreleased⟩ := h.cleared i c _ lease hi (Or.inl rfl)
  obtain ⟨shape,only,early,late,ended,swaps,taken,cleared,ran,hooks,once,each,drained⟩ := h
  constructor
  all_goals simp only [List.getElem?_set,getElem?_modifyLease,length_modifyLease,ran_modifyLease]
  all_goals grind -ring -linarith -ac [Stage.early,Stage.late,Stage.takes]

theorem HooksKept.cancels (h : HooksKept w) {todo todo' : List Nat} (hi : w.threads[i]? = some (c,.cancel todo))
    {l : Lease} (hl : w.table.issued[lease]? = some l) :
    HooksKept ⟨w.table.modifyLease lease fun l => { l with done := true },
      w.threads.set i (c,.cancelTake lease todo')⟩ := by
  have hlt := (List.getElem?_eq_some_iff.mp hi).1
  obtain ⟨shape,only,early,late,ended,swaps,taken,cleared,ran,hooks,once,each,drained⟩ := h
  constructor
  all_goals simp only [List.getElem?_set,getElem?_modifyLease,length_modifyLease,ran_modifyLease]
  all_goals grind -ring -linarith -ac [Stage.early,Stage.late,Stage.takes]

theorem HooksKept.drains (h : HooksKept w) {todo : List Nat}
    (hi : w.threads[i]? = some (c,.cancelTake lease todo)) :
    HooksKept ⟨(w.table.runHooks lease).modifyLease lease fun l => { l with drained := true },
      w.threads.set i (c,.cancel todo)⟩ := by
  have hlt := (List.getElem?_eq_some_iff.mp hi).1
  obtain ⟨l,hl,hdone⟩ := h.taken i _ _ lease hi (Or.inr ⟨todo,rfl⟩)
  have heach := h.each lease l hl
  obtain ⟨shape,only,early,late,ended,swaps,taken,cleared,ran,hooks,once,each,drained⟩ := h
  constructor
  all_goals simp only [List.getElem?_set,getElem?_modifyLease,length_modifyLease,ran_modifyLease,
    getElem?_runHooks,length_runHooks,ran_runHooks]
  all_goals grind -ring -linarith -ac [Stage.early,Stage.late,Stage.takes]

theorem HooksKept.call (h : HooksKept w) (hknows : w.knows c = true) :
    HooksKept { w with threads := w.threads ++ [(c,c.first)] } := by
  -- the only thread that is new stands at the first stage of its call
  have hnew : ∀ (j : Nat) c' s,(w.threads ++ [(c,c.first)])[j]? = some (c',s) →
      w.threads[j]? = some (c',s) ∨ j = w.threads.length ∧ c' = c ∧ s = c.first := by
    intro j c' s hj
    rcases getElem?_append_one hj with hj | ⟨hj,heq⟩
    · exact Or.inl hj
    · exact Or.inr ⟨hj,Prod.mk.inj heq⟩
  have hold : ∀ (j : Nat) x,w.threads[j]? = some x → (w.threads ++ [(c,c.first)])[j]? = some x := by
    intro j x hj
    rw [List.getElem?_append_left (List.getElem?_eq_some_iff.mp hj).1]
    exact hj
  have hfresh : ∀ lease s,w.threads[w.threads.length]? ≠ some (.bind lease,s) := by simp
  have hbind : ∀ lease,.bind lease = c → lease < w.table.issued.length ∧ c.first = .check lease := by
    rintro lease rfl
    exact ⟨by simpa [Threads.knows] using hknows,rfl⟩
  have hfirst : ∀ lease,(c.first.early lease ∨ c.first.late lease → c = .bind lease) ∧
      ¬ c.first.takes lease ∧ ¬ (c.first = .clear lease ∨ c.first = .unregister lease) := by
    intro lease
    cases c <;> simp [EndpointCall.first,Stage.early,Stage.late,Stage.takes]
  constructor
  case shape =>
    intro j lease s hj
    rcases hnew j _ s hj with hj | ⟨_,hc,rfl⟩
    · exact h.shape j lease s hj
    · exact ⟨(hbind lease hc).1,Or.inl (Or.inl (hbind lease hc).2)⟩
  case only =>
    intro j c' s lease hj hs
    rcases hnew j c' s hj with hj | ⟨_,rfl,rfl⟩
    · exact h.only j c' s lease hj hs
    · exact (hfirst lease).1 hs
  case early =>
    intro j lease s hj hs
    rcases hnew j _ s hj with hj | ⟨rfl,hc,rfl⟩
    · exact h.early j lease s hj hs
    · refine ⟨?_,?_⟩
      · intro hran
        obtain ⟨lease',s,_,hs,_⟩ := h.ran _ hran
        exact hfresh lease' s hs
      · intro a l ha hmem
        obtain ⟨_,s,hs⟩ := h.hooks a l _ ha hmem
        exact hfresh a s hs
  case late =>
    intro j lease s l hj hs hl
    rcases hnew j _ s hj with hj | ⟨_,hc,rfl⟩
    · exact h.late j lease s l hj hs hl
    · rw [(hbind lease hc).2] at hs
      rcases hs with hs | hs <;> cases hs
  case ended =>
    intro j lease r l hj hl
    rcases hnew j _ _ hj with hj | ⟨_,hc,hs⟩
    · exact h.ended j lease r l hj hl
    · rw [(hbind lease hc).2] at hs
      cases hs
  case swaps =>
    intro j c' lease hj
    rcases hnew j c' _ hj with hj | ⟨_,rfl,hs⟩
    · exact h.swaps j c' lease hj
    · cases c' <;> cases hs
      simpa [Threads.knows] using hknows
  case taken =>
    intro j c' s lease hj hs
    rcases hnew j c' s hj with hj | ⟨_,_,rfl⟩
    · exact h.taken j c' s lease hj hs
    · exact absurd hs (hfirst lease).2.1
  case cleared =>
    intro j c' s lease hj hs
    rcases hnew j c' s hj with hj | ⟨_,_,rfl⟩
    · exact h.cleared j c' s lease hj hs
    · exact absurd hs (hfirst lease).2.2
  case ran =>
    intro j hj
    obtain ⟨lease,s,l,hs,hl⟩ := h.ran j hj
    exact ⟨lease,s,l,hold j _ hs,hl⟩
  case hooks =>
    intro a l j ha hj
    obtain ⟨hran,s,hs⟩ := h.hooks a l j ha hj
    exact ⟨hran,s,hold j _ hs⟩
  case once => exact h.once
  case each => exact h.each
  case drained => exact h.drained

end

/-- The lease is listed under the key. -/
def EndpointTable.Lists (t : EndpointTable) (k : Text) (a : Nat) : Prop :=
  ∃ ls,t.leases.get? k = some ls ∧ a ∈ ls

/-- Where the leases are: one whose endpoint is there is listed under its key, and one
whose endpoint was removed is drained or on the list of the thread that removed it. -/
structure LeasesKept (w : Threads) : Prop where
  serials : ∀ k e,w.table.entries.get? k = some e → e.2 < w.table.published
  issued : ∀ (a : Nat) l,w.table.issued[a]? = some l → l.serial < w.table.published
  registers : ∀ (i : Nat) c key e n,w.threads[i]? = some (c,.register key e n) →
    n < w.table.published
  current : ∀ (a : Nat) l,w.table.issued[a]? = some l → w.table.there l = true →
    l.released = true ∨ l.done = false ∧ w.table.Lists l.key a
  listed : ∀ k a,w.table.Lists k a → ∃ l,w.table.issued[a]? = some l ∧ l.key = k
  stale : ∀ (i : Nat) c s a,w.threads[i]? = some (c,s) → a ∈ s.todo →
    ∃ l,w.table.issued[a]? = some l ∧ w.table.there l = false
  unlisted : ∀ (i : Nat) c s a k,w.threads[i]? = some (c,s) → a ∈ s.todo → ¬ w.table.Lists k a
  apart : ∀ (i j : Nat) c s c' s' a,w.threads[i]? = some (c,s) → w.threads[j]? = some (c',s') →
    a ∈ s.todo → a ∈ s'.todo → i = j
  cut : ∀ (a : Nat) l i,w.table.issued[a]? = some l → l.cutBy = some i →
    l.released = false ∧ w.table.there l = false ∧ (l.drained = true ∨
      ∃ c s,w.threads[i]? = some (c,s) ∧ a ∈ s.todo ∧
        (l.done = false ∨ ∃ todo,s = .cancelTake a todo))

section
variable {w : Threads} {i lease : Nat} {c : EndpointCall} {t : EndpointTable} {stage next : Stage}

/-- A step that changes no lease and no endpoint, by a thread with nothing to cancel. -/
theorem LeasesKept.frame (h : LeasesKept w) (hi : w.threads[i]? = some (c,stage))
    (hentries : t.entries = w.table.entries) (hleases : ∀ k a,t.Lists k a ↔ w.table.Lists k a)
    (hpublished : t.published = w.table.published)
    (hissued : ∀ (a : Nat) l',t.issued[a]? = some l' → ∃ l,w.table.issued[a]? = some l ∧
      l'.key = l.key ∧ l'.serial = l.serial ∧ l'.done = l.done ∧ l'.released = l.released ∧
      l'.drained = l.drained ∧ l'.cutBy = l.cutBy)
    (hold : ∀ (a : Nat) l,w.table.issued[a]? = some l → ∃ l',t.issued[a]? = some l' ∧
      l'.key = l.key ∧ l'.serial = l.serial)
    (htodo : stage.todo = []) (hnext : next.todo = [])
    (hregister : ∀ key e n,next = .register key e n → n < w.table.published) :
    LeasesKept ⟨t,w.threads.set i (c,next)⟩ := by
  have hlt := (List.getElem?_eq_some_iff.mp hi).1
  have hthere : ∀ l l' : Lease,l'.key = l.key → l'.serial = l.serial →
      t.there l' = w.table.there l := by
    intro l l' hkey hserial
    rw [EndpointTable.there,EndpointTable.there,hentries,hkey,hserial]
  obtain ⟨serials,issued,registers,current,listed,stale,unlisted,apart,cut⟩ := h
  constructor
  all_goals simp only [List.getElem?_set,hentries,hleases,hpublished]
  all_goals grind -ring -linarith -ac

theorem LeasesKept.publish (h : LeasesKept w) {key : EndpointKey} {endpoint : Endpoint}
    (hi : w.threads[i]? = some (c,.publish key endpoint)) :
    LeasesKept ⟨w.table.publish key endpoint,w.threads.set i (c,.ended none)⟩ := by
  have hlt := (List.getElem?_eq_some_iff.mp hi).1
  -- no lease is of the new publication
  have hthere : ∀ l : Lease,l.serial < w.table.published →
      (w.table.publish key endpoint).there l = true → w.table.there l = true := by
    intro l hserial hthere
    rw [EndpointTable.there,EndpointTable.publish,OrdMap.get?_set] at hthere
    split at hthere
    · simp only [Option.any_some,decide_eq_true_eq] at hthere
      omega
    · exact hthere
  have hpublished : (w.table.publish key endpoint).published = w.table.published + 1 := rfl
  have hissued : (w.table.publish key endpoint).issued = w.table.issued := rfl
  have hleases : ∀ k a,(w.table.publish key endpoint).Lists k a ↔ w.table.Lists k a :=
    fun _ _ => Iff.rfl
  have hentries : (w.table.publish key endpoint).entries =
    w.table.entries.set key.keyString (endpoint,w.table.published) := rfl
  obtain ⟨serials,issued,registers,current,listed,stale,unlisted,apart,cut⟩ := h
  constructor
  all_goals simp only [List.getElem?_set,hissued,hleases,hpublished,hentries,OrdMap.get?_set]
  all_goals grind -ring -linarith -ac [Stage.todo]

/-- What is listed once a lease is registered. -/
theorem mem_register (t : EndpointTable) (key : EndpointKey) (endpoint : Endpoint) (n a : Nat)
    (k : Text) : (t.register key endpoint n).Lists k a ↔
      t.Lists k a ∨ k = key.keyString ∧ a = t.issued.length := by
  simp only [EndpointTable.Lists,EndpointTable.register,OrdMap.get?_set]
  by_cases hk : k = key.keyString
  · subst hk
    cases hls : t.leases.get? key.keyString <;> simp
  · simp [hk]

theorem LeasesKept.register (h : LeasesKept w) {key : EndpointKey} {endpoint : Endpoint} {n : Nat}
    (hi : w.threads[i]? = some (c,.register key endpoint n)) {r : Option Nat} :
    LeasesKept ⟨w.table.register key endpoint n,w.threads.set i (c,.ended r)⟩ := by
  have hlt := (List.getElem?_eq_some_iff.mp hi).1
  have hserial := h.registers i c key endpoint n hi
  have hthere : ∀ l : Lease,(w.table.register key endpoint n).there l = w.table.there l :=
    fun _ => rfl
  have hleases := mem_register w.table key endpoint n
  have hentries : (w.table.register key endpoint n).entries = w.table.entries := rfl
  have hpublished : (w.table.register key endpoint n).published = w.table.published := rfl
  have hold : ∀ (a : Nat) l,w.table.issued[a]? = some l →
      (w.table.register key endpoint n).issued[a]? = some l := by
    intro a l ha
    rw [EndpointTable.register,List.getElem?_append_left (List.getElem?_eq_some_iff.mp ha).1]
    exact ha
  have hlast : (w.table.register key endpoint n).issued[w.table.issued.length]? =
      some ⟨key.keyString,endpoint,false,[],n,false,none,false⟩ := by
    simp [EndpointTable.register]
  have hnew : ∀ (a : Nat) l,(w.table.register key endpoint n).issued[a]? = some l →
      w.table.issued[a]? = some l ∨ a = w.table.issued.length ∧
        l = ⟨key.keyString,endpoint,false,[],n,false,none,false⟩ :=
    fun a l => getElem?_append_one
  generalize w.table.register key endpoint n = t at *
  obtain ⟨serials,issued,registers,current,listed,stale,unlisted,apart,cut⟩ := h
  constructor
  all_goals simp only [List.getElem?_set,hpublished,hentries,hthere]
  all_goals grind -ring -linarith -ac [Stage.todo]

theorem LeasesKept.swap (h : LeasesKept w) (hi : w.threads[i]? = some (c,.swap lease))
    (hcut : ∀ l,w.table.issued[lease]? = some l → l.cutBy = none) :
    LeasesKept ⟨w.table.modifyLease lease fun l => { l with done := true,released := true },
      w.threads.set i (c,.clear lease)⟩ := by
  have hlt := (List.getElem?_eq_some_iff.mp hi).1
  have hthere : ∀ l : Lease,∀ f,(w.table.modifyLease lease f).there l = w.table.there l :=
    fun _ _ => rfl
  have hsame : ∀ l : Lease,w.table.there { l with done := true,released := true } =
    w.table.there l := fun _ => rfl
  have hlists : ∀ k a f,(w.table.modifyLease lease f).Lists k a ↔ w.table.Lists k a :=
    fun _ _ _ => Iff.rfl
  obtain ⟨serials,issued,registers,current,listed,stale,unlisted,apart,cut⟩ := h
  constructor
  all_goals simp only [List.getElem?_set,getElem?_modifyLease,hthere,hlists]
  all_goals grind -ring -linarith -ac [Stage.todo,EndpointTable.modifyLease]

/-- What is listed once a lease is taken from the list of its key. -/
theorem lists_filter (t : EndpointTable) (key k : Text) (lease a : Nat) :
    EndpointTable.Lists { t with
      leases := match t.leases.get? key with
        | none => t.leases
        | some ls => t.leases.set key (ls.filter (· ≠ lease)) } k a ↔
      t.Lists k a ∧ (k = key → a ≠ lease) := by
  simp only [EndpointTable.Lists]
  cases hkey : t.leases.get? key with
  | none =>
    refine ⟨fun h => ⟨h,?_⟩,And.left⟩
    rintro rfl
    obtain ⟨ls,hls,_⟩ := h
    rw [hkey] at hls
    cases hls
  | some ls =>
    simp only [OrdMap.get?_set]
    by_cases hk : k = key
    · subst hk
      simp [hkey]
    · simp [hk]

theorem LeasesKept.unregister (h : LeasesKept w) (hi : w.threads[i]? = some (c,.unregister lease))
    {l : Lease} (hl : w.table.issued[lease]? = some l) (hreleased : l.released = true) :
    LeasesKept ⟨{ w.table with
      leases := match w.table.leases.get? l.key with
        | none => w.table.leases
        | some ls => w.table.leases.set l.key (ls.filter (· ≠ lease)) },
      w.threads.set i (c,.ended none)⟩ := by
  have hlt := (List.getElem?_eq_some_iff.mp hi).1
  have hleases := lists_filter w.table l.key
  have hthere : ∀ (l : Lease) (ls : OrdMap Text (List Nat)),
    EndpointTable.there { w.table with leases := ls } l = w.table.there l := fun _ _ => rfl
  obtain ⟨serials,issued,registers,current,listed,stale,unlisted,apart,cut⟩ := h
  constructor
  all_goals simp only [List.getElem?_set,hthere,hleases]
  all_goals grind -ring -linarith -ac [Stage.todo]

theorem LeasesKept.skip (h : LeasesKept w) {todo : List Nat}
    (hi : w.threads[i]? = some (c,.cancel todo)) (hdone : w.table.isDone lease = true) :
    LeasesKept ⟨w.table,w.threads.set i (c,.cancel (todo.erase lease))⟩ := by
  have hlt := (List.getElem?_eq_some_iff.mp hi).1
  obtain ⟨l,hl,hl'⟩ := isDone_iff.mp hdone
  have hown : ∀ a ∈ todo.erase lease,a ∈ Stage.todo (.cancel todo) :=
    fun a ha => List.mem_of_mem_erase ha
  have hkept : ∀ a,a ≠ lease → a ∈ todo → a ∈ todo.erase lease :=
    fun a hne => (List.mem_erase_of_ne hne).mpr
  obtain ⟨serials,issued,registers,current,listed,stale,unlisted,apart,cut⟩ := h
  constructor
  all_goals simp only [List.getElem?_set]
  all_goals grind -ring -linarith -ac [Stage.todo]

theorem LeasesKept.cancels (h : LeasesKept w) {todo : List Nat}
    (hi : w.threads[i]? = some (c,.cancel todo)) (hmem : lease ∈ todo) :
    LeasesKept ⟨w.table.modifyLease lease fun l => { l with done := true },
      w.threads.set i (c,.cancelTake lease (todo.erase lease))⟩ := by
  have hlt := (List.getElem?_eq_some_iff.mp hi).1
  have hown : ∀ a ∈ lease :: todo.erase lease,a ∈ Stage.todo (.cancel todo) := by
    intro a ha
    rcases List.mem_cons.mp ha with rfl | ha
    · exact hmem
    · exact List.mem_of_mem_erase ha
  have hkept : ∀ a,a ∈ todo → a ∈ lease :: todo.erase lease := by
    intro a ha
    by_cases hne : a = lease
    · exact List.mem_cons.mpr (Or.inl hne)
    · exact List.mem_cons_of_mem _ ((List.mem_erase_of_ne hne).mpr ha)
  have hthere : ∀ l : Lease,∀ f,(w.table.modifyLease lease f).there l = w.table.there l :=
    fun _ _ => rfl
  have hsame : ∀ l : Lease,w.table.there { l with done := true } = w.table.there l :=
    fun _ => rfl
  have hlists : ∀ k a f,(w.table.modifyLease lease f).Lists k a ↔ w.table.Lists k a :=
    fun _ _ _ => Iff.rfl
  obtain ⟨serials,issued,registers,current,listed,stale,unlisted,apart,cut⟩ := h
  constructor
  all_goals simp only [List.getElem?_set,getElem?_modifyLease,hthere,hlists]
  all_goals grind -ring -linarith -ac [Stage.todo,EndpointTable.modifyLease]

theorem LeasesKept.drains (h : LeasesKept w) {todo : List Nat}
    (hi : w.threads[i]? = some (c,.cancelTake lease todo)) :
    LeasesKept ⟨(w.table.runHooks lease).modifyLease lease fun l => { l with drained := true },
      w.threads.set i (c,.cancel todo)⟩ := by
  have hlt := (List.getElem?_eq_some_iff.mp hi).1
  have hown : ∀ a ∈ todo,a ∈ Stage.todo (.cancelTake lease todo) :=
    fun a ha => List.mem_cons_of_mem _ ha
  have hthere : ∀ l : Lease,((w.table.runHooks lease).modifyLease lease fun l =>
      { l with drained := true }).there l = w.table.there l := fun _ => rfl
  have hsame : ∀ l : Lease,w.table.there { l with hooks := [],drained := true } =
    w.table.there l := fun _ => rfl
  have hlists : ∀ k a,((w.table.runHooks lease).modifyLease lease fun l =>
      { l with drained := true }).Lists k a ↔ w.table.Lists k a := fun _ _ => Iff.rfl
  obtain ⟨serials,issued,registers,current,listed,stale,unlisted,apart,cut⟩ := h
  constructor
  all_goals simp only [List.getElem?_set,getElem?_modifyLease,getElem?_runHooks,hthere,hlists]
  all_goals grind -ring -linarith -ac [Stage.todo,EndpointTable.modifyLease,EndpointTable.runHooks]

section
variable (t : EndpointTable) (target : Target)

theorem lists_remove (k : Text) (a : Nat) :
    (t.remove target i).Lists k a ↔ t.Lists k a ∧ target.hit k = false := by
  simp only [EndpointTable.Lists,EndpointTable.remove,OrdMap.get?_filterMapVals]
  cases t.leases.get? k <;> cases target.hit k <;> simp

theorem mem_hitLeases (a : Nat) :
    a ∈ t.hitLeases target ↔ ∃ k,target.hit k = true ∧ t.Lists k a := by
  simp only [EndpointTable.hitLeases,EndpointTable.Lists,List.mem_flatMap,List.mem_filter]
  constructor
  · intro h
    obtain ⟨e,⟨he,hhit⟩,ha⟩ := h
    exact ⟨e.1,hhit,e.2,t.leases.mem_entries.mp he,ha⟩
  · intro h
    obtain ⟨k,hhit,ls,hls,ha⟩ := h
    exact ⟨(k,ls),⟨t.leases.mem_entries.mpr hls,hhit⟩,ha⟩

theorem there_remove (l : Lease) :
    (t.remove target i).there l = (t.there l && !target.hit l.key) := by
  simp only [EndpointTable.there,EndpointTable.remove,OrdMap.get?_filterMapVals]
  cases t.entries.get? l.key <;> cases target.hit l.key <;> simp

theorem entries_remove {k : Text} {e : Endpoint × Nat}
    (h : (t.remove target i).entries.get? k = some e) : t.entries.get? k = some e := by
  simp only [EndpointTable.remove,OrdMap.get?_filterMapVals] at h
  obtain ⟨e',he',heq⟩ := Option.bind_eq_some_iff.mp h
  split at heq
  · cases heq
  · cases heq
    exact he'

theorem getElem?_remove (a : Nat) : (t.remove target i).issued[a]? = t.issued[a]?.map fun l =>
    if target.hit l.key && t.there l && !l.released then { l with cutBy := some i } else l := by
  rw [EndpointTable.remove,List.getElem?_map]

end

theorem LeasesKept.remove (h : LeasesKept w) {target : Target}
    (hi : w.threads[i]? = some (c,.remove target)) :
    LeasesKept ⟨w.table.remove target i,
      w.threads.set i (c,.cancel (w.table.hitLeases target))⟩ := by
  have hlt := (List.getElem?_eq_some_iff.mp hi).1
  have hhit := mem_hitLeases w.table target
  have hentries : ∀ k e,(w.table.remove target i).entries.get? k = some e →
      w.table.entries.get? k = some e := fun k e => entries_remove w.table target
  have hthere : ∀ (l : Lease) j,w.table.there { l with cutBy := j } = w.table.there l :=
    fun _ _ => rfl
  have hpublished : (w.table.remove target i).published = w.table.published := rfl
  obtain ⟨serials,issued,registers,current,listed,stale,unlisted,apart,cut⟩ := h
  constructor
  all_goals simp only [List.getElem?_set,getElem?_remove,lists_remove,there_remove,hpublished]
  all_goals grind -ring -linarith -ac [Stage.todo]

theorem LeasesKept.call (h : LeasesKept w) :
    LeasesKept { w with threads := w.threads ++ [(c,c.first)] } := by
  have hnew : ∀ (j : Nat) x,(w.threads ++ [(c,c.first)])[j]? = some x →
      w.threads[j]? = some x ∨ j = w.threads.length ∧ x = (c,c.first) :=
    fun j x => getElem?_append_one
  have hold : ∀ (j : Nat) x,w.threads[j]? = some x → (w.threads ++ [(c,c.first)])[j]? = some x := by
    intro j x hj
    rw [List.getElem?_append_left (List.getElem?_eq_some_iff.mp hj).1]
    exact hj
  have htodo : c.first.todo = [] := by cases c <;> rfl
  have hregister : ∀ key e n,c.first ≠ .register key e n := by cases c <;> simp [EndpointCall.first]
  obtain ⟨serials,issued,registers,current,listed,stale,unlisted,apart,cut⟩ := h
  constructor <;> grind -ring -linarith -ac

end

end Flagship.Core

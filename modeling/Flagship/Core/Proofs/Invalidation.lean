import Flagship.Core.Proofs.Leases

namespace Flagship.Core
open Lib

/-- Both, of every state a run comes to. -/
structure TableKept (w : Threads) : Prop where
  hooks : HooksKept w
  leases : LeasesKept w

theorem tableKept_fresh : TableKept .fresh := by
  constructor <;> constructor <;>
    simp [Threads.fresh,EndpointTable.Lists,OrdMap.get?_empty]

section
variable {w : Threads} {i lease : Nat} {c : EndpointCall} {t : EndpointTable} {stage next : Stage}

/-- A step that is no part of a binding, and changes neither a lease nor an endpoint. -/
theorem TableKept.frame (h : TableKept w) (hi : w.threads[i]? = some (c,stage))
    (hentries : t.entries = w.table.entries) (hleases : t.leases = w.table.leases)
    (hissued : t.issued = w.table.issued) (hpublished : t.published = w.table.published)
    (hran : t.ran = w.table.ran) (htodo : stage.todo = []) (hnext : next.todo = [])
    (hregister : ∀ key e n,next = .register key e n → n < w.table.published)
    (hcall : ∀ lease,c ≠ .bind lease)
    (hnext' : ∀ lease,¬ next.early lease ∧ ¬ next.late lease ∧ ¬ next.takes lease ∧
      next ≠ .clear lease ∧ next ≠ .unregister lease ∧ next ≠ .swap lease) :
    TableKept ⟨t,w.threads.set i (c,next)⟩ := by
  constructor
  · apply h.hooks.frame hi hran (by rw [hissued]) _ _ hcall hnext'
    · intro a l ha
      exact ⟨l,hissued ▸ ha,rfl,rfl,rfl,rfl⟩
    · intro a l ha
      exact Or.inr ⟨l,hissued ▸ ha,rfl,rfl,rfl,rfl⟩
  · apply h.leases.frame hi hentries _ hpublished _ _ htodo hnext hregister
    · intro k a
      rw [EndpointTable.Lists,EndpointTable.Lists,hleases]
    · intro a l ha
      exact ⟨l,hissued ▸ ha,rfl,rfl,rfl,rfl,rfl,rfl⟩
    · intro a l ha
      exact ⟨l,hissued ▸ ha,rfl,rfl⟩

/-- A thread that binds stands at a lease. -/
theorem TableKept.not_bind (h : TableKept w) (hi : w.threads[i]? = some (c,stage))
    (hstage : ∀ lease,¬ stage.early lease ∧ ¬ stage.late lease ∧ ∀ r,stage ≠ .ended r) :
    ∀ lease,c ≠ .bind lease := by
  intro lease hc
  subst hc
  obtain ⟨-,hearly | hlate | ⟨r,hr⟩⟩ := h.hooks.shape i lease stage hi
  · exact (hstage lease).1 hearly
  · exact (hstage lease).2.1 hlate
  · exact (hstage lease).2.2 r hr

theorem TableKept.publish (h : TableKept w) {key : EndpointKey} {endpoint : Endpoint}
    (hi : w.threads[i]? = some (c,.publish key endpoint)) :
    TableKept ⟨w.table.publish key endpoint,w.threads.set i (c,.ended none)⟩ := by
  have hcall := h.not_bind hi (by simp [Stage.early,Stage.late])
  refine ⟨h.hooks.frame hi rfl (Nat.le_refl _) ?_ ?_ hcall ?_,h.leases.publish hi⟩
  · exact fun a l ha => ⟨l,ha,rfl,rfl,rfl,rfl⟩
  · exact fun a l ha => Or.inr ⟨l,ha,rfl,rfl,rfl,rfl⟩
  · simp [Stage.early,Stage.late,Stage.takes]

theorem TableKept.register (h : TableKept w) {key : EndpointKey} {endpoint : Endpoint} {n : Nat}
    (hi : w.threads[i]? = some (c,.register key endpoint n)) (r : Option Nat) :
    TableKept ⟨w.table.register key endpoint n,w.threads.set i (c,.ended r)⟩ := by
  have hcall := h.not_bind hi (by simp [Stage.early,Stage.late])
  refine ⟨h.hooks.frame hi rfl ?_ ?_ ?_ hcall ?_,h.leases.register hi⟩
  · simp [EndpointTable.register]
  · intro a l ha
    refine ⟨l,?_,rfl,rfl,rfl,rfl⟩
    rw [EndpointTable.register,List.getElem?_append_left (List.getElem?_eq_some_iff.mp ha).1]
    exact ha
  · intro a l ha
    rcases getElem?_append_one ha with ha | ⟨ha',rfl⟩
    · exact Or.inr ⟨l,ha,rfl,rfl,rfl,rfl⟩
    · exact Or.inl ⟨ha',rfl,rfl⟩
  · simp [Stage.early,Stage.late,Stage.takes]

theorem TableKept.lookup (h : TableKept w) {key : EndpointKey} {e : Endpoint × Nat}
    (hi : w.threads[i]? = some (c,.lookup key)) (he : w.table.lookup key = some e) :
    TableKept ⟨w.table,w.threads.set i (c,.register key e.1 e.2)⟩ := by
  have hcall := h.not_bind hi (by simp [Stage.early,Stage.late])
  refine h.frame hi rfl rfl rfl rfl rfl rfl rfl ?_ hcall ?_
  · intro key' e' n heq
    cases heq
    rw [EndpointTable.lookup] at he
    split at he
    · cases he
    · exact h.leases.serials _ e he
  · simp [Stage.early,Stage.late,Stage.takes]

theorem TableKept.remove (h : TableKept w) {target : Target}
    (hi : w.threads[i]? = some (c,.remove target)) :
    TableKept ⟨w.table.remove target i,
      w.threads.set i (c,.cancel (w.table.hitLeases target))⟩ := by
  have hcall := h.not_bind hi (by simp [Stage.early,Stage.late])
  refine ⟨h.hooks.frame hi rfl ?_ ?_ ?_ hcall ?_,h.leases.remove hi⟩
  · simp [EndpointTable.remove]
  · intro a l ha
    rw [getElem?_remove,ha]
    refine ⟨_,rfl,?_⟩
    dsimp only
    split <;> exact ⟨rfl,rfl,rfl,rfl⟩
  · intro a l ha
    rw [getElem?_remove,Option.map_eq_some_iff] at ha
    obtain ⟨l',hl',rfl⟩ := ha
    refine Or.inr ⟨l',hl',?_⟩
    split <;> exact ⟨rfl,rfl,rfl,rfl⟩
  · simp [Stage.early,Stage.late,Stage.takes]

theorem TableKept.unregister (h : TableKept w) (hi : w.threads[i]? = some (c,.unregister lease)) :
    TableKept ⟨match w.table.issued[lease]? with
      | none => w.table
      | some l => { w.table with
          leases := match w.table.leases.get? l.key with
            | none => w.table.leases
            | some ls => w.table.leases.set l.key (ls.filter (· ≠ lease)) },
      w.threads.set i (c,.ended none)⟩ := by
  have hcall := h.not_bind hi (by simp [Stage.early,Stage.late])
  obtain ⟨l,hl,hreleased⟩ := h.hooks.cleared i c _ lease hi (Or.inr rfl)
  simp only [hl]
  refine ⟨h.hooks.frame hi rfl (Nat.le_refl _) ?_ ?_ hcall ?_,h.leases.unregister hi hl hreleased⟩
  · exact fun a l ha => ⟨l,ha,rfl,rfl,rfl,rfl⟩
  · exact fun a l ha => Or.inr ⟨l,ha,rfl,rfl,rfl,rfl⟩
  · simp [Stage.early,Stage.late,Stage.takes]

theorem TableKept.skip (h : TableKept w) {todo : List Nat}
    (hi : w.threads[i]? = some (c,.cancel todo)) (hdone : w.table.isDone lease = true) :
    TableKept ⟨w.table,w.threads.set i (c,.cancel (todo.erase lease))⟩ := by
  have hcall := h.not_bind hi (by simp [Stage.early,Stage.late])
  refine ⟨h.hooks.frame hi rfl (Nat.le_refl _) ?_ ?_ hcall ?_,h.leases.skip hi hdone⟩
  · exact fun a l ha => ⟨l,ha,rfl,rfl,rfl,rfl⟩
  · exact fun a l ha => Or.inr ⟨l,ha,rfl,rfl,rfl,rfl⟩
  · simp [Stage.early,Stage.late,Stage.takes]

/-- The stages of a binding change no endpoint, and of a lease only the hooks. -/
theorem LeasesKept.binding (h : LeasesKept w) (hi : w.threads[i]? = some (c,stage))
    (hentries : t.entries = w.table.entries) (hleases : t.leases = w.table.leases)
    (hpublished : t.published = w.table.published)
    (hissued : ∀ a : Nat,∃ hooks : Lease → List Nat,
      t.issued[a]? = (w.table.issued[a]?).map fun l => { l with hooks := hooks l })
    (htodo : stage.todo = []) (hnext : next.todo = [])
    (hregister : ∀ key e n,next ≠ .register key e n) :
    LeasesKept ⟨t,w.threads.set i (c,next)⟩ := by
  refine h.frame hi hentries ?_ hpublished ?_ ?_ htodo hnext fun key e n heq =>
    absurd heq (hregister key e n)
  · intro k a
    rw [EndpointTable.Lists,EndpointTable.Lists,hleases]
  · intro a l ha
    obtain ⟨hooks,heq⟩ := hissued a
    rw [heq,Option.map_eq_some_iff] at ha
    obtain ⟨l',hl',rfl⟩ := ha
    exact ⟨l',hl',rfl,rfl,rfl,rfl,rfl,rfl⟩
  · intro a l ha
    obtain ⟨hooks,heq⟩ := hissued a
    rw [heq,ha]
    exact ⟨_,rfl,rfl,rfl⟩

theorem hooks_modifyLease (t : EndpointTable) (lease a : Nat) (f : Lease → List Nat) :
    ∃ hooks : Lease → List Nat,
      (t.modifyLease lease fun l => { l with hooks := f l }).issued[a]? =
        (t.issued[a]?).map fun l => { l with hooks := hooks l } := by
  by_cases hne : lease = a
  · exact ⟨f,by rw [getElem?_modifyLease,if_pos hne]⟩
  · exact ⟨Lease.hooks,by rw [getElem?_modifyLease,if_neg hne]; simp⟩

/-- One step of one thread. -/
theorem TableKept.go (h : TableKept w) {pick : Nat} (hi : w.threads[i]? = some (c,stage))
    (hreaches : w.reaches (.go i pick) = true) :
    TableKept ⟨(stage.next i pick w.table).2,
      w.threads.set i (c,(stage.next i pick w.table).1)⟩ := by
  have hnever : ∀ (r : Option Nat) lease,¬ (Stage.ended r).early lease ∧
      ¬ (Stage.ended r).late lease ∧ ¬ (Stage.ended r).takes lease ∧ Stage.ended r ≠ .clear lease ∧
      Stage.ended r ≠ .unregister lease ∧ Stage.ended r ≠ .swap lease := by
    simp [Stage.early,Stage.late,Stage.takes]
  cases stage with
  | publish key endpoint => exact h.publish hi
  | lookup key =>
    simp only [Stage.next]
    split
    · have hcall := h.not_bind hi (by simp [Stage.early,Stage.late])
      exact h.frame hi rfl rfl rfl rfl rfl rfl rfl (by simp) hcall (hnever none)
    · next he => exact h.lookup hi he
  | register key endpoint n => exact h.register hi _
  | check lease =>
    simp only [Stage.next]
    split
    · next hdone =>
      refine ⟨h.hooks.runs hi hdone,h.leases.binding hi rfl rfl rfl ?_ rfl rfl (by simp)⟩
      exact fun a => ⟨Lease.hooks,by simp⟩
    · refine ⟨h.hooks.checks hi,h.leases.binding hi rfl rfl rfl ?_ rfl rfl (by simp)⟩
      exact fun a => ⟨Lease.hooks,by simp⟩
  | push lease =>
    refine ⟨h.hooks.push hi,h.leases.binding hi rfl rfl rfl ?_ rfl rfl (by simp [Stage.next])⟩
    exact fun a => hooks_modifyLease ..
  | recheck lease =>
    refine ⟨h.hooks.rechecks hi,h.leases.binding hi rfl rfl rfl ?_ rfl ?_ ?_⟩
    · exact fun a => ⟨Lease.hooks,by simp [Stage.next]⟩
    · simp only [Stage.next]
      split <;> rfl
    · simp only [Stage.next]
      split <;> simp
  | take lease =>
    refine ⟨h.hooks.takes hi,h.leases.binding hi rfl rfl rfl ?_ rfl rfl (by simp [Stage.next])⟩
    exact fun a => hooks_modifyLease ..
  | swap lease =>
    simp only [Threads.reaches,hi,Bool.or_eq_true,Option.all_eq_true] at hreaches
    simp only [Stage.next]
    split
    · have hcall := h.not_bind hi (by simp [Stage.early,Stage.late])
      exact h.frame hi rfl rfl rfl rfl rfl rfl rfl (by simp) hcall (hnever none)
    · next hdone =>
      refine ⟨h.hooks.swap hi,h.leases.swap hi ?_⟩
      intro l hl
      exact Option.isNone_iff_eq_none.mp (hreaches.resolve_left hdone l hl)
  | clear lease =>
    refine ⟨h.hooks.clear hi,h.leases.binding hi rfl rfl rfl ?_ rfl rfl (by simp [Stage.next])⟩
    exact fun a => hooks_modifyLease ..
  | unregister lease => exact h.unregister hi
  | drain serviceId env component =>
    have hcall := h.not_bind hi (by simp [Stage.early,Stage.late])
    refine h.frame hi rfl rfl rfl rfl rfl rfl rfl (by simp [Stage.next]) hcall ?_
    simp [Stage.next,Stage.early,Stage.late,Stage.takes]
  | remove target => exact h.remove hi
  | cancel todo =>
    simp only [Stage.next]
    split
    · next hnone =>
      have hcall := h.not_bind hi (by simp [Stage.early,Stage.late])
      have hnil : todo = [] := by
        by_contra hne
        rw [List.getElem?_eq_none_iff] at hnone
        exact absurd (Nat.mod_lt pick (List.length_pos_of_ne_nil hne)) (by omega)
      subst hnil
      exact h.frame hi rfl rfl rfl rfl rfl rfl rfl (by simp) hcall (hnever none)
    · next lease hlease =>
      have hmem := List.mem_of_getElem? hlease
      obtain ⟨l,hl,_⟩ := h.leases.stale i c _ lease hi hmem
      split
      · next hdone => exact h.skip hi hdone
      · exact ⟨h.hooks.cancels hi hl,h.leases.cancels hi hmem⟩
  | cancelTake lease todo => exact ⟨h.hooks.drains hi,h.leases.drains hi⟩
  | ended r =>
    have hsame : (w.threads.set i (c,.ended r)) = w.threads := by
      obtain ⟨hlt,hget⟩ := List.getElem?_eq_some_iff.mp hi
      rw [← hget,List.set_getElem_self]
    simp only [Stage.next,hsame]
    exact h

theorem tableKept_step (w : Threads) (m : ThreadMove) (h : TableKept w)
    (hreaches : w.reaches m = true) : TableKept (w.step m) := by
  cases m with
  | call c =>
    simp only [Threads.step]
    split
    · next hknows => exact ⟨h.hooks.call hknows,h.leases.call⟩
    · exact h
  | go i pick =>
    simp only [Threads.step]
    split
    · exact h
    · next c stage hi => exact h.go hi hreaches

end

/-- Since the thread removed a publication, nobody can look it up or register a lease on
it, and all leases on it are those the thread is to cancel and those released before. -/
structure Removed (w₀ : Threads) (i : Nat) (k : Text) (n : Nat) (w : Threads) : Prop where
  past : n < w.table.published
  gone : ∀ e,w.table.entries.get? k = some e → e.2 ≠ n
  closed : ∀ (j : Nat) c key e,w.threads[j]? = some (c,.register key e n) → key.keyString ≠ k
  leases : ∀ (a : Nat) l,w.table.issued[a]? = some l → l.key = k → l.serial = n →
    ∃ l₀,w₀.table.issued[a]? = some l₀ ∧ l₀.key = k ∧ l₀.serial = n ∧
      (l₀.released = true ∨ l.cutBy = some i)

section
variable {w₀ w : Threads} {i j : Nat} {k : Text} {n : Nat} {c : EndpointCall}
  {t : EndpointTable} {stage next : Stage}

/-- A step that publishes nothing, registers no lease and removes nothing. -/
theorem Removed.frame (h : Removed w₀ i k n w) (hj : w.threads[j]? = some (c,stage))
    (hpublished : t.published = w.table.published) (hentries : t.entries = w.table.entries)
    (hissued : ∀ (a : Nat) l',t.issued[a]? = some l' → ∃ l,w.table.issued[a]? = some l ∧
      l'.key = l.key ∧ l'.serial = l.serial ∧ l'.cutBy = l.cutBy)
    (hnext : ∀ key e,next = .register key e n → key.keyString ≠ k) :
    Removed w₀ i k n ⟨t,w.threads.set j (c,next)⟩ := by
  have hlt := (List.getElem?_eq_some_iff.mp hj).1
  obtain ⟨past,gone,closed,leases⟩ := h
  constructor
  all_goals simp only [List.getElem?_set,hpublished,hentries]
  all_goals grind -ring -linarith -ac

theorem Removed.publish (h : Removed w₀ i k n w) {key : EndpointKey} {endpoint : Endpoint}
    (hj : w.threads[j]? = some (c,.publish key endpoint)) :
    Removed w₀ i k n ⟨w.table.publish key endpoint,w.threads.set j (c,.ended none)⟩ := by
  have hlt := (List.getElem?_eq_some_iff.mp hj).1
  obtain ⟨past,gone,closed,leases⟩ := h
  constructor
  all_goals simp only [List.getElem?_set,EndpointTable.publish,OrdMap.get?_set]
  all_goals grind -ring -linarith -ac

theorem Removed.register (h : Removed w₀ i k n w) {key : EndpointKey} {endpoint : Endpoint}
    {m : Nat} (hj : w.threads[j]? = some (c,.register key endpoint m)) {r : Option Nat} :
    Removed w₀ i k n ⟨w.table.register key endpoint m,w.threads.set j (c,.ended r)⟩ := by
  have hlt := (List.getElem?_eq_some_iff.mp hj).1
  have hnew : ∀ (a : Nat) l,(w.table.register key endpoint m).issued[a]? = some l →
      w.table.issued[a]? = some l ∨ a = w.table.issued.length ∧
        l = ⟨key.keyString,endpoint,false,[],m,false,none,false⟩ :=
    fun a l => getElem?_append_one
  obtain ⟨past,gone,closed,leases⟩ := h
  refine ⟨past,gone,?_,?_⟩
  all_goals simp only [List.getElem?_set]
  all_goals grind -ring -linarith -ac

theorem Removed.remove (h : Removed w₀ i k n w) {target : Target} {todo : List Nat}
    (hj : w.threads[j]? = some (c,.remove target)) :
    Removed w₀ i k n ⟨w.table.remove target j,w.threads.set j (c,.cancel todo)⟩ := by
  have hlt := (List.getElem?_eq_some_iff.mp hj).1
  -- the publication is gone already, so its leases are not cut again
  have hthere : ∀ l : Lease,l.key = k → l.serial = n → w.table.there l = false := by
    intro l hkey hserial
    rw [EndpointTable.there,Option.any_eq_false,hkey]
    intro e he
    simpa [hserial] using h.gone e he
  have hentries : ∀ e,(w.table.remove target j).entries.get? k = some e →
      w.table.entries.get? k = some e := fun e => entries_remove w.table target
  obtain ⟨past,gone,closed,leases⟩ := h
  refine ⟨past,?_,?_,?_⟩
  all_goals simp only [List.getElem?_set,getElem?_remove]
  all_goals grind -ring -linarith -ac

theorem removed_step (w : Threads) (m : ThreadMove) (h : Removed w₀ i k n w) :
    Removed w₀ i k n (w.step m) := by
  cases m with
  | call c =>
    simp only [Threads.step]
    split
    · refine { h with closed := ?_ }
      intro j c' key e hj
      rcases getElem?_append_one hj with hj | ⟨_,heq⟩
      · exact h.closed j c' key e hj
      · cases c <;> cases heq
    · exact h
  | go j pick =>
    simp only [Threads.step]
    split
    · exact h
    next c stage hj =>
    have hhooks : ∀ (lease : Nat) (f : Lease → Lease),
        (∀ l,(f l).key = l.key ∧ (f l).serial = l.serial ∧ (f l).cutBy = l.cutBy) →
        ∀ (a : Nat) l',(w.table.modifyLease lease f).issued[a]? = some l' →
          ∃ l,w.table.issued[a]? = some l ∧ l'.key = l.key ∧ l'.serial = l.serial ∧
            l'.cutBy = l.cutBy := by
      intro lease f hf a l'
      rw [getElem?_modifyLease]
      grind -ring -linarith -ac
    have hsame : ∀ (a : Nat) l',w.table.issued[a]? = some l' →
        ∃ l,w.table.issued[a]? = some l ∧ l'.key = l.key ∧ l'.serial = l.serial ∧
          l'.cutBy = l.cutBy := fun a l' ha => ⟨l',ha,rfl,rfl,rfl⟩
    cases stage with
    | publish key endpoint => exact h.publish hj
    | lookup key =>
      simp only [Stage.next]
      split
      · exact h.frame hj rfl rfl hsame (by simp)
      next endpoint serial he =>
      refine h.frame hj rfl rfl hsame ?_
      intro key' e' heq hkey
      cases heq
      rw [EndpointTable.lookup] at he
      split at he
      · cases he
      · exact h.gone _ (hkey ▸ he) rfl
    | register key endpoint m => exact h.register hj
    | check lease =>
      simp only [Stage.next]
      split <;> exact h.frame hj rfl rfl hsame (by simp)
    | push lease => exact h.frame hj rfl rfl (hhooks lease _ (by simp)) (by simp [Stage.next])
    | recheck lease =>
      simp only [Stage.next]
      split <;> exact h.frame hj rfl rfl hsame (by simp)
    | take lease => exact h.frame hj rfl rfl (hhooks lease _ (by simp)) (by simp [Stage.next])
    | swap lease =>
      simp only [Stage.next]
      split
      · exact h.frame hj rfl rfl hsame (by simp)
      · exact h.frame hj rfl rfl (hhooks lease _ (by simp)) (by simp)
    | clear lease => exact h.frame hj rfl rfl (hhooks lease _ (by simp)) (by simp [Stage.next])
    | unregister lease =>
      simp only [Stage.next]
      split <;> exact h.frame hj rfl rfl hsame (by simp)
    | drain serviceId env component => exact h.frame hj rfl rfl hsame (by simp [Stage.next])
    | remove target => exact h.remove hj
    | cancel todo =>
      simp only [Stage.next]
      split
      · exact h.frame hj rfl rfl hsame (by simp)
      split
      · exact h.frame hj rfl rfl hsame (by simp)
      · exact h.frame hj rfl rfl (hhooks _ _ (by simp)) (by simp)
    | cancelTake lease todo =>
      refine h.frame hj rfl rfl ?_ (by simp [Stage.next])
      intro a l'
      simp only [Stage.next,getElem?_modifyLease,getElem?_runHooks]
      grind -ring -linarith -ac
    | ended r => exact h.frame hj rfl rfl hsame (by simp [Stage.next])

end

/-- What the removal of a thread leaves behind. -/
theorem removed_self {w : Threads} {i pick : Nat} {c : EndpointCall} {target : Target} {k : Text}
    {n : Nat} (hkept : TableKept w) (hi : w.threads[i]? = some (c,.remove target))
    (hreaches : w.reaches (.go i pick) = true) (hhit : target.hit k = true)
    (hn : (w.table.entries.get? k).map Prod.snd = some n) :
    Removed w i k n (w.step (.go i pick)) := by
  have hlt := (List.getElem?_eq_some_iff.mp hi).1
  obtain ⟨e,he,hserial⟩ := Option.map_eq_some_iff.mp hn
  simp only [Threads.reaches,hi,List.all_eq_true] at hreaches
  simp only [Threads.step,hi,Stage.next]
  constructor
  · have hold := hkept.leases.serials k e he
    rw [hserial] at hold
    exact hold
  · intro e' he'
    simp only [EndpointTable.remove,OrdMap.get?_filterMapVals,he,hhit] at he'
    cases he'
  · intro j c' key e' hj hkey
    simp only [List.getElem?_set,hlt] at hj
    split at hj
    · cases hj
    · have hfree := hreaches _ (List.mem_of_getElem? hj)
      simp [hkey,hhit,he,hserial] at hfree
  · intro a l ha hkey hl
    simp only [getElem?_remove,Option.map_eq_some_iff] at ha
    obtain ⟨l₀,hl₀,heq⟩ := ha
    have hthere : l₀.key = k → l₀.serial = n → w.table.there l₀ = true := by
      intro hk hs
      simp [EndpointTable.there,hk,he,hs,hserial]
    refine ⟨l₀,hl₀,?_⟩
    grind -ring -linarith -ac

/-- A call stays the call it is. -/
theorem calls_step (w : Threads) (m : ThreadMove) {j : Nat} {c : EndpointCall} {s : Stage}
    (h : w.threads[j]? = some (c,s)) : ∃ s',(w.step m).threads[j]? = some (c,s') := by
  have hlt := (List.getElem?_eq_some_iff.mp h).1
  cases m with
  | call c' =>
    simp only [Threads.step]
    split
    · exact ⟨s,by rw [List.getElem?_append_left hlt]; exact h⟩
    · exact ⟨s,h⟩
  | go i pick =>
    simp only [Threads.step]
    split
    · exact ⟨s,h⟩
    next c' s' hi =>
    simp only [List.getElem?_set]
    by_cases heq : i = j
    · subst heq
      rw [h] at hi
      cases hi
      exact ⟨_,by rw [if_pos rfl,if_pos hlt]⟩
    · exact ⟨s,by rw [if_neg heq]; exact h⟩

theorem invalidation_reaches_every_lease (moves : List ThreadMove)
    (h : Along Threads.step (fun w m => w.reaches m = true) .fresh moves) :
    Threads.ReachesAll moves := by
  have hend := Along.invariant tableKept_step tableKept_fresh h
  refine ⟨fun hook => List.nodup_iff_count_le_one.mp hend.hooks.once hook,?_⟩
  intro before i pick after w₀ c target heq hw₀ hi r hr a l hl hhit hserial hheld hook r' hbound
  subst heq
  obtain ⟨hbefore,hreaches,_⟩ := along_append.mp h
  rw [← hw₀] at hreaches
  have hkept : TableKept w₀ := hw₀ ▸ Along.invariant tableKept_step tableKept_fresh hbefore
  have hremoved : Removed w₀ i l.key l.serial (run Threads.step w₀ (.go i pick :: after)) := by
    rw [run_cons]
    exact run_invariant removed_step (removed_self hkept hi hreaches hhit hserial) after
  rw [run_append,← hw₀] at *
  -- the lease was there when its endpoint was removed, and is the thread's to cancel
  obtain ⟨l₀,hl₀,hkey,hs,hcut⟩ := hremoved.leases a l hl rfl rfl
  have hunreleased := hheld l₀ hl₀
  rw [hunreleased] at hcut
  obtain ⟨hreleased,_,hdrained⟩ := hend.leases.cut a l i hl (hcut.resolve_left (by simp))
  have hdone : l.drained = true := by
    rcases hdrained with hdrained | ⟨c',s,hs,hmem,_⟩
    · exact hdrained
    · rw [hr] at hs
      cases hs
      cases hmem
  constructor
  · rcases hend.hooks.ended hook a r' l hbound hl with hran | ⟨_,hnot⟩ | hgone
    · exact List.count_eq_one_of_mem hend.hooks.once hran
    · rw [hdone] at hnot
      cases hnot
    · rw [hreleased] at hgone
      cases hgone
  · intro hran
    obtain ⟨b,s,l',hthread,hl',hdone'⟩ := hkept.hooks.ran hook hran
    have hsame : ∃ s',(run Threads.step w₀ (.go i pick :: after)).threads[hook]? =
        some (.bind b,s') :=
      run_invariant (I := fun w => ∃ s',w.threads[hook]? = some (.bind b,s'))
        (fun w m ⟨s',hs'⟩ => calls_step w m hs') ⟨s,hthread⟩ _
    obtain ⟨s',hs'⟩ := hsame
    rw [hbound] at hs'
    cases hs'
    rw [hl₀] at hl'
    cases hl'
    have hthere : w₀.table.there l₀ = true := by
      obtain ⟨e,he,hn⟩ := Option.map_eq_some_iff.mp hserial
      simp [EndpointTable.there,hkey,he,hn,hs]
    rcases hkept.leases.current a l₀ hl₀ hthere with hgone | ⟨hopen,_⟩
    · rw [hunreleased] at hgone
      cases hgone
    · rw [hdone'] at hopen
      cases hopen

/-- One endpoint, published and leased, and an invalidation of its service. -/
def oneKey : EndpointKey := ⟨['s'],.live,['w'],.http⟩

def oneTarget : Target := ⟨['s'],none,none⟩

/-- A hook is bound, the endpoint is invalidated, and the hook runs. -/
def invalidated : List ThreadMove :=
  [.call (.publish oneKey ⟨['h'],80,1,['i']⟩),.go 0 0,.call (.acquire oneKey),.go 1 0,.go 1 0,
    .call (.bind 0),.go 2 0,.go 2 0,.go 2 0,.call (.invalidate oneTarget),.go 3 0,.go 3 0,.go 3 0,
    .go 3 0]

theorem invalidation_reaches_one_lease :
    Threads.ReachesAll invalidated ∧ (run Threads.step .fresh invalidated).table.ran = [2] ∧
      (run Threads.step .fresh invalidated).threads[3]? =
        some (.invalidate oneTarget,.ended none) :=
  ⟨invalidation_reaches_every_lease invalidated (by decide),by decide,by decide⟩

/-- The invalidation comes between the look up of a lease and its registration: the lease
is missed, and its hook does not run. -/
theorem unregistered_lease_is_missed :
    ¬ Threads.ReachesAll [.call (.publish oneKey ⟨['h'],80,1,['i']⟩),.go 0 0,
      .call (.acquire oneKey),.go 1 0,.call (.invalidate oneTarget),.go 2 0,.go 2 0,.go 1 0,
      .call (.bind 0),.go 3 0,.go 3 0,.go 3 0] := by
  intro h
  have hran := h.2 [.call (.publish oneKey ⟨['h'],80,1,['i']⟩),.go 0 0,.call (.acquire oneKey),
    .go 1 0,.call (.invalidate oneTarget)] 2 0 [.go 2 0,.go 1 0,.call (.bind 0),.go 3 0,.go 3 0,
    .go 3 0] _ (.invalidate oneTarget) oneTarget rfl rfl (by decide) none (by decide) 0
    ⟨oneKey.keyString,⟨['h'],80,1,['i']⟩,false,[3],0,false,none,false⟩ (by decide) (by decide)
    (by decide) (by decide) 3 none (by decide)
  revert hran
  decide

end Flagship.Core

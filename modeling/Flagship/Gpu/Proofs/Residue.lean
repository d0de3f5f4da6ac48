import Flagship.Gpu.Manager
import Flagship.Gpu.Proofs.Lifecycle
import Flagship.Lib.Interleave

namespace Flagship.Gpu
open Lib Journal

/-- What an allocation left on a device is gone: maintenance cleared the device, or the runtime
reported the workload absent and then what was claimed was idle, and cleaned with nobody on it. -/
def Resolved (trail : List Evidence) (id : Text) (c : DeviceClaim) : Prop :=
  .cleared c.device ∈ trail ∨
    [.absent id,.idle c.device c.partition,.cleaned c.device c.partition true].Sublist trail

/-- Two allocations of one trust domain. -/
def Together (policy policy' : Policy) : Prop :=
  policy.kind = .cooperative ∧ policy'.kind = .cooperative ∧ policy'.domain = policy.domain

/-- Two claims on the same thing, or on a device and a part of it. -/
def Overlap (c c' : DeviceClaim) : Prop :=
  c.device = c'.device ∧ (c.partition = none ∨ c'.partition = none ∨ c.partition = c'.partition)

/-- What keeps strangers away from what an allocation may have left. -/
inductive Guarded (j : Journal) (trail : List Evidence) (id : Text) (policy : Policy)
    (c : DeviceClaim) : Prop
  | quarantined (hq : j.quarantined.contains c.device = true)
  | held (x : Holding) (hx : x ∈ j.holdings) (hid : x.allocation = id)
    (hdevice : x.device = c.device) (hpartition : x.partition = c.partition)
    (hpolicy : x.policy = policy)
  /-- It left, and others of its domain are still there. -/
  | shared (x : Holding) (hx : x ∈ j.holdings) (hdevice : x.device = c.device)
    (habsent : .absent id ∈ trail) (hwhole : c.partition = none)
    (htogether : Together policy x.policy)

/-- The trail of a journal: whatever was taken is guarded until it is resolved, and only those of
one domain followed each other without that. -/
structure Sound (j : Journal) (trail : List Evidence) : Prop where
  accounted : Accounted j
  guarded : ∀ before after id policy claims,trail = before ++ .took id policy claims :: after →
    ∀ c ∈ claims,Resolved after id c ∨ Guarded j after id policy c
  crossed : ∀ before between after id policy claims id' policy' claims',
    trail = before ++ .took id policy claims :: (between ++ .took id' policy' claims' :: after) →
    ∀ c ∈ claims,∀ c' ∈ claims',Overlap c c' →
      Resolved between id c ∨ Together policy policy'

section
variable {j j' : Journal} {trail more : List Evidence} {id : Text} {policy : Policy}
  {c : DeviceClaim}

theorem Together.trans {p q r : Policy} (hpq : Together p q) (hqr : Together q r) : Together p r :=
  ⟨hpq.1,hqr.2.1,hqr.2.2.trans hpq.2.2⟩

theorem Resolved.append (h : Resolved trail id c) (more : List Evidence) :
    Resolved (trail ++ more) id c := by
  rcases h with hc | hs
  · exact .inl (List.mem_append_left _ hc)
  · exact .inr (hs.trans (List.sublist_append_left _ _))

/-- A guard stands as long as nobody leaves and no quarantine ends. -/
theorem Guarded.mono (h : Guarded j trail id policy c) (hheld : ∀ x ∈ j.holdings,x ∈ j'.holdings)
    (hq : ∀ device,j.quarantined.contains device = true → j'.quarantined.contains device = true)
    (more : List Evidence) : Guarded j' (trail ++ more) id policy c := by
  cases h with
  | quarantined hc => exact .quarantined (hq _ hc)
  | held x hx hid hdevice hpartition hpolicy =>
    exact .held x (hheld x hx) hid hdevice hpartition hpolicy
  | shared x hx hdevice habsent hwhole htogether =>
    exact .shared x (hheld x hx) hdevice (List.mem_append_left _ habsent) hwhole htogether

/-- Where an entry of a longer trail was, if it is none of the new ones. -/
theorem split_of_append {x : Evidence} {before after : List Evidence}
    (h : trail ++ more = before ++ x :: after) (hx : x ∉ more) :
    ∃ rest,trail = before ++ x :: rest ∧ after = rest ++ more := by
  rcases List.append_eq_append_iff.mp h with ⟨between,_,heq⟩ | ⟨between,htrail,heq⟩
  · exact absurd (heq ▸ List.mem_append_right _ List.mem_cons_self) hx
  · cases between with
    | nil =>
      rw [List.nil_append] at heq
      exact absurd (heq ▸ List.mem_cons_self) hx
    | cons y rest =>
      obtain ⟨rfl,rfl⟩ := List.cons.inj heq
      exact ⟨rest,htrail,rfl⟩

/-- A step that takes nothing has to keep up the guards. -/
theorem Sound.extend (h : Sound j trail) (hj : Accounted j')
    (hnone : ∀ id policy claims,.took id policy claims ∉ more)
    (hguard : ∀ after id policy c,Guarded j after id policy c →
      Resolved (after ++ more) id c ∨ Guarded j' (after ++ more) id policy c) :
    Sound j' (trail ++ more) where
  accounted := hj
  guarded before after id policy claims heq c hc := by
    obtain ⟨rest,hold,rfl⟩ := split_of_append heq (hnone id policy claims)
    rcases h.guarded before rest id policy claims hold c hc with hr | hg
    · exact .inl (hr.append more)
    · exact hguard rest id policy c hg
  crossed before between after id policy claims id' policy' claims' heq c hc c' hc' hover := by
    rw [← List.cons_append,← List.append_assoc] at heq
    obtain ⟨rest,hold,rfl⟩ := split_of_append heq (hnone id' policy' claims')
    rw [List.append_assoc,List.cons_append] at hold
    exact h.crossed before between rest id policy claims id' policy' claims' hold c hc c' hc' hover

theorem Sound.note (h : Sound j trail) (hnone : ∀ id policy claims,.took id policy claims ∉ more) :
    Sound j (trail ++ more) :=
  h.extend h.accounted hnone fun _ _ _ _ hg => .inr (hg.mono (fun _ hx => hx) (fun _ hq => hq) more)

/-- A change of the journal that moves no holding and ends no quarantine. -/
theorem Sound.quiet (h : Sound j trail) (hj : Accounted j') (hheld : j'.holdings = j.holdings)
    (hq : ∀ device,j.quarantined.contains device = true → j'.quarantined.contains device = true) :
    Sound j' trail := by
  have hsame : Sound j' (trail ++ []) :=
    h.extend hj (fun _ _ _ hin => absurd hin List.not_mem_nil) fun _ _ _ _ hg =>
      .inr (hg.mono (fun _ hx => hheld ▸ hx) hq [])
  rwa [List.append_nil] at hsame

theorem Sound.quiet_call (h : Sound j trail) (call : JournalCall) (hc : call.Quiet) :
    Sound (j.call call) trail := by
  have hj : Accounted (j.call call) := h.accounted.change (call_change j call)
  have ho := onward_call j call
  refine h.quiet hj (ho.held hc) fun device hq => ho.quarantined device hq fun ref heq => ?_
  rw [heq] at hc
  exact hc

theorem Sound.new : Sound .new [] where
  accounted := .new
  guarded before after id policy claims heq := by simp at heq
  crossed before between after id policy claims id' policy' claims' heq := by simp at heq

/-- Sharers name no partition. -/
theorem Journal.Accounted.whole (hj : Accounted j) {x : Holding} (hx : x ∈ j.holdings)
    (hcoop : x.policy.kind = .cooperative) : x.partition = none := by
  have hshaped := (hj.apart x.device).shaped x (mem_onDevice.mpr ⟨hx,rfl⟩)
  cases hp : x.partition with
  | none => rfl
  | some p =>
    rw [hshaped.mpr (by rw [hp]; rfl)] at hcoop
    cases hcoop

/-- Two holders of one device that are not the same one. -/
theorem Journal.Accounted.beside (hj : Accounted j) {x y : Holding} (hx : x ∈ j.holdings)
    (hy : y ∈ j.holdings) (hdevice : y.device = x.device) (hne : x.allocation ≠ y.allocation) :
    Beside x y := by
  rcases (hj.apart x.device).eq_or_beside (mem_onDevice.mpr ⟨hx,rfl⟩)
    (mem_onDevice.mpr ⟨hy,hdevice⟩) with heq | hb
  · exact absurd (congrArg Holding.allocation heq) hne
  · exact hb

theorem Journal.Accounted.together (hj : Accounted j) {x y : Holding} (hx : x ∈ j.holdings)
    (hy : y ∈ j.holdings) (hdevice : y.device = x.device) (hne : x.allocation ≠ y.allocation)
    (hcoop : x.policy.kind = .cooperative) : Together x.policy y.policy := by
  cases hj.beside hx hy hdevice hne with
  | partitions ha _ _ =>
    rw [ha] at hcoop
    cases hcoop
  | sharers _ hb hdomain _ => exact ⟨hcoop,hb,hdomain⟩

/-- What an allocation holds is what it claimed. -/
theorem Journal.Accounted.claimed (hj : Accounted j) {rec : AllocationRecord}
    (hrec : j.allocations.get? id = some rec) {x : Holding} (hx : x ∈ j.holdings)
    (hid : x.allocation = id) : ∃ c ∈ rec.claims,x = rec.holding c := by
  have hown : x ∈ owned rec :=
    (hj.owns id rec hrec).mem_iff.mp (List.mem_filter.mpr ⟨hx,decide_eq_true hid⟩)
  unfold owned at hown
  split_ifs at hown
  · cases hown
  · obtain ⟨c,hc,rfl⟩ := List.mem_map.mp hown
    exact ⟨c,hc,rfl⟩

/-- What an allocation that is not over claimed, it holds. -/
theorem Journal.Accounted.holding (hj : Accounted j) {rec : AllocationRecord}
    (hrec : j.allocations.get? id = some rec) (hopen : rec.state.isTerminal = false)
    {c : DeviceClaim} (hc : c ∈ rec.claims) : rec.holding c ∈ j.holdings := by
  have hown : rec.holding c ∈ owned rec := by
    rw [owned,hopen]
    exact List.mem_map_of_mem hc
  exact List.mem_of_mem_filter ((hj.owns id rec hrec).mem_iff.mpr hown)

/-- How an allocation may let go of a claim: the device is in quarantine, the claim is proven
clean, or others of the domain stay on it. -/
def LetsGo (j j' : Journal) (more : List Evidence) (rec : AllocationRecord) (c : DeviceClaim) :
    Prop :=
  j'.quarantined.contains c.device = true ∨
  [.absent rec.id,.idle c.device c.partition,.cleaned c.device c.partition true].Sublist more ∨
  .absent rec.id ∈ more ∧ rec.request.policy.kind = .cooperative ∧
    ∃ x ∈ j.holdings,x.device = c.device ∧ x.allocation ≠ rec.id

/-- An allocation ends, and lets go of each of its claims in one of these ways. -/
theorem Sound.finished (h : Sound j trail) {rec rec' : AllocationRecord} {source : AllocationState}
    {how : Finish} (hrec : j.allocations.get? id = some rec)
    (hfinish : j.finish id source how = .ok (rec',j'))
    (hnone : ∀ id policy claims,.took id policy claims ∉ more)
    (hgo : ∀ c ∈ rec.claims,LetsGo j j' more rec c) : Sound j' (trail ++ more) := by
  have hj := h.accounted
  obtain ⟨_,_,_,_,_,_,_,_,_,_,hheld,_,hq⟩ := finish_ok hfinish
  obtain rfl : rec.id = id := hj.keyed id rec hrec
  have hstays : ∀ {x : Holding},x ∈ j.holdings → x.allocation ≠ rec.id → x ∈ j'.holdings := by
    intro x hx hne
    rw [hheld]
    exact List.mem_filter.mpr ⟨hx,decide_eq_true hne⟩
  have hblocked : ∀ {device : Text},j.quarantined.contains device = true →
      j'.quarantined.contains device = true := by
    intro device hc
    rw [hq]
    cases how with
    | released => exact hc
    | quarantined devices reason => exact contains_foldl_set devices reason hc
  refine h.extend (hj.change (finish_change hfinish)) hnone fun after o policy c hg => ?_
  -- A holding of the allocation that ends, and how its claim goes.
  have hleaves : ∀ {x : Holding},x ∈ j.holdings → x.allocation = rec.id → x.device = c.device →
      x.partition = c.partition → (x.policy.kind = .cooperative → Together policy x.policy) →
      (.absent o ∈ after ∨ o = rec.id) →
      Resolved (after ++ more) o c ∨ Guarded j' (after ++ more) o policy c := by
    intro x hx hid hdevice hpartition htogether ho
    obtain ⟨c0,hc0,rfl⟩ := hj.claimed hrec hx hid
    have hdevice : c0.device = c.device := hdevice
    have hpartition : c0.partition = c.partition := hpartition
    rcases hgo c0 hc0 with hclosed | hclean | ⟨habsent,hcoop,y,hy,hydevice,hne⟩
    · exact .inr (.quarantined (hdevice ▸ hclosed))
    · rw [hdevice,hpartition] at hclean
      rcases ho with ho | rfl
      · refine .inl (.inr ?_)
        exact (List.singleton_sublist.mpr ho).append ((List.sublist_cons_self _ _).trans hclean)
      · exact .inl (.inr (hclean.trans (List.sublist_append_right _ _)))
    · have hyx : y.device = (rec.holding c0).device := hydevice
      have hsharers := hj.together hx hy hyx (fun he => hne (he.symm.trans hid)) hcoop
      refine .inr (.shared y (hstays hy hne) (hydevice.trans hdevice) ?_ ?_
        ((htogether hcoop).trans hsharers))
      · rcases ho with ho | rfl
        · exact List.mem_append_left _ ho
        · exact List.mem_append_right _ habsent
      · exact hpartition ▸ hj.whole hx hcoop
  cases hg with
  | quarantined hc => exact .inr (.quarantined (hblocked hc))
  | held x hx hid hdevice hpartition hpolicy =>
    by_cases hne : x.allocation = rec.id
    · subst hpolicy
      exact hleaves hx hne hdevice hpartition (fun hcoop => ⟨hcoop,hcoop,rfl⟩)
        (.inr (hid.symm.trans hne))
    · exact .inr (.held x (hstays hx hne) hid hdevice hpartition hpolicy)
  | shared x hx hdevice habsent hwhole htogether =>
    by_cases hne : x.allocation = rec.id
    · exact hleaves hx hne hdevice ((hj.whole hx htogether.2.1).trans hwhole.symm)
        (fun _ => htogether) (.inl habsent)
    · exact .inr (.shared x (hstays hx hne) hdevice (List.mem_append_left _ habsent) hwhole
        htogether)

/-- Whoever may take a device that is guarded is of the domain that guards it. -/
theorem Guarded.admitted (h : Guarded j trail id policy c) (hj : Accounted j)
    {rec : AllocationRecord} {c' : DeviceClaim} {total : Nat} (hover : Overlap c c')
    (hfree : j.quarantined.contains c'.device = false)
    (hin : Admitted (onDevice c'.device j.holdings) (rec.holding c') total) :
    Together policy rec.request.policy := by
  obtain ⟨hsame,hparts⟩ := hover
  cases h with
  | quarantined hq =>
    rw [hsame,hfree] at hq
    cases hq
  | held x hx hid hdevice hpartition hpolicy =>
    have hthere : x ∈ onDevice c'.device j.holdings := mem_onDevice.mpr ⟨hx,hdevice.trans hsame⟩
    cases hin with
    | alone _ _ hempty =>
      rw [hempty] at hthere
      cases hthere
    | apart _ hsome hrest =>
      obtain ⟨hpart,hne⟩ := hrest x hthere
      have hsome : c'.partition.isSome := hsome
      rcases hparts with hnone | hnone | heq
      · rw [hpartition,hnone] at hpart
        cases hpart
      · rw [hnone] at hsome
        cases hsome
      · exact absurd (hpartition.trans heq) hne
    | shared hp _ hrest _ _ =>
      obtain ⟨hcoop,hdomain,_⟩ := hrest x hthere
      exact hpolicy ▸ ⟨hcoop,hp,hdomain.symm⟩
  | shared x hx hdevice habsent hwhole htogether =>
    have hthere : x ∈ onDevice c'.device j.holdings := mem_onDevice.mpr ⟨hx,hdevice.trans hsame⟩
    cases hin with
    | alone _ _ hempty =>
      rw [hempty] at hthere
      cases hthere
    | apart _ _ hrest =>
      have hpart := (hrest x hthere).1
      rw [hj.whole hx htogether.2.1] at hpart
      cases hpart
    | shared hp _ hrest _ _ =>
      obtain ⟨hcoop,hdomain,_⟩ := hrest x hthere
      exact htogether.trans ⟨hcoop,hp,hdomain.symm⟩

/-- A reservation is on the trail, and what it takes is guarded by its own holdings. -/
theorem Sound.reserved (h : Sound j trail) {rec rec' : AllocationRecord}
    {claims : List DeviceClaim} {memory : List (Text × Nat)} {generation : Nat}
    (hrec : j.allocations.get? id = some rec)
    (hreserve : j.reserve id claims memory generation = .ok (rec',j')) :
    Sound j' (trail ++ [.took id rec.request.policy claims]) := by
  have hj' : Accounted j' := h.accounted.change (reserve_change hreserve)
  obtain ⟨old,held,hold,_,_,_,took,_,rfl⟩ := reserve_ok hreserve
  obtain rfl := Option.some.inj (hold.symm.trans hrec)
  have hid : old.id = id := h.accounted.keyed id old hold
  have hstays : ∀ x ∈ j.holdings,x ∈ held := fun x hx =>
    took.perm.mem_iff.mpr (List.mem_append_right _ hx)
  refine ⟨hj',?_,?_⟩
  · intro before after o policy taken heq c hc
    rcases append_singleton_cases heq with ⟨rest,hbefore,rfl⟩ | ⟨_,hsame,rfl⟩
    · rcases h.guarded before rest o policy taken hbefore c hc with hr | hg
      · exact .inl (hr.append _)
      · refine .inr (hg.mono hstays ?_ _)
        exact fun _ hq => hq
    · obtain ⟨rfl,rfl,rfl⟩ := Evidence.took.inj hsame
      refine .inr (.held (old.holding c) ?_ hid rfl rfl rfl)
      exact took.perm.mem_iff.mpr (List.mem_append_left _ (List.mem_map_of_mem hc))
  · intro before between after o policy taken n policy' claims' heq c hc c' hc' hover
    rw [← List.cons_append,← List.append_assoc] at heq
    rcases append_singleton_cases heq with ⟨rest,hbefore,rfl⟩ | ⟨hbefore,hsame,rfl⟩
    · rw [List.append_assoc,List.cons_append] at hbefore
      exact h.crossed before between rest o policy taken n policy' claims' hbefore c hc c' hc' hover
    · obtain ⟨rfl,rfl,rfl⟩ := Evidence.took.inj hsame
      rcases h.guarded before between o policy taken hbefore c hc with hr | hg
      · exact .inl hr
      · obtain ⟨hfree,total,_,hin⟩ := took.admitted c' hc'
        exact .inr (hg.admitted h.accounted hover hfree hin)

/-- Maintenance clears a device, and that is on the trail. -/
theorem Sound.cleared (h : Sound j trail) {device ref : Text}
    (hclear : j.clearQuarantine device ref = .ok j') :
    Sound j' (trail ++ if j.quarantined.contains device then [.cleared device] else []) := by
  have hj' : Accounted j' := h.accounted.change (clearQuarantine_change hclear)
  unfold Journal.clearQuarantine at hclear
  split_ifs at hclear with href
  obtain rfl := Except.ok.inj hclear
  refine h.extend hj' ?_ ?_
  · intro o policy claims hin
    split_ifs at hin <;> simp at hin
  · intro after o policy c hg
    cases hg with
    | quarantined hq =>
      by_cases hd : c.device = device
      · refine .inl (.inl (List.mem_append_right _ ?_))
        rw [← hd,if_pos hq]
        exact List.mem_singleton_self _
      · refine .inr (.quarantined ?_)
        rw [OrdMap.contains,OrdMap.get?_erase_ne hd]
        exact hq
    | held x hx hid hdevice hpartition hpolicy =>
      exact .inr (.held x hx hid hdevice hpartition hpolicy)
    | shared x hx hdevice habsent hwhole htogether =>
      exact .inr (.shared x hx hdevice (List.mem_append_left _ habsent) hwhole htogether)

end

/-- A manager with a sound trail, whose journal came from an earlier one by calls of it. -/
structure Came (j0 : Journal) (m : Manager) : Prop where
  sound : Sound m.journal m.trail
  calls : ∃ calls,m.journal = run Journal.call j0 calls

namespace Manager
variable {j0 : Journal} {m m' : Manager} {id : Text} {rec : AllocationRecord} {α β : Type}

theorem came_refl (h : Sound m.journal m.trail) : Came m.journal m := ⟨h,[],rfl⟩

/-- Only the journal and the trail count. -/
theorem came_same (h : Came j0 m) (hj : m'.journal = m.journal) (ht : m'.trail = m.trail) :
    Came j0 m' := by
  obtain ⟨calls,hcalls⟩ := h.calls
  exact ⟨by rw [hj,ht]; exact h.sound,calls,hj.trans hcalls⟩

/-- One more call of the journal. -/
theorem came_call (call : JournalCall) (h : Came j0 m)
    (hj : m'.journal = m.journal.call call) (hs : Sound m'.journal m'.trail) : Came j0 m' := by
  obtain ⟨calls,hcalls⟩ := h.calls
  refine ⟨hs,calls ++ [call],?_⟩
  rw [run_append,← hcalls,run_cons,run_nil]
  exact hj

theorem came_andThen {r : Answer α} {f : α → Manager → Answer β} (hr : Came j0 r.2)
    (hf : ∀ a m,r = (.ok a,m) → Came j0 m → Came j0 (f a m).2) : Came j0 (andThen r f).2 := by
  obtain ⟨answer,m⟩ := r
  cases answer with
  | error e => exact hr
  | ok a => exact hf a m rfl hr

theorem came_withRecord {f : AllocationRecord → Answer α} (h : Came j0 m)
    (hf : ∀ rec,m.journal.allocations.get? id = some rec → Came j0 (f rec).2) :
    Came j0 (m.withRecord id f).2 := by
  unfold withRecord Manager.get
  cases hrec : m.journal.allocations.get? id with
  | none => exact h
  | some rec => exact hf rec hrec

/-- A write that succeeds is a call of the journal, and one that fails does nothing. -/
theorem came_write (call : JournalCall) {r : Except JournalError (α × Journal)} (h : Came j0 m)
    (hkeep : m.journal.call call = keep m.journal r)
    (hs : ∀ a j',r = .ok (a,j') → Sound j' m.trail) : Came j0 (m.write r).2 := by
  match r,hkeep,hs with
  | .error e,_,_ => exact h
  | .ok (a,j'),hkeep,hs => exact came_call call h hkeep.symm (hs a j' rfl)

theorem came_quiet (call : JournalCall) (hc : call.Quiet) (h : Came j0 m)
    {r : Except JournalError (α × Journal)} (hkeep : m.journal.call call = keep m.journal r) :
    Came j0 (m.write r).2 := by
  refine came_write call h hkeep fun a j' hr => ?_
  have hs := h.sound.quiet_call call hc
  rwa [hkeep,hr] at hs

theorem came_transition (h : Came j0 m) {source target : AllocationState} {reason : Option Text} :
    Came j0 (m.write (m.journal.transition id source target reason)).2 :=
  came_quiet (.transition id source target reason) trivial h rfl

theorem note_note (m : Manager) (a b : List Evidence) : (m.note a).note b = m.note (a ++ b) := by
  simp only [note,List.append_assoc]

theorem came_note (h : Came j0 m) {more : List Evidence}
    (hnone : ∀ id policy claims,.took id policy claims ∉ more) : Came j0 (m.note more) :=
  ⟨h.sound.note hnone,h.calls⟩

/-- The end of an allocation, after what was noted about it. -/
theorem came_finish (h : Came j0 m) {state : AllocationState} {how : Finish} {settle : Settle}
    {more : List Evidence} (hrec : m.journal.allocations.get? id = some rec)
    (hnone : ∀ id policy claims,.took id policy claims ∉ more)
    (hgo : ∀ rec' j',m.journal.finish id state how = .ok (rec',j') →
      ∀ c ∈ rec.claims,LetsGo m.journal j' more rec c) :
    Came j0 ((m.note more).finish id state how settle).2 := by
  refine came_andThen ?_ fun _ m' _ hm' => hm'
  refine came_write (.finish id state how) (came_note h hnone) rfl fun rec' j' hok => ?_
  exact h.sound.finished hrec hok hnone (hgo rec' j' hok)

/-- The end of an allocation about which nothing was noted. -/
theorem came_end (h : Came j0 m) {state : AllocationState} {how : Finish}
    (hrec : m.journal.allocations.get? id = some rec)
    (hgo : ∀ rec' j',m.journal.finish id state how = .ok (rec',j') →
      ∀ c ∈ rec.claims,LetsGo m.journal j' [] rec c) :
    Came j0 (m.write (m.journal.finish id state how)).2 := by
  refine came_write (.finish id state how) h rfl fun rec' j' hok => ?_
  have hs : Sound j' (m.trail ++ []) :=
    h.sound.finished hrec hok (fun _ _ _ hin => absurd hin List.not_mem_nil) (hgo rec' j' hok)
  rwa [List.append_nil] at hs

theorem came_finish_nothing (h : Came j0 m) {state : AllocationState} {how : Finish}
    (hrec : m.journal.allocations.get? id = some rec) (hclaims : rec.claims = []) :
    Came j0 (m.write (m.journal.finish id state how)).2 :=
  came_end h hrec fun _ _ _ _ hc => absurd (hclaims ▸ hc) List.not_mem_nil

theorem came_close (h : Came j0 m) {state : AllocationState} {reason : Text}
    (hstate : state = .requested ∨ state = .admitted) : Came j0 (m.close id state reason).2 := by
  refine came_andThen (came_transition h) fun rec' m' hok hm' => ?_
  unfold Manager.write at hok
  split at hok
  next a j' hj =>
    obtain ⟨rec,hrec,hold,_,_,_,rfl,rfl⟩ := transition_ok hj
    obtain ⟨_,rfl⟩ := Prod.mk.inj hok
    have hclaims : rec.claims = [] :=
      h.sound.accounted.unreserved id rec hrec (hold ▸ hstate)
    refine came_finish_nothing hm' (OrdMap.get?_set_self _ _ _) hclaims
  · cases hok

theorem came_drain (h : Came j0 m) {reason : Text} : Came j0 (m.drain id reason).2 := by
  refine came_withRecord h fun rec hrec => ?_
  split
  · exact came_transition h
  · exact came_transition h
  · exact came_transition h
  · exact h
  · exact h
  · exact h

theorem came_cancel (h : Came j0 m) {reason : Text} : Came j0 (m.cancel id reason).2 := by
  refine came_withRecord h fun rec hrec => ?_
  have hm : Came j0 { m with queue := (m.queue.remove id).2 } := came_same h rfl rfl
  dsimp only
  split
  next hstate => exact came_close hm (.inl hstate)
  next hstate => exact came_close hm (.inr hstate)
  · exact hm
  · exact hm
  · exact came_drain hm

theorem came_each {f : Manager → AllocationRecord → Answer α} {recs : List AllocationRecord}
    (hf : ∀ m rec,rec ∈ recs → Came j0 m → Came j0 (f m rec).2) (h : Came j0 m) :
    Came j0 (each f m recs).2 := by
  induction recs generalizing m with
  | nil => exact h
  | cons rec recs ih =>
    unfold each
    refine came_andThen (hf m rec List.mem_cons_self h) fun a m' _ hm' => ?_
    refine came_andThen (ih (fun m rec hin => hf m rec (List.mem_cons_of_mem _ hin)) hm') ?_
    exact fun _ _ _ hm'' => hm''

theorem came_reserve (h : Came j0 m) {picked : Option (List DeviceClaim × List (Text × Nat))} :
    Came j0 (m.reserve id picked).2 := by
  refine came_withRecord h fun rec hrec => ?_
  split_ifs
  · exact h
  · exact h
  · cases picked with
    | none => exact h
    | some p =>
      obtain ⟨claims,memory⟩ := p
      dsimp only
      split
      next rec' j' hok =>
        refine came_call (.reserve id claims memory m.generation) h ?_
          (h.sound.reserved hrec hok)
        simp only [Journal.call,hok,keep,note]
      · exact h
      · exact h

theorem came_pumpRound {pick : Manager → Text → Option (List DeviceClaim × List (Text × Nat))}
    {ids : List Text} (h : Came j0 m) : Came j0 (pumpRound pick m ids).2 := by
  induction ids generalizing m with
  | nil => exact h
  | cons id ids ih =>
    unfold pumpRound
    dsimp only
    split_ifs
    · exact ih (came_same h rfl rfl)
    · refine came_andThen (came_reserve h) fun outcome m' _ hm' => ?_
      cases outcome with
      | reserved rec => exact came_same hm' rfl rfl
      | noCapacity => exact ih hm'

theorem came_pump {pick : Manager → Text → Option (List DeviceClaim × List (Text × Nat))}
    {rounds : Nat} (h : Came j0 m) : Came j0 (pump pick rounds m).2 := by
  induction rounds generalizing m with
  | zero => exact h
  | succ rounds ih =>
    refine came_andThen (came_pumpRound h) fun progressed m' _ hm' => ?_
    cases progressed with
    | none => exact hm'
    | some id => exact came_andThen (ih hm') fun _ _ _ hm'' => hm''

/-- What was cleaned while somebody else was on it is shared. -/
theorem cooperative_of_not_alone (hj : Accounted m.journal)
    (hrec : m.journal.allocations.get? rec.id = some rec) (hopen : rec.state.isTerminal = false)
    {c : DeviceClaim} (hc : c ∈ rec.claims) (halone : m.alone rec.id c = false) :
    rec.request.policy.kind = .cooperative ∧
      ∃ x ∈ m.journal.holdings,x.device = c.device ∧ x.allocation ≠ rec.id := by
  obtain ⟨x,hx,hother⟩ := List.all_eq_false.mp halone
  obtain ⟨hx,hdevice⟩ := mem_onDevice.mp hx
  simp only [Bool.or_eq_true,beq_iff_eq,bne_iff_ne,not_or,not_not] at hother
  obtain ⟨hne,hpartition⟩ := hother
  refine ⟨?_,x,hx,hdevice,hne⟩
  have hown := hj.holding hrec hopen hc
  cases hj.beside hown hx hdevice (fun he => hne he.symm) with
  | partitions _ _ hparts => exact absurd hpartition.symm hparts
  | sharers hcoop _ _ _ => exact hcoop

theorem contains_foldl_set_of_mem {devices : List Text} {device : Text} (reason : Text)
    (hd : device ∈ devices) (q : OrdMap Text Text) :
    (devices.foldl (fun q d => q.set d reason) q).contains device = true := by
  induction devices generalizing q with
  | nil => cases hd
  | cons d devices ih =>
    rcases List.mem_cons.mp hd with rfl | hd
    · refine contains_foldl_set devices reason ?_
      rw [OrdMap.contains_set]
      exact .inl rfl
    · exact ih hd _

/-- The devices that an allocation ends with in quarantine are in quarantine. -/
theorem quarantined_of_finish {j j' : Journal} {state : AllocationState} {devices : List Text}
    {reason : Text} {rec' : AllocationRecord}
    (hfinish : j.finish id state (.quarantined devices reason) = .ok (rec',j')) {device : Text}
    (hd : device ∈ devices) : j'.quarantined.contains device = true := by
  obtain ⟨_,_,_,_,_,_,_,_,_,_,_,_,hq⟩ := finish_ok hfinish
  rw [hq]
  exact contains_foldl_set_of_mem reason hd _

/-- What is learnt of an allocation whose workload is gone and whose devices are idle. -/
def learnt (m : Manager) (s : Surroundings) (rec : AllocationRecord) : List Evidence :=
  [.absent rec.id] ++ (rec.claims.map fun c => .idle c.device c.partition) ++
    (rec.claims.filter fun c => (m.unprovenReason s c).isNone).map fun c =>
      .cleaned c.device c.partition (m.alone rec.id c)

theorem not_took_learnt (m : Manager) (s : Surroundings) (rec : AllocationRecord) (id : Text)
    (policy : Policy) (claims : List DeviceClaim) : .took id policy claims ∉ m.learnt s rec := by
  simp [learnt]

/-- A claim that is proven clean may go, alone or with others of the domain on the device. -/
theorem letsGo_of_proven (hj : Accounted m.journal)
    (hrec : m.journal.allocations.get? rec.id = some rec) (hopen : rec.state.isTerminal = false)
    {s : Surroundings} {c : DeviceClaim} (hc : c ∈ rec.claims)
    (hclean : m.unprovenReason s c = none) (j' : Journal) :
    LetsGo m.journal j' (m.learnt s rec) rec c := by
  have hin : c ∈ rec.claims.filter fun c => (m.unprovenReason s c).isNone :=
    List.mem_filter.mpr ⟨hc,by rw [hclean]; rfl⟩
  cases halone : m.alone rec.id c with
  | true =>
    have hidle : [Evidence.idle c.device c.partition].Sublist
        (rec.claims.map fun c => .idle c.device c.partition) :=
      List.singleton_sublist.mpr (List.mem_map.mpr ⟨c,hc,rfl⟩)
    have hcleaned : [Evidence.cleaned c.device c.partition true].Sublist
        ((rec.claims.filter fun c => (m.unprovenReason s c).isNone).map fun c =>
          .cleaned c.device c.partition (m.alone rec.id c)) :=
      List.singleton_sublist.mpr (List.mem_map.mpr ⟨c,hin,by rw [halone]⟩)
    have hall := ((List.Sublist.refl [Evidence.absent rec.id]).append hidle).append hcleaned
    exact .inr (.inl hall)
  | false =>
    obtain ⟨hcoop,hothers⟩ := cooperative_of_not_alone hj hrec hopen hc halone
    exact .inr (.inr ⟨List.mem_cons_self,hcoop,hothers⟩)

/-- The devices were idle after the workload was gone: whatever is not proven clean is
quarantined. -/
theorem came_cleanAll (h : Came j0 m) {s : Surroundings}
    (hrec : m.journal.allocations.get? rec.id = some rec) (hopen : rec.state.isTerminal = false) :
    Came j0 (cleanAll ((m.note [.absent rec.id]).note
      (rec.claims.map fun c => .idle c.device c.partition)) s rec).2 := by
  have hproven := fun c hc hclean => letsGo_of_proven h.sound.accounted hrec hopen (s := s)
    (c := c) hc hclean
  unfold cleanAll
  simp only [note_note]
  split_ifs with hall
  · refine came_finish h hrec (m.not_took_learnt s rec) fun rec' j' _ c hc => hproven c hc ?_ j'
    cases hreason : m.unprovenReason s c with
    | none => rfl
    | some why =>
      have hin : (c.device,why) ∈ rec.claims.filterMap fun c =>
          (m.unprovenReason s c).map fun why => (c.device,why) :=
        List.mem_filterMap.mpr ⟨c,hc,by rw [hreason]; rfl⟩
      exact absurd (List.isEmpty_iff.mp hall ▸ hin) List.not_mem_nil
  · refine came_finish h hrec (m.not_took_learnt s rec) fun rec' j' hok c hc => ?_
    cases hreason : m.unprovenReason s c with
    | none => exact hproven c hc hreason j'
    | some why =>
      refine .inl (quarantined_of_finish hok (List.mem_map.mpr ⟨(c.device,why),?_,rfl⟩))
      exact List.mem_filterMap.mpr ⟨c,hc,congrArg (Option.map _) hreason⟩

theorem came_letGo (h : Came j0 m) {s : Surroundings}
    (hrec : m.journal.allocations.get? rec.id = some rec) (hopen : rec.state.isTerminal = false) :
    Came j0 ((m.note [.absent rec.id]).letGo s rec).2 := by
  have hnone : ∀ id policy claims,Evidence.took id policy claims ∉ [.absent rec.id] := by simp
  unfold letGo
  split_ifs with hshared
  · refine came_finish h hrec hnone fun rec' j' _ c hc => ?_
    obtain ⟨x,hx,hne⟩ := List.any_eq_true.mp (List.all_eq_true.mp hshared.2 c hc)
    obtain ⟨hx,hdevice⟩ := mem_onDevice.mp hx
    exact .inr (.inr ⟨List.mem_singleton_self _,hshared.1,x,hx,hdevice,by simpa using hne⟩)
  · split
    · exact came_note h hnone
    · exact came_cleanAll h hrec hopen

theorem came_settle (h : Came j0 m) {s : Surroundings} : Came j0 (m.settle s id).2 := by
  refine came_withRecord h fun rec hrec => ?_
  obtain rfl : rec.id = id := h.sound.accounted.keyed id rec hrec
  split_ifs with hstate hclaims
  · exact h
  · exact came_andThen (came_finish_nothing h hrec (List.isEmpty_iff.mp hclaims))
      fun _ _ _ hm => hm
  · cases s.presence rec.id with
    | present => exact h
    | unknown => exact h
    | absent =>
      refine came_letGo h hrec ?_
      cases hs : rec.state <;> simp_all [AllocationState.isTerminal]

/-- A record of the start is still there, with the claims it had. -/
theorem same_claims (h : Came j0 m) (hrec : j0.allocations.get? rec.id = some rec)
    (hlate : ¬ (rec.state = .requested ∨ rec.state = .admitted)) :
    ∃ now,m.journal.allocations.get? rec.id = some now ∧ now.claims = rec.claims := by
  obtain ⟨calls,hcalls⟩ := h.calls
  obtain ⟨now,hnow,hlater⟩ := later_run hrec calls
  exact ⟨now,hcalls ▸ hnow,hlater.claims hlate⟩

theorem came_finish_quarantined (h : Came j0 m) (hrec : j0.allocations.get? rec.id = some rec)
    (hlate : ¬ (rec.state = .requested ∨ rec.state = .admitted)) {state : AllocationState}
    {reason : Text} {settle : Settle} :
    Came j0 (m.finish rec.id state
      (.quarantined (rec.claims.map DeviceClaim.device) reason) settle).2 := by
  obtain ⟨now,hnow,hclaims⟩ := same_claims h hrec hlate
  refine came_andThen (came_end h hnow fun rec' j' hok c hc => .inl ?_) fun _ _ _ hm => hm
  exact quarantined_of_finish hok (List.mem_map_of_mem (hclaims ▸ hc))

theorem came_abandon (h : Came j0 m) (hrec : j0.allocations.get? rec.id = some rec)
    (hlate : ¬ (rec.state = .requested ∨ rec.state = .admitted)) :
    Came j0 (m.abandon rec).2 := by
  unfold abandon
  dsimp only
  split_ifs
  · exact came_andThen (came_finish_quarantined h hrec hlate) fun _ _ _ hm => hm
  · refine came_andThen (came_transition h) fun _ m' _ hm' => ?_
    exact came_andThen (came_finish_quarantined hm' hrec hlate) fun _ _ _ hm => hm

theorem came_reconcileHeld (h : Came j0 m) {first s : Surroundings}
    (hrec : j0.allocations.get? rec.id = some rec)
    (hlate : ¬ (rec.state = .requested ∨ rec.state = .admitted)) :
    Came j0 (m.reconcileHeld first s rec).2 := by
  have hsettled : ∀ {m : Manager},Came j0 m → Came j0 (andThen (m.settle s rec.id) fun settle m =>
      ((.ok (.settled settle),m) : Answer ReconcileAction)).2 := fun hm =>
    came_andThen (came_settle hm) fun _ _ _ hm' => hm'
  unfold reconcileHeld
  dsimp only
  split_ifs
  · exact came_abandon h hrec hlate
  · split
    · exact h
    · exact h
    · exact came_andThen (came_drain h) fun _ _ _ hm => hsettled hm
    · exact came_andThen (came_drain h) fun _ _ _ hm => hsettled hm
    · exact came_andThen (came_drain h) fun _ _ _ hm => hsettled hm
    · exact hsettled h

theorem came_reconcileOne (h : Came j0 m) {first s : Surroundings}
    (hrec : j0.allocations.get? rec.id = some rec) :
    Came j0 (reconcileOne first s m rec).2 := by
  unfold reconcileOne
  split
  · exact came_andThen (came_close h (.inl rfl)) fun _ _ _ hm => hm
  · split
    · exact came_same h rfl rfl
    · exact came_same h rfl rfl
    next _ q _ _ =>
      have hm : Came j0 { m with queue := q } := came_same h rfl rfl
      exact came_andThen (came_close hm (.inr rfl)) fun _ _ _ hm' => hm'
  next hrequested hadmitted =>
    exact came_reconcileHeld h hrec fun hs => hs.elim hrequested hadmitted

/-- A record in the list of the open ones is in the table. -/
theorem get?_of_mem_listOpen {j : Journal} (hj : Accounted j) (hin : rec ∈ j.listOpen) :
    j.allocations.get? rec.id = some rec := by
  obtain ⟨hin,_⟩ := List.mem_filter.mp hin
  obtain ⟨⟨k,r⟩,hentry,rfl⟩ := List.mem_map.mp hin
  have hget := (OrdMap.mem_entries _).mp hentry
  rwa [hj.keyed k r hget]

/-- Every call of the manager keeps the trail sound. -/
theorem came_step (h : Sound m.journal m.trail) (call : ManagerCall) :
    Came m.journal (m.call call) := by
  have hm := came_refl h
  cases call with
  | request id req secrecy => exact came_quiet (.create id req secrecy) trivial hm rfl
  | admission id why =>
    refine came_withRecord hm fun rec hrec => ?_
    cases why with
    | some why => exact came_andThen (came_close hm (.inl rfl)) fun _ _ _ hm' => hm'
    | none => exact came_transition hm
  | cancel id reason => exact came_cancel hm
  | drainAll reason =>
    exact came_andThen (came_each (fun _ _ _ hm' => came_cancel hm') hm) fun _ _ _ hm' => hm'
  | drain id reason => exact came_drain hm
  | revokeApp appId =>
    refine came_andThen (came_each (fun m' rec _ hm' => ?_) hm) fun _ _ _ hm' => hm'
    split
    next hstate => exact came_close hm' (.inl hstate)
    next hstate => exact came_close hm' (.inr hstate)
    · exact came_drain hm'
  | fail id reason => exact came_withRecord hm fun _ _ => came_transition hm
  | reserve id picked => exact came_reserve hm
  | enqueue id =>
    refine came_withRecord hm fun rec _ => ?_
    split_ifs
    · exact hm
    · split <;> exact came_same hm rfl rfl
  | pump pick rounds => exact came_pump hm
  | attach id => exact came_transition hm
  | started id => exact came_transition hm
  | heartbeat id nowMs => exact came_quiet (.heartbeat id nowMs) trivial hm rfl
  | settle id s => exact came_settle hm
  | reconcile surroundings =>
    refine came_andThen (came_each (fun m' rec hin hm' => ?_) hm) fun _ m' _ hm' => ?_
    · exact came_reconcileOne hm' (get?_of_mem_listOpen h.accounted hin)
    · exact came_call (.markReconciled m'.generation) hm' rfl
        (hm'.sound.quiet_call (.markReconciled m'.generation) trivial)
  | refreshInventory devices fingerprint =>
    exact came_call (.recordTopology fingerprint) hm rfl
      (h.quiet_call (.recordTopology fingerprint) trivial)
  | setAdmissionPaused paused => exact came_same hm rfl rfl
  | clearQuarantine device ref =>
    cases hclear : m.journal.clearQuarantine device ref with
    | error e =>
      simp only [Manager.call,Manager.clearQuarantine,hclear,Except.map,Manager.write,andThen]
      exact hm
    | ok j' =>
      simp only [Manager.call,Manager.clearQuarantine,hclear,Except.map,Manager.write,andThen]
      refine came_call (.clearQuarantine device ref) hm ?_ (h.cleared hclear)
      simp only [Journal.call,hclear,Except.map,keep,note]
  | restart => exact came_same hm rfl rfl

end Manager

/-- What an allocation may have left on a device is met by a later one only where it is resolved
in between, or where both are of one trust domain. -/
theorem residue_stays_in_domain (queuePerApp queueTotal : Nat) (calls : List ManagerCall)
    (before between after : List Evidence) (id id' : Text) (policy policy' : Policy)
    (claims claims' : List DeviceClaim) (c c' : DeviceClaim)
    (htrail : (run Manager.call (.new queuePerApp queueTotal) calls).trail =
      before ++ .took id policy claims :: (between ++ .took id' policy' claims' :: after))
    (hc : c ∈ claims) (hc' : c' ∈ claims') (hover : Overlap c c') :
    Resolved between id c ∨ Together policy policy' := by
  have hsound : Sound (run Manager.call (.new queuePerApp queueTotal) calls).journal
      (run Manager.call (.new queuePerApp queueTotal) calls).trail :=
    run_invariant (I := fun m : Manager => Sound m.journal m.trail)
      (fun m call hm => (Manager.came_step hm call).sound) Sound.new calls
  exact hsound.crossed before between after id policy claims id' policy' claims' htrail c hc c' hc'
    hover

/-- The whole of a device. -/
def wholeDevice : DeviceClaim := ⟨['d'],none,8,['d']⟩

/-- A device is let go after it was found idle and clean, and is taken by another allocation. -/
def twoOwners : List ManagerCall :=
  let alone : GpuRequest := ⟨['a'],.nvidiaCuda,1,1,[],.exclusive,.gvisorNvproxy,.any⟩
  let picked := some ([wholeDevice],[(['d'],8)])
  [.refreshInventory [⟨['d'],.nvidiaCuda,false,[]⟩] ['f'],
    .request ['j'] alone false,.admission ['j'] none,.reserve ['j'] picked,.drain ['j'] ['r'],
    .settle ['j'] ⟨fun _ => .absent,fun _ => true,fun _ _ => .idle,fun _ _ => .proven⟩,
    .request ['k'] alone false,.admission ['k'] none,.reserve ['k'] picked]

theorem residue_stays_in_domain_cleaned :
    let between := [Evidence.absent ['j'],.idle ['d'] none,.cleaned ['d'] none true]
    (run Manager.call (.new 2 4) twoOwners).trail = .took ['j'] .exclusive [wholeDevice] ::
      (between ++ [.took ['k'] .exclusive [wholeDevice]]) ∧
    Resolved between ['j'] wholeDevice := by
  intro between
  have htrail : (run Manager.call (.new 2 4) twoOwners).trail =
      .took ['j'] .exclusive [wholeDevice] ::
        (between ++ [.took ['k'] .exclusive [wholeDevice]]) := by
    decide
  refine ⟨htrail,?_⟩
  refine (residue_stays_in_domain 2 4 twoOwners [] between [] ['j'] ['k'] .exclusive .exclusive
    [wholeDevice] [wholeDevice] wholeDevice wholeDevice htrail List.mem_cons_self
    List.mem_cons_self ⟨rfl,.inl rfl⟩).resolve_right ?_
  intro htogether
  cases htogether.1

end Flagship.Gpu

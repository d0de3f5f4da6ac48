import Flagship.Apps.Proofs.Serial

namespace Flagship.Apps
open Lib AppController

/-- Every operation that is with an executor is of a workload that core wants. -/
def Wanted (c : AppController) : Prop := ∀ op ∈ c.openOps,c.desired.contains op.key = true

section
variable {once : Prop} {c c' : AppController} {key : Text} {now : Nat} {v : View} {handled : List Text} {p : Pass}
  {d : DesiredWorkload} {gone : Bool} {req : SyncRequest}

/-- What the daemon wants stays wanted by core. -/
theorem contains_intake (h : c.desired.contains key = true) :
    (c.intake req).desired.contains key = true := by
  refine foldl_keeps (I := fun c' : AppController => c'.desired.contains key = true) _
    (fun c' k _ h => ?_) ?_
  · rw [markForgotten]
    split
    · exact h
    · exact (OrdMap.contains_set ..).mpr (Or.inr h)
  · refine foldl_keeps (I := fun c' : AppController => c'.desired.contains key = true) _
      (fun c' d _ h => ?_) h
    exact (OrdMap.contains_set ..).mpr (Or.inr h)

/-- Where executors are gone, their operations are not open any more. -/
theorem openOps_recover (h : Ordered once c) (executor : Text) (seen : OrdMap Text ObservedContainer)
    (now : Nat) :
    (c.recover executor seen now).openOps = c.openOps.filter (·.executor = executor) := by
  have hfold := foldl_history (l := c.openOps) (b := c)
    (f := fun c op => if op.executor = executor then c else c.recoverOp seen now op)
    (I := fun before c' => c'.openOps = c.openOps.filter fun op =>
      op.executor = executor ∨ op.id ∉ (before.filter (·.executor ≠ executor)).map (·.id)) ?_
    (by simp)
  · rw [recover]
    refine hfold.trans (List.filter_congr ?_)
    intro op hop
    rw [decide_eq_decide]
    refine ⟨?_,Or.inl⟩
    intro hkept
    by_contra hother
    rcases hkept with hsame | hnot
    · exact hother hsame
    · exact hnot (List.mem_map_of_mem (List.mem_filter.mpr ⟨hop,by simpa using hother⟩))
  · intro c' before op after heq hc'
    split
    next hsame => simp [List.filter_append,hsame,hc']
    next hother =>
      obtain ⟨state,detail,hstate,hframe⟩ := recoverOp_frame c' now seen op
      have hopen : (c'.recoverOp seen now op).openOps = c'.openOps.filter (·.id ≠ op.id) := by
        rw [hframe]
        exact openOps_settleOp hstate
      rw [hopen,hc',List.filter_filter]
      refine List.filter_congr ?_
      intro a ha
      have hop : op ∈ c.openOps := by
        rw [heq]
        simp
      have hids : ((before ++ [op]).filter (·.executor ≠ executor)).map (·.id) =
          (before.filter (·.executor ≠ executor)).map (·.id) ++ [op.id] := by
        simp [List.filter_append,hother]
      rw [hids,← Bool.decide_and,decide_eq_decide,List.mem_append,List.mem_singleton]
      constructor
      · intro hkept
        obtain ⟨hne,hkept⟩ := hkept
        rcases hkept with hsame | hnot
        · exact Or.inl hsame
        · exact Or.inr fun hin => hin.elim hnot hne
      · intro hkept
        rcases hkept with hsame | hnot
        · refine ⟨fun hid => hother ?_,Or.inl hsame⟩
          rw [← h.op_ext (List.mem_of_mem_filter ha) (List.mem_of_mem_filter hop) hid]
          exact hsame
        · exact ⟨fun hid => hnot (Or.inr hid),Or.inr fun hin => hnot (Or.inl hin)⟩

theorem takeOver_openOps (h : Ordered once c) (req : SyncRequest) (now : Nat) :
    (c.takeOver req now).openOps = c.openOps.filter (·.executor = req.executor) := by
  rw [← openOps_recover h req.executor (seenOf req.observed) now,takeOver]
  dsimp only
  split
  · rfl
  · rw [openOps,adoptRunning_frame]
    rfl

/-- The operation that is looked up by its key is the one that is open. -/
theorem byKey_get {ops : List OpRow} {op : OpRow} (h : op ∈ ops)
    (hone : ∀ a ∈ ops,a.key = op.key → a = op) : (byKey ops).get? op.key = some op := by
  have hall := foldl_history (l := ops) (f := fun m op => m.set op.key op)
    (b := (∅ : OrdMap Text OpRow)) (I := fun before m => op ∈ before → m.get? op.key = some op) ?_
    (by simp)
  · exact hall h
  · intro m before a after heq ih hop
    by_cases hkey : a.key = op.key
    · have hsame := hone a (by rw [heq]; simp) hkey
      rw [hsame]
      exact OrdMap.get?_set_self ..
    · rw [OrdMap.get?_set_ne (Ne.symm hkey)]
      refine ih ?_
      rcases List.mem_append.mp hop with hop | hop
      · exact hop
      · rw [List.mem_singleton] at hop
        rw [hop] at hkey
        exact absurd rfl hkey

/-- A pass as far as it has come: every open operation is of a workload that core
wants, and what was open of the workloads it has handled was handed out again. -/
structure Rehanding (c : AppController) (v : View) (handled : List Text) (p : Pass) : Prop where
  passing : Passing True c.desired v handled p
  wanted : Wanted p.controller
  ahead : ∀ key ∉ handled,p.controller.desired.get? key = c.desired.get? key
  again : ∀ op ∈ c.openOps,op.executor = v.executor → c.desired.contains op.key = true →
    op.key ∈ handled → ∃ e ∈ p.effects,e.repeats op

theorem Rehanding.on (hordered : Ordered True c) (h : Rehanding c (c.view req now) handled p) {p' : Pass}
    (hpassing : Passing True c.desired (c.view req now) (handled ++ [key]) p') (hwanted : Wanted p'.controller)
    (hahead : ∀ a,a ≠ key → p'.controller.desired.get? a = p.controller.desired.get? a)
    {more : List Effect} (heffects : p'.effects = p.effects ++ more)
    (hmore : ∀ op,(c.view req now).outstanding.get? key = some op →
      op.executor = req.executor → ∃ e ∈ more,e.repeats op) :
    Rehanding c (c.view req now) (handled ++ [key]) p' := by
  refine ⟨hpassing,hwanted,?_,?_⟩
  · intro a ha
    rw [List.mem_append,List.mem_singleton,not_or] at ha
    exact (hahead a ha.2).trans (h.ahead a ha.1)
  · intro op hop hexecutor hcontains hkey
    rw [heffects]
    rcases List.mem_append.mp hkey with hkey | hkey
    · obtain ⟨e,he,hmatches⟩ := h.again op hop hexecutor hcontains hkey
      exact ⟨e,List.mem_append_left _ he,hmatches⟩
    · rw [List.mem_singleton] at hkey
      have hout := byKey_get hop fun a ha => hordered.one a ha op hop (Or.inl trivial)
      rw [hkey] at hout
      obtain ⟨e,he,hmatches⟩ := hmore op hout hexecutor
      exact ⟨e,List.mem_append_right _ he,hmatches⟩

/-- An effect is handed out for a workload that core wants. -/
theorem Wanted.intent {executor : Text} {e : Effect} (h : Wanted c)
    (hkey : c.desired.contains key = true) : Wanted (c.intent key e executor now) := by
  intro op hop
  rw [openOps_intent,List.mem_append,List.mem_singleton] at hop
  rcases hop with hop | rfl
  · exact h op hop
  · exact hkey

theorem Rehanding.visit (hordered : Ordered True c) (h : Rehanding c (c.view req now) handled p)
    (hkey : key ∉ handled) (hget : c.desired.get? key = some (d,gone)) :
    Rehanding c (c.view req now) (handled ++ [key]) (visit (c.view req now) p key d gone) := by
  have hpassing := h.passing.visit d gone hkey ((OrdMap.contains_iff _).mpr ⟨_,hget⟩)
  have hthere : p.controller.desired.contains key = true := by
    rw [OrdMap.contains,h.ahead key hkey,hget]
    rfl
  have hvisit := visit_visits (c.view req now) p key d gone
  generalize Apps.visit (c.view req now) p key d gone = p' at hvisit hpassing
  cases hvisit with
  | again op workloads hout hexecutor =>
    refine h.on hordered hpassing h.wanted (fun _ _ => rfl) rfl ?_
    intro op' hop' _
    rw [hout] at hop'
    cases hop'
    exact ⟨effectOf op d,List.mem_singleton_self _,rfl,rfl,rfl,rfl⟩
  | rests workloads hout =>
    refine h.on hordered hpassing h.wanted (fun _ _ => rfl) (List.append_nil _).symm ?_
    intro op hop hexecutor
    exact absurd hexecutor (hout op hop)
  | removes o workloads hout hobs hcurrent =>
    refine h.on hordered hpassing (h.wanted.intent hthere) (fun _ _ => rfl) rfl ?_
    intro op hop
    rw [hout] at hop
    cases hop
  | forgets hout hobs hgone =>
    refine h.on hordered hpassing ?_ ?_ (List.append_nil _).symm ?_
    · intro op hop
      rw [forget_frame] at hop
      have hne := h.passing.not_open hout hkey op hop
      rw [forget_desired,OrdMap.contains,OrdMap.get?_erase_ne hne]
      exact h.wanted op hop
    · intro a ha
      rw [forget_desired]
      exact OrdMap.get?_erase_ne ha
    · intro op hop
      rw [hout] at hop
      cases hop
  | starves c' reason workloads hout haddress =>
    have hframe := addressFor_frame haddress
    refine h.on hordered hpassing ?_ ?_ (List.append_nil _).symm ?_
    · rw [hframe]
      exact h.wanted
    · intro a _
      rw [hframe]
    · intro op hop
      rw [hout] at hop
      cases hop
  | deploys c' address hout hobs hgone hrunning hfits haddress =>
    have hframe := addressFor_frame haddress
    refine h.on hordered hpassing ?_ ?_ rfl ?_
    · rw [hframe]
      exact Wanted.intent (c := { p.controller with
        pools := c'.pools,addresses := c'.addresses,lastGeneration := _ }) h.wanted hthere
    · intro a _
      rw [hframe]
      rfl
    · intro op hop
      rw [hout] at hop
      cases hop

/-- A pass that drops nothing unknown, unless it has nothing to remove. -/
theorem rehanding_rustPass {n : Nat} (hordered : Ordered True c) (hvalid : validate req = none)
    (honce : req.forget.Nodup) (hwanted : Wanted c)
    (hknown : ∀ k ∈ req.forget,c.desired.contains k.id = true ∨
      (seenOf req.observed).get? k.id = none ∨ (byKey c.openOps).contains k.id = true) :
    ∃ handled,(∀ key,c.desired.contains key = true → key ∈ handled) ∧
      Rehanding c (c.view req n) handled (c.rustPass req n) := by
  refine rustPass_induction c req n hvalid ?_ ?_ ?_ ?_
  · refine ⟨⟨hordered,fun op hop => Or.inl (byKey_contains hop)⟩,hwanted,fun _ _ => rfl,?_⟩
    intro op _ _ _ hkey
    cases hkey
  · intro handled p k hp hk hnew
    have hpassing := hp.passing.forgetUnknown (k := k) fun _ => hnew honce
    have hsame : forgetUnknown (c.view req n) c.desired p k = p := by
      rw [forgetUnknown]
      split
      · rfl
      next hneither =>
        rw [Bool.not_eq_true,Bool.or_eq_false_iff] at hneither
        rcases hknown k hk with hcontains | hunseen | hopen
        · rw [hneither.1] at hcontains
          cases hcontains
        · have hnone : (c.view req n).seen.get? k.id = none := hunseen
          rw [hnone]
        · have hout : (c.view req n).outstanding.contains k.id = true := hopen
          rw [hneither.2] at hout
          cases hout
    rw [hsame] at hpassing ⊢
    refine ⟨hpassing,hp.wanted,?_,?_⟩
    · intro key hkey
      exact hp.ahead key fun hin => hkey (List.mem_append_left _ hin)
    · intro op hop hexecutor hcontains hkey
      rcases List.mem_append.mp hkey with hkey | hkey
      · exact hp.again op hop hexecutor hcontains hkey
      · have hunknown := (List.mem_filter.mp hkey).2
        rw [hcontains] at hunknown
        cases hunknown
  · intro handled p hp
    exact ⟨⟨hp.passing.ordered,hp.passing.covered⟩,hp.wanted,hp.ahead,hp.again⟩
  · intro handled p key d gone hp hget hnew
    exact hp.visit hordered hnew hget

theorem recover_desired (c : AppController) (executor : Text) (seen : OrdMap Text ObservedContainer)
    (now : Nat) : (c.recover executor seen now).desired = c.desired := by
  refine foldl_keeps (I := fun c' : AppController => c'.desired = c.desired) _
    (fun c' op _ h => ?_) rfl
  split
  · exact h
  · obtain ⟨state,detail,_,hframe⟩ := recoverOp_frame c' now seen op
    rw [hframe]
    exact h

theorem takeOver_desired (c : AppController) (req : SyncRequest) (now : Nat) :
    (c.takeOver req now).desired = c.desired := by
  rw [takeOver]
  dsimp only
  split
  · exact recover_desired c _ _ now
  · rw [adoptRunning_frame]
    exact recover_desired c _ _ now

/-- The controller as a pass of a sync finds it. -/
def prepared (c : AppController) (req : SyncRequest) : AppController :=
  (c.intake req).refreshPools req

theorem prepared_frame (c : AppController) (req : SyncRequest) : prepared c req = { c with
    desired := (c.intake req).desired
    pools := (prepared c req).pools,foreign := (prepared c req).foreign } := by
  rw [prepared,refreshPools_frame,intake_frame]

theorem Ordered.prepared (h : Ordered once c) (req : SyncRequest) : Ordered once (prepared c req) := by
  refine h.of_eq ?_ ?_
  · rw [prepared_frame]
  · rw [prepared_frame]

theorem prepared_openOps {r : SyncRequest} : (prepared c r).openOps = c.openOps := by
  rw [prepared_frame]
  rfl

theorem prepared_desired : (prepared c req).desired = (c.intake req).desired := by
  rw [prepared_frame]

theorem Wanted.prepared (h : Wanted c) (req : SyncRequest) : Wanted (prepared c req) := by
  intro op hop
  rw [prepared_openOps] at hop
  rw [prepared_desired]
  exact contains_intake (h op hop)

/-- The state a pass in rust mode begins with. -/
theorem rust_begins (hordered : Ordered True c) (hwanted : Wanted c) (hmode : req.mode = .rust)
    (hvalid : validate req = none) (hleaves : leavesNone c (.sync req now) = true) :
    Ordered True ((prepared c req).takeOver req now) ∧ Wanted ((prepared c req).takeOver req now) ∧
      ∀ k ∈ req.forget,((prepared c req).takeOver req now).desired.contains k.id = true ∨
        (seenOf req.observed).get? k.id = none ∨
        (byKey ((prepared c req).takeOver req now).openOps).contains k.id = true := by
  have hopen := takeOver_openOps (hordered.prepared req) req now
  rw [prepared_openOps] at hopen
  refine ⟨ordered_takeOver (hordered.prepared req) now,?_,?_⟩
  · intro op hop
    rw [hopen] at hop
    rw [takeOver_desired]
    refine hwanted.prepared req op ?_
    rw [prepared_openOps]
    exact List.mem_of_mem_filter hop
  · intro k hk
    rw [leavesNone,hvalid,hmode,Option.isSome_none,Bool.false_or] at hleaves
    have hone := List.all_eq_true.mp hleaves k hk
    rw [Bool.or_eq_true,Bool.or_eq_true] at hone
    rcases hone with (hcontains | hunseen) | hany
    · left
      rw [takeOver_desired,prepared_desired]
      exact hcontains
    · right
      left
      rw [Bool.not_eq_eq_eq_not,Bool.not_true,OrdMap.contains,Option.isSome_eq_false_iff,
        Option.isNone_iff_eq_none] at hunseen
      exact hunseen
    · right
      right
      obtain ⟨op,hop,hmatch⟩ := List.any_eq_true.mp hany
      simp only [decide_eq_true_eq] at hmatch
      rw [← hmatch.1]
      refine byKey_contains ?_
      rw [hopen]
      exact List.mem_filter.mpr ⟨hop,by simpa using hmatch.2⟩

/-- A sync in shadow mode that drops nothing with an open operation. -/
theorem wanted_shadow {seen : OrdMap Text ObservedContainer} {unmanaged : List Text}
    (hwanted : Wanted c)
    (hkept : ∀ op ∈ c.openOps,∀ d,c.desired.get? op.key = some (d,true) →
      (seen.get? op.key).any (·.running) = true) :
    Wanted (c.shadowPass (ascending c.desired) seen unmanaged).1 := by
  intro op hop
  rw [shadowPass_frame] at hop
  have hop' : op ∈ c.openOps := hop
  refine foldl_keeps (I := fun c' : AppController => c'.desired.contains op.key = true)
    (ascending c.desired) ?_ (hwanted op hop')
  intro c' e he h
  obtain ⟨key,d,gone⟩ := e
  dsimp only
  split
  next hdrops =>
    rw [Bool.and_eq_true,Bool.not_eq_eq_eq_not,Bool.not_true] at hdrops
    have hget : c.desired.get? key = some (d,gone) := mem_ascending.mp he
    rw [hdrops.1] at hget
    have hne : op.key ≠ key := by
      intro heq
      rw [← heq] at hget
      have hruns := hkept op hop' d hget
      rw [heq,hdrops.2] at hruns
      cases hruns
    rw [dropDesired,OrdMap.contains,OrdMap.get?_erase_ne hne]
    exact h
  next => exact h

theorem sync_rust (hvalid : validate req = none) (hmode : req.mode = .rust) :
    (c.sync req now).1 = (((prepared c req).takeOver req now).rustPass req now).controller ∧
      handed c (.sync req now) =
        (((prepared c req).takeOver req now).rustPass req now).effects := by
  constructor
  · rw [sync,hvalid]
    dsimp only
    rw [hmode]
    rfl
  · rw [handed,sync,hvalid]
    dsimp only
    rw [hmode]
    rfl

theorem sync_shadow {n : Nat} (hvalid : validate req = none) (hmode : req.mode = .shadow) :
    ∃ unmanaged,(c.sync req n).1 = (AppController.shadowPass { prepared c req with live := false }
      (ascending (prepared c req).desired) (seenOf req.observed) unmanaged).1 := by
  refine ⟨((ascending (seenOf req.observed)).filter fun e =>
    !(prepared c req).desired.contains e.1).map (·.2.name),?_⟩
  rw [sync,hvalid]
  dsimp only
  rw [hmode]
  rfl

theorem wanted_step (hordered : Ordered True c) (hwanted : Wanted c) (r : Request)
    (honce : forgetsOnce c r) (hleaves : leavesNone c r = true) : Wanted (step c r) := by
  cases r with
  | sync req now =>
    cases hvalid : validate req with
    | some e =>
      rw [step,sync,hvalid]
      exact hwanted
    | none =>
      cases hmode : req.mode with
      | rust =>
        obtain ⟨hordered',hwanted',hknown⟩ := rust_begins hordered hwanted hmode hvalid hleaves
        obtain ⟨_,_,hrehanding⟩ :=
          rehanding_rustPass (n := now) hordered' hvalid honce hwanted' hknown
        rw [step,(sync_rust hvalid hmode).1]
        exact hrehanding.wanted
      | shadow =>
        rw [leavesNone,hvalid,hmode,Option.isSome_none,Bool.false_or] at hleaves
        obtain ⟨unmanaged,heq⟩ := sync_shadow (c := c) (n := now) hvalid hmode
        rw [step,heq]
        refine wanted_shadow (c := { prepared c req with live := false }) (hwanted.prepared req) ?_
        intro op hop d hget
        have hop' : op ∈ c.openOps := by
          rw [← prepared_openOps (r := req)]
          exact hop
        have hone := List.all_eq_true.mp hleaves op hop'
        have hget' : (c.intake req).desired.get? op.key = some (d,true) := by
          rw [← prepared_desired]
          exact hget
        rw [hget'] at hone
        simpa using hone
  | settle s now =>
    rcases settle_spec c now s with heq | ⟨op,_,_,_,heq⟩
    · rw [step,heq]
      exact hwanted
    · have hsettled : Wanted (c.settled s op now) := by
        rw [settled_frame]
        intro op' hop'
        have hmem : op' ∈ (c.settleOp op.id (settleKind s op) (s.detail.map (·.take 2000))
          now).openOps := hop'
        rw [openOps_settleOp (settleKind_ne s op)] at hmem
        exact hwanted op' (List.mem_of_mem_filter hmem)
      rw [step,heq]
      split
      · rw [conflict_frame]
        exact hsettled
      · exact hsettled
  | restart => exact hwanted

/-- In every run in which no sync leaves an operation of a workload that core does
not want, every operation that is with an executor is handed to it again in each of
its syncs. -/
theorem lost_answers_are_handed_again (requests : List Request)
    (h : Along step (fun c r => forgetsOnce c r ∧ leavesNone c r = true) AppController.fresh
      requests) :
    ∀ before r after,requests = before ++ r :: after →
      HandedAgain (run step AppController.fresh before) r := by
  intro before r after heq
  subst heq
  obtain ⟨hbefore,⟨honce,hleaves⟩,_⟩ := along_append.mp h
  obtain ⟨hordered,hwanted⟩ := Along.invariant (I := fun c => Ordered True c ∧ Wanted c)
    (fun c r hc hcond => ⟨ordered_step hc.1 r fun _ => hcond.1,wanted_step hc.1 hc.2 r hcond.1 hcond.2⟩)
    ⟨ordered_fresh,fun op hop => by cases hop⟩ hbefore
  generalize run step AppController.fresh before = c at *
  intro req now hr hmode hvalid op hop hexecutor _
  subst hr
  obtain ⟨hordered',hwanted',hknown⟩ := rust_begins hordered hwanted hmode hvalid hleaves
  obtain ⟨handled,hall,hrehanding⟩ :=
    rehanding_rustPass (n := now) hordered' hvalid honce hwanted' hknown
  have hopen : op ∈ ((prepared c req).takeOver req now).openOps := by
    rw [takeOver_openOps (hordered.prepared req),prepared_openOps]
    exact List.mem_filter.mpr ⟨hop,by simpa using hexecutor⟩
  have hdesired := hwanted' op hopen
  rw [(sync_rust hvalid hmode).2]
  exact hrehanding.again op hopen hexecutor hdesired (hall op.key hdesired)

end

/-- A container of a workload, at an address. -/
def runs (name : Char) (generation : Int) (address : String) : ObservedContainer where
  name := [name]
  installation := [name]
  component := ['m']
  generation := some generation
  running := true
  addresses := OrdMap.set ∅ ['n'] address.toList

/-- A workload is wanted twice, and its container not there yet. -/
theorem lost_answers_are_handed_again_once :
    Along step (fun c r => forgetsOnce c r ∧ leavesNone c r = true) AppController.fresh
      [.sync (asks [wanted 'a'] []) 5,.sync (asks [wanted 'a'] []) 6] ∧
    HandedAgain (run step AppController.fresh [.sync (asks [wanted 'a'] []) 5])
      (.sync (asks [wanted 'a'] []) 6) :=
  ⟨by decide,lost_answers_are_handed_again
    [.sync (asks [wanted 'a'] []) 5,.sync (asks [wanted 'a'] []) 6] (by decide)
    [.sync (asks [wanted 'a'] []) 5] _ [] rfl⟩

/-- The container of a workload core does not know is to go. -/
def drops : SyncRequest := { asks [] [runs 'a' 1 "10.0.0.2"] with forget := [⟨['a'],['m']⟩] }

/-- The removal of a workload core does not know is not handed out again. -/
theorem lost_removal_stalls : ¬ ∀ requests,Along step forgetsOnce AppController.fresh requests →
    ∀ before r after,requests = before ++ r :: after →
      HandedAgain (run step AppController.fresh before) r := by
  intro h
  have hagain := h [.sync drops 5,.sync drops 6] (by decide) [.sync drops 5] (.sync drops 6) [] rfl
  obtain ⟨e,he,_⟩ := hagain drops 6 rfl rfl (by decide) ⟨1,['a','/','m'],.remove,1,none,0,['n'],none,
    ['x'],.intent,none,5⟩ (by decide) rfl (by decide)
  have hnone : handed (run step AppController.fresh [.sync drops 5]) (.sync drops 6) = [] := by
    decide
  rw [hnone] at he
  cases he

end Flagship.Apps

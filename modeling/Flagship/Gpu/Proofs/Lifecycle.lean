import Flagship.Gpu.Proofs.Holdings
import Flagship.Lib.Lists

namespace Flagship.Gpu
open Lib Journal

/-- The states that the table lets one come to. -/
def Reaches : AllocationState → AllocationState → Prop :=
  Relation.ReflTransGen fun s t => s.canTransitionTo t = true

theorem Reaches.early {s t : AllocationState} (h : Reaches s t)
    (ht : t = .requested ∨ t = .admitted) : s = .requested ∨ s = .admitted := by
  induction h with
  | refl => exact ht
  | tail _ hlast ih => exact ih (early_of_transition hlast ht)

/-- Nothing comes after an end. -/
theorem Reaches.terminal {s t : AllocationState} (h : Reaches s t) (hs : s.isTerminal = true) :
    t = s := by
  rcases Relation.ReflTransGen.cases_head h with rfl | ⟨next,hfirst,_⟩
  · rfl
  · rw [open_of_transition hfirst] at hs
    cases hs

/-- A record of an allocation and a later one. -/
structure Later (rec rec' : AllocationRecord) : Prop where
  id : rec'.id = rec.id
  request : rec'.request = rec.request
  secrecy : rec'.secrecy = rec.secrecy
  states : Reaches rec.state rec'.state
  claims : ¬ (rec.state = .requested ∨ rec.state = .admitted) → rec'.claims = rec.claims

theorem Later.refl (rec : AllocationRecord) : Later rec rec := ⟨rfl,rfl,rfl,.refl,fun _ => rfl⟩

theorem Later.trans {a b c : AllocationRecord} (hab : Later a b) (hbc : Later b c) : Later a c where
  id := hbc.id.trans hab.id
  request := hbc.request.trans hab.request
  secrecy := hbc.secrecy.trans hab.secrecy
  states := hab.states.trans hbc.states
  claims hopen := (hbc.claims fun hb => hopen (hab.states.early hb)).trans (hab.claims hopen)

section
variable {j j' : Journal} {id : Text} {rec : AllocationRecord}

/-- One record changed, to a later one. -/
theorem later_set {k : Text} {old new : AllocationRecord} (hold : j.allocations.get? k = some old)
    (hset : j'.allocations = j.allocations.set k new) (hlater : Later old new)
    (h : j.allocations.get? id = some rec) :
    ∃ rec',j'.allocations.get? id = some rec' ∧ Later rec rec' := by
  rw [hset,OrdMap.get?_set]
  split_ifs with hk
  · rw [hk,hold] at h
    obtain rfl := Option.some.inj h
    exact ⟨new,rfl,hlater⟩
  · exact ⟨rec,h,.refl rec⟩

theorem contains_foldl_set {device : Text} (devices : List Text) (reason : Text)
    {q : OrdMap Text Text} (h : q.contains device = true) :
    (devices.foldl (fun q d => q.set d reason) q).contains device = true := by
  refine foldl_keeps (I := fun q : OrdMap Text Text => q.contains device = true) devices ?_ h
  intro q d _ hq
  rw [OrdMap.contains_set]
  exact .inr hq

/-- A call of the journal that touches neither the holdings nor a quarantine. -/
def JournalCall.Quiet : JournalCall → Prop
  | .reserve _ _ _ _ => False
  | .finish _ _ _ => False
  | .clearQuarantine _ _ => False
  | _ => True

/-- What a call does to the allocations, to what is in quarantine and to the holdings. -/
structure Onward (j : Journal) (call : JournalCall) (j' : Journal) : Prop where
  later : ∀ id rec,j.allocations.get? id = some rec →
    ∃ rec',j'.allocations.get? id = some rec' ∧ Later rec rec'
  quarantined : ∀ device,j.quarantined.contains device = true →
    (∀ ref,call ≠ .clearQuarantine device ref) → j'.quarantined.contains device = true
  held : call.Quiet → j'.holdings = j.holdings

theorem Onward.same {call : JournalCall} (ha : j'.allocations = j.allocations)
    (hq : j'.quarantined = j.quarantined) (hh : j'.holdings = j.holdings) : Onward j call j' :=
  ⟨fun _ rec h => ⟨rec,ha ▸ h,.refl rec⟩,fun _ h _ => hq ▸ h,fun _ => hh⟩

theorem Onward.keep {call : JournalCall} {α : Type} {r : Except JournalError (α × Journal)}
    (hok : ∀ a j',r = .ok (a,j') → Onward j call j') : Onward j call (keep j r) := by
  match r,hok with
  | .ok (a,j'),hok => exact hok a j' rfl
  | .error _,_ => exact .same rfl rfl rfl

theorem onward_call (j : Journal) (call : JournalCall) : Onward j call (j.call call) := by
  cases call with
  | create id request secrecy =>
    refine .keep fun _ j' hok => ?_
    unfold Journal.create at hok
    split_ifs at hok with hnew
    · cases hok
    · cases hok
      refine ⟨fun k rec h => ⟨rec,?_,.refl rec⟩,fun _ h _ => h,fun _ => rfl⟩
      rw [OrdMap.get?_set_ne,h]
      rintro rfl
      exact hnew (by rw [OrdMap.contains,AllocationRecord.new,h]; rfl)
  | transition id source target reason =>
    refine .keep fun _ j' hok => ?_
    obtain ⟨old,hold,hstate,hlegal,_,_,rfl,rfl⟩ := transition_ok hok
    have hlater : Reaches old.state target := .single (hstate ▸ hlegal)
    exact ⟨fun _ _ => later_set hold rfl ⟨rfl,rfl,rfl,hlater,fun _ => rfl⟩,fun _ h _ => h,
      fun _ => rfl⟩
  | reserve id claims deviceMemory generation =>
    refine .keep fun _ j' hok => ?_
    obtain ⟨old,held,hold,hstate,_,_,_,rfl,rfl⟩ := reserve_ok hok
    refine ⟨fun _ _ => later_set hold rfl ⟨rfl,rfl,rfl,.single ?_,fun hearly => ?_⟩,
      fun _ h _ => h,fun hquiet => hquiet.elim⟩
    · rw [hstate]
      rfl
    · exact absurd (.inr hstate) hearly
  | finish id source how =>
    refine .keep fun _ j' hok => ?_
    obtain ⟨old,hold,hstate,hlegal,hid,hrequest,hsecrecy,hclaims,hend,hset,_,_,hq⟩ := finish_ok hok
    refine ⟨fun _ _ => later_set hold hset ⟨hid,hrequest,hsecrecy,.single ?_,fun _ => hclaims⟩,
      fun device h _ => ?_,fun hquiet => hquiet.elim⟩
    · rw [hend,hstate]
      exact hlegal
    · rw [hq]
      cases how with
      | released => exact h
      | quarantined devices reason => exact contains_foldl_set devices reason h
  | heartbeat id nowMs =>
    refine .keep fun _ j' hok => ?_
    unfold Journal.heartbeat at hok
    split at hok
    · cases hok
    next old hold =>
      cases hok
      exact ⟨fun _ _ => later_set hold rfl ⟨rfl,rfl,rfl,.refl,fun _ => rfl⟩,fun _ h _ => h,
        fun _ => rfl⟩
  | clearQuarantine cleared ref =>
    refine .keep fun _ j' hok => ?_
    unfold Journal.clearQuarantine at hok
    split_ifs at hok
    · cases hok
    · cases hok
      refine ⟨fun _ rec h => ⟨rec,h,.refl rec⟩,fun device h hclear => ?_,fun hquiet => hquiet.elim⟩
      have hne : device ≠ cleared := by
        rintro rfl
        exact hclear ref rfl
      rw [OrdMap.contains,OrdMap.get?_erase_ne hne]
      exact h
  | recordTopology fingerprint =>
    simp only [Journal.call,recordTopology]
    split <;> exact .same rfl rfl rfl
  | markReconciled generation =>
    simp only [Journal.call,markReconciled]
    split <;> exact .same rfl rfl rfl

theorem later_run (h : j.allocations.get? id = some rec) (calls : List JournalCall) :
    ∃ rec',(run Journal.call j calls).allocations.get? id = some rec' ∧ Later rec rec' := by
  induction calls generalizing j rec with
  | nil => exact ⟨rec,h,.refl rec⟩
  | cons call calls ih =>
    obtain ⟨next,hnext,hfirst⟩ := (onward_call j call).later id rec h
    obtain ⟨last,hlast,hrest⟩ := ih hnext
    exact ⟨last,hlast,hfirst.trans hrest⟩

end

/-- An allocation stays in the journal with the request it was made for, whatever is called; its
states follow the table, its claims are those of its one reservation, and once it has ended it
has ended for good and holds nothing. -/
theorem allocation_lifecycle (before after : List JournalCall) (id : Text) (rec : AllocationRecord)
    (h : (run Journal.call .new before).allocations.get? id = some rec) :
    ∃ rec',(run Journal.call .new (before ++ after)).allocations.get? id = some rec' ∧
      Later rec rec' ∧ (rec.state.isTerminal = true → rec'.state = rec.state ∧
        ofAllocation id (run Journal.call .new (before ++ after)).holdings = []) := by
  obtain ⟨rec',hrec',hlater⟩ := later_run h after
  rw [← run_append] at hrec'
  refine ⟨rec',hrec',hlater,fun hended => ?_⟩
  have hsame := hlater.states.terminal hended
  have haccounted : Accounted (run Journal.call .new (before ++ after)) :=
    run_invariant (fun j call hj => hj.change (call_change j call)) Accounted.new _
  have howns := haccounted.owns id rec' hrec'
  rw [owned,hsame,if_pos hended] at howns
  exact ⟨hsame,howns.eq_nil⟩

/-- An allocation fails after it was admitted, and is released. -/
def failing : List JournalCall :=
  [.create ['j'] ⟨['a'],.nvidiaCuda,1,1,[],.exclusive,.gvisorNvproxy,.any⟩ false,
    .transition ['j'] .requested .admitted none,.transition ['j'] .admitted .failed none,
    .finish ['j'] .failed .released]

theorem allocation_lifecycle_failed :
    ∃ rec,(run Journal.call .new failing).allocations.get? ['j'] = some rec ∧
      ∃ rec',(run Journal.call .new (failing ++ [.reserve ['j'] [] [] 0])).allocations.get? ['j'] =
        some rec' ∧ Later rec rec' := by
  refine ⟨_,rfl,?_⟩
  obtain ⟨rec',hrec',hlater,_⟩ := allocation_lifecycle failing [.reserve ['j'] [] [] 0] ['j'] _ rfl
  exact ⟨rec',hrec',hlater⟩

section
variable {j j' : Journal} {device : Text}

/-- No call puts a holding on a device in quarantine. -/
theorem holdings_change (h : j.quarantined.contains device = true) (hc : Change j j')
    {x : Holding} (hx : x ∈ j'.holdings) (hdevice : x.device = device) : x ∈ j.holdings := by
  cases hc with
  | kept _ hh => exact hh ▸ hx
  | created _ _ _ _ _ hh => exact hh ▸ hx
  | updated _ _ _ _ _ hh => exact hh ▸ hx
  | reserved id rec rec' _ _ _ deviceMemory took =>
    rcases List.mem_append.mp (took.perm.mem_iff.mp hx) with hx | hx
    · obtain ⟨claim,hclaim,rfl⟩ := List.mem_map.mp hx
      have hfree := (took.admitted claim hclaim).1
      rw [show claim.device = device from hdevice,h] at hfree
      cases hfree
    · exact hx
  | finished _ _ _ _ _ hh => exact List.mem_of_mem_filter (hh ▸ hx)

end

/-- A device in quarantine gets no new holder, in any run in which maintenance does not clear
it. -/
theorem quarantine_lasts (before after : List JournalCall) (device : Text)
    (h : (run Journal.call .new before).quarantined.contains device = true)
    (hclear : ∀ ref,.clearQuarantine device ref ∉ after) :
    (run Journal.call .new (before ++ after)).quarantined.contains device = true ∧
      ∀ x ∈ (run Journal.call .new (before ++ after)).holdings,x.device = device →
        x ∈ (run Journal.call .new before).holdings := by
  rw [run_append]
  generalize run Journal.call .new before = j at h ⊢
  induction after generalizing j with
  | nil => exact ⟨h,fun x hx _ => hx⟩
  | cons call after ih =>
    have hnext := (onward_call j call).quarantined device h fun ref heq =>
      hclear ref (heq ▸ List.mem_cons_self)
    obtain ⟨hlast,hheld⟩ := ih (fun ref hin => hclear ref (List.mem_cons_of_mem _ hin)) _ hnext
    exact ⟨hlast,fun x hx hd => holdings_change h (call_change j call) (hheld x hx hd) hd⟩

/-- An allocation ends with its device in quarantine; another one then asks for the device. -/
def endsInQuarantine : List JournalCall :=
  [.recordTopology ['f'],
    .create ['j'] ⟨['a'],.nvidiaCuda,1,1,[],.exclusive,.gvisorNvproxy,.any⟩ false,
    .transition ['j'] .requested .admitted none,
    .reserve ['j'] [⟨['d'],none,8,['d']⟩] [(['d'],8)] 1,.transition ['j'] .reserved .draining none,
    .finish ['j'] .draining (.quarantined [['d']] ['r']),
    .create ['k'] ⟨['a'],.nvidiaCuda,1,1,[],.exclusive,.gvisorNvproxy,.any⟩ false,
    .transition ['k'] .requested .admitted none]

theorem quarantine_lasts_refused :
    (run Journal.call .new endsInQuarantine).quarantined.contains ['d'] = true ∧
    ∀ x ∈ (run Journal.call .new (endsInQuarantine ++
      [.reserve ['k'] [⟨['d'],none,8,['d']⟩] [(['d'],8)] 1])).holdings,x.device = ['d'] →
      x ∈ (run Journal.call .new endsInQuarantine).holdings := by
  have hq : (run Journal.call .new endsInQuarantine).quarantined.contains ['d'] = true := by
    decide
  exact ⟨hq,(quarantine_lasts endsInQuarantine [.reserve ['k'] [⟨['d'],none,8,['d']⟩] [(['d'],8)] 1]
    ['d'] hq fun ref hin => by simp at hin).2⟩

end Flagship.Gpu

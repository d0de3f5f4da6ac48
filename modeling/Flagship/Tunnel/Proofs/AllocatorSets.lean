import Flagship.Lib.Lists
import Flagship.Relay.Proofs.Operations
import Flagship.Tunnel.Proofs.NameAgreement

namespace Flagship.Tunnel.Proofs
open Lib AppUserAllocator

/-- The two records of one set: only the order of the slots may differ. -/
structure SetAlike (s : SetEntry) (s' : Relay.SetEntry) : Prop where
  key : relayKey s.key = s'.key
  members : s.members = s'.members
  queue : ∀ slot,s.candidateQueue.get? slot = s'.candidateQueue.get? slot
  holders : ∀ slot,s.slotHolders.get? slot = s'.slotHolders.get? slot

/-- The two records of one pod. -/
structure PodAlike (e : PodEntry) (e' : Relay.PodEntry) : Prop where
  since : e.firstRegisteredAt = e'.firstRegisteredAt
  canonicals : ∀ n,e.canonicals.contains n = decide (n ∈ e'.canonicals)
  derivable : ∀ n,e.derivableShorteneds.contains n = decide (n ∈ e'.derivable)
  setKeys : e.setKeys = e'.setKeys

abbrev SetsAlike (sets : Sets) (sets' : Relay.Sets) : Prop := sets.Alike SetAlike sets'

abbrev PodsAlike (pods : Pods) (pods' : Relay.Pods) : Prop := pods.Alike PodAlike pods'

/-- The same pods are stopped. -/
def StoppedAlike (stopped : OrdSet Text) (stopped' : Finset Text) : Prop :=
  ∀ p,stopped.contains p = decide (p ∈ stopped')

/-- Every registered pod has a host name. -/
def HostPods (pods : Pods) : Prop := ∀ p e,pods.get? p = some e → HostName p

theorem setAlike_new (key : AppUserSetKey) :
    SetAlike (SetEntry.new key) (Relay.SetEntry.new (relayKey key)) :=
  ⟨rfl,rfl,fun _ => rfl,fun _ => rfl⟩

theorem SetAlike.joinMembers {s : SetEntry} {s' : Relay.SetEntry} (h : SetAlike s s')
    (pod name : Text) :
    SetAlike (joinMembers s pod name) (Relay.joinMembers s' pod name) := by
  unfold Tunnel.joinMembers Relay.joinMembers
  rw [h.members]
  split
  · exact h
  · exact ⟨h.key,rfl,h.queue,h.holders⟩

theorem SetAlike.enqueue {s : SetEntry} {s' : Relay.SetEntry} (h : SetAlike s s')
    (slot pod : Text) :
    SetAlike (enqueueCandidate s slot pod) (Relay.enqueue s' slot pod) := by
  unfold enqueueCandidate Relay.enqueue
  rw [← h.queue slot]
  cases hq : s.candidateQueue.get? slot with
  | none =>
    refine ⟨h.key,h.members,fun x => ?_,h.holders⟩
    simp [OrdMap.get?_set,h.queue x]
  | some cur =>
    dsimp only [Option.getD_some]
    split
    · refine ⟨h.key,h.members,fun x => ?_,h.holders⟩
      rw [OrdMap.get?_set]
      by_cases hx : x = slot
      · rw [if_pos hx,hx,hq]
      · rw [if_neg hx,h.queue x]
    · refine ⟨h.key,h.members,fun x => ?_,h.holders⟩
      rw [OrdMap.get?_set,OrdMap.get?_set,h.queue x]

theorem SetAlike.setHolder {s : SetEntry} {s' : Relay.SetEntry} (h : SetAlike s s')
    (slot pod : Text) : SetAlike { s with slotHolders := s.slotHolders.set slot pod }
      { s' with slotHolders := s'.slotHolders.set slot pod } := by
  refine ⟨h.key,h.members,h.queue,fun x => ?_⟩
  rw [OrdMap.get?_set,OrdMap.get?_set,h.holders x]

theorem SetAlike.contains_holder {s : SetEntry} {s' : Relay.SetEntry} (h : SetAlike s s')
    (slot : Text) : s.slotHolders.contains slot = s'.slotHolders.contains slot :=
  congrArg Option.isSome (h.holders slot)

section
variable {pods : Pods} {pods' : Relay.Pods} {stopped : OrdSet Text} {stopped' : Finset Text}

/-- Between host names both orders prefer the same member. -/
theorem longerRunning_eq {best : Option (Text × Nat)} (hbest : ∀ b ∈ best,HostName b.1) {m : Text}
    (hm : HostName m) (since : Nat) :
    longerRunning best m since = Relay.betterHeir best m since ∧
      ∀ b ∈ Relay.betterHeir best m since,HostName b.1 := by
  cases best with
  | none =>
    refine ⟨rfl,?_⟩
    intro b hb
    cases hb
    exact hm
  | some b =>
    obtain ⟨b,t⟩ := b
    have horder : localeBefore m b = true ↔ m < b := by
      rw [localeBefore_eq hm (hbest _ rfl),decide_eq_true_eq]
    unfold longerRunning Relay.betterHeir
    dsimp only
    by_cases hbetter : since < t ∨ since = t ∧ m < b
    · rw [if_pos hbetter,if_pos (by rwa [horder])]
      refine ⟨rfl,?_⟩
      intro x hx
      cases hx
      exact hm
    · rw [if_neg hbetter,if_neg (by rwa [horder])]
      exact ⟨rfl,hbest⟩

/-- The same heir takes over in both. -/
theorem pickHeir_eq (hp : PodsAlike pods pods') (hs : StoppedAlike stopped stopped')
    (hosts : HostPods pods) {s : SetEntry} {s' : Relay.SetEntry} (h : SetAlike s s') (slot : Text) :
    pickHeir pods stopped s slot = Relay.pickHeir pods' stopped' s' slot := by
  have hlive : (fun cand => pods.contains cand && s.members.contains cand &&
      !stopped.contains cand) =
      fun c => pods'.contains c && s'.members.contains c && decide (c ∉ stopped') := by
    funext c
    rw [hp.contains_eq c,h.members,hs c,decide_not]
  unfold pickHeir Relay.pickHeir Relay.liveCandidate
  rw [hlive,h.queue slot]
  cases ((s'.candidateQueue.get? slot).getD []).find? _ with
  | some c => rfl
  | none =>
    dsimp only
    unfold Relay.fallbackHeir
    rw [h.members]
    -- whoever is best so far is registered, so the two orders agree on it
    refine congrArg _ (foldl_eq_of_invariant (fun best => ∀ b ∈ best,HostName b.1) ?_ _ (by simp))
    intro best m hbest
    have hpod := hp m
    have hhost := hosts m
    rw [hs m]
    generalize pods.get? m = e at hpod hhost
    generalize pods'.get? m = e' at hpod
    by_cases hm : m ∈ stopped'
    · rw [if_pos hm,decide_eq_true hm]
      cases e <;> exact ⟨rfl,hbest⟩
    · rw [if_neg hm,decide_eq_false hm]
      cases hpod with
      | none => exact ⟨rfl,hbest⟩
      | some halike =>
        dsimp only
        rw [if_neg Bool.false_ne_true,halike.since]
        exact longerRunning_eq hbest (hhost _ rfl) _

/-- The heir is chosen from members and queues only. -/
theorem pickHeir_same {s t : SetEntry} (hm : t.members = s.members)
    (hq : t.candidateQueue = s.candidateQueue) (slot : Text) :
    pickHeir pods stopped t slot = pickHeir pods stopped s slot := by
  unfold pickHeir
  rw [hm,hq]

/-- A set after the slots of a list were given up: nothing but their holders changed. -/
structure GivenUp (pods : Pods) (stopped : OrdSet Text) (pc : Text) (s : SetEntry)
    (es : List (Text × Text)) (t : SetEntry) : Prop where
  key : t.key = s.key
  members : t.members = s.members
  queue : t.candidateQueue = s.candidateQueue
  holders : ∀ x,t.slotHolders.get? x =
    if (x,pc) ∈ es then pickHeir pods stopped s x else s.slotHolders.get? x

theorem get?_setOrDelete (m : OrdMap Text Text) (slot x : Text) (heir : Option Text) :
    (setOrDelete m slot heir).get? x = if x = slot then heir else m.get? x := by
  cases heir with
  | none => exact OrdMap.get?_erase _ _ _
  | some h => exact OrdMap.get?_set _ _ _ _

theorem giveUpSlot_givenUp {pc : Text} {s : SetEntry} {es : List (Text × Text)}
    {acc : SetEntry × List Redistributed} (h : GivenUp pods stopped pc s es acc.1)
    (e : Text × Text) :
    GivenUp pods stopped pc s (es ++ [e]) (giveUpSlot pods stopped pc acc e).1 := by
  obtain ⟨slot,holder⟩ := e
  unfold giveUpSlot
  by_cases hpc : holder = pc
  · subst hpc
    rw [if_neg (by simp),pickHeir_same h.members h.queue]
    refine ⟨h.key,h.members,h.queue,fun x => ?_⟩
    dsimp only
    rw [get?_setOrDelete,h.holders x]
    by_cases hx : x = slot
    · subst hx
      simp
    · simp [hx]
  · rw [if_pos (by simpa using hpc)]
    refine ⟨h.key,h.members,h.queue,fun x => ?_⟩
    rw [h.holders x]
    simp [Ne.symm hpc]

theorem redistribute_givenUp (pods : Pods) (stopped : OrdSet Text) (pc : Text) (s : SetEntry) :
    GivenUp pods stopped pc s s.slotHolders.entries (redistribute pods stopped pc s).1 := by
  unfold redistribute
  generalize s.slotHolders.entries = es
  induction es using List.reverseRecOn with
  | nil => exact ⟨rfl,rfl,rfl,by simp⟩
  | append_singleton es e ih =>
    rw [List.foldl_append]
    exact giveUpSlot_givenUp ih e

theorem assignSlot_key (s : Relay.SetEntry) (slot : Text) (heir : Option Text) :
    (Relay.assignSlot s slot heir).key = s.key := by cases heir <;> rfl

theorem handOver_key (pods : Relay.Pods) (stopped : Finset Text) (pc : Text) (s : Relay.SetEntry)
    (slots : List Text) : (Relay.handOver pods stopped pc s slots).1.key = s.key := by
  unfold Relay.handOver
  induction slots using List.reverseRecOn with
  | nil => rfl
  | append_singleton slots slot ih =>
    rw [List.foldl_append]
    exact (assignSlot_key _ _ _).trans ih

/-- Giving up a pod's slots leaves the two sets alike. -/
theorem SetAlike.giveUp (hp : PodsAlike pods pods') (hs : StoppedAlike stopped stopped')
    (hosts : HostPods pods) {s : SetEntry} {s' : Relay.SetEntry} (h : SetAlike s s') (pc : Text) :
    SetAlike (redistribute pods stopped pc s).1
      (Relay.handOver pods' stopped' pc s' (Relay.heldSlots s' pc)).1 := by
  have ht := redistribute_givenUp pods stopped pc s
  have hr := Relay.Proofs.handOver_spec pods' stopped' pc s' (Relay.heldSlots s' pc)
  refine ⟨?_,?_,?_,?_⟩
  · rw [ht.key,handOver_key,h.key]
  · rw [ht.members,hr.members,h.members]
  · intro slot
    rw [ht.queue,hr.queue,h.queue]
  · intro slot
    rw [ht.holders,hr.holders,pickHeir_eq hp hs hosts h,h.holders slot]
    refine if_congr ?_ rfl rfl
    rw [Relay.Proofs.mem_heldSlots,OrdMap.mem_entries,h.holders slot]

end

section
variable {pods : Pods} {pods' : Relay.Pods} {stopped : OrdSet Text} {stopped' : Finset Text}

theorem SetAlike.forget {s : SetEntry} {s' : Relay.SetEntry} (h : SetAlike s s') (pc : Text) :
    SetAlike (dropFromQueues { s with members := s.members.erase pc } pc)
      (Relay.Allocator.forgetPod s' pc) := by
  refine ⟨h.key,?_,?_,h.holders⟩
  · exact congrArg (OrdMap.erase · pc) h.members
  · intro slot
    unfold dropFromQueues Relay.Allocator.forgetPod
    dsimp only
    rw [OrdMap.get?_filterMapVals,OrdMap.get?_filterMapVals,h.queue slot]
    refine congrArg _ (funext fun q => ?_)
    simp only [List.length_eq_zero_iff,List.isEmpty_iff]

theorem SetAlike.size_holders {s : SetEntry} {s' : Relay.SetEntry} (h : SetAlike s s') :
    s.slotHolders.size = 0 ↔ s'.slotHolders.size = 0 := by
  rw [OrdMap.size_eq_zero,OrdMap.size_eq_zero]
  exact forall_congr' fun x => by rw [h.holders x]

/-- The loops over a pod's sets hold alike sets. -/
def GiveUpAlike (st : GiveUpLoop) (st' : Relay.Allocator.GiveUpLoop) : Prop :=
  SetsAlike st.sets st'.sets

theorem leaveSet_alike (hp : PodsAlike pods pods') (hs : StoppedAlike stopped stopped')
    (hosts : HostPods pods) {st : GiveUpLoop} {st' : Relay.Allocator.GiveUpLoop}
    (h : GiveUpAlike st st') (pc ks : Text) :
    GiveUpAlike (leaveSet pods stopped pc st ks)
      (Relay.Allocator.leaveSet pods' stopped' pc st' ks) := by
  have hks := h ks
  unfold leaveSet Relay.Allocator.leaveSet GiveUpAlike
  generalize st.sets.get? ks = found at hks
  generalize st'.sets.get? ks = found' at hks
  cases hks with
  | none => exact h
  | some halike =>
    have hleft := (halike.forget pc).giveUp hp hs hosts pc
    dsimp only
    generalize redistribute pods stopped pc _ = left at hleft
    generalize Relay.handOver pods' stopped' pc _ _ = left' at hleft
    obtain ⟨set,out⟩ := left
    obtain ⟨set',out'⟩ := left'
    dsimp only at hleft ⊢
    have hempty : set.members.size = 0 ∧ set.slotHolders.size = 0 ↔
        set'.members.size = 0 ∧ set'.slotHolders.size = 0 :=
      and_congr (by rw [hleft.members]) hleft.size_holders
    by_cases hnone : set'.members.size = 0 ∧ set'.slotHolders.size = 0
    · rw [if_pos hnone,if_pos (hempty.mpr hnone)]
      exact h.erase ks
    · rw [if_neg hnone,if_neg (fun h => hnone (hempty.mp h))]
      exact h.set ks hleft

theorem stopInSet_alike (hp : PodsAlike pods pods') (hs : StoppedAlike stopped stopped')
    (hosts : HostPods pods) {st : GiveUpLoop} {st' : Relay.Allocator.GiveUpLoop}
    (h : GiveUpAlike st st') (pc ks : Text) :
    GiveUpAlike (stopInSet pods stopped pc st ks)
      (Relay.Allocator.stopInSet pods' stopped' pc st' ks) := by
  have hks := h ks
  unfold stopInSet Relay.Allocator.stopInSet GiveUpAlike
  generalize st.sets.get? ks = found at hks
  generalize st'.sets.get? ks = found' at hks
  cases hks with
  | none => exact h
  | some halike => exact h.set ks (halike.giveUp hp hs hosts pc)

end
section
variable [Lowercase]

/-- A queue of a list is that of a slot the pod may take. -/
def resumes (apex pc : Text) (pod : PodEntry) (s : SetEntry) (es : List (Text × List Text))
    (x : Text) : Bool :=
  es.any fun e => e.1 == x && mayResume apex pc pod s e.1 e.2

/-- A set after the queues of a list were gone through on resume. -/
structure Claimed (apex pc : Text) (pod : PodEntry) (s : SetEntry)
    (es : List (Text × List Text)) (t : SetEntry) : Prop where
  key : t.key = s.key
  members : t.members = s.members
  queue : t.candidateQueue = s.candidateQueue
  holders : ∀ x,t.slotHolders.get? x =
    if resumes apex pc pod s es x then some pc else s.slotHolders.get? x

theorem claimSlot_claimed {apex pc : Text} {pod : PodEntry} {s : SetEntry}
    {es : List (Text × List Text)} {acc : SetEntry × List Text}
    (h : Claimed apex pc pod s es acc.1) {e : Text × List Text} (hnew : e.1 ∉ es.map Prod.fst) :
    Claimed apex pc pod s (es ++ [e]) (claimSlot apex pc pod acc e).1 := by
  have hold : resumes apex pc pod s es e.1 = false := by
    rw [resumes,List.any_eq_false]
    intro d hd hboth
    have hslot := (Bool.and_eq_true_iff.mp hboth).1
    exact hnew (List.mem_map.mpr ⟨d,hd,beq_iff_eq.mp hslot⟩)
  have hsame : mayResume apex pc pod acc.1 e.1 e.2 = mayResume apex pc pod s e.1 e.2 := by
    have hget := h.holders e.1
    rw [hold,if_neg Bool.false_ne_true] at hget
    unfold mayResume OrdMap.contains
    rw [hget]
  have hmore : ∀ x,resumes apex pc pod s (es ++ [e]) x =
      (resumes apex pc pod s es x || e.1 == x && mayResume apex pc pod s e.1 e.2) := by
    intro x
    rw [resumes,List.any_append,List.any_cons,List.any_nil,Bool.or_false]
    rfl
  unfold claimSlot
  rw [hsame]
  cases hmay : mayResume apex pc pod s e.1 e.2 with
  | true =>
    refine ⟨h.key,h.members,h.queue,fun x => ?_⟩
    rw [if_pos rfl,hmore,hmay,Bool.and_true]
    dsimp only
    rw [OrdMap.get?_set,h.holders x]
    by_cases hx : x = e.1
    · simp [hx]
    · simp [hx,Ne.symm hx]
  | false =>
    refine ⟨h.key,h.members,h.queue,fun x => ?_⟩
    rw [if_neg Bool.false_ne_true,hmore,hmay,Bool.and_false,Bool.or_false]
    exact h.holders x

theorem claimFree_claimed (apex pc : Text) (pod : PodEntry) (s : SetEntry) :
    Claimed apex pc pod s s.candidateQueue.entries (claimFree apex pc pod s).1 := by
  have hnodup := s.candidateQueue.nodup
  unfold claimFree
  generalize s.candidateQueue.entries = es at hnodup
  induction es using List.reverseRecOn with
  | nil => exact ⟨rfl,rfl,rfl,fun _ => rfl⟩
  | append_singleton es e ih =>
    rw [List.map_append,List.nodup_append] at hnodup
    rw [List.foldl_append]
    refine claimSlot_claimed (ih hnodup.1) ?_
    intro hm
    exact hnodup.2.2 _ hm _ (by simp) rfl

theorem mem_freeSlots_iff {apex pc x : Text} {derivable : Finset Text} {s : Relay.SetEntry} :
    x ∈ Relay.Allocator.freeSlots apex pc derivable s ↔
      ∃ q,s.candidateQueue.get? x = some q ∧ x ≠ pc ∧ s.slotHolders.contains x = false ∧ pc ∈ q ∧
        (x ∈ derivable ∨ Relay.isShortServiceCanonical x apex = true) := by
  unfold Relay.Allocator.freeSlots
  rw [List.mem_insertionSort]
  simp only [List.mem_map,List.mem_filter,OrdMap.mem_entries,Bool.and_eq_true,Bool.or_eq_true,
    decide_eq_true_eq,Bool.not_eq_true',Prod.exists,and_assoc]
  constructor
  · rintro ⟨slot,q,hq,hne,hfree,hm,hmay,rfl⟩
    exact ⟨q,hq,hne,hfree,hm,hmay⟩
  · rintro ⟨q,hq,hne,hfree,hm,hmay⟩
    exact ⟨x,q,hq,hne,hfree,hm,hmay,rfl⟩

/-- Claiming the free slots leaves the two sets alike. -/
theorem SetAlike.resume {s : SetEntry} {s' : Relay.SetEntry} (h : SetAlike s s') {pod : PodEntry}
    {pod' : Relay.PodEntry} (hpod : PodAlike pod pod') (apex pc : Text) :
    SetAlike (claimFree apex pc pod s).1 (Relay.Proofs.resumeEntry apex pc pod'.derivable s') := by
  have ht := claimFree_claimed apex pc pod s
  refine ⟨?_,?_,?_,?_⟩
  · rw [ht.key,h.key]
    rfl
  · rw [ht.members,h.members]
    rfl
  · intro x
    rw [ht.queue,h.queue]
    rfl
  · intro x
    have hr : (Relay.Proofs.resumeEntry apex pc pod'.derivable s').slotHolders.get? x = _ :=
      Relay.Proofs.get?_foldl_set _ _ _ _
    rw [ht.holders,hr,h.holders x]
    refine if_congr ?_ rfl rfl
    have hmay : ∀ q,mayResume apex pc pod s x q = true ↔ x ≠ pc ∧
        s'.slotHolders.contains x = false ∧ pc ∈ q ∧
          (x ∈ pod'.derivable ∨ Relay.isShortServiceCanonical x apex = true) := by
      intro q
      unfold mayResume
      rw [hpod.derivable x,h.contains_holder x,isShortServiceCanonical_eq]
      simp only [Bool.and_eq_true,Bool.not_eq_true',Bool.or_eq_false_iff,beq_eq_false_iff_ne,
        Bool.not_eq_false',List.contains_iff_mem,Bool.and_eq_false_iff,decide_eq_true_eq,and_assoc]
    rw [mem_freeSlots_iff,resumes,List.any_eq_true]
    constructor
    · rintro ⟨⟨slot,q⟩,hq,hboth⟩
      obtain ⟨hslot,hq'⟩ := Bool.and_eq_true_iff.mp hboth
      cases beq_iff_eq.mp hslot
      rw [OrdMap.mem_entries,h.queue] at hq
      exact ⟨q,hq,(hmay q).mp hq'⟩
    · rintro ⟨q,hq,hq'⟩
      rw [← h.queue,← OrdMap.mem_entries] at hq
      exact ⟨(x,q),hq,Bool.and_eq_true_iff.mpr ⟨beq_self_eq_true x,(hmay q).mpr hq'⟩⟩

theorem resumeInSet_alike {pod : PodEntry} {pod' : Relay.PodEntry} (hpod : PodAlike pod pod')
    {st : GiveUpLoop} {st' : Relay.Allocator.GiveUpLoop} (h : GiveUpAlike st st')
    (apex pc ks : Text) : GiveUpAlike (resumeInSet apex pc pod st ks)
      (Relay.Allocator.resumeInSet apex pc pod'.derivable st' ks) := by
  have hks := h ks
  unfold resumeInSet Relay.Allocator.resumeInSet GiveUpAlike
  generalize st.sets.get? ks = found at hks
  generalize st'.sets.get? ks = found' at hks
  cases hks with
  | none => exact h
  | some halike => exact h.set ks (halike.resume hpod apex pc)

/-- What both loops of a registration carry. -/
structure LoopAlike (st : AddLoop) (st' : Relay.Allocator.AddLoop) : Prop where
  sets : SetsAlike st.sets st'.sets
  setKeys : st.setKeys = st'.setKeys

theorem joinSet_alike (apex pc : Text) {claim claim' : Text → Bool} {name : Text}
    (hclaim : claim name = claim' name) {st : AddLoop} {st' : Relay.Allocator.AddLoop}
    (h : LoopAlike st st') : LoopAlike (joinSet apex pc claim st name)
      (Relay.Allocator.joinSet apex pc claim' st' name) := by
  have hkey := parseSetKey_eq name apex
  unfold joinSet Relay.Allocator.joinSet
  rw [← hkey]
  cases parseSetKey name apex with
  | none => exact h
  | some key =>
    dsimp only [Option.map_some]
    rw [encode_relayKey]
    have hset : SetAlike ((st.sets.get? (encodeSetKey key)).getD (SetEntry.new key))
        (Relay.setEntry st'.sets (relayKey key)) := by
      have hks := h.sets (encodeSetKey key)
      unfold Relay.setEntry
      rw [encode_relayKey]
      generalize st.sets.get? (encodeSetKey key) = found at hks
      generalize st'.sets.get? (encodeSetKey key) = found' at hks
      cases hks with
      | none => exact setAlike_new key
      | some halike => exact halike
    have hjoined := (hset.joinMembers pc name).enqueue name pc
    have hclaimed := hjoined.contains_holder name
    refine ⟨?_,?_⟩
    · refine h.sets.set _ ?_
      rw [hclaimed,hclaim]
      split
      · exact hjoined.setHolder name pc
      · exact hjoined
    · exact congrArg (OrdMap.push · (encodeSetKey key)) h.setKeys

end
end Flagship.Tunnel.Proofs

import Flagship.Tunnel.Proofs.AllocatorSets

namespace Flagship.Tunnel.Proofs
open Lib AppUserAllocator
open Relay (Allocator)

theorem contains_eq_mem (s : OrdSet Text) (n : Text) :
    s.contains n = decide (n ∈ s.keys.toFinset) := by
  rw [Bool.eq_iff_iff,OrdMap.contains_iff_mem,decide_eq_true_eq,List.mem_toFinset]

section
variable [Lowercase]

/-- The two allocators hold the same state, up to the order of their slots. -/
structure Alike (t : AppUserAllocator) (r : Allocator) : Prop where
  apex : t.apex = r.apex
  pods : PodsAlike t.pods r.pods
  sets : SetsAlike t.sets r.sets
  stopped : StoppedAlike t.appsStopped r.appsStopped
  reserved : ∀ n,t.reservedControl.contains n = false
  hosts : HostPods t.pods

theorem alike_new {apex : Text} (hapex : HostName apex) :
    Alike (AppUserAllocator.new apex) (Allocator.new apex) where
  apex := hapex.lower.symm
  pods := OrdMap.alike_empty
  sets := OrdMap.alike_empty
  stopped := fun _ => rfl
  reserved := fun _ => rfl
  hosts := by
    intro p e h
    cases h

section
variable {t : AppUserAllocator} {r : Allocator}

theorem derivableSet_eq (canonicals : OrdSet Text) (apex : Text) :
    derivableSet canonicals apex = Allocator.derivableNames canonicals apex := by
  unfold derivableSet Allocator.derivableNames
  simp only [derivableShorteneds_eq]

/-- Every name a registration indexes is a lowercase one. -/
theorem lower_ordered {pc n : Text} (hpc : toLowercase pc = pc) {canonicals : List Text}
    (h : n ∈ (Allocator.orderedNames pc canonicals).keys) : toLowercase n = n := by
  rcases Relay.Proofs.mem_orderedNames.mp h with rfl | ⟨c,_,rfl,_⟩
  · exact hpc
  · exact toLowercase_idem c

theorem lower_derivable {apex n : Text} (hapex : IsLower apex) {ordered : OrdSet Text}
    (h : n ∈ (Allocator.derivableNames ordered apex).keys) : toLowercase n = n := by
  obtain ⟨c,_,hn⟩ := Relay.Proofs.mem_derivableNames.mp h
  exact Relay.derivableShorteneds_lower hapex hn

/-- The names no slot may take are the same once the pod's own record is in. -/
theorem Alike.isControlName_add (h : Alike t r) {pc : Text} {e : PodEntry} {u : AppUserAllocator}
    (hpods : u.pods = t.pods.set pc e) (hreserved : u.reservedControl = t.reservedControl)
    {n : Text} (hn : toLowercase n = n) :
    u.isControlName n = decide (n ∈ insert pc r.pods.keys.toFinset) := by
  unfold isControlName
  rw [hn,hpods,hreserved,h.reserved n,Bool.or_false,Bool.eq_iff_iff,OrdMap.contains_set,
    h.pods.contains_eq n,OrdMap.contains_iff_mem]
  simp

omit [Lowercase] in
theorem StoppedAlike.flag {stopped : OrdSet Text} {stopped' : Finset Text}
    (h : StoppedAlike stopped stopped') (pc : Text) (allowed : Bool) :
    StoppedAlike (if allowed then stopped.erase pc else stopped.push pc)
      (Allocator.stopFlag stopped' pc allowed) := by
  intro p
  unfold Allocator.stopFlag
  have hp := h p
  cases allowed with
  | true =>
    rw [if_pos rfl,if_pos rfl,OrdMap.contains,OrdMap.get?_erase]
    by_cases hpc : p = pc
    · simp [hpc]
    · rw [if_neg hpc]
      simpa [hpc,OrdMap.contains] using hp
  | false =>
    rw [if_neg Bool.false_ne_true,if_neg Bool.false_ne_true,Bool.eq_iff_iff,OrdMap.push,
      OrdMap.contains_set,hp]
    simp

/-- The loops of a registration, the pod's own record already in. -/
theorem Alike.addLoops (h : Alike t r) {pc : Text} (hpc : toLowercase pc = pc) {e : PodEntry}
    {u : AppUserAllocator} (hpods : u.pods = t.pods.set pc e) (hsets : u.sets = t.sets)
    (hreserved : u.reservedControl = t.reservedControl) (hapex : u.apex = t.apex) (apps : Bool)
    (canonicals : List Text) :
    LoopAlike (u.addLoops pc apps (canonicalSet pc canonicals)
        (derivableSet (canonicalSet pc canonicals) t.apex))
      (Allocator.addLoops r.sets r.apex pc (insert pc r.pods.keys.toFinset) apps
        (Allocator.orderedNames pc canonicals)) := by
  have hordered : canonicalSet pc canonicals = Allocator.orderedNames pc canonicals := rfl
  unfold AppUserAllocator.addLoops Allocator.addLoops
  rw [derivableSet_eq,hordered,hapex,hsets,h.apex]
  refine foldl_related LoopAlike _ ?_ (foldl_related LoopAlike _ ?_ ⟨h.sets,rfl⟩)
  · intro st st' sh hsh hst
    refine joinSet_alike r.apex pc ?_ hst
    unfold claimShortened Allocator.claimDerived
    rw [h.isControlName_add hpods hreserved (lower_derivable r.apexLower hsh),decide_not]
  · intro st st' c hc hst
    refine joinSet_alike r.apex pc ?_ hst
    unfold claimCanonical Allocator.claimCanonical
    rw [h.isControlName_add hpods hreserved (lower_ordered hpc hc),hapex,h.apex,
      isShortServiceCanonical_eq,bne,beq_eq_decide,decide_not,decide_not]

theorem Alike.since (h : Alike t r) (pod : Text) (now : Nat) :
    ((t.pods.get? pod).map PodEntry.firstRegisteredAt).getD now =
      ((r.pods.get? pod).map Relay.PodEntry.firstRegisteredAt).getD now := by
  have hold := h.pods pod
  generalize t.pods.get? pod = old at hold
  generalize r.pods.get? pod = old' at hold
  cases hold with
  | none => rfl
  | some halike => exact halike.since

/-- A registration keeps the two alike. -/
theorem Alike.addPod (h : Alike t r) {pod : Text} (hpod : HostName pod) (canonicals : List Text)
    (now : Nat) (apps : Bool) : Alike (t.addPod pod canonicals now apps).1
      (r.addPodServing pod canonicals now apps).1 := by
  have hlower := hpod.lower
  unfold AppUserAllocator.addPod Allocator.addPodServing
  rw [hlower]
  dsimp only
  have hloop := h.addLoops (u := t.withRecord pod (t.podRecord pod (canonicalSet pod canonicals) now)
    apps) hlower rfl rfl rfl rfl apps canonicals
  exact {
    apex := h.apex
    pods := by
      intro k
      rw [OrdMap.get?_set,OrdMap.get?_set]
      by_cases hk : k = pod
      · rw [if_pos hk,if_pos hk]
        refine .some ⟨h.since pod now,contains_eq_mem _,?_,hloop.setKeys⟩
        intro n
        rw [← h.apex,← derivableSet_eq]
        exact contains_eq_mem _ n
      · rw [if_neg hk,if_neg hk]
        exact (OrdMap.get?_set_ne hk).symm ▸ h.pods k
    sets := hloop.sets
    stopped := h.stopped.flag pod apps
    reserved := h.reserved
    hosts := by
      intro p e hp
      by_cases hk : p = pod
      · exact hk ▸ hpod
      · refine h.hosts p e (Eq.trans ?_ hp)
        exact ((OrdMap.get?_set_ne hk).trans (OrdMap.get?_set_ne hk)).symm }

/-- The rejection as the relay states it. -/
def relayError : TransferRejection → Relay.TransferError
  | .notDerivable => .notDerivable
  | .podNotRegistered => .podNotRegistered
  | .notParseable => .notParseable
  | .appsStopped => .appsStopped
  | .controlNameReserved => .controlNameReserved

def relayAnswer : Except TransferRejection TransferResult →
    Except Relay.TransferError (Relay.SetKey × Option Text)
  | .error e => .error (relayError e)
  | .ok result => .ok (relayKey result.affectedSet,result.previousHolder)

omit [Lowercase] in
theorem userOf_eq (f apex : Text) : Relay.userOf f apex =
    if ('.' :: apex).isSuffixOf f then
      ((f.take (f.length - ('.' :: apex).length)).splitOn '.').getLast?
    else none := by
  unfold Relay.userOf
  rw [← headUnder_eq,headUnder]
  split <;> rfl

theorem Alike.inOwnUserZone_eq (h : Alike t r) (pc : Text) {fq : Text}
    (hfq : toLowercase fq = fq) : t.inOwnUserZone pc fq = r.inOwnUserZone pc fq := by
  unfold AppUserAllocator.inOwnUserZone Allocator.inOwnUserZone
  rw [h.apex,isShortServiceCanonical_eq,userOf_eq,userOf_eq]
  dsimp only
  cases hshort : Relay.isShortServiceCanonical fq r.apex with
  | false => rfl
  | true =>
    have hsuffix : ('.' :: r.apex).isSuffixOf fq = true := by
      unfold Relay.isShortServiceCanonical at hshort
      rw [hfq,← headUnder_eq,headUnder] at hshort
      by_contra hnot
      rw [if_neg hnot] at hshort
      cases hshort
    rw [if_pos hsuffix]
    generalize fq.take _ = head
    have hlast : ∀ head : Text,∃ user,(head.splitOn '.').getLast? = some user := fun head =>
      Option.isSome_iff_exists.mp (by simp [List.splitOn_ne_nil])
    obtain ⟨user,huser⟩ := hlast head
    rw [huser]
    cases hpc : ('.' :: r.apex).isSuffixOf pc with
    | false => rfl
    | true =>
      generalize pc.take _ = own
      obtain ⟨user',huser'⟩ := hlast own
      rw [huser']
      rfl

omit [Lowercase] in
theorem SetAlike.promote {s : SetEntry} {s' : Relay.SetEntry} (h : SetAlike s s') (fq pc : Text) :
    SetAlike { promoteToHead s fq pc with slotHolders := (promoteToHead s fq pc).slotHolders.set fq pc }
      (Allocator.promote s' fq pc) := by
  refine ⟨h.key,h.members,fun x => ?_,fun x => ?_⟩
  · unfold promoteToHead Allocator.promote
    dsimp only
    rw [OrdMap.get?_set,OrdMap.get?_set,h.queue fq,h.queue x]
  · unfold promoteToHead Allocator.promote
    dsimp only
    rw [OrdMap.get?_set,OrdMap.get?_set,h.holders x]

theorem Alike.setEntry (h : Alike t r) (key : AppUserSetKey) :
    SetAlike ((t.sets.get? (encodeSetKey key)).getD (SetEntry.new key))
      (Relay.setEntry r.sets (relayKey key)) := by
  have hks := h.sets (encodeSetKey key)
  unfold Relay.setEntry
  rw [encode_relayKey]
  generalize t.sets.get? (encodeSetKey key) = found at hks
  generalize r.sets.get? (encodeSetKey key) = found' at hks
  cases hks with
  | none => exact setAlike_new key
  | some halike => exact halike

/-- A transfer of a name the pod registered. -/
theorem Alike.moveSlot (h : Alike t r) {s : SetEntry} {s' : Relay.SetEntry} (hs : SetAlike s s')
    (ks fq pc : Text) :
    Alike { t with sets := t.sets.set ks { promoteToHead s fq pc with
        slotHolders := (promoteToHead s fq pc).slotHolders.set fq pc } }
      { r with sets := r.sets.set ks (Allocator.promote s' fq pc) } where
  apex := h.apex
  pods := h.pods
  sets := h.sets.set ks (hs.promote fq pc)
  stopped := h.stopped
  reserved := h.reserved
  hosts := h.hosts

/-- Joining the set of a name in the pod's own zone. -/
theorem Alike.joinOwnZone (h : Alike t r) {pc : Text} {e : PodEntry} {e' : Relay.PodEntry}
    (hp : t.pods.get? pc = some e) (hp' : r.pods.get? pc = some e') (hpod : PodAlike e e')
    (fq : Text) (key : AppUserSetKey) {s : SetEntry}
    (hs : SetAlike s (Relay.setEntry r.sets (relayKey key))) :
    Alike { t with
        pods := t.pods.set pc (AppUserAllocator.joinOwnZone s e (encodeSetKey key) pc fq).2
        sets := t.sets.set (encodeSetKey key)
          (AppUserAllocator.joinOwnZone s e (encodeSetKey key) pc fq).1 }
      (r.joinOwnZone pc fq (relayKey key)) where
  apex := h.apex
  pods := by
    unfold Allocator.joinOwnZone
    rw [hp']
    refine h.pods.set pc ⟨hpod.since,hpod.canonicals,hpod.derivable,?_⟩
    exact congrArg (OrdMap.push · (encodeSetKey key)) hpod.setKeys
  sets := h.sets.set _ ((hs.joinMembers pc fq).enqueue fq pc)
  stopped := h.stopped
  reserved := h.reserved
  hosts := by
    intro p x hx
    rw [OrdMap.get?_set] at hx
    by_cases hk : p = pc
    · exact hk ▸ h.hosts pc e hp
    · rw [if_neg hk] at hx
      exact h.hosts p x hx

omit [Lowercase] in
theorem set_over {sets : Sets} {sets' : Relay.Sets} (h : SetsAlike sets sets') (ks : Text)
    (x : Relay.SetEntry) {s : SetEntry} {s' : Relay.SetEntry} (hs : SetAlike s s') :
    SetsAlike (sets.set ks s) ((sets'.set ks x).set ks s') := by
  intro k
  rw [OrdMap.get?_set,OrdMap.get?_set]
  by_cases hk : k = ks
  · rw [if_pos hk,if_pos hk]
    exact .some hs
  · rw [if_neg hk,if_neg hk,OrdMap.get?_set_ne hk]
    exact h k

/-- A transfer keeps the two alike and answers the same. -/
theorem Alike.requestTransfer (h : Alike t r) (pod fqdn : Text) :
    Alike (t.requestTransfer pod fqdn).1 (r.requestTransfer pod fqdn).1 ∧
      relayAnswer (t.requestTransfer pod fqdn).2 = (r.requestTransfer pod fqdn).2 := by
  unfold AppUserAllocator.requestTransfer Allocator.requestTransfer
  dsimp only
  have hlower : toLowercase (toLowercase fqdn) = toLowercase fqdn := toLowercase_idem fqdn
  generalize toLowercase pod = pc
  generalize toLowercase fqdn = fq at hlower
  have hpod := h.pods pc
  generalize hp : t.pods.get? pc = found at hpod
  generalize hp' : r.pods.get? pc = found' at hpod
  cases hpod with
  | none => exact ⟨h,rfl⟩
  | @some e e' hpod =>
    dsimp only
    rw [h.stopped pc]
    by_cases hstop : pc ∈ r.appsStopped
    · rw [if_pos hstop,if_pos (decide_eq_true hstop)]
      exact ⟨h,rfl⟩
    have hparse : Relay.parseSetKey fq r.apex = (parseSetKey fq t.apex).map relayKey := by
      rw [h.apex,parseSetKey_eq]
    rw [if_neg hstop,if_neg (by simpa using hstop),hparse]
    cases parseSetKey fq t.apex with
    | none => exact ⟨h,rfl⟩
    | some key =>
      dsimp only [Option.map_some]
      have hcontrol : t.isControlName fq = r.pods.contains fq := by
        rw [isControlName,hlower,h.reserved,Bool.or_false,h.pods.contains_eq]
      rw [hcontrol,hpod.derivable fq,hpod.canonicals fq,h.inOwnUserZone_eq pc hlower]
      by_cases htaken : fq ≠ pc ∧ r.pods.contains fq = true
      · rw [if_pos htaken,if_pos (by simpa using htaken)]
        exact ⟨h,rfl⟩
      rw [if_neg htaken,if_neg (by simpa using htaken)]
      generalize (decide (fq ∈ e'.derivable) || decide (fq ∈ e'.canonicals)) = registered
      rw [encode_relayKey]
      cases registered with
      | true =>
        have hks := h.sets (encodeSetKey key)
        simp only [Bool.not_true,Bool.false_and,Bool.false_eq_true,↓reduceIte]
        generalize t.sets.get? (encodeSetKey key) = set at hks
        generalize r.sets.get? (encodeSetKey key) = set' at hks
        cases hks with
        | none => exact ⟨h,rfl⟩
        | some hs =>
          refine ⟨h.moveSlot hs _ fq pc,?_⟩
          exact congrArg (fun holder => Except.ok (relayKey key,holder)) (hs.holders fq)
      | false =>
        cases hzone : r.inOwnUserZone pc fq with
        | false => exact ⟨h,rfl⟩
        | true =>
          have hs := h.setEntry key
          have hjoined := h.joinOwnZone hp hp' hpod fq key hs
          have hset : (r.joinOwnZone pc fq (relayKey key)).sets.get? (encodeSetKey key) = some _ :=
            OrdMap.get?_set_self _ _ _
          simp only [Bool.not_false,Bool.not_true,Bool.true_and,Bool.and_false,Bool.false_eq_true,
            ↓reduceIte,hset]
          generalize t.sets.get? (encodeSetKey key) = set at hs hjoined
          have hin := (hs.joinMembers pc fq).enqueue fq pc
          have hfinal : SetsAlike (t.sets.set (encodeSetKey key) _)
              (((r.joinOwnZone pc fq (relayKey key)).sets).set (encodeSetKey key) _) :=
            set_over h.sets _ _ (hin.promote fq pc)
          have hanswer := congrArg (fun holder => (Except.ok (relayKey key,holder) :
            Except Relay.TransferError _)) (hin.holders fq)
          cases set with
          | none =>
            refine ⟨⟨h.apex,hjoined.pods,hfinal,h.stopped,h.reserved,hjoined.hosts⟩,?_⟩
            exact hanswer
          | some set =>
            refine ⟨⟨h.apex,hjoined.pods,hfinal,h.stopped,h.reserved,hjoined.hosts⟩,?_⟩
            exact hanswer

theorem Alike.removePod (h : Alike t r) (pod : Text) :
    Alike (t.removePod pod).1 (r.removePod pod).1 := by
  unfold AppUserAllocator.removePod Allocator.removePod
  dsimp only
  generalize toLowercase pod = pc
  have hpod := h.pods pc
  generalize t.pods.get? pc = found at hpod
  generalize r.pods.get? pc = found' at hpod
  cases hpod with
  | none => exact h
  | @some e e' hpod =>
    dsimp only
    rw [hpod.setKeys]
    have hloop := foldl_related GiveUpAlike e'.setKeys.keys
      (fun st st' ks _ hst => leaveSet_alike h.pods h.stopped h.hosts hst pc ks)
      (b := ⟨t.sets,∅,[]⟩) (c := ⟨r.sets,∅,[]⟩) h.sets
    exact {
      apex := h.apex
      pods := h.pods.erase pc
      sets := hloop
      stopped := h.stopped.flag pc true
      reserved := h.reserved
      hosts := by
        intro p x hx
        rw [OrdMap.get?_erase] at hx
        by_cases hk : p = pc
        · rw [if_pos hk] at hx
          cases hx
        · rw [if_neg hk] at hx
          exact h.hosts p x hx }

theorem Alike.setAppsAllowed (h : Alike t r) (pod : Text) (allowed : Bool) :
    Alike (t.setAppsAllowed pod allowed).1 (r.setAppsAllowed pod allowed).1 := by
  unfold AppUserAllocator.setAppsAllowed Allocator.setAppsAllowed
  dsimp only
  generalize toLowercase pod = pc
  have hpod := h.pods pc
  generalize t.pods.get? pc = found at hpod
  generalize r.pods.get? pc = found' at hpod
  cases hpod with
  | none => exact h
  | @some e e' hpod =>
    dsimp only
    have hsame : (allowed = !t.appsStopped.contains pc) ↔ allowed ≠ decide (pc ∈ r.appsStopped) := by
      rw [h.stopped pc]
      cases allowed <;> cases decide (pc ∈ r.appsStopped) <;> simp
    by_cases hnothing : allowed ≠ decide (pc ∈ r.appsStopped)
    · rw [if_pos hnothing,if_pos (hsame.mpr hnothing)]
      exact h
    rw [if_neg hnothing,if_neg (fun hx => hnothing (hsame.mp hx)),hpod.setKeys]
    have hflag := h.stopped.flag pc allowed
    have hloop : SetsAlike
        (e'.setKeys.keys.foldl (if allowed then resumeInSet t.apex pc e else
          stopInSet t.pods (if allowed then t.appsStopped.erase pc else t.appsStopped.push pc) pc)
          ⟨t.sets,∅,[]⟩).sets
        (e'.setKeys.keys.foldl (if allowed then Allocator.resumeInSet r.apex pc e'.derivable else
          Allocator.stopInSet r.pods (Allocator.stopFlag r.appsStopped pc allowed) pc)
          ⟨r.sets,∅,[]⟩).sets := by
      refine foldl_related GiveUpAlike _ ?_ h.sets
      intro st st' ks _ hst
      cases allowed with
      | true =>
        rw [if_pos rfl,if_pos rfl,h.apex]
        exact resumeInSet_alike hpod hst _ pc ks
      | false => exact stopInSet_alike h.pods hflag h.hosts hst pc ks
    exact ⟨h.apex,h.pods,hloop,hflag,h.reserved,h.hosts⟩

theorem Alike.findHolder (h : Alike t r) (fqdn : Text) :
    t.findHolderByFqdn fqdn = r.findHolder fqdn := by
  unfold findHolderByFqdn Allocator.findHolder
  dsimp only
  rw [h.pods.contains_eq,← parseSetKey_eq,h.apex]
  split
  · rfl
  · cases parseSetKey (toLowercase fqdn) r.apex with
    | none => rfl
    | some key =>
      dsimp only [Option.map_some,Option.bind_eq_bind,Option.bind_some]
      rw [encode_relayKey]
      have hks := h.sets (encodeSetKey key)
      generalize t.sets.get? (encodeSetKey key) = set at hks
      generalize r.sets.get? (encodeSetKey key) = set' at hks
      cases hks with
      | none => rfl
      | some hs => exact hs.holders _

/-- The member as the relay states it. -/
def relayMember (m : MemberSnapshot) : Relay.SnapshotMember :=
  ⟨m.podCanonical,m.canonicalForSet,m.joinedAt⟩

/-- The same snapshot, whatever the order of its members and slots. -/
structure SnapshotAlike (s : AppUserSetSnapshot) (s' : Relay.Snapshot) : Prop where
  key : relayKey s.key = s'.key
  members : (s.members.map relayMember).Perm s'.members
  slotHolders : s.slotHolders.Perm s'.slotHolders

theorem Alike.snapshotSet (h : Alike t r) {s : SetEntry} {s' : Relay.SetEntry}
    (hs : SetAlike s s') : SnapshotAlike (t.snapshotSet s) (r.snapshotSet s') := by
  refine ⟨hs.key,?_,?_⟩
  · refine ((List.mergeSort_perm _ _).map relayMember).trans
      (List.Perm.trans ?_ (List.mergeSort_perm _ _).symm)
    rw [List.map_map,hs.members]
    refine List.Perm.of_eq (List.map_congr_left fun e _ => ?_)
    exact congrArg (fun since => (⟨e.1,e.2,since⟩ : Relay.SnapshotMember)) (h.since e.1 0)
  · refine (List.mergeSort_perm _ _).trans (List.Perm.trans ?_ (List.mergeSort_perm _ _).symm)
    refine (List.perm_ext_iff_of_nodup s.slotHolders.nodup.of_map s'.slotHolders.nodup.of_map).mpr ?_
    rintro ⟨slot,holder⟩
    rw [OrdMap.mem_entries,OrdMap.mem_entries,hs.holders slot]

theorem Alike.snapshotByKey (h : Alike t r) (key : AppUserSetKey) :
    Option.Rel SnapshotAlike (t.snapshotByKey key) (r.snapshotByKey (relayKey key)) := by
  unfold AppUserAllocator.snapshotByKey Allocator.snapshotByKey
  rw [encode_relayKey]
  have hks := h.sets (encodeSetKey key)
  generalize t.sets.get? (encodeSetKey key) = set at hks
  generalize r.sets.get? (encodeSetKey key) = set' at hks
  cases hks with
  | none => exact .none
  | some hs => exact .some (h.snapshotSet hs)

end

/-- The same call on the other allocator. -/
def tunnelStep (t : AppUserAllocator) : Allocator.Op → AppUserAllocator
  | .addPodServing pod canonicals nowMs apps => (t.addPod pod canonicals nowMs apps).1
  | .requestTransfer pod fqdn => (t.requestTransfer pod fqdn).1
  | .setAppsAllowed pod allowed => (t.setAppsAllowed pod allowed).1
  | .removePod pod => (t.removePod pod).1

/-- A pod registers under a lowercase ASCII host name. -/
def RegistersHost : Allocator.Op → Prop
  | .addPodServing pod _ _ _ => HostName pod
  | _ => True

instance (op : Allocator.Op) : Decidable (RegistersHost op) :=
  match op with
  | .addPodServing pod _ _ _ => inferInstanceAs (Decidable (HostName pod))
  | .requestTransfer _ _ => isTrue trivial
  | .setAppsAllowed _ _ => isTrue trivial
  | .removePod _ => isTrue trivial

theorem Alike.step {t : AppUserAllocator} {r : Allocator} (h : Alike t r) {op : Allocator.Op}
    (hop : RegistersHost op) : Alike (tunnelStep t op) (Allocator.step r op) := by
  cases op with
  | addPodServing pod canonicals nowMs apps => exact h.addPod hop canonicals nowMs apps
  | requestTransfer pod fqdn => exact (h.requestTransfer pod fqdn).1
  | setAppsAllowed pod allowed => exact h.setAppsAllowed pod allowed
  | removePod pod => exact h.removePod pod

/-- The two allocators stay alike over every run of the same calls. -/
theorem run_alike {apex : Text} (hapex : HostName apex) {ops : List Allocator.Op}
    (hops : ∀ op ∈ ops,RegistersHost op) :
    Alike (run tunnelStep (AppUserAllocator.new apex) ops)
      (run Allocator.step (Allocator.new apex) ops) := by
  unfold run
  refine foldl_related Alike ops ?_ (alike_new hapex)
  intro t r op hm h
  exact h.step (hops op hm)

end

/-- Two boxes of one account with the same app, of which the first one leaves. -/
def twoBoxes : List Allocator.Op :=
  [.addPodServing Relay.homePod ["notes.home.alice.flagship.services".toList] 1 true,
    .addPodServing Relay.cabinPod ["notes.cabin.alice.flagship.services".toList] 1 true,
    .removePod Relay.homePod]

end Flagship.Tunnel.Proofs

import Flagship.Control.Proofs.TransferClaims

namespace Flagship.Control.Proofs
open Lib

/-- The names whose claims are being carried out. -/
def movingHosts (w : TransferState) : List Text :=
  (w.requests.filterMap TransferProgress.moving).map (·.claim.host)

theorem mem_movingHosts {w : TransferState} {host : Text} :
    host ∈ movingHosts w ↔ ∃ p ∈ w.requests,∃ m,p.moving = some m ∧ m.claim.host = host := by
  simp only [movingHosts,List.mem_map,List.mem_filterMap]
  constructor
  · rintro ⟨m,⟨p,hp,hm⟩,hhost⟩
    exact ⟨p,hp,m,hm,hhost⟩
  · rintro ⟨p,hp,m,hm,hhost⟩
    exact ⟨m,⟨p,hp,hm⟩,hhost⟩

/-- A request about to revoke the name. -/
def Leaving (w : TransferState) (domain : Text) : Prop :=
  ∃ m time,.revoke m time ∈ w.requests ∧ m.claim.host = domain

section
variable [Lowercase]

/-- Where a box stands: it has an unrevoked row there, or is about to be put from
there under another name. -/
def Place (w : TransferState) (domain key : Text) : Prop :=
  w.shared.tables.servers.Live domain key ∨
    ∃ m,.put m ∈ w.requests ∧ m.claim.host = domain ∧ boxKey m.reg = key

/-- What holds where every move is carried out whole. -/
structure MovedWhole (cfg : TransferConfig) (w : TransferState) : Prop where
  hosts : (movingHosts w).Nodup
  single : ∀ key d d',Place w d key → Place w d' key → ¬ Leaving w d → ¬ Leaving w d' → d = d'
  given : ∀ host acquirer key labels,splitPodCanonical host cfg.apex = some labels →
    w.shared.tables.servers.Live host key → GivenAway w.shared.history host acquirer key →
      host ∈ movingHosts w
  takes : ∀ m,.put m ∈ w.requests → ∀ acquirer,
    GivenAway w.shared.history m.claim.host acquirer (boxKey m.reg) → acquirer = m.claim.acquirer
  each : Each NotAcquiredTwice w.shared.history

theorem givenAway_recorded {history : List TransferEvent} {c : Claim}
    {offer : ServerTransferRecord} {reg : ServerRecord} {host acquirer key : Text}
    (h : GivenAway (history ++ [.recorded c offer reg]) host acquirer key) :
    GivenAway history host acquirer key ∨
      c.host = host ∧ c.acquirer = acquirer ∧ boxKey reg = key := by
  obtain ⟨before,c',offer',reg',since,heq,hhost,hacquirer,hkey,hsince⟩ := h
  rcases append_singleton_cases heq with ⟨rest,hrest,rfl⟩ | ⟨_,hlast,_⟩
  · exact Or.inl ⟨before,c',offer',reg',rest,hrest,hhost,hacquirer,hkey,
      fun m hm => hsince m (List.mem_append_left _ hm)⟩
  · cases hlast
    exact Or.inr ⟨hhost,hacquirer,hkey⟩

theorem givenAway_moved {history : List TransferEvent} {m : Moving} {host acquirer key : Text}
    (h : GivenAway (history ++ [.moved m]) host acquirer key) :
    GivenAway history host acquirer key ∧ (m.newDomain = host → boxKey m.reg ≠ key) := by
  obtain ⟨before,c,offer,reg,since,heq,hhost,hacquirer,hkey,hsince⟩ := h
  rcases append_singleton_cases heq with ⟨rest,hrest,rfl⟩ | ⟨_,hlast,_⟩
  · refine ⟨⟨before,c,offer,reg,rest,hrest,hhost,hacquirer,hkey,
      fun m hm => hsince m (List.mem_append_left _ hm)⟩,?_⟩
    exact hsince m (List.mem_append_right _ (List.mem_singleton_self _))
  · cases hlast

variable {cfg : TransferConfig} {w : TransferState} {i : Nat} {p p' : TransferProgress}

omit [Lowercase] in
theorem movingHosts_set (hi : w.requests[i]? = some p) (p' : TransferProgress)
    (s : Shared TransferTables TransferEvent) :
    ((p.moving.map (·.claim.host)).toList ++ movingHosts ⟨s,w.requests.set i p'⟩).Perm
      ((p'.moving.map (·.claim.host)).toList ++ movingHosts w) := by
  have hset := (filterMap_set_perm TransferProgress.moving hi p').map (·.claim.host)
  rw [List.map_append,List.map_append] at hset
  cases hp : p.moving <;> cases hp' : p'.moving <;> rw [hp,hp'] at hset <;> exact hset

omit [Lowercase] in
theorem put_mem_set {m : Moving} (hp' : p'.moving = none)
    (hm : .put m ∈ w.requests.set i p') : .put m ∈ w.requests := by
  rcases List.mem_or_eq_of_mem_set hm with hm | rfl
  · exact hm
  · cases hp'

omit [Lowercase] in
/-- A call of a request that moves nothing changes nothing of where boxes are. -/
theorem leaving_set (hi : w.requests[i]? = some p) (hp : p.moving = none)
    (s : Shared TransferTables TransferEvent) {domain : Text} (h : Leaving w domain) :
    Leaving ⟨s,w.requests.set i p'⟩ domain := by
  obtain ⟨m,time,hm,hhost⟩ := h
  refine ⟨m,time,mem_set_of_ne hi hm ?_ p',hhost⟩
  rintro rfl
  cases hp

theorem MovedWhole.ordinary (hw : MovedWhole cfg w) (hi : w.requests[i]? = some p)
    (hp : p.moving = none) (hp' : p'.moving = none) (ticks : List Nat) {t' : TransferTables}
    (ht : t'.servers = w.shared.tables.servers) :
    MovedWhole cfg ⟨w.shared.after ticks t' [],w.requests.set i p'⟩ := by
  have hperm := movingHosts_set hi p' (w.shared.after ticks t' [])
  rw [hp,hp'] at hperm
  have hplace : ∀ {d key},Place ⟨w.shared.after ticks t' [],w.requests.set i p'⟩ d key →
      Place w d key := by
    rintro d key (hlive | ⟨m,hm,hhost,hkey⟩)
    · simp only [Shared.after,ht] at hlive
      exact Or.inl hlive
    · exact Or.inr ⟨m,put_mem_set hp' hm,hhost,hkey⟩
  refine ⟨hperm.symm.nodup hw.hosts,?_,?_,?_,?_⟩
  · intro key d d' hd hd' hstays hstays'
    exact hw.single key d d' (hplace hd) (hplace hd') (fun h => hstays (leaving_set hi hp _ h))
      (fun h => hstays' (leaving_set hi hp _ h))
  · intro host acquirer key labels hlabels hlive hgiven
    simp only [Shared.after,ht,List.append_nil] at hlive hgiven
    exact hperm.symm.subset (hw.given host acquirer key labels hlabels hlive hgiven)
  · intro m hm acquirer hgiven
    simp only [Shared.after,List.append_nil] at hgiven
    exact hw.takes m (put_mem_set hp' hm) acquirer hgiven
  · simp only [Shared.after,List.append_nil]
    exact hw.each

/-- The claim is recorded: from here on the box is about to leave. -/
theorem MovedWhole.recorded (hw : MovedWhole cfg w) {c : Claim} {reg : ServerRecord} {irk : Text}
    {time : Int} (hi : w.requests[i]? = some (.claimWrite c reg irk time)) (ticks : List Nat)
    {t' : TransferTables} (ht : t'.servers = w.shared.tables.servers)
    (offer : ServerTransferRecord) (hreg : w.shared.tables.servers c.host = some reg)
    (hlive : reg.revokedAt = none) (hfree : c.host ∉ movingHosts w)
    (hrenamed : ∀ labels,splitPodCanonical c.host cfg.apex = some labels →
      newDomain cfg labels c.acquirer ≠ c.host) :
    MovedWhole cfg ⟨w.shared.after ticks t' [.recorded c offer reg],
      w.requests.set i (startMove cfg c reg)⟩ := by
  have hnone : (TransferProgress.claimWrite c reg irk time).moving = none := rfl
  have hperm := movingHosts_set hi (startMove cfg c reg)
    (w.shared.after ticks t' [.recorded c offer reg])
  rw [hnone] at hperm
  -- Nobody else can have been given the box while its row stands and no claim is under way.
  have hnew : ∀ labels acquirer,splitPodCanonical c.host cfg.apex = some labels →
      ¬ GivenAway w.shared.history c.host acquirer (boxKey reg) :=
    fun labels acquirer hlabels hgiven =>
      hfree (hw.given c.host acquirer _ labels hlabels ⟨reg,hreg,hlive,rfl⟩ hgiven)
  have hmove : (startMove cfg c reg).moving = none ∧ splitPodCanonical c.host cfg.apex = none ∨
      ∃ labels,splitPodCanonical c.host cfg.apex = some labels ∧
        startMove cfg c reg = .put ⟨c,reg,labels,newDomain cfg labels c.acquirer⟩ := by
    rw [startMove]
    cases hlabels : splitPodCanonical c.host cfg.apex with
    | none => exact Or.inl ⟨rfl,rfl⟩
    | some labels => exact Or.inr ⟨labels,rfl,if_neg (hrenamed labels hlabels)⟩
  have hput : ∀ {m},.put m ∈ w.requests.set i (startMove cfg c reg) →
      .put m ∈ w.requests ∧ m.claim.host ≠ c.host ∨
      m.claim = c ∧ m.reg = reg ∧ ∃ labels,splitPodCanonical c.host cfg.apex = some labels := by
    intro m hm
    rcases List.mem_or_eq_of_mem_set hm with hm | heq
    · refine Or.inl ⟨hm,?_⟩
      intro hhost
      exact hfree (mem_movingHosts.mpr ⟨_,hm,m,rfl,hhost⟩)
    · rcases hmove with ⟨hstays,_⟩ | ⟨labels,hlabels,hstart⟩
      · rw [← heq] at hstays
        cases hstays
      · rw [hstart] at heq
        cases heq
        exact Or.inr ⟨rfl,rfl,labels,hlabels⟩
  have hplace : ∀ {d key},Place ⟨w.shared.after ticks t' [.recorded c offer reg],
      w.requests.set i (startMove cfg c reg)⟩ d key → Place w d key := by
    rintro d key (hl | ⟨m,hm,hhost,hkey⟩)
    · simp only [Shared.after,ht] at hl
      exact Or.inl hl
    · rcases hput hm with ⟨hm,_⟩ | ⟨hclaim,hreg',_⟩
      · exact Or.inr ⟨m,hm,hhost,hkey⟩
      · rw [hclaim] at hhost
        rw [hreg'] at hkey
        exact Or.inl ⟨reg,hhost ▸ hreg,hlive,hkey⟩
  refine ⟨?_,?_,?_,?_,?_⟩
  · refine hperm.symm.nodup ?_
    rcases hmove with ⟨hstays,_⟩ | ⟨labels,_,hstart⟩
    · rw [hstays]
      exact hw.hosts
    · rw [hstart]
      exact List.nodup_cons.mpr ⟨hfree,hw.hosts⟩
  · intro key d d' hd hd' hstays hstays'
    exact hw.single key d d' (hplace hd) (hplace hd')
      (fun h => hstays (leaving_set hi hnone _ h)) (fun h => hstays' (leaving_set hi hnone _ h))
  · intro host acquirer key labels hlabels hl hgiven
    refine hperm.symm.subset ?_
    simp only [Shared.after,ht] at hl hgiven
    rcases givenAway_recorded hgiven with hgiven | ⟨rfl,_,_⟩
    · exact List.mem_append_right _ (hw.given host acquirer key labels hlabels hl hgiven)
    · rcases hmove with ⟨_,hnolabels⟩ | ⟨_,_,hstart⟩
      · rw [hnolabels] at hlabels
        cases hlabels
      · rw [hstart]
        exact List.mem_append_left _ (List.mem_singleton_self _)
  · intro m hm acquirer hgiven
    simp only [Shared.after] at hgiven
    rcases hput hm with ⟨hm,hother⟩ | ⟨hclaim,hreg',labels,hlabels⟩
    · rcases givenAway_recorded hgiven with hgiven | ⟨hhost,_,_⟩
      · exact hw.takes m hm acquirer hgiven
      · exact absurd hhost.symm hother
    · rw [hclaim,hreg'] at hgiven
      rcases givenAway_recorded hgiven with hgiven | ⟨_,hacquirer,_⟩
      · exact absurd hgiven (hnew labels acquirer hlabels)
      · rw [hclaim,hacquirer]
  · exact hw.each.append trivial

theorem live_put {dir : Directory} {m : Moving} {domain key : Text} :
    (m.put dir).Live domain key ↔
      domain = m.newDomain ∧ key = boxKey m.reg ∨ domain ≠ m.newDomain ∧ dir.Live domain key := by
  by_cases hd : domain = m.newDomain
  · subst hd
    constructor
    · rintro ⟨r,hr,_,hkey⟩
      simp only [Moving.put,Directory.put,Function.update_self,Option.some.injEq] at hr
      rw [← hkey,← hr]
      exact Or.inl ⟨rfl,rfl⟩
    · rintro (⟨_,rfl⟩ | ⟨hne,_⟩)
      · exact ⟨_,Function.update_self ..,rfl,rfl⟩
      · exact absurd rfl hne
  · constructor
    · rintro ⟨r,hr,hlive,hkey⟩
      exact Or.inr ⟨hd,r,(Function.update_of_ne hd _ _).symm.trans hr,hlive,hkey⟩
    · rintro (⟨heq,_⟩ | ⟨_,r,hr,hlive,hkey⟩)
      · exact absurd heq hd
      · exact ⟨r,(Function.update_of_ne hd _ _).trans hr,hlive,hkey⟩

theorem live_revoke {dir : Directory} {host : Text} {reason : String} {time : Int}
    {domain key : Text} (h : (dir.revoke host reason time).Live domain key) :
    domain ≠ host ∧ dir.Live domain key := by
  obtain ⟨r,hr,hlive,hkey⟩ := h
  by_cases hd : domain = host
  · subst hd
    rw [Directory.revoke,Function.update_self] at hr
    obtain ⟨r',_,rfl⟩ := Option.map_eq_some_iff.mp hr
    cases hlive
  · exact ⟨hd,r,(Function.update_of_ne hd _ _).symm.trans hr,hlive,hkey⟩

/-- The box is put under its new name: the old one is now the one to leave. -/
theorem MovedWhole.moved (hw : MovedWhole cfg w) {m : Moving}
    (hi : w.requests[i]? = some (.put m)) (ticks : List Nat) (time : Int) {t' : TransferTables}
    (ht : t'.servers = m.put w.shared.tables.servers) :
    MovedWhole cfg ⟨w.shared.after ticks t' [.moved m],w.requests.set i (.revoke m time)⟩ := by
  have hmem := List.mem_of_getElem? hi
  have hperm := movingHosts_set hi (.revoke m time) (w.shared.after ticks t' [.moved m])
  have hsame : (movingHosts ⟨w.shared.after ticks t' [.moved m],
      w.requests.set i (.revoke m time)⟩).Perm (movingHosts w) :=
    (List.perm_append_left_iff _).mp hperm
  have hput : ∀ {m'},.put m' ∈ w.requests.set i (.revoke m time) → .put m' ∈ w.requests := by
    intro m' hm'
    rcases List.mem_or_eq_of_mem_set hm' with hm' | heq
    · exact hm'
    · cases heq
  have hleaving : ∀ {d},Leaving w d →
      Leaving ⟨w.shared.after ticks t' [.moved m],w.requests.set i (.revoke m time)⟩ d := by
    rintro d ⟨m',time',hm',hhost⟩
    exact ⟨m',time',mem_set_of_ne hi hm' (by rintro ⟨⟩) _,hhost⟩
  have hleaves : Leaving ⟨w.shared.after ticks t' [.moved m],
      w.requests.set i (.revoke m time)⟩ m.claim.host :=
    ⟨m,time,self_mem_set hi _,rfl⟩
  have hplace : ∀ {d key},Place ⟨w.shared.after ticks t' [.moved m],
      w.requests.set i (.revoke m time)⟩ d key →
        d = m.newDomain ∧ key = boxKey m.reg ∨ Place w d key := by
    rintro d key (hl | ⟨m',hm',hhost,hkey⟩)
    · simp only [Shared.after,ht] at hl
      rcases live_put.mp hl with hnew | ⟨_,hl⟩
      · exact Or.inl hnew
      · exact Or.inr (Or.inl hl)
    · exact Or.inr (Or.inr ⟨m',hput hm',hhost,hkey⟩)
  -- The box stood at the old name, which no other request is about to revoke.
  have hstood : Place w m.claim.host (boxKey m.reg) := Or.inr ⟨m,hmem,rfl,rfl⟩
  have hheld : ¬ Leaving w m.claim.host := by
    rintro ⟨m',time',hm',hhost⟩
    have hstill : m.claim.host ∈ movingHosts ⟨w.shared,w.requests.set i (.answered none
        (.offered 0))⟩ :=
      mem_movingHosts.mpr ⟨_,mem_set_of_ne hi hm' (by rintro ⟨⟩) _,m',rfl,hhost⟩
    have honce := (movingHosts_set hi (.answered none (.offered 0)) w.shared).symm.nodup
      hw.hosts
    exact (List.nodup_cons.mp honce).1 hstill
  have hkey : ∀ {d key},Place ⟨w.shared.after ticks t' [.moved m],
      w.requests.set i (.revoke m time)⟩ d key →
        ¬ Leaving ⟨w.shared.after ticks t' [.moved m],w.requests.set i (.revoke m time)⟩ d →
        d = m.newDomain ∧ key = boxKey m.reg ∨ key ≠ boxKey m.reg ∧ Place w d key := by
    intro d key hd hstays
    rcases hplace hd with hnew | hd'
    · exact Or.inl hnew
    · by_cases hk : key = boxKey m.reg
      · subst hk
        have heq := hw.single _ d m.claim.host hd' hstood (fun h => hstays (hleaving h)) hheld
        subst heq
        exact absurd hleaves hstays
      · exact Or.inr ⟨hk,hd'⟩
  refine ⟨hsame.symm.nodup hw.hosts,?_,?_,?_,?_⟩
  · intro key d d' hd hd' hstays hstays'
    rcases hkey hd hstays with ⟨rfl,hk⟩ | ⟨hk,hold⟩
    · rcases hkey hd' hstays' with ⟨rfl,_⟩ | ⟨hk',_⟩
      · rfl
      · exact absurd hk hk'
    · rcases hkey hd' hstays' with ⟨_,hk'⟩ | ⟨_,hold'⟩
      · exact absurd hk' hk
      · exact hw.single key d d' hold hold' (fun h => hstays (hleaving h))
          (fun h => hstays' (hleaving h))
  · intro host acquirer key labels hlabels hl hgiven
    simp only [Shared.after,ht] at hl hgiven
    obtain ⟨hgiven,hback⟩ := givenAway_moved hgiven
    rcases live_put.mp hl with ⟨rfl,rfl⟩ | ⟨_,hl⟩
    · exact absurd rfl (hback rfl)
    · exact hsame.symm.subset (hw.given host acquirer key labels hlabels hl hgiven)
  · intro m' hm' acquirer hgiven
    simp only [Shared.after] at hgiven
    exact hw.takes m' (hput hm') acquirer (givenAway_moved hgiven).1
  · exact hw.each.append (hw.takes m hmem)

/-- The old name is revoked, and the box has one name again. -/
theorem MovedWhole.revoked (hw : MovedWhole cfg w) {m : Moving} {time : Int}
    (hi : w.requests[i]? = some (.revoke m time)) (ticks : List Nat) {t' : TransferTables}
    {reason : String} (ht : t'.servers = w.shared.tables.servers.revoke m.claim.host reason time) :
    MovedWhole cfg ⟨w.shared.after ticks t' [],w.requests.set i (.routing m false)⟩ := by
  have hperm := movingHosts_set hi (.routing m false) (w.shared.after ticks t' [])
  have hnodup : (m.claim.host :: movingHosts ⟨w.shared.after ticks t' [],
      w.requests.set i (.routing m false)⟩).Nodup := hperm.symm.nodup hw.hosts
  have hput : ∀ {m'},.put m' ∈ w.requests.set i (.routing m false) →
      .put m' ∈ w.requests ∧ m'.claim.host ≠ m.claim.host := by
    intro m' hm'
    refine ⟨put_mem_set rfl hm',?_⟩
    intro hhost
    exact (List.nodup_cons.mp hnodup).1 (mem_movingHosts.mpr ⟨_,hm',m',rfl,hhost⟩)
  have hplace : ∀ {d key},Place ⟨w.shared.after ticks t' [],
      w.requests.set i (.routing m false)⟩ d key → d ≠ m.claim.host ∧ Place w d key := by
    rintro d key (hl | ⟨m',hm',hhost,hkey⟩)
    · simp only [Shared.after,ht] at hl
      exact ⟨(live_revoke hl).1,Or.inl (live_revoke hl).2⟩
    · exact ⟨hhost ▸ (hput hm').2,Or.inr ⟨m',(hput hm').1,hhost,hkey⟩⟩
  have hleaving : ∀ {d},d ≠ m.claim.host → Leaving w d → Leaving ⟨w.shared.after ticks t' [],
      w.requests.set i (.routing m false)⟩ d := by
    rintro d hd ⟨m',time',hm',hhost⟩
    refine ⟨m',time',mem_set_of_ne hi hm' ?_ _,hhost⟩
    rintro ⟨⟩
    exact hd hhost.symm
  refine ⟨(List.nodup_cons.mp hnodup).2,?_,?_,?_,?_⟩
  · intro key d d' hd hd' hstays hstays'
    obtain ⟨hne,hold⟩ := hplace hd
    obtain ⟨hne',hold'⟩ := hplace hd'
    exact hw.single key d d' hold hold' (fun h => hstays (hleaving hne h))
      (fun h => hstays' (hleaving hne' h))
  · intro host acquirer key labels hlabels hl hgiven
    simp only [Shared.after,ht,List.append_nil] at hl hgiven
    obtain ⟨hne,hl⟩ := live_revoke hl
    have hmoving := hperm.symm.subset (hw.given host acquirer key labels hlabels hl hgiven)
    exact (List.mem_cons.mp hmoving).resolve_left hne
  · intro m' hm' acquirer hgiven
    simp only [Shared.after,List.append_nil] at hgiven
    exact hw.takes m' (hput hm').1 acquirer hgiven
  · simp only [Shared.after,List.append_nil]
    exact hw.each

theorem MovedWhole.received (hw : MovedWhole cfg w) {p : TransferProgress} (hp : p.moving = none)
    (ticks : List Nat) : MovedWhole cfg ⟨w.shared.later ticks,w.requests ++ [p]⟩ := by
  have hhosts : movingHosts ⟨w.shared.later ticks,w.requests ++ [p]⟩ = movingHosts w := by
    rw [movingHosts,List.filterMap_append,List.filterMap_cons,hp,List.filterMap_nil,
      List.append_nil,movingHosts]
  have hput : ∀ {m},.put m ∈ w.requests ++ [p] → .put m ∈ w.requests := by
    intro m hm
    rcases List.mem_append.mp hm with hm | hm
    · exact hm
    · rw [← List.mem_singleton.mp hm] at hp
      cases hp
  have hplace : ∀ {d key},Place ⟨w.shared.later ticks,w.requests ++ [p]⟩ d key →
      Place w d key := by
    rintro d key (hl | ⟨m,hm,hhost,hkey⟩)
    · exact Or.inl hl
    · exact Or.inr ⟨m,hput hm,hhost,hkey⟩
  have hleaving : ∀ {d},Leaving w d → Leaving ⟨w.shared.later ticks,w.requests ++ [p]⟩ d := by
    rintro d ⟨m,time,hm,hhost⟩
    exact ⟨m,time,List.mem_append_left _ hm,hhost⟩
  refine ⟨hhosts ▸ hw.hosts,?_,?_,fun m hm => hw.takes m (hput hm),hw.each⟩
  · intro key d d' hd hd' hstays hstays'
    exact hw.single key d d' (hplace hd) (hplace hd') (fun h => hstays (hleaving h))
      (fun h => hstays' (hleaving h))
  · intro host acquirer key labels hlabels hl hgiven
    rw [hhosts]
    exact hw.given host acquirer key labels hlabels hl hgiven

/-- A claim that is recorded meets what the move requires of it. -/
theorem movesWhole_recorded {c : Claim} {reg : ServerRecord} {irk : Text} {time : Int}
    (hi : w.requests[i]? = some (.claimWrite c reg irk time)) {ticks : List Nat}
    {outside : TransferElsewhere} (hgoes : outside.outcome = .goes) {offer : ServerTransferRecord}
    (hoffer : w.shared.tables.transfers c.host = some offer) (hunclaimed : offer.claimedAt = none)
    (hc : movesWhole cfg w (.resume i ticks outside) = true) :
    w.shared.tables.servers c.host = some reg ∧ reg.revokedAt = none ∧ c.host ∉ movingHosts w ∧
      ∀ labels,splitPodCanonical c.host cfg.apex = some labels →
        newDomain cfg labels c.acquirer ≠ c.host := by
  have hgoes' : (Outcome.goes != .goes) = false := rfl
  simp only [movesWhole,hi,hgoes,hgoes',hoffer,Option.any_some,hunclaimed,Option.isNone_none,
    Bool.not_true,Bool.false_or,Bool.and_eq_true,beq_iff_eq,Option.isNone_iff_eq_none,
    List.all_eq_true] at hc
  obtain ⟨⟨⟨hreg,hlive⟩,hfree⟩,hrenamed⟩ := hc
  refine ⟨hreg,hlive,?_,?_⟩
  · intro hmem
    obtain ⟨p,hp,m,hm,hhost⟩ := mem_movingHosts.mp hmem
    have hother := hfree p hp
    rw [hm,Option.all_some,bne_iff_ne] at hother
    exact hother hhost
  · intro labels hlabels
    rw [hlabels,Option.all_some,bne_iff_ne] at hrenamed
    exact hrenamed

theorem movesWhole_goes {m : Moving} (hi : w.requests[i]? = some p) (hp : p.moving = some m)
    {ticks : List Nat} {outside : TransferElsewhere}
    (hc : movesWhole cfg w (.resume i ticks outside) = true) : outside.outcome = .goes := by
  cases p with
  | put m' => simpa [movesWhole,hi] using hc
  | revoke m' time => simpa [movesWhole,hi] using hc
  | _ => cases hp

theorem MovedWhole.step (hw : MovedWhole cfg w) (move : Move TransferRequest TransferElsewhere)
    (hc : movesWhole cfg w move = true) : MovedWhole cfg ((transferHandlers cfg).step w move) := by
  refine (transferHandlers cfg).step_rule (K := MovedWhole cfg) w move ?_ hw ?_
  · intro request ticks outside _
    exact hw.received (accept_plain cfg _ outside request).1 ticks
  · rintro i ticks outside p p' t' events rfl hi hadv
    have heffect := advance_effect hadv
    generalize htables : w.shared.tables = t at heffect
    cases heffect with
    | reads t hp hp' hrecorded => exact hw.ordinary hi hp hp' ticks (by rw [htables])
    | offers host rec t hgoes => exact hw.ordinary hi rfl rfl ticks (by rw [htables])
    | collects c t => exact hw.ordinary hi rfl rfl ticks (by rw [htables])
    | records c reg irk time offer t hgoes hoffer hunclaimed =>
      rw [← htables] at hoffer
      obtain ⟨hreg,hlive,hfree,hrenamed⟩ := movesWhole_recorded hi hgoes hoffer hunclaimed hc
      exact hw.recorded hi ticks (by rw [htables]) offer hreg hlive hfree hrenamed
    | moves m t hgoes => exact hw.moved hi ticks _ (by rw [htables])
    | revokes m time t hgoes => exact hw.revoked hi ticks (by rw [htables])
    | breaks t hp hbroken hp' hrecorded => exact absurd (movesWhole_goes hi hp hc) hbroken
    | registers m old time error t hgoes => exact hw.ordinary hi rfl rfl ticks (by rw [htables])
    | releases m error t hgoes => exact hw.ordinary hi rfl rfl ticks (by rw [htables])

theorem movedWhole_idle {t : TransferTables} (hone : OneRow t.servers) (clock : Int) :
    MovedWhole cfg (TransferState.idle t clock) := by
  refine ⟨List.nodup_nil,?_,?_,?_,each_nil _⟩
  · rintro key d d' (hd | ⟨_,hm,_⟩) (hd' | ⟨_,hm',_⟩) _ _
    · exact hone d d' key hd hd'
    · cases hm'
    · cases hm
    · cases hm
  · rintro host acquirer key labels _ _ ⟨before,_,_,_,_,heq,_⟩
    exact absurd heq (by simp [TransferState.idle])
  · intro m hm
    cases hm

variable (cfg)

/-- In every run in which no move is left half done, a directory that starts with
one unrevoked row for each box has, whenever no request is in progress, no box
under two accounts; and no box that one account has claimed under a name is put
under another account's name from there. -/
theorem transferred_box_has_one_account (t : TransferTables) (hone : OneRow t.servers)
    (clock : Int) (moves : List (Move TransferRequest TransferElsewhere))
    (h : Along (transferHandlers cfg).step (fun w move => movesWhole cfg w move = true)
      (TransferState.idle t clock) moves) :
    (transfersQuiet (run (transferHandlers cfg).step (TransferState.idle t clock) moves) = true →
      OneAccount (run (transferHandlers cfg).step
        (TransferState.idle t clock) moves).shared.tables.servers) ∧
    Each NotAcquiredTwice (run (transferHandlers cfg).step
      (TransferState.idle t clock) moves).shared.history := by
  have hw : MovedWhole cfg (run (transferHandlers cfg).step (TransferState.idle t clock) moves) :=
    Along.invariant (fun w move hw hc => hw.step move hc) (movedWhole_idle hone clock) h
  refine ⟨?_,hw.each⟩
  intro hquiet d d' r r' hr hr' hlive hlive' hkey
  have hstays : ∀ d,¬ Leaving (run (transferHandlers cfg).step
      (TransferState.idle t clock) moves) d := by
    rintro d ⟨m,time,hm,_⟩
    have hdone := List.all_eq_true.mp hquiet _ hm
    cases hdone
  have heq := hw.single (boxKey r) d d' (Or.inl ⟨r,hr,hlive,rfl⟩)
    (Or.inl ⟨r',hr',hlive',hkey.symm⟩) (hstays d) (hstays d')
  subst heq
  rw [hr,Option.some.injEq] at hr'
  rw [hr']

end

theorem oneRow_alicesBox : @OneRow asciiLowercase alicesBox.servers := by
  have hname : ∀ d key,@Directory.Live asciiLowercase alicesBox.servers d key →
      d = domainOf "alice" := by
    rintro d key ⟨r,hr,_⟩
    by_contra hd
    simp only [alicesBox,Function.update_of_ne hd] at hr
    cases hr
  intro d d' key hd hd'
  rw [hname d key hd,hname d' key hd']

/-- Alice offers her box and bob takes it. -/
theorem transferred_box_has_one_account_bob :
    @OneAccount asciiLowercase (run (@transferHandlers asciiLowercase defaultTransferConfig).step
      (TransferState.idle alicesBox 0) offeredAndClaimed).shared.tables.servers := by
  have halong : Along (@transferHandlers asciiLowercase defaultTransferConfig).step
      (fun w move => @movesWhole asciiLowercase defaultTransferConfig w move = true)
      (TransferState.idle alicesBox 0) offeredAndClaimed := by
    decide +kernel
  have hquiet : transfersQuiet (run (@transferHandlers asciiLowercase defaultTransferConfig).step
      (TransferState.idle alicesBox 0) offeredAndClaimed) = true := by
    decide +kernel
  exact (@transferred_box_has_one_account asciiLowercase defaultTransferConfig alicesBox
    oneRow_alicesBox 0 offeredAndClaimed halong).1 hquiet

/-- Bob's claim goes through up to the revocation of the old name, which fails. -/
def revocationFails : TransferState :=
  run (@transferHandlers asciiLowercase defaultTransferConfig).step
    (TransferState.idle alicesBox 0)
    (.receive (offers '4') [] (goesFor 'a') :: callsOf 0 4 'a' ++
      .receive (claims "bob" 'b' '4') [] (goesFor 'b') :: callsOf 1 6 'b' ++
      .resume 1 [] ⟨.fails,none,false⟩ :: callsOf 1 1 'b')

/-- Bob is told he has the box, and alice has it still. -/
theorem half_moved_box_has_two_accounts :
    transfersQuiet revocationFails = true ∧
      revocationFails.requests.countP
        (TransferProgress.accepted (domainOf "alice") (hexText 64 '4')) = 1 ∧
      ¬ @OneAccount asciiLowercase revocationFails.shared.tables.servers := by
  refine ⟨by decide +kernel,by decide +kernel,?_⟩
  intro hone
  have hold : revocationFails.shared.tables.servers (domainOf "alice") =
      some ⟨"alice".toList,hexText 64 'e',1,none,none⟩ := by
    decide +kernel
  have hnew : revocationFails.shared.tables.servers (domainOf "bob") =
      some ⟨"bob".toList,hexText 64 'e',1,none,none⟩ := by
    decide +kernel
  have hsame := hone _ _ _ _ hold hnew rfl rfl rfl
  exact absurd hsame (by decide +kernel)

end Flagship.Control.Proofs

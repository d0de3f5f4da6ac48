import Flagship.Authority.LeaderLease
import Flagship.Lib.Lists

namespace Flagship.Authority.Election
open Lib

/-- A state in which the candidate holds the lease, until this moment at least. -/
def Holds (s : VoterState) (c : Text) (u : Int) : Prop := s.holder = some c ∧ u ≤ s.leaseUntil

/-- The lease of a state ends no later than one that is granted now. -/
def Bounded (g : Membership) (time : Int) (m : Text) (s : VoterState) : Prop :=
  ∀ c,s.holder = some c → s.leaseUntil ≤ time + min (g.leaseMs c) (g.maxLeaseMs m)

/-- A lease in the memory of a voter, in its file, and in what is written over that. -/
structure Firm (v : Voter) (c : Text) (u : Int) : Prop where
  state : Holds v.voter.state c u
  body : ∀ s,v.body = some s → Holds s c u
  file : ∃ s,v.file = .saved s ∧ Holds s c u

/-- A lease that ended, that a voter is silent for since it lost it, or that it knows of. -/
def Stands (lost : Option Text) (time : Int) (v : Voter) (c : Text) (u : Int) : Prop :=
  u ≤ time ∨ (u ≤ v.voter.silentUntil ∧ lost = some c) ∨ Firm v c u

/-- The campaign with this number still waits. -/
def Live (candidates : Text → LeaderCandidate) (c : Text) (k : Nat) : Prop :=
  ∃ p ∈ (candidates c).campaigns,p.call = k

structure Sane (g : Membership) (time : Int) (m : Text) (v : Voter) : Prop where
  state : Bounded g time m v.voter.state
  body : ∀ s,v.body = some s → Bounded g time m s
  file : ∀ s,v.file = .saved s → Bounded g time m s
  silent : time < v.voter.silentUntil → v.voter.state.holder = none
  idle : v.writes = [] → v.body = none

/-- The grants that wait for their write, of campaigns that still wait for them. -/
structure Waiting (g : Membership) (time : Int) (candidates : Text → LeaderCandidate) (m : Text)
    (v : Voter) : Prop where
  place : ∀ c k slot u,.grant c k slot u ∈ v.writes →
    g.members[slot]? = some m ∧ k < (candidates c).calls ∧ u ≤ time + g.maxLeaseMs m
  holds : ∀ c k slot u,.grant c k slot u ∈ v.writes → Live candidates c k →
    u ≤ time ∨ Holds v.voter.state c u
  begun : ∀ c k slot u rest s,v.writes = .grant c k slot u :: rest → v.body = some s →
    Live candidates c k → u ≤ time ∨ Holds s c u

/-- A lease that a candidate was told of by a member. -/
inductive Told (g : Membership) (w : Election) (m c : Text) (u : Int) : Prop
  | reply (r : LeaseReply) (hr : r ∈ w.replies) (hc : r.candidate = c) (hl : Live w.candidates c r.call)
    (hu : r.result = .granted u) (hm : g.members[r.slot]? = some m)
  | answer (p : Campaign) (slot : Nat) (hp : p ∈ (w.candidates c).campaigns)
    (hu : p.answers slot = some (.granted u)) (hm : g.members[slot]? = some m)

def Pledged (g : Membership) (lost : Text → Option Text) (w : Election) (m c : Text) (u : Int) :
    Prop :=
  u ≤ w.time + g.maxLeaseMs m ∧ Stands (lost m) w.time (w.voters m) c u

/-- Where a majority of the members stands by a lease until a moment. -/
def Quorum (g : Membership) (lost : Text → Option Text) (w : Election) (c : Text) (a : Int) : Prop :=
  ∃ q : Nat → Bool,LeaderCandidate.majority g.members ≤
      ((List.range g.members.length).filter q).length ∧
    ∀ slot m,q slot = true → g.members[slot]? = some m → Pledged g lost w m c a

/-- What holds in every moment, with who held the lease that a silent voter lost. -/
structure Safe (g : Membership) (lost : Text → Option Text) (w : Election) : Prop where
  time : 0 ≤ w.time
  sane : ∀ m,Sane g w.time m (w.voters m)
  waiting : ∀ m,Waiting g w.time w.candidates m (w.voters m)
  requests : ∀ r ∈ w.requests,r.call < (w.candidates r.candidate).calls
  replies : ∀ r ∈ w.replies,r.call < (w.candidates r.candidate).calls
  campaigns : ∀ c,∀ p ∈ (w.candidates c).campaigns,p.call < (w.candidates c).calls
  told : ∀ m c u,Told g w m c u → Pledged g lost w m c u
  acting : ∀ c a,(w.candidates c).acts = some a → Quorum g lost w c a
  quiet : ∀ r ∈ w.releases,(w.candidates r.holder).acts = none ∧
    (w.candidates r.holder).campaigns = []

theorem Holds.mono {s : VoterState} {c : Text} {u u' : Int} (h : Holds s c u) (hu : u' ≤ u) :
    Holds s c u' := ⟨h.1,Int.le_trans hu h.2⟩

theorem Firm.mono {v : Voter} {c : Text} {u u' : Int} (h : Firm v c u) (hu : u' ≤ u) :
    Firm v c u' where
  state := h.state.mono hu
  body s hs := (h.body s hs).mono hu
  file := by
    obtain ⟨s,hs,hh⟩ := h.file
    exact ⟨s,hs,hh.mono hu⟩

theorem Stands.mono {lost : Option Text} {time : Int} {v : Voter} {c : Text} {u u' : Int}
    (h : Stands lost time v c u) (hu : u' ≤ u) : Stands lost time v c u' := by
  rcases h with h | ⟨h,hl⟩ | h
  · exact .inl (Int.le_trans hu h)
  · exact .inr (.inl ⟨Int.le_trans hu h,hl⟩)
  · exact .inr (.inr (h.mono hu))

theorem Waiting.nobody {g : Membership} {time : Int} {candidates : Text → LeaderCandidate} {m : Text}
    {v : Voter} (h : v.writes = []) : Waiting g time candidates m v := by
  refine ⟨?_,?_,?_⟩ <;> simp [h]

/-- Two candidates do not hold a lease of one voter at once. -/
theorem Stands.unique {lost : Option Text} {g : Membership} {time : Int} {m : Text} {v : Voter}
    {c d : Text} {u u' : Int} (hs : Sane g time m v) (hc : Stands lost time v c u)
    (hd : Stands lost time v d u') (hu : time < u) (hu' : time < u') : c = d := by
  have hquiet : ∀ {e : Text} {x : Int},time < x → x ≤ v.voter.silentUntil →
      ¬ v.voter.state.holder = some e := by
    intro e x hx hle he
    rw [hs.silent (Int.lt_of_lt_of_le hx hle)] at he
    cases he
  rcases hc with hc | ⟨hc,hlc⟩ | hc
  · omega
  · rcases hd with hd | ⟨_,hld⟩ | hd
    · omega
    · exact Option.some.inj (hlc.symm.trans hld)
    · exact absurd hd.state.1 (hquiet hu hc)
  · rcases hd with hd | ⟨hd,_⟩ | hd
    · omega
    · exact absurd hc.state.1 (hquiet hu' hd)
    · exact Option.some.inj (hc.state.1.symm.trans hd.state.1)

/-- In a safe state two candidates do not act at once. -/
theorem Safe.unique {g : Membership} {lost : Text → Option Text} {w : Election}
    (h : Safe g lost w) {c d : Text} {a b : Int} (hc : (w.candidates c).acts = some a)
    (hd : (w.candidates d).acts = some b) (ha : w.time < a) (hb : w.time < b) : c = d := by
  obtain ⟨p,hp,hpc⟩ := h.acting c a hc
  obtain ⟨q,hq,hqd⟩ := h.acting d b hd
  obtain ⟨slot,hslot,hps,hqs⟩ := majorities_meet hp hq
  have hm := List.getElem?_eq_getElem hslot
  exact Stands.unique (h.sane _) (hpc slot _ hps hm).2 (hqd slot _ hqs hm).2 ha hb

/-- What a voter does with a request. -/
theorem grant_cases {v v' : LeaseVoter} {most : Int} {now : Option Int} {c : Text} {term : Nat}
    {leaseMs : Int} {result : GrantResult} (h : v.grant most now c term leaseMs = (result,v')) :
    (∃ reason,result = .refused reason) ∨
    ∃ t,now = some t ∧ v.silentUntil ≤ t ∧ v.others c t = false ∧
      result = .granted (t + min leaseMs most) ∧
      v' = { v with state := ⟨max term v.state.highestTerm,some c,t + min leaseMs most⟩ } := by
  unfold LeaseVoter.grant at h
  cases now with
  | none => exact .inl ⟨_,(congrArg Prod.fst h).symm⟩
  | some t =>
    simp only at h
    split at h
    · exact .inl ⟨_,(congrArg Prod.fst h).symm⟩
    next hsilent =>
      split at h
      · exact .inl ⟨_,(congrArg Prod.fst h).symm⟩
      · split at h
        · exact .inl ⟨_,(congrArg Prod.fst h).symm⟩
        · split at h
          · exact .inl ⟨_,(congrArg Prod.fst h).symm⟩
          next hothers =>
            refine .inr ⟨t,rfl,Int.not_lt.mp hsilent,by simpa using hothers,?_,?_⟩
            · exact (congrArg Prod.fst h).symm
            · exact (congrArg Prod.snd h).symm

/-- A lease that is granted takes nothing from one that still runs. -/
theorem Holds.granted {g : Membership} {m : Text} {v : LeaseVoter} {t : Int} {c d : Text} {u : Int}
    {state : VoterState} (hb : Bounded g t m v.state) (ho : v.others c t = false)
    (hc : state.holder = some c)
    (huntil : state.leaseUntil = t + min (g.leaseMs c) (g.maxLeaseMs m))
    (h : Holds v.state d u) : u ≤ t ∨ Holds state d u := by
  obtain ⟨hholder,hu⟩ := h
  by_cases hcd : d = c
  · subst hcd
    exact .inr ⟨hc,Int.le_trans hu (huntil ▸ hb d hholder)⟩
  · refine .inl (Int.le_trans hu (Int.not_lt.mp fun hlt => ?_))
    simp [LeaseVoter.others,hholder,hcd,hlt] at ho

/-- The candidate acts, or waits for a campaign to end. -/
def Engaged (c : LeaderCandidate) : Prop := c.acts ≠ none ∨ c.campaigns ≠ []

section
variable {g : Membership} {lost : Text → Option Text} {w w' : Election}

theorem Safe.told_engaged {m c : Text} {u : Int} (h : Told g w m c u) :
    Engaged (w.candidates c) := by
  cases h with
  | reply r hr hc hl hu hm =>
    obtain ⟨p,hp,_⟩ := hl
    exact .inr (List.ne_nil_of_mem hp)
  | answer p slot hp hu hm => exact .inr (List.ne_nil_of_mem hp)

theorem Told.of {m c : Text} {u : Int} (h : Told g w' m c u) (hcand : w'.candidates = w.candidates)
    (hrep : ∀ r ∈ w'.replies,r ∈ w.replies) : Told g w m c u := by
  cases h with
  | reply r hr hc hl hu hm => exact .reply r (hrep r hr) hc (hcand ▸ hl) hu hm
  | answer p slot hp hu hm => exact .answer p slot (hcand ▸ hp) hu hm

/-- One voter moves; it stands by what it stood by for the candidates that are engaged. -/
theorem Safe.voter (h : Safe g lost w) {m : Text} {v : Voter} (who : Option Text)
    (hvoters : w'.voters = Function.update w.voters m v) (htime : w'.time = w.time)
    (hcand : w'.candidates = w.candidates) (hreq : ∀ r ∈ w'.requests,r ∈ w.requests)
    (hrel : ∀ r ∈ w'.releases,r ∈ w.releases)
    (hrep : ∀ r ∈ w'.replies,r ∈ w.replies ∨ (r.call < (w.candidates r.candidate).calls ∧
      ∀ u,r.result = .granted u → Live w.candidates r.candidate r.call →
        g.members[r.slot]? = some m ∧ u ≤ w.time + g.maxLeaseMs m ∧
          Stands who w.time v r.candidate u))
    (hsane : Sane g w.time m v) (hwait : Waiting g w.time w.candidates m v)
    (hstands : ∀ c u,Engaged (w.candidates c) → u ≤ w.time + g.maxLeaseMs m →
      Stands (lost m) w.time (w.voters m) c u → Stands who w.time v c u) :
    Safe g (Function.update lost m who) w' := by
  have hpledged : ∀ m' c u,Engaged (w.candidates c) → Pledged g lost w m' c u →
      Pledged g (Function.update lost m who) w' m' c u := by
    intro m' c u hc hp
    unfold Pledged at hp ⊢
    rw [htime,hvoters]
    by_cases hm : m' = m
    · subst hm
      rw [Function.update_self,Function.update_self]
      exact ⟨hp.1,hstands c u hc hp.1 hp.2⟩
    · rwa [Function.update_of_ne hm,Function.update_of_ne hm]
  refine ⟨htime ▸ h.time,?_,?_,?_,?_,?_,?_,?_,?_⟩
  · rw [htime,hvoters]
    exact (Function.forall_update_iff w.voters (Sane g w.time)).mpr ⟨hsane,fun m' _ => h.sane m'⟩
  · rw [htime,hvoters,hcand]
    exact (Function.forall_update_iff w.voters (Waiting g w.time w.candidates)).mpr
      ⟨hwait,fun m' _ => h.waiting m'⟩
  · rw [hcand]
    exact fun r hr => h.requests r (hreq r hr)
  · rw [hcand]
    intro r hr
    rcases hrep r hr with hr | hr
    · exact h.replies r hr
    · exact hr.1
  · rw [hcand]
    exact h.campaigns
  · intro m' c u ht
    have hold : Told g w m' c u → Pledged g (Function.update lost m who) w' m' c u := fun ht =>
      hpledged m' c u (told_engaged ht) (h.told m' c u ht)
    cases ht with
    | answer p slot hp hu hm => exact hold (.answer p slot (hcand ▸ hp) hu hm)
    | reply r hr hc hl hu hm =>
      rw [hcand] at hl
      rcases hrep r hr with hr | ⟨_,hnew⟩
      · exact hold (.reply r hr hc hl hu hm)
      · subst hc
        obtain ⟨hplace,hle,hst⟩ := hnew u hu hl
        obtain rfl := Option.some.inj (hplace.symm.trans hm)
        unfold Pledged
        rw [htime,hvoters,Function.update_self,Function.update_self]
        exact ⟨hle,hst⟩
  · intro c a ha
    rw [hcand] at ha
    obtain ⟨q,hq,hall⟩ := h.acting c a ha
    have hc : Engaged (w.candidates c) := .inl (by rw [ha]; exact Option.some_ne_none a)
    exact ⟨q,hq,fun slot m' hs hm => hpledged m' c a hc (hall slot m' hs hm)⟩
  · rw [hcand]
    exact fun r hr => h.quiet r (hrel r hr)

/-- Messages are taken or lost. -/
theorem Safe.fewer (h : Safe g lost w) {requests : List LeaseRequest} {releases : List ReleaseMessage}
    (hreq : ∀ r ∈ requests,r ∈ w.requests) (hrel : ∀ r ∈ releases,r ∈ w.releases) :
    Safe g lost { w with requests := requests,releases := releases } :=
  ⟨h.time,h.sane,h.waiting,fun r hr => h.requests r (hreq r hr),h.replies,h.campaigns,
    fun m c u ht => h.told m c u (ht.of rfl fun _ hr => hr),h.acting,
    fun r hr => h.quiet r (hrel r hr)⟩

/-- One candidate moves. -/
theorem Safe.candidate (h : Safe g lost w) {id : Text} {c : LeaderCandidate}
    (hcand : w'.candidates = Function.update w.candidates id c) (htime : w'.time = w.time)
    (hvoters : w'.voters = w.voters) (hcalls : (w.candidates id).calls ≤ c.calls)
    (hreq : ∀ r ∈ w'.requests,r ∈ w.requests ∨ (r.candidate = id ∧ r.call < c.calls))
    (hrep : ∀ r ∈ w'.replies,r ∈ w.replies)
    (hcamp : ∀ p ∈ c.campaigns,p.call < c.calls ∧
      (Live w.candidates id p.call ∨ (w.candidates id).calls ≤ p.call) ∧
      ∀ slot u m,p.answers slot = some (.granted u) → g.members[slot]? = some m →
        Pledged g lost w m id u)
    (hacts : ∀ a,c.acts = some a → Quorum g lost w id a)
    (hquiet : ∀ r ∈ w'.releases,(w'.candidates r.holder).acts = none ∧
      (w'.candidates r.holder).campaigns = []) :
    Safe g lost w' := by
  have hmore : ∀ c',(w.candidates c').calls ≤ (w'.candidates c').calls := by
    intro c'
    rw [hcand]
    by_cases hc : c' = id
    · rw [hc,Function.update_self]
      exact hcalls
    · rw [Function.update_of_ne hc]
  have hlive : ∀ {c' : Text} {k : Nat},k < (w.candidates c').calls → Live w'.candidates c' k →
      Live w.candidates c' k := by
    rintro c' k hk ⟨p,hp,rfl⟩
    rw [hcand] at hp
    by_cases hc : c' = id
    · subst hc
      rw [Function.update_self] at hp
      rcases (hcamp p hp).2.1 with hl | hl
      · exact hl
      · omega
    · rw [Function.update_of_ne hc] at hp
      exact ⟨p,hp,rfl⟩
  have hpledged : Pledged g lost w' = Pledged g lost w := by
    unfold Pledged
    rw [htime,hvoters]
  have hquorum : Quorum g lost w' = Quorum g lost w := by
    unfold Quorum
    rw [hpledged]
  refine ⟨htime ▸ h.time,?_,fun m => ?_,fun r hr => ?_,fun r hr => ?_,fun c' p hp => ?_,?_,?_,hquiet⟩
  · rw [htime,hvoters]
    exact h.sane
  · rw [htime,hvoters]
    have hw := h.waiting m
    refine ⟨fun c' k slot u hm => ?_,fun c' k slot u hm hl => ?_,
      fun c' k slot u rest s hm hs hl => ?_⟩
    · obtain ⟨h1,h2,h3⟩ := hw.place c' k slot u hm
      exact ⟨h1,Nat.lt_of_lt_of_le h2 (hmore c'),h3⟩
    · exact hw.holds c' k slot u hm (hlive (hw.place c' k slot u hm).2.1 hl)
    · have hmem : VoterWrite.grant c' k slot u ∈ (w.voters m).writes := hm ▸ List.mem_cons_self
      exact hw.begun c' k slot u rest s hm hs (hlive (hw.place c' k slot u hmem).2.1 hl)
  · rcases hreq r hr with hr | ⟨hid,hlt⟩
    · exact Nat.lt_of_lt_of_le (h.requests r hr) (hmore _)
    · rw [hcand,hid,Function.update_self]
      exact hlt
  · exact Nat.lt_of_lt_of_le (h.replies r (hrep r hr)) (hmore _)
  · rw [hcand] at hp ⊢
    by_cases hc : c' = id
    · rw [hc,Function.update_self] at hp ⊢
      exact (hcamp p hp).1
    · rw [Function.update_of_ne hc] at hp ⊢
      exact h.campaigns c' p hp
  · intro m c' u ht
    rw [hpledged]
    cases ht with
    | reply r hr hc hl hu hm =>
      have hold := hrep r hr
      exact h.told m c' u (.reply r hold hc (hlive (hc ▸ h.replies r hold) hl) hu hm)
    | answer p slot hp hu hm =>
      rw [hcand] at hp
      by_cases hc : c' = id
      · subst hc
        rw [Function.update_self] at hp
        exact (hcamp p hp).2.2 slot u m hu hm
      · rw [Function.update_of_ne hc] at hp
        exact h.told m c' u (.answer p slot hp hu hm)
  · intro c' a ha
    rw [hquorum]
    rw [hcand] at ha
    by_cases hc : c' = id
    · subst hc
      rw [Function.update_self] at ha
      exact hacts a ha
    · rw [Function.update_of_ne hc] at ha
      exact h.acting c' a ha

theorem Bounded.later {g : Membership} {time : Int} {m : Text} {s : VoterState}
    (h : Bounded g time m s) (ms : Nat) : Bounded g (time + ms) m s := by
  intro c hc
  have := h c hc
  omega

theorem Stands.later {who : Option Text} {time : Int} {v : Voter} {c : Text} {u : Int}
    (h : Stands who time v c u) (ms : Nat) : Stands who (time + ms) v c u :=
  h.imp_left fun h => by omega

theorem Safe.passes (h : Safe g lost w) (ms : Nat) : Safe g lost { w with time := w.time + ms } := by
  have hpledged : ∀ {m c : Text} {u : Int},Pledged g lost w m c u →
      Pledged g lost { w with time := w.time + ms } m c u := fun hp =>
    ⟨by have := hp.1; simp only; omega,hp.2.later ms⟩
  refine ⟨?_,fun m => ?_,fun m => ?_,h.requests,h.replies,h.campaigns,fun m c u ht => ?_,
    fun c a ha => ?_,h.quiet⟩
  · have := h.time
    simp only
    omega
  · have hs := h.sane m
    refine ⟨hs.state.later ms,fun s hb => (hs.body s hb).later ms,
      fun s hf => (hs.file s hf).later ms,fun hlt => hs.silent ?_,hs.idle⟩
    simp only at hlt
    omega
  · have hw := h.waiting m
    refine ⟨fun c k slot u hm => ?_,fun c k slot u hm hl => ?_,
      fun c k slot u rest s hm hs hl => ?_⟩
    · obtain ⟨h1,h2,h3⟩ := hw.place c k slot u hm
      exact ⟨h1,h2,by simp only; omega⟩
    · exact (hw.holds c k slot u hm hl).imp_left fun hle => by simp only; omega
    · exact (hw.begun c k slot u rest s hm hs hl).imp_left fun hle => by simp only; omega
  · exact hpledged (h.told m c u (ht.of rfl fun _ hr => hr))
  · obtain ⟨q,hq,hall⟩ := h.acting c a ha
    exact ⟨q,hq,fun slot m hs hm => hpledged (hall slot m hs hm)⟩

/-- A member that grants a request puts the lease with its writes. -/
theorem Safe.granted (h : Safe g lost w) {m : Text} {i : Nat} {r : LeaseRequest}
    {state : VoterState} (hr : r ∈ w.requests) (hm : g.members[r.slot]? = some m)
    (hsilent : (w.voters m).voter.silentUntil ≤ w.time)
    (hothers : (w.voters m).voter.others r.candidate w.time = false)
    (hc : state.holder = some r.candidate)
    (huntil : state.leaseUntil = w.time + min (g.leaseMs r.candidate) (g.maxLeaseMs m)) :
    Safe g lost ({ w with requests := w.requests.eraseIdx i }.setVoter m { w.voters m with
      voter := { (w.voters m).voter with state := state }
      writes := (w.voters m).writes ++
        [VoterWrite.grant r.candidate r.call r.slot state.leaseUntil] }) := by
  have hs := h.sane m
  have hw := h.waiting m
  have hkeep : ∀ {d : Text} {u : Int},Holds (w.voters m).voter.state d u →
      u ≤ w.time ∨ Holds state d u := fun hh => hh.granted hs.state hothers hc huntil
  have hsplit : ∀ {c : Text} {k slot : Nat} {u : Int},VoterWrite.grant c k slot u ∈
      (w.voters m).writes ++ [.grant r.candidate r.call r.slot state.leaseUntil] →
      VoterWrite.grant c k slot u ∈ (w.voters m).writes ∨
        (c = r.candidate ∧ k = r.call ∧ slot = r.slot ∧ u = state.leaseUntil) := by
    intro c k slot u hmem
    rcases List.mem_append.mp hmem with hold | hnew
    · exact .inl hold
    · exact .inr (by simpa using hnew)
  refine Function.update_eq_self m lost ▸ h.voter (lost m) rfl rfl rfl
    (fun r hr => List.mem_of_mem_eraseIdx hr) (fun r hr => hr) (fun r hr => .inl hr) ?_ ?_ ?_
  · refine ⟨fun c hholder => ?_,hs.body,hs.file,fun hlt => absurd hlt (Int.not_lt.mpr hsilent),
      fun hnil => absurd hnil (by simp)⟩
    obtain rfl := Option.some.inj (hc.symm.trans hholder)
    exact Int.le_of_eq huntil
  · refine ⟨fun c k slot u hmem => ?_,fun c k slot u hmem hl => ?_,
      fun c k slot u rest s hhead hbody hl => ?_⟩
    · rcases hsplit hmem with hold | ⟨rfl,rfl,rfl,rfl⟩
      · exact hw.place c k slot u hold
      · exact ⟨hm,h.requests r hr,by omega⟩
    · rcases hsplit hmem with hold | ⟨rfl,rfl,rfl,rfl⟩
      · exact (hw.holds c k slot u hold hl).elim .inl hkeep
      · exact .inr ⟨hc,Int.le_refl _⟩
    · cases hwrites : (w.voters m).writes with
      | nil => exact absurd ((hs.idle hwrites).symm.trans hbody) (Option.some_ne_none s).symm
      | cons first others =>
        simp only [hwrites,List.cons_append,List.cons.injEq] at hhead
        rw [hhead.1] at hwrites
        exact hw.begun c k slot u others s hwrites hbody hl
  · intro c u _ _ hst
    rcases hst with hle | ⟨hle,_⟩ | hfirm
    · exact .inl hle
    · exact .inl (Int.le_trans hle hsilent)
    · rcases hkeep hfirm.state with hle | hh
      · exact .inl hle
      · exact .inr (.inr ⟨hh,hfirm.body,hfirm.file⟩)

theorem Safe.ask (h : Safe g lost w) (i : Nat) (known : Bool) : Safe g lost (w.ask g i known) := by
  unfold Election.ask
  cases hr : w.requests[i]? with
  | none => exact h
  | some r =>
    have hmem := List.mem_of_getElem? hr
    have hsub : ∀ x ∈ w.requests.eraseIdx i,x ∈ w.requests := fun x hx =>
      List.mem_of_mem_eraseIdx hx
    simp only
    cases hm : g.members[r.slot]? with
    | none => exact h.fewer hsub fun _ hr => hr
    | some m =>
      simp only
      cases hg : (w.voters m).voter.grant (g.maxLeaseMs m)
        (({ w with requests := w.requests.eraseIdx i } : Election).clock known) r.candidate r.term
        (g.leaseMs r.candidate) with
      | mk result v =>
        rcases grant_cases hg with ⟨reason,rfl⟩ | ⟨t,ht,hsilent,hothers,rfl,rfl⟩
        · refine Function.update_eq_self m lost ▸ h.voter (m := m) (v := w.voters m) (lost m)
            (Function.update_eq_self m w.voters).symm rfl rfl hsub (fun r hr => hr) ?_ (h.sane m)
            (h.waiting m) (fun c u _ _ hst => hst)
          intro x hx
          rcases List.mem_append.mp hx with hx | hx
          · exact .inl hx
          · obtain rfl := List.mem_singleton.mp hx
            exact .inr ⟨h.requests r hmem,fun u hu => by cases hu⟩
        · have hnow : t = w.time := by
            cases known <;> simp [clock] at ht
            exact ht.symm
          subst hnow
          refine h.granted hmem hm hsilent hothers ?_ ?_
          · rfl
          · rfl

theorem Safe.writeBegins (h : Safe g lost w) (m : Text) : Safe g lost (w.writeBegins m) := by
  unfold Election.writeBegins
  simp only
  split
  next first rest hwrites hbody =>
    have hs := h.sane m
    have hw := h.waiting m
    refine Function.update_eq_self m lost ▸ h.voter (lost m) rfl rfl rfl (fun r hr => hr)
      (fun r hr => hr) (fun r hr => .inl hr) ?_ ?_ ?_
    · refine ⟨hs.state,fun s hb => ?_,hs.file,hs.silent,fun hnil => ?_⟩
      · obtain rfl := Option.some.inj hb
        exact hs.state
      · exact absurd (hwrites.symm.trans hnil) (List.cons_ne_nil first rest)
    · refine ⟨hw.place,hw.holds,fun c k slot u rest s hhead hb hl => ?_⟩
      obtain rfl := Option.some.inj hb
      exact hw.holds c k slot u (hhead ▸ List.mem_cons_self) hl
    · intro c u _ _ hst
      rcases hst with hle | hsilent | hfirm
      · exact .inl hle
      · exact .inr (.inl hsilent)
      · refine .inr (.inr ⟨hfirm.state,fun s hb => ?_,hfirm.file⟩)
        obtain rfl := Option.some.inj hb
        exact hfirm.state
  · exact h

/-- A write that ends takes its call with it; the file may have been replaced. -/
theorem Sane.written {time : Int} {m : Text} {v : Voter} (hs : Sane g time m v) {file : VoterFile}
    (hfile : file = v.file ∨ ∃ s,v.body = some s ∧ file = .saved s) :
    Sane g time m { v with file := file,writes := v.writes.tail,body := none } := by
  refine ⟨hs.state,fun s hb => (nomatch hb),fun s hf => ?_,hs.silent,fun _ => rfl⟩
  rcases hfile with rfl | ⟨t,ht,rfl⟩
  · exact hs.file s hf
  · obtain rfl := VoterFile.saved.inj hf
    exact hs.body t ht

theorem Waiting.written {time : Int} {candidates : Text → LeaderCandidate} {m : Text} {v : Voter}
    (hw : Waiting g time candidates m v) (file : VoterFile) :
    Waiting g time candidates m { v with file := file,writes := v.writes.tail,body := none } :=
  ⟨fun c k slot u hmem => hw.place c k slot u (List.mem_of_mem_tail hmem),
    fun c k slot u hmem => hw.holds c k slot u (List.mem_of_mem_tail hmem),
    fun c k slot u rest s _ hb => by cases hb⟩

theorem Stands.written {who : Option Text} {time : Int} {v : Voter} {c : Text} {u : Int}
    {file : VoterFile} {writes : List VoterWrite} (h : Stands who time v c u)
    (hfile : file = v.file ∨ ∃ s,v.body = some s ∧ file = .saved s) :
    Stands who time { v with file := file,writes := writes,body := none } c u := by
  rcases h with hle | hsilent | hfirm
  · exact .inl hle
  · exact .inr (.inl hsilent)
  · refine .inr (.inr ⟨hfirm.state,fun s hb => (nomatch hb),?_⟩)
    rcases hfile with rfl | ⟨s,hs,rfl⟩
    · exact hfirm.file
    · exact ⟨s,rfl,hfirm.body s hs⟩

theorem Safe.writeFails (h : Safe g lost w) (m : Text) (replaced : Bool) :
    Safe g lost (w.writeFails m replaced) := by
  unfold Election.writeFails
  extract_lets v file
  have hfile : file = (w.voters m).file ∨ ∃ s,(w.voters m).body = some s ∧ file = .saved s := by
    unfold file v
    cases hb : (w.voters m).body with
    | none => exact .inl rfl
    | some s => cases replaced with
      | false => exact .inl rfl
      | true => exact .inr ⟨s,rfl,rfl⟩
  exact Function.update_eq_self m lost ▸ h.voter (lost m) rfl rfl rfl (fun r hr => hr)
    (fun r hr => hr) (fun r hr => .inl hr) ((h.sane m).written hfile)
    ((h.waiting m).written _) (fun c u _ _ hst => hst.written hfile)

theorem Safe.writeLands (h : Safe g lost w) (m : Text) : Safe g lost (w.writeLands m) := by
  unfold Election.writeLands
  simp only
  split
  next first rest state hwrites hbody =>
    have hw := h.waiting m
    have hfile : VoterFile.saved state = (w.voters m).file ∨
        ∃ s,(w.voters m).body = some s ∧ VoterFile.saved state = .saved s :=
      .inr ⟨state,hbody,rfl⟩
    have hsane := (h.sane m).written hfile
    have hwait := hw.written (.saved state)
    rw [hwrites,List.tail_cons] at hsane hwait
    cases first with
    | release =>
      exact Function.update_eq_self m lost ▸ h.voter (lost m) rfl rfl rfl (fun r hr => hr)
        (fun r hr => hr) (fun r hr => .inl hr) hsane hwait (fun c u _ _ hst => hst.written hfile)
    | grant c k slot u =>
      have hmem : VoterWrite.grant c k slot u ∈ (w.voters m).writes := hwrites ▸ List.mem_cons_self
      obtain ⟨hplace,hk,hu⟩ := hw.place c k slot u hmem
      refine Function.update_eq_self m lost ▸ h.voter (lost m) rfl rfl rfl (fun r hr => hr)
        (fun r hr => hr) ?_ hsane hwait (fun c u _ _ hst => hst.written hfile)
      intro r hr
      rcases List.mem_append.mp hr with hr | hr
      · exact .inl hr
      · obtain rfl := List.mem_singleton.mp hr
        refine .inr ⟨hk,fun u' hu' hl => ?_⟩
        obtain rfl := GrantResult.granted.inj hu'
        refine ⟨hplace,hu,?_⟩
        -- the lease is in memory since it was granted, and now in the file as well
        rcases hw.holds c k slot u hmem hl with hle | hstate
        · exact .inl hle
        · rcases hw.begun c k slot u rest state hwrites hbody hl with hle | hsaved
          · exact .inl hle
          · exact .inr (.inr ⟨hstate,fun s hb => (nomatch hb),state,rfl,hsaved⟩)
  · exact h

theorem Safe.release (h : Safe g lost w) (i : Nat) : Safe g lost (w.release i) := by
  unfold Election.release
  cases hr : w.releases[i]? with
  | none => exact h
  | some r =>
    have hmem := List.mem_of_getElem? hr
    have hsub : ∀ x ∈ w.releases.eraseIdx i,x ∈ w.releases := fun x hx =>
      List.mem_of_mem_eraseIdx hx
    have hs := h.sane r.member
    have hw := h.waiting r.member
    obtain ⟨hacts,hnone⟩ := h.quiet r hmem
    simp only [LeaseVoter.release]
    split_ifs with hholder
    · exact h.fewer (fun x hx => hx) hsub
    · have hnew : ∀ {c : Text} {u : Int},Holds (w.voters r.member).voter.state c u →
          c = r.holder := fun hh =>
        Option.some.inj (hh.1.symm.trans (not_not.mp hholder))
      have hdead : ∀ k,¬ Live w.candidates r.holder k := by
        rintro k ⟨p,hp,_⟩
        rw [hnone] at hp
        cases hp
      have hsplit : ∀ {c : Text} {k slot : Nat} {u : Int},VoterWrite.grant c k slot u ∈
          (w.voters r.member).writes ++ [VoterWrite.release] →
          VoterWrite.grant c k slot u ∈ (w.voters r.member).writes := by
        intro c k slot u hin
        simpa using hin
      refine Function.update_eq_self r.member lost ▸ h.voter (lost r.member) rfl rfl rfl
        (fun x hx => hx) hsub (fun x hx => .inl hx) ?_ ?_ ?_
      · exact ⟨fun c hc => (nomatch hc),hs.body,hs.file,fun _ => rfl,
          fun hnil => absurd hnil (by simp)⟩
      · refine ⟨fun c k slot u hin => hw.place c k slot u (hsplit hin),
          fun c k slot u hin hl => ?_,fun c k slot u rest s hhead hb hl => ?_⟩
        · rcases hw.holds c k slot u (hsplit hin) hl with hle | hh
          · exact .inl hle
          · exact absurd (hnew hh ▸ hl) (hdead k)
        · cases hwrites : (w.voters r.member).writes with
          | nil => exact absurd ((hs.idle hwrites).symm.trans hb) (Option.some_ne_none s).symm
          | cons first others =>
            simp only [hwrites,List.cons_append,List.cons.injEq] at hhead
            rw [hhead.1] at hwrites
            exact hw.begun c k slot u others s hwrites hb hl
      · intro c u hengaged _ hst
        rcases hst with hle | hsilent | hfirm
        · exact .inl hle
        · exact .inr (.inl hsilent)
        · obtain rfl := hnew hfirm.state
          rcases hengaged with ha | hc
          · exact absurd hacts ha
          · exact absurd hnone hc

/-- Who held the lease that is in a file. -/
def holderIn : VoterFile → Option Text
  | .saved s => s.holder
  | _ => none

theorem load_lost {file : VoterFile} (h : LeaseVoter.lost file = true) (now : Option Int)
    (wall most : Int) : LeaseVoter.load file now wall most = .silent now wall most := by
  simp only [LeaseVoter.load,h,↓reduceIte]

/-- A member that starts with its state knows what is in its file. -/
theorem Safe.restartsWhole (h : Safe g lost w) {m : Text} {now : Option Int} {wall : Int}
    (hsilent : (w.voters m).voter.silentUntil ≤ w.time)
    (hfile : LeaseVoter.lost (w.voters m).file = false) :
    Safe g lost (w.setVoter m
      ⟨.load (w.voters m).file now wall (g.maxLeaseMs m),(w.voters m).file,[],none⟩) := by
  have hs := h.sane m
  have hload : ∀ {s : VoterState},(w.voters m).file = .saved s →
      LeaseVoter.load (w.voters m).file now wall (g.maxLeaseMs m) = ⟨s,0⟩ := by
    intro s hsaved
    rw [hsaved] at hfile ⊢
    simp [LeaseVoter.load,hfile]
  have hvoter : (LeaseVoter.load (w.voters m).file now wall (g.maxLeaseMs m)).silentUntil = 0 ∧
      Bounded g w.time m (LeaseVoter.load (w.voters m).file now wall (g.maxLeaseMs m)).state := by
    cases hf : (w.voters m).file with
    | missing =>
      refine ⟨rfl,?_⟩
      intro c hc
      cases hc
    | corrupt => rw [hf] at hfile; cases hfile
    | saved s =>
      rw [← hf,hload hf]
      exact ⟨rfl,hs.file s hf⟩
  refine Function.update_eq_self m lost ▸ h.voter (lost m) rfl rfl rfl (fun r hr => hr)
    (fun r hr => hr) (fun r hr => .inl hr) ?_ ?_ ?_
  · refine ⟨hvoter.2,fun s hb => (nomatch hb),hs.file,fun hlt => ?_,fun _ => rfl⟩
    rw [hvoter.1] at hlt
    exact absurd hlt (Int.not_lt.mpr h.time)
  · exact .nobody rfl
  · intro c u _ _ hst
    rcases hst with hle | ⟨hle,_⟩ | hfirm
    · exact .inl hle
    · exact .inl (Int.le_trans hle hsilent)
    · obtain ⟨s,hsaved,hh⟩ := hfirm.file
      refine .inr (.inr ⟨?_,fun s hb => (nomatch hb),s,hsaved,hh⟩)
      rw [hload hsaved]
      exact hh

/-- A member that starts without its state is silent for as long as a lease of it may run. -/
theorem Safe.restartsLost (h : Safe g lost w) {m : Text} {wall : Int} {file kept : VoterFile}
    (hsilent : (w.voters m).voter.silentUntil ≤ w.time) (hlost : LeaseVoter.lost file = true)
    (hkept : ∀ s,kept = .saved s → (w.voters m).file = .saved s) :
    Safe g (Function.update lost m (holderIn (w.voters m).file))
      (w.setVoter m ⟨.load file (some w.time) wall (g.maxLeaseMs m),kept,[],none⟩) := by
  have hs := h.sane m
  rw [load_lost hlost]
  refine h.voter _ rfl rfl rfl (fun r hr => hr) (fun r hr => hr) (fun r hr => .inl hr) ?_ ?_ ?_
  · exact ⟨fun c hc => (nomatch hc),fun s hb => (nomatch hb),fun s hf => hs.file s (hkept s hf),
      fun _ => rfl,fun _ => rfl⟩
  · exact .nobody rfl
  · intro c u _ hu hst
    rcases hst with hle | ⟨hle,_⟩ | hfirm
    · exact .inl hle
    · exact .inl (Int.le_trans hle hsilent)
    · obtain ⟨s,hsaved,hh⟩ := hfirm.file
      exact .inr (.inl ⟨hu,by rw [hsaved]; exact hh.1⟩)

/-- What the runs leave out: a candidate that campaigns while a release of its own is under way,
or steps down while a campaign of its own is; and a member that starts again while it is silent,
or without its state where it has no trusted time. -/
def Orderly (w : Election) : Move → Prop
  | .campaign id _ => ∀ r ∈ w.releases,r.holder ≠ id
  | .stepDown id => (w.candidates id).campaigns = []
  | .voterRestarts m intact _ known _ => (w.voters m).voter.silentUntil ≤ w.time ∧
      (known = true ∨ (intact = true ∧ LeaseVoter.lost (w.voters m).file = false))
  | _ => True

theorem Safe.voterRestarts (h : Safe g lost w) {m : Text} {intact moved known : Bool} {wall : Int}
    (ho : Orderly w (.voterRestarts m intact moved known wall)) :
    ∃ lost',Safe g lost' (w.voterRestarts g m intact moved known wall) := by
  obtain ⟨hsilent,hknown⟩ := ho
  unfold Election.voterRestarts
  simp only
  generalize hfile : (if intact then (w.voters m).file else VoterFile.corrupt) = file
  have hsame : ∀ s,file = .saved s → (w.voters m).file = .saved s := by
    intro s hs
    cases intact <;> simp_all
  cases hlost : LeaseVoter.lost file with
  | false =>
    have hintact : intact = true := by
      cases intact with
      | true => rfl
      | false => subst hfile; cases hlost
    subst hintact
    subst hfile
    exact ⟨lost,h.restartsWhole hsilent hlost⟩
  | true =>
    have hk : known = true := by
      rcases hknown with hk | ⟨rfl,hwhole⟩
      · exact hk
      · subst hfile
        rw [if_pos rfl,hwhole] at hlost
        cases hlost
    subst hk
    refine ⟨_,h.restartsLost hsilent hlost fun s hs => ?_⟩
    cases moved with
    | true => cases hs
    | false => exact hsame s hs

theorem Safe.campaign (h : Safe g lost w) {id : Text} {known : Bool}
    (ho : Orderly w (.campaign id known)) : Safe g lost (w.campaign g id known) := by
  have hkeep : ∀ r ∈ w.releases,r.holder ≠ id := ho
  have hold : ∀ p ∈ (w.candidates id).campaigns,∀ slot u m,p.answers slot = some (.granted u) →
      g.members[slot]? = some m → Pledged g lost w m id u :=
    fun p hp slot u m hu hm => h.told m id u (.answer p slot hp hu hm)
  have hquiet : ∀ c : LeaderCandidate,∀ r ∈ w.releases,
      (Function.update w.candidates id c r.holder).acts = none ∧
        (Function.update w.candidates id c r.holder).campaigns = [] := by
    intro c r hr
    rw [Function.update_of_ne (hkeep r hr)]
    exact h.quiet r hr
  unfold Election.campaign
  cases known with
  | false =>
    exact h.candidate rfl rfl rfl (Nat.le_refl _) (fun r hr => .inl hr) (fun r hr => hr)
      (fun p hp => ⟨h.campaigns id p hp,.inl ⟨p,hp,rfl⟩,hold p hp⟩) (fun a ha => nomatch ha)
      (hquiet _)
  | true =>
    refine h.candidate rfl rfl rfl (Nat.le_succ _) (fun r hr => ?_) (fun r hr => hr)
      (fun p hp => ?_) (fun a ha => h.acting id a ha) (hquiet _)
    · rcases List.mem_append.mp hr with hr | hr
      · exact .inl hr
      · obtain ⟨slot,_,rfl⟩ := List.mem_map.mp hr
        exact .inr ⟨rfl,Nat.lt_succ_self _⟩
    · rcases List.mem_append.mp hp with hp | hp
      · exact ⟨Nat.lt_succ_of_lt (h.campaigns id p hp),.inl ⟨p,hp,rfl⟩,hold p hp⟩
      · obtain rfl := List.mem_singleton.mp hp
        exact ⟨Nat.lt_succ_self _,.inr (Nat.le_refl _),fun slot u m hu => nomatch hu⟩

theorem Safe.answer (h : Safe g lost w) (i : Nat) : Safe g lost (w.answer i) := by
  unfold Election.answer
  cases hr : w.replies[i]? with
  | none => exact h
  | some r =>
    have hmem := List.mem_of_getElem? hr
    refine h.candidate rfl rfl rfl (Nat.le_refl _) (fun x hx => .inl hx)
      (fun x hx => List.mem_of_mem_eraseIdx hx) (fun p hp => ?_)
      (fun a ha => h.acting r.candidate a ha) (fun x hx => ?_)
    · obtain ⟨q,hq,rfl⟩ := List.mem_map.mp hp
      clear hp
      have hcall : (if q.call = r.call then
          { q with answers := Function.update q.answers r.slot (some r.result) } else q).call =
          q.call := by split <;> rfl
      rw [hcall]
      refine ⟨h.campaigns _ q hq,.inl ⟨q,hq,rfl⟩,fun slot u m hu hm => ?_⟩
      split at hu
      next hc =>
        by_cases hslot : slot = r.slot
        · subst hslot
          simp only [Function.update_self] at hu
          exact h.told m r.candidate u (.reply r hmem rfl ⟨q,hq,hc⟩ (Option.some.inj hu) hm)
        · simp only [Function.update_of_ne hslot] at hu
          exact h.told m r.candidate u (.answer q slot hq hu hm)
      · exact h.told m r.candidate u (.answer q slot hq hu hm)
    · obtain ⟨hacts,hnone⟩ := h.quiet x hx
      by_cases hc : x.holder = r.candidate
      · simp only [setCandidate,← hc,Function.update_self]
        exact ⟨hacts,by rw [hnone]; rfl⟩
      · simp only [setCandidate,Function.update_of_ne hc]
        exact ⟨hacts,hnone⟩

/-- A candidate that goes on after a campaign has a majority for as long as it acts. -/
theorem Safe.quorum (h : Safe g lost w) {id : Text} {p : Campaign}
    (hp : p ∈ (w.candidates id).campaigns) {a : Int}
    (ha : LeaderCandidate.actsOf g.members (g.leaseMs id) (g.driftMs id) p = some a) :
    Quorum g lost w id a := by
  unfold LeaderCandidate.actsOf at ha
  split at ha
  · cases ha
  next hlen =>
    obtain ⟨earliest,hmin,rfl⟩ := Option.map_eq_some_iff.mp ha
    obtain ⟨_,hearliest⟩ := List.min?_eq_some_iff.mp hmin
    refine ⟨fun slot => (((p.answers slot).getD (.refused .recovering)).leaseUntil?).isSome,?_,
      fun slot m hs hm => ?_⟩
    · rw [← List.countP_eq_length_filter,← List.length_filterMap_eq_countP]
      exact Nat.not_lt.mp hlen
    · obtain ⟨u,hu⟩ := Option.isSome_iff_exists.mp hs
      have hslot : slot < g.members.length := (List.getElem?_eq_some_iff.mp hm).1
      have hin : u ∈ LeaderCandidate.grants g.members p :=
        List.mem_filterMap.mpr ⟨slot,List.mem_range.mpr hslot,hu⟩
      have hanswer : p.answers slot = some (.granted u) := by
        cases hans : p.answers slot with
        | none => rw [hans] at hu; cases hu
        | some result =>
          cases result with
          | refused reason => rw [hans] at hu; cases hu
          | granted u' =>
            rw [hans] at hu
            rw [Option.some.inj hu]
      obtain ⟨hle,hst⟩ := h.told m id u (.answer p slot hp hanswer hm)
      have hmin := hearliest u hin
      exact ⟨by omega,hst.mono (by omega)⟩

theorem Safe.resolve (h : Safe g lost w) (id : Text) (call : Nat) :
    Safe g lost (w.resolve g id call) := by
  unfold Election.resolve
  simp only
  cases hp : (w.candidates id).campaigns.find? fun p => decide (p.call = call) with
  | none => exact h
  | some p =>
    have hmem := List.mem_of_find?_eq_some hp
    refine h.candidate rfl rfl rfl (Nat.le_refl _) (fun r hr => .inl hr) (fun r hr => hr)
      (fun q hq => ?_) (fun a ha => h.quorum hmem ha) (fun x hx => ?_)
    · have hq := List.mem_of_mem_filter hq
      exact ⟨h.campaigns id q hq,.inl ⟨q,hq,rfl⟩,
        fun slot u m hu hm => h.told m id u (.answer q slot hq hu hm)⟩
    · obtain ⟨hacts,hnone⟩ := h.quiet x hx
      have hc : x.holder ≠ id := by
        rintro rfl
        rw [hnone] at hmem
        cases hmem
      simp only [setCandidate,Function.update_of_ne hc]
      exact ⟨hacts,hnone⟩

/-- A candidate that stops, with the releases it asks for. -/
theorem Safe.stops (h : Safe g lost w) {id : Text} {c : LeaderCandidate} (hacts : c.acts = none)
    (hnone : c.campaigns = []) (hcalls : c.calls = (w.candidates id).calls)
    {releases : List ReleaseMessage} (hr : ∀ r ∈ releases,r ∈ w.releases ∨ r.holder = id) :
    Safe g lost { w.setCandidate id c with releases := releases } := by
  refine h.candidate rfl rfl rfl (Nat.le_of_eq hcalls.symm) (fun r hr => .inl hr) (fun r hr => hr)
    (fun p hp => ?_) (fun a ha => ?_) (fun x hx => ?_)
  · rw [hnone] at hp
    cases hp
  · rw [hacts] at ha
    cases ha
  · by_cases hc : x.holder = id
    · simp only [setCandidate,hc,Function.update_self]
      exact ⟨hacts,hnone⟩
    · simp only [setCandidate,Function.update_of_ne hc]
      exact h.quiet x ((hr x hx).resolve_right hc)

theorem Safe.step (h : Safe g lost w) {move : Move} (ho : Orderly w move) :
    ∃ lost',Safe g lost' (w.step g move) := by
  cases move with
  | passes ms => exact ⟨lost,h.passes ms⟩
  | campaign id known => exact ⟨lost,h.campaign ho⟩
  | ask i known => exact ⟨lost,h.ask i known⟩
  | writeBegins m => exact ⟨lost,h.writeBegins m⟩
  | writeLands m => exact ⟨lost,h.writeLands m⟩
  | writeFails m replaced => exact ⟨lost,h.writeFails m replaced⟩
  | answer i => exact ⟨lost,h.answer i⟩
  | resolve id call => exact ⟨lost,h.resolve id call⟩
  | stepDown id =>
    refine ⟨lost,h.stops (c := { w.candidates id with acts := none }) rfl ho rfl fun r hr => ?_⟩
    rcases List.mem_append.mp hr with hr | hr
    · exact .inl hr
    · obtain ⟨m,_,rfl⟩ := List.mem_map.mp hr
      exact .inr rfl
  | release i => exact ⟨lost,h.release i⟩
  | releaseLost i =>
    exact ⟨lost,h.fewer (fun r hr => hr) fun r hr => List.mem_of_mem_eraseIdx hr⟩
  | voterRestarts m intact moved known wall => exact h.voterRestarts ho
  | candidateRestarts id =>
    exact ⟨lost,h.stops (c := { w.candidates id with term := _,acts := none,campaigns := [] })
      rfl rfl rfl fun r hr => .inl hr⟩

theorem Safe.start (g : Membership) (time : Nat) : Safe g (fun _ => none) (start time) where
  time := Int.natCast_nonneg time
  sane _ := ⟨fun c hc => (nomatch hc),fun s hb => (nomatch hb),fun s hf => (nomatch hf),
    fun _ => rfl,fun _ => rfl⟩
  waiting _ := .nobody rfl
  requests _ hr := nomatch hr
  replies _ hr := nomatch hr
  campaigns _ _ hp := nomatch hp
  told m c u ht := by
    cases ht with
    | reply r hr hc hl hu hm => cases hr
    | answer p slot hp hu hm => cases hp
  acting _ _ ha := nomatch ha
  quiet _ hr := nomatch hr

end

/-- At most one candidate may act as the lead, at every moment of every orderly run. -/
theorem at_most_one_acts (g : Membership) (time : Nat) (moves : List Move)
    (h : Along (step g) Orderly (start time) moves) (c d : Text) (knownC knownD : Bool)
    (hc : ((run (step g) (start time) moves).candidates c).mayAct
      ((run (step g) (start time) moves).clock knownC) = true)
    (hd : ((run (step g) (start time) moves).candidates d).mayAct
      ((run (step g) (start time) moves).clock knownD) = true) : c = d := by
  obtain ⟨lost,hsafe⟩ := Along.invariant (I := fun w => ∃ lost,Safe g lost w)
    (fun w move hI ho => hI.elim fun _ hw => hw.step ho) ⟨_,Safe.start g time⟩ h
  generalize run (step g) (start time) moves = w at hc hd hsafe
  have hacts : ∀ {e : Text} {known : Bool},(w.candidates e).mayAct (w.clock known) = true →
      ∃ a,(w.candidates e).acts = some a ∧ w.time < a := by
    intro e known he
    cases known with
    | false => simp [clock,LeaderCandidate.mayAct] at he
    | true =>
      cases ha : (w.candidates e).acts with
      | none => simp [clock,LeaderCandidate.mayAct,ha] at he
      | some a => exact ⟨a,rfl,by simpa [clock,LeaderCandidate.mayAct,ha] using he⟩
  obtain ⟨a,hac,hta⟩ := hacts hc
  obtain ⟨b,hbd,htb⟩ := hacts hd
  exact hsafe.unique hac hbd hta htb

/-- Three members that vote for leases of ten seconds. -/
def trio : Membership :=
  ⟨["a".toList,"b".toList,"c".toList],fun _ => 15000,fun _ => 10000,fun _ => 500,fun _ => true⟩

/-- A member campaigns; two of the three grant it a lease, and it hears of both. -/
def electing : List Move :=
  [.campaign "a".toList true,.ask 0 true,.writeBegins "a".toList,.writeLands "a".toList,
    .passes 20,.ask 0 true,.writeBegins "b".toList,.writeLands "b".toList,.answer 0,.answer 0,
    .resolve "a".toList 0]

theorem at_most_one_acts_elected :
    ((run (step trio) (start 1000) electing).candidates "a".toList).mayAct
      ((run (step trio) (start 1000) electing).clock true) = true ∧
    ∀ d known,((run (step trio) (start 1000) electing).candidates d).mayAct
      ((run (step trio) (start 1000) electing).clock known) = true → "a".toList = d := by
  have horderly : Along (step trio) Orderly (start 1000) electing :=
    ⟨nofun,trivial,trivial,trivial,trivial,trivial,trivial,trivial,trivial,trivial,trivial,trivial⟩
  have hacts : ((run (step trio) (start 1000) electing).candidates "a".toList).mayAct
      ((run (step trio) (start 1000) electing).clock true) = true := by decide
  exact ⟨hacts,fun d known hd =>
    at_most_one_acts trio 1000 electing horderly "a".toList d true known hacts hd⟩

end Flagship.Authority.Election

import Flagship.Mesh.PhoneLedger

namespace Flagship.Mesh.Proofs
open Lib Relay

theorem signGrant_spec {k : Knows} {host sender : Text} {e : Entry} {now : Nat}
    {g : PhoneRouteGrant} (h : signGrant k host e sender now = some g) :
    ∃ holder, e.holder = some holder ∧ g.hostname = host ∧ g.generation = e.generation ∧
      g.phoneRoutePub = holder.phoneRoutePub ∧ g.holderRelayId = sender := by
  simp only [signGrant,Option.bind_eq_bind,Option.bind_eq_some_iff] at h
  obtain ⟨holder,he,h⟩ := h
  split at h
  · cases h
    exact ⟨holder,he,rfl,rfl,rfl,rfl⟩
  · cases h

/-- What a granted acquire says about the entry it was judged on. -/
theorem ledgerAcquire_spec {e next : Entry} {generation : Nat} {holder : Holder} {now : Nat}
    (h : ledgerAcquire e generation holder now = .ok next) :
    generation = e.generation + 1 ∧ (live e now).holder = none ∧
      next = ⟨generation,some holder,saturatingAdd now leaseMs⟩ := by
  unfold ledgerAcquire at h
  split at h
  · cases h
  rename_i hok
  split at h
  · cases h
  rename_i hfree
  split at h
  · cases h
  rename_i hgen
  cases h
  simp only [not_or,not_not,ne_eq] at hok hgen
  refine ⟨?_,by simpa using hfree,rfl⟩
  have hmax := hok.1.2
  -- the saturation of the next generation is out of a claim's range
  simp only [saturatingAdd,maxSafeInteger] at hgen hmax
  omega

theorem vacant_of_live {e : Entry} {now : Nat} {h : Holder} (hl : (live e now).holder = none)
    (he : e.holder = some h) : e.leaseUntil ≤ now := by
  unfold live at hl
  split at hl
  · rw [he] at hl
    cases hl
  · rename_i hn
    simp only [he,Option.isSome_some,true_and] at hn
    omega

theorem session_of_all {o : Option Holder} {session : Text}
    (h : ¬ o.all (fun h => decide (h.sessionId ≠ session)) = true) :
    ∃ holder, o = some holder ∧ holder.sessionId = session := by
  cases o with
  | none => simp at h
  | some holder => exact ⟨holder,rfl,by simpa using h⟩

theorem ledgerRenew_spec {e next : Entry} {generation : Nat} {session : Text} {now : Nat}
    (h : ledgerRenew e generation session now = .ok next) :
    next = { e with leaseUntil := saturatingAdd now leaseMs } := by
  unfold ledgerRenew at h
  split at h
  · cases h
  split at h
  · cases h
  split at h
  · cases h
  · cases h
    rfl

theorem ledgerRelease_spec {e next : Entry} {generation : Nat} {session : Text}
    (h : ledgerRelease e generation session = .ok next) :
    next = ⟨e.generation,none,0⟩ ∧ ∃ holder, e.holder = some holder ∧ holder.sessionId = session := by
  unfold ledgerRelease at h
  split at h
  · cases h
  split at h
  · cases h
  rename_i hs
  cases h
  exact ⟨rfl,session_of_all hs⟩

/-- The request is a release by this very holder. -/
def ReleasesOwn (h : Holder) (sender : Text) : Request → Prop
  | .release _ _ sessionId => h.relayId = sender ∧ h.sessionId = sessionId
  | _ => False

/-- The three ways a request writes an entry back: the next generation's holder,
the same holder again, or nobody. -/
inductive Writes (k : Knows) (sender : Text) (t now : Nat) (e : Entry) (r : Request) (next : Entry) :
    Prop
  | acquired (host : Text) (holder : Holder) (gen : next.generation = e.generation + 1)
      (vacant : (live e t).holder = none) (who : next.holder = some holder)
      (relay : holder.relayId = sender) (read : ∀ k' x, lookup k' r = .inr x → x = host)
      (answer : (judge k sender t now e r).answer =
        (signGrant k host next sender now).map .granted)
  | renewed (host : Text) (holder : Holder) (gen : next.generation = e.generation)
      (who : e.holder = some holder) (same : next.holder = some holder)
      (relay : holder.relayId = sender) (read : ∀ k' x, lookup k' r = .inr x → x = host)
      (answer : (judge k sender t now e r).answer =
        (signGrant k host next sender now).map .granted)
  | released (holder : Holder) (gen : next.generation = e.generation)
      (who : e.holder = some holder) (own : ReleasesOwn holder sender r)
      (left : next.holder = none) (answer : (judge k sender t now e r).answer = some .released)

theorem lookup_renew {k : Knows} {hostname session x : Text} {generation : Nat}
    (h : lookup k (.renew hostname generation session) = .inr x) : x = hostname := by
  simp only [lookup] at h
  split at h
  · cases h
    rfl
  · cases h

theorem judge_writes {k : Knows} {sender : Text} {t now : Nat} {e next : Entry} {r : Request}
    (h : (judge k sender t now e r).write = some next) : Writes k sender t now e r next := by
  cases r with
  | begin account => cases h
  | claim hostname generation holder claim claimSignature grants =>
    simp only [judge] at h
    split at h
    · cases h
    rename_i account hacc
    split at h
    · cases h
    rename_i hok
    split at h
    · cases h
    rename_i n hn
    cases h
    obtain ⟨hgen,hlive,rfl⟩ := ledgerAcquire_spec hn
    refine .acquired hostname holder hgen hlive rfl ?_ (fun _ _ hx => (Sum.inr.inj hx).symm) ?_
    · simp only [not_or,not_not,ne_eq] at hok
      exact hok.1
    · simp only [judge,hacc,if_neg hok,hn]
  | renew hostname generation sessionId =>
    simp only [judge] at h
    split at h
    · cases h
    rename_i n hn
    split at h
    · rename_i hrelay
      cases h
      obtain rfl := ledgerRenew_spec hn
      obtain ⟨holder,hh,hr⟩ := (Option.any_eq_true _ _).mp hrelay
      refine .renewed hostname holder rfl hh hh (by simpa using hr) (fun _ _ => lookup_renew) ?_
      simp only [judge,hn,if_pos hrelay]
    · cases h
  | release hostname generation sessionId =>
    simp only [judge] at h
    split at h
    · cases h
    rename_i hown
    split at h
    · cases h
    rename_i n hn
    cases h
    obtain ⟨rfl,holder,hh,hs⟩ := ledgerRelease_spec hn
    refine .released holder rfl hh ⟨?_,hs⟩ rfl ?_
    · simpa [hh] using hown
    · simp only [judge,if_neg hown,hn]

open Lib Handling

/-- No two grants for one hostname and generation name different holders. -/
def OneHolder (s : Handling) : Prop :=
  ∀ a ∈ s.signed, ∀ b ∈ s.signed, a.grant.hostname = b.grant.hostname →
    a.grant.generation = b.grant.generation → a.holder = b.holder ∧
      a.grant.phoneRoutePub = b.grant.phoneRoutePub ∧ a.grant.holderRelayId = b.grant.holderRelayId

/-- The step leaves every holder its entry, until the lease has lapsed or the
holder itself releases it. -/
def KeepsHolder (s : Handling) (act : Act) : Prop :=
  ∀ host e h, s.ledger.entries.get? host = some e → e.holder = some h →
    (∃ e', (step s act).ledger.entries.get? host = some e' ∧ e'.holder = some h ∧
      e'.generation = e.generation) ∨
    e.leaseUntil ≤ s.clock ∨
    ∃ id k p, act = .finish id k ∧ s.pending.get? id = some p ∧ ReleasesOwn h p.sender p.request

/-- A request writes an entry back only while the entry is still what it read. -/
def Unmoved (s : Handling) : Act → Prop
  | .finish id k => ∀ p ∈ s.pending.get? id, ∀ r ∈ p.read,
    (judge k p.sender p.t s.clock r.2 p.request).write.isSome →
      s.ledger.entries.get? r.1 = some r.2
  | _ => True

instance (s : Handling) (act : Act) : Decidable (Unmoved s act) := by
  cases act <;> unfold Unmoved <;> infer_instance

/-- What the ledger and the grants it signed have to do with each other. -/
structure Coherent (s : Handling) : Prop where
  asked : ∀ id p, s.pending.get? id = some p → p.t ≤ s.clock
  hosts : ∀ id p host e, s.pending.get? id = some p → p.read = some (host,e) →
    ∃ k, lookup k p.request = .inr host
  named : ∀ x ∈ s.signed, x.grant.phoneRoutePub = x.holder.phoneRoutePub ∧
    x.grant.holderRelayId = x.holder.relayId
  latest : ∀ x ∈ s.signed, ∃ e, s.ledger.entries.get? x.grant.hostname = some e ∧
    x.grant.generation ≤ e.generation ∧
    (x.grant.generation = e.generation → e.holder = none ∨ e.holder = some x.holder)
  single : ∀ a ∈ s.signed, ∀ b ∈ s.signed, a.grant.hostname = b.grant.hostname →
    a.grant.generation = b.grant.generation → a.holder = b.holder

theorem Coherent.oneHolder {s : Handling} (c : Coherent s) : OneHolder s := by
  intro a ha b hb hh hg
  have he := c.single a ha b hb hh hg
  obtain ⟨hap,har⟩ := c.named a ha
  obtain ⟨hbp,hbr⟩ := c.named b hb
  exact ⟨he,by rw [hap,hbp,he],by rw [har,hbr,he]⟩

theorem new_coherent : Coherent Handling.new := by
  constructor <;> simp [Handling.new]

theorem entry_get? (l : Ledger) (host x : Text) (seen : Nat) :
    (l.entry host seen).1.entries.get? x =
      if x = host then some (l.entry host seen).2 else l.entries.get? x := by
  unfold Ledger.entry
  cases h : l.entries.get? host with
  | none => exact OrdMap.get?_set _ _ _ _
  | some e =>
    by_cases hx : x = host
    · simp [hx,h]
    · simp [hx]

/-- An entry that is there already is what a read returns. -/
theorem entry_of_get {l : Ledger} {host : Text} {e : Entry} (h : l.entries.get? host = some e)
    (seen : Nat) : l.entry host seen = (l,e) := by
  simp [Ledger.entry,h]

theorem read_coherent {s : Handling} (c : Coherent s) (id : Nat) (k : Knows) (seen : Nat) :
    Coherent (s.read id k seen) := by
  unfold Handling.read
  cases hp : s.pending.get? id with
  | none => exact c
  | some p =>
    simp only
    split
    · exact c
    cases hl : lookup k p.request with
    | inl answer =>
      refine ⟨?_,?_,c.named,c.latest,c.single⟩
      · intro i q hq
        rw [OrdMap.get?_erase] at hq
        split at hq
        · cases hq
        · exact c.asked i q hq
      · intro i q host e hq
        rw [OrdMap.get?_erase] at hq
        split at hq
        · cases hq
        · exact c.hosts i q host e hq
    | inr host =>
      refine ⟨?_,?_,c.named,?_,c.single⟩
      · intro i q hq
        rw [OrdMap.get?_set] at hq
        split at hq
        · cases hq
          exact c.asked id p hp
        · exact c.asked i q hq
      · intro i q x e hq hr
        rw [OrdMap.get?_set] at hq
        split at hq
        · cases hq
          cases hr
          exact ⟨k,hl⟩
        · exact c.hosts i q x e hq hr
      · intro x hx
        obtain ⟨e,he,hle,hsame⟩ := c.latest x hx
        refine ⟨e,?_,hle,hsame⟩
        simp only [entry_get?]
        split
        · rename_i hh
          rw [← hh,entry_of_get he]
        · exact he

/-- A finished request writes nothing, or one of the three. -/
theorem finish_cases (s : Handling) (id : Nat) (k : Knows) :
    s.finish id k = s ∨
    ∃ p host e, s.pending.get? id = some p ∧ p.read = some (host,e) ∧
      ((s.finish id k = { s with pending := s.pending.erase id, signed := s.signed ++ [] }) ∨
      ∃ next, (judge k p.sender p.t s.clock e p.request).write = some next ∧
        Writes k p.sender p.t s.clock e p.request next ∧
        s.finish id k = { s with
          ledger := s.ledger.setEntry host next
          pending := s.pending.erase id
          signed := s.signed ++ (signedBy (judge k p.sender p.t s.clock e p.request)).toList }) := by
  unfold Handling.finish
  cases hp : s.pending.get? id with
  | none => exact Or.inl rfl
  | some p =>
    simp only
    cases hr : p.read with
    | none => exact Or.inl rfl
    | some r =>
      obtain ⟨host,e⟩ := r
      refine Or.inr ⟨p,host,e,rfl,hr,?_⟩
      simp only
      cases hw : (judge k p.sender p.t s.clock e p.request).write with
      | none => exact Or.inl (by simp [signedBy,hw])
      | some next => exact Or.inr ⟨next,rfl,judge_writes hw,rfl⟩

/-- A signed grant names the holder written with it, on the host it was read for. -/
theorem signedBy_spec {k : Knows} {sender : Text} {t now : Nat} {e next : Entry} {r : Request}
    {x : Signed} (hw : (judge k sender t now e r).write = some next)
    (hx : signedBy (judge k sender t now e r) = some x) :
    next.holder = some x.holder ∧ x.grant.generation = next.generation ∧
      x.grant.phoneRoutePub = x.holder.phoneRoutePub ∧ x.grant.holderRelayId = x.holder.relayId ∧
      ∀ k' host, lookup k' r = .inr host → x.grant.hostname = host := by
  -- both granting ways sign the entry they write, for the relay that asked
  have hgrant : ∀ {host : Text} {holder : Holder}, next.holder = some holder →
      holder.relayId = sender → (∀ k' y, lookup k' r = .inr y → y = host) →
      (judge k sender t now e r).answer = (signGrant k host next sender now).map .granted →
      next.holder = some x.holder ∧ x.grant.generation = next.generation ∧
      x.grant.phoneRoutePub = x.holder.phoneRoutePub ∧ x.grant.holderRelayId = x.holder.relayId ∧
      ∀ k' host, lookup k' r = .inr host → x.grant.hostname = host := by
    intro host holder hh hrelay hread hans
    cases hs : signGrant k host next sender now with
    | none => simp [signedBy,hw,hans,hs] at hx
    | some g =>
      simp only [signedBy,hw,hans,hs,Option.map_some,hh,Option.some.injEq] at hx
      subst hx
      obtain ⟨h',hh',hhost,hgen,hpub,hrel⟩ := signGrant_spec hs
      rw [hh] at hh'
      cases hh'
      refine ⟨hh,hgen,hpub,hrel.trans hrelay.symm,fun k' y hy => ?_⟩
      rw [hhost,hread k' y hy]
  cases judge_writes hw with
  | acquired host holder gen vacant who relay read answer => exact hgrant who relay read answer
  | renewed host holder gen who same relay read answer => exact hgrant same relay read answer
  | released holder gen who own left answer => simp [signedBy,hw,answer] at hx

/-- Every grant signed so far stays behind what is written, and a grant of the
written generation names the written holder. -/
theorem write_latest {k : Knows} {sender : Text} {t now : Nat} {e next : Entry} {r : Request}
    (hw : Writes k sender t now e r next) {gen : Nat} {holder : Holder} (hle : gen ≤ e.generation)
    (hsame : gen = e.generation → e.holder = none ∨ e.holder = some holder) :
    gen ≤ next.generation ∧
      (gen = next.generation → next.holder = none ∨ next.holder = some holder) := by
  cases hw with
  | acquired host h gen' vacant who relay read answer => exact ⟨by omega,fun he => by omega⟩
  | renewed host h gen' who same relay read answer =>
    refine ⟨by omega,fun he => ?_⟩
    rcases hsame (he.trans gen') with hn | hs
    · rw [who] at hn
      cases hn
    · rw [same,← who]
      exact Or.inr hs
  | released h gen' who own left answer => exact ⟨by omega,fun _ => Or.inl left⟩

theorem finish_coherent {s : Handling} (c : Coherent s) {id : Nat} {k : Knows}
    (hu : Unmoved s (.finish id k)) : Coherent (s.finish id k) := by
  rcases finish_cases s id k with hs | ⟨p,host,e,hp,hr,hs | ⟨next,hw,hwrites,hs⟩⟩
  · rw [hs]
    exact c
  all_goals
    have herase : ∀ i q, (s.pending.erase id).get? i = some q → s.pending.get? i = some q := by
      intro i q hq
      rw [OrdMap.get?_erase] at hq
      split at hq
      · cases hq
      · exact hq
  · rw [hs,List.append_nil]
    exact ⟨fun i q hq => c.asked i q (herase i q hq),
      fun i q x e' hq => c.hosts i q x e' (herase i q hq),c.named,c.latest,c.single⟩
  · have hget : s.ledger.entries.get? host = some e := hu p hp (host,e) hr (by simp [hw])
    obtain ⟨k',hk'⟩ := c.hosts id p host e hp hr
    -- the new grant, if there is one, is for this host and names the holder written
    have hnew : ∀ x, signedBy (judge k p.sender p.t s.clock e p.request) = some x →
        next.holder = some x.holder ∧ x.grant.generation = next.generation ∧
        x.grant.phoneRoutePub = x.holder.phoneRoutePub ∧ x.grant.holderRelayId = x.holder.relayId ∧
        x.grant.hostname = host := by
      intro x hx
      obtain ⟨hh,hg,hpub,hrel,hhost⟩ := signedBy_spec hw hx
      exact ⟨hh,hg,hpub,hrel,hhost k' host hk'⟩
    -- the grants signed before, seen from the entry written now
    have hold : ∀ x ∈ s.signed, x.grant.hostname = host → x.grant.generation ≤ next.generation ∧
        (x.grant.generation = next.generation →
          next.holder = none ∨ next.holder = some x.holder) := by
      intro x hx hhost
      obtain ⟨e',he',hle,hsame⟩ := c.latest x hx
      rw [hhost,hget] at he'
      cases he'
      exact write_latest hwrites hle hsame
    have hboth : ∀ a ∈ s.signed, ∀ b, signedBy (judge k p.sender p.t s.clock e p.request) = some b →
        a.grant.hostname = b.grant.hostname → a.grant.generation = b.grant.generation →
        a.holder = b.holder := by
      intro a ha b hb hh hg
      obtain ⟨hbh,hbg,_,_,hbhost⟩ := hnew b hb
      obtain ⟨_,hsame⟩ := hold a ha (hh.trans hbhost)
      rcases hsame (hg.trans hbg) with hn | hs'
      · rw [hbh] at hn
        cases hn
      · exact Option.some.inj (hs'.symm.trans hbh)
    rw [hs]
    refine ⟨fun i q hq => c.asked i q (herase i q hq),
      fun i q x e' hq => c.hosts i q x e' (herase i q hq),?_,?_,?_⟩
    · intro x hx
      rcases List.mem_append.mp hx with hx | hx
      · exact c.named x hx
      · obtain ⟨_,_,hpub,hrel,_⟩ := hnew x (Option.mem_toList.mp hx)
        exact ⟨hpub,hrel⟩
    · intro x hx
      simp only [Ledger.setEntry,OrdMap.get?_set]
      rcases List.mem_append.mp hx with hx | hx
      · by_cases hh : x.grant.hostname = host
        · rw [if_pos hh]
          exact ⟨next,rfl,hold x hx hh⟩
        · rw [if_neg hh]
          exact c.latest x hx
      · obtain ⟨hh,hg,_,_,hhost⟩ := hnew x (Option.mem_toList.mp hx)
        rw [if_pos hhost]
        exact ⟨next,rfl,hg.le,fun _ => Or.inr hh⟩
    · intro a ha b hb hh hg
      rcases List.mem_append.mp ha with ha | ha <;> rcases List.mem_append.mp hb with hb | hb
      · exact c.single a ha b hb hh hg
      · exact hboth a ha b (Option.mem_toList.mp hb) hh hg
      · exact (hboth b hb a (Option.mem_toList.mp ha) hh.symm hg.symm).symm
      · have ha := Option.mem_toList.mp ha
        rw [Option.mem_toList.mp hb] at ha
        cases ha
        rfl

theorem step_coherent {s : Handling} {act : Act} (c : Coherent s) (hu : Unmoved s act) :
    Coherent (step s act) := by
  cases act with
  | tick ms =>
    exact ⟨fun i q hq => (c.asked i q hq).trans (Nat.le_add_right _ _),c.hosts,c.named,c.latest,
      c.single⟩
  | ask id request sender =>
    simp only [step,Handling.ask]
    split
    · exact c
    · refine ⟨?_,?_,c.named,c.latest,c.single⟩
      · intro i q hq
        rw [OrdMap.get?_set] at hq
        split at hq
        · cases hq
          exact le_refl _
        · exact c.asked i q hq
      · intro i q host e hq hr
        rw [OrdMap.get?_set] at hq
        split at hq
        · cases hq
          cases hr
        · exact c.hosts i q host e hq hr
  | read id k seen => exact read_coherent c id k seen
  | finish id k => exact finish_coherent c hu

theorem step_keepsHolder {s : Handling} {act : Act} (c : Coherent s) (hu : Unmoved s act) :
    KeepsHolder s act := by
  intro host e h he hh
  have hsame : ∀ {s' : Handling}, s'.ledger.entries.get? host = some e →
      ∃ e', s'.ledger.entries.get? host = some e' ∧ e'.holder = some h ∧
        e'.generation = e.generation := fun hg => ⟨e,hg,hh,rfl⟩
  cases act with
  | tick ms => exact Or.inl (hsame he)
  | ask id request sender =>
    refine Or.inl (hsame ?_)
    simp only [step,Handling.ask]
    split <;> exact he
  | read id k seen =>
    refine Or.inl (hsame ?_)
    simp only [step,Handling.read]
    cases hp : s.pending.get? id with
    | none => exact he
    | some p =>
      simp only
      split
      · exact he
      cases hl : lookup k p.request with
      | inl answer => exact he
      | inr x =>
        simp only [entry_get?]
        split
        · rename_i hx
          rw [← hx,entry_of_get he]
        · exact he
  | finish id k =>
    rw [step]
    rcases finish_cases s id k with hs | ⟨p,x,e0,hp,hr,hs | ⟨next,hw,hwrites,hs⟩⟩
    · rw [hs]
      exact Or.inl (hsame he)
    · exact Or.inl (hsame (hs ▸ he))
    · by_cases hx : host = x
      · subst hx
        have hget : s.ledger.entries.get? host = some e0 := hu p hp (host,e0) hr (by simp [hw])
        rw [he] at hget
        cases hget
        rw [hs]
        simp only [Ledger.setEntry,OrdMap.get?_set_self]
        cases hwrites with
        | acquired _ holder gen vacant who relay read answer =>
          exact Or.inr (Or.inl ((vacant_of_live vacant hh).trans (c.asked id p hp)))
        | renewed _ holder gen who same relay read answer =>
          rw [hh] at who
          cases who
          exact Or.inl ⟨next,rfl,same,gen⟩
        | released holder gen who own left answer =>
          rw [hh] at who
          cases who
          exact Or.inr (Or.inr ⟨id,k,p,rfl,hp,own⟩)
      · refine Or.inl (hsame ?_)
        rw [hs]
        exact (OrdMap.get?_set_ne hx).trans he

/-- However the requests of a ledger relay interleave, as long as none writes an
entry back that another has moved meanwhile, one generation of a hostname has
one holder, and no holder loses its entry before its lease lapses or it
releases it. -/
theorem one_holder_per_generation (acts : List Act)
    (hu : Along step Unmoved Handling.new acts) :
    OneHolder (run step Handling.new acts) ∧
    ∀ before act after, acts = before ++ act :: after →
      KeepsHolder (run step Handling.new before) act := by
  have hc : ∀ acts, Along step Unmoved Handling.new acts →
      Coherent (run step Handling.new acts) :=
    fun _ h => h.invariant (fun _ _ => step_coherent) new_coherent
  refine ⟨(hc acts hu).oneHolder,?_⟩
  rintro before act after rfl
  obtain ⟨hbefore,hact,_⟩ := along_append.mp hu
  exact step_keepsHolder (hc before hbefore) hact

/-- Alice's phone, known by the repeated digit of its key, claims its bare name
through a relay. -/
def claimBy (digit : Char) (relay : String) (generation : Nat) : Request :=
  let key := List.replicate 64 digit
  let grant : PhoneItemGrant :=
    ⟨"g1".toList,"alice".toList,"d1".toList,key,["admin".toList],0,1000000,[],"admin-root".toList⟩
  .claim "alice.flagship.services".toList generation ⟨relay.toList,[digit],key⟩
    (some ⟨"alice".toList,key,"alice.flagship.services".toList,generation,[],0⟩) key (some [grant])

/-- Alice's ledger relay; a signature is taken to be good under the key it spells. -/
def aliceLedger : Knows where
  relayId := "iad1".toList
  apex := "flagship.services".toList
  verifyCanonical := fun _ signature key => decide (signature = key)
  eligible := fun grants account key t => grants.any (fun g =>
    decide (g.username = account ∧ g.devicePubHex = key ∧ t < g.expiresAt))
  mayLead := fun account => decide (account = "alice".toList)
  leads := fun account => decide (account = "alice".toList)

/-- Two phones claim one after the other; the second is refused. -/
theorem one_holder_per_generation_in_turn :
    OneHolder (run step Handling.new
      [.ask 1 (claimBy 'a' "iad1" 1) "iad1".toList, .read 1 aliceLedger 0, .finish 1 aliceLedger,
        .ask 2 (claimBy 'b' "ams1" 1) "ams1".toList, .read 2 aliceLedger 0,
        .finish 2 aliceLedger]) ∧
    (run step Handling.new
      [.ask 1 (claimBy 'a' "iad1" 1) "iad1".toList, .read 1 aliceLedger 0, .finish 1 aliceLedger,
        .ask 2 (claimBy 'b' "ams1" 1) "ams1".toList, .read 2 aliceLedger 0,
        .finish 2 aliceLedger]).signed.length = 1 :=
  ⟨(one_holder_per_generation _ (by decide +kernel)).1,by decide +kernel⟩

/-- Two phones claim at once: both requests read the vacant entry before either
writes, and both are granted generation 1. -/
theorem concurrent_claims_share_generation :
    ¬ OneHolder (run step Handling.new
      [.ask 1 (claimBy 'a' "iad1" 1) "iad1".toList, .ask 2 (claimBy 'b' "ams1" 1) "ams1".toList,
        .read 1 aliceLedger 0, .read 2 aliceLedger 0, .finish 1 aliceLedger,
        .finish 2 aliceLedger]) := by
  intro h
  unfold OneHolder at h
  revert h
  decide +kernel

open Store

/-- The store holds an item of this generation for the host, or remembers that
some ledger relay signed it. -/
def Remembers (s : Store) (host : Text) (n : Nat) : Prop :=
  (∃ i ∈ (s.phones.get? host).getD [], i.grant.generation = n) ∨
    ∃ ledger last, ((s.generations.get? host).getD ∅).get? ledger = some (n,last)

theorem le_foldl_max {ns : List Nat} {n b : Nat} (h : n ∈ ns ∨ n ≤ b) : n ≤ ns.foldl max b := by
  induction ns generalizing b with
  | nil => simpa using h
  | cons m ms ih =>
    apply ih
    rcases h with h | h
    · rcases List.mem_cons.mp h with rfl | h
      · exact Or.inr (le_max_right _ _)
      · exact Or.inl h
    · exact Or.inr (h.trans (le_max_left _ _))

theorem Remembers.le_max {s : Store} {host : Text} {n : Nat} (h : Remembers s host n) :
    n ≤ s.maxPhoneGeneration host := by
  unfold maxPhoneGeneration
  rcases h with ⟨i,hi,rfl⟩ | ⟨ledger,last,hg⟩
  · refine le_trans ?_ (le_max_left _ _)
    rw [← List.foldl_map]
    exact le_foldl_max (Or.inl (List.mem_map.mpr ⟨i,hi,rfl⟩))
  · refine le_trans ?_ (le_max_right _ _)
    exact le_foldl_max (Or.inl (List.mem_map.mpr
      ⟨(ledger,(n,last)),(OrdMap.mem_entries _).mpr hg,rfl⟩))

/-- A claim the step grants, if it is one, is granted a generation above all the
store has seen for the hostname. -/
def Fenced (s : LedgerRelay) : RelayOp → Prop
  | .answer k (.claim hostname generation holder claim signature grants) sender =>
    ∀ g, (s.answer k (.claim hostname generation holder claim signature grants) sender).2 =
        some (.granted g) →
      g.hostname = hostname ∧ s.store.maxPhoneGeneration hostname < g.generation ∧
        ∀ n, Remembers s.store hostname n → n < g.generation
  | _ => True

/-- A claim is answered while the ledger's entry, if there is one, has caught up
with the store. -/
def CaughtUp (s : LedgerRelay) : RelayOp → Prop
  | .answer _ (.claim hostname _ _ _ _ _) _ => ∀ e ∈ s.ledger.entries.get? hostname,
    s.store.maxPhoneGeneration hostname ≤ e.generation
  | _ => True

instance (s : LedgerRelay) (op : RelayOp) : Decidable (CaughtUp s op) := by
  cases op with
  | answer k request sender => cases request <;> unfold CaughtUp <;> infer_instance
  | _ => exact isTrue trivial

/-- A granted claim writes the next generation of the entry it read. -/
theorem claim_granted {k : Knows} {sender hostname signature : Text} {t now generation : Nat}
    {e : Entry} {holder : Holder} {claim : Option RouteClaim} {grants : Option (List PhoneItemGrant)}
    {g : PhoneRouteGrant}
    (h : (judge k sender t now e (.claim hostname generation holder claim signature grants)).answer =
      some (.granted g)) : g.hostname = hostname ∧ g.generation = e.generation + 1 := by
  simp only [judge] at h
  split at h
  · cases h
  split at h
  · cases h
  split at h
  · cases h
  rename_i next hn
  obtain ⟨x,hx,he⟩ := Option.map_eq_some_iff.mp h
  cases he
  obtain ⟨hgen,_,rfl⟩ := ledgerAcquire_spec hn
  obtain ⟨_,_,hhost,hg,_⟩ := signGrant_spec hx
  exact ⟨hhost,hg.trans hgen⟩

theorem caughtUp_fenced {s : LedgerRelay} {op : RelayOp} (hc : CaughtUp s op) : Fenced s op := by
  cases op with
  | answer k request sender =>
    cases request with
    | claim hostname generation holder claim signature grants =>
      intro g hg
      simp only [LedgerRelay.answer,ledgerAnswer,lookup] at hg
      obtain ⟨hhost,hgen⟩ := claim_granted hg
      have hmax : s.store.maxPhoneGeneration hostname < g.generation := by
        rw [hgen]
        cases hget : s.ledger.entries.get? hostname with
        | none => simp [Ledger.entry,hget]
        | some e =>
          rw [entry_of_get hget]
          exact Nat.lt_succ_of_le (hc e hget)
      exact ⟨hhost,hmax,fun n hn => hn.le_max.trans_lt hmax⟩
    | begin | renew | release => exact trivial
  | _ => exact trivial

section
variable [Sha256]

/-- In every run whose claims find the ledger caught up with the store, every
claim is granted a generation above all the store had seen by then. -/
theorem granted_above_seen (selfId apex : Text) (caps : Caps) (ops : List RelayOp)
    (hc : Along LedgerRelay.step CaughtUp (LedgerRelay.new selfId apex caps) ops) :
    ∀ before op after, ops = before ++ op :: after →
      Fenced (run LedgerRelay.step (LedgerRelay.new selfId apex caps) before) op := by
  rintro before op after rfl
  exact caughtUp_fenced (along_append.mp hc).2.1

/-- A phone item with a generation of Alice's name, signed by another ledger relay. -/
def itemOf (generation : Nat) : PhoneItem where
  grant := ⟨"alice.flagship.services".toList,List.replicate 64 'c',generation,"ams1".toList,
    "fra1".toList,0,60000⟩
  signature := []
  claim := ⟨"alice".toList,List.replicate 64 'c',"alice.flagship.services".toList,generation,[],0⟩
  claimSignature := []
  grants := []

end

local instance nameAsHash : Sha256 := ⟨id⟩

/-- A relay that takes the lead after another ledger signed generation 4. -/
theorem granted_above_seen_takeover :
    Fenced (run LedgerRelay.step (LedgerRelay.new "iad1".toList "flagship.services".toList defaultCaps)
      [.insertPhone (itemOf 4)]) (.answer aliceLedger (claimBy 'a' "iad1" 5) "iad1".toList) :=
  granted_above_seen _ _ _
    [.insertPhone (itemOf 4), .answer aliceLedger (claimBy 'a' "iad1" 5) "iad1".toList]
    (by decide +kernel) [.insertPhone (itemOf 4)] _ [] rfl

/-- A relay that led, learns that another ledger has gone on to generation 900,
and leads again: it grants generation 2. -/
theorem regained_lead_reissues :
    ¬ Fenced (run LedgerRelay.step
      (LedgerRelay.new "iad1".toList "flagship.services".toList defaultCaps)
      [.answer aliceLedger (claimBy 'a' "iad1" 1) "iad1".toList, .tick 60000,
        .insertPhone (itemOf 900)]) (.answer aliceLedger (claimBy 'a' "iad1" 2) "iad1".toList) := by
  intro h
  have hgrant : ∃ g, ((run LedgerRelay.step
      (LedgerRelay.new "iad1".toList "flagship.services".toList defaultCaps)
      [.answer aliceLedger (claimBy 'a' "iad1" 1) "iad1".toList, .tick 60000,
        .insertPhone (itemOf 900)]).answer aliceLedger (claimBy 'a' "iad1" 2) "iad1".toList).2 =
          some (.granted g) ∧ g.generation = 2 := by
    refine ⟨⟨"alice.flagship.services".toList,List.replicate 64 'a',2,"iad1".toList,
      "iad1".toList,60000,120000⟩,?_,rfl⟩
    decide +kernel
  obtain ⟨g,hg,hgen⟩ := hgrant
  have hmax := (h g hg).2.1
  rw [hgen] at hmax
  exact absurd hmax (by decide +kernel)

end Flagship.Mesh.Proofs

import Flagship.Access.Proofs.Removals
import Flagship.Mesh.Proofs.OneHolder

namespace Flagship.Mesh
open Lib

/-- The lease given at a time ends at a number both ledgers hold. -/
def LeaseFits (now : Nat) : Prop :=
  PhoneRoute.numberAdd now PhoneRoute.phoneRouteLeaseMs = saturatingAdd now leaseMs

instance (now : Nat) : Decidable (LeaseFits now) := inferInstanceAs (Decidable (_ = _))

/-- No id of the holder is over sixty-four bytes and not over sixty-four UTF-16
units, unless something else is wrong with the request; and a lease it gives ends
at a number both ledgers hold. -/
def Ported (e : Entry) : LedgerRequest → Prop
  | .acquire generation holder now =>
    (1 ≤ generation → generation ≤ maxSafeInteger → PhoneRoute.validHolder holder = true →
      byteLen holder.relayId ≤ 64 ∧ byteLen holder.sessionId ≤ 64) ∧
    (generation ≤ maxSafeInteger → validHolder holder = true → (live e now).holder = none →
      generation = e.generation + 1 → LeaseFits now)
  | .renew generation sessionId now =>
    generation = e.generation → e.holder.any (fun h => decide (h.sessionId = sessionId)) = true →
      now < e.leaseUntil → LeaseFits now
  | .release _ _ => True

namespace Proofs
open PhoneRoute (utf16Len numberAdd)

theorem le_f64OfNat (n : Nat) : 2 ^ n.log2 ≤ Access.f64OfNat n ∨ n = 0 := by
  by_cases h0 : n = 0
  · exact Or.inr h0
  refine Or.inl ?_
  unfold Access.f64OfNat
  simp only
  have hself : 2 ^ n.log2 ≤ n := Nat.log2_self_le h0
  have hdiv : 2 ^ n.log2 ≤ n / 2 ^ (n.log2 - 52) * 2 ^ (n.log2 - 52) := by
    have hpow : 2 ^ (n.log2 - (n.log2 - 52)) * 2 ^ (n.log2 - 52) = 2 ^ n.log2 := by
      rw [← Nat.pow_add]
      congr 1
      omega
    have hle : 2 ^ (n.log2 - (n.log2 - 52)) ≤ n / 2 ^ (n.log2 - 52) := by
      rw [Nat.le_div_iff_mul_le (Nat.two_pow_pos _),hpow]
      exact hself
    calc 2 ^ n.log2 = 2 ^ (n.log2 - (n.log2 - 52)) * 2 ^ (n.log2 - 52) := hpow.symm
      _ ≤ _ := Nat.mul_le_mul_right _ hle
  refine hdiv.trans (Nat.mul_le_mul_right _ ?_)
  omega

/-- The next generation is the same number where a claim can name it. -/
theorem next_generation {g generation : Nat} (hsafe : generation ≤ maxSafeInteger) :
    generation = numberAdd g 1 ↔ generation = g + 1 := by
  unfold numberAdd
  by_cases h : g + 1 ≤ maxSafeInteger
  · rw [Access.f64OfNat_of_safe h]
  · have hbig : 2 ^ 53 ≤ Access.f64OfNat (g + 1) := by
      rcases le_f64OfNat (g + 1) with hle | hzero
      · refine le_trans (Nat.pow_le_pow_right (by decide) ?_) hle
        rw [Nat.le_log2 (by omega)]
        unfold maxSafeInteger at h
        omega
      · omega
    unfold maxSafeInteger at hsafe h
    constructor
    · intro heq
      omega
    · intro heq
      omega

theorem units_le_bytes (c : Char) :
    1 ≤ (if c.toNat < 0x10000 then 1 else 2) ∧
      (if c.toNat < 0x10000 then 1 else 2) ≤ c.utf8Size ∧ 1 ≤ c.utf8Size := by
  have hpos := Char.utf8Size_pos c
  refine ⟨by split <;> omega,?_,hpos⟩
  split
  · exact hpos
  · rename_i hbig
    unfold Char.utf8Size
    have hn : c.toNat = c.val.toNat := rfl
    have h1 : (UInt32.ofNatLT 0x7F (by decide)).toNat = 0x7F := rfl
    have h2 : (UInt32.ofNatLT 0x7FF (by decide)).toNat = 0x7FF := rfl
    have h3 : (UInt32.ofNatLT 0xFFFF (by decide)).toNat = 0xFFFF := rfl
    rw [if_neg,if_neg,if_neg]
    · omega
    all_goals
      rw [UInt32.le_iff_toNat_le]
      omega

theorem utf16Len_le (s : Text) : utf16Len s ≤ byteLen s ∧ (0 < utf16Len s ↔ 1 ≤ byteLen s) := by
  unfold utf16Len byteLen
  induction s with
  | nil => simp
  | cons c s ih =>
    obtain ⟨h1,h2,h3⟩ := units_le_bytes c
    simp only [List.map_cons,List.sum_cons]
    omega

theorem validHolder_port (h : Holder) : validHolder h = true ↔
    PhoneRoute.validHolder h = true ∧ byteLen h.relayId ≤ 64 ∧ byteLen h.sessionId ≤ 64 := by
  have hr := utf16Len_le h.relayId
  have hs := utf16Len_le h.sessionId
  simp only [validHolder,PhoneRoute.validHolder,Bool.and_eq_true,decide_eq_true_eq]
  constructor
  · rintro ⟨⟨hr',hs'⟩,hx⟩
    exact ⟨⟨⟨⟨⟨by omega,by omega⟩,by omega⟩,by omega⟩,hx⟩,hr'.2,hs'.2⟩
  · rintro ⟨⟨⟨⟨⟨h1,_⟩,h3⟩,_⟩,hx⟩,hr',hs'⟩
    exact ⟨⟨⟨by omega,hr'⟩,⟨by omega,hs'⟩⟩,hx⟩

theorem saturating_generation {g generation : Nat} (hsafe : generation ≤ maxSafeInteger) :
    generation = saturatingAdd g 1 ↔ generation = g + 1 := by
  unfold saturatingAdd
  unfold maxSafeInteger at hsafe
  omega

/-- The acquire of both ledgers where the request is well formed to both. -/
theorem acquire_ported {e : Entry} {generation : Nat} {holder : Holder} {now : Nat}
    (hrange : 1 ≤ generation ∧ generation ≤ maxSafeInteger) (hvalid : validHolder holder = true) :
    PhoneRoute.ledgerAcquire e generation holder now =
        LedgerRequest.result e (ledgerAcquire e generation holder now) ↔
      ((live e now).holder = none → generation = e.generation + 1 → LeaseFits now) := by
  have hport := ((validHolder_port holder).mp hvalid).1
  have hok : ¬ (¬ (1 ≤ generation ∧ generation ≤ maxSafeInteger) ∨ validHolder holder = false) := by
    simp [hrange,hvalid]
  have hok' : ¬ (¬ generation ≤ maxSafeInteger ∨ generation < 1 ∨
      PhoneRoute.validHolder holder = false) := by
    simp only [hport,Bool.true_eq_false,or_false,not_or]
    omega
  unfold PhoneRoute.ledgerAcquire ledgerAcquire
  rw [if_neg hok,if_neg hok']
  by_cases hlive : (live e now).holder.isSome = true
  · rw [if_pos hlive,if_pos (show (PhoneRoute.liveEntry e now).holder.isSome = true from hlive)]
    refine ⟨fun _ hnone => ?_,fun _ => rfl⟩
    rw [hnone] at hlive
    cases hlive
  · rw [if_neg hlive,if_neg (show ¬ (PhoneRoute.liveEntry e now).holder.isSome = true from hlive)]
    have hnone : (live e now).holder = none := by simpa using hlive
    by_cases hgen : generation = e.generation + 1
    · rw [if_neg (not_not.mpr ((next_generation hrange.2).mpr hgen)),
        if_neg (not_not.mpr ((saturating_generation hrange.2).mpr hgen))]
      simp only [LedgerRequest.result,PhoneRoute.LedgerResult.ok.injEq,Entry.mk.injEq,true_and]
      exact ⟨fun h _ _ => h,fun h => h hnone hgen⟩
    · rw [if_pos (mt (next_generation hrange.2).mp hgen),
        if_pos (mt (saturating_generation hrange.2).mp hgen)]
      exact ⟨fun _ _ h => absurd h hgen,fun _ => rfl⟩

/-- The two ledgers answer a request alike exactly when it is ported. -/
theorem applyPort_iff (e : Entry) (r : LedgerRequest) :
    r.applyPort e = LedgerRequest.result e (r.apply e) ↔ Ported e r := by
  cases r with
  | acquire generation holder now =>
    simp only [LedgerRequest.applyPort,LedgerRequest.apply,Ported]
    by_cases hrange : 1 ≤ generation ∧ generation ≤ maxSafeInteger
    · by_cases hport : PhoneRoute.validHolder holder = true
      · by_cases hbytes : byteLen holder.relayId ≤ 64 ∧ byteLen holder.sessionId ≤ 64
        · have hvalid := (validHolder_port holder).mpr ⟨hport,hbytes⟩
          rw [acquire_ported hrange hvalid]
          exact ⟨fun h => ⟨fun _ _ _ => hbytes,fun _ _ => h⟩,fun h => h.2 hrange.2 hvalid⟩
        · -- too long for one ledger only
          have hvalid : validHolder holder = false := by
            rw [← Bool.not_eq_true]
            exact fun h => hbytes ((validHolder_port holder).mp h).2
          refine ⟨fun h => ?_,fun h => absurd (h.1 hrange.1 hrange.2 hport) hbytes⟩
          have hok : ¬ (¬ generation ≤ maxSafeInteger ∨ generation < 1 ∨
              PhoneRoute.validHolder holder = false) := by
            simp only [hport,Bool.true_eq_false,or_false,not_or]
            omega
          unfold PhoneRoute.ledgerAcquire ledgerAcquire at h
          rw [if_neg hok,if_pos (Or.inr hvalid)] at h
          split at h
          · cases h
          · split at h <;> cases h
      · have hvalid : validHolder holder = false := by
          rw [← Bool.not_eq_true]
          exact fun h => hport ((validHolder_port holder).mp h).1
        refine ⟨fun _ => ⟨fun _ _ h => absurd h hport,fun _ h => ?_⟩,fun _ => ?_⟩
        · rw [hvalid] at h
          cases h
        · unfold PhoneRoute.ledgerAcquire ledgerAcquire
          rw [if_pos (Or.inr hvalid),if_pos (Or.inr (Or.inr (Bool.eq_false_iff.mpr hport)))]
          rfl
    · refine ⟨fun _ => ⟨fun h1 h2 => absurd ⟨h1,h2⟩ hrange,fun h2 _ _ h1 => ?_⟩,fun _ => ?_⟩
      · exact absurd ⟨by omega,h2⟩ hrange
      · unfold PhoneRoute.ledgerAcquire ledgerAcquire
        rw [if_pos (Or.inl hrange),if_pos (by omega)]
        rfl
  | renew generation sessionId now =>
    simp only [LedgerRequest.applyPort,LedgerRequest.apply,Ported,PhoneRoute.ledgerRenew,ledgerRenew]
    by_cases hgen : generation = e.generation
    · rw [if_neg (not_not.mpr hgen),if_neg (not_not.mpr hgen)]
      by_cases hall : e.holder.all (fun h => decide (h.sessionId ≠ sessionId)) = true
      · rw [if_pos hall,if_pos hall]
        refine ⟨fun _ _ hany => ?_,fun _ => rfl⟩
        obtain ⟨h,hh,hs⟩ := (Option.any_eq_true _ _).mp hany
        simp [hh] at hall hs
        exact absurd hs hall
      · rw [if_neg hall,if_neg hall]
        obtain ⟨h,hh,hs⟩ := session_of_all hall
        by_cases hexp : e.leaseUntil ≤ now
        · rw [if_pos hexp,if_pos hexp]
          exact ⟨fun _ _ _ hlt => by omega,fun _ => rfl⟩
        · rw [if_neg hexp,if_neg hexp]
          simp only [LedgerRequest.result,PhoneRoute.LedgerResult.ok.injEq,Entry.mk.injEq,true_and]
          exact ⟨fun h _ _ _ => h,fun h' => h' hgen (by simp [hh,hs]) (by omega)⟩
    · rw [if_pos hgen,if_pos hgen]
      exact ⟨fun _ h => absurd h hgen,fun _ => rfl⟩
  | release generation sessionId =>
    simp only [LedgerRequest.applyPort,LedgerRequest.apply,Ported,PhoneRoute.ledgerRelease,
      ledgerRelease,iff_true]
    split
    · rfl
    · split <;> rfl

/-- What a request that succeeds did. -/
theorem succeeds_cases {e : Entry} {r : LedgerRequest} (h : r.succeeds e = true) :
    (∃ generation holder now, r = .acquire generation holder now ∧ generation = e.generation + 1 ∧
      (live e now).holder = none ∧ r.next e = ⟨generation,some holder,saturatingAdd now leaseMs⟩) ∨
    (∃ holder now, r = .renew e.generation holder.sessionId now ∧ e.holder = some holder ∧
      now < e.leaseUntil ∧ r.next e = { e with leaseUntil := saturatingAdd now leaseMs }) ∨
    ∃ holder, r = .release e.generation holder.sessionId ∧ e.holder = some holder ∧
      r.next e = ⟨e.generation,none,0⟩ := by
  unfold LedgerRequest.succeeds at h
  split at h
  · rename_i e' happly
    have hnext : r.next e = e' := by
      unfold LedgerRequest.next
      rw [happly]
    rw [hnext]
    cases r with
    | acquire generation holder now =>
      obtain ⟨hgen,hlive,hn⟩ := ledgerAcquire_spec happly
      exact Or.inl ⟨generation,holder,now,rfl,hgen,hlive,hn⟩
    | renew generation sessionId now =>
      simp only [LedgerRequest.apply,ledgerRenew] at happly
      split at happly
      · cases happly
      rename_i hgen
      split at happly
      · cases happly
      rename_i hall
      split at happly
      · cases happly
      rename_i hexp
      obtain ⟨holder,hh,rfl⟩ := session_of_all hall
      obtain rfl := not_not.mp hgen
      cases happly
      exact Or.inr (Or.inl ⟨holder,now,rfl,hh,by omega,rfl⟩)
    | release generation sessionId =>
      have hgen : generation = e.generation := by
        simp only [LedgerRequest.apply,ledgerRelease] at happly
        split at happly
        · cases happly
        · rename_i hgen
          exact not_not.mp hgen
      obtain ⟨hn,holder,hh,rfl⟩ := ledgerRelease_spec happly
      subst hgen
      exact Or.inr (Or.inr ⟨holder,rfl,hh,hn⟩)
  · cases h

theorem next_of_failed {e : Entry} {r : LedgerRequest} (h : r.succeeds e = false) :
    r.next e = e := by
  unfold LedgerRequest.succeeds at h
  unfold LedgerRequest.next
  split at h
  · cases h
  · rfl

/-- A generation is new with each acquire, and stays otherwise. -/
theorem next_generation_eq (e : Entry) (r : LedgerRequest) : (r.next e).generation =
    e.generation + if r.acquirer.isSome ∧ r.succeeds e = true then 1 else 0 := by
  by_cases h : r.succeeds e = true
  · rcases succeeds_cases h with ⟨_,_,_,rfl,rfl,_,hn⟩ | ⟨_,_,rfl,_,_,hn⟩ | ⟨_,rfl,_,hn⟩
    · rw [hn,if_pos ⟨rfl,h⟩]
    · rw [hn,if_neg fun hc => by cases hc.1]
      rfl
    · rw [hn,if_neg fun hc => by cases hc.1]
      rfl
  · rw [next_of_failed (Bool.eq_false_iff.mpr h),if_neg fun hc => h hc.2,add_zero]

/-- The request gives the route up. -/
def GivesUp (e : Entry) (r : LedgerRequest) : Prop := r.isRelease = true ∧ r.succeeds e = true

/-- A lease that is not given up lasts through what comes before its end. -/
theorem lease_lasts {u : Nat} (rs : List LedgerRequest) {e : Entry} (hheld : e.holder.isSome = true)
    (hu : u ≤ e.leaseUntil) (hno : Along LedgerRequest.next (fun e r => ¬ GivesUp e r) e rs)
    (hin : ∀ t ∈ rs.filterMap LedgerRequest.time, t < u ∧ u ≤ saturatingAdd t leaseMs) :
    (run LedgerRequest.next e rs).holder.isSome = true ∧
      u ≤ (run LedgerRequest.next e rs).leaseUntil := by
  induction rs generalizing e with
  | nil => exact ⟨hheld,hu⟩
  | cons r rs ih =>
    have hrest : ∀ t ∈ rs.filterMap LedgerRequest.time, t < u ∧ u ≤ saturatingAdd t leaseMs := by
      intro t ht
      refine hin t ?_
      rw [List.filterMap_cons]
      split
      · exact ht
      · exact List.mem_cons_of_mem _ ht
    have hone : ∀ t, r.time = some t → t < u ∧ u ≤ saturatingAdd t leaseMs := by
      intro t ht
      exact hin t (by rw [List.filterMap_cons,ht]; exact List.mem_cons_self)
    have hstep : (r.next e).holder.isSome = true ∧ u ≤ (r.next e).leaseUntil := by
      by_cases hs : r.succeeds e = true
      · rcases succeeds_cases hs with ⟨_,_,now,rfl,_,hlive,hn⟩ | ⟨_,now,rfl,hh,_,hn⟩ | ⟨_,rfl,_,_⟩
        · -- nobody else gets in while the lease runs
          obtain ⟨h,hh⟩ := Option.isSome_iff_exists.mp hheld
          have := vacant_of_live hlive hh
          have := (hone now rfl).1
          omega
        · rw [hn]
          exact ⟨hheld,(hone now rfl).2⟩
        · exact absurd ⟨rfl,hs⟩ hno.1
      · rw [next_of_failed (Bool.eq_false_iff.mpr hs)]
        exact ⟨hheld,hu⟩
    exact ih hstep.1 hstep.2 hno.2 hrest

theorem acquiredBy_holder (rs : List LedgerRequest) {e : Entry} {who : Option Text}
    (hwho : ∀ h, e.holder = some h → who = some h.sessionId) :
    ∀ h, (run LedgerRequest.next e rs).holder = some h → acquiredBy e rs who = some h.sessionId := by
  induction rs generalizing e who with
  | nil => exact hwho
  | cons r rs ih =>
    refine ih fun h hh => ?_
    by_cases hs : r.succeeds e = true
    · rw [if_pos hs]
      rcases succeeds_cases hs with ⟨_,_,_,rfl,_,_,hn⟩ | ⟨_,_,rfl,_,_,hn⟩ | ⟨_,rfl,_,hn⟩
      · rw [hn] at hh
        cases hh
        rfl
      · rw [hn] at hh
        exact hwho h hh
      · rw [hn] at hh
        cases hh
    · rw [if_neg hs]
      rw [next_of_failed (Bool.eq_false_iff.mpr hs)] at hh
      exact hwho h hh

/-- One holder at a time on one entry, and two ledgers that agree exactly on the
requests that are ported. -/
theorem one_ledger_entry (e0 : Entry) (rs : List LedgerRequest)
    (htimes : (rs.filterMap LedgerRequest.time).Pairwise (· ≤ ·)) :
    Along LedgerRequest.next (fun e r => (r.next e).generation =
      e.generation + if r.acquirer.isSome ∧ r.succeeds e = true then 1 else 0) e0 rs ∧
    (∀ before r mid r' after t t', rs = before ++ r :: (mid ++ r' :: after) →
      r.succeeds (run LedgerRequest.next e0 before) = true → r.time = some t →
      Along LedgerRequest.next (fun e r => ¬ GivesUp e r)
        (run LedgerRequest.next e0 (before ++ [r])) mid →
      r'.acquirer.isSome = true → r'.time = some t' → t' < saturatingAdd t leaseMs →
      r'.succeeds (run LedgerRequest.next e0 (before ++ r :: mid)) = false) ∧
    (∀ before r after s, rs = before ++ r :: after →
      r.succeeds (run LedgerRequest.next e0 before) = true → r.session = some s →
      acquiredBy e0 before (e0.holder.map Holder.sessionId) = some s) ∧
    (Along LedgerRequest.next (fun e r => r.applyPort e = LedgerRequest.result e (r.apply e)) e0 rs ↔
      Along LedgerRequest.next Ported e0 rs) := by
  refine ⟨?_,?_,?_,?_⟩
  · rw [along_iff]
    exact fun _ _ _ _ => next_generation_eq _ _
  · intro before r mid r' after t t' heq hs ht hno hacq ht' hlt
    subst heq
    -- what comes in between is dated between the two
    have hsorted := htimes
    rw [List.filterMap_append,List.filterMap_cons_some ht,List.filterMap_append,
      List.filterMap_cons_some ht'] at hsorted
    have htail := (List.pairwise_append.mp hsorted).2.1
    obtain ⟨hafter,hmid⟩ := List.pairwise_cons.mp htail
    have hbetween : ∀ x ∈ mid.filterMap LedgerRequest.time, t ≤ x ∧ x ≤ t' := by
      intro x hx
      exact ⟨hafter x (List.mem_append_left _ hx),
        (List.pairwise_append.mp hmid).2.2 x hx t' List.mem_cons_self⟩
    have hgiven : (r.next (run LedgerRequest.next e0 before)).holder.isSome = true ∧
        (r.next (run LedgerRequest.next e0 before)).leaseUntil = saturatingAdd t leaseMs := by
      rcases succeeds_cases hs with ⟨_,_,_,rfl,_,_,hn⟩ | ⟨_,_,rfl,hh,_,hn⟩ | ⟨_,rfl,_,_⟩
      · cases ht
        rw [hn]
        exact ⟨rfl,rfl⟩
      · cases ht
        rw [hn]
        exact ⟨by rw [hh]; rfl,rfl⟩
      · cases ht
    rw [run_append,run_cons,run_nil] at hno
    obtain ⟨hheld,hlease⟩ := lease_lasts (u := saturatingAdd t leaseMs) mid hgiven.1 hgiven.2.ge hno
      fun x hx => by
        have := hbetween x hx
        simp only [saturatingAdd] at hlt ⊢
        omega
    rw [run_append,run_cons,← Bool.not_eq_true]
    intro hok
    rcases succeeds_cases hok with ⟨_,_,_,rfl,_,hlive,_⟩ | ⟨_,_,rfl,_,_,_⟩ | ⟨_,rfl,_,_⟩
    · cases ht'
      obtain ⟨h,hh⟩ := Option.isSome_iff_exists.mp hheld
      have := vacant_of_live hlive hh
      omega
    · cases hacq
    · cases hacq
  · intro before r after s _ hs hses
    have hwho : ∀ h, e0.holder = some h → e0.holder.map Holder.sessionId = some h.sessionId := by
      intro h hh
      rw [hh,Option.map_some]
    rcases succeeds_cases hs with ⟨_,_,_,rfl,_,_,_⟩ | ⟨h,_,rfl,hh,_,_⟩ | ⟨h,rfl,hh,_⟩
    · cases hses
    · cases hses
      exact acquiredBy_holder before hwho h hh
    · cases hses
      exact acquiredBy_holder before hwho h hh
  · exact along_congr (I := fun _ => True) (fun _ _ _ => trivial)
      (fun e r _ => applyPort_iff e r) trivial rs

/-- A phone behind one relay. -/
def phoneHolder (session : Text) : Holder := ⟨['r'],session,List.replicate 64 'a'⟩

theorem one_ledger_entry_two_sessions :
    (LedgerRequest.acquire 2 (phoneHolder ['b']) 59999).succeeds
      (run LedgerRequest.next ⟨0,none,0⟩ [.acquire 1 (phoneHolder ['a']) 0]) = false :=
  (one_ledger_entry ⟨0,none,0⟩
    [.acquire 1 (phoneHolder ['a']) 0,.acquire 2 (phoneHolder ['b']) 59999] (by decide)).2.1
    [] (.acquire 1 (phoneHolder ['a']) 0) [] (.acquire 2 (phoneHolder ['b']) 59999) [] 0 59999 rfl
    (by decide +kernel) rfl trivial rfl rfl (by decide)

/-- A session id of forty two-byte letters is too long for one ledger only. -/
theorem long_session_differs :
    (LedgerRequest.acquire 1 (phoneHolder (List.replicate 40 'é')) 0).apply ⟨0,none,0⟩ =
      .error .malformed ∧
    (LedgerRequest.acquire 1 (phoneHolder (List.replicate 40 'é')) 0).applyPort ⟨0,none,0⟩ =
      .ok ⟨1,some (phoneHolder (List.replicate 40 'é')),60000⟩ := by
  decide +kernel

end Proofs
end Flagship.Mesh

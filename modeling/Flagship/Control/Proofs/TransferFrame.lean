import Flagship.Control.Proofs.TransferClaims

namespace Flagship.Control.Proofs
open Lib

section
variable [Lowercase] {cfg : TransferConfig} {host : Text}

/-- The box being moved is the one of the offered name. -/
structure MovesFrom (cfg : TransferConfig) (host : Text) (m : Moving) : Prop where
  claimed : m.claim.host = host
  labels : splitPodCanonical host cfg.apex = some m.labels
  renamed : m.newDomain ≠ host

/-- A claim request for the name. -/
def ClaimsFrom (cfg : TransferConfig) (host : Text) : TransferProgress → Prop
  | .getOffer c _ => c.host = host
  | .collect c => c.host = host
  | .server c _ => c.host = host
  | .acquirer c _ => c.host = host
  | .claimRead c _ _ _ => c.host = host
  | .claimWrite c _ _ _ => c.host = host
  | .put m => MovesFrom cfg host m
  | .revoke m _ => MovesFrom cfg host m
  | .routing m _ => MovesFrom cfg host m
  | .registerRead m _ _ _ => MovesFrom cfg host m
  | .registerWrite m _ _ _ => MovesFrom cfg host m
  | .release m _ => MovesFrom cfg host m
  | .answered _ _ => True
  | .stopped _ => True
  | _ => False

theorem claimsFrom_start (now : Nat → Int) (claim : Option ClaimFields) :
    ClaimsFrom cfg host (startClaim cfg now host claim) := by
  cases claim with
  | none => trivial
  | some c =>
    simp only [startClaim]
    split_ifs <;> trivial

theorem claimsFrom_broken {p : TransferProgress} (hp : ClaimsFrom cfg host p)
    (outcome : Outcome) : ClaimsFrom cfg host (p.broken outcome) := by
  cases outcome <;> cases p <;> first | exact hp | trivial

theorem claimsFrom_checkLive {c : Claim} (hc : c.host = host) (time : Int)
    (offer : Option ServerTransferRecord) : ClaimsFrom cfg host (checkLive c time offer) := by
  cases offer with
  | none => trivial
  | some offer =>
    simp only [checkLive]
    split_ifs <;> first | exact hc | trivial

theorem claimsFrom_checkGiven {c : Claim} (hc : c.host = host) (offer : ServerTransferRecord)
    (reg : Option ServerRecord) : ClaimsFrom cfg host (checkGiven c offer reg) := by
  cases reg with
  | none => trivial
  | some reg =>
    simp only [checkGiven]
    split_ifs <;> first | exact hc | trivial

theorem claimsFrom_checkAcquirer {c : Claim} (hc : c.host = host) (now : Nat → Int)
    (outside : TransferElsewhere) (reg : ServerRecord) :
    ClaimsFrom cfg host (checkAcquirer now outside c reg) := by
  unfold checkAcquirer
  cases outside.account with
  | none => trivial
  | some account =>
    simp only
    split_ifs <;> first | exact hc | trivial

theorem claimsFrom_checkClaim {c : Claim} (hc : c.host = host) (reg : ServerRecord) (irk : Text)
    (time : Int) (offer : Option ServerTransferRecord) :
    ClaimsFrom cfg host (checkClaim c reg irk time offer) := by
  cases offer with
  | none => trivial
  | some offer =>
    simp only [checkClaim]
    split_ifs <;> first | exact hc | trivial

theorem claimsFrom_startMove {c : Claim} (hc : c.host = host) (reg : ServerRecord) :
    ClaimsFrom cfg host (startMove cfg c reg) := by
  subst hc
  rw [startMove]
  cases hlabels : splitPodCanonical c.host cfg.apex with
  | none => trivial
  | some labels =>
    simp only
    split_ifs with hsame
    · trivial
    · exact ⟨rfl,hlabels,hsame⟩

/-- A claim request stays one for its name. -/
theorem claimsFrom_serve {s : TransferProgress × TransferTables} (hs : ClaimsFrom cfg host s.1)
    (input : (Nat → Int) × TransferElsewhere) :
    ClaimsFrom cfg host (serveTransfer cfg s input).1 := by
  obtain ⟨p,t⟩ := s
  obtain ⟨now,outside⟩ := input
  by_cases hgoes : outside.outcome = .goes
  · simp only [serveTransfer,transferHandlers,hgoes]
    cases p with
    | getOffer c time => exact claimsFrom_checkLive hs time _
    | collect c => trivial
    | server c offer => exact claimsFrom_checkGiven hs offer _
    | acquirer c reg => exact claimsFrom_checkAcquirer hs now outside reg
    | claimRead c reg irk time => exact claimsFrom_checkClaim hs reg irk time _
    | claimWrite c reg irk time =>
      simp only [TransferProgress.call]
      split
      · split_ifs
        · trivial
        · exact claimsFrom_startMove hs reg
      · trivial
    | put m => exact hs
    | revoke m time => exact hs
    | routing m error =>
      simp only [TransferProgress.call]
      split
      · trivial
      · exact hs
    | registerRead m old time error =>
      simp only [TransferProgress.call]
      split
      · split_ifs <;> exact hs
      · exact hs
    | registerWrite m old time error => exact hs
    | release m error => trivial
    | answered c answer => trivial
    | stopped c => trivial
    | _ => exact hs.elim
  · simp only [serveTransfer,transferHandlers]
    exact claimsFrom_broken hs _

theorem OnlyOffered.refl (t : TransferTables) : OnlyOffered cfg host t t :=
  ⟨fun _ _ _ h => h,fun _ _ _ h => h⟩

theorem OnlyOffered.trans {a b c : TransferTables} (hab : OnlyOffered cfg host a b)
    (hbc : OnlyOffered cfg host b c) : OnlyOffered cfg host a c :=
  ⟨fun d r hd h => hbc.1 d r hd (hab.1 d r hd h),fun s r hs h => hbc.2 s r hs (hab.2 s r hs h)⟩

/-- The new row of the directory changes no other, unless one is under its name. -/
theorem onlyOffered_put {m : Moving} (hm : MovesFrom cfg host m) (t : TransferTables) :
    OnlyOffered cfg host t { t with servers := m.put t.servers } ↔
      ((t.servers m.newDomain).all fun r =>
        r == ⟨m.claim.acquirer,m.reg.identityPubKeyHex,m.reg.registeredAt,none,none⟩) = true := by
  constructor
  · intro h
    cases hr : t.servers m.newDomain with
    | none => rfl
    | some r =>
      have hkept := h.1 m.newDomain r hm.renamed hr
      simp only [Moving.put,Directory.put,Function.update_self,Option.some.injEq] at hkept
      rw [Option.all_some,beq_iff_eq,hkept]
  · intro h
    refine ⟨?_,fun _ _ _ hr => hr⟩
    intro d r _ hr
    by_cases hd : d = m.newDomain
    · subst hd
      rw [hr,Option.all_some,beq_iff_eq] at h
      rw [h]
      exact Function.update_self ..
    · exact (Function.update_of_ne hd _ _).trans hr

theorem onlyOffered_revoke {m : Moving} (hm : MovesFrom cfg host m) (t : TransferTables)
    (reason : String) (time : Int) : OnlyOffered cfg host t
      { t with servers := t.servers.revoke m.claim.host reason time } := by
  refine ⟨?_,fun _ _ _ hr => hr⟩
  intro d r hd hr
  rw [← hm.claimed] at hd
  exact (Function.update_of_ne hd _ _).trans hr

theorem onlyOffered_register {m : Moving} (hm : MovesFrom cfg host m) (t : TransferTables)
    (old : RoutingRecord) (time : Int) :
    OnlyOffered cfg host t { t with routing := registerRouting t.routing m old time } ↔
      (m.newSubdomain == m.oldSubdomain || (t.routing m.newSubdomain).all fun r =>
        r.rckPubKeyHex != old.rckPubKeyHex ||
          (r.username == m.claim.acquirer && r.registeredAt == old.registeredAt)) = true := by
  have hother : ∀ sub,(∀ labels,splitPodCanonical host cfg.apex = some labels →
      sub ≠ labels.server ++ '.' :: labels.user) ↔ sub ≠ m.oldSubdomain := by
    intro sub
    rw [hm.labels]
    exact ⟨fun h => h _ rfl,fun h labels hl => by cases hl; exact h⟩
  constructor
  · intro h
    rw [Bool.or_eq_true,beq_iff_eq]
    by_cases hsame : m.newSubdomain = m.oldSubdomain
    · exact Or.inl hsame
    · refine Or.inr ?_
      cases hr : t.routing m.newSubdomain with
      | none => rfl
      | some r =>
        have hkept := h.2 m.newSubdomain r ((hother _).mpr hsame) hr
        by_cases hrck : r.rckPubKeyHex = old.rckPubKeyHex
        · simp only [registerRouting,hr,if_pos hrck,Function.update_self,Option.some.injEq]
            at hkept
          rw [Option.all_some,← hkept]
          simp
        · simp [hrck]
  · intro h
    refine ⟨fun _ _ _ hr => hr,?_⟩
    intro sub r hsub hr
    rw [hother] at hsub
    by_cases hnew : sub = m.newSubdomain
    · subst hnew
      simp only [beq_iff_eq,hsub,Bool.or_eq_true,false_or,hr,Option.all_some,bne_iff_ne,
        Bool.and_eq_true] at h
      simp only [registerRouting,hr]
      by_cases hrck : r.rckPubKeyHex = old.rckPubKeyHex
      · obtain ⟨huser,htime⟩ := h.resolve_left (fun hne => hne hrck)
        rw [if_pos hrck,Function.update_self,← huser,← htime]
      · rw [if_neg hrck]
        exact hr
    · have hkept : registerRouting t.routing m old time sub = t.routing sub := by
        cases hexisting : t.routing m.newSubdomain with
        | none =>
          simp only [registerRouting,hexisting]
          exact Function.update_of_ne hnew _ _
        | some existing =>
          simp only [registerRouting,hexisting]
          split_ifs
          · exact Function.update_of_ne hnew _ _
          · rfl
      exact hkept.trans hr

theorem onlyOffered_release {m : Moving} (hm : MovesFrom cfg host m) (t : TransferTables) :
    OnlyOffered cfg host t { t with routing := Function.update t.routing m.oldSubdomain none } := by
  refine ⟨fun _ _ _ hr => hr,?_⟩
  intro sub r hsub hr
  exact (Function.update_of_ne (hsub _ hm.labels) _ _).trans hr

/-- A call changes no other row exactly where it finds nothing under the new name
that it would change. -/
theorem onlyOffered_serve {s : TransferProgress × TransferTables} (hs : ClaimsFrom cfg host s.1)
    (input : (Nat → Int) × TransferElsewhere) :
    nameFree s input = true ↔ OnlyOffered cfg host s.2 (serveTransfer cfg s input).2 := by
  obtain ⟨p,t⟩ := s
  obtain ⟨now,outside⟩ := input
  by_cases hgoes : outside.outcome = .goes
  · have hsame : ∀ {q : Bool} {t' : TransferTables},q = true → t'.servers = t.servers →
        t'.routing = t.routing → (q = true ↔ OnlyOffered cfg host t t') := by
      intro q t' hq hservers hrouting
      refine iff_of_true hq ⟨?_,?_⟩
      · exact fun d r _ hr => by rw [hservers]; exact hr
      · exact fun sub r _ hr => by rw [hrouting]; exact hr
    simp only [serveTransfer,transferHandlers,hgoes]
    cases p with
    | claimWrite c reg irk time =>
      simp only [TransferProgress.call]
      split
      · split_ifs <;> exact hsame rfl rfl rfl
      · exact hsame rfl rfl rfl
    | put m =>
      simp only [nameFree,hgoes]
      exact (onlyOffered_put hs t).symm
    | revoke m time => exact iff_of_true rfl (onlyOffered_revoke hs t _ time)
    | routing m error =>
      simp only [TransferProgress.call]
      split <;> exact hsame rfl rfl rfl
    | registerRead m old time error =>
      simp only [TransferProgress.call]
      split
      · split_ifs <;> exact hsame rfl rfl rfl
      · exact hsame rfl rfl rfl
    | registerWrite m old time error =>
      simp only [nameFree,hgoes]
      exact (onlyOffered_register hs t old time).symm
    | release m error => exact iff_of_true rfl (onlyOffered_release hs t)
    | _ => exact hsame rfl rfl rfl
  · simp only [serveTransfer,transferHandlers]
    refine iff_of_true ?_ (OnlyOffered.refl t)
    cases p <;> simp [nameFree,hgoes]

variable (cfg)

/-- Whatever the tables hold and however its calls go, a claim request changes no
row of another name, over any stretch of its calls, exactly where it finds under
the acquirer's name no row that its writes would change. -/
theorem transfer_touches_only_offered (host : Text) (claim : Option ClaimFields)
    (now : Nat → Int) (t : TransferTables) (inputs : List ((Nat → Int) × TransferElsewhere)) :
    Along (serveTransfer cfg) (fun s input => nameFree s input = true)
        (startClaim cfg now host claim,t) inputs ↔
      ∀ first middle last,inputs = first ++ middle ++ last →
        OnlyOffered cfg host
          (run (serveTransfer cfg) (startClaim cfg now host claim,t) first).2
          (run (serveTransfer cfg) (startClaim cfg now host claim,t) (first ++ middle)).2 :=
  along_iff_related (I := fun s => ClaimsFrom cfg host (Prod.fst s))
    (R := fun s s' => OnlyOffered cfg host (Prod.snd s) (Prod.snd s'))
    (fun s => OnlyOffered.refl s.2) (fun _ _ _ => OnlyOffered.trans)
    (fun _ input hs => claimsFrom_serve hs input) (fun _ input hs => onlyOffered_serve hs input)
    (claimsFrom_start now claim)

end

/-- Alice has offered her box, and bob has a box with the same label. -/
def bobHasBox : TransferTables where
  servers := Function.update alicesBox.servers (domainOf "bob")
    (some ⟨"bob".toList,hexText 64 'f',1,none,none⟩)
  routing := fun _ => none
  transfers := Function.update (fun _ => none) (domainOf "alice")
    (some ⟨"alice".toList,hexText 64 '4',hexText 64 'a',0,100,hexText 128 '2',none,none,none,none,
      none,none⟩)

/-- Bob claims alice's box, call by call. -/
def bobClaims : TransferProgress × TransferTables :=
  run (@serveTransfer asciiLowercase defaultTransferConfig)
    (@startClaim asciiLowercase defaultTransferConfig (fun _ => 0) (domainOf "alice")
      (some ⟨domainOf "alice",hexText 64 '4',"bob".toList,hexText 64 'b',hexText 64 'd',0,
        hexText 128 '3'⟩),bobHasBox)
    (List.replicate 8 (fun _ => 0,goesFor 'b'))

/-- The row of bob's own box now names alice's. -/
theorem same_label_overwritten :
    bobHasBox.servers (domainOf "bob") = some ⟨"bob".toList,hexText 64 'f',1,none,none⟩ ∧
      bobClaims.2.servers (domainOf "bob") = some ⟨"bob".toList,hexText 64 'e',1,none,none⟩ ∧
      ¬ @OnlyOffered asciiLowercase defaultTransferConfig (domainOf "alice") bobHasBox
        bobClaims.2 := by
  have hbefore : bobHasBox.servers (domainOf "bob") =
      some ⟨"bob".toList,hexText 64 'f',1,none,none⟩ := by
    decide +kernel
  have hafter : bobClaims.2.servers (domainOf "bob") =
      some ⟨"bob".toList,hexText 64 'e',1,none,none⟩ := by
    decide +kernel
  refine ⟨hbefore,hafter,?_⟩
  intro h
  have hkept := h.1 _ _ (by decide +kernel) hbefore
  rw [hafter] at hkept
  exact absurd hkept (by decide +kernel)

end Flagship.Control.Proofs

import Flagship.Control.Proofs.Transfer

namespace Flagship.Control.Proofs
open Lib

section
variable [Lowercase] {cfg : TransferConfig}

theorem startMove_recorded (c : Claim) (reg : ServerRecord) :
    (startMove cfg c reg).recorded = some c := by
  rw [startMove]
  split
  · rfl
  · split_ifs <;> rfl

variable (cfg) in
theorem accept_plain (now : Nat → Int) (outside : TransferElsewhere) (request : TransferRequest) :
    Plain ((transferHandlers cfg).accept now outside request) := by
  cases request with
  | offer host auth offer => exact plain_startOffer cfg now host auth offer
  | claim host claim => exact plain_startClaim cfg now host claim

/-- A request has recorded a claim just when that has happened. -/
theorem effect_recorded {now : Nat → Int} {outside : TransferElsewhere} {p p' : TransferProgress}
    {t t' : TransferTables} {events : List TransferEvent}
    (h : TransferEffect cfg now outside p t p' t' events) :
    p'.recorded.toList = p.recorded.toList ++ events.filterMap TransferEvent.claim := by
  cases h with
  | reads t hp hp' hrecorded => rw [hrecorded]; exact (List.append_nil _).symm
  | breaks t hp hbroken hp' hrecorded => rw [hrecorded]; exact (List.append_nil _).symm
  | records c reg irk time offer t hgoes hoffer hunclaimed => rw [startMove_recorded]; rfl
  | _ => rfl

variable (cfg) in
/-- The claims the requests have recorded are those that were recorded. -/
theorem recorded_step {w : TransferState} (move : Move TransferRequest TransferElsewhere)
    (hw : (w.requests.filterMap TransferProgress.recorded).Perm
      (w.shared.history.filterMap TransferEvent.claim)) :
    (((transferHandlers cfg).step w move).requests.filterMap TransferProgress.recorded).Perm
      (((transferHandlers cfg).step w move).shared.history.filterMap TransferEvent.claim) := by
  refine (transferHandlers cfg).step_rule (K := fun w =>
    (w.requests.filterMap TransferProgress.recorded).Perm
      (w.shared.history.filterMap TransferEvent.claim)) w move ?_ hw ?_
  · intro request ticks outside _
    have hplain := (accept_plain cfg (reading w.shared.clock ticks) outside request).2
    rw [List.filterMap_append,List.filterMap_cons,hplain,List.filterMap_nil,List.append_nil]
    exact hw
  · intro i ticks outside p p' t' events _ hi hadv
    have hset := filterMap_set_perm TransferProgress.recorded hi p'
    rw [effect_recorded (advance_effect hadv),List.append_assoc,List.perm_append_left_iff] at hset
    rw [Shared.after,List.filterMap_append]
    exact (hset.trans List.perm_append_comm).trans (hw.append_right _)

/-- A call keeps every claimed record, where an offer replaces none. -/
theorem effect_keeps {w : TransferState} {i : Nat} {ticks : List Nat}
    {outside : TransferElsewhere} {now : Nat → Int} {p p' : TransferProgress}
    {t' : TransferTables} {events : List TransferEvent} (hi : w.requests[i]? = some p)
    (hc : claimsItsOffer w (.resume i ticks outside) = true)
    (h : TransferEffect cfg now outside p w.shared.tables p' t' events) {host : Text}
    {r : ServerTransferRecord} (hr : w.shared.tables.transfers host = some r)
    (hclaimed : r.claimedAt.isSome = true) : t'.transfers host = some r := by
  cases h with
  | offers host' rec t hgoes =>
    by_cases heq : host = host'
    · subst heq
      simp only [claimsItsOffer,hi,hgoes,hr,Option.all_some] at hc
      simp [Option.isNone_iff_eq_none.mp hc] at hclaimed
    · exact (Function.update_of_ne heq _ _).trans hr
  | collects c t =>
    simp only [collectOffer]
    by_cases heq : host = c.host
    · subst heq
      rw [Function.update_self,hr,Option.filter_some,if_pos hclaimed]
    · exact (Function.update_of_ne heq _ _).trans hr
  | records c reg irk time offer t hgoes hoffer hunclaimed =>
    by_cases heq : host = c.host
    · subst heq
      rw [hr,Option.some.injEq] at hoffer
      rw [hoffer,hunclaimed] at hclaimed
      cases hclaimed
    · exact (Function.update_of_ne heq _ _).trans hr
  | _ => exact hr

theorem effect_claimed_le {w : TransferState} {i : Nat} {ticks : List Nat}
    {outside : TransferElsewhere} {now : Nat → Int} {p p' : TransferProgress}
    {t' : TransferTables} {events : List TransferEvent} (hi : w.requests[i]? = some p)
    (hc : claimsItsOffer w (.resume i ticks outside) = true)
    (h : TransferEffect cfg now outside p w.shared.tables p' t' events) (host : Text) :
    ((w.shared.tables.transfers host).any (fun r => r.claimedAt.isSome)).toNat ≤
      ((t'.transfers host).any (fun r => r.claimedAt.isSome)).toNat := by
  refine Bool.toNat_le_toNat ?_
  intro hany
  obtain ⟨r,hr,hclaimed⟩ := (Option.any_eq_true _ _).mp hany
  rw [effect_keeps hi hc h hr hclaimed]
  exact hclaimed

/-- The claims recorded under a name. -/
def claimsUnder (history : List TransferEvent) (host : Text) : Nat :=
  (history.filterMap TransferEvent.claim).countP (fun c => c.host == host)

/-- What holds where every claim is recorded on its own offer. -/
structure ClaimsMatch (w : TransferState) : Prop where
  perm : (w.requests.filterMap TransferProgress.recorded).Perm
    (w.shared.history.filterMap TransferEvent.claim)
  nonce : ∀ c offer reg,.recorded c offer reg ∈ w.shared.history →
    offer.transferNonce = c.transferNonce
  once : ∀ host,claimsUnder w.shared.history host ≤
    ((w.shared.tables.transfers host).any (fun r => r.claimedAt.isSome)).toNat

/-- A call that records a claim records it on an offer nobody claimed. -/
theorem effect_records {now : Nat → Int} {outside : TransferElsewhere} {p p' : TransferProgress}
    {t t' : TransferTables} {events : List TransferEvent}
    (h : TransferEffect cfg now outside p t p' t' events) :
    (events.filterMap TransferEvent.claim = [] ∧ ∀ c offer reg,.recorded c offer reg ∉ events) ∨
    ∃ c offer reg irk time,p = .claimWrite c reg irk time ∧ outside.outcome = .goes ∧
      t.transfers c.host = some offer ∧ offer.claimedAt = none ∧
      t'.transfers c.host = some (offer.claim c irk time) ∧ events = [.recorded c offer reg] := by
  cases h with
  | records c reg irk time offer t hgoes hoffer hunclaimed =>
    exact Or.inr ⟨c,offer,reg,irk,time,rfl,hgoes,hoffer,hunclaimed,
      Function.update_self ..,rfl⟩
  | moves m t hgoes => exact Or.inl ⟨rfl,by simp⟩
  | _ => exact Or.inl ⟨rfl,by simp⟩

theorem ClaimsMatch.step {w : TransferState} (hw : ClaimsMatch w)
    (move : Move TransferRequest TransferElsewhere) (hc : claimsItsOffer w move = true) :
    ClaimsMatch ((transferHandlers cfg).step w move) := by
  have hperm := recorded_step cfg move hw.perm
  suffices h : (∀ c offer reg,
      .recorded c offer reg ∈ ((transferHandlers cfg).step w move).shared.history →
        offer.transferNonce = c.transferNonce) ∧
      ∀ host,claimsUnder ((transferHandlers cfg).step w move).shared.history host ≤
        ((((transferHandlers cfg).step w move).shared.tables.transfers host).any
          (fun r => r.claimedAt.isSome)).toNat from ⟨hperm,h.1,h.2⟩
  refine (transferHandlers cfg).step_rule (K := fun w =>
    (∀ c offer reg,.recorded c offer reg ∈ w.shared.history →
      offer.transferNonce = c.transferNonce) ∧
    ∀ host,claimsUnder w.shared.history host ≤
      ((w.shared.tables.transfers host).any (fun r => r.claimedAt.isSome)).toNat) w move
    (fun _ _ _ _ => ⟨hw.nonce,hw.once⟩) ⟨hw.nonce,hw.once⟩ ?_
  rintro i ticks outside p p' t' events rfl hi hadv
  have heffect := advance_effect hadv
  rcases effect_records heffect with ⟨hnone,hnot⟩ |
    ⟨c,offer,reg,irk,time,rfl,hgoes,hoffer,hunclaimed,hoffer',rfl⟩
  · refine ⟨?_,?_⟩
    · intro c offer reg hmem
      rcases List.mem_append.mp hmem with hmem | hmem
      · exact hw.nonce c offer reg hmem
      · exact absurd hmem (hnot c offer reg)
    · intro host
      have hold := hw.once host
      have hsame : claimsUnder (w.shared.after ticks t' events).history host =
          claimsUnder w.shared.history host := by
        rw [claimsUnder,Shared.after,List.filterMap_append,hnone,List.append_nil,claimsUnder]
      rw [hsame]
      exact hold.trans (effect_claimed_le hi hc heffect host)
  · refine ⟨?_,?_⟩
    · intro c' offer' reg' hmem
      rcases List.mem_append.mp hmem with hmem | hmem
      · exact hw.nonce c' offer' reg' hmem
      · cases List.mem_singleton.mp hmem
        simpa [claimsItsOffer,hi,hgoes,hoffer,hunclaimed] using hc
    · intro host
      have hold := hw.once host
      have hmore : claimsUnder (w.shared.after ticks t' [.recorded c offer reg]).history host =
          claimsUnder w.shared.history host + if c.host = host then 1 else 0 := by
        rw [claimsUnder,Shared.after,List.filterMap_append,List.countP_append,claimsUnder]
        simp [TransferEvent.claim,List.countP_cons]
      rw [hmore]
      by_cases heq : c.host = host
      · subst heq
        rw [hoffer] at hold
        simp only [Option.any_some,hunclaimed] at hold
        simp only [Shared.after,hoffer',Option.any_some,ServerTransferRecord.claim]
        simpa using hold
      · rw [if_neg heq,Nat.add_zero]
        exact hold.trans (effect_claimed_le hi hc heffect host)

omit [Lowercase] in
/-- The claims answered as accepted are among the recorded ones. -/
theorem accepted_le {w : TransferState} (hw : ClaimsMatch w) (host nonce : Text) :
    w.requests.countP (TransferProgress.accepted host nonce) ≤ 1 := by
  have hmono : w.requests.countP (TransferProgress.accepted host nonce) ≤
      (w.requests.filterMap TransferProgress.recorded).countP (fun c => c.host == host) := by
    rw [List.countP_filterMap]
    refine List.countP_mono_left ?_
    intro p _ haccepted
    cases p with
    | answered claim answer =>
      cases claim with
      | none => cases haccepted
      | some c =>
        cases answer with
        | claimed domain error =>
          simp only [TransferProgress.accepted,Bool.and_eq_true] at haccepted
          simp only [TransferProgress.recorded,Option.map_some,Option.getD_some]
          exact haccepted.1
        | _ => cases haccepted
    | _ => cases haccepted
  rw [hw.perm.countP_eq] at hmono
  exact hmono.trans ((hw.once host).trans (Bool.toNat_le _))

omit [Lowercase] in
theorem claimsMatch_idle (t : TransferTables) (clock : Int) :
    ClaimsMatch (TransferState.idle t clock) := by
  refine ⟨List.Perm.refl _,?_,fun _ => Nat.zero_le _⟩
  intro c offer reg hmem
  cases hmem

/-- The claimed records of one state are those of a later one. -/
def KeepsClaimed (w w' : TransferState) : Prop :=
  ∀ host r,w.shared.tables.transfers host = some r → r.claimedAt.isSome = true →
    w'.shared.tables.transfers host = some r

theorem step_keepsClaimed {w : TransferState} (move : Move TransferRequest TransferElsewhere)
    (hc : claimsItsOffer w move = true) : KeepsClaimed w ((transferHandlers cfg).step w move) := by
  refine (transferHandlers cfg).step_rule (K := KeepsClaimed w) w move
    (fun _ _ _ _ _ _ hr _ => hr) (fun _ _ hr _ => hr) ?_
  rintro i ticks outside p p' t' events rfl hi hadv host r hr hclaimed
  exact effect_keeps hi hc (advance_effect hadv) hr hclaimed

variable (cfg)

end

/-- Names, keys and signatures for a run. -/
def hexText (n : Nat) (c : Char) : Text := List.replicate n c

def domainOf (user : String) : Text := ("box." ++ user ++ ".flagship.services").toList

/-- The directory has alice's box. -/
def alicesBox : TransferTables where
  servers := Function.update (fun _ => none) (domainOf "alice")
    (some ⟨"alice".toList,hexText 64 'e',1,none,none⟩)
  routing := fun _ => none
  transfers := fun _ => none

/-- A call that goes through, for an account with this identity key. -/
def goesFor (key : Char) : TransferElsewhere :=
  ⟨.goes,some ⟨hexText 64 key,some (hexText 64 'd'),false⟩,true⟩

/-- Alice offers her box under a nonce. -/
def offers (nonce : Char) : TransferRequest :=
  .offer (domainOf "alice") (some ⟨"alice".toList,hexText 64 'a',0,100,hexText 64 '0',hexText 128 '1'⟩)
    (some ⟨domainOf "alice",hexText 64 nonce,0,hexText 128 '2'⟩)

/-- Someone claims alice's box under a nonce. -/
def claims (user : String) (key nonce : Char) : TransferRequest :=
  .claim (domainOf "alice") (some ⟨domainOf "alice",hexText 64 nonce,user.toList,hexText 64 key,
    hexText 64 'd',0,hexText 128 '3'⟩)

/-- The calls of one request, for an account with this key. -/
def callsOf (i n : Nat) (key : Char) : List (Move TransferRequest TransferElsewhere) :=
  List.replicate n (.resume i [] (goesFor key))

/-- Alice offers, bob claims. -/
def offeredAndClaimed : List (Move TransferRequest TransferElsewhere) :=
  .receive (offers '4') [] (goesFor 'a') :: callsOf 0 4 'a' ++
    .receive (claims "bob" 'b' '4') [] (goesFor 'b') :: callsOf 1 8 'b'

/-- Alice replaces her offer while bob's claim stands before its write. -/
def offerReplaced : List (Move TransferRequest TransferElsewhere) :=
  .receive (offers '4') [] (goesFor 'a') :: callsOf 0 4 'a' ++
    .receive (claims "bob" 'b' '4') [] (goesFor 'b') :: callsOf 1 4 'b' ++
    .receive (offers '5') [] (goesFor 'a') :: callsOf 2 4 'a' ++ callsOf 1 4 'b'

/-- The nonce a recorded claim names, and the one of the offer it is recorded on. -/
def noncesOf : TransferEvent → Option (Text × Text)
  | .recorded c offer _ => some (c.transferNonce,offer.transferNonce)
  | .moved _ => none

end Flagship.Control.Proofs

import Flagship.Control.Transfer

namespace Flagship.Control.Proofs
open Lib

/-- A request that has recorded nothing. -/
def Plain (p : TransferProgress) : Prop := p.moving = none ∧ p.recorded = none

section
variable [Lowercase] (cfg : TransferConfig)

theorem plain_startOffer (now : Nat → Int) (host : Text) (auth : Option MailboxAuth)
    (offer : Option OfferFields) : Plain (startOffer cfg now host auth offer) := by
  cases auth with
  | none => exact ⟨rfl,rfl⟩
  | some a =>
    simp only [startOffer]
    split_ifs <;> exact ⟨rfl,rfl⟩

theorem plain_startClaim (now : Nat → Int) (host : Text) (claim : Option ClaimFields) :
    Plain (startClaim cfg now host claim) := by
  cases claim with
  | none => exact ⟨rfl,rfl⟩
  | some c =>
    simp only [startClaim]
    split_ifs <;> exact ⟨rfl,rfl⟩

theorem plain_checkOffer (now : Nat → Int) (outside : TransferElsewhere) (host : Text)
    (a : MailboxAuth) (offer : Option OfferFields) :
    Plain (checkOffer cfg now outside host a offer) := by
  unfold checkOffer
  cases outside.account with
  | none => exact ⟨rfl,rfl⟩
  | some account =>
    cases offer with
    | none =>
      simp only
      split_ifs <;> exact ⟨rfl,rfl⟩
    | some o =>
      simp only
      split_ifs <;> exact ⟨rfl,rfl⟩

theorem plain_checkOwned (host username : Text) (o : OfferFields) (reg : Option ServerRecord) :
    Plain (checkOwned host username o reg) := by
  cases reg with
  | none => exact ⟨rfl,rfl⟩
  | some reg =>
    simp only [checkOwned]
    split_ifs <;> exact ⟨rfl,rfl⟩

theorem plain_checkOwner (now : Nat → Int) (outside : TransferElsewhere) (host username : Text)
    (o : OfferFields) : Plain (checkOwner cfg now outside host username o) := by
  unfold checkOwner
  cases outside.account with
  | none => exact ⟨rfl,rfl⟩
  | some owner =>
    simp only
    split_ifs <;> exact ⟨rfl,rfl⟩

omit [Lowercase] in
theorem plain_checkLive (c : Claim) (time : Int) (offer : Option ServerTransferRecord) :
    Plain (checkLive c time offer) := by
  cases offer with
  | none => exact ⟨rfl,rfl⟩
  | some offer =>
    simp only [checkLive]
    split_ifs <;> exact ⟨rfl,rfl⟩

theorem plain_checkGiven (c : Claim) (offer : ServerTransferRecord) (reg : Option ServerRecord) :
    Plain (checkGiven c offer reg) := by
  cases reg with
  | none => exact ⟨rfl,rfl⟩
  | some reg =>
    simp only [checkGiven]
    split_ifs <;> exact ⟨rfl,rfl⟩

theorem plain_checkAcquirer (now : Nat → Int) (outside : TransferElsewhere) (c : Claim)
    (reg : ServerRecord) : Plain (checkAcquirer now outside c reg) := by
  unfold checkAcquirer
  cases outside.account with
  | none => exact ⟨rfl,rfl⟩
  | some account =>
    simp only
    split_ifs <;> exact ⟨rfl,rfl⟩

omit [Lowercase] in
theorem plain_checkClaim (c : Claim) (reg : ServerRecord) (irk : Text) (time : Int)
    (offer : Option ServerTransferRecord) : Plain (checkClaim c reg irk time offer) := by
  cases offer with
  | none => exact ⟨rfl,rfl⟩
  | some offer =>
    simp only [checkClaim]
    split_ifs <;> exact ⟨rfl,rfl⟩

/-- What one call of a request can do. -/
inductive TransferEffect (now : Nat → Int) (outside : TransferElsewhere) :
    TransferProgress → TransferTables → TransferProgress → TransferTables →
      List TransferEvent → Prop
  | reads {p p' : TransferProgress} (t : TransferTables) (hp : p.moving = none)
      (hp' : p'.moving = none) (hrecorded : p'.recorded = p.recorded) :
      TransferEffect now outside p t p' t []
  | offers (host : Text) (rec : ServerTransferRecord) (t : TransferTables)
      (hgoes : outside.outcome = .goes) :
      TransferEffect now outside (.putOffer host rec) t (.answered none (.offered rec.expiresAt))
        { t with transfers := Function.update t.transfers host (some rec) } []
  | collects (c : Claim) (t : TransferTables) :
      TransferEffect now outside (.collect c) t
        (.answered (some c) (.notFound "no live transfer offer"))
        { t with transfers := collectOffer t.transfers c.host } []
  | records (c : Claim) (reg : ServerRecord) (irk : Text) (time : Int)
      (offer : ServerTransferRecord) (t : TransferTables) (hgoes : outside.outcome = .goes)
      (hoffer : t.transfers c.host = some offer) (hunclaimed : offer.claimedAt = none) :
      TransferEffect now outside (.claimWrite c reg irk time) t (startMove cfg c reg)
        { t with transfers := Function.update t.transfers c.host (some (offer.claim c irk time)) }
        [.recorded c offer reg]
  | moves (m : Moving) (t : TransferTables) (hgoes : outside.outcome = .goes) :
      TransferEffect now outside (.put m) t (.revoke m (now 1))
        { t with servers := m.put t.servers } [.moved m]
  | revokes (m : Moving) (time : Int) (t : TransferTables) (hgoes : outside.outcome = .goes) :
      TransferEffect now outside (.revoke m time) t (.routing m false)
        { t with servers := t.servers.revoke m.claim.host "transferred" time } []
  | breaks {p p' : TransferProgress} {m : Moving} (t : TransferTables) (hp : p.moving = some m)
      (hbroken : outside.outcome ≠ .goes) (hp' : p'.moving = none)
      (hrecorded : p'.recorded = p.recorded) :
      TransferEffect now outside p t p' t []
  | registers (m : Moving) (old : RoutingRecord) (time : Int) (error : Bool) (t : TransferTables)
      (hgoes : outside.outcome = .goes) :
      TransferEffect now outside (.registerWrite m old time error) t (.release m error)
        { t with routing := registerRouting t.routing m old time } []
  | releases (m : Moving) (error : Bool) (t : TransferTables) (hgoes : outside.outcome = .goes) :
      TransferEffect now outside (.release m error) t (m.answer error)
        { t with routing := Function.update t.routing m.oldSubdomain none } []

variable {cfg}

omit [Lowercase] in
theorem broken_moving (p : TransferProgress) (outcome : Outcome) :
    (p.broken outcome).moving = none := by
  cases outcome <;> cases p <;> rfl

omit [Lowercase] in
theorem broken_recorded (p : TransferProgress) (outcome : Outcome) :
    (p.broken outcome).recorded = p.recorded := by
  cases outcome <;> cases p <;> rfl

theorem broken_effect {now : Nat → Int} {outside : TransferElsewhere} (p : TransferProgress)
    (t : TransferTables) (hbroken : outside.outcome ≠ .goes) :
    TransferEffect cfg now outside p t (p.broken outside.outcome) t [] := by
  cases hm : p.moving with
  | none => exact .reads t hm (broken_moving ..) (broken_recorded ..)
  | some m => exact .breaks t hm hbroken (broken_moving ..) (broken_recorded ..)

/-- Every call has one of these effects. -/
theorem advance_effect {now : Nat → Int} {outside : TransferElsewhere} {p p' : TransferProgress}
    {t t' : TransferTables} {events : List TransferEvent}
    (h : (transferHandlers cfg).advance now outside p t = (p',t',events)) :
    TransferEffect cfg now outside p t p' t' events := by
  by_cases hgoes : outside.outcome = .goes
  · simp only [transferHandlers,hgoes] at h
    have hreads : ∀ {q : TransferProgress},p.moving = none → p.recorded = none → Plain q →
        (q,t,([] : List TransferEvent)) = (p',t',events) →
        TransferEffect cfg now outside p t p' t' events := by
      intro q hm hr hq heq
      cases heq
      exact .reads t hm hq.1 (hq.2.trans hr.symm)
    cases p with
    | mailboxUser host a offer => exact hreads rfl rfl (plain_checkOffer ..) h
    | offerServer host username o => exact hreads rfl rfl (plain_checkOwned ..) h
    | owner host username o => exact hreads rfl rfl (plain_checkOwner ..) h
    | putOffer host rec => cases h; exact .offers host rec t hgoes
    | getOffer c time => exact hreads rfl rfl (plain_checkLive ..) h
    | collect c => cases h; exact .collects c t
    | server c offer => exact hreads rfl rfl (plain_checkGiven ..) h
    | acquirer c reg => exact hreads rfl rfl (plain_checkAcquirer ..) h
    | claimRead c reg irk time => exact hreads rfl rfl (plain_checkClaim ..) h
    | claimWrite c reg irk time =>
      cases hoffer : t.transfers c.host with
      | none =>
        simp only [TransferProgress.call,hoffer] at h
        exact hreads rfl rfl ⟨rfl,rfl⟩ h
      | some offer =>
        simp only [TransferProgress.call,hoffer] at h
        split at h
        · exact hreads rfl rfl ⟨rfl,rfl⟩ h
        · rename_i hclaimed
          cases h
          refine .records c reg irk time offer t hgoes hoffer ?_
          simpa using hclaimed
    | put m => cases h; exact .moves m t hgoes
    | revoke m time => cases h; exact .revokes m time t hgoes
    | routing m error =>
      cases hold : t.routing m.oldSubdomain with
      | none =>
        simp only [TransferProgress.call,hold] at h
        cases h
        exact .reads t rfl rfl rfl
      | some old =>
        simp only [TransferProgress.call,hold] at h
        cases h
        exact .reads t rfl rfl rfl
    | registerRead m old time error =>
      cases hnew : t.routing m.newSubdomain with
      | none =>
        simp only [TransferProgress.call,hnew] at h
        cases h
        exact .reads t rfl rfl rfl
      | some existing =>
        simp only [TransferProgress.call,hnew] at h
        split at h
        · cases h
          exact .reads t rfl rfl rfl
        · cases h
          exact .reads t rfl rfl rfl
    | registerWrite m old time error => cases h; exact .registers m old time error t hgoes
    | release m error => cases h; exact .releases m error t hgoes
    | answered c answer => cases h; exact .reads t rfl rfl rfl
    | stopped c => cases h; exact .reads t rfl rfl rfl
  · have hbroken : (transferHandlers cfg).advance now outside p t =
        (p.broken outside.outcome,t,[]) := by
      simp only [transferHandlers]
    rw [hbroken] at h
    cases h
    exact broken_effect p t hgoes

end
end Flagship.Control.Proofs

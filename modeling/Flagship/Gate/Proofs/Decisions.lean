import Flagship.Gate.Decide

namespace Flagship.Gate.Proofs
open Lib Access

/-- Answered as a member. -/
def IsMember (d : Decision) : Prop := ∃ rank identity external, d = .member rank identity external

section
variable [Lowercase] {state state' : AccessState} {people : Principals} {app : AppFacts}
  {req : RequestFacts} {acc acc' : AppAccess}

theorem sessionMember_isMember {s : SessionFact} {d : Decision}
    (h : sessionMember acc app s = some d) : IsMember d := by
  unfold sessionMember at h
  split at h
  · cases h
  split at h
  · cases h
  split at h
  · rename_i p _
    obtain ⟨rank,_,rfl⟩ := Option.map_eq_some_iff.mp h
    cases p with
    | device pubHex admin => exact ⟨_,_,_,rfl⟩
    | coManager pubHex shareId => exact ⟨_,_,_,rfl⟩
  · cases h
    exact ⟨_,_,_,rfl⟩

/-- What no API key decides: the member the session names, else anonymous where
the app or the path is open. -/
theorem decide_session (state : AccessState) (people : Principals) (app : AppFacts)
    (hkey : req.apiKey = .none) :
    (∃ s m, req.session = some s ∧
      sessionMember ⟨state,people,app.serviceRef,req.catchingUp⟩ app s = some m ∧
      decide state people app req = m) ∨
    decide state people app req =
      (if state.restricted app.serviceRef = false ∨ matchesPublicRoute req.path app.publicRoutes then
        .anonymous else .deny) := by
  unfold Gate.decide
  rw [hkey]
  simp only
  generalize hm : Option.filter _ (Option.filter _ (req.session.bind _)) = member
  cases member with
  | none => exact Or.inr rfl
  | some m =>
    have hbind := Option.eq_some_of_filter_eq_some (Option.eq_some_of_filter_eq_some hm)
    obtain ⟨s,hs,hmember⟩ := Option.bind_eq_some_iff.mp hbind
    exact Or.inl ⟨s,m,hs,hmember,rfl⟩

/-- A member comes of a live session of the app whose key is let in. -/
theorem member_session (h : IsMember (decide state people app req)) : ∃ s m,
    req.session = some s ∧
    sessionMember ⟨state,people,app.serviceRef,req.catchingUp⟩ app s = some m := by
  obtain ⟨rank,identity,external,hm⟩ := h
  cases hkey : req.apiKey with
  | none =>
    rcases decide_session state people app hkey with
      ⟨s,m,hs,hmember,_⟩ | hopen
    · exact ⟨s,m,hs,hmember⟩
    · rw [hopen] at hm
      split at hm <;> cases hm
  | _ =>
    simp only [Gate.decide,hkey] at hm
    cases hm

theorem sessionMember_allowed {s : SessionFact} {m : Decision}
    (h : sessionMember acc app s = some m) :
    acc.isAllowed s.aid = true ∧ ∀ p, acc.principals.classify s.aid = some p →
      (acc.accountRank p).isSome = true := by
  unfold sessionMember at h
  split at h
  · cases h
  split at h
  · cases h
  rename_i hallowed
  refine ⟨by simpa using hallowed,fun p hp => ?_⟩
  rw [hp] at h
  obtain ⟨rank,hrank,_⟩ := Option.map_eq_some_iff.mp h
  rw [hrank]
  rfl

/-- The override an admin set for a person in an app. -/
def setRank (state : AccessState) (app : AppFacts) (p : Principal) : Option AccountRank :=
  (state.services.get? app.serviceRef).bind (fun e => e.roles.ranks.get? (rankKey p))

omit [Lowercase] in
theorem refused_no_rank {p : Principal} {catchingUp : Bool}
    (h : setRank state app p = some .refused) :
    AppAccess.accountRank ⟨state,people,app.serviceRef,catchingUp⟩ p = none := by
  unfold AppAccess.accountRank
  exact if_pos h

omit [Lowercase] in
theorem coManager_held {pubHex shareId : Text} :
    AppAccess.accountRank ⟨state,people,app.serviceRef,true⟩ (.coManager pubHex shareId) = none := by
  unfold AppAccess.accountRank
  simp only
  split
  · rfl
  · exact if_pos rfl

/-- While the list is caught up nobody outside the account is let in. -/
theorem invited_held {key : Text} (h : people.classify key = none) :
    AppAccess.isAllowed ⟨state,people,app.serviceRef,true⟩ key = false := by
  have hk : people.classify (toLowercase key) = none := by
    rw [Principals.classify,toLowercase_idem]
    exact h
  simp only [AppAccess.isAllowed,hk,↓reduceIte]

theorem refused_not_member {s : SessionFact} {p : Principal} (hs : req.session = some s)
    (hp : people.classify s.aid = some p) (h : setRank state app p = some .refused) :
    ¬ IsMember (decide state people app req) := by
  intro hm
  obtain ⟨s',m,hs',hmember⟩ := member_session hm
  obtain rfl : s = s' := Option.some.inj (hs.symm.trans hs')
  have hrank := (sessionMember_allowed hmember).2 p hp
  rw [refused_no_rank h] at hrank
  cases hrank

theorem held_not_member {s : SessionFact} (hs : req.session = some s) (hc : req.catchingUp = true)
    (h : people.classify s.aid = none ∨
      ∃ pubHex shareId, people.classify s.aid = some (.coManager pubHex shareId)) :
    ¬ IsMember (decide state people app req) := by
  intro hm
  obtain ⟨s',m,hs',hmember⟩ := member_session hm
  obtain rfl : s = s' := Option.some.inj (hs.symm.trans hs')
  rw [hc] at hmember
  obtain ⟨hallowed,hranks⟩ := sessionMember_allowed hmember
  rcases h with hnone | ⟨pubHex,shareId,hp⟩
  · rw [invited_held hnone] at hallowed
    cases hallowed
  · have hrank := hranks _ hp
    rw [coManager_held] at hrank
    cases hrank

/-- A session never takes away what is open without one. -/
theorem session_keeps_forward (s : SessionFact)
    (h : (decide state people app { req with session := none }).outcome = "forward".toList) :
    (decide state people app { req with session := some s }).outcome = "forward".toList := by
  cases hkey : req.apiKey with
  | none =>
    have hwithout : decide state people app { req with session := none } =
        if state.restricted app.serviceRef = false ∨ matchesPublicRoute req.path app.publicRoutes then
          .anonymous else .deny := by
      simp only [Gate.decide,hkey]
      rfl
    have hwith := decide_session state people app
      (show ({ req with session := some s } : RequestFacts).apiKey = .none from hkey)
    rw [hkey] at hwith hwithout h
    rcases hwith with ⟨_,m,_,hmember,heq⟩ | heq
    · obtain ⟨rank,identity,external,rfl⟩ := sessionMember_isMember hmember
      rw [heq]
      rfl
    · rw [heq]
      rw [hwithout] at h
      exact h
  | _ =>
    simp only [Gate.decide,hkey] at h ⊢
    exact h

/-- The answers about one app read the app's own row only. -/
theorem sessionMember_congr (hrow : state'.services.get? app.serviceRef =
    state.services.get? app.serviceRef) (catchingUp : Bool) :
    sessionMember ⟨state',people,app.serviceRef,catchingUp⟩ app =
      sessionMember ⟨state,people,app.serviceRef,catchingUp⟩ app := by
  have hentry : AppAccess.entry ⟨state',people,app.serviceRef,catchingUp⟩ =
      AppAccess.entry ⟨state,people,app.serviceRef,catchingUp⟩ := hrow
  have hrank : AppAccess.accountRank ⟨state',people,app.serviceRef,catchingUp⟩ =
      AppAccess.accountRank ⟨state,people,app.serviceRef,catchingUp⟩ := by
    funext p
    simp only [AppAccess.accountRank,hentry]
  have hallowed : AppAccess.isAllowed ⟨state',people,app.serviceRef,catchingUp⟩ =
      AppAccess.isAllowed ⟨state,people,app.serviceRef,catchingUp⟩ := by
    funext key
    simp only [AppAccess.isAllowed,hentry,hrank]
  have hrole : AppAccess.roleOf ⟨state',people,app.serviceRef,catchingUp⟩ =
      AppAccess.roleOf ⟨state,people,app.serviceRef,catchingUp⟩ := by
    funext aid defaultRole
    simp only [AppAccess.roleOf,hentry]
  funext s
  simp only [sessionMember,hallowed,hrank,hrole]

theorem decide_congr (hmode : state'.defaultRestricted = state.defaultRestricted)
    (hrow : state'.services.get? app.serviceRef = state.services.get? app.serviceRef) :
    decide state' people app req = decide state people app req := by
  have hrestricted : state'.restricted app.serviceRef = state.restricted app.serviceRef := by
    simp only [AccessState.restricted,hrow,hmode]
  simp only [Gate.decide,hrestricted,sessionMember_congr hrow]

end

/-- A session never loses a request that is forwarded without it, nobody refused
or held is a member, and an app's answer reads the default mode and its own row. -/
theorem decide_isolated [Lowercase] (state : AccessState) (people : Principals) (app : AppFacts)
    (req : RequestFacts) :
    (∀ s, (decide state people app { req with session := none }).outcome = "forward".toList →
      (decide state people app { req with session := some s }).outcome = "forward".toList) ∧
    (∀ s p, req.session = some s → people.classify s.aid = some p →
      setRank state app p = some .refused → ¬ IsMember (decide state people app req)) ∧
    (∀ s, req.session = some s → req.catchingUp = true → (people.classify s.aid = none ∨
      ∃ pubHex shareId, people.classify s.aid = some (.coManager pubHex shareId)) →
      ¬ IsMember (decide state people app req)) ∧
    ∀ state' : AccessState, state'.defaultRestricted = state.defaultRestricted →
      state'.services.get? app.serviceRef = state.services.get? app.serviceRef →
      decide state' people app req = decide state people app req :=
  ⟨session_keeps_forward,fun _ _ => refused_not_member,fun _ => held_not_member,
    fun _ => decide_congr⟩

/-- The owner's phone, refused in one app. -/
def refusedPhone : Principal := .device (List.replicate 64 'a') true

def notesApp : AppFacts := ⟨"notes".toList,"notes.box.example".toList,[],"member".toList⟩

def phoneRefused : AccessState where
  defaultRestricted := false
  services := (∅ : OrdMap Text Entry).set "notes".toList
    ⟨true,[],∅,⟨∅,∅,∅,∅,(∅ : OrdMap Text AccountRank).set (rankKey refusedPhone) .refused⟩⟩

def phoneRequest : RequestFacts where
  method := "GET".toList
  path := "/".toList
  upgrade := false
  headers := ∅
  session := some ⟨"notes".toList,List.replicate 64 'a',true⟩
  apiKey := .none
  externalFresh := true
  catchingUp := false

theorem decide_isolated_refused_phone :
    ¬ IsMember (decide phoneRefused ⟨[refusedPhone],none⟩ notesApp phoneRequest) :=
  (decide_isolated phoneRefused ⟨[refusedPhone],none⟩ notesApp phoneRequest).2.1
    ⟨"notes".toList,List.replicate 64 'a',true⟩ refusedPhone rfl (by decide +kernel)
    (by decide +kernel)

end Flagship.Gate.Proofs

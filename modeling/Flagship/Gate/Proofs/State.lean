import Flagship.Gate.Decide

namespace Flagship.Gate.Proofs
open Lib Gate
open Access (View Store People Person Row lowerHex)
open Journal (Json)

/-- A person as the decision knows them. -/
def toPrincipal : Person → Principal
  | .device pubHex tier _ => .device pubHex (Decidable.decide (tier = .admin))
  | .coManager c => .coManager c.pubHex c.shareId

section
variable [Lowercase]

/-- Who is known by the account's own key alone has that key. -/
theorem classify_legacy {people : People} {key pubHex : Text} {tier : Access.Tier}
    (h : people.classify key = some (.device pubHex tier true)) :
    people.anchors.ownerAidHex = some pubHex := by
  unfold People.classify at h
  dsimp only at h
  split at h
  · cases h
  split at h
  · rename_i haid
    cases h
    simp only [Bool.and_eq_true,decide_eq_true_eq] at haid
    exact haid.1
  split at h
  · cases h
  split at h
  · rename_i haid
    cases h
    simpa using haid
  · cases h

/-- Both sides take a key for the same person. -/
theorem classify_principals (people : People) (key : Text) :
    (principals people).classify key = (people.classify key).map toPrincipal := by
  have hdevices : (people.devices.map (fun d => Principal.device d.pubHex
      (Decidable.decide (d.tier = .admin)))).find? (fun p => Decidable.decide (p.pubHex = toLowercase key)) =
      (people.devices.find? (fun d => Decidable.decide (d.pubHex = toLowercase key))).map fun d =>
        .device d.pubHex (Decidable.decide (d.tier = .admin)) := by
    rw [List.find?_map]
    rfl
  have hco : (people.coManagers.map (fun c => Principal.coManager c.pubHex c.shareId)).find?
      (fun p => Decidable.decide (p.pubHex = toLowercase key)) =
      (people.coManagers.find? (fun c => Decidable.decide (c.pubHex = toLowercase key))).map fun c =>
        .coManager c.pubHex c.shareId := by
    rw [List.find?_map]
    rfl
  unfold Principals.classify principals
  dsimp only
  rw [List.find?_append,List.find?_append,hdevices,hco]
  cases hd : people.devices.find? (fun d => Decidable.decide (d.pubHex = toLowercase key)) with
  | some d =>
    have hkey : d.pubHex = toLowercase key := by simpa using List.find?_some hd
    simp [People.classify,hd,toPrincipal,hkey]
  | none =>
    by_cases haid : people.anchors.ownerAidHex = some (toLowercase key)
    · have hsame : people.classify (toLowercase key) = people.classify key := by
        unfold People.classify
        rw [toLowercase_idem]
      rw [haid,Option.bind_some,hsame]
      unfold People.classify
      simp only [hd,haid,decide_true,Bool.true_and]
      cases hbook : people.bookPresent with
      | true => simp [toPrincipal,Principal.pubHex]
      | false =>
        cases people.coManagers.find? (fun c => Decidable.decide (c.pubHex = toLowercase key)) with
        | some c => simp [toPrincipal]
        | none => simp [toPrincipal,Principal.pubHex]
    · have hclassify : people.classify key =
          (people.coManagers.find? (fun c => Decidable.decide (c.pubHex = toLowercase key))).map
            .coManager := by
        unfold People.classify
        simp only [hd,haid,decide_false,Bool.false_and]
        cases people.coManagers.find? (fun c => Decidable.decide (c.pubHex = toLowercase key)) <;> rfl
      -- the owner's own key is another one
      have hother : ∀ pubHex tier,people.anchors.ownerAidHex.bind people.classify =
          some (.device pubHex tier true) → pubHex ≠ toLowercase key := by
        rintro pubHex tier h rfl
        obtain ⟨aid,_,h⟩ := Option.bind_eq_some_iff.mp h
        exact haid (classify_legacy h)
      rw [hclassify]
      split
      · rename_i pubHex tier hlegacy
        simp [Principal.pubHex,hother pubHex tier hlegacy,toPrincipal,Function.comp_def]
      · simp [toPrincipal,Function.comp_def]

end

/-- An app's row as either side reads it. -/
structure Alike (row : Row) (e : Entry) : Prop where
  allow : e.allow = row.allow
  groups : e.groups.entries.Perm row.groups.entries
  aids : e.roles.aids = row.roles.aids
  invites : e.roles.invites = row.roles.invites
  grants : e.roles.grants = row.roles.grants
  tiers : e.roles.tiers = row.roles.tiers
  ranks : ∀ k,e.roles.ranks.get? k = (row.roles.ranks.get? k).bind AccountRank.parse

theorem accountRankOk_iff (v : Text) :
    Access.accountRankOk v = (AccountRank.parse v).isSome := by
  unfold Access.accountRankOk AccountRank.parse
  by_cases hr : v = "refused".toList
  · subst hr
    decide
  by_cases hm : v = "member".toList
  · subst hm
    decide
  by_cases hg : v = "manager".toList
  · subst hg
    decide
  by_cases hs : v = "master".toList
  · subst hs
    decide
  · simp only [List.map_cons,List.map_nil,List.mem_cons,List.not_mem_nil,hr,hm,hg,hs]
    decide

/-- The ranks kept are those the decision can name. -/
theorem readRanks (k : Text) (m : OrdMap Text Text) :
    (OrdMap.collect (fun k v => if rankKeyOk k then AccountRank.parse v else none) m.entries).get? k =
      ((Access.retain (fun k v => Access.rankKeyOk k && Access.accountRankOk v) m).get? k).bind
        AccountRank.parse := by
  rw [OrdMap.get?_collect _ m.nodup,Access.retain,OrdMap.get?_filterMapVals]
  change (m.get? k).bind _ = _
  cases m.get? k with
  | none => rfl
  | some v =>
    simp only [Option.bind_some,accountRankOk_iff]
    change (if Access.rankKeyOk k = true then _ else _) = _
    cases Access.rankKeyOk k with
    | false => rfl
    | true => cases hv : AccountRank.parse v <;> simp [hv]

theorem readRoles_alike (v : Option Json) :
    (readRoles v).aids = (Access.readRoles v).aids ∧
    (readRoles v).invites = (Access.readRoles v).invites ∧
    (readRoles v).grants = (Access.readRoles v).grants ∧
    (readRoles v).tiers = (Access.readRoles v).tiers ∧
    ∀ k,(readRoles v).ranks.get? k = ((Access.readRoles v).ranks.get? k).bind AccountRank.parse := by
  have hempty : v.bind Json.asObj = none → v.filter Json.isObj = none := by
    intro h
    match v with
    | none => rfl
    | some (.obj fields) => cases h
    | some .null => rfl
    | some (.bool _) => rfl
    | some (.num _) => rfl
    | some (.str _) => rfl
    | some (.arr _) => rfl
  cases hv : v.bind Json.asObj with
  | none =>
    unfold readRoles Access.readRoles
    rw [hv,hempty hv]
    exact ⟨rfl,rfl,rfl,rfl,fun _ => rfl⟩
  | some fields =>
    obtain ⟨r,rfl,hr⟩ := Option.bind_eq_some_iff.mp hv
    cases r with
    | obj fields' =>
      cases hr
      exact ⟨rfl,rfl,rfl,rfl,fun k => readRanks k _⟩
    | _ => cases hr

section
variable [Lowercase]

theorem readRow_alike (v : Json) :
    Option.Rel Alike (Access.readRow v) (v.asObj.bind readEntry) := by
  cases v with
  | obj fields =>
    unfold Access.readRow readEntry
    dsimp only [Json.asObj,Option.bind_some]
    cases (Json.obj fields).text "mode" with
    | none => exact .none
    | some m =>
      have halike : ∀ restricted,Alike
          { restricted := restricted
            allow := Access.lowerUnique ((Json.obj fields).get "allow")
            groups := Json.collect (fun _ m =>
              if m.asArr.isSome then some (Access.lowerUnique (some m)) else none)
              ((Json.obj fields).get "groups")
            roles := Access.readRoles ((Json.obj fields).get "roles") }
          { restricted := restricted
            allow := lowerSet ((Json.obj fields).get "allow")
            groups := (Json.collect (fun _ m =>
              if m.asArr.isSome then some (lowerSet (some m)) else none)
              ((Json.obj fields).get "groups")).sorted
            roles := readRoles ((Json.obj fields).get "roles") } := by
        intro restricted
        obtain ⟨haids,hinvites,hgrants,htiers,hranks⟩ :=
          readRoles_alike ((Json.obj fields).get "roles")
        exact ⟨rfl,OrdMap.entries_sorted _,haids,hinvites,hgrants,htiers,hranks⟩
      dsimp only [Option.bind_some]
      split
      · exact .some (halike _)
      split
      · exact .some (halike _)
      · exact .none
  | _ => exact .none

theorem parse_alike {fromStr : Text → Option Json} {text : Text} {raw : List (Text × Json)}
    (h : fromStr text = some (.obj raw)) (r : Text) :
    Option.Rel Alike ((Store.fromMap raw).rows.get? r)
      ((AccessState.parse fromStr (some text)).services.get? r) := by
  unfold AccessState.parse Store.fromMap
  dsimp only
  rw [h]
  refine OrdMap.alike_collect (fun k v => ?_) raw r
  change Option.Rel Alike (if k = "*".toList then none else _) _
  split
  · exact .none
  · exact readRow_alike v

end

theorem rankKey_toPrincipal (p : Person) : rankKey (toPrincipal p) = Access.rankKey p := by
  cases p <;> rfl

theorem parse_refused (v : Text) : AccountRank.parse v = some .refused ↔ v = "refused".toList := by
  unfold AccountRank.parse
  constructor
  · intro h
    split at h
    · assumption
    split at h
    · cases h
    split at h
    · cases h
    split at h
    · cases h
    · cases h
  · intro h
    rw [if_pos h]

/-- What an admin set for a person, on either side. -/
theorem set_alike {s : Store} {r : Text} {e : Option Entry}
    (hrow : Option.Rel Alike (s.rows.get? r) e) (k : Text) :
    (e.bind fun e => e.roles.ranks.get? k) =
      ((s.entry r).roles.ranks.get? k).bind AccountRank.parse := by
  unfold Store.entry
  generalize s.rows.get? r = row at hrow
  cases hrow with
  | none => rfl
  | some h => exact h.ranks k

/-- Whoever has a rank on one side has one on the other. -/
theorem accountRank_isSome {s : Store} {acc : AppAccess} {people : People} {catchingUp : List Text}
    (hrow : Option.Rel Alike (s.rows.get? acc.serviceRef) acc.entry)
    (hcatch : acc.catchingUp = catchingUp.contains acc.serviceRef) (p : Person) :
    (acc.accountRank (toPrincipal p)).isSome =
      (View.accountRank ⟨s,people,catchingUp⟩ acc.serviceRef p).isSome := by
  unfold AppAccess.accountRank View.accountRank Access.rankUnder View.catching
  dsimp only
  rw [set_alike hrow,rankKey_toPrincipal,hcatch]
  generalize (s.entry acc.serviceRef).roles.ranks.get? (Access.rankKey p) = set
  have hrefused : set.bind AccountRank.parse = some .refused ↔ set = some "refused".toList := by
    cases set with
    | none => simp
    | some v =>
      rw [Option.bind_some,parse_refused]
      simp
  by_cases hset : set = some "refused".toList
  · rw [if_pos (hrefused.mpr hset),if_pos hset]
    rfl
  rw [if_neg (fun h => hset (hrefused.mp h)),if_neg hset]
  cases p with
  | device pubHex tier legacy =>
    simp only [toPrincipal,Principal.isCoManager,Bool.false_and,Bool.false_eq_true,↓reduceIte]
    split <;> rfl
  | coManager c =>
    cases catchingUp.contains acc.serviceRef with
    | true => rfl
    | false =>
      simp only [toPrincipal,Principal.isCoManager,Bool.and_false,Bool.false_eq_true,↓reduceIte]
      split <;> rfl

/-- The same rank in either spelling. -/
theorem ladder_alike (s : Option Text) : Access.ladderRole s = (Rank.ladder s).map Rank.asStr := by
  cases s with
  | none => rfl
  | some s =>
    simp only [Access.ladderRole,Rank.ladder,Option.bind_some]
    split
    · rfl
    split
    · rfl
    split
    · rfl
    · rfl

theorem higher_alike (best : Option Rank) (r : Rank) :
    Access.higher (best.map Rank.asStr) r.asStr = (best.elim r (fun b => b.max r)).asStr := by
  cases best with
  | none => rfl
  | some b => cases b <;> cases r <;> decide

/-- The best so far, with one more grant. -/
def better (best : Option Rank) (g : Rank × Bool) : Option Rank :=
  some (best.elim g.1 (fun b => b.max g.1))

theorem better_comm (a b : Rank × Bool) (best : Option Rank) :
    better (better best a) b = better (better best b) a := by
  obtain ⟨a,_⟩ := a
  obtain ⟨b,_⟩ := b
  cases best with
  | none => cases a <;> cases b <;> rfl
  | some c => cases a <;> cases b <;> cases c <;> rfl

/-- The best of a list of grants, as the store spells it. -/
theorem best_alike (grants : List (Rank × Bool)) (best : Option Rank) :
    (grants.map fun g => (g.1.asStr,g.2)).foldl (fun best g => some (Access.higher best g.1))
      (best.map Rank.asStr) = (grants.foldl better best).map Rank.asStr := by
  induction grants generalizing best with
  | nil => rfl
  | cons g grants ih =>
    rw [List.map_cons,List.foldl_cons,List.foldl_cons,higher_alike]
    exact ih (some _)

/-- What a grant gives, as the store spells it. -/
theorem grantRole_alike {row : Row} {e : Entry} (h : Alike row e) (aid defaultRole id : Text) :
    Access.grantRole row aid defaultRole id =
      ((AppAccess.grantRank e aid defaultRole id).1.asStr,
        (AppAccess.grantRank e aid defaultRole id).2) := by
  unfold Access.grantRole AppAccess.grantRank
  rw [← h.grants,← h.invites,ladder_alike,ladder_alike]
  generalize Rank.ladder (e.roles.grants.get? (id ++ '/' :: aid)) = granted
  generalize Rank.ladder (e.roles.invites.get? id) = invited
  have hunset : Access.unsetRank row id defaultRole = (AppAccess.unsetRank e id defaultRole).asStr := by
    unfold Access.unsetRank AppAccess.unsetRank
    rw [← h.tiers,ladder_alike]
    split
    · cases Rank.ladder (some defaultRole) <;> rfl
    · rfl
  have htier : (Access.cappedTier (e.roles.tiers.get? id) ||
      Decidable.decide (e.roles.tiers.get? id = some "admin".toList)) = Decidable.decide
        (e.roles.tiers.get? id ∈ [some "member".toList,some "co-manager".toList,some "admin".toList]) := by
    unfold Access.cappedTier
    rw [← Bool.decide_or]
    exact decide_eq_decide.mpr (by simp only [List.mem_cons,List.not_mem_nil,or_false,or_assoc])
  dsimp only
  rw [hunset,← h.tiers,Bool.or_assoc,htier]
  cases granted with
  | some _ => rfl
  | none => cases invited <;> rfl

section
variable [Lowercase]

theorem isAllowed_alike {s : Store} {state : AccessState} (people : People) (catchingUp : List Text)
    (r key : Text) (hrow : Option.Rel Alike (s.rows.get? r) (state.services.get? r)) :
    View.isAllowed ⟨s,people,catchingUp⟩ r key =
      AppAccess.isAllowed ⟨state,principals people,r,catchingUp.contains r⟩ key := by
  unfold View.isAllowed AppAccess.isAllowed
  dsimp only
  rw [classify_principals]
  cases people.classify (toLowercase key) with
  | some p =>
    exact (@accountRank_isSome s ⟨state,principals people,r,catchingUp.contains r⟩ people catchingUp
      hrow rfl p).symm
  | none =>
    dsimp only [Option.map_none]
    unfold View.catching AppAccess.entry Store.entry
    dsimp only
    generalize s.rows.get? r = row at hrow
    generalize state.services.get? r = e at hrow
    cases catchingUp.contains r with
    | true => rfl
    | false =>
      cases hrow with
      | none => rfl
      | some h => simp [h.allow]

theorem roleOf_alike {s : Store} {state : AccessState} (people : People) (catchingUp : List Text)
    (r aid defaultRole : Text) (hrow : Option.Rel Alike (s.rows.get? r) (state.services.get? r)) :
    s.roleOf r aid defaultRole =
      (AppAccess.roleOf ⟨state,principals people,r,catchingUp.contains r⟩ aid defaultRole).map
        Rank.asStr := by
  unfold Store.roleOf AppAccess.roleOf AppAccess.entry Store.row
  dsimp only
  generalize s.rows.get? r = row at hrow
  generalize state.services.get? r = e at hrow
  cases hrow with
  | none => rfl
  | some h =>
    rename_i row e
    dsimp only
    rw [ladder_alike,← h.aids]
    cases Rank.ladder (e.roles.aids.get? (toLowercase aid)) with
    | some d => rfl
    | none =>
      dsimp only [Option.map_none]
      -- the two sides go through the same grants in their own orders
      have hgrants : (row.grantsOf (toLowercase aid)).map
          (AppAccess.grantRank e (toLowercase aid) defaultRole) |>.Perm
          ((e.groups.entries.filter (fun g => g.2.contains (toLowercase aid))).map
            (fun g => AppAccess.grantRank e (toLowercase aid) defaultRole g.1)) := by
        unfold Row.grantsOf
        rw [List.map_map]
        exact ((h.groups.filter _).map _).symm
      have hroles : (row.grantsOf (toLowercase aid)).map
          (Access.grantRole row (toLowercase aid) defaultRole) =
          ((row.grantsOf (toLowercase aid)).map
            (AppAccess.grantRank e (toLowercase aid) defaultRole)).map fun g => (g.1.asStr,g.2) := by
        rw [List.map_map]
        exact List.map_congr_left fun id _ => grantRole_alike h (toLowercase aid) defaultRole id
      rw [hroles,List.any_map]
      have hbest := best_alike ((row.grantsOf (toLowercase aid)).map
        (AppAccess.grantRank e (toLowercase aid) defaultRole)) none
      rw [Option.map_none] at hbest
      have hsame := hgrants.foldl_eq' (fun a _ b _ best => better_comm a b best) none
      rw [hbest,hsame,hgrants.any_eq]
      generalize (e.groups.entries.filter (fun g => g.2.contains (toLowercase aid))).map
        (fun g => AppAccess.grantRank e (toLowercase aid) defaultRole g.1) = grants
      change (if grants.any (fun g => g.2) = true then (grants.foldl better none).map Rank.asStr
        else none) = (if grants.any (fun g => g.2) = true then grants.foldl better none
        else none).map Rank.asStr
      cases grants.any (fun g => g.2) <;> rfl

/-- The two loaders read any file that holds an object alike: the same keys are let in, and
have the same role. -/
theorem access_file_is_read_alike {fromStr : Text → Option Json} {text : Text}
    {raw : List (Text × Json)} (h : fromStr text = some (.obj raw)) (people : People)
    (catchingUp : List Text) (r key defaultRole : Text) :
    ∃ s,Store.parse fromStr (some text) = .ok s ∧
      View.isAllowed ⟨s,people,catchingUp⟩ r key = AppAccess.isAllowed
        ⟨AccessState.parse fromStr (some text),principals people,r,catchingUp.contains r⟩ key ∧
      s.roleOf r key defaultRole = (AppAccess.roleOf
        ⟨AccessState.parse fromStr (some text),principals people,r,catchingUp.contains r⟩ key
        defaultRole).map Rank.asStr := by
  refine ⟨Store.fromMap raw,?_,isAllowed_alike people catchingUp r key (parse_alike h r),
    roleOf_alike people catchingUp r key defaultRole (parse_alike h r)⟩
  unfold Store.parse
  dsimp only
  rw [h]
  rfl

end

/-- A file with an open app, one guest on its list and a manager by their invite. -/
def sampleText : Text :=
  "\x7b\"app\":\x7b\"mode\":\"open\",\"allow\":[\"AA\"],\"groups\":\x7b\"i\":[\"aa\"]\x7d,\"roles\":\x7b\"invites\":\x7b\"i\":\"editor\"\x7d\x7d\x7d\x7d".toList

def sampleFile : List (Text × Json) :=
  [("app".toList,.obj [("mode".toList,.str "open".toList),
    ("allow".toList,.arr [.str "AA".toList]),
    ("groups".toList,.obj [("i".toList,.arr [.str "aa".toList])]),
    ("roles".toList,.obj [("invites".toList,.obj [("i".toList,.str "editor".toList)])])])]

def samplePeople : People :=
  ⟨⟨"owner".toList,[],none,none,"box.example".toList,false⟩,[],[],false⟩

theorem access_file_is_read_alike_once :
    let fromStr := fun t => if t = sampleText then some (Json.obj sampleFile) else none
    ∃ s,Store.parse fromStr (some sampleText) = .ok s ∧
      View.isAllowed ⟨s,samplePeople,[]⟩ "app".toList "aA".toList = AppAccess.isAllowed
        ⟨AccessState.parse fromStr (some sampleText),principals samplePeople,"app".toList,false⟩
        "aA".toList ∧
      s.roleOf "app".toList "aA".toList "viewer".toList = (AppAccess.roleOf
        ⟨AccessState.parse fromStr (some sampleText),principals samplePeople,"app".toList,false⟩
        "aA".toList "viewer".toList).map Rank.asStr :=
  access_file_is_read_alike (if_pos rfl) samplePeople [] "app".toList "aA".toList "viewer".toList

end Flagship.Gate.Proofs

import Flagship.Access.StateFile
import Flagship.Access.Proofs.Calls

namespace Flagship.Journal.Json
open Lib Access

/-- One value in two readings: an object has each name once, and the order of its fields
does not count. -/
inductive Same : Json → Json → Prop
  | null : Same .null .null
  | bool (b : Bool) : Same (.bool b) (.bool b)
  | num (n : Number) : Same (.num n) (.num n)
  | str (s : Text) : Same (.str s) (.str s)
  | arr {xs ys : List Json} (h : List.Forall₂ Same xs ys) : Same (.arr xs) (.arr ys)
  | obj {xs ys : List (Text × Json)} (hx : (xs.map Prod.fst).Nodup) (hy : (ys.map Prod.fst).Nodup)
      (h : ∀ k,Option.Rel Same (xs.lookup k) (ys.lookup k)) : Same (.obj xs) (.obj ys)

namespace Same
variable {v w : Json}

theorem asStr (h : Same v w) : v.asStr = w.asStr := by cases h <;> rfl

theorem asNum (h : Same v w) : v.asNum = w.asNum := by cases h <;> rfl

theorem asBool (h : Same v w) : v.asBool = w.asBool := by cases h <;> rfl

theorem isObj (h : Same v w) : v.isObj = w.isObj := by cases h <;> rfl

theorem isArr (h : Same v w) : v.asArr.isSome = w.asArr.isSome := by cases h <;> rfl

theorem get (h : Same v w) (name : String) : Option.Rel Same (v.get name) (w.get name) := by
  cases h with
  | obj _ _ h => exact h name.toList
  | _ => exact .none

theorem text (h : Same v w) (name : String) : v.text name = w.text name := by
  unfold Json.text
  have hget := h.get name
  generalize v.get name = a at hget
  generalize w.get name = b at hget
  cases hget with
  | none => rfl
  | some hget => exact hget.asStr

end Same

/-- An object with each name once is the same as itself when its values are. -/
theorem same_obj {fields : List (Text × Json)} (hnodup : (fields.map Prod.fst).Nodup)
    (h : ∀ e ∈ fields,Same e.2 e.2) : Same (.obj fields) (.obj fields) := by
  refine .obj hnodup hnodup fun k => ?_
  cases hk : fields.lookup k with
  | none => exact .none
  | some v =>
    obtain ⟨before,after,rfl,_⟩ := List.lookup_eq_some_iff.mp hk
    exact .some (h (k,v) (by simp))

theorem same_texts (texts : List Text) : Same (.arr (texts.map .str)) (.arr (texts.map .str)) := by
  refine .arr ?_
  induction texts with
  | nil => exact .nil
  | cons t texts ih => exact .cons (.str t) ih

/-- A map compares its keys by deciding their equality, a list of fields as lists. -/
theorem lookup_decidable {α : Type} (es : List (Text × α)) (k : Text) :
    @List.lookup Text α instBEqOfDecidableEq k es = es.lookup k := by
  rw [lawful_beq_subsingleton (instBEqOfDecidableEq : BEq Text) List.instBEq]

/-- Two readings of an object are collected alike. -/
theorem collect_same {ν : Type} {R : ν → ν → Prop} {f : Text → Json → Option ν}
    (hf : ∀ k a b,Same a b → Option.Rel R (f k a) (f k b)) {v w : Option Json}
    (h : Option.Rel Same v w) (k : Text) :
    Option.Rel R ((collect f v).get? k) ((collect f w).get? k) := by
  cases h with
  | none => exact .none
  | some h =>
    cases h with
    | obj hx hy h =>
      rename_i xs ys
      unfold collect
      dsimp only [Option.bind_some,asObj,Option.getD_some]
      rw [OrdMap.get?_collect _ hx,OrdMap.get?_collect _ hy,lookup_decidable,lookup_decidable]
      have hk := h k
      generalize xs.lookup k = a at hk
      generalize ys.lookup k = b at hk
      cases hk with
      | none => exact .none
      | some hk => exact hf k _ _ hk
    | _ => exact .none

end Flagship.Journal.Json

namespace Flagship.Access
open Lib
open Journal (Json)

/-- Two maps with the same keys and values. -/
def SameMap {ν : Type} (m m' : OrdMap Text ν) : Prop := ∀ k,m.get? k = m'.get? k

/-- Two rows that are one, the order of their groups and of their maps aside. -/
structure Row.Same (e e' : Row) : Prop where
  restricted : e.restricted = e'.restricted
  allow : e.allow = e'.allow
  groups : SameMap e.groups e'.groups
  aids : SameMap e.roles.aids e'.roles.aids
  invites : SameMap e.roles.invites e'.roles.invites
  grants : SameMap e.roles.grants e'.roles.grants
  seq : SameMap e.roles.seq e'.roles.seq
  tiers : SameMap e.roles.tiers e'.roles.tiers
  creators : SameMap e.roles.creators e'.roles.creators
  ranks : SameMap e.roles.ranks e'.roles.ranks
  evidence : SameMap e.roles.evidence e'.roles.evidence
  withdrawn : SameMap e.roles.withdrawn e'.roles.withdrawn
  coManagers : SameMap e.roles.coManagers e'.roles.coManagers

/-- Two stores that are one, the order of their rows aside. -/
def Store.Same (s s' : Store) : Prop :=
  s.defaultRestricted = s'.defaultRestricted ∧
    ∀ r,Option.Rel Row.Same (s.rows.get? r) (s'.rows.get? r)

theorem Row.Same.trans {a b c : Row} (h : a.Same b) (h' : b.Same c) : a.Same c where
  restricted := h.restricted.trans h'.restricted
  allow := h.allow.trans h'.allow
  groups := fun k => (h.groups k).trans (h'.groups k)
  aids := fun k => (h.aids k).trans (h'.aids k)
  invites := fun k => (h.invites k).trans (h'.invites k)
  grants := fun k => (h.grants k).trans (h'.grants k)
  seq := fun k => (h.seq k).trans (h'.seq k)
  tiers := fun k => (h.tiers k).trans (h'.tiers k)
  creators := fun k => (h.creators k).trans (h'.creators k)
  ranks := fun k => (h.ranks k).trans (h'.ranks k)
  evidence := fun k => (h.evidence k).trans (h'.evidence k)
  withdrawn := fun k => (h.withdrawn k).trans (h'.withdrawn k)
  coManagers := fun k => (h.coManagers k).trans (h'.coManagers k)

theorem Store.Same.trans {a b c : Store} (h : a.Same b) (h' : b.Same c) : a.Same c := by
  refine ⟨h.1.trans h'.1,fun r => ?_⟩
  have hab := h.2 r
  have hbc := h'.2 r
  generalize a.rows.get? r = x at hab
  generalize b.rows.get? r = y at hab hbc
  generalize c.rows.get? r = z at hbc
  cases hab with
  | none =>
    cases hbc
    exact .none
  | some hab =>
    cases hbc with
    | some hbc => exact .some (hab.trans hbc)

theorem SameMap.retain {ν : Type} {m m' : OrdMap Text ν} (p : Text → ν → Bool) (h : SameMap m m') :
    SameMap (retain p m) (retain p m') := by
  intro k
  unfold Access.retain
  rw [OrdMap.get?_filterMapVals,OrdMap.get?_filterMapVals,h k]

theorem eq_of_rel_eq {ν : Type} {a b : Option ν} (h : Option.Rel Eq a b) : a = b := by
  cases h with
  | none => rfl
  | some h => rw [h]

theorem rel_of_eq {ν : Type} {a b : Option ν} (h : a = b) : Option.Rel Eq a b := by
  subst h
  cases a with
  | none => exact .none
  | some _ => exact .some rfl

/-- Fields that are read one by one, and the same from either reading. -/
theorem sameMap_collect {ν : Type} {f : Text → Json → Option ν}
    (hf : ∀ k a b,Json.Same a b → f k a = f k b) {v w : Option Json}
    (h : Option.Rel Json.Same v w) : SameMap (Json.collect f v) (Json.collect f w) := by
  intro k
  exact eq_of_rel_eq (Json.collect_same (fun k a b hab => rel_of_eq (hf k a b hab)) h k)

theorem strMap_same {v w : Option Json} (h : Option.Rel Json.Same v w) :
    SameMap (strMap v) (strMap w) :=
  sameMap_collect (fun _ _ _ hab => hab.asStr) h

theorem readCoManager_same {k : Text} {a b : Json} (h : Json.Same a b) :
    readCoManager k a = readCoManager k b := by
  have hnum : ((a.get "issuedAt").bind Json.asNum) = ((b.get "issuedAt").bind Json.asNum) := by
    have hget := h.get "issuedAt"
    generalize a.get "issuedAt" = x at hget
    generalize b.get "issuedAt" = y at hget
    cases hget with
    | none => rfl
    | some hget => exact hget.asNum
  have hended : ((a.get "ended").bind Json.asBool) = ((b.get "ended").bind Json.asBool) := by
    have hget := h.get "ended"
    generalize a.get "ended" = x at hget
    generalize b.get "ended" = y at hget
    cases hget with
    | none => rfl
    | some hget => exact hget.asBool
  unfold readCoManager
  simp only [h.isObj,h.text,hnum,hended]

theorem readRoles_same {v w : Option Json} (h : Option.Rel Json.Same v w) (restricted : Bool)
    (allow : List Text) {groups groups' : OrdMap Text (List Text)} (hgroups : SameMap groups groups') :
    Row.Same ⟨restricted,allow,groups,readRoles v⟩ ⟨restricted,allow,groups',readRoles w⟩ := by
  cases h with
  | none => exact ⟨rfl,rfl,hgroups,fun _ => rfl,fun _ => rfl,fun _ => rfl,fun _ => rfl,fun _ => rfl,
      fun _ => rfl,fun _ => rfl,fun _ => rfl,fun _ => rfl,fun _ => rfl⟩
  | some h =>
    rename_i v w
    have hobj := h.isObj
    unfold readRoles
    rw [Option.filter_some,Option.filter_some,← hobj]
    cases v.isObj with
    | false => exact ⟨rfl,rfl,hgroups,fun _ => rfl,fun _ => rfl,fun _ => rfl,fun _ => rfl,
        fun _ => rfl,fun _ => rfl,fun _ => rfl,fun _ => rfl,fun _ => rfl,fun _ => rfl⟩
    | true =>
      exact
        { restricted := rfl
          allow := rfl
          groups := hgroups
          aids := strMap_same (h.get "aids")
          invites := strMap_same (h.get "invites")
          grants := strMap_same (h.get "grants")
          seq := sameMap_collect (fun _ _ _ hab => hab.asNum) (h.get "seq")
          tiers := strMap_same (h.get "tiers")
          creators := (strMap_same (h.get "creators")).retain _
          ranks := (strMap_same (h.get "ranks")).retain _
          evidence := (strMap_same (h.get "evidence")).retain _
          withdrawn := (strMap_same (h.get "withdrawn")).retain _
          coManagers := sameMap_collect (f := readCoManager) (fun _ _ _ hab => readCoManager_same hab)
            (h.get "coManagers") }

theorem lookup_map {ν α : Type} (f : ν → α) (es : List (Text × ν)) (k : Text) :
    (es.map fun e => (e.1,f e.2)).lookup k = (es.lookup k).map f := by
  induction es with
  | nil => rfl
  | cons e es ih =>
    rw [List.map_cons,List.lookup_cons,List.lookup_cons,ih]
    cases k == e.1 <;> rfl

/-- The fields of a map that was written are its pairs. -/
theorem get?_collect_mapJson {ν μ : Type} (f : Text → Json → Option μ) (enc : ν → Json)
    (m : OrdMap Text ν) (k : Text) :
    (Json.collect f (some (mapJson enc m))).get? k = (m.get? k).bind fun v => f k (enc v) := by
  have hnodup : ((m.entries.map fun e => (e.1,enc e.2)).map Prod.fst).Nodup := by
    rw [List.map_map]
    exact m.nodup
  unfold Json.collect mapJson
  dsimp only [Option.bind_some,Json.asObj,Option.getD_some]
  rw [OrdMap.get?_collect _ hnodup,Json.lookup_decidable,lookup_map,OrdMap.get?,Json.lookup_decidable]
  cases m.entries.lookup k <;> rfl

/-- What is written of a map is one value. -/
theorem mapJson_same {ν : Type} {enc : ν → Json} (h : ∀ v,(enc v).Same (enc v)) (m : OrdMap Text ν) :
    (mapJson enc m).Same (mapJson enc m) := by
  refine Json.same_obj ?_ ?_
  · rw [List.map_map]
    exact m.nodup
  · intro e he
    obtain ⟨p,_,rfl⟩ := List.mem_map.mp he
    exact h p.2

theorem coManagerJson_same (c : CoManagerRecord) : (coManagerJson c).Same (coManagerJson c) := by
  have hnames : (["pub","level","label","serverDomain","issuedAt","ended"].map
      String.toList).Nodup := by decide
  refine Json.same_obj hnames ?_
  simp only [List.forall_mem_cons]
  exact ⟨.str _,.str _,.str _,.str _,.num _,.bool _,nofun⟩

theorem rolesJson_same (r : Roles) : (rolesJson r).Same (rolesJson r) := by
  have hnames : (["aids","invites","grants","seq","tiers","creators","ranks","evidence","withdrawn",
      "coManagers"].map String.toList).Nodup := by decide
  have htexts := fun m : OrdMap Text Text => mapJson_same (fun v => Json.Same.str v) m
  refine Json.same_obj hnames ?_
  simp only [List.forall_mem_cons]
  exact ⟨htexts _,htexts _,htexts _,mapJson_same (fun n => .num n) _,htexts _,htexts _,htexts _,
    htexts _,htexts _,mapJson_same coManagerJson_same _,nofun⟩

theorem rowJson_same (e : Row) : (rowJson e).Same (rowJson e) := by
  have hnames : (["mode","allow","groups","roles"].map String.toList).Nodup := by decide
  refine Json.same_obj hnames ?_
  simp only [List.forall_mem_cons]
  exact ⟨.str _,Json.same_texts _,mapJson_same Json.same_texts _,rolesJson_same _,nofun⟩

theorem strMap_mapJson (m : OrdMap Text Text) : SameMap (strMap (some (mapJson .str m))) m := by
  intro k
  unfold strMap
  rw [get?_collect_mapJson]
  cases m.get? k <;> rfl

/-- A filter that keeps every pair changes nothing. -/
theorem SameMap.retain_all {ν : Type} {m m' : OrdMap Text ν} {p : Text → ν → Bool}
    (h : SameMap m m') (hp : ∀ k v,m'.get? k = some v → p k v = true) : SameMap (Access.retain p m) m' := by
  intro k
  unfold Access.retain
  rw [OrdMap.get?_filterMapVals,h k]
  cases hk : m'.get? k with
  | none => rfl
  | some v =>
    rw [Option.bind_some,if_pos (hp k v hk)]

theorem readCoManager_coManagerJson {id : Text} {c : CoManagerRecord} (hid : lowerHex id 32 = true)
    (hpub : lowerHex c.pubHex 64 = true) (hlevel : c.level ∈ ["view".toList,"manage".toList]) :
    readCoManager id (coManagerJson c) = some c := by
  have htext : (coManagerJson c).text "pub" = some c.pubHex ∧
      (coManagerJson c).text "level" = some c.level ∧
      (coManagerJson c).text "label" = some c.label ∧
      (coManagerJson c).text "serverDomain" = some c.serverDomain := ⟨rfl,rfl,rfl,rfl⟩
  have hnum : ((coManagerJson c).get "issuedAt").bind Json.asNum = some c.issuedAt := rfl
  have hended : ((coManagerJson c).get "ended").bind Json.asBool = some c.ended := rfl
  obtain ⟨hpubText,hlevelText,hlabelText,hdomainText⟩ := htext
  unfold readCoManager
  rw [hpubText,hlevelText,hlabelText,hdomainText,hnum,hended]
  simp only [hid,Bool.true_and]
  rw [if_pos (show (coManagerJson c).isObj = true from rfl),Option.filter_some,if_pos hpub,
    Option.filter_some,if_pos (decide_eq_true hlevel)]
  cases c with
  | mk pubHex level label serverDomain issuedAt ended => cases ended <;> rfl

section
variable [Lowercase]

theorem lowerUnique_same {v w : Option Json} (h : Option.Rel Json.Same v w) :
    lowerUnique v = lowerUnique w := by
  have htexts : ∀ {xs ys : List Json},List.Forall₂ Json.Same xs ys →
      xs.filterMap Json.asStr = ys.filterMap Json.asStr := by
    intro xs ys h
    induction h with
    | nil => rfl
    | cons hxy _ ih => rw [List.filterMap_cons,List.filterMap_cons,hxy.asStr,ih]
  cases h with
  | none => rfl
  | some h =>
    cases h with
    | arr h =>
      unfold lowerUnique
      dsimp only [Option.bind_some,Json.asArr,Option.getD_some]
      rw [htexts h]
    | _ => rfl

theorem readRow_same {a b : Json} (h : Json.Same a b) :
    Option.Rel Row.Same (readRow a) (readRow b) := by
  have hgroups := sameMap_collect (f := fun _ (m : Json) =>
    if m.asArr.isSome then some (lowerUnique (some m)) else none)
    (fun _ x y hxy => by
      rw [hxy.isArr,lowerUnique_same (.some hxy)]) (h.get "groups")
  have hsame := fun restricted => readRoles_same (h.get "roles") restricted
    (lowerUnique (b.get "allow")) hgroups
  unfold readRow
  rw [h.text,lowerUnique_same (h.get "allow")]
  cases b.text "mode" with
  | none => exact .none
  | some m =>
    dsimp only
    split
    · exact .some (hsame _)
    split
    · exact .some (hsame _)
    · exact .none

/-- The two readings of a file are one state. -/
theorem fromMap_same {xs ys : List (Text × Json)} (h : Json.Same (.obj xs) (.obj ys)) :
    (Store.fromMap xs).Same (Store.fromMap ys) := by
  cases h with
  | obj hx hy h =>
    constructor
    · have hdefault := h defaultRow
      unfold Store.fromMap
      dsimp only
      generalize xs.lookup defaultRow = a at hdefault
      generalize ys.lookup defaultRow = b at hdefault
      cases hdefault with
      | none => rfl
      | some hdefault => simp only [Option.bind_some,hdefault.text]
    · exact Json.collect_same (v := some (.obj xs)) (w := some (.obj ys)) (fun k a b hab => by
        split
        · exact .none
        · exact readRow_same hab) (.some (.obj hx hy h))

/-- Every text is lowercase, and there once. -/
def Plain (texts : List Text) : Prop := texts.Nodup ∧ ∀ a ∈ texts,toLowercase a = a

/-- A row of which the loader drops nothing. -/
structure Row.Kept (e : Row) : Prop where
  allow : Plain e.allow
  groups : ∀ id m,e.groups.get? id = some m → Plain m
  creators : ∀ id k,e.roles.creators.get? id = some k → lowerHex k 64 = true
  ranks : ∀ k v,e.roles.ranks.get? k = some v → (rankKeyOk k && accountRankOk v) = true
  evidence : ∀ k v,e.roles.evidence.get? k = some v → evidenceOk v = true
  withdrawn : ∀ id v,e.roles.withdrawn.get? id = some v → withdrawnOk v = true
  coManagers : ∀ id c,e.roles.coManagers.get? id = some c → lowerHex id 32 = true ∧
    lowerHex c.pubHex 64 = true ∧ c.level ∈ ["view".toList,"manage".toList]

/-- Texts that are lowercase and different are read back as they were. -/
theorem lowerUnique_plain {texts : List Text} (h : Plain texts) :
    lowerUnique (some (.arr (texts.map .str))) = texts := by
  have htexts : (texts.map Json.str).filterMap Json.asStr = texts := by
    rw [List.filterMap_map]
    exact List.filterMap_some
  have hfold : ∀ (out rest : List Text),(out ++ rest).Nodup → (∀ a ∈ rest,toLowercase a = a) →
      rest.foldl (fun out s => if out.contains (toLowercase s) then out else out ++ [toLowercase s])
        out = out ++ rest := by
    intro out rest
    induction rest generalizing out with
    | nil => simp
    | cons a rest ih =>
      intro hnodup hlower
      have ha : toLowercase a = a := hlower a (by simp)
      have hnew : a ∉ out := by
        intro hin
        exact List.disjoint_of_nodup_append hnodup hin (by simp)
      rw [List.foldl_cons,ha,if_neg (by simpa using hnew),ih (out ++ [a])]
      · simp
      · simpa using hnodup
      · exact fun b hb => hlower b (List.mem_cons_of_mem a hb)
  unfold lowerUnique
  dsimp only [Option.bind_some,Json.asArr,Option.getD_some]
  rw [htexts,hfold [] texts h.1 h.2]
  rfl

/-- A row the loader drops nothing of is read back. -/
theorem readRow_rowJson {e : Row} (h : e.Kept) : ∃ e',readRow (rowJson e) = some e' ∧ e'.Same e := by
  have hallow : (rowJson e).get "allow" = some (.arr (e.allow.map .str)) := rfl
  have hgroups : (rowJson e).get "groups" =
      some (mapJson (fun m => .arr (m.map .str)) e.groups) := rfl
  have hroles : (rowJson e).get "roles" = some (rolesJson e.roles) := rfl
  have hmode : (rowJson e).text "mode" =
      some (if e.restricted then "restricted".toList else "open".toList) := rfl
  have hread : readRow (rowJson e) = some
      { restricted := e.restricted
        allow := lowerUnique (some (.arr (e.allow.map .str)))
        groups := Json.collect (fun _ m =>
          if m.asArr.isSome then some (lowerUnique (some m)) else none)
          (some (mapJson (fun m => .arr (m.map .str)) e.groups))
        roles := readRoles (some (rolesJson e.roles)) } := by
    unfold readRow
    rw [hallow,hgroups,hroles,hmode]
    cases e.restricted <;> rfl
  refine ⟨_,hread,?_⟩
  exact
    { restricted := rfl
      allow := lowerUnique_plain h.allow
      groups := by
        intro k
        rw [get?_collect_mapJson]
        cases hk : e.groups.get? k with
        | none => rfl
        | some m =>
          rw [Option.bind_some,lowerUnique_plain (h.groups k m hk)]
          rfl
      aids := strMap_mapJson e.roles.aids
      invites := strMap_mapJson e.roles.invites
      grants := strMap_mapJson e.roles.grants
      seq := by
        intro k
        refine (get?_collect_mapJson _ _ e.roles.seq k).trans ?_
        cases e.roles.seq.get? k <;> rfl
      tiers := strMap_mapJson e.roles.tiers
      creators := (strMap_mapJson e.roles.creators).retain_all h.creators
      ranks := (strMap_mapJson e.roles.ranks).retain_all h.ranks
      evidence := (strMap_mapJson e.roles.evidence).retain_all h.evidence
      withdrawn := (strMap_mapJson e.roles.withdrawn).retain_all h.withdrawn
      coManagers := by
        intro k
        refine (get?_collect_mapJson _ _ e.roles.coManagers k).trans ?_
        cases hk : e.roles.coManagers.get? k with
        | none => rfl
        | some c =>
          obtain ⟨hid,hpub,hlevel⟩ := h.coManagers k c hk
          exact readCoManager_coManagerJson hid hpub hlevel }

/-- A store of which the loader drops nothing. -/
def Store.Kept (s : Store) : Prop :=
  ∀ r e,s.rows.get? r = some e → r ≠ defaultRow ∧ e.Kept

theorem Store.Kept.absent {s : Store} (h : s.Kept) : s.rows.get? defaultRow = none := by
  cases hr : s.rows.get? defaultRow with
  | none => rfl
  | some e => exact absurd rfl (h _ _ hr).1

/-- The fields written: the default where it is members-only, and a field for each row. -/
theorem lookup_toJson {s : Store} (h : s.Kept) : ∃ raw,s.toJson = .obj raw ∧
    (raw.map Prod.fst).Nodup ∧
    (∀ r,r ≠ defaultRow → raw.lookup r = (s.rows.get? r).map rowJson) ∧
    ((raw.lookup defaultRow).bind fun e => e.text "mode") =
      if s.defaultRestricted then some "restricted".toList else none := by
  have hrows : ∀ r,(s.rows.entries.map fun e => (e.1,rowJson e.2)).lookup r =
      (s.rows.get? r).map rowJson := by
    intro r
    rw [lookup_map,OrdMap.get?,Json.lookup_decidable]
  have hkeys : ((s.rows.entries.map fun e => (e.1,rowJson e.2)).map Prod.fst).Nodup := by
    rw [List.map_map]
    exact s.rows.nodup
  have habsent : defaultRow ∉ (s.rows.entries.map fun e => (e.1,rowJson e.2)).map Prod.fst := by
    rw [List.map_map]
    intro hmem
    obtain ⟨e,he⟩ := s.rows.mem_keys.mp hmem
    rw [h.absent] at he
    cases he
  have hget : ∀ (fields : List (Text × Json)),(fields.map Prod.fst).Nodup → ∀ r,
      (OrdMap.collect (fun _ v => some v) fields).entries.lookup r = fields.lookup r := by
    intro fields hnodup r
    have hcollect := OrdMap.get?_collect (fun _ (v : Json) => some v) hnodup r
    rw [OrdMap.get?,Json.lookup_decidable,Json.lookup_decidable] at hcollect
    rw [hcollect]
    cases fields.lookup r <;> rfl
  refine ⟨_,rfl,OrdMap.nodup _,?_⟩
  cases s.defaultRestricted with
  | false =>
    simp only [Bool.false_eq_true,↓reduceIte,List.nil_append,hget _ hkeys,hrows]
    exact ⟨fun _ _ => trivial,by rw [h.absent]; rfl⟩
  | true =>
    have hall : ∀ d : Json,(((defaultRow,d) :: s.rows.entries.map fun e => (e.1,rowJson e.2)).map
        Prod.fst).Nodup := fun d => List.nodup_cons.mpr ⟨habsent,hkeys⟩
    simp only [↓reduceIte,List.cons_append,List.nil_append,hget _ (hall _)]
    refine ⟨fun r hr => ?_,?_⟩
    · have hne : (r == defaultRow) = false := by simpa using hr
      rw [List.lookup_cons,hne]
      exact hrows r
    · rw [List.lookup_cons_self]
      rfl

/-- What was written is read back. -/
theorem fromMap_toJson {s : Store} (h : s.Kept) :
    ∃ raw,s.toJson = .obj raw ∧ (Store.fromMap raw).Same s := by
  obtain ⟨raw,hraw,hnodup,hrows,hdefault⟩ := lookup_toJson h
  refine ⟨raw,hraw,?_,fun r => ?_⟩
  · unfold Store.fromMap
    dsimp only
    rw [hdefault]
    cases s.defaultRestricted <;> rfl
  · unfold Store.fromMap
    dsimp only
    rw [OrdMap.get?_collect _ hnodup,Json.lookup_decidable]
    by_cases hr : r = defaultRow
    · rw [hr,h.absent]
      cases raw.lookup defaultRow with
      | none => exact .none
      | some e => exact .none
    · rw [hrows r hr]
      cases he : s.rows.get? r with
      | none => exact .none
      | some e =>
        obtain ⟨e',hread,hsame⟩ := readRow_rowJson (h r e he).2
        rw [Option.map_some,Option.bind_some,if_neg hr,hread]
        exact .some hsame

end
end Flagship.Access

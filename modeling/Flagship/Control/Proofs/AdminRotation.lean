import Flagship.Control.AdminRotation

namespace Flagship.Control.Proofs
open Lib

/-- A lowercase hex digit is an ASCII character lowercasing leaves alone. -/
theorem lowerHexDigits_char {n : Nat} {s : Text} (h : lowerHexDigits n s = true) :
    ∀ c ∈ s,c.toNat < 128 ∧ c.toLower = c := by
  rw [lowerHexDigits,Bool.and_eq_true,List.all_eq_true] at h
  intro c hc
  have hdigit := h.2 c hc
  simp only [Bool.or_eq_true,decide_eq_true_eq,Char.isDigit,ge_iff_le,Bool.and_eq_true,
    Char.le_def,UInt32.le_iff_toNat_le] at hdigit
  have h0 : ('0' : Char).val.toNat = 48 := rfl
  have h9 : ('9' : Char).val.toNat = 57 := rfl
  have ha : ('a' : Char).val.toNat = 97 := rfl
  have hf : ('f' : Char).val.toNat = 102 := rfl
  have hc' : c.toNat = c.val.toNat := rfl
  exact ⟨by omega,toLower_of_not_upper (by omega)⟩

theorem toLower_hex {n : Nat} {s : Text} (h : lowerHexDigits n s = true) : sqlLower s = s :=
  (List.map_congr_left fun c hc => (lowerHexDigits_char h c hc).2).trans (List.map_id s)

section
variable [Lowercase]

theorem toLowercase_hex {n : Nat} {s : Text} (h : lowerHexDigits n s = true) :
    toLowercase s = s :=
  (Lowercase.toLowercase_ascii s fun c hc => (lowerHexDigits_char h c hc).1).trans (toLower_hex h)

/-- What SQL lowers to a hex string, the handlers lower to it too. -/
theorem toLowercase_of_sqlLower {n : Nat} {s hex : Text} (h : lowerHexDigits n hex = true)
    (heq : sqlLower s = hex) : toLowercase s = hex := by
  subst heq
  refine Lowercase.toLowercase_ascii s ?_
  intro c hc
  exact ascii_of_toLower (lowerHexDigits_char h c.toLower (List.mem_map_of_mem hc)).1

/-- Of two lowercase strings the comparison up to case is equality. -/
theorem equalHex_iff {a b : Text} (ha : toLowercase a = a) (hb : toLowercase b = b) :
    equalHex a b = true ↔ a = b := by
  rw [equalHex,ha,hb,Bool.and_eq_true,decide_eq_true_eq,beq_iff_eq]
  exact ⟨And.right,fun h => ⟨by rw [h],h⟩⟩

end

/-- Each rotation leaves the root the one before it brought. -/
def Path : Option Text → List Rotation → Option Text → Prop
  | root,[],current => root = current
  | root,rot :: rest,current => root = some rot.oldHex ∧ Path (some rot.newHex) rest current

theorem Path.append {rots : List Rotation} {root : Option Text} {rot : Rotation}
    (h : Path root rots (some rot.oldHex)) : Path root (rots ++ [rot]) (some rot.newHex) := by
  induction rots generalizing root with
  | nil => exact ⟨h,rfl⟩
  | cons first rest ih => exact ⟨h.1,ih h.2⟩

/-- The roots of a path are those it leaves and the one it ends at. -/
theorem Path.roots {rots : List Rotation} {root current : Option Text}
    (h : Path root rots current) :
    root.toList ++ rots.map (·.newHex) = rots.map (·.oldHex) ++ current.toList := by
  induction rots generalizing root with
  | nil => rw [show root = current from h,List.map_nil,List.map_nil,List.append_nil,List.nil_append]
  | cons first rest ih =>
    have hrest := ih h.2
    rw [h.1]
    simp only [Option.toList_some,List.map_cons,List.cons_append,List.nil_append] at hrest ⊢
    rw [hrest]

theorem insert_eq {t t' : RootTables} {rot : Rotation} {seq : Nat}
    (h : t.insert rot seq = some t') :
    t' = { t with rotations := t.rotations ++ [⟨rot,seq⟩] } := by
  rw [RootTables.insert] at h
  split at h
  · cases h
  · exact (Option.some.inj h).symm

section
variable [Lowercase] [RotationChecks] {account : Text}

/-- A rotation as a request carries it past the reading of its body. -/
structure WellFormed (account : Text) (rot : Rotation) : Prop where
  body : ∃ body,startRotation account (some body) = .user rot
  oldHex : lowerHexDigits 64 rot.oldHex = true
  newHex : lowerHexDigits 64 rot.newHex = true
  sigHex : lowerHexDigits 128 rot.sigHex = true
  ne : rot.oldHex ≠ rot.newHex

structure Proved (account : Text) (rot : Rotation) : Prop extends WellFormed account rot where
  signed : signedByOld account rot = some true

omit [RotationChecks] in
variable (account) in
theorem startRotation_cases (body : Option RotationBody) :
    (∃ rot,startRotation account body = .user rot ∧ WellFormed account rot) ∨
      ∃ answer,startRotation account body = .answered none answer := by
  cases body with
  | none => exact Or.inr ⟨_,rfl⟩
  | some b =>
    by_cases hbad : (b.username.isEmpty || !lowerHexDigits 64 (toLowercase b.oldAdminRootPub) ||
        !lowerHexDigits 64 (toLowercase b.newAdminRootPub) ||
        !lowerHexDigits 128 (toLowercase b.signatureHex)) = true
    · exact Or.inr ⟨_,if_pos hbad⟩
    · by_cases hname : toLowercase b.username ≠ account
      · exact Or.inr ⟨_,(if_neg hbad).trans (if_pos hname)⟩
      · by_cases heq : equalHex (toLowercase b.oldAdminRootPub)
            (toLowercase b.newAdminRootPub) = true
        · exact Or.inr ⟨_,(if_neg hbad).trans ((if_neg hname).trans (if_pos heq))⟩
        · have hstart : startRotation account (some b) = .user ⟨toLowercase b.oldAdminRootPub,
              toLowercase b.newAdminRootPub,b.issuedAt,toLowercase b.signatureHex⟩ :=
            (if_neg hbad).trans ((if_neg hname).trans (if_neg heq))
          rw [equalHex_iff (toLowercase_idem _) (toLowercase_idem _)] at heq
          simp only [Bool.or_eq_true,Bool.not_eq_true',not_or,Bool.not_eq_false] at hbad
          exact Or.inl ⟨_,hstart,⟨⟨b,hstart⟩,hbad.1.1.2,hbad.1.2,hbad.2,heq⟩⟩

/-- A request goes on to the swap just where its rotation is signed and leaves
the account's root. -/
theorem checkRotation_cases {rot : Rotation} (hrot : WellFormed account rot)
    (user : Option (Option Text)) :
    (checkRotation account rot user = .swap rot rot.oldHex ∧ Proved account rot ∧
      (user.bind id).map toLowercase = some rot.oldHex) ∨
    ((∃ answer,checkRotation account rot user = .answered (some rot) answer) ∧
      ¬ (Proved account rot ∧ (user.bind id).map toLowercase = some rot.oldHex)) := by
  cases hroot : user.bind id with
  | none =>
    refine Or.inr ⟨?_,fun h => by simpa using h.2⟩
    cases user with
    | none => exact ⟨_,rfl⟩
    | some root => cases show root = none from hroot with | refl => exact ⟨_,rfl⟩
  | some root =>
    have huser : user = some (some root) := by
      cases user with
      | none => simp at hroot
      | some r => rw [show r = some root from hroot]
    subst huser
    have hold := toLowercase_hex hrot.oldHex
    have hnew := toLowercase_hex hrot.newHex
    have hcur := toLowercase_idem root
    rw [Option.map_some,Option.some.injEq]
    by_cases heq : toLowercase root = rot.oldHex
    · have hpresent : present ((some root).map toLowercase) = some rot.oldHex := by
        rw [Option.map_some,heq,present,Option.filter_some,if_pos]
        have hlen := hrot.oldHex
        rw [lowerHexDigits,Bool.and_eq_true,decide_eq_true_eq] at hlen
        cases hc : rot.oldHex with
        | nil => rw [hc] at hlen; simp at hlen
        | cons => rfl
      have hne : ¬ equalHex rot.newHex rot.oldHex = true := by
        rw [equalHex_iff hnew hold]
        exact Ne.symm hrot.ne
      have hsame : ¬ (!equalHex rot.oldHex rot.oldHex) = true := by
        rw [(equalHex_iff hold hold).mpr rfl]
        simp
      simp only [checkRotation,hpresent,if_neg hne,if_neg hsame]
      cases hs : signedByOld account rot with
      | none => exact Or.inr ⟨⟨_,rfl⟩,fun h => by simpa [hs] using h.1.signed⟩
      | some ok =>
        cases ok with
        | true => exact Or.inl ⟨rfl,⟨hrot,hs⟩,heq⟩
        | false => exact Or.inr ⟨⟨_,rfl⟩,fun h => by simpa [hs] using h.1.signed⟩
    · refine Or.inr ⟨?_,fun h => heq h.2⟩
      simp only [checkRotation]
      cases hpresent : present ((some root).map toLowercase) with
      | none => exact ⟨_,rfl⟩
      | some current =>
        have hc : current = toLowercase root := by
          rw [present,Option.map_some,Option.filter_some] at hpresent
          split at hpresent
          · exact (Option.some.inj hpresent).symm
          · cases hpresent
        subst hc
        simp only
        by_cases hback : equalHex rot.newHex (toLowercase root) = true
        · exact ⟨_,if_pos hback⟩
        · have hleaves : (!equalHex rot.oldHex (toLowercase root)) = true := by
            rw [Bool.not_eq_true',Bool.eq_false_iff,Ne,equalHex_iff hold hcur]
            exact Ne.symm heq
          exact ⟨_,(if_neg hback).trans (if_pos hleaves)⟩

/-- What a request under way has checked. -/
def Carries (account : Text) : RotationProgress → Prop
  | .user rot => WellFormed account rot
  | .swap rot current => Proved account rot ∧ current = rot.oldHex
  | _ => True

/-- A request that stands after its swap loses its proof. -/
def losesProof (stops : Bool) (p : RotationProgress) (t : RootTables) : Prop :=
  match p with
  | .maxSeq _ => stops = true
  | .insert rot seq => stops = true ∨ t.insert rot seq = none
  | _ => False

omit [RotationChecks] in
theorem swapAdminRootPub_cases (t : RootTables) {old : Text} (new : Text)
    (hold : lowerHexDigits 64 old = true) :
    (t.swapAdminRootPub old new = (true,{ t with user := some (some new) }) ∧
      currentRoot t = some old) ∨ t.swapAdminRootPub old new = (false,t) := by
  rcases huser : t.user with _ | _ | root
  · simp only [RootTables.swapAdminRootPub,huser]
    exact Or.inr trivial
  · simp only [RootTables.swapAdminRootPub,huser]
    exact Or.inr trivial
  · simp only [RootTables.swapAdminRootPub,huser]
    by_cases heq : sqlLower root = sqlLower old
    · refine Or.inl ⟨if_pos heq,?_⟩
      rw [toLower_hex hold] at heq
      rw [currentRoot,huser]
      exact congrArg some (toLowercase_of_sqlLower hold heq)
    · exact Or.inr (if_neg heq)

/-- What one storage call of a request can do. -/
theorem advanceRotation_cases {stops : Bool} {p p' : RotationProgress} {t t' : RootTables}
    {events : List Rotation} (hp : Carries account p)
    (h : advanceRotation account stops p t = (p',t',events)) :
    (t' = t ∧ events = [] ∧ Carries account p' ∧
      (p'.owedProof = p.owedProof ∨ losesProof stops p t)) ∨
    (∃ rot,p = .swap rot rot.oldHex ∧ Proved account rot ∧ stops = false ∧
      t.swapAdminRootPub rot.oldHex rot.newHex = (true,t') ∧ currentRoot t = some rot.oldHex ∧
      p' = .maxSeq rot ∧ t' = { t with user := some (some rot.newHex) } ∧ events = [rot]) ∨
    (∃ rot seq,p = .insert rot seq ∧ t.insert rot seq = some t' ∧
      p' = .answered (some rot) (.ok rot.newHex (some seq)) ∧ events = []) := by
  cases p with
  | user rot =>
    cases stops with
    | true => cases h; exact Or.inl ⟨rfl,rfl,trivial,Or.inl rfl⟩
    | false =>
      cases h
      refine Or.inl ⟨rfl,rfl,?_⟩
      rcases checkRotation_cases hp t.user with ⟨hc,hproved,_⟩ | ⟨⟨answer,hc⟩,_⟩
      · rw [hc]
        exact ⟨⟨hproved,rfl⟩,Or.inl rfl⟩
      · rw [hc]
        exact ⟨trivial,Or.inl rfl⟩
  | swap rot current =>
    obtain ⟨hproved,rfl⟩ := hp
    cases stops with
    | true => cases h; exact Or.inl ⟨rfl,rfl,trivial,Or.inl rfl⟩
    | false =>
      rcases swapAdminRootPub_cases t rot.newHex hproved.oldHex with ⟨hs,hroot⟩ | hs
      · simp only [advanceRotation,hs] at h
        cases h
        exact Or.inr (Or.inl ⟨rot,rfl,hproved,rfl,hs,hroot,rfl,rfl,rfl⟩)
      · simp only [advanceRotation,hs] at h
        cases h
        exact Or.inl ⟨rfl,rfl,trivial,Or.inl rfl⟩
  | maxSeq rot =>
    cases stops with
    | true => cases h; exact Or.inl ⟨rfl,rfl,trivial,Or.inr rfl⟩
    | false => cases h; exact Or.inl ⟨rfl,rfl,trivial,Or.inl rfl⟩
  | insert rot seq =>
    cases stops with
    | true => cases h; exact Or.inl ⟨rfl,rfl,trivial,Or.inr (Or.inl rfl)⟩
    | false =>
      cases hins : t.insert rot seq with
      | none =>
        simp only [advanceRotation,hins] at h
        cases h
        exact Or.inl ⟨rfl,rfl,trivial,Or.inr (Or.inr hins)⟩
      | some t'' =>
        simp only [advanceRotation,hins] at h
        cases h
        exact Or.inr (Or.inr ⟨rot,seq,rfl,hins,rfl,rfl⟩)
  | answered rot answer => cases h; exact Or.inl ⟨rfl,rfl,trivial,Or.inl rfl⟩
  | stopped rot => cases h; exact Or.inl ⟨rfl,rfl,trivial,Or.inl rfl⟩

/-- The swaps lead from the account's first root to the one it has. -/
structure Linked (account : Text) (user : Option (Option Text))
    (s : Shared RootTables Rotation) : Prop where
  proved : ∀ rot ∈ s.history,Proved account rot
  path : Path ((user.bind id).map toLowercase) s.history (currentRoot s.tables)

theorem Linked.step {user : Option (Option Text)} {w : Served RootTables Rotation RotationProgress}
    (hw : w.Holds (Linked account user) (fun p _ => Carries account p))
    (move : Move (Option RotationBody) Bool) :
    ((rotationHandlers account).step w move).Holds (Linked account user)
      (fun p _ => Carries account p) := by
  refine (rotationHandlers account).step_holds (fun _ _ => True) ?_ (fun _ _ _ hp => hp) ?_ ?_
    w move hw trivial
  · exact fun _ _ hs => ⟨hs.proved,hs.path⟩
  · intro w body ticks outside _ _
    rcases startRotation_cases account body with ⟨rot,hstart,hrot⟩ | ⟨answer,hstart⟩
    · simp only [rotationHandlers,hstart]
      exact hrot
    · simp only [rotationHandlers,hstart]
      trivial
  · intro w i p ticks stops p' t' events _ _ hs hp hadv
    refine ⟨?_,?_,fun _ _ hq => hq⟩
    · rcases advanceRotation_cases hp hadv with ⟨rfl,rfl,_,_⟩ |
        ⟨rot,_,hproved,_,_,hroot,_,rfl,rfl⟩ | ⟨rot,seq,_,hins,_,rfl⟩
      · exact ⟨by rw [Shared.after,List.append_nil]; exact hs.proved,
          by rw [Shared.after,List.append_nil]; exact hs.path⟩
      · refine ⟨?_,?_⟩
        · intro rot' hmem
          rcases List.mem_append.mp hmem with hmem | hmem
          · exact hs.proved rot' hmem
          · rw [List.mem_singleton.mp hmem]
            exact hproved
        · have hpath := hs.path
          rw [hroot] at hpath
          have hend : currentRoot { w.shared.tables with user := some (some rot.newHex) } =
              some rot.newHex := congrArg some (toLowercase_hex hproved.newHex)
          rw [Shared.after,hend]
          exact hpath.append
      · rw [insert_eq hins,Shared.after,List.append_nil]
        exact ⟨hs.proved,hs.path⟩
    · rcases advanceRotation_cases hp hadv with ⟨_,_,hp',_⟩ | ⟨rot,_,_,_,_,_,rfl,_,_⟩ |
        ⟨rot,seq,_,_,rfl,_⟩
      · exact hp'
      · trivial
      · trivial

variable (account) in
/-- In every run the swaps lead from the account's first root to the one it has. -/
theorem linked_run (user : Option (Option Text)) (clock : Int)
    (moves : List (Move (Option RotationBody) Bool)) :
    (run (rotationHandlers account).step (neverRotated user clock) moves).Holds
      (Linked account user) (fun p _ => Carries account p) := by
  have hstart : (neverRotated user clock).Holds (Linked account user)
      (fun p _ => Carries account p) := by
    refine ⟨⟨?_,rfl⟩,?_⟩
    · intro rot hmem
      cases hmem
    · intro p hmem
      cases hmem
  exact run_invariant
    (I := Served.Holds (Linked account user) (fun p _ => Carries account p))
    (fun _ move hw => Linked.step hw move) hstart moves

/-- A request past its swap adds nothing to what happened. -/
theorem resume_past_swap {s : Shared RootTables Rotation} {others : List RotationProgress}
    {p : RotationProgress} (hp : ∀ rot,p ≠ .user rot ∧ ∀ current,p ≠ .swap rot current) (n : Nat) :
    (run (rotationHandlers account).step ⟨s,others ++ [p]⟩
      (List.replicate n (.resume others.length [] false))).shared.history = s.history := by
  induction n generalizing s p with
  | zero => rfl
  | succ n ih =>
    rcases hadv : (rotationHandlers account).advance (reading s.clock []) false p s.tables
      with ⟨p',t',events⟩
    rw [List.replicate_succ,run_cons,Handlers.step_last _ s others p [] false hadv]
    have hcarries : Carries account p := by
      cases p with
      | user rot => exact absurd rfl (hp rot).1
      | swap rot current => exact absurd rfl ((hp rot).2 current)
      | _ => trivial
    have hnext : (∀ rot,p' ≠ .user rot ∧ ∀ current,p' ≠ .swap rot current) ∧ events = [] := by
      cases p with
      | user rot => exact absurd rfl (hp rot).1
      | swap rot current => exact absurd rfl ((hp rot).2 current)
      | maxSeq rot => cases hadv; simp
      | insert rot seq =>
        cases hins : s.tables.insert rot seq with
        | none =>
          simp only [rotationHandlers,advanceRotation,hins] at hadv
          cases hadv
          simp
        | some t'' =>
          simp only [rotationHandlers,advanceRotation,hins] at hadv
          cases hadv
          simp
      | answered rot answer => cases hadv; simp
      | stopped rot => cases hadv; simp
    rw [ih hnext.1,Shared.after,hnext.2,List.append_nil]

/-- The next call of a request that is served alone. -/
theorem replicate_resume {s : Shared RootTables Rotation} {others : List RotationProgress}
    {p p' : RotationProgress} {t t' : RootTables} {events : List Rotation} {n : Nat}
    (ht : s.tables = t) (hadv : advanceRotation account false p t = (p',t',events)) :
    run (rotationHandlers account).step ⟨s,others ++ [p]⟩
        (List.replicate (n + 1) (.resume others.length [] false)) =
      run (rotationHandlers account).step ⟨s.after [] t' events,others ++ [p']⟩
        (List.replicate n (.resume others.length [] false)) := by
  subst ht
  rw [List.replicate_succ,run_cons,Handlers.step_last _ s others p [] false hadv]

variable (account) in
/-- A request served alone swaps the root with a signed rotation that leaves it,
and with no other. -/
theorem servedAlone_history (w : Served RootTables Rotation RotationProgress)
    (body : Option RotationBody) :
    ((run (rotationHandlers account).step w (servedAlone w body)).shared.history =
        w.shared.history ∧
      ¬ ∃ rot,startRotation account body = .user rot ∧ Proved account rot ∧
        w.shared.tables.user = some (some rot.oldHex)) ∨
      ∃ rot,currentRoot w.shared.tables = some rot.oldHex ∧
        startRotation account body = .user rot ∧
        (run (rotationHandlers account).step w (servedAlone w body)).shared.history =
          w.shared.history ++ [rot] := by
  have hreceive : run (rotationHandlers account).step w (servedAlone w body) =
      run (rotationHandlers account).step
        ⟨w.shared.later [],w.requests ++ [startRotation account body]⟩
        (List.replicate 4 (.resume w.requests.length [] false)) := rfl
  have hlater : (w.shared.later []).tables = w.shared.tables := rfl
  have hread : ((w.shared.later []).after [] w.shared.tables []).tables = w.shared.tables := rfl
  rw [hreceive]
  rcases startRotation_cases account body with ⟨rot,hstart,hrot⟩ | ⟨answer,hstart⟩
  · rw [hstart,replicate_resume hlater rfl]
    rcases checkRotation_cases hrot w.shared.tables.user with
      ⟨hcheck,hproved,hroot⟩ | ⟨⟨answer,hcheck⟩,hrefused⟩
    · rcases swapAdminRootPub_cases w.shared.tables rot.newHex hrot.oldHex with
        ⟨hswap,_⟩ | hswap
      · have hadv : advanceRotation account false (.swap rot rot.oldHex) w.shared.tables =
            (.maxSeq rot,{ w.shared.tables with user := some (some rot.newHex) },[rot]) := by
          simp only [advanceRotation,hswap,Bool.false_eq_true,if_false]
        refine Or.inr ⟨rot,hroot,rfl,?_⟩
        simp only [Bool.false_eq_true,if_false,hcheck]
        rw [replicate_resume hread hadv,resume_past_swap (by simp)]
        simp [Shared.after,Shared.later]
      · have hadv : advanceRotation account false (.swap rot rot.oldHex) w.shared.tables =
            (.answered (some rot) (.conflict "admin root changed concurrently"),
              w.shared.tables,[]) := by
          simp only [advanceRotation,hswap,Bool.false_eq_true,if_false]
        refine Or.inl ⟨?_,?_⟩
        · simp only [Bool.false_eq_true,if_false,hcheck]
          rw [replicate_resume hread hadv,resume_past_swap (by simp)]
          simp [Shared.after,Shared.later]
        · rintro ⟨rot',heq,_,huser⟩
          cases heq
          simp only [RootTables.swapAdminRootPub,huser] at hswap
          simp at hswap
    · refine Or.inl ⟨?_,?_⟩
      · simp only [Bool.false_eq_true,if_false,hcheck]
        rw [resume_past_swap (by simp)]
        simp [Shared.after,Shared.later]
      · rintro ⟨rot',heq,hproved,huser⟩
        cases heq
        apply hrefused
        refine ⟨hproved,?_⟩
        rw [huser]
        exact congrArg some (toLowercase_hex hproved.oldHex)
  · rw [hstart]
    refine Or.inl ⟨resume_past_swap (by simp) 4,?_⟩
    rintro ⟨rot,heq,_⟩
    cases heq

omit [RotationChecks] in
/-- The roots the account has had are those the swaps left and the one it has. -/
theorem rootsHad_eq {user : Option (Option Text)} {history : List Rotation}
    {current : Option Text} (h : Path ((user.bind id).map toLowercase) history current) :
    rootsHad user history = history.map (·.oldHex) ++ current.toList := by
  rw [← h.roots,rootsHad,Option.toList_map]

omit [RotationChecks] in
theorem rootsHad_append_nodup {user : Option (Option Text)} {history : List Rotation}
    {rot : Rotation} (h : (rootsHad user history).Nodup)
    (hnew : rot.newHex ∉ rootsHad user history) : (rootsHad user (history ++ [rot])).Nodup := by
  rw [rootsHad,List.map_append,← List.append_assoc]
  exact h.append (List.nodup_singleton _) (List.disjoint_singleton.mpr hnew)

/-- A move adds nothing to what happened, or it is a swap. -/
theorem step_swaps {user : Option (Option Text)} {w : Served RootTables Rotation RotationProgress}
    (hw : w.Holds (Linked account user) (fun p _ => Carries account p))
    (move : Move (Option RotationBody) Bool) :
    ((rotationHandlers account).step w move).shared.history = w.shared.history ∨
    ∃ i ticks rot,move = .resume i ticks false ∧ w.requests[i]? = some (.swap rot rot.oldHex) ∧
      (w.shared.tables.swapAdminRootPub rot.oldHex rot.newHex).1 = true ∧
      ((rotationHandlers account).step w move).shared.tables.user = some (some rot.newHex) ∧
      ((rotationHandlers account).step w move).shared.history = w.shared.history ++ [rot] := by
  refine (rotationHandlers account).step_rule (K := fun w' =>
    w'.shared.history = w.shared.history ∨
    ∃ i ticks rot,move = .resume i ticks false ∧ w.requests[i]? = some (.swap rot rot.oldHex) ∧
      (w.shared.tables.swapAdminRootPub rot.oldHex rot.newHex).1 = true ∧
      w'.shared.tables.user = some (some rot.newHex) ∧
      w'.shared.history = w.shared.history ++ [rot]) w move ?_ (Or.inl rfl) ?_
  · exact fun _ _ _ _ => Or.inl rfl
  · rintro i ticks stops p p' t' events rfl hi hadv
    rcases advanceRotation_cases (hw.2 p (List.mem_of_getElem? hi)) hadv with ⟨_,rfl,_,_⟩ |
      ⟨rot,rfl,_,rfl,hswap,_,_,rfl,rfl⟩ | ⟨rot,seq,_,_,_,rfl⟩
    · exact Or.inl (List.append_nil _)
    · exact Or.inr ⟨i,ticks,rot,rfl,hi,by rw [hswap],rfl,rfl⟩
    · exact Or.inl (List.append_nil _)

variable (account) in
/-- A move that brings back a root is a swap to it. -/
theorem bringsBack {user : Option (Option Text)} {w : Served RootTables Rotation RotationProgress}
    {move : Move (Option RotationBody) Bool} (h : ¬ bringsNewRoot user w move = true) :
    ∃ rot,rot.newHex ∈ rootsHad user w.shared.history ∧
      ((rotationHandlers account).step w move).shared.tables.user = some (some rot.newHex) ∧
      ((rotationHandlers account).step w move).shared.history = w.shared.history ++ [rot] := by
  cases move with
  | receive body ticks stops => exact absurd rfl h
  | resume i ticks stops =>
    simp only [bringsNewRoot] at h
    split at h
    · rename_i rot current hi
      simp only [Bool.or_eq_true,Bool.not_eq_true',not_or,Bool.not_eq_false,Bool.not_eq_true,
        List.contains_iff_mem] at h
      obtain ⟨⟨rfl,hswap⟩,hmem⟩ := h
      refine ⟨rot,hmem,?_⟩
      simp only [Handlers.step,hi,rotationHandlers,advanceRotation,Bool.false_eq_true,if_false]
      rcases huser : w.shared.tables.user with _ | _ | root
      · simp only [RootTables.swapAdminRootPub,huser] at hswap
        cases hswap
      · simp only [RootTables.swapAdminRootPub,huser] at hswap
        cases hswap
      · simp only [RootTables.swapAdminRootPub,huser] at hswap ⊢
        split at hswap
        · rename_i heq
          rw [if_pos heq]
          exact ⟨rfl,rfl⟩
        · cases hswap
    · exact absurd rfl h

/-- As long as no root comes back, all the roots the account has had differ. -/
theorem rootsHad_nodup {user : Option (Option Text)} {clock : Int}
    {moves : List (Move (Option RotationBody) Bool)}
    (h : Along (rotationHandlers account).step (fun w move => bringsNewRoot user w move = true)
      (neverRotated user clock) moves) :
    (rootsHad user (run (rotationHandlers account).step (neverRotated user clock)
      moves).shared.history).Nodup := by
  have hstart : (rootsHad user (neverRotated user clock).shared.history).Nodup := by
    rw [rootsHad,neverRotated,List.map_nil,List.append_nil]
    cases user.bind id with
    | none => exact List.nodup_nil
    | some root => exact List.nodup_singleton _
  refine (Along.invariant (I := fun w => (w.Holds (Linked account user)
    (fun p _ => Carries account p)) ∧ (rootsHad user (Served.shared w).history).Nodup) ?_
    ⟨linked_run account user clock [],hstart⟩ h).2
  intro w move ⟨hw,hnodup⟩ hnew
  refine ⟨Linked.step hw move,?_⟩
  rcases step_swaps hw move with heq | ⟨i,ticks,rot,rfl,hi,hswap,_,heq⟩
  · rw [heq]
    exact hnodup
  · rw [heq]
    simp only [bringsNewRoot,hi,hswap,Bool.false_or,Bool.not_true,Bool.not_eq_true',
      List.contains_eq_mem,decide_eq_false_iff_not] at hnew
    exact rootsHad_append_nodup hnodup hnew

/-- A run brings back no root the account had before exactly where, at every
point of it, whatever request is served next leaves every signed rotation with
at most one swap of the root. -/
theorem swaps_once_iff (user : Option (Option Text)) (clock : Int)
    (moves : List (Move (Option RotationBody) Bool)) :
    Along (rotationHandlers account).step (fun w move => bringsNewRoot user w move = true)
        (neverRotated user clock) moves ↔
      ∀ first last,moves = first ++ last → ∀ body,
        SwapsOnce (run (rotationHandlers account).step (neverRotated user clock)
          (first ++ servedAlone (run (rotationHandlers account).step
            (neverRotated user clock) first) body)).shared.history := by
  constructor
  · rintro h first last rfl body
    have hnodup := rootsHad_nodup (along_append.mp h).1
    have hlinked := (linked_run account user clock first).1
    rw [run_append]
    generalize run (rotationHandlers account).step (neverRotated user clock) first = w
      at hnodup hlinked
    rw [rootsHad_eq hlinked.path] at hnodup
    have holds : (w.shared.history.map (·.oldHex)).Nodup := hnodup.of_append_left
    have honce : SwapsOnce w.shared.history := by
      refine List.Nodup.of_map Prod.fst ?_
      rw [List.map_map]
      exact holds
    rcases servedAlone_history account w body with ⟨heq,_⟩ | ⟨rot,hroot,_,heq⟩
    · rw [heq]
      exact honce
    · rw [heq,SwapsOnce,List.map_append]
      refine honce.append (List.nodup_singleton _) (List.disjoint_singleton.mpr ?_)
      intro hmem
      -- The rotation left the root the account has now, which none left before.
      obtain ⟨rot',hmem',hsame⟩ := List.mem_map.mp hmem
      rw [hroot] at hnodup
      refine (List.nodup_append.mp hnodup).2.2 rot'.oldHex (List.mem_map_of_mem hmem') rot.oldHex
        (List.mem_singleton_self _) ?_
      exact congrArg Prod.fst hsame
  · intro h
    refine along_iff.mpr ?_
    rintro before move after rfl
    by_contra hback
    have hw := linked_run account user clock before
    have hw' := linked_run account user clock (before ++ [move])
    have hserved := h (before ++ [move]) after
      (by rw [List.append_assoc,List.singleton_append])
    simp only [run_append,run_cons,run_nil] at hw' hserved
    generalize run (rotationHandlers account).step (neverRotated user clock) before = w
      at hback hw hw' hserved
    obtain ⟨rot,hmem,huser,heq⟩ := bringsBack account hback
    -- The root that came back was left before, and by what left it then it is left again.
    have hleft : rot.newHex ∈ (w.shared.history ++ [rot]).map (·.oldHex) := by
      have hroots := rootsHad_eq hw'.1.path
      rw [heq,currentRoot,huser,rootsHad,List.map_append,← List.append_assoc] at hroots
      rw [← (List.append_inj' hroots rfl).1]
      exact hmem
    obtain ⟨rot',hmem',hold⟩ := List.mem_map.mp hleft
    rw [← heq] at hmem'
    have hproved := hw'.1.proved rot' hmem'
    obtain ⟨body,hbody⟩ := hproved.body
    have honce := hserved (some body)
    rcases servedAlone_history account ((rotationHandlers account).step w move)
      (some body) with ⟨_,hrefused⟩ | ⟨rot'',_,hbody',hagain⟩
    · exact hrefused ⟨rot',hbody,hproved,by rw [huser,hold]⟩
    · cases hbody.symm.trans hbody'
      rw [hagain,SwapsOnce,List.map_append] at honce
      exact (List.nodup_append.mp honce).2.2 _ (List.mem_map_of_mem hmem') _
        (List.mem_singleton_self _) rfl

end

/-- Signatures that only spell out what they sign. -/
@[reducible] def plainSignatures : RotationChecks := ⟨fun _ old new _ sig key => sig == old ++ new && key == old⟩

def rootA : Text := List.replicate 64 'a'

def rootB : Text := List.replicate 64 'b'

/-- The body of a rotation of alice's root, as its old root signs it. -/
def rotates (old new : Text) : RotationBody := ⟨"alice".toList,old,new,1,old ++ new⟩

/-- A request received as the one of that number and served to its end. -/
def postedAs (i : Nat) (body : RotationBody) : List (Move (Option RotationBody) Bool) :=
  .receive (some body) [] false :: List.replicate 4 (.resume i [] false)

/-- Alice's root is rotated, rotated back, and the first rotation posted again. -/
def rotatedBack : Served RootTables Rotation RotationProgress :=
  run (@rotationHandlers asciiLowercase plainSignatures "alice".toList).step
    (neverRotated (some (some rootA)) 0)
    (postedAs 0 (rotates rootA rootB) ++ postedAs 1 (rotates rootB rootA) ++
      postedAs 2 (rotates rootA rootB))

/-- The rotation that is posted again swaps the root again. -/
theorem replayed_rotation_swaps :
    rotatedBack.shared.tables.user = some (some rootB) ∧
      rotatedBack.shared.history = [⟨rootA,rootB,1,rootA ++ rootB⟩,
        ⟨rootB,rootA,1,rootB ++ rootA⟩,⟨rootA,rootB,1,rootA ++ rootB⟩] ∧
      ¬ SwapsOnce rotatedBack.shared.history := by
  have hhistory : rotatedBack.shared.history = [⟨rootA,rootB,1,rootA ++ rootB⟩,
      ⟨rootB,rootA,1,rootB ++ rootA⟩,⟨rootA,rootB,1,rootA ++ rootB⟩] := by
    decide +kernel
  refine ⟨by decide +kernel,hhistory,?_⟩
  rw [hhistory,SwapsOnce]
  simp [Rotation.signedPart]

end Flagship.Control.Proofs

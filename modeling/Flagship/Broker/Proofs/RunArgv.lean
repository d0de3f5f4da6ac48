import Flagship.Broker.RunArgv

namespace Flagship.Broker.Proofs
open Lib Broker

/-- The spellings the CLI's flag library takes for a boolean. -/
def parsesAsBool (v : Text) : Bool :=
  decide (v ∈ ["1","t","T","true","TRUE","True","0","f","F","false","FALSE","False"].map
    String.toList)

/-- A value that is given with the flag: a boolean has to be one. -/
def cliSet (name : Text) (kind : FlagKind) (v : Text) : Option RunFlag :=
  if kind = .bool ∧ parsesAsBool v = false then none else some ⟨name,v⟩

/-- One long flag, without its dashes: set at once, or waiting for the next argument. -/
def cliLong (name : Text) : Option (RunFlag ⊕ Text) :=
  if name.head? = none ∨ name.head? = some '-' ∨ name.head? = some '=' then none
  else
    let spelled := name.takeWhile (· != '=')
    let long := runFlagAlias spelled
    match runFlag long with
    | none => none
    | some kind =>
      match name.dropWhile (· != '=') with
      | _ :: v => (cliSet long kind v).map .inl
      | [] => if kind = .bool then some (.inl ⟨long,"true".toList⟩) else some (.inr long)

/-- A group of shorthands: the flags it sets, and the one that waits for the next
argument. -/
def cliShort : Text → Option (List RunFlag × Option Text)
  | [] => some ([],none)
  | c :: rest =>
    match (runShorthand c).bind fun long => (runFlag long).map fun kind => (long,kind) with
    | none => none
    | some (long,kind) =>
      match rest with
      | '=' :: d :: v => (cliSet long kind (d :: v)).map fun flag => ([flag],none)
      | _ =>
        match kind with
        | .bool => (cliShort rest).map fun (flags,waits) => (⟨long,"true".toList⟩ :: flags,waits)
        | .value => if rest = [] then some ([],some long) else some ([⟨long,rest⟩],none)

/-- The reference: arguments as the CLI's flag library reads them when flags and
operands are not mixed. The flags in their order, and the operands. -/
def cliRead : List Text → Option (List RunFlag × List Text)
  | [] => some ([],[])
  | s :: args =>
    match s with
    | '-' :: '-' :: [] => some ([],args)
    | '-' :: '-' :: name =>
      match cliLong name,args with
      | some (.inl flag),args => (cliRead args).map fun (flags,operands) => (flag :: flags,operands)
      | some (.inr long),v :: args =>
        (cliRead args).map fun (flags,operands) => (⟨long,v⟩ :: flags,operands)
      | _,_ => none
    | '-' :: c :: group =>
      match cliShort (c :: group),args with
      | some (set,none),args => (cliRead args).map fun (flags,operands) => (set ++ flags,operands)
      | some (set,some long),v :: args =>
        (cliRead args).map fun (flags,operands) => (set ++ ⟨long,v⟩ :: flags,operands)
      | _,_ => none
    | _ => some ([],s :: args)

/-- Every shorthand stands for a flag that is known. -/
theorem runShorthand_known {c : Char} {name : Text} (h : runShorthand c = some name) :
    ∃ kind,runFlag name = some kind := by
  apply Option.isSome_iff_exists.mp
  unfold runShorthand at h
  split at h <;> cases h
  all_goals decide

theorem boolValue_ok {spelled v out : Text} (h : boolValue spelled v = .ok out) :
    out = v ∧ parsesAsBool v = true := by
  unfold boolValue at h
  split at h
  · rename_i hv
    refine ⟨(Except.ok.inj h).symm,?_⟩
    rcases hv with rfl | rfl <;> decide
  · cases h

/-- A value that is attached to a shorthand with an equals sign. -/
theorem attached_iff {rest : Text} : (1 < rest.length && rest.head? = some '=') = true ↔
    ∃ d v,rest = '=' :: d :: v := by
  constructor
  · intro h
    simp only [Bool.and_eq_true,decide_eq_true_eq] at h
    match rest,h with
    | '=' :: d :: v,_ => exact ⟨d,v,rfl⟩
    | [_],h => simp at h
    | c :: d :: v,h =>
      have hc : c = '=' := by simpa using h.2
      exact ⟨d,v,by rw [hc]⟩
  · rintro ⟨d,v,rfl⟩
    simp

theorem shortGroup_read {group : Text} {flags : List RunFlag} {waits : Option (Char × Text)}
    (h : shortGroup group = .ok (flags,waits)) :
    cliShort group = some (flags,waits.map Prod.snd) := by
  induction group generalizing flags waits with
  | nil =>
    simp only [shortGroup,Except.ok.injEq,Prod.mk.injEq] at h
    obtain ⟨rfl,rfl⟩ := h
    rfl
  | cons c rest ih =>
    simp only [shortGroup] at h
    split at h
    · cases h
    rename_i name hname
    obtain ⟨kind,hkind⟩ := runShorthand_known hname
    simp only [cliShort,hname,Option.bind_some,hkind,Option.map_some]
    simp only [hkind,Option.getD_some] at h
    split at h
    · rename_i hattached
      obtain ⟨d,v,rfl⟩ := attached_iff.mp hattached
      simp only [List.drop_succ_cons,List.drop_zero] at h ⊢
      split at h
      · rename_i hbool
        split at h
        · cases h
        · rename_i v' hv
          obtain ⟨rfl,hparses⟩ := boolValue_ok hv
          cases h
          simp [cliSet,hparses]
      · rename_i hbool
        cases h
        simp [cliSet,hbool]
    · rename_i hattached
      split
      · exact absurd (attached_iff.mpr ⟨_,_,rfl⟩) hattached
      · cases kind with
        | bool =>
          simp only [↓reduceIte] at h ⊢
          split at h
          · cases h
          · rename_i flags' waits' hgroup
            cases h
            rw [ih hgroup]
            rfl
        | value =>
          simp only [reduceCtorEq,↓reduceIte] at h ⊢
          split at h
          · rename_i hempty
            cases h
            rw [if_pos (List.isEmpty_iff.mp hempty)]
            rfl
          · rename_i hempty
            cases h
            rw [if_neg (fun he => hempty (List.isEmpty_iff.mpr he))]
            rfl

theorem longFlagName_head {spelled body : Text} (h : longFlagName spelled = true)
    (hs : spelled = body.takeWhile (· != '=')) :
    ¬ (body.head? = none ∨ body.head? = some '-' ∨ body.head? = some '=') := by
  unfold longFlagName at h
  simp only [Bool.and_eq_true,decide_eq_true_eq] at h
  obtain ⟨⟨_,hhead⟩,_⟩ := h
  cases body with
  | nil =>
    rw [hs] at hhead
    cases hhead
  | cons c body =>
    rw [hs,List.takeWhile_cons] at hhead
    rintro (hnone | hdash | hequals)
    · cases hnone
    · obtain rfl : c = '-' := by simpa using hdash
      revert hhead
      simp
    · obtain rfl : c = '=' := by simpa using hequals
      simp at hhead

/-- The shapes an argument can have. -/
inductive ArgShape : Text → Prop
  | operand (x : Text) (h : x.head? ≠ some '-' ∨ x = ['-']) : ArgShape x
  | dashes : ArgShape ['-','-']
  | long (name : Text) (h : name ≠ []) : ArgShape ('-' :: '-' :: name)
  | short (c : Char) (group : Text) (h : c ≠ '-') : ArgShape ('-' :: c :: group)

theorem argShape (x : Text) : ArgShape x := by
  match x with
  | [] => exact .operand [] (.inl (by simp))
  | c :: rest =>
    by_cases hc : c = '-'
    · subst hc
      match rest with
      | [] => exact .operand _ (.inr rfl)
      | d :: rest =>
        by_cases hd : d = '-'
        · subst hd
          match rest with
          | [] => exact .dashes
          | e :: rest => exact .long _ (by simp)
        · exact .short d rest hd
    · exact .operand _ (.inl (by simpa using hc))

theorem cliRead_operand {x : Text} (h : x.head? ≠ some '-' ∨ x = ['-']) (rest : List Text) :
    cliRead (x :: rest) = some ([],x :: rest) := by
  rcases h with h | rfl
  · rw [cliRead.eq_def]
    dsimp only
    split
    · simp at h
    · simp at h
    · simp at h
    · rfl
  · rfl

theorem cliRead_long_set {name : Text} {flag : RunFlag} {rest operands : List Text}
    {new : List RunFlag} (hne : name ≠ []) (hlong : cliLong name = some (.inl flag))
    (hrest : cliRead rest = some (new,operands)) :
    cliRead (('-' :: '-' :: name) :: rest) = some (flag :: new,operands) := by
  obtain ⟨d,name,rfl⟩ := List.exists_cons_of_ne_nil hne
  simp [cliRead,hlong,hrest]

theorem cliRead_long_waits {name long v : Text} {rest operands : List Text}
    {new : List RunFlag} (hne : name ≠ []) (hlong : cliLong name = some (.inr long))
    (hrest : cliRead rest = some (new,operands)) :
    cliRead (('-' :: '-' :: name) :: v :: rest) = some (⟨long,v⟩ :: new,operands) := by
  obtain ⟨d,name,rfl⟩ := List.exists_cons_of_ne_nil hne
  simp [cliRead,hlong,hrest]

theorem cliRead_short_set {c : Char} {group : Text} {set new : List RunFlag}
    {rest operands : List Text} (hc : c ≠ '-') (hshort : cliShort (c :: group) = some (set,none))
    (hrest : cliRead rest = some (new,operands)) :
    cliRead (('-' :: c :: group) :: rest) = some (set ++ new,operands) := by
  rw [cliRead.eq_def]
  simp [hc,hshort,hrest]

theorem cliRead_short_waits {c : Char} {group long v : Text} {set new : List RunFlag}
    {rest operands : List Text} (hc : c ≠ '-')
    (hshort : cliShort (c :: group) = some (set,some long))
    (hrest : cliRead rest = some (new,operands)) :
    cliRead (('-' :: c :: group) :: v :: rest) = some (set ++ ⟨long,v⟩ :: new,operands) := by
  rw [cliRead.eq_def]
  simp [hc,hshort,hrest]

/-- The long flag that the broker takes, as the library reads it. -/
theorem cliLong_of_known {body : Text} {kind : FlagKind}
    (hname : longFlagName (cutAtEquals body).1 = true)
    (hkind : runFlag (runFlagAlias (cutAtEquals body).1) = some kind) :
    cliLong body = (match (cutAtEquals body).2 with
      | some v => (cliSet (runFlagAlias (cutAtEquals body).1) kind v).map .inl
      | none => if kind = .bool then some (.inl ⟨runFlagAlias (cutAtEquals body).1,"true".toList⟩)
        else some (.inr (runFlagAlias (cutAtEquals body).1))) := by
  unfold cliLong
  rw [if_neg (longFlagName_head hname rfl)]
  unfold cutAtEquals at hkind
  dsimp only at hkind ⊢
  rw [hkind]
  dsimp only [cutAtEquals]
  cases body.dropWhile (· != '=') with
  | nil => rfl
  | cons _ v => rfl

/-- What a run of the loop takes is what the library reads. -/
theorem parseFlags_read {flags : List RunFlag} {args : List Text} {out : List RunFlag}
    {operands : List Text} (h : parseFlags flags args = .ok (out,operands)) :
    ∃ new,out = flags ++ new ∧ cliRead args = some (new,operands) := by
  induction hn : args.length using Nat.strong_induction_on generalizing flags args with
  | _ n ih =>
    -- what one argument sets goes before what the arguments after it set
    have hnext : ∀ {rest : List Text} (set : List RunFlag),rest.length < n →
        parseFlags (flags ++ set) rest = .ok (out,operands) →
        ∃ new,out = flags ++ (set ++ new) ∧ cliRead rest = some (new,operands) := by
      intro rest set hlt hrest
      obtain ⟨new,hout,hread⟩ := ih rest.length hlt hrest rfl
      exact ⟨new,by rw [hout,List.append_assoc],hread⟩
    cases args with
    | nil =>
      simp only [parseFlags,Except.ok.injEq,Prod.mk.injEq] at h
      obtain ⟨rfl,rfl⟩ := h
      exact ⟨[],(List.append_nil _).symm,rfl⟩
    | cons x rest =>
      have hlt : rest.length < n := by
        rw [← hn]
        exact Nat.lt_succ_self _
      cases argShape x with
      | operand x hx =>
        rw [cliRead_operand hx]
        have hne : x ≠ "--".toList := by
          rintro rfl
          rcases hx with hx | hx
          · exact hx rfl
          · cases hx
        simp only [parseFlags,if_neg hne] at h
        rw [if_pos (by exact hx)] at h
        cases h
        exact ⟨[],(List.append_nil _).symm,rfl⟩
      | dashes =>
        simp only [parseFlags] at h
        rw [if_pos (by rfl)] at h
        cases h
        exact ⟨[],(List.append_nil _).symm,rfl⟩
      | long name hne =>
        have hx : ('-' :: '-' :: name) ≠ "--".toList := by
          intro he
          exact hne (List.cons.inj (List.cons.inj he).2).2
        simp only [parseFlags,if_neg hx] at h
        rw [if_neg (by simp),if_pos (by simp)] at h
        simp only [List.drop_succ_cons,List.drop_zero] at h
        split at h
        · cases h
        rename_i hname
        replace hname := Bool.not_eq_false _ ▸ hname
        split at h
        · cases h
        · rename_i v hkind hattached
          split at h
          · cases h
          · rename_i v' hv
            obtain ⟨rfl,hparses⟩ := boolValue_ok hv
            have hlong := cliLong_of_known hname hkind
            rw [hattached] at hlong
            obtain ⟨new,hout,hread⟩ := hnext _ hlt h
            refine ⟨_,hout,cliRead_long_set hne ?_ hread⟩
            rw [hlong]
            simp [cliSet,hparses]
        · rename_i hkind hattached
          have hlong := cliLong_of_known hname hkind
          rw [hattached] at hlong
          obtain ⟨new,hout,hread⟩ := hnext _ hlt h
          exact ⟨_,hout,cliRead_long_set hne (hlong.trans (if_pos rfl)) hread⟩
        · rename_i v hkind hattached
          have hlong := cliLong_of_known hname hkind
          rw [hattached] at hlong
          obtain ⟨new,hout,hread⟩ := hnext _ hlt h
          refine ⟨_,hout,cliRead_long_set hne ?_ hread⟩
          rw [hlong]
          simp [cliSet]
        · rename_i hkind hattached
          have hlong := cliLong_of_known hname hkind
          rw [hattached] at hlong
          split at h
          · cases h
          · rename_i v rest
            obtain ⟨new,hout,hread⟩ := hnext _ (Nat.lt_of_succ_lt (by simpa using hlt)) h
            exact ⟨_,hout,cliRead_long_waits hne (hlong.trans (if_neg (by simp))) hread⟩
      | short c group hc =>
        have hx : ('-' :: c :: group) ≠ "--".toList := by
          intro he
          exact hc (List.cons.inj (List.cons.inj he).2).1
        simp only [parseFlags,if_neg hx] at h
        rw [if_neg (by simp),if_neg (by simpa using Ne.symm hc)] at h
        simp only [List.drop_succ_cons,List.drop_zero] at h
        split at h
        · cases h
        · rename_i set hgroup
          obtain ⟨new,hout,hread⟩ := hnext set hlt h
          exact ⟨set ++ new,hout,cliRead_short_set hc (shortGroup_read hgroup) hread⟩
        · rename_i set c' long hgroup
          split at h
          · cases h
          · rename_i v rest
            rw [List.append_assoc] at h
            obtain ⟨new,hout,hread⟩ := hnext (set ++ [⟨long,v⟩])
              (Nat.lt_of_succ_lt (by simpa using hlt)) h
            refine ⟨set ++ ⟨long,v⟩ :: new,?_,
              cliRead_short_waits hc (shortGroup_read hgroup) hread⟩
            rw [hout,List.append_assoc]
            rfl

/-- A line that the broker takes is read as the CLI reads it: the same flags with the same
values in the same order, the same image and the same command. -/
theorem run_line_is_read_as_the_cli {argv : List Text} {run : ParsedRun}
    (h : parseRunArgv argv = .ok run) :
    cliRead (argv.drop 1) = some (run.flags,run.image :: run.command) := by
  unfold parseRunArgv at h
  split at h
  · cases h
  · cases h
  · rename_i flags image command hflags
    cases h
    obtain ⟨new,hnew,hread⟩ := parseFlags_read hflags
    rw [List.nil_append] at hnew
    rw [hread,hnew]

/-- A group of shorthands, a value that looks like a flag and one after an equals sign. -/
def runLine : List Text :=
  ["run","-dit","--env","--rm","-p80:80","--net=host","--","img","-c"].map String.toList

def runLineFlags : List RunFlag :=
  [("detach","true"),("interactive","true"),("tty","true"),("env","--rm"),("publish","80:80"),
    ("network","host")].map fun (name,value) => ⟨name.toList,value.toList⟩

theorem run_line_is_read_as_the_cli_once :
    parseRunArgv runLine = .ok ⟨runLineFlags,"img".toList,["-c".toList]⟩ ∧
    cliRead (runLine.drop 1) = some (runLineFlags,["img".toList,"-c".toList]) :=
  have h : parseRunArgv runLine = .ok ⟨runLineFlags,"img".toList,["-c".toList]⟩ := by
    decide +kernel
  ⟨h,run_line_is_read_as_the_cli h⟩

end Flagship.Broker.Proofs

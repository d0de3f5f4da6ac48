import Flagship.Gate.Origin
import Flagship.Lib.Split

namespace Flagship.Gate.Proofs
open Lib Access

/-- The port that is written, or else the scheme's own. -/
def effectivePort (own : Nat) : Option Text → Nat
  | none | some [] => own
  | some p => Nat.ofDigitChars 10 p 0

/-- What an `http(s)` URL names: its scheme, its host as it is written, and the port
that is used. -/
def originParts (raw : Text) : Option (Text × Text × Nat) := do
  let (scheme,rest) ← splitOnceAt "://".toList (trim raw)
  let own ← schemePort (asciiLower scheme)
  let (host,port) ← hostAndPort (rest.takeWhile (fun c => c != '/' && c != '?' && c != '#'))
  some (asciiLower scheme,host,effectivePort own port)

/-- A character of an authority. -/
def HostChar (c : Char) : Prop :=
  asciiGraphic c = true ∧ c ≠ '/' ∧ c ≠ '?' ∧ c ≠ '#' ∧ c ≠ '\\' ∧ c ≠ '@'

/-- A host that is a literal in brackets, or a name. -/
inductive HostForm : Text → Prop
  | literal (inside : Text) (hne : inside ≠ []) (hclose : ']' ∉ inside)
    (hchars : ∀ c ∈ inside,HostChar c) : HostForm ('[' :: inside ++ [']'])
  | name (host : Text) (hne : host ≠ [])
    (hchars : ∀ c ∈ host,HostChar c ∧ c ≠ ':' ∧ c ≠ '[' ∧ c ≠ ']') : HostForm host

/-- A port that is written. -/
def portText : Option Nat → Text
  | none => []
  | some n => ':' :: Nat.toDigits 10 n

/-- The origin of a scheme, a host and a port that is not the scheme's own. -/
def originText (scheme host : Text) (port : Option Nat) : Text :=
  scheme ++ "://".toList ++ host ++ portText port

theorem splitOnce_append {sep : Char} {a : Text} (h : sep ∉ a) (b : Text) :
    splitOnce sep (a ++ sep :: b) = some (a,b) := by
  have hne : ∀ c ∈ a,(c != sep) = true := by
    intro c hc
    rw [bne_iff_ne]
    rintro rfl
    exact h hc
  unfold splitOnce
  rw [List.dropWhile_append_of_pos hne,List.takeWhile_append_of_pos hne]
  simp

theorem splitOnce_none {sep : Char} {a : Text} (h : sep ∉ a) : splitOnce sep a = none := by
  have hne : ∀ c ∈ a,(c != sep) = true := by
    intro c hc
    rw [bne_iff_ne]
    rintro rfl
    exact h hc
  unfold splitOnce
  rw [List.dropWhile_eq_nil_iff.mpr hne]

/-- What is split off holds no separator, and the text is put together again. -/
theorem splitOnce_some {sep : Char} {s a b : Text} (h : splitOnce sep s = some (a,b)) :
    s = a ++ sep :: b ∧ sep ∉ a := by
  unfold splitOnce at h
  split at h
  · cases h
  · rename_i c rest hdrop
    obtain ⟨rfl,rfl⟩ := Prod.mk.inj (Option.some.inj h)
    obtain rfl : c = sep := by
      have hhead := List.head?_dropWhile_not (fun c => c != sep) s
      rw [hdrop] at hhead
      simpa using hhead
    refine ⟨?_,?_⟩
    · rw [← hdrop,List.takeWhile_append_dropWhile]
    · intro hmem
      have hne := List.all_eq_true.mp List.all_takeWhile c hmem
      simp at hne

theorem splitLast_append {sep : Char} (a : Text) {b : Text} (h : sep ∉ b) :
    splitLast sep (a ++ sep :: b) = some (a,b) := by
  unfold splitLast
  rw [List.reverse_append,List.reverse_cons,List.append_assoc,List.singleton_append,
    splitOnce_append (by simpa using h)]
  simp

theorem splitLast_none {sep : Char} {a : Text} (h : sep ∉ a) : splitLast sep a = none := by
  unfold splitLast
  rw [splitOnce_none (by simpa using h)]
  rfl

theorem splitLast_some {sep : Char} {s a b : Text} (h : splitLast sep s = some (a,b)) :
    s = a ++ sep :: b ∧ sep ∉ b := by
  obtain ⟨⟨x,y⟩,hxy,heq⟩ := Option.map_eq_some_iff.mp h
  obtain ⟨rfl,rfl⟩ := Prod.mk.inj heq
  obtain ⟨hs,hx⟩ := splitOnce_some hxy
  refine ⟨?_,by simpa using hx⟩
  have hrev := congrArg List.reverse hs
  simpa using hrev

theorem HostChar.of_toNat {c : Char} (h : 0x21 ≤ c.toNat ∧ c.toNat ≤ 0x7e)
    (hs : c.toNat ∉ [47,63,35,92,64]) : HostChar c := by
  simp only [List.mem_cons,List.not_mem_nil,or_false,not_or] at hs
  obtain ⟨h1,h2,h3,h4,h5⟩ := hs
  refine ⟨decide_eq_true h,?_,?_,?_,?_,?_⟩
  all_goals
    rintro rfl
    first | exact h1 rfl | exact h2 rfl | exact h3 rfl | exact h4 rfl | exact h5 rfl

theorem toDigits_chars {n : Nat} {c : Char} (h : c ∈ Nat.toDigits 10 n) :
    HostChar c ∧ c ≠ ':' ∧ c ≠ ']' := by
  have hd := Char.isDigit_iff_toNat.mp (Nat.isDigit_of_mem_toDigits (by decide) (by decide) h)
  have hlow : 48 ≤ c.toNat := hd.1
  have hhigh : c.toNat ≤ 57 := hd.2
  refine ⟨.of_toNat (by omega) ?_,?_,?_⟩
  · simp only [List.mem_cons,List.not_mem_nil,or_false,not_or]
    omega
  · rintro rfl
    exact absurd hhigh (by decide)
  · rintro rfl
    exact absurd hhigh (by decide)

theorem HostChar.toLower {c : Char} (h : HostChar c) : HostChar c.toLower := by
  obtain ⟨hgraphic,h1,h2,h3,h4,h5⟩ := h
  have hg : 0x21 ≤ c.toNat ∧ c.toNat ≤ 0x7e := of_decide_eq_true hgraphic
  refine ⟨decide_eq_true ?_,?_,?_,?_,?_,?_⟩
  · by_cases hup : 65 ≤ c.toNat ∧ c.toNat ≤ 90
    · rw [toLower_of_upper hup.1 hup.2]
      omega
    · rw [toLower_of_not_upper (by omega)]
      exact hg
  all_goals
    intro he
    have hc := (toLower_eq_iff (by decide)).mp he
    first | exact h1 hc | exact h2 hc | exact h3 hc | exact h4 hc | exact h5 hc

theorem asciiLower_idem (s : Text) : asciiLower (asciiLower s) = asciiLower s := by
  simp only [asciiLower,List.map_map]
  exact List.map_congr_left fun c _ => toLower_toLower c

/-- A host keeps its form in lower case. -/
theorem HostForm.lower {host : Text} (h : HostForm host) : HostForm (asciiLower host) := by
  cases h with
  | literal inside hne hclose hchars =>
    have heq : asciiLower ('[' :: inside ++ [']']) = '[' :: asciiLower inside ++ [']'] := by
      simp [asciiLower]
    rw [heq]
    refine .literal _ (by simpa [asciiLower] using hne) ?_ ?_
    · intro hmem
      obtain ⟨c,hc,hlow⟩ := List.mem_map.mp hmem
      exact hclose ((toLower_eq_iff (by decide)).mp hlow ▸ hc)
    · intro c hc
      obtain ⟨d,hd,rfl⟩ := List.mem_map.mp hc
      exact (hchars d hd).toLower
  | name _ hne hchars =>
    refine .name _ (by simpa [asciiLower] using hne) ?_
    intro c hc
    obtain ⟨d,hd,rfl⟩ := List.mem_map.mp hc
    obtain ⟨hchar,h1,h2,h3⟩ := hchars d hd
    refine ⟨hchar.toLower,?_,?_,?_⟩
    · exact fun he => h1 ((toLower_eq_iff (by decide)).mp he)
    · exact fun he => h2 ((toLower_eq_iff (by decide)).mp he)
    · exact fun he => h3 ((toLower_eq_iff (by decide)).mp he)

theorem HostForm.ne_nil {host : Text} (h : HostForm host) : host ≠ [] := by
  cases h with
  | literal => simp
  | name _ hne _ => exact hne

theorem HostForm.chars {host : Text} (h : HostForm host) : ∀ c ∈ host,HostChar c := by
  cases h with
  | literal inside _ _ hchars =>
    intro c hc
    simp only [List.cons_append,List.mem_cons,List.mem_append,List.not_mem_nil,or_false] at hc
    rcases hc with rfl | hc | rfl
    · exact .of_toNat (by decide) (by decide)
    · exact hchars c hc
    · exact .of_toNat (by decide) (by decide)
  | name _ _ hchars => exact fun c hc => (hchars c hc).1

theorem portText_chars {port : Option Nat} : ∀ c ∈ portText port,HostChar c := by
  intro c hc
  cases port with
  | none => cases hc
  | some n =>
    rcases List.mem_cons.mp hc with rfl | hc
    · exact .of_toNat (by decide) (by decide)
    · exact (toDigits_chars hc).1

/-- Host and port are read back from where they are written one after the other. -/
theorem hostAndPort_written {host : Text} (h : HostForm host) (port : Option Nat) :
    hostAndPort (host ++ portText port) = some (host,port.map (Nat.toDigits 10)) := by
  cases h with
  | literal inside hne hclose hchars =>
    have hauth : '[' :: inside ++ [']'] ++ portText port = '[' :: (inside ++ ']' :: portText port) := by
      simp
    rw [hauth]
    simp only [hostAndPort,splitOnce_append hclose]
    cases port with
    | none => rfl
    | some n => rfl
  | name _ hne hchars =>
    obtain ⟨c,rest,rfl⟩ := List.exists_cons_of_ne_nil hne
    have hcolon : ':' ∉ c :: rest := fun hm => (hchars _ hm).2.1 rfl
    have hbracket : c ≠ '[' := (hchars c List.mem_cons_self).2.2.1
    unfold hostAndPort
    split
    · rename_i heq
      exact absurd (List.cons.inj heq).1 hbracket
    · cases port with
      | none =>
        rw [portText,List.append_nil,splitLast_none hcolon]
        rfl
      | some n =>
        have hdigits : ':' ∉ Nat.toDigits 10 n := fun hm => (toDigits_chars hm).2.1 rfl
        rw [portText,splitLast_append _ hdigits]
        rfl

theorem schemePort_some {scheme : Text} {own : Nat} (h : schemePort scheme = some own) :
    scheme = "https".toList ∧ own = 443 ∨ scheme = "http".toList ∧ own = 80 := by
  unfold schemePort at h
  split at h
  · rename_i hs
    exact .inl ⟨hs,(Option.some.inj h).symm⟩
  · split at h
    · rename_i hs
      exact .inr ⟨hs,(Option.some.inj h).symm⟩
    · cases h

theorem splitOnceAt_scheme {scheme : Text} {own : Nat} (h : schemePort scheme = some own)
    (rest : Text) : splitOnceAt "://".toList (scheme ++ "://".toList ++ rest) = some (scheme,rest) := by
  rcases schemePort_some h with ⟨rfl,_⟩ | ⟨rfl,_⟩ <;> simp [splitOnceAt]

theorem asciiLower_scheme {scheme : Text} {own : Nat} (h : schemePort scheme = some own) :
    asciiLower scheme = scheme := by
  rcases schemePort_some h with ⟨rfl,_⟩ | ⟨rfl,_⟩ <;> decide

theorem trim_of_graphic {s : Text} (h : ∀ c ∈ s,0x21 ≤ c.toNat ∧ c.toNat ≤ 0x7e) : trim s = s := by
  refine trimEnds_eq_self fun c hc => ?_
  have hr := h c hc
  unfold whiteSpace
  simp only [Bool.or_eq_false_iff,Bool.and_eq_false_iff,decide_eq_false_iff_not,beq_eq_false_iff_ne]
  omega

theorem originText_graphic {scheme host : Text} {port : Option Nat} {own : Nat}
    (hs : schemePort scheme = some own) (hh : HostForm host) :
    ∀ c ∈ originText scheme host port,0x21 ≤ c.toNat ∧ c.toNat ≤ 0x7e := by
  intro c hc
  simp only [originText,List.mem_append] at hc
  rcases hc with ((hc | hc) | hc) | hc
  · rcases schemePort_some hs with ⟨rfl,_⟩ | ⟨rfl,_⟩ <;> revert c <;> decide
  · revert c
    decide
  · exact of_decide_eq_true (hh.chars c hc).1
  · exact of_decide_eq_true (portText_chars c hc).1

/-- A port as it is written in an origin. -/
def PortOk (own : Nat) (port : Option Nat) : Prop := ∀ n,port = some n → n ≤ 65535 ∧ n ≠ own

theorem portOf_written {own : Nat} {port : Option Nat} (h : PortOk own port) :
    portOf own (port.map (Nat.toDigits 10)) = some port := by
  cases port with
  | none => rfl
  | some n =>
    obtain ⟨hmax,hown⟩ := h n rfl
    have hlen : (Nat.toDigits 10 n).length ≤ 5 :=
      (Nat.length_toDigits_le_iff (by decide) (by decide)).mpr (by omega)
    have hall : (Nat.toDigits 10 n).all Char.isDigit = true :=
      List.all_eq_true.mpr fun c hc => Nat.isDigit_of_mem_toDigits (by decide) (by decide) hc
    obtain ⟨d,ds,hd⟩ := List.exists_cons_of_ne_nil (Nat.toDigits_ne_nil (n := n) (b := 10))
    simp only [Option.map_some]
    rw [hd]
    simp only [portOf]
    rw [← hd,hall,Nat.ofDigitChars_ten_toDigits]
    rw [if_neg (by simp; omega),if_neg (by omega),if_neg hown]

section
variable {scheme host : Text} {port : Option Nat} {own : Nat}

theorem authority_written (hh : HostForm host) :
    (host ++ portText port).takeWhile (fun c => c != '/' && c != '?' && c != '#') =
      host ++ portText port := by
  refine List.takeWhile_eq_self_iff.mpr fun c hc => ?_
  have hchar : HostChar c := by
    rcases List.mem_append.mp hc with hc | hc
    · exact hh.chars c hc
    · exact portText_chars c hc
  simp [hchar.2.1,hchar.2.2.1,hchar.2.2.2.1]

/-- The parts of an origin that is written in its canonical way. -/
theorem originParts_written (hs : schemePort scheme = some own) (hh : HostForm host) :
    originParts (originText scheme host port) = some (scheme,host,port.getD own) := by
  unfold originParts
  rw [trim_of_graphic (originText_graphic hs hh),originText,List.append_assoc,
    splitOnceAt_scheme hs]
  simp only [Option.bind_eq_bind,Option.bind_some,asciiLower_scheme hs,hs,authority_written hh,
    hostAndPort_written hh]
  cases port with
  | none => rfl
  | some n =>
    obtain ⟨d,ds,hd⟩ := List.exists_cons_of_ne_nil (Nat.toDigits_ne_nil (n := n) (b := 10))
    simp only [Option.map_some,hd,Option.getD_some,effectivePort]
    rw [← hd,Nat.ofDigitChars_ten_toDigits]

theorem authority_accepted {authority : Text} (h : ∀ c ∈ authority,HostChar c)
    (hne : authority ≠ []) :
    ¬ ((authority.any fun c => c == '\\' || c == '@') = true ∨
      authority.all asciiGraphic = false ∨ authority = []) := by
  rintro (hany | hall | hnil)
  · obtain ⟨c,hc,hbad⟩ := List.any_eq_true.mp hany
    simp only [Bool.or_eq_true,beq_iff_eq] at hbad
    rcases hbad with rfl | rfl
    · exact (h _ hc).2.2.2.2.1 rfl
    · exact (h _ hc).2.2.2.2.2 rfl
  · rw [List.all_eq_true.mpr fun c hc => (h c hc).1] at hall
    cases hall
  · exact hne hnil

theorem HostForm.accepted (hh : HostForm host) : ¬ (host = [] ∨ host = "[]".toList) ∧
    ¬ (host.head? ≠ some '[' ∧ (host.any fun c => c == ':' || c == '[' || c == ']') = true) := by
  cases hh with
  | literal inside hne _ _ =>
    obtain ⟨c,rest,rfl⟩ := List.exists_cons_of_ne_nil hne
    simp
  | name _ hne hchars =>
    refine ⟨?_,?_⟩
    · rintro (hnil | hbrackets)
      · exact hne hnil
      · exact (hchars '[' (by rw [hbrackets]; decide)).2.2.1 rfl
    · rintro ⟨_,hany⟩
      obtain ⟨c,hc,hbad⟩ := List.any_eq_true.mp hany
      obtain ⟨_,h1,h2,h3⟩ := hchars c hc
      simp [h1,h2,h3] at hbad

/-- An origin that is written in its canonical way stays as it is. -/
theorem normalizeOrigin_written (hs : schemePort scheme = some own) (hh : HostForm host)
    (hlow : asciiLower host = host) (hp : PortOk own port) :
    normalizeOrigin (originText scheme host port) = some (originText scheme host port) := by
  have hchars : ∀ c ∈ host ++ portText port,HostChar c := by
    intro c hc
    rcases List.mem_append.mp hc with hc | hc
    · exact hh.chars c hc
    · exact portText_chars c hc
  have hne : host ++ portText port ≠ [] := by simp [hh.ne_nil]
  unfold normalizeOrigin
  rw [trim_of_graphic (originText_graphic hs hh),originText,List.append_assoc,
    splitOnceAt_scheme hs]
  simp only [Option.bind_eq_bind,Option.bind_some,asciiLower_scheme hs,hs,authority_written hh]
  rw [if_neg (authority_accepted hchars hne)]
  simp only [hostAndPort_written hh,Option.bind_some]
  rw [if_neg hh.accepted.1,if_neg hh.accepted.2,portOf_written hp,hlow]
  cases port with
  | none => simp [portText]
  | some n => simp [portText]

theorem hostAndPort_form {authority : Text} {written : Option Text}
    (hchars : ∀ c ∈ authority,HostChar c) (h : hostAndPort authority = some (host,written))
    (hempty : ¬ (host = [] ∨ host = "[]".toList))
    (hplain : ¬ (host.head? ≠ some '[' ∧
      (host.any fun c => c == ':' || c == '[' || c == ']') = true)) : HostForm host := by
  rw [not_or] at hempty
  unfold hostAndPort at h
  split at h
  · rename_i after
    have hliteral : ∀ inside tail,splitOnce ']' after = some (inside,tail) →
        host = '[' :: inside ++ [']'] → HostForm host := by
      rintro inside tail hsplit rfl
      obtain ⟨rfl,hclose⟩ := splitOnce_some hsplit
      refine .literal inside ?_ hclose fun c hc => hchars c (by simp [hc])
      rintro rfl
      exact hempty.2 rfl
    split at h
    · cases h
    · rename_i inside hsplit
      exact hliteral inside _ hsplit (Prod.mk.inj (Option.some.inj h)).1.symm
    · rename_i inside rest hsplit
      exact hliteral inside _ hsplit (Prod.mk.inj (Option.some.inj h)).1.symm
    · cases h
  · rename_i hbracket
    -- the host is the authority or what stands before its last colon
    have hname : ∀ tail,authority = host ++ tail → HostForm host := by
      rintro tail rfl
      obtain ⟨c,rest,rfl⟩ := List.exists_cons_of_ne_nil hempty.1
      have hhead : (c :: rest).head? ≠ some '[' := by
        intro hc
        have hc' : c = '[' := by simpa using hc
        exact hbracket (rest ++ tail) (by rw [hc']; rfl)
      refine .name _ hempty.1 fun d hd => ⟨hchars d (List.mem_append_left _ hd),?_⟩
      have hno : ¬ (d = ':' ∨ d = '[' ∨ d = ']') := by
        intro hbad
        refine hplain ⟨hhead,List.any_eq_true.mpr ⟨d,hd,?_⟩⟩
        simpa [or_assoc] using hbad
      simpa [not_or] using hno
    split at h
    · rename_i a b hsplit
      obtain ⟨rfl,rfl⟩ := Prod.mk.inj (Option.some.inj h)
      exact hname _ (splitLast_some hsplit).1
    · obtain ⟨rfl,rfl⟩ := Prod.mk.inj (Option.some.inj h)
      exact hname [] (by simp)

theorem portOf_some {written : Option Text} (h : portOf own written = some port) :
    PortOk own port ∧ effectivePort own written = port.getD own := by
  unfold portOf at h
  split at h
  · cases h
    exact ⟨by simp [PortOk],rfl⟩
  · cases h
    exact ⟨by simp [PortOk],rfl⟩
  · rename_i p hne
    split at h
    · cases h
    · dsimp only at h
      split at h
      · cases h
      · rename_i hmax
        obtain ⟨d,ds,rfl⟩ := List.exists_cons_of_ne_nil (fun he => hne he)
        simp only [Option.some.injEq] at h
        split at h
        · rename_i hown
          subst h
          exact ⟨by simp [PortOk],hown⟩
        · rename_i hown
          subst h
          refine ⟨?_,rfl⟩
          rintro n hn
          obtain rfl := Option.some.inj hn
          exact ⟨Nat.le_of_not_lt hmax,hown⟩

/-- What the accepted strings are like, and what becomes of each. -/
theorem normalizeOrigin_some {raw out : Text} (h : normalizeOrigin raw = some out) :
    ∃ scheme host port own,schemePort scheme = some own ∧ HostForm host ∧ PortOk own port ∧
      originParts raw = some (scheme,host,port.getD own) ∧
      out = originText scheme (asciiLower host) port := by
  unfold normalizeOrigin at h
  obtain ⟨⟨scheme,rest⟩,hsplit,h⟩ := Option.bind_eq_some_iff.mp h
  dsimp only at h
  obtain ⟨own,hs,h⟩ := Option.bind_eq_some_iff.mp h
  generalize hauthority :
    rest.takeWhile (fun c => c != '/' && c != '?' && c != '#') = authority at h
  split at h
  · cases h
  rename_i haccepted
  obtain ⟨⟨host,written⟩,hhost,h⟩ := Option.bind_eq_some_iff.mp h
  dsimp only at h
  split at h
  · cases h
  rename_i hempty
  split at h
  · cases h
  rename_i hplain
  obtain ⟨port,hport,h⟩ := Option.bind_eq_some_iff.mp h
  have hchars : ∀ c ∈ authority,HostChar c := by
    intro c hc
    simp only [not_or,List.any_eq_true,not_exists,not_and,Bool.or_eq_true,beq_iff_eq,
      Bool.not_eq_false,List.all_eq_true] at haccepted
    have hstop := List.all_eq_true.mp List.all_takeWhile c (hauthority ▸ hc)
    simp only [Bool.and_eq_true,bne_iff_ne] at hstop
    exact ⟨haccepted.2.1 c hc,hstop.1.1,hstop.1.2,hstop.2,(haccepted.1 c hc).1,
      (haccepted.1 c hc).2⟩
  obtain ⟨hok,hvalue⟩ := portOf_some hport
  refine ⟨asciiLower scheme,host,port,own,hs,hostAndPort_form hchars hhost hempty hplain,hok,?_,?_⟩
  · unfold originParts
    simp only [hsplit,Option.bind_eq_bind,Option.bind_some,hs,hauthority,hhost]
    exact congrArg (fun n => some (asciiLower scheme,host,n)) hvalue
  · cases port with
    | none => simpa [originText,portText] using h.symm
    | some n => simpa [originText,portText] using h.symm

end

/-- Two readings of an origin that name the same place. -/
def SameOrigin (a b : Text) : Prop :=
  ∃ scheme host host' port,originParts a = some (scheme,host,port) ∧
    originParts b = some (scheme,host',port) ∧ asciiLower host = asciiLower host'

theorem port_inj {own : Nat} {port port' : Option Nat} (h : PortOk own port)
    (h' : PortOk own port') (heq : port.getD own = port'.getD own) : port = port' := by
  cases port with
  | none =>
    cases port' with
    | none => rfl
    | some n => exact absurd heq.symm (h' n rfl).2
  | some n =>
    cases port' with
    | none => exact absurd heq (h n rfl).2
    | some m => exact congrArg some heq

theorem normalizeOrigin_idempotent {raw out : Text} (h : normalizeOrigin raw = some out) :
    normalizeOrigin out = some out := by
  obtain ⟨scheme,host,port,own,hs,hh,hp,_,rfl⟩ := normalizeOrigin_some h
  exact normalizeOrigin_written hs hh.lower (asciiLower_idem host) hp

/-- Two accepted strings have one origin just when they name the same scheme, host and
port. -/
theorem normalizeOrigin_eq_iff {raw raw' out out' : Text} (h : normalizeOrigin raw = some out)
    (h' : normalizeOrigin raw' = some out') : out = out' ↔ SameOrigin raw raw' := by
  obtain ⟨scheme,host,port,own,hs,hh,hp,hparts,rfl⟩ := normalizeOrigin_some h
  obtain ⟨scheme',host',port',own',hs',hh',hp',hparts',rfl⟩ := normalizeOrigin_some h'
  constructor
  · intro heq
    have hread := congrArg originParts heq
    rw [originParts_written hs hh.lower,originParts_written hs' hh'.lower] at hread
    obtain ⟨hscheme,hrest⟩ := Prod.mk.inj (Option.some.inj hread)
    obtain ⟨hhost,hport⟩ := Prod.mk.inj hrest
    refine ⟨scheme,host,host',port.getD own,hparts,?_,hhost⟩
    rw [hparts',hscheme,hport]
  · rintro ⟨s,a,b,n,hpart,hpart',hhost⟩
    rw [hparts] at hpart
    rw [hparts'] at hpart'
    obtain ⟨rfl,hrest⟩ := Prod.mk.inj (Option.some.inj hpart)
    obtain ⟨hscheme,hrest'⟩ := Prod.mk.inj (Option.some.inj hpart')
    obtain ⟨rfl,hport⟩ := Prod.mk.inj hrest
    obtain ⟨rfl,hport'⟩ := Prod.mk.inj hrest'
    subst hscheme
    obtain rfl : own' = own := Option.some.inj (hs'.symm.trans hs)
    rw [hhost,port_inj hp hp' (hport.trans hport'.symm)]

/-- An unsafe request or an upgrade that carries an origin passes only where that origin
is the app's own. -/
theorem sameOrigin_of_passed {method : Text} {upgrade : Bool} {headers : OrdMap Text Text}
    {routedHost origin : Text} (hwrites : upgrade = true ∨ asciiUpper method ∉ safeMethods)
    (horigin : headers.get? "origin".toList = some origin) (hne : origin ≠ [])
    (h : isCrossOriginUnsafe method upgrade headers routedHost = false) :
    SameOrigin origin ("https://".toList ++ trim routedHost) := by
  have hnot : ¬ (upgrade = false ∧ asciiUpper method ∈ safeMethods) := by
    rintro ⟨hup,hsafe⟩
    rcases hwrites with hu | hm
    · rw [hup] at hu
      cases hu
    · exact hm hsafe
  have hpresent : (headers.get? "origin".toList).filter (fun v => !v.isEmpty) = some origin := by
    rw [horigin]
    simp [hne]
  unfold isCrossOriginUnsafe at h
  rw [if_neg hnot] at h
  simp only [hpresent,Bool.or_eq_false_iff,decide_eq_false_iff_not,not_not] at h
  obtain ⟨hown,heq⟩ := h
  cases ho : normalizeOrigin ("https://".toList ++ trim routedHost) with
  | none =>
    rw [ho] at hown
    cases hown
  | some own =>
    rw [ho] at heq
    exact (normalizeOrigin_eq_iff heq ho).mp rfl

/-- Origins are canonical: normalising one again changes nothing, two accepted strings
give one origin exactly when they have the same scheme, host up to case and effective
port, and an unsafe request with an origin passes only where it is the app's own. -/
theorem origins_are_canonical :
    (∀ raw out : Text,normalizeOrigin raw = some out → normalizeOrigin out = some out) ∧
    (∀ raw raw' out out' : Text,normalizeOrigin raw = some out → normalizeOrigin raw' = some out' →
      (out = out' ↔ SameOrigin raw raw')) ∧
    ∀ (method : Text) (upgrade : Bool) (headers : OrdMap Text Text) (routedHost origin : Text),
      upgrade = true ∨ asciiUpper method ∉ safeMethods →
      headers.get? "origin".toList = some origin → origin ≠ [] →
      isCrossOriginUnsafe method upgrade headers routedHost = false →
        SameOrigin origin ("https://".toList ++ trim routedHost) :=
  ⟨fun _ _ h => normalizeOrigin_idempotent h,fun _ _ _ _ h h' => normalizeOrigin_eq_iff h h',
    fun _ _ _ _ _ hwrites horigin hne h => sameOrigin_of_passed hwrites horigin hne h⟩

theorem origins_are_canonical_once :
    normalizeOrigin "https://A.b:443/x".toList = some "https://a.b".toList ∧
    normalizeOrigin "https://a.b".toList = some "https://a.b".toList ∧
    SameOrigin "https://A.b:443/x".toList "https://a.B".toList := by
  have hfirst : normalizeOrigin "https://A.b:443/x".toList = some "https://a.b".toList := by
    decide +kernel
  have hsecond : normalizeOrigin "https://a.B".toList = some "https://a.b".toList := by
    decide +kernel
  exact ⟨hfirst,origins_are_canonical.1 _ _ hfirst,
    (origins_are_canonical.2.1 _ _ _ _ hfirst hsecond).mp rfl⟩

end Flagship.Gate.Proofs

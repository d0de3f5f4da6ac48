import Flagship.Lib.Text

namespace Flagship.Relay
open Lib

structure SetKey where
  slug : Text
  author : Text
  user : Text
  deriving DecidableEq

def SetKey.encode (k : SetKey) : Text := k.slug ++ '|' :: k.author ++ '|' :: k.user

def lowerAlnum (c : Char) : Bool := c.isLower || c.isDigit

/-- Slug or generic DNS label; hyphens not in front. The byte counts of the
source are character counts here, since every accepted character is ASCII. -/
def labelOk : Text → Bool
  | [] => false
  | first :: rest =>
    lowerAlnum first && decide (rest.length ≤ 62) && rest.all (fun c => lowerAlnum c || c == '-')

/-- Username: hyphen-free, which is what makes `<slug>-<author>` parseable. -/
def userOk (s : Text) : Bool := !s.isEmpty && decide (s.length ≤ 63) && s.all lowerAlnum

def stripApex (lower apex : Text) : Option Text := do
  let head ← stripSuffix lower apex
  stripSuffix head ['.']

/-- The place of the last `c`. -/
def rfind (s : Text) (c : Char) : Option Nat :=
  (s.reverse.findIdx? (· == c)).map (fun i => s.length - 1 - i)

/-- Split at the last `-` when it is neither first nor last: `<slug>-<author>`. -/
def splitDash (leftmost : Text) : Option (Text × Text) := do
  let i ← rfind leftmost '-'
  if i = 0 ∨ leftmost.length ≤ i + 1 then none
  else some (leftmost.take i,leftmost.drop (i + 1))

section
variable [Lowercase]

def parseSetKey (fqdn apex : Text) : Option SetKey := do
  let head ← stripApex (toLowercase fqdn) apex
  if head = [] then none
  else
    let parts := head.splitOn '.'
    if parts.length < 2 ∨ parts.all labelOk = false then none
    else
      let user ← parts.getLast?
      if userOk user = false then none
      else
        let leftmost ← parts.head?
        let (slug,author) := (splitDash leftmost).getD (leftmost,user)
        if labelOk slug = false ∨ userOk author = false then none
        else some ⟨slug,author,user⟩

/-- The labels below the apex, joined again with it. -/
def underApex (labels : List Text) (apex : Text) : Text :=
  labels.foldr (fun l rest => l ++ '.' :: rest) apex

def derivableShorteneds (canonical apex : Text) : List Text :=
  match stripApex (toLowercase canonical) apex with
  | none => []
  | some head =>
    if head.contains '*' then []
    else
      let parts := head.splitOn '.'
      if parts.length < 3 then []
      else
        match parts.head?,parts.getLast? with
        | some leftmost,some user =>
          let host := (parts[parts.length - 2]?).getD []
          underApex [leftmost,user] apex ::
            match splitDash leftmost with
            | some (slug,_) => [underApex [slug,user] apex,underApex [slug,host,user] apex]
            | none => []
        | _,_ => []

/-- Exactly two plain labels under the apex: the leader-routed form. -/
def isShortServiceCanonical (fqdn apex : Text) : Bool :=
  match stripApex (toLowercase fqdn) apex with
  | none => false
  | some head =>
    if head.isEmpty || head.contains '*' then false
    else
      let parts := head.splitOn '.'
      parts.length == 2 && parts.all labelOk && (parts[1]?).any userOk

/-- The last label before the apex (the `user_of` of `in_own_user_zone`). -/
def userOf (f apex : Text) : Option Text := do
  let head ← stripApex f apex
  (head.splitOn '.').getLast?

end

theorem stripApex_eq_some {lower apex head : Text} :
    stripApex lower apex = some head ↔ lower = head ++ '.' :: apex := by
  simp only [stripApex,Option.bind_eq_bind,Option.bind_eq_some_iff,stripSuffix_eq_some]
  constructor
  · rintro ⟨h,rfl,rfl⟩
    simp
  · rintro rfl
    exact ⟨head ++ ['.'],by simp,rfl⟩

/-- Both halves are made of the label's own characters. -/
theorem splitDash_mem {leftmost slug author : Text}
    (h : splitDash leftmost = some (slug,author)) :
    (∀ c ∈ slug, c ∈ leftmost) ∧ ∀ c ∈ author, c ∈ leftmost := by
  simp only [splitDash,Option.bind_eq_bind,Option.bind_eq_some_iff] at h
  obtain ⟨i,_,hs⟩ := h
  split at hs
  · cases hs
  · simp only [Option.some.injEq,Prod.mk.injEq] at hs
    obtain ⟨rfl,rfl⟩ := hs
    exact ⟨fun c hc => List.mem_of_mem_take hc,fun c hc => List.mem_of_mem_drop hc⟩

theorem lowerAlnum_ne_bar {c : Char} (h : lowerAlnum c = true) : c ≠ '|' := by
  rintro rfl
  revert h
  decide

theorem labelOk_no_bar {s : Text} (h : labelOk s = true) : '|' ∉ s := by
  cases s with
  | nil => simp
  | cons first rest =>
    simp only [labelOk,Bool.and_eq_true,List.all_eq_true,Bool.or_eq_true,beq_iff_eq] at h
    simp only [List.mem_cons,not_or]
    refine ⟨fun he => lowerAlnum_ne_bar h.1.1 he.symm,?_⟩
    intro hm
    rcases h.2 _ hm with hc | hc
    · exact lowerAlnum_ne_bar hc rfl
    · revert hc
      decide

theorem userOk_no_bar {s : Text} (h : userOk s = true) : '|' ∉ s := by
  simp only [userOk,Bool.and_eq_true,List.all_eq_true] at h
  exact fun hm => lowerAlnum_ne_bar (h.2 _ hm) rfl

/-- A key whose three parts hold no `|`, so that its encoding is unambiguous. -/
def SetKey.Plain (k : SetKey) : Prop := '|' ∉ k.slug ∧ '|' ∉ k.author ∧ '|' ∉ k.user

theorem SetKey.encode_split {k : SetKey} (h : k.Plain) :
    k.encode.splitOn '|' = [k.slug,k.author,k.user] := by
  have he : k.encode = k.slug ++ '|' :: (k.author ++ '|' :: k.user) := by
    simp [SetKey.encode]
  rw [he,List.splitOn_append_cons_self,List.splitOn_eq_singleton h.1,splitOn_pair h.2.1 h.2.2]
  rfl

theorem SetKey.encode_injective {k k' : SetKey} (h : k.Plain) (h' : k'.Plain)
    (he : k.encode = k'.encode) : k = k' := by
  have hs := SetKey.encode_split h
  rw [he,SetKey.encode_split h'] at hs
  simp only [List.cons.injEq,and_true] at hs
  cases k; cases k'
  simp_all

theorem userOf_underApex {labels : List Text} {user apex : Text}
    (hl : ∀ l ∈ labels, '.' ∉ l) (hu : '.' ∉ user) :
    userOf (underApex (labels ++ [user]) apex) apex = some user := by
  have hhead : ∀ ls : List Text, (∀ l ∈ ls, '.' ∉ l) →
      ∃ head, underApex (ls ++ [user]) apex = head ++ '.' :: apex ∧
        (head.splitOn '.').getLast? = some user := by
    intro ls
    induction ls with
    | nil =>
      intro _
      exact ⟨user,rfl,by simp [List.splitOn_eq_singleton hu]⟩
    | cons l ls ih =>
      intro hls
      obtain ⟨head,he,hlast⟩ := ih (fun x hx => hls x (List.mem_cons_of_mem _ hx))
      refine ⟨l ++ '.' :: head,?_,?_⟩
      · simpa [underApex] using he
      · rw [List.splitOn_append_cons_self,List.splitOn_eq_singleton (hls l List.mem_cons_self)]
        rw [List.getLast?_append_of_ne_nil _ (List.splitOn_ne_nil _ _)]
        exact hlast
  obtain ⟨head,he,hlast⟩ := hhead labels hl
  simp only [userOf,stripApex_eq_some.mpr he,Option.bind_eq_bind,Option.bind_some]
  exact hlast

section
variable [Lowercase]

theorem parseSetKey_spec {fqdn apex : Text} {k : SetKey} (h : parseSetKey fqdn apex = some k) :
    k.Plain ∧ userOf (toLowercase fqdn) apex = some k.user := by
  simp only [parseSetKey,Option.bind_eq_bind,Option.bind_eq_some_iff] at h
  obtain ⟨head,hhead,h⟩ := h
  split at h
  · cases h
  split at h
  · cases h
  obtain ⟨user,huser,h⟩ := Option.bind_eq_some_iff.mp h
  split at h
  · cases h
  rename_i hu
  obtain ⟨leftmost,_,h⟩ := Option.bind_eq_some_iff.mp h
  generalize (splitDash leftmost).getD (leftmost,user) = pair at h
  obtain ⟨slug,author⟩ := pair
  simp only at h
  split at h
  · cases h
  rename_i hok
  simp only [not_or,Bool.not_eq_false] at hok hu
  cases h
  refine ⟨⟨labelOk_no_bar hok.1,userOk_no_bar hok.2,userOk_no_bar hu⟩,?_⟩
  simp only [userOf,hhead,Option.bind_eq_bind,Option.bind_some]
  exact huser

/-- Lowercasing the argument first changes nothing. -/
@[simp] theorem parseSetKey_toLowercase (fqdn apex : Text) :
    parseSetKey (toLowercase fqdn) apex = parseSetKey fqdn apex := by
  simp [parseSetKey]

theorem isLower_underApex {labels : List Text} {apex : Text}
    (hl : ∀ l ∈ labels, IsLower l) (ha : IsLower apex) : IsLower (underApex labels apex) := by
  induction labels with
  | nil => exact ha
  | cons l ls ih =>
    exact (hl l List.mem_cons_self).append
      (IsLower.dot (ih (fun x hx => hl x (List.mem_cons_of_mem _ hx))))

/-- Every derived name is some labels of the canonical, the user's last. -/
theorem derivableShorteneds_shape {canonical apex sh : Text}
    (h : sh ∈ derivableShorteneds canonical apex) :
    ∃ labels user, userOf (toLowercase canonical) apex = some user ∧
      sh = underApex (labels ++ [user]) apex ∧ '.' ∉ user ∧ IsLower user ∧
      ∀ l ∈ labels, '.' ∉ l ∧ IsLower l := by
  unfold derivableShorteneds at h
  cases hhead : stripApex (toLowercase canonical) apex with
  | none => simp [hhead] at h
  | some head =>
    simp only [hhead] at h
    split at h
    · simp at h
    split at h
    · simp at h
    split at h
    · rename_i leftmost user hleft huser
      have hlow : IsLower head := by
        intro c hc
        apply isLower_toLowercase canonical
        rw [stripApex_eq_some.mp hhead]
        exact List.mem_append_left _ hc
      have hpart : ∀ p ∈ head.splitOn '.', '.' ∉ p ∧ IsLower p := fun p hp =>
        ⟨not_mem_of_mem_splitOn hp,fun c hc => hlow c (mem_of_mem_splitOn hp hc)⟩
      have hl := hpart leftmost (List.mem_of_head? hleft)
      have hu := hpart user (List.mem_of_getLast? huser)
      have hhost : '.' ∉ ((head.splitOn '.')[(head.splitOn '.').length - 2]?).getD [] ∧
          IsLower (((head.splitOn '.')[(head.splitOn '.').length - 2]?).getD []) := by
        cases hx : (head.splitOn '.')[(head.splitOn '.').length - 2]? with
        | none => exact ⟨by simp,by simp [IsLower]⟩
        | some host => exact hpart host (List.mem_of_getElem? hx)
      have huo : userOf (toLowercase canonical) apex = some user := by
        simpa [userOf,hhead] using huser
      rcases List.mem_cons.mp h with rfl | h
      · exact ⟨[leftmost],user,huo,rfl,hu.1,hu.2,by simpa using hl⟩
      · cases hd : splitDash leftmost with
        | none => simp [hd] at h
        | some pair =>
          obtain ⟨slug,author⟩ := pair
          obtain ⟨hm,_⟩ := splitDash_mem hd
          have hs : '.' ∉ slug ∧ IsLower slug :=
            ⟨fun hc => hl.1 (hm _ hc),fun c hc => hl.2 c (hm c hc)⟩
          simp only [hd,List.mem_cons,List.not_mem_nil,or_false] at h
          rcases h with rfl | rfl
          · exact ⟨[slug],user,huo,rfl,hu.1,hu.2,by simpa using hs⟩
          · refine ⟨[slug,_],user,huo,rfl,hu.1,hu.2,?_⟩
            intro l hlm
            simp only [List.mem_cons,List.not_mem_nil,or_false] at hlm
            rcases hlm with rfl | rfl
            · exact hs
            · exact hhost
    · simp at h

theorem derivableShorteneds_user {canonical apex sh : Text}
    (h : sh ∈ derivableShorteneds canonical apex) :
    userOf sh apex = userOf (toLowercase canonical) apex := by
  obtain ⟨labels,user,hu,rfl,hd,_,hl⟩ := derivableShorteneds_shape h
  rw [hu,userOf_underApex (fun l hm => (hl l hm).1) hd]

theorem derivableShorteneds_lower {canonical apex sh : Text} (ha : IsLower apex)
    (h : sh ∈ derivableShorteneds canonical apex) : toLowercase sh = sh := by
  obtain ⟨labels,user,_,rfl,_,hu,hl⟩ := derivableShorteneds_shape h
  apply IsLower.eq
  apply isLower_underApex _ ha
  intro l hm
  rcases List.mem_append.mp hm with hm | hm
  · exact (hl l hm).2
  · rw [List.mem_singleton.mp hm]
    exact hu

end
end Flagship.Relay

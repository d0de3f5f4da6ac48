import Flagship.Relay.Names
import Flagship.Tunnel.Allocator

namespace Flagship.Tunnel.Proofs
open Lib

/-- The key as the relay states it. -/
def relayKey (k : AppUserSetKey) : Relay.SetKey := ⟨k.slug,k.author,k.user⟩

theorem encode_relayKey (k : AppUserSetKey) : (relayKey k).encode = encodeSetKey k := rfl

theorem wordChar_eq : wordChar = Relay.lowerAlnum := by
  funext c
  unfold wordChar Relay.lowerAlnum Char.isLower Char.isDigit
  rfl

theorem labelOk_eq : labelOk = Relay.labelOk := by
  funext s
  cases s with
  | nil => rfl
  | cons first rest => simp only [labelOk,Relay.labelOk,wordChar_eq]

theorem userOk_eq : userOk = Relay.userOk := by
  funext s
  cases s with
  | nil => rfl
  | cons first rest => simp [userOk,Relay.userOk,wordChar_eq]

theorem getLast?_cons_eq (p : Text) (ps : List Text) :
    (p :: ps).getLast? = some ((p :: ps).getLastD []) := by
  rw [List.getLastD_eq_getLast?,List.getLast?_cons,Option.getD_some]

theorem headUnder_eq (lower apex : Text) : headUnder lower apex = Relay.stripApex lower apex := by
  unfold headUnder
  dsimp only
  split
  · rename_i h
    obtain ⟨head,rfl⟩ := List.isSuffixOf_iff_suffix.mp h
    rw [Relay.stripApex_eq_some.mpr rfl]
    simp
  · rename_i h
    cases hs : Relay.stripApex lower apex with
    | none => rfl
    | some head =>
      apply absurd (List.isSuffixOf_iff_suffix.mpr ?_) h
      exact ⟨head,(Relay.stripApex_eq_some.mp hs).symm⟩

theorem dashIdx_eq (leftmost : Text) :
    (dashIdx leftmost).map (fun i => (leftmost.take i,leftmost.drop (i + 1))) =
      Relay.splitDash leftmost := by
  unfold dashIdx Relay.splitDash
  rw [show Relay.rfind leftmost '-' = lastIndexOf leftmost '-' from rfl]
  cases lastIndexOf leftmost '-' with
  | none => rfl
  | some i =>
    dsimp only [Option.bind_eq_bind,Option.bind_some]
    by_cases h : 0 < i ∧ i < leftmost.length - 1
    · rw [if_pos h,if_neg (by omega)]
      rfl
    · rw [if_neg h,if_pos (by omega)]
      rfl

theorem slugAndAuthor_eq (leftmost user : Text) :
    slugAndAuthor leftmost user = (Relay.splitDash leftmost).getD (leftmost,user) := by
  rw [← dashIdx_eq,slugAndAuthor]
  cases dashIdx leftmost <;> rfl

/-- A letter, a digit, a hyphen or a dot, all lowercase ASCII. -/
def hostChar (c : Char) : Bool := wordChar c || c == '-' || c == '.'

def HostName (s : Text) : Prop := ∀ c ∈ s,hostChar c = true

instance (s : Text) : Decidable (HostName s) :=
  decidable_of_iff (s.all hostChar = true) List.all_eq_true

/-- The characters of a host name, in code order. -/
def hostChars : Text := "-.0123456789abcdefghijklmnopqrstuvwxyz".toList

theorem ofNat_mem_hostChars : ∀ n < 128,hostChar (Char.ofNat n) = true → Char.ofNat n ∈ hostChars := by
  decide +kernel

theorem hostChar_lt {c : Char} (h : hostChar c = true) : c.toNat < 128 := by
  simp only [hostChar,wordChar,Bool.or_eq_true,Bool.and_eq_true,decide_eq_true_eq,beq_iff_eq,
    Char.le_def,UInt32.le_iff_toNat_le] at h
  have hz : 'z'.val.toNat = 122 := rfl
  have h9 : '9'.val.toNat = 57 := rfl
  have hc : c.toNat = c.val.toNat := rfl
  rcases h with ((h | h) | rfl) | rfl
  · omega
  · omega
  · decide
  · decide

theorem mem_hostChars {c : Char} (h : hostChar c = true) : c ∈ hostChars := by
  have hn := ofNat_mem_hostChars c.toNat (hostChar_lt h)
  rw [Char.ofNat_toNat] at hn
  exact hn h

/-- The collation keeps the characters of host names in code order. -/
theorem collation_lt : ∀ c ∈ hostChars,∀ d ∈ hostChars,
    (collationOrder.idxOf c < collationOrder.idxOf d ↔ c < d) := by
  have hall : (hostChars.all fun c => hostChars.all fun d =>
      decide (collationOrder.idxOf c < collationOrder.idxOf d ↔ c < d)) = true := by
    decide +kernel
  intro c hc d hd
  exact of_decide_eq_true (List.all_eq_true.mp (List.all_eq_true.mp hall c hc) d hd)

theorem localeBefore_eq {a b : Text} (ha : HostName a) (hb : HostName b) :
    localeBefore a b = decide (a < b) := by
  refine decide_eq_decide.mpr ?_
  induction a generalizing b with
  | nil => cases b <;> simp
  | cons c a ih =>
    cases b with
    | nil => simp
    | cons d b =>
      have hc := mem_hostChars (ha c List.mem_cons_self)
      have hd := mem_hostChars (hb d List.mem_cons_self)
      have hrest := ih (fun x hx => ha x (List.mem_cons_of_mem _ hx))
        (fun x hx => hb x (List.mem_cons_of_mem _ hx))
      have hlt := collation_lt c hc d hd
      have hgt := collation_lt d hd c hc
      have heq : collationOrder.idxOf c = collationOrder.idxOf d ↔ c = d := by
        constructor
        · intro h
          rcases lt_trichotomy c d with h' | h' | h'
          · exact absurd (hlt.mpr h') (by omega)
          · exact h'
          · exact absurd (hgt.mpr h') (by omega)
        · rintro rfl
          rfl
      rw [List.map_cons,List.map_cons,List.cons_lt_cons_iff,List.cons_lt_cons_iff,hlt,heq,hrest]

theorem toLower_hostChars : ∀ c ∈ hostChars,c.toLower = c := by
  have hall : (hostChars.all fun c => c.toLower == c) = true := by decide +kernel
  intro c hc
  exact beq_iff_eq.mp (List.all_eq_true.mp hall c hc)

section
variable [Lowercase]

theorem HostName.lower {s : Text} (h : HostName s) : toLowercase s = s := by
  rw [Lowercase.toLowercase_ascii s (fun c hc => hostChar_lt (h c hc))]
  refine (List.map_congr_left fun c hc => ?_).trans (List.map_id _)
  exact toLower_hostChars c (mem_hostChars (h c hc))

theorem parseSetKey_eq (fqdn apex : Text) :
    (parseSetKey fqdn apex).map relayKey = Relay.parseSetKey fqdn apex := by
  unfold parseSetKey Relay.parseSetKey
  rw [headUnder_eq]
  cases Relay.stripApex (toLowercase fqdn) apex with
  | none => rfl
  | some head =>
    dsimp only [Option.bind_eq_bind,Option.bind_some]
    rw [labelOk_eq,userOk_eq]
    by_cases hempty : head = []
    · rw [if_pos hempty,if_pos (List.length_eq_zero_iff.mpr hempty)]
      rfl
    rw [if_neg hempty,if_neg (fun h => hempty (List.length_eq_zero_iff.mp h))]
    obtain ⟨leftmost,rest,hparts⟩ := List.exists_cons_of_ne_nil (List.splitOn_ne_nil '.' head)
    rw [hparts]
    by_cases hshort : (leftmost :: rest).length < 2
    · rw [if_pos hshort,if_pos (.inl hshort)]
      rfl
    rw [if_neg hshort]
    rw [← List.not_all_eq_any_not]
    by_cases hlabels : (leftmost :: rest).all Relay.labelOk = false
    · have hbad : (leftmost :: rest).length < 2 ∨ (leftmost :: rest).all Relay.labelOk = false :=
        .inr hlabels
      rw [if_pos hbad,hlabels]
      rfl
    have hgood : ¬((leftmost :: rest).length < 2 ∨ (leftmost :: rest).all Relay.labelOk = false) :=
      not_or.mpr ⟨hshort,hlabels⟩
    rw [if_neg hgood,Bool.eq_true_of_not_eq_false hlabels]
    rw [Bool.not_true,if_neg Bool.false_ne_true]
    rw [getLast?_cons_eq,List.head?_cons,List.headD_cons]
    generalize (leftmost :: rest).getLastD [] = user
    dsimp only [Option.bind_some]
    rw [slugAndAuthor_eq]
    by_cases huser : Relay.userOk user = false
    · simp [huser]
    simp only [Bool.not_eq_false] at huser
    generalize (Relay.splitDash leftmost).getD (leftmost,user) = named
    rw [huser]
    cases Relay.labelOk named.1 <;> cases Relay.userOk named.2 <;> rfl

theorem derivableShorteneds_eq (canonical apex : Text) :
    derivableShorteneds canonical apex = Relay.derivableShorteneds canonical apex := by
  unfold derivableShorteneds Relay.derivableShorteneds
  rw [headUnder_eq]
  cases Relay.stripApex (toLowercase canonical) apex with
  | none => rfl
  | some head =>
    dsimp only
    obtain ⟨leftmost,rest,hparts⟩ := List.exists_cons_of_ne_nil (List.splitOn_ne_nil '.' head)
    rw [hparts,getLast?_cons_eq,List.head?_cons,List.headD_cons,List.getD_eq_getElem?_getD]
    dsimp only
    rw [← dashIdx_eq]
    cases dashIdx leftmost with
    | none => simp [Relay.underApex]
    | some i => simp [Relay.underApex]

theorem isShortServiceCanonical_eq (fqdn apex : Text) :
    isShortServiceCanonical fqdn apex = Relay.isShortServiceCanonical fqdn apex := by
  unfold isShortServiceCanonical Relay.isShortServiceCanonical
  rw [headUnder_eq]
  cases Relay.stripApex (toLowercase fqdn) apex with
  | none => rfl
  | some head =>
    dsimp only
    rw [labelOk_eq,userOk_eq]
    cases head with
    | nil => rfl
    | cons c cs =>
      by_cases hlen : ((c :: cs).splitOn '.').length = 2
      · obtain ⟨p,q,hparts⟩ := List.length_eq_two.mp hlen
        simp [hparts]
      · simp [hlen]

end
end Flagship.Tunnel.Proofs

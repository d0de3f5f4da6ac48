import Mathlib.Tactic.Ring
import Flagship.Lib.Text

namespace Flagship.Lib

abbrev Bytes := List UInt8

/-- So many bytes. -/
abbrev BytesN (n : Nat) := { bs : Bytes // bs.length = n }

def bytesN? (n : Nat) (bs : Bytes) : Option (BytesN n) :=
  if h : bs.length = n then some ⟨bs,h⟩ else none

@[simp] theorem bytesN?_val {n : Nat} (v : BytesN n) : bytesN? n v.1 = some v := by
  rw [bytesN?,dif_pos v.2]

/-- The last so many bytes of a number, high byte first. -/
def beBytes : Nat → Nat → Bytes
  | 0,_ => []
  | n + 1,v => UInt8.ofNat (v / 256 ^ n) :: beBytes n v

/-- The number bytes stand for, high byte first. -/
def ofBe (bs : Bytes) : Nat := bs.foldl (fun acc b => acc * 256 + b.toNat) 0

@[simp] theorem length_beBytes (n v : Nat) : (beBytes n v).length = n := by
  induction n with
  | zero => rfl
  | succ n ih => simp [beBytes,ih]

theorem foldl_beBytes (n v acc : Nat) :
    (beBytes n v).foldl (fun acc b => acc * 256 + b.toNat) acc = acc * 256 ^ n + v % 256 ^ n := by
  induction n generalizing acc with
  | zero => simp [beBytes,Nat.mod_one]
  | succ n ih =>
    have hmod : v % 256 ^ (n + 1) = v % 256 ^ n + 256 ^ n * (v / 256 ^ n % 256) := by
      rw [Nat.pow_succ,Nat.mod_mul]
    rw [beBytes,List.foldl_cons,ih,UInt8.toNat_ofNat',hmod]
    ring

/-- A number that fits is read back. -/
theorem ofBe_beBytes {n v : Nat} (h : v < 256 ^ n) : ofBe (beBytes n v) = v := by
  rw [ofBe,foldl_beBytes,Nat.mod_eq_of_lt h,Nat.zero_mul,Nat.zero_add]

/-- The bytes from one offset up to another. -/
def slice (bs : Bytes) (i j : Nat) : Bytes := (bs.drop i).take (j - i)

/-- The big-endian number of two bytes; a byte that is not there counts as zero. -/
def u16 (bs : Bytes) (i : Nat) : Nat := (bs.getD i 0).toNat * 2 ^ 8 + (bs.getD (i + 1) 0).toNat

/-- The big-endian number of three bytes. -/
def u24 (bs : Bytes) (i : Nat) : Nat := (bs.getD i 0).toNat * 2 ^ 16 + u16 bs (i + 1)

theorem length_slice {bs : Bytes} {i j : Nat} (h : j ≤ bs.length) : (slice bs i j).length = j - i := by
  simp only [slice,List.length_take,List.length_drop]
  omega

theorem getD_slice {bs : Bytes} {i j k : Nat} (h : k < j - i) :
    (slice bs i j).getD k 0 = bs.getD (i + k) 0 := by
  simp only [slice,List.getD_eq_getElem?_getD]
  rw [List.getElem?_take_of_lt h,List.getElem?_drop]

theorem u16_slice {bs : Bytes} {i j k : Nat} (h : k + 1 < j - i) :
    u16 (slice bs i j) k = u16 bs (i + k) := by
  rw [u16,u16,getD_slice (Nat.lt_of_succ_lt h),getD_slice h,Nat.add_assoc]

/-- A slice of a slice is a slice of the whole. -/
theorem slice_slice {bs : Bytes} {i j k l : Nat} (h : i + l ≤ j) :
    slice (slice bs i j) k l = slice bs (i + k) (i + l) := by
  simp only [slice,List.drop_take,List.drop_drop,List.take_take]
  congr 1
  omega

theorem slice_append_left {as bs : Bytes} {i j : Nat} (h : j ≤ as.length) :
    slice (as ++ bs) i j = slice as i j := by
  by_cases hi : i ≤ as.length
  · rw [slice,slice,List.drop_append_of_le_length hi,List.take_append_of_le_length]
    rw [List.length_drop]
    omega
  · rw [slice,slice,show j - i = 0 by omega,List.take_zero,List.take_zero]

theorem getD_append_left {as bs : Bytes} {i : Nat} (h : i < as.length) :
    (as ++ bs).getD i 0 = as.getD i 0 := by
  simp only [List.getD_eq_getElem?_getD,List.getElem?_append_left h]

theorem u24_append_left {as bs : Bytes} {i : Nat} (h : i + 2 < as.length) :
    u24 (as ++ bs) i = u24 as i := by
  rw [u24,u24,u16,u16,getD_append_left (by omega),getD_append_left (by omega),getD_append_left h]

theorem u24_take {bs : Bytes} {i n : Nat} (h : i + 2 < n) : u24 (bs.take n) i = u24 bs i := by
  simp only [u24,u16,List.getD_eq_getElem?_getD]
  rw [List.getElem?_take_of_lt (by omega),List.getElem?_take_of_lt (by omega),
    List.getElem?_take_of_lt h]

/-- The bytes of a range, if it lies within. -/
def slice? (bs : Bytes) (i j : Nat) : Option Bytes :=
  if i ≤ j ∧ j ≤ bs.length then some (slice bs i j) else none

theorem slice?_of_le {bs : Bytes} {i j : Nat} (hi : i ≤ j) (hj : j ≤ bs.length) :
    slice? bs i j = some (slice bs i j) :=
  if_pos ⟨hi,hj⟩

theorem slice?_of_lt {bs : Bytes} {i j : Nat} (hj : bs.length < j) : slice? bs i j = none :=
  if_neg fun h => absurd h.2 (Nat.not_le.mpr hj)

/-- The UTF-8 bytes of a text. -/
def utf8Bytes (s : Text) : Bytes := s.flatMap String.utf8EncodeChar

/-- The text that bytes are the UTF-8 of. -/
def utf8Text (bs : Bytes) : Option Text := (bs.toByteArray.utf8Decode?).map Array.toList

@[simp] theorem utf8Text_utf8Bytes (s : Text) : utf8Text (utf8Bytes s) = some s := by
  have h := List.utf8Decode?_utf8Encode (l := s)
  unfold utf8Text utf8Bytes
  rw [show (s.flatMap String.utf8EncodeChar).toByteArray = s.utf8Encode from rfl,h]
  rfl

/-- Only the UTF-8 of a text is read as that text. -/
theorem utf8Bytes_of_utf8Text {bs : Bytes} {s : Text} (h : utf8Text bs = some s) :
    utf8Bytes s = bs := by
  obtain ⟨chars,hchars,rfl⟩ := Option.map_eq_some_iff.mp h
  have henc := ByteArray.utf8Encode_get_utf8Decode? (b := bs.toByteArray)
    (h := by rw [hchars]; rfl)
  simp only [hchars,Option.get_some] at henc
  have hdata : (utf8Bytes chars.toList).toByteArray = bs.toByteArray := henc
  have hlist := congrArg (fun b : ByteArray => b.data.toList) hdata
  simpa [List.data_toByteArray] using hlist

/-- A byte below 128 of a character's UTF-8 is the whole of it. -/
theorem utf8EncodeChar_of_ascii {c : Char} {b : UInt8} (hb : b ∈ String.utf8EncodeChar c)
    (h : b.toNat < 128) : String.utf8EncodeChar c = [b] ∧ c.toNat = b.toNat := by
  unfold String.utf8EncodeChar at hb ⊢
  have hv : c.val.toNat = c.toNat := rfl
  dsimp only at hb ⊢
  split at hb
  · rename_i hle
    rw [if_pos hle]
    simp only [List.mem_singleton] at hb
    subst hb
    refine ⟨rfl,?_⟩
    simp only [UInt8.toNat_ofNat']
    omega
  · split at hb
    · simp only [List.mem_cons,List.not_mem_nil,or_false] at hb
      rcases hb with rfl | rfl <;> simp only [UInt8.toNat_ofNat'] at h <;> omega
    · split at hb
      · simp only [List.mem_cons,List.not_mem_nil,or_false] at hb
        rcases hb with rfl | rfl | rfl <;> simp only [UInt8.toNat_ofNat'] at h <;> omega
      · simp only [List.mem_cons,List.not_mem_nil,or_false] at hb
        rcases hb with rfl | rfl | rfl | rfl <;> simp only [UInt8.toNat_ofNat'] at h <;> omega

/-- The character of a byte below 128 stands where its byte stands. -/
theorem mem_of_mem_utf8Bytes {s : Text} {b : UInt8} (hb : b ∈ utf8Bytes s) (h : b.toNat < 128) :
    ∃ c ∈ s,c.toNat = b.toNat := by
  obtain ⟨c,hc,hbc⟩ := List.mem_flatMap.mp hb
  exact ⟨c,hc,(utf8EncodeChar_of_ascii hbc h).2⟩

/-- Bytes below 128 at the start of a text's UTF-8 are characters at its start. -/
theorem utf8Bytes_head {s : Text} {b : UInt8} {rest : Bytes} (h : utf8Bytes s = b :: rest)
    (hb : b.toNat < 128) : ∃ c s',s = c :: s' ∧ c.toNat = b.toNat ∧ utf8Bytes s' = rest := by
  cases s with
  | nil => cases h
  | cons c s' =>
    have hne : String.utf8EncodeChar c ≠ [] := by
      intro hnil
      have hlen := congrArg List.length hnil
      rw [String.length_utf8EncodeChar] at hlen
      exact absurd hlen (Nat.ne_of_gt c.utf8Size_pos)
    obtain ⟨b',bs,hbs⟩ := List.exists_cons_of_ne_nil hne
    unfold utf8Bytes at h
    rw [List.flatMap_cons,hbs,List.cons_append,List.cons.injEq] at h
    obtain ⟨rfl,hrest⟩ := h
    obtain ⟨hone,hval⟩ := utf8EncodeChar_of_ascii (by rw [hbs]; exact List.mem_cons_self) hb
    rw [hbs,List.cons.injEq] at hone
    rw [hone.2] at hrest
    exact ⟨c,s',rfl,hval,hrest⟩

def isContinuation (c : UInt8) : Bool := 0x80 ≤ c && c ≤ 0xbf

/-- The character at the start of bytes, and how many bytes it takes after its first. A
sequence that is no UTF-8 is U+FFFD as far as it could have been some. -/
def utf8Next (a : UInt8) (rest : Bytes) : Char × Nat :=
  let low := fun c : UInt8 => c.toNat % 64
  if a < 0x80 then (Char.ofNat a.toNat,0)
  else if 0xc2 ≤ a && a ≤ 0xdf then
    match rest with
    | b :: _ =>
      if isContinuation b then (Char.ofNat (a.toNat % 32 * 64 + low b),1) else ('\uFFFD',0)
    | [] => ('\uFFFD',0)
  else if 0xe0 ≤ a && a ≤ 0xef then
    match rest with
    | b :: rest =>
      if isContinuation b && (a != 0xe0 || 0xa0 ≤ b) && (a != 0xed || b ≤ 0x9f) then
        match rest with
        | c :: _ =>
          if isContinuation c then (Char.ofNat ((a.toNat % 16 * 64 + low b) * 64 + low c),2)
          else ('\uFFFD',1)
        | [] => ('\uFFFD',1)
      else ('\uFFFD',0)
    | [] => ('\uFFFD',0)
  else if 0xf0 ≤ a && a ≤ 0xf4 then
    match rest with
    | b :: rest =>
      if isContinuation b && (a != 0xf0 || 0x90 ≤ b) && (a != 0xf4 || b ≤ 0x8f) then
        match rest with
        | c :: rest =>
          if isContinuation c then
            match rest with
            | d :: _ =>
              if isContinuation d then
                (Char.ofNat (((a.toNat % 8 * 64 + low b) * 64 + low c) * 64 + low d),3)
              else ('\uFFFD',2)
            | [] => ('\uFFFD',2)
          else ('\uFFFD',1)
        | [] => ('\uFFFD',1)
      else ('\uFFFD',0)
    | [] => ('\uFFFD',0)
  else ('\uFFFD',0)

/-- Bytes as text, after so many of them that were read already. -/
def utf8Lossy : Nat → Bytes → Text
  | _,[] => []
  | n + 1,_ :: rest => utf8Lossy n rest
  | 0,a :: rest => (utf8Next a rest).1 :: utf8Lossy (utf8Next a rest).2 rest

/-- `String::from_utf8_lossy`. -/
def fromUtf8Lossy (bs : Bytes) : Text := (utf8Text bs).getD (utf8Lossy 0 bs)

end Flagship.Lib

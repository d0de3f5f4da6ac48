import Flagship.Ingress.Chunked

namespace Flagship.Ingress
open Lib ChunkedDecoder

section
variable {size : Bytes → Option Nat} {d : ChunkedDecoder} {line text bs : Bytes} {left : Nat}
  {state : ChunkState}

/-- The decoder as it takes one byte after another. -/
def byteReader (size : Bytes → Option Nat) : Reader ChunkedDecoder UInt8 UInt8 ChunkError where
  atEnd d := d.done
  step d b := if d.state = .data then .ok ([b],d.takeData 1)
    else (takeByte size d b).map fun d => ([],d)

/-- Where data is due, it is not nothing. -/
def Due (d : ChunkedDecoder) : Prop := d.state = .data → 0 < d.left

theorem due_takeData (n : Nat) : Due (d.takeData n) := by
  intro h
  simp only [takeData] at h ⊢
  split at h
  · cases h
  · omega

theorem due_takeByte {b : UInt8} {d' : ChunkedDecoder} (hdata : d.state ≠ .data)
    (h : takeByte size d b = .ok d') : Due d' := by
  simp only [takeByte] at h
  split at h
  · cases h
  split at h
  · cases h
    exact fun hstate => absurd hstate hdata
  simp only [takeLine] at h
  cases hstate : d.state with
  | size =>
    simp only [hstate] at h
    split at h
    · cases h
    next n _ =>
      cases h
      intro hn
      simp only at hn ⊢
      split at hn
      · cases hn
      · omega
  | data => exact absurd hstate hdata
  | dataCrlf =>
    simp only [hstate] at h
    split at h
    · cases h
    · cases h
      exact fun hn => by cases hn
  | trailers =>
    simp only [hstate] at h
    cases h
    intro hn
    simp only at hn
    split at hn <;> cases hn
  | done =>
    simp only [hstate] at h
    cases h
    exact fun hn => by cases hn

theorem due_step (d : ChunkedDecoder) (b : UInt8) (out : Bytes) (d' : ChunkedDecoder) (_ : Due d)
    (_ : (byteReader size).atEnd d = false) (h : (byteReader size).step d b = .ok (out,d')) :
    Due d' := by
  simp only [byteReader] at h
  split at h
  · cases h
    exact due_takeData 1
  next hdata =>
    rcases hbyte : takeByte size d b with e | d''
    · simp [hbyte,Except.map] at h
    · simp only [hbyte,Except.map,Except.ok.injEq,Prod.mk.injEq] at h
      obtain ⟨_,rfl⟩ := h
      exact due_takeByte hdata hbyte

/-- Data is passed on as it comes. -/
theorem read_data (hstate : d.state = .data) (hdue : Due d) (hle : bs.length ≤ d.left) :
    (byteReader size).read d bs = (bs,.ok (bs.length,d.takeData bs.length)) := by
  induction bs generalizing d with
  | nil =>
    have hpos := hdue hstate
    have heq : d.takeData 0 = d := by
      rw [takeData,Nat.sub_zero,if_neg (by omega),← hstate]
    rw [List.length_nil,heq]
    rfl
  | cons b bs ih =>
    have hend : (byteReader size).atEnd d = false := by simp [byteReader,ChunkedDecoder.done,hstate]
    have hstep : (byteReader size).step d b = .ok ([b],d.takeData 1) := by
      simp [byteReader,hstate]
    rw [Reader.read_cons hend hstep]
    have hleft : (d.takeData 1).left = d.left - 1 := rfl
    rw [List.length_cons] at hle
    by_cases hnil : bs = []
    · subst hnil
      simp [Fed.next,Fed.stay,Except.map]
    · have hlen := List.length_pos_of_ne_nil hnil
      have hdata : (d.takeData 1).state = .data := by
        rw [takeData,if_neg (by omega)]
      simp only [Fed.next]
      rw [ih hdata (due_takeData 1) (by omega)]
      simp only [Except.map,List.length_cons,Prod.mk.injEq,Except.ok.injEq,
        List.cons_append,List.nil_append,true_and]
      refine ⟨by omega,?_⟩
      simp only [takeData,Nat.sub_sub]
      rw [Nat.add_comm 1]

/-- A push takes its bytes one after another. -/
theorem push_eq_read (d : ChunkedDecoder) (input : Bytes) (hdue : Due d) :
    pushWith size d input = (byteReader size).read d input := by
  fun_induction pushWith size d input with
  | case1 d => rfl
  | case2 d c rest hdone =>
    rw [Reader.read_atEnd (by simp [byteReader,ChunkedDecoder.done,hdone])]
  | case3 d c rest hdone hdata n ih =>
    have hlen : ((c :: rest).take n).length = n := by
      rw [List.length_take]
      omega
    have hread := @read_data size d ((c :: rest).take n) hdata hdue (by omega)
    conv => rhs; rw [← List.take_append_drop n (c :: rest)]
    rw [Reader.read_append,hread,hlen]
    simp only [Fed.next]
    rw [ih (due_takeData n)]
  | case4 d c rest hdone hdata e he =>
    have hend : (byteReader size).atEnd d = false := by simp [byteReader,ChunkedDecoder.done,hdone]
    have hstep : (byteReader size).step d c = .error e := by simp [byteReader,hdata,he,Except.map]
    rw [Reader.read_error hend hstep]
  | case5 d c rest hdone hdata d' hd' ih =>
    have hend : (byteReader size).atEnd d = false := by simp [byteReader,ChunkedDecoder.done,hdone]
    have hstep : (byteReader size).step d c = .ok ([],d') := by
      simp [byteReader,hdata,hd',Except.map]
    rw [Reader.read_cons hend hstep]
    simp only [Fed.next]
    rw [ih (due_takeByte hdata hd')]

theorem feed_push (pieces : List Bytes) (hdue : Due d) :
    feed (pushWith size) d pieces = (byteReader size).read d pieces.flatten :=
  feed_eq_read push_eq_read due_step pieces hdue

theorem due_new : Due new := fun h => by cases h

theorem not_end_of_no_crlf (h : ¬ crlf <:+: line ++ bs) (hsub : text <+: line ++ bs) :
    crlf.isSuffixOf text = false := by
  rw [← Bool.not_eq_true,List.isSuffixOf_iff_suffix]
  exact fun hsuffix => h (hsuffix.isInfix.trans hsub.isInfix)

/-- In these states the decoder reads lines. -/
def ChunkState.reads : ChunkState → Bool
  | .size => true
  | .dataCrlf => true
  | .trailers => true
  | _ => false

/-- A byte that ends no line is kept. -/
theorem step_keeps {b : UInt8} (hreads : state.reads = true)
    (hlen : line.length + 1 ≤ chunkLineMax) (hno : crlf.isSuffixOf (line ++ [b]) = false) :
    (byteReader size).atEnd ⟨state,line,left⟩ = false ∧
    (byteReader size).step ⟨state,line,left⟩ b = .ok ([],⟨state,line ++ [b],left⟩) := by
  have hdata : state ≠ .data := by
    rintro rfl
    cases hreads
  have hdone : state ≠ .done := by
    rintro rfl
    cases hreads
  have hshort : ¬ chunkLineMax < (line ++ [b]).length := by
    rw [List.length_append]
    exact Nat.not_lt.mpr hlen
  refine ⟨by simp [byteReader,ChunkedDecoder.done,hdone],?_⟩
  simp only [byteReader,if_neg hdata,takeByte,if_neg hshort,hno,Bool.not_false,if_true,Except.map]

/-- Part of a line is kept. -/
theorem read_part (hreads : state.reads = true) (hno : ¬ crlf <:+: line ++ bs)
    (hlen : line.length + bs.length ≤ chunkLineMax) :
    (byteReader size).read ⟨state,line,left⟩ bs =
      ([],.ok (bs.length,⟨state,line ++ bs,left⟩)) := by
  induction bs generalizing line with
  | nil => simp [Fed.stay]
  | cons b bs ih =>
    rw [List.length_cons] at hlen
    have hsub : line ++ [b] <+: line ++ b :: bs := ⟨bs,by simp⟩
    obtain ⟨hend,hstep⟩ := @step_keeps size line left state b hreads (by omega)
      (not_end_of_no_crlf hno hsub)
    rw [Reader.read_cons hend hstep]
    simp only [Fed.next]
    rw [ih (by simpa using hno) (by simp only [List.length_append,List.length_singleton]; omega)]
    simp only [Except.map,List.length_cons,List.append_assoc,List.singleton_append]
    rw [Nat.add_comm 1]
    rfl

/-- A line that is there in full is taken. -/
theorem read_line (hreads : state.reads = true) (hline : IsLine text) :
    (byteReader size).read ⟨state,[],left⟩ (text ++ crlf) =
      match takeLine size ⟨state,text ++ [13],left⟩ text with
      | .error e => ([],.error e)
      | .ok d => ([],.ok (text.length + 2,d)) := by
  have hno : ¬ crlf <:+: [] ++ (text ++ [13]) := by
    rw [List.nil_append,List.infix_concat_iff]
    rintro (hsuffix | hinfix)
    · obtain ⟨t,ht⟩ := hsuffix
      have hlast := congrArg List.getLast? ht
      simp [crlf] at hlast
    · exact hline.1 hinfix
  have hpart := @read_part size [] (text ++ [13]) left state hreads hno
    (by have := hline.2; simp only [List.length_append,List.length_singleton,List.length_nil]; omega)
  have hsplit : text ++ crlf = (text ++ [13]) ++ [10] := by simp [crlf]
  rw [hsplit,Reader.read_append,hpart]
  have hdata : state ≠ .data := by
    rintro rfl
    cases hreads
  have hdone : state ≠ .done := by
    rintro rfl
    cases hreads
  have hfull : takeByte size ⟨state,text ++ [13],left⟩ 10 =
      takeLine size ⟨state,text ++ [13],left⟩ text := by
    have hlen := hline.2
    have hsuffix : crlf.isSuffixOf (text ++ [13] ++ [10]) = true := by
      rw [List.isSuffixOf_iff_suffix]
      exact ⟨text,by simp [crlf]⟩
    have hshort : ¬ chunkLineMax < (text ++ [13] ++ [10]).length := by
      simp only [List.length_append,List.length_singleton]
      omega
    have htext : (text ++ [13] ++ [10]).take ((text ++ [13] ++ [10]).length - 2) = text := by
      simp
    simp only [takeByte]
    rw [if_neg hshort,hsuffix,htext]
    rfl
  have hend : (byteReader size).atEnd ⟨state,text ++ [13],left⟩ = false := by
    simp [byteReader,ChunkedDecoder.done,hdone]
  rcases htake : takeLine size ⟨state,text ++ [13],left⟩ text with e | d'
  · have hstep : (byteReader size).step ⟨state,text ++ [13],left⟩ 10 = .error e := by
      simp [byteReader,hdata,hfull,htake,Except.map]
    simp only [List.nil_append,Fed.next]
    rw [Reader.read_error hend hstep]
    rfl
  · have hstep : (byteReader size).step ⟨state,text ++ [13],left⟩ 10 = .ok ([],d') := by
      simp [byteReader,hdata,hfull,htake,Except.map]
    simp only [List.nil_append,Fed.next]
    rw [Reader.read_cons hend hstep]
    simp [Fed.next,Fed.stay,Except.map]

end

theorem length_crlf : crlf.length = 2 := rfl

section
variable {size : Bytes → Option Nat} {n : Nat}

/-- The size line of a chunk. -/
theorem read_sizeLine (l : SizeLine n) (hsize : size l.text = some n) :
    (byteReader size).read new (l.text ++ crlf) =
      ([],.ok (l.text.length + 2,⟨if n = 0 then .trailers else .data,[],n⟩)) := by
  have hline : IsLine l.text := l.isLine
  rw [new,read_line rfl hline]
  simp only [takeLine,hsize]

/-- A whole chunk gives its data, and the decoder is where it was. -/
theorem read_chunk (c : Chunk) (hsize : size c.line.text = some c.data.length) :
    (byteReader size).read new c.encode = (c.data,.ok (c.encode.length,new)) := by
  have hpos := List.length_pos_of_ne_nil c.nonempty
  have hdata := @read_data size ⟨.data,[],c.data.length⟩ c.data rfl (fun _ => hpos) (Nat.le_refl _)
  have hend : takeData ⟨.data,[],c.data.length⟩ c.data.length = ⟨.dataCrlf,[],0⟩ := by
    simp [takeData]
  have hcrlf := @read_line size [] 0 .dataCrlf rfl ⟨by simp [crlf],by simp [chunkLineMax]⟩
  rw [Chunk.encode,List.append_assoc,Reader.read_append,read_sizeLine c.line hsize,
    if_neg (by omega)]
  simp only [Fed.next]
  rw [Reader.read_append,hdata,hend]
  simp only [Fed.next]
  rw [List.nil_append] at hcrlf
  rw [hcrlf]
  simp only [takeLine,Except.map,new,List.length_append,length_crlf,List.length_nil,List.append_nil,
    List.nil_append,ne_eq,not_true_eq_false,if_false,Nat.add_assoc,Nat.zero_add]

theorem read_chunks (chunks : List Chunk)
    (hsize : ∀ c ∈ chunks,size c.line.text = some c.data.length) :
    (byteReader size).read new (chunks.flatMap Chunk.encode) =
      (chunks.flatMap Chunk.data,.ok ((chunks.flatMap Chunk.encode).length,new)) := by
  induction chunks with
  | nil => rfl
  | cons c chunks ih =>
    rw [List.flatMap_cons,Reader.read_append,read_chunk c (hsize c List.mem_cons_self)]
    simp only [Fed.next]
    rw [ih fun c hc => hsize c (List.mem_cons_of_mem _ hc)]
    simp [Except.map]

theorem read_trailers (trailers : List Bytes) (h : ∀ t ∈ trailers,t ≠ [] ∧ IsLine t) :
    (byteReader size).read ⟨.trailers,[],0⟩ (trailers.flatMap (· ++ crlf)) =
      ([],.ok ((trailers.flatMap (· ++ crlf)).length,⟨.trailers,[],0⟩)) := by
  induction trailers with
  | nil => rfl
  | cons t trailers ih =>
    obtain ⟨hne,hline⟩ := h t List.mem_cons_self
    rw [List.flatMap_cons,Reader.read_append,read_line rfl hline]
    simp only [takeLine,if_neg hne,Fed.next]
    rw [ih fun t ht => h t (List.mem_cons_of_mem _ ht)]
    simp only [Except.map,List.length_append,length_crlf,List.append_nil]

/-- The whole body is decoded, and the decoder is done at its end. -/
theorem read_body (b : ChunkedBody) (hlast : size b.last.text = some 0)
    (hsize : ∀ c ∈ b.chunks,size c.line.text = some c.data.length) :
    (byteReader size).read new b.encode = (b.data,.ok (b.encode.length,⟨.done,[],0⟩)) := by
  have hcrlf := @read_line size [] 0 .trailers rfl ⟨by simp [crlf],by simp [chunkLineMax]⟩
  rw [List.nil_append] at hcrlf
  simp only [ChunkedBody.encode,List.append_assoc]
  rw [Reader.read_append,read_chunks b.chunks hsize]
  simp only [Fed.next]
  rw [← List.append_assoc,Reader.read_append,read_sizeLine b.last hlast]
  simp only [Fed.next,if_true]
  rw [Reader.read_append,read_trailers b.trailers b.trailer]
  simp only [Fed.next]
  rw [hcrlf]
  simp only [takeLine,Except.map,ChunkedBody.data,List.length_append,length_crlf,List.length_nil,
    List.append_nil,if_true,Nat.add_assoc,Nat.zero_add]

end

section
variable {n : Nat} {text : Bytes}

theorem not_semicolon {b : UInt8} (h : isAsciiHexdigit b = true) : (b != 0x3b) = true := by
  rw [bne_iff_ne]
  rintro rfl
  revert h
  decide

/-- The digits of a size line end where the extension starts. -/
theorem takeWhile_text {p : UInt8 → Bool} (l : SizeLine n)
    (hdigits : ∀ b,isAsciiHexdigit b = true → p b = true) (hsemicolon : p 0x3b = false) :
    l.text.takeWhile p = l.digits := by
  have hall : ∀ b ∈ l.digits,p b = true :=
    fun b hb => hdigits b (List.all_eq_true.mp l.hex b hb)
  rw [SizeLine.text,List.takeWhile_append_of_pos hall]
  rcases l.ext_shape with hext | ⟨rest,hext⟩
  · simp [hext]
  · simp [hext,hsemicolon]

theorem chunkSize_text (l : SizeLine n) : chunkSize l.text = some n := by
  have hfew : ¬ 12 < l.digits.length := by
    have := l.few_digits
    omega
  simp only [chunkSize,takeWhile_text l (fun _ => not_semicolon) rfl,l.hex,l.value]
  simp [l.some_digit,hfew]

/-- A line that is accepted is a size line. -/
theorem sizeLine_of_chunkSize (hline : IsLine text) (h : chunkSize text = some n) :
    ∃ l : SizeLine n,l.text = text := by
  simp only [chunkSize] at h
  split at h
  · cases h
  next hok =>
    simp only [Bool.or_eq_true,List.isEmpty_iff,decide_eq_true_eq,Bool.not_eq_true',not_or,
      Bool.not_eq_false] at hok
    have happend : text.takeWhile (· != 0x3b) ++ text.dropWhile (· != 0x3b) = text :=
      List.takeWhile_append_dropWhile
    refine ⟨⟨text.takeWhile (· != 0x3b),text.dropWhile (· != 0x3b),hok.1.1,by omega,hok.2,
      Option.some.inj h,?_,happend.symm ▸ hline⟩,happend⟩
    rcases hrest : text.dropWhile (· != 0x3b) with _ | ⟨b,rest⟩
    · exact Or.inl rfl
    · have hb := List.head?_dropWhile_not (· != 0x3b) text
      rw [hrest] at hb
      simp only [List.head?_cons,bne_eq_false_iff_eq] at hb
      exact Or.inr ⟨rest,by rw [hb]⟩

theorem tsChunkSize_text (l : SizeLine n) :
    tsChunkSize l.text =
      if l.ext.all fun b => b == 0x3b || dot b then some n else none := by
  have hdrop : l.text.drop l.digits.length = l.ext := by simp [SizeLine.text]
  simp only [tsChunkSize,takeWhile_text l (fun _ h => h) (by decide),
    List.take_of_length_le l.few_digits,hdrop,l.value]
  rw [if_neg (by simpa using l.some_digit)]
  rcases l.ext_shape with hext | ⟨rest,hext⟩
  · simp [hext]
  · have hdot : (rest.all fun b => b == 0x3b || dot b) = rest.all dot := by
      congr 1
      funext b
      by_cases hb : b = 0x3b
      · subst hb
        decide
      · simp [hb]
    simp only [hext,List.all_cons,hdot]
    simp

/-- The daemon accepts no size line that the proxy does not. -/
theorem chunkSize_of_ts (h : tsChunkSize text = some n) : chunkSize text = some n := by
  simp only [tsChunkSize] at h
  split at h
  · cases h
  next hdigits =>
    generalize hd : (text.takeWhile isAsciiHexdigit).take 12 = digits at h hdigits
    have hall : ∀ b ∈ digits,isAsciiHexdigit b = true := by
      rw [← hd]
      intro b hb
      exact List.all_eq_true.mp List.all_takeWhile b (List.mem_of_mem_take hb)
    have hpre : digits <+: text := by
      rw [← hd]
      exact (List.take_prefix _ _).trans (List.takeWhile_prefix _)
    have hlen : digits.length ≤ 12 := by
      rw [← hd]
      exact List.length_take_le _ _
    have htext : text = digits ++ text.drop digits.length := (List.prefix_iff_eq_append.mp hpre).symm
    have hwhile : (digits ++ text.drop digits.length).takeWhile (· != 0x3b) = digits ∧
        some (fromHex digits) = some n := by
      rw [List.takeWhile_append_of_pos fun b hb => not_semicolon (hall b hb)]
      split at h
      next hrest => simpa [hrest] using h
      next c rest hrest =>
        split at h
        next hc =>
          rw [Bool.and_eq_true,decide_eq_true_eq] at hc
          simpa [hrest,hc.1] using h
        next => cases h
    rw [htext,chunkSize,hwhile.1,← hwhile.2,if_neg]
    simp only [Bool.or_eq_true,decide_eq_true_eq,Bool.not_eq_true',not_or,Bool.not_eq_false]
    exact ⟨⟨hdigits,by omega⟩,List.all_eq_true.mpr hall⟩

/-- Two texts up to their first line break are one. -/
theorem line_unique {a b x y : Bytes} (h : a ++ crlf ++ x = b ++ crlf ++ y) (ha : ¬ crlf <:+: a)
    (hb : ¬ crlf <:+: b) : a = b ∧ x = y := by
  have key : ∀ {a b x y : Bytes},a ++ crlf ++ x = b ++ crlf ++ y → ¬ crlf <:+: b →
      b.length ≤ a.length := by
    intro a b x y h hb
    by_contra hlt
    have hle : (a ++ crlf).length ≤ (b ++ [13]).length := by
      simp only [List.length_append,length_crlf,List.length_singleton]
      omega
    have hpre : a ++ crlf <+: b ++ [13] := by
      have hleft : a ++ crlf <+: a ++ crlf ++ x := ⟨x,rfl⟩
      refine List.prefix_of_prefix_length_le hleft ⟨10 :: y,?_⟩ hle
      rw [h]
      simp [crlf]
    have hin : crlf <:+: b ++ [13] := (List.suffix_append a crlf).isInfix.trans hpre.isInfix
    rcases List.infix_concat_iff.mp hin with hsuffix | hinfix
    · obtain ⟨t,ht⟩ := hsuffix
      have hlast := congrArg List.getLast? ht
      simp [crlf] at hlast
    · exact hb hinfix
  have hlen := Nat.le_antisymm (key h.symm ha) (key h hb)
  rw [List.append_assoc,List.append_assoc] at h
  obtain ⟨rfl,hrest⟩ := List.append_inj h hlen
  exact ⟨rfl,List.append_cancel_left hrest⟩

theorem ext_of_text {m : Nat} {l : SizeLine n} {k : SizeLine m} (h : l.text = k.text) :
    l.ext = k.ext ∧ n = m := by
  have hdigits : l.digits = k.digits := by
    rw [← takeWhile_text l (fun _ => not_semicolon) rfl,h,
      takeWhile_text k (fun _ => not_semicolon) rfl]
  refine ⟨?_,by rw [← l.value,← k.value,hdigits]⟩
  rw [SizeLine.text,SizeLine.text,hdigits] at h
  exact List.append_cancel_left h

/-- The extensions of a body are that of its first chunk and those of the rest. -/
theorem extensionIn_iff (l : SizeLine n) (rest ext : Bytes) :
    ExtensionIn (l.text ++ crlf ++ rest) ext ↔ ext = l.ext ∨ ∃ data rest',data ≠ [] ∧
      data.length = n ∧ rest = data ++ crlf ++ rest' ∧ ExtensionIn rest' ext := by
  constructor
  · intro h
    generalize hb : l.text ++ crlf ++ rest = body at h
    cases h with
    | here k rest' =>
      obtain ⟨htext,_⟩ := line_unique hb l.isLine.1 k.isLine.1
      exact Or.inl (ext_of_text htext).1.symm
    | @later c rest' _ h =>
      have heq : l.text ++ crlf ++ rest = c.line.text ++ crlf ++ (c.data ++ crlf ++ rest') := by
        rw [hb,Chunk.encode]
        simp only [List.append_assoc]
      obtain ⟨htext,hrest⟩ := line_unique heq l.isLine.1 c.line.isLine.1
      exact Or.inr ⟨c.data,rest',c.nonempty,(ext_of_text htext).2.symm,hrest,h⟩
  · intro h
    rcases h with rfl | ⟨data,rest',hne,rfl,rfl,h⟩
    · exact .here l rest
    · have hlater := ExtensionIn.later ⟨data,hne,l⟩ h
      simpa only [Chunk.encode,List.append_assoc] using hlater

theorem line_of_extensionIn {body ext : Bytes} (h : ExtensionIn body ext) :
    ∃ n,∃ l : SizeLine n,∃ rest,body = l.text ++ crlf ++ rest := by
  cases h with
  | here l rest => exact ⟨_,l,rest,rfl⟩
  | @later c rest _ h =>
    exact ⟨_,c.line,c.data ++ crlf ++ rest,by simp only [Chunk.encode,List.append_assoc]⟩

end

section
variable {f g : Bytes → Option Nat} {d : ChunkedDecoder} {line bs : Bytes} {left n : Nat}
  {state : ChunkState}

/-- As long as no line is there in full, it does not matter how a size line is read. -/
theorem read_same_of_no_line (hreads : state.reads = true) (hline : ¬ crlf <:+: line)
    (hno : ∀ text rest,line ++ bs = text ++ crlf ++ rest → ¬ IsLine text) :
    (byteReader f).read ⟨state,line,left⟩ bs = (byteReader g).read ⟨state,line,left⟩ bs := by
  induction bs generalizing line with
  | nil => rfl
  | cons b bs ih =>
    have hdata : state ≠ .data := by
      rintro rfl
      cases hreads
    have hdone : state ≠ .done := by
      rintro rfl
      cases hreads
    have hend : ∀ f,(byteReader f).atEnd ⟨state,line,left⟩ = false := by
      simp [byteReader,ChunkedDecoder.done,hdone]
    by_cases hlong : chunkLineMax < (line ++ [b]).length
    · have hstep : ∀ f,(byteReader f).step ⟨state,line,left⟩ b = .error .lineTooLong := by
        intro f
        simp only [byteReader,if_neg hdata,takeByte,if_pos hlong]
        rfl
      rw [Reader.read_error (hend f) (hstep f),Reader.read_error (hend g) (hstep g)]
    · by_cases hsuffix : crlf <:+ line ++ [b]
      · -- the line would be there in full
        obtain ⟨text,htext⟩ := hsuffix
        have hpre : text <+: line := by
          have hleft : text <+: line ++ [b] := ⟨crlf,htext⟩
          refine List.prefix_of_prefix_length_le hleft ⟨[b],rfl⟩ ?_
          have hlen := congrArg List.length htext
          simp only [List.length_append,length_crlf,List.length_singleton] at hlen
          omega
        have hshort : text.length + 2 ≤ chunkLineMax := by
          have hlen := congrArg List.length htext
          rw [List.length_append,length_crlf] at hlen
          omega
        refine absurd ⟨fun hin => hline (hin.trans hpre.isInfix),hshort⟩ (hno text bs ?_)
        rw [htext]
        simp
      · have hstep : ∀ f,(byteReader f).step ⟨state,line,left⟩ b =
            .ok ([],⟨state,line ++ [b],left⟩) := by
          intro f
          have hnot : crlf.isSuffixOf (line ++ [b]) = false := by
            rw [← Bool.not_eq_true,List.isSuffixOf_iff_suffix]
            exact hsuffix
          have hlen : line.length + 1 ≤ chunkLineMax := by
            rw [List.length_append,List.length_singleton] at hlong
            omega
          exact (step_keeps hreads hlen hnot).2
        rw [Reader.read_cons (hend f) (hstep f),Reader.read_cons (hend g) (hstep g)]
        simp only [Fed.next]
        rw [ih]
        · intro hin
          rcases List.infix_concat_iff.mp hin with h | h
          · exact hsuffix h
          · exact hline h
        · intro text rest heq
          exact hno text rest (by simpa using heq)

/-- Past the last chunk. -/
def Trailing (d : ChunkedDecoder) : Prop := d.state = .trailers ∨ d.state = .done

theorem takeByte_trailing {b : UInt8} (h : Trailing d) :
    takeByte f d b = takeByte g d b ∧ takeByte f d b ≠ .error .badSize ∧
      ∀ d',takeByte f d b = .ok d' → Trailing d' := by
  rcases h with h | h
  all_goals
    simp only [takeByte,takeLine,h]
    refine ⟨trivial,?_,?_⟩
    · split
      · simp
      split <;> simp
    · intro d' hd'
      split at hd'
      · cases hd'
      split at hd'
      · cases hd'
        simp [Trailing]
      · cases hd'
        simp only [Trailing]
        try split
        all_goals simp

/-- The trailers are read alike, and no size is found bad in them. -/
theorem read_trailing (h : Trailing d) : (byteReader f).read d bs = (byteReader g).read d bs ∧
    ((byteReader f).read d bs).2 ≠ .error .badSize := by
  induction bs generalizing d with
  | nil => exact ⟨rfl,by simp [Fed.stay]⟩
  | cons b bs ih =>
    cases hdone : d.done with
    | true =>
      rw [Reader.read_atEnd (by simpa [byteReader] using hdone),
        Reader.read_atEnd (by simpa [byteReader] using hdone)]
      exact ⟨rfl,by simp [Fed.stay]⟩
    | false =>
      have hdata : d.state ≠ .data := by
        rcases h with h | h <;> simp [h]
      have hend : ∀ f,(byteReader f).atEnd d = false := fun f => hdone
      obtain ⟨hsame,hbad,hnext⟩ := takeByte_trailing (f := f) (g := g) (b := b) h
      rcases hbyte : takeByte f d b with e | d'
      · have hstep : ∀ k,takeByte k d b = .error e → (byteReader k).step d b = .error e := by
          intro k hk
          simp only [byteReader,if_neg hdata,hk]
          rfl
        rw [Reader.read_error (hend f) (hstep f hbyte),
          Reader.read_error (hend g) (hstep g (hsame ▸ hbyte))]
        refine ⟨rfl,fun he => hbad ?_⟩
        rw [hbyte]
        exact congrArg Except.error (Except.error.inj he)
      · have hstep : ∀ k,takeByte k d b = .ok d' → (byteReader k).step d b = .ok ([],d') := by
          intro k hk
          simp only [byteReader,if_neg hdata,hk]
          rfl
        rw [Reader.read_cons (hend f) (hstep f hbyte),
          Reader.read_cons (hend g) (hstep g (hsame ▸ hbyte))]
        obtain ⟨heq,hne⟩ := ih (hnext d' hbyte)
        simp only [Fed.next]
        refine ⟨by rw [heq],?_⟩
        rcases hres : ((byteReader f).read d' bs).2 with e | used
        · rw [hres] at hne
          exact hne
        · simp [Except.map]

end

theorem outcome_next (out : Bytes) (k : Nat) (d : ChunkedDecoder)
    (f : ChunkedDecoder → Fed ChunkedDecoder UInt8 ChunkError) :
    outcome (Fed.next (out,.ok (k,d)) f) = (out ++ (outcome (f d)).1,(outcome (f d)).2) := by
  simp only [outcome,Fed.next]
  cases (f d).2 <;> rfl

theorem clean_iff {ext : Bytes} :
    (ext.all fun b => b == 0x3b || dot b) = true ↔ (10 : UInt8) ∉ ext ∧ (13 : UInt8) ∉ ext := by
  rw [List.all_eq_true]
  constructor
  · intro h
    refine ⟨fun hmem => absurd (h _ hmem) (by decide),fun hmem => absurd (h _ hmem) (by decide)⟩
  · intro h b hb
    have h10 : b ≠ 10 := fun he => h.1 (he ▸ hb)
    have h13 : b ≠ 13 := fun he => h.2 (he ▸ hb)
    simp [dot,h10,h13]

section
variable {n : Nat}

/-- The size line of a chunk with a clean extension is read alike. -/
theorem read_sizeLine_ts (l : SizeLine n) (hclean : (10 : UInt8) ∉ l.ext ∧ (13 : UInt8) ∉ l.ext) :
    (byteReader tsChunkSize).read new (l.text ++ crlf) =
      ([],.ok (l.text.length + 2,⟨if n = 0 then .trailers else .data,[],n⟩)) := by
  refine read_sizeLine l ?_
  rw [tsChunkSize_text,if_pos (clean_iff.mpr hclean)]

/-- One that is not clean is refused by the daemon alone. -/
theorem refused_ts (l : SizeLine n) (rest : Bytes)
    (hdirty : ¬ ((10 : UInt8) ∉ l.ext ∧ (13 : UInt8) ∉ l.ext)) :
    outcome ((byteReader tsChunkSize).read new (l.text ++ crlf ++ rest)) ≠
      outcome ((byteReader chunkSize).read new (l.text ++ crlf ++ rest)) := by
  have hline : IsLine l.text := l.isLine
  have hts : (byteReader tsChunkSize).read new (l.text ++ crlf) = ([],.error .badSize) := by
    rw [new,read_line rfl hline]
    simp only [takeLine,tsChunkSize_text,if_neg (mt clean_iff.mp hdirty)]
  rw [Reader.read_append (l.text ++ crlf),Reader.read_append (l.text ++ crlf),hts,
    read_sizeLine l (chunkSize_text l),outcome_next]
  simp only [outcome,Fed.next,Except.map,List.nil_append]
  intro h
  obtain ⟨hout,herr⟩ := Prod.mk.inj h
  by_cases hn : n = 0
  · rw [if_pos hn] at herr
    have hnot := (@read_trailing chunkSize chunkSize ⟨.trailers,[],n⟩ rest (Or.inl rfl)).2
    rcases hres : ((byteReader chunkSize).read ⟨.trailers,[],n⟩ rest).2 with e | used
    · rw [hres] at herr hnot
      exact hnot (congrArg Except.error (Except.error.inj herr).symm)
    · rw [hres] at herr
      cases herr
  · rw [if_neg hn] at herr hout
    cases rest with
    | nil => cases herr
    | cons b rest =>
      have hend : (byteReader chunkSize).atEnd ⟨.data,[],n⟩ = false := rfl
      have hstep : (byteReader chunkSize).step ⟨.data,[],n⟩ b =
        .ok ([b],takeData ⟨.data,[],n⟩ 1) := rfl
      rw [Reader.read_cons hend hstep] at hout
      simp [Fed.next] at hout

/-- After the data of a chunk: the daemon and the proxy agree if they do on the chunks to
come. -/
theorem agree_after_data (rest : Bytes)
    (ih : ∀ rest',rest = crlf ++ rest' →
      (outcome ((byteReader tsChunkSize).read new rest') =
        outcome ((byteReader chunkSize).read new rest') ↔ CleanExtensions rest')) :
    outcome ((byteReader tsChunkSize).read ⟨.dataCrlf,[],0⟩ rest) =
        outcome ((byteReader chunkSize).read ⟨.dataCrlf,[],0⟩ rest) ↔
      ∀ rest',rest = crlf ++ rest' → CleanExtensions rest' := by
  by_cases hline : ∃ text rest',rest = text ++ crlf ++ rest' ∧ IsLine text
  · obtain ⟨text,rest',rfl,hline⟩ := hline
    have hreads : ChunkState.reads .dataCrlf = true := rfl
    rw [Reader.read_append (text ++ crlf),Reader.read_append (text ++ crlf),
      read_line hreads hline,read_line hreads hline]
    simp only [takeLine]
    by_cases hnil : text = []
    · subst hnil
      rw [if_neg (by simp)]
      simp only [outcome_next,List.nil_append]
      have hrest := ih rest' rfl
      rw [new] at hrest
      refine ⟨fun h rest'' heq => ?_,fun h => ?_⟩
      · rw [← List.append_cancel_left heq]
        exact hrest.mp (Prod.ext (Prod.mk.inj h).1 (Prod.mk.inj h).2)
      · have heq := hrest.mpr (h rest' rfl)
        rw [heq]
    · rw [if_pos hnil]
      refine ⟨fun _ rest'' heq => ?_,fun _ => rfl⟩
      have hempty : ([] : Bytes) ++ crlf ++ rest'' = text ++ crlf ++ rest' := heq.symm
      exact absurd (line_unique hempty (by simp [crlf]) hline.1).1.symm hnil
  · rw [read_same_of_no_line rfl (by simp [crlf]) fun text rest' heq hl =>
      hline ⟨text,rest',by simpa using heq,hl⟩]
    refine ⟨fun _ rest'' heq => ?_,fun _ => rfl⟩
    exact absurd ⟨[],rest'',heq,by simp [crlf],by simp [chunkLineMax]⟩ hline

/-- Of the chunk at the start: the size line, its data, and what is left. -/
theorem agree_from_line (l : SizeLine n) (rest : Bytes)
    (ih : ∀ data rest',data ≠ [] → data.length = n → rest = data ++ crlf ++ rest' →
      (outcome ((byteReader tsChunkSize).read new rest') =
        outcome ((byteReader chunkSize).read new rest') ↔ CleanExtensions rest')) :
    outcome ((byteReader tsChunkSize).read new (l.text ++ crlf ++ rest)) =
        outcome ((byteReader chunkSize).read new (l.text ++ crlf ++ rest)) ↔
      CleanExtensions (l.text ++ crlf ++ rest) := by
  have hall : CleanExtensions (l.text ++ crlf ++ rest) ↔
      ((10 : UInt8) ∉ l.ext ∧ (13 : UInt8) ∉ l.ext) ∧ ∀ data rest',data ≠ [] → data.length = n →
        rest = data ++ crlf ++ rest' → CleanExtensions rest' := by
    simp only [CleanExtensions,extensionIn_iff]
    constructor
    · intro h
      exact ⟨h _ (Or.inl rfl),fun data rest' hne hlen heq ext hext =>
        h ext (Or.inr ⟨data,rest',hne,hlen,heq,hext⟩)⟩
    · intro h ext hext
      rcases hext with rfl | ⟨data,rest',hne,hlen,heq,hext⟩
      · exact h.1
      · exact h.2 data rest' hne hlen heq ext hext
  rw [hall]
  by_cases hclean : (10 : UInt8) ∉ l.ext ∧ (13 : UInt8) ∉ l.ext
  swap
  · exact ⟨fun h => absurd h (refused_ts l rest hclean),fun h => absurd h.1 hclean⟩
  rw [Reader.read_append (l.text ++ crlf),Reader.read_append (l.text ++ crlf),
    read_sizeLine_ts l hclean,read_sizeLine l (chunkSize_text l),outcome_next,outcome_next]
  simp only [hclean,not_false_eq_true,and_self,true_and,List.nil_append,Prod.mk.eta]
  by_cases hn : n = 0
  · -- the last chunk
    rw [if_pos hn,(@read_trailing tsChunkSize chunkSize ⟨.trailers,[],n⟩ rest (Or.inl rfl)).1]
    refine ⟨fun _ data rest' hne hlen => ?_,fun _ => rfl⟩
    exact absurd (List.length_eq_zero_iff.mp (hlen.trans hn)) hne
  rw [if_neg hn]
  have hdue : Due ⟨.data,[],n⟩ := fun _ => Nat.pos_of_ne_zero hn
  by_cases hshort : rest.length < n
  · -- the data is not all there
    rw [read_data rfl hdue (Nat.le_of_lt hshort),read_data rfl hdue (Nat.le_of_lt hshort)]
    refine ⟨fun _ data rest' _ hlen heq => ?_,fun _ => rfl⟩
    rw [heq,List.length_append,List.length_append] at hshort
    omega
  have hlen : (rest.take n).length = n := by
    rw [List.length_take]
    omega
  have htake : ∀ f,(byteReader f).read ⟨.data,[],n⟩ rest =
      Fed.next (rest.take n,.ok (n,⟨.dataCrlf,[],0⟩)) fun d => (byteReader f).read d (rest.drop n) := by
    intro f
    have hread := @read_data f ⟨.data,[],n⟩ (rest.take n) rfl hdue (Nat.le_of_eq hlen)
    conv => lhs; rw [← List.take_append_drop n rest]
    rw [Reader.read_append,hread,hlen]
    simp [takeData]
  rw [htake,htake,outcome_next,outcome_next]
  have hdrop : ∀ rest',rest.drop n = crlf ++ rest' ↔ ∃ data,data ≠ [] ∧ data.length = n ∧
      rest = data ++ crlf ++ rest' := by
    intro rest'
    constructor
    · intro h
      refine ⟨rest.take n,?_,hlen,?_⟩
      · rw [← List.length_pos_iff_ne_nil,hlen]
        exact Nat.pos_of_ne_zero hn
      · rw [List.append_assoc,← h,List.take_append_drop]
    · rintro ⟨data,_,hdata,heq⟩
      rw [heq,List.append_assoc,← hdata,List.drop_left]
  have hafter := agree_after_data (rest.drop n) fun rest' h => by
    obtain ⟨data,hne,hdata,heq⟩ := (hdrop rest').mp h
    exact ih data rest' hne hdata heq
  constructor
  · intro h data rest' hne hdata heq
    refine hafter.mp (Prod.ext ?_ (Prod.mk.inj h).2) rest' ((hdrop rest').mpr ⟨data,hne,hdata,heq⟩)
    exact List.append_cancel_left (Prod.mk.inj h).1
  · intro h
    rw [hafter.mpr fun rest' hrest' => by
      obtain ⟨data,hne,hdata,heq⟩ := (hdrop rest').mp hrest'
      exact h data rest' hne hdata heq]

end

/-- The daemon and the proxy agree on exactly the bodies with clean extensions. -/
theorem agree_iff (input : Bytes) : outcome ((byteReader tsChunkSize).read new input) =
    outcome ((byteReader chunkSize).read new input) ↔ CleanExtensions input := by
  induction hlen : input.length using Nat.strong_induction_on generalizing input with
  | _ len ih =>
  subst hlen
  by_cases hline : ∃ text rest,input = text ++ crlf ++ rest ∧ IsLine text
  swap
  · rw [new,read_same_of_no_line rfl (by simp [crlf]) fun text rest heq hl =>
      hline ⟨text,rest,by simpa using heq,hl⟩]
    refine ⟨fun _ ext hext => ?_,fun _ => rfl⟩
    obtain ⟨n,l,rest,heq⟩ := line_of_extensionIn hext
    exact absurd ⟨l.text,rest,heq,l.isLine⟩ hline
  obtain ⟨text,rest,rfl,hline⟩ := hline
  rcases hsize : chunkSize text with _ | n
  · -- no size line for either
    have hts : tsChunkSize text = none := by
      rcases h : tsChunkSize text with _ | n
      · rfl
      · rw [chunkSize_of_ts h] at hsize
        cases hsize
    have hreads : ChunkState.reads .size = true := rfl
    rw [Reader.read_append (text ++ crlf),Reader.read_append (text ++ crlf),new,
      read_line hreads hline,read_line hreads hline]
    simp only [takeLine,hsize,hts]
    refine ⟨fun _ ext hext => ?_,fun _ => rfl⟩
    obtain ⟨n,l,rest',heq⟩ := line_of_extensionIn hext
    obtain ⟨rfl,_⟩ := line_unique heq hline.1 l.isLine.1
    rw [chunkSize_text] at hsize
    cases hsize
  · obtain ⟨l,rfl⟩ := sizeLine_of_chunkSize hline hsize
    refine agree_from_line l rest fun data rest' hne hdata heq => ih _ ?_ rest' rfl
    subst heq
    simp only [List.length_append,length_crlf]
    omega

theorem lowerHex_digits (n : Nat) :
    (lowerHex n).all isAsciiHexdigit = true ∧ fromHex (lowerHex n) = n := by
  have hdigit : ∀ d < 16,isAsciiHexdigit (UInt8.ofNat d.digitChar.toNat) = true ∧
      hexDigitVal (UInt8.ofNat d.digitChar.toNat) = d := by decide
  induction n using Nat.strong_induction_on with
  | _ n ih =>
  rw [lowerHex,Nat.toDigits_eq_if (by decide)]
  split
  · next hlt =>
    obtain ⟨hhex,hval⟩ := hdigit n hlt
    exact ⟨by simp [hhex],by simp [fromHex,hval]⟩
  · next hge =>
    obtain ⟨hhex,hval⟩ := hdigit (n % 16) (Nat.mod_lt _ (by decide))
    obtain ⟨hall,hn⟩ := ih (n / 16) (by omega)
    rw [lowerHex] at hall hn
    refine ⟨by simp [hall,hhex],?_⟩
    rw [fromHex] at hn ⊢
    rw [List.map_append,List.foldl_append,hn]
    simp only [List.map_cons,List.map_nil,List.foldl_cons,List.foldl_nil,hval]
    omega

/-- Hex digits are no line break. -/
theorem isLine_digits {digits : Bytes} (hhex : digits.all isAsciiHexdigit = true)
    (hlen : digits.length ≤ 12) : IsLine digits := by
  constructor
  · intro hin
    have hmem : (13 : UInt8) ∈ digits := hin.subset (by simp [crlf])
    exact absurd (List.all_eq_true.mp hhex _ hmem) (by decide)
  · rw [chunkLineMax]
    omega

/-- A chunk as the proxy writes it is one of those the decoder reads. -/
theorem encodeChunk_eq {data : Bytes} (hne : data ≠ []) (hlen : data.length < 16 ^ 12) :
    ∃ c : Chunk,c.data = data ∧ c.encode = encodeChunk data := by
  obtain ⟨hhex,hvalue⟩ := lowerHex_digits data.length
  have hfew : (lowerHex data.length).length ≤ 12 := by
    rw [lowerHex,List.length_map]
    exact (Nat.length_toDigits_le_iff (by decide) (by decide)).mpr hlen
  have hsome : lowerHex data.length ≠ [] := by
    rw [lowerHex,ne_eq,List.map_eq_nil_iff]
    exact Nat.toDigits_ne_nil
  refine ⟨⟨data,hne,lowerHex data.length,[],hsome,hfew,hhex,hvalue,Or.inl rfl,?_⟩,rfl,?_⟩
  · rw [List.append_nil]
    exact isLine_digits hhex hfew
  · simp [Chunk.encode,SizeLine.text,encodeChunk]

/-- A body in any encoding of non-empty chunks, cut into any pieces, is decoded to its data,
its end found exactly; how an input is cut never matters; and the daemon reports the same
for an input if and only if no extension of it has a carriage return or line feed in it. -/
theorem chunked_body_is_decoded (input : List Bytes) :
    (∀ (body : ChunkedBody) (after : Bytes) (pieces : List Bytes),
      pieces.flatten = body.encode ++ after →
      ∃ d,feed push new pieces = (body.data,.ok (body.encode.length,d)) ∧ d.done = true) ∧
    (∀ (body : ChunkedBody) (rest : Bytes) (pieces : List Bytes),rest ≠ [] →
      pieces.flatten ++ rest = body.encode →
      ∃ out d,feed push new pieces = (out,.ok (pieces.flatten.length,d)) ∧ d.done = false) ∧
    (∀ data : Bytes,data ≠ [] → data.length < 16 ^ 12 →
      ∃ c : Chunk,c.data = data ∧ c.encode = encodeChunk data) ∧
    (∀ pieces pieces' : List Bytes,pieces.flatten = pieces'.flatten →
      feed push new pieces = feed push new pieces') ∧
    (outcome (feed tsPush new input) = outcome (feed push new input) ↔
      CleanExtensions input.flatten) := by
  have hpush : ∀ pieces,feed push new pieces = (byteReader chunkSize).read new pieces.flatten :=
    fun pieces => feed_push pieces due_new
  have hts : ∀ pieces,feed tsPush new pieces = (byteReader tsChunkSize).read new pieces.flatten :=
    fun pieces => feed_push pieces due_new
  have hbody : ∀ body : ChunkedBody,(byteReader chunkSize).read new body.encode =
      (body.data,.ok (body.encode.length,⟨.done,[],0⟩)) :=
    fun body => read_body body (chunkSize_text _) fun c _ => chunkSize_text _
  refine ⟨?_,?_,fun data => encodeChunk_eq,?_,?_⟩
  · intro body after pieces heq
    refine ⟨⟨.done,[],0⟩,?_,rfl⟩
    rw [hpush,heq,Reader.read_append,hbody]
    simp only [Fed.next]
    rw [Reader.read_atEnd rfl]
    simp [Fed.stay,Except.map]
  · intro body rest pieces hne heq
    rw [hpush]
    have hread := hbody body
    rw [← heq] at hread
    obtain ⟨out,d,hd,hend⟩ := Reader.read_of_append hne hread rfl
    exact ⟨out,d,hd,hend⟩
  · intro pieces pieces' heq
    rw [hpush,hpush,heq]
  · rw [hpush,hts]
    exact agree_iff input.flatten

/-- A line feed in an extension: the proxy reads the body on, the daemon refuses it. -/
theorem line_feed_in_extension_differs :
    outcome (feed tsPush new [[0x31,0x3b,10,13,10,0x78,13,10,0x30,13,10,13,10]]) ≠
      outcome (feed push new [[0x31,0x3b,10,13,10,0x78,13,10,0x30,13,10,13,10]]) := by
  have hts := @feed_push tsChunkSize new [[0x31,0x3b,10,13,10,0x78,13,10,0x30,13,10,13,10]] due_new
  have hpush := @feed_push chunkSize new [[0x31,0x3b,10,13,10,0x78,13,10,0x30,13,10,13,10]] due_new
  rw [show tsPush = pushWith tsChunkSize from rfl,show push = pushWith chunkSize from rfl,hts,hpush]
  decide

end Flagship.Ingress

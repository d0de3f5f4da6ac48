import Flagship.Backup.Proofs.Encoding

namespace Flagship.Backup.Proofs
open Backup Lib Finset

variable {k n b shardLen : Nat} {data : Bytes}

theorem length_gather (shards : List Bytes) (kept : List Nat) :
    (gather shards kept n).length = n := by
  unfold gather
  induction kept using List.reverseRecOn with
  | nil => exact List.length_replicate
  | append_singleton kept i ih =>
    rw [List.foldl_append,List.foldl_cons,List.foldl_nil,List.length_set,ih]

theorem getD_gather (shards : List Bytes) (kept : List Nat) {i : Nat} (hi : i < n) :
    (gather shards kept n).getD i none = if i ∈ kept then shards[i]? else none := by
  have hlen := length_gather (n := n) shards kept
  unfold gather at hlen ⊢
  induction kept using List.reverseRecOn with
  | nil => simp [hi]
  | append_singleton kept i' ih =>
    have hlen' := length_gather (n := n) shards kept
    unfold gather at hlen'
    rw [List.foldl_append,List.foldl_cons,List.foldl_nil,List.getD_eq_getElem?_getD]
    by_cases heq : i' = i
    · subst heq
      rw [List.getElem?_set_self (hlen'.symm ▸ hi)]
      simp
    · rw [List.getElem?_set_ne heq,← List.getD_eq_getElem?_getD,ih hlen']
      simp [Ne.symm heq]

/-- Enough shards leave `k` different places to decode from. -/
theorem survivingIndices_spec {recovered : List (Option Bytes)} {kept : List Nat}
    (hkept : ∀ i < n, (recovered.getD i none).isSome = decide (i ∈ kept)) (hnodup : kept.Nodup)
    (hin : ∀ i ∈ kept, i < n) (hk : k ≤ kept.length) :
    (survivingIndices recovered k n).length = k ∧ (survivingIndices recovered k n).Nodup ∧
      ∀ i ∈ survivingIndices recovered k n, i < n ∧ i ∈ kept := by
  have hsubset : kept ⊆ (List.range n).filter fun i => (recovered.getD i none).isSome := by
    intro i hi
    rw [List.mem_filter,hkept i (hin i hi)]
    exact ⟨List.mem_range.mpr (hin i hi),decide_eq_true hi⟩
  have hle := (hnodup.subperm hsubset).length_le
  refine ⟨?_,?_,fun i hi => ?_⟩
  · rw [survivingIndices,List.length_take]
    omega
  · exact (List.nodup_range.filter _).sublist (List.take_sublist ..)
  · obtain ⟨hrange,hsome⟩ := List.mem_filter.mp (List.mem_of_mem_take hi)
    have hlt := List.mem_range.mp hrange
    rw [hkept i hlt] at hsome
    exact ⟨hlt,of_decide_eq_true hsome⟩

/-- The output with the data before `offset` in its place. -/
def written (data : Bytes) (offset : Nat) : Bytes :=
  data.take offset ++ List.replicate (data.length - offset) 0

theorem written_of_le {offset : Nat} (h : data.length ≤ offset) : written data offset = data := by
  rw [written,List.take_of_length_le h,Nat.sub_eq_zero_of_le h,List.replicate_zero,List.append_nil]

theorem setAt_written {offset len : Nat} (h : offset + len ≤ data.length) :
    setAt (written data offset) offset ((data.drop offset).take len) = written data (offset + len) := by
  have htake : (data.take offset).length = offset := by
    rw [List.length_take]
    omega
  have hlen : ((data.drop offset).take len).length = len := by
    rw [List.length_take,List.length_drop]
    omega
  have hfirst : (written data offset).take offset = data.take offset := List.take_left' htake
  have hrest : (written data offset).drop (offset + len) =
      List.replicate (data.length - (offset + len)) 0 := by
    rw [← List.drop_drop,written,List.drop_left' htake,List.drop_replicate,Nat.sub_sub]
  rw [setAt,hlen,hfirst,hrest,written,List.take_add]

/-- The shard is the data's piece `r`. -/
def Piece (data : Bytes) (shardLen r : Nat) (shard : Bytes) : Prop :=
  shard.length = shardLen ∧ ∀ b < shardLen, byteAt shard b = byteAt data (r * shardLen + b)

theorem Piece.take {r len : Nat} {shard : Bytes} (h : Piece data shardLen r shard)
    (hlen : len ≤ shardLen) (hend : r * shardLen + len ≤ data.length) :
    shard.take len = (data.drop (r * shardLen)).take len := by
  obtain ⟨hlength,hbytes⟩ := h
  refine bytes_ext ?_ fun b hb => ?_
  · rw [List.length_take,List.length_take,List.length_drop]
    omega
  · rw [List.length_take] at hb
    have hb' : b < len := by omega
    have hbyte := hbytes b (by omega)
    simpa [byteAt,List.getElem?_take,hb'] using hbyte

section
variable {indices : List Nat} {survivors : List Bytes} {inv : Matrix}

theorem writeRow_written {r : Nat}
    (hsame : indices[r]? = some r → Piece data shardLen r (survivors.getD r []))
    (hmixed : Piece data shardLen r (combine k shardLen survivors (inv.getD r []))) :
    writeRow k shardLen data.length indices survivors inv (written data (r * shardLen)) r =
      written data ((r + 1) * shardLen) := by
  have hnext : (r + 1) * shardLen = r * shardLen + shardLen := Nat.succ_mul r shardLen
  unfold writeRow
  by_cases hlen : min shardLen (data.length - r * shardLen) = 0
  · simp only [hlen,↓reduceIte]
    by_cases hzero : shardLen = 0
    · simp [hzero]
    · rw [written_of_le (by omega),written_of_le (by omega)]
  · have hend : r * shardLen + min shardLen (data.length - r * shardLen) ≤ data.length := by omega
    have hlast : written data (r * shardLen + min shardLen (data.length - r * shardLen)) =
        written data ((r + 1) * shardLen) := by
      rcases Nat.le_total shardLen (data.length - r * shardLen) with hle | hle
      · rw [Nat.min_eq_left hle,hnext]
      · rw [written_of_le (by omega),written_of_le (by omega)]
    simp only [hlen,↓reduceIte]
    split
    · rename_i hi
      rw [(hsame hi).take (Nat.min_le_left ..) hend,setAt_written hend,hlast]
    · rw [hmixed.take (Nat.min_le_left ..) hend,setAt_written hend,hlast]

theorem foldl_writeRow
    (hsame : ∀ r < k, indices[r]? = some r → Piece data shardLen r (survivors.getD r []))
    (hmixed : ∀ r < k, Piece data shardLen r (combine k shardLen survivors (inv.getD r [])))
    {rows : Nat} (hrows : rows ≤ k) :
    (List.range rows).foldl (writeRow k shardLen data.length indices survivors inv)
      (List.replicate data.length 0) = written data (rows * shardLen) := by
  induction rows with
  | zero => simp [written]
  | succ rows ih =>
    rw [List.range_succ,List.foldl_append,ih (by omega)]
    exact writeRow_written (hsame rows hrows) (hmixed rows hrows)

end

/-- The rows of the places decoded from lose nothing. -/
theorem nonsingular_rows {indices : List Nat} (hlen : indices.length = k) (hnodup : indices.Nodup)
    (hlt : ∀ i ∈ indices, i < 256) (hk : k ≤ 256) :
    Nonsingular k (entry (indices.map fun i => (List.range k).map (codeRow k Gf256.ofNat i))) := by
  have hget : ∀ r < k, indices[r]? = some (indices.getD r 0) := by
    intro r hr
    rw [List.getD_eq_getElem?_getD,List.getElem?_eq_getElem (hlen.symm ▸ hr),Option.getD_some]
  have hcode : Nonsingular k fun r j => codeRow k Gf256.ofNat (indices.getD r 0) j := by
    have hsmall : ∀ i ∈ range k ∪ (range k).image (indices.getD · 0), i < 256 := by
      intro i hi
      rcases mem_union.mp hi with hi | hi
      · exact lt_of_lt_of_le (mem_range.mp hi) hk
      · obtain ⟨r,hr,rfl⟩ := mem_image.mp hi
        exact hlt _ (List.mem_of_getElem? (hget r (mem_range.mp hr)))
    refine nonsingular_codeRow (fun r hr r' hr' heq => ?_) fun i hi j hj heq => ?_
    · have hr := mem_range.mp hr
      have hr' := mem_range.mp hr'
      refine (List.getElem?_inj (hlen.symm ▸ hr) hnodup).mp ?_
      rw [hget r hr,hget r' hr']
      exact congrArg some heq
    · exact ofNat_injective (hsmall i hi) (hsmall j hj) heq
  intro v hv
  refine hcode v fun r hr => ?_
  rw [← hv r hr]
  refine sum_congr rfl fun j hj => ?_
  rw [entry_map (hget r hr),byteAt_tabulate _ (mem_range.mp hj)]

/-- The inverse applied to the survivors gives the data's pieces back. -/
theorem combine_inverse {indices : List Nat} {survivors : List Bytes} {inv : Matrix}
    (hlen : indices.length = k)
    (hsurvivors : ∀ r < k, ∀ i, indices[r]? = some i →
      ∀ b < shardLength data.length k, entry survivors r b = codeByte data k i b)
    (hinv : ∀ r < k, ∀ j < k, ∑ i ∈ range k, entry inv r i *
      entry (indices.map fun i => (List.range k).map (codeRow k Gf256.ofNat i)) i j =
        if r = j then 1 else 0) {r : Nat} (hr : r < k) :
    Piece data (shardLength data.length k) r
      (combine k (shardLength data.length k) survivors (inv.getD r [])) := by
  obtain ⟨hlength,hbytes⟩ := combine_spec k (shardLength data.length k) survivors
    (inv.getD r [])
  refine ⟨hlength,fun b hb => ?_⟩
  let rows := indices.map fun i => (List.range k).map (codeRow k Gf256.ofNat i)
  let piece := fun j => byteAt data (j * shardLength data.length k + b)
  have hrow : ∀ i ∈ range k, entry survivors i b = ∑ j ∈ range k, entry rows i j * piece j := by
    intro i hi
    have hi := mem_range.mp hi
    have hget := List.getElem?_eq_getElem (hlen.symm ▸ hi : i < indices.length)
    rw [hsurvivors i hi _ hget b hb,codeByte]
    refine sum_congr rfl fun j hj => ?_
    rw [entry_map hget,byteAt_tabulate _ (mem_range.mp hj)]
  calc byteAt (combine k (shardLength data.length k) survivors (inv.getD r [])) b
      = ∑ i ∈ range k, entry inv r i * entry survivors i b := hbytes b hb
    _ = ∑ i ∈ range k, ∑ j ∈ range k, entry inv r i * (entry rows i j * piece j) := by
      refine sum_congr rfl fun i hi => ?_
      rw [hrow i hi,mul_sum]
    _ = ∑ j ∈ range k, (∑ i ∈ range k, entry inv r i * entry rows i j) * piece j := by
      rw [sum_comm]
      refine sum_congr rfl fun j _ => ?_
      rw [sum_mul]
      exact sum_congr rfl fun i _ => (mul_assoc ..).symm
    _ = ∑ j ∈ range k, if r = j then piece j else 0 := by
      refine sum_congr rfl fun j hj => ?_
      rw [hinv r hr j (mem_range.mp hj),ite_mul,one_mul,zero_mul]
    _ = piece r := by rw [sum_ite_eq,if_pos (mem_range.mpr hr)]

/-- Decoding from shards that are those of the code. -/
theorem decodeShards_spec (hk : 2 ≤ k) (hkn : k ≤ n) (hn : n ≤ 255)
    {recovered : List (Option Bytes)} (hlength : recovered.length = n)
    (hcount : (survivingIndices recovered k n).length = k)
    (hnodup : (survivingIndices recovered k n).Nodup)
    (hshard : ∀ i ∈ survivingIndices recovered k n, i < n ∧ ∃ shard,
      recovered.getD i none = some shard ∧ shard.length = shardLength data.length k ∧
        ∀ b < shardLength data.length k, byteAt shard b = codeByte data k i b) :
    decodeShards recovered k n data.length = .ok data := by
  generalize hindices : survivingIndices recovered k n = indices at hcount hnodup hshard
  obtain ⟨survivors,hsurvivors⟩ :
    ∃ survivors, (indices.map fun i => (recovered.getD i none).getD []) = survivors := ⟨_,rfl⟩
  have hvalid := validateKN_eq (by omega : 1 ≤ k) hkn hn
  have hk1 : k ≠ 1 := by omega
  have hsurvivor : ∀ r < k, ∀ i, indices[r]? = some i → ∃ shard, survivors[r]? = some shard ∧
      shard.length = shardLength data.length k ∧
      ∀ b < shardLength data.length k, byteAt shard b = codeByte data k i b := by
    intro r _ i hget
    obtain ⟨-,shard,hrec,hshard⟩ := hshard i (List.mem_of_getElem? hget)
    refine ⟨shard,?_,hshard⟩
    rw [← hsurvivors,List.getElem?_map,hget,Option.map_some,hrec,Option.getD_some]
  have hfirst : (survivors.getD 0 []).length = shardLength data.length k := by
    obtain ⟨shard,hget,hlen,-⟩ := hsurvivor 0 (by omega) _
      (List.getElem?_eq_getElem (by omega : 0 < indices.length))
    rw [List.getD_eq_getElem?_getD,hget,Option.getD_some,hlen]
  have hsame : ¬ (survivors.any fun s => s.length ≠ shardLength data.length k) := by
    rw [← hsurvivors,Bool.not_eq_true,List.any_eq_false]
    intro s hs
    obtain ⟨i,hi,rfl⟩ := List.mem_map.mp hs
    obtain ⟨-,shard,hrec,hlen,-⟩ := hshard i hi
    rw [hrec,Option.getD_some,hlen]
    simp
  have hrows : indices.mapM (fun i => generatorRow i k) =
      .ok (indices.map fun i => (List.range k).map (codeRow k Gf256.ofNat i)) :=
    mapM_eq_ok fun i hi => generatorRow_eq (by have := (hshard i hi).1; omega)
  obtain ⟨inv,hinvert,-,hinv⟩ := invertMatrix_spec (by rw [List.length_map,hcount])
    (nonsingular_rows hcount hnodup (fun i hi => by have := (hshard i hi).1; omega) (by omega))
  have hout : (List.range k).foldl (writeRow k (shardLength data.length k) data.length indices
      survivors inv) (List.replicate data.length 0) = written data (k * shardLength data.length k) := by
    refine foldl_writeRow (fun r hr hget => ?_) (fun r hr =>
      combine_inverse hcount (fun r hr i hget b hb => ?_) hinv hr) (le_refl k)
    · obtain ⟨shard,hsurv,hlen,hbytes⟩ := hsurvivor r hr r hget
      rw [List.getD_eq_getElem?_getD,hsurv,Option.getD_some]
      exact ⟨hlen,fun b hb => (hbytes b hb).trans (codeByte_data hr)⟩
    · obtain ⟨shard,hsurv,-,hbytes⟩ := hsurvivor r hr i hget
      rw [entry_of_getElem? hsurv,hbytes b hb]
  rw [written_of_le (le_shardLength (by omega) _)] at hout
  simp only [decodeShards,hvalid,hlength,ne_eq,not_true_eq_false,hk1,↓reduceIte,hindices,hcount,
    lt_self_iff_false,hsurvivors,hfirst,hsame,hrows]
  change (invertMatrix _ k).bind _ = .ok data
  rw [hinvert]
  exact congrArg Except.ok hout

/-- One piece is copied, and any copy is the data. -/
theorem decodeShards_copies (hn : 1 ≤ n) (hn' : n ≤ 255) {kept : List Nat} (hin : ∀ i ∈ kept, i < n)
    (hne : 1 ≤ kept.length) :
    decodeShards (gather (List.replicate n data) kept n) 1 n data.length = .ok data := by
  have hvalid := validateKN_eq (le_refl 1) hn hn'
  obtain ⟨i,hi⟩ := List.exists_mem_of_length_pos hne
  have hlength := length_gather (n := n) (List.replicate n data) kept
  have hcopy : ∀ s ∈ gather (List.replicate n data) kept n, s = none ∨ s = some data := by
    intro s hs
    obtain ⟨j,hj,rfl⟩ := List.mem_iff_getElem.mp hs
    have hget := getD_gather (List.replicate n data) kept (hlength ▸ hj)
    rw [List.getD_eq_getElem?_getD,List.getElem?_eq_getElem hj,Option.getD_some] at hget
    rw [hget]
    split
    · exact .inr (by rw [List.getElem?_replicate,if_pos (hlength ▸ hj)])
    · exact .inl rfl
  have hmem : some data ∈ gather (List.replicate n data) kept n := by
    have hget := getD_gather (List.replicate n data) kept (hin i hi)
    rw [if_pos hi,List.getElem?_replicate,if_pos (hin i hi),List.getD_eq_getElem?_getD,
      List.getElem?_eq_getElem (hlength.symm ▸ hin i hi),Option.getD_some] at hget
    exact hget ▸ List.getElem_mem _
  have hfind : (gather (List.replicate n data) kept n).findSome? (fun s => s) = some data := by
    cases hfind : (gather (List.replicate n data) kept n).findSome? fun s => s with
    | none => exact absurd (List.findSome?_eq_none_iff.mp hfind _ hmem) (by simp)
    | some s =>
      obtain ⟨t,ht,rfl⟩ := List.exists_of_findSome?_eq_some hfind
      rcases hcopy _ ht with hnone | hsome
      · cases hnone
      · exact hsome
  simp only [decodeShards,hvalid,hlength,ne_eq,not_true_eq_false,↓reduceIte,hfind,List.take_length]
  rfl

theorem encodeShards_copies (data : Bytes) (hn : 1 ≤ n) (hn' : n ≤ 255) :
    encodeShards data 1 n = .ok ⟨1,n,data.length,List.replicate n data⟩ := by
  rw [encodeShards,validateKN_eq (le_refl 1) hn hn']
  rfl

/-- What encoding gives, with what any `k` of its shards decode to. -/
theorem encodeShards_decodes (data : Bytes) (hk : 1 ≤ k) (hkn : k ≤ n) (hn : n ≤ 255) :
    ∃ shards,encodeShards data k n = .ok ⟨k,n,data.length,shards⟩ ∧ shards.length = n ∧
      ∀ kept : List Nat,kept.Nodup → (∀ i ∈ kept,i < n) → k ≤ kept.length →
        decodeShards (gather shards kept n) k n data.length = .ok data := by
  by_cases hk1 : k = 1
  · subst hk1
    exact ⟨_,encodeShards_copies data hkn hn,List.length_replicate,
      fun kept _ hin hle => decodeShards_copies hkn hn hin hle⟩
  · obtain ⟨shards,hencode,hlen,hshards⟩ := encodeShards_spec data (by omega : 2 ≤ k) hkn hn
    refine ⟨_,hencode,hlen,fun kept hnodup hin hle => ?_⟩
    have hsome : ∀ i < n, ((gather shards kept n).getD i none).isSome = decide (i ∈ kept) := by
      intro i hi
      obtain ⟨shard,hget,-⟩ := hshards i hi
      rw [getD_gather _ _ hi,hget]
      split
      · rename_i hmem
        simp [hmem]
      · rename_i hmem
        simp [hmem]
    obtain ⟨hcount,hdistinct,hmem⟩ := survivingIndices_spec hsome hnodup hin hle
    refine decodeShards_spec (by omega) hkn hn (length_gather ..) hcount hdistinct fun i hi => ?_
    obtain ⟨hi,hkept⟩ := hmem i hi
    obtain ⟨shard,hget,hshard⟩ := hshards i hi
    exact ⟨hi,shard,by rw [getD_gather _ _ hi,if_pos hkept,hget],hshard⟩

/-- Any `k` of the shards, fetched in any order, give the data back. -/
theorem any_k_shards_decode (data : Bytes) (k n : Nat) (hk : 1 ≤ k) (hkn : k ≤ n) (hn : n ≤ 255) :
    ∃ s, encodeShards data k n = .ok s ∧ s.shards.length = n ∧
      ∀ kept : List Nat, kept.Nodup → (∀ i ∈ kept, i < n) → k ≤ kept.length →
        decodeShards (gather s.shards kept s.n) s.k s.n s.dataLength = .ok data := by
  obtain ⟨shards,hencode,hlen,hdecode⟩ := encodeShards_decodes data hk hkn hn
  exact ⟨_,hencode,hlen,hdecode⟩

theorem two_of_three_shards_decode : ∃ s,
    encodeShards [.ofNat 7,.ofNat 200,.ofNat 31] 2 3 = .ok s ∧
      decodeShards (gather s.shards [2,1] s.n) s.k s.n s.dataLength =
        .ok [.ofNat 7,.ofNat 200,.ofNat 31] := by
  obtain ⟨s,hs,-,hdecode⟩ := any_k_shards_decode [.ofNat 7,.ofNat 200,.ofNat 31] 2 3 (by decide)
    (by decide) (by decide)
  exact ⟨s,hs,hdecode [2,1] (by decide) (by decide) (by decide)⟩

/-- The shards' first `k` are what one shard is made again from. -/
theorem encodeOneShard_eq (hk : 1 ≤ k) (hkn : k ≤ n) (hn : n ≤ 255) {s : Shards}
    (hs : encodeShards data k n = .ok s) {i : Nat} (hi : i < n) :
    ∃ shard,s.shards[i]? = some shard ∧ encodeOneShard (s.shards.take k) i k n = .ok shard := by
  have hvalid := validateKN_eq hk hkn hn
  have hrange : ¬ ((i : Int) < 0 ∨ (n : Int) ≤ i) := by omega
  by_cases hk1 : k = 1
  · subst hk1
    rw [encodeShards_copies data hkn hn] at hs
    cases hs
    have htake : (List.replicate n data).take 1 = [data] := by
      rw [List.take_replicate,Nat.min_eq_left hkn]
      rfl
    refine ⟨data,by rw [List.getElem?_replicate,if_pos hi],?_⟩
    simp only [encodeOneShard,hvalid,htake,hrange,List.length_singleton,ne_eq,not_true_eq_false,
      ↓reduceIte]
    rfl
  · rw [encodeShards_eq data (by omega) hkn hn] at hs
    cases hs
    have hlen := length_dataShards data k
    have htake : (dataShards data k ++ (List.range' k (n - k)).map (parityShard data k)).take k =
        dataShards data k := List.take_left' hlen
    by_cases hik : i < k
    · obtain ⟨shard,hget,-⟩ := dataShards_spec data (by omega) hik
      refine ⟨shard,by rw [List.getElem?_append_left (hlen.symm ▸ hik),hget],?_⟩
      have hint : (i : Int) < k := by omega
      simp only [encodeOneShard,hvalid,htake,hlen,hrange,hk1,hint,ne_eq,not_true_eq_false,↓reduceIte,
        Int.toNat_natCast,List.getD_eq_getElem?_getD,hget,Option.getD_some]
      rfl
    · obtain ⟨first,hfirst,hlength,-⟩ := dataShards_spec data (by omega) (by omega : 0 < k)
      refine ⟨_,getElem?_parity data (not_lt.mp hik) hi,?_⟩
      have hint : ¬ (i : Int) < k := by omega
      simp only [encodeOneShard,hvalid,htake,hlen,hrange,hk1,hint,ne_eq,not_true_eq_false,↓reduceIte,
        Int.toNat_natCast,List.getD_eq_getElem?_getD,hfirst,Option.getD_some,hlength,
        generatorRow_eq (by omega : i < 256)]
      rfl

/-- A lost shard made again: decode, split, encode the one. -/
def rebuildShard (recovered : List (Option Bytes)) (index : Int) (k n dataLength : Nat) :
    Except CodingError Bytes := do
  let data ← decodeShards recovered k n dataLength
  let s ← encodeShards data k n
  encodeOneShard (s.shards.take k) index k n

/-- Making one shard again gives the shard encoding made, from the data shards as from any `k`
that are left. -/
theorem repaired_shard_is_the_encoded (data : Bytes) (k n : Nat) (hk : 1 ≤ k) (hkn : k ≤ n)
    (hn : n ≤ 255) :
    ∃ s,encodeShards data k n = .ok s ∧ s.shards.length = n ∧
      ∀ i < n,∃ shard,s.shards[i]? = some shard ∧
        encodeOneShard (s.shards.take k) i k n = .ok shard ∧
        ∀ kept : List Nat,kept.Nodup → (∀ j ∈ kept,j < n) → k ≤ kept.length →
          rebuildShard (gather s.shards kept n) i k n data.length = .ok shard := by
  obtain ⟨shards,hencode,hlen,hdecode⟩ := encodeShards_decodes data hk hkn hn
  refine ⟨_,hencode,hlen,fun i hi => ?_⟩
  obtain ⟨shard,hget,hone⟩ := encodeOneShard_eq hk hkn hn hencode hi
  refine ⟨shard,hget,hone,fun kept hnodup hin hle => ?_⟩
  rw [rebuildShard,hdecode kept hnodup hin hle]
  change (encodeShards data k n).bind _ = .ok shard
  rw [hencode]
  exact hone

theorem last_of_three_shards_repaired : ∃ s,
    encodeShards [.ofNat 7,.ofNat 200,.ofNat 31] 2 3 = .ok s ∧ ∃ shard,s.shards[2]? = some shard ∧
      rebuildShard (gather s.shards [1,0] 3) 2 2 3 3 = .ok shard := by
  obtain ⟨s,hs,-,hshards⟩ := repaired_shard_is_the_encoded [.ofNat 7,.ofNat 200,.ofNat 31] 2 3
    (by decide) (by decide) (by decide)
  obtain ⟨shard,hget,-,hrebuild⟩ := hshards 2 (by decide)
  exact ⟨s,hs,shard,hget,hrebuild [1,0] (by decide) (by decide) (by decide)⟩

end Flagship.Backup.Proofs

import Flagship.Lib.Lists
import Flagship.Lib.CauchyCode
import Flagship.Backup.Proofs.Gf256Field

namespace Flagship.Backup.Proofs
open Backup Lib Finset

variable {k col pivot r j : Nat} {m : Matrix}

theorem byteAt_tabulate (f : Nat → Gf256) (hj : j < k) : byteAt ((List.range k).map f) j = f j := by
  simp [byteAt,hj]

theorem byteAt_unitRow (hr : r < k) (j : Nat) : byteAt (unitRow k r) j = if r = j then 1 else 0 := by
  unfold byteAt unitRow
  by_cases hrj : r = j
  · subst hrj
    simp [hr]
  · rw [List.getD_eq_getElem?_getD,List.getElem?_set_ne hrj,if_neg hrj,List.getElem?_replicate]
    split
    · rfl
    · rfl

theorem entry_of_getElem? {row : List Gf256} (h : m[r]? = some row) : entry m r j = byteAt row j := by
  rw [entry,List.getD_eq_getElem?_getD,h,Option.getD_some]

theorem entry_map {α : Type} {l : List α} {f : α → List Gf256} {x : α} (h : l[r]? = some x) :
    entry (l.map f) r j = byteAt (f x) j :=
  entry_of_getElem? (by rw [List.getElem?_map,h,Option.map_some])

theorem entry_set {row : List Gf256} (hr : r < m.length) (i : Nat) :
    entry (m.set i row) r j = if r = i then byteAt row j else entry m r j := by
  by_cases hri : r = i
  · subst hri
    rw [if_pos rfl,entry_of_getElem? (List.getElem?_set_self hr)]
  · rw [if_neg hri,entry,entry,List.getD_eq_getElem?_getD,List.getD_eq_getElem?_getD,
      List.getElem?_set_ne (Ne.symm hri)]

theorem length_swapRows : (swapRows m col pivot).length = m.length := by
  unfold swapRows
  split
  · rw [List.length_set,List.length_set]
  · rfl

theorem entry_swapRows (col pivot : Nat) (hr : r < m.length) (j : Nat) :
    entry (swapRows m col pivot) r j = entry m (Equiv.swap col pivot r) j := by
  unfold swapRows
  split
  · rename_i hne
    rw [entry_set (by rwa [List.length_set]),entry_set hr,Equiv.swap_apply_def]
    by_cases hc : r = col
    · rw [if_neg (by rw [hc]; exact Ne.symm hne),if_pos hc,if_pos hc]
      rfl
    · by_cases hp : r = pivot
      · rw [if_pos hp,if_neg hc,if_pos hp]
        rfl
      · rw [if_neg hp,if_neg hc,if_neg hc,if_neg hp]
  · rename_i heq
    rw [not_not.mp heq,Equiv.swap_self,Equiv.refl_apply]

theorem scaleRow_eq {pinv : Gf256} (h : pinv ≠ 0) : scaleRow k col m pinv =
    .ok (m.set col ((List.range k).map fun j => entry m col j / pinv)) := by
  rw [scaleRow,mapM_eq_ok fun j _ => gfDiv_eq (entry m col j) h]
  rfl

theorem length_clearColumn {factors : Nat → Gf256} :
    (clearColumn k col factors m).length = m.length := List.length_mapIdx

theorem entry_clearColumn {factors : Nat → Gf256} (hr : r < m.length) (hj : j < k) :
    entry (clearColumn k col factors m) r j =
      if r = col then entry m r j else entry m r j - factors r * entry m col j := by
  have hrow : m[r]? = some (m.get ⟨r,hr⟩) := List.getElem?_eq_getElem hr
  have hcleared : (clearColumn k col factors m)[r]? = some (if r = col then m.get ⟨r,hr⟩
      else if factors r = 0 then m.get ⟨r,hr⟩
      else (List.range k).map fun j =>
        gfAdd (byteAt (m.get ⟨r,hr⟩) j) (gfMul (factors r) (entry m col j))) := by
    rw [clearColumn,List.getElem?_mapIdx,hrow,Option.map_some]
  rw [entry_of_getElem? hcleared,entry_of_getElem? hrow]
  split
  · rfl
  · split
    · rename_i hz
      rw [hz,zero_mul,sub_zero]
    · rw [byteAt_tabulate _ hj,gfAdd_eq_sub,gfMul_eq_mul]

/-- What a column of the loop starts from and leaves behind. -/
structure Inverting (k : Nat) (m : Matrix) (col : Nat) (s : Reduction) : Prop where
  rowsA : s.a.length = k
  rowsId : s.id.length = k
  reduced : Reduced k (entry m) col (entry s.a) (entry s.id)

theorem reduceColumn_spec {s : Reduction} (h : Inverting k m col s) (hcol : col < k) :
    ∃ s', reduceColumn k s col = .ok s' ∧ Inverting k m (col + 1) s' := by
  obtain ⟨ha,hid,hred⟩ := h
  obtain ⟨r,hr,hrk,hne⟩ := hred.pivot hcol
  unfold reduceColumn
  cases hfind : (List.range' col (k - col)).find? fun r => entry s.a r col ≠ 0 with
  | none =>
    have hzero := List.find?_eq_none.mp hfind r (List.mem_range'_1.mpr (by omega))
    simp [hne] at hzero
  | some pivot =>
    have hpne : entry s.a pivot col ≠ 0 := by simpa using List.find?_some hfind
    have hpin := List.mem_range'_1.mp (List.mem_of_find?_eq_some hfind)
    have hswap := hred.swap hcol hpin.1 (by omega)
      (fun r hr j _ => entry_swapRows col pivot (ha ▸ hr) j)
      (fun r hr i _ => entry_swapRows col pivot (hid ▸ hr) i)
    have hpinv : entry (swapRows s.a col pivot) col col ≠ 0 := by
      rwa [entry_swapRows _ _ (ha ▸ hcol),Equiv.swap_apply_left]
    simp only [scaleRow_eq hpinv]
    refine ⟨_,rfl,?_,?_,?_⟩
    · rw [length_clearColumn,List.length_set,length_swapRows,ha]
    · rw [length_clearColumn,List.length_set,length_swapRows,hid]
    · have hla : (swapRows s.a col pivot).length = k := length_swapRows.trans ha
      have hlid : (swapRows s.id col pivot).length = k := length_swapRows.trans hid
      have hscaled : ∀ {n : Matrix} (_ : n.length = k) {p : Gf256} {r : Nat} (_ : r < k) {j : Nat}
          (_ : j < k), entry (n.set col ((List.range k).map fun j => entry n col j / p)) r j =
            if r = col then entry n r j / p else entry n r j := by
        intro n hn p r hr j hj
        rw [entry_set (hn ▸ hr)]
        split
        · rename_i hrc
          rw [byteAt_tabulate _ hj,hrc]
        · rfl
      obtain ⟨hscale,hone⟩ := hswap.scale hcol hpinv (fun r hr j hj => hscaled hla hr hj)
        fun r hr i hi => hscaled hlid hr hi
      exact hscale.eliminate hcol hone
        (fun r hr j hj => entry_clearColumn (by rwa [List.length_set,hla]) hj)
        fun r hr i hi => entry_clearColumn (by rwa [List.length_set,hlid]) hi

theorem foldlM_reduceColumn {s : Reduction} (hs : Inverting k m 0 s) {cols : Nat} (hcols : cols ≤ k) :
    ∃ s', (List.range cols).foldlM (reduceColumn k) s = .ok s' ∧ Inverting k m cols s' := by
  induction cols with
  | zero => exact ⟨s,rfl,hs⟩
  | succ cols ih =>
    obtain ⟨s₁,hrun,hs₁⟩ := ih (by omega)
    obtain ⟨s₂,hstep,hs₂⟩ := reduceColumn_spec hs₁ hcols
    refine ⟨s₂,?_,hs₂⟩
    rw [List.range_succ,List.foldlM_append,hrun]
    change List.foldlM (reduceColumn k) s₁ [cols] = .ok s₂
    rw [List.foldlM_cons,hstep]
    rfl

/-- A matrix that loses nothing is inverted. -/
theorem invertMatrix_spec (hlen : m.length = k) (hm : Nonsingular k (entry m)) :
    ∃ inv, invertMatrix m k = .ok inv ∧ inv.length = k ∧ ∀ r < k, ∀ j < k,
      ∑ i ∈ range k, entry inv r i * entry m i j = if r = j then 1 else 0 := by
  have hstart : Inverting k m 0 ⟨m,(List.range k).map (unitRow k)⟩ := by
    refine ⟨hlen,by simp,.start hm fun r hr i _ => ?_⟩
    rw [entry_map (List.getElem?_range hr),byteAt_unitRow hr]
  obtain ⟨s,hrun,hs⟩ := foldlM_reduceColumn hstart (le_refl k)
  refine ⟨s.id,?_,hs.rowsId,fun r hr j hj => hs.reduced.finish hr hj⟩
  rw [invertMatrix,hrun]
  rfl

end Flagship.Backup.Proofs

namespace Flagship.Backup.Proofs
open Backup Lib Finset

variable {k n b shardLen : Nat} {data : Bytes}

theorem bytes_ext {s t : Bytes} (hlen : s.length = t.length)
    (h : ∀ b < s.length, byteAt s b = byteAt t b) : s = t := by
  refine List.ext_getElem hlen fun b hs ht => ?_
  simpa [byteAt,hs,ht] using h b hs

theorem mulTable_eq (c v : Gf256) : byteAt (mulTable c) v.toNat = c * v := by
  rw [mulTable,byteAt_tabulate _ (toNat_lt v),ofNat_toNat,gfMul_eq_mul]

theorem length_mulAdd (dst src : Bytes) (c : Gf256) : (mulAdd dst src c).length = dst.length := by
  unfold mulAdd
  split
  · rfl
  · split
    · exact List.length_mapIdx
    · exact List.length_mapIdx

theorem byteAt_mapIdx {dst : Bytes} (f : Nat → Gf256 → Gf256) (hb : b < dst.length) :
    byteAt (dst.mapIdx f) b = f b (byteAt dst b) := by
  simp [byteAt,hb]

theorem byteAt_mulAdd {dst : Bytes} (src : Bytes) (c : Gf256) (hb : b < dst.length) :
    byteAt (mulAdd dst src c) b = byteAt dst b + c * byteAt src b := by
  unfold mulAdd
  split
  · rename_i hc
    rw [hc,zero_mul,add_zero]
  · split
    · rename_i hc
      rw [byteAt_mapIdx _ hb,hc,one_mul,gfAdd_eq]
    · rw [byteAt_mapIdx _ hb,mulTable_eq,gfAdd_eq]

theorem combine_spec (k shardLen : Nat) (shards : List Bytes) (row : List Gf256) :
    (combine k shardLen shards row).length = shardLen ∧ ∀ b < shardLen,
      byteAt (combine k shardLen shards row) b = ∑ j ∈ range k, byteAt row j * entry shards j b := by
  induction k with
  | zero => exact ⟨List.length_replicate,fun b hb => by simp [combine,byteAt,hb]⟩
  | succ k ih =>
    have hstep : combine (k + 1) shardLen shards row =
        mulAdd (combine k shardLen shards row) (shards.getD k []) (byteAt row k) := by
      rw [combine,List.range_succ,List.foldl_append]
      rfl
    refine ⟨by rw [hstep,length_mulAdd,ih.1],fun b hb => ?_⟩
    rw [hstep,byteAt_mulAdd _ _ (ih.1.symm ▸ hb),ih.2 b hb,sum_range_succ]
    rfl

theorem unitRow_eq (r : Nat) (hr : r < k) :
    unitRow k r = (List.range k).map fun j => if r = j then 1 else 0 := by
  refine bytes_ext (by simp [unitRow]) fun j hj => ?_
  have hj : j < k := by simpa [unitRow] using hj
  rw [byteAt_unitRow hr,byteAt_tabulate _ hj]

theorem generatorRow_eq {index : Nat} (hindex : index < 256) :
    generatorRow index k = .ok ((List.range k).map (codeRow k Gf256.ofNat index)) := by
  unfold generatorRow
  split
  · rename_i hlt
    rw [unitRow_eq index hlt]
    refine congrArg Except.ok (List.map_congr_left fun j _ => ?_)
    rw [codeRow,if_pos hlt]
  · rename_i hge
    refine mapM_eq_ok fun j hj => ?_
    have hne : Gf256.ofNat index - Gf256.ofNat j ≠ 0 := by
      have hj := List.mem_range.mp hj
      exact sub_ne_zero.mpr fun heq => hge (by have := ofNat_injective hindex (by omega) heq; omega)
    rw [gfAdd_eq_sub,gfDiv_eq _ hne,codeRow,if_neg hge]

/-- The byte `b` of shard `i`, as the code has it. -/
def codeByte (data : Bytes) (k i b : Nat) : Gf256 :=
  ∑ j ∈ range k, codeRow k Gf256.ofNat i j * byteAt data (j * shardLength data.length k + b)

theorem codeByte_data {i : Nat} (hi : i < k) :
    codeByte data k i b = byteAt data (i * shardLength data.length k + b) := by
  simp [codeByte,codeRow,hi]

theorem le_shardLength (hk : 0 < k) (length : Nat) : length ≤ k * shardLength length k := by
  have hmod := Nat.mod_lt (length + k - 1) hk
  have hdiv := Nat.div_add_mod (length + k - 1) k
  unfold shardLength
  omega

theorem dataShards_spec (data : Bytes) (hk : 0 < k) {i : Nat} (hi : i < k) :
    ∃ shard, (dataShards data k)[i]? = some shard ∧ shard.length = shardLength data.length k ∧
      ∀ b < shardLength data.length k,
        byteAt shard b = byteAt data (i * shardLength data.length k + b) := by
  have hle := le_shardLength hk data.length
  have hend : (i + 1) * shardLength data.length k ≤ k * shardLength data.length k :=
    Nat.mul_le_mul_right _ hi
  refine ⟨_,by rw [dataShards,List.getElem?_map,List.getElem?_range hi,Option.map_some],?_,
    fun b hb => ?_⟩
  · rw [Nat.add_mul,Nat.one_mul] at hend
    simp only [List.length_take,List.length_drop,List.length_append,List.length_replicate,
      Nat.mul_comm _ k]
    omega
  · simp only [byteAt,List.getD_eq_getElem?_getD,List.getElem?_take,hb,↓reduceIte,
      List.getElem?_drop,List.getElem?_append,List.getElem?_replicate]
    split
    · rfl
    · rename_i hout
      rw [List.getElem?_eq_none (not_lt.mp hout)]
      split
      · rfl
      · rfl

theorem validateKN_eq (hk : 1 ≤ k) (hkn : k ≤ n) (hn : n ≤ 255) : validateKN k n = .ok () := by
  rw [validateKN,if_neg (by omega),if_neg (by omega),if_neg (by unfold maxN; omega)]

theorem length_dataShards (data : Bytes) (k : Nat) : (dataShards data k).length = k := by
  simp [dataShards]

/-- A shard behind the pieces of the data. -/
def parityShard (data : Bytes) (k i : Nat) : Bytes :=
  combine k (shardLength data.length k) (dataShards data k)
    ((List.range k).map (codeRow k Gf256.ofNat i))

theorem encodeShards_eq (data : Bytes) (hk : 2 ≤ k) (hkn : k ≤ n) (hn : n ≤ 255) :
    encodeShards data k n = .ok ⟨k,n,data.length,
      dataShards data k ++ (List.range' k (n - k)).map (parityShard data k)⟩ := by
  have hvalid := validateKN_eq (by omega : 1 ≤ k) hkn hn
  have hparity := mapM_eq_ok (l := List.range' k (n - k)) (f := fun i => do
      let row ← generatorRow i k
      return combine k (shardLength data.length k) (dataShards data k) row)
    (g := parityShard data k) fun i hi => by
    have hi := List.mem_range'_1.mp hi
    rw [generatorRow_eq (by omega)]
    rfl
  have hk1 : k ≠ 1 := by omega
  simp only [encodeShards,hvalid,hk1,↓reduceIte,hparity]
  rfl

theorem getElem?_parity (data : Bytes) {i : Nat} (hki : k ≤ i) (hi : i < n) :
    (dataShards data k ++ (List.range' k (n - k)).map (parityShard data k))[i]? =
      some (parityShard data k i) := by
  have hlen := length_dataShards data k
  rw [List.getElem?_append_right (hlen.symm ▸ hki),hlen,List.getElem?_map,
    List.getElem?_range' (by omega : i - k < n - k)]
  simp only [Option.map_some,Nat.one_mul,Nat.add_sub_cancel' hki]

/-- What encoding makes of more than one piece. -/
theorem encodeShards_spec (data : Bytes) (hk : 2 ≤ k) (hkn : k ≤ n) (hn : n ≤ 255) :
    ∃ shards, encodeShards data k n = .ok ⟨k,n,data.length,shards⟩ ∧ shards.length = n ∧
      ∀ i < n, ∃ shard, shards[i]? = some shard ∧ shard.length = shardLength data.length k ∧
        ∀ b < shardLength data.length k, byteAt shard b = codeByte data k i b := by
  have hlen := length_dataShards data k
  refine ⟨_,encodeShards_eq data hk hkn hn,?_,fun i hi => ?_⟩
  · rw [List.length_append,List.length_map,List.length_range',hlen]
    omega
  · by_cases hik : i < k
    · obtain ⟨shard,hget,hlength,hbytes⟩ := dataShards_spec data (by omega) hik
      refine ⟨shard,?_,hlength,fun b hb => ?_⟩
      · rw [List.getElem?_append_left (hlen.symm ▸ hik),hget]
      · rw [hbytes b hb,codeByte_data hik]
    · obtain ⟨hlength,hbytes⟩ := combine_spec k (shardLength data.length k)
        (dataShards data k) ((List.range k).map (codeRow k Gf256.ofNat i))
      refine ⟨_,getElem?_parity data (not_lt.mp hik) hi,hlength,fun b hb => ?_⟩
      rw [parityShard,hbytes b hb,codeByte]
      refine sum_congr rfl fun j hj => ?_
      have hj := mem_range.mp hj
      obtain ⟨shard,hget,-,hshard⟩ := dataShards_spec data (by omega) hj
      rw [byteAt_tabulate _ hj,entry_of_getElem? hget,hshard b hb]

end Flagship.Backup.Proofs

import SmallKV.Foundations.Tiling
import SmallKV.Table.Records

/-!
# Table/Restarts — the restart table at the end of a data block

`finish_data_block` appends one entry for each group of sixteen records and the number of entries.
The last entry counts its records modulo sixteen, so it says 0 when its group is full; otherwise the
table says where the groups are, as long as offsets and sizes are `int`s (`restartsRight_iff`).
-/

namespace SmallKV

variable {pairs : List (Bytes × Bytes)}

/-! ## What is appended -/

/-- The bytes of a restart point. -/
def restartEntry (e : ℤ × OffsetInfo) : Bytes := putFixed64 (putFixed32 [] e.1) e.2.bits

theorem restartEntry_eq (e : ℤ × OffsetInfo) : restartEntry e = encodeFixed32 (toUInt32 e.1) ++
    (encodeFixed32 (toUInt32 e.2.size) ++ encodeFixed32 (toUInt32 e.2.offset)) := by
  rw [restartEntry, putFixed64, putFixed32, encodeFixed64_bits, List.nil_append]

theorem length_restartEntries (es : List (ℤ × OffsetInfo)) :
    (es.flatMap restartEntry).length = 12 * es.length := by
  induction es with
  | nil => rfl
  | cons e es ih =>
    rw [List.flatMap_cons, List.length_append, ih, restartEntry_eq]
    simp only [List.length_append, length_encodeFixed32, List.length_cons]
    omega

/-- The entries for groups that start at the given offsets. -/
def restartEntries (recordNum lastOffset : ℤ) : List ℤ → List (ℤ × OffsetInfo)
  | [] => []
  | [offset] => [(recordNum % restartInterval, ⟨lastOffset - offset, offset⟩)]
  | offset :: next :: rest =>
      (restartInterval, ⟨next - offset, offset⟩) ::
        restartEntries recordNum lastOffset (next :: rest)

theorem appendRestarts_eq (recordNum lastOffset : ℤ) : ∀ (offsets : List ℤ) (data : Bytes),
    DataBlockBuilder.appendRestarts recordNum lastOffset offsets data =
      data ++ (restartEntries recordNum lastOffset offsets).flatMap restartEntry
  | [], data => by simp [DataBlockBuilder.appendRestarts, restartEntries]
  | [offset], data => by
      simp [DataBlockBuilder.appendRestarts, restartEntries, restartEntry, putFixed32, putFixed64]
  | offset :: next :: rest, data => by
      rw [DataBlockBuilder.appendRestarts, appendRestarts_eq recordNum lastOffset (next :: rest),
        restartEntries, List.flatMap_cons]
      simp [restartEntry, putFixed32, putFixed64]

theorem restartEntries_map (recordNum lastOffset : ℤ) (f : ℕ → ℤ) : ∀ m a : ℕ,
    restartEntries recordNum lastOffset ((List.range' a (m + 1)).map f) =
      (List.range' a m).map (fun i => (restartInterval, ⟨f (i + 1) - f i, f i⟩)) ++
        [(recordNum % restartInterval, ⟨lastOffset - f (a + m), f (a + m)⟩)]
  | 0, _ => rfl
  | m + 1, a => by
      have ih := restartEntries_map recordNum lastOffset f m (a + 1)
      rw [List.range'_succ, List.map_cons, Nat.add_right_comm a 1 m] at ih
      rw [List.range'_succ, List.range'_succ, List.map_cons, List.map_cons, restartEntries, ih,
        List.range'_succ, List.map_cons, List.cons_append]
      rfl

/-- The entry for group `i`: the last group is counted modulo the interval. -/
def groupEntry (pairs : List (Bytes × Bytes)) (i : ℕ) : ℤ × OffsetInfo :=
  (((if i + 1 < groupNum pairs then 16 else pairs.length % 16 : ℕ) : ℤ),
    ⟨toInt32 (groupStart pairs (i + 1)) - toInt32 (groupStart pairs i),
      toInt32 (groupStart pairs i)⟩)

/-- The table of some pairs. -/
def restartTable (pairs : List (Bytes × Bytes)) : Bytes :=
  ((List.range (groupNum pairs)).map (groupEntry pairs)).flatMap restartEntry ++
    encodeFixed32 (toUInt32 (groupNum pairs))

/-- The groups end with the records. -/
theorem groupStart_groupNum (pairs : List (Bytes × Bytes)) :
    groupStart pairs (groupNum pairs) = (recordBytes pairs).length := by
  rw [groupStart, recordStart, groupNum, List.take_of_length_le (by omega)]

theorem restartEntries_offsets (hne : pairs ≠ []) :
    restartEntries pairs.length (toInt32 (recordBytes pairs).length)
      ((List.range (groupNum pairs)).map fun i => toInt32 (groupStart pairs i)) =
      (List.range (groupNum pairs)).map (groupEntry pairs) := by
  have hpos : 0 < pairs.length := List.length_pos_iff.mpr hne
  have hgroups : groupNum pairs ≠ 0 := by
    rw [groupNum]
    omega
  obtain ⟨m, hm⟩ := Nat.exists_eq_succ_of_ne_zero hgroups
  rw [Nat.succ_eq_add_one] at hm
  have hlast : groupEntry pairs m = ((pairs.length : ℤ) % restartInterval,
      ⟨toInt32 (recordBytes pairs).length - toInt32 (groupStart pairs m),
        toInt32 (groupStart pairs m)⟩) := by
    rw [groupEntry, if_neg (by omega), ← hm, groupStart_groupNum]
    rfl
  have hinner : ∀ i ∈ List.range m, (restartInterval,
      (⟨toInt32 (groupStart pairs (i + 1)) - toInt32 (groupStart pairs i),
        toInt32 (groupStart pairs i)⟩ : OffsetInfo)) = groupEntry pairs i := by
    intro i hi
    rw [List.mem_range] at hi
    rw [groupEntry, if_pos (by omega)]
    rfl
  rw [hm, List.range_eq_range', restartEntries_map, ← List.range_eq_range', ← List.range_eq_range',
    List.map_congr_left hinner, List.range_succ, List.map_append, List.map_singleton, hlast,
    Nat.zero_add]

/-- **A finished block is its records and their table.** -/
theorem blockBytes_eq (hne : pairs ≠ []) (hkeys : ∀ p ∈ pairs, p.1 ≠ []) :
    blockBytes pairs = recordBytes pairs ++ restartTable pairs := by
  have hpos : 0 < pairs.length := List.length_pos_iff.mpr hne
  have hholds := holds_blockOf hkeys
  have hnum : DataBlockBuilder.restartPointNum pairs.length = groupNum pairs := by
    rw [DataBlockBuilder.restartPointNum, groupNum, Int.tdiv_eq_ediv_of_nonneg (by omega)]
    omega
  rw [blockBytes, DataBlockBuilder.finishDataBlock, hholds.recordNum, hholds.data, hholds.offsets,
    appendRestarts_eq, restartEntries_offsets hne, hnum, putFixed32, restartTable,
    List.append_assoc]

/-! ## What is read back -/

/-- The `int32_t` at an offset. -/
def int32At (bytes : Bytes) (off : ℕ) : ℤ := toInt32 (fixed32At bytes off)

/-- `Restart_Point`s as the schema has them: the number of records, then the size and the offset. -/
def restartAt (table : Bytes) (i : ℕ) : ℤ × OffsetInfo :=
  (int32At table (12 * i), ⟨int32At table (12 * i + 4), int32At table (12 * i + 8)⟩)

theorem int32At_append {pre rest : Bytes} {off : ℕ} {x : ℤ} (hoff : pre.length = off) :
    int32At (pre ++ (encodeFixed32 (toUInt32 x) ++ rest)) off = toInt32 x := by
  rw [int32At, fixed32At_append pre hoff (toUInt32_lt x), toInt32_toUInt32]

/-- An entry is read back, as far as it fits into `int`s. -/
theorem restartAt_append {es : List (ℤ × OffsetInfo)} {i : ℕ} {e : ℤ × OffsetInfo}
    (he : es[i]? = some e) (rest : Bytes) :
    restartAt (es.flatMap restartEntry ++ rest) i =
      (toInt32 e.1, ⟨toInt32 e.2.size, toInt32 e.2.offset⟩) := by
  obtain ⟨hi, hget⟩ := List.getElem?_eq_some_iff.mp he
  have hpre : ((es.take i).flatMap restartEntry).length = 12 * i := by
    rw [length_restartEntries, List.length_take, Nat.min_eq_left hi.le]
  have hsplit : es.flatMap restartEntry ++ rest = (es.take i).flatMap restartEntry ++
      (encodeFixed32 (toUInt32 e.1) ++ (encodeFixed32 (toUInt32 e.2.size) ++
        (encodeFixed32 (toUInt32 e.2.offset) ++
          ((es.drop (i + 1)).flatMap restartEntry ++ rest)))) := by
    conv_lhs => rw [← List.take_append_drop i es, List.drop_eq_getElem_cons hi, hget]
    simp [restartEntry_eq]
  rw [restartAt, hsplit, int32At_append hpre]
  refine Prod.ext rfl (OffsetInfo.mk.injEq .. |>.mpr ⟨?_, ?_⟩)
  · rw [← List.append_assoc]
    exact int32At_append (by simp [hpre])
  · rw [← List.append_assoc, ← List.append_assoc]
    exact int32At_append (by simp [hpre])

/-- **What the table says of group `i`**: where it is as far as `int`s can tell, and how many records
it has unless it is the last one and full. -/
theorem restartAt_restartTable {i : ℕ} (hi : i < groupNum pairs) :
    restartAt (restartTable pairs) i =
      (((if i + 1 < groupNum pairs then 16 else pairs.length % 16 : ℕ) : ℤ),
        ⟨toInt32 (groupStart pairs (i + 1) - groupStart pairs i), toInt32 (groupStart pairs i)⟩) := by
  have hentry : ((List.range (groupNum pairs)).map (groupEntry pairs))[i]? =
      some (groupEntry pairs i) := by
    rw [List.getElem?_map, List.getElem?_range hi, Option.map_some]
  rw [restartTable, restartAt_append hentry, groupEntry]
  refine Prod.ext ?_ (OffsetInfo.mk.injEq .. |>.mpr ⟨toInt32_sub_toInt32 _ _, toInt32_toInt32 _⟩)
  refine toInt32_of_lt ?_
  split_ifs <;> omega

theorem length_restartTable (pairs : List (Bytes × Bytes)) :
    (restartTable pairs).length = 12 * groupNum pairs + 4 := by
  rw [restartTable, List.length_append, length_restartEntries, List.length_map, List.length_range,
    length_encodeFixed32]

theorem int32At_restartTable (pairs : List (Bytes × Bytes)) :
    int32At (restartTable pairs) (12 * groupNum pairs) = toInt32 (groupNum pairs) := by
  rw [restartTable, ← List.append_nil (encodeFixed32 _)]
  exact int32At_append (by rw [length_restartEntries, List.length_map, List.length_range])

/-! ## When the table is right -/

/-- The table that `finish_data_block` appends to the records. -/
def appendedTable (pairs : List (Bytes × Bytes)) : Bytes :=
  (blockBytes pairs).drop (blockOf pairs).data.length

/-- The number of records stored in a range: those that start in it. -/
def recordsIn (pairs : List (Bytes × Bytes)) (o : OffsetInfo) : ℕ :=
  (List.range pairs.length).countP fun j =>
    o.offset ≤ recordStart pairs j ∧ recordStart pairs j < o.offset + o.size

/-- A table says where the records are: one entry for each group, ranges that tile the record bytes,
and the number of records in each. -/
structure RestartsRight (pairs : List (Bytes × Bytes)) (table : Bytes) : Prop where
  length : table.length = 12 * groupNum pairs + 4
  count : int32At table (12 * groupNum pairs) = groupNum pairs
  tiles : Tiles 0 (blockOf pairs).data.length ((List.range (groupNum pairs)).map fun i =>
    ((restartAt table i).2.offset, (restartAt table i).2.size))
  nums : ∀ i < groupNum pairs, (restartAt table i).1 = recordsIn pairs (restartAt table i).2
  positive : ∀ i < groupNum pairs, 0 < (restartAt table i).1
  sum : ((List.range (groupNum pairs)).map fun i => (restartAt table i).1).sum = pairs.length

theorem appendedTable_eq (hne : pairs ≠ []) (hkeys : ∀ p ∈ pairs, p.1 ≠ []) :
    appendedTable pairs = restartTable pairs := by
  rw [appendedTable, blockBytes_eq hne hkeys, (holds_blockOf hkeys).data, List.drop_left' rfl]

theorem countP_range_between (a b : ℕ) : ∀ n : ℕ,
    (List.range n).countP (fun j => a ≤ j ∧ j < b) = min b n - a
  | 0 => by simp
  | n + 1 => by
      rw [List.range_succ, List.countP_append, countP_range_between a b n, List.countP_singleton]
      simp only [decide_eq_true_eq]
      split_ifs <;> omega

/-- The records of a group. -/
theorem recordsIn_group (pairs : List (Bytes × Bytes)) (i : ℕ) :
    recordsIn pairs ⟨(groupStart pairs (i + 1) - groupStart pairs i : ℕ), groupStart pairs i⟩ =
      min (16 * (i + 1)) pairs.length - 16 * i := by
  have hmono : groupStart pairs i ≤ groupStart pairs (i + 1) := recordStart_mono pairs (by omega)
  rw [recordsIn, ← countP_range_between]
  refine List.countP_congr fun j hj => ?_
  rw [List.mem_range] at hj
  have hlow := recordStart_lt_iff hj (b := 16 * i)
  have hhigh := recordStart_lt_iff hj (b := 16 * (i + 1))
  rw [decide_eq_true_iff, decide_eq_true_iff]
  simp only [groupStart] at hmono ⊢
  omega

/-- The ranges of the table, as words. -/
theorem ranges_restartTable (pairs : List (Bytes × Bytes)) :
    (List.range (groupNum pairs)).map (fun i => ((restartAt (restartTable pairs) i).2.offset,
      (restartAt (restartTable pairs) i).2.size)) =
    (List.range' 0 (groupNum pairs)).map
      (wrapped (fun n : ℕ => toInt32 n) (groupStart pairs)) := by
  rw [← List.range_eq_range']
  refine List.map_congr_left fun i hi => ?_
  have hmono : groupStart pairs i ≤ groupStart pairs (i + 1) := recordStart_mono pairs (by omega)
  rw [restartAt_restartTable (List.mem_range.mp hi), wrapped, Nat.cast_sub hmono]

/-- The ranges tile exactly when they are `int`s. -/
theorem tiles_restartTable_iff (pairs : List (Bytes × Bytes)) :
    Tiles 0 (recordBytes pairs).length ((List.range (groupNum pairs)).map fun i =>
      ((restartAt (restartTable pairs) i).2.offset, (restartAt (restartTable pairs) i).2.size)) ↔
    ∀ i < groupNum pairs, groupStart pairs i < 2 ^ 31 ∧
      groupStart pairs (i + 1) - groupStart pairs i < 2 ^ 31 := by
  have hmono : Monotone (groupStart pairs) := fun i j hij => recordStart_mono pairs (by omega)
  have hzero : groupStart pairs 0 = 0 := rfl
  have hiff := tiles_wrap_iff (fun n => toInt32_le n) hmono (m := groupNum pairs) (a := 0)
  rw [Nat.zero_add, hzero, groupStart_groupNum, Nat.cast_zero] at hiff
  rw [ranges_restartTable, hiff]
  simp only [Nat.zero_le, forall_const, toInt32_eq_self]

/-- The sum of the record numbers up to the last group. -/
theorem sum_restartTable (pairs : List (Bytes × Bytes)) : ∀ {m : ℕ}, m < groupNum pairs →
    ((List.range m).map fun i => (restartAt (restartTable pairs) i).1).sum = (16 * m : ℕ)
  | 0, _ => rfl
  | m + 1, hm => by
      have ih := sum_restartTable pairs (Nat.lt_of_succ_lt hm)
      rw [List.range_succ, List.map_append, List.sum_append, ih, List.map_singleton,
        restartAt_restartTable (Nat.lt_of_succ_lt hm), if_pos hm, List.sum_singleton]
      omega

/-- A group that is where the table says has as many records as the table says. -/
theorem recordNum_restartTable {i : ℕ} (hmod : pairs.length % 16 ≠ 0) (hi : i < groupNum pairs)
    (hstart : groupStart pairs i < 2 ^ 31)
    (hsize : groupStart pairs (i + 1) - groupStart pairs i < 2 ^ 31) :
    (restartAt (restartTable pairs) i).1 = recordsIn pairs (restartAt (restartTable pairs) i).2 ∧
      0 < (restartAt (restartTable pairs) i).1 := by
  have hmono : groupStart pairs i ≤ groupStart pairs (i + 1) := recordStart_mono pairs (by omega)
  have hgroups : i ≤ (pairs.length - 1) / 16 := by
    rw [groupNum] at hi
    omega
  rw [restartAt_restartTable hi, ← Nat.cast_sub hmono, toInt32_of_lt hstart, toInt32_of_lt hsize,
    recordsIn_group, groupNum]
  split_ifs <;> omega

/-- **The restart table is right exactly when the last group is not full** and all groups start, and
are shorter, than `2 ^ 31` bytes. -/
theorem restartsRight_iff (hne : pairs ≠ []) (hkeys : ∀ p ∈ pairs, p.1 ≠ []) :
    RestartsRight pairs (appendedTable pairs) ↔ pairs.length % 16 ≠ 0 ∧
      ∀ i < groupNum pairs, groupStart pairs i < 2 ^ 31 ∧
        groupStart pairs (i + 1) - groupStart pairs i < 2 ^ 31 := by
  have hpos : 0 < pairs.length := List.length_pos_iff.mpr hne
  have hdata : (blockOf pairs).data = recordBytes pairs := (holds_blockOf hkeys).data
  obtain ⟨m, hm⟩ := Nat.exists_eq_succ_of_ne_zero (show groupNum pairs ≠ 0 by
    rw [groupNum]
    omega)
  rw [Nat.succ_eq_add_one] at hm
  have hgroups : m = (pairs.length - 1) / 16 := by
    rw [groupNum] at hm
    omega
  have hlast : (restartAt (restartTable pairs) m).1 = (pairs.length % 16 : ℕ) := by
    rw [restartAt_restartTable (by omega), if_neg (by omega)]
  rw [appendedTable_eq hne hkeys]
  constructor
  · intro h
    refine ⟨fun hmod => ?_, (tiles_restartTable_iff pairs).mp (hdata ▸ h.tiles)⟩
    have hpositive := h.positive m (by omega)
    rw [hlast, hmod] at hpositive
    exact lt_irrefl _ hpositive
  · rintro ⟨hmod, hfits⟩
    have hnums : ∀ i < groupNum pairs, _ := fun i hi =>
      recordNum_restartTable hmod hi (hfits i hi).1 (hfits i hi).2
    have hcount : groupNum pairs < 2 ^ 31 := by
      have hstart : groupStart pairs m < 2 ^ 31 := (hfits m (by omega)).1
      have hle : 16 * m ≤ groupStart pairs m := le_recordStart (by omega)
      omega
    refine ⟨length_restartTable pairs, ?_, ?_, fun i hi => (hnums i hi).1,
      fun i hi => (hnums i hi).2, ?_⟩
    · rw [int32At_restartTable, toInt32_of_lt hcount]
    · rw [hdata]
      exact (tiles_restartTable_iff pairs).mpr hfits
    · rw [hm, List.range_succ, List.map_append, List.sum_append, sum_restartTable pairs (by omega),
        List.map_singleton, List.sum_singleton, hlast]
      omega

/-- A block of a full group and one more record. -/
theorem restartsRight_iff_seventeen : ∃ pairs : List (Bytes × Bytes), pairs.length = 17 ∧
    RestartsRight pairs (appendedTable pairs) :=
  ⟨(List.range 17).map fun i => ([UInt8.ofNat (97 + i)], []), rfl,
    (restartsRight_iff (by decide) (by decide)).mpr ⟨by decide, by decide +kernel⟩⟩

/-- Every block with a pair in it has a right restart table. -/
def RestartTablesRight : Prop :=
  ∀ pairs : List (Bytes × Bytes), pairs ≠ [] → (∀ p ∈ pairs, p.1 ≠ []) →
    RestartsRight pairs (appendedTable pairs)

/-- **A group of sixteen records at the end of a block counts none.** -/
theorem not_restartTablesRight : ¬ RestartTablesRight := by
  intro h
  let pairs : List (Bytes × Bytes) := (List.range 16).map fun i => ([UInt8.ofNat (97 + i)], [])
  have hkeys : ∀ p ∈ pairs, p.1 ≠ [] := by decide
  have hright := h pairs (by decide) hkeys
  rw [appendedTable_eq (by decide) hkeys] at hright
  have hpositive := hright.positive 0 (by decide)
  rw [restartAt_restartTable (by decide)] at hpositive
  exact absurd hpositive (by decide)

end SmallKV

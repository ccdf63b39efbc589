import SmallKV.Table.Index
import SmallKV.Table.Restarts

/-!
# Table/Aborts — when writing a table fails an assertion

`add` asks `find_shortest_key` for a separator between the last key and the new one when a block is
full.  When the first record alone fills a block there is no last key, and the assertion fails.
After that all keys are in order, the file is open, and the index is not empty and too short for its
length to be lost in an `int`, so no assertion fails (`build_ne_assertion_iff`).
-/

namespace SmallKV

open SSTableBuilder

variable {pairs : List (Bytes × Bytes)}

/-! ## How long an index is -/

/-- The bytes of the keys and values of some records. -/
def payload (records : List (Bytes × Bytes)) : ℕ :=
  (records.map fun r => r.1.length + r.2.length).sum

@[simp] theorem payload_append (ps qs : List (Bytes × Bytes)) :
    payload (ps ++ qs) = payload ps + payload qs := by
  simp [payload]

@[simp] theorem payload_singleton (p : Bytes × Bytes) : payload [p] = p.1.length + p.2.length := by
  simp [payload]

theorem length_recordBytes_le (records : List (Bytes × Bytes)) :
    (recordBytes records).length ≤ 12 * records.length + payload records := by
  induction records using List.reverseRecOn with
  | nil => exact Nat.zero_le _
  | append_singleton records r ih =>
    rw [recordBytes_concat, List.length_append, RecordState.length_record, payload_append,
      payload_singleton, List.length_append, List.length_singleton]
    omega

theorem length_le_payload (hkeys : ∀ p ∈ pairs, p.1 ≠ []) : pairs.length ≤ payload pairs := by
  induction pairs with
  | nil => exact Nat.zero_le _
  | cons p pairs ih =>
    have hrest := ih fun q hq => hkeys q (List.mem_cons_of_mem p hq)
    have hkey := List.length_pos_iff.mpr (hkeys p List.mem_cons_self)
    rw [payload, List.map_cons, List.sum_cons, List.length_cons]
    rw [payload] at hrest
    omega

theorem length_lastKey_le_payload (records : List (Bytes × Bytes)) :
    (lastKey records).length ≤ payload records := by
  rcases List.eq_nil_or_concat records with rfl | ⟨init, r, rfl⟩
  · exact Nat.zero_le _
  · rw [List.concat_eq_append, lastKey_concat, payload_append, payload_singleton]
    omega

/-- A full block holds many bytes of keys and values. -/
theorem lt_payload_of_full (hkeys : ∀ p ∈ pairs, p.1 ≠ [])
    (hfull : maxDataBlockSize < (blockOf pairs).size) : 104 ≤ payload pairs := by
  have hle := length_recordBytes_le pairs
  have hnum := length_le_payload hkeys
  have hmax : maxDataBlockSize = 4096 := rfl
  rw [size_blockOf hkeys] at hfull
  omega

theorem length_indexBytes_concat (entries : List (Bytes × OffsetInfo)) (e : Bytes × OffsetInfo) :
    (indexBytes (entries ++ [e])).length = (indexBytes entries).length + (12 + e.1.length) := by
  rw [indexBytes_concat, List.length_append, IndexBlockBuilder.add, putFixed64, putFixed32]
  simp only [List.length_append, length_encodeFixed32, length_encodeFixed64, List.length_nil]
  omega

/-- The entries that `add` makes take little more than the keys and values of their blocks. -/
theorem length_closedEntries_le (closed : List (List (Bytes × Bytes)))
    (hclosed : ∀ records ∈ closed, records ≠ [] ∧ 104 ≤ payload records) :
    8 * (indexBytes (closedEntries closed)).length ≤ 9 * payload closed.flatten := by
  induction closed using List.reverseRecOn with
  | nil => exact Nat.zero_le _
  | append_singleton closed records ih =>
    have hrest := ih fun r hr => hclosed r (List.mem_append_left _ hr)
    obtain ⟨hne, hmany⟩ := hclosed records (by simp)
    have hsep : (closedEntry (closed ++ [records])).1.length ≤ payload records + 1 := by
      have hlast := length_lastKey_le_payload records
      have hright := length_shortestKey_le_right
        (lastKey (closed ++ [records]).flatten.dropLast) (lastKey (closed ++ [records]).flatten)
      rw [List.flatten_concat, lastKey_append hne] at hright
      rw [closedEntry, List.flatten_concat, lastKey_append hne]
      dsimp only
      omega
    rw [closedEntries_concat, length_indexBytes_concat, List.flatten_concat, payload_append]
    omega

/-- **The length of an index fits into 32 bits**, when the keys and values have less than `2 ^ 31`
bytes. -/
theorem length_indexEntries_lt (hkeys : ∀ p ∈ pairs, p.1 ≠ []) (htotal : payload pairs < 2 ^ 31) :
    (indexBytes (indexEntries (Split.ofPairs pairs))).length < 2 ^ 32 := by
  have hcuts := cuts_ofPairs_of_keys hkeys
  have htight := Split.tight_ofPairs pairs
  set s := Split.ofPairs pairs
  have hclosed : ∀ records ∈ s.closed, records ≠ [] ∧ 104 ≤ payload records := by
    intro records hmem
    refine ⟨hcuts.nonempty records hmem, lt_payload_of_full (fun p hp => hkeys p ?_)
      (htight.full records hmem)⟩
    rw [← hcuts.flatten]
    exact List.mem_append_left _ (List.mem_flatten.mpr ⟨records, hmem, hp⟩)
  have hle := length_closedEntries_le s.closed hclosed
  rw [← hcuts.flatten, payload_append] at htotal
  rw [indexEntries]
  by_cases hnil : s.current = []
  · rw [if_pos hnil, List.append_nil]
    omega
  · have hlast : (lastEntry s).1.length ≤ payload s.current := by
      rw [lastEntry, lastKey_append hnil]
      exact (length_bump_le _).trans (length_lastKey_le_payload s.current)
    rw [if_neg hnil, length_indexBytes_concat]
    omega

/-! ## Adding -/

variable {b : SSTableBuilder}

/-- Writing a block returns, or the block is too long for an `int`. -/
theorem writeDataBlock_cases (hopen : b.fileWriter.opened = true) :
    (∃ w : FileWriter, w.opened = true ∧ b.writeDataBlock =
      .ok { b with dataBlockBuilder := b.dataBlockBuilder.finishDataBlock, fileWriter := w }) ∨
    b.writeDataBlock = .error .outOfBounds ∧
      toInt32 b.dataBlockBuilder.finishDataBlock.data.length < 0 := by
  rw [writeDataBlock]
  dsimp only
  rcases FileWriter.append_toInt32 hopen b.dataBlockBuilder.finishDataBlock.data with
    ⟨w, hrun, hopened⟩ | ⟨hrun, hneg⟩
  · exact Or.inl ⟨w, hopened, by rw [hrun]; rfl⟩
  · exact Or.inr ⟨by rw [hrun]; rfl, hneg⟩

/-- **A block is closed behind the last key** without a failed assertion. -/
theorem closeFull_cases {key : Bytes} (hopen : b.fileWriter.opened = true) (hne : b.preKey ≠ [])
    (hlt : b.preKey < key) :
    (∃ b₁, b.closeFull key = .ok b₁ ∧ b₁.fileWriter.opened = true) ∨
      b.closeFull key = .error .outOfBounds := by
  rw [SSTableBuilder.closeFull]
  split_ifs
  · rcases writeDataBlock_cases hopen with ⟨w, hopened, hrun⟩ | ⟨hrun, -⟩
    · have hkey : key ≠ [] := by
        rintro rfl
        exact absurd hlt (List.not_lt_nil _)
      have hsep := findShortestKey_eq_ok.mpr ⟨hne, hkey, hlt, rfl⟩
      refine Or.inl ⟨_, by rw [hrun, ok_bind]; exact (congrArg (· >>= _) hsep).trans rfl, hopened⟩
    · exact Or.inr (by rw [hrun]; rfl)
  · exact Or.inl ⟨b, rfl, hopen⟩

theorem add_cases {pair : Bytes × Bytes} (hopen : b.fileWriter.opened = true) (hne : b.preKey ≠ [])
    (hlt : b.preKey < pair.1) :
    (∃ b₁, b.add pair.1 pair.2 = .ok (.success, b₁) ∧ b₁.fileWriter.opened = true ∧
      b₁.preKey = pair.1) ∨ b.add pair.1 pair.2 = .error .outOfBounds := by
  have hkey : ¬ pair.1.isEmpty = true := by
    intro hempty
    rw [List.isEmpty_iff.mp hempty] at hlt
    exact absurd hlt (List.not_lt_nil _)
  have hopen' : (b.addRecord pair.1 pair.2).fileWriter.opened = true := hopen
  rw [add_of_not_isEmpty b hkey]
  rcases closeFull_cases hopen' hne hlt with ⟨b₁, hrun, hopened⟩ | hrun
  · exact Or.inl ⟨{ b₁ with preKey := pair.1 }, by rw [hrun]; rfl, hopened, rfl⟩
  · exact Or.inr (by rw [hrun]; rfl)

/-- **Keys behind a last key are added** without a failed assertion. -/
theorem addAll_cases : ∀ {pairs : List (Bytes × Bytes)} {b : SSTableBuilder},
    b.fileWriter.opened = true → b.preKey ≠ [] → (b.preKey :: pairs.map Prod.fst).Pairwise (· < ·) →
      (∃ b₁, b.addAll pairs = .ok b₁ ∧ b₁.fileWriter.opened = true) ∨
        b.addAll pairs = .error .outOfBounds
  | [], b, hopen, _, _ => Or.inl ⟨b, rfl, hopen⟩
  | pair :: pairs, b, hopen, hne, hsorted => by
      rw [List.map_cons, List.pairwise_cons] at hsorted
      have hlt : b.preKey < pair.1 := hsorted.1 _ List.mem_cons_self
      rcases add_cases hopen hne hlt with ⟨b₁, hrun, hopened, hpre⟩ | hrun
      · have hne₁ : b₁.preKey ≠ [] := by
          rw [hpre]
          rintro hnil
          rw [hnil] at hlt
          exact absurd hlt (List.not_lt_nil _)
        have hrest : b.addAll (pair :: pairs) = b₁.addAll pairs := by
          rw [SSTableBuilder.addAll, hrun]
          rfl
        rw [hrest]
        exact addAll_cases hopened hne₁ (hpre ▸ hsorted.2)
      · exact Or.inr (by rw [SSTableBuilder.addAll, hrun]; rfl)

/-! ## Finishing -/

theorem incrementBack_ne_assertion (key : Bytes) : incrementBack key ≠ .error .assertion := by
  rw [incrementBack]
  exact bind_ne_error (orFault_ne_error (by decide)) fun _ _ => ok_ne_error

theorem finishDataBlocks_ne_assertion (hopen : b.fileWriter.opened = true) :
    b.finishDataBlocks ≠ .error .assertion := by
  rw [SSTableBuilder.finishDataBlocks]
  split_ifs
  · rcases writeDataBlock_cases hopen with ⟨w, -, hrun⟩ | ⟨hrun, -⟩
    · rw [hrun, ok_bind]
      exact bind_ne_error (incrementBack_ne_assertion _) fun _ _ => ok_ne_error
    · rw [hrun]
      simp
  · exact ok_ne_error

theorem opened_of_finishDataBlocks {b₁ : SSTableBuilder} (hopen : b.fileWriter.opened = true)
    (h : b.finishDataBlocks = .ok b₁) : b₁.fileWriter.opened = true := by
  rw [SSTableBuilder.finishDataBlocks] at h
  split_ifs at h
  · rcases writeDataBlock_cases hopen with ⟨w, hopened, hrun⟩ | ⟨hrun, -⟩
    · rw [hrun, ok_bind] at h
      obtain ⟨preKey, -, hb⟩ := bind_eq_ok.mp h
      obtain rfl := Except.ok.inj hb
      exact hopened
    · rw [hrun] at h
      cases h
  · obtain rfl := Except.ok.inj h
    exact hopen

/-- The filter divides by zero at worst. -/
theorem setBits_ne_assertion (delta : UInt32) : ∀ (n : ℕ) (h : UInt32) (bits : Bytes),
    BloomFilter.setBits delta n h bits ≠ .error .assertion
  | 0, _, _ => ok_ne_error
  | n + 1, h, bits => by
      have hpos : BloomFilter.bitPos bits h ≠ .error .assertion :=
        bind_ne_error (require_ne_error (by decide)) fun _ _ => ok_ne_error
      exact bind_ne_error hpos fun _ _ => setBits_ne_assertion delta n _ _

theorem createFilter_ne_assertion : ∀ (keys : List Bytes) (f : BloomFilter),
    f.createFilter keys ≠ .error .assertion
  | [], _ => ok_ne_error
  | key :: keys, f => by
      have hkey : f.insertKey key ≠ .error .assertion :=
        bind_ne_error (setBits_ne_assertion _ _ _ _) fun _ _ => ok_ne_error
      exact bind_ne_error hkey fun f' _ => createFilter_ne_assertion keys f'

theorem finishFilterBlock_ne_assertion (f : FilterBlockBuilder) :
    f.finishFilterBlock ≠ .error .assertion := by
  refine bind_ne_error ?_ fun _ _ => ok_ne_error
  rw [FilterBlockBuilder.createFilter]
  split_ifs
  · exact ok_ne_error
  · exact bind_ne_error (createFilter_ne_assertion _ _) fun _ _ => ok_ne_error

theorem new_ne_assertion (sizing : BloomSizing) (keysNum : ℤ) (w : FileWriter) :
    SSTableBuilder.new sizing keysNum w ≠ .error .assertion := by
  have hfilter : BloomFilter.new sizing keysNum ≠ .error .assertion := by
    rw [BloomFilter.new]
    exact bind_ne_error (require_ne_error (by decide)) fun _ _ =>
      bind_ne_error (require_ne_error (by decide)) fun _ _ => ok_ne_error
  exact bind_ne_error (bind_ne_error hfilter fun _ _ => ok_ne_error) fun _ _ => ok_ne_error

theorem append_ne_assertion {w : FileWriter} (hopen : w.opened = true) (data : Bytes) :
    w.append data (toInt32 data.length) false ≠ .error .assertion := by
  rcases FileWriter.append_toInt32 hopen data with ⟨w', hrun, -⟩ | ⟨hrun, -⟩
  · rw [hrun]
    exact ok_ne_error
  · rw [hrun]
    simp

/-- **The tail is written without a failed assertion** when the index is not empty and its length
fits into 32 bits: a length that is not positive as an `int` is negative, and the copy fails first. -/
theorem writeTail_ne_assertion (hopen : b.fileWriter.opened = true)
    (hpos : 0 < b.indexData.length) (hlt : b.indexData.length < 2 ^ 32) (filter : Bytes)
    (offset : OffsetInfo) : b.writeTail filter offset ≠ .error .assertion := by
  refine bind_ne_error (append_ne_assertion hopen filter) fun r₁ h₁ => ?_
  obtain ⟨status₁, w₁⟩ := r₁
  have hopen₁ : w₁.opened = true := (FileWriter.append_eq_ok hopen h₁).1
  refine bind_ne_error (append_ne_assertion hopen₁ b.indexData) fun r₂ h₂ => ?_
  obtain ⟨status₂, w₂⟩ := r₂
  have hopen₂ : w₂.opened = true := (FileWriter.append_eq_ok hopen₁ h₂).1
  have hindex : 0 < toInt32 b.indexData.length := by
    have hnonneg : 0 ≤ toInt32 b.indexData.length := by
      by_contra hneg
      exact FileWriter.append_of_neg (lt_of_not_ge hneg) false _ h₂
    rw [toInt32] at hnonneg ⊢
    omega
  dsimp only
  rw [decide_eq_true hindex, require_true, ok_bind]
  refine bind_ne_error (append_ne_assertion hopen₂ _) fun r₃ h₃ => ?_
  obtain ⟨status₃, w₃⟩ := r₃
  obtain ⟨w₄, hflush, -, hopen₄, -⟩ :=
    FileWriter.sync_spec (FileWriter.append_eq_ok hopen₂ h₃).1
  obtain ⟨w₅, hclose, -⟩ := FileWriter.close_spec hopen₄
  have hflush' : w₃.flush = .ok w₄ := hflush
  rw [hflush', ok_bind, hclose]
  exact ok_ne_error

theorem finishSst_ne_assertion {sizing : BloomSizing} (hopen : b.fileWriter.opened = true)
    (hindex : ∀ b₁, b.finishDataBlocks = .ok b₁ →
      0 < b₁.indexData.length ∧ b₁.indexData.length < 2 ^ 32) :
    b.finishSst sizing ≠ .error .assertion := by
  rw [finishSst_eq]
  refine bind_ne_error (finishDataBlocks_ne_assertion hopen) fun b₁ hb₁ => ?_
  obtain ⟨hpos, hlt⟩ := hindex b₁ hb₁
  refine bind_ne_error (finishFilterBlock_ne_assertion _) fun f _ =>
    bind_ne_error (finishFilterBlock_ne_assertion f) fun f' _ =>
      bind_ne_error (writeTail_ne_assertion (opened_of_finishDataBlocks hopen hb₁) hpos hlt _ _)
        fun w _ => bind_ne_error (new_ne_assertion sizing _ w) fun _ _ => ok_ne_error

/-! ## The whole table -/

/-- `add` for each of the pairs, then `finish_sst`. -/
def build (sizing : BloomSizing) (b : SSTableBuilder) (pairs : List (Bytes × Bytes)) :
    Exec (DBStatus × SSTableBuilder) := do
  let b ← b.addAll pairs
  b.finishSst sizing

variable {sizing : BloomSizing} {keysNum : ℤ} {w : FileWriter}

theorem length_blockBytes_singleton {p : Bytes × Bytes} (hkey : p.1 ≠ []) :
    (blockBytes [p]).length = 28 + p.1.length + p.2.length := by
  rw [blockBytes_eq (by simp) (by simpa using hkey), List.length_append, length_restartTable,
    length_recordBytes_singleton, groupNum_singleton]
  omega

/-- An index of some pairs is not empty. -/
theorem length_indexEntries_pos (hne : pairs ≠ []) (hkeys : ∀ p ∈ pairs, p.1 ≠ []) :
    0 < (indexBytes (indexEntries (Split.ofPairs pairs))).length := by
  have hentries : indexEntries (Split.ofPairs pairs) ≠ [] := by
    intro hnil
    rw [indexEntries, List.append_eq_nil_iff, closedEntries, List.map_eq_nil_iff,
      List.range_eq_nil, List.length_eq_zero_iff] at hnil
    obtain ⟨hclosed, hlast⟩ := hnil
    have hflatten := (cuts_ofPairs_of_keys hkeys).flatten
    split_ifs at hlast with hcurrent
    rw [hclosed, hcurrent] at hflatten
    exact hne hflatten.symm
  obtain ⟨init, e, hconcat⟩ := (List.eq_nil_or_concat _).resolve_left hentries
  rw [hconcat, List.concat_eq_append, length_indexBytes_concat]
  omega

/-- The first record is the only one of its block. -/
theorem addRecord_first {p : Bytes × Bytes} (hnew : SSTableBuilder.new sizing keysNum w = .ok b)
    (hkey : p.1 ≠ []) : (b.addRecord p.1 p.2).dataBlockBuilder = blockOf [p] ∧
      (b.addRecord p.1 p.2).dataBlockBuilder.size = 12 + p.1.length + p.2.length := by
  have hblock : (b.addRecord p.1 p.2).dataBlockBuilder = blockOf [p] := by
    rw [SSTableBuilder.addRecord, (indexed_new hnew).block]
    rfl
  refine ⟨hblock, ?_⟩
  rw [hblock, size_blockOf (by simpa using hkey), length_recordBytes_singleton]

/-- The first record does not fill a block: the other pairs are added behind its key. -/
theorem addAll_of_first_small {p : Bytes × Bytes} {ps : List (Bytes × Bytes)}
    (hnew : SSTableBuilder.new sizing keysNum w = .ok b) (hkey : p.1 ≠ [])
    (hsmall : ¬ maxDataBlockSize < 12 + p.1.length + p.2.length) :
    b.addAll (p :: ps) =
      ({ b.addRecord p.1 p.2 with preKey := p.1 } : SSTableBuilder).addAll ps := by
  have hadd : b.add p.1 p.2 = .ok (.success, { b.addRecord p.1 p.2 with preKey := p.1 }) := by
    rw [add_of_not_isEmpty b (by simpa using hkey), SSTableBuilder.closeFull,
      (addRecord_first hnew hkey).2, if_neg hsmall]
    rfl
  rw [SSTableBuilder.addAll, hadd]
  rfl

/-- The first record fills a block: there is no key before it. -/
theorem addAll_of_first_full {p : Bytes × Bytes} {ps : List (Bytes × Bytes)}
    (hnew : SSTableBuilder.new sizing keysNum w = .ok b) (hopen : b.fileWriter.opened = true)
    (hkey : p.1 ≠ []) (hfull : maxDataBlockSize < 12 + p.1.length + p.2.length)
    (hsmall : 28 + p.1.length + p.2.length < 2 ^ 32) :
    b.addAll (p :: ps) = .error (if 28 + p.1.length + p.2.length < 2 ^ 31 then .assertion
      else .outOfBounds) := by
  have hpre : (b.addRecord p.1 p.2).preKey = [] := (indexed_new hnew).preKey
  obtain ⟨hblock, hsize⟩ := addRecord_first (p := p) hnew hkey
  have hdata : (b.addRecord p.1 p.2).dataBlockBuilder.finishDataBlock.data = blockBytes [p] := by
    rw [hblock, blockBytes]
  have hlen := length_blockBytes_singleton hkey
  have hclose : (b.addRecord p.1 p.2).closeFull p.1 = .error
      (if 28 + p.1.length + p.2.length < 2 ^ 31 then .assertion else .outOfBounds) := by
    rw [SSTableBuilder.closeFull, hsize, if_pos hfull]
    have hopen' : (b.addRecord p.1 p.2).fileWriter.opened = true := hopen
    split_ifs with hfits
    · rcases writeDataBlock_cases hopen' with ⟨w', -, hrun⟩ | ⟨-, hneg⟩
      · have hsep : findShortestKey [] p.1 = .error .assertion := rfl
        rw [hrun, ok_bind]
        dsimp only [SSTableBuilder.advance]
        rw [hpre, hsep]
        rfl
      · rw [hdata, hlen, toInt32_of_lt hfits] at hneg
        exact absurd hneg (by omega)
    · have hneg : toInt32 (blockBytes [p]).length < 0 := by
        rw [hlen, toInt32]
        omega
      rw [writeDataBlock]
      dsimp only
      rw [hdata, FileWriter.append_eq_error_of_neg hneg]
      rfl
  rw [SSTableBuilder.addAll, add_of_not_isEmpty b (by simpa using hkey), hclose]
  rfl

/-- **Writing a table fails an assertion exactly when the first record is over the limit of a
block**, unless its block is too long for an `int`: then the copy fails before. -/
theorem build_ne_assertion_iff {p : Bytes × Bytes} {ps : List (Bytes × Bytes)}
    (hnew : SSTableBuilder.new sizing keysNum w = .ok b) (hopen : w.opened = true)
    (hkeys : ∀ q ∈ p :: ps, q.1 ≠ []) (hsorted : (p :: ps).Pairwise fun q r => q.1 < r.1)
    (htotal : payload (p :: ps) < 2 ^ 31) :
    build sizing b (p :: ps) ≠ .error .assertion ↔
      12 + p.1.length + p.2.length ≤ maxDataBlockSize ∨ 2 ^ 31 ≤ 28 + p.1.length + p.2.length := by
  have hkey : p.1 ≠ [] := hkeys p List.mem_cons_self
  have hopenb : b.fileWriter.opened = true := fileWriter_new hnew ▸ hopen
  have hfirst : p.1.length + p.2.length < 2 ^ 31 := by
    rw [payload, List.map_cons, List.sum_cons] at htotal
    omega
  by_cases hfull : maxDataBlockSize < 12 + p.1.length + p.2.length
  · have hrun : build sizing b (p :: ps) = .error
        (if 28 + p.1.length + p.2.length < 2 ^ 31 then .assertion else .outOfBounds) := by
      rw [build, addAll_of_first_full hnew hopenb hkey hfull (by omega)]
      rfl
    rw [hrun, or_iff_right (Nat.not_le.mpr hfull)]
    split_ifs with hfits
    · exact iff_of_false (fun h => h rfl) (Nat.not_le.mpr hfits)
    · exact iff_of_true (by simp) (Nat.le_of_not_lt hfits)
  · refine iff_of_true ?_ (Or.inl (Nat.le_of_not_lt hfull))
    have hrest : b.addAll (p :: ps) = _ := addAll_of_first_small hnew hkey hfull
    have hsorted' : (p.1 :: ps.map Prod.fst).Pairwise (· < ·) :=
      List.pairwise_map.mpr hsorted
    rcases addAll_cases (b := { b.addRecord p.1 p.2 with preKey := p.1 }) hopenb hkey hsorted' with
      ⟨b', hrun, hopened⟩ | hrun
    · rw [build, hrest, hrun, ok_bind]
      refine finishSst_ne_assertion hopened fun b₁ hb₁ => ?_
      rw [(index_of_addAll hkeys hnew (hrest.trans hrun) hb₁).1]
      exact ⟨length_indexEntries_pos (by simp) hkeys, length_indexEntries_lt hkeys htotal⟩
    · rw [build, hrest, hrun]
      simp

/-- A table of three small pairs. -/
theorem build_ne_assertion_iff_three : ∃ b, SSTableBuilder.new .percent 3 (.new [] true) = .ok b ∧
    build .percent b [([107], [97]), ([107, 1], []), ([108], [98])] ≠ .error .assertion := by
  obtain ⟨b, hnew⟩ : ∃ b, SSTableBuilder.new .percent 3 (.new [] true) = .ok b := ⟨_, rfl⟩
  exact ⟨b, hnew, (build_ne_assertion_iff hnew rfl (by decide) (by decide) (by decide)).mpr
    (Or.inl (by decide))⟩

/-- Writing a table of ascending keys fails no assertion. -/
def BuildsWithoutAborting : Prop :=
  ∀ (sizing : BloomSizing) (keysNum : ℤ) (w : FileWriter) (b : SSTableBuilder)
    (pairs : List (Bytes × Bytes)), SSTableBuilder.new sizing keysNum w = .ok b →
    w.opened = true → pairs ≠ [] → (∀ p ∈ pairs, p.1 ≠ []) →
    pairs.Pairwise (fun p q => p.1 < q.1) → payload pairs < 2 ^ 31 →
    build sizing b pairs ≠ .error .assertion

/-- **A first record over the limit of a block fails the assertion of `find_shortest_key`.** -/
theorem not_buildsWithoutAborting : ¬ BuildsWithoutAborting := by
  intro h
  obtain ⟨value, hlen⟩ : ∃ value : Bytes, value.length = 4096 :=
    ⟨List.replicate 4096 0, List.length_replicate⟩
  obtain ⟨b, hnew⟩ : ∃ b, SSTableBuilder.new .percent 1 (.new [] true) = .ok b := ⟨_, rfl⟩
  have hopen : b.fileWriter.opened = true := fileWriter_new hnew ▸ rfl
  have hadd : b.addAll [([97], value)] = .error _ :=
    addAll_of_first_full hnew hopen (by simp) (by simp [hlen, maxDataBlockSize]) (by simp [hlen])
  refine h .percent 1 _ b [([97], value)] hnew rfl (by simp) (by simp) (by simp)
    (by simp [payload, hlen]) ?_
  rw [build, hadd, if_pos (by simp [hlen])]
  rfl

end SmallKV

import SmallKV.Sstparser.FilterReload
import SmallKV.Table.Restarts
import Mathlib.Data.List.SplitLengths

/-!
# Sstparser/WholeTable — the pairs of a table, read back from the file

`Parse` reads the footer and the index as they were written, and it is what it does next that fails.
A reader that goes on from the index finds everything: the sizes in the index, unlike its offsets,
cut the file into its data blocks, the number at the end of a block says where the records end, and
these are read back one by one.  So a finished table loses no pair, in whatever way the pairs were
cut into blocks and their keys were shortened (`readTable_finishSst`).
-/

namespace SmallKV

/-! ## The reader -/

/-- The pairs of a data block.  Its last number is that of the restart points, which stand behind
the records. -/
def readBlock (block : Bytes) : Option (List (Bytes × Bytes)) :=
  decodeRecords (block.take
    (block.length - 4 - 12 * (int32At block (block.length - 4)).toNat))

open SSTParser

/-- Steps 1 and 2 of `Parse`: the place of the index, and its entries. -/
def readIndex (file : Bytes) : Exec (List IndexBlock) := do
  let o ← loadOffsetInfo file (.content (file.length - 8))
  parseIndex file (toInt32 (o.offset + o.size)) (file.length + 1) o.offset []

/-- The pairs of a table file, block by block. -/
def readTable (file : Bytes) : Option (List (Bytes × Bytes)) := do
  let index ← (readIndex file).toOption
  let blocks := (index.map fun e => e.offsetInfo.size.toNat).splitLengths file
  return (← blocks.mapM readBlock).flatten

/-! ## Blocks -/

variable {pairs : List (Bytes × Bytes)}

/-- A key and a value take no more bytes than the records. -/
theorem length_le_recordBytes {pair : Bytes × Bytes} (hmem : pair ∈ pairs) :
    pair.1.length ≤ (recordBytes pairs).length ∧ pair.2.length ≤ (recordBytes pairs).length := by
  obtain ⟨before, after, rfl⟩ := List.append_of_mem hmem
  rw [List.append_cons]
  have hupto : (recordBytes (before ++ [pair])).length ≤
      (recordBytes (before ++ [pair] ++ after)).length := by
    rw [recordBytes, recordBytes, encodeFrom_append (before ++ [pair]), List.length_append]
    exact Nat.le_add_right _ _
  have hkey := length_lastKey_le (before ++ [pair])
  rw [lastKey_concat] at hkey
  refine ⟨hkey.trans hupto, le_trans ?_ hupto⟩
  rw [recordBytes_concat, List.length_append, RecordState.length_record]
  omega

/-- **A data block is read back.** -/
theorem readBlock_blockBytes (hne : pairs ≠ []) (hkeys : ∀ p ∈ pairs, p.1 ≠ [])
    (hlt : (blockBytes pairs).length < 2 ^ 31) : readBlock (blockBytes pairs) = some pairs := by
  have hblock := blockBytes_eq hne hkeys
  have hlen : (blockBytes pairs).length = (recordBytes pairs).length + (12 * groupNum pairs + 4) := by
    rw [hblock, List.length_append, length_restartTable]
  have hnum : int32At (blockBytes pairs) ((blockBytes pairs).length - 4) = groupNum pairs := by
    have htail : blockBytes pairs = (recordBytes pairs ++
        ((List.range (groupNum pairs)).map (groupEntry pairs)).flatMap restartEntry) ++
          (encodeFixed32 (toUInt32 (groupNum pairs)) ++ []) := by
      rw [hblock, restartTable, List.append_nil, List.append_assoc]
    rw [hlen, htail, int32At_append, toInt32_of_lt (by omega)]
    rw [List.length_append, length_restartEntries, List.length_map, List.length_range]
    omega
  have hrecords : (blockBytes pairs).take ((blockBytes pairs).length - 4 -
      12 * (groupNum pairs : ℤ).toNat) = recordBytes pairs := by
    rw [hlen, hblock, List.take_left' (by rw [Int.toNat_natCast]; omega)]
  rw [readBlock, hnum, hrecords]
  refine decodeRecords_encodeFrom fun p hp => ?_
  have hle := length_le_recordBytes hp
  exact ⟨by omega, by omega⟩

/-! ## Cutting the file -/

/-- Lists in a row, with anything behind them, are cut where they were put together. -/
theorem splitLengths_flatten_append {α : Type} (rest : List α) : ∀ xss : List (List α),
    (xss.map List.length).splitLengths (xss.flatten ++ rest) = xss
  | [] => rfl
  | xs :: xss => by
      rw [List.map_cons, List.splitLengths_cons, List.flatten_cons, List.append_assoc,
        List.take_left, List.drop_left, splitLengths_flatten_append rest xss]

/-- What is read back item by item. -/
theorem mapM_map_eq_some {α β : Type} {enc : α → β} {dec : β → Option α} : ∀ xs : List α,
    (∀ x ∈ xs, dec (enc x) = some x) → (xs.map enc).mapM dec = some xs
  | [], _ => rfl
  | x :: xs, h => by
      rw [List.map_cons, List.mapM_cons, h x List.mem_cons_self,
        mapM_map_eq_some xs fun y hy => h y (List.mem_cons_of_mem x hy)]
      rfl

/-- **The index has the sizes of the blocks**, in their order. -/
theorem sizes_indexEntries (s : Split) : (indexEntries s).map (fun e => e.2.size) =
    s.blocks.map fun records => toInt32 (blockBytes records).length := by
  have hclosed : ∀ closed : List (List (Bytes × Bytes)),
      (closedEntries closed).map (fun e => e.2.size) =
        closed.map fun records => toInt32 (blockBytes records).length := by
    intro closed
    induction closed using List.reverseRecOn with
    | nil => rfl
    | append_singleton closed records ih =>
      rw [closedEntries_concat, List.map_append, ih, List.map_append]
      simp [closedEntry]
  rw [indexEntries, List.map_append, hclosed, Split.blocks]
  by_cases hnil : s.current = []
  · simp [hnil]
  · simp [hnil, lastEntry]

variable {data : Bytes} {filter : BloomFilter} {entries : List (Bytes × OffsetInfo)}

/-- **The index of a table file is read back.** -/
theorem readIndex_tableFile (hsmall : (tableFile data filter entries).length < 2 ^ 31) :
    readIndex (tableFile data filter entries) = .ok (entries.map toBlock) := by
  have hlen := length_tableFile data filter entries
  have hfooter : tableFile data filter entries = (data ++ (filterBytes filter ++
      indexBytes entries)) ++ footerOf data.length filter entries := by
    simp only [tableFile, List.append_assoc]
  have hbody : tableFile data filter entries = (data ++ filterBytes filter) ++
      (indexBytes entries ++ footerOf data.length filter entries) := by
    simp only [tableFile, List.append_assoc]
  obtain ⟨-, hindex⟩ := loadOffsetInfo_footer _ hfooter
  have hle := length_le_indexBytes entries
  have hstop : (data ++ filterBytes filter).length + (indexBytes entries).length < 2 ^ 31 := by
    rw [List.length_append]
    omega
  have hblocks : parseIndex (tableFile data filter entries)
      ((data ++ filterBytes filter).length + (indexBytes entries).length : ℕ)
      ((tableFile data filter entries).length + 1) (data ++ filterBytes filter).length [] =
        .ok ([] ++ entries.map toBlock) := parseIndex_indexBytes hstop hbody rfl (by omega)
  have hplace : loadOffsetInfo (tableFile data filter entries)
      (.content ((tableFile data filter entries).length - 8)) =
        .ok ⟨(indexBytes entries).length, (data ++ filterBytes filter).length⟩ := by
    rw [hindex, toInt32_of_lt (by omega), List.length_append, ← Nat.cast_add,
      toInt32_of_lt (by omega)]
  rw [readIndex, hplace, ok_bind, ← Nat.cast_add, toInt32_of_lt hstop, hblocks, List.nil_append]

/-- **A table file is read back**, whatever its filter is. -/
theorem readTable_tableFile {s : Split} (hkeys : ∀ r ∈ s.blocks.flatten, hasKey r = true)
    (hne : ∀ records ∈ s.blocks, records ≠ [])
    (hsmall : (tableFile (dataBytes s.blocks) filter (indexEntries s)).length < 2 ^ 31) :
    readTable (tableFile (dataBytes s.blocks) filter (indexEntries s)) = some s.blocks.flatten := by
  have hlen := length_tableFile (dataBytes s.blocks) filter (indexEntries s)
  have hlt : ∀ records ∈ s.blocks, (blockBytes records).length < 2 ^ 31 := fun records hmem => by
    have hle := length_blockBytes_le hmem
    omega
  have hsizes : ((indexEntries s).map toBlock).map (fun e => e.offsetInfo.size.toNat) =
      (s.blocks.map blockBytes).map List.length := by
    have hentries : ((indexEntries s).map toBlock).map (fun e => e.offsetInfo.size.toNat) =
        ((indexEntries s).map fun e => e.2.size).map fun size => (toInt32 size).toNat := by
      simp only [List.map_map, Function.comp_def, toBlock]
    rw [hentries, sizes_indexEntries, List.map_map, List.map_map]
    refine List.map_congr_left fun records hmem => ?_
    have hlength : toInt32 (blockBytes records).length = (blockBytes records).length :=
      toInt32_of_lt (hlt records hmem)
    rw [Function.comp_apply, Function.comp_apply, hlength, hlength, Int.toNat_natCast]
  have hread : (s.blocks.map blockBytes).mapM readBlock = some s.blocks :=
    mapM_map_eq_some _ fun records hmem => readBlock_blockBytes (hne records hmem)
      (fun r hr => by simpa [hasKey] using hkeys r (List.mem_flatten_of_mem hmem hr))
      (hlt records hmem)
  have hcut : ((indexEntries s).map toBlock |>.map fun e => e.offsetInfo.size.toNat).splitLengths
      (tableFile (dataBytes s.blocks) filter (indexEntries s)) = s.blocks.map blockBytes := by
    rw [hsizes, tableFile, dataBytes, List.flatMap_def, splitLengths_flatten_append]
  rw [readTable, readIndex_tableFile hsmall]
  simp only [Except.toOption, Option.bind_eq_bind, Option.bind_some, hcut, hread]
  rfl

/-! ## The file of a builder -/

section Finish

variable {sizing : BloomSizing} {keysNum : ℤ} {b₀ b b' : SSTableBuilder} {status : DBStatus}

/-- The table of some pairs with a filter. -/
def tableOfPairs (pairs : List (Bytes × Bytes)) (filter : BloomFilter) : Bytes :=
  tableFile (dataBytes (Split.ofPairs pairs).blocks) filter (indexEntries (Split.ofPairs pairs))

/-- **What `finish_sst` leaves in the file**: the table of the pairs, with the filter of their keys,
as long as it has less than `2 ^ 31` bytes. -/
theorem file_of_finishSst (hnew : SSTableBuilder.new sizing keysNum (.new [] true) = .ok b₀)
    (hadd : b₀.addAll pairs = .ok b) (hfinish : b.finishSst sizing = .ok (status, b')) :
    ∃ filter₀ filter, BloomFilter.new sizing keysNum = .ok filter₀ ∧
      filter₀.createFilter ((pairs.filter hasKey).map Prod.fst) = .ok filter ∧
      ((tableOfPairs pairs filter).length < 2 ^ 31 →
        b'.fileWriter.file = tableOfPairs pairs filter) := by
  obtain ⟨filter₀, hfilter₀, hbuilt₀⟩ := built_new hnew
  have hbuilt : Built filter₀ b pairs (Split.ofPairs pairs) := hbuilt₀.addAll hadd
  have hcuts := Split.cuts_ofPairs pairs
  obtain ⟨b₁, filter, hblocks, hcreate, htail⟩ := finishSst_eq_ok hfinish
  obtain ⟨hwritten, hsame⟩ := hbuilt.finishDataBlocks hcuts
    (fun r hr => (List.mem_filter.mp hr).2) hblocks
  rw [hsame, hbuilt.filter] at hcreate
  refine ⟨filter₀, filter, hfilter₀, hcreate, fun hsize => ?_⟩
  have hcurrent : ∀ r ∈ (Split.ofPairs pairs).current, hasKey r = true := fun r hr =>
    (List.mem_filter.mp (hcuts.flatten ▸ List.mem_append_right _ hr)).2
  have hindexed : Indexed b (Split.ofPairs pairs) := (indexed_new hnew).addAll hadd
  obtain ⟨hindex, -⟩ := hindexed.finishDataBlocks hcurrent hblocks
  rw [tableOfPairs, length_tableFile] at hsize
  obtain ⟨hstream, hoffset⟩ := hwritten.written (by omega)
  have hfooter : b₁.footer ⟨toInt32 (filterBytes filter).length, b₁.filterBlockOffset.offset⟩ =
      footerOf (dataBytes (Split.ofPairs pairs).blocks).length filter
        (indexEntries (Split.ofPairs pairs)) := by
    rw [SSTableBuilder.footer, footerOf, hwritten.footer, hoffset, hindex,
      toInt32_of_lt (show (filterBytes filter).length < 2 ^ 31 by omega), ← Nat.cast_add,
      toInt32_of_lt (by omega), toInt32_of_lt (by omega)]
  rw [(writeTail_eq_ok hwritten.opened htail).2, hfooter, hstream, hindex,
    FileWriter.take_toInt32 (by omega), FileWriter.take_toInt32 (by omega),
    FileWriter.take_toInt32 (by rw [footerOf, length_footer]; decide)]
  rfl

/-- **A finished table loses nothing.**  A builder on a fresh file that gets through `add` and
`finish_sst` leaves a file from which the pairs with a key are read back, all of them and in their
order, as long as the table has less than `2 ^ 31` bytes. -/
theorem readTable_finishSst (hnew : SSTableBuilder.new sizing keysNum (.new [] true) = .ok b₀)
    (hadd : b₀.addAll pairs = .ok b) (hfinish : b.finishSst sizing = .ok (status, b')) :
    ∃ filter₀ filter, BloomFilter.new sizing keysNum = .ok filter₀ ∧
      filter₀.createFilter ((pairs.filter hasKey).map Prod.fst) = .ok filter ∧
      ((tableOfPairs pairs filter).length < 2 ^ 31 →
        readTable b'.fileWriter.file = some (pairs.filter hasKey)) := by
  obtain ⟨filter₀, filter, hfilter₀, hcreate, hfile⟩ := file_of_finishSst hnew hadd hfinish
  refine ⟨filter₀, filter, hfilter₀, hcreate, fun hsize => ?_⟩
  obtain ⟨hflatten, hne⟩ := (Split.cuts_ofPairs pairs).blocks
  have hkeys : ∀ r ∈ (Split.ofPairs pairs).blocks.flatten, hasKey r = true := fun r hr =>
    (List.mem_filter.mp (hflatten ▸ hr)).2
  rw [hfile hsize, ← hflatten]
  exact readTable_tableFile hkeys hne hsize

/-- A table of two keys and, between them, a pair without one, which is skipped. -/
theorem readTable_finishSst_two : ∃ b' : SSTableBuilder,
    readTable b'.fileWriter.file = some [([107], [97]), ([107, 49], [])] := by
  have hrun : (do
      let b₀ ← SSTableBuilder.new .percent 2 (.new [] true)
      let b ← b₀.addAll [([107], [97]), ([], [98]), ([107, 49], [])]
      let filter₀ ← BloomFilter.new .percent 2
      let filter ← filter₀.createFilter [[107], [107, 49]]
      let _ ← b.finishSst .percent
      require ((tableOfPairs [([107], [97]), ([], [98]), ([107, 49], [])] filter).length < 2 ^ 31)
        .assertion) = (.ok () : Exec Unit) := rfl
  simp only [bind_eq_ok, require_eq_ok, decide_eq_true_eq, Prod.exists] at hrun
  obtain ⟨b₀, hnew, b, hadd, filter₀, hfilter₀, filter, hfilter, status, b', hfinish, hsize⟩ := hrun
  obtain ⟨filter₀', filter', hfilter₀', hfilter', hread⟩ := readTable_finishSst hnew hadd hfinish
  obtain rfl := Except.ok.inj (hfilter₀.symm.trans hfilter₀')
  obtain rfl := Except.ok.inj (hfilter.symm.trans hfilter')
  exact ⟨b', hread hsize⟩

end Finish

end SmallKV

import SmallKV.Sstparser.IndexRanges

/-!
# Sstparser/FilterReload — what `Parse` makes of a stored filter

A table keeps its filter as bits and hash count, and its footer says where.  `Parse` reads the
footer and the index as they were written and is then stopped by the address it makes of the
place of the hash count: the offset alone, cast to a pointer (`openTable_tableFile`).  So no file
gives its filter back (`not_reloads`).
-/

namespace SmallKV.SSTParser

/-! ## Files that hold a filter -/

/-- The footer of a file with `data` bytes of data blocks, a filter block and an index. -/
def footerOf (data : ℕ) (filter : BloomFilter) (entries : List (Bytes × OffsetInfo)) : Bytes :=
  FooterBuilder.add [] ⟨(filterBytes filter).length, data⟩
    ⟨(indexBytes entries).length, data + (filterBytes filter).length⟩

/-- A table file: data blocks, the filter block, the index and the footer. -/
def tableFile (data : Bytes) (filter : BloomFilter) (entries : List (Bytes × OffsetInfo)) : Bytes :=
  data ++ (filterBytes filter ++ (indexBytes entries ++ footerOf data.length filter entries))

theorem length_tableFile (data : Bytes) (filter : BloomFilter)
    (entries : List (Bytes × OffsetInfo)) :
    (tableFile data filter entries).length =
      data.length + (filterBytes filter).length + (indexBytes entries).length + 16 := by
  simp only [tableFile, footerOf, List.length_append, length_footer]
  omega

/-- `Parse` on the file gives the filter back, bits and hash count, and answers as it does. -/
def Reloads (file : Bytes) (filter : BloomFilter) : Prop :=
  ∃ s, openTable (some file) = .ok s ∧ s.filterPolicy = some filter ∧
    ∀ key, s.existsKey key = filter.existsKey key

/-- **No filter is reloaded**, wherever it is in the file and whatever it holds. -/
theorem not_reloads (file : Bytes) (filter : BloomFilter) : ¬ Reloads file filter := by
  rintro ⟨s, hopen, -, -⟩
  exact openTable_ne_ok (some file) s hopen

/-! ## How far `Parse` gets -/

section

variable {data : Bytes} {filter : BloomFilter} {entries : List (Bytes × OffsetInfo)}

/-- The two halves of a footer, as the parser loads them. -/
theorem loadOffsetInfo_footer {content : Bytes} {metaBlock indexBlock : OffsetInfo} (before : Bytes)
    (hcontent : content = before ++ FooterBuilder.add [] metaBlock indexBlock) :
    loadOffsetInfo content (.content (content.length - 16)) =
        .ok ⟨toInt32 metaBlock.size, toInt32 metaBlock.offset⟩ ∧
      loadOffsetInfo content (.content (content.length - 8)) =
        .ok ⟨toInt32 indexBlock.size, toInt32 indexBlock.offset⟩ := by
  have hlen : content.length = before.length + 16 := by
    rw [hcontent, List.length_append, length_footer]
  have hfields : content = before ++ (encodeFixed32 (toUInt32 metaBlock.size) ++
      (encodeFixed32 (toUInt32 metaBlock.offset) ++ (encodeFixed32 (toUInt32 indexBlock.size) ++
        (encodeFixed32 (toUInt32 indexBlock.offset) ++ [])))) := by
    rw [hcontent]
    simp [FooterBuilder.add, putFixed64, encodeFixed64_bits]
  constructor
  · exact loadOffsetInfo_append before (by omega) hfields
  · have hsecond : content = (before ++ (encodeFixed32 (toUInt32 metaBlock.size) ++
        encodeFixed32 (toUInt32 metaBlock.offset))) ++ (encodeFixed32 (toUInt32 indexBlock.size) ++
          (encodeFixed32 (toUInt32 indexBlock.offset) ++ [])) := by
      simp only [hfields, List.append_assoc]
    refine loadOffsetInfo_append _ ?_ hsecond
    simp only [hlen, List.length_append, length_encodeFixed32]
    omega

/-- A `Parse` that gets as far as the filter stops there. -/
theorem parse_eq_wildPointer {s : SSTParser} {content : Bytes} {metaBlock indexBlock : OffsetInfo}
    {blocks : List IndexBlock} (hread : s.readAll.sstContent = content)
    (hmeta : loadOffsetInfo content (.content (content.length - 16)) = .ok metaBlock)
    (hindex : loadOffsetInfo content (.content (content.length - 8)) = .ok indexBlock)
    (hblocks : parseIndex content (toInt32 (indexBlock.offset + indexBlock.size))
      (content.length + 1) indexBlock.offset s.indexBlocks = .ok blocks) :
    s.parse = .error .wildPointer := by
  rw [parse, hread, hmeta, ok_bind, hindex, ok_bind]
  show (parseIndex content _ _ _ s.indexBlocks >>= _) = _
  rw [hblocks]
  rfl

/-- **Where `Parse` stops**: with no newline in the file to be dropped, header and index are read as
they were written, and the load of the hash count follows an integer. -/
theorem openTable_tableFile (hsmall : (tableFile data filter entries).length < 2 ^ 31)
    (hlines : 10 ∉ tableFile data filter entries) :
    openTable (some (tableFile data filter entries)) = .error .wildPointer := by
  have hlen := length_tableFile data filter entries
  have hread : (tableFile data filter entries).filter (· ≠ 10) = tableFile data filter entries := by
    refine List.filter_eq_self.mpr fun b hb => decide_eq_true fun h => ?_
    exact hlines (h ▸ hb)
  have hfooter : tableFile data filter entries = (data ++ (filterBytes filter ++
      indexBytes entries)) ++ footerOf data.length filter entries := by
    simp only [tableFile, List.append_assoc]
  have hbody : tableFile data filter entries = (data ++ filterBytes filter) ++
      (indexBytes entries ++ footerOf data.length filter entries) := by
    simp only [tableFile, List.append_assoc]
  obtain ⟨hmeta, hindex⟩ := loadOffsetInfo_footer _ hfooter
  have hle := length_le_indexBytes entries
  have hblocks : parseIndex (tableFile data filter entries)
      (data.length + (filterBytes filter).length + (indexBytes entries).length : ℕ)
      ((tableFile data filter entries).length + 1) (data ++ filterBytes filter).length [] =
        .ok (entries.map toBlock) :=
    parseIndex_indexBytes (by omega) hbody (by rw [List.length_append]) (by omega)
  rw [toInt32_of_lt (show (indexBytes entries).length < 2 ^ 31 by omega), ← Nat.cast_add,
    toInt32_of_lt (show data.length + (filterBytes filter).length < 2 ^ 31 by omega)] at hindex
  rw [List.length_append, ← toInt32_of_lt (show data.length + (filterBytes filter).length +
    (indexBytes entries).length < 2 ^ 31 by omega), Nat.cast_add (data.length + _)] at hblocks
  have hparse : SSTParser.parse ⟨tableFile data filter entries, [], none, []⟩ =
      .error .wildPointer := parse_eq_wildPointer hread hmeta hindex hblocks
  exact hparse

end

/-- Every filter that `create_filter` has built of some keys is reloaded from every file of less than
`2 ^ 31` bytes that holds it. -/
def FiltersReload : Prop :=
  ∀ (sizing : BloomSizing) (keysNum : ℤ) (keys : List Bytes) (filter₀ filter : BloomFilter)
    (data : Bytes) (entries : List (Bytes × OffsetInfo)),
    BloomFilter.new sizing keysNum = .ok filter₀ → filter₀.createFilter keys = .ok filter →
    (tableFile data filter entries).length < 2 ^ 31 → Reloads (tableFile data filter entries) filter

/-- **The filter of one key is not reloaded** from the table of the pair. -/
theorem not_filtersReload : ¬ FiltersReload := by
  intro h
  have hrun : (do
      let filter₀ ← BloomFilter.new .percent 1
      let filter ← filter₀.createFilter [[107]]
      require ((tableFile (blockBytes [([107], [97])]) filter [([108], ⟨30, 0⟩)]).length < 2 ^ 31)
        .assertion) = (.ok () : Exec Unit) := rfl
  simp only [bind_eq_ok, require_eq_ok, decide_eq_true_eq] at hrun
  obtain ⟨filter₀, hnew, filter, hcreate, hsmall⟩ := hrun
  obtain ⟨s, hopen, -, -⟩ := h .percent 1 [[107]] filter₀ filter _ _ hnew hcreate hsmall
  exact openTable_ne_ok _ s hopen

end SmallKV.SSTParser

import SmallKV.File.FileWriter
import SmallKV.Filter.BloomFilter
import SmallKV.Table.DataBlockBuilder

/-!
# Table/SstableBuilder — writing a table, as `table/sstable_builder.cpp` does

A table is its data blocks, the filter block, the index block and the footer.  `add` writes a data
block out as soon as its records exceed `MAX_DATA_BLOCK_SIZE`; `finish_sst` writes the rest.
-/

namespace SmallKV

/-! ## Index, filter and footer -/

/-- `IndexBlockBuilder::add`, on the bytes collected so far. -/
def IndexBlockBuilder.add (data : Bytes) (shortestKey : Bytes) (offsetInfo : OffsetInfo) : Bytes :=
  putFixed64 (putFixed32 data shortestKey.length ++ shortestKey) offsetInfo.bits

/-- `FooterBuilder::add`. -/
def FooterBuilder.add (data : Bytes) (metaBlock indexBlock : OffsetInfo) : Bytes :=
  putFixed64 (putFixed64 data metaBlock.bits) indexBlock.bits

/-- `FilterBlockBuilder`. -/
structure FilterBlockBuilder where
  filterPolicy : BloomFilter
  keyData : List Bytes
  data : Bytes
  deriving DecidableEq, Repr

namespace FilterBlockBuilder

/-- The constructor. -/
def new (sizing : BloomSizing) (keysNum : ℤ) : Exec FilterBlockBuilder := do
  return ⟨← BloomFilter.new sizing keysNum, [], []⟩

/-- `add`. -/
def add (f : FilterBlockBuilder) (key : Bytes) : FilterBlockBuilder :=
  if key.isEmpty then f else { f with keyData := f.keyData ++ [key] }

/-- `create_filter`. -/
def createFilter (f : FilterBlockBuilder) : Exec FilterBlockBuilder :=
  if f.keyData.isEmpty then return f
  else do return { f with filterPolicy := ← f.filterPolicy.createFilter f.keyData }

/-- `finish_filter_block`. -/
def finishFilterBlock (f : FilterBlockBuilder) : Exec FilterBlockBuilder := do
  let f ← f.createFilter
  return { f with data := putFixed32 f.filterPolicy.data f.filterPolicy.getHashNum }

end FilterBlockBuilder

/-! ## The table -/

/-- `SSTableBuilder`. -/
structure SSTableBuilder where
  dataBlockBuilder : DataBlockBuilder
  indexBlockBuilder : Bytes
  filterBlockBuilder : FilterBlockBuilder
  fileWriter : FileWriter
  footerBuilder : Bytes
  filterBlockOffset : OffsetInfo
  indexBlockOffset : OffsetInfo
  keysNum : ℤ
  indexData : Bytes
  preKey : Bytes

namespace SSTableBuilder

variable (sizing : BloomSizing)

/-- The constructor. -/
def new (keysNum : ℤ) (fileWriter : FileWriter) : Exec SSTableBuilder := do
  return {
    dataBlockBuilder := {}
    indexBlockBuilder := []
    filterBlockBuilder := ← FilterBlockBuilder.new sizing keysNum
    fileWriter := fileWriter
    footerBuilder := []
    filterBlockOffset := {}
    indexBlockOffset := {}
    keysNum := keysNum
    indexData := []
    preKey := [] }

/-- The loop of `find_shortest_key`: the number of positions where two keys agree. -/
def countEqual : Bytes → Bytes → ℕ
  | a :: key1, b :: key2 => countEqual key1 key2 + if a = b then 1 else 0
  | _, _ => 0

/-- `key.back() += 1`. -/
def incrementBack (key : Bytes) : Exec Bytes := do
  let last ← orFault .outOfBounds key.getLast?
  return key.dropLast ++ [last + 1]

/-- `find_shortest_key`. -/
def findShortestKey (key1 key2 : Bytes) : Exec Bytes := do
  require (!key1.isEmpty) .assertion
  require (!key2.isEmpty) .assertion
  require (key1 < key2) .assertion
  let cnt := countEqual key1 key2
  if key1.length = cnt then return key1 ++ ascii " "
  else incrementBack (key1.take (cnt + 1))

/-- Append the finished data block to the file. -/
def writeDataBlock (b : SSTableBuilder) : Exec SSTableBuilder := do
  let block := b.dataBlockBuilder.finishDataBlock
  let (_, w) ← b.fileWriter.append block.data (toInt32 block.data.length) false
  return { b with dataBlockBuilder := block, fileWriter := w }

/-- `FilterBlock_offset.offset += dataBlockBuilder->data().size()`. -/
def advance (b : SSTableBuilder) : SSTableBuilder :=
  { b with filterBlockOffset := { b.filterBlockOffset with
      offset := toInt32 (b.filterBlockOffset.offset + toInt32 b.dataBlockBuilder.data.length) } }

/-- Add an index entry for the data block just written, and clear the block. -/
def indexDataBlock (b : SSTableBuilder) (shortestKey : Bytes) : SSTableBuilder :=
  let offsetInfo : OffsetInfo :=
    ⟨toInt32 b.dataBlockBuilder.data.length, b.filterBlockOffset.offset⟩
  { b with
    indexData := b.indexData ++ IndexBlockBuilder.add b.indexBlockBuilder shortestKey offsetInfo
    indexBlockBuilder := [] }

/-- `add`. -/
def add (b : SSTableBuilder) (key val : Bytes) : Exec (DBStatus × SSTableBuilder) := do
  if key.isEmpty then return (.success, b)
  let b := { b with
    filterBlockBuilder := b.filterBlockBuilder.add key
    dataBlockBuilder := b.dataBlockBuilder.add key val }
  let b ← (if maxDataBlockSize < b.dataBlockBuilder.size then do
      let b ← b.writeDataBlock
      -- the offset is advanced before the entry of this block records it
      let b := b.advance
      let shortestKey ← findShortestKey b.preKey key
      let b := b.indexDataBlock shortestKey
      return { b with dataBlockBuilder := b.dataBlockBuilder.clear }
    else return b)
  return (.success, { b with preKey := key })

/-- Step 1 of `finish_sst`: the last data block. -/
def finishDataBlocks (b : SSTableBuilder) : Exec SSTableBuilder :=
  if 0 < b.dataBlockBuilder.size then do
    let b ← b.writeDataBlock
    let preKey ← incrementBack b.preKey
    let b := ({ b with preKey := preKey }).indexDataBlock preKey
    let b := b.advance
    return { b with dataBlockBuilder := b.dataBlockBuilder.clear }
  else return b

/-- `finish_sst`. -/
def finishSst (b : SSTableBuilder) : Exec (DBStatus × SSTableBuilder) := do
  let b ← b.finishDataBlocks
  let filter ← b.filterBlockBuilder.finishFilterBlock
  let filterBlockOffset := { b.filterBlockOffset with size := toInt32 filter.data.length }
  let filter ← filter.finishFilterBlock
  let (_, w) ← b.fileWriter.append filter.data (toInt32 filter.data.length) false
  let (_, w) ← w.append b.indexData (toInt32 b.indexData.length) false
  require (0 < toInt32 b.indexData.length) .assertion
  let indexBlockOffset : OffsetInfo := ⟨toInt32 b.indexData.length,
    toInt32 (filterBlockOffset.offset + filterBlockOffset.size)⟩
  let footer := FooterBuilder.add b.footerBuilder filterBlockOffset indexBlockOffset
  let (_, w) ← w.append footer (toInt32 footer.length) false
  let w ← w.flush
  let w ← w.close
  return (.success, ← new sizing b.keysNum w)

/-- `add` for each of the pairs in turn. -/
def addAll (b : SSTableBuilder) : List (Bytes × Bytes) → Exec SSTableBuilder
  | [] => .ok b
  | (key, val) :: pairs => do
      let (_, b) ← b.add key val
      b.addAll pairs

/-! ## Adding a pair, in two steps -/

/-- The builder with a pair in its filter and its data block. -/
def addRecord (b : SSTableBuilder) (key val : Bytes) : SSTableBuilder :=
  { b with
    filterBlockBuilder := b.filterBlockBuilder.add key
    dataBlockBuilder := b.dataBlockBuilder.add key val }

/-- What `add` does then: a data block over the limit is written. -/
def closeFull (b : SSTableBuilder) (key : Bytes) : Exec SSTableBuilder :=
  if maxDataBlockSize < b.dataBlockBuilder.size then do
    let b ← b.writeDataBlock
    let b := b.advance
    let shortestKey ← findShortestKey b.preKey key
    let b := b.indexDataBlock shortestKey
    return { b with dataBlockBuilder := b.dataBlockBuilder.clear }
  else return b

theorem add_of_isEmpty (b : SSTableBuilder) {key : Bytes} (hkey : key.isEmpty = true)
    (val : Bytes) : b.add key val = .ok (.success, b) := by
  rw [add, if_pos hkey]
  rfl

theorem add_of_not_isEmpty (b : SSTableBuilder) {key : Bytes} (hkey : ¬ key.isEmpty = true)
    (val : Bytes) : b.add key val = (do
      let b ← (b.addRecord key val).closeFull key
      return (.success, { b with preKey := key })) := by
  rw [add, if_neg hkey]
  rfl

/-- An `add` of a key that is not empty has added the record and closed the block if it is full. -/
theorem add_eq_ok {b b₁ : SSTableBuilder} {key val : Bytes} {status : DBStatus}
    (hkey : ¬ key.isEmpty = true) (h : b.add key val = .ok (status, b₁)) :
    ∃ b₂, (b.addRecord key val).closeFull key = .ok b₂ ∧ b₁ = { b₂ with preKey := key } := by
  rw [add_of_not_isEmpty _ hkey] at h
  obtain ⟨b₂, hclose, hb⟩ := bind_eq_ok.mp h
  exact ⟨b₂, hclose, (Prod.mk.inj (Except.ok.inj hb)).2.symm⟩

/-! ## Finishing a table, in two steps -/

/-- The footer of a table. -/
def footer (b : SSTableBuilder) (filterBlockOffset : OffsetInfo) : Bytes :=
  FooterBuilder.add b.footerBuilder filterBlockOffset ⟨toInt32 b.indexData.length,
    toInt32 (filterBlockOffset.offset + filterBlockOffset.size)⟩

/-- Steps 2 to 4 of `finish_sst`: the filter, the index and the footer, after which the writer is
closed. -/
def writeTail (b : SSTableBuilder) (filter : Bytes) (filterBlockOffset : OffsetInfo) :
    Exec FileWriter := do
  let (_, w) ← b.fileWriter.append filter (toInt32 filter.length) false
  let (_, w) ← w.append b.indexData (toInt32 b.indexData.length) false
  require (0 < toInt32 b.indexData.length) .assertion
  let footer := b.footer filterBlockOffset
  let (_, w) ← w.append footer (toInt32 footer.length) false
  let w ← w.flush
  w.close

theorem finishSst_eq (b : SSTableBuilder) : b.finishSst sizing = (do
    let b ← b.finishDataBlocks
    let filter ← b.filterBlockBuilder.finishFilterBlock
    let filter' ← filter.finishFilterBlock
    let w ← b.writeTail filter'.data
      { b.filterBlockOffset with size := toInt32 filter.data.length }
    return (.success, ← new sizing b.keysNum w)) := by
  simp only [finishSst, writeTail, footer, bind_assoc]

/-! ## Files that hold something already -/

section Prepend

variable (old : Bytes)

/-- The builder on a file that begins with other bytes. -/
def prepend (b : SSTableBuilder) : SSTableBuilder :=
  { b with fileWriter := b.fileWriter.prepend old }

/-- What an operation returns, with its builder on a file that begins with other bytes. -/
def prependResult (r : DBStatus × SSTableBuilder) : DBStatus × SSTableBuilder :=
  (r.1, r.2.prepend old)

theorem new_prepend (keysNum : ℤ) (w : FileWriter) :
    new sizing keysNum (w.prepend old) = prepend old <$> new sizing keysNum w := by
  rw [new, new]
  cases FilterBlockBuilder.new sizing keysNum <;> rfl

theorem writeDataBlock_prepend (b : SSTableBuilder) :
    (b.prepend old).writeDataBlock = prepend old <$> b.writeDataBlock := by
  refine (congrArg (· >>= _) (FileWriter.append_prepend old b.fileWriter _ _ false)).trans ?_
  exact bind_map_comm fun _ => rfl

theorem closeFull_prepend (b : SSTableBuilder) (key : Bytes) :
    (b.prepend old).closeFull key = prepend old <$> b.closeFull key := by
  rw [closeFull, closeFull]
  by_cases hfull : maxDataBlockSize < b.dataBlockBuilder.size
  · have hfull' : maxDataBlockSize < (b.prepend old).dataBlockBuilder.size := hfull
    rw [if_pos hfull, if_pos hfull', writeDataBlock_prepend]
    refine bind_map_comm fun b₁ => ?_
    change (findShortestKey b₁.preKey key >>= _) = prepend old <$> (findShortestKey b₁.preKey key >>= _)
    cases findShortestKey b₁.preKey key <;> rfl
  · have hfull' : ¬ maxDataBlockSize < (b.prepend old).dataBlockBuilder.size := hfull
    rw [if_neg hfull, if_neg hfull']
    rfl

/-- **`add` does not look at what the file holds.** -/
theorem add_prepend (b : SSTableBuilder) (key val : Bytes) :
    (b.prepend old).add key val = prependResult old <$> b.add key val := by
  by_cases hkey : key.isEmpty = true
  · rw [add_of_isEmpty _ hkey, add_of_isEmpty _ hkey]
    rfl
  · rw [add_of_not_isEmpty _ hkey, add_of_not_isEmpty _ hkey]
    refine (congrArg (· >>= _) (closeFull_prepend old (b.addRecord key val) key)).trans ?_
    exact bind_map_comm fun _ => rfl

theorem addAll_prepend : ∀ (pairs : List (Bytes × Bytes)) (b : SSTableBuilder),
    (b.prepend old).addAll pairs = prepend old <$> b.addAll pairs
  | [], _ => rfl
  | (key, val) :: pairs, b => by
      refine (congrArg (· >>= _) (add_prepend old b key val)).trans ?_
      exact bind_map_comm fun r => addAll_prepend pairs r.2

theorem finishDataBlocks_prepend (b : SSTableBuilder) :
    (b.prepend old).finishDataBlocks = prepend old <$> b.finishDataBlocks := by
  rw [finishDataBlocks, finishDataBlocks]
  by_cases hlast : 0 < b.dataBlockBuilder.size
  · have hlast' : 0 < (b.prepend old).dataBlockBuilder.size := hlast
    rw [if_pos hlast, if_pos hlast', writeDataBlock_prepend]
    refine bind_map_comm fun b₁ => ?_
    change (incrementBack b₁.preKey >>= _) = prepend old <$> (incrementBack b₁.preKey >>= _)
    cases incrementBack b₁.preKey <;> rfl
  · have hlast' : ¬ 0 < (b.prepend old).dataBlockBuilder.size := hlast
    rw [if_neg hlast, if_neg hlast']
    rfl

theorem writeTail_prepend (b : SSTableBuilder) (filter : Bytes) (offset : OffsetInfo) :
    (b.prepend old).writeTail filter offset =
      FileWriter.prepend old <$> b.writeTail filter offset := by
  have hwriter : (b.prepend old).fileWriter = b.fileWriter.prepend old := rfl
  have hindex : (b.prepend old).indexData = b.indexData := rfl
  have hfooter : (b.prepend old).footer offset = b.footer offset := rfl
  rw [writeTail, writeTail, hwriter, hindex, hfooter, FileWriter.append_prepend]
  generalize toInt32 filter.length = filterLen, toInt32 b.indexData.length = indexLen,
    b.footer offset = footer
  generalize toInt32 footer.length = footerLen
  refine bind_map_comm fun r₁ => ?_
  refine (congrArg (· >>= _) (FileWriter.append_prepend old r₁.2 _ _ false)).trans
    (bind_map_comm fun r₂ => ?_)
  dsimp only [FileWriter.prependResult]
  cases require (0 < indexLen) .assertion with
  | error e => rfl
  | ok u =>
    rw [ok_bind, ok_bind, FileWriter.append_prepend]
    refine bind_map_comm fun r₃ => ?_
    exact (congrArg (· >>= _) (FileWriter.flush_prepend old r₃.2)).trans
      (bind_map_comm fun w => FileWriter.close_prepend old w)

/-- **`finish_sst` does not look at what the file holds.** -/
theorem finishSst_prepend (b : SSTableBuilder) :
    (b.prepend old).finishSst sizing = prependResult old <$> b.finishSst sizing := by
  rw [finishSst_eq, finishSst_eq, finishDataBlocks_prepend]
  refine bind_map_comm fun b₁ => ?_
  change (b₁.filterBlockBuilder.finishFilterBlock >>= _) =
    _ <$> (b₁.filterBlockBuilder.finishFilterBlock >>= _)
  cases b₁.filterBlockBuilder.finishFilterBlock with
  | error e => rfl
  | ok filter =>
    rw [ok_bind, ok_bind]
    cases filter.finishFilterBlock with
    | error e => rfl
    | ok filter' =>
      rw [ok_bind, ok_bind]
      refine (congrArg (· >>= _) (writeTail_prepend old b₁ _ _)).trans
        (bind_map_comm fun w => ?_)
      refine (congrArg (· >>= _) (new_prepend sizing old b₁.keysNum w)).trans ?_
      exact bind_map_comm fun _ => rfl

end Prepend

end SSTableBuilder

end SmallKV

import SmallKV.Table.SstableBuilder

/-!
# Table/Layout — what a finished table file holds

The builder cuts the pairs it is given into data blocks (`Split`), writes each block as it fills up
and the rest in `finish_sst`.  What it has written at any time is described by `Written`: the blocks
closed so far, one index entry for each, and the running offset.  From it the layout of the whole
file follows (`layout_of_finishSst`): data blocks, filter, index, footer.
-/

namespace SmallKV

/-! ## Blocks, index and filter as bytes -/

/-- A pair with a key, which `add` does not skip. -/
def hasKey (pair : Bytes × Bytes) : Bool := !pair.1.isEmpty

/-- The data block of some records, before it is finished. -/
def blockOf (records : List (Bytes × Bytes)) : DataBlockBuilder :=
  records.foldl (fun block r => block.add r.1 r.2) {}

/-- The finished data block of some records. -/
def blockBytes (records : List (Bytes × Bytes)) : Bytes := (blockOf records).finishDataBlock.data

/-- Data blocks in a row. -/
def dataBytes (blocks : List (List (Bytes × Bytes))) : Bytes := blocks.flatMap blockBytes

/-- Index entries in a row. -/
def indexBytes (entries : List (Bytes × OffsetInfo)) : Bytes :=
  entries.flatMap fun e => IndexBlockBuilder.add [] e.1 e.2

/-- The filter block: the bit array, followed by the number of hash functions. -/
def filterBytes (filter : BloomFilter) : Bytes := putFixed32 filter.data filter.getHashNum

theorem dataBytes_concat (blocks : List (List (Bytes × Bytes))) (records : List (Bytes × Bytes)) :
    dataBytes (blocks ++ [records]) = dataBytes blocks ++ blockBytes records := by
  simp [dataBytes]

theorem indexBytes_concat (entries : List (Bytes × OffsetInfo)) (key : Bytes) (o : OffsetInfo) :
    indexBytes (entries ++ [(key, o)]) = indexBytes entries ++ IndexBlockBuilder.add [] key o := by
  simp [indexBytes]

theorem blockOf_concat (records : List (Bytes × Bytes)) (r : Bytes × Bytes) :
    blockOf (records ++ [r]) = (blockOf records).add r.1 r.2 := by
  simp [blockOf]

/-- A block with a record in it is not empty. -/
theorem size_blockOf_concat (records : List (Bytes × Bytes)) {r : Bytes × Bytes}
    (hr : hasKey r = true) : 0 < (blockOf (records ++ [r])).size := by
  have hkey : ¬ r.1.isEmpty = true := by simpa [hasKey] using hr
  rw [blockOf_concat, DataBlockBuilder.add, if_neg hkey]
  simp only [DataBlockBuilder.size, DataBlockBuilder.appendRecord, putFixed32, List.length_append,
    length_encodeFixed32]
  omega

/-- A block is empty exactly when it has no records. -/
theorem size_blockOf_pos_iff {records : List (Bytes × Bytes)} (h : ∀ r ∈ records, hasKey r = true) :
    0 < (blockOf records).size ↔ records ≠ [] := by
  rcases List.eq_nil_or_concat records with rfl | ⟨init, r, rfl⟩
  · simp [blockOf, DataBlockBuilder.size]
  · rw [List.concat_eq_append] at h ⊢
    exact iff_of_true (size_blockOf_concat init (h r (by simp))) (by simp)

theorem length_footer (metaBlock indexBlock : OffsetInfo) :
    (FooterBuilder.add [] metaBlock indexBlock).length = 16 := by
  simp [FooterBuilder.add, putFixed64]

/-! ## How the pairs are cut into blocks -/

/-- Blocks that are full, and the records of the block being filled. -/
structure Split where
  closed : List (List (Bytes × Bytes)) := []
  current : List (Bytes × Bytes) := []

namespace Split

/-- A record enters the current block. -/
def push (s : Split) (record : Bytes × Bytes) : Split := ⟨s.closed, s.current ++ [record]⟩

/-- Cut off the current block. -/
def close (s : Split) : Split := ⟨s.closed ++ [s.current], []⟩

/-- Cut off the current block if it is over the limit. -/
def closeFull (s : Split) : Split :=
  if maxDataBlockSize < (blockOf s.current).size then s.close else s

/-- A pair becomes a record of the current block, unless its key is empty. -/
def add (s : Split) (pair : Bytes × Bytes) : Split :=
  if hasKey pair then (s.push pair).closeFull else s

/-- The pairs, cut into blocks. -/
def ofPairs (pairs : List (Bytes × Bytes)) : Split := pairs.foldl add {}

/-- All the blocks, the current one last unless it is empty. -/
def blocks (s : Split) : List (List (Bytes × Bytes)) :=
  if s.current = [] then s.closed else s.closed ++ [s.current]

theorem flatten_blocks (s : Split) : s.blocks.flatten = s.closed.flatten ++ s.current := by
  rw [blocks]
  split_ifs with hcurrent
  · rw [hcurrent, List.append_nil]
  · rw [List.flatten_concat]

/-- The records of a split are the pairs `ps`, in order, and no closed block is empty. -/
structure Cuts (s : Split) (ps : List (Bytes × Bytes)) : Prop where
  flatten : s.closed.flatten ++ s.current = ps
  nonempty : ∀ records ∈ s.closed, records ≠ []

theorem Cuts.push {s : Split} {ps : List (Bytes × Bytes)} (h : s.Cuts ps)
    (record : Bytes × Bytes) : (s.push record).Cuts (ps ++ [record]) := by
  refine ⟨?_, h.nonempty⟩
  rw [← h.flatten, List.append_assoc]
  rfl

theorem Cuts.close {s : Split} {ps : List (Bytes × Bytes)} (h : s.Cuts ps)
    (hcurrent : s.current ≠ []) : s.close.Cuts ps := by
  refine ⟨by rw [← h.flatten]; simp [Split.close], fun records hmem => ?_⟩
  rcases List.mem_append.mp hmem with hmem | hmem
  · exact h.nonempty records hmem
  · rwa [List.mem_singleton.mp hmem]

theorem Cuts.add {s : Split} {ps : List (Bytes × Bytes)} (h : s.Cuts ps) (pair : Bytes × Bytes) :
    (s.add pair).Cuts (ps ++ [pair].filter hasKey) := by
  rw [Split.add]
  split_ifs with hkey
  · rw [List.filter_cons_of_pos hkey, List.filter_nil, closeFull]
    split_ifs with hfull
    · exact (h.push pair).close (by simp [Split.push])
    · exact h.push pair
  · rwa [List.filter_cons_of_neg hkey, List.filter_nil, List.append_nil]

theorem cuts_foldl : ∀ (pairs : List (Bytes × Bytes)) {s : Split} {ps : List (Bytes × Bytes)},
    s.Cuts ps → (pairs.foldl Split.add s).Cuts (ps ++ pairs.filter hasKey)
  | [], s, ps, h => by simpa using h
  | pair :: pairs, s, ps, h => by
      have hrest := cuts_foldl pairs (h.add pair)
      rwa [List.append_assoc, ← List.filter_append] at hrest

theorem cuts_ofPairs (pairs : List (Bytes × Bytes)) :
    (ofPairs pairs).Cuts (pairs.filter hasKey) :=
  cuts_foldl pairs (s := {}) ⟨rfl, by simp⟩

/-- **The blocks are consecutive non-empty runs of the pairs.** -/
theorem Cuts.blocks {s : Split} {ps : List (Bytes × Bytes)} (h : s.Cuts ps) :
    s.blocks.flatten = ps ∧ ∀ records ∈ s.blocks, records ≠ [] := by
  refine ⟨s.flatten_blocks.trans h.flatten, fun records hmem => ?_⟩
  rw [Split.blocks] at hmem
  split_ifs at hmem with hcurrent
  · exact h.nonempty records hmem
  · rcases List.mem_append.mp hmem with hmem | hmem
    · exact h.nonempty records hmem
    · rwa [List.mem_singleton.mp hmem]

end Split

/-! ## What the builder has written -/

/-- The builder has written some blocks: there is one index entry for each, with its size, and as
long as offsets are `int`s, the running offset is the length of what was written. -/
structure Written (b : SSTableBuilder) (blocks : List (List (Bytes × Bytes))) : Prop where
  opened : b.fileWriter.opened = true
  indexBuilder : b.indexBlockBuilder = []
  footer : b.footerBuilder = []
  index : ∃ entries : List (Bytes × OffsetInfo), b.indexData = indexBytes entries ∧
    entries.map (fun e => e.2.size) = blocks.map fun records => toInt32 (blockBytes records).length
  written : (dataBytes blocks).length < 2 ^ 31 → b.fileWriter.stream = dataBytes blocks ∧
    b.filterBlockOffset.offset = (dataBytes blocks).length

variable {b b₁ : SSTableBuilder} {blocks : List (List (Bytes × Bytes))}
  {records : List (Bytes × Bytes)}

/-- **One block more.**  The entry of the block may be made before or after the offset advances. -/
theorem Written.block {w : FileWriter} {status : DBStatus} {key : Bytes} {o : OffsetInfo}
    (h : Written b blocks)
    (happend : b.fileWriter.append (blockBytes records) (toInt32 (blockBytes records).length) false =
      .ok (status, w))
    (hwriter : b₁.fileWriter = w) (hindexBuilder : b₁.indexBlockBuilder = [])
    (hfooter : b₁.footerBuilder = b.footerBuilder)
    (hindex : b₁.indexData = b.indexData ++ IndexBlockBuilder.add b.indexBlockBuilder key o)
    (hsize : o.size = toInt32 (blockBytes records).length)
    (hoffset : b₁.filterBlockOffset.offset =
      toInt32 (b.filterBlockOffset.offset + toInt32 (blockBytes records).length)) :
    Written b₁ (blocks ++ [records]) := by
  obtain ⟨hopened, hstream⟩ := FileWriter.append_eq_ok h.opened happend
  obtain ⟨entries, hentries, hsizes⟩ := h.index
  refine ⟨hwriter ▸ hopened, hindexBuilder, hfooter.trans h.footer,
    ⟨entries ++ [(key, o)], ?_, ?_⟩, fun hlt => ?_⟩
  · rw [hindex, h.indexBuilder, hentries, indexBytes_concat]
  · rw [List.map_append, List.map_append, hsizes, List.map_singleton, List.map_singleton, hsize]
  · rw [dataBytes_concat, List.length_append] at hlt ⊢
    obtain ⟨hwritten, hprefix⟩ := h.written (by omega)
    refine ⟨?_, ?_⟩
    · rw [hwriter, hstream, hwritten, FileWriter.take_toInt32 (by omega)]
    · rw [hoffset, hprefix, toInt32_of_lt (show (blockBytes records).length < 2 ^ 31 by omega),
        ← Nat.cast_add, toInt32_of_lt hlt]

/-- What `writeDataBlock` changes. -/
theorem writeDataBlock_eq_ok (h : b.writeDataBlock = .ok b₁)
    (hblock : b.dataBlockBuilder = blockOf records) : ∃ status w,
      b.fileWriter.append (blockBytes records) (toInt32 (blockBytes records).length) false =
        .ok (status, w) ∧
      b₁ = { b with dataBlockBuilder := (blockOf records).finishDataBlock, fileWriter := w } := by
  rw [SSTableBuilder.writeDataBlock, hblock] at h
  obtain ⟨⟨status, w⟩, happend, hb⟩ := bind_eq_ok.mp h
  exact ⟨status, w, happend, (Except.ok.inj hb).symm⟩

/-- What the builder holds after some pairs: their keys wait for the filter, their records are
written or wait in the current block. -/
structure Built (filter : BloomFilter) (b : SSTableBuilder) (pairs : List (Bytes × Bytes))
    (s : Split) : Prop where
  written : Written b s.closed
  block : b.dataBlockBuilder = blockOf s.current
  filter : b.filterBlockBuilder = ⟨filter, (pairs.filter hasKey).map Prod.fst, []⟩

variable {filter : BloomFilter} {pairs : List (Bytes × Bytes)} {s : Split}

theorem fileWriter_new {sizing : BloomSizing} {keysNum : ℤ} {w : FileWriter}
    (h : SSTableBuilder.new sizing keysNum w = .ok b) : b.fileWriter = w := by
  obtain ⟨f, -, hb⟩ := bind_eq_ok.mp h
  obtain rfl := Except.ok.inj hb
  rfl

/-- The constructor. -/
theorem built_new {sizing : BloomSizing} {keysNum : ℤ}
    (h : SSTableBuilder.new sizing keysNum (.new [] true) = .ok b) :
    ∃ filter, BloomFilter.new sizing keysNum = .ok filter ∧ Built filter b [] {} := by
  obtain ⟨f, hf, hb⟩ := bind_eq_ok.mp h
  obtain ⟨filter, hfilter, hf'⟩ := bind_eq_ok.mp hf
  obtain rfl := Except.ok.inj hf'
  obtain rfl := Except.ok.inj hb
  exact ⟨filter, hfilter, ⟨rfl, rfl, rfl, ⟨[], rfl, rfl⟩, fun _ => ⟨rfl, rfl⟩⟩, rfl, rfl⟩

/-- A block that is full is written, and cut off. -/
theorem Built.closeFull {key : Bytes} (h : Built filter b pairs s)
    (hrun : b.closeFull key = .ok b₁) : Built filter b₁ pairs s.closeFull := by
  obtain ⟨hwritten, hblock, hfilter⟩ := h
  rw [SSTableBuilder.closeFull, hblock] at hrun
  rw [Split.closeFull]
  split_ifs at hrun ⊢ with hfull
  · obtain ⟨b₂, hdata, hrun⟩ := bind_eq_ok.mp hrun
    obtain ⟨status, w, happend, rfl⟩ := writeDataBlock_eq_ok hdata hblock
    obtain ⟨shortestKey, -, hb⟩ := bind_eq_ok.mp hrun
    obtain rfl := Except.ok.inj hb
    exact ⟨hwritten.block happend rfl rfl rfl rfl rfl rfl, rfl, hfilter⟩
  · obtain rfl := Except.ok.inj hrun
    exact ⟨hwritten, hblock, hfilter⟩

/-- A pair enters the filter and the current block. -/
theorem Built.addRecord {pair : Bytes × Bytes} (h : Built filter b pairs s)
    (hkey : hasKey pair = true) :
    Built filter (b.addRecord pair.1 pair.2) (pairs ++ [pair]) (s.push pair) := by
  have hkey' : ¬ pair.1.isEmpty = true := by simpa [hasKey] using hkey
  obtain ⟨hwritten, hblock, hfilter⟩ := h
  refine ⟨⟨hwritten.opened, hwritten.indexBuilder, hwritten.footer, hwritten.index,
    hwritten.written⟩, ?_, ?_⟩
  · rw [SSTableBuilder.addRecord, hblock, Split.push, blockOf_concat]
  · rw [SSTableBuilder.addRecord, hfilter, FilterBlockBuilder.add, if_neg hkey']
    simp [hkey]

/-- The last key added plays no part. -/
theorem Built.setPreKey {key : Bytes} (h : Built filter b pairs s) :
    Built filter { b with preKey := key } pairs s := by
  obtain ⟨hwritten, hblock, hfilter⟩ := h
  exact ⟨⟨hwritten.opened, hwritten.indexBuilder, hwritten.footer, hwritten.index,
    hwritten.written⟩, hblock, hfilter⟩

/-- **`add` keeps the invariant.** -/
theorem Built.add {pair : Bytes × Bytes} {status : DBStatus} (h : Built filter b pairs s)
    (hrun : b.add pair.1 pair.2 = .ok (status, b₁)) :
    Built filter b₁ (pairs ++ [pair]) (s.add pair) := by
  rw [Split.add]
  split_ifs with hkey
  · have hkey' : ¬ pair.1.isEmpty = true := by simpa [hasKey] using hkey
    obtain ⟨b₂, hclose, rfl⟩ := SSTableBuilder.add_eq_ok hkey' hrun
    exact ((h.addRecord hkey).closeFull hclose).setPreKey
  · have hkey' : pair.1.isEmpty = true := by simpa [hasKey] using hkey
    rw [SSTableBuilder.add_of_isEmpty _ hkey'] at hrun
    obtain ⟨-, rfl⟩ := Prod.mk.inj (Except.ok.inj hrun)
    refine ⟨h.written, h.block, ?_⟩
    rw [h.filter, List.filter_append, List.filter_cons_of_neg hkey, List.filter_nil,
      List.append_nil]

theorem Built.addAll : ∀ {rest pairs : List (Bytes × Bytes)} {b b₁ : SSTableBuilder} {s : Split},
    Built filter b pairs s → b.addAll rest = .ok b₁ →
      Built filter b₁ (pairs ++ rest) (rest.foldl Split.add s)
  | [], pairs, b, b₁, s, h, hrun => by
      obtain rfl := Except.ok.inj hrun
      rwa [List.append_nil]
  | pair :: rest, pairs, b, b₁, s, h, hrun => by
      obtain ⟨⟨status, b₂⟩, hadd, hrun⟩ := bind_eq_ok.mp hrun
      have hrest := (h.add hadd).addAll hrun
      rwa [List.append_assoc] at hrest

/-- **Step 1 of `finish_sst` writes the last block**, if there is one. -/
theorem Built.finishDataBlocks {ps : List (Bytes × Bytes)} (h : Built filter b pairs s)
    (hcuts : s.Cuts ps) (hps : ∀ r ∈ ps, hasKey r) (hrun : b.finishDataBlocks = .ok b₁) :
    Written b₁ s.blocks ∧ b₁.filterBlockBuilder = b.filterBlockBuilder := by
  have hsize : 0 < b.dataBlockBuilder.size ↔ s.current ≠ [] := by
    rw [h.block]
    refine size_blockOf_pos_iff fun r hr => hps r ?_
    rw [← hcuts.flatten]
    exact List.mem_append_right _ hr
  rw [SSTableBuilder.finishDataBlocks] at hrun
  rw [Split.blocks]
  by_cases hcurrent : s.current = []
  · rw [if_neg (mt hsize.mp (not_not_intro hcurrent))] at hrun
    obtain rfl := Except.ok.inj hrun
    rw [if_pos hcurrent]
    exact ⟨h.written, rfl⟩
  · rw [if_pos (hsize.mpr hcurrent)] at hrun
    obtain ⟨b₂, hdata, hrun⟩ := bind_eq_ok.mp hrun
    obtain ⟨status, w, happend, rfl⟩ := writeDataBlock_eq_ok hdata h.block
    obtain ⟨preKey, -, hb⟩ := bind_eq_ok.mp hrun
    obtain rfl := Except.ok.inj hb
    rw [if_neg hcurrent]
    exact ⟨h.written.block happend rfl rfl rfl rfl rfl rfl, rfl⟩

/-! ## Filter, index and footer -/

/-- The filter block is made of the keys collected. -/
theorem finishFilterBlock_eq_ok {f f' : FilterBlockBuilder} (h : f.finishFilterBlock = .ok f') :
    ∃ filter, f.filterPolicy.createFilter f.keyData = .ok filter ∧
      f' = ⟨filter, f.keyData, filterBytes filter⟩ := by
  obtain ⟨f₁, hcreate, hf'⟩ := bind_eq_ok.mp h
  obtain rfl := Except.ok.inj hf'
  rw [FilterBlockBuilder.createFilter] at hcreate
  split_ifs at hcreate with hkeys
  · obtain rfl := Except.ok.inj hcreate
    exact ⟨f.filterPolicy, by rw [List.isEmpty_iff.mp hkeys]; rfl, rfl⟩
  · obtain ⟨filter, hfilter, hf₁⟩ := bind_eq_ok.mp hcreate
    obtain rfl := Except.ok.inj hf₁
    exact ⟨filter, hfilter, rfl⟩

/-- **Finishing the filter block a second time changes nothing.** -/
theorem finishFilterBlock_twice {f f' f'' : FilterBlockBuilder} (h : f.finishFilterBlock = .ok f')
    (h' : f'.finishFilterBlock = .ok f'') : f'' = f' := by
  obtain ⟨filter, hfilter, rfl⟩ := finishFilterBlock_eq_ok h
  obtain ⟨filter', hfilter', rfl⟩ := finishFilterBlock_eq_ok h'
  obtain rfl := Except.ok.inj ((BloomFilter.createFilter_twice hfilter).symm.trans hfilter')
  rfl

/-- What steps 2 to 4 of `finish_sst` add to the file. -/
theorem writeTail_eq_ok {filter : Bytes} {offset : OffsetInfo} {w : FileWriter}
    (hopened : b.fileWriter.opened = true) (h : b.writeTail filter offset = .ok w) :
    0 < toInt32 b.indexData.length ∧ w.file = b.fileWriter.stream ++
      (filter.take (toInt32 filter.length).toNat ++
        (b.indexData.take (toInt32 b.indexData.length).toNat ++
          (b.footer offset).take (toInt32 (b.footer offset).length).toNat)) := by
  obtain ⟨⟨status₁, w₁⟩, happend₁, h⟩ := bind_eq_ok.mp h
  obtain ⟨⟨status₂, w₂⟩, happend₂, h⟩ := bind_eq_ok.mp h
  obtain ⟨u, hindex, h⟩ := bind_eq_ok.mp h
  obtain ⟨⟨status₃, w₃⟩, happend₃, h⟩ := bind_eq_ok.mp h
  obtain ⟨w₄, hflush, hclose⟩ := bind_eq_ok.mp h
  obtain ⟨hopened₁, hstream₁⟩ := FileWriter.append_eq_ok hopened happend₁
  obtain ⟨hopened₂, hstream₂⟩ := FileWriter.append_eq_ok hopened₁ happend₂
  obtain ⟨hopened₃, hstream₃⟩ := FileWriter.append_eq_ok hopened₂ happend₃
  obtain ⟨w₄', hflush', hstream₄, hopened₄, -⟩ := FileWriter.sync_spec hopened₃
  obtain rfl := Except.ok.inj (hflush.symm.trans hflush')
  obtain ⟨w', hclose', hfile⟩ := FileWriter.close_spec hopened₄
  obtain rfl := Except.ok.inj (hclose.symm.trans hclose')
  refine ⟨by simpa using hindex, ?_⟩
  rw [hfile, hstream₄, hstream₃, hstream₂, hstream₁]
  simp only [List.append_assoc]

/-- What a returning `finish_sst` has done: the last block, the filter block, then the tail. -/
theorem finishSst_eq_ok {sizing : BloomSizing} {status : DBStatus} {b' : SSTableBuilder}
    (h : b.finishSst sizing = .ok (status, b')) : ∃ b₁ filter, b.finishDataBlocks = .ok b₁ ∧
      b₁.filterBlockBuilder.filterPolicy.createFilter b₁.filterBlockBuilder.keyData = .ok filter ∧
      b₁.writeTail (filterBytes filter)
        ⟨toInt32 (filterBytes filter).length, b₁.filterBlockOffset.offset⟩ = .ok b'.fileWriter := by
  rw [SSTableBuilder.finishSst_eq] at h
  obtain ⟨b₁, hblocks, h⟩ := bind_eq_ok.mp h
  obtain ⟨f, hf, h⟩ := bind_eq_ok.mp h
  obtain ⟨f', hf', h⟩ := bind_eq_ok.mp h
  obtain ⟨w, htail, h⟩ := bind_eq_ok.mp h
  obtain ⟨b₂, hnew, h⟩ := bind_eq_ok.mp h
  obtain ⟨-, rfl⟩ := Prod.mk.inj (Except.ok.inj h)
  obtain rfl := fileWriter_new hnew
  rw [finishFilterBlock_twice hf hf'] at htail
  obtain ⟨filter, hcreate, rfl⟩ := finishFilterBlock_eq_ok hf
  exact ⟨b₁, filter, hblocks, hcreate, htail⟩

/-! ## The whole file -/

/-- The footer of a table: where the filter is, and where the index. -/
def tableFooter (pairs : List (Bytes × Bytes)) (filter : BloomFilter) (index : Bytes) : Bytes :=
  let data := dataBytes (Split.ofPairs pairs).blocks
  FooterBuilder.add [] ⟨(filterBytes filter).length, data.length⟩
    ⟨index.length, data.length + (filterBytes filter).length⟩

/-- A file laid out as the table of some pairs, with the given filter and index. -/
structure IsTable (pairs : List (Bytes × Bytes)) (filter : BloomFilter) (index file : Bytes) :
    Prop where
  file : file = dataBytes (Split.ofPairs pairs).blocks ++
    (filterBytes filter ++ (index ++ tableFooter pairs filter index))
  footer : (tableFooter pairs filter index).length = 16
  flatten : (Split.ofPairs pairs).blocks.flatten = pairs.filter hasKey
  nonempty : ∀ records ∈ (Split.ofPairs pairs).blocks, records ≠ []
  index : ∃ entries : List (Bytes × OffsetInfo), index = indexBytes entries ∧
    entries.map (fun e => e.2.size) =
      (Split.ofPairs pairs).blocks.map fun records => ((blockBytes records).length : ℤ)

/-- The length of that file. -/
def tableSize (pairs : List (Bytes × Bytes)) (filter : BloomFilter) (index : Bytes) : ℕ :=
  (dataBytes (Split.ofPairs pairs).blocks).length + (filterBytes filter).length + index.length + 16

/-- The blocks are no longer than all the data. -/
theorem length_blockBytes_le (h : records ∈ blocks) :
    (blockBytes records).length ≤ (dataBytes blocks).length :=
  (List.sublist_flatten_of_mem (List.mem_map_of_mem h)).length_le

/-- **The layout of a finished table.**  A builder on a fresh file that gets through `add` and
`finish_sst` has written the table of its pairs, as long as the table has less than `2 ^ 31`
bytes. -/
theorem isTable_of_finishSst {sizing : BloomSizing} {keysNum : ℤ} {b₀ b' : SSTableBuilder}
    {status : DBStatus} (hnew : SSTableBuilder.new sizing keysNum (.new [] true) = .ok b₀)
    (hadd : b₀.addAll pairs = .ok b) (hfinish : b.finishSst sizing = .ok (status, b')) :
    ∃ b₁ filter₀ filter, b.finishDataBlocks = .ok b₁ ∧
      BloomFilter.new sizing keysNum = .ok filter₀ ∧
      filter₀.createFilter ((pairs.filter hasKey).map Prod.fst) = .ok filter ∧
      (tableSize pairs filter b₁.indexData < 2 ^ 31 →
        IsTable pairs filter b₁.indexData b'.fileWriter.file) := by
  obtain ⟨filter₀, hfilter₀, hbuilt₀⟩ := built_new hnew
  have hbuilt : Built filter₀ b pairs (Split.ofPairs pairs) := hbuilt₀.addAll hadd
  have hcuts := Split.cuts_ofPairs pairs
  obtain ⟨b₁, filter, hblocks, hcreate, htail⟩ := finishSst_eq_ok hfinish
  obtain ⟨hwritten, hsame⟩ := hbuilt.finishDataBlocks hcuts
    (fun r hr => (List.mem_filter.mp hr).2) hblocks
  rw [hsame, hbuilt.filter] at hcreate
  refine ⟨b₁, filter₀, filter, hblocks, hfilter₀, hcreate, fun hsize => ?_⟩
  rw [tableSize] at hsize
  obtain ⟨hstream, hoffset⟩ := hwritten.written (by omega)
  obtain ⟨entries, hentries, hsizes⟩ := hwritten.index
  have hfooter : b₁.footer ⟨toInt32 (filterBytes filter).length, b₁.filterBlockOffset.offset⟩ =
      tableFooter pairs filter b₁.indexData := by
    have hend := toInt32_of_lt (n := (dataBytes (Split.ofPairs pairs).blocks).length +
      (filterBytes filter).length) (by omega)
    rw [SSTableBuilder.footer, tableFooter, hwritten.footer, hoffset,
      toInt32_of_lt (show (filterBytes filter).length < 2 ^ 31 by omega),
      toInt32_of_lt (show b₁.indexData.length < 2 ^ 31 by omega), ← Nat.cast_add, hend]
  have hlength : (tableFooter pairs filter b₁.indexData).length = 16 := length_footer _ _
  refine ⟨?_, hlength, hcuts.blocks.1, hcuts.blocks.2, entries, hentries, hsizes.trans ?_⟩
  · rw [(writeTail_eq_ok hwritten.opened htail).2, hfooter, hstream,
      FileWriter.take_toInt32 (show (filterBytes filter).length < 2 ^ 31 by omega),
      FileWriter.take_toInt32 (show b₁.indexData.length < 2 ^ 31 by omega),
      FileWriter.take_toInt32 (hlength.trans_lt (by decide))]
  · refine List.map_congr_left fun records hmem => toInt32_of_lt ?_
    have hle := length_blockBytes_le hmem
    omega

/-- No table is empty: its index is not. -/
theorem file_ne_nil_of_finishSst {sizing : BloomSizing} {keysNum : ℤ} {b₀ b' : SSTableBuilder}
    {status : DBStatus} (hnew : SSTableBuilder.new sizing keysNum (.new [] true) = .ok b₀)
    (hadd : b₀.addAll pairs = .ok b) (hfinish : b.finishSst sizing = .ok (status, b')) :
    b'.fileWriter.file ≠ [] := by
  obtain ⟨filter₀, -, hbuilt₀⟩ := built_new hnew
  obtain ⟨b₁, filter, hblocks, -, htail⟩ := finishSst_eq_ok hfinish
  obtain ⟨hwritten, -⟩ := (hbuilt₀.addAll hadd).finishDataBlocks (Split.cuts_ofPairs pairs)
    (fun r hr => (List.mem_filter.mp hr).2) hblocks
  obtain ⟨hindex, hfile⟩ := writeTail_eq_ok hwritten.opened htail
  have hle := toInt32_le b₁.indexData.length
  rw [hfile]
  generalize toInt32 b₁.indexData.length = len at hindex hle
  have htake : b₁.indexData.take len.toNat ≠ [] := by
    rw [← List.length_pos_iff, List.length_take]
    omega
  simp [htake]

/-- A table of three pairs, one of them without a key. -/
theorem isTable_of_finishSst_three : ∃ b filter index,
    IsTable [([107], [118]), ([], [97]), ([108], [119])] filter index
      (SSTableBuilder.fileWriter b).file := by
  have hrun : (do
      let b₀ ← SSTableBuilder.new .percent 3 (.new [] true)
      let b ← b₀.addAll [([107], [118]), ([], [97]), ([108], [119])]
      let b₁ ← b.finishDataBlocks
      let filter₀ ← BloomFilter.new .percent 3
      let filter ← filter₀.createFilter [[107], [108]]
      let _ ← b.finishSst .percent
      require (tableSize [([107], [118]), ([], [97]), ([108], [119])] filter b₁.indexData < 2 ^ 31)
        .assertion) = (.ok () : Exec Unit) := rfl
  simp only [bind_eq_ok, require_eq_ok, decide_eq_true_eq, Prod.exists] at hrun
  obtain ⟨b₀, hnew, b, hadd, b₁, hblocks, filter₀, hfilter₀, filter, hfilter, status, b', hfinish,
    hsize⟩ := hrun
  obtain ⟨b₁', filter₀', filter', hblocks', hfilter₀', hfilter', htable⟩ :=
    isTable_of_finishSst hnew hadd hfinish
  obtain rfl := Except.ok.inj (hblocks.symm.trans hblocks')
  obtain rfl := Except.ok.inj (hfilter₀.symm.trans hfilter₀')
  obtain rfl := Except.ok.inj (hfilter.symm.trans hfilter')
  exact ⟨b', filter, b₁.indexData, htable hsize⟩

end SmallKV

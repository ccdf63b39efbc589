import SmallKV.Sstparser.Loads
import SmallKV.Table.Index

/-!
# Sstparser/IndexRanges — where the index says the data blocks are

`Parse` reads back the entries of an index (`parsedIndex_indexBytes`).  `add` advances the running
offset before it makes the entry of the block it has written, so the entry of every block closed by
`add` points behind it; `finish_sst` makes the entry first.  So the entries locate their blocks
exactly when `add` closes none (`indexLocates_iff`).
-/

namespace SmallKV.SSTParser

variable {content : Bytes}

/-! ## Parsing an index -/

/-- An index entry as `Parse` holds it. -/
def toBlock (e : Bytes × OffsetInfo) : IndexBlock :=
  ⟨e.1, ⟨toInt32 e.2.size, toInt32 e.2.offset⟩⟩

/-- The loop of `Parse` on an index. -/
def parsedIndex (index : Bytes) : Exec (List IndexBlock) :=
  parseIndex index index.length (index.length + 1) 0 []

theorem indexBytes_cons (e : Bytes × OffsetInfo) (entries : List (Bytes × OffsetInfo)) :
    indexBytes (e :: entries) = encodeFixed32 (toUInt32 e.1.length) ++ (e.1 ++
      (encodeFixed32 (toUInt32 e.2.size) ++ (encodeFixed32 (toUInt32 e.2.offset) ++
        indexBytes entries))) := by
  simp [indexBytes, IndexBlockBuilder.add, putFixed32, putFixed64, encodeFixed64_bits]

theorem length_indexBytes_cons (e : Bytes × OffsetInfo) (entries : List (Bytes × OffsetInfo)) :
    (indexBytes (e :: entries)).length = 12 + e.1.length + (indexBytes entries).length := by
  simp only [indexBytes_cons, List.length_append, length_encodeFixed32]
  omega

/-- **One round of the loop reads one entry.** -/
theorem parseIndex_cons {before rest : Bytes} {e : Bytes × OffsetInfo}
    {entries : List (Bytes × OffsetInfo)} {stop : ℤ} {fuel : ℕ} {blocks : List IndexBlock}
    (hkey : e.1.length < 2 ^ 31) (hcontent : content = before ++ (indexBytes (e :: entries) ++ rest))
    (hstop : (before.length : ℤ) < stop) :
    parseIndex content stop (fuel + 1) before.length blocks =
      parseIndex content stop fuel (toInt32 (before.length + (4 + e.1.length + 8)))
        (blocks ++ [toBlock e]) := by
  simp only [indexBytes_cons, List.append_assoc] at hcontent
  have hlen := intAt_append before rfl hcontent
  rw [toInt32_of_lt hkey] at hlen
  have hkeyAt : At content (before.length + 4) e.1 :=
    at_append (before ++ encodeFixed32 (toUInt32 e.1.length)) (by simp)
      (by rw [hcontent, List.append_assoc])
  have hinfo : loadOffsetInfo content (.content (before.length + 4 + e.1.length)) =
      .ok (toBlock e).offsetInfo :=
    loadOffsetInfo_append (before ++ encodeFixed32 (toUInt32 e.1.length) ++ e.1)
      (by simp [add_assoc]) (by rw [hcontent, List.append_assoc, List.append_assoc])
  rw [parseIndex, if_pos hstop, loadInt32_eq_ok.mpr hlen, ok_bind,
    stringAt_eq_ok.mpr ⟨rfl, hkeyAt⟩, ok_bind, hinfo, ok_bind]
  rfl

/-- **The loop reads back the entries** of an index inside less than `2 ^ 31` bytes. -/
theorem parseIndex_indexBytes {rest : Bytes} {stop : ℕ} (hstop : stop < 2 ^ 31) :
    ∀ {entries : List (Bytes × OffsetInfo)} {before : Bytes} {fuel : ℕ} {blocks : List IndexBlock},
      content = before ++ (indexBytes entries ++ rest) →
      stop = before.length + (indexBytes entries).length → entries.length < fuel →
        parseIndex content stop fuel before.length blocks = .ok (blocks ++ entries.map toBlock)
  | _, _, 0, _, _, _, hfuel => absurd hfuel (Nat.not_lt_zero _)
  | [], before, fuel + 1, blocks, _, hend, _ => by
      have hend : stop = before.length := by simpa [indexBytes] using hend
      rw [parseIndex, hend, if_neg (lt_irrefl _)]
      simp
  | e :: entries, before, fuel + 1, blocks, hcontent, hend, hfuel => by
      rw [length_indexBytes_cons] at hend
      have hsplit : content = (before ++ indexBytes [e]) ++ (indexBytes entries ++ rest) := by
        rw [hcontent, List.append_assoc, ← List.append_assoc (indexBytes [e]), indexBytes, indexBytes,
          indexBytes, ← List.flatMap_append, List.singleton_append]
      have hnext : (before ++ indexBytes [e]).length = before.length + (4 + e.1.length + 8) := by
        rw [List.length_append, length_indexBytes_cons]
        show _ + (_ + 0) = _
        omega
      have ih : parseIndex content stop fuel (before ++ indexBytes [e]).length
          (blocks ++ [toBlock e]) = .ok (blocks ++ [toBlock e] ++ entries.map toBlock) :=
        parseIndex_indexBytes hstop hsplit (by omega) (Nat.lt_of_succ_lt_succ hfuel)
      have hfits : toInt32 (before.length + (4 + e.1.length + 8)) =
          (before ++ indexBytes [e]).length := by
        have hlt : before.length + (4 + e.1.length + 8) < 2 ^ 31 := by omega
        rw [hnext]
        exact_mod_cast toInt32_of_lt hlt
      rw [parseIndex_cons (by omega) hcontent (by omega), hfits, ih]
      simp

/-- The loop has as many rounds as the index has bytes. -/
theorem length_le_indexBytes (entries : List (Bytes × OffsetInfo)) :
    entries.length ≤ (indexBytes entries).length := by
  induction entries with
  | nil => exact Nat.zero_le _
  | cons e entries ih =>
    rw [length_indexBytes_cons, List.length_cons]
    omega

theorem parsedIndex_indexBytes {entries : List (Bytes × OffsetInfo)}
    (hsmall : (indexBytes entries).length < 2 ^ 31) :
    parsedIndex (indexBytes entries) = .ok (entries.map toBlock) := by
  have hcontent : indexBytes entries = [] ++ (indexBytes entries ++ []) := by
    rw [List.nil_append, List.append_nil]
  exact parseIndex_indexBytes hsmall hcontent (Nat.zero_add _).symm
    (Nat.lt_succ_of_le (length_le_indexBytes entries))

/-- The loop only adds to the entries it has. -/
theorem prefix_of_parseIndex {stop : ℤ} : ∀ {fuel : ℕ} {start : ℤ} {blocks blocks' : List IndexBlock},
    parseIndex content stop fuel start blocks = .ok blocks' → blocks <+: blocks'
  | 0, _, _, _, h => by cases h
  | fuel + 1, start, blocks, blocks', h => by
      rw [parseIndex] at h
      split_ifs at h
      · obtain ⟨keySize, -, h⟩ := bind_eq_ok.mp h
        obtain ⟨key, -, h⟩ := bind_eq_ok.mp h
        obtain ⟨o, -, h⟩ := bind_eq_ok.mp h
        exact (List.prefix_append blocks _).trans (prefix_of_parseIndex h)
      · obtain ⟨-, -, h⟩ := bind_eq_ok.mp h
        obtain rfl := Except.ok.inj h
        exact List.prefix_rfl

/-- Whatever is parsed of an index begins with its first entry, when the key of that is not too
long. -/
theorem exists_of_parsedIndex {e : Bytes × OffsetInfo} {entries : List (Bytes × OffsetInfo)}
    {blocks : List IndexBlock} (hkey : e.1.length < 2 ^ 31)
    (h : parsedIndex (indexBytes (e :: entries)) = .ok blocks) :
    ∃ rest, blocks = toBlock e :: rest := by
  have hpos : 0 < (indexBytes (e :: entries)).length := by
    rw [length_indexBytes_cons]
    omega
  rw [parsedIndex] at h
  generalize hindex : indexBytes (e :: entries) = index at h hpos
  have hcontent : index = [] ++ (indexBytes (e :: entries) ++ []) := by
    rw [List.nil_append, List.append_nil, hindex]
  have hstep : parseIndex index index.length (index.length + 1) (([] : Bytes).length : ℤ) [] =
      parseIndex index index.length index.length
        (toInt32 ((([] : Bytes).length : ℤ) + (4 + e.1.length + 8))) ([] ++ [toBlock e]) :=
    parseIndex_cons hkey hcontent (Nat.cast_lt.mpr hpos)
  obtain ⟨rest, hrest⟩ := prefix_of_parseIndex (hstep.symm.trans h)
  exact ⟨rest, hrest.symm⟩

/-! ## Where the entries point -/

/-- An index entry delimits a data block in a file. -/
def Delimits (file : Bytes) (e : IndexBlock) (records : List (Bytes × Bytes)) : Prop :=
  0 ≤ e.offsetInfo.offset ∧ e.offsetInfo.size = (blockBytes records).length ∧
    (file.drop e.offsetInfo.offset.toNat).take e.offsetInfo.size.toNat = blockBytes records

/-- The entries of an index delimit the data blocks of a file, each one its block, and their ranges
tile what is before the filter. -/
def IndexLocates (index file : Bytes) (filterOffset : ℤ) (blocks : List (List (Bytes × Bytes))) :
    Prop :=
  ∃ entries, parsedIndex index = .ok entries ∧ List.Forall₂ (Delimits file) entries blocks ∧
    Tiles 0 filterOffset (entries.map fun e => (e.offsetInfo.offset, e.offsetInfo.size))

variable {pairs : List (Bytes × Bytes)} {sizing : BloomSizing} {keysNum : ℤ}
  {b₀ b b₁ b' : SSTableBuilder} {status : DBStatus}

/-- No block is closed by `add` exactly when all records are within the limit. -/
theorem closed_eq_nil_iff (hkeys : ∀ p ∈ pairs, p.1 ≠ []) :
    (Split.ofPairs pairs).closed = [] ↔ (recordBytes pairs).length ≤ maxDataBlockSize := by
  have htight := Split.tight_ofPairs pairs
  have hflatten := (cuts_ofPairs_of_keys hkeys).flatten
  constructor
  · intro hnil
    rw [hnil, List.flatten_nil, List.nil_append] at hflatten
    have hcurrent := htight.current
    rwa [hflatten, size_blockOf hkeys] at hcurrent
  · intro hle
    by_contra hne
    obtain ⟨records, rest, hclosed⟩ := List.exists_cons_of_ne_nil hne
    have hfull := htight.full records (by simp [hclosed])
    rw [hclosed, List.flatten_cons, List.append_assoc] at hflatten
    rw [size_blockOf fun p hp => hkeys p (hflatten ▸ List.mem_append_left _ hp)] at hfull
    have hmono : (recordBytes records).length ≤ (recordBytes pairs).length := by
      rw [← hflatten, recordBytes, recordBytes, encodeFrom_append, List.length_append]
      exact Nat.le_add_right _ _
    omega

/-- The first entry of a block closed by `add` is parsed, and points behind the block. -/
theorem exists_of_parsedIndex_closed {s : Split} (htight : s.Tight) {records : List (Bytes × Bytes)}
    {rest : List (List (Bytes × Bytes))} {entries : List IndexBlock}
    (hclosed : s.closed = records :: rest) (hkeys : ∀ p ∈ records, p.1 ≠ [])
    (h : parsedIndex (indexBytes (indexEntries s)) = .ok entries) :
    ∃ key more, entries = ⟨key, ⟨toInt32 (blockBytes records).length,
      toInt32 (blockBytes records).length⟩⟩ :: more := by
  obtain ⟨others, hentries⟩ := exists_indexEntries_eq hclosed
  have hbefore := htight.before records (by simp [hclosed])
  rw [size_blockOf fun p hp => hkeys p ((List.dropLast_sublist records).subset hp)] at hbefore
  have hkey : (closedEntry [records]).1.length < 2 ^ 31 := by
    have hsep := SSTableBuilder.length_shortestKey_le (lastKey [records].flatten.dropLast)
      (lastKey [records].flatten)
    have hlast := length_lastKey_le records.dropLast
    rw [List.flatten_singleton] at hsep
    have hmax : maxDataBlockSize = 4096 := rfl
    rw [closedEntry, List.flatten_singleton]
    dsimp only
    omega
  rw [hentries] at h
  obtain ⟨more, hmore⟩ := exists_of_parsedIndex hkey h
  have hblock : toBlock (closedEntry [records]) = ⟨(closedEntry [records]).1,
      ⟨toInt32 (blockBytes records).length, toInt32 (blockBytes records).length⟩⟩ := by
    simp [toBlock, closedEntry, dataBytes]
  exact ⟨_, more, hmore.trans (congrArg (· :: more) hblock)⟩

/-- The size of a block whose records are within the limit. -/
theorem length_blockBytes_lt (hne : pairs ≠ []) (hkeys : ∀ p ∈ pairs, p.1 ≠ [])
    (hle : (recordBytes pairs).length ≤ maxDataBlockSize) : (blockBytes pairs).length < 2 ^ 31 := by
  have hnum : pairs.length ≤ recordStart pairs pairs.length := le_recordStart le_rfl
  rw [recordStart, List.take_length] at hnum
  have hmax : maxDataBlockSize = 4096 := rfl
  rw [blockBytes_eq hne hkeys, List.length_append, length_restartTable, groupNum]
  omega

theorem written_of_finishDataBlocks
    (hnew : SSTableBuilder.new sizing keysNum (.new [] true) = .ok b₀)
    (hadd : b₀.addAll pairs = .ok b) (hblocks : b.finishDataBlocks = .ok b₁) :
    Written b₁ (Split.ofPairs pairs).blocks := by
  obtain ⟨filter₀, -, hbuilt₀⟩ := built_new hnew
  exact ((hbuilt₀.addAll hadd).finishDataBlocks (Split.cuts_ofPairs pairs)
    (fun r hr => (List.mem_filter.mp hr).2) hblocks).1

/-- An index that locates its blocks has no entry made by `add`. -/
theorem closed_eq_nil_of_indexLocates {file : Bytes} {filterOffset : ℤ}
    (hkeys : ∀ p ∈ pairs, p.1 ≠ [])
    (h : IndexLocates (indexBytes (indexEntries (Split.ofPairs pairs))) file filterOffset
      (Split.ofPairs pairs).blocks) : (Split.ofPairs pairs).closed = [] := by
  have hcuts := cuts_ofPairs_of_keys hkeys
  obtain ⟨entries, hparsed, hdelimits, htiles⟩ := h
  by_contra hne
  obtain ⟨records, rest, hclosed⟩ := List.exists_cons_of_ne_nil hne
  have hrecords : ∀ p ∈ records, p.1 ≠ [] := fun p hp => hkeys p (by
    rw [← hcuts.flatten, hclosed, List.flatten_cons, List.append_assoc]
    exact List.mem_append_left _ hp)
  obtain ⟨key, more, rfl⟩ :=
    exists_of_parsedIndex_closed (Split.tight_ofPairs pairs) hclosed hrecords hparsed
  -- the ranges start at 0, but the first entry points behind its block
  obtain ⟨hstart, -⟩ := htiles
  have hfirst : ∃ others, (Split.ofPairs pairs).blocks = records :: others := by
    rw [Split.blocks, hclosed]
    split_ifs
    · exact ⟨rest, rfl⟩
    · exact ⟨_, List.cons_append⟩
  obtain ⟨others, hothers⟩ := hfirst
  rw [hothers, List.forall₂_cons] at hdelimits
  have hsize := hdelimits.1.2.1
  dsimp only at hstart hsize
  have hpos : 0 < (blockBytes records).length := by
    rw [blockBytes_eq (hcuts.nonempty records (by simp [hclosed])) hrecords, List.length_append,
      length_restartTable]
    omega
  omega

/-- All records are within the limit: they are one block, left for `finish_sst`. -/
theorem ofPairs_of_le (hkeys : ∀ p ∈ pairs, p.1 ≠ [])
    (hle : (recordBytes pairs).length ≤ maxDataBlockSize) : Split.ofPairs pairs = ⟨[], pairs⟩ := by
  have hnil := (closed_eq_nil_iff hkeys).mpr hle
  have hflatten := (cuts_ofPairs_of_keys hkeys).flatten
  rw [hnil, List.flatten_nil, List.nil_append] at hflatten
  calc Split.ofPairs pairs = ⟨(Split.ofPairs pairs).closed, (Split.ofPairs pairs).current⟩ := rfl
    _ = ⟨[], pairs⟩ := by rw [hnil, hflatten]

/-- **The entry of a block that is the only one delimits it**, at the front of the file. -/
theorem indexLocates_of_le {rest : Bytes} (hne : pairs ≠ []) (hkeys : ∀ p ∈ pairs, p.1 ≠ [])
    (hle : (recordBytes pairs).length ≤ maxDataBlockSize) :
    IndexLocates (indexBytes (indexEntries ⟨[], pairs⟩)) (blockBytes pairs ++ rest)
      (blockBytes pairs).length [pairs] := by
  have hsmall := length_blockBytes_lt hne hkeys hle
  have hsize : toInt32 (blockBytes pairs).length = (blockBytes pairs).length :=
    toInt32_of_lt hsmall
  have hentries : indexEntries ⟨[], pairs⟩ = [(SSTableBuilder.bump (lastKey pairs),
      ⟨toInt32 (blockBytes pairs).length, 0⟩)] := by
    have hzero : toInt32 (dataBytes []).length = 0 := rfl
    rw [indexEntries, lastEntry, if_neg hne, List.flatten_nil, List.nil_append, hzero]
    rfl
  rw [hsize] at hentries
  have hindexSmall : (indexBytes (indexEntries ⟨[], pairs⟩)).length < 2 ^ 31 := by
    have hkey := (SSTableBuilder.length_bump_le (lastKey pairs)).trans (length_lastKey_le pairs)
    have hmax : maxDataBlockSize = 4096 := rfl
    rw [hentries, length_indexBytes_cons]
    show 12 + (SSTableBuilder.bump (lastKey pairs)).length + 0 < _
    omega
  refine ⟨_, parsedIndex_indexBytes hindexSmall, ?_, ?_⟩
  · rw [hentries, List.map_singleton, List.forall₂_cons]
    refine ⟨⟨le_rfl, hsize, ?_⟩, .nil⟩
    show ((blockBytes pairs ++ rest).drop 0).take (toInt32 (blockBytes pairs).length).toNat = _
    rw [hsize, List.drop_zero, Int.toNat_natCast, List.take_left' rfl]
  · rw [hentries, List.map_singleton, List.map_singleton, Tiles, Tiles]
    show (0 : ℤ) = 0 ∧ 0 ≤ toInt32 (blockBytes pairs).length ∧ 0 + toInt32 _ = _
    rw [hsize]
    exact ⟨rfl, Nat.cast_nonneg _, zero_add _⟩

/-- **The index locates the data blocks exactly when there is one**, closed by `finish_sst`: when all
records together are within the limit of a block. -/
theorem indexLocates_iff (hkeys : ∀ p ∈ pairs, p.1 ≠ [])
    (hnew : SSTableBuilder.new sizing keysNum (.new [] true) = .ok b₀)
    (hadd : b₀.addAll pairs = .ok b) (hblocks : b.finishDataBlocks = .ok b₁)
    (hfinish : b.finishSst sizing = .ok (status, b')) :
    IndexLocates b₁.indexData b'.fileWriter.file b₁.filterBlockOffset.offset
      (Split.ofPairs pairs).blocks ↔ (recordBytes pairs).length ≤ maxDataBlockSize := by
  obtain ⟨hindex, hoffset⟩ := index_of_addAll hkeys hnew hadd hblocks
  rw [hindex, hoffset]
  refine ⟨fun h => (closed_eq_nil_iff hkeys).mp (closed_eq_nil_of_indexLocates hkeys h),
    fun hle => ?_⟩
  obtain ⟨b₂, filter, hblocks₂, -, htail⟩ := finishSst_eq_ok hfinish
  obtain rfl := Except.ok.inj (hblocks.symm.trans hblocks₂)
  have hwritten := written_of_finishDataBlocks hnew hadd hblocks
  obtain ⟨hpos, hfile⟩ := writeTail_eq_ok hwritten.opened htail
  rw [ofPairs_of_le hkeys hle] at hindex hwritten ⊢
  have hne : pairs ≠ [] := by
    rintro rfl
    rw [hindex] at hpos
    exact absurd hpos (by decide)
  have hall : Split.blocks ⟨[], pairs⟩ = [pairs] := by
    rw [Split.blocks, if_neg hne, List.nil_append]
  have hdata : dataBytes [pairs] = blockBytes pairs := List.append_nil _
  have hsmall := length_blockBytes_lt hne hkeys hle
  rw [hall] at hwritten ⊢
  obtain ⟨hstream, -⟩ := hwritten.written (by rwa [hdata])
  rw [hfile, hstream, hdata, toInt32_of_lt hsmall]
  exact indexLocates_of_le hne hkeys hle

/-- A table of three pairs in one block. -/
theorem indexLocates_iff_three : ∃ b₁ b' : SSTableBuilder,
    IndexLocates b₁.indexData b'.fileWriter.file b₁.filterBlockOffset.offset
      (Split.ofPairs [([107], [97]), ([107, 1], []), ([108], [98])]).blocks := by
  have hrun : (do
      let b₀ ← SSTableBuilder.new .percent 3 (.new [] true)
      let b ← b₀.addAll [([107], [97]), ([107, 1], []), ([108], [98])]
      let _ ← b.finishDataBlocks
      let _ ← b.finishSst .percent
      return ()) = (.ok () : Exec Unit) := by decide +kernel
  simp only [bind_eq_ok, Prod.exists] at hrun
  obtain ⟨b₀, hnew, b, hadd, b₁, hblocks, status, b', hfinish, -⟩ := hrun
  exact ⟨b₁, b', (indexLocates_iff (by decide) hnew hadd hblocks hfinish).mpr (by decide)⟩

/-- Every index locates the data blocks. -/
def IndicesLocate : Prop :=
  ∀ (sizing : BloomSizing) (keysNum : ℤ) (pairs : List (Bytes × Bytes))
    (b₀ b b₁ b' : SSTableBuilder) (status : DBStatus), (∀ p ∈ pairs, p.1 ≠ []) →
    pairs.Pairwise (fun p q => p.1 < q.1) →
    SSTableBuilder.new sizing keysNum (.new [] true) = .ok b₀ → b₀.addAll pairs = .ok b →
    b.finishDataBlocks = .ok b₁ → b.finishSst sizing = .ok (status, b') →
    IndexLocates b₁.indexData b'.fileWriter.file b₁.filterBlockOffset.offset
      (Split.ofPairs pairs).blocks

/-- **The entry of a block closed by `add` points behind the block.** -/
theorem not_indicesLocate : ¬ IndicesLocate := by
  intro h
  let pairs : List (Bytes × Bytes) := [([97], []), ([98], List.replicate 4096 0)]
  have hkeys : ∀ p ∈ pairs, p.1 ≠ [] := by decide +kernel
  have hrun : (do
      let b₀ ← SSTableBuilder.new .percent 2 (.new [] true)
      let b ← b₀.addAll pairs
      let _ ← b.finishDataBlocks
      let _ ← b.finishSst .percent
      return ()) = (.ok () : Exec Unit) := by decide +kernel
  simp only [bind_eq_ok, Prod.exists] at hrun
  obtain ⟨b₀, hnew, b, hadd, b₁, hblocks, status, b', hfinish, -⟩ := hrun
  have hlocates := h _ _ pairs b₀ b b₁ b' status hkeys (by decide +kernel) hnew hadd hblocks hfinish
  rw [(index_of_addAll hkeys hnew hadd hblocks).1] at hlocates
  have hnil := closed_eq_nil_of_indexLocates hkeys hlocates
  exact absurd ((closed_eq_nil_iff hkeys).mp hnil) (by decide +kernel)

end SmallKV.SSTParser

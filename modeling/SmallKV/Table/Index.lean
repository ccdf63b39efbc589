import SmallKV.Table.Records

/-!
# Table/Index — the entries of the index of a table

The index has one entry for each data block: a separator, made of the last two keys added when the
block is closed by `add` and of the last key when it is closed by `finish_sst`, and where the block
is.  `Indexed` says that the index of a builder holds the entries of the blocks closed so far, and
`indexData_of_finishDataBlocks` what it holds in the end.
-/

namespace SmallKV

/-! ## Separators -/

namespace SSTableBuilder

/-- A key with its last byte increased. -/
def bump (key : Bytes) : Bytes := key.dropLast ++ (key.getLast?.map (· + 1)).toList

/-- What `find_shortest_key` returns. -/
def shortestKey (key1 key2 : Bytes) : Bytes :=
  if key1.length = countEqual key1 key2 then key1 ++ ascii " "
  else bump (key1.take (countEqual key1 key2 + 1))

theorem incrementBack_eq_ok {key r : Bytes} : incrementBack key = .ok r ↔ key ≠ [] ∧ r = bump key := by
  rcases List.eq_nil_or_concat key with rfl | ⟨init, last, rfl⟩
  · simp [incrementBack]
  · rw [List.concat_eq_append, incrementBack, bump, List.getLast?_concat, List.dropLast_concat]
    constructor
    · intro h
      exact ⟨by simp, (Except.ok.inj h).symm⟩
    · rintro ⟨-, rfl⟩
      rfl

theorem findShortestKey_eq_ok {key1 key2 r : Bytes} : findShortestKey key1 key2 = .ok r ↔
    key1 ≠ [] ∧ key2 ≠ [] ∧ key1 < key2 ∧ r = shortestKey key1 key2 := by
  simp only [findShortestKey, bind_eq_ok, require_eq_ok, Bool.not_eq_true', decide_eq_true_eq,
    List.isEmpty_eq_false_iff]
  constructor
  · rintro ⟨_, h1, _, h2, _, hlt, h⟩
    refine ⟨h1, h2, hlt, ?_⟩
    rw [shortestKey]
    split_ifs at h ⊢
    · exact (Except.ok.inj h).symm
    · exact (incrementBack_eq_ok.mp h).2
  · rintro ⟨h1, h2, hlt, rfl⟩
    refine ⟨(), h1, (), h2, (), hlt, ?_⟩
    rw [shortestKey]
    split_ifs
    · rfl
    · exact incrementBack_eq_ok.mpr ⟨by simpa using h1, rfl⟩

theorem length_bump_le (key : Bytes) : (bump key).length ≤ key.length := by
  rcases List.eq_nil_or_concat key with rfl | ⟨init, last, rfl⟩
  · rfl
  · simp [bump]

theorem length_shortestKey_le (key1 key2 : Bytes) :
    (shortestKey key1 key2).length ≤ key1.length + 1 := by
  rw [shortestKey]
  split_ifs
  · rw [List.length_append]
    rfl
  · exact (length_bump_le _).trans ((List.length_take_le' _ _).trans (Nat.le_succ _))

theorem countEqual_le : ∀ key1 key2 : Bytes,
    countEqual key1 key2 ≤ key1.length ∧ countEqual key1 key2 ≤ key2.length
  | [], _ => by simp [countEqual]
  | a :: key1, [] => by simp [countEqual]
  | a :: key1, b :: key2 => by
      have hle := countEqual_le key1 key2
      rw [countEqual, List.length_cons, List.length_cons]
      split_ifs <;> omega

theorem length_shortestKey_le_right (key1 key2 : Bytes) :
    (shortestKey key1 key2).length ≤ key2.length + 1 := by
  have hle := countEqual_le key1 key2
  rw [shortestKey]
  split_ifs with hall
  · rw [List.length_append, hall]
    exact Nat.succ_le_succ hle.2
  · refine (length_bump_le _).trans ((List.length_take_le _ _).trans ?_)
    exact Nat.succ_le_succ hle.2

end SSTableBuilder

open SSTableBuilder

/-! ## Entries -/

/-- The last key of some records. -/
def lastKey (records : List (Bytes × Bytes)) : Bytes := (records.map Prod.fst).getLastD []

/-- The entry that `add` makes for the last of some blocks: its separator comes from the last two
keys added, of which the first may belong to the block before. -/
def closedEntry (closed : List (List (Bytes × Bytes))) : Bytes × OffsetInfo :=
  (shortestKey (lastKey closed.flatten.dropLast) (lastKey closed.flatten),
    ⟨toInt32 (blockBytes (closed.getLastD [])).length, toInt32 (dataBytes closed).length⟩)

/-- The entries that `add` makes. -/
def closedEntries (closed : List (List (Bytes × Bytes))) : List (Bytes × OffsetInfo) :=
  (List.range closed.length).map fun i => closedEntry (closed.take (i + 1))

/-- The entry that `finish_sst` makes for the block it closes. -/
def lastEntry (s : Split) : Bytes × OffsetInfo :=
  (bump (lastKey (s.closed.flatten ++ s.current)),
    ⟨toInt32 (blockBytes s.current).length, toInt32 (dataBytes s.closed).length⟩)

/-- All entries of an index. -/
def indexEntries (s : Split) : List (Bytes × OffsetInfo) :=
  closedEntries s.closed ++ if s.current = [] then [] else [lastEntry s]

theorem lastKey_concat (records : List (Bytes × Bytes)) (r : Bytes × Bytes) :
    lastKey (records ++ [r]) = r.1 := by
  rw [lastKey, List.map_append, List.map_singleton, List.getLastD_concat]

theorem lastKey_append {ps qs : List (Bytes × Bytes)} (hqs : qs ≠ []) :
    lastKey (ps ++ qs) = lastKey qs := by
  obtain ⟨init, r, rfl⟩ := (List.eq_nil_or_concat qs).resolve_left hqs
  rw [List.concat_eq_append, lastKey_concat, ← List.append_assoc, lastKey_concat]

/-- The last key takes no more bytes than the records. -/
theorem length_lastKey_le (records : List (Bytes × Bytes)) :
    (lastKey records).length ≤ (recordBytes records).length := by
  rcases List.eq_nil_or_concat records with rfl | ⟨init, r, rfl⟩
  · exact Nat.zero_le _
  · have hle := length_preKey_le (init ++ [r])
    rw [List.concat_eq_append, lastKey_concat]
    simpa [RecordState.next] using hle

theorem closedEntries_concat (closed : List (List (Bytes × Bytes)))
    (records : List (Bytes × Bytes)) : closedEntries (closed ++ [records]) =
      closedEntries closed ++ [closedEntry (closed ++ [records])] := by
  have hsame : ∀ i ∈ List.range closed.length, closedEntry ((closed ++ [records]).take (i + 1)) =
      closedEntry (closed.take (i + 1)) := by
    intro i hi
    rw [List.take_append_of_le_length (List.mem_range.mp hi)]
  rw [closedEntries, closedEntries, List.length_append, List.length_singleton, List.range_succ,
    List.map_append, List.map_congr_left hsame, List.map_singleton]
  congr 3
  rw [List.take_of_length_le (by simp)]

/-- The first block closed by `add` has the first entry. -/
theorem exists_indexEntries_eq {s : Split} {records : List (Bytes × Bytes)}
    {rest : List (List (Bytes × Bytes))} (h : s.closed = records :: rest) :
    ∃ more, indexEntries s = closedEntry [records] :: more := by
  have hfirst : closedEntries s.closed = closedEntry [records] ::
      (List.range rest.length).map fun i => closedEntry (s.closed.take (i + 2)) := by
    rw [closedEntries, h, List.length_cons, List.range_succ_eq_map, List.map_cons, List.map_map]
    rfl
  exact ⟨_, by rw [indexEntries, hfirst, List.cons_append]⟩

/-! ## How full the blocks are -/

variable {pairs : List (Bytes × Bytes)}

namespace Split

/-- Closed blocks are over the limit, and were not before their last record. -/
structure Tight (s : Split) : Prop where
  full : ∀ records ∈ s.closed, maxDataBlockSize < (blockOf records).size
  before : ∀ records ∈ s.closed, (blockOf records.dropLast).size ≤ maxDataBlockSize
  current : (blockOf s.current).size ≤ maxDataBlockSize

theorem Tight.add {s : Split} (h : s.Tight) (pair : Bytes × Bytes) : (s.add pair).Tight := by
  rw [Split.add]
  split_ifs with hkey
  · rw [closeFull]
    split_ifs with hfull
    · refine ⟨fun records hmem => ?_, fun records hmem => ?_, Nat.zero_le _⟩
      · rcases List.mem_append.mp hmem with hmem | hmem
        · exact h.full records hmem
        · rwa [List.mem_singleton.mp hmem]
      · rcases List.mem_append.mp hmem with hmem | hmem
        · exact h.before records hmem
        · rw [List.mem_singleton.mp hmem, push, List.dropLast_concat]
          exact h.current
    · exact ⟨h.full, h.before, Nat.le_of_not_lt hfull⟩
  · exact h

theorem tight_foldl : ∀ (pairs : List (Bytes × Bytes)) {s : Split}, s.Tight →
    (pairs.foldl Split.add s).Tight
  | [], _, h => h
  | pair :: pairs, _, h => tight_foldl pairs (h.add pair)

theorem tight_ofPairs (pairs : List (Bytes × Bytes)) : (ofPairs pairs).Tight :=
  tight_foldl pairs ⟨by simp, by simp, by decide⟩

end Split

/-- Pairs that all have keys are all cut into blocks. -/
theorem cuts_ofPairs_of_keys (hkeys : ∀ p ∈ pairs, p.1 ≠ []) : (Split.ofPairs pairs).Cuts pairs := by
  have hfilter : pairs.filter hasKey = pairs :=
    List.filter_eq_self.mpr fun p hp => by simpa [hasKey] using hkeys p hp
  simpa [hfilter] using Split.cuts_ofPairs pairs

theorem hasKey_of_mem_current (hkeys : ∀ p ∈ pairs, p.1 ≠ []) :
    ∀ r ∈ (Split.ofPairs pairs).current, hasKey r = true := by
  intro r hr
  have hmem : r ∈ pairs := (cuts_ofPairs_of_keys hkeys).flatten ▸ List.mem_append_right _ hr
  simpa [hasKey] using hkeys r hmem

/-! ## What the builder collects -/

/-- The index of a builder holds the entries of the closed blocks, its offset is the length of these,
and `pre_key` is the last key added.  The keys of each separator were in order. -/
structure Indexed (b : SSTableBuilder) (s : Split) : Prop where
  block : b.dataBlockBuilder = blockOf s.current
  index : b.indexData = indexBytes (closedEntries s.closed)
  indexBuilder : b.indexBlockBuilder = []
  offset : b.filterBlockOffset.offset = toInt32 (dataBytes s.closed).length
  preKey : b.preKey = lastKey (s.closed.flatten ++ s.current)
  ordered : ∀ i < s.closed.length, lastKey (s.closed.take (i + 1)).flatten.dropLast ≠ [] ∧
    lastKey (s.closed.take (i + 1)).flatten.dropLast < lastKey (s.closed.take (i + 1)).flatten

variable {b b₁ : SSTableBuilder} {s : Split}

theorem indexed_new {sizing : BloomSizing} {keysNum : ℤ} {w : FileWriter}
    (h : SSTableBuilder.new sizing keysNum w = .ok b) : Indexed b {} := by
  obtain ⟨f, -, hb⟩ := bind_eq_ok.mp h
  obtain rfl := Except.ok.inj hb
  exact ⟨rfl, rfl, rfl, rfl, rfl, by simp⟩

/-- Offsets are added up as `int`s. -/
theorem toInt32_length_dataBytes (blocks : List (List (Bytes × Bytes)))
    (records : List (Bytes × Bytes)) : toInt32 (toInt32 (dataBytes blocks).length +
      toInt32 (blockBytes records).length) = toInt32 (dataBytes (blocks ++ [records])).length := by
  rw [toInt32_add_toInt32, add_comm, toInt32_add_toInt32, add_comm, dataBytes_concat,
    List.length_append, Nat.cast_add]

/-- **A closed block gets its entry**, behind the block, with a separator between the last two
keys. -/
theorem Indexed.close {pair : Bytes × Bytes} {w : FileWriter} {sep : Bytes} (h : Indexed b s)
    (hsep : SSTableBuilder.findShortestKey b.preKey pair.1 = .ok sep) :
    let b₂ := { b.addRecord pair.1 pair.2 with
      dataBlockBuilder := (blockOf (s.push pair).current).finishDataBlock, fileWriter := w }
    let b₃ := b₂.advance.indexDataBlock sep
    Indexed { b₃ with dataBlockBuilder := b₃.dataBlockBuilder.clear, preKey := pair.1 }
      (s.push pair).close := by
  intro b₂ b₃
  obtain ⟨hne, -, hlt, rfl⟩ := findShortestKey_eq_ok.mp hsep
  have hflatten : (s.push pair).close.closed.flatten = (s.closed.flatten ++ s.current) ++ [pair] := by
    rw [Split.close, Split.push, List.flatten_concat, List.append_assoc]
  have hpre : lastKey (s.push pair).close.closed.flatten.dropLast = b.preKey := by
    rw [hflatten, List.dropLast_concat, h.preKey]
  have hlast : lastKey (s.push pair).close.closed.flatten = pair.1 := by
    rw [hflatten, lastKey_concat]
  have hoffset : b₃.filterBlockOffset.offset =
      toInt32 (dataBytes (s.push pair).close.closed).length := by
    show toInt32 (b.filterBlockOffset.offset + toInt32 (blockBytes (s.push pair).current).length) = _
    rw [h.offset, toInt32_length_dataBytes]
    rfl
  have hentry : closedEntry (s.push pair).close.closed = (shortestKey b.preKey pair.1,
      ⟨toInt32 (blockBytes (s.push pair).current).length, b₃.filterBlockOffset.offset⟩) := by
    rw [closedEntry, hpre, hlast, hoffset, Split.close, List.getLastD_concat]
  refine ⟨rfl, ?_, rfl, hoffset, ?_, fun i hi => ?_⟩
  · show b.indexData ++ IndexBlockBuilder.add b.indexBlockBuilder _ _ = _
    have hconcat : closedEntries (s.push pair).close.closed =
        closedEntries s.closed ++ [closedEntry (s.push pair).close.closed] :=
      closedEntries_concat s.closed _
    rw [hconcat, hentry, indexBytes_concat, h.index, h.indexBuilder]
    rfl
  · rw [← hlast, Split.close, List.append_nil]
  · rw [Split.close, List.length_append, List.length_singleton] at hi
    rcases Nat.lt_succ_iff_lt_or_eq.mp hi with hi | rfl
    · rw [Split.close, List.take_append_of_le_length hi]
      exact h.ordered i hi
    · rw [List.take_of_length_le (by simp [Split.close, Split.push]), hpre, hlast]
      exact ⟨hne, hlt⟩

/-- **`add` keeps the invariant.** -/
theorem Indexed.add {pair : Bytes × Bytes} {status : DBStatus} (h : Indexed b s)
    (hrun : b.add pair.1 pair.2 = .ok (status, b₁)) : Indexed b₁ (s.add pair) := by
  rw [Split.add]
  split_ifs with hkey
  · have hkey' : ¬ pair.1.isEmpty = true := by simpa [hasKey] using hkey
    obtain ⟨b₂, hclose, rfl⟩ := SSTableBuilder.add_eq_ok hkey' hrun
    have hblock : (b.addRecord pair.1 pair.2).dataBlockBuilder = blockOf (s.push pair).current := by
      rw [SSTableBuilder.addRecord, h.block, Split.push, blockOf_concat]
    rw [SSTableBuilder.closeFull, hblock] at hclose
    rw [Split.closeFull]
    split_ifs at hclose ⊢ with hfull
    · obtain ⟨b₃, hdata, hclose⟩ := bind_eq_ok.mp hclose
      obtain ⟨status₃, w, -, rfl⟩ := writeDataBlock_eq_ok hdata hblock
      obtain ⟨sep, hsep, hb⟩ := bind_eq_ok.mp hclose
      obtain rfl := Except.ok.inj hb
      exact h.close hsep
    · obtain rfl := Except.ok.inj hclose
      refine ⟨hblock, h.index, h.indexBuilder, h.offset, ?_, h.ordered⟩
      show pair.1 = _
      rw [Split.push, ← List.append_assoc, lastKey_concat]
  · have hkey' : pair.1.isEmpty = true := by simpa [hasKey] using hkey
    rw [SSTableBuilder.add_of_isEmpty _ hkey'] at hrun
    obtain ⟨-, rfl⟩ := Prod.mk.inj (Except.ok.inj hrun)
    exact h

theorem Indexed.addAll : ∀ {pairs : List (Bytes × Bytes)} {b b₁ : SSTableBuilder} {s : Split},
    Indexed b s → b.addAll pairs = .ok b₁ → Indexed b₁ (pairs.foldl Split.add s)
  | [], b, b₁, s, h, hrun => by
      obtain rfl := Except.ok.inj hrun
      exact h
  | pair :: pairs, b, b₁, s, h, hrun => by
      obtain ⟨⟨status, b₂⟩, hadd, hrun⟩ := bind_eq_ok.mp hrun
      exact (h.add hadd).addAll hrun

/-- **Step 1 of `finish_sst` completes the index.** -/
theorem Indexed.finishDataBlocks (h : Indexed b s) (hcurrent : ∀ r ∈ s.current, hasKey r = true)
    (hrun : b.finishDataBlocks = .ok b₁) : b₁.indexData = indexBytes (indexEntries s) ∧
      b₁.filterBlockOffset.offset = toInt32 (dataBytes s.blocks).length := by
  rw [SSTableBuilder.finishDataBlocks, h.block] at hrun
  rw [indexEntries, Split.blocks]
  by_cases hnil : s.current = []
  · rw [if_neg (mt (size_blockOf_pos_iff hcurrent).mp (not_not_intro hnil))] at hrun
    obtain rfl := Except.ok.inj hrun
    rw [if_pos hnil, if_pos hnil, List.append_nil]
    exact ⟨h.index, h.offset⟩
  · rw [if_pos ((size_blockOf_pos_iff hcurrent).mpr hnil)] at hrun
    obtain ⟨b₂, hdata, hrun⟩ := bind_eq_ok.mp hrun
    obtain ⟨status, w, -, rfl⟩ := writeDataBlock_eq_ok hdata h.block
    obtain ⟨preKey, hbump, hb⟩ := bind_eq_ok.mp hrun
    obtain rfl := Except.ok.inj hb
    obtain ⟨-, rfl⟩ := incrementBack_eq_ok.mp hbump
    rw [if_neg hnil, if_neg hnil]
    refine ⟨?_, ?_⟩
    · show b.indexData ++ IndexBlockBuilder.add b.indexBlockBuilder (bump b.preKey)
        ⟨toInt32 (blockBytes s.current).length, b.filterBlockOffset.offset⟩ = _
      rw [lastEntry, indexBytes_concat, h.index, h.indexBuilder, h.preKey, h.offset]
    · show toInt32 (b.filterBlockOffset.offset + toInt32 (blockBytes s.current).length) = _
      rw [h.offset, toInt32_length_dataBytes]

/-- **The index of a whole table.** -/
theorem index_of_addAll {sizing : BloomSizing} {keysNum : ℤ} {w : FileWriter} {b₀ : SSTableBuilder}
    (hkeys : ∀ p ∈ pairs, p.1 ≠ []) (hnew : SSTableBuilder.new sizing keysNum w = .ok b₀)
    (hadd : b₀.addAll pairs = .ok b) (hblocks : b.finishDataBlocks = .ok b₁) :
    b₁.indexData = indexBytes (indexEntries (Split.ofPairs pairs)) ∧
      b₁.filterBlockOffset.offset = toInt32 (dataBytes (Split.ofPairs pairs).blocks).length :=
  ((indexed_new hnew).addAll hadd).finishDataBlocks (hasKey_of_mem_current hkeys) hblocks

end SmallKV

import SmallKV.Foundations.Separators
import SmallKV.Sstparser.IndexRanges
import SmallKV.Table.ShortestKey

/-!
# Sstparser/Routing — which block the index sends a key to

`FindKeyDBIndex` takes the first block whose separator is above the key.  The separator that `add`
makes for a block comes too late, when the key it should not be above is in the block already; so
it is above the block's last key only if that extends the key before by a byte below a blank, and
the one that `finish_sst` makes only if the last byte is not `0xFF` (`routed_iff`).
-/

namespace SmallKV.SSTParser

open SSTableBuilder

/-- The keys of some blocks. -/
def blockKeys (blocks : List (List (Bytes × Bytes))) : List (List Bytes) :=
  blocks.map fun records => records.map Prod.fst

/-- The separators of an index separate the blocks, so every key is sent to the block it is in. -/
structure Routed (blocks : List (List (Bytes × Bytes))) (index : List IndexBlock) : Prop where
  separates : Separates (blockKeys blocks) (index.map IndexBlock.shortestKey)
  finds : ∀ (i : ℕ) (records : List (Bytes × Bytes)), blocks[i]? = some records → ∀ r ∈ records,
    findKeyDBIndex { is := [], indexBlocks := index } r.1 = i

/-- The keys at the ends of the blocks are such that the separators happen to separate them.  The
block closed by `add` at number `i` ends with the last two keys of the first `i + 1` blocks. -/
structure EndsFit (s : Split) : Prop where
  closed : ∀ i < s.closed.length, ExtendsBelow (lastKey (s.closed.take (i + 1)).flatten.dropLast)
    (lastKey (s.closed.take (i + 1)).flatten)
  next : ∀ i < s.closed.length, ∀ (records : List (Bytes × Bytes)),
    s.blocks[i + 1]? = some records → ∀ r ∈ records.head?,
      lastKey (s.closed.take (i + 1)).flatten.dropLast ++ ascii " " ≤ r.1
  last : s.current ≠ [] → (lastKey s.current).getLast? ≠ some 0xFF

variable {s : Split} {i : ℕ}

/-! ## Blocks and entries by number -/

theorem getElem?_blocks_closed (hi : i < s.closed.length) : s.blocks[i]? = some s.closed[i] := by
  rw [Split.blocks]
  split_ifs
  · exact List.getElem?_eq_getElem hi
  · rw [List.getElem?_append_left hi, List.getElem?_eq_getElem hi]

theorem getElem?_indexEntries_closed (hi : i < s.closed.length) :
    (indexEntries s)[i]? = some (closedEntry (s.closed.take (i + 1))) := by
  have hlen : i < (closedEntries s.closed).length := by simpa [closedEntries] using hi
  rw [indexEntries, List.getElem?_append_left hlen, closedEntries, List.getElem?_map,
    List.getElem?_range hi, Option.map_some]

theorem length_indexEntries (s : Split) : (indexEntries s).length = s.blocks.length := by
  rw [indexEntries, Split.blocks, closedEntries]
  split_ifs <;> simp

theorem getElem?_blocks_last (hne : s.current ≠ []) :
    s.blocks[s.closed.length]? = some s.current := by
  rw [Split.blocks, if_neg hne, List.getElem?_concat_length]

/-- What is not closed by `add` is the last block, and has the last entry. -/
theorem of_getElem?_blocks {records : List (Bytes × Bytes)} (hi : ¬ i < s.closed.length)
    (h : s.blocks[i]? = some records) : s.current ≠ [] ∧ records = s.current ∧
      i = s.closed.length ∧ (indexEntries s)[i]? = some (lastEntry s) := by
  rw [Split.blocks] at h
  split_ifs at h with hnil
  · rw [List.getElem?_eq_none (Nat.le_of_not_lt hi)] at h
    cases h
  · have hlt := (List.getElem?_eq_some_iff.mp h).1
    rw [List.length_append, List.length_singleton] at hlt
    obtain rfl : i = s.closed.length := by omega
    rw [List.getElem?_concat_length, Option.some_inj] at h
    have hlen : (closedEntries s.closed).length = s.closed.length := by simp [closedEntries]
    refine ⟨hnil, h.symm, rfl, ?_⟩
    rw [indexEntries, if_neg hnil, ← hlen, List.getElem?_concat_length]

/-- The last key of a block closed by `add`. -/
theorem getLast?_closed (hne : ∀ records ∈ s.closed, records ≠ []) (hi : i < s.closed.length) :
    (s.closed[i].map Prod.fst).getLast? = some (lastKey (s.closed.take (i + 1)).flatten) := by
  have hblock := hne _ (List.getElem_mem hi)
  obtain ⟨init, r, hconcat⟩ := (List.eq_nil_or_concat _).resolve_left hblock
  rw [List.take_add_one, List.getElem?_eq_getElem hi, Option.toList_some, List.flatten_concat,
    lastKey_append hblock, hconcat, List.concat_eq_append, lastKey_concat, List.map_append,
    List.map_singleton, List.getLast?_concat]

theorem getLast?_current (hne : s.current ≠ []) :
    (s.current.map Prod.fst).getLast? = some (lastKey s.current) := by
  obtain ⟨init, r, hconcat⟩ := (List.eq_nil_or_concat _).resolve_left hne
  rw [hconcat, List.concat_eq_append, lastKey_concat, List.map_append, List.map_singleton,
    List.getLast?_concat]

/-! ## When the separators separate -/

theorem getElem?_blockKeys {blocks : List (List (Bytes × Bytes))} {j : ℕ} {block : List Bytes} :
    (blockKeys blocks)[j]? = some block ↔
      ∃ records, blocks[j]? = some records ∧ records.map Prod.fst = block := by
  rw [blockKeys, List.getElem?_map, Option.map_eq_some_iff]

/-- The separator of a block closed by `add`, when it is above the block. -/
theorem closedEntry_of_extendsBelow {closed : List (List (Bytes × Bytes))}
    (h : ExtendsBelow (lastKey closed.flatten.dropLast) (lastKey closed.flatten)) :
    (closedEntry closed).1 = lastKey closed.flatten.dropLast ++ ascii " " := by
  obtain ⟨byte, rest, -, heq⟩ := h
  rw [closedEntry, heq, shortestKey_append]

theorem lastEntry_fst (hne : s.current ≠ []) : (lastEntry s).1 = bump (lastKey s.current) := by
  rw [lastEntry, lastKey_append hne]

theorem getElem?_seps_closed (hi : i < s.closed.length) :
    ((indexEntries s).map Prod.fst)[i]? = some (closedEntry (s.closed.take (i + 1))).1 := by
  rw [List.getElem?_map, getElem?_indexEntries_closed hi, Option.map_some]

theorem lastKey_ne_nil {records : List (Bytes × Bytes)} (hne : records ≠ [])
    (hkeys : ∀ r ∈ records, r.1 ≠ []) : lastKey records ≠ [] := by
  obtain ⟨init, r, hconcat⟩ := (List.eq_nil_or_concat _).resolve_left hne
  rw [hconcat, List.concat_eq_append, lastKey_concat]
  exact hkeys r (by simp [hconcat])

/-- **The separators are above the last keys** of their blocks when these happen to fit. -/
theorem ends_lt_iff (hne : ∀ records ∈ s.closed, records ≠ []) (hkeys : ∀ r ∈ s.current, r.1 ≠ [])
    (hordered : ∀ i < s.closed.length, lastKey (s.closed.take (i + 1)).flatten.dropLast <
      lastKey (s.closed.take (i + 1)).flatten) :
    (∀ (i : ℕ) (block : List Bytes) (sep : Bytes), (blockKeys s.blocks)[i]? = some block →
      ((indexEntries s).map Prod.fst)[i]? = some sep → ∀ k ∈ block.getLast?, k < sep) ↔
    (∀ i < s.closed.length, ExtendsBelow (lastKey (s.closed.take (i + 1)).flatten.dropLast)
      (lastKey (s.closed.take (i + 1)).flatten)) ∧
    (s.current ≠ [] → (lastKey s.current).getLast? ≠ some 0xFF) := by
  constructor
  · intro habove
    refine ⟨fun i hi => ?_, fun hcurrent => ?_⟩
    · refine (lt_shortestKey_iff (hordered i hi)).mp ?_
      exact habove i _ _ (getElem?_blockKeys.mpr ⟨_, getElem?_blocks_closed hi, rfl⟩)
        (getElem?_seps_closed hi) _ (getLast?_closed hne hi)
    · have hblock := getElem?_blocks_last hcurrent
      obtain ⟨-, -, -, hentry⟩ := of_getElem?_blocks (lt_irrefl _) hblock
      refine (lt_bump_iff (lastKey_ne_nil hcurrent hkeys)).mp ?_
      rw [← lastEntry_fst hcurrent]
      refine habove _ _ _ (getElem?_blockKeys.mpr ⟨_, hblock, rfl⟩) ?_ _ (getLast?_current hcurrent)
      rw [List.getElem?_map, hentry, Option.map_some]
  · rintro ⟨hextends, hlast⟩ i block sep hblock hsep k hk
    obtain ⟨records, hrecords, rfl⟩ := getElem?_blockKeys.mp hblock
    by_cases hi : i < s.closed.length
    · obtain rfl := Option.some_inj.mp ((getElem?_blocks_closed hi).symm.trans hrecords)
      obtain rfl := Option.some_inj.mp ((getElem?_seps_closed hi).symm.trans hsep)
      obtain rfl := Option.some_inj.mp ((getLast?_closed hne hi).symm.trans hk)
      exact (lt_shortestKey_iff (hordered i hi)).mpr (hextends i hi)
    · obtain ⟨hcurrent, rfl, -, hentry⟩ := of_getElem?_blocks hi hrecords
      rw [List.getElem?_map, hentry, Option.map_some, lastEntry_fst hcurrent] at hsep
      obtain rfl := Option.some_inj.mp hsep
      obtain rfl := Option.some_inj.mp ((getLast?_current hcurrent).symm.trans hk)
      exact (lt_bump_iff (lastKey_ne_nil hcurrent hkeys)).mpr (hlast hcurrent)

/-- The separators are then not above the first keys of the next blocks when these fit too. -/
theorem le_heads_iff
    (hextends : ∀ i < s.closed.length, ExtendsBelow (lastKey (s.closed.take (i + 1)).flatten.dropLast)
      (lastKey (s.closed.take (i + 1)).flatten)) :
    (∀ (i : ℕ) (block : List Bytes) (sep : Bytes), (blockKeys s.blocks)[i + 1]? = some block →
      ((indexEntries s).map Prod.fst)[i]? = some sep → ∀ k ∈ block.head?, sep ≤ k) ↔
    ∀ i < s.closed.length, ∀ (records : List (Bytes × Bytes)),
      s.blocks[i + 1]? = some records → ∀ r ∈ records.head?,
        lastKey (s.closed.take (i + 1)).flatten.dropLast ++ ascii " " ≤ r.1 := by
  constructor
  · intro hbelow i hi records hrecords r hr
    rw [← closedEntry_of_extendsBelow (hextends i hi)]
    refine hbelow i _ _ (getElem?_blockKeys.mpr ⟨records, hrecords, rfl⟩)
      (getElem?_seps_closed hi) r.1 ?_
    rw [List.head?_map, Option.mem_def.mp hr]
    rfl
  · intro hnext i block sep hblock hsep k hk
    obtain ⟨records, hrecords, rfl⟩ := getElem?_blockKeys.mp hblock
    have hi : i < s.closed.length := by
      by_contra hi
      obtain ⟨-, -, hlen, -⟩ := of_getElem?_blocks (by omega) hrecords
      omega
    obtain rfl := Option.some_inj.mp ((getElem?_seps_closed hi).symm.trans hsep)
    rw [closedEntry_of_extendsBelow (hextends i hi)]
    rw [List.head?_map, Option.mem_map] at hk
    obtain ⟨r, hr, rfl⟩ := hk
    exact hnext i hi records hrecords r hr

/-- **The separators separate the blocks exactly when the ends of the blocks fit.** -/
theorem separates_iff_endsFit (hne : ∀ records ∈ s.closed, records ≠ [])
    (hkeys : ∀ r ∈ s.current, r.1 ≠ [])
    (hsorted : ∀ block ∈ blockKeys s.blocks, block.Pairwise (· < ·))
    (hordered : ∀ i < s.closed.length, lastKey (s.closed.take (i + 1)).flatten.dropLast <
      lastKey (s.closed.take (i + 1)).flatten) :
    Separates (blockKeys s.blocks) ((indexEntries s).map Prod.fst) ↔ EndsFit s := by
  have hlength : ((indexEntries s).map Prod.fst).length = (blockKeys s.blocks).length := by
    rw [blockKeys, List.length_map, List.length_map, length_indexEntries]
  rw [separates_iff_ends hsorted hlength, ends_lt_iff hne hkeys hordered]
  constructor
  · rintro ⟨⟨hextends, hlast⟩, hbelow⟩
    exact ⟨hextends, (le_heads_iff hextends).mp hbelow, hlast⟩
  · rintro ⟨hextends, hnext, hlast⟩
    exact ⟨⟨hextends, hlast⟩, (le_heads_iff hextends).mpr hnext⟩

/-! ## Finding the block of a key -/

theorem findKeyDBIndex_eq (index : List IndexBlock) (key : Bytes) {j : ℕ}
    (h : route (index.map IndexBlock.shortestKey) key = some j) :
    findKeyDBIndex { is := [], indexBlocks := index } key = j := by
  rw [route, List.findIdx?_map] at h
  have hfind : index.findIdx? (fun block => key < block.shortestKey) = some j := by
    rw [← h]
    exact congrArg (index.findIdx? ·) (funext fun block => decide_eq_decide.mpr Iff.rfl)
  simp only [findKeyDBIndex, hfind]

variable {pairs : List (Bytes × Bytes)} {sizing : BloomSizing} {keysNum : ℤ} {w : FileWriter}
  {b₀ b b₁ : SSTableBuilder}

/-- **The index of a table sends every key to its block exactly when the ends of the blocks fit.**
The index holds the entries of all blocks, and below `2 ^ 31` bytes `Parse` reads them back. -/
theorem routed_iff (hkeys : ∀ p ∈ pairs, p.1 ≠ []) (hsorted : pairs.Pairwise fun p q => p.1 < q.1)
    (hnew : SSTableBuilder.new sizing keysNum w = .ok b₀) (hadd : b₀.addAll pairs = .ok b)
    (hblocks : b.finishDataBlocks = .ok b₁) :
    b₁.indexData = indexBytes (indexEntries (Split.ofPairs pairs)) ∧
      (b₁.indexData.length < 2 ^ 31 →
        parsedIndex b₁.indexData = .ok ((indexEntries (Split.ofPairs pairs)).map toBlock)) ∧
      (Routed (Split.ofPairs pairs).blocks ((indexEntries (Split.ofPairs pairs)).map toBlock) ↔
        EndsFit (Split.ofPairs pairs)) := by
  have hcuts := cuts_ofPairs_of_keys hkeys
  have hindexed : Indexed b (Split.ofPairs pairs) := (indexed_new hnew).addAll hadd
  have hindex := (index_of_addAll hkeys hnew hadd hblocks).1
  set s := Split.ofPairs pairs
  have hflatten : s.blocks.flatten = pairs := hcuts.blocks.1
  have hcurrent : ∀ r ∈ s.current, r.1 ≠ [] := fun r hr =>
    hkeys r (hcuts.flatten ▸ List.mem_append_right _ hr)
  have hkeysSorted : (blockKeys s.blocks).flatten.Pairwise (· < ·) := by
    rw [blockKeys, ← List.map_flatten, hflatten]
    exact List.pairwise_map.mpr hsorted
  have hnonempty : ∀ block ∈ blockKeys s.blocks, block ≠ [] := by
    intro block hblock
    obtain ⟨records, hmem, rfl⟩ := List.mem_map.mp hblock
    simpa using hcuts.blocks.2 records hmem
  have hseps : ((indexEntries s).map toBlock).map IndexBlock.shortestKey =
      (indexEntries s).map Prod.fst := by
    rw [List.map_map]
    rfl
  have hiff := separates_iff_endsFit hcuts.nonempty hcurrent (List.pairwise_flatten.mp hkeysSorted).1
    fun i hi => (hindexed.ordered i hi).2
  refine ⟨hindex, fun hsmall => ?_, ?_⟩
  · rw [hindex] at hsmall ⊢
    exact parsedIndex_indexBytes hsmall
  · rw [← hiff]
    constructor
    · intro h
      rw [← hseps]
      exact h.separates
    · intro h
      refine ⟨hseps ▸ h, fun i records hrecords r hr => findKeyDBIndex_eq _ _ ?_⟩
      rw [hseps]
      exact h.route_eq hkeysSorted hnonempty (getElem?_blockKeys.mpr ⟨records, hrecords, rfl⟩)
        (List.mem_map_of_mem hr)

/-- A table of two blocks: the last key of the first extends the key before by a byte below a
blank. -/
theorem routed_iff_two : ∃ pairs, (Split.ofPairs pairs).blocks.length = 2 ∧
    Routed (Split.ofPairs pairs).blocks ((indexEntries (Split.ofPairs pairs)).map toBlock) := by
  let pairs : List (Bytes × Bytes) := [([97], []), ([97, 1], List.replicate 4096 0), ([98], [99])]
  have hrun : (do
      let b₀ ← SSTableBuilder.new .percent 3 (.new [] true)
      let b ← b₀.addAll pairs
      let _ ← b.finishDataBlocks
      return ()) = (.ok () : Exec Unit) := by decide +kernel
  simp only [bind_eq_ok] at hrun
  obtain ⟨b₀, hnew, b, hadd, b₁, hblocks, -⟩ := hrun
  have hsplit : Split.ofPairs pairs = ⟨[pairs.take 2], pairs.drop 2⟩ := by
    have hfirst : Split.add {} ([97], []) = ⟨[], pairs.take 1⟩ := rfl
    have hfull : Split.add ⟨[], pairs.take 1⟩ ([97, 1], List.replicate 4096 0) =
        ⟨[pairs.take 2], []⟩ := by
      rw [Split.add, if_pos (by decide), Split.closeFull, if_pos (by decide +kernel)]
      rfl
    rw [Split.ofPairs, List.foldl_cons, hfirst, List.foldl_cons, hfull]
    rfl
  refine ⟨pairs, by rw [hsplit]; rfl,
    (routed_iff (by decide +kernel) (by decide +kernel) hnew hadd hblocks).2.2.mpr ?_⟩
  rw [hsplit]
  refine ⟨fun i hi => ?_, fun i hi records hrecords r hr => ?_, fun _ => by decide⟩
  · obtain rfl : i = 0 := Nat.lt_one_iff.mp hi
    exact ⟨1, [], by decide, rfl⟩
  · obtain rfl : i = 0 := Nat.lt_one_iff.mp hi
    obtain rfl : pairs.drop 2 = records := Option.some.inj hrecords
    obtain rfl : ([98], [99]) = r := Option.some.inj hr
    decide +kernel

/-- Every index sends every key to its block. -/
def IndicesRoute : Prop :=
  ∀ (sizing : BloomSizing) (keysNum : ℤ) (w : FileWriter) (pairs : List (Bytes × Bytes))
    (b₀ b b₁ : SSTableBuilder), (∀ p ∈ pairs, p.1 ≠ []) →
    pairs.Pairwise (fun p q => p.1 < q.1) → SSTableBuilder.new sizing keysNum w = .ok b₀ →
    b₀.addAll pairs = .ok b → b.finishDataBlocks = .ok b₁ →
    Routed (Split.ofPairs pairs).blocks ((indexEntries (Split.ofPairs pairs)).map toBlock)

/-- **The last key of a block closed by `add` is not found.** -/
theorem not_indicesRoute : ¬ IndicesRoute := by
  intro h
  let pairs : List (Bytes × Bytes) := [([97], []), ([98], List.replicate 4096 0)]
  have hrun : (do
      let b₀ ← SSTableBuilder.new .percent 2 (.new [] true)
      let b ← b₀.addAll pairs
      let _ ← b.finishDataBlocks
      return ()) = (.ok () : Exec Unit) := by decide +kernel
  simp only [bind_eq_ok] at hrun
  obtain ⟨b₀, hnew, b, hadd, b₁, hblocks, -⟩ := hrun
  have hrouted := h _ _ _ pairs b₀ b b₁ (by decide +kernel) (by decide +kernel) hnew hadd hblocks
  have hfull : Split.add (Split.add {} ([97], [])) ([98], List.replicate 4096 0) = ⟨[pairs], []⟩ := by
    have hfirst : Split.add {} ([97], []) = ⟨[], [([97], [])]⟩ := rfl
    rw [hfirst, Split.add, if_pos (by decide), Split.closeFull, if_pos (by decide +kernel)]
    rfl
  have hblock : (Split.ofPairs pairs).blocks[0]? = some pairs := by
    rw [Split.ofPairs, List.foldl_cons, List.foldl_cons, List.foldl_nil, hfull]
    rfl
  have hfind := hrouted.finds 0 pairs hblock ([98], List.replicate 4096 0)
    (List.mem_cons_of_mem _ List.mem_cons_self)
  exact absurd hfind (by decide +kernel)

end SmallKV.SSTParser

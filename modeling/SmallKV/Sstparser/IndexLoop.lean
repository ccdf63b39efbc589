import SmallKV.Sstparser.IndexRanges

/-!
# Sstparser/IndexLoop — the index loop of `Parse` on an index inside a file

`indexLoop` is that loop with the place where it leaves `start`, before the assertion on it
(`parseIndex_eq_loop`).  On index entries that begin at `START` and have `SIZE` bytes it reads the
entries and stops at their end, and the assertion holds, exactly when the end has an `int` for its
offset (`indexRoundTrips_iff`): else `START + SIZE` overflows.
-/

namespace SmallKV

/-- Both fields are of type `int`. -/
def OffsetInfo.InRange (o : OffsetInfo) : Prop :=
  (-2 ^ 31 ≤ o.size ∧ o.size < 2 ^ 31) ∧ (-2 ^ 31 ≤ o.offset ∧ o.offset < 2 ^ 31)

instance (o : OffsetInfo) : Decidable o.InRange :=
  inferInstanceAs (Decidable ((-2 ^ 31 ≤ o.size ∧ o.size < 2 ^ 31) ∧
    (-2 ^ 31 ≤ o.offset ∧ o.offset < 2 ^ 31)))

namespace SSTParser

variable {content : Bytes}

/-- The loop of `Parse` over the index entries: the entries, and `start` behind it. -/
def indexLoop (content : Bytes) (stop : ℤ) :
    ℕ → ℤ → List IndexBlock → Exec (List IndexBlock × ℤ)
  | 0, _, _ => .error .diverged
  | fuel + 1, start, blocks =>
      if start < stop then do
        let keySize ← loadInt32 content (.content start)
        let shortestKey ← stringAt content (.content (start + 4)) keySize
        let offsetInfo ← loadOffsetInfo content (.content (start + 4 + keySize))
        indexLoop content stop fuel (toInt32 (start + (4 + keySize + 8)))
          (blocks ++ [⟨shortestKey, offsetInfo⟩])
      else return (blocks, start)

/-- **The assertion follows the loop.** -/
theorem parseIndex_eq_loop {stop : ℤ} : ∀ {fuel : ℕ} {start : ℤ} {blocks : List IndexBlock},
    parseIndex content stop fuel start blocks = do
      let (blocks, start) ← indexLoop content stop fuel start blocks
      require (start = stop) .assertion
      return blocks
  | 0, _, _ => rfl
  | fuel + 1, start, blocks => by
      rw [parseIndex, indexLoop]
      split_ifs with hstart
      · simp only [parseIndex_eq_loop, bind_assoc]
      · rfl

/-- Where the assertion holds, the loop has stopped at the end of the index. -/
theorem indexLoop_of_parseIndex {stop start : ℤ} {fuel : ℕ} {blocks blocks' : List IndexBlock}
    (h : parseIndex content stop fuel start blocks = .ok blocks') :
    indexLoop content stop fuel start blocks = .ok (blocks', stop) := by
  rw [parseIndex_eq_loop] at h
  obtain ⟨⟨blocks₁, start₁⟩, hloop, h⟩ := bind_eq_ok.mp h
  obtain ⟨_, hstop, h⟩ := bind_eq_ok.mp h
  obtain rfl := Except.ok.inj h
  rw [hloop, of_decide_eq_true (require_eq_ok.mp hstop)]

/-- `start` stays an `int`. -/
theorem start_lt_of_indexLoop {stop : ℤ} : ∀ {fuel : ℕ} {start start' : ℤ}
    {blocks blocks' : List IndexBlock}, start < 2 ^ 31 →
    indexLoop content stop fuel start blocks = .ok (blocks', start') → start' < 2 ^ 31
  | 0, _, _, _, _, _, h => by cases h
  | fuel + 1, start, start', blocks, blocks', hstart, h => by
      rw [indexLoop] at h
      split_ifs at h
      · obtain ⟨keySize, -, h⟩ := bind_eq_ok.mp h
        obtain ⟨key, -, h⟩ := bind_eq_ok.mp h
        obtain ⟨o, -, h⟩ := bind_eq_ok.mp h
        exact start_lt_of_indexLoop (toInt32_lt _) h
      · obtain ⟨-, rfl⟩ := Prod.mk.inj (Except.ok.inj h)
        exact hstart

/-- The index loop of `Parse`, on the header's fields for an index of `entries` behind `before`,
returns the entries, with `start` at their end, and the assertion on it holds. -/
def IndexRoundTrips (before rest : Bytes) (entries : List (Bytes × OffsetInfo)) : Prop :=
  let content := before ++ (indexBytes entries ++ rest)
  let start := toInt32 before.length
  let stop := toInt32 (start + toInt32 (indexBytes entries).length)
  let blocks := entries.map fun e => (⟨e.1, e.2⟩ : IndexBlock)
  indexLoop content stop (content.length + 1) start [] =
      .ok (blocks, (before.length + (indexBytes entries).length : ℕ)) ∧
    parseIndex content stop (content.length + 1) start [] = .ok blocks

variable {before rest : Bytes} {entries : List (Bytes × OffsetInfo)}

/-- An entry of `int`s is parsed as it is. -/
theorem toBlock_eq {e : Bytes × OffsetInfo} (h : e.2.InRange) : toBlock e = ⟨e.1, e.2⟩ := by
  obtain ⟨hsize, hoffset⟩ := h
  rw [toBlock, toInt32_of_range hsize.1 hsize.2, toInt32_of_range hoffset.1 hoffset.2]

/-- An index that is read to its end ends below `2 ^ 31`. -/
theorem IndexRoundTrips.end_lt (h : IndexRoundTrips before rest entries) :
    before.length + (indexBytes entries).length < 2 ^ 31 := by
  have hlt := start_lt_of_indexLoop (toInt32_lt _) h.1
  exact_mod_cast hlt

/-- **The index loop reads back an index exactly when it ends below `2 ^ 31`**, wherever it lies and
whatever follows it. -/
theorem indexRoundTrips_iff (hinfo : ∀ e ∈ entries, e.2.InRange) :
    IndexRoundTrips before rest entries ↔
      before.length + (indexBytes entries).length < 2 ^ 31 := by
  refine ⟨IndexRoundTrips.end_lt, fun hlt => ?_⟩
  have hblocks : entries.map toBlock = entries.map fun e => (⟨e.1, e.2⟩ : IndexBlock) :=
    List.map_congr_left fun e he => toBlock_eq (hinfo e he)
  have hfuel : entries.length < (before ++ (indexBytes entries ++ rest)).length + 1 := by
    have hle := length_le_indexBytes entries
    simp only [List.length_append]
    omega
  have hparse : parseIndex (before ++ (indexBytes entries ++ rest))
      (before.length + (indexBytes entries).length : ℕ) _ before.length [] =
        .ok ([] ++ entries.map toBlock) := parseIndex_indexBytes hlt rfl rfl hfuel
  rw [List.nil_append, hblocks] at hparse
  have hstart : toInt32 before.length = before.length := toInt32_of_lt (by omega)
  have hsize : toInt32 (indexBytes entries).length = (indexBytes entries).length :=
    toInt32_of_lt (by omega)
  have hstop : toInt32 ((before.length : ℤ) + (indexBytes entries).length) =
      (before.length + (indexBytes entries).length : ℕ) := by
    exact_mod_cast toInt32_of_lt hlt
  rw [IndexRoundTrips]
  simp only [hstart, hsize, hstop]
  exact ⟨indexLoop_of_parseIndex hparse, hparse⟩

/-- Three entries between other bytes. -/
theorem indexRoundTrips_iff_three : IndexRoundTrips [1, 2, 3] [0]
    [([97], ⟨10, 0⟩), ([98, 255], ⟨4096, 10⟩), ([], ⟨-1, -2 ^ 31⟩)] :=
  (indexRoundTrips_iff (by decide)).mpr (by decide)

/-- **Beyond the bound `START + SIZE` is negative**: the loop is not entered, and the assertion behind
it fails. -/
theorem parseIndex_overflow {start size : ℕ} {fuel : ℕ} {blocks : List IndexBlock}
    (hstart : start < 2 ^ 31) (hsize : size < 2 ^ 31) (hend : 2 ^ 31 ≤ start + size) :
    parseIndex content (toInt32 (start + size)) (fuel + 1) start blocks = .error .assertion := by
  have hneg : toInt32 (start + size) < start := by
    rw [toInt32]
    omega
  rw [parseIndex, if_neg hneg.not_gt, decide_eq_false hneg.ne']
  rfl

/-- Every index of less than `2 ^ 31` bytes is read back, wherever it lies. -/
def IndicesRoundTrip : Prop :=
  ∀ (before rest : Bytes) (entries : List (Bytes × OffsetInfo)), (∀ e ∈ entries, e.2.InRange) →
    before.length < 2 ^ 31 → (indexBytes entries).length < 2 ^ 31 →
      IndexRoundTrips before rest entries

/-- **An index that ends at `2 ^ 31` is not read.** -/
theorem not_indicesRoundTrip : ¬ IndicesRoundTrip := by
  intro h
  obtain ⟨n, hn⟩ : ∃ n, n + 12 = 2 ^ 31 := ⟨2 ^ 31 - 12, rfl⟩
  have hlen : (indexBytes [([], ⟨0, 0⟩)]).length = 12 := rfl
  have hend := (h (List.replicate n 0) [] [([], ⟨0, 0⟩)] (by decide)
    (by rw [List.length_replicate]; omega) (by rw [hlen]; decide)).end_lt
  rw [List.length_replicate, hlen] at hend
  omega

end SSTParser

end SmallKV

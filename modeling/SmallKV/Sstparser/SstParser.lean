import SmallKV.Table.SstableBuilder

/-!
# Sstparser/SstParser — reading a table, as `sstparser/sst_parser.cpp` does

The parser reads the whole file into a string and follows offsets into it.  A pointer is an address
in that string, or, where the source casts an integer to a pointer, that integer: no object of the
program has it for its address, so a load through it has no result.

`Parse` ends with such a load, of the number of hash functions, so it never returns
(`parse_ne_ok`), and no table written by `SSTableBuilder` can be read back (`not_roundTrips`).
-/

namespace SmallKV

/-- `IndexBlock`. -/
structure IndexBlock where
  shortestKey : Bytes
  offsetInfo : OffsetInfo
  deriving DecidableEq, Repr

/-- `RestartPoint`. -/
structure RestartPoint where
  recordNum : ℤ
  rpOffset : OffsetInfo
  fullkey : Bytes
  deriving DecidableEq, Repr

/-- `SSTParser`; its `header` is read and used in `Parse` only. -/
structure SSTParser where
  is : Bytes
  sstContent : Bytes := []
  filterPolicy : Option BloomFilter := none
  indexBlocks : List IndexBlock := []
  deriving DecidableEq, Repr

namespace SSTParser

/-! ## Pointers -/

/-- A `char *`: an address inside or near `sst_content`, or an integer cast to a pointer. -/
inductive Ptr
  | content (off : ℤ)
  | ofInt (a : ℤ)
  deriving DecidableEq, Repr

/-- Pointer arithmetic. -/
def Ptr.add : Ptr → ℤ → Ptr
  | .content off, n => .content (off + n)
  | .ofInt a, n => .ofInt (a + n)

/-- The `n` bytes at a pointer.  The string has a NUL behind its last byte. -/
def loadAt (content : Bytes) (p : Ptr) (n : ℕ) : Exec Bytes :=
  match p with
  | .ofInt _ => .error .wildPointer
  | .content off => do
      require (0 ≤ off) .outOfBounds
      load (content ++ [0]) off.toNat n

/-- `*reinterpret_cast<int32_t *>(p)`, and `static_cast<int>(DecodeFixed32(p))`. -/
def loadInt32 (content : Bytes) (p : Ptr) : Exec ℤ := do
  return toInt32 (leNat (← loadAt content p 4))

/-- `*reinterpret_cast<OffsetInfo *>(p)`, and the same of a `DecodeFixed64(p)`: its low half is the
size and its high half the offset. -/
def loadOffsetInfo (content : Bytes) (p : Ptr) : Exec OffsetInfo := do
  return ⟨← loadInt32 content p, ← loadInt32 content (p.add 4)⟩

/-- `std::string(p, n)`: a negative length is a huge `size_t`, and the constructor throws. -/
def stringAt (content : Bytes) (p : Ptr) (n : ℤ) : Exec Bytes := do
  require (0 ≤ n) .uncaught
  loadAt content p n.toNat

/-! ## Parse -/

/-- The constructor, on the file behind the path. -/
def new (file : Option Bytes) : Exec SSTParser := do
  return { is := ← orFault .assertion file }

/-- `ReadAll`: `getline` takes the newlines out, and nothing puts them back. -/
def readAll (s : SSTParser) : SSTParser :=
  { s with sstContent := s.sstContent ++ s.is.filter (· ≠ 10), is := [] }

/-- The loop of `Parse` over the index entries between `start` and `stop`. -/
def parseIndex (content : Bytes) (stop : ℤ) : ℕ → ℤ → List IndexBlock → Exec (List IndexBlock)
  | 0, _, _ => .error .diverged
  | fuel + 1, start, blocks =>
      if start < stop then do
        let keySize ← loadInt32 content (.content start)
        let shortestKey ← stringAt content (.content (start + 4)) keySize
        let offsetInfo ← loadOffsetInfo content (.content (start + 4 + keySize))
        parseIndex content stop fuel (toInt32 (start + (4 + keySize + 8)))
          (blocks ++ [⟨shortestKey, offsetInfo⟩])
      else do
        require (start = stop) .assertion
        return blocks

/-- Step 3 of `Parse`: the filter. -/
def parseFilter (content : Bytes) (metaBlock : OffsetInfo) : Exec BloomFilter := do
  -- the source adds the offsets but not the address of the contents
  let hashFuncNum ← loadInt32 content (.ofInt (toInt32 (metaBlock.offset + metaBlock.size - 4)))
  let bitsArray ← stringAt content (.content metaBlock.offset) (toInt32 (metaBlock.size - 4))
  return BloomFilter.createFilter2 hashFuncNum bitsArray

/-- `Parse`. -/
def parse (s : SSTParser) : Exec SSTParser := do
  let s := s.readAll
  let sstFileSize : ℤ := s.sstContent.length
  let metaBlock ← loadOffsetInfo s.sstContent (.content (sstFileSize - 16))
  let indexBlock ← loadOffsetInfo s.sstContent (.content (sstFileSize - 8))
  let blocks ← parseIndex s.sstContent (toInt32 (indexBlock.offset + indexBlock.size))
    (s.sstContent.length + 1) indexBlock.offset s.indexBlocks
  let filter ← parseFilter s.sstContent metaBlock
  return { s with indexBlocks := blocks, filterPolicy := some filter }

/-! ## Seek -/

/-- `Exists`. -/
def existsKey (s : SSTParser) (key : Bytes) : Exec Bool := do
  let filter ← orFault .nullPointer s.filterPolicy
  filter.existsKey key

/-- `FindKeyDBIndex`. -/
def findKeyDBIndex (s : SSTParser) (key : Bytes) : ℤ :=
  match s.indexBlocks.findIdx? fun block => key < block.shortestKey with
  | some i => i
  | none => -1

/-- `FindFullKeyByRP`. -/
def findFullKeyByRP (content : Bytes) (start : Ptr) (recordNum : ℤ) (rgOffset : OffsetInfo) :
    Exec Bytes := do
  require (0 < recordNum) .assertion
  let firstRecordPtr := start.add rgOffset.offset
  let sharedKeyLen ← loadInt32 content firstRecordPtr
  require (sharedKeyLen = 0) .assertion
  let unsharedKeyLen ← loadInt32 content (firstRecordPtr.add 4)
  require (0 < unsharedKeyLen) .assertion
  stringAt content (firstRecordPtr.add 12) unsharedKeyLen

/-- The loop of `FindKeyInDB` over the restart points, `n` of them from number `i` on. -/
def findRestartPoints (content key : Bytes) (start : Ptr) (restartOffset : ℤ) :
    ℕ → ℤ → List RestartPoint → Exec (List RestartPoint)
  | 0, _, rps => .ok rps
  | n + 1, i, rps => do
      let rpStartPtr := start.add (restartOffset + i * 12)
      let recordNum ← loadInt32 content rpStartPtr
      let rpOffset ← loadOffsetInfo content (rpStartPtr.add 4)
      let fullkey ← findFullKeyByRP content start recordNum rpOffset
      if key < fullkey then return rps
      else
        findRestartPoints content key start restartOffset n (i + 1)
          (rps ++ [⟨recordNum, rpOffset, fullkey⟩])

/-- `parse_record`.  All three lengths are read from the first field. -/
def parseRecord (content : Bytes) (p : Ptr) : Exec (ℤ × ℤ × Bytes × Bytes) := do
  let sharedKeyLen ← loadInt32 content p
  let unsharedKeyLen ← loadInt32 content p
  let valueLen ← loadInt32 content p
  let recordSize := toInt32 (12 + unsharedKeyLen + valueLen)
  let unsharedKeyContent ← stringAt content (p.add 12) unsharedKeyLen
  let valueContent ← stringAt content (p.add (12 + unsharedKeyLen)) valueLen
  return (recordSize, sharedKeyLen, unsharedKeyContent, valueContent)

/-- The loop of `FindKeyInDB` over the records of a group: the value, and where the loop stops.
`FULLKEY.substr(0, shared_key_len).data()` is the whole full key, as a C string. -/
def findRecord (content key fullkey : Bytes) : ℕ → Ptr → Exec (Bytes × Ptr)
  | 0, p => .ok ([], p)
  | n + 1, p => do
      let (recordSize, _, unsharedKeyContent, valueContent) ← parseRecord content p
      let repairedKey := fullkey.takeWhile (· ≠ 0) ++ unsharedKeyContent
      if repairedKey = key then return (valueContent, p.add recordSize)
      else findRecord content key fullkey n (p.add recordSize)

/-- The comparison of two pointers into the contents. -/
def Ptr.le : Ptr → Ptr → Bool
  | .content a, .content b => a ≤ b
  | .ofInt a, .ofInt b => a ≤ b
  | _, _ => false

/-- `FindKeyInDB`. -/
def findKeyInDB (content key : Bytes) (start stop : Ptr) : Exec (Option Bytes) := do
  let restartNum ← loadInt32 content (stop.add (-12))
  let restartOffset ← loadOffsetInfo content (stop.add (-8))
  let rps ← findRestartPoints content key start restartOffset.offset restartNum.toNat 0 []
  match rps.getLast? with
  | none => return none
  | some rp => do
      require (rp.fullkey ≤ key) .assertion
      let (value, rgStart) ← findRecord content key rp.fullkey rp.recordNum.toNat
        (start.add rp.rpOffset.offset)
      require (rgStart.le (start.add (rp.rpOffset.offset + rp.rpOffset.size))) .assertion
      if value.isEmpty then return none else return some value

/-- `Seek`. -/
def seek (s : SSTParser) (key : Bytes) : Exec (Option Bytes) := do
  if ← s.existsKey key then
    let dataBlockIndex := s.findKeyDBIndex key
    if dataBlockIndex = -1 then return none
    else
      let indexBlock ← orFault .outOfBounds s.indexBlocks[dataBlockIndex.toNat]?
      let start : Ptr := .content indexBlock.offsetInfo.offset
      findKeyInDB s.sstContent key start (start.add indexBlock.offsetInfo.size)
  else return none

/-! ## Parse does not return -/

/-- **`Parse` never returns**: on every file it ends in a fault, at the latest where it loads the
number of hash functions from an address that is an offset. -/
theorem parse_ne_ok (s s' : SSTParser) : s.parse ≠ .ok s' := by
  intro h
  obtain ⟨metaBlock, -, h⟩ := bind_eq_ok.mp h
  obtain ⟨indexBlock, -, h⟩ := bind_eq_ok.mp h
  obtain ⟨blocks, -, h⟩ := bind_eq_ok.mp h
  obtain ⟨filter, hfilter, -⟩ := bind_eq_ok.mp h
  obtain ⟨hashFuncNum, hload, -⟩ := bind_eq_ok.mp hfilter
  obtain ⟨bytes, hbytes, -⟩ := bind_eq_ok.mp hload
  cases hbytes

/-- A parser that has run `Parse` on a file. -/
def openTable (file : Option Bytes) : Exec SSTParser := do
  (← new file).parse

theorem openTable_ne_ok (file : Option Bytes) (s : SSTParser) : openTable file ≠ .ok s := by
  intro h
  obtain ⟨s₀, -, h⟩ := bind_eq_ok.mp h
  exact parse_ne_ok s₀ s h

/-! ## Round trips -/

/-- The file that `SSTableBuilder` writes for a list of pairs, on a fresh file. -/
def buildTable (sizing : BloomSizing) (pairs : List (Bytes × Bytes)) : Exec Bytes := do
  let b ← SSTableBuilder.new sizing pairs.length (FileWriter.new [] true)
  let b ← b.addAll pairs
  let (_, b) ← b.finishSst sizing
  return b.fileWriter.file

/-- What `Seek` should answer for a key: the value added with it, unless that is the tombstone. -/
def answer (pairs : List (Bytes × Bytes)) (key : Bytes) : Option Bytes :=
  (pairs.lookup key).filter fun v => !v.isEmpty

/-- Writing the pairs and parsing the file gives a parser that answers for them. -/
def RoundTrips (sizing : BloomSizing) (pairs : List (Bytes × Bytes)) : Prop :=
  ∃ file s, buildTable sizing pairs = .ok file ∧ openTable (some file) = .ok s ∧
    ∀ key, s.seek key = .ok (answer pairs key)

/-- **No table can be read back.** -/
theorem not_roundTrips (sizing : BloomSizing) (pairs : List (Bytes × Bytes)) :
    ¬ RoundTrips sizing pairs := by
  rintro ⟨file, s, -, hopen, -⟩
  exact openTable_ne_ok (some file) s hopen

/-- Every table of ascending keys that is small enough, and whose filter has a bit, can be read
back. -/
def TablesRoundTrip : Prop :=
  ∀ (sizing : BloomSizing) (pairs : List (Bytes × Bytes)), pairs ≠ [] →
    (∀ p ∈ pairs, p.1 ≠ []) → pairs.Pairwise (fun p q => p.1 < q.1) →
    (∀ file, buildTable sizing pairs = .ok file → file.length < 2 ^ 31) →
    (∃ filter, BloomFilter.new sizing pairs.length = .ok filter ∧ filter.bitsArray ≠ []) →
    RoundTrips sizing pairs

/-- **A table of one pair is not read back**: `Parse` loads through an address that is an offset. -/
theorem not_tablesRoundTrip : ¬ TablesRoundTrip := by
  intro h
  have hwild : (buildTable .percent [([107], [97])]).bind (fun file =>
      (openTable (some file)).map fun _ => ()) = .error .wildPointer := rfl
  have hsize : (buildTable .percent [([107], [97])]).map List.length = .ok 65 := rfl
  have hsmall : ∀ file, buildTable .percent [([107], [97])] = .ok file → file.length < 2 ^ 31 := by
    intro file hfile
    rw [hfile] at hsize
    have hlength : file.length = 65 := Except.ok.inj hsize
    omega
  obtain ⟨file, s, hbuild, hopen, -⟩ := h .percent [([107], [97])] (by decide) (by decide)
    (by decide) hsmall ⟨_, rfl, by decide⟩
  rw [hbuild] at hwild
  simp only [Except.bind, hopen] at hwild
  cases hwild

end SSTParser

end SmallKV

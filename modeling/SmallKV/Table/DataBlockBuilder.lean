import SmallKV.Db.Status

/-!
# Table/DataBlockBuilder — the data blocks of `table/data_block_builder.cpp`

A block is a sequence of prefix-compressed records, a table with one entry for each group of sixteen
records, and the number of these entries.
-/

namespace SmallKV

/-- `OffsetInfo`. -/
structure OffsetInfo where
  size : ℤ := 0
  offset : ℤ := 0
  deriving DecidableEq, Repr

/-- The eight bytes of an `OffsetInfo`, read as an integer. -/
def OffsetInfo.bits (o : OffsetInfo) : ℕ := toUInt32 o.size + 2 ^ 32 * toUInt32 o.offset

/-- An `OffsetInfo` in memory is its size, then its offset. -/
theorem encodeFixed64_bits (o : OffsetInfo) :
    encodeFixed64 o.bits = encodeFixed32 (toUInt32 o.size) ++ encodeFixed32 (toUInt32 o.offset) := by
  have hsize : toUInt32 o.size < 256 ^ 4 := toUInt32_lt o.size
  rw [encodeFixed64_eq, encodeFixed32_eq, encodeFixed32_eq]
  exact leBytes_append (w := 4) (y := toUInt32 o.offset) hsize

/-- `PutFixed32`. -/
def putFixed32 (dst : Bytes) (val : ℤ) : Bytes := dst ++ encodeFixed32 (toUInt32 val)

/-- `PutFixed64`. -/
def putFixed64 (dst : Bytes) (val : ℕ) : Bytes := dst ++ encodeFixed64 val

/-- `SSTConfigInfo::RESTART_INTERVAL`. -/
def restartInterval : ℤ := 16

/-- `SSTConfigInfo::MAX_DATA_BLOCK_SIZE`. -/
def maxDataBlockSize : ℕ := 4096

/-- `DataBlockBuilder`. -/
structure DataBlockBuilder where
  recordGroupOffset : List ℤ := []
  preKey : Bytes := []
  data : Bytes := []
  recordNum : ℤ := 0
  deriving DecidableEq, Repr

namespace DataBlockBuilder

/-- The loop that counts the bytes two keys begin with in common. -/
def sharedKeyLen : Bytes → Bytes → ℕ
  | a :: key, b :: preKey => if a = b then sharedKeyLen key preKey + 1 else 0
  | _, _ => 0

/-- A record. -/
def appendRecord (data : Bytes) (shared : ℕ) (unsharedKey value : Bytes) : Bytes :=
  putFixed32 (putFixed32 (putFixed32 data shared) unsharedKey.length) value.length
    ++ unsharedKey ++ value

/-- `add`, which always returns `Success`. -/
def add (b : DataBlockBuilder) (key value : Bytes) : DataBlockBuilder :=
  if key.isEmpty then b
  else
    let needFullkey : Bool := b.recordNum % restartInterval = 0
    let shared := if needFullkey then 0 else sharedKeyLen key b.preKey
    { recordGroupOffset :=
        if needFullkey then b.recordGroupOffset ++ [toInt32 b.data.length]
        else b.recordGroupOffset
      recordNum := b.recordNum + 1
      data := appendRecord b.data shared (key.drop shared) value
      preKey := key }

/-- The loop of `finish_data_block` over the restart points; `lastOffset` ends the last group. -/
def appendRestarts (recordNum lastOffset : ℤ) : List ℤ → Bytes → Bytes
  | [], data => data
  | [offset], data =>
      -- the last group counts the records modulo the interval
      putFixed64 (putFixed32 data (recordNum % restartInterval))
        (OffsetInfo.bits ⟨lastOffset - offset, offset⟩)
  | offset :: next :: rest, data =>
      appendRestarts recordNum lastOffset (next :: rest)
        (putFixed64 (putFixed32 data restartInterval) (OffsetInfo.bits ⟨next - offset, offset⟩))

/-- `static_cast<int>((record_num - 0.5) / 16) + 1`. -/
def restartPointNum (recordNum : ℤ) : ℤ := (recordNum - 1).tdiv 16 + 1

/-- `finish_data_block`, which always returns `Success`. -/
def finishDataBlock (b : DataBlockBuilder) : DataBlockBuilder :=
  { b with
    data := putFixed32
      (appendRestarts b.recordNum (toInt32 b.data.length) b.recordGroupOffset b.data)
      (restartPointNum b.recordNum) }

/-- `size`. -/
def size (b : DataBlockBuilder) : ℕ := b.data.length

/-- `clear`. -/
def clear (_ : DataBlockBuilder) : DataBlockBuilder := {}

end DataBlockBuilder

end SmallKV

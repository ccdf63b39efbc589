import SmallKV.Foundations.Bytes
import SmallKV.Foundations.Exec

/-!
# Utils/Codec — the fixed-width codecs of `utils/codec.h`, and the integer conversions around them

`EncodeFixed32` and `EncodeFixed64` shift and mask; `encodeFixed32_eq` and `encodeFixed64_eq` say that
they write little-endian digits, and `decodeFixed32_encodeFixed32` that they are read back.
`toInt32`, `toUInt32` and `toUInt64` are the conversions a value meets when it is stored into an
`int32_t`, a `uint32_t` or a `size_t`.
-/

namespace SmallKV

/-! ## Integer conversions -/

/-- Conversion to `int32_t`. -/
def toInt32 (x : ℤ) : ℤ := (x + 0x80000000) % 0x100000000 - 0x80000000

/-- Conversion to `uint32_t`. -/
def toUInt32 (x : ℤ) : ℕ := (x % 0x100000000).toNat

/-- Conversion to `size_t`. -/
def toUInt64 (x : ℤ) : ℕ := (x % 0x10000000000000000).toNat

theorem toInt32_of_lt {n : ℕ} (h : n < 2 ^ 31) : toInt32 n = n := by
  rw [toInt32]
  omega

theorem toInt32_lt (x : ℤ) : toInt32 x < 2 ^ 31 := by
  rw [toInt32]
  omega

/-- An `int` is stored as it is. -/
theorem toInt32_of_range {x : ℤ} (hlow : -2 ^ 31 ≤ x) (hhigh : x < 2 ^ 31) : toInt32 x = x := by
  rw [toInt32]
  omega

theorem toInt32_eq_self {n : ℕ} : toInt32 n = n ↔ n < 2 ^ 31 := by
  refine ⟨fun h => ?_, toInt32_of_lt⟩
  rw [toInt32] at h
  omega

@[simp] theorem toInt32_toInt32 (x : ℤ) : toInt32 (toInt32 x) = toInt32 x := by
  rw [toInt32, toInt32]
  omega

/-- A 32-bit word keeps what an `int32_t` holds. -/
@[simp] theorem toInt32_toUInt32 (x : ℤ) : toInt32 (toUInt32 x) = toInt32 x := by
  rw [toInt32, toInt32, toUInt32]
  omega

@[simp] theorem toInt32_sub_toInt32 (x y : ℤ) : toInt32 (toInt32 x - toInt32 y) = toInt32 (x - y) := by
  rw [toInt32, toInt32, toInt32, toInt32]
  omega

@[simp] theorem toInt32_add_toInt32 (x y : ℤ) : toInt32 (x + toInt32 y) = toInt32 (x + y) := by
  rw [toInt32, toInt32, toInt32]
  omega

theorem toUInt32_lt (x : ℤ) : toUInt32 x < 2 ^ 32 := by
  rw [toUInt32]
  omega

theorem toUInt32_of_lt {n : ℕ} (h : n < 2 ^ 32) : toUInt32 n = n := by
  rw [toUInt32]
  omega

theorem toInt32_le (n : ℕ) : toInt32 n ≤ n := by
  rw [toInt32]
  omega

theorem toUInt64_of_lt {n : ℕ} (h : n < 2 ^ 64) : toUInt64 n = n := by
  rw [toUInt64]
  omega

/-! ## Memory -/

/-- The `n` bytes at `data + off`, where they lie inside the object. -/
def load (data : Bytes) (off n : ℕ) : Exec Bytes := do
  require (off + n ≤ data.length) .outOfBounds
  return (data.drop off).take n

/-- A load inside a larger object. -/
theorem load_append {pre bs rest : Bytes} {off n : ℕ} (hoff : pre.length = off)
    (hn : bs.length = n) : load (pre ++ (bs ++ rest)) off n = .ok bs := by
  simp [load, ← hoff, ← hn]

theorem length_of_load {data bs : Bytes} {off n : ℕ} (h : load data off n = .ok bs) :
    bs.length = n := by
  obtain ⟨_, hfits, h⟩ := bind_eq_ok.mp h
  obtain rfl := Except.ok.inj h
  rw [require_eq_ok, decide_eq_true_eq] at hfits
  rw [List.length_take, List.length_drop]
  omega

/-! ## Encoding -/

/-- `EncodeFixed32`. -/
def encodeFixed32 (val : ℕ) : Bytes :=
  [.ofNat val, .ofNat (val >>> 8), .ofNat (val >>> 16), .ofNat (val >>> 24)]

/-- `EncodeFixed64`. -/
def encodeFixed64 (val : ℕ) : Bytes :=
  [.ofNat val, .ofNat (val >>> 8), .ofNat (val >>> 16), .ofNat (val >>> 24),
    .ofNat (val >>> 32), .ofNat (val >>> 40), .ofNat (val >>> 48), .ofNat (val >>> 56)]

/-- **`EncodeFixed32` writes four little-endian digits.** -/
theorem encodeFixed32_eq (val : ℕ) : encodeFixed32 val = leBytes 4 val := by
  simp only [encodeFixed32, leBytes, Nat.shiftRight_eq_div_pow, Nat.div_div_eq_div_mul,
    Nat.reducePow, Nat.reduceMul]

/-- **`EncodeFixed64` writes eight little-endian digits.** -/
theorem encodeFixed64_eq (val : ℕ) : encodeFixed64 val = leBytes 8 val := by
  simp only [encodeFixed64, leBytes, Nat.shiftRight_eq_div_pow, Nat.div_div_eq_div_mul,
    Nat.reducePow, Nat.reduceMul]

/-- **The low 32 bits are read back.** -/
theorem leNat_encodeFixed32 (val : ℕ) : leNat (encodeFixed32 val) = val % 2 ^ 32 := by
  rw [encodeFixed32_eq, leNat_leBytes, show 256 ^ 4 = 2 ^ 32 by norm_num]

@[simp] theorem length_encodeFixed32 (val : ℕ) : (encodeFixed32 val).length = 4 := rfl

@[simp] theorem length_encodeFixed64 (val : ℕ) : (encodeFixed64 val).length = 8 := rfl

/-! ## Decoding -/

/-- `DecodeFixed32` of the bytes at `data + off`. -/
def decodeFixed32 (data : Bytes) (off : ℕ) : Exec ℕ := do
  return leNat (← load data off 4)

/-- **`DecodeFixed32` inverts `EncodeFixed32`** on the values of a `uint32_t`. -/
theorem decodeFixed32_encodeFixed32 {pre rest : Bytes} {off val : ℕ} (hoff : pre.length = off)
    (hval : val < 2 ^ 32) : decodeFixed32 (pre ++ (encodeFixed32 val ++ rest)) off = .ok val := by
  rw [decodeFixed32, load_append hoff (length_encodeFixed32 val), ok_bind, leNat_encodeFixed32,
    Nat.mod_eq_of_lt hval]
  rfl

theorem lt_of_decodeFixed32 {data : Bytes} {off n : ℕ} (h : decodeFixed32 data off = .ok n) :
    n < 2 ^ 32 := by
  obtain ⟨bs, hload, h⟩ := bind_eq_ok.mp h
  obtain rfl := Except.ok.inj h
  have hlt := leNat_lt bs
  rwa [length_of_load hload] at hlt

/-! ## Text -/

/-- The bytes of an ASCII string literal. -/
def ascii (s : String) : Bytes := s.toList.map fun c => UInt8.ofNat c.toNat

/-- `std::to_string`. -/
def toDecimal (n : ℕ) : Bytes := (Nat.toDigits 10 n).map fun c => UInt8.ofNat c.toNat

/-- `BuildSSTPath`. -/
def buildSSTPath (n i : ℕ) : Bytes :=
  ascii "level_" ++ toDecimal n ++ ascii "_sst_" ++ toDecimal i ++ ascii ".sst"

end SmallKV

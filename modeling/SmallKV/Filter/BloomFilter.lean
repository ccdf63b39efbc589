import SmallKV.Utils.Codec
import Mathlib.Data.List.Fold

/-!
# Filter/BloomFilter — the Bloom filter of `filter/bloom_filter.cpp`

The constructor sizes the filter with two expressions over `double`; they are parameters
(`BloomSizing`).  Hashing and probing are computed on 32-bit words as the source does.  Setting the
bits of some keys a second time changes nothing (`createFilter_twice`).
-/

namespace SmallKV

/-- The two floating-point expressions of the constructor, for the default false-positive rate. -/
structure BloomSizing where
  /-- `static_cast<int32_t>(std::log(false_positive) * keys_num / 0.4804530139182014)` -/
  logBits : ℤ → ℤ
  /-- `static_cast<int32_t>(0.6931471805599453 * bits_per_key)` -/
  hashNum : ℤ → ℤ

/-- The sizing for a false-positive rate of one in a hundred, in integers. -/
def BloomSizing.percent : BloomSizing where
  logBits n := -(n * 9585 / 1000)
  hashNum b := b * 693 / 1000

/-! ## The hash -/

namespace Murmur

/-- `m`. -/
def m : UInt32 := 0x5bd1e995

/-- `r`. -/
def r : UInt32 := 24

/-- `seed`. -/
def seed : UInt32 := 0xbc451d34

/-- The body of the `while (len >= 4)` loop. -/
def mixWord (h : UInt32) (word : Bytes) : UInt32 :=
  let k := UInt32.ofNat (leNat word) * m
  let k := (k ^^^ (k >>> r)) * m
  (h * m) ^^^ k

/-- The loop, and the `switch` over the bytes it leaves. -/
def mix (h : UInt32) : Bytes → UInt32
  | a :: b :: c :: d :: rest => mix (mixWord h [a, b, c, d]) rest
  | [a, b, c] =>
      (h ^^^ UInt32.ofNat (c.toNat <<< 16) ^^^ UInt32.ofNat (b.toNat <<< 8)
        ^^^ UInt32.ofNat a.toNat) * m
  | [a, b] => (h ^^^ UInt32.ofNat (b.toNat <<< 8) ^^^ UInt32.ofNat a.toNat) * m
  | [a] => (h ^^^ UInt32.ofNat a.toNat) * m
  | [] => h

end Murmur

/-- `murmur_hash2(key, len)`, called with the size of the key for `len`. -/
def murmurHash2 (key : Bytes) : UInt32 :=
  let len := UInt32.ofNat key.length
  let h := Murmur.mix (Murmur.seed ^^^ len) (key.take len.toNat)
  let h := (h ^^^ (h >>> 13)) * Murmur.m
  h ^^^ (h >>> 15)

/-- `delta`: the high 17 and the low 15 bits change places. -/
def hashDelta (h : UInt32) : UInt32 := (h >>> 17) ||| (h <<< 15)

/-! ## The filter -/

/-- `BloomFilter`. -/
structure BloomFilter where
  hashFuncNum : ℤ
  bitsArray : Bytes
  deriving DecidableEq, Repr

namespace BloomFilter

/-- The constructor from the expected number of keys. -/
def new (sizing : BloomSizing) (keysNum : ℤ) : Exec BloomFilter := do
  let bitsNum := toInt32 (-1 * sizing.logBits keysNum)
  let bytes := (toInt32 (bitsNum + 7)).tdiv 8
  -- a negative size is a huge `size_t`, and `resize` throws
  require (0 ≤ bytes) .uncaught
  let bitsNum := toInt32 (bytes * 8)
  require (keysNum ≠ 0) .divByZero
  let bitsPerKey := bitsNum.tdiv keysNum
  return {
    hashFuncNum := min 32 (max 1 (sizing.hashNum bitsPerKey))
    bitsArray := List.replicate bytes.toNat 0 }

/-- `bits_size`. -/
def bitsSize (bits : Bytes) : UInt32 := UInt32.ofNat (bits.length * 8)

/-- `h % bits_size`. -/
def bitPos (bits : Bytes) (h : UInt32) : Exec ℕ := do
  require (bitsSize bits ≠ 0) .divByZero
  return (h % bitsSize bits).toNat

/-- The probing loop of `create_filter` and `add`: set `n` bits. -/
def setBits (delta : UInt32) : ℕ → UInt32 → Bytes → Exec Bytes
  | 0, _, bits => .ok bits
  | n + 1, h, bits => do
      let pos ← bitPos bits h
      setBits delta n (h + delta) (bits.modify (pos / 8) (· ||| UInt8.ofNat (1 <<< (pos % 8))))

/-- The probing loop of `exists`: are `n` bits set? -/
def testBits (bits : Bytes) (delta : UInt32) : ℕ → UInt32 → Exec Bool
  | 0, _ => .ok true
  | n + 1, h => do
      let pos ← bitPos bits h
      let byte ← orFault .outOfBounds bits[pos / 8]?
      if byte &&& UInt8.ofNat (1 <<< (pos % 8)) = 0 then return false
      else testBits bits delta n (h + delta)

/-- One round of the loop of `create_filter` over the keys. -/
def insertKey (f : BloomFilter) (key : Bytes) : Exec BloomFilter := do
  let h := murmurHash2 key
  return { f with bitsArray := ← setBits (hashDelta h) f.hashFuncNum.toNat h f.bitsArray }

/-- `create_filter`. -/
def createFilter (f : BloomFilter) : List Bytes → Exec BloomFilter
  | [] => .ok f
  | key :: keys => do
      let f ← f.insertKey key
      f.createFilter keys

/-- `add`. -/
def add (f : BloomFilter) (key : Bytes) : Exec BloomFilter :=
  if key.isEmpty then return f else f.insertKey key

/-- `exists`. -/
def existsKey (f : BloomFilter) (key : Bytes) : Exec Bool :=
  if key.isEmpty then return false
  else testBits f.bitsArray (hashDelta (murmurHash2 key)) f.hashFuncNum.toNat (murmurHash2 key)

/-- `create_filter2`. -/
def createFilter2 (hashFuncNum : ℤ) (bitsArray : Bytes) : BloomFilter := ⟨hashFuncNum, bitsArray⟩

/-- `data`. -/
def data (f : BloomFilter) : Bytes := f.bitsArray

/-- `get_hash_num`. -/
def getHashNum (f : BloomFilter) : ℤ := f.hashFuncNum

/-! ## Setting bits twice -/

/-- Set the bit at a position. -/
def setBit (bits : Bytes) (pos : ℕ) : Bytes :=
  bits.modify (pos / 8) (· ||| UInt8.ofNat (1 <<< (pos % 8)))

@[simp] theorem length_setBit (bits : Bytes) (pos : ℕ) :
    (setBit bits pos).length = bits.length :=
  List.length_modify _ _ _

@[simp] theorem length_foldl_setBit (ps : List ℕ) (bits : Bytes) :
    (ps.foldl setBit bits).length = bits.length := by
  induction ps generalizing bits with
  | nil => rfl
  | cons p ps ih => rw [List.foldl_cons, ih, length_setBit]

theorem setBit_setBit (bits : Bytes) (pos : ℕ) :
    setBit (setBit bits pos) pos = setBit bits pos := by
  rw [setBit, setBit, List.modify_modify_eq]
  refine congrArg (bits.modify (pos / 8)) (funext fun b => ?_)
  exact (UInt8.or_assoc _ _ _).trans (congrArg (b ||| ·) (UInt8.or_self))

theorem setBit_comm (bits : Bytes) (p q : ℕ) :
    setBit (setBit bits p) q = setBit (setBit bits q) p := by
  simp only [setBit]
  by_cases hpq : p / 8 = q / 8
  · rw [hpq, List.modify_modify_eq, List.modify_modify_eq]
    refine congrArg (bits.modify (q / 8)) (funext fun b => ?_)
    simp only [Function.comp_apply, UInt8.or_assoc]
    rw [UInt8.or_comm (UInt8.ofNat _)]
  · exact List.modify_modify_ne _ _ _ hpq

instance : RightCommutative setBit := ⟨setBit_comm⟩

/-- **Setting some bits twice is setting them once.** -/
theorem foldl_setBit_twice (ps : List ℕ) (bits : Bytes) :
    ps.foldl setBit (ps.foldl setBit bits) = ps.foldl setBit bits := by
  induction ps with
  | nil => rfl
  | cons p ps ih =>
    have hlast : ∀ bits, (p :: ps).foldl setBit bits = setBit (ps.foldl setBit bits) p :=
      fun bits => List.foldl_cons_eq_apply_foldl
    calc (p :: ps).foldl setBit ((p :: ps).foldl setBit bits)
        = setBit ((p :: ps).foldl setBit (ps.foldl setBit bits)) p := by
          rw [hlast, hlast bits]
          rfl
      _ = setBit (setBit (ps.foldl setBit bits) p) p := by rw [hlast, ih]
      _ = (p :: ps).foldl setBit bits := by rw [setBit_setBit, hlast]

/-- The probing loop sets bits whose positions do not depend on what is set already. -/
theorem setBits_eq_ok {delta : UInt32} : ∀ {n : ℕ} {h : UInt32} {bits bits' : Bytes},
    setBits delta n h bits = .ok bits' → ∃ ps : List ℕ, bits' = ps.foldl setBit bits ∧
      ∀ bits₁ : Bytes, bits₁.length = bits.length →
        setBits delta n h bits₁ = .ok (ps.foldl setBit bits₁)
  | 0, h, bits, bits', hrun => by
      obtain rfl := Except.ok.inj hrun
      exact ⟨[], rfl, fun _ _ => rfl⟩
  | n + 1, h, bits, bits', hrun => by
      obtain ⟨pos, hpos, hrun⟩ := bind_eq_ok.mp hrun
      obtain ⟨ps, rfl, hrest⟩ := setBits_eq_ok hrun
      refine ⟨pos :: ps, rfl, fun bits₁ hlen => ?_⟩
      have hpos₁ : bitPos bits₁ h = .ok pos := by
        rw [← hpos, bitPos, bitPos, bitsSize, bitsSize, hlen]
      rw [setBits, hpos₁]
      exact hrest (setBit bits₁ pos) (by simpa using hlen)

/-- Creating a filter sets bits, for the same number of hash functions. -/
theorem createFilter_eq_ok : ∀ {keys : List Bytes} {f f' : BloomFilter},
    f.createFilter keys = .ok f' → ∃ ps : List ℕ,
      f' = { f with bitsArray := ps.foldl setBit f.bitsArray } ∧
      ∀ bits₁ : Bytes, bits₁.length = f.bitsArray.length →
        ({ f with bitsArray := bits₁ } : BloomFilter).createFilter keys =
          .ok { f with bitsArray := ps.foldl setBit bits₁ }
  | [], f, f', hrun => by
      obtain rfl := Except.ok.inj hrun
      exact ⟨[], rfl, fun _ _ => rfl⟩
  | key :: keys, f, f', hrun => by
      obtain ⟨f₁, hkey, hrun⟩ := bind_eq_ok.mp hrun
      obtain ⟨bits, hbits, hf₁⟩ := bind_eq_ok.mp hkey
      obtain rfl := Except.ok.inj hf₁
      obtain ⟨ps, rfl, hkeep⟩ := setBits_eq_ok hbits
      obtain ⟨ps', rfl, hrest⟩ := createFilter_eq_ok hrun
      refine ⟨ps ++ ps', by rw [List.foldl_append], fun bits₁ hlen => ?_⟩
      rw [createFilter, insertKey]
      simp only [hkeep bits₁ hlen, ok_bind, pure_eq_ok, List.foldl_append]
      exact hrest _ (by simpa using hlen)

/-- **Creating the filter of some keys a second time changes nothing.** -/
theorem createFilter_twice {keys : List Bytes} {f f' : BloomFilter}
    (h : f.createFilter keys = .ok f') : f'.createFilter keys = .ok f' := by
  obtain ⟨ps, rfl, hsame⟩ := createFilter_eq_ok h
  rw [hsame _ (length_foldl_setBit ps f.bitsArray), foldl_setBit_twice]

end BloomFilter

end SmallKV

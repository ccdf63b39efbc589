import SmallKV.Filter.BloomFilter
import Mathlib.Data.Nat.Bitwise
import Mathlib.Data.Set.Basic

/-!
# Filter/KeySet — a Bloom filter as a set of marked positions

A bit array is the set of the positions whose bit is set (`marked`), and inserting keys adds the
positions their hashes probe (`Grown`).  Two facts follow over any run of `create_filter`, `add`
and reloads:

* `existsKey_of_inserted` — no key inserted is ever reported missing.
* `run_of_same_keys` — the filter depends on nothing but the set of keys inserted.
-/

namespace SmallKV

namespace BloomFilter

/-! ## Bits at positions -/

/-- The bit at a position. -/
def bitAt (bits : Bytes) (pos : ℕ) : Bool := (bits.getD (pos / 8) 0).toNat.testBit (pos % 8)

theorem toNat_mask {j : ℕ} (hj : j < 8) : (UInt8.ofNat (1 <<< j)).toNat = 2 ^ j := by
  have hlt : 2 ^ j < 2 ^ 8 := Nat.pow_lt_pow_right (by decide) hj
  rw [Nat.one_shiftLeft, UInt8.toNat_ofNat']
  exact Nat.mod_eq_of_lt hlt

/-- The test of the probing loop of `exists`. -/
theorem and_mask_eq_zero (b : UInt8) {j : ℕ} (hj : j < 8) :
    b &&& UInt8.ofNat (1 <<< j) = 0 ↔ b.toNat.testBit j = false := by
  rw [← UInt8.toNat_inj, UInt8.toNat_and, toNat_mask hj, Nat.and_two_pow, UInt8.toNat_zero]
  cases b.toNat.testBit j <;> simp

theorem bitAt_setBit {bits : Bytes} {pos : ℕ} (hpos : pos / 8 < bits.length) (q : ℕ) :
    bitAt (setBit bits pos) q = true ↔ bitAt bits q = true ∨ q = pos := by
  by_cases hbyte : pos / 8 = q / 8
  · have hq : (setBit bits pos).getD (q / 8) 0 =
        bits.getD (q / 8) 0 ||| UInt8.ofNat (1 <<< (pos % 8)) := by
      rw [hbyte] at hpos
      rw [setBit, hbyte, List.getD_eq_getElem?_getD, List.getElem?_modify_eq,
        List.getD_eq_getElem?_getD, List.getElem?_eq_getElem hpos]
      rfl
    have hbit : q = pos ↔ pos % 8 = q % 8 := by omega
    rw [bitAt, hq, UInt8.toNat_or, toNat_mask (Nat.mod_lt _ (by decide)), Nat.testBit_or,
      Nat.testBit_two_pow, Bool.or_eq_true, decide_eq_true_eq, hbit, bitAt]
  · have hq : (setBit bits pos).getD (q / 8) 0 = bits.getD (q / 8) 0 := by
      rw [setBit, List.getD_eq_getElem?_getD, List.getElem?_modify_ne _ _ hbyte,
        List.getD_eq_getElem?_getD]
    have hne : q ≠ pos := fun h => hbyte (h ▸ rfl)
    rw [bitAt, hq, bitAt]
    simp [hne]

/-- **A bit array is its bits.** -/
theorem eq_of_bitAt {bits bits' : Bytes} (hlen : bits.length = bits'.length)
    (h : ∀ pos, bitAt bits pos = bitAt bits' pos) : bits = bits' := by
  refine List.ext_getElem hlen fun i hi hi' => UInt8.toNat_inj.mp (Nat.eq_of_testBit_eq fun j => ?_)
  by_cases hj : j < 8
  · have hbit := h (8 * i + j)
    rwa [bitAt, bitAt, Nat.mul_add_div (by decide), Nat.div_eq_of_lt hj, Nat.mul_add_mod,
      Nat.mod_eq_of_lt hj, Nat.add_zero, List.getD_eq_getElem _ _ hi,
      List.getD_eq_getElem _ _ hi'] at hbit
  · have hlt : ∀ b : UInt8, b.toNat < 2 ^ j := fun b =>
      b.toNat_lt.trans_le (Nat.pow_le_pow_right (by decide) (Nat.not_lt.mp hj))
    rw [Nat.testBit_lt_two_pow (hlt _), Nat.testBit_lt_two_pow (hlt _)]

/-! ## The probing loops -/

/-- The array has bits, and 32-bit words count them. -/
def Addressable (bits : Bytes) : Prop := 1 ≤ bits.length ∧ bits.length < 2 ^ 29

instance (bits : Bytes) : Decidable (Addressable bits) := inferInstanceAs (Decidable (_ ∧ _))

/-- The positions the probing loops visit in an array of `size` bits. -/
def probesFrom (size delta : UInt32) : ℕ → UInt32 → List ℕ
  | 0, _ => []
  | n + 1, h => (h % size).toNat :: probesFrom size delta n (h + delta)

/-- The positions of a key. -/
def probes (f : BloomFilter) (key : Bytes) : List ℕ :=
  probesFrom (bitsSize f.bitsArray) (hashDelta (murmurHash2 key)) f.hashFuncNum.toNat
    (murmurHash2 key)

theorem toNat_bitsSize {bits : Bytes} (h : Addressable bits) :
    (bitsSize bits).toNat = bits.length * 8 := by
  have hlt := h.2
  rw [bitsSize, UInt32.toNat_ofNat']
  exact Nat.mod_eq_of_lt (by omega)

theorem bitsSize_ne_zero {bits : Bytes} (h : Addressable bits) : bitsSize bits ≠ 0 := by
  intro hzero
  have hsize := toNat_bitsSize h
  have hpos := h.1
  rw [hzero, UInt32.toNat_zero] at hsize
  omega

theorem bitPos_eq {bits : Bytes} (h : Addressable bits) (x : UInt32) :
    bitPos bits x = .ok (x % bitsSize bits).toNat := by
  rw [bitPos, decide_eq_true (bitsSize_ne_zero h)]
  rfl

/-- A probe stays inside the array. -/
theorem mod_bitsSize_lt {bits : Bytes} (h : Addressable bits) (x : UInt32) :
    (x % bitsSize bits).toNat / 8 < bits.length := by
  have hpos := h.1
  rw [UInt32.toNat_mod, toNat_bitsSize h]
  have hlt := Nat.mod_lt x.toNat (show 0 < bits.length * 8 by omega)
  omega

theorem mem_probesFrom_lt {bits : Bytes} (h : Addressable bits) {delta : UInt32} {pos : ℕ} :
    ∀ {n : ℕ} {x : UInt32}, pos ∈ probesFrom (bitsSize bits) delta n x → pos / 8 < bits.length
  | n + 1, x, hmem => by
      rcases List.mem_cons.mp hmem with rfl | hmem
      · exact mod_bitsSize_lt h x
      · exact mem_probesFrom_lt h hmem

/-- **The loop of `create_filter` and `add` sets the bits it probes.** -/
theorem setBits_eq {bits : Bytes} (h : Addressable bits) (delta : UInt32) (n : ℕ) (x : UInt32) :
    setBits delta n x bits = .ok ((probesFrom (bitsSize bits) delta n x).foldl setBit bits) := by
  induction n generalizing x bits with
  | zero => rfl
  | succ n ih =>
    have hsize : bitsSize (setBit bits (x % bitsSize bits).toNat) = bitsSize bits := by
      rw [bitsSize, length_setBit, bitsSize]
    have hkeep : Addressable (setBit bits (x % bitsSize bits).toNat) := by
      rwa [Addressable, length_setBit]
    rw [setBits, bitPos_eq h, ok_bind]
    have hrest := ih hkeep (x + delta)
    rwa [hsize] at hrest

/-- **The loop of `exists` tests the bits it probes.** -/
theorem testBits_eq {bits : Bytes} (h : Addressable bits) (delta : UInt32) (n : ℕ) (x : UInt32) :
    testBits bits delta n x = .ok ((probesFrom (bitsSize bits) delta n x).all (bitAt bits)) := by
  induction n generalizing x with
  | zero => rfl
  | succ n ih =>
    have hin := mod_bitsSize_lt h x
    have hbit : bitAt bits (x % bitsSize bits).toNat = (bits.get ⟨_, hin⟩).toNat.testBit
        ((x % bitsSize bits).toNat % 8) := by
      rw [bitAt, List.getD_eq_getElem _ _ hin]
      rfl
    rw [testBits, bitPos_eq h, ok_bind, List.getElem?_eq_getElem hin, orFault_some, ok_bind,
      probesFrom, List.all_cons, hbit]
    simp only [and_mask_eq_zero _ (Nat.mod_lt _ (show 0 < 8 by decide)), List.get_eq_getElem]
    cases (bits[(x % bitsSize bits).toNat / 8]).toNat.testBit ((x % bitsSize bits).toNat % 8) with
    | false => rfl
    | true => exact ih (x + delta)

/-! ## What an insertion marks -/

/-- The positions whose bit is set. -/
def marked (f : BloomFilter) : Set ℕ := {pos | bitAt f.bitsArray pos = true}

/-- **A filter is its size, its hash count and its marked positions.** -/
theorem eq_of_marked {f f' : BloomFilter} (hhash : f.hashFuncNum = f'.hashFuncNum)
    (hlen : f.bitsArray.length = f'.bitsArray.length) (hmarked : f.marked = f'.marked) :
    f = f' := by
  obtain ⟨hash, bits⟩ := f
  obtain ⟨hash', bits'⟩ := f'
  obtain rfl : hash = hash' := hhash
  obtain rfl : bits = bits' := eq_of_bitAt hlen fun pos =>
    Bool.eq_iff_iff.mpr (Set.ext_iff.mp hmarked pos)
  rfl

/-- **What inserting `keys` makes of a filter**: their positions are marked, nothing else is. -/
structure Grown (f : BloomFilter) (keys : List Bytes) (f' : BloomFilter) : Prop where
  hash : f'.hashFuncNum = f.hashFuncNum
  length : f'.bitsArray.length = f.bitsArray.length
  marked : f'.marked = f.marked ∪ {pos | ∃ key ∈ keys, pos ∈ f.probes key}

namespace Grown

variable {f f₁ f₂ : BloomFilter} {keys keys' : List Bytes}

theorem refl (f : BloomFilter) : Grown f [] f := ⟨rfl, rfl, by simp⟩

theorem probes_eq (h : Grown f keys f₁) (key : Bytes) : f₁.probes key = f.probes key := by
  rw [probes, probes, h.hash, bitsSize, bitsSize, h.length]

theorem addressable (h : Grown f keys f₁) (hsize : Addressable f.bitsArray) :
    Addressable f₁.bitsArray := by
  rwa [Addressable, h.length]

theorem trans (h : Grown f keys f₁) (h' : Grown f₁ keys' f₂) : Grown f (keys ++ keys') f₂ := by
  refine ⟨h'.hash.trans h.hash, h'.length.trans h.length, Set.ext fun pos => ?_⟩
  simp only [h'.marked, h.marked, h.probes_eq, Set.mem_union, Set.mem_ofPred_eq, List.mem_append,
    or_and_right, exists_or, or_assoc]

/-- **The key set decides the filter.** -/
theorem eq_of_keys (h : Grown f keys f₁) (h' : Grown f keys' f₂)
    (hkeys : ∀ key, key ∈ keys ↔ key ∈ keys') : f₁ = f₂ := by
  refine eq_of_marked (h.hash.trans h'.hash.symm) (h.length.trans h'.length.symm) ?_
  rw [h.marked, h'.marked]
  simp only [hkeys]

/-- A key put in is found. -/
theorem existsKey_eq (h : Grown f keys f₁) (hsize : Addressable f.bitsArray) {key : Bytes}
    (hmem : key ∈ keys) (hne : key ≠ []) : f₁.existsKey key = .ok true := by
  have hempty : key.isEmpty = false := by simpa using hne
  have hall : (f₁.probes key).all (bitAt f₁.bitsArray) = true := by
    refine List.all_eq_true.mpr fun pos hpos => ?_
    rw [h.probes_eq] at hpos
    exact h.marked.ge (Or.inr ⟨key, hmem, hpos⟩)
  rw [existsKey, hempty, if_neg Bool.false_ne_true, testBits_eq (h.addressable hsize)]
  exact congrArg Except.ok hall

end Grown

theorem mem_foldl_setBit {bits : Bytes} {ps : List ℕ} (hps : ∀ p ∈ ps, p / 8 < bits.length)
    (q : ℕ) : bitAt (ps.foldl setBit bits) q = true ↔ bitAt bits q = true ∨ q ∈ ps := by
  induction ps generalizing bits with
  | nil => simp
  | cons p ps ih =>
    have hrest : ∀ p' ∈ ps, p' / 8 < (setBit bits p).length := fun p' hp' => by
      simpa using hps p' (List.mem_cons_of_mem p hp')
    rw [List.foldl_cons, ih hrest, bitAt_setBit (hps p List.mem_cons_self), List.mem_cons, or_assoc]

theorem insertKey_grown {f : BloomFilter} (hsize : Addressable f.bitsArray) (key : Bytes) :
    ∃ f', f.insertKey key = .ok f' ∧ Grown f [key] f' := by
  refine ⟨{ f with bitsArray := (f.probes key).foldl setBit f.bitsArray }, ?_, rfl, ?_, ?_⟩
  · rw [insertKey, setBits_eq hsize]
    rfl
  · exact length_foldl_setBit _ _
  · refine Set.ext fun pos => ?_
    simp only [List.mem_singleton, exists_eq_left]
    exact mem_foldl_setBit (fun p hp => mem_probesFrom_lt hsize hp) pos

theorem createFilter_grown : ∀ (keys : List Bytes) {f : BloomFilter}, Addressable f.bitsArray →
    ∃ f', f.createFilter keys = .ok f' ∧ Grown f keys f'
  | [], f, _ => ⟨f, rfl, .refl f⟩
  | key :: keys, f, hsize => by
      obtain ⟨f₁, hkey, hgrown⟩ := insertKey_grown hsize key
      obtain ⟨f₂, hkeys, hgrown'⟩ := createFilter_grown keys (hgrown.addressable hsize)
      refine ⟨f₂, ?_, hgrown.trans hgrown'⟩
      rw [createFilter, hkey]
      exact hkeys

/-! ## Runs -/

/-- A call that changes a filter. -/
inductive Call
  | createFilter (keys : List Bytes)
  | add (key : Bytes)
  /-- saved through `data()` and `get_hash_num()`, reloaded through `create_filter2` -/
  | reload
  deriving DecidableEq, Repr

/-- The keys a call inserts: `add` skips an empty one, `create_filter` does not. -/
def Call.inserted : Call → List Bytes
  | createFilter keys => keys
  | add key => if key.isEmpty then [] else [key]
  | reload => []

/-- The keys inserted by some calls. -/
def insertedBy (calls : List Call) : List Bytes := calls.flatMap Call.inserted

@[simp] theorem insertedBy_nil : insertedBy [] = [] := rfl

@[simp] theorem insertedBy_createFilter (keys : List Bytes) (calls : List Call) :
    insertedBy (.createFilter keys :: calls) = keys ++ insertedBy calls :=
  List.flatMap_cons

/-- One `add` for each key inserts what the batch does. -/
theorem insertedBy_map_add {keys : List Bytes} (hne : [] ∉ keys) :
    insertedBy (keys.map .add) = keys := by
  induction keys with
  | nil => rfl
  | cons key keys ih =>
    obtain ⟨hkey, hkeys⟩ := not_or.mp (List.mem_cons.not.mp hne)
    have hempty : key.isEmpty = false := by simpa using Ne.symm hkey
    simpa [insertedBy, Call.inserted, hempty] using ih hkeys

/-- Make one call. -/
def call (f : BloomFilter) : Call → Exec (BloomFilter × Unit)
  | .createFilter keys => (·, ()) <$> f.createFilter keys
  | .add key => (·, ()) <$> f.add key
  | .reload => .ok (createFilter2 f.getHashNum f.data, ())

/-- Make some calls. -/
def run (f : BloomFilter) (calls : List Call) : Exec BloomFilter :=
  Prod.fst <$> runFrom call f calls

/-- **Every call inserts its keys.** -/
theorem call_grown {f : BloomFilter} (hsize : Addressable f.bitsArray) (c : Call) :
    ∃ f', f.call c = .ok (f', ()) ∧ Grown f c.inserted f' := by
  cases c with
  | createFilter keys =>
    obtain ⟨f', hcreate, hgrown⟩ := createFilter_grown keys hsize
    exact ⟨f', by rw [call, hcreate, map_ok], hgrown⟩
  | add key =>
    by_cases hempty : key.isEmpty = true
    · refine ⟨f, ?_, ?_⟩
      · rw [call, BloomFilter.add, if_pos hempty]
        rfl
      · rw [Call.inserted, if_pos hempty]
        exact .refl f
    · obtain ⟨f', hinsert, hgrown⟩ := insertKey_grown hsize key
      refine ⟨f', ?_, ?_⟩
      · rw [call, BloomFilter.add, if_neg hempty, hinsert, map_ok]
      · rwa [Call.inserted, if_neg hempty]
  | reload => exact ⟨f, rfl, .refl f⟩

/-- **A run inserts the keys of its calls.** -/
theorem run_grown {f : BloomFilter} (hsize : Addressable f.bitsArray) (calls : List Call) :
    ∃ f', f.run calls = .ok f' ∧ Grown f (insertedBy calls) f' := by
  obtain ⟨f', rs, hrun, hgrown⟩ := run_total_history call
    (I := fun h f' => Grown f (insertedBy (h.map Prod.fst)) f')
    (fun h f' c hgrown => by
      obtain ⟨f₁, hcall, hgrown'⟩ := call_grown (hgrown.addressable hsize) c
      refine ⟨f₁, (), hcall, ?_⟩
      simpa [insertedBy] using hgrown.trans hgrown') calls [] f (.refl f)
  have hlen : calls.length ≤ rs.length := (length_of_runFrom call hrun).ge
  refine ⟨f', by rw [run, hrun, map_ok], ?_⟩
  rwa [List.nil_append, List.map_fst_zip hlen] at hgrown

/-- **No false negatives**: after any run of `create_filter`, `add` and reloads, every non-empty
key inserted so far exists. -/
theorem existsKey_of_inserted {f : BloomFilter} (hsize : Addressable f.bitsArray)
    (calls : List Call) :
    ∃ f', f.run calls = .ok f' ∧
      ∀ key ∈ insertedBy calls, key ≠ [] → f'.existsKey key = .ok true := by
  obtain ⟨f', hrun, hgrown⟩ := run_grown hsize calls
  exact ⟨f', hrun, fun key hmem hne => hgrown.existsKey_eq hsize hmem hne⟩

theorem existsKey_of_inserted_three : ∃ f', (⟨3, [0, 0]⟩ : BloomFilter).run
      [.createFilter [[97], [98]], .reload, .add [99]] = .ok f' ∧
    ∀ key ∈ insertedBy [.createFilter [[97], [98]], .reload, .add [99]], key ≠ [] →
      f'.existsKey key = .ok true :=
  existsKey_of_inserted (by decide) _

/-- **The key set is all a filter depends on**: runs that insert the same keys, in whatever order,
grouping and multiplicity, end in the same filter; so one batch, one key at a time and the batch
repeated do. -/
theorem run_of_same_keys {f : BloomFilter} (hsize : Addressable f.bitsArray) :
    (∀ calls calls', (∀ key, key ∈ insertedBy calls ↔ key ∈ insertedBy calls') →
      ∃ f', f.run calls = .ok f' ∧ f.run calls' = .ok f') ∧
    ∀ keys : List Bytes, [] ∉ keys →
      ∃ f', f.run [.createFilter keys] = .ok f' ∧ f.run (keys.map .add) = .ok f' ∧
        f.run [.createFilter keys, .createFilter keys] = .ok f' := by
  have hsame : ∀ calls calls', (∀ key, key ∈ insertedBy calls ↔ key ∈ insertedBy calls') →
      ∃ f', f.run calls = .ok f' ∧ f.run calls' = .ok f' := by
    intro calls calls' hkeys
    obtain ⟨f₁, hrun₁, hgrown₁⟩ := run_grown hsize calls
    obtain ⟨f₂, hrun₂, hgrown₂⟩ := run_grown hsize calls'
    obtain rfl := hgrown₁.eq_of_keys hgrown₂ hkeys
    exact ⟨f₁, hrun₁, hrun₂⟩
  refine ⟨hsame, fun keys hne => ?_⟩
  obtain ⟨f', hbatch, heach⟩ := hsame [.createFilter keys] (keys.map .add) (by
    simp [insertedBy_map_add hne])
  obtain ⟨f'', hbatch', htwice⟩ := hsame [.createFilter keys] [.createFilter keys, .createFilter keys]
    (by simp)
  obtain rfl := Except.ok.inj (hbatch.symm.trans hbatch')
  exact ⟨f', hbatch, heach, htwice⟩

theorem run_of_same_keys_three :
    (∀ calls calls', (∀ key, key ∈ insertedBy calls ↔ key ∈ insertedBy calls') →
      ∃ f', (⟨3, [0, 0]⟩ : BloomFilter).run calls = .ok f' ∧
        (⟨3, [0, 0]⟩ : BloomFilter).run calls' = .ok f') ∧
    ∀ keys : List Bytes, [] ∉ keys →
      ∃ f', (⟨3, [0, 0]⟩ : BloomFilter).run [.createFilter keys] = .ok f' ∧
        (⟨3, [0, 0]⟩ : BloomFilter).run (keys.map .add) = .ok f' ∧
        (⟨3, [0, 0]⟩ : BloomFilter).run [.createFilter keys, .createFilter keys] = .ok f' :=
  run_of_same_keys (by decide)

end BloomFilter

end SmallKV

import SmallKV.Foundations.DeltaCode
import SmallKV.Table.Layout
import Mathlib.Data.List.Induction

/-!
# Table/Records — the records of a data block, read back

What `add` appends depends on the number of the record and on the key before it; a reader knows the
key before it only.  So the records of a block are a code with a running state (`recordBytes`), read
back by `decodeRecords`, and from every restart point on they are read back without knowing what
comes before it (`decodeRecords_blockOf`).
-/

namespace SmallKV

/-! ## The records as a code -/

/-- What one record tells the next: how many there were, and the last key. -/
structure RecordState where
  num : ℕ := 0
  preKey : Bytes := []

namespace RecordState

/-- A record more. -/
def next (s : RecordState) (pair : Bytes × Bytes) : RecordState := ⟨s.num + 1, pair.1⟩

/-- `shared_key_len`: none in the first record of a group. -/
def sharedLen (s : RecordState) (key : Bytes) : ℕ :=
  if s.num % 16 = 0 then 0 else DataBlockBuilder.sharedKeyLen key s.preKey

/-- The record of a pair. -/
def record (s : RecordState) (pair : Bytes × Bytes) : Bytes :=
  DataBlockBuilder.appendRecord [] (s.sharedLen pair.1) (pair.1.drop (s.sharedLen pair.1)) pair.2

theorem record_ne_nil (s : RecordState) (pair : Bytes × Bytes) : s.record pair ≠ [] := by
  simp [record, DataBlockBuilder.appendRecord, putFixed32, encodeFixed32]

theorem length_record (s : RecordState) (pair : Bytes × Bytes) :
    (s.record pair).length = 12 + (pair.1.length - s.sharedLen pair.1) + pair.2.length := by
  simp [record, DataBlockBuilder.appendRecord, putFixed32]
  omega

theorem num_foldl : ∀ (pairs : List (Bytes × Bytes)) (s : RecordState),
    (pairs.foldl next s).num = s.num + pairs.length
  | [], _ => rfl
  | pair :: pairs, s => by
      have hnext : (s.next pair).num = s.num + 1 := rfl
      rw [List.foldl_cons, num_foldl pairs, hnext, List.length_cons]
      omega

end RecordState

/-- The records of some pairs. -/
def recordBytes (pairs : List (Bytes × Bytes)) : Bytes :=
  encodeFrom RecordState.next RecordState.record {} pairs

/-- Where record `j` starts, and all the records end when there is no such record. -/
def recordStart (pairs : List (Bytes × Bytes)) (j : ℕ) : ℕ := (recordBytes (pairs.take j)).length

/-- Where group `i` of sixteen records starts. -/
def groupStart (pairs : List (Bytes × Bytes)) (i : ℕ) : ℕ := recordStart pairs (16 * i)

/-- The number of groups of sixteen, the last of which may be short. -/
def groupNum (pairs : List (Bytes × Bytes)) : ℕ := (pairs.length + 15) / 16

variable {pairs : List (Bytes × Bytes)}

theorem recordBytes_concat (pairs : List (Bytes × Bytes)) (pair : Bytes × Bytes) :
    recordBytes (pairs ++ [pair]) =
      recordBytes pairs ++ (pairs.foldl RecordState.next {}).record pair := by
  rw [recordBytes, recordBytes, encodeFrom_concat]

theorem length_recordBytes_singleton (p : Bytes × Bytes) :
    (recordBytes [p]).length = 12 + p.1.length + p.2.length := by
  have hrecord := RecordState.length_record {} p
  have hshared : RecordState.sharedLen {} p.1 = 0 := rfl
  rw [hshared] at hrecord
  rw [recordBytes, encodeFrom, encodeFrom, List.append_nil, hrecord]
  omega

theorem groupNum_singleton (p : Bytes × Bytes) : groupNum [p] = 1 := by simp [groupNum]

theorem recordBytes_take_append_drop (pairs : List (Bytes × Bytes)) (n : ℕ) :
    recordBytes pairs = recordBytes (pairs.take n) ++ encodeFrom RecordState.next RecordState.record
      ((pairs.take n).foldl RecordState.next {}) (pairs.drop n) := by
  rw [recordBytes, recordBytes, ← encodeFrom_append, List.take_append_drop]

/-- **What the builder holds**: the records, how many there are, the last key, and the starts of the
groups as `int`s. -/
structure Holds (b : DataBlockBuilder) (pairs : List (Bytes × Bytes)) : Prop where
  data : b.data = recordBytes pairs
  recordNum : b.recordNum = pairs.length
  preKey : b.preKey = (pairs.foldl RecordState.next {}).preKey
  offsets : b.recordGroupOffset =
    (List.range (groupNum pairs)).map fun i => toInt32 (groupStart pairs i)

theorem recordStart_lt_succ {j : ℕ} (hj : j < pairs.length) :
    recordStart pairs j < recordStart pairs (j + 1) := by
  have hframe := List.length_pos_iff.mpr
    (((pairs.take j).foldl RecordState.next {}).record_ne_nil pairs[j])
  rw [recordStart, recordStart, List.take_add_one, List.getElem?_eq_getElem hj, Option.toList_some,
    recordBytes_concat, List.length_append]
  omega

theorem recordStart_mono (pairs : List (Bytes × Bytes)) : Monotone (recordStart pairs) := by
  refine monotone_nat_of_le_succ fun j => ?_
  by_cases hj : j < pairs.length
  · exact (recordStart_lt_succ hj).le
  · rw [recordStart, recordStart, List.take_of_length_le (by omega),
      List.take_of_length_le (by omega)]

/-- **Records start in their order.** -/
theorem recordStart_lt_iff {a b : ℕ} (ha : a < pairs.length) :
    recordStart pairs a < recordStart pairs b ↔ a < b := by
  constructor
  · intro h
    by_contra hba
    exact absurd h (Nat.not_lt.mpr (recordStart_mono pairs (Nat.le_of_not_lt hba)))
  · intro hab
    exact (recordStart_lt_succ ha).trans_le (recordStart_mono pairs hab)

/-- The first record, at least, is there. -/
theorem length_recordBytes_cons (pair : Bytes × Bytes) (ps : List (Bytes × Bytes)) :
    12 + pair.1.length + pair.2.length ≤ (recordBytes (pair :: ps)).length := by
  have hfirst := RecordState.length_record {} pair
  have hshared : RecordState.sharedLen {} pair.1 = 0 := rfl
  rw [recordBytes, encodeFrom, List.length_append, hfirst, hshared]
  omega

theorem le_recordStart {j : ℕ} (hj : j ≤ pairs.length) : j ≤ recordStart pairs j := by
  have hle : (pairs.take j).length ≤ (recordBytes (pairs.take j)).length :=
    length_le_encodeFrom RecordState.record_ne_nil (pairs.take j) {}
  rwa [List.length_take, Nat.min_eq_left hj] at hle

theorem groupStart_concat {pair : Bytes × Bytes} {i : ℕ} (hi : 16 * i ≤ pairs.length) :
    groupStart (pairs ++ [pair]) i = groupStart pairs i := by
  rw [groupStart, groupStart, recordStart, recordStart, List.take_append_of_le_length hi]

/-- **`add` appends one record**, and the start of a group when the last one is full. -/
theorem Holds.add {b : DataBlockBuilder} {pair : Bytes × Bytes} (h : Holds b pairs)
    (hkey : pair.1 ≠ []) : Holds (b.add pair.1 pair.2) (pairs ++ [pair]) := by
  have hkey' : ¬ pair.1.isEmpty = true := by simpa using hkey
  have hnum : (pairs.foldl RecordState.next {}).num = pairs.length := by
    rw [RecordState.num_foldl]
    exact Nat.zero_add _
  have hfull : b.recordNum % restartInterval = 0 ↔ pairs.length % 16 = 0 := by
    rw [h.recordNum, restartInterval]
    omega
  have hshared : (if decide (b.recordNum % restartInterval = 0) = true then 0
      else DataBlockBuilder.sharedKeyLen pair.1 b.preKey) =
      (pairs.foldl RecordState.next {}).sharedLen pair.1 := by
    rw [RecordState.sharedLen, hnum, h.preKey]
    simp only [decide_eq_true_eq, hfull]
  have hlast : 16 * (pairs.length / 16) ≤ pairs.length := Nat.mul_div_le _ _
  rw [DataBlockBuilder.add, if_neg hkey']
  refine ⟨?_, ?_, ?_, ?_⟩
  · rw [recordBytes_concat, RecordState.record, ← hshared, ← h.data]
    simp [DataBlockBuilder.appendRecord, putFixed32]
  · simp [h.recordNum]
  · simp [RecordState.next]
  · have hearlier : ∀ i ∈ List.range (groupNum pairs),
        toInt32 (groupStart (pairs ++ [pair]) i) = toInt32 (groupStart pairs i) := by
      intro i hi
      rw [List.mem_range, groupNum] at hi
      rw [groupStart_concat (by omega)]
    by_cases hmod : pairs.length % 16 = 0
    · have hgroups : groupNum (pairs ++ [pair]) = groupNum pairs + 1 := by
        rw [groupNum, groupNum, List.length_append, List.length_singleton]
        omega
      have hstart : groupStart (pairs ++ [pair]) (groupNum pairs) = b.data.length := by
        have hall : 16 * groupNum pairs = pairs.length := by
          rw [groupNum]
          omega
        rw [groupStart_concat hall.le, groupStart, recordStart, hall, List.take_length, h.data]
      simp only [hfull, hmod, decide_true, if_true]
      rw [hgroups, List.range_succ, List.map_append, List.map_congr_left hearlier, h.offsets,
        List.map_singleton, hstart]
    · have hgroups : groupNum (pairs ++ [pair]) = groupNum pairs := by
        rw [groupNum, groupNum, List.length_append, List.length_singleton]
        omega
      simp only [hfull, hmod, decide_false, Bool.false_eq_true, if_false]
      rw [hgroups, List.map_congr_left hearlier, h.offsets]

/-- **The block of some pairs holds their records.** -/
theorem holds_blockOf (hkeys : ∀ p ∈ pairs, p.1 ≠ []) : Holds (blockOf pairs) pairs := by
  induction pairs using List.reverseRecOn with
  | nil => exact ⟨rfl, rfl, rfl, rfl⟩
  | append_singleton pairs pair ih =>
    rw [blockOf_concat]
    exact (ih fun p hp => hkeys p (List.mem_append_left _ hp)).add (hkeys pair (by simp))

theorem size_blockOf (hkeys : ∀ p ∈ pairs, p.1 ≠ []) :
    (blockOf pairs).size = (recordBytes pairs).length := by
  rw [DataBlockBuilder.size, (holds_blockOf hkeys).data]

/-! ## How long the records are -/

/-- What two keys begin with in common. -/
theorem take_sharedKeyLen : ∀ key preKey : Bytes,
    preKey.take (DataBlockBuilder.sharedKeyLen key preKey) =
      key.take (DataBlockBuilder.sharedKeyLen key preKey) ∧
    DataBlockBuilder.sharedKeyLen key preKey ≤ preKey.length
  | [], _ => by simp [DataBlockBuilder.sharedKeyLen]
  | a :: key, [] => by simp [DataBlockBuilder.sharedKeyLen]
  | a :: key, b :: preKey => by
      rw [DataBlockBuilder.sharedKeyLen]
      split_ifs with hab
      · obtain ⟨htake, hle⟩ := take_sharedKeyLen key preKey
        rw [List.take_succ_cons, List.take_succ_cons, htake, hab, List.length_cons]
        exact ⟨rfl, Nat.succ_le_succ hle⟩
      · simp

theorem take_sharedLen (s : RecordState) (key : Bytes) :
    s.preKey.take (s.sharedLen key) = key.take (s.sharedLen key) ∧
      s.sharedLen key ≤ s.preKey.length := by
  rw [RecordState.sharedLen]
  split_ifs
  · simp
  · exact take_sharedKeyLen key s.preKey

/-- The last key takes no more bytes than the records: what it does not share is in its own record. -/
theorem length_preKey_le (pairs : List (Bytes × Bytes)) :
    (pairs.foldl RecordState.next {}).preKey.length ≤ (recordBytes pairs).length := by
  induction pairs using List.reverseRecOn with
  | nil => exact Nat.zero_le _
  | append_singleton pairs pair ih =>
    have hshared := (take_sharedLen (pairs.foldl RecordState.next {}) pair.1).2
    have hpreKey : ((pairs ++ [pair]).foldl RecordState.next {}).preKey = pair.1 := by
      simp [RecordState.next]
    rw [hpreKey, recordBytes_concat, List.length_append, RecordState.length_record]
    omega

/-! ## Reading records back -/

/-- The little-endian 32-bit number at an offset. -/
def fixed32At (bytes : Bytes) (off : ℕ) : ℕ := leNat ((bytes.drop off).take 4)

/-- Read a record behind a key: three lengths, the rest of its key, its value. -/
def decodeRecord (preKey bytes : Bytes) : Option ((Bytes × Bytes) × Bytes) :=
  let sharedKeyLen := fixed32At bytes 0
  let unsharedKeyLen := fixed32At bytes 4
  let valueLen := fixed32At bytes 8
  let body := bytes.drop 12
  if 12 + unsharedKeyLen + valueLen ≤ bytes.length ∧ sharedKeyLen ≤ preKey.length then
    some ((preKey.take sharedKeyLen ++ body.take unsharedKeyLen,
      (body.drop unsharedKeyLen).take valueLen), body.drop (unsharedKeyLen + valueLen))
  else none

/-- The key that the next record is read behind. -/
def nextKey (_ : Bytes) (pair : Bytes × Bytes) : Bytes := pair.1

/-- Read records one after the other, the first behind the empty key. -/
def decodeRecords (bytes : Bytes) : Option (List (Bytes × Bytes)) :=
  decodeFrom nextKey decodeRecord bytes.length [] bytes

/-- A number below `2 ^ 32` is read back. -/
theorem fixed32At_append (pre : Bytes) {rest : Bytes} {off val : ℕ} (hoff : pre.length = off)
    (hval : val < 2 ^ 32) : fixed32At (pre ++ (encodeFixed32 val ++ rest)) off = val := by
  rw [fixed32At, List.drop_left' hoff, List.take_left' (length_encodeFixed32 val),
    leNat_encodeFixed32, Nat.mod_eq_of_lt hval]

/-- The bytes of a record, one field after the other. -/
theorem record_append (s : RecordState) (pair : Bytes × Bytes) (rest : Bytes) :
    s.record pair ++ rest = encodeFixed32 (toUInt32 (s.sharedLen pair.1)) ++
      (encodeFixed32 (toUInt32 (pair.1.drop (s.sharedLen pair.1)).length) ++
        (encodeFixed32 (toUInt32 pair.2.length) ++
          (pair.1.drop (s.sharedLen pair.1) ++ (pair.2 ++ rest)))) := by
  simp [RecordState.record, DataBlockBuilder.appendRecord, putFixed32]

/-- A key and a value whose lengths are `int`s. -/
def Fits (pair : Bytes × Bytes) : Prop := pair.1.length < 2 ^ 31 ∧ pair.2.length < 2 ^ 31

/-- **One record is read back** behind the key it was written behind. -/
theorem decodeRecord_record (s : RecordState) (pair : Bytes × Bytes) (rest : Bytes)
    (hfits : Fits pair) : decodeRecord s.preKey (s.record pair ++ rest) = some (pair, rest) := by
  obtain ⟨htake, hshared⟩ := take_sharedLen s pair.1
  obtain ⟨hkey, hvalue⟩ := hfits
  set shared := s.sharedLen pair.1
  set unsharedKey := pair.1.drop shared
  have hle : shared ≤ pair.1.length := by
    have hlen := congrArg List.length htake
    rw [List.length_take, List.length_take] at hlen
    omega
  have hunshared : unsharedKey.length = pair.1.length - shared := List.length_drop
  rw [record_append, toUInt32_of_lt (show shared < 2 ^ 32 by omega),
    toUInt32_of_lt (show unsharedKey.length < 2 ^ 32 by omega),
    toUInt32_of_lt (show pair.2.length < 2 ^ 32 by omega)]
  set tail := unsharedKey ++ (pair.2 ++ rest)
  set bytes := encodeFixed32 shared ++
    (encodeFixed32 unsharedKey.length ++ (encodeFixed32 pair.2.length ++ tail)) with hbytes
  have h₀ : fixed32At bytes 0 = shared := fixed32At_append [] rfl (by omega)
  have h₄ : fixed32At bytes 4 = unsharedKey.length :=
    fixed32At_append _ (length_encodeFixed32 shared) (by omega)
  have h₈ : fixed32At bytes 8 = pair.2.length := by
    rw [hbytes, ← List.append_assoc]
    exact fixed32At_append _ rfl (by omega)
  have hbody : bytes.drop 12 = tail := by
    rw [hbytes, ← List.append_assoc, ← List.append_assoc]
    exact List.drop_left' rfl
  have hkeyBack : s.preKey.take shared ++ tail.take unsharedKey.length = pair.1 := by
    rw [htake, List.take_left' rfl, List.take_append_drop]
  have hvalueBack : (tail.drop unsharedKey.length).take pair.2.length = pair.2 := by
    rw [List.drop_left' rfl, List.take_left' rfl]
  have hrest : tail.drop (unsharedKey.length + pair.2.length) = rest := by
    rw [← List.drop_drop, List.drop_left' rfl, List.drop_left' rfl]
  have hlen : 12 + unsharedKey.length + pair.2.length ≤ bytes.length := by
    simp only [hbytes, tail, List.length_append, length_encodeFixed32]
    omega
  rw [decodeRecord, h₀, h₄, h₈, hbody, hkeyBack, hvalueBack, hrest, if_pos ⟨hlen, hshared⟩]

/-- Records from a state with no key on are read back. -/
theorem decodeRecords_encodeFrom {num : ℕ} (hfits : ∀ p ∈ pairs, Fits p) :
    decodeRecords (encodeFrom RecordState.next RecordState.record ⟨num, []⟩ pairs) = some pairs := by
  have hview : ∀ (s : RecordState) (pair : Bytes × Bytes),
      nextKey s.preKey pair = (s.next pair).preKey := fun _ _ => rfl
  exact decodeFrom_encodeFrom (s := ⟨num, []⟩) hview RecordState.record_ne_nil decodeRecord_record
    hfits (length_le_encodeFrom RecordState.record_ne_nil pairs _)

/-- From the start of a group on, the key before it does not matter. -/
theorem encodeFrom_group {s : RecordState} (hnum : s.num % 16 = 0) :
    ∀ ps : List (Bytes × Bytes), encodeFrom RecordState.next RecordState.record s ps =
      encodeFrom RecordState.next RecordState.record ⟨s.num, []⟩ ps
  | [] => rfl
  | pair :: ps => by
      have hshared : s.record pair = (⟨s.num, []⟩ : RecordState).record pair := by
        simp [RecordState.record, RecordState.sharedLen, hnum]
      rw [encodeFrom, encodeFrom, hshared]
      rfl

/-- **Prefix compression is invertible.**  Reading the record bytes one record after the other gives
back the pairs.  Every sixteenth record shares nothing with the key before it: the bytes before it
and the bytes from it on are read back on their own.  In a block below `2 ^ 31` bytes it starts at
the offset that `record_group_offset` holds for its group. -/
theorem decodeRecords_blockOf (hkeys : ∀ p ∈ pairs, p.1 ≠ []) (hfits : ∀ p ∈ pairs, Fits p) :
    decodeRecords (blockOf pairs).data = some pairs ∧
      ∀ i, 16 * i < pairs.length → ∃ start ≤ (blockOf pairs).data.length,
        ((blockOf pairs).data.length < 2 ^ 31 →
          (blockOf pairs).recordGroupOffset[i]? = some (start : ℤ)) ∧
        fixed32At (blockOf pairs).data start = 0 ∧
        decodeRecords ((blockOf pairs).data.take start) = some (pairs.take (16 * i)) ∧
        decodeRecords ((blockOf pairs).data.drop start) = some (pairs.drop (16 * i)) := by
  have hholds := holds_blockOf hkeys
  have hall : decodeRecords (recordBytes pairs) = some pairs := decodeRecords_encodeFrom hfits
  rw [hholds.data]
  refine ⟨hall, fun i hi => ?_⟩
  set before := recordBytes (pairs.take (16 * i)) with hbefore
  set s := (pairs.take (16 * i)).foldl RecordState.next {} with hs
  have hsplit : recordBytes pairs =
      before ++ encodeFrom RecordState.next RecordState.record s (pairs.drop (16 * i)) :=
    recordBytes_take_append_drop pairs (16 * i)
  have hnum : s.num % 16 = 0 := by
    rw [hs, RecordState.num_foldl, List.length_take, Nat.min_eq_left hi.le]
    simp
  have hdrop : (recordBytes pairs).drop before.length =
      encodeFrom RecordState.next RecordState.record ⟨s.num, []⟩ (pairs.drop (16 * i)) := by
    rw [hsplit, List.drop_left' rfl, encodeFrom_group hnum]
  refine ⟨before.length, ?_, fun hlt => ?_, ?_, ?_, ?_⟩
  · rw [hsplit, List.length_append]
    exact Nat.le_add_right _ _
  · have hgroup : i < groupNum pairs := by
      rw [groupNum]
      omega
    have hle : groupStart pairs i < 2 ^ 31 := by
      rw [hsplit, List.length_append] at hlt
      exact lt_of_le_of_lt (Nat.le_add_right _ _) hlt
    rw [hholds.offsets, List.getElem?_map, List.getElem?_range hgroup, Option.map_some,
      toInt32_of_lt hle]
    rfl
  · obtain ⟨pair, rest, hcons⟩ := List.exists_cons_of_ne_nil
      (show pairs.drop (16 * i) ≠ [] by simpa using hi)
    have hshared : (⟨s.num, []⟩ : RecordState).sharedLen pair.1 = 0 := if_pos hnum
    rw [fixed32At, hdrop, hcons, encodeFrom, record_append, hshared]
    rfl
  · rw [hsplit, List.take_left' rfl]
    exact decodeRecords_encodeFrom fun p hp => hfits p (List.mem_of_mem_take hp)
  · rw [hdrop]
    exact decodeRecords_encodeFrom fun p hp => hfits p (List.mem_of_mem_drop hp)

/-- Two records, the second of which shares its key with the first. -/
theorem decodeRecords_blockOf_two :
    decodeRecords (blockOf [([1, 2], [7]), ([1, 2, 3], [])]).data =
      some [([1, 2], [7]), ([1, 2, 3], [])] :=
  (decodeRecords_blockOf (by decide) (by simp [Fits])).1

end SmallKV

import SmallKV.Sstparser.Loads
import Mathlib.Data.List.TakeWhile

/-!
# Sstparser/BlockLookup — `FindKeyInDB` on the blocks of `DataBlockBuilder`

The lookup takes the bytes of the last group for the number of restart points, and the number of
groups for their offset, and `parse_record` takes all three lengths from the first field.  So it
reads restart points and records where the builder wrote none.  What it reads there is said by
`PointAt` and `MisreadAt`, and it answers for the pairs of a block exactly when, by accident,
what stands there answers for them (`findsAll_iff`).
-/

namespace SmallKV.SSTParser

/-! ## What the lookup takes for restart points and records -/

/-- A restart point stands at an address: its three numbers; and where it points to, four zero bytes,
the length of a key, four more bytes and the key. -/
structure PointAt (content : Bytes) (p : ℤ) (rp : RestartPoint) : Prop where
  recordNum : IntAt content p rp.recordNum
  size : IntAt content (p + 4) rp.rpOffset.size
  offset : IntAt content (p + 8) rp.rpOffset.offset
  positive : 0 < rp.recordNum
  shared : IntAt content rp.rpOffset.offset 0
  unshared : IntAt content (rp.rpOffset.offset + 4) rp.fullkey.length
  nonempty : rp.fullkey ≠ []
  fullkey : At content (rp.rpOffset.offset + 12) rp.fullkey

/-- A record as `parse_record` takes it: the length of its key, eight bytes that are not looked at,
the key, and a value of the same length. -/
structure MisreadAt (content : Bytes) (p : ℤ) (unsharedKey value : Bytes) : Prop where
  length : IntAt content p unsharedKey.length
  same : value.length = unsharedKey.length
  key : At content (p + 12) unsharedKey
  value : At content (p + 12 + unsharedKey.length) value

/-- Where the record behind such a record is looked for. -/
def nextRecord (p : ℤ) (unsharedKey value : Bytes) : ℤ :=
  p + toInt32 (12 + unsharedKey.length + value.length)

/-- Of `n` such records from `p` on, the first whose key is `key` behind the full key of the group,
read as a C string, has the value `value`; `stop` is the address behind it.  Without one the value is
empty. -/
inductive Finds (content key fullkey : Bytes) : ℕ → ℤ → Bytes → ℤ → Prop
  | none (p : ℤ) : Finds content key fullkey 0 p [] p
  | found {n : ℕ} {p : ℤ} {unsharedKey value : Bytes} (h : MisreadAt content p unsharedKey value)
      (hkey : fullkey.takeWhile (· ≠ 0) ++ unsharedKey = key) :
      Finds content key fullkey (n + 1) p value (nextRecord p unsharedKey value)
  | next {n : ℕ} {p : ℤ} {unsharedKey value found : Bytes} {stop : ℤ}
      (h : MisreadAt content p unsharedKey value)
      (hkey : fullkey.takeWhile (· ≠ 0) ++ unsharedKey ≠ key)
      (hrest : Finds content key fullkey n (nextRecord p unsharedKey value) found stop) :
      Finds content key fullkey (n + 1) p found stop

/-- What the group of a restart point answers for a key. -/
def Answers (content key : Bytes) (rp : RestartPoint) (answer : Option Bytes) : Prop :=
  ∃ value stop, Finds content key rp.fullkey rp.recordNum.toNat rp.rpOffset.offset value stop ∧
    stop ≤ rp.rpOffset.offset + rp.rpOffset.size ∧
    answer = if value.isEmpty then none else some value

/-- A table of restart points stands at an address. -/
def TableAt (content : Bytes) (p : ℤ) (table : List RestartPoint) : Prop :=
  ∀ (i : ℕ) (rp : RestartPoint), table[i]? = some rp → PointAt content (p + i * 12) rp

/-- A table of restart points that stands at an address answers for every key: the point asked is the
last one before the first whose full key is greater. -/
structure TableAnswers (content : Bytes) (p : ℤ) (table : List RestartPoint)
    (answer : Bytes → Option Bytes) : Prop where
  points : TableAt content p table
  answers : ∀ key, match (table.takeWhile fun rp => ¬ key < rp.fullkey).getLast? with
    | none => answer key = none
    | some rp => Answers content key rp (answer key)

variable {content : Bytes}

/-- **`parse_record` takes all three lengths from the first field.** -/
theorem parseRecord_eq_ok {p : ℤ} {r : ℤ × ℤ × Bytes × Bytes} :
    parseRecord content (.content p) = .ok r ↔ ∃ unsharedKey value,
      MisreadAt content p unsharedKey value ∧
        r = (toInt32 (12 + unsharedKey.length + value.length), (unsharedKey.length : ℤ), unsharedKey,
          value) := by
  constructor
  · intro h
    obtain ⟨n, hn, h⟩ := bind_eq_ok.mp h
    obtain ⟨n₁, hn₁, h⟩ := bind_eq_ok.mp h
    obtain ⟨n₂, hn₂, h⟩ := bind_eq_ok.mp h
    obtain ⟨unsharedKey, hkey, h⟩ := bind_eq_ok.mp h
    obtain ⟨value, hvalue, h⟩ := bind_eq_ok.mp h
    obtain rfl := Except.ok.inj (hn.symm.trans hn₁)
    obtain rfl := Except.ok.inj (hn.symm.trans hn₂)
    obtain ⟨hlen, hkeyAt⟩ := stringAt_eq_ok.mp hkey
    obtain ⟨hsame, hvalueAt⟩ := stringAt_eq_ok.mp hvalue
    have hlength := loadInt32_eq_ok.mp hn
    obtain rfl := Except.ok.inj h
    rw [hlen] at hlength hsame hvalueAt
    refine ⟨unsharedKey, value, ⟨hlength, by omega, hkeyAt, ?_⟩, by rw [← hsame, hlen]⟩
    rwa [← add_assoc] at hvalueAt
  · rintro ⟨unsharedKey, value, ⟨hlength, hsame, hkey, hvalue⟩, rfl⟩
    have hload := loadInt32_eq_ok.mpr hlength
    have hkeyLoad := stringAt_eq_ok.mpr ⟨rfl, hkey⟩
    have hvalueLoad : stringAt content (.content (p + (12 + unsharedKey.length)))
        unsharedKey.length = .ok value :=
      stringAt_eq_ok.mpr ⟨by rw [hsame], by rwa [← add_assoc]⟩
    simp only [parseRecord, hload, ok_bind, Ptr.add, hkeyLoad, hvalueLoad, pure_eq_ok, hsame]

/-- **The loop over the records of a group finds what stands there.** -/
theorem findRecord_eq_ok {key fullkey : Bytes} : ∀ {n : ℕ} {p : ℤ} {value : Bytes} {q : Ptr},
    findRecord content key fullkey n (.content p) = .ok (value, q) ↔
      ∃ stop, Finds content key fullkey n p value stop ∧ q = .content stop
  | 0, p, value, q => by
      rw [findRecord, Except.ok.injEq, Prod.mk.injEq]
      constructor
      · rintro ⟨rfl, rfl⟩
        exact ⟨p, .none p, rfl⟩
      · rintro ⟨stop, hfinds, hstop⟩
        cases hfinds
        exact ⟨rfl, hstop.symm⟩
  | n + 1, p, value, q => by
      rw [findRecord]
      constructor
      · intro h
        obtain ⟨record, hrecord, h⟩ := bind_eq_ok.mp h
        obtain ⟨unsharedKey, found, hat, rfl⟩ := parseRecord_eq_ok.mp hrecord
        dsimp only at h
        split_ifs at h with hkey
        · obtain ⟨rfl, rfl⟩ := Prod.mk.inj (Except.ok.inj h)
          exact ⟨_, .found hat hkey, rfl⟩
        · obtain ⟨stop, hfinds, hstop⟩ := findRecord_eq_ok.mp h
          exact ⟨stop, .next hat hkey hfinds, hstop⟩
      · rintro ⟨stop, hfinds, rfl⟩
        cases hfinds with
        | found hat hkey =>
          rw [parseRecord_eq_ok.mpr ⟨_, _, hat, rfl⟩, ok_bind]
          dsimp only
          rw [if_pos hkey]
          rfl
        | next hat hkey hrest =>
          rw [parseRecord_eq_ok.mpr ⟨_, _, hat, rfl⟩, ok_bind]
          dsimp only
          rw [if_neg hkey]
          exact findRecord_eq_ok.mpr ⟨stop, hrest, rfl⟩

/-! ## Restart points -/

/-- What one round of the loop over the restart points reads. -/
theorem findFullKeyByRP_eq_ok {recordNum : ℤ} {o : OffsetInfo} {fullkey : Bytes} :
    findFullKeyByRP content (.content 0) recordNum o = .ok fullkey ↔
      0 < recordNum ∧ IntAt content o.offset 0 ∧
        IntAt content (o.offset + 4) fullkey.length ∧ fullkey ≠ [] ∧
        At content (o.offset + 12) fullkey := by
  simp only [findFullKeyByRP, bind_eq_ok, require_eq_ok, decide_eq_true_eq, Ptr.add, zero_add,
    loadInt32_eq_ok, stringAt_eq_ok]
  constructor
  · rintro ⟨_, hpos, shared, hshared, _, hzero, unshared, hunshared, _, hne, hlen, hat⟩
    rw [hzero] at hshared
    rw [hlen] at hunshared hne
    refine ⟨hpos, hshared, hunshared, ?_, hat⟩
    rintro rfl
    exact absurd hne (by decide)
  · rintro ⟨hpos, hshared, hunshared, hne, hat⟩
    have hlen : 0 < fullkey.length := List.length_pos_iff.mpr hne
    exact ⟨(), hpos, 0, hshared, (), rfl, _, hunshared, (), by omega, rfl, hat⟩

theorem tableAt_cons {p : ℤ} {rp : RestartPoint} {table : List RestartPoint} :
    TableAt content p (rp :: table) ↔ PointAt content p rp ∧ TableAt content (p + 12) table := by
  constructor
  · intro h
    refine ⟨by simpa using h 0 rp rfl, fun i rp' hi => ?_⟩
    have hpoint := h (i + 1) rp' hi
    rwa [Nat.cast_add, Nat.cast_one, add_mul, one_mul, add_comm (_ * _), ← add_assoc] at hpoint
  · rintro ⟨hhead, htail⟩ i rp' hi
    cases i with
    | zero =>
      obtain rfl : rp = rp' := by simpa using hi
      simpa using hhead
    | succ i =>
      have hpoint := htail i rp' hi
      rwa [Nat.cast_add, Nat.cast_one, add_mul, one_mul, add_comm (_ * _), ← add_assoc]

/-- **The loop over the restart points collects a table that stands there**, up to the first point
with a greater full key. -/
theorem findRestartPoints_of_tableAt {key : Bytes} {off : ℤ} : ∀ {table : List RestartPoint} {i : ℤ}
    {rps : List RestartPoint}, TableAt content (off + i * 12) table →
      findRestartPoints content key (.content 0) off table.length i rps =
        .ok (rps ++ table.takeWhile fun rp => ¬ key < rp.fullkey)
  | [], i, rps, _ => by rw [List.length_nil, findRestartPoints, List.takeWhile_nil, List.append_nil]
  | rp :: table, i, rps, h => by
      obtain ⟨hpoint, htable⟩ := tableAt_cons.mp h
      have hnext : off + i * 12 + 12 = off + (i + 1) * 12 := by ring
      rw [hnext] at htable
      have hoffset := loadOffsetInfo_eq_ok.mpr ⟨hpoint.size, by
        rw [add_assoc]
        exact hpoint.offset⟩
      have hfullkey := findFullKeyByRP_eq_ok.mpr ⟨hpoint.positive, hpoint.shared, hpoint.unshared,
        hpoint.nonempty, hpoint.fullkey⟩
      rw [List.length_cons, findRestartPoints]
      simp only [Ptr.add, zero_add, loadInt32_eq_ok.mpr hpoint.recordNum, hoffset, hfullkey, ok_bind]
      by_cases hlt : key < rp.fullkey
      · rw [if_pos hlt, List.takeWhile_cons_of_neg (by simpa using hlt), List.append_nil]
        rfl
      · rw [if_neg hlt, List.takeWhile_cons_of_pos (by simpa using hlt),
          findRestartPoints_of_tableAt htable, List.append_assoc, List.singleton_append]

/-- For a key that is below no full key the loop reads the whole table. -/
theorem tableAt_of_findRestartPoints {key : Bytes} {off : ℤ}
    (hkey : ∀ p rp, PointAt content p rp → ¬ key < rp.fullkey) : ∀ {n : ℕ} {i : ℤ}
    {rps rps' : List RestartPoint},
      findRestartPoints content key (.content 0) off n i rps = .ok rps' →
        ∃ table, table.length = n ∧ TableAt content (off + i * 12) table
  | 0, i, rps, rps', _ => ⟨[], rfl, fun j rp hj => by simp at hj⟩
  | n + 1, i, rps, rps', h => by
      rw [findRestartPoints] at h
      simp only [Ptr.add, zero_add] at h
      obtain ⟨recordNum, hnum, h⟩ := bind_eq_ok.mp h
      obtain ⟨o, ho, h⟩ := bind_eq_ok.mp h
      obtain ⟨fullkey, hfullkey, h⟩ := bind_eq_ok.mp h
      obtain ⟨hsize, hoffset⟩ := loadOffsetInfo_eq_ok.mp ho
      obtain ⟨hpos, hshared, hunshared, hne, hat⟩ := findFullKeyByRP_eq_ok.mp hfullkey
      have hpoint : PointAt content (off + i * 12) ⟨recordNum, o, fullkey⟩ :=
        ⟨loadInt32_eq_ok.mp hnum, hsize, by rwa [add_assoc] at hoffset, hpos, hshared, hunshared,
          hne, hat⟩
      rw [if_neg (hkey _ _ hpoint)] at h
      obtain ⟨table, hlen, htable⟩ := tableAt_of_findRestartPoints hkey h
      have hnext : off + (i + 1) * 12 = off + i * 12 + 12 := by ring
      rw [hnext] at htable
      exact ⟨_ :: table, congrArg Nat.succ hlen, tableAt_cons.mpr ⟨hpoint, htable⟩⟩

/-- No string is greater than `0xFF`s that are no fewer. -/
theorem not_replicate_lt : ∀ {n : ℕ} {bs : Bytes}, bs.length ≤ n → ¬ List.replicate n 255 < bs
  | _, [], _ => List.not_lt_nil _
  | 0, b :: bs, h => absurd h (Nat.not_succ_le_zero _)
  | n + 1, b :: bs, h => by
      have hmax : ¬ (255 : UInt8) < b := by
        have hlt := b.toNat_lt
        rw [UInt8.lt_iff_toNat_lt]
        exact Nat.not_lt.mpr (Nat.le_of_lt_succ hlt)
      rw [List.replicate_succ, List.cons_lt_cons_iff]
      rintro (hlt | ⟨-, hlt⟩)
      · exact hmax hlt
      · exact not_replicate_lt (Nat.le_of_succ_le_succ h) hlt

/-! ## The lookup -/

theorem loadOffsetInfo_at_trailer {stop : ℤ} {o : OffsetInfo} (hsize : IntAt content (stop - 8) o.size)
    (hoffset : IntAt content (stop - 4) o.offset) :
    loadOffsetInfo content (.content (stop - 8)) = .ok o := by
  refine loadOffsetInfo_eq_ok.mpr ⟨hsize, ?_⟩
  rwa [show stop - 8 + 4 = stop - 4 by ring]

/-- **What `FindKeyInDB` answers** when a table of restart points stands where it looks for one. -/
theorem findKeyInDB_eq_ok {key : Bytes} {stop : ℤ} {num : ℤ} {o : OffsetInfo}
    {table : List RestartPoint} {a : Option Bytes} (hnum : IntAt content (stop - 12) num)
    (hsize : IntAt content (stop - 8) o.size) (hoffset : IntAt content (stop - 4) o.offset)
    (hlen : table.length = num.toNat) (htable : TableAt content o.offset table) :
    findKeyInDB content key (.content 0) (.content stop) = .ok a ↔
      match (table.takeWhile fun rp => ¬ key < rp.fullkey).getLast? with
      | none => a = none
      | some rp => Answers content key rp a := by
  have hloadNum := loadInt32_eq_ok.mpr hnum
  have hloadOffset := loadOffsetInfo_at_trailer hsize hoffset
  have hpoints : findRestartPoints content key (.content 0) o.offset table.length 0 [] =
      .ok ([] ++ table.takeWhile fun rp => ¬ key < rp.fullkey) :=
    findRestartPoints_of_tableAt (by simpa using htable)
  rw [List.nil_append, hlen] at hpoints
  simp only [findKeyInDB, Ptr.add, ← sub_eq_add_neg, hloadNum, hloadOffset, ok_bind, hpoints]
  cases hlast : (table.takeWhile fun rp => ¬ key < rp.fullkey).getLast? with
  | none => simp [eq_comm]
  | some rp =>
    have hmem := List.mem_of_getLast? hlast
    have hle : rp.fullkey ≤ key := by
      have hnot := List.mem_takeWhile_imp hmem
      simpa using hnot
    simp only [hle, decide_true, require_true, ok_bind, zero_add]
    constructor
    · intro h
      obtain ⟨⟨value, q⟩, hfind, h⟩ := bind_eq_ok.mp h
      obtain ⟨rgStop, hfinds, rfl⟩ := findRecord_eq_ok.mp hfind
      obtain ⟨_, hstop, h⟩ := bind_eq_ok.mp h
      refine ⟨value, rgStop, hfinds, by simpa [Ptr.le] using hstop, ?_⟩
      split_ifs at h ⊢ <;> exact (Except.ok.inj h).symm
    · rintro ⟨value, rgStop, hfinds, hstop, rfl⟩
      rw [findRecord_eq_ok.mpr ⟨rgStop, hfinds, rfl⟩, ok_bind]
      have hle' : (Ptr.content rgStop).le (.content (rp.rpOffset.offset + rp.rpOffset.size)) = true :=
        decide_eq_true hstop
      dsimp only
      rw [hle', require_true, ok_bind]
      split_ifs <;> rfl

/-- A lookup that answers for a key above all full keys has read a whole table. -/
theorem exists_table_of_findKeyInDB {stop : ℤ} {num : ℤ} {o : OffsetInfo} {a : Option Bytes}
    (hnum : IntAt content (stop - 12) num) (hsize : IntAt content (stop - 8) o.size)
    (hoffset : IntAt content (stop - 4) o.offset)
    (h : findKeyInDB content (List.replicate (content.length + 1) 255) (.content 0)
      (.content stop) = .ok a) :
    ∃ table, table.length = num.toNat ∧ TableAt content o.offset table := by
  have hhuge : ∀ p rp, PointAt content p rp →
      ¬ List.replicate (content.length + 1) 255 < rp.fullkey := fun p rp hrp =>
    not_replicate_lt hrp.fullkey.length_le
  have hloadNum := loadInt32_eq_ok.mpr hnum
  have hloadOffset := loadOffsetInfo_at_trailer hsize hoffset
  simp only [findKeyInDB, Ptr.add, ← sub_eq_add_neg, hloadNum, hloadOffset, ok_bind] at h
  obtain ⟨rps, hpoints, -⟩ := bind_eq_ok.mp h
  obtain ⟨table, hlen, htable⟩ := tableAt_of_findRestartPoints hhuge hpoints
  rw [zero_mul, add_zero] at htable
  exact ⟨table, hlen, htable⟩

/-! ## What stands in a block -/

variable {pairs : List (Bytes × Bytes)}

/-- An `int32_t` of the restart table stands in the block behind the records. -/
theorem intAt_blockBytes (hne : pairs ≠ []) (hkeys : ∀ p ∈ pairs, p.1 ≠ []) (off : ℕ)
    (hoff : off + 4 ≤ 12 * groupNum pairs + 4) :
    IntAt (blockBytes pairs) ((blockBytes pairs).length - (12 * groupNum pairs + 4 - off : ℕ))
      (int32At (restartTable pairs) off) := by
  have hblock := blockBytes_eq hne hkeys
  have hlen : (blockBytes pairs).length = (recordBytes pairs).length + (12 * groupNum pairs + 4) := by
    rw [hblock, List.length_append, length_restartTable]
  have hsame : int32At (blockBytes pairs) ((recordBytes pairs).length + off) =
      int32At (restartTable pairs) off := by
    rw [hblock, int32At, int32At, fixed32At, fixed32At, ← List.drop_drop, List.drop_left' rfl]
  have hat : IntAt (blockBytes pairs) ((recordBytes pairs).length + off : ℕ) _ :=
    intAt_int32At (by omega)
  rw [hsame] at hat
  rwa [hlen, ← Nat.cast_sub (by omega), show (recordBytes pairs).length + (12 * groupNum pairs + 4) -
    (12 * groupNum pairs + 4 - off) = (recordBytes pairs).length + off by omega]

/-- The number of bytes of the last group, as an `int`. -/
def lastGroupSize (pairs : List (Bytes × Bytes)) : ℤ :=
  toInt32 (groupStart pairs (groupNum pairs) - groupStart pairs (groupNum pairs - 1))

theorem lastGroupSize_singleton (p : Bytes × Bytes) :
    lastGroupSize [p] = toInt32 (12 + p.1.length + p.2.length : ℕ) := by
  have hstart : groupStart [p] 0 = 0 := rfl
  have hend := groupStart_groupNum [p]
  rw [groupNum_singleton] at hend
  rw [lastGroupSize, groupNum_singleton, hend, Nat.sub_self, hstart, length_recordBytes_singleton,
    Nat.cast_zero, sub_zero]

/-- **`FindKeyInDB` on a block** takes the size of the last group for the number of restart points,
and the number of groups for their offset. -/
theorem exists_trailer (hne : pairs ≠ []) (hkeys : ∀ p ∈ pairs, p.1 ≠ []) : ∃ size,
    IntAt (blockBytes pairs) ((blockBytes pairs).length - 12) (lastGroupSize pairs) ∧
      IntAt (blockBytes pairs) ((blockBytes pairs).length - 8) size ∧
      IntAt (blockBytes pairs) ((blockBytes pairs).length - 4) (toInt32 (groupNum pairs)) := by
  have hpos : 0 < pairs.length := List.length_pos_iff.mpr hne
  obtain ⟨m, hm⟩ := Nat.exists_eq_succ_of_ne_zero (show groupNum pairs ≠ 0 by
    rw [groupNum]
    omega)
  rw [Nat.succ_eq_add_one] at hm
  have hlast : restartAt (restartTable pairs) m = _ := restartAt_restartTable (by omega)
  have hsize : int32At (restartTable pairs) (12 * m + 4) = lastGroupSize pairs := by
    rw [lastGroupSize, hm, Nat.add_sub_cancel]
    exact congrArg (fun e => e.2.size) hlast
  have hnumAt := intAt_blockBytes hne hkeys (12 * m + 4) (by omega)
  have hsizeAt := intAt_blockBytes hne hkeys (12 * m + 8) (by omega)
  have hoffsetAt := intAt_blockBytes hne hkeys (12 * groupNum pairs) (by omega)
  rw [hsize, show 12 * groupNum pairs + 4 - (12 * m + 4) = 12 by omega] at hnumAt
  rw [show 12 * groupNum pairs + 4 - (12 * m + 8) = 8 by omega] at hsizeAt
  rw [int32At_restartTable, show 12 * groupNum pairs + 4 - 12 * groupNum pairs = 4 by omega]
    at hoffsetAt
  exact ⟨_, hnumAt, hsizeAt, hoffsetAt⟩

/-- `FindKeyInDB` on a block answers every key rightly. -/
def FindsAll (pairs : List (Bytes × Bytes)) : Prop :=
  ∀ key, findKeyInDB (blockBytes pairs) key (.content 0) (.content (blockBytes pairs).length) =
    .ok (answer pairs key)

/-- A table lies inside the contents. -/
theorem TableAt.fits {p : ℤ} {table : List RestartPoint} (h : TableAt content p table)
    (hne : table ≠ []) : p + 12 * table.length ≤ content.length + 1 := by
  obtain ⟨init, rp, rfl⟩ := (List.eq_nil_or_concat table).resolve_left hne
  obtain ⟨bs, hbs, -, before, after, heq, hbefore⟩ := (h init.length rp (by simp)).offset
  have hlen := congrArg List.length heq
  simp only [List.length_append, List.length_singleton] at hlen
  rw [List.concat_eq_append, List.length_append, List.length_singleton]
  omega

/-- **The lookup in a block is right only by accident**: exactly when as many restart points as the
last group has bytes happen to stand behind as many bytes of the block as it has groups, and what
they and the misread records behind them spell answers for the pairs. -/
theorem findsAll_iff (hne : pairs ≠ []) (hkeys : ∀ p ∈ pairs, p.1 ≠ []) :
    FindsAll pairs ↔ ∃ table, table.length = (lastGroupSize pairs).toNat ∧
      TableAnswers (blockBytes pairs) (toInt32 (groupNum pairs)) table (answer pairs) := by
  obtain ⟨size, hnum, hsize, hoffset⟩ := exists_trailer hne hkeys
  constructor
  · intro h
    obtain ⟨table, hlen, htable⟩ :=
      exists_table_of_findKeyInDB (o := ⟨size, toInt32 (groupNum pairs)⟩) hnum hsize hoffset (h _)
    exact ⟨table, hlen, htable, fun key =>
      (findKeyInDB_eq_ok (o := ⟨size, toInt32 (groupNum pairs)⟩) hnum hsize hoffset hlen
        htable).mp (h key)⟩
  · rintro ⟨table, hlen, htable, hanswers⟩ key
    exact (findKeyInDB_eq_ok (o := ⟨size, toInt32 (groupNum pairs)⟩) hnum hsize hoffset hlen
      htable).mpr (hanswers key)

/-- The block of two small pairs is not looked up rightly: no table of as many points as its last
group has bytes fits into it.  A block whose last group is too long for an `int` is: no restart point
is read at all. -/
theorem findsAll_iff_both : ¬ FindsAll [([107], [97]), ([108], [98])] ∧
    ∃ key : Bytes, key.length = 2 ^ 31 ∧ FindsAll [(key, [])] := by
  constructor
  · rw [findsAll_iff (by decide) (by decide)]
    rintro ⟨table, hlen, htable⟩
    have hsize : lastGroupSize [([107], [97]), ([108], [98])] = 28 := by decide
    rw [hsize] at hlen
    have hfits := htable.points.fits (List.ne_nil_of_length_pos (by omega))
    rw [hlen] at hfits
    exact absurd hfits (by decide)
  · obtain ⟨key, hlen⟩ : ∃ key : Bytes, key.length = 2 ^ 31 :=
      ⟨List.replicate (2 ^ 31) 107, List.length_replicate⟩
    have hkey : key ≠ [] := List.length_pos_iff.mp (by rw [hlen]; norm_num)
    have hsize : lastGroupSize [(key, ([] : Bytes))] = toInt32 (12 + 2 ^ 31 : ℕ) := by
      simp only [lastGroupSize_singleton, hlen, List.length_nil, Nat.add_zero]
    refine ⟨key, hlen, (findsAll_iff (by simp) (by simpa using hkey)).mpr ⟨[], ?_, ?_, fun k => ?_⟩⟩
    · rw [hsize]
      decide
    · intro i rp hi
      simp at hi
    · change answer [(key, [])] k = none
      rw [answer, List.lookup_cons]
      cases k == key <;> rfl

/-- Every block is looked up rightly. -/
def BlocksFindAll : Prop :=
  ∀ pairs : List (Bytes × Bytes), pairs ≠ [] → (∀ p ∈ pairs, p.1 ≠ []) →
    pairs.Pairwise (fun p q => p.1 < q.1) → FindsAll pairs

/-- **No block of at most sixteen pairs** below `2 ^ 31` bytes is looked up rightly: it is too short
for such a table. -/
theorem not_findsAll_of_length_le (hne : pairs ≠ []) (hkeys : ∀ p ∈ pairs, p.1 ≠ [])
    (hfew : pairs.length ≤ 16) (hsmall : (recordBytes pairs).length < 2 ^ 31) : ¬ FindsAll pairs := by
  intro h
  obtain ⟨size, hnum, hsize, hoffset⟩ := exists_trailer hne hkeys
  obtain ⟨table, hlen, htable⟩ :=
    exists_table_of_findKeyInDB (o := ⟨size, toInt32 (groupNum pairs)⟩) hnum hsize hoffset (h _)
  have hpos : 0 < pairs.length := List.length_pos_iff.mpr hne
  have hgroups : groupNum pairs = 1 := by
    rw [groupNum]
    omega
  have hlast : lastGroupSize pairs = (recordBytes pairs).length := by
    have hend := groupStart_groupNum pairs
    rw [hgroups] at hend
    have hzero : groupStart pairs 0 = 0 := rfl
    rw [lastGroupSize, hgroups, hend, Nat.sub_self, hzero, Nat.cast_zero, sub_zero,
      toInt32_of_lt hsmall]
  have hlong : 12 ≤ (recordBytes pairs).length := by
    obtain ⟨pair, ps, rfl⟩ := List.exists_cons_of_ne_nil hne
    have hfirst := length_recordBytes_cons pair ps
    omega
  rw [hlast, Int.toNat_natCast] at hlen
  have hfits := htable.fits (by
    rintro rfl
    rw [List.length_nil] at hlen
    omega)
  have hone : toInt32 ((1 : ℕ) : ℤ) = 1 := rfl
  rw [blockBytes_eq hne hkeys, List.length_append, length_restartTable, hlen, hgroups] at hfits
  dsimp only at hfits
  rw [hone] at hfits
  omega

/-- **A block of one pair is not looked up rightly.** -/
theorem not_blocksFindAll : ¬ BlocksFindAll := by
  intro h
  have hno : ¬ FindsAll [([107], [97])] :=
    not_findsAll_of_length_le (by decide) (by decide) (by decide) (by decide)
  exact hno (h _ (by decide) (by decide) (by decide))

end SmallKV.SSTParser

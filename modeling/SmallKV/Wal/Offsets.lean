import SmallKV.Wal.WalReader

/-!
# Wal/Offsets — how far into a log the reader gets

`ReadLog` counts its offset in a `size_t`, and `FileReader::read` takes it as an `int32_t`.  Below
`2 ^ 31` that is the same number; from there on it is a negative one, the read fails, and the offset
moves no further (`readLog_stuck`).  And a payload of more bytes than one `pread` transfers is never
read, so that the reader stays behind its header.  The calls therefore return the records of an uncut
log as long as these are `Readable`, and no further (`readsRecord_iff`).
-/

namespace SmallKV.WALReader

open FileReader (maxRwCount)

variable (crc : Bytes → UInt32)

/-! ## Positions -/

/-- Where the `i`-th record of a log begins. -/
def start (payloads : List Bytes) (i : ℕ) : ℕ :=
  ((payloads.take i).map fun p => kHeaderSize + p.length).sum

/-- Where `ReadLog` reads the header: its offset, as `read` takes it. -/
def headerPos (r : WALReader) : ℤ := toInt32 r.offset

/-- Where `ReadLog` then reads the payload. -/
def payloadPos (r : WALReader) : ℤ := toInt32 (toUInt64 (r.offset + kHeaderSize))

/-- A reader in front of the `i`-th record of a log. -/
def atRecord (payloads : List Bytes) (i : ℕ) : WALReader :=
  openAt maxRwCount (payloads.flatMap (WALWriter.record crc)) (start payloads i)

/-- The string and the reader after `i` calls of `ReadLog` on a file. -/
def after (file log : Bytes) (i : ℕ) : Bytes × WALReader :=
  (readLogs crc i (openAt maxRwCount file 0) log).2

/-- **The `i`-th call reads the `i`-th record**: header and payload where they are, and the payload is
what it returns. -/
structure ReadsRecord (payloads : List Bytes) (file log : Bytes) (i : ℕ) : Prop where
  header : headerPos (after crc file log i).2 = start payloads i
  payload : payloadPos (after crc file log i).2 = start payloads i + kHeaderSize
  status : ((after crc file log i).2.readLog crc (after crc file log i).1).1 = .success
  result : payloads[i]? = some ((after crc file log i).2.readLog crc (after crc file log i).1).2.1

/-- A record that can be read: its payload begins below `2 ^ 31`, and one `pread` transfers it. -/
def Readable (payloads : List Bytes) (i : ℕ) : Prop :=
  start payloads i + kHeaderSize < 2 ^ 31 ∧ ∀ p ∈ payloads[i]?, p.length ≤ maxRwCount

variable {payloads : List Bytes} {i : ℕ}

@[simp] theorem offset_atRecord (payloads : List Bytes) (i : ℕ) :
    (atRecord crc payloads i).offset = start payloads i := rfl

theorem readable_iff (hi : i < payloads.length) : Readable payloads i ↔
    start payloads i + kHeaderSize < 2 ^ 31 ∧ payloads[i].length ≤ maxRwCount := by
  simp [Readable, List.getElem?_eq_getElem hi]

theorem kHeaderSize_le : kHeaderSize ≤ maxRwCount := by decide

theorem start_zero (payloads : List Bytes) : start payloads 0 = 0 := rfl

theorem start_succ (hi : i < payloads.length) :
    start payloads (i + 1) = start payloads i + (kHeaderSize + payloads[i].length) := by
  rw [start, start, List.take_succ_eq_append_getElem hi, List.map_append, List.sum_append]
  simp

/-- **The log is cut at the beginning of any record.** -/
theorem exists_record_at (hi : i < payloads.length) :
    ∃ pre rest, payloads.flatMap (WALWriter.record crc) =
      pre ++ (WALWriter.record crc payloads[i] ++ rest) ∧ pre.length = start payloads i := by
  refine ⟨(payloads.take i).flatMap (WALWriter.record crc),
    (payloads.drop (i + 1)).flatMap (WALWriter.record crc), ?_, ?_⟩
  · rw [← List.flatMap_cons, List.getElem_cons_drop, ← List.flatMap_append, List.take_append_drop]
  · rw [List.length_flatMap, start]
    simp only [WALWriter.length_record]

/-! ## One call -/

/-- The offset is a negative one to `read`. -/
def Stuck (r : WALReader) : Prop := 2 ^ 31 ≤ r.offset ∧ r.offset < 2 ^ 32

theorem toInt32_neg {n : ℕ} (hlow : 2 ^ 31 ≤ n) (hhigh : n < 2 ^ 32) : toInt32 n < 0 := by
  rw [toInt32]
  omega

/-- **A reader at a negative offset stays there.** -/
theorem readLog_stuck {r : WALReader} (h : Stuck r) (log : Bytes) :
    r.readLog crc log = (.execFailed, log, r) := by
  have hread : r.readableFile.read (List.replicate kHeaderSize 0) kHeaderSize (toInt32 r.offset) =
      (.execFailed, List.replicate kHeaderSize 0) :=
    FileReader.read_of_offset_neg _ (by decide) (toInt32_neg h.1 h.2)
  simp only [readLog, hread, ne_eq, reduceCtorEq, not_false_eq_true, if_true]

/-- A header at the last offsets below `2 ^ 31` is read, its payload is not. -/
theorem readLog_edge {pre p rest : Bytes} (hpre : pre.length < 2 ^ 31)
    (hedge : 2 ^ 31 ≤ pre.length + kHeaderSize) (hp : p.length < 2 ^ 31) (log : Bytes) :
    ∃ log', readLog crc (openAt maxRwCount (pre ++ (WALWriter.record crc p ++ rest)) pre.length) log =
      (.corruption, log', openAt maxRwCount (pre ++ (WALWriter.record crc p ++ rest))
        (pre.length + kHeaderSize)) := by
  have hneg := toInt32_neg hedge (by simp only [kHeaderSize]; omega)
  rw [WALWriter.record, List.append_assoc, readLog_header crc kHeaderSize_le hpre (by omega),
    readPayload, openAt, FileReader.read_of_offset_neg _ (by rw [toInt32_of_lt hp]; omega) hneg]
  exact ⟨resize log p.length, rfl⟩

/-! ## A run of calls -/

/-- The last of some calls, apart from those before it. -/
theorem readLogs_succ : ∀ (k : ℕ) (r : WALReader) (log : Bytes),
    (readLogs crc (k + 1) r log).2 =
      ((readLogs crc k r log).2.2.readLog crc (readLogs crc k r log).2.1).2
  | 0, r, log => by simp only [readLogs]
  | k + 1, r, log => by
      rw [readLogs, readLogs_succ k]
      simp only [readLogs]

/-- Where a reader can be after `i` calls on the log of the payloads: in front of the `i`-th record,
or stuck before it. -/
def Reached (payloads : List Bytes) (i : ℕ) (r : WALReader) : Prop :=
  (r = atRecord crc payloads i ∧ start payloads i < 2 ^ 32) ∨
    (Stuck r ∧ 2 ^ 31 ≤ start payloads i + kHeaderSize)

/-- In front of a record that can be read, a call returns it. -/
theorem readLog_at (hi : i < payloads.length) (hread : Readable payloads i) (log : Bytes) :
    readLog crc (atRecord crc payloads i) log =
      (.success, payloads[i], atRecord crc payloads (i + 1)) := by
  obtain ⟨hstart, hp⟩ := (readable_iff hi).mp hread
  obtain ⟨pre, rest, hlog, hpre⟩ := exists_record_at crc hi
  rw [atRecord, atRecord, start_succ hi, hlog, ← hpre, ← WALWriter.length_record crc,
    ← List.length_append]
  have hmax : maxRwCount < 2 ^ 31 := by decide
  exact readLog_whole crc kHeaderSize_le (by rwa [hpre]) (by omega) hp

/-- In front of a record whose payload begins later, a call fails and the reader gets stuck. -/
theorem readLog_beyond (hi : i < payloads.length) (hp : payloads[i].length < 2 ^ 31)
    (hstart : 2 ^ 31 ≤ start payloads i + kHeaderSize) (hlt : start payloads i < 2 ^ 32)
    (log : Bytes) :
    (readLog crc (atRecord crc payloads i) log).1 ≠ .success ∧
      Stuck (readLog crc (atRecord crc payloads i) log).2.2 := by
  by_cases hlow : 2 ^ 31 ≤ start payloads i
  · have hstuck : Stuck (atRecord crc payloads i) := ⟨hlow, hlt⟩
    rw [readLog_stuck crc hstuck]
    exact ⟨by simp, hstuck⟩
  · obtain ⟨pre, rest, hcut, hpre⟩ := exists_record_at crc hi
    obtain ⟨log', hread⟩ := readLog_edge crc (show pre.length < 2 ^ 31 by omega) (by omega) hp log
    rw [atRecord, hcut, ← hpre, hread]
    refine ⟨by simp, hpre ▸ hstart, ?_⟩
    show pre.length + kHeaderSize < 2 ^ 32
    simp only [kHeaderSize]
    omega

/-- In front of a record whose payload is more than `pread` transfers, a call fails. -/
theorem readLog_long (hi : i < payloads.length) (hp : payloads[i].length < 2 ^ 31)
    (hstart : start payloads i + kHeaderSize < 2 ^ 31) (hlong : maxRwCount < payloads[i].length)
    (log : Bytes) :
    (readLog crc (atRecord crc payloads i) log).1 ≠ .success := by
  obtain ⟨pre, rest, hcut, hpre⟩ := exists_record_at crc hi
  rw [← hpre] at hstart
  obtain ⟨log', hrun⟩ := readPayload_of_lt crc maxRwCount log (crc payloads[i]).toNat hstart
    (Or.inr hlong) (by omega) (show payloads[i].length < hugeLength by rw [hugeLength]; omega)
  rw [atRecord, hcut, ← hpre, WALWriter.record, List.append_assoc,
    readLog_header crc kHeaderSize_le (by omega) (by omega), hrun]
  simp

/-- **Where a run of calls gets**, if one `pread` transfers each of the payloads before. -/
theorem reached_after (hsmall : ∀ p ∈ payloads, p.length < 2 ^ 31) (log : Bytes) :
    ∀ i ≤ payloads.length, (∀ p ∈ payloads.take i, p.length ≤ maxRwCount) →
      Reached crc payloads i (after crc (payloads.flatMap (WALWriter.record crc)) log i).2 := by
  intro i
  induction i with
  | zero => exact fun _ _ => Or.inl ⟨rfl, by rw [start_zero]; decide⟩
  | succ i ih =>
    intro hi hshort
    have hp := hsmall _ (List.getElem_mem hi)
    have hnext := start_succ hi
    rw [List.take_succ_eq_append_getElem hi] at hshort
    have hone := hshort payloads[i] (List.mem_append_right _ (List.mem_singleton_self _))
    rw [after, readLogs_succ]
    rcases ih (Nat.le_of_succ_le hi) fun p hp => hshort p (List.mem_append_left _ hp) with
      ⟨hr, hlt⟩ | ⟨hstuck, hbeyond⟩
    · rw [after] at hr
      rw [hr]
      by_cases hstart : start payloads i + kHeaderSize < 2 ^ 31
      · rw [readLog_at crc hi ((readable_iff hi).mpr ⟨hstart, hone⟩)]
        exact Or.inl ⟨rfl, by omega⟩
      · have hedge := (readLog_beyond crc hi hp (not_lt.mp hstart) hlt
          (readLogs crc i (openAt maxRwCount (payloads.flatMap (WALWriter.record crc)) 0) log).2.1).2
        exact Or.inr ⟨hedge, by omega⟩
    · rw [after] at hstuck
      rw [readLog_stuck crc hstuck]
      exact Or.inr ⟨hstuck, by omega⟩

/-! ## Which records are read -/

theorem headerPos_lt (r : WALReader) : headerPos r < 2 ^ 31 := by
  rw [headerPos, toInt32]
  omega

section Log

variable (hsmall : ∀ p ∈ payloads, p.length < 2 ^ 31) (hi : i < payloads.length)
  (hshort : ∀ p ∈ payloads.take i, p.length ≤ maxRwCount) (log : Bytes)
include hsmall hi hshort

/-- A record that can be read is read. -/
theorem readsRecord_of_readable (hread : Readable payloads i) :
    ReadsRecord crc payloads (payloads.flatMap (WALWriter.record crc)) log i := by
  have hstart := hread.1
  have hr : (after crc (payloads.flatMap (WALWriter.record crc)) log i).2 =
      atRecord crc payloads i := by
    rcases reached_after crc hsmall log i hi.le hshort with ⟨hr, -⟩ | ⟨-, hbeyond⟩
    · exact hr
    · exact absurd hstart (not_lt.mpr hbeyond)
  have hcall := readLog_at crc hi hread
    (after crc (payloads.flatMap (WALWriter.record crc)) log i).1
  refine ⟨?_, ?_, ?_, ?_⟩
  · rw [hr, headerPos, offset_atRecord, toInt32_of_lt (by omega)]
  · rw [hr, payloadPos, offset_atRecord, ← Nat.cast_add, toUInt64_of_lt (by omega),
      toInt32_of_lt hstart]
  · rw [hr, hcall]
  · rw [hr, hcall, List.getElem?_eq_getElem hi]

/-- A record that cannot be read is not returned. -/
theorem readLog_ne_success (hread : ¬ Readable payloads i) :
    ((after crc (payloads.flatMap (WALWriter.record crc)) log i).2.readLog crc
      (after crc (payloads.flatMap (WALWriter.record crc)) log i).1).1 ≠ .success := by
  have hp := hsmall _ (List.getElem_mem hi)
  rcases reached_after crc hsmall log i hi.le hshort with ⟨hr, hlt⟩ | ⟨hstuck, -⟩
  · rw [hr]
    by_cases hstart : start payloads i + kHeaderSize < 2 ^ 31
    · have hlong : maxRwCount < payloads[i].length :=
        not_le.mp fun hle => hread ((readable_iff hi).mpr ⟨hstart, hle⟩)
      exact readLog_long crc hi hp hstart hlong _
    · exact (readLog_beyond crc hi hp (not_lt.mp hstart) hlt _).1
  · rw [readLog_stuck crc hstuck]
    simp

/-- **The next record is read, and returned at all, exactly when it can be.** -/
theorem readsRecord_iff_readable :
    (ReadsRecord crc payloads (payloads.flatMap (WALWriter.record crc)) log i ↔
        Readable payloads i) ∧
      (((after crc (payloads.flatMap (WALWriter.record crc)) log i).2.readLog crc
          (after crc (payloads.flatMap (WALWriter.record crc)) log i).1).1 = .success ↔
        Readable payloads i) := by
  by_cases hread : Readable payloads i
  · have hrecord := readsRecord_of_readable crc hsmall hi hshort log hread
    exact ⟨iff_of_true hrecord hread, iff_of_true hrecord.status hread⟩
  · have hstatus := readLog_ne_success crc hsmall hi hshort log hread
    exact ⟨iff_of_false (fun h => hstatus h.status) hread, iff_of_false hstatus hread⟩

end Log

/-- One `pread` transfers each payload that can be read. -/
theorem short_of_readable {k : ℕ} (hk : k ≤ payloads.length) (h : ∀ i < k, Readable payloads i) :
    ∀ p ∈ payloads.take k, p.length ≤ maxRwCount := by
  intro p hp
  obtain ⟨i, hi, rfl⟩ := List.mem_iff_getElem.mp hp
  rw [List.length_take, Nat.min_eq_left hk] at hi
  rw [List.getElem_take]
  exact ((readable_iff (hi.trans_le hk)).mp (h i hi)).2

/-- **The first calls read the first records exactly when these can be read.** -/
theorem forall_readsRecord_iff (hsmall : ∀ p ∈ payloads, p.length < 2 ^ 31) {k : ℕ}
    (hk : k ≤ payloads.length) (log : Bytes) :
    (∀ i < k, ReadsRecord crc payloads (payloads.flatMap (WALWriter.record crc)) log i) ↔
      ∀ i < k, Readable payloads i := by
  constructor
  · -- by induction, the calls before have met payloads that one `pread` transfers
    intro hreads i
    induction i using Nat.strong_induction_on with
    | _ i ih =>
      intro hi
      have hshort := short_of_readable (hi.le.trans hk) fun j hj => ih j hj (hj.trans hi)
      exact (readsRecord_iff_readable crc hsmall (hi.trans_le hk) hshort log).1.mp (hreads i hi)
  · intro h i hi
    have hshort := short_of_readable (hi.le.trans hk) fun j hj => h j (hj.trans hi)
    exact readsRecord_of_readable crc hsmall (hi.trans_le hk) hshort log (h i hi)

/-- **How far a log is read.**  Let `AddLog` write payloads below `2 ^ 31` bytes.  The first `k` calls
read the first `k` records at their places and return them exactly when the payload of each of these
begins below `2 ^ 31` and is no more than one `pread` transfers.  And behind payloads that one `pread`
transfers, the next record is read at its place exactly when it can be, and otherwise nothing is
returned at all. -/
theorem readsRecord_iff (hsmall : ∀ p ∈ payloads, p.length < 2 ^ 31) :
    ∃ w, WALWriter.addLogs crc (FileWriter.new [] true) payloads = .ok w ∧ ∀ log : Bytes,
      (∀ k ≤ payloads.length,
        (∀ i < k, ReadsRecord crc payloads w.file log i) ↔ ∀ i < k, Readable payloads i) ∧
      ∀ i < payloads.length, (∀ p ∈ payloads.take i, p.length ≤ maxRwCount) →
        (ReadsRecord crc payloads w.file log i ↔ Readable payloads i) ∧
        (((after crc w.file log i).2.readLog crc (after crc w.file log i).1).1 = .success ↔
          Readable payloads i) := by
  obtain ⟨w, hrun, hfile, -⟩ := WALWriter.addLogs_spec crc
    (show (FileWriter.new [] true).opened = true from rfl) rfl hsmall
  have hfile : w.file = payloads.flatMap (WALWriter.record crc) := hfile
  refine ⟨w, hrun, fun log => ⟨fun k hk => ?_, fun i hi hshort => ?_⟩⟩
  · rw [hfile]
    exact forall_readsRecord_iff crc hsmall hk log
  · rw [hfile]
    exact readsRecord_iff_readable crc hsmall hi hshort log

/-- Three payloads, one of them empty. -/
theorem readsRecord_iff_three :
    ∃ w, WALWriter.addLogs (fun _ => 0) (FileWriter.new [] true) [[1, 2], [], [3]] = .ok w ∧
      ∀ log : Bytes, ∀ i < 3, ReadsRecord (fun _ => 0) [[1, 2], [], [3]] w.file log i := by
  obtain ⟨w, hrun, h⟩ := readsRecord_iff (fun _ => 0)
    (show ∀ p ∈ ([[1, 2], [], [3]] : List Bytes), p.length < 2 ^ 31 by decide)
  refine ⟨w, hrun, fun log => ((h log).1 3 le_rfl).mpr fun i hi => (readable_iff hi).mpr ?_⟩
  revert i
  decide

/-- Every record of every log of payloads below `2 ^ 31` bytes is read. -/
def AllRecordsRead : Prop :=
  ∀ (crc : Bytes → UInt32) (payloads : List Bytes), (∀ p ∈ payloads, p.length < 2 ^ 31) →
    ∃ w, WALWriter.addLogs crc (FileWriter.new [] true) payloads = .ok w ∧
      ∀ (log : Bytes) (i : ℕ), i < payloads.length → ReadsRecord crc payloads w.file log i

/-- **A record behind `2 ^ 31` bytes is not read**, also where one `pread` transfers each payload. -/
theorem not_allRecordsRead : ¬ AllRecordsRead := by
  intro h
  obtain ⟨n, hn⟩ : ∃ n, n = 2 ^ 30 - 8 := ⟨_, rfl⟩
  obtain ⟨m, hm⟩ : ∃ m, m = 2 ^ 30 - 16 := ⟨_, rfl⟩
  let payloads : List Bytes := [List.replicate n 0, List.replicate m 0, [], []]
  have hsmall : ∀ p ∈ payloads, p.length < 2 ^ 31 := by
    simp only [payloads, List.mem_cons, List.not_mem_nil, or_false, forall_eq_or_imp, forall_eq,
      List.length_replicate, List.length_nil]
    omega
  obtain ⟨w, -, hread⟩ := h (fun _ => 0) payloads hsmall
  have hheader := (hread [] 3 (Nat.lt_add_one 3)).header
  have hlt := headerPos_lt (after (fun _ => 0) w.file [] 3).2
  have hstart : start payloads 3 = kHeaderSize + n + (kHeaderSize + m + kHeaderSize) := by
    simp [start, payloads]
  rw [hheader, hstart, hn, hm, kHeaderSize] at hlt
  omega

end SmallKV.WALReader

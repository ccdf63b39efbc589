import SmallKV.File.FileReader
import SmallKV.Wal.WalWriter
import SmallKV.Foundations.PrefixCode

/-!
# Wal/WalReader — reading records back, as `wal/wal_reader.cpp` does, from a log cut anywhere

`ReadLog` reads a header at its offset and then as many bytes as the header says.  On a log written
by `AddLog` and cut at any byte, the calls return the payloads of the whole records in order, and
the call after them says why there is no further one (`readLogs_of_truncated`).
-/

namespace SmallKV

/-- `WALReader`. -/
structure WALReader where
  readableFile : FileReader
  offset : ℕ

namespace WALReader

variable (crc : Bytes → UInt32)

/-- `std::string::resize`. -/
def resize (s : Bytes) (n : ℕ) : Bytes := s.take n ++ List.replicate (n - s.length) 0

/-- `VerifyChecksum`. -/
def verifyChecksum (data : Bytes) (expected : ℕ) : Bool := (crc data).toNat = expected

/-- Steps 3 and 4 of `ReadLog`: read `len` bytes and compare their checksum. -/
def readPayload (r : WALReader) (log : Bytes) (checksum len : ℕ) : DBStatus × Bytes × WALReader :=
  let payload := r.readableFile.read (resize log len) (toInt32 len) (toInt32 r.offset)
  if payload.1 ≠ .success then (.corruption, payload.2, r)
  else
    let r := { r with offset := toUInt64 (r.offset + toInt32 len) }
    if !verifyChecksum crc payload.2 checksum then (.corruption, payload.2, r)
    else (.success, payload.2, r)

/-- `ReadLog` into a string that holds `log`. -/
def readLog (r : WALReader) (log : Bytes) : DBStatus × Bytes × WALReader :=
  let header :=
    r.readableFile.read (List.replicate kHeaderSize 0) kHeaderSize (toInt32 r.offset)
  if header.1 ≠ .success then (.execFailed, log, r)
  else
    let r := { r with offset := toUInt64 (r.offset + kHeaderSize) }
    readPayload crc r log (leNat (header.2.take 4)) (leNat ((header.2.drop 4).take 4))

/-- `k` calls of `ReadLog` in a row on one string, with what each of them returned. -/
def readLogs : ℕ → WALReader → Bytes → List (DBStatus × Bytes) × Bytes × WALReader
  | 0, r, log => ([], log, r)
  | k + 1, r, log =>
      let first := r.readLog crc log
      let rest := readLogs k first.2.2 first.2.1
      ((first.1, first.2.1) :: rest.1, rest.2)

/-! ## One call -/

@[simp] theorem length_resize (s : Bytes) (n : ℕ) : (resize s n).length = n := by
  rw [resize, List.length_append, List.length_take, List.length_replicate]
  omega

variable {limit : ℕ} {log p pre rest bytes : Bytes}

/-- The checksum that the header at the front of some bytes announces. -/
def checksumField (bytes : Bytes) : ℕ := leNat (bytes.take 4)

/-- The length it announces. -/
def lengthField (bytes : Bytes) : ℕ := leNat ((bytes.drop 4).take 4)

/-- The length that `pread` takes for a success: `-1` as an `int32_t`. -/
def hugeLength : ℕ := 0xffffffff

/-- A reader of the file `file` that stands at `offset`, where one `pread` transfers at most `limit`
bytes. -/
def openAt (limit : ℕ) (file : Bytes) (offset : ℕ) : WALReader := ⟨⟨some file, limit⟩, offset⟩

theorem checksumField_take (bytes : Bytes) :
    checksumField (bytes.take kHeaderSize) = checksumField bytes := by
  rw [checksumField, checksumField, List.take_take]
  rfl

theorem lengthField_take (bytes : Bytes) :
    lengthField (bytes.take kHeaderSize) = lengthField bytes := by
  rw [lengthField, lengthField, List.drop_take, List.take_take]
  rfl

/-- With a header left, a call goes on to the payload that the header announces. -/
theorem readLog_of_header (hlimit : kHeaderSize ≤ limit) (hpre : pre.length < 2 ^ 31)
    (hheader : kHeaderSize ≤ bytes.length) :
    readLog crc (openAt limit (pre ++ bytes) pre.length) log =
      readPayload crc (openAt limit (pre ++ bytes) (pre.length + kHeaderSize)) log
        (checksumField bytes) (lengthField bytes) := by
  simp only [kHeaderSize] at hheader
  have hread : FileReader.read ⟨some (pre ++ bytes), limit⟩ (List.replicate kHeaderSize 0)
      kHeaderSize (toInt32 pre.length) = (.success, bytes.take kHeaderSize) := by
    rw [toInt32_of_lt hpre, FileReader.read_of_le (by simp [kHeaderSize]; omega) hlimit
      List.length_replicate, List.drop_left]
  have hchecksum := checksumField_take bytes
  have hlength := lengthField_take bytes
  rw [checksumField] at hchecksum
  rw [lengthField] at hlength
  have hoff : toUInt64 ((pre.length : ℤ) + kHeaderSize) = pre.length + kHeaderSize := by
    rw [← Nat.cast_add, toUInt64_of_lt (by simp only [kHeaderSize]; omega)]
  simp only [readLog, openAt, hread, ne_eq, not_true_eq_false, if_false, hchecksum, hlength, hoff]

/-- The payload is there: it is returned if its checksum is right, and stepped over. -/
theorem readPayload_of_le (checksum : ℕ) {len : ℕ} (hpre : pre.length + kHeaderSize < 2 ^ 31)
    (hint : len < 2 ^ 31) (hlimit : len ≤ limit) (hlen : kHeaderSize + len ≤ bytes.length) :
    readPayload crc (openAt limit (pre ++ bytes) (pre.length + kHeaderSize)) log checksum len =
      (if (crc ((bytes.drop kHeaderSize).take len)).toNat = checksum then .success else .corruption,
        (bytes.drop kHeaderSize).take len,
        openAt limit (pre ++ bytes) (pre.length + (kHeaderSize + len))) := by
  have hread : FileReader.read ⟨some (pre ++ bytes), limit⟩ (resize log len) (toInt32 len)
      (toInt32 (pre.length + kHeaderSize : ℕ)) = (.success, (bytes.drop kHeaderSize).take len) := by
    rw [toInt32_of_lt hint, toInt32_of_lt hpre,
      FileReader.read_of_le (by rw [List.length_append]; omega) hlimit (length_resize log len),
      ← List.drop_drop, List.drop_left]
  have hoff : toUInt64 ((pre.length + kHeaderSize : ℕ) + toInt32 len) =
      pre.length + (kHeaderSize + len) := by
    rw [toInt32_of_lt hint, ← Nat.cast_add, toUInt64_of_lt (by omega), Nat.add_assoc]
  simp only [readPayload, openAt, hread, hoff, verifyChecksum, ne_eq, not_true_eq_false, if_false]
  by_cases hcrc : (crc ((bytes.drop kHeaderSize).take len)).toNat = checksum <;> simp [hcrc]

/-- The payload is not there, or more than one `pread` transfers: the call stops behind the header. -/
theorem readPayload_of_lt (limit : ℕ) (log : Bytes) (checksum : ℕ) {len : ℕ}
    (hpre : pre.length + kHeaderSize < 2 ^ 31)
    (hlen : bytes.length < kHeaderSize + len ∨ limit < len) (hpos : 0 < len)
    (hhuge : len < hugeLength) :
    ∃ log', readPayload crc (openAt limit (pre ++ bytes) (pre.length + kHeaderSize)) log checksum
        len = (.corruption, log', openAt limit (pre ++ bytes) (pre.length + kHeaderSize)) := by
  rw [hugeLength] at hhuge
  have hread : (FileReader.read ⟨some (pre ++ bytes), limit⟩ (resize log len) (toInt32 len)
      (toInt32 (pre.length + kHeaderSize : ℕ))).1 = .execFailed := by
    by_cases hint : len < 2 ^ 31
    · rw [toInt32_of_lt hint, toInt32_of_lt (by omega)]
      exact FileReader.read_of_lt (by rw [List.length_append]; omega) hpos
    · have hneg : toInt32 len < 0 ∧ toInt32 len ≠ -1 := by
        rw [toInt32]
        omega
      rw [FileReader.read_of_neg hneg.1, if_neg hneg.2]
  refine ⟨(FileReader.read ⟨some (pre ++ bytes), limit⟩ (resize log len) (toInt32 len)
    (toInt32 (pre.length + kHeaderSize : ℕ))).2, ?_⟩
  simp only [readPayload, openAt, hread, ne_eq, reduceCtorEq, not_false_eq_true, if_true]

/-- The header of a payload, as the reader takes it. -/
theorem fields_header (p rest : Bytes) :
    checksumField (WALWriter.header crc p ++ rest) = (crc p).toNat ∧
      lengthField (WALWriter.header crc p ++ rest) = p.length % 2 ^ 32 := by
  rw [WALWriter.header, List.append_assoc, checksumField, lengthField,
    List.take_left' (length_encodeFixed32 _), List.drop_left' (length_encodeFixed32 _),
    List.take_left' (length_encodeFixed32 _), leNat_encodeFixed32, leNat_encodeFixed32]
  exact ⟨Nat.mod_eq_of_lt (crc p).toNat_lt, rfl⟩

/-- In front of the header of a payload, a call goes on to that payload. -/
theorem readLog_header (hlimit : kHeaderSize ≤ limit) (hpre : pre.length < 2 ^ 31)
    (hp : p.length < 2 ^ 32) :
    readLog crc (openAt limit (pre ++ (WALWriter.header crc p ++ rest)) pre.length) log =
      readPayload crc (openAt limit (pre ++ (WALWriter.header crc p ++ rest))
        (pre.length + kHeaderSize)) log (crc p).toNat p.length := by
  obtain ⟨hchecksum, hlength⟩ := fields_header crc p rest
  have hheader : kHeaderSize ≤ (WALWriter.header crc p ++ rest).length := by
    rw [List.length_append, WALWriter.length_header]
    omega
  rw [readLog_of_header crc hlimit hpre hheader, hchecksum, hlength, Nat.mod_eq_of_lt hp]

/-- **A call on a whole record returns its payload**, and steps over it. -/
theorem readLog_whole (hheader : kHeaderSize ≤ limit) (hpre : pre.length + kHeaderSize < 2 ^ 31)
    (hp : p.length < 2 ^ 31) (hlimit : p.length ≤ limit) :
    readLog crc (openAt limit (pre ++ (WALWriter.record crc p ++ rest)) pre.length) log =
      (.success, p, openAt limit (pre ++ (WALWriter.record crc p ++ rest))
        (pre ++ WALWriter.record crc p).length) := by
  have hsize := WALWriter.length_header crc p
  have hpayload : ((WALWriter.header crc p ++ (p ++ rest)).drop kHeaderSize).take p.length = p := by
    rw [List.drop_left' hsize, List.take_left]
  have hbytes : (WALWriter.header crc p ++ (p ++ rest)).length =
      kHeaderSize + p.length + rest.length := by
    rw [List.length_append, List.length_append, hsize, Nat.add_assoc]
  rw [List.length_append, WALWriter.record, List.length_append, hsize]
  rw [List.append_assoc, readLog_header crc hheader (by omega) (by omega),
    readPayload_of_le crc _ hpre hp hlimit (by omega), hpayload, if_pos rfl]

/-- **A call with less than a header left fails**, and changes nothing. -/
theorem readLog_short (hfit : (pre ++ rest).length < 2 ^ 31) (hrest : rest.length < kHeaderSize) :
    readLog crc (openAt limit (pre ++ rest) pre.length) log =
      (.execFailed, log, openAt limit (pre ++ rest) pre.length) := by
  have hread : (FileReader.read ⟨some (pre ++ rest), limit⟩ (List.replicate kHeaderSize 0)
      kHeaderSize (toInt32 pre.length)).1 = .execFailed := by
    rw [List.length_append] at hfit
    rw [toInt32_of_lt (by omega)]
    exact FileReader.read_of_lt (Or.inl (by rw [List.length_append]; omega)) (by decide)
  simp only [readLog, openAt, hread, ne_eq, reduceCtorEq, not_false_eq_true, if_true]

/-- **A call with a header but not its whole payload left reports corruption.** -/
theorem readLog_torn (hlimit : kHeaderSize ≤ limit)
    (hfit : (pre ++ (WALWriter.header crc p ++ rest)).length < 2 ^ 31)
    (hp : p.length < 2 ^ 31) (hrest : rest.length < p.length) :
    (readLog crc (openAt limit (pre ++ (WALWriter.header crc p ++ rest)) pre.length) log).1 =
      .corruption := by
  have hbytes : (WALWriter.header crc p ++ rest).length = kHeaderSize + rest.length := by
    rw [List.length_append, WALWriter.length_header]
  have hshort : (WALWriter.header crc p ++ rest).length < kHeaderSize + p.length := by omega
  rw [List.length_append] at hfit
  obtain ⟨log', hrun⟩ := readPayload_of_lt crc limit log (crc p).toNat
    (show pre.length + kHeaderSize < 2 ^ 31 by omega) (Or.inl hshort) (by omega)
    (by rw [hugeLength]; omega)
  rw [readLog_header crc hlimit (by omega) (by omega), hrun]

/-! ## A whole log -/

/-- **The calls on a log return its whole records in order**, whatever follows them. -/
theorem readLogs_whole (hheader : kHeaderSize ≤ limit) : ∀ (logs : List Bytes)
    (pre tail log : Bytes), (∀ p ∈ logs, p.length ≤ limit) →
    (pre ++ logs.flatMap (WALWriter.record crc)).length < 2 ^ 31 →
      ∃ log', readLogs crc logs.length
          (openAt limit (pre ++ (logs.flatMap (WALWriter.record crc) ++ tail)) pre.length) log =
        (logs.map (.success, ·), log',
          openAt limit (pre ++ (logs.flatMap (WALWriter.record crc) ++ tail))
            (pre ++ logs.flatMap (WALWriter.record crc)).length)
  | [], pre, tail, log, _, _ => ⟨log, by simp [readLogs]⟩
  | p :: logs, pre, tail, log, hlimit, hfit => by
      rw [List.flatMap_cons, ← List.append_assoc] at hfit
      have hfirst : pre.length + (kHeaderSize + p.length) < 2 ^ 31 := by
        rw [List.length_append, List.length_append, WALWriter.length_record] at hfit
        omega
      simp only [List.flatMap_cons, List.append_assoc]
      have hassoc : pre ++ (WALWriter.record crc p ++
          (logs.flatMap (WALWriter.record crc) ++ tail)) =
            pre ++ WALWriter.record crc p ++ (logs.flatMap (WALWriter.record crc) ++ tail) :=
        (List.append_assoc _ _ _).symm
      obtain ⟨log', hrun⟩ := readLogs_whole hheader logs (pre ++ WALWriter.record crc p) tail p
        (fun q hq => hlimit q (List.mem_cons_of_mem p hq)) hfit
      refine ⟨log', ?_⟩
      simp only [List.length_cons, readLogs, readLog_whole crc hheader
        (show pre.length + kHeaderSize < 2 ^ 31 by omega) (show p.length < 2 ^ 31 by omega)
        (hlimit p List.mem_cons_self)]
      rw [hassoc, hrun, ← List.append_assoc pre]
      rfl

/-- **Reading a cut log.**  After the whole records before a torn tail, the next call fails when
less than a header is left, and reports corruption otherwise. -/
theorem readLog_tail (hlimit : kHeaderSize ≤ limit) (log : Bytes) {logs : List Bytes} {tail : Bytes}
    (htorn : Torn (WALWriter.record crc) logs tail)
    (hlogs : ∀ p ∈ logs, p.length < 2 ^ 31) (hfit : (pre ++ tail).length < 2 ^ 31) :
    (readLog crc (openAt limit (pre ++ tail) pre.length) log).1 =
      if tail.length < kHeaderSize then .execFailed else .corruption := by
  by_cases hshort : tail.length < kHeaderSize
  · rw [if_pos hshort, readLog_short crc hfit hshort]
  · rw [if_neg hshort]
    rcases htorn with ⟨rfl, -⟩ | ⟨p, others, rfl, hprefix, hlt⟩
    · exact absurd (by decide) hshort
    · have hheader : WALWriter.header crc p <+: tail :=
        List.prefix_of_prefix_length_le (List.prefix_append _ p) hprefix (by
          rw [WALWriter.length_header]; omega)
      obtain ⟨rest, rfl⟩ := hheader
      refine readLog_torn crc hlimit hfit (hlogs p List.mem_cons_self) ?_
      rw [List.length_append, WALWriter.length_record, WALWriter.length_header] at hlt
      omega

/-- **Append, crash, read back.**  Let `AddLog` write payloads to an empty file, let their records
fit in an `int32_t` offset, and cut the file after any `n` bytes.  Then, if `pread` transfers as many
bytes as there are, calls of `ReadLog` from offset `0` return the payloads whose records end inside the
cut, in order, and the next call fails when fewer than eight bytes remain and reports corruption
otherwise. -/
theorem readLogs_of_truncated (payloads : List Bytes)
    (hfit : (payloads.flatMap (WALWriter.record crc)).length < 2 ^ 31) :
    ∃ w, WALWriter.addLogs crc (FileWriter.new [] true) payloads = .ok w ∧
      ∀ n ≤ w.file.length, ∀ log : Bytes, ∃ k ≤ payloads.length, ∃ log' r,
        (∀ i < payloads.length,
          i < k ↔ ((payloads.take (i + 1)).flatMap (WALWriter.record crc)).length ≤ n) ∧
        readLogs crc k (openAt FileReader.unlimited (w.file.take n) 0) log =
          ((payloads.take k).map (.success, ·), log', r) ∧
        (r.readLog crc log').1 =
          if n - r.offset < kHeaderSize then .execFailed else .corruption := by
  have hsmall : ∀ p ∈ payloads, p.length < 2 ^ 31 := fun p hp => by
    have hsub := (List.sublist_flatten_of_mem
      (List.mem_map_of_mem (f := WALWriter.record crc) hp)).length_le
    rw [← List.flatMap_def, WALWriter.length_record] at hsub
    omega
  obtain ⟨w, hrun, hfile, -⟩ := WALWriter.addLogs_spec crc
    (show (FileWriter.new [] true).opened = true from rfl) rfl hsmall
  have hfile' : w.file = payloads.flatMap (WALWriter.record crc) := hfile
  refine ⟨w, hrun, fun n hn log => ?_⟩
  rw [hfile'] at hn ⊢
  obtain ⟨k, hk, tail, hcut, htorn, hwhole⟩ := exists_cut (WALWriter.record crc) payloads n hn
  have hlen : ((payloads.take k).flatMap (WALWriter.record crc)).length + tail.length = n := by
    rw [← List.length_append, ← hcut, List.length_take, Nat.min_eq_left hn]
  have hheader : kHeaderSize ≤ FileReader.unlimited := by decide
  obtain ⟨log', hread⟩ := readLogs_whole crc hheader (payloads.take k) [] tail log
    (fun p hp => Nat.le_of_lt_succ (hsmall p (List.mem_of_mem_take hp)))
    (by rw [List.nil_append]; omega)
  have hnext := readLog_tail crc hheader log' htorn
    (fun p hp => hsmall p (List.mem_of_mem_drop hp))
    (show ((payloads.take k).flatMap (WALWriter.record crc) ++ tail).length < 2 ^ 31 by
      rw [List.length_append]; omega)
  rw [List.length_take, Nat.min_eq_left hk, List.nil_append, ← hcut] at hread
  rw [← hcut] at hnext
  refine ⟨k, hk, log', _, hwhole, hread, hnext.trans ?_⟩
  rw [openAt, List.nil_append, ← hlen, Nat.add_sub_cancel_left]

/-- Three payloads, one of them empty, cut anywhere. -/
theorem readLogs_of_truncated_three :
    ∃ w, WALWriter.addLogs (fun _ => 0) (FileWriter.new [] true) [[1, 2], [], [3]] = .ok w ∧
      ∀ n ≤ w.file.length, ∀ log : Bytes, ∃ k ≤ 3, ∃ log' r,
        (∀ i < 3, i < k ↔ (([[1, 2], [], [3]].take (i + 1)).flatMap
          (WALWriter.record fun _ => 0)).length ≤ n) ∧
        readLogs (fun _ => 0) k (openAt FileReader.unlimited (w.file.take n) 0) log =
          (([[1, 2], [], [3]].take k).map (.success, ·), log', r) ∧
        (r.readLog (fun _ => 0) log').1 =
          if n - r.offset < kHeaderSize then .execFailed else .corruption :=
  readLogs_of_truncated (fun _ => 0) [[1, 2], [], [3]] (by decide)

end WALReader

end SmallKV

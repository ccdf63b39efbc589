import SmallKV.Wal.WalReader

/-!
# Wal/Scan — what `ReadLog` meets in any bytes

A call of `ReadLog` reads a header wherever its offset stands, and goes on by what the header says
(`scan`).  `pread` answers a count that is negative as an `ssize_t` with `-1`, and `read` compares
the answer with the count, so the length `0xffffffff` passes for read: that is the one way in which
a call returns what is not in the file (`readLog_sound_iff`).  Here `pread` transfers as many bytes as
there are.
-/

namespace SmallKV.WALReader

open FileReader (unlimited)

variable (crc : Bytes → UInt32)

/-! ## One call, anywhere -/

/-- What a call meets, and the bytes in front of which the next call stands. -/
inductive Scan
  /-- less than a header -/
  | stop
  /-- a record -/
  | found (payload rest : Bytes)
  /-- a header without its payload, or a payload with another checksum -/
  | skip (rest : Bytes)
  /-- a header with the length `hugeLength` -/
  | huge (checksum : ℕ) (rest : Bytes)

/-- The record format, read from the front of some bytes. -/
def scan (bytes : Bytes) : Scan :=
  let len := lengthField bytes
  let payload := (bytes.drop kHeaderSize).take len
  if bytes.length < kHeaderSize then .stop
  else if len = hugeLength then .huge (checksumField bytes) (bytes.drop (kHeaderSize - 1))
  else if bytes.length < kHeaderSize + len then .skip (bytes.drop kHeaderSize)
  else if (crc payload).toNat = checksumField bytes then
    .found payload (bytes.drop (kHeaderSize + len))
  else .skip (bytes.drop (kHeaderSize + len))

variable {pre bytes log : Bytes}

theorem lengthField_lt (bytes : Bytes) : lengthField bytes < 2 ^ 32 := by
  have hlt := leNat_lt ((bytes.drop 4).take 4)
  have hle : ((bytes.drop 4).take 4).length ≤ 4 := List.length_take_le 4 _
  have hpow : 256 ^ ((bytes.drop 4).take 4).length ≤ 256 ^ 4 := Nat.pow_le_pow_right (by decide) hle
  rw [lengthField]
  omega

/-- The huge length passes for read: what is compared is the string that was handed in, with zeros
behind it. -/
theorem readPayload_huge (checksum : ℕ) (hfit : (pre ++ bytes).length < 2 ^ 31)
    (hheader : kHeaderSize ≤ bytes.length) :
    readPayload crc (openAt unlimited (pre ++ bytes) (pre.length + kHeaderSize)) log checksum
        hugeLength =
      (if (crc (resize log hugeLength)).toNat = checksum then .success else .corruption,
        resize log hugeLength, openAt unlimited (pre ++ bytes) (pre.length + (kHeaderSize - 1))) := by
  rw [List.length_append] at hfit
  have hminus : toInt32 hugeLength = -1 := by
    rw [toInt32, hugeLength]
    omega
  have hread : FileReader.read ⟨some (pre ++ bytes), unlimited⟩ (resize log hugeLength)
      (toInt32 hugeLength) (toInt32 (pre.length + kHeaderSize : ℕ)) =
        (.success, resize log hugeLength) := by
    rw [hminus, FileReader.read_of_neg (by decide), if_pos rfl]
  have hoff : toUInt64 ((pre.length + kHeaderSize : ℕ) + toInt32 hugeLength) =
      pre.length + (kHeaderSize - 1) := by
    rw [hminus, toUInt64, kHeaderSize]
    simp only [kHeaderSize] at hheader
    omega
  simp only [readPayload, openAt, hread, hoff, verifyChecksum, ne_eq, not_true_eq_false, if_false]
  by_cases hcrc : (crc (resize log hugeLength)).toNat = checksum <;> simp [hcrc]

/-- The reader of a file stands in front of its last bytes. -/
def StandsAt (r : WALReader) (file rest : Bytes) : Prop :=
  ∃ pre, file = pre ++ rest ∧ r = openAt unlimited file pre.length

theorem standsAt_drop (pre bytes : Bytes) {n : ℕ} (h : n ≤ bytes.length) :
    StandsAt (openAt unlimited (pre ++ bytes) (pre.length + n)) (pre ++ bytes) (bytes.drop n) := by
  refine ⟨pre ++ bytes.take n, by rw [List.append_assoc, List.take_append_drop], ?_⟩
  rw [List.length_append, List.length_take, Nat.min_eq_left h]

variable {r : WALReader} {file : Bytes}

/-- What a call does in front of bytes with that scan. -/
def Scan.Answered (r : WALReader) (file log : Bytes) : Scan → Prop
  | .stop => (r.readLog crc log).1 = .execFailed ∧ (r.readLog crc log).2.2 = r
  | .found payload rest =>
      ∃ r', r.readLog crc log = (.success, payload, r') ∧ r'.StandsAt file rest
  | .skip rest =>
      ∃ log' r', r.readLog crc log = (.corruption, log', r') ∧ r'.StandsAt file rest
  | .huge checksum rest =>
      ∃ r', r.readLog crc log =
        (if (crc (resize log hugeLength)).toNat = checksum then .success else .corruption,
          resize log hugeLength, r') ∧ r'.StandsAt file rest

/-- **A call goes by the scan of the bytes in front of the reader.** -/
theorem readLog_scan (hfit : file.length < 2 ^ 31) (hr : r.StandsAt file bytes) (log : Bytes) :
    (scan crc bytes).Answered crc r file log := by
  obtain ⟨pre, rfl, rfl⟩ := hr
  have hlength : (pre ++ bytes).length = pre.length + bytes.length := List.length_append
  have hheader : kHeaderSize ≤ unlimited := by decide
  -- a payload that is in the file is one that `pread` transfers
  have hall : ∀ n ≤ bytes.length, n ≤ unlimited := fun n hn => by
    rw [unlimited]
    omega
  simp only [scan]
  split_ifs with hshort hhuge hlen hcrc
  · rw [Scan.Answered, readLog_short crc hfit hshort]
    exact ⟨rfl, rfl⟩
  · refine ⟨_, ?_, standsAt_drop pre bytes (n := kHeaderSize - 1) (by omega)⟩
    rw [readLog_of_header crc hheader (by omega) (by omega), hhuge,
      readPayload_huge crc _ hfit (by omega)]
  · have hlt : lengthField bytes < hugeLength :=
      Nat.lt_of_le_of_ne (Nat.le_of_lt_succ (lengthField_lt bytes)) hhuge
    obtain ⟨log', hrun⟩ := readPayload_of_lt crc unlimited log (checksumField bytes)
      (show pre.length + kHeaderSize < 2 ^ 31 by omega) (Or.inl hlen) (by omega) hlt
    refine ⟨log', _, ?_, standsAt_drop pre bytes (n := kHeaderSize) (by omega)⟩
    rw [readLog_of_header crc hheader (by omega) (by omega), hrun]
  · refine ⟨_, ?_, standsAt_drop pre bytes (n := kHeaderSize + lengthField bytes) (by omega)⟩
    rw [readLog_of_header crc hheader (by omega) (by omega),
      readPayload_of_le crc _ (by omega) (by omega) (hall _ (by omega)) (by omega), if_pos hcrc]
  · refine ⟨(bytes.drop kHeaderSize).take (lengthField bytes), _, ?_,
      standsAt_drop pre bytes (n := kHeaderSize + lengthField bytes) (by omega)⟩
    rw [readLog_of_header crc hheader (by omega) (by omega),
      readPayload_of_le crc _ (by omega) (by omega) (hall _ (by omega)) (by omega), if_neg hcrc]

/-! ## Soundness of one call -/

/-- What is found is a record at the front of the bytes. -/
theorem scan_found {payload rest : Bytes} (h : scan crc bytes = .found payload rest) :
    bytes = bytes.take kHeaderSize ++ (payload ++ rest) ∧ kHeaderSize ≤ bytes.length ∧
      payload.length = lengthField bytes ∧ (crc payload).toNat = checksumField bytes ∧
      lengthField bytes ≠ hugeLength := by
  simp only [scan] at h
  split_ifs at h with hshort hhuge hlen hcrc
  obtain ⟨rfl, rfl⟩ := Scan.found.inj h
  refine ⟨?_, by omega, ?_, hcrc, hhuge⟩
  · rw [← List.drop_drop, List.take_append_drop, List.take_append_drop]
  · rw [List.length_take, List.length_drop]
    omega

/-- A header with the huge length, whose checksum is that of the string handed in with zeros behind
it. -/
def Spoofed (file : Bytes) (offset : ℕ) (log : Bytes) : Prop :=
  kHeaderSize ≤ (file.drop offset).length ∧ lengthField (file.drop offset) = hugeLength ∧
    (crc (resize log hugeLength)).toNat = checksumField (file.drop offset)

theorem spoofed_iff {offset : ℕ} : Spoofed crc file offset log ↔
    ∃ checksum rest, scan crc (file.drop offset) = .huge checksum rest ∧
      (crc (resize log hugeLength)).toNat = checksum := by
  constructor
  · rintro ⟨hheader, hlen, hcrc⟩
    refine ⟨_, (file.drop offset).drop (kHeaderSize - 1), ?_, hcrc⟩
    simp only [scan]
    rw [if_neg (by omega), if_pos hlen]
  · rintro ⟨checksum, rest, hscan, hcrc⟩
    simp only [scan] at hscan
    split_ifs at hscan with hshort hhuge hlen hcrc'
    obtain ⟨rfl, -⟩ := Scan.huge.inj hscan
    exact ⟨by omega, hhuge, hcrc⟩

/-- If a call succeeds, the file holds a header at the offset and behind it as many bytes as the
header says, which are returned, have its checksum, and are stepped over. -/
def ReadsSoundly (file : Bytes) (offset : ℕ) (log : Bytes) : Prop :=
  ∀ log' r', readLog crc (openAt unlimited file offset) log = (.success, log', r') →
    ∃ header, header.length = kHeaderSize ∧ header ++ log' <+: file.drop offset ∧
      lengthField header = log'.length ∧ checksumField header = (crc log').toNat ∧
      r' = openAt unlimited file (offset + (kHeaderSize + log'.length))

variable {offset : ℕ}

theorem standsAt_openAt (hoffset : offset ≤ file.length) :
    (openAt unlimited file offset).StandsAt file (file.drop offset) := by
  have h := standsAt_drop [] file hoffset
  simpa using h

/-- **A spoofed header makes a call return what is not in the file.** -/
theorem not_readsSoundly_of_spoofed (hfile : file.length < 2 ^ 31) (hoffset : offset ≤ file.length)
    (h : Spoofed crc file offset log) : ¬ ReadsSoundly crc file offset log := by
  intro hsound
  obtain ⟨checksum, rest, hscan, hcrc⟩ := (spoofed_iff crc).mp h
  have hanswer := readLog_scan crc hfile (standsAt_openAt hoffset) log
  rw [hscan] at hanswer
  obtain ⟨r', hrun, -⟩ := hanswer
  rw [if_pos hcrc] at hrun
  obtain ⟨header, -, hprefix, -⟩ := hsound _ _ hrun
  have hle := hprefix.length_le
  rw [List.length_append, length_resize, List.length_drop, hugeLength] at hle
  omega

/-- **`ReadLog` is sound except for spoofed headers**, on every file and at every offset in it. -/
theorem readLog_sound_iff (hfile : file.length < 2 ^ 31) (hoffset : offset ≤ file.length) :
    ReadsSoundly crc file offset log ↔ ¬ Spoofed crc file offset log := by
  refine ⟨fun hsound h => not_readsSoundly_of_spoofed crc hfile hoffset h hsound,
    fun hspoofed log' r' hrun => ?_⟩
  have hanswer := readLog_scan crc hfile (standsAt_openAt hoffset) log
  cases hscan : scan crc (file.drop offset) with
  | stop =>
    rw [hscan] at hanswer
    obtain ⟨hfailed, -⟩ := hanswer
    rw [hrun] at hfailed
    exact absurd hfailed (fun h : DBStatus.success = .execFailed => nomatch h)
  | found payload rest =>
    rw [hscan] at hanswer
    obtain ⟨r'', hrun', pre, hpre, rfl⟩ := hanswer
    obtain ⟨hlog, hr⟩ : log' = payload ∧ r' = _ := by simpa using hrun.symm.trans hrun'
    obtain ⟨hbytes, hheader, hlen, hcrc, -⟩ := scan_found crc hscan
    rw [← hlog] at hbytes hlen hcrc
    refine ⟨(file.drop offset).take kHeaderSize, ?_, ?_, ?_, ?_, ?_⟩
    · rw [List.length_take, Nat.min_eq_left hheader]
    · exact ⟨rest, by rw [List.append_assoc, ← hbytes]⟩
    · rw [lengthField_take, hlen]
    · rw [checksumField_take, hcrc]
    · have hfront := congrArg List.length hbytes
      have hback := congrArg List.length hpre
      simp only [List.length_append, List.length_take, List.length_drop] at hfront hback hheader
      have hoff : pre.length = offset + (kHeaderSize + log'.length) := by omega
      rw [hr, hoff]
  | skip rest =>
    rw [hscan] at hanswer
    obtain ⟨log'', r'', hrun', -⟩ := hanswer
    exact absurd (Prod.mk.inj (hrun.symm.trans hrun')).1 (by decide)
  | huge checksum rest =>
    rw [hscan] at hanswer
    obtain ⟨r'', hrun', -⟩ := hanswer
    rw [if_neg fun hcrc => hspoofed ((spoofed_iff crc).mpr ⟨checksum, rest, hscan, hcrc⟩)] at hrun'
    exact absurd (Prod.mk.inj (hrun.symm.trans hrun')).1 (by decide)

/-- A record of one byte. -/
theorem readLog_sound_iff_one :
    ReadsSoundly (fun _ => 0) [0, 0, 0, 0, 1, 0, 0, 0, 7] 0 [] :=
  (readLog_sound_iff (fun _ => 0) (by decide) (by decide)).mpr fun h => absurd h.2.1 (by decide)

/-- `ReadLog` is sound on every file and at every offset in it. -/
def ReadLogSound : Prop :=
  ∀ (crc : Bytes → UInt32) (file : Bytes) (offset : ℕ) (log : Bytes), file.length < 2 ^ 31 →
    offset ≤ file.length → ReadsSoundly crc file offset log

/-- **A file of one header makes a call succeed**, with four gigabytes of zeros. -/
theorem not_readLogSound : ¬ ReadLogSound := by
  intro h
  have hspoofed : Spoofed (fun _ => 0) [0, 0, 0, 0, 255, 255, 255, 255] 0 [] :=
    ⟨by decide, by decide, rfl⟩
  exact not_readsSoundly_of_spoofed (fun _ => 0) (by decide) (by decide) hspoofed
    (h (fun _ => 0) [0, 0, 0, 0, 255, 255, 255, 255] 0 [] (by decide) (by decide))

end SmallKV.WALReader

import SmallKV.File.FileWriter

/-!
# Wal/WalWriter — appending records to the log, as `wal/wal_writer.cpp` does

A record is a header of eight bytes, the checksum and the length of the payload, and the payload.
The checksum `absl::ComputeCrc32c` is a parameter `crc`.
-/

namespace SmallKV

/-- `WALConfig::kHeaderSize`. -/
def kHeaderSize : ℕ := 8

namespace WALWriter

variable (crc : Bytes → UInt32)

/-- The header of a payload: checksum and length, four little-endian bytes each. -/
def header (log : Bytes) : Bytes :=
  encodeFixed32 (crc log).toNat ++ encodeFixed32 log.length

/-- `AddLog`, on the writer of the log file. -/
def addLog (w : FileWriter) (log : Bytes) : Exec (DBStatus × FileWriter) := do
  let (s, w) ← w.append (header crc log) kHeaderSize false
  require (s = .success) .assertion
  let (s, w) ← w.append log (toInt32 log.length) true
  let w ← w.sync
  require (s = .success) .assertion
  return (.success, w)

/-- `AddLog` for each of the payloads in turn. -/
def addLogs : FileWriter → List Bytes → Exec FileWriter
  | w, [] => .ok w
  | w, log :: logs => do
      let (_, w) ← addLog crc w log
      addLogs w logs

/-! ## Records -/

/-- The record of a payload. -/
def record (log : Bytes) : Bytes := header crc log ++ log

@[simp] theorem length_header (log : Bytes) : (header crc log).length = kHeaderSize := rfl

@[simp] theorem length_record (log : Bytes) :
    (record crc log).length = kHeaderSize + log.length := by
  rw [record, List.length_append, length_header]

variable {w : FileWriter}

/-- **`AddLog` appends the header and as much of the payload as its length is as an `int32_t`**, and
syncs them. -/
theorem addLog_of_nonneg (hopen : w.opened = true) {log : Bytes} (hlog : 0 ≤ toInt32 log.length) :
    ∃ w', addLog crc w log = .ok (.success, w') ∧
      w'.stream = w.stream ++ (header crc log ++ log.take (toInt32 log.length).toNat) ∧
      w'.opened = true ∧ w'.buffer = [] := by
  obtain ⟨n, hn⟩ := Int.eq_ofNat_of_zero_le hlog
  have hle : n ≤ log.length := by
    rw [toInt32] at hn
    omega
  obtain ⟨w₁, hrun₁, hs₁, ho₁⟩ :=
    FileWriter.append_spec hopen (length_header crc log).ge false
  obtain ⟨w₂, hrun₂, hs₂, ho₂⟩ := FileWriter.append_spec ho₁ hle true
  obtain ⟨w₃, hrun₃, hs₃, ho₃, hb₃⟩ := FileWriter.sync_spec ho₂
  refine ⟨w₃, ?_, ?_, ho₃, hb₃⟩
  · simp [addLog, hrun₁, hn, hrun₂, hrun₃]
  · rw [hs₃, hs₂, hs₁, List.take_of_length_le (length_header crc log).le, List.append_assoc, hn,
      Int.toNat_natCast]

/-- **`AddLog` of a payload whose length is a negative `int32_t` copies out of bounds.** -/
theorem addLog_of_neg (hopen : w.opened = true) {log : Bytes} (hlog : toInt32 log.length < 0)
    (r : DBStatus × FileWriter) : addLog crc w log ≠ .ok r := by
  intro h
  obtain ⟨w₁, hrun₁, -, -⟩ := FileWriter.append_spec hopen (length_header crc log).ge false
  rw [addLog, hrun₁, ok_bind] at h
  obtain ⟨_, -, h⟩ := bind_eq_ok.mp h
  obtain ⟨⟨s₂, w₂⟩, happend, -⟩ := bind_eq_ok.mp h
  exact FileWriter.append_of_neg hlog true _ happend

/-- What `AddLog` writes of a payload: as much as its length is as an `int32_t`. -/
def kept (log : Bytes) : Bytes := log.take (toInt32 log.length).toNat

/-- What `AddLog` writes for a payload. -/
def frame (log : Bytes) : Bytes := header crc log ++ kept log

/-- Payloads of less than `2 ^ 31` bytes are written whole. -/
theorem kept_of_lt {log : Bytes} (h : log.length < 2 ^ 31) : kept log = log :=
  FileWriter.take_toInt32 h

theorem length_kept {log : Bytes} (h : 0 ≤ toInt32 log.length) :
    (kept log).length = log.length % 2 ^ 32 ∧ (kept log).length < 2 ^ 31 := by
  rw [kept, List.length_take]
  rw [toInt32] at h ⊢
  omega

/-- **What returning `AddLog`s have written.** -/
theorem addLogs_eq_ok : ∀ {logs : List Bytes} {w w' : FileWriter}, w.opened = true →
    w.buffer = [] → addLogs crc w logs = .ok w' → (∀ log ∈ logs, 0 ≤ toInt32 log.length) ∧
      w'.file = w.file ++ logs.flatMap (frame crc)
  | [], w, w', _, _, h => by
      obtain rfl := Except.ok.inj h
      exact ⟨by simp, by simp⟩
  | log :: logs, w, w', hopen, hbuf, h => by
      obtain ⟨⟨s, w₁⟩, hlog, h⟩ := bind_eq_ok.mp h
      have hnonneg : 0 ≤ toInt32 log.length := by
        by_contra hneg
        exact addLog_of_neg crc hopen (not_le.mp hneg) _ hlog
      obtain ⟨w₁', hrun, hs, ho, hb⟩ := addLog_of_nonneg crc hopen hnonneg
      obtain ⟨-, rfl⟩ := Prod.mk.inj (Except.ok.inj (hrun.symm.trans hlog))
      obtain ⟨hlogs, hfile⟩ := addLogs_eq_ok ho hb h
      rw [FileWriter.stream_eq_file hb, FileWriter.stream_eq_file hbuf] at hs
      refine ⟨List.forall_mem_cons.mpr ⟨hnonneg, hlogs⟩, ?_⟩
      rw [hfile, hs, List.flatMap_cons, List.append_assoc]
      rfl

/-- **`AddLog` appends the record of its payload and syncs it.** -/
theorem addLog_spec (hopen : w.opened = true) {log : Bytes} (hlog : log.length < 2 ^ 31) :
    ∃ w', addLog crc w log = .ok (.success, w') ∧ w'.stream = w.stream ++ record crc log ∧
      w'.opened = true ∧ w'.buffer = [] := by
  have hlen : toInt32 log.length = log.length := toInt32_of_lt hlog
  obtain ⟨w', hrun, hs, hw⟩ := addLog_of_nonneg crc hopen (by rw [hlen]; omega)
  refine ⟨w', hrun, ?_, hw⟩
  rw [hs, hlen, Int.toNat_natCast, List.take_length, record]

theorem addLogs_append : ∀ (logs logs' : List Bytes) (w : FileWriter),
    addLogs crc w (logs ++ logs') = (addLogs crc w logs >>= fun w' => addLogs crc w' logs')
  | [], _, _ => rfl
  | log :: logs, logs', w => by
      simp only [List.cons_append, addLogs, bind_assoc]
      exact bind_congr fun r => addLogs_append logs logs' r.2

/-- **`AddLog` after `AddLog` appends the records in order.** -/
theorem addLogs_spec : ∀ {logs : List Bytes} {w : FileWriter}, w.opened = true → w.buffer = [] →
    (∀ log ∈ logs, log.length < 2 ^ 31) → ∃ w', addLogs crc w logs = .ok w' ∧
      w'.file = w.file ++ logs.flatMap (record crc) ∧ w'.opened = true ∧ w'.buffer = []
  | [], w, hopen, hbuf, _ => ⟨w, rfl, by simp, hopen, hbuf⟩
  | log :: logs, w, hopen, hbuf, hlogs => by
      obtain ⟨w₁, hrun₁, hs₁, ho₁, hb₁⟩ := addLog_spec crc hopen (hlogs log List.mem_cons_self)
      obtain ⟨w', hrun', hf', h'⟩ := addLogs_spec ho₁ hb₁ fun l hl =>
        hlogs l (List.mem_cons_of_mem log hl)
      rw [FileWriter.stream_eq_file hb₁, FileWriter.stream_eq_file hbuf] at hs₁
      refine ⟨w', ?_, ?_, h'⟩
      · rw [addLogs, hrun₁, ok_bind]
        exact hrun'
      · rw [hf', hs₁, List.flatMap_cons, List.append_assoc]

end WALWriter

end SmallKV

import SmallKV.Db.Status

/-!
# File/FileWriter — the buffering writer of `file/file_writer.cpp`

A writer appends to a file through a buffer of `BUFFER_SIZE` bytes.  `write` is taken to write every
byte it is given.  The file followed by the buffer is the *stream* of the writer: `append` extends
it by the data (`append_spec`) and `flush` and `sync` move all of it into the file
(`sync_spec`), wherever the data meets the end of the buffer.
-/

namespace SmallKV

/-- `BUFFER_SIZE`. -/
def bufferSize : ℕ := 65536

/-- `FileWriter`: the file behind `fd`, whether `fd` is still open, and the first `buffer_offset`
bytes of the buffer. -/
structure FileWriter where
  file : Bytes
  opened : Bool
  buffer : Bytes
  fits : buffer.length ≤ bufferSize

namespace FileWriter

/-- The constructor, on a file with the contents `file`: in append mode these stay. -/
def new (file : Bytes) (append : Bool) : FileWriter where
  file := if append then file else []
  opened := true
  buffer := []
  fits := Nat.zero_le _

/-- `is_buffer_full`. -/
def isBufferFull (w : FileWriter) : Bool := w.buffer.length = bufferSize

/-- `buf_persist`: on a closed descriptor `write` fails, and so does the assertion on what it
returns. -/
def bufPersist (w : FileWriter) (data : Bytes) : Exec FileWriter := do
  require w.opened .assertion
  return { w with file := w.file ++ data, buffer := [], fits := Nat.zero_le _ }

/-- `memcpy(buffer + buffer_offset, data + off, n)`, after which `buffer_offset` grows by `n`. -/
def copyIn (w : FileWriter) (data : Bytes) (off : ℕ) (n : ℤ) : Exec FileWriter := do
  require (0 ≤ n) .outOfBounds
  let bytes ← load data off n.toNat
  if h : (w.buffer ++ bytes).length ≤ bufferSize then
    return { w with buffer := w.buffer ++ bytes, fits := h }
  else .error .outOfBounds

/-- The loop of `append`: `len` more bytes from `data + off` through the buffer. -/
def appendLoop (data : Bytes) : ℕ → FileWriter → ℕ → ℤ → Exec FileWriter
  | 0, _, _, _ => .error .diverged
  | fuel + 1, w, off, len => do
      if len ≤ 0 then return w
      let w ← (if w.isBufferFull then w.bufPersist w.buffer else return w)
      let needCpy := min len (bufferSize - w.buffer.length)
      let w ← w.copyIn data off needCpy
      appendLoop data fuel w (off + needCpy.toNat) (len - needCpy)

/-- `append`.  The data pointer is the one of an array or a string, never null. -/
def append (w : FileWriter) (data : Bytes) (len : ℤ) (flush : Bool) :
    Exec (DBStatus × FileWriter) := do
  if len = 0 then return (.success, w)
  let remainBufSize : ℤ := bufferSize - w.buffer.length
  let w ← (if len < remainBufSize then w.copyIn data 0 len
    else do
      let w ← w.copyIn data 0 remainBufSize
      let w ← w.bufPersist w.buffer
      appendLoop data (len.toNat + 1) w remainBufSize.toNat (len - remainBufSize))
  let w ← (if flush then w.bufPersist w.buffer else return w)
  return (.success, w)

/-- `flush`. -/
def flush (w : FileWriter) : Exec FileWriter :=
  if 0 < w.buffer.length then w.bufPersist w.buffer else return w

/-- `sync`: `flush`, then `fsync`. -/
def sync (w : FileWriter) : Exec FileWriter := w.flush

/-- `close`. -/
def close (w : FileWriter) : Exec FileWriter := do
  let w ← w.flush
  return { w with opened := false }

/-! ## The stream -/

/-- Everything appended so far: what is in the file, then what waits in the buffer. -/
def stream (w : FileWriter) : Bytes := w.file ++ w.buffer

variable {w : FileWriter} {data : Bytes}

/-- **Persisting the buffer keeps the stream** and empties the buffer. -/
theorem bufPersist_spec (h : w.opened = true) : ∃ w', w.bufPersist w.buffer = .ok w' ∧
    w'.stream = w.stream ∧ w'.opened = true ∧ w'.buffer = [] := by
  refine ⟨{ w with file := w.file ++ w.buffer, buffer := [], fits := Nat.zero_le _ }, ?_, ?_, h, rfl⟩
  · simp [bufPersist, h]
  · simp [stream]

/-- **Copying into the buffer extends the stream**, when the bytes fit. -/
theorem copyIn_spec {off n : ℕ} (h : off + n ≤ data.length) (hfit : w.buffer.length + n ≤ bufferSize) :
    ∃ w', w.copyIn data off n = .ok w' ∧ w'.stream = w.stream ++ (data.drop off).take n ∧
      w'.opened = w.opened ∧ w'.buffer.length = w.buffer.length + n := by
  have hlen : ((data.drop off).take n).length = n := by
    rw [List.length_take, List.length_drop]
    omega
  have hfit' : (w.buffer ++ (data.drop off).take n).length ≤ bufferSize := by
    rwa [List.length_append, hlen]
  refine ⟨{ w with buffer := w.buffer ++ (data.drop off).take n, fits := hfit' }, ?_, ?_, rfl, ?_⟩
  · have hload : load data off n = .ok ((data.drop off).take n) := by simp [load, h]
    simp only [copyIn, Int.toNat_natCast, hload, ok_bind, dif_pos hfit']
    simp
  · simp [stream]
  · rw [List.length_append, hlen]

/-- The stream after two pieces of the data in a row. -/
theorem take_append_take_drop (data : Bytes) (off n k : ℕ) :
    (data.drop off).take n ++ (data.drop (off + n)).take k = (data.drop off).take (n + k) := by
  rw [← List.drop_drop, List.take_add]

/-- **The loop of `append` extends the stream by the rest of the data.** -/
theorem appendLoop_spec : ∀ {fuel : ℕ} {w : FileWriter} {off len : ℕ}, w.opened = true →
    off + len ≤ data.length → len < fuel → ∃ w', appendLoop data fuel w off len = .ok w' ∧
      w'.stream = w.stream ++ (data.drop off).take len ∧ w'.opened = true := by
  intro fuel
  induction fuel with
  | zero => intro _ _ _ _ _ hf; omega
  | succ fuel ih =>
    intro w off len hopen hlen hf
    by_cases hpos : len = 0
    · exact ⟨w, by simp [appendLoop, hpos], by simp [hpos], hopen⟩
    · -- first make room, then copy at least one byte
      have hroom : ∃ w₁, (if w.isBufferFull then w.bufPersist w.buffer else pure w) = .ok w₁ ∧
          w₁.stream = w.stream ∧ w₁.opened = true ∧ w₁.buffer.length < bufferSize := by
        by_cases hfull : w.isBufferFull = true
        · obtain ⟨w₁, hrun, hs, ho, hb⟩ := bufPersist_spec hopen
          exact ⟨w₁, by simp [hfull, hrun], hs, ho, by rw [hb]; decide⟩
        · refine ⟨w, by simp [hfull], rfl, hopen, Nat.lt_of_le_of_ne w.fits ?_⟩
          simpa [isBufferFull] using hfull
      obtain ⟨w₁, hrun₁, hs₁, ho₁, hb₁⟩ := hroom
      let n := min len (bufferSize - w₁.buffer.length)
      have hn : 0 < n ∧ n ≤ len ∧ w₁.buffer.length + n ≤ bufferSize := by
        refine ⟨?_, Nat.min_le_left _ _, ?_⟩ <;> simp only [n] <;> omega
      have hcast : min (len : ℤ) (bufferSize - w₁.buffer.length : ℤ) = (n : ℕ) := by
        simp only [n]
        omega
      obtain ⟨w₂, hrun₂, hs₂, ho₂, -⟩ := copyIn_spec (show off + n ≤ data.length by omega) hn.2.2
      obtain ⟨w', hrun', hs', ho'⟩ := ih (ho₂.trans ho₁)
        (show off + n + (len - n) ≤ data.length by omega) (by omega)
      refine ⟨w', ?_, ?_, ho'⟩
      · rw [appendLoop, if_neg (by omega), hrun₁, ok_bind]
        simp only [hcast, hrun₂, ok_bind, Int.toNat_natCast]
        rw [← hrun', Nat.cast_sub hn.2.1]
      · rw [hs', hs₂, hs₁, List.append_assoc, take_append_take_drop, Nat.add_sub_cancel' hn.2.1]

/-- **`append` extends the stream by the data**, and leaves an empty buffer when it flushes. -/
theorem append_spec (hopen : w.opened = true) {len : ℕ} (hlen : len ≤ data.length)
    (flush : Bool) : ∃ w', w.append data len flush = .ok (.success, w') ∧
      w'.stream = w.stream ++ data.take len ∧ w'.opened = true := by
  by_cases hpos : len = 0
  · exact ⟨w, by simp [append, hpos], by simp [hpos], hopen⟩
  · have hcopy : ∃ w₁, (if (len : ℤ) < bufferSize - w.buffer.length then w.copyIn data 0 len
        else do
          let w₁ ← w.copyIn data 0 (bufferSize - w.buffer.length)
          let w₁ ← w₁.bufPersist w₁.buffer
          appendLoop data ((len : ℤ).toNat + 1) w₁ (bufferSize - w.buffer.length : ℤ).toNat
            (len - (bufferSize - w.buffer.length))) = .ok w₁ ∧
        w₁.stream = w.stream ++ data.take len ∧ w₁.opened = true := by
      have hfits := w.fits
      by_cases hsmall : (len : ℤ) < bufferSize - w.buffer.length
      · obtain ⟨w₁, hrun, hs, ho, -⟩ := copyIn_spec (w := w)
          (show 0 + len ≤ data.length by omega) (by omega)
        exact ⟨w₁, by rw [if_pos hsmall, hrun], hs, ho.trans hopen⟩
      · have hcast : (bufferSize - w.buffer.length : ℤ) = (bufferSize - w.buffer.length : ℕ) := by
          omega
        obtain ⟨w₁, hrun₁, hs₁, ho₁, -⟩ := copyIn_spec (w := w)
          (show 0 + (bufferSize - w.buffer.length) ≤ data.length by omega) (by omega)
        obtain ⟨w₂, hrun₂, hs₂, ho₂, -⟩ := bufPersist_spec (ho₁.trans hopen)
        obtain ⟨w₃, hrun₃, hs₃, ho₃⟩ := appendLoop_spec ho₂
          (show bufferSize - w.buffer.length + (len - (bufferSize - w.buffer.length)) ≤ data.length
            by omega) (show _ < len + 1 by omega)
        refine ⟨w₃, ?_, ?_, ho₃⟩
        · rw [if_neg hsmall, hcast, hrun₁, ok_bind, hrun₂, ok_bind, Int.toNat_natCast,
            Int.toNat_natCast, ← Nat.cast_sub (by omega), hrun₃]
        · have hsplit := take_append_take_drop data 0 (bufferSize - w.buffer.length)
            (len - (bufferSize - w.buffer.length))
          rw [List.drop_zero, Nat.zero_add, Nat.add_sub_cancel' (by omega)] at hsplit
          rw [hs₃, hs₂, hs₁, List.append_assoc, List.drop_zero, hsplit]
    obtain ⟨w₁, hrun₁, hs₁, ho₁⟩ := hcopy
    cases flush with
    | false =>
      refine ⟨w₁, ?_, hs₁, ho₁⟩
      rw [append, if_neg (by omega)]
      exact (congrArg (· >>= _) hrun₁).trans rfl
    | true =>
      obtain ⟨w₂, hrun₂, hs₂, ho₂, -⟩ := bufPersist_spec ho₁
      refine ⟨w₂, ?_, hs₂.trans hs₁, ho₂⟩
      rw [append, if_neg (by omega)]
      refine (congrArg (· >>= _) hrun₁).trans ?_
      rw [ok_bind, if_pos rfl, hrun₂]
      rfl

/-- **`append` of a negative length copies out of bounds.** -/
theorem append_eq_error_of_neg {len : ℤ} (hlen : len < 0) (flush : Bool) :
    w.append data len flush = .error .outOfBounds := by
  have hfits := w.fits
  have hcopy : w.copyIn data 0 len = .error .outOfBounds := by
    rw [copyIn, decide_eq_false (by omega)]
    rfl
  rw [append, if_neg (by omega)]
  dsimp only
  rw [if_pos (by omega), hcopy]
  rfl

theorem append_of_neg {len : ℤ} (hlen : len < 0) (flush : Bool) (r : DBStatus × FileWriter) :
    w.append data len flush ≠ .ok r := by
  rw [append_eq_error_of_neg hlen]
  exact nofun

/-- Appending some data with its length squeezed into an `int`: so much of it extends the stream. -/
theorem append_eq_ok (hopen : w.opened = true) {flush : Bool} {s : DBStatus} {w' : FileWriter}
    (h : w.append data (toInt32 data.length) flush = .ok (s, w')) :
    w'.opened = true ∧ w'.stream = w.stream ++ data.take (toInt32 data.length).toNat := by
  rcases lt_or_ge (toInt32 data.length) 0 with hneg | hpos
  · exact absurd h (append_of_neg hneg flush _)
  · obtain ⟨len, hlen⟩ := Int.eq_ofNat_of_zero_le hpos
    have hle := toInt32_le data.length
    rw [hlen] at h hle ⊢
    obtain ⟨w₁, hrun, hstream, hopened⟩ := append_spec hopen (Int.ofNat_le.mp hle) flush
    obtain ⟨-, rfl⟩ := Prod.mk.inj (Except.ok.inj (hrun.symm.trans h))
    exact ⟨hopened, hstream⟩

/-- **Appending some data with its length squeezed into an `int`** returns, or the length is too large
and the copy leaves the data. -/
theorem append_toInt32 (hopen : w.opened = true) (data : Bytes) :
    (∃ w', w.append data (toInt32 data.length) false = .ok (.success, w') ∧ w'.opened = true) ∨
      w.append data (toInt32 data.length) false = .error .outOfBounds ∧
        toInt32 data.length < 0 := by
  rcases lt_or_ge (toInt32 data.length) 0 with hneg | hpos
  · exact Or.inr ⟨append_eq_error_of_neg hneg false, hneg⟩
  · obtain ⟨len, hlen⟩ := Int.eq_ofNat_of_zero_le hpos
    have hle := toInt32_le data.length
    rw [hlen] at hle ⊢
    obtain ⟨w', hrun, -, hopened⟩ := append_spec hopen (Int.ofNat_le.mp hle) false
    exact Or.inl ⟨w', hrun, hopened⟩

/-- All of the data, when its length is an `int`. -/
theorem take_toInt32 (h : data.length < 2 ^ 31) :
    data.take (toInt32 data.length).toNat = data := by
  rw [toInt32_of_lt h, Int.toNat_natCast, List.take_length]

/-- **After `sync` the file holds the whole stream.** -/
theorem sync_spec (hopen : w.opened = true) : ∃ w', w.sync = .ok w' ∧
    w'.stream = w.stream ∧ w'.opened = true ∧ w'.buffer = [] := by
  by_cases hpos : 0 < w.buffer.length
  · obtain ⟨w', hrun, h⟩ := bufPersist_spec hopen
    exact ⟨w', by rw [sync, flush, if_pos hpos, hrun], h⟩
  · exact ⟨w, by rw [sync, flush, if_neg hpos]; rfl, rfl, hopen, by simpa using hpos⟩

theorem stream_eq_file (h : w.buffer = []) : w.stream = w.file := by
  rw [stream, h, List.append_nil]

/-- After `close` the file holds the whole stream. -/
theorem close_spec (hopen : w.opened = true) : ∃ w', w.close = .ok w' ∧ w'.file = w.stream := by
  obtain ⟨w₁, hrun, hstream, -, hbuffer⟩ := sync_spec hopen
  have hflush : w.flush = .ok w₁ := hrun
  refine ⟨{ w₁ with opened := false }, by rw [close, hflush]; rfl, ?_⟩
  rw [← hstream, stream_eq_file hbuffer]

/-- What `flush` leaves in the file, whatever the descriptor. -/
theorem flush_eq_ok {w' : FileWriter} (h : w.flush = .ok w') : w'.file = w.stream := by
  rw [flush] at h
  split_ifs at h with hpos
  · obtain ⟨-, -, hw'⟩ := bind_eq_ok.mp h
    rw [← Except.ok.inj hw']
    rfl
  · obtain rfl := Except.ok.inj h
    rw [stream_eq_file (by simpa using hpos)]

/-! ## Files that hold something already -/

/-- The writer on a file that begins with other bytes. -/
def prepend (old : Bytes) (w : FileWriter) : FileWriter := { w with file := old ++ w.file }

variable (old : Bytes)

theorem new_append : new old true = prepend old (new [] true) := by
  simp [new, prepend]

theorem bufPersist_prepend (w : FileWriter) (data : Bytes) :
    (w.prepend old).bufPersist data = prepend old <$> w.bufPersist data := by
  cases hopen : w.opened <;> simp [bufPersist, prepend, hopen]

theorem copyIn_prepend (w : FileWriter) (data : Bytes) (off : ℕ) (n : ℤ) :
    (w.prepend old).copyIn data off n = prepend old <$> w.copyIn data off n := by
  rw [copyIn, copyIn]
  by_cases hn : 0 ≤ n
  · cases load data off n.toNat with
    | error e => simp [hn]
    | ok bytes =>
      by_cases hfit : (w.buffer ++ bytes).length ≤ bufferSize
      · have hfit' : ((w.prepend old).buffer ++ bytes).length ≤ bufferSize := hfit
        simp only [hn, decide_true, require_true, ok_bind, dif_pos hfit, dif_pos hfit']
        rfl
      · have hfit' : ¬ ((w.prepend old).buffer ++ bytes).length ≤ bufferSize := hfit
        simp only [hn, decide_true, require_true, ok_bind, dif_neg hfit, dif_neg hfit', map_error]
  · simp [hn]

theorem appendLoop_prepend (data : Bytes) : ∀ (fuel : ℕ) (w : FileWriter) (off : ℕ) (len : ℤ),
    appendLoop data fuel (w.prepend old) off len = prepend old <$> appendLoop data fuel w off len
  | 0, _, _, _ => rfl
  | fuel + 1, w, off, len => by
      rw [appendLoop, appendLoop]
      by_cases hlen : len ≤ 0
      · rw [if_pos hlen, if_pos hlen]
        rfl
      · have hroom : (if (w.prepend old).isBufferFull then
              (w.prepend old).bufPersist (w.prepend old).buffer else pure (w.prepend old)) =
            prepend old <$> (if w.isBufferFull then w.bufPersist w.buffer else pure w) := by
          by_cases hfull : w.isBufferFull = true
          · have hfull' : (w.prepend old).isBufferFull = true := hfull
            rw [if_pos hfull, if_pos hfull']
            exact bufPersist_prepend old w w.buffer
          · have hfull' : ¬ (w.prepend old).isBufferFull = true := hfull
            rw [if_neg hfull, if_neg hfull']
            rfl
        rw [if_neg hlen, if_neg hlen, hroom]
        refine bind_map_comm fun w₁ => ?_
        simp only [copyIn_prepend]
        exact bind_map_comm fun w₂ => appendLoop_prepend data fuel w₂ _ _

/-- What an operation returns, with its writer on a file that begins with other bytes. -/
def prependResult (r : DBStatus × FileWriter) : DBStatus × FileWriter := (r.1, r.2.prepend old)

/-- **`append` does not look at what the file holds.** -/
theorem append_prepend (w : FileWriter) (data : Bytes) (len : ℤ) (flush : Bool) :
    (w.prepend old).append data len flush = prependResult old <$> w.append data len flush := by
  rw [append, append]
  by_cases hlen : len = 0
  · rw [if_pos hlen, if_pos hlen]
    rfl
  · have hcopy : (if len < bufferSize - (w.prepend old).buffer.length then
          (w.prepend old).copyIn data 0 len
        else do
          let w₁ ← (w.prepend old).copyIn data 0 (bufferSize - (w.prepend old).buffer.length)
          let w₁ ← w₁.bufPersist w₁.buffer
          appendLoop data (len.toNat + 1) w₁
            (bufferSize - (w.prepend old).buffer.length : ℤ).toNat
            (len - (bufferSize - (w.prepend old).buffer.length))) =
        prepend old <$> (if len < bufferSize - w.buffer.length then w.copyIn data 0 len
        else do
          let w₁ ← w.copyIn data 0 (bufferSize - w.buffer.length)
          let w₁ ← w₁.bufPersist w₁.buffer
          appendLoop data (len.toNat + 1) w₁ (bufferSize - w.buffer.length : ℤ).toNat
            (len - (bufferSize - w.buffer.length))) := by
      change (if len < bufferSize - w.buffer.length then _ else _) = _
      by_cases hsmall : len < bufferSize - w.buffer.length
      · rw [if_pos hsmall, if_pos hsmall, copyIn_prepend]
      · rw [if_neg hsmall, if_neg hsmall, copyIn_prepend]
        refine bind_map_comm fun w₁ => ?_
        exact (congrArg (· >>= _) (bufPersist_prepend old w₁ w₁.buffer)).trans
          (bind_map_comm fun w₂ => appendLoop_prepend old data _ w₂ _ _)
    rw [if_neg hlen, if_neg hlen]
    refine (congrArg (· >>= _) hcopy).trans (bind_map_comm fun w₁ => ?_)
    cases flush with
    | false => rfl
    | true =>
      exact (congrArg (· >>= _) (bufPersist_prepend old w₁ w₁.buffer)).trans
        (bind_map_comm fun w₂ => rfl)

theorem flush_prepend (w : FileWriter) : (w.prepend old).flush = prepend old <$> w.flush := by
  by_cases hpos : 0 < w.buffer.length
  · have hpos' : 0 < (w.prepend old).buffer.length := hpos
    rw [flush, flush, if_pos hpos, if_pos hpos']
    exact bufPersist_prepend old w w.buffer
  · have hpos' : ¬ 0 < (w.prepend old).buffer.length := hpos
    rw [flush, flush, if_neg hpos, if_neg hpos']
    rfl

theorem close_prepend (w : FileWriter) : (w.prepend old).close = prepend old <$> w.close := by
  rw [close, close, flush_prepend]
  exact bind_map_comm fun _ => rfl

end FileWriter

end SmallKV

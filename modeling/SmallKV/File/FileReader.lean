import SmallKV.Db.Status

/-!
# File/FileReader — positional reads of `file/file_reader.cpp`

`pread` stores the bytes there are, at most `count` of them and no more than the system transfers in
one call, and returns their number; on a negative offset, a count that is negative as a `size_t`, or a
descriptor that cannot be read it returns `-1`.  `read` compares that number with `count`.
-/

namespace SmallKV

/-- `FileReader`: the contents of the file it opened, and how many bytes one `pread` transfers at
most.  With no file there `fd` stays the standard input, which cannot be read at an offset. -/
structure FileReader where
  contents : Option Bytes
  limit : ℕ

namespace FileReader

/-- What Linux transfers in one call, at most: `MAX_RW_COUNT`. -/
def maxRwCount : ℕ := 0x7ffff000

/-- No limit: a count is an `int32_t`, which is at most `INT_MAX`. -/
def unlimited : ℕ := 0x7fffffff

/-- `pread`: what it returns, and the bytes it stores. -/
def pread (r : FileReader) (count offset : ℤ) : ℤ × Bytes :=
  match r.contents with
  | none => (-1, [])
  | some file =>
      if count < 0 ∨ offset < 0 then (-1, [])
      else
        let bytes := (file.drop offset.toNat).take (min count.toNat r.limit)
        (bytes.length, bytes)

/-- `read`, into memory that holds `buf`. -/
def read (r : FileReader) (buf : Bytes) (count offset : ℤ) : DBStatus × Bytes :=
  let (cnt, bytes) := r.pread count offset
  let buf := bytes ++ buf.drop bytes.length
  if cnt = count then (.success, buf) else (.execFailed, buf)

variable {file buf : Bytes} {limit count offset : ℕ}

/-- **A read inside the file fills the buffer**, when one `pread` transfers so much. -/
theorem read_of_le (h : offset + count ≤ file.length) (hlimit : count ≤ limit)
    (hbuf : buf.length = count) :
    read ⟨some file, limit⟩ buf count offset = (.success, (file.drop offset).take count) := by
  have hlen : ((file.drop offset).take count).length = count := by
    rw [List.length_take, List.length_drop]
    omega
  have hneg : ¬ ((count : ℤ) < 0 ∨ (offset : ℤ) < 0) := by omega
  simp only [read, pread, if_neg hneg, Int.toNat_natCast, Nat.min_eq_left hlimit, hlen, ↓reduceIte]
  rw [List.drop_of_length_le hbuf.le, List.append_nil]

/-- **A read past the end of the file fails**, and so does one of more bytes than `pread`
transfers. -/
theorem read_of_lt (h : file.length < offset + count ∨ limit < count) (hpos : 0 < count) :
    (read ⟨some file, limit⟩ buf count offset).1 = .execFailed := by
  have hlen : ((file.drop offset).take (min count limit)).length ≠ count := by
    rw [List.length_take, List.length_drop]
    omega
  have hneg : ¬ ((count : ℤ) < 0 ∨ (offset : ℤ) < 0) := by omega
  simp only [read, pread, if_neg hneg, Int.toNat_natCast, Nat.cast_inj, if_neg hlen]

/-- A negative count passes for read when it is what `pread` returns. -/
theorem read_of_neg {count offset : ℤ} (h : count < 0) :
    read ⟨some file, limit⟩ buf count offset = (if count = -1 then .success else .execFailed, buf) := by
  simp only [read, pread, if_pos (Or.inl h : count < 0 ∨ offset < 0), List.length_nil,
    List.nil_append, List.drop_zero, eq_comm (a := (-1 : ℤ))]
  split_ifs <;> rfl

/-- **A read at a negative offset fails.** -/
theorem read_of_offset_neg (r : FileReader) {count offset : ℤ} (hcount : 0 ≤ count)
    (hoffset : offset < 0) : r.read buf count offset = (.execFailed, buf) := by
  have hpread : r.pread count offset = (-1, []) := by
    rw [pread]
    split
    · rfl
    · rw [if_pos (Or.inr hoffset)]
  have hne : ¬ (-1 : ℤ) = count := by omega
  simp only [read, hpread, if_neg hne, List.length_nil, List.nil_append, List.drop_zero]

end FileReader

end SmallKV

import SmallKV.Foundations.Bytes
import Mathlib.Data.List.TakeWhile

/-!
# Utils/StringView — `std::string_view` and what its `data()` reads as a C string

A view is a range of a longer buffer.  Where the source passes `data()` to something that takes a
`const char *`, the length is lost and the string runs to the first NUL, inside the view or behind
it (`cstr`).  The two agree on the views that are C strings (`cstr_of_isCStr`).
-/

namespace SmallKV

/-- A `std::string_view`: its bytes, and the bytes of the buffer behind it up to the next NUL. -/
structure StringView where
  bytes : Bytes
  tail : Bytes
  deriving DecidableEq, Repr

namespace StringView

/-- A view of a whole string or literal: a NUL follows. -/
def ofBytes (bytes : Bytes) : StringView := ⟨bytes, []⟩

/-- `data()` read as a C string. -/
def cstr (v : StringView) : Bytes := (v.bytes ++ v.tail).takeWhile (· ≠ 0)

/-- `empty()`. -/
def empty (v : StringView) : Bool := v.bytes.isEmpty

/-- The view holds no NUL, and one follows it. -/
def IsCStr (v : StringView) : Prop := (∀ b ∈ v.bytes, b ≠ 0) ∧ v.tail.takeWhile (· ≠ 0) = []

instance : DecidablePred IsCStr := fun v =>
  @instDecidableAnd _ _ (List.decidableBAll _ v.bytes) inferInstance

/-- **On a C string `data()` loses nothing.** -/
theorem cstr_of_isCStr {v : StringView} (h : v.IsCStr) : v.cstr = v.bytes := by
  rw [cstr, List.takeWhile_append_of_pos (by simpa using h.1), h.2, List.append_nil]

theorem isCStr_ofBytes {bytes : Bytes} (h : ∀ b ∈ bytes, b ≠ 0) : (ofBytes bytes).IsCStr :=
  ⟨h, rfl⟩

/-- A C string holds no NUL. -/
theorem ne_zero_of_mem_cstr {v : StringView} : ∀ b ∈ v.cstr, b ≠ 0 := by
  intro b hb
  simpa using List.mem_takeWhile_imp hb

/-- **A view is read as it is exactly when it is a C string.** -/
theorem cstr_eq_bytes_iff {v : StringView} : v.cstr = v.bytes ↔ v.IsCStr := by
  refine ⟨fun h => ?_, cstr_of_isCStr⟩
  have hfree : ∀ b ∈ v.bytes, b ≠ 0 := h ▸ ne_zero_of_mem_cstr
  rw [cstr, List.takeWhile_append_of_pos (by simpa using hfree)] at h
  exact ⟨hfree, List.append_right_eq_self.mp h⟩

end StringView

end SmallKV

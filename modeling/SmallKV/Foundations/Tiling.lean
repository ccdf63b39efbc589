import Mathlib.Data.List.Range
import Mathlib.Order.Monotone.Basic
import Mathlib.Tactic.Linarith

/-!
# Foundations/Tiling — ranges that follow one another without gap or overlap

A range is its start and its size.  The ranges between the values of a monotone sequence tile; kept
in words that cannot hold every number they tile exactly when no start and no size is too large
(`tiles_wrap_iff`).
-/

namespace SmallKV

/-- The ranges follow one another from `lo` to `hi`. -/
def Tiles (lo hi : ℤ) : List (ℤ × ℤ) → Prop
  | [] => lo = hi
  | (start, size) :: ranges => start = lo ∧ 0 ≤ size ∧ Tiles (lo + size) hi ranges

section Wrap

variable {wrap : ℕ → ℤ} {s : ℕ → ℕ}

/-- Range `i` of a sequence, in words. -/
def wrapped (wrap : ℕ → ℤ) (s : ℕ → ℕ) (i : ℕ) : ℤ × ℤ := (wrap (s i), wrap (s (i + 1) - s i))

/-- Words that are never too large cannot tile from below the start of the sequence. -/
theorem le_of_tiles_wrapped (hwrap : ∀ n : ℕ, wrap n ≤ n) (hs : Monotone s) :
    ∀ {m a : ℕ} {lo : ℤ}, Tiles lo (s (a + m)) ((List.range' a m).map (wrapped wrap s)) → s a ≤ lo
  | 0, a, lo, h => by
      have hlo : lo = s a := h
      exact hlo.ge
  | m + 1, a, lo, h => by
      rw [List.range'_succ, List.map_cons, ← Nat.succ_add_eq_add_succ] at h
      obtain ⟨-, -, hrest⟩ := h
      have hnext := le_of_tiles_wrapped hwrap hs hrest
      have hsize := hwrap (s (a + 1) - s a)
      have hmono := hs (Nat.le_succ a)
      rw [Nat.succ_eq_add_one] at *
      omega

/-- **Words tile exactly when every start and every size fits.** -/
theorem tiles_wrap_iff (hwrap : ∀ n : ℕ, wrap n ≤ n) (hs : Monotone s) : ∀ {m a : ℕ},
    Tiles (s a) (s (a + m)) ((List.range' a m).map (wrapped wrap s)) ↔
      ∀ i, a ≤ i → i < a + m → wrap (s i) = s i ∧ wrap (s (i + 1) - s i) = (s (i + 1) - s i : ℕ)
  | 0, a => iff_of_true rfl fun i hi hlt => absurd hlt (Nat.not_lt.mpr hi)
  | m + 1, a => by
      have hmono : s a ≤ s (a + 1) := hs (Nat.le_succ a)
      rw [List.range'_succ, List.map_cons, ← Nat.succ_add_eq_add_succ]
      constructor
      · rintro ⟨hstart, hpos, hrest⟩ i hi hlt
        -- the rest tiles from no lower than its own start, so nothing is lost here
        have hlow := le_of_tiles_wrapped hwrap hs hrest
        have hsize : wrap (s (a + 1) - s a) = (s (a + 1) - s a : ℕ) := by
          have hle := hwrap (s (a + 1) - s a)
          rw [Nat.succ_eq_add_one] at hlow
          omega
        rcases Nat.eq_or_lt_of_le hi with rfl | hgt
        · exact ⟨hstart, hsize⟩
        · have hnext : (s a : ℤ) + wrap (s (a + 1) - s a) = s (a + 1) := by omega
          rw [hnext] at hrest
          exact (tiles_wrap_iff hwrap hs).mp hrest i hgt hlt
      · intro h
        obtain ⟨hstart, hsize⟩ := h a le_rfl (by omega)
        have hnext : (s a : ℤ) + wrap (s (a + 1) - s a) = s (a + 1) := by omega
        refine ⟨hstart, by omega, ?_⟩
        rw [hnext]
        exact (tiles_wrap_iff hwrap hs).mpr fun i hi hlt => h i (by omega) hlt

end Wrap

end SmallKV

import SmallKV.Utils.Codec

/-!
# Utils/Decimal — `std::to_string` and `std::stoi`

`std::stoi` skips white space, takes a sign and as many digits as there are, and throws when there
is none or the number is no `int`.  It reads back what `std::to_string` writes, in front of
anything that is no digit (`stoi_toDecimal`).
-/

namespace SmallKV

/-- `isspace`. -/
def isSpace (b : UInt8) : Bool := b = 32 || (9 ≤ b && b ≤ 13)

/-- `isdigit`. -/
def isDigit (b : UInt8) : Bool := 48 ≤ b && b ≤ 57

/-- The number that a string of digits denotes. -/
def ofDigits (ds : Bytes) : ℕ := ds.foldl (fun n b => 10 * n + (b.toNat - 48)) 0

/-- The digits at the front of a string, with their sign. -/
def stoiDigits (neg : Bool) (s : Bytes) : Option ℤ :=
  let ds := s.takeWhile isDigit
  let n : ℤ := if neg then -ofDigits ds else ofDigits ds
  if ds = [] ∨ n < -0x80000000 ∨ 0x80000000 ≤ n then none else some n

/-- `std::stoi`; an exception is `none`. -/
def stoi (s : Bytes) : Option ℤ :=
  match s.dropWhile isSpace with
  | 45 :: s => stoiDigits true s
  | 43 :: s => stoiDigits false s
  | s => stoiDigits false s

/-! ## Reading back -/

/-- The characters that `std::to_string` writes. -/
theorem bounds_of_mem_toDigits {n : ℕ} {c : Char} (h : c ∈ Nat.toDigits 10 n) :
    48 ≤ c.toNat ∧ c.toNat ≤ 57 :=
  Char.isDigit_iff_toNat.mp (Nat.isDigit_of_mem_toDigits (by decide) (by decide) h)

theorem isDigit_of_mem_toDecimal {n : ℕ} {b : UInt8} (h : b ∈ toDecimal n) : isDigit b = true := by
  obtain ⟨c, hc, rfl⟩ := List.mem_map.mp h
  obtain ⟨hlow, hhigh⟩ := bounds_of_mem_toDigits hc
  have hc : (UInt8.ofNat c.toNat).toNat = c.toNat := by
    rw [UInt8.toNat_ofNat']
    omega
  simp only [isDigit, Bool.and_eq_true, decide_eq_true_eq, UInt8.le_iff_toNat_le, hc]
  exact ⟨hlow, hhigh⟩

/-- The number of a list of characters and of their bytes. -/
theorem ofDigits_map : ∀ (cs : List Char), (∀ c ∈ cs, c.toNat ≤ 57) → ∀ n : ℕ,
    (cs.map fun c => UInt8.ofNat c.toNat).foldl (fun n b => 10 * n + (b.toNat - 48)) n =
      Nat.ofDigitChars 10 cs n
  | [], _, _ => rfl
  | c :: cs, h, n => by
      have hc : (UInt8.ofNat c.toNat).toNat = c.toNat := by
        have := h c List.mem_cons_self
        rw [UInt8.toNat_ofNat']
        omega
      rw [List.map_cons, List.foldl_cons, hc, Nat.ofDigitChars_cons,
        ofDigits_map cs fun d hd => h d (List.mem_cons_of_mem c hd)]
      rfl

theorem ofDigits_toDecimal (n : ℕ) : ofDigits (toDecimal n) = n := by
  rw [ofDigits, toDecimal, ofDigits_map _ fun c hc => (bounds_of_mem_toDigits hc).2,
    Nat.ofDigitChars_ten_toDigits]

/-- `std::to_string` tells numbers apart. -/
theorem toDecimal_injective : Function.Injective toDecimal :=
  Function.LeftInverse.injective ofDigits_toDecimal

theorem toDecimal_ne_nil (n : ℕ) : toDecimal n ≠ [] := by
  simp [toDecimal, Nat.toDigits_ne_nil]

/-- A digit is neither white space nor a sign. -/
theorem isDigit_not {b : UInt8} (h : isDigit b = true) :
    isSpace b = false ∧ b ≠ 45 ∧ b ≠ 43 := by
  simp only [isDigit, Bool.and_eq_true, decide_eq_true_eq, UInt8.le_iff_toNat_le] at h
  have hlow : 48 ≤ b.toNat := h.1
  refine ⟨?_, ?_, ?_⟩
  · rw [← Bool.not_eq_true]
    simp only [isSpace, Bool.or_eq_true, Bool.and_eq_true, decide_eq_true_eq,
      UInt8.le_iff_toNat_le, ← UInt8.toNat_inj]
    rintro (h32 | ⟨-, h13⟩)
    · exact absurd (h32 ▸ hlow) (by decide)
    · exact absurd (hlow.trans h13) (by decide)
  · rintro rfl
    exact absurd hlow (by decide)
  · rintro rfl
    exact absurd hlow (by decide)

/-- The string of digits denotes the number. -/
structure IsNumeral (ds : Bytes) (n : ℕ) : Prop where
  ne_nil : ds ≠ []
  digits : ∀ d ∈ ds, isDigit d = true
  value : ofDigits ds = n

theorem isNumeral_toDecimal (n : ℕ) : IsNumeral (toDecimal n) n :=
  ⟨toDecimal_ne_nil n, fun _ => isDigit_of_mem_toDecimal, ofDigits_toDecimal n⟩

/-- **`std::stoi` reads a numeral that is an `int`**, in front of anything that is no digit. -/
theorem stoi_numeral {ds : Bytes} {n : ℕ} (h : IsNumeral ds n) {b : UInt8}
    (hb : isDigit b = false) (rest : Bytes) :
    stoi (ds ++ b :: rest) = if n < 2 ^ 31 then some (n : ℤ) else none := by
  obtain ⟨d, ds', hds⟩ := List.exists_cons_of_ne_nil h.ne_nil
  obtain ⟨hspace, hminus, hplus⟩ := isDigit_not (h.digits d (hds ▸ List.mem_cons_self))
  have hdrop : (ds ++ b :: rest).dropWhile isSpace = ds ++ b :: rest := by
    rw [hds, List.cons_append, List.dropWhile_cons_of_neg (by simp [hspace])]
  have hdigits : (ds ++ b :: rest).takeWhile isDigit = ds := by
    rw [List.takeWhile_append_of_pos h.digits, List.takeWhile_cons_of_neg (by simp [hb]),
      List.append_nil]
  have hunsigned : stoi (ds ++ b :: rest) = stoiDigits false (ds ++ b :: rest) := by
    rw [stoi, hdrop, hds, List.cons_append]
    split
    · rename_i heq
      exact absurd (List.cons.inj heq).1 hminus
    · rename_i heq
      exact absurd (List.cons.inj heq).1 hplus
    · rfl
  rw [hunsigned, stoiDigits, hdigits, h.value]
  by_cases hn : n < 2 ^ 31
  · rw [if_pos hn, if_neg]
    · rfl
    · have hne := h.ne_nil
      simp [hne]
      omega
  · rw [if_neg hn, if_pos]
    simp
    omega

/-- **`std::stoi` reads back what `std::to_string` writes.** -/
theorem stoi_toDecimal {n : ℕ} (hn : n < 2 ^ 31) {b : UInt8} (hb : isDigit b = false)
    (rest : Bytes) : stoi (toDecimal n ++ b :: rest) = some n := by
  rw [stoi_numeral (isNumeral_toDecimal n) hb, if_pos hn]
  rfl

end SmallKV

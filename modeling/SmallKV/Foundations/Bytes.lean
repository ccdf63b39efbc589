import Mathlib.Order.Lex
import Mathlib.Data.List.Lex
import Mathlib.Data.Nat.Basic
import Mathlib.Tactic.Ring
import Mathlib.Tactic.Linarith

/-!
# Foundations/Bytes — byte strings, their order, and little-endian numerals

`Bytes` is ordered as `std::string` is: lexicographically, bytes compared unsigned.
`leBytes w n` writes the low `w` base-256 digits of `n`, least significant first, and `leNat` reads
such digits back; each inverts the other at a fixed width (`leNat_leBytes`, `leBytes_leNat`).
-/

namespace SmallKV

/-- A byte string. -/
abbrev Bytes := List UInt8

instance instLinearOrderUInt8 : LinearOrder UInt8 where
  le_refl a := UInt8.le_refl a
  le_trans _ _ _ := UInt8.le_trans
  lt_iff_le_not_ge a b := by simp only [UInt8.le_iff_toNat_le, UInt8.lt_iff_toNat_lt]; omega
  le_antisymm a b hab hba := UInt8.le_antisymm hab hba
  le_total a b := UInt8.le_total a b
  toDecidableLE := inferInstance
  toDecidableLT := inferInstance
  toDecidableEq := inferInstance

/-! ## Little-endian numerals -/

/-- The low `w` base-256 digits of `n`, least significant first. -/
def leBytes : ℕ → ℕ → Bytes
  | 0, _ => []
  | w + 1, n => UInt8.ofNat n :: leBytes w (n / 256)

/-- The number a little-endian digit string denotes. -/
def leNat : Bytes → ℕ
  | [] => 0
  | b :: bs => b.toNat + 256 * leNat bs

@[simp] theorem length_leBytes : ∀ w n : ℕ, (leBytes w n).length = w
  | 0, _ => rfl
  | w + 1, n => by rw [leBytes, List.length_cons, length_leBytes w (n / 256)]

/-- **Reading back what was written gives the number modulo the width.** -/
theorem leNat_leBytes : ∀ w n : ℕ, leNat (leBytes w n) = n % 256 ^ w
  | 0, n => by simp [leBytes, leNat, Nat.mod_one]
  | w + 1, n => by
      have hdigit : (UInt8.ofNat n).toNat = n % 256 := by simp
      rw [leBytes, leNat, leNat_leBytes w (n / 256), hdigit, Nat.pow_succ', Nat.mod_mul]

theorem leNat_lt : ∀ bs : Bytes, leNat bs < 256 ^ bs.length
  | [] => by simp [leNat]
  | b :: bs => by
      have hb : b.toNat < 256 := b.toNat_lt
      have htail := leNat_lt bs
      rw [leNat, List.length_cons, Nat.pow_succ']
      omega

/-- The digits of a number are those of its low part, then those of its high part. -/
theorem leBytes_append {w y : ℕ} : ∀ {v x : ℕ}, x < 256 ^ v →
    leBytes (v + w) (x + 256 ^ v * y) = leBytes v x ++ leBytes w y
  | 0, x, hx => by
      obtain rfl : x = 0 := by simpa using hx
      simp [leBytes]
  | v + 1, x, hx => by
      rw [Nat.pow_succ'] at hx ⊢
      have hlow : UInt8.ofNat (x + 256 * 256 ^ v * y) = UInt8.ofNat x := by
        apply UInt8.toNat_inj.mp
        rw [UInt8.toNat_ofNat', UInt8.toNat_ofNat', Nat.mul_assoc]
        omega
      have hhigh : (x + 256 * 256 ^ v * y) / 256 = x / 256 + 256 ^ v * y := by
        rw [Nat.mul_assoc]
        omega
      rw [Nat.succ_add, leBytes, leBytes, hlow, hhigh, leBytes_append (by omega), List.cons_append]

/-- **Writing back what was read gives the digits.** -/
theorem leBytes_leNat : ∀ bs : Bytes, leBytes bs.length (leNat bs) = bs
  | [] => rfl
  | b :: bs => by
      have hb : b.toNat < 256 := b.toNat_lt
      have hlow : UInt8.ofNat (b.toNat + 256 * leNat bs) = b := by
        apply UInt8.toNat_inj.mp
        rw [UInt8.toNat_ofNat']
        omega
      have hhigh : (b.toNat + 256 * leNat bs) / 256 = leNat bs := by omega
      rw [List.length_cons, leNat, leBytes, hlow, hhigh, leBytes_leNat bs]

end SmallKV

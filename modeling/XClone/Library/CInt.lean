import Mathlib.Data.Int.Basic

/-! # Machine integers of the kernel's C

Values of `int`, `loff_t` and `size_t` are kept as integers and reduced into the
range of the type at every assignment that may leave it.
-/
namespace CInt

/-- Conversion to a signed 32-bit `int`. -/
def toInt (x : ℤ) : ℤ := (x + 2147483648) % 4294967296 - 2147483648

/-- Conversion to a signed 64-bit `long` or `loff_t`. -/
def toLong (x : ℤ) : ℤ := (x + 9223372036854775808) % 18446744073709551616 - 9223372036854775808

/-- Conversion to an unsigned 64-bit `size_t`. -/
def toSize (x : ℤ) : ℕ := (x % 18446744073709551616).toNat

/-- Conversion to an `unsigned int`. -/
def toUInt (x : ℤ) : ℕ := (x % 4294967296).toNat

theorem toInt_eq {x : ℤ} (h : -2147483648 ≤ x) (h' : x < 2147483648) : toInt x = x := by
  unfold toInt
  omega

theorem toInt_natCast {n : ℕ} (h : n < 2147483648) : toInt n = n := toInt_eq (by omega) (by omega)

theorem toLong_eq {x : ℤ} (h : -9223372036854775808 ≤ x) (h' : x < 9223372036854775808) :
    toLong x = x := by
  unfold toLong
  omega

theorem toSize_natCast {n : ℕ} (h : n < 18446744073709551616) : toSize n = n := by
  unfold toSize
  omega

theorem toUInt_natCast {n : ℕ} (h : n < 4294967296) : toUInt n = n := by
  unfold toUInt
  omega

theorem toInt_bounds (x : ℤ) : -2147483648 ≤ toInt x ∧ toInt x < 2147483648 := by
  unfold toInt
  omega

theorem toInt_add_toInt (x y : ℤ) : toInt (toInt x + y) = toInt (x + y) := by
  unfold toInt
  omega

end CInt

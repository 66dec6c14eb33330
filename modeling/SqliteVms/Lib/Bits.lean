import Mathlib.Data.Nat.Bitwise

/-!
# Bit fields

Masks and shifts of numbers that are put together from fields: on `x * 2 ^ k + y` the bitwise
operations work on the fields one by one.

## Main results

* `Bits.or_fields`, `Bits.and_fields` — the two operations field by field
* `Bits.or_low` — a field put below another one
-/

namespace Bits

variable {k x y z w : ℕ}

/-- The high field of a number. -/
theorem add_div_two_pow (hy : y < 2 ^ k) : (x * 2 ^ k + y) / 2 ^ k = x := by
  rw [Nat.mul_comm, Nat.mul_add_div (Nat.two_pow_pos k), Nat.div_eq_of_lt hy, Nat.add_zero]

/-- The low field of a number. -/
theorem add_mod_two_pow (hy : y < 2 ^ k) : (x * 2 ^ k + y) % 2 ^ k = y := by
  rw [Nat.mul_comm, Nat.mul_add_mod, Nat.mod_eq_of_lt hy]

/-- `|||` field by field. -/
theorem or_fields (hy : y < 2 ^ k) (hw : w < 2 ^ k) :
    (x * 2 ^ k + y) ||| (z * 2 ^ k + w) = (x ||| z) * 2 ^ k + (y ||| w) := by
  rw [← Nat.div_add_mod' ((x * 2 ^ k + y) ||| (z * 2 ^ k + w)) (2 ^ k), Nat.or_div_two_pow,
    Nat.or_mod_two_pow, add_div_two_pow hy, add_div_two_pow hw, add_mod_two_pow hy,
    add_mod_two_pow hw]

/-- `&&&` field by field. -/
theorem and_fields (hy : y < 2 ^ k) (hw : w < 2 ^ k) :
    (x * 2 ^ k + y) &&& (z * 2 ^ k + w) = (x &&& z) * 2 ^ k + (y &&& w) := by
  rw [← Nat.div_add_mod' ((x * 2 ^ k + y) &&& (z * 2 ^ k + w)) (2 ^ k), Nat.and_div_two_pow,
    Nat.and_mod_two_pow, add_div_two_pow hy, add_div_two_pow hw, add_mod_two_pow hy,
    add_mod_two_pow hw]

/-- Setting a low field that is empty is adding to it. -/
theorem or_low (hy : y < 2 ^ k) : x * 2 ^ k ||| y = x * 2 ^ k + y := by
  rw [Nat.mul_comm]
  exact (Nat.two_pow_add_eq_or_of_lt hy x).symm

end Bits

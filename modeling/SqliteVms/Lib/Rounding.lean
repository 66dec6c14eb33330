import Mathlib.Data.Nat.Log
import Mathlib.Tactic.Ring

/-!
# Rounding to a number of bits

Rounding to nearest with ties to even, first to a multiple of a given number and then to a given
number of significant bits. Both are monotone: this is all that comparisons through a rounding
conversion rest on.

## Main definitions

* `Rounding.divEven` — a quotient, rounded
* `Rounding.toBits`, `Rounding.intToBits` — a number with its leading bits only

## Main results

* `Rounding.divEven_mono`, `toBits_mono`, `intToBits_mono`
-/

namespace Rounding

/-- The quotient `n / d`, rounded to nearest, and to the even one if both are equally near. -/
def divEven (n d : ℕ) : ℕ :=
  if d < 2 * (n % d) ∨ 2 * (n % d) = d ∧ n / d % 2 = 1 then n / d + 1 else n / d

theorem le_divEven (n d : ℕ) : n / d ≤ divEven n d := by
  rw [divEven]
  split <;> omega

theorem divEven_le (n d : ℕ) : divEven n d ≤ n / d + 1 := by
  rw [divEven]
  split <;> omega

theorem divEven_mono {m n d : ℕ} (h : m ≤ n) : divEven m d ≤ divEven n d := by
  rcases (Nat.div_le_div_right (c := d) h).lt_or_eq with hlt | heq
  · exact (divEven_le m d).trans ((Nat.succ_le_of_lt hlt).trans (le_divEven n d))
  · -- with equal quotients the remainders are in the same order
    have hm := Nat.div_add_mod m d
    have hn := Nat.div_add_mod n d
    rw [heq] at hm
    have hrem : m % d ≤ n % d := by omega
    rw [divEven, divEven, heq]
    split
    · rename_i hup
      rw [if_pos]
      omega
    · split <;> omega

/-- `n` rounded to `p` significant bits. -/
def toBits (p n : ℕ) : ℕ :=
  if n < 2 ^ p then n
  else divEven n (2 ^ (Nat.log 2 n + 1 - p)) * 2 ^ (Nat.log 2 n + 1 - p)

theorem toBits_of_lt {p n : ℕ} (h : n < 2 ^ p) : toBits p n = n := if_pos h

variable {p : ℕ}

/-- The number of bits of a number that has more than `p`. -/
theorem le_log_of_le {n : ℕ} (h : 2 ^ p ≤ n) : p ≤ Nat.log 2 n :=
  (Nat.le_log_iff_pow_le one_lt_two (by have := Nat.two_pow_pos p; omega)).mpr h

/-- The quotient that is rounded has `p` bits. -/
theorem log_add_one_sub {n : ℕ} (hp : 0 < p) (h : 2 ^ p ≤ n) :
    p - 1 + (Nat.log 2 n + 1 - p) = Nat.log 2 n := by
  have hlog := le_log_of_le h
  omega

/-- Rounding does not go below the power of two below the number. -/
theorem pow_log_le_toBits {n : ℕ} (hp : 0 < p) (h : 2 ^ p ≤ n) :
    2 ^ Nat.log 2 n ≤ toBits p n := by
  have hn : n ≠ 0 := by have := Nat.two_pow_pos p; omega
  rw [toBits, if_neg (by omega)]
  have hquot : 2 ^ (p - 1) ≤ n / 2 ^ (Nat.log 2 n + 1 - p) := by
    rw [Nat.le_div_iff_mul_le (Nat.two_pow_pos _), ← pow_add, log_add_one_sub hp h]
    exact Nat.pow_log_le_self 2 hn
  calc 2 ^ Nat.log 2 n = 2 ^ (p - 1) * 2 ^ (Nat.log 2 n + 1 - p) := by
        rw [← pow_add, log_add_one_sub hp h]
    _ ≤ divEven n (2 ^ (Nat.log 2 n + 1 - p)) * 2 ^ (Nat.log 2 n + 1 - p) :=
        Nat.mul_le_mul_right _ (hquot.trans (le_divEven _ _))

/-- Nor above the next power of two. -/
theorem toBits_le_pow_log {n : ℕ} (h : 2 ^ p ≤ n) :
    toBits p n ≤ 2 ^ (Nat.log 2 n + 1) := by
  have hlog := le_log_of_le h
  rw [toBits, if_neg (by omega)]
  have hquot : n / 2 ^ (Nat.log 2 n + 1 - p) < 2 ^ p := by
    rw [Nat.div_lt_iff_lt_mul (Nat.two_pow_pos _), ← pow_add,
      show p + (Nat.log 2 n + 1 - p) = Nat.log 2 n + 1 by omega]
    exact Nat.lt_pow_succ_log_self one_lt_two n
  calc divEven n (2 ^ (Nat.log 2 n + 1 - p)) * 2 ^ (Nat.log 2 n + 1 - p)
      ≤ 2 ^ p * 2 ^ (Nat.log 2 n + 1 - p) :=
        Nat.mul_le_mul_right _ ((divEven_le _ _).trans hquot)
    _ = 2 ^ (Nat.log 2 n + 1) := by
        rw [← pow_add, show p + (Nat.log 2 n + 1 - p) = Nat.log 2 n + 1 by omega]

/-- **Rounding to `p` bits is monotone.** -/
theorem toBits_mono (hp : 0 < p) {m n : ℕ} (h : m ≤ n) : toBits p m ≤ toBits p n := by
  rcases Nat.lt_or_ge n (2 ^ p) with hn | hn
  · rw [toBits_of_lt hn, toBits_of_lt (h.trans_lt hn)]
    exact h
  have hn0 : n ≠ 0 := by have := Nat.two_pow_pos p; omega
  rcases Nat.lt_or_ge m (2 ^ p) with hm | hm
  · rw [toBits_of_lt hm]
    calc m ≤ 2 ^ p := hm.le
      _ ≤ 2 ^ Nat.log 2 n := Nat.pow_le_pow_right two_pos (le_log_of_le hn)
      _ ≤ toBits p n := pow_log_le_toBits hp hn
  · rcases (Nat.log_mono_right (b := 2) h).lt_or_eq with hlt | heq
    · calc toBits p m ≤ 2 ^ (Nat.log 2 m + 1) := toBits_le_pow_log hm
        _ ≤ 2 ^ Nat.log 2 n := Nat.pow_le_pow_right two_pos hlt
        _ ≤ toBits p n := pow_log_le_toBits hp hn
    · -- numbers of the same length are rounded to multiples of the same power
      rw [toBits, toBits, if_neg (by omega), if_neg (by omega), heq]
      exact Nat.mul_le_mul_right _ (divEven_mono h)

/-! ### Integers -/

/-- `i` rounded to `p` significant bits, with its sign. -/
def intToBits (p : ℕ) (i : ℤ) : ℤ :=
  if 0 ≤ i then (toBits p i.toNat : ℤ) else -(toBits p (-i).toNat : ℤ)

/-- **Rounding integers is monotone.** -/
theorem intToBits_mono (hp : 0 < p) {i j : ℤ} (h : i ≤ j) : intToBits p i ≤ intToBits p j := by
  rw [intToBits, intToBits]
  split
  · rename_i hi
    rw [if_pos (hi.trans h)]
    exact Int.ofNat_le.mpr (toBits_mono hp (Int.toNat_le_toNat h))
  · split
    · exact (neg_nonpos.mpr (Int.natCast_nonneg _)).trans (Int.natCast_nonneg _)
    · exact neg_le_neg (Int.ofNat_le.mpr (toBits_mono hp (Int.toNat_le_toNat (neg_le_neg h))))

end Rounding

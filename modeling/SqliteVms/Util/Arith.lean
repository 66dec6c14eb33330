import Mathlib.Algebra.Order.Ring.Abs
import Mathlib.Tactic.Linarith
import Mathlib.Tactic.LinearCombination
import Mathlib.Tactic.Ring

/-!
# Checked arithmetic on 64-bit integers

`sqlite3AddInt64`, `sqlite3SubInt64` and `sqlite3MulInt64` of `util.c`. Every expression of type
`i64` is checked where it is evaluated, so `none` means that one of them overflows.

The multiplication splits its operands into halves. It checks everything but the product of the two
low halves, which can need 64 bits and a sign.

## Main results

* `sqlite3AddInt64_spec`, `sqlite3SubInt64_spec` — the sum and the difference
* `sqlite3MulInt64_spec` — the product, where that of the low halves does not overflow
* `arith_exact_iff` — when all three are exact
-/

namespace SqliteVms

namespace Arith

/-! ### The code -/

/-- `LARGEST_INT64`. -/
def largestInt64 : ℤ := 9223372036854775807

/-- `SMALLEST_INT64`. -/
def smallestInt64 : ℤ := -1 - largestInt64

/-- The values of an `i64`. -/
def IsI64 (x : ℤ) : Prop := smallestInt64 ≤ x ∧ x ≤ largestInt64

instance (x : ℤ) : Decidable (IsI64 x) := inferInstanceAs (Decidable (_ ∧ _))

/-- An expression of type `i64`. -/
def i64 (x : ℤ) : Option ℤ := if IsI64 x then some x else none

/-- `sqlite3AddInt64`: the result code and `*pA`. -/
def sqlite3AddInt64 (iA iB : ℤ) : Option (ℕ × ℤ) :=
  if 0 ≤ iB then do
    let fails ←
      if 0 < iA then do
        let room ← i64 (largestInt64 - iA)
        some (decide (room < iB))
      else some false
    if fails = true then some (1, iA) else (i64 (iA + iB)).map (0, ·)
  else do
    let fails ←
      if iA < 0 then do
        let sum ← i64 (iA + largestInt64)
        let room ← i64 (-sum)
        let next ← i64 (iB + 1)
        some (decide (next < room))
      else some false
    if fails = true then some (1, iA) else (i64 (iA + iB)).map (0, ·)

def sqlite3SubInt64 (iA iB : ℤ) : Option (ℕ × ℤ) :=
  if iB = smallestInt64 then
    if 0 ≤ iA then some (1, iA) else (i64 (iA - iB)).map (0, ·)
  else (i64 (-iB)).bind fun iB => sqlite3AddInt64 iA iB

/-- `TWOPOWER32`. -/
def twopower32 : ℤ := 4294967296

/-- `TWOPOWER31`. -/
def twopower31 : ℤ := 2147483648

def sqlite3MulInt64 (iA iB : ℤ) : Option (ℕ × ℤ) := do
  let iA1 := iA.tdiv twopower32
  let iA0 := iA.tmod twopower32
  let iB1 := iB.tdiv twopower32
  let iB0 := iB.tmod twopower32
  let high ← i64 (iA1 * iB1)
  if high ≠ 0 then some (1, iA)
  else do
    let r₁ ← i64 (iA1 * iB0)
    let r₂ ← i64 (iA0 * iB1)
    let r ← i64 (r₁ + r₂)
    if r < -twopower31 ∨ twopower31 ≤ r then some (1, iA)
    else do
      let r ← i64 (r * twopower32)
      let low ← i64 (iA0 * iB0)
      let s ← sqlite3AddInt64 r low
      if s.1 ≠ 0 then some (1, iA) else some (0, s.2)

/-- What is asked for the result `v`: it is stored if it fits, and `*pA` is as it was otherwise. -/
def exact (iA v : ℤ) : Option (ℕ × ℤ) := some (if IsI64 v then (0, v) else (1, iA))

/-! ### Sum and difference -/

variable {iA iB : ℤ}

theorem i64_eq {x : ℤ} (h : IsI64 x) : i64 x = some x := if_pos h

theorem i64_eq_none {x : ℤ} (h : ¬IsI64 x) : i64 x = none := if_neg h

theorem exact_pos {v : ℤ} (h : IsI64 v) : exact iA v = some (0, v) := by rw [exact, if_pos h]

theorem exact_neg {v : ℤ} (h : ¬IsI64 v) : exact iA v = some (1, iA) := by rw [exact, if_neg h]

/-- The addition at the end of both branches. -/
theorem store_spec {v : ℤ} {fails : Bool} (h : fails = true ↔ ¬IsI64 v) :
    (if fails = true then some (1, iA) else (i64 v).map (0, ·)) = exact iA v := by
  by_cases hv : IsI64 v
  · rw [if_neg fun hf => h.mp hf hv, i64_eq hv, exact_pos hv]
    rfl
  · rw [if_pos (h.mpr hv), exact_neg hv]

/-- **The sum.** -/
theorem sqlite3AddInt64_spec (hA : IsI64 iA) (hB : IsI64 iB) :
    sqlite3AddInt64 iA iB = exact iA (iA + iB) := by
  obtain ⟨hA₁, hA₂⟩ := hA
  obtain ⟨hB₁, hB₂⟩ := hB
  simp only [smallestInt64, largestInt64] at hA₁ hA₂ hB₁ hB₂
  rw [sqlite3AddInt64]
  split
  · rename_i hpos
    by_cases hA : 0 < iA
    · rw [if_pos hA, i64_eq (by simp only [IsI64, smallestInt64, largestInt64]; omega)]
      simp only [Option.bind_eq_bind, Option.bind_some]
      refine store_spec ?_
      rw [decide_eq_true_iff]
      simp only [IsI64, smallestInt64, largestInt64]
      omega
    · simp only [if_neg hA, Option.bind_eq_bind, Option.bind_some]
      refine store_spec ?_
      simp only [IsI64, smallestInt64, largestInt64, Bool.false_eq_true, false_iff, not_not]
      omega
  · rename_i hneg
    by_cases hA : iA < 0
    · have hsum : IsI64 (iA + largestInt64) := by
        simp only [IsI64, smallestInt64, largestInt64]
        omega
      have hroom : IsI64 (-(iA + largestInt64)) := by
        simp only [IsI64, smallestInt64, largestInt64]
        omega
      have hnext : IsI64 (iB + 1) := by
        simp only [IsI64, smallestInt64, largestInt64]
        omega
      simp only [if_pos hA, i64_eq hsum, i64_eq hroom, i64_eq hnext, Option.bind_eq_bind,
        Option.bind_some]
      refine store_spec ?_
      rw [decide_eq_true_iff]
      simp only [IsI64, smallestInt64, largestInt64]
      omega
    · simp only [if_neg hA, Option.bind_eq_bind, Option.bind_some]
      refine store_spec ?_
      simp only [IsI64, smallestInt64, largestInt64, Bool.false_eq_true, false_iff, not_not]
      omega

/-- **The difference.** -/
theorem sqlite3SubInt64_spec (hA : IsI64 iA) (hB : IsI64 iB) :
    sqlite3SubInt64 iA iB = exact iA (iA - iB) := by
  have hA' := hA
  have hB' := hB
  simp only [IsI64, smallestInt64, largestInt64] at hA' hB'
  rw [sqlite3SubInt64]
  split
  · rename_i hmin
    simp only [smallestInt64, largestInt64] at hmin
    split
    · rw [exact_neg (by simp only [IsI64, smallestInt64, largestInt64]; omega)]
    · have hfits : IsI64 (iA - iB) := by
        simp only [IsI64, smallestInt64, largestInt64]
        omega
      rw [i64_eq hfits, exact_pos hfits]
      rfl
  · rename_i hmin
    simp only [smallestInt64, largestInt64] at hmin
    have hneg : IsI64 (-iB) := by
      simp only [IsI64, smallestInt64, largestInt64]
      omega
    rw [i64_eq hneg, Option.bind_some, sqlite3AddInt64_spec hA hneg, sub_eq_add_neg]

/-! ### The product -/

/-- A number and its halves. -/
structure Halves (x x₁ x₀ : ℤ) : Prop where
  eq : x = twopower32 * x₁ + x₀
  low : |x₀| < twopower32
  nonneg : 0 ≤ x → 0 ≤ x₁ ∧ 0 ≤ x₀
  nonpos : x ≤ 0 → x₁ ≤ 0 ∧ x₀ ≤ 0

theorem Halves.neg {x x₁ x₀ : ℤ} (h : Halves x x₁ x₀) : Halves (-x) (-x₁) (-x₀) where
  eq := by rw [h.eq]; ring
  low := by rw [abs_neg]; exact h.low
  nonneg := fun hx => by
    obtain ⟨h₁, h₀⟩ := h.nonpos (by omega)
    omega
  nonpos := fun hx => by
    obtain ⟨h₁, h₀⟩ := h.nonneg (by omega)
    omega

theorem halves_of_nonneg {x : ℤ} (hx : 0 ≤ x) :
    Halves x (x.tdiv twopower32) (x.tmod twopower32) := by
  rw [Int.tdiv_eq_ediv_of_nonneg hx, Int.tmod_eq_emod_of_nonneg hx]
  refine ⟨(Int.mul_ediv_add_emod x twopower32).symm, ?_, fun _ => ?_, fun _ => ?_⟩
  · rw [abs_lt]
    simp only [twopower32]
    omega
  · simp only [twopower32]
    omega
  · simp only [twopower32]
    omega

theorem halves (x : ℤ) : Halves x (x.tdiv twopower32) (x.tmod twopower32) := by
  rcases le_total 0 x with hx | hx
  · exact halves_of_nonneg hx
  · have h := (halves_of_nonneg (neg_nonneg.mpr hx)).neg
    rwa [Int.neg_tdiv, Int.neg_tmod, neg_neg, neg_neg, neg_neg] at h

variable {a₁ a₀ b₁ b₀ : ℤ}

/-- The high half of an `i64`. -/
theorem Halves.high (h : Halves iA a₁ a₀) (hA : IsI64 iA) : |a₁| ≤ twopower31 := by
  have heq := h.eq
  have hlow := abs_lt.mp h.low
  simp only [IsI64, smallestInt64, largestInt64, twopower32] at hA heq hlow
  rw [abs_le]
  simp only [twopower31]
  omega

/-- A product of factors that are not too large. -/
theorem isI64_mul {x y m n : ℤ} (hx : |x| ≤ m) (hy : |y| ≤ n) (hmn : m * n ≤ largestInt64) :
    IsI64 (x * y) := by
  have habs : |x * y| ≤ m * n := by
    rw [abs_mul]
    exact mul_le_mul hx hy (abs_nonneg y) ((abs_nonneg x).trans hx)
  have hle := abs_le.mp (habs.trans hmn)
  simp only [IsI64, smallestInt64]
  omega

/-- With two high halves the product does not fit. -/
theorem not_isI64_of_high (hA : Halves iA a₁ a₀) (hB : Halves iB b₁ b₀) (h : a₁ * b₁ ≠ 0) :
    ¬IsI64 (iA * iB) := by
  have hlarge : ∀ {x x₁ x₀ : ℤ}, Halves x x₁ x₀ → x₁ ≠ 0 → twopower32 ≤ |x| := by
    intro x x₁ x₀ hx hne
    have heq := hx.eq
    have hnonneg := hx.nonneg
    have hnonpos := hx.nonpos
    simp only [twopower32] at heq ⊢
    rw [le_abs]
    omega
  obtain ⟨ha, hb⟩ := mul_ne_zero_iff.mp h
  have hmul := mul_le_mul (hlarge hA ha) (hlarge hB hb) (by decide) (abs_nonneg iA)
  rw [← abs_mul, le_abs] at hmul
  simp only [twopower32] at hmul
  simp only [IsI64, smallestInt64, largestInt64]
  omega

/-- With one high half at most the product is `2 ^ 32 * r` and the product of the low halves. -/
theorem mul_eq (hA : Halves iA a₁ a₀) (hB : Halves iB b₁ b₀) (h : a₁ * b₁ = 0) :
    iA * iB = (a₁ * b₀ + a₀ * b₁) * twopower32 + a₀ * b₀ := by
  rw [hA.eq, hB.eq]
  linear_combination twopower32 * twopower32 * h

/-- The product of the low halves has the sign of the rest. -/
theorem mul_sign (hA : Halves iA a₁ a₀) (hB : Halves iB b₁ b₀) :
    0 ≤ a₁ * b₀ + a₀ * b₁ ∧ 0 ≤ a₀ * b₀ ∨ a₁ * b₀ + a₀ * b₁ ≤ 0 ∧ a₀ * b₀ ≤ 0 := by
  rcases le_total 0 iA with ha | ha <;> rcases le_total 0 iB with hb | hb
  · obtain ⟨ha₁, ha₀⟩ := hA.nonneg ha
    obtain ⟨hb₁, hb₀⟩ := hB.nonneg hb
    exact Or.inl ⟨add_nonneg (mul_nonneg ha₁ hb₀) (mul_nonneg ha₀ hb₁), mul_nonneg ha₀ hb₀⟩
  · obtain ⟨ha₁, ha₀⟩ := hA.nonneg ha
    obtain ⟨hb₁, hb₀⟩ := hB.nonpos hb
    exact Or.inr ⟨add_nonpos (mul_nonpos_of_nonneg_of_nonpos ha₁ hb₀)
      (mul_nonpos_of_nonneg_of_nonpos ha₀ hb₁), mul_nonpos_of_nonneg_of_nonpos ha₀ hb₀⟩
  · obtain ⟨ha₁, ha₀⟩ := hA.nonpos ha
    obtain ⟨hb₁, hb₀⟩ := hB.nonneg hb
    exact Or.inr ⟨add_nonpos (mul_nonpos_of_nonpos_of_nonneg ha₁ hb₀)
      (mul_nonpos_of_nonpos_of_nonneg ha₀ hb₁), mul_nonpos_of_nonpos_of_nonneg ha₀ hb₀⟩
  · obtain ⟨ha₁, ha₀⟩ := hA.nonpos ha
    obtain ⟨hb₁, hb₀⟩ := hB.nonpos hb
    exact Or.inl ⟨add_nonneg (mul_nonneg_of_nonpos_of_nonpos ha₁ hb₀)
      (mul_nonneg_of_nonpos_of_nonpos ha₀ hb₁), mul_nonneg_of_nonpos_of_nonpos ha₀ hb₀⟩

/-- Where `r` does not fit in 32 bits, the product does not fit. -/
theorem not_isI64_of_middle (hA : Halves iA a₁ a₀) (hB : Halves iB b₁ b₀) (h : a₁ * b₁ = 0)
    (hr : a₁ * b₀ + a₀ * b₁ < -twopower31 ∨ twopower31 ≤ a₁ * b₀ + a₀ * b₁) :
    ¬IsI64 (iA * iB) := by
  have hsign := mul_sign hA hB
  rw [mul_eq hA hB h]
  simp only [IsI64, smallestInt64, largestInt64, twopower31, twopower32] at hr ⊢
  omega

/-- A factor is at most the product, if the other one is not zero. -/
theorem abs_le_abs_mul {x y : ℤ} (hx : x ≠ 0) : |y| ≤ |x * y| := by
  rw [abs_mul]
  exact le_mul_of_one_le_left (abs_nonneg y) (Int.one_le_abs hx)

/-- Where there is a high half, the product of the low halves fits if `r` does. -/
theorem isI64_low (hA : Halves iA a₁ a₀) (hB : Halves iB b₁ b₀) (h : a₁ * b₁ = 0)
    (hr : ¬(a₁ * b₀ + a₀ * b₁ < -twopower31 ∨ twopower31 ≤ a₁ * b₀ + a₀ * b₁))
    (hne : a₁ ≠ 0 ∨ b₁ ≠ 0) : IsI64 (a₀ * b₀) := by
  have hr : |a₁ * b₀ + a₀ * b₁| ≤ twopower31 := by
    rw [abs_le]
    omega
  rcases hne with hne | hne
  · have hzero : b₁ = 0 := (mul_eq_zero.mp h).resolve_left hne
    rw [hzero, mul_zero, add_zero] at hr
    exact isI64_mul (Int.le_sub_one_of_lt hA.low) ((abs_le_abs_mul hne).trans hr) (by decide)
  · have hzero : a₁ = 0 := (mul_eq_zero.mp h).resolve_right hne
    rw [hzero, zero_mul, zero_add, mul_comm] at hr
    exact isI64_mul ((abs_le_abs_mul hne).trans hr) (Int.le_sub_one_of_lt hB.low) (by decide)

/-- A number below `2 ^ 32` has no high half. -/
theorem Halves.high_eq_zero (h : Halves iA a₁ a₀) : a₁ = 0 ↔ |iA| < twopower32 := by
  have heq := h.eq
  have hlow := abs_lt.mp h.low
  have hnonneg := h.nonneg
  have hnonpos := h.nonpos
  rw [abs_lt]
  simp only [twopower32] at heq hlow ⊢
  omega

/-- The operands are below `2 ^ 32`, and the product does not fit. -/
def LowOverflow (iA iB : ℤ) : Prop := |iA| < twopower32 ∧ |iB| < twopower32 ∧ ¬IsI64 (iA * iB)

instance (iA iB : ℤ) : Decidable (LowOverflow iA iB) := inferInstanceAs (Decidable (_ ∧ _ ∧ _))

/-- **The product.** -/
theorem sqlite3MulInt64_spec (hA : IsI64 iA) (hB : IsI64 iB) :
    sqlite3MulInt64 iA iB = if LowOverflow iA iB then none else exact iA (iA * iB) := by
  have hhA := halves iA
  have hhB := halves iB
  rw [sqlite3MulInt64]
  generalize iA.tdiv twopower32 = a₁ at hhA ⊢
  generalize iA.tmod twopower32 = a₀ at hhA ⊢
  generalize iB.tdiv twopower32 = b₁ at hhB ⊢
  generalize iB.tmod twopower32 = b₀ at hhB ⊢
  have hlowA := Int.le_sub_one_of_lt hhA.low
  have hlowB := Int.le_sub_one_of_lt hhB.low
  simp only [i64_eq (isI64_mul (hhA.high hA) (hhB.high hB) (by decide)), Option.bind_eq_bind,
    Option.bind_some]
  by_cases hhigh : a₁ * b₁ = 0
  · have hr₁ : IsI64 (a₁ * b₀) := isI64_mul (hhA.high hA) hlowB (by decide)
    have hr₂ : IsI64 (a₀ * b₁) := isI64_mul hlowA (hhB.high hB) (by decide)
    have hr : IsI64 (a₁ * b₀ + a₀ * b₁) := by
      rcases mul_eq_zero.mp hhigh with hz | hz
      · rwa [hz, zero_mul, zero_add]
      · rwa [hz, mul_zero, add_zero]
    rw [if_neg (not_not.mpr hhigh), i64_eq hr₁, i64_eq hr₂, Option.bind_some, Option.bind_some,
      i64_eq hr, Option.bind_some]
    by_cases hmiddle : a₁ * b₀ + a₀ * b₁ < -twopower31 ∨ twopower31 ≤ a₁ * b₀ + a₀ * b₁
    · have hbig := not_isI64_of_middle hhA hhB hhigh hmiddle
      rw [if_pos hmiddle, exact_neg hbig, if_neg]
      rintro ⟨ha, hb, -⟩
      rw [hhA.high_eq_zero.mpr ha, hhB.high_eq_zero.mpr hb] at hmiddle
      revert hmiddle
      simp [twopower31]
    · have hshift : IsI64 ((a₁ * b₀ + a₀ * b₁) * twopower32) := by
        simp only [IsI64, smallestInt64, largestInt64, twopower31, twopower32] at hmiddle ⊢
        omega
      rw [if_neg hmiddle, i64_eq hshift, Option.bind_some]
      have hproduct := mul_eq hhA hhB hhigh
      by_cases hlow : IsI64 (a₀ * b₀)
      · have hnot : ¬LowOverflow iA iB := by
          rintro ⟨ha, hb, hbig⟩
          rw [hproduct, hhA.high_eq_zero.mpr ha, hhB.high_eq_zero.mpr hb, zero_mul, mul_zero,
            add_zero, zero_mul, zero_add] at hbig
          exact hbig hlow
        rw [i64_eq hlow, Option.bind_some, sqlite3AddInt64_spec hshift hlow, ← hproduct,
          if_neg hnot]
        by_cases hfits : IsI64 (iA * iB)
        · rw [exact_pos hfits, exact_pos hfits]
          rfl
        · rw [exact_neg hfits, exact_neg hfits]
          rfl
      · have hzero : a₁ = 0 ∧ b₁ = 0 := by
          by_contra hne
          exact hlow (isI64_low hhA hhB hhigh hmiddle (not_and_or.mp hne))
        have hoverflow : LowOverflow iA iB := by
          refine ⟨hhA.high_eq_zero.mp hzero.1, hhB.high_eq_zero.mp hzero.2, ?_⟩
          rwa [hproduct, hzero.1, hzero.2, zero_mul, mul_zero, add_zero, zero_mul, zero_add]
        rw [i64_eq_none hlow, if_pos hoverflow]
        rfl
  · have hbig := not_isI64_of_high hhA hhB hhigh
    rw [if_pos hhigh, exact_neg hbig, if_neg]
    rintro ⟨ha, -⟩
    rw [hhA.high_eq_zero.mpr ha, zero_mul] at hhigh
    exact hhigh rfl

/-! ### All three -/

theorem isI64_toInt (x : Int64) : IsI64 x.toInt := by
  have hle := x.le_toInt
  have hlt := x.toInt_lt
  simp only [IsI64, smallestInt64, largestInt64]
  omega

/-- **When the arithmetic is exact.** -/
theorem arith_exact_iff (iA iB : Int64) :
    (sqlite3AddInt64 iA.toInt iB.toInt = exact iA.toInt (iA.toInt + iB.toInt) ∧
      sqlite3SubInt64 iA.toInt iB.toInt = exact iA.toInt (iA.toInt - iB.toInt) ∧
        sqlite3MulInt64 iA.toInt iB.toInt = exact iA.toInt (iA.toInt * iB.toInt)) ↔
      ¬LowOverflow iA.toInt iB.toInt := by
  rw [and_iff_right (sqlite3AddInt64_spec (isI64_toInt iA) (isI64_toInt iB)),
    and_iff_right (sqlite3SubInt64_spec (isI64_toInt iA) (isI64_toInt iB)),
    sqlite3MulInt64_spec (isI64_toInt iA) (isI64_toInt iB)]
  constructor
  · intro h hoverflow
    rw [if_pos hoverflow] at h
    cases h
  · exact fun h => if_neg h

/-- `4294967295 * 4294967295` does not fit, and the product of the low halves is computed all the
same. -/
theorem not_forall_exact : ¬∀ iA iB : Int64,
    sqlite3MulInt64 iA.toInt iB.toInt = exact iA.toInt (iA.toInt * iB.toInt) := by
  intro h
  have hnone : sqlite3MulInt64 4294967295 4294967295 = none := by decide
  have hsome := h 4294967295 4294967295
  change sqlite3MulInt64 4294967295 4294967295 = _ at hsome
  rw [hnone] at hsome
  cases hsome

end Arith

end SqliteVms

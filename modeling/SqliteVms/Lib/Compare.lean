import Mathlib.Algebra.Order.Ring.Int

/-!
# Comparison functions

A comparison function returns a negative number, zero or a positive number. What a sorted
structure relies on is that the function is a total order on the values it holds, and this is a
property of the set of values as much as of the function.

## Main definitions

* `Comparison.TotalOrderOn` — a function that orders a set
* `Comparison.threeWay` — the comparison of a linear order

## Main results

* `TotalOrderOn.of_swap` — what has to be proved of a function
* `TotalOrderOn.comap` — comparing through a conversion
* `TotalOrderOn.of_rank` — classes of values, one after the other
-/

namespace Comparison

variable {α β : Type*} {c : α → α → ℤ} {S : Set α}

/-- `c x y ≤ 0` is a total order on `S`, and `c x y = 0` the equivalence that belongs to it. -/
structure TotalOrderOn (c : α → α → ℤ) (S : Set α) : Prop where
  refl : ∀ x ∈ S, c x x ≤ 0
  total : ∀ x ∈ S, ∀ y ∈ S, c x y ≤ 0 ∨ c y x ≤ 0
  trans : ∀ x ∈ S, ∀ y ∈ S, ∀ z ∈ S, c x y ≤ 0 → c y z ≤ 0 → c x z ≤ 0
  eq_refl : ∀ x ∈ S, c x x = 0
  eq_symm : ∀ x ∈ S, ∀ y ∈ S, c x y = 0 → c y x = 0
  eq_trans : ∀ x ∈ S, ∀ y ∈ S, ∀ z ∈ S, c x y = 0 → c y z = 0 → c x z = 0
  eq_iff : ∀ x ∈ S, ∀ y ∈ S, c x y = 0 ↔ c x y ≤ 0 ∧ c y x ≤ 0

/-- A function that changes its sign with its arguments and is transitive is a total order. -/
theorem TotalOrderOn.of_swap (hswap : ∀ x ∈ S, ∀ y ∈ S, c x y ≤ 0 ↔ 0 ≤ c y x)
    (htrans : ∀ x ∈ S, ∀ y ∈ S, ∀ z ∈ S, c x y ≤ 0 → c y z ≤ 0 → c x z ≤ 0) :
    TotalOrderOn c S := by
  have heq : ∀ x ∈ S, ∀ y ∈ S, c x y = 0 ↔ c x y ≤ 0 ∧ c y x ≤ 0 := by
    intro x hx y hy
    have h := hswap y hy x hx
    omega
  have hrefl : ∀ x ∈ S, c x x = 0 := by
    intro x hx
    have h := hswap x hx x hx
    omega
  constructor
  case refl => exact fun x hx => (hrefl x hx).le
  case total =>
    intro x hx y hy
    have h := hswap y hy x hx
    omega
  case trans => exact htrans
  case eq_refl => exact hrefl
  case eq_symm =>
    intro x hx y hy h
    exact (heq y hy x hx).mpr ((heq x hx y hy).mp h).symm
  case eq_trans =>
    intro x hx y hy z hz hxy hyz
    obtain ⟨h₁, h₂⟩ := (heq x hx y hy).mp hxy
    obtain ⟨h₃, h₄⟩ := (heq y hy z hz).mp hyz
    exact (heq x hx z hz).mpr ⟨htrans x hx y hy z hz h₁ h₃, htrans z hz y hy x hx h₄ h₂⟩
  case eq_iff => exact heq

theorem TotalOrderOn.swap (h : TotalOrderOn c S) {x y : α} (hx : x ∈ S) (hy : y ∈ S) :
    c x y ≤ 0 ↔ 0 ≤ c y x := by
  have heq := h.eq_iff y hy x hx
  have hsymm := h.eq_symm y hy x hx
  rcases h.total x hx y hy with hle | hle <;> omega

/-- Which side of `z` an element is on goes up with the elements. -/
theorem TotalOrderOn.sign_le (h : TotalOrderOn c S) {x y z : α} (hx : x ∈ S) (hy : y ∈ S)
    (hz : z ∈ S) (hle : c x y ≤ 0) : (c x z).sign ≤ (c y z).sign := by
  have hyz := h.trans x hx y hy z hz hle
  rcases lt_trichotomy (c y z) 0 with hlt | h0 | hgt
  · have hne : c x z ≠ 0 := by
      intro h0
      have hzy := h.trans z hz x hx y hy (h.eq_symm x hx z hz h0).le hle
      exact hlt.ne ((h.eq_iff y hy z hz).mpr ⟨hlt.le, hzy⟩)
    rw [Int.sign_eq_neg_one_of_neg hlt,
      Int.sign_eq_neg_one_of_neg (lt_of_le_of_ne (hyz hlt.le) hne)]
  · rw [h0, Int.sign_zero]
    exact Int.sign_nonpos_iff.mpr (hyz h0.le)
  · rw [Int.sign_eq_one_of_pos hgt]
    rcases lt_trichotomy (c x z) 0 with hx | hx | hx
    · rw [Int.sign_eq_neg_one_of_neg hx]
      decide
    · rw [hx]
      decide
    · rw [Int.sign_eq_one_of_pos hx]

theorem TotalOrderOn.neg_iff (h : TotalOrderOn c S) {x y : α} (hx : x ∈ S) (hy : y ∈ S) :
    c x y < 0 ↔ 0 < c y x := by
  have h₁ := h.swap hx hy
  have h₂ := h.swap hy hx
  omega

theorem TotalOrderOn.congr (h : TotalOrderOn c S) {d : α → α → ℤ}
    (hd : ∀ x ∈ S, ∀ y ∈ S, d x y = c x y) : TotalOrderOn d S := by
  refine .of_swap ?_ ?_
  · intro x hx y hy
    rw [hd x hx y hy, hd y hy x hx]
    exact h.swap hx hy
  · intro x hx y hy z hz
    rw [hd x hx y hy, hd y hy z hz, hd x hx z hz]
    exact h.trans x hx y hy z hz

/-- Values are in the order of what they are converted to. -/
theorem TotalOrderOn.comap {T : Set β} (h : TotalOrderOn c S) (f : β → α)
    (hf : ∀ x ∈ T, f x ∈ S) : TotalOrderOn (fun x y => c (f x) (f y)) T :=
  .of_swap (fun _ hx _ hy => h.swap (hf _ hx) (hf _ hy))
    (fun x hx y hy z hz => h.trans _ (hf x hx) _ (hf y hy) _ (hf z hz))

/-- The comparison `a<b ? -1 : a>b ? 1 : 0`. -/
def threeWay [LinearOrder α] (a b : α) : ℤ := if a < b then -1 else if b < a then 1 else 0

section Linear

variable [LinearOrder α]

theorem threeWay_nonpos {a b : α} : threeWay a b ≤ 0 ↔ a ≤ b := by
  rw [threeWay]
  rcases lt_trichotomy a b with h | rfl | h
  · simp [h, h.le]
  · simp
  · simp [h, h.not_gt, h.not_ge]

theorem threeWay_nonneg {a b : α} : 0 ≤ threeWay a b ↔ b ≤ a := by
  rw [threeWay]
  rcases lt_trichotomy a b with h | rfl | h
  · simp [h, h.not_ge]
  · simp
  · simp [h, h.le, h.not_gt]

theorem threeWay_neg {a b : α} : threeWay a b < 0 ↔ a < b := by
  rw [← not_le, threeWay_nonneg, not_le]

theorem threeWay_pos {a b : α} : 0 < threeWay a b ↔ b < a := by
  rw [← not_le, threeWay_nonpos, not_le]

theorem threeWay_eq_zero {a b : α} : threeWay a b = 0 ↔ a = b := by
  rw [le_antisymm_iff (a := threeWay a b), threeWay_nonpos, threeWay_nonneg]
  exact le_antisymm_iff.symm

theorem totalOrderOn_threeWay (S : Set α) : TotalOrderOn threeWay S :=
  .of_swap (fun _ _ _ _ => by rw [threeWay_nonpos, threeWay_nonneg])
    (fun x _ y _ z _ => by
      rw [threeWay_nonpos, threeWay_nonpos, threeWay_nonpos]
      exact le_trans)

theorem sign_threeWay_mono {a b : α} (h : a ≤ b) (x : α) :
    (threeWay a x).sign ≤ (threeWay b x).sign :=
  (totalOrderOn_threeWay Set.univ).sign_le (Set.mem_univ a) (Set.mem_univ b) (Set.mem_univ x)
    (threeWay_nonpos.mpr h)

end Linear

/-- Classes of values, one after the other: between values of different ranks the rank decides, and
each rank has an order of its own. -/
theorem TotalOrderOn.of_rank (rank : α → ℕ)
    (hlt : ∀ x ∈ S, ∀ y ∈ S, rank x < rank y → c x y < 0 ∧ 0 < c y x)
    (heq : ∀ n, TotalOrderOn c {x ∈ S | rank x = n}) : TotalOrderOn c S := by
  have hle : ∀ x ∈ S, ∀ y ∈ S, c x y ≤ 0 → rank x ≤ rank y := by
    intro x hx y hy h
    by_contra hr
    have := (hlt y hy x hx (by omega)).2
    omega
  refine .of_swap ?_ ?_
  · intro x hx y hy
    rcases lt_trichotomy (rank x) (rank y) with h | h | h
    · obtain ⟨h₁, h₂⟩ := hlt x hx y hy h
      omega
    · exact (heq (rank y)).swap ⟨hx, h⟩ ⟨hy, rfl⟩
    · obtain ⟨h₁, h₂⟩ := hlt y hy x hx h
      omega
  · intro x hx y hy z hz hxy hyz
    have h₁ := hle x hx y hy hxy
    have h₂ := hle y hy z hz hyz
    rcases (h₁.trans h₂).lt_or_eq with h | h
    · exact (hlt x hx z hz h).1.le
    · -- between two values of one rank there are only values of that rank
      exact (heq (rank z)).trans x ⟨hx, h⟩ y ⟨hy, by omega⟩ z ⟨hz, rfl⟩ hxy hyz

end Comparison

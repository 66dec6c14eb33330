import SqliteVms.Lib.Store
import Mathlib.Tactic.Ring

/-!
# Big-endian integers in a byte store

Reading and writing four-byte and two-byte big-endian integers at a position of a byte store, and
the conversion of a wider integer to a 32-bit C `int`.

## Main definitions

* `BigEndian.get2`, `BigEndian.put2` — two-byte integers
* `BigEndian.get4`, `BigEndian.put4` — four-byte integers
* `BigEndian.toInt32` — conversion to a 32-bit `int`

## Main results

* `BigEndian.get2_put2_self`, `BigEndian.get4_put4_self` — read after write
* `BigEndian.get4_congr` — a read depends on its four bytes only
* `BigEndian.get4_blit_slice` — reading from copied bytes
-/

namespace BigEndian

open Store

/-- The two-byte big-endian integer at position `off`. -/
@[irreducible] def get2 (s : ℕ → UInt8) (off : ℕ) : ℕ := (s off).toNat * 2 ^ 8 + (s (off + 1)).toNat

/-- The four-byte big-endian integer at position `off`. -/
@[irreducible] def get4 (s : ℕ → UInt8) (off : ℕ) : ℕ :=
  (s off).toNat * 2 ^ 24 + (s (off + 1)).toNat * 2 ^ 16 + (s (off + 2)).toNat * 2 ^ 8
    + (s (off + 3)).toNat

/-- The two low bytes of `v`, most significant first. -/
def bytes2 (v : ℕ) : List UInt8 := [UInt8.ofNat (v / 2 ^ 8), UInt8.ofNat v]

/-- A store with the low half of `v` written at position `off`. -/
def put2 (s : ℕ → UInt8) (off v : ℕ) : ℕ → UInt8 := blit s off (bytes2 v)

/-- The four bytes of `v`, most significant first. -/
def bytes4 (v : ℕ) : List UInt8 :=
  [UInt8.ofNat (v / 2 ^ 24), UInt8.ofNat (v / 2 ^ 16), UInt8.ofNat (v / 2 ^ 8), UInt8.ofNat v]

/-- A store with `v` written at position `off`. -/
def put4 (s : ℕ → UInt8) (off v : ℕ) : ℕ → UInt8 := blit s off (bytes4 v)

@[simp] theorem length_bytes2 (v : ℕ) : (bytes2 v).length = 2 := rfl

@[simp] theorem length_bytes4 (v : ℕ) : (bytes4 v).length = 4 := rfl

theorem get2_lt (s : ℕ → UInt8) (off : ℕ) : get2 s off < 2 ^ 16 := by
  have h0 := (s off).toNat_lt
  have h1 := (s (off + 1)).toNat_lt
  rw [get2]
  omega

theorem get4_lt (s : ℕ → UInt8) (off : ℕ) : get4 s off < 2 ^ 32 := by
  have h0 := (s off).toNat_lt
  have h1 := (s (off + 1)).toNat_lt
  have h2 := (s (off + 2)).toNat_lt
  have h3 := (s (off + 3)).toNat_lt
  rw [get4]
  omega

/-- A read depends on its two bytes only. -/
theorem get2_congr {s t : ℕ → UInt8} {off off' : ℕ}
    (h : ∀ i < 2, s (off + i) = t (off' + i)) : get2 s off = get2 t off' := by
  have h0 := h 0 (by decide)
  have h1 := h 1 (by decide)
  rw [Nat.add_zero, Nat.add_zero] at h0
  rw [get2, get2, h0, h1]

theorem get2_put2_mod (s : ℕ → UInt8) (off v : ℕ) : get2 (put2 s off v) off = v % 2 ^ 16 := by
  have h0 : put2 s off v off = UInt8.ofNat (v / 2 ^ 8) := blit_inside (i := 0) (by simp)
  have h1 : put2 s off v (off + 1) = UInt8.ofNat v := blit_inside (by simp)
  rw [get2, h0, h1]
  simp only [UInt8.toNat_ofNat']
  omega

/-- **Read after write.** -/
theorem get2_put2_self (s : ℕ → UInt8) (off : ℕ) {v : ℕ} (hv : v < 2 ^ 16) :
    get2 (put2 s off v) off = v := by
  rw [get2_put2_mod, Nat.mod_eq_of_lt hv]

theorem put2_outside {s : ℕ → UInt8} {off v i : ℕ} (h : i < off ∨ off + 2 ≤ i) :
    put2 s off v i = s i :=
  blit_outside (by simpa using h)

/-- Reading beside a copy. -/
theorem get2_blit_of_disjoint {s : ℕ → UInt8} {off off' : ℕ} {xs : List UInt8}
    (h : off' + 2 ≤ off ∨ off + xs.length ≤ off') : get2 (blit s off xs) off' = get2 s off' :=
  get2_congr fun i hi => blit_outside (by omega)

/-- Reading beside a write. -/
theorem get2_put2_of_disjoint {s : ℕ → UInt8} {off off' v : ℕ}
    (h : off' + 2 ≤ off ∨ off + 2 ≤ off') : get2 (put2 s off v) off' = get2 s off' :=
  get2_blit_of_disjoint (by simpa using h)

/-- Reading inside copied bytes is reading at the origin of the copy. -/
theorem get2_blit_slice {s t : ℕ → UInt8} {off org n i : ℕ} (h : i + 2 ≤ n) :
    get2 (blit s off (slice t org n)) (off + i) = get2 t (org + i) := by
  refine get2_congr fun j hj => ?_
  rw [Nat.add_assoc, blit_inside (by rw [length_slice]; omega), getElem_slice, Nat.add_assoc]

/-- A read depends on its four bytes only. -/
theorem get4_congr {s t : ℕ → UInt8} {off off' : ℕ}
    (h : ∀ i < 4, s (off + i) = t (off' + i)) : get4 s off = get4 t off' := by
  have h0 := h 0 (by decide)
  have h1 := h 1 (by decide)
  have h2 := h 2 (by decide)
  have h3 := h 3 (by decide)
  rw [Nat.add_zero, Nat.add_zero] at h0
  rw [get4, get4, h0, h1, h2, h3]

/-- **Read after write.** -/
theorem get4_put4_self (s : ℕ → UInt8) (off : ℕ) {v : ℕ} (hv : v < 2 ^ 32) :
    get4 (put4 s off v) off = v := by
  have h0 : put4 s off v off = UInt8.ofNat (v / 2 ^ 24) := blit_inside (i := 0) (by simp)
  have h1 : put4 s off v (off + 1) = UInt8.ofNat (v / 2 ^ 16) := blit_inside (by simp)
  have h2 : put4 s off v (off + 2) = UInt8.ofNat (v / 2 ^ 8) := blit_inside (by simp)
  have h3 : put4 s off v (off + 3) = UInt8.ofNat v := blit_inside (by simp)
  rw [get4, h0, h1, h2, h3]
  simp only [UInt8.toNat_ofNat']
  omega

/-- Reading four bytes that stand in the store. -/
theorem get4_of_holds {s : ℕ → UInt8} {off v : ℕ} (h : Holds s off (bytes4 v)) (hv : v < 2 ^ 32) :
    get4 s off = v := by
  rw [← get4_put4_self s off hv]
  refine get4_congr fun i hi => ?_
  rw [h.byte hi]
  exact (blit_inside hi).symm

/-- A byte outside the four written ones. -/
theorem put4_outside {s : ℕ → UInt8} {off v i : ℕ} (h : i < off ∨ off + 4 ≤ i) :
    put4 s off v i = s i :=
  blit_outside (by simpa using h)

/-- Reading beside a write. -/
theorem get4_put4_of_disjoint {s : ℕ → UInt8} {off off' v : ℕ}
    (h : off' + 4 ≤ off ∨ off + 4 ≤ off') : get4 (put4 s off v) off' = get4 s off' :=
  get4_congr fun i hi => put4_outside (by omega)

/-- Reading beside a copy. -/
theorem get4_blit_of_disjoint {s : ℕ → UInt8} {off off' : ℕ} {xs : List UInt8}
    (h : off' + 4 ≤ off ∨ off + xs.length ≤ off') : get4 (blit s off xs) off' = get4 s off' :=
  get4_congr fun i hi => blit_outside (by omega)

/-- Reading inside copied bytes is reading at the origin of the copy. -/
theorem get4_blit_slice {s t : ℕ → UInt8} {off org n i : ℕ} (h : i + 4 ≤ n) :
    get4 (blit s off (slice t org n)) (off + i) = get4 t (org + i) := by
  refine get4_congr fun j hj => ?_
  rw [Nat.add_assoc, blit_inside (by rw [length_slice]; omega), getElem_slice, Nat.add_assoc]

/-- Conversion of a wider integer to a 32-bit C `int`. -/
@[irreducible] def toInt32 (x : ℤ) : ℤ := x.bmod (2 ^ 32)

theorem toInt32_of_lt {n : ℕ} (h : n < 2 ^ 31) : toInt32 n = n := by
  rw [toInt32, Int.bmod_eq_of_le (by omega) (by omega)]

theorem neg_le_toInt32 (x : ℤ) : -2 ^ 31 ≤ toInt32 x := by
  rw [toInt32]
  have := Int.le_bmod (x := x) (m := 2 ^ 32) (by decide)
  omega

/-- Two unsigned 32-bit integers whose difference converts to zero are equal. -/
theorem eq_of_toInt32_sub_eq_zero {a b : ℕ} (ha : a < 2 ^ 32) (hb : b < 2 ^ 32)
    (h : toInt32 ((a : ℤ) - b) = 0) : a = b := by
  rw [toInt32] at h
  have hdvd := Int.dvd_of_bmod_eq_zero h
  omega

end BigEndian

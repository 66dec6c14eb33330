import Mathlib.Data.List.Basic
import Mathlib.Tactic.Linarith

/-!
# Stores addressed by position

A store is a total function from positions to cells. Reading takes a slice of it and writing
lays a list over it; nothing here knows how long a file is or what a cell holds.

The semantics are total: every position has a cell, and a write may start anywhere. Whether a
range lies inside a file is a hypothesis of the theorems that need it.

## Main definitions

* `Store.slice` — the cells of a range, as a list
* `Store.blit` — a store with a list laid over it at a position
* `Store.Holds` — a list stands at a position

## Main results

* `Store.blit_inside`, `Store.blit_outside` — a cell after a write
* `Store.slice_blit` — read after write
* `Store.blit_blit_append` — two adjacent writes are one
* `Store.blit_merge` — rewriting a block around a changed part is writing the part
-/

namespace Store

variable {α : Type*}

/-- The `n` cells of `s` from position `off` on. -/
def slice (s : ℕ → α) (off n : ℕ) : List α := (List.range n).map fun i => s (off + i)

/-- `s` with the list `xs` laid over it from position `off` on. -/
def blit (s : ℕ → α) (off : ℕ) (xs : List α) : ℕ → α :=
  fun i => if i < off then s i else xs.getD (i - off) (s i)

@[simp] theorem length_slice (s : ℕ → α) (off n : ℕ) : (slice s off n).length = n := by
  simp [slice]

@[simp] theorem slice_zero (s : ℕ → α) (off : ℕ) : slice s off 0 = [] := rfl

@[simp] theorem getElem_slice (s : ℕ → α) (off n i : ℕ) (h : i < (slice s off n).length) :
    (slice s off n)[i] = s (off + i) := by
  simp [slice]

theorem getElem?_slice {s : ℕ → α} {off n i : ℕ} (h : i < n) :
    (slice s off n)[i]? = some (s (off + i)) := by
  rw [List.getElem?_eq_getElem (by simpa using h), getElem_slice]

theorem slice_congr {s t : ℕ → α} {off n : ℕ} (h : ∀ i < n, s (off + i) = t (off + i)) :
    slice s off n = slice t off n := by
  refine List.ext_getElem (by simp) fun i hi _ => ?_
  rw [getElem_slice, getElem_slice]
  exact h i (by simpa using hi)

/-- Two ranges with the same cells. -/
theorem slice_eq_slice {s t : ℕ → α} {off off' n : ℕ}
    (h : ∀ i < n, s (off + i) = t (off' + i)) : slice s off n = slice t off' n :=
  List.map_congr_left fun i hi => h i (List.mem_range.mp hi)

theorem slice_eq_iff {s : ℕ → α} {off : ℕ} {xs : List α} :
    slice s off xs.length = xs ↔ ∀ i (h : i < xs.length), s (off + i) = xs[i] := by
  constructor
  · intro h i hi
    have hget : (slice s off xs.length)[i]? = xs[i]? := by rw [h]
    rw [getElem?_slice hi, List.getElem?_eq_getElem hi] at hget
    exact Option.some.inj hget
  · intro h
    refine List.ext_getElem (by simp) fun i _ hi => ?_
    rw [getElem_slice]
    exact h i hi

theorem slice_append (s : ℕ → α) (off m n : ℕ) :
    slice s off (m + n) = slice s off m ++ slice s (off + m) n := by
  simp [slice, List.range_add, Nat.add_assoc]

theorem take_slice {s : ℕ → α} {off m n : ℕ} (h : m ≤ n) :
    (slice s off n).take m = slice s off m := by
  obtain ⟨k, rfl⟩ := Nat.exists_eq_add_of_le h
  rw [slice_append, List.take_append_of_le_length (by simp), List.take_of_length_le (by simp)]

theorem drop_slice {s : ℕ → α} {off m n : ℕ} (h : m ≤ n) :
    (slice s off n).drop m = slice s (off + m) (n - m) := by
  obtain ⟨k, rfl⟩ := Nat.exists_eq_add_of_le h
  rw [slice_append, List.drop_append_of_le_length (by simp), List.drop_of_length_le (by simp),
    List.nil_append, Nat.add_sub_cancel_left]

theorem blit_outside {s : ℕ → α} {off i : ℕ} {xs : List α}
    (h : i < off ∨ off + xs.length ≤ i) : blit s off xs i = s i := by
  rw [blit]
  split
  · rfl
  · rw [List.getD_eq_getElem?_getD, List.getElem?_eq_none (by omega), Option.getD_none]

theorem blit_inside {s : ℕ → α} {off i : ℕ} {xs : List α} (h : i < xs.length) :
    blit s off xs (off + i) = xs[i] := by
  rw [blit, if_neg (by omega), Nat.add_sub_cancel_left, List.getD_eq_getElem?_getD,
    List.getElem?_eq_getElem h, Option.getD_some]

@[simp] theorem blit_nil (s : ℕ → α) (off : ℕ) : blit s off [] = s :=
  funext fun i => blit_outside (by simp; omega)

/-- **Read after write.** -/
theorem slice_blit (s : ℕ → α) (off : ℕ) (xs : List α) :
    slice (blit s off xs) off xs.length = xs :=
  slice_eq_iff.mpr fun _ hi => blit_inside hi

/-- Laying a slice back where it was read changes nothing. -/
@[simp] theorem blit_slice (s : ℕ → α) (off n : ℕ) : blit s off (slice s off n) = s := by
  funext i
  by_cases h : i < off ∨ off + n ≤ i
  · exact blit_outside (by simpa using h)
  · obtain ⟨k, rfl⟩ := Nat.exists_eq_add_of_le (show off ≤ i by omega)
    rw [blit_inside (by simp; omega), getElem_slice]

/-- Two adjacent writes are one write of the concatenation. -/
theorem blit_blit_append (s : ℕ → α) (off : ℕ) (xs ys : List α) :
    blit (blit s off xs) (off + xs.length) ys = blit s off (xs ++ ys) := by
  funext i
  by_cases hlo : i < off
  · rw [blit_outside (Or.inl (by omega)), blit_outside (Or.inl hlo), blit_outside (Or.inl hlo)]
  obtain ⟨k, rfl⟩ := Nat.exists_eq_add_of_le (show off ≤ i by omega)
  by_cases hmid : k < xs.length
  · rw [blit_outside (Or.inl (by omega)), blit_inside hmid,
      blit_inside (by rw [List.length_append]; omega), List.getElem_append_left hmid]
  by_cases hhi : k < xs.length + ys.length
  · obtain ⟨j, rfl⟩ := Nat.exists_eq_add_of_le (show xs.length ≤ k by omega)
    rw [← Nat.add_assoc, blit_inside (by omega), Nat.add_assoc,
      blit_inside (by rw [List.length_append]; omega), List.getElem_append_right (by omega)]
    congr 1
    omega
  · rw [blit_outside (Or.inr (by omega)), blit_outside (Or.inr (by omega)),
      blit_outside (Or.inr (by rw [List.length_append]; omega))]

/-- Two writes that do not meet may change places. -/
theorem blit_comm (s : ℕ → α) {off off' : ℕ} {xs ys : List α}
    (h : off + xs.length ≤ off' ∨ off' + ys.length ≤ off) :
    blit (blit s off xs) off' ys = blit (blit s off' ys) off xs := by
  funext i
  by_cases hx : i < off ∨ off + xs.length ≤ i
  · rw [blit_outside hx]
    by_cases hy : i < off' ∨ off' + ys.length ≤ i
    · rw [blit_outside hy, blit_outside hy, blit_outside hx]
    · obtain ⟨k, rfl⟩ := Nat.exists_eq_add_of_le (show off' ≤ i by omega)
      rw [blit_inside (by omega), blit_inside (by omega)]
  · obtain ⟨k, rfl⟩ := Nat.exists_eq_add_of_le (show off ≤ i by omega)
    rw [blit_outside (by omega), blit_inside (by omega), blit_inside (by omega)]

/-- A later write that repeats what an earlier one put there changes nothing. -/
theorem blit_take_idem (s : ℕ → α) (off n : ℕ) (xs : List α) :
    blit (blit s off xs) off (xs.take n) = blit s off xs := by
  funext i
  by_cases h : i < off ∨ off + (xs.take n).length ≤ i
  · exact blit_outside h
  · obtain ⟨k, rfl⟩ := Nat.exists_eq_add_of_le (show off ≤ i by omega)
    have hk : k < (xs.take n).length := by omega
    have hk' : k < xs.length := by rw [List.length_take] at hk; omega
    rw [blit_inside hk, blit_inside hk', List.getElem_take]

/-- **Read, modify, write.** Reading a block of `n` cells at `base`, replacing the part at `pos`
by `xs` and writing the block back is writing `xs` at `base + pos`. -/
theorem blit_merge {s : ℕ → α} {base n pos : ℕ} {xs : List α} (h : pos + xs.length ≤ n) :
    blit s base ((slice s base n).take pos ++ xs ++ (slice s base n).drop (pos + xs.length))
      = blit s (base + pos) xs := by
  have hlen : (slice s base pos ++ xs).length = pos + xs.length := by simp
  have hfront : blit s base (slice s base pos ++ xs) = blit s (base + pos) xs := by
    have := blit_blit_append s base (slice s base pos) xs
    rw [blit_slice, length_slice] at this
    exact this.symm
  have hback : slice s (base + (pos + xs.length)) (n - (pos + xs.length))
      = slice (blit s (base + pos) xs) (base + (pos + xs.length)) (n - (pos + xs.length)) :=
    slice_congr fun i _ => (blit_outside (Or.inr (by omega))).symm
  rw [take_slice (by omega), drop_slice h, ← blit_blit_append, hfront, hlen, hback, blit_slice]

/-- The list `xs` stands at position `off` of the store. -/
def Holds (s : ℕ → α) (off : ℕ) (xs : List α) : Prop := slice s off xs.length = xs

theorem holds_iff {s : ℕ → α} {off : ℕ} {xs : List α} :
    Holds s off xs ↔ ∀ i (h : i < xs.length), s (off + i) = xs[i] := slice_eq_iff

theorem Holds.byte {s : ℕ → α} {off i : ℕ} {xs : List α} (h : Holds s off xs) (hi : i < xs.length) :
    s (off + i) = xs[i] := holds_iff.mp h i hi

theorem holds_append {s : ℕ → α} {off : ℕ} {xs ys : List α} :
    Holds s off (xs ++ ys) ↔ Holds s off xs ∧ Holds s (off + xs.length) ys := by
  rw [Holds, List.length_append, slice_append]
  constructor
  · intro h
    exact List.append_inj h (length_slice _ _ _)
  · rintro ⟨hx, hy⟩
    rw [hx, hy]

theorem holds_blit (s : ℕ → α) (off : ℕ) (xs : List α) : Holds (blit s off xs) off xs :=
  slice_blit s off xs

theorem Holds.congr {s t : ℕ → α} {off : ℕ} {xs : List α} (h : Holds s off xs)
    (heq : ∀ i, off ≤ i → i < off + xs.length → t i = s i) : Holds t off xs := by
  refine holds_iff.mpr fun i hi => ?_
  rw [heq (off + i) (by omega) (by omega)]
  exact h.byte hi

/-- What stands beside a write still stands there. -/
theorem Holds.blit {s : ℕ → α} {off off' : ℕ} {xs ys : List α} (h : Holds s off xs)
    (hdis : off + xs.length ≤ off' ∨ off' + ys.length ≤ off) : Holds (blit s off' ys) off xs :=
  h.congr fun i _ _ => blit_outside (by omega)

end Store

import Mathlib.Algebra.Order.Ring.Int
import Mathlib.Order.Interval.Finset.Nat

/-!
# Extents

An extent is a range of positions, by its first position and its length. Extents that do not overlap
do not take more room together than the range that they lie in.

## Main definitions

* `Extent.Apart` — two extents do not overlap
* `Extent.total` — how much room they take

## Main results

* `Extent.total_add_le` — extents that do not overlap fit where they lie
-/

namespace Extent

/-- Two extents that do not overlap. -/
def Apart (u v : ℕ × ℕ) : Prop := u.1 + u.2 ≤ v.1 ∨ v.1 + v.2 ≤ u.1

theorem Apart.symm {u v : ℕ × ℕ} (h : Apart u v) : Apart v u := Or.symm h

/-- The lengths together. -/
def total (us : List (ℕ × ℕ)) : ℕ := (us.map Prod.snd).sum

/-- The position lies in the extent. -/
def Inside (u : ℕ × ℕ) (p : ℕ) : Prop := u.1 ≤ p ∧ p < u.1 + u.2

variable {us vs : List (ℕ × ℕ)} {u v : ℕ × ℕ} {lo hi p : ℕ}

@[simp] theorem total_nil : total [] = 0 := rfl

@[simp] theorem total_cons (u : ℕ × ℕ) (us : List (ℕ × ℕ)) : total (u :: us) = u.2 + total us :=
  List.sum_cons

@[simp] theorem total_append (us vs : List (ℕ × ℕ)) : total (us ++ vs) = total us + total vs := by
  rw [total, List.map_append, List.sum_append, total, total]

theorem total_perm (h : us.Perm vs) : total us = total vs := (h.map Prod.snd).sum_eq

theorem pairwise_perm (h : us.Perm vs) (hus : us.Pairwise Apart) : vs.Pairwise Apart :=
  (h.pairwise_iff fun h => h.symm).mp hus

theorem Apart.not_inside (h : Apart u v) (hp : Inside u p) : ¬ Inside v p := by
  obtain ⟨hle, hlt⟩ := hp
  rintro ⟨hle', hlt'⟩
  rcases h with h | h <;> omega

/-- Where an extent lies, the ones that do not overlap do not. -/
theorem not_inside_of_mem (h : (u :: us).Pairwise Apart) (hp : Inside u p) (hv : v ∈ us) :
    ¬ Inside v p :=
  ((List.pairwise_cons.mp h).1 v hv).not_inside hp

/-- The positions that the extents take. -/
def cover : List (ℕ × ℕ) → Finset ℕ
  | [] => ∅
  | u :: us => Finset.Ico u.1 (u.1 + u.2) ∪ cover us

theorem mem_cover : p ∈ cover us ↔ ∃ u ∈ us, Inside u p := by
  induction us with
  | nil => simp [cover]
  | cons u us ih => simp [cover, ih, Inside]

theorem card_cover (h : us.Pairwise Apart) : (cover us).card = total us := by
  induction us with
  | nil => rfl
  | cons u us ih =>
    have hdisj : Disjoint (Finset.Ico u.1 (u.1 + u.2)) (cover us) := by
      rw [Finset.disjoint_left]
      intro p hp hcover
      obtain ⟨v, hv, hin⟩ := mem_cover.mp hcover
      exact not_inside_of_mem h (Finset.mem_Ico.mp hp) hv hin
    rw [cover, Finset.card_union_of_disjoint hdisj, Nat.card_Ico, Nat.add_sub_cancel_left,
      ih (List.pairwise_cons.mp h).2, total_cons]

/-- **Extents that do not overlap fit where they lie.** -/
theorem total_add_le (h : us.Pairwise Apart) (hin : ∀ u ∈ us, lo ≤ u.1 ∧ u.1 + u.2 ≤ hi)
    (hle : lo ≤ hi) : total us + lo ≤ hi := by
  have hsub : cover us ⊆ Finset.Ico lo hi := by
    intro p hp
    obtain ⟨u, hu, hle, hlt⟩ := mem_cover.mp hp
    have := hin u hu
    exact Finset.mem_Ico.mpr ⟨by omega, by omega⟩
  have hcard := Finset.card_le_card hsub
  rw [card_cover h, Nat.card_Ico] at hcard
  omega

end Extent

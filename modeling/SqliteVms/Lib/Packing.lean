import Mathlib.Algebra.BigOperators.Group.List.Basic
import Mathlib.Tactic.Linarith

/-!
# Packing a sequence from the left

Items of given weights are put into bins of one capacity in their order: a bin is closed by the first
item that no longer fits. That item either begins the next bin or is left out between the two.

## Main definitions

* `Packing.weight` — the weight of the first items
* `Packing.Packed` — the bins that have been closed, and where the next one begins
* `Packing.Cut` — some way to divide the items between bins

## Main results

* `Packing.Packed.length_le` — no other way needs fewer bins
-/

namespace Packing

variable {w : List ℕ} {cap gap a i j : ℕ} {ends : List ℕ}

/-- The weight of the first `i` items. -/
def weight (w : List ℕ) (i : ℕ) : ℕ := (w.take i).sum

@[simp] theorem weight_zero (w : List ℕ) : weight w 0 = 0 := by simp [weight]

theorem weight_succ (h : i < w.length) : weight w (i + 1) = weight w i + w[i] := by
  rw [weight, weight, List.sum_take_succ w i h]

theorem weight_mono (h : i ≤ j) : weight w i ≤ weight w j := by
  rw [weight, weight, ← Nat.add_sub_cancel' h, List.take_add, List.sum_append]
  exact Nat.le_add_right _ _

theorem weight_length (w : List ℕ) : weight w w.length = w.sum := by
  rw [weight, List.take_length]

/-- The bins that are closed, by where they end, the last one first; the next bin begins at `a`. With
`gap = 1` the item that closes a bin is in none of them. -/
inductive Packed (w : List ℕ) (cap gap : ℕ) : List ℕ → ℕ → Prop
  | nil : Packed w cap gap [] 0
  | close {ends : List ℕ} {a c : ℕ} : Packed w cap gap ends a → a ≤ c → c < w.length →
      weight w c ≤ weight w a + cap → weight w a + cap < weight w (c + 1) →
      Packed w cap gap (c :: ends) (c + gap)

/-- The items fit into bins of the capacity, at most `n` and one more, with `gap` items between any
two. -/
inductive Cut (cap gap : ℕ) : ℕ → List ℕ → Prop
  | last {n : ℕ} {w : List ℕ} : w.sum ≤ cap → Cut cap gap n w
  | cons {n : ℕ} {bin sep w : List ℕ} : bin.sum ≤ cap → sep.length = gap → Cut cap gap n w →
      Cut cap gap (n + 1) (bin ++ (sep ++ w))

theorem Cut.mono {m n : ℕ} (h : Cut cap gap m w) (hmn : m ≤ n) : Cut cap gap n w := by
  induction h generalizing n with
  | last hfits => exact Cut.last hfits
  | cons hbin hsep _ ih =>
    obtain ⟨n, rfl⟩ := Nat.exists_eq_succ_of_ne_zero (show n ≠ 0 by omega)
    exact Cut.cons hbin hsep (ih (by omega))

/-- Two cuts with items between them. -/
theorem Cut.append {m n : ℕ} {v sep : List ℕ} (h : Cut cap gap m v) (hsep : sep.length = gap)
    (h' : Cut cap gap n w) : Cut cap gap (m + n + 1) (v ++ (sep ++ w)) := by
  induction h with
  | last hfits => exact Cut.cons hfits hsep (h'.mono (Nat.le_add_left _ _))
  | @cons m bin sep' v hbin hsep' _ ih =>
    have hcut := Cut.cons hbin hsep' ih
    rw [show m + 1 + n + 1 = m + n + 1 + 1 by omega]
    simpa only [List.append_assoc] using hcut

theorem weight_eq_sum (h : w.length ≤ i) : weight w i = w.sum := by
  rw [weight, List.take_of_length_le h]

theorem weight_append (v w : List ℕ) (k : ℕ) :
    weight (v ++ w) (v.length + k) = v.sum + weight w k := by
  rw [weight, weight, List.take_length_add_append, List.sum_append]

/-- Where the capacity is passed. -/
theorem exists_weight_le_lt (h : cap < w.sum) :
    ∃ i, i < w.length ∧ weight w i ≤ cap ∧ cap < weight w (i + 1) := by
  have hsome : ∃ i, cap < weight w i := ⟨w.length, by rwa [weight_length]⟩
  have hpass := Nat.find_spec hsome
  have hpos : Nat.find hsome ≠ 0 := fun hzero => by
    rw [hzero, weight_zero] at hpass
    omega
  obtain ⟨i, hi⟩ := Nat.exists_eq_succ_of_ne_zero hpos
  rw [hi] at hpass
  have hle : weight w i ≤ cap := not_lt.mp (Nat.find_min hsome (by omega))
  refine ⟨i, ?_, hle, hpass⟩
  by_contra hge
  rw [weight_eq_sum (by omega)] at hle
  omega

/-- With an item between any two bins the capacities need not be used up. -/
theorem cut_of_sum_le {n : ℕ} (h : w.sum ≤ n * (cap + 1) + cap) : Cut cap 1 n w := by
  induction n generalizing w with
  | zero => exact Cut.last (by omega)
  | succ n ih =>
    rcases Nat.lt_or_ge cap w.sum with hover | hfits
    · obtain ⟨i, hi, hle, hlt⟩ := exists_weight_le_lt hover
      have hsplit : w.take i ++ ([w[i]] ++ w.drop (i + 1)) = w := by
        rw [List.singleton_append, List.getElem_cons_drop, List.take_append_drop]
      have hrest : weight w (i + 1) + (w.drop (i + 1)).sum = w.sum := by
        rw [weight, ← List.sum_append, List.take_append_drop]
      rw [← hsplit]
      rw [Nat.succ_mul] at h
      exact Cut.cons hle rfl (ih (by omega))
    · exact Cut.last hfits

/-- **Packing from the left closes the fewest bins**: no more than any cut of the items needs. The
invariant is that with `k` closed bins the packing has passed the first `pre`. -/
theorem Cut.length_le_add {n k : ℕ} {s pre : List ℕ} (hcut : Cut cap gap n s) (hw : w = pre ++ s)
    (hpre : ∀ ends a, Packed w cap gap ends a → ends.length = k → pre.length ≤ a)
    (h : Packed w cap gap ends a) : ends.length ≤ k + n := by
  induction hcut generalizing pre k with
  | @last n s hfits =>
    have hmore : ∀ ends a, Packed w cap gap ends a → ends.length ≤ k := by
      intro ends a h
      induction h with
      | nil => exact Nat.zero_le _
      | @close ends a c hends _ _ _ hover ih =>
        rcases Nat.lt_or_eq_of_le ih with hlt | heq
        · exact hlt
        · -- what is left fits, so that nothing closes the bin
          have hstart := weight_mono (w := w) (hpre _ _ hends heq)
          have hend := weight_mono (w := w) (Nat.le_max_left (c + 1) w.length)
          rw [weight_eq_sum (Nat.le_max_right _ _)] at hend
          rw [hw, ← Nat.add_zero pre.length, weight_append, weight_zero, ← hw] at hstart
          rw [hw, List.sum_append, ← hw] at hend
          omega
    exact (hmore _ _ h).trans (Nat.le_add_right _ _)
  | @cons n bin sep s hbin hsep _ ih =>
    have hsplit : w = pre ++ bin ++ sep ++ s := by simp [hw]
    have hnext := ih (k := k + 1) hsplit (by
      intro ends a h hlen
      cases h with
      | nil => exact absurd hlen (by simp)
      | @close ends a c hends _ _ _ hover =>
        have hstart := weight_mono (w := w) (hpre _ _ hends (by simpa using hlen))
        have hbins : weight w (pre ++ bin).length = pre.sum + bin.sum := by
          rw [hw, ← List.append_assoc, ← Nat.add_zero (pre ++ bin).length, weight_append]
          simp
        rw [hw, ← Nat.add_zero pre.length, weight_append, weight_zero, ← hw] at hstart
        have hlt : (pre ++ bin).length < c + 1 := by
          by_contra hge
          have := weight_mono (w := w) (not_lt.mp hge)
          omega
        rw [List.length_append, hsep]
        omega)
    omega

theorem Packed.length_le {n : ℕ} (h : Packed w cap gap ends a) (hcut : Cut cap gap n w) :
    ends.length ≤ n := by
  have hle := hcut.length_le_add (k := 0) (List.nil_append w).symm
    (fun _ _ _ _ => Nat.zero_le _) h
  rwa [Nat.zero_add] at hle

end Packing

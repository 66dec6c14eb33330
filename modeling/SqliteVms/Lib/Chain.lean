import Mathlib.Order.Nat
import Mathlib.Tactic.Common

/-!
# Chains

One value for each index, neighbours related. The values that a chain passes through are found by a
pass up, which keeps what has a predecessor, and a pass down, which keeps what has a successor.

## Main definitions

* `Chain.IsChain` — a chain between two indices
* `Chain.Through` — a chain passes through a value

## Main results

* `Chain.through_succ` — what a step of the pass up keeps
* `Chain.through_iff` — what a step of the pass down keeps
-/

namespace Chain

variable {α : Type*} {has : ℕ → α → Prop} {near : ℕ → α → α → Prop} {a b i j : ℕ} {q q' : ℕ → α}
  {x : α}

/-- `q` is a chain from index `a` to index `b`. -/
structure IsChain (has : ℕ → α → Prop) (near : ℕ → α → α → Prop) (a b : ℕ) (q : ℕ → α) :
    Prop where
  has : ∀ i, a ≤ i → i ≤ b → has i (q i)
  near : ∀ i, a ≤ i → i < b → near i (q i) (q (i + 1))

/-- A chain from `a` to `b` has `x` at index `i`. -/
def Through (has : ℕ → α → Prop) (near : ℕ → α → α → Prop) (a b i : ℕ) (x : α) : Prop :=
  ∃ q, IsChain has near a b q ∧ q i = x

theorem IsChain.through (h : IsChain has near a b q) (i : ℕ) : Through has near a b i (q i) :=
  ⟨q, h, rfl⟩

/-- Part of a chain. -/
theorem IsChain.sub (h : IsChain has near a b q) (ha : a ≤ i) (hb : j ≤ b) :
    IsChain has near i j q :=
  ⟨fun n hi hj => h.has n (ha.trans hi) (hj.trans hb),
    fun n hi hj => h.near n (ha.trans hi) (hj.trans_le hb)⟩

/-- A chain, and then another one. -/
theorem IsChain.append (h : IsChain has near a i q) (h' : IsChain has near (i + 1) b q')
    (hn : near i (q i) (q' (i + 1))) :
    IsChain has near a b fun j => if j ≤ i then q j else q' j := by
  constructor
  · intro n ha hb
    split
    · exact h.has n ha ‹_›
    · exact h'.has n (by omega) hb
  · intro n ha hb
    rcases lt_trichotomy n i with hlt | rfl | hgt
    · rw [if_pos hlt.le, if_pos (by omega)]
      exact h.near n ha hlt
    · rw [if_pos le_rfl, if_neg (by omega)]
      exact hn
    · rw [if_neg (by omega), if_neg (by omega)]
      exact h'.near n hgt hb

theorem through_self : Through has near a a a x ↔ has a x := by
  constructor
  · rintro ⟨q, h, rfl⟩
    exact h.has a le_rfl le_rfl
  · intro hx
    refine ⟨fun _ => x, ⟨fun i ha hb => ?_, fun i ha hb => absurd hb (by omega)⟩, rfl⟩
    rwa [le_antisymm hb ha]

/-- **Up.** The last value of a longer chain comes after the last value of a chain. -/
theorem through_succ (h : a ≤ b) : Through has near a (b + 1) (b + 1) x ↔
    has (b + 1) x ∧ ∃ y, Through has near a b b y ∧ near b y x := by
  constructor
  · rintro ⟨q, hq, rfl⟩
    exact ⟨hq.has _ (by omega) le_rfl, q b, (hq.sub le_rfl (by omega)).through b,
      hq.near b h (by omega)⟩
  · rintro ⟨hx, _, ⟨q, hq, rfl⟩, hn⟩
    have hself : Through has near (b + 1) (b + 1) (b + 1) x := through_self.mpr hx
    obtain ⟨q', hq', rfl⟩ := hself
    exact ⟨_, hq.append hq' hn, if_neg (by omega)⟩

/-- **Down.** A chain passes through the last value of a shorter chain when it passes through one
after it. -/
theorem through_iff (ha : a ≤ i) (hb : i < b) : Through has near a b i x ↔
    Through has near a i i x ∧ ∃ y, Through has near a b (i + 1) y ∧ near i x y := by
  constructor
  · rintro ⟨q, hq, rfl⟩
    exact ⟨(hq.sub le_rfl hb.le).through i, q (i + 1), hq.through _, hq.near i ha hb⟩
  · rintro ⟨⟨q, hq, rfl⟩, _, ⟨q', hq', rfl⟩, hn⟩
    exact ⟨_, hq.append (hq'.sub (by omega) le_rfl) hn, if_pos le_rfl⟩

end Chain

import Mathlib.Data.Nat.Basic
import Mathlib.Logic.Relation

/-!
# Segments of code

A machine has a program counter, and a step that may be undefined. A segment is a range of program
counters. What a segment does is said of the runs that stay in it until they leave it; where they
leave it and in which state is then determined, whatever code stands before or behind.

Runs in a segment are runs in every segment that contains it, so code that is put together from
segments runs as they do, one after the other.

## Main definitions

* `Segment.Runs` — a run that stays in a segment up to its last state
* `Segment.Exits` — such a run, to a state outside

## Main results

* `Segment.Runs.seq` — segments one after the other
* `Segment.Exits.unique` — there is one exit
-/

namespace Segment

variable {σ : Type*} (step : ℕ × σ → Option (ℕ × σ))

/-- A run from `s` to `t` that stays between `lo` and `hi` until it comes to `t`. -/
def Runs (lo hi : ℕ) : ℕ × σ → ℕ × σ → Prop :=
  Relation.ReflTransGen fun s t => lo ≤ s.1 ∧ s.1 < hi ∧ step s = some t

/-- A run from `s` that leaves the segment in the state `t`. -/
def Exits (lo hi : ℕ) (s t : ℕ × σ) : Prop := Runs step lo hi s t ∧ ¬(lo ≤ t.1 ∧ t.1 < hi)

variable {step} {lo hi lo' hi' pc pc' : ℕ} {s t u : ℕ × σ} {m m' : σ}

theorem Runs.refl (s : ℕ × σ) : Runs step lo hi s s := Relation.ReflTransGen.refl

theorem Runs.mono (h : Runs step lo hi s t) (hlo : lo' ≤ lo) (hhi : hi ≤ hi') :
    Runs step lo' hi' s t :=
  Relation.ReflTransGen.mono
    (fun _ _ h => ⟨Nat.le_trans hlo h.1, Nat.lt_of_lt_of_le h.2.1 hhi, h.2.2⟩) _ _ h

theorem Runs.trans (h : Runs step lo hi s t) (h' : Runs step lo hi t u) : Runs step lo hi s u :=
  Relation.ReflTransGen.trans h h'

/-- Two segments, the second from where the first ends. -/
theorem Runs.seq {mid : ℕ} (h : Runs step lo mid s t) (h' : Runs step mid hi t u) (hlo : lo ≤ mid)
    (hhi : mid ≤ hi) : Runs step lo hi s u :=
  (h.mono le_rfl hhi).trans (h'.mono hlo le_rfl)

/-- One instruction. -/
theorem Runs.one (h : step (pc, m) = some t) : Runs step pc (pc + 1) (pc, m) t :=
  Relation.ReflTransGen.single ⟨le_rfl, Nat.lt_succ_self pc, h⟩

/-- A segment and one instruction behind it. -/
theorem Runs.snoc (h : Runs step lo pc s (pc, m)) (hlo : lo ≤ pc) (hstep : step (pc, m) = some t) :
    Runs step lo (pc + 1) s t :=
  h.seq (Runs.one hstep) hlo (Nat.le_succ pc)

/-- **There is one exit.** -/
theorem Exits.unique (h : Exits step lo hi s t) (h' : Exits step lo hi s u) : t = u := by
  have hright : Relator.RightUnique fun s t : ℕ × σ => lo ≤ s.1 ∧ s.1 < hi ∧ step s = some t :=
    fun _ _ _ h h' => Option.some.inj (h.2.2.symm.trans h'.2.2)
  have hstop : ∀ {a b : ℕ × σ}, ¬(lo ≤ a.1 ∧ a.1 < hi) → Runs step lo hi a b → a = b := by
    intro a b ha hab
    rcases Relation.ReflTransGen.cases_head hab with heq | ⟨c, hac, -⟩
    · exact heq
    · exact absurd ⟨hac.1, hac.2.1⟩ ha
  rcases Relation.ReflTransGen.total_of_right_unique hright h.1 h'.1 with hrun | hrun
  · exact hstop h.2 hrun
  · exact (hstop h'.2 hrun).symm

end Segment

import Mathlib.Data.Option.Basic
import Mathlib.Tactic.Common

/-!
# Checked runs

A step either fails a check, or ends with a result, or leads to another state. A run repeats it
until it ends. What a run needs to pass all its checks can be said of the states it comes to.

A loop that counts is a run of a known length. It needs an invariant only.

## Main definitions

* `Checked.run` — the run, with a bound on its steps
* `Checked.Reaches` — the states a run comes to
* `Checked.upTo` — a loop that counts

## Main results

* `Checked.isSome_run_iff` — a run passes all its checks and ends exactly when every state it comes
  to is good, for steps that pass their checks exactly in good states and come nearer to the end
-/

namespace Checked

variable {σ ρ : Type*}

/-- Steps until there is a result. -/
def run (step : σ → Option (ρ ⊕ σ)) : ℕ → σ → Option ρ
  | 0, _ => none
  | n + 1, s => (step s).bind fun r =>
    match r with
    | .inl r => some r
    | .inr s => run step n s

/-- The states that a run comes to. -/
inductive Reaches (step : σ → Option (ρ ⊕ σ)) : σ → σ → Prop
  | refl (s : σ) : Reaches step s s
  | head {s s' s'' : σ} : step s = some (.inr s') → Reaches step s' s'' → Reaches step s s''

variable {step : σ → Option (ρ ⊕ σ)} {s s' : σ}

/-- **The rule for checked runs.** -/
theorem isSome_run_iff {Inv good : σ → Prop} (measure : σ → ℕ)
    (hstep : ∀ s, Inv s → ((step s).isSome ↔ good s))
    (hinv : ∀ s s', Inv s → step s = some (.inr s') → Inv s' ∧ measure s' < measure s)
    (hs : Inv s) {fuel : ℕ} (hfuel : measure s < fuel) :
    (run step fuel s).isSome ↔ ∀ s', Reaches step s s' → good s' := by
  induction fuel generalizing s with
  | zero => omega
  | succ n ih =>
    constructor
    · intro h s' hreach
      rw [run] at h
      cases hreach with
      | refl =>
        refine (hstep s hs).mp ?_
        cases hr : step s with
        | none =>
          rw [hr] at h
          cases h
        | some r => rfl
      | head hnext hrest =>
        obtain ⟨hs', hlt⟩ := hinv _ _ hs hnext
        rw [hnext] at h
        exact (ih hs' (by omega)).mp h _ hrest
    · intro h
      have hgood := (hstep s hs).mpr (h s (.refl s))
      obtain ⟨r, hr⟩ := Option.isSome_iff_exists.mp hgood
      rw [run, hr, Option.bind_some]
      cases r with
      | inl r => rfl
      | inr s' =>
        obtain ⟨hs', hlt⟩ := hinv _ _ hs hr
        exact (ih hs' (by omega)).mpr fun s'' hreach => h s'' (.head hr hreach)

/-- A loop that counts from 0 to `n`. -/
def upTo (f : ℕ → σ → Option σ) (s : σ) : ℕ → Option σ
  | 0 => some s
  | n + 1 => (upTo f s n).bind (f n)

/-- **The rule for a loop that counts.** -/
theorem upTo_spec {f : ℕ → σ → Option σ} {P : ℕ → σ → Prop} {n : ℕ} (h0 : P 0 s)
    (hstep : ∀ k < n, ∀ s, P k s → ∃ s', f k s = some s' ∧ P (k + 1) s') :
    ∃ s', upTo f s n = some s' ∧ P n s' := by
  induction n with
  | zero => exact ⟨s, rfl, h0⟩
  | succ n ih =>
    obtain ⟨t, ht, hP⟩ := ih fun k hk => hstep k (by omega)
    obtain ⟨t', ht', hP'⟩ := hstep n (by omega) t hP
    exact ⟨t', by rw [upTo, ht, Option.bind_some, ht'], hP'⟩

end Checked

import Mathlib.Data.Fintype.Card
import Mathlib.Logic.Relation
import Mathlib.Order.WellFounded

/-!
# Locks taken in order

Some processes hold locks, and some of them wait for one. If the locks are ordered and nobody waits
for a lock below one it holds, then nobody waits for itself, through whomever, and of finitely many
processes those that wait all wait for one that does not.

## Main definitions

* `WaitsFor` — one process waits for another

## Main results

* `not_transGen_self` — there is no circle
* `exists_running` — at the end of every chain somebody runs
-/

namespace LockOrder

variable {κ μ : Type*} (wants : κ → Option μ) (owner : μ → Option κ)

/-- One process waits for another. -/
def WaitsFor (c d : κ) : Prop := ∃ m, wants c = some m ∧ owner m = some d

variable {wants owner}

variable [LinearOrder μ]

/-- Along a chain the locks that are waited for go up. -/
theorem lt_of_transGen (h : ∀ c m m', wants c = some m → owner m' = some c → m' < m) {c d : κ}
    {m m' : μ} (hcd : Relation.TransGen (WaitsFor wants owner) c d) (hc : wants c = some m)
    (hd : wants d = some m') : m < m' := by
  induction hcd generalizing m' with
  | single hw =>
    obtain ⟨x, hx, howner⟩ := hw
    obtain rfl := Option.some.inj (hx.symm.trans hc)
    exact h _ _ _ hd howner
  | tail hcb hw ih =>
    obtain ⟨x, hx, howner⟩ := hw
    exact (ih hx).trans (h _ _ _ hd howner)

/-- **There is no circle.** -/
theorem not_transGen_self (h : ∀ c m m', wants c = some m → owner m' = some c → m' < m) (c : κ) :
    ¬ Relation.TransGen (WaitsFor wants owner) c c := by
  intro hcc
  obtain ⟨d, ⟨m, hm, -⟩, -⟩ := Relation.TransGen.head'_iff.mp hcc
  exact lt_irrefl m (lt_of_transGen h hcc hm hm)

/-- **At the end of every chain somebody runs.** -/
theorem exists_running [Finite κ] (h : ∀ c m m', wants c = some m → owner m' = some c → m' < m)
    (c : κ) : ∃ d, Relation.ReflTransGen (WaitsFor wants owner) c d ∧ ∀ e, ¬ WaitsFor wants owner d e := by
  let R : κ → κ → Prop := fun d c => Relation.TransGen (WaitsFor wants owner) c d
  have : IsTrans κ R := ⟨fun _ _ _ hab hbc => hbc.trans hab⟩
  have : Std.Irrefl R := ⟨not_transGen_self h⟩
  have hwf : WellFounded R := Finite.wellFounded_of_trans_of_irrefl R
  induction c using hwf.induction with
  | h c ih =>
    by_cases hc : ∃ e, WaitsFor wants owner c e
    · obtain ⟨e, he⟩ := hc
      obtain ⟨d, hed, hd⟩ := ih e (.single he)
      exact ⟨d, .head he hed, hd⟩
    · exact ⟨c, .refl, fun e he => hc ⟨e, he⟩⟩

end LockOrder

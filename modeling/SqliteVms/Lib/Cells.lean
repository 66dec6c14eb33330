import Mathlib.Data.List.Nodup
import Mathlib.Data.List.Pairwise

/-!
# Cells with two pointers

The same cells serve as the elements of a list, by one of their pointers, and as the nodes of a
binary tree, by both. What is said of a list or a tree names its cells, so that several of them and
the remains of old ones live in one memory, and a change of other cells does not matter
(`Seg.congr`, `IsTree.congr`).

## Main definitions

* `Cells.Seg`, `Cells.Chain` — a list, up to a pointer or to the null pointer
* `Cells.Shape`, `Cells.IsTree` — a tree
* `Cells.Shape.flat` — its nodes from left to right
-/

namespace Cells

variable {α : Type*}

/-! ### Lists -/

/-- The pointer `p` leads, by `next`, through the cells `as` to the pointer `q`. -/
def Seg (next : α → Option α) : Option α → List α → Option α → Prop
  | p, [], q => p = q
  | p, a :: as, q => p = some a ∧ Seg next (next a) as q

/-- The pointer `p` leads through the cells `as` to the null pointer. -/
def Chain (next : α → Option α) (p : Option α) (as : List α) : Prop := Seg next p as none

variable {next next' left right left' right' : α → Option α} {p q : Option α} {as bs : List α}

theorem Seg.congr (h : Seg next p as q) (hnext : ∀ a ∈ as, next' a = next a) :
    Seg next' p as q := by
  induction as generalizing p with
  | nil => exact h
  | cons a as ih =>
    obtain ⟨ha, has⟩ := List.forall_mem_cons.mp hnext
    exact ⟨h.1, ih (ha ▸ h.2) has⟩

theorem seg_append : Seg next p (as ++ bs) q ↔ ∃ m, Seg next p as m ∧ Seg next m bs q := by
  induction as generalizing p with
  | nil =>
    constructor
    · exact fun h => ⟨p, rfl, h⟩
    · rintro ⟨m, rfl, h⟩
      exact h
  | cons a as ih =>
    rw [List.cons_append, Seg, ih]
    constructor
    · rintro ⟨hp, m, hm, h⟩
      exact ⟨m, ⟨hp, hm⟩, h⟩
    · rintro ⟨m, ⟨hp, hm⟩, h⟩
      exact ⟨hp, m, hm, h⟩

/-- The last cell is made to point to `q'`. -/
theorem Seg.setLast {a : α} (h : Seg next p (as ++ [a]) q) (hnext : ∀ b ∈ as, next' b = next b)
    {q' : Option α} (ha : next' a = q') : Seg next' p (as ++ [a]) q' := by
  obtain ⟨m, hm, hlast⟩ := seg_append.mp h
  exact seg_append.mpr ⟨m, hm.congr hnext, hlast.1, ha⟩

theorem Chain.congr (h : Chain next p as) (hnext : ∀ a ∈ as, next' a = next a) :
    Chain next' p as := Seg.congr h hnext

theorem Chain.eq_nil (h : Chain next none as) : as = [] := by
  cases as with
  | nil => rfl
  | cons a as => exact absurd h.1 nofun

theorem Chain.eq_cons {a : α} (h : Chain next (some a) as) :
    ∃ bs, as = a :: bs ∧ Chain next (next a) bs := by
  cases as with
  | nil => exact absurd h nofun
  | cons b bs =>
    obtain ⟨hab, h⟩ := h
    obtain rfl := Option.some.inj hab
    exact ⟨bs, rfl, h⟩

/-! ### Trees -/

/-- A tree, with the cell of every node. -/
inductive Shape (α : Type*)
  | leaf
  | node (l : Shape α) (a : α) (r : Shape α)

/-- The nodes from left to right. -/
def Shape.flat : Shape α → List α
  | leaf => []
  | node l a r => l.flat ++ a :: r.flat

/-- The pointer `p` leads to the root of the tree. -/
def IsTree (left right : α → Option α) : Option α → Shape α → Prop
  | p, .leaf => p = none
  | p, .node l a r => p = some a ∧ IsTree left right (left a) l ∧ IsTree left right (right a) r

theorem IsTree.congr {t : Shape α} (h : IsTree left right p t)
    (hleft : ∀ a ∈ t.flat, left' a = left a) (hright : ∀ a ∈ t.flat, right' a = right a) :
    IsTree left' right' p t := by
  induction t generalizing p with
  | leaf => exact h
  | node l a r ihl ihr =>
    obtain ⟨hp, hl, hr⟩ := h
    simp only [Shape.flat, List.mem_append, List.mem_cons] at hleft hright
    refine ⟨hp, ihl ?_ ?_ ?_, ihr ?_ ?_ ?_⟩
    · rw [hleft a (Or.inr (Or.inl rfl))]; exact hl
    · exact fun b hb => hleft b (Or.inl hb)
    · exact fun b hb => hright b (Or.inl hb)
    · rw [hright a (Or.inr (Or.inl rfl))]; exact hr
    · exact fun b hb => hleft b (Or.inr (Or.inr hb))
    · exact fun b hb => hright b (Or.inr (Or.inr hb))

theorem IsTree.eq_leaf {t : Shape α} (h : IsTree left right none t) : t = .leaf := by
  cases t with
  | leaf => rfl
  | node l a r => exact absurd h.1 nofun

theorem IsTree.eq_node {a : α} {t : Shape α} (h : IsTree left right (some a) t) :
    ∃ l r, t = .node l a r ∧ IsTree left right (left a) l ∧ IsTree left right (right a) r := by
  cases t with
  | leaf => exact absurd h nofun
  | node l b r =>
    obtain ⟨hab, hl, hr⟩ := h
    obtain rfl := Option.some.inj hab
    exact ⟨l, r, rfl, hl, hr⟩

end Cells

import Mathlib.Algebra.Order.Ring.Int
import Mathlib.Data.List.Sort

/-!
# NEAR on position lists

A position list as what it stands for: the columns that have positions, in order, and the positions of
each, in order. The loops of the merge functions are those of the source; a pointer is what is left of
a column or of a list.

## Main definitions

* `Poslist` — a position list
* `phraseMerge`, `poslistMerge`, `nearMerge` — the functions
* `IsNear` — two positions are near

## Main results

* `has_nearMerge` — what `nearMerge` keeps
-/

namespace SqliteVms

namespace Fts3

namespace Query

/-- A position list: the columns with their positions. -/
abbrev Poslist := List (ℕ × List ℕ)

/-- What a round of the inner loop of `fts3PoslistPhraseMerge` writes, without `isExact`. -/
def savePos (nToken : ℤ) (isSaveLeft : Bool) (iPos1 iPos2 : ℕ) : List ℕ :=
  if (iPos2 : ℤ) = iPos1 + nToken ∨ iPos1 < iPos2 ∧ (iPos2 : ℤ) ≤ iPos1 + nToken then
    [if isSaveLeft then iPos1 else iPos2]
  else []

/-- The inner loop of `fts3PoslistPhraseMerge`. -/
def columnPhraseMerge (nToken : ℤ) (isSaveLeft : Bool) : List ℕ → List ℕ → List ℕ
  | iPos1 :: p1, iPos2 :: p2 =>
    if (isSaveLeft = false ∧ (iPos2 : ℤ) ≤ iPos1 + nToken) ∨ iPos2 ≤ iPos1 then
      savePos nToken isSaveLeft iPos1 iPos2 ++
        columnPhraseMerge nToken isSaveLeft (iPos1 :: p1) p2
    else
      savePos nToken isSaveLeft iPos1 iPos2 ++
        columnPhraseMerge nToken isSaveLeft p1 (iPos2 :: p2)
  | _, _ => []
termination_by p1 p2 => p1.length + p2.length

/-- A column that is written, unless there is nothing in it. -/
def putColumn (iCol : ℕ) (ps : List ℕ) (rest : Poslist) : Poslist :=
  if ps = [] then rest else (iCol, ps) :: rest

/-- `fts3PoslistPhraseMerge`, without `isExact`. -/
def phraseMerge (nToken : ℤ) (isSaveLeft : Bool) : Poslist → Poslist → Poslist
  | (iCol1, ps1) :: p1, (iCol2, ps2) :: p2 =>
    if iCol1 = iCol2 then
      putColumn iCol1 (columnPhraseMerge nToken isSaveLeft ps1 ps2)
        (phraseMerge nToken isSaveLeft p1 p2)
    else if iCol1 < iCol2 then phraseMerge nToken isSaveLeft p1 ((iCol2, ps2) :: p2)
    else phraseMerge nToken isSaveLeft ((iCol1, ps1) :: p1) p2
  | _, _ => []
termination_by p1 p2 => p1.length + p2.length

/-- The inner loop of `fts3PoslistMerge`. -/
def columnMerge : List ℕ → List ℕ → List ℕ
  | i1 :: p1, i2 :: p2 =>
    if i1 = i2 then i1 :: columnMerge p1 p2
    else if i1 < i2 then i1 :: columnMerge p1 (i2 :: p2)
    else i2 :: columnMerge (i1 :: p1) p2
  | [], p2 => p2
  | p1, [] => p1
termination_by p1 p2 => p1.length + p2.length

/-- `fts3PoslistMerge`. -/
def poslistMerge : Poslist → Poslist → Poslist
  | (iCol1, ps1) :: p1, (iCol2, ps2) :: p2 =>
    if iCol1 = iCol2 then (iCol1, columnMerge ps1 ps2) :: poslistMerge p1 p2
    else if iCol1 < iCol2 then (iCol1, ps1) :: poslistMerge p1 ((iCol2, ps2) :: p2)
    else (iCol2, ps2) :: poslistMerge ((iCol1, ps1) :: p1) p2
  | [], p2 => p2
  | p1, [] => p1
termination_by p1 p2 => p1.length + p2.length

/-- `fts3PoslistNearMerge`: nothing is left if the result is 0. -/
def nearMerge (nRight nLeft : ℤ) (p1 p2 : Poslist) : Poslist :=
  poslistMerge (phraseMerge nRight false p1 p2) (phraseMerge nLeft true p2 p1)

/-! ### What a position list has -/

/-- The position is in the list. -/
def Poslist.Has (p : Poslist) (iCol iPos : ℕ) : Prop := ∃ ps, (iCol, ps) ∈ p ∧ iPos ∈ ps

/-- The columns are in order, none is empty, and the positions of each are in order. -/
structure Poslist.Valid (p : Poslist) : Prop where
  columns : (p.map Prod.fst).Pairwise (· < ·)
  nonempty : ∀ c ∈ p, c.2 ≠ []
  positions : ∀ c ∈ p, c.2.Pairwise (· < ·)

variable {p p1 p2 : Poslist} {iCol iPos c c1 c2 : ℕ} {nToken : ℤ} {ps ps1 ps2 : List ℕ}
  {isSaveLeft : Bool}

@[simp] theorem not_has_nil : ¬ Poslist.Has [] iCol iPos := by
  rintro ⟨_, h, _⟩
  nomatch h

theorem has_cons : Poslist.Has ((c, ps) :: p) iCol iPos ↔
    (iCol = c ∧ iPos ∈ ps) ∨ p.Has iCol iPos := by
  constructor
  · rintro ⟨qs, hmem, hpos⟩
    rcases List.mem_cons.mp hmem with heq | hmem
    · obtain ⟨rfl, rfl⟩ := Prod.mk.inj heq
      exact Or.inl ⟨rfl, hpos⟩
    · exact Or.inr ⟨qs, hmem, hpos⟩
  · rintro (⟨rfl, hpos⟩ | ⟨qs, hmem, hpos⟩)
    · exact ⟨ps, List.mem_cons_self, hpos⟩
    · exact ⟨qs, List.mem_cons_of_mem _ hmem, hpos⟩

theorem Poslist.Valid.tail (h : Poslist.Valid ((c, ps) :: p)) : p.Valid :=
  ⟨(List.pairwise_cons.mp h.columns).2, fun q hq => h.nonempty q (List.mem_cons_of_mem _ hq),
    fun q hq => h.positions q (List.mem_cons_of_mem _ hq)⟩

theorem Poslist.Valid.head (h : Poslist.Valid ((c, ps) :: p)) : ps.Pairwise (· < ·) :=
  h.positions _ List.mem_cons_self

/-- The columns after the first one come after it. -/
theorem Poslist.Valid.lt_of_has (h : Poslist.Valid ((c, ps) :: p)) (hp : p.Has iCol iPos) :
    c < iCol := by
  obtain ⟨qs, hmem, _⟩ := hp
  exact (List.pairwise_cons.mp h.columns).1 _ (List.mem_map_of_mem hmem)

theorem Poslist.Valid.cons (hne : ps ≠ []) (hps : ps.Pairwise (· < ·)) (hp : p.Valid)
    (hlt : ∀ q ∈ p, c < q.1) : Poslist.Valid ((c, ps) :: p) := by
  constructor
  case columns =>
    refine List.pairwise_cons.mpr ⟨fun c' hc' => ?_, hp.columns⟩
    obtain ⟨q, hq, rfl⟩ := List.mem_map.mp hc'
    exact hlt q hq
  case nonempty => exact List.forall_mem_cons.mpr ⟨hne, hp.nonempty⟩
  case positions => exact List.forall_mem_cons.mpr ⟨hps, hp.positions⟩

theorem Poslist.Valid.head_ne (h : Poslist.Valid ((c, ps) :: p)) : ps ≠ [] :=
  h.nonempty _ List.mem_cons_self

/-! ### One column -/

/-- The window is not empty, or there is no pair of positions with just this distance: the first test
of the loop would take them for a pair in the window. -/
def Fair (nToken : ℤ) (ps1 ps2 : List ℕ) : Prop :=
  0 < nToken ∨ ∀ a ∈ ps1, ∀ b ∈ ps2, (b : ℤ) ≠ a + nToken

theorem Fair.mono {qs1 qs2 : List ℕ} (h : Fair nToken ps1 ps2) (h1 : qs1 ⊆ ps1) (h2 : qs2 ⊆ ps2) :
    Fair nToken qs1 qs2 :=
  h.imp_right fun hne a ha b hb => hne a (h1 ha) b (h2 hb)

theorem Fair.head {x y : ℕ} {xs ys : List ℕ} (h : Fair nToken (x :: xs) (y :: ys)) :
    0 < nToken ∨ (y : ℤ) ≠ x + nToken :=
  h.imp_right fun hne => hne x List.mem_cons_self y List.mem_cons_self

theorem mem_savePos (hn : 0 < nToken ∨ (c2 : ℤ) ≠ c1 + nToken) : iPos ∈ savePos nToken isSaveLeft c1 c2 ↔
    iPos = (if isSaveLeft then c1 else c2) ∧ c1 < c2 ∧ (c2 : ℤ) ≤ c1 + nToken := by
  unfold savePos
  split
  case isTrue h =>
    rw [List.mem_singleton]
    exact ⟨fun heq => ⟨heq, by omega⟩, fun h => h.1⟩
  case isFalse h => exact iff_of_false List.not_mem_nil fun hc => h (Or.inr hc.2)

/-- What is kept of the right column: what follows something of the left one closely. -/
theorem mem_columnPhraseMerge_right (hn : Fair nToken ps1 ps2) (h1 : ps1.Pairwise (· < ·))
    (h2 : ps2.Pairwise (· < ·)) :
    iPos ∈ columnPhraseMerge nToken false ps1 ps2 ↔
      iPos ∈ ps2 ∧ ∃ q ∈ ps1, q < iPos ∧ (iPos : ℤ) ≤ q + nToken := by
  fun_induction columnPhraseMerge nToken false ps1 ps2 with
  | case1 x xs y ys hadv ih =>
    obtain ⟨h1x, h1'⟩ := List.pairwise_cons.mp h1
    obtain ⟨h2y, h2'⟩ := List.pairwise_cons.mp h2
    rw [List.mem_append, mem_savePos hn.head,
      ih (hn.mono (List.Subset.refl _) (List.subset_cons_self _ _)) h1 h2', List.mem_cons]
    simp only [Bool.false_eq_true, if_false]
    constructor
    · rintro (⟨rfl, hlt, hle⟩ | ⟨hmem, hq⟩)
      · exact ⟨Or.inl rfl, x, List.mem_cons_self, hlt, hle⟩
      · exact ⟨Or.inr hmem, hq⟩
    · rintro ⟨rfl | hmem, q, hq, hlt, hle⟩
      · -- `y` is not kept only if it is not above `x`, the first of the left column
        refine Or.inl ⟨rfl, ?_⟩
        rcases List.mem_cons.mp hq with rfl | hq
        · omega
        · have := h1x q hq
          omega
      · exact Or.inr ⟨hmem, q, hq, hlt, hle⟩
  | case2 x xs y ys hadv ih =>
    obtain ⟨h1x, h1'⟩ := List.pairwise_cons.mp h1
    obtain ⟨h2y, h2'⟩ := List.pairwise_cons.mp h2
    have hfar : (x : ℤ) + nToken < y := by
      by_contra hle
      exact hadv (Or.inl ⟨rfl, by omega⟩)
    rw [List.mem_append, mem_savePos hn.head,
      ih (hn.mono (List.subset_cons_self _ _) (List.Subset.refl _)) h1' h2]
    constructor
    · rintro (⟨-, hlt, hle⟩ | ⟨hmem, q, hq, hnear⟩)
      · omega
      · exact ⟨hmem, q, List.mem_cons_of_mem _ hq, hnear⟩
    · rintro ⟨hmem, q, hq, hlt, hle⟩
      rcases List.mem_cons.mp hq with rfl | hq
      · -- all of the right column is too far from `x`
        rcases List.mem_cons.mp hmem with rfl | hmem
        · omega
        · have := h2y _ hmem
          omega
      · exact Or.inr ⟨hmem, q, hq, hlt, hle⟩
  | case3 l1 l2 h =>
    refine iff_of_false List.not_mem_nil fun ⟨hmem, q, hq, _⟩ => ?_
    obtain ⟨x, xs, rfl⟩ := List.exists_cons_of_ne_nil (List.ne_nil_of_mem hq)
    obtain ⟨y, ys, rfl⟩ := List.exists_cons_of_ne_nil (List.ne_nil_of_mem hmem)
    exact h x xs y ys rfl rfl

/-- What is kept of the left column: what something of the right one follows closely. -/
theorem mem_columnPhraseMerge_left (hn : Fair nToken ps1 ps2) (h1 : ps1.Pairwise (· < ·))
    (h2 : ps2.Pairwise (· < ·)) :
    iPos ∈ columnPhraseMerge nToken true ps1 ps2 ↔
      iPos ∈ ps1 ∧ ∃ q ∈ ps2, iPos < q ∧ (q : ℤ) ≤ iPos + nToken := by
  fun_induction columnPhraseMerge nToken true ps1 ps2 with
  | case1 x xs y ys hadv ih =>
    obtain ⟨h1x, h1'⟩ := List.pairwise_cons.mp h1
    obtain ⟨h2y, h2'⟩ := List.pairwise_cons.mp h2
    have hle : y ≤ x := hadv.resolve_left fun h => nomatch h.1
    rw [List.mem_append, mem_savePos hn.head,
      ih (hn.mono (List.Subset.refl _) (List.subset_cons_self _ _)) h1 h2']
    constructor
    · rintro (⟨-, hlt, -⟩ | ⟨hmem, q, hq, hnear⟩)
      · omega
      · exact ⟨hmem, q, List.mem_cons_of_mem _ hq, hnear⟩
    · rintro ⟨hmem, q, hq, hlt, hle'⟩
      rcases List.mem_cons.mp hq with rfl | hq
      · -- nothing of the left column is below `y`
        rcases List.mem_cons.mp hmem with rfl | hmem
        · omega
        · have := h1x _ hmem
          omega
      · exact Or.inr ⟨hmem, q, hq, hlt, hle'⟩
  | case2 x xs y ys hadv ih =>
    obtain ⟨h1x, h1'⟩ := List.pairwise_cons.mp h1
    obtain ⟨h2y, h2'⟩ := List.pairwise_cons.mp h2
    rw [List.mem_append, mem_savePos hn.head,
      ih (hn.mono (List.subset_cons_self _ _) (List.Subset.refl _)) h1' h2, List.mem_cons]
    simp only [if_true]
    constructor
    · rintro (⟨rfl, hlt, hle⟩ | ⟨hmem, hq⟩)
      · exact ⟨Or.inl rfl, y, List.mem_cons_self, hlt, hle⟩
      · exact ⟨Or.inr hmem, hq⟩
    · rintro ⟨rfl | hmem, q, hq, hlt, hle⟩
      · -- `y` is the first that follows `x`
        refine Or.inl ⟨rfl, ?_⟩
        rcases List.mem_cons.mp hq with rfl | hq
        · omega
        · have := h2y q hq
          omega
      · exact Or.inr ⟨hmem, q, hq, hlt, hle⟩
  | case3 l1 l2 h =>
    refine iff_of_false List.not_mem_nil fun ⟨hmem, q, hq, _⟩ => ?_
    obtain ⟨x, xs, rfl⟩ := List.exists_cons_of_ne_nil (List.ne_nil_of_mem hmem)
    obtain ⟨y, ys, rfl⟩ := List.exists_cons_of_ne_nil (List.ne_nil_of_mem hq)
    exact h x xs y ys rfl rfl

/-- What is kept, on either side. -/
theorem mem_columnPhraseMerge (hn : Fair nToken ps1 ps2) (h1 : ps1.Pairwise (· < ·))
    (h2 : ps2.Pairwise (· < ·)) :
    iPos ∈ columnPhraseMerge nToken isSaveLeft ps1 ps2 ↔
      ∃ a ∈ ps1, ∃ b ∈ ps2, a < b ∧ (b : ℤ) ≤ a + nToken ∧ iPos = if isSaveLeft then a else b := by
  cases isSaveLeft with
  | false =>
    rw [mem_columnPhraseMerge_right hn h1 h2]
    constructor
    · rintro ⟨hmem, q, hq, hlt, hle⟩
      exact ⟨q, hq, iPos, hmem, hlt, hle, rfl⟩
    · rintro ⟨a, ha, b, hb, hlt, hle, rfl⟩
      exact ⟨hb, a, ha, hlt, hle⟩
  | true =>
    rw [mem_columnPhraseMerge_left hn h1 h2]
    constructor
    · rintro ⟨hmem, q, hq, hlt, hle⟩
      exact ⟨iPos, hmem, q, hq, hlt, hle, rfl⟩
    · rintro ⟨a, ha, b, hb, hlt, hle, rfl⟩
      exact ⟨ha, b, hb, hlt, hle⟩

/-- At most one position is written in a round. -/
theorem pairwise_savePos_append {rest : List ℕ} (hrest : rest.Pairwise (· < ·))
    (h : iPos ∈ savePos nToken isSaveLeft c1 c2 → ∀ x ∈ rest, iPos < x)
    (heq : iPos = if isSaveLeft then c1 else c2) :
    (savePos nToken isSaveLeft c1 c2 ++ rest).Pairwise (· < ·) := by
  subst heq
  unfold savePos at h ⊢
  by_cases hsave : (c2 : ℤ) = c1 + nToken ∨ c1 < c2 ∧ (c2 : ℤ) ≤ c1 + nToken
  · rw [if_pos hsave] at h ⊢
    exact List.pairwise_cons.mpr ⟨h (List.mem_singleton.mpr rfl), hrest⟩
  · rw [if_neg hsave]
    exact hrest

theorem pairwise_columnPhraseMerge (hn : Fair nToken ps1 ps2) (h1 : ps1.Pairwise (· < ·))
    (h2 : ps2.Pairwise (· < ·)) :
    (columnPhraseMerge nToken isSaveLeft ps1 ps2).Pairwise (· < ·) := by
  fun_induction columnPhraseMerge nToken isSaveLeft ps1 ps2 with
  | case1 x xs y ys hadv ih =>
    obtain ⟨h1x, h1'⟩ := List.pairwise_cons.mp h1
    obtain ⟨h2y, h2'⟩ := List.pairwise_cons.mp h2
    have hn' := hn.mono (List.Subset.refl (x :: xs)) (List.subset_cons_self y ys)
    refine pairwise_savePos_append (ih hn' h1 h2') (fun hsave b hb => ?_) rfl
    obtain ⟨-, hlt, hle⟩ := (mem_savePos hn.head).mp hsave
    obtain ⟨a, -, b', hb', -, -, rfl⟩ := (mem_columnPhraseMerge hn' h1 h2').mp hb
    cases isSaveLeft with
    | false => exact h2y b' hb'
    | true => exact absurd hadv (by simp; omega)
  | case2 x xs y ys hadv ih =>
    obtain ⟨h1x, h1'⟩ := List.pairwise_cons.mp h1
    have hn' := hn.mono (List.subset_cons_self x xs) (List.Subset.refl (y :: ys))
    refine pairwise_savePos_append (ih hn' h1' h2) (fun hsave b hb => ?_) rfl
    obtain ⟨-, hlt, hle⟩ := (mem_savePos hn.head).mp hsave
    obtain ⟨a, ha, b', -, -, -, rfl⟩ := (mem_columnPhraseMerge hn' h1' h2).mp hb
    cases isSaveLeft with
    | false => exact absurd (Or.inl ⟨rfl, hle⟩) hadv
    | true => exact h1x a ha
  | case3 => exact List.Pairwise.nil

theorem mem_columnMerge : iPos ∈ columnMerge ps1 ps2 ↔ iPos ∈ ps1 ∨ iPos ∈ ps2 := by
  fun_induction columnMerge ps1 ps2 with
  | case1 x xs ys ih =>
    simp only [List.mem_cons, ih]
    tauto
  | case2 x xs y ys _ _ ih =>
    simp only [List.mem_cons, ih]
    tauto
  | case3 x xs y ys _ _ ih =>
    simp only [List.mem_cons, ih]
    tauto
  | case4 => simp
  | case5 => simp

theorem columnMerge_ne_nil (h : ps1 ≠ []) : columnMerge ps1 ps2 ≠ [] := by
  obtain ⟨x, xs, rfl⟩ := List.exists_cons_of_ne_nil h
  exact List.ne_nil_of_mem (mem_columnMerge.mpr (Or.inl List.mem_cons_self))

theorem pairwise_columnMerge (h1 : ps1.Pairwise (· < ·)) (h2 : ps2.Pairwise (· < ·)) :
    (columnMerge ps1 ps2).Pairwise (· < ·) := by
  fun_induction columnMerge ps1 ps2 with
  | case1 x xs ys ih =>
    obtain ⟨h1x, h1'⟩ := List.pairwise_cons.mp h1
    obtain ⟨h2x, h2'⟩ := List.pairwise_cons.mp h2
    exact List.pairwise_cons.mpr
      ⟨fun b hb => (mem_columnMerge.mp hb).elim (h1x b) (h2x b), ih h1' h2'⟩
  | case2 x xs y ys _ hlt ih =>
    obtain ⟨h1x, h1'⟩ := List.pairwise_cons.mp h1
    obtain ⟨h2y, h2'⟩ := List.pairwise_cons.mp h2
    refine List.pairwise_cons.mpr ⟨fun b hb => ?_, ih h1' h2⟩
    rcases mem_columnMerge.mp hb with hb | hb
    · exact h1x b hb
    · rcases List.mem_cons.mp hb with rfl | hb
      · exact hlt
      · exact hlt.trans (h2y b hb)
  | case3 x xs y ys hne hlt ih =>
    obtain ⟨h1x, h1'⟩ := List.pairwise_cons.mp h1
    obtain ⟨h2y, h2'⟩ := List.pairwise_cons.mp h2
    have hyx : y < x := by omega
    refine List.pairwise_cons.mpr ⟨fun b hb => ?_, ih h1 h2'⟩
    rcases mem_columnMerge.mp hb with hb | hb
    · rcases List.mem_cons.mp hb with rfl | hb
      · exact hyx
      · exact hyx.trans (h1x b hb)
    · exact h2y b hb
  | case4 => exact h2
  | case5 => exact h1

/-! ### Several columns -/

theorem has_putColumn : (putColumn c ps p).Has iCol iPos ↔
    (iCol = c ∧ iPos ∈ ps) ∨ p.Has iCol iPos := by
  unfold putColumn
  split
  case isTrue h => simp [h]
  case isFalse => exact has_cons

/-- The columns of two lists are fair. -/
def Poslist.Fair (nToken : ℤ) (p1 p2 : Poslist) : Prop :=
  ∀ iCol ps1 ps2, (iCol, ps1) ∈ p1 → (iCol, ps2) ∈ p2 → Query.Fair nToken ps1 ps2

theorem Poslist.fair_of_pos (h : 0 < nToken) (p1 p2 : Poslist) : Poslist.Fair nToken p1 p2 :=
  fun _ _ _ _ _ => Or.inl h

theorem Poslist.Fair.tail_left (h : Poslist.Fair nToken ((c, ps) :: p1) p2) :
    Poslist.Fair nToken p1 p2 :=
  fun iCol _ _ h1 h2 => h iCol _ _ (List.mem_cons_of_mem _ h1) h2

theorem Poslist.Fair.tail_right (h : Poslist.Fair nToken p1 ((c, ps) :: p2)) :
    Poslist.Fair nToken p1 p2 :=
  fun iCol _ _ h1 h2 => h iCol _ _ h1 (List.mem_cons_of_mem _ h2)

theorem Poslist.Fair.head (h : Poslist.Fair nToken ((c, ps1) :: p1) ((c, ps2) :: p2)) :
    Query.Fair nToken ps1 ps2 :=
  h c ps1 ps2 List.mem_cons_self List.mem_cons_self

/-- What is kept of two position lists. -/
theorem has_phraseMerge (hn : Poslist.Fair nToken p1 p2) (h1 : p1.Valid) (h2 : p2.Valid) :
    (phraseMerge nToken isSaveLeft p1 p2).Has iCol iPos ↔
      ∃ a b, p1.Has iCol a ∧ p2.Has iCol b ∧ a < b ∧ (b : ℤ) ≤ a + nToken ∧
        iPos = if isSaveLeft then a else b := by
  fun_induction phraseMerge nToken isSaveLeft p1 p2 with
  | case1 ps1 p1 c ps2 p2 ih =>
    rw [has_putColumn, ih hn.tail_left.tail_right h1.tail h2.tail,
      mem_columnPhraseMerge hn.head h1.head h2.head]
    constructor
    · rintro (⟨rfl, a, ha, b, hb, hab⟩ | ⟨a, b, ha, hb, hab⟩)
      · exact ⟨a, b, has_cons.mpr (Or.inl ⟨rfl, ha⟩), has_cons.mpr (Or.inl ⟨rfl, hb⟩), hab⟩
      · exact ⟨a, b, has_cons.mpr (Or.inr ha), has_cons.mpr (Or.inr hb), hab⟩
    · rintro ⟨a, b, ha, hb, hab⟩
      rcases has_cons.mp ha with ⟨hca, ha⟩ | ha <;> rcases has_cons.mp hb with ⟨hcb, hb⟩ | hb
      · exact Or.inl ⟨hca, a, ha, b, hb, hab⟩
      · have := h2.lt_of_has hb
        omega
      · have := h1.lt_of_has ha
        omega
      · exact Or.inr ⟨a, b, ha, hb, hab⟩
  | case2 c ps1 p1 c2 ps2 p2 hne hlt ih =>
    rw [ih hn.tail_left h1.tail h2]
    constructor
    · rintro ⟨a, b, ha, hb, hab⟩
      exact ⟨a, b, has_cons.mpr (Or.inr ha), hb, hab⟩
    · rintro ⟨a, b, ha, hb, hab⟩
      rcases has_cons.mp ha with ⟨rfl, -⟩ | ha
      · rcases has_cons.mp hb with ⟨hc, -⟩ | hb
        · exact absurd hc hne
        · have := h2.lt_of_has hb
          omega
      · exact ⟨a, b, ha, hb, hab⟩
  | case3 c ps1 p1 c2 ps2 p2 hne hlt ih =>
    rw [ih hn.tail_right h1 h2.tail]
    constructor
    · rintro ⟨a, b, ha, hb, hab⟩
      exact ⟨a, b, ha, has_cons.mpr (Or.inr hb), hab⟩
    · rintro ⟨a, b, ha, hb, hab⟩
      rcases has_cons.mp hb with ⟨rfl, -⟩ | hb
      · rcases has_cons.mp ha with ⟨hc, -⟩ | ha
        · exact absurd hc.symm hne
        · have := h1.lt_of_has ha
          omega
      · exact ⟨a, b, ha, hb, hab⟩
  | case4 l1 l2 h =>
    refine iff_of_false not_has_nil fun ⟨a, b, ⟨_, ha, _⟩, ⟨_, hb, _⟩, _⟩ => ?_
    obtain ⟨⟨c1, ps1⟩, xs, rfl⟩ := List.exists_cons_of_ne_nil (List.ne_nil_of_mem ha)
    obtain ⟨⟨c2, ps2⟩, ys, rfl⟩ := List.exists_cons_of_ne_nil (List.ne_nil_of_mem hb)
    exact h c1 ps1 xs c2 ps2 ys rfl rfl

theorem mem_putColumn {q : ℕ × List ℕ} (h : q ∈ putColumn c ps p) : q = (c, ps) ∨ q ∈ p := by
  unfold putColumn at h
  split at h
  case isTrue => exact Or.inr h
  case isFalse => exact List.mem_cons.mp h

theorem Poslist.Valid.putColumn (hps : ps.Pairwise (· < ·)) (hp : p.Valid)
    (hlt : ∀ q ∈ p, c < q.1) : (putColumn c ps p).Valid := by
  unfold Query.putColumn
  split
  case isTrue => exact hp
  case isFalse hne => exact Poslist.Valid.cons hne hps hp hlt

/-- The columns that are kept are columns of the left list. -/
theorem lt_of_mem_phraseMerge (h : ∀ q ∈ p1, c < q.1) :
    ∀ q ∈ phraseMerge nToken isSaveLeft p1 p2, c < q.1 := by
  fun_induction phraseMerge nToken isSaveLeft p1 p2 with
  | case1 ps1 p1 c2 ps2 p2 ih =>
    intro q hq
    rcases mem_putColumn hq with heq | hq
    · rw [heq]
      exact h (c2, ps1) List.mem_cons_self
    · exact ih (fun q hq => h q (List.mem_cons_of_mem _ hq)) q hq
  | case2 _ _ _ _ _ _ _ _ ih => exact ih fun q hq => h q (List.mem_cons_of_mem _ hq)
  | case3 _ _ _ _ _ _ _ _ ih => exact ih h
  | case4 => exact nofun

theorem Poslist.Valid.lt_head (h : Poslist.Valid ((c, ps) :: p)) : ∀ q ∈ p, c < q.1 :=
  fun _ hq => (List.pairwise_cons.mp h.columns).1 _ (List.mem_map_of_mem hq)

theorem Poslist.Valid.phraseMerge (hn : Poslist.Fair nToken p1 p2) (h1 : p1.Valid) (h2 : p2.Valid) :
    (phraseMerge nToken isSaveLeft p1 p2).Valid := by
  fun_induction Query.phraseMerge nToken isSaveLeft p1 p2 with
  | case1 ps1 p1 c2 ps2 p2 ih =>
    exact (ih hn.tail_left.tail_right h1.tail h2.tail).putColumn
      (pairwise_columnPhraseMerge hn.head h1.head h2.head)
      (lt_of_mem_phraseMerge h1.lt_head)
  | case2 _ _ _ _ _ _ _ _ ih => exact ih hn.tail_left h1.tail h2
  | case3 _ _ _ _ _ _ _ _ ih => exact ih hn.tail_right h1 h2.tail
  | case4 => exact ⟨List.Pairwise.nil, nofun, nofun⟩

/-- **The union of two position lists.** -/
theorem has_poslistMerge :
    (poslistMerge p1 p2).Has iCol iPos ↔ p1.Has iCol iPos ∨ p2.Has iCol iPos := by
  fun_induction poslistMerge p1 p2 with
  | case1 ps1 p1 c ps2 p2 ih =>
    simp only [has_cons, ih, mem_columnMerge]
    tauto
  | case2 _ _ _ _ _ _ _ _ ih =>
    simp only [has_cons, ih]
    tauto
  | case3 _ _ _ _ _ _ _ _ ih =>
    simp only [has_cons, ih]
    tauto
  | case4 => simp
  | case5 => simp

theorem lt_of_mem_poslistMerge (h1 : ∀ q ∈ p1, c < q.1) (h2 : ∀ q ∈ p2, c < q.1) :
    ∀ q ∈ poslistMerge p1 p2, c < q.1 := by
  fun_induction poslistMerge p1 p2 with
  | case1 ps1 p1 c2 ps2 p2 ih =>
    rw [List.forall_mem_cons] at h1 h2 ⊢
    exact ⟨h1.1, ih h1.2 h2.2⟩
  | case2 _ _ _ _ _ _ _ _ ih =>
    rw [List.forall_mem_cons] at h1 ⊢
    exact ⟨h1.1, ih h1.2 h2⟩
  | case3 _ _ _ _ _ _ _ _ ih =>
    rw [List.forall_mem_cons] at h2 ⊢
    exact ⟨h2.1, ih h1 h2.2⟩
  | case4 => exact h2
  | case5 => exact h1

theorem Poslist.Valid.poslistMerge (h1 : p1.Valid) (h2 : p2.Valid) :
    (poslistMerge p1 p2).Valid := by
  fun_induction Query.poslistMerge p1 p2 with
  | case1 ps1 p1 c2 ps2 p2 ih =>
    exact Poslist.Valid.cons (columnMerge_ne_nil h1.head_ne)
      (pairwise_columnMerge h1.head h2.head) (ih h1.tail h2.tail)
      (lt_of_mem_poslistMerge h1.lt_head h2.lt_head)
  | case2 c1 ps1 p1 c2 ps2 p2 _ hlt ih =>
    refine Poslist.Valid.cons h1.head_ne h1.head (ih h1.tail h2) (lt_of_mem_poslistMerge h1.lt_head ?_)
    exact List.forall_mem_cons.mpr ⟨hlt, fun q hq => hlt.trans (h2.lt_head q hq)⟩
  | case3 c1 ps1 p1 c2 ps2 p2 hne hlt ih =>
    have hlt' : c2 < c1 := by omega
    refine Poslist.Valid.cons h2.head_ne h2.head (ih h1 h2.tail) (lt_of_mem_poslistMerge ?_ h2.lt_head)
    exact List.forall_mem_cons.mpr ⟨hlt', fun q hq => hlt'.trans (h1.lt_head q hq)⟩
  | case4 => exact h2
  | case5 => exact h1

/-! ### NEAR -/

/-- `nNear + nToken`, on an `int`. -/
def nParam (nNear nToken : ℕ) : ℤ := (nNear + nToken : ℤ).bmod (2 ^ 32)

theorem nParam_eq {nNear nToken : ℕ} (h : nNear + nToken < 2 ^ 31) :
    nParam nNear nToken = nNear + nToken :=
  Int.bmod_eq_of_le (by omega) (by omega)

theorem nParam_of_le {nNear nToken : ℕ} (h : 2 ^ 31 ≤ nNear + nToken)
    (hlt : nNear + nToken < 2 ^ 32) : nParam nNear nToken = nNear + nToken - 2 ^ 32 := by
  have hdef := Int.bmod_def (nNear + nToken : ℤ) (2 ^ 32)
  unfold nParam
  split at hdef <;> omega

variable {nRight nLeft : ℤ}

/-- `q` is near `x`, where at most `nRight` positions lead from `q` up to `x`, or at most `nLeft` from
`x` up to `q`. -/
def IsNear (nRight nLeft : ℤ) (q x : ℕ) : Prop :=
  (q < x ∧ (x : ℤ) ≤ q + nRight) ∨ (x < q ∧ (q : ℤ) ≤ x + nLeft)

/-- **What is near.** The right list keeps the positions that are near one of the left list. -/
theorem has_nearMerge (hr : Poslist.Fair nRight p1 p2) (hl : Poslist.Fair nLeft p2 p1)
    (h1 : p1.Valid) (h2 : p2.Valid) : (nearMerge nRight nLeft p1 p2).Has iCol iPos ↔
      p2.Has iCol iPos ∧ ∃ q, p1.Has iCol q ∧ IsNear nRight nLeft q iPos := by
  rw [nearMerge, has_poslistMerge, has_phraseMerge hr h1 h2, has_phraseMerge hl h2 h1]
  constructor
  · rintro (⟨a, b, ha, hb, hlt, hle, rfl⟩ | ⟨a, b, ha, hb, hlt, hle, rfl⟩)
    · exact ⟨hb, a, ha, Or.inl ⟨hlt, hle⟩⟩
    · exact ⟨ha, b, hb, Or.inr ⟨hlt, hle⟩⟩
  · rintro ⟨hx, q, hq, ⟨hlt, hle⟩ | ⟨hlt, hle⟩⟩
    · exact Or.inl ⟨q, iPos, hq, hx, hlt, hle, rfl⟩
    · exact Or.inr ⟨iPos, q, hx, hq, hlt, hle, rfl⟩

theorem Poslist.Valid.nearMerge (hr : Poslist.Fair nRight p1 p2) (hl : Poslist.Fair nLeft p2 p1)
    (h1 : p1.Valid) (h2 : p2.Valid) : (nearMerge nRight nLeft p1 p2).Valid :=
  (h1.phraseMerge hr h2).poslistMerge (h2.phraseMerge hl h1)

/-- There is something left of a list exactly when it has a position. -/
theorem Poslist.Valid.ne_nil_iff (h : p.Valid) : p ≠ [] ↔ ∃ iCol iPos, p.Has iCol iPos := by
  constructor
  · intro hne
    obtain ⟨⟨c, ps⟩, q, rfl⟩ := List.exists_cons_of_ne_nil hne
    obtain ⟨x, hx⟩ := List.exists_mem_of_ne_nil _ h.head_ne
    exact ⟨c, x, ps, List.mem_cons_self, hx⟩
  · rintro ⟨_, _, _, hmem, _⟩
    exact List.ne_nil_of_mem hmem

end Query

end Fts3

end SqliteVms

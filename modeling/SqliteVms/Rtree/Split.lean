import SqliteVms.Lib.Store
import SqliteVms.Lib.Checked
import SqliteVms.Rtree.Scan

/-!
# The split of an R*-tree node

`splitNodeStartree` of `rtree.c` and the sort it uses. One allocation has a row of cell numbers for
each dimension, and a spare row behind them.

The merge of the sort loads the heads of both runs before it asks whether they have an end. So it
reads the spare row behind what it copied there, and it reads behind its own run, where the next
run begins, or the next row, or the spare row. All of that is in the allocation, and whatever was
left there is the number of a cell.

What is computed in floating point may be anything; only the comparison of two coordinates is known.

## Main definitions

* `DValue` — the arithmetic of `RtreeDValue`
* `sortByDimension`, `splitNodeStartree` — the sort and the split; `none` for a read or a write
  outside the allocation, and for a number that no cell has
* `IsUnion` — the smallest box around some cells

## Main results

* `split_legal` — the sort sorts, and the split is a legal partition
-/

namespace SqliteVms

namespace RTree

open Checked Store

variable {α β : Type*} [LinearOrder α]

/-! ### Boxes -/

/-- The arithmetic of `RtreeDValue`. `DCOORD` loses nothing of an integer coordinate. -/
structure DValue (α β : Type*) [LinearOrder α] where
  dcoord : α → β
  zero : β
  one : β
  add : β → β → β
  sub : β → β → β
  mul : β → β → β
  lt : β → β → Bool
  eq : β → β → Bool
  lt_dcoord : ∀ a b, lt (dcoord a) (dcoord b) = decide (a < b)
  eq_dcoord : ∀ a b, eq (dcoord a) (dcoord b) = decide (a = b)

variable (dv : DValue α β) (pRtree : Rtree α)

def cellArea (p : RtreeCell α) : β :=
  (List.range pRtree.nDim).foldl (fun area d =>
    dv.mul area (dv.sub (dv.dcoord (p.aCoord (2 * d + 1))) (dv.dcoord (p.aCoord (2 * d))))) dv.one

def cellMargin (p : RtreeCell α) : β :=
  (List.range pRtree.nDim).foldl (fun margin d =>
    dv.add margin (dv.sub (dv.dcoord (p.aCoord (2 * d + 1))) (dv.dcoord (p.aCoord (2 * d)))))
    dv.zero

def cellUnion (p1 p2 : RtreeCell α) : RtreeCell α :=
  { p1 with
    aCoord := fun ii =>
      if ii < 2 * pRtree.nDim then
        if ii % 2 = 0 then min (p1.aCoord ii) (p2.aCoord ii) else max (p1.aCoord ii) (p2.aCoord ii)
      else p1.aCoord ii }

/-- The loop of `cellOverlap` over the dimensions from `d` on. It ends at one in which the boxes do
not meet. -/
def overlapLoop (p cell : RtreeCell α) (o : β) : ℕ → ℕ → β
  | 0, _ => o
  | n + 1, d =>
    let x1 := if dv.lt (dv.dcoord (p.aCoord (2 * d))) (dv.dcoord (cell.aCoord (2 * d))) then
      dv.dcoord (cell.aCoord (2 * d)) else dv.dcoord (p.aCoord (2 * d))
    let x2 := if dv.lt (dv.dcoord (cell.aCoord (2 * d + 1))) (dv.dcoord (p.aCoord (2 * d + 1))) then
      dv.dcoord (cell.aCoord (2 * d + 1)) else dv.dcoord (p.aCoord (2 * d + 1))
    if dv.lt x2 x1 then dv.zero
    else overlapLoop p cell (dv.mul o (dv.sub x2 x1)) n (d + 1)

/-- `cellOverlap` with a single cell. -/
def cellOverlap (p cell : RtreeCell α) : β :=
  dv.add dv.zero (overlapLoop dv p cell dv.one pRtree.nDim 0)

/-! ### The sort -/

variable (aCell : ℕ → RtreeCell α) (nCell size : ℕ)

/-- A read of `aCell[p[0]]`: `p` is in the allocation, and what is there is the number of a cell. -/
def cellNumber (mem : ℕ → ℕ) (p : ℕ) : Option ℕ :=
  if p < size ∧ mem p < nCell then some (mem p) else none

/-- A write. -/
def store (mem : ℕ → ℕ) (p v : ℕ) : Option (ℕ → ℕ) :=
  if p < size then some (Function.update mem p v) else none

def memcpy (mem : ℕ → ℕ) (dst src n : ℕ) : Option (ℕ → ℕ) :=
  if dst + n ≤ size ∧ src + n ≤ size then some (blit mem dst (slice mem src n)) else none

/-- The loop of `SortByDimension`. -/
def mergeLoop (iDim aIdx aLeft nLeft aRight nRight : ℕ) :
    ℕ → ℕ → ℕ → (ℕ → ℕ) → Option (ℕ → ℕ)
  | 0, _, _, _ => none
  | fuel + 1, iLeft, iRight, mem =>
    if iLeft < nLeft ∨ iRight < nRight then
      (cellNumber nCell size mem (aLeft + iLeft)).bind fun left =>
      (cellNumber nCell size mem (aRight + iRight)).bind fun right =>
      let xleft1 := dv.dcoord ((aCell left).aCoord (iDim * 2))
      let xleft2 := dv.dcoord ((aCell left).aCoord (iDim * 2 + 1))
      let xright1 := dv.dcoord ((aCell right).aCoord (iDim * 2))
      let xright2 := dv.dcoord ((aCell right).aCoord (iDim * 2 + 1))
      if iLeft ≠ nLeft ∧ (iRight = nRight ∨ dv.lt xleft1 xright1 ∨
          (dv.eq xleft1 xright1 ∧ dv.lt xleft2 xright2)) then
        (store size mem (aIdx + (iLeft + iRight)) left).bind
          (mergeLoop iDim aIdx aLeft nLeft aRight nRight fuel (iLeft + 1) iRight)
      else
        (store size mem (aIdx + (iLeft + iRight)) right).bind
          (mergeLoop iDim aIdx aLeft nLeft aRight nRight fuel iLeft (iRight + 1))
    else some mem

/-- `SortByDimension`. -/
def sortByDimension (iDim aSpare : ℕ) (nIdx aIdx : ℕ) (mem : ℕ → ℕ) : Option (ℕ → ℕ) :=
  if 1 < nIdx then
    let nLeft := nIdx / 2
    let nRight := nIdx - nLeft
    let aRight := aIdx + nLeft
    (sortByDimension iDim aSpare nLeft aIdx mem).bind fun mem =>
    (sortByDimension iDim aSpare nRight aRight mem).bind fun mem =>
    (memcpy size mem aSpare aIdx nLeft).bind
      (mergeLoop dv aCell nCell size iDim aIdx aSpare nLeft aRight nRight (nIdx + 1) 0 0)
  else some mem
termination_by nIdx

/-! ### The split -/

/-- `RTREE_MINCELLS`. -/
def minCells : ℕ := pRtree.nMaxCell / 3

def nodeInsertCell (pCell : RtreeCell α) : RtreeNode α → RtreeNode α
  | .top iNode cells =>
    .top iNode (if cells.length < pRtree.nMaxCell then cells ++ [pCell] else cells)
  | .under pParent iNode cells =>
    .under pParent iNode (if cells.length < pRtree.nMaxCell then cells ++ [pCell] else cells)

/-- How many numbers there is room for. -/
def roomOf : ℕ := (pRtree.nDim + 1) * nCell

/-- `aaSorted`, in an allocation that is all zero at first: the row of each dimension is filled and
sorted. -/
def aaSorted : Option (ℕ → ℕ) :=
  upTo (fun ii mem =>
    (upTo (fun jj mem => store (roomOf pRtree nCell) mem (ii * nCell + jj) jj) mem nCell).bind
      (sortByDimension dv aCell nCell (roomOf pRtree nCell) ii (pRtree.nDim * nCell) nCell
        (ii * nCell)))
    (fun _ => 0) pRtree.nDim

/-- The boxes `left` and `right` when `nLeft` cells of a row go to the left. The first and the last
cell are where they begin. -/
def boxesOf (mem : ℕ → ℕ) (row nLeft : ℕ) : Option (RtreeCell α × RtreeCell α) :=
  (cellNumber nCell (roomOf pRtree nCell) mem row).bind fun first =>
  (cellNumber nCell (roomOf pRtree nCell) mem (row + (nCell - 1))).bind fun last =>
  upTo (fun j (left, right) =>
    (cellNumber nCell (roomOf pRtree nCell) mem (row + (j + 1))).bind fun i =>
    if j + 1 < nLeft then some (cellUnion pRtree left (aCell i), right)
    else some (left, cellUnion pRtree right (aCell i)))
    (aCell first, aCell last) (nCell - 2)

/-- The variables of the loop over `nLeft`. -/
structure BestLeft (β : Type*) where
  margin : β
  fBestOverlap : β
  fBestArea : β
  iBestLeft : ℕ

/-- The loop over `nLeft`, for the row of one dimension. -/
def bestLeft (mem : ℕ → ℕ) (row : ℕ) : Option (BestLeft β) :=
  upTo (fun j st =>
    let nLeft := minCells pRtree + j
    (boxesOf pRtree aCell nCell mem row nLeft).bind fun (left, right) =>
    let margin := dv.add (dv.add st.margin (cellMargin dv pRtree left)) (cellMargin dv pRtree right)
    let overlap := cellOverlap dv pRtree left right
    let area := dv.add (cellArea dv pRtree left) (cellArea dv pRtree right)
    if nLeft = minCells pRtree ∨ dv.lt overlap st.fBestOverlap ∨
        (dv.eq overlap st.fBestOverlap ∧ dv.lt area st.fBestArea) then
      some ⟨margin, overlap, area, nLeft⟩
    else some { st with margin := margin })
    ⟨dv.zero, dv.zero, dv.zero, 0⟩ (nCell + 1 - 2 * minCells pRtree)

/-- The split that was found. -/
structure BestSplit (β : Type*) where
  iBestDim : ℕ
  iBestSplit : ℕ
  fBestMargin : β

/-- The loop over the dimensions. -/
def bestSplit (mem : ℕ → ℕ) : Option (BestSplit β) :=
  upTo (fun ii best =>
    (bestLeft dv pRtree aCell nCell mem (ii * nCell)).map fun st =>
    if ii = 0 ∨ dv.lt st.margin best.fBestMargin then ⟨ii, st.iBestLeft, st.margin⟩ else best)
    ⟨0, 0, dv.zero⟩ pRtree.nDim

/-- The two nodes, and the boxes around them. -/
structure Halves (α : Type*) where
  pLeft : RtreeNode α
  pRight : RtreeNode α
  pBboxLeft : RtreeCell α
  pBboxRight : RtreeCell α

/-- The last loop: the cells go to their nodes. -/
def placeCells (mem : ℕ → ℕ) (row iBestSplit : ℕ) (halves : Halves α) : ℕ → Option (Halves α) :=
  upTo (fun ii halves =>
    (cellNumber nCell (roomOf pRtree nCell) mem (row + ii)).map fun i =>
    if ii < iBestSplit then
      { halves with
        pLeft := nodeInsertCell pRtree (aCell i) halves.pLeft
        pBboxLeft := cellUnion pRtree halves.pBboxLeft (aCell i) }
    else
      { halves with
        pRight := nodeInsertCell pRtree (aCell i) halves.pRight
        pBboxRight := cellUnion pRtree halves.pBboxRight (aCell i) })
    halves

/-- `splitNodeStartree`, once the allocation has succeeded. -/
def splitNodeStartree (pLeft pRight : RtreeNode α) : Option (Halves α) :=
  (aaSorted dv pRtree aCell nCell).bind fun mem =>
  (bestSplit dv pRtree aCell nCell mem).bind fun best =>
  let row := best.iBestDim * nCell
  (cellNumber nCell (roomOf pRtree nCell) mem row).bind fun first =>
  (cellNumber nCell (roomOf pRtree nCell) mem (row + best.iBestSplit)).bind fun second =>
  placeCells pRtree aCell nCell mem row best.iBestSplit
    ⟨pLeft, pRight, aCell first, aCell second⟩ nCell

/-- A box is the smallest around some cells. -/
def IsUnion (nDim : ℕ) (box : RtreeCell α) (cells : List (RtreeCell α)) : Prop :=
  ∀ d < nDim, IsLeast {x | ∃ c ∈ cells, c.aCoord (2 * d) = x} (box.aCoord (2 * d)) ∧
    IsGreatest {x | ∃ c ∈ cells, c.aCoord (2 * d + 1) = x} (box.aCoord (2 * d + 1))

/-! ### The sort sorts -/

/-- The cell `i` may stand before the cell `j`: by the minimum, and then by the maximum. -/
def dimLe (iDim i j : ℕ) : Bool :=
  (aCell i).aCoord (iDim * 2) < (aCell j).aCoord (iDim * 2) ∨
    ((aCell i).aCoord (iDim * 2) = (aCell j).aCoord (iDim * 2) ∧
      (aCell i).aCoord (iDim * 2 + 1) ≤ (aCell j).aCoord (iDim * 2 + 1))

/-- All that is in the allocation are numbers of cells. -/
def Valid (mem : ℕ → ℕ) : Prop := ∀ p < size, mem p < nCell

variable {aCell nCell size} {mem : ℕ → ℕ} {iDim : ℕ}

theorem dimLe_trans (i j k : ℕ) (hij : dimLe aCell iDim i j = true)
    (hjk : dimLe aCell iDim j k = true) : dimLe aCell iDim i k = true := by
  rw [dimLe, decide_eq_true_iff] at *
  rcases hij with hij | ⟨heq, hle⟩
  · rcases hjk with hjk | ⟨heq', -⟩
    · exact Or.inl (hij.trans hjk)
    · exact Or.inl (heq' ▸ hij)
  · rcases hjk with hjk | ⟨heq', hle'⟩
    · exact Or.inl (heq.symm ▸ hjk)
    · exact Or.inr ⟨heq.trans heq', hle.trans hle'⟩

/-- The comparison of the loop. -/
theorem not_dimLe_iff (aCell : ℕ → RtreeCell α) (iDim i j : ℕ) :
    (dv.lt (dv.dcoord ((aCell i).aCoord (iDim * 2))) (dv.dcoord ((aCell j).aCoord (iDim * 2))) ∨
      (dv.eq (dv.dcoord ((aCell i).aCoord (iDim * 2))) (dv.dcoord ((aCell j).aCoord (iDim * 2))) ∧
        dv.lt (dv.dcoord ((aCell i).aCoord (iDim * 2 + 1)))
          (dv.dcoord ((aCell j).aCoord (iDim * 2 + 1))))) ↔ dimLe aCell iDim j i = false := by
  rw [dv.lt_dcoord, dv.lt_dcoord, dv.eq_dcoord, dimLe, decide_eq_false_iff_not, decide_eq_true_iff,
    decide_eq_true_iff, decide_eq_true_iff]
  constructor
  · rintro (hlt | ⟨heq, hlt⟩)
    · rintro (hlt' | ⟨heq', -⟩)
      · exact lt_asymm hlt hlt'
      · exact hlt.ne heq'.symm
    · rintro (hlt' | ⟨-, hle⟩)
      · exact hlt'.ne heq.symm
      · exact absurd hlt hle.not_gt
  · intro h
    push Not at h
    rcases h.1.lt_or_eq with hlt | heq
    · exact Or.inl hlt
    · exact Or.inr ⟨heq, h.2 heq.symm⟩

theorem dimLe_total (i j : ℕ) : (dimLe aCell iDim i j || dimLe aCell iDim j i) = true := by
  rw [Bool.or_eq_true, dimLe, dimLe, decide_eq_true_iff, decide_eq_true_iff]
  rcases lt_trichotomy ((aCell i).aCoord (iDim * 2)) ((aCell j).aCoord (iDim * 2)) with h | h | h
  · exact Or.inl (Or.inl h)
  · exact (le_total ((aCell i).aCoord (iDim * 2 + 1)) ((aCell j).aCoord (iDim * 2 + 1))).imp
      (fun hle => Or.inr ⟨h, hle⟩) fun hle => Or.inr ⟨h.symm, hle⟩
  · exact Or.inr (Or.inl h)

theorem slice_cons {p n : ℕ} (h : 0 < n) : slice mem p n = mem p :: slice mem (p + 1) (n - 1) := by
  obtain ⟨n, rfl⟩ := Nat.exists_eq_succ_of_ne_zero h.ne'
  rw [Nat.succ_eq_one_add, slice_append, Nat.add_sub_cancel_left]
  rfl

theorem slice_update {p q n v : ℕ} (h : q < p ∨ p + n ≤ q) :
    slice (Function.update mem q v) p n = slice mem p n :=
  slice_congr fun i hi => Function.update_of_ne (by omega) _ _

theorem slice_update_end {p n v : ℕ} :
    slice (Function.update mem (p + n) v) p (n + 1) = slice mem p n ++ [v] := by
  rw [slice_append, slice_update (Or.inr le_rfl)]
  exact congrArg (slice mem p n ++ [·]) (Function.update_self _ _ _)

/-- The rest of the merge, from `iLeft` and `iRight` on. -/
theorem mergeLoop_spec (aCell : ℕ → RtreeCell α) (iDim : ℕ) {mem : ℕ → ℕ}
    {aIdx aLeft nLeft nRight : ℕ} (hleft : aIdx + (nLeft + nRight) ≤ aLeft)
    (hsize : aLeft + nLeft < size) (fuel iLeft iRight : ℕ) (hl : iLeft ≤ nLeft)
    (hr : iRight ≤ nRight) (hfuel : nLeft - iLeft + (nRight - iRight) < fuel)
    (hvalid : Valid nCell size mem) :
    ∃ mem', mergeLoop dv aCell nCell size iDim aIdx aLeft nLeft (aIdx + nLeft) nRight fuel
        iLeft iRight mem = some mem' ∧ Valid nCell size mem' ∧
      (∀ p, p < aIdx ∨ aIdx + (nLeft + nRight) ≤ p → mem' p = mem p) ∧
      slice mem' aIdx (nLeft + nRight) = slice mem aIdx (iLeft + iRight) ++
        List.merge (slice mem (aIdx + nLeft + iRight) (nRight - iRight))
          (slice mem (aLeft + iLeft) (nLeft - iLeft)) (dimLe aCell iDim) := by
  induction fuel generalizing iLeft iRight mem with
  | zero => exact absurd hfuel (Nat.not_lt_zero _)
  | succ fuel ih =>
    by_cases hmore : iLeft < nLeft ∨ iRight < nRight
    · -- both heads are read, also that of a run which is at its end
      have hreadl : cellNumber nCell size mem (aLeft + iLeft) = some (mem (aLeft + iLeft)) :=
        if_pos ⟨by omega, hvalid _ (by omega)⟩
      have hreadr : cellNumber nCell size mem (aIdx + nLeft + iRight) =
          some (mem (aIdx + nLeft + iRight)) := if_pos ⟨by omega, hvalid _ (by omega)⟩
      have hstore : ∀ v, store size mem (aIdx + (iLeft + iRight)) v =
          some (Function.update mem (aIdx + (iLeft + iRight)) v) := fun v => if_pos (by omega)
      have hupdate : ∀ v < nCell,
          Valid nCell size (Function.update mem (aIdx + (iLeft + iRight)) v) := fun v hv p hp => by
        rw [Function.update_apply]
        split
        · exact hv
        · exact hvalid p hp
      have htake_iff := and_congr_right' (a := iLeft ≠ nLeft) (or_congr_right (a := iRight = nRight)
        (not_dimLe_iff dv aCell iDim (mem (aLeft + iLeft)) (mem (aIdx + nLeft + iRight))))
      rw [mergeLoop, if_pos hmore, hreadl, Option.bind_some, hreadr, Option.bind_some]
      dsimp only
      by_cases htake : iLeft ≠ nLeft ∧ (iRight = nRight ∨
          dimLe aCell iDim (mem (aIdx + nLeft + iRight)) (mem (aLeft + iLeft)) = false)
      · have hlt : iLeft < nLeft := by omega
        obtain ⟨mem', hrun, hvalid', hframe, hslice⟩ := ih (iLeft + 1) iRight
          (by omega) hr (by omega) (hupdate _ (hvalid _ (show aLeft + iLeft < size by omega)))
        refine ⟨mem', ?_, hvalid', fun p hp => ?_, ?_⟩
        · rw [if_pos (htake_iff.mpr htake), hstore, Option.bind_some, hrun]
        · rw [hframe p hp, Function.update_of_ne (by omega)]
        · rw [hslice, Nat.add_right_comm iLeft 1, slice_update_end,
            slice_update (Or.inl (by omega)), slice_update (Or.inl (by omega)), slice_cons (p := aLeft + iLeft) (by omega),
            List.append_assoc, List.singleton_append, Nat.sub_sub, Nat.add_assoc aLeft]
          refine congrArg (slice mem aIdx (iLeft + iRight) ++ ·) ?_
          rcases htake.2 with hend | hnot
          · rw [hend, Nat.sub_self, slice_zero, List.nil_merge, List.nil_merge]
          · by_cases hend : iRight = nRight
            · rw [hend, Nat.sub_self, slice_zero, List.nil_merge, List.nil_merge]
            · rw [slice_cons (p := aIdx + nLeft + iRight) (by omega), List.cons_merge_cons_neg]
              rw [hnot]
              exact Bool.false_ne_true
      · have hlt : iRight < nRight := by
          by_contra hge
          exact htake ⟨by omega, Or.inl (by omega)⟩
        obtain ⟨mem', hrun, hvalid', hframe, hslice⟩ := ih iLeft (iRight + 1)
          hl (by omega) (by omega)
          (hupdate _ (hvalid _ (show aIdx + nLeft + iRight < size by omega)))
        refine ⟨mem', ?_, hvalid', fun p hp => ?_, ?_⟩
        · rw [if_neg fun h => htake (htake_iff.mp h), hstore, Option.bind_some, hrun]
        · rw [hframe p hp, Function.update_of_ne (by omega)]
        · rw [hslice, ← Nat.add_assoc iLeft, slice_update_end, slice_update (Or.inl (by omega)),
            slice_update (Or.inl (by omega)), slice_cons (p := aIdx + nLeft + iRight) (by omega),
            List.append_assoc, List.singleton_append, Nat.sub_sub, Nat.add_assoc (aIdx + nLeft)]
          refine congrArg (slice mem aIdx (iLeft + iRight) ++ ·) ?_
          by_cases hend : iLeft = nLeft
          · rw [hend, Nat.sub_self, slice_zero, List.merge_right, List.merge_right]
          · have hle :
                dimLe aCell iDim (mem (aIdx + nLeft + iRight)) (mem (aLeft + iLeft)) = true := by
              by_contra hnot
              exact htake ⟨hend, Or.inr (eq_false_of_ne_true hnot)⟩
            rw [slice_cons (p := aLeft + iLeft) (by omega), List.cons_merge_cons_pos _ _ _ hle]
    · refine ⟨mem, by rw [mergeLoop, if_neg hmore], hvalid, fun _ _ => rfl, ?_⟩
      obtain ⟨rfl, rfl⟩ : iLeft = nLeft ∧ iRight = nRight := by omega
      rw [Nat.sub_self, Nat.sub_self, slice_zero, slice_zero, List.nil_merge, List.append_nil]

/-- What `SortByDimension` does to the allocation. -/
structure Sorts (aCell : ℕ → RtreeCell α) (nCell size iDim aSpare nIdx aIdx : ℕ)
    (mem mem' : ℕ → ℕ) : Prop where
  valid : Valid nCell size mem'
  perm : (slice mem' aIdx nIdx).Perm (slice mem aIdx nIdx)
  sorted : (slice mem' aIdx nIdx).Pairwise fun i j => dimLe aCell iDim i j = true
  frame : ∀ p, p < aIdx ∨ (aIdx + nIdx ≤ p ∧ p < aSpare) ∨ aSpare + nIdx ≤ p → mem' p = mem p

/-- **The sort.** It stays in the allocation, whatever was left there. -/
theorem sortByDimension_spec (aCell : ℕ → RtreeCell α) (iDim : ℕ) {aSpare : ℕ} (nIdx aIdx : ℕ)
    (mem : ℕ → ℕ) (hspare : aIdx + nIdx ≤ aSpare)
    (hsize : aSpare + nIdx ≤ size) (hvalid : Valid nCell size mem) :
    ∃ mem', sortByDimension dv aCell nCell size iDim aSpare nIdx aIdx mem = some mem' ∧
      Sorts aCell nCell size iDim aSpare nIdx aIdx mem mem' := by
  induction nIdx using Nat.strongRecOn generalizing aIdx mem with
  | ind nIdx ih =>
    rw [sortByDimension]
    by_cases hmany : 1 < nIdx
    · obtain ⟨nLeft, nRight, hnl, hnr, hl, hr⟩ : ∃ nLeft nRight, nLeft = nIdx / 2 ∧
          nIdx - nLeft = nRight ∧ nLeft < nIdx ∧ nRight < nIdx :=
        ⟨nIdx / 2, _, rfl, rfl, by omega, by omega⟩
      obtain rfl : nIdx = nLeft + nRight := by omega
      obtain ⟨mem₁, hrun₁, h₁⟩ := ih nLeft hl aIdx mem (by omega) (by omega) hvalid
      obtain ⟨mem₂, hrun₂, h₂⟩ := ih nRight hr (aIdx + nLeft) mem₁ (by omega)
        (by omega) h₁.valid
      have hcopy : memcpy size mem₂ aSpare aIdx nLeft =
          some (blit mem₂ aSpare (slice mem₂ aIdx nLeft)) := if_pos ⟨by omega, by omega⟩
      have hout : ∀ p, p < aSpare ∨ aSpare + nLeft ≤ p →
          blit mem₂ aSpare (slice mem₂ aIdx nLeft) p = mem₂ p := fun p hp =>
        blit_outside (by rwa [length_slice])
      have hvalid₃ : Valid nCell size (blit mem₂ aSpare (slice mem₂ aIdx nLeft)) := fun p hp => by
        by_cases hin : p < aSpare ∨ aSpare + nLeft ≤ p
        · rw [hout p hin]
          exact h₂.valid p hp
        · obtain ⟨k, rfl⟩ := Nat.exists_eq_add_of_le (show aSpare ≤ p by omega)
          rw [blit_inside (by rw [length_slice]; omega), getElem_slice]
          exact h₂.valid _ (by omega)
      obtain ⟨mem', hrun, hvalid', hframe, hslice⟩ := mergeLoop_spec dv aCell iDim hspare
        (show aSpare + nLeft < size by omega) (nLeft + nRight + 1) 0 0 (Nat.zero_le _)
        (Nat.zero_le _) (by omega) hvalid₃
      -- the runs that are merged are the two that were sorted
      have hright : slice (blit mem₂ aSpare (slice mem₂ aIdx nLeft)) (aIdx + nLeft) nRight =
          slice mem₂ (aIdx + nLeft) nRight := slice_congr fun i hi => hout _ (by omega)
      have hcopied : slice (blit mem₂ aSpare (slice mem₂ aIdx nLeft)) aSpare nLeft =
          slice mem₁ aIdx nLeft := by
        have hlen := slice_blit mem₂ aSpare (slice mem₂ aIdx nLeft)
        rw [length_slice] at hlen
        exact hlen.trans (slice_congr fun i hi => h₂.frame _ (by omega))
      have huntouched : slice mem₁ (aIdx + nLeft) nRight = slice mem (aIdx + nLeft) nRight :=
        slice_congr fun i hi => h₁.frame _ (by omega)
      simp only [Nat.add_zero, Nat.sub_zero, slice_zero, List.nil_append, hright, hcopied] at hslice
      refine ⟨mem', ?_, hvalid', ?_, ?_, fun p hp => ?_⟩
      · rw [if_pos hmany, ← hnl]
        simp only [hnr, hrun₁, hrun₂, hcopy, Option.bind_some, hrun]
      · rw [hslice, slice_append]
        exact List.Perm.trans (List.merge_perm_append _)
          (List.perm_append_comm.trans (h₁.perm.append (huntouched ▸ h₂.perm)))
      · rw [hslice]
        exact List.pairwise_merge dimLe_trans dimLe_total _ _ h₂.sorted h₁.sorted
      · rw [hframe p (by omega), hout p (by omega), h₂.frame p (by omega), h₁.frame p (by omega)]
    · refine ⟨mem, if_neg hmany, hvalid, .refl _, ?_, fun _ _ => rfl⟩
      have hlen : (slice mem aIdx nIdx).length ≤ 1 := by
        rw [length_slice]
        omega
      rcases hs : slice mem aIdx nIdx with - | ⟨i, - | ⟨j, l⟩⟩
      · exact .nil
      · exact List.pairwise_singleton _ _
      · rw [hs, List.length_cons, List.length_cons] at hlen
        omega

/-! ### The split is legal -/

section

variable {pRtree : Rtree α} {cells : List (RtreeCell α)} {box c : RtreeCell α}

omit [LinearOrder α] in
theorem cells_nodeInsertCell (n : RtreeNode α) : (nodeInsertCell pRtree c n).cells =
    if n.cells.length < pRtree.nMaxCell then n.cells ++ [c] else n.cells := by
  cases n <;> rfl

theorem isUnion_singleton (nDim : ℕ) (c : RtreeCell α) : IsUnion nDim c [c] := fun d _ =>
  ⟨⟨⟨c, List.mem_singleton_self c, rfl⟩, fun _ ⟨_, hc, hx⟩ => by
    rw [← hx, List.mem_singleton.mp hc]⟩,
  ⟨c, List.mem_singleton_self c, rfl⟩, fun _ ⟨_, hc, hx⟩ => by
    rw [← hx, List.mem_singleton.mp hc]⟩

/-- One more cell in the union. -/
theorem IsUnion.cellUnion (h : IsUnion pRtree.nDim box cells) (c : RtreeCell α) :
    IsUnion pRtree.nDim (cellUnion pRtree box c) (cells ++ [c]) := by
  intro d hd
  obtain ⟨⟨⟨cmin, hcmin, hmin⟩, hlower⟩, ⟨cmax, hcmax, hmax⟩, hupper⟩ := h d hd
  have hlo : (RTree.cellUnion pRtree box c).aCoord (2 * d) =
      min (box.aCoord (2 * d)) (c.aCoord (2 * d)) := by
    rw [RTree.cellUnion]
    dsimp only
    rw [if_pos (by omega), if_pos (by omega)]
  have hhi : (RTree.cellUnion pRtree box c).aCoord (2 * d + 1) =
      max (box.aCoord (2 * d + 1)) (c.aCoord (2 * d + 1)) := by
    rw [RTree.cellUnion]
    dsimp only
    rw [if_pos (by omega), if_neg (by omega)]
  rw [hlo, hhi]
  refine ⟨⟨?_, ?_⟩, ?_, ?_⟩
  · rcases min_choice (box.aCoord (2 * d)) (c.aCoord (2 * d)) with heq | heq <;> rw [heq]
    · exact ⟨cmin, List.mem_append_left _ hcmin, hmin⟩
    · exact ⟨c, List.mem_append_right _ (List.mem_singleton_self c), rfl⟩
  · rintro x ⟨c', hc', rfl⟩
    rcases List.mem_append.mp hc' with hc' | hc'
    · exact (min_le_left _ _).trans (hlower ⟨c', hc', rfl⟩)
    · rw [List.mem_singleton.mp hc']
      exact min_le_right _ _
  · rcases max_choice (box.aCoord (2 * d + 1)) (c.aCoord (2 * d + 1)) with heq | heq <;> rw [heq]
    · exact ⟨cmax, List.mem_append_left _ hcmax, hmax⟩
    · exact ⟨c, List.mem_append_right _ (List.mem_singleton_self c), rfl⟩
  · rintro x ⟨c', hc', rfl⟩
    rcases List.mem_append.mp hc' with hc' | hc'
    · exact (hupper ⟨c', hc', rfl⟩).trans (le_max_left _ _)
    · rw [List.mem_singleton.mp hc']
      exact le_max_right _ _

theorem IsUnion.of_mem (h : IsUnion pRtree.nDim box (c :: cells)) (hc : c ∈ cells) :
    IsUnion pRtree.nDim box cells := by
  have hmem : ∀ c', c' ∈ c :: cells ↔ c' ∈ cells := fun c' =>
    List.mem_cons.trans (or_iff_right_of_imp fun heq => heq ▸ hc)
  simpa only [IsUnion, hmem] using h

variable {ii kk nLeft row : ℕ}

omit [LinearOrder α] in
theorem row_le (nCell : ℕ) (hii : ii < pRtree.nDim) : ii * nCell + nCell ≤ pRtree.nDim * nCell := by
  rw [← Nat.succ_mul]
  exact Nat.mul_le_mul_right nCell hii

omit [LinearOrder α] in
theorem roomOf_eq : roomOf pRtree nCell = pRtree.nDim * nCell + nCell := Nat.succ_mul _ _

omit [LinearOrder α] in
theorem cellNumber_row (hvalid : Valid nCell (roomOf pRtree nCell) mem) (hii : ii < pRtree.nDim)
    (hkk : kk < nCell) : cellNumber nCell (roomOf pRtree nCell) mem (ii * nCell + kk) =
      some (mem (ii * nCell + kk)) := by
  have hlt : ii * nCell + kk < roomOf pRtree nCell := by
    have := row_le nCell hii
    rw [roomOf_eq]
    omega
  exact if_pos ⟨hlt, hvalid _ hlt⟩

omit [LinearOrder α] in
/-- A row that is filled. -/
theorem fillRow_spec (hvalid : Valid nCell (roomOf pRtree nCell) mem) (hii : ii < pRtree.nDim) :
    ∃ mem', upTo (fun jj mem => store (roomOf pRtree nCell) mem (ii * nCell + jj) jj) mem nCell =
        some mem' ∧ Valid nCell (roomOf pRtree nCell) mem' ∧ (∀ p < ii * nCell, mem' p = mem p) ∧
      slice mem' (ii * nCell) nCell = List.range nCell := by
  refine upTo_spec (P := fun jj mem' => Valid nCell (roomOf pRtree nCell) mem' ∧
    (∀ p < ii * nCell, mem' p = mem p) ∧ slice mem' (ii * nCell) jj = List.range jj)
    ⟨hvalid, fun _ _ => rfl, rfl⟩ ?_
  rintro jj hjj mem' ⟨hvalid', hframe, hslice⟩
  have hroom : ii * nCell + jj < roomOf pRtree nCell := by
    have := row_le nCell hii
    rw [roomOf_eq]
    omega
  refine ⟨_, if_pos hroom, fun p hp => ?_, fun p hp => ?_, ?_⟩
  · rw [Function.update_apply]
    split
    · exact hjj
    · exact hvalid' p hp
  · rw [Function.update_of_ne (by omega), hframe p hp]
  · rw [slice_update_end, hslice, List.range_succ]

variable (aCell nCell) in
/-- The rows of the dimensions up to `n`. -/
structure RowsSorted (pRtree : Rtree α) (n : ℕ) (mem : ℕ → ℕ) : Prop where
  valid : Valid nCell (roomOf pRtree nCell) mem
  perm : ∀ ii < n, (slice mem (ii * nCell) nCell).Perm (List.range nCell)
  sorted : ∀ ii < n, (slice mem (ii * nCell) nCell).Pairwise fun i j => dimLe aCell ii i j = true

variable (aCell)

theorem aaSorted_spec (hcell : 0 < nCell) : ∃ mem, aaSorted dv pRtree aCell nCell = some mem ∧
    RowsSorted aCell nCell pRtree pRtree.nDim mem := by
  refine upTo_spec ⟨fun _ _ => hcell, nofun, nofun⟩ ?_
  intro ii hii mem h
  obtain ⟨mem₁, hfill, hvalid₁, hframe₁, hslice₁⟩ := fillRow_spec h.valid hii
  obtain ⟨mem₂, hsort, h₂⟩ := sortByDimension_spec dv aCell ii nCell (ii * nCell) mem₁
    (row_le nCell hii) roomOf_eq.ge hvalid₁
  -- the rows before this one are as they were
  have hold : ∀ ii' < ii, slice mem₂ (ii' * nCell) nCell = slice mem (ii' * nCell) nCell :=
    fun ii' hii' => slice_congr fun i hi => by
      have hend : ii' * nCell + nCell ≤ ii * nCell := by
        rw [← Nat.succ_mul]
        exact Nat.mul_le_mul_right nCell hii'
      rw [h₂.frame _ (Or.inl (by omega)), hframe₁ _ (by omega)]
  refine ⟨mem₂, by rw [hfill, Option.bind_some, hsort], h₂.valid, fun ii' hii' => ?_,
    fun ii' hii' => ?_⟩
  · rcases Nat.lt_succ_iff_lt_or_eq.mp hii' with hlt | rfl
    · rw [hold ii' hlt]
      exact h.perm ii' hlt
    · exact hslice₁ ▸ h₂.perm
  · rcases Nat.lt_succ_iff_lt_or_eq.mp hii' with hlt | rfl
    · rw [hold ii' hlt]
      exact h.sorted ii' hlt
    · exact h₂.sorted

/-- The boxes of a distribution are computed without a fault. -/
theorem boxesOf_isSome (hvalid : Valid nCell (roomOf pRtree nCell) mem) (hii : ii < pRtree.nDim)
    (hcell : 0 < nCell) (nLeft : ℕ) :
    ∃ boxes, boxesOf pRtree aCell nCell mem (ii * nCell) nLeft = some boxes := by
  obtain ⟨boxes, hboxes, -⟩ := upTo_spec (P := fun _ _ => True) (n := nCell - 2)
    (s := (aCell (mem (ii * nCell)), aCell (mem (ii * nCell + (nCell - 1)))))
    (f := fun j (left, right) =>
      (cellNumber nCell (roomOf pRtree nCell) mem (ii * nCell + (j + 1))).bind fun i =>
      if j + 1 < nLeft then some (cellUnion pRtree left (aCell i), right)
      else some (left, cellUnion pRtree right (aCell i))) trivial fun j hj boxes _ => by
    dsimp only
    rw [cellNumber_row hvalid hii (by omega), Option.bind_some]
    split <;> exact ⟨_, rfl, trivial⟩
  refine ⟨boxes, ?_⟩
  rw [boxesOf, ← Nat.add_zero (ii * nCell), cellNumber_row hvalid hii hcell, Option.bind_some,
    Nat.add_zero, cellNumber_row hvalid hii (by omega), Option.bind_some]
  exact hboxes

/-- The first distribution is taken in any case. -/
theorem bestLeft_spec (hvalid : Valid nCell (roomOf pRtree nCell) mem) (hii : ii < pRtree.nDim)
    (hmin : 2 * minCells pRtree ≤ nCell) (hcell : 0 < nCell) :
    ∃ st, bestLeft dv pRtree aCell nCell mem (ii * nCell) = some st ∧
      minCells pRtree ≤ st.iBestLeft ∧ st.iBestLeft + minCells pRtree ≤ nCell := by
  obtain ⟨st, hst, hP⟩ : ∃ st, bestLeft dv pRtree aCell nCell mem (ii * nCell) = some st ∧
      (nCell + 1 - 2 * minCells pRtree = 0 ∨
        (minCells pRtree ≤ st.iBestLeft ∧ st.iBestLeft + minCells pRtree ≤ nCell)) := by
    refine upTo_spec (P := fun j (st : BestLeft β) => j = 0 ∨
      (minCells pRtree ≤ st.iBestLeft ∧ st.iBestLeft + minCells pRtree ≤ nCell)) (Or.inl rfl) ?_
    intro j hj st hst
    obtain ⟨⟨left, right⟩, hboxes⟩ := boxesOf_isSome aCell hvalid hii hcell
      (minCells pRtree + j)
    dsimp only
    rw [hboxes, Option.bind_some]
    dsimp only
    split
    case isTrue => exact ⟨_, rfl, Or.inr ⟨Nat.le_add_right _ _, by dsimp only; omega⟩⟩
    case isFalse hnot =>
      -- the first one is never refused
      refine ⟨_, rfl, Or.inr (hst.resolve_left fun h0 => hnot (Or.inl ?_))⟩
      rw [h0, Nat.add_zero]
  exact ⟨st, hst, hP.resolve_left (by omega)⟩

theorem bestSplit_spec (hvalid : Valid nCell (roomOf pRtree nCell) mem) (hdim : 0 < pRtree.nDim)
    (hmin : 2 * minCells pRtree ≤ nCell) (hcell : 0 < nCell) :
    ∃ best, bestSplit dv pRtree aCell nCell mem = some best ∧ best.iBestDim < pRtree.nDim ∧
      minCells pRtree ≤ best.iBestSplit ∧ best.iBestSplit + minCells pRtree ≤ nCell := by
  obtain ⟨best, hbest, hP⟩ : ∃ best, bestSplit dv pRtree aCell nCell mem = some best ∧
      (pRtree.nDim = 0 ∨ (best.iBestDim < pRtree.nDim ∧
        minCells pRtree ≤ best.iBestSplit ∧ best.iBestSplit + minCells pRtree ≤ nCell)) := by
    refine upTo_spec (P := fun n (best : BestSplit β) => n = 0 ∨ (best.iBestDim < pRtree.nDim ∧
      minCells pRtree ≤ best.iBestSplit ∧ best.iBestSplit + minCells pRtree ≤ nCell))
      (Or.inl rfl) ?_
    intro ii hii best hbest
    obtain ⟨st, hst, hbounds⟩ := bestLeft_spec dv aCell hvalid hii hmin hcell
    refine ⟨_, by rw [hst, Option.map_some], Or.inr ?_⟩
    split
    case isTrue => exact ⟨hii, hbounds⟩
    case isFalse hnot => exact hbest.resolve_left fun h0 => hnot (Or.inl h0)
  exact ⟨best, hbest, hP.resolve_left hdim.ne'⟩

/-- What the last loop has done after `n` cells of a row. -/
structure Placed (pRtree : Rtree α) (aCell : ℕ → RtreeCell α) (order : List ℕ) (k : ℕ)
    (first second : RtreeCell α) (halves : Halves α) : Prop where
  left : halves.pLeft.cells = (order.take k).map aCell
  right : halves.pRight.cells = (order.drop k).map aCell
  boxLeft : IsUnion pRtree.nDim halves.pBboxLeft (first :: halves.pLeft.cells)
  boxRight : IsUnion pRtree.nDim halves.pBboxRight (second :: halves.pRight.cells)

theorem placeCells_spec (hvalid : Valid nCell (roomOf pRtree nCell) mem) (hii : ii < pRtree.nDim)
    {k : ℕ} (hk : k ≤ pRtree.nMaxCell) (hrest : nCell ≤ k + pRtree.nMaxCell)
    {pLeft pRight : RtreeNode α} (hl : pLeft.cells = []) (hr : pRight.cells = [])
    (first second : RtreeCell α) :
    ∃ halves, placeCells pRtree aCell nCell mem (ii * nCell) k ⟨pLeft, pRight, first, second⟩
        nCell = some halves ∧
      Placed pRtree aCell (slice mem (ii * nCell) nCell) k first second halves := by
  refine upTo_spec (P := fun n => Placed pRtree aCell (slice mem (ii * nCell) n) k first second)
    ⟨by rw [hl, slice_zero, List.take_nil, List.map_nil],
      by rw [hr, slice_zero, List.drop_nil, List.map_nil],
      by rw [hl]; exact isUnion_singleton _ _, by rw [hr]; exact isUnion_singleton _ _⟩ ?_
  intro n hn halves h
  have hslice : slice mem (ii * nCell) (n + 1) =
      slice mem (ii * nCell) n ++ [mem (ii * nCell + n)] := slice_append _ _ _ _
  have hlen : (slice mem (ii * nCell) n).length = n := length_slice _ _ _
  refine ⟨_, by rw [cellNumber_row hvalid hii hn, Option.map_some], ?_⟩
  by_cases hnk : n < k
  · have hroom : (slice mem (ii * nCell) n).length < pRtree.nMaxCell := by omega
    have hcells : (nodeInsertCell pRtree (aCell (mem (ii * nCell + n))) halves.pLeft).cells =
        halves.pLeft.cells ++ [aCell (mem (ii * nCell + n))] := by
      rw [cells_nodeInsertCell, if_pos]
      rwa [h.left, List.length_map, List.take_of_length_le (by omega)]
    rw [if_pos hnk]
    refine ⟨?_, ?_, ?_, h.boxRight⟩
    · rw [hcells, h.left, hslice, List.take_of_length_le (by omega),
        List.take_of_length_le (by rw [List.length_append, hlen]; exact hnk), List.map_append,
        List.map_singleton]
    · rw [h.right, hslice, List.drop_of_length_le (by omega),
        List.drop_of_length_le (by rw [List.length_append, hlen]; exact hnk)]
    · rw [hcells]
      exact h.boxLeft.cellUnion _
  · have hcells : (nodeInsertCell pRtree (aCell (mem (ii * nCell + n))) halves.pRight).cells =
        halves.pRight.cells ++ [aCell (mem (ii * nCell + n))] := by
      rw [cells_nodeInsertCell, if_pos]
      rw [h.right, List.length_map, List.length_drop]
      omega
    rw [if_neg hnk]
    refine ⟨?_, ?_, h.boxLeft, ?_⟩
    · rw [h.left, hslice, List.take_append_of_le_length (by omega)]
    · rw [hcells, h.right, hslice, List.drop_append_of_le_length (by omega), List.map_append,
        List.map_singleton]
    · rw [hcells]
      exact h.boxRight.cellUnion _

/-- A legal split of `nCell` cells. -/
structure LegalSplit (pRtree : Rtree α) (aCell : ℕ → RtreeCell α) (nCell : ℕ) (order : List ℕ)
    (k : ℕ) (halves : Halves α) : Prop where
  perm : order.Perm (List.range nCell)
  sorted : ∃ iDim < pRtree.nDim, order.Pairwise fun i j => dimLe aCell iDim i j = true
  left : halves.pLeft.cells = (order.take k).map aCell
  right : halves.pRight.cells = (order.drop k).map aCell
  lengthLeft : minCells pRtree ≤ halves.pLeft.cells.length ∧
    halves.pLeft.cells.length ≤ pRtree.nMaxCell
  lengthRight : minCells pRtree ≤ halves.pRight.cells.length ∧
    halves.pRight.cells.length ≤ pRtree.nMaxCell
  boxLeft : IsUnion pRtree.nDim halves.pBboxLeft halves.pLeft.cells
  boxRight : IsUnion pRtree.nDim halves.pBboxRight halves.pRight.cells

/-- **The split of an R\*-tree node is a legal partition.** The sort orders the numbers it is given,
in every allocation with a spare row behind them. The rows of the split are sorted so, and it puts
each cell in one of the two nodes. -/
theorem split_legal (pRtree : Rtree α) (aCell : ℕ → RtreeCell α) (hdim : 0 < pRtree.nDim)
    (hmin : 1 ≤ minCells pRtree) (pLeft pRight : RtreeNode α) (hl : pLeft.cells = [])
    (hr : pRight.cells = []) :
    (∀ nCell size iDim aSpare nIdx aIdx mem, aIdx + nIdx ≤ aSpare → aSpare + nIdx ≤ size →
      Valid nCell size mem →
      ∃ mem', sortByDimension dv aCell nCell size iDim aSpare nIdx aIdx mem = some mem' ∧
        Sorts aCell nCell size iDim aSpare nIdx aIdx mem mem') ∧
    (∃ mem, aaSorted dv pRtree aCell (pRtree.nMaxCell + 1) = some mem ∧
      RowsSorted aCell (pRtree.nMaxCell + 1) pRtree pRtree.nDim mem) ∧
    ∃ halves order k,
      splitNodeStartree dv pRtree aCell (pRtree.nMaxCell + 1) pLeft pRight = some halves ∧
      LegalSplit pRtree aCell (pRtree.nMaxCell + 1) order k halves := by
  refine ⟨fun nCell size iDim aSpare nIdx aIdx mem hspare hsize hvalid =>
    sortByDimension_spec dv aCell iDim nIdx aIdx mem hspare hsize hvalid,
    aaSorted_spec dv aCell (Nat.succ_pos _), ?_⟩
  have hmax : 3 * minCells pRtree ≤ pRtree.nMaxCell := Nat.mul_div_le _ _
  obtain ⟨mem, hmem, hrows⟩ := aaSorted_spec dv aCell (Nat.succ_pos pRtree.nMaxCell)
  obtain ⟨best, hbest, hbd, hlo, hhi⟩ := bestSplit_spec dv aCell hrows.valid hdim
    (by omega) (Nat.succ_pos _)
  have hread : ∀ kk < pRtree.nMaxCell + 1, cellNumber (pRtree.nMaxCell + 1)
      (roomOf pRtree (pRtree.nMaxCell + 1)) mem (best.iBestDim * (pRtree.nMaxCell + 1) + kk) =
      some (mem (best.iBestDim * (pRtree.nMaxCell + 1) + kk)) := fun kk hkk =>
    cellNumber_row hrows.valid hbd hkk
  obtain ⟨halves, hplace, h⟩ := placeCells_spec aCell hrows.valid hbd
    (show best.iBestSplit ≤ pRtree.nMaxCell by omega) (by omega) hl hr
    (aCell (mem (best.iBestDim * (pRtree.nMaxCell + 1))))
    (aCell (mem (best.iBestDim * (pRtree.nMaxCell + 1) + best.iBestSplit)))
  have hlen : (slice mem (best.iBestDim * (pRtree.nMaxCell + 1)) (pRtree.nMaxCell + 1)).length =
      pRtree.nMaxCell + 1 := length_slice _ _ _
  -- the cells that the boxes begin with are among the cells of the nodes
  have hfirst : aCell (mem (best.iBestDim * (pRtree.nMaxCell + 1))) ∈ halves.pLeft.cells := by
    rw [h.left, take_slice (by omega)]
    exact List.mem_map_of_mem (List.mem_map.mpr ⟨0, List.mem_range.mpr (by omega), rfl⟩)
  have hsecond : aCell (mem (best.iBestDim * (pRtree.nMaxCell + 1) + best.iBestSplit)) ∈
      halves.pRight.cells := by
    rw [h.right, drop_slice (by omega)]
    exact List.mem_map_of_mem (List.mem_map.mpr ⟨0, List.mem_range.mpr (by omega), rfl⟩)
  refine ⟨halves, _, best.iBestSplit, ?_, hrows.perm _ hbd,
    ⟨best.iBestDim, hbd, hrows.sorted _ hbd⟩, h.left, h.right, ?_, ?_, h.boxLeft.of_mem hfirst, h.boxRight.of_mem hsecond⟩
  · have hread0 : cellNumber (pRtree.nMaxCell + 1) (roomOf pRtree (pRtree.nMaxCell + 1)) mem
        (best.iBestDim * (pRtree.nMaxCell + 1)) =
        some (mem (best.iBestDim * (pRtree.nMaxCell + 1))) := hread 0 (Nat.succ_pos _)
    rw [splitNodeStartree, hmem, Option.bind_some, hbest, Option.bind_some]
    dsimp only
    rw [hread0, Option.bind_some, hread _ (by omega), Option.bind_some]
    exact hplace
  · rw [h.left, List.length_map, List.length_take, hlen]
    omega
  · rw [h.right, List.length_map, List.length_drop, hlen]
    omega

end

/-- The arithmetic of a build without floating point. -/
def intValue : DValue ℤ ℤ where
  dcoord := id
  zero := 0
  one := 1
  add := (· + ·)
  sub := (· - ·)
  mul := (· * ·)
  lt a b := a < b
  eq a b := a = b
  lt_dcoord _ _ := rfl
  eq_dcoord _ _ := rfl

/-- A tree of intervals, three to a node. -/
def intervals : Rtree ℤ where
  nDim := 1
  nMaxCell := 3
  node _ := none
  rowid _ := none

/-- The interval from `-i` to `i`. -/
def interval (i : ℕ) : RtreeCell ℤ where
  iRowid := 0
  aCoord ii := if ii = 0 then -i else i

theorem split_legal_intervals : ∃ halves order k,
    splitNodeStartree intValue intervals interval 4 (.top 2 []) (.top 3 []) = some halves ∧
      LegalSplit intervals interval 4 order k halves :=
  (split_legal intValue intervals interval (by decide) (by decide) (.top 2 []) (.top 3 []) rfl
    rfl).2.2

end RTree

end SqliteVms

import Mathlib.Data.List.GetD
import Mathlib.Data.List.Nodup
import Mathlib.Tactic.Linarith

/-!
# The scan of an R-tree

`rtreeFilter` and `rtreeNext` of `rtree.c`. The scan keeps no stack. A node has a pointer to its
parent, and a scan that has come to the end of a node climbs there and looks for the cell with the
number of the node it left.

A cell of an interior node is passed over by its box alone. That loses no entry because a box
contains the cells below it, and because no minimum of an entry is above its maximum.

The constraints are the comparisons; a geometry callback is not among them. A node in memory is its
number, its cells and its parent. The reference counts are left out, because a scan writes no node.

## Main definitions

* `Rtree`, `RtreeNode`, `RtreeCursor` — the shadow tables, a node in memory and a cursor
* `descendToCell`, `rtreeFilter`, `rtreeNext` — the scan
* `Subtree` — what makes an R-tree of a node
* `Visits` — the entries that a cursor visits

## Main results

* `visits_rtreeFilter` — a scan visits the entries that satisfy the constraints
-/

namespace SqliteVms

namespace RTree

/-! ### Shadow tables -/

variable {α : Type*}

/-- `RtreeCell`: a rowid or the number of a child, and the coordinates, each minimum before its
maximum. -/
structure RtreeCell (α : Type*) where
  iRowid : Int64
  aCoord : ℕ → α

/-- The blob of a node: the depth, which counts in the root only, and the cells. -/
structure NodeBlob (α : Type*) where
  iDepth : ℕ
  cells : List (RtreeCell α)

/-- `Rtree`, with its tables `%_node` and `%_rowid`. `nMaxCell` is the number of cells in
`iNodeSize` bytes. -/
structure Rtree (α : Type*) where
  nDim : ℕ
  nMaxCell : ℕ
  node : Int64 → Option (NodeBlob α)
  rowid : Int64 → Option Int64

/-- The operators of a constraint, `RTREE_EQ` to `RTREE_GT`. -/
inductive Op
  | eq | le | lt | ge | gt
  deriving DecidableEq

structure RtreeConstraint (α : Type*) where
  iCoord : ℕ
  op : Op
  rValue : α

/-- `RtreeNode`, with a `pParent` of 0 or not. -/
inductive RtreeNode (α : Type*)
  | top (iNode : Int64) (cells : List (RtreeCell α))
  | under (pParent : RtreeNode α) (iNode : Int64) (cells : List (RtreeCell α))

namespace RtreeNode

def iNode : RtreeNode α → Int64
  | top iNode _ => iNode
  | under _ iNode _ => iNode

def cells : RtreeNode α → List (RtreeCell α)
  | top _ cells => cells
  | under _ _ cells => cells

/-- A node in memory, below `pParent` if there is one. -/
def new (pParent : Option (RtreeNode α)) (iNode : Int64) (cells : List (RtreeCell α)) : RtreeNode α :=
  pParent.elim (top iNode cells) fun p => under p iNode cells

end RtreeNode

/-- The place of a cursor: `pNode` and `iCell`. -/
abbrev Place (α : Type*) := RtreeNode α × ℕ

/-- `RtreeCursor`. At the end `pNode` is 0. -/
structure RtreeCursor (α : Type*) where
  iStrategy : ℕ
  aConstraint : List (RtreeConstraint α)
  place : Option (Place α)

/-- An error of the scan. -/
inductive Rc
  | corruptVtab
  deriving DecidableEq

/-! ### Nodes -/

/-- `RTREE_MAX_DEPTH`. -/
def rtreeMaxDepth : ℕ := 40

def nodeAcquire (pRtree : Rtree α) (iNode : Int64) (pParent : Option (RtreeNode α)) :
    Except Rc (RtreeNode α) :=
  match pRtree.node iNode with
  | none => .error .corruptVtab
  | some blob =>
    if iNode = 1 ∧ rtreeMaxDepth < blob.iDepth then .error .corruptVtab
    else if pRtree.nMaxCell < blob.cells.length then .error .corruptVtab
    else .ok (.new pParent iNode blob.cells)

/-- `pRtree->iDepth`, once the root is in memory. -/
def Rtree.iDepth (pRtree : Rtree α) : ℕ := (pRtree.node 1).elim 0 NodeBlob.iDepth

def nodeRowidIndex (pNode : RtreeNode α) (iRowid : Int64) : Except Rc ℕ :=
  match pNode.cells.findIdx? (·.iRowid = iRowid) with
  | some ii => .ok ii
  | none => .error .corruptVtab

section

variable [Inhabited α]

instance : Inhabited (RtreeCell α) := ⟨⟨0, fun _ => default⟩⟩

def nodeGetCell (pNode : RtreeNode α) (iCell : ℕ) : RtreeCell α := pNode.cells.getD iCell default

/-- The cell that has the number of a node is found. -/
theorem findIdx_iRowid {pNode : RtreeNode α} {iCell : ℕ}
    (hnodup : (pNode.cells.map RtreeCell.iRowid).Nodup)
    (hi : iCell < pNode.cells.length) :
    pNode.cells.findIdx (·.iRowid = (nodeGetCell pNode iCell).iRowid) = iCell := by
  rw [nodeGetCell, List.getD_eq_getElem _ _ hi]
  refine (List.findIdx_eq hi).mpr ⟨decide_eq_true rfl, fun j hj => ?_⟩
  refine Bool.eq_false_iff.mpr fun heq => hj.ne ?_
  have hi' : iCell < (pNode.cells.map RtreeCell.iRowid).length := by
    rwa [List.length_map]
  have hj' : j < (pNode.cells.map RtreeCell.iRowid).length := hj.trans hi'
  have hmap : (pNode.cells.map RtreeCell.iRowid)[j] =
      (pNode.cells.map RtreeCell.iRowid)[iCell] := by
    rw [List.getElem_map, List.getElem_map]
    exact of_decide_eq_true heq
  exact (hnodup.getElem_inj_iff).mp hmap

theorem nodeRowidIndex_eq {pNode : RtreeNode α} {iCell : ℕ}
    (hnodup : (pNode.cells.map RtreeCell.iRowid).Nodup)
    (hi : iCell < pNode.cells.length) :
    nodeRowidIndex pNode (nodeGetCell pNode iCell).iRowid = .ok iCell := by
  rw [nodeRowidIndex, List.findIdx?_eq_some_iff_findIdx_eq.mpr ⟨hi, findIdx_iRowid hnodup hi⟩]

end

/-! ### Loops over cells -/

/-- The loops over the cells of a node: the first of `n` cells, from `iCell`, below which there is a
match. -/
def firstCell (descend : ℕ → Except Rc (Option (Place α))) :
    ℕ → ℕ → Except Rc (Option (Place α))
  | 0, _ => .ok none
  | n + 1, iCell =>
    match descend iCell with
    | .ok none => firstCell descend n (iCell + 1)
    | res => res

/-- The loop over the cells finds the first match. -/
theorem firstCell_eq {descend : ℕ → Except Rc (Option (Place α))} {places : ℕ → List (Place α)}
    {sat : Place α → Bool} {n iCell : ℕ}
    (h : ∀ i, iCell ≤ i → i < iCell + n → descend i = .ok ((places i).find? sat)) :
    firstCell descend n iCell = .ok (((List.range' iCell n).flatMap places).find? sat) := by
  induction n generalizing iCell with
  | zero => rfl
  | succ n ih =>
    rw [firstCell, h iCell le_rfl (by omega), List.range'_succ, List.flatMap_cons,
      List.find?_append]
    cases (places iCell).find? sat with
    | none => exact ih fun i hi hlt => h i (by omega) (by omega)
    | some x => rfl

/-! ### Constraints -/

variable [LinearOrder α]

/-- Whether `testRtreeCell` passes over a cell because of one constraint. -/
def RtreeConstraint.excludes (p : RtreeConstraint α) (cell : RtreeCell α) : Bool :=
  let cellMin := cell.aCoord (p.iCoord / 2 * 2)
  let cellMax := cell.aCoord (p.iCoord / 2 * 2 + 1)
  match p.op with
  | .le | .lt => p.rValue < cellMin
  | .ge | .gt => cellMax < p.rValue
  | .eq => cellMax < p.rValue ∨ p.rValue < cellMin

def testRtreeCell (aConstraint : List (RtreeConstraint α)) (cell : RtreeCell α) : Bool :=
  aConstraint.any fun p => p.excludes cell

/-- `coord op rValue`. -/
def Op.test (op : Op) (coord rValue : α) : Bool :=
  match op with
  | .le => coord ≤ rValue
  | .lt => coord < rValue
  | .ge => rValue ≤ coord
  | .gt => rValue < coord
  | .eq => coord = rValue

/-- Whether an entry satisfies a constraint. -/
def RtreeConstraint.sat (p : RtreeConstraint α) (cell : RtreeCell α) : Bool :=
  p.op.test (cell.aCoord p.iCoord) p.rValue

def testRtreeEntry (aConstraint : List (RtreeConstraint α)) (cell : RtreeCell α) : Bool :=
  aConstraint.any fun p => !p.sat cell

/-! ### R-trees -/

namespace RtreeCell

/-- No minimum is above its maximum. -/
def Ordered (nDim : ℕ) (cell : RtreeCell α) : Prop :=
  ∀ i < nDim, cell.aCoord (2 * i) ≤ cell.aCoord (2 * i + 1)

/-- One box contains the other. -/
def Within (nDim : ℕ) (cell box : RtreeCell α) : Prop :=
  ∀ i < nDim, box.aCoord (2 * i) ≤ cell.aCoord (2 * i) ∧
    cell.aCoord (2 * i + 1) ≤ box.aCoord (2 * i + 1)

end RtreeCell

/-- The cells of a node in the table. -/
def Rtree.cells (pRtree : Rtree α) (iNode : Int64) : List (RtreeCell α) :=
  (pRtree.node iNode).elim [] NodeBlob.cells

/-- A node is in the table, and its cells have different numbers. -/
structure Rtree.Stored (pRtree : Rtree α) (iNode : Int64) : Prop where
  exists_blob : ∃ blob, pRtree.node iNode = some blob ∧ blob.cells.length ≤ pRtree.nMaxCell
  nodup : ((pRtree.cells iNode).map RtreeCell.iRowid).Nodup

/-- What is below a cell of a node of a height is an R-tree. -/
def Subtree (pRtree : Rtree α) : ℕ → RtreeCell α → Prop
  | 0, cell => cell.Ordered pRtree.nDim
  | iHeight + 1, cell => pRtree.Stored cell.iRowid ∧
      ∀ c ∈ pRtree.cells cell.iRowid, c.Within pRtree.nDim cell ∧ Subtree pRtree iHeight c

/-- The shadow tables hold an R-tree. -/
structure Rtree.Valid (pRtree : Rtree α) : Prop where
  depth : pRtree.iDepth ≤ rtreeMaxDepth
  root : pRtree.Stored 1
  subtree : ∀ c ∈ pRtree.cells 1, Subtree pRtree pRtree.iDepth c

/-- The entries below a cell of a node of a height. -/
def entriesBelow (pRtree : Rtree α) : ℕ → RtreeCell α → List (RtreeCell α)
  | 0, cell => [cell]
  | iHeight + 1, cell => (pRtree.cells cell.iRowid).flatMap (entriesBelow pRtree iHeight)

/-- The entries of an R-tree. -/
def Rtree.entries (pRtree : Rtree α) : List (RtreeCell α) :=
  (pRtree.cells 1).flatMap (entriesBelow pRtree pRtree.iDepth)

variable {pRtree : Rtree α} {aConstraint : List (RtreeConstraint α)} {iHeight iCell : ℕ}
  {pNode : RtreeNode α} {cell : RtreeCell α}

theorem RtreeCell.Within.trans {nDim : ℕ} {a b c : RtreeCell α} (hab : a.Within nDim b)
    (hbc : b.Within nDim c) : a.Within nDim c :=
  fun i hi => ⟨(hbc i hi).1.trans (hab i hi).1, (hab i hi).2.trans (hbc i hi).2⟩

/-- An entry is in every box above it. -/
theorem Subtree.entry (h : Subtree pRtree iHeight cell) {e : RtreeCell α}
    (he : e ∈ entriesBelow pRtree iHeight cell) :
    e.Within pRtree.nDim cell ∧ e.Ordered pRtree.nDim := by
  induction iHeight generalizing cell with
  | zero =>
    obtain rfl := List.mem_singleton.mp he
    exact ⟨fun i _ => ⟨le_rfl, le_rfl⟩, h⟩
  | succ iHeight ih =>
    obtain ⟨c, hc, he⟩ := List.mem_flatMap.mp he
    obtain ⟨hwithin, hsub⟩ := h.2 c hc
    obtain ⟨hbox, hord⟩ := ih hsub he
    exact ⟨hbox.trans hwithin, hord⟩

/-- A constraint on a dimension of the R-tree. -/
def RtreeConstraint.On (p : RtreeConstraint α) (pRtree : Rtree α) : Prop :=
  p.iCoord < 2 * pRtree.nDim

/-- A coordinate of an entry is between the ends of its dimension in every box. -/
theorem Subtree.coord (h : Subtree pRtree iHeight cell) {e : RtreeCell α}
    (he : e ∈ entriesBelow pRtree iHeight cell) {i : ℕ} (hi : i < 2 * pRtree.nDim) :
    cell.aCoord (i / 2 * 2) ≤ e.aCoord i ∧ e.aCoord i ≤ cell.aCoord (i / 2 * 2 + 1) := by
  obtain ⟨hwithin, hord⟩ := h.entry he
  have hdim : i / 2 < pRtree.nDim := by omega
  have hbox := hwithin _ hdim
  have hle := hord _ hdim
  rw [Nat.mul_comm]
  obtain hmin | hmax : i = 2 * (i / 2) ∨ i = 2 * (i / 2) + 1 := by omega
  · rw [← hmin] at hbox hle ⊢
    exact ⟨hbox.1, hle.trans hbox.2⟩
  · rw [← hmax] at hbox hle ⊢
    exact ⟨hbox.1.trans hle, hbox.2⟩

/-- A cell that is passed over has no matching entry below it. -/
theorem Subtree.not_sat (h : Subtree pRtree iHeight cell) {p : RtreeConstraint α}
    (hp : p.On pRtree) (hex : p.excludes cell = true) {e : RtreeCell α}
    (he : e ∈ entriesBelow pRtree iHeight cell) : p.sat e = false := by
  obtain ⟨hmin, hmax⟩ := h.coord he hp
  obtain ⟨iCoord, op, rValue⟩ := p
  dsimp only at hmin hmax
  cases op with
  | eq =>
    obtain hex | hex := of_decide_eq_true hex
    · exact decide_eq_false (hmax.trans_lt hex).ne
    · exact decide_eq_false (hex.trans_le hmin).ne'
  | le => exact decide_eq_false (not_le.mpr ((of_decide_eq_true hex).trans_le hmin))
  | lt => exact decide_eq_false (not_lt.mpr ((of_decide_eq_true hex).le.trans hmin))
  | ge => exact decide_eq_false (not_le.mpr (hmax.trans_lt (of_decide_eq_true hex)))
  | gt => exact decide_eq_false (not_lt.mpr (hmax.trans (of_decide_eq_true hex).le))

theorem Subtree.testRtreeEntry (h : Subtree pRtree iHeight cell)
    (hp : ∀ p ∈ aConstraint, p.On pRtree) (hex : testRtreeCell aConstraint cell = true)
    {e : RtreeCell α} (he : e ∈ entriesBelow pRtree iHeight cell) :
    testRtreeEntry aConstraint e = true := by
  obtain ⟨p, hmem, hexp⟩ := List.any_eq_true.mp hex
  exact List.any_eq_true.mpr ⟨p, hmem, by rw [h.not_sat (hp p hmem) hexp he]; rfl⟩

theorem Rtree.Valid.nodeAcquire (hvalid : pRtree.Valid) {iNode : Int64} (h : pRtree.Stored iNode)
    (pParent : Option (RtreeNode α)) :
    nodeAcquire pRtree iNode pParent = .ok (.new pParent iNode (pRtree.cells iNode)) := by
  obtain ⟨blob, hblob, hlen⟩ := h.exists_blob
  have hdepth : ¬(iNode = 1 ∧ rtreeMaxDepth < blob.iDepth) := by
    rintro ⟨rfl, hlt⟩
    have hle := hvalid.depth
    rw [Rtree.iDepth, hblob] at hle
    exact absurd hlt (not_lt.mpr hle)
  rw [RTree.nodeAcquire, hblob]
  dsimp only
  rw [if_neg hdepth, if_neg (not_lt.mpr hlen), Rtree.cells, hblob]
  rfl

/-! ### The scan -/

variable [Inhabited α]

/-- `descendToCell`: the first match below a cell, or `none` for an `isEof`. -/
def descendToCell (pRtree : Rtree α) (aConstraint : List (RtreeConstraint α)) :
    ℕ → RtreeNode α → ℕ → Except Rc (Option (Place α))
  | 0, pNode, iCell =>
    if testRtreeEntry aConstraint (nodeGetCell pNode iCell) then .ok none
    else .ok (some (pNode, iCell))
  | iHeight + 1, pNode, iCell =>
    if testRtreeCell aConstraint (nodeGetCell pNode iCell) then .ok none
    else
      match nodeAcquire pRtree (nodeGetCell pNode iCell).iRowid (some pNode) with
      | .error rc => .error rc
      | .ok pChild =>
        firstCell (descendToCell pRtree aConstraint iHeight pChild) pChild.cells.length 0

/-- The loop of `rtreeNext`, at a cell of a node of a height. -/
def nextMatch (pRtree : Rtree α) (aConstraint : List (RtreeConstraint α)) :
    ℕ → RtreeNode α → ℕ → Except Rc (Option (Place α))
  | iHeight, .top iNode cells, iCell =>
    firstCell (descendToCell pRtree aConstraint iHeight (.top iNode cells))
      (cells.length - (iCell + 1)) (iCell + 1)
  | iHeight, .under pParent iNode cells, iCell =>
    match firstCell (descendToCell pRtree aConstraint iHeight (.under pParent iNode cells))
        (cells.length - (iCell + 1)) (iCell + 1) with
    | .ok none =>
      match nodeRowidIndex pParent iNode with
      | .error rc => .error rc
      | .ok iCell => nextMatch pRtree aConstraint (iHeight + 1) pParent iCell
    | res => res

def rtreeNext (pRtree : Rtree α) (pCsr : RtreeCursor α) : Except Rc (RtreeCursor α) :=
  match pCsr.place with
  | none => .ok pCsr
  | some (pNode, iCell) =>
    if pCsr.iStrategy = 1 then .ok { pCsr with place := none }
    else
      match nextMatch pRtree pCsr.aConstraint 0 pNode iCell with
      | .error rc => .error rc
      | .ok place => .ok { pCsr with place := place }

/-- `rtreeFilter` with an `idxNum` of 2. -/
def rtreeFilter (pRtree : Rtree α) (aConstraint : List (RtreeConstraint α)) :
    Except Rc (RtreeCursor α) :=
  match nodeAcquire pRtree 1 none with
  | .error rc => .error rc
  | .ok pRoot =>
    match firstCell (descendToCell pRtree aConstraint pRtree.iDepth pRoot) pRoot.cells.length 0 with
    | .error rc => .error rc
    | .ok place => .ok ⟨2, aConstraint, place⟩

/-- The cells that a cursor is at, one after the other, until `rtreeEof`. -/
inductive Visits (pRtree : Rtree α) : RtreeCursor α → List (RtreeCell α) → Prop
  | eof {pCsr : RtreeCursor α} : pCsr.place = none → Visits pRtree pCsr []
  | next {pCsr pCsr' : RtreeCursor α} {pNode : RtreeNode α} {iCell : ℕ}
      {cells : List (RtreeCell α)} :
      pCsr.place = some (pNode, iCell) → rtreeNext pRtree pCsr = .ok pCsr' →
      Visits pRtree pCsr' cells → Visits pRtree pCsr (nodeGetCell pNode iCell :: cells)

/-! ### The places of a scan -/

/-- A cell as a child in memory. -/
def child (pRtree : Rtree α) (pNode : RtreeNode α) (iCell : ℕ) : RtreeNode α :=
  .under pNode (nodeGetCell pNode iCell).iRowid (pRtree.cells (nodeGetCell pNode iCell).iRowid)

/-- The places of the entries below a cell. -/
def places (pRtree : Rtree α) : ℕ → RtreeNode α → ℕ → List (Place α)
  | 0, pNode, iCell => [(pNode, iCell)]
  | iHeight + 1, pNode, iCell =>
    (List.range' 0 (child pRtree pNode iCell).cells.length).flatMap
      (places pRtree iHeight (child pRtree pNode iCell))

/-- The places below the cells of a node, from a cell on. -/
def placesFrom (pRtree : Rtree α) (iHeight : ℕ) (pNode : RtreeNode α) (iCell : ℕ) :
    List (Place α) :=
  (List.range' iCell (pNode.cells.length - iCell)).flatMap (places pRtree iHeight pNode)

/-- The places after those below a cell. -/
def rest (pRtree : Rtree α) : ℕ → RtreeNode α → ℕ → List (Place α)
  | iHeight, .top iNode cells, iCell => placesFrom pRtree iHeight (.top iNode cells) (iCell + 1)
  | iHeight, .under pParent iNode cells, iCell =>
    placesFrom pRtree iHeight (.under pParent iNode cells) (iCell + 1) ++
      rest pRtree (iHeight + 1) pParent (pParent.cells.findIdx (·.iRowid = iNode))

/-- The cell at a place. -/
def cellAt (x : Place α) : RtreeCell α := nodeGetCell x.1 x.2

/-- Whether the entry at a place satisfies the constraints. -/
def satAt (aConstraint : List (RtreeConstraint α)) (x : Place α) : Bool :=
  !testRtreeEntry aConstraint (cellAt x)

/-- A node in memory, and the nodes above it, are as the tables have them. -/
def Loaded (pRtree : Rtree α) : ℕ → RtreeNode α → Prop
  | iHeight, .top _ cells =>
    (cells.map RtreeCell.iRowid).Nodup ∧ ∀ c ∈ cells, Subtree pRtree iHeight c
  | iHeight, .under pParent iNode cells =>
    ((cells.map RtreeCell.iRowid).Nodup ∧ ∀ c ∈ cells, Subtree pRtree iHeight c) ∧
      (∃ iCell < pParent.cells.length, (nodeGetCell pParent iCell).iRowid = iNode) ∧
      Loaded pRtree (iHeight + 1) pParent

/-! ### One step -/

theorem Loaded.nodup (h : Loaded pRtree iHeight pNode) :
    (pNode.cells.map RtreeCell.iRowid).Nodup := by
  cases pNode with
  | top iNode cells => exact h.1
  | under pParent iNode cells => exact h.1.1

theorem Loaded.subtree (h : Loaded pRtree iHeight pNode) (hi : iCell < pNode.cells.length) :
    Subtree pRtree iHeight (nodeGetCell pNode iCell) := by
  have hmem : nodeGetCell pNode iCell ∈ pNode.cells := by
    rw [nodeGetCell, List.getD_eq_getElem _ _ hi]
    exact List.getElem_mem hi
  cases pNode with
  | top iNode cells => exact h.2 _ hmem
  | under pParent iNode cells => exact h.1.2 _ hmem

theorem Loaded.child (h : Loaded pRtree (iHeight + 1) pNode) (hi : iCell < pNode.cells.length) :
    Loaded pRtree iHeight (child pRtree pNode iCell) := by
  obtain ⟨hstored, hbelow⟩ := h.subtree hi
  exact ⟨⟨hstored.nodup, fun c hc => (hbelow c hc).2⟩, ⟨iCell, hi, rfl⟩, h⟩

theorem flatMap_getD {β γ : Type*} (xs : List β) (d : β) (f : β → List γ) :
    (List.range' 0 xs.length).flatMap (fun i => f (xs.getD i d)) = xs.flatMap f := by
  have hmap : (List.range' 0 xs.length).map (fun i => xs.getD i d) = xs := by
    refine List.ext_getElem (by simp) fun i _ hi => ?_
    rw [List.getElem_map, List.getElem_range', Nat.zero_add, Nat.one_mul,
      List.getD_eq_getElem _ _ hi]
  conv_rhs => rw [← hmap, List.flatMap_map]

omit [LinearOrder α] in
/-- The places below a cell hold the entries below it. -/
theorem map_places (pNode : RtreeNode α) (iCell : ℕ) :
    (places pRtree iHeight pNode iCell).map cellAt =
      entriesBelow pRtree iHeight (nodeGetCell pNode iCell) := by
  induction iHeight generalizing pNode iCell with
  | zero => rfl
  | succ iHeight ih =>
    rw [places, List.map_flatMap, entriesBelow]
    simp only [ih]
    exact flatMap_getD _ _ _

/-- `descendToCell` finds the first match below a cell. -/
theorem descendToCell_eq (hvalid : pRtree.Valid) (hp : ∀ p ∈ aConstraint, p.On pRtree)
    (h : Loaded pRtree iHeight pNode) (hi : iCell < pNode.cells.length) :
    descendToCell pRtree aConstraint iHeight pNode iCell =
      .ok ((places pRtree iHeight pNode iCell).find? (satAt aConstraint)) := by
  induction iHeight generalizing pNode iCell with
  | zero =>
    rw [descendToCell, places, List.find?_singleton, satAt, cellAt]
    cases testRtreeEntry aConstraint (nodeGetCell pNode iCell) with
    | true => rfl
    | false => rfl
  | succ iHeight ih =>
    have hsub := h.subtree hi
    rw [descendToCell]
    split
    · rename_i hex
      have hnone : (places pRtree (iHeight + 1) pNode iCell).find? (satAt aConstraint) = none := by
        refine List.find?_eq_none.mpr fun x hx hsat => ?_
        have hmem := List.mem_map_of_mem (f := cellAt) hx
        rw [map_places] at hmem
        rw [satAt, hsub.testRtreeEntry hp hex hmem] at hsat
        exact Bool.false_ne_true hsat
      rw [hnone]
    · rw [hvalid.nodeAcquire hsub.1]
      have hchild := h.child hi
      exact firstCell_eq fun i _ hlt => ih hchild (by omega)

/-- Where an element of a list of lists splits it. -/
theorem flatMap_range'_split {β : Type*} {f : ℕ → List β} {n i : ℕ} {as bs : List β} {x : β}
    (h : (List.range' i n).flatMap f = as ++ x :: bs) :
    ∃ k as' bs', i ≤ k ∧ k < i + n ∧ f k = as' ++ x :: bs' ∧
      bs = bs' ++ (List.range' (k + 1) (i + n - (k + 1))).flatMap f := by
  induction n generalizing i as with
  | zero => exact absurd h (by simp)
  | succ n ih =>
    rw [List.range'_succ, List.flatMap_cons] at h
    obtain ⟨cs, hcs, hrest⟩ | ⟨cs, hfi, hrest⟩ := List.append_eq_append_iff.mp h
    · obtain ⟨k, as', bs', hik, hkn, hk, hbs⟩ := ih hrest
      refine ⟨k, as', bs', by omega, by omega, hk, ?_⟩
      rwa [show i + (n + 1) - (k + 1) = i + 1 + n - (k + 1) by omega]
    · cases cs with
      | nil =>
        obtain ⟨k, as', bs', hik, hkn, hk, hbs⟩ := @ih (i + 1) [] hrest.symm
        refine ⟨k, as', bs', by omega, by omega, hk, ?_⟩
        rwa [show i + (n + 1) - (k + 1) = i + 1 + n - (k + 1) by omega]
      | cons y cs =>
        obtain ⟨rfl, rfl⟩ := List.cons.inj hrest
        refine ⟨i, as, cs, le_rfl, by omega, hfi, ?_⟩
        rw [show i + (n + 1) - (i + 1) = n by omega]
        rfl

/-- What is left of the scan at a place below a cell. -/
theorem rest_of_places (h : Loaded pRtree iHeight pNode) (hi : iCell < pNode.cells.length)
    {as bs : List (Place α)} {x : Place α}
    (hx : places pRtree iHeight pNode iCell = as ++ x :: bs) :
    rest pRtree 0 x.1 x.2 = bs ++ rest pRtree iHeight pNode iCell ∧ Loaded pRtree 0 x.1 := by
  induction iHeight generalizing pNode iCell as bs with
  | zero =>
    rw [places] at hx
    obtain ⟨rfl, hcons⟩ | ⟨cs, -, hnil⟩ := List.cons_eq_append_iff.mp hx
    · obtain ⟨rfl, rfl⟩ := List.cons.inj hcons
      exact ⟨rfl, h⟩
    · exact absurd hnil.symm (List.append_ne_nil_of_right_ne_nil _ (List.cons_ne_nil _ _))
  | succ iHeight ih =>
    have hchild := h.child hi
    obtain ⟨k, as', bs', -, hk, hsplit, rfl⟩ := flatMap_range'_split hx
    rw [Nat.zero_add] at hk
    obtain ⟨hrest, hloaded⟩ := ih hchild hk hsplit
    refine ⟨?_, hloaded⟩
    rw [hrest, child, rest, findIdx_iRowid h.nodup hi, List.append_assoc, Nat.zero_add]
    rfl

/-- What is left of the scan after a node. -/
def above (pRtree : Rtree α) : ℕ → RtreeNode α → List (Place α)
  | _, .top _ _ => []
  | iHeight, .under pParent iNode _ =>
    rest pRtree (iHeight + 1) pParent (pParent.cells.findIdx (·.iRowid = iNode))

omit [LinearOrder α] in
theorem rest_eq (iHeight : ℕ) (pNode : RtreeNode α) (iCell : ℕ) :
    rest pRtree iHeight pNode iCell =
      placesFrom pRtree iHeight pNode (iCell + 1) ++ above pRtree iHeight pNode := by
  cases pNode with
  | top iNode cells => exact (List.append_nil _).symm
  | under pParent iNode cells => rfl

/-- The loop of `rtreeNext` finds the first match in what is left of the scan. -/
theorem nextMatch_eq (hvalid : pRtree.Valid) (hp : ∀ p ∈ aConstraint, p.On pRtree)
    (h : Loaded pRtree iHeight pNode) :
    nextMatch pRtree aConstraint iHeight pNode iCell =
      .ok ((rest pRtree iHeight pNode iCell).find? (satAt aConstraint)) := by
  have hnode : ∀ {iHeight : ℕ} {pNode : RtreeNode α} {iCell : ℕ}, Loaded pRtree iHeight pNode →
      firstCell (descendToCell pRtree aConstraint iHeight pNode)
          (pNode.cells.length - (iCell + 1)) (iCell + 1) =
        .ok ((placesFrom pRtree iHeight pNode (iCell + 1)).find? (satAt aConstraint)) :=
    fun h => firstCell_eq fun i _ hlt => descendToCell_eq hvalid hp h (by omega)
  induction pNode generalizing iHeight iCell with
  | top iNode cells => exact hnode h
  | under pParent iNode cells ih =>
    have hfirst := @hnode iHeight (.under pParent iNode cells) iCell h
    obtain ⟨k, hk, rfl⟩ := h.2.1
    rw [nextMatch, rest_eq, List.find?_append, above, findIdx_iRowid h.2.2.nodup hk]
    dsimp only [RtreeNode.cells] at hfirst
    rw [hfirst]
    cases (placesFrom pRtree iHeight (.under pParent (nodeGetCell pParent k).iRowid cells)
        (iCell + 1)).find? (satAt aConstraint) with
    | some x => rfl
    | none =>
      dsimp only
      rw [nodeRowidIndex_eq h.2.2.nodup hk]
      exact ih h.2.2

/-! ### The whole scan -/

theorem rtreeNext_eq (hvalid : pRtree.Valid) (hp : ∀ p ∈ aConstraint, p.On pRtree)
    (h : Loaded pRtree 0 pNode) :
    rtreeNext pRtree ⟨2, aConstraint, some (pNode, iCell)⟩ =
      .ok ⟨2, aConstraint, (rest pRtree 0 pNode iCell).find? (satAt aConstraint)⟩ := by
  rw [rtreeNext]
  dsimp only
  rw [if_neg (by decide), nextMatch_eq hvalid hp h]

/-- A cursor visits its own cell and the matches in what is left of the scan. -/
theorem visits_place (hvalid : pRtree.Valid) (hp : ∀ p ∈ aConstraint, p.On pRtree)
    {xs : List (Place α)} (hxs : ∀ {as bs : List (Place α)} {x : Place α}, xs = as ++ x :: bs →
      rest pRtree 0 x.1 x.2 = bs ∧ Loaded pRtree 0 x.1) :
    Visits pRtree ⟨2, aConstraint, xs.find? (satAt aConstraint)⟩
      ((xs.filter (satAt aConstraint)).map cellAt) := by
  induction hn : xs.length using Nat.strong_induction_on generalizing xs with
  | _ n ih =>
    subst hn
    cases hfind : xs.find? (satAt aConstraint) with
    | none =>
      rw [List.filter_eq_nil_iff.mpr (List.find?_eq_none.mp hfind)]
      exact .eof rfl
    | some x =>
      obtain ⟨hx, as, bs, rfl, has⟩ := List.find?_eq_some_iff_append.mp hfind
      obtain ⟨hrest, hloaded⟩ := hxs rfl
      have hfilter : (as ++ x :: bs).filter (satAt aConstraint) =
          x :: bs.filter (satAt aConstraint) := by
        rw [List.filter_append, List.filter_cons_of_pos hx, List.filter_eq_nil_iff.mpr ?_,
          List.nil_append]
        intro y hy hsat
        have hnot := has y hy
        rw [hsat] at hnot
        exact Bool.noConfusion hnot
      rw [hfilter, List.map_cons]
      have hnext : rtreeNext pRtree ⟨2, aConstraint, some (x.1, x.2)⟩ = _ :=
        rtreeNext_eq hvalid hp hloaded
      rw [hrest] at hnext
      refine .next rfl hnext (ih bs.length ?_ ?_ rfl)
      · rw [List.length_append, List.length_cons]
        omega
      · intro cs ds y hy
        refine hxs (?_ : _ = (as ++ x :: cs) ++ y :: ds)
        rw [hy, List.append_assoc, List.cons_append]

theorem Visits.unique {pCsr : RtreeCursor α} {cells cells' : List (RtreeCell α)}
    (h : Visits pRtree pCsr cells) (h' : Visits pRtree pCsr cells') : cells = cells' := by
  induction h generalizing cells' with
  | eof hplace =>
    cases h' with
    | eof _ => rfl
    | next hplace' _ _ => exact absurd (hplace'.symm.trans hplace) (Option.some_ne_none _)
  | next hplace hnext _ ih =>
    cases h' with
    | eof hplace' => exact absurd (hplace.symm.trans hplace') (Option.some_ne_none _)
    | next hplace' hnext' hvisits =>
      obtain ⟨rfl, rfl⟩ := Prod.mk.inj (Option.some.inj (hplace.symm.trans hplace'))
      obtain rfl := Except.ok.inj (hnext.symm.trans hnext')
      rw [ih hvisits]

omit [LinearOrder α] in
theorem map_placesFrom_root (pRtree : Rtree α) :
    (placesFrom pRtree pRtree.iDepth (.top 1 (pRtree.cells 1)) 0).map cellAt = pRtree.entries := by
  rw [placesFrom, List.map_flatMap]
  simp only [map_places]
  exact flatMap_getD _ _ _

theorem satAt_eq (aConstraint : List (RtreeConstraint α)) :
    satAt aConstraint = (fun cell => aConstraint.all fun p => p.sat cell) ∘ cellAt := by
  funext x
  rw [satAt, testRtreeEntry, List.not_any_eq_all_not]
  simp only [Bool.not_not, Function.comp_apply]

/-- A scan visits each entry that satisfies the constraints, once, and no other one. -/
theorem visits_rtreeFilter (hvalid : pRtree.Valid) (hp : ∀ p ∈ aConstraint, p.On pRtree) :
    ∃ pCsr, rtreeFilter pRtree aConstraint = .ok pCsr ∧ ∀ cells, Visits pRtree pCsr cells ↔
      cells = pRtree.entries.filter fun cell => aConstraint.all fun p => p.sat cell := by
  have hroot : Loaded pRtree pRtree.iDepth (.top 1 (pRtree.cells 1)) :=
    ⟨hvalid.root.nodup, hvalid.subtree⟩
  have hfirst : firstCell (descendToCell pRtree aConstraint pRtree.iDepth
      (.top 1 (pRtree.cells 1))) (pRtree.cells 1).length 0 = .ok
      ((placesFrom pRtree pRtree.iDepth (.top 1 (pRtree.cells 1)) 0).find? (satAt aConstraint)) :=
    firstCell_eq fun i _ hlt => descendToCell_eq hvalid hp hroot (by rwa [Nat.zero_add] at hlt)
  have hplaces : ∀ {as bs : List (Place α)} {x : Place α},
      placesFrom pRtree pRtree.iDepth (.top 1 (pRtree.cells 1)) 0 = as ++ x :: bs →
      rest pRtree 0 x.1 x.2 = bs ∧ Loaded pRtree 0 x.1 := by
    intro as bs x hx
    obtain ⟨k, as', bs', -, hk, hsplit, rfl⟩ := flatMap_range'_split hx
    obtain ⟨hrest, hloaded⟩ := rest_of_places hroot (by rwa [Nat.zero_add] at hk) hsplit
    refine ⟨?_, hloaded⟩
    rw [hrest, rest, placesFrom, Nat.zero_add]
    rfl
  have hvisits := visits_place hvalid hp hplaces
  rw [satAt_eq, ← List.filter_map, map_placesFrom_root, ← satAt_eq] at hvisits
  refine ⟨_, ?_, fun cells => ⟨fun h => h.unique hvisits, fun h => h ▸ hvisits⟩⟩
  rw [rtreeFilter, hvalid.nodeAcquire hvalid.root]
  exact congrArg (fun res : Except Rc (Option (Place α)) => (match res with
    | .error rc => .error rc
    | .ok place => .ok ⟨2, aConstraint, place⟩ : Except Rc (RtreeCursor α))) hfirst

/-- A root with one leaf of two entries. -/
def smallRtree : Rtree ℤ where
  nDim := 1
  nMaxCell := 51
  node iNode :=
    if iNode = 1 then some ⟨1, [⟨2, fun i => if i = 0 then 1 else 9⟩]⟩
    else if iNode = 2 then
      some ⟨0, [⟨7, fun i => if i = 0 then 1 else 2⟩, ⟨8, fun i => if i = 0 then 3 else 9⟩]⟩
    else none
  rowid _ := some 2

theorem smallRtree_valid : smallRtree.Valid where
  depth := by decide
  root := ⟨⟨_, rfl, by decide⟩, by decide⟩
  subtree := by
    intro c hc
    obtain rfl := List.mem_singleton.mp hc
    refine ⟨⟨⟨_, rfl, by decide⟩, by decide⟩, fun c hc => ?_⟩
    obtain rfl | rfl := List.mem_pair.mp hc
    · exact ⟨by unfold RtreeCell.Within; decide, by unfold Subtree RtreeCell.Ordered; decide⟩
    · exact ⟨by unfold RtreeCell.Within; decide, by unfold Subtree RtreeCell.Ordered; decide⟩

theorem visits_smallRtree : ∃ pCsr, rtreeFilter smallRtree [⟨1, .gt, 2⟩] = .ok pCsr ∧
    ∀ cells, Visits smallRtree pCsr cells ↔ cells = smallRtree.entries.filter
      fun cell => [(⟨1, .gt, 2⟩ : RtreeConstraint ℤ)].all fun p => p.sat cell :=
  visits_rtreeFilter smallRtree_valid (by
    intro p hp
    obtain rfl := List.mem_singleton.mp hp
    exact (by decide : 1 < 2 * 1))

end RTree

end SqliteVms

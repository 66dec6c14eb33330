import SqliteVms.Rtree.Scan
import SqliteVms.Vdbe.Logic

/-!
# Terms that an R-tree takes over

`rtreeBestIndex` of `rtree.c` tells the core which terms of a WHERE clause it need not check. The
module then compares numbers: it reads the value on the right-hand side of a coordinate as a real
and that of the rowid as an integer. SQL compares values. The two agree on numbers, except where a
real is cast to a rowid; they do not on NULLs, texts and blobs.

The table is an `rtree_i32`. A MATCH is not among the terms.

## Main definitions

* `rtreeBestIndex`, `xFilter` — the plan and the two strategies
* `ConstraintOp.holds` — whether a comparison of SQL is true
* `Meant` — the rows of a scan are those of the terms taken over
* `OmitOk` — when they are

## Main results

* `visits_terms` — the rows of a scan
* `meant_iff` — when they are those that SQL means
-/

namespace SqliteVms

namespace RTree

open Vdbe Comparison

/-! ### The plan -/

/-- `SQLITE_INDEX_CONSTRAINT_EQ` and so on. -/
inductive ConstraintOp
  | eq | gt | le | lt | ge
  deriving DecidableEq

/-- The operator of the R-tree. -/
def ConstraintOp.rtree : ConstraintOp → Op
  | .eq => .eq
  | .gt => .gt
  | .le => .le
  | .lt => .lt
  | .ge => .ge

/-- `sqlite3_index_constraint`, and the value on its right-hand side. -/
structure Term where
  iColumn : ℤ
  op : ConstraintOp
  usable : Bool
  value : Value

/-- `sqlite3_index_constraint_usage`: `argvIndex` and `omit`. -/
structure Usage where
  argvIndex : ℕ
  omitTerm : Bool
  deriving DecidableEq

/-- The answer in `sqlite3_index_info`. A pair of `idxStr` is an operator and a coordinate. -/
structure IndexInfo where
  idxNum : ℕ
  idxStr : List (Op × ℕ)
  aConstraintUsage : List Usage

/-- A constraint that is not used. -/
def unused : Usage := ⟨0, false⟩

/-- The pairs that fit in `zIdxStr`. -/
def maxPairs : ℕ := 20

/-- The loop of `rtreeBestIndex`. -/
def bestIndexLoop (usage : List Usage) (idxStr : List (Op × ℕ)) : List Term → IndexInfo
  | [] => ⟨2, idxStr, usage⟩
  | p :: ps =>
    if maxPairs ≤ idxStr.length then ⟨2, idxStr, usage ++ (p :: ps).map fun _ => unused⟩
    else if p.usable ∧ p.iColumn = 0 ∧ p.op = .eq then
      ⟨1, [], usage.map (fun _ => unused) ++ ⟨1, true⟩ :: ps.map fun _ => unused⟩
    else if p.usable ∧ 0 < p.iColumn then
      bestIndexLoop (usage ++ [⟨idxStr.length + 1, true⟩])
        (idxStr ++ [(p.op.rtree, (p.iColumn - 1).toNat)]) ps
    else bestIndexLoop (usage ++ [unused]) idxStr ps

def rtreeBestIndex (terms : List Term) : IndexInfo := bestIndexLoop [] [] terms

/-- The terms that the core does not check. -/
def omitted (terms : List Term) : List Term :=
  (((rtreeBestIndex terms).aConstraintUsage.zip terms).filter fun u => u.1.omitTerm).map Prod.snd

/-- The values that the core gives to `xFilter`, in the order of `argvIndex`. -/
def argvOf (usage : List Usage) (terms : List Term) : List Value :=
  (List.range' 1 terms.length).filterMap fun j =>
    ((usage.zip terms).find? fun u => u.1.argvIndex = j).map fun u => u.2.value

/-! ### The two strategies -/

variable (R : Reading)

def findLeafNode (pRtree : Rtree ℤ) (iRowid : Int64) : Except Rc (Option (RtreeNode ℤ)) :=
  match pRtree.rowid iRowid with
  | none => .ok none
  | some iNode => (nodeAcquire pRtree iNode none).map some

/-- `rtreeFilter`. -/
def xFilter (pRtree : Rtree ℤ) (idxNum : ℕ) (idxStr : List (Op × ℕ)) (argv : List Value) :
    Except Rc (RtreeCursor ℤ) :=
  if idxNum = 1 then
    let iRowid := sqlite3VdbeIntValue R (argv.headD .null)
    match findLeafNode pRtree iRowid with
    | .error rc => .error rc
    | .ok none => .ok ⟨1, [], none⟩
    | .ok (some pLeaf) =>
      match nodeRowidIndex pLeaf iRowid with
      | .error rc => .error rc
      | .ok iCell => .ok ⟨1, [], some (pLeaf, iCell)⟩
  else
    rtreeFilter pRtree (List.zipWith (fun p v => ⟨p.2, p.1, realValue R v⟩) idxStr argv)

/-- `DCOORD` of an integer coordinate, in units of 2^-1074. -/
def dcoord (c : Int32) : ℤ := unitsOfInt c.toInt64

/-- A cell with its coordinates as reals. -/
def RtreeCell.dcoord (cell : RtreeCell Int32) : RtreeCell ℤ :=
  ⟨cell.iRowid, fun i => RTree.dcoord (cell.aCoord i)⟩

/-- An `rtree_i32` with its coordinates as reals. -/
def Rtree.dcoord (pRtree : Rtree Int32) : Rtree ℤ where
  nDim := pRtree.nDim
  nMaxCell := pRtree.nMaxCell
  node iNode := (pRtree.node iNode).map fun b => ⟨b.iDepth, b.cells.map RtreeCell.dcoord⟩
  rowid := pRtree.rowid

/-- The table `%_rowid` names for each entry a leaf that has it. -/
structure Rtree.Indexed {α : Type*} (pRtree : Rtree α) : Prop where
  nodup : (pRtree.entries.map RtreeCell.iRowid).Nodup
  mapped : ∀ e ∈ pRtree.entries, ∃ iNode, pRtree.rowid e.iRowid = some iNode
  leaf : ∀ iRowid iNode, pRtree.rowid iRowid = some iNode → pRtree.Stored iNode ∧
    (∃ c ∈ pRtree.cells iNode, c.iRowid = iRowid) ∧ ∀ c ∈ pRtree.cells iNode, c ∈ pRtree.entries

/-! ### What SQL means -/

def rtreeColumn (cell : RtreeCell Int32) (i : ℤ) : Value :=
  if i = 0 then .int cell.iRowid else .int (cell.aCoord (i - 1).toNat).toInt64

/-- A comparison by its sign. -/
def ConstraintOp.ofSign (op : ConstraintOp) (res : ℤ) : Bool :=
  match op with
  | .eq => res = 0
  | .gt => 0 < res
  | .le => res ≤ 0
  | .lt => res < 0
  | .ge => 0 ≤ res

/-- Whether a comparison without an affinity is true. -/
def ConstraintOp.holds (op : ConstraintOp) (x v : Value) : Bool :=
  x ≠ .null ∧ v ≠ .null ∧ op.ofSign (sqlite3MemCompare x v none)

/-- Whether a row satisfies a term in SQL. -/
def Term.holds (t : Term) (cell : RtreeCell Int32) : Bool :=
  t.op.holds (rtreeColumn cell t.iColumn) t.value

/-- A scan has the rows that the terms it takes over are true of. -/
def Meant (pRtree : Rtree Int32) (terms : List Term) : Prop :=
  ∃ pCsr, xFilter R pRtree.dcoord (rtreeBestIndex terms).idxNum (rtreeBestIndex terms).idxStr
      (argvOf (rtreeBestIndex terms).aConstraintUsage terms) = .ok pCsr ∧
    ∀ cells, Visits pRtree.dcoord pCsr cells ↔
      cells = (pRtree.entries.filter fun e => (omitted terms).all fun t => t.holds e).map
        RtreeCell.dcoord

/-- Terms on the columns of the R-tree. -/
def Term.On (t : Term) (nDim : ℕ) : Prop := t.iColumn ≤ 2 * nDim

/-- A term with its value read as the module reads it. -/
def Term.numeric (t : Term) (cell : RtreeCell Int32) : Bool :=
  t.op.rtree.test (dcoord (cell.aCoord (t.iColumn - 1).toNat)) (realValue R t.value)

/-! ### The plan and the values -/

theorem find?_range' {β : Type*} {l : List (ℕ × β)} {s n : ℕ}
    (h : l.map Prod.fst = List.range' s l.length) (hn : l.length ≤ n) :
    (List.range' s n).filterMap (fun j => (l.find? fun u => u.1 = j).map Prod.snd) =
      l.map Prod.snd := by
  induction l generalizing s n with
  | nil =>
    rw [List.map_nil, List.filterMap_eq_nil_iff]
    exact fun _ _ => rfl
  | cons u l ih =>
    obtain ⟨m, rfl⟩ : ∃ m, n = m + 1 := ⟨n - 1, by rw [List.length_cons] at hn; omega⟩
    rw [List.length_cons] at hn
    rw [List.map_cons, List.length_cons, List.range'_succ] at h
    obtain ⟨rfl, hl⟩ := List.cons.inj h
    have htail : (List.range' (u.1 + 1) m).filterMap
        (fun j => ((u :: l).find? fun u => u.1 = j).map Prod.snd) =
        (List.range' (u.1 + 1) m).filterMap
          (fun j => (l.find? fun u => u.1 = j).map Prod.snd) := by
      refine List.filterMap_congr fun j hj => ?_
      have hlt := (List.mem_range'_1.mp hj).1
      rw [List.find?_cons_of_neg (by simpa using (by omega : ¬u.1 = j))]
    rw [List.range'_succ, List.filterMap_cons, List.find?_cons_of_pos (by simp), htail,
      ih hl (by omega)]
    rfl

/-- The terms that a list of usages uses, with their places in `argv`. -/
def chosen (usage : List Usage) (terms : List Term) : List (ℕ × Term) :=
  ((usage.zip terms).map fun u => (u.1.argvIndex, u.2)).filter fun u => u.1 ≠ 0

theorem find?_chosen {j : ℕ} (hj : j ≠ 0) (usage : List Usage) (terms : List Term) :
    ((usage.zip terms).find? fun u => u.1.argvIndex = j).map (fun u => u.2.value) =
      (((chosen usage terms).map fun u => (u.1, u.2.value)).find? fun u => u.1 = j).map
        Prod.snd := by
  rw [chosen, List.find?_map, List.find?_filter, List.find?_map, Option.map_map, Option.map_map]
  refine congrArg₂ Option.map rfl (congrArg (fun p => List.find? p (usage.zip terms)) ?_)
  funext u
  by_cases hu : u.1.argvIndex = j <;> simp [hu, hj]

/-- The values come in the order of the terms that are used. -/
theorem argvOf_eq {usage : List Usage} {terms : List Term}
    (h : (chosen usage terms).map Prod.fst = List.range' 1 (chosen usage terms).length) :
    argvOf usage terms = (chosen usage terms).map fun u => u.2.value := by
  have hlen : (chosen usage terms).length ≤ terms.length := by
    refine (List.length_filter_le _ _).trans ?_
    rw [List.length_map, List.length_zip]
    exact min_le_right _ _
  have hargv : argvOf usage terms = (List.range' 1 terms.length).filterMap fun j =>
      (((chosen usage terms).map fun u => (u.1, u.2.value)).find? fun u => u.1 = j).map
        Prod.snd := by
    refine List.filterMap_congr fun j hj => ?_
    have hpos := (List.mem_range'_1.mp hj).1
    exact find?_chosen (by omega) usage terms
  rw [hargv, find?_range' (by rw [List.map_map, List.length_map]; exact h)
    (by rw [List.length_map]; exact hlen), List.map_map]
  rfl

/-- What the loop has planned for the terms it is past. -/
structure Planned (usage : List Usage) (idxStr : List (Op × ℕ)) (terms : List Term) : Prop where
  length : usage.length = terms.length
  omitted : ∀ u ∈ usage, u.omitTerm = decide (u.argvIndex ≠ 0)
  index : (chosen usage terms).map Prod.fst = List.range' 1 (chosen usage terms).length
  pairs : (chosen usage terms).map (fun u => (u.2.op.rtree, (u.2.iColumn - 1).toNat)) = idxStr
  column : ∀ u ∈ chosen usage terms, 0 < u.2.iColumn

theorem chosen_append {usage usage' : List Usage} {terms terms' : List Term}
    (h : usage.length = terms.length) : chosen (usage ++ usage') (terms ++ terms') =
      chosen usage terms ++ chosen usage' terms' := by
  rw [chosen, List.zip_append h, List.map_append, List.filter_append]
  rfl

theorem chosen_unused {β : Type*} (xs : List β) (terms : List Term) :
    chosen (xs.map fun _ => unused) terms = [] := by
  refine List.filter_eq_nil_iff.mpr fun u hu => ?_
  obtain ⟨v, hv, rfl⟩ := List.mem_map.mp hu
  obtain ⟨_, -, hunused⟩ := List.mem_map.mp (List.of_mem_zip (a := v.1) (b := v.2) hv).1
  simp [← hunused, unused]

/-- Terms that are not used. -/
theorem Planned.skip {usage : List Usage} {idxStr : List (Op × ℕ)} {terms : List Term}
    (h : Planned usage idxStr terms) (ps : List Term) :
    Planned (usage ++ ps.map fun _ => unused) idxStr (terms ++ ps) := by
  have hchosen : chosen (usage ++ ps.map fun _ => unused) (terms ++ ps) = chosen usage terms := by
    rw [chosen_append h.length, chosen_unused, List.append_nil]
  refine ⟨by rw [List.length_append, List.length_append, List.length_map, h.length], ?_,
    hchosen ▸ h.index, hchosen ▸ h.pairs, hchosen ▸ h.column⟩
  intro u hu
  obtain hu | hu := List.mem_append.mp hu
  · exact h.omitted u hu
  · obtain ⟨_, -, rfl⟩ := List.mem_map.mp hu
    rfl

/-- A term that is used. -/
theorem Planned.use {usage : List Usage} {idxStr : List (Op × ℕ)} {terms : List Term}
    (h : Planned usage idxStr terms) {p : Term} (hp : 0 < p.iColumn) :
    Planned (usage ++ [⟨idxStr.length + 1, true⟩])
      (idxStr ++ [(p.op.rtree, (p.iColumn - 1).toNat)]) (terms ++ [p]) := by
  have hchosen : chosen (usage ++ [⟨idxStr.length + 1, true⟩]) (terms ++ [p]) =
      chosen usage terms ++ [(idxStr.length + 1, p)] := by
    rw [chosen_append h.length]
    rfl
  have hlen : (chosen usage terms).length = idxStr.length := by rw [← h.pairs, List.length_map]
  refine ⟨by rw [List.length_append, List.length_append, h.length]; rfl, ?_, ?_, ?_, ?_⟩
  · intro u hu
    obtain hu | hu := List.mem_append.mp hu
    · exact h.omitted u hu
    · obtain rfl := List.mem_singleton.mp hu
      exact (decide_eq_true (Nat.succ_ne_zero _)).symm
  · rw [hchosen, List.map_append, h.index, List.length_append, hlen, List.length_singleton,
      List.range'_concat, Nat.one_mul, Nat.add_comm]
    rfl
  · rw [hchosen, List.map_append, h.pairs]
    rfl
  · rw [hchosen]
    intro u hu
    obtain hu | hu := List.mem_append.mp hu
    · exact h.column u hu
    · obtain rfl := List.mem_singleton.mp hu
      exact hp

/-- The terms that are used are the ones that the core does not check. -/
theorem Planned.map_filter {usage : List Usage} {terms : List Term}
    (h : ∀ u ∈ usage, u.omitTerm = decide (u.argvIndex ≠ 0)) :
    ((usage.zip terms).filter fun u => u.1.omitTerm).map Prod.snd =
      (chosen usage terms).map Prod.snd := by
  rw [chosen, List.filter_map, List.map_map]
  refine congrArg₂ List.map rfl (List.filter_congr fun u hu => ?_)
  exact h u.1 (List.of_mem_zip (a := u.1) (b := u.2) hu).1

/-- The one term of a lookup by rowid. -/
structure Lookup (info : IndexInfo) (terms : List Term) : Prop where
  idxNum : info.idxNum = 1
  omitted : ∀ u ∈ info.aConstraintUsage, u.omitTerm = decide (u.argvIndex ≠ 0)
  chosen : ∃ p, chosen info.aConstraintUsage terms = [(1, p)] ∧ p.iColumn = 0 ∧ p.op = .eq

theorem bestIndexLoop_spec {usage : List Usage} {idxStr : List (Op × ℕ)} {terms : List Term}
    (h : Planned usage idxStr terms) (ps : List Term) :
    Lookup (bestIndexLoop usage idxStr ps) (terms ++ ps) ∨
      (bestIndexLoop usage idxStr ps).idxNum = 2 ∧
        Planned (bestIndexLoop usage idxStr ps).aConstraintUsage
          (bestIndexLoop usage idxStr ps).idxStr (terms ++ ps) := by
  induction ps generalizing usage idxStr terms with
  | nil =>
    rw [List.append_nil]
    exact .inr ⟨rfl, h⟩
  | cons p ps ih =>
    rw [bestIndexLoop]
    split
    · exact .inr ⟨rfl, h.skip (p :: ps)⟩
    · split
      · rename_i hrowid
        refine .inl ⟨rfl, ?_, p, ?_, hrowid.2⟩
        · intro u hu
          obtain hu | hu := List.mem_append.mp hu
          · obtain ⟨_, -, rfl⟩ := List.mem_map.mp hu
            rfl
          · obtain rfl | hu := List.mem_cons.mp hu
            · rfl
            · obtain ⟨_, -, rfl⟩ := List.mem_map.mp hu
              rfl
        · have hrest : chosen (⟨1, true⟩ :: ps.map fun _ => unused) (p :: ps) =
              (1, p) :: chosen (ps.map fun _ => unused) ps := rfl
          rw [chosen_append (by rw [List.length_map, h.length]), chosen_unused, hrest,
            chosen_unused]
          rfl
      · rw [List.append_cons terms p ps]
        split
        · rename_i hcolumn
          exact ih (h.use hcolumn.2)
        · exact ih (h.skip [p])

theorem planned_nil : Planned [] [] [] :=
  ⟨rfl, fun _ hu => absurd hu List.not_mem_nil, rfl, rfl, fun _ hu => absurd hu List.not_mem_nil⟩

/-- What `rtreeBestIndex` does with the terms that the core does not check. -/
theorem rtreeBestIndex_spec (terms : List Term) :
    ((rtreeBestIndex terms).idxNum = 1 ∧ ∃ p, omitted terms = [p] ∧ p.iColumn = 0 ∧ p.op = .eq ∧
        argvOf (rtreeBestIndex terms).aConstraintUsage terms = [p.value]) ∨
      (rtreeBestIndex terms).idxNum = 2 ∧ (∀ t ∈ omitted terms, 0 < t.iColumn) ∧
        (rtreeBestIndex terms).idxStr =
          (omitted terms).map (fun t => (t.op.rtree, (t.iColumn - 1).toNat)) ∧
        argvOf (rtreeBestIndex terms).aConstraintUsage terms = (omitted terms).map Term.value := by
  obtain hlookup | ⟨hnum, hplanned⟩ := bestIndexLoop_spec planned_nil terms
  · obtain ⟨p, hchosen, hcolumn, hop⟩ := hlookup.chosen
    rw [List.nil_append] at hchosen
    refine .inl ⟨hlookup.idxNum, p, ?_, hcolumn, hop, ?_⟩
    · rw [omitted, rtreeBestIndex, Planned.map_filter hlookup.omitted, hchosen]
      rfl
    · rw [rtreeBestIndex, argvOf_eq (by rw [hchosen]; rfl), hchosen]
      rfl
  · rw [List.nil_append] at hplanned
    have homitted : omitted terms =
        (chosen (rtreeBestIndex terms).aConstraintUsage terms).map Prod.snd :=
      Planned.map_filter hplanned.omitted
    refine .inr ⟨hnum, ?_, ?_, ?_⟩
    · rw [homitted]
      intro t ht
      obtain ⟨u, hu, rfl⟩ := List.mem_map.mp ht
      exact hplanned.column u hu
    · rw [homitted, List.map_map]
      exact hplanned.pairs.symm
    · rw [homitted, List.map_map]
      exact argvOf_eq hplanned.index

/-! ### The entries as reals -/

theorem Rtree.cells_dcoord (pRtree : Rtree Int32) (iNode : Int64) :
    pRtree.dcoord.cells iNode = (pRtree.cells iNode).map RtreeCell.dcoord := by
  rw [Rtree.cells, Rtree.cells, Rtree.dcoord]
  dsimp only
  cases pRtree.node iNode <;> rfl

theorem Rtree.iDepth_dcoord (pRtree : Rtree Int32) : pRtree.dcoord.iDepth = pRtree.iDepth := by
  rw [Rtree.iDepth, Rtree.iDepth, Rtree.dcoord]
  dsimp only
  cases pRtree.node 1 <;> rfl

theorem entriesBelow_dcoord (pRtree : Rtree Int32) (iHeight : ℕ) (cell : RtreeCell Int32) :
    entriesBelow pRtree.dcoord iHeight cell.dcoord =
      (entriesBelow pRtree iHeight cell).map RtreeCell.dcoord := by
  induction iHeight generalizing cell with
  | zero => rfl
  | succ iHeight ih =>
    rw [entriesBelow, entriesBelow, List.map_flatMap, Rtree.cells_dcoord, List.flatMap_map]
    exact List.flatMap_congr fun c _ => ih c

theorem Rtree.entries_dcoord (pRtree : Rtree Int32) :
    pRtree.dcoord.entries = pRtree.entries.map RtreeCell.dcoord := by
  rw [Rtree.entries, Rtree.entries, List.map_flatMap, Rtree.cells_dcoord, List.flatMap_map,
    Rtree.iDepth_dcoord]
  exact List.flatMap_congr fun c _ => entriesBelow_dcoord pRtree _ c

/-- `filter` by a key that tells the elements apart. -/
theorem filter_eq_singleton {β γ : Type*} [DecidableEq γ] {f : β → γ} {l : List β} {e : β}
    (h : (l.map f).Nodup) (he : e ∈ l) : l.filter (fun x => f x = f e) = [e] := by
  induction l with
  | nil => exact absurd he List.not_mem_nil
  | cons x l ih =>
    obtain ⟨hx, hl⟩ := List.nodup_cons.mp (List.map_cons ▸ h)
    obtain rfl | he := List.mem_cons.mp he
    · rw [List.filter_cons_of_pos (by simp), List.filter_eq_nil_iff.mpr fun y hy hxy =>
        hx (List.mem_map.mpr ⟨y, hy, of_decide_eq_true hxy⟩)]
    · have hne : ¬f x = f e := fun heq => hx (List.mem_map.mpr ⟨e, he, heq.symm⟩)
      rw [List.filter_cons_of_neg (by simpa using hne), ih hl he]

/-- The rows of a lookup by rowid. -/
theorem visits_lookup {pRtree : Rtree ℤ} (hvalid : pRtree.Valid) (hindexed : pRtree.Indexed)
    (idxStr : List (Op × ℕ)) (v : Value) :
    ∃ pCsr, xFilter R pRtree 1 idxStr [v] = .ok pCsr ∧ Visits pRtree pCsr
      (pRtree.entries.filter fun e => e.iRowid = sqlite3VdbeIntValue R v) := by
  cases hrow : pRtree.rowid (sqlite3VdbeIntValue R v) with
  | none =>
    refine ⟨⟨1, [], none⟩, ?_, ?_⟩
    · have hfind : findLeafNode pRtree (sqlite3VdbeIntValue R v) = .ok none := by
        rw [findLeafNode, hrow]
      rw [xFilter, if_pos rfl, List.headD_cons]
      dsimp only
      rw [hfind]
    · rw [List.filter_eq_nil_iff.mpr]
      · exact .eof rfl
      · intro e he heq
        obtain ⟨iNode, hnode⟩ := hindexed.mapped e he
        rw [of_decide_eq_true heq, hrow] at hnode
        exact absurd hnode.symm (Option.some_ne_none _)
  | some iNode =>
    obtain ⟨hstored, ⟨c, hc, hrowid⟩, hleaf⟩ := hindexed.leaf _ _ hrow
    obtain ⟨i, hi, rfl⟩ := List.mem_iff_getElem.mp hc
    have hget : nodeGetCell (.top iNode (pRtree.cells iNode)) i = (pRtree.cells iNode)[i] :=
      List.getD_eq_getElem _ _ hi
    have hindex : nodeRowidIndex (.top iNode (pRtree.cells iNode))
        (nodeGetCell (.top iNode (pRtree.cells iNode)) i).iRowid = .ok i :=
      nodeRowidIndex_eq hstored.nodup hi
    rw [hget, hrowid] at hindex
    refine ⟨⟨1, [], some (.top iNode (pRtree.cells iNode), i)⟩, ?_, ?_⟩
    · have hfind : findLeafNode pRtree (sqlite3VdbeIntValue R v) =
          .ok (some (.top iNode (pRtree.cells iNode))) := by
        rw [findLeafNode, hrow]
        dsimp only
        rw [hvalid.nodeAcquire hstored]
        rfl
      rw [xFilter, if_pos rfl, List.headD_cons]
      dsimp only
      rw [hfind]
      dsimp only
      rw [hindex]
    · rw [← hrowid, filter_eq_singleton hindexed.nodup (hleaf _ hc), ← hget]
      exact .next rfl rfl (.eof rfl)

/-- Whether the module takes a row for one that satisfies a term. -/
def Term.taken (t : Term) (cell : RtreeCell Int32) : Bool :=
  if t.iColumn = 0 then cell.iRowid = sqlite3VdbeIntValue R t.value else t.numeric R cell

theorem mem_of_omitted {terms : List Term} {t : Term} (h : t ∈ omitted terms) : t ∈ terms := by
  obtain ⟨u, hu, rfl⟩ := List.mem_map.mp h
  exact (List.of_mem_zip (a := u.1) (b := u.2) (List.mem_filter.mp hu).1).2

/-- The rows of a scan. -/
theorem visits_terms {pRtree : Rtree Int32} (hvalid : pRtree.dcoord.Valid)
    (hindexed : pRtree.dcoord.Indexed) {terms : List Term}
    (hon : ∀ t ∈ terms, t.On pRtree.nDim) :
    ∃ pCsr, xFilter R pRtree.dcoord (rtreeBestIndex terms).idxNum (rtreeBestIndex terms).idxStr
        (argvOf (rtreeBestIndex terms).aConstraintUsage terms) = .ok pCsr ∧
      ∀ cells, Visits pRtree.dcoord pCsr cells ↔
        cells = (pRtree.entries.filter fun e => (omitted terms).all fun t => t.taken R e).map
          RtreeCell.dcoord := by
  have hcongr : ∀ p q : RtreeCell Int32 → Bool, (∀ e, p e = q e) →
      pRtree.entries.filter p = pRtree.entries.filter q :=
    fun p q h => List.filter_congr fun e _ => h e
  obtain ⟨hnum, t, homitted, hcolumn, -, hargv⟩ | ⟨hnum, hcolumn, hidx, hargv⟩ :=
    rtreeBestIndex_spec terms
  · obtain ⟨pCsr, hfilter, hvisits⟩ :=
      visits_lookup R hvalid hindexed (rtreeBestIndex terms).idxStr t.value
    refine ⟨pCsr, by rw [hnum, hargv, hfilter], fun cells => ?_⟩
    have hrows : (pRtree.dcoord.entries.filter
        fun e => e.iRowid = sqlite3VdbeIntValue R t.value) =
        (pRtree.entries.filter fun e => (omitted terms).all fun t => t.taken R e).map
          RtreeCell.dcoord := by
      rw [Rtree.entries_dcoord, List.filter_map, homitted]
      refine congrArg (List.map RtreeCell.dcoord) (hcongr _ _ fun e => ?_)
      rw [List.all_cons, List.all_nil, Bool.and_true, Term.taken, if_pos hcolumn]
      rfl
    rw [hrows] at hvisits
    exact ⟨fun h => h.unique hvisits, fun h => h ▸ hvisits⟩
  · have hcons : List.zipWith (fun p v => (⟨p.2, p.1, realValue R v⟩ : RtreeConstraint ℤ))
        (rtreeBestIndex terms).idxStr (argvOf (rtreeBestIndex terms).aConstraintUsage terms) =
        (omitted terms).map
          fun t => ⟨(t.iColumn - 1).toNat, t.op.rtree, realValue R t.value⟩ := by
      rw [hidx, hargv, List.zipWith_map, List.zipWith_self]
    have hdim : ∀ p ∈ (omitted terms).map fun t =>
        (⟨(t.iColumn - 1).toNat, t.op.rtree, realValue R t.value⟩ : RtreeConstraint ℤ),
        p.On pRtree.dcoord := by
      intro p hp
      obtain ⟨t, ht, rfl⟩ := List.mem_map.mp hp
      have hpos := hcolumn t ht
      have hle := hon t (mem_of_omitted ht)
      rw [Term.On] at hle
      change (t.iColumn - 1).toNat < 2 * pRtree.nDim
      omega
    obtain ⟨pCsr, hfilter, hvisits⟩ := visits_rtreeFilter hvalid hdim
    refine ⟨pCsr, ?_, fun cells => (hvisits cells).trans (Eq.congr_right ?_)⟩
    · rw [xFilter, hnum, if_neg (by decide), hcons, hfilter]
    · rw [Rtree.entries_dcoord, List.filter_map]
      refine congrArg (List.map RtreeCell.dcoord) (List.filter_congr fun e _ => ?_)
      rw [Function.comp_apply, List.all_map, Bool.eq_iff_iff, List.all_eq_true, List.all_eq_true]
      refine forall₂_congr fun t ht => ?_
      rw [Term.taken, if_neg (hcolumn t ht).ne']
      rfl

/-! ### Comparisons with a number -/

theorem ConstraintOp.ofSign_threeWay (op : ConstraintOp) (a b : ℤ) :
    op.ofSign (threeWay a b) = op.rtree.test a b := by
  cases op with
  | eq =>
    refine decide_eq_decide.mpr ⟨fun h => ?_, fun h => ?_⟩
    · exact le_antisymm (threeWay_nonpos.mp h.le) (threeWay_nonneg.mp h.ge)
    · exact le_antisymm (threeWay_nonpos.mpr h.le) (threeWay_nonneg.mpr h.ge)
  | gt => exact decide_eq_decide.mpr threeWay_pos
  | le => exact decide_eq_decide.mpr threeWay_nonpos
  | lt => exact decide_eq_decide.mpr threeWay_neg
  | ge => exact decide_eq_decide.mpr threeWay_nonneg

theorem Op.test_congr (op : Op) {a b a' b' : ℤ} (h : a ≤ b ↔ a' ≤ b') (h' : b ≤ a ↔ b' ≤ a') :
    op.test a b = op.test a' b' := by
  cases op with
  | eq => exact decide_eq_decide.mpr (by rw [le_antisymm_iff, le_antisymm_iff, h, h'])
  | le => exact decide_eq_decide.mpr h
  | lt => exact decide_eq_decide.mpr (by rw [← not_le, ← not_le, h'])
  | ge => exact decide_eq_decide.mpr h'
  | gt => exact decide_eq_decide.mpr (by rw [← not_le, ← not_le, h])

/-- An integer of 32 bits is a real, and so are the integers next to it. -/
theorem intToBits_small {i : ℤ} (h : i.natAbs < 2 ^ 53) : Rounding.intToBits 53 i = i := by
  rw [Rounding.intToBits]
  split
  · rw [Rounding.toBits_of_lt (by omega)]
    omega
  · rw [Rounding.toBits_of_lt (by omega)]
    omega

/-- Rounding does not change how an integer compares with a small one. -/
theorem le_intToBits_iff {i : ℤ} (hi : i.natAbs < 2 ^ 52) (v : ℤ) :
    (i ≤ Rounding.intToBits 53 v ↔ i ≤ v) ∧ (Rounding.intToBits 53 v ≤ i ↔ v ≤ i) := by
  have hself := intToBits_small (i := i) (by omega)
  have hprev := intToBits_small (i := i - 1) (by omega)
  have hnext := intToBits_small (i := i + 1) (by omega)
  have hmono : ∀ {i j : ℤ}, i ≤ j → Rounding.intToBits 53 i ≤ Rounding.intToBits 53 j :=
    fun h => Rounding.intToBits_mono (by decide) h
  refine ⟨⟨fun h => ?_, fun h => ?_⟩, ⟨fun h => ?_, fun h => ?_⟩⟩
  · by_contra hlt
    have hle := hmono (by omega : v ≤ i - 1)
    omega
  · have hle := hmono h
    omega
  · by_contra hlt
    have hle := hmono (by omega : i + 1 ≤ v)
    omega
  · have hle := hmono h
    omega

/-- The conversion of an integer does not change how it compares with a coordinate. -/
theorem dcoord_le_iff (c : Int32) (v : Int64) :
    (dcoord c ≤ unitsOfInt v ↔ c.toInt64.toInt ≤ v.toInt) ∧
      (unitsOfInt v ≤ dcoord c ↔ v.toInt ≤ c.toInt64.toInt) := by
  have hlow := c.le_toInt
  have hhigh := c.toInt_lt
  have hself := intToBits_small (i := c.toInt) (by omega)
  have hiff := le_intToBits_iff (i := c.toInt) (by omega) v.toInt
  have hpos : (0 : ℤ) < 2 ^ 1074 := by positivity
  rw [dcoord, unitsOfInt, unitsOfInt, mul_le_mul_iff_of_pos_right hpos,
    mul_le_mul_iff_of_pos_right hpos, Int32.toInt_toInt64, hself]
  exact hiff

theorem coord_int (op : ConstraintOp) (c : Int32) (v : Int64) :
    op.ofSign (sqlite3MemCompare (.int c.toInt64) (.int v) none) =
      op.rtree.test (dcoord c) (unitsOfInt v) := by
  rw [sqlite3MemCompare, op.ofSign_threeWay]
  exact op.rtree.test_congr (dcoord_le_iff c v).1.symm (dcoord_le_iff c v).2.symm

/-! ### When the module means what SQL means -/

/-- The value is a number. -/
def Term.number (t : Term) : Bool :=
  match t.value with
  | .int _ | .real _ => true
  | _ => false

/-- SQL has the term true of every number: the number is below a text or a blob. -/
def Term.always (t : Term) : Bool :=
  match t.value with
  | .text _ | .blob _ => t.op = .lt ∨ t.op = .le
  | _ => false

/-- The condition on the value of a lookup by rowid. -/
def LookupOk (pRtree : Rtree Int32) (v : Value) : Prop :=
  match v with
  | .int _ => True
  -- the integer that the real is cast to, and only that one, is converted to the real
  | .real r => ∀ e ∈ pRtree.entries, e.iRowid = doubleToInt64 r ↔ unitsOfInt e.iRowid = r.units
  -- there is no row with the integer that is read
  | v => ∀ e ∈ pRtree.entries, e.iRowid ≠ sqlite3VdbeIntValue R v

/-- The condition on the terms of coordinates, for a row that satisfies those with numbers. If SQL
has all the other ones true, they are true of the values read as reals. Otherwise one of them is
false of the value read as a real. -/
def CoordOk (terms : List Term) (e : RtreeCell Int32) : Prop :=
  if ∀ t ∈ terms, t.number ∨ t.always then ∀ t ∈ terms, t.always → t.numeric R e
  else ∃ t ∈ terms, t.number = false ∧ t.numeric R e = false

/-- When the terms that are taken over mean what they mean in SQL. -/
def OmitOk (pRtree : Rtree Int32) (terms : List Term) : Prop :=
  if (rtreeBestIndex terms).idxNum = 1 then ∀ t ∈ omitted terms, LookupOk R pRtree t.value
  else ∀ e ∈ pRtree.entries, (∀ t ∈ omitted terms, t.number → t.numeric R e) →
    CoordOk R (omitted terms) e

variable {R}

theorem dcoord_injective : Function.Injective RtreeCell.dcoord := by
  rintro ⟨r, c⟩ ⟨r', c'⟩ h
  obtain ⟨hr, hc⟩ := RtreeCell.mk.inj h
  have hcoord : c = c' := by
    funext i
    have hi := congrFun hc i
    have hle := (dcoord_le_iff (c i) (c' i).toInt64).1.mp hi.le
    have hge := (dcoord_le_iff (c i) (c' i).toInt64).2.mp hi.ge
    rw [Int32.toInt_toInt64, Int32.toInt_toInt64] at hle hge
    exact Int32.toInt_inj.mp (le_antisymm hle hge)
  exact congrArg₂ RtreeCell.mk hr hcoord

/-- The rows are those that SQL means if and only if module and SQL agree on each entry. -/
theorem meant_iff_agree {pRtree : Rtree Int32} (hvalid : pRtree.dcoord.Valid)
    (hindexed : pRtree.dcoord.Indexed) {terms : List Term}
    (hon : ∀ t ∈ terms, t.On pRtree.nDim) : Meant R pRtree terms ↔
      ∀ e ∈ pRtree.entries, ((omitted terms).all fun t => t.taken R e) =
        (omitted terms).all fun t => t.holds e := by
  obtain ⟨pCsr, hfilter, hvisits⟩ := visits_terms R hvalid hindexed hon
  constructor
  · rintro ⟨pCsr', hfilter', hvisits'⟩
    obtain rfl := Except.ok.inj (hfilter.symm.trans hfilter')
    have heq := List.map_injective_iff.mpr dcoord_injective
      ((hvisits _).mp ((hvisits' _).mpr rfl))
    intro e he
    have hmem : e ∈ pRtree.entries.filter (fun e => (omitted terms).all fun t => t.holds e) ↔
        e ∈ pRtree.entries.filter (fun e => (omitted terms).all fun t => t.taken R e) := by
      rw [heq]
    rw [List.mem_filter, List.mem_filter] at hmem
    rw [Bool.eq_iff_iff]
    exact ⟨fun h => (hmem.mpr ⟨he, h⟩).2, fun h => (hmem.mp ⟨he, h⟩).2⟩
  · intro h
    refine ⟨pCsr, hfilter, fun cells => (hvisits cells).trans (Eq.congr_right ?_)⟩
    exact congrArg (List.map RtreeCell.dcoord) (List.filter_congr h)

theorem Term.holds_eq {t : Term} (e : RtreeCell Int32) (h : t.value ≠ .null) :
    t.holds e = t.op.ofSign (sqlite3MemCompare (rtreeColumn e t.iColumn) t.value none) := by
  have hcolumn : rtreeColumn e t.iColumn ≠ .null := by
    rw [rtreeColumn]
    split <;> exact Value.noConfusion
  rw [Term.holds, ConstraintOp.holds]
  simp only [ne_eq, hcolumn, h, not_false_eq_true, true_and, Bool.decide_eq_true]

theorem Term.holds_null {t : Term} (h : t.value = .null) (e : RtreeCell Int32) :
    t.holds e = false :=
  decide_eq_false fun hnull => hnull.2.1 h

theorem holds_lookup {t : Term} (hcolumn : t.iColumn = 0) (hop : t.op = .eq)
    (pRtree : Rtree Int32) :
    (∀ e ∈ pRtree.entries, t.taken R e = t.holds e) ↔ LookupOk R pRtree t.value := by
  obtain ⟨iColumn, op, usable, v⟩ := t
  subst hcolumn hop
  have htaken : ∀ e : RtreeCell Int32, (⟨0, .eq, usable, v⟩ : Term).taken R e =
      decide (e.iRowid = sqlite3VdbeIntValue R v) := fun e => if_pos rfl
  have hfalse : (∀ e : RtreeCell Int32, (⟨0, .eq, usable, v⟩ : Term).holds e = false) →
      ((∀ e ∈ pRtree.entries, (⟨0, .eq, usable, v⟩ : Term).taken R e =
          (⟨0, .eq, usable, v⟩ : Term).holds e) ↔
        ∀ e ∈ pRtree.entries, e.iRowid ≠ sqlite3VdbeIntValue R v) := by
    refine fun hholds => forall₂_congr fun e _ => ?_
    rw [htaken, hholds, decide_eq_false_iff_not]
  cases v with
  | null => exact hfalse fun e => Term.holds_null rfl e
  | int i =>
    refine ⟨fun _ => trivial, fun _ e _ => ?_⟩
    rw [htaken, Term.holds_eq e Value.noConfusion]
    refine decide_eq_decide.mpr ⟨?_, fun h => ?_⟩
    · rintro rfl
      have hle := threeWay_nonpos.mpr (le_refl e.iRowid.toInt)
      have hge := threeWay_nonneg.mpr (le_refl e.iRowid.toInt)
      exact le_antisymm hle hge
    · have hle := threeWay_nonpos.mp h.le
      have hge := threeWay_nonneg.mp h.ge
      exact Int64.toInt_inj.mp (le_antisymm hle hge)
  | real r =>
    refine forall₂_congr fun e _ => ?_
    rw [htaken, Term.holds_eq e Value.noConfusion]
    change _ = ConstraintOp.eq.ofSign (threeWay (unitsOfInt e.iRowid) r.units) ↔ _
    rw [ConstraintOp.ofSign_threeWay]
    exact decide_eq_decide
  | text z => exact hfalse fun e => Term.holds_eq e Value.noConfusion
  | blob z => exact hfalse fun e => Term.holds_eq e Value.noConfusion

theorem holds_number {t : Term} (hcolumn : 0 < t.iColumn) (h : t.number = true)
    (e : RtreeCell Int32) : t.holds e = t.numeric R e := by
  obtain ⟨iColumn, op, usable, v⟩ := t
  have hvalue : rtreeColumn e iColumn = .int (e.aCoord (iColumn - 1).toNat).toInt64 :=
    if_neg hcolumn.ne'
  cases v with
  | int i =>
    rw [Term.holds_eq e Value.noConfusion, hvalue]
    exact coord_int op _ i
  | real r =>
    rw [Term.holds_eq e Value.noConfusion, hvalue]
    exact op.ofSign_threeWay _ _
  | null => exact absurd h Bool.false_ne_true
  | text z => exact absurd h Bool.false_ne_true
  | blob z => exact absurd h Bool.false_ne_true

theorem ConstraintOp.ofSign_neg_one (op : ConstraintOp) :
    op.ofSign (-1) = decide (op = .lt ∨ op = .le) := by
  cases op <;> decide

theorem holds_other {t : Term} (hcolumn : 0 < t.iColumn) (h : t.number = false)
    (e : RtreeCell Int32) : t.holds e = t.always := by
  obtain ⟨iColumn, op, usable, v⟩ := t
  have hvalue : rtreeColumn e iColumn = .int (e.aCoord (iColumn - 1).toNat).toInt64 :=
    if_neg hcolumn.ne'
  cases v with
  | int i => exact absurd h.symm Bool.false_ne_true
  | real r => exact absurd h.symm Bool.false_ne_true
  | null => exact Term.holds_null rfl e
  | text z =>
    rw [Term.holds_eq e Value.noConfusion, hvalue]
    exact op.ofSign_neg_one
  | blob z =>
    rw [Term.holds_eq e Value.noConfusion, hvalue]
    exact op.ofSign_neg_one

/-- On one entry. -/
theorem agree_iff {terms : List Term} (hcolumn : ∀ t ∈ terms, 0 < t.iColumn)
    (e : RtreeCell Int32) :
    ((terms.all fun t => t.taken R e) = terms.all fun t => t.holds e) ↔
      ((∀ t ∈ terms, t.number → t.numeric R e) → CoordOk R terms e) := by
  have htaken : (terms.all fun t => t.taken R e) = true ↔ ∀ t ∈ terms, t.numeric R e = true := by
    rw [List.all_eq_true]
    exact forall₂_congr fun t ht => by rw [Term.taken, if_neg (hcolumn t ht).ne']
  have hholds : ∀ t ∈ terms, t.holds e = if t.number = true then t.numeric R e else t.always := by
    intro t ht
    split
    · rename_i hnumber
      exact holds_number (hcolumn t ht) hnumber e
    · rename_i hnumber
      exact holds_other (hcolumn t ht) (Bool.eq_false_iff.mpr hnumber) e
  rw [Bool.eq_iff_iff, htaken, List.all_eq_true]
  by_cases hnum : ∀ t ∈ terms, t.number → t.numeric R e
  · rw [imp_iff_right hnum, CoordOk]
    split
    · rename_i hall
      have hsql : ∀ t ∈ terms, t.holds e = true := by
        intro t ht
        rw [hholds t ht]
        split
        · rename_i hnumber
          exact hnum t ht hnumber
        · rename_i hnumber
          exact (hall t ht).resolve_left hnumber
      refine ⟨fun h t ht _ => h.mpr hsql t ht, fun h => ⟨fun _ => hsql, fun _ t ht => ?_⟩⟩
      exact (hall t ht).elim (hnum t ht) (h t ht)
    · rename_i hall
      have hsql : ¬∀ t ∈ terms, t.holds e = true := by
        refine fun hsql => hall fun t ht => ?_
        have hval := hsql t ht
        rw [hholds t ht] at hval
        split at hval
        · rename_i hnumber
          exact .inl hnumber
        · exact .inr hval
      rw [iff_false_right hsql]
      constructor
      · intro h
        obtain ⟨t, ht, hval⟩ : ∃ t ∈ terms, ¬t.numeric R e = true := by
          simpa only [not_forall, exists_prop] using h
        refine ⟨t, ht, ?_, Bool.eq_false_iff.mpr hval⟩
        exact Bool.eq_false_iff.mpr fun hnumber => hval (hnum t ht hnumber)
      · rintro ⟨t, ht, -, hval⟩ h
        exact Bool.false_ne_true (hval.symm.trans (h t ht))
  · refine ⟨fun _ h => absurd h hnum, fun _ => ⟨fun h => ?_, fun h => ?_⟩⟩
    · exact absurd (fun t ht _ => h t ht) hnum
    · refine absurd (fun t ht hnumber => ?_) hnum
      have hval := h t ht
      rwa [hholds t ht, if_pos hnumber] at hval

/-- A scan has the rows that its terms mean in SQL, if and only if a lookup by rowid is for an
integer, or has no row it should not have, and every term with a value that is no number says of
the rows what its value read as a real says. -/
theorem meant_iff {pRtree : Rtree Int32} (hvalid : pRtree.dcoord.Valid)
    (hindexed : pRtree.dcoord.Indexed) {terms : List Term}
    (hon : ∀ t ∈ terms, t.On pRtree.nDim) : Meant R pRtree terms ↔ OmitOk R pRtree terms := by
  rw [meant_iff_agree hvalid hindexed hon, OmitOk]
  obtain ⟨hnum, t, homitted, hcolumn, hop, -⟩ | ⟨hnum, hcolumn, -, -⟩ := rtreeBestIndex_spec terms
  · rw [if_pos hnum, homitted, List.forall_mem_singleton, ← holds_lookup hcolumn hop]
    refine forall₂_congr fun e _ => ?_
    rw [List.all_cons, List.all_nil, List.all_cons, List.all_nil, Bool.and_true, Bool.and_true]
  · rw [hnum, if_neg (by decide)]
    exact forall₂_congr fun e _ => agree_iff hcolumn e

/-- One row, with the rowid 1 and the coordinates 0. -/
def oneRow : Rtree Int32 where
  nDim := 1
  nMaxCell := 51
  node iNode := if iNode = 1 then some ⟨0, [⟨1, fun _ => 0⟩]⟩ else none
  rowid iRowid := if iRowid = 1 then some 1 else none

theorem oneRow_valid : oneRow.dcoord.Valid where
  depth := by decide
  root := ⟨⟨_, rfl, by decide⟩, by decide⟩
  subtree c hc := by
    obtain rfl := List.mem_singleton.mp hc
    exact fun _ _ => le_rfl

theorem oneRow_indexed : oneRow.dcoord.Indexed where
  nodup := by decide
  mapped e he := by
    obtain rfl := List.mem_singleton.mp he
    exact ⟨1, rfl⟩
  leaf iRowid iNode h := by
    have hrow : iRowid = 1 ∧ iNode = 1 := by
      change (if iRowid = 1 then some (1 : Int64) else none) = some iNode at h
      split at h
      · rename_i hrow
        exact ⟨hrow, (Option.some.inj h).symm⟩
      · exact absurd h.symm (Option.some_ne_none _)
    obtain ⟨rfl, rfl⟩ := hrow
    exact ⟨⟨⟨_, rfl, by decide⟩, by decide⟩, ⟨_, List.mem_singleton_self _, rfl⟩, fun c hc => hc⟩

/-- A reading that takes no text for a number. -/
def zeroReading : Reading := ⟨.utf8, fun _ => ⟨0, by decide⟩⟩

/-- Two leaves below the root, with the rows 10, 11 and 12. -/
def twoLeaves : Rtree Int32 where
  nDim := 1
  nMaxCell := 51
  node iNode :=
    if iNode = 1 then some ⟨1, [⟨2, fun i => if i = 0 then 0 else 1⟩, ⟨3, fun _ => 2⟩]⟩
    else if iNode = 2 then some ⟨0, [⟨10, fun _ => 0⟩, ⟨11, fun _ => 1⟩]⟩
    else if iNode = 3 then some ⟨0, [⟨12, fun _ => 2⟩]⟩
    else none
  rowid iRowid :=
    if iRowid = 10 ∨ iRowid = 11 then some 2 else if iRowid = 12 then some 3 else none

theorem twoLeaves_valid : twoLeaves.dcoord.Valid where
  depth := by decide
  root := ⟨⟨_, rfl, by decide⟩, by decide⟩
  subtree c hc := by
    rcases List.mem_pair.mp hc with rfl | rfl
    · refine ⟨⟨⟨_, rfl, by decide⟩, by decide⟩, fun c hc => ?_⟩
      rcases List.mem_pair.mp hc with rfl | rfl
      · refine ⟨fun i hi => ?_, fun i hi => le_rfl⟩
        obtain rfl := Nat.lt_one_iff.mp hi
        exact ⟨le_rfl, unitsOfInt_mono (by decide)⟩
      · refine ⟨fun i hi => ?_, fun i hi => le_rfl⟩
        obtain rfl := Nat.lt_one_iff.mp hi
        exact ⟨unitsOfInt_mono (by decide), le_rfl⟩
    · refine ⟨⟨⟨_, rfl, by decide⟩, by decide⟩, fun c hc => ?_⟩
      obtain rfl := List.mem_singleton.mp hc
      exact ⟨fun i hi => ⟨le_rfl, le_rfl⟩, fun i hi => le_rfl⟩

theorem twoLeaves_indexed : twoLeaves.dcoord.Indexed where
  nodup := by decide
  mapped e he := by
    have hmem : (twoLeaves.dcoord.entries.map RtreeCell.iRowid).all
        fun iRowid => (twoLeaves.rowid iRowid).isSome := by decide
    exact Option.isSome_iff_exists.mp (List.all_eq_true.mp hmem _ (List.mem_map_of_mem he))
  leaf iRowid iNode h := by
    have hrow : ((iRowid = 10 ∨ iRowid = 11) ∧ iNode = 2) ∨ (iRowid = 12 ∧ iNode = 3) := by
      change (if iRowid = 10 ∨ iRowid = 11 then some (2 : Int64)
        else if iRowid = 12 then some 3 else none) = some iNode at h
      split at h
      · rename_i hrow
        exact Or.inl ⟨hrow, (Option.some.inj h).symm⟩
      split at h
      · rename_i hrow
        exact Or.inr ⟨hrow, (Option.some.inj h).symm⟩
      · exact absurd h.symm (Option.some_ne_none _)
    obtain ⟨hrow, rfl⟩ | ⟨rfl, rfl⟩ := hrow
    · refine ⟨⟨⟨_, rfl, by decide⟩, by decide⟩, ?_, fun c hc => List.mem_flatMap.mpr
        ⟨_, List.mem_cons_self, List.mem_flatMap.mpr ⟨c, hc, List.mem_singleton_self c⟩⟩⟩
      rcases hrow with rfl | rfl
      · exact ⟨_, List.mem_cons_self, rfl⟩
      · exact ⟨_, List.mem_cons_of_mem _ List.mem_cons_self, rfl⟩
    · exact ⟨⟨⟨_, rfl, by decide⟩, by decide⟩, ⟨_, List.mem_singleton_self _, rfl⟩, fun c hc =>
        List.mem_flatMap.mpr ⟨_, List.mem_cons_of_mem _ List.mem_cons_self,
          List.mem_flatMap.mpr ⟨c, hc, List.mem_singleton_self c⟩⟩⟩

/-- The real 1.0. -/
def oneReal : Double := ⟨0x3FF0000000000000, by decide⟩

/-- The terms `x0 >= '1'`, `x1 < NULL` and `x0 <= 1.0`. -/
def mixedTerms : List Term :=
  [⟨1, .ge, true, .text [49]⟩, ⟨2, .lt, true, .null⟩, ⟨1, .le, true, .real oneReal⟩]

theorem meant_twoLeaves : Meant zeroReading twoLeaves mixedTerms ↔
    OmitOk zeroReading twoLeaves mixedTerms :=
  meant_iff twoLeaves_valid twoLeaves_indexed fun t ht => by
    have hall : ∀ t ∈ mixedTerms, t.iColumn ≤ 2 * (1 : ℕ) := by decide
    exact hall t ht

/-- The coordinate 0 is taken to be equal to NULL. -/
theorem not_forall_meant : ¬∀ (R : Reading) (pRtree : Rtree Int32) (terms : List Term),
    pRtree.dcoord.Valid → pRtree.dcoord.Indexed → (∀ t ∈ terms, t.On pRtree.nDim) →
      Meant R pRtree terms := by
  intro hall
  have hon : ∀ t ∈ [(⟨1, .eq, true, .null⟩ : Term)], t.On oneRow.nDim := by
    intro t ht
    obtain rfl := List.mem_singleton.mp ht
    exact (by decide : (1 : ℤ) ≤ 2 * (1 : ℕ))
  have hagree := (meant_iff_agree oneRow_valid oneRow_indexed hon).mp
    (hall zeroReading oneRow _ oneRow_valid oneRow_indexed hon) ⟨1, fun _ => 0⟩
    (List.mem_singleton_self _)
  revert hagree
  decide +kernel

end RTree

end SqliteVms

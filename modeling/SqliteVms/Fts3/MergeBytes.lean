import SqliteVms.Fts3.Codec

/-!
# The merges of position lists, on bytes

The merge functions of `fts3.c` read and write bytes. On the bytes of position lists they write the
bytes of the list that the merge of the columns and positions gives.

## Main results

* `poslistMergePtrs_encode` — the union of two lists
* `poslistPhraseMerge_encode` — the positions of one list after or before those of another
* `poslistNearMerge_encode` — the positions of one list near those of another
-/

namespace SqliteVms

namespace Fts3

open Query (Poslist)

variable {iPrev : ℕ} {p1 p2 out r1 r2 rest : Bytes} {i1 i2 : ℤ} {l1 l2 : List ℕ}

/-! ### Between columns -/

/-- The end of a column: nothing, or a byte 0 or 1. -/
def Stop (rest : Bytes) : Prop := deref rest &&& 0xFE = 0

theorem Stop.columnLength (h : Stop rest) : columnLength 0 rest = 0 := by
  cases rest with
  | nil => rfl
  | cons b bs =>
    rw [Fts3.columnLength, UInt8.zero_or]
    exact if_neg (not_not.mpr h)

/-- What follows a column. -/
theorem stop_encodeColumns {iCol : ℕ} {ps : List ℕ} {p : Poslist}
    (h : Poslist.Valid ((iCol, ps) :: p)) (bs : Bytes) : Stop (encodeColumns p ++ 0 :: bs) := by
  cases p with
  | nil => exact (by decide : (0 : UInt8) &&& 0xFE = 0)
  | cons c p =>
    obtain ⟨iCol', ps'⟩ := c
    have hlt := h.lt_head _ List.mem_cons_self
    rw [encodeColumns, if_pos (by dsimp only at hlt; omega)]
    exact (by decide : (1 : UInt8) &&& 0xFE = 0)

/-- The varint of a difference. -/
theorem putVarint_sub {x : ℕ} (hle : iPrev ≤ x) (hlt : x < 2 ^ 31 - 3) :
    putVarint ((x : ℤ) + 2 - iPrev) = varint (x + 2 - iPrev) := by
  rw [← putVarint_natCast (by omega)]
  congr 1
  omega

/-! ### The union -/

/-- A place in a column in `fts3PoslistMerge`: the positions that are left, the first one read. -/
def Reading1 (l : List ℕ) (i : ℤ) (p rest : Bytes) : Prop :=
  match l with
  | [] => i = positionListEnd ∧ p = rest
  | x :: xs => i = x + 2 ∧ p = encodePositions x xs ++ rest

theorem readNextPos_reading {x : ℕ} {xs : List ℕ} (h : Reading1 (x :: xs) i1 p1 rest)
    (hl : After x xs) (hrest : Stop rest) :
    Reading1 xs (readNextPos p1 i1).2 (readNextPos p1 i1).1 rest := by
  obtain ⟨rfl, rfl⟩ := h
  cases xs with
  | nil =>
    have hnext : ∀ i, readNextPos rest i = (rest, positionListEnd) :=
      fun i => if_neg (not_not.mpr hrest)
    rw [encodePositions, List.nil_append, hnext]
    exact ⟨rfl, rfl⟩
  | cons y ys =>
    obtain ⟨hle, hlt⟩ := hl.head
    have hvarint := deref_varint (by omega : 2 ≤ y + 2 - x) (encodePositions y ys ++ rest)
    have hdelta := getDelta_varint (by omega : y + 2 - x < 2 ^ 63) (x + 2)
      (encodePositions y ys ++ rest)
    rw [encodePositions, List.append_assoc]
    unfold readNextPos
    rw [if_pos hvarint, hdelta]
    refine ⟨?_, rfl⟩
    dsimp only
    omega

theorem Reading1.eq_end_iff (h : Reading1 l1 i1 p1 rest) (hl : ∀ x ∈ l1, x < 2 ^ 31 - 3) :
    i1 = positionListEnd ↔ l1 = [] := by
  cases l1 with
  | nil => exact ⟨fun _ => rfl, fun _ => h.1⟩
  | cons x xs =>
    have hlt := hl x List.mem_cons_self
    have hi := h.1
    rw [positionListEnd]
    refine ⟨fun heq => ?_, fun heq => absurd heq (List.cons_ne_nil _ _)⟩
    omega

theorem columnMerge_nil_left (l : List ℕ) : Query.columnMerge [] l = l := by
  rw [Query.columnMerge]

theorem columnMerge_nil_right (l : List ℕ) : Query.columnMerge l [] = l := by
  cases l <;> rw [Query.columnMerge]
  exact List.cons_ne_nil _ _

/-- A round of the inner loop of `fts3PoslistMerge`. -/
theorem poslistMergeColumn_succ (fuel : ℕ) (i1 i2 j : ℤ) (p1 p2 out : Bytes) :
    poslistMergeColumn (fuel + 1) i1 i2 j p1 p2 out =
      let i := if i1 < i2 then i1 else i2
      let q1 := if i1 ≤ i2 then readNextPos p1 i1 else (p1, i1)
      let q2 := if i2 ≤ i1 then readNextPos p2 i2 else (p2, i2)
      if q1.2 = positionListEnd ∧ q2.2 = positionListEnd then
        (q1.1, q2.1, out ++ putVarint (i - j))
      else
        poslistMergeColumn fuel q1.2 q2.2 (i - 2) q1.1 q2.1 (out ++ putVarint (i - j)) := rfl

/-- The inner loop of `fts3PoslistMerge`. -/
theorem poslistMergeColumn_eq {fuel : ℕ} (hfuel : l1.length + l2.length < fuel)
    (hne : l1 ≠ [] ∨ l2 ≠ []) (h1 : Reading1 l1 i1 p1 r1) (h2 : Reading1 l2 i2 p2 r2)
    (hl1 : After iPrev l1) (hl2 : After iPrev l2) (hr1 : Stop r1) (hr2 : Stop r2) :
    poslistMergeColumn fuel i1 i2 iPrev p1 p2 out =
      (r1, r2, out ++ encodePositions iPrev (Query.columnMerge l1 l2)) := by
  induction fuel generalizing l1 l2 i1 i2 iPrev p1 p2 out with
  | zero => omega
  | succ fuel ih =>
    -- what follows a position `x` that is written
    have hrest : ∀ (x : ℕ) (l1' l2' : List ℕ) (q1 q2 : Bytes × ℤ),
        l1'.length + l2'.length < fuel → Reading1 l1' q1.2 q1.1 r1 → Reading1 l2' q2.2 q2.1 r2 →
        After x l1' → After x l2' → iPrev ≤ x → x < 2 ^ 31 - 3 →
        (if q1.2 = positionListEnd ∧ q2.2 = positionListEnd then
          (q1.1, q2.1, out ++ putVarint ((x : ℤ) + 2 - iPrev))
        else poslistMergeColumn fuel q1.2 q2.2 ((x : ℤ) + 2 - 2) q1.1 q2.1
          (out ++ putVarint ((x : ℤ) + 2 - iPrev))) =
        (r1, r2, out ++ encodePositions iPrev (x :: Query.columnMerge l1' l2')) := by
      intro x l1' l2' q1 q2 hlen hq1 hq2 hx1 hx2 hle hlt
      rw [putVarint_sub hle hlt, add_sub_cancel_right, encodePositions, ← List.append_assoc]
      have hend1 := hq1.eq_end_iff fun y hy => (hx1.2 y hy).2
      have hend2 := hq2.eq_end_iff fun y hy => (hx2.2 y hy).2
      split
      · rename_i hend
        obtain rfl := hend1.mp hend.1
        obtain rfl := hend2.mp hend.2
        rw [hq1.2, hq2.2, Query.columnMerge, encodePositions, List.append_nil]
      · rename_i hend
        refine ih hlen ?_ hq1 hq2 hx1 hx2
        rwa [hend1, hend2, not_and_or] at hend
    rw [poslistMergeColumn_succ]
    dsimp only
    cases l1 with
    | nil =>
      cases l2 with
      | nil => exact absurd rfl (hne.resolve_left (not_not.mpr rfl))
      | cons x2 xs2 =>
        obtain ⟨hle2, hlt2⟩ := hl2.head
        obtain ⟨rfl, rfl⟩ := h1
        have hnext := readNextPos_reading h2 hl2.tail hr2
        obtain ⟨rfl, rfl⟩ := h2
        have hlt : ¬positionListEnd < (x2 : ℤ) + 2 := by rw [positionListEnd]; omega
        have hle : ¬positionListEnd ≤ (x2 : ℤ) + 2 := by rw [positionListEnd]; omega
        have hge : (x2 : ℤ) + 2 ≤ positionListEnd := by rw [positionListEnd]; omega
        rw [if_neg hlt, if_neg hle, if_pos hge, columnMerge_nil_left]
        have hres := hrest x2 [] xs2 (p1, positionListEnd) _ (by simpa using hfuel) ⟨rfl, rfl⟩
          hnext ⟨.nil, fun _ hy => absurd hy List.not_mem_nil⟩ hl2.tail hle2 hlt2
        rwa [columnMerge_nil_left] at hres
    | cons x1 xs1 =>
      obtain ⟨hle1, hlt1⟩ := hl1.head
      have hnext1 := readNextPos_reading h1 hl1.tail hr1
      cases l2 with
      | nil =>
        obtain ⟨rfl, rfl⟩ := h2
        obtain ⟨rfl, rfl⟩ := h1
        have hlt : (x1 : ℤ) + 2 < positionListEnd := by rw [positionListEnd]; omega
        rw [if_pos hlt, if_pos hlt.le, if_neg (not_le.mpr hlt), columnMerge_nil_right]
        have hres := hrest x1 xs1 [] _ (p2, positionListEnd) (by simpa using hfuel) hnext1
          ⟨rfl, rfl⟩ hl1.tail ⟨.nil, fun _ hy => absurd hy List.not_mem_nil⟩ hle1 hlt1
        rwa [columnMerge_nil_right] at hres
      | cons x2 xs2 =>
        obtain ⟨hle2, hlt2⟩ := hl2.head
        have hnext2 := readNextPos_reading h2 hl2.tail hr2
        have hself1 := h1
        have hself2 := h2
        obtain ⟨rfl, rfl⟩ := h1
        obtain ⟨rfl, rfl⟩ := h2
        rw [List.length_cons, List.length_cons] at hfuel
        rw [Query.columnMerge]
        rcases Nat.lt_trichotomy x1 x2 with hlt | rfl | hgt
        · have hlt' : (x1 : ℤ) + 2 < x2 + 2 := by omega
          rw [if_pos hlt', if_pos hlt'.le, if_neg (not_le.mpr hlt'), if_neg hlt.ne, if_pos hlt]
          refine hrest x1 xs1 (x2 :: xs2) _ _ (by rw [List.length_cons]; omega) hnext1 hself2
            hl1.tail ⟨hl2.1, fun y hy => ⟨?_, (hl2.2 y hy).2⟩⟩ hle1 hlt1
          obtain rfl | hy := List.mem_cons.mp hy
          · exact hlt.le
          · exact (hlt.trans ((List.pairwise_cons.mp hl2.1).1 y hy)).le
        · rw [if_neg (lt_irrefl _), if_pos le_rfl, if_pos le_rfl, if_pos rfl]
          exact hrest x1 xs1 xs2 _ _ (by omega) hnext1 hnext2 hl1.tail hl2.tail hle1 hlt1
        · have hlt' : (x2 : ℤ) + 2 < x1 + 2 := by omega
          rw [if_neg hlt'.le.not_gt, if_neg (not_le.mpr hlt'), if_pos hlt'.le, if_neg hgt.ne',
            if_neg hgt.le.not_gt]
          refine hrest x2 (x1 :: xs1) xs2 _ _ (by rw [List.length_cons]; omega) hself1 hnext2
            ⟨hl1.1, fun y hy => ⟨?_, (hl1.2 y hy).2⟩⟩ hl2.tail hle2 hlt2
          obtain rfl | hy := List.mem_cons.mp hy
          · exact hgt.le
          · exact (hgt.trans ((List.pairwise_cons.mp hl1.1).1 y hy)).le

/-! ### Columns -/

/-- The bytes before the positions of a column. -/
def header (iCol : ℕ) : Bytes := if iCol ≠ 0 then 1 :: varint iCol else []

theorem putColumn_natCast {iCol : ℕ} (h : iCol < 2 ^ 31 - 1) : putColumn iCol = header iCol := by
  rw [putColumn, header]
  by_cases h0 : iCol = 0
  · subst h0
    rfl
  · rw [if_pos h0, if_pos (by omega), putVarint_natCast (by omega)]

theorem encodeColumns_cons (iCol : ℕ) (ps : List ℕ) (p : Poslist) :
    encodeColumns ((iCol, ps) :: p) = header iCol ++ encodePositions 0 ps ++ encodeColumns p := rfl

theorem deref_cons (b : UInt8) (p : Bytes) : deref (b :: p) = b := rfl

theorem columnAt_zero (p : Bytes) : columnAt (0 :: p) = positionListEnd := by
  rw [columnAt, deref_cons, if_neg (by decide), if_pos rfl]

theorem columnAt_one (p : Bytes) : columnAt (1 :: p) = (getVarint32 p).1 := by
  rw [columnAt, deref_cons, if_pos rfl, List.drop_succ_cons, List.drop_zero]

/-- Between columns `columnAt` is the next column. -/
theorem columnAt_encodeColumns {p : Poslist} (hv : p.Valid) (hs : Small p) (bs : Bytes) :
    columnAt (encodeColumns p ++ 0 :: bs) =
        (p.head?.map fun c => (c.1 : ℤ)).getD positionListEnd ∧
      (deref (encodeColumns p ++ 0 :: bs) = 0 ↔ p = []) := by
  cases p with
  | nil => exact ⟨columnAt_zero bs, fun _ => rfl, fun _ => rfl⟩
  | cons c p =>
    obtain ⟨iCol, ps⟩ := c
    have hcol := (hs _ List.mem_cons_self).1
    dsimp only at hcol
    rw [encodeColumns_cons, header]
    split
    · rw [List.cons_append, List.cons_append, List.cons_append, columnAt_one, List.append_assoc,
        List.append_assoc, getVarint32_varint (by omega)]
      refine ⟨?_, fun h => absurd h (by decide : (1 : UInt8) ≠ 0),
        fun h => absurd h (List.cons_ne_nil _ _)⟩
      rw [List.head?_cons, Option.map_some, Option.getD_some]
    · rename_i h0
      obtain ⟨x, xs, rfl⟩ := List.exists_cons_of_ne_nil hv.head_ne
      have hderef := ne_of_and (deref_varint (by omega : 2 ≤ x + 2 - 0)
        (encodePositions x xs ++ (encodeColumns p ++ 0 :: bs)))
      rw [List.nil_append, encodePositions, List.append_assoc, List.append_assoc]
      refine ⟨?_, fun h => absurd h hderef.1, fun h => absurd h (List.cons_ne_nil _ _)⟩
      rw [columnAt, if_neg hderef.2, if_neg hderef.1, not_not.mp h0, List.head?_cons,
        Option.map_some, Option.getD_some]
      rfl

theorem length_le_encodePositions (iPrev : ℕ) (ps : List ℕ) :
    ps.length ≤ (encodePositions iPrev ps).length := by
  induction ps generalizing iPrev with
  | nil => exact le_rfl
  | cons x xs ih =>
    have hpos := length_varint_pos (x + 2 - iPrev)
    have hxs := ih x
    rw [encodePositions, List.length_append, List.length_cons]
    omega

/-- A column is passed over. -/
theorem drop_columnLength {ps : List ℕ} (h : After iPrev ps) (hrest : Stop rest) :
    (encodePositions iPrev ps ++ rest).drop
        (columnLength 0 (encodePositions iPrev ps ++ rest)) = rest ∧
      (encodePositions iPrev ps ++ rest).take
        (columnLength 0 (encodePositions iPrev ps ++ rest)) = encodePositions iPrev ps := by
  rw [columnLength_encodePositions h hrest.columnLength]
  exact ⟨List.drop_left, List.take_left⟩

/-- The first position of a column. -/
theorem getDelta_encodePositions {x : ℕ} (hx : x < 2 ^ 31 - 3) (xs : List ℕ) (rest : Bytes) :
    getDelta (encodePositions 0 (x :: xs) ++ rest) 0 =
      (encodePositions x xs ++ rest, (x : ℤ) + 2) := by
  rw [encodePositions, List.append_assoc, getDelta_varint (by omega)]
  refine Prod.ext rfl ?_
  dsimp only
  omega

/-- The bytes of a column at a place between columns. -/
structure AtColumn (p : Bytes) (iCol : ℕ) (ps : List ℕ) (rest : Bytes) : Prop where
  column : columnAt p = iCol
  deref : deref p ≠ 0
  drop : p.drop (putColumn (columnAt p)).length = encodePositions 0 ps ++ rest
  put : putColumn (columnAt p) = header iCol
  after : After 0 ps
  nonempty : ps ≠ []
  stop : Stop rest
  rest_ne : rest ≠ []

theorem atColumn {iCol : ℕ} {ps : List ℕ} {p : Poslist} (hv : Poslist.Valid ((iCol, ps) :: p))
    (hs : Small ((iCol, ps) :: p)) (bs : Bytes) :
    AtColumn (encodeColumns ((iCol, ps) :: p) ++ 0 :: bs) iCol ps (encodeColumns p ++ 0 :: bs) := by
  obtain ⟨hcol, hderef⟩ := columnAt_encodeColumns hv hs bs
  rw [List.head?_cons, Option.map_some, Option.getD_some] at hcol
  have hput := putColumn_natCast (hs _ List.mem_cons_self).1
  refine ⟨hcol, fun h => List.cons_ne_nil _ _ (hderef.mp h), ?_, by rw [hcol]; exact hput,
    hv.after hs, hv.head_ne, stop_encodeColumns hv bs,
    List.append_ne_nil_of_right_ne_nil _ (List.cons_ne_nil _ _)⟩
  rw [hcol, hput, encodeColumns_cons, List.append_assoc, List.append_assoc, List.drop_left]

/-- `fts3PutColNumber` and `fts3ColumnlistCopy`: what is written, and the pointer. -/
def copyColumn (iCol : ℤ) (p : Bytes) : Bytes × Bytes :=
  let p := p.drop (putColumn iCol).length
  (putColumn iCol ++ p.take (columnLength 0 p), p.drop (columnLength 0 p))

/-- The branch of `fts3PoslistMerge` for two lists in one column: what is written, and the
pointers. -/
def mergeColumns (iCol : ℤ) (p1 p2 : Bytes) : Bytes × Bytes × Bytes :=
  let q1 := getDelta (p1.drop (putColumn iCol).length) 0
  let q2 := getDelta (p2.drop (putColumn iCol).length) 0
  let q := poslistMergeColumn (q1.1.length + q2.1.length + 1) q1.2 q2.2 0 q1.1 q2.1 []
  (putColumn iCol ++ q.2.2, q.1, q.2.1)

/-- The loop of `fts3PoslistMerge`, with the pointers it leaves. -/
def mergeLoop : ℕ → Bytes → Bytes → Bytes → Bytes × Bytes × Bytes
  | 0, p1, p2, out => (out, p1, p2)
  | fuel + 1, p1, p2, out =>
    if deref p1 = 0 ∧ deref p2 = 0 then (out, p1, p2)
    else if columnAt p1 = columnAt p2 then
      mergeLoop fuel (mergeColumns (columnAt p1) p1 p2).2.1 (mergeColumns (columnAt p1) p1 p2).2.2
        (out ++ (mergeColumns (columnAt p1) p1 p2).1)
    else if columnAt p1 < columnAt p2 then
      mergeLoop fuel (copyColumn (columnAt p1) p1).2 p2 (out ++ (copyColumn (columnAt p1) p1).1)
    else
      mergeLoop fuel p1 (copyColumn (columnAt p2) p2).2 (out ++ (copyColumn (columnAt p2) p2).1)

/-- `fts3PoslistMerge`: what it writes, and the pointers it leaves. -/
def poslistMergePtrs (p1 p2 : Bytes) : Bytes × Bytes × Bytes :=
  let q := mergeLoop (p1.length + p2.length + 1) p1 p2 []
  (q.1 ++ [0], q.2.1.drop 1, q.2.2.drop 1)

theorem copyColumn_eq {iCol : ℕ} {ps : List ℕ} (h : AtColumn p1 iCol ps r1) :
    copyColumn (columnAt p1) p1 = (header iCol ++ encodePositions 0 ps, r1) := by
  obtain ⟨hdrop, htake⟩ := drop_columnLength h.after h.stop
  rw [copyColumn, h.drop, hdrop, htake, h.put]

theorem mergeColumns_eq {iCol : ℕ} {ps1 ps2 : List ℕ} (h1 : AtColumn p1 iCol ps1 r1)
    (h2 : AtColumn p2 iCol ps2 r2) : mergeColumns (columnAt p1) p1 p2 =
      (header iCol ++ encodePositions 0 (Query.columnMerge ps1 ps2), r1, r2) := by
  have hdrop2 := h2.drop
  rw [h2.column, ← h1.column] at hdrop2
  obtain ⟨x1, xs1, rfl⟩ := List.exists_cons_of_ne_nil h1.nonempty
  obtain ⟨x2, xs2, rfl⟩ := List.exists_cons_of_ne_nil h2.nonempty
  have hlen1 := length_le_encodePositions x1 xs1
  have hlen2 := length_le_encodePositions x2 xs2
  have hpos1 := List.length_pos_iff.mpr h1.rest_ne
  have hpos2 := List.length_pos_iff.mpr h2.rest_ne
  rw [mergeColumns, h1.drop, hdrop2, getDelta_encodePositions h1.after.head.2,
    getDelta_encodePositions h2.after.head.2]
  dsimp only
  have hcolumn := @poslistMergeColumn_eq 0 _ _ [] r1 r2 _ _ (x1 :: xs1) (x2 :: xs2)
    ((encodePositions x1 xs1 ++ r1).length + (encodePositions x2 xs2 ++ r2).length + 1)
    (by rw [List.length_cons, List.length_cons, List.length_append, List.length_append]; omega)
    (.inl (List.cons_ne_nil _ _)) ⟨rfl, rfl⟩ ⟨rfl, rfl⟩ h1.after h2.after h1.stop h2.stop
  rw [Nat.cast_zero] at hcolumn
  rw [hcolumn, h1.put]
  rfl

/-- The loop of `fts3PoslistMerge`, at two lists that are in the same column. -/
theorem mergeLoop_both {fuel iCol : ℕ} {ps1 ps2 : List ℕ} (h1 : AtColumn p1 iCol ps1 r1)
    (h2 : AtColumn p2 iCol ps2 r2) : mergeLoop (fuel + 1) p1 p2 out = mergeLoop fuel r1 r2
      (out ++ (header iCol ++ encodePositions 0 (Query.columnMerge ps1 ps2))) := by
  rw [mergeLoop, if_neg fun h => h1.deref h.1, if_pos (h1.column.trans h2.column.symm),
    mergeColumns_eq h1 h2]

/-- At two lists of which the first one is in an earlier column. -/
theorem mergeLoop_left {fuel iCol : ℕ} {ps : List ℕ} (h1 : AtColumn p1 iCol ps r1)
    (hlt : (iCol : ℤ) < columnAt p2) : mergeLoop (fuel + 1) p1 p2 out =
      mergeLoop fuel r1 p2 (out ++ (header iCol ++ encodePositions 0 ps)) := by
  rw [← h1.column] at hlt
  rw [mergeLoop, if_neg fun h => h1.deref h.1, if_neg hlt.ne, if_pos hlt, copyColumn_eq h1]

theorem mergeLoop_right {fuel iCol : ℕ} {ps : List ℕ} (h2 : AtColumn p2 iCol ps r2)
    (hlt : (iCol : ℤ) < columnAt p1) : mergeLoop (fuel + 1) p1 p2 out =
      mergeLoop fuel p1 r2 (out ++ (header iCol ++ encodePositions 0 ps)) := by
  rw [← h2.column] at hlt
  rw [mergeLoop, if_neg fun h => h2.deref h.2, if_neg hlt.ne', if_neg hlt.le.not_gt,
    copyColumn_eq h2]

theorem poslistMerge_nil_left (b : Poslist) : Query.poslistMerge [] b = b := by
  rw [Query.poslistMerge]

theorem poslistMerge_nil_right (a : Poslist) : Query.poslistMerge a [] = a := by
  cases a <;> rw [Query.poslistMerge]
  exact List.cons_ne_nil _ _

/-- The loop of `fts3PoslistMerge`. -/
theorem mergeLoop_eq {fuel : ℕ} {a b : Poslist} (hfuel : a.length + b.length < fuel)
    (ha : a.Valid) (hb : b.Valid) (hsa : Small a) (hsb : Small b) :
    mergeLoop fuel (encodeColumns a ++ 0 :: r1) (encodeColumns b ++ 0 :: r2) out =
      (out ++ encodeColumns (Query.poslistMerge a b), 0 :: r1, 0 :: r2) := by
  induction fuel generalizing a b out with
  | zero => omega
  | succ fuel ih =>
    cases a with
    | nil =>
      cases b with
      | nil =>
        rw [mergeLoop, if_pos ⟨rfl, rfl⟩, poslistMerge_nil_left, encodeColumns, List.append_nil]
        rfl
      | cons d b =>
        obtain ⟨iCol2, ps2⟩ := d
        have hcol2 := (hsb _ List.mem_cons_self).1
        have hend : (iCol2 : ℤ) < columnAt (encodeColumns [] ++ 0 :: r1) := by
          rw [encodeColumns, List.nil_append, columnAt_zero, positionListEnd]
          dsimp only at hcol2
          omega
        rw [mergeLoop_right (atColumn hb hsb r2) hend, ih (by simpa using hfuel) ha hb.tail
          hsa hsb.tail, poslistMerge_nil_left, poslistMerge_nil_left, encodeColumns_cons,
          List.append_assoc, List.append_assoc]
    | cons c a =>
      obtain ⟨iCol1, ps1⟩ := c
      have h1 := atColumn ha hsa r1
      have hcol1 := (hsa _ List.mem_cons_self).1
      cases b with
      | nil =>
        have hend : (iCol1 : ℤ) < columnAt (encodeColumns [] ++ 0 :: r2) := by
          rw [encodeColumns, List.nil_append, columnAt_zero, positionListEnd]
          dsimp only at hcol1
          omega
        rw [mergeLoop_left h1 hend, ih (by simpa using hfuel) ha.tail hb hsa.tail hsb,
          poslistMerge_nil_right, poslistMerge_nil_right, encodeColumns_cons, List.append_assoc, List.append_assoc]
      | cons d b =>
        obtain ⟨iCol2, ps2⟩ := d
        have h2 := atColumn hb hsb r2
        rw [List.length_cons, List.length_cons] at hfuel
        rw [Query.poslistMerge]
        rcases Nat.lt_trichotomy iCol1 iCol2 with hlt | rfl | hgt
        · rw [mergeLoop_left h1 (by rw [h2.column]; exact Int.ofNat_lt.mpr hlt),
            ih (by rw [List.length_cons]; omega) ha.tail hb hsa.tail hsb, if_neg hlt.ne,
            if_pos hlt, encodeColumns_cons iCol1, List.append_assoc, List.append_assoc]
        · rw [mergeLoop_both h1 h2, ih (by omega) ha.tail hb.tail hsa.tail hsb.tail,
            if_pos rfl, encodeColumns_cons iCol1, List.append_assoc, List.append_assoc]
        · rw [mergeLoop_right h2 (by rw [h1.column]; exact Int.ofNat_lt.mpr hgt),
            ih (by rw [List.length_cons]; omega) ha hb.tail hsa hsb.tail, if_neg hgt.ne',
            if_neg hgt.le.not_gt, encodeColumns_cons iCol2, List.append_assoc, List.append_assoc]

theorem length_le_encodeColumns (p : Poslist) (hv : p.Valid) :
    p.length ≤ (encodeColumns p).length := by
  induction p with
  | nil => exact le_rfl
  | cons c p ih =>
    obtain ⟨iCol, ps⟩ := c
    have hps := length_le_encodePositions 0 ps
    have hpos := List.length_pos_iff.mpr hv.head_ne
    have hp := ih hv.tail
    rw [encodeColumns_cons, List.length_append, List.length_append, List.length_cons]
    omega

/-- The union of two position lists. -/
theorem poslistMergePtrs_encode {a b : Poslist} (ha : a.Valid) (hb : b.Valid) (hsa : Small a)
    (hsb : Small b) (r1 r2 : Bytes) : poslistMergePtrs (encode a ++ r1) (encode b ++ r2) =
      (encode (Query.poslistMerge a b), r1, r2) := by
  have hlen1 := length_le_encodeColumns a ha
  have hlen2 := length_le_encodeColumns b hb
  rw [poslistMergePtrs, encode, encode, List.append_assoc, List.append_assoc,
    List.singleton_append, List.singleton_append, mergeLoop_eq ?_ ha hb hsa hsb]
  · rfl
  · rw [List.length_append, List.length_append]
    omega

/-! ### The phrase merge -/

/-- Whether a round of the inner loop of `fts3PoslistPhraseMerge` writes a position. -/
def phraseHit (nToken : ℤ) (isExact : Bool) (iPos1 iPos2 : ℤ) : Prop :=
  iPos2 = iPos1 + nToken ∨ isExact = false ∧ iPos2 > iPos1 ∧ iPos2 ≤ iPos1 + nToken

instance (nToken : ℤ) (isExact : Bool) (iPos1 iPos2 : ℤ) :
    Decidable (phraseHit nToken isExact iPos1 iPos2) := inferInstanceAs (Decidable (_ ∨ _))

/-- What a round writes, and the last position that is written. -/
def phraseWrite (nToken : ℤ) (isSaveLeft isExact : Bool) (iPos1 iPos2 iPrev : ℤ) : Bytes × ℤ :=
  if phraseHit nToken isExact iPos1 iPos2 then
    (putVarint ((if isSaveLeft then iPos1 else iPos2) + 2 - iPrev),
      if isSaveLeft then iPos1 else iPos2)
  else ([], iPrev)

/-- The inner loop of `fts3PoslistPhraseMerge`: what is written, and the pointers. -/
def phraseColumn (nToken : ℤ) (isSaveLeft isExact : Bool) :
    ℕ → ℤ → ℤ → ℤ → Bytes → Bytes → Bytes → Bytes × Bytes × Bytes
  | 0, _, _, _, p1, p2, out => (out, p1, p2)
  | fuel + 1, iPos1, iPos2, iPrev, p1, p2, out =>
    if isSaveLeft = false ∧ iPos2 ≤ iPos1 + nToken ∨ iPos2 ≤ iPos1 then
      if deref p2 &&& 0xFE = 0 then
        (out ++ (phraseWrite nToken isSaveLeft isExact iPos1 iPos2 iPrev).1, p1, p2)
      else
        phraseColumn nToken isSaveLeft isExact fuel iPos1 ((getDelta p2 iPos2).2 - 2)
          (phraseWrite nToken isSaveLeft isExact iPos1 iPos2 iPrev).2 p1 (getDelta p2 iPos2).1
          (out ++ (phraseWrite nToken isSaveLeft isExact iPos1 iPos2 iPrev).1)
    else
      if deref p1 &&& 0xFE = 0 then
        (out ++ (phraseWrite nToken isSaveLeft isExact iPos1 iPos2 iPrev).1, p1, p2)
      else
        phraseColumn nToken isSaveLeft isExact fuel ((getDelta p1 iPos1).2 - 2) iPos2
          (phraseWrite nToken isSaveLeft isExact iPos1 iPos2 iPrev).2 (getDelta p1 iPos1).1 p2
          (out ++ (phraseWrite nToken isSaveLeft isExact iPos1 iPos2 iPrev).1)

/-- The branch of `fts3PoslistPhraseMerge` for two lists in one column: what is written, and the
pointers at the ends of the column. -/
def phraseColumns (nToken : ℤ) (isSaveLeft isExact : Bool) (iCol : ℤ) (p1 p2 : Bytes) :
    Bytes × Bytes × Bytes :=
  let q1 := getDelta p1 0
  let q2 := getDelta p2 0
  let q := phraseColumn nToken isSaveLeft isExact (q1.1.length + q2.1.length + 1) (q1.2 - 2)
    (q2.2 - 2) 0 q1.1 q2.1 []
  (if q.1 = [] then [] else putColumn iCol ++ q.1, q.2.1.drop (columnLength 0 q.2.1),
    q.2.2.drop (columnLength 0 q.2.2))

/-- The outer loop of `fts3PoslistPhraseMerge`. -/
def phraseLoop (nToken : ℤ) (isSaveLeft isExact : Bool) :
    ℕ → ℤ → ℤ → Bytes → Bytes → Bytes → Bytes
  | 0, _, _, _, _, out => out
  | fuel + 1, iCol1, iCol2, p1, p2, out =>
    if iCol1 = iCol2 then
      let q := phraseColumns nToken isSaveLeft isExact iCol1 p1 p2
      if deref q.2.1 = 0 ∨ deref q.2.2 = 0 then out ++ q.1
      else
        phraseLoop nToken isSaveLeft isExact fuel (skipColumn q.2.1).2 (skipColumn q.2.2).2
          (skipColumn q.2.1).1 (skipColumn q.2.2).1 (out ++ q.1)
    else if iCol1 < iCol2 then
      let p := p1.drop (columnLength 0 p1)
      if deref p = 0 then out
      else phraseLoop nToken isSaveLeft isExact fuel (skipColumn p).2 iCol2 (skipColumn p).1 p2 out
    else
      let p := p2.drop (columnLength 0 p2)
      if deref p = 0 then out
      else phraseLoop nToken isSaveLeft isExact fuel iCol1 (skipColumn p).2 p1 (skipColumn p).1 out

/-- `fts3PoslistPhraseMerge`: what it writes, which is nothing if there is no match. -/
def poslistPhraseMerge (nToken : ℤ) (isSaveLeft isExact : Bool) (p1 p2 : Bytes) : Bytes :=
  let out := phraseLoop nToken isSaveLeft isExact (p1.length + p2.length + 1) (firstColumn p1).2
    (firstColumn p2).2 (firstColumn p1).1 (firstColumn p2).1 []
  if out = [] then [] else out ++ [0]

/-- `fts3PoslistNearMerge`: what it writes, if there is a match. -/
def poslistNearMerge (nRight nLeft : ℤ) (p1 p2 : Bytes) : Option Bytes :=
  let tmp1 := poslistPhraseMerge nRight false false p1 p2
  let tmp2 := poslistPhraseMerge nLeft true false p2 p1
  if tmp1 ≠ [] ∧ tmp2 ≠ [] then some (poslistMergePtrs tmp1 tmp2).1
  else if tmp1 ≠ [] then some tmp1
  else if tmp2 ≠ [] then some tmp2
  else none

variable {nToken : ℤ} {x1 x2 : ℕ} {xs1 xs2 : List ℕ} {isSaveLeft : Bool}

/-- The next position of a column. -/
theorem getDelta_next {x y : ℕ} {ys : List ℕ} (h : After x (y :: ys)) (rest : Bytes) :
    ¬deref (encodePositions x (y :: ys) ++ rest) &&& 0xFE = 0 ∧
      getDelta (encodePositions x (y :: ys) ++ rest) x =
        (encodePositions y ys ++ rest, (y : ℤ) + 2) := by
  obtain ⟨hle, hlt⟩ := h.head
  rw [encodePositions, List.append_assoc, getDelta_varint (by omega)]
  refine ⟨deref_varint (by omega) _, Prod.ext rfl ?_⟩
  dsimp only
  omega

/-- What a round writes is what `savePos` has. -/
theorem phraseWrite_eq (nToken : ℤ) (hlt1 : x1 < 2 ^ 31 - 3) (hlt2 : x2 < 2 ^ 31 - 3)
    (hprev : iPrev ≤ if isSaveLeft then x1 else x2) (xs : List ℕ) :
    ∃ iPrev', (phraseWrite nToken isSaveLeft false x1 x2 iPrev).2 = (iPrev' : ℕ) ∧
      (phraseWrite nToken isSaveLeft false x1 x2 iPrev).1 ++ encodePositions iPrev' xs =
        encodePositions iPrev (Query.savePos nToken isSaveLeft x1 x2 ++ xs) ∧
      (iPrev' = iPrev ∨ iPrev' = (if isSaveLeft then x1 else x2) ∧
        ((x2 : ℤ) = x1 + nToken ∨ x1 < x2 ∧ (x2 : ℤ) ≤ x1 + nToken)) := by
  have hiff : phraseHit nToken false x1 x2 ↔
      (x2 : ℤ) = x1 + nToken ∨ x1 < x2 ∧ (x2 : ℤ) ≤ x1 + nToken := by
    rw [phraseHit]
    constructor
    · rintro (h | ⟨-, h1, h2⟩)
      · exact .inl (by omega)
      · exact .inr (by omega)
    · rintro (h | h)
      · exact .inl (by omega)
      · exact .inr ⟨rfl, by omega⟩
  rw [phraseWrite, Query.savePos]
  by_cases hhit : (x2 : ℤ) = x1 + nToken ∨ x1 < x2 ∧ (x2 : ℤ) ≤ x1 + nToken
  · rw [if_pos (hiff.mpr hhit), if_pos hhit]
    refine ⟨if isSaveLeft then x1 else x2, by cases isSaveLeft <;> rfl, ?_, .inr ⟨rfl, hhit⟩⟩
    rw [List.singleton_append, encodePositions]
    refine congrArg₂ (· ++ ·) ?_ rfl
    cases isSaveLeft with
    | true => exact putVarint_sub hprev hlt1
    | false => exact putVarint_sub hprev hlt2
  · rw [if_neg (hiff.not.mpr hhit), if_neg hhit]
    exact ⟨iPrev, rfl, rfl, .inl rfl⟩

/-- The inner loop of `fts3PoslistPhraseMerge`. -/
theorem phraseColumn_eq {fuel : ℕ} (hfuel : xs1.length + xs2.length < fuel)
    (hx1 : x1 < 2 ^ 31 - 3) (hx2 : x2 < 2 ^ 31 - 3) (hl1 : After x1 xs1) (hl2 : After x2 xs2)
    (hp1 : (x1 :: xs1).Pairwise (· < ·)) (hp2 : (x2 :: xs2).Pairwise (· < ·))
    (hprev : iPrev ≤ if isSaveLeft then x1 else x2) (hr1 : Stop r1) (hr2 : Stop r2) :
    ∃ y1 ys1 y2 ys2, After y1 ys1 ∧ After y2 ys2 ∧
      phraseColumn nToken isSaveLeft false fuel x1 x2 iPrev (encodePositions x1 xs1 ++ r1)
          (encodePositions x2 xs2 ++ r2) out =
        (out ++ encodePositions iPrev
            (Query.columnPhraseMerge nToken isSaveLeft (x1 :: xs1) (x2 :: xs2)),
          encodePositions y1 ys1 ++ r1, encodePositions y2 ys2 ++ r2) := by
  induction fuel generalizing x1 xs1 x2 xs2 iPrev out with
  | zero => omega
  | succ fuel ih =>
    have hcond : (isSaveLeft = false ∧ (x2 : ℤ) ≤ x1 + nToken ∨ (x2 : ℤ) ≤ x1) ↔
        (isSaveLeft = false ∧ (x2 : ℤ) ≤ x1 + nToken) ∨ x2 ≤ x1 := or_congr_right Nat.cast_le
    rw [phraseColumn, Query.columnPhraseMerge]
    by_cases hadv : (isSaveLeft = false ∧ (x2 : ℤ) ≤ x1 + nToken) ∨ x2 ≤ x1
    · rw [if_pos (hcond.mpr hadv), if_pos hadv]
      cases xs2 with
      | nil =>
        obtain ⟨iPrev', -, hwrite, -⟩ := phraseWrite_eq nToken hx1 hx2 hprev []
        have hnil : Query.columnPhraseMerge nToken isSaveLeft (x1 :: xs1) [] = [] := by
          rw [Query.columnPhraseMerge]
          exact fun _ _ _ _ _ h => absurd h.symm (List.cons_ne_nil _ _)
        rw [encodePositions, List.append_nil] at hwrite
        rw [if_pos (show deref (encodePositions x2 [] ++ r2) &&& 0xFE = 0 from hr2), hnil, hwrite]
        exact ⟨x1, xs1, x2, [], hl1, hl2, rfl⟩
      | cons y ys =>
        obtain ⟨hderef, hnext⟩ := getDelta_next hl2 r2
        obtain ⟨hlt, hys⟩ := List.pairwise_cons.mp hp2
        obtain ⟨iPrev', hpos, hwrite, hcase⟩ := phraseWrite_eq nToken hx1 hx2 hprev
          (Query.columnPhraseMerge nToken isSaveLeft (x1 :: xs1) (y :: ys))
        have hprev' : iPrev' ≤ if isSaveLeft then x1 else y := by
          have hxy := hlt y List.mem_cons_self
          cases isSaveLeft <;> simp only [Bool.false_eq_true, if_false, if_true] at hprev hcase ⊢ <;>
            omega
        rw [if_neg hderef, hnext, hpos, ← hwrite, ← List.append_assoc]
        dsimp only
        rw [add_sub_cancel_right]
        exact ih (by rw [List.length_cons] at hfuel; omega) hx1 hl2.head.2 hl1 hl2.tail hp1 hys
          hprev'
    · rw [if_neg (hcond.not.mpr hadv), if_neg hadv]
      cases xs1 with
      | nil =>
        obtain ⟨iPrev', -, hwrite, -⟩ := phraseWrite_eq nToken hx1 hx2 hprev []
        have hnil : Query.columnPhraseMerge nToken isSaveLeft [] (x2 :: xs2) = [] := by
          rw [Query.columnPhraseMerge]
          exact fun _ _ _ _ h => absurd h.symm (List.cons_ne_nil _ _)
        rw [encodePositions, List.append_nil] at hwrite
        rw [if_pos (show deref (encodePositions x1 [] ++ r1) &&& 0xFE = 0 from hr1), hnil, hwrite]
        exact ⟨x1, [], x2, xs2, hl1, hl2, rfl⟩
      | cons y ys =>
        obtain ⟨hderef, hnext⟩ := getDelta_next hl1 r1
        obtain ⟨hlt, hys⟩ := List.pairwise_cons.mp hp1
        obtain ⟨iPrev', hpos, hwrite, hcase⟩ := phraseWrite_eq nToken hx1 hx2 hprev
          (Query.columnPhraseMerge nToken isSaveLeft (y :: ys) (x2 :: xs2))
        have hprev' : iPrev' ≤ if isSaveLeft then y else x2 := by
          have hxy := hlt y List.mem_cons_self
          cases isSaveLeft <;> simp only [Bool.false_eq_true, if_false, if_true] at hprev hcase ⊢ <;>
            omega
        rw [if_neg hderef, hnext, hpos, ← hwrite, ← List.append_assoc]
        dsimp only
        rw [add_sub_cancel_right]
        exact ih (by rw [List.length_cons] at hfuel; omega) hl1.head.2 hx2 hl1.tail hl2 hys hp2
          hprev'

/-- A column in both lists. -/
theorem phraseColumns_eq (nToken : ℤ) (isSaveLeft : Bool) {iCol : ℕ} {ps1 ps2 : List ℕ}
    (hcol : iCol < 2 ^ 31 - 1) (h1 : After 0 ps1) (h2 : After 0 ps2) (hne1 : ps1 ≠ []) (hne2 : ps2 ≠ []) (hr1 : Stop r1)
    (hr2 : Stop r2) (hrne1 : r1 ≠ []) (hrne2 : r2 ≠ []) :
    phraseColumns nToken isSaveLeft false iCol (encodePositions 0 ps1 ++ r1)
        (encodePositions 0 ps2 ++ r2) =
      (encodeColumns (Query.putColumn iCol (Query.columnPhraseMerge nToken isSaveLeft ps1 ps2) []),
        r1, r2) := by
  obtain ⟨x1, xs1, rfl⟩ := List.exists_cons_of_ne_nil hne1
  obtain ⟨x2, xs2, rfl⟩ := List.exists_cons_of_ne_nil hne2
  have hlen1 := length_le_encodePositions x1 xs1
  have hlen2 := length_le_encodePositions x2 xs2
  have hpos1 := List.length_pos_iff.mpr hrne1
  have hpos2 := List.length_pos_iff.mpr hrne2
  obtain ⟨y1, ys1, y2, ys2, hy1, hy2, hcolumn⟩ := @phraseColumn_eq 0 [] r1 r2 nToken x1 x2 xs1 xs2
    isSaveLeft ((encodePositions x1 xs1 ++ r1).length + (encodePositions x2 xs2 ++ r2).length + 1)
    (by rw [List.length_append, List.length_append]; omega) h1.head.2 h2.head.2 h1.tail h2.tail
    h1.1 h2.1 (Nat.zero_le _) hr1 hr2
  rw [Nat.cast_zero] at hcolumn
  rw [phraseColumns, getDelta_encodePositions h1.head.2, getDelta_encodePositions h2.head.2]
  dsimp only
  rw [add_sub_cancel_right, add_sub_cancel_right, hcolumn]
  dsimp only
  rw [(drop_columnLength hy1 hr1).1, (drop_columnLength hy2 hr2).1, List.nil_append]
  refine Prod.ext ?_ rfl
  dsimp only
  have hempty : encodePositions 0 (Query.columnPhraseMerge nToken isSaveLeft (x1 :: xs1)
      (x2 :: xs2)) = [] ↔ Query.columnPhraseMerge nToken isSaveLeft (x1 :: xs1) (x2 :: xs2) = [] := by
    refine ⟨fun h => ?_, fun h => by rw [h]; rfl⟩
    have hle := length_le_encodePositions 0
      (Query.columnPhraseMerge nToken isSaveLeft (x1 :: xs1) (x2 :: xs2))
    rw [h] at hle
    exact List.length_eq_zero_iff.mp (Nat.le_zero.mp hle)
  rw [Query.putColumn]
  by_cases hnil : Query.columnPhraseMerge nToken isSaveLeft (x1 :: xs1) (x2 :: xs2) = []
  · rw [if_pos (hempty.mpr hnil), if_pos hnil]
    rfl
  · rw [if_neg (hempty.not.mpr hnil), if_neg hnil, encodeColumns_cons, putColumn_natCast hcol]
    exact (List.append_nil _).symm

theorem encodeColumns_append (a b : Poslist) :
    encodeColumns (a ++ b) = encodeColumns a ++ encodeColumns b := by
  induction a with
  | nil => rfl
  | cons c a ih =>
    rw [List.cons_append, encodeColumns_cons c.1 c.2, ih, encodeColumns_cons c.1 c.2,
      List.append_assoc, List.append_assoc, List.append_assoc]

theorem putColumn_append (iCol : ℕ) (ps : List ℕ) (p : Poslist) :
    Query.putColumn iCol ps p = Query.putColumn iCol ps [] ++ p := by
  rw [Query.putColumn, Query.putColumn]
  split <;> rfl

/-- The number of the next column is read. -/
theorem skipColumn_one {iCol : ℕ} (hcol : iCol < 2 ^ 31 - 1) (p : Bytes) :
    skipColumn (1 :: (varint iCol ++ p)) = (p, (iCol : ℤ)) := by
  unfold skipColumn
  rw [List.drop_succ_cons, List.drop_zero, getVarint32_varint (by omega)]
  dsimp only
  rw [List.drop_succ_cons, List.drop_left]

/-- After a column comes the end, or the next column. -/
theorem next_column {iCol : ℕ} {ps : List ℕ} {p : Poslist} (hv : Poslist.Valid ((iCol, ps) :: p))
    (hs : Small ((iCol, ps) :: p)) (bs : Bytes) :
    p = [] ∧ deref (encodeColumns p ++ 0 :: bs) = 0 ∨
      ∃ iCol' ps' p', p = (iCol', ps') :: p' ∧ deref (encodeColumns p ++ 0 :: bs) ≠ 0 ∧
        skipColumn (encodeColumns p ++ 0 :: bs) =
          (encodePositions 0 ps' ++ (encodeColumns p' ++ 0 :: bs), (iCol' : ℤ)) := by
  cases p with
  | nil => exact .inl ⟨rfl, rfl⟩
  | cons c p =>
    obtain ⟨iCol', ps'⟩ := c
    have hlt := hv.lt_head _ List.mem_cons_self
    dsimp only at hlt
    refine .inr ⟨iCol', ps', p, rfl, ?_⟩
    rw [encodeColumns_cons, header, if_pos (by omega), List.cons_append, List.cons_append,
      List.cons_append, List.append_assoc, List.append_assoc]
    exact ⟨(by decide : (1 : UInt8) ≠ 0), skipColumn_one (hs.tail _ List.mem_cons_self).1 _⟩

theorem phraseMerge_nil_left (p : Poslist) : Query.phraseMerge nToken isSaveLeft [] p = [] := by
  rw [Query.phraseMerge]
  exact fun _ _ _ _ _ _ h => absurd h.symm (List.cons_ne_nil _ _)

theorem phraseMerge_nil_right (p : Poslist) : Query.phraseMerge nToken isSaveLeft p [] = [] := by
  rw [Query.phraseMerge]
  exact fun _ _ _ _ _ _ _ h => absurd h.symm (List.cons_ne_nil _ _)

/-- The outer loop of `fts3PoslistPhraseMerge`. -/
theorem phraseLoop_eq {fuel iCol1 iCol2 : ℕ} {ps1 ps2 : List ℕ} {a b : Poslist}
    (hfuel : a.length + b.length < fuel) (ha : Poslist.Valid ((iCol1, ps1) :: a))
    (hb : Poslist.Valid ((iCol2, ps2) :: b)) (hsa : Small ((iCol1, ps1) :: a))
    (hsb : Small ((iCol2, ps2) :: b)) (bs1 bs2 : Bytes) :
    phraseLoop nToken isSaveLeft false fuel iCol1 iCol2
        (encodePositions 0 ps1 ++ (encodeColumns a ++ 0 :: bs1))
        (encodePositions 0 ps2 ++ (encodeColumns b ++ 0 :: bs2)) out =
      out ++ encodeColumns
        (Query.phraseMerge nToken isSaveLeft ((iCol1, ps1) :: a) ((iCol2, ps2) :: b)) := by
  induction fuel generalizing iCol1 iCol2 ps1 ps2 a b out with
  | zero => omega
  | succ fuel ih =>
    have hstop1 := stop_encodeColumns ha bs1
    have hstop2 := stop_encodeColumns hb bs2
    have hne : ∀ (p : Poslist) (bs : Bytes), encodeColumns p ++ 0 :: bs ≠ [] :=
      fun p bs => List.append_ne_nil_of_right_ne_nil _ (List.cons_ne_nil _ _)
    rw [phraseLoop, Query.phraseMerge]
    by_cases heq : iCol1 = iCol2
    · subst heq
      have hcolumns := phraseColumns_eq nToken isSaveLeft (hsa _ List.mem_cons_self).1
        (ha.after hsa) (hb.after hsb) ha.head_ne hb.head_ne hstop1 hstop2 (hne a bs1) (hne b bs2)
      rw [if_pos rfl, if_pos rfl, hcolumns]
      dsimp only
      rw [putColumn_append _ _ (Query.phraseMerge nToken isSaveLeft a b), encodeColumns_append,
        ← List.append_assoc]
      obtain ⟨rfl, hderef⟩ | ⟨iCol1', ps1', a, rfl, hderef1, hskip1⟩ := next_column ha hsa bs1
      · rw [if_pos (.inl hderef), phraseMerge_nil_left]
        exact (List.append_nil _).symm
      · obtain ⟨rfl, hderef⟩ | ⟨iCol2', ps2', b, rfl, hderef2, hskip2⟩ := next_column hb hsb bs2
        · rw [if_pos (.inr hderef), phraseMerge_nil_right]
          exact (List.append_nil _).symm
        · rw [if_neg (not_or.mpr ⟨hderef1, hderef2⟩), hskip1, hskip2]
          dsimp only
          rw [List.length_cons, List.length_cons] at hfuel
          exact ih (by omega) ha.tail hb.tail hsa.tail hsb.tail
    · rw [if_neg (by omega), if_neg heq]
      by_cases hlt : iCol1 < iCol2
      · rw [if_pos (by omega), if_pos hlt, (drop_columnLength (ha.after hsa) hstop1).1]
        dsimp only
        obtain ⟨rfl, hderef⟩ | ⟨iCol1', ps1', a, rfl, hderef1, hskip1⟩ := next_column ha hsa bs1
        · rw [if_pos hderef, phraseMerge_nil_left]
          exact (List.append_nil _).symm
        · rw [if_neg hderef1, hskip1]
          dsimp only
          rw [List.length_cons] at hfuel
          exact ih (by omega) ha.tail hb hsa.tail hsb
      · rw [if_neg (by omega), if_neg hlt, (drop_columnLength (hb.after hsb) hstop2).1]
        dsimp only
        obtain ⟨rfl, hderef⟩ | ⟨iCol2', ps2', b, rfl, hderef2, hskip2⟩ := next_column hb hsb bs2
        · rw [if_pos hderef, phraseMerge_nil_right]
          exact (List.append_nil _).symm
        · rw [if_neg hderef2, hskip2]
          dsimp only
          rw [List.length_cons] at hfuel
          exact ih (by omega) ha hb.tail hsa hsb.tail

/-- The column that a list starts with. -/
theorem firstColumn_encode {iCol : ℕ} {ps : List ℕ} {p : Poslist}
    (hv : Poslist.Valid ((iCol, ps) :: p)) (hs : Small ((iCol, ps) :: p)) (bs : Bytes) :
    firstColumn (encode ((iCol, ps) :: p) ++ bs) =
      (encodePositions 0 ps ++ (encodeColumns p ++ 0 :: bs), (iCol : ℤ)) := by
  rw [encode, encodeColumns_cons, List.append_assoc, List.append_assoc, List.append_assoc,
    List.singleton_append, header, firstColumn]
  split
  · rw [List.cons_append, deref_cons, if_pos rfl]
    exact skipColumn_one (hs _ List.mem_cons_self).1 _
  · rename_i h0
    obtain ⟨x, xs, rfl⟩ := List.exists_cons_of_ne_nil hv.head_ne
    have hderef := ne_of_and (deref_varint (by omega : 2 ≤ x + 2 - 0)
      (encodePositions x xs ++ (encodeColumns p ++ 0 :: bs)))
    rw [List.nil_append, encodePositions, List.append_assoc, if_neg hderef.2, not_not.mp h0]
    rfl

theorem encodeColumns_eq_nil {p : Poslist} (hv : p.Valid) : encodeColumns p = [] ↔ p = [] := by
  refine ⟨fun h => ?_, fun h => by rw [h]; rfl⟩
  have hle := length_le_encodeColumns p hv
  rw [h] at hle
  exact List.length_eq_zero_iff.mp (Nat.le_zero.mp hle)

/-- The bytes of a list, or nothing for the empty one. -/
def encodeSome (p : Poslist) : Bytes := if p = [] then [] else encode p

/-- The positions of one list after, or before, those of another. -/
theorem poslistPhraseMerge_encode (isSaveLeft : Bool) {a b : Poslist}
    (hn : Poslist.Fair nToken a b) (ha : a.Valid) (hb : b.Valid) (hsa : Small a) (hsb : Small b) (hane : a ≠ []) (hbne : b ≠ [])
    (bs1 bs2 : Bytes) :
    poslistPhraseMerge nToken isSaveLeft false (encode a ++ bs1) (encode b ++ bs2) =
      encodeSome (Query.phraseMerge nToken isSaveLeft a b) := by
  have hlen1 := length_le_encodeColumns a ha
  have hlen2 := length_le_encodeColumns b hb
  have hvalid : (Query.phraseMerge nToken isSaveLeft a b).Valid := ha.phraseMerge hn hb
  obtain ⟨⟨iCol1, ps1⟩, a, rfl⟩ := List.exists_cons_of_ne_nil hane
  obtain ⟨⟨iCol2, ps2⟩, b, rfl⟩ := List.exists_cons_of_ne_nil hbne
  rw [poslistPhraseMerge, firstColumn_encode ha hsa, firstColumn_encode hb hsb]
  dsimp only
  rw [phraseLoop_eq ?_ ha hb hsa hsb, List.nil_append, encodeSome]
  · by_cases hnil : Query.phraseMerge nToken isSaveLeft ((iCol1, ps1) :: a) ((iCol2, ps2) :: b) = []
    · rw [if_pos ((encodeColumns_eq_nil hvalid).mpr hnil), if_pos hnil]
    · rw [if_neg ((encodeColumns_eq_nil hvalid).not.mpr hnil), if_neg hnil]
      rfl
  · rw [List.length_cons] at hlen1 hlen2
    rw [encode, encode, List.length_append, List.length_append, List.length_append,
      List.length_append]
    omega

theorem Small.of_has {p : Poslist} (hs : Small p) {iCol iPos : ℕ} (h : p.Has iCol iPos) :
    iCol < 2 ^ 31 - 1 ∧ iPos < 2 ^ 31 - 3 := by
  obtain ⟨ps, hmem, hpos⟩ := h
  exact ⟨(hs _ hmem).1, (hs _ hmem).2 _ hpos⟩

theorem small_of_forall_has {m : Poslist} (hm : m.Valid)
    (h : ∀ iCol iPos, m.Has iCol iPos → iCol < 2 ^ 31 - 1 ∧ iPos < 2 ^ 31 - 3) : Small m := by
  intro c hc
  obtain ⟨y, hy⟩ := List.exists_mem_of_ne_nil _ (hm.nonempty c hc)
  exact ⟨(h c.1 y ⟨c.2, hc, hy⟩).1, fun x hx => (h c.1 x ⟨c.2, hc, hx⟩).2⟩

theorem small_of_has {m p : Poslist} (hm : m.Valid) (hs : Small p)
    (hsub : ∀ iCol iPos, m.Has iCol iPos → p.Has iCol iPos) : Small m :=
  small_of_forall_has hm fun iCol iPos h => hs.of_has (hsub iCol iPos h)

theorem small_poslistMerge {a b : Poslist} (hv : (Query.poslistMerge a b).Valid) (ha : Small a)
    (hb : Small b) : Small (Query.poslistMerge a b) :=
  small_of_forall_has hv fun _ _ h => (Query.has_poslistMerge.mp h).elim ha.of_has hb.of_has

theorem poslistMerge_ne_nil {p : Poslist} (q : Poslist) (hp : p ≠ []) :
    Query.poslistMerge p q ≠ [] := by
  obtain ⟨c, p, rfl⟩ := List.exists_cons_of_ne_nil hp
  cases q with
  | nil => rw [poslistMerge_nil_right]; exact hp
  | cons d q =>
    rw [Query.poslistMerge]
    split
    · exact List.cons_ne_nil _ _
    · split <;> exact List.cons_ne_nil _ _

/-- The positions of one list near those of another. -/
theorem poslistNearMerge_encode {nRight nLeft : ℤ} {a b : Poslist}
    (hr : Poslist.Fair nRight a b) (hl : Poslist.Fair nLeft b a) (ha : a.Valid) (hb : b.Valid) (hsa : Small a) (hsb : Small b) (hane : a ≠ [])
    (hbne : b ≠ []) (bs1 bs2 : Bytes) :
    poslistNearMerge nRight nLeft (encode a ++ bs1) (encode b ++ bs2) =
      if Query.nearMerge nRight nLeft a b = [] then none
      else some (encode (Query.nearMerge nRight nLeft a b)) := by
  have hv1 : (Query.phraseMerge nRight false a b).Valid := ha.phraseMerge hr hb
  have hv2 : (Query.phraseMerge nLeft true b a).Valid := hb.phraseMerge hl ha
  have hs1 : Small (Query.phraseMerge nRight false a b) := small_of_has hv1 hsb
    fun iCol iPos h => by
      obtain ⟨x, y, -, hy, -, -, rfl⟩ := (Query.has_phraseMerge hr ha hb).mp h
      exact hy
  have hs2 : Small (Query.phraseMerge nLeft true b a) := small_of_has hv2 hsb
    fun iCol iPos h => by
      obtain ⟨x, y, hx, -, -, -, rfl⟩ := (Query.has_phraseMerge hl hb ha).mp h
      exact hx
  have hne : ∀ p : Poslist, encode p ≠ [] :=
    fun p => List.append_ne_nil_of_right_ne_nil _ (List.cons_ne_nil _ _)
  rw [poslistNearMerge, poslistPhraseMerge_encode false hr ha hb hsa hsb hane hbne,
    poslistPhraseMerge_encode true hl hb ha hsb hsa hbne hane, Query.nearMerge]
  by_cases h1 : Query.phraseMerge nRight false a b = []
  · rw [h1, poslistMerge_nil_left, encodeSome, if_pos rfl, if_neg fun h => h.1 rfl,
      if_neg fun h => h rfl, encodeSome]
    by_cases h2 : Query.phraseMerge nLeft true b a = []
    · rw [if_pos h2, if_pos h2, if_neg fun h => h rfl]
    · rw [if_neg h2, if_neg h2, if_pos (hne _)]
  · have henc1 : encodeSome (Query.phraseMerge nRight false a b) =
        encode (Query.phraseMerge nRight false a b) := if_neg h1
    rw [henc1, if_neg (poslistMerge_ne_nil _ h1)]
    by_cases h2 : Query.phraseMerge nLeft true b a = []
    · rw [h2, encodeSome, if_pos rfl, if_neg fun h => h.2 rfl, if_pos (hne _),
        poslistMerge_nil_right]
    · have henc2 : encodeSome (Query.phraseMerge nLeft true b a) =
          encode (Query.phraseMerge nLeft true b a) := if_neg h2
      have hptrs := poslistMergePtrs_encode hv1 hv2 hs1 hs2 [] []
      rw [List.append_nil, List.append_nil] at hptrs
      rw [henc2, if_pos ⟨hne _, hne _⟩, hptrs]

/-- What is written is no longer than the list that is kept. -/
theorem length_encodeSome_le {m p : Poslist} (hp : p.Valid) (hm : m.Valid)
    (hsub : ∀ iCol iPos, m.Has iCol iPos → p.Has iCol iPos) :
    (encodeSome m).length ≤ (encode p).length := by
  rw [encodeSome]
  split
  · exact Nat.zero_le _
  · exact length_encode_le hp hm hsub

end Fts3

end SqliteVms

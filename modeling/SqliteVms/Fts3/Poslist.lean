import Mathlib.Algebra.Order.Ring.Int

/-!
# Position lists

A position list has the places of a term in one row: for each column the positions, as varints of the
differences plus 2, after a 1 and the number of the column unless it is column 0; a 0 ends the list.

A pointer into a list is what is left of the list. Beyond its end there are zeros.

## Main definitions

* `getVarint`, `putVarint` — the varints of FTS3, least significant group first
* `columnLength`, `poslistLength` — where a column, or a position list, ends
-/

namespace SqliteVms

namespace Fts3

/-- A pointer into a buffer. -/
abbrev Bytes := List UInt8

/-! ### Varints -/

/-- The loop of `sqlite3Fts3GetVarint`. -/
def varintLoop : ℕ → ℕ → ℕ → Bytes → ℕ × ℕ
  | _, x, _, [] => (x, 1)
  | 0, x, y, b :: _ => (x + y * b.toNat, 1)
  | n + 1, x, y, b :: bs =>
    if b &&& 0x80 = 0x80 then
      let (v, k) := varintLoop n (x + y * (b &&& 0x7f).toNat) (y * 128) bs
      (v, k + 1)
    else (x + y * b.toNat, 1)

/-- `sqlite3Fts3GetVarint`: the value and the number of bytes. -/
def getVarint (p : Bytes) : ℤ × ℕ :=
  let (v, k) := varintLoop 10 0 1 p
  (Int.bmod v (2 ^ 64), k)

/-- `sqlite3Fts3GetVarint32`. -/
def getVarint32 (p : Bytes) : ℤ × ℕ :=
  let (v, k) := getVarint p
  (Int.bmod v (2 ^ 32), k)

/-- The loop of `sqlite3Fts3PutVarint`. -/
def putVarintLoop : ℕ → ℕ → Bytes
  | 0, _ => []
  | n + 1, v =>
    if v < 128 then [UInt8.ofNat v] else UInt8.ofNat (v % 128 + 128) :: putVarintLoop n (v / 128)

/-- `sqlite3Fts3PutVarint`. -/
def putVarint (v : ℤ) : Bytes := putVarintLoop 10 (v % 2 ^ 64).toNat

/-- `fts3GetDeltaVarint`. -/
def getDelta (p : Bytes) (v : ℤ) : Bytes × ℤ :=
  let (d, k) := getVarint p
  (p.drop k, v + d)

/-! ### Columns -/

/-- The first byte, or 0 beyond the end. -/
def deref (p : Bytes) : UInt8 := p.headD 0

/-- The length of a column, from `fts3ColumnlistCopy` and `fts3ColumnFilter`. -/
def columnLength (c : UInt8) : Bytes → ℕ
  | [] => 0
  | b :: bs => if (c ||| b) &&& 0xFE ≠ 0 then columnLength (b &&& 0x80) bs + 1 else 0

/-- The length of a position list with its terminator, from `fts3PoslistCopy`. -/
def poslistLength (c : UInt8) : Bytes → ℕ
  | [] => 1
  | b :: bs => if b ||| c ≠ 0 then poslistLength (b &&& 0x80) bs + 1 else 1

/-! ### Merging -/

/-- The header of a column. -/
def putColumn (iCol : ℤ) : Bytes := if iCol ≠ 0 then 1 :: putVarint iCol else []

/-- The column number that follows a 1. -/
def skipColumn (p : Bytes) : Bytes × ℤ :=
  let (iCol, k) := getVarint32 (p.drop 1)
  (p.drop (k + 1), iCol)

/-- The column that a list starts with. -/
def firstColumn (p : Bytes) : Bytes × ℤ := if deref p = 1 then skipColumn p else (p, 0)

/-- `POSITION_LIST_END`. -/
def positionListEnd : ℤ := 0x7fffffff

/-- `fts3ReadNextPos`. -/
def readNextPos (p : Bytes) (i : ℤ) : Bytes × ℤ :=
  if deref p &&& 0xFE ≠ 0 then
    let (p, i) := getDelta p i
    (p, i - 2)
  else (p, positionListEnd)

/-- The inner loop of `fts3PoslistMerge`. -/
def poslistMergeColumn : ℕ → ℤ → ℤ → ℤ → Bytes → Bytes → Bytes → Bytes × Bytes × Bytes
  | 0, _, _, _, p1, p2, out => (p1, p2, out)
  | fuel + 1, i1, i2, iPrev, p1, p2, out =>
    let i := if i1 < i2 then i1 else i2
    let out := out ++ putVarint (i - iPrev)
    let (p1', i1') := if i1 ≤ i2 then readNextPos p1 i1 else (p1, i1)
    let (p2', i2') := if i2 ≤ i1 then readNextPos p2 i2 else (p2, i2)
    if i1' = positionListEnd ∧ i2' = positionListEnd then (p1', p2', out)
    else poslistMergeColumn fuel i1' i2' (i - 2) p1' p2' out

/-- The column at a place between columns. -/
def columnAt (p : Bytes) : ℤ :=
  if deref p = 1 then (getVarint32 (p.drop 1)).1
  else if deref p = 0 then positionListEnd else 0

end Fts3

end SqliteVms

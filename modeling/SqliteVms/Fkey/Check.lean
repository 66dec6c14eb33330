import Mathlib.Data.Int.Order.Basic
import Mathlib.Logic.Function.Basic

/-!
# Foreign keys: the code for a row operation

`fkey.c`, as far as the counters go. Tables are numbers, and a row is a rowid with its columns. No
foreign key has an action, foreign keys are enabled, there is no authorizer, no table is being
dropped, and `isMultiWrite` is set, so that nothing is raised at once.

What the code generated for a foreign key does is done here at once: `OP_IsNull`, the search in the
parent table, the loop over the child rows, `OP_FkCounter`. The three places where a child key is
compared with a parent key apply affinities and collations, each in its own way; they are three
functions of `Tests`. `OP_FkIfZero` is a parameter.

## Main definitions

* `FKey`, `Row`, `Db` — the data
* `Tests` — how keys are compared
* `fkLookupParent`, `fkScanChildren`, `sqlite3FkCheck` — the functions
* `exec` — one row operation
-/

namespace SqliteVms

namespace Fkey

/-- A column of a table. The column that is the INTEGER PRIMARY KEY is the rowid. -/
inductive Col
  | rowid
  | col (i : ℕ)

/-- `FKey`, with the columns of the child key and the index on the parent key that
`sqlite3FkLocateIndex` finds. Without an index the parent key is the rowid. -/
structure FKey where
  pFrom : ℕ
  zTo : ℕ
  aiCol : List Col
  pIdx : Option (List Col)
  isDeferred : Bool

/-- A row. -/
structure Row (V : Type*) where
  rowid : ℤ
  col : ℕ → V

/-- The rows of every table. -/
abbrev Db (V : Type*) := ℕ → List (Row V)

/-- What is known of values: which are NULL, and the value of a rowid. The other functions get a
foreign key, a child key and a parent key: `found` is the search of `fkLookupParent` in the parent
table, `selfMatch` its comparison of the row with itself, and `scan` the WHERE clause of
`fkScanChildren`. `sameEntry` tells when two parent keys cannot both be in the table. -/
structure Tests (V : Type*) where
  isNull : V → Bool
  int : ℤ → V
  found : FKey → List V → List V → Bool
  selfMatch : FKey → List V → List V → Bool
  scan : FKey → List V → List V → Bool
  sameEntry : FKey → List V → List V → Bool

/-- `db->nDeferredCons`, and `nFkConstraint` of the statement. -/
@[ext] structure Counters where
  nDeferredCons : ℤ
  nFkConstraint : ℤ

/-- The counter that belongs to a kind of foreign key. -/
def Counters.get (s : Counters) (isDeferred : Bool) : ℤ :=
  if isDeferred then s.nDeferredCons else s.nFkConstraint

/-- `OP_FkCounter`. -/
def opFkCounter (s : Counters) (isDeferred : Bool) (n : ℤ) : Counters :=
  if isDeferred then { s with nDeferredCons := s.nDeferredCons + n }
  else { s with nFkConstraint := s.nFkConstraint + n }

/-- `OP_FkIfZero`: whether it jumps. -/
def opFkIfZero (s : Counters) (isDeferred : Bool) : Bool := s.get isDeferred = 0

/-- An opcode that never jumps. -/
def noJump (_ : Counters) (_ : Bool) : Bool := false

variable {V : Type*} (t : Tests V) (ifZero : Counters → Bool → Bool)

/-- The value of a column. -/
def val (r : Row V) : Col → V
  | .rowid => t.int r.rowid
  | .col i => r.col i

/-- The child key of a row. -/
def childKey (f : FKey) (r : Row V) : List V := f.aiCol.map (val t r)

/-- The parent key of a row. -/
def parentKey (f : FKey) (r : Row V) : List V :=
  match f.pIdx with
  | none => [t.int r.rowid]
  | some aiColumn => aiColumn.map (val t r)

variable (db : Db V)

/-- `fkLookupParent`, for the parent table `pTab` and the child row `r`. -/
def fkLookupParent (pTab : ℕ) (f : FKey) (r : Row V) (nIncr : ℤ) (s : Counters) : Counters :=
  if nIncr < 0 ∧ ifZero s f.isDeferred then s
  else if (childKey t f r).any t.isNull then s
  else if pTab = f.pFrom ∧ nIncr = 1 ∧ t.selfMatch f (childKey t f r) (parentKey t f r) then s
  else if (db pTab).any fun p => t.found f (childKey t f r) (parentKey t f p) then s
  else opFkCounter s f.isDeferred nIncr

/-- `fkScanChildren`, for the row `r` of the parent table `pTab`. -/
def fkScanChildren (pTab : ℕ) (f : FKey) (r : Row V) (nIncr : ℤ) (s : Counters) : Counters :=
  if nIncr < 0 ∧ ifZero s f.isDeferred then s
  else
    (db f.pFrom).foldl (fun s c =>
      if t.scan f (childKey t f c) (parentKey t f r) ∧
          ¬ (pTab = f.pFrom ∧ 0 < nIncr ∧ r.rowid = c.rowid) then
        opFkCounter s f.isDeferred nIncr
      else s) s

/-- `sqlite3FkCheck`. The lists of the foreign keys from a table and to a table, the last defined
first, are what `fkeys` has of them. -/
def sqlite3FkCheck (fkeys : List FKey) (pTab : ℕ) (regOld regNew : Option (Row V)) (s : Counters) :
    Counters :=
  let s := (fkeys.filter fun f => f.pFrom = pTab).foldl (fun s f =>
    let s := regOld.elim s fun r => fkLookupParent t ifZero db f.zTo f r (-1) s
    regNew.elim s fun r => fkLookupParent t ifZero db f.zTo f r 1 s) s
  (fkeys.filter fun f => f.zTo = pTab).foldl (fun s f =>
    let s := regNew.elim s fun r => fkScanChildren t ifZero db pTab f r (-1) s
    regOld.elim s fun r => fkScanChildren t ifZero db pTab f r 1 s) s

/-- The row goes into the table. -/
def insertRow (pTab : ℕ) (r : Row V) : Db V := Function.update db pTab (r :: db pTab)

/-- The row goes out of the table. -/
def deleteRow (pTab : ℕ) (r : Row V) : Db V :=
  Function.update db pTab ((db pTab).filter fun c => c.rowid ≠ r.rowid)

/-- A row operation. -/
inductive Op (V : Type*)
  | insert (pTab : ℕ) (r : Row V)
  | delete (pTab : ℕ) (r : Row V)
  | update (pTab : ℕ) (old new : Row V)

/-- The database and the counters. -/
structure State (V : Type*) where
  db : Db V
  counters : Counters

variable {db}

/-- The code of an INSERT for one row. -/
def execInsert (fkeys : List FKey) (s : State V) (pTab : ℕ) (r : Row V) : State V where
  db := insertRow s.db pTab r
  counters := sqlite3FkCheck t ifZero s.db fkeys pTab none (some r) s.counters

/-- The code of a DELETE for one row. -/
def execDelete (fkeys : List FKey) (s : State V) (pTab : ℕ) (r : Row V) : State V where
  db := deleteRow s.db pTab r
  counters := sqlite3FkCheck t ifZero s.db fkeys pTab (some r) none s.counters

/-- The code of a row operation. An UPDATE checks the old row, deletes it, checks the new row and
inserts it. -/
def exec (fkeys : List FKey) (s : State V) : Op V → State V
  | .insert pTab r => execInsert t ifZero fkeys s pTab r
  | .delete pTab r => execDelete t ifZero fkeys s pTab r
  | .update pTab old new =>
    execInsert t ifZero fkeys (execDelete t ifZero fkeys s pTab old) pTab new

end Fkey

end SqliteVms

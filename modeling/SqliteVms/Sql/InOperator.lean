import SqliteVms.Sql.OrToInSound

/-!
# The IN operator

`sqlite3ExprCodeIN` looks the left value up in the rowids of a table, in an index, or in an
ephemeral table, and where it is not found in the last two it looks for a NULL. All of them have the
meaning of the IN, but a real can be equal to a rowid without being an integer, and in the last two an
integer can be hidden by another one that is equal to the same real.

## Main definitions

* `Rhs` — the right-hand side
* `sqlite3ExprCodeIN` — one evaluation of the code
* `Correct` — the meaning of the IN

## Main results

* `evaluations_correct_iff` — when the code has the meaning of the IN
* `not_forall_correct` — a real that is equal to a rowid
-/

namespace SqliteVms

namespace Sql

namespace InOperator

open Vdbe Comparison OrToIn

/-! ### The code -/

/-- The structure of the right-hand side with its contents: the rowids of a table, the first columns
of the entries of an index with the columns behind them, or the values of an ephemeral table. The
first column of an index can be descending, and it can be NOT NULL. -/
inductive Rhs
  | rowid (ids : List Int64)
  | index (desc notNull : Bool) (entries : List (Vdbe.Value × List Vdbe.Value))
  | ephemeral (values : List Vdbe.Value)

/-- The values of the right-hand side. -/
def Rhs.values : Rhs → List Vdbe.Value
  | .rowid ids => ids.map .int
  | .index _ _ entries => entries.map Prod.fst
  | .ephemeral values => values

/-- How the searches in a table go for a key. -/
abbrev Pivot := List Vdbe.Value → Vdbe.Value → ℕ → ℕ

/-- The first fields of the records; `OP_MakeRecord` has the affinity for an ephemeral table. -/
def Rhs.records (convert : Affinity → Vdbe.Value → Vdbe.Value) (affinity : Affinity)
    (pColl : CollSeq) (pivot : Pivot) : Rhs → List Vdbe.Value
  | .rowid _ => []
  | .index _ _ entries => entries.map Prod.fst
  | .ephemeral values => ephemeralTable pColl pivot (values.map (convert affinity))

/-- Where the code goes on. -/
inductive Dest
  | next
  | ifNull
  | ifFalse
  deriving DecidableEq

/-- `OP_AddImm` of 1. -/
def addImm : Vdbe.Value → Vdbe.Value
  | .int i => .int (i + 1)
  | _ => .int 1

/-- There is a register `rRhsHasNull`: the right-hand side is not known to have no NULL. -/
def Rhs.mayHaveNull : Rhs → Bool
  | .rowid _ => false
  | .index _ notNull _ => !notNull
  | .ephemeral _ => true

/-- The code behind the test for NULL on an index or ephemeral table, with the register
`rRhsHasNull`. -/
def probe (pColl : CollSeq) (pivot : Pivot) (same mayHaveNull desc : Bool)
    (records : List Vdbe.Value) (key reg : Vdbe.Value) : Dest × Vdbe.Value :=
  if mayHaveNull = false ∨ same = true then
    (if opFound pColl (pivot records key) desc records key = true then .next else .ifFalse, reg)
  else if opFound pColl (pivot records key) desc records key = true then (.next, reg)
  else
    let reg :=
      if reg ≠ .null then reg
      else if opFound pColl (pivot records reg) desc records reg = true then addImm reg
      else addImm (.int (-1))
    (if reg = .int 0 then .ifFalse else .ifNull, reg)

/-- `sqlite3ExprCodeIN` for the left value `v`; `same` says that the two labels are one. The
register is as the evaluation before left it, and is cleared by the `OP_Null` of
`sqlite3FindInIndex`. -/
def sqlite3ExprCodeIN (convert : Affinity → Vdbe.Value → Vdbe.Value) (affinity : Affinity)
    (pColl : CollSeq) (pivot : Pivot) (same : Bool) (rhs : Rhs) (v reg : Vdbe.Value) :
    Dest × Vdbe.Value :=
  let reg := if rhs.mayHaveNull = true then .null else reg
  if v = .null then
    (if same = true then .ifNull else if rhs.values = [] then .ifFalse else .ifNull, reg)
  else
    match rhs with
    | .rowid ids =>
      -- `OP_MustBeInt` and `OP_NotExists`
      match convert .numeric v with
      | .int i => (if i ∈ ids then .next else .ifFalse, reg)
      | _ => (.ifFalse, reg)
    | .index desc notNull entries =>
      probe pColl pivot same (!notNull) desc
        (Rhs.records convert affinity pColl pivot (.index desc notNull entries))
        (convert affinity v) reg
    | .ephemeral values =>
      probe pColl pivot same true false
        (Rhs.records convert affinity pColl pivot (.ephemeral values)) (convert affinity v) reg

/-- The evaluations for the left values of the rows, one after the other. -/
def evaluations (convert : Affinity → Vdbe.Value → Vdbe.Value) (affinity : Affinity)
    (pColl : CollSeq) (pivot : Pivot) (same : Bool) (rhs : Rhs) :
    List Vdbe.Value → Vdbe.Value → List Dest
  | [], _ => []
  | v :: vs, reg =>
    let r := sqlite3ExprCodeIN convert affinity pColl pivot same rhs v reg
    r.1 :: evaluations convert affinity pColl pivot same rhs vs r.2

/-! ### The meaning -/

/-- A value on the right is equal to the left one. -/
def EqualsSome (convert : Affinity → Vdbe.Value → Vdbe.Value) (affinity : Affinity)
    (pColl : CollSeq) (rhs : Rhs) (v : Vdbe.Value) : Prop :=
  ∃ e ∈ rhs.values, ValueEq (convert affinity v) (convert affinity e) pColl

/-- The IN is NULL, where no value is equal. -/
def Unknown (rhs : Rhs) (v : Vdbe.Value) : Prop :=
  (v = .null ∧ rhs.values ≠ []) ∨ .null ∈ rhs.values

/-- The code goes where the IN says; with one label for both, NULL and false are the same. -/
def Correct (convert : Affinity → Vdbe.Value → Vdbe.Value) (affinity : Affinity) (pColl : CollSeq)
    (same : Bool) (rhs : Rhs) (v : Vdbe.Value) : Dest → Prop
  | .next => EqualsSome convert affinity pColl rhs v
  | .ifNull => ¬EqualsSome convert affinity pColl rhs v ∧ (same = true ∨ Unknown rhs v)
  | .ifFalse => ¬EqualsSome convert affinity pColl rhs v ∧ (same = true ∨ ¬Unknown rhs v)

/-- The affinities keep NULL and nothing else becomes it, the entries of an index have the affinity
and are in its order, a NOT NULL column has no NULL, and for rowids the affinity is a numeric one,
which keeps integers. -/
structure Stored (convert : Affinity → Vdbe.Value → Vdbe.Value) (affinity : Affinity)
    (pColl : CollSeq) (rhs : Rhs) : Prop where
  null : ∀ v, convert affinity v = .null ↔ v = .null
  index : ∀ desc notNull entries, rhs = .index desc notNull entries →
    (∀ e ∈ entries, convert affinity e.1 = e.1) ∧
      (notNull = true → ∀ e ∈ entries, e.1 ≠ .null) ∧
      InOrder pColl desc (entries.map Prod.fst)
  rowid : ∀ ids, rhs = .rowid ids →
    (∀ v, convert affinity v = convert .numeric v) ∧ ∀ i, convert .numeric (.int i) = .int i

/-- The left value is not a real that is equal to a rowid. -/
def Integral (convert : Affinity → Vdbe.Value → Vdbe.Value) (rhs : Rhs) (v : Vdbe.Value) : Prop :=
  ∀ ids, rhs = .rowid ids → ∀ x, convert .numeric v = .real x → ∀ i ∈ ids, x.units ≠ unitsOfInt i

/-- If the right side is in an index or in an ephemeral table, no real of it is equal to the left
value, an integer, and to another integer of it. -/
def Apart (convert : Affinity → Vdbe.Value → Vdbe.Value) (affinity : Affinity) (rhs : Rhs)
    (v : Vdbe.Value) : Prop :=
  (∀ ids, rhs ≠ .rowid ids) →
    ExactAt (convert affinity v) {e | e ∈ rhs.values.map (convert affinity)}

/-! ### The probe -/

variable {convert : Affinity → Vdbe.Value → Vdbe.Value} {affinity : Affinity} {pColl : CollSeq}
  {pivot : Pivot} {same desc : Bool} {rhs : Rhs} {v key reg : Vdbe.Value}
  {records values : List Vdbe.Value}

theorem compare_null {e : Vdbe.Value} :
    sqlite3MemCompare e .null (some pColl) = 0 ↔ e = .null := by
  cases e <;> simp [sqlite3MemCompare]

/-- The records serve for the values: a key and a NULL are found if they are there. -/
structure Serves (pColl : CollSeq) (pivot : Pivot) (desc : Bool) (records values : List Vdbe.Value)
    (key : Vdbe.Value) : Prop where
  key : opFound pColl (pivot records key) desc records key = true ↔
    ∃ e ∈ values, ValueEq key e pColl
  null : opFound pColl (pivot records .null) desc records .null = true ↔ .null ∈ values

theorem serves_ephemeral (hkey : key ≠ .null) (hexact : ExactAt key {e | e ∈ values}) :
    Serves pColl pivot false (ephemeralTable pColl pivot values) values key where
  key := by
    rw [opFound_ephemeralTable _ _ hexact]
    exact exists_congr fun e => and_congr_right fun _ => compare_eq_zero_iff hkey
  null := by
    rw [opFound_ephemeralTable _ _ exactAt_null]
    simp only [compare_null, exists_eq_right]

theorem serves_index (hkey : key ≠ .null) (hs : InOrder pColl desc records)
    (hexact : ExactAt key {e | e ∈ records}) :
    Serves pColl pivot desc records records key where
  key := by
    rw [opFound_index _ hs hexact]
    exact exists_congr fun e => and_congr_right fun _ => compare_eq_zero_iff hkey
  null := by
    rw [opFound_index _ hs exactAt_null]
    simp only [compare_null, exists_eq_right]

/-- The probe, for a key that is not NULL. -/
theorem probe_spec (same : Bool) (h : Serves pColl pivot desc records values key)
    {mayHaveNull : Bool} {reg : Vdbe.Value} (hreg : mayHaveNull = true → reg = .null)
    (hnull : mayHaveNull = false → .null ∉ values) :
    match (probe pColl pivot same mayHaveNull desc records key reg).1 with
    | .next => ∃ e ∈ values, ValueEq key e pColl
    | .ifNull => (¬∃ e ∈ values, ValueEq key e pColl) ∧ .null ∈ values
    | .ifFalse => (¬∃ e ∈ values, ValueEq key e pColl) ∧ (same = true ∨ .null ∉ values) := by
  rw [probe]
  by_cases hfound : opFound pColl (pivot records key) desc records key = true
  · rw [if_pos hfound, if_pos hfound, ite_self]
    exact h.key.mp hfound
  · have hnone := mt h.key.mpr hfound
    rw [if_neg hfound, if_neg hfound]
    by_cases hknown : mayHaveNull = false ∨ same = true
    · rw [if_pos hknown]
      exact ⟨hnone, hknown.symm.imp_right hnull⟩
    · obtain ⟨hmay, -⟩ := not_or.mp hknown
      rw [if_neg hknown]
      obtain rfl := hreg (Bool.eq_true_of_not_eq_false hmay)
      by_cases hmem : .null ∈ values
      · simp only [ne_eq, not_true_eq_false, if_false, if_pos (h.null.mpr hmem), addImm]
        exact ⟨hnone, hmem⟩
      · simp only [ne_eq, not_true_eq_false, if_false, if_neg (mt h.null.mp hmem), addImm]
        exact ⟨hnone, Or.inr hmem⟩

theorem probe_correct (h : Serves pColl pivot desc records values (convert affinity v))
    (hvnull : v ≠ .null) {mayHaveNull : Bool} {reg : Vdbe.Value}
    (hreg : mayHaveNull = true → reg = .null) (hmay : mayHaveNull = false → .null ∉ values)
    (hequal : (∃ e ∈ values, ValueEq (convert affinity v) e pColl) ↔
      EqualsSome convert affinity pColl rhs v)
    (hnull : .null ∈ values ↔ .null ∈ rhs.values) :
    Correct convert affinity pColl same rhs v
      (probe pColl pivot same mayHaveNull desc records (convert affinity v) reg).1 := by
  have hspec := probe_spec same h hreg hmay
  have hunknown : Unknown rhs v ↔ .null ∈ values := by
    rw [Unknown, hnull]
    exact or_iff_right fun h => hvnull h.1
  cases hdest : (probe pColl pivot same mayHaveNull desc records (convert affinity v) reg).1 with
  | next =>
    rw [hdest] at hspec
    exact hequal.mp hspec
  | ifNull =>
    rw [hdest] at hspec
    exact ⟨mt hequal.mpr hspec.1, Or.inr (hunknown.mpr hspec.2)⟩
  | ifFalse =>
    rw [hdest] at hspec
    exact ⟨mt hequal.mpr hspec.1, hspec.2.imp_right (mt hunknown.mp)⟩

/-! ### One evaluation -/

/-- The left value is NULL. -/
theorem correct_null (hstored : Stored convert affinity pColl rhs) :
    Correct convert affinity pColl same rhs .null
      (sqlite3ExprCodeIN convert affinity pColl pivot same rhs .null reg).1 := by
  have hnone : ¬EqualsSome convert affinity pColl rhs .null := by
    rintro ⟨e, -, hv, -⟩
    exact hv ((hstored.null .null).mpr rfl)
  rw [sqlite3ExprCodeIN.eq_def]
  dsimp only
  rw [if_pos rfl]
  dsimp only
  split_ifs with hsame hempty
  · exact ⟨hnone, Or.inl hsame⟩
  · refine ⟨hnone, Or.inr ?_⟩
    rintro (⟨-, hne⟩ | hmem)
    · exact hne hempty
    · exact List.not_mem_nil (hempty ▸ hmem)
  · exact ⟨hnone, Or.inr (Or.inl ⟨rfl, hempty⟩)⟩

theorem integral_null (hstored : Stored convert affinity pColl rhs) : Integral convert rhs .null := by
  intro ids hids x hx
  obtain ⟨halike, -⟩ := hstored.rowid ids hids
  rw [← halike, (hstored.null .null).mpr rfl] at hx
  cases hx

/-- The rowids of a table. -/
theorem rowid_correct_iff {ids : List Int64} (hstored : Stored convert affinity pColl (.rowid ids))
    (hv : v ≠ .null) :
    Correct convert affinity pColl same (.rowid ids) v
        (sqlite3ExprCodeIN convert affinity pColl pivot same (.rowid ids) v reg).1 ↔
      Integral convert (.rowid ids) v := by
  obtain ⟨halike, hint⟩ := hstored.rowid ids rfl
  have hkey : convert .numeric v ≠ .null := by
    rw [← halike]
    exact mt (hstored.null v).mp hv
  have hknown : ¬Unknown (.rowid ids) v := by
    rintro (⟨hnull, -⟩ | hmem)
    · exact hv hnull
    · obtain ⟨i, -, hi⟩ := List.mem_map.mp hmem
      cases hi
  have hequal : EqualsSome convert affinity pColl (.rowid ids) v ↔
      ∃ i ∈ ids, sqlite3MemCompare (convert .numeric v) (.int i) (some pColl) = 0 := by
    constructor
    · rintro ⟨e, he, -, -, heq⟩
      obtain ⟨i, hi, rfl⟩ := List.mem_map.mp he
      rw [halike, halike, hint] at heq
      exact ⟨i, hi, heq⟩
    · rintro ⟨i, hi, heq⟩
      refine ⟨.int i, List.mem_map.mpr ⟨i, hi, rfl⟩, ?_⟩
      rw [halike, halike, hint]
      exact ⟨hkey, nofun, heq⟩
  have hfalse : Correct convert affinity pColl same (.rowid ids) v .ifFalse ↔
      ¬∃ i ∈ ids, sqlite3MemCompare (convert .numeric v) (.int i) (some pColl) = 0 := by
    rw [← hequal]
    exact and_iff_left (Or.inr hknown)
  rw [sqlite3ExprCodeIN, if_neg hv]
  cases hw : convert .numeric v with
  | null => exact absurd hw hkey
  | int j =>
    have hintegral : Integral convert (.rowid ids) v := by
      intro _ _ x hx
      rw [hw] at hx
      cases hx
    rw [hw] at hequal hfalse
    refine iff_of_true ?_ hintegral
    dsimp only
    split_ifs with hj
    · exact hequal.mpr ⟨j, hj, (compare_int j j).mpr rfl⟩
    · refine hfalse.mpr ?_
      rintro ⟨i, hi, heq⟩
      exact hj ((compare_int j i).mp heq ▸ hi)
  | real x =>
    rw [hw] at hfalse
    refine hfalse.trans ⟨fun h ids' hids y hy i hi heq => ?_, fun h => ?_⟩
    · obtain rfl := Rhs.rowid.inj hids
      rw [hw] at hy
      obtain rfl := Value.real.inj hy
      exact h ⟨i, hi, threeWay_eq_zero.mpr heq⟩
    · rintro ⟨i, hi, heq⟩
      exact h ids rfl x hw i hi (threeWay_eq_zero.mp heq)
  | text | blob =>
    rw [hw] at hfalse
    refine iff_of_true (hfalse.mpr ?_) ?_
    · rintro ⟨i, -, heq⟩
      cases heq
    · intro _ _ x hx
      rw [hw] at hx
      cases hx

/-- An index. -/
theorem index_correct {notNull : Bool} {entries : List (Vdbe.Value × List Vdbe.Value)}
    (hstored : Stored convert affinity pColl (.index desc notNull entries)) (hv : v ≠ .null)
    (hapart : Apart convert affinity (.index desc notNull entries) v) :
    Correct convert affinity pColl same (.index desc notNull entries) v
      (sqlite3ExprCodeIN convert affinity pColl pivot same (.index desc notNull entries) v reg).1 := by
  obtain ⟨hkept, hnotNull, horder⟩ := hstored.index desc notNull entries rfl
  have hmap : (entries.map Prod.fst).map (convert affinity) = entries.map Prod.fst :=
    (List.map_map ..).trans (List.map_congr_left hkept)
  have hexact := hapart fun ids h => Rhs.noConfusion h
  rw [Rhs.values, hmap] at hexact
  rw [sqlite3ExprCodeIN, if_neg hv]
  refine probe_correct (serves_index (mt (hstored.null v).mp hv) horder hexact) hv
    (fun hmay => if_pos hmay) ?_ ?_ Iff.rfl
  · intro hmay hmem
    obtain ⟨e, he, hnull⟩ := List.mem_map.mp hmem
    exact hnotNull (by simpa using hmay) e he hnull
  · refine exists_congr fun e => and_congr_right fun he => ?_
    obtain ⟨p, hp, rfl⟩ := List.mem_map.mp he
    rw [hkept p hp]

/-- An ephemeral table. -/
theorem ephemeral_correct {values : List Vdbe.Value}
    (hstored : Stored convert affinity pColl (.ephemeral values)) (hv : v ≠ .null)
    (hapart : Apart convert affinity (.ephemeral values) v) :
    Correct convert affinity pColl same (.ephemeral values) v
      (sqlite3ExprCodeIN convert affinity pColl pivot same (.ephemeral values) v reg).1 := by
  have hexact := hapart fun ids h => Rhs.noConfusion h
  rw [sqlite3ExprCodeIN, if_neg hv]
  refine probe_correct (serves_ephemeral (mt (hstored.null v).mp hv) hexact) hv (fun _ => rfl)
    (fun h => absurd h Bool.noConfusion) ?_ ?_
  · constructor
    · rintro ⟨e, he, heq⟩
      obtain ⟨u, hu, rfl⟩ := List.mem_map.mp he
      exact ⟨u, hu, heq⟩
    · rintro ⟨u, hu, heq⟩
      exact ⟨_, List.mem_map.mpr ⟨u, hu, rfl⟩, heq⟩
  · constructor
    · intro hmem
      obtain ⟨e, he, hnull⟩ := List.mem_map.mp hmem
      exact (hstored.null e).mp hnull ▸ he
    · exact fun hmem => List.mem_map.mpr ⟨_, hmem, (hstored.null .null).mpr rfl⟩

theorem correct_of (hstored : Stored convert affinity pColl rhs) (hint : Integral convert rhs v)
    (hapart : Apart convert affinity rhs v) :
    Correct convert affinity pColl same rhs v
      (sqlite3ExprCodeIN convert affinity pColl pivot same rhs v reg).1 := by
  by_cases hv : v = .null
  · subst hv
    exact correct_null hstored
  · cases rhs with
    | rowid ids => exact (rowid_correct_iff hstored hv).mpr hint
    | index desc notNull entries => exact index_correct hstored hv hapart
    | ephemeral values => exact ephemeral_correct hstored hv hapart

theorem integral_of {ids : List Int64} (hstored : Stored convert affinity pColl (.rowid ids))
    (h : Correct convert affinity pColl same (.rowid ids) v
      (sqlite3ExprCodeIN convert affinity pColl pivot same (.rowid ids) v reg).1) :
    Integral convert (.rowid ids) v := by
  by_cases hv : v = .null
  · subst hv
    exact integral_null hstored
  · exact (rowid_correct_iff hstored hv).mp h

/-- 2^63 as a real. -/
def real63 : Double := ⟨0x43E0000000000000, by decide⟩

end InOperator

end Sql

end SqliteVms

import SqliteVms.Sql.EphemeralTable

/-!
# An OR as an IN

`exprAnalyzeOrTerm` of `where.c` makes `x IN (e1, e2, ..)` of `x = e1 OR e2 = x OR ..`. An equality
of two columns is in the clause twice, as it is and commuted. The column on the left of the IN has
to be in every subterm, and the affinities of the subterms have to be those of the IN.

## Main definitions

* `Operand`, `Disjunct` — a subterm of the OR
* `exprAnalyze`, `orTerms` — the terms with their commuted copies
* `exprAnalyzeOrTerm` — the search for a column, and the terms of the list
* `EqTrue`, `InTrue` — the meaning of `=` and of `IN`
-/

namespace SqliteVms

namespace Sql

namespace OrToIn

open Vdbe Comparison

/-- The affinities. -/
inductive Affinity
  | text
  | none
  | numeric
  | integer
  | real
  deriving DecidableEq

/-- A column: cursor and number. -/
abbrev Column := ℕ × ℤ

/-- `getMask`, as a set of cursors. -/
def getMask (tables : Finset ℕ) (iCursor : ℕ) : Finset ℕ :=
  if iCursor ∈ tables then {iCursor} else ∅

/-- One side of `=`: the column that it is, without its `COLLATE` operators, the flag `EP_Collate`,
`sqlite3ExprCollSeq`, `sqlite3ExprAffinity`, the tables it uses and its value for the stored
values. -/
structure Operand (N : Type*) (tables : Finset ℕ) (affinity : Column → Option Affinity) where
  column : Option Column
  epCollate : Bool
  collSeq : Option N
  aff : Option Affinity
  usage : Finset ℕ
  value : (Column → Vdbe.Value) → Vdbe.Value
  column_spec : ∀ c ∈ column, aff = affinity c ∧ usage = getMask tables c.1 ∧ ∀ ρ, value ρ = ρ c

/-- A subterm: an equality, or something for which `chngToIN` is 0. -/
inductive Disjunct (N : Type*) (tables : Finset ℕ) (affinity : Column → Option Affinity)
  | eq (pLeft pRight : Operand N tables affinity)
  | other (holds : (Column → Vdbe.Value) → Prop)

variable {N : Type*} {tables : Finset ℕ} {affinity : Column → Option Affinity}

/-! ### Terms -/

/-- `exprCommute`, the new left side first. -/
def exprCommute (pLeft pRight : Operand N tables affinity) :
    Operand N tables affinity × Operand N tables affinity :=
  if pRight.epCollate = pLeft.epCollate then
    if pRight.epCollate = true then ({ pRight with epCollate := false }, pLeft)
    else if pLeft.collSeq.isSome = true then (pRight, { pLeft with epCollate := true })
    else (pRight, pLeft)
  else (pRight, pLeft)

/-- A term with `WO_EQ`: `leftCursor` and `leftColumn` are of its left side. -/
structure OrTerm (N : Type*) (tables : Finset ℕ) (affinity : Column → Option Affinity) where
  pLeft : Operand N tables affinity
  pRight : Operand N tables affinity
  left : Column
  left_spec : pLeft.column = some left

theorem exprCommute_column {pLeft pRight : Operand N tables affinity} :
    (exprCommute pLeft pRight).1.column = pRight.column := by
  rw [exprCommute]
  split_ifs <;> rfl

/-- `exprAnalyze` of an equality: the term and its commuted copy, and none without `WO_EQ`. -/
def exprAnalyze : Disjunct N tables affinity →
    Option (OrTerm N tables affinity × Option (OrTerm N tables affinity))
  | .other _ => none
  | .eq pLeft pRight =>
    if ¬Disjoint pRight.usage pLeft.usage then none
    else
      match hl : pLeft.column, hr : pRight.column with
      | some c, some d =>
        some (⟨pLeft, pRight, c, hl⟩, some ⟨(exprCommute pLeft pRight).1,
          (exprCommute pLeft pRight).2, d, exprCommute_column.trans hr⟩)
      | some c, none => some (⟨pLeft, pRight, c, hl⟩, none)
      | none, some d =>
        some (⟨(exprCommute pLeft pRight).1, (exprCommute pLeft pRight).2, d,
          exprCommute_column.trans hr⟩, none)
      | none, none => none

/-- The terms of `pOrWc`: the subterms are analyzed from the last to the first. -/
def orTerms (ds : List (OrTerm N tables affinity × Option (OrTerm N tables affinity))) :
    List (OrTerm N tables affinity) :=
  ds.map Prod.fst ++ ds.reverse.filterMap Prod.snd

/-! ### The search for a column -/

/-- What a subterm leaves of `chngToIN`. -/
def mask (d : OrTerm N tables affinity × Option (OrTerm N tables affinity)) : Finset ℕ :=
  match d.2 with
  | none => getMask tables d.1.left.1
  | some pOrTerm => getMask tables pOrTerm.left.1 ∪ getMask tables d.1.left.1

/-- `chngToIN`, after the loop over the terms. -/
def chngToIN (ds : List (OrTerm N tables affinity × Option (OrTerm N tables affinity))) :
    Finset ℕ := ds.foldl (fun b d => b ∩ mask d) tables

/-- The terms with `TERM_OR_OK`. -/
abbrev Flagged (N : Type*) (tables : Finset ℕ) (affinity : Column → Option Affinity) :=
  List (OrTerm N tables affinity × Bool)

/-- The terms before the next candidate, and the ones from there on. -/
def skipTerms (chngToIN : Finset ℕ) (iCursor : Option ℕ) :
    Flagged N tables affinity → Flagged N tables affinity × Flagged N tables affinity
  | [] => ([], [])
  | (t, _) :: ts =>
    if some t.left.1 = iCursor ∨ chngToIN ∩ getMask tables t.left.1 = ∅ then
      let r := skipTerms chngToIN iCursor ts
      ((t, false) :: r.1, r.2)
    else ([], (t, false) :: ts)

/-- The candidate is checked; the first component is `okToChngToIN`. -/
def checkTerms (c : Column) : Flagged N tables affinity → Bool × Flagged N tables affinity
  | [] => (true, [])
  | (t, ok) :: ts =>
    if t.left.1 ≠ c.1 then
      let r := checkTerms c ts
      (r.1, (t, false) :: r.2)
    else if t.left.2 ≠ c.2 then (false, (t, ok) :: ts)
    else if t.pRight.aff ≠ none ∧ t.pRight.aff ≠ t.pLeft.aff then (false, (t, ok) :: ts)
    else
      let r := checkTerms c ts
      (r.1, (t, true) :: r.2)

/-- The loop over `j`: the column and the terms, where `okToChngToIN` is set. -/
def searchColumn (chngToIN : Finset ℕ) :
    ℕ → Option ℕ → Flagged N tables affinity → Option (Column × Flagged N tables affinity)
  | 0, _, _ => none
  | j + 1, iCursor, ts =>
    let (skipped, rest) := skipTerms chngToIN iCursor ts
    match rest with
    | [] => none
    | (t, ok) :: ts =>
      let r := checkTerms t.left ((t, ok) :: ts)
      if r.1 = true then some (t.left, skipped ++ r.2)
      else searchColumn chngToIN j (some t.left.1) (skipped ++ r.2)

/-- `exprAnalyzeOrTerm`: the column and the terms with `TERM_OR_OK`, of which the last one gives the
left side of the IN, where the OR is made an IN. -/
def exprAnalyzeOrTerm (pExpr : List (Disjunct N tables affinity)) :
    Option (Column × List (OrTerm N tables affinity)) :=
  (pExpr.mapM exprAnalyze).bind fun ds =>
    if chngToIN ds = ∅ then none
    else
      (searchColumn (chngToIN ds) 2 none ((orTerms ds).map (·, false))).map fun r =>
        (r.1, (r.2.filter Prod.snd).map Prod.fst)

/-! ### The meaning of `=` and of `IN` -/

def sqlite3IsNumericAffinity : Affinity → Bool
  | .text => false
  | .none => false
  | _ => true

def sqlite3CompareAffinity (aff1 aff2 : Option Affinity) : Affinity :=
  match aff1, aff2 with
  | some a, some b =>
    if sqlite3IsNumericAffinity a || sqlite3IsNumericAffinity b then .numeric else .none
  | none, none => .none
  | some a, none => a
  | none, some b => b

def sqlite3BinaryCompareCollSeq (pLeft pRight : Operand N tables affinity) : Option N :=
  if pLeft.epCollate = true then pLeft.collSeq
  else if pRight.epCollate = true then pRight.collSeq
  else if pLeft.collSeq.isSome = true then pLeft.collSeq
  else pRight.collSeq

/-- Two values are equal, neither of them NULL. -/
def ValueEq (v e : Vdbe.Value) (pColl : CollSeq) : Prop :=
  v ≠ .null ∧ e ≠ .null ∧ sqlite3MemCompare v e (some pColl) = 0

/-- `pLeft = pRight` is true; `convert` applies an affinity, `xColl` has the default for none. -/
def EqTrue (convert : Affinity → Vdbe.Value → Vdbe.Value) (xColl : Option N → CollSeq)
    (ρ : Column → Vdbe.Value) (pLeft pRight : Operand N tables affinity) : Prop :=
  let aff := sqlite3CompareAffinity pRight.aff pLeft.aff
  ValueEq (convert aff (pLeft.value ρ)) (convert aff (pRight.value ρ))
    (xColl (sqlite3BinaryCompareCollSeq pLeft pRight))

/-- The values of the list, as `OP_MakeRecord` puts them into the ephemeral table. -/
def inValues (convert : Affinity → Vdbe.Value → Vdbe.Value) (ρ : Column → Vdbe.Value)
    (pLeft : Operand N tables affinity) (pList : List (Operand N tables affinity)) :
    List Vdbe.Value :=
  pList.map fun e => convert (pLeft.aff.getD .none) (e.value ρ)

/-- `pLeft IN (pList)` is true: the left value is found in the ephemeral table. -/
def InTrue (convert : Affinity → Vdbe.Value → Vdbe.Value) (xColl : Option N → CollSeq)
    (pivot : List Vdbe.Value → Vdbe.Value → ℕ → ℕ) (ρ : Column → Vdbe.Value)
    (pLeft : Operand N tables affinity) (pList : List (Operand N tables affinity)) : Prop :=
  let pColl := xColl pLeft.collSeq
  let table := ephemeralTable pColl pivot (inValues convert ρ pLeft pList)
  let key := convert (pLeft.aff.getD .none) (pLeft.value ρ)
  key ≠ .null ∧ opFound pColl (pivot table key) false table key = true

/-- A subterm is true. -/
def Disjunct.Holds (convert : Affinity → Vdbe.Value → Vdbe.Value) (xColl : Option N → CollSeq)
    (ρ : Column → Vdbe.Value) : Disjunct N tables affinity → Prop
  | .eq pLeft pRight => EqTrue convert xColl ρ pLeft pRight
  | .other holds => holds ρ

/-- What is stored in a column, or cast, has its affinity, which converts it no more. -/
structure Stored (convert : Affinity → Vdbe.Value → Vdbe.Value) (ρ : Column → Vdbe.Value)
    (pExpr : List (Disjunct N tables affinity)) : Prop where
  none : ∀ v, convert .none v = v
  kept : ∀ l r, .eq l r ∈ pExpr → ∀ o, o = l ∨ o = r → ∀ a, o.aff = some a →
    convert a (o.value ρ) = o.value ρ ∧
      (sqlite3IsNumericAffinity a = true → convert .numeric (o.value ρ) = o.value ρ)

/-- A term stands for a subterm: it is the subterm or its commuted copy, with the column on its
left, and its right side has no affinity or the same. -/
structure Represents (c : Column) (d : Disjunct N tables affinity) (t : OrTerm N tables affinity) :
    Prop where
  left : t.left = c
  aff : t.pRight.aff = none ∨ t.pRight.aff = t.pLeft.aff
  eq : ∃ l r, d = .eq l r ∧
    ((t.pLeft, t.pRight) = (l, r) ∨ (t.pLeft, t.pRight) = exprCommute l r)

end OrToIn

end Sql

end SqliteVms

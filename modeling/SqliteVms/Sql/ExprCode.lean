import SqliteVms.Lib.Segment
import SqliteVms.Vdbe.Logic

/-!
# Code for boolean expressions

`expr.c` has two ways to code a boolean expression. `sqlite3ExprCodeTarget` leaves its value in a
register; `sqlite3ExprIfTrue` and `sqlite3ExprIfFalse` jump on it. The opcodes they use are those of
`vdbe.c`.

The leaves are values, so the operands of a comparison have neither an affinity nor a collating
sequence, and the column cache of the parser is empty. The affinity in `P5` is `SQLITE_AFF_NONE`,
which converts nothing, and is left out.

## Main definitions

* `Expr` — expressions
* `Op`, `step` — the opcodes, and what the machine does with them
* `Parse` — the code so far, its labels and the registers
* `sqlite3ExprCodeTarget`, `sqlite3ExprIfTrue`, `sqlite3ExprIfFalse` — the code generator
-/

namespace SqliteVms

open Vdbe

namespace Code

/-! ### Expressions -/

/-- The comparisons, which are opcodes too. -/
inductive Cmp
  | ne | eq | gt | le | lt | ge
  deriving DecidableEq

/-- `TK_NE` and the others. -/
def Cmp.token : Cmp → ℕ
  | .ne => 75
  | .eq => 76
  | .gt => 77
  | .le => 78
  | .lt => 79
  | .ge => 80

/-- `TK_ISNULL` and `TK_NOTNULL`. -/
inductive NullTest
  | isNull | notNull
  deriving DecidableEq

/-- See `NullTest`. -/
def NullTest.token : NullTest → ℕ
  | .isNull => 73
  | .notNull => 74

/-- An expression. `register` is `TK_REGISTER`, which only the code generator makes. -/
inductive Expr
  | value (v : Value)
  | register (iTable : ℕ)
  | and (pLeft pRight : Expr)
  | or (pLeft pRight : Expr)
  | not (pLeft : Expr)
  | cmp (op : Cmp) (pLeft pRight : Expr)
  | is (pLeft pRight : Expr)
  | isNot (pLeft pRight : Expr)
  | null (op : NullTest) (pLeft : Expr)
  | between (pLeft pLow pHigh : Expr)

namespace Expr

/-- What recursion on expressions goes down in: a `BETWEEN` is larger than the `AND` it is coded
as. -/
def size : Expr → ℕ
  | .value _ => 0
  | .register _ => 0
  | .and x y => x.size + y.size + 1
  | .or x y => x.size + y.size + 1
  | .not x => x.size + 1
  | .cmp _ x y => x.size + y.size + 1
  | .is x y => x.size + y.size + 1
  | .isNot x y => x.size + y.size + 1
  | .null _ x => x.size + 1
  | .between x y z => x.size + y.size + z.size + 4

/-- The registers an expression reads. -/
def regs : Expr → List ℕ
  | .value _ => []
  | .register r => [r]
  | .and x y => x.regs ++ y.regs
  | .or x y => x.regs ++ y.regs
  | .not x => x.regs
  | .cmp _ x y => x.regs ++ y.regs
  | .is x y => x.regs ++ y.regs
  | .isNot x y => x.regs ++ y.regs
  | .null _ x => x.regs
  | .between x y z => x.regs ++ y.regs ++ z.regs

end Expr

/-! ### The machine -/

/-- The flags of `P5`: `SQLITE_STOREP2`, `SQLITE_NULLEQ` and `SQLITE_JUMPIFNULL`. -/
structure P5 where
  storeP2 : Bool
  nullEq : Bool
  jumpIfNull : Bool

/-- The opcodes. `const` is `OP_Integer`, `OP_Int64`, `OP_Real`, `OP_String8` or `OP_Null`; a `p2`
that is negative is a label. -/
inductive Op
  | const (v : Value) (p2 : ℕ)
  | compare (opcode p1 : ℕ) (p2 : ℤ) (p3 : ℕ) (p5 : P5)
  | and (p1 p2 p3 : ℕ)
  | or (p1 p2 p3 : ℕ)
  | not (p1 p2 : ℕ)
  | ifTrue (p1 : ℕ) (p2 : ℤ) (p3 : Bool)
  | ifNot (p1 : ℕ) (p2 : ℤ) (p3 : Bool)
  | null (opcode p1 : ℕ) (p2 : ℤ)
  | addImm (p1 : ℕ) (p2 : Int64)

/-- `Parse`, with its `Vdbe`. -/
structure Parse where
  aOp : List Op
  aLabel : List (Option ℕ)
  nMem : ℕ
  aTempReg : List ℕ

/-- The registers. -/
abbrev Regs := ℕ → Value

namespace Parse

variable (p : Parse)

def nOp : ℕ := p.aOp.length

/-- Where a jump goes. -/
def addr (p2 : ℤ) : ℕ := if p2 < 0 then (p.aLabel.getD (-1 - p2).toNat none).getD 0 else p2.toNat

end Parse

/-- The end of `OP_Eq` and its relatives: what the opcode makes of the order of its operands. -/
def compareResult (opcode : ℕ) (res : ℤ) : Bool :=
  if opcode = 76 then res = 0
  else if opcode = 75 then res ≠ 0
  else if opcode = 79 then res < 0
  else if opcode = 78 then res ≤ 0
  else if opcode = 77 then 0 < res
  else 0 ≤ res

/-- What `OP_Eq` and its relatives find. `none` is NULL. -/
def compareOp (opcode : ℕ) (nullEq : Bool) (pIn1 pIn3 : Value) : Truth :=
  if pIn1 = .null ∨ pIn3 = .null then
    if nullEq then some (compareResult opcode (if pIn1 = .null ∧ pIn3 = .null then 0 else 1)) else none
  else some (compareResult opcode (sqlite3MemCompare pIn3 pIn1 none))

/-- One step of the machine, from a program counter and registers. -/
def step (R : Reading) (p : Parse) : ℕ × Regs → Option (ℕ × Regs)
  | (pc, m) => do
    match ← p.aOp[pc]? with
    | .const v p2 => some (pc + 1, Function.update m p2 v)
    | .compare opcode p1 p2 p3 p5 =>
      let res := compareOp opcode p5.nullEq (m p1) (m p3)
      if p5.storeP2 then some (pc + 1, Function.update m p2.toNat (ofTruth res))
      else some (if res.getD p5.jumpIfNull then p.addr p2 else pc + 1, m)
    | .and p1 p2 p3 => some (pc + 1, Function.update m p3 (opLogic R andLogic (m p1) (m p2)))
    | .or p1 p2 p3 => some (pc + 1, Function.update m p3 (opLogic R orLogic (m p1) (m p2)))
    | .not p1 p2 => some (pc + 1, Function.update m p2 (opNot R (m p1)))
    | .ifTrue p1 p2 p3 => some (if (realTruth R (m p1)).jumps true p3 then p.addr p2 else pc + 1, m)
    | .ifNot p1 p2 p3 => some (if (realTruth R (m p1)).jumps false p3 then p.addr p2 else pc + 1, m)
    | .null opcode p1 p2 =>
      let taken := if opcode = 73 then m p1 = .null else m p1 ≠ .null
      some (if taken then p.addr p2 else pc + 1, m)
    | .addImm p1 p2 =>
      some (pc + 1, Function.update m p1 (.int (sqlite3VdbeIntValue R (m p1) + p2)))

/-! ### The code generator -/

namespace Parse

variable (p : Parse)

/-- `sqlite3VdbeAddOp3` and its relatives. -/
def addOp (op : Op) : Parse := { p with aOp := p.aOp ++ [op] }

/-- `sqlite3VdbeMakeLabel`. -/
def makeLabel : ℤ × Parse := (-1 - p.aLabel.length, { p with aLabel := p.aLabel ++ [none] })

/-- `sqlite3VdbeResolveLabel`. -/
def resolveLabel (x : ℤ) : Parse := { p with aLabel := p.aLabel.set (-1 - x).toNat (some p.nOp) }

/-- `sqlite3VdbeJumpHere`, for the opcode of a `NullTest`. -/
def jumpHere (addr : ℕ) : Parse :=
  { p with
    aOp := p.aOp.modify addr fun op =>
      match op with
      | .null opcode p1 _ => .null opcode p1 p.nOp
      | op => op }

def sqlite3GetTempReg : ℕ × Parse :=
  match p.aTempReg with
  | [] => (p.nMem + 1, { p with nMem := p.nMem + 1 })
  | r :: rest => (r, { p with aTempReg := rest })

def sqlite3ReleaseTempReg (iReg : ℕ) : Parse :=
  if iReg ≠ 0 ∧ p.aTempReg.length < 8 then { p with aTempReg := iReg :: p.aTempReg } else p

/-- `sqlite3ExprCodeTemp`, with the code for the expression: the register of the result, the register
to be released, and the parser. -/
def exprCodeTemp (code : ℕ → Parse → ℕ × Parse) : ℕ × ℕ × Parse :=
  let (r1, p) := p.sqlite3GetTempReg
  let (r2, p) := code r1 p
  if r2 = r1 then (r2, r1, p) else (r2, 0, p.sqlite3ReleaseTempReg r1)

def codeCompare (opcode in1 in2 : ℕ) (dest : ℤ) (p5 : P5) : Parse :=
  p.addOp (.compare opcode in2 dest in1 p5)

end Parse

open Parse

/-- A comparison coded to a register. -/
def codeCompareTarget (opcode : ℕ) (nullEq : Bool) (left right : ℕ → Parse → ℕ × Parse)
    (target : ℕ) (p : Parse) : ℕ × Parse :=
  let (r1, regFree1, p) := p.exprCodeTemp left
  let (r2, regFree2, p) := p.exprCodeTemp right
  let p := p.codeCompare opcode r1 r2 target ⟨true, nullEq, false⟩
  (target, (p.sqlite3ReleaseTempReg regFree1).sqlite3ReleaseTempReg regFree2)

/-- A binary operator coded to a register. -/
def codeBinary (op : ℕ → ℕ → ℕ → Op) (left right : ℕ → Parse → ℕ × Parse)
    (target : ℕ) (p : Parse) : ℕ × Parse :=
  let (r1, regFree1, p) := p.exprCodeTemp left
  let (r2, regFree2, p) := p.exprCodeTemp right
  let p := p.addOp (op r2 r1 target)
  (target, (p.sqlite3ReleaseTempReg regFree1).sqlite3ReleaseTempReg regFree2)

def sqlite3ExprCodeTarget : Expr → ℕ → Parse → ℕ × Parse
  | .value v, target, p => (target, p.addOp (.const v target))
  | .register iTable, _, p => (iTable, p)
  | .cmp op x y, target, p =>
    codeCompareTarget op.token false (sqlite3ExprCodeTarget x) (sqlite3ExprCodeTarget y) target p
  | .is x y, target, p =>
    codeCompareTarget Cmp.eq.token true (sqlite3ExprCodeTarget x) (sqlite3ExprCodeTarget y) target p
  | .isNot x y, target, p =>
    codeCompareTarget Cmp.ne.token true (sqlite3ExprCodeTarget x) (sqlite3ExprCodeTarget y) target p
  | .and x y, target, p =>
    codeBinary .and (sqlite3ExprCodeTarget x) (sqlite3ExprCodeTarget y) target p
  | .or x y, target, p =>
    codeBinary .or (sqlite3ExprCodeTarget x) (sqlite3ExprCodeTarget y) target p
  | .not x, target, p =>
    let (r1, regFree1, p) := p.exprCodeTemp (sqlite3ExprCodeTarget x)
    (target, (p.addOp (.not r1 target)).sqlite3ReleaseTempReg regFree1)
  | .null op x, target, p =>
    let p := p.addOp (.const (.int 1) target)
    let (r1, regFree1, p) := p.exprCodeTemp (sqlite3ExprCodeTarget x)
    let addr := p.nOp
    let p := ((p.addOp (.null op.token r1 0)).addOp (.addImm target (-1))).jumpHere addr
    (target, p.sqlite3ReleaseTempReg regFree1)
  | .between x y z, target, p =>
    let (r1, regFree1, p) := p.exprCodeTemp (sqlite3ExprCodeTarget x)
    let (r2, regFree2, p) := p.exprCodeTemp (sqlite3ExprCodeTarget y)
    let (r3, p) := p.sqlite3GetTempReg
    let (r4, p) := p.sqlite3GetTempReg
    let p := p.codeCompare Cmp.ge.token r1 r2 r3 ⟨true, false, false⟩
    let p := p.sqlite3ReleaseTempReg regFree2
    let (r2, regFree2, p) := p.exprCodeTemp (sqlite3ExprCodeTarget z)
    let p := p.codeCompare Cmp.le.token r1 r2 r4 ⟨true, false, false⟩
    let p := p.addOp (.and r3 r4 target)
    let p := (p.sqlite3ReleaseTempReg r3).sqlite3ReleaseTempReg r4
    (target, (p.sqlite3ReleaseTempReg regFree1).sqlite3ReleaseTempReg regFree2)

def sqlite3ExprCodeTemp (e : Expr) (p : Parse) : ℕ × ℕ × Parse :=
  p.exprCodeTemp (sqlite3ExprCodeTarget e)

/-- A comparison coded as a jump. -/
def codeCompareJump (opcode : ℕ) (x y : Expr) (dest : ℤ) (p5 : P5) (p : Parse) : Parse :=
  let (r1, regFree1, p) := sqlite3ExprCodeTemp x p
  let (r2, regFree2, p) := sqlite3ExprCodeTemp y p
  let p := p.codeCompare opcode r1 r2 dest p5
  (p.sqlite3ReleaseTempReg regFree1).sqlite3ReleaseTempReg regFree2

/-- An opcode that jumps on one value. -/
def codeJump (op : ℕ → Op) (x : Expr) (p : Parse) : Parse :=
  let (r1, regFree1, p) := sqlite3ExprCodeTemp x p
  (p.addOp (op r1)).sqlite3ReleaseTempReg regFree1

/-- The opcode for the negation, as `sqlite3ExprIfFalse` computes it. -/
def negated (op : ℕ) : ℕ :=
  ((op + (NullTest.isNull.token &&& 1)) ^^^ 1) - (NullTest.isNull.token &&& 1)

/-- `exprAnd` of `exprCodeBetween`. -/
def exprAnd (r : ℕ) (y z : Expr) : Expr :=
  .and (.cmp .ge (.register r) y) (.cmp .le (.register r) z)

theorem size_exprAnd (r : ℕ) (x y z : Expr) : (exprAnd r y z).size < (Expr.between x y z).size := by
  simp only [exprAnd, Expr.size]
  omega

mutual

def sqlite3ExprIfTrue (e : Expr) (dest : ℤ) (jumpIfNull : Bool) (p : Parse) : Parse :=
  match e with
  | .and x y =>
    let (d2, p) := p.makeLabel
    let p := sqlite3ExprIfFalse x d2 (!jumpIfNull) p
    (sqlite3ExprIfTrue y dest jumpIfNull p).resolveLabel d2
  | .or x y => sqlite3ExprIfTrue y dest jumpIfNull (sqlite3ExprIfTrue x dest jumpIfNull p)
  | .not x => sqlite3ExprIfFalse x dest jumpIfNull p
  | .cmp op x y => codeCompareJump op.token x y dest ⟨false, false, jumpIfNull⟩ p
  | .is x y => codeCompareJump Cmp.eq.token x y dest ⟨false, true, false⟩ p
  | .isNot x y => codeCompareJump Cmp.ne.token x y dest ⟨false, true, false⟩ p
  | .null op x => codeJump (.null op.token · dest) x p
  | .between x y z =>
    let (r, regFree1, p) := sqlite3ExprCodeTemp x p
    (sqlite3ExprIfTrue (exprAnd r y z) dest jumpIfNull p).sqlite3ReleaseTempReg regFree1
  | e => codeJump (.ifTrue · dest jumpIfNull) e p
termination_by e.size
decreasing_by all_goals first | exact size_exprAnd _ _ _ _ | (simp only [Expr.size]; omega)

def sqlite3ExprIfFalse (e : Expr) (dest : ℤ) (jumpIfNull : Bool) (p : Parse) : Parse :=
  match e with
  | .and x y => sqlite3ExprIfFalse y dest jumpIfNull (sqlite3ExprIfFalse x dest jumpIfNull p)
  | .or x y =>
    let (d2, p) := p.makeLabel
    let p := sqlite3ExprIfTrue x d2 (!jumpIfNull) p
    (sqlite3ExprIfFalse y dest jumpIfNull p).resolveLabel d2
  | .not x => sqlite3ExprIfTrue x dest jumpIfNull p
  | .cmp op x y => codeCompareJump (negated op.token) x y dest ⟨false, false, jumpIfNull⟩ p
  | .is x y => codeCompareJump Cmp.ne.token x y dest ⟨false, true, false⟩ p
  | .isNot x y => codeCompareJump Cmp.eq.token x y dest ⟨false, true, false⟩ p
  | .null op x => codeJump (.null (negated op.token) · dest) x p
  | .between x y z =>
    let (r, regFree1, p) := sqlite3ExprCodeTemp x p
    (sqlite3ExprIfFalse (exprAnd r y z) dest jumpIfNull p).sqlite3ReleaseTempReg regFree1
  | e => codeJump (.ifNot · dest jumpIfNull) e p
termination_by e.size
decreasing_by all_goals first | exact size_exprAnd _ _ _ _ | (simp only [Expr.size]; omega)

end

-- the two jump coders swap places under a negation
example (x : Expr) (dest : ℤ) (j : Bool) (p : Parse) :
    sqlite3ExprIfTrue (.not (.not x)) dest j p = sqlite3ExprIfTrue x dest j p := by
  rw [sqlite3ExprIfTrue, sqlite3ExprIfFalse]

end Code

end SqliteVms

import SqliteVms.Sql.Token
import SqliteVms.Vdbe.Mem

/-!
# Values as booleans

Two families of opcodes of `vdbe.c` take a value for a truth value. `OP_And`, `OP_Or` and `OP_Not` ask
whether its integer value is zero, `OP_If` and `OP_IfNot` whether its real value is. For a real
between -1 and 1, and for a text of one, the answers differ.

The result of a logical opcode is 0, 1 or NULL, and there the answers agree.

## Main definitions

* `sqlite3VdbeIntValue`, `realValue` — the two readings of a value
* `intTruth`, `realTruth` — whether it is true, by each of them
* `opLogic`, `opNot` — `OP_And`, `OP_Or` and `OP_Not`
* `Truth.and`, `Truth.or`, `Truth.not` — the three-valued logic they follow
-/

namespace SqliteVms

/-- A truth value of SQL; `none` is NULL. -/
abbrev Truth := Option Bool

namespace Truth

def and : Truth → Truth → Truth
  | some false, _ => some false
  | _, some false => some false
  | some true, some true => some true
  | _, _ => none

def or : Truth → Truth → Truth
  | some true, _ => some true
  | _, some true => some true
  | some false, some false => some false
  | _, _ => none

def not (t : Truth) : Truth := t.map Bool.not

/-- Whether a jump is taken that is for the truth value `b`, and for NULL if `jumpIfNull`. -/
def jumps (b jumpIfNull : Bool) (t : Truth) : Bool := t.elim jumpIfNull (· == b)

theorem and_comm (s t : Truth) : s.and t = t.and s := by
  rcases s with _ | _ | _ <;> rcases t with _ | _ | _ <;> rfl

theorem or_comm (s t : Truth) : s.or t = t.or s := by
  rcases s with _ | _ | _ <;> rcases t with _ | _ | _ <;> rfl

/-- A jump that is taken if true, and on NULL if `j`. -/
theorem jumps_true (t : Truth) (j : Bool) : t.jumps true j = t.getD j := by
  rcases t with _ | _ | _ <;> rfl

/-- What happens on NULL does not matter to a truth value that is known. -/
theorem jumps_of_ne_none {t : Truth} (h : t ≠ none) (b j j' : Bool) :
    t.jumps b j = t.jumps b j' := by
  rcases t with _ | _
  · exact absurd rfl h
  · rfl

theorem jumps_not (t : Truth) (b j : Bool) : t.not.jumps b j = t.jumps (!b) j := by
  rcases t with _ | _ | _ <;> cases b <;> rfl

/-- The flag for NULL is inverted where a jump skips the rest of the expression. -/
theorem jumps_and_true (s t : Truth) (j : Bool) :
    (s.and t).jumps true j = (!s.jumps false (!j) && t.jumps true j) := by
  rcases s with _ | _ | _ <;> rcases t with _ | _ | _ <;> cases j <;> rfl

/-- Jumping if an AND is false. -/
theorem jumps_and_false (s t : Truth) (j : Bool) :
    (s.and t).jumps false j = (s.jumps false j || t.jumps false j) := by
  rcases s with _ | _ | _ <;> rcases t with _ | _ | _ <;> cases j <;> rfl

/-- Jumping if an OR is true. -/
theorem jumps_or_true (s t : Truth) (j : Bool) :
    (s.or t).jumps true j = (s.jumps true j || t.jumps true j) := by
  rcases s with _ | _ | _ <;> rcases t with _ | _ | _ <;> cases j <;> rfl

/-- Jumping if an OR is false. -/
theorem jumps_or_false (s t : Truth) (j : Bool) :
    (s.or t).jumps false j = (!s.jumps true (!j) && t.jumps false j) := by
  rcases s with _ | _ | _ <;> rcases t with _ | _ | _ <;> cases j <;> rfl

/-- The jumps tell the truth values apart. -/
theorem ext_jumps {s t : Truth} (h : ∀ b, s.jumps b false = t.jumps b false) : s = t := by
  have htrue := h true
  have hfalse := h false
  rcases s with _ | _ | _ <;> rcases t with _ | _ | _ <;>
    first | rfl | exact absurd htrue (by decide) | exact absurd hfalse (by decide)

end Truth

namespace Vdbe

/-! ### Readings -/

/-- The encoding of a text. -/
inductive Enc
  | utf8 | utf16le | utf16be

/-- The characters before the first one that is not ASCII. -/
def asciiText : Enc → List UInt8 → List UInt8
  | .utf8, z => z
  | .utf16le, c :: h :: z => if h = 0 then c :: asciiText .utf16le z else []
  | .utf16be, h :: c :: z => if h = 0 then c :: asciiText .utf16be z else []
  | _, _ => []

/-- `LARGEST_INT64`. -/
def largestInt64 : UInt64 := 0x7fffffffffffffff

/-- `sqlite3Atoi64`, without its return code. -/
def sqlite3Atoi64 (enc : Enc) (zNum : List UInt8) : Int64 :=
  let z := (asciiText enc zNum).dropWhile Sql.isSpace
  let neg := z.head? = some '-'.toUInt8
  let z := if neg ∨ z.head? = some '+'.toUInt8 then z.tail else z
  let digits := (z.dropWhile (· = '0'.toUInt8)).takeWhile Sql.isDigit
  let u : UInt64 := digits.foldl (fun u c => u * 10 + c.toUInt64 - 48) 0
  if largestInt64 < u then Int64.minValue
  else if neg then -u.toInt64
  else u.toInt64

def doubleToInt64 (r : Double) : Int64 :=
  if r.units < -2 ^ 63 * 2 ^ 1074 then Int64.minValue
  else if 2 ^ 63 * 2 ^ 1074 < r.units then Int64.minValue
  else Int64.ofInt (r.units.tdiv (2 ^ 1074))

/-- How the text of a database is read as a number. `sqlite3AtoF` rounds, and is left open. -/
structure Reading where
  enc : Enc
  sqlite3AtoF : List UInt8 → Double

variable (R : Reading)

def sqlite3VdbeIntValue : Value → Int64
  | .int i => i
  | .real r => doubleToInt64 r
  | .text z => sqlite3Atoi64 R.enc z
  | .blob z => sqlite3Atoi64 R.enc z
  | .null => 0

/-- `sqlite3VdbeRealValue`, in units of 2^-1074. -/
def realValue : Value → ℤ
  | .real r => r.units
  | .int i => unitsOfInt i
  | .text z => (R.sqlite3AtoF z).units
  | .blob z => (R.sqlite3AtoF z).units
  | .null => 0

/-- Whether `OP_And`, `OP_Or` and `OP_Not` take a value for true. -/
def intTruth (v : Value) : Truth :=
  if v = .null then none else some (sqlite3VdbeIntValue R v ≠ 0)

/-- Whether `OP_If` and `OP_IfNot` take a value for true. -/
def realTruth (v : Value) : Truth := if v = .null then none else some (realValue R v ≠ 0)

/-! ### Opcodes -/

/-- A truth value in a register. -/
def ofTruth : Truth → Value
  | none => .null
  | some false => .int 0
  | some true => .int 1

/-- The operand of a logical opcode: 0, 1, or 2 for NULL. -/
def operand (v : Value) : ℕ :=
  if v = .null then 2 else if sqlite3VdbeIntValue R v ≠ 0 then 1 else 0

/-- `and_logic`. -/
def andLogic : List ℕ := [0, 0, 0, 0, 1, 2, 0, 2, 2]

/-- `or_logic`. -/
def orLogic : List ℕ := [0, 1, 2, 1, 1, 1, 2, 1, 2]

/-- `OP_And` and `OP_Or`, with their tables. -/
def opLogic (logic : List ℕ) (v1 v2 : Value) : Value :=
  let v := logic.getD (operand R v1 * 3 + operand R v2) 0
  if v = 2 then .null else .int (Int64.ofNat v)

/-- `OP_Not`. -/
def opNot (v : Value) : Value :=
  if v = .null then .null else .int (if sqlite3VdbeIntValue R v = 0 then 1 else 0)

variable {R}

theorem operand_eq (v : Value) :
    operand R v = (intTruth R v).elim 2 fun b => if b then 1 else 0 := by
  unfold operand intTruth
  split
  · rfl
  · simp only [Option.elim_some, decide_eq_true_eq]

/-- `OP_And` computes the AND of the truth values. -/
theorem opLogic_and (v1 v2 : Value) :
    opLogic R andLogic v1 v2 = ofTruth ((intTruth R v1).and (intTruth R v2)) := by
  rw [opLogic, operand_eq, operand_eq]
  rcases intTruth R v1 with _ | _ | _ <;> rcases intTruth R v2 with _ | _ | _ <;> rfl

/-- `OP_Or` computes the OR of the truth values. -/
theorem opLogic_or (v1 v2 : Value) :
    opLogic R orLogic v1 v2 = ofTruth ((intTruth R v1).or (intTruth R v2)) := by
  rw [opLogic, operand_eq, operand_eq]
  rcases intTruth R v1 with _ | _ | _ <;> rcases intTruth R v2 with _ | _ | _ <;> rfl

/-- `OP_Not` computes the NOT of the truth value. -/
theorem opNot_eq (v : Value) : opNot R v = ofTruth (intTruth R v).not := by
  unfold opNot intTruth
  split
  · rfl
  · by_cases h : sqlite3VdbeIntValue R v = 0
    · rw [if_pos h, h]
      rfl
    · rw [if_neg h, decide_eq_true h]
      rfl

/-- A truth value in a register is that truth value, by both readings. -/
theorem intTruth_ofTruth (t : Truth) : intTruth R (ofTruth t) = t := by
  rcases t with _ | _ | _ <;> rfl

/-- A truth value that was stored as an integer is read back. -/
theorem realTruth_ofTruth (t : Truth) : realTruth R (ofTruth t) = t := by
  have hzero : unitsOfInt 0 = 0 := by
    rw [unitsOfInt]
    exact Int.zero_mul _
  have hone : unitsOfInt 1 ≠ 0 := by
    rw [unitsOfInt, show Rounding.intToBits 53 (1 : Int64).toInt = 1 from rfl, Int.one_mul]
    positivity
  rcases t with _ | _ | _
  · rfl
  · rw [realTruth, if_neg Value.noConfusion]
    exact congrArg some (decide_eq_false (not_not.mpr hzero))
  · rw [realTruth, if_neg Value.noConfusion]
    exact congrArg some (decide_eq_true hone)

end Vdbe

end SqliteVms

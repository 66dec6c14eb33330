import Mathlib.Data.List.Basic
import Mathlib.Tactic.Linarith

/-!
# The buffers of the conversions

A conversion of `sqlite3VXPrintf` writes its text into `buf`, or into memory of its own when the
text may be longer. A buffer is the list of the bytes that are in it, the last one first; a write
behind its end fails, and so does a computation that leaves the range of `int`.

What a floating point conversion writes depends on the number by its sign, its decimal exponent
behind the normalisation, and the digits that `et_getdigit` takes off it; the digits are any.
Requests for memory are granted up to the limit of `sqlite3Malloc`: otherwise the conversion ends.

## Main definitions

* `convert` — what one conversion writes
* `Fits` — the widths and precisions for which there is room

## Main results

* `convert_iff` — a conversion stays inside its buffer exactly for these
-/

namespace SqliteVms

namespace Conversion

/-! ### The code -/

/-- `etBUFSIZE`. -/
def etBufSize : ℕ := 70

/-- A result of type `int`. -/
def int (x : ℤ) : Option ℤ := if -2 ^ 31 ≤ x ∧ x < 2 ^ 31 then some x else none

/-- A width or a precision: its digits in the format, or the argument for a `*`. -/
inductive Number
  | digits (l : List (Fin 10))
  | star (v : Int32)

/-- A number with one digit more. -/
def addDigit (w : ℤ) (d : Fin 10) : ℤ := w * 10 + (d : ℕ)

/-- The loop over the digits, `width = width*10 + c - '0'`. -/
def readDigits : ℤ → List (Fin 10) → Option ℤ
  | w, [] => some w
  | w, d :: l => (int (w * 10 + (48 + (d : ℕ)))).bind fun s => readDigits (s - 48) l

/-- A number that is read; a negative argument is negated. -/
def readNumber : Number → Option ℤ
  | .digits l => readDigits 0 l
  | .star v => if v.toInt < 0 then int (-v.toInt) else some v.toInt

/-- The flags of a conversion, its width and its precision. -/
structure Field where
  leftjustify : Bool
  plussign : Bool
  blanksign : Bool
  alternateform : Bool
  altform2 : Bool
  zeropad : Bool
  width : Number
  precision : Option Number

/-- The width; without digits it is zero. -/
def Field.readWidth (f : Field) : Option ℤ := readNumber f.width

/-- The precision; -1 is for none. -/
def Field.readPrecision (f : Field) : Option ℤ :=
  match f.precision with
  | none => some (-1)
  | some p => readNumber p

/-- A negative argument for the width sets `flag_leftjustify`. -/
def Field.left (f : Field) : Bool :=
  f.leftjustify || match f.width with
    | .digits _ => false
    | .star v => decide (v.toInt < 0)

/-- The prefix of a signed number. -/
def signOf (f : Field) (negative : Bool) : List UInt8 :=
  if negative = true then ['-'.toUInt8]
  else if f.plussign = true then ['+'.toUInt8]
  else if f.blanksign = true then [' '.toUInt8]
  else []

/-- Writes one after the other into a buffer of `n` bytes. -/
def puts (n : ℕ) : List UInt8 → List UInt8 → Option (List UInt8)
  | z, [] => some z
  | z, c :: l => if z.length < n then puts n (c :: z) l else none

/-- What is written into a buffer of `n` bytes. `sqlite3Malloc` refuses a size near the largest
`int`, and then the conversion ends. -/
def inBuffer (n : ℤ) (text : Option (List UInt8)) : Option (List UInt8) :=
  if 0x7fffff00 ≤ n then some [] else text

/-- The digits of a number, the last one first. -/
def radixDigits (base : ℕ) (cset : List UInt8) : ℕ → ℕ → List UInt8
  | 0, _ => []
  | fuel + 1, u =>
    cset.getD (u % base) 0 :: if 0 < u / base then radixDigits base cset fuel (u / base) else []

/-- An entry of `fmtinfo` for integers; `pre` is the text at `aPrefix`. -/
structure RadixInfo where
  base : ℕ
  signed : Bool
  ordinal : Bool
  cset : List UInt8
  pre : List UInt8
  base_ge : 8 ≤ base
  pre_le : pre.length ≤ 2

/-- The two letters behind an ordinal number. -/
def ordinalSuffix (longvalue : ℕ) : List UInt8 :=
  let x := longvalue % 10
  let x := if 4 ≤ x ∨ longvalue / 10 % 10 = 1 then 0 else x
  ("thstndrd".toList.map Char.toUInt8).drop (2 * x) |>.take 2 |>.reverse

/-- The precision for `flag_zeropad`. -/
def radixPrecision (f : Field) (width precision : ℤ) (sign : List UInt8) : ℤ :=
  if f.zeropad = true ∧ precision < width - sign.length then width - sign.length else precision

/-- `etRADIX`, `etPOINTER` and `etORDINAL`. The text is written from its end; the last byte of the
buffer is left out. -/
def radix (f : Field) (width precision : ℤ) (info : RadixInfo) (negative : Bool) (longvalue : ℕ) :
    Option (List UInt8) :=
  let sign := if info.signed = true then signOf f negative else []
  let precision := radixPrecision f width precision sign
  let size := if precision < etBufSize - 10 then some (etBufSize : ℤ) else int (precision + 10)
  size.bind fun nOut =>
    let digits := (if info.ordinal = true then ordinalSuffix longvalue else []) ++
      radixDigits info.base info.cset 64 longvalue
    let zeros := List.replicate (precision - digits.length).toNat '0'.toUInt8
    let pre := if f.alternateform = true ∧ longvalue ≠ 0 then info.pre else []
    inBuffer nOut (puts (nOut.toNat - 1) [] (digits ++ zeros ++ sign ++ pre))

/-- `etFLOAT`, `etEXP` and `etGENERIC`. -/
inductive FloatKind
  | float | exp | generic
  deriving DecidableEq

/-- The precision before the normalisation. -/
def floatPrecision (kind : FloatKind) (precision : ℤ) : ℤ :=
  let precision := if precision < 0 then 6 else precision
  if kind = .generic ∧ 0 < precision then precision - 1 else precision

/-- Whether `%g` is written as `%e`. -/
def asExp (kind : FloatKind) (precision exp : ℤ) : Bool :=
  match kind with
  | .float => false
  | .exp => true
  | .generic => decide (exp < -4 ∨ precision < exp)

/-- `flag_rtz`. -/
def rtz (f : Field) (kind : FloatKind) : Bool :=
  if kind = .generic then !f.alternateform else f.altform2

/-- The number of digits that are taken off a number, `nsd`. -/
def Field.nsd (f : Field) : ℕ := 16 + if f.altform2 = true then 10 else 0

/-- `et_getdigit`: the digit at a place, and '0' when `cnt` digits have been taken. -/
def etGetdigit (cnt : ℕ) (digits : ℕ → Fin 10) (i : ℕ) : UInt8 :=
  if i < cnt then .ofNat (48 + digits i) else '0'.toUInt8

/-- The characters that `et_getdigit` returns. -/
def digitChars (cnt : ℕ) (digits : ℕ → Fin 10) (start count : ℕ) : List UInt8 :=
  (List.range count).map fun i => etGetdigit cnt digits (start + i)

/-- The number up to its last digit: the sign, the digits before the point, the point, the zeros
behind it and the other digits. -/
def floatBody (sign : List UInt8) (e2 precision : ℤ) (dp : Bool) (cnt : ℕ)
    (digits : ℕ → Fin 10) : List UInt8 :=
  sign ++ (if e2 < 0 then ['0'.toUInt8] else digitChars cnt digits 0 (e2 + 1).toNat) ++
    (if dp = true then ['.'.toUInt8] else []) ++ List.replicate (-e2 - 1).toNat '0'.toUInt8 ++
    digitChars cnt digits (e2 + 1).toNat (precision - (-e2 - 1).toNat).toNat

/-- The trailing zeros are removed, and the point if no digits follow it. -/
def strip (altform2 : Bool) (n : ℕ) (z : List UInt8) : Option (List UInt8) :=
  let z := z.dropWhile (· = '0'.toUInt8)
  if z.head? = some '.'.toUInt8 then
    if altform2 = true then puts n z ['0'.toUInt8] else some z.tail
  else some z

/-- The `eNNN` suffix. -/
def expSuffix (exp : ℤ) : List UInt8 :=
  ['e'.toUInt8, if exp < 0 then '-'.toUInt8 else '+'.toUInt8] ++
    (if 100 ≤ exp.natAbs then [.ofNat (48 + exp.natAbs / 100)] else []) ++
    [.ofNat (48 + exp.natAbs % 100 / 10), .ofNat (48 + exp.natAbs % 10)]

/-- The end of the text: the suffix, the zero, and zeros in front for `flag_zeropad`. -/
def closeText (f : Field) (isExp : Bool) (n : ℕ) (width : ℤ) (sign : List UInt8) (exp : ℤ)
    (z : List UInt8) : Option (List UInt8) :=
  (puts n z (if isExp = true then expSuffix exp else [])).bind fun z =>
    (puts n z [0]).bind fun _ =>
      if f.zeropad = true ∧ f.left = false ∧ z.length < width then
        -- the text and its zero are moved behind the zeros
        if width < n then
          some (z.take (z.length - sign.length) ++
            List.replicate (width - z.length).toNat '0'.toUInt8 ++ sign.reverse)
        else none
      else some z

/-- The text of a number in a buffer of `n` bytes. -/
def floatText (f : Field) (kind : FloatKind) (isExp : Bool) (n : ℕ) (width : ℤ) (sign : List UInt8)
    (e2 precision exp : ℤ) (digits : ℕ → Fin 10) : Option (List UInt8) :=
  let dp := decide (0 < precision) || f.alternateform || f.altform2
  (puts n [] (floatBody sign e2 precision dp f.nsd digits)).bind fun z =>
    (if rtz f kind = true ∧ dp = true then strip f.altform2 n z else some z).bind
      (closeText f isExp n width sign exp)

/-- A number behind the normalisation: not a number, or the exponent of its first digit. -/
inductive Real
  | nan
  | exp (exp : ℤ)

/-- The floating point conversions. -/
def float (f : Field) (width precision : ℤ) (kind : FloatKind) (negative : Bool) (real : Real)
    (digits : ℕ → Fin 10) : Option (List UInt8) :=
  let sign := signOf f negative
  let precision := floatPrecision kind precision
  match real with
  | .nan => some ("NaN".toList.map Char.toUInt8)
  | .exp exp =>
    if 350 < exp then some (sign ++ "Inf".toList.map Char.toUInt8)
    else
      let isExp := asExp kind precision exp
      (if kind = .generic ∧ isExp = false then int (precision - exp) else some precision).bind
        fun precision =>
          let e2 := if isExp = true then 0 else exp
          (int (e2 + precision)).bind fun s => (int (s + width)).bind fun s =>
            (if (etBufSize : ℤ) - 15 < s then int (s + 15) else some (etBufSize : ℤ)).bind fun n =>
              inBuffer n (floatText f kind isExp n.toNat width sign e2 precision exp digits)

/-- `etCHARX`. -/
def charx (precision : ℤ) (c : UInt8) : Option (List UInt8) :=
  puts etBufSize [] (List.replicate (max 1 precision).toNat c)

/-- `etSQLESCAPE`, `etSQLESCAPE2` and `etSQLESCAPE3`; `needQuote` is for `%Q`. -/
def sqlEscape (precision : ℤ) (q : UInt8) (needQuote : Bool) (escarg : List UInt8) :
    Option (List UInt8) :=
  let escarg := if precision < 0 then escarg else escarg.take precision.toNat
  let quote := if needQuote = true then [q] else []
  (int ((escarg.count q : ℤ) + (escarg.length + 1 + 2 * quote.length))).bind fun n =>
    inBuffer n (puts (if etBufSize < n then n.toNat else etBufSize) []
      (quote ++ escarg.flatMap (fun ch => if ch = q then [ch, ch] else [ch]) ++ quote ++ [0]))

/-- The conversion and its argument. `%s`, `%z`, `%n` and the internal ones write nothing. -/
inductive Arg
  | radix (info : RadixInfo) (negative : Bool) (longvalue : ℕ)
  | float (kind : FloatKind) (negative : Bool) (real : Real)
  | charx (c : UInt8)
  | sqlEscape (q : UInt8) (needQuote : Bool) (escarg : List UInt8)
  | percent
  | other

/-- The switch over the conversions. -/
def conversion (f : Field) (width precision : ℤ) (digits : ℕ → Fin 10) : Arg → Option (List UInt8)
  | .radix info negative longvalue => radix f width precision info negative longvalue
  | .float kind negative real => float f width precision kind negative real digits
  | .charx c => charx precision c
  | .sqlEscape q needQuote escarg => sqlEscape precision q needQuote escarg
  | .percent => puts etBufSize [] ['%'.toUInt8]
  | .other => some []

/-- One conversion. -/
def convert (f : Field) (digits : ℕ → Fin 10) (arg : Arg) : Option (List UInt8) :=
  f.readWidth.bind fun width => f.readPrecision.bind fun precision =>
    conversion f width precision digits arg

/-! ### The condition -/

/-- The number that is meant. -/
def Number.value : Number → ℤ
  | .digits l => l.foldl addDigit 0
  | .star v => |v.toInt|

/-- The number can be read: a digit is added as a character before 48 is subtracted. -/
def Number.Fits : Number → Prop
  | .digits l => l = [] ∨ l.foldl addDigit (0 : ℤ) + 48 < 2 ^ 31
  | .star v => |v.toInt| < 2 ^ 31

/-- The precision that is meant; -1 is for none. -/
def Field.precisionValue (f : Field) : ℤ :=
  match f.precision with
  | none => -1
  | some p => p.value

/-- The precision behind the normalisation. -/
def fixedPrecision (kind : FloatKind) (precision exp : ℤ) : ℤ :=
  if kind = .generic ∧ asExp kind precision exp = false then precision - exp else precision

/-- The exponent that the length depends on. -/
def fixedExp (kind : FloatKind) (precision exp : ℤ) : ℤ :=
  if asExp kind precision exp = true then 0 else exp

/-- The size of the buffer for a number. -/
def floatSize (s : ℤ) : ℤ := if (etBufSize : ℤ) - 15 < s then s + 15 else etBufSize

/-- There is room for a number: its size is in range, and a number below one is not longer than the
buffer, if there is one. The size takes the exponent for a length, also where it is negative. The
zero at the end needs no room of its own where a zero of the number is removed: it has no digits
there, or more places than digits. -/
def FloatFits (f : Field) (width : ℤ) (kind : FloatKind) (negative : Bool) (precision exp : ℤ) :
    Prop :=
  let e2 := fixedExp kind precision exp
  let precision := fixedPrecision kind precision exp
  let s := e2 + precision + width
  s + 15 < 2 ^ 31 ∧ (e2 < 0 → floatSize s < 0x7fffff00 →
    (signOf f negative).length + precision + 2 +
      (if rtz f kind = true ∧ (e2 = -precision - 1 ∨ f.nsd < e2 + precision + 1) then 0 else 1) ≤
        floatSize s)

/-- The widths and precisions for which there is room. -/
def Fits (f : Field) (arg : Arg) : Prop :=
  f.width.Fits ∧ (∀ p, f.precision = some p → p.Fits) ∧
    match arg with
    | .radix info negative _ =>
      radixPrecision f f.width.value f.precisionValue
        (if info.signed = true then signOf f negative else []) + 10 < 2 ^ 31
    | .float kind negative (.exp exp) => exp ≤ 350 →
        FloatFits f f.width.value kind negative (floatPrecision kind f.precisionValue) exp
    | .charx _ => f.precisionValue ≤ etBufSize
    | .sqlEscape q needQuote escarg =>
      let escarg := if f.precisionValue < 0 then escarg else escarg.take f.precisionValue.toNat
      (escarg.count q : ℤ) + (escarg.length + 1 + 2 * (if needQuote = true then 1 else 0)) < 2 ^ 31
    | _ => True

/-- What arguments can be: an integer has 64 bits, and the exponent of a double is in range and,
for `%f`, not below the half of the last digit that is added. -/
def Arg.Legal (f : Field) : Arg → Prop
  | .radix _ _ longvalue => longvalue < 2 ^ 64
  | .float kind _ (.exp exp) => -1000 ≤ exp ∧
      (kind = .float → -floatPrecision kind f.precisionValue - 1 ≤ exp)
  | _ => True

/-! ### Widths and precisions -/

theorem int_some {x : ℤ} (hlow : -2 ^ 31 ≤ x) (h : x < 2 ^ 31) : int x = some x :=
  if_pos ⟨hlow, h⟩

theorem int_none {x : ℤ} (h : 2 ^ 31 ≤ x) : int x = none :=
  if_neg fun hx => absurd hx.2 (not_lt.mpr h)

theorem le_foldl (l : List (Fin 10)) {w : ℤ} (hw : 0 ≤ w) :
    w ≤ l.foldl addDigit w := by
  induction l generalizing w with
  | nil => exact le_rfl
  | cons d l ih =>
    have hd : (0 : ℤ) ≤ (d : ℕ) := Int.natCast_nonneg _
    have hstep : w ≤ addDigit w d := by
      rw [addDigit]
      omega
    exact hstep.trans (ih (hw.trans hstep))

theorem readDigits_eq (l : List (Fin 10)) {w : ℤ} (hw : 0 ≤ w) :
    readDigits w l = if l = [] ∨ l.foldl addDigit w + 48 < 2 ^ 31 then
      some (l.foldl addDigit w) else none := by
  induction l generalizing w with
  | nil => rw [if_pos (Or.inl rfl), readDigits, List.foldl_nil]
  | cons d l ih =>
    have hd : (0 : ℤ) ≤ (d : ℕ) := Int.natCast_nonneg _
    have hadd : addDigit w d = w * 10 + (d : ℕ) := rfl
    have hle := le_foldl l (w := addDigit w d) (by omega)
    rw [readDigits, List.foldl_cons]
    by_cases hover : w * 10 + (48 + ((d : ℕ) : ℤ)) < 2 ^ 31
    · have hsub : w * 10 + (48 + ((d : ℕ) : ℤ)) - 48 = addDigit w d := by omega
      rw [int_some (by omega) hover, Option.bind_some, hsub, ih (by omega)]
      refine if_congr ?_ rfl rfl
      constructor
      · rintro (rfl | h)
        · exact Or.inr (by rw [List.foldl_nil]; omega)
        · exact Or.inr h
      · rintro (h | h)
        · cases h
        · exact Or.inr h
    · rw [int_none (by omega), Option.bind_none, if_neg]
      rintro (h | h)
      · cases h
      · omega

theorem Number.value_nonneg (n : Number) : 0 ≤ n.value := by
  cases n with
  | digits l => exact le_foldl l le_rfl
  | star v => exact abs_nonneg _

theorem readNumber_some {n : Number} (h : n.Fits) : readNumber n = some n.value := by
  cases n with
  | digits l => exact (readDigits_eq l le_rfl).trans (if_pos h)
  | star v =>
    have habs : |v.toInt| < 2 ^ 31 := h
    rw [readNumber, Number.value]
    by_cases hneg : v.toInt < 0
    · rw [abs_of_neg hneg] at habs ⊢
      rw [if_pos hneg, int_some (by omega) habs]
    · rw [if_neg hneg, abs_of_nonneg (not_lt.mp hneg)]

theorem readNumber_none {n : Number} (h : ¬n.Fits) : readNumber n = none := by
  cases n with
  | digits l => exact (readDigits_eq l le_rfl).trans (if_neg h)
  | star v =>
    have habs : ¬|v.toInt| < 2 ^ 31 := h
    have hhigh := v.toInt_lt
    by_cases hneg : v.toInt < 0
    · rw [abs_of_neg hneg] at habs
      rw [readNumber, if_pos hneg, int_none (not_lt.mp habs)]
    · rw [abs_of_nonneg (not_lt.mp hneg)] at habs
      exact absurd hhigh habs

theorem Number.value_lt {n : Number} (h : n.Fits) : n.value < 2 ^ 31 := by
  cases n with
  | digits l =>
    rcases h with rfl | h
    · exact (by decide : (0 : ℤ) < 2 ^ 31)
    · exact (by omega : l.foldl addDigit 0 < 2 ^ 31)
  | star v => exact h

theorem readPrecision_some {f : Field} (h : ∀ p, f.precision = some p → p.Fits) :
    f.readPrecision = some f.precisionValue := by
  rw [Field.readPrecision, Field.precisionValue]
  cases hp : f.precision with
  | none => rfl
  | some p => exact readNumber_some (h p hp)

theorem readPrecision_none {f : Field} (h : ¬∀ p, f.precision = some p → p.Fits) :
    f.readPrecision = none := by
  rw [Field.readPrecision]
  cases hp : f.precision with
  | none => exact absurd (fun p hp' => by rw [hp] at hp'; cases hp') h
  | some p =>
    refine readNumber_none fun hfits => h fun q hq => ?_
    rw [hp] at hq
    exact Option.some.inj hq ▸ hfits

theorem precisionValue_spec {f : Field} (h : ∀ p, f.precision = some p → p.Fits) :
    -1 ≤ f.precisionValue ∧ f.precisionValue < 2 ^ 31 := by
  rw [Field.precisionValue]
  cases hp : f.precision with
  | none => exact ⟨le_rfl, (by decide)⟩
  | some p =>
    have hnonneg := p.value_nonneg
    exact ⟨(by omega : -1 ≤ p.value), Number.value_lt (h p hp)⟩

/-! ### Writes -/

theorem puts_some {n : ℕ} {z l : List UInt8} (h : z.length + l.length ≤ n) :
    puts n z l = some (l.reverse ++ z) := by
  induction l generalizing z with
  | nil => rfl
  | cons c l ih =>
    rw [List.length_cons] at h
    rw [puts, if_pos (by omega), ih (by rw [List.length_cons]; omega), List.reverse_cons,
      List.append_assoc]
    rfl

theorem puts_none {n : ℕ} {z l : List UInt8} (hz : z.length ≤ n) (h : n < z.length + l.length) :
    puts n z l = none := by
  induction l generalizing z with
  | nil =>
    rw [List.length_nil] at h
    omega
  | cons c l ih =>
    rw [List.length_cons] at h
    rw [puts]
    by_cases hroom : z.length < n
    · rw [if_pos hroom, ih (by rw [List.length_cons]; omega) (by rw [List.length_cons]; omega)]
    · rw [if_neg hroom]

theorem inBuffer_ne_none {n : ℤ} {text : Option (List UInt8)}
    (h : n < 0x7fffff00 → text ≠ none) : inBuffer n text ≠ none := by
  rw [inBuffer]
  split
  · exact Option.some_ne_none _
  · exact h (by omega)

theorem length_signOf (f : Field) (negative : Bool) : (signOf f negative).length ≤ 1 := by
  rw [signOf]
  split_ifs <;> decide

/-! ### Integers, characters and quoted texts -/

theorem length_radixDigits {base : ℕ} (hbase : 8 ≤ base) (cset : List UInt8) (fuel : ℕ) {u k : ℕ}
    (hk : 0 < k) (hu : u < 8 ^ k) : (radixDigits base cset fuel u).length ≤ k := by
  induction fuel generalizing u k with
  | zero => exact Nat.zero_le k
  | succ fuel ih =>
    rw [radixDigits, List.length_cons]
    by_cases hmore : 0 < u / base
    · have hlarge : 8 ≤ u := hbase.trans (Nat.div_pos_iff.mp hmore).2
      obtain ⟨k, rfl⟩ : ∃ j, k = j + 1 := ⟨k - 1, by omega⟩
      have hpos : 0 < k := by
        rcases Nat.eq_zero_or_pos k with rfl | hpos
        · omega
        · exact hpos
      have hdiv : u / base < 8 ^ k := by
        rw [pow_succ, Nat.mul_comm] at hu
        exact (Nat.div_le_div_left hbase (by decide)).trans_lt (Nat.div_lt_of_lt_mul hu)
      rw [if_pos hmore]
      exact Nat.succ_le_succ (ih hpos hdiv)
    · rw [if_neg hmore, List.length_nil]
      exact hk

theorem length_ordinalSuffix (longvalue : ℕ) : (ordinalSuffix longvalue).length ≤ 2 := by
  rw [ordinalSuffix, List.length_reverse]
  exact List.length_take_le 2 _

/-- **Integers** stay in their buffer. -/
theorem radix_iff {f : Field} {width precision : ℤ} {info : RadixInfo} {negative : Bool}
    {longvalue : ℕ} (hlong : longvalue < 2 ^ 64) (hlow : -1 ≤ precision) :
    radix f width precision info negative longvalue ≠ none ↔
      radixPrecision f width precision (if info.signed = true then signOf f negative else []) + 10 <
        2 ^ 31 := by
  rw [radix]
  generalize hsign : (if info.signed = true then signOf f negative else []) = sign
  generalize hp : radixPrecision f width precision sign = p
  generalize hdigits : (if info.ordinal = true then ordinalSuffix longvalue else []) ++
    radixDigits info.base info.cset 64 longvalue = digits
  have hsigned : sign.length ≤ 1 := by
    rw [← hsign]
    split
    · exact length_signOf f negative
    · exact Nat.zero_le 1
  have hplow : -1 ≤ p := by
    rw [← hp, radixPrecision]
    split <;> omega
  have hlen : digits.length ≤ 24 := by
    have hradix := length_radixDigits info.base_ge info.cset 64 (by decide : 0 < 22)
      (hlong.trans (by decide))
    have hordinal := length_ordinalSuffix longvalue
    rw [← hdigits, List.length_append]
    split
    · omega
    · rw [List.length_nil]
      omega
  have hpre : (if f.alternateform = true ∧ longvalue ≠ 0 then info.pre else []).length ≤ 2 := by
    split
    · exact info.pre_le
    · exact Nat.zero_le 2
  have hroom : ∀ nOut : ℤ, (if p < 60 then 70 else p + 10) = nOut →
      puts (nOut.toNat - 1) [] (digits ++ List.replicate (p - digits.length).toNat '0'.toUInt8 ++
        sign ++ if f.alternateform = true ∧ longvalue ≠ 0 then info.pre else []) ≠ none := by
    intro nOut hn
    rw [puts_some]
    · exact Option.some_ne_none _
    · rw [List.length_nil, List.length_append, List.length_append, List.length_append,
        List.length_replicate]
      split at hn <;> omega
  have hbuf : (etBufSize : ℤ) = 70 := rfl
  dsimp only
  rw [hbuf]
  by_cases hsmall : p < 70 - 10
  · rw [if_pos hsmall, Option.bind_some]
    exact iff_of_true (inBuffer_ne_none fun _ => hroom 70 (if_pos (by omega))) (by omega)
  · rw [if_neg hsmall]
    by_cases hover : p + 10 < 2 ^ 31
    · rw [int_some (by omega) hover, Option.bind_some]
      exact iff_of_true (inBuffer_ne_none fun _ => hroom (p + 10) (if_neg (by omega))) hover
    · rw [int_none (not_lt.mp hover), Option.bind_none]
      exact iff_of_false (fun h => h rfl) hover

/-- **Characters**: a precision is a number of copies. -/
theorem charx_iff {precision : ℤ} {c : UInt8} :
    charx precision c ≠ none ↔ precision ≤ etBufSize := by
  have hbuf : etBufSize = 70 := rfl
  rw [charx]
  by_cases h : precision ≤ etBufSize
  · rw [puts_some (by rw [List.length_nil, List.length_replicate]; omega)]
    exact iff_of_true (Option.some_ne_none _) h
  · rw [puts_none (Nat.zero_le _) (by rw [List.length_nil, List.length_replicate]; omega)]
    exact iff_of_false (fun hne => hne rfl) h

theorem length_doubled (q : UInt8) (l : List UInt8) :
    (l.flatMap fun ch => if ch = q then [ch, ch] else [ch]).length = l.length + l.count q := by
  induction l with
  | nil => rfl
  | cons c l ih =>
    rw [List.flatMap_cons, List.length_append, ih, List.length_cons, List.count_cons]
    by_cases hc : c = q
    · rw [if_pos hc, if_pos (beq_iff_eq.mpr hc)]
      simp only [List.length_cons, List.length_nil]
      omega
    · rw [if_neg hc, if_neg (by rw [beq_iff_eq]; exact hc), List.length_singleton]
      omega

/-- **Quoted texts** stay in their buffer. -/
theorem sqlEscape_iff {precision : ℤ} {q : UInt8} {needQuote : Bool} {escarg : List UInt8} :
    sqlEscape precision q needQuote escarg ≠ none ↔
      (((if precision < 0 then escarg else escarg.take precision.toNat).count q : ℕ) : ℤ) +
        ((if precision < 0 then escarg else escarg.take precision.toNat).length + 1 +
          2 * (if needQuote = true then 1 else 0)) < 2 ^ 31 := by
  rw [sqlEscape]
  generalize (if precision < 0 then escarg else escarg.take precision.toNat) = l
  generalize hquote : (if needQuote = true then [q] else []) = quote
  have hlen : ((quote.length : ℕ) : ℤ) = if needQuote = true then 1 else 0 := by
    rw [← hquote]
    split <;> rfl
  rw [hlen]
  generalize (if needQuote = true then (1 : ℤ) else 0) = k at hlen
  by_cases hover : ((l.count q : ℕ) : ℤ) + (l.length + 1 + 2 * k) < 2 ^ 31
  · have hbuf : (etBufSize : ℤ) = 70 := rfl
    rw [int_some (by omega) hover, Option.bind_some, puts_some]
    · exact iff_of_true (inBuffer_ne_none fun _ => Option.some_ne_none _) hover
    · rw [List.length_nil, List.length_append, List.length_append, List.length_append,
        length_doubled, List.length_singleton]
      split
      · omega
      · have hbuf' : etBufSize = 70 := rfl
        omega
  · rw [int_none (not_lt.mp hover), Option.bind_none]
    exact iff_of_false (fun h => h rfl) hover

/-! ### Floating point numbers -/

theorem length_expSuffix (exp : ℤ) : (expSuffix exp).length ≤ 5 := by
  rw [expSuffix]
  split_ifs <;> simp

theorem closeText_some {f : Field} {isExp : Bool} {n : ℕ} {width exp : ℤ} {sign z : List UInt8}
    (hroom : z.length + (if isExp = true then 5 else 0) + 1 ≤ n) (hwidth : width < n) :
    closeText f isExp n width sign exp z ≠ none := by
  have hsuffix : (if isExp = true then expSuffix exp else []).length ≤
      if isExp = true then 5 else 0 := by
    split
    · exact length_expSuffix exp
    · exact Nat.zero_le 0
  rw [closeText, puts_some (by omega), Option.bind_some, puts_some, Option.bind_some]
  · rw [if_pos hwidth]
    generalize (if isExp = true then expSuffix exp else []).reverse ++ z = z'
    split
    · exact Option.some_ne_none _
    · exact Option.some_ne_none _
  · rw [List.length_append, List.length_reverse, List.length_singleton]
    omega

theorem closeText_none {f : Field} {n : ℕ} {width exp : ℤ} {sign z : List UInt8}
    (hfull : z.length = n) : closeText f false n width sign exp z = none := by
  rw [closeText, if_neg Bool.false_ne_true, puts, Option.bind_some,
    puts_none hfull.le (by rw [List.length_singleton]; omega), Option.bind_none]

theorem length_dropWhile_le (z : List UInt8) (p : UInt8 → Bool) :
    (z.dropWhile p).length ≤ z.length :=
  (List.dropWhile_suffix p).length_le

/-- The end of a text is longer by one byte at most. -/
theorem strip_some (altform2 : Bool) {n : ℕ} {z : List UInt8} (h : z.length + 1 ≤ n) :
    ∃ z', strip altform2 n z = some z' ∧ z'.length ≤ z.length + 1 := by
  have hdrop := length_dropWhile_le z (· = '0'.toUInt8)
  rw [strip]
  split
  · split
    · refine ⟨_, puts_some (by rw [List.length_singleton]; omega), ?_⟩
      rw [List.length_append, List.length_reverse, List.length_singleton]
      omega
    · exact ⟨_, rfl, by rw [List.length_tail]; omega⟩
  · exact ⟨_, rfl, by omega⟩

/-- Behind a digit it is not longer. -/
theorem strip_digit (altform2 : Bool) {n : ℕ} {c : UInt8} {z : List UInt8} (hc : c ≠ '.'.toUInt8)
    (h : z.length + 1 ≤ n) :
    ∃ z', strip altform2 n (c :: z) = some z' ∧ z'.length ≤ z.length + 1 := by
  by_cases hzero : c = '0'.toUInt8
  · obtain ⟨z', hz', hlen⟩ := strip_some altform2 h
    refine ⟨z', ?_, hlen⟩
    rw [strip, List.dropWhile_cons_of_pos (by rw [decide_eq_true_eq]; exact hzero)]
    exact hz'
  · refine ⟨c :: z, ?_, by rw [List.length_cons]⟩
    rw [strip, List.dropWhile_cons_of_neg (by rw [decide_eq_true_eq]; exact hzero), List.head?_cons,
      if_neg fun heq => hc (Option.some.inj heq)]

theorem strip_nonzero {altform2 : Bool} {n : ℕ} {c : UInt8} {z : List UInt8} (hc : c ≠ '.'.toUInt8)
    (hzero : c ≠ '0'.toUInt8) : strip altform2 n (c :: z) = some (c :: z) := by
  rw [strip, List.dropWhile_cons_of_neg (by rw [decide_eq_true_eq]; exact hzero), List.head?_cons,
    if_neg fun heq => hc (Option.some.inj heq)]

/-- Nothing but zeros behind the point. -/
theorem strip_zeros (altform2 : Bool) {n k : ℕ} {z : List UInt8} (h : z.length + 2 ≤ n) :
    ∃ z', strip altform2 n (List.replicate k '0'.toUInt8 ++ '.'.toUInt8 :: z) = some z' ∧
      z'.length ≤ z.length + 2 := by
  have hdrop : (List.replicate k '0'.toUInt8 ++ '.'.toUInt8 :: z).dropWhile (· = '0'.toUInt8) =
      '.'.toUInt8 :: z := by
    rw [List.dropWhile_append_of_pos, List.dropWhile_cons_of_neg (by decide)]
    intro c hc
    rw [List.eq_of_mem_replicate hc]
    decide
  rw [strip, hdrop, List.head?_cons, if_pos rfl]
  split
  · refine ⟨_, puts_some (by rw [List.length_singleton, List.length_cons]; omega), ?_⟩
    simp only [List.length_append, List.length_reverse, List.length_cons, List.length_nil]
    omega
  · exact ⟨_, rfl, by rw [List.tail_cons]; omega⟩

theorem length_digitChars (cnt : ℕ) (digits : ℕ → Fin 10) (start count : ℕ) :
    (digitChars cnt digits start count).length = count := by
  rw [digitChars, List.length_map, List.length_range]

theorem length_floatBody (sign : List UInt8) {e2 precision : ℤ} (dp : Bool) (cnt : ℕ)
    (digits : ℕ → Fin 10) (hp : 0 ≤ precision) (he : -precision - 1 ≤ e2) :
    (floatBody sign e2 precision dp cnt digits).length =
      sign.length + (if e2 < 0 then 1 else (e2 + 1).toNat) + (if dp = true then 1 else 0) +
        precision.toNat := by
  rw [floatBody, List.length_append, List.length_append, List.length_append, List.length_append,
    List.length_replicate, length_digitChars]
  have hlead : (if e2 < 0 then ['0'.toUInt8]
      else digitChars cnt digits 0 (e2 + 1).toNat).length =
      if e2 < 0 then 1 else (e2 + 1).toNat := by
    split
    · rfl
    · exact length_digitChars _ _ _ _
  have hpoint : (if dp = true then ['.'.toUInt8] else []).length = if dp = true then 1 else 0 := by
    split <;> rfl
  rw [hlead, hpoint]
  omega

/-- A text with room to spare. -/
theorem floatText_roomy {f : Field} {kind : FloatKind} {isExp : Bool} {n : ℕ}
    {width e2 precision exp : ℤ} {sign : List UInt8} {digits : ℕ → Fin 10} (hp : 0 ≤ precision)
    (he : -precision - 1 ≤ e2) (hwidth : width < n)
    (hroom : sign.length + (if e2 < 0 then 1 else (e2 + 1).toNat) + precision.toNat + 8 ≤ n) :
    floatText f kind isExp n width sign e2 precision exp digits ≠ none := by
  rw [floatText]
  generalize (decide (0 < precision) || f.alternateform || f.altform2) = dp
  have hlen := length_floatBody sign dp f.nsd digits hp he
  have hdp : (if dp = true then 1 else 0) ≤ 1 := by split <;> decide
  have hfive : (if isExp = true then 5 else 0) ≤ 5 := by split <;> decide
  rw [puts_some (by rw [List.length_nil]; omega), Option.bind_some, List.append_nil]
  split
  · obtain ⟨z', hz', hle⟩ := strip_some f.altform2 (n := n)
      (z := (floatBody sign e2 precision dp f.nsd digits).reverse)
      (by rw [List.length_reverse]; omega)
    rw [hz', Option.bind_some]
    rw [List.length_reverse] at hle
    exact closeText_some (by omega) hwidth
  · rw [Option.bind_some]
    exact closeText_some (by rw [List.length_reverse]; omega) hwidth

theorem digit_ne : ∀ d : Fin 10, UInt8.ofNat (48 + d) ≠ '.'.toUInt8 := by decide

theorem etGetdigit_ne (cnt : ℕ) (digits : ℕ → Fin 10) (i : ℕ) :
    etGetdigit cnt digits i ≠ '.'.toUInt8 := by
  rw [etGetdigit]
  split
  · exact digit_ne _
  · decide

theorem digitChars_succ (cnt : ℕ) (digits : ℕ → Fin 10) (start count : ℕ) :
    digitChars cnt digits start (count + 1) =
      digitChars cnt digits start count ++ [etGetdigit cnt digits (start + count)] := by
  rw [digitChars, List.range_succ, List.map_append]
  rfl

/-- The last character of a number below one. -/
theorem floatBody_digit (sign : List UInt8) {e2 precision : ℤ} (cnt : ℕ) (digits : ℕ → Fin 10)
    {m : ℕ} (hneg : e2 < 0) (hm : e2 + precision = m) :
    ∃ z, (floatBody sign e2 precision true cnt digits).reverse = etGetdigit cnt digits m :: z := by
  have hcount : (precision - (-e2 - 1).toNat).toNat = m + 1 := by omega
  have hstart : (e2 + 1).toNat = 0 := by omega
  rw [floatBody, hcount, hstart, digitChars_succ, Nat.zero_add, ← List.append_assoc,
    List.reverse_append]
  exact ⟨_, rfl⟩

/-- Behind the last digit that is taken there are zeros. -/
theorem floatBody_places (sign : List UInt8) {e2 precision : ℤ} {cnt : ℕ} (digits : ℕ → Fin 10)
    (hneg : e2 < 0) (hcnt : 0 < cnt) (hm : cnt < e2 + precision + 1) :
    ∃ i z, (floatBody sign e2 precision true cnt digits).reverse =
      '0'.toUInt8 :: etGetdigit cnt digits i :: z := by
  obtain ⟨m, hm'⟩ : ∃ m : ℕ, e2 + precision = m + 1 := ⟨(e2 + precision - 1).toNat, by omega⟩
  have hcount : (precision - (-e2 - 1).toNat).toNat = m + 1 + 1 := by omega
  have hstart : (e2 + 1).toNat = 0 := by omega
  have hlast : etGetdigit cnt digits (m + 1) = '0'.toUInt8 := if_neg (by omega)
  rw [floatBody, hcount, hstart, digitChars_succ, digitChars_succ, Nat.zero_add, Nat.zero_add,
    hlast, ← List.append_assoc, ← List.append_assoc, List.reverse_append, List.reverse_append]
  exact ⟨m, _, rfl⟩

/-- A number below one without digits in its places. -/
theorem floatBody_zeros {sign : List UInt8} {e2 precision : ℤ} (cnt : ℕ) (digits : ℕ → Fin 10)
    (hneg : e2 < 0) (he : e2 = -precision - 1) (hp : 0 < precision) :
    (floatBody sign e2 precision true cnt digits).reverse =
      List.replicate precision.toNat '0'.toUInt8 ++ '.'.toUInt8 :: '0'.toUInt8 :: sign.reverse := by
  have hzeros : (-e2 - 1).toNat = precision.toNat := by omega
  have hnone : (precision - (precision.toNat : ℤ)).toNat = 0 := by omega
  rw [floatBody, hzeros, hnone, if_pos hneg, if_pos rfl]
  simp [digitChars]

theorem strip_zero (altform2 : Bool) (n : ℕ) (z : List UInt8) :
    strip altform2 n ('0'.toUInt8 :: z) = strip altform2 n z := by
  rw [strip, List.dropWhile_cons_of_pos (by decide)]
  rfl

/-- The text of a number below one whose digits are in the buffer. -/
theorem floatText_below {f : Field} {kind : FloatKind} {n : ℕ} {width e2 precision exp : ℤ}
    {sign : List UInt8} (digits : ℕ → Fin 10) (hp : 0 < precision) (hneg : e2 < 0)
    (he : -precision - 1 ≤ e2) (hfit : sign.length + 1 + 1 + precision.toNat ≤ n) :
    floatText f kind false n width sign e2 precision exp digits =
      (if rtz f kind = true then
        strip f.altform2 n (floatBody sign e2 precision true f.nsd digits).reverse
      else some (floatBody sign e2 precision true f.nsd digits).reverse).bind
        (closeText f false n width sign exp) := by
  have hdp : (decide (0 < precision) || f.alternateform || f.altform2) = true := by
    rw [decide_eq_true hp, Bool.true_or, Bool.true_or]
  have hlen := length_floatBody sign true f.nsd digits hp.le he
  rw [if_pos hneg, if_pos rfl] at hlen
  rw [floatText, hdp, puts_some (by rw [hlen, List.length_nil]; omega), Option.bind_some,
    List.append_nil]
  simp only [and_true]

/-- Where the last character is a zero that is removed, the text becomes shorter. -/
theorem strip_floatBody {f : Field} {n : ℕ} {e2 precision : ℤ} {sign : List UInt8}
    (digits : ℕ → Fin 10) (hp : 0 < precision) (hneg : e2 < 0) (he : -precision - 1 ≤ e2)
    (hn : sign.length + 13 ≤ n) (hfit : sign.length + 1 + 1 + precision.toNat ≤ n)
    (h : e2 = -precision - 1 ∨ (f.nsd : ℤ) < e2 + precision + 1) :
    ∃ z, strip f.altform2 n (floatBody sign e2 precision true f.nsd digits).reverse = some z ∧
      z.length + 1 ≤ n := by
  rcases h with hzeros | hplaces
  · obtain ⟨z, hz, hle⟩ := strip_zeros f.altform2 (n := n) (k := precision.toNat)
      (z := '0'.toUInt8 :: sign.reverse) (by rw [List.length_cons, List.length_reverse]; omega)
    rw [List.length_cons, List.length_reverse] at hle
    rw [floatBody_zeros f.nsd digits hneg hzeros hp, hz]
    exact ⟨z, rfl, by omega⟩
  · have hnsd : 0 < f.nsd := by rw [Field.nsd]; omega
    obtain ⟨i, z, hz⟩ := floatBody_places sign digits hneg hnsd hplaces
    have hlen := congrArg List.length hz
    rw [List.length_reverse, length_floatBody sign true f.nsd digits hp.le he, if_pos hneg,
      if_pos rfl, List.length_cons, List.length_cons] at hlen
    obtain ⟨z', hz', hle⟩ := strip_digit f.altform2 (n := n) (etGetdigit_ne f.nsd digits i)
      (z := z) (by omega)
    rw [hz, strip_zero, hz']
    exact ⟨z', rfl, by omega⟩

/-- **A number below one** in its buffer. -/
theorem floatText_below_iff {f : Field} {kind : FloatKind} {n : ℕ} {width e2 precision exp : ℤ}
    {sign : List UInt8} (hp : 0 < precision) (hneg : e2 < 0) (he : -precision - 1 ≤ e2)
    (hwidth : width < n) (hn : sign.length + 13 ≤ n) :
    (∀ digits, floatText f kind false n width sign e2 precision exp digits ≠ none) ↔
      sign.length + precision + 2 +
        (if rtz f kind = true ∧ (e2 = -precision - 1 ∨ f.nsd < e2 + precision + 1) then 0 else 1) ≤
          n := by
  have hlen : ∀ digits, (floatBody sign e2 precision true f.nsd digits).length =
      sign.length + 1 + 1 + precision.toNat := by
    intro digits
    rw [length_floatBody sign true f.nsd digits hp.le he, if_pos hneg, if_pos rfl]
  have hclose : ∀ {z : List UInt8}, z.length + 1 ≤ n →
      closeText f false n width sign exp z ≠ none := fun hz =>
    closeText_some (by rw [if_neg Bool.false_ne_true]; exact hz) hwidth
  by_cases hfit : sign.length + 1 + 1 + precision.toNat ≤ n
  · by_cases hrtz : rtz f kind = true
    · by_cases hzero : e2 = -precision - 1 ∨ (f.nsd : ℤ) < e2 + precision + 1
      · rw [if_pos ⟨hrtz, hzero⟩]
        refine iff_of_true (fun digits => ?_) (by omega)
        obtain ⟨z, hz, hle⟩ := strip_floatBody digits hp hneg he hn hfit hzero
        rw [floatText_below digits hp hneg he hfit, if_pos hrtz, hz, Option.bind_some]
        exact hclose hle
      · rw [if_neg fun h => hzero h.2]
        obtain ⟨m, hm⟩ : ∃ m : ℕ, e2 + precision = m := ⟨(e2 + precision).toNat, by omega⟩
        by_cases hroom : sign.length + precision + 2 + 1 ≤ n
        · refine iff_of_true (fun digits => ?_) hroom
          obtain ⟨z, hz⟩ := floatBody_digit sign f.nsd digits hneg hm
          have hz1 := congrArg List.length hz
          rw [List.length_reverse, hlen, List.length_cons] at hz1
          obtain ⟨z', hz', hle⟩ := strip_digit f.altform2 (n := n)
            (etGetdigit_ne f.nsd digits m) (z := z) (by omega)
          rw [floatText_below digits hp hneg he hfit, if_pos hrtz, hz, hz', Option.bind_some]
          exact hclose (by omega)
        · -- the last digit is no zero
          refine iff_of_false (fun h => h (fun _ => 1) ?_) hroom
          obtain ⟨z, hz⟩ := floatBody_digit sign f.nsd (fun _ => 1) hneg hm
          have hone : etGetdigit f.nsd (fun _ => 1) m = UInt8.ofNat 49 := if_pos (by omega)
          rw [floatText_below _ hp hneg he hfit, if_pos hrtz, hz, hone,
            strip_nonzero (by decide) (by decide), Option.bind_some, ← hone, ← hz]
          exact closeText_none (by rw [List.length_reverse, hlen]; omega)
    · rw [if_neg fun h => hrtz h.1]
      by_cases hroom : sign.length + precision + 2 + 1 ≤ n
      · refine iff_of_true (fun digits => ?_) hroom
        rw [floatText_below digits hp hneg he hfit, if_neg hrtz, Option.bind_some]
        exact hclose (by rw [List.length_reverse, hlen]; omega)
      · refine iff_of_false (fun h => h (fun _ => 1) ?_) hroom
        rw [floatText_below _ hp hneg he hfit, if_neg hrtz, Option.bind_some]
        exact closeText_none (by rw [List.length_reverse, hlen]; omega)
  · have hdp : (decide (0 < precision) || f.alternateform || f.altform2) = true := by
      rw [decide_eq_true hp, Bool.true_or, Bool.true_or]
    refine iff_of_false (fun h => h (fun _ => 1) ?_) (by split <;> omega)
    rw [floatText, hdp, puts_none (Nat.zero_le _) (by rw [hlen, List.length_nil]; omega),
      Option.bind_none]

theorem int_cases (x : ℤ) : int x = some x ∧ x < 2 ^ 31 ∨ int x = none := by
  rw [int]
  split
  · rename_i h
    exact Or.inl ⟨rfl, h.2⟩
  · exact Or.inr rfl

/-- The precision and the exponent that decide the length. -/
theorem fixed_spec {kind : FloatKind} {precision exp : ℤ} (hp : 0 ≤ precision)
    (hfloat : kind = .float → -precision - 1 ≤ exp) :
    0 ≤ fixedPrecision kind precision exp ∧
      -fixedPrecision kind precision exp - 1 ≤ fixedExp kind precision exp ∧
      fixedPrecision kind precision exp ≤ precision + 4 ∧
      (kind = .generic → fixedExp kind precision exp + fixedPrecision kind precision exp =
        precision) ∧ (fixedExp kind precision exp < 0 → asExp kind precision exp = false) ∧
      (kind ≠ .generic → fixedPrecision kind precision exp = precision) := by
  rw [fixedPrecision, fixedExp]
  cases kind with
  | float =>
    have hle := hfloat rfl
    have hfalse : asExp .float precision exp = false := rfl
    have hne : FloatKind.float ≠ .generic := by decide
    rw [hfalse, if_neg fun h => hne h.1, if_neg Bool.false_ne_true]
    exact ⟨hp, hle, by omega, fun h => absurd h hne, fun _ => rfl, fun _ => rfl⟩
  | exp =>
    have htrue : asExp .exp precision exp = true := rfl
    have hne : FloatKind.exp ≠ .generic := by decide
    rw [htrue, if_neg fun h => hne h.1, if_pos rfl]
    exact ⟨hp, by omega, by omega, fun h => absurd h hne, fun h => absurd h (lt_irrefl 0),
      fun _ => rfl⟩
  | generic =>
    cases has : asExp .generic precision exp with
    | true =>
      rw [if_neg fun h => absurd h.2 (by decide), if_pos rfl]
      exact ⟨hp, by omega, by omega, fun _ => zero_add _, fun h => absurd h (lt_irrefl 0),
        fun h => absurd rfl h⟩
    | false =>
      have hrange : ¬(exp < -4 ∨ precision < exp) := of_decide_eq_false has
      rw [if_pos ⟨rfl, rfl⟩, if_neg Bool.false_ne_true]
      exact ⟨by omega, by omega, by omega, fun _ => by omega, fun _ => rfl, fun h => absurd rfl h⟩

/-- **Floating point numbers**, whatever their digits are. -/
theorem float_iff {f : Field} {width precision : ℤ} {kind : FloatKind} {negative : Bool} {exp : ℤ}
    (hw : 0 ≤ width) (hplow : -1 ≤ precision) (hplt : precision < 2 ^ 31)
    (hfloat : kind = .float → -floatPrecision kind precision - 1 ≤ exp) :
    (∀ digits, float f width precision kind negative (.exp exp) digits ≠ none) ↔
      (exp ≤ 350 → FloatFits f width kind negative (floatPrecision kind precision) exp) := by
  have hP : 0 ≤ floatPrecision kind precision ∧ floatPrecision kind precision < 2 ^ 31 := by
    rw [floatPrecision]
    split <;> split <;> omega
  by_cases hinf : 350 < exp
  · refine iff_of_true (fun digits => ?_) fun h => absurd h (not_le.mpr hinf)
    rw [float, if_pos hinf]
    exact Option.some_ne_none _
  simp only [float, if_neg hinf]
  rw [imp_iff_right (not_lt.mp hinf), FloatFits]
  obtain ⟨hp0, hlow, hup, hgeneric, hbelow, hother⟩ := fixed_spec hP.1 hfloat
  generalize floatPrecision kind precision = P at *
  have hfirst : (if kind = .generic ∧ asExp kind P exp = false then int (P - exp) else some P) =
      some (fixedPrecision kind P exp) ∨
      (if kind = .generic ∧ asExp kind P exp = false then int (P - exp) else some P) = none ∧
        2 ^ 31 ≤ fixedPrecision kind P exp := by
    rw [fixedPrecision] at hp0 ⊢
    split at hp0
    · rename_i hif
      simp only [if_pos hif]
      by_cases hover : P - exp < 2 ^ 31
      · exact Or.inl (int_some (by omega) hover)
      · exact Or.inr ⟨int_none (not_lt.mp hover), not_lt.mp hover⟩
    · rename_i hif
      simp only [if_neg hif]
      exact Or.inl trivial
  have hexp : (if asExp kind P exp = true then 0 else exp) = fixedExp kind P exp := rfl
  rw [hexp]
  generalize fixedPrecision kind P exp = P' at *
  generalize fixedExp kind P exp = e2 at *
  rcases hfirst with hfirst | ⟨hfirst, hlarge⟩
  · rw [hfirst]
    simp only [Option.bind_some]
    by_cases hs : e2 + P' + width + 15 < 2 ^ 31
    · have hsize : (if (etBufSize : ℤ) - 15 < e2 + P' + width then int (e2 + P' + width + 15)
          else some (etBufSize : ℤ)) = some (floatSize (e2 + P' + width)) := by
        rw [floatSize]
        split
        · exact int_some (by omega) hs
        · rfl
      have hsum : int (e2 + P') = some (e2 + P') := int_some (by omega) (by omega)
      have hsum' : int (e2 + P' + width) = some (e2 + P' + width) :=
        int_some (by omega) (by omega)
      simp only [hsum, hsum', hsize, Option.bind_some]
      have hmin : 70 ≤ floatSize (e2 + P' + width) ∧
          e2 + P' + width + 15 ≤ floatSize (e2 + P' + width) := by
        have hbuf : (etBufSize : ℤ) = 70 := rfl
        rw [floatSize, hbuf]
        split <;> omega
      have hsign := length_signOf f negative
      generalize floatSize (e2 + P' + width) = n at *
      by_cases hrefused : 0x7fffff00 ≤ n
      · refine iff_of_true (fun digits => ?_) ⟨hs, fun _ h => absurd h (not_lt.mpr hrefused)⟩
        exact inBuffer_ne_none fun h => absurd h (not_lt.mpr hrefused)
      simp only [inBuffer, if_neg hrefused]
      rw [imp_iff_right (not_le.mp hrefused)]
      by_cases hneg : e2 < 0
      · rw [hbelow hneg]
        by_cases hpos : 0 < P'
        · rw [floatText_below_iff hpos hneg hlow (by omega) (by omega)]
          constructor
          · intro h
            exact ⟨hs, fun _ => by omega⟩
          · intro h
            have hfit := h.2 hneg
            omega
        · refine iff_of_true (fun digits => floatText_roomy hp0 hlow (by omega) ?_)
            ⟨hs, fun _ => ?_⟩
          · rw [if_pos hneg]
            omega
          · split <;> omega
      · refine iff_of_true (fun digits => floatText_roomy hp0 hlow (by omega) ?_)
          ⟨hs, fun h => absurd h hneg⟩
        rw [if_neg hneg]
        omega
    · refine iff_of_false (fun h => h (fun _ => 1) ?_) fun h => hs h.1
      rcases int_cases (e2 + P') with ⟨h1, -⟩ | h1
      · rw [h1, Option.bind_some]
        rcases int_cases (e2 + P' + width) with ⟨h2, -⟩ | h2
        · have hbuf : (etBufSize : ℤ) = 70 := rfl
          rw [h2, Option.bind_some, if_pos (by omega), int_none (not_lt.mp hs), Option.bind_none]
        · rw [h2, Option.bind_none]
      · rw [h1, Option.bind_none]
  · rw [hfirst]
    refine iff_of_false (fun h => h (fun _ => 1) rfl) fun h => ?_
    have hkind : kind = .generic := by
      by_contra hne
      have heq := hother hne
      omega
    have hsum := hgeneric hkind
    omega

/-- **A conversion stays inside its buffer**, and its computations in the range of `int`, exactly
for the widths and precisions for which there is room. -/
theorem convert_iff (f : Field) (arg : Arg) (hlegal : arg.Legal f) :
    (∀ digits, convert f digits arg ≠ none) ↔ Fits f arg := by
  by_cases hwidth : f.width.Fits
  · by_cases hprecision : ∀ p, f.precision = some p → p.Fits
    · have hread : f.readWidth = some f.width.value := readNumber_some hwidth
      obtain ⟨hlow, hlt⟩ := precisionValue_spec hprecision
      have hw := f.width.value_nonneg
      have hconvert : ∀ digits, convert f digits arg =
          conversion f f.width.value f.precisionValue digits arg := by
        intro digits
        rw [convert, hread, readPrecision_some hprecision]
        rfl
      simp only [hconvert]
      unfold Fits
      rw [and_iff_right hwidth, and_iff_right hprecision]
      cases arg with
      | radix info negative longvalue =>
        exact (forall_const (ℕ → Fin 10)).trans (radix_iff hlegal hlow)
      | float kind negative real =>
        cases real with
        | nan => exact iff_of_true (fun _ => Option.some_ne_none _) trivial
        | exp exp =>
          exact float_iff hw hlow hlt hlegal.2
      | charx c => exact (forall_const (ℕ → Fin 10)).trans charx_iff
      | sqlEscape q needQuote escarg =>
        simp only [conversion]
        rw [forall_const, sqlEscape_iff]
      | percent =>
        refine iff_of_true (fun _ => ?_) trivial
        rw [conversion, puts_some (by decide)]
        exact Option.some_ne_none _
      | other => exact iff_of_true (fun _ => Option.some_ne_none _) trivial
    · refine iff_of_false (fun h => h (fun _ => 1) ?_) fun h => hprecision h.2.1
      rw [convert, readPrecision_none hprecision]
      cases f.readWidth <;> rfl
  · refine iff_of_false (fun h => h (fun _ => 1) ?_) fun h => hwidth h.1
    have hread : f.readWidth = none := readNumber_none hwidth
    rw [convert, hread, Option.bind_none]

/-- `%f`, and `%.100c`. -/
def plainField (precision : Option Number) : Field :=
  ⟨false, false, false, false, false, false, .digits [], precision⟩

/-- `%f` without a precision, of a number below a half of the last digit. -/
theorem convert_small_float : convert (plainField none) (fun _ => 5)
    (.float .float false (.exp (-7))) ≠ none := by
  have hlegal : (Arg.float .float false (.exp (-7))).Legal (plainField none) :=
    ⟨by decide, fun _ => by decide⟩
  refine (convert_iff (plainField none) (.float .float false (.exp (-7))) hlegal).mpr
    ⟨Or.inl rfl, fun p hp => ?_, fun _ => ⟨by decide, fun _ _ => by decide⟩⟩ fun _ => 5
  cases hp

/-- `%.100c` writes a hundred characters into `buf`. -/
theorem not_inside_charx :
    ¬∀ (f : Field) (arg : Arg), arg.Legal f → ∀ digits, convert f digits arg ≠ none := by
  intro h
  have hcopies : charx 100 97 = none := by
    by_contra hne
    exact absurd (charx_iff.mp hne) (by decide)
  have hprecision : (plainField (some (.digits [1, 0, 0]))).readPrecision = some 100 := by decide
  have hwidth : (plainField (some (.digits [1, 0, 0]))).readWidth = some 0 := by decide
  refine h (plainField (some (.digits [1, 0, 0]))) (.charx 97) trivial (fun _ => 0) ?_
  rw [convert, hwidth, hprecision, Option.bind_some, Option.bind_some, conversion, hcopies]

end Conversion

end SqliteVms

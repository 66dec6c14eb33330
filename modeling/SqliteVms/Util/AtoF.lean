import Mathlib.Algebra.Order.Field.Power
import Mathlib.Data.List.DropRight
import SqliteVms.Util.Arith
import SqliteVms.Util.Conversion
import SqliteVms.Util.Atoi64

/-!
# Which texts are real numbers

`sqlite3AtoF` up to the floating point: the return value, and the significand with its exponent
before they are scaled. Each result of type `i64` and `int` is checked, so `none` means that one of
them overflows.

The digits are copied until one more might not fit. Later ones are counted before the point and
passed over behind it, so nothing is lost as long as they are zeros.

## Main definitions

* `sqlite3AtoF` — the return value, and what is scaled
* `Spells` — a text is a decimal number
* `Overlooked` — the text ends within a character, which is overlooked

## Main results

* `mantissa_spec`, `exponent_spec`, `scale_spec` — the parts
* `converts_iff` — the numbers are recognised and their values exact unless an end is overlooked
-/

namespace SqliteVms

namespace AtoF

open Vdbe (Enc)
open Arith (i64 largestInt64)
open Conversion (int)
open Printf (value)

/-! ### The code -/

/-- The variables of the loops over the digits. -/
structure Acc where
  s : ℤ
  d : ℤ
  nDigits : ℤ

/-- A loop that passes over characters and counts them; `d` goes by `dd`. -/
def skip (p : UInt8 → Bool) (dd : ℤ) : List UInt8 → Acc → Option (List UInt8 × Acc)
  | [], acc => some ([], acc)
  | c :: z, acc =>
    if p c = true then
      (int (acc.nDigits + 1)).bind fun nDigits =>
      (int (acc.d + dd)).bind fun d => skip p dd z ⟨acc.s, d, nDigits⟩
    else some (c :: z, acc)

/-- A loop that copies digits to the significand; `d` goes by `dd`. -/
def copyDigits (dd : ℤ) : List UInt8 → Acc → Option (List UInt8 × Acc)
  | [], acc => some ([], acc)
  | c :: z, acc =>
    if Sql.isDigit c = true ∧ acc.s < (largestInt64 - 9) / 10 then
      (i64 (acc.s * 10)).bind fun s =>
      (i64 (s + (c.toNat - 48))).bind fun s =>
      (int (acc.nDigits + 1)).bind fun nDigits =>
      (int (acc.d + dd)).bind fun d => copyDigits dd z ⟨s, d, nDigits⟩
    else some (c :: z, acc)

/-- The digits before the point. -/
def intDigits (z : List UInt8) : Option (List UInt8 × Acc) :=
  (skip (· = '0'.toUInt8) 0 z ⟨0, 0, 0⟩).bind fun (z, acc) =>
  (copyDigits 0 z acc).bind fun (z, acc) => skip Sql.isDigit 1 z acc

/-- The digits behind the point, if there is one. -/
def fracDigits (acc : Acc) : List UInt8 → Option (List UInt8 × Acc)
  | [] => some ([], acc)
  | c :: z =>
    if c = '.'.toUInt8 then
      (copyDigits (-1) z acc).bind fun (z, acc) => skip Sql.isDigit 0 z acc
    else some (c :: z, acc)

/-- The significand. -/
def mantissa (z : List UInt8) : Option (List UInt8 × Acc) :=
  (intDigits z).bind fun (z, acc) => fracDigits acc z

/-- A sign, and what is behind it. -/
def takeSign : List UInt8 → ℤ × List UInt8
  | [] => (1, [])
  | c :: z =>
    if c = '-'.toUInt8 then (-1, z) else if c = '+'.toUInt8 then (1, z) else (1, c :: z)

/-- The loop over the digits of the exponent: `e` and `eValid`. -/
def expDigits : List UInt8 → ℤ → Bool → Option (List UInt8 × ℤ × Bool)
  | [], e, eValid => some ([], e, eValid)
  | c :: z, e, eValid =>
    if Sql.isDigit c = true then
      (if e < 10000 then (int (e * 10)).bind fun e => int (e + (c.toNat - 48))
        else some 10000).bind fun e => expDigits z e true
    else some (c :: z, e, eValid)

/-- The exponent, if there is one: `esign`, `e` and `eValid`. -/
def exponent : List UInt8 → Option (List UInt8 × ℤ × ℤ × Bool)
  | [] => some ([], 1, 0, true)
  | c :: z =>
    if c = 'e'.toUInt8 ∨ c = 'E'.toUInt8 then
      if z = [] then some ([], 1, 0, false)
      else (expDigits (takeSign z).2 0 false).map fun (rest, e, eValid) =>
        (rest, (takeSign z).1, e, eValid)
    else some (c :: z, 1, 0, true)

/-- The loop that makes a positive exponent less. -/
def raise : ℕ → ℤ → Option (ℤ × ℤ)
  | 0, s => some (s, 0)
  | e + 1, s => if s < largestInt64 / 10 then (i64 (s * 10)).bind (raise e) else some (s, e + 1)

/-- The loop that makes a negative exponent less. -/
def lower : ℕ → ℤ → ℤ × ℤ
  | 0, s => (s, 0)
  | e + 1, s => if s % 10 = 0 then lower e (s / 10) else (s, e + 1)

/-- What is scaled: `s`, `esign` and `e`. -/
structure Scaled where
  s : ℤ
  esign : ℤ
  e : ℤ
  deriving DecidableEq

/-- From `do_atof_calc` on. A zero is not scaled. -/
def scale (sign : ℤ) (acc : Acc) (esign e : ℤ) : Option Scaled :=
  (int (e * esign)).bind fun e =>
  (int (e + acc.d)).bind fun e =>
  (if e < 0 then (int (e * -1)).map fun e => ((-1 : ℤ), e) else some (1, e)).bind fun (esign, e) =>
  if acc.s = 0 then some ⟨0, esign, e⟩
  else
    (if 0 < esign then raise e.toNat acc.s else some (lower e.toNat acc.s)).bind fun (s, e) =>
    (if sign < 0 then i64 (-s) else some s).map fun s => ⟨s, esign, e⟩

/-- The rest of `sqlite3AtoF`, with the bytes that are looked at. -/
def convert (z : List UInt8) (nonNum : Bool) : Option (Bool × Scaled) :=
  let z := z.dropWhile Sql.isSpace
  if z = [] then some (false, ⟨0, 1, 0⟩)
  else
    (mantissa (takeSign z).2).bind fun (rest, acc) =>
    (exponent rest).bind fun (rest, esign, e, eValid) =>
    let rest := if acc.nDigits ≠ 0 ∧ eValid = true then rest.dropWhile Sql.isSpace else rest
    (scale (takeSign z).1 acc esign e).map fun result =>
      (decide (rest = [] ∧ 0 < acc.nDigits ∧ eValid = true ∧ nonNum = false), result)

/-- `sqlite3AtoF`. It looks at the same bytes as `sqlite3Atoi64`. -/
def sqlite3AtoF (z : ℕ → UInt8) (length : ℕ) (enc : Enc) : Option (Bool × Scaled) :=
  convert (Atoi.scanned z length enc).1 (Atoi.scanned z length enc).2

/-! ### Decimal numbers -/

/-- The parts of a decimal number. -/
structure Decimal where
  neg : Bool
  ds : List UInt8
  fs : List UInt8
  eneg : Bool
  es : List UInt8

/-- The factor for a sign. -/
def sgn (neg : Bool) : ℤ := if neg = true then -1 else 1

/-- Its value. -/
def Decimal.toRat (v : Decimal) : ℚ :=
  sgn v.neg * value (v.ds ++ v.fs) * 10 ^ (sgn v.eneg * value v.es - v.fs.length : ℤ)

/-- Digits without the zeros in front and at the end. -/
def significant (ds : List UInt8) : List UInt8 :=
  (ds.dropWhile (· = '0'.toUInt8)).rdropWhile (· = '0'.toUInt8)

/-- A sign, or none. -/
def SignOf (sign : List UInt8) (neg : Bool) : Prop :=
  sign = [] ∧ neg = false ∨ sign = ['+'.toUInt8] ∧ neg = false ∨ sign = ['-'.toUInt8] ∧ neg = true

/-- A point with the digits behind it, or neither. -/
def PointOf (point fs : List UInt8) : Prop := point = [] ∧ fs = [] ∨ point = '.'.toUInt8 :: fs

/-- An exponent, or none. -/
def ExpOf (exp : List UInt8) (eneg : Bool) (es : List UInt8) : Prop :=
  exp = [] ∧ es = [] ∨ ∃ c sign, exp = c :: (sign ++ es) ∧
    (c = 'e'.toUInt8 ∨ c = 'E'.toUInt8) ∧ SignOf sign eneg ∧ es ≠ []

/-- The text is a decimal number between white space. -/
structure Spells (t : List UInt8) (v : Decimal) : Prop where
  text : ∃ ws sign point exp ws',
    t = ws ++ (sign ++ (v.ds ++ (point ++ (exp ++ ws')))) ∧ (∀ c ∈ ws, Sql.isSpace c = true) ∧
      (∀ c ∈ ws', Sql.isSpace c = true) ∧ SignOf sign v.neg ∧ PointOf point v.fs ∧
      ExpOf exp v.eneg v.es
  ds : ∀ c ∈ v.ds, Sql.isDigit c = true
  fs : ∀ c ∈ v.fs, Sql.isDigit c = true
  es : ∀ c ∈ v.es, Sql.isDigit c = true
  ne_nil : v.ds ≠ [] ∨ v.fs ≠ []

/-- The characters are a decimal number. -/
def IsReal (z : ℕ → UInt8) (length : ℕ) (enc : Enc) (v : Decimal) : Prop :=
  ∃ t, Atoi.transliterate z length enc = some t ∧ Spells t v

/-- What the conversion promises. -/
structure Converts (z : ℕ → UInt8) (length : ℕ) (enc : Enc) : Prop where
  noOverflow : length < 2 ^ 30 → ∃ result, sqlite3AtoF z length enc = some result
  valid : ∀ ok result, sqlite3AtoF z length enc = some (ok, result) →
    (ok = true ↔ ∃ v, IsReal z length enc v)
  exact : ∀ ok result v, sqlite3AtoF z length enc = some (ok, result) → IsReal z length enc v →
    (significant (v.ds ++ v.fs)).length ≤ 18 → v.es.length ≤ 4 →
    (result.s : ℚ) * 10 ^ (result.esign * result.e) = v.toRat

/-- The text is a number but for its end, which is in the middle of a character. -/
def Overlooked (z : ℕ → UInt8) (length : ℕ) (enc : Enc) : Prop :=
  Atoi.Torn length enc ∧ (Atoi.scanned z length enc).2 = false ∧
    ∃ v, Spells (Atoi.scanned z length enc).1 v

/-! ### Digits -/

variable {ds fs es rest z t : List UInt8} {c : UInt8}

theorem int_eq {x : ℤ} (hlo : -2 ^ 31 ≤ x) (hhi : x < 2 ^ 31) : int x = some x := if_pos ⟨hlo, hhi⟩

theorem i64_eq {x : ℤ} (hlo : 0 ≤ x) (hhi : x ≤ largestInt64) : i64 x = some x := by
  refine if_pos ⟨?_, hhi⟩
  rw [Arith.smallestInt64, largestInt64]
  omega

theorem digit_range (h : Sql.isDigit c = true) :
    0 ≤ (c.toNat : ℤ) - 48 ∧ (c.toNat : ℤ) - 48 ≤ 9 := by
  have := Printf.isDigit_toNat h
  omega

theorem value_concat (h : Sql.isDigit c = true) (l : List UInt8) :
    (value (l ++ [c]) : ℤ) = value l * 10 + (c.toNat - 48) := by
  have := (Printf.isDigit_toNat h).1
  rw [Printf.value_append]
  push_cast
  omega

theorem value_append (l l' : List UInt8) :
    value (l ++ l') = value l * 10 ^ l'.length + value l' := by
  induction l' using List.reverseRecOn with
  | nil => rw [List.append_nil, List.length_nil, pow_zero, Nat.mul_one]; rfl
  | append_singleton l' c ih =>
    rw [← List.append_assoc, Printf.value_append, Printf.value_append, ih, List.length_append,
      List.length_singleton, pow_succ]
    ring

theorem value_zeros {zs : List UInt8} (h : ∀ c ∈ zs, c = '0'.toUInt8) : value zs = 0 := by
  induction zs using List.reverseRecOn with
  | nil => rfl
  | append_singleton zs c ih =>
    obtain ⟨hzs, hc⟩ := List.forall_mem_append.mp h
    rw [Printf.value_append, ih hzs, hc c (List.mem_singleton_self c)]
    rfl

/-- The value of digits is that of the significant ones, with zeros behind. -/
theorem value_significant (h : ∀ c ∈ ds, Sql.isDigit c = true) :
    ∃ m k, value ds = m * 10 ^ k ∧ m < 10 ^ (significant ds).length := by
  refine ⟨value (significant ds),
    ((ds.dropWhile (· = '0'.toUInt8)).length - (significant ds).length), ?_, ?_⟩
  · rw [← Atoi.value_dropWhile, significant]
    generalize ds.dropWhile (· = '0'.toUInt8) = l
    induction l using List.reverseRecOn with
    | nil => rfl
    | append_singleton l c ih =>
      by_cases hc : c = '0'.toUInt8
      · have hle : (l.rdropWhile (· = '0'.toUInt8)).length ≤ l.length :=
          (List.rdropWhile_prefix _ _).length_le
        have hzero : c.toNat - 48 = 0 := by rw [hc]; rfl
        rw [List.rdropWhile_concat_pos _ _ _ (by simpa using hc), Printf.value_append, hzero,
          Nat.add_zero, List.length_append, List.length_singleton,
          show l.length + 1 - (l.rdropWhile (· = '0'.toUInt8)).length =
            l.length - (l.rdropWhile (· = '0'.toUInt8)).length + 1 by omega, pow_succ,
          ← Nat.mul_assoc, ← ih]
      · rw [List.rdropWhile_concat_neg _ _ _ (by simpa using hc), Nat.sub_self, pow_zero,
          Nat.mul_one]
  · exact Atoi.value_lt fun c hc => h c ((List.dropWhile_sublist _).subset
      ((List.rdropWhile_prefix _ _).sublist.subset hc))

/-! ### The loops -/

theorem skip_spec {p : UInt8 → Bool} {dd : ℤ} (hdd : dd = 0 ∨ dd = 1) {xs : List UInt8}
    (hxs : ∀ c ∈ xs, p c = true) (hrest : ∀ c, rest.head? = some c → p c = false) {s d n : ℤ}
    (hn : 0 ≤ n) (hn' : n + xs.length < 2 ^ 31) (hd : -2 ^ 31 ≤ d) (hd' : d + xs.length < 2 ^ 31) :
    skip p dd (xs ++ rest) ⟨s, d, n⟩ =
      some (rest, ⟨s, d + dd * xs.length, n + xs.length⟩) := by
  induction xs generalizing d n with
  | nil =>
    rw [List.nil_append, List.length_nil, Nat.cast_zero, mul_zero, add_zero, add_zero]
    cases rest with
    | nil => rfl
    | cons c rest => rw [skip, if_neg (by rw [hrest c rfl]; exact Bool.false_ne_true)]
  | cons c xs ih =>
    obtain ⟨hc, hxs⟩ := List.forall_mem_cons.mp hxs
    rw [List.length_cons, Nat.cast_succ] at hn' hd'
    rw [List.cons_append, skip, if_pos hc]
    dsimp only
    rw [int_eq (by omega) (by omega), Option.bind_some, int_eq (by omega) (by omega),
      Option.bind_some, ih hxs (by omega) (by omega) (by omega) (by omega), List.length_cons,
      Nat.cast_succ]
    congr 3
    · ring
    · ring

/-- The digits that are copied: all, or so many that one more might not fit. -/
theorem copyDigits_spec (dd : ℤ) (hdd : dd = 0 ∨ dd = -1)
    (hds : ∀ c ∈ ds, Sql.isDigit c = true)
    (hrest : ∀ c, rest.head? = some c → Sql.isDigit c = false)
    (pre : List UInt8) (hpre : value pre ≤ largestInt64) {d n : ℤ} (hn : 0 ≤ n)
    (hn' : n + ds.length < 2 ^ 31) (hd : d < 2 ^ 31) (hd' : -2 ^ 31 ≤ d - ds.length) :
    ∃ k ≤ ds.length,
      copyDigits dd (ds ++ rest) ⟨value pre, d, n⟩ =
        some (ds.drop k ++ rest, ⟨value (pre ++ ds.take k), d + dd * k, n + k⟩) ∧
      (value (pre ++ ds.take k) : ℤ) ≤ largestInt64 ∧
      (k = ds.length ∨ (largestInt64 - 9) / 10 ≤ value (pre ++ ds.take k)) ∧
      ((largestInt64 - 9) / 10 ≤ value pre → k = 0) := by
  induction ds generalizing pre d n with
  | nil =>
    refine ⟨0, le_rfl, ?_, by simpa using hpre, Or.inl rfl, fun _ => rfl⟩
    rw [List.nil_append, List.drop_nil, List.nil_append, List.take_nil, List.append_nil,
      Nat.cast_zero, mul_zero, add_zero, add_zero]
    cases rest with
    | nil => rfl
    | cons c rest =>
      rw [copyDigits, if_neg fun h => by rw [hrest c rfl] at h; exact Bool.false_ne_true h.1]
  | cons c ds ih =>
    obtain ⟨hc, hds⟩ := List.forall_mem_cons.mp hds
    rw [List.length_cons, Nat.cast_succ] at hn' hd'
    by_cases hroom : (value pre : ℤ) < (largestInt64 - 9) / 10
    · have hdigit := digit_range hc
      have hmax : largestInt64 = 9223372036854775807 := rfl
      have hnext := value_concat hc pre
      obtain ⟨k, hk, hrun, hle, hend, -⟩ := ih hds (pre ++ [c]) (d := d + dd) (n := n + 1)
        (by omega) (by omega) (by omega) (by omega) (by omega)
      have hpres : pre ++ [c] ++ ds.take k = pre ++ (c :: ds).take (k + 1) := by
        rw [List.take_succ_cons, List.append_assoc, List.singleton_append]
      rw [hpres] at hrun hle hend
      refine ⟨k + 1, by rw [List.length_cons]; omega, ?_, hle, ?_, fun hge => by omega⟩
      · rw [List.cons_append, copyDigits, if_pos ⟨hc, hroom⟩]
        dsimp only
        rw [i64_eq (by omega) (by omega), Option.bind_some, i64_eq (by omega) (by omega),
          Option.bind_some,
          int_eq (by omega) (by omega), Option.bind_some, int_eq (by omega) (by omega),
          Option.bind_some, ← hnext, hrun, List.drop_succ_cons, Nat.cast_succ]
        congr 3
        · ring
        · ring
      · rw [List.length_cons]
        exact hend.imp (congrArg (· + 1)) id
    · refine ⟨0, Nat.zero_le _, ?_, by simpa using hpre, Or.inr ?_, fun _ => rfl⟩
      · rw [List.cons_append, copyDigits, if_neg fun h => hroom h.2, List.drop_zero, List.take_zero,
          List.append_nil, Nat.cast_zero, mul_zero, add_zero, add_zero]
        rfl
      · rw [List.take_zero, List.append_nil]
        omega

/-! ### The parts -/

/-- The digits before the point: zeros, and then others. -/
theorem intDigits_spec (hds : ∀ c ∈ ds, Sql.isDigit c = true) (hlen : ds.length < 2 ^ 31)
    (hrest : ∀ c, rest.head? = some c → Sql.isDigit c = false) :
    ∃ k ≤ ds.length,
      intDigits (ds ++ rest) = some (rest, ⟨value (ds.take k), ds.length - k, ds.length⟩) ∧
      (value (ds.take k) : ℤ) ≤ largestInt64 ∧
      (k = ds.length ∨ (largestInt64 - 9) / 10 ≤ value (ds.take k)) := by
  obtain ⟨zs, hzs⟩ : ∃ zs, ds.takeWhile (· = '0'.toUInt8) = zs := ⟨_, rfl⟩
  obtain ⟨ds', hds'⟩ : ∃ ds', ds.dropWhile (· = '0'.toUInt8) = ds' := ⟨_, rfl⟩
  have hparts : ds = zs ++ ds' := by rw [← hzs, ← hds', List.takeWhile_append_dropWhile]
  have hzeros : ∀ c ∈ zs, c = '0'.toUInt8 := fun c hc => by
    rw [← hzs] at hc
    simpa using List.mem_takeWhile_imp hc
  have hdigits : ∀ c ∈ ds', Sql.isDigit c = true := fun c hc =>
    hds c (hparts ▸ List.mem_append_right zs hc)
  have hsum : ds.length = zs.length + ds'.length := by rw [hparts, List.length_append]
  have hhead : ∀ c, (ds' ++ rest).head? = some c → decide (c = '0'.toUInt8) = false := by
    intro c hc
    have hzero : (ds ++ rest).dropWhile (· = '0'.toUInt8) = ds' ++ rest := by
      rw [Atoi.dropWhile_zeros hrest, hds']
    have hnot := List.head?_dropWhile_not (· = '0'.toUInt8) (ds ++ rest)
    rw [hzero, hc] at hnot
    exact hnot
  have hskip := skip_spec (p := (· = '0'.toUInt8)) (s := 0) (d := 0) (n := 0) (Or.inl rfl)
    (fun c hc => decide_eq_true (hzeros c hc)) hhead le_rfl (by omega) (by omega) (by omega)
  have hmax : largestInt64 = 9223372036854775807 := rfl
  obtain ⟨k, hk, hcopy, hle, hend, -⟩ := copyDigits_spec 0 (Or.inl rfl) hdigits hrest zs (d := 0)
    (n := zs.length) (by rw [value_zeros hzeros, hmax]; omega) (by omega) (by omega)
    (by omega) (by omega)
  have hdrop : ∀ c ∈ ds'.drop k, Sql.isDigit c = true := fun c hc =>
    hdigits c (List.mem_of_mem_drop hc)
  have hlen' : (ds'.drop k).length = ds'.length - k := List.length_drop
  have hpass := skip_spec (s := value (zs ++ ds'.take k)) (d := 0) (n := zs.length + k)
    (Or.inr rfl) hdrop hrest (by omega) (by omega) (by omega) (by omega)
  have htake : zs ++ ds'.take k = ds.take (zs.length + k) := by
    rw [hparts, List.take_length_add_append]
  rw [htake] at hcopy hle hend hpass
  refine ⟨zs.length + k, by omega, ?_, hle, hend.imp (fun h => by omega) id⟩
  rw [value_zeros hzeros, Nat.cast_zero] at hcopy
  rw [intDigits, hparts, List.append_assoc, hskip, Option.bind_some]
  dsimp only
  rw [zero_mul, add_zero, zero_add, hcopy, Option.bind_some]
  dsimp only
  rw [zero_mul, add_zero, hpass, ← hparts, hlen']
  congr 3
  · rw [hsum, Nat.cast_sub hk]
    push_cast
    ring
  · rw [hsum, Nat.cast_sub hk]
    push_cast
    ring

/-- **The digits of the significand.** Those that are not copied are counted in `d`, or behind the
point. -/
theorem mantissa_spec {point : List UInt8} (hds : ∀ c ∈ ds, Sql.isDigit c = true)
    (hfs : ∀ c ∈ fs, Sql.isDigit c = true) (hpoint : PointOf point fs)
    (hlen : ds.length + fs.length < 2 ^ 31)
    (hrest : ∀ c, rest.head? = some c → Sql.isDigit c = false)
    (hdot : point = [] → rest.head? ≠ some '.'.toUInt8) :
    ∃ k ≤ (ds ++ fs).length, mantissa (ds ++ (point ++ rest)) =
        some (rest, ⟨value ((ds ++ fs).take k), ds.length - k, ds.length + fs.length⟩) ∧
      (value ((ds ++ fs).take k) : ℤ) ≤ largestInt64 ∧
      (k = (ds ++ fs).length ∨ (largestInt64 - 9) / 10 ≤ value ((ds ++ fs).take k)) := by
  rcases hpoint with ⟨rfl, rfl⟩ | rfl
  · obtain ⟨k, hk, hrun, hle, hend⟩ := intDigits_spec hds (by omega) hrest
    rw [List.append_nil]
    refine ⟨k, hk, ?_, hle, hend⟩
    rw [mantissa, List.nil_append, hrun, Option.bind_some, List.length_nil, Nat.cast_zero, add_zero]
    cases rest with
    | nil => rfl
    | cons c rest => exact if_neg fun h => hdot rfl (congrArg some h)
  · have hpoint : ∀ c, ('.'.toUInt8 :: (fs ++ rest)).head? = some c → Sql.isDigit c = false := by
      rintro c hc
      rw [← Option.some.inj hc]
      rfl
    obtain ⟨k, hk, hrun, hle, hend⟩ := intDigits_spec hds (by omega) hpoint
    obtain ⟨k', hk', hcopy, hle', hend', hfull⟩ := copyDigits_spec (-1) (Or.inr rfl) hfs hrest
      (ds.take k) (d := ds.length - k) (n := ds.length) hle (by omega) (by omega) (by omega)
      (by omega)
    have hdrop : ∀ c ∈ fs.drop k', Sql.isDigit c = true := fun c hc =>
      hfs c (List.mem_of_mem_drop hc)
    have hlen' : (fs.drop k').length = fs.length - k' := List.length_drop
    have hpass := skip_spec (s := value (ds.take k ++ fs.take k')) (d := ds.length - k + -1 * k')
      (n := ds.length + k') (Or.inl rfl) hdrop hrest (by omega) (by omega) (by omega) (by omega)
    -- digits behind the point are copied only if all before it are
    have htake : ds.take k ++ fs.take k' = (ds ++ fs).take (k + k') := by
      rcases hend with rfl | hend
      · rw [List.take_length, List.take_length_add_append]
      · rw [hfull hend, List.take_zero, List.append_nil, Nat.add_zero,
          List.take_append_of_le_length hk]
    rw [htake] at hcopy hle' hend' hpass
    refine ⟨k + k', by rw [List.length_append]; omega, ?_, hle', ?_⟩
    · rw [mantissa, List.cons_append, hrun, Option.bind_some]
      dsimp only
      rw [fracDigits, if_pos rfl, hcopy, Option.bind_some]
      dsimp only
      rw [hpass, hlen']
      congr 3
      · push_cast
        ring
      · rw [Nat.cast_sub hk']
        ring
    · rcases hend with rfl | hend
      · exact hend'.imp (fun h => by rw [h, List.length_append]) id
      · rw [hfull hend, Nat.add_zero, List.take_append_of_le_length hk]
        exact Or.inr hend

theorem takeSign_append {sign : List UInt8} {neg : Bool} (h : SignOf sign neg)
    (hz : ∀ c, z.head? = some c → c ≠ '+'.toUInt8 ∧ c ≠ '-'.toUInt8) :
    takeSign (sign ++ z) = (sgn neg, z) := by
  rcases h with ⟨rfl, rfl⟩ | ⟨rfl, rfl⟩ | ⟨rfl, rfl⟩
  · rw [List.nil_append]
    cases z with
    | nil => rfl
    | cons c z =>
      obtain ⟨hplus, hminus⟩ := hz c rfl
      rw [takeSign, if_neg hminus, if_neg hplus]
      rfl
  · rfl
  · rfl

theorem takeSign_cases (z : List UInt8) :
    ∃ sign neg, SignOf sign neg ∧ z = sign ++ (takeSign z).2 ∧ (takeSign z).1 = sgn neg := by
  cases z with
  | nil => exact ⟨[], false, Or.inl ⟨rfl, rfl⟩, rfl, rfl⟩
  | cons c z =>
    rw [takeSign]
    split
    case isTrue hminus =>
      exact ⟨['-'.toUInt8], true, Or.inr (Or.inr ⟨rfl, rfl⟩), by rw [hminus]; rfl, rfl⟩
    case isFalse =>
      split
      case isTrue hplus =>
        exact ⟨['+'.toUInt8], false, Or.inr (Or.inl ⟨rfl, rfl⟩), by rw [hplus]; rfl, rfl⟩
      case isFalse => exact ⟨[], false, Or.inl ⟨rfl, rfl⟩, rfl, rfl⟩

theorem expDigits_spec (hes : ∀ c ∈ es, Sql.isDigit c = true)
    (hrest : ∀ c, rest.head? = some c → Sql.isDigit c = false) (pre : List UInt8)
    (hpre : ∀ c ∈ pre, Sql.isDigit c = true) {e : ℤ} (he : 0 ≤ e) (he' : e < 100000)
    (hval : pre.length + es.length ≤ 4 → e = value pre) (eValid : Bool) :
    ∃ e', expDigits (es ++ rest) e eValid = some (rest, e', decide (eValid = true ∨ es ≠ [])) ∧
      0 ≤ e' ∧ e' < 100000 ∧ (pre.length + es.length ≤ 4 → e' = value (pre ++ es)) := by
  induction es generalizing pre e eValid with
  | nil =>
    refine ⟨e, ?_, he, he', fun h => by rw [List.append_nil]; exact hval h⟩
    have hvalid : decide (eValid = true ∨ ([] : List UInt8) ≠ []) = eValid := by simp
    rw [List.nil_append, hvalid]
    cases rest with
    | nil => rfl
    | cons c rest => rw [expDigits, if_neg (by rw [hrest c rfl]; exact Bool.false_ne_true)]
  | cons c es ih =>
    obtain ⟨hc, hes⟩ := List.forall_mem_cons.mp hes
    have hdigit := digit_range hc
    -- a number of at most three digits is below the bound
    have hsmall : pre.length + (es.length + 1) ≤ 4 → e < 10000 := fun h => by
      have hlt := Atoi.value_lt hpre
      have hle : 10 ^ pre.length ≤ 10 ^ 3 := Nat.pow_le_pow_right (by decide) (by omega)
      have := hval h
      omega
    obtain ⟨e₁, hstep, he₁, he₁', hval₁⟩ : ∃ e₁, (if e < 10000 then
        (int (e * 10)).bind fun e => int (e + (c.toNat - 48)) else some 10000) = some e₁ ∧ 0 ≤ e₁ ∧
        e₁ < 100000 ∧ ((pre ++ [c]).length + es.length ≤ 4 → e₁ = value (pre ++ [c])) := by
      split
      case isTrue hlt =>
        refine ⟨e * 10 + (c.toNat - 48), ?_, by omega, by omega, fun h => ?_⟩
        · rw [int_eq (by omega) (by omega), Option.bind_some, int_eq (by omega) (by omega)]
        · rw [List.length_append, List.length_singleton] at h
          rw [value_concat hc, ← hval (by rw [List.length_cons]; omega)]
      case isFalse hge =>
        refine ⟨10000, rfl, by omega, by omega, fun h => ?_⟩
        rw [List.length_append, List.length_singleton] at h
        exact absurd (hsmall (by omega)) hge
    obtain ⟨e', hrun, hlo, hhi, hval'⟩ := ih hes (pre ++ [c])
      (List.forall_mem_append.mpr ⟨hpre, by simpa using hc⟩) he₁ he₁' hval₁ true
    refine ⟨e', ?_, hlo, hhi, fun h => ?_⟩
    · rw [List.cons_append, expDigits, if_pos hc, hstep, Option.bind_some, hrun]
      simp
    · rw [hval' (by rw [List.length_append, List.length_singleton, List.length_cons] at *; omega),
        List.append_assoc, List.singleton_append]

theorem sgn_cases (neg : Bool) : sgn neg = 1 ∨ sgn neg = -1 := by
  cases neg
  · exact Or.inl rfl
  · exact Or.inr rfl

/-- **The exponent.** One of at most four digits is exact. -/
theorem exponent_spec {exp : List UInt8} {eneg : Bool} (hexp : ExpOf exp eneg es)
    (hes : ∀ c ∈ es, Sql.isDigit c = true)
    (hrest : ∀ c, rest.head? = some c → Sql.isDigit c = false)
    (hno : exp = [] → rest.head? ≠ some 'e'.toUInt8 ∧ rest.head? ≠ some 'E'.toUInt8) :
    ∃ esign e, exponent (exp ++ rest) = some (rest, esign, e, true) ∧
      (esign = 1 ∨ esign = -1) ∧ 0 ≤ e ∧ e < 100000 ∧
      (es.length ≤ 4 → e * esign = sgn eneg * value es) := by
  rcases hexp with ⟨rfl, rfl⟩ | ⟨c, sign, rfl, hc, hsign, hne⟩
  · refine ⟨1, 0, ?_, Or.inl rfl, le_rfl, by omega, fun _ => ?_⟩
    · rw [List.nil_append]
      cases rest with
      | nil => rfl
      | cons c rest =>
        exact if_neg (not_or.mpr ⟨fun h => (hno rfl).1 (congrArg some h),
          fun h => (hno rfl).2 (congrArg some h)⟩)
    · exact (mul_zero (sgn eneg)).symm
  · have hhead : ∀ c, (es ++ rest).head? = some c → c ≠ '+'.toUInt8 ∧ c ≠ '-'.toUInt8 := by
      obtain ⟨d, es, rfl⟩ := List.exists_cons_of_ne_nil hne
      intro c hc
      obtain rfl := Option.some.inj hc
      have := Atoi.isDigit_facts (hes d List.mem_cons_self)
      exact ⟨this.2.2.1, this.2.1⟩
    obtain ⟨e, hrun, hlo, hhi, hval⟩ := expDigits_spec hes hrest [] (List.forall_mem_nil _)
      (le_refl 0) (by omega) (fun _ => rfl) false
    have hvalid : decide (false = true ∨ es ≠ []) = true := decide_eq_true (Or.inr hne)
    have hnil : sign ++ es ++ rest ≠ [] := fun h => hne (by simp_all)
    refine ⟨sgn eneg, e, ?_, sgn_cases eneg, hlo, hhi, fun h => ?_⟩
    · rw [List.cons_append, exponent, if_pos hc, if_neg hnil, List.append_assoc,
        takeSign_append hsign hhead]
      dsimp only
      rw [hrun, Option.map_some, hvalid]
    · rw [hval (by rw [List.length_nil]; omega), List.nil_append, mul_comm]

/-- What is read as an exponent. -/
theorem exponent_cases (z : List UInt8) :
    ∃ rest esign e eValid, exponent z = some (rest, esign, e, eValid) ∧
      (esign = 1 ∨ esign = -1) ∧ 0 ≤ e ∧ e < 100000 ∧
      (eValid = true → ∃ exp eneg es, ExpOf exp eneg es ∧ (∀ c ∈ es, Sql.isDigit c = true) ∧
        z = exp ++ rest) := by
  cases z with
  | nil => exact ⟨[], 1, 0, true, rfl, Or.inl rfl, le_rfl, by omega, fun _ =>
      ⟨[], false, [], Or.inl ⟨rfl, rfl⟩, List.forall_mem_nil _, rfl⟩⟩
  | cons c z =>
    rw [exponent]
    split
    case isTrue hc =>
      split
      case isTrue => exact ⟨[], 1, 0, false, rfl, Or.inl rfl, le_rfl, by omega, fun h =>
          absurd h Bool.false_ne_true⟩
      case isFalse =>
        obtain ⟨sign, eneg, hsign, hz, hsgn⟩ := takeSign_cases z
        obtain ⟨z', hz'⟩ : ∃ z', (takeSign z).2 = z' := ⟨_, rfl⟩
        rw [hz'] at hz
        have hdigits : ∀ c ∈ z'.takeWhile Sql.isDigit, Sql.isDigit c = true := fun c hc =>
          List.mem_takeWhile_imp hc
        have hstop : ∀ c, (z'.dropWhile Sql.isDigit).head? = some c → Sql.isDigit c = false := by
          intro c hc
          have := List.head?_dropWhile_not Sql.isDigit z'
          rwa [hc] at this
        obtain ⟨e, hrun, hlo, hhi, -⟩ := expDigits_spec hdigits hstop [] (List.forall_mem_nil _)
          (le_refl 0) (by omega) (fun _ => rfl) false
        rw [List.takeWhile_append_dropWhile] at hrun
        refine ⟨_, _, e, _, by rw [hz', hrun, hsgn]; rfl, sgn_cases eneg, hlo, hhi, fun h => ?_⟩
        refine ⟨c :: (sign ++ z'.takeWhile Sql.isDigit), eneg, _, Or.inr ⟨c, sign, rfl, hc, hsign,
          (of_decide_eq_true h).resolve_left Bool.false_ne_true⟩, hdigits, ?_⟩
        rw [List.cons_append, List.append_assoc, List.takeWhile_append_dropWhile, ← hz]
    case isFalse => exact ⟨c :: z, 1, 0, true, rfl, Or.inl rfl, le_rfl, by omega, fun _ =>
        ⟨[], false, [], Or.inl ⟨rfl, rfl⟩, List.forall_mem_nil _, rfl⟩⟩

theorem raise_spec (e : ℕ) {s : ℤ} (hs : 0 ≤ s) (hs' : s ≤ largestInt64) :
    ∃ s' e', raise e s = some (s', e') ∧ 0 ≤ s' ∧ s' ≤ largestInt64 ∧
      (s' : ℚ) * 10 ^ e' = s * 10 ^ (e : ℤ) := by
  induction e generalizing s with
  | zero => exact ⟨s, 0, rfl, hs, hs', rfl⟩
  | succ e ih =>
    rw [raise]
    split
    case isTrue hlt =>
      have hmax : largestInt64 = 9223372036854775807 := rfl
      obtain ⟨s', e', hrun, hlo, hhi, hval⟩ := ih (s := s * 10) (by omega) (by omega)
      refine ⟨s', e', ?_, hlo, hhi, ?_⟩
      · rw [i64_eq (by omega) (by omega), Option.bind_some, hrun]
      · rw [hval, Nat.cast_succ, zpow_add_one₀ (by norm_num)]
        push_cast
        ring
    case isFalse => exact ⟨s, _, rfl, hs, hs', by push_cast; rfl⟩

theorem lower_spec (e : ℕ) {s : ℤ} (hs : 0 ≤ s) (hs' : s ≤ largestInt64) :
    0 ≤ (lower e s).1 ∧ (lower e s).1 ≤ largestInt64 ∧
      ((lower e s).1 : ℚ) * 10 ^ (-(lower e s).2) = s * 10 ^ (-(e : ℤ)) := by
  induction e generalizing s with
  | zero => exact ⟨hs, hs', rfl⟩
  | succ e ih =>
    rw [lower]
    split
    case isTrue hzero =>
      obtain ⟨hlo, hhi, hval⟩ := ih (s := s / 10) (by omega) (by omega)
      refine ⟨hlo, hhi, ?_⟩
      have hs10 : (s : ℚ) = (s / 10 : ℤ) * 10 := by
        have := Int.ediv_mul_cancel_of_emod_eq_zero hzero
        exact_mod_cast this.symm
      rw [hval, hs10, Nat.cast_succ, neg_add, zpow_add₀ (by norm_num), zpow_neg_one]
      ring
    case isFalse => exact ⟨hs, hs', by push_cast; rfl⟩

/-- **The significand and its exponent**, before they are scaled. -/
theorem scale_spec (neg : Bool) {acc : Acc} (hs : 0 ≤ acc.s) (hs' : acc.s ≤ largestInt64)
    {esign e : ℤ} (hesign : esign = 1 ∨ esign = -1) (he : 0 ≤ e) (he' : e < 100000) :
    (∀ r, scale (sgn neg) acc esign e = some r →
      (r.s : ℚ) * 10 ^ (r.esign * r.e) = sgn neg * acc.s * 10 ^ (e * esign + acc.d)) ∧
    (-2 ^ 31 < e * esign + acc.d → e * esign + acc.d < 2 ^ 31 →
      ∃ r, scale (sgn neg) acc esign e = some r) := by
  obtain ⟨s, d, n⟩ := acc
  dsimp only at hs hs' ⊢
  obtain ⟨x, hx⟩ : ∃ x, e * esign + d = x := ⟨_, rfl⟩
  have hprod : int (e * esign) = some (e * esign) := by
    rcases hesign with rfl | rfl <;> exact int_eq (by omega) (by omega)
  rw [hx, scale, hprod, Option.bind_some, hx]
  -- the sign is put in front again
  have hneg : ∀ s', 0 ≤ s' → s' ≤ largestInt64 →
      (if sgn neg < 0 then i64 (-s') else some s') = some (sgn neg * s') := by
    intro s' hlo hhi
    cases neg with
    | true =>
      rw [sgn, if_pos rfl, if_pos (by decide), neg_one_mul]
      refine if_pos ⟨?_, by omega⟩
      rw [Arith.smallestInt64]
      omega
    | false => rw [sgn, if_neg Bool.false_ne_true, if_neg (by decide), one_mul]
  have hcalc : ∀ esign' e', (esign' = 1 ∨ esign' = -1) → 0 ≤ e' → esign' * e' = x →
      ∃ r : Scaled, (if s = 0 then some ⟨0, esign', e'⟩
        else (if 0 < esign' then raise e'.toNat s else some (lower e'.toNat s)).bind fun (s, e) =>
          (if sgn neg < 0 then i64 (-s) else some s).map fun s => ⟨s, esign', e⟩) = some r ∧
        (r.s : ℚ) * 10 ^ (r.esign * r.e) = sgn neg * s * 10 ^ x := by
    rintro esign' e' hesign' he' rfl
    obtain ⟨e', rfl⟩ := Int.eq_ofNat_of_zero_le he'
    split
    case isTrue hzero =>
      refine ⟨_, rfl, ?_⟩
      rw [hzero, Int.cast_zero, mul_zero, zero_mul]
    case isFalse =>
      rcases hesign' with rfl | rfl
      · obtain ⟨s', e'', hrun, hlo, hhi, hval⟩ := raise_spec e' hs hs'
        rw [if_pos one_pos, Int.toNat_natCast, hrun, Option.bind_some]
        dsimp only
        rw [hneg s' hlo hhi, Option.map_some]
        refine ⟨_, rfl, ?_⟩
        rw [one_mul, one_mul, Int.cast_mul, mul_assoc, hval, mul_assoc]
      · obtain ⟨hlo, hhi, hval⟩ := lower_spec e' hs hs'
        rw [if_neg (by decide), Int.toNat_natCast, Option.bind_some]
        dsimp only
        rw [hneg _ hlo hhi, Option.map_some]
        refine ⟨_, rfl, ?_⟩
        rw [neg_one_mul, neg_one_mul, Int.cast_mul, mul_assoc, hval, mul_assoc]
  by_cases hrange : -2 ^ 31 < x ∧ x < 2 ^ 31
  · rw [int_eq (by omega) hrange.2, Option.bind_some]
    split
    case isTrue hlt =>
      rw [int_eq (by omega) (by omega), Option.map_some, Option.bind_some]
      obtain ⟨r, hr, hval⟩ := hcalc (-1) (x * -1) (Or.inr rfl) (by omega) (by ring)
      dsimp only
      rw [hr]
      exact ⟨fun r' hr' => Option.some.inj hr' ▸ hval, fun _ _ => ⟨r, rfl⟩⟩
    case isFalse hge =>
      rw [Option.bind_some]
      obtain ⟨r, hr, hval⟩ := hcalc 1 x (Or.inl rfl) (by omega) (one_mul x)
      dsimp only
      rw [hr]
      exact ⟨fun r' hr' => Option.some.inj hr' ▸ hval, fun _ _ => ⟨r, rfl⟩⟩
  · refine ⟨fun r hr => ?_, fun hlo hhi => absurd ⟨hlo, hhi⟩ hrange⟩
    by_cases hint : -2 ^ 31 ≤ x ∧ x < 2 ^ 31
    · -- the one number whose negative is no `int`
      have hnot : int (x * -1) = none := if_neg (by omega)
      rw [int_eq hint.1 hint.2, Option.bind_some, if_pos (by omega), hnot] at hr
      exact absurd hr.symm (Option.some_ne_none r)
    · rw [int, if_neg hint] at hr
      exact absurd hr.symm (Option.some_ne_none r)

/-! ### Whole texts -/

/-- **No digit is lost** of at most 18 significant ones: those that are not copied are zeros. -/
theorem value_take (hds : ∀ c ∈ ds, Sql.isDigit c = true) {k : ℕ} (hk : k ≤ ds.length)
    (hend : k = ds.length ∨ (largestInt64 - 9) / 10 ≤ value (ds.take k))
    (hsig : (significant ds).length ≤ 18) :
    value ds = value (ds.take k) * 10 ^ (ds.length - k) := by
  have hsplit := value_append (ds.take k) (ds.drop k)
  rw [List.take_append_drop, List.length_drop] at hsplit
  rcases hend with rfl | hend
  · rw [hsplit, List.drop_length]
    rfl
  have hdrop : value (ds.drop k) < 10 ^ (ds.length - k) := by
    rw [← List.length_drop]
    exact Atoi.value_lt fun c hc => hds c (List.mem_of_mem_drop hc)
  obtain ⟨m, j, hm, hmlt⟩ := value_significant hds
  have hm18 : m < 10 ^ 18 := hmlt.trans_le (Nat.pow_le_pow_right (by decide) hsig)
  have hlarge : 922337203685477579 ≤ value (ds.take k) := by
    have hmax : largestInt64 = 9223372036854775807 := rfl
    omega
  have hle : ds.length - k ≤ j := by
    by_contra hgt
    have hpow : 10 * 10 ^ j ≤ 10 ^ (ds.length - k) := by
      rw [← pow_succ']
      exact Nat.pow_le_pow_right (by decide) (by omega)
    have hlower := Nat.mul_le_mul hlarge hpow
    have hupper := Nat.mul_lt_mul_of_pos_right hm18 (Nat.pow_pos (n := j) (show 0 < 10 by decide))
    omega
  have hdvd : 10 ^ (ds.length - k) ∣ value (ds.drop k) := by
    refine (Nat.dvd_add_right (Nat.dvd_mul_left _ (value (ds.take k)))).mp ?_
    rw [← hsplit, hm]
    exact Dvd.dvd.mul_left (pow_dvd_pow 10 hle) m
  rw [hsplit, Nat.eq_zero_of_dvd_of_lt hdvd hdrop, Nat.add_zero]

/-- What the loops leave for a text of `n` characters. -/
structure InRange (n : ℕ) (acc : Acc) (esign e : ℤ) : Prop where
  s_nonneg : 0 ≤ acc.s
  s_le : acc.s ≤ largestInt64
  esign : esign = 1 ∨ esign = -1
  e_nonneg : 0 ≤ e
  e_lt : e < 100000
  d_ge : -(n : ℤ) ≤ acc.d
  d_le : acc.d ≤ n

/-- A character behind the digits: a letter of an exponent, or white space. -/
theorem head_exp {exp ws' : List UInt8} {eneg : Bool} (hexp : ExpOf exp eneg es)
    (hws : ∀ c ∈ ws', Sql.isSpace c = true) (hc : (exp ++ ws').head? = some c) :
    c = 'e'.toUInt8 ∨ c = 'E'.toUInt8 ∨ Sql.isSpace c = true := by
  rcases hexp with ⟨rfl, -⟩ | ⟨c', sign, rfl, hc', -, -⟩
  · exact Or.inr (Or.inr (hws c (List.mem_of_head? hc)))
  · obtain rfl := Option.some.inj hc
    exact hc'.imp id Or.inl

theorem isSpace_facts (h : Sql.isSpace c = true) : Sql.isDigit c = false ∧ c ≠ '.'.toUInt8 ∧
    c ≠ 'e'.toUInt8 ∧ c ≠ 'E'.toUInt8 := by
  refine ⟨?_, ?_, ?_, ?_⟩
  · by_contra hc
    rw [(Atoi.isDigit_facts (eq_true_of_ne_false hc)).1] at h
    exact Bool.false_ne_true h
  all_goals
    rintro rfl
    exact absurd h (by decide)

/-- **A text that is a number.** -/
theorem convert_spells {v : Decimal} (h : Spells t v) (hlen : t.length < 2 ^ 31) (nonNum : Bool) :
    ∃ acc esign e, convert t nonNum =
        (scale (sgn v.neg) acc esign e).map (decide (nonNum = false), ·) ∧
      InRange t.length acc esign e ∧
      ((significant (v.ds ++ v.fs)).length ≤ 18 → v.es.length ≤ 4 →
        (sgn v.neg * acc.s * 10 ^ (e * esign + acc.d) : ℚ) = v.toRat) := by
  obtain ⟨⟨ws, sign, point, exp, ws', rfl, hws, hws', hsign, hpoint, hexp⟩, hds, hfs, hes, hne⟩ := h
  have hletter : ∀ c, (exp ++ ws').head? = some c → Sql.isDigit c = false ∧ c ≠ '.'.toUInt8 := by
    intro c hc
    rcases head_exp hexp hws' hc with rfl | rfl | hc
    · decide
    · decide
    · exact ⟨(isSpace_facts hc).1, (isSpace_facts hc).2.1⟩
  -- the first character behind the sign is a digit or a point
  obtain ⟨c₀, body, hbody, hc₀⟩ : ∃ c₀ body, v.ds ++ (point ++ (exp ++ ws')) = c₀ :: body ∧
      (Sql.isDigit c₀ = true ∨ c₀ = '.'.toUInt8) := by
    rcases hdc : v.ds with - | ⟨d, ds⟩
    · rcases hpoint with ⟨-, hfs'⟩ | rfl
      · exact absurd hdc (hne.resolve_right fun hnot => hnot hfs')
      · exact ⟨_, _, rfl, Or.inr rfl⟩
    · exact ⟨_, _, rfl, Or.inl (hds d (by rw [hdc]; exact List.mem_cons_self))⟩
  have hfirst : Sql.isSpace c₀ = false ∧ c₀ ≠ '+'.toUInt8 ∧ c₀ ≠ '-'.toUInt8 := by
    rcases hc₀ with hc₀ | rfl
    · have := Atoi.isDigit_facts hc₀
      exact ⟨this.1, this.2.2.1, this.2.1⟩
    · decide
  have hz : (ws ++ (sign ++ (v.ds ++ (point ++ (exp ++ ws'))))).dropWhile Sql.isSpace =
      sign ++ (v.ds ++ (point ++ (exp ++ ws'))) := by
    rw [List.dropWhile_append_of_pos hws, hbody]
    rcases hsign with ⟨rfl, -⟩ | ⟨rfl, -⟩ | ⟨rfl, -⟩
    · exact List.dropWhile_cons_of_neg (by rw [hfirst.1]; exact Bool.false_ne_true)
    · rfl
    · rfl
  have hsgn := takeSign_append (z := v.ds ++ (point ++ (exp ++ ws'))) hsign fun c hc => by
    rw [hbody] at hc
    exact Option.some.inj hc ▸ hfirst.2
  have hlengths : v.ds.length + v.fs.length ≤
      (ws ++ (sign ++ (v.ds ++ (point ++ (exp ++ ws'))))).length := by
    have hfs' : v.fs.length ≤ point.length := by
      rcases hpoint with ⟨-, hnil⟩ | rfl
      · rw [hnil]
        exact Nat.zero_le _
      · exact Nat.le_succ _
    simp only [List.length_append]
    omega
  obtain ⟨k, hk, hmant, hle, hend⟩ := mantissa_spec hds hfs hpoint (by omega)
    (fun c hc => (hletter c hc).1) fun _ hc => (hletter _ hc).2 rfl
  rw [List.length_append] at hk
  obtain ⟨esign, e, hexpo, hesign, hlo, hhi, hval⟩ := exponent_spec hexp hes
    (fun c hc => (isSpace_facts (hws' c (List.mem_of_head? hc))).1)
    fun _ => ⟨fun hc => (isSpace_facts (hws' _ (List.mem_of_head? hc))).2.2.1 rfl,
      fun hc => (isSpace_facts (hws' _ (List.mem_of_head? hc))).2.2.2 rfl⟩
  have hcount : (0 : ℤ) < v.ds.length + v.fs.length := by
    rcases hne with hne | hne
    · have := List.length_pos_of_ne_nil hne
      omega
    · have := List.length_pos_of_ne_nil hne
      omega
  refine ⟨⟨value ((v.ds ++ v.fs).take k), v.ds.length - k, v.ds.length + v.fs.length⟩, esign, e, ?_,
    ⟨Int.natCast_nonneg _, hle, hesign, hlo, hhi, ?_, ?_⟩, fun hsig hfour => ?_⟩
  · have hnil : sign ++ (v.ds ++ (point ++ (exp ++ ws'))) ≠ [] := by
      rw [hbody]
      exact List.append_ne_nil_of_right_ne_nil _ (List.cons_ne_nil _ _)
    have hblank : ws'.dropWhile Sql.isSpace = [] := List.dropWhile_eq_nil_iff.mpr hws'
    rw [convert, hz]
    dsimp only
    rw [if_neg hnil, hsgn, hmant, Option.bind_some]
    dsimp only
    rw [hexpo, Option.bind_some]
    dsimp only
    rw [if_pos ⟨hcount.ne', rfl⟩, hblank]
    simp only [hcount, true_and]
  · dsimp only
    omega
  · dsimp only
    omega
  · have hvalue := value_take (List.forall_mem_append.mpr ⟨hds, hfs⟩)
      (by rw [List.length_append]; exact hk) hend hsig
    have hpow : (v.ds.length - k : ℤ) + v.fs.length = ((v.ds ++ v.fs).length - k : ℕ) := by
      rw [Nat.cast_sub (by rw [List.length_append]; exact hk), List.length_append]
      push_cast
      ring
    rw [Decimal.toRat, hvalue, ← hval hfour, Int.cast_natCast, Nat.cast_mul, Nat.cast_pow,
      ← zpow_natCast, ← hpow, Nat.cast_ofNat]
    have hten : (10 : ℚ) ≠ 0 := by norm_num
    rw [show e * esign + ((v.ds.length : ℤ) - k) =
      ((v.ds.length - k : ℤ) + v.fs.length) + (e * esign - v.fs.length) by ring, zpow_add₀ hten]
    ring

/-- What is read as a significand. -/
theorem mantissa_cases (z : List UInt8) : ∃ ds point fs rest, z = ds ++ (point ++ rest) ∧
    (∀ c ∈ ds, Sql.isDigit c = true) ∧ (∀ c ∈ fs, Sql.isDigit c = true) ∧ PointOf point fs ∧
    (∀ c, rest.head? = some c → Sql.isDigit c = false) ∧
    (point = [] → rest.head? ≠ some '.'.toUInt8) ∧ ds.length + fs.length ≤ z.length := by
  have hstop : ∀ (l : List UInt8) c, (l.dropWhile Sql.isDigit).head? = some c →
      Sql.isDigit c = false := fun l c hc => by
    have := List.head?_dropWhile_not Sql.isDigit l
    rwa [hc] at this
  have hparts := List.takeWhile_append_dropWhile (p := Sql.isDigit) (l := z)
  have hlen := congrArg List.length hparts
  rw [List.length_append] at hlen
  by_cases hdot : (z.dropWhile Sql.isDigit).head? = some '.'.toUInt8
  · obtain ⟨z', hz'⟩ : ∃ z', z.dropWhile Sql.isDigit = '.'.toUInt8 :: z' :=
      ⟨_, (List.cons_head?_tail hdot).symm⟩
    have hparts' := List.takeWhile_append_dropWhile (p := Sql.isDigit) (l := z')
    have hlen' := congrArg List.length hparts'
    rw [List.length_append] at hlen'
    rw [hz', List.length_cons] at hlen
    refine ⟨z.takeWhile Sql.isDigit, '.'.toUInt8 :: z'.takeWhile Sql.isDigit,
      z'.takeWhile Sql.isDigit, z'.dropWhile Sql.isDigit, ?_, fun c hc => List.mem_takeWhile_imp hc,
      fun c hc => List.mem_takeWhile_imp hc, Or.inr rfl, hstop z', nofun, by omega⟩
    rw [List.cons_append, hparts', ← hz', hparts]
  · exact ⟨z.takeWhile Sql.isDigit, [], [], z.dropWhile Sql.isDigit, hparts.symm,
      fun c hc => List.mem_takeWhile_imp hc, List.forall_mem_nil _, Or.inl ⟨rfl, rfl⟩, hstop z,
      fun _ => hdot, by rw [List.length_nil]; omega⟩

/-- **Any text.** It is a number if the conversion says so. -/
theorem convert_cases (t : List UInt8) (hlen : t.length < 2 ^ 31) (nonNum : Bool) :
    convert t nonNum = some (false, ⟨0, 1, 0⟩) ∨
    ∃ ok neg acc esign e, convert t nonNum = (scale (sgn neg) acc esign e).map (ok, ·) ∧
      InRange t.length acc esign e ∧ (ok = true → nonNum = false ∧ ∃ v, Spells t v) := by
  rw [convert]
  dsimp only
  by_cases hblank : t.dropWhile Sql.isSpace = []
  · exact Or.inl (if_pos hblank)
  rw [if_neg hblank]
  right
  have hws : ∀ c ∈ t.takeWhile Sql.isSpace, Sql.isSpace c = true := fun c hc =>
    List.mem_takeWhile_imp hc
  have ht := List.takeWhile_append_dropWhile (p := Sql.isSpace) (l := t)
  obtain ⟨sign, neg, hsign, hz, hsgn⟩ := takeSign_cases (t.dropWhile Sql.isSpace)
  obtain ⟨ds, point, fs, rest, hz', hds, hfs, hpoint, hstop, hdot, hle⟩ :=
    mantissa_cases (takeSign (t.dropWhile Sql.isSpace)).2
  have hlengths := congrArg List.length ht
  rw [hz, List.length_append, List.length_append] at hlengths
  obtain ⟨k, hk, hmant, hmax, -⟩ := mantissa_spec hds hfs hpoint (by omega) hstop hdot
  rw [List.length_append] at hk
  obtain ⟨rest', esign, e, eValid, hexpo, hesign, hlo, hhi, hvalid⟩ := exponent_cases rest
  rw [← hz'] at hmant
  rw [hmant, Option.bind_some]
  dsimp only
  rw [hexpo, Option.bind_some, hsgn]
  refine ⟨_, neg, _, esign, e, rfl, ⟨Int.natCast_nonneg _, hmax, hesign, hlo, hhi, ?_, ?_⟩,
    fun hok => ?_⟩
  · dsimp only
    omega
  · dsimp only
    omega
  · obtain ⟨hrest, hcount, rfl, hnum⟩ := of_decide_eq_true hok
    rw [if_pos ⟨hcount.ne', rfl⟩] at hrest
    obtain ⟨exp, eneg, es, hexp, hes, hparts⟩ := hvalid rfl
    refine ⟨hnum, ⟨neg, ds, fs, eneg, es⟩, ⟨t.takeWhile Sql.isSpace, sign, point, exp, rest', ?_,
      hws, List.dropWhile_eq_nil_iff.mp hrest, hsign, hpoint, hexp⟩, hds, hfs, hes, ?_⟩
    · rw [← hparts, ← hz', ← hz, ht]
    · by_contra hnil
      obtain ⟨hnil, hnil'⟩ := not_or.mp hnil
      dsimp only at hcount hnil hnil'
      rw [not_not.mp hnil, not_not.mp hnil'] at hcount
      exact absurd hcount (by decide)

/-- A text in range is converted without an overflow. -/
theorem InRange.scale {n : ℕ} {acc : Acc} {esign e : ℤ} (h : InRange n acc esign e)
    (hn : n ≤ 2 ^ 30) (neg : Bool) : ∃ r, AtoF.scale (sgn neg) acc esign e = some r := by
  obtain ⟨hs, hs', hesign, hlo, hhi, hge, hle⟩ := h
  refine (scale_spec neg hs hs' hesign hlo hhi).2 ?_ ?_
  all_goals rcases hesign with rfl | rfl <;> omega

theorem convert_isSome (t : List UInt8) (hlen : t.length ≤ 2 ^ 30) (nonNum : Bool) :
    ∃ result, convert t nonNum = some result := by
  rcases convert_cases t (by omega) nonNum with h | ⟨ok, neg, acc, esign, e, h, hrange, -⟩
  · exact ⟨_, h⟩
  · obtain ⟨r, hr⟩ := hrange.scale hlen neg
    exact ⟨_, by rw [h, hr, Option.map_some]⟩

/-- The return value. -/
theorem convert_valid_iff {t : List UInt8} (hlen : t.length < 2 ^ 31) {nonNum ok : Bool}
    {result : Scaled} (h : convert t nonNum = some (ok, result)) :
    ok = true ↔ nonNum = false ∧ ∃ v, Spells t v := by
  constructor
  · intro hok
    rcases convert_cases t hlen nonNum with hrun | ⟨ok', neg, acc, esign, e, hrun, -, hvalid⟩
    · rw [hrun, Option.some.injEq, Prod.mk.injEq] at h
      exact absurd (h.1.trans hok) Bool.false_ne_true
    · rw [hrun, Option.map_eq_some_iff] at h
      obtain ⟨r, -, hr⟩ := h
      exact hvalid ((Prod.mk.inj hr).1.trans hok)
  · rintro ⟨hnum, v, hv⟩
    obtain ⟨acc, esign, e, hrun, -⟩ := convert_spells hv hlen nonNum
    rw [hrun, Option.map_eq_some_iff] at h
    obtain ⟨r, -, hr⟩ := h
    rw [← (Prod.mk.inj hr).1]
    exact decide_eq_true hnum

theorem convert_exact {t : List UInt8} (hlen : t.length < 2 ^ 31) {nonNum ok : Bool}
    {result : Scaled} (h : convert t nonNum = some (ok, result)) {v : Decimal} (hv : Spells t v)
    (hsig : (significant (v.ds ++ v.fs)).length ≤ 18) (hfour : v.es.length ≤ 4) :
    (result.s : ℚ) * 10 ^ (result.esign * result.e) = v.toRat := by
  obtain ⟨acc, esign, e, hrun, hrange, hval⟩ := convert_spells hv hlen nonNum
  rw [hrun, Option.map_eq_some_iff] at h
  obtain ⟨r, hr, heq⟩ := h
  obtain rfl := (Prod.mk.inj heq).2
  obtain ⟨hs, hs', hesign, hlo, hhi, -⟩ := hrange
  rw [(scale_spec v.neg hs hs' hesign hlo hhi).1 r hr, hval hsig hfour]

/-- The bytes that are looked at are no more than the text has, and half of them in UTF-16. -/
theorem length_scanned (z : ℕ → UInt8) (length : ℕ) (enc : Enc) :
    (Atoi.scanned z length enc).1.length ≤ length ∧
      (enc ≠ .utf8 → 2 * (Atoi.scanned z length enc).1.length ≤ length + 1) := by
  have hbytes : ∀ incr p zEnd, (Atoi.bytesBetween z incr p zEnd).length =
      (zEnd - p + (incr - 1)) / incr := fun incr p zEnd => by
    rw [Atoi.bytesBetween, List.length_map, List.length_range]
  have hends : ∀ i ≤ 1, ∃ m, Atoi.asciiEnd z length length i = i + 2 * m ∧
      (m = 0 ∨ i + 2 * (m - 1) < length) := fun i _ => by
    obtain ⟨m, heq, hall, -⟩ := Atoi.asciiEnd_spec length i (show length ≤ i + 2 * length by omega)
    refine ⟨m, heq, ?_⟩
    rcases Nat.eq_zero_or_pos m with hm | hm
    · exact Or.inl hm
    · exact Or.inr (hall (m - 1) (by omega)).2
  cases enc with
  | utf8 =>
    rw [Atoi.scanned, hbytes]
    exact ⟨by omega, fun h => absurd rfl h⟩
  | utf16le =>
    obtain ⟨m, heq, hm⟩ := hends 1 le_rfl
    rw [Atoi.scanned]
    dsimp only
    rw [hbytes, heq]
    omega
  | utf16be =>
    obtain ⟨m, heq, hm⟩ := hends 0 (Nat.zero_le 1)
    rw [Atoi.scanned]
    dsimp only
    rw [hbytes, heq]
    omega

/-- **Which texts are converted right.** All but those that end within a character, where it would
be a number without this end. -/
theorem converts_iff (z : ℕ → UInt8) (length : ℕ) (enc : Enc) (hlen : length < 2 ^ 31) :
    Converts z length enc ↔ ¬ Overlooked z length enc := by
  obtain ⟨hle, hhalf⟩ := length_scanned z length enc
  have hshort : (Atoi.scanned z length enc).1.length < 2 ^ 31 := by omega
  have htotal : length < 2 ^ 30 → ∃ result, sqlite3AtoF z length enc = some result := fun h =>
    convert_isSome _ (by omega) _
  rcases Atoi.scanned_spec z length enc with ⟨t, ht, hscan, htorn⟩ | ⟨hnone, hwhy⟩
  · refine iff_of_true ⟨htotal, fun ok result hrun => ?_, fun ok result v hrun hv hsig hfour => ?_⟩
      fun h => htorn h.1
    · rw [convert_valid_iff hshort hrun, hscan]
      exact ⟨fun ⟨_, v, hv⟩ => ⟨v, t, ht, hv⟩, fun ⟨v, t', ht', hv⟩ =>
        ⟨rfl, v, Option.some.inj (ht.symm.trans ht') ▸ hv⟩⟩
    · obtain ⟨t', ht', hv⟩ := hv
      obtain rfl := Option.some.inj (ht.symm.trans ht')
      refine convert_exact hshort hrun ?_ hsig hfour
      rw [hscan]
      exact hv
  · have hno : ∀ v, ¬ IsReal z length enc v := fun v ⟨t, ht, _⟩ => by
      rw [hnone] at ht
      exact absurd ht nofun
    constructor
    · rintro h ⟨htorn, hnum, v, hv⟩
      obtain ⟨⟨ok, result⟩, hrun⟩ := convert_isSome (Atoi.scanned z length enc).1
        (by have := hhalf htorn.1; omega) (Atoi.scanned z length enc).2
      obtain ⟨v', hv'⟩ := (h.valid ok result hrun).mp
        ((convert_valid_iff hshort hrun).mpr ⟨hnum, v, hv⟩)
      exact hno v' hv'
    · intro hover
      refine ⟨htotal, fun ok result hrun => ?_, fun ok result v _ hv => absurd hv (hno v)⟩
      refine iff_of_false (fun hok => ?_) fun ⟨v, hv⟩ => hno v hv
      obtain ⟨hnum, hspells⟩ := (convert_valid_iff hshort hrun).mp hok
      rcases hwhy with hother | htorn
      · exact Bool.false_ne_true (hnum.symm.trans hother)
      · exact hover ⟨htorn, hnum, hspells⟩

/-- The bytes `00 31 00` of a text, and what is in memory behind them. -/
def oneTorn (k : ℕ) : UInt8 := [0, 49, 0, 53].getD k 0

theorem converts_iff_oneTorn : Converts oneTorn 2 .utf16be ↔ ¬ Overlooked oneTorn 2 .utf16be :=
  converts_iff oneTorn 2 .utf16be (by decide)

/-- The byte behind the text is taken for a digit. -/
theorem not_forall_converts : ¬ ∀ z length enc, length < 2 ^ 31 → Converts z length enc := by
  intro hall
  have hrun : sqlite3AtoF oneTorn 3 .utf16be = some (true, ⟨15, 1, 0⟩) := by decide
  obtain ⟨v, t, ht, -⟩ := ((hall oneTorn 3 .utf16be (by decide)).valid true _ hrun).mp rfl
  exact absurd ht nofun

end AtoF

end SqliteVms

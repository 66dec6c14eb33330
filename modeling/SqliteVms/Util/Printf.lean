import Mathlib.Data.List.TakeWhile
import SqliteVms.Util.StrAccum
import SqliteVms.Vdbe.Logic

/-!
# Integers in a format, and back

The conversion `%lld` of `sqlite3VXPrintf` and `sqlite3Atoi64` of `util.c`, which reads a number out
of a text of UTF-8. The value that `sqlite3Atoi64` stores is `Vdbe.sqlite3Atoi64`; here is its
return code.

## Main definitions

* `signedConversion` — the digits of a signed conversion, with its flags
* `sqlite3Atoi64` — the value, and the return code

## Main results

* `atoi64_lldText` — an integer is read back
* `formatting_agrees` — with and without a bound, and back
-/

namespace SqliteVms

namespace Printf

/-! ### The code -/

/-- `cset[longvalue%base]`, for the base ten. -/
def digit (d : ℕ) : UInt8 := .ofNat (48 + d % 10)

/-- The loop that converts `longvalue` in front of what is there. -/
def digitLoop (longvalue : ℕ) (zOut : List UInt8) : List UInt8 :=
  if longvalue < 10 then digit longvalue :: zOut
  else digitLoop (longvalue / 10) (digit longvalue :: zOut)

/-- The flags that the digits depend on, and the width and the precision. -/
structure Flags where
  plussign : Bool
  blanksign : Bool
  zeropad : Bool
  width : ℕ
  precision : ℤ

/-- `longvalue`: of the smallest integer too. -/
def longvalue (v : Int64) : ℕ := v.toInt.natAbs

/-- `prefix`; zero is for none. -/
def signPrefix (flags : Flags) (v : Int64) : UInt8 :=
  if v < 0 then '-'.toUInt8
  else if flags.plussign = true then '+'.toUInt8
  else if flags.blanksign = true then ' '.toUInt8
  else 0

/-- `etRADIX` for a signed number in the base ten: digits, zeros in front of them, and the sign. -/
def signedConversion (flags : Flags) (v : Int64) : List UInt8 :=
  let sign := signPrefix flags v
  let inner : ℤ := flags.width - if sign = 0 then 0 else 1
  let precision := if flags.zeropad = true ∧ flags.precision < inner then inner else flags.precision
  let digits := digitLoop (longvalue v) []
  let padded := List.replicate (precision - digits.length).toNat '0'.toUInt8 ++ digits
  if sign = 0 then padded else sign :: padded

/-- `%lld`. -/
def lldFlags : Flags := ⟨false, false, false, 0, -1⟩

def compare2pow63 (zNum : List UInt8) : ℤ :=
  let c := ((zNum.take 18).zip ("922337203685477580".toList.map Char.toUInt8)).foldl
    (fun c p => if c = 0 then ((p.1.toNat : ℤ) - p.2.toNat) * 10 else c) 0
  if c = 0 then ((zNum.getD 18 0).toNat : ℤ) - 56 else c

/-- `sqlite3Atoi64` of a text in UTF-8: the value, and the return code. -/
def sqlite3Atoi64 (zNum : List UInt8) : Int64 × ℕ :=
  let z := zNum.dropWhile Sql.isSpace
  let neg := z.head? = some '-'.toUInt8
  let zStart := if neg ∨ z.head? = some '+'.toUInt8 then z.tail else z
  let z := zStart.dropWhile (· = '0'.toUInt8)
  let i := (z.takeWhile Sql.isDigit).length
  let other := (z.drop i).head?
  let code :=
    if (∃ c, other = some c ∧ c ≠ 0) ∨ (i = 0 ∧ z = zStart) ∨ 19 < i then 1
    else if i < 19 then 0
    else if compare2pow63 z < 0 then 0
    else if 0 < compare2pow63 z then 1
    else if neg then 0
    else 2
  (Vdbe.sqlite3Atoi64 .utf8 zNum, code)

/-! ### Digits -/

theorem digit_spec : ∀ d : Fin 10, Sql.isDigit (digit d) = true ∧ (digit d).toNat = 48 + d ∧
    Sql.isSpace (digit d) = false ∧ digit d ≠ '-'.toUInt8 ∧ digit d ≠ '+'.toUInt8 ∧ digit d ≠ 0 ∧
    (digit d).toUInt64 - 48 = UInt64.ofNat d ∧ (digit d = '0'.toUInt8 ↔ d = 0) := by decide

theorem digit_mod (d : ℕ) :
    digit d = digit ((⟨d % 10, Nat.mod_lt d (by decide)⟩ : Fin 10) : ℕ) := by
  rw [digit, digit, Nat.mod_mod]

theorem isDigit_digit (d : ℕ) : Sql.isDigit (digit d) = true := by
  rw [digit_mod]
  exact (digit_spec _).1

theorem toNat_digit (d : ℕ) : (digit d).toNat = 48 + d % 10 := by
  rw [digit_mod]
  exact (digit_spec _).2.1

theorem toUInt64_digit (d : ℕ) : (digit d).toUInt64 - 48 = UInt64.ofNat (d % 10) := by
  rw [digit_mod]
  exact (digit_spec _).2.2.2.2.2.2.1

theorem digitLoop_eq (u : ℕ) (z : List UInt8) : digitLoop u z = digitLoop u [] ++ z := by
  induction u using Nat.strong_induction_on generalizing z with
  | _ u ih =>
    rw [digitLoop, digitLoop.eq_def u []]
    by_cases h : u < 10
    · rw [if_pos h, if_pos h]
      rfl
    · rw [if_neg h, if_neg h, ih (u / 10) (by omega), ih (u / 10) (by omega) [digit u],
        List.append_assoc]
      rfl

theorem digitLoop_small {u : ℕ} (h : u < 10) : digitLoop u [] = [digit u] := by
  rw [digitLoop, if_pos h]

theorem digitLoop_large {u : ℕ} (h : ¬u < 10) :
    digitLoop u [] = digitLoop (u / 10) [] ++ [digit u] := by
  rw [digitLoop, if_neg h, digitLoop_eq]

theorem isDigit_digitLoop (u : ℕ) : ∀ c ∈ digitLoop u [], Sql.isDigit c = true := by
  induction u using Nat.strong_induction_on with
  | _ u ih =>
    by_cases h : u < 10
    · rw [digitLoop_small h, List.forall_mem_singleton]
      exact isDigit_digit u
    · rw [digitLoop_large h, List.forall_mem_append, List.forall_mem_singleton]
      exact ⟨ih (u / 10) (by omega), isDigit_digit u⟩

/-- The first digit is no zero. -/
theorem digitLoop_head {u : ℕ} (hu : 0 < u) :
    ∃ d l, digitLoop u [] = digit d :: l ∧ 0 < d ∧ d < 10 := by
  induction u using Nat.strong_induction_on with
  | _ u ih =>
    by_cases h : u < 10
    · exact ⟨u, [], digitLoop_small h, hu, h⟩
    · obtain ⟨d, l, heq, hd⟩ := ih (u / 10) (by omega) (by omega)
      exact ⟨d, l ++ [digit u], by rw [digitLoop_large h, heq]; rfl, hd⟩

theorem length_digitLoop {u k : ℕ} (hk : 0 < k) (hu : u < 10 ^ k) :
    (digitLoop u []).length ≤ k := by
  induction k generalizing u with
  | zero => exact absurd hk (Nat.lt_irrefl 0)
  | succ k ih =>
    by_cases h : u < 10
    · rw [digitLoop_small h, List.length_singleton]
      omega
    · have hk' : 0 < k := by
        by_contra hnot
        have hzero : k = 0 := by omega
        rw [hzero, zero_add, pow_one] at hu
        exact h hu
      have hdiv : u / 10 < 10 ^ k := by
        rw [pow_succ] at hu
        exact Nat.div_lt_of_lt_mul (by rwa [Nat.mul_comm])
      rw [digitLoop_large h, List.length_append, List.length_singleton]
      have hlen := ih hk' hdiv
      omega

/-- The number that digits stand for. -/
def value (l : List UInt8) : ℕ := l.foldl (fun a c => a * 10 + (c.toNat - 48)) 0

theorem value_append (l : List UInt8) (c : UInt8) :
    value (l ++ [c]) = value l * 10 + (c.toNat - 48) := by
  rw [value, List.foldl_append]
  rfl

theorem value_digitLoop (u : ℕ) : value (digitLoop u []) = u := by
  induction u using Nat.strong_induction_on with
  | _ u ih =>
    by_cases h : u < 10
    · rw [digitLoop_small h, ← List.nil_append [digit u], value_append, toNat_digit]
      change 0 * 10 + _ = u
      omega
    · rw [digitLoop_large h, value_append, ih (u / 10) (by omega), toNat_digit]
      omega

/-- The loop of `sqlite3Atoi64` over the digits. -/
theorem foldl_digitLoop (u : ℕ) :
    (digitLoop u []).foldl (fun u c => u * 10 + c.toUInt64 - 48) 0 = UInt64.ofNat u := by
  have hstep : ∀ a d : ℕ, UInt64.ofNat a * 10 + (digit d).toUInt64 - 48 =
      UInt64.ofNat (a * 10 + d % 10) := by
    intro a d
    rw [UInt64.ofNat_add, UInt64.ofNat_mul, ← toUInt64_digit, UInt64.sub_eq_add_neg,
      UInt64.sub_eq_add_neg, UInt64.add_assoc]
    rfl
  induction u using Nat.strong_induction_on with
  | _ u ih =>
    by_cases h : u < 10
    · rw [digitLoop_small h, List.foldl_cons, List.foldl_nil]
      refine (hstep 0 u).trans (congrArg UInt64.ofNat ?_)
      omega
    · rw [digitLoop_large h, List.foldl_append, ih (u / 10) (by omega), List.foldl_cons,
        List.foldl_nil]
      refine (hstep (u / 10) u).trans (congrArg UInt64.ofNat ?_)
      omega

/-! ### The comparison with a power of two -/

/-- A difference has the sign of a comparison. -/
def SignOf (c : ℤ) (a b : ℕ) : Prop := (c < 0 ∧ a < b) ∨ (c = 0 ∧ a = b) ∨ (0 < c ∧ b < a)

/-- The next digits of two numbers decide if the others were equal. -/
theorem signOf_step {c : ℤ} {a b x y : ℕ} (h : SignOf c a b) (hx : x ≤ 9) (hy : y ≤ 9) (k : ℤ)
    (hk : 0 < k) :
    SignOf (if c = 0 then ((48 + x : ℕ) - (48 + y : ℕ) : ℤ) * k else c) (a * 10 + x)
      (b * 10 + y) := by
  rcases h with ⟨hc, hlt⟩ | ⟨rfl, rfl⟩ | ⟨hc, hlt⟩
  · rw [if_neg (by omega)]
    exact Or.inl ⟨hc, by omega⟩
  · rw [if_pos rfl]
    rcases lt_trichotomy x y with hxy | rfl | hxy
    · exact Or.inl ⟨mul_neg_of_neg_of_pos (by omega) hk, by omega⟩
    · exact Or.inr (Or.inl ⟨by rw [sub_self, zero_mul], rfl⟩)
    · exact Or.inr (Or.inr ⟨mul_pos (by omega) hk, by omega⟩)
  · rw [if_neg (by omega)]
    exact Or.inr (Or.inr ⟨hc, by omega⟩)

theorem isDigit_toNat {c : UInt8} (h : Sql.isDigit c = true) :
    c.toNat = 48 + (c.toNat - 48) ∧ c.toNat - 48 ≤ 9 := by
  rw [Sql.isDigit, Bool.and_eq_true, decide_eq_true_eq, decide_eq_true_eq, UInt8.le_iff_toNat_le,
    UInt8.le_iff_toNat_le] at h
  have hlow : ('0'.toUInt8).toNat = 48 := by decide
  have hhigh : ('9'.toUInt8).toNat = 57 := by decide
  omega

theorem signOf_foldl (l : List (UInt8 × UInt8)) {c : ℤ} {a b : ℕ} (h : SignOf c a b)
    (hl : ∀ p ∈ l, Sql.isDigit p.1 = true ∧ Sql.isDigit p.2 = true) :
    SignOf (l.foldl (fun c p => if c = 0 then ((p.1.toNat : ℤ) - p.2.toNat) * 10 else c) c)
      ((l.map Prod.fst).foldl (fun a c => a * 10 + (c.toNat - 48)) a)
      ((l.map Prod.snd).foldl (fun a c => a * 10 + (c.toNat - 48)) b) := by
  induction l generalizing c a b with
  | nil => exact h
  | cons p l ih =>
    rw [List.forall_mem_cons] at hl
    obtain ⟨hx, hx9⟩ := isDigit_toNat hl.1.1
    obtain ⟨hy, hy9⟩ := isDigit_toNat hl.1.2
    have hstep := signOf_step h hx9 hy9 10 (by decide)
    rw [← hx, ← hy] at hstep
    exact ih hstep hl.2

theorem compare2pow63_spec {z : List UInt8} (hlen : z.length = 19)
    (hz : ∀ c ∈ z, Sql.isDigit c = true) : SignOf (compare2pow63 z) (value z) (2 ^ 63) := by
  obtain ⟨l, x, rfl⟩ : ∃ l x, z = l ++ [x] :=
    ⟨z.dropLast, z.getLast (by rintro rfl; cases hlen), (List.dropLast_append_getLast _).symm⟩
  rw [List.length_append, List.length_singleton] at hlen
  rw [List.forall_mem_append, List.forall_mem_singleton] at hz
  have hl : l.length = 18 := by omega
  have hpow : ∀ c ∈ "922337203685477580".toList.map Char.toUInt8, Sql.isDigit c = true :=
    List.all_eq_true.mp (by decide)
  have hlenpow : ("922337203685477580".toList.map Char.toUInt8).length = 18 := by decide
  have hvalue : value ("922337203685477580".toList.map Char.toUInt8) = 922337203685477580 := by
    decide
  have hfold := signOf_foldl (l.zip ("922337203685477580".toList.map Char.toUInt8))
    (Or.inr (Or.inl ⟨rfl, rfl⟩) : SignOf 0 0 0)
    (fun p hp => ⟨hz.1 _ (List.of_mem_zip hp).1, hpow _ (List.of_mem_zip hp).2⟩)
  rw [List.map_fst_zip (by omega), List.map_snd_zip (by omega)] at hfold
  obtain ⟨hx, hx9⟩ := isDigit_toNat hz.2
  have hlast := signOf_step hfold hx9 (by decide : 8 ≤ 9) 1 Int.one_pos
  have htake : (l ++ [x]).take 18 = l := List.take_left' hl
  have hget : (l ++ [x]).getD 18 0 = x := by
    rw [List.getD_eq_getElem?_getD, List.getElem?_append_right (by omega), hl]
    rfl
  rw [← hx, mul_one] at hlast
  change SignOf _ (value l * 10 + _) (value _ * 10 + 8) at hlast
  rw [hvalue] at hlast
  rw [compare2pow63, htake, hget, value_append]
  exact hlast

/-! ### An integer is read back -/

/-- What `%lld` appends. -/
def lldText (v : Int64) : List UInt8 := signedConversion lldFlags v

theorem lldText_eq (v : Int64) : lldText v =
    if v < 0 then '-'.toUInt8 :: digitLoop (longvalue v) [] else digitLoop (longvalue v) [] := by
  have hpad : (-1 - ((digitLoop (longvalue v) []).length : ℤ)).toNat = 0 := by omega
  have hminus : '-'.toUInt8 ≠ 0 := by decide
  by_cases hneg : v < 0
  · have hsign : signPrefix lldFlags v = '-'.toUInt8 := if_pos hneg
    rw [lldText, signedConversion, hsign, if_pos hneg]
    simp only [lldFlags, Bool.false_eq_true, false_and, if_false, if_neg hminus]
    rw [hpad]
    rfl
  · have hsign : signPrefix lldFlags v = 0 := by
      rw [signPrefix, if_neg hneg]
      rfl
    rw [lldText, signedConversion, hsign, if_neg hneg]
    simp only [lldFlags, Bool.false_eq_true, false_and, if_false, if_true]
    rw [hpad]
    rfl

/-- The digits behind the zeros: all of them, or none for zero itself. -/
theorem dropWhile_zero (u : ℕ) : (digitLoop u []).dropWhile (· = '0'.toUInt8) =
    if u = 0 then [] else digitLoop u [] := by
  by_cases hu : u = 0
  · subst hu
    rw [if_pos rfl, digitLoop_small (by decide)]
    rfl
  · obtain ⟨d, l, heq, hpos, hlt⟩ := digitLoop_head (Nat.pos_of_ne_zero hu)
    have hne : digit d ≠ '0'.toUInt8 := by
      intro h
      have hd := (digit_spec ⟨d, hlt⟩).2.2.2.2.2.2.2.mp h
      rw [Fin.ext_iff] at hd
      exact absurd hd (by dsimp only; omega)
    rw [if_neg hu, heq, List.dropWhile_cons_of_neg (by rw [decide_eq_true_eq]; exact hne)]

/-- The scanning of a rendered integer. -/
theorem scan_lldText (v : Int64) :
    (lldText v).dropWhile Sql.isSpace = lldText v ∧
      ((lldText v).head? = some '-'.toUInt8 ↔ v < 0) ∧ (lldText v).head? ≠ some '+'.toUInt8 := by
  have hhead : ∃ d l, digitLoop (longvalue v) [] = digit d :: l ∧ d < 10 := by
    by_cases hu : longvalue v = 0
    · rw [hu]
      exact ⟨0, [], digitLoop_small (by decide), by decide⟩
    · obtain ⟨d, l, heq, -, hlt⟩ := digitLoop_head (Nat.pos_of_ne_zero hu)
      exact ⟨d, l, heq, hlt⟩
  obtain ⟨d, l, heq, hd⟩ := hhead
  obtain ⟨-, -, hspace, hminus, hplus, -⟩ := digit_spec ⟨d, hd⟩
  rw [lldText_eq, heq]
  by_cases hneg : v < 0
  · rw [if_pos hneg]
    exact ⟨rfl, by simp [hneg], by rw [List.head?_cons]; decide⟩
  · rw [if_neg hneg, List.dropWhile_cons_of_neg (by rw [hspace]; decide), List.head?_cons]
    exact ⟨rfl, ⟨fun h => absurd (Option.some.inj h) hminus, fun h => absurd h hneg⟩,
      fun h => hplus (Option.some.inj h)⟩

theorem longvalue_le (v : Int64) : longvalue v ≤ 2 ^ 63 := by
  have hlow := v.le_toInt
  have hhigh := v.toInt_lt
  rw [longvalue]
  omega

/-- What follows the sign. -/
theorem tail_lldText (v : Int64) :
    (if (lldText v).head? = some '-'.toUInt8 ∨ (lldText v).head? = some '+'.toUInt8 then
      (lldText v).tail else lldText v) = digitLoop (longvalue v) [] := by
  obtain ⟨-, hminus, hplus⟩ := scan_lldText v
  by_cases hneg : v < 0
  · rw [if_pos (Or.inl (hminus.mpr hneg)), lldText_eq, if_pos hneg, List.tail_cons]
  · rw [if_neg (not_or.mpr ⟨fun h => hneg (hminus.mp h), hplus⟩), lldText_eq, if_neg hneg]

theorem takeWhile_digitLoop (u : ℕ) :
    (digitLoop u []).takeWhile Sql.isDigit = digitLoop u [] :=
  List.takeWhile_eq_self_iff.mpr (isDigit_digitLoop u)

/-- The value that `sqlite3Atoi64` stores. -/
theorem value_lldText (v : Int64) : Vdbe.sqlite3Atoi64 .utf8 (lldText v) = v := by
  obtain ⟨hspace, hminus, -⟩ := scan_lldText v
  have hle := longvalue_le v
  have hfold : (((digitLoop (longvalue v) []).dropWhile (· = '0'.toUInt8)).takeWhile
      Sql.isDigit).foldl (fun u c => u * 10 + c.toUInt64 - 48) 0 = UInt64.ofNat (longvalue v) := by
    rw [dropWhile_zero]
    by_cases hu : longvalue v = 0
    · rw [if_pos hu, hu]
      rfl
    · rw [if_neg hu, takeWhile_digitLoop, foldl_digitLoop]
  have hlarge : Vdbe.largestInt64 < UInt64.ofNat (longvalue v) ↔ longvalue v = 2 ^ 63 := by
    have hmax : Vdbe.largestInt64.toNat = 2 ^ 63 - 1 := rfl
    rw [UInt64.lt_iff_toNat_lt, hmax, UInt64.toNat_ofNat', Nat.mod_eq_of_lt (by omega)]
    omega
  have hsign : v < 0 ↔ v.toInt < 0 := Int64.lt_iff_toInt_lt
  have hint : (UInt64.ofNat (longvalue v)).toInt64 = Int64.ofInt (longvalue v : ℤ) := by
    rw [UInt64.toInt64_ofNat', Int64.ofInt_eq_ofNat]
  rw [Vdbe.sqlite3Atoi64, Vdbe.asciiText, hspace, tail_lldText, hfold]
  by_cases hmax : longvalue v = 2 ^ 63
  · have hmin : Int64.minValue.toInt = -2 ^ 63 := rfl
    have hhigh := v.toInt_lt
    rw [if_pos (hlarge.mpr hmax), ← Int64.toInt_inj, hmin]
    rw [longvalue] at hmax
    omega
  rw [if_neg fun h => hmax (hlarge.mp h)]
  by_cases hneg : v < 0
  · have habs : (longvalue v : ℤ) = -v.toInt := by
      have hlow := hsign.mp hneg
      rw [longvalue]
      omega
    rw [if_pos (hminus.mpr hneg), hint, habs, Int64.neg_ofInt, neg_neg, Int64.ofInt_toInt]
  · have habs : (longvalue v : ℤ) = v.toInt := by
      have hlow := mt hsign.mpr hneg
      rw [longvalue]
      omega
    rw [if_neg fun h => hneg (hminus.mp h), hint, habs, Int64.ofInt_toInt]

/-- **An integer is read back.** -/
theorem atoi64_lldText (v : Int64) : sqlite3Atoi64 (lldText v) = (v, 0) := by
  obtain ⟨hspace, hminus, -⟩ := scan_lldText v
  have hle := longvalue_le v
  rw [sqlite3Atoi64, hspace, tail_lldText, value_lldText, dropWhile_zero]
  refine Prod.ext rfl ?_
  dsimp only
  by_cases hu : longvalue v = 0
  · have hne : [] ≠ digitLoop (longvalue v) [] := by
      rw [hu, digitLoop_small (by decide)]
      exact (List.cons_ne_nil _ _).symm
    rw [if_pos hu, if_neg, if_pos (by decide)]
    rintro (⟨c, h, -⟩ | ⟨-, h⟩ | h)
    · cases h
    · exact hne h
    · exact absurd h (by decide)
  have hlen : (digitLoop (longvalue v) []).length ≤ 19 :=
    length_digitLoop (by decide) (hle.trans_lt (by decide))
  have hpos : (digitLoop (longvalue v) []).length ≠ 0 := by
    obtain ⟨d, l, heq, -⟩ := digitLoop_head (Nat.pos_of_ne_zero hu)
    rw [heq]
    exact Nat.succ_ne_zero _
  rw [if_neg hu, takeWhile_digitLoop, List.drop_length, if_neg]
  · by_cases hshort : (digitLoop (longvalue v) []).length < 19
    · rw [if_pos hshort]
    rw [if_neg hshort]
    have hcompare := compare2pow63_spec (Nat.le_antisymm hlen (not_lt.mp hshort))
      (isDigit_digitLoop (longvalue v))
    rw [value_digitLoop] at hcompare
    rcases hcompare with ⟨hc, -⟩ | ⟨hc, heq⟩ | ⟨-, hlt⟩
    · rw [if_pos hc]
    · have hneg : v < 0 := by
        have hhigh := v.toInt_lt
        rw [Int64.lt_iff_toInt_lt]
        rw [longvalue] at heq
        change v.toInt < 0
        omega
      rw [hc, if_neg (lt_irrefl 0), if_neg (lt_irrefl 0), if_pos (hminus.mpr hneg)]
    · exact absurd hlt (not_lt.mpr hle)
  · rintro (⟨c, h, -⟩ | ⟨h, -⟩ | h)
    · cases h
    · exact hpos h
    · exact absurd h (not_lt.mpr hlen)

/-! ### With and without a bound -/

/-- A text of C: the bytes before the zero. -/
def cText (z : List UInt8) : List UInt8 := z.takeWhile (· ≠ 0)

theorem length_lldText (v : Int64) : (lldText v).length < 2 ^ 31 := by
  have hlen : (digitLoop (longvalue v) []).length ≤ 19 :=
    length_digitLoop (by decide) ((longvalue_le v).trans_lt (by decide))
  rw [lldText_eq]
  split
  · rw [List.length_cons]
    omega
  · omega

/-- The format `"%lld"`: no spaces are needed. -/
def lldChunks (v : Int64) : List Chunk :=
  [⟨lldText v, (lldText v).length,
    Or.inr ⟨Int.natCast_nonneg _, le_rfl, by exact_mod_cast length_lldText v⟩⟩]

theorem text_lldChunks (v : Int64) : text (lldChunks v) = lldText v := by
  have hlen : ¬((lldText v).length : ℤ) < 0 := by omega
  rw [text, lldChunks, List.flatMap_singleton, Chunk.bytes, Chunk.length, if_neg hlen,
    Int.toNat_natCast, List.take_length]

theorem zero_notMem_lldText (v : Int64) : 0 ∉ lldText v := by
  have hdigits : (0 : UInt8) ∉ digitLoop (longvalue v) [] := fun h =>
    absurd (isDigit_digitLoop _ 0 h) (by decide)
  rw [lldText_eq]
  split
  · rw [List.mem_cons, not_or]
    exact ⟨by decide, hdigits⟩
  · exact hdigits

/-- What is read of bytes with a zero behind them. -/
theorem cText_append (a b : List UInt8) : ∃ r, a ++ [0] = cText (a ++ 0 :: b) ++ 0 :: r := by
  induction a with
  | nil => exact ⟨[], rfl⟩
  | cons c a ih =>
    obtain ⟨r, hr⟩ := ih
    rw [List.cons_append, List.cons_append, cText]
    by_cases hc : c = 0
    · subst hc
      exact ⟨a ++ [0], by rw [List.takeWhile_cons_of_neg (by decide), List.nil_append]⟩
    · refine ⟨r, ?_⟩
      rw [List.takeWhile_cons_of_pos (by rw [decide_eq_true_eq]; exact hc), List.cons_append, hr,
        cText]

/-- The cut of a text begins with the cut of what is read of it. -/
theorem take_text {A T r : List UInt8} (h : A ++ [0] = T ++ 0 :: r) (m : ℕ) :
    ∃ r', A.take m ++ [0] = T.take m ++ 0 :: r' := by
  induction T generalizing A m with
  | nil =>
    cases A with
    | nil => exact ⟨[], by rw [List.take_nil]⟩
    | cons a A =>
      obtain ⟨rfl, -⟩ := List.cons.inj h
      cases m with
      | zero => exact ⟨[], rfl⟩
      | succ m => exact ⟨A.take m ++ [0], rfl⟩
  | cons t T ih =>
    cases A with
    | nil =>
      obtain ⟨-, hnil⟩ := List.cons.inj h
      exact absurd hnil.symm (List.append_ne_nil_of_right_ne_nil T (List.cons_ne_nil 0 r))
    | cons a A =>
      obtain ⟨rfl, htail⟩ := List.cons.inj h
      cases m with
      | zero => exact ⟨[], rfl⟩
      | succ m =>
        obtain ⟨r', hr'⟩ := ih htail m
        exact ⟨r', by rw [List.take_succ_cons, List.take_succ_cons, List.cons_append, hr',
          List.cons_append]⟩

/-- The bytes of a buffer with the cut of a text. -/
theorem buffer_spec {A T r zBuf : List UInt8} (h : A ++ [0] = T ++ 0 :: r) {m : ℕ}
    (hm : m < zBuf.length) :
    (A.take m ++ 0 :: zBuf.drop (min A.length m + 1)).take (min T.length m + 1) = T.take m ++ [0] ∧
      (A.take m ++ 0 :: zBuf.drop (min A.length m + 1)).drop (m + 1) = zBuf.drop (m + 1) ∧
      (A.take m ++ 0 :: zBuf.drop (min A.length m + 1)).length = zBuf.length := by
  have hsplit : A.take m ++ 0 :: zBuf.drop (min A.length m + 1) =
      (A.take m ++ [0]) ++ zBuf.drop (min A.length m + 1) := by
    rw [List.append_assoc]
    rfl
  have hlen : (A.take m ++ [0]).length = min A.length m + 1 := by
    rw [List.length_append, List.length_take, List.length_singleton, Nat.min_comm]
  refine ⟨?_, ?_, ?_⟩
  · obtain ⟨r', hr'⟩ := take_text h m
    have hcut : T.take m ++ 0 :: r' = (T.take m ++ [0]) ++ r' := by
      rw [List.append_assoc]
      rfl
    rw [hsplit, hr', hcut, List.append_assoc]
    refine List.take_left' ?_
    rw [List.length_append, List.length_take, List.length_singleton, Nat.min_comm]
  · rw [hsplit, List.drop_append, List.drop_eq_nil_of_le (by omega), List.nil_append, hlen,
      List.drop_drop]
    congr 1
    omega
  · rw [hsplit, List.length_append, hlen, List.length_drop]
    omega

/-- A heap that has memory for everything. -/
def zeroHeap : Heap where
  block _ n := some (List.replicate n 0)
  length_block p n z h := by rw [← Option.some.inj h, List.length_replicate]

end Printf

end SqliteVms

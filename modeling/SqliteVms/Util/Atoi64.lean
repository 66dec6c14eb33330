import SqliteVms.Util.Printf

/-!
# Which texts are 64-bit integers

`sqlite3Atoi64`, for texts in all three encodings. A text of UTF-16 is read up to the first
character that is not ASCII, one byte of every two.

The digits may be as many as they like: the sum wraps, but then there are more than 19 of them, and
with 19 they are compared with `2 ^ 63` one by one. A byte that is no digit makes the text no
number, unless it is zero.

## Main definitions

* `sqlite3Atoi64` — the value, and the return code
* `Reads` — a number at the beginning of a text
* `IsInteger` — the text is a number
* `Misread` — the text begins with a number, and what follows is overlooked

## Main results

* `convert_reads`, `convert_other` — the return code, by what the text begins with
* `decides_iff` — the integers are recognised unless the text is misread
-/

namespace SqliteVms

namespace Atoi

open Vdbe (Enc)

/-! ### The code -/

def incr : Enc → ℕ
  | .utf8 => 1
  | _ => 2

/-- The loop that looks for a character that is not ASCII, from `i` on. -/
def asciiEnd (zNum : ℕ → UInt8) (length : ℕ) : ℕ → ℕ → ℕ
  | 0, i => i
  | fuel + 1, i => if i < length ∧ zNum i = 0 then asciiEnd zNum length fuel (i + 2) else i

/-- The bytes from `p` on, in steps of `incr`, before `zEnd`. -/
def bytesBetween (zNum : ℕ → UInt8) (incr p zEnd : ℕ) : List UInt8 :=
  (List.range ((zEnd - p + (incr - 1)) / incr)).map fun k => zNum (p + incr * k)

/-- The bytes that are looked at, and `nonNum`. The text may go on behind its end: what is there is
read if a text of UTF-16 ends within a character. -/
def scanned (zNum : ℕ → UInt8) (length : ℕ) : Enc → List UInt8 × Bool
  | .utf8 => (bytesBetween zNum 1 0 length, false)
  | .utf16le =>
    let i := asciiEnd zNum length length 1
    (bytesBetween zNum 2 0 (i - 1), i < length)
  | .utf16be =>
    let i := asciiEnd zNum length length 0
    (bytesBetween zNum 2 1 i, i < length)

/-- The rest of `sqlite3Atoi64`: `*pNum`, and the return code. -/
def convert (incr : ℕ) (zNum : List UInt8) (nonNum : Bool) : Int64 × ℕ :=
  let z := zNum.dropWhile Sql.isSpace
  let neg := z.head? = some '-'.toUInt8
  let zStart := if neg ∨ z.head? = some '+'.toUInt8 then z.tail else z
  let z := zStart.dropWhile (· = '0'.toUInt8)
  let digits := z.takeWhile Sql.isDigit
  let i := incr * digits.length
  let other := (z.drop digits.length).head?
  let u : UInt64 := digits.foldl (fun u c => u * 10 + c.toUInt64 - 48) 0
  let pNum :=
    if Vdbe.largestInt64 < u then Int64.minValue else if neg then -u.toInt64 else u.toInt64
  let code :=
    if (∃ c, other = some c ∧ c ≠ 0) ∨ (i = 0 ∧ z = zStart) ∨ 19 * incr < i ∨ nonNum = true then 1
    else if i < 19 * incr then 0
    else if Printf.compare2pow63 z < 0 then 0
    else if 0 < Printf.compare2pow63 z then 1
    else if neg then 0
    else 2
  (pNum, code)

def sqlite3Atoi64 (zNum : ℕ → UInt8) (length : ℕ) (enc : Enc) : Int64 × ℕ :=
  convert (incr enc) (scanned zNum length enc).1 (scanned zNum length enc).2

/-! ### Numbers -/

/-- The text begins with a number: spaces, a sign, and digits. -/
structure Reads (t : List UInt8) (neg : Bool) (ds rest : List UInt8) : Prop where
  text : ∃ ws sign, t = ws ++ (sign ++ (ds ++ rest)) ∧ (∀ c ∈ ws, Sql.isSpace c = true) ∧
    (sign = [] ∧ neg = false ∨ sign = ['+'.toUInt8] ∧ neg = false ∨
      sign = ['-'.toUInt8] ∧ neg = true)
  ne_nil : ds ≠ []
  digits : ∀ c ∈ ds, Sql.isDigit c = true
  stop : ∀ c, rest.head? = some c → Sql.isDigit c = false

/-- What the digits stand for. -/
def number (neg : Bool) (ds : List UInt8) : ℤ :=
  if neg = true then -Printf.value ds else Printf.value ds

/-- The text, if it is ASCII. -/
def transliterate (zNum : ℕ → UInt8) (length : ℕ) : Enc → Option (List UInt8)
  | .utf8 => some ((List.range length).map zNum)
  | .utf16le =>
    if length % 2 = 0 ∧ ∀ k < length / 2, zNum (2 * k + 1) = 0 then
      some ((List.range (length / 2)).map fun k => zNum (2 * k))
    else none
  | .utf16be =>
    if length % 2 = 0 ∧ ∀ k < length / 2, zNum (2 * k) = 0 then
      some ((List.range (length / 2)).map fun k => zNum (2 * k + 1))
    else none

/-- The text is a number, and nothing else. -/
def IsInteger (zNum : ℕ → UInt8) (length : ℕ) (enc : Enc) (v : ℤ) : Prop :=
  ∃ t neg ds, transliterate zNum length enc = some t ∧ Reads t neg ds [] ∧ number neg ds = v

/-! ### Digits -/

variable {t ds rest : List UInt8} {neg : Bool} {c : UInt8} {k : ℕ}

theorem digit_of_isDigit (h : Sql.isDigit c = true) : ∃ d : Fin 10, c = Printf.digit d := by
  obtain ⟨heq, hle⟩ := Printf.isDigit_toNat h
  refine ⟨⟨c.toNat - 48, by omega⟩, ?_⟩
  rw [← UInt8.toNat_inj, (Printf.digit_spec _).2.1]
  exact heq

theorem isDigit_facts (h : Sql.isDigit c = true) :
    Sql.isSpace c = false ∧ c ≠ '-'.toUInt8 ∧ c ≠ '+'.toUInt8 ∧ c ≠ 0 := by
  obtain ⟨d, rfl⟩ := digit_of_isDigit h
  obtain ⟨-, -, hspace, hminus, hplus, hzero, -⟩ := Printf.digit_spec d
  exact ⟨hspace, hminus, hplus, hzero⟩

theorem value_cons (c : UInt8) (l : List UInt8) :
    Printf.value (c :: l) = (c.toNat - 48) * 10 ^ l.length + Printf.value l := by
  have hfold : ∀ (l : List UInt8) (a : ℕ), l.foldl (fun a c => a * 10 + (c.toNat - 48)) a =
      a * 10 ^ l.length + l.foldl (fun a c => a * 10 + (c.toNat - 48)) 0 := by
    intro l
    induction l with
    | nil => exact fun a => (Nat.mul_one a).symm
    | cons b l ih =>
      intro a
      rw [List.foldl_cons, ih, List.foldl_cons, ih (0 * 10 + _), List.length_cons, pow_succ']
      ring
  rw [Printf.value, List.foldl_cons, hfold, Nat.zero_mul, Nat.zero_add]
  rfl

theorem value_lt (h : ∀ c ∈ ds, Sql.isDigit c = true) : Printf.value ds < 10 ^ ds.length := by
  induction ds with
  | nil => exact Nat.one_pos
  | cons c l ih =>
    obtain ⟨hc, hl⟩ := List.forall_mem_cons.mp h
    have hle := (Printf.isDigit_toNat hc).2
    have hlt := ih hl
    have hmul := Nat.mul_le_mul_right (10 ^ l.length) hle
    rw [value_cons, List.length_cons, pow_succ']
    omega

/-- Zeros in front change nothing. -/
theorem value_dropWhile (ds : List UInt8) :
    Printf.value (ds.dropWhile (· = '0'.toUInt8)) = Printf.value ds := by
  induction ds with
  | nil => rfl
  | cons c l ih =>
    by_cases hc : c = '0'.toUInt8
    · have hzero : c.toNat - 48 = 0 := by rw [hc]; rfl
      rw [List.dropWhile_cons_of_pos (by simpa using hc), ih, value_cons, hzero, Nat.zero_mul,
        Nat.zero_add]
    · rw [List.dropWhile_cons_of_neg (by simpa using hc)]

/-- Many digits without a zero in front make a large number. -/
theorem le_value (h : ∀ c ∈ ds, Sql.isDigit c = true)
    (hpos : 0 < (ds.dropWhile (· = '0'.toUInt8)).length) :
    10 ^ ((ds.dropWhile (· = '0'.toUInt8)).length - 1) ≤ Printf.value ds := by
  rw [← value_dropWhile]
  have hsub := fun c hc => h c ((List.dropWhile_sublist (· = '0'.toUInt8)).subset hc)
  cases heq : ds.dropWhile (· = '0'.toUInt8) with
  | nil => rw [heq] at hpos; exact absurd hpos (Nat.lt_irrefl 0)
  | cons c l =>
    have hne : c ≠ '0'.toUInt8 := fun hc => by
      have := List.head?_dropWhile_not (· = '0'.toUInt8) ds
      rw [heq, List.head?_cons] at this
      simp [hc] at this
    rw [heq] at hsub
    obtain ⟨hval, hle⟩ := Printf.isDigit_toNat (hsub c List.mem_cons_self)
    have hone : 1 ≤ c.toNat - 48 := by
      by_contra hzero
      refine hne ?_
      rw [← UInt8.toNat_inj, hval]
      change _ = 48
      omega
    have hmul := Nat.mul_le_mul_right (10 ^ l.length) hone
    rw [value_cons, List.length_cons, Nat.add_sub_cancel]
    omega

/-- The sum, as far as 64 bits hold it. -/
theorem foldl_digits (h : ∀ c ∈ ds, Sql.isDigit c = true) (a : ℕ) :
    ds.foldl (fun u c => u * 10 + c.toUInt64 - 48) (UInt64.ofNat a) =
      UInt64.ofNat (ds.foldl (fun a c => a * 10 + (c.toNat - 48)) a) := by
  induction ds generalizing a with
  | nil => rfl
  | cons c l ih =>
    obtain ⟨hc, hl⟩ := List.forall_mem_cons.mp h
    obtain ⟨d, rfl⟩ := digit_of_isDigit hc
    have hstep : UInt64.ofNat a * 10 + (Printf.digit d).toUInt64 - 48 =
        UInt64.ofNat (a * 10 + ((Printf.digit d).toNat - 48)) := by
      rw [(Printf.digit_spec d).2.1, Nat.add_sub_cancel_left, UInt64.ofNat_add, UInt64.ofNat_mul,
        ← (Printf.digit_spec d).2.2.2.2.2.2.1, UInt64.sub_eq_add_neg, UInt64.sub_eq_add_neg,
        UInt64.add_assoc]
      rfl
    rw [List.foldl_cons, List.foldl_cons, hstep, ih hl]

/-! ### What the code makes of a text -/

/-- The parts of a text that begins with a number. -/
theorem Reads.parts (h : Reads t neg ds rest) :
    (neg = true ↔ (t.dropWhile Sql.isSpace).head? = some '-'.toUInt8) ∧
      (if (t.dropWhile Sql.isSpace).head? = some '-'.toUInt8 ∨
          (t.dropWhile Sql.isSpace).head? = some '+'.toUInt8 then
        (t.dropWhile Sql.isSpace).tail else t.dropWhile Sql.isSpace) = ds ++ rest := by
  obtain ⟨⟨ws, sign, rfl, hws, hsign⟩, hne, hdigits, -⟩ := h
  obtain ⟨d, ds, rfl⟩ := List.exists_cons_of_ne_nil hne
  obtain ⟨hspace, hminus, hplus, -⟩ := isDigit_facts (hdigits d List.mem_cons_self)
  rw [List.dropWhile_append_of_pos hws]
  rcases hsign with ⟨rfl, rfl⟩ | ⟨rfl, rfl⟩ | ⟨rfl, rfl⟩
  · rw [List.nil_append, List.cons_append, List.dropWhile_cons_of_neg (by simp [hspace])]
    have hno : ¬ ((d :: (ds ++ rest)).head? = some '-'.toUInt8 ∨
        (d :: (ds ++ rest)).head? = some '+'.toUInt8) := fun h =>
      h.elim (fun h => hminus (Option.some.inj h)) fun h => hplus (Option.some.inj h)
    exact ⟨iff_of_false Bool.false_ne_true fun h => hno (Or.inl h), if_neg hno⟩
  · rw [List.singleton_append, List.dropWhile_cons_of_neg (by decide)]
    exact ⟨iff_of_false Bool.false_ne_true fun h => absurd (Option.some.inj h) (by decide),
      if_pos (Or.inr rfl)⟩
  · rw [List.singleton_append, List.dropWhile_cons_of_neg (by decide)]
    exact ⟨iff_of_true rfl rfl, if_pos (Or.inl rfl)⟩

/-- A head that is no digit is no zero either. -/
theorem dropWhile_zeros (hstop : ∀ c, rest.head? = some c → Sql.isDigit c = false) :
    (ds ++ rest).dropWhile (· = '0'.toUInt8) = ds.dropWhile (· = '0'.toUInt8) ++ rest := by
  rw [List.dropWhile_append]
  split
  case isTrue hempty =>
    rw [List.isEmpty_iff.mp hempty, List.nil_append]
    cases rest with
    | nil => rfl
    | cons c rest =>
      refine List.dropWhile_cons_of_neg ?_
      rw [decide_eq_true_eq]
      rintro rfl
      exact absurd (hstop _ rfl) (by decide)
  case isFalse => rfl

theorem takeWhile_digits (hdigits : ∀ c ∈ ds, Sql.isDigit c = true)
    (hstop : ∀ c, rest.head? = some c → Sql.isDigit c = false) :
    (ds ++ rest).takeWhile Sql.isDigit = ds := by
  rw [List.takeWhile_append_of_pos hdigits]
  cases rest with
  | nil => rw [List.takeWhile_nil, List.append_nil]
  | cons c rest =>
    rw [List.takeWhile_cons_of_neg (by rw [hstop c rfl]; exact Bool.false_ne_true),
      List.append_nil]

theorem compare2pow63_append (h : ds.length = 19) (rest : List UInt8) :
    Printf.compare2pow63 (ds ++ rest) = Printf.compare2pow63 ds := by
  rw [Printf.compare2pow63, Printf.compare2pow63, List.take_append_of_le_length (by omega),
    List.getD_eq_getElem?_getD, List.getD_eq_getElem?_getD, List.getElem?_append_left (by omega)]

/-- The value that is stored. -/
theorem toInt_pNum {m : ℕ} (hm : m < 2 ^ 64) (hlow : -2 ^ 63 ≤ if neg = true then -(m : ℤ) else m)
    (hhigh : (if neg = true then -(m : ℤ) else m) < 2 ^ 63) :
    (if Vdbe.largestInt64 < UInt64.ofNat m then Int64.minValue
      else if neg = true then -(UInt64.ofNat m).toInt64 else (UInt64.ofNat m).toInt64).toInt =
      if neg = true then -(m : ℤ) else m := by
  have hlarge : Vdbe.largestInt64 < UInt64.ofNat m ↔ 2 ^ 63 ≤ m := by
    have hmax : Vdbe.largestInt64.toNat = 2 ^ 63 - 1 := rfl
    rw [UInt64.lt_iff_toNat_lt, hmax, UInt64.toNat_ofNat', Nat.mod_eq_of_lt hm]
    omega
  have hint : (UInt64.ofNat m).toInt64 = Int64.ofInt (m : ℤ) := by
    rw [UInt64.toInt64_ofNat', Int64.ofInt_eq_ofNat]
  by_cases hbig : 2 ^ 63 ≤ m
  · have hmin : Int64.minValue.toInt = -2 ^ 63 := rfl
    rw [if_pos (hlarge.mpr hbig), hmin]
    split_ifs at hlow hhigh ⊢ <;> omega
  · rw [if_neg fun h => hbig (hlarge.mp h), hint]
    split_ifs with hneg
    · rw [if_pos hneg] at hlow
      rw [Int64.neg_ofInt, Int64.toInt_ofInt_of_le (by omega) (by omega)]
    · rw [Int64.toInt_ofInt_of_le (by omega) (by omega)]

/-- The return code for a number. -/
def codeOf (v : ℤ) : ℕ := if -2 ^ 63 ≤ v ∧ v < 2 ^ 63 then 0 else if v = 2 ^ 63 then 2 else 1

/-- The code on a text that begins with a number. -/
theorem convert_eq (h : Reads t neg ds rest) :
    convert k t false =
      (if Vdbe.largestInt64 < UInt64.ofNat (Printf.value ds) then Int64.minValue
        else if neg = true then -(UInt64.ofNat (Printf.value ds)).toInt64
        else (UInt64.ofNat (Printf.value ds)).toInt64,
      let sig := ds.dropWhile (· = '0'.toUInt8)
      if (∃ c, rest.head? = some c ∧ c ≠ 0) ∨ (k * sig.length = 0 ∧ sig ++ rest = ds ++ rest) ∨
        19 * k < k * sig.length then 1
      else if k * sig.length < 19 * k then 0
      else if Printf.compare2pow63 (sig ++ rest) < 0 then 0
      else if 0 < Printf.compare2pow63 (sig ++ rest) then 1
      else if neg = true then 0
      else 2) := by
  obtain ⟨hneg, hstart⟩ := h.parts
  have hsub : ∀ c ∈ ds.dropWhile (· = '0'.toUInt8), Sql.isDigit c = true := fun c hc =>
    h.digits c ((List.dropWhile_sublist (· = '0'.toUInt8)).subset hc)
  have hu : (ds.dropWhile (· = '0'.toUInt8)).foldl (fun u c => u * 10 + c.toUInt64 - 48) 0 =
      UInt64.ofNat (Printf.value ds) := by
    rw [← value_dropWhile]
    exact foldl_digits hsub 0
  have hif : ∀ {α : Type} (x y : α),
      (if (t.dropWhile Sql.isSpace).head? = some '-'.toUInt8 then x else y) =
        if neg = true then x else y := fun x y => if_congr hneg.symm rfl rfl
  simp only [convert, hstart, dropWhile_zeros h.stop, takeWhile_digits hsub h.stop,
    List.drop_left, hu, hif, Bool.false_eq_true, or_false]

/-- **A text that begins with a number.** -/
theorem convert_reads (hk : 0 < k) (h : Reads t neg ds rest) :
    (convert k t false).2 =
        (if ∃ c, rest.head? = some c ∧ c ≠ 0 then 1 else codeOf (number neg ds)) ∧
      ((convert k t false).2 = 0 → (convert k t false).1.toInt = number neg ds) := by
  have hsub : ∀ c ∈ ds.dropWhile (· = '0'.toUInt8), Sql.isDigit c = true := fun c hc =>
    h.digits c ((List.dropWhile_sublist (· = '0'.toUInt8)).subset hc)
  have hlt := value_lt hsub
  rw [value_dropWhile] at hlt
  have hne : ¬ (k * (ds.dropWhile (· = '0'.toUInt8)).length = 0 ∧
      ds.dropWhile (· = '0'.toUInt8) ++ rest = ds ++ rest) := fun hand => by
    have hlen := (Nat.mul_eq_zero.mp hand.1).resolve_left hk.ne'
    rw [List.append_cancel_right hand.2] at hlen
    exact h.ne_nil (List.length_eq_zero_iff.mp hlen)
  have hlong : 19 * k < k * (ds.dropWhile (· = '0'.toUInt8)).length ↔
      19 < (ds.dropWhile (· = '0'.toUInt8)).length := by
    rw [Nat.mul_comm 19 k]
    exact Nat.mul_lt_mul_left hk
  have hshort : k * (ds.dropWhile (· = '0'.toUInt8)).length < 19 * k ↔
      (ds.dropWhile (· = '0'.toUInt8)).length < 19 := by
    rw [Nat.mul_comm 19 k]
    exact Nat.mul_lt_mul_left hk
  have hcode : (convert k t false).2 =
      if ∃ c, rest.head? = some c ∧ c ≠ 0 then 1 else codeOf (number neg ds) := by
    rw [convert_eq h]
    simp only [hlong, hshort]
    by_cases hother : ∃ c, rest.head? = some c ∧ c ≠ 0
    · rw [if_pos (Or.inl hother), if_pos hother]
    rw [if_neg hother]
    rcases Nat.lt_trichotomy (ds.dropWhile (· = '0'.toUInt8)).length 19 with hlen | hlen | hlen
    · have hsmall : Printf.value ds < 10 ^ 18 :=
        hlt.trans_le (Nat.pow_le_pow_right (by decide) (by omega))
      rw [if_neg (not_or.mpr ⟨hother, not_or.mpr ⟨hne, by omega⟩⟩), if_pos hlen, codeOf, number,
        if_pos]
      split <;> omega
    · have hsign := Printf.compare2pow63_spec hlen hsub
      rw [value_dropWhile] at hsign
      rw [if_neg (not_or.mpr ⟨hother, not_or.mpr ⟨hne, by omega⟩⟩), if_neg (by omega),
        compare2pow63_append hlen]
      rw [codeOf, number]
      rcases hsign with ⟨hc, hv⟩ | ⟨hc, hv⟩ | ⟨hc, hv⟩
      · rw [if_pos hc, if_pos]
        split <;> omega
      · rw [if_neg (by omega), if_neg (by omega), hv]
        cases neg <;> rfl
      · rw [if_neg (by omega), if_pos hc]
        cases neg
        · rw [if_neg Bool.false_ne_true, if_neg (by omega), if_neg (by omega)]
        · rw [if_pos rfl, if_neg (by omega), if_neg (by omega)]
    · have hlarge := le_value h.digits (by omega)
      have hpow : 10 ^ 19 ≤ Printf.value ds :=
        (Nat.pow_le_pow_right (by decide) (by omega)).trans hlarge
      rw [if_pos (Or.inr (Or.inr hlen)), codeOf, number]
      cases neg
      · rw [if_neg Bool.false_ne_true, if_neg (by omega), if_neg (by omega)]
      · rw [if_pos rfl, if_neg (by omega), if_neg (by omega)]
  refine ⟨hcode, fun hzero => ?_⟩
  rw [hcode] at hzero
  split at hzero
  · exact absurd hzero (by decide)
  have hrange : -2 ^ 63 ≤ number neg ds ∧ number neg ds < 2 ^ 63 := by
    rw [codeOf] at hzero
    by_contra hout
    rw [if_neg hout] at hzero
    split at hzero <;> exact absurd hzero (by decide)
  rw [convert_eq h]
  rw [number] at hrange ⊢
  exact toInt_pNum (by split at hrange <;> omega) hrange.1 hrange.2

/-- **A text that does not begin with a number.** -/
theorem convert_other (h : ¬ ∃ neg ds rest, Reads t neg ds rest) :
    (convert k t false).2 = 1 := by
  by_contra hcode
  refine h ?_
  -- the parts that the code finds
  generalize hz : t.dropWhile Sql.isSpace = z at *
  obtain ⟨sign, neg, zStart, hstart, hsign, hparts⟩ : ∃ sign neg zStart,
      (if z.head? = some '-'.toUInt8 ∨ z.head? = some '+'.toUInt8 then z.tail else z) = zStart ∧
      (sign = [] ∧ neg = false ∨ sign = ['+'.toUInt8] ∧ neg = false ∨
        sign = ['-'.toUInt8] ∧ neg = true) ∧ z = sign ++ zStart := by
    by_cases hminus : z.head? = some '-'.toUInt8
    · obtain ⟨z', rfl⟩ : ∃ z', z = '-'.toUInt8 :: z' := ⟨z.tail, (List.cons_head?_tail hminus).symm⟩
      exact ⟨['-'.toUInt8], true, z', if_pos (Or.inl hminus), Or.inr (Or.inr ⟨rfl, rfl⟩), rfl⟩
    by_cases hplus : z.head? = some '+'.toUInt8
    · obtain ⟨z', rfl⟩ : ∃ z', z = '+'.toUInt8 :: z' := ⟨z.tail, (List.cons_head?_tail hplus).symm⟩
      exact ⟨['+'.toUInt8], false, z', if_pos (Or.inr hplus), Or.inr (Or.inl ⟨rfl, rfl⟩), rfl⟩
    exact ⟨[], false, z, if_neg (not_or.mpr ⟨hminus, hplus⟩), Or.inl ⟨rfl, rfl⟩, rfl⟩
  refine ⟨neg, zStart.takeWhile Sql.isDigit, zStart.dropWhile Sql.isDigit,
    ⟨t.takeWhile Sql.isSpace, sign, ?_, fun c hc => List.mem_takeWhile_imp hc, hsign⟩, ?_,
    fun c hc => List.mem_takeWhile_imp hc, ?_⟩
  · rw [List.takeWhile_append_dropWhile, ← hparts, ← hz, List.takeWhile_append_dropWhile]
  · intro hnil
    refine hcode ?_
    have hzeros : zStart.dropWhile (· = '0'.toUInt8) = zStart := by
      cases zStart with
      | nil => rfl
      | cons c l =>
        refine List.dropWhile_cons_of_neg ?_
        rw [decide_eq_true_eq]
        rintro rfl
        rw [List.takeWhile_cons_of_pos (by decide)] at hnil
        exact absurd hnil (List.cons_ne_nil _ _)
    simp only [convert, hz, hstart, hzeros, hnil, List.length_nil, Nat.mul_zero, true_and, true_or,
      or_true, if_true]
  · intro c hc
    have := List.head?_dropWhile_not Sql.isDigit zStart
    rw [hc] at this
    exact this

/-! ### The text that is looked at -/

variable {zNum : ℕ → UInt8} {length : ℕ} {enc : Enc}

/-- Where the loop stops: behind the end, or at a character that is not ASCII. -/
theorem asciiEnd_spec (fuel i : ℕ) (hfuel : length ≤ i + 2 * fuel) :
    ∃ m, asciiEnd zNum length fuel i = i + 2 * m ∧ (∀ j < m, zNum (i + 2 * j) = 0 ∧
      i + 2 * j < length) ∧ (length ≤ i + 2 * m ∨ zNum (i + 2 * m) ≠ 0) := by
  induction fuel generalizing i with
  | zero => exact ⟨0, rfl, fun j hj => absurd hj (Nat.not_lt_zero j), Or.inl hfuel⟩
  | succ fuel ih =>
    rw [asciiEnd]
    split
    case isTrue hand =>
      obtain ⟨m, heq, hall, hstop⟩ := ih (i + 2) (by omega)
      refine ⟨m + 1, by rw [heq]; omega, fun j hj => ?_, ?_⟩
      · cases j with
        | zero => exact ⟨hand.2, hand.1⟩
        | succ j =>
          have := hall j (by omega)
          rwa [show i + 2 + 2 * j = i + 2 * (j + 1) by omega] at this
      · rwa [show i + 2 + 2 * m = i + 2 * (m + 1) by omega] at hstop
    case isFalse hnot =>
      refine ⟨0, rfl, fun j hj => absurd hj (Nat.not_lt_zero j), ?_⟩
      rcases Nat.lt_or_ge i length with hlt | hge
      · exact Or.inr fun hzero => hnot ⟨hlt, hzero⟩
      · exact Or.inl hge

/-- The text ends within a character. -/
def Torn (length : ℕ) (enc : Enc) : Prop := enc ≠ .utf8 ∧ length % 2 = 1

theorem bytesBetween_two {p : ℕ} (hp : p ≤ 1) (m : ℕ) :
    bytesBetween zNum 2 p (2 * m) = (List.range m).map fun k => zNum (2 * k + p) := by
  rw [bytesBetween, show (2 * m - p + (2 - 1)) / 2 = m by omega]
  exact List.map_congr_left fun k _ => congrArg zNum (by omega)

/-- The loop goes through the whole text exactly if it is ASCII, unless the text is torn. -/
theorem asciiEnd_half {q m : ℕ} (hq : q ≤ 1)
    (hall : ∀ j < m, zNum (q + 2 * j) = 0 ∧ q + 2 * j < length)
    (hstop : length ≤ q + 2 * m ∨ zNum (q + 2 * m) ≠ 0) :
    if length % 2 = 0 ∧ ∀ k < length / 2, zNum (2 * k + q) = 0 then
      m = length / 2 ∧ ¬ q + 2 * m < length
    else q + 2 * m < length ∨ length % 2 = 1 := by
  have hlast : m = 0 ∨ q + 2 * (m - 1) < length := by
    rcases Nat.eq_zero_or_pos m with h | h
    · exact Or.inl h
    · exact Or.inr (hall (m - 1) (by omega)).2
  split
  case isTrue hascii =>
    have hle : length ≤ q + 2 * m := by
      by_contra hlt
      refine (hstop.resolve_left hlt) ?_
      rw [Nat.add_comm]
      exact hascii.2 m (by omega)
    omega
  case isFalse hnot =>
    by_contra hcon
    obtain ⟨hge, heven⟩ := not_or.mp hcon
    refine hnot ⟨by omega, fun k hk => ?_⟩
    rw [Nat.add_comm]
    exact (hall k (by omega)).1

/-- **What is looked at.** All of an ASCII text; any other one is no number, or torn. -/
theorem scanned_spec (zNum : ℕ → UInt8) (length : ℕ) (enc : Enc) :
    (∃ t, transliterate zNum length enc = some t ∧ scanned zNum length enc = (t, false) ∧
      ¬ Torn length enc) ∨
    (transliterate zNum length enc = none ∧
      ((scanned zNum length enc).2 = true ∨ Torn length enc)) := by
  cases enc with
  | utf8 =>
    refine Or.inl ⟨_, rfl, Prod.ext ?_ rfl, fun h => h.1 rfl⟩
    change bytesBetween zNum 1 0 length = _
    rw [bytesBetween, show (length - 0 + (1 - 1)) / 1 = length by omega]
    exact List.map_congr_left fun k _ => congrArg zNum (by omega)
  | utf16le =>
    obtain ⟨m, heq, hall, hstop⟩ := asciiEnd_spec length 1
      (show length ≤ 1 + 2 * length by omega)
    have hhalf := asciiEnd_half le_rfl hall hstop
    have hscan : scanned zNum length .utf16le =
        ((List.range m).map fun k => zNum (2 * k), decide (1 + 2 * m < length)) := by
      rw [scanned, heq, Nat.add_sub_cancel_left, bytesBetween_two (Nat.zero_le 1)]
      rfl
    rw [transliterate, hscan]
    split at hhalf
    case isTrue hascii =>
      rw [if_pos hascii, ← hhalf.1]
      exact Or.inl ⟨_, rfl, Prod.ext rfl (decide_eq_false hhalf.2), fun h => by
        have := h.2
        omega⟩
    case isFalse hnot =>
      rw [if_neg hnot]
      exact Or.inr ⟨rfl, hhalf.imp decide_eq_true fun hodd => ⟨nofun, hodd⟩⟩
  | utf16be =>
    obtain ⟨m, heq, hall, hstop⟩ := asciiEnd_spec length 0
      (show length ≤ 0 + 2 * length by omega)
    have hhalf := asciiEnd_half (Nat.zero_le 1) hall hstop
    have hscan : scanned zNum length .utf16be =
        ((List.range m).map fun k => zNum (2 * k + 1), decide (0 + 2 * m < length)) := by
      rw [scanned, heq, Nat.zero_add, bytesBetween_two le_rfl]
    simp only [Nat.add_zero] at hhalf
    rw [transliterate, hscan]
    split at hhalf
    case isTrue hascii =>
      rw [if_pos hascii, ← hhalf.1]
      exact Or.inl ⟨_, rfl, Prod.ext rfl (decide_eq_false hhalf.2), fun h => by
        have := h.2
        omega⟩
    case isFalse hnot =>
      rw [if_neg hnot]
      exact Or.inr ⟨rfl, hhalf.imp decide_eq_true fun hodd => ⟨nofun, hodd⟩⟩

/-! ### Deciding -/

/-- What is asked of `sqlite3Atoi64`. -/
def Decides (zNum : ℕ → UInt8) (length : ℕ) (enc : Enc) : Prop :=
  (∀ v, ((sqlite3Atoi64 zNum length enc).2 = 0 ∧ (sqlite3Atoi64 zNum length enc).1.toInt = v ↔
    IsInteger zNum length enc v ∧ -2 ^ 63 ≤ v ∧ v < 2 ^ 63)) ∧
  ((sqlite3Atoi64 zNum length enc).2 = 2 ↔ IsInteger zNum length enc (2 ^ 63)) ∧
  ((sqlite3Atoi64 zNum length enc).2 = 0 ∨ (sqlite3Atoi64 zNum length enc).2 = 1 ∨
    (sqlite3Atoi64 zNum length enc).2 = 2)

/-- The bytes that are looked at begin with a number that fits, or just does not; after it comes a
zero, or the text ends within a character. -/
def Misread (zNum : ℕ → UInt8) (length : ℕ) (enc : Enc) : Prop :=
  (scanned zNum length enc).2 = false ∧ ∃ neg ds rest,
    Reads (scanned zNum length enc).1 neg ds rest ∧ -2 ^ 63 ≤ number neg ds ∧
      number neg ds ≤ 2 ^ 63 ∧ (rest.head? = some 0 ∨ rest = [] ∧ Torn length enc)

theorem Reads.unique {neg' : Bool} {ds' rest' : List UInt8} (h : Reads t neg ds rest)
    (h' : Reads t neg' ds' rest') : neg = neg' ∧ ds = ds' ∧ rest = rest' := by
  obtain ⟨hneg, hparts⟩ := h.parts
  obtain ⟨hneg', hparts'⟩ := h'.parts
  have heq : ds ++ rest = ds' ++ rest' := hparts.symm.trans hparts'
  have hds : ds = ds' := by
    rw [← takeWhile_digits h.digits h.stop, heq, takeWhile_digits h'.digits h'.stop]
  refine ⟨Bool.eq_iff_iff.mpr (hneg.trans hneg'.symm), hds, ?_⟩
  rw [hds] at heq
  exact List.append_cancel_left heq

theorem convert_code (k : ℕ) (t : List UInt8) (b : Bool) :
    (convert k t b).2 = 0 ∨ (convert k t b).2 = 1 ∨ (convert k t b).2 = 2 := by
  rw [convert]
  dsimp only
  split_ifs <;> simp

theorem convert_nonNum (k : ℕ) (t : List UInt8) : (convert k t true).2 = 1 := by
  rw [convert]
  exact if_pos (Or.inr (Or.inr (Or.inr rfl)))

/-- Without a number all that is asked is the code 1. -/
theorem decides_none (h : ∀ v, ¬ IsInteger zNum length enc v) :
    Decides zNum length enc ↔ (sqlite3Atoi64 zNum length enc).2 = 1 := by
  have hcode : (sqlite3Atoi64 zNum length enc).2 = 0 ∨ (sqlite3Atoi64 zNum length enc).2 = 1 ∨
      (sqlite3Atoi64 zNum length enc).2 = 2 := convert_code _ _ _
  constructor
  · rintro ⟨hzero, htwo, -⟩
    rcases hcode with h0 | h1 | h2
    · exact absurd ((hzero _).mp ⟨h0, rfl⟩).1 (h _)
    · exact h1
    · exact absurd (htwo.mp h2) (h _)
  · intro hone
    refine ⟨fun v => iff_of_false (fun hand => ?_) fun hand => h v hand.1,
      iff_of_false (fun h2 => ?_) (h _), hcode⟩
    · rw [hone] at hand
      exact absurd hand.1 (by decide)
    · rw [hone] at h2
      exact absurd h2 (by decide)

theorem incr_pos (enc : Enc) : 0 < incr enc := by cases enc <;> decide

theorem codeOf_eq_one {v : ℤ} : codeOf v = 1 ↔ ¬ (-2 ^ 63 ≤ v ∧ v ≤ 2 ^ 63) := by
  rw [codeOf]
  split_ifs <;> simp <;> omega

/-- A number that is followed by nothing, or by a zero, when that is not the whole text. -/
theorem code_of_reads (hnum : (scanned zNum length enc).2 = false)
    (h : Reads (scanned zNum length enc).1 neg ds rest) :
    (sqlite3Atoi64 zNum length enc).2 = 1 ↔
      ¬ (-2 ^ 63 ≤ number neg ds ∧ number neg ds ≤ 2 ^ 63 ∧
        ¬ ∃ c, rest.head? = some c ∧ c ≠ 0) := by
  have hcode := (convert_reads (incr_pos enc) h).1
  rw [sqlite3Atoi64, hnum, hcode]
  by_cases hother : ∃ c, rest.head? = some c ∧ c ≠ 0
  · rw [if_pos hother]
    exact iff_of_true rfl fun hand => hand.2.2 hother
  · rw [if_neg hother, codeOf_eq_one]
    exact not_congr ⟨fun hand => ⟨hand.1, hand.2, hother⟩, fun hand => ⟨hand.1, hand.2.1⟩⟩

/-- The width of a character does not matter. -/
theorem convert_incr (hk : 0 < k) (t : List UInt8) (b : Bool) : convert k t b = convert 1 t b := by
  have hzero : ∀ n, k * n = 0 ↔ 1 * n = 0 := fun n => by
    rw [Nat.mul_eq_zero, Nat.one_mul, or_iff_right hk.ne']
  have hlong : ∀ n, 19 * k < k * n ↔ 19 * 1 < 1 * n := fun n => by
    rw [Nat.mul_comm 19 k, Nat.mul_lt_mul_left hk, Nat.one_mul]
  have hshort : ∀ n, k * n < 19 * k ↔ 1 * n < 19 * 1 := fun n => by
    rw [Nat.mul_comm 19 k, Nat.mul_lt_mul_left hk, Nat.one_mul]
  simp only [convert, hzero, hlong, hshort]

/-- A text of UTF-16 is read as its letters in UTF-8 would be. -/
theorem atoi64_transliterate (h : transliterate zNum length enc = some t) :
    sqlite3Atoi64 zNum length enc = sqlite3Atoi64 (fun k => t.getD k 0) t.length .utf8 := by
  have hscan : scanned zNum length enc = (t, false) := by
    rcases scanned_spec zNum length enc with ⟨t', ht', hscan, -⟩ | ⟨hnone, -⟩
    · obtain rfl := Option.some.inj (h.symm.trans ht')
      exact hscan
    · exact absurd (h.symm.trans hnone) nofun
  have hutf8 : (scanned (fun k => t.getD k 0) t.length .utf8) = (t, false) := by
    rcases scanned_spec (fun k => t.getD k 0) t.length .utf8 with ⟨t', ht', hscan', -⟩ | ⟨hnone, -⟩
    · obtain rfl := Option.some.inj ht'
      rw [hscan']
      refine Prod.ext (List.ext_getElem (by simp) fun i hi hi' => ?_) rfl
      simp only [List.getElem_map, List.getElem_range]
      rw [List.getD_eq_getElem?_getD, List.getElem?_eq_getElem hi']
      rfl
    · exact absurd hnone nofun
  rw [sqlite3Atoi64, sqlite3Atoi64, hscan, hutf8]
  exact convert_incr (incr_pos enc) t false

/-- With something after the number, or with its last character cut, the code is 1 unless the text is
misread. -/
theorem code_eq_one_iff (hnum : (scanned zNum length enc).2 = false)
    (hr : Reads (scanned zNum length enc).1 neg ds rest) (hend : rest ≠ [] ∨ Torn length enc) :
    (sqlite3Atoi64 zNum length enc).2 = 1 ↔ ¬ Misread zNum length enc := by
  rw [code_of_reads hnum hr]
  refine not_congr ⟨fun hand => ?_, ?_⟩
  · refine ⟨hnum, neg, ds, rest, hr, hand.1, hand.2.1, ?_⟩
    cases rest with
    | nil => exact Or.inr ⟨rfl, hend.resolve_left (not_not.mpr rfl)⟩
    | cons c rest =>
      refine Or.inl ?_
      by_contra hne
      exact hand.2.2 ⟨c, rfl, fun hc => hne (congrArg some hc)⟩
  · rintro ⟨-, neg', ds', rest', hr', hlow, hhigh, hzero⟩
    obtain ⟨rfl, rfl, rfl⟩ := hr.unique hr'
    refine ⟨hlow, hhigh, ?_⟩
    rintro ⟨b, hb, hne⟩
    rcases hzero with hzero | ⟨rfl, -⟩
    · exact hne (Option.some.inj (hb.symm.trans hzero))
    · cases hb

/-- Where no number is found the code is 1. -/
theorem code_of_not_reads (h : ¬ ∃ neg ds rest, Reads (scanned zNum length enc).1 neg ds rest) :
    (sqlite3Atoi64 zNum length enc).2 = 1 ↔ ¬ Misread zNum length enc := by
  have hcode : (sqlite3Atoi64 zNum length enc).2 = 1 := by
    rw [sqlite3Atoi64]
    cases (scanned zNum length enc).2 with
    | true => exact convert_nonNum _ _
    | false => exact convert_other h
  refine iff_of_true hcode ?_
  rintro ⟨-, neg, ds, rest, hr, -⟩
  exact h ⟨neg, ds, rest, hr⟩

theorem isInteger_iff (ht : transliterate zNum length enc = some t) (v : ℤ) :
    IsInteger zNum length enc v ↔ ∃ neg ds, Reads t neg ds [] ∧ number neg ds = v := by
  constructor
  · rintro ⟨t', neg, ds, ht', hr, hv⟩
    obtain rfl := Option.some.inj (ht.symm.trans ht')
    exact ⟨neg, ds, hr, hv⟩
  · rintro ⟨neg, ds, hr, hv⟩
    exact ⟨t, neg, ds, ht, hr, hv⟩

/-- A text that is a number is not misread, and the code tells its value or that it does not fit. -/
theorem decides_of_number (ht : transliterate zNum length enc = some t)
    (hscan : scanned zNum length enc = (t, false)) (htorn : ¬ Torn length enc)
    (hr : Reads t neg ds []) : Decides zNum length enc ∧ ¬ Misread zNum length enc := by
  have hv : ∀ v, IsInteger zNum length enc v ↔ v = number neg ds := fun v => by
    rw [isInteger_iff ht]
    constructor
    · rintro ⟨neg', ds', hr', rfl⟩
      obtain ⟨rfl, rfl, -⟩ := hr.unique hr'
      rfl
    · rintro rfl
      exact ⟨neg, ds, hr, rfl⟩
  obtain ⟨hcode, hvalue⟩ := convert_reads (incr_pos enc) hr
  rw [if_neg (by rintro ⟨c, hc, -⟩; cases hc)] at hcode
  have hconv : sqlite3Atoi64 zNum length enc = convert (incr enc) t false := by
    rw [sqlite3Atoi64, hscan]
  refine ⟨⟨fun v => ?_, ?_, ?_⟩, ?_⟩
  · rw [hv, hconv]
    constructor
    · rintro ⟨hzero, rfl⟩
      have hval := hvalue hzero
      rw [hcode, codeOf] at hzero
      rw [hval]
      refine ⟨rfl, ?_⟩
      by_contra hout
      rw [if_neg hout] at hzero
      split at hzero <;> exact absurd hzero (by decide)
    · rintro ⟨rfl, hrange⟩
      have hzero : (convert (incr enc) t false).2 = 0 := by rw [hcode, codeOf, if_pos hrange]
      exact ⟨hzero, hvalue hzero⟩
  · rw [hv, hconv, hcode, codeOf]
    split_ifs with hrange hbig
    · exact iff_of_false (by decide) (by omega)
    · exact iff_of_true rfl hbig.symm
    · exact iff_of_false (by decide) fun heq => hbig heq.symm
  · exact convert_code _ _ _
  · rintro ⟨-, neg', ds', rest', hr', -, -, hend⟩
    rw [hscan] at hr'
    obtain ⟨-, -, rfl⟩ := hr.unique hr'
    rcases hend with hzero | ⟨-, hodd⟩
    · cases hzero
    · exact htorn hodd

/-- **Which texts are 64-bit integers.** The code tells for all texts that are not misread, and
only for them; and a text of UTF-16 is always taken as its letters in UTF-8. -/
theorem decides_iff (zNum : ℕ → UInt8) (length : ℕ) (enc : Enc) :
    (Decides zNum length enc ↔ ¬ Misread zNum length enc) ∧
      ∀ t, transliterate zNum length enc = some t →
        sqlite3Atoi64 zNum length enc = sqlite3Atoi64 (fun k => t.getD k 0) t.length .utf8 := by
  refine ⟨?_, fun t => atoi64_transliterate⟩
  rcases scanned_spec zNum length enc with ⟨t, ht, hscan, htorn⟩ | ⟨hnone, hwhy⟩
  · by_cases hnumber : ∃ neg ds, Reads t neg ds []
    · obtain ⟨neg, ds, hr⟩ := hnumber
      obtain ⟨hdecides, hmis⟩ := decides_of_number ht hscan htorn hr
      exact iff_of_true hdecides hmis
    · have hno : ∀ v, ¬ IsInteger zNum length enc v := fun v hv => by
        obtain ⟨neg, ds, hr, -⟩ := (isInteger_iff ht v).mp hv
        exact hnumber ⟨neg, ds, hr⟩
      rw [decides_none hno]
      by_cases hreads : ∃ neg ds rest, Reads (scanned zNum length enc).1 neg ds rest
      · -- something comes after the number
        obtain ⟨neg, ds, rest, hr⟩ := hreads
        refine code_eq_one_iff (by rw [hscan]) hr (Or.inl ?_)
        rintro rfl
        rw [hscan] at hr
        exact hnumber ⟨neg, ds, hr⟩
      · exact code_of_not_reads hreads
  · have hno : ∀ v, ¬ IsInteger zNum length enc v := by
      rintro v ⟨t, -, -, ht, -⟩
      rw [hnone] at ht
      cases ht
    rw [decides_none hno]
    by_cases hreads : ∃ neg ds rest, Reads (scanned zNum length enc).1 neg ds rest
    · cases hnum : (scanned zNum length enc).2 with
      | true =>
        rw [sqlite3Atoi64, hnum]
        exact iff_of_true (convert_nonNum _ _) fun hmis =>
          absurd (hnum.symm.trans hmis.1) (by decide)
      | false =>
        -- the last character is cut
        obtain ⟨neg, ds, rest, hr⟩ := hreads
        exact code_eq_one_iff hnum hr (Or.inr (hwhy.resolve_left (hnum ▸ Bool.false_ne_true)))
    · exact code_of_not_reads hreads

/-- `12`, a zero byte, and an `x`. -/
def twelveZero (k : ℕ) : UInt8 := [49, 50, 0, 120].getD k 0

theorem decides_iff_twelveZero :
    (Decides twelveZero 4 .utf8 ↔ ¬ Misread twelveZero 4 .utf8) ∧
      sqlite3Atoi64 twelveZero 4 .utf8 =
        sqlite3Atoi64 (fun k => [49, 50, 0, 120].getD k 0) 4 .utf8 :=
  ⟨(decides_iff twelveZero 4 .utf8).1, (decides_iff twelveZero 4 .utf8).2 [49, 50, 0, 120] rfl⟩

/-- What is behind a zero byte is overlooked. -/
theorem not_forall_decides : ¬ ∀ zNum length enc, Decides zNum length enc := fun hall => by
  have hcode : (sqlite3Atoi64 twelveZero 4 .utf8).2 = 0 ∧
      (sqlite3Atoi64 twelveZero 4 .utf8).1.toInt = 12 := by decide
  obtain ⟨⟨t, neg, ds, ht, hr, -⟩, -⟩ := ((hall twelveZero 4 .utf8).1 12).mp hcode
  obtain rfl : [49, 50, 0, 120] = t := Option.some.inj ht
  have hzero : Reads [49, 50, 0, 120] false [49, 50] [0, 120] :=
    ⟨⟨[], [], rfl, List.forall_mem_nil _, Or.inl ⟨rfl, rfl⟩⟩, nofun,
      List.forall_mem_cons.mpr ⟨rfl, List.forall_mem_singleton.mpr rfl⟩, fun c hc => by
        obtain rfl := Option.some.inj hc
        rfl⟩
  exact absurd (hr.unique hzero).2.2 nofun

end Atoi

end SqliteVms

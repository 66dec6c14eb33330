import SqliteVms.Lib.Bits
import SqliteVms.Lib.Store
import Mathlib.Tactic.IntervalCases

/-!
# Variable-length integers

`sqlite3GetVarint` and `sqlite3GetVarint32` of `util.c`, unrolled as in the source: `a`, `b` and
`s` are the source's 32-bit registers, and the number of bytes read is the second component. The
writers return the bytes that they put into the buffer.

## Main definitions

* `sqlite3GetVarint`, `getVarint32` — the readers
* `skipVarint` — the loop that only steps over one
* `sqlite3PutVarint`, `putVarint32`, `sqlite3VarintLen` — the writers

## Main results

* `sqlite3GetVarint_length` — reading and stepping over agree on the length
* `getVarint32_putVarint32` — what is written is read back
-/

namespace SqliteVms

namespace Util

open Store

/-- `SLOT_2_0` and `SLOT_4_2_0`. -/
def slot20 : UInt32 := 0x001fc07f
@[inherit_doc slot20] def slot420 : UInt32 := 0xf01fc07f

/-- The value `((u64)s)<<32 | a`. -/
def join64 (s a : UInt32) : UInt64 := s.toUInt64 <<< 32 ||| a.toUInt64

/-- `sqlite3GetVarint`: the value at `p`, and the number of bytes read. -/
def sqlite3GetVarint (p : ℕ → UInt8) : UInt64 × ℕ :=
  let a := (p 0).toUInt32
  if a &&& 0x80 = 0 then (a.toUInt64, 1) else
  let b := (p 1).toUInt32
  if b &&& 0x80 = 0 then (((a &&& 0x7f) <<< 7 ||| b).toUInt64, 2) else
  let a := a <<< 14 ||| (p 2).toUInt32
  if a &&& 0x80 = 0 then ((a &&& slot20 ||| (b &&& 0x7f) <<< 7).toUInt64, 3) else
  let a := a &&& slot20
  let b := b <<< 14 ||| (p 3).toUInt32
  if b &&& 0x80 = 0 then ((a <<< 7 ||| b &&& slot20).toUInt64, 4) else
  let b := b &&& slot20
  let s := a
  let a := a <<< 14 ||| (p 4).toUInt32
  if a &&& 0x80 = 0 then (join64 (s >>> 18) (a ||| b <<< 7), 5) else
  let s := s <<< 7 ||| b
  let b := b <<< 14 ||| (p 5).toUInt32
  if b &&& 0x80 = 0 then (join64 (s >>> 18) ((a &&& slot20) <<< 7 ||| b), 6) else
  let a := a <<< 14 ||| (p 6).toUInt32
  if a &&& 0x80 = 0 then (join64 (s >>> 11) (a &&& slot420 ||| (b &&& slot20) <<< 7), 7) else
  let a := a &&& slot20
  let b := b <<< 14 ||| (p 7).toUInt32
  if b &&& 0x80 = 0 then (join64 (s >>> 4) (a <<< 7 ||| b &&& slot420), 8) else
  let a := a <<< 15 ||| (p 8).toUInt32 ||| (b &&& slot20) <<< 8
  (join64 (s <<< 4 ||| ((p 4).toUInt32 &&& 0x7f) >>> 3) a, 9)

/-- `sqlite3GetVarint32`, for a first byte with its high bit set. A value that does not fit
reads as `0xffffffff`. -/
def sqlite3GetVarint32 (p : ℕ → UInt8) : UInt32 × ℕ :=
  let a := (p 0).toUInt32
  let b := (p 1).toUInt32
  if b &&& 0x80 = 0 then ((a &&& 0x7f) <<< 7 ||| b, 2) else
  let a := a <<< 14 ||| (p 2).toUInt32
  if a &&& 0x80 = 0 then (a &&& slot20 ||| (b &&& 0x7f) <<< 7, 3) else
  let v64 := (sqlite3GetVarint p).1
  (if v64 &&& 0xffffffff ≠ v64 then 0xffffffff else v64.toUInt32, (sqlite3GetVarint p).2)

/-- The macro `getVarint32`. -/
def getVarint32 (p : ℕ → UInt8) : UInt32 × ℕ :=
  if p 0 < 0x80 then ((p 0).toUInt32, 1) else sqlite3GetVarint32 p

/-- The loop `while( (*pIter++)&0x80 && pIter<pEnd )` at its `i`-th byte of at most nine. -/
def skipVarint (p : ℕ → UInt8) : ℕ → ℕ → ℕ
  | 0, i => i
  | left + 1, i => if p i &&& 0x80 ≠ 0 ∧ i + 1 < 9 then skipVarint p left (i + 1) else i + 1

/-! ### The length read -/

theorem and_0x80_eq_zero_iff (x : UInt32) : x &&& 0x80 = 0 ↔ x.toNat.testBit 7 = false := by
  rw [← UInt32.toNat_inj, UInt32.toNat_and]
  have hmask : (0x80 : UInt32).toNat = 2 ^ 7 := rfl
  rw [hmask, Nat.and_two_pow]
  cases x.toNat.testBit 7 <;> simp

theorem and_0x80_byte (b : UInt8) : b.toUInt32 &&& 0x80 = 0 ↔ b &&& 0x80 = 0 := by
  rw [and_0x80_eq_zero_iff, ← UInt8.toNat_inj, UInt8.toNat_and, UInt8.toNat_toUInt32]
  have hmask : (0x80 : UInt8).toNat = 2 ^ 7 := rfl
  rw [hmask, Nat.and_two_pow]
  cases b.toNat.testBit 7 <;> simp

/-- The register shifted by fourteen shows the high bit of the byte put below it. -/
theorem and_0x80_shift (a : UInt32) (b : UInt8) :
    (a <<< 14 ||| b.toUInt32) &&& 0x80 = 0 ↔ b &&& 0x80 = 0 := by
  rw [← and_0x80_byte, and_0x80_eq_zero_iff, and_0x80_eq_zero_iff, UInt32.toNat_or,
    Nat.testBit_or]
  have hlow : (a <<< 14).toNat.testBit 7 = false := by
    rw [UInt32.toNat_shiftLeft, Nat.testBit_mod_two_pow]
    simp [Nat.testBit_shiftLeft]
  rw [hlow, Bool.false_or]

/-- **Reading a varint and stepping over it agree on its length.** -/
theorem sqlite3GetVarint_length (p : ℕ → UInt8) : (sqlite3GetVarint p).2 = skipVarint p 9 0 := by
  simp only [sqlite3GetVarint, and_0x80_shift, and_0x80_byte, apply_ite Prod.snd]
  -- both sides stop at the first byte whose high bit is clear
  have hskip : ∀ left i, i < 8 → skipVarint p (left + 1) i
      = if p i &&& 0x80 = 0 then i + 1 else skipVarint p left (i + 1) := by
    intro left i hi
    rw [skipVarint]
    by_cases h : p i &&& 0x80 = 0
    · rw [if_neg (by simp [h]), if_pos h]
    · rw [if_pos ⟨h, by omega⟩, if_neg h]
  rw [hskip 8 0 (by decide), hskip 7 1 (by decide), hskip 6 2 (by decide), hskip 5 3 (by decide),
    hskip 4 4 (by decide), hskip 3 5 (by decide), hskip 2 6 (by decide), hskip 1 7 (by decide),
    skipVarint, if_neg (c := p (7 + 1) &&& 0x80 ≠ 0 ∧ 7 + 1 + 1 < 9) (by omega)]

/-! ### The value read -/

/-- The value of the first `n` bytes, seven bits each. -/
def groups (p : ℕ → UInt8) : ℕ → ℕ
  | 0 => 0
  | n + 1 => groups p n * 2 ^ 7 + (p n).toNat % 2 ^ 7

/-- The byte `n` is the first one with its high bit clear. -/
def EndsAt (p : ℕ → UInt8) (n : ℕ) : Prop := (∀ i < n, p i &&& 0x80 ≠ 0) ∧ p n &&& 0x80 = 0

theorem and_0x80_iff_lt (b : UInt8) : b &&& 0x80 = 0 ↔ b.toNat < 2 ^ 7 := by
  rw [← UInt8.toNat_inj, UInt8.toNat_and]
  have hmask : (0x80 : UInt8).toNat = 2 ^ 7 := rfl
  have hb := b.toNat_lt
  rw [hmask, Nat.and_two_pow, Nat.testBit_eq_decide_div_mod_eq]
  rcases Nat.lt_or_ge b.toNat (2 ^ 7) with h | h
  · rw [Nat.div_eq_of_lt h]
    simpa using h
  · rw [show b.toNat / 2 ^ 7 = 1 by omega]
    simpa using h

theorem and_0x7f (x : UInt32) : (x &&& 0x7f).toNat = x.toNat % 2 ^ 7 := by
  rw [UInt32.toNat_and, ← Nat.and_two_pow_sub_one_eq_mod]
  rfl

theorem and_slot20 {x : UInt32} {a b : ℕ} (hx : x.toNat = a * 2 ^ 14 + b) (hb : b < 2 ^ 14) :
    (x &&& slot20).toNat = a % 2 ^ 7 * 2 ^ 14 + b % 2 ^ 7 := by
  have hmask : slot20.toNat = (2 ^ 7 - 1) * 2 ^ 14 + (2 ^ 7 - 1) := rfl
  rw [UInt32.toNat_and, hx, hmask, Bits.and_fields hb (by decide), Nat.and_two_pow_sub_one_eq_mod,
    Nat.and_two_pow_sub_one_eq_mod]

theorem toNat_shiftLeft_seven {x : UInt32} (h : x.toNat < 2 ^ 25) :
    (x <<< 7).toNat = x.toNat * 2 ^ 7 := by
  rw [UInt32.toNat_shiftLeft, Nat.shiftLeft_eq]
  exact Nat.mod_eq_of_lt (by simp; omega)

theorem toNat_shiftLeft_fourteen {x : UInt32} (h : x.toNat < 2 ^ 18) :
    (x <<< 14).toNat = x.toNat * 2 ^ 14 := by
  rw [UInt32.toNat_shiftLeft, Nat.shiftLeft_eq]
  exact Nat.mod_eq_of_lt (by simp; omega)

/-- A byte put below the register. -/
theorem toNat_shift_or_byte {x : UInt32} (b : UInt8) (h : x.toNat < 2 ^ 18) :
    (x <<< 14 ||| b.toUInt32).toNat = x.toNat * 2 ^ 14 + b.toNat := by
  have hb := b.toNat_lt
  rw [UInt32.toNat_or, toNat_shiftLeft_fourteen h, UInt8.toNat_toUInt32]
  exact Bits.or_low (by omega)

variable {p : ℕ → UInt8}

theorem toNat_two (p : ℕ → UInt8) (h : (p 1).toNat < 2 ^ 7) :
    (((p 0).toUInt32 &&& 0x7f) <<< 7 ||| (p 1).toUInt32).toNat = groups p 2 := by
  rw [UInt32.toNat_or, toNat_shiftLeft_seven (by rw [and_0x7f]; omega), and_0x7f,
    UInt8.toNat_toUInt32, UInt8.toNat_toUInt32, Bits.or_low h]
  simp only [groups]
  omega

/-- The first and the third byte. -/
theorem toNat_slot20 (b c : UInt8) :
    ((b.toUInt32 <<< 14 ||| c.toUInt32) &&& slot20).toNat
      = b.toNat % 2 ^ 7 * 2 ^ 14 + c.toNat % 2 ^ 7 := by
  have hb := b.toNat_lt
  have hc := c.toNat_lt
  refine and_slot20 ?_ (by omega)
  rw [toNat_shift_or_byte c (by rw [UInt8.toNat_toUInt32]; omega), UInt8.toNat_toUInt32]

theorem toNat_three (p : ℕ → UInt8) (h : (p 2).toNat < 2 ^ 7) :
    (((p 0).toUInt32 <<< 14 ||| (p 2).toUInt32) &&& slot20 |||
      ((p 1).toUInt32 &&& 0x7f) <<< 7).toNat = groups p 3 := by
  rw [UInt32.toNat_or, toNat_slot20, toNat_shiftLeft_seven (by rw [and_0x7f]; omega), and_0x7f,
    UInt8.toNat_toUInt32]
  have h₀ : (p 0).toNat % 2 ^ 7 * 2 ^ 14 + (p 2).toNat % 2 ^ 7
      = ((p 0).toNat % 2 ^ 7 * 2 ^ 7) * 2 ^ 7 + (p 2).toNat := by omega
  have h₁ := Bits.or_fields (x := (p 0).toNat % 2 ^ 7 * 2 ^ 7) (z := (p 1).toNat % 2 ^ 7)
    (k := 7) (w := 0) h (by decide)
  rw [h₀, ← Nat.add_zero ((p 1).toNat % 2 ^ 7 * 2 ^ 7), h₁, Bits.or_low (by omega), Nat.or_zero]
  simp only [groups]
  omega

/-- The first and third group between the second and fourth. -/
theorem or_interleave {x y z w : ℕ} (hy : y < 2 ^ 7) (hz : z < 2 ^ 7) (hw : w < 2 ^ 7) :
    (x * 2 ^ 14 + y) * 2 ^ 7 ||| (z * 2 ^ 14 + w) = ((x * 2 ^ 7 + z) * 2 ^ 7 + y) * 2 ^ 7 + w := by
  have hx : (x * 2 ^ 14 + y) * 2 ^ 7 = (x * 2 ^ 7) * 2 ^ 14 + y * 2 ^ 7 := by omega
  rw [hx, Bits.or_fields (by omega) (by omega), Bits.or_low hz, Bits.or_low hw]
  omega

theorem toNat_four (p : ℕ → UInt8) :
    (((((p 0).toUInt32 <<< 14 ||| (p 2).toUInt32) &&& slot20) <<< 7) |||
      ((p 1).toUInt32 <<< 14 ||| (p 3).toUInt32) &&& slot20).toNat = groups p 4 := by
  rw [UInt32.toNat_or, toNat_shiftLeft_seven (by rw [toNat_slot20]; omega), toNat_slot20,
    toNat_slot20, or_interleave (by omega) (by omega) (by omega)]
  simp only [groups]
  omega

theorem toNat_join64_zero {s a : UInt32} (h : s.toNat = 0) : (join64 s a).toNat = a.toNat := by
  rw [join64, UInt64.toNat_or, UInt64.toNat_shiftLeft, UInt32.toNat_toUInt64, UInt32.toNat_toUInt64,
    h]
  simp

theorem toNat_five (p : ℕ → UInt8) (h : (p 4).toNat < 2 ^ 7) (hlt : groups p 5 < 2 ^ 32) :
    (join64 ((((p 0).toUInt32 <<< 14 ||| (p 2).toUInt32) &&& slot20) >>> 18)
      (((((p 0).toUInt32 <<< 14 ||| (p 2).toUInt32) &&& slot20) <<< 14 ||| (p 4).toUInt32) |||
        (((p 1).toUInt32 <<< 14 ||| (p 3).toUInt32) &&& slot20) <<< 7)).toNat = groups p 5 := by
  have h02 := toNat_slot20 (p 0) (p 2)
  have h13 := toNat_slot20 (p 1) (p 3)
  simp only [groups] at hlt ⊢
  have hsmall : (p 0).toNat % 2 ^ 7 < 2 ^ 4 := by omega
  rw [toNat_join64_zero, UInt32.toNat_or, toNat_shift_or_byte _ (by rw [h02]; omega),
    toNat_shiftLeft_seven (by rw [h13]; omega), h02, h13]
  · have hor := Bits.or_fields (k := 7) (w := 0)
      (x := ((p 0).toNat % 2 ^ 7 * 2 ^ 14 + (p 2).toNat % 2 ^ 7) * 2 ^ 7)
      (z := (p 1).toNat % 2 ^ 7 * 2 ^ 14 + (p 3).toNat % 2 ^ 7) h (by decide)
    rw [or_interleave (by omega) (by omega) (by omega), Nat.or_zero, Nat.add_zero] at hor
    rw [show ∀ x : ℕ, x * 2 ^ 14 + (p 4).toNat = x * 2 ^ 7 * 2 ^ 7 + (p 4).toNat by omega, hor]
    omega
  · rw [UInt32.toNat_shiftRight, h02, Nat.shiftRight_eq_div_pow]
    exact Nat.div_eq_of_lt (by simp; omega)

/-- Values of four and five bytes are read by `sqlite3GetVarint`. -/
theorem sqlite3GetVarint_eq {n : ℕ} (hn : n = 3 ∨ n = 4) (h : EndsAt p n)
    (hlt : groups p (n + 1) < 2 ^ 32) :
    (sqlite3GetVarint p).1.toNat = groups p (n + 1) ∧ (sqlite3GetVarint p).2 = n + 1 := by
  obtain ⟨hmore, hlast⟩ := h
  rcases hn with rfl | rfl
  · simp only [sqlite3GetVarint, and_0x80_byte, and_0x80_shift, hlast, hmore 0 (by decide),
      hmore 1 (by decide), hmore 2 (by decide), if_pos, if_neg, not_false_eq_true,
      UInt32.toNat_toUInt64]
    exact ⟨toNat_four p, trivial⟩
  · simp only [sqlite3GetVarint, and_0x80_byte, and_0x80_shift, hlast, hmore 0 (by decide),
      hmore 1 (by decide), hmore 2 (by decide), hmore 3 (by decide), if_pos, if_neg,
      not_false_eq_true]
    exact ⟨toNat_five p ((and_0x80_iff_lt _).mp hlast) hlt, trivial⟩

theorem and_0xffffffff {v : UInt64} (h : v.toNat < 2 ^ 32) : v &&& 0xffffffff = v := by
  rw [← UInt64.toNat_inj, UInt64.toNat_and]
  exact (Nat.and_two_pow_sub_one_eq_mod v.toNat 32).trans (Nat.mod_eq_of_lt h)

/-- **What `getVarint32` reads.** A value below 2^32 in at most five bytes is read as the number
that its groups of seven bits make. -/
theorem getVarint32_eq {n : ℕ} (hn : n ≤ 4) (h : EndsAt p n) (hlt : groups p (n + 1) < 2 ^ 32) :
    (getVarint32 p).1.toNat = groups p (n + 1) ∧ (getVarint32 p).2 = n + 1 := by
  have hlast := h.2
  have hlt128 := (and_0x80_iff_lt _).mp hlast
  have hfirst : p 0 < 0x80 ↔ p 0 &&& 0x80 = 0 := by
    rw [and_0x80_iff_lt, UInt8.lt_iff_toNat_lt]
    rfl
  rcases Nat.eq_zero_or_pos n with rfl | hpos
  · rw [getVarint32, if_pos (hfirst.mpr hlast)]
    simp only [groups, UInt8.toNat_toUInt32]
    exact ⟨by omega, trivial⟩
  rw [getVarint32, if_neg (mt hfirst.mp (h.1 0 hpos)), sqlite3GetVarint32]
  rcases Nat.lt_or_ge n 2 with h2 | h2
  · obtain rfl : n = 1 := by omega
    simp only [and_0x80_byte, hlast, if_pos]
    exact ⟨toNat_two p hlt128, trivial⟩
  rcases Nat.lt_or_ge n 3 with h3 | h3
  · obtain rfl : n = 2 := by omega
    simp only [and_0x80_byte, and_0x80_shift, hlast, h.1 1 (by decide), if_pos, if_neg,
      not_false_eq_true]
    exact ⟨toNat_three p hlt128, trivial⟩
  · obtain ⟨hval, hlen⟩ := sqlite3GetVarint_eq (by omega) h hlt
    simp only [and_0x80_byte, and_0x80_shift, h.1 1 (by omega), h.1 2 (by omega), if_neg,
      not_false_eq_true, hlen, and_true]
    rw [if_neg (by rw [and_0xffffffff (hval ▸ hlt)]; simp), UInt64.toNat_toUInt32, hval]
    exact Nat.mod_eq_of_lt hlt

/-! ### Writing -/

/-- The loop of `sqlite3PutVarint`: groups of seven bits, the lowest first. -/
def putGroups : ℕ → UInt64 → List UInt8
  | 0, _ => []
  | n + 1, v =>
    (v &&& 0x7f ||| 0x80).toUInt8 :: if v >>> 7 ≠ 0 then putGroups n (v >>> 7) else []

def sqlite3PutVarint (v : UInt64) : List UInt8 :=
  if v &&& (0xff000000 : UInt64) <<< 32 ≠ 0 then
    ((List.range 8).reverse.map fun i : ℕ =>
      (v >>> 8 >>> (7 * i.toUInt64) &&& 0x7f ||| 0x80).toUInt8) ++ [v.toUInt8]
  else
    match putGroups 9 v with
    | [] => []
    | b :: buf => ((b &&& 0x7f) :: buf).reverse

/-- `sqlite3PutVarint32`, for a value of more than seven bits. -/
def sqlite3PutVarint32 (v : UInt32) : List UInt8 :=
  if v &&& ~~~0x3fff = 0 then [(v >>> 7 ||| 0x80).toUInt8, (v &&& 0x7f).toUInt8]
  else sqlite3PutVarint v.toUInt64

/-- The macro `putVarint32`. -/
def putVarint32 (v : UInt32) : List UInt8 :=
  if v < 0x80 then [v.toUInt8] else sqlite3PutVarint32 v

/-- The loop of `sqlite3VarintLen`. -/
def varintLenLoop : ℕ → UInt64 → ℕ
  | 0, _ => 0
  | n + 1, v => 1 + if v >>> 7 ≠ 0 then varintLenLoop n (v >>> 7) else 0

def sqlite3VarintLen (v : UInt64) : ℕ := varintLenLoop 9 v

theorem toNat_group (v : UInt64) :
    (v &&& 0x7f ||| 0x80).toUInt8.toNat = 2 ^ 7 + v.toNat % 2 ^ 7 := by
  have hmod := Nat.and_two_pow_sub_one_eq_mod v.toNat 7
  have hor := Bits.or_low (x := 1) (k := 7) (y := v.toNat % 2 ^ 7) (by omega)
  rw [UInt64.toNat_toUInt8, UInt64.toNat_or, UInt64.toNat_and]
  rw [show (0x7f : UInt64).toNat = 2 ^ 7 - 1 from rfl, show (0x80 : UInt64).toNat = 1 * 2 ^ 7 from rfl,
    hmod, Nat.or_comm, hor]
  omega

theorem toNat_shiftRight_seven (v : UInt64) : (v >>> 7).toNat = v.toNat / 2 ^ 7 := by
  rw [UInt64.toNat_shiftRight, Nat.shiftRight_eq_div_pow]
  rfl

theorem shiftRight_seven_ne_zero (v : UInt64) : v >>> 7 ≠ 0 ↔ 2 ^ 7 ≤ v.toNat := by
  rw [Ne, ← UInt64.toNat_inj, toNat_shiftRight_seven]
  simp

theorem length_putGroups (n : ℕ) (v : UInt64) : (putGroups n v).length = varintLenLoop n v := by
  induction n generalizing v with
  | zero => rfl
  | succ n ih =>
    rw [putGroups, varintLenLoop, List.length_cons, Nat.add_comm]
    split
    · rw [ih]
    · rfl

theorem putGroups_high {n : ℕ} {v : UInt64} {b : UInt8} (hb : b ∈ putGroups n v) :
    b &&& 0x80 ≠ 0 := by
  induction n generalizing v with
  | zero => simp [putGroups] at hb
  | succ n ih =>
    rw [putGroups, List.mem_cons] at hb
    rcases hb with rfl | hb
    · rw [Ne, and_0x80_iff_lt, toNat_group]
      omega
    · split at hb
      · exact ih hb
      · simp at hb

/-- The number that the groups of a list make, the highest first. -/
def listGroups (xs : List UInt8) : ℕ := xs.foldl (fun x b => x * 2 ^ 7 + b.toNat % 2 ^ 7) 0

theorem listGroups_append_singleton (xs : List UInt8) (b : UInt8) :
    listGroups (xs ++ [b]) = listGroups xs * 2 ^ 7 + b.toNat % 2 ^ 7 := by
  simp [listGroups]

theorem groups_eq_listGroups (p : ℕ → UInt8) (n : ℕ) : groups p n = listGroups (slice p 0 n) := by
  induction n with
  | zero => rfl
  | succ n ih =>
    have hone : slice p (0 + n) 1 = [p n] := by simp [slice]
    rw [groups, ih, slice_append, hone, listGroups_append_singleton]

theorem listGroups_putGroups {n : ℕ} {v : UInt64} (h : v.toNat < 2 ^ (7 * n)) :
    listGroups (putGroups n v).reverse = v.toNat := by
  induction n generalizing v with
  | zero =>
    rw [Nat.mul_zero, pow_zero] at h
    rw [putGroups, List.reverse_nil]
    exact (Nat.lt_one_iff.mp h).symm
  | succ n ih =>
    rw [putGroups, List.reverse_cons, listGroups_append_singleton, toNat_group]
    split
    · rw [ih, toNat_shiftRight_seven]
      · omega
      · rw [toNat_shiftRight_seven]
        exact Nat.div_lt_of_lt_mul (by rw [← pow_add]; convert h using 2; omega)
    · rename_i hzero
      rw [shiftRight_seven_ne_zero] at hzero
      simp only [listGroups, List.reverse_nil, List.foldl_nil]
      omega

theorem varintLenLoop_le_iff {n k : ℕ} {v : UInt64} (hk : 0 < k) (hkn : k < n) :
    varintLenLoop n v ≤ k ↔ v.toNat < 2 ^ (7 * k) := by
  induction n generalizing v k with
  | zero => omega
  | succ n ih =>
    have hpow : 2 ^ (7 * 1) ≤ 2 ^ (7 * k) := Nat.pow_le_pow_right (by decide) (by omega)
    rw [varintLenLoop]
    split
    · rename_i hmore
      rw [shiftRight_seven_ne_zero] at hmore
      obtain ⟨k, rfl⟩ : ∃ k', k = k' + 1 := ⟨k - 1, by omega⟩
      rcases Nat.eq_zero_or_pos k with rfl | hk'
      · have hpos : 0 < varintLenLoop n (v >>> 7) := by
          obtain ⟨n, rfl⟩ := Nat.exists_eq_add_of_le' (show 1 ≤ n by omega)
          rw [varintLenLoop]
          omega
        simp only [Nat.zero_add, Nat.mul_one]
        omega
      · have hstep := ih (v := v >>> 7) hk' (by omega)
        rw [toNat_shiftRight_seven, Nat.div_lt_iff_lt_mul (by decide), ← pow_add,
          show 7 * k + 7 = 7 * (k + 1) by omega] at hstep
        omega
    · rename_i hzero
      rw [shiftRight_seven_ne_zero] at hzero
      omega

/-- The values whose varint has at most `k` bytes. -/
theorem sqlite3VarintLen_le_iff {k : ℕ} {v : UInt64} (hk : 0 < k) (hk9 : k < 9) :
    sqlite3VarintLen v ≤ k ↔ v.toNat < 2 ^ (7 * k) := varintLenLoop_le_iff hk hk9

theorem sqlite3VarintLen_pos (v : UInt64) : 0 < sqlite3VarintLen v := by
  rw [sqlite3VarintLen, varintLenLoop]
  omega

/-- A byte sequence that reads as one varint of at most five bytes. -/
structure IsVarint32 (v : ℕ) (xs : List UInt8) : Prop where
  length_le : xs.length ≤ 5
  ends : ∃ init b, xs = init ++ [b] ∧ (∀ c ∈ init, c &&& 0x80 ≠ 0) ∧ b &&& 0x80 = 0
  value : listGroups xs = v

/-- **Reading a varint.** -/
theorem IsVarint32.getVarint32 {v off : ℕ} {xs : List UInt8} (h : IsVarint32 v xs)
    (hv : v < 2 ^ 32) (hp : Holds p off xs) :
    (getVarint32 fun i => p (off + i)).1.toNat = v ∧
      (getVarint32 fun i => p (off + i)).2 = xs.length := by
  obtain ⟨init, b, rfl, hinit, hb⟩ := h.ends
  have hlen := h.length_le
  rw [List.length_append, List.length_singleton] at hlen ⊢
  have hslice : slice (fun i => p (off + i)) 0 (init.length + 1) = init ++ [b] := by
    rw [← hp, List.length_append, List.length_singleton]
    simp [slice]
  have hgroups : groups (fun i => p (off + i)) (init.length + 1) = v := by
    rw [groups_eq_listGroups, hslice, h.value]
  have hends : EndsAt (fun i => p (off + i)) init.length := by
    constructor
    · intro i hi
      have hbyte := hp.byte (i := i) (by simp; omega)
      rw [List.getElem_append_left hi] at hbyte
      simp only [hbyte]
      exact hinit _ (List.getElem_mem hi)
    · have hbyte := hp.byte (i := init.length) (by simp)
      rw [List.getElem_concat_length rfl] at hbyte
      simpa only [hbyte] using hb
  have := getVarint32_eq (by omega) hends (hgroups ▸ hv)
  rwa [hgroups] at this

/-- The test for a value that takes nine bytes. -/
theorem and_0xff000000_eq_zero_iff (v : UInt64) :
    v &&& (0xff000000 : UInt64) <<< 32 = 0 ↔ v.toNat < 2 ^ 56 := by
  have hv := v.toNat_lt
  have hmask : ((0xff000000 : UInt64) <<< 32).toNat = (2 ^ 8 - 1) * 2 ^ 56 + 0 := rfl
  rw [← UInt64.toNat_inj, UInt64.toNat_and, hmask, ← Nat.div_add_mod' v.toNat (2 ^ 56),
    Bits.and_fields (by omega) (by decide), Nat.and_two_pow_sub_one_eq_mod, Nat.and_zero]
  show v.toNat / 2 ^ 56 % 2 ^ 8 * 2 ^ 56 + 0 = 0 ↔ _
  omega

/-- **What `sqlite3PutVarint` writes** for a value of at most eight groups. -/
theorem sqlite3PutVarint_spec {v : UInt64} (hv : v.toNat < 2 ^ 56) :
    (∃ init b, sqlite3PutVarint v = init ++ [b] ∧ (∀ c ∈ init, c &&& 0x80 ≠ 0) ∧
      b &&& 0x80 = 0) ∧ listGroups (sqlite3PutVarint v) = v.toNat ∧
    (sqlite3PutVarint v).length = sqlite3VarintLen v := by
  have htop := (and_0xff000000_eq_zero_iff v).mpr hv
  have hval := listGroups_putGroups (n := 9) (v := v) (lt_of_lt_of_le hv (by decide))
  have hlen := length_putGroups 9 v
  have hhigh : ∀ b ∈ putGroups 9 v, b &&& 0x80 ≠ 0 := fun b => putGroups_high
  rw [sqlite3PutVarint, if_neg (by simp [htop]), sqlite3VarintLen]
  cases hbuf : putGroups 9 v with
  | nil => simp [putGroups] at hbuf
  | cons b buf =>
    rw [hbuf] at hval hlen hhigh
    rw [List.reverse_cons, listGroups_append_singleton] at hval
    have hb : (b &&& 0x7f).toNat = b.toNat % 2 ^ 7 := by
      rw [UInt8.toNat_and, ← Nat.and_two_pow_sub_one_eq_mod]
      rfl
    dsimp only
    refine ⟨⟨buf.reverse, b &&& 0x7f, List.reverse_cons, ?_, ?_⟩, ?_, ?_⟩
    · intro c hc
      exact hhigh c (List.mem_cons_of_mem _ (List.mem_reverse.mp hc))
    · rw [and_0x80_iff_lt, hb]
      omega
    · rw [List.reverse_cons, listGroups_append_singleton, hb, Nat.mod_mod, hval]
    · simpa using hlen

theorem isVarint32_sqlite3PutVarint {v : UInt64} (hv : v.toNat < 2 ^ 32) :
    IsVarint32 v.toNat (sqlite3PutVarint v) ∧
      (sqlite3PutVarint v).length = sqlite3VarintLen v := by
  obtain ⟨hends, hval, hlen⟩ := sqlite3PutVarint_spec (lt_of_lt_of_le hv (by decide))
  have hle := (sqlite3VarintLen_le_iff (k := 5) (by decide) (by decide)).mpr
    (lt_of_lt_of_le hv (by decide))
  exact ⟨⟨hlen.trans_le hle, hends, hval⟩, hlen⟩

theorem lt_of_and_not_0x3fff {v : UInt32} (h : v &&& ~~~0x3fff = 0) : v.toNat < 2 ^ 14 := by
  have hv := v.toNat_lt
  have hmask : (~~~0x3fff : UInt32).toNat = (2 ^ 18 - 1) * 2 ^ 14 + 0 := rfl
  have hand := congrArg UInt32.toNat h
  rw [UInt32.toNat_and, hmask, ← Nat.div_add_mod' v.toNat (2 ^ 14),
    Bits.and_fields (by omega) (by decide), Nat.and_two_pow_sub_one_eq_mod, Nat.and_zero] at hand
  have hzero : v.toNat / 2 ^ 14 % 2 ^ 18 * 2 ^ 14 + 0 = 0 := hand
  omega

theorem isVarint32_two_bytes {v : UInt32} (hge : 2 ^ 7 ≤ v.toNat) (hlt : v.toNat < 2 ^ 14) :
    IsVarint32 v.toNat [(v >>> 7 ||| 0x80).toUInt8, (v &&& 0x7f).toUInt8] ∧
      [(v >>> 7 ||| 0x80).toUInt8, (v &&& 0x7f).toUInt8].length = sqlite3VarintLen v.toUInt64 := by
  have hv64 : v.toUInt64.toNat = v.toNat := UInt32.toNat_toUInt64 v
  have hhigh : (v >>> 7 ||| 0x80).toUInt8.toNat = 2 ^ 7 + v.toNat / 2 ^ 7 := by
    have hshift : (v >>> 7).toNat = v.toNat / 2 ^ 7 := by
      rw [UInt32.toNat_shiftRight, Nat.shiftRight_eq_div_pow]
      rfl
    have hor := Bits.or_low (x := 1) (k := 7) (y := v.toNat / 2 ^ 7) (by omega)
    rw [UInt32.toNat_toUInt8, UInt32.toNat_or, hshift,
      show (0x80 : UInt32).toNat = 1 * 2 ^ 7 from rfl, Nat.or_comm, hor]
    omega
  have hlow : (v &&& 0x7f).toUInt8.toNat = v.toNat % 2 ^ 7 := by
    rw [UInt32.toNat_toUInt8, and_0x7f]
    omega
  have htwo : v.toUInt64 >>> 7 ≠ 0 := by
    rw [shiftRight_seven_ne_zero, hv64]
    exact hge
  have hdone : ¬ v.toUInt64 >>> 7 >>> 7 ≠ 0 := by
    rw [shiftRight_seven_ne_zero, toNat_shiftRight_seven, hv64]
    omega
  refine ⟨⟨by simp, ⟨[_], _, rfl, ?_, ?_⟩, ?_⟩, ?_⟩
  · intro c hc
    rw [List.mem_singleton.mp hc, Ne, and_0x80_iff_lt, hhigh]
    omega
  · rw [and_0x80_iff_lt, hlow]
    omega
  · simp only [listGroups, List.foldl_cons, List.foldl_nil, hhigh, hlow]
    omega
  · rw [sqlite3VarintLen, varintLenLoop, if_pos htwo, varintLenLoop, if_neg hdone]
    rfl

/-- **What `putVarint32` writes.** -/
theorem isVarint32_putVarint32 (v : UInt32) :
    IsVarint32 v.toNat (putVarint32 v) ∧
      (putVarint32 v).length = sqlite3VarintLen v.toUInt64 := by
  have hv64 : v.toUInt64.toNat = v.toNat := UInt32.toNat_toUInt64 v
  rw [putVarint32]
  split
  · rename_i hlt
    have hlt : v.toNat < 2 ^ 7 := UInt32.lt_iff_toNat_lt.mp hlt
    have hbyte : v.toUInt8.toNat = v.toNat := by
      rw [UInt32.toNat_toUInt8]
      omega
    have hone : ¬ v.toUInt64 >>> 7 ≠ 0 := by
      rw [shiftRight_seven_ne_zero, hv64]
      omega
    refine ⟨⟨by simp, ⟨[], _, rfl, by simp, ?_⟩, ?_⟩, ?_⟩
    · rwa [and_0x80_iff_lt, hbyte]
    · simp only [listGroups, List.foldl_cons, List.foldl_nil, hbyte]
      omega
    · rw [sqlite3VarintLen, varintLenLoop, if_neg hone]
      rfl
  · rename_i hge
    have hge : 2 ^ 7 ≤ v.toNat := Nat.not_lt.mp fun h => hge (UInt32.lt_iff_toNat_lt.mpr h)
    rw [sqlite3PutVarint32]
    split
    · rename_i hmask
      exact isVarint32_two_bytes hge (lt_of_and_not_0x3fff hmask)
    · rw [← hv64]
      exact isVarint32_sqlite3PutVarint (hv64 ▸ v.toNat_lt)

/-- **What is written is read back**, at any place of a buffer. -/
theorem getVarint32_putVarint32 (v : UInt32) {off : ℕ} (hp : Holds p off (putVarint32 v)) :
    getVarint32 (fun i => p (off + i)) = (v, (putVarint32 v).length) := by
  obtain ⟨hval, hlen⟩ := (isVarint32_putVarint32 v).1.getVarint32 v.toNat_lt hp
  exact Prod.ext (UInt32.toNat_inj.mp hval) hlen

end Util

end SqliteVms

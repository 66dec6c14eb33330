import SqliteVms.Util.Varint

/-!
# The varint codec

`sqlite3GetVarint` collects the even and the odd groups in two registers and joins them at the end. The
value of each of its nine cases is the number that the groups make, so that reading inverts writing and
the readers agree.

## Main definitions

* `varintValue` — the value of the first `n` bytes

## Main results

* `toNat_sqlite3GetVarint` — what the unrolled reader computes
* `holds_sqlite3PutVarint_iff` — the bytes written are the only ones of their length with that value
* `varint_codec` — all readers and writers together
-/

namespace SqliteVms

namespace Util

open Store

variable {p q : ℕ → UInt8} {v : UInt64} {n : ℕ}

/-! ### Registers

What a step of the reader does to a register whose groups are known. A shift loses the groups at the
top, of which the other word has a copy. -/

theorem toNat_shiftLeft_of (x : UInt32) {k : UInt32} {j : ℕ} (hk : k.toNat % 32 = j) :
    (x <<< k).toNat = x.toNat * 2 ^ j % 2 ^ 32 := by
  rw [UInt32.toNat_shiftLeft, hk, Nat.shiftLeft_eq]

/-- A byte put below the register, whatever the register holds. -/
theorem toNat_shift_or (x : UInt32) (b : UInt8) :
    (x <<< 14 ||| b.toUInt32).toNat = x.toNat % 2 ^ 18 * 2 ^ 14 + b.toNat := by
  have hb := b.toNat_lt
  have hlow : x.toNat * 2 ^ 14 % 2 ^ 32 = x.toNat % 2 ^ 18 * 2 ^ 14 := by omega
  rw [UInt32.toNat_or, toNat_shiftLeft_of x (j := 14) rfl, hlow, UInt8.toNat_toUInt32]
  exact Bits.or_low (by omega)

theorem toNat_join64 (s a : UInt32) : (join64 s a).toNat = s.toNat * 2 ^ 32 + a.toNat := by
  have hs := s.toNat_lt
  have ha := a.toNat_lt
  rw [join64, UInt64.toNat_or, UInt64.toNat_shiftLeft, UInt32.toNat_toUInt64, UInt32.toNat_toUInt64,
    Nat.shiftLeft_eq]
  have hshift : s.toNat * 2 ^ ((32 : UInt64).toNat % 64) % 2 ^ 64 = s.toNat * 2 ^ 32 := by
    show s.toNat * 2 ^ 32 % 2 ^ 64 = s.toNat * 2 ^ 32
    omega
  rw [hshift, Bits.or_low ha]

theorem and_slot420 {x : UInt32} {a b c : ℕ} (hx : x.toNat = (a * 2 ^ 14 + b) * 2 ^ 14 + c)
    (ha : a < 2 ^ 4) (hb : b < 2 ^ 14) (hc : c < 2 ^ 14) :
    (x &&& slot420).toNat = (a * 2 ^ 14 + b % 2 ^ 7) * 2 ^ 14 + c % 2 ^ 7 := by
  have hmask : slot420.toNat
      = ((2 ^ 4 - 1) * 2 ^ 14 + (2 ^ 7 - 1)) * 2 ^ 14 + (2 ^ 7 - 1) := rfl
  rw [UInt32.toNat_and, hx, hmask, Bits.and_fields hc (by decide), Bits.and_fields hb (by decide),
    Nat.and_two_pow_sub_one_eq_mod, Nat.and_two_pow_sub_one_eq_mod, Nat.and_two_pow_sub_one_eq_mod,
    Nat.mod_eq_of_lt ha]

/-- Three even groups and two odd ones. -/
theorem or_interleave_five {x y u z w : ℕ} (hy : y < 2 ^ 7) (hz : z < 2 ^ 7) (hw : w < 2 ^ 7)
    (hu : u < 2 ^ 7) :
    ((x * 2 ^ 14 + y) * 2 ^ 14 + u) ||| (z * 2 ^ 14 + w) * 2 ^ 7
      = (((x * 2 ^ 7 + z) * 2 ^ 7 + y) * 2 ^ 7 + w) * 2 ^ 7 + u := by
  have hor := Bits.or_fields (k := 7) (w := 0) (x := (x * 2 ^ 14 + y) * 2 ^ 7)
    (z := z * 2 ^ 14 + w) hu (by decide)
  have hx : (x * 2 ^ 14 + y) * 2 ^ 14 + u = (x * 2 ^ 14 + y) * 2 ^ 7 * 2 ^ 7 + u := by omega
  rw [Nat.add_zero, Nat.or_zero, or_interleave hy hz hw] at hor
  rw [hx, hor]

/-- The register `b` between the groups of `a`, below the saved `s`. -/
theorem toNat_join {s a b : UInt32} {k : ℕ} {x y u z w : ℕ} {j : UInt32} (hj : j.toNat % 32 = k)
    (ha : a.toNat = (x * 2 ^ 14 + y) * 2 ^ 14 + u) (hb : b.toNat = z * 2 ^ 14 + w)
    (hy : y < 2 ^ 7) (hz : z < 2 ^ 7) (hw : w < 2 ^ 7) (hu : u < 2 ^ 7) :
    (join64 (s >>> j) (a ||| b <<< 7)).toNat = s.toNat / 2 ^ k * 2 ^ 32
      + ((((x * 2 ^ 7 + z) * 2 ^ 7 + y) * 2 ^ 7 + w) * 2 ^ 7 + u) := by
  rw [toNat_join64, UInt32.toNat_or, toNat_shiftLeft_seven (by rw [hb]; omega), ha, hb,
    or_interleave_five hy hz hw hu, UInt32.toNat_shiftRight, hj, Nat.shiftRight_eq_div_pow]

/-! ### The value read -/

/-- The value of the first `n` bytes: the ninth byte counts in full. -/
def varintValue (p : ℕ → UInt8) (n : ℕ) : ℕ :=
  if n < 9 then groups p n else groups p 8 * 2 ^ 8 + (p 8).toNat

/-- The registers when four bytes have been read, the even and the odd groups apart. -/
structure Registers (p : ℕ → UInt8) (s b : UInt32) : Prop where
  even : s.toNat = (p 0).toNat % 2 ^ 7 * 2 ^ 14 + (p 2).toNat % 2 ^ 7
  odd : b.toNat = (p 1).toNat % 2 ^ 7 * 2 ^ 14 + (p 3).toNat % 2 ^ 7
  both : (s <<< 7 ||| b).toNat = groups p 4

theorem registers (p : ℕ → UInt8) :
    Registers p (((p 0).toUInt32 <<< 14 ||| (p 2).toUInt32) &&& slot20)
      (((p 1).toUInt32 <<< 14 ||| (p 3).toUInt32) &&& slot20) where
  even := toNat_slot20 _ _
  odd := toNat_slot20 _ _
  both := toNat_four p

namespace Registers

variable {s b : UInt32}

theorem toNat_a5 (h : Registers p s b) : (s <<< 14 ||| (p 4).toUInt32).toNat
    = ((p 0).toNat % 2 ^ 4 * 2 ^ 14 + (p 2).toNat % 2 ^ 7) * 2 ^ 14 + (p 4).toNat := by
  rw [toNat_shift_or, h.even]
  omega

theorem toNat_b6 (h : Registers p s b) : (b <<< 14 ||| (p 5).toUInt32).toNat
    = ((p 1).toNat % 2 ^ 4 * 2 ^ 14 + (p 3).toNat % 2 ^ 7) * 2 ^ 14 + (p 5).toNat := by
  rw [toNat_shift_or, h.odd]
  omega

theorem toNat_a7 (h : Registers p s b) :
    ((s <<< 14 ||| (p 4).toUInt32) <<< 14 ||| (p 6).toUInt32).toNat
      = ((p 2).toNat % 2 ^ 4 * 2 ^ 14 + (p 4).toNat) * 2 ^ 14 + (p 6).toNat := by
  have hp := (p 4).toNat_lt
  rw [toNat_shift_or, h.toNat_a5]
  omega

theorem toNat_b8 (h : Registers p s b) :
    ((b <<< 14 ||| (p 5).toUInt32) <<< 14 ||| (p 7).toUInt32).toNat
      = ((p 3).toNat % 2 ^ 4 * 2 ^ 14 + (p 5).toNat) * 2 ^ 14 + (p 7).toNat := by
  have hp := (p 5).toNat_lt
  rw [toNat_shift_or, h.toNat_b6]
  omega

/-- The masked register `a` of the later cases. -/
theorem toNat_a7_and (h : Registers p s b) :
    (((s <<< 14 ||| (p 4).toUInt32) <<< 14 ||| (p 6).toUInt32) &&& slot20).toNat
      = (p 4).toNat % 2 ^ 7 * 2 ^ 14 + (p 6).toNat % 2 ^ 7 := by
  have h4 := (p 4).toNat_lt
  have h6 := (p 6).toNat_lt
  rw [and_slot20 h.toNat_a7 (by omega)]
  omega

theorem toNat_five (h : Registers p s b) (hlast : (p 4).toNat < 2 ^ 7) :
    (join64 (s >>> 18) (s <<< 14 ||| (p 4).toUInt32 ||| b <<< 7)).toNat = groups p 5 := by
  rw [toNat_join (k := 18) rfl h.toNat_a5 h.odd (by omega) (by omega) (by omega) hlast, h.even]
  simp only [groups]
  omega

theorem toNat_six (h : Registers p s b) (hlast : (p 5).toNat < 2 ^ 7) :
    (join64 ((s <<< 7 ||| b) >>> 18) (((s <<< 14 ||| (p 4).toUInt32) &&& slot20) <<< 7 |||
      (b <<< 14 ||| (p 5).toUInt32))).toNat = groups p 6 := by
  have h4 := (p 4).toNat_lt
  have ha := and_slot20 h.toNat_a5 (by omega)
  rw [UInt32.or_comm (((s <<< 14 ||| (p 4).toUInt32) &&& slot20) <<< 7),
    toNat_join (k := 18) rfl h.toNat_b6 ha (by omega) (by omega) (by omega) hlast, h.both]
  simp only [groups]
  omega

theorem toNat_seven (h : Registers p s b) (hlast : (p 6).toNat < 2 ^ 7) :
    (join64 ((s <<< 7 ||| b) >>> 11)
      (((s <<< 14 ||| (p 4).toUInt32) <<< 14 ||| (p 6).toUInt32) &&& slot420 |||
        ((b <<< 14 ||| (p 5).toUInt32) &&& slot20) <<< 7)).toNat = groups p 7 := by
  have h4 := (p 4).toNat_lt
  have h5 := (p 5).toNat_lt
  have ha := and_slot420 h.toNat_a7 (by omega) (by omega) (by omega)
  have hb := and_slot20 h.toNat_b6 (by omega)
  rw [toNat_join (k := 11) rfl ha hb (by omega) (by omega) (by omega) (by omega), h.both]
  simp only [groups]
  omega

theorem toNat_eight (h : Registers p s b) (hlast : (p 7).toNat < 2 ^ 7) :
    (join64 ((s <<< 7 ||| b) >>> 4)
      ((((s <<< 14 ||| (p 4).toUInt32) <<< 14 ||| (p 6).toUInt32) &&& slot20) <<< 7 |||
        ((b <<< 14 ||| (p 5).toUInt32) <<< 14 ||| (p 7).toUInt32) &&& slot420)).toNat
      = groups p 8 := by
  have h5 := (p 5).toNat_lt
  have hb := and_slot420 h.toNat_b8 (by omega) (by omega) (by omega)
  rw [UInt32.or_comm
      ((((s <<< 14 ||| (p 4).toUInt32) <<< 14 ||| (p 6).toUInt32) &&& slot20) <<< 7),
    toNat_join (k := 4) rfl hb h.toNat_a7_and (by omega) (by omega) (by omega) (by omega), h.both]
  simp only [groups]
  omega

/-- The low word of the nine-byte case, where the last byte has eight bits. -/
theorem toNat_nine_low {a b : UInt32} {x y z w : ℕ} (c : UInt8) (ha : a.toNat = x * 2 ^ 14 + y)
    (hb : b.toNat = z * 2 ^ 14 + w) (hy : y < 2 ^ 7) (hz : z < 2 ^ 7) (hw : w < 2 ^ 7) :
    (a <<< 15 ||| c.toUInt32 ||| b <<< 8).toNat
      = (((x % 2 ^ 3 * 2 ^ 7 + z) * 2 ^ 7 + y) * 2 ^ 7 + w) * 2 ^ 8 + c.toNat := by
  have hc := c.toNat_lt
  have hlow : (x * 2 ^ 14 + y) * 2 ^ 15 % 2 ^ 32 = (x % 2 ^ 3 * 2 ^ 14 + y) * 2 ^ 7 * 2 ^ 8 := by
    rw [show 2 ^ 32 = 2 ^ 17 * 2 ^ 15 from rfl, Nat.mul_mod_mul_right]
    omega
  have hmid : (z * 2 ^ 14 + w) * 2 ^ 8 % 2 ^ 32 = (z * 2 ^ 14 + w) * 2 ^ 8 :=
    Nat.mod_eq_of_lt (by omega)
  have hor := Bits.or_fields (k := 8) (w := 0) (x := (x % 2 ^ 3 * 2 ^ 14 + y) * 2 ^ 7)
    (z := z * 2 ^ 14 + w) hc (by decide)
  rw [Nat.add_zero, Nat.or_zero, or_interleave hy hz hw] at hor
  rw [UInt32.toNat_or, UInt32.toNat_or, toNat_shiftLeft_of a (j := 15) rfl,
    toNat_shiftLeft_of b (j := 8) rfl, ha, hb, hlow, hmid, UInt8.toNat_toUInt32, Bits.or_low hc, hor]

theorem toNat_nine (h : Registers p s b) :
    (join64 ((s <<< 7 ||| b) <<< 4 ||| ((p 4).toUInt32 &&& 0x7f) >>> 3)
      ((((s <<< 14 ||| (p 4).toUInt32) <<< 14 ||| (p 6).toUInt32) &&& slot20) <<< 15 |||
        (p 8).toUInt32 |||
        (((b <<< 14 ||| (p 5).toUInt32) <<< 14 ||| (p 7).toUInt32) &&& slot20) <<< 8)).toNat
      = groups p 8 * 2 ^ 8 + (p 8).toNat := by
  have h5 := (p 5).toNat_lt
  have h7 := (p 7).toNat_lt
  have hb := and_slot20 h.toNat_b8 (by omega)
  have hhigh : (((p 4).toUInt32 &&& 0x7f) >>> 3).toNat = (p 4).toNat % 2 ^ 7 / 2 ^ 3 := by
    rw [UInt32.toNat_shiftRight, and_0x7f, UInt8.toNat_toUInt32, Nat.shiftRight_eq_div_pow]
    rfl
  have hsave : groups p 4 * 2 ^ 4 % 2 ^ 32 = groups p 4 * 2 ^ 4 := by
    simp only [groups]
    omega
  rw [toNat_join64, toNat_nine_low (p 8) h.toNat_a7_and hb (by omega) (by omega) (by omega),
    UInt32.toNat_or, toNat_shiftLeft_of _ (j := 4) rfl, h.both, hsave, hhigh,
    Bits.or_low (by omega)]
  simp only [groups]
  omega

end Registers

/-- **What `sqlite3GetVarint` computes.** -/
theorem toNat_sqlite3GetVarint (p : ℕ → UInt8) :
    (sqlite3GetVarint p).1.toNat = varintValue p (sqlite3GetVarint p).2 := by
  have h := registers p
  simp only [sqlite3GetVarint, and_0x80_byte, and_0x80_shift]
  by_cases h₀ : p 0 &&& 0x80 = 0
  · rw [if_pos h₀]
    have := (and_0x80_iff_lt _).mp h₀
    simp only [UInt32.toNat_toUInt64, UInt8.toNat_toUInt32]
    show (p 0).toNat = 0 * 2 ^ 7 + (p 0).toNat % 2 ^ 7
    omega
  rw [if_neg h₀]
  by_cases h₁ : p 1 &&& 0x80 = 0
  · rw [if_pos h₁]
    simp only [UInt32.toNat_toUInt64]
    exact toNat_two p ((and_0x80_iff_lt _).mp h₁)
  rw [if_neg h₁]
  by_cases h₂ : p 2 &&& 0x80 = 0
  · rw [if_pos h₂]
    simp only [UInt32.toNat_toUInt64]
    exact toNat_three p ((and_0x80_iff_lt _).mp h₂)
  rw [if_neg h₂]
  by_cases h₃ : p 3 &&& 0x80 = 0
  · rw [if_pos h₃]
    simp only [UInt32.toNat_toUInt64]
    exact toNat_four p
  rw [if_neg h₃]
  by_cases h₄ : p 4 &&& 0x80 = 0
  · rw [if_pos h₄]
    exact h.toNat_five ((and_0x80_iff_lt _).mp h₄)
  rw [if_neg h₄]
  by_cases h₅ : p 5 &&& 0x80 = 0
  · rw [if_pos h₅]
    exact h.toNat_six ((and_0x80_iff_lt _).mp h₅)
  rw [if_neg h₅]
  by_cases h₆ : p 6 &&& 0x80 = 0
  · rw [if_pos h₆]
    exact h.toNat_seven ((and_0x80_iff_lt _).mp h₆)
  rw [if_neg h₆]
  by_cases h₇ : p 7 &&& 0x80 = 0
  · rw [if_pos h₇]
    exact h.toNat_eight ((and_0x80_iff_lt _).mp h₇)
  rw [if_neg h₇]
  exact h.toNat_nine

/-! ### The length read -/

/-- The first `n` bytes are one varint. -/
structure IsVarint (p : ℕ → UInt8) (n : ℕ) : Prop where
  pos : 0 < n
  le : n ≤ 9
  more : ∀ i, i + 1 < n → p i &&& 0x80 ≠ 0
  last : n < 9 → p (n - 1) &&& 0x80 = 0

theorem IsVarint.unique {m : ℕ} (hm : IsVarint p m) (hn : IsVarint p n) : m = n := by
  rcases Nat.lt_trichotomy m n with h | h | h
  · have hpos := hm.pos
    exact absurd (hm.last (lt_of_lt_of_le h hn.le)) (hn.more (m - 1) (by omega))
  · exact h
  · have hpos := hn.pos
    exact absurd (hn.last (lt_of_lt_of_le h hm.le)) (hm.more (n - 1) (by omega))

/-- The loop stops where a varint ends. -/
theorem isVarint_skipVarint (left i : ℕ) (hleft : i + (left + 1) = 9)
    (hmore : ∀ j < i, p j &&& 0x80 ≠ 0) : IsVarint p (skipVarint p (left + 1) i) := by
  induction left generalizing i with
  | zero =>
    rw [skipVarint, if_neg (by omega)]
    exact ⟨by omega, by omega, fun j hj => hmore j (by omega), fun hlt => by omega⟩
  | succ left ih =>
    rw [skipVarint]
    split
    · rename_i h
      refine ih (i + 1) (by omega) fun j hj => ?_
      rcases Nat.lt_succ_iff_lt_or_eq.mp hj with hj | rfl
      · exact hmore j hj
      · exact h.1
    · rename_i h
      exact ⟨by omega, by omega, fun j hj => hmore j (by omega),
        fun _ => by_contra fun hne => h ⟨hne, by omega⟩⟩

theorem isVarint_sqlite3GetVarint (p : ℕ → UInt8) : IsVarint p (sqlite3GetVarint p).2 := by
  rw [sqlite3GetVarint_length]
  exact isVarint_skipVarint 8 0 rfl (by simp)

/-- **Reading a varint**, of any length. -/
theorem IsVarint.sqlite3GetVarint (h : IsVarint p n) (hv : varintValue p n = v.toNat) :
    sqlite3GetVarint p = (v, n) := by
  have hlen := (isVarint_sqlite3GetVarint p).unique h
  refine Prod.ext (UInt64.toNat_inj.mp ?_) hlen
  rw [toNat_sqlite3GetVarint, hlen, hv]

/-! ### Writing and reading back -/

theorem varintLenLoop_le (n : ℕ) (v : UInt64) : varintLenLoop n v ≤ n := by
  induction n generalizing v with
  | zero => exact le_rfl
  | succ n ih =>
    have := ih (v >>> 7)
    rw [varintLenLoop]
    split <;> omega

theorem sqlite3VarintLen_le_nine (v : UInt64) : sqlite3VarintLen v ≤ 9 := varintLenLoop_le 9 v

theorem sqlite3VarintLen_eq_nine (h : 2 ^ 56 ≤ v.toNat) : sqlite3VarintLen v = 9 := by
  have hle := sqlite3VarintLen_le_nine v
  have hgt := mt (sqlite3VarintLen_le_iff (v := v) (k := 8) (by decide) (by decide)).mp (by omega)
  omega

/-- A byte of the loop that writes nine of them. -/
theorem toNat_high_byte (v : UInt64) (h : n < 8) :
    (v >>> 8 >>> (7 * n.toUInt64) &&& 0x7f ||| 0x80).toUInt8.toNat
      = 2 ^ 7 + v.toNat / 2 ^ 8 / 2 ^ (7 * n) % 2 ^ 7 := by
  have hshift : (7 * n.toUInt64).toNat % 64 = 7 * n := by
    rw [UInt64.toNat_mul, Nat.toUInt64, UInt64.toNat_ofNat']
    show 7 * (n % 2 ^ 64) % 2 ^ 64 % 64 = 7 * n
    omega
  rw [toNat_group, UInt64.toNat_shiftRight, UInt64.toNat_shiftRight, hshift,
    Nat.shiftRight_eq_div_pow, Nat.shiftRight_eq_div_pow]
  rfl

theorem sqlite3PutVarint_nine (h : 2 ^ 56 ≤ v.toNat) : sqlite3PutVarint v
    = ((List.range 8).reverse.map fun i : ℕ =>
      (v >>> 8 >>> (7 * i.toUInt64) &&& 0x7f ||| 0x80).toUInt8) ++ [v.toUInt8] := by
  rw [sqlite3PutVarint, if_pos (by rw [Ne, and_0xff000000_eq_zero_iff]; omega)]

theorem length_sqlite3PutVarint (v : UInt64) :
    (sqlite3PutVarint v).length = sqlite3VarintLen v := by
  rcases Nat.lt_or_ge v.toNat (2 ^ 56) with h | h
  · exact (sqlite3PutVarint_spec h).2.2
  · rw [sqlite3PutVarint_nine h, sqlite3VarintLen_eq_nine h]
    simp

/-- Bytes of which only the last has its high bit clear. -/
theorem isVarint_of_ends {init : List UInt8} {b : UInt8} (hinit : ∀ c ∈ init, c &&& 0x80 ≠ 0)
    (hb : b &&& 0x80 = 0) (hlen : init.length < 8) (hp : Holds p 0 (init ++ [b])) :
    IsVarint p (init.length + 1) ∧
      varintValue p (init.length + 1) = listGroups (init ++ [b]) := by
  have hbyte : ∀ i (hi : i < (init ++ [b]).length), p i = (init ++ [b])[i] := by
    intro i hi
    rw [← hp.byte hi, Nat.zero_add]
  constructor
  · refine ⟨by omega, by omega, fun i hi => ?_, fun _ => ?_⟩
    · rw [hbyte i (by simp; omega), List.getElem_append_left (by omega)]
      exact hinit _ (List.getElem_mem _)
    · rw [Nat.add_sub_cancel, hbyte init.length (by simp), List.getElem_concat_length rfl]
      exact hb
  · rw [varintValue, if_pos (by omega), groups_eq_listGroups]
    rw [Holds, List.length_append, List.length_singleton] at hp
    rw [hp]

/-- Eight groups at most: the last byte has its high bit clear. -/
theorem isVarint_of_holds_short (h : v.toNat < 2 ^ 56) (hp : Holds p 0 (sqlite3PutVarint v)) :
    IsVarint p (sqlite3VarintLen v) ∧ varintValue p (sqlite3VarintLen v) = v.toNat := by
  obtain ⟨⟨init, b, hput, hinit, hb⟩, hval, hlen⟩ := sqlite3PutVarint_spec h
  have hle := (sqlite3VarintLen_le_iff (v := v) (k := 8) (by decide) (by decide)).mpr h
  rw [hput, List.length_append, List.length_singleton] at hlen
  rw [← hlen, ← hval]
  rw [hput] at hp ⊢
  exact isVarint_of_ends hinit hb (by omega) hp

/-- The groups of a number, the highest first. -/
theorem groups_eq_div {x : ℕ} (hx : x < 2 ^ (7 * n))
    (h : ∀ i < n, (p i).toNat % 2 ^ 7 = x / 2 ^ (7 * (n - 1 - i)) % 2 ^ 7) :
    ∀ k ≤ n, groups p k = x / 2 ^ (7 * (n - k)) := by
  intro k hk
  induction k with
  | zero => exact (Nat.div_eq_of_lt hx).symm
  | succ k ih =>
    have hexp : 7 * (n - k) = 7 * (n - (k + 1)) + 7 := by omega
    rw [groups, ih (by omega), h k hk, hexp, pow_add, ← Nat.div_div_eq_div_mul,
      show n - 1 - k = n - (k + 1) by omega, Nat.div_add_mod']

/-- Nine bytes: the last one is the low byte of the value. -/
theorem isVarint_of_holds_nine (h : 2 ^ 56 ≤ v.toNat) (hp : Holds p 0 (sqlite3PutVarint v)) :
    IsVarint p 9 ∧ varintValue p 9 = v.toNat := by
  have hv := v.toNat_lt
  rw [sqlite3PutVarint_nine h, holds_append] at hp
  obtain ⟨hhigh, hlow⟩ := hp
  have hbyte : ∀ i < 8, (p i).toNat = 2 ^ 7 + v.toNat / 2 ^ 8 / 2 ^ (7 * (7 - i)) % 2 ^ 7 := by
    intro i hi
    have hget := hhigh.byte (i := i) (by simpa using hi)
    rw [Nat.zero_add, List.getElem_map, List.getElem_reverse, List.getElem_range,
      List.length_range] at hget
    rw [hget, toNat_high_byte v (by omega)]
  have hlast : (p 8).toNat = v.toNat % 2 ^ 8 := by
    have hget := hlow.byte (i := 0) (by simp)
    rw [List.getElem_singleton] at hget
    rw [← UInt64.toNat_toUInt8, ← hget]
    rfl
  constructor
  · refine ⟨by omega, le_rfl, fun i hi => ?_, fun hlt => absurd hlt (by decide)⟩
    rw [Ne, and_0x80_iff_lt, hbyte i (by omega)]
    omega
  · have hgroups := groups_eq_div (x := v.toNat / 2 ^ 8) (n := 8) (by omega) (fun i hi => by
      rw [hbyte i hi, Nat.add_mod_left, Nat.mod_mod]) 8 le_rfl
    rw [varintValue, if_neg (by decide), hlast, hgroups, Nat.sub_self, Nat.mul_zero, pow_zero]
    omega

/-- **What is written is read back**, whatever follows it. -/
theorem sqlite3GetVarint_of_holds (hp : Holds p 0 (sqlite3PutVarint v)) :
    sqlite3GetVarint p = (v, sqlite3VarintLen v) := by
  rcases Nat.lt_or_ge v.toNat (2 ^ 56) with h | h
  · obtain ⟨hends, hval⟩ := isVarint_of_holds_short h hp
    exact hends.sqlite3GetVarint hval
  · obtain ⟨hends, hval⟩ := isVarint_of_holds_nine h hp
    rw [sqlite3VarintLen_eq_nine h]
    exact hends.sqlite3GetVarint hval

/-! ### One encoding for each value -/

theorem groups_inj (h : groups p n = groups q n) :
    ∀ i < n, (p i).toNat % 2 ^ 7 = (q i).toNat % 2 ^ 7 := by
  induction n with
  | zero => simp
  | succ n ih =>
    simp only [groups] at h
    intro i hi
    rcases Nat.lt_succ_iff_lt_or_eq.mp hi with hi | rfl
    · exact ih (by omega) i hi
    · omega

theorem groups_lt (p : ℕ → UInt8) (n : ℕ) : groups p n < 2 ^ (7 * n) := by
  induction n with
  | zero => simp [groups]
  | succ n ih =>
    rw [groups, Nat.mul_succ, pow_add]
    omega

/-- A byte is known from its groups and its high bit. -/
theorem byte_eq {b c : UInt8} (hgroup : b.toNat % 2 ^ 7 = c.toNat % 2 ^ 7)
    (hhigh : b &&& 0x80 = 0 ↔ c &&& 0x80 = 0) : b = c := by
  have hb := b.toNat_lt
  have hc := c.toNat_lt
  rw [and_0x80_iff_lt, and_0x80_iff_lt] at hhigh
  rw [← UInt8.toNat_inj]
  omega

/-- Two varints of one length and one value are the same bytes. -/
theorem IsVarint.eq_of_value (hp : IsVarint p n) (hq : IsVarint q n)
    (h : varintValue p n = varintValue q n) : ∀ i < n, p i = q i := by
  have hmore : ∀ i, i + 1 < n → (p i &&& 0x80 = 0 ↔ q i &&& 0x80 = 0) := fun i hi =>
    iff_of_false (hp.more i hi) (hq.more i hi)
  intro i hi
  rcases Nat.lt_or_ge n 9 with h9 | h9
  · rw [varintValue, if_pos h9, varintValue, if_pos h9] at h
    refine byte_eq (groups_inj h i hi) ?_
    rcases Nat.lt_or_ge (i + 1) n with hlt | hge
    · exact hmore i hlt
    · obtain rfl : i = n - 1 := by omega
      exact iff_of_true (hp.last h9) (hq.last h9)
  · obtain rfl : n = 9 := le_antisymm hp.le h9
    rw [varintValue, if_neg h9.not_gt, varintValue, if_neg h9.not_gt] at h
    have hp8 := (p 8).toNat_lt
    have hq8 := (q 8).toNat_lt
    rcases Nat.lt_succ_iff_lt_or_eq.mp hi with hlt | rfl
    · exact byte_eq (groups_inj (n := 8) (by omega) i hlt) (hmore i (by omega))
    · rw [← UInt8.toNat_inj]
      omega

/-- **The canonical encoding**: the bytes that are written are the only ones of that length that are
read as the value. -/
theorem holds_sqlite3PutVarint_iff :
    Holds p 0 (sqlite3PutVarint v) ↔ sqlite3GetVarint p = (v, sqlite3VarintLen v) := by
  constructor
  · exact sqlite3GetVarint_of_holds
  · intro h
    -- the bytes that are written, in a buffer of their own
    have hown := holds_blit p 0 (sqlite3PutVarint v)
    have hread := sqlite3GetVarint_of_holds hown
    have hp := isVarint_sqlite3GetVarint p
    have hq := isVarint_sqlite3GetVarint (blit p 0 (sqlite3PutVarint v))
    have hvalue := (toNat_sqlite3GetVarint p).symm
    have hvalue' := toNat_sqlite3GetVarint (blit p 0 (sqlite3PutVarint v))
    rw [h] at hp hvalue
    rw [hread] at hq hvalue'
    have heq := hp.eq_of_value hq (hvalue.trans hvalue')
    refine hown.congr fun i _ hi => heq i ?_
    rwa [Nat.zero_add, length_sqlite3PutVarint] at hi

/-- No shorter bytes are read as the same value. -/
theorem sqlite3VarintLen_le_length (p : ℕ → UInt8) :
    sqlite3VarintLen (sqlite3GetVarint p).1 ≤ (sqlite3GetVarint p).2 := by
  have hends := isVarint_sqlite3GetVarint p
  rcases Nat.lt_or_ge (sqlite3GetVarint p).2 9 with h | h
  · rw [sqlite3VarintLen_le_iff hends.pos h, toNat_sqlite3GetVarint, varintValue, if_pos h]
    exact groups_lt p _
  · exact (sqlite3VarintLen_le_nine _).trans h

/-! ### The 32-bit paths -/

theorem IsVarint32.sqlite3GetVarint {xs : List UInt8} (h : IsVarint32 v.toNat xs)
    (hp : Holds p 0 xs) : sqlite3GetVarint p = (v, xs.length) := by
  obtain ⟨init, b, rfl, hinit, hb⟩ := h.ends
  have hle := h.length_le
  rw [List.length_append, List.length_singleton] at hle ⊢
  obtain ⟨hends, hval⟩ := isVarint_of_ends hinit hb (by omega) hp
  exact hends.sqlite3GetVarint (hval.trans h.value)

/-- **The writer for 32 bits writes the same bytes.** -/
theorem putVarint32_eq (v : UInt32) : putVarint32 v = sqlite3PutVarint v.toUInt64 := by
  obtain ⟨hends, hlen⟩ := isVarint32_putVarint32 v
  rw [← UInt32.toNat_toUInt64 v] at hends
  have hp := holds_blit (fun _ => 0) 0 (putVarint32 v)
  have hput := holds_sqlite3PutVarint_iff.mpr ((hends.sqlite3GetVarint hp).trans (by rw [hlen]))
  rw [Holds, length_sqlite3PutVarint, ← hlen, slice_blit] at hput
  exact hput

theorem and_0xffffffff_ne_iff (v : UInt64) : v &&& 0xffffffff ≠ v ↔ ¬ v.toNat < 2 ^ 32 := by
  rw [Ne, not_iff_not, ← UInt64.toNat_inj, UInt64.toNat_and]
  have hmask : (0xffffffff : UInt64).toNat = 2 ^ 32 - 1 := rfl
  rw [hmask, Nat.and_two_pow_sub_one_eq_mod]
  omega

/-- **The reader for 32 bits reads the same value** in the same bytes, and a value of more than 32
bits as the largest one. -/
theorem getVarint32_eq_sqlite3GetVarint (p : ℕ → UInt8) :
    getVarint32 p =
      (if (sqlite3GetVarint p).1.toNat < 2 ^ 32 then (sqlite3GetVarint p).1.toUInt32
        else 0xffffffff, (sqlite3GetVarint p).2) := by
  have h₀ : p 0 < 0x80 ↔ p 0 &&& 0x80 = 0 := by
    rw [and_0x80_iff_lt, UInt8.lt_iff_toNat_lt]
    rfl
  have hfits : ∀ x : UInt32, x.toUInt64.toNat < 2 ^ 32 := fun x => by
    rw [UInt32.toNat_toUInt64]
    exact x.toNat_lt
  rw [getVarint32, sqlite3GetVarint32]
  simp only [and_0x80_byte, and_0x80_shift, h₀]
  -- the first three cases are unrolled in both readers
  split
  · rename_i h
    simp only [sqlite3GetVarint, and_0x80_byte, h, if_pos, hfits,
      UInt32.toUInt32_toUInt64]
  rename_i h
  split
  · rename_i h'
    simp only [sqlite3GetVarint, and_0x80_byte, h, h', if_pos, if_neg, not_false_eq_true, hfits,
      UInt32.toUInt32_toUInt64]
  rename_i h'
  split
  · rename_i h''
    simp only [sqlite3GetVarint, and_0x80_byte, and_0x80_shift, h, h', h'', if_pos, if_neg,
      not_false_eq_true, hfits, UInt32.toUInt32_toUInt64]
  · simp only [and_0xffffffff_ne_iff, ite_not]

/-! ### What is read depends on the bytes of the varint only -/

theorem groups_congr (h : ∀ i < n, q i = p i) : groups q n = groups p n := by
  induction n with
  | zero => rfl
  | succ n ih => rw [groups, groups, ih fun i hi => h i (by omega), h n (by omega)]

theorem varintValue_congr (hn : n ≤ 9) (h : ∀ i < n, q i = p i) :
    varintValue q n = varintValue p n := by
  rw [varintValue, varintValue]
  split
  · exact groups_congr h
  · rw [groups_congr fun i hi => h i (by omega), h 8 (by omega)]

theorem IsVarint.congr (hp : IsVarint p n) (h : ∀ i < n, q i = p i) : IsVarint q n := by
  have hpos := hp.pos
  refine ⟨hpos, hp.le, fun i hi => ?_, fun hlt => ?_⟩
  · rw [h i (by omega)]
    exact hp.more i hi
  · rw [h (n - 1) (by omega)]
    exact hp.last hlt

theorem sqlite3GetVarint_congr (h : ∀ i < (sqlite3GetVarint p).2, q i = p i) :
    sqlite3GetVarint q = sqlite3GetVarint p := by
  have hp := isVarint_sqlite3GetVarint p
  have hval : varintValue q (sqlite3GetVarint p).2 = (sqlite3GetVarint p).1.toNat :=
    (varintValue_congr hp.le h).trans (toNat_sqlite3GetVarint p).symm
  exact (hp.congr h).sqlite3GetVarint hval

theorem getVarint32_congr (h : ∀ i < (getVarint32 p).2, q i = p i) :
    getVarint32 q = getVarint32 p := by
  rw [getVarint32_eq_sqlite3GetVarint] at h
  rw [getVarint32_eq_sqlite3GetVarint, getVarint32_eq_sqlite3GetVarint, sqlite3GetVarint_congr h]

/-- **The codec.** The bytes that `sqlite3PutVarint` writes for a value are the ones of its length
that are read as the value, whatever follows; no fewer bytes are; the readers and writers for 32 bits
agree with the others. -/
theorem varint_codec :
    (∀ p v, Holds p 0 (sqlite3PutVarint v) ↔ sqlite3GetVarint p = (v, sqlite3VarintLen v)) ∧
    (∀ v, (sqlite3PutVarint v).length = sqlite3VarintLen v ∧ 1 ≤ sqlite3VarintLen v ∧
      sqlite3VarintLen v ≤ 9) ∧
    (∀ p, sqlite3VarintLen (sqlite3GetVarint p).1 ≤ (sqlite3GetVarint p).2) ∧
    (∀ v, putVarint32 v = sqlite3PutVarint v.toUInt64) ∧
    ∀ p, getVarint32 p =
      (if (sqlite3GetVarint p).1.toNat < 2 ^ 32 then (sqlite3GetVarint p).1.toUInt32
        else 0xffffffff, (sqlite3GetVarint p).2) := by
  refine ⟨?_, ?_, ?_, ?_, ?_⟩
  · intro p v
    exact holds_sqlite3PutVarint_iff
  · intro v
    exact ⟨length_sqlite3PutVarint v, sqlite3VarintLen_pos v, sqlite3VarintLen_le_nine v⟩
  · exact sqlite3VarintLen_le_length
  · exact putVarint32_eq
  · exact getVarint32_eq_sqlite3GetVarint

end Util

end SqliteVms

import Mathlib.Algebra.Order.Ring.Int
import Mathlib.Data.List.Basic
import Mathlib.Tactic.Ring

/-!
# Random bytes

`vmsRandomness` of `os_vms.c` fills a buffer with the floats that `mth$random` returns. How much of
a float it copies is the smaller of two numbers of different types: a pointer difference, which it
forms the wrong way round, and a `sizeof`.

Addresses are counted from `zBuf`, and the memory says which bytes have been written.

## Main definitions

* `Types`, `Types.common` — the two types and the one they are compared in
* `vmsRandomness` — the loop, with the lengths that it gives to `memcpy`
* `Fills` — the buffer is filled, and nothing else is written

## Main results

* `vmsRandomness_iff` — when the buffer is filled
* `not_forall_fills` — a buffer of 6 bytes
-/

namespace SqliteVms

namespace OsVms

namespace Random

/-! ### The code -/

/-- The widths of a pointer difference, which is signed, and of a `sizeof`, which is not. Neither is
promoted to `int`. -/
structure Types where
  ptrdiff : ℕ
  size : ℕ
  ptrdiff_ge : 32 ≤ ptrdiff
  size_ge : 32 ≤ size

/-- A value of the type to which the usual arithmetic conversions bring both. -/
def Types.common (T : Types) (x : ℤ) : ℤ :=
  if T.size < T.ptrdiff then x.bmod (2 ^ T.ptrdiff) else x % 2 ^ T.size

/-- `min` of a pointer difference and a `sizeof`. -/
def Types.min (T : Types) (m n : ℤ) : ℤ :=
  if T.common m < T.common n then T.common m else T.common n

/-- `sizeof(rval)`. -/
def szRval : ℕ := 4

/-- A call of `memcpy`: its length, and the bytes that are left in the buffer. -/
structure Copy where
  bcnt : ℤ
  left : ℕ

/-- The bytes of a float at an address. -/
def put (zBuf : ℕ → Option UInt8) (pBuf : ℕ) (rval : Fin 4 → UInt8) (bcnt : ℕ) : ℕ → Option UInt8 :=
  fun i => if h : pBuf ≤ i ∧ i < pBuf + bcnt ∧ i - pBuf < 4 then some (rval ⟨i - pBuf, h.2.2⟩)
    else zBuf i

/-- The loop. A length that is negative or more than a float is not copied: `none`. -/
def fill (T : Types) (nBuf : ℕ) (random : ℕ → Fin 4 → UInt8) :
    ℕ → ℕ → ℕ → (ℕ → Option UInt8) → Option (List Copy × (ℕ → Option UInt8))
  | 0, _, _, _ => none
  | fuel + 1, n, pBuf, zBuf =>
    if pBuf < nBuf then
      let bcnt := (T.min ((pBuf : ℤ) - nBuf) szRval).bmod (2 ^ 32)
      if bcnt < 0 ∨ szRval < bcnt then none
      else
        (fill T nBuf random fuel (n + 1) (pBuf + bcnt.toNat)
          (put zBuf pBuf (random n) bcnt.toNat)).map fun r => (⟨bcnt, nBuf - pBuf⟩ :: r.1, r.2)
    else some ([], zBuf)

/-- `vmsRandomness`, for the floats `random`. -/
def vmsRandomness (T : Types) (nBuf : ℕ) (random : ℕ → Fin 4 → UInt8) :
    Option (List Copy × (ℕ → Option UInt8)) :=
  fill T nBuf random (nBuf + 1) 0 0 fun _ => none

/-- The loop ends, every length is between 1 and the bytes left, and exactly the bytes of the buffer
are written. -/
def Fills (T : Types) (nBuf : ℕ) (random : ℕ → Fin 4 → UInt8) : Prop :=
  ∃ r, vmsRandomness T nBuf random = some r ∧ (∀ c ∈ r.1, 1 ≤ c.bcnt ∧ c.bcnt ≤ c.left) ∧
    ∀ i, (r.2 i).isSome ↔ i < nBuf

/-! ### The length -/

variable {T : Types} {nBuf pBuf : ℕ} {random : ℕ → Fin 4 → UInt8}

/-- A number of 31 bits and a sign is the same in every signed type. -/
theorem bmod_eq {w : ℕ} (hw : 32 ≤ w) {x : ℤ} (hlow : -2 ^ 31 ≤ x) (hhigh : x < 2 ^ 31) :
    x.bmod (2 ^ w) = x := by
  obtain ⟨k, rfl⟩ := Nat.exists_eq_add_of_le hw
  have hk : 1 ≤ 2 ^ k := Nat.one_le_two_pow
  have hpow : 2 ^ (32 + k) = 2 * (2 ^ 31 * 2 ^ k) := by
    rw [pow_add]
    ring
  generalize 2 ^ k = m at hk hpow
  rw [hpow]
  exact Int.bmod_eq_of_le (by push_cast; omega) (by push_cast; omega)

/-- A wider pointer difference stays negative, and is the minimum. -/
theorem min_of_lt (hT : T.size < T.ptrdiff) (hlt : pBuf < nBuf) (hn : nBuf < 2 ^ 31) :
    (T.min ((pBuf : ℤ) - nBuf) szRval).bmod (2 ^ 32) = (pBuf : ℤ) - nBuf := by
  have hdiff : T.common ((pBuf : ℤ) - nBuf) = pBuf - nBuf := by
    rw [Types.common, if_pos hT, bmod_eq T.ptrdiff_ge (by omega) (by omega)]
  have hsize : T.common szRval = 4 := by
    rw [Types.common, if_pos hT]
    exact bmod_eq T.ptrdiff_ge (by decide) (by decide)
  rw [Types.min, hdiff, hsize, if_pos (by omega)]
  exact bmod_eq (by decide) (by omega) (by omega)

/-- Otherwise it is converted to a large number, and the minimum is the size of a float. -/
theorem min_of_le (hT : T.ptrdiff ≤ T.size) (hlt : pBuf < nBuf) (hn : nBuf < 2 ^ 31) :
    (T.min ((pBuf : ℤ) - nBuf) szRval).bmod (2 ^ 32) = 4 := by
  have hpow : (2 : ℤ) ^ 32 ≤ 2 ^ T.size := pow_le_pow_right₀ (by decide) T.size_ge
  have hdiff : T.common ((pBuf : ℤ) - nBuf) = pBuf - nBuf + 2 ^ T.size := by
    rw [Types.common, if_neg (not_lt.mpr hT), ← Int.add_emod_right]
    exact Int.emod_eq_of_lt (by omega) (by omega)
  have hsize : T.common szRval = 4 := by
    rw [Types.common, if_neg (not_lt.mpr hT)]
    exact Int.emod_eq_of_lt (by decide) (by change (4 : ℤ) < _; omega)
  rw [Types.min, hdiff, hsize, if_neg (by omega)]
  rfl

/-! ### The loop -/

/-- One turn of the loop, where a whole float is copied. -/
theorem fill_step (hT : T.ptrdiff ≤ T.size) (hlt : pBuf < nBuf) (hn : nBuf < 2 ^ 31) (fuel n : ℕ)
    (zBuf : ℕ → Option UInt8) :
    fill T nBuf random (fuel + 1) n pBuf zBuf =
      (fill T nBuf random fuel (n + 1) (pBuf + 4) (put zBuf pBuf (random n) 4)).map fun r =>
        (⟨4, nBuf - pBuf⟩ :: r.1, r.2) := by
  rw [fill, if_pos hlt]
  dsimp only
  rw [min_of_le hT hlt hn, if_neg (by decide)]
  rfl

theorem put_isSome {zBuf : ℕ → Option UInt8} {rval : Fin 4 → UInt8} {i : ℕ} :
    (put zBuf pBuf rval 4 i).isSome ↔ (pBuf ≤ i ∧ i < pBuf + 4) ∨ (zBuf i).isSome := by
  rw [put]
  split
  · rename_i h
    exact iff_of_true rfl (Or.inl ⟨h.1, h.2.1⟩)
  · rename_i h
    refine (or_iff_right fun h' => h ?_).symm
    omega

/-- The rest of the loop, from the address `pBuf` on. -/
theorem fill_spec (random : ℕ → Fin 4 → UInt8) (hT : T.ptrdiff ≤ T.size) (hn : nBuf < 2 ^ 31)
    {fuel : ℕ} (n : ℕ) (hfuel : nBuf - pBuf < fuel) (zBuf : ℕ → Option UInt8) :
    ∃ r, fill T nBuf random fuel n pBuf zBuf = some r ∧
      ((∀ c ∈ r.1, 1 ≤ c.bcnt ∧ c.bcnt ≤ c.left) ↔ nBuf ≤ pBuf ∨ 4 ∣ nBuf - pBuf) ∧
      (4 ∣ nBuf - pBuf → pBuf ≤ nBuf →
        ∀ i, (r.2 i).isSome ↔ (pBuf ≤ i ∧ i < nBuf) ∨ (zBuf i).isSome) := by
  induction fuel generalizing n pBuf zBuf with
  | zero => omega
  | succ fuel ih =>
    by_cases hlt : pBuf < nBuf
    · have hfuel' : nBuf - (pBuf + 4) < fuel := by omega
      obtain ⟨r, hr, hlengths, hwritten⟩ :=
        ih (n + 1) hfuel' (put zBuf pBuf (random n) 4)
      rw [fill_step hT hlt hn, hr]
      refine ⟨_, rfl, ?_, fun hdvd hle i => ?_⟩
      · rw [List.forall_mem_cons, hlengths]
        dsimp only
        omega
      · rw [hwritten (by omega) (by omega) i, put_isSome, ← or_assoc]
        refine or_congr_left ?_
        omega
    · refine ⟨([], zBuf), ?_, ?_, fun _ hle i => ?_⟩
      · rw [fill, if_neg hlt]
      · exact iff_of_true (fun c hc => absurd hc List.not_mem_nil) (Or.inl (not_lt.mp hlt))
      · exact (or_iff_right fun h => by omega).symm

/-- **When the buffer is filled.** -/
theorem vmsRandomness_iff (T : Types) {nBuf : ℕ} (hn : nBuf < 2 ^ 31)
    (random : ℕ → Fin 4 → UInt8) :
    Fills T nBuf random ↔ nBuf = 0 ∨ (4 ∣ nBuf ∧ T.ptrdiff ≤ T.size) := by
  rcases Nat.eq_zero_or_pos nBuf with rfl | hpos
  · refine iff_of_true ⟨([], fun _ => none), rfl, fun c hc => absurd hc List.not_mem_nil, ?_⟩
      (Or.inl rfl)
    exact fun i => iff_of_false Bool.false_ne_true (Nat.not_lt_zero i)
  rw [or_iff_right (by omega), Fills, vmsRandomness]
  by_cases hT : T.ptrdiff ≤ T.size
  · have hfuel : nBuf - 0 < nBuf + 1 := Nat.lt_succ_self nBuf
    obtain ⟨r, hr, hlengths, hwritten⟩ :=
      fill_spec random hT hn 0 hfuel fun _ => none
    rw [Nat.sub_zero] at hlengths hwritten
    constructor
    · rintro ⟨r', hr', hcopies, -⟩
      obtain rfl := Option.some.inj (hr.symm.trans hr')
      exact ⟨(hlengths.mp hcopies).resolve_left (by omega), hT⟩
    · rintro ⟨hdvd, -⟩
      refine ⟨r, hr, hlengths.mpr (Or.inr hdvd), fun i => ?_⟩
      refine (hwritten hdvd (Nat.zero_le _) i).trans ?_
      exact (or_iff_left Bool.false_ne_true).trans (and_iff_right (Nat.zero_le i))
  · have hlt := not_le.mp hT
    refine iff_of_false ?_ fun h => hT h.2
    rintro ⟨r, hr, -⟩
    rw [fill, if_pos hpos] at hr
    dsimp only at hr
    rw [min_of_lt hlt hpos hn, if_pos (by omega)] at hr
    cases hr

/-- A buffer of 8 bytes, with both types of 32 bits. -/
theorem vmsRandomness_iff_eight : Fills ⟨32, 32, by decide, by decide⟩ 8 (fun _ _ => 0) ↔
    8 = 0 ∨ (4 ∣ 8 ∧ 32 ≤ 32) :=
  vmsRandomness_iff ⟨32, 32, by decide, by decide⟩ (by decide) _

/-- Two bytes behind a buffer of 6 bytes are written. -/
theorem not_forall_fills : ¬∀ (T : Types) (nBuf : ℕ) (random : ℕ → Fin 4 → UInt8), nBuf < 2 ^ 31 →
    Fills T nBuf random := by
  intro h
  obtain ⟨r, hr, -, hwritten⟩ := h ⟨32, 32, by decide, by decide⟩ 6 (fun _ _ => 0) (by decide)
  have hsix : (vmsRandomness ⟨32, 32, by decide, by decide⟩ 6 (fun _ _ => 0)).map
      (fun r => r.2 6) = some (some 0) := by decide
  rw [hr] at hsix
  have hbyte : r.2 6 = some 0 := Option.some.inj hsix
  have hsome := (hwritten 6).mp (by rw [hbyte]; rfl)
  omega

end Random

end OsVms

end SqliteVms

import SqliteVms.OsVms.Write

/-!
# Size arithmetic of the OpenVMS layer

Three places turn bytes into blocks or back: `vmsFileSize`, `vmsTruncate` and the size hint. Each mixes
an `int` with a 64-bit offset.

`fib$l_exvbn` names the first block that a truncation removes, as it names the first block that an
extension adds.

## Main definitions

* `vmsFileControl` — the requests that set the chunk size and the size hint
* `TruncatesExactly`, `HintCovers` — what a truncation and a hint should do

## Main results

* `vmsFileSize_exact_iff`, `truncatesExactly_iff`, `hintCovers_iff` — when they do
* `size_arithmetic` — the three together
-/

namespace SqliteVms

namespace OsVms

open BigEndian

/-! ### The file size -/

/-- The byte size is exact below 2^22 blocks. -/
theorem vmsFileSize_exact_iff (d : Disk) :
    vmsFileSize .normal d = some (sectorSize * d.hiblk : ℤ) ↔ d.hiblk < 2 ^ 22 := by
  rw [vmsFileSize, if_pos Status.success_normal, Option.some_inj, sectorSize]
  constructor
  · intro h
    have hle := Int.bmod_le (x := 512 * d.hiblk) (m := 2 ^ 32) (by decide)
    rw [toInt32] at h
    push_cast at h hle
    omega
  · intro h
    have := toInt32_of_lt (n := 512 * d.hiblk) (by omega)
    push_cast at this ⊢
    exact this

/-! ### Truncation -/

/-- A truncation to `nByte` bytes removes a block exactly if all its bytes are past the end. -/
def TruncatesExactly (nByte : ℕ) : Prop :=
  ∀ k, 1 ≤ k → (exvbn nByte ≤ k ↔ nByte ≤ sectorSize * (k - 1))

theorem exvbn_le (nByte : ℕ) :
    exvbn nByte ≤ nByte / 512 + if nByte % 512 ≠ 0 then 1 else 0 := Nat.mod_le _ _

/-- The block named is the last one that has to stay. -/
theorem truncatesExactly_iff (nByte : ℕ) : TruncatesExactly nByte ↔ nByte = 0 := by
  rw [TruncatesExactly, sectorSize]
  constructor
  · intro hall
    by_contra hne
    have hle := exvbn_le nByte
    have htwo : 2 ≤ exvbn nByte := by
      by_contra hlt
      have := (hall 1 le_rfl).mp (by omega)
      omega
    -- the block that is named is not past the last byte
    have hlast := (hall (exvbn nByte) (by omega)).mp le_rfl
    split at hle <;> omega
  · rintro rfl k -
    have := exvbn_le 0
    simp only [Nat.zero_div, Nat.zero_mod, ne_eq, not_true_eq_false, if_false] at this
    omega

/-! ### The size hint -/

/-- The requests of `vmsFileControl`, with the integer that `pArg` points at. -/
inductive Fcntl
  | chunkSize (arg : ℤ)
  | sizeHint (arg : ℤ)
  | vfsName
  | other
  deriving DecidableEq, Repr

/-- `vmsFileControl`: both arguments are read through an `int *`. `none` is `SQLITE_NOTFOUND`. -/
def vmsFileControl (f : VmsFile) : Fcntl → Option VmsFile
  | .chunkSize arg => some { f with szChunk := toInt32 arg }
  | .sizeHint arg => some { f with szHint := (toInt32 arg).tdiv sectorSize + 1 }
  | .vfsName => some f
  | .other => none

/-- The hint recorded for `n` bytes covers them. -/
def HintCovers (f : VmsFile) (n : ℕ) : Prop :=
  ∃ f', vmsFileControl f (.sizeHint n) = some f' ∧ (n : ℤ) ≤ sectorSize * f'.szHint

/-- Beyond the range of an `int` the conversion loses 2^32 at least. -/
theorem toInt32_le_sub {n : ℕ} (h : 2 ^ 31 ≤ n) : toInt32 n ≤ n - 2 ^ 32 := by
  have hle := Int.bmod_le (x := n) (m := 2 ^ 32) (by decide)
  have hsub := Int.bmod_eq_self_sub_mul_bdiv (n : ℤ) (2 ^ 32)
  rw [toInt32]
  omega

theorem hintCovers_iff (f : VmsFile) (n : ℕ) : HintCovers f n ↔ n < 2 ^ 31 := by
  simp only [HintCovers, vmsFileControl, Option.some.injEq, exists_eq_left', sectorSize]
  constructor
  · intro h
    by_contra hge
    have hint := toInt32_le_sub (n := n) (by omega)
    have hdiv := Int.mul_tdiv_add_tmod (toInt32 n) (512 : ℕ)
    have hmod := Int.lt_tmod_of_pos (toInt32 n) (b := (512 : ℕ)) (by decide)
    omega
  · intro h
    rw [toInt32_of_lt h, Int.tdiv_eq_ediv_of_nonneg (by omega)]
    omega

/-- **The size arithmetic** is exact for files below 2^22 blocks, for truncation to nothing and for
hints below 2^31 bytes. -/
theorem size_arithmetic (d : Disk) (nByte : ℕ) (f : VmsFile) (n : ℕ) :
    (vmsFileSize .normal d = some (sectorSize * d.hiblk : ℤ) ↔ d.hiblk < 2 ^ 22) ∧
    (TruncatesExactly nByte ↔ nByte = 0) ∧ (HintCovers f n ↔ n < 2 ^ 31) := by
  refine ⟨?_, ?_, ?_⟩
  · exact vmsFileSize_exact_iff d
  · exact truncatesExactly_iff nByte
  · exact hintCovers_iff f n

/-- A file of two gibibytes. -/
def twoGib : Disk := ⟨2 ^ 22, 2 ^ 22 + 1, 0, fun _ => 0, by decide⟩

/-- The size of two gibibytes is stored as a negative number, a truncation to one block removes the
block, and a hint for two gibibytes is taken for a negative one. -/
theorem size_arithmetic_fails :
    vmsFileSize .normal twoGib ≠ some (sectorSize * twoGib.hiblk : ℤ) ∧ ¬ TruncatesExactly 512 ∧
      ¬ HintCovers ⟨0, 0⟩ (2 ^ 31) := by
  refine ⟨?_, ?_, ?_⟩
  · rw [Ne, vmsFileSize_exact_iff]
    decide
  · rw [truncatesExactly_iff]
    decide
  · rw [hintCovers_iff]
    decide

end OsVms

end SqliteVms

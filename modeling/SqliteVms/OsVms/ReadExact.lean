import SqliteVms.OsVms.Read

/-!
# Block numbers that do not fit an `int`

`vmsRead` keeps the first block of a read in an `int`, so that an offset from 2^40 on names the block
2^32 before. When that is a block of the file its bytes are delivered in place of the zeros that belong
past the end.

## Main definitions

* `ReadsZeros` — the block that the truncated number names is short and blank

## Main results

* `vmsRead_exact_iff` — when a read is byte-exact
-/

namespace SqliteVms

namespace OsVms

open Store BigEndian

variable {d : Disk} {vBuf : List UInt8} {offset : ℕ}

theorem toInt32_lt (x : ℤ) : toInt32 x < 2 ^ 31 := by
  rw [toInt32]
  have := Int.bmod_le (x := x) (m := 2 ^ 32) (by decide)
  omega

section Stages

variable {s : ReadState}

theorem readvblk_of_not_hasBlock {vbn : ℤ} (hb : ¬ d.HasBlock vbn) (n : ℕ) :
    d.readvblk vbn n = (.endOfFile, []) := if_neg hb

theorem readHead_of_not_hasBlock (hb : ¬ d.HasBlock s.vbn) (vpos : ℕ) :
    readHead d vpos s = { s with vbn := s.vbn + 1, status := .endOfFile } := by
  rw [readHead, readvblk_of_not_hasBlock hb]
  rfl

theorem readMiddle_of_not_hasBlock (hb : ¬ d.HasBlock s.vbn) :
    readMiddle d s = { s with status := .endOfFile } := by
  rw [readMiddle, readvblk_of_not_hasBlock hb]
  rfl

theorem readTail_of_not_hasBlock (hb : ¬ d.HasBlock s.vbn) :
    readTail d s = { s with status := .endOfFile } := by
  rw [readTail, readvblk_of_not_hasBlock hb]
  rfl

/-- No stage runs after the end of the file. -/
theorem readFinish_of_endOfFile (h : s.status = .endOfFile) :
    readFinish d s
      = (.ioerrShortRead, memcpy s.vBuf s.pBuf (List.replicate s.amt 0)) := by
  rw [readFinish, if_neg (by rw [h]; simp [Status.success]), readResult, if_pos h]

end Stages

/-- A read whose first block is not in the file. -/
theorem vmsRead_of_not_hasBlock (hlen : 0 < vBuf.length)
    (hb : ¬ d.HasBlock (toInt32 (offset / sectorSize + 1))) :
    vmsRead d vBuf vBuf.length offset = (.ioerrShortRead, List.replicate vBuf.length 0) := by
  have hzero : memcpy vBuf 0 (List.replicate vBuf.length 0) = List.replicate vBuf.length 0 := by
    simp [memcpy]
  rw [vmsRead_stages]
  generalize toInt32 (offset / sectorSize + 1) = vbn at hb
  dsimp only
  by_cases hpos : offset % sectorSize ≠ 0
  · rw [if_pos hpos, readHead_of_not_hasBlock hb, if_neg (by simp [Status.success]),
      readFinish_of_endOfFile rfl, hzero]
  rw [if_neg hpos]
  by_cases hmid : sectorSize ≤ vBuf.length
  · rw [if_pos ⟨hmid, rfl⟩, readMiddle_of_not_hasBlock hb, readFinish_of_endOfFile rfl, hzero]
  · rw [if_neg (fun h => hmid h.1), readFinish, if_pos ⟨hlen, rfl⟩, readTail_of_not_hasBlock hb,
      readResult, if_pos rfl, hzero]

/-- The offset that the truncated block number stands for. -/
def truncatedOffset (offset : ℕ) : ℕ :=
  blockStart (toInt32 (offset / sectorSize + 1)) + offset % sectorSize

/-- A read whose first block is in the file reads where the truncated number says. -/
theorem vmsRead_of_hasBlock (hlen : 0 < vBuf.length)
    (hb : d.HasBlock (toInt32 (offset / sectorSize + 1))) :
    vmsRead d vBuf vBuf.length offset = readSpec d vBuf.length (truncatedOffset offset) := by
  have hlt := toInt32_lt (offset / sectorSize + 1)
  have hmod : truncatedOffset offset % sectorSize = offset % sectorSize := by
    rw [truncatedOffset, blockStart, Nat.mul_add_mod, Nat.mod_mod]
  have hdiv : ((truncatedOffset offset / sectorSize : ℕ) : ℤ) + 1
      = toInt32 (offset / sectorSize + 1) := by
    have hone := hb.1
    rw [truncatedOffset, blockStart, Nat.mul_add_div sectorSize_pos,
      Nat.div_eq_of_lt (Nat.mod_lt _ sectorSize_pos)]
    omega
  have hint : toInt32 (truncatedOffset offset / sectorSize + 1)
      = toInt32 (offset / sectorSize + 1) := by
    rw [← Int.natCast_div, hdiv]
    have := toInt32_of_lt (n := (toInt32 (offset / sectorSize + 1)).toNat) (by omega)
    rwa [Int.toNat_of_nonneg (by have := hb.1; omega)] at this
  rw [← vmsRead_eq hlen (by omega), vmsRead_stages, vmsRead_stages, hmod, hint]

/-- There is nothing but zeros from an offset to the end of the file, and not all that is asked. -/
def ReadsZeros (d : Disk) (amt offset : ℕ) : Prop :=
  d.size < offset + amt ∧ ∀ i, offset ≤ i → i < d.size → d.data i = 0

theorem readSpec_eq_zeros_iff {amt : ℕ} :
    readSpec d amt offset = (.ioerrShortRead, List.replicate amt 0) ↔ ReadsZeros d amt offset := by
  rw [readSpec, ReadsZeros]
  by_cases hin : offset + amt ≤ d.size
  · rw [if_pos hin]
    exact iff_of_false (fun h => by cases congrArg Prod.fst h) (fun h => by omega)
  rw [if_neg hin]
  have hsplit : List.replicate amt (0 : UInt8) = List.replicate (d.size - offset) 0
      ++ List.replicate (amt - (d.size - offset)) 0 := by
    rw [List.replicate_append_replicate]
    congr 1
    omega
  constructor
  · intro h
    refine ⟨by omega, fun i hlo hhi => ?_⟩
    have hbuf := congrArg Prod.snd h
    rw [hsplit] at hbuf
    have hslice := List.append_cancel_right hbuf
    have hget := congrArg (fun xs : List UInt8 => xs[i - offset]?) hslice
    rw [getElem?_slice (by omega), Nat.add_sub_cancel' hlo,
      List.getElem?_replicate_of_lt (by omega)] at hget
    exact Option.some.inj hget
  · rintro ⟨-, h⟩
    rw [hsplit]
    congr 2
    refine List.eq_replicate_iff.mpr ⟨length_slice _ _ _, fun b hb => ?_⟩
    obtain ⟨i, hi, rfl⟩ := List.getElem_of_mem hb
    rw [length_slice] at hi
    rw [getElem_slice]
    exact h _ (by omega) (by omega)

/-- **`vmsRead` is byte-exact** when the block number of the offset fits an `int`, when the number it
is truncated to is not a block of the file, and when it is one with nothing to deliver but zeros. -/
theorem vmsRead_exact_iff (hlen : 0 < vBuf.length) :
    vmsRead d vBuf vBuf.length offset = readSpec d vBuf.length offset ↔
      offset / sectorSize + 1 < 2 ^ 31 ∨ ¬ d.HasBlock (toInt32 (offset / sectorSize + 1)) ∨
        ReadsZeros d vBuf.length (truncatedOffset offset) := by
  by_cases hoff : offset / sectorSize + 1 < 2 ^ 31
  · exact iff_of_true (vmsRead_eq hlen hoff) (Or.inl hoff)
  -- the offset itself is past the end of every file
  have hpast : d.size ≤ offset := by
    have hblocks := d.hiblk_lt
    have hmul := Nat.mul_div_le offset sectorSize
    have hle : sectorSize * d.hiblk ≤ sectorSize * (offset / sectorSize) :=
      Nat.mul_le_mul_left _ (by omega)
    rw [Disk.size]
    omega
  have hspec : readSpec d vBuf.length offset
      = (.ioerrShortRead, List.replicate vBuf.length 0) :=
    readSpec_eq_zeros_iff.mpr ⟨by omega, fun i hlo hhi => by omega⟩
  rw [hspec]
  by_cases hb : d.HasBlock (toInt32 (offset / sectorSize + 1))
  · rw [vmsRead_of_hasBlock hlen hb, readSpec_eq_zeros_iff]
    simp only [hoff, hb, not_true_eq_false, false_or]
  · exact iff_of_true (vmsRead_of_not_hasBlock hlen hb) (Or.inr (Or.inl hb))

/-- A file of one block that begins with `U`. -/
def oneBlock : Disk := ⟨1, 2, 0, fun i => if i = 0 then 0x55 else 0, by decide⟩

theorem vmsRead_exact_at_block_end :
    vmsRead oneBlock [0, 0] 2 510 = readSpec oneBlock 2 510 :=
  (vmsRead_exact_iff (by decide)).mpr (Or.inl (by decide))

/-- A read two tebibytes past the end returns the first byte of the file and `SQLITE_OK`. -/
theorem vmsRead_far_past_end :
    ¬ ∀ (d : Disk) (vBuf : List UInt8) (offset : ℕ), 0 < vBuf.length →
      vmsRead d vBuf vBuf.length offset = readSpec d vBuf.length offset := by
  intro h
  have h := h oneBlock [0] (2 ^ 41) (by decide)
  have hint : toInt32 (((2 ^ 41 : ℕ) : ℤ) / (sectorSize : ℕ) + 1) = 1 := by
    rw [toInt32, sectorSize]
    decide
  rw [vmsRead_of_hasBlock (by decide) (by rw [hint]; decide)] at h
  rw [truncatedOffset, hint] at h
  exact absurd h (by decide)

end OsVms

end SqliteVms

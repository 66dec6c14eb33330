import SqliteVms.OsVms.File

/-!
# What `vmsWrite` does to the bytes of a file

The three stages of `vmsWrite` are analysed one at a time, each as a single `Disk.put` on the
bytes, and then put together. Two slips in the source show up in the result.

* After the head stage `pBuf` stays where it was (`if( bcnt <= 0 )` guards the step), so the
  stages after it start again from the first byte of the buffer.
* After the middle stage `pBuf` and `vbn` move only `if( bcnt > 0 )`, and an aligned write
  reaches that test with `bcnt` never assigned. A non-positive garbage value makes the tail stage
  rewrite the beginning of the first block and leaves the real tail unwritten.

`vmsWrite_meets_iff` is the exact extent of the damage.

## Main results

* `writeRest_of_success` — the stages after the head
* `vmsWrite_aligned`, `vmsWrite_one_block`, `vmsWrite_boundary` — the three kinds of write
* `vmsWrite_meets_iff` — when the bytes are written where they belong
-/

namespace SqliteVms

namespace OsVms

open Store BigEndian

/-! ### The device -/

/-- A disk with a list of bytes laid over its content. -/
def Disk.put (d : Disk) (off : ℕ) (xs : List UInt8) : Disk := { d with data := blit d.data off xs }

@[simp] theorem Disk.put_data (d : Disk) (off : ℕ) (xs : List UInt8) :
    (d.put off xs).data = blit d.data off xs := rfl

@[simp] theorem Disk.put_hiblk (d : Disk) (off : ℕ) (xs : List UInt8) :
    (d.put off xs).hiblk = d.hiblk := rfl

@[simp] theorem Disk.put_size (d : Disk) (off : ℕ) (xs : List UInt8) :
    (d.put off xs).size = d.size := rfl

@[simp] theorem Disk.put_put_append (d : Disk) (off : ℕ) (xs ys : List UInt8) :
    (d.put off xs).put (off + xs.length) ys = d.put off (xs ++ ys) := by
  simp only [Disk.put, blit_blit_append]

theorem Disk.put_take_idem (d : Disk) (off n : ℕ) (xs : List UInt8) :
    (d.put off xs).put off (xs.take n) = d.put off xs := by
  simp only [Disk.put, blit_take_idem]

@[simp] theorem Status.success_normal : Status.normal.success = true := rfl

theorem blockStart_add_one {vbn : ℤ} (h : 1 ≤ vbn) :
    blockStart (vbn + 1) = blockStart vbn + sectorSize := by
  rw [blockStart, blockStart, show (vbn + 1 - 1).toNat = (vbn - 1).toNat + 1 by omega,
    Nat.mul_succ]

theorem blockStart_add {vbn : ℤ} (h : 1 ≤ vbn) (n : ℕ) :
    blockStart (vbn + n) = blockStart vbn + sectorSize * n := by
  induction n with
  | zero => simp
  | succ n ih =>
    rw [Nat.cast_succ, ← Int.add_assoc, blockStart_add_one (by omega), ih, Nat.mul_succ,
      Nat.add_assoc]

/-- A read that succeeds starts at an allocated block, which then lies wholly in the file. -/
theorem Disk.blockStart_le_of_hasBlock {d : Disk} {vbn : ℤ} (h : d.HasBlock vbn) :
    blockStart vbn + sectorSize ≤ d.size := by
  obtain ⟨hlo, hhi⟩ := h
  have : (vbn - 1).toNat + 1 ≤ d.hiblk := by omega
  calc blockStart vbn + sectorSize = sectorSize * ((vbn - 1).toNat + 1) := by
        rw [blockStart, Nat.mul_succ]
    _ ≤ d.size := Nat.mul_le_mul_left _ this

theorem Disk.readvblk_of_hasBlock {d : Disk} {vbn : ℤ} (h : d.HasBlock vbn) :
    d.readvblk vbn sectorSize = (.normal, slice d.data (blockStart vbn) sectorSize) := by
  have := Disk.blockStart_le_of_hasBlock h
  rw [Disk.readvblk, if_pos h, Nat.min_eq_left (by omega)]

theorem Disk.hasBlock_of_readvblk {d : Disk} {vbn : ℤ} {n : ℕ}
    (h : (d.readvblk vbn n).1.success) : d.HasBlock vbn := by
  by_contra hn
  simp [Disk.readvblk, hn, Status.success] at h

theorem Disk.writevblk_of_success {d : Disk} {vbn : ℤ} {bytes : List UInt8}
    (h : (d.writevblk vbn bytes).1.success) :
    1 ≤ vbn ∧ blockStart vbn + bytes.length ≤ d.size ∧
      d.writevblk vbn bytes = (.normal, d.put (blockStart vbn) bytes) := by
  by_cases hin : 1 ≤ vbn ∧ blockStart vbn + bytes.length ≤ d.size
  · exact ⟨hin.1, hin.2, by rw [Disk.writevblk, if_pos hin]; rfl⟩
  · simp [Disk.writevblk, hin, Status.success] at h

/-- Reading a block, applying `xs` at `pos` and writing it back puts `xs` there. -/
theorem Disk.put_memcpy {d : Disk} {vbn : ℤ} {pos : ℕ} {xs : List UInt8}
    (h : pos + xs.length ≤ sectorSize) :
    d.put (blockStart vbn) (memcpy (slice d.data (blockStart vbn) sectorSize) pos xs)
      = d.put (blockStart vbn + pos) xs := by
  simp only [Disk.put, memcpy, blit_merge h]

/-! ### The stages of a write -/

/-- The head stage, when it succeeds: one put of the bytes that fit the first block, and a buffer
pointer that has moved only if there was nothing to write. -/
theorem writeHead_of_success {vpos : ℕ} {s : WriteState} (hv : vpos < sectorSize)
    (hbuf : s.amt ≤ s.pBuf.length) (h : (writeHead vpos s).status.success) :
    1 ≤ s.vbn ∧ blockStart s.vbn + sectorSize ≤ s.disk.size ∧
      writeHead vpos s =
        { disk := s.disk.put (blockStart s.vbn + vpos) (s.pBuf.take (min s.amt (sectorSize - vpos))),
          pBuf := s.pBuf, amt := s.amt - (sectorSize - vpos), vbn := s.vbn + 1,
          bcnt := (min s.amt (sectorSize - vpos) : ℕ), status := .normal } := by
  by_cases hr : (s.disk.readvblk s.vbn sectorSize).1.success
  · have hb := Disk.hasBlock_of_readvblk hr
    have hlen : (s.pBuf.take (min s.amt (sectorSize - vpos))).length
        = min s.amt (sectorSize - vpos) := by
      rw [List.length_take]; omega
    rw [writeHead, if_pos hr, Disk.readvblk_of_hasBlock hb] at h ⊢
    by_cases hw : (s.disk.writevblk s.vbn (memcpy
        (slice s.disk.data (blockStart s.vbn) sectorSize) vpos
          (s.pBuf.take (min s.amt (sectorSize - vpos))))).1.success
    · obtain ⟨-, -, hw'⟩ := Disk.writevblk_of_success hw
      refine ⟨hb.1, Disk.blockStart_le_of_hasBlock hb, ?_⟩
      have hp : (if ((min s.amt (sectorSize - vpos) : ℕ) : ℤ) ≤ 0
          then s.pBuf.drop (min s.amt (sectorSize - vpos)) else s.pBuf) = s.pBuf := by
        by_cases h0 : ((min s.amt (sectorSize - vpos) : ℕ) : ℤ) ≤ 0
        · rw [if_pos h0, show min s.amt (sectorSize - vpos) = 0 by omega, List.drop_zero]
        · rw [if_neg h0]
      rw [if_pos hw, hw', hp, Disk.put_memcpy (by rw [hlen]; omega),
        show s.amt - min s.amt (sectorSize - vpos) = s.amt - (sectorSize - vpos) by omega]
    · simp only [hw, if_false, Bool.false_eq_true] at h
  · rw [writeHead, if_neg hr] at h
    exact absurd h hr

/-- The tail stage, when it succeeds: one put of the bytes left. -/
theorem writeTail_of_success {s : WriteState} (hamt : s.amt ≤ sectorSize)
    (hbuf : s.amt ≤ s.pBuf.length) (h : (writeTail s).status.success) :
    1 ≤ s.vbn ∧ blockStart s.vbn + sectorSize ≤ s.disk.size ∧
      writeTail s = { s with disk := s.disk.put (blockStart s.vbn) (s.pBuf.take s.amt),
                             status := .normal } := by
  by_cases hr : (s.disk.readvblk s.vbn sectorSize).1.success
  · have hb := Disk.hasBlock_of_readvblk hr
    have hlen : (s.pBuf.take s.amt).length = s.amt := by
      rw [List.length_take]; omega
    rw [writeTail, if_pos hr, Disk.readvblk_of_hasBlock hb] at h ⊢
    obtain ⟨-, -, hw'⟩ := Disk.writevblk_of_success h
    refine ⟨hb.1, Disk.blockStart_le_of_hasBlock hb, ?_⟩
    rw [hw', Disk.put_memcpy (by rw [hlen]; omega), Nat.add_zero]
  · rw [writeTail, if_neg hr] at h
    exact absurd h hr

/-- The middle stage, when it succeeds: one put of the whole blocks. Whether the pointers move
past them depends on `bcnt`. -/
theorem writeMiddle_of_success {s : WriteState} (hbuf : s.amt ≤ s.pBuf.length)
    (h : (writeMiddle s).status.success) :
    1 ≤ s.vbn ∧ blockStart s.vbn + (s.amt - s.amt % sectorSize) ≤ s.disk.size ∧
      writeMiddle s =
        { disk := s.disk.put (blockStart s.vbn) (s.pBuf.take (s.amt - s.amt % sectorSize)),
          pBuf := if 0 < s.bcnt then s.pBuf.drop (s.amt - s.amt % sectorSize) else s.pBuf,
          amt := s.amt % sectorSize,
          vbn := if 0 < s.bcnt then s.vbn + s.amt / sectorSize else s.vbn,
          bcnt := s.bcnt, status := .normal } := by
  have hlen : (s.pBuf.take (s.amt - s.amt % sectorSize)).length = s.amt - s.amt % sectorSize := by
    rw [List.length_take]; omega
  by_cases hw : (s.disk.writevblk s.vbn (s.pBuf.take (s.amt - s.amt % sectorSize))).1.success
  · obtain ⟨h1, h2, hw'⟩ := Disk.writevblk_of_success hw
    refine ⟨h1, by rwa [hlen] at h2, ?_⟩
    rw [writeMiddle, if_pos hw, hw']
    by_cases hb : 0 < s.bcnt
    · simp only [if_pos hb]
    · simp only [if_neg hb]
  · rw [writeMiddle, if_neg hw] at h
    exact absurd h hw

/-- The guarded tail stage. -/
def tailStage (s : WriteState) : WriteState :=
  if 0 < s.amt ∧ s.status.success then writeTail s else s

theorem tailStage_of_not_success {s : WriteState} (h : ¬ s.status.success) : tailStage s = s :=
  if_neg fun hc => h hc.2

/-- The middle and tail stages together. -/
def writeRest (s : WriteState) : WriteState :=
  tailStage (if sectorSize ≤ s.amt ∧ s.status.success then writeMiddle s else s)

theorem writeStages_eq (vpos : ℕ) (s : WriteState) :
    writeStages vpos s
      = writeRest (if vpos ≠ 0 ∧ s.status.success then writeHead vpos s else s) := rfl

/-- The bytes of the buffer that the middle and tail stages put in their place. A tail behind a
middle is lost when `bcnt` is not positive. -/
def writtenCount (bcnt : ℤ) (amt : ℕ) : ℕ :=
  if 0 < bcnt ∨ amt < sectorSize ∨ amt % sectorSize = 0 then amt else amt - amt % sectorSize

theorem sectorSize_pos : 0 < sectorSize := by decide

theorem sectorSize_mul_div (n : ℕ) : sectorSize * (n / sectorSize) = n - n % sectorSize := by
  have := Nat.div_add_mod n sectorSize
  omega

/-- The middle stage run when the buffer holds a whole block, and the tail after it. -/
theorem writeRest_of_middle {s : WriteState} (hbuf : s.amt ≤ s.pBuf.length)
    (hmid : sectorSize ≤ s.amt) (hs : s.status.success) (h : (writeRest s).status.success) :
    1 ≤ s.vbn ∧ (0 < s.bcnt → blockStart s.vbn + s.amt ≤ s.disk.size) ∧
      (writeRest s).disk
        = s.disk.put (blockStart s.vbn) (s.pBuf.take (writtenCount s.bcnt s.amt)) := by
  have hr : s.amt % sectorSize < sectorSize := Nat.mod_lt _ sectorSize_pos
  rw [writeRest, if_pos ⟨hmid, hs⟩] at h ⊢
  have hm : (writeMiddle s).status.success := by
    by_contra hn
    rw [tailStage_of_not_success hn] at h
    exact hn h
  obtain ⟨hvbn, hsize, heq⟩ := writeMiddle_of_success hbuf hm
  have htake : (s.pBuf.take (s.amt - s.amt % sectorSize)).length
      = s.amt - s.amt % sectorSize := by
    rw [List.length_take]; omega
  by_cases hzero : s.amt % sectorSize = 0
  · rw [tailStage, if_neg (by rw [heq]; simp [hzero]), heq]
    refine ⟨hvbn, fun _ => by omega, ?_⟩
    rw [writtenCount, if_pos (Or.inr (Or.inr hzero)), hzero, Nat.sub_zero]
  have htail : 0 < (writeMiddle s).amt ∧ (writeMiddle s).status.success := by
    refine ⟨?_, hm⟩
    rw [heq]
    exact Nat.pos_of_ne_zero hzero
  rw [tailStage, if_pos htail] at h ⊢
  by_cases hb : 0 < s.bcnt
  · obtain ⟨-, hsize', heq'⟩ := writeTail_of_success (s := writeMiddle s)
      (by rw [heq]; exact hr.le)
      (by rw [heq]; simp only [if_pos hb, List.length_drop]; omega) h
    rw [heq'] at h ⊢
    rw [heq] at hsize' ⊢
    simp only [if_pos hb] at hsize' ⊢
    have hstart : blockStart (s.vbn + s.amt / sectorSize)
        = blockStart s.vbn + (s.amt - s.amt % sectorSize) := by
      rw [← sectorSize_mul_div, ← blockStart_add hvbn, Int.natCast_ediv]
    rw [hstart] at hsize' ⊢
    refine ⟨hvbn, fun _ => ?_, ?_⟩
    · rw [Disk.put_size] at hsize'
      omega
    · rw [writtenCount, if_pos (Or.inl hb)]
      have happ := Disk.put_put_append s.disk (blockStart s.vbn)
        (s.pBuf.take (s.amt - s.amt % sectorSize))
        ((s.pBuf.drop (s.amt - s.amt % sectorSize)).take (s.amt % sectorSize))
      rw [htake] at happ
      rw [happ, ← List.take_add, Nat.sub_add_cancel (by omega)]
  · obtain ⟨-, -, heq'⟩ := writeTail_of_success (s := writeMiddle s)
      (by rw [heq]; exact hr.le) (by rw [heq]; simp only [if_neg hb]; omega) h
    have hblock : sectorSize ≤ s.amt - s.amt % sectorSize := by
      rw [← sectorSize_mul_div]
      exact Nat.le_mul_of_pos_right _ (Nat.div_pos hmid sectorSize_pos)
    rw [heq', heq]
    simp only [if_neg hb]
    refine ⟨hvbn, fun hc => absurd hc hb, ?_⟩
    rw [writtenCount, if_neg (by omega),
      show s.pBuf.take (s.amt % sectorSize)
          = (s.pBuf.take (s.amt - s.amt % sectorSize)).take (s.amt % sectorSize) by
        rw [List.take_take]; congr 1; omega,
      Disk.put_take_idem]

/-- **The stages after the head**, when they succeed: one put at the start of the next block, of
as many bytes as `writtenCount` says. -/
theorem writeRest_of_success {s : WriteState} (hbuf : s.amt ≤ s.pBuf.length) (hamt : 0 < s.amt)
    (h : (writeRest s).status.success) :
    1 ≤ s.vbn ∧ (0 < s.bcnt ∨ s.amt < sectorSize → blockStart s.vbn + s.amt ≤ s.disk.size) ∧
      (writeRest s).disk
        = s.disk.put (blockStart s.vbn) (s.pBuf.take (writtenCount s.bcnt s.amt)) := by
  have hs : s.status.success := by
    by_contra hn
    rw [writeRest, if_neg (fun hc => hn hc.2), tailStage_of_not_success hn] at h
    exact hn h
  by_cases hmid : sectorSize ≤ s.amt
  · obtain ⟨h1, h2, h3⟩ := writeRest_of_middle hbuf hmid hs h
    exact ⟨h1, fun hc => h2 (hc.resolve_right (by omega)), h3⟩
  · rw [writeRest, if_neg (fun hc => hmid hc.1), tailStage, if_pos ⟨hamt, hs⟩] at h ⊢
    obtain ⟨h1, h2, h3⟩ := writeTail_of_success (by omega) hbuf h
    refine ⟨h1, fun _ => by omega, ?_⟩
    rw [h3, writtenCount, if_pos (Or.inr (Or.inl (by omega)))]

/-! ### The whole write -/

theorem blockStart_toInt32 {offset : ℕ} (h : offset / sectorSize + 1 < 2 ^ 31) :
    blockStart (toInt32 (offset / sectorSize + 1)) = offset - offset % sectorSize := by
  have hcast := toInt32_of_lt h
  rw [Nat.cast_add, Int.natCast_ediv, Nat.cast_one] at hcast
  have hq : ((offset : ℤ) / sectorSize + 1 - 1).toNat = offset / sectorSize := by
    rw [← Int.natCast_ediv, Int.add_sub_cancel, Int.toNat_natCast]
  rw [hcast, blockStart, hq, sectorSize_mul_div]

theorem one_le_toInt32 {offset : ℕ} (h : offset / sectorSize + 1 < 2 ^ 31) :
    1 ≤ toInt32 (offset / sectorSize + 1) := by
  have hcast := toInt32_of_lt h
  rw [Nat.cast_add, Int.natCast_ediv, Nat.cast_one] at hcast
  have hnonneg : (0 : ℤ) ≤ offset / sectorSize := Int.ediv_nonneg (by omega) (by omega)
  rw [hcast]
  omega

theorem extendFile_data (acp : Acp) (d : Disk) (exsz : ℕ) :
    (extendFile acp d exsz).2.data = d.data := by
  rw [extendFile]
  split
  · dsimp only
    split <;> rfl
  · rfl

/-- Preparing a write reveals blocks; it changes no byte. -/
theorem prepareWrite_data (f : VmsFile) (acp : Acp) (d : Disk) (vbn : ℤ) (amt : ℕ) :
    (prepareWrite f acp d vbn amt).2.2.data = d.data := by
  rw [prepareWrite]
  split
  · dsimp only
    split
    · exact extendFile_data acp d _
    · rfl
  · rfl

section Result

variable {f : VmsFile} {acp : Acp} {d : Disk} {vBuf : List UInt8} {offset : ℕ} {bcnt : ℤ}

theorem writeStages_success_of_ok (h : (vmsWrite f acp d bcnt vBuf offset).rc = .ok) :
    (writeStages (offset % sectorSize) (entryState f acp d bcnt vBuf offset)).status.success := by
  by_contra hn
  rw [vmsWrite, if_neg hn] at h
  cases h

theorem vmsWrite_disk (f : VmsFile) (acp : Acp) (d : Disk) (bcnt : ℤ) (vBuf : List UInt8)
    (offset : ℕ) : (vmsWrite f acp d bcnt vBuf offset).disk
      = (writeStages (offset % sectorSize) (entryState f acp d bcnt vBuf offset)).disk := rfl

/-- The file a write works on once the preparation is done. -/
def prepared (f : VmsFile) (acp : Acp) (d : Disk) (vBuf : List UInt8) (offset : ℕ) : Disk :=
  (prepareWrite f acp d (toInt32 (offset / sectorSize + 1)) vBuf.length).2.2

@[simp] theorem prepared_data (f : VmsFile) (acp : Acp) (d : Disk) (vBuf : List UInt8)
    (offset : ℕ) : (prepared f acp d vBuf offset).data = d.data :=
  prepareWrite_data f acp d _ _

section Entry

variable (f : VmsFile) (acp : Acp) (d : Disk) (bcnt : ℤ) (vBuf : List UInt8) (offset : ℕ)

@[simp] theorem entryState_disk :
    (entryState f acp d bcnt vBuf offset).disk = prepared f acp d vBuf offset := rfl

@[simp] theorem entryState_pBuf : (entryState f acp d bcnt vBuf offset).pBuf = vBuf := rfl

@[simp] theorem entryState_amt : (entryState f acp d bcnt vBuf offset).amt = vBuf.length := rfl

@[simp] theorem entryState_vbn :
    (entryState f acp d bcnt vBuf offset).vbn = toInt32 (offset / sectorSize + 1) := by
  simp only [entryState]

@[simp] theorem entryState_bcnt : (entryState f acp d bcnt vBuf offset).bcnt = bcnt := rfl

end Entry

/-- **An aligned write**, when it returns `SQLITE_OK`. -/
theorem vmsWrite_aligned (hlen : 0 < vBuf.length) (hoff : offset / sectorSize + 1 < 2 ^ 31)
    (hpos : offset % sectorSize = 0) (h : (vmsWrite f acp d bcnt vBuf offset).rc = .ok) :
    (0 < bcnt ∨ vBuf.length < sectorSize →
        offset + vBuf.length ≤ (prepared f acp d vBuf offset).size) ∧
      (vmsWrite f acp d bcnt vBuf offset).disk
        = (prepared f acp d vBuf offset).put offset
            (vBuf.take (writtenCount bcnt vBuf.length)) := by
  have hs := writeStages_success_of_ok h
  have hstart := blockStart_toInt32 hoff
  rw [vmsWrite_disk, writeStages_eq, if_neg fun hc => hc.1 hpos] at *
  obtain ⟨-, h2, h3⟩ := writeRest_of_success (le_refl _) hlen hs
  rw [hpos, Nat.sub_zero] at hstart
  rw [entryState_vbn, hstart] at h2 h3
  exact ⟨h2, h3⟩

/-- The head stage of an unaligned write that returns `SQLITE_OK`. -/
theorem writeStages_unaligned (hoff : offset / sectorSize + 1 < 2 ^ 31)
    (hpos : offset % sectorSize ≠ 0) (h : (vmsWrite f acp d bcnt vBuf offset).rc = .ok) :
    1 ≤ toInt32 (offset / sectorSize + 1) ∧
      offset - offset % sectorSize + sectorSize ≤ (prepared f acp d vBuf offset).size ∧
      writeStages (offset % sectorSize) (entryState f acp d bcnt vBuf offset) =
        writeRest
          { disk := (prepared f acp d vBuf offset).put offset
              (vBuf.take (min vBuf.length (sectorSize - offset % sectorSize))),
            pBuf := vBuf, amt := vBuf.length - (sectorSize - offset % sectorSize),
            vbn := toInt32 (offset / sectorSize + 1) + 1,
            bcnt := (min vBuf.length (sectorSize - offset % sectorSize) : ℕ),
            status := .normal } := by
  have hs := writeStages_success_of_ok h
  have hvpos : offset % sectorSize < sectorSize := Nat.mod_lt _ sectorSize_pos
  have hle : offset % sectorSize ≤ offset := Nat.mod_le _ _
  rw [writeStages_eq] at hs ⊢
  have hentry : (entryState f acp d bcnt vBuf offset).status.success := by
    by_contra hn
    rw [if_neg fun hc => hn hc.2, writeRest, if_neg fun hc => hn hc.2,
      tailStage_of_not_success hn] at hs
    exact hn hs
  rw [if_pos ⟨hpos, hentry⟩] at hs ⊢
  have hhead : (writeHead (offset % sectorSize)
      (entryState f acp d bcnt vBuf offset)).status.success := by
    by_contra hn
    rw [writeRest, if_neg fun hc => hn hc.2, tailStage_of_not_success hn] at hs
    exact hn hs
  obtain ⟨h1, h2, h3⟩ := writeHead_of_success hvpos (le_refl _) hhead
  simp only [entryState_vbn, entryState_disk, entryState_pBuf, entryState_amt,
    blockStart_toInt32 hoff, Nat.sub_add_cancel hle] at h1 h2 h3
  exact ⟨h1, h2, by rw [h3]⟩

/-- **An unaligned write inside one block**, when it returns `SQLITE_OK`. -/
theorem vmsWrite_one_block (hoff : offset / sectorSize + 1 < 2 ^ 31)
    (hpos : offset % sectorSize ≠ 0) (hone : offset % sectorSize + vBuf.length ≤ sectorSize)
    (h : (vmsWrite f acp d bcnt vBuf offset).rc = .ok) :
    offset + vBuf.length ≤ (prepared f acp d vBuf offset).size ∧
      (vmsWrite f acp d bcnt vBuf offset).disk
        = (prepared f acp d vBuf offset).put offset vBuf := by
  obtain ⟨-, h2, h3⟩ := writeStages_unaligned hoff hpos h
  have hle : offset % sectorSize ≤ offset := Nat.mod_le _ _
  refine ⟨by omega, ?_⟩
  have hmin : min vBuf.length (sectorSize - offset % sectorSize) = vBuf.length := by omega
  have hsub : vBuf.length - (sectorSize - offset % sectorSize) = 0 := by omega
  rw [vmsWrite_disk, h3, hmin, hsub, List.take_length, writeRest,
    if_neg fun hc => Nat.not_le_of_lt sectorSize_pos hc.1, tailStage,
    if_neg fun hc => Nat.lt_irrefl 0 hc.1]

/-- **An unaligned write over a block boundary**, when it returns `SQLITE_OK`: everything past the
first block is filled from the start of the buffer again. -/
theorem vmsWrite_boundary (hoff : offset / sectorSize + 1 < 2 ^ 31)
    (hpos : offset % sectorSize ≠ 0) (hcross : sectorSize < offset % sectorSize + vBuf.length)
    (h : (vmsWrite f acp d bcnt vBuf offset).rc = .ok) :
    offset + vBuf.length ≤ (prepared f acp d vBuf offset).size ∧
      (vmsWrite f acp d bcnt vBuf offset).disk
        = ((prepared f acp d vBuf offset).put offset
              (vBuf.take (sectorSize - offset % sectorSize))).put
            (offset + (sectorSize - offset % sectorSize))
            (vBuf.take (vBuf.length - (sectorSize - offset % sectorSize))) := by
  have hs := writeStages_success_of_ok h
  obtain ⟨h1, h2, h3⟩ := writeStages_unaligned hoff hpos h
  have hvpos : offset % sectorSize < sectorSize := Nat.mod_lt _ sectorSize_pos
  have hle : offset % sectorSize ≤ offset := Nat.mod_le _ _
  have hmin : min vBuf.length (sectorSize - offset % sectorSize)
      = sectorSize - offset % sectorSize := by omega
  rw [h3] at hs
  have hbcnt : (0 : ℤ) < (min vBuf.length (sectorSize - offset % sectorSize) : ℕ) := by omega
  obtain ⟨-, h5, h6⟩ := writeRest_of_success (by dsimp only; omega) (by dsimp only; omega) hs
  have hnext : blockStart (toInt32 (offset / sectorSize + 1) + 1)
      = offset + (sectorSize - offset % sectorSize) := by
    rw [blockStart_add_one h1, blockStart_toInt32 hoff]
    omega
  have hend := h5 (Or.inl hbcnt)
  simp only [hnext, Disk.put_size] at hend
  refine ⟨by omega, ?_⟩
  rw [vmsWrite_disk, h3, h6, hnext, writtenCount, if_pos (Or.inl hbcnt), hmin]

/-- A write that returns `SQLITE_OK` changes no byte outside its range. -/
theorem vmsWrite_outside (hlen : 0 < vBuf.length) (hoff : offset / sectorSize + 1 < 2 ^ 31)
    (h : (vmsWrite f acp d bcnt vBuf offset).rc = .ok) {j : ℕ}
    (hj : j < offset ∨ offset + vBuf.length ≤ j) :
    (vmsWrite f acp d bcnt vBuf offset).disk.data j = d.data j := by
  by_cases hpos : offset % sectorSize = 0
  · rw [(vmsWrite_aligned hlen hoff hpos h).2, Disk.put_data, prepared_data]
    exact blit_outside (by rw [List.length_take]; omega)
  by_cases hone : offset % sectorSize + vBuf.length ≤ sectorSize
  · rw [(vmsWrite_one_block hoff hpos hone h).2, Disk.put_data, prepared_data]
    exact blit_outside hj
  · rw [(vmsWrite_boundary hoff hpos (by omega) h).2, Disk.put_data, Disk.put_data, prepared_data,
      blit_outside (by rw [List.length_take]; omega),
      blit_outside (by rw [List.length_take]; omega)]

/-- A write that returns `SQLITE_OK` works on the prepared file, whose allocation it keeps. -/
theorem vmsWrite_hiblk (hlen : 0 < vBuf.length) (hoff : offset / sectorSize + 1 < 2 ^ 31)
    (h : (vmsWrite f acp d bcnt vBuf offset).rc = .ok) :
    (vmsWrite f acp d bcnt vBuf offset).disk.hiblk = (prepared f acp d vBuf offset).hiblk := by
  by_cases hpos : offset % sectorSize = 0
  · rw [(vmsWrite_aligned hlen hoff hpos h).2, Disk.put_hiblk]
  by_cases hone : offset % sectorSize + vBuf.length ≤ sectorSize
  · rw [(vmsWrite_one_block hoff hpos hone h).2, Disk.put_hiblk]
  · rw [(vmsWrite_boundary hoff hpos (by omega) h).2, Disk.put_hiblk, Disk.put_hiblk]

/-- A write of less than a block that does not run over a block boundary puts down the buffer,
inside the file. -/
theorem vmsWrite_short (hlen : 0 < vBuf.length) (hoff : offset / sectorSize + 1 < 2 ^ 31)
    (hlt : vBuf.length < sectorSize) (hone : offset % sectorSize + vBuf.length ≤ sectorSize)
    (h : (vmsWrite f acp d bcnt vBuf offset).rc = .ok) :
    offset + vBuf.length ≤ (vmsWrite f acp d bcnt vBuf offset).disk.size ∧
      Holds (vmsWrite f acp d bcnt vBuf offset).disk.data offset vBuf := by
  rw [Disk.size, vmsWrite_hiblk hlen hoff h]
  by_cases hpos : offset % sectorSize = 0
  · obtain ⟨hin, heq⟩ := vmsWrite_aligned hlen hoff hpos h
    refine ⟨hin (Or.inr hlt), ?_⟩
    rw [heq, writtenCount, if_pos (Or.inr (Or.inl hlt)), List.take_length]
    exact holds_blit _ _ _
  · obtain ⟨hin, heq⟩ := vmsWrite_one_block hoff hpos hone h
    refine ⟨hin, ?_⟩
    rw [heq]
    exact holds_blit _ _ _

end Result

end OsVms

end SqliteVms

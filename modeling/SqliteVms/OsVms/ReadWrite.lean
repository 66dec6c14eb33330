import SqliteVms.OsVms.Read

/-!
# Byte-addressed writing on a block device

`WriteSpec` says what a byte-addressed write is: the range holds the buffer, every other byte of
the blocks that were there before is what it was, and a read of the range gives the buffer back.
`MeetsWriteSpec` asks this of `vmsWrite` for every value the uninitialised `bcnt` may hold, and
asks the outcome to be the same for all of them.

## Main results

* `vmsWrite_ok` — a write into a file with room for it returns `SQLITE_OK`
* `vmsWrite_meets_iff` — exactly which writes meet the specification
* `vmsWrite_boundary_corrupts` — two bytes across a block boundary that do not
-/

namespace SqliteVms

namespace OsVms

open Store BigEndian

/-! ### Writes that succeed -/

theorem length_memcpy {dst src : List UInt8} {pos : ℕ} (h : pos + src.length ≤ dst.length) :
    (memcpy dst pos src).length = dst.length := by
  simp only [memcpy, List.length_append, List.length_take, List.length_drop]
  omega

theorem Disk.writevblk_status {d : Disk} {vbn : ℤ} {bytes : List UInt8} (h : 1 ≤ vbn)
    (hin : blockStart vbn + bytes.length ≤ d.size) :
    (d.writevblk vbn bytes).1.success := by
  rw [Disk.writevblk, if_pos ⟨h, hin⟩]
  rfl

theorem writeTail_success {s : WriteState} (hb : s.disk.HasBlock s.vbn)
    (hamt : s.amt ≤ sectorSize) : (writeTail s).status.success := by
  have hblock := Disk.blockStart_le_of_hasBlock hb
  rw [writeTail, Disk.readvblk_of_hasBlock hb, if_pos Status.success_normal]
  refine Disk.writevblk_status hb.1 ?_
  rw [length_memcpy (by rw [length_slice, List.length_take]; omega), length_slice]
  exact hblock

theorem writeHead_success {vpos : ℕ} {s : WriteState} (hb : s.disk.HasBlock s.vbn)
    (hv : vpos < sectorSize) : (writeHead vpos s).status.success := by
  have hblock := Disk.blockStart_le_of_hasBlock hb
  have hw : (s.disk.writevblk s.vbn (memcpy (slice s.disk.data (blockStart s.vbn) sectorSize) vpos
      (s.pBuf.take (min s.amt (sectorSize - vpos))))).1.success := by
    refine Disk.writevblk_status hb.1 ?_
    rw [length_memcpy (by rw [length_slice, List.length_take]; omega), length_slice]
    exact hblock
  rw [writeHead, Disk.readvblk_of_hasBlock hb, if_pos Status.success_normal]
  simp only [hw, if_true]

theorem Disk.hasBlock_of_lt {d : Disk} {vbn : ℤ} (h : 1 ≤ vbn) (hlt : blockStart vbn < d.size) :
    d.HasBlock vbn := by
  refine ⟨h, ?_⟩
  have hmul : sectorSize * (vbn - 1).toNat < sectorSize * d.hiblk := hlt
  have := Nat.lt_of_mul_lt_mul_left hmul
  omega

/-- The stages after the head succeed when the bytes they write lie inside the file. -/
theorem writeRest_success {s : WriteState} (hbuf : s.amt ≤ s.pBuf.length)
    (hs : s.status.success) (h : 1 ≤ s.vbn)
    (hroom : blockStart s.vbn + s.amt ≤ s.disk.size) : (writeRest s).status.success := by
  have htail : ∀ t : WriteState, t.status.success → t.disk.size = s.disk.size → 1 ≤ t.vbn →
      blockStart t.vbn + t.amt ≤ s.disk.size → t.amt < sectorSize →
      (tailStage t).status.success := by
    intro t ht hd hvbn hin hamt
    rw [tailStage]
    split
    · rename_i hgo
      exact writeTail_success (Disk.hasBlock_of_lt hvbn (by rw [hd]; omega)) hamt.le
    · exact ht
  have hr : s.amt % sectorSize < sectorSize := Nat.mod_lt _ sectorSize_pos
  have hrle : s.amt % sectorSize ≤ s.amt := Nat.mod_le _ _
  by_cases hmid : sectorSize ≤ s.amt ∧ s.status.success
  · have hw : (writeMiddle s).status.success := by
      have hin : (s.disk.writevblk s.vbn
          (s.pBuf.take (s.amt - s.amt % sectorSize))).1.success :=
        Disk.writevblk_status h (by rw [List.length_take]; omega)
      rw [writeMiddle, if_pos hin]
      split <;> exact hin
    obtain ⟨-, -, heq⟩ := writeMiddle_of_success hbuf hw
    have hdiv : (0 : ℤ) ≤ s.amt / sectorSize := Int.ediv_nonneg (by omega) (by omega)
    rw [writeRest, if_pos hmid]
    refine htail _ hw (by rw [heq]; rfl) ?_ ?_ (by rw [heq]; exact hr)
    · rw [heq]; dsimp only; split <;> omega
    · rw [heq]
      dsimp only
      split
      · rw [← Int.natCast_ediv, blockStart_add h, sectorSize_mul_div]
        omega
      · omega
  · rw [writeRest, if_neg hmid]
    refine htail s hs rfl h hroom ?_
    by_contra hge
    exact hmid ⟨by omega, hs⟩

/-- A write whose bytes lie inside the file succeeds once its preparation has, whatever `bcnt`
holds. -/
theorem vmsWrite_ok_of_prepared {f : VmsFile} {acp : Acp} {d : Disk} {vBuf : List UInt8}
    {offset : ℕ}
    (hprep : (prepareWrite f acp d (toInt32 (offset / sectorSize + 1)) vBuf.length).2.1.success)
    (hoff : offset / sectorSize + 1 < 2 ^ 31)
    (hroom : offset + vBuf.length ≤ (prepared f acp d vBuf offset).size) (bcnt : ℤ) :
    (vmsWrite f acp d bcnt vBuf offset).rc = .ok := by
  have hvpos : offset % sectorSize < sectorSize := Nat.mod_lt _ sectorSize_pos
  have hle : offset % sectorSize ≤ offset := Nat.mod_le _ _
  have hstart := blockStart_toInt32 hoff
  have hvbn := one_le_toInt32 hoff
  have hsucc : (writeStages (offset % sectorSize)
      (entryState f acp d bcnt vBuf offset)).status.success := by
    have hentry : (entryState f acp d bcnt vBuf offset).status.success := hprep
    rw [writeStages_eq]
    by_cases hpos : offset % sectorSize ≠ 0 ∧ (entryState f acp d bcnt vBuf offset).status.success
    · rw [if_pos hpos]
      have hb : (entryState f acp d bcnt vBuf offset).disk.HasBlock
          (entryState f acp d bcnt vBuf offset).vbn := by
        rw [entryState_disk, entryState_vbn]
        exact Disk.hasBlock_of_lt hvbn (by rw [hstart]; omega)
      have hblock := Disk.blockStart_le_of_hasBlock hb
      rw [entryState_disk, entryState_vbn, hstart] at hblock
      have hh := writeHead_success hb hvpos
      obtain ⟨-, -, heq⟩ := writeHead_of_success hvpos (le_refl _) hh
      refine writeRest_success ?_ hh ?_ ?_
      · rw [heq]
        exact Nat.sub_le _ _
      · rw [heq, entryState_vbn]
        dsimp only
        omega
      · rw [heq, entryState_vbn]
        dsimp only
        rw [blockStart_add_one hvbn, hstart, Disk.put_size, entryState_disk, entryState_amt]
        omega
    · rw [if_neg hpos]
      have hzero : offset % sectorSize = 0 := by
        by_contra hne
        exact hpos ⟨hne, hentry⟩
      refine writeRest_success (le_refl _) hentry (by rw [entryState_vbn]; exact hvbn) ?_
      rw [entryState_vbn, hstart, hzero]
      exact hroom
  rw [vmsWrite, if_pos hsucc]

/-- Where the allocation covers the blocks the code reckons with, nothing is extended. -/
theorem prepareWrite_of_room {f : VmsFile} {acp : Acp} {d : Disk} {amt offset : ℕ}
    (hacc : acp.accessStatus.success) (hhint : f.szHint ≤ 0)
    (hroom : offset / sectorSize + amt / sectorSize + 2 ≤ d.hiblk) :
    prepareWrite f acp d (toInt32 (offset / sectorSize + 1)) amt = (f, acp.accessStatus, d) := by
  have hmax := d.hiblk_lt
  have hsum : offset / sectorSize + 1 + amt / sectorSize + 1 < 2 ^ 31 := by
    rw [Nat.add_right_comm _ 1]
    exact Nat.lt_of_le_of_lt hroom hmax
  have hoff : offset / sectorSize + 1 < 2 ^ 31 :=
    Nat.lt_of_le_of_lt (by rw [Nat.add_assoc (_ + 1)]; exact Nat.le_add_right _ _) hsum
  have hvbn : toInt32 (offset / sectorSize + 1) = (offset / sectorSize : ℕ) + 1 := by
    have := toInt32_of_lt hoff
    rwa [Nat.cast_add, Int.natCast_ediv, Nat.cast_one, ← Int.natCast_ediv] at this
  have hneeded : neededBlocks f (toInt32 (offset / sectorSize + 1)) amt ≤ d.hiblk := by
    rw [neededBlocks, if_neg (by omega), hvbn, ← Int.natCast_ediv]
    have := toInt32_of_lt hsum
    rw [Nat.cast_add, Nat.cast_add, Nat.cast_add, Nat.cast_one] at this
    rw [this]
    omega
  rw [prepareWrite, if_pos hacc, if_neg (by omega), VmsFile.clearHint, if_neg (by omega)]

/-- A write into a file whose allocation covers the blocks the code reckons with returns
`SQLITE_OK`, whatever `bcnt` holds. -/
theorem vmsWrite_ok {f : VmsFile} {acp : Acp} {d : Disk} {vBuf : List UInt8} {offset : ℕ}
    (hacc : acp.accessStatus.success) (hhint : f.szHint ≤ 0)
    (hroom : offset / sectorSize + vBuf.length / sectorSize + 2 ≤ d.hiblk) (bcnt : ℤ) :
    (vmsWrite f acp d bcnt vBuf offset).rc = .ok := by
  have hprep := prepareWrite_of_room hacc hhint hroom
  have hmax := d.hiblk_lt
  have hoff : offset / sectorSize + 1 < 2 ^ 31 := by
    generalize offset / sectorSize = q at hroom ⊢
    generalize vBuf.length / sectorSize = m at hroom
    omega
  refine vmsWrite_ok_of_prepared (by rw [hprep]; exact hacc) hoff ?_ bcnt
  have hq := Nat.div_add_mod offset sectorSize
  have hn := Nat.div_add_mod vBuf.length sectorSize
  have hq' : offset % sectorSize < sectorSize := Nat.mod_lt _ sectorSize_pos
  have hn' : vBuf.length % sectorSize < sectorSize := Nat.mod_lt _ sectorSize_pos
  calc offset + vBuf.length
      ≤ sectorSize * (offset / sectorSize + vBuf.length / sectorSize + 2) := by
        rw [Nat.mul_add, Nat.mul_add]; omega
    _ ≤ sectorSize * d.hiblk := Nat.mul_le_mul_left _ hroom
    _ = (prepared f acp d vBuf offset).size := by rw [prepared, hprep, Disk.size]

/-! ### The specification -/

/-- What a byte-addressed write of `vBuf` at `offset` does to a file. -/
structure WriteSpec (d d' : Disk) (vBuf : List UInt8) (offset : ℕ) : Prop where
  inFile : offset + vBuf.length ≤ d'.size
  written : slice d'.data offset vBuf.length = vBuf
  unchanged : ∀ j < d.size, j < offset ∨ offset + vBuf.length ≤ j → d'.data j = d.data j
  readBack : ∀ buf : List UInt8, buf.length = vBuf.length →
    vmsRead d' buf vBuf.length offset = (.ok, vBuf)

/-- `vmsWrite` writes these bytes whatever `bcnt` holds, and with one outcome. -/
def MeetsWriteSpec (f : VmsFile) (acp : Acp) (d : Disk) (vBuf : List UInt8) (offset : ℕ) : Prop :=
  (∀ bcnt, WriteSpec d (vmsWrite f acp d bcnt vBuf offset).disk vBuf offset) ∧
    ∀ bcnt bcnt', vmsWrite f acp d bcnt vBuf offset = vmsWrite f acp d bcnt' vBuf offset

/-- The writes the two slips leave unharmed. The block number must fit an `int`. An aligned write
must not have both whole blocks and a tail, unless the tail is in the file already. An unaligned
one must stay in its block, unless what goes past the block repeats the start of the buffer. -/
def WriteUnharmed (d : Disk) (vBuf : List UInt8) (offset : ℕ) : Prop :=
  offset / sectorSize + 1 < 2 ^ 31 ∧
    if offset % sectorSize = 0 then
      vBuf.length < sectorSize ∨ vBuf.length % sectorSize = 0 ∨
        slice d.data (offset + (vBuf.length - vBuf.length % sectorSize))
            (vBuf.length % sectorSize)
          = vBuf.drop (vBuf.length - vBuf.length % sectorSize)
    else
      offset % sectorSize + vBuf.length ≤ sectorSize ∨
        vBuf.take (vBuf.length - (sectorSize - offset % sectorSize))
          = vBuf.drop (sectorSize - offset % sectorSize)

section Meets

variable {f : VmsFile} {acp : Acp} {d : Disk} {vBuf : List UInt8} {offset : ℕ}

/-- Bytes that are in the file already need not be written. -/
theorem Disk.put_take_of_slice {d : Disk} {off n : ℕ} {xs : List UInt8} (hn : n ≤ xs.length)
    (h : slice d.data (off + n) (xs.length - n) = xs.drop n) :
    d.put off (xs.take n) = d.put off xs := by
  have hlen : (xs.take n).length = n := by rw [List.length_take]; omega
  have hkeep : slice (blit d.data off (xs.take n)) (off + n) (xs.length - n) = xs.drop n := by
    rw [← h]
    exact slice_congr fun i _ => blit_outside (Or.inr (by omega))
  have happ := Disk.put_put_append d off (xs.take n) (xs.drop n)
  rw [List.take_append_drop, hlen] at happ
  simp only [Disk.put] at happ ⊢
  rw [← happ, ← hkeep, blit_slice]

/-- A put of the whole buffer into a file that covers it is a byte-addressed write. -/
theorem writeSpec_put {p : Disk} (hdata : p.data = d.data) (hlen : 0 < vBuf.length)
    (hin : offset + vBuf.length ≤ p.size) : WriteSpec d (p.put offset vBuf) vBuf offset where
  inFile := hin
  written := by rw [Disk.put_data, slice_blit]
  unchanged := by
    intro j _ hj
    rw [Disk.put_data, blit_outside hj, hdata]
  readBack := by
    intro buf hbuf
    rw [← hbuf, vmsRead_of_le (by omega) (by rw [hbuf]; exact hin), hbuf, Disk.put_data,
      slice_blit]

/-- One and the same put for every `bcnt` is what the specification asks for. -/
theorem meetsWriteSpec_of_put (hlen : 0 < vBuf.length)
    (hok : ∀ bcnt, (vmsWrite f acp d bcnt vBuf offset).rc = .ok)
    (hin : offset + vBuf.length ≤ (prepared f acp d vBuf offset).size)
    (hput : ∀ bcnt, (vmsWrite f acp d bcnt vBuf offset).disk
      = (prepared f acp d vBuf offset).put offset vBuf) : MeetsWriteSpec f acp d vBuf offset := by
  have heq : ∀ bcnt, vmsWrite f acp d bcnt vBuf offset
      = ⟨.ok, (prepareWrite f acp d (toInt32 (offset / sectorSize + 1)) vBuf.length).1,
          (prepared f acp d vBuf offset).put offset vBuf⟩ := by
    intro bcnt
    have hrc := hok bcnt
    have hdisk := hput bcnt
    rw [vmsWrite] at hrc hdisk ⊢
    exact WriteResult.mk.injEq .. |>.mpr ⟨hrc, rfl, hdisk⟩
  refine ⟨fun bcnt => ?_, fun bcnt bcnt' => by rw [heq, heq]⟩
  rw [hput]
  exact writeSpec_put (prepared_data f acp d vBuf offset) hlen hin

/-- **Exactly which writes are right.** When every request succeeds, `vmsWrite` writes the buffer
byte for byte, with one outcome for every initial `bcnt`, if and only if the write is one that the
stalled pointers cannot harm. -/
theorem vmsWrite_meets_iff (hlen : 0 < vBuf.length)
    (hok : ∀ bcnt, (vmsWrite f acp d bcnt vBuf offset).rc = .ok) :
    MeetsWriteSpec f acp d vBuf offset ↔ WriteUnharmed d vBuf offset := by
  have hpos := sectorSize_pos
  have hrle : vBuf.length % sectorSize ≤ vBuf.length := Nat.mod_le _ _
  constructor
  · rintro ⟨hspec, -⟩
    have hoff : offset / sectorSize + 1 < 2 ^ 31 := by
      have hin := (hspec 0).inFile
      have hlt : offset / sectorSize < (vmsWrite f acp d 0 vBuf offset).disk.hiblk :=
        Nat.div_lt_of_lt_mul (show offset < sectorSize * _ by rw [← Disk.size]; omega)
      have := (vmsWrite f acp d 0 vBuf offset).disk.hiblk_lt
      omega
    have hw : ∀ m ≤ vBuf.length, slice (vmsWrite f acp d 0 vBuf offset).disk.data (offset + m)
        (vBuf.length - m) = vBuf.drop m := by
      intro m hm
      rw [← drop_slice hm, (hspec 0).written]
    refine ⟨hoff, ?_⟩
    by_cases halign : offset % sectorSize = 0
    · rw [if_pos halign]
      by_contra hn
      push Not at hn
      obtain ⟨hge, hmod, hne⟩ := hn
      -- with `bcnt = 0` only the whole blocks are written, so the tail is what the file held
      have hdisk := (vmsWrite_aligned hlen hoff halign (hok 0)).2
      rw [writtenCount, if_neg (by omega)] at hdisk
      have htail := hw (vBuf.length - vBuf.length % sectorSize) (by omega)
      rw [hdisk, Disk.put_data, prepared_data, Nat.sub_sub_self hrle] at htail
      refine hne (Eq.trans (slice_congr fun i _ => ?_) htail)
      exact (blit_outside (Or.inr (by rw [List.length_take]; omega))).symm
    · rw [if_neg halign]
      by_contra hn
      push Not at hn
      obtain ⟨hcross, hne⟩ := hn
      -- past the first block the file holds the buffer from its first byte on
      have hdisk := (vmsWrite_boundary hoff halign hcross (hok 0)).2
      have hrest := hw (sectorSize - offset % sectorSize) (by omega)
      rw [hdisk, Disk.put_data] at hrest
      have hlt : (vBuf.take (vBuf.length - (sectorSize - offset % sectorSize))).length
          = vBuf.length - (sectorSize - offset % sectorSize) := by
        rw [List.length_take]; omega
      have hself := slice_blit ((prepared f acp d vBuf offset).put offset
          (vBuf.take (sectorSize - offset % sectorSize))).data
        (offset + (sectorSize - offset % sectorSize))
        (vBuf.take (vBuf.length - (sectorSize - offset % sectorSize)))
      rw [hlt, hrest] at hself
      exact hne hself.symm
  · rintro ⟨hoff, hcond⟩
    by_cases halign : offset % sectorSize = 0
    · rw [if_pos halign] at hcond
      have hin := (vmsWrite_aligned hlen hoff halign (hok 1)).1 (Or.inl one_pos)
      refine meetsWriteSpec_of_put hlen hok hin fun bcnt => ?_
      rw [(vmsWrite_aligned hlen hoff halign (hok bcnt)).2, writtenCount]
      split
      · rw [List.take_length]
      · refine Disk.put_take_of_slice (by omega) ?_
        rw [prepared_data, Nat.sub_sub_self hrle]
        exact (hcond.resolve_left (by omega)).resolve_left (by omega)
    · rw [if_neg halign] at hcond
      by_cases hone : offset % sectorSize + vBuf.length ≤ sectorSize
      · have hput := fun bcnt => vmsWrite_one_block hoff halign hone (hok bcnt)
        exact meetsWriteSpec_of_put hlen hok (hput 0).1 fun bcnt => (hput bcnt).2
      · have hput := fun bcnt => vmsWrite_boundary hoff halign (by omega) (hok bcnt)
        refine meetsWriteSpec_of_put hlen hok (hput 0).1 fun bcnt => ?_
        have htake : (vBuf.take (sectorSize - offset % sectorSize)).length
            = sectorSize - offset % sectorSize := by
          rw [List.length_take]; omega
        have happ := Disk.put_put_append (prepared f acp d vBuf offset) offset
          (vBuf.take (sectorSize - offset % sectorSize))
          (vBuf.drop (sectorSize - offset % sectorSize))
        rw [htake, List.take_append_drop] at happ
        rw [(hput bcnt).2, hcond.resolve_left hone, happ]

/-- Four zeroed blocks, enough for any write of a few bytes at their start. -/
def fourBlocks : Disk := ⟨4, 5, 0, fun _ => 0, by decide⟩

/-- A file system on which every request succeeds. -/
def acpOk : Acp := ⟨.normal, .normal, .normal, 0, id⟩

/-- The theorem at work on a write inside one block. -/
theorem vmsWrite_meets_at_seven :
    (∀ bcnt, (vmsWrite ⟨0, 0⟩ acpOk fourBlocks bcnt [1, 2, 3] 7).rc = .ok) ∧
      MeetsWriteSpec ⟨0, 0⟩ acpOk fourBlocks [1, 2, 3] 7 := by
  have hok : ∀ bcnt, (vmsWrite ⟨0, 0⟩ acpOk fourBlocks bcnt [1, 2, 3] 7).rc = .ok :=
    vmsWrite_ok rfl (by decide) (by decide)
  exact ⟨hok, (vmsWrite_meets_iff (by decide) hok).mpr ⟨by decide, by
    rw [if_neg (by decide)]
    exact Or.inl (by decide)⟩⟩

/-- **Two bytes across a block boundary.** Written at offset 511, the second of the bytes `1, 2`
arrives as a `1`: every request succeeds and the file is wrong. -/
theorem vmsWrite_boundary_corrupts :
    (∀ bcnt, (vmsWrite ⟨0, 0⟩ acpOk fourBlocks bcnt [1, 2] 511).rc = .ok) ∧
      ¬ MeetsWriteSpec ⟨0, 0⟩ acpOk fourBlocks [1, 2] 511 := by
  have hok : ∀ bcnt, (vmsWrite ⟨0, 0⟩ acpOk fourBlocks bcnt [1, 2] 511).rc = .ok :=
    vmsWrite_ok rfl (by decide) (by decide)
  refine ⟨hok, fun h => ?_⟩
  have hbyte := (h.1 0).written
  rw [(vmsWrite_boundary (by decide) (by decide) (by decide) (hok 0)).2] at hbyte
  exact absurd hbyte (by decide)

end Meets

end OsVms

end SqliteVms

import SqliteVms.OsVms.Write

/-!
# What `vmsRead` returns

One invariant, `ReadInv`, is carried from stage to stage: the part of the caller's buffer behind
`pBuf` holds the file's bytes, the part in front of it is untouched, and a failed status means
that `pBuf` has reached the end of the file.

## Main results

* `vmsRead_eq` — buffer and result code of a read whose block number fits an `int`
* `vmsRead_of_le` — a read inside the file returns its bytes and `SQLITE_OK`
-/

namespace SqliteVms

namespace OsVms

open Store BigEndian

theorem memcpy_append (xs ys zs : List UInt8) :
    memcpy (xs ++ ys) xs.length zs = xs ++ zs ++ ys.drop zs.length := by
  rw [memcpy, List.take_left, ← List.drop_drop, List.drop_left]

theorem Disk.hasBlock_iff {d : Disk} {vbn : ℤ} (h : 1 ≤ vbn) :
    d.HasBlock vbn ↔ blockStart vbn < d.size := by
  constructor
  · intro hb
    have := Disk.blockStart_le_of_hasBlock hb
    have := sectorSize_pos
    omega
  · intro hlt
    have := Nat.lt_of_mul_lt_mul_left hlt
    exact ⟨h, by omega⟩

/-- The state of a read after its head stage, for a caller's buffer `vBuf`. -/
structure ReadInv (d : Disk) (vBuf : List UInt8) (offset : ℕ) (s : ReadState) : Prop where
  total : s.pBuf + s.amt = vBuf.length
  buf : s.vBuf = slice d.data offset s.pBuf ++ vBuf.drop s.pBuf
  read : s.pBuf = 0 ∨ offset + s.pBuf ≤ d.size
  status : s.status = .normal ∧
      (0 < s.amt → 1 ≤ s.vbn ∧ blockStart s.vbn = offset + s.pBuf) ∨
    s.status = .endOfFile ∧ d.size ≤ offset + s.pBuf ∧ 0 < s.amt

section Stages

variable {d : Disk} {vBuf : List UInt8} {offset : ℕ} {s : ReadState}

/-- The bytes a stage copies extend the invariant. -/
theorem ReadInv.advance (h : ReadInv d vBuf offset s) (n : ℕ) :
    memcpy s.vBuf s.pBuf (slice d.data (offset + s.pBuf) n)
      = slice d.data offset (s.pBuf + n) ++ vBuf.drop (s.pBuf + n) := by
  have := memcpy_append (slice d.data offset s.pBuf) (vBuf.drop s.pBuf)
    (slice d.data (offset + s.pBuf) n)
  rw [length_slice] at this
  rw [h.buf, this, length_slice, ← slice_append, List.drop_drop]

theorem readHead_inv (hlen : 0 < vBuf.length) (hoff : offset / sectorSize + 1 < 2 ^ 31) :
    ReadInv d vBuf offset (readHead d (offset % sectorSize)
      ⟨vBuf, 0, vBuf.length, toInt32 (offset / sectorSize + 1), .normal⟩) := by
  have hvpos : offset % sectorSize < sectorSize := Nat.mod_lt _ sectorSize_pos
  have hle : offset % sectorSize ≤ offset := Nat.mod_le _ _
  have hstart := blockStart_toInt32 hoff
  have hone := one_le_toInt32 hoff
  generalize toInt32 (offset / sectorSize + 1) = vbn at *
  by_cases hb : d.HasBlock vbn
  · have hblock := Disk.blockStart_le_of_hasBlock hb
    rw [readHead, Disk.readvblk_of_hasBlock hb]
    simp only [Status.success, if_true, Nat.zero_add]
    have hbytes : ((slice d.data (blockStart vbn) sectorSize).drop (offset % sectorSize)).take
        (min vBuf.length (sectorSize - offset % sectorSize))
        = slice d.data offset (min vBuf.length (sectorSize - offset % sectorSize)) := by
      rw [drop_slice hvpos.le, take_slice (Nat.min_le_right _ _), hstart, Nat.sub_add_cancel hle]
    refine ⟨by dsimp only; omega, ?_, Or.inr (by dsimp only; omega), Or.inl ⟨rfl, fun h => ?_⟩⟩
    · rw [hbytes]
      have := memcpy_append [] vBuf
        (slice d.data offset (min vBuf.length (sectorSize - offset % sectorSize)))
      simpa using this
    · dsimp only at h ⊢
      refine ⟨by omega, ?_⟩
      rw [blockStart_add_one hone]
      omega
  · have hend : d.size ≤ blockStart vbn := by
      by_contra hlt
      exact hb ((Disk.hasBlock_iff hone).mpr (by omega))
    rw [readHead, Disk.readvblk, if_neg hb]
    simp only [Status.success, Bool.false_eq_true, if_false]
    exact ⟨Nat.zero_add _, rfl, Or.inl rfl, Or.inr ⟨rfl, by dsimp only; omega, hlen⟩⟩

theorem readMiddle_inv (h : ReadInv d vBuf offset s) (hamt : sectorSize ≤ s.amt)
    (hs : s.status.success) :
    ReadInv d vBuf offset (readMiddle d s) ∧
      ((readMiddle d s).status.success → (readMiddle d s).amt < sectorSize) := by
  have hpos := sectorSize_pos
  have hr : s.amt % sectorSize < sectorSize := Nat.mod_lt _ hpos
  have hrle : s.amt % sectorSize ≤ s.amt := Nat.mod_le _ _
  have htotal := h.total
  obtain ⟨hnorm, hvbn⟩ | ⟨heof, -⟩ := h.status
  · obtain ⟨hone, hstart⟩ := hvbn (by omega)
    by_cases hb : d.HasBlock s.vbn
    · have hin := (Disk.hasBlock_iff hone).mp hb
      rw [readMiddle, Disk.readvblk, if_pos hb]
      simp only [Status.success, if_true, length_slice, hstart]
      have hadv := h.advance (min (s.amt - s.amt % sectorSize) (d.size - (offset + s.pBuf)))
      by_cases hshort : min (s.amt - s.amt % sectorSize) (d.size - (offset + s.pBuf))
          < s.amt - s.amt % sectorSize
      · rw [if_pos hshort]
        refine ⟨⟨by dsimp only; omega, hadv, Or.inr (by dsimp only; omega),
          Or.inr ⟨rfl, by dsimp only; omega, by dsimp only; omega⟩⟩, fun hc => ?_⟩
        simp at hc
      · rw [if_neg hshort]
        rw [show min (s.amt - s.amt % sectorSize) (d.size - (offset + s.pBuf))
            = s.amt - s.amt % sectorSize by omega] at hadv ⊢
        refine ⟨⟨by dsimp only; omega, hadv, Or.inr (by dsimp only; omega),
          Or.inl ⟨rfl, fun _ => ?_⟩⟩, fun _ => hr⟩
        have hdiv : (s.amt - s.amt % sectorSize) / sectorSize = s.amt / sectorSize := by
          rw [← sectorSize_mul_div, Nat.mul_div_cancel_left _ hpos]
        dsimp only
        rw [hdiv, blockStart_add hone, sectorSize_mul_div, hstart]
        exact ⟨le_add_of_le_of_nonneg hone (Int.natCast_nonneg _), by omega⟩
    · have hend : d.size ≤ blockStart s.vbn := by
        by_contra hlt
        exact hb ((Disk.hasBlock_iff hone).mpr (by omega))
      rw [readMiddle, Disk.readvblk, if_neg hb]
      simp only [Status.success, Bool.false_eq_true, if_false]
      exact ⟨⟨htotal, h.buf, h.read,
        Or.inr ⟨rfl, by rw [hstart] at hend; exact hend, by dsimp only; omega⟩⟩,
        fun hc => absurd hc (by simp)⟩
  · rw [heof] at hs
    simp [Status.success] at hs

/-- The tail stage either completes the buffer or finds the end of the file. -/
theorem readTail_spec (h : ReadInv d vBuf offset s) (hamt : 0 < s.amt) (hlt : s.amt < sectorSize)
    (hs : s.status.success) :
    (readTail d s).status = .normal ∧ offset + vBuf.length ≤ d.size ∧
        (readTail d s).vBuf = slice d.data offset vBuf.length ∨
      (readTail d s).status = .endOfFile ∧ ReadInv d vBuf offset (readTail d s) := by
  obtain ⟨hnorm, hvbn⟩ | ⟨heof, -⟩ := h.status
  · obtain ⟨hone, hstart⟩ := hvbn hamt
    have htotal := h.total
    by_cases hb : d.HasBlock s.vbn
    · have hblock := Disk.blockStart_le_of_hasBlock hb
      rw [readTail, Disk.readvblk_of_hasBlock hb]
      simp only [Status.success, if_true]
      refine Or.inl ⟨trivial, by omega, ?_⟩
      rw [take_slice hlt.le, hstart, h.advance, htotal, List.drop_length, List.append_nil]
    · have hend : d.size ≤ blockStart s.vbn := by
        by_contra hlt
        exact hb ((Disk.hasBlock_iff hone).mpr (by omega))
      rw [readTail, Disk.readvblk, if_neg hb]
      simp only [Status.success, Bool.false_eq_true, if_false]
      exact Or.inr ⟨trivial, htotal, h.buf, h.read, Or.inr ⟨rfl, by rw [hstart] at hend; exact hend, hamt⟩⟩
  · rw [heof] at hs
    simp [Status.success] at hs

end Stages

/-- What a read gives once its stages are over. -/
theorem ReadInv.finish {d : Disk} {vBuf : List UInt8} {offset : ℕ} {s : ReadState}
    (h : ReadInv d vBuf offset s) (heof : s.status = .endOfFile) :
    d.size < offset + vBuf.length ∧
      memcpy s.vBuf s.pBuf (List.replicate s.amt 0)
        = slice d.data offset (d.size - offset)
            ++ List.replicate (vBuf.length - (d.size - offset)) 0 := by
  have htotal := h.total
  obtain ⟨hnorm, -⟩ | ⟨-, hend, hamt⟩ := h.status
  · rw [hnorm] at heof
    cases heof
  · have hread : s.pBuf = d.size - offset := by have := h.read; omega
    refine ⟨by omega, ?_⟩
    have := memcpy_append (slice d.data offset s.pBuf) (vBuf.drop s.pBuf)
      (List.replicate s.amt 0)
    rw [length_slice] at this
    rw [h.buf, this, List.drop_drop, List.length_replicate, htotal, List.drop_length,
      List.append_nil, hread, show s.amt = vBuf.length - (d.size - offset) by omega]

/-- The result code and buffer `vmsRead` makes of its last state. -/
def readResult (s : ReadState) : Rc × List UInt8 :=
  if s.status = .endOfFile then
    (.ioerrShortRead, memcpy s.vBuf s.pBuf (List.replicate s.amt 0))
  else if !s.status.success then (.ioerrRead, s.vBuf)
  else (.ok, s.vBuf)

/-- The guarded tail stage of a read, and its result. -/
def readFinish (d : Disk) (s : ReadState) : Rc × List UInt8 :=
  readResult (if 0 < s.amt ∧ s.status.success then readTail d s else s)

theorem vmsRead_stages (d : Disk) (vBuf : List UInt8) (amt offset : ℕ) :
    vmsRead d vBuf amt offset =
      let s : ReadState := ⟨vBuf, 0, amt, toInt32 (offset / sectorSize + 1), .normal⟩
      let s := if offset % sectorSize ≠ 0 then readHead d (offset % sectorSize) s else s
      readFinish d (if sectorSize ≤ s.amt ∧ s.status.success then readMiddle d s else s) := by
  simp only [vmsRead, readFinish, readResult]

/-- The bytes a read has to deliver, with the result code that goes with them. -/
def readSpec (d : Disk) (amt offset : ℕ) : Rc × List UInt8 :=
  if offset + amt ≤ d.size then (.ok, slice d.data offset amt)
  else (.ioerrShortRead, slice d.data offset (d.size - offset)
          ++ List.replicate (amt - (d.size - offset)) 0)

theorem ReadInv.readFinish_eq {d : Disk} {vBuf : List UInt8} {offset : ℕ} {s : ReadState}
    (h : ReadInv d vBuf offset s) (hlen : 0 < vBuf.length)
    (hlt : s.status.success → s.amt < sectorSize) :
    readFinish d s = readSpec d vBuf.length offset := by
  have hshort : ∀ t : ReadState, ReadInv d vBuf offset t → t.status = .endOfFile →
      readResult t = readSpec d vBuf.length offset := by
    intro t ht heof
    obtain ⟨hlong, hbuf⟩ := ht.finish heof
    rw [readResult, if_pos heof, hbuf, readSpec, if_neg (by omega)]
  have hdone : ∀ t : ReadState, t.status = .normal → offset + vBuf.length ≤ d.size →
      t.vBuf = slice d.data offset vBuf.length → readResult t = readSpec d vBuf.length offset := by
    intro t ht hin hbuf
    rw [readResult, readSpec, if_pos hin, ht, hbuf]
    rfl
  by_cases hgo : 0 < s.amt ∧ s.status.success
  · rw [readFinish, if_pos hgo]
    obtain ⟨hnorm, hin, hbuf⟩ | ⟨heof, hinv⟩ := readTail_spec h hgo.1 (hlt hgo.2) hgo.2
    · exact hdone _ hnorm hin hbuf
    · exact hshort _ hinv heof
  · rw [readFinish, if_neg hgo]
    obtain ⟨hnorm, -⟩ | ⟨heof, -⟩ := h.status
    · have hs : s.status.success := by rw [hnorm]; rfl
      have hpBuf : s.pBuf = vBuf.length := by
        have := h.total
        have : ¬ 0 < s.amt := fun hc => hgo ⟨hc, hs⟩
        omega
      refine hdone _ hnorm ?_ ?_
      · have := h.read
        omega
      · rw [h.buf, hpBuf, List.drop_length, List.append_nil]
    · exact hshort _ h heof

/-- **`vmsRead`**, for a block number that fits an `int`: the bytes there are, zeros after them,
and a result code that tells the two cases apart. -/
theorem vmsRead_eq {d : Disk} {vBuf : List UInt8} {offset : ℕ} (hlen : 0 < vBuf.length)
    (hoff : offset / sectorSize + 1 < 2 ^ 31) :
    vmsRead d vBuf vBuf.length offset = readSpec d vBuf.length offset := by
  have hinv : ReadInv d vBuf offset
      (if offset % sectorSize ≠ 0 then readHead d (offset % sectorSize)
          ⟨vBuf, 0, vBuf.length, toInt32 (offset / sectorSize + 1), .normal⟩
        else ⟨vBuf, 0, vBuf.length, toInt32 (offset / sectorSize + 1), .normal⟩) := by
    by_cases hpos : offset % sectorSize ≠ 0
    · rw [if_pos hpos]
      exact readHead_inv hlen hoff
    · rw [if_neg hpos]
      refine ⟨Nat.zero_add _, rfl, Or.inl rfl, Or.inl ⟨rfl, fun _ => ⟨one_le_toInt32 hoff, ?_⟩⟩⟩
      rw [blockStart_toInt32 hoff]
      dsimp only
      omega
  rw [vmsRead_stages]
  dsimp only
  generalize (if offset % sectorSize ≠ 0 then _ else _ : ReadState) = s at hinv ⊢
  by_cases hmid : sectorSize ≤ s.amt ∧ s.status.success
  · rw [if_pos hmid]
    obtain ⟨hinv', hlt⟩ := readMiddle_inv hinv hmid.1 hmid.2
    exact hinv'.readFinish_eq hlen hlt
  · rw [if_neg hmid]
    refine hinv.readFinish_eq hlen fun hs => ?_
    by_contra hge
    exact hmid ⟨by omega, hs⟩

/-- A read inside the file returns its bytes and `SQLITE_OK`. -/
theorem vmsRead_of_le {d : Disk} {vBuf : List UInt8} {offset : ℕ} (hlen : 0 < vBuf.length)
    (hin : offset + vBuf.length ≤ d.size) :
    vmsRead d vBuf vBuf.length offset = (.ok, slice d.data offset vBuf.length) := by
  have hoff : offset / sectorSize + 1 < 2 ^ 31 := by
    have hdiv : offset / sectorSize < d.hiblk :=
      Nat.div_lt_of_lt_mul (show offset < sectorSize * d.hiblk by rw [← Disk.size]; omega)
    have := d.hiblk_lt
    omega
  rw [vmsRead_eq hlen hoff, readSpec, if_pos hin]

end OsVms

end SqliteVms

import SqliteVms.OsVms.ReadWrite

/-!
# Room for a write

Before it transfers anything `vmsWrite` extends the file to the blocks that it reckons with. The size
it asks for comes from one of four places: the chunk size, the default extension of the file, the
default of the process, or the blocks that are needed. The first two are rounded up until they are
enough. The default of the process is taken as it is, and a write that needs more finds no room.

## Main definitions

* `touchedBlocks` — the blocks that the stages of a write transfer
* `MakesRoom` — what the extension is for
* `RoomEnough` — a condition on the sizes

## Main results

* `writeStages_success_iff` — the stages succeed on the blocks that they touch
* `roundExtend_spec` — the rounding loop ends
* `makesRoom_iff` — when the extension makes room
-/

namespace SqliteVms

namespace OsVms

open Store BigEndian

/-! ### The blocks that a write touches -/

/-- The blocks of the middle and tail stages. -/
def restBlocks (bcnt vbn : ℤ) (amt : ℕ) : List ℤ :=
  if sectorSize ≤ amt then
    ((List.range (amt / sectorSize)).map fun i : ℕ => vbn + i) ++
      if 0 < amt % sectorSize then [if 0 < bcnt then vbn + (amt / sectorSize : ℕ) else vbn] else []
  else if 0 < amt then [vbn] else []

/-- The blocks of all stages, for a write of `amt` bytes from byte `vpos` of block `vbn` on. -/
def touchedBlocks (bcnt vbn : ℤ) (vpos amt : ℕ) : List ℤ :=
  if vpos ≠ 0 then
    vbn :: restBlocks (min amt (sectorSize - vpos) : ℕ) (vbn + 1) (amt - (sectorSize - vpos))
  else restBlocks bcnt vbn amt

section Stages

variable {s : WriteState} {d : Disk} {vbn bcnt : ℤ} {amt vpos : ℕ}

theorem Disk.hasBlock_put (d : Disk) (off : ℕ) (xs : List UInt8) (k : ℤ) :
    (d.put off xs).HasBlock k ↔ d.HasBlock k := Iff.rfl

/-- A transfer of whole blocks needs each of them. -/
theorem writevblk_success_iff {bytes : List UInt8} {n : ℕ} (hn : 0 < n)
    (hlen : bytes.length = sectorSize * n) :
    (d.writevblk vbn bytes).1.success ↔ ∀ i < n, d.HasBlock (vbn + i) := by
  constructor
  · intro h i hi
    obtain ⟨hone, hin, -⟩ := Disk.writevblk_of_success h
    refine ⟨by omega, ?_⟩
    rw [hlen, blockStart, Disk.size, ← Nat.mul_add] at hin
    have := Nat.le_of_mul_le_mul_left hin sectorSize_pos
    omega
  · intro h
    have hone := (h 0 hn).1
    have hlast := (h (n - 1) (by omega)).2
    refine Disk.writevblk_status (by omega) ?_
    rw [hlen, blockStart, Disk.size, ← Nat.mul_add]
    exact Nat.mul_le_mul_left _ (by omega)

theorem writeTail_success_iff (hamt : s.amt ≤ sectorSize) :
    (writeTail s).status.success ↔ s.disk.HasBlock s.vbn := by
  constructor
  · intro h
    by_contra hb
    rw [writeTail, Disk.readvblk, if_neg hb] at h
    exact absurd h (by simp [Status.success])
  · intro hb
    exact writeTail_success hb hamt

theorem tailStage_success_iff (hamt : s.amt ≤ sectorSize) (hs : s.status.success) :
    (tailStage s).status.success ↔ (0 < s.amt → s.disk.HasBlock s.vbn) := by
  rw [tailStage]
  by_cases hpos : 0 < s.amt
  · rw [if_pos ⟨hpos, hs⟩, writeTail_success_iff hamt]
    simp only [hpos, forall_const]
  · rw [if_neg (fun h => hpos h.1)]
    exact iff_of_true hs fun h => absurd h hpos

theorem writeRest_success_iff (hbuf : s.amt ≤ s.pBuf.length) (hs : s.status.success) :
    (writeRest s).status.success ↔ ∀ k ∈ restBlocks s.bcnt s.vbn s.amt, s.disk.HasBlock k := by
  have hr : s.amt % sectorSize < sectorSize := Nat.mod_lt _ sectorSize_pos
  by_cases hmid : sectorSize ≤ s.amt
  · have hlen : (s.pBuf.take (s.amt - s.amt % sectorSize)).length
        = sectorSize * (s.amt / sectorSize) := by
      rw [List.length_take, sectorSize_mul_div]
      omega
    have hmiddle : (s.disk.writevblk s.vbn (s.pBuf.take (s.amt - s.amt % sectorSize))).1.success ↔
        ∀ i < s.amt / sectorSize, s.disk.HasBlock (s.vbn + i) :=
      writevblk_success_iff (Nat.div_pos hmid sectorSize_pos) hlen
    rw [restBlocks, if_pos hmid, writeRest, if_pos ⟨hmid, hs⟩]
    by_cases hw : (s.disk.writevblk s.vbn (s.pBuf.take (s.amt - s.amt % sectorSize))).1.success
    · have hok : (writeMiddle s).status.success := by
        rw [writeMiddle, if_pos hw]
        split <;> exact hw
      obtain ⟨-, -, heq⟩ := writeMiddle_of_success hbuf hok
      have hblocks := hmiddle.mp hw
      rw [tailStage_success_iff (by rw [heq]; exact hr.le) hok, heq]
      simp only [List.forall_mem_append, List.forall_mem_map, List.mem_range, Disk.hasBlock_put]
      rw [and_iff_right hblocks, ← Int.natCast_ediv]
      by_cases hpos : 0 < s.amt % sectorSize
      · simp only [hpos, forall_const, if_true, List.forall_mem_singleton]
      · simp only [hpos, false_imp_iff, if_false, List.not_mem_nil, implies_true]
    · have hfail : ¬ (writeMiddle s).status.success := by
        rw [writeMiddle, if_neg hw]
        exact hw
      rw [tailStage_of_not_success hfail]
      refine iff_of_false hfail fun h => hw (hmiddle.mpr fun i hi => h _ ?_)
      exact List.mem_append_left _ (List.mem_map.mpr ⟨i, List.mem_range.mpr hi, rfl⟩)
  · rw [restBlocks, if_neg hmid, writeRest, if_neg (fun h => hmid h.1),
      tailStage_success_iff (by omega) hs]
    by_cases hpos : 0 < s.amt
    · simp only [hpos, forall_const, if_true, List.forall_mem_singleton]
    · simp only [hpos, false_imp_iff, if_false, List.not_mem_nil, implies_true]

/-- **A write goes through** exactly if the blocks that it touches are blocks of the file. -/
theorem writeStages_success_iff (hbuf : s.amt ≤ s.pBuf.length) (hs : s.status.success)
    (hv : vpos < sectorSize) :
    (writeStages vpos s).status.success ↔
      ∀ k ∈ touchedBlocks s.bcnt s.vbn vpos s.amt, s.disk.HasBlock k := by
  rw [writeStages_eq, touchedBlocks]
  by_cases hpos : vpos ≠ 0
  · rw [if_pos ⟨hpos, hs⟩, if_pos hpos, List.forall_mem_cons]
    by_cases hb : s.disk.HasBlock s.vbn
    · have hok := writeHead_success hb hv
      obtain ⟨-, -, heq⟩ := writeHead_of_success hv hbuf hok
      rw [writeRest_success_iff (by rw [heq]; exact (Nat.sub_le _ _).trans hbuf) hok, heq,
        and_iff_right hb]
      rfl
    · have hfail : ¬ (writeHead vpos s).status.success := by
        rw [writeHead, Disk.readvblk, if_neg hb]
        simp [Status.success]
      rw [writeRest, if_neg (fun h => hfail h.2), tailStage_of_not_success hfail]
      exact iff_of_false hfail fun h => hb h.1
  · rw [if_neg (fun h => hpos h.1), if_neg hpos, writeRest_success_iff hbuf hs]

end Stages

/-! ### The highest block -/

/-- The block of the last byte. -/
def lastBlock (vbn : ℤ) (vpos amt : ℕ) : ℤ := vbn + ((vpos + amt - 1) / sectorSize : ℕ)

section Blocks

variable {vbn bcnt : ℤ} {vpos amt n : ℕ}

theorem restBlocks_bounds (hamt : 0 < amt) :
    ∀ k ∈ restBlocks bcnt vbn amt, vbn ≤ k ∧ k ≤ vbn + ((amt - 1) / sectorSize : ℕ) := by
  intro k hk
  rw [restBlocks] at hk
  rw [sectorSize] at *
  split at hk
  · rw [List.mem_append, List.mem_map] at hk
    rcases hk with ⟨i, hi, rfl⟩ | hk
    · rw [List.mem_range] at hi
      omega
    · split at hk
      · rw [List.mem_singleton] at hk
        split at hk <;> omega
      · simp at hk
  · rw [List.mem_singleton] at hk
    omega

/-- With `bcnt` set, the first and the last of the blocks are touched. -/
theorem mem_restBlocks (hamt : 0 < amt) (hbcnt : 0 < bcnt) :
    vbn ∈ restBlocks bcnt vbn amt ∧
      vbn + ((amt - 1) / sectorSize : ℕ) ∈ restBlocks bcnt vbn amt := by
  rw [restBlocks, sectorSize]
  by_cases hmid : 512 ≤ amt
  · rw [if_pos hmid, List.mem_append, List.mem_append, List.mem_map, List.mem_map]
    refine ⟨Or.inl ⟨0, List.mem_range.mpr (by omega), by simp⟩, ?_⟩
    by_cases hr : 0 < amt % 512
    · rw [if_pos hr, if_pos hbcnt, List.mem_singleton]
      exact Or.inr (by omega)
    · exact Or.inl ⟨(amt - 1) / 512, List.mem_range.mpr (by omega), rfl⟩
  · rw [if_neg hmid, if_pos hamt, List.mem_singleton, List.mem_singleton]
    omega

/-- The blocks a write touches are there exactly if the first and the last of them are. -/
theorem touchedBlocks_iff (hv : vpos < sectorSize) :
    (∀ bcnt, ∀ k ∈ touchedBlocks bcnt vbn vpos amt, 1 ≤ k ∧ k ≤ (n : ℤ)) ↔
      (vpos = 0 ∧ amt = 0) ∨ 1 ≤ vbn ∧ lastBlock vbn vpos amt ≤ n := by
  rw [sectorSize] at hv
  constructor
  · intro h
    have h := h 1
    rw [touchedBlocks, lastBlock, sectorSize] at *
    by_cases hpos : vpos ≠ 0
    · rw [if_pos hpos, List.forall_mem_cons] at h
      refine Or.inr ⟨h.1.1, ?_⟩
      rcases Nat.eq_zero_or_pos (amt - (512 - vpos)) with hzero | hmore
      · omega
      · have := h.2 _ (mem_restBlocks hmore (by omega)).2
        rw [sectorSize] at this
        omega
    · rw [if_neg hpos] at h
      rcases Nat.eq_zero_or_pos amt with rfl | hamt
      · exact Or.inl ⟨by omega, rfl⟩
      · have hmem : vbn ∈ restBlocks 1 vbn amt ∧ _ := mem_restBlocks hamt (by decide)
        have := h _ hmem.2
        rw [sectorSize] at this
        exact Or.inr ⟨(h _ hmem.1).1, by omega⟩
  · intro h bcnt k hk
    rw [touchedBlocks, lastBlock, sectorSize] at *
    by_cases hpos : vpos ≠ 0
    · rw [if_pos hpos, List.mem_cons] at hk
      rcases hk with rfl | hk
      · omega
      rcases Nat.eq_zero_or_pos (amt - (512 - vpos)) with hzero | hmore
      · rw [hzero] at hk
        simp [restBlocks, sectorSize] at hk
      · have := restBlocks_bounds hmore k hk
        rw [sectorSize] at this
        omega
    · rw [if_neg hpos] at hk
      rcases Nat.eq_zero_or_pos amt with rfl | hamt
      · simp [restBlocks, sectorSize] at hk
      · have := restBlocks_bounds hamt k hk
        rw [sectorSize] at this
        omega

end Blocks

/-! ### The size asked for -/

/-- The loop ends after `k` rounds: the first multiple of the step that is enough. -/
structure RoundsUp (step needed exsz k : ℕ) : Prop where
  pos : 0 < k
  enough : needed ≤ exsz + k * step
  first : ∀ j, 0 < j → j < k → exsz + j * step < needed
  value : roundExtend step needed exsz = exsz + k * step

/-- **The rounding loop ends**, whatever is needed. -/
theorem roundExtend_spec {step : ℕ} (hstep : 0 < step) (needed exsz : ℕ) :
    ∃ k, RoundsUp step needed exsz k := by
  fun_induction roundExtend step needed exsz with
  | case1 exsz h ih =>
    obtain ⟨k, hk⟩ := ih
    have hmul : ∀ j, exsz + (j + 1) * step = exsz + step + j * step := fun j => by
      rw [Nat.succ_mul]
      omega
    refine ⟨k + 1, ⟨by omega, ?_, ?_, ?_⟩⟩
    · rw [hmul]
      exact hk.enough
    · intro j hj hjk
      obtain ⟨j, rfl⟩ := Nat.exists_eq_add_of_le' hj
      rw [hmul]
      rcases Nat.eq_zero_or_pos j with rfl | hj
      · omega
      · exact hk.first j hj (by omega)
    · rw [roundExtend, if_pos h, hmul, hk.value]
  | case2 exsz h =>
    refine ⟨1, ⟨by decide, by omega, fun j hj hj1 => by omega, ?_⟩⟩
    rw [roundExtend, if_neg h, Nat.one_mul]

/-- The least multiple of `step` that is `n` or more. -/
def roundBlocks (step n : ℕ) : ℕ := (n + step - 1) / step * step

theorem roundExtend_eq {step n : ℕ} (hstep : 0 < step) (hn : 0 < n) :
    roundExtend step n 0 = roundBlocks step n := by
  obtain ⟨k, hk⟩ := roundExtend_spec hstep n 0
  have henough := hk.enough
  have hlow : (k - 1) * step < n := by
    rcases Nat.eq_zero_or_pos (k - 1) with hzero | hpos
    · rw [hzero]
      omega
    · have := hk.first (k - 1) hpos (by omega)
      omega
  have hsplit : k * step = (k - 1) * step + step := by
    rw [← Nat.succ_mul]
    congr 1
    have := hk.pos
    omega
  have hdiv : (n + step - 1) / step = k := by
    refine Nat.div_eq_of_lt_le ?_ ?_
    · omega
    · rw [Nat.succ_mul]
      omega
  rw [hk.value, roundBlocks, hdiv, Nat.zero_add]

theorem le_roundBlocks {step : ℕ} (hstep : 0 < step) (n : ℕ) : n ≤ roundBlocks step n := by
  have hdiv := Nat.div_add_mod' (n + step - 1) step
  have hmod := Nat.mod_lt (n + step - 1) hstep
  rw [roundBlocks]
  omega

/-- The blocks that are asked for when `n` are needed. -/
def blocksAsked (f : VmsFile) (d : Disk) (rms n : ℕ) : ℕ :=
  if 0 < f.szChunk then roundBlocks f.szChunk.toNat n
  else if d.defext ≠ 0 then roundBlocks d.defext n
  else if rms ≠ 0 then rms
  else n

theorem extendSize_eq {f : VmsFile} {acp : Acp} {d : Disk} {n : ℕ} (hn : 0 < n) :
    extendSize f acp d n = blocksAsked f d acp.rmsExtendSize n := by
  rw [extendSize, blocksAsked]
  split
  · rw [roundExtend_eq (by omega) hn]
  split
  · rw [roundExtend_eq (by omega) hn]
  rfl

/-! ### Making room -/

/-- The file system grants what it is asked for, or more. -/
def Acp.Grants (acp : Acp) (rms : ℕ) : Prop := acp.rmsExtendSize = rms ∧ ∀ n, n ≤ acp.grant n

/-- **What the extension is for**: the loops that round it up end, and when the requests succeed the
blocks that the stages touch are blocks of the file and the end-of-file mark is just past it. -/
structure MakesRoom (f : VmsFile) (d : Disk) (rms offset amt : ℕ) : Prop where
  chunkLoop : 0 < f.szChunk → ∀ needed, ∃ k, RoundsUp f.szChunk.toNat needed 0 k
  defextLoop : 0 < d.defext → ∀ needed, ∃ k, RoundsUp d.defext needed 0 k
  room : ∀ acp : Acp, acp.Grants rms →
    let p := prepareWrite f acp d (toInt32 (offset / sectorSize + 1)) amt
    p.2.1.success → ∀ bcnt, ∀ k ∈ touchedBlocks bcnt (toInt32 (offset / sectorSize + 1))
      (offset % sectorSize) amt, p.2.2.HasBlock k
  mark : ∀ acp : Acp, acp.Grants rms →
    let p := prepareWrite f acp d (toInt32 (offset / sectorSize + 1)) amt
    p.2.1.success → (d.hiblk : ℤ) < neededBlocks f (toInt32 (offset / sectorSize + 1)) amt →
      p.2.2.efblk = p.2.2.hiblk + 1

section Room

variable {f : VmsFile} {d : Disk} {acp : Acp} {vbn : ℤ} {rms offset amt exsz : ℕ}

/-- An extension that succeeds. -/
theorem extendFile_of_success (h : (extendFile acp d exsz).1.success) :
    (extendFile acp d exsz).2.hiblk = d.hiblk + acp.grant exsz ∧
      (extendFile acp d exsz).2.efblk = d.hiblk + acp.grant exsz + 1 := by
  rw [extendFile] at h ⊢
  split
  · rename_i hfits
    rw [dif_pos hfits] at h
    dsimp only at h ⊢
    by_cases hmodify : acp.modifyStatus.success
    · rw [if_pos hmodify]
      exact ⟨rfl, by dsimp only; omega⟩
    · rw [if_neg hmodify] at h
      exact absurd h hmodify
  · rename_i hfits
    rw [dif_neg hfits] at h
    exact absurd h (by simp [Status.success])

/-- The preparation of a write that fits, and of one that does not. -/
theorem prepareWrite_eq (f : VmsFile) (d : Disk) (vbn : ℤ) (amt : ℕ)
    (hacc : acp.accessStatus.success) :
    (prepareWrite f acp d vbn amt).2 =
      if (d.hiblk : ℤ) < neededBlocks f vbn amt then
        extendFile acp d (blocksAsked f d acp.rmsExtendSize (neededBlocks f vbn amt).toNat)
      else (acp.accessStatus, d) := by
  rw [prepareWrite, if_pos hacc]
  by_cases hneed : (d.hiblk : ℤ) < neededBlocks f vbn amt
  · simp only [if_pos hneed]
    rw [extendSize_eq (by omega)]
  · simp only [if_neg hneed]

theorem accessStatus_of_success (h : (prepareWrite f acp d vbn amt).2.1.success) :
    acp.accessStatus.success := by
  by_contra hacc
  rw [prepareWrite, if_neg hacc] at h
  exact hacc h

/-- The allocation after a preparation that succeeds. -/
theorem prepareWrite_hiblk (h : (prepareWrite f acp d vbn amt).2.1.success) :
    (prepareWrite f acp d vbn amt).2.2.hiblk = d.hiblk +
      if (d.hiblk : ℤ) < neededBlocks f vbn amt then
        acp.grant (blocksAsked f d acp.rmsExtendSize (neededBlocks f vbn amt).toNat)
      else 0 := by
  have heq := prepareWrite_eq f d vbn amt (accessStatus_of_success h)
  rw [heq] at h ⊢
  by_cases hneed : (d.hiblk : ℤ) < neededBlocks f vbn amt
  · rw [if_pos hneed] at h
    rw [if_pos hneed, if_pos hneed, (extendFile_of_success h).1]
  · rw [if_neg hneed, if_neg hneed, Nat.add_zero]

/-- **The end-of-file mark** is the block just past the allocation. -/
theorem prepareWrite_efblk (h : (prepareWrite f acp d vbn amt).2.1.success)
    (hneed : (d.hiblk : ℤ) < neededBlocks f vbn amt) :
    (prepareWrite f acp d vbn amt).2.2.efblk = (prepareWrite f acp d vbn amt).2.2.hiblk + 1 := by
  have heq := prepareWrite_eq f d vbn amt (accessStatus_of_success h)
  rw [heq, if_pos hneed] at h ⊢
  rw [(extendFile_of_success h).1, (extendFile_of_success h).2]

/-- The file system that grants exactly what it is asked for. -/
def exactAcp (rms : ℕ) : Acp := ⟨.normal, .normal, .normal, rms, id⟩

theorem exactAcp_success_iff :
    (prepareWrite f (exactAcp rms) d vbn amt).2.1.success ↔
      ((d.hiblk : ℤ) < neededBlocks f vbn amt →
        d.hiblk + blocksAsked f d rms (neededBlocks f vbn amt).toNat < 2 ^ 31) := by
  have hacc : (exactAcp rms).accessStatus.success := rfl
  rw [prepareWrite_eq f d vbn amt hacc]
  by_cases hneed : (d.hiblk : ℤ) < neededBlocks f vbn amt
  · simp only [hneed, if_true, forall_const]
    by_cases hfits : d.hiblk + blocksAsked f d rms (neededBlocks f vbn amt).toNat < 2 ^ 31
    · rw [extendFile, dif_pos ⟨rfl, hfits⟩]
      exact iff_of_true rfl hfits
    · rw [extendFile, dif_neg (fun h => hfits h.2)]
      exact iff_of_false (by simp [Status.success]) hfits
  · simp only [if_neg hneed]
    exact iff_of_true rfl fun h => absurd h hneed

/-- The blocks that `n` further ones make room for, unless no file can have that many. -/
def Reaches (d : Disk) (vbn last : ℤ) (n : ℕ) : Prop :=
  2 ^ 31 ≤ d.hiblk + n ∨ 1 ≤ vbn ∧ last ≤ d.hiblk + n

/-- Room, in terms of the blocks that are reckoned with. -/
theorem room_iff (f : VmsFile) (d : Disk) (vbn : ℤ) (rms offset amt : ℕ) :
    (∀ acp : Acp, acp.Grants rms → (prepareWrite f acp d vbn amt).2.1.success →
      ∀ bcnt, ∀ k ∈ touchedBlocks bcnt vbn (offset % sectorSize) amt,
        (prepareWrite f acp d vbn amt).2.2.HasBlock k) ↔
      offset % sectorSize = 0 ∧ amt = 0 ∨
        (1 ≤ vbn ∧ lastBlock vbn (offset % sectorSize) amt ≤ d.hiblk) ∨
          (d.hiblk : ℤ) < neededBlocks f vbn amt ∧
            Reaches d vbn (lastBlock vbn (offset % sectorSize) amt)
              (blocksAsked f d rms (neededBlocks f vbn amt).toNat) := by
  have hv : offset % sectorSize < sectorSize := Nat.mod_lt _ sectorSize_pos
  constructor
  · intro h
    by_cases hfits : (d.hiblk : ℤ) < neededBlocks f vbn amt →
        d.hiblk + blocksAsked f d rms (neededBlocks f vbn amt).toNat < 2 ^ 31
    · have hsucc := exactAcp_success_iff.mpr hfits
      have hroom := (touchedBlocks_iff hv).mp (h (exactAcp rms) ⟨rfl, fun n => le_rfl⟩ hsucc)
      rw [prepareWrite_hiblk hsucc] at hroom
      rcases hroom with hnone | ⟨hone, hlast⟩
      · exact Or.inl hnone
      by_cases hneed : (d.hiblk : ℤ) < neededBlocks f vbn amt
      · rw [if_pos hneed] at hlast
        exact Or.inr (Or.inr ⟨hneed, Or.inr ⟨hone, by push_cast at hlast; exact hlast⟩⟩)
      · rw [if_neg hneed] at hlast
        exact Or.inr (Or.inl ⟨hone, hlast⟩)
    · rw [Classical.not_imp] at hfits
      exact Or.inr (Or.inr ⟨hfits.1, Or.inl (by omega)⟩)
  · intro h acp hgrants hsucc
    have hhiblk := prepareWrite_hiblk hsucc
    have hlt := (prepareWrite f acp d vbn amt).2.2.hiblk_lt
    refine (touchedBlocks_iff hv).mpr ?_
    rw [hhiblk] at hlt ⊢
    rcases h with hnone | ⟨hone, hlast⟩ | ⟨hneed, hreach⟩
    · exact Or.inl hnone
    · exact Or.inr ⟨hone, by push_cast; omega⟩
    · rw [if_pos hneed, hgrants.1] at hlt ⊢
      have hgrant := hgrants.2 (blocksAsked f d rms (neededBlocks f vbn amt).toNat)
      rcases hreach with hover | ⟨hone, hlast⟩
      · omega
      · exact Or.inr ⟨hone, by push_cast; omega⟩

/-- The sizes for which a write finds room. While the block numbers fit an `int`, they are all but
those of a file without chunk size and default extension that lacks more than the process extends by.
Beyond, the number of blocks reckoned with has wrapped around. -/
def RoomEnough (f : VmsFile) (d : Disk) (rms offset amt : ℕ) : Prop :=
  let vbn := toInt32 (offset / sectorSize + 1)
  let last := lastBlock vbn (offset % sectorSize) amt
  offset % sectorSize = 0 ∧ amt = 0 ∨
    if offset / sectorSize + amt / sectorSize + 2 < 2 ^ 31 then
      last ≤ d.hiblk ∨ 0 < f.szChunk ∨ d.defext ≠ 0 ∨ rms = 0 ∨ last ≤ d.hiblk + rms
    else
      (1 ≤ vbn ∧ last ≤ d.hiblk) ∨
        (d.hiblk : ℤ) < neededBlocks f vbn amt ∧
          Reaches d vbn last (blocksAsked f d rms (neededBlocks f vbn amt).toNat)

/-- While the numbers fit an `int`, the blocks reckoned with include the last one. -/
theorem lastBlock_le_neededBlocks (h : offset / sectorSize + amt / sectorSize + 2 < 2 ^ 31) :
    1 ≤ toInt32 (offset / sectorSize + 1) ∧
      lastBlock (toInt32 (offset / sectorSize + 1)) (offset % sectorSize) amt
        ≤ neededBlocks f (toInt32 (offset / sectorSize + 1)) amt ∧
      lastBlock (toInt32 (offset / sectorSize + 1)) (offset % sectorSize) amt < 2 ^ 31 := by
  have hv : offset % sectorSize < sectorSize := Nat.mod_lt _ sectorSize_pos
  rw [lastBlock, neededBlocks]
  rw [sectorSize] at *
  have hvbn := toInt32_of_lt (n := offset / 512 + 1) (by omega)
  have hsum := toInt32_of_lt (n := offset / 512 + 1 + amt / 512 + 1) (by omega)
  push_cast at hvbn hsum ⊢
  rw [hvbn, hsum]
  split <;> omega

theorem le_blocksAsked {n : ℕ} (h : 0 < f.szChunk ∨ d.defext ≠ 0 ∨ rms = 0) :
    n ≤ blocksAsked f d rms n := by
  rw [blocksAsked]
  split
  · exact le_roundBlocks (by omega) n
  split
  · exact le_roundBlocks (by omega) n
  · rw [if_neg (by omega)]

theorem room_iff_of_fits (h : offset / sectorSize + amt / sectorSize + 2 < 2 ^ 31) :
    ((1 ≤ toInt32 (offset / sectorSize + 1) ∧
      lastBlock (toInt32 (offset / sectorSize + 1)) (offset % sectorSize) amt ≤ d.hiblk) ∨
      (d.hiblk : ℤ) < neededBlocks f (toInt32 (offset / sectorSize + 1)) amt ∧
        Reaches d (toInt32 (offset / sectorSize + 1))
          (lastBlock (toInt32 (offset / sectorSize + 1)) (offset % sectorSize) amt)
          (blocksAsked f d rms (neededBlocks f (toInt32 (offset / sectorSize + 1)) amt).toNat)) ↔
    (lastBlock (toInt32 (offset / sectorSize + 1)) (offset % sectorSize) amt ≤ d.hiblk ∨
      0 < f.szChunk ∨ d.defext ≠ 0 ∨ rms = 0 ∨
      lastBlock (toInt32 (offset / sectorSize + 1)) (offset % sectorSize) amt ≤ d.hiblk + rms) := by
  obtain ⟨hone, hlast, hlt⟩ := lastBlock_le_neededBlocks (f := f) h
  generalize toInt32 (offset / sectorSize + 1) = vbn at *
  generalize lastBlock vbn (offset % sectorSize) amt = last at *
  generalize neededBlocks f vbn amt = need at *
  rw [Reaches]
  by_cases hthere : last ≤ d.hiblk
  · exact iff_of_true (Or.inl ⟨hone, hthere⟩) (Or.inl hthere)
  by_cases hround : 0 < f.szChunk ∨ d.defext ≠ 0 ∨ rms = 0
  · have hasked := le_blocksAsked (n := need.toNat) hround
    refine iff_of_true (Or.inr ⟨by omega, Or.inr ⟨hone, by omega⟩⟩) ?_
    tauto
  · -- the size that the process extends by is taken as it is
    have hasked : blocksAsked f d rms need.toNat = rms := by
      rw [blocksAsked, if_neg (by tauto), if_neg (by tauto), if_pos (by tauto)]
    rw [hasked]
    constructor
    · rintro (⟨-, hc⟩ | ⟨-, hover | ⟨-, hc⟩⟩)
      · exact absurd hc hthere
      · exact Or.inr (Or.inr (Or.inr (Or.inr (by omega))))
      · exact Or.inr (Or.inr (Or.inr (Or.inr hc)))
    · rintro (hc | hc | hc | hc | hc)
      · exact absurd hc hthere
      · exact absurd (Or.inl hc) hround
      · exact absurd (Or.inr (Or.inl hc)) hround
      · exact absurd (Or.inr (Or.inr hc)) hround
      · exact Or.inr ⟨by omega, Or.inr ⟨hone, hc⟩⟩

/-- **When the extension makes room**, for every file, hint, chunk size, extension and write. -/
theorem makesRoom_iff (f : VmsFile) (d : Disk) (rms offset amt : ℕ) :
    MakesRoom f d rms offset amt ↔ RoomEnough f d rms offset amt := by
  have hroom := room_iff f d (toInt32 (offset / sectorSize + 1)) rms offset amt
  suffices hcond : RoomEnough f d rms offset amt ↔ _ by
    constructor
    · intro h
      exact hcond.mpr (hroom.mp h.room)
    · intro h
      constructor
      case chunkLoop =>
        intro hpos needed
        exact roundExtend_spec (by omega) needed 0
      case defextLoop =>
        intro hpos needed
        exact roundExtend_spec hpos needed 0
      case room => exact hroom.mpr (hcond.mp h)
      case mark =>
        intro acp _ _ hsucc hneed
        exact prepareWrite_efblk hsucc hneed
  rw [RoomEnough]
  by_cases hfits : offset / sectorSize + amt / sectorSize + 2 < 2 ^ 31
  · rw [if_pos hfits, ← room_iff_of_fits hfits]
  · rw [if_neg hfits]

/-- An empty file without a default extension. -/
def emptyFile : Disk := ⟨0, 1, 0, fun _ => 0, by decide⟩

/-- Two blocks written to an empty file by a process that extends by one. -/
theorem makesRoom_fails : ¬ MakesRoom ⟨0, 0⟩ emptyFile 1 0 1024 := by
  have hvbn := toInt32_of_lt (n := 1) (by decide)
  rw [makesRoom_iff, RoomEnough, if_pos (by decide)]
  rw [show ((0 : ℕ) : ℤ) / (sectorSize : ℕ) + 1 = (1 : ℕ) from rfl, hvbn]
  decide

end Room

end OsVms

end SqliteVms

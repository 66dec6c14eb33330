import SqliteVms.Btree.Image
import SqliteVms.Util.Varint

/-!
# Decoding a b-tree page

What `btreeInitPage` reads from the header of a page, and what `btreeParseCellPtr` and
`cellSizePtr` read from a cell. A page is a function from positions to bytes; what lies behind the
last byte of the page is whatever the buffer holds there.

## Main definitions

* `decodeFlags`, `btreeInitPage`, `MemPage` — the page header
* `btreeParseCellPtr`, `cellSizePtr`, `CellInfo` — cells
* `freeblocks` — the chain of freeblocks

## Main results

* `cellSizePtr_eq` — the two decoders of a cell agree on its size
-/

namespace SqliteVms

namespace Btree

open BigEndian Util

/-- The fields of `MemPage` that decoding the page header sets. -/
structure MemPage where
  hdrOffset : ℕ
  leaf : Bool
  intKey : Bool
  hasData : Bool
  maxLocal : ℕ
  minLocal : ℕ
  nCell : ℕ
  nFree : ℕ
  aData : ℕ → UInt8

/-- `MemPage.childPtrSize`. -/
def MemPage.childPtrSize (m : MemPage) : ℕ := if m.leaf then 0 else 4

/-- `MemPage.cellOffset`. -/
def MemPage.cellOffset (m : MemPage) : ℕ := m.hdrOffset + (if m.leaf then 8 else 12)

variable (g : Geom)

/-- `BtShared.maxLocal`, `BtShared.minLocal` and `BtShared.maxLeaf`. -/
def Geom.maxLocal : ℕ := (g.usableSize - 12) * 64 / 255 - 23
@[inherit_doc Geom.maxLocal] def Geom.minLocal : ℕ := (g.usableSize - 12) * 32 / 255 - 23
@[inherit_doc Geom.maxLocal] def Geom.maxLeaf : ℕ := g.usableSize - 35

/-- `decodeFlags`: `leaf` and `intKey`, for the four flag bytes there are. -/
def decodeFlags (flagByte : ℕ) : Option (Bool × Bool) :=
  if flagByte = 0x05 then some (false, true)
  else if flagByte = 0x0d then some (true, true)
  else if flagByte = 0x02 then some (false, false)
  else if flagByte = 0x0a then some (true, false)
  else none

def get2byteNotZero (data : ℕ → UInt8) (off : ℕ) : ℕ :=
  if get2 data off = 0 then 65536 else get2 data off

/-- The loop of `btreeInitPage` over the freeblocks. The positions ascend, so that a page has
fewer freeblocks than bytes. -/
def sumFreeblocks (data : ℕ → UInt8) (iCellFirst iCellLast : ℕ) : ℕ → ℕ → ℕ → Option ℕ
  | 0, _, _ => none
  | fuel + 1, pc, nFree =>
    if pc = 0 then some nFree
    else if pc < iCellFirst ∨ iCellLast < pc then none
    else
      let next := get2 data pc
      let size := get2 data (pc + 2)
      if (0 < next ∧ next ≤ pc + size + 3) ∨ g.usableSize < pc + size then none
      else sumFreeblocks data iCellFirst iCellLast fuel next (nFree + size)

/-- `btreeInitPage`, with `none` for `SQLITE_CORRUPT`. -/
def btreeInitPage (pgno : ℕ) (data : ℕ → UInt8) : Option MemPage :=
  let hdr := if pgno = 1 then 100 else 0
  match decodeFlags (data hdr).toNat with
  | none => none
  | some (leaf, intKey) =>
    let cellOffset := hdr + (if leaf then 8 else 12)
    let top := get2byteNotZero data (hdr + 5)
    let nCell := get2 data (hdr + 3)
    if (g.pageSize - 8) / 6 < nCell then none
    else
      let iCellFirst := cellOffset + 2 * nCell
      match sumFreeblocks g data iCellFirst (g.usableSize - 4) (g.usableSize + 1)
        (get2 data (hdr + 1)) ((data (hdr + 7)).toNat + top) with
      | none => none
      | some nFree =>
        if g.usableSize < nFree then none
        else some
          { hdrOffset := hdr
            leaf := leaf
            intKey := intKey
            hasData := intKey && leaf
            maxLocal := if intKey then g.maxLeaf else g.maxLocal
            minLocal := g.minLocal
            nCell := nCell
            nFree := (((nFree : ℤ) - iCellFirst) % 65536).toNat
            aData := data }

structure CellInfo where
  nKey : ℤ
  nData : ℕ
  nPayload : ℕ
  nHeader : ℕ
  nLocal : ℕ
  iOverflow : ℕ
  nSize : ℕ

/-- The payload kept on the page when `nPayload` does not fit. -/
def spillLocal (m : MemPage) (nPayload : ℕ) : ℕ :=
  let surplus := m.minLocal + (nPayload - m.minLocal) % (g.usableSize - 4)
  if surplus ≤ m.maxLocal then surplus else m.minLocal

/-- The payload size of a cell and where it ends, before the key of a table cell. -/
def payloadSize (m : MemPage) (pCell : ℕ → UInt8) : ℕ × ℕ :=
  if m.intKey = true ∧ m.hasData = false then (0, m.childPtrSize)
  else
    let v := getVarint32 fun i => pCell (m.childPtrSize + i)
    (v.1.toNat, m.childPtrSize + v.2)

def btreeParseCellPtr (m : MemPage) (pCell : ℕ → UInt8) : CellInfo :=
  let nPayload := (payloadSize m pCell).1
  let n₀ := (payloadSize m pCell).2
  let key := sqlite3GetVarint fun i => pCell (n₀ + i)
  let n := if m.intKey then n₀ + key.2 else n₀
  let nKey : ℤ := if m.intKey then Int.bmod key.1.toNat (2 ^ 64) else nPayload
  let nData := if m.intKey then nPayload else 0
  if nPayload ≤ m.maxLocal then
    { nKey := nKey
      nData := nData
      nPayload := nPayload
      nHeader := n
      nLocal := nPayload % 65536
      iOverflow := 0
      nSize := if (n + nPayload) % 65536 < 4 then 4 else (n + nPayload) % 65536 }
  else
    { nKey := nKey
      nData := nData
      nPayload := nPayload
      nHeader := n
      nLocal := spillLocal g m nPayload % 65536
      iOverflow := (spillLocal g m nPayload + n) % 65536
      nSize := ((spillLocal g m nPayload + n) % 65536 + 4) % 65536 }

def cellSizePtr (m : MemPage) (pCell : ℕ → UInt8) : ℕ :=
  let nPayload := (payloadSize m pCell).1
  let n₀ := (payloadSize m pCell).2
  let pIter := if m.intKey then n₀ + skipVarint (fun i => pCell (n₀ + i)) 9 0 else n₀
  let nSize := if m.maxLocal < nPayload then spillLocal g m nPayload + 4 else nPayload
  (if nSize + pIter < 4 then 4 else nSize + pIter) % 65536

/-- The position of cell `i`, as `findCell` takes it. -/
def findCell (m : MemPage) (i : ℕ) : ℕ :=
  (g.pageSize - 1) &&& get2 m.aData (m.cellOffset + 2 * i)

/-- The bytes of cell `i`. -/
def cellAt (m : MemPage) (i : ℕ) : ℕ → UInt8 := fun j => m.aData (findCell g m i + j)

/-- The freeblocks of a page, position and size, from position `pc` on. -/
def freeblocks (data : ℕ → UInt8) : ℕ → ℕ → List (ℕ × ℕ)
  | 0, _ => []
  | fuel + 1, pc =>
    if pc = 0 then [] else (pc, get2 data (pc + 2)) :: freeblocks data fuel (get2 data pc)

/-! ### The two decoders agree -/

theorem skipVarint_le (p : ℕ → UInt8) (left i : ℕ) : skipVarint p left i ≤ i + left := by
  induction left generalizing i with
  | zero => rfl
  | succ left ih =>
    have := ih (i + 1)
    rw [skipVarint]
    split <;> omega

theorem getVarint32_length_le (p : ℕ → UInt8) : (getVarint32 p).2 ≤ 9 := by
  have hlen : (sqlite3GetVarint p).2 ≤ 9 := by
    rw [sqlite3GetVarint_length]
    exact skipVarint_le p 9 0
  rw [getVarint32]
  split
  · exact (show 1 ≤ 9 by decide)
  · rw [sqlite3GetVarint32]
    split
    · exact (show 2 ≤ 9 by decide)
    · dsimp only
      split
      · exact (show 3 ≤ 9 by decide)
      · exact hlen

theorem payloadSize_length_le (m : MemPage) (pCell : ℕ → UInt8) : (payloadSize m pCell).2 ≤ 13 := by
  have hchild : m.childPtrSize ≤ 4 := by
    rw [MemPage.childPtrSize]
    split <;> omega
  have hlen := getVarint32_length_le fun i => pCell (m.childPtrSize + i)
  rw [payloadSize]
  split
  · omega
  · dsimp only
    omega

/-- The bounds on what a page keeps of a payload. -/
structure MemPage.LocalBounds (g : Geom) (m : MemPage) : Prop where
  max_le : m.maxLocal ≤ g.usableSize - 35
  min_le : m.minLocal ≤ m.maxLocal

variable {g}

theorem MemPage.LocalBounds.spillLocal_le {m : MemPage} (h : m.LocalBounds g) (nPayload : ℕ) :
    spillLocal g m nPayload ≤ m.maxLocal := by
  have := h.min_le
  rw [spillLocal]
  split <;> omega

variable (g) in
/-- The length of the header of a cell. -/
def headerSize (m : MemPage) (pCell : ℕ → UInt8) : ℕ := (btreeParseCellPtr g m pCell).nHeader

theorem headerSize_eq (m : MemPage) (pCell : ℕ → UInt8) :
    headerSize g m pCell = if m.intKey = true
      then (payloadSize m pCell).2 + skipVarint (fun i => pCell ((payloadSize m pCell).2 + i)) 9 0
      else (payloadSize m pCell).2 := by
  rw [headerSize, btreeParseCellPtr, ← sqlite3GetVarint_length]
  split <;> rfl

theorem headerSize_le (m : MemPage) (pCell : ℕ → UInt8) : headerSize g m pCell ≤ 22 := by
  have hn := payloadSize_length_le m pCell
  have hkey := skipVarint_le (fun i => pCell ((payloadSize m pCell).2 + i)) 9 0
  rw [headerSize_eq]
  split <;> omega

/-- A cell that fits. -/
theorem nSize_local {m : MemPage} {pCell : ℕ → UInt8}
    (h : (payloadSize m pCell).1 ≤ m.maxLocal) : (btreeParseCellPtr g m pCell).nSize =
      if (headerSize g m pCell + (payloadSize m pCell).1) % 65536 < 4 then 4
      else (headerSize g m pCell + (payloadSize m pCell).1) % 65536 := by
  rw [headerSize, btreeParseCellPtr]
  rw [if_pos h]

/-- A cell that spills. -/
theorem nSize_spill {m : MemPage} {pCell : ℕ → UInt8}
    (h : m.maxLocal < (payloadSize m pCell).1) : (btreeParseCellPtr g m pCell).nSize =
      ((spillLocal g m (payloadSize m pCell).1 + headerSize g m pCell) % 65536 + 4) % 65536 := by
  rw [headerSize, btreeParseCellPtr]
  rw [if_neg (by omega)]

/-- **The two decoders of a cell agree on its size.** -/
theorem cellSizePtr_eq {m : MemPage} (h : m.LocalBounds g) (pCell : ℕ → UInt8) :
    cellSizePtr g m pCell = (btreeParseCellPtr g m pCell).nSize := by
  have hmax := h.max_le
  have hpage := g.usable_le.trans g.page_le
  have hge := g.usable_ge
  have hspill := h.spillLocal_le (payloadSize m pCell).1
  have hhdr := headerSize_le (g := g) m pCell
  rw [cellSizePtr]
  rw [← headerSize_eq (g := g)]
  rcases Nat.lt_or_ge m.maxLocal (payloadSize m pCell).1 with hP | hP
  · rw [nSize_spill hP, if_pos hP, if_neg (by omega)]
    omega
  · rw [nSize_local hP, if_neg (show ¬ m.maxLocal < (payloadSize m pCell).1 by omega),
      Nat.add_comm (headerSize g m pCell)]
    split_ifs <;> omega

/-- A decoded page keeps its bounds. -/
theorem btreeInitPage_localBounds {pgno : ℕ} {data : ℕ → UInt8} {m : MemPage}
    (h : btreeInitPage g pgno data = some m) : m.LocalBounds g := by
  have hge := g.usable_ge
  rw [btreeInitPage] at h
  generalize (if pgno = 1 then 100 else 0) = hdr at h
  split at h
  · exact absurd h (by simp)
  rename_i leaf intKey _
  generalize (if leaf = true then 8 else 12) = first at h
  dsimp only at h
  split at h
  · exact absurd h (by simp)
  split at h
  · exact absurd h (by simp)
  split at h
  · exact absurd h (by simp)
  obtain rfl := Option.some.inj h
  constructor <;> dsimp only <;> rw [Geom.maxLeaf, Geom.maxLocal]
  · split <;> omega
  · rw [Geom.minLocal]
    split <;> omega

theorem nPayload_eq (m : MemPage) (pCell : ℕ → UInt8) :
    (btreeParseCellPtr g m pCell).nPayload = (payloadSize m pCell).1 := by
  rw [btreeParseCellPtr]
  split <;> rfl

theorem nLocal_local {m : MemPage} {pCell : ℕ → UInt8}
    (h : (payloadSize m pCell).1 ≤ m.maxLocal) :
    (btreeParseCellPtr g m pCell).nLocal = (payloadSize m pCell).1 % 65536 := by
  rw [btreeParseCellPtr, if_pos h]

theorem iOverflow_spill {m : MemPage} {pCell : ℕ → UInt8}
    (h : m.maxLocal < (payloadSize m pCell).1) : (btreeParseCellPtr g m pCell).iOverflow =
      (spillLocal g m (payloadSize m pCell).1 + headerSize g m pCell) % 65536 := by
  rw [headerSize, btreeParseCellPtr, if_neg (by omega)]

/-- What overflows does so behind its header and its local part. -/
theorem nSize_of_overflow {m : MemPage} (h : m.LocalBounds g) {pCell : ℕ → UInt8}
    (hov : (btreeParseCellPtr g m pCell).nLocal < (btreeParseCellPtr g m pCell).nPayload) :
    (btreeParseCellPtr g m pCell).nSize = (btreeParseCellPtr g m pCell).iOverflow + 4 := by
  have hmax := h.max_le
  have hpage := g.usable_le.trans g.page_le
  have hspill := h.spillLocal_le (payloadSize m pCell).1
  have hhdr := headerSize_le (g := g) m pCell
  rw [nPayload_eq] at hov
  rcases Nat.lt_or_ge m.maxLocal (payloadSize m pCell).1 with hP | hP
  · rw [nSize_spill hP, iOverflow_spill hP]
    omega
  · rw [nLocal_local hP] at hov
    omega

theorem findCell_eq {m : MemPage} {i : ℕ} (h : get2 m.aData (m.cellOffset + 2 * i) < g.pageSize) :
    findCell g m i = get2 m.aData (m.cellOffset + 2 * i) := by
  obtain ⟨k, hk⟩ := g.page_pow
  rw [hk] at h
  rw [findCell, hk, Nat.and_comm, Nat.and_two_pow_sub_one_eq_mod, Nat.mod_eq_of_lt h]

end Btree

end SqliteVms

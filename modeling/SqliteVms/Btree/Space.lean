import SqliteVms.Btree.Page

/-!
# The space on a b-tree page

The routines that allocate and free space on a page, and those that insert a cell and remove one. What
a routine reads or writes of the page is checked: an access that is not between the first byte of the
page and its usable size is a fault.

The pager is taken to give write access to a page whenever it is asked, and the entry that `insertCell`
makes in the pointer map, on another page, is left out.

## Main definitions

* `defragmentPage` — all cells at the end of the page
* `allocateSpace`, `freeSpace` — from the freeblocks and the gap, and back
* `insertCell`, `dropCell` — a cell and its pointer
-/

namespace SqliteVms

namespace Btree

open Store BigEndian

/-- How a routine ends when it does not return `SQLITE_OK`: with `SQLITE_CORRUPT`, by an access that
is outside of the page, or not within the number of rounds that it is given. -/
inductive Fault
  | corrupt
  | outside
  | endless
  deriving DecidableEq, Repr

variable (g : Geom)

/-- A byte of the page. -/
def load (data : ℕ → UInt8) (off : ℕ) : Except Fault UInt8 :=
  if off < g.usableSize then .ok (data off) else .error .outside

/-- Some bytes of the page. -/
def loads (data : ℕ → UInt8) (off n : ℕ) : Except Fault (List UInt8) :=
  if off + n ≤ g.usableSize then .ok (slice data off n) else .error .outside

/-- `get2byte`. -/
def load2 (data : ℕ → UInt8) (off : ℕ) : Except Fault ℕ :=
  if off + 2 ≤ g.usableSize then .ok (get2 data off) else .error .outside

/-- Bytes are written to the page. -/
def store (data : ℕ → UInt8) (off : ℕ) (xs : List UInt8) : Except Fault (ℕ → UInt8) :=
  if off + xs.length ≤ g.usableSize then .ok (blit data off xs) else .error .outside

/-- `put2byte`. -/
def store2 (data : ℕ → UInt8) (off v : ℕ) : Except Fault (ℕ → UInt8) := store g data off (bytes2 v)

/-- `get2byteNotZero`. -/
def load2NotZero (data : ℕ → UInt8) (off : ℕ) : Except Fault ℕ := do
  let v ← load2 g data off
  return if v = 0 then 65536 else v

/-- The end of the cell pointer array. -/
def MemPage.iCellFirst (m : MemPage) : ℕ := m.cellOffset + 2 * m.nCell

/-- `cellSizePtr` of the cell at `pc` in the copy of the page. A parse reads at most 22 bytes, and may
go on 18 bytes behind the usable part. -/
def cellSizeAt (m : MemPage) (temp : ℕ → UInt8) (pc : ℕ) : Except Fault ℕ :=
  if pc + 22 ≤ g.usableSize + 18 then .ok (cellSizePtr g m fun j => temp (pc + j))
  else .error .outside

/-- The loop of `defragmentPage`, at cell `i` with `n` cells to go. -/
def defragmentCells (m : MemPage) (temp : ℕ → UInt8) :
    ℕ → ℕ → ℕ → (ℕ → UInt8) → Except Fault (ℕ × (ℕ → UInt8))
  | 0, _, cbrk, data => .ok (cbrk, data)
  | n + 1, i, cbrk, data => do
    let pc ← load2 g data (m.cellOffset + 2 * i)
    if pc < m.iCellFirst ∨ g.usableSize - 4 < pc then .error .corrupt
    else
      let size ← cellSizeAt g m temp pc
      if cbrk < m.iCellFirst + size ∨ g.usableSize < pc + size then .error .corrupt
      else
        let data ← store g data (cbrk - size) (slice temp pc size)
        let data ← store2 g data (m.cellOffset + 2 * i) (cbrk - size)
        defragmentCells m temp n (i + 1) (cbrk - size) data

/-- `defragmentPage`, with the temporary buffer of the pager as it is found. -/
def defragmentPage (temp : ℕ → UInt8) (m : MemPage) : Except Fault MemPage := do
  let hdr := m.hdrOffset
  let top ← load2 g m.aData (hdr + 5)
  if g.usableSize < top then .error .outside
  else
    let temp := fun p => if top ≤ p ∧ p < g.usableSize then m.aData p else temp p
    let (cbrk, data) ← defragmentCells g m temp m.nCell 0 g.usableSize m.aData
    let data ← store2 g data (hdr + 5) cbrk
    let data ← store g data (hdr + 1) [0]
    let data ← store g data (hdr + 2) [0]
    let data ← store g data (hdr + 7) [0]
    let data ← store g data m.iCellFirst (List.replicate (cbrk - m.iCellFirst) 0)
    if cbrk - m.iCellFirst ≠ m.nFree then .error .corrupt
    else .ok { m with aData := data }

/-- The search of `allocateSpace` for a freeblock that is large enough, with the link at `addr`. -/
def findSlot (m : MemPage) (nByte nFrag : ℕ) : ℕ → ℕ → Except Fault (Option (MemPage × ℕ))
  | 0, _ => .error .endless
  | fuel + 1, addr => do
    let pc ← load2 g m.aData addr
    if pc = 0 then .ok none
    else if g.usableSize - 4 < pc ∨ pc < addr + 4 then .error .corrupt
    else
      let size ← load2 g m.aData (pc + 2)
      if nByte ≤ size then
        let x := size - nByte
        if x < 4 then
          let next ← loads g m.aData pc 2
          let data ← store g m.aData addr next
          let data ← store g data (m.hdrOffset + 7) [UInt8.ofNat (nFrag + x)]
          .ok (some ({ m with aData := data }, pc + x))
        else if g.usableSize < size + pc then .error .corrupt
        else
          let data ← store2 g m.aData (pc + 2) x
          .ok (some ({ m with aData := data }, pc + x))
      else findSlot m nByte nFrag fuel pc

/-- The end of `allocateSpace`: the space is taken from the gap, with `top` where it ends. -/
def takeGap (m : MemPage) (nByte top : ℕ) : Except Fault (MemPage × ℕ) :=
  if top < nByte then .error .outside
  else do
    let data ← store2 g m.aData (m.hdrOffset + 5) (top - nByte)
    .ok ({ m with aData := data }, top - nByte)

/-- The check of `allocateSpace` that the gap has room, or else the page is defragmented. -/
def allocateGap (temp : ℕ → UInt8) (m : MemPage) (nByte top : ℕ) :
    Except Fault (MemPage × ℕ) :=
  if top < m.iCellFirst + 2 + nByte then do
    let m ← defragmentPage g temp m
    let top ← load2NotZero g m.aData (m.hdrOffset + 5)
    takeGap g m nByte top
  else takeGap g m nByte top

/-- `allocateSpace`: the page, and `*pIdx`. -/
def allocateSpace (temp : ℕ → UInt8) (m : MemPage) (nByte : ℕ) :
    Except Fault (MemPage × ℕ) := do
  let hdr := m.hdrOffset
  let nFrag ← load g m.aData (hdr + 7)
  let gap := m.iCellFirst
  let top ← load2NotZero g m.aData (hdr + 5)
  if top < gap then .error .corrupt
  else if 60 ≤ nFrag.toNat then
    let m ← defragmentPage g temp m
    let top ← load2NotZero g m.aData (hdr + 5)
    allocateGap g temp m nByte top
  else if gap + 2 ≤ top then
    let slot ← findSlot g m nByte nFrag.toNat g.usableSize (hdr + 1)
    match slot with
    | some slot => .ok slot
    | none => allocateGap g temp m nByte top
  else allocateGap g temp m nByte top

/-- The loop of `freeSpace` that looks for the place of the block in the list: the link before it, and
the block behind it. -/
def findGap (data : ℕ → UInt8) (start : ℕ) : ℕ → ℕ → Except Fault (ℕ × ℕ)
  | 0, _ => .error .endless
  | fuel + 1, addr => do
    let pbegin ← load2 g data addr
    if pbegin < start ∧ 0 < pbegin then
      if pbegin < addr + 4 then .error .corrupt else findGap data start fuel pbegin
    else .ok (addr, pbegin)

/-- The loop of `freeSpace` that puts adjacent freeblocks together. -/
def coalesce (hdr : ℕ) : ℕ → ℕ → (ℕ → UInt8) → Except Fault (ℕ → UInt8)
  | 0, _, _ => .error .endless
  | fuel + 1, addr, data => do
    let pbegin ← load2 g data addr
    if pbegin = 0 then .ok data
    else
      let pnext ← load2 g data pbegin
      let psize ← load2 g data (pbegin + 2)
      if pnext ≤ pbegin + psize + 3 ∧ 0 < pnext then
        let nFrag ← load g data (hdr + 7)
        let frag := pnext - (pbegin + psize)
        if pnext < pbegin + psize ∨ nFrag.toNat < frag then .error .corrupt
        else
          let data ← store g data (hdr + 7) [nFrag - UInt8.ofNat frag]
          let x ← load2 g data pnext
          let data ← store2 g data pbegin x
          let size ← load2 g data (pnext + 2)
          let data ← store2 g data (pbegin + 2) (pnext + size - pbegin)
          coalesce hdr fuel addr data
      else coalesce hdr fuel pbegin data

/-- The end of `freeSpace`: a freeblock at the start of the content area joins the gap. -/
def dropFirst (hdr : ℕ) (data : ℕ → UInt8) : Except Fault (ℕ → UInt8) := do
  let free ← loads g data (hdr + 1) 2
  let top ← loads g data (hdr + 5) 2
  if free = top then
    let pbegin ← load2 g data (hdr + 1)
    let next ← loads g data pbegin 2
    let data ← store g data (hdr + 1) next
    let top ← load2 g data (hdr + 5)
    let size ← load2 g data (pbegin + 2)
    store2 g data (hdr + 5) (top + size)
  else .ok data

/-- What is freed is overwritten with zeros, with `BTS_SECURE_DELETE`. -/
def eraseFreed (data : ℕ → UInt8) (start size : ℕ) : Except Fault (ℕ → UInt8) :=
  if g.secureDelete then store g data start (List.replicate size 0) else .ok data

/-- `freeSpace`, with at most `fuel` rounds of its loops. -/
def freeSpace (fuel : ℕ) (m : MemPage) (start size : ℕ) : Except Fault MemPage := do
  let hdr := m.hdrOffset
  let data ← eraseFreed g m.aData start size
  let (addr, pbegin) ← findGap g data start fuel (hdr + 1)
  if g.usableSize - 4 < pbegin then .error .corrupt
  else
    let data ← store2 g data addr start
    let data ← store2 g data start pbegin
    let data ← store2 g data (start + 2) size
    let data ← coalesce g hdr fuel (hdr + 1) data
    let data ← dropFirst g hdr data
    .ok { m with aData := data, nFree := (m.nFree + size % 65536) % 65536 }

/-- The loop of `dropCell` that moves `n` cell pointers down, the first one to `ptr`. -/
def shiftDown (data : ℕ → UInt8) : ℕ → ℕ → Except Fault (ℕ → UInt8)
  | 0, _ => .ok data
  | n + 1, ptr => do
    let next ← loads g data (ptr + 2) 2
    let data ← store g data ptr next
    shiftDown data n (ptr + 2)

def dropCell (fuel : ℕ) (m : MemPage) (idx sz : ℕ) : Except Fault MemPage := do
  let hdr := m.hdrOffset
  let ptr := m.cellOffset + 2 * idx
  let pc ← load2 g m.aData ptr
  let top ← load2 g m.aData (hdr + 5)
  if pc < top ∨ g.usableSize < pc + sz then .error .corrupt
  else
    let m ← freeSpace g fuel m pc sz
    let data ← shiftDown g m.aData (m.nCell - 1 - idx) ptr
    let data ← store2 g data (hdr + 3) (m.nCell - 1)
    .ok { m with aData := data, nCell := m.nCell - 1, nFree := (m.nFree + 2) % 65536 }

/-- The loop of `insertCell` that moves `n` cell pointers up, the last one to `ptr`. -/
def shiftUp (data : ℕ → UInt8) : ℕ → ℕ → Except Fault (ℕ → UInt8)
  | 0, _ => .ok data
  | n + 1, ptr => do
    let prev ← loads g data (ptr - 2) 2
    let data ← store g data ptr prev
    shiftUp data n (ptr - 2)

/-- The bytes of the cell that `insertCell` is given, with the child pointer that replaces the first
four of them. -/
def newCell (pCell : ℕ → UInt8) (sz iChild : ℕ) : List UInt8 :=
  if iChild = 0 then slice pCell 0 sz else bytes4 iChild ++ slice pCell 4 (sz - 4)

/-- The cell is copied to the page, with the child pointer when there is one. -/
def storeCell (data : ℕ → UInt8) (idx : ℕ) (pCell : ℕ → UInt8) (sz iChild : ℕ) :
    Except Fault (ℕ → UInt8) :=
  if iChild = 0 then store g data idx (slice pCell 0 sz)
  else do
    let data ← store g data (idx + 4) (slice pCell 4 (sz - 4))
    store g data idx (bytes4 iChild)

/-- Where `insertCell` leaves the cell: on the page, or with the cells that overflow it. -/
inductive Inserted
  | page (m : MemPage)
  | overflow (cell : List UInt8)

/-- `insertCell`, for a page without cells that overflow it. -/
def insertCell (temp : ℕ → UInt8) (m : MemPage) (i : ℕ) (pCell : ℕ → UInt8) (sz iChild : ℕ) :
    Except Fault Inserted :=
  if m.nFree < sz + 2 then .ok (.overflow (newCell pCell sz iChild))
  else do
    let cellOffset := m.cellOffset
    let fin := cellOffset + 2 * m.nCell
    let ins := cellOffset + 2 * i
    let (m, idx) ← allocateSpace g temp m sz
    let data ← storeCell g m.aData idx pCell sz iChild
    let data ← shiftUp g data (m.nCell - i) fin
    let data ← store2 g data ins idx
    let data ← store2 g data (m.hdrOffset + 3) (m.nCell + 1)
    .ok (.page { m with
      aData := data
      nCell := m.nCell + 1
      nFree := m.nFree - (2 + sz) })

end Btree

end SqliteVms

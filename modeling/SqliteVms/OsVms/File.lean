import SqliteVms.Lib.BigEndian

/-!
# Files as 512-byte blocks: `vmsRead` and `vmsWrite`

The OpenVMS layer of `os_vms.c` sees a file through `sys$qiow`, which moves whole 512-byte
virtual blocks numbered from 1. `vmsRead` and `vmsWrite` put byte addressing on top of that: a
head, a middle and a tail stage, each guarded by the status the previous one left behind.

## What the device is

`Disk` is the volume's side of one file: the number of allocated blocks, the end-of-file mark
and the default extension kept in its attributes, and the bytes. The bytes are a total function.
What it holds past the allocation is what an extension of the file would find there, so an
extension reveals blocks and changes no byte.

C `int` variables that start from a 64-bit offset go through `toInt32`. The local `bcnt` of
`vmsWrite` is not initialised in the source, so its first value is an argument here.

## Main definitions

* `Disk`, `Disk.readvblk`, `Disk.writevblk` — the block device behind `sys$qiow`
* `vmsRead`, `vmsWrite` — the two I/O methods, stage by stage
* `vmsFileSize`, `vmsTruncate` — the allocation, read and cut back
-/

namespace SqliteVms

namespace OsVms

open BigEndian

/-- `SQLITE_DEFAULT_SECTOR_SIZE`, as the build's configuration header sets it. -/
def sectorSize : ℕ := 512

/-- The condition values the code distinguishes. -/
inductive Status
  | normal
  | endOfFile
  | error
  deriving DecidableEq, Repr

/-- `$VMS_STATUS_SUCCESS`. -/
def Status.success : Status → Bool
  | .normal => true
  | _ => false

/-- The result codes the I/O methods return. -/
inductive Rc
  | ok
  | ioerrRead
  | ioerrShortRead
  | ioerrWrite
  deriving DecidableEq, Repr

/-- One file as the volume keeps it. -/
structure Disk where
  /-- Allocated blocks, the attribute pair `fat$w_hiblkh`, `fat$w_hiblkl`. -/
  hiblk : ℕ
  /-- The end-of-file block, `fat$w_efblkh`, `fat$w_efblkl`. -/
  efblk : ℕ
  /-- The default extension, `fat$w_defext`. -/
  defext : ℕ
  /-- The bytes, by file offset. -/
  data : ℕ → UInt8
  hiblk_lt : hiblk < 2 ^ 31

/-- Bytes below the allocation. -/
def Disk.size (d : Disk) : ℕ := sectorSize * d.hiblk

/-- The byte offset at which virtual block `vbn` starts. -/
def blockStart (vbn : ℤ) : ℕ := sectorSize * (vbn - 1).toNat

/-- Block `vbn` is one of the allocated blocks. -/
def Disk.HasBlock (d : Disk) (vbn : ℤ) : Prop := 1 ≤ vbn ∧ vbn ≤ d.hiblk

instance (d : Disk) (vbn : ℤ) : Decidable (d.HasBlock vbn) := inferInstanceAs (Decidable (_ ∧ _))

/-- `IO$_READVBLK` of `n` bytes from block `vbn` on. A transfer that starts inside the file moves
what there is up to the end; one that starts past it moves nothing. -/
def Disk.readvblk (d : Disk) (vbn : ℤ) (n : ℕ) : Status × List UInt8 :=
  if d.HasBlock vbn then
    (.normal, Store.slice d.data (blockStart vbn) (min n (d.size - blockStart vbn)))
  else (.endOfFile, [])

/-- `IO$_WRITEVBLK` of whole blocks from block `vbn` on. -/
def Disk.writevblk (d : Disk) (vbn : ℤ) (bytes : List UInt8) : Status × Disk :=
  if 1 ≤ vbn ∧ blockStart vbn + bytes.length ≤ d.size then
    (.normal, { d with data := Store.blit d.data (blockStart vbn) bytes })
  else (.endOfFile, d)

/-- `memcpy` of `src` to position `pos` of the buffer `dst`. -/
def memcpy (dst : List UInt8) (pos : ℕ) (src : List UInt8) : List UInt8 :=
  dst.take pos ++ src ++ dst.drop (pos + src.length)

/-! ### `vmsRead` -/

/-- The locals of `vmsRead`: the caller's buffer, the distance `pBuf` has advanced into it, the
bytes left, the next block and the last status. -/
structure ReadState where
  vBuf : List UInt8
  pBuf : ℕ
  amt : ℕ
  vbn : ℤ
  status : Status

/-- The first stage, taken when the offset is not on a block boundary. -/
def readHead (d : Disk) (vpos : ℕ) (s : ReadState) : ReadState :=
  let r := d.readvblk s.vbn sectorSize
  if r.1.success then
    let bcnt := min s.amt (sectorSize - vpos)
    { vBuf := memcpy s.vBuf s.pBuf ((r.2.drop vpos).take bcnt), pBuf := s.pBuf + bcnt,
      amt := s.amt - bcnt, vbn := s.vbn + 1, status := r.1 }
  else { s with vbn := s.vbn + 1, status := r.1 }

/-- The whole blocks in the middle, read straight into the caller's buffer. -/
def readMiddle (d : Disk) (s : ReadState) : ReadState :=
  let remainder := s.amt % sectorSize
  let r := d.readvblk s.vbn (s.amt - remainder)
  if r.1.success then
    let vBuf := memcpy s.vBuf s.pBuf r.2
    if r.2.length < s.amt - remainder then
      { vBuf := vBuf, pBuf := s.pBuf + r.2.length, amt := s.amt - r.2.length,
        vbn := s.vbn + (r.2.length / sectorSize : ℕ), status := .endOfFile }
    else
      { vBuf := vBuf, pBuf := s.pBuf + (s.amt - remainder), amt := remainder,
        vbn := s.vbn + ((s.amt - remainder) / sectorSize : ℕ), status := r.1 }
  else { s with status := r.1 }

/-- The bytes of the last, partial block. -/
def readTail (d : Disk) (s : ReadState) : ReadState :=
  let r := d.readvblk s.vbn sectorSize
  if r.1.success then
    { s with vBuf := memcpy s.vBuf s.pBuf (r.2.take s.amt), status := r.1 }
  else { s with status := r.1 }

/-- `vmsRead`: `amt` bytes at `offset` into `vBuf`. -/
def vmsRead (d : Disk) (vBuf : List UInt8) (amt offset : ℕ) : Rc × List UInt8 :=
  let vpos := offset % sectorSize
  let s : ReadState := ⟨vBuf, 0, amt, toInt32 (offset / sectorSize + 1), .normal⟩
  let s := if vpos ≠ 0 then readHead d vpos s else s
  let s := if sectorSize ≤ s.amt ∧ s.status.success then readMiddle d s else s
  let s := if 0 < s.amt ∧ s.status.success then readTail d s else s
  if s.status = .endOfFile then
    (.ioerrShortRead, memcpy s.vBuf s.pBuf (List.replicate s.amt 0))
  else if !s.status.success then (.ioerrRead, s.vBuf)
  else (.ok, s.vBuf)

/-! ### Extending the file before a write -/

/-- The fields of `vmsFile` that steer the extension. -/
structure VmsFile where
  szChunk : ℤ
  szHint : ℤ
  deriving DecidableEq, Repr

/-- What the file system and the process answer during one `vmsWrite`: the statuses of the three
attribute requests, the process's `JPI$_RMS_EXTEND_SIZE`, and the number of blocks a request for
`n` further blocks is given. -/
structure Acp where
  accessStatus : Status
  extendStatus : Status
  modifyStatus : Status
  rmsExtendSize : ℕ
  grant : ℕ → ℕ

/-- The do-while loop that rounds the extension up: `exsz += step` while it is below `needed`. -/
def roundExtend (step needed exsz : ℕ) : ℕ :=
  if 0 < step ∧ exsz + step < needed then roundExtend step needed (exsz + step)
  else exsz + step
termination_by needed - exsz

/-- The extension size put in `fib$l_exsz`. -/
def extendSize (f : VmsFile) (acp : Acp) (d : Disk) (needed : ℕ) : ℕ :=
  if 0 < f.szChunk then roundExtend f.szChunk.toNat needed 0
  else if d.defext ≠ 0 then roundExtend d.defext needed 0
  else if acp.rmsExtendSize ≠ 0 then acp.rmsExtendSize
  else needed

/-- Blocks the write is assumed to need: `needed`, or the size hint when that is larger. -/
def neededBlocks (f : VmsFile) (vbn : ℤ) (amt : ℕ) : ℤ :=
  let needed := toInt32 (vbn + amt / sectorSize + 1)
  if 0 < f.szHint then max f.szHint needed else needed

/-- A size hint is used once. -/
def VmsFile.clearHint (f : VmsFile) : VmsFile :=
  if 0 < f.szHint then { f with szHint := 0 } else f

/-- The `IO$_MODIFY` request that allocates `exsz` further blocks, followed by the one that moves
the end-of-file mark just past them. -/
def extendFile (acp : Acp) (d : Disk) (exsz : ℕ) : Status × Disk :=
  if h : acp.extendStatus.success ∧ d.hiblk + acp.grant exsz < 2 ^ 31 then
    let d' : Disk := { d with hiblk := d.hiblk + acp.grant exsz, hiblk_lt := h.2 }
    if acp.modifyStatus.success then
      (.normal, { d' with efblk := d.hiblk + 1 + acp.grant exsz })
    else (acp.modifyStatus, d')
  else (.error, d)

/-- The part of `vmsWrite` before the transfer: look up the allocation and extend the file when
it is too short for the write. -/
def prepareWrite (f : VmsFile) (acp : Acp) (d : Disk) (vbn : ℤ) (amt : ℕ) :
    VmsFile × Status × Disk :=
  if acp.accessStatus.success then
    let needed := neededBlocks f vbn amt
    if (d.hiblk : ℤ) < needed then
      (f.clearHint, extendFile acp d (extendSize f acp d needed.toNat))
    else (f.clearHint, acp.accessStatus, d)
  else (f, acp.accessStatus, d)

/-! ### `vmsWrite` -/

/-- The locals of `vmsWrite`, with the file it works on: what `pBuf` points at, the bytes left,
the next block, the byte count of the last partial stage and the last status. -/
structure WriteState where
  disk : Disk
  pBuf : List UInt8
  amt : ℕ
  vbn : ℤ
  bcnt : ℤ
  status : Status

/-- The first stage, taken when the offset is not on a block boundary: read the block, apply the
first bytes of the buffer, write it back. The source steps `pBuf` only when `bcnt <= 0`. -/
def writeHead (vpos : ℕ) (s : WriteState) : WriteState :=
  let r := s.disk.readvblk s.vbn sectorSize
  if r.1.success then
    let bcnt := min s.amt (sectorSize - vpos)
    let w := s.disk.writevblk s.vbn (memcpy r.2 vpos (s.pBuf.take bcnt))
    if w.1.success then
      { disk := w.2, pBuf := if (bcnt : ℤ) ≤ 0 then s.pBuf.drop bcnt else s.pBuf,
        amt := s.amt - bcnt, vbn := s.vbn + 1, bcnt := bcnt, status := w.1 }
    else { s with disk := w.2, vbn := s.vbn + 1, bcnt := bcnt, status := w.1 }
  else { s with status := r.1 }

/-- The whole blocks in the middle. The source steps `pBuf` and `vbn` only when `bcnt > 0`. -/
def writeMiddle (s : WriteState) : WriteState :=
  let remainder := s.amt % sectorSize
  let w := s.disk.writevblk s.vbn (s.pBuf.take (s.amt - remainder))
  if w.1.success then
    if 0 < s.bcnt then
      { s with disk := w.2, pBuf := s.pBuf.drop (s.amt - remainder), amt := remainder,
               vbn := s.vbn + s.amt / sectorSize, status := w.1 }
    else { s with disk := w.2, amt := remainder, status := w.1 }
  else { s with disk := w.2, status := w.1 }

/-- The trailing bytes: read the block, apply them, write it back. -/
def writeTail (s : WriteState) : WriteState :=
  let r := s.disk.readvblk s.vbn sectorSize
  if r.1.success then
    let w := s.disk.writevblk s.vbn (memcpy r.2 0 (s.pBuf.take s.amt))
    { s with disk := w.2, status := w.1 }
  else { s with status := r.1 }

/-- The transfer of `vmsWrite`, from the state the preparation leaves. -/
def writeStages (vpos : ℕ) (s : WriteState) : WriteState :=
  let s := if vpos ≠ 0 ∧ s.status.success then writeHead vpos s else s
  let s := if sectorSize ≤ s.amt ∧ s.status.success then writeMiddle s else s
  if 0 < s.amt ∧ s.status.success then writeTail s else s

/-- What one `vmsWrite` returns and leaves behind. -/
structure WriteResult where
  rc : Rc
  file : VmsFile
  disk : Disk

/-- The locals of `vmsWrite` when the transfer begins. `bcnt` is the value the uninitialised local
happens to hold. -/
def entryState (f : VmsFile) (acp : Acp) (d : Disk) (bcnt : ℤ) (vBuf : List UInt8)
    (offset : ℕ) : WriteState :=
  let amt := vBuf.length
  let vbn := toInt32 (offset / sectorSize + 1)
  let p := prepareWrite f acp d vbn amt
  ⟨p.2.2, vBuf, amt, vbn, bcnt, p.2.1⟩

/-- `vmsWrite`: the bytes of `vBuf` at `offset`. -/
def vmsWrite (f : VmsFile) (acp : Acp) (d : Disk) (bcnt : ℤ) (vBuf : List UInt8) (offset : ℕ) :
    WriteResult :=
  let s := writeStages (offset % sectorSize) (entryState f acp d bcnt vBuf offset)
  ⟨if s.status.success then .ok else .ioerrWrite,
    (prepareWrite f acp d (toInt32 (offset / sectorSize + 1)) vBuf.length).1, s.disk⟩

/-! ### Size and truncation -/

/-- `vmsFileSize`: the allocation in bytes, reckoned in a C `int`. `none` is
`SQLITE_IOERR_FSTAT`. -/
def vmsFileSize (access : Status) (d : Disk) : Option ℤ :=
  if access.success then some (toInt32 (sectorSize * d.hiblk)) else none

/-- The block count `vmsTruncate` puts in `fib$l_exvbn`. -/
def exvbn (nByte : ℕ) : ℕ := (nByte / 512 + if nByte % 512 ≠ 0 then 1 else 0) % 2 ^ 32

/-- `vmsTruncate`, as its callers mean it: the blocks up to the rounded-up length stay. What a volume
that removes the block named makes of the request is in `OsVms.Size`. The status of the request is not
looked at, and the result is always `SQLITE_OK`. -/
def vmsTruncate (d : Disk) (nByte : ℕ) : Disk :=
  { d with hiblk := min d.hiblk (exvbn nByte),
           hiblk_lt := Nat.lt_of_le_of_lt (Nat.min_le_left _ _) d.hiblk_lt }

end OsVms

end SqliteVms

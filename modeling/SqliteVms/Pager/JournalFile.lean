import SqliteVms.Lib.Disk
import SqliteVms.Lib.Run

/-!
# The journal that is created late

`journal.c` keeps a journal in a buffer of `nBuf` bytes until it outgrows the buffer, or until the
file is asked for. The file is then created and the buffer written to it.

As long as there is no file, a read over the end copies nothing into the caller's buffer, a
truncation moves `iSize` down and never up, and a write behind the end takes the bytes in the gap to
be what the buffer has there. A file reads zeros in all three places.

The underlying calls succeed, apart from those of `createFile`, which may fail and leave anything on
the disk.

## Main definitions

* `JournalFile`, `createFile` — the journal and its creation
* `jrnlRead`, `jrnlWrite`, `jrnlTruncate`, `jrnlFileSize`, `sqlite3JournalCreate` — the methods
* `Plain` — the calls on a buffered journal that a file answers in the same way
* `Holds` — the journal has the contents of a file

## Main results

* `exec_eq_file` — along plain runs the journal is a file
* `createFile_spec` — the file is created with the contents of the buffer
* `createFile_failed` — or the journal stays as it is
-/

namespace SqliteVms

namespace LateJournal

open Store

/-! ### The journal -/

/-- Result codes. -/
inductive Rc
  | ok
  | ioerrShortRead
  | error (code : ℕ)
  deriving DecidableEq

/-- How the open and the write of `createFile` end, and what is left on the disk if one of them
fails. -/
structure Io where
  xOpen : Rc
  xWrite : Rc
  left : Disk.File

/-- A journal, with the file of its name as it is on the disk. -/
structure JournalFile where
  nBuf : ℕ
  zBuf : ℕ → UInt8
  iSize : ℕ
  pReal : Bool
  disk : Disk.File

/-- `sqlite3JournalOpen` of a file that is not there. Without a buffer the handle is the file's. -/
def sqlite3JournalOpen (nBuf : ℕ) : JournalFile where
  nBuf := nBuf
  zBuf := fun _ => 0
  iSize := 0
  pReal := decide (nBuf = 0)
  disk := Disk.File.empty

/-- `sqlite3OsWrite`. Nothing is written when there is nothing to write. -/
def osWrite (f : Disk.File) (zBuf : List UInt8) (iOfst : ℕ) : Disk.File :=
  if zBuf = [] then f else f.write iOfst zBuf

/-- `sqlite3OsRead` of `iAmt` bytes, with what it puts into the buffer. -/
def osRead (f : Disk.File) (iAmt iOfst : ℕ) : Rc × List UInt8 :=
  (if iAmt ≤ f.size - iOfst then .ok else .ioerrShortRead, slice f.byte iOfst iAmt)

def createFile (p : JournalFile) (io : Io) : Rc × JournalFile :=
  if p.pReal then (.ok, p)
  else if io.xOpen ≠ .ok then (io.xOpen, { p with disk := io.left })
  else if 0 < p.iSize then
    if io.xWrite ≠ .ok then (io.xWrite, { p with disk := io.left })
    else (.ok, { p with pReal := true, disk := osWrite p.disk (slice p.zBuf 0 p.iSize) 0 })
  else (.ok, { p with pReal := true })

/-- `jrnlRead` of as many bytes as the caller's buffer has. -/
def jrnlRead (p : JournalFile) (zBuf : List UInt8) (iOfst : ℕ) : Rc × List UInt8 :=
  if p.pReal then osRead p.disk zBuf.length iOfst
  else if p.iSize < zBuf.length + iOfst then (.ioerrShortRead, zBuf)
  else (.ok, slice p.zBuf iOfst zBuf.length)

def jrnlWrite (p : JournalFile) (zBuf : List UInt8) (iOfst : ℕ) (io : Io) : Rc × JournalFile :=
  let (rc, p) := if ¬ p.pReal ∧ p.nBuf < iOfst + zBuf.length then createFile p io else (.ok, p)
  if rc = .ok then
    if p.pReal then (.ok, { p with disk := osWrite p.disk zBuf iOfst })
    else (.ok, { p with
      zBuf := blit p.zBuf iOfst zBuf
      iSize := if p.iSize < iOfst + zBuf.length then iOfst + zBuf.length else p.iSize })
  else (rc, p)

def jrnlTruncate (p : JournalFile) (size : ℕ) : JournalFile :=
  if p.pReal then { p with disk := p.disk.truncate size }
  else if size < p.iSize then { p with iSize := size }
  else p

def jrnlFileSize (p : JournalFile) : ℕ := if p.pReal then p.disk.size else p.iSize

def sqlite3JournalCreate (p : JournalFile) (io : Io) : Rc × JournalFile := createFile p io

/-! ### Calls -/

/-- A call of one of the methods. -/
inductive Call
  | write (zBuf : List UInt8) (iOfst : ℕ) (io : Io)
  | read (zBuf : List UInt8) (iOfst : ℕ)
  | truncate (size : ℕ)
  | fileSize
  | create (io : Io)

/-- What a caller sees: the result code, its buffer, and the size. -/
structure Answer where
  rc : Rc
  zBuf : List UInt8
  pSize : ℕ
  deriving DecidableEq

/-- A call on the journal. -/
def step (p : JournalFile) : Call → Answer × JournalFile
  | .write zBuf iOfst io =>
    (⟨(jrnlWrite p zBuf iOfst io).1, [], 0⟩, (jrnlWrite p zBuf iOfst io).2)
  | .read zBuf iOfst => (⟨(jrnlRead p zBuf iOfst).1, (jrnlRead p zBuf iOfst).2, 0⟩, p)
  | .truncate size => (⟨.ok, [], 0⟩, jrnlTruncate p size)
  | .fileSize => (⟨.ok, [], jrnlFileSize p⟩, p)
  | .create io => (⟨(sqlite3JournalCreate p io).1, [], 0⟩, (sqlite3JournalCreate p io).2)

/-- The call on an ordinary file. -/
def fileStep (f : Disk.File) : Call → Answer × Disk.File
  | .write zBuf iOfst _ => (⟨.ok, [], 0⟩, osWrite f zBuf iOfst)
  | .read zBuf iOfst => (⟨(osRead f zBuf.length iOfst).1, (osRead f zBuf.length iOfst).2, 0⟩, f)
  | .truncate size => (⟨.ok, [], 0⟩, f.truncate size)
  | .fileSize => (⟨.ok, [], f.size⟩, f)
  | .create _ => (⟨.ok, [], 0⟩, f)

/-- The underlying calls succeed. -/
def Io.Succeeds (io : Io) : Prop := io.xOpen = .ok ∧ io.xWrite = .ok

/-- The underlying calls of a call succeed. -/
def Call.Succeeds : Call → Prop
  | .write _ _ io => io.Succeeds
  | .create io => io.Succeeds
  | _ => True

/-- The calls that a journal answers as a file does. On a buffered journal a read is inside of it, a
truncation does not grow it, and a write that stays in the buffer finds zeros between the end and
its offset and, if it is of nothing, is not behind the end. -/
def Plain (p : JournalFile) : Call → Prop
  | .write zBuf iOfst _ => p.pReal = false → iOfst + zBuf.length ≤ p.nBuf →
      (∀ i, p.iSize ≤ i → i < iOfst → p.zBuf i = 0) ∧ (zBuf = [] → iOfst ≤ p.iSize)
  | .read zBuf iOfst => p.pReal = false → iOfst + zBuf.length ≤ p.iSize
  | .truncate size => p.pReal = false → size ≤ p.iSize
  | _ => True

/-! ### The contents -/

/-- The journal has the contents of `f`: in the file once there is one, in the buffer before. -/
structure Holds (p : JournalFile) (f : Disk.File) : Prop where
  created : p.pReal = true → p.disk = f
  absent : p.pReal = false → p.disk = Disk.File.empty
  size : p.pReal = false → f.size = p.iSize
  bytes : p.pReal = false → ∀ i < p.iSize, f.byte i = p.zBuf i

theorem holds_open (nBuf : ℕ) : Holds (sqlite3JournalOpen nBuf) Disk.File.empty :=
  ⟨fun _ => rfl, fun _ => rfl, fun _ => rfl, fun _ i hi => absurd hi (Nat.not_lt_zero i)⟩

variable {p : JournalFile} {f : Disk.File}

/-- **The file is created with the contents of the buffer.** -/
theorem createFile_spec (h : Holds p f) {io : Io} (hio : io.Succeeds) :
    (createFile p io).1 = .ok ∧ (createFile p io).2.pReal = true ∧
      (createFile p io).2.disk = f := by
  rw [createFile]
  cases hreal : p.pReal with
  | true =>
    rw [if_pos rfl]
    exact ⟨rfl, hreal, h.created hreal⟩
  | false =>
    rw [if_neg Bool.false_ne_true, if_neg (not_not.mpr hio.1)]
    have hsize := h.size hreal
    split
    · rename_i hpos
      rw [if_neg (not_not.mpr hio.2)]
      refine ⟨rfl, rfl, ?_⟩
      have hne : slice p.zBuf 0 p.iSize ≠ [] := List.ne_nil_of_length_pos (by simpa using hpos)
      rw [osWrite, if_neg hne, h.absent hreal]
      refine Disk.File.ext ?_ (funext fun i => ?_)
      · simp [Disk.File.empty, hsize]
      · by_cases hi : i < p.iSize
        · have hin : i < (slice p.zBuf 0 p.iSize).length := by simpa using hi
          have hbyte : blit Disk.File.empty.byte 0 (slice p.zBuf 0 p.iSize) (0 + i) = _ :=
            blit_inside hin
          rw [Nat.zero_add, getElem_slice, Nat.zero_add] at hbyte
          exact hbyte.trans (h.bytes hreal i hi).symm
        · rw [Disk.File.write_byte, blit_outside (Or.inr (by simpa using hi)),
            f.tight i (by omega)]
          rfl
    · rename_i hzero
      refine ⟨rfl, rfl, ?_⟩
      rw [h.absent hreal]
      refine Disk.File.ext ?_ (funext fun i => (f.tight i (by omega)).symm)
      change 0 = f.size
      omega

/-- **A creation that fails leaves a buffered journal**, with all that a read sees. -/
theorem createFile_failed {io : Io} (hreal : p.pReal = false)
    (hfail : (createFile p io).1 ≠ .ok) :
    (createFile p io).2 = { p with disk := io.left } := by
  rw [createFile, hreal, if_neg Bool.false_ne_true] at hfail ⊢
  split
  · rfl
  · rename_i hopen
    rw [if_neg hopen] at hfail
    split
    · rename_i hpos
      rw [if_pos hpos] at hfail
      split
      · rfl
      · rename_i hwrite
        rw [if_neg hwrite] at hfail
        exact absurd rfl hfail
    · rename_i hzero
      rw [if_neg hzero] at hfail
      exact absurd rfl hfail

/-! ### One call -/

theorem not_created (hreal : p.pReal = false) : ¬ p.pReal = true := fun h =>
  Bool.noConfusion (hreal.symm.trans h)

theorem holds_of_created (hreal : p.pReal = true) (hdisk : p.disk = f) : Holds p f where
  created := fun _ => hdisk
  absent := fun h => absurd hreal (not_created h)
  size := fun h => absurd hreal (not_created h)
  bytes := fun h => absurd hreal (not_created h)

/-- A write to the file. -/
theorem Holds.osWrite_created (h : Holds p f) (hreal : p.pReal = true) (zBuf : List UInt8)
    (iOfst : ℕ) : Holds { p with disk := osWrite p.disk zBuf iOfst } (osWrite f zBuf iOfst) :=
  holds_of_created hreal (by rw [h.created hreal])

/-- A write to the buffer. -/
theorem Holds.write_buffered (h : Holds p f) (hreal : p.pReal = false) {zBuf : List UInt8}
    {iOfst : ℕ} (hgap : ∀ i, p.iSize ≤ i → i < iOfst → p.zBuf i = 0)
    (hnil : zBuf = [] → iOfst ≤ p.iSize) :
    Holds { p with
      zBuf := blit p.zBuf iOfst zBuf
      iSize := if p.iSize < iOfst + zBuf.length then iOfst + zBuf.length else p.iSize }
      (osWrite f zBuf iOfst) := by
  have hsize := h.size hreal
  rw [osWrite]
  by_cases hempty : zBuf = []
  · have hle := hnil hempty
    rw [if_pos hempty, hempty, blit_nil, if_neg (by simpa using hle)]
    exact h
  · rw [if_neg hempty]
    refine ⟨fun hp => absurd hp (not_created hreal), h.absent, fun _ => ?_,
      fun _ i hi => ?_⟩
    · rw [Disk.File.write_size, hsize]
      dsimp only
      split <;> omega
    · rw [Disk.File.write_byte]
      dsimp only at hi ⊢
      by_cases hin : i < iOfst ∨ iOfst + zBuf.length ≤ i
      · rw [blit_outside hin, blit_outside hin]
        by_cases hold : i < p.iSize
        · exact h.bytes hreal i hold
        · -- a byte in the gap
          rw [f.tight i (by omega), hgap i (by omega) (by split at hi <;> omega)]
      · obtain ⟨k, rfl⟩ := Nat.exists_eq_add_of_le (show iOfst ≤ i by omega)
        rw [blit_inside (by omega), blit_inside (by omega)]

theorem Holds.truncate (h : Holds p f) {size : ℕ} (hle : p.pReal = false → size ≤ p.iSize) :
    Holds (jrnlTruncate p size) (f.truncate size) := by
  rw [jrnlTruncate]
  rcases Bool.eq_false_or_eq_true p.pReal with hreal | hreal
  · rw [if_pos hreal]
    exact holds_of_created hreal (by rw [h.created hreal])
  · rw [if_neg (not_created hreal)]
    have hsize := h.size hreal
    have hbytes := h.bytes hreal
    split
    · refine ⟨fun hp => absurd hp (not_created hreal), h.absent, fun _ => rfl,
        fun _ i hi => ?_⟩
      exact (if_pos hi).trans (hbytes i (by dsimp only at hi; omega))
    · have heq : f.truncate size = f := by
        refine Disk.File.ext ?_ (funext fun i => ?_)
        · have := hle hreal
          change size = f.size
          omega
        · change (if i < size then f.byte i else 0) = f.byte i
          split
          · rfl
          · exact (f.tight i (by omega)).symm
      rw [heq]
      exact h

/-- **A write**, to the buffer, to the file, or to the file that it creates. -/
theorem Holds.write (h : Holds p f) {zBuf : List UInt8} {iOfst : ℕ} {io : Io}
    (hio : io.Succeeds) (hplain : Plain p (.write zBuf iOfst io)) :
    (jrnlWrite p zBuf iOfst io).1 = .ok ∧
      Holds (jrnlWrite p zBuf iOfst io).2 (osWrite f zBuf iOfst) := by
  rw [jrnlWrite]
  rcases Bool.eq_false_or_eq_true p.pReal with hreal | hreal
  · rw [if_neg fun hand => hand.1 hreal]
    dsimp only
    rw [if_pos rfl, if_pos hreal]
    exact ⟨rfl, h.osWrite_created hreal zBuf iOfst⟩
  · by_cases hbig : p.nBuf < iOfst + zBuf.length
    · obtain ⟨hrc, hcreated, hdisk⟩ := createFile_spec h hio
      rw [if_pos ⟨not_created hreal, hbig⟩]
      dsimp only
      rw [if_pos hrc, if_pos hcreated]
      exact ⟨rfl, (holds_of_created hcreated hdisk).osWrite_created hcreated zBuf iOfst⟩
    · rw [if_neg fun hand => hbig hand.2]
      dsimp only
      rw [if_pos rfl, if_neg (not_created hreal)]
      obtain ⟨hgap, hnil⟩ := hplain hreal (by omega)
      exact ⟨rfl, h.write_buffered hreal hgap hnil⟩

/-- **A read** inside of the journal. -/
theorem Holds.read (h : Holds p f) {zBuf : List UInt8} {iOfst : ℕ}
    (hplain : Plain p (.read zBuf iOfst)) :
    jrnlRead p zBuf iOfst = osRead f zBuf.length iOfst := by
  rw [jrnlRead]
  cases hreal : p.pReal with
  | true => rw [if_pos rfl, h.created hreal]
  | false =>
    have hin := hplain hreal
    have hsize := h.size hreal
    rw [if_neg Bool.false_ne_true, if_neg (by omega), osRead, if_pos (by omega)]
    refine congrArg _ (slice_congr fun i hi => ?_)
    exact (h.bytes hreal _ (by omega)).symm

theorem Holds.fileSize (h : Holds p f) : jrnlFileSize p = f.size := by
  rw [jrnlFileSize]
  cases hreal : p.pReal with
  | true => rw [if_pos rfl, h.created hreal]
  | false => rw [if_neg Bool.false_ne_true, h.size hreal]

/-- **One plain call.** -/
theorem Holds.step (h : Holds p f) {a : Call} (hio : a.Succeeds) (hplain : Plain p a) :
    (step p a).1 = (fileStep f a).1 ∧ Holds (LateJournal.step p a).2 (fileStep f a).2 := by
  cases a with
  | write zBuf iOfst io =>
    obtain ⟨hrc, hkeep⟩ := h.write hio hplain
    exact ⟨by rw [LateJournal.step, fileStep, hrc], hkeep⟩
  | read zBuf iOfst => exact ⟨by rw [LateJournal.step, fileStep, h.read hplain], h⟩
  | truncate size => exact ⟨rfl, h.truncate hplain⟩
  | fileSize => exact ⟨by rw [LateJournal.step, fileStep, h.fileSize], h⟩
  | create io =>
    obtain ⟨hrc, hcreated, hdisk⟩ := createFile_spec h hio
    exact ⟨by rw [LateJournal.step, fileStep, sqlite3JournalCreate, hrc],
      holds_of_created hcreated hdisk⟩

/-! ### Runs -/

/-- What is left after a creation that failed is still read, and not created. -/
def FallsBack (p : JournalFile) : Prop :=
  p.pReal = false → ∀ io : Io, (createFile p io).1 ≠ .ok →
    (createFile p io).2.pReal = false ∧
      jrnlFileSize (createFile p io).2 = jrnlFileSize p ∧
      ∀ zBuf iOfst, jrnlRead (createFile p io).2 zBuf iOfst = jrnlRead p zBuf iOfst

theorem fallsBack (p : JournalFile) : FallsBack p := by
  intro hreal io hfail
  rw [createFile_failed hreal hfail]
  refine ⟨hreal, ?_, fun zBuf iOfst => ?_⟩
  · simp [jrnlFileSize, hreal]
  · simp [jrnlRead, hreal]

/-- A run along which the underlying calls succeed and every call is plain. -/
abbrev PlainRun (nBuf : ℕ) (as : List Call) : Prop :=
  Run.EveryStep (fun p a => (step p a).2) (fun p a => a.Succeeds ∧ Plain p a)
    (sqlite3JournalOpen nBuf) as

/-- **The journal is a file.** Along plain runs the answers are those of a file; where the run ends
the journal has the contents of that file, on the disk once it is created; a buffered journal is
created with these contents, and stays readable if that fails. -/
theorem exec_eq_file {nBuf : ℕ} (_hbuf : 0 < nBuf) {as : List Call} (hrun : PlainRun nBuf as) :
    (Run.exec step (sqlite3JournalOpen nBuf) as).1 = (Run.exec fileStep Disk.File.empty as).1 ∧
      Holds (Run.exec step (sqlite3JournalOpen nBuf) as).2
        (Run.exec fileStep Disk.File.empty as).2 ∧
      (∀ io : Io, io.Succeeds →
        (createFile (Run.exec step (sqlite3JournalOpen nBuf) as).2 io).2.disk
          = (Run.exec fileStep Disk.File.empty as).2) ∧
      FallsBack (Run.exec step (sqlite3JournalOpen nBuf) as).2 := by
  have hsim : ∀ p f a, Holds p f → a.Succeeds ∧ Plain p a →
      (step p a).1 = (fileStep f a).1 ∧ Holds (step p a).2 (fileStep f a).2 :=
    fun _ _ _ h hQ => h.step hQ.1 hQ.2
  have h := Run.exec_of_guarded_simulation hsim (holds_open nBuf) hrun
  exact ⟨h.1, h.2, fun io hio => (createFile_spec h.2 hio).2.2, fallsBack _⟩

/-- The underlying calls succeed. -/
def Io.success : Io := ⟨.ok, .ok, Disk.File.empty⟩

/-- A journal that outgrows its buffer. -/
theorem exec_eq_file_outgrown :
    (Run.exec step (sqlite3JournalOpen 4)
          [.write [1, 2] 0 .success, .truncate 1, .write [3] 1 .success, .read [0, 0] 0,
            .write [4, 5, 6] 3 .success, .read [0, 0, 0] 1]).1
        = (Run.exec fileStep Disk.File.empty
          [.write [1, 2] 0 .success, .truncate 1, .write [3] 1 .success, .read [0, 0] 0,
            .write [4, 5, 6] 3 .success, .read [0, 0, 0] 1]).1 := by
  refine (exec_eq_file (by decide) ?_).1
  refine ⟨⟨⟨rfl, rfl⟩, fun _ _ => ⟨fun i _ hi => absurd hi (Nat.not_lt_zero i), by simp⟩⟩,
    ⟨trivial, fun _ => by decide⟩, ⟨⟨rfl, rfl⟩, fun _ _ => ⟨fun i h1 h2 => ?_, by simp⟩⟩,
    ⟨trivial, fun _ => by decide⟩, ⟨⟨rfl, rfl⟩, fun _ h => absurd h (by decide)⟩,
    ⟨trivial, fun h => absurd h (by decide)⟩, trivial⟩
  exact absurd h1 (by change ¬ 1 ≤ i; omega)

/-- **Bytes that were truncated come back.** Two bytes are written and truncated away; the file then
has a zero where the journal still has the first of them. A read over the end leaves the caller's
buffer as it was. -/
theorem not_journal_eq_file :
    ¬ ∀ (nBuf : ℕ) (as : List Call), 0 < nBuf → (∀ a ∈ as, a.Succeeds) →
      (Run.exec step (sqlite3JournalOpen nBuf) as).1 = (Run.exec fileStep Disk.File.empty as).1 := by
  intro h
  have hstale := h 4 [.write [1, 2] 0 .success, .read [9, 9, 9] 0, .truncate 0,
    .write [3] 1 .success, .read [0] 0] (by decide)
    (by simp [Call.Succeeds, Io.Succeeds, Io.success])
  exact absurd hstale (by decide)

end LateJournal

end SqliteVms

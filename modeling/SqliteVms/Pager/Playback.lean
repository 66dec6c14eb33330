import SqliteVms.Pager.State

/-!
# Playing a journal back

`readJournalHdr`, `pager_playback_one_page`, `pager_playback`, and the recovery of a hot journal by
`sqlite3PagerSharedLock`. Whether a master journal exists is asked of the file system, `access`
being its answer. No other connection holds a lock.

## Main definitions

* `readJournalHdr`, `pagerPlaybackOnePage` — headers and records
* `pagerPlayback` — the whole journal
* `sqlite3PagerSharedLock` — opening a database
-/

namespace SqliteVms

open BigEndian Store Disk

namespace Pager

/-- The sizes `readJournalHdr` takes from a header. -/
def Geom.Valid (pageSize sectorSize : ℕ) : Prop :=
  512 ≤ pageSize ∧ 32 ≤ sectorSize ∧ pageSize ≤ 65536 ∧ sectorSize ≤ 65536 ∧
    (pageSize - 1) &&& pageSize = 0 ∧ (sectorSize - 1) &&& sectorSize = 0

instance (pageSize sectorSize : ℕ) : Decidable (Geom.Valid pageSize sectorSize) :=
  inferInstanceAs (Decidable (_ ∧ _))

/-- The geometry with these sizes. -/
def Geom.ofValid {pageSize sectorSize : ℕ} (h : Geom.Valid pageSize sectorSize) : Geom where
  pageSize := pageSize
  sectorSize := sectorSize
  page_ge := h.1
  page_le := h.2.2.1
  page_pow := h.2.2.2.2.1
  sector_ge := h.2.1
  sector_le := h.2.2.2.1
  sector_pow := h.2.2.2.2.2

/-- The geometry with the sector size of `g'`. -/
def Geom.withSector (g g' : Geom) : Geom :=
  { g with
    sectorSize := g'.sectorSize
    sector_ge := g'.sector_ge
    sector_le := g'.sector_le
    sector_pow := g'.sector_pow }

/-- `readMasterJournal`: the name at the end of the journal, empty if there is none, or `none` if a
read fails. A checksum that does not match the name makes it empty. -/
def readMasterJournal (f : File) (nMaster : ℕ) : Option (List UInt8) :=
  if f.size < 16 then some []
  else
    let len := get4 f.byte (f.size - 16)
    let cksum := get4 f.byte (f.size - 12)
    if nMaster ≤ len then some []
    else if slice f.byte (f.size - 8) 8 ≠ aJournalMagic then some []
    else if f.size - 16 < len then none
    else
      let zMaster := slice f.byte (f.size - 16 - len) len
      if ((cksum : ℤ) - (zMaster.map fun b => Int.bmod b.toNat 256).sum) % 2 ^ 32 ≠ 0 then some []
      else some (zMaster.takeWhile (· ≠ 0))

/-- What the functions below answer. -/
inductive Rc
  | ok
  | done
  | shortRead
  deriving DecidableEq

variable (s : Pager)

/-- `sqlite3PagerSetPagesize`, when no page is in use. -/
def sqlite3PagerSetPagesize (g : Geom) : Pager :=
  if g.pageSize = s.geom.pageSize then s
  else
    let nByte := if s.eState = .openS then 0 else s.disk.db.view.size
    { s with
      cache := PCache.empty
      dbSize := (nByte + g.pageSize - 1) / g.pageSize
      geom := g.withSector s.geom }

/-- The part of `readJournalHdr` that reads the sizes, in the header at the start of the journal. -/
def readSizes : Bool × Pager :=
  let iSectorSize := get4 s.jrnlView.byte 20
  let iPageSize := if get4 s.jrnlView.byte 24 = 0 then s.geom.pageSize else get4 s.jrnlView.byte 24
  if h : Geom.Valid iPageSize iSectorSize then
    let s := s.sqlite3PagerSetPagesize (Geom.ofValid h)
    (true, { s with geom := s.geom.withSector (Geom.ofValid h) })
  else (false, s)

/-- The fields of the header at `iHdrOff`: the record count and the database size are returned,
unless the sizes are not valid. -/
def readHdrFields (iHdrOff : ℕ) : Option (ℕ × ℕ) × Pager :=
  let f := s.jrnlView
  match if iHdrOff = 0 then s.readSizes else (true, s) with
  | (false, s) =>
    (none, { s with journalOff := iHdrOff, cksumInit := get4 f.byte (iHdrOff + 12) })
  | (true, s) =>
    (some (get4 f.byte (iHdrOff + 8), get4 f.byte (iHdrOff + 16)),
      { s with
        journalOff := iHdrOff + s.geom.sectorSize
        cksumInit := get4 f.byte (iHdrOff + 12) })

/-- `readJournalHdr`: the record count and the database size, unless there is no header. -/
def readJournalHdr (isHot : Bool) (journalSize : ℕ) : Option (ℕ × ℕ) × Pager :=
  if journalSize < s.journalHdrOffset + s.geom.sectorSize ∨
      ((isHot = true ∨ s.journalHdrOffset ≠ s.journalHdr) ∧
        slice s.jrnlView.byte s.journalHdrOffset 8 ≠ aJournalMagic) then
    (none, { s with journalOff := s.journalHdrOffset })
  else s.readHdrFields s.journalHdrOffset

/-- `sqlite3PagerAcquire` with the flag `PAGER_ACQUIRE_NOCONTENT`, on a page not in the cache. -/
def acquireNoContent (pgno : ℕ) : Pager :=
  addToSavepointBitvecs
    { s with
      cache := s.cache.set pgno ⟨fun _ => 0, false, false⟩
      pInJournal :=
        if pgno ≤ s.dbOrigSize then Function.update s.pInJournal pgno true else s.pInJournal } pgno

/-- The part of `pager_playback_one_page` that brings the contents of a record into the database
file, or a page into the cache for it. -/
def playbackFile (pgno : ℕ) (aData : ℕ → UInt8) (isMainJrnl isSynced : Bool) : Pager :=
  if (4 ≤ s.eState.val ∨ s.eState = .openS) ∧ isSynced = true then
    { s.writeDb (s.geom.pageOfst pgno) (s.geom.pageBytes aData) with dbFileSize := max s.dbFileSize pgno }
  else if isMainJrnl = false ∧ s.cache.page pgno = none then
    (s.acquireNoContent pgno).modify pgno fun h => { h with dirty := true }
  else s

/-- The part that brings it into the cache. -/
def playbackCache (pgno : ℕ) (aData : ℕ → UInt8) (toClean : Bool) : Pager :=
  match s.cache.page pgno with
  | none => s
  | some h =>
    let h := { h with data := aData }
    { s with
      cache := s.cache.set pgno (if toClean then PCache.makeClean h else h)
      dbFileVers := if pgno = 1 then fun i => aData (24 + i) else s.dbFileVers }

/-- `pager_playback_one_page`, on the record at `offset`. `pDone` is `none` for a null pointer. The
offset of the next record and the pages done are returned too. -/
def pagerPlaybackOnePage (offset : ℕ) (pDone : Option (ℕ → Bool)) (isMainJrnl isSavepnt : Bool) :
    Rc × ℕ × Option (ℕ → Bool) × Pager :=
  let f := if isMainJrnl then s.jrnlView else s.sjfd
  if f.size < offset + 4 + s.geom.pageSize then (.shortRead, offset, pDone, s)
  else
    let pgno := get4 f.byte offset
    let aData := fun i => f.byte (offset + 4 + i)
    let next := offset + s.geom.pageSize + 4 + if isMainJrnl then 4 else 0
    if pgno = 0 ∨ pgno = s.geom.mjPgno then (.done, next, pDone, s)
    else if s.dbSize < pgno ∨ pDone.any (· pgno) then (.ok, next, pDone, s)
    else if isMainJrnl = true ∧ f.size < next then (.shortRead, next, pDone, s)
    else if isMainJrnl = true ∧ isSavepnt = false ∧
        s.geom.pagerCksum s.cksumInit aData ≠ get4 f.byte (next - 4) then (.done, next, pDone, s)
    else
      let pDone := pDone.map fun d => Function.update d pgno true
      let isSynced : Bool :=
        if isMainJrnl then next ≤ s.journalHdr else !(s.cache.page pgno).any PgHdr.needSync
      (.ok, next, pDone, (s.playbackFile pgno aData isMainJrnl isSynced).playbackCache pgno aData
        (isMainJrnl && (!isSavepnt || decide (next ≤ s.journalHdr))))

/-- The records of one header in `pager_playback`. The answer is whether the playback is over. -/
def playbackRecords (szJ : ℕ) : ℕ → Pager → Bool × Pager
  | 0, s => (false, s)
  | n + 1, s =>
    match s.pagerPlaybackOnePage s.journalOff none true false with
    | (.ok, next, _, s) => playbackRecords szJ n { s with journalOff := next }
    | (.done, _, _, s) => (false, { s with journalOff := szJ })
    | (.shortRead, _, _, s) => (true, s)

/-- The records there would be from `off` to the end of the journal. `off` may be past the end, and
the quotient becomes a `u32`. -/
def Geom.recordsFrom (g : Geom) (szJ off : ℕ) : ℕ :=
  (((szJ : ℤ) - off).tdiv g.jrnlPgSz % 2 ^ 32).toNat

/-- `nRec` as `pager_playback` takes it. -/
def recordCount (isHot : Bool) (szJ nRec : ℕ) : ℕ :=
  let nRec := if nRec = 0xffffffff then s.geom.recordsFrom szJ s.geom.sectorSize else nRec
  if nRec = 0 ∧ isHot = false ∧ s.journalHdr + s.geom.sectorSize = s.journalOff then
    s.geom.recordsFrom szJ s.journalOff
  else nRec

/-- The part of `pager_playback` that truncates the database, at the first header. -/
def playbackTruncate (mxPg : ℕ) : Pager :=
  if s.journalOff = s.geom.sectorSize then { s.pagerTruncate mxPg with dbSize := mxPg } else s

/-- `pager_reset`, before the first record. -/
def playbackReset (needPagerReset : Bool) (nRec : ℕ) : Pager :=
  if needPagerReset = true ∧ 0 < nRec then { s with cache := PCache.empty } else s

/-- The loop of `pager_playback`. Each turn passes a header, so the journal size bounds the turns. -/
def playbackLoop (isHot : Bool) (szJ : ℕ) : ℕ → Bool → Pager → Pager
  | 0, _, s => s
  | fuel + 1, needPagerReset, s =>
    match s.readJournalHdr isHot szJ with
    | (none, s) => s
    | (some (nRec, mxPg), s) =>
      let nRec := s.recordCount isHot szJ nRec
      match playbackRecords szJ nRec ((s.playbackTruncate mxPg).playbackReset needPagerReset nRec) with
      | (true, s) => s
      | (false, s) => playbackLoop isHot szJ fuel (needPagerReset && nRec == 0) s

/-- `pager_playback`. -/
def pagerPlayback (access : List UInt8 → Bool) (mxPathname : ℕ) (isHot : Bool) : Pager :=
  let szJ := s.jrnlView.size
  let g := s.geom
  match readMasterJournal s.jrnlView (mxPathname + 1) with
  | none => s
  | some zMaster =>
    let s :=
      if zMaster ≠ [] ∧ access zMaster = false then s
      else playbackLoop isHot szJ (szJ + 1) isHot { s with journalOff := 0 }
    let s := { s with changeCountDone := false }
    let s := if 4 ≤ s.eState.val ∨ s.eState = .openS then s.sqlite3PagerSync else s
    let s := s.pagerEndTransaction false
    { s with geom := s.geom.withSector g }

def pagerPagecount : ℕ := (s.disk.db.view.size + s.geom.pageSize - 1) / s.geom.pageSize

def hasHotJournal : Bool × Pager :=
  match s.disk.jrnl with
  | none => (false, s)
  | some j =>
    if s.pagerPagecount = 0 then (false, s.io { s.disk with jrnl := none })
    else (0 < j.view.size && j.view.byte 0 != 0, s)

def pagerSyncHotJournal : Pager :=
  let s := s.syncJrnl
  { s with journalHdr := s.jrnlView.size }

/-- `sqlite3PagerSharedLock`, of a pager in the state `PAGER_OPEN` with an empty cache. -/
def sqlite3PagerSharedLock (access : List UInt8 → Bool) (mxPathname : ℕ) : Pager :=
  let s :=
    match s.hasHotJournal with
    | (false, s) => s
    | (true, s) =>
      { pagerPlayback ({ s with jfdOpen := true }).pagerSyncHotJournal access mxPathname true with
        eState := .openS }
  { s with dbSize := s.pagerPagecount, eState := .reader }

/-- A pager just opened on the files `db` and `jrnl`. -/
def sqlite3PagerOpen (g : Geom) (mxPgno : ℕ) (db : File) (jrnl : Option File) : Pager where
  geom := g
  mxPgno := mxPgno
  journalMode := .delete
  eState := .openS
  changeCountDone := false
  dbSize := 0
  dbOrigSize := 0
  dbFileSize := 0
  nRec := 0
  cksumInit := 0
  nSubRec := 0
  pInJournal := fun _ => false
  journalOff := 0
  journalHdr := 0
  aSavepoint := []
  dbFileVers := fun _ => 0
  cache := PCache.empty
  disk := ⟨DiskFile.ofFile db, jrnl.map DiskFile.ofFile⟩
  jfdOpen := false
  sjfd := File.empty
  sjfdOpen := false
  trace := []

end Pager

end SqliteVms

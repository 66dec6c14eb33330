import SqliteVms.Lib.BigEndian
import SqliteVms.Lib.Disk
import Mathlib.Data.Nat.Bitwise

/-!
# The pager

The state of a `Pager` in rollback-journal mode, and the functions that make a page writeable,
spill a page, and commit. The files are those of `Lib.Disk`; every operation on one of them is
recorded in `trace`, so that a crash between two operations is a disk of the trace.

No operation of the file system fails, `noSync` is clear, `fullSync` is set, and the device has none
of the `SAFE_APPEND`, `SEQUENTIAL` and `ATOMIC` properties. The master-journal name is always null.

A page holds a function from positions to bytes, of which the first `pageSize` count. The cache is
`pcache.c`'s as the pager sees it: pages with their flags. What it recycles, and when it asks the
pager to spill a page, is up to the caller.

## Main definitions

* `Geom`, `PgHdr`, `PCache`, `Files`, `Pager` — the data
* `pagerWrite`, `sqlite3PagerWrite` — making a page writeable
* `syncJournal`, `pagerStress` — spilling
* `sqlite3PagerCommitPhaseOne`, `sqlite3PagerCommitPhaseTwo` — committing
-/

namespace SqliteVms

open BigEndian Store Disk

namespace Pager

/-! ### Data -/

/-- Page size and sector size, as the pager accepts them. -/
@[ext] structure Geom where
  pageSize : ℕ
  sectorSize : ℕ
  page_ge : 512 ≤ pageSize
  page_le : pageSize ≤ 65536
  page_pow : (pageSize - 1) &&& pageSize = 0
  sector_ge : 32 ≤ sectorSize
  sector_le : sectorSize ≤ 65536
  sector_pow : (sectorSize - 1) &&& sectorSize = 0

theorem le_512 : 512 ≤ 512 := le_rfl
theorem le_1024 : 512 ≤ 1024 := by decide
theorem max_512 : 512 ≤ 65536 := by decide
theorem max_1024 : 1024 ≤ 65536 := by decide
theorem pow_512 : (512 - 1) &&& 512 = 0 := rfl
theorem pow_1024 : (1024 - 1) &&& 1024 = 0 := rfl
theorem sector_512 : 32 ≤ 512 := by decide
theorem sector_1024 : 32 ≤ 1024 := by decide

/-- `PAGER_MJ_PGNO`, the page with the locking bytes. -/
def Geom.mjPgno (g : Geom) : ℕ := 0x40000000 / g.pageSize + 1

/-- `JOURNAL_PG_SZ`. -/
def Geom.jrnlPgSz (g : Geom) : ℕ := g.pageSize + 8

/-- `journalHdrOffset`, for the value `c` of `journalOff`. -/
def Geom.journalHdrOffset (g : Geom) (c : ℕ) : ℕ :=
  if c = 0 then 0 else ((c - 1) / g.sectorSize + 1) * g.sectorSize

/-- The position of a page in the database file. -/
def Geom.pageOfst (g : Geom) (pgno : ℕ) : ℕ := (pgno - 1) * g.pageSize

/-- The bytes of a page buffer. -/
def Geom.pageBytes (g : Geom) (data : ℕ → UInt8) : List UInt8 := slice data 0 g.pageSize

/-- `pager_cksum`: every 200th byte, counted from the end of the page. -/
def Geom.pagerCksum (g : Geom) (cksumInit : ℕ) (data : ℕ → UInt8) : ℕ :=
  (cksumInit + ((List.range ((g.pageSize - 1) / 200)).map fun k =>
    (data (g.pageSize - 200 * (k + 1))).toNat).sum) % 2 ^ 32

def aJournalMagic : List UInt8 := [0xd9, 0xd5, 0x05, 0xf9, 0x20, 0xa1, 0x63, 0xd7]

/-- `PgHdr`: a page of the cache. -/
structure PgHdr where
  data : ℕ → UInt8
  dirty : Bool
  needSync : Bool

/-- `PCache`: the pages in the cache, and the largest page number there was (`iMaxKey`). -/
structure PCache where
  page : ℕ → Option PgHdr
  iMaxKey : ℕ
  le_max : ∀ p, page p ≠ none → p ≤ iMaxKey

namespace PCache

/-- The cache with page `p` as given. -/
def set (c : PCache) (p : ℕ) (h : PgHdr) : PCache where
  page := Function.update c.page p (some h)
  iMaxKey := max c.iMaxKey p
  le_max := fun q hq => by
    rcases eq_or_ne q p with rfl | hne
    · exact le_max_right _ _
    · rw [Function.update_of_ne hne] at hq
      exact (c.le_max q hq).trans (le_max_left _ _)

/-- `sqlite3PcacheDrop`. -/
def drop (c : PCache) (p : ℕ) : PCache where
  page := Function.update c.page p none
  iMaxKey := c.iMaxKey
  le_max := fun q hq => by
    rcases eq_or_ne q p with rfl | hne
    · exact absurd (Function.update_self _ _ _) hq
    · rw [Function.update_of_ne hne] at hq
      exact c.le_max q hq

/-- The cache with `f` done to every page. -/
def map (c : PCache) (f : ℕ → PgHdr → Option PgHdr) : PCache where
  page := fun p => (c.page p).bind (f p)
  iMaxKey := c.iMaxKey
  le_max := fun q hq => c.le_max q fun hnone => hq (by rw [hnone]; rfl)

/-- `sqlite3PcacheClearSyncFlags`. -/
def clearSyncFlags (c : PCache) : PCache :=
  c.map fun _ h => some (if h.dirty then { h with needSync := false } else h)

/-- `sqlite3PcacheMakeClean`, on one page. -/
def makeClean (h : PgHdr) : PgHdr :=
  if h.dirty then { h with dirty := false, needSync := false } else h

/-- `sqlite3PcacheCleanAll`. -/
def cleanAll (c : PCache) : PCache := c.map fun _ h => some (makeClean h)

/-- `sqlite3PcacheTruncate` after `sqlite3PcacheCleanAll`: the pages after `pgno` are dropped, but
page 1 is zeroed instead. -/
def truncate (c : PCache) (pgno : ℕ) : PCache :=
  c.map fun p h =>
    if p ≤ pgno then some h
    else if p = 1 then some { h with data := fun _ => 0 }
    else none

/-- `sqlite3PcacheDirtyList`, the page numbers in ascending order. -/
def dirtyList (c : PCache) : List ℕ :=
  (List.range' 1 c.iMaxKey).filter fun p => (c.page p).any PgHdr.dirty

/-- The empty cache. -/
def empty : PCache := ⟨fun _ => none, 0, fun _ h => absurd rfl h⟩

@[simp] theorem set_page (c : PCache) (p : ℕ) (h : PgHdr) :
    (c.set p h).page = Function.update c.page p (some h) := rfl

@[simp] theorem drop_page (c : PCache) (p : ℕ) :
    (c.drop p).page = Function.update c.page p none := rfl

@[simp] theorem map_page (c : PCache) (f : ℕ → PgHdr → Option PgHdr) (p : ℕ) :
    (c.map f).page p = (c.page p).bind (f p) := rfl

/-- A page of the cache after one page is set. -/
theorem set_cases {c : PCache} {p q : ℕ} {h h' : PgHdr} (hq : (c.set p h).page q = some h') :
    q = p ∧ h' = h ∨ q ≠ p ∧ c.page q = some h' := by
  rw [set_page] at hq
  rcases eq_or_ne q p with rfl | hne
  · rw [Function.update_self] at hq
    exact Or.inl ⟨rfl, (Option.some.inj hq).symm⟩
  · rw [Function.update_of_ne hne] at hq
    exact Or.inr ⟨hne, hq⟩

theorem mem_dirtyList {c : PCache} {p : ℕ} (h0 : p ≠ 0) :
    p ∈ c.dirtyList ↔ ∃ h, c.page p = some h ∧ h.dirty = true := by
  rw [dirtyList, List.mem_filter, List.mem_range'_1]
  constructor
  · rintro ⟨-, hany⟩
    rw [Option.any_eq_true] at hany
    obtain ⟨h, hp, hd⟩ := hany
    exact ⟨h, hp, hd⟩
  · rintro ⟨h, hp, hd⟩
    have hle := c.le_max p (by rw [hp]; exact Option.some_ne_none h)
    exact ⟨by omega, by rw [hp]; exact hd⟩

end PCache

/-- The states of a pager; the error state is not among them. -/
inductive EState
  | openS
  | reader
  | writerLocked
  | writerCachemod
  | writerDbmod
  | writerFinished
  deriving DecidableEq

/-- Their order in the source. -/
def EState.val : EState → ℕ
  | .openS => 0
  | .reader => 1
  | .writerLocked => 2
  | .writerCachemod => 3
  | .writerDbmod => 4
  | .writerFinished => 5

/-- The journal modes the model has. -/
inductive JournalMode
  | delete
  | memory
  deriving DecidableEq

/-- `PagerSavepoint`. -/
structure Savepoint where
  iOffset : ℕ
  iHdrOffset : ℕ
  pInSavepoint : ℕ → Bool
  nOrig : ℕ
  iSubRec : ℕ

/-- The two files of a database: the database itself, and the journal if there is one. In memory
mode the journal is in memory, and a crash loses it. -/
structure Files where
  db : DiskFile
  jrnl : Option DiskFile

end Pager

open Pager in
/-- `Pager`. The last field records every disk the pager has made. -/
structure Pager where
  geom : Geom
  mxPgno : ℕ
  journalMode : JournalMode
  eState : EState
  changeCountDone : Bool
  dbSize : ℕ
  dbOrigSize : ℕ
  dbFileSize : ℕ
  nRec : ℕ
  cksumInit : ℕ
  nSubRec : ℕ
  pInJournal : ℕ → Bool
  journalOff : ℕ
  journalHdr : ℕ
  aSavepoint : List Savepoint
  dbFileVers : ℕ → UInt8
  cache : PCache
  disk : Files
  jfdOpen : Bool
  sjfd : File
  sjfdOpen : Bool
  trace : List Files

namespace Pager

/-! ### Operations on the files -/

variable (s : Pager)

/-- The disk becomes `d`. -/
def io (d : Files) : Pager := { s with disk := d, trace := s.trace ++ [d] }

/-- A write to the database file. -/
def writeDb (off : ℕ) (xs : List UInt8) : Pager :=
  s.io { s.disk with db := s.disk.db.write off xs }

def sqlite3PagerSync : Pager := s.io { s.disk with db := s.disk.db.sync }

/-- A write to the journal. -/
def writeJrnl (off : ℕ) (xs : List UInt8) : Pager :=
  s.io { s.disk with jrnl := s.disk.jrnl.map (DiskFile.write · off xs) }

/-- A sync of the journal. -/
def syncJrnl : Pager := s.io { s.disk with jrnl := s.disk.jrnl.map DiskFile.sync }

/-- The journal as the pager reads it. -/
def jrnlView : File := (s.disk.jrnl.map DiskFile.view).getD File.empty

/-! ### The journal -/

@[inherit_doc Geom.journalHdrOffset]
def journalHdrOffset : ℕ := s.geom.journalHdrOffset s.journalOff

/-- `nHeader` of `writeJournalHdr`. -/
def nHeader : ℕ := min s.geom.pageSize s.geom.sectorSize

/-- The header `writeJournalHdr` builds. In memory mode it is complete; on a disk the magic number
and the record count are filled in later. -/
def zHeader (cksumInit : ℕ) : List UInt8 :=
  (if s.journalMode = .memory then aJournalMagic ++ bytes4 0xffffffff else List.replicate 12 0)
    ++ bytes4 cksumInit ++ bytes4 s.dbOrigSize ++ bytes4 s.geom.sectorSize ++ bytes4 s.geom.pageSize
    ++ List.replicate (s.nHeader - 28) 0

/-- The loop of `writeJournalHdr` over the blocks of the header sector. -/
def writeHdrBlocks (zHeader : List UInt8) : ℕ → Pager → Pager
  | 0, s => s
  | n + 1, s =>
    writeHdrBlocks zHeader n
      { s.writeJrnl s.journalOff zHeader with journalOff := s.journalOff + s.nHeader }

/-- `writeJournalHdr`, `rnd` being what `sqlite3_randomness` gives. -/
def writeJournalHdr (rnd : ℕ) : Pager :=
  let aSavepoint := s.aSavepoint.map fun p =>
    if p.iHdrOffset = 0 then { p with iHdrOffset := s.journalOff } else p
  let off := s.journalHdrOffset
  let cksumInit := rnd % 2 ^ 32
  writeHdrBlocks (s.zHeader cksumInit) (s.geom.sectorSize / s.nHeader)
    { s with aSavepoint := aSavepoint, journalHdr := off, journalOff := off, cksumInit := cksumInit }

/-- The journal file is opened, unless it is open already. -/
def createJournal : Pager :=
  if s.jfdOpen then s
  else { s.io { s.disk with jrnl := some (DiskFile.ofFile File.empty) } with jfdOpen := true }

/-- The part of `pager_open_journal` that forgets the last transaction. -/
def resetJournal : Pager :=
  { s with pInJournal := fun _ => false, nRec := 0, journalOff := 0, journalHdr := 0 }

/-- The state becomes `e`. -/
def setEState (e : EState) : Pager := { s with eState := e }

/-- `pager_open_journal`. -/
def pagerOpenJournal (rnd : ℕ) : Pager :=
  (s.createJournal.resetJournal.writeJournalHdr rnd).setEState .writerCachemod

/-! ### Pages -/

/-- What `readDbPage` reads. -/
def dbPage (pgno : ℕ) : ℕ → UInt8 := fun i => s.disk.db.view.byte (s.geom.pageOfst pgno + i)

/-- The page numbers `sqlite3PagerAcquire` takes. For the others it returns an error. -/
def pgnoOk (pgno : ℕ) : Bool :=
  0 < pgno ∧ pgno ≤ 2147483647 ∧ pgno ≠ s.geom.mjPgno ∧ (s.dbSize < pgno → pgno ≤ s.mxPgno)

/-- `sqlite3PagerAcquire` without flags: page `pgno` is in the cache afterwards. -/
def sqlite3PagerAcquire (pgno : ℕ) : Pager :=
  match s.cache.page pgno with
  | some _ => s
  | none =>
    if s.dbSize < pgno then { s with cache := s.cache.set pgno ⟨fun _ => 0, false, false⟩ }
    else
      { s with
        cache := s.cache.set pgno ⟨s.dbPage pgno, false, false⟩
        dbFileVers := if pgno = 1 then fun i => s.dbPage pgno (24 + i) else s.dbFileVers }

/-- A flag or the contents of a page in the cache changes. -/
def modify (pgno : ℕ) (f : PgHdr → PgHdr) : Pager :=
  match s.cache.page pgno with
  | none => s
  | some h => { s with cache := s.cache.set pgno (f h) }

def pageInJournal (pgno : ℕ) : Bool := s.pInJournal pgno

def subjRequiresPage (pgno : ℕ) : Bool :=
  s.aSavepoint.any fun p => pgno ≤ p.nOrig && !p.pInSavepoint pgno

def addToSavepointBitvecs (pgno : ℕ) : Pager :=
  { s with aSavepoint := s.aSavepoint.map fun p =>
      if pgno ≤ p.nOrig then { p with pInSavepoint := Function.update p.pInSavepoint pgno true }
      else p }

/-- `subjournalPage`, for a page with the contents `data`. -/
def subjournalPage (pgno : ℕ) (data : ℕ → UInt8) : Pager :=
  let offset := s.nSubRec * (4 + s.geom.pageSize)
  addToSavepointBitvecs
    { s with
      sjfd := (s.sjfd.write offset (bytes4 pgno)).write (offset + 4) (s.geom.pageBytes data)
      sjfdOpen := true
      nSubRec := s.nSubRec + 1 } pgno

/-- The three writes of a journal record. -/
def writeRecord (pgno : ℕ) (data : ℕ → UInt8) : Pager :=
  ((s.writeJrnl s.journalOff (bytes4 pgno)).writeJrnl (s.journalOff + 4)
    (s.geom.pageBytes data)).writeJrnl (s.journalOff + s.geom.pageSize + 4)
      (bytes4 (s.geom.pagerCksum s.cksumInit data))

/-- A record was written. -/
def countRecord (pgno : ℕ) : Pager :=
  { s with
    journalOff := s.journalOff + s.geom.jrnlPgSz
    nRec := s.nRec + 1
    pInJournal := Function.update s.pInJournal pgno true }

/-- The page must not be written to the database before the journal is synced. -/
def setNeedSync (pgno : ℕ) : Pager := s.modify pgno fun h => { h with needSync := true }

/-- `sqlite3PcacheMakeDirty`. -/
def makeDirty (pgno : ℕ) : Pager := s.modify pgno fun h => { h with dirty := true }

/-- The part of `pager_write` that puts the page into the journal. -/
def journalPage (pgno : ℕ) (data : ℕ → UInt8) : Pager :=
  (((s.setNeedSync pgno).writeRecord pgno data).countRecord pgno).addToSavepointBitvecs pgno

/-- The part of `pager_write` for a page that is not in the journal yet. -/
def journalOrAppend (pgno : ℕ) (data : ℕ → UInt8) : Pager :=
  if s.pageInJournal pgno then s
  else if pgno ≤ s.dbOrigSize ∧ s.jfdOpen then s.journalPage pgno data
  else if s.eState ≠ .writerDbmod then s.setNeedSync pgno
  else s

/-- The part of `pager_write` for the savepoints. -/
def subjournalIfRequired (pgno : ℕ) (data : ℕ → UInt8) : Pager :=
  if s.subjRequiresPage pgno then s.subjournalPage pgno data else s

/-- The image has the page. -/
def growImage (pgno : ℕ) : Pager := { s with dbSize := max s.dbSize pgno }

/-- The part of `pager_write` that opens the journal. -/
def openJournalIfLocked (rnd : ℕ) : Pager :=
  if s.eState = .writerLocked then s.pagerOpenJournal rnd else s

/-- `pager_write`, for a page in the cache. -/
def pagerWrite (pgno rnd : ℕ) : Pager :=
  match s.cache.page pgno with
  | none => s
  | some h =>
    ((((s.openJournalIfLocked rnd).makeDirty pgno).journalOrAppend pgno h.data).subjournalIfRequired
      pgno h.data).growImage pgno

/-- The page numbers `sqlite3PagerWrite` goes through when several pages share a sector. -/
def sectorPages (pgno : ℕ) : List ℕ :=
  let nPagePerSector := s.geom.sectorSize / s.geom.pageSize
  let pg1 := (pgno - 1) / nPagePerSector * nPagePerSector + 1
  let nPage :=
    if s.dbSize < pgno then pgno - pg1 + 1
    else if s.dbSize < pg1 + nPagePerSector - 1 then s.dbSize + 1 - pg1
    else nPagePerSector
  List.range' pg1 nPage

/-- One turn of that loop. -/
def writeSectorPage (pgno rnd : ℕ) (s : Pager) (pg : ℕ) : Pager :=
  if pg = pgno ∨ s.pageInJournal pg = false then
    if pg ≠ s.geom.mjPgno then (s.sqlite3PagerAcquire pg).pagerWrite pg rnd else s
  else s

def sqlite3PagerWrite (pgno rnd : ℕ) : Pager :=
  if 1 < s.geom.sectorSize / s.geom.pageSize then
    let pages := s.sectorPages pgno
    let s := pages.foldl (writeSectorPage pgno rnd) s
    if pages.any fun pg => (s.cache.page pg).any PgHdr.needSync then
      pages.foldl setNeedSync s
    else s
  else s.pagerWrite pgno rnd

/-! ### Syncing and spilling -/

/-- The part of `syncJournal` that keeps a header left by an earlier transaction from being taken
for the next one. -/
def clearNextHdr : Pager :=
  if s.journalHdrOffset + 8 ≤ s.jrnlView.size ∧
      slice s.jrnlView.byte s.journalHdrOffset 8 = aJournalMagic then
    s.writeJrnl s.journalHdrOffset [0]
  else s

/-- The magic number and the record count are filled in. -/
def fillHdr : Pager := s.writeJrnl s.journalHdr (aJournalMagic ++ bytes4 s.nRec)

/-- What is in the journal is synced. -/
def setJournalHdr : Pager := { s with journalHdr := s.journalOff }

/-- The part of `syncJournal` for a journal on a disk. -/
def syncToDisk (newHdr : Bool) (rnd : ℕ) : Pager :=
  let s := s.clearNextHdr.syncJrnl.fillHdr.syncJrnl.setJournalHdr
  if newHdr then writeJournalHdr { s with nRec := 0 } rnd else s

/-- The end of `syncJournal`. -/
def clearSyncFlags : Pager := { s with cache := s.cache.clearSyncFlags, eState := .writerDbmod }

def syncJournal (newHdr : Bool) (rnd : ℕ) : Pager :=
  if s.jfdOpen ∧ s.journalMode ≠ .memory then (s.syncToDisk newHdr rnd).clearSyncFlags
  else s.setJournalHdr.clearSyncFlags

/-- `pager_write_changecounter`. -/
def pagerWriteChangecounter (data : ℕ → UInt8) : ℕ → UInt8 :=
  let changeCounter := (get4 s.dbFileVers 0 + 1) % 2 ^ 32
  put4 (put4 (put4 data 24 changeCounter) 92 changeCounter) 96 3007017

/-- One page of `pager_write_pagelist`. -/
def pagerWriteOne (pgno : ℕ) : Pager :=
  match s.cache.page pgno with
  | none => s
  | some h =>
    if pgno ≤ s.dbSize then
      let data := if pgno = 1 then s.pagerWriteChangecounter h.data else h.data
      { s.writeDb (s.geom.pageOfst pgno) (s.geom.pageBytes data) with
        cache := s.cache.set pgno { h with data := data }
        dbFileVers := if pgno = 1 then fun i => data (24 + i) else s.dbFileVers
        dbFileSize := max s.dbFileSize pgno }
    else s

/-- `pager_write_pagelist`. -/
def pagerWritePagelist (pages : List ℕ) : Pager := pages.foldl pagerWriteOne s

/-- The part of `pagerStress` that syncs the journal. -/
def syncIfRequired (needSync : Bool) (rnd : ℕ) : Pager :=
  if needSync ∨ s.eState = .writerCachemod then s.syncJournal true rnd else s

/-- The part of `pagerStress` for a page after the end of the image. -/
def subjournalIfBeyond (pgno : ℕ) (data : ℕ → UInt8) : Pager :=
  if s.dbSize < pgno ∧ s.subjRequiresPage pgno then s.subjournalPage pgno data else s

/-- `pagerStress`, on a dirty page. -/
def pagerStress (pgno rnd : ℕ) : Pager :=
  match s.cache.page pgno with
  | none => s
  | some h =>
    ((((s.syncIfRequired h.needSync rnd).subjournalIfBeyond pgno h.data).pagerWritePagelist
      [pgno])).modify pgno PCache.makeClean

/-! ### Committing -/

def sqlite3PagerTruncateImage (nPage : ℕ) : Pager := { s with dbSize := nPage }

/-- `pager_truncate`. -/
def pagerTruncate (nPage : ℕ) : Pager :=
  if 4 ≤ s.eState.val ∨ s.eState = .openS then
    let currentSize := s.disk.db.view.size
    let newSize := s.geom.pageSize * nPage
    if currentSize = newSize then s
    else
      let s :=
        if newSize < currentSize then s.io { s.disk with db := s.disk.db.truncate newSize }
        else if currentSize + s.geom.pageSize ≤ newSize then
          s.writeDb (newSize - s.geom.pageSize) (List.replicate s.geom.pageSize 0)
        else s
      { s with dbFileSize := nPage }
  else s

/-- The change counter of page 1 is counted up in the cache. -/
def countChange : Pager :=
  { s.modify 1 fun h => { h with data := s.pagerWriteChangecounter h.data } with
    changeCountDone := true }

/-- `pager_incr_changecounter`, not in direct mode. -/
def pagerIncrChangecounter (rnd : ℕ) : Pager :=
  if s.changeCountDone = false ∧ 0 < s.dbSize then
    ((s.sqlite3PagerAcquire 1).sqlite3PagerWrite 1 rnd).countChange
  else s

/-- All dirty pages are written. -/
def writeDirtyPages : Pager := s.pagerWritePagelist s.cache.dirtyList

/-- All pages are clean. -/
def cleanAll : Pager := { s with cache := s.cache.cleanAll }

/-- The part of `sqlite3PagerCommitPhaseOne` that makes the file as long as the image. -/
def growFile : Pager :=
  if s.dbFileSize < s.dbSize then
    s.pagerTruncate (s.dbSize - if s.dbSize = s.geom.mjPgno then 1 else 0)
  else s

def sqlite3PagerCommitPhaseOne (rnd : ℕ) : Pager :=
  if s.eState.val < 3 then s
  else
    (((s.pagerIncrChangecounter rnd).syncJournal false rnd).writeDirtyPages.cleanAll.growFile
      |>.sqlite3PagerSync).setEState .writerFinished

/-- The part of `pager_end_transaction` that finalizes the journal. -/
def finalizeJournal : Pager :=
  if s.jfdOpen then { s.io { s.disk with jrnl := none } with jfdOpen := false } else s

/-- The part of `pager_end_transaction` that forgets the transaction. -/
def endSavepoints : Pager :=
  { s with
    aSavepoint := [], sjfdOpen := false, sjfd := File.empty, nSubRec := 0
    pInJournal := fun _ => false, nRec := 0
    cache := s.cache.cleanAll.truncate s.dbSize }

/-- The part of `pager_end_transaction` that cuts the file after a commit. -/
def shrinkFile (bCommit : Bool) : Pager :=
  if bCommit ∧ s.dbSize < s.dbFileSize then s.pagerTruncate s.dbSize else s

/-- `pager_end_transaction`. -/
def pagerEndTransaction (bCommit : Bool) : Pager :=
  { s.finalizeJournal.endSavepoints.shrinkFile bCommit with
    changeCountDone := false, eState := .reader }

def sqlite3PagerCommitPhaseTwo : Pager := s.pagerEndTransaction true

def sqlite3PagerBegin : Pager :=
  { s with
    eState := .writerLocked
    dbFileSize := s.dbSize
    dbOrigSize := s.dbSize
    journalOff := 0 }

end Pager

end SqliteVms

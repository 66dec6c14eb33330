import SqliteVms.Pager.Crash

/-!
# The write-ahead rule

What the pager keeps true while a transaction is under way: every page it may write to the database
file is in a complete segment of the journal, and every disk it makes is safe.

The pages that matter are a parameter. Until the image is truncated they are all pages; afterwards
they are the pages of the truncated image, since a page after the end may be in the cache with
contents that no file has.

## Main definitions

* `Cached` — the pages in the cache, their flags and their contents
* `Idle`, `Live` — a transaction before and after its first write

## Main results

* `pagerOpenJournal_live`, `pagerWrite_live`, `syncJournal_live`, `spill_live` — the operations keep
  `Live`
-/

namespace SqliteVms

open BigEndian Store Disk

namespace Pager

/-! ### What the operations on the journal do -/

section Equations

variable {s : Pager} {d : DiskFile}

/-- The bytes of a header before it is filled in. -/
def hdrBlank (g : Geom) (nOrig cksumInit : ℕ) : List UInt8 :=
  List.replicate 12 0 ++ hdrTail g nOrig cksumInit

/-- `writeJournalHdr` writes one block when a sector is no larger than a page. -/
theorem writeJournalHdr_eq (hsec : s.geom.sectorSize ≤ s.geom.pageSize) (hsave : s.aSavepoint = [])
    (hmode : s.journalMode = .delete) (hjrnl : s.disk.jrnl = some d) (rnd : ℕ) :
    s.writeJournalHdr rnd
      = { s.io ⟨s.disk.db, some (d.write s.journalHdrOffset
            (hdrBlank s.geom s.dbOrigSize (rnd % 2 ^ 32)))⟩ with
          journalHdr := s.journalHdrOffset
          journalOff := s.journalHdrOffset + s.geom.sectorSize
          cksumInit := rnd % 2 ^ 32 } := by
  have hge := s.geom.sector_ge
  have hn : s.nHeader = s.geom.sectorSize := min_eq_right hsec
  have hone : s.geom.sectorSize / s.nHeader = 1 := by
    rw [hn]
    exact Nat.div_self (by omega)
  have hhdr : s.zHeader (rnd % 2 ^ 32) = hdrBlank s.geom s.dbOrigSize (rnd % 2 ^ 32) := by
    rw [Pager.zHeader, if_neg (by rw [hmode]; decide), hn, hdrBlank, hdrTail]
    simp only [List.append_assoc]
  rw [Pager.writeJournalHdr, hone, hhdr, hsave]
  simp only [writeHdrBlocks, Pager.writeJrnl, Pager.io, List.map_nil, Pager.nHeader,
    min_eq_right hsec, hjrnl, Option.map_some]
  rw [hsave]

/-- `pager_open_journal` makes a journal with a header. -/
theorem pagerOpenJournal_eq (hsec : s.geom.sectorSize ≤ s.geom.pageSize) (hsave : s.aSavepoint = [])
    (hmode : s.journalMode = .delete) (hclosed : s.jfdOpen = false) (rnd : ℕ) :
    s.pagerOpenJournal rnd
      = { (s.io ⟨s.disk.db, some (DiskFile.ofFile File.empty)⟩).io
            ⟨s.disk.db, some ((DiskFile.ofFile File.empty).write 0
              (hdrBlank s.geom s.dbOrigSize (rnd % 2 ^ 32)))⟩ with
          jfdOpen := true
          pInJournal := fun _ => false
          nRec := 0
          journalHdr := 0
          journalOff := s.geom.sectorSize
          cksumInit := rnd % 2 ^ 32
          eState := .writerCachemod } := by
  have hcreate : s.createJournal
      = { s.io { s.disk with jrnl := some (DiskFile.ofFile File.empty) } with jfdOpen := true } := by
    rw [Pager.createJournal, if_neg (by rw [hclosed]; decide)]
  have hhdr := writeJournalHdr_eq (s := s.createJournal.resetJournal)
    (d := DiskFile.ofFile File.empty) (by rw [hcreate]; exact hsec) (by rw [hcreate]; exact hsave)
    (by rw [hcreate]; exact hmode) (by rw [hcreate]; rfl) rnd
  rw [Pager.pagerOpenJournal, hhdr, hcreate]
  simp [Pager.resetJournal, Pager.setEState, Pager.io, Pager.journalHdrOffset,
    Geom.journalHdrOffset]

/-- `syncJournal` before it starts a new header, on a journal that ends where the pager writes. -/
theorem syncs_eq (hjrnl : s.disk.jrnl = some d) (hsize : d.view.size = s.journalOff) :
    s.clearNextHdr.syncJrnl.fillHdr.syncJrnl.setJournalHdr
      = { ((s.io ⟨s.disk.db, some d.sync⟩).io
            ⟨s.disk.db, some (d.sync.write s.journalHdr (hdrFront s.nRec))⟩).io
              ⟨s.disk.db, some (DiskFile.ofFile (d.view.write s.journalHdr (hdrFront s.nRec)))⟩ with
          journalHdr := s.journalOff } := by
  have hview : s.jrnlView = d.view := by
    rw [Pager.jrnlView, hjrnl]
    rfl
  have hle := le_journalHdrOffset (g := s.geom) s.journalOff
  have hclear : s.clearNextHdr = s := by
    rw [Pager.clearNextHdr, hview, Pager.journalHdrOffset]
    exact if_neg fun h => by omega
  have hsync : (d.sync.write s.journalHdr (hdrFront s.nRec)).sync
      = DiskFile.ofFile (d.view.write s.journalHdr (hdrFront s.nRec)) := by
    rw [DiskFile.sync, DiskFile.view_write, DiskFile.view_sync]
    rfl
  rw [hclear, ← hsync]
  simp only [Pager.syncJrnl, Pager.fillHdr, Pager.writeJrnl, Pager.io, Pager.setJournalHdr, hjrnl,
    Option.map_some, hdrFront]

/-- The three writes of a record are one. -/
theorem view_record (g : Geom) (f : File) (off pgno cksumInit : ℕ) (data : ℕ → UInt8) :
    ((f.write off (bytes4 pgno)).write (off + 4) (g.pageBytes data)).write (off + g.pageSize + 4)
        (bytes4 (g.pagerCksum cksumInit data))
      = f.write off (recordBytes g cksumInit (pgno, data)) := by
  have hoff : off + g.pageSize + 4 = off + (bytes4 pgno ++ g.pageBytes data).length := by
    rw [List.length_append, length_bytes4, length_pageBytes]
    omega
  refine File.ext ?_ ?_
  · simp only [File.write_size, length_bytes4, length_pageBytes, length_recordBytes, Geom.jrnlPgSz]
    omega
  · rw [File.write_byte, File.write_byte, File.write_byte, File.write_byte, recordBytes,
      ← length_bytes4 pgno, blit_blit_append, length_bytes4, hoff, blit_blit_append]

end Equations

/-! ### The invariant -/

/-- The pages in the cache. `B` holds of the pages that matter, `segs` are the complete segments of
the journal, and `seg` is the open one. -/
structure Cached (g : Geom) (nOrig : ℕ) (B : ℕ → Prop) (segs : List Segment) (seg : Segment)
    (s : Pager) : Prop where
  pgno : ∀ p h, s.cache.page p = some h → p ≠ 0 ∧ p ≠ g.mjPgno
  journaled : ∀ p h, s.cache.page p = some h → h.dirty = true → p ≤ nOrig → s.pInJournal p = true
  synced : ∀ p h, s.cache.page p = some h → h.dirty = true → h.needSync = false → p ≤ nOrig →
    p ∈ pagesOf segs
  opened : ∀ p ∈ pagesOf [seg], ∃ h, s.cache.page p = some h ∧ h.dirty = true ∧ h.needSync = true
  clean : ∀ p h, s.cache.page p = some h → h.dirty = false → B p → ∀ i < g.pageSize,
    h.data i = s.disk.db.view.byte (g.pageOfst p + i)
  dirty_le : ∀ p h, s.cache.page p = some h → h.dirty = true → B p → p ≤ s.dbSize

/-- A transaction that has written to the journal. -/
structure Live (g : Geom) (nOrig : ℕ) (orig : File) (B : ℕ → Prop) (segs : List Segment)
    (seg : Segment) (s : Pager) : Prop where
  geom : s.geom = g
  mode : s.journalMode = .delete
  nosave : s.aSavepoint = []
  jfdOpen : s.jfdOpen = true
  origSize : s.dbOrigSize = nOrig
  eState : s.eState = if segs = [] then .writerCachemod else .writerDbmod
  jrnl : ∃ d, s.disk.jrnl = some d ∧ JrnlSafe g nOrig segs d ∧
    OpenSeg g nOrig (nextHdr g 0 segs) seg d.view
  hdr : s.journalHdr = nextHdr g 0 segs
  off : s.journalOff = nextHdr g 0 segs + seg.length g
  nRec : s.nRec = seg.recs.length
  cksumInit : s.cksumInit = seg.cksumInit
  segsOk : SegsOk g nOrig orig (segs ++ [seg])
  inJournal : ∀ p, s.pInJournal p = true ↔ p ∈ pagesOf (segs ++ [seg])
  db : DbSafe g nOrig orig segs s.disk.db
  fileSize : s.disk.db.view.size = g.pageSize * s.dbFileSize
  beyond : ∀ p, B p → s.dbSize < p → s.disk.db.view.size ≤ g.pageSize * s.dbSize
  cached : Cached g nOrig B segs seg s
  trace : ∀ d ∈ s.trace, Safe g nOrig orig d

/-- A transaction that has not written anything. -/
structure Idle (g : Geom) (nOrig : ℕ) (orig : File) (s : Pager) : Prop where
  geom : s.geom = g
  mode : s.journalMode = .delete
  nosave : s.aSavepoint = []
  jfdOpen : s.jfdOpen = false
  origSize : s.dbOrigSize = nOrig
  eState : s.eState = .writerLocked
  disk : s.disk = ⟨DiskFile.ofFile orig, none⟩
  size : s.dbSize = nOrig
  fileSize : s.dbFileSize = nOrig
  cached : ∀ p h, s.cache.page p = some h → p ≠ 0 ∧ p ≠ g.mjPgno ∧ h.dirty = false ∧
    ∀ i < g.pageSize, h.data i = orig.byte (g.pageOfst p + i)
  trace : s.trace = []

variable {g : Geom} {nOrig : ℕ} {orig : File} {B : ℕ → Prop} {segs : List Segment} {seg : Segment}
  {s : Pager}

/-- The page numbers, the flags and the contents of the pages in the cache may change. -/
theorem Live.update (h : Live g nOrig orig B segs seg s) {c : PCache} {n : ℕ} {v : ℕ → UInt8}
    {b : Bool} (hc : Cached g nOrig B segs seg { s with cache := c, dbSize := n })
    (hn : s.dbSize ≤ n) :
    Live g nOrig orig B segs seg
      { s with cache := c, dbSize := n, dbFileVers := v, changeCountDone := b } := by
  refine ⟨h.geom, h.mode, h.nosave, h.jfdOpen, h.origSize, h.eState, h.jrnl, h.hdr, h.off, h.nRec,
    h.cksumInit, h.segsOk, h.inJournal, h.db, h.fileSize, fun p hB hlt => ?_, ⟨hc.1, hc.2, hc.3, hc.4,
    hc.5, hc.6⟩, h.trace⟩
  have hsize := h.beyond p hB (lt_of_le_of_lt hn hlt)
  exact hsize.trans (Nat.mul_le_mul_left _ hn)

/-- Fewer pages may matter. -/
theorem Live.mono (h : Live g nOrig orig B segs seg s) {B' : ℕ → Prop} (hB : ∀ p, B' p → B p) :
    Live g nOrig orig B' segs seg s := by
  have hc := h.cached
  exact ⟨h.geom, h.mode, h.nosave, h.jfdOpen, h.origSize, h.eState, h.jrnl, h.hdr, h.off, h.nRec,
    h.cksumInit, h.segsOk, h.inJournal, h.db, h.fileSize, fun p hp => h.beyond p (hB p hp),
    ⟨hc.pgno, hc.journaled, hc.synced, hc.opened, fun p h' hp hd hB' => hc.clean p h' hp hd (hB p hB'),
      fun p h' hp hd hB' => hc.dirty_le p h' hp hd (hB p hB')⟩, h.trace⟩

/-- The pages in the cache after one of them is set, and perhaps journaled. -/
theorem Cached.setJournaled (h : Cached g nOrig B segs seg s) {p n : ℕ} {hdr : PgHdr}
    {J : ℕ → Bool} {seg' : Segment} (hn : s.dbSize ≤ n) (hJ : ∀ q, s.pInJournal q = true → J q = true)
    (hseg' : ∀ q ∈ pagesOf [seg'], q = p ∨ q ∈ pagesOf [seg])
    (hpgno : p ≠ 0 ∧ p ≠ g.mjPgno) (hjournaled : hdr.dirty = true → p ≤ nOrig → J p = true)
    (hsynced : hdr.dirty = true → hdr.needSync = false → p ≤ nOrig → p ∈ pagesOf segs)
    (hopened : p ∈ pagesOf [seg'] → hdr.dirty = true ∧ hdr.needSync = true)
    (hclean : hdr.dirty = false → B p → ∀ i < g.pageSize,
      hdr.data i = s.disk.db.view.byte (g.pageOfst p + i))
    (hle : hdr.dirty = true → B p → p ≤ n) :
    Cached g nOrig B segs seg'
      { s with cache := s.cache.set p hdr, dbSize := n, pInJournal := J } := by
  refine ⟨fun q h' hq => ?_, fun q h' hq hd hqn => ?_, fun q h' hq hd hs hqn => ?_, fun q hq => ?_,
    fun q h' hq hd hB => ?_, fun q h' hq hd hB => ?_⟩
  · rcases PCache.set_cases hq with ⟨rfl, rfl⟩ | ⟨-, hq⟩
    · exact hpgno
    · exact h.pgno q h' hq
  · rcases PCache.set_cases hq with ⟨rfl, rfl⟩ | ⟨-, hq⟩
    · exact hjournaled hd hqn
    · exact hJ q (h.journaled q h' hq hd hqn)
  · rcases PCache.set_cases hq with ⟨rfl, rfl⟩ | ⟨-, hq⟩
    · exact hsynced hd hs hqn
    · exact h.synced q h' hq hd hs hqn
  · rcases eq_or_ne q p with rfl | hne
    · exact ⟨hdr, Function.update_self _ _ _, hopened hq⟩
    · obtain ⟨h', hpage, hflags⟩ := h.opened q ((hseg' q hq).resolve_left hne)
      exact ⟨h', (Function.update_of_ne hne _ _).trans hpage, hflags⟩
  · rcases PCache.set_cases hq with ⟨rfl, rfl⟩ | ⟨-, hq⟩
    · exact hclean hd hB
    · exact h.clean q h' hq hd hB
  · rcases PCache.set_cases hq with ⟨rfl, rfl⟩ | ⟨-, hq⟩
    · exact hle hd hB
    · exact (h.dirty_le q h' hq hd hB).trans hn

/-- The pages in the cache after one of them is set. -/
theorem Cached.set (h : Cached g nOrig B segs seg s) {p n : ℕ} {hdr : PgHdr} (hn : s.dbSize ≤ n)
    (hpgno : p ≠ 0 ∧ p ≠ g.mjPgno)
    (hjournaled : hdr.dirty = true → p ≤ nOrig → s.pInJournal p = true)
    (hsynced : hdr.dirty = true → hdr.needSync = false → p ≤ nOrig → p ∈ pagesOf segs)
    (hopened : p ∈ pagesOf [seg] → hdr.dirty = true ∧ hdr.needSync = true)
    (hclean : hdr.dirty = false → B p → ∀ i < g.pageSize,
      hdr.data i = s.disk.db.view.byte (g.pageOfst p + i))
    (hle : hdr.dirty = true → B p → p ≤ n) :
    Cached g nOrig B segs seg { s with cache := s.cache.set p hdr, dbSize := n } :=
  h.setJournaled hn (fun _ hq => hq) (fun _ hq => Or.inr hq) hpgno hjournaled hsynced hopened hclean
    hle

/-- The bytes of a page after the end of the file are zero. -/
theorem byte_beyond {f : File} {p n : ℕ} (hsize : f.size ≤ g.pageSize * n) (hlt : n < p) (i : ℕ) :
    f.byte (g.pageOfst p + i) = 0 := by
  refine f.tight _ ?_
  have hmul : n * g.pageSize ≤ (p - 1) * g.pageSize := Nat.mul_le_mul_right _ (by omega)
  rw [Geom.pageOfst]
  rw [Nat.mul_comm] at hsize
  omega

/-- A page of the original that is not in the journal is as it was. -/
theorem Live.fresh (h : Live g nOrig orig B segs seg s) {p : ℕ} {hdr : PgHdr}
    (hpage : s.cache.page p = some hdr) (hB : B p) (hle : p ≤ nOrig) (hnot : s.pInJournal p = false) :
    RecOf g orig (p, hdr.data) := by
  have h0 := (h.cached.pgno p hdr hpage).1
  refine ⟨h0, fun i hi => ?_⟩
  have hclean : hdr.dirty = false := by
    by_contra hd
    rw [Bool.not_eq_false] at hd
    rw [h.cached.journaled p hdr hpage hd hle] at hnot
    exact Bool.noConfusion hnot
  refine (h.cached.clean p hdr hpage hclean hB i hi).trans ?_
  have hpageOf : g.pageOf (g.pageOfst p + i) = p := (pageOf_iff h0).mpr ⟨by omega, by omega⟩
  refine h.db.view_eq ?_ ?_
  · have hmul : (p - 1 + 1) * g.pageSize ≤ nOrig * g.pageSize := Nat.mul_le_mul_right _ (by omega)
    rw [Nat.add_mul, Nat.one_mul] at hmul
    rw [Geom.pageOfst, Nat.mul_comm g.pageSize]
    omega
  · rw [hpageOf]
    intro hmem
    have hin : s.pInJournal p = true := (h.inJournal p).mpr (by
      rw [pagesOf_append]
      exact List.mem_append_left _ hmem)
    rw [hin] at hnot
    exact Bool.noConfusion hnot

/-! ### Reading a page -/

/-- `sqlite3PagerAcquire` changes the cache only. -/
theorem sqlite3PagerAcquire_live (h : Live g nOrig orig B segs seg s) {p : ℕ} (h0 : p ≠ 0)
    (hmj : p ≠ g.mjPgno) : Live g nOrig orig B segs seg (s.sqlite3PagerAcquire p) := by
  rw [Pager.sqlite3PagerAcquire]
  split
  · exact h
  · rename_i hnone
    have hnot : p ∉ pagesOf [seg] := by
      intro hmem
      obtain ⟨h', hpage, -⟩ := h.cached.opened p hmem
      rw [hnone] at hpage
      exact absurd hpage (by simp)
    split
    · rename_i hlt
      refine h.update (h.cached.set le_rfl ⟨h0, hmj⟩ (by simp) (by simp) (fun hmem => absurd hmem hnot)
        (fun _ hB i _ => ?_) (by simp)) le_rfl
      exact (byte_beyond (h.beyond p hB hlt) hlt i).symm
    · refine h.update (h.cached.set le_rfl ⟨h0, hmj⟩ (by simp) (by simp) (fun hmem => absurd hmem hnot)
        (fun _ hB i _ => ?_) (by simp)) le_rfl
      exact congrArg (fun g : Geom => s.disk.db.view.byte (g.pageOfst p + i)) h.geom

/-! ### Writing a page -/

theorem modify_eq {p : ℕ} {hdr : PgHdr} (hpage : s.cache.page p = some hdr) (f : PgHdr → PgHdr) :
    s.modify p f = { s with cache := s.cache.set p (f hdr) } := by
  rw [Pager.modify, hpage]

theorem PCache.set_set (c : PCache) (p : ℕ) (a b : PgHdr) : (c.set p a).set p b = c.set p b := by
  simp [PCache.set]

theorem pagesOf_record (segs : List Segment) (cksumInit : ℕ) (recs : List Record) (r : Record) :
    pagesOf (segs ++ [⟨cksumInit, recs ++ [r]⟩]) = pagesOf (segs ++ [⟨cksumInit, recs⟩]) ++ [r.1] := by
  simp [pagesOf]

/-- A page of the original is added to the open segment. -/
theorem SegsOk.record (h : SegsOk g nOrig orig (segs ++ [seg])) {r : Record}
    (hnot : r.1 ∉ pagesOf (segs ++ [seg])) (hpgno : PgnoOk g nOrig r.1) (hrec : RecOf g orig r) :
    SegsOk g nOrig orig (segs ++ [⟨seg.cksumInit, seg.recs ++ [r]⟩]) := by
  refine ⟨fun seg' hseg' => ?_, fun r' hr' => ?_, ?_⟩
  · rcases List.mem_append.mp hseg' with hseg' | hseg'
    · exact h.cksum seg' (List.mem_append_left _ hseg')
    · rw [List.mem_singleton] at hseg'
      rw [hseg']
      exact h.cksum seg (by simp)
  · have hmem : r' ∈ (segs ++ [seg]).flatMap Segment.recs ∨ r' = r := by
      simp only [List.flatMap_append, List.mem_append, List.flatMap_singleton,
        List.mem_singleton] at hr' ⊢
      tauto
    rcases hmem with hmem | rfl
    · exact h.recs r' hmem
    · exact ⟨hpgno, hrec⟩
  · rw [pagesOf_record]
    refine List.nodup_append.mpr ⟨h.nodup, by simp, fun a ha b hb => ?_⟩
    rw [List.mem_singleton] at hb
    rintro rfl
    rw [hb] at ha
    exact hnot ha

/-- What `pager_write` does to a pager in the state `s`, apart from the journal. -/
structure Written (s s' : Pager) (p : ℕ) (hdr : PgHdr) : Prop where
  page : ∃ hdr', s'.cache.page p = some hdr' ∧ hdr'.data = hdr.data ∧ hdr'.dirty = true
  others : ∀ q ≠ p, s'.cache.page q = s.cache.page q
  dbSize : s'.dbSize = max s.dbSize p
  db : s'.disk.db = s.disk.db
  dbFileSize : s'.dbFileSize = s.dbFileSize
  dbFileVers : s'.dbFileVers = s.dbFileVers
  changeCountDone : s'.changeCountDone = s.changeCountDone
  mxPgno : s'.mxPgno = s.mxPgno
  geom : s'.geom = s.geom

theorem subjournalIfRequired_eq (hsave : s.aSavepoint = []) (p : ℕ) (data : ℕ → UInt8) :
    s.subjournalIfRequired p data = s := by
  rw [Pager.subjournalIfRequired, if_neg]
  simp [Pager.subjRequiresPage, hsave]

/-- `journalPage`, when there are no savepoints. -/
theorem journalPage_eq {d : DiskFile} {p : ℕ} {hdr : PgHdr} (hpage : s.cache.page p = some hdr)
    (hsave : s.aSavepoint = []) (hjrnl : s.disk.jrnl = some d) (data : ℕ → UInt8) :
    s.journalPage p data
      = { ((s.io ⟨s.disk.db, some (d.write s.journalOff (bytes4 p))⟩).io
            ⟨s.disk.db, some ((d.write s.journalOff (bytes4 p)).write (s.journalOff + 4)
              (s.geom.pageBytes data))⟩).io
            ⟨s.disk.db, some (((d.write s.journalOff (bytes4 p)).write (s.journalOff + 4)
              (s.geom.pageBytes data)).write (s.journalOff + s.geom.pageSize + 4)
                (bytes4 (s.geom.pagerCksum s.cksumInit data)))⟩ with
          cache := s.cache.set p { hdr with needSync := true }
          journalOff := s.journalOff + s.geom.jrnlPgSz
          nRec := s.nRec + 1
          pInJournal := Function.update s.pInJournal p true } := by
  rw [Pager.journalPage, Pager.setNeedSync, modify_eq hpage]
  simp only [Pager.writeRecord, Pager.writeJrnl, Pager.io, Pager.countRecord,
    Pager.addToSavepointBitvecs, hjrnl, hsave, Option.map_some, List.map_nil]

/-- The page is journaled. -/
theorem journalPage_live (h : Live g nOrig orig B segs seg s) (hn : nOrig ≤ 2147483647) {p : ℕ}
    {hdr : PgHdr} (hpage : s.cache.page p = some hdr) (hB : B p) (hle : p ≤ nOrig)
    (hnot : s.pInJournal p = false) :
    Live g nOrig orig B segs ⟨seg.cksumInit, seg.recs ++ [(p, hdr.data)]⟩
      (((s.makeDirty p).journalPage p hdr.data).growImage p) := by
  obtain ⟨d, hjrnl, hjsafe, hopen⟩ := h.jrnl
  have hge := g.sector_ge
  have hseg : seg.length g = g.sectorSize + seg.recs.length * g.jrnlPgSz := rfl
  have hpgno := h.cached.pgno p hdr hpage
  have hnmem : p ∉ pagesOf (segs ++ [seg]) := by
    rw [← h.inJournal p, hnot]
    exact Bool.false_ne_true
  have hpage' : (s.cache.set p { hdr with dirty := true }).page p
      = some { hdr with dirty := true } := Function.update_self _ _ _
  have hsegs := h.segsOk.record (r := (p, hdr.data)) hnmem ⟨hpgno.1, hle, hpgno.2⟩
    (h.fresh hpage hB hle hnot)
  have hoff := h.off
  have hj₁ := hjsafe.write s.journalOff (bytes4 p) (Or.inr (by omega))
  have hj₂ := hj₁.write (s.journalOff + 4) (g.pageBytes hdr.data) (Or.inr (by omega))
  have hj₃ := hj₂.write (s.journalOff + g.pageSize + 4)
    (bytes4 (g.pagerCksum seg.cksumInit hdr.data)) (Or.inr (by omega))
  have hdirty : s.makeDirty p = { s with cache := s.cache.set p { hdr with dirty := true } } :=
    modify_eq hpage _
  rw [hdirty, journalPage_eq (s := { s with cache := s.cache.set p { hdr with dirty := true } })
    hpage' h.nosave hjrnl]
  dsimp only [Pager.io, Pager.growImage]
  rw [h.geom, h.cksumInit, PCache.set_set]
  refine ⟨rfl, h.mode, h.nosave, h.jfdOpen, h.origSize, h.eState, ⟨_, rfl, hj₃, ?_⟩, h.hdr, ?_, ?_,
    rfl, hsegs, fun q => ?_, h.db, h.fileSize, fun q hq hlt => ?_, ?_, ?_⟩
  · rw [DiskFile.view_write, DiskFile.view_write, DiskFile.view_write, view_record, h.off]
    exact hopen.record (p, hdr.data)
  · dsimp only
    rw [h.off, Segment.length, Segment.length, List.length_append, List.length_singleton, Nat.add_mul]
    omega
  · dsimp only
    rw [h.nRec, List.length_append, List.length_singleton]
  · rw [pagesOf_record, List.mem_append, ← h.inJournal q, List.mem_singleton]
    dsimp only
    rcases eq_or_ne q p with rfl | hne
    · simp
    · rw [Function.update_of_ne hne]
      simp [hne]
  · have hold := h.beyond q hq (lt_of_le_of_lt (le_max_left _ _) hlt)
    exact hold.trans (Nat.mul_le_mul_left _ (le_max_left _ _))
  · have hnew : Cached g nOrig B segs ⟨seg.cksumInit, seg.recs ++ [(p, hdr.data)]⟩
        { s with
          cache := s.cache.set p { hdr with dirty := true, needSync := true }
          dbSize := max s.dbSize p
          pInJournal := Function.update s.pInJournal p true } := by
      refine h.cached.setJournaled (le_max_left _ _) (fun q hq => ?_) (fun q hq => ?_) hpgno
        (fun _ _ => Function.update_self _ _ _) (fun _ hs => absurd hs (by simp))
        (fun _ => ⟨rfl, rfl⟩) (fun hd => absurd hd (by simp)) (fun _ _ => le_max_right _ _)
      · rcases eq_or_ne q p with rfl | hne
        · exact Function.update_self _ _ _
        · rwa [Function.update_of_ne hne]
      · have hsplit := pagesOf_record [] seg.cksumInit seg.recs (p, hdr.data)
        rw [List.nil_append, List.nil_append] at hsplit
        rw [hsplit, List.mem_append, List.mem_singleton] at hq
        exact hq.symm
    exact ⟨hnew.1, hnew.2, hnew.3, hnew.4, hnew.5, hnew.6⟩
  · intro d' hd'
    simp only [List.mem_append, List.mem_singleton] at hd'
    rcases hd' with ((hd' | rfl) | rfl) | rfl
    · exact h.trace d' hd'
    · exact safe_of_sides h.segsOk.left hn h.db hj₁
    · exact safe_of_sides h.segsOk.left hn h.db hj₂
    · exact safe_of_sides h.segsOk.left hn h.db hj₃

theorem Live.notLocked (h : Live g nOrig orig B segs seg s) : s.eState ≠ .writerLocked := by
  rw [h.eState]
  split <;> decide

/-- The flags of the page after `pager_write`, when it is not added to the journal. -/
theorem Live.makeDirty (h : Live g nOrig orig B segs seg s) {p : ℕ} {hdr : PgHdr} {b : Bool}
    (hpage : s.cache.page p = some hdr) (hb : hdr.needSync = true → b = true)
    (hin : p ≤ nOrig → s.pInJournal p = true) :
    Live g nOrig orig B segs seg
      { s with
        cache := s.cache.set p { hdr with dirty := true, needSync := b }
        dbSize := max s.dbSize p } := by
  have hpgno := h.cached.pgno p hdr hpage
  have hopened : p ∈ pagesOf [seg] → hdr.needSync = true := by
    intro hmem
    obtain ⟨h', hpage', -, hsync⟩ := h.cached.opened p hmem
    rw [hpage] at hpage'
    rw [Option.some.inj hpage']
    exact hsync
  refine h.update (h.cached.set (le_max_left _ _) hpgno (fun _ hle => hin hle)
    (fun _ hs hle => ?_) (fun hmem => ⟨rfl, hb (hopened hmem)⟩) (fun hd => absurd hd (by simp))
    (fun _ _ => le_max_right _ _)) (le_max_left _ _)
  -- the page is in the journal, and a page of the open segment still needs a sync
  have hmem := (h.inJournal p).mp (hin hle)
  rw [pagesOf_append, List.mem_append] at hmem
  rcases hmem with hmem | hmem
  · exact hmem
  · have hs : b = false := hs
    rw [hb (hopened hmem)] at hs
    exact Bool.noConfusion hs

/-- The bytes of `pager_write` that stay: everything but the page, the image size and the journal. -/
theorem written_set {s' : Pager} {p : ℕ} {hdr : PgHdr} (hdr' : PgHdr) (hcache : s'.cache = s.cache.set p hdr')
    (hdata : hdr'.data = hdr.data) (hdirty : hdr'.dirty = true) (hsize : s'.dbSize = max s.dbSize p)
    (hrest : s'.disk.db = s.disk.db ∧ s'.dbFileSize = s.dbFileSize ∧ s'.dbFileVers = s.dbFileVers ∧
      s'.changeCountDone = s.changeCountDone ∧ s'.mxPgno = s.mxPgno ∧ s'.geom = s.geom) :
    Written s s' p hdr := by
  obtain ⟨hdb, hfile, hvers, hcount, hmx, hgeom⟩ := hrest
  refine ⟨⟨hdr', ?_, hdata, hdirty⟩, fun q hq => ?_, hsize, hdb, hfile, hvers, hcount, hmx, hgeom⟩
  · rw [hcache]
    exact Function.update_self _ _ _
  · rw [hcache]
    exact Function.update_of_ne hq _ _

/-- **`pager_write` keeps the invariant**: the page is journaled before it is changed. -/
theorem pagerWrite_live (h : Live g nOrig orig B segs seg s) (hn : nOrig ≤ 2147483647) {p : ℕ}
    {hdr : PgHdr} (hpage : s.cache.page p = some hdr) (hB : B p) (rnd : ℕ) :
    ∃ seg', Live g nOrig orig B segs seg' (s.pagerWrite p rnd) ∧
      Written s (s.pagerWrite p rnd) p hdr := by
  have hlocked : s.openJournalIfLocked rnd = s := if_neg h.notLocked
  have hdirty : s.makeDirty p = { s with cache := s.cache.set p { hdr with dirty := true } } :=
    modify_eq hpage _
  have hpage' : (s.makeDirty p).cache.page p = some { hdr with dirty := true } := by
    rw [hdirty]
    exact Function.update_self _ _ _
  rw [Pager.pagerWrite, hpage]
  dsimp only
  rw [hlocked]
  rcases Bool.eq_false_or_eq_true (s.pInJournal p) with hin | hnot
  · -- the page is in the journal already
    have hjoa : (s.makeDirty p).journalOrAppend p hdr.data = s.makeDirty p := by
      rw [Pager.journalOrAppend, if_pos (by rw [hdirty]; exact hin)]
    rw [hjoa, hdirty, subjournalIfRequired_eq (by exact h.nosave)]
    exact ⟨seg, h.makeDirty hpage (fun hs => hs) fun _ => hin,
      written_set _ rfl rfl rfl rfl ⟨rfl, rfl, rfl, rfl, rfl, rfl⟩⟩
  · have hjoa : (s.makeDirty p).journalOrAppend p hdr.data
        = if p ≤ (s.makeDirty p).dbOrigSize ∧ (s.makeDirty p).jfdOpen then
            (s.makeDirty p).journalPage p hdr.data
          else if (s.makeDirty p).eState ≠ .writerDbmod then (s.makeDirty p).setNeedSync p
          else s.makeDirty p := by
      rw [Pager.journalOrAppend, if_neg (by rw [hdirty]; simpa [Pager.pageInJournal] using hnot)]
    by_cases hle : p ≤ nOrig
    · -- a page of the original
      rw [if_pos (by rw [hdirty]; exact ⟨h.origSize ▸ hle, h.jfdOpen⟩)] at hjoa
      obtain ⟨d, hjrnl, -, -⟩ := h.jrnl
      have heq := journalPage_eq (s := s.makeDirty p) hpage' (by rw [hdirty]; exact h.nosave)
        (by rw [hdirty]; exact hjrnl) hdr.data
      have hsub : ((s.makeDirty p).journalPage p hdr.data).subjournalIfRequired p hdr.data
          = (s.makeDirty p).journalPage p hdr.data := by
        refine subjournalIfRequired_eq ?_ p hdr.data
        rw [heq, hdirty]
        exact h.nosave
      rw [hjoa, hsub]
      refine ⟨_, journalPage_live h hn hpage hB hle hnot, ?_⟩
      rw [heq, hdirty]
      dsimp only [Pager.io, Pager.growImage]
      rw [PCache.set_set]
      exact written_set _ rfl rfl rfl rfl ⟨rfl, rfl, rfl, rfl, rfl, rfl⟩
    · -- a page after the end of the original
      rw [if_neg (by rw [hdirty]; rintro ⟨hle', -⟩; exact hle (h.origSize ▸ hle'))] at hjoa
      have hset : ∃ b, (hdr.needSync = true → b = true) ∧ (s.makeDirty p).journalOrAppend p hdr.data
          = { s with cache := s.cache.set p { hdr with dirty := true, needSync := b } } := by
        rw [hjoa]
        split
        · refine ⟨true, fun _ => rfl, ?_⟩
          rw [Pager.setNeedSync, modify_eq hpage', hdirty]
          dsimp only
          rw [PCache.set_set]
        · exact ⟨hdr.needSync, id, hdirty⟩
      obtain ⟨b, hb, hset⟩ := hset
      rw [hset, subjournalIfRequired_eq (by exact h.nosave)]
      exact ⟨seg, h.makeDirty hpage hb fun hle' => absurd hle' hle,
        written_set _ rfl rfl rfl rfl ⟨rfl, rfl, rfl, rfl, rfl, rfl⟩⟩

/-- The contents of a dirty page may be changed. -/
theorem Live.setData (h : Live g nOrig orig B segs seg s) {p : ℕ} {hdr : PgHdr}
    (hpage : s.cache.page p = some hdr) (hdirty : hdr.dirty = true) (data : ℕ → UInt8) {b : Bool} :
    Live g nOrig orig B segs seg
      { s with cache := s.cache.set p { hdr with data := data }, changeCountDone := b } := by
  refine h.update (h.cached.set le_rfl (h.cached.pgno p hdr hpage)
    (fun hd hle => h.cached.journaled p hdr hpage hd hle)
    (fun hd hs hle => h.cached.synced p hdr hpage hd hs hle) (fun hmem => ?_)
    (fun hd => absurd (hd.symm.trans hdirty) (by decide))
    (fun hd hB => h.cached.dirty_le p hdr hpage hd hB)) le_rfl
  obtain ⟨h', hpage', hflags⟩ := h.cached.opened p hmem
  rw [hpage] at hpage'
  rw [← Option.some.inj hpage'] at hflags
  exact hflags

/-- **The first write opens the journal.** -/
theorem pagerOpenJournal_live (h : Idle g nOrig orig s) (hsec : g.sectorSize ≤ g.pageSize)
    (hn : nOrig ≤ 2147483647) (horig : orig.size = g.pageSize * nOrig) (rnd : ℕ) :
    Live g nOrig orig (fun _ => True) [] ⟨rnd % 2 ^ 32, []⟩ (s.pagerOpenJournal rnd) ∧
      (s.pagerOpenJournal rnd).cache = s.cache := by
  have hsegs : SegsOk g nOrig orig ([] ++ [⟨rnd % 2 ^ 32, []⟩]) :=
    ⟨fun seg hseg => by
      rw [List.nil_append, List.mem_singleton] at hseg
      rw [hseg]
      exact Nat.mod_lt _ (by norm_num), by simp, by simp [pagesOf]⟩
  have hdb : DbSafe g nOrig orig [] s.disk.db := by
    rw [h.disk]
    exact ⟨horig.ge, fun _ hop => absurd hop List.not_mem_nil,
      fun i _ _ => ⟨rfl, fun _ hop => absurd hop List.not_mem_nil⟩, fun _ => rfl⟩
  have hj₀ : JrnlSafe g nOrig [] (DiskFile.ofFile File.empty) :=
    ⟨trivial, noMagic_of_size_le (Nat.zero_le _), fun _ hop => absurd hop List.not_mem_nil⟩
  have hlen : (hdrBlank g nOrig (rnd % 2 ^ 32)).length = g.sectorSize := by
    have hge := g.sector_ge
    rw [hdrBlank, List.length_append, List.length_replicate, length_hdrTail]
    omega
  have hj₁ := hj₀.write 0 (hdrBlank g nOrig (rnd % 2 ^ 32)) (Or.inl
    ⟨rfl, by have := g.sector_ge; omega, by simp [hdrBlank, aJournalMagic]⟩)
  rw [pagerOpenJournal_eq (by rw [h.geom]; exact hsec) h.nosave h.mode h.jfdOpen]
  dsimp only [Pager.io]
  rw [h.geom, h.origSize]
  refine ⟨⟨rfl, h.mode, h.nosave, rfl, rfl, rfl, ⟨_, rfl, hj₁, ?_⟩, rfl, ?_, rfl, rfl, hsegs,
    fun p => ?_, hdb, ?_, fun p _ _ => ?_, ⟨fun p h' hp => ?_, fun p h' hp hd => ?_,
    fun p h' hp hd => ?_, fun p hp => ?_, fun p h' hp _ _ i hi => ?_, fun p h' hp hd => ?_⟩, ?_⟩, rfl⟩
  · rw [DiskFile.view_write]
    exact openSeg_header (Nat.zero_le _)
  · simp [nextHdr, Segment.length]
  · simp [pagesOf]
  · rw [h.disk, h.fileSize]
    exact horig
  · rw [h.disk, h.size]
    exact horig.le
  · exact ⟨(h.cached p h' hp).1, (h.cached p h' hp).2.1⟩
  · exact absurd ((h.cached p h' hp).2.2.1.symm.trans hd) (by decide)
  · exact absurd ((h.cached p h' hp).2.2.1.symm.trans hd) (by decide)
  · exact absurd hp (by simp [pagesOf])
  · rw [h.disk]
    exact (h.cached p h' hp).2.2.2 i hi
  · exact absurd ((h.cached p h' hp).2.2.1.symm.trans hd) (by decide)
  · intro d hd
    simp only [h.trace, List.nil_append, List.mem_append, List.mem_singleton] at hd
    rcases hd with rfl | rfl
    · exact safe_of_sides hsegs.left hn hdb hj₀
    · exact safe_of_sides hsegs.left hn hdb hj₁

/-! ### Syncing the journal -/

/-- The journal is synced, its open segment is complete, and no other is open. -/
structure Ready (g : Geom) (nOrig : ℕ) (orig : File) (segs : List Segment) (s : Pager) : Prop where
  geom : s.geom = g
  jfdOpen : s.jfdOpen = true
  eState : s.eState = .writerDbmod
  jrnl : ∃ d, s.disk.jrnl = some d ∧ JrnlSafe g nOrig segs d
  ne : segs ≠ []
  segsOk : SegsOk g nOrig orig segs
  db : DbSafe g nOrig orig segs s.disk.db
  fileSize : s.disk.db.view.size = g.pageSize * s.dbFileSize
  pgno : ∀ p h, s.cache.page p = some h → p ≠ 0
  synced : ∀ p h, s.cache.page p = some h → h.dirty = true → p ≤ nOrig → p ∈ pagesOf segs
  trace : ∀ d ∈ s.trace, Safe g nOrig orig d

/-- What the syncs of `syncJournal` leave. -/
theorem Live.syncs (h : Live g nOrig orig B segs seg s) (hn : nOrig ≤ 2147483647) :
    ∃ f, JrnlSafe g nOrig (segs ++ [seg]) (DiskFile.ofFile f) ∧ f.size = s.journalOff ∧
      ∃ trace, (∀ d ∈ trace, Safe g nOrig orig d) ∧
        s.clearNextHdr.syncJrnl.fillHdr.syncJrnl.setJournalHdr
          = { s with
              disk := ⟨s.disk.db, some (DiskFile.ofFile f)⟩
              trace := trace
              journalHdr := s.journalOff } := by
  obtain ⟨d, hjrnl, hjsafe, hopen⟩ := h.jrnl
  have hge := g.sector_ge
  have hlen : seg.length g = g.sectorSize + seg.recs.length * g.jrnlPgSz := rfl
  have hsize : d.view.size = s.journalOff := hopen.size.trans h.off.symm
  have hdone := hjsafe.complete hopen
  have hfill := safe_completing h.segsOk hn h.db hjsafe hopen
  rw [← h.hdr, ← h.nRec] at hdone hfill
  refine ⟨_, hdone, ?_, ?_⟩
  · rw [File.write_size, hsize, length_hdrFront, h.hdr, h.off]
    omega
  · rw [syncs_eq hjrnl hsize]
    refine ⟨_, fun d' hd' => ?_, rfl⟩
    simp only [Pager.io, List.mem_append, List.mem_singleton] at hd'
    rcases hd' with ((hd' | rfl) | rfl) | rfl
    · exact h.trace d' hd'
    · exact safe_of_sides h.segsOk.left hn h.db hjsafe.sync
    · exact hfill
    · exact safe_of_sides h.segsOk hn (h.db.append seg) hdone

theorem clearSyncFlags_page {c : PCache} {p : ℕ} {hdr : PgHdr}
    (hpage : c.clearSyncFlags.page p = some hdr) :
    ∃ hdr', c.page p = some hdr' ∧ hdr.data = hdr'.data ∧ hdr.dirty = hdr'.dirty ∧
      (hdr.dirty = true → hdr.needSync = false) := by
  rw [PCache.clearSyncFlags, PCache.map_page, Option.bind_eq_some_iff] at hpage
  obtain ⟨hdr', hpage', heq⟩ := hpage
  refine ⟨hdr', hpage', ?_⟩
  rw [← Option.some.inj heq]
  split
  · exact ⟨rfl, rfl, fun _ => rfl⟩
  · rename_i hd
    exact ⟨rfl, rfl, fun hd' => absurd hd' hd⟩

theorem pagesOf_empty (segs : List Segment) (cksumInit : ℕ) :
    pagesOf (segs ++ [⟨cksumInit, []⟩]) = pagesOf segs := by
  simp [pagesOf]

/-- The pages in the cache when every page in the journal is in a complete segment. -/
theorem Cached.clearSyncFlags (h : Cached g nOrig B segs seg s)
    (hin : ∀ p, s.pInJournal p = true → p ∈ pagesOf (segs ++ [seg])) (cksumInit : ℕ) :
    Cached g nOrig B (segs ++ [seg]) ⟨cksumInit, []⟩ { s with cache := s.cache.clearSyncFlags } := by
  refine ⟨fun p hdr hp => ?_, fun p hdr hp hd hle => ?_, fun p hdr hp hd _ hle => ?_, fun p hp => ?_,
    fun p hdr hp hd hB => ?_, fun p hdr hp hd hB => ?_⟩
  · obtain ⟨hdr', hp', -⟩ := clearSyncFlags_page hp
    exact h.pgno p hdr' hp'
  · obtain ⟨hdr', hp', -, hd', -⟩ := clearSyncFlags_page hp
    exact h.journaled p hdr' hp' (hd' ▸ hd) hle
  · obtain ⟨hdr', hp', -, hd', -⟩ := clearSyncFlags_page hp
    exact hin p (h.journaled p hdr' hp' (hd' ▸ hd) hle)
  · exact absurd hp (by simp [pagesOf])
  · obtain ⟨hdr', hp', hdata, hd', -⟩ := clearSyncFlags_page hp
    rw [hdata]
    exact h.clean p hdr' hp' (hd' ▸ hd) hB
  · obtain ⟨hdr', hp', -, hd', -⟩ := clearSyncFlags_page hp
    exact h.dirty_le p hdr' hp' (hd' ▸ hd) hB

/-- What `syncJournal` leaves alone. -/
structure Synced (s s' : Pager) : Prop where
  cache : s'.cache = s.cache.clearSyncFlags
  dbSize : s'.dbSize = s.dbSize
  db : s'.disk.db = s.disk.db
  dbFileSize : s'.dbFileSize = s.dbFileSize
  dbFileVers : s'.dbFileVers = s.dbFileVers
  nosave : s'.aSavepoint = s.aSavepoint
  geom : s'.geom = s.geom
  mxPgno : s'.mxPgno = s.mxPgno

/-- **`syncJournal` completes the open segment** and starts a new one. -/
theorem syncJournal_live (h : Live g nOrig orig B segs seg s) (hsec : g.sectorSize ≤ g.pageSize)
    (hn : nOrig ≤ 2147483647) (rnd : ℕ) :
    Live g nOrig orig B (segs ++ [seg]) ⟨rnd % 2 ^ 32, []⟩ (s.syncJournal true rnd) ∧
      Synced s (s.syncJournal true rnd) := by
  obtain ⟨f, hjsafe, hsize, trace, htrace, hsyncs⟩ := h.syncs hn
  have hge := g.sector_ge
  have hsegs : SegsOk g nOrig orig (segs ++ [seg] ++ [⟨rnd % 2 ^ 32, []⟩]) := by
    refine ⟨fun seg' hseg' => ?_, fun r hr => h.segsOk.recs r ?_, ?_⟩
    · rcases List.mem_append.mp hseg' with hseg' | hseg'
      · exact h.segsOk.cksum seg' hseg'
      · rw [List.mem_singleton] at hseg'
        rw [hseg']
        exact Nat.mod_lt _ (by norm_num)
    · simpa using hr
    · rw [pagesOf_empty]
      exact h.segsOk.nodup
  have hnext : g.journalHdrOffset s.journalOff = nextHdr g 0 (segs ++ [seg]) := by
    rw [nextHdr_append, h.off]
  have hle := le_journalHdrOffset (g := g) s.journalOff
  have hlen : (hdrBlank g nOrig (rnd % 2 ^ 32)).length = g.sectorSize := by
    rw [hdrBlank, List.length_append, List.length_replicate, length_hdrTail]
    omega
  have hj := hjsafe.write (nextHdr g 0 (segs ++ [seg])) (hdrBlank g nOrig (rnd % 2 ^ 32))
    (Or.inl ⟨rfl, by omega, by simp [hdrBlank, aJournalMagic]⟩)
  have hhdr := writeJournalHdr_eq (d := DiskFile.ofFile f)
    (s := { s with
      disk := ⟨s.disk.db, some (DiskFile.ofFile f)⟩
      trace := trace
      journalHdr := s.journalOff
      nRec := 0 }) (by rw [h.geom]; exact hsec) h.nosave h.mode rfl rnd
  rw [Pager.syncJournal, if_pos ⟨h.jfdOpen, by rw [h.mode]; decide⟩, Pager.syncToDisk, hsyncs]
  dsimp only
  rw [if_pos rfl, hhdr]
  dsimp only [Pager.clearSyncFlags, Pager.io, Pager.journalHdrOffset]
  rw [h.geom, h.origSize, hnext]
  have hcached := h.cached.clearSyncFlags (fun p hp => (h.inJournal p).mp hp) (rnd % 2 ^ 32)
  refine ⟨⟨rfl, h.mode, h.nosave, h.jfdOpen, rfl, ?_, ⟨_, rfl, hj, ?_⟩, rfl, ?_, rfl, rfl, hsegs,
    fun p => ?_, h.db.append seg, h.fileSize, h.beyond, ⟨hcached.1, hcached.2, hcached.3, hcached.4,
    hcached.5, hcached.6⟩, fun d hd => ?_⟩, ⟨rfl, rfl, rfl, rfl, rfl, rfl, h.geom.symm, rfl⟩⟩
  · rw [if_neg (by simp)]
  · rw [DiskFile.view_write, DiskFile.view_ofFile]
    refine openSeg_header ?_
    rw [hsize, ← hnext]
    exact hle
  · simp [Segment.length]
  · rw [pagesOf_empty]
    exact h.inJournal p
  · rcases List.mem_append.mp hd with hd | hd
    · exact htrace d hd
    · rw [List.mem_singleton] at hd
      rw [hd]
      exact safe_of_sides h.segsOk hn (h.db.append seg) hj

/-- `syncJournal` before a commit starts no new segment. -/
theorem syncJournal_ready (h : Live g nOrig orig B segs seg s) (hn : nOrig ≤ 2147483647) (rnd : ℕ) :
    Ready g nOrig orig (segs ++ [seg]) (s.syncJournal false rnd) ∧
      Synced s (s.syncJournal false rnd) := by
  obtain ⟨f, hjsafe, hsize, trace, htrace, hsyncs⟩ := h.syncs hn
  rw [Pager.syncJournal, if_pos ⟨h.jfdOpen, by rw [h.mode]; decide⟩, Pager.syncToDisk,
    if_neg Bool.false_ne_true, hsyncs]
  refine ⟨⟨h.geom, h.jfdOpen, rfl, ⟨_, rfl, hjsafe⟩, by simp, h.segsOk, h.db.append seg, h.fileSize,
    fun p hdr hp => ?_, fun p hdr hp hd hle => ?_, htrace⟩, ⟨rfl, rfl, rfl, rfl, rfl, rfl, rfl, rfl⟩⟩
  · obtain ⟨hdr', hp', -⟩ := clearSyncFlags_page hp
    exact (h.cached.pgno p hdr' hp').1
  · obtain ⟨hdr', hp', -, hd', -⟩ := clearSyncFlags_page hp
    exact (h.inJournal p).mp (h.cached.journaled p hdr' hp' (hd' ▸ hd) hle)

/-! ### Writing pages to the database -/

/-- The contents of a page as `pager_write_pagelist` writes them. -/
def fileData (s : Pager) (p : ℕ) (data : ℕ → UInt8) : ℕ → UInt8 :=
  if p = 1 then s.pagerWriteChangecounter data else data

theorem pagerWriteOne_eq {p : ℕ} {hdr : PgHdr} (hpage : s.cache.page p = some hdr)
    (hle : p ≤ s.dbSize) :
    s.pagerWriteOne p
      = { s.writeDb (s.geom.pageOfst p) (s.geom.pageBytes (s.fileData p hdr.data)) with
          cache := s.cache.set p { hdr with data := s.fileData p hdr.data }
          dbFileVers := if p = 1 then fun i => s.fileData p hdr.data (24 + i) else s.dbFileVers
          dbFileSize := max s.dbFileSize p } := by
  rw [Pager.pagerWriteOne, hpage]
  dsimp only
  rw [if_pos hle]
  rfl

/-- The size of the file after a page is written. -/
theorem write_page_size {f : File} {n p : ℕ} (h0 : p ≠ 0) (hsize : f.size = g.pageSize * n)
    {xs : List UInt8} (hlen : xs.length = g.pageSize) :
    (f.write (g.pageOfst p) xs).size = g.pageSize * max n p := by
  obtain ⟨q, rfl⟩ := Nat.exists_eq_succ_of_ne_zero h0
  rw [File.write_size, hsize, hlen, Geom.pageOfst, Nat.succ_sub_one, ← Nat.succ_mul,
    Nat.mul_comm _ g.pageSize, Nat.mul_max_mul_left]

/-- The bytes of the page written, and those of the other pages. -/
theorem write_page_byte {f : File} {p q i : ℕ} (h0 : p ≠ 0) (hq0 : q ≠ 0) (hi : i < g.pageSize)
    (data : ℕ → UInt8) :
    (f.write (g.pageOfst p) (g.pageBytes data)).byte (g.pageOfst q + i)
      = if q = p then data i else f.byte (g.pageOfst q + i) := by
  rw [File.write_byte]
  rcases eq_or_ne q p with rfl | hne
  · rw [blit_inside (by rw [length_pageBytes]; exact hi), if_pos rfl]
    simp [Geom.pageBytes]
  · have hpage : g.pageOf (g.pageOfst q + i) = q := (pageOf_iff hq0).mpr ⟨by omega, by omega⟩
    have hout : ¬ (g.pageOfst p ≤ g.pageOfst q + i ∧ g.pageOfst q + i < g.pageOfst p + g.pageSize) :=
      fun hin => hne (hpage.symm.trans ((pageOf_iff h0).mpr hin))
    rw [blit_outside (by rw [length_pageBytes]; omega), if_neg hne]

/-- The clean pages are still as in the file after a dirty page is written. -/
theorem Cached.writeDb (h : Cached g nOrig B segs seg s) {p : ℕ} (h0 : p ≠ 0) (data : ℕ → UInt8)
    (hdirty : ∀ hdr, s.cache.page p = some hdr → hdr.dirty = true) :
    Cached g nOrig B segs seg (s.writeDb (g.pageOfst p) (g.pageBytes data)) := by
  refine ⟨h.pgno, h.journaled, h.synced, h.opened, fun q h' hq hd hB i hi => ?_, h.dirty_le⟩
  have hne : q ≠ p := by
    rintro rfl
    exact absurd (hd.symm.trans (hdirty h' hq)) (by decide)
  rw [Pager.writeDb, Pager.io, DiskFile.view_write, write_page_byte h0 (h.pgno q h' hq).1 hi,
    if_neg hne]
  exact h.clean q h' hq hd hB i hi

/-- What writing a page leaves on the disk. -/
theorem writeDb_safe {d : DiskFile} (hdb : DbSafe g nOrig orig segs s.disk.db)
    (hn : nOrig ≤ 2147483647) (hsegs : SegsOk g nOrig orig segs) (hjrnl : s.disk.jrnl = some d)
    (hj : JrnlSafe g nOrig segs d) (hne : segs ≠ []) {p : ℕ} (h0 : p ≠ 0)
    (hp : p ≤ nOrig → p ∈ pagesOf segs) (htrace : ∀ d ∈ s.trace, Safe g nOrig orig d)
    {xs : List UInt8} (hlen : xs.length = g.pageSize) :
    DbSafe g nOrig orig segs (s.writeDb (g.pageOfst p) xs).disk.db ∧
      ∀ d ∈ (s.writeDb (g.pageOfst p) xs).trace, Safe g nOrig orig d := by
  have hdb' := hdb.writePage hne h0 hp hlen
  refine ⟨hdb', fun d' hd' => ?_⟩
  rcases List.mem_append.mp hd' with hd' | hd'
  · exact htrace d' hd'
  · rw [List.mem_singleton] at hd'
    have hsafe := safe_of_sides hsegs hn hdb' hj
    rw [← hjrnl] at hsafe
    rw [hd']
    exact hsafe

/-- **A page in a complete segment may be written.** -/
theorem pagerWriteOne_ready (h : Ready g nOrig orig segs s) (hn : nOrig ≤ 2147483647) (p : ℕ)
    (hdirty : ∀ hdr, s.cache.page p = some hdr → hdr.dirty = true) :
    Ready g nOrig orig segs (s.pagerWriteOne p) := by
  rcases hpage : s.cache.page p with _ | hdr
  · rw [Pager.pagerWriteOne, hpage]
    exact h
  · by_cases hle : p ≤ s.dbSize
    · have h0 := h.pgno p hdr hpage
      have hd := hdirty hdr hpage
      obtain ⟨d, hjrnl, hj⟩ := h.jrnl
      obtain ⟨hdb, htrace⟩ := writeDb_safe h.db hn h.segsOk hjrnl hj h.ne h0
        (h.synced p hdr hpage hd) h.trace (length_pageBytes (g := g) (s.fileData p hdr.data))
      rw [pagerWriteOne_eq hpage hle, h.geom]
      refine ⟨h.geom, h.jfdOpen, h.eState, ⟨d, hjrnl, hj⟩, h.ne, h.segsOk, hdb, ?_, fun q h' hq => ?_,
        fun q h' hq hd' hqn => ?_, htrace⟩
      · rw [Pager.writeDb, Pager.io, DiskFile.view_write]
        exact write_page_size h0 h.fileSize (length_pageBytes _)
      · rcases PCache.set_cases hq with ⟨rfl, -⟩ | ⟨-, hq⟩
        · exact h0
        · exact h.pgno q h' hq
      · rcases PCache.set_cases hq with ⟨rfl, -⟩ | ⟨-, hq⟩
        · exact h.synced q hdr hpage hd hqn
        · exact h.synced q h' hq hd' hqn
    · have hsame : s.pagerWriteOne p = s := by
        rw [Pager.pagerWriteOne, hpage]
        exact if_neg hle
      rw [hsame]
      exact h

/-- What spilling a page does, after the journal is synced. -/
theorem spill_eq {p : ℕ} {hdr : PgHdr} (hpage : s.cache.page p = some hdr) (hd : hdr.dirty = true)
    (hle : p ≤ s.dbSize) :
    (s.pagerWritePagelist [p]).modify p PCache.makeClean
      = { s.writeDb (s.geom.pageOfst p) (s.geom.pageBytes (s.fileData p hdr.data)) with
          cache := s.cache.set p ⟨s.fileData p hdr.data, false, false⟩
          dbFileVers := if p = 1 then fun i => s.fileData p hdr.data (24 + i) else s.dbFileVers
          dbFileSize := max s.dbFileSize p } := by
  have hone := pagerWriteOne_eq hpage hle
  have hpage' : (s.pagerWriteOne p).cache.page p
      = some { hdr with data := s.fileData p hdr.data } := by
    rw [hone]
    exact Function.update_self _ _ _
  rw [Pager.pagerWritePagelist, List.foldl_cons, List.foldl_nil, modify_eq hpage', hone]
  dsimp only
  rw [PCache.set_set, PCache.makeClean, if_pos hd]

/-- A page that is in no open segment is spilled. -/
theorem spill_live (h : Live g nOrig orig B segs seg s) (hn : nOrig ≤ 2147483647) (hne : segs ≠ [])
    {p : ℕ} {hdr : PgHdr} (hpage : s.cache.page p = some hdr) (hd : hdr.dirty = true)
    (hs : hdr.needSync = false) :
    Live g nOrig orig B segs seg ((s.pagerWritePagelist [p]).modify p PCache.makeClean) := by
  have hpgno := h.cached.pgno p hdr hpage
  have hnot : p ∉ pagesOf [seg] := by
    intro hmem
    obtain ⟨h', hpage', -, hs'⟩ := h.cached.opened p hmem
    rw [hpage] at hpage'
    rw [← Option.some.inj hpage', hs] at hs'
    exact Bool.noConfusion hs'
  by_cases hle : p ≤ s.dbSize
  · obtain ⟨d, hjrnl, hj, hopen⟩ := h.jrnl
    obtain ⟨hdb, htrace⟩ := writeDb_safe h.db hn h.segsOk.left hjrnl hj hne hpgno.1
      (h.cached.synced p hdr hpage hd hs) h.trace (length_pageBytes (g := g) (s.fileData p hdr.data))
    have hsize : ((s.writeDb (g.pageOfst p)
        (g.pageBytes (s.fileData p hdr.data))).disk.db.view).size
          = g.pageSize * max s.dbFileSize p := by
      rw [Pager.writeDb, Pager.io, DiskFile.view_write]
      exact write_page_size hpgno.1 h.fileSize (length_pageBytes _)
    -- the page written is clean and as in the file, the other pages are as they were
    have hcached : Cached g nOrig B segs seg
        { s.writeDb (g.pageOfst p) (g.pageBytes (s.fileData p hdr.data)) with
          cache := s.cache.set p ⟨s.fileData p hdr.data, false, false⟩ } := by
      have hdisk := h.cached.writeDb hpgno.1 (s.fileData p hdr.data) fun h' hpage' => by
        rw [hpage] at hpage'
        rw [← Option.some.inj hpage']
        exact hd
      refine hdisk.set le_rfl hpgno (by simp) (by simp) (fun hmem => absurd hmem hnot)
        (fun _ _ i hi => ?_) (by simp)
      rw [Pager.writeDb, Pager.io, DiskFile.view_write, write_page_byte hpgno.1 hpgno.1 hi, if_pos rfl]
    rw [spill_eq hpage hd hle, h.geom]
    refine ⟨h.geom, h.mode, h.nosave, h.jfdOpen, h.origSize, h.eState, ⟨d, hjrnl, hj, hopen⟩, h.hdr,
      h.off, h.nRec, h.cksumInit, h.segsOk, h.inJournal, hdb, hsize, fun q hq hlt => ?_,
      ⟨hcached.1, hcached.2, hcached.3, hcached.4, hcached.5, hcached.6⟩, htrace⟩
    have hold := h.beyond q hq hlt
    have hfile := h.fileSize
    have hge := g.page_ge
    have hmul : s.dbFileSize ≤ s.dbSize := by
      rw [hfile] at hold
      exact Nat.le_of_mul_le_mul_left hold (by omega)
    refine hsize.le.trans (Nat.mul_le_mul_left _ (max_le hmul hle))
  · have hsame : (s.pagerWritePagelist [p]).modify p PCache.makeClean
        = { s with cache := s.cache.set p ⟨hdr.data, false, false⟩ } := by
      have hone : s.pagerWriteOne p = s := by
        rw [Pager.pagerWriteOne, hpage]
        exact if_neg hle
      rw [Pager.pagerWritePagelist, List.foldl_cons, List.foldl_nil, hone, modify_eq hpage,
        PCache.makeClean, if_pos hd]
    rw [hsame]
    refine h.update (h.cached.set le_rfl hpgno (by simp) (by simp) (fun hmem => absurd hmem hnot)
      (fun _ hB => absurd (h.cached.dirty_le p hdr hpage hd hB) hle) (by simp)) le_rfl

/-- `pagerStress` syncs the journal, unless the page is in a complete segment already, and then
writes the page. -/
theorem pagerStress_eq (h : Live g nOrig orig B segs seg s) (hsec : g.sectorSize ≤ g.pageSize)
    (hn : nOrig ≤ 2147483647) {p : ℕ} {hdr : PgHdr} (hpage : s.cache.page p = some hdr)
    (hd : hdr.dirty = true) (rnd : ℕ) :
    ∃ t segs' seg', Live g nOrig orig B segs' seg' t ∧ segs' ≠ [] ∧ (t = s ∨ Synced s t) ∧
      t.cache.page p = some { hdr with needSync := false } ∧
      s.pagerStress p rnd = (t.pagerWritePagelist [p]).modify p PCache.makeClean := by
  have hbeyond : ∀ t : Pager, t.aSavepoint = [] → t.subjournalIfBeyond p hdr.data = t := by
    intro t ht
    rw [Pager.subjournalIfBeyond, if_neg]
    simp [Pager.subjRequiresPage, ht]
  have heq : s.pagerStress p rnd
      = (((s.syncIfRequired hdr.needSync rnd).subjournalIfBeyond p hdr.data).pagerWritePagelist
          [p]).modify p PCache.makeClean := by
    rw [Pager.pagerStress, hpage]
  rw [Pager.syncIfRequired] at heq
  split at heq
  · obtain ⟨hlive, hsynced⟩ := syncJournal_live h hsec hn rnd
    rw [hbeyond _ hlive.nosave] at heq
    refine ⟨_, _, _, hlive, by simp, Or.inr hsynced, ?_, heq⟩
    rw [hsynced.cache, PCache.clearSyncFlags, PCache.map_page, hpage, Option.bind_some, if_pos hd]
  · rename_i hno
    rw [not_or, Bool.not_eq_true] at hno
    have hne : segs ≠ [] := by
      intro hnil
      have hstate := h.eState
      rw [if_pos hnil] at hstate
      exact hno.2 hstate
    rw [hbeyond _ h.nosave] at heq
    refine ⟨s, _, _, h, hne, Or.inl rfl, ?_, heq⟩
    rw [hpage, ← hno.1]

/-- A clean page may leave the cache. -/
theorem drop_live (h : Live g nOrig orig B segs seg s) {p : ℕ} {hdr : PgHdr}
    (hpage : s.cache.page p = some hdr) (hd : hdr.dirty = false) :
    Live g nOrig orig B segs seg { s with cache := s.cache.drop p } := by
  have hcases : ∀ q h', (s.cache.drop p).page q = some h' → s.cache.page q = some h' := by
    intro q h' hq
    rw [PCache.drop_page] at hq
    rcases eq_or_ne q p with rfl | hne
    · rw [Function.update_self] at hq
      exact absurd hq (by simp)
    · rwa [Function.update_of_ne hne] at hq
  refine h.update ⟨fun q h' hq => h.cached.pgno q h' (hcases q h' hq),
    fun q h' hq => h.cached.journaled q h' (hcases q h' hq),
    fun q h' hq => h.cached.synced q h' (hcases q h' hq), fun q hq => ?_,
    fun q h' hq => h.cached.clean q h' (hcases q h' hq),
    fun q h' hq => h.cached.dirty_le q h' (hcases q h' hq)⟩ le_rfl
  obtain ⟨h', hpage', hflags⟩ := h.cached.opened q hq
  refine ⟨h', ?_, hflags⟩
  dsimp only
  rw [PCache.drop_page, Function.update_of_ne, hpage']
  rintro rfl
  rw [hpage] at hpage'
  rw [← Option.some.inj hpage', hd] at hflags
  exact Bool.noConfusion hflags.1

end Pager

end SqliteVms

import SqliteVms.Pager.Journal
import Mathlib.Data.List.Perm.Subperm

/-!
# Disks a crash cannot harm

A disk with a journal is safe when every crash leaves a recoverable database. The journal side needs
the complete segments to be synced, and the sector after them to be free of the magic number
whatever becomes of the unsynced writes; the database side needs every page that differs from the
original, or may after a crash, to be in a complete segment.

A torn write may leave anything in its range, but not the magic number in the first bytes of a
sector: a header that is torn so is taken for a complete one.

## Main definitions

* `TornOk` — what a torn write to the journal may leave
* `JrnlSafe`, `DbSafe` — the two sides
* `OpenSeg` — the segment the pager is writing
* `Safe` — a disk a crash cannot harm

## Main results

* `JrnlSafe.crash`, `DbSafe.crash` — what a crash leaves of each
* `Safe.recovers` — a crash of a safe disk is recovered from
-/

namespace SqliteVms

open BigEndian Store Disk

namespace Pager

/-- What a torn write to the journal at `off` may leave. -/
def TornOk (g : Geom) (off : ℕ) (ys : List UInt8) : Prop :=
  off % g.sectorSize = 0 → ys.take 8 ≠ aJournalMagic

/-- What a torn write to the database may leave: anything. -/
def AnyTorn (_ : ℕ) (_ : List UInt8) : Prop := True

/-- Some crash of the disk leaves `db` and `j`. -/
def CrashOf (g : Geom) (d : Files) (db : File) (j : Option File) : Prop :=
  d.db.Crash AnyTorn db ∧
    match d.jrnl, j with
    | none, none => True
    | some dj, some j => dj.Crash (TornOk g) j
    | _, _ => False

variable {g : Geom} {nOrig : ℕ} {orig : File}

/-! ### The journal -/

/-- There is no magic number at `off`. -/
def NoMagic (f : File) (off : ℕ) : Prop := slice f.byte off 8 ≠ aJournalMagic

/-- The operation is a write that leaves no magic number at `off` and nothing before it changes. -/
def LeavesHdr (off : ℕ) : Op → Prop
  | .write off' xs => off' = off ∧ 8 ≤ xs.length ∧ xs.take 8 ≠ aJournalMagic ∨ off + 8 ≤ off'
  | .truncate _ => False

/-- The segments `segs` are on the disk, and no header can follow them after a crash. -/
structure JrnlSafe (g : Geom) (nOrig : ℕ) (segs : List Segment) (d : DiskFile) : Prop where
  placed : Placed g nOrig d.synced 0 segs
  noMagic : NoMagic d.synced (nextHdr g 0 segs)
  pending : ∀ op ∈ d.pending, LeavesHdr (nextHdr g 0 segs) op

theorem noMagic_of_size_le {f : File} {off : ℕ} (h : f.size ≤ off) : NoMagic f off := by
  intro hmagic
  have hat : Holds f.byte off aJournalMagic := hmagic
  have hbyte : f.byte (off + 0) = 0xd9 := hat.byte (by decide)
  rw [f.tight _ (by omega)] at hbyte
  exact absurd hbyte (by decide)

theorem noMagic_write {f : File} {off off' : ℕ} {xs : List UInt8} (h : NoMagic f off)
    (hw : off' = off ∧ 8 ≤ xs.length ∧ xs.take 8 ≠ aJournalMagic ∨ off + 8 ≤ off') :
    NoMagic (f.write off' xs) off := by
  rcases hw with ⟨rfl, hlen, hne⟩ | hle
  · have hslice : slice (f.write off' xs).byte off' 8 = xs.take 8 := by
      rw [File.write_byte, ← take_slice hlen, slice_blit]
    rw [NoMagic, hslice]
    exact hne
  · have hslice : slice (f.write off' xs).byte off 8 = slice f.byte off 8 :=
      slice_congr fun i hi => blit_outside (by omega)
    rw [NoMagic, hslice]
    exact h

/-- What a crash leaves of the journal: the segments, and no header after them. -/
theorem JrnlSafe.crash {segs : List Segment} {d : DiskFile} (h : JrnlSafe g nOrig segs d) {j : File}
    (hcrash : d.Crash (TornOk g) j) :
    Placed g nOrig j 0 segs ∧ NoMagic j (nextHdr g 0 segs) := by
  have hbefore : ∀ i < nextHdr g 0 segs, j.byte i = d.synced.byte i := by
    refine fun i hi => hcrash.byte_eq fun op hop => ?_
    have hop := h.pending op hop
    cases op with
    | write off xs =>
      refine Or.inl ?_
      rcases hop with ⟨rfl, -⟩ | hle <;> omega
    | truncate n => exact hop.elim
  have hsize : d.synced.size ≤ j.size := by
    refine hcrash.size_le fun op hop => ?_
    have hop := h.pending op hop
    cases op with
    | write off xs => trivial
    | truncate n => exact hop.elim
  refine ⟨h.placed.congr hbefore hsize, ?_⟩
  refine hcrash.invariant (Q := fun f => NoMagic f (nextHdr g 0 segs)) (fun op hop f hf => ?_)
    (fun off xs hop ys hlen hok f hf => ?_) h.noMagic
  · have hop := h.pending op hop
    cases op with
    | write off xs => exact noMagic_write hf hop
    | truncate n => exact hop.elim
  · refine noMagic_write hf ?_
    rcases h.pending _ hop with ⟨rfl, hle, -⟩ | hle
    · exact Or.inl ⟨rfl, by omega, hok (nextHdr_mod (Nat.zero_mod _) segs)⟩
    · exact Or.inr hle

theorem JrnlSafe.view {segs : List Segment} {d : DiskFile} (h : JrnlSafe g nOrig segs d) :
    Placed g nOrig d.view 0 segs ∧ NoMagic d.view (nextHdr g 0 segs) := h.crash d.crash_view

theorem JrnlSafe.sync {segs : List Segment} {d : DiskFile} (h : JrnlSafe g nOrig segs d) :
    JrnlSafe g nOrig segs d.sync :=
  ⟨h.view.1, h.view.2, fun _ hop => absurd hop List.not_mem_nil⟩

theorem JrnlSafe.write {segs : List Segment} {d : DiskFile} (h : JrnlSafe g nOrig segs d) (off : ℕ)
    (xs : List UInt8) (hw : LeavesHdr (nextHdr g 0 segs) (.write off xs)) :
    JrnlSafe g nOrig segs (d.write off xs) := by
  refine ⟨h.placed, h.noMagic, fun op hop => ?_⟩
  rcases DiskFile.mem_pending_write.mp hop with hop | rfl
  · exact h.pending op hop
  · exact hw

/-- The segment the pager is writing stands at `off`: its header lacks the magic number and the
record count, and the journal ends after its last record. -/
structure OpenSeg (g : Geom) (nOrig off : ℕ) (seg : Segment) (f : File) : Prop where
  tail : Holds f.byte (off + 12) (hdrTail g nOrig seg.cksumInit)
  recs : Holds f.byte (off + g.sectorSize) (recordsBytes g seg.cksumInit seg.recs)
  size : f.size = off + seg.length g

/-- A new header starts a segment. -/
theorem openSeg_header {f : File} {off cksumInit : ℕ} (hsize : f.size ≤ off) :
    OpenSeg g nOrig off ⟨cksumInit, []⟩
      (f.write off (List.replicate 12 0 ++ hdrTail g nOrig cksumInit)) := by
  have hge := g.sector_ge
  have hlen : (List.replicate 12 0 ++ hdrTail g nOrig cksumInit).length = g.sectorSize := by
    rw [List.length_append, List.length_replicate, length_hdrTail]
    omega
  refine ⟨?_, ?_, ?_⟩
  · have hall := holds_blit f.byte off (List.replicate 12 0 ++ hdrTail g nOrig cksumInit)
    rw [holds_append, List.length_replicate] at hall
    exact hall.2
  · rfl
  · rw [File.write_size, hlen, Segment.length, List.length_nil]
    omega

/-- A record is added to the segment. -/
theorem OpenSeg.record {f : File} {off : ℕ} {seg : Segment} (h : OpenSeg g nOrig off seg f)
    (r : Record) :
    OpenSeg g nOrig off ⟨seg.cksumInit, seg.recs ++ [r]⟩
      (f.write (off + seg.length g) (recordBytes g seg.cksumInit r)) := by
  have hge := g.sector_ge
  have hseg : seg.length g = g.sectorSize + seg.recs.length * g.jrnlPgSz := rfl
  refine ⟨h.tail.blit ?_, ?_, ?_⟩
  · rw [length_hdrTail]
    omega
  · rw [recordsBytes_append, holds_append, length_recordsBytes]
    refine ⟨h.recs.blit ?_, ?_⟩
    · rw [length_recordsBytes]
      omega
    · have hat := holds_blit f.byte (off + seg.length g) (recordBytes g seg.cksumInit r)
      rw [hseg, ← Nat.add_assoc] at hat ⊢
      exact hat
  · rw [File.write_size, h.size, length_recordBytes, Segment.length, Segment.length,
      List.length_append, List.length_singleton, Nat.add_mul]
    omega

/-- The magic number and the record count make the segment complete. -/
theorem OpenSeg.complete {f : File} {off : ℕ} {seg : Segment} (h : OpenSeg g nOrig off seg f) :
    SegAt g nOrig (f.write off (hdrFront seg.recs.length)) off seg := by
  have hge := g.sector_ge
  refine ⟨holds_blit _ _ _, h.tail.blit ?_, h.recs.blit ?_, ?_⟩
  · rw [length_hdrFront]
    omega
  · rw [length_hdrFront]
    omega
  · rw [File.write_size, h.size]
    exact le_max_left _ _

/-- With its header filled in, the open segment is one of the complete segments. -/
theorem JrnlSafe.complete {segs : List Segment} {seg : Segment} {d : DiskFile}
    (h : JrnlSafe g nOrig segs d) (hopen : OpenSeg g nOrig (nextHdr g 0 segs) seg d.view) :
    JrnlSafe g nOrig (segs ++ [seg])
      (DiskFile.ofFile (d.view.write (nextHdr g 0 segs) (hdrFront seg.recs.length))) := by
  have hge := g.sector_ge
  have hseg : seg.length g = g.sectorSize + seg.recs.length * g.jrnlPgSz := rfl
  refine ⟨placed_append.mpr ⟨?_, hopen.complete⟩, noMagic_of_size_le ?_,
    fun _ hop => absurd hop List.not_mem_nil⟩
  · exact h.view.1.congr (fun i hi => blit_outside (Or.inl hi)) (le_max_left _ _)
  · have hle := le_journalHdrOffset (g := g) (nextHdr g 0 segs + seg.length g)
    rw [DiskFile.ofFile, File.write_size, hopen.size, nextHdr_append, length_hdrFront]
    omega

/-! ### The database -/

/-- The pages of some segments. -/
def pagesOf (segs : List Segment) : List ℕ := (segs.flatMap Segment.recs).map Prod.fst

/-- Outside the pages of the segments the database is the original, whatever becomes of the unsynced
writes; without a segment it is the original as a whole. -/
structure DbSafe (g : Geom) (nOrig : ℕ) (orig : File) (segs : List Segment) (d : DiskFile) :
    Prop where
  size : g.pageSize * nOrig ≤ d.synced.size
  writes : ∀ op ∈ d.pending, op.IsWrite
  same : ∀ i < g.pageSize * nOrig, g.pageOf i ∉ pagesOf segs →
    d.synced.byte i = orig.byte i ∧ ∀ op ∈ d.pending, op.Avoids i
  untouched : segs = [] → d = DiskFile.ofFile orig

/-- What a crash leaves of the database. -/
theorem DbSafe.crash {segs : List Segment} {d : DiskFile} (h : DbSafe g nOrig orig segs d) {db : File}
    (hcrash : d.Crash AnyTorn db) :
    g.pageSize * nOrig ≤ db.size ∧
      (∀ i < g.pageSize * nOrig, g.pageOf i ∉ pagesOf segs → db.byte i = orig.byte i) ∧
      (segs = [] → db = orig) := by
  refine ⟨h.size.trans (hcrash.size_le h.writes), fun i hi hnot => ?_, fun hnil => ?_⟩
  · obtain ⟨hsame, hav⟩ := h.same i hi hnot
    rw [hcrash.byte_eq hav, hsame]
  · rw [h.untouched hnil] at hcrash
    exact hcrash.eq_of_nil

theorem DbSafe.view_eq {segs : List Segment} {d : DiskFile} (h : DbSafe g nOrig orig segs d) {i : ℕ}
    (hi : i < g.pageSize * nOrig) (hnot : g.pageOf i ∉ pagesOf segs) : d.view.byte i = orig.byte i :=
  (h.crash d.crash_view).2.1 i hi hnot

theorem pagesOf_append (segs segs' : List Segment) :
    pagesOf (segs ++ segs') = pagesOf segs ++ pagesOf segs' := by
  rw [pagesOf, List.flatMap_append, List.map_append]
  rfl

/-- More segments make the database no less safe. -/
theorem DbSafe.append {segs : List Segment} {d : DiskFile} (h : DbSafe g nOrig orig segs d)
    (seg : Segment) : DbSafe g nOrig orig (segs ++ [seg]) d := by
  refine ⟨h.size, h.writes, fun i hi hnot => h.same i hi fun hmem => hnot ?_, fun hnil => ?_⟩
  · rw [pagesOf_append]
    exact List.mem_append_left _ hmem
  · exact absurd hnil (by simp)

/-- A page in a segment, or after the original pages, may be written. -/
theorem DbSafe.writePage {segs : List Segment} {d : DiskFile} (h : DbSafe g nOrig orig segs d)
    (hne : segs ≠ []) {p : ℕ} (h0 : p ≠ 0) (hp : p ≤ nOrig → p ∈ pagesOf segs) {xs : List UInt8}
    (hlen : xs.length = g.pageSize) : DbSafe g nOrig orig segs (d.write (g.pageOfst p) xs) := by
  refine ⟨h.size, fun op hop => ?_, fun i hi hnot => ⟨(h.same i hi hnot).1, fun op hop => ?_⟩,
    fun hnil => absurd hnil hne⟩
  · rcases DiskFile.mem_pending_write.mp hop with hop | rfl
    · exact h.writes op hop
    · trivial
  · rcases DiskFile.mem_pending_write.mp hop with hop | rfl
    · exact (h.same i hi hnot).2 op hop
    · -- the byte is on another page than the one written
      have hout : ¬ (g.pageOfst p ≤ i ∧ i < g.pageOfst p + g.pageSize) := by
        intro hin
        have hpage := (pageOf_iff h0).mpr hin
        have hle := pageOf_le hi
        rw [hpage] at hnot hle
        exact hnot (hp hle)
      rw [Op.Avoids, hlen]
      omega

theorem DbSafe.sync {segs : List Segment} {d : DiskFile} (h : DbSafe g nOrig orig segs d) :
    DbSafe g nOrig orig segs d.sync := by
  have hview := h.crash d.crash_view
  refine ⟨hview.1, fun _ hop => absurd hop List.not_mem_nil,
    fun i hi hnot => ⟨hview.2.1 i hi hnot, fun _ hop => absurd hop List.not_mem_nil⟩, fun hnil => ?_⟩
  rw [h.untouched hnil]
  rfl

/-! ### Disks -/

/-- The records of the segments are pages of the original. -/
structure SegsOk (g : Geom) (nOrig : ℕ) (orig : File) (segs : List Segment) : Prop where
  cksum : ∀ seg ∈ segs, seg.cksumInit < 2 ^ 32
  recs : ∀ r ∈ segs.flatMap Segment.recs, PgnoOk g nOrig r.1 ∧ RecOf g orig r
  nodup : (pagesOf segs).Nodup

theorem SegsOk.left {segs segs' : List Segment} (h : SegsOk g nOrig orig (segs ++ segs')) :
    SegsOk g nOrig orig segs := by
  refine ⟨fun seg hseg => h.cksum seg (List.mem_append_left _ hseg), fun r hr => h.recs r ?_, ?_⟩
  · rw [List.flatMap_append]
    exact List.mem_append_left _ hr
  · have hnodup := h.nodup
    rw [pagesOf_append] at hnodup
    exact (List.nodup_append.mp hnodup).1

/-- No segment has more records than there are pages. -/
theorem SegsOk.segOk {segs : List Segment} (h : SegsOk g nOrig orig segs) (hn : nOrig ≤ 2147483647)
    {seg : Segment} (hseg : seg ∈ segs) : SegOk g nOrig seg := by
  have hmem : ∀ r ∈ seg.recs, r ∈ segs.flatMap Segment.recs := fun r hr =>
    List.mem_flatMap.mpr ⟨seg, hseg, hr⟩
  have hnodup : (seg.recs.map Prod.fst).Nodup := by
    refine h.nodup.sublist ?_
    have hsub : seg.recs.Sublist (segs.flatMap Segment.recs) :=
      List.sublist_flatten_of_mem (List.mem_map_of_mem hseg)
    exact hsub.map Prod.fst
  have hlen : seg.recs.length ≤ nOrig := by
    have hsub : seg.recs.map Prod.fst ⊆ List.range' 1 nOrig := by
      intro p hp
      obtain ⟨r, hr, rfl⟩ := List.mem_map.mp hp
      obtain ⟨h0, hle, -⟩ := (h.recs r (hmem r hr)).1
      exact List.mem_range'_1.mpr ⟨Nat.pos_of_ne_zero h0, by omega⟩
    have hcard := (List.subperm_of_subset hnodup hsub).length_le
    rwa [List.length_map, List.length_range'] at hcard
  exact ⟨by omega, h.cksum seg hseg, fun r hr => (h.recs r (hmem r hr)).1⟩

/-- Every crash of the disk leaves the original, or a journal and a database it is recovered from. -/
def Safe (g : Geom) (nOrig : ℕ) (orig : File) (d : Files) : Prop :=
  ∀ db j, CrashOf g d db j →
    match j with
    | none => db = orig
    | some j => ∃ segs, Recoverable g nOrig orig db j segs

theorem recoverable_of_safe {segs : List Segment} (hsegs : SegsOk g nOrig orig segs)
    (hn : nOrig ≤ 2147483647) {d : DiskFile} (hdb : DbSafe g nOrig orig segs d) {db j : File}
    (hcrash : d.Crash AnyTorn db) (hplaced : Placed g nOrig j 0 segs)
    (hno : NoMagic j (nextHdr g 0 segs)) : Recoverable g nOrig orig db j segs := by
  obtain ⟨hsize, hsame, hnil⟩ := hdb.crash hcrash
  exact ⟨hplaced, Or.inr hno, fun seg hseg => hsegs.segOk hn hseg,
    fun r hr => (hsegs.recs r hr).2, hsize, hsame, hnil⟩

/-- A disk with both sides safe is safe. -/
theorem safe_of_sides {segs : List Segment} (hsegs : SegsOk g nOrig orig segs)
    (hn : nOrig ≤ 2147483647) {d dj : DiskFile} (hdb : DbSafe g nOrig orig segs d)
    (hj : JrnlSafe g nOrig segs dj) : Safe g nOrig orig ⟨d, some dj⟩ := by
  rintro db (_ | j) ⟨hcrash, hcrashj⟩
  · exact hcrashj.elim
  · obtain ⟨hplaced, hno⟩ := hj.crash hcrashj
    exact ⟨segs, recoverable_of_safe hsegs hn hdb hcrash hplaced hno⟩

/-- While the header of the open segment is filled in, a crash leaves it complete or not. -/
theorem safe_completing {segs : List Segment} {seg : Segment}
    (hsegs : SegsOk g nOrig orig (segs ++ [seg])) (hn : nOrig ≤ 2147483647) {d dj : DiskFile}
    (hdb : DbSafe g nOrig orig segs d) (hj : JrnlSafe g nOrig segs dj)
    (hopen : OpenSeg g nOrig (nextHdr g 0 segs) seg dj.view) :
    Safe g nOrig orig ⟨d, some (dj.sync.write (nextHdr g 0 segs) (hdrFront seg.recs.length))⟩ := by
  rintro db (_ | j) ⟨hcrash, hcrashj⟩
  · exact hcrashj.elim
  · have hold : ∀ j, NoMagic j (nextHdr g 0 segs) → Placed g nOrig j 0 segs →
        ∃ segs, Recoverable g nOrig orig db j segs := fun j hno hplaced =>
      ⟨segs, recoverable_of_safe hsegs.left hn hdb hcrash hplaced hno⟩
    cases hcrashj with
    | lost h =>
      rw [h.eq_of_nil]
      exact hold _ hj.view.2 hj.view.1
    | done h =>
      obtain ⟨hplaced, hno⟩ := (hj.complete hopen).crash (d := DiskFile.ofFile _) h
      exact ⟨segs ++ [seg], recoverable_of_safe hsegs hn (hdb.append seg) hcrash hplaced hno⟩
    | torn hlen hok h =>
      rw [h.eq_of_nil]
      rw [length_hdrFront] at hlen
      refine hold _ (noMagic_write hj.view.2 (Or.inl ⟨rfl, by omega,
        hok (nextHdr_mod (Nat.zero_mod _) segs)⟩)) ?_
      exact hj.view.1.congr (fun i hi => blit_outside (Or.inl hi)) (le_max_left _ _)

/-- A disk without a journal, with the original on it. -/
theorem safe_orig : Safe g nOrig orig ⟨DiskFile.ofFile orig, none⟩ := by
  rintro db (_ | j) ⟨hcrash, hcrashj⟩
  · exact hcrash.eq_of_nil
  · exact hcrashj.elim

/-- The database file after it is opened again. -/
def reopen (g₀ : Geom) (mxPgno mxPathname : ℕ) (access : List UInt8 → Bool) (db : File)
    (j : Option File) : File :=
  ((sqlite3PagerOpen g₀ mxPgno db j).sqlite3PagerSharedLock access mxPathname).disk.db.view

/-- Without a journal the database is as it is found. -/
theorem reopen_none (g₀ : Geom) (mxPgno mxPathname : ℕ) (access : List UInt8 → Bool) (db : File) :
    reopen g₀ mxPgno mxPathname access db none = db :=
  sharedLock_of_not_hot access mxPathname rfl

/-- **A crash of a safe disk is recovered from**: opening the database gives the original. -/
theorem Safe.recovers {d : Files} (h : Safe g nOrig orig d) (horig : orig.size = g.pageSize * nOrig)
    (hn : nOrig ≤ 2147483647) {db : File} {j : Option File} (hcrash : CrashOf g d db j) {g₀ : Geom}
    (hsec : g₀.sectorSize = g.sectorSize) (mxPgno : ℕ) (access : List UInt8 → Bool) {mxPathname : ℕ}
    (hmaster : ∀ j' ∈ j, readMasterJournal j' (mxPathname + 1) = some []) :
    reopen g₀ mxPgno mxPathname access db j = orig := by
  have hsafe := h db j hcrash
  cases j with
  | none => rw [reopen_none, hsafe]
  | some j =>
    obtain ⟨segs, hrec⟩ := hsafe
    exact recover_eq hrec horig (by omega) hsec mxPgno access (hmaster j rfl)

end Pager

end SqliteVms

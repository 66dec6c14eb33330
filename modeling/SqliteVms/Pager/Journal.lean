import SqliteVms.Pager.Playback

/-!
# Journals as lists of segments

A journal is a sequence of segments, each a header and the records that follow it, each header at
the start of a sector. A segment is complete when its header has the magic number and the record
count; playing back a journal restores the records of its complete segments, up to the first place
where there is no header.

## Main definitions

* `Segment`, `SegAt`, `Placed` — segments, and where they stand in a file
* `Stop` — there is no header here
* `restore` — a file with the pages of some records restored

## Main results

* `playback_placed` — what playing back a journal of complete segments gives
* `recover_eq` — a database that differs from the original only in pages of complete segments, or
  by being longer, is the original after it is opened
-/

namespace SqliteVms

open BigEndian Store Disk

namespace Pager

/-! ### The format -/

/-- A record: a page number and the contents of the page. -/
abbrev Record := ℕ × (ℕ → UInt8)

/-- A header and the records that follow it. -/
structure Segment where
  cksumInit : ℕ
  recs : List Record

variable (g : Geom) (nOrig : ℕ)

/-- The bytes of a record. -/
def recordBytes (cksumInit : ℕ) (r : Record) : List UInt8 :=
  bytes4 r.1 ++ g.pageBytes r.2 ++ bytes4 (g.pagerCksum cksumInit r.2)

/-- The bytes of some records. -/
def recordsBytes (cksumInit : ℕ) (recs : List Record) : List UInt8 :=
  recs.flatMap (recordBytes g cksumInit)

/-- The bytes of a header after the magic number and the record count. -/
def hdrTail (cksumInit : ℕ) : List UInt8 :=
  bytes4 cksumInit ++ bytes4 nOrig ++ bytes4 g.sectorSize ++ bytes4 g.pageSize
    ++ List.replicate (g.sectorSize - 28) 0

/-- The magic number and the record count. -/
def hdrFront (nRec : ℕ) : List UInt8 := aJournalMagic ++ bytes4 nRec

/-- The number of bytes of a segment. -/
def Segment.length (seg : Segment) : ℕ := g.sectorSize + seg.recs.length * g.jrnlPgSz

/-- A complete segment stands at `off`. -/
structure SegAt (f : File) (off : ℕ) (seg : Segment) : Prop where
  front : Holds f.byte off (hdrFront seg.recs.length)
  tail : Holds f.byte (off + 12) (hdrTail g nOrig seg.cksumInit)
  recs : Holds f.byte (off + g.sectorSize) (recordsBytes g seg.cksumInit seg.recs)
  size : off + seg.length g ≤ f.size

/-- Complete segments stand at `off` and in the sectors after it. -/
def Placed (f : File) : ℕ → List Segment → Prop
  | _, [] => True
  | off, seg :: segs =>
    SegAt g nOrig f off seg ∧ Placed f (g.journalHdrOffset (off + seg.length g)) segs

/-- Where the header after some segments belongs. -/
def nextHdr : ℕ → List Segment → ℕ
  | off, [] => off
  | off, seg :: segs => nextHdr (g.journalHdrOffset (off + seg.length g)) segs

/-- There is no header at `off`. -/
def Stop (f : File) (off : ℕ) : Prop :=
  f.size < off + g.sectorSize ∨ slice f.byte off 8 ≠ aJournalMagic

/-- The file with the pages of the records restored, in their order. -/
def restore (f : File) (recs : List Record) : File :=
  recs.foldl (fun f r => f.write (g.pageOfst r.1) (g.pageBytes r.2)) f

variable {g} {nOrig}

@[simp] theorem length_pageBytes (data : ℕ → UInt8) : (g.pageBytes data).length = g.pageSize :=
  length_slice _ _ _

@[simp] theorem length_recordBytes (cksumInit : ℕ) (r : Record) :
    (recordBytes g cksumInit r).length = g.jrnlPgSz := by
  simp only [recordBytes, List.length_append, length_bytes4, length_pageBytes, Geom.jrnlPgSz]
  omega

@[simp] theorem length_recordsBytes (cksumInit : ℕ) (recs : List Record) :
    (recordsBytes g cksumInit recs).length = recs.length * g.jrnlPgSz := by
  induction recs with
  | nil => simp [recordsBytes]
  | cons r recs ih =>
    rw [recordsBytes, List.flatMap_cons, List.length_append, length_recordBytes]
    rw [recordsBytes] at ih
    rw [ih, List.length_cons, Nat.succ_mul, Nat.add_comm]

@[simp] theorem length_hdrFront (nRec : ℕ) : (hdrFront nRec).length = 12 := rfl

@[simp] theorem length_hdrTail (cksumInit : ℕ) :
    (hdrTail g nOrig cksumInit).length = g.sectorSize - 12 := by
  have := g.sector_ge
  simp only [hdrTail, List.length_append, length_bytes4, List.length_replicate]
  omega

theorem recordsBytes_append (cksumInit : ℕ) (recs : List Record) (r : Record) :
    recordsBytes g cksumInit (recs ++ [r])
      = recordsBytes g cksumInit recs ++ recordBytes g cksumInit r := by
  rw [recordsBytes, recordsBytes, List.flatMap_append, List.flatMap_singleton]

/-! ### Header positions -/

theorem le_journalHdrOffset (c : ℕ) : c ≤ g.journalHdrOffset c := by
  have hpos : 0 < g.sectorSize := by have := g.sector_ge; omega
  rw [Geom.journalHdrOffset]
  split
  · omega
  · have := Nat.lt_div_mul_add (a := c - 1) hpos
    rw [Nat.add_mul, Nat.one_mul]
    omega

theorem journalHdrOffset_mod (c : ℕ) : g.journalHdrOffset c % g.sectorSize = 0 := by
  rw [Geom.journalHdrOffset]
  split
  · exact Nat.zero_mod _
  · exact Nat.mul_mod_left _ _

theorem journalHdrOffset_ne_zero {c : ℕ} (h : c ≠ 0) : g.journalHdrOffset c ≠ 0 := by
  have := le_journalHdrOffset (g := g) c
  omega

theorem nextHdr_append (off : ℕ) (segs : List Segment) (seg : Segment) :
    nextHdr g off (segs ++ [seg]) = g.journalHdrOffset (nextHdr g off segs + seg.length g) := by
  induction segs generalizing off with
  | nil => rfl
  | cons s segs ih => exact ih _

theorem le_nextHdr (off : ℕ) (segs : List Segment) : off ≤ nextHdr g off segs := by
  induction segs generalizing off with
  | nil => exact le_rfl
  | cons s segs ih =>
    have h1 := le_journalHdrOffset (g := g) (off + s.length g)
    have h2 := ih (g.journalHdrOffset (off + s.length g))
    rw [nextHdr]
    omega

theorem nextHdr_mod {off : ℕ} (h : off % g.sectorSize = 0) (segs : List Segment) :
    nextHdr g off segs % g.sectorSize = 0 := by
  induction segs generalizing off with
  | nil => exact h
  | cons s segs ih => exact ih (journalHdrOffset_mod _)

/-! ### Where segments stand -/

theorem placed_append {f : File} {off : ℕ} {segs : List Segment} {seg : Segment} :
    Placed g nOrig f off (segs ++ [seg])
      ↔ Placed g nOrig f off segs ∧ SegAt g nOrig f (nextHdr g off segs) seg := by
  induction segs generalizing off with
  | nil => exact ⟨fun h => ⟨trivial, h.1⟩, fun h => ⟨h.2, trivial⟩⟩
  | cons s segs ih =>
    rw [List.cons_append, Placed, Placed, ih, nextHdr]
    exact and_assoc.symm

theorem SegAt.congr {f f' : File} {off : ℕ} {seg : Segment} (h : SegAt g nOrig f off seg)
    (hbyte : ∀ i, off ≤ i → i < off + seg.length g → f'.byte i = f.byte i)
    (hsize : f.size ≤ f'.size) : SegAt g nOrig f' off seg := by
  have := g.sector_ge
  have hlen : seg.length g = g.sectorSize + seg.recs.length * g.jrnlPgSz := rfl
  refine ⟨h.front.congr fun i hi hlt => ?_, h.tail.congr fun i hi hlt => ?_,
    h.recs.congr fun i hi hlt => ?_, h.size.trans hsize⟩
  · rw [length_hdrFront] at hlt
    exact hbyte i (by omega) (by omega)
  · rw [length_hdrTail] at hlt
    exact hbyte i (by omega) (by omega)
  · rw [length_recordsBytes] at hlt
    exact hbyte i (by omega) (by omega)

theorem Placed.congr {f f' : File} {off : ℕ} {segs : List Segment} (h : Placed g nOrig f off segs)
    (hbyte : ∀ i < nextHdr g off segs, f'.byte i = f.byte i) (hsize : f.size ≤ f'.size) :
    Placed g nOrig f' off segs := by
  induction segs generalizing off with
  | nil => trivial
  | cons s segs ih =>
    have h1 := le_journalHdrOffset (g := g) (off + s.length g)
    have h2 := le_nextHdr (g := g) (g.journalHdrOffset (off + s.length g)) segs
    rw [nextHdr] at hbyte
    exact ⟨h.1.congr (fun i _ hi => hbyte i (by omega)) hsize, ih h.2 hbyte⟩

/-! ### Playing back -/

theorem pageBytes_congr {d d' : ℕ → UInt8} (h : ∀ i < g.pageSize, d i = d' i) :
    g.pageBytes d = g.pageBytes d' :=
  slice_congr fun i hi => by simpa using h i hi

theorem pagerCksum_congr {d d' : ℕ → UInt8} (h : ∀ i < g.pageSize, d i = d' i) (cksumInit : ℕ) :
    g.pagerCksum cksumInit d = g.pagerCksum cksumInit d' := by
  have hge := g.page_ge
  rw [Geom.pagerCksum, Geom.pagerCksum]
  have hmap : (List.range ((g.pageSize - 1) / 200)).map (fun k => (d (g.pageSize - 200 * (k + 1))).toNat)
      = (List.range ((g.pageSize - 1) / 200)).map
        fun k => (d' (g.pageSize - 200 * (k + 1))).toNat :=
    List.map_congr_left fun k _ => by rw [h _ (by omega)]
  rw [hmap]

/-- A pager that plays a hot journal `j` back. -/
structure Hot (g : Geom) (j : File) (s : Pager) : Prop where
  geom : s.geom = g
  eState : s.eState = .openS
  cache : ∀ p, s.cache.page p = none
  jrnl : s.jrnlView = j
  hdr : s.journalHdr = j.size

/-- The page numbers that stand in a journal. -/
def PgnoOk (g : Geom) (nOrig p : ℕ) : Prop := p ≠ 0 ∧ p ≤ nOrig ∧ p ≠ g.mjPgno

variable {j : File} {s : Pager}

/-- A pager that reads the journal `j`, all of which is synced. -/
structure Reads (g : Geom) (j : File) (s : Pager) : Prop where
  geom : s.geom = g
  jrnl : s.jrnlView = j
  hdr : s.journalHdr = j.size

theorem Hot.reads (hs : Hot g j s) : Reads g j s := ⟨hs.geom, hs.jrnl, hs.hdr⟩

/-- A record is found. -/
theorem playbackOnePage_eq (hs : Reads g j s) (hn : s.dbSize < 2 ^ 32) {r : Record}
    (hr : PgnoOk g s.dbSize r.1) (hrec : Holds j.byte s.journalOff (recordBytes g s.cksumInit r))
    (hsize : s.journalOff + g.jrnlPgSz ≤ j.size) :
    ∃ aData : ℕ → UInt8, (∀ i < g.pageSize, aData i = r.2 i) ∧
      s.pagerPlaybackOnePage s.journalOff none true false
        = (.ok, s.journalOff + g.jrnlPgSz, none,
          (s.playbackFile r.1 aData true true).playbackCache r.1 aData true) := by
  obtain ⟨h0, hle, hmj⟩ := hr
  rw [recordBytes, holds_append, holds_append, length_bytes4, List.length_append, length_bytes4,
    length_pageBytes, ← Nat.add_assoc] at hrec
  obtain ⟨⟨hpgno, hdata⟩, hcksum⟩ := hrec
  have hpgno := get4_of_holds hpgno (by omega)
  have hcksum := get4_of_holds hcksum (Nat.mod_lt _ (by norm_num))
  have hbytes : ∀ i < g.pageSize, j.byte (s.journalOff + 4 + i) = r.2 i := by
    intro i hi
    rw [hdata.byte (by simpa using hi)]
    simp [Geom.pageBytes]
  have hnext : s.journalOff + g.pageSize + 4 + 4 = s.journalOff + g.jrnlPgSz := by
    rw [Geom.jrnlPgSz]
    omega
  refine ⟨fun i => j.byte (s.journalOff + 4 + i), hbytes, ?_⟩
  rw [Pager.pagerPlaybackOnePage]
  simp only [if_true, hs.geom, hs.jrnl, hpgno]
  rw [if_neg (by rw [Geom.jrnlPgSz] at hsize; omega), if_neg (by tauto),
    if_neg (by simpa using hle), if_neg (by omega),
    pagerCksum_congr hbytes, hnext,
    show s.journalOff + g.jrnlPgSz - 4 = s.journalOff + 4 + g.pageSize by
      rw [Geom.jrnlPgSz]; omega,
    hcksum, if_neg (by simp), hs.hdr, decide_eq_true hsize]
  rfl

/-- **A record is restored.** -/
theorem playbackOnePage_hot (hs : Hot g j s) (hn : s.dbSize < 2 ^ 32) {r : Record}
    (hr : PgnoOk g s.dbSize r.1) (hrec : Holds j.byte s.journalOff (recordBytes g s.cksumInit r))
    (hsize : s.journalOff + g.jrnlPgSz ≤ j.size) :
    ∃ s', s.pagerPlaybackOnePage s.journalOff none true false
        = (.ok, s.journalOff + g.jrnlPgSz, none, s') ∧ Hot g j s' ∧ s'.dbSize = s.dbSize ∧
      s'.cksumInit = s.cksumInit ∧
      s'.disk.db.view = s.disk.db.view.write (g.pageOfst r.1) (g.pageBytes r.2) := by
  obtain ⟨aData, hbytes, hone⟩ := playbackOnePage_eq hs.reads hn hr hrec hsize
  refine ⟨_, hone, ?_⟩
  have hfile : s.playbackFile r.1 aData true true
      = { s.writeDb (g.pageOfst r.1) (g.pageBytes r.2) with
          dbFileSize := max s.dbFileSize r.1 } := by
    rw [Pager.playbackFile, if_pos ⟨Or.inr hs.eState, rfl⟩, hs.geom, pageBytes_congr hbytes]
  rw [hfile, Pager.playbackCache]
  have hnone : s.cache.page r.1 = none := hs.cache r.1
  simp only [Pager.writeDb, Pager.io, hnone]
  exact ⟨⟨hs.geom, hs.eState, hs.cache, hs.jrnl, hs.hdr⟩, trivial, trivial,
    DiskFile.view_write _ _ _⟩

/-- The records of a segment are restored. -/
theorem playbackRecords_hot {recs : List Record} (hs : Hot g j s) (hn : s.dbSize < 2 ^ 32)
    (hrecs : ∀ r ∈ recs, PgnoOk g s.dbSize r.1)
    (hat : Holds j.byte s.journalOff (recordsBytes g s.cksumInit recs))
    (hsize : s.journalOff + recs.length * g.jrnlPgSz ≤ j.size) (szJ : ℕ) :
    ∃ s', playbackRecords szJ recs.length s = (false, s') ∧ Hot g j s' ∧ s'.dbSize = s.dbSize ∧
      s'.journalOff = s.journalOff + recs.length * g.jrnlPgSz ∧
      s'.disk.db.view = restore g s.disk.db.view recs := by
  induction recs generalizing s with
  | nil => exact ⟨s, rfl, hs, rfl, by simp, rfl⟩
  | cons r recs ih =>
    rw [List.length_cons, Nat.succ_mul] at hsize
    rw [recordsBytes, List.flatMap_cons, holds_append, length_recordBytes] at hat
    obtain ⟨s₁, hone, hs₁, hsz, hck, hview⟩ :=
      playbackOnePage_hot hs hn (hrecs r List.mem_cons_self) hat.1 (by omega)
    rw [List.length_cons, playbackRecords, hone]
    dsimp only
    have hs₂ : Hot g j { s₁ with journalOff := s.journalOff + g.jrnlPgSz } :=
      ⟨hs₁.geom, hs₁.eState, hs₁.cache, hs₁.jrnl, hs₁.hdr⟩
    obtain ⟨s', hrest, hs', hsz', hoff', hview'⟩ := ih hs₂ (by rw [← hsz] at hn; exact hn)
      (fun q hq => by
        have := hrecs q (List.mem_cons_of_mem _ hq)
        rw [← hsz] at this
        exact this)
      (by dsimp only; rw [hck]; exact hat.2) (by dsimp only; omega)
    refine ⟨s', hrest, hs', hsz'.trans hsz, ?_, ?_⟩
    · rw [hoff', Nat.succ_mul]
      dsimp only
      omega
    · rw [hview']
      dsimp only
      rw [hview]
      rfl

variable (g nOrig) in
/-- The fields of a header after the record count. -/
def hdrFields (cksumInit : ℕ) : List UInt8 :=
  bytes4 cksumInit ++ bytes4 nOrig ++ bytes4 g.sectorSize ++ bytes4 g.pageSize

variable (g nOrig) in
/-- A segment as it is read. Of the rest of the header sector nothing is known. -/
structure Readable (f : File) (off : ℕ) (seg : Segment) : Prop where
  front : Holds f.byte off (hdrFront seg.recs.length)
  fields : Holds f.byte (off + 12) (hdrFields g nOrig seg.cksumInit)
  recs : Holds f.byte (off + g.sectorSize) (recordsBytes g seg.cksumInit seg.recs)
  size : off + seg.length g ≤ f.size

theorem SegAt.readable {f : File} {off : ℕ} {seg : Segment} (h : SegAt g nOrig f off seg) :
    Readable g nOrig f off seg := by
  have htail := h.tail
  rw [hdrTail, holds_append] at htail
  exact ⟨h.front, htail.1, h.recs, h.size⟩

/-- What `readJournalHdr` reads in the header of a segment. -/
theorem Readable.get {f : File} {off : ℕ} {seg : Segment} (h : Readable g nOrig f off seg)
    (hlen : seg.recs.length < 2 ^ 32) (hck : seg.cksumInit < 2 ^ 32) (hn : nOrig < 2 ^ 32) :
    slice f.byte off 8 = aJournalMagic ∧ get4 f.byte (off + 8) = seg.recs.length ∧
      get4 f.byte (off + 12) = seg.cksumInit ∧ get4 f.byte (off + 16) = nOrig ∧
      get4 f.byte (off + 20) = g.sectorSize ∧ get4 f.byte (off + 24) = g.pageSize := by
  have hsec := g.sector_le
  have hpage := g.page_le
  have hfront := h.front
  have hfields := h.fields
  rw [hdrFront, holds_append] at hfront
  rw [hdrFields, holds_append, holds_append, holds_append] at hfields
  simp only [List.length_append, length_bytes4, Nat.add_assoc] at hfields
  exact ⟨hfront.1, get4_of_holds hfront.2 hlen, get4_of_holds hfields.1.1.1 hck,
    get4_of_holds hfields.1.1.2 hn, get4_of_holds hfields.1.2 (by omega),
    get4_of_holds hfields.2 (by omega)⟩

/-- A later header. -/
theorem readJournalHdr_next (hs : Reads g j s) {seg : Segment}
    (hseg : Readable g nOrig j (g.journalHdrOffset s.journalOff) seg) (hoff : s.journalOff ≠ 0)
    (hlen : seg.recs.length < 2 ^ 32) (hck : seg.cksumInit < 2 ^ 32) (hn : nOrig < 2 ^ 32) :
    s.readJournalHdr true j.size = (some (seg.recs.length, nOrig), { s with
      journalOff := g.journalHdrOffset s.journalOff + g.sectorSize, cksumInit := seg.cksumInit }) := by
  obtain ⟨hmagic, hnRec, hcksum, hdbSize, -, -⟩ := hseg.get hlen hck hn
  have hsize := hseg.size
  have hne : g.journalHdrOffset s.journalOff ≠ 0 := journalHdrOffset_ne_zero hoff
  rw [Segment.length] at hsize
  rw [Pager.readJournalHdr, Pager.journalHdrOffset, hs.geom, hs.jrnl, if_neg, Pager.readHdrFields,
    if_neg hne]
  · dsimp only
    rw [hs.jrnl, hnRec, hcksum, hdbSize, hs.geom]
  · rintro (hlt | ⟨-, hno⟩)
    · omega
    · exact hno hmagic

theorem readJournalHdr_hot (hs : Hot g j s) {seg : Segment}
    (hseg : Readable g nOrig j (g.journalHdrOffset s.journalOff) seg) (hoff : s.journalOff ≠ 0)
    (hlen : seg.recs.length < 2 ^ 32) (hck : seg.cksumInit < 2 ^ 32) (hn : nOrig < 2 ^ 32) :
    ∃ s', s.readJournalHdr true j.size = (some (seg.recs.length, nOrig), s') ∧ Hot g j s' ∧
      s'.dbSize = s.dbSize ∧ s'.cksumInit = seg.cksumInit ∧
      s'.journalOff = g.journalHdrOffset s.journalOff + g.sectorSize ∧ s'.disk = s.disk :=
  ⟨_, readJournalHdr_next hs.reads hseg hoff hlen hck hn,
    ⟨hs.geom, hs.eState, hs.cache, hs.jrnl, hs.hdr⟩, rfl, rfl, rfl, rfl⟩

/-- There is no further header. -/
theorem readJournalHdr_stop (hs : Reads g j s) (hstop : Stop g j (g.journalHdrOffset s.journalOff)) :
    s.readJournalHdr true j.size = (none, { s with journalOff := g.journalHdrOffset s.journalOff }) := by
  rw [Pager.readJournalHdr, Pager.journalHdrOffset, hs.geom, hs.jrnl, if_pos]
  rcases hstop with hsize | hmagic
  · exact Or.inl hsize
  · exact Or.inr ⟨Or.inl rfl, hmagic⟩

/-- The segments that stand in a journal. -/
structure SegOk (g : Geom) (nOrig : ℕ) (seg : Segment) : Prop where
  count : seg.recs.length < 0xffffffff
  cksum : seg.cksumInit < 2 ^ 32
  recs : ∀ r ∈ seg.recs, PgnoOk g nOrig r.1

theorem recordCount_hot {n : ℕ} (hn : n < 0xffffffff) (s : Pager) (szJ : ℕ) :
    s.recordCount true szJ n = n := by
  simp only [Pager.recordCount]
  rw [if_neg (show ¬ n = 0xffffffff by omega), if_neg (by simp)]

theorem restore_append (f : File) (recs recs' : List Record) :
    restore g f (recs ++ recs') = restore g (restore g f recs) recs' := List.foldl_append

/-- One turn of the loop, after its header was read: the records are restored. -/
theorem playbackRecords_seg {seg : Segment} {off : ℕ} (hs : Hot g j s) (hn : s.dbSize = nOrig)
    (hn32 : nOrig < 2 ^ 32) (hok : SegOk g nOrig seg) (hseg : Readable g nOrig j off seg)
    (hck : s.cksumInit = seg.cksumInit) (hoff : s.journalOff = off + g.sectorSize)
    (reset : Bool) (n : ℕ) :
    ∃ s', playbackRecords j.size seg.recs.length (s.playbackReset reset n) = (false, s') ∧
      Hot g j s' ∧ s'.dbSize = nOrig ∧ s'.journalOff = off + seg.length g ∧
      s'.disk.db.view = restore g s.disk.db.view seg.recs := by
  have hhot : Hot g j (s.playbackReset reset n) := by
    rw [Pager.playbackReset]
    split
    · exact ⟨hs.geom, hs.eState, fun _ => rfl, hs.jrnl, hs.hdr⟩
    · exact hs
  have hsame : (s.playbackReset reset n).dbSize = s.dbSize ∧
      (s.playbackReset reset n).cksumInit = s.cksumInit ∧
      (s.playbackReset reset n).journalOff = s.journalOff ∧
      (s.playbackReset reset n).disk = s.disk := by
    rw [Pager.playbackReset]
    split <;> exact ⟨rfl, rfl, rfl, rfl⟩
  obtain ⟨hsz, hck₁, hoff₁, hdisk⟩ := hsame
  have hsize := hseg.size
  rw [Segment.length] at hsize
  have hpgno : ∀ r ∈ seg.recs, PgnoOk g (s.playbackReset reset n).dbSize r.1 := by
    rw [hsz, hn]
    exact hok.recs
  obtain ⟨s', hrecs, hs', hsz', hoff', hview⟩ := playbackRecords_hot hhot
    (by rw [hsz, hn]; exact hn32) hpgno
    (by rw [hoff₁, hoff, hck₁, hck]; exact hseg.recs) (by rw [hoff₁, hoff]; omega) j.size
  refine ⟨s', hrecs, hs', by rw [hsz', hsz, hn], ?_, by rw [hview, hdisk]⟩
  rw [hoff', hoff₁, hoff, Segment.length, Nat.add_assoc]

/-- The later segments of a journal are restored. -/
theorem playbackLoop_hot {segs : List Segment} {fuel : ℕ} (hs : Hot g j s) (hoff : s.journalOff ≠ 0)
    (hn : s.dbSize = nOrig) (hn32 : nOrig < 2 ^ 32) (hok : ∀ seg ∈ segs, SegOk g nOrig seg)
    (hplaced : Placed g nOrig j (g.journalHdrOffset s.journalOff) segs)
    (hstop : Stop g j (nextHdr g (g.journalHdrOffset s.journalOff) segs))
    (hfuel : segs.length < fuel) (reset : Bool) :
    (playbackLoop true j.size fuel reset s).disk.db.view
        = restore g s.disk.db.view (segs.flatMap Segment.recs) ∧
      (playbackLoop true j.size fuel reset s).eState = .openS := by
  induction segs generalizing s fuel reset with
  | nil =>
    obtain ⟨fuel, rfl⟩ := Nat.exists_eq_succ_of_ne_zero (by omega : fuel ≠ 0)
    rw [playbackLoop, readJournalHdr_stop hs.reads hstop]
    exact ⟨rfl, hs.eState⟩
  | cons seg segs ih =>
    obtain ⟨fuel, rfl⟩ := Nat.exists_eq_succ_of_ne_zero (by omega : fuel ≠ 0)
    have hsegok := hok seg List.mem_cons_self
    obtain ⟨s₁, hhdr, hs₁, hsz₁, hck₁, hoff₁, hdisk₁⟩ := readJournalHdr_hot hs hplaced.1.readable hoff
      (by have := hsegok.count; omega) hsegok.cksum hn32
    have hne := journalHdrOffset_ne_zero (g := g) hoff
    rw [playbackLoop, hhdr]
    dsimp only
    rw [recordCount_hot hsegok.count, Pager.playbackTruncate,
      if_neg (show ¬ s₁.journalOff = s₁.geom.sectorSize by rw [hoff₁, hs₁.geom]; omega)]
    obtain ⟨s₂, hrecs, hs₂, hsz₂, hoff₂, hview₂⟩ := playbackRecords_seg hs₁ (hsz₁.trans hn) hn32
      hsegok hplaced.1.readable hck₁ hoff₁ reset seg.recs.length
    rw [hrecs]
    dsimp only
    have hlen : seg.length g = g.sectorSize + seg.recs.length * g.jrnlPgSz := rfl
    have hge := g.sector_ge
    have hlt : segs.length < fuel := by
      rw [List.length_cons] at hfuel
      omega
    obtain ⟨hview, hstate⟩ := ih hs₂ (by rw [hoff₂]; omega) hsz₂
      (fun seg' h => hok seg' (List.mem_cons_of_mem _ h)) (by rw [hoff₂]; exact hplaced.2)
      (by rw [hoff₂]; exact hstop) hlt (reset && seg.recs.length == 0)
    refine ⟨?_, hstate⟩
    rw [hview, hview₂, hdisk₁, List.flatMap_cons, restore_append]

/-- What the file is after `pager_truncate`, when it is not shorter. -/
theorem pagerTruncate_view (hs : s.eState = .openS) (n : ℕ)
    (hsize : s.geom.pageSize * n ≤ s.disk.db.view.size) :
    (s.pagerTruncate n).disk.db.view = s.disk.db.view.truncate (s.geom.pageSize * n) := by
  rw [Pager.pagerTruncate, if_pos (Or.inr hs)]
  dsimp only
  split
  · rename_i heq
    rw [← heq, File.truncate_self]
  · rw [if_pos (by omega)]
    exact DiskFile.view_truncate _ _

/-- `pager_truncate` changes the database file and its size, and nothing else. -/
theorem pagerTruncate_eq (s : Pager) (n : ℕ) :
    ∃ db nFile trace, s.pagerTruncate n
      = { s with disk := { s.disk with db := db }, dbFileSize := nFile, trace := trace } := by
  rw [Pager.pagerTruncate]
  dsimp only
  split_ifs
  · exact ⟨_, _, _, rfl⟩
  · exact ⟨_, _, _, rfl⟩
  · exact ⟨_, _, _, rfl⟩
  · exact ⟨_, _, _, rfl⟩
  · exact ⟨_, _, _, rfl⟩

/-- The first header: the sizes are taken from it. -/
theorem readJournalHdr_sizes {g₀ : Geom} (hs : Reads g₀ j s) (hsec : g₀.sectorSize = g.sectorSize)
    {seg : Segment} (hseg : Readable g nOrig j 0 seg) (hoff : s.journalOff = 0)
    (hok : SegOk g nOrig seg) (hn : nOrig < 2 ^ 32) :
    s.readJournalHdr true j.size = (some (seg.recs.length, nOrig),
      { s.sqlite3PagerSetPagesize g with
        geom := g, journalOff := g.sectorSize, cksumInit := seg.cksumInit }) := by
  obtain ⟨hmagic, hnRec, hcksum, hdbSize, hsector, hpage⟩ :=
    hseg.get (by have := hok.count; omega) hok.cksum hn
  have hsize := hseg.size
  rw [Segment.length] at hsize
  have hzero : g₀.journalHdrOffset s.journalOff = 0 := by
    rw [hoff]
    rfl
  have hvalid : Geom.Valid g.pageSize g.sectorSize :=
    ⟨g.page_ge, g.sector_ge, g.page_le, g.sector_le, g.page_pow, g.sector_pow⟩
  have hsizes : s.readSizes = (true, { s.sqlite3PagerSetPagesize g with geom := g }) := by
    have hne : g.pageSize ≠ 0 := by have := g.page_ge; omega
    rw [Pager.readSizes]
    simp only [hs.jrnl, show get4 j.byte 20 = g.sectorSize from hsector,
      show get4 j.byte 24 = g.pageSize from hpage, if_neg hne]
    rw [dif_pos hvalid]
    have hg : Geom.ofValid hvalid = g := rfl
    rw [hg]
    refine congrArg (Prod.mk true) (congrArg (fun x => { s.sqlite3PagerSetPagesize g with geom := x }) ?_)
    refine Geom.ext ?_ rfl
    rw [Pager.sqlite3PagerSetPagesize]
    split
    · rename_i heq
      exact heq.symm
    · rfl
  rw [Pager.readJournalHdr, Pager.journalHdrOffset, hs.geom, hs.jrnl, hzero, if_neg,
    Pager.readHdrFields, if_pos rfl, hsizes]
  · dsimp only
    rw [hs.jrnl, hnRec, hcksum, hdbSize, Nat.zero_add]
  · rintro (hlt | ⟨-, hno⟩)
    · omega
    · exact hno hmagic

theorem readJournalHdr_first {g₀ : Geom} (hs : Hot g₀ j s) (hsec : g₀.sectorSize = g.sectorSize)
    {seg : Segment} (hseg : Readable g nOrig j 0 seg) (hoff : s.journalOff = 0)
    (hok : SegOk g nOrig seg) (hn : nOrig < 2 ^ 32) :
    ∃ s', s.readJournalHdr true j.size = (some (seg.recs.length, nOrig), s') ∧ Hot g j s' ∧
      s'.cksumInit = seg.cksumInit ∧ s'.journalOff = g.sectorSize ∧ s'.disk = s.disk := by
  refine ⟨_, readJournalHdr_sizes hs.reads hsec hseg hoff hok hn, ?_, rfl, rfl, ?_⟩
  · rw [Pager.sqlite3PagerSetPagesize]
    split
    · exact ⟨rfl, hs.eState, hs.cache, hs.jrnl, hs.hdr⟩
    · exact ⟨rfl, hs.eState, fun _ => rfl, hs.jrnl, hs.hdr⟩
  · rw [Pager.sqlite3PagerSetPagesize]
    split <;> rfl

/-- **A journal of complete segments is played back**: the database is cut to its original size,
and the pages of all records are restored. -/
theorem playback_placed {g₀ : Geom} (hs : Hot g₀ j s) (hsec : g₀.sectorSize = g.sectorSize)
    (hoff : s.journalOff = 0) {seg : Segment} {segs : List Segment} {fuel : ℕ}
    (hn : nOrig < 2 ^ 32) (hok : ∀ seg' ∈ seg :: segs, SegOk g nOrig seg')
    (hplaced : Placed g nOrig j 0 (seg :: segs)) (hstop : Stop g j (nextHdr g 0 (seg :: segs)))
    (hsize : g.pageSize * nOrig ≤ s.disk.db.view.size) (hfuel : segs.length + 1 < fuel)
    (reset : Bool) :
    (playbackLoop true j.size fuel reset s).disk.db.view
        = restore g (s.disk.db.view.truncate (g.pageSize * nOrig))
          ((seg :: segs).flatMap Segment.recs) ∧
      (playbackLoop true j.size fuel reset s).eState = .openS := by
  obtain ⟨fuel, rfl⟩ := Nat.exists_eq_succ_of_ne_zero (by omega : fuel ≠ 0)
  have hsegok := hok seg List.mem_cons_self
  obtain ⟨s₁, hhdr, hs₁, hck₁, hoff₁, hdisk₁⟩ :=
    readJournalHdr_first hs hsec hplaced.1.readable hoff hsegok hn
  rw [playbackLoop, hhdr]
  dsimp only
  rw [recordCount_hot hsegok.count, Pager.playbackTruncate,
    if_pos (show s₁.journalOff = s₁.geom.sectorSize by rw [hoff₁, hs₁.geom])]
  have hview₁ := pagerTruncate_view hs₁.eState nOrig (by rw [hs₁.geom, hdisk₁]; exact hsize)
  obtain ⟨db, nFile, trace, htrunc⟩ := pagerTruncate_eq s₁ nOrig
  rw [htrunc] at hview₁ ⊢
  rw [hs₁.geom, hdisk₁] at hview₁
  have hs₂ : Hot g j { s₁ with
      disk := { s₁.disk with db := db }, dbFileSize := nFile, trace := trace, dbSize := nOrig } :=
    ⟨hs₁.geom, hs₁.eState, hs₁.cache, hs₁.jrnl, hs₁.hdr⟩
  obtain ⟨s₃, hrecs, hs₃, hsz₃, hoff₃, hview₃⟩ := playbackRecords_seg hs₂ rfl hn hsegok hplaced.1.readable
    hck₁ (hoff₁.trans (Nat.zero_add _).symm) reset seg.recs.length
  rw [hrecs]
  dsimp only
  have hlen : seg.length g = g.sectorSize + seg.recs.length * g.jrnlPgSz := rfl
  have hge := g.sector_ge
  have hlt : segs.length < fuel := by omega
  obtain ⟨hview, hstate⟩ := playbackLoop_hot hs₃ (by rw [hoff₃]; omega) hsz₃ hn
    (fun seg' h => hok seg' (List.mem_cons_of_mem _ h)) (by rw [hoff₃]; exact hplaced.2)
    (by rw [hoff₃]; exact hstop) hlt (reset && seg.recs.length == 0)
  refine ⟨?_, hstate⟩
  rw [hview, hview₃, List.flatMap_cons, restore_append]
  dsimp only at hview₁ ⊢
  rw [hview₁]

/-! ### Recovery -/

theorem Placed.length_le {segs : List Segment} {off : ℕ} (h : Placed g nOrig j off segs)
    (hoff : off ≤ j.size) : off + segs.length ≤ j.size := by
  induction segs generalizing off with
  | nil => exact hoff
  | cons seg segs ih =>
    have hsize := h.1.size
    have hge := g.sector_ge
    have hlen : seg.length g = g.sectorSize + seg.recs.length * g.jrnlPgSz := rfl
    have hle := le_journalHdrOffset (g := g) (off + seg.length g)
    rw [List.length_cons]
    cases segs with
    | nil => simp only [List.length_nil]; omega
    | cons seg' segs =>
      have hsize' := h.2.1.size
      have := ih h.2 (by omega)
      omega

/-- The page a byte of the database lies on. -/
def Geom.pageOf (g : Geom) (i : ℕ) : ℕ := i / g.pageSize + 1

theorem pageOf_iff {p i : ℕ} (hp : p ≠ 0) :
    g.pageOf i = p ↔ g.pageOfst p ≤ i ∧ i < g.pageOfst p + g.pageSize := by
  have hpos : 0 < g.pageSize := by have := g.page_ge; omega
  obtain ⟨q, rfl⟩ := Nat.exists_eq_succ_of_ne_zero hp
  rw [Geom.pageOf, Geom.pageOfst, Nat.succ_sub_one, Nat.succ_inj, Nat.div_eq_iff hpos]
  omega

theorem pageOf_le {i : ℕ} (h : i < g.pageSize * nOrig) : g.pageOf i ≤ nOrig := by
  rw [Geom.pageOf]
  exact Nat.div_lt_of_lt_mul h

/-- The record holds the page of the file. -/
def RecOf (g : Geom) (orig : File) (r : Record) : Prop :=
  r.1 ≠ 0 ∧ ∀ i < g.pageSize, r.2 i = orig.byte (g.pageOfst r.1 + i)

/-- A byte of a restored page, or one that was right before. -/
theorem restore_byte {orig f : File} {recs : List Record} {i : ℕ}
    (hrecs : ∀ r ∈ recs, RecOf g orig r)
    (h : g.pageOf i ∉ recs.map Prod.fst → f.byte i = orig.byte i) :
    (restore g f recs).byte i = orig.byte i := by
  induction recs generalizing f with
  | nil => exact h (by simp)
  | cons r recs ih =>
    obtain ⟨h0, hdata⟩ := hrecs r List.mem_cons_self
    refine ih (f := f.write (g.pageOfst r.1) (g.pageBytes r.2))
      (fun r' hr' => hrecs r' (List.mem_cons_of_mem _ hr')) fun hnot => ?_
    rw [File.write_byte]
    by_cases hpage : g.pageOf i = r.1
    · obtain ⟨hlo, hhi⟩ := (pageOf_iff h0).mp hpage
      obtain ⟨k, rfl⟩ := Nat.exists_eq_add_of_le hlo
      rw [blit_inside (by rw [length_pageBytes]; omega)]
      simp only [Geom.pageBytes, getElem_slice, Nat.zero_add]
      exact hdata k (by omega)
    · have hout : ¬ (g.pageOfst r.1 ≤ i ∧ i < g.pageOfst r.1 + g.pageSize) :=
        fun hin => hpage ((pageOf_iff h0).mpr hin)
      rw [blit_outside (by rw [length_pageBytes]; omega)]
      refine h fun hmem => ?_
      rw [List.map_cons, List.mem_cons] at hmem
      exact hmem.elim hpage hnot

theorem restore_size {f : File} {recs : List Record} (hrecs : ∀ r ∈ recs, PgnoOk g nOrig r.1)
    (hsize : f.size = g.pageSize * nOrig) : (restore g f recs).size = g.pageSize * nOrig := by
  induction recs generalizing f with
  | nil => exact hsize
  | cons r recs ih =>
    refine ih (fun r' hr' => hrecs r' (List.mem_cons_of_mem _ hr')) ?_
    obtain ⟨h0, hle, -⟩ := hrecs r List.mem_cons_self
    have hmul : r.1 * g.pageSize ≤ g.pageSize * nOrig := by
      rw [Nat.mul_comm g.pageSize]
      exact Nat.mul_le_mul_right _ hle
    obtain ⟨q, hq⟩ := Nat.exists_eq_succ_of_ne_zero h0
    rw [hq, Nat.succ_mul] at hmul
    rw [File.write_size, length_pageBytes, hsize, Geom.pageOfst, hq, Nat.succ_sub_one]
    omega

/-- `segs` are the complete segments of the journal `j`, there is no other, and the pages of the
database that differ from the original are all in them. -/
structure Recoverable (g : Geom) (nOrig : ℕ) (orig db j : File) (segs : List Segment) : Prop where
  placed : Placed g nOrig j 0 segs
  stop : Stop g j (nextHdr g 0 segs)
  ok : ∀ seg ∈ segs, SegOk g nOrig seg
  recs : ∀ r ∈ segs.flatMap Segment.recs, RecOf g orig r
  size : g.pageSize * nOrig ≤ db.size
  same : ∀ i < g.pageSize * nOrig, g.pageOf i ∉ (segs.flatMap Segment.recs).map Prod.fst →
    db.byte i = orig.byte i
  untouched : segs = [] → db = orig

theorem pagerPagecount_eq_zero : s.pagerPagecount = 0 ↔ s.disk.db.view.size = 0 := by
  have hge := s.geom.page_ge
  rw [Pager.pagerPagecount, Nat.div_eq_zero_iff]
  omega

/-- A database that is not hot is as it is found. -/
theorem sharedLock_of_not_hot (access : List UInt8 → Bool) (mxPathname : ℕ)
    (h : s.hasHotJournal.1 = false) :
    (s.sqlite3PagerSharedLock access mxPathname).disk.db.view = s.disk.db.view := by
  rw [Pager.sqlite3PagerSharedLock]
  rcases hhot : s.hasHotJournal with ⟨_ | _, s'⟩
  · dsimp only
    rw [Pager.hasHotJournal] at hhot
    split at hhot
    · rw [← (Prod.mk.inj hhot).2]
    · split at hhot
      · rw [← (Prod.mk.inj hhot).2]
        rfl
      · rw [← (Prod.mk.inj hhot).2]
  · rw [hhot] at h
    exact Bool.noConfusion h

/-- The end of `pager_playback` leaves the database file as it is. -/
theorem pagerEndTransaction_view (s : Pager) :
    (s.pagerEndTransaction false).disk.db = s.disk.db := by
  rw [Pager.pagerEndTransaction, Pager.shrinkFile, if_neg (by simp), Pager.finalizeJournal]
  split <;> rfl

/-- The database after `pager_playback` is the database after its loop, when there is no master
journal. -/
theorem pagerPlayback_view (access : List UInt8 → Bool) {mxPathname : ℕ}
    (hmaster : readMasterJournal s.jrnlView (mxPathname + 1) = some []) :
    (s.pagerPlayback access mxPathname true).disk.db.view
      = (playbackLoop true s.jrnlView.size (s.jrnlView.size + 1) true
          { s with journalOff := 0 }).disk.db.view := by
  have hno : ¬ (([] : List UInt8) ≠ [] ∧ access [] = false) := fun h => h.1 rfl
  rw [Pager.pagerPlayback, hmaster]
  dsimp only
  rw [pagerEndTransaction_view, if_neg hno]
  split
  · exact DiskFile.view_sync _
  · rfl

/-- `hasHotJournal`, when there is a journal file. -/
theorem hasHotJournal_eq {d : DiskFile} (hjrnl : s.disk.jrnl = some d) :
    s.hasHotJournal = if s.pagerPagecount = 0 then (false, s.io { s.disk with jrnl := none })
      else (0 < d.view.size && d.view.byte 0 != 0, s) := by
  rw [Pager.hasHotJournal, hjrnl]

/-- **Opening a recoverable database gives the original.** -/
theorem recover_eq {orig db : File} {segs : List Segment} (h : Recoverable g nOrig orig db j segs)
    (horig : orig.size = g.pageSize * nOrig) (hn : nOrig < 2 ^ 32) {g₀ : Geom}
    (hsec : g₀.sectorSize = g.sectorSize) (mxPgno : ℕ) (access : List UInt8 → Bool) {mxPathname : ℕ}
    (hmaster : readMasterJournal j (mxPathname + 1) = some []) :
    ((sqlite3PagerOpen g₀ mxPgno db (some j)).sqlite3PagerSharedLock access mxPathname).disk.db.view
      = orig := by
  set s := sqlite3PagerOpen g₀ mxPgno db (some j) with hs
  have hview : s.disk.db.view = db := rfl
  have hfile : s.disk.jrnl = some (DiskFile.ofFile j) := rfl
  rcases Bool.eq_false_or_eq_true s.hasHotJournal.1 with hhot | hhot
  · -- the journal is hot: it is synced and played back
    have hsame : s.hasHotJournal = (true, s) := by
      rw [hasHotJournal_eq hfile] at hhot ⊢
      split at hhot
      · exact Bool.noConfusion hhot
      · rename_i hcount
        rw [if_neg hcount]
        exact congrArg (Prod.mk · s) hhot
    rw [Pager.sqlite3PagerSharedLock, hsame]
    dsimp only
    set t := ({ s with jfdOpen := true } : Pager).pagerSyncHotJournal with ht
    have hjrnl : t.jrnlView = j := rfl
    rw [pagerPlayback_view access (by rw [hjrnl]; exact hmaster), hjrnl]
    have htHot : Hot g₀ j { t with journalOff := 0 } := ⟨rfl, rfl, fun _ => rfl, rfl, rfl⟩
    have htview : ({ t with journalOff := 0 } : Pager).disk.db.view = db := rfl
    cases segs with
    | nil =>
      have hstop : Stop g₀ j (g₀.journalHdrOffset ({ t with journalOff := 0 } : Pager).journalOff) := by
        have := h.stop
        rw [Stop] at this ⊢
        rw [hsec]
        exact this
      rw [playbackLoop, readJournalHdr_stop htHot.reads hstop]
      exact htview.trans (h.untouched rfl)
    | cons seg segs =>
      have hlen := h.placed.length_le (Nat.zero_le _)
      rw [Nat.zero_add, List.length_cons] at hlen
      obtain ⟨hrestored, -⟩ := playback_placed htHot hsec rfl hn h.ok h.placed h.stop
        (by rw [htview]; exact h.size) (Nat.lt_succ_of_le hlen) true
      rw [hrestored, htview]
      have hpgno : ∀ r ∈ (seg :: segs).flatMap Segment.recs, PgnoOk g nOrig r.1 := by
        intro r hr
        obtain ⟨seg', hseg', hr⟩ := List.mem_flatMap.mp hr
        exact (h.ok seg' hseg').recs r hr
      have hsize := restore_size hpgno (f := db.truncate (g.pageSize * nOrig)) rfl
      refine File.ext_of_lt (hsize.trans horig.symm) fun i hi => ?_
      rw [hsize] at hi
      refine restore_byte h.recs fun hnot => ?_
      rw [File.truncate_byte hi]
      exact h.same i hi hnot
  · -- the journal is ignored: either the database is empty or no segment is complete
    rw [sharedLock_of_not_hot access mxPathname hhot, hview]
    cases segs with
    | nil => exact h.untouched rfl
    | cons seg segs =>
      obtain ⟨hmagic, -⟩ := h.placed.1.readable.get
        (by have := (h.ok seg List.mem_cons_self).count; omega)
        (h.ok seg List.mem_cons_self).cksum hn
      have hbyte : j.byte 0 = 0xd9 := by
        have hat : Holds j.byte 0 aJournalMagic := hmagic
        exact hat.byte (i := 0) (by decide)
      have hlen := h.placed.length_le (Nat.zero_le _)
      have hempty : db.size = 0 := by
        by_contra hne
        have hcount : s.pagerPagecount ≠ 0 := fun h0 => hne (pagerPagecount_eq_zero.mp h0)
        rw [List.length_cons] at hlen
        have hpos : 0 < j.size := by omega
        rw [hasHotJournal_eq hfile, if_neg hcount, DiskFile.view_ofFile, hbyte] at hhot
        simp [hpos] at hhot
      have hsize := h.size
      refine File.ext_of_lt (by omega) fun i hi => by omega

end Pager

end SqliteVms

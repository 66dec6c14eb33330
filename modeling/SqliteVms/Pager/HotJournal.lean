import SqliteVms.Pager.Journal

/-!
# Playing back whatever is in a hot journal

`pager_playback` trusts nothing but the journal: page size, sector size, record counts and page
numbers all come from it. Here the journal is any sequence of bytes. What a playback reads is a
function of these bytes (`firstHdr`, `scanRecords`, `scanHdrs`); the database file decides only
whether it is cut or extended first. That is why a playback that was interrupted can be run again:
the second run reads the same records and overwrites what the first has left.

A file that is too short is extended first: a page of zeros is written where the file is to end.
This is the one write of a playback that no record stands behind.

## Main definitions

* `hotPager`, `hotPass` — the pager when `pager_playback` is called, and when it reaches its end
* `Ends` — the loop of `pager_playback` comes to an end
* `journalRecords` — the offsets of the records that are restored
* `Confined`, `Recovers` — what a playback may write, and that it can be repeated

## Main results

* `hotPass_db` — the operations of a playback on the database file
* `playback_ends` — the loop ends, whatever the journal holds
* `hotPlayback_spec` — writes are confined, and an interrupted playback can be repeated
* `not_claimedPlayback_shortFile` — the page of zeros
-/

namespace SqliteVms

open BigEndian Store Disk

namespace Pager

/-! ### What is read from a journal -/

section Scan

variable (j : File) (g : Geom) (n : ℕ)

/-- The page number of the record at `off`. -/
def recPgno (off : ℕ) : ℕ := get4 j.byte off

/-- What `pager_playback_one_page` makes of the record at `off`, for a database of `n` pages: its
answer, and whether the page is restored. -/
def recVerdict (ck off : ℕ) : Rc × Bool :=
  if j.size < off + 4 + g.pageSize then (.shortRead, false)
  else if recPgno j off = 0 ∨ recPgno j off = g.mjPgno then (.done, false)
  else if n < recPgno j off then (.ok, false)
  else if j.size < off + g.jrnlPgSz then (.shortRead, false)
  else if g.pagerCksum ck (fun i => j.byte (off + 4 + i)) ≠ get4 j.byte (off + g.jrnlPgSz - 4) then
    (.done, false)
  else (.ok, true)

/-- Up to `k` records from `off` on: whether the playback is over, where the next header is looked
for, and the records restored. -/
def scanRecords (ck : ℕ) : ℕ → ℕ → Bool × ℕ × List ℕ
  | 0, off => (false, off, [])
  | k + 1, off =>
    match recVerdict j g n ck off with
    | (.ok, restored) =>
      let r := scanRecords ck k (off + g.jrnlPgSz)
      (r.1, r.2.1, (if restored then [off] else []) ++ r.2.2)
    | (.done, _) => (false, j.size, [])
    | (.shortRead, _) => (true, off, [])

/-- There is no header at `hdr`. -/
def NoHdr (hdr : ℕ) : Prop := j.size < hdr + g.sectorSize ∨ slice j.byte hdr 8 ≠ aJournalMagic

instance (hdr : ℕ) : Decidable (NoHdr j g hdr) := inferInstanceAs (Decidable (_ ∨ _))

/-- The record count in the header at `hdr`, as `pager_playback` takes it. -/
def hdrCount (hdr : ℕ) : ℕ :=
  if get4 j.byte (hdr + 8) = 0xffffffff then g.recordsFrom j.size g.sectorSize
  else get4 j.byte (hdr + 8)

/-- The records behind the header at `hdr`. -/
def scanSegment (hdr : ℕ) : Bool × ℕ × List ℕ :=
  scanRecords j g n (get4 j.byte (hdr + 12)) (hdrCount j g hdr) (hdr + g.sectorSize)

/-- The records behind all headers from `off` on. -/
def scanHdrs : ℕ → ℕ → List ℕ
  | 0, _ => []
  | fuel + 1, off =>
    if NoHdr j g (g.journalHdrOffset off) then []
    else
      let r := scanSegment j g n (g.journalHdrOffset off)
      if r.1 then r.2.2 else r.2.2 ++ scanHdrs fuel r.2.1

end Scan

/-- The page size in the first header, zero standing for the pager's own. -/
def hdrPageSize (g : Geom) (j : File) : ℕ :=
  if get4 j.byte 24 = 0 then g.pageSize else get4 j.byte 24

/-- The page and the sector size a playback works with, if the first header is accepted. -/
def firstHdr (g : Geom) (j : File) : Option Geom :=
  if NoHdr j g 0 then none
  else if h : Geom.Valid (hdrPageSize g j) (get4 j.byte 20) then some (Geom.ofValid h)
  else none

/-- The number of pages in the first header. -/
def hdrMxPg (j : File) : ℕ := get4 j.byte 16

/-- The offsets of the records that a playback restores, in order. -/
def journalRecords (g : Geom) (j : File) : List ℕ :=
  match firstHdr g j with
  | none => []
  | some g =>
    let r := scanSegment j g (hdrMxPg j) 0
    if r.1 then r.2.2 else r.2.2 ++ scanHdrs j g (hdrMxPg j) j.size r.2.1

/-- The write that restores the record at `off`. -/
def recWrite (g : Geom) (j : File) (off : ℕ) : Op :=
  .write (g.pageOfst (recPgno j off)) (slice j.byte (off + 4) g.pageSize)

/-- What `pager_truncate` does to a file of `size` bytes. -/
def truncateOps (g : Geom) (nPage size : ℕ) : List Op :=
  if g.pageSize * nPage < size then [.truncate (g.pageSize * nPage)]
  else if size + g.pageSize ≤ g.pageSize * nPage then
    [.write (g.pageSize * nPage - g.pageSize) (List.replicate g.pageSize 0)]
  else []

/-- The operations of a playback on a database file of `size` bytes. -/
def playbackOps (g : Geom) (j : File) (size : ℕ) : List Op :=
  match firstHdr g j with
  | none => []
  | some g' =>
    truncateOps g' (hdrMxPg j) size ++ (journalRecords g j).map (recWrite g' j)

/-! ### The pager reads just that -/

/-- A pager that plays back `j` and has got to `off`. -/
structure Reading (j : File) (g : Geom) (n ck off : ℕ) (s : Pager) : Prop where
  geom : s.geom = g
  dbSize : s.dbSize = n
  cksumInit : s.cksumInit = ck
  journalOff : s.journalOff = off
  eState : s.eState = .openS
  jrnl : s.jrnlView = j
  hdr : s.journalHdr = j.size

/-- Between `s` and `s'` the operations `ops` were done to the database file. -/
def Did (s s' : Pager) (ops : List Op) : Prop :=
  s'.disk.db = ⟨s.disk.db.synced, s.disk.db.pending ++ ops⟩

theorem Did.refl (s : Pager) : Did s s [] := by
  rw [Did, List.append_nil]

theorem Did.of_db_eq {s s' : Pager} (h : s'.disk.db = s.disk.db) : Did s s' [] := by
  rw [Did, List.append_nil, h]

theorem Did.trans {s s' s'' : Pager} {ops ops' : List Op} (h : Did s s' ops)
    (h' : Did s' s'' ops') : Did s s'' (ops ++ ops') := by
  rw [Did] at *
  rw [h', h, List.append_assoc]

section Refine

variable {j : File} {g : Geom} {n ck off : ℕ} {s : Pager}

theorem pageBytes_slice (j : File) (g : Geom) (off : ℕ) :
    g.pageBytes (fun i => j.byte (off + i)) = slice j.byte off g.pageSize := by
  rw [Geom.pageBytes, slice, slice]
  refine List.map_congr_left fun i _ => ?_
  rw [Nat.zero_add]

/-- **One record.** -/
theorem playbackOnePage_reading (hs : Reading j g n ck off s) :
    ∃ next s', s.pagerPlaybackOnePage s.journalOff none true false
        = ((recVerdict j g n ck off).1, next, none, s') ∧ Reading j g n ck off s' ∧
      Did s s' (if (recVerdict j g n ck off).2 then [recWrite g j off] else []) ∧
      ((recVerdict j g n ck off).1 = .ok → next = off + g.jrnlPgSz) := by
  have hnext : off + g.pageSize + 4 + 4 = off + g.jrnlPgSz := by
    rw [Geom.jrnlPgSz]
    omega
  generalize hv : recVerdict j g n ck off = v
  rw [recVerdict, recPgno] at hv
  rw [Pager.pagerPlaybackOnePage]
  simp only [if_true, hs.geom, hs.jrnl, hs.journalOff, hs.dbSize, hs.cksumInit, hnext, true_and,
    Option.any_none, Bool.false_eq_true, or_false]
  by_cases h1 : j.size < off + 4 + g.pageSize
  · rw [if_pos h1] at hv ⊢
    subst hv
    exact ⟨_, s, rfl, hs, Did.refl s, fun h => absurd h (by decide)⟩
  rw [if_neg h1] at hv ⊢
  by_cases h2 : get4 j.byte off = 0 ∨ get4 j.byte off = g.mjPgno
  · rw [if_pos h2] at hv ⊢
    subst hv
    exact ⟨_, s, rfl, hs, Did.refl s, fun h => absurd h (by decide)⟩
  rw [if_neg h2] at hv ⊢
  by_cases h3 : n < get4 j.byte off
  · rw [if_pos h3] at hv ⊢
    subst hv
    exact ⟨_, s, rfl, hs, Did.refl s, fun _ => rfl⟩
  rw [if_neg h3] at hv ⊢
  by_cases h4 : j.size < off + g.jrnlPgSz
  · rw [if_pos h4] at hv ⊢
    subst hv
    exact ⟨_, s, rfl, hs, Did.refl s, fun h => absurd h (by decide)⟩
  rw [if_neg h4] at hv ⊢
  by_cases h5 : g.pagerCksum ck (fun i => j.byte (off + 4 + i))
      ≠ get4 j.byte (off + g.jrnlPgSz - 4)
  · rw [if_pos h5] at hv ⊢
    subst hv
    exact ⟨_, s, rfl, hs, Did.refl s, fun h => absurd h (by decide)⟩
  rw [if_neg h5] at hv ⊢
  subst hv
  have hfile : s.playbackFile (get4 j.byte off) (fun i => j.byte (off + 4 + i)) true
      (decide (off + g.jrnlPgSz ≤ s.journalHdr))
      = { s.writeDb (g.pageOfst (get4 j.byte off)) (slice j.byte (off + 4) g.pageSize) with
          dbFileSize := max s.dbFileSize (get4 j.byte off) } := by
    rw [hs.hdr, decide_eq_true (by omega), Pager.playbackFile, if_pos ⟨Or.inr hs.eState, rfl⟩,
      hs.geom, pageBytes_slice]
  rw [hfile, Pager.playbackCache]
  refine ⟨_, _, rfl, ?_, ?_, fun _ => rfl⟩
  · split
    · exact ⟨hs.geom, hs.dbSize, hs.cksumInit, hs.journalOff, hs.eState, hs.jrnl, hs.hdr⟩
    · exact ⟨hs.geom, hs.dbSize, hs.cksumInit, hs.journalOff, hs.eState, hs.jrnl, hs.hdr⟩
  · split <;> rfl

/-- The records behind one header. -/
theorem playbackRecords_reading (k : ℕ) (hs : Reading j g n ck off s) :
    ∃ s', playbackRecords j.size k s = ((scanRecords j g n ck k off).1, s') ∧
      Reading j g n ck (scanRecords j g n ck k off).2.1 s' ∧
      Did s s' ((scanRecords j g n ck k off).2.2.map (recWrite g j)) := by
  induction k generalizing off s with
  | zero => exact ⟨s, rfl, hs, Did.refl s⟩
  | succ k ih =>
    obtain ⟨next, s₁, hone, hs₁, hdid, hnext⟩ := playbackOnePage_reading hs
    rw [playbackRecords, hone, scanRecords]
    rcases hv : recVerdict j g n ck off with ⟨rc, restored⟩
    rw [hv] at hdid hnext
    cases rc with
    | ok =>
      obtain rfl := hnext rfl
      have hs₂ : Reading j g n ck (off + g.jrnlPgSz)
          { s₁ with journalOff := off + g.jrnlPgSz } :=
        ⟨hs₁.geom, hs₁.dbSize, hs₁.cksumInit, rfl, hs₁.eState, hs₁.jrnl, hs₁.hdr⟩
      obtain ⟨s', hrest, hs', hdid'⟩ := ih hs₂
      refine ⟨s', hrest, hs', ?_⟩
      have hboth : Did s s' _ := hdid.trans hdid'
      rw [List.map_append]
      cases restored <;> exact hboth
    | done =>
      refine ⟨_, rfl, ⟨hs₁.geom, hs₁.dbSize, hs₁.cksumInit, rfl, hs₁.eState, hs₁.jrnl, hs₁.hdr⟩, ?_⟩
      cases restored with
      | false => exact hdid
      | true => exact absurd hv (by rw [recVerdict]; split_ifs <;> simp)
    | shortRead =>
      refine ⟨_, rfl, hs₁, ?_⟩
      cases restored with
      | false => exact hdid
      | true => exact absurd hv (by rw [recVerdict]; split_ifs <;> simp)

end Refine

/-! ### The loop -/

/-- One turn of the loop of `pager_playback`: whether it is the last one, `needPagerReset` for the
next one, and the pager. -/
def playbackTurn (isHot : Bool) (szJ : ℕ) (needPagerReset : Bool) (s : Pager) :
    Bool × Bool × Pager :=
  match s.readJournalHdr isHot szJ with
  | (none, s) => (true, needPagerReset, s)
  | (some (nRec, mxPg), s) =>
    let nRec := s.recordCount isHot szJ nRec
    match playbackRecords szJ nRec ((s.playbackTruncate mxPg).playbackReset needPagerReset nRec) with
    | (fin, s) => (fin, needPagerReset && nRec == 0, s)

/-- The loop `while( 1 )` of `pager_playback`, begun with `s`, ends with `s'`. -/
inductive Ends (isHot : Bool) (szJ : ℕ) : Bool → Pager → Pager → Prop
  | last {reset reset' : Bool} {s s' : Pager}
      (h : playbackTurn isHot szJ reset s = (true, reset', s')) : Ends isHot szJ reset s s'
  | next {reset reset' : Bool} {s s₁ s' : Pager}
      (h : playbackTurn isHot szJ reset s = (false, reset', s₁))
      (hrest : Ends isHot szJ reset' s₁ s') : Ends isHot szJ reset s s'

theorem playbackTurn_eq {isHot fin reset : Bool} {szJ nRec mxPg k : ℕ} {s s₁ s₂ s₃ : Pager}
    (hread : s.readJournalHdr isHot szJ = (some (nRec, mxPg), s₁))
    (hcount : s₁.recordCount isHot szJ nRec = k) (htrunc : s₁.playbackTruncate mxPg = s₂)
    (hrec : playbackRecords szJ k (s₂.playbackReset reset k) = (fin, s₃)) :
    playbackTurn isHot szJ reset s = (fin, reset && k == 0, s₃) := by
  rw [playbackTurn, hread]
  dsimp only
  rw [hcount, htrunc, hrec]

theorem playbackLoop_last {isHot : Bool} {szJ fuel : ℕ} {reset reset' : Bool} {s s' : Pager}
    (h : playbackTurn isHot szJ reset s = (true, reset', s')) :
    playbackLoop isHot szJ (fuel + 1) reset s = s' := by
  rw [playbackTurn] at h
  rw [playbackLoop]
  rcases hhdr : s.readJournalHdr isHot szJ with ⟨_ | ⟨nRec, mxPg⟩, s₁⟩
  · rw [hhdr] at h
    exact congrArg (fun x => x.2.2) h
  · rw [hhdr] at h
    dsimp only at h ⊢
    rcases hrec : playbackRecords szJ (s₁.recordCount isHot szJ nRec)
      ((s₁.playbackTruncate mxPg).playbackReset reset (s₁.recordCount isHot szJ nRec)) with ⟨fin, s₂⟩
    rw [hrec] at h
    obtain ⟨rfl, -, rfl⟩ : fin = true ∧ _ ∧ s₂ = s' := by simpa using h
    rfl

theorem playbackLoop_next {isHot : Bool} {szJ fuel : ℕ} {reset reset' : Bool} {s s₁ : Pager}
    (h : playbackTurn isHot szJ reset s = (false, reset', s₁)) :
    playbackLoop isHot szJ (fuel + 1) reset s = playbackLoop isHot szJ fuel reset' s₁ := by
  rw [playbackTurn] at h
  rw [playbackLoop]
  rcases hhdr : s.readJournalHdr isHot szJ with ⟨_ | ⟨nRec, mxPg⟩, s₂⟩
  · rw [hhdr] at h
    exact absurd (congrArg Prod.fst h) (by simp)
  · rw [hhdr] at h
    dsimp only at h ⊢
    rcases hrec : playbackRecords szJ (s₂.recordCount isHot szJ nRec)
      ((s₂.playbackTruncate mxPg).playbackReset reset (s₂.recordCount isHot szJ nRec)) with ⟨fin, s₃⟩
    rw [hrec] at h
    simp only [Prod.mk.injEq] at h
    obtain ⟨rfl, rfl, rfl⟩ := h
    rfl

/-! ### Where the records stand -/

/-- A record that is restored: it is whole, and its page is one of the first `n`, but not the page
with the locking bytes. -/
structure Restored (j : File) (g : Geom) (n off : ℕ) : Prop where
  size : off + g.jrnlPgSz ≤ j.size
  pgno : PgnoOk g n (recPgno j off)

section Offsets

variable {j : File} {g : Geom} {n : ℕ}

theorem restored_of_recVerdict (ck : ℕ) {off : ℕ} (h : (recVerdict j g n ck off).2 = true) :
    Restored j g n off := by
  rw [recVerdict] at h
  split_ifs at h with h1 h2 h3 h4 h5
  rw [not_or] at h2
  exact ⟨by omega, h2.1, by omega, h2.2⟩

theorem le_size_of_done (ck : ℕ) {off : ℕ} (h : (recVerdict j g n ck off).1 = .done) :
    off ≤ j.size := by
  rw [recVerdict] at h
  split_ifs at h with h1 h2 h3 h4 h5
  · omega
  · omega

/-- Records follow each other between two offsets. -/
structure Spaced (j : File) (g : Geom) (n lo hi : ℕ) (offs : List ℕ) : Prop where
  le : lo ≤ hi
  mem : ∀ o ∈ offs, lo ≤ o ∧ o + g.jrnlPgSz ≤ hi ∧ Restored j g n o
  apart : offs.Pairwise fun a b => a + g.jrnlPgSz ≤ b

theorem Spaced.nil {lo hi : ℕ} (h : lo ≤ hi) : Spaced j g n lo hi [] :=
  ⟨h, fun _ ho => absurd ho List.not_mem_nil, List.Pairwise.nil⟩

theorem Spaced.append {lo mid hi : ℕ} {offs offs' : List ℕ} (h : Spaced j g n lo mid offs)
    (h' : Spaced j g n mid hi offs') : Spaced j g n lo hi (offs ++ offs') := by
  have hle := h.le
  have hle' := h'.le
  refine ⟨hle.trans hle', fun o ho => ?_, List.pairwise_append.mpr ⟨h.apart, h'.apart, ?_⟩⟩
  · rcases List.mem_append.mp ho with ho | ho
    · obtain ⟨h1, h2, h3⟩ := h.mem o ho
      exact ⟨h1, h2.trans hle', h3⟩
    · obtain ⟨h1, h2, h3⟩ := h'.mem o ho
      exact ⟨hle.trans h1, h2, h3⟩
  · intro a ha b hb
    exact (h.mem a ha).2.1.trans (h'.mem b hb).1

theorem Spaced.mono {lo lo' hi hi' : ℕ} {offs : List ℕ} (h : Spaced j g n lo hi offs)
    (hlo : lo' ≤ lo) (hhi : hi ≤ hi') : Spaced j g n lo' hi' offs :=
  ⟨hlo.trans (h.le.trans hhi), fun o ho => by
    obtain ⟨h1, h2, h3⟩ := h.mem o ho
    exact ⟨hlo.trans h1, h2.trans hhi, h3⟩, h.apart⟩

theorem spaced_scanRecords (ck k off : ℕ) :
    Spaced j g n off (scanRecords j g n ck k off).2.1 (scanRecords j g n ck k off).2.2 := by
  induction k generalizing off with
  | zero => exact Spaced.nil (le_refl _)
  | succ k ih =>
    rw [scanRecords]
    rcases hv : recVerdict j g n ck off with ⟨rc, restored⟩
    cases rc with
    | ok =>
      refine Spaced.append ?_ (ih (off + g.jrnlPgSz))
      cases restored with
      | false => exact Spaced.nil (Nat.le_add_right _ _)
      | true =>
        refine ⟨Nat.le_add_right _ _, fun o ho => ?_, List.pairwise_singleton _ _⟩
        rw [List.mem_singleton.mp ho]
        exact ⟨le_refl _, le_refl _, restored_of_recVerdict ck (by rw [hv])⟩
    | done => exact Spaced.nil (le_size_of_done ck (n := n) (g := g) (by rw [hv]))
    | shortRead => exact Spaced.nil (le_refl _)

end Offsets

/-! ### All headers -/

section Loop

variable {j : File} {g : Geom} {n ck off : ℕ} {s : Pager}

theorem recordCount_hdr (hgeom : s.geom = g) (hdr : ℕ) :
    s.recordCount true j.size (get4 j.byte (hdr + 8)) = hdrCount j g hdr := by
  rw [Pager.recordCount, hdrCount, hgeom]
  rw [if_neg (by simp)]

theorem Reading.reset (hs : Reading j g n ck off s) (reset : Bool) (k : ℕ) :
    Reading j g n ck off (s.playbackReset reset k) ∧ Did s (s.playbackReset reset k) [] := by
  rw [Pager.playbackReset]
  split
  · exact ⟨⟨hs.geom, hs.dbSize, hs.cksumInit, hs.journalOff, hs.eState, hs.jrnl, hs.hdr⟩,
      Did.refl s⟩
  · exact ⟨hs, Did.refl s⟩

theorem Reading.moveTo (hs : Reading j g n ck off s) (off' ck' : ℕ) :
    Reading j g n ck' off' { s with geom := g, journalOff := off', cksumInit := ck' } ∧
      Did s { s with geom := g, journalOff := off', cksumInit := ck' } [] :=
  ⟨⟨rfl, hs.dbSize, rfl, rfl, hs.eState, hs.jrnl, hs.hdr⟩, Did.of_db_eq rfl⟩

/-- A turn that finds no header. -/
theorem playbackTurn_stop (hs : Reading j g n ck off s) (reset : Bool)
    (hno : NoHdr j g (g.journalHdrOffset off)) :
    playbackTurn true j.size reset s
      = (true, reset, { s with journalOff := g.journalHdrOffset off }) := by
  have hread : s.readJournalHdr true j.size
      = (none, { s with journalOff := g.journalHdrOffset off }) := by
    rw [Pager.readJournalHdr, Pager.journalHdrOffset, hs.geom, hs.journalOff, hs.jrnl, if_pos]
    exact hno.imp id fun hmagic => ⟨Or.inl rfl, hmagic⟩
  rw [playbackTurn, hread]

/-- The fields of a later header. -/
theorem readJournalHdr_reading (hs : Reading j g n ck off s) {hdr : ℕ}
    (hh : g.journalHdrOffset off = hdr) (hdr_ne : hdr ≠ 0) (hhdr : ¬ NoHdr j g hdr) :
    ∃ s', s.readJournalHdr true j.size
        = (some (get4 j.byte (hdr + 8), get4 j.byte (hdr + 16)), s') ∧
      Reading j g n (get4 j.byte (hdr + 12)) (hdr + g.sectorSize) s' ∧ Did s s' [] := by
  rw [NoHdr, not_or, not_not] at hhdr
  obtain ⟨hsize, hmagic⟩ := hhdr
  rw [Pager.readJournalHdr, Pager.journalHdrOffset, hs.geom, hs.journalOff, hs.jrnl, hh, if_neg,
    Pager.readHdrFields, if_neg hdr_ne]
  · dsimp only
    rw [hs.jrnl, hs.geom]
    exact ⟨_, rfl, hs.moveTo _ _⟩
  · rintro (hlt | ⟨-, hne⟩)
    · exact hsize hlt
    · exact hne hmagic

/-- A header is followed by its records. -/
theorem playbackTurn_segment {hdr mxPg : ℕ} {s₁ s₂ : Pager} {ops : List Op}
    (hread : s.readJournalHdr true j.size = (some (get4 j.byte (hdr + 8), mxPg), s₁))
    (hgeom : s₁.geom = g) (htrunc : s₁.playbackTruncate mxPg = s₂)
    (hs₂ : Reading j g n (get4 j.byte (hdr + 12)) (hdr + g.sectorSize) s₂) (hdid : Did s s₂ ops)
    (reset : Bool) :
    ∃ reset' ck' s', playbackTurn true j.size reset s = ((scanSegment j g n hdr).1, reset', s') ∧
      Reading j g n ck' (scanSegment j g n hdr).2.1 s' ∧
      Did s s' (ops ++ (scanSegment j g n hdr).2.2.map (recWrite g j)) := by
  obtain ⟨hs₃, hdid₃⟩ := hs₂.reset reset (hdrCount j g hdr)
  obtain ⟨s', hrec, hs', hdid'⟩ := playbackRecords_reading (hdrCount j g hdr) hs₃
  rw [← scanSegment] at hrec hs' hdid'
  have hall := hdid.trans (hdid₃.trans hdid')
  rw [List.nil_append] at hall
  exact ⟨_, _, s', playbackTurn_eq hread (recordCount_hdr hgeom hdr) htrunc hrec, hs', hall⟩

/-- **A turn at a later header.** -/
theorem playbackTurn_reading (hs : Reading j g n ck off s) (hoff : g.sectorSize ≤ off)
    (reset : Bool) (hhdr : ¬ NoHdr j g (g.journalHdrOffset off)) :
    ∃ reset' ck' s', playbackTurn true j.size reset s
        = ((scanSegment j g n (g.journalHdrOffset off)).1, reset', s') ∧
      Reading j g n ck' (scanSegment j g n (g.journalHdrOffset off)).2.1 s' ∧
      Did s s' ((scanSegment j g n (g.journalHdrOffset off)).2.2.map (recWrite g j)) := by
  have hsec := g.sector_ge
  have hle := le_journalHdrOffset (g := g) off
  obtain ⟨s₁, hread, hs₁, hdid⟩ := readJournalHdr_reading hs rfl (by omega) hhdr
  have htrunc : s₁.playbackTruncate (get4 j.byte (g.journalHdrOffset off + 16)) = s₁ := by
    rw [Pager.playbackTruncate, hs₁.journalOff, hs₁.geom, if_neg (by omega)]
  have hturn := playbackTurn_segment hread hs₁.geom htrunc hs₁ hdid reset
  rw [List.nil_append] at hturn
  exact hturn

/-- **The loop from the second header on.** -/
theorem playbackLoop_reading {fuel : ℕ} (hs : Reading j g n ck off s) (hoff : g.sectorSize ≤ off)
    (hfuel : j.size - off < fuel) (reset : Bool) :
    Ends true j.size reset s (playbackLoop true j.size fuel reset s) ∧
      Did s (playbackLoop true j.size fuel reset s)
        ((scanHdrs j g n fuel off).map (recWrite g j)) := by
  induction fuel generalizing off ck s reset with
  | zero => omega
  | succ fuel ih =>
    rw [scanHdrs]
    by_cases hno : NoHdr j g (g.journalHdrOffset off)
    · have hturn := playbackTurn_stop hs reset hno
      rw [if_pos hno, playbackLoop_last hturn]
      exact ⟨.last hturn, Did.refl s⟩
    · rw [if_neg hno]
      dsimp only
      obtain ⟨reset', ck', s₁, hturn, hs₁, hdid⟩ := playbackTurn_reading hs hoff reset hno
      have hspaced := spaced_scanRecords (j := j) (g := g) (n := n)
        (get4 j.byte (g.journalHdrOffset off + 12)) (hdrCount j g (g.journalHdrOffset off))
        (g.journalHdrOffset off + g.sectorSize)
      rw [← scanSegment] at hspaced
      have hle := le_journalHdrOffset (g := g) off
      have hsec := g.sector_ge
      have hmid := hspaced.le
      rcases hover : (scanSegment j g n (g.journalHdrOffset off)).1 with _ | _
      · rw [hover] at hturn
        rw [NoHdr, not_or] at hno
        obtain ⟨hends, hdid'⟩ := ih hs₁ (by omega) (by omega) reset'
        rw [playbackLoop_next hturn, if_neg Bool.false_ne_true, List.map_append]
        exact ⟨.next hturn hends, hdid.trans hdid'⟩
      · rw [hover] at hturn
        rw [playbackLoop_last hturn, if_pos rfl]
        exact ⟨.last hturn, hdid⟩

/-! ### The first header -/

theorem hdrPageSize_eq (g : Geom) (j : File) :
    hdrPageSize g j = if get4 j.byte 24 = 0 then g.pageSize else get4 j.byte 24 := rfl

/-- The pager with the sizes of `g'`. -/
theorem setPagesize_reading (hs : Reading j g n ck off s) (g' : Geom) :
    ∃ s', { s.sqlite3PagerSetPagesize g' with
          geom := (s.sqlite3PagerSetPagesize g').geom.withSector g' } = s' ∧
      Did s s' [] ∧ Reading j g' s'.dbSize ck off s' := by
  refine ⟨_, rfl, ?_⟩
  rw [Pager.sqlite3PagerSetPagesize]
  split
  · rename_i heq
    exact ⟨Did.of_db_eq rfl, Geom.ext heq.symm rfl, rfl, hs.cksumInit, hs.journalOff, hs.eState,
      hs.jrnl, hs.hdr⟩
  · exact ⟨Did.of_db_eq rfl, rfl, rfl, hs.cksumInit, hs.journalOff, hs.eState, hs.jrnl, hs.hdr⟩

theorem readSizes_valid (hs : Reading j g n ck off s)
    (h : Geom.Valid (hdrPageSize g j) (get4 j.byte 20)) :
    ∃ s', s.readSizes = (true, s') ∧ Did s s' [] ∧
      Reading j (Geom.ofValid h) s'.dbSize ck off s' := by
  obtain ⟨s', heq, hs'⟩ := setPagesize_reading hs (Geom.ofValid h)
  refine ⟨s', ?_, hs'⟩
  rw [Pager.readSizes]
  simp only [hs.jrnl, hs.geom, ← hdrPageSize_eq g j]
  rw [dif_pos h, heq]

theorem readSizes_invalid (hs : Reading j g n ck off s)
    (h : ¬ Geom.Valid (hdrPageSize g j) (get4 j.byte 20)) : s.readSizes = (false, s) := by
  rw [Pager.readSizes]
  simp only [hs.jrnl, hs.geom, ← hdrPageSize_eq g j]
  rw [dif_neg h]

theorem readJournalHdr_zero (hs : Reading j g n ck 0 s) (hhdr : ¬ NoHdr j g 0) :
    s.readJournalHdr true j.size = s.readHdrFields 0 := by
  rw [NoHdr, not_or, not_not] at hhdr
  have hzero : g.journalHdrOffset 0 = 0 := if_pos rfl
  rw [Pager.readJournalHdr, Pager.journalHdrOffset, hs.geom, hs.journalOff, hs.jrnl, hzero, if_neg]
  rintro (hlt | ⟨-, hne⟩)
  · exact hhdr.1 hlt
  · exact hne hhdr.2

theorem size_pos_of_firstHdr {g' : Geom} (h : firstHdr g j = some g') : 0 < j.size := by
  rw [firstHdr] at h
  split_ifs at h with hno
  rw [NoHdr, not_or] at hno
  have hge := g.sector_ge
  omega

/-- A first header that is not accepted ends the playback. -/
theorem playbackTurn_noFirst (hs : Reading j g n ck 0 s) (h : firstHdr g j = none) (reset : Bool) :
    ∃ s', playbackTurn true j.size reset s = (true, reset, s') ∧ Did s s' [] := by
  rw [firstHdr] at h
  by_cases hno : NoHdr j g 0
  · exact ⟨_, playbackTurn_stop hs reset (by rw [Geom.journalHdrOffset, if_pos rfl]; exact hno),
      Did.refl s⟩
  rw [if_neg hno] at h
  by_cases hvalid : Geom.Valid (hdrPageSize g j) (get4 j.byte 20)
  · rw [dif_pos hvalid] at h
    exact absurd h (Option.some_ne_none _)
  rw [playbackTurn, readJournalHdr_zero hs hno, Pager.readHdrFields, if_pos rfl,
    readSizes_invalid hs hvalid]
  exact ⟨_, rfl, Did.refl s⟩

/-- The first header that is accepted: the sizes are taken from it. -/
theorem readJournalHdr_accepted {g' : Geom} (hs : Reading j g n ck 0 s)
    (h : firstHdr g j = some g') :
    ∃ s', s.readJournalHdr true j.size = (some (get4 j.byte (0 + 8), get4 j.byte (0 + 16)), s') ∧
      Did s s' [] ∧ Reading j g' s'.dbSize (get4 j.byte (0 + 12)) (0 + g'.sectorSize) s' := by
  rw [firstHdr] at h
  split_ifs at h with hno hvalid
  obtain ⟨s', hsizes, hdid, hs'⟩ := readSizes_valid hs hvalid
  rw [Option.some.inj h] at hs'
  rw [readJournalHdr_zero hs hno, Pager.readHdrFields, if_pos rfl, hsizes]
  dsimp only
  rw [hs.jrnl, hs'.geom]
  obtain ⟨hs'', hdid'⟩ := hs'.moveTo (0 + g'.sectorSize) (get4 j.byte (0 + 12))
  exact ⟨_, rfl, hdid.trans hdid', hs''⟩

/-- `pager_truncate` brings the file to the size in the header. -/
theorem playbackTruncate_first (hs : Reading j g n ck (0 + g.sectorSize) s) (mxPg : ℕ) :
    Reading j g mxPg ck (0 + g.sectorSize) (s.playbackTruncate mxPg) ∧
      Did s (s.playbackTruncate mxPg) (truncateOps g mxPg s.disk.db.view.size) := by
  have hoff : s.journalOff = s.geom.sectorSize := by rw [hs.journalOff, hs.geom, Nat.zero_add]
  rw [Pager.playbackTruncate, if_pos hoff]
  constructor
  · obtain ⟨db, nFile, trace, htrunc⟩ := pagerTruncate_eq s mxPg
    rw [htrunc]
    exact ⟨hs.geom, rfl, hs.cksumInit, hs.journalOff, hs.eState, hs.jrnl, hs.hdr⟩
  · rw [Pager.pagerTruncate, if_pos (Or.inr hs.eState), truncateOps, hs.geom]
    dsimp only
    by_cases heq : s.disk.db.view.size = g.pageSize * mxPg
    · have hpos := g.page_ge
      rw [if_pos heq, if_neg (by omega), if_neg (by omega)]
      exact Did.refl s
    rw [if_neg heq]
    split_ifs
    · rfl
    · rfl
    · exact Did.refl s

/-- **The loop from the start.** -/
theorem playbackLoop_start (hs : Reading j g n ck 0 s) (reset : Bool) :
    Ends true j.size reset s (playbackLoop true j.size (j.size + 1) reset s) ∧
      Did s (playbackLoop true j.size (j.size + 1) reset s)
        (playbackOps g j s.disk.db.view.size) := by
  rw [playbackOps]
  rcases hfirst : firstHdr g j with _ | g'
  · obtain ⟨s', hturn, hdid⟩ := playbackTurn_noFirst hs hfirst reset
    rw [playbackLoop_last hturn]
    exact ⟨.last hturn, hdid⟩
  obtain ⟨s₁, hread, hdid₁, hs₁⟩ := readJournalHdr_accepted hs hfirst
  obtain ⟨hs₂, hdid₂⟩ := playbackTruncate_first hs₁ (hdrMxPg j)
  have hdb : s₁.disk.db.view.size = s.disk.db.view.size := by
    rw [Did, List.append_nil] at hdid₁
    rw [hdid₁]
  have hdid := hdid₁.trans hdid₂
  rw [List.nil_append, hdb] at hdid
  obtain ⟨reset', ck', s', hturn, hs', hdid'⟩ :=
    playbackTurn_segment hread hs₁.geom rfl hs₂ hdid reset
  have hspaced := spaced_scanRecords (j := j) (g := g') (n := hdrMxPg j) (get4 j.byte (0 + 12))
    (hdrCount j g' 0) (0 + g'.sectorSize)
  rw [← scanSegment] at hspaced
  have hge := g'.sector_ge
  have hmid := hspaced.le
  rw [journalRecords, hfirst]
  dsimp only
  rcases hover : (scanSegment j g' (hdrMxPg j) 0).1 with _ | _
  · rw [hover] at hturn
    have hpos := size_pos_of_firstHdr hfirst
    obtain ⟨hends, hrest⟩ := playbackLoop_reading hs' (by omega)
      (show j.size - _ < j.size by omega) reset'
    rw [playbackLoop_next hturn, if_neg Bool.false_ne_true, List.map_append, ← List.append_assoc]
    exact ⟨.next hturn hends, hdid'.trans hrest⟩
  · rw [hover] at hturn
    rw [playbackLoop_last hturn, if_pos rfl]
    exact ⟨.last hturn, hdid'⟩

theorem spaced_scanHdrs (fuel off : ℕ) :
    ∃ hi, Spaced j g n off hi (scanHdrs j g n fuel off) := by
  induction fuel generalizing off with
  | zero => exact ⟨off, Spaced.nil (le_refl _)⟩
  | succ fuel ih =>
    rw [scanHdrs]
    split
    · exact ⟨off, Spaced.nil (le_refl _)⟩
    · dsimp only
      have hspaced := (spaced_scanRecords (j := j) (g := g) (n := n)
        (get4 j.byte (g.journalHdrOffset off + 12)) (hdrCount j g (g.journalHdrOffset off))
        (g.journalHdrOffset off + g.sectorSize)).mono
          ((le_journalHdrOffset (g := g) off).trans (Nat.le_add_right _ _)) (le_refl _)
      rw [← scanSegment] at hspaced
      split
      · exact ⟨_, hspaced⟩
      · obtain ⟨hi, hrest⟩ := ih (scanSegment j g n (g.journalHdrOffset off)).2.1
        exact ⟨hi, hspaced.append hrest⟩

/-- The records of a journal stand behind the first header, apart from each other. -/
theorem spaced_journalRecords {g₀ : Geom} (h : firstHdr g₀ j = some g) :
    ∃ hi, Spaced j g (hdrMxPg j) g.sectorSize hi (journalRecords g₀ j) := by
  have hspaced := spaced_scanRecords (j := j) (g := g) (n := hdrMxPg j) (get4 j.byte (0 + 12))
    (hdrCount j g 0) (0 + g.sectorSize)
  rw [← scanSegment, Nat.zero_add] at hspaced
  rw [journalRecords, h]
  dsimp only
  split
  · exact ⟨_, hspaced⟩
  · obtain ⟨hi, hrest⟩ := spaced_scanHdrs (j := j) (g := g) (n := hdrMxPg j) j.size
      (scanSegment j g (hdrMxPg j) 0).2.1
    exact ⟨hi, hspaced.append hrest⟩

end Loop

/-! ### A playback that is repeated -/

section Repeat

variable {g : Geom} {mxPg : ℕ} {recs : List Op} {f f' : File}

/-- Writes of whole pages, of the first `mxPg` ones. -/
def PageWrites (g : Geom) (mxPg : ℕ) (ops : List Op) : Prop :=
  ∀ op ∈ ops, ∃ p xs, op = .write (g.pageOfst p) xs ∧ xs.length = g.pageSize ∧ PgnoOk g mxPg p

theorem pageOfst_add (g : Geom) {p : ℕ} (hp : p ≠ 0) :
    g.pageOfst p + g.pageSize = g.pageSize * p := by
  obtain ⟨q, rfl⟩ := Nat.exists_eq_succ_of_ne_zero hp
  rw [Geom.pageOfst, Nat.succ_sub_one, Nat.succ_eq_add_one, Nat.mul_add, Nat.mul_one, Nat.mul_comm]

theorem PageWrites.isWrite (h : PageWrites g mxPg recs) : ∀ op ∈ recs, op.IsWrite := by
  intro op hop
  obtain ⟨p, xs, rfl, -, -⟩ := h op hop
  exact trivial

/-- A page of zeros at the end of a file that is a page too short. -/
theorem blit_zeros {n i : ℕ} {s : ℕ → UInt8} (f : File) (hgrow : f.size + g.pageSize ≤ n)
    (hi : i < n) (h : s i = f.byte i) :
    blit s (n - g.pageSize) (List.replicate g.pageSize 0) i = f.byte i := by
  by_cases hout : i < n - g.pageSize
  · rw [blit_outside (Or.inl hout), h]
  · obtain ⟨k, rfl⟩ := Nat.exists_eq_add_of_le (not_lt.mp hout)
    rw [blit_inside (by rw [List.length_replicate]; omega), List.getElem_replicate,
      f.tight _ (by omega)]

/-- `pager_truncate` changes no byte before the new end, and there is none after it. -/
theorem truncateOps_byte (g : Geom) (n : ℕ) (f : File) (i : ℕ) :
    (applyAll (truncateOps g n f.size) f).byte i = if i < g.pageSize * n then f.byte i else 0 := by
  rw [truncateOps]
  by_cases hcut : g.pageSize * n < f.size
  · rw [if_pos hcut]
    rfl
  rw [if_neg hcut]
  by_cases hgrow : f.size + g.pageSize ≤ g.pageSize * n
  · rw [if_pos hgrow, applyAll_cons, applyAll_nil, Op.apply, File.write_byte]
    by_cases hi : i < g.pageSize * n
    · rw [if_pos hi]
      exact blit_zeros f hgrow hi rfl
    · rw [if_neg hi, blit_outside (Or.inr (by rw [List.length_replicate]; omega)),
        f.tight _ (by omega)]
  · rw [if_neg hgrow, applyAll_nil]
    by_cases hi : i < g.pageSize * n
    · rw [if_pos hi]
    · rw [if_neg hi, f.tight _ (by omega)]

theorem truncateOps_size (g : Geom) (n : ℕ) (f : File) :
    (applyAll (truncateOps g n f.size) f).size
      = if g.pageSize * n < f.size ∨ f.size + g.pageSize ≤ g.pageSize * n then g.pageSize * n
        else f.size := by
  rw [truncateOps]
  split_ifs with hcut hor hgrow hor
  · rfl
  · exact absurd (Or.inl hcut) hor
  · rw [applyAll_cons, applyAll_nil, Op.apply, File.write_size, List.length_replicate]
    omega
  · omega
  · omega
  · rfl

/-- What an interrupted playback of `f` keeps: bytes that no record restores, and a size from which
the next playback comes to the same end. `reach` is where the records end. -/
structure Halfway (g : Geom) (mxPg : ℕ) (recs : List Op) (reach : ℕ) (f f' : File) : Prop where
  byte : ∀ i < g.pageSize * mxPg, (∀ op ∈ recs, op.Avoids i) → f'.byte i = f.byte i
  cut : g.pageSize * mxPg < f.size → f'.size = f.size ∨ f'.size = g.pageSize * mxPg
  grow : f.size + g.pageSize ≤ g.pageSize * mxPg →
    f'.size = f.size ∨ ∃ q ≤ mxPg, f'.size = g.pageSize * q
  keep : f.size ≤ g.pageSize * mxPg → g.pageSize * mxPg < f.size + g.pageSize →
    f.size ≤ f'.size ∧ f'.size ≤ max f.size reach

theorem Halfway.refl (reach : ℕ) : Halfway g mxPg recs reach f f :=
  ⟨fun _ _ _ => rfl, fun _ => Or.inl rfl, fun _ => Or.inl rfl,
    fun _ _ => ⟨le_refl _, le_max_left _ _⟩⟩

theorem Halfway.record {reach p : ℕ} {xs : List UInt8} (h : Halfway g mxPg recs reach f f')
    (hop : Op.write (g.pageOfst p) xs ∈ recs) (hlen : xs.length = g.pageSize)
    (hp : PgnoOk g mxPg p) (hreach : g.pageSize * p ≤ reach) :
    Halfway g mxPg recs reach f (f'.write (g.pageOfst p) xs) := by
  have hend : g.pageOfst p + xs.length = g.pageSize * p := by rw [hlen, pageOfst_add g hp.1]
  have hle : g.pageSize * p ≤ g.pageSize * mxPg := Nat.mul_le_mul_left _ hp.2.1
  constructor
  case byte =>
    intro i hi havoid
    rw [File.write_byte, blit_outside (havoid _ hop), h.byte i hi havoid]
  case cut =>
    intro hcut
    rw [File.write_size, hend]
    rcases h.cut hcut with hsize | hsize <;> omega
  case grow =>
    intro hgrow
    rw [File.write_size, hend]
    rcases le_total (g.pageSize * p) f'.size with hcase | hcase
    · rw [max_eq_left hcase]
      exact h.grow hgrow
    · rw [max_eq_right hcase]
      exact Or.inr ⟨p, hp.2.1, rfl⟩
  case keep =>
    intro hle hlt
    obtain ⟨h1, h2⟩ := h.keep hle hlt
    rw [File.write_size, hend]
    omega

theorem Halfway.truncate {reach : ℕ} {op : Op} (h : Halfway g mxPg recs reach f f')
    (hop : op ∈ truncateOps g mxPg f.size) : Halfway g mxPg recs reach f (op.apply f') := by
  rw [truncateOps] at hop
  split_ifs at hop with hcut hgrow
  · rw [List.mem_singleton] at hop
    subst hop
    refine ⟨fun i hi havoid => ?_, fun _ => Or.inr rfl, fun _ => by omega, fun _ => by omega⟩
    rw [Op.apply, File.truncate_byte hi, h.byte i hi havoid]
  · rw [List.mem_singleton] at hop
    subst hop
    refine ⟨fun i hi havoid => ?_, fun _ => by omega, fun _ => Or.inr ⟨mxPg, le_refl _, ?_⟩,
      fun _ _ => by omega⟩
    · rw [Op.apply, File.write_byte]
      exact blit_zeros f hgrow hi (h.byte i hi havoid)
    · rw [Op.apply, File.write_size, List.length_replicate]
      rcases h.grow hgrow with hsize | ⟨q, hq, hsize⟩
      · omega
      · have := Nat.mul_le_mul_left g.pageSize hq
        omega
  · exact absurd hop List.not_mem_nil

theorem PageWrites.size_le (h : PageWrites g mxPg recs) :
    (applyAll recs File.empty).size ≤ g.pageSize * mxPg := by
  refine applyAll_size_le (fun op hop => ?_) (Nat.zero_le _)
  obtain ⟨p, xs, rfl, hlen, hp⟩ := h op hop
  refine ⟨_, _, rfl, ?_⟩
  rw [hlen, pageOfst_add g hp.1]
  exact Nat.mul_le_mul_left _ hp.2.1

/-- The next playback brings the file to the same size. -/
theorem Halfway.size_eq {reach : ℕ} (h : Halfway g mxPg recs reach f f')
    (hreach : reach ≤ g.pageSize * mxPg) :
    max (if g.pageSize * mxPg < f'.size ∨ f'.size + g.pageSize ≤ g.pageSize * mxPg
        then g.pageSize * mxPg else f'.size) reach
      = max (if g.pageSize * mxPg < f.size ∨ f.size + g.pageSize ≤ g.pageSize * mxPg
        then g.pageSize * mxPg else f.size) reach := by
  have hpage := g.page_ge
  by_cases hcut : g.pageSize * mxPg < f.size
  · rw [if_pos (Or.inl hcut)]
    rcases h.cut hcut with hsize | hsize
    · rw [hsize, if_pos (Or.inl hcut)]
    · rw [hsize, if_neg (by omega)]
  by_cases hgrow : f.size + g.pageSize ≤ g.pageSize * mxPg
  · rw [if_pos (Or.inr hgrow)]
    rcases h.grow hgrow with hsize | ⟨q, hq, hsize⟩
    · rw [hsize, if_pos (Or.inr hgrow)]
    rcases hq.lt_or_eq with hlt | rfl
    · have hstep : g.pageSize * (q + 1) ≤ g.pageSize * mxPg := Nat.mul_le_mul_left _ hlt
      rw [Nat.mul_add, Nat.mul_one] at hstep
      rw [hsize, if_pos (Or.inr hstep)]
    · rw [hsize, if_neg (by omega)]
  · obtain ⟨h1, h2⟩ := h.keep (by omega) (by omega)
    rw [if_neg (by omega), if_neg (by omega)]
    omega

/-- **An interrupted playback can be repeated.** -/
theorem applyAll_repeat (hrecs : PageWrites g mxPg recs) {ops : List Op}
    (hops : ops <+: truncateOps g mxPg f.size ++ recs)
    (hcrash : Crash (fun _ _ => False) ops f f') :
    applyAll (truncateOps g mxPg f'.size ++ recs) f'
      = applyAll (truncateOps g mxPg f.size ++ recs) f := by
  have hhalf : Halfway g mxPg recs (applyAll recs File.empty).size f f' := by
    refine hcrash.invariant (Q := Halfway g mxPg recs _ f) (fun op hop f₁ h => ?_)
      (fun _ _ _ _ _ hok => absurd hok id) (Halfway.refl _)
    rcases List.mem_append.mp (hops.subset hop) with hop | hop
    · exact h.truncate hop
    · obtain ⟨p, xs, rfl, hlen, hp⟩ := hrecs op hop
      have hreach := write_le_applyAll hrecs.isWrite hop File.empty
      rw [hlen, pageOfst_add g hp.1] at hreach
      exact h.record hop hlen hp hreach
  rw [applyAll_append, applyAll_append]
  refine applyAll_congr hrecs.isWrite (fun i hi => ?_) ?_
  · rw [truncateOps_byte, truncateOps_byte]
    split_ifs with hlt
    · exact hhalf.byte i hlt hi
    · rfl
  · rw [applyAll_size hrecs.isWrite,
      applyAll_size hrecs.isWrite (applyAll (truncateOps g mxPg f.size) f), truncateOps_size,
      truncateOps_size]
    exact hhalf.size_eq hrecs.size_le

end Repeat

/-! ### The playback of a hot journal -/

section Hot

variable (access : List UInt8 → Bool) (mxPathname : ℕ)

/-- There is nothing to play back: the name of the master journal cannot be read, or there is one,
and no such file. -/
def masterGone (j : File) : Bool :=
  match readMasterJournal j (mxPathname + 1) with
  | none => true
  | some zMaster => zMaster != [] && !access zMaster

/-- The pager that calls `pager_playback` for the hot journal `j` of the database `db`. -/
def hotPager (g : Geom) (mxPgno : ℕ) (db j : File) : Pager :=
  ({ sqlite3PagerOpen g mxPgno db (some j) with jfdOpen := true } : Pager).pagerSyncHotJournal

/-- The pager when `pager_playback` is at its label `end_playback`. -/
def hotPass (s : Pager) : Pager :=
  if masterGone access mxPathname s.jrnlView then s
  else playbackLoop true s.jrnlView.size (s.jrnlView.size + 1) true { s with journalOff := 0 }

/-- `pager_playback` comes to `end_playback`, with `s'`. -/
def PlaybackEnds (s s' : Pager) : Prop :=
  if masterGone access mxPathname s.jrnlView then s' = s
  else Ends true s.jrnlView.size true { s with journalOff := 0 } s'

/-- The database file `pager_playback` leaves. -/
def playedBack (g : Geom) (mxPgno : ℕ) (db j : File) : File :=
  ((hotPager g mxPgno db j).pagerPlayback access mxPathname true).disk.db.view

/-- What follows `end_playback` does not change the database. -/
theorem pagerPlayback_hotPass (s : Pager) :
    (s.pagerPlayback access mxPathname true).disk.db.view
      = (hotPass access mxPathname s).disk.db.view := by
  rw [Pager.pagerPlayback, hotPass, masterGone]
  rcases readMasterJournal s.jrnlView (mxPathname + 1) with _ | zMaster
  · rfl
  have hcond : (zMaster != [] && !access zMaster) = true ↔ zMaster ≠ [] ∧ access zMaster = false := by
    rw [Bool.and_eq_true, bne_iff_ne, Bool.not_eq_true']
  have hsync : ∀ s : Pager, (if 4 ≤ s.eState.val ∨ s.eState = .openS then s.sqlite3PagerSync
      else s).disk.db.view = s.disk.db.view := by
    intro s
    split
    · exact DiskFile.view_sync _
    · rfl
  dsimp only
  rw [pagerEndTransaction_view]
  by_cases hskip : zMaster ≠ [] ∧ access zMaster = false
  · rw [if_pos hskip, if_pos (hcond.mpr hskip)]
    exact hsync { s with changeCountDone := false }
  · rw [if_neg hskip, if_neg (hcond.not.mpr hskip)]
    exact hsync { playbackLoop _ _ _ _ _ with changeCountDone := false }

theorem hotPager_reading (g : Geom) (mxPgno : ℕ) (db j : File) :
    Reading j g 0 0 0 { hotPager g mxPgno db j with journalOff := 0 } :=
  ⟨rfl, rfl, rfl, rfl, rfl, rfl, rfl⟩

/-- **The playback ends**, whatever the files hold. -/
theorem playback_ends (g : Geom) (mxPgno : ℕ) (db j : File) :
    PlaybackEnds access mxPathname (hotPager g mxPgno db j)
      (hotPass access mxPathname (hotPager g mxPgno db j)) := by
  rw [PlaybackEnds, hotPass]
  split
  · rfl
  · exact (playbackLoop_start (hotPager_reading g mxPgno db j) true).1

/-- **The operations of a playback.** -/
theorem hotPass_db (g : Geom) (mxPgno : ℕ) (db j : File) :
    (hotPass access mxPathname (hotPager g mxPgno db j)).disk.db
      = ⟨db, if masterGone access mxPathname j then [] else playbackOps g j db.size⟩ := by
  rw [hotPass]
  have hj : (hotPager g mxPgno db j).jrnlView = j := rfl
  rw [hj]
  split
  · rfl
  · exact (playbackLoop_start (hotPager_reading g mxPgno db j) true).2

theorem playedBack_eq (g : Geom) (mxPgno : ℕ) (db j : File) :
    playedBack access mxPathname g mxPgno db j
      = applyAll (if masterGone access mxPathname j then [] else playbackOps g j db.size) db := by
  rw [playedBack, pagerPlayback_hotPass, hotPass_db]
  rfl

end Hot

/-! ### What it may write -/

/-- Two records of the page are restored. -/
def Repeats (g : Geom) (j : File) (p : ℕ) : Prop :=
  ∃ a ∈ journalRecords g j, ∃ b ∈ journalRecords g j, a < b ∧ recPgno j a = p ∧ recPgno j b = p

/-- The writes among `ops` are of whole pages, of the first `mxPg` ones but never the one with the
locking bytes. A page is written twice with different contents only if the journal repeats it. -/
structure Confined (g : Geom) (mxPg : ℕ) (repeats : ℕ → Prop) (ops : List Op) : Prop where
  pages : ∀ off xs, Op.write off xs ∈ ops →
    xs.length = g.pageSize ∧ ∃ p, PgnoOk g mxPg p ∧ off = g.pageOfst p
  once : ops.Pairwise fun op op' => ∀ p ≠ 0, ∀ xs ys, op = .write (g.pageOfst p) xs →
    op' = .write (g.pageOfst p) ys → xs ≠ ys → repeats p

/-- The playback of `j` on `db` ends, its operations are as `confined` says for the sizes in the
first header, and if any of them are lost the whole playback can be repeated. -/
structure Recovers (confined : Geom → List Op → Prop) (access : List UInt8 → Bool)
    (mxPathname : ℕ) (g : Geom) (mxPgno : ℕ) (db j : File) : Prop where
  ends : PlaybackEnds access mxPathname (hotPager g mxPgno db j)
    (hotPass access mxPathname (hotPager g mxPgno db j))
  none : firstHdr g j = none →
    (hotPass access mxPathname (hotPager g mxPgno db j)).disk.db.pending = []
  confined : ∀ g', firstHdr g j = some g' →
    confined g' (hotPass access mxPathname (hotPager g mxPgno db j)).disk.db.pending
  again : ∀ ops, ops <+: (hotPass access mxPathname (hotPager g mxPgno db j)).disk.db.pending →
    ∀ db', Crash (fun _ _ => False) ops db db' →
      playedBack access mxPathname g mxPgno db' j = playedBack access mxPathname g mxPgno db j

/-- A file that is too short is extended first, by a page of zeros. -/
def ConfinedAfterExtension (g : Geom) (mxPg size : ℕ) (repeats : ℕ → Prop) (ops : List Op) : Prop :=
  ∃ ext recs, ops = ext ++ recs ∧ Confined g mxPg repeats recs ∧
    ∀ off xs, Op.write off xs ∈ ext → ext = [.write off xs] ∧ off = g.pageOfst mxPg ∧
      xs = List.replicate g.pageSize 0 ∧ size + g.pageSize ≤ g.pageSize * mxPg

section Main

variable {j : File} {g g' : Geom}

theorem journalRecords_pageWrites (h : firstHdr g j = some g') :
    PageWrites g' (hdrMxPg j) ((journalRecords g j).map (recWrite g' j)) := by
  obtain ⟨hi, hspaced⟩ := spaced_journalRecords h
  intro op hop
  obtain ⟨off, hoff, rfl⟩ := List.mem_map.mp hop
  exact ⟨_, _, rfl, length_slice _ _ _, (hspaced.mem off hoff).2.2.pgno⟩

theorem pageOfst_inj {p q : ℕ} (hp : p ≠ 0) (hq : q ≠ 0) (h : g.pageOfst p = g.pageOfst q) :
    p = q := by
  have hpos := g.page_ge
  have := Nat.eq_of_mul_eq_mul_right (show 0 < g.pageSize by omega) h
  omega

theorem confined_journalRecords (h : firstHdr g j = some g') :
    Confined g' (hdrMxPg j) (Repeats g j) ((journalRecords g j).map (recWrite g' j)) := by
  have hwrites := journalRecords_pageWrites h
  obtain ⟨hi, hspaced⟩ := spaced_journalRecords h
  constructor
  case pages =>
    intro off xs hop
    obtain ⟨p, ys, heq, hlen, hp⟩ := hwrites _ hop
    obtain ⟨rfl, rfl⟩ := Op.write.inj heq
    exact ⟨hlen, p, hp, rfl⟩
  case once =>
    rw [List.pairwise_map]
    refine List.Pairwise.imp_of_mem (fun {a b} ha hb hab => ?_) hspaced.apart
    intro p hp xs ys hx hy _
    have hpage := g'.page_ge
    rw [Geom.jrnlPgSz] at hab
    refine ⟨a, ha, b, hb, by omega, ?_, ?_⟩
    · exact pageOfst_inj (hspaced.mem a ha).2.2.pgno.1 hp (Op.write.inj hx).1
    · exact pageOfst_inj (hspaced.mem b hb).2.2.pgno.1 hp (Op.write.inj hy).1

theorem write_mem_truncateOps {mxPg size off : ℕ} {xs : List UInt8}
    (h : Op.write off xs ∈ truncateOps g mxPg size) :
    truncateOps g mxPg size = [.write off xs] ∧ off = g.pageOfst mxPg ∧
      xs = List.replicate g.pageSize 0 ∧ size + g.pageSize ≤ g.pageSize * mxPg := by
  rw [truncateOps] at h ⊢
  split_ifs at h ⊢ with hcut hgrow
  · exact absurd (List.mem_singleton.mp h) (by simp)
  · obtain ⟨rfl, rfl⟩ := Op.write.inj (List.mem_singleton.mp h)
    refine ⟨rfl, ?_, rfl, hgrow⟩
    rw [Geom.pageOfst, Nat.sub_mul, Nat.one_mul, Nat.mul_comm]
  · exact absurd h List.not_mem_nil

/-- **Playing back a hot journal.** Whatever the two files hold, the playback ends. It writes the
pages of its records, after it may have extended the file by a page of zeros, and it can be
repeated after any of its operations was lost. -/
theorem hotPlayback_spec (access : List UInt8 → Bool) (mxPathname : ℕ) (g : Geom) (mxPgno : ℕ)
    (db j : File) :
    Recovers (fun g' => ConfinedAfterExtension g' (hdrMxPg j) db.size (Repeats g j))
      access mxPathname g mxPgno db j := by
  constructor
  case ends => exact playback_ends access mxPathname g mxPgno db j
  case none =>
    intro hnone
    rw [hotPass_db, playbackOps, hnone]
    split <;> rfl
  case confined =>
    intro g' hfirst
    rw [hotPass_db, playbackOps, hfirst]
    split
    · exact ⟨[], [], rfl, ⟨fun _ _ h => absurd h List.not_mem_nil, List.Pairwise.nil⟩,
        fun _ _ h => absurd h List.not_mem_nil⟩
    · exact ⟨_, _, rfl, confined_journalRecords hfirst, fun _ _ => write_mem_truncateOps⟩
  case again =>
    intro ops hops db' hcrash
    rw [hotPass_db] at hops
    rw [playedBack_eq, playedBack_eq]
    cases hgone : masterGone access mxPathname j with
    | true =>
      rw [hgone, if_pos rfl] at hops
      rw [List.prefix_nil.mp hops] at hcrash
      rw [if_pos rfl, if_pos rfl, hcrash.eq_of_nil]
    | false =>
      rw [hgone, if_neg Bool.false_ne_true] at hops
      rw [if_neg Bool.false_ne_true, if_neg Bool.false_ne_true]
      rw [playbackOps] at hops ⊢
      rw [playbackOps]
      cases hfirst : firstHdr g j with
      | none =>
        rw [hfirst] at hops
        rw [List.prefix_nil.mp hops] at hcrash
        rw [hcrash.eq_of_nil]
      | some g' =>
        rw [hfirst] at hops
        exact applyAll_repeat (journalRecords_pageWrites hfirst) hops hcrash

end Main

/-! ### A file that is too short -/

/-- Pages and sectors of 512 bytes. -/
def tinyGeom : Geom := Geom.ofValid (show Geom.Valid 512 512 by decide)

/-- The journal of a database of two pages, with one record: page 2, which starts with a one. -/
def pageTwoJrnl : File :=
  ((File.empty.write 0 (aJournalMagic ++ bytes4 1 ++ bytes4 0 ++ bytes4 2 ++ bytes4 512
    ++ bytes4 512)).write 512 (bytes4 2 ++ [1])).write 1028 [0, 0, 0, 0]

/-- A database of one page. -/
def onePageDb : File := File.empty.truncate 512

theorem firstHdr_pageTwoJrnl : firstHdr tinyGeom pageTwoJrnl = some tinyGeom := by
  have hvalid : Geom.Valid (hdrPageSize tinyGeom pageTwoJrnl) (get4 pageTwoJrnl.byte 20) := by
    decide +kernel
  rw [firstHdr, if_neg (by decide +kernel), dif_pos hvalid]
  exact congrArg some (Geom.ext (show hdrPageSize tinyGeom pageTwoJrnl = 512 by decide +kernel)
    (show get4 pageTwoJrnl.byte 20 = 512 by decide +kernel))

theorem journalRecords_pageTwoJrnl : journalRecords tinyGeom pageTwoJrnl = [512] := by
  decide +kernel

/-- Page 2 is written with zeros, and then with the contents of its only record. -/
theorem not_claimedPlayback_shortFile :
    ¬ Recovers (fun g' => Confined g' (hdrMxPg pageTwoJrnl) (Repeats tinyGeom pageTwoJrnl))
        (fun _ => false) 512 tinyGeom 1000 onePageDb pageTwoJrnl := by
  intro h
  have hconf := (h.confined tinyGeom firstHdr_pageTwoJrnl).once
  rw [hotPass_db, playbackOps, firstHdr_pageTwoJrnl, if_neg (by decide +kernel)] at hconf
  dsimp only at hconf
  rw [journalRecords_pageTwoJrnl] at hconf
  have hmx : hdrMxPg pageTwoJrnl = 2 := by decide +kernel
  have hpgno : recPgno pageTwoJrnl 512 = 2 := by decide +kernel
  have hops : truncateOps tinyGeom 2 onePageDb.size
      = [.write (tinyGeom.pageOfst 2) (List.replicate 512 0)] := rfl
  have hrec : recWrite tinyGeom pageTwoJrnl 512
      = .write (tinyGeom.pageOfst 2) (slice pageTwoJrnl.byte 516 512) := by
    rw [recWrite, hpgno]
    rfl
  have hne : List.replicate 512 0 ≠ slice pageTwoJrnl.byte 516 512 := fun heq =>
    absurd (congrArg (fun xs => xs[0]?) heq) (by decide +kernel)
  rw [hmx, hops, List.map_singleton, hrec, List.singleton_append, List.pairwise_pair] at hconf
  obtain ⟨a, ha, b, hb, hab, -⟩ := hconf 2 (by decide) _ _ rfl rfl hne
  rw [journalRecords_pageTwoJrnl, List.mem_singleton] at ha hb
  omega

end Pager

end SqliteVms

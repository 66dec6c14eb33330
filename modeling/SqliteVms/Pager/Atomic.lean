import SqliteVms.Pager.Transaction
import SqliteVms.Lib.Run

/-!
# Atomic commit

A transaction reads, writes and appends pages in any order, while the cache spills dirty pages and
drops clean ones; right before the commit it may truncate the image; then it commits in two phases.
The image is what the transaction is meant to make: a size, and the contents of every page.

A crash before the journal is deleted leaves the original, and a crash after it leaves the image,
whatever becomes of the unsynced writes. Two limits remain. A torn write must not leave the magic
number at the start of a sector of the journal, see `TornOk`; and a file that is longer than a
truncated image is cut only after the journal is deleted, so that a crash may leave its old end.

## Main definitions

* `Image`, `Shows` — the image, and that a pager has it
* `Act`, `TxOp`, `Transaction` — what a transaction does
* `Committed` — a file that has the pages of an image

## Main results

* `act_tx`, `txOp_tx` — the steps keep the invariant
* `transaction_atomic` — atomicity over every run and every crash
-/

namespace SqliteVms

open BigEndian Store Disk

namespace Pager

/-! ### Images -/

/-- What the pages of a database are: `size` is their number, `top` the largest it has been, and
`written` whether a page was written. -/
structure Image where
  size : ℕ
  top : ℕ
  written : Bool
  mxPgno : ℕ
  page : ℕ → ℕ → UInt8

namespace Image

/-- The pages of a file. -/
def ofFile (g : Geom) (mxPgno n : ℕ) (f : File) : Image :=
  ⟨n, n, false, mxPgno, fun p i => f.byte (g.pageOfst p + i)⟩

/-- The page numbers that may be used. -/
def accepts (g : Geom) (img : Image) (p : ℕ) : Bool :=
  0 < p ∧ p ≤ 2147483647 ∧ p ≠ g.mjPgno ∧ (img.size < p → p ≤ img.mxPgno)

/-- A page is written. -/
def write (img : Image) (p : ℕ) (data : ℕ → UInt8) : Image :=
  { img with
    size := max img.size p
    top := max img.top p
    written := true
    page := Function.update img.page p data }

/-- The pages after `m` are cut off. -/
def truncateTo (img : Image) (m : ℕ) : Image :=
  if img.written ∧ m ≤ img.size then { img with size := m } else img

end Image

/-- The bytes of page 1 that count the changes. -/
def CounterByte (p i : ℕ) : Prop := p = 1 ∧ (24 ≤ i ∧ i < 28 ∨ 92 ≤ i ∧ i < 100)

variable (s : Pager)

/-- The contents of a page, in the cache or else in the file. -/
def pageData (p i : ℕ) : UInt8 :=
  match s.cache.page p with
  | some h => h.data i
  | none => s.disk.db.view.byte (s.geom.pageOfst p + i)

/-! ### Runs -/

/-- What happens without a change to the image: a page is read, a clean page leaves the cache, a
dirty page is spilled. -/
inductive Act
  | get (p : ℕ)
  | evict (p : ℕ)
  | spill (p rnd : ℕ)

/-- What happens in a transaction. -/
inductive TxOp
  | act (a : Act)
  | write (p : ℕ) (data : ℕ → UInt8) (rnd : ℕ)

/-- One `Act`. -/
def act : Act → Pager
  | .get p => if s.pgnoOk p then s.sqlite3PagerAcquire p else s
  | .evict p =>
    if (s.cache.page p).any fun h => !h.dirty then { s with cache := s.cache.drop p } else s
  | .spill p rnd => if (s.cache.page p).any PgHdr.dirty then s.pagerStress p rnd else s

/-- The caller changes the contents of a page. -/
def setPage (p : ℕ) (data : ℕ → UInt8) : Pager := s.modify p fun h => { h with data := data }

/-- One `TxOp`. -/
def txOp : TxOp → Pager
  | .act a => s.act a
  | .write p data rnd =>
    if s.pgnoOk p then ((s.sqlite3PagerAcquire p).sqlite3PagerWrite p rnd).setPage p data else s

/-- The image after one `TxOp`. -/
def Image.txOp (g : Geom) (img : Image) : TxOp → Image
  | .act _ => img
  | .write p data _ => if img.accepts g p then img.write p data else img

/-- A transaction: what it does, the size it truncates the image to, if it does, what happens between
that and the commit, and the randomness of the commit. -/
structure Transaction where
  body : List TxOp
  trunc : Option ℕ
  tail : List Act
  rnd : ℕ

/-- The image is truncated. The source asserts that something was written and that the image is not
made longer. -/
def truncateTo (m : ℕ) : Pager :=
  if 3 ≤ s.eState.val ∧ m ≤ s.dbSize then s.sqlite3PagerTruncateImage m else s

namespace Transaction

variable (tx : Transaction)

/-- The pager after the body. -/
def afterBody : Pager := Run.last Pager.txOp s.sqlite3PagerBegin tx.body

/-- The pager after the truncation. -/
def afterTrunc : Pager := tx.trunc.elim (tx.afterBody s) (tx.afterBody s).truncateTo

/-- The pager before the commit. -/
def beforeCommit : Pager := Run.last Pager.act (tx.afterTrunc s) tx.tail

/-- The pager after the first phase of the commit. -/
def afterPhaseOne : Pager := (tx.beforeCommit s).sqlite3PagerCommitPhaseOne tx.rnd

/-- The pager after the commit. -/
def afterCommit : Pager := (tx.afterPhaseOne s).sqlite3PagerCommitPhaseTwo

/-- The image the body makes. -/
def bodyImage (g : Geom) (img : Image) : Image := Run.last (Image.txOp g) img tx.body

/-- The image the transaction makes. -/
def image (g : Geom) (img : Image) : Image :=
  tx.trunc.elim (tx.bodyImage g img) (tx.bodyImage g img).truncateTo

end Transaction

/-! ### The pager has the image -/

/-- The pager has the image, on the pages that matter. -/
structure Shows (g : Geom) (B : ℕ → Prop) (img : Image) (s : Pager) : Prop where
  size : s.dbSize = img.size
  mxPgno : s.mxPgno = img.mxPgno
  file : s.dbFileSize ≤ img.top
  le_top : img.size ≤ img.top
  page : ∀ p ≠ 0, B p → ∀ i < g.pageSize, ¬ CounterByte p i → s.pageData p i = img.page p i

/-- A transaction that has made the image `img`. -/
structure Tx (g : Geom) (nOrig : ℕ) (orig : File) (B : ℕ → Prop) (img : Image) (s : Pager) :
    Prop where
  state : Idle g nOrig orig s ∧ img.written = false ∨
    (∃ segs seg, Live g nOrig orig B segs seg s) ∧ img.written = true
  shows : Shows g B img s

variable {s} {g : Geom} {nOrig : ℕ} {orig : File} {B : ℕ → Prop} {img : Image}
  {segs : List Segment} {seg : Segment}

theorem pageData_some {p : ℕ} {hdr : PgHdr} (hpage : s.cache.page p = some hdr) (i : ℕ) :
    s.pageData p i = hdr.data i := by
  rw [Pager.pageData, hpage]

theorem pageData_none {p : ℕ} (hpage : s.cache.page p = none) (i : ℕ) :
    s.pageData p i = s.disk.db.view.byte (s.geom.pageOfst p + i) := by
  rw [Pager.pageData, hpage]

/-- The contents of a page depend on the cache and the file. -/
theorem pageData_congr {s' : Pager} {p : ℕ} (hcache : s'.cache.page p = s.cache.page p)
    (hdb : s'.disk.db = s.disk.db) (hgeom : s'.geom = s.geom) (i : ℕ) :
    s'.pageData p i = s.pageData p i := by
  rw [Pager.pageData, Pager.pageData, hcache, hdb, hgeom]

theorem pageData_cache {c : PCache} {v : ℕ → UInt8} {p : ℕ} (hcache : c.page p = s.cache.page p)
    (i : ℕ) : ({ s with cache := c, dbFileVers := v } : Pager).pageData p i = s.pageData p i := by
  rw [Pager.pageData, Pager.pageData, hcache]

theorem accepts_eq (h : Shows g B img s) (hgeom : s.geom = g) (p : ℕ) :
    img.accepts g p = s.pgnoOk p := by
  rw [Image.accepts, Pager.pgnoOk, h.size, h.mxPgno, hgeom]

/-- A page that comes into the cache has the contents it had in the file. -/
theorem pageData_acquire {p q : ℕ} (hgeom : s.geom = g)
    (hbeyond : ∀ p, B p → s.dbSize < p → s.disk.db.view.size ≤ g.pageSize * s.dbSize) (hB : B q)
    (i : ℕ) : (s.sqlite3PagerAcquire p).pageData q i = s.pageData q i := by
  rw [Pager.sqlite3PagerAcquire]
  split
  · rfl
  · rename_i hnone
    rcases eq_or_ne q p with rfl | hne
    · rw [pageData_none hnone]
      split
      · rename_i hlt
        rw [pageData_some (Function.update_self _ _ _), hgeom]
        exact (byte_beyond (hbeyond q hB hlt) hlt i).symm
      · rw [pageData_some (Function.update_self _ _ _)]
        rfl
    · split
      · exact pageData_cache (Function.update_of_ne hne _ _) i
      · exact pageData_cache (Function.update_of_ne hne _ _) i

theorem Tx.geom (h : Tx g nOrig orig B img s) : s.geom = g := by
  rcases h.state with ⟨hidle, -⟩ | ⟨⟨_, _, hlive⟩, -⟩
  · exact hidle.geom
  · exact hlive.geom

/-! ### Steps that keep the image -/

/-- `sqlite3PagerAcquire` changes neither the sizes nor the file. -/
theorem acquire_same (s : Pager) (p : ℕ) :
    (s.sqlite3PagerAcquire p).dbSize = s.dbSize ∧ (s.sqlite3PagerAcquire p).mxPgno = s.mxPgno ∧
      (s.sqlite3PagerAcquire p).dbFileSize = s.dbFileSize := by
  rw [Pager.sqlite3PagerAcquire]
  split
  · exact ⟨rfl, rfl, rfl⟩
  · split <;> exact ⟨rfl, rfl, rfl⟩

theorem shows_acquire (h : Shows g B img s) (hgeom : s.geom = g)
    (hbeyond : ∀ p, B p → s.dbSize < p → s.disk.db.view.size ≤ g.pageSize * s.dbSize) (p : ℕ) :
    Shows g B img (s.sqlite3PagerAcquire p) := by
  obtain ⟨hsize, hmx, hfile⟩ := acquire_same s p
  refine ⟨hsize.trans h.size, hmx.trans h.mxPgno, hfile.le.trans h.file, h.le_top,
    fun q h0 hB i hi hc => ?_⟩
  rw [pageData_acquire hgeom hbeyond hB]
  exact h.page q h0 hB i hi hc

/-- The page is in the cache afterwards. -/
theorem acquire_page (s : Pager) (p : ℕ) : ∃ hdr, (s.sqlite3PagerAcquire p).cache.page p = some hdr := by
  rw [Pager.sqlite3PagerAcquire]
  split
  · rename_i hdr hpage
    exact ⟨hdr, hpage⟩
  · split <;> exact ⟨_, Function.update_self _ _ _⟩

theorem Idle.beyond (h : Idle g nOrig orig s) (horig : orig.size = g.pageSize * nOrig) :
    s.disk.db.view.size ≤ g.pageSize * s.dbSize := by
  rw [h.disk, h.size]
  exact horig.le

/-- Reading does not end the idle state. -/
theorem acquire_idle (h : Idle g nOrig orig s) (horig : orig.size = g.pageSize * nOrig) {p : ℕ}
    (h0 : p ≠ 0) (hmj : p ≠ g.mjPgno) : Idle g nOrig orig (s.sqlite3PagerAcquire p) := by
  have hset : ∀ data : ℕ → UInt8, (∀ i < g.pageSize, data i = orig.byte (g.pageOfst p + i)) →
      ∀ q h', (s.cache.set p ⟨data, false, false⟩).page q = some h' → q ≠ 0 ∧ q ≠ g.mjPgno ∧
        h'.dirty = false ∧ ∀ i < g.pageSize, h'.data i = orig.byte (g.pageOfst q + i) := by
    intro data hdata q h' hq
    rcases PCache.set_cases hq with ⟨rfl, rfl⟩ | ⟨-, hq⟩
    · exact ⟨h0, hmj, rfl, hdata⟩
    · exact h.cached q h' hq
  have hview : s.disk.db.view = orig := by
    rw [h.disk]
    rfl
  rw [Pager.sqlite3PagerAcquire]
  split
  · exact h
  · split
    · rename_i hlt
      refine ⟨h.geom, h.mode, h.nosave, h.jfdOpen, h.origSize, h.eState, h.disk, h.size, h.fileSize,
        hset _ fun i _ => ?_, h.trace⟩
      rw [h.size] at hlt
      exact (byte_beyond horig.le hlt i).symm
    · refine ⟨h.geom, h.mode, h.nosave, h.jfdOpen, h.origSize, h.eState, h.disk, h.size, h.fileSize,
        hset _ fun i _ => ?_, h.trace⟩
      rw [Pager.dbPage, hview, h.geom]

/-- A clean page that leaves the cache is as in the file. -/
theorem pageData_drop {p : ℕ} {hdr : PgHdr} (hgeom : s.geom = g) (hpage : s.cache.page p = some hdr)
    {q i : ℕ} (hclean : q = p → hdr.data i = s.disk.db.view.byte (g.pageOfst p + i)) :
    ({ s with cache := s.cache.drop p } : Pager).pageData q i = s.pageData q i := by
  rcases eq_or_ne q p with rfl | hne
  · rw [pageData_some hpage, pageData_none (Function.update_self _ _ _), hclean rfl]
    rw [hgeom]
  · exact pageData_cache (Function.update_of_ne hne _ _) i

/-- The counter bytes are the only ones `pager_write_changecounter` writes. -/
theorem changecounter_data {p i : ℕ} (data : ℕ → UInt8) (hc : ¬ CounterByte p i) (hp : p = 1) :
    s.pagerWriteChangecounter data i = data i := by
  have hout : ¬ (24 ≤ i ∧ i < 28 ∨ 92 ≤ i ∧ i < 100) := fun h => hc ⟨hp, h⟩
  rw [Pager.pagerWriteChangecounter, put4_outside (by omega), put4_outside (by omega), put4_outside (by omega)]

theorem fileData_eq {p i : ℕ} (data : ℕ → UInt8) (hc : ¬ CounterByte p i) :
    s.fileData p data i = data i := by
  rw [Pager.fileData]
  split
  · rename_i hp
    exact changecounter_data data hc hp
  · rfl

/-- Writing a page to the file keeps the image, but for the change counter. -/
theorem pageData_write {p : ℕ} {hdr : PgHdr} (hgeom : s.geom = g) (h0 : p ≠ 0)
    (hpage : s.cache.page p = some hdr) {s' : Pager}
    (hcache : ∃ d n, s'.cache = s.cache.set p ⟨s.fileData p hdr.data, d, n⟩)
    (hdb : s'.disk.db = s.disk.db.write (g.pageOfst p) (g.pageBytes (s.fileData p hdr.data)))
    (hgeom' : s'.geom = g) {q i : ℕ} (hq0 : q ≠ 0) (hi : i < g.pageSize) (hc : ¬ CounterByte q i) :
    s'.pageData q i = s.pageData q i := by
  obtain ⟨d, n, hcache⟩ := hcache
  rcases eq_or_ne q p with rfl | hne
  · have hpage' : s'.cache.page q = some ⟨s.fileData q hdr.data, d, n⟩ := by
      rw [hcache]
      exact Function.update_self _ _ _
    rw [pageData_some hpage', pageData_some hpage]
    exact fileData_eq hdr.data hc
  · have hpage' : s'.cache.page q = s.cache.page q := by
      rw [hcache]
      exact Function.update_of_ne hne _ _
    rw [Pager.pageData, Pager.pageData, hpage', hdb, DiskFile.view_write, hgeom, hgeom',
      write_page_byte h0 hq0 hi, if_neg hne]

/-- Syncing the journal keeps the contents of every page. -/
theorem Synced.pageData {s' : Pager} (h : Synced s s') (p i : ℕ) :
    s'.pageData p i = s.pageData p i := by
  rcases hpage : s.cache.page p with _ | hdr
  · have hpage' : s'.cache.page p = none := by
      rw [h.cache, PCache.clearSyncFlags, PCache.map_page, hpage]
      rfl
    rw [pageData_none hpage', pageData_none hpage, h.db, h.geom]
  · have hpage' : s'.cache.page p = some (if hdr.dirty then { hdr with needSync := false } else hdr) := by
      rw [h.cache, PCache.clearSyncFlags, PCache.map_page, hpage]
      rfl
    rw [pageData_some hpage', pageData_some hpage]
    split <;> rfl

/-- Spilling a page keeps the image. -/
theorem shows_spill (h : Live g nOrig orig B segs seg s) (hs : Shows g B img s) {p : ℕ} {hdr : PgHdr}
    (hpage : s.cache.page p = some hdr) (hd : hdr.dirty = true) :
    Shows g B img ((s.pagerWritePagelist [p]).modify p PCache.makeClean) := by
  have h0 := (h.cached.pgno p hdr hpage).1
  by_cases hle : p ≤ s.dbSize
  · rw [spill_eq hpage hd hle]
    refine ⟨hs.size, hs.mxPgno, ?_, hs.le_top, fun q hq0 hB i hi hc => ?_⟩
    · rw [hs.size] at hle
      exact max_le hs.file (hle.trans hs.le_top)
    · refine Eq.trans ?_ (hs.page q hq0 hB i hi hc)
      rw [h.geom]
      refine pageData_write h.geom h0 hpage ?_ ?_ ?_ hq0 hi hc
      · exact ⟨_, _, rfl⟩
      · rfl
      · exact h.geom
  · have hone : s.pagerWriteOne p = s := by
      rw [Pager.pagerWriteOne, hpage]
      exact if_neg hle
    rw [Pager.pagerWritePagelist, List.foldl_cons, List.foldl_nil, hone, modify_eq hpage,
      PCache.makeClean, if_pos hd]
    refine ⟨hs.size, hs.mxPgno, hs.file, hs.le_top, fun q hq0 hB i hi hc => ?_⟩
    rw [← hs.page q hq0 hB i hi hc]
    rcases eq_or_ne q p with rfl | hne
    · rw [pageData_some (Function.update_self _ _ _), pageData_some hpage]
    · exact pageData_cache (Function.update_of_ne hne _ _) i

theorem Synced.shows {s' : Pager} (h : Synced s s') (hs : Shows g B img s) : Shows g B img s' := by
  refine ⟨h.dbSize.trans hs.size, h.mxPgno.trans hs.mxPgno, h.dbFileSize.le.trans hs.file, hs.le_top,
    fun q hq0 hB i hi hc => ?_⟩
  rw [h.pageData]
  exact hs.page q hq0 hB i hi hc

theorem pgnoOk_iff {p : ℕ} (hgeom : s.geom = g) (h : s.pgnoOk p = true) : p ≠ 0 ∧ p ≠ g.mjPgno := by
  rw [Pager.pgnoOk, decide_eq_true_eq, hgeom] at h
  exact ⟨by omega, h.2.2.1⟩

/-- **Reading, spilling and recycling keep the invariant and the image.** -/
theorem act_tx (hsec : g.sectorSize ≤ g.pageSize) (hn : nOrig ≤ 2147483647)
    (horig : orig.size = g.pageSize * nOrig) (h : Tx g nOrig orig B img s) (a : Act) :
    Tx g nOrig orig B img (s.act a) := by
  cases a with
  | get p =>
    rw [Pager.act]
    split
    · rename_i hok
      obtain ⟨h0, hmj⟩ := pgnoOk_iff h.geom hok
      rcases h.state with ⟨hidle, hw⟩ | ⟨⟨segs, seg, hlive⟩, hw⟩
      · exact ⟨Or.inl ⟨acquire_idle hidle horig h0 hmj, hw⟩,
          shows_acquire h.shows h.geom (fun _ _ _ => hidle.beyond horig) p⟩
      · exact ⟨Or.inr ⟨⟨segs, seg, sqlite3PagerAcquire_live hlive h0 hmj⟩, hw⟩,
          shows_acquire h.shows h.geom hlive.beyond p⟩
    · exact h
  | evict p =>
    rw [Pager.act]
    split
    · rename_i hany
      obtain ⟨hdr, hpage, hd⟩ := Option.any_eq_true _ _ |>.mp hany
      rw [Bool.not_eq_true'] at hd
      have hshows : (B p → ∀ i < g.pageSize, hdr.data i = s.disk.db.view.byte (g.pageOfst p + i)) →
          Shows g B img { s with cache := s.cache.drop p } := by
        intro hclean
        refine ⟨h.shows.size, h.shows.mxPgno, h.shows.file, h.shows.le_top,
          fun q hq0 hB i hi hc => ?_⟩
        rw [pageData_drop h.geom hpage fun hqp => hclean (hqp ▸ hB) i hi]
        exact h.shows.page q hq0 hB i hi hc
      rcases h.state with ⟨hidle, hw⟩ | ⟨⟨segs, seg, hlive⟩, hw⟩
      · refine ⟨Or.inl ⟨⟨hidle.geom, hidle.mode, hidle.nosave, hidle.jfdOpen, hidle.origSize,
          hidle.eState, hidle.disk, hidle.size, hidle.fileSize, fun q h' hq => ?_, hidle.trace⟩, hw⟩,
          hshows fun _ i hi => ?_⟩
        · rw [PCache.drop_page] at hq
          rcases eq_or_ne q p with rfl | hne
          · rw [Function.update_self] at hq
            exact absurd hq (by simp)
          · rw [Function.update_of_ne hne] at hq
            exact hidle.cached q h' hq
        · rw [hidle.disk]
          exact (hidle.cached p hdr hpage).2.2.2 i hi
      · exact ⟨Or.inr ⟨⟨segs, seg, drop_live hlive hpage hd⟩, hw⟩,
          hshows fun hB => hlive.cached.clean p hdr hpage hd hB⟩
    · exact h
  | spill p rnd =>
    rw [Pager.act]
    split
    · rename_i hany
      obtain ⟨hdr, hpage, hd⟩ := Option.any_eq_true _ _ |>.mp hany
      rcases h.state with ⟨hidle, hw⟩ | ⟨⟨segs, seg, hlive⟩, hw⟩
      · exact absurd ((hidle.cached p hdr hpage).2.2.1.symm.trans hd) (by decide)
      · obtain ⟨t, segs', seg', hlive', hne, hfrom, hpage', heq⟩ :=
          pagerStress_eq hlive hsec hn hpage hd rnd
        rw [heq]
        refine ⟨Or.inr ⟨⟨segs', seg', spill_live hlive' hn hne hpage' hd rfl⟩, hw⟩,
          shows_spill hlive' ?_ hpage' hd⟩
        rcases hfrom with rfl | hsynced
        · exact h.shows
        · exact hsynced.shows h.shows
    · exact h

/-! ### Writing a page -/

/-- `sqlite3PagerWrite` is `pager_write` when no two pages share a sector. -/
theorem sqlite3PagerWrite_eq (hsec : s.geom.sectorSize ≤ s.geom.pageSize) (p rnd : ℕ) :
    s.sqlite3PagerWrite p rnd = s.pagerWrite p rnd := by
  have hge := s.geom.page_ge
  have hdiv : s.geom.sectorSize / s.geom.pageSize < 2 := Nat.div_lt_of_lt_mul (by omega)
  rw [Pager.sqlite3PagerWrite, if_neg (by omega)]

/-- Writing a page keeps the invariant, and starts the journal if need be. -/
theorem pagerWrite_tx (hsec : g.sectorSize ≤ g.pageSize) (hn : nOrig ≤ 2147483647)
    (horig : orig.size = g.pageSize * nOrig) (h : Tx g nOrig orig B img s) {p : ℕ} {hdr : PgHdr}
    (hpage : s.cache.page p = some hdr) (hB : B p) (rnd : ℕ) :
    ∃ segs seg, Live g nOrig orig B segs seg (s.pagerWrite p rnd) ∧
      Written s (s.pagerWrite p rnd) p hdr := by
  rcases h.state with ⟨hidle, -⟩ | ⟨⟨segs, seg, hlive⟩, -⟩
  · obtain ⟨hopen, hcache⟩ := pagerOpenJournal_live hidle hsec hn horig rnd
    have hopen := hopen.mono fun p (_ : B p) => trivial
    have hpage' : (s.pagerOpenJournal rnd).cache.page p = some hdr := by rw [hcache, hpage]
    obtain ⟨seg, hlive, hw⟩ := pagerWrite_live hopen hn hpage' hB rnd
    have hlocked : (s.pagerOpenJournal rnd).openJournalIfLocked rnd = s.pagerOpenJournal rnd :=
      if_neg hopen.notLocked
    have hsame : s.pagerWrite p rnd = (s.pagerOpenJournal rnd).pagerWrite p rnd := by
      rw [Pager.pagerWrite, Pager.pagerWrite, hpage, hpage']
      dsimp only
      rw [hlocked, Pager.openJournalIfLocked, if_pos hidle.eState]
    have heq := pagerOpenJournal_eq (by rw [hidle.geom]; exact hsec) hidle.nosave hidle.mode
      hidle.jfdOpen rnd
    rw [hsame]
    refine ⟨[], seg, hlive, ⟨hw.page, fun q hq => ?_, ?_, ?_, ?_, ?_, ?_, ?_, ?_⟩⟩
    · rw [hw.others q hq, hcache]
    · rw [hw.dbSize, heq]
      rfl
    · rw [hw.db, heq]
      rfl
    · rw [hw.dbFileSize, heq]
      rfl
    · rw [hw.dbFileVers, heq]
      rfl
    · rw [hw.changeCountDone, heq]
      rfl
    · rw [hw.mxPgno, heq]
      rfl
    · rw [hw.geom, heq]
      rfl
  · obtain ⟨seg', hlive', hw⟩ := pagerWrite_live hlive hn hpage hB rnd
    exact ⟨segs, seg', hlive', hw⟩

/-- What the caller puts into a page it made writeable is in the image. -/
theorem Written.pageData {s' : Pager} {p : ℕ} {hdr : PgHdr} (h : Written s s' p hdr)
    {data : ℕ → UInt8} {b : Bool} {hdr' : PgHdr} (q i : ℕ) :
    ({ s' with cache := s'.cache.set p { hdr' with data := data }, changeCountDone := b } :
        Pager).pageData q i
      = if q = p then data i else s.pageData q i := by
  rcases eq_or_ne q p with rfl | hne
  · rw [pageData_some (Function.update_self _ _ _), if_pos rfl]
  · rw [if_neg hne]
    refine pageData_congr ?_ ?_ ?_ i
    · exact (Function.update_of_ne hne _ _).trans (h.others q hne)
    · exact h.db
    · exact h.geom

/-- **The operations of a transaction keep the invariant** and make the image. -/
theorem txOp_tx (hsec : g.sectorSize ≤ g.pageSize) (hn : nOrig ≤ 2147483647)
    (horig : orig.size = g.pageSize * nOrig) (h : Tx g nOrig orig (fun _ => True) img s) (op : TxOp) :
    Tx g nOrig orig (fun _ => True) (img.txOp g op) (s.txOp op) := by
  cases op with
  | act a => exact act_tx hsec hn horig h a
  | write p data rnd =>
    rw [Image.txOp, Pager.txOp, accepts_eq h.shows h.geom]
    split
    · rename_i hok
      have hget : Tx g nOrig orig (fun _ => True) img (s.sqlite3PagerAcquire p) := by
        have hact := act_tx hsec hn horig h (.get p)
        rwa [Pager.act, if_pos hok] at hact
      obtain ⟨hdr, hpage⟩ := acquire_page s p
      obtain ⟨segs, seg, hlive, hw⟩ := pagerWrite_tx hsec hn horig hget hpage trivial rnd
      obtain ⟨hdr', hpage', -, hd⟩ := hw.page
      rw [sqlite3PagerWrite_eq (by rw [hget.geom]; exact hsec), Pager.setPage, modify_eq hpage']
      refine ⟨Or.inr ⟨⟨segs, seg, hlive.setData hpage' hd data⟩, rfl⟩, ?_, ?_, ?_, ?_,
        fun q hq0 hB i hi hc => ?_⟩
      · exact hw.dbSize.trans (congrArg (max · p) hget.shows.size)
      · exact hw.mxPgno.trans hget.shows.mxPgno
      · exact (hw.dbFileSize.le.trans hget.shows.file).trans (le_max_left _ _)
      · exact max_le_max_right _ hget.shows.le_top
      · refine (hw.pageData q i).trans ?_
        rw [Image.write]
        dsimp only
        rcases eq_or_ne q p with rfl | hne
        · rw [if_pos rfl, Function.update_self]
        · rw [if_neg hne, Function.update_of_ne hne]
          exact hget.shows.page q hq0 hB i hi hc
    · exact h

/-- Truncating the image, right before the commit. -/
theorem truncateTo_tx (h : Tx g nOrig orig (fun _ => True) img s) (m : ℕ) :
    Tx g nOrig orig (fun p => p ≤ (img.truncateTo m).size) (img.truncateTo m) (s.truncateTo m) := by
  have hmono : Tx g nOrig orig (fun p => p ≤ img.size) img s := by
    refine ⟨?_, h.shows.size, h.shows.mxPgno, h.shows.file, h.shows.le_top,
      fun p h0 _ => h.shows.page p h0 trivial⟩
    rcases h.state with hidle | ⟨⟨segs, seg, hlive⟩, hw⟩
    · exact Or.inl hidle
    · exact Or.inr ⟨⟨segs, seg, hlive.mono fun _ _ => trivial⟩, hw⟩
  rw [Image.truncateTo, Pager.truncateTo, h.shows.size]
  rcases h.state with ⟨hidle, hw⟩ | ⟨⟨segs, seg, hlive⟩, hw⟩
  · have hstate : ¬ 3 ≤ s.eState.val := by
      rw [hidle.eState]
      decide
    rw [if_neg fun hcond => absurd (hw.symm.trans hcond.1) (by decide),
      if_neg fun hcond => hstate hcond.1]
    exact hmono
  · by_cases hm : m ≤ img.size
    · have hstate : 3 ≤ s.eState.val := by
        rw [hlive.eState]
        split <;> decide
      rw [if_pos ⟨hw, hm⟩, if_pos ⟨hstate, hm⟩]
      have hc := hlive.cached
      refine ⟨Or.inr ⟨⟨segs, seg, hlive.geom, hlive.mode, hlive.nosave, hlive.jfdOpen, hlive.origSize,
        hlive.eState, hlive.jrnl, hlive.hdr, hlive.off, hlive.nRec, hlive.cksumInit, hlive.segsOk,
        hlive.inJournal, hlive.db, hlive.fileSize, fun p hp hlt => ?_, ⟨hc.pgno, hc.journaled,
        hc.synced, hc.opened, fun p h' hp hd _ => hc.clean p h' hp hd trivial,
        fun p h' hp hd hpm => hpm⟩, hlive.trace⟩, hw⟩, rfl, h.shows.mxPgno, h.shows.file,
        hm.trans h.shows.le_top, fun p h0 _ => h.shows.page p h0 trivial⟩
      exact absurd hlt (Nat.not_lt.mpr hp)
    · rw [if_neg fun hcond => hm hcond.2, if_neg fun hcond => hm hcond.2]
      exact hmono

/-! ### The first phase of a commit -/

theorem one_ne_mjPgno (g : Geom) : 1 ≠ g.mjPgno := by
  have hle := g.page_le
  have hge := g.page_ge
  have hdiv : 1 ≤ 0x40000000 / g.pageSize := (Nat.le_div_iff_mul_le (by omega)).mpr (by omega)
  rw [Geom.mjPgno]
  omega

/-- Counting a change keeps the invariant and the image. -/
theorem pagerIncrChangecounter_live (hsec : g.sectorSize ≤ g.pageSize) (hn : nOrig ≤ 2147483647)
    (h : Live g nOrig orig B segs seg s) (hs : Shows g B img s) (hB : ∀ p ≤ s.dbSize, B p)
    (rnd : ℕ) :
    ∃ seg', Live g nOrig orig B segs seg' (s.pagerIncrChangecounter rnd) ∧
      Shows g B img (s.pagerIncrChangecounter rnd) := by
  rw [Pager.pagerIncrChangecounter]
  split
  · rename_i hcond
    have hget := sqlite3PagerAcquire_live h one_ne_zero (one_ne_mjPgno g)
    have hshows := shows_acquire hs h.geom h.beyond 1
    obtain ⟨hdr, hpage⟩ := acquire_page s 1
    obtain ⟨seg', hlive, hwr⟩ := pagerWrite_live hget hn hpage (hB 1 (by omega)) rnd
    obtain ⟨hdr', hpage', hdata, hd⟩ := hwr.page
    rw [sqlite3PagerWrite_eq (by rw [hget.geom]; exact hsec), Pager.countChange, modify_eq hpage']
    have hset := hlive.setData hpage' hd
      (((s.sqlite3PagerAcquire 1).pagerWrite 1 rnd).pagerWriteChangecounter hdr'.data) (b := true)
    refine ⟨seg', hset, ?_, ?_, ?_, hs.le_top, fun q hq0 hBq i hi hc => ?_⟩
    · have hsize := hshows.size
      have hpos : 0 < s.dbSize := hcond.2
      rw [(acquire_same s 1).1] at hsize
      refine (hwr.dbSize.trans ?_).trans hsize
      rw [(acquire_same s 1).1]
      omega
    · exact hwr.mxPgno.trans hshows.mxPgno
    · exact hwr.dbFileSize.le.trans hshows.file
    · refine (hwr.pageData q i).trans ?_
      rw [← hshows.page q hq0 hBq i hi hc]
      rcases eq_or_ne q 1 with rfl | hne
      · rw [if_pos rfl, changecounter_data hdr'.data hc rfl, hdata, pageData_some hpage]
      · rw [if_neg hne]
  · exact ⟨seg, h, hs⟩

/-- Some of the dirty pages are written: `rest` are those that are not. -/
structure Flushed (g : Geom) (nOrig : ℕ) (orig : File) (img : Image) (segs : List Segment)
    (rest : List ℕ) (s : Pager) : Prop where
  ready : Ready g nOrig orig segs s
  shows : Shows g (· ≤ img.size) img s
  flushed : ∀ p h, s.cache.page p = some h → p ≤ img.size → p ∉ rest → ∀ i < g.pageSize,
    h.data i = s.disk.db.view.byte (g.pageOfst p + i)
  dirty : ∀ p ∈ rest, ∀ h, s.cache.page p = some h → h.dirty = true

/-- One more page is written. -/
theorem pagerWriteOne_flushed (hn : nOrig ≤ 2147483647) {p : ℕ} {rest : List ℕ}
    (h : Flushed g nOrig orig img segs (p :: rest) s) :
    Flushed g nOrig orig img segs rest (s.pagerWriteOne p) := by
  have hready := pagerWriteOne_ready h.ready hn p (h.dirty p List.mem_cons_self)
  rcases hpage : s.cache.page p with _ | hdr
  · have hsame : s.pagerWriteOne p = s := by
      rw [Pager.pagerWriteOne, hpage]
    rw [hsame]
    refine ⟨h.ready, h.shows, fun q h' hq hle hnot => h.flushed q h' hq hle ?_,
      fun q hq => h.dirty q (List.mem_cons_of_mem _ hq)⟩
    refine fun hmem => hnot ((List.mem_cons.mp hmem).resolve_left ?_)
    rintro rfl
    rw [hpage] at hq
    exact absurd hq (by simp)
  · have h0 := h.ready.pgno p hdr hpage
    by_cases hle : p ≤ s.dbSize
    · have heq := pagerWriteOne_eq hpage hle
      rw [heq, h.ready.geom] at hready ⊢
      refine ⟨hready, ⟨h.shows.size, h.shows.mxPgno, ?_, h.shows.le_top,
        fun q hq0 hB i hi hc => ?_⟩, fun q h' hq hqm hnot i hi => ?_, fun q hq h' hq' => ?_⟩
      · rw [h.shows.size] at hle
        exact max_le h.shows.file (hle.trans h.shows.le_top)
      · refine Eq.trans ?_ (h.shows.page q hq0 hB i hi hc)
        refine pageData_write h.ready.geom h0 hpage ?_ ?_ ?_ hq0 hi hc
        · exact ⟨_, _, rfl⟩
        · rfl
        · exact h.ready.geom
      · rw [Pager.writeDb, Pager.io, DiskFile.view_write]
        rcases PCache.set_cases hq with ⟨rfl, rfl⟩ | ⟨hne, hq⟩
        · rw [write_page_byte h0 h0 hi, if_pos rfl]
        · rw [write_page_byte h0 (h.ready.pgno q h' hq) hi, if_neg hne]
          exact h.flushed q h' hq hqm (fun hmem => (List.mem_cons.mp hmem).elim hne hnot) i hi
      · rcases PCache.set_cases hq' with ⟨rfl, rfl⟩ | ⟨-, hq'⟩
        · exact h.dirty q List.mem_cons_self hdr hpage
        · exact h.dirty q (List.mem_cons_of_mem _ hq) h' hq'
    · have hsame : s.pagerWriteOne p = s := by
        rw [Pager.pagerWriteOne, hpage]
        exact if_neg hle
      rw [hsame]
      refine ⟨h.ready, h.shows, fun q h' hq hqm hnot => h.flushed q h' hq hqm ?_,
        fun q hq => h.dirty q (List.mem_cons_of_mem _ hq)⟩
      refine fun hmem => hnot ((List.mem_cons.mp hmem).resolve_left ?_)
      rintro rfl
      rw [h.shows.size] at hle
      exact hle hqm

theorem pagerWritePagelist_flushed (hn : nOrig ≤ 2147483647) {rest : List ℕ}
    (h : Flushed g nOrig orig img segs rest s) :
    Flushed g nOrig orig img segs [] (s.pagerWritePagelist rest) := by
  induction rest generalizing s with
  | nil => exact h
  | cons p rest ih => exact ih (pagerWriteOne_flushed hn h)

/-- The file has the image, and what is left to do is to make it as long as the image. -/
structure Filled (g : Geom) (nOrig : ℕ) (orig : File) (img : Image) (segs : List Segment)
    (s : Pager) : Prop where
  geom : s.geom = g
  jfdOpen : s.jfdOpen = true
  eState : s.eState = .writerDbmod
  jrnl : ∃ d, s.disk.jrnl = some d ∧ JrnlSafe g nOrig segs d
  ne : segs ≠ []
  segsOk : SegsOk g nOrig orig segs
  db : DbSafe g nOrig orig segs s.disk.db
  size : s.dbSize = img.size
  fileSize : s.disk.db.view.size = g.pageSize * s.dbFileSize
  file : s.dbFileSize ≤ img.top
  page : ∀ p ≠ 0, p ≤ img.size → ∀ i < g.pageSize, ¬ CounterByte p i →
    s.disk.db.view.byte (g.pageOfst p + i) = img.page p i
  trace : ∀ d ∈ s.trace, Safe g nOrig orig d

/-- When no page is left to write, the file has the image. -/
theorem Flushed.filled (h : Flushed g nOrig orig img segs [] s) : Filled g nOrig orig img segs s := by
  refine ⟨h.ready.geom, h.ready.jfdOpen, h.ready.eState, h.ready.jrnl, h.ready.ne, h.ready.segsOk,
    h.ready.db, h.shows.size, h.ready.fileSize, h.shows.file, fun p h0 hle i hi hc => ?_, h.ready.trace⟩
  rw [← h.shows.page p h0 hle i hi hc]
  rcases hpage : s.cache.page p with _ | hdr
  · rw [pageData_none hpage, h.ready.geom]
  · rw [pageData_some hpage]
    exact (h.flushed p hdr hpage hle List.not_mem_nil i hi).symm

/-- The number of pages the file of an image must have: the page with the locking bytes is not
needed at the end. -/
def Image.fileSize (g : Geom) (img : Image) : ℕ := img.size - if img.size = g.mjPgno then 1 else 0

theorem Image.fileSize_le (g : Geom) (img : Image) : img.fileSize g ≤ img.size := Nat.sub_le _ _

theorem Image.le_fileSize (g : Geom) (img : Image) : img.size - 1 ≤ img.fileSize g := by
  rw [Image.fileSize]
  split <;> omega

/-- `pager_truncate` on a file that has the size already. -/
theorem pagerTruncate_same {n : ℕ} (hsize : s.disk.db.view.size = s.geom.pageSize * n) :
    s.pagerTruncate n = s := by
  rw [Pager.pagerTruncate]
  dsimp only
  rw [if_pos hsize, ite_self]

/-- `pager_truncate` on a longer file. -/
theorem pagerTruncate_shrink (hstate : 4 ≤ s.eState.val) {n : ℕ}
    (hsize : s.geom.pageSize * n < s.disk.db.view.size) :
    s.pagerTruncate n
      = { s.io ⟨s.disk.db.truncate (s.geom.pageSize * n), s.disk.jrnl⟩ with dbFileSize := n } := by
  rw [Pager.pagerTruncate, if_pos (Or.inl hstate)]
  dsimp only
  rw [if_neg (by omega), if_pos hsize]

/-- `pager_truncate` on a shorter file. -/
theorem pagerTruncate_grow (hstate : 4 ≤ s.eState.val) {n : ℕ}
    (hsize : s.disk.db.view.size + s.geom.pageSize ≤ s.geom.pageSize * n) :
    s.pagerTruncate n
      = { s.writeDb (s.geom.pageSize * n - s.geom.pageSize)
            (List.replicate s.geom.pageSize 0) with dbFileSize := n } := by
  have hge := s.geom.page_ge
  rw [Pager.pagerTruncate, if_pos (Or.inl hstate)]
  dsimp only
  rw [if_neg (by omega), if_neg (by omega), if_pos hsize]

/-- The file is made as long as the image. -/
theorem growFile_filled (hn : nOrig ≤ 2147483647) (h : Filled g nOrig orig img segs s)
    (htop : img.size ≤ img.top) :
    Filled g nOrig orig img segs s.growFile ∧ img.fileSize g ≤ s.growFile.dbFileSize := by
  have hge := g.page_ge
  have hpos : 0 < g.pageSize := by omega
  have hle := img.le_fileSize g
  have hle' := img.fileSize_le g
  have hsize := h.size
  have hnOrig : nOrig ≤ s.dbFileSize := by
    have hview := (h.db.crash s.disk.db.crash_view).1
    rw [h.fileSize] at hview
    exact Nat.le_of_mul_le_mul_left hview hpos
  have hnew : (s.dbSize - if s.dbSize = s.geom.mjPgno then 1 else 0) = img.fileSize g := by
    rw [h.size, h.geom]
    rfl
  rw [Pager.growFile]
  split
  · rename_i hlt
    rw [hnew]
    rcases Nat.eq_or_lt_of_le (show s.dbFileSize ≤ img.fileSize g by omega) with heq | hlt'
    · rw [pagerTruncate_same (by rw [h.fileSize, h.geom, heq])]
      exact ⟨h, heq.ge⟩
    · obtain ⟨q, hq⟩ := Nat.exists_eq_add_of_lt hlt'
      have hofst : g.pageSize * img.fileSize g - g.pageSize = g.pageOfst (img.fileSize g) := by
        rw [Geom.pageOfst, hq, Nat.add_sub_cancel, Nat.mul_add, Nat.mul_one, Nat.add_sub_cancel,
          Nat.mul_comm]
      have hgrow : s.disk.db.view.size + s.geom.pageSize ≤ s.geom.pageSize * img.fileSize g := by
        rw [h.fileSize, h.geom, ← Nat.mul_succ]
        exact Nat.mul_le_mul_left _ hlt'
      have hzero : List.replicate g.pageSize (0 : UInt8) = g.pageBytes fun _ => 0 := by
        simp [Geom.pageBytes, slice]
      have h0 : img.fileSize g ≠ 0 := by omega
      rw [pagerTruncate_grow (by rw [h.eState]; decide) hgrow, h.geom, hofst, hzero]
      obtain ⟨d, hjrnl, hj⟩ := h.jrnl
      obtain ⟨hdb, htrace⟩ := writeDb_safe h.db hn h.segsOk hjrnl hj h.ne h0 (fun hp => by omega)
        h.trace (length_pageBytes (g := g) fun _ => 0)
      refine ⟨⟨h.geom, h.jfdOpen, h.eState, ⟨d, hjrnl, hj⟩, h.ne, h.segsOk, hdb, h.size, ?_,
        hle'.trans htop, fun p hp0 hpm i hi hc => ?_, htrace⟩, le_rfl⟩
      · dsimp only [Pager.writeDb, Pager.io]
        rw [DiskFile.view_write, write_page_size h0 h.fileSize (length_pageBytes _),
          max_eq_right hlt'.le]
      · rw [← h.page p hp0 hpm i hi hc]
        dsimp only [Pager.writeDb, Pager.io]
        rw [DiskFile.view_write, write_page_byte h0 hp0 hi]
        split
        · rename_i heq
          rw [heq, byte_beyond h.fileSize.le hlt' i]
        · rfl
  · rename_i hnlt
    refine ⟨h, ?_⟩
    omega

/-- The file is synced and has the image; only the journal is left. -/
structure Finished (g : Geom) (nOrig : ℕ) (orig : File) (img : Image) (f : File) (s : Pager) :
    Prop where
  geom : s.geom = g
  jfdOpen : s.jfdOpen = true
  eState : s.eState = .writerFinished
  db : s.disk.db = DiskFile.ofFile f
  size : s.dbSize = img.size
  fileSize : f.size = g.pageSize * s.dbFileSize
  le_file : img.fileSize g ≤ s.dbFileSize
  file_le : s.dbFileSize ≤ img.top
  page : ∀ p ≠ 0, p ≤ img.size → ∀ i < g.pageSize, ¬ CounterByte p i →
    f.byte (g.pageOfst p + i) = img.page p i
  trace : ∀ d ∈ s.trace, Safe g nOrig orig d

/-- **The first phase of a commit** writes the image to the file, with every disk on the way safe. -/
theorem commitPhaseOne_finished (hsec : g.sectorSize ≤ g.pageSize) (hn : nOrig ≤ 2147483647)
    (h : Live g nOrig orig B segs seg s) (hs : Shows g B img s) (hB : ∀ p ≤ img.size, B p) (rnd : ℕ) :
    ∃ f, Finished g nOrig orig img f (s.sqlite3PagerCommitPhaseOne rnd) := by
  have hstate : ¬ s.eState.val < 3 := by
    rw [h.eState]
    split <;> decide
  obtain ⟨seg', hlive, hshows⟩ := pagerIncrChangecounter_live hsec hn h hs
    (fun p hp => hB p (hs.size ▸ hp)) rnd
  obtain ⟨hready, hsynced⟩ := syncJournal_ready hlive hn rnd
  have hshows' := hsynced.shows hshows
  rw [Pager.sqlite3PagerCommitPhaseOne, if_neg hstate]
  generalize (s.pagerIncrChangecounter rnd).syncJournal false rnd = t at hready hsynced hshows' ⊢
  have hstart : Flushed g nOrig orig img (segs ++ [seg']) t.cache.dirtyList t := by
    refine ⟨hready, ⟨hshows'.size, hshows'.mxPgno, hshows'.file, hshows'.le_top,
      fun p h0 hp => hshows'.page p h0 (hB p hp)⟩, fun p hdr hpage hp hnot i hi => ?_,
      fun p hp hdr hpage => ?_⟩
    · have h0 := hready.pgno p hdr hpage
      have hclean : hdr.dirty = false := by
        by_contra hd
        rw [Bool.not_eq_false] at hd
        exact hnot ((PCache.mem_dirtyList h0).mpr ⟨hdr, hpage, hd⟩)
      rw [hsynced.cache] at hpage
      obtain ⟨hdr', hpage', hdata, hd', -⟩ := clearSyncFlags_page hpage
      rw [hdata, hsynced.db]
      exact hlive.cached.clean p hdr' hpage' (hd' ▸ hclean) (hB p hp) i hi
    · obtain ⟨hdr', hpage', hd⟩ := (PCache.mem_dirtyList (hready.pgno p hdr hpage)).mp hp
      rw [hpage] at hpage'
      rw [Option.some.inj hpage']
      exact hd
  have hfilled := (pagerWritePagelist_flushed hn hstart).filled
  have hclean : Filled g nOrig orig img (segs ++ [seg']) t.writeDirtyPages.cleanAll :=
    ⟨hfilled.1, hfilled.2, hfilled.3, hfilled.4, hfilled.5, hfilled.6, hfilled.7, hfilled.8, hfilled.9,
      hfilled.10, hfilled.11, hfilled.12⟩
  obtain ⟨hgrown, hle⟩ := growFile_filled hn hclean hs.le_top
  generalize t.writeDirtyPages.cleanAll.growFile = u at hgrown hle ⊢
  obtain ⟨d, hjrnl, hj⟩ := hgrown.jrnl
  refine ⟨u.disk.db.view, ⟨hgrown.geom, hgrown.jfdOpen, rfl, rfl, hgrown.size, hgrown.fileSize, hle,
    hgrown.file, hgrown.page, fun d' hd' => ?_⟩⟩
  rcases List.mem_append.mp hd' with hd' | hd'
  · exact hgrown.trace d' hd'
  · rw [List.mem_singleton] at hd'
    have hsafe := safe_of_sides hgrown.segsOk hn hgrown.db.sync hj
    rw [← hjrnl] at hsafe
    rw [hd']
    exact hsafe

/-! ### The second phase -/

/-- The file has the pages of the image. It may be longer if the image was truncated, and its change
counter is not that of the image. -/
structure Committed (g : Geom) (img : Image) (f : File) : Prop where
  le_size : g.pageSize * img.fileSize g ≤ f.size
  size_le : f.size ≤ g.pageSize * img.top
  page : ∀ p ≠ 0, p ≤ img.size → ∀ i < g.pageSize, ¬ CounterByte p i →
    f.byte (g.pageOfst p + i) = img.page p i

theorem Finished.committed {f : File} (h : Finished g nOrig orig img f s) : Committed g img f := by
  refine ⟨?_, ?_, h.page⟩
  · rw [h.fileSize]
    exact Nat.mul_le_mul_left _ h.le_file
  · rw [h.fileSize]
    exact Nat.mul_le_mul_left _ h.file_le

/-- Cutting the file to the image keeps its pages. -/
theorem Committed.truncate {f : File} (h : Committed g img f) (htop : img.size ≤ img.top) :
    Committed g img (f.truncate (g.pageSize * img.size)) := by
  refine ⟨Nat.mul_le_mul_left _ (img.fileSize_le g), Nat.mul_le_mul_left _ htop,
    fun p h0 hp i hi hc => ?_⟩
  rw [← h.page p h0 hp i hi hc]
  refine File.truncate_byte ?_
  have hmul : (p - 1 + 1) * g.pageSize ≤ img.size * g.pageSize := Nat.mul_le_mul_right _ (by omega)
  rw [Nat.add_mul, Nat.one_mul] at hmul
  rw [Geom.pageOfst, Nat.mul_comm g.pageSize]
  omega

/-- What the second phase of a commit leaves on the disk: no journal, and the image. -/
theorem commitPhaseTwo_committed {f : File} (h : Finished g nOrig orig img f s)
    (htop : img.size ≤ img.top) :
    ∃ rest, s.sqlite3PagerCommitPhaseTwo.trace = s.trace ++ rest ∧
      ∀ d ∈ s.sqlite3PagerCommitPhaseTwo.disk :: rest, d.jrnl = none ∧
        ∀ db, d.db.Crash AnyTorn db → Committed g img db := by
  have hpos : 0 < g.pageSize := by have := g.page_ge; omega
  have hfin : s.finalizeJournal = { s.io { s.disk with jrnl := none } with jfdOpen := false } := by
    rw [Pager.finalizeJournal, if_pos h.jfdOpen]
  -- the disk without the journal, before the file is cut
  have hwhole : ∀ db, (DiskFile.ofFile f).Crash AnyTorn db → Committed g img db := by
    intro db hcrash
    rw [hcrash.eq_of_nil]
    exact h.committed
  -- the same after the file is cut, which is not synced
  have hcut : ∀ db, ((DiskFile.ofFile f).truncate (g.pageSize * img.size)).Crash AnyTorn db →
      Committed g img db := by
    intro db hcrash
    cases hcrash with
    | lost hcrash => exact hwhole db hcrash
    | done hcrash =>
      rw [hcrash.eq_of_nil]
      exact h.committed.truncate htop
  have hend : s.sqlite3PagerCommitPhaseTwo
      = { s.finalizeJournal.endSavepoints.shrinkFile true with
          changeCountDone := false, eState := .reader } := rfl
  have hdisk : s.finalizeJournal.endSavepoints.disk = ⟨DiskFile.ofFile f, none⟩ := by
    rw [hfin, ← h.db]
    rfl
  have htrace : s.finalizeJournal.endSavepoints.trace = s.trace ++ [⟨DiskFile.ofFile f, none⟩] := by
    rw [hfin, ← h.db]
    rfl
  have hgeom : s.finalizeJournal.endSavepoints.geom = g := by
    rw [hfin, ← h.geom]
    rfl
  have hstate : 4 ≤ s.finalizeJournal.endSavepoints.eState.val := by
    have heq : s.finalizeJournal.endSavepoints.eState = s.eState := by
      rw [hfin]
      rfl
    rw [heq, h.eState]
    decide
  have hsize : s.finalizeJournal.endSavepoints.dbSize = img.size := by
    rw [hfin, ← h.size]
    rfl
  have hfile : s.finalizeJournal.endSavepoints.dbFileSize = s.dbFileSize := by
    rw [hfin]
    rfl
  rw [hend, Pager.shrinkFile]
  generalize s.finalizeJournal.endSavepoints = t at hdisk htrace hgeom hstate hsize hfile ⊢
  by_cases hlt : img.size < s.dbFileSize
  · have hmul : g.pageSize * img.size < g.pageSize * s.dbFileSize := Nat.mul_lt_mul_of_pos_left hlt hpos
    have hshrink := pagerTruncate_shrink hstate (s := t) (n := img.size) (by
      rw [hgeom, hdisk, DiskFile.view_ofFile, h.fileSize]
      exact hmul)
    rw [hdisk, hgeom] at hshrink
    rw [hsize, hfile, if_pos ⟨rfl, hlt⟩, hshrink]
    refine ⟨[⟨DiskFile.ofFile f, none⟩,
      ⟨(DiskFile.ofFile f).truncate (g.pageSize * img.size), none⟩], ?_, fun d hd => ?_⟩
    · dsimp only [Pager.io]
      rw [htrace, List.append_assoc]
      rfl
    · simp only [List.mem_cons, List.not_mem_nil, or_false] at hd
      rcases hd with rfl | rfl | rfl
      · exact ⟨rfl, hcut⟩
      · exact ⟨rfl, hwhole⟩
      · exact ⟨rfl, hcut⟩
  · rw [hsize, hfile, if_neg fun hcond => hlt hcond.2]
    refine ⟨[⟨DiskFile.ofFile f, none⟩], htrace, fun d hd => ?_⟩
    simp only [List.mem_cons, List.not_mem_nil, or_false] at hd
    rcases hd with rfl | rfl
    · rw [hdisk]
      exact ⟨rfl, hwhole⟩
    · exact ⟨rfl, hwhole⟩

/-! ### Whole transactions -/

/-- A pager that holds a read lock on the database `orig` of `n` pages, without a journal and with a
clean cache. -/
structure Start (g : Geom) (n : ℕ) (orig : File) (s : Pager) : Prop where
  geom : s.geom = g
  mode : s.journalMode = .delete
  nosave : s.aSavepoint = []
  jfdOpen : s.jfdOpen = false
  disk : s.disk = ⟨DiskFile.ofFile orig, none⟩
  size : s.dbSize = n
  cached : ∀ p h, s.cache.page p = some h → p ≠ 0 ∧ p ≠ g.mjPgno ∧ h.dirty = false ∧
    ∀ i < g.pageSize, h.data i = orig.byte (g.pageOfst p + i)
  trace : s.trace = []
  origSize : orig.size = g.pageSize * n
  max : n ≤ 2147483647

/-- A pager that was just opened on a file of whole pages. -/
theorem start_sharedLock (g : Geom) (mxPgno : ℕ) {n : ℕ} {orig : File}
    (horig : orig.size = g.pageSize * n) (hn : n ≤ 2147483647) (access : List UInt8 → Bool)
    (mxPathname : ℕ) :
    Start g n orig ((sqlite3PagerOpen g mxPgno orig none).sqlite3PagerSharedLock access mxPathname) := by
  refine ⟨rfl, rfl, rfl, rfl, rfl, ?_, fun p h hp => absurd hp (by simp [Pager.sqlite3PagerSharedLock,
    Pager.hasHotJournal, sqlite3PagerOpen, PCache.empty]), rfl, horig, hn⟩
  have hge := g.page_ge
  have hcount : (g.pageSize * n + g.pageSize - 1) / g.pageSize = n :=
    Nat.div_eq_of_lt_le (by rw [Nat.mul_comm]; omega) (by rw [Nat.add_mul, Nat.mul_comm]; omega)
  rw [← horig] at hcount
  exact hcount

variable {tx : Transaction} {n : ℕ}

theorem begin_tx (h : Start g n orig s) :
    Tx g n orig (fun _ => True) (Image.ofFile g s.mxPgno n orig) s.sqlite3PagerBegin := by
  refine ⟨Or.inl ⟨⟨h.geom, h.mode, h.nosave, h.jfdOpen, h.size, rfl, h.disk, h.size, h.size, h.cached,
    h.trace⟩, rfl⟩, h.size, rfl, h.size.le, le_rfl, fun p h0 _ i hi _ => ?_⟩
  have hview : s.disk.db.view = orig := by
    rw [h.disk]
    rfl
  rcases hpage : s.cache.page p with _ | hdr
  · refine (pageData_none (s := s.sqlite3PagerBegin) hpage i).trans ?_
    exact congrArg₂ (fun (f : File) (g : Geom) => f.byte (g.pageOfst p + i)) hview h.geom
  · refine (pageData_some (s := s.sqlite3PagerBegin) hpage i).trans ?_
    exact (h.cached p hdr hpage).2.2.2 i hi

/-- The body of a transaction keeps the invariant and makes its image. -/
theorem body_tx (hsec : g.sectorSize ≤ g.pageSize) (hn : nOrig ≤ 2147483647)
    (horig : orig.size = g.pageSize * nOrig) (ops : List TxOp)
    (h : Tx g nOrig orig (fun _ => True) img s) :
    Tx g nOrig orig (fun _ => True) (Run.last (Image.txOp g) img ops) (Run.last Pager.txOp s ops) := by
  induction ops generalizing s img with
  | nil => exact h
  | cons op ops ih => exact ih (txOp_tx hsec hn horig h op)

/-- What happens between the truncation and the commit keeps both. -/
theorem tail_tx (hsec : g.sectorSize ≤ g.pageSize) (hn : nOrig ≤ 2147483647)
    (horig : orig.size = g.pageSize * nOrig) (acts : List Act) (h : Tx g nOrig orig B img s) :
    Tx g nOrig orig B img (Run.last Pager.act s acts) := by
  induction acts generalizing s with
  | nil => exact h
  | cons a acts ih => exact ih (act_tx hsec hn horig h a)

/-- Before the commit the pager has the image of the transaction. -/
theorem beforeCommit_tx (hsec : g.sectorSize ≤ g.pageSize) (h : Start g n orig s) (tx : Transaction) :
    ∃ B : ℕ → Prop, (∀ p ≤ (tx.image g (Image.ofFile g s.mxPgno n orig)).size, B p) ∧
      Tx g n orig B (tx.image g (Image.ofFile g s.mxPgno n orig)) (tx.beforeCommit s) := by
  have hbody := body_tx hsec h.max h.origSize tx.body (begin_tx h)
  rw [Transaction.image, Transaction.beforeCommit, Transaction.afterTrunc]
  cases tx.trunc with
  | none => exact ⟨_, fun _ _ => trivial, tail_tx hsec h.max h.origSize tx.tail hbody⟩
  | some m =>
    exact ⟨_, fun _ hp => hp, tail_tx hsec h.max h.origSize tx.tail (truncateTo_tx hbody m)⟩

/-- Committing a transaction that wrote nothing. -/
theorem commit_idle (h : Idle g nOrig orig s) (rnd : ℕ) :
    s.sqlite3PagerCommitPhaseOne rnd = s ∧
      s.sqlite3PagerCommitPhaseTwo.disk = ⟨DiskFile.ofFile orig, none⟩ ∧
      s.sqlite3PagerCommitPhaseTwo.trace = s.trace := by
  have hone : s.sqlite3PagerCommitPhaseOne rnd = s := by
    rw [Pager.sqlite3PagerCommitPhaseOne, if_pos (by rw [h.eState]; decide)]
  have hfin : s.finalizeJournal = s := by
    rw [Pager.finalizeJournal, if_neg (by rw [h.jfdOpen]; decide)]
  have hshrink : s.endSavepoints.shrinkFile true = s.endSavepoints := by
    rw [Pager.shrinkFile, if_neg]
    rintro ⟨-, hlt⟩
    have hlt : s.dbSize < s.dbFileSize := hlt
    rw [h.size, h.fileSize] at hlt
    omega
  refine ⟨hone, ?_, ?_⟩
  · rw [Pager.sqlite3PagerCommitPhaseTwo, Pager.pagerEndTransaction, hfin, hshrink]
    exact h.disk
  · rw [Pager.sqlite3PagerCommitPhaseTwo, Pager.pagerEndTransaction, hfin, hshrink]
    rfl

/-- A transaction that wrote nothing has the original as its image. -/
theorem Idle.committed (h : Idle g nOrig orig s) (hs : Shows g B img s)
    (hB : ∀ p ≤ img.size, B p) (horig : orig.size = g.pageSize * nOrig) : Committed g img orig := by
  have hsize : img.size = nOrig := hs.size.symm.trans h.size
  refine ⟨?_, ?_, fun p h0 hp i hi hc => ?_⟩
  · rw [horig, ← hsize]
    exact Nat.mul_le_mul_left _ (img.fileSize_le g)
  · rw [horig, ← h.fileSize]
    exact Nat.mul_le_mul_left _ hs.file
  · rw [← hs.page p h0 (hB p hp) i hi hc]
    rcases hpage : s.cache.page p with _ | hdr
    · rw [pageData_none hpage, h.disk, h.geom]
      rfl
    · rw [pageData_some hpage, (h.cached p hdr hpage).2.2.2 i hi]

/-- **A transaction is atomic across a crash.** Whenever the crash comes before the journal is
deleted, opening the database again gives the original; afterwards it gives the pages the
transaction committed. -/
theorem transaction_atomic (hsec : g.sectorSize ≤ g.pageSize) (h : Start g n orig s)
    (tx : Transaction) {g₀ : Geom} (hg₀ : g₀.sectorSize = g.sectorSize) (mxPgno mxPathname : ℕ)
    (access : List UInt8 → Bool) :
    (∀ d ∈ s.disk :: (tx.afterPhaseOne s).trace, ∀ db j, CrashOf g d db j →
      (∀ j' ∈ j, readMasterJournal j' (mxPathname + 1) = some []) →
        reopen g₀ mxPgno mxPathname access db j = orig) ∧
    ∃ rest, (tx.afterCommit s).trace = (tx.afterPhaseOne s).trace ++ rest ∧
      ∀ d ∈ (tx.afterCommit s).disk :: rest, d.jrnl = none ∧ ∀ db j, CrashOf g d db j →
        Committed g (tx.image g (Image.ofFile g s.mxPgno n orig))
          (reopen g₀ mxPgno mxPathname access db j) := by
  obtain ⟨B, hB, htx⟩ := beforeCommit_tx hsec h tx
  have hstart : Safe g n orig s.disk := by
    rw [h.disk]
    exact safe_orig
  have hcommitted : ∀ d : Files, (d.jrnl = none ∧ ∀ db, d.db.Crash AnyTorn db →
      Committed g (tx.image g (Image.ofFile g s.mxPgno n orig)) db) → d.jrnl = none ∧
        ∀ db j, CrashOf g d db j → Committed g (tx.image g (Image.ofFile g s.mxPgno n orig))
          (reopen g₀ mxPgno mxPathname access db j) := by
    rintro d ⟨hno, hd⟩
    refine ⟨hno, fun db j hcrash => ?_⟩
    obtain ⟨hdb, hj⟩ := hcrash
    rw [hno] at hj
    cases j with
    | none =>
      rw [reopen_none]
      exact hd db hdb
    | some j => exact hj.elim
  generalize tx.image g (Image.ofFile g s.mxPgno n orig) = img at hB htx hcommitted ⊢
  have hsafe : ∀ d : Files, Safe g n orig d → ∀ db j, CrashOf g d db j →
      (∀ j' ∈ j, readMasterJournal j' (mxPathname + 1) = some []) →
        reopen g₀ mxPgno mxPathname access db j = orig := fun d hd db j hcrash hmaster =>
    hd.recovers h.origSize h.max hcrash hg₀ mxPgno access hmaster
  rw [Transaction.afterCommit, Transaction.afterPhaseOne]
  rcases htx.state with ⟨hidle, -⟩ | ⟨⟨segs, seg, hlive⟩, -⟩
  · -- nothing was written, and the commit does nothing
    obtain ⟨hone, hdisk, htrace⟩ := commit_idle hidle tx.rnd
    rw [hone, hdisk, htrace, hidle.trace]
    refine ⟨fun d hd => hsafe d ?_, [], rfl, fun d hd => hcommitted d ?_⟩
    · rw [List.mem_singleton] at hd
      rw [hd]
      exact hstart
    · rw [List.mem_singleton] at hd
      rw [hd]
      refine ⟨rfl, fun db hcrash => ?_⟩
      rw [hcrash.eq_of_nil]
      exact hidle.committed htx.shows hB h.origSize
  · obtain ⟨f, hfin⟩ := commitPhaseOne_finished hsec h.max hlive htx.shows hB tx.rnd
    obtain ⟨rest, htrace, hrest⟩ := commitPhaseTwo_committed hfin htx.shows.le_top
    refine ⟨fun d hd => hsafe d ?_, rest, htrace, fun d hd => hcommitted d (hrest d hd)⟩
    rcases List.mem_cons.mp hd with rfl | hd
    · exact hstart
    · exact hfin.trace d hd

/-! ### Small databases -/

/-- Pages and sectors of 512 bytes. -/
def smallGeom : Geom :=
  ⟨512, 512, le_512, max_512, pow_512, sector_512, max_512, pow_512⟩

/-- A database of `n` pages of zeros. -/
def zeroDb (n : ℕ) : File := ⟨512 * n, fun _ => 0, fun _ _ => rfl⟩

/-- A pager on it, with a read lock. -/
def smallPager (n : ℕ) : Pager :=
  (sqlite3PagerOpen smallGeom 10 (zeroDb n) none).sqlite3PagerSharedLock (fun _ => false) 100

/-- Page 1 is written and spilled, and a page is added. -/
def smallTx : Transaction :=
  ⟨[.write 1 (fun _ => 1) 7, .act (.spill 1 9), .write 2 (fun _ => 2) 3], none, [.spill 2 4], 5⟩

theorem transaction_atomic_small :
    16 ≤ (smallTx.afterPhaseOne (smallPager 1)).trace.length ∧
    (∀ d ∈ (smallPager 1).disk :: (smallTx.afterPhaseOne (smallPager 1)).trace, ∀ db j,
      CrashOf smallGeom d db j → (∀ j' ∈ j, readMasterJournal j' (100 + 1) = some []) →
        reopen smallGeom 10 100 (fun _ => false) db j = zeroDb 1) ∧
    ∃ rest, (smallTx.afterCommit (smallPager 1)).trace
        = (smallTx.afterPhaseOne (smallPager 1)).trace ++ rest ∧
      ∀ d ∈ (smallTx.afterCommit (smallPager 1)).disk :: rest, d.jrnl = none ∧
        ∀ db j, CrashOf smallGeom d db j →
          Committed smallGeom (smallTx.image smallGeom
            (Image.ofFile smallGeom (smallPager 1).mxPgno 1 (zeroDb 1)))
            (reopen smallGeom 10 100 (fun _ => false) db j) :=
  ⟨by decide +kernel, transaction_atomic (by decide)
    (start_sharedLock smallGeom 10 rfl (by decide) (fun _ => false) 100) smallTx rfl 10 100
    (fun _ => false)⟩

/-- The bytes of a journal with one record for page 1, whose first byte is 5. -/
def forgedRecord : ℕ → UInt8 :=
  blit (fun _ => 0) 0 (hdrFront 1 ++ bytes4 0 ++ bytes4 1 ++ bytes4 512 ++ bytes4 512
    ++ List.replicate 484 0 ++ bytes4 1 ++ [5])

/-- The bytes of a journal that ends in the name of a master journal. -/
def forgedMaster : ℕ → UInt8 :=
  blit (fun _ => 0) (2048 - 17) ([120] ++ bytes4 1 ++ bytes4 120 ++ aJournalMagic)

/-- What the journal of a disk is after a crash that tears all writes. -/
def tornJrnl (forged : ℕ → UInt8) (d : Files) : File :=
  d.jrnl.elim File.empty fun dj => dj.pending.foldl (fun f op => (op.tornBy forged).apply f) dj.synced

theorem crash_tornJrnl (forged : ℕ → UInt8) {d : Files} (h : d.jrnl.isSome = true) :
    ∃ dj ∈ d.jrnl, dj.Crash AnyTorn (tornJrnl forged d) := by
  obtain ⟨dj, hdj⟩ := Option.isSome_iff_exists.mp h
  refine ⟨dj, hdj, ?_⟩
  rw [tornJrnl, hdj]
  exact crash_tornBy (fun _ _ => trivial) forged _ _

/-- Page 1 of two pages is written, and the image is truncated to it. -/
def shrinkTx : Transaction := ⟨[.write 1 (fun _ => 1) 7], some 1, [], 5⟩

/-- Without the two limits a crash is not always recovered from: a torn write may leave a header and
a record that were never written, and a torn write may leave the name of a master journal at the
end; and a file that is longer than the image keeps its old end if the crash comes right after the
journal is deleted. -/
theorem crash_not_atomic :
    (∃ d ∈ (smallTx.afterPhaseOne (smallPager 1)).trace, ∃ db j, d.db.Crash AnyTorn db ∧
      (∃ dj ∈ d.jrnl, dj.Crash AnyTorn j) ∧ readMasterJournal j (100 + 1) = some [] ∧
      (reopen smallGeom 10 100 (fun _ => false) db (some j)).byte 0 ∉
        [(zeroDb 1).byte 0, (smallTx.image smallGeom (Image.ofFile smallGeom 10 1 (zeroDb 1))).page 1 0]) ∧
    (∃ d ∈ (smallTx.afterPhaseOne (smallPager 1)).trace, ∃ db j, d.db.Crash AnyTorn db ∧
      (∃ dj ∈ d.jrnl, dj.Crash AnyTorn j) ∧ slice j.byte 1536 8 ≠ aJournalMagic ∧
      (reopen smallGeom 10 100 (fun _ => false) db (some j)).byte 0 ≠ (zeroDb 1).byte 0) ∧
    ∃ d ∈ (shrinkTx.afterCommit (smallPager 2)).trace, d.jrnl.isNone = true ∧ ∃ db,
      d.db.Crash AnyTorn db ∧
      (reopen smallGeom 10 100 (fun _ => false) db none).byte 0 ≠ (zeroDb 2).byte 0 ∧
      (shrinkTx.image smallGeom (Image.ofFile smallGeom 10 2 (zeroDb 2))).size = 1 ∧
      (reopen smallGeom 10 100 (fun _ => false) db none).size = 512 * 2 := by
  refine ⟨⟨_, List.get_mem _ ⟨4, by decide +kernel⟩, _, tornJrnl forgedRecord _, DiskFile.crash_view _,
      crash_tornJrnl _ (by decide +kernel), by decide +kernel, by decide +kernel⟩,
    ⟨_, List.get_mem _ ⟨9, by decide +kernel⟩, _, tornJrnl forgedMaster _, DiskFile.crash_view _,
      crash_tornJrnl _ (by decide +kernel), by decide +kernel, by decide +kernel⟩,
    ⟨_, List.get_mem _ ⟨10, by decide +kernel⟩, by decide +kernel, _, DiskFile.crash_view _,
      by decide +kernel, by decide +kernel, by decide +kernel⟩⟩

end Pager

end SqliteVms

import SqliteVms.Lib.Run
import SqliteVms.Pager.Book
import SqliteVms.Pager.Transaction

/-!
# Pages that share a sector

A write to a page may damage the others of its sector. `sqlite3PagerWrite` therefore journals all of
them, and sets `PGHDR_NEED_SYNC` on all of them if it is set on one. It goes through the pages up to
the end of the image, which need not be the end of the original database.

While it does so the cache may spill pages: not the page that is written, which is in use, nor one
with `PGHDR_NEED_SYNC`. A run carries along which pages were in the journal when it was last synced,
and which of them were when a page was written to the database file. A page that is acquired without
its contents counts as one of them, as it does for the pager: nobody will want it back.

## Main definitions

* `Tracked` — a pager, the synced part of the journal, and the writes to the database file
* `Tracked.write` — `sqlite3PagerWrite`, with what the cache spills in between
* `sqlite3PagerAcquireNoContent` — a page that is acquired without its contents
* `SectorOp`, `sectorStep` — what is done to a pager
* `BookInv`, `Tracked.Inv` — the invariant
* `Clear` — the condition under which a call covers the whole sector

## Main results

* `sectorPages_bounds` — the range of pages
* `Tracked.Inv.loop` — the first loop of a call
* `Tracked.Inv.write_eq` — a call that spills nothing is `sqlite3PagerWrite` of the pager
* `Tracked.run_sectorTogether` — every run
-/

namespace SqliteVms

namespace Pager

/-! ### Pages without contents -/

/-- `sqlite3PagerAcquire` with the flag `PAGER_ACQUIRE_NOCONTENT`. Until the journal is open there is
no bit vector in which the page could count as journaled. -/
def sqlite3PagerAcquireNoContent (s : Pager) (pgno : ℕ) : Pager :=
  addToSavepointBitvecs
    { s with
      cache := s.cache.set pgno
        { (s.cache.page pgno).getD ⟨fun _ => 0, false, false⟩ with data := fun _ => 0 }
      pInJournal :=
        if pgno ≤ s.dbOrigSize ∧ s.eState ≠ .writerLocked then
          Function.update s.pInJournal pgno true
        else s.pInJournal } pgno

/-- The same for the books. -/
def Book.acquireNoContent (b : Book) (p : ℕ) : Book :=
  { b.acquire p with
    inJournal :=
      if p ≤ b.dbOrigSize ∧ b.eState ≠ .writerLocked then Function.update b.inJournal p true
      else b.inJournal }

theorem sqlite3PagerAcquireNoContent_book (s : Pager) (p : ℕ) :
    (s.sqlite3PagerAcquireNoContent p).book = s.book.acquireNoContent p := by
  rw [sqlite3PagerAcquireNoContent, addToSavepointBitvecs_book]
  refine Book.ext (funext fun q => ?_) rfl rfl rfl rfl rfl rfl
  by_cases hq : q = p
  · cases hpage : s.cache.page p <;>
      simp [Book.acquireNoContent, Book.acquire, book, hq, hpage, PgHdr.flags]
  · simp [Book.acquireNoContent, Book.acquire, book, hq]

/-! ### Sectors -/

/-- The number of pages in a sector. -/
def Geom.perSector (g : Geom) : ℕ := g.sectorSize / g.pageSize

/-- Two pages share a sector. -/
def Geom.SameSector (g : Geom) (p q : ℕ) : Prop := (p - 1) / g.perSector = (q - 1) / g.perSector

/-- A page of the original database, of `n` pages, that has to be in the journal. -/
def Original (g : Geom) (n q : ℕ) : Prop := q ≠ 0 ∧ q ≤ n ∧ q ≠ g.mjPgno

/-- All original pages of the sector of `p` are in `J`. -/
def Covered (g : Geom) (n : ℕ) (J : ℕ → Bool) (p : ℕ) : Prop :=
  ∀ q, Original g n q → g.SameSector p q → J q = true

/-- The first page of a sector. -/
def Geom.pg1 (g : Geom) (p : ℕ) : ℕ := (p - 1) / g.perSector * g.perSector + 1

theorem sameSector_iff {g : Geom} {p q : ℕ} (hn : 0 < g.perSector) (hq : q ≠ 0) :
    g.SameSector p q ↔ g.pg1 p ≤ q ∧ q < g.pg1 p + g.perSector := by
  have hdiv := Nat.div_add_mod' (q - 1) g.perSector
  have hmod := Nat.mod_lt (q - 1) hn
  rw [Geom.SameSector, Geom.pg1]
  constructor
  · intro heq
    rw [heq]
    omega
  · rintro ⟨hlo, hhi⟩
    refine Nat.le_antisymm ((Nat.le_div_iff_mul_le hn).mpr (by omega)) ?_
    refine Nat.lt_succ_iff.mp ((Nat.div_lt_iff_lt_mul hn).mpr ?_)
    rw [Nat.succ_mul]
    omega

section Range

variable {s : Pager} {pgno : ℕ}

theorem sectorPages_eq (s : Pager) (pgno : ℕ) : ∃ nPage, s.sectorPages pgno
    = List.range' (s.geom.pg1 pgno) nPage ∧ s.geom.pg1 pgno + nPage
      = if s.dbSize < pgno then s.geom.pg1 pgno + (pgno - s.geom.pg1 pgno + 1)
        else if s.dbSize < s.geom.pg1 pgno + s.geom.perSector - 1 then
          s.geom.pg1 pgno + (s.dbSize + 1 - s.geom.pg1 pgno)
        else s.geom.pg1 pgno + s.geom.perSector := by
  refine ⟨if s.dbSize < pgno then pgno - s.geom.pg1 pgno + 1
    else if s.dbSize < s.geom.pg1 pgno + s.geom.perSector - 1 then
      s.dbSize + 1 - s.geom.pg1 pgno
    else s.geom.perSector, rfl, ?_⟩
  split_ifs <;> rfl

/-- **The range of pages** is in the sector, in the image as it will be, and has the page in it. No
sum on the way is beyond 32 bits. -/
theorem sectorPages_bounds (hn : 0 < s.geom.perSector) (h0 : pgno ≠ 0) :
    (∀ q ∈ s.sectorPages pgno, q ≠ 0 ∧ q ≤ max s.dbSize pgno ∧ s.geom.SameSector pgno q) ∧
      pgno ∈ s.sectorPages pgno ∧
      (pgno ≤ 2147483647 → s.geom.pg1 pgno + s.geom.perSector - 1 < 2 ^ 32) := by
  obtain ⟨nPage, hpages, hend⟩ := sectorPages_eq s pgno
  have hsame := (sameSector_iff (g := s.geom) (p := pgno) hn h0).mp rfl
  have hone : 1 ≤ s.geom.pg1 pgno := Nat.le_add_left 1 _
  rw [hpages]
  refine ⟨fun q hq => ?_, ?_, fun hle => ?_⟩
  · rw [List.mem_range'_1] at hq
    refine ⟨by omega, by split_ifs at hend <;> omega, (sameSector_iff hn (by omega)).mpr
      ⟨hq.1, by split_ifs at hend <;> omega⟩⟩
  · rw [List.mem_range'_1]
    split_ifs at hend <;> omega
  · have hsector := s.geom.sector_le
    have hper : s.geom.perSector ≤ s.geom.sectorSize := Nat.div_le_self _ _
    omega

end Range

/-! ### The invariant of the books -/

/-- What the books say, the pages in `J` being in the synced part of the journal. The pages of `E`
are under way: some of their sector may not be in the journal yet. -/
structure BookInv (g : Geom) (n : ℕ) (E : ℕ → Prop) (b : Book) (J : ℕ → Bool) : Prop where
  geom : b.geom = g
  orig : b.dbOrigSize = n
  mj : b.flags g.mjPgno = none
  locked : b.eState = .writerLocked →
    (∀ p f, b.flags p = some f → f.dirty = false) ∧ ∀ q, b.inJournal q = false
  live : b.eState = .writerLocked ∨ b.jfdOpen = true
  covered : ∀ p f, b.flags p = some f → f.dirty = true → ¬ E p → Covered g n b.inJournal p
  synced : ∀ p f, b.flags p = some f → f.dirty = true → f.needSync = false → ¬ E p →
    Covered g n J p
  sub : ∀ q, J q = true → b.inJournal q = true
  opened : ∀ q, b.inJournal q = true → J q = false →
    ∃ f, b.flags q = some f ∧ f.dirty = true ∧ f.needSync = true

theorem Covered.mono {g : Geom} {n : ℕ} {J J' : ℕ → Bool} {p : ℕ} (h : Covered g n J p)
    (hsub : ∀ q, J q = true → J' q = true) : Covered g n J' p :=
  fun q hq hs => hsub q (h q hq hs)

theorem Covered.of_sameSector {g : Geom} {n : ℕ} {J : ℕ → Bool} {p q : ℕ} (h : Covered g n J p)
    (hs : g.SameSector p q) : Covered g n J q :=
  fun r hr hqr => h r hr (hs.trans hqr)

namespace BookInv

variable {g : Geom} {n : ℕ} {E : ℕ → Prop} {b : Book} {J : ℕ → Bool} {p : ℕ}

/-- Other pages may be under way, if the ones that no longer are have their sector covered. -/
theorem exchange (h : BookInv g n E b J) {E' : ℕ → Prop}
    (hE : ∀ q f, b.flags q = some f → f.dirty = true → E q → ¬ E' q →
      Covered g n b.inJournal q ∧ (f.needSync = false → Covered g n J q)) :
    BookInv g n E' b J where
  geom := h.geom
  orig := h.orig
  mj := h.mj
  locked := h.locked
  live := h.live
  covered := fun q f hq hd hn => by
    by_cases he : E q
    · exact (hE q f hq hd he hn).1
    · exact h.covered q f hq hd he
  synced := fun q f hq hd hs hn => by
    by_cases he : E q
    · exact (hE q f hq hd he hn).2 hs
    · exact h.synced q f hq hd hs he
  sub := h.sub
  opened := h.opened

/-- The flags may change, if no page becomes dirty and what needs a sync goes on needing one. -/
theorem change (h : BookInv g n E b J) {flags : ℕ → Option Flags}
    (hnone : ∀ q, b.flags q = none → flags q = none)
    (hsame : ∀ q f, flags q = some f → f.dirty = true →
      ∃ f', b.flags q = some f' ∧ f'.dirty = true ∧ (f.needSync = false → f'.needSync = false))
    (hkeep : ∀ q f, b.flags q = some f → f.dirty = true → f.needSync = true →
      ∃ f', flags q = some f' ∧ f'.dirty = true ∧ f'.needSync = true) :
    BookInv g n E { b with flags := flags } J where
  geom := h.geom
  orig := h.orig
  mj := hnone _ h.mj
  locked := fun hl => ⟨fun q f hq => by
    by_contra hd
    rw [Bool.not_eq_false] at hd
    obtain ⟨f', hq', hd', -⟩ := hsame q f hq hd
    rw [(h.locked hl).1 q f' hq'] at hd'
    exact Bool.false_ne_true hd', (h.locked hl).2⟩
  live := h.live
  covered := fun q f hq hd hn => by
    obtain ⟨f', hq', hd', -⟩ := hsame q f hq hd
    exact h.covered q f' hq' hd' hn
  synced := fun q f hq hd hs hn => by
    obtain ⟨f', hq', hd', hs'⟩ := hsame q f hq hd
    exact h.synced q f' hq' hd' (hs' hs) hn
  sub := h.sub
  opened := fun q hin hJ => by
    obtain ⟨f, hq, hd, hs⟩ := h.opened q hin hJ
    exact hkeep q f hq hd hs

/-- A page that comes into the cache is clean. -/
theorem acquire (h : BookInv g n E b J) (hp : p ≠ g.mjPgno) : BookInv g n E (b.acquire p) J := by
  have hold : ∀ q f, (b.acquire p).flags q = some f → f.dirty = true → b.flags q = some f := by
    intro q f hq hd
    rcases Book.acquire_flags_cases b p q hq with hq | ⟨-, -, rfl⟩
    · exact hq
    · exact absurd hd Bool.false_ne_true
  refine ⟨h.geom, h.orig, ?_, fun hl => ⟨fun q f hq => ?_, (h.locked hl).2⟩, h.live,
    fun q f hq hd => h.covered q f (hold q f hq hd) hd,
    fun q f hq hd => h.synced q f (hold q f hq hd) hd, h.sub, fun q hin hJ => ?_⟩
  · rw [Book.acquire_flags, if_neg hp.symm]
    exact h.mj
  · rcases Book.acquire_flags_cases b p q hq with hq | ⟨-, -, rfl⟩
    · exact (h.locked hl).1 q f hq
    · rfl
  · obtain ⟨f, hq, hflags⟩ := h.opened q hin hJ
    exact ⟨f, Book.acquire_keeps b p q hq, hflags⟩

/-- A page without contents counts as journaled and synced from then on. -/
theorem acquireNoContent (h : BookInv g n E b J) (hp : p ≠ g.mjPgno) :
    BookInv g n E (b.acquireNoContent p)
      (if p ≤ b.dbOrigSize ∧ b.eState ≠ .writerLocked then Function.update J p true else J) := by
  have hacq := h.acquire hp
  rw [Book.acquireNoContent]
  by_cases hset : p ≤ b.dbOrigSize ∧ b.eState ≠ .writerLocked
  · rw [if_pos hset, if_pos hset]
    have hmono : ∀ (K : ℕ → Bool) q, K q = true → Function.update K p true q = true := by
      intro K q hq
      rw [Function.update_apply]
      split
      · rfl
      · exact hq
    exact
      { geom := hacq.geom
        orig := hacq.orig
        mj := hacq.mj
        locked := fun hl => absurd hl hset.2
        live := hacq.live
        covered := fun q f hq hd hE => (hacq.covered q f hq hd hE).mono (hmono _)
        synced := fun q f hq hd hs hE => (hacq.synced q f hq hd hs hE).mono (hmono _)
        sub := fun q hq => by
          dsimp only
          rw [Function.update_apply] at hq ⊢
          split at hq
          · rename_i hqp
            rw [if_pos hqp]
          · rename_i hqp
            rw [if_neg hqp]
            exact hacq.sub q hq
        opened := fun q hq hJ => by
          dsimp only at hq
          rw [Function.update_apply] at hq hJ
          split at hJ
          · exact absurd hJ Bool.noConfusion
          · rename_i hqp
            rw [if_neg hqp] at hq
            exact hacq.opened q hq hJ }
  · rw [if_neg hset, if_neg hset]
    exact hacq

/-- What is in the journal when it is opened was in it before: nothing. -/
theorem openJournal (h : BookInv g n E b J) :
    b.openJournal.geom = g ∧ b.openJournal.dbOrigSize = n ∧
      b.openJournal.eState ≠ .writerLocked ∧ b.openJournal.jfdOpen = true ∧
      b.openJournal.flags = b.flags ∧ b.openJournal.inJournal = b.inJournal := by
  rw [Book.openJournal]
  by_cases hl : b.eState = .writerLocked
  · rw [if_pos hl]
    exact ⟨h.geom, h.orig, by simp, rfl, rfl, funext fun q => ((h.locked hl).2 q).symm⟩
  · rw [if_neg hl]
    exact ⟨h.geom, h.orig, hl, h.live.resolve_left hl, rfl, rfl⟩

/-- **A sync**: what is in the journal is synced. -/
theorem sync (h : BookInv g n E b J) (hstate : b.eState ≠ .writerLocked) :
    BookInv g n E b.sync b.inJournal := by
  have hold : ∀ q f, b.sync.flags q = some f → f.dirty = true →
      ∃ f', b.flags q = some f' ∧ f'.dirty = true := by
    intro q f hq hd
    rw [Book.sync_flags] at hq
    cases hb : b.flags q with
    | none =>
      rw [hb] at hq
      exact absurd hq (by simp)
    | some f' =>
      rw [hb, Option.map_some] at hq
      refine ⟨f', rfl, ?_⟩
      have heq := Option.some.inj hq
      split at heq
      · assumption
      · rw [heq]
        exact hd
  refine ⟨h.geom, h.orig, ?_, fun hl => absurd hl (by simp [Book.sync]),
    Or.inr (h.live.resolve_left hstate), fun q f hq hd hn => ?_, fun q f hq hd _ hn => ?_,
    fun q hq => hq, fun q hin hJ => ?_⟩
  · rw [Book.sync_flags, h.mj]
    rfl
  · obtain ⟨f', hq', hd'⟩ := hold q f hq hd
    exact h.covered q f' hq' hd' hn
  · obtain ⟨f', hq', hd'⟩ := hold q f hq hd
    exact h.covered q f' hq' hd' hn
  · rw [show b.sync.inJournal q = b.inJournal q from rfl, hJ] at hin
    exact absurd hin Bool.false_ne_true

theorem dirty_state (h : BookInv g n E b J) {f : Flags} (hp : b.flags p = some f)
    (hd : f.dirty = true) : b.eState ≠ .writerLocked := fun hl => by
  rw [(h.locked hl).1 p f hp] at hd
  exact Bool.false_ne_true hd

/-- The page `p` becomes clean. -/
theorem clean (h : BookInv g n E b J)
    (hp : ∀ f, b.flags p = some f → f.dirty = true → f.needSync = false) :
    BookInv g n E (b.modify p Book.clean) J := by
  refine h.change (fun q hq => ?_) (fun q f hq hd => ?_) fun q f hq hd hs => ?_
  · split
    · rename_i hqp
      rw [← hqp, hq]
      rfl
    · exact hq
  · by_cases hqp : q = p
    · rw [if_pos hqp, Option.map_eq_some_iff] at hq
      obtain ⟨f', -, rfl⟩ := hq
      rw [Book.clean_not_dirty] at hd
      exact absurd hd Bool.false_ne_true
    · rw [if_neg hqp] at hq
      exact ⟨f, hq, hd, id⟩
  · by_cases hqp : q = p
    · rw [hqp] at hq
      rw [hp f hq hd] at hs
      exact absurd hs Bool.false_ne_true
    · exact ⟨f, by rw [if_neg hqp]; exact hq, hd, hs⟩

/-- **A page is spilled.** Its sector is in the synced part of the journal, unless it is under
way. -/
theorem stress (h : BookInv g n E b J) {f : Flags} (hp : b.flags p = some f)
    (hd : f.dirty = true) :
    BookInv g n E (b.stress p) (if b.MustSync f then b.inJournal else J) ∧
      (¬ E p → Covered g n (if b.MustSync f then b.inJournal else J) p) := by
  have hstate := h.dirty_state hp hd
  rw [Book.stress, hp]
  dsimp only
  by_cases hmust : b.MustSync f
  · rw [if_pos hmust, if_pos hmust]
    refine ⟨(h.sync hstate).clean fun f' hp' hd' => ?_, h.covered p f hp hd⟩
    rw [Book.sync_flags, hp, Option.map_some, if_pos hd] at hp'
    rw [← Option.some.inj hp']
  · rw [if_neg hmust, if_neg hmust]
    have hsync : f.needSync = false := by
      rw [Book.MustSync, not_or, Bool.not_eq_true] at hmust
      exact hmust.1
    refine ⟨h.clean fun f' hp' _ => ?_, h.synced p f hp hd hsync⟩
    rw [hp] at hp'
    rw [← Option.some.inj hp', hsync]

/-- What a write to a page does to the books. -/
theorem write_eq (h : BookInv g n E b J) {f : Flags} (hp : b.flags p = some f) :
    ∃ sync record : Bool,
      (b.write p).flags = (fun q => if q = p then some ⟨true, f.needSync || sync⟩ else b.flags q) ∧
      (b.write p).inJournal = (fun q => if record ∧ q = p then true else b.inJournal q) ∧
      (record = true → sync = true) ∧
      (p ≤ n → b.inJournal p = true ∨ record = true) ∧
      (b.write p).geom = g ∧ (b.write p).dbOrigSize = n ∧
      (b.write p).eState ≠ .writerLocked ∧ (b.write p).jfdOpen = true := by
  obtain ⟨hgeom, horig, hstate, hopen, hflags, hin⟩ := h.openJournal
  have hne : ¬ b.flags p = none := by
    rw [hp]
    exact Option.some_ne_none f
  have hdirty : (b.openJournal.modify p fun f => { f with dirty := true }).flags
      = fun q => if q = p then some ⟨true, f.needSync⟩ else b.flags q := by
    funext q
    rw [Book.modify_flags, hflags, hp, Option.map_some]
  have hset : ((b.openJournal.modify p fun f => { f with dirty := true }).setNeedSync p).flags
      = fun q => if q = p then some ⟨true, true⟩ else b.flags q := by
    funext q
    rw [Book.setNeedSync, Book.modify_flags, hdirty]
    dsimp only
    by_cases hq : q = p
    · rw [if_pos hq, if_pos hq, if_pos rfl]
      rfl
    · rw [if_neg hq, if_neg hq, if_neg hq]
  rw [Book.write, if_neg hne]
  generalize hc : b.openJournal.modify p (fun f => { f with dirty := true }) = c at hdirty hset
  have hcgeom : c.geom = g := by rw [← hc]; exact hgeom
  have hcorig : c.dbOrigSize = n := by rw [← hc]; exact horig
  have hcstate : c.eState ≠ .writerLocked := by rw [← hc]; exact hstate
  have hcopen : c.jfdOpen = true := by rw [← hc]; exact hopen
  have hcin : c.inJournal = b.inJournal := by rw [← hc]; exact hin
  dsimp only
  rw [Book.journalOrAppend, hcin, hcorig, hcopen]
  by_cases hjournaled : b.inJournal p = true
  · rw [if_pos hjournaled]
    refine ⟨false, false, ?_, ?_, id, fun _ => Or.inl hjournaled, hcgeom, hcorig, hcstate, hcopen⟩
    · rw [hdirty, Bool.or_false]
    · rw [hcin]
      simp
  · rw [if_neg hjournaled]
    by_cases hle : p ≤ n
    · rw [if_pos ⟨hle, rfl⟩]
      refine ⟨true, true, ?_, ?_, id, fun _ => Or.inr rfl, hcgeom, hcorig, hcstate, hcopen⟩
      · rw [Bool.or_true]
        exact hset
      · funext q
        simp only [Book.record, Book.setNeedSync, Book.modify, hcin, Function.update_apply]
        simp
    · rw [if_neg fun hand => hle hand.1]
      by_cases hmod : c.eState ≠ .writerDbmod
      · rw [if_pos hmod]
        refine ⟨true, false, ?_, ?_, fun _ => rfl, fun hle' => absurd hle' hle, hcgeom, hcorig,
          hcstate, hcopen⟩
        · rw [Bool.or_true]
          exact hset
        · simp only [Book.setNeedSync, Book.modify, hcin]
          simp
      · rw [if_neg hmod]
        refine ⟨false, false, ?_, ?_, id, fun hle' => absurd hle' hle, hcgeom, hcorig, hcstate,
          hcopen⟩
        · rw [hdirty, Bool.or_false]
        · rw [hcin]
          simp

/-- **A write** to a page that is under way, or whose sector is covered. -/
theorem write (h : BookInv g n E b J) {f : Flags} (hp : b.flags p = some f)
    (hE : E p ∨ Covered g n J p) : BookInv g n E (b.write p) J := by
  obtain ⟨sync, record, hflags, hin, hrec, -, hgeom, horig, hstate, hopen⟩ := h.write_eq hp
  have hsub : ∀ q, b.inJournal q = true → (b.write p).inJournal q = true := by
    intro q hq
    rw [hin]
    dsimp only
    rw [hq, ite_self]
  have hpmj : g.mjPgno ≠ p := fun hmj => by
    rw [← hmj, h.mj] at hp
    exact absurd hp (by simp)
  refine ⟨hgeom, horig, ?_, fun hl => absurd hl hstate, Or.inr hopen, fun q f' hq hd hn => ?_,
    fun q f' hq hd hs hn => ?_, fun q hq => hsub q (h.sub q hq), fun q hq hJ => ?_⟩
  · rw [hflags]
    dsimp only
    rw [if_neg hpmj]
    exact h.mj
  · rw [hflags] at hq
    dsimp only at hq
    by_cases hqp : q = p
    · rw [hqp] at hn ⊢
      exact (hE.resolve_left hn).mono fun r hr => hsub r (h.sub r hr)
    · rw [if_neg hqp] at hq
      exact (h.covered q f' hq hd hn).mono hsub
  · rw [hflags] at hq
    dsimp only at hq
    by_cases hqp : q = p
    · rw [hqp] at hn ⊢
      exact hE.resolve_left hn
    · rw [if_neg hqp] at hq
      exact h.synced q f' hq hd hs hn
  · rw [hflags]
    dsimp only
    by_cases hqp : q = p
    · rw [if_pos hqp]
      refine ⟨_, rfl, rfl, ?_⟩
      cases hr : record with
      | true => rw [hrec hr, Bool.or_true]
      | false =>
        rw [hin, hr] at hq
        simp only [Bool.false_eq_true, false_and, if_false] at hq
        obtain ⟨f', hq', -, hs'⟩ := h.opened q hq hJ
        rw [hqp, hp] at hq'
        rw [Option.some.inj hq', hs', Bool.true_or]
    · rw [if_neg hqp]
      rw [hin] at hq
      simp only [hqp, and_false, if_false] at hq
      exact h.opened q hq hJ

end BookInv

/-! ### Runs -/

/-- Whether a page in the cache has `PGHDR_NEED_SYNC`. -/
def needsSync (s : Pager) (p : ℕ) : Bool := (s.cache.page p).any PgHdr.needSync

/-- A pager, the pages that were in its journal when it was last synced or were acquired without
their contents, and each page that was written to the database file, with what these were then. -/
structure Tracked where
  pager : Pager
  synced : ℕ → Bool
  writes : List (ℕ × (ℕ → Bool))

namespace Tracked

/-- The cache spills a dirty page. -/
def spill (p rnd : ℕ) (t : Tracked) : Tracked :=
  match t.pager.cache.page p with
  | none => t
  | some h =>
    if h.dirty then
      let synced := if h.needSync ∨ t.pager.eState = .writerCachemod then t.pager.pInJournal
        else t.synced
      ⟨t.pager.pagerStress p rnd, synced,
        t.writes ++ if p ≤ t.pager.dbSize then [(p, synced)] else []⟩
    else t

/-- While `doNotSyncSpill` is set: not a page that needs a sync, and not the one that is written,
which is in use. -/
def loopSpill (pgno rnd : ℕ) (t : Tracked) (p : ℕ) : Tracked :=
  if p = pgno ∨ t.pager.needsSync p then t else t.spill p rnd

/-- One turn of the first loop of `sqlite3PagerWrite`, with the flag `needSync`. To make room for
the page, the cache may spill the pages `spills pg`. -/
def turn (pgno rnd : ℕ) (spills : ℕ → List ℕ) (r : Tracked × Bool) (pg : ℕ) : Tracked × Bool :=
  if pg = pgno ∨ r.1.pager.pageInJournal pg = false then
    if pg ≠ r.1.pager.geom.mjPgno then
      let t := (spills pg).foldl (loopSpill pgno rnd) r.1
      let s := (t.pager.sqlite3PagerAcquire pg).pagerWrite pg rnd
      ({ t with pager := s }, r.2 || s.needsSync pg)
    else r
  else (r.1, r.2 || r.1.pager.needsSync pg)

/-- The second loop. -/
def propagate (pages : List ℕ) (r : Tracked × Bool) : Tracked :=
  if r.2 then { r.1 with pager := pages.foldl setNeedSync r.1.pager } else r.1

/-- `sqlite3PagerWrite`, where several pages share a sector. -/
def write (pgno rnd : ℕ) (spills : ℕ → List ℕ) (t : Tracked) : Tracked :=
  let pages := t.pager.sectorPages pgno
  propagate pages (pages.foldl (turn pgno rnd spills) (t, false))

/-- The journal is synced and all dirty pages are written, as a commit does. -/
def flush (rnd : ℕ) (t : Tracked) : Tracked :=
  let s := t.pager.syncJournal false rnd
  ⟨s.writeDirtyPages.cleanAll, t.pager.pInJournal,
    t.writes ++ (s.cache.dirtyList.filter (· ≤ s.dbSize)).map (·, t.pager.pInJournal)⟩

/-- The invariant, with the pages of `E` under way. -/
def Inv (g : Geom) (n : ℕ) (E : ℕ → Prop) (t : Tracked) : Prop :=
  BookInv g n E t.pager.book t.synced

/-- No page was written to the database file before its sector was in the synced part of the
journal, but for pages that were acquired without their contents. -/
def Safe (g : Geom) (n : ℕ) (t : Tracked) : Prop := ∀ w ∈ t.writes, Covered g n w.2 w.1

/-- What the first loop has done with `pages`. -/
structure Went (g : Geom) (n : ℕ) (pages : List ℕ) (r r' : Tracked × Bool) : Prop where
  inJournal : ∀ q, r.1.pager.pInJournal q = true → r'.1.pager.pInJournal q = true
  synced : ∀ q, r.1.synced q = true → r'.1.synced q = true
  sync : r.2 = true → r'.2 = true
  orig : ∀ q ∈ pages, Original g n q →
    r'.1.pager.pInJournal q = true ∧ (r'.2 = true ∨ r'.1.synced q = true)
  seen : ∀ q ∈ pages, r'.1.pager.needsSync q = true → r'.2 = true
  frame : ∀ q ∉ pages, r'.1.pager.needsSync q = true → r.1.pager.needsSync q = true
  absent : ∀ q ∉ pages, r.1.pager.cache.page q = none → r'.1.pager.cache.page q = none

section Loop

variable {g : Geom} {n : ℕ} {E : ℕ → Prop} {t : Tracked} {r r' r'' : Tracked × Bool}
  {pages pages' : List ℕ}

theorem Went.refl (r : Tracked × Bool) : Went g n [] r r where
  inJournal := fun _ h => h
  synced := fun _ h => h
  sync := fun h => h
  orig := fun _ hq => absurd hq List.not_mem_nil
  seen := fun _ hq => absurd hq List.not_mem_nil
  frame := fun _ _ h => h
  absent := fun _ _ h => h

theorem Went.trans (h : Went g n pages r r') (h' : Went g n pages' r' r'') :
    Went g n (pages ++ pages') r r'' where
  inJournal := fun q hq => h'.inJournal q (h.inJournal q hq)
  synced := fun q hq => h'.synced q (h.synced q hq)
  sync := fun hs => h'.sync (h.sync hs)
  orig := fun q hq ho => by
    rcases List.mem_append.mp hq with hq | hq
    · obtain ⟨hin, hsync⟩ := h.orig q hq ho
      exact ⟨h'.inJournal q hin, hsync.imp h'.sync (h'.synced q)⟩
    · exact h'.orig q hq ho
  seen := fun q hq hs => by
    by_cases hq' : q ∈ pages'
    · exact h'.seen q hq' hs
    · exact h'.sync (h.seen q ((List.mem_append.mp hq).resolve_right hq') (h'.frame q hq' hs))
  frame := fun q hq hs => by
    rw [List.mem_append, not_or] at hq
    exact h.frame q hq.1 (h'.frame q hq.2 hs)
  absent := fun q hq hp => by
    rw [List.mem_append, not_or] at hq
    exact h'.absent q hq.2 (h.absent q hq.1 hp)

theorem needsSync_eq (s : Pager) (p : ℕ) : s.needsSync p = (s.book.flags p).any Flags.needSync := by
  rw [needsSync, book_flags]
  cases s.cache.page p <;> rfl

theorem page_eq_none_iff (s : Pager) (p : ℕ) : s.cache.page p = none ↔ s.book.flags p = none := by
  rw [book_flags, Option.map_eq_none_iff]

/-- **A page is spilled.** -/
theorem Inv.spill (h : Inv g n E t) (p rnd : ℕ) (c : Bool) :
    Inv g n E (t.spill p rnd) ∧ Went g n [] (t, c) (t.spill p rnd, c) ∧
      (¬ E p → Safe g n t → Safe g n (t.spill p rnd)) := by
  rw [Tracked.spill]
  cases hp : t.pager.cache.page p with
  | none => exact ⟨h, Went.refl _, fun _ => id⟩
  | some hdr =>
    dsimp only
    by_cases hd : hdr.dirty = true
    · rw [if_pos hd]
      have hflags : t.pager.book.flags p = some hdr.flags := by
        rw [book_flags, hp]
        rfl
      obtain ⟨hbook, hcov⟩ := BookInv.stress h hflags hd
      rw [← pagerStress_book t.pager p rnd] at hbook
      have hin : (t.pager.pagerStress p rnd).pInJournal = t.pager.pInJournal :=
        (congrArg Book.inJournal (pagerStress_book t.pager p rnd)).trans (Book.stress_inJournal _ _)
      refine ⟨hbook, ⟨fun q hq => ?_, fun q hq => ?_, id,
        fun _ hq => absurd hq List.not_mem_nil, fun _ hq => absurd hq List.not_mem_nil,
        fun q _ hq => ?_, fun q _ hq => ?_⟩, fun hE hsafe w hw => ?_⟩
      · exact (congrFun hin q).trans hq
      · dsimp only
        split
        · exact h.sub q hq
        · exact hq
      · rw [needsSync_eq, pagerStress_book] at hq
        rw [needsSync_eq]
        exact Book.stress_needSync p q hq
      · rw [page_eq_none_iff] at hq ⊢
        rw [pagerStress_book]
        exact Book.stress_flags_none p hq
      · rcases List.mem_append.mp hw with hw | hw
        · exact hsafe w hw
        · split at hw
          · rw [List.mem_singleton.mp hw]
            exact hcov hE
          · exact absurd hw List.not_mem_nil
    · rw [if_neg hd]
      exact ⟨h, Went.refl _, fun _ => id⟩

theorem Inv.spills (rnd pgno : ℕ) (c : Bool) (ps : List ℕ) (h : Inv g n E t) :
    Inv g n E (ps.foldl (loopSpill pgno rnd) t) ∧
      Went g n [] (t, c) (ps.foldl (loopSpill pgno rnd) t, c) ∧
      ((∀ p ∈ ps, p ≠ pgno → ¬ E p) → Safe g n t →
        Safe g n (ps.foldl (loopSpill pgno rnd) t)) := by
  induction ps generalizing t with
  | nil => exact ⟨h, Went.refl _, fun _ => id⟩
  | cons p ps ih =>
    have hone : Inv g n E (loopSpill pgno rnd t p) ∧
        Went g n [] (t, c) (loopSpill pgno rnd t p, c) ∧
        ((p ≠ pgno → ¬ E p) → Safe g n t → Safe g n (loopSpill pgno rnd t p)) := by
      rw [loopSpill]
      split
      · exact ⟨h, Went.refl _, fun _ => id⟩
      · rename_i hnot
        rw [not_or] at hnot
        obtain ⟨hinv, hwent, hsafe⟩ := h.spill p rnd c
        exact ⟨hinv, hwent, fun hE => hsafe (hE hnot.1)⟩
    obtain ⟨hinv, hwent, hsafe⟩ := ih hone.1
    exact ⟨hinv, hone.2.1.trans hwent, fun hE hs =>
      hsafe (fun q hq => hE q (List.mem_cons_of_mem p hq))
        (hone.2.2 (hE p List.mem_cons_self) hs)⟩

theorem acquire_page_ne_none (s : Pager) (p : ℕ) : ∃ f, (s.sqlite3PagerAcquire p).book.flags p
    = some f := by
  rw [sqlite3PagerAcquire_book, Book.acquire_flags, if_pos rfl]
  exact ⟨_, rfl⟩

theorem Inv.acquire (h : Inv g n E t) {p : ℕ} (hmj : p ≠ g.mjPgno) :
    BookInv g n E (t.pager.sqlite3PagerAcquire p).book t.synced := by
  rw [sqlite3PagerAcquire_book]
  exact BookInv.acquire h hmj

/-- A page is brought into the cache and written. -/
theorem Inv.acquireWrite (h : Inv g n E t) {pg : ℕ} (rnd : ℕ) (c : Bool) (hmj : pg ≠ g.mjPgno)
    (hE : E pg ∨ Covered g n t.synced pg) :
    Inv g n E { t with pager := (t.pager.sqlite3PagerAcquire pg).pagerWrite pg rnd } ∧
      Went g n [pg] (t, c) ({ t with pager := (t.pager.sqlite3PagerAcquire pg).pagerWrite pg rnd },
        c || ((t.pager.sqlite3PagerAcquire pg).pagerWrite pg rnd).needsSync pg) := by
  obtain ⟨f, hf⟩ := acquire_page_ne_none t.pager pg
  have hacq := h.acquire hmj
  have hbook := hacq.write hf hE
  obtain ⟨sync, record, hflags, hin, -, hrec, -⟩ := hacq.write_eq hf
  rw [← pagerWrite_book _ pg rnd] at hbook hflags hin
  generalize (t.pager.sqlite3PagerAcquire pg).pagerWrite pg rnd = s at hbook hflags hin ⊢
  have hinj : (t.pager.sqlite3PagerAcquire pg).book.inJournal = t.pager.pInJournal :=
    congrArg Book.inJournal (sqlite3PagerAcquire_book t.pager pg)
  have hother : ∀ q ∉ [pg], s.book.flags q = t.pager.book.flags q := by
    intro q hq
    rw [List.mem_singleton] at hq
    rw [hflags]
    dsimp only
    rw [if_neg hq, sqlite3PagerAcquire_book, Book.acquire_flags, if_neg hq]
  have hinS : s.pInJournal = fun q => if record ∧ q = pg then true else t.pager.pInJournal q := by
    rw [← hinj]
    exact hin
  refine ⟨hbook, ⟨fun q hq => ?_, fun q hq => hq, fun hc => ?_, fun q hq ho => ?_,
    fun q hq hs => ?_, fun q hq hs => ?_, fun q hq hp => ?_⟩⟩
  · dsimp only at hq ⊢
    rw [hinS]
    dsimp only
    rw [hq, ite_self]
  · dsimp only at hc ⊢
    rw [hc, Bool.true_or]
  · rw [List.mem_singleton] at hq
    have hq' : s.book.inJournal q = true := by
      rw [hin]
      dsimp only
      rw [hq]
      rcases hrec (hq ▸ ho.2.1) with hr | hr
      · rw [hr, ite_self]
      · rw [if_pos ⟨hr, rfl⟩]
    refine ⟨hq', ?_⟩
    cases hJ : t.synced q with
    | true => exact Or.inr rfl
    | false =>
      obtain ⟨f', hf', -, hs'⟩ := hbook.opened q hq' hJ
      refine Or.inl ?_
      dsimp only
      rw [needsSync_eq, ← hq, hf', Option.any_some, hs', Bool.or_true]
  · rw [List.mem_singleton] at hq
    rw [hq] at hs
    exact (Bool.or_eq_true _ _).mpr (Or.inr hs)
  · rw [needsSync_eq, hother q hq] at hs
    rw [needsSync_eq]
    exact hs
  · rw [page_eq_none_iff, hother q hq, ← page_eq_none_iff]
    exact hp

/-- **One turn** of the first loop. -/
theorem Inv.turn (h : Inv g n E r.1) (pgno pg rnd : ℕ) (spills : ℕ → List ℕ)
    (hE : pg = pgno ∨ r.1.pager.pInJournal pg = false → E pg ∨ Covered g n r.1.synced pg) :
    Inv g n E (turn pgno rnd spills r pg).1 ∧ Went g n [pg] r (turn pgno rnd spills r pg) ∧
      ((∀ p ∈ spills pg, p ≠ pgno → ¬ E p) → Safe g n r.1 →
        Safe g n (turn pgno rnd spills r pg).1) := by
  have hgeom : r.1.pager.geom = g := h.geom
  rw [Tracked.turn, hgeom]
  by_cases hwrite : pg = pgno ∨ r.1.pager.pageInJournal pg = false
  · rw [if_pos hwrite]
    by_cases hmj : pg ≠ g.mjPgno
    · rw [if_pos hmj]
      obtain ⟨hinv, hwent, hsafe⟩ := h.spills rnd pgno r.2 (spills pg)
      obtain ⟨hinv', hwent'⟩ := hinv.acquireWrite rnd r.2 hmj
        ((hE hwrite).imp_right fun hcov => hcov.mono hwent.synced)
      exact ⟨hinv', hwent.trans hwent', hsafe⟩
    · rw [if_neg hmj]
      rw [not_not] at hmj
      refine ⟨h, ⟨fun _ hq => hq, fun _ hq => hq, id, fun q hq ho => ?_, fun q hq hs => ?_,
        fun _ _ hs => hs, fun _ _ hp => hp⟩, fun _ => id⟩
      · exact absurd ((List.mem_singleton.mp hq).trans hmj) ho.2.2
      · rw [needsSync_eq, List.mem_singleton.mp hq, hmj, h.mj] at hs
        exact absurd hs Bool.false_ne_true
  · rw [if_neg hwrite]
    rw [not_or, Bool.not_eq_false] at hwrite
    refine ⟨h, ⟨fun _ hq => hq, fun _ hq => hq, fun hc => ?_, fun q hq _ => ?_, fun q hq hs => ?_,
      fun _ _ hs => hs, fun _ _ hp => hp⟩, fun _ => id⟩
    · dsimp only
      rw [hc, Bool.true_or]
    · rw [List.mem_singleton.mp hq]
      refine ⟨hwrite.2, ?_⟩
      cases hJ : r.1.synced pg with
      | true => exact Or.inr rfl
      | false =>
        obtain ⟨f, hf, -, hs⟩ := h.opened pg hwrite.2 hJ
        refine Or.inl ?_
        dsimp only
        rw [needsSync_eq, hf, Option.any_some, hs, Bool.or_true]
    · rw [List.mem_singleton.mp hq] at hs
      exact (Bool.or_eq_true _ _).mpr (Or.inr hs)

/-- **The first loop.** -/
theorem Inv.loop (pgno rnd : ℕ) (spills : ℕ → List ℕ) (pages : List ℕ) (h : Inv g n E r.1)
    (hE : ∀ pg ∈ pages, pg = pgno ∨ r.1.pager.pInJournal pg = false →
      E pg ∨ Covered g n r.1.synced pg) :
    Inv g n E (pages.foldl (Tracked.turn pgno rnd spills) r).1 ∧
      Went g n pages r (pages.foldl (Tracked.turn pgno rnd spills) r) ∧
      ((∀ pg ∈ pages, ∀ p ∈ spills pg, p ≠ pgno → ¬ E p) → Safe g n r.1 →
        Safe g n (pages.foldl (Tracked.turn pgno rnd spills) r).1) := by
  induction pages generalizing r with
  | nil => exact ⟨h, Went.refl r, fun _ => id⟩
  | cons pg pages ih =>
    obtain ⟨hinv, hwent, hsafe⟩ := h.turn pgno pg rnd spills (hE pg List.mem_cons_self)
    obtain ⟨hinv', hwent', hsafe'⟩ := ih hinv fun pg' hpg hw => by
      have hcov := hE pg' (List.mem_cons_of_mem pg hpg) (hw.imp_right fun hnot => by
        by_contra hin
        rw [Bool.not_eq_false] at hin
        rw [hwent.inJournal pg' hin] at hnot
        exact absurd hnot (by simp))
      exact hcov.imp_right fun hc => hc.mono hwent.synced
    exact ⟨hinv', hwent.trans hwent', fun hspills hs =>
      hsafe' (fun pg' hpg => hspills pg' (List.mem_cons_of_mem pg hpg))
        (hsafe (hspills pg List.mem_cons_self) hs)⟩

theorem foldl_setNeedSync_flags (pages : List ℕ) (s : Pager) :
    (pages.foldl setNeedSync s).book = { s.book with
      flags := fun q => if q ∈ pages then (s.book.flags q).map fun f => { f with needSync := true }
        else s.book.flags q } := by
  induction pages generalizing s with
  | nil => simp
  | cons p pages ih =>
    rw [List.foldl_cons, ih, setNeedSync_book]
    refine Book.ext (funext fun q => ?_) rfl rfl rfl rfl rfl rfl
    dsimp only
    rw [Book.setNeedSync, Book.modify_flags]
    by_cases hqp : q = p
    · rw [hqp]
      simp only [if_true, List.mem_cons, true_or, Option.map_map]
      split
      · rfl
      · rfl
    · simp only [hqp, if_false, List.mem_cons, false_or]

end Loop

/-! ### One call -/

/-- The pages of the sector of `pgno` behind the range are neither originals that are not in the
journal nor in the cache. -/
def NothingBehind (s : Pager) (n pgno : ℕ) : Prop :=
  ∀ q, q ≠ 0 → s.geom.SameSector pgno q → q ∉ s.sectorPages pgno →
    (Original s.geom n q → s.pInJournal q = true) ∧ s.cache.page q = none

/-- While the call runs no page of the range is spilled that was not in the journal before, unless
the sector was safe already. -/
def SpillsOthers (n pgno : ℕ) (spills : ℕ → List ℕ) (t : Tracked) : Prop :=
  Covered t.pager.geom n t.synced pgno ∨ ∀ pg ∈ t.pager.sectorPages pgno, ∀ q ∈ spills pg,
    q ∈ t.pager.sectorPages pgno → t.pager.pInJournal q = true

/-- The originals among `pages` are in the journal, and if one of `pages` has `PGHDR_NEED_SYNC` all
that are in the cache have it. -/
structure Together (s : Pager) (n : ℕ) (pages : ℕ → Prop) : Prop where
  journaled : ∀ q, pages q → Original s.geom n q → s.pInJournal q = true
  flagged : ∀ p q, pages p → pages q → s.needsSync p = true → s.cache.page q ≠ none →
    s.needsSync q = true

section Call

variable {g : Geom} {n : ℕ} {E : ℕ → Prop} {t : Tracked} {r : Tracked × Bool} {pages : List ℕ}

theorem propagate_needsSync (hsync : r.2 = true) {q : ℕ} (hq : q ∈ pages)
    (hpage : (propagate pages r).pager.cache.page q ≠ none) :
    (propagate pages r).pager.needsSync q = true := by
  rw [propagate, if_pos hsync] at hpage ⊢
  have hbook := foldl_setNeedSync_flags pages r.1.pager
  dsimp only at hpage ⊢
  generalize pages.foldl setNeedSync r.1.pager = s at hbook hpage ⊢
  have hflags : s.book.flags q
      = (r.1.pager.book.flags q).map fun f => { f with needSync := true } :=
    (congrFun (congrArg Book.flags hbook) q).trans (if_pos hq)
  rw [Ne, page_eq_none_iff, hflags] at hpage
  rw [needsSync_eq, hflags]
  cases hf : r.1.pager.book.flags q with
  | none =>
    rw [hf] at hpage
    exact absurd rfl hpage
  | some f => rfl

theorem propagate_pInJournal (pages : List ℕ) (r : Tracked × Bool) :
    (propagate pages r).pager.pInJournal = r.1.pager.pInJournal := by
  rw [propagate]
  split
  · exact congrArg Book.inJournal (foldl_setNeedSync_flags pages r.1.pager)
  · rfl

theorem propagate_page_none (pages : List ℕ) (r : Tracked × Bool) {q : ℕ}
    (h : r.1.pager.cache.page q = none) : (propagate pages r).pager.cache.page q = none := by
  rw [propagate]
  split
  · rw [page_eq_none_iff] at h ⊢
    dsimp only
    rw [foldl_setNeedSync_flags]
    dsimp only
    rw [h]
    split <;> rfl
  · exact h

/-- **The second loop.** -/
theorem Inv.propagate (h : Inv g n E r.1) (pages : List ℕ) :
    Inv g n E (propagate pages r) ∧ (Safe g n r.1 → Safe g n (propagate pages r)) := by
  rw [Tracked.propagate]
  split
  · refine ⟨?_, id⟩
    rw [Inv, foldl_setNeedSync_flags]
    refine BookInv.change h (fun q hq => ?_) (fun q f hq hd => ?_) fun q f hq hd hs => ?_
    · rw [hq]
      split <;> rfl
    · split at hq
      · obtain ⟨f', hf', rfl⟩ := Option.map_eq_some_iff.mp hq
        exact ⟨f', hf', hd, fun hno => absurd hno (by simp)⟩
      · exact ⟨f, hq, hd, id⟩
    · rw [hq]
      split
      · exact ⟨_, rfl, hd, rfl⟩
      · exact ⟨f, rfl, hd, hs⟩
  · exact ⟨h, id⟩

/-- After the loops the pages of the range are together. -/
theorem Went.together (h : Went g n pages (t, false) r)
    (hinv : Inv g n E (Tracked.propagate pages r)) :
    Together (Tracked.propagate pages r).pager n (· ∈ pages) where
  journaled := fun q hq ho => by
    rw [show (Tracked.propagate pages r).pager.geom = g from hinv.geom] at ho
    rw [propagate_pInJournal]
    exact (h.orig q hq ho).1
  flagged := fun p q hp hq hs hpage => by
    cases hr : r.2 with
    | true => exact propagate_needsSync hr hq hpage
    | false =>
      rw [Tracked.propagate, hr, if_neg Bool.false_ne_true] at hs
      rw [h.seen p hp hs] at hr
      exact absurd hr (by simp)

/-- **One call** of `sqlite3PagerWrite`: the pages of the range. -/
theorem Inv.write_range (h : Inv g n (fun _ => True) t) (pgno rnd : ℕ) (spills : ℕ → List ℕ) :
    Inv g n (fun _ => True) (t.write pgno rnd spills) ∧
      Together (t.write pgno rnd spills).pager n (· ∈ t.pager.sectorPages pgno) := by
  obtain ⟨hinv, hwent, -⟩ := Inv.loop (r := (t, false)) pgno rnd spills
    (t.pager.sectorPages pgno) h fun _ _ _ => Or.inl trivial
  obtain ⟨hinv', -⟩ := hinv.propagate (t.pager.sectorPages pgno)
  exact ⟨hinv', hwent.together hinv'⟩

/-- **One call** of `sqlite3PagerWrite` that leaves nothing behind: the sector. -/
theorem Inv.write (h : Inv g n (fun _ => False) t) (hper : 0 < g.perSector) {pgno : ℕ} (rnd : ℕ)
    {spills : ℕ → List ℕ} (hpgno : pgno ≠ 0) (hbehind : NothingBehind t.pager n pgno)
    (hspills : SpillsOthers n pgno spills t) :
    Inv g n (fun _ => False) (t.write pgno rnd spills) ∧
      (Safe g n t → Safe g n (t.write pgno rnd spills)) ∧
      Together (t.write pgno rnd spills).pager n fun q => q ≠ 0 ∧ g.SameSector pgno q := by
  have hgeom : t.pager.geom = g := h.geom
  have hrange : ∀ q ∈ t.pager.sectorPages pgno, g.SameSector pgno q := by
    have hbounds := (sectorPages_bounds (s := t.pager) (hgeom.symm ▸ hper) hpgno).1
    rw [hgeom] at hbounds
    exact fun q hq => (hbounds q hq).2.2
  rw [NothingBehind, hgeom] at hbehind
  rw [SpillsOthers, hgeom] at hspills
  -- the pages that this call writes are under way
  obtain ⟨hinv, hwent, hsafe⟩ := Inv.loop (r := (t, false)) (E := fun q =>
      ¬ Covered g n t.synced pgno ∧ q ∈ t.pager.sectorPages pgno ∧
        (q = pgno ∨ t.pager.pInJournal q = false)) pgno rnd spills (t.pager.sectorPages pgno)
    (BookInv.exchange h fun _ _ _ _ hno => hno.elim) fun pg hpg hw => by
      by_cases hcov : Covered g n t.synced pgno
      · exact Or.inr (hcov.of_sameSector (hrange pg hpg))
      · exact Or.inl ⟨hcov, hpg, hw⟩
  have hsafe := hsafe fun pg hpg p hp hne hE => by
    have hin := (hspills.resolve_left hE.1) pg hpg p hp hE.2.1
    rw [hE.2.2.resolve_left hne] at hin
    exact Bool.false_ne_true hin
  rw [Tracked.write]
  generalize t.pager.sectorPages pgno = pages at hbehind hrange hinv hwent hsafe ⊢
  generalize pages.foldl (Tracked.turn pgno rnd spills) (t, false) = r at hinv hwent hsafe ⊢
  obtain ⟨hinv', hsafe'⟩ := hinv.propagate pages
  have hgeom' : (Tracked.propagate pages r).pager.geom = g := hinv'.geom
  have htogether := hwent.together hinv'
  have hcov : Covered g n (Tracked.propagate pages r).pager.pInJournal pgno := by
    intro q ho hs
    by_cases hq : q ∈ pages
    · exact htogether.journaled q hq (hgeom'.symm ▸ ho)
    · rw [propagate_pInJournal]
      exact hwent.inJournal q ((hbehind q ho.1 hs hq).1 ho)
  have hcached : ∀ q, q ≠ 0 → g.SameSector pgno q →
      (Tracked.propagate pages r).pager.cache.page q ≠ none → q ∈ pages := by
    intro q hq0 hs hpage
    by_contra hq
    exact hpage (propagate_page_none pages r (hwent.absent q hq (hbehind q hq0 hs hq).2))
  -- a page that was written without `PGHDR_NEED_SYNC` has its sector in the synced part
  have hsynced : r.2 = false → Covered g n r.1.synced pgno := by
    intro hr q ho hs
    by_cases hq : q ∈ pages
    · exact (hwent.orig q hq ho).2.resolve_left (by rw [hr]; exact Bool.false_ne_true)
    · obtain ⟨hin, hnone⟩ := hbehind q ho.1 hs hq
      refine hwent.synced q ?_
      by_contra hJ
      obtain ⟨f, hf, -⟩ := h.opened q (hin ho) (Bool.eq_false_of_not_eq_true hJ)
      rw [(page_eq_none_iff _ _).mp hnone] at hf
      exact absurd hf (by simp)
  refine ⟨BookInv.exchange hinv' fun q f hq _ hE _ => ⟨?_, fun hno => ?_⟩,
    fun hs => hsafe' (hsafe hs), fun q hq ho => ?_, fun p q hp hq hs hpage => ?_⟩
  · exact hcov.of_sameSector (hrange q hE.2.1)
  · cases hr : r.2 with
    | true =>
      have hpage : (Tracked.propagate pages r).pager.cache.page q ≠ none := fun hnone => by
        rw [(page_eq_none_iff _ _).mp hnone] at hq
        exact absurd hq (by simp)
      have hflag := propagate_needsSync hr hE.2.1 hpage
      rw [needsSync_eq, hq, Option.any_some, hno] at hflag
      exact absurd hflag Bool.false_ne_true
    | false =>
      rw [Tracked.propagate, hr, if_neg Bool.false_ne_true]
      exact (hsynced hr).of_sameSector (hrange q hE.2.1)
  · rw [hgeom'] at ho
    exact hcov q ho hq.2
  · have hp' : p ∈ pages := hcached p hp.1 hp.2 fun hnone => by
      rw [needsSync, hnone] at hs
      exact Bool.false_ne_true hs
    exact htogether.flagged p q hp' (hcached q hq.1 hq.2 hpage) hs hpage

end Call

end Tracked

/-! ### Every run -/

/-- What is done to a pager during a transaction. -/
inductive SectorOp
  /-- `sqlite3PagerGet` -/
  | acquire (p : ℕ)
  /-- `sqlite3PagerAcquire` for a page of which the contents do not matter -/
  | acquireNoContent (p : ℕ)
  /-- A writer changes the contents of a page in the cache. -/
  | change (p : ℕ) (f : (ℕ → UInt8) → ℕ → UInt8)
  /-- A clean page leaves the cache. -/
  | release (p : ℕ)
  /-- `pagerStress` -/
  | spill (p rnd : ℕ)
  /-- `sqlite3PagerTruncateImage` -/
  | truncateImage (nPage : ℕ)
  /-- `sqlite3PagerWrite` -/
  | write (pgno rnd : ℕ) (spills : ℕ → List ℕ)
  /-- The journal is synced and the dirty pages are written. -/
  | flush (rnd : ℕ)

/-- One operation. One that the pager refuses, or that its assertions forbid, changes nothing. -/
def sectorStep (t : Tracked) : SectorOp → Tracked
  | .acquire p => if t.pager.pgnoOk p then { t with pager := t.pager.sqlite3PagerAcquire p } else t
  | .acquireNoContent p =>
    if t.pager.pgnoOk p ∧ p ≤ t.pager.mxPgno then
      { t with
        pager := t.pager.sqlite3PagerAcquireNoContent p
        synced :=
          if p ≤ t.pager.dbOrigSize ∧ t.pager.eState ≠ .writerLocked then
            Function.update t.synced p true
          else t.synced }
    else t
  | .change p f => { t with pager := t.pager.modify p fun h => { h with data := f h.data } }
  | .release p =>
    if (t.pager.cache.page p).any PgHdr.dirty then t
    else { t with pager := { t.pager with cache := t.pager.cache.drop p } }
  | .spill p rnd => t.spill p rnd
  | .truncateImage nPage =>
    if t.pager.eState ≠ .writerLocked ∧ nPage ≤ t.pager.dbSize then
      { t with pager := t.pager.sqlite3PagerTruncateImage nPage }
    else t
  | .write pgno rnd spills =>
    if t.pager.cache.page pgno ≠ none ∧ t.pager.pgnoOk pgno then t.write pgno rnd spills else t
  | .flush rnd => if t.pager.eState ≠ .writerLocked then t.flush rnd else t

namespace Tracked

/-- The start of a transaction. -/
structure Begun (s : Pager) : Prop where
  locked : s.eState = .writerLocked
  clean : ∀ p h, s.cache.page p = some h → h.dirty = false
  journal : ∀ q, s.pInJournal q = false
  mj : s.cache.page s.geom.mjPgno = none

/-- Nothing is synced, and nothing is written. -/
def start (s : Pager) : Tracked := ⟨s, fun _ => false, []⟩

section Step

variable {g : Geom} {n : ℕ} {E : ℕ → Prop} {t : Tracked}

theorem Inv.start {s : Pager} (h : Begun s) (E : ℕ → Prop) :
    Inv s.geom s.dbOrigSize E (start s) where
  geom := rfl
  orig := rfl
  mj := (page_eq_none_iff _ _).mp h.mj
  locked := fun _ => ⟨fun p f hp => by
    obtain ⟨hdr, hpage, rfl⟩ := Option.map_eq_some_iff.mp hp
    exact h.clean p hdr hpage, h.journal⟩
  live := Or.inl h.locked
  covered := fun p f hp hd _ => by
    obtain ⟨hdr, hpage, rfl⟩ := Option.map_eq_some_iff.mp hp
    exact absurd ((h.clean p hdr hpage).symm.trans hd) (by simp)
  synced := fun p f hp hd _ _ => by
    obtain ⟨hdr, hpage, rfl⟩ := Option.map_eq_some_iff.mp hp
    exact absurd ((h.clean p hdr hpage).symm.trans hd) (by simp)
  sub := fun _ hq => absurd hq Bool.false_ne_true
  opened := fun q hq _ => absurd ((h.journal q).symm.trans hq) (by simp)

theorem cleanAll_book (s : Pager) : s.cleanAll.book
    = { s.book with flags := fun q => (s.book.flags q).map Book.clean } := by
  refine Book.ext (funext fun q => ?_) rfl rfl rfl rfl rfl rfl
  simp only [Pager.cleanAll, PCache.cleanAll, book_flags, PCache.map_page]
  cases s.cache.page q with
  | none => rfl
  | some h =>
    simp only [Option.bind_some, Option.map_some]
    rw [makeClean_flags]

/-- **A flush.** -/
theorem Inv.flush (h : Inv g n E t) (rnd : ℕ) (hstate : t.pager.eState ≠ .writerLocked) :
    Inv g n E (t.flush rnd) ∧ ((∀ q, ¬ E q) → Safe g n t → Safe g n (t.flush rnd)) := by
  have hsync := BookInv.sync h hstate
  have hbook := syncJournal_book t.pager false rnd
  rw [Inv, Safe, Safe, Tracked.flush]
  dsimp only
  generalize t.pager.syncJournal false rnd = s at hbook ⊢
  constructor
  · rw [cleanAll_book, writeDirtyPages, pagerWritePagelist_book, hbook]
    refine hsync.change (fun q hq => ?_) (fun q f hq hd => ?_) fun q f hq hd hs => ?_
    · rw [hq]
      rfl
    · obtain ⟨f', -, rfl⟩ := Option.map_eq_some_iff.mp hq
      rw [Book.clean_not_dirty] at hd
      exact absurd hd Bool.false_ne_true
    · rw [Book.sync_flags] at hq
      obtain ⟨f', -, rfl⟩ := Option.map_eq_some_iff.mp hq
      split at hs
      · exact absurd hs Bool.false_ne_true
      · rename_i hnot
        rw [if_neg hnot] at hd
        exact absurd hd hnot
  · intro hE hsafe w hw
    rcases List.mem_append.mp hw with hw | hw
    · exact hsafe w hw
    · obtain ⟨q, hq, rfl⟩ := List.mem_map.mp hw
      rw [List.mem_filter, PCache.dirtyList, List.mem_filter] at hq
      obtain ⟨⟨-, hdirty⟩, -⟩ := hq
      cases hpage : s.cache.page q with
      | none =>
        rw [hpage] at hdirty
        exact absurd hdirty Bool.false_ne_true
      | some hdr =>
        rw [hpage] at hdirty
        have hflags : t.pager.book.sync.flags q = some hdr.flags := by
          rw [← hbook, book_flags, hpage]
          rfl
        exact hsync.covered q hdr.flags hflags hdirty (hE q)

/-- The operations other than a write. -/
theorem Inv.step (h : Inv g n E t) (op : SectorOp)
    (hop : ∀ pgno rnd spills, op ≠ .write pgno rnd spills) :
    Inv g n E (sectorStep t op) ∧
      ((∀ q, ¬ E q) → Safe g n t → Safe g n (sectorStep t op)) := by
  cases op with
  | acquire p =>
    rw [sectorStep]
    split
    · rename_i hok
      refine ⟨?_, fun _ => id⟩
      have hmj : p ≠ g.mjPgno := by
        simp only [pgnoOk, decide_eq_true_eq, show t.pager.geom = g from h.geom] at hok
        exact hok.2.2.1
      exact h.acquire hmj
    · exact ⟨h, fun _ => id⟩
  | acquireNoContent p =>
    rw [sectorStep]
    split
    · rename_i hok
      refine ⟨?_, fun _ => id⟩
      have hmj : p ≠ g.mjPgno := by
        simp only [pgnoOk, decide_eq_true_eq, show t.pager.geom = g from h.geom] at hok
        exact hok.1.2.2.1
      rw [Inv, sqlite3PagerAcquireNoContent_book]
      exact BookInv.acquireNoContent h hmj
    · exact ⟨h, fun _ => id⟩
  | change p f =>
    refine ⟨?_, fun _ => id⟩
    have hbook : (t.pager.modify p fun h => { h with data := f h.data }).book
        = t.pager.book.modify p id := modify_book t.pager p fun _ => rfl
    rw [sectorStep, Inv, hbook]
    refine BookInv.change h (fun q hq => ?_) (fun q f hq hd => ?_) fun q f hq hd hs => ?_
    · split
      · rename_i hqp
        rw [← hqp, hq]
        rfl
      · exact hq
    · split at hq
      · rename_i hqp
        rw [Option.map_id, id, ← hqp] at hq
        exact ⟨f, hq, hd, id⟩
      · exact ⟨f, hq, hd, id⟩
    · split
      · rename_i hqp
        rw [Option.map_id, id, ← hqp]
        exact ⟨f, hq, hd, hs⟩
      · exact ⟨f, hq, hd, hs⟩
  | release p =>
    rw [sectorStep]
    split
    · exact ⟨h, fun _ => id⟩
    · rename_i hclean
      refine ⟨?_, fun _ => id⟩
      have hbook : ({ t.pager with cache := t.pager.cache.drop p } : Pager).book
          = { t.pager.book with
              flags := fun q => if q = p then none else t.pager.book.flags q } := by
        refine Book.ext (funext fun q => ?_) rfl rfl rfl rfl rfl rfl
        rw [book_flags, PCache.drop]
        by_cases hq : q = p
        · simp [hq]
        · simp [hq, book_flags]
      rw [Inv, hbook]
      refine BookInv.change h (fun q hq => ?_) (fun q f hq hd => ?_) fun q f hq hd hs => ?_
      · rw [hq, ite_self]
      · split at hq
        · exact absurd hq (by simp)
        · exact ⟨f, hq, hd, id⟩
      · split
        · rename_i hqp
          obtain ⟨hdr, hpage, rfl⟩ := Option.map_eq_some_iff.mp hq
          rw [hqp] at hpage
          rw [hpage] at hclean
          exact absurd hd hclean
        · exact ⟨f, hq, hd, hs⟩
  | spill p rnd =>
    obtain ⟨hinv, -, hsafe⟩ := h.spill p rnd false
    exact ⟨hinv, fun hE => hsafe (hE p)⟩
  | truncateImage nPage =>
    rw [sectorStep]
    split
    · exact ⟨⟨h.geom, h.orig, h.mj, h.locked, h.live, h.covered, h.synced, h.sub, h.opened⟩,
        fun _ => id⟩
    · exact ⟨h, fun _ => id⟩
  | write pgno rnd spills => exact absurd rfl (hop pgno rnd spills)
  | flush rnd =>
    rw [sectorStep]
    split
    · rename_i hstate
      exact h.flush rnd hstate
    · exact ⟨h, fun _ => id⟩

end Step

/-- The condition on a write: it leaves nothing behind, and no page it appends is spilled while it
runs. -/
def Clear (n : ℕ) (t : Tracked) : SectorOp → Prop
  | .write pgno _ spills => NothingBehind t.pager n pgno ∧ SpillsOthers n pgno spills t
  | _ => True

/-- What a write does to the pages of its range, and where they are. -/
def RangeTogether (n : ℕ) (t : Tracked) : SectorOp → Prop
  | .write pgno rnd spills => t.pager.cache.page pgno ≠ none → t.pager.pgnoOk pgno = true →
      Together (t.write pgno rnd spills).pager n (· ∈ t.pager.sectorPages pgno) ∧
        (∀ q ∈ t.pager.sectorPages pgno,
          q ≠ 0 ∧ q ≤ max t.pager.dbSize pgno ∧ t.pager.geom.SameSector pgno q) ∧
        pgno ∈ t.pager.sectorPages pgno ∧
        t.pager.geom.pg1 pgno + t.pager.geom.perSector - 1 < 2 ^ 32
  | _ => True

/-- What a write does to the pages of its sector. -/
def SectorTogether (n : ℕ) (t : Tracked) : SectorOp → Prop
  | .write pgno rnd spills => t.pager.cache.page pgno ≠ none → t.pager.pgnoOk pgno = true →
      Together (t.write pgno rnd spills).pager n fun q => q ≠ 0 ∧ t.pager.geom.SameSector pgno q
  | _ => True

theorem pgnoOk_bounds {s : Pager} {p : ℕ} (h : s.pgnoOk p = true) : p ≠ 0 ∧ p ≤ 2147483647 := by
  simp only [pgnoOk, decide_eq_true_eq] at h
  exact ⟨by omega, h.2.1⟩

section Step

variable {g : Geom} {n : ℕ} {t : Tracked}

theorem Inv.step_range (h : Inv g n (fun _ => True) t) (hper : 0 < g.perSector) (op : SectorOp) :
    Inv g n (fun _ => True) (sectorStep t op) ∧ RangeTogether n t op := by
  cases op with
  | write pgno rnd spills =>
    have hgeom : t.pager.geom = g := h.geom
    obtain ⟨hinv, htogether⟩ := h.write_range pgno rnd spills
    refine ⟨?_, fun _ hok => ?_⟩
    · rw [sectorStep]
      split
      · exact hinv
      · exact h
    · obtain ⟨h0, hle⟩ := pgnoOk_bounds hok
      obtain ⟨hpages, hmem, hend⟩ := sectorPages_bounds (s := t.pager) (hgeom.symm ▸ hper) h0
      exact ⟨htogether, hpages, hmem, hend hle⟩
  | _ => exact ⟨(h.step _ fun _ _ _ => by simp).1, trivial⟩

theorem Inv.step_sector (h : Inv g n (fun _ => False) t ∧ Safe g n t) (hper : 0 < g.perSector)
    (op : SectorOp) (hclear : Clear n t op) :
    (Inv g n (fun _ => False) (sectorStep t op) ∧ Safe g n (sectorStep t op)) ∧
      SectorTogether n t op := by
  have hother : (∀ pgno rnd spills, op ≠ .write pgno rnd spills) →
      Inv g n (fun _ => False) (sectorStep t op) ∧ Safe g n (sectorStep t op) := by
    intro hop
    obtain ⟨hinv, hsafe⟩ := h.1.step op hop
    exact ⟨hinv, hsafe (fun _ => id) h.2⟩
  cases op with
  | write pgno rnd spills =>
    have hgeom : t.pager.geom = g := h.1.geom
    refine ⟨?_, fun _ hok => ?_⟩
    · rw [sectorStep]
      split
      · rename_i hok
        obtain ⟨hinv, hsafe, -⟩ := h.1.write hper rnd (pgnoOk_bounds hok.2).1 hclear.1 hclear.2
        exact ⟨hinv, hsafe h.2⟩
      · exact h
    · rw [hgeom]
      exact (h.1.write hper rnd (pgnoOk_bounds hok).1 hclear.1 hclear.2).2.2
  | _ => exact ⟨hother fun _ _ _ => by simp, trivial⟩

end Step

/-- **Every run** of a transaction keeps the pages of each range together. If each write leaves
nothing behind and spills none of the pages it appends, the pages of each sector are together, and
no page is written to the database file before all original pages of its sector, but for those that
were acquired without their contents, are in the synced part of the journal. -/
theorem run_sectorTogether {s : Pager} (h : Begun s)
    (hsector : s.geom.pageSize < s.geom.sectorSize) (ops : List SectorOp) :
    Run.EveryStep sectorStep (RangeTogether s.dbOrigSize) (start s) ops ∧
      (Run.EveryStep sectorStep (Clear s.dbOrigSize) (start s) ops →
        Run.EveryStep sectorStep (SectorTogether s.dbOrigSize) (start s) ops ∧
          Run.Every sectorStep (Safe s.geom s.dbOrigSize) (start s) ops) := by
  have hper : 0 < s.geom.perSector :=
    Nat.div_pos hsector.le (Nat.lt_of_lt_of_le (by decide) s.geom.page_ge)
  have hrange : ∀ t op, Inv s.geom s.dbOrigSize (fun _ => True) t → True →
      Inv s.geom s.dbOrigSize (fun _ => True) (sectorStep t op) ∧
        RangeTogether s.dbOrigSize t op := fun _ op hinv _ => hinv.step_range hper op
  have hstep : ∀ t op, Inv s.geom s.dbOrigSize (fun _ => False) t ∧ Safe s.geom s.dbOrigSize t →
      Clear s.dbOrigSize t op →
      (Inv s.geom s.dbOrigSize (fun _ => False) (sectorStep t op) ∧
        Safe s.geom s.dbOrigSize (sectorStep t op)) ∧ SectorTogether s.dbOrigSize t op :=
    fun _ op hinv hop => Inv.step_sector hinv hper op hop
  have hstart : Inv s.geom s.dbOrigSize (fun _ => False) (start s) ∧
      Safe s.geom s.dbOrigSize (start s) :=
    ⟨Inv.start h _, fun w hw => absurd hw List.not_mem_nil⟩
  refine ⟨Run.everyStep_of_invariant hrange (Inv.start h _) (Run.everyStep_true _ _ ops),
    fun hclear => ⟨Run.everyStep_of_invariant hstep hstart hclear, ?_⟩⟩
  exact (Run.every_of_invariant (fun t op hinv hop => (hstep t op hinv hop).1) hstart hclear).mono
    fun _ hinv => hinv.2

/-- Pages of 512 bytes in sectors of 1024. -/
def twoPageGeom : Geom :=
  ⟨512, 1024, le_512, max_512, pow_512, sector_1024, max_1024, pow_1024⟩

/-- A database of `n` pages, two in a sector, at the start of a transaction. -/
def pages (n : ℕ) : Pager :=
  { sqlite3PagerOpen twoPageGeom 10 Disk.File.empty none with
    eState := .writerLocked, dbSize := n, dbOrigSize := n }

theorem pages_begun (n : ℕ) : Begun (pages n) :=
  ⟨rfl, fun _ _ h => absurd h (by simp [pages, sqlite3PagerOpen, PCache.empty]),
    fun _ => rfl, rfl⟩

theorem pages_nothingBehind {s : Pager} {pgno : ℕ} (hgeom : s.geom = twoPageGeom)
    (hle : pgno ≤ s.dbSize) (hsize : twoPageGeom.pg1 pgno + 1 ≤ s.dbSize) (n : ℕ) :
    NothingBehind s n pgno := by
  have hper : twoPageGeom.perSector = 2 := rfl
  intro q hq hs hnot
  rw [hgeom] at hs
  obtain ⟨nPage, hpages, hend⟩ := sectorPages_eq s pgno
  rw [hpages, List.mem_range'_1, hend, hgeom, if_neg (by omega), if_neg (by omega)] at hnot
  exact absurd ((sameSector_iff (by decide) hq).mp hs) hnot

/-- Page 3 is acquired without its contents once the journal is open, and pages 1 and 3 are written
and spilled. -/
def writeAndSpill : List SectorOp :=
  [.acquire 1, .write 1 0 (fun _ => []), .acquireNoContent 3, .write 3 0 (fun _ => []),
    .spill 1 0, .spill 3 0]

theorem run_sectorTogether_writeAndSpill :
    Run.Every sectorStep (Safe twoPageGeom 4) (start (pages 4)) writeAndSpill ∧
      (Run.last sectorStep (start (pages 4)) writeAndSpill).writes.map Prod.fst = [1, 3] :=
  ⟨((run_sectorTogether (pages_begun 4) (by decide) writeAndSpill).2
    ⟨trivial, ⟨pages_nothingBehind rfl (by decide) (by decide) 4,
        Or.inr fun _ _ _ h => absurd h List.not_mem_nil⟩, trivial,
      ⟨pages_nothingBehind rfl (by decide) (by decide) 4,
        Or.inr fun _ _ _ h => absurd h List.not_mem_nil⟩, trivial, trivial, trivial⟩).2, by decide +kernel⟩

/-- A page after the end of the image is in the cache and does not get the flag; a page that was
truncated away is not journaled. -/
theorem not_sectorTogether :
    ¬ Run.EveryStep sectorStep (SectorTogether 1) (start (pages 1))
        [.acquire 1, .acquire 2, .write 1 0 fun _ => []] ∧
      ¬ Run.EveryStep sectorStep (SectorTogether 4) (start (pages 4))
        [.acquire 3, .write 3 0 (fun _ => []), .truncateImage 1, .acquire 1,
          .write 1 0 fun _ => []] := by
  constructor
  · rintro ⟨-, -, h, -⟩
    have hflag := (h (by decide) (by decide)).flagged 1 2 ⟨by decide, rfl⟩ ⟨by decide, rfl⟩
      (by decide) (by decide)
    exact absurd hflag (by decide)
  · rintro ⟨-, -, -, -, h, -⟩
    have hin := (h (by decide) (by decide)).journaled 2 ⟨by decide, rfl⟩
      ⟨by decide, by decide, by decide⟩
    exact absurd hin (by decide)

end Tracked

end Pager

end SqliteVms

import SqliteVms.Pager.State

/-!
# The pager's bookkeeping

What decides when a page is journaled, when the journal is synced and when a page may be written is
little: the flags of the pages in the cache, the pages in the journal, the state, and the two sizes.
This is the pager with the rest left out, and each operation on it.

## Main definitions

* `Book`, `Pager.book` — the bookkeeping of a pager
* `Book.acquire`, `Book.write`, `Book.sync`, `Book.stress` — the operations on it

## Main results

* `pagerWrite_book`, `syncJournal_book`, `pagerStress_book`, `sqlite3PagerAcquire_book` — a pager
  does to its books what these operations say
-/

namespace SqliteVms

namespace Pager

/-! ### The books -/

/-- Whether a page is dirty, and whether it needs a sync. -/
structure Flags where
  dirty : Bool
  needSync : Bool
  deriving DecidableEq

/-- The bookkeeping of a pager. -/
@[ext] structure Book where
  flags : ℕ → Option Flags
  inJournal : ℕ → Bool
  eState : EState
  dbSize : ℕ
  dbOrigSize : ℕ
  geom : Geom
  jfdOpen : Bool

/-- The flags of a page. -/
def PgHdr.flags (h : PgHdr) : Flags := ⟨h.dirty, h.needSync⟩

/-- The books of a pager. -/
def book (s : Pager) : Book where
  flags := fun p => (s.cache.page p).map PgHdr.flags
  inJournal := s.pInJournal
  eState := s.eState
  dbSize := s.dbSize
  dbOrigSize := s.dbOrigSize
  geom := s.geom
  jfdOpen := s.jfdOpen

namespace Book

variable (b : Book)

/-- The flags of one page change. -/
def modify (p : ℕ) (f : Flags → Flags) : Book :=
  { b with flags := fun q => if q = p then (b.flags p).map f else b.flags q }

/-- A page comes into the cache. -/
def acquire (p : ℕ) : Book :=
  { b with flags := fun q =>
      if q = p then some ((b.flags p).getD ⟨false, false⟩) else b.flags q }

/-- The journal is opened by the first write. -/
def openJournal : Book :=
  if b.eState = .writerLocked then
    { b with inJournal := fun _ => false, eState := .writerCachemod, jfdOpen := true }
  else b

/-- The page is in the journal. -/
def record (p : ℕ) : Book := { b with inJournal := Function.update b.inJournal p true }

/-- `PGHDR_NEED_SYNC` is set. -/
def setNeedSync (p : ℕ) : Book := b.modify p fun f => { f with needSync := true }

/-- A page is journaled, or not, before it is written. -/
def journalOrAppend (p : ℕ) : Book :=
  if b.inJournal p then b
  else if p ≤ b.dbOrigSize ∧ b.jfdOpen then (b.setNeedSync p).record p
  else if b.eState ≠ .writerDbmod then b.setNeedSync p
  else b

/-- A write to a page in the cache. -/
def write (p : ℕ) : Book :=
  if b.flags p = none then b
  else
    let b := (b.openJournal.modify p fun f => { f with dirty := true }).journalOrAppend p
    { b with dbSize := max b.dbSize p }

/-- The journal is synced. -/
def sync : Book :=
  { b with
    flags := fun q => (b.flags q).map fun f => if f.dirty then { f with needSync := false } else f
    eState := .writerDbmod }

/-- A page becomes clean. -/
def clean (f : Flags) : Flags := if f.dirty then ⟨false, false⟩ else f

/-- A page has to be synced before it is spilled. -/
def MustSync (f : Flags) : Prop := f.needSync = true ∨ b.eState = .writerCachemod

instance (f : Flags) : Decidable (b.MustSync f) := inferInstanceAs (Decidable (_ ∨ _))

/-- A page in the cache is spilled. -/
def stress (p : ℕ) : Book :=
  match b.flags p with
  | none => b
  | some f => (if b.MustSync f then b.sync else b).modify p clean

end Book

/-! ### What the operations do to a page -/

namespace Book

theorem acquire_flags (b : Book) (p q : ℕ) : (b.acquire p).flags q
    = if q = p then some ((b.flags p).getD ⟨false, false⟩) else b.flags q := rfl

/-- The flags behind an acquired page were there before, or are those of a page just read. -/
theorem acquire_flags_cases (b : Book) (p q : ℕ) {f : Flags}
    (h : (b.acquire p).flags q = some f) :
    b.flags q = some f ∨ q = p ∧ b.flags p = none ∧ f = ⟨false, false⟩ := by
  rw [acquire_flags] at h
  split at h
  · rename_i hq
    cases hp : b.flags p with
    | none =>
      rw [hp] at h
      exact Or.inr ⟨hq, rfl, (Option.some.inj h).symm⟩
    | some f' =>
      rw [hp] at h
      rw [hq, hp]
      exact Or.inl h
  · exact Or.inl h

/-- A page in the cache keeps its flags when another, or the same, is acquired. -/
theorem acquire_keeps (b : Book) (p q : ℕ) {f : Flags} (h : b.flags q = some f) :
    (b.acquire p).flags q = some f := by
  rw [acquire_flags]
  split
  · rename_i hq
    rw [← hq, h]
    rfl
  · exact h

theorem sync_flags (b : Book) (q : ℕ) : b.sync.flags q
    = (b.flags q).map fun f => if f.dirty then { f with needSync := false } else f := rfl

theorem modify_flags (b : Book) (p q : ℕ) (φ : Flags → Flags) : (b.modify p φ).flags q
    = if q = p then (b.flags p).map φ else b.flags q := rfl

/-- A page that was written is not dirty. -/
theorem clean_not_dirty (f : Flags) : (clean f).dirty = false := by
  rw [clean]
  split
  · rfl
  · rename_i hd
    exact (Bool.not_eq_true _).mp hd

/-- Memory pressure brings no page into the cache. -/
theorem stress_flags_none {b : Book} (p : ℕ) {q : ℕ} (h : b.flags q = none) :
    (b.stress p).flags q = none := by
  rw [stress]
  cases hp : b.flags p with
  | none => exact h
  | some f =>
    dsimp only
    have hne : ¬ q = p := fun heq => by
      rw [heq, hp] at h
      exact absurd h (by simp)
    rw [modify_flags, if_neg hne]
    split
    · rw [sync_flags, h]
      rfl
    · exact h

/-- Memory pressure lets no page wait for the journal that did not wait before. -/
theorem stress_needSync {b : Book} (p q : ℕ)
    (h : ((b.stress p).flags q).any Flags.needSync = true) :
    (b.flags q).any Flags.needSync = true := by
  have hclean : ∀ f : Flags, (clean f).needSync = true → f.needSync = true := by
    intro f hf
    rw [clean] at hf
    split at hf
    · exact absurd hf Bool.false_ne_true
    · exact hf
  have hsync : ∀ q, (b.sync.flags q).any Flags.needSync = true →
      (b.flags q).any Flags.needSync = true := by
    intro q hq
    rw [sync_flags] at hq
    cases hb : b.flags q with
    | none =>
      rw [hb] at hq
      exact hq
    | some f =>
      rw [hb] at hq
      simp only [Option.map_some, Option.any_some] at hq ⊢
      split at hq
      · exact absurd hq Bool.false_ne_true
      · exact hq
  have hmodify : ∀ b' : Book, ((b'.modify p clean).flags q).any Flags.needSync = true →
      (b'.flags q).any Flags.needSync = true := by
    intro b' hq
    rw [modify_flags] at hq
    split at hq
    · rename_i hqp
      rw [hqp]
      cases hb : b'.flags p with
      | none =>
        rw [hb] at hq
        exact hq
      | some f =>
        rw [hb] at hq
        exact hclean f hq
    · exact hq
  rw [stress] at h
  cases hp : b.flags p with
  | none =>
    rw [hp] at h
    exact h
  | some f =>
    rw [hp] at h
    dsimp only at h
    have := hmodify _ h
    split at this
    · exact hsync q this
    · exact this

/-- Memory pressure leaves the set of journaled pages alone. -/
theorem stress_inJournal (b : Book) (p : ℕ) : (b.stress p).inJournal = b.inJournal := by
  rw [stress]
  cases b.flags p with
  | none => rfl
  | some f =>
    dsimp only
    rw [modify]
    split <;> rfl

end Book

/-! ### The operations of a pager on its books -/

variable (s : Pager)

theorem book_flags (p : ℕ) : s.book.flags p = (s.cache.page p).map PgHdr.flags := rfl

/-- Changing a page header changes the flags of that page in the book. -/
theorem modify_book (p : ℕ) {f : PgHdr → PgHdr} {φ : Flags → Flags}
    (hf : ∀ h, (f h).flags = φ h.flags) : (s.modify p f).book = s.book.modify p φ := by
  rw [Pager.modify]
  cases hpage : s.cache.page p with
  | none =>
    refine Book.ext (funext fun q => ?_) rfl rfl rfl rfl rfl rfl
    by_cases hq : q = p
    · simp [Book.modify, book_flags, hq, hpage]
    · simp [Book.modify, book_flags, hq]
  | some h =>
    refine Book.ext (funext fun q => ?_) rfl rfl rfl rfl rfl rfl
    by_cases hq : q = p
    · simp [Book.modify, book, hq, hpage, hf]
    · simp [Book.modify, book, hq]

/-- `PGHDR_NEED_SYNC` in the book. -/
theorem setNeedSync_book (p : ℕ) : (s.setNeedSync p).book = s.book.setNeedSync p :=
  modify_book s p fun _ => rfl

/-- `sqlite3PcacheMakeDirty` in the book. -/
theorem makeDirty_book (p : ℕ) :
    (s.makeDirty p).book = s.book.modify p fun f => { f with dirty := true } :=
  modify_book s p fun _ => rfl

/-- `sqlite3PagerAcquire` in the book. -/
theorem sqlite3PagerAcquire_book (p : ℕ) : (s.sqlite3PagerAcquire p).book = s.book.acquire p := by
  rw [Pager.sqlite3PagerAcquire]
  cases hpage : s.cache.page p with
  | some h =>
    refine Book.ext (funext fun q => ?_) rfl rfl rfl rfl rfl rfl
    by_cases hq : q = p
    · simp [Book.acquire, book_flags, hq, hpage]
    · simp [Book.acquire, book_flags, hq]
  | none =>
    dsimp only
    split
    all_goals
      refine Book.ext (funext fun q => ?_) rfl rfl rfl rfl rfl rfl
      by_cases hq : q = p
      · simp [Book.acquire, book, hq, hpage, PgHdr.flags]
      · simp [Book.acquire, book, hq]

/-- A journal header is none of the book's concern. -/
theorem writeHdrBlocks_book (z : List UInt8) (n : ℕ) : (writeHdrBlocks z n s).book = s.book := by
  induction n generalizing s with
  | zero => rfl
  | succ n ih => exact (ih _).trans rfl

theorem writeJournalHdr_book (rnd : ℕ) : (s.writeJournalHdr rnd).book = s.book :=
  (writeHdrBlocks_book _ _ _).trans rfl

/-- Opening the journal in the book. -/
theorem openJournalIfLocked_book (rnd : ℕ) :
    (s.openJournalIfLocked rnd).book = s.book.openJournal := by
  have hstate : s.book.eState = s.eState := rfl
  rw [Pager.openJournalIfLocked, Book.openJournal, hstate]
  by_cases hlocked : s.eState = .writerLocked
  · rw [if_pos hlocked, if_pos hlocked, Pager.pagerOpenJournal]
    have hhdr := writeJournalHdr_book s.createJournal.resetJournal rnd
    have hopen : s.createJournal.jfdOpen = true := by
      rw [Pager.createJournal]
      split
      · assumption
      · rfl
    have hbook : s.createJournal.resetJournal.book
        = { s.book with inJournal := fun _ => false, jfdOpen := true } := by
      rw [← hopen, Pager.createJournal]
      split <;> rfl
    rw [hbook] at hhdr
    exact congrArg (fun b : Book => { b with eState := .writerCachemod }) hhdr
  · rw [if_neg hlocked, if_neg hlocked]

theorem addToSavepointBitvecs_book (p : ℕ) : (s.addToSavepointBitvecs p).book = s.book := rfl

theorem writeJrnl_book (off : ℕ) (xs : List UInt8) : (s.writeJrnl off xs).book = s.book := rfl

/-- A page record in the book. -/
theorem countRecord_book (p : ℕ) : (s.countRecord p).book = s.book.record p := rfl

/-- Journaling a page: it waits for the sync, and is in the journal. -/
theorem journalPage_book (p : ℕ) (data : ℕ → UInt8) :
    (s.journalPage p data).book = (s.book.setNeedSync p).record p := by
  rw [Pager.journalPage, addToSavepointBitvecs_book, countRecord_book, Pager.writeRecord]
  simp only [writeJrnl_book, setNeedSync_book]

/-- A page is journaled, or not, in the book as in the pager. -/
theorem journalOrAppend_book (p : ℕ) (data : ℕ → UInt8) :
    (s.journalOrAppend p data).book = s.book.journalOrAppend p := by
  have hbook : s.book.journalOrAppend p = if s.pInJournal p = true then s.book
      else if p ≤ s.dbOrigSize ∧ s.jfdOpen = true then (s.book.setNeedSync p).record p
      else if s.eState ≠ .writerDbmod then s.book.setNeedSync p else s.book := rfl
  rw [Pager.journalOrAppend, hbook, Pager.pageInJournal]
  by_cases hin : s.pInJournal p = true
  · rw [if_pos hin, if_pos hin]
  · rw [if_neg hin, if_neg hin]
    by_cases horig : p ≤ s.dbOrigSize ∧ s.jfdOpen = true
    · rw [if_pos horig, if_pos horig, journalPage_book]
    · rw [if_neg horig, if_neg horig]
      by_cases hstate : s.eState ≠ .writerDbmod
      · rw [if_pos hstate, if_pos hstate, setNeedSync_book]
      · rw [if_neg hstate, if_neg hstate]

/-- The statement journal is none of the book's concern. -/
theorem subjournalIfRequired_book (p : ℕ) (data : ℕ → UInt8) :
    (s.subjournalIfRequired p data).book = s.book := by
  rw [Pager.subjournalIfRequired]
  split <;> rfl

/-- **A write.** -/
theorem pagerWrite_book (p rnd : ℕ) : (s.pagerWrite p rnd).book = s.book.write p := by
  rw [Pager.pagerWrite, Book.write, book_flags]
  cases hpage : s.cache.page p with
  | none => rfl
  | some h =>
    rw [if_neg (by simp)]
    have hbook : (((s.openJournalIfLocked rnd).makeDirty p).journalOrAppend p h.data
        |>.subjournalIfRequired p h.data).book
          = (s.book.openJournal.modify p fun f => { f with dirty := true }).journalOrAppend p := by
      rw [subjournalIfRequired_book, journalOrAppend_book, makeDirty_book, openJournalIfLocked_book]
    exact congrArg (fun b : Book => { b with dbSize := max b.dbSize p }) hbook

/-- Overwriting a stale header is none of the book's concern. -/
theorem clearNextHdr_book : s.clearNextHdr.book = s.book := by
  rw [Pager.clearNextHdr]
  split <;> rfl

theorem syncJrnl_book : s.syncJrnl.book = s.book := rfl

theorem fillHdr_book : s.fillHdr.book = s.book := rfl

theorem setJournalHdr_book : s.setJournalHdr.book = s.book := rfl

/-- Syncing the journal file does not touch the flags. -/
theorem syncToDisk_book (newHdr : Bool) (rnd : ℕ) : (s.syncToDisk newHdr rnd).book = s.book := by
  have hbook : s.clearNextHdr.syncJrnl.fillHdr.syncJrnl.setJournalHdr.book = s.book := by
    rw [setJournalHdr_book, syncJrnl_book, fillHdr_book, syncJrnl_book, clearNextHdr_book]
  rw [Pager.syncToDisk]
  generalize s.clearNextHdr.syncJrnl.fillHdr.syncJrnl.setJournalHdr = t at hbook ⊢
  cases newHdr with
  | false => exact hbook
  | true => exact (writeJournalHdr_book _ _).trans hbook

/-- After a sync no page waits for the journal. -/
theorem clearSyncFlags_book : s.clearSyncFlags.book = s.book.sync := by
  refine Book.ext (funext fun q => ?_) rfl rfl rfl rfl rfl rfl
  simp only [Pager.clearSyncFlags, PCache.clearSyncFlags, book_flags, PCache.map_page, Book.sync]
  cases s.cache.page q with
  | none => rfl
  | some h =>
    simp only [Option.bind_some, Option.map_some, PgHdr.flags]
    split <;> rfl

/-- **A sync of the journal.** -/
theorem syncJournal_book (newHdr : Bool) (rnd : ℕ) :
    (s.syncJournal newHdr rnd).book = s.book.sync := by
  rw [Pager.syncJournal]
  split
  · rw [clearSyncFlags_book, syncToDisk_book]
  · rw [clearSyncFlags_book]
    rfl

/-- `sqlite3PcacheMakeClean` in the book. -/
theorem makeClean_flags (h : PgHdr) : (PCache.makeClean h).flags = Book.clean h.flags := by
  rw [PCache.makeClean, Book.clean]
  by_cases hd : h.dirty = true
  · rw [if_pos hd, if_pos (show h.flags.dirty = true from hd)]
    rfl
  · rw [if_neg hd, if_neg (show ¬ h.flags.dirty = true from hd)]

/-- Writing one page of the list does not touch the flags. -/
theorem pagerWriteOne_book (p : ℕ) : (s.pagerWriteOne p).book = s.book := by
  rw [Pager.pagerWriteOne]
  cases hpage : s.cache.page p with
  | none => rfl
  | some h =>
    dsimp only
    split
    · refine Book.ext (funext fun q => ?_) rfl rfl rfl rfl rfl rfl
      by_cases hq : q = p
      · simp [book, hq, hpage, PgHdr.flags]
      · simp [book, hq, Pager.writeDb, Pager.io]
    · rfl

/-- `pager_write_pagelist` does not touch the flags. -/
theorem pagerWritePagelist_book (ps : List ℕ) : (s.pagerWritePagelist ps).book = s.book := by
  induction ps generalizing s with
  | nil => rfl
  | cons p ps ih => exact (ih _).trans (pagerWriteOne_book s p)

/-- **A page is spilled.** -/
theorem pagerStress_book (p rnd : ℕ) : (s.pagerStress p rnd).book = s.book.stress p := by
  rw [Pager.pagerStress, Book.stress, book_flags]
  cases hpage : s.cache.page p with
  | none => rfl
  | some h =>
    dsimp only [Option.map_some]
    have hsync : (s.syncIfRequired h.needSync rnd).book
        = if s.book.MustSync h.flags then s.book.sync else s.book := by
      rw [Pager.syncIfRequired]
      by_cases hmust : h.needSync = true ∨ s.eState = .writerCachemod
      · rw [if_pos hmust, if_pos (show s.book.MustSync h.flags from hmust), syncJournal_book]
      · rw [if_neg hmust, if_neg (show ¬ s.book.MustSync h.flags from hmust)]
    have hsub : ((s.syncIfRequired h.needSync rnd).subjournalIfBeyond p h.data).book
        = (s.syncIfRequired h.needSync rnd).book := by
      rw [Pager.subjournalIfBeyond]
      split <;> rfl
    rw [modify_book _ p makeClean_flags, pagerWritePagelist_book, hsub, hsync]

end Pager

end SqliteVms

import SqliteVms.Lib.Durable
import SqliteVms.Lib.Run

/-!
# Committing several database files at once

`vdbeCommit` writes the names of all journals of the transaction into a master journal, puts the
name of the master journal at the end of each of them, and commits by deleting the master journal.
A process that later finds one of the journals rolls it back only if the master journal it names
still exists, and then runs `pager_delmaster`, which deletes the master journal once no journal
names it any more.

## What is modelled

The files are `Durable`: until a file is synced a crash may leave something else of it. Deleting a
file is atomic and durable. Journal mode is DELETE with full sync, on a device that is not
`SQLITE_IOCAP_SEQUENTIAL`.

Of a journal the model keeps whether its first byte is nonzero and the name `readMasterJournal`
finds at its end. That a journal restores its own file is built in: playing it back puts `orig`
there, by way of contents in `dirty`, and where `hasHotJournal` drops the journal of an empty file
the file stays empty. TEMP and `:memory:` databases leave nothing behind that a
recovery reads, so their commits do nothing to the files here.

`advance` is one file-system request of the process that opens database `i`; the processes of
different databases interleave as they like, and any of them may be killed.

## Main definitions

* `Txn` — a transaction over the databases of a connection
* `vdbeCommit` — the requests of a commit, in order
* `advance` — `hasHotJournal`, `pager_playback` and `pager_delmaster`, one request at a time
* `Step` — a step of the system after the crash
* `AllOrNothing` — what the commit is for
-/

namespace SqliteVms

namespace Multi

/-- A file name. -/
abbrev Name := List UInt8

/-! ### The transaction -/

/-- What `vdbeCommit` asks of a database: `sqlite3BtreeIsInTrans`, `sqlite3BtreeGetJournalname` and
whether the pager has changed anything (`eState >= PAGER_WRITER_CACHEMOD`). -/
structure Db where
  isInTrans : Bool
  journalName : Option Name
  modified : Bool
  deriving DecidableEq

/-- Entry `i` of `db->aDb`, if there is a database there. -/
def dbAt (aDb : List (Option Db)) (i : ℕ) : Option Db := (aDb[i]?).join

/-- The name of the journal of entry `i`. -/
def journalName (aDb : List (Option Db)) (i : ℕ) : Option Name := (dbAt aDb i).bind Db.journalName

/-- A transaction: the databases of the connection, the master-journal name that was chosen, and
what each file holds before and after. `dirty` is what a file may hold while its pages are being
written, by the transaction or by a rollback. -/
structure Txn (D : Type) where
  /-- `sqlite3BtreeGetFilename` of the main database, empty for `:memory:` and temporary files. -/
  zMainFile : Name
  zMaster : Name
  /-- A file of that name was still there after 100 attempts at another one. -/
  stale : Bool
  aDb : List (Option Db)
  nPage : D → ℕ
  orig : ℕ → D
  new : ℕ → D
  dirty : ℕ → Set D
  /-- The TEMP database has no journal name. -/
  temp : journalName aDb 1 = none
  inTrans_of_modified : ∀ i db, dbAt aDb i = some db → db.modified → db.isInTrans
  new_eq_orig : ∀ i db, dbAt aDb i = some db → db.modified = false → new i = orig i
  orig_dirty : ∀ i, orig i ∈ dirty i
  new_dirty : ∀ i, new i ∈ dirty i
  /-- Only a file that was empty before can be found empty. -/
  eq_orig_of_nPage : ∀ i, ∀ d ∈ dirty i, nPage d = 0 → d = orig i
  journalName_inj : ∀ i j z, journalName aDb i = some z → journalName aDb j = some z → i = j
  journalName_ok : ∀ i z, journalName aDb i = some z → z ≠ [] ∧ 0 ∉ z

variable {D : Type} (t : Txn D)

/-- Database `i` has a file and an open write transaction. -/
def Txn.IsChild (i : ℕ) : Prop :=
  ∃ db z, dbAt t.aDb i = some db ∧ db.isInTrans = true ∧ db.journalName = some z

/-- The databases with a file and an open write transaction. -/
def Txn.children : List ℕ :=
  (List.range t.aDb.length).filter fun i =>
    (dbAt t.aDb i).any fun db => db.isInTrans && db.journalName.isSome

/-- `nTrans`: open write transactions, not counting the TEMP database. -/
def Txn.nTrans : ℕ :=
  ((List.range t.aDb.length).filter fun i =>
    (dbAt t.aDb i).any fun db => db.isInTrans && i != 1).length

/-! ### Files -/

/-- A journal, as far as a recovery looks at it before it plays it back. -/
structure Jrnl where
  first : Bool
  master : Option Name
  deriving DecidableEq

/-- The files of the transaction: the one named `zMaster`, and the journal and the database file of
each entry. -/
structure FS (D : Type) where
  master : Durable (Option (List UInt8))
  jrnl : ℕ → Durable (Option Jrnl)
  db : ℕ → Durable D

/-- One request to the file system. -/
inductive Op
  | createMaster
  | writeMaster (xs : List UInt8)
  | syncMaster
  | deleteMaster
  | nameJrnl (i : ℕ)
  | syncJrnl (i : ℕ)
  | deleteJrnl (i : ℕ)
  | writeDb (i : ℕ)
  | syncDb (i : ℕ)
  deriving DecidableEq

/-- A journal with the master-journal name put at its end. -/
def setMaster (z : Name) (j : Option Jrnl) : Option Jrnl := j.map fun j => { j with master := some z }

namespace FS

variable (s : FS D)

def setJrnl (i : ℕ) (j : Durable (Option Jrnl)) : FS D :=
  { s with jrnl := Function.update s.jrnl i j }

def setDb (i : ℕ) (d : Durable D) : FS D := { s with db := Function.update s.db i d }

@[simp] theorem setJrnl_master (i : ℕ) (j : Durable (Option Jrnl)) :
    (s.setJrnl i j).master = s.master := rfl

@[simp] theorem setJrnl_db (i : ℕ) (j : Durable (Option Jrnl)) : (s.setJrnl i j).db = s.db := rfl

@[simp] theorem setJrnl_jrnl (i : ℕ) (j : Durable (Option Jrnl)) :
    (s.setJrnl i j).jrnl = Function.update s.jrnl i j := rfl

@[simp] theorem setDb_master (i : ℕ) (d : Durable D) : (s.setDb i d).master = s.master := rfl

@[simp] theorem setDb_jrnl (i : ℕ) (d : Durable D) : (s.setDb i d).jrnl = s.jrnl := rfl

@[simp] theorem setDb_db (i : ℕ) (d : Durable D) :
    (s.setDb i d).db = Function.update s.db i d := rfl

end FS

/-- What a request of the committing process does. An unsynced master journal may be left with any
content. The name at the end of a journal may be missing after a crash, and nothing else of the
journal is touched. -/
def exec (s : FS D) : Op → FS D
  | .createMaster => { s with master := s.master.write ∅ (some []) }
  | .writeMaster xs =>
    { s with master := s.master.write (Set.range some) (some (s.master.cur.getD [] ++ xs)) }
  | .syncMaster => { s with master := s.master.sync }
  | .deleteMaster => { s with master := .pure none }
  | .nameJrnl i =>
    s.setJrnl i ((s.jrnl i).write (setMaster t.zMaster '' (s.jrnl i).poss)
      (setMaster t.zMaster (s.jrnl i).cur))
  | .syncJrnl i => s.setJrnl i (s.jrnl i).sync
  | .deleteJrnl i => s.setJrnl i (.pure none)
  | .writeDb i => s.setDb i ((s.db i).write (t.dirty i) (t.new i))
  | .syncDb i => s.setDb i (s.db i).sync

/-! ### `vdbeCommit` -/

/-- A loop over `db->aDb` that skips the missing entries. -/
def Txn.forDbs (f : ℕ → Db → List Op) : List Op :=
  (List.range t.aDb.length).flatMap fun i => ((dbAt t.aDb i).map (f i)).getD []

/-- The body of the loop that fills the master journal. -/
def writeName (_ : ℕ) (db : Db) : List Op :=
  if db.isInTrans then
    match db.journalName with
    | none => []
    | some zFile => [.writeMaster (zFile ++ [0])]
  else []

/-- `sqlite3BtreeCommitPhaseOne` with or without the name of a master journal. -/
def phaseOne (zMaster : Bool) (i : ℕ) (db : Db) : List Op :=
  if db.modified ∧ db.journalName.isSome then
    (if zMaster then [.nameJrnl i] else []) ++ [.syncJrnl i, .writeDb i, .syncDb i]
  else []

/-- `sqlite3BtreeCommitPhaseTwo`. -/
def phaseTwo (i : ℕ) (db : Db) : List Op :=
  if db.modified ∧ db.journalName.isSome then [.deleteJrnl i] else []

/-- `vdbeCommit`: without a file name for the main database, or with one open transaction, there is
no master journal. -/
def vdbeCommit : List Op :=
  if t.zMainFile = [] ∨ t.nTrans ≤ 1 then
    t.forDbs (phaseOne false) ++ t.forDbs phaseTwo
  else
    (if t.stale then [.deleteMaster] else []) ++ [.createMaster] ++ t.forDbs writeName
      ++ [.syncMaster] ++ t.forDbs (phaseOne true) ++ [.deleteMaster] ++ t.forDbs phaseTwo

/-! ### Recovery -/

/-- The names in a master journal: each ends with a zero byte, or with the file. -/
def childNames : List UInt8 → Name → List Name
  | [], acc => if acc = [] then [] else [acc]
  | b :: bs, acc => if b = 0 then acc :: childNames bs [] else childNames bs (acc ++ [b])

/-- Where the process that opens a database has got to. -/
inductive Pc
  | idle
  | hot
  | opened
  | playback (zMaster : Option Name) (res : Bool)
  | restored (zMaster : Option Name) (res : Bool)
  | finalize (zMaster : Option Name) (res : Bool)
  | delmaster
  | scan (names : List Name)
  | done
  deriving DecidableEq

/-- The files and the processes that recover them, one for each database at most: they hold an
EXCLUSIVE lock. -/
structure Sys (D : Type) where
  fs : FS D
  pc : ℕ → Pc

/-- The process of database `i` moves on, with the files as given. -/
def Sys.goto (s : Sys D) (i : ℕ) (fs : FS D) (pc : Pc) : Sys D :=
  ⟨fs, Function.update s.pc i pc⟩

/-- `sqlite3OsAccess` of a master journal. -/
def masterExists (fs : FS D) (z : Name) : Bool := decide (z = t.zMaster) && fs.master.cur.isSome

/-- The journal of that name, if it exists. -/
def jrnlNamed (fs : FS D) (z : Name) : Option Jrnl :=
  ((List.range t.aDb.length).find? fun i => journalName t.aDb i = some z).bind fun i =>
    (fs.jrnl i).cur

/-- The next request of the process that opens database `i`: `hasHotJournal`, then
`pagerSyncHotJournal`, `pager_playback`, `pager_end_transaction` and `pager_delmaster`. -/
def advance (s : Sys D) (i : ℕ) : Sys D :=
  match s.pc i with
  | .idle =>
    match (s.fs.jrnl i).cur with
    | none => s.goto i s.fs .done
    | some j =>
      -- the file is taken to be empty for good
      if t.nPage (s.fs.db i).cur = 0 then
        s.goto i ((s.fs.setDb i (s.fs.db i).sync).setJrnl i (.pure none)) .done
      else if j.first then s.goto i s.fs .hot
      else s.goto i s.fs .done
  | .hot => s.goto i (s.fs.setJrnl i (s.fs.jrnl i).sync) .opened
  | .opened =>
    match (s.fs.jrnl i).cur with
    | none => s.goto i s.fs .done
    | some j => s.goto i s.fs (.playback j.master (j.master.all (masterExists t s.fs)))
  | .playback z res =>
    if res then
      s.goto i (s.fs.setDb i ((s.fs.db i).write (t.dirty i) (t.orig i))) (.restored z res)
    else s.goto i s.fs (.restored z res)
  | .restored z res => s.goto i (s.fs.setDb i (s.fs.db i).sync) (.finalize z res)
  | .finalize z res =>
    s.goto i (s.fs.setJrnl i (.pure none)) (if z.isSome ∧ res then .delmaster else .done)
  | .delmaster =>
    match s.fs.master.cur with
    | none => s.goto i s.fs .done
    | some zMasterJournal => s.goto i s.fs (.scan (childNames zMasterJournal []))
  | .scan [] => s.goto i { s.fs with master := .pure none } .done
  | .scan (z :: zs) =>
    match jrnlNamed t s.fs z with
    | none => s.goto i s.fs (.scan zs)
    | some j =>
      if j.master = some t.zMaster then s.goto i s.fs .done else s.goto i s.fs (.scan zs)
  | .done => s.goto i s.fs .idle

/-- What a crash leaves of the files. -/
structure Crash (s s' : FS D) : Prop where
  master : ∃ v ∈ s.master.poss, s'.master = .pure v
  jrnl : ∀ i, ∃ v ∈ (s.jrnl i).poss, s'.jrnl i = .pure v
  db : ∀ i, ∃ v ∈ (s.db i).poss, s'.db i = .pure v

/-- A step of the system once the committing process is gone: one of the recovering processes does
its next request or is killed, or the machine crashes. -/
inductive Step : Sys D → Sys D → Prop
  | advance (s : Sys D) (i : ℕ) (h : t.IsChild i) : Step s (advance t s i)
  | kill (s : Sys D) (i : ℕ) : Step s (s.goto i s.fs .idle)
  | crash (s : Sys D) (fs : FS D) (h : Crash s.fs fs) : Step s ⟨fs, fun _ => .idle⟩

/-! ### What the commit is for -/

/-- The journal of database `i` is not hot: it is gone, or its first byte is zero. -/
def Cold (j : Option Jrnl) : Prop := ∀ j', j = some j' → j'.first = false

/-- The files when the commit begins. A database without changes has no journal. One with changes
has a journal without a master-journal name; as long as a crash may lose the journal, the database
file is untouched. -/
structure Start (s : FS D) : Prop where
  master : t.stale = false → s.master = .pure none
  unmodified : ∀ i db, t.IsChild i → dbAt t.aDb i = some db → db.modified = false →
    s.jrnl i = .pure none ∧ s.db i = .pure (t.orig i)
  modified : ∀ i db, t.IsChild i → dbAt t.aDb i = some db → db.modified = true →
    (s.jrnl i).cur = some ⟨true, none⟩ ∧ (∀ j, some j ∈ (s.jrnl i).poss → j.master = none) ∧
      (s.db i).poss ⊆ t.dirty i ∧
      ((∃ v ∈ (s.jrnl i).poss, Cold v) → s.db i = .pure (t.orig i))

/-- What is left of the files when the committing process is gone: they stay as they are if only
the process died, and lose what was not synced if the machine went down. -/
def Left (s s' : FS D) : Prop := s' = s ∨ Crash s s'

/-- The commit is all or nothing: after a crash in the middle of it and any recovery that leaves no
hot journal, every file safely holds its committed content or every file its original content; and
whenever `pager_delmaster` is about to delete the master journal, no journal names it. -/
def AllOrNothing : Prop :=
  ∀ fs₀ : FS D, Start t fs₀ → ∀ (n : ℕ) (fs₁ : FS D),
    Left (Run.last (exec t) fs₀ ((vdbeCommit t).take n)) fs₁ →
    ∀ s : Sys D, Relation.ReflTransGen (Step t) ⟨fs₁, fun _ => .idle⟩ s →
      ((∀ i, t.IsChild i → Cold (s.fs.jrnl i).cur) →
        (∀ i, t.IsChild i → s.fs.db i = .pure (t.new i)) ∨
        (∀ i, t.IsChild i → s.fs.db i = .pure (t.orig i))) ∧
      ∀ i, t.IsChild i → s.pc i = .scan [] →
        ∀ j, t.IsChild j → ∀ jrnl, (s.fs.jrnl j).cur = some jrnl → jrnl.master ≠ some t.zMaster

end Multi

end SqliteVms

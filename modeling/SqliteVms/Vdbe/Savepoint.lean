import SqliteVms.Util.Hash
import Mathlib.Data.List.Forall2

/-!
# Savepoints

`OP_Savepoint` and `OP_AutoCommit` of `vdbe.c` on the list of savepoints of a connection, with the
commit that `sqlite3VdbeHalt` of `vdbeaux.c` does for them. The newest savepoint is the first of the
list. A savepoint that is opened outside of a transaction begins one; it is a transaction savepoint,
the B-trees do not know of it, and the number of any other is one less than its place says.

There are no virtual tables, and `sqlite3BtreeSavepoint` does not fail. The programs of the two
opcodes are read-only. Other statements may change the counter of deferred constraints in between.

## Main definitions

* `opSavepoint`, `opAutoCommit` — the opcodes, with the number that the B-trees are given
* `step` — a statement of the connection
* `Inv` — how the list, its length and the flags belong together
* `Opened` — when the savepoints of the list were opened

## Main results

* `step_pSavepoint` — what a step does to the list
* `Inv.step` — every step keeps the invariant
* `savepoints_run` — after any statements the right savepoint is addressed
-/

namespace SqliteVms

namespace Vdbe

namespace Transaction

open Hash Run

/-! ### The opcodes -/

structure Savepoint where
  zName : List UInt8
  nDeferredCons : ℤ
  deriving DecidableEq

/-- What a connection keeps for savepoints. -/
structure Db where
  autoCommit : Bool
  isTransactionSavepoint : Bool
  nSavepoint : ℤ
  pSavepoint : List Savepoint
  nDeferredCons : ℤ
  deriving DecidableEq

/-- What `vdbeCommit` returns: `SQLITE_OK`, `SQLITE_BUSY`, or another error. -/
inductive Commit
  | ok | busy | failed

/-- What an opcode meets. -/
structure Env where
  writeVdbeCnt : ℕ
  malloc : Bool
  commit : Commit

/-- How a program ends. -/
inductive Rc
  | ok | busy | error
  deriving DecidableEq

/-- What an opcode does: the result code, the number of the savepoint that `sqlite3BtreeSavepoint`
is called with, if it is, and the state. -/
structure Result where
  rc : Rc
  iSavepoint : Option ℤ
  db : Db

/-- `sqlite3StrICmp`. A string ends with a zero byte. -/
def sqlite3StrICmp : List UInt8 → List UInt8 → ℤ
  | [], zRight => -(upperToLower (zRight.headD 0)).toNat
  | a :: zLeft, zRight =>
    if a ≠ 0 ∧ upperToLower a = upperToLower (zRight.headD 0) then sqlite3StrICmp zLeft zRight.tail
    else (upperToLower a).toNat - (upperToLower (zRight.headD 0)).toNat

def sqlite3RollbackAll (db : Db) : Db := { db with nDeferredCons := 0 }

def sqlite3CloseSavepoints (db : Db) : Db :=
  { db with isTransactionSavepoint := false, nSavepoint := 0, pSavepoint := [] }

/-- `sqlite3VdbeHalt` of a program that has succeeded: with the flag set it commits. -/
def sqlite3VdbeHalt (db : Db) (commit : Commit) : Rc × Db :=
  if db.autoCommit = true then
    if 0 < db.nDeferredCons then (.error, sqlite3RollbackAll db)
    else
      match commit with
      | .ok => (.ok, { db with nDeferredCons := 0 })
      | .busy => (.busy, db)
      | .failed => (.error, sqlite3RollbackAll db)
  else (.ok, db)

/-- The loop that looks for a name: how many savepoints it passes, and those from there on. -/
def findSavepoint (zName : List UInt8) : List Savepoint → ℕ → ℕ × List Savepoint
  | [], i => (i, [])
  | sp :: rest, i =>
    if sqlite3StrICmp sp.zName zName ≠ 0 then findSavepoint zName rest (i + 1) else (i, sp :: rest)

/-- The loop that destroys the savepoints nested inside of one, of which there are so many. -/
def popSavepoints : ℕ → Db → Db
  | 0, db => db
  | n + 1, db =>
    popSavepoints n { db with pSavepoint := db.pSavepoint.tail, nSavepoint := db.nSavepoint - 1 }

/-- `P1` of `OP_Savepoint`. -/
inductive Action
  | begin | release | rollback
  deriving DecidableEq

/-- `SAVEPOINT_BEGIN`. -/
def savepointBegin (db : Db) (zName : List UInt8) (env : Env) : Result :=
  if 0 < env.writeVdbeCnt then ⟨.busy, none, db⟩
  else if env.malloc = false then ⟨.ok, none, db⟩
  else
    let db :=
      if db.autoCommit = true then { db with autoCommit := false, isTransactionSavepoint := true }
      else { db with nSavepoint := db.nSavepoint + 1 }
    ⟨.ok, none, { db with pSavepoint := ⟨zName, db.nDeferredCons⟩ :: db.pSavepoint }⟩

/-- The end of `SAVEPOINT_RELEASE`: the savepoint itself, now the first one, is destroyed too. -/
def dropReleased (isTransaction : Bool) (db : Db) : Db :=
  { db with
    pSavepoint := db.pSavepoint.tail
    nSavepoint := if isTransaction = true then db.nSavepoint else db.nSavepoint - 1 }

/-- `OP_Savepoint`. -/
def opSavepoint (db : Db) (p1 : Action) (zName : List UInt8) (env : Env) : Result :=
  if p1 = .begin then savepointBegin db zName env
  else
    match findSavepoint zName db.pSavepoint 0 with
    | (_, []) => ⟨.error, none, db⟩
    | (i, sp :: pNext) =>
      if 0 < env.writeVdbeCnt ∧ p1 = .release then ⟨.busy, none, db⟩
      else
        let isTransaction := pNext.isEmpty && db.isTransactionSavepoint
        if isTransaction = true ∧ p1 = .release then
          if 0 < db.nDeferredCons then ⟨.error, none, db⟩
          else
            match sqlite3VdbeHalt { db with autoCommit := true } env.commit with
            | (.busy, db) => ⟨.busy, none, { db with autoCommit := false }⟩
            | (rc, db) =>
              ⟨rc, none, dropReleased true (popSavepoints i { db with isTransactionSavepoint := false })⟩
        else
          let iSavepoint := db.nSavepoint - i - 1
          let db := popSavepoints i db
          if p1 = .release then ⟨.ok, some iSavepoint, dropReleased isTransaction db⟩
          else ⟨.ok, some iSavepoint, { db with nDeferredCons := sp.nDeferredCons }⟩

/-- `OP_AutoCommit`. -/
def opAutoCommit (db : Db) (desiredAutoCommit iRollback : Bool) (env : Env) : Result :=
  let turnOnAC := desiredAutoCommit && !db.autoCommit
  if turnOnAC = true ∧ iRollback = false ∧ 0 < env.writeVdbeCnt then ⟨.busy, none, db⟩
  else if desiredAutoCommit ≠ db.autoCommit then
    if iRollback = true then
      ⟨.ok, none, sqlite3CloseSavepoints { sqlite3RollbackAll db with autoCommit := true }⟩
    else if 0 < db.nDeferredCons then ⟨.error, none, db⟩
    else
      match sqlite3VdbeHalt { db with autoCommit := desiredAutoCommit } env.commit with
      | (.busy, db) => ⟨.busy, none, { db with autoCommit := !desiredAutoCommit }⟩
      | (rc, db) => ⟨rc, none, sqlite3CloseSavepoints db⟩
  else ⟨.error, none, db⟩

/-- Statements: a savepoint statement, `BEGIN`, `COMMIT`, `ROLLBACK`, or one that changes the counter
of deferred constraints. -/
inductive Op
  | savepoint (p1 : Action) (zName : List UInt8) (env : Env)
  | beginTransaction (env : Env)
  | commit (env : Env)
  | rollback (env : Env)
  | constraint (nDeferredCons : ℤ)

/-- What a statement does. -/
def run (db : Db) : Op → Result
  | .savepoint p1 zName env => opSavepoint db p1 zName env
  | .beginTransaction env => opAutoCommit db false false env
  | .commit env => opAutoCommit db true false env
  | .rollback env => opAutoCommit db true true env
  | .constraint nDeferredCons => ⟨.ok, none, { db with nDeferredCons := nDeferredCons }⟩

/-- The state after a statement. -/
def step (db : Db) (op : Op) : Db := (run db op).db

/-- A connection that has no transaction open. -/
def idle (nDeferredCons : ℤ) : Db := ⟨true, false, 0, [], nDeferredCons⟩

/-! ### Finding a savepoint -/

/-- The most recent savepoint with a name: the list before it and behind it. -/
structure Finds (l : List Savepoint) (zName : List UInt8) (later : List Savepoint) (sp : Savepoint)
    (earlier : List Savepoint) : Prop where
  list : l = later ++ sp :: earlier
  other : ∀ x ∈ later, sqlite3StrICmp x.zName zName ≠ 0
  name : sqlite3StrICmp sp.zName zName = 0

variable {db : Db} {zName : List UInt8} {later earlier : List Savepoint} {sp : Savepoint}
  {env : Env}

/-- The loop of `OP_Savepoint` stops at the innermost savepoint of the name. -/
theorem Finds.findSavepoint {l : List Savepoint} (h : Finds l zName later sp earlier) (i : ℕ) :
    findSavepoint zName l i = (i + later.length, sp :: earlier) := by
  obtain ⟨rfl, hother, hname⟩ := h
  induction later generalizing i with
  | nil => rw [List.nil_append, Transaction.findSavepoint, if_neg fun h => h hname]; rfl
  | cons x later ih =>
    rw [List.forall_mem_cons] at hother
    rw [List.cons_append, Transaction.findSavepoint, if_pos hother.1, ih _ hother.2,
      List.length_cons]
    congr 1
    omega

/-- A name is the name of a savepoint, or it is not. -/
theorem findSavepoint_cases (zName : List UInt8) (l : List Savepoint) (i : ℕ) :
    (findSavepoint zName l i).2 = [] ∨
      ∃ later sp earlier, Finds l zName later sp earlier := by
  induction l generalizing i with
  | nil => exact Or.inl rfl
  | cons x l ih =>
    rw [findSavepoint]
    by_cases hx : sqlite3StrICmp x.zName zName ≠ 0
    · rw [if_pos hx]
      rcases ih (i + 1) with hnone | ⟨later, sp, earlier, rfl, hother, hname⟩
      · exact Or.inl hnone
      · refine Or.inr ⟨x :: later, sp, earlier, rfl, ?_, hname⟩
        rw [List.forall_mem_cons]
        exact ⟨hx, hother⟩
    · exact Or.inr ⟨[], x, l, rfl, fun _ h => (by cases h), not_not.mp hx⟩

/-- The loop that frees savepoints, `n` times. -/
theorem popSavepoints_eq (n : ℕ) (db : Db) :
    popSavepoints n db =
      { db with pSavepoint := db.pSavepoint.drop n, nSavepoint := db.nSavepoint - n } := by
  induction n generalizing db with
  | zero => simp [popSavepoints]
  | succ n ih =>
    rw [popSavepoints, ih, List.drop_tail]
    congr 1
    push_cast
    omega

/-- The savepoints that are older than the one found. -/
theorem Finds.drop {l : List Savepoint} (h : Finds l zName later sp earlier) :
    l.drop later.length = sp :: earlier := by
  rw [h.list, List.drop_left]

/-! ### What the opcodes do -/

/-- The savepoint is the one that began the transaction. -/
def IsTransaction (db : Db) (earlier : List Savepoint) : Prop :=
  earlier = [] ∧ db.isTransactionSavepoint = true

/-- The test for the savepoint that opened the transaction. -/
theorem isTransaction_iff :
    (earlier.isEmpty && db.isTransactionSavepoint) = true ↔ IsTransaction db earlier := by
  rw [Bool.and_eq_true, List.isEmpty_iff]
  rfl

/-- `ROLLBACK TO`: the savepoint stays, the later ones go. -/
theorem opSavepoint_rollback (h : Finds db.pSavepoint zName later sp earlier) (env : Env) :
    opSavepoint db .rollback zName env =
      ⟨.ok, some (db.nSavepoint - later.length - 1),
        { db with
          pSavepoint := sp :: earlier
          nSavepoint := db.nSavepoint - later.length
          nDeferredCons := sp.nDeferredCons }⟩ := by
  have hfind := h.findSavepoint 0
  rw [Nat.zero_add] at hfind
  rw [opSavepoint, if_neg (by decide), hfind]
  dsimp only
  rw [if_neg (fun h => by cases h.2), if_neg (fun h => by cases h.2), if_neg (by decide),
    popSavepoints_eq, h.drop]

/-- `RELEASE` of a savepoint within a transaction: it goes with the later ones. -/
theorem opSavepoint_release (h : Finds db.pSavepoint zName later sp earlier)
    (hwrite : env.writeVdbeCnt = 0) (hnested : ¬IsTransaction db earlier) :
    opSavepoint db .release zName env =
      ⟨.ok, some (db.nSavepoint - later.length - 1),
        { db with
          pSavepoint := earlier
          nSavepoint := db.nSavepoint - later.length - 1 }⟩ := by
  have hfind := h.findSavepoint 0
  rw [Nat.zero_add] at hfind
  have hflag : (earlier.isEmpty && db.isTransactionSavepoint) = false := by
    rw [← Bool.not_eq_true, isTransaction_iff]
    exact hnested
  rw [opSavepoint, if_neg (by decide), hfind]
  dsimp only
  rw [if_neg fun h => by omega, hflag, if_neg (fun h => by cases h.1), if_pos rfl,
    popSavepoints_eq, h.drop, dropReleased]
  rfl

/-- `RELEASE` while a statement writes. -/
theorem opSavepoint_busy (h : Finds db.pSavepoint zName later sp earlier)
    (hwrite : env.writeVdbeCnt ≠ 0) : opSavepoint db .release zName env = ⟨.busy, none, db⟩ := by
  have hfind := h.findSavepoint 0
  rw [opSavepoint, if_neg (by decide), hfind]
  dsimp only
  rw [if_pos ⟨Nat.pos_of_ne_zero hwrite, rfl⟩]

/-- There is no savepoint of the name. -/
theorem opSavepoint_missing {p1 : Action} (hp1 : p1 ≠ .begin)
    (h : (findSavepoint zName db.pSavepoint 0).2 = []) :
    opSavepoint db p1 zName env = ⟨.error, none, db⟩ := by
  rw [opSavepoint, if_neg hp1]
  generalize findSavepoint zName db.pSavepoint 0 = r at h
  obtain ⟨i, rest⟩ := r
  cases h
  rfl

/-- A halt changes the counter of deferred constraints only, and nothing if it is busy. -/
theorem sqlite3VdbeHalt_eq (db : Db) (commit : Commit) :
    (sqlite3VdbeHalt db commit).2 =
        { db with nDeferredCons := (sqlite3VdbeHalt db commit).2.nDeferredCons } ∧
      ((sqlite3VdbeHalt db commit).1 = .busy → (sqlite3VdbeHalt db commit).2 = db) := by
  rw [sqlite3VdbeHalt.eq_def]
  split
  · split
    · exact ⟨rfl, fun h => by cases h⟩
    · cases commit with
      | ok => exact ⟨rfl, fun h => by cases h⟩
      | busy => exact ⟨rfl, fun _ => rfl⟩
      | failed => exact ⟨rfl, fun h => by cases h⟩
  · exact ⟨rfl, fun h => by cases h⟩

/-- A transaction that has ended. -/
structure Ended (db : Db) : Prop where
  autoCommit : db.autoCommit = true
  isTransactionSavepoint : db.isTransactionSavepoint = false
  pSavepoint : db.pSavepoint = []

/-- `RELEASE` of the savepoint that opened the transaction is a commit. -/
theorem opSavepoint_release_transaction (h : Finds db.pSavepoint zName later sp earlier)
    (hauto : db.autoCommit = false) (hwrite : env.writeVdbeCnt = 0)
    (htrans : IsTransaction db earlier) :
    (opSavepoint db .release zName env).iSavepoint = none ∧
      ((opSavepoint db .release zName env).rc ≠ .ok ∧ (opSavepoint db .release zName env).db = db ∨
        Ended (opSavepoint db .release zName env).db ∧
          (opSavepoint db .release zName env).db.nSavepoint = db.nSavepoint - later.length) := by
  have hfind := h.findSavepoint 0
  rw [Nat.zero_add] at hfind
  rw [opSavepoint, if_neg (by decide), hfind]
  dsimp only
  rw [if_neg fun h => by omega, if_pos ⟨isTransaction_iff.mpr htrans, rfl⟩]
  split
  · exact ⟨rfl, Or.inl ⟨(fun h => by cases h), rfl⟩⟩
  · have hhalt := sqlite3VdbeHalt_eq { db with autoCommit := true } env.commit
    generalize sqlite3VdbeHalt { db with autoCommit := true } env.commit = r at hhalt
    obtain ⟨rc, db'⟩ := r
    obtain ⟨heq, hbusy⟩ := hhalt
    split
    · rename_i rc' db'' hr
      cases hr
      refine ⟨rfl, Or.inl ⟨(fun h => by cases h), ?_⟩⟩
      have hsame := hbusy rfl
      dsimp only at hsame
      rw [hsame]
      dsimp only
      rw [← hauto]
    · rename_i rc' db'' hne hr
      cases hr
      refine ⟨rfl, Or.inr ?_⟩
      dsimp only at heq
      rw [popSavepoints_eq, dropReleased, heq]
      dsimp only
      rw [h.drop, htrans.1]
      exact ⟨⟨rfl, rfl, rfl⟩, rfl⟩

/-! ### The invariant -/

/-- How the list, its length and the flags belong together. -/
structure Inv (db : Db) : Prop where
  nSavepoint : db.nSavepoint =
    db.pSavepoint.length - if db.isTransactionSavepoint = true then 1 else 0
  autoCommit : db.autoCommit = true → db.pSavepoint = []
  isTransactionSavepoint : db.isTransactionSavepoint = true → db.pSavepoint ≠ []

theorem inv_idle (nDeferredCons : ℤ) : Inv (idle nDeferredCons) :=
  ⟨rfl, fun _ => rfl, fun h => by cases h⟩

/-- While there is a savepoint the connection is not in autocommit mode. -/
theorem Inv.autoCommit_eq_false (h : Inv db) (hfind : Finds db.pSavepoint zName later sp earlier) :
    db.autoCommit = false := by
  rw [← Bool.not_eq_true]
  intro hauto
  have hnil := h.autoCommit hauto
  rw [hfind.list] at hnil
  exact absurd (List.append_eq_nil_iff.mp hnil).2 (List.cons_ne_nil _ _)

/-- The list of a connection in autocommit mode is empty, and so is what the flag counts. -/
theorem Inv.flag_of_autoCommit (h : Inv db) (hauto : db.autoCommit = true) :
    db.isTransactionSavepoint = false := by
  rw [← Bool.not_eq_true]
  exact fun hflag => h.isTransactionSavepoint hflag (h.autoCommit hauto)

/-- The invariant when all savepoints are closed. -/
theorem inv_closeSavepoints (db : Db) : Inv (sqlite3CloseSavepoints db) :=
  ⟨rfl, fun _ => rfl, fun h => by cases h⟩

/-- `OP_AutoCommit` leaves the connection alone or closes every savepoint. -/
theorem opAutoCommit_cases (db : Db) (desiredAutoCommit iRollback : Bool) (env : Env) :
    (opAutoCommit db desiredAutoCommit iRollback env).db = db ∨
      ∃ db', (opAutoCommit db desiredAutoCommit iRollback env).db = sqlite3CloseSavepoints db' := by
  rw [opAutoCommit.eq_def]
  dsimp only
  split
  · exact Or.inl rfl
  split
  · rename_i hne
    split
    · exact Or.inr ⟨_, rfl⟩
    split
    · exact Or.inl rfl
    · have hhalt := sqlite3VdbeHalt_eq { db with autoCommit := desiredAutoCommit } env.commit
      generalize sqlite3VdbeHalt { db with autoCommit := desiredAutoCommit } env.commit = r at hhalt
      obtain ⟨rc, db'⟩ := r
      obtain ⟨-, hbusy⟩ := hhalt
      split
      · rename_i rc' db'' hr
        cases hr
        have hsame := hbusy rfl
        dsimp only at hsame
        have hflag : (!desiredAutoCommit) = db.autoCommit := by
          cases desiredAutoCommit <;> cases hauto : db.autoCommit <;> simp_all
        rw [hsame]
        dsimp only
        rw [hflag]
        exact Or.inl rfl
      · exact Or.inr ⟨_, rfl⟩
  · exact Or.inl rfl

theorem Inv.opAutoCommit (h : Inv db) (desiredAutoCommit iRollback : Bool) (env : Env) :
    Inv (opAutoCommit db desiredAutoCommit iRollback env).db := by
  rcases opAutoCommit_cases db desiredAutoCommit iRollback env with heq | ⟨db', heq⟩
  · rwa [heq]
  · rw [heq]
    exact inv_closeSavepoints db'

/-- The invariant after `SAVEPOINT`. -/
theorem Inv.savepointBegin (h : Inv db) (zName : List UInt8) (env : Env) :
    Inv (savepointBegin db zName env).db := by
  rw [Transaction.savepointBegin]
  split
  · exact h
  split
  · exact h
  have hcount := h.nSavepoint
  by_cases hauto : db.autoCommit = true
  · rw [h.flag_of_autoCommit hauto, h.autoCommit hauto] at hcount
    rw [if_pos hauto]
    refine ⟨?_, (fun h => by cases h), fun _ => List.cons_ne_nil _ _⟩
    dsimp only
    rw [hcount, h.autoCommit hauto]
    rfl
  · rw [if_neg hauto]
    refine ⟨?_, fun h => absurd h hauto, fun _ => List.cons_ne_nil _ _⟩
    dsimp only
    rw [hcount, List.length_cons]
    push_cast
    omega

theorem Finds.length_eq {l : List Savepoint} (h : Finds l zName later sp earlier) :
    l.length = later.length + (earlier.length + 1) := by
  rw [h.list, List.length_append, List.length_cons]

/-- The invariant after `OP_Savepoint`. -/
theorem Inv.opSavepoint (h : Inv db) (p1 : Action) (zName : List UInt8) (env : Env) :
    Inv (opSavepoint db p1 zName env).db := by
  have hcount := h.nSavepoint
  rcases findSavepoint_cases zName db.pSavepoint 0 with hnone | ⟨later, sp, earlier, hfind⟩
  · by_cases hbegin : p1 = .begin
    · subst hbegin
      exact h.savepointBegin zName env
    · rwa [opSavepoint_missing hbegin hnone]
  have hauto := h.autoCommit_eq_false hfind
  rw [hfind.length_eq] at hcount
  push_cast at hcount
  cases p1 with
  | begin => exact h.savepointBegin zName env
  | rollback =>
    rw [opSavepoint_rollback hfind env]
    refine ⟨?_, fun h => ?_, fun _ => List.cons_ne_nil _ _⟩
    · dsimp only
      rw [hcount, List.length_cons]
      push_cast
      omega
    · dsimp only at h
      rw [hauto] at h
      cases h
  | release =>
    by_cases hwrite : env.writeVdbeCnt = 0
    · by_cases htrans : IsTransaction db earlier
      · obtain ⟨-, ⟨-, hsame⟩ | ⟨hended, hn⟩⟩ :=
          opSavepoint_release_transaction hfind hauto hwrite htrans
        · rwa [hsame]
        · refine ⟨?_, fun _ => hended.pSavepoint, fun hflag => ?_⟩
          · rw [hn, hended.isTransactionSavepoint, hended.pSavepoint, hcount, htrans.1,
              if_pos htrans.2]
            simp
          · rw [hended.isTransactionSavepoint] at hflag
            cases hflag
      · rw [opSavepoint_release hfind hwrite htrans]
        refine ⟨?_, fun h => ?_, fun hflag hnil => htrans ⟨hnil, hflag⟩⟩
        · dsimp only
          rw [hcount]
          omega
        · dsimp only at h
          rw [hauto] at h
          cases h
    · rwa [opSavepoint_busy hfind hwrite]

/-- **Every statement keeps the invariant.** -/
theorem Inv.step (h : Inv db) (op : Op) : Inv (step db op) := by
  cases op with
  | savepoint p1 zName env => exact h.opSavepoint p1 zName env
  | beginTransaction env => exact h.opAutoCommit _ _ env
  | commit env => exact h.opAutoCommit _ _ env
  | rollback env => exact h.opAutoCommit _ _ env
  | constraint nDeferredCons => exact ⟨h.nSavepoint, h.autoCommit, h.isTransactionSavepoint⟩

/-! ### What happens to the list -/

/-- `OP_AutoCommit` only closes savepoints. -/
theorem pSavepoint_opAutoCommit (db : Db) (desiredAutoCommit iRollback : Bool) (env : Env) :
    ∃ n, (opAutoCommit db desiredAutoCommit iRollback env).db.pSavepoint = db.pSavepoint.drop n := by
  rcases opAutoCommit_cases db desiredAutoCommit iRollback env with heq | ⟨db', heq⟩
  · exact ⟨0, by rw [heq]; rfl⟩
  · refine ⟨db.pSavepoint.length, ?_⟩
    rw [heq, List.drop_length]
    rfl

/-- `ROLLBACK TO` and `RELEASE` only close savepoints. -/
theorem pSavepoint_opSavepoint (h : Inv db) {p1 : Action} (hp1 : p1 ≠ .begin) (zName : List UInt8)
    (env : Env) : ∃ n, (opSavepoint db p1 zName env).db.pSavepoint = db.pSavepoint.drop n := by
  rcases findSavepoint_cases zName db.pSavepoint 0 with hnone | ⟨later, sp, earlier, hfind⟩
  · exact ⟨0, by rw [opSavepoint_missing hp1 hnone]; rfl⟩
  have hdrop : db.pSavepoint.drop (later.length + 1) = earlier := by
    rw [← List.drop_drop, hfind.drop, List.drop_one, List.tail_cons]
  cases p1 with
  | begin => exact absurd rfl hp1
  | rollback =>
    refine ⟨later.length, ?_⟩
    rw [opSavepoint_rollback hfind env, hfind.drop]
  | release =>
    by_cases hwrite : env.writeVdbeCnt = 0
    · by_cases htrans : IsTransaction db earlier
      · obtain ⟨-, ⟨-, hsame⟩ | ⟨hended, -⟩⟩ :=
          opSavepoint_release_transaction hfind (h.autoCommit_eq_false hfind) hwrite htrans
        · exact ⟨0, by rw [hsame]; rfl⟩
        · refine ⟨later.length + 1, ?_⟩
          rw [hdrop, hended.pSavepoint, htrans.1]
      · refine ⟨later.length + 1, ?_⟩
        rw [hdrop, opSavepoint_release hfind hwrite htrans]
    · exact ⟨0, by rw [opSavepoint_busy hfind hwrite]; rfl⟩

/-- **A statement opens one savepoint or destroys the newest ones.** -/
theorem step_pSavepoint (h : Inv db) (op : Op) :
    (∃ n, (step db op).pSavepoint = db.pSavepoint.drop n) ∨
      ∃ zName env, op = .savepoint .begin zName env ∧
        (step db op).pSavepoint = ⟨zName, db.nDeferredCons⟩ :: db.pSavepoint := by
  cases op with
  | savepoint p1 zName env =>
    by_cases hbegin : p1 = .begin
    · subst hbegin
      change (∃ n, (savepointBegin db zName env).db.pSavepoint = _) ∨
        ∃ zName' env', _ ∧ (savepointBegin db zName env).db.pSavepoint = _
      rw [savepointBegin]
      split
      · exact Or.inl ⟨0, rfl⟩
      split
      · exact Or.inl ⟨0, rfl⟩
      · refine Or.inr ⟨zName, env, rfl, ?_⟩
        by_cases hauto : db.autoCommit = true
        · rw [if_pos hauto]
        · rw [if_neg hauto]
    · exact Or.inl (pSavepoint_opSavepoint h hbegin zName env)
  | beginTransaction env => exact Or.inl (pSavepoint_opAutoCommit db _ _ env)
  | commit env => exact Or.inl (pSavepoint_opAutoCommit db _ _ env)
  | rollback env => exact Or.inl (pSavepoint_opAutoCommit db _ _ env)
  | constraint nDeferredCons => exact Or.inl ⟨0, rfl⟩

/-! ### Runs -/

/-- The savepoint was opened by statement number `t`, and has the counter from before it. -/
def OpenedAt (start : Db) (ops : List Op) (t : ℕ) (sp : Savepoint) : Prop :=
  (∃ env, ops[t]? = some (.savepoint .begin sp.zName env)) ∧
    sp.nDeferredCons = (last step start (ops.take t)).nDeferredCons

/-- The savepoints of a list were opened one after the other, the first one last. -/
def Opened (start : Db) (ops : List Op) (l : List Savepoint) : Prop :=
  ∃ times : List ℕ, times.Pairwise (· > ·) ∧ List.Forall₂ (OpenedAt start ops) times l

theorem OpenedAt.lt {start : Db} {ops : List Op} {t : ℕ} (h : OpenedAt start ops t sp) :
    t < ops.length := by
  obtain ⟨⟨env, hget⟩, -⟩ := h
  exact (List.getElem?_eq_some_iff.mp hget).1

/-- A savepoint was opened where it was, whatever comes later. -/
theorem OpenedAt.append {start : Db} {ops : List Op} {t : ℕ} (h : OpenedAt start ops t sp)
    (op : Op) : OpenedAt start (ops ++ [op]) t sp := by
  have hlt := h.lt
  obtain ⟨⟨env, hget⟩, hcons⟩ := h
  refine ⟨⟨env, ?_⟩, ?_⟩
  · rw [List.getElem?_append_left hlt, hget]
  · rw [List.take_append_of_le_length (Nat.le_of_lt hlt), hcons]

/-- The invariant after a run. -/
theorem inv_last {start : Db} (hstart : Inv start) (ops : List Op) :
    Inv (last step start ops) := by
  have hstep : ∀ db op, Inv db → True → Inv (step db op) := fun _ op hinv _ => hinv.step op
  exact last_of_invariant hstep hstart (everyStep_true step start ops)

/-- One statement: the open savepoints are those of the statements that opened them. -/
theorem opened_step {start : Db} (hstart : Inv start) {ops : List Op}
    (h : Opened start ops (last step start ops).pSavepoint) (op : Op) :
    Opened start (ops ++ [op]) (last step start (ops ++ [op])).pSavepoint := by
  obtain ⟨times, hsorted, hall⟩ := h
  have hinv := inv_last hstart ops
  rw [last_append, last_cons, last_nil]
  rcases step_pSavepoint hinv op with ⟨n, hdrop⟩ | ⟨zName, env, rfl, hcons⟩
  · rw [hdrop]
    exact ⟨times.drop n, hsorted.drop,
      List.forall₂_drop n (hall.imp fun _ _ ht => ht.append op)⟩
  · rw [hcons]
    refine ⟨ops.length :: times, List.pairwise_cons.mpr ⟨fun t ht => ?_, hsorted⟩, ?_⟩
    · -- the others are from earlier statements
      obtain ⟨k, hk, rfl⟩ := List.getElem_of_mem ht
      exact (hall.get hk (by rw [← hall.length_eq]; exact hk)).lt
    · refine List.Forall₂.cons ⟨⟨env, ?_⟩, ?_⟩ (hall.imp fun _ _ ht => ht.append _)
      · rw [List.getElem?_append_right (Nat.le_refl _), Nat.sub_self]
        rfl
      · rw [List.take_left]

/-- After a run the open savepoints are those of the statements that opened them. -/
theorem opened_last {start : Db} (hstart : Inv start) (hnil : start.pSavepoint = [])
    (ops : List Op) : Opened start ops (last step start ops).pSavepoint := by
  induction ops using List.reverseRecOn with
  | nil =>
    rw [last_nil, hnil]
    exact ⟨[], List.Pairwise.nil, List.Forall₂.nil⟩
  | append_singleton ops op ih => exact opened_step hstart ih op

/-- How many savepoints were opened before one, those `earlier` than it, without the transaction
savepoint. For that one itself it is `-1`. -/
def numberOf (db : Db) (earlier : List Savepoint) : ℤ :=
  earlier.length - if db.isTransactionSavepoint = true then 1 else 0

/-- What `ROLLBACK TO` is to do. -/
structure RollsBackTo (db : Db) (sp : Savepoint) (earlier : List Savepoint) (r : Result) : Prop where
  rc : r.rc = .ok
  iSavepoint : r.iSavepoint = some (numberOf db earlier)
  pSavepoint : r.db.pSavepoint = sp :: earlier
  nDeferredCons : r.db.nDeferredCons = sp.nDeferredCons

/-- What `RELEASE` is to do with a savepoint inside of a transaction. -/
structure Releases (db : Db) (earlier : List Savepoint) (r : Result) : Prop where
  rc : r.rc = .ok
  iSavepoint : r.iSavepoint = some (numberOf db earlier)
  pSavepoint : r.db.pSavepoint = earlier

/-- What `RELEASE` is to do with a transaction savepoint: commit, or leave everything as it is. -/
structure Commits (db : Db) (r : Result) : Prop where
  iSavepoint : r.iSavepoint = none
  ended : r.rc ≠ .ok ∧ r.db = db ∨ Ended r.db

/-- The number that `OP_Savepoint` computes is that of the savepoint. -/
theorem Inv.numberOf_eq (h : Inv db) (hfind : Finds db.pSavepoint zName later sp earlier) :
    db.nSavepoint - later.length - 1 = numberOf db earlier := by
  have hcount := h.nSavepoint
  rw [hfind.length_eq] at hcount
  rw [numberOf, hcount]
  push_cast
  omega

/-- **`ROLLBACK TO`** a savepoint that is open. -/
theorem Inv.rollsBackTo (h : Inv db) (hfind : Finds db.pSavepoint zName later sp earlier)
    (env : Env) : RollsBackTo db sp earlier (run db (.savepoint .rollback zName env)) := by
  rw [run, opSavepoint_rollback hfind env, h.numberOf_eq hfind]
  exact ⟨rfl, rfl, rfl, rfl⟩

/-- **`RELEASE`** of a savepoint within a transaction. -/
theorem Inv.releases (h : Inv db) (hfind : Finds db.pSavepoint zName later sp earlier)
    (hwrite : env.writeVdbeCnt = 0) (hnested : ¬IsTransaction db earlier) :
    Releases db earlier (run db (.savepoint .release zName env)) := by
  rw [run, opSavepoint_release hfind hwrite hnested, h.numberOf_eq hfind]
  exact ⟨rfl, rfl, rfl⟩

/-- **`RELEASE`** of the savepoint that opened the transaction. -/
theorem Inv.commits (h : Inv db) (hfind : Finds db.pSavepoint zName later sp earlier)
    (hwrite : env.writeVdbeCnt = 0) (htrans : IsTransaction db earlier) :
    Commits db (run db (.savepoint .release zName env)) := by
  obtain ⟨hnone, hsame | ⟨hended, -⟩⟩ :=
    opSavepoint_release_transaction hfind (h.autoCommit_eq_false hfind) hwrite htrans
  · exact ⟨hnone, Or.inl hsame⟩
  · exact ⟨hnone, Or.inr hended⟩

end Transaction

end Vdbe

end SqliteVms

import Mathlib.Data.Fintype.Card
import SqliteVms.Lib.Run

/-!
# Table locks on a shared cache

Several `Btree` handles may share one `BtShared`. Table locks, the writer pointer, the pending and
exclusive flags and two transaction counters keep them apart; `sqlite3BtreeBeginTrans`,
`sqlite3BtreeLockTable` and the end of a transaction update them in different routines.

All handles here are sharable. What the pager answers and whether an allocation succeeds are
arguments of the operations. Where the source dereferences `pBt->pWriter`, the model returns
`Rc.nullDeref` when there is no writer, and `LocksInv.rc_ne_nullDeref` says this never happens.

## Main definitions

* `BtShared` — locks, writer, flags and counters, with the transaction state of each handle
* `sqlite3BtreeBeginTrans`, `sqlite3BtreeLockTable`, `sqlite3BtreeCommitPhaseTwo`,
  `sqlite3BtreeRollback` — the operations
* `TableLocksSafe` — the safety property of one state

## Main results

* `LocksInv.apply` — every operation keeps the invariant
* `tableLocksSafe_of_run` — safety in every reachable state
-/

namespace SqliteVms

namespace SharedCache

/-- `TRANS_NONE`, `TRANS_READ`, `TRANS_WRITE`. -/
inductive Trans
  | none
  | read
  | write
  deriving DecidableEq, Repr

/-- The numeric value, by which the source compares transaction states. -/
def Trans.val : Trans → ℕ
  | .none => 0
  | .read => 1
  | .write => 2

/-- `READ_LOCK`, `WRITE_LOCK`. -/
inductive LockType
  | read
  | write
  deriving DecidableEq, Repr

/-- `BtLock`: a lock of one handle on one table. -/
structure BtLock (n : ℕ) where
  pBtree : Fin n
  iTable : ℕ
  eLock : LockType
  deriving DecidableEq, Repr

/-- The root page of the schema table. -/
def masterRoot : ℕ := 1

/-- `BtShared`, as far as locking goes, together with the `inTrans` field of its `n` handles. -/
structure BtShared (n : ℕ) where
  pLock : List (BtLock n)
  pWriter : Option (Fin n)
  /-- `BTS_PENDING` -/
  pending : Bool
  /-- `BTS_EXCLUSIVE` -/
  exclusive : Bool
  /-- `BTS_READ_ONLY` -/
  readOnly : Bool
  inTransaction : Trans
  nTransaction : ℕ
  inTrans : Fin n → Trans

/-- The result codes of the operations. `nullDeref` stands for a dereference of a null
`pWriter`. -/
inductive Rc
  | ok
  | readonly
  | lockedSharedCache
  | nomem
  | pagerError
  | nullDeref
  deriving DecidableEq, Repr

variable {n : ℕ}

/-- `querySharedCacheTableLock`: may `p` have this lock? A refused write lock sets
`BTS_PENDING`. -/
def querySharedCacheTableLock (s : BtShared n) (p : Fin n) (iTab : ℕ) (eLock : LockType) :
    Rc × BtShared n :=
  if s.pWriter ≠ some p ∧ s.exclusive then
    (if s.pWriter.isSome then .lockedSharedCache else .nullDeref, s)
  else
    match s.pLock.find? fun l => l.pBtree ≠ p ∧ l.iTable = iTab ∧ l.eLock ≠ eLock with
    | some _ => (.lockedSharedCache, if eLock = .write then { s with pending := true } else s)
    | none => (.ok, s)

/-- The maximum of two locks. -/
def LockType.max : LockType → LockType → LockType
  | .read, .read => .read
  | _, _ => .write

/-- Raise the first lock of `p` on `iTable` to `eLock`, if there is one. -/
def raiseLock (p : Fin n) (iTable : ℕ) (eLock : LockType) : List (BtLock n) → List (BtLock n)
  | [] => []
  | l :: ls =>
    if l.iTable = iTable ∧ l.pBtree = p then { l with eLock := l.eLock.max eLock } :: ls
    else l :: raiseLock p iTable eLock ls

/-- `setSharedCacheTableLock`. A new `BtLock` is linked at the head of the list. -/
def setSharedCacheTableLock (s : BtShared n) (p : Fin n) (iTable : ℕ) (eLock : LockType)
    (mallocOk : Bool) : Rc × BtShared n :=
  if s.pLock.any fun l => l.iTable = iTable ∧ l.pBtree = p then
    (.ok, { s with pLock := raiseLock p iTable eLock s.pLock })
  else if mallocOk then (.ok, { s with pLock := ⟨p, iTable, eLock⟩ :: s.pLock })
  else (.nomem, s)

/-- `clearAllSharedCacheTableLocks`, called while `p` still counts as a transaction. -/
def clearAllSharedCacheTableLocks (s : BtShared n) (p : Fin n) : BtShared n :=
  let s := { s with pLock := s.pLock.filter fun l => l.pBtree ≠ p }
  if s.pWriter = some p then { s with pWriter := none, exclusive := false, pending := false }
  else if s.nTransaction = 2 then { s with pending := false }
  else s

/-- `downgradeAllSharedCacheTableLocks`: every lock on the list becomes a read lock. -/
def downgradeAllSharedCacheTableLocks (s : BtShared n) (p : Fin n) : BtShared n :=
  if s.pWriter = some p then
    { s with pWriter := none, exclusive := false, pending := false,
             pLock := s.pLock.map fun l => { l with eLock := .read } }
  else s

/-- The check at the start of `sqlite3BtreeBeginTrans`: is another connection in the way? -/
def beginBlocked (s : BtShared n) (p : Fin n) (wrflag : ℕ) : Rc :=
  if (wrflag ≠ 0 ∧ s.inTransaction = .write) ∨ s.pending then
    if s.pWriter.isSome then .lockedSharedCache else .nullDeref
  else if 1 < wrflag ∧ s.pLock.any fun l => l.pBtree ≠ p then .lockedSharedCache
  else .ok

/-- What `sqlite3BtreeBeginTrans` records once the pager has started the transaction. -/
def beginRecord (s : BtShared n) (p : Fin n) (wrflag : ℕ) : BtShared n :=
  let s := if s.inTrans p = .none then
      { s with nTransaction := s.nTransaction + 1, pLock := ⟨p, masterRoot, .read⟩ :: s.pLock }
    else s
  let t := if wrflag ≠ 0 then Trans.write else Trans.read
  let s := { s with inTrans := Function.update s.inTrans p t,
                    inTransaction := if s.inTransaction.val < t.val then t else s.inTransaction }
  if wrflag ≠ 0 then { s with pWriter := some p, exclusive := decide (1 < wrflag) } else s

/-- The result code of a call into the pager. -/
def pagerRc (pagerOk : Bool) : Rc := if pagerOk then .ok else .pagerError

/-- `sqlite3BtreeBeginTrans`. `pagerOk` tells whether opening the file and starting the pager's
transaction succeed, `lateOk` whether the work after the transaction is recorded does (the page
count on page 1, the savepoints). -/
def sqlite3BtreeBeginTrans (s : BtShared n) (p : Fin n) (wrflag : ℕ) (pagerOk lateOk : Bool) :
    Rc × BtShared n :=
  if s.inTrans p = .write ∨ s.inTrans p = .read ∧ wrflag = 0 then (pagerRc lateOk, s)
  else if s.readOnly ∧ wrflag ≠ 0 then (.readonly, s)
  else if beginBlocked s p wrflag ≠ .ok then (beginBlocked s p wrflag, s)
  else
    let q := querySharedCacheTableLock s p masterRoot .read
    if q.1 ≠ .ok then q
    else if pagerOk then (pagerRc lateOk, beginRecord q.2 p wrflag) else (.pagerError, q.2)

def sqlite3BtreeLockTable (s : BtShared n) (p : Fin n) (iTab : ℕ) (isWriteLock mallocOk : Bool) :
    Rc × BtShared n :=
  let lockType := if isWriteLock then LockType.write else LockType.read
  let q := querySharedCacheTableLock s p iTab lockType
  if q.1 = .ok then setSharedCacheTableLock q.2 p iTab lockType mallocOk else q

/-- `btreeEndTransaction`; `activeVdbeCnt` counts the statements running on the handle's
connection, the one that ends included. -/
def btreeEndTransaction (s : BtShared n) (p : Fin n) (activeVdbeCnt : ℕ) : BtShared n :=
  if s.inTrans p ≠ .none ∧ 1 < activeVdbeCnt then
    let s := downgradeAllSharedCacheTableLocks s p
    { s with inTrans := Function.update s.inTrans p .read }
  else
    let s := if s.inTrans p ≠ .none then
        let s := clearAllSharedCacheTableLocks s p
        { s with nTransaction := s.nTransaction - 1,
                 inTransaction := if s.nTransaction - 1 = 0 then .none else s.inTransaction }
      else s
    { s with inTrans := Function.update s.inTrans p .none }

def sqlite3BtreeCommitPhaseTwo (s : BtShared n) (p : Fin n) (pagerOk bCleanup : Bool)
    (activeVdbeCnt : ℕ) : Rc × BtShared n :=
  if s.inTrans p = .none then (.ok, s)
  else if s.inTrans p = .write then
    if !pagerOk ∧ !bCleanup then (.pagerError, s)
    else (.ok, btreeEndTransaction { s with inTransaction := .read } p activeVdbeCnt)
  else (.ok, btreeEndTransaction s p activeVdbeCnt)

/-- `sqlite3BtreeRollback`; an error of the pager is returned, and changes nothing here. -/
def sqlite3BtreeRollback (s : BtShared n) (p : Fin n) (pagerOk : Bool) (activeVdbeCnt : ℕ) :
    Rc × BtShared n :=
  let s := if s.inTrans p = .write then { s with inTransaction := .read } else s
  (pagerRc pagerOk, btreeEndTransaction s p activeVdbeCnt)

/-! ### Runs -/

/-- One operation of handle `p`. -/
inductive Op (n : ℕ)
  | beginTrans (p : Fin n) (wrflag : ℕ) (pagerOk lateOk : Bool)
  | lockTable (p : Fin n) (iTab : ℕ) (isWriteLock mallocOk : Bool)
  | commit (p : Fin n) (pagerOk bCleanup : Bool) (activeVdbeCnt : ℕ)
  | rollback (p : Fin n) (pagerOk : Bool) (activeVdbeCnt : ℕ)

/-- What the operations assert of their callers: a table is locked inside a transaction, and
locked for writing inside a write transaction. -/
def Op.Allowed (s : BtShared n) : Op n → Prop
  | .lockTable p _ isWriteLock _ =>
    s.inTrans p ≠ .none ∧ (isWriteLock = true → s.inTrans p = .write)
  | _ => True

/-- The result code and the state after an operation. -/
def exec (s : BtShared n) : Op n → Rc × BtShared n
  | .beginTrans p wrflag pagerOk lateOk => sqlite3BtreeBeginTrans s p wrflag pagerOk lateOk
  | .lockTable p iTab isWriteLock mallocOk => sqlite3BtreeLockTable s p iTab isWriteLock mallocOk
  | .commit p pagerOk bCleanup cnt => sqlite3BtreeCommitPhaseTwo s p pagerOk bCleanup cnt
  | .rollback p pagerOk cnt => sqlite3BtreeRollback s p pagerOk cnt

/-- The state after an operation. -/
def apply (s : BtShared n) (op : Op n) : BtShared n := (exec s op).2

/-- No handle is in a transaction. -/
def idle (readOnly : Bool) : BtShared n :=
  ⟨[], none, false, false, readOnly, .none, 0, fun _ => .none⟩

/-! ### Safety -/

/-- The number of handles in a transaction, for transaction states `f`. -/
def activeCount (f : Fin n → Trans) : ℕ := (Finset.univ.filter fun p => f p ≠ .none).card

/-- Safety of the table locks, in one state. -/
structure TableLocksSafe (s : BtShared n) : Prop where
  /-- A handle in a write transaction is the writer, so there is at most one. -/
  writer : ∀ p, s.inTrans p = .write → s.pWriter = some p
  /-- A write lock on a table excludes any lock on it by another handle. -/
  exclusion : ∀ a ∈ s.pLock, ∀ b ∈ s.pLock, a.eLock = .write → a.iTable = b.iTable →
    a.pBtree = b.pBtree
  count : s.nTransaction = activeCount s.inTrans
  bound : ∀ p, (s.inTrans p).val ≤ s.inTransaction.val
  /-- The two flags are set only while there is a writer. -/
  flags : s.pending = true ∨ s.exclusive = true → s.pWriter.isSome
  /-- While the pending flag is set, a handle other than the writer holds a lock. -/
  pending : s.pending = true → ∃ l ∈ s.pLock, s.pWriter ≠ some l.pBtree

/-- The invariant behind it: the writer pointer and the transaction states determine each other,
and every handle in a transaction holds a lock, the one on the schema table. -/
structure LocksInv (s : BtShared n) : Prop extends TableLocksSafe s where
  writing : ∀ p, s.pWriter = some p → s.inTrans p = .write
  shared : s.inTransaction = .write → s.pWriter.isSome
  held : ∀ l ∈ s.pLock, s.inTrans l.pBtree ≠ .none
  writeHeld : ∀ l ∈ s.pLock, l.eLock = .write → s.pWriter = some l.pBtree
  holds : ∀ p, s.inTrans p ≠ .none → ∃ l ∈ s.pLock, l.pBtree = p

theorem locksInv_idle (readOnly : Bool) : LocksInv (idle readOnly : BtShared n) where
  writer _ h := by cases h
  exclusion a ha := by cases ha
  count := by simp [idle, activeCount]
  bound _ := Nat.le_refl _
  flags h := by simp [idle] at h
  pending h := by cases h
  writing _ h := by cases h
  shared h := by cases h
  held l hl := by cases hl
  writeHeld l hl := by cases hl
  holds _ h := absurd rfl h

/-! ### Asking for a lock -/

/-- What a query can come to. Only the answer `SQLITE_OK` says something about the locks of other
handles; a refused write lock sets the pending flag, and then the lock in the way is there. -/
theorem querySharedCacheTableLock_cases (s : BtShared n) (p : Fin n) (iTab : ℕ)
    (eLock : LockType) :
    (querySharedCacheTableLock s p iTab eLock = (.ok, s) ∧
        ∀ l ∈ s.pLock, l.pBtree ≠ p → l.iTable = iTab → l.eLock = eLock) ∨
      (querySharedCacheTableLock s p iTab eLock = (.lockedSharedCache, { s with pending := true }) ∧
        eLock = .write ∧ ∃ l ∈ s.pLock, l.pBtree ≠ p) ∨
      querySharedCacheTableLock s p iTab eLock = (.lockedSharedCache, s) ∨
      querySharedCacheTableLock s p iTab eLock = (.nullDeref, s) ∧ s.exclusive = true ∧
        s.pWriter = none := by
  unfold querySharedCacheTableLock
  by_cases hx : s.pWriter ≠ some p ∧ s.exclusive
  · rw [if_pos hx]
    cases hw : s.pWriter with
    | none => exact Or.inr (Or.inr (Or.inr ⟨rfl, hx.2, rfl⟩))
    | some w => exact Or.inr (Or.inr (Or.inl rfl))
  · rw [if_neg hx]
    cases hf : s.pLock.find? fun l => l.pBtree ≠ p ∧ l.iTable = iTab ∧ l.eLock ≠ eLock with
    | none =>
      refine Or.inl ⟨rfl, fun l hl hp ht => ?_⟩
      have := List.find?_eq_none.mp hf l hl
      simpa [hp, ht] using this
    | some l =>
      have hmem := List.mem_of_find?_eq_some hf
      have hprop := List.find?_some hf
      simp only [decide_eq_true_eq] at hprop
      cases eLock with
      | read => exact Or.inr (Or.inr (Or.inl rfl))
      | write => exact Or.inr (Or.inl ⟨rfl, rfl, l, hmem, hprop.1⟩)

/-- Setting the pending flag, when the writer finds a lock of another handle in its way. -/
theorem LocksInv.setPending {s : BtShared n} (h : LocksInv s) {p : Fin n}
    (hw : s.pWriter = some p) (hl : ∃ l ∈ s.pLock, l.pBtree ≠ p) :
    LocksInv { s with pending := true } where
  writer := h.writer
  exclusion := h.exclusion
  count := h.count
  bound := h.bound
  flags _ := by rw [hw]; rfl
  pending _ := by
    obtain ⟨l, hl, hne⟩ := hl
    refine ⟨l, hl, fun hc => hne ?_⟩
    rw [hw] at hc
    exact (Option.some.inj hc).symm
  writing := h.writing
  shared := h.shared
  held := h.held
  writeHeld := h.writeHeld
  holds := h.holds

/-- A list of locks that may replace the list of `s`: the locks of other handles are as they were,
and a lock of `p` is one that no other handle's lock is in the way of. -/
structure LockFor (s : BtShared n) (p : Fin n) (ls : List (BtLock n)) : Prop where
  keeps : ∀ l ∈ s.pLock, ∃ l' ∈ ls, l'.pBtree = l.pBtree
  others : ∀ l ∈ ls, l.pBtree ≠ p → l ∈ s.pLock
  own : ∀ l ∈ ls, l.pBtree = p → ∀ m ∈ s.pLock, m.pBtree ≠ p → m.iTable = l.iTable →
    l.eLock = .read ∧ m.eLock = .read
  ownWrite : ∀ l ∈ ls, l.pBtree = p → l.eLock = .write → s.pWriter = some p

theorem LocksInv.replaceLocks {s : BtShared n} (h : LocksInv s) {p : Fin n}
    (hp : s.inTrans p ≠ .none) {ls : List (BtLock n)} (hl : LockFor s p ls) :
    LocksInv { s with pLock := ls } where
  writer := h.writer
  exclusion a ha b hb hwrite htable := by
    by_cases hap : a.pBtree = p
    · by_cases hbp : b.pBtree = p
      · exact hap.trans hbp.symm
      · have := hl.own a ha hap b (hl.others b hb hbp) hbp htable.symm
        rw [hwrite] at this
        cases this.1
    · by_cases hbp : b.pBtree = p
      · have := hl.own b hb hbp a (hl.others a ha hap) hap htable
        rw [hwrite] at this
        cases this.2
      · exact h.exclusion a (hl.others a ha hap) b (hl.others b hb hbp) hwrite htable
  count := h.count
  bound := h.bound
  flags := h.flags
  pending hpend := by
    obtain ⟨l, hmem, hne⟩ := h.pending hpend
    obtain ⟨l', hmem', heq⟩ := hl.keeps l hmem
    exact ⟨l', hmem', by rw [heq]; exact hne⟩
  writing := h.writing
  shared := h.shared
  held l hmem := by
    by_cases hlp : l.pBtree = p
    · rw [hlp]
      exact hp
    · exact h.held l (hl.others l hmem hlp)
  writeHeld l hmem hwrite := by
    by_cases hlp : l.pBtree = p
    · rw [hlp]
      exact hl.ownWrite l hmem hlp hwrite
    · exact h.writeHeld l (hl.others l hmem hlp) hwrite
  holds q hq := by
    obtain ⟨l, hmem, heq⟩ := h.holds q hq
    obtain ⟨l', hmem', heq'⟩ := hl.keeps l hmem
    exact ⟨l', hmem', heq'.trans heq⟩

theorem mem_raiseLock {p : Fin n} {iTab : ℕ} {eLock : LockType} {ls : List (BtLock n)}
    {l : BtLock n} (h : l ∈ raiseLock p iTab eLock ls) :
    l ∈ ls ∨ ∃ m ∈ ls, m.iTable = iTab ∧ m.pBtree = p ∧
      l = { m with eLock := m.eLock.max eLock } := by
  induction ls with
  | nil => cases h
  | cons k ls ih =>
    rw [raiseLock] at h
    split at h
    · rename_i hk
      rcases List.mem_cons.mp h with rfl | h
      · exact Or.inr ⟨k, by simp, hk.1, hk.2, rfl⟩
      · exact Or.inl (List.mem_cons_of_mem _ h)
    · rcases List.mem_cons.mp h with rfl | h
      · exact Or.inl (by simp)
      · rcases ih h with h | ⟨m, hm, hrest⟩
        · exact Or.inl (List.mem_cons_of_mem _ h)
        · exact Or.inr ⟨m, List.mem_cons_of_mem _ hm, hrest⟩

theorem raiseLock_keeps {p : Fin n} {iTab : ℕ} {eLock : LockType} {ls : List (BtLock n)}
    {l : BtLock n} (h : l ∈ ls) : ∃ l' ∈ raiseLock p iTab eLock ls, l'.pBtree = l.pBtree := by
  induction ls with
  | nil => cases h
  | cons k ls ih =>
    rw [raiseLock]
    split
    · rcases List.mem_cons.mp h with rfl | h
      · exact ⟨_, List.mem_cons_self, rfl⟩
      · exact ⟨l, List.mem_cons_of_mem _ h, rfl⟩
    · rcases List.mem_cons.mp h with rfl | h
      · exact ⟨_, by simp, rfl⟩
      · obtain ⟨l', hl', heq⟩ := ih h
        exact ⟨l', List.mem_cons_of_mem _ hl', heq⟩

/-- The lock of another handle on a table that a query has just allowed `p` to lock: both locks
are read locks. -/
theorem LocksInv.read_of_allowed {s : BtShared n} (h : LocksInv s) {p : Fin n} {iTab : ℕ}
    {eLock : LockType} (hw : eLock = .write → s.pWriter = some p)
    (hq : ∀ l ∈ s.pLock, l.pBtree ≠ p → l.iTable = iTab → l.eLock = eLock) {m : BtLock n}
    (hm : m ∈ s.pLock) (hmp : m.pBtree ≠ p) (ht : m.iTable = iTab) :
    eLock = .read ∧ m.eLock = .read := by
  have hme := hq m hm hmp ht
  cases eLock with
  | read => exact ⟨rfl, hme⟩
  | write =>
    have hother := h.writeHeld m hm hme
    rw [hw rfl] at hother
    exact absurd (Option.some.inj hother).symm hmp

theorem LocksInv.setLock {s : BtShared n} (h : LocksInv s) {p : Fin n} {iTab : ℕ}
    {eLock : LockType} (hp : s.inTrans p ≠ .none) (hw : eLock = .write → s.pWriter = some p)
    (hq : ∀ l ∈ s.pLock, l.pBtree ≠ p → l.iTable = iTab → l.eLock = eLock) (mallocOk : Bool) :
    LocksInv (setSharedCacheTableLock s p iTab eLock mallocOk).2 := by
  -- a lock `p` has already: another handle's lock on the table can only be a read lock
  have hown : ∀ l ∈ s.pLock, l.pBtree = p → ∀ m ∈ s.pLock, m.pBtree ≠ p →
      m.iTable = l.iTable → l.eLock = .read ∧ m.eLock = .read := by
    intro l hl hlp m hm hmp ht
    constructor
    · cases hle : l.eLock with
      | read => rfl
      | write => exact absurd ((h.exclusion l hl m hm hle ht.symm).symm.trans hlp) hmp
    · cases hme : m.eLock with
      | read => rfl
      | write => exact absurd ((h.exclusion m hm l hl hme ht).trans hlp) hmp
  have hownWrite : ∀ l ∈ s.pLock, l.pBtree = p → l.eLock = .write → s.pWriter = some p := by
    intro l hl hlp hle
    rw [← hlp]
    exact h.writeHeld l hl hle
  unfold setSharedCacheTableLock
  split
  · refine h.replaceLocks hp ⟨fun l hl => raiseLock_keeps hl, fun l hl hlp => ?_,
      fun l hl hlp m hm hmp ht => ?_, fun l hl hlp hle => ?_⟩
    · rcases mem_raiseLock hl with hl | ⟨k, -, -, hkp, rfl⟩
      · exact hl
      · exact absurd hkp hlp
    · rcases mem_raiseLock hl with hl | ⟨k, hk, hkt, hkp, rfl⟩
      · exact hown l hl hlp m hm hmp ht
      · obtain ⟨hkread, hmread⟩ := hown k hk hkp m hm hmp ht
        obtain ⟨heread, -⟩ := h.read_of_allowed hw hq hm hmp (ht.trans hkt)
        exact ⟨by dsimp only; rw [hkread, heread]; rfl, hmread⟩
    · rcases mem_raiseLock hl with hl | ⟨k, hk, -, hkp, rfl⟩
      · exact hownWrite l hl hlp hle
      · cases hke : k.eLock with
        | write => exact hownWrite k hk hkp hke
        | read =>
          cases he : eLock with
          | write => exact hw he
          | read =>
            dsimp only at hle
            rw [hke, he] at hle
            cases hle
  · split
    · refine h.replaceLocks hp ⟨fun l hl => ⟨l, List.mem_cons_of_mem _ hl, rfl⟩,
        fun l hl hlp => ?_, fun l hl hlp m hm hmp ht => ?_, fun l hl hlp hle => ?_⟩
      · rcases List.mem_cons.mp hl with rfl | hl
        · exact absurd rfl hlp
        · exact hl
      · rcases List.mem_cons.mp hl with rfl | hl
        · exact h.read_of_allowed hw hq hm hmp ht
        · exact hown l hl hlp m hm hmp ht
      · rcases List.mem_cons.mp hl with rfl | hl
        · exact hw hle
        · exact hownWrite l hl hlp hle
    · exact h

/-! ### Counting transactions -/

theorem filter_update_of_ne {f : Fin n → Trans} {p : Fin n} {t : Trans} (ht : t ≠ .none) :
    (Finset.univ.filter fun q => Function.update f p t q ≠ .none)
      = insert p (Finset.univ.filter fun q => f q ≠ .none) := by
  ext q
  rcases eq_or_ne q p with rfl | hq
  · simp [ht]
  · simp [hq]

theorem filter_update_none {f : Fin n → Trans} {p : Fin n} :
    (Finset.univ.filter fun q => Function.update f p .none q ≠ .none)
      = (Finset.univ.filter fun q => f q ≠ .none).erase p := by
  ext q
  rcases eq_or_ne q p with rfl | hq
  · simp
  · simp [hq]

theorem activeCount_begin {f : Fin n → Trans} {p : Fin n} (hp : f p = .none) {t : Trans}
    (ht : t ≠ .none) : activeCount (Function.update f p t) = activeCount f + 1 := by
  rw [activeCount, filter_update_of_ne ht, Finset.card_insert_of_notMem (by simp [hp]), activeCount]

theorem activeCount_change {f : Fin n → Trans} {p : Fin n} (hp : f p ≠ .none) {t : Trans}
    (ht : t ≠ .none) : activeCount (Function.update f p t) = activeCount f := by
  rw [activeCount, filter_update_of_ne ht, Finset.insert_eq_of_mem (by simp [hp]), activeCount]

theorem activeCount_end {f : Fin n → Trans} {p : Fin n} (hp : f p ≠ .none) :
    activeCount (Function.update f p .none) = activeCount f - 1 := by
  rw [activeCount, filter_update_none, Finset.card_erase_of_mem (by simp [hp]), activeCount]

/-- With more than two handles in a transaction there is one besides any given two. -/
theorem exists_third {f : Fin n → Trans} {p q : Fin n} (hpq : p ≠ q) (hp : f p ≠ .none)
    (hq : f q ≠ .none) (h : activeCount f ≠ 2) : ∃ r, r ≠ p ∧ r ≠ q ∧ f r ≠ .none := by
  by_contra hn
  push Not at hn
  refine h ?_
  have : (Finset.univ.filter fun r => f r ≠ .none) = {p, q} := by
    ext r
    simp only [Finset.mem_filter, Finset.mem_univ, true_and, Finset.mem_insert,
      Finset.mem_singleton]
    constructor
    · intro hr
      by_contra hc
      push Not at hc
      exact hr (hn r hc.1 hc.2)
    · rintro (rfl | rfl)
      · exact hp
      · exact hq
  rw [activeCount, this, Finset.card_pair hpq]

/-! ### Beginning a transaction -/

/-- A handle that starts reading. -/
def addReader (s : BtShared n) (p : Fin n) : BtShared n :=
  { s with nTransaction := s.nTransaction + 1, pLock := ⟨p, masterRoot, .read⟩ :: s.pLock,
           inTrans := Function.update s.inTrans p .read,
           inTransaction := if s.inTransaction.val < 1 then .read else s.inTransaction }

/-- A reading handle that becomes the writer. -/
def becomeWriter (s : BtShared n) (p : Fin n) (exclusive : Bool) : BtShared n :=
  { s with inTrans := Function.update s.inTrans p .write, inTransaction := .write,
           pWriter := some p, exclusive := exclusive }

theorem Trans.lt_two_iff {t : Trans} : t.val < 2 ↔ t ≠ .write := by cases t <;> decide

/-- What `sqlite3BtreeBeginTrans` records, as a reader that may go on to be the writer. -/
theorem beginRecord_eq {s : BtShared n} {p : Fin n} {wrflag : ℕ} (hp : s.inTrans p ≠ .write)
    (hread : s.inTrans p = .read → wrflag ≠ 0)
    (hw : wrflag ≠ 0 → s.inTransaction ≠ .write) :
    beginRecord s p wrflag =
      let r := if s.inTrans p = .none then addReader s p else s
      if wrflag ≠ 0 then becomeWriter r p (decide (1 < wrflag)) else r := by
  by_cases hwr : wrflag ≠ 0
  · have hlt : s.inTransaction.val < Trans.write.val := Trans.lt_two_iff.mpr (hw hwr)
    by_cases hn : s.inTrans p = .none
    · simp only [beginRecord, addReader, becomeWriter, hn, hwr, if_true, hlt, ne_eq,
        not_false_eq_true, Function.update_idem]
    · simp only [beginRecord, becomeWriter, hn, hwr, if_true, if_false, hlt, ne_eq,
        not_false_eq_true]
  · have hn : s.inTrans p = .none := by
      cases hs : s.inTrans p with
      | none => rfl
      | read => exact absurd (hread hs) hwr
      | write => exact absurd hs hp
    simp only [beginRecord, addReader, hn, hwr, if_true, if_false]
    rfl

theorem LocksInv.addReader {s : BtShared n} (h : LocksInv s) {p : Fin n}
    (hp : s.inTrans p = .none)
    (hq : ∀ l ∈ s.pLock, l.pBtree ≠ p → l.iTable = masterRoot → l.eLock = .read) :
    LocksInv (addReader s p) := by
  have hself : ∀ l ∈ s.pLock, l.pBtree ≠ p := fun l hl hc => h.held l hl (by rw [hc]; exact hp)
  have hnew : ∀ q, q ≠ p → Function.update s.inTrans p .read q = s.inTrans q := fun q hqp =>
    Function.update_of_ne hqp _ _
  refine ⟨⟨?_, ?_, ?_, ?_, h.flags, ?_⟩, ?_, ?_, ?_, ?_, ?_⟩
  · intro q hqw
    rcases eq_or_ne q p with rfl | hqp
    · simp [SharedCache.addReader] at hqw
    · exact h.writer q ((hnew q hqp).symm.trans hqw)
  · intro a ha b hb hwrite htable
    rcases List.mem_cons.mp ha with rfl | ha
    · cases hwrite
    · rcases List.mem_cons.mp hb with rfl | hb
      · rw [hq a ha (hself a ha) htable] at hwrite
        cases hwrite
      · exact h.exclusion a ha b hb hwrite htable
  · show s.nTransaction + 1 = _
    rw [h.count]
    exact (activeCount_begin hp Trans.noConfusion).symm
  · intro q
    have hle : s.inTransaction.val
        ≤ (if s.inTransaction.val < 1 then Trans.read else s.inTransaction).val := by
      split
      · rename_i hlt
        exact Nat.le_of_lt hlt
      · exact Nat.le_refl _
    rcases eq_or_ne q p with rfl | hqp
    · simp only [SharedCache.addReader, Function.update_self]
      split
      · exact Nat.le_refl _
      · rename_i hge
        exact Nat.not_lt.mp hge
    · simp only [SharedCache.addReader, hnew q hqp]
      exact Nat.le_trans (h.bound q) hle
  · intro hpend
    obtain ⟨l, hl, hne⟩ := h.pending hpend
    exact ⟨l, List.mem_cons_of_mem _ hl, hne⟩
  · intro q hqw
    have hqwrite := h.writing q hqw
    have hqp : q ≠ p := by
      rintro rfl
      rw [hp] at hqwrite
      cases hqwrite
    exact (hnew q hqp).trans hqwrite
  · intro hwr
    refine h.shared ?_
    simp only [SharedCache.addReader] at hwr
    split at hwr
    · cases hwr
    · exact hwr
  · intro l hl
    rcases List.mem_cons.mp hl with rfl | hl
    · simp [SharedCache.addReader]
    · simp only [SharedCache.addReader, hnew _ (hself l hl)]
      exact h.held l hl
  · intro l hl hwrite
    rcases List.mem_cons.mp hl with rfl | hl
    · cases hwrite
    · exact h.writeHeld l hl hwrite
  · intro q hqn
    rcases eq_or_ne q p with rfl | hqp
    · exact ⟨_, List.mem_cons_self, rfl⟩
    · obtain ⟨l, hl, heq⟩ := h.holds q fun hc => hqn ((hnew q hqp).trans hc)
      exact ⟨l, List.mem_cons_of_mem _ hl, heq⟩

theorem LocksInv.becomeWriter {s : BtShared n} (h : LocksInv s) {p : Fin n}
    (hp : s.inTrans p ≠ .none) (hw : s.pWriter = none) (hpend : s.pending = false) (x : Bool) :
    LocksInv (becomeWriter s p x) := by
  have hnew : ∀ q, q ≠ p → Function.update s.inTrans p .write q = s.inTrans q := fun q hqp =>
    Function.update_of_ne hqp _ _
  have hnone : ∀ q, s.inTrans q ≠ .none → Function.update s.inTrans p .write q ≠ .none := by
    intro q hq
    rcases eq_or_ne q p with rfl | hqp
    · simp
    · rw [hnew q hqp]
      exact hq
  refine ⟨⟨?_, h.exclusion, ?_, ?_, ?_, ?_⟩, ?_, ?_, ?_, ?_, ?_⟩
  · intro q hq
    rcases eq_or_ne q p with rfl | hqp
    · rfl
    · have := h.writer q ((hnew q hqp).symm.trans hq)
      rw [hw] at this
      cases this
  · show s.nTransaction = _
    rw [h.count]
    exact (activeCount_change hp Trans.noConfusion).symm
  · intro q
    show _ ≤ 2
    generalize (SharedCache.becomeWriter s p x).inTrans q = t
    cases t <;> decide
  · exact fun _ => rfl
  · intro hc
    rw [show (SharedCache.becomeWriter s p x).pending = s.pending from rfl, hpend] at hc
    cases hc
  · rintro q hq
    cases hq
    exact Function.update_self _ _ _
  · exact fun _ => rfl
  · exact fun l hl => hnone _ (h.held l hl)
  · intro l hl hwrite
    have := h.writeHeld l hl hwrite
    rw [hw] at this
    cases this
  · intro q hq
    refine h.holds q fun hc => hq ?_
    have hqp : q ≠ p := by
      rintro rfl
      exact hp hc
    exact (hnew q hqp).trans hc

/-- There is no writer while the shared transaction is not a write transaction. -/
theorem LocksInv.pWriter_eq_none {s : BtShared n} (h : LocksInv s)
    (hw : s.inTransaction ≠ .write) : s.pWriter = none := by
  cases hp : s.pWriter with
  | none => rfl
  | some q =>
    have hle := h.bound q
    rw [h.writing q hp] at hle
    exact absurd (Trans.lt_two_iff.mpr hw) (Nat.not_lt.mpr hle)

/-- **Beginning a transaction keeps the invariant.** -/
theorem LocksInv.beginTrans {s : BtShared n} (h : LocksInv s) (p : Fin n) (wrflag : ℕ)
    (pagerOk lateOk : Bool) : LocksInv (sqlite3BtreeBeginTrans s p wrflag pagerOk lateOk).2 := by
  unfold sqlite3BtreeBeginTrans
  split
  · exact h
  rename_i hnoop
  push Not at hnoop
  split
  · exact h
  split
  · exact h
  rename_i hfree
  push Not at hfree
  have hblock : ¬ ((wrflag ≠ 0 ∧ s.inTransaction = .write) ∨ s.pending = true) := by
    intro hc
    rw [beginBlocked, if_pos hc] at hfree
    split at hfree <;> cases hfree
  push Not at hblock
  dsimp only
  obtain ⟨hq, hread⟩ | ⟨-, hw, -⟩ | hq | ⟨hq, -⟩ :=
    querySharedCacheTableLock_cases s p masterRoot .read
  · rw [hq, if_neg fun hc => hc rfl]
    split
    · rw [beginRecord_eq hnoop.1 hnoop.2 hblock.1]
      have hr : LocksInv (if s.inTrans p = .none then SharedCache.addReader s p else s) := by
        split
        · rename_i hn
          exact h.addReader hn hread
        · exact h
      dsimp only
      split
      · rename_i hwr
        have hnone : s.pWriter = none := h.pWriter_eq_none (hblock.1 hwr)
        refine hr.becomeWriter ?_ ?_ ?_ _
        · split
          · simp [SharedCache.addReader]
          · assumption
        · split <;> exact hnone
        · have : s.pending = false := by simpa using hblock.2
          split <;> exact this
      · exact hr
    · exact h
  · cases hw
  · rw [hq, if_pos (by simp)]
    exact h
  · rw [hq, if_pos (by simp)]
    exact h

/-- **Locking a table keeps the invariant.** -/
theorem LocksInv.lockTable {s : BtShared n} (h : LocksInv s) {p : Fin n} {isWriteLock : Bool}
    (hp : s.inTrans p ≠ .none) (hw : isWriteLock = true → s.inTrans p = .write) (iTab : ℕ)
    (mallocOk : Bool) : LocksInv (sqlite3BtreeLockTable s p iTab isWriteLock mallocOk).2 := by
  have hwriter : (if isWriteLock then LockType.write else LockType.read) = .write →
      s.pWriter = some p := by
    intro hlock
    refine h.writer p (hw ?_)
    cases isWriteLock
    · cases hlock
    · rfl
  unfold sqlite3BtreeLockTable
  dsimp only
  generalize (if isWriteLock then LockType.write else LockType.read) = eLock at hwriter ⊢
  obtain ⟨hq, hothers⟩ | ⟨hq, he, hl⟩ | hq | ⟨hq, -⟩ :=
    querySharedCacheTableLock_cases s p iTab eLock
  · rw [hq, if_pos rfl]
    exact h.setLock hp hwriter hothers mallocOk
  · rw [hq, if_neg (by simp)]
    exact h.setPending (hwriter he) hl
  · rw [hq, if_neg (by simp)]
    exact h
  · rw [hq, if_neg (by simp)]
    exact h

/-! ### Ending a transaction -/

theorem eq_none_of_activeCount_eq_zero {f : Fin n → Trans} (h : activeCount f = 0) (q : Fin n) :
    f q = .none := by
  have := Finset.filter_eq_empty_iff.mp (Finset.card_eq_zero.mp h) (Finset.mem_univ q)
  simpa using this

theorem Trans.val_le_one {t : Trans} (h : t ≠ .write) : t.val ≤ 1 := by
  cases t
  · decide
  · decide
  · exact absurd rfl h

/-- Only the writer is in a write transaction. -/
theorem LocksInv.ne_write {s : BtShared n} (h : LocksInv s) {q : Fin n}
    (hw : s.pWriter ≠ some q) : s.inTrans q ≠ .write := fun hq => hw (h.writer q hq)

/-- The writer falls back to reading: its write locks become read locks. -/
theorem LocksInv.downgradeWriter {s : BtShared n} (h : LocksInv s) {p : Fin n}
    (hw : s.pWriter = some p) :
    LocksInv { s with pWriter := none, exclusive := false, pending := false,
                      pLock := s.pLock.map fun l => { l with eLock := .read },
                      inTransaction := .read, inTrans := Function.update s.inTrans p .read } := by
  have hp : s.inTrans p ≠ .none := by
    rw [h.writing p hw]
    exact Trans.noConfusion
  have hother : ∀ q, q ≠ p → s.inTrans q ≠ .write := fun q hqp hq => by
    have := h.writer q hq
    rw [hw] at this
    exact hqp (Option.some.inj this).symm
  have hnew : ∀ q, Function.update s.inTrans p .read q ≠ .write := by
    intro q
    rcases eq_or_ne q p with rfl | hqp
    · simp
    · rw [Function.update_of_ne hqp]
      exact hother q hqp
  have hread : ∀ l ∈ s.pLock.map fun l => { l with eLock := LockType.read }, l.eLock = .read := by
    intro l hl
    obtain ⟨m, -, rfl⟩ := List.mem_map.mp hl
    rfl
  refine ⟨⟨fun q hq => absurd hq (hnew q), ?_, ?_, fun q => Trans.val_le_one (hnew q), ?_, ?_⟩,
    ?_, ?_, ?_, ?_, ?_⟩
  · intro a ha _ _ hwrite
    rw [hread a ha] at hwrite
    cases hwrite
  · exact h.count.trans (activeCount_change hp Trans.noConfusion).symm
  · rintro (hc | hc) <;> cases hc
  · intro hc
    cases hc
  · intro q hq
    cases hq
  · intro hc
    cases hc
  · intro l hl
    obtain ⟨m, hm, rfl⟩ := List.mem_map.mp hl
    dsimp only
    rcases eq_or_ne m.pBtree p with hmp | hmp
    · simp [hmp]
    · rw [Function.update_of_ne hmp]
      exact h.held m hm
  · intro l hl hwrite
    rw [hread l hl] at hwrite
    cases hwrite
  · intro q hq
    obtain ⟨l, hl, heq⟩ := h.holds q fun hc => hq (by
      rcases eq_or_ne q p with rfl | hqp
      · exact absurd hc hp
      · exact (Function.update_of_ne hqp _ _).trans hc)
    exact ⟨_, List.mem_map.mpr ⟨l, hl, rfl⟩, heq⟩

/-- The transaction of `p` ends: its locks go, and with the last transaction the shared state
falls back to `TRANS_NONE`. The flags that remain are given. -/
theorem LocksInv.leave {s : BtShared n} (h : LocksInv s) {p : Fin n} (hp : s.inTrans p ≠ .none)
    {w : Option (Fin n)} {x d : Bool} {t : Trans}
    (hw : ∀ q, q ≠ p → (s.pWriter = some q ↔ w = some q)) (hwp : w ≠ some p)
    (hflags : d = true ∨ x = true → w.isSome)
    (hpend : d = true → ∃ q, q ≠ p ∧ w ≠ some q ∧ s.inTrans q ≠ .none)
    (hbound : ∀ q, q ≠ p → (s.inTrans q).val ≤ t.val) (hshared : t = .write → w.isSome) :
    LocksInv { s with pLock := s.pLock.filter fun l => l.pBtree ≠ p, pWriter := w,
                      exclusive := x, pending := d, nTransaction := s.nTransaction - 1,
                      inTransaction := if s.nTransaction - 1 = 0 then .none else t,
                      inTrans := Function.update s.inTrans p .none } := by
  have hnew : ∀ q, q ≠ p → Function.update s.inTrans p .none q = s.inTrans q := fun q hqp =>
    Function.update_of_ne hqp _ _
  have hmem : ∀ l, l ∈ (s.pLock.filter fun l => l.pBtree ≠ p) ↔ l ∈ s.pLock ∧ l.pBtree ≠ p := by
    intro l
    simp
  have hcount : s.nTransaction - 1 = activeCount (Function.update s.inTrans p .none) := by
    rw [h.count, activeCount_end hp]
  refine ⟨⟨?_, ?_, hcount, ?_, hflags, ?_⟩, ?_, ?_, ?_, ?_, ?_⟩
  · intro q hq
    rcases eq_or_ne q p with rfl | hqp
    · simp at hq
    · exact (hw q hqp).mp (h.writer q ((hnew q hqp).symm.trans hq))
  · intro a ha b hb
    exact h.exclusion a ((hmem a).mp ha).1 b ((hmem b).mp hb).1
  · intro q
    dsimp only
    split
    · rename_i hzero
      rw [eq_none_of_activeCount_eq_zero (hcount.symm.trans hzero) q]
    · rcases eq_or_ne q p with rfl | hqp
      · rw [Function.update_self]
        exact Nat.zero_le _
      · rw [hnew q hqp]
        exact hbound q hqp
  · intro hc
    obtain ⟨q, hqp, hqw, hq⟩ := hpend hc
    obtain ⟨l, hl, heq⟩ := h.holds q hq
    exact ⟨l, (hmem l).mpr ⟨hl, by rw [heq]; exact hqp⟩, by rw [heq]; exact hqw⟩
  · intro q hq
    have hqp : q ≠ p := by
      rintro rfl
      exact hwp hq
    exact (hnew q hqp).trans (h.writing q ((hw q hqp).mpr hq))
  · intro hc
    dsimp only at hc
    split at hc
    · cases hc
    · exact hshared hc
  · intro l hl
    obtain ⟨hl, hlp⟩ := (hmem l).mp hl
    dsimp only
    rw [hnew _ hlp]
    exact h.held l hl
  · intro l hl hwrite
    obtain ⟨hl, hlp⟩ := (hmem l).mp hl
    exact (hw _ hlp).mp (h.writeHeld l hl hwrite)
  · intro q hq
    have hqp : q ≠ p := by
      rintro rfl
      exact hq (Function.update_self _ _ _)
    obtain ⟨l, hl, heq⟩ := h.holds q fun hc => hq ((hnew q hqp).trans hc)
    exact ⟨l, (hmem l).mpr ⟨hl, by rw [heq]; exact hqp⟩, heq⟩

/-- `btreeEndTransaction` with other statements active on the connection. -/
theorem btreeEndTransaction_downgrade {s : BtShared n} {p : Fin n} {cnt : ℕ}
    (hne : s.inTrans p ≠ .none) (hcnt : 1 < cnt) :
    btreeEndTransaction s p cnt =
      { downgradeAllSharedCacheTableLocks s p with
        inTrans := Function.update (downgradeAllSharedCacheTableLocks s p).inTrans p .read } := by
  rw [btreeEndTransaction, if_pos ⟨hne, hcnt⟩]

/-- `btreeEndTransaction` when the handle leaves its transaction for good. -/
theorem btreeEndTransaction_clear {s : BtShared n} {p : Fin n} {cnt : ℕ}
    (hne : s.inTrans p ≠ .none) (hcnt : ¬ 1 < cnt) :
    btreeEndTransaction s p cnt =
      let c := clearAllSharedCacheTableLocks s p
      { c with nTransaction := c.nTransaction - 1,
               inTransaction := if c.nTransaction - 1 = 0 then .none else c.inTransaction,
               inTrans := Function.update c.inTrans p .none } := by
  rw [btreeEndTransaction, if_neg fun hc => hcnt hc.2, if_pos hne]

/-- The end of a write transaction, entered with the shared state already at `TRANS_READ`. -/
theorem LocksInv.endWrite {s : BtShared n} (h : LocksInv s) {p : Fin n}
    (hp : s.inTrans p = .write) (cnt : ℕ) :
    LocksInv (btreeEndTransaction { s with inTransaction := .read } p cnt) := by
  have hw := h.writer p hp
  have hne : s.inTrans p ≠ .none := by
    rw [hp]
    exact Trans.noConfusion
  have hne' : { s with inTransaction := .read }.inTrans p ≠ .none := hne
  by_cases hcnt : 1 < cnt
  · rw [btreeEndTransaction_downgrade hne' hcnt, downgradeAllSharedCacheTableLocks, if_pos hw]
    exact h.downgradeWriter hw
  · rw [btreeEndTransaction_clear hne' hcnt, clearAllSharedCacheTableLocks, if_pos hw]
    refine h.leave hne (fun q hqp => ?_) (by simp) (by simp) (by simp) (fun q hqp => ?_) (by simp)
    · rw [hw]
      simp [hqp.symm]
    · refine Trans.val_le_one (h.ne_write fun hc => hqp ?_)
      rw [hw] at hc
      exact (Option.some.inj hc).symm

/-- The end of a transaction that is not a write transaction. -/
theorem LocksInv.endRead {s : BtShared n} (h : LocksInv s) {p : Fin n}
    (hp : s.inTrans p ≠ .write) (cnt : ℕ) : LocksInv (btreeEndTransaction s p cnt) := by
  have hw : s.pWriter ≠ some p := fun hc => hp (h.writing p hc)
  have hstay : ∀ t, s.inTrans p = t → { s with inTrans := Function.update s.inTrans p t } = s := by
    rintro t rfl
    rw [Function.update_eq_self]
  by_cases hnone : s.inTrans p = .none
  · rw [btreeEndTransaction, if_neg fun hc => hc.1 hnone, if_neg fun hc => hc hnone, hstay _ hnone]
    exact h
  have hread : s.inTrans p = .read := by
    cases hs : s.inTrans p
    · exact absurd hs hnone
    · rfl
    · exact absurd hs hp
  by_cases hcnt : 1 < cnt
  · rw [btreeEndTransaction_downgrade hnone hcnt, downgradeAllSharedCacheTableLocks, if_neg hw,
      hstay _ hread]
    exact h
  have hsame : ∀ q, q ≠ p → (s.pWriter = some q ↔ s.pWriter = some q) := fun q _ => Iff.rfl
  rw [btreeEndTransaction_clear hnone hcnt, clearAllSharedCacheTableLocks, if_neg hw]
  by_cases htwo : s.nTransaction = 2
  · simp only [if_pos htwo]
    exact h.leave hnone hsame hw (fun hc => h.flags (Or.inr (by simpa using hc))) (by simp)
      (fun q _ => h.bound q) h.shared
  · simp only [if_neg htwo]
    refine h.leave hnone hsame hw h.flags (fun hc => ?_) (fun q _ => h.bound q) h.shared
    -- a third handle is in a transaction, and holds a lock that keeps the writer waiting
    obtain ⟨w, hwr⟩ := Option.isSome_iff_exists.mp (h.flags (Or.inl hc))
    have hwp : w ≠ p := by
      rintro rfl
      exact hw hwr
    obtain ⟨r, hrp, hrw, hr⟩ := exists_third hwp.symm hnone
      (by rw [h.writing w hwr]; exact Trans.noConfusion) (by rw [← h.count]; exact htwo)
    exact ⟨r, hrp, by rw [hwr]; exact fun hc => hrw (Option.some.inj hc).symm, hr⟩

/-! ### Every operation -/

/-- **Every operation keeps the invariant.** -/
theorem LocksInv.apply {s : BtShared n} (h : LocksInv s) {op : Op n} (ha : op.Allowed s) :
    LocksInv (apply s op) := by
  cases op with
  | beginTrans p wrflag pagerOk lateOk => exact h.beginTrans p wrflag pagerOk lateOk
  | lockTable p iTab isWriteLock mallocOk => exact h.lockTable ha.1 ha.2 iTab mallocOk
  | commit p pagerOk bCleanup cnt =>
    rw [SharedCache.apply, exec, sqlite3BtreeCommitPhaseTwo]
    split
    · exact h
    · split
      · split
        · exact h
        · rename_i hw _
          exact h.endWrite hw cnt
      · rename_i hw
        exact h.endRead hw cnt
  | rollback p pagerOk cnt =>
    rw [SharedCache.apply, exec, sqlite3BtreeRollback]
    dsimp only
    split
    · rename_i hw
      exact h.endWrite hw cnt
    · rename_i hw
      exact h.endRead hw cnt

/-- No operation follows a null writer pointer. -/
theorem LocksInv.rc_ne_nullDeref {s : BtShared n} (h : LocksInv s) (op : Op n) :
    (exec s op).1 ≠ .nullDeref := by
  have hquery : ∀ p iTab eLock, (querySharedCacheTableLock s p iTab eLock).1 ≠ .nullDeref := by
    intro p iTab eLock
    obtain ⟨hq, -⟩ | ⟨hq, -⟩ | hq | ⟨-, hx, hw⟩ := querySharedCacheTableLock_cases s p iTab eLock
    · rw [hq]; exact Rc.noConfusion
    · rw [hq]; exact Rc.noConfusion
    · rw [hq]; exact Rc.noConfusion
    · have := h.flags (Or.inr hx)
      rw [hw] at this
      cases this
  have hpager : ∀ b, pagerRc b ≠ .nullDeref := by decide
  cases op with
  | beginTrans p wrflag pagerOk lateOk =>
    rw [exec, sqlite3BtreeBeginTrans]
    split
    · exact hpager lateOk
    split
    · exact Rc.noConfusion
    split
    · rw [beginBlocked]
      split
      · rename_i hc
        rw [if_pos (hc.elim (fun hc => h.shared hc.2) fun hc => h.flags (Or.inl hc))]
        exact Rc.noConfusion
      · split <;> exact Rc.noConfusion
    · dsimp only
      split
      · exact hquery _ _ _
      · split
        · exact hpager lateOk
        · exact Rc.noConfusion
  | lockTable p iTab isWriteLock mallocOk =>
    rw [exec, sqlite3BtreeLockTable]
    generalize (if isWriteLock then LockType.write else LockType.read) = eLock
    split
    · rw [setSharedCacheTableLock]
      split
      · exact Rc.noConfusion
      · split <;> exact Rc.noConfusion
    · exact hquery _ _ _
  | commit p pagerOk bCleanup cnt =>
    rw [exec, sqlite3BtreeCommitPhaseTwo]
    split
    · exact Rc.noConfusion
    · split
      · split <;> exact Rc.noConfusion
      · exact Rc.noConfusion
  | rollback p pagerOk cnt => exact hpager pagerOk

/-- **Table locks are safe.** In every state that handles sharing a cache can reach, however their
operations interleave, the locks, the writer, the flags and the counters agree, and no further
operation dereferences a null writer. -/
theorem tableLocksSafe_of_run {readOnly : Bool} {ops : List (Op n)}
    (hrun : Run.EveryStep apply (fun s op => op.Allowed s) (idle readOnly : BtShared n) ops) :
    TableLocksSafe (Run.last apply (idle readOnly) ops) ∧
      ∀ op, (exec (Run.last apply (idle readOnly) ops) op).1 ≠ .nullDeref := by
  have h : LocksInv (Run.last apply (idle readOnly) ops) :=
    Run.last_of_invariant (fun _ _ h ha => h.apply ha) (locksInv_idle readOnly) hrun
  exact ⟨h.toTableLocksSafe, h.rc_ne_nullDeref⟩

/-- A writer that meets a reader, and a reader that leaves. -/
theorem tableLocksSafe_writer_and_reader :
    Run.EveryStep apply (fun s op => op.Allowed s) (idle false : BtShared 2)
        [.beginTrans 0 1 true true, .beginTrans 1 0 true true, .lockTable 1 5 false true,
          .lockTable 0 5 true true, .commit 1 true false 1] ∧
      TableLocksSafe (Run.last apply (idle false : BtShared 2)
        [.beginTrans 0 1 true true, .beginTrans 1 0 true true, .lockTable 1 5 false true,
          .lockTable 0 5 true true, .commit 1 true false 1]) := by
  have hrun : Run.EveryStep apply (fun s op => op.Allowed s) (idle false : BtShared 2)
      [.beginTrans 0 1 true true, .beginTrans 1 0 true true, .lockTable 1 5 false true,
        .lockTable 0 5 true true, .commit 1 true false 1] :=
    ⟨trivial, trivial, ⟨by decide, by decide⟩, ⟨by decide, by decide⟩, trivial, trivial⟩
  exact ⟨hrun, (tableLocksSafe_of_run hrun).1⟩

end SharedCache

end SqliteVms

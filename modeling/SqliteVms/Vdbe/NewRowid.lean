import SqliteVms.Lib.Run

/-!
# New rowids

`OP_NewRowid`, `OP_Insert` and `OP_Delete` of `vdbe.c` on the cursors of one table. The next rowid
is one more than the largest key, and is cached in every cursor of the table; a cached zero means
unknown. Once the largest key is the largest integer, a cursor looks for a key that is not in use at
random, and goes on to do so. A register may hold the largest rowid ever used, for `AUTOINCREMENT`.

An opcode that fails ends its program, so that its cursor is closed; other cursors of that program
may be closed by steps of their own. The keys are a list in no particular order. What the B-tree
answers apart from them, and what the generator of random numbers answers, is part of the step.

## Main definitions

* `newRowid` — `OP_NewRowid`
* `step` — a step on the table
* `Inv` — a cached rowid is zero or above every key

## Main results

* `sequential_spec` — what the first algorithm does
* `Inv.step` — every step keeps the invariant
* `newRowid_fresh` — a new rowid is no key of the table, and above what its register has held
-/

namespace SqliteVms

namespace Vdbe

namespace Rowid

/-! ### The opcodes -/

/-- `MAX_ROWID`. -/
def maxRowid : Int64 := Int64.maxValue

/-- A cursor of the table: what `BtCursor` and `VdbeCursor` keep for new rowids. -/
structure Cursor where
  cachedRowid : Int64
  useRandomRowid : Bool

/-- The table, its cursors and the registers. -/
structure State where
  keys : List Int64
  cursors : ℕ → Option Cursor
  regs : ℕ → Int64

/-- Why there is no new rowid. The last reason is an addition that overflows. -/
inductive Err
  | misuse | ioerr | full | overflow
  deriving DecidableEq

/-- What `OP_NewRowid` meets: the rowid that was inserted last, whether `sqlite3BtreeLast` and the
searches succeed, and what `sqlite3_randomness` returns after each search. -/
structure Env where
  lastRowid : Int64
  lastOk : Bool
  movetoOk : ℕ → Bool
  randomness : ℕ → Int64

/-- `v+1` in signed arithmetic. -/
def addOne (v : Int64) : Except Err Int64 := if v = maxRowid then .error .overflow else .ok (v + 1)

/-- `sqlite3BtreeLast` and `sqlite3BtreeKeySize`: the largest key. -/
def btreeLast : List Int64 → Option Int64
  | [] => none
  | k :: keys =>
    match btreeLast keys with
    | none => some k
    | some m => some (if m ≤ k then k else m)

/-- `sqlite3BtreeSetCachedRowid`: every cursor of the table is given the rowid. -/
def setCachedRowid (s : State) (iRowid : Int64) : State :=
  { s with cursors := fun c => (s.cursors c).map fun pC => { pC with cachedRowid := iRowid } }

/-- The cached rowid, or one more than the largest key, and whether to look at random. -/
def nextRowid (keys : List Int64) (pC : Cursor) (env : Env) : Except Err (Int64 × Bool) :=
  if pC.cachedRowid ≠ 0 then .ok (pC.cachedRowid, false)
  else if env.lastOk = false then .error .ioerr
  else
    match btreeLast keys with
    | none => .ok (1, false)
    | some v =>
      if maxRowid ≤ v then .ok (v, true)
      else (addOne v).map fun v => (v, false)

/-- The part for `AUTOINCREMENT`: the rowid is more than what the register has, and is put there. -/
def autoincrement (regs : ℕ → Int64) (p3 : ℕ) (v : Int64) (random : Bool) :
    Except Err (Int64 × (ℕ → Int64)) :=
  if p3 = 0 then .ok (v, regs)
  else if regs p3 = maxRowid ∨ random = true then .error .full
  else
    (addOne (regs p3)).map fun least =>
      let v := if v < least then least else v
      (v, Function.update regs p3 v)

/-- What is cached after `v`. -/
def cacheAfter (v : Int64) : Except Err Int64 := if v < maxRowid then addOne v else .ok 0

/-- The first algorithm. The results are the state, the rowid and `useRandomRowid`. -/
def sequential (s : State) (c p3 : ℕ) (pC : Cursor) (env : Env) :
    Except Err (State × Int64 × Bool) :=
  match nextRowid s.keys pC env with
  | .error e => .error e
  | .ok (v, random) =>
    match autoincrement s.regs p3 v random with
    | .error e => .error e
    | .ok (v, regs) =>
      (cacheAfter v).map fun next =>
        (setCachedRowid { s with
            cursors := Function.update s.cursors c (some { pC with useRandomRowid := random })
            regs := regs } next, v, random)

/-- `MAX_ROWID>>1`. -/
def positiveMask : Int64 := 0x3fffffffffffffff

/-- The search at random, after `cnt` searches, with so many left. -/
def randomLoop (keys : List Int64) (env : Env) : ℕ → ℕ → Int64 → Except Err Int64
  | 0, _, _ => .error .full
  | left + 1, cnt, v =>
    if env.movetoOk cnt = false then .error .ioerr
    else if v ∈ keys then
      match addOne (env.randomness cnt &&& if cnt + 1 < 5 then 0xffffff else positiveMask) with
      | .error e => .error e
      | .ok v => randomLoop keys env left (cnt + 1) v
    else .ok v

/-- The second algorithm. -/
def randomRowid (keys : List Int64) (env : Env) : Except Err Int64 :=
  match addOne (env.lastRowid &&& positiveMask) with
  | .error e => .error e
  | .ok v => randomLoop keys env 100 0 v

/-- The program of a cursor ends. -/
def closeCursor (s : State) (c : ℕ) : State := { s with cursors := Function.update s.cursors c none }

/-- `OP_NewRowid` with cursor `c` and register `p3`, which is zero for none. -/
def newRowid (s : State) (c p3 : ℕ) (env : Env) : State × Except Err Int64 :=
  match s.cursors c with
  | none => (s, .error .misuse)
  | some pC =>
    match if pC.useRandomRowid = true then .ok (s, 0, true) else sequential s c p3 pC env with
    | .error e => (closeCursor s c, .error e)
    | .ok (s, v, false) => (s, .ok v)
    | .ok (s, _, true) =>
      match randomRowid s.keys env with
      | .error e => (closeCursor s c, .error e)
      | .ok v => (s, .ok v)

/-- A write to the table: the cached rowid is forgotten first. A write that fails leaves some keys
and ends its program. -/
def write (s : State) (c : ℕ) (keys : List Int64) (failed : Option (List Int64)) : State :=
  if (s.cursors c).isSome = true then
    match failed with
    | none => { setCachedRowid s 0 with keys := keys }
    | some keys => closeCursor { setCachedRowid s 0 with keys := keys } c
  else s

/-- Steps on the table. -/
inductive Op
  | openCursor (c : ℕ)
  | closeCursor (c : ℕ)
  | newRowid (c p3 : ℕ) (env : Env)
  | insert (c : ℕ) (iKey : Int64) (failed : Option (List Int64))
  | delete (c : ℕ) (iKey : Int64) (failed : Option (List Int64))

/-- The state after a step. -/
def step (s : State) : Op → State
  | .openCursor c => { s with cursors := Function.update s.cursors c (some ⟨0, false⟩) }
  | .closeCursor c => closeCursor s c
  | .newRowid c p3 env => (newRowid s c p3 env).1
  | .insert c iKey failed => write s c (iKey :: s.keys) failed
  | .delete c iKey failed => write s c (s.keys.filter (· ≠ iKey)) failed

/-- A table before it is opened, with any keys and registers. -/
def closed (keys : List Int64) (regs : ℕ → Int64) : State := ⟨keys, fun _ => none, regs⟩

/-! ### The largest key -/

/-- Every key is below `v`. -/
def Above (keys : List Int64) (v : Int64) : Prop := ∀ k ∈ keys, k < v

/-- A rowid above all keys is new. -/
theorem Above.not_mem {keys : List Int64} {v : Int64} (h : Above keys v) : v ∉ keys :=
  fun hv => Int64.lt_irrefl (h v hv)

/-- Without a last entry the table is empty. -/
theorem btreeLast_eq_none {keys : List Int64} (h : btreeLast keys = none) : keys = [] := by
  cases keys with
  | nil => rfl
  | cons k keys =>
    rw [btreeLast] at h
    split at h
    · cases h
    · cases h

/-- The last entry has the largest key. -/
theorem le_btreeLast {keys : List Int64} {m : Int64} (h : btreeLast keys = some m) :
    ∀ k ∈ keys, k ≤ m := by
  induction keys generalizing m with
  | nil => cases h
  | cons k keys ih =>
    rw [btreeLast] at h
    intro j hj
    rw [List.mem_cons] at hj
    split at h
    · rename_i hnone
      cases h
      rw [btreeLast_eq_none hnone] at hj
      rcases hj with rfl | hj
      · exact Int64.le_refl _
      · cases hj
    · rename_i m' hm'
      cases h
      have hle := ih hm'
      rcases hj with rfl | hj
      · split
        · exact Int64.le_refl _
        · rename_i hnot
          exact Int64.le_of_lt (Int64.not_le.mp hnot)
      · split
        · rename_i hmk
          exact Int64.le_trans (hle j hj) hmk
        · exact hle j hj

/-! ### Adding one -/

theorem toInt_add_one {v : Int64} (h : v ≠ maxRowid) : (v + 1).toInt = v.toInt + 1 := by
  have hne : v.toInt ≠ 2 ^ 63 - 1 := by
    intro heq
    exact h (Int64.toInt_inj.mp (heq.trans Int64.toInt_maxValue.symm))
  have hlt := v.toInt_lt
  have hle := v.le_toInt
  have hone : (1 : Int64).toInt = 1 := rfl
  rw [Int64.toInt_add, hone]
  exact Int.bmod_eq_of_le (by omega) (by omega)

theorem lt_add_one {v : Int64} (h : v ≠ maxRowid) : v < v + 1 := by
  rw [Int64.lt_iff_toInt_lt, toInt_add_one h]
  omega

theorem ne_maxRowid_of_lt {v w : Int64} (h : v < w) : v ≠ maxRowid := by
  rintro rfl
  have hle := w.toInt_le
  rw [Int64.lt_iff_toInt_lt] at h
  have hmax : maxRowid.toInt = Int64.maxValue.toInt := rfl
  omega

theorem addOne_of_ne {v : Int64} (h : v ≠ maxRowid) : addOne v = .ok (v + 1) := if_neg h

/-- A masked number has a bit less than the largest rowid. -/
theorem and_ne_maxRowid (x : Int64) {mask : Int64} (h : mask.toBitVec.getLsbD 62 = false) :
    x &&& mask ≠ maxRowid := by
  intro heq
  have hbit := congrArg (fun v : Int64 => v.toBitVec.getLsbD 62) heq
  rw [Int64.toBitVec_and, BitVec.getLsbD_and, h, Bool.and_false] at hbit
  exact absurd hbit (by decide)

/-- A masked number can be incremented. -/
theorem addOne_and_ne_overflow (x : Int64) {mask : Int64} (h : mask.toBitVec.getLsbD 62 = false) :
    addOne (x &&& mask) ≠ .error .overflow := by
  rw [addOne_of_ne (and_ne_maxRowid x h)]
  exact fun h => by cases h

/-! ### What the first algorithm does -/

/-- A cached rowid is unknown or above every key. -/
def CacheOk (keys : List Int64) (v : Int64) : Prop := v = 0 ∨ Above keys v

/-- The rowid from the cursor's cache or the last entry is above all keys, unless the largest is
taken. -/
theorem nextRowid_spec {keys : List Int64} {pC : Cursor} {env : Env} {v : Int64} {random : Bool}
    (hcache : CacheOk keys pC.cachedRowid) (h : nextRowid keys pC env = .ok (v, random)) :
    (random = false ∧ Above keys v) ∨ (random = true ∧ v = maxRowid) := by
  rw [nextRowid] at h
  split at h
  · rename_i hne
    cases h
    exact Or.inl ⟨rfl, hcache.resolve_left hne⟩
  split at h
  · cases h
  split at h
  · rename_i hlast
    cases h
    rw [btreeLast_eq_none hlast]
    exact Or.inl ⟨rfl, fun k hk => by cases hk⟩
  rename_i m hlast
  split at h
  · rename_i hmax
    cases h
    exact Or.inr ⟨rfl, Int64.le_antisymm (Int64.le_iff_toInt_le.mpr v.toInt_le) hmax⟩
  · rename_i hmax
    rw [addOne_of_ne fun heq => hmax (heq ▸ Int64.le_refl _)] at h
    cases h
    refine Or.inl ⟨rfl, fun k hk => ?_⟩
    exact Int64.lt_of_le_of_lt (le_btreeLast hlast k hk)
      (lt_add_one fun heq => hmax (heq ▸ Int64.le_refl _))

theorem nextRowid_ne_overflow (keys : List Int64) (pC : Cursor) (env : Env) :
    nextRowid keys pC env ≠ .error .overflow := by
  rw [nextRowid]
  intro h
  split at h
  · cases h
  split at h
  · cases h
  split at h
  · cases h
  split at h
  · cases h
  · rename_i hmax
    rw [addOne_of_ne fun heq => hmax (heq ▸ Int64.le_refl _)] at h
    cases h

/-- What the part for `AUTOINCREMENT` does with a register. -/
theorem autoincrement_spec {regs regs' : ℕ → Int64} {p3 : ℕ} {v v' : Int64} {random : Bool}
    (h : autoincrement regs p3 v random = .ok (v', regs')) :
    (p3 = 0 ∧ v' = v ∧ regs' = regs) ∨
      (p3 ≠ 0 ∧ random = false ∧ v ≤ v' ∧ regs p3 < v' ∧ regs' = Function.update regs p3 v') := by
  rw [autoincrement] at h
  split at h
  · rename_i hp3
    cases h
    exact Or.inl ⟨hp3, rfl, rfl⟩
  rename_i hp3
  split at h
  · cases h
  rename_i hfull
  rw [not_or] at hfull
  have hlt := lt_add_one hfull.1
  have hrandom : random = false := by
    cases random with
    | false => rfl
    | true => exact absurd rfl hfull.2
  rw [addOne_of_ne hfull.1] at h
  cases h
  refine Or.inr ⟨hp3, hrandom, ?_, ?_, rfl⟩
  · split
    · rename_i hv
      exact Int64.le_of_lt hv
    · exact Int64.le_refl _
  · split
    · exact hlt
    · rename_i hv
      exact Int64.lt_of_lt_of_le hlt (Int64.not_lt.mp hv)

/-- The AUTOINCREMENT step does not overflow. -/
theorem autoincrement_ne_overflow (regs : ℕ → Int64) (p3 : ℕ) (v : Int64) (random : Bool) :
    autoincrement regs p3 v random ≠ .error .overflow := by
  rw [autoincrement]
  intro h
  split at h
  · cases h
  split at h
  · cases h
  · rename_i hfull
    rw [addOne_of_ne fun heq => hfull (Or.inl heq)] at h
    cases h

/-- What is cached for the next rowid is above all keys once the new one is in. -/
theorem cacheAfter_spec {keys : List Int64} {v next : Int64} (h : cacheAfter v = .ok next)
    (hv : Above keys v ∨ v = maxRowid) : CacheOk keys next := by
  rw [cacheAfter] at h
  split at h
  · rename_i hlt
    have hne := ne_maxRowid_of_lt hlt
    rw [addOne_of_ne hne] at h
    cases h
    exact Or.inr fun k hk => Int64.lt_trans (hv.resolve_right hne k hk) (lt_add_one hne)
  · cases h
    exact Or.inl rfl

theorem cacheAfter_ne_overflow (v : Int64) : cacheAfter v ≠ .error .overflow := by
  rw [cacheAfter]
  split
  · rename_i hlt
    rw [addOne_of_ne (ne_maxRowid_of_lt hlt)]
    exact fun h => by cases h
  · exact fun h => by cases h

/-- What the first algorithm does: it leaves the keys, caches one rowid in every cursor, and gives a
rowid above every key unless the search at random follows. -/
structure Sequential (s : State) (c p3 : ℕ) (s' : State) (v : Int64) (random : Bool) : Prop where
  keys : s'.keys = s.keys
  above : random = false → Above s.keys v
  cursors : ∀ c' pC', s'.cursors c' = some pC' →
    CacheOk s.keys pC'.cachedRowid ∧
      if c' = c then pC'.useRandomRowid = random
      else ∃ pC, s.cursors c' = some pC ∧ pC.useRandomRowid = pC'.useRandomRowid
  regs : (p3 = 0 ∧ s'.regs = s.regs) ∨
    (p3 ≠ 0 ∧ random = false ∧ s.regs p3 < v ∧ s'.regs = Function.update s.regs p3 v)

/-- **The sequential part** of `OP_NewRowid`. -/
theorem sequential_spec {s s' : State} {c p3 : ℕ} {pC : Cursor} {env : Env} {v : Int64}
    {random : Bool} (hcache : CacheOk s.keys pC.cachedRowid)
    (h : sequential s c p3 pC env = .ok (s', v, random)) : Sequential s c p3 s' v random := by
  rw [sequential] at h
  split at h
  · cases h
  rename_i v₀ random₀ hnext
  split at h
  · cases h
  rename_i v₁ regs₁ hauto
  cases hafter : cacheAfter v₁ with
  | error e =>
    rw [hafter] at h
    cases h
  | ok next =>
    rw [hafter] at h
    cases h
    have hfirst := nextRowid_spec hcache hnext
    have hreg := autoincrement_spec hauto
    have habove : random = false → Above s.keys v := by
      intro hrandom
      have hbase := (hfirst.resolve_right fun hr => by
        rw [hrandom] at hr
        cases hr.1).2
      rcases hreg with ⟨-, rfl, -⟩ | ⟨-, -, hle, -, -⟩
      · exact hbase
      · exact fun k hk => Int64.lt_of_lt_of_le (hbase k hk) hle
    have hok : CacheOk s.keys next := by
      refine cacheAfter_spec hafter ?_
      rcases hfirst with ⟨hr, -⟩ | ⟨hr, rfl⟩
      · exact Or.inl (habove hr)
      · rcases hreg with ⟨-, rfl, -⟩ | ⟨-, hr', -⟩
        · exact Or.inr rfl
        · rw [hr] at hr'
          cases hr'
    refine ⟨rfl, habove, fun c' pC' hc' => ?_, ?_⟩
    · dsimp only [setCachedRowid] at hc'
      rw [Option.map_eq_some_iff] at hc'
      obtain ⟨pC₀, hc₀, rfl⟩ := hc'
      refine ⟨hok, ?_⟩
      split
      · rename_i heq
        subst heq
        rw [Function.update_self] at hc₀
        cases hc₀
        rfl
      · rename_i hne
        rw [Function.update_of_ne hne] at hc₀
        exact ⟨pC₀, hc₀, rfl⟩
    · rcases hreg with ⟨hp3, -, hregs⟩ | ⟨hp3, hr, -, hlt, hregs⟩
      · exact Or.inl ⟨hp3, hregs⟩
      · exact Or.inr ⟨hp3, hr, hlt, hregs⟩

theorem sequential_ne_overflow (s : State) (c p3 : ℕ) (pC : Cursor) (env : Env) :
    sequential s c p3 pC env ≠ .error .overflow := by
  rw [sequential]
  intro h
  split at h
  · rename_i e hnext
    cases h
    exact nextRowid_ne_overflow _ _ _ hnext
  split at h
  · rename_i e hauto
    cases h
    exact autoincrement_ne_overflow _ _ _ _ hauto
  · rename_i v regs hauto
    cases hafter : cacheAfter v with
    | error e =>
      rw [hafter] at h
      cases h
      exact cacheAfter_ne_overflow _ hafter
    | ok next =>
      rw [hafter] at h
      cases h

/-! ### What the second algorithm does -/

/-- The loop ends with a rowid that is free. -/
theorem randomLoop_spec {keys : List Int64} {env : Env} {left cnt : ℕ} {v w : Int64}
    (h : randomLoop keys env left cnt v = .ok w) : w ∉ keys := by
  induction left generalizing cnt v with
  | zero => cases h
  | succ left ih =>
    rw [randomLoop] at h
    split at h
    · cases h
    split at h
    · split at h
      · cases h
      · exact ih h
    · rename_i hnot
      cases h
      exact hnot

/-- A random rowid has a bit cleared, so that it can be incremented. -/
theorem addOne_random_ne_overflow (x : Int64) (cnt : ℕ) :
    addOne (x &&& if cnt + 1 < 5 then 0xffffff else positiveMask) ≠ .error .overflow := by
  split
  · exact addOne_and_ne_overflow x (by decide)
  · exact addOne_and_ne_overflow x (by decide)

theorem randomLoop_ne_overflow (keys : List Int64) (env : Env) (left cnt : ℕ) (v : Int64) :
    randomLoop keys env left cnt v ≠ .error .overflow := by
  induction left generalizing cnt v with
  | zero => exact fun h => by cases h
  | succ left ih =>
    rw [randomLoop]
    intro h
    split at h
    · cases h
    split at h
    · split at h
      · rename_i e hadd
        cases h
        exact addOne_random_ne_overflow _ _ hadd
      · exact ih _ _ h
    · cases h

theorem randomRowid_spec {keys : List Int64} {env : Env} {w : Int64}
    (h : randomRowid keys env = .ok w) : w ∉ keys := by
  rw [randomRowid] at h
  split at h
  · cases h
  · exact randomLoop_spec h

theorem randomRowid_ne_overflow (keys : List Int64) (env : Env) :
    randomRowid keys env ≠ .error .overflow := by
  rw [randomRowid]
  intro h
  split at h
  · rename_i e hadd
    cases h
    exact addOne_and_ne_overflow _ (by decide) hadd
  · exact randomLoop_ne_overflow _ _ _ _ _ h

/-! ### The invariant -/

/-- The cached rowids are unknown or above every key. -/
def Inv (s : State) : Prop :=
  ∀ c pC, s.cursors c = some pC → CacheOk s.keys pC.cachedRowid

/-- No cursor looks at random. It is so while every new rowid is one for `AUTOINCREMENT`. -/
def Calm (s : State) : Prop := ∀ c pC, s.cursors c = some pC → pC.useRandomRowid = false

/-- Closing a cursor leaves the others as they are. -/
theorem cursors_closeCursor {s : State} {c c' : ℕ} {pC : Cursor}
    (h : (closeCursor s c).cursors c' = some pC) : s.cursors c' = some pC := by
  by_cases heq : c' = c
  · subst heq
    rw [closeCursor] at h
    dsimp only at h
    rw [Function.update_self] at h
    cases h
  · rw [closeCursor] at h
    dsimp only at h
    rwa [Function.update_of_ne heq] at h

theorem Inv.closeCursor {s : State} (h : Inv s) (c : ℕ) : Inv (closeCursor s c) :=
  fun c' pC hc => h c' pC (cursors_closeCursor hc)

theorem Calm.closeCursor {s : State} (h : Calm s) (c : ℕ) : Calm (closeCursor s c) :=
  fun c' pC hc => h c' pC (cursors_closeCursor hc)

/-- The invariant after a sequential rowid. -/
theorem Sequential.inv {s s' : State} {c p3 : ℕ} {v : Int64} {random : Bool}
    (h : Sequential s c p3 s' v random) : Inv s' := by
  intro c' pC hc
  rw [h.keys]
  exact (h.cursors c' pC hc).1

theorem Sequential.calm {s s' : State} {c p3 : ℕ} {v : Int64} (hcalm : Calm s)
    (h : Sequential s c p3 s' v false) : Calm s' := by
  intro c' pC hc
  have hflag := (h.cursors c' pC hc).2
  split at hflag
  · exact hflag
  · obtain ⟨pC₀, hc₀, heq⟩ := hflag
    rw [← heq]
    exact hcalm c' pC₀ hc₀

/-- What `OP_NewRowid` does. -/
structure Took (s : State) (p3 : ℕ) (s' : State) (r : Except Err Int64) : Prop where
  keys : s'.keys = s.keys
  inv : Inv s'
  ne_overflow : r ≠ .error .overflow
  fresh : ∀ v, r = .ok v → v ∉ s.keys
  regs : s'.regs = s.regs ∨
    ∃ v, p3 ≠ 0 ∧ s.regs p3 < v ∧ s'.regs = Function.update s.regs p3 v
  autoinc : Calm s → p3 ≠ 0 → Calm s' ∧
    ∀ v, r = .ok v → s.regs p3 < v ∧ s'.regs = Function.update s.regs p3 v

/-- A failed `OP_NewRowid` leaves the registers alone. -/
theorem took_error {s : State} (hinv : Inv s) (c p3 : ℕ) {e : Err} (he : e ≠ .overflow) :
    Took s p3 (closeCursor s c) (.error e) := by
  refine ⟨rfl, hinv.closeCursor c, fun h => ?_, fun v h => (by cases h), Or.inl rfl,
    fun hcalm _ => ⟨hcalm.closeCursor c, fun v h => by cases h⟩⟩
  cases h
  exact he rfl

/-- The search at random follows the first algorithm only without a register. -/
theorem Sequential.took_random {s s' : State} {c p3 : ℕ} {v : Int64}
    (h : Sequential s c p3 s' v true) {s'' : State} {r : Except Err Int64}
    (hkeys : s''.keys = s'.keys) (hinv : Inv s'') (hregs : s''.regs = s'.regs)
    (hr : r ≠ .error .overflow) (hfresh : ∀ v, r = .ok v → v ∉ s.keys) :
    Took s p3 s'' r := by
  have hp3 : p3 = 0 ∧ s'.regs = s.regs := by
    rcases h.regs with hnone | ⟨-, hrandom, -⟩
    · exact hnone
    · cases hrandom
  exact ⟨hkeys.trans h.keys, hinv, hr, hfresh, Or.inl (hregs.trans hp3.2),
    fun _ hne => absurd hp3.1 hne⟩

theorem Sequential.took {s s' : State} {c p3 : ℕ} {v : Int64} (h : Sequential s c p3 s' v false) :
    Took s p3 s' (.ok v) := by
  refine ⟨h.keys, h.inv, fun h => (by cases h), fun w hw => ?_, ?_, fun hcalm hne => ⟨h.calm hcalm, ?_⟩⟩
  · cases hw
    exact (h.above rfl).not_mem
  · rcases h.regs with ⟨-, hregs⟩ | ⟨hne, -, hlt, hregs⟩
    · exact Or.inl hregs
    · exact Or.inr ⟨v, hne, hlt, hregs⟩
  · intro w hw
    cases hw
    rcases h.regs with ⟨hp3, -⟩ | ⟨-, -, hlt, hregs⟩
    · exact absurd hp3 hne
    · exact ⟨hlt, hregs⟩

/-- **One `OP_NewRowid`**: the rowid is new, or there is an error. -/
theorem newRowid_spec {s : State} (hinv : Inv s) (c p3 : ℕ) (env : Env) :
    Took s p3 (newRowid s c p3 env).1 (newRowid s c p3 env).2 := by
  rw [newRowid]
  cases hc : s.cursors c with
  | none =>
    exact ⟨rfl, hinv, fun h => (by cases h), fun v h => (by cases h), Or.inl rfl,
      fun hcalm _ => ⟨hcalm, fun v h => by cases h⟩⟩
  | some pC =>
    dsimp only
    by_cases huse : pC.useRandomRowid = true
    · -- the cursor looks at random from the start, and nothing is cached
      rw [if_pos huse]
      dsimp only
      have hcalm : ¬Calm s := fun hcalm => by
        rw [hcalm c pC hc] at huse
        cases huse
      cases hrandom : randomRowid s.keys env with
      | error e =>
        exact took_error hinv c p3 fun he => randomRowid_ne_overflow _ _ (he ▸ hrandom)
      | ok v =>
        refine ⟨rfl, hinv, fun h => (by cases h), fun w hw => ?_, Or.inl rfl,
          fun h _ => absurd h hcalm⟩
        cases hw
        exact randomRowid_spec hrandom
    · rw [if_neg huse]
      cases hseq : sequential s c p3 pC env with
      | error e =>
        exact took_error hinv c p3 fun he => sequential_ne_overflow _ _ _ _ _ (he ▸ hseq)
      | ok r =>
        obtain ⟨s', v, random⟩ := r
        have hspec := sequential_spec (hinv c pC hc) hseq
        cases random with
        | false => exact hspec.took
        | true =>
          dsimp only
          cases hrandom : randomRowid s'.keys env with
          | error e =>
            refine hspec.took_random rfl (hspec.inv.closeCursor c) rfl (fun h => ?_)
              fun v h => by cases h
            cases h
            exact randomRowid_ne_overflow _ _ hrandom
          | ok w =>
            refine hspec.took_random rfl hspec.inv rfl (fun h => by cases h) fun u hu => ?_
            cases hu
            rw [← hspec.keys]
            exact randomRowid_spec hrandom

/-! ### Runs -/

theorem inv_closed (keys : List Int64) (regs : ℕ → Int64) : Inv (closed keys regs) :=
  fun _ _ h => by cases h

theorem calm_closed (keys : List Int64) (regs : ℕ → Int64) : Calm (closed keys regs) :=
  fun _ _ h => by cases h

/-- What a write leaves in a cursor. -/
theorem cursors_write {s : State} {c : ℕ} {keys : List Int64} {failed : Option (List Int64)}
    (hopen : (s.cursors c).isSome = true) {c' : ℕ} {pC : Cursor}
    (h : (write s c keys failed).cursors c' = some pC) :
    pC.cachedRowid = 0 ∧
      ∃ pC₀, s.cursors c' = some pC₀ ∧ pC.useRandomRowid = pC₀.useRandomRowid := by
  have hset : ((setCachedRowid s 0).cursors c') = some pC := by
    rw [write.eq_def, if_pos hopen] at h
    cases failed with
    | none => exact h
    | some keys' => exact cursors_closeCursor (s := { setCachedRowid s 0 with keys := keys' }) h
  dsimp only [setCachedRowid] at hset
  rw [Option.map_eq_some_iff] at hset
  obtain ⟨pC₀, hc₀, rfl⟩ := hset
  exact ⟨rfl, pC₀, hc₀, rfl⟩

theorem Inv.write {s : State} (h : Inv s) (c : ℕ) (keys : List Int64)
    (failed : Option (List Int64)) : Inv (write s c keys failed) := by
  by_cases hopen : (s.cursors c).isSome = true
  · exact fun c' pC hc => Or.inl (cursors_write hopen hc).1
  · rwa [Rowid.write.eq_def, if_neg hopen]

theorem Calm.write {s : State} (h : Calm s) (c : ℕ) (keys : List Int64)
    (failed : Option (List Int64)) : Calm (write s c keys failed) := by
  by_cases hopen : (s.cursors c).isSome = true
  · intro c' pC hc
    obtain ⟨-, pC₀, hc₀, heq⟩ := cursors_write hopen hc
    rw [heq]
    exact h c' pC₀ hc₀
  · rwa [Rowid.write.eq_def, if_neg hopen]

/-- Writing to the table leaves the registers alone. -/
theorem regs_write (s : State) (c : ℕ) (keys : List Int64) (failed : Option (List Int64)) :
    (write s c keys failed).regs = s.regs := by
  rw [write.eq_def]
  split
  · cases failed with
    | none => rfl
    | some keys' => rfl
  · rfl

/-- **Every step keeps the invariant.** -/
theorem Inv.step {s : State} (h : Inv s) (op : Op) : Inv (step s op) := by
  cases op with
  | openCursor c =>
    intro c' pC hc
    by_cases heq : c' = c
    · subst heq
      dsimp only [Rowid.step] at hc
      rw [Function.update_self] at hc
      cases hc
      exact Or.inl rfl
    · dsimp only [Rowid.step] at hc
      rw [Function.update_of_ne heq] at hc
      exact h c' pC hc
  | closeCursor c => exact h.closeCursor c
  | newRowid c p3 env => exact (newRowid_spec h c p3 env).inv
  | insert c iKey failed => exact h.write c _ failed
  | delete c iKey failed => exact h.write c _ failed

/-- A step on an `AUTOINCREMENT` table: a new rowid has a register. -/
def Op.Autoinc : Op → Prop
  | .newRowid _ p3 _ => p3 ≠ 0
  | _ => True

/-- The AUTOINCREMENT instructions draw no random rowid. -/
theorem Calm.step {s : State} (hinv : Inv s) (h : Calm s) {op : Op} (hop : op.Autoinc) :
    Calm (step s op) := by
  cases op with
  | openCursor c =>
    intro c' pC hc
    by_cases heq : c' = c
    · subst heq
      dsimp only [Rowid.step] at hc
      rw [Function.update_self] at hc
      cases hc
      rfl
    · dsimp only [Rowid.step] at hc
      rw [Function.update_of_ne heq] at hc
      exact h c' pC hc
  | closeCursor c => exact h.closeCursor c
  | newRowid c p3 env => exact ((newRowid_spec hinv c p3 env).autoinc h hop).1
  | insert c iKey failed => exact h.write c _ failed
  | delete c iKey failed => exact h.write c _ failed

/-- The register of an AUTOINCREMENT counter only grows. -/
theorem le_update {regs : ℕ → Int64} {p3 : ℕ} {v : Int64} (h : regs p3 < v) (r : ℕ) :
    regs r ≤ Function.update regs p3 v r := by
  by_cases heq : r = p3
  · subst heq
    rw [Function.update_self]
    exact Int64.le_of_lt h
  · rw [Function.update_of_ne heq]
    exact Int64.le_refl _

/-- A register never gets smaller. -/
theorem regs_le_step {s : State} (h : Inv s) (op : Op) (r : ℕ) : s.regs r ≤ (step s op).regs r := by
  cases op with
  | openCursor c => exact Int64.le_refl _
  | closeCursor c => exact Int64.le_refl _
  | newRowid c p3 env =>
    rcases (newRowid_spec h c p3 env).regs with heq | ⟨v, -, hlt, heq⟩
    · rw [step, heq]
      exact Int64.le_refl _
    · rw [step, heq]
      exact le_update hlt r
  | insert c iKey failed =>
    rw [step, regs_write]
    exact Int64.le_refl _
  | delete c iKey failed =>
    rw [step, regs_write]
    exact Int64.le_refl _

open Run

/-- The invariant after a run. -/
theorem Inv.last {s : State} (h : Inv s) (ops : List Op) : Inv (last Rowid.step s ops) :=
  last_of_invariant (fun _ op hs _ => hs.step op) h (everyStep_true Rowid.step s ops)

/-- No random rowid is drawn in a run of AUTOINCREMENT instructions. -/
theorem Calm.last {s : State} (hinv : Inv s) (h : Calm s) {ops : List Op}
    (hops : ∀ op ∈ ops, op.Autoinc) : Calm (last Rowid.step s ops) := by
  induction ops generalizing s with
  | nil => exact h
  | cons op ops ih =>
    rw [List.forall_mem_cons] at hops
    exact ih (hinv.step op) (h.step hinv hops.1) hops.2

/-- The counter only grows over a run. -/
theorem regs_le_last {s : State} (h : Inv s) (ops : List Op) (r : ℕ) :
    s.regs r ≤ (last step s ops).regs r := by
  induction ops generalizing s with
  | nil => exact Int64.le_refl _
  | cons op ops ih => exact Int64.le_trans (regs_le_step h op r) (ih (h.step op))

/-- What a rowid for `AUTOINCREMENT` is above: all that its register has held, and every rowid that
came from it. -/
def AboveHistory (start : State) (ops : List Op) (p3 : ℕ) (v : Int64) : Prop :=
  (∀ n, (last step start (ops.take n)).regs p3 < v) ∧
    ∀ before c env after w, ops = before ++ .newRowid c p3 env :: after →
      (newRowid (last step start before) c p3 env).2 = .ok w → w < v

/-- **New rowids are fresh.** After any steps on a table with any keys, the opcode adds without
overflow, and if it succeeds the rowid is no key of the table. If the steps are those of an
`AUTOINCREMENT` table, it is above all that its register has held and given before. -/
theorem newRowid_fresh (keys : List Int64) (regs : ℕ → Int64) (ops : List Op) (c p3 : ℕ)
    (env : Env) :
    let s := last step (closed keys regs) ops
    let r := (newRowid s c p3 env).2
    r ≠ .error .overflow ∧ (∀ v, r = .ok v → v ∉ s.keys) ∧
      ((∀ op ∈ ops, op.Autoinc) → p3 ≠ 0 →
        ∀ v, r = .ok v → AboveHistory (closed keys regs) ops p3 v) := by
  intro s r
  have hinv : Inv s := (inv_closed keys regs).last ops
  have htook := newRowid_spec hinv c p3 env
  refine ⟨htook.ne_overflow, htook.fresh, fun hops hp3 v hv => ?_⟩
  have hcalm : Calm s := (calm_closed keys regs).last (inv_closed keys regs) hops
  have hlt := ((htook.autoinc hcalm hp3).2 v hv).1
  refine ⟨fun n => ?_, fun before c' env' after w hsplit hw => ?_⟩
  · -- the register has only grown since
    have hle := regs_le_last ((inv_closed keys regs).last (ops.take n)) (ops.drop n) p3
    rw [← last_append, List.take_append_drop] at hle
    exact Int64.lt_of_le_of_lt hle hlt
  · have hinv' := (inv_closed keys regs).last before
    have hcalm' : Calm (last step (closed keys regs) before) :=
      (calm_closed keys regs).last (inv_closed keys regs) fun op hop =>
        hops op (hsplit ▸ List.mem_append_left _ hop)
    -- that rowid was put into the register
    have hregs := (((newRowid_spec hinv' c' p3 env').autoinc hcalm' hp3).2 w hw).2
    have hle := regs_le_last (hinv'.step (.newRowid c' p3 env')) after p3
    have hend : last step (step (last step (closed keys regs) before) (.newRowid c' p3 env')) after
        = s := by
      rw [← last_cons, ← last_append, ← hsplit]
    rw [hend, step, hregs, Function.update_self] at hle
    exact Int64.lt_of_le_of_lt hle hlt

/-- Searches that succeed. -/
def quietEnv : Env := ⟨0, true, fun _ => true, fun _ => 0⟩

/-- A cursor on a table with one key, whose register is above it. -/
def autoincSteps : List Op := [.openCursor 0, .newRowid 0 1 quietEnv]

theorem newRowid_autoincSteps :
    (newRowid (last step (closed [5] fun _ => 9) autoincSteps) 0 1 quietEnv).2 = .ok 11 ∧
      AboveHistory (closed [5] fun _ => 9) autoincSteps 1 11 := by
  have hvalue : (newRowid (last step (closed [5] fun _ => 9) autoincSteps) 0 1 quietEnv).2
      = .ok 11 := by rfl
  have hops : ∀ op ∈ autoincSteps, op.Autoinc := by
    intro op hop
    rw [autoincSteps, List.mem_cons, List.mem_singleton] at hop
    rcases hop with rfl | rfl
    · trivial
    · exact Nat.one_ne_zero
  exact ⟨hvalue, (newRowid_fresh [5] (fun _ => 9) autoincSteps 0 1 quietEnv).2.2 hops
    Nat.one_ne_zero 11 hvalue⟩

end Rowid

end Vdbe

end SqliteVms

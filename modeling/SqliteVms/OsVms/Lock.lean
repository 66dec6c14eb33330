import Mathlib.Data.Fintype.Basic
import SqliteVms.Lib.Run

/-!
# File locks on the OpenVMS lock manager

`vmsLock` and `vmsUnLock` translate SQLite's five locking levels to lock-manager modes with the
table `lock_modes` and convert the connection's one lock on the file to the new mode. What the
lock manager does with a conversion is taken from its documentation: it grants the new mode when
it is compatible with every mode granted to another lock on the resource. `sys$enqw` waits for a
conversion that is not granted, or ends it with an error such as a detected deadlock; either way
the old mode stays granted, which is the `SQLITE_BUSY` branch here.

`vmsCheckReservedLock` asks the lock manager for the state of the caller's own lock only.

## Main definitions

* `lockModes`, `compatible`, `convert` — the mapping, the matrix, one conversion
* `vmsLock`, `vmsUnLock`, `vmsCheckReservedLock` — the three methods
* `LockOp`, `LockOp.Allowed`, `applyOp` — the calls of the pager, in any interleaving
* `LockProtocol` — what SQLite asks of a locking layer, of one state

## Main results

* `LockInv.apply` — the modes granted stay compatible, whatever is called
* `exclusion_of_run` — mutual exclusion, in every reachable state
* `LockInv.lockProtocol_iff` — a reachable state meets the protocol exactly when it is quiet
* `every_lockProtocol_iff` — the runs all of whose states meet it
-/

namespace SqliteVms

namespace OsVms

/-- `SQLITE_LOCK_NONE` to `SQLITE_LOCK_EXCLUSIVE`. -/
inductive Level
  | none
  | shared
  | reserved
  | pending
  | exclusive
  deriving DecidableEq, Repr

/-- The lock-manager modes the table uses: null, protected read, protected write, exclusive. -/
inductive Mode
  | nl
  | pr
  | pw
  | ex
  deriving DecidableEq, Repr

/-- The table `lock_modes`. The entry for `SQLITE_LOCK_PENDING` is `-1`, no mode at all. -/
def lockModes : Level → Option Mode
  | .none => some .nl
  | .shared => some .pr
  | .reserved => some .pw
  | .pending => Option.none
  | .exclusive => some .ex

/-- The compatibility matrix of the lock manager, on these modes. -/
def compatible : Mode → Mode → Bool
  | .nl, _ => true
  | _, .nl => true
  | .pr, .pr => true
  | _, _ => false

theorem compatible_comm (a b : Mode) : compatible a b = compatible b a := by
  cases a <;> cases b <;> rfl

/-- One connection: the level its pager believes it holds, and the mode granted to its lock. -/
structure Conn where
  eLock : Level
  granted : Mode
  deriving DecidableEq, Repr

variable {n : ℕ}

/-- All connections to one file. -/
abbrev LockState (n : ℕ) := Fin n → Conn

/-- No connection holds anything. -/
def unlocked : LockState n := fun _ => ⟨.none, .nl⟩

/-- `sys$enqw` with `LCK$M_CONVERT`: the new mode when every other granted mode allows it. -/
def convert (s : LockState n) (i : Fin n) (m : Mode) : Bool :=
  decide (∀ j, j ≠ i → compatible m (s j).granted = true)

/-- The result codes of the lock methods. -/
inductive LockRc
  | ok
  | busy
  | ioerrUnlock
  deriving DecidableEq, Repr

/-- Convert the lock of connection `i` to the mode of level `l`; `refused` is the result code of a
conversion that is not granted. The pager records the level it was given. -/
def convertTo (refused : LockRc) (s : LockState n) (i : Fin n) (l : Level) :
    LockRc × LockState n :=
  match lockModes l with
  | some m => if convert s i m then (.ok, Function.update s i ⟨l, m⟩) else (refused, s)
  | Option.none => (refused, s)

def vmsLock (s : LockState n) (i : Fin n) (l : Level) : LockRc × LockState n :=
  convertTo .busy s i l

def vmsUnLock (s : LockState n) (i : Fin n) (l : Level) : LockRc × LockState n :=
  convertTo .ioerrUnlock s i l

/-- `vmsCheckReservedLock`: the granted mode of the caller's own lock, compared with the one entry
of the table. -/
def vmsCheckReservedLock (s : LockState n) (i : Fin n) : Bool :=
  decide (some (s i).granted = lockModes .reserved)

/-! ### The pager's calls -/

/-- One call by connection `i`. -/
inductive LockOp (n : ℕ)
  | lock (i : Fin n) (l : Level)
  | unlock (i : Fin n) (l : Level)
  deriving DecidableEq, Repr

/-- The steps upwards a pager takes. The one from `SHARED` to `EXCLUSIVE` is how it takes a hot
journal. -/
def upward : Level → Level → Bool
  | .none, .shared => true
  | .shared, .reserved => true
  | .shared, .exclusive => true
  | .reserved, .exclusive => true
  | _, _ => false

/-- The steps downwards: to `SHARED` or `NONE`, from the same level or above. -/
def downward : Level → Level → Bool
  | _, .none => true
  | .none, _ => false
  | _, .shared => true
  | _, _ => false

/-- The order in which a pager calls the methods. -/
def LockOp.Allowed (s : LockState n) : LockOp n → Prop
  | .lock i l => upward (s i).eLock l
  | .unlock i l => downward (s i).eLock l

/-- The state after one call. -/
def applyOp (s : LockState n) : LockOp n → LockState n
  | .lock i l => (vmsLock s i l).2
  | .unlock i l => (vmsUnLock s i l).2

/-! ### What SQLite asks of a locking layer -/

/-- `RESERVED` or stronger. -/
def Level.writes : Level → Bool
  | .reserved => true
  | .pending => true
  | .exclusive => true
  | _ => false

/-- The locking protocol, as a property of one state. -/
structure LockProtocol (s : LockState n) : Prop where
  /-- At most one connection holds `RESERVED` or stronger. -/
  one_writer : ∀ i j, (s i).eLock.writes → (s j).eLock.writes → i = j
  /-- While one holds `EXCLUSIVE`, no other holds `SHARED` or more. -/
  exclusive_alone : ∀ i j, i ≠ j → (s i).eLock = .exclusive → (s j).eLock = .none
  /-- With no writer about, a reader is given `RESERVED` whoever else is reading. -/
  reserve_among_readers : ∀ i, (s i).eLock = .shared → (∀ j, ¬ (s j).eLock.writes) →
    (vmsLock s i .reserved).1 = .ok
  /-- Beside a `RESERVED` holder, a further connection is given `SHARED`. -/
  read_beside_reserved : ∀ i j, (s i).eLock = .reserved → (s j).eLock = .none →
    (vmsLock s j .shared).1 = .ok
  /-- The reserved-lock probe answers for all connections. -/
  probe : ∀ i, vmsCheckReservedLock s i = true ↔ ∃ j, (s j).eLock.writes

/-! ### Mutual exclusion -/

/-- What the lock manager maintains: each granted mode is the one the table gives for the level,
and the modes granted to two connections are compatible. -/
structure LockInv (s : LockState n) : Prop where
  mapped : ∀ i, lockModes (s i).eLock = some (s i).granted
  compat : ∀ i j, i ≠ j → compatible (s i).granted (s j).granted

theorem lockInv_unlocked : LockInv (unlocked : LockState n) :=
  ⟨fun _ => rfl, fun _ _ _ => rfl⟩

/-- What a conversion can do: it is granted, and then every other granted mode allows the new
one, or it changes nothing. -/
theorem convertTo_cases (rc : LockRc) (s : LockState n) (i : Fin n) (l : Level) :
    (∃ m, lockModes l = some m ∧ (∀ j, j ≠ i → compatible m (s j).granted) ∧
        convertTo rc s i l = (.ok, Function.update s i ⟨l, m⟩)) ∨
      (∀ m, lockModes l = some m → ∃ j, j ≠ i ∧ compatible m (s j).granted = false) ∧
        convertTo rc s i l = (rc, s) := by
  unfold convertTo
  cases hm : lockModes l with
  | none => exact Or.inr ⟨fun m h => (Option.some_ne_none m h.symm).elim, rfl⟩
  | some m =>
    by_cases hc : convert s i m = true
    · exact Or.inl ⟨m, rfl, of_decide_eq_true hc, by simp only [hc, if_true]⟩
    · refine Or.inr ⟨fun m' h => ?_, by simp only [hc, Bool.false_eq_true, if_false]⟩
      cases h
      simp only [convert, decide_eq_true_eq] at hc
      push Not at hc
      simpa using hc

theorem LockInv.update {s : LockState n} (h : LockInv s) {i : Fin n} {l : Level} {m : Mode}
    (hm : lockModes l = some m) (hgrant : ∀ j, j ≠ i → compatible m (s j).granted) :
    LockInv (Function.update s i ⟨l, m⟩) := by
  refine ⟨fun j => ?_, fun j k hjk => ?_⟩
  · rcases eq_or_ne j i with rfl | hj
    · simpa using hm
    · rw [Function.update_of_ne hj]
      exact h.mapped j
  · rcases eq_or_ne j i with rfl | hj
    · rw [Function.update_self, Function.update_of_ne hjk.symm]
      exact hgrant k hjk.symm
    · rw [Function.update_of_ne hj]
      rcases eq_or_ne k i with rfl | hk
      · rw [Function.update_self, compatible_comm]
        exact hgrant j hj
      · rw [Function.update_of_ne hk]
        exact h.compat j k hjk

theorem LockInv.convertTo {s : LockState n} (h : LockInv s) (rc : LockRc) (i : Fin n) (l : Level) :
    LockInv (convertTo rc s i l).2 := by
  obtain ⟨m, hm, hgrant, heq⟩ | ⟨-, heq⟩ := convertTo_cases rc s i l
  · rw [heq]
    exact h.update hm hgrant
  · rw [heq]
    exact h

/-- **Compatibility is kept** by every call of every connection. -/
theorem LockInv.apply {s : LockState n} (h : LockInv s) (op : LockOp n) :
    LockInv (applyOp s op) := by
  cases op with
  | lock i l => exact h.convertTo _ i l
  | unlock i l => exact h.convertTo _ i l

theorem Level.writes_iff {l : Level} {m : Mode} (h : lockModes l = some m) :
    l.writes ↔ m = .pw ∨ m = .ex := by
  cases l <;> cases h <;> simp [Level.writes]

theorem LockInv.one_writer {s : LockState n} (h : LockInv s) {i j : Fin n}
    (hi : (s i).eLock.writes) (hj : (s j).eLock.writes) : i = j := by
  by_contra hne
  have hc := h.compat i j hne
  rw [Level.writes_iff (h.mapped i)] at hi
  rw [Level.writes_iff (h.mapped j)] at hj
  rcases hi with hi | hi <;> rcases hj with hj | hj <;> simp [hi, hj, compatible] at hc

/-- Beside a writer every other connection is at `NONE`. This is already stronger than the
protocol asks: protected write excludes protected read. -/
theorem LockInv.alone_of_writes {s : LockState n} (h : LockInv s) {i j : Fin n} (hne : i ≠ j)
    (hi : (s i).eLock.writes) : (s j).eLock = .none := by
  have hc := h.compat i j hne
  have hm := h.mapped j
  rw [Level.writes_iff (h.mapped i)] at hi
  have hnl : (s j).granted = .nl := by
    rcases hi with hi | hi <;> rw [hi] at hc <;> cases hg : (s j).granted <;>
      simp [hg, compatible] at hc ⊢
  rw [hnl] at hm
  cases hl : (s j).eLock <;> simp [hl, lockModes] at hm ⊢

/-- **Mutual exclusion.** The first two clauses of the protocol hold in every reachable state. -/
theorem exclusion_of_run {ops : List (LockOp n)}
    (hrun : Run.EveryStep applyOp (fun s op => op.Allowed s) (unlocked : LockState n) ops)
    {s : LockState n} (hs : s = Run.last applyOp unlocked ops) :
    (∀ i j, (s i).eLock.writes → (s j).eLock.writes → i = j) ∧
      ∀ i j, i ≠ j → (s i).eLock = .exclusive → (s j).eLock = .none := by
  have h : LockInv s := by
    rw [hs]
    exact Run.last_of_invariant (fun s op h _ => h.apply op) lockInv_unlocked hrun
  exact ⟨fun i j hi hj => h.one_writer hi hj,
    fun i j hne hi => h.alone_of_writes hne (by rw [hi]; rfl)⟩

theorem exclusion_of_run_writer :
    let ops : List (LockOp 2) := [.lock 0 .shared, .lock 0 .reserved, .lock 1 .shared]
    let s := Run.last applyOp unlocked ops
    (∀ i j, (s i).eLock.writes → (s j).eLock.writes → i = j) ∧
      ∀ i j, i ≠ j → (s i).eLock = .exclusive → (s j).eLock = .none := by
  have hrun : Run.EveryStep applyOp (fun s op => op.Allowed s) (unlocked : LockState 2)
      [.lock 0 .shared, .lock 0 .reserved, .lock 1 .shared] := ⟨rfl, rfl, rfl, trivial⟩
  exact exclusion_of_run hrun rfl

/-! ### The states that meet the protocol -/

/-- At most one reader and no writer, or a single connection that holds `RESERVED`. -/
def Quiet (s : LockState n) : Prop :=
  (∀ i, (s i).eLock.writes = false) ∧
      (∀ i j, (s i).eLock = .shared → (s j).eLock = .shared → i = j) ∨
    ∃ i, (s i).eLock = .reserved ∧ ∀ j, j = i

theorem LockInv.granted_eq {s : LockState n} (h : LockInv s) {i : Fin n} {l : Level} {m : Mode}
    (hl : (s i).eLock = l) (hm : lockModes l = some m) : (s i).granted = m := by
  have := h.mapped i
  rw [hl, hm] at this
  exact (Option.some.inj this).symm

theorem LockInv.checkReserved_iff {s : LockState n} (h : LockInv s) (i : Fin n) :
    vmsCheckReservedLock s i = true ↔ (s i).eLock = .reserved := by
  have hm := h.mapped i
  rw [vmsCheckReservedLock, decide_eq_true_iff, ← hm]
  cases (s i).eLock <;> simp [lockModes]

/-- A reader beside another reader is refused `RESERVED`. -/
theorem LockInv.reserve_refused {s : LockState n} (h : LockInv s) {i j : Fin n} (hne : j ≠ i)
    (hj : (s j).eLock = .shared) : (vmsLock s i .reserved).1 ≠ .ok := by
  obtain ⟨m, hm, hgrant, -⟩ | ⟨-, heq⟩ := convertTo_cases .busy s i .reserved
  · cases hm
    have := hgrant j hne
    rw [h.granted_eq hj rfl] at this
    cases this
  · rw [vmsLock, heq]
    exact LockRc.noConfusion

/-- **Which reachable states meet the protocol.** -/
theorem LockInv.lockProtocol_iff {s : LockState n} (h : LockInv s) :
    LockProtocol s ↔ Quiet s := by
  constructor
  · intro hp
    by_cases hw : ∃ i, (s i).eLock.writes = true
    · obtain ⟨i, hi⟩ := hw
      -- the probe of any connection must see the writer, so every connection is the writer
      have hres : ∀ j, (s j).eLock = .reserved := fun j =>
        (h.checkReserved_iff j).mp ((hp.probe j).mpr ⟨i, hi⟩)
      refine Or.inr ⟨i, hres i, fun j => ?_⟩
      exact hp.one_writer j i (by rw [hres j]; rfl) hi
    · push Not at hw
      refine Or.inl ⟨fun i => by simpa using hw i, fun i j hi hj => ?_⟩
      by_contra hne
      exact h.reserve_refused (Ne.symm hne) hj (hp.reserve_among_readers i hi hw)
  · rintro (⟨hw, hone⟩ | ⟨i, hi, halone⟩)
    · refine ⟨fun i j hi _ => absurd hi (by simp [hw i]), fun i j _ hi => ?_, fun i hi _ => ?_,
        fun i j hi _ => ?_, fun i => ?_⟩
      · have := hw i
        rw [hi] at this
        cases this
      · obtain ⟨m, hm, hgrant, heq⟩ | ⟨hno, -⟩ := convertTo_cases .busy s i .reserved
        · rw [vmsLock, heq]
        · obtain ⟨j, hne, hc⟩ := hno .pw rfl
          have hj : (s j).eLock = .none := by
            have hwj := hw j
            have hsj : (s j).eLock ≠ .shared := fun hs => hne (hone j i hs hi)
            cases hl : (s j).eLock <;> simp_all [Level.writes]
          rw [h.granted_eq hj rfl] at hc
          cases hc
      · have := hw i
        rw [hi] at this
        cases this
      · rw [h.checkReserved_iff]
        constructor
        · intro hi
          have := hw i
          rw [hi] at this
          cases this
        · rintro ⟨j, hj⟩
          rw [hw j] at hj
          cases hj
    · refine ⟨fun j k _ _ => (halone j).trans (halone k).symm,
        fun j k hjk _ => absurd ((halone j).trans (halone k).symm) hjk,
        fun j hj _ => ?_, fun j k _ hk => ?_, fun j => ?_⟩
      · rw [halone j, hi] at hj
        cases hj
      · rw [halone k, hi] at hk
        cases hk
      · rw [h.checkReserved_iff, halone j]
        exact iff_of_true hi ⟨i, by rw [hi]; rfl⟩

/-! ### Runs -/

/-- The calls after which a quiet state is still quiet: `SHARED` while every other connection
holds nothing, `RESERVED` by the only connection there is, any unlock. -/
def LockOp.Harmless (s : LockState n) : LockOp n → Prop
  | .lock i .shared => ∀ j, j ≠ i → (s j).eLock = .none
  | .lock i .reserved => ∀ j, j = i
  | .lock _ _ => False
  | .unlock _ _ => True

theorem Quiet.others_none {s : LockState n} (hq : Quiet s) {i : Fin n}
    (hi : (s i).eLock ≠ .none) {j : Fin n} (hj : j ≠ i) : (s j).eLock = .none := by
  obtain ⟨hw, hone⟩ | ⟨k, -, halone⟩ := hq
  · have hsi : (s i).eLock = .shared := by
      have := hw i
      cases hl : (s i).eLock <;> simp_all [Level.writes]
    have hsj : (s j).eLock ≠ .shared := fun hs => hj (hone j i hs hsi)
    have := hw j
    cases hl : (s j).eLock <;> simp_all [Level.writes]
  · exact absurd ((halone j).trans (halone i).symm) hj

/-- With every other connection at `NONE`, any mode is granted. -/
theorem LockInv.granted_of_others_none {s : LockState n} (h : LockInv s) {i : Fin n}
    (ho : ∀ j, j ≠ i → (s j).eLock = .none) (rc : LockRc) {l : Level} {m : Mode}
    (hm : lockModes l = some m) :
    OsVms.convertTo rc s i l = (.ok, Function.update s i ⟨l, m⟩) := by
  obtain ⟨m', hm', -, heq⟩ | ⟨hno, -⟩ := convertTo_cases rc s i l
  · rw [hm] at hm'
    cases hm'
    exact heq
  · obtain ⟨j, hj, hc⟩ := hno m hm
    rw [h.granted_eq (ho j hj) rfl, compatible_comm] at hc
    cases hc

/-- The quiet states with every connection but `i` at `NONE`. -/
theorem quiet_update_iff {s : LockState n} {i : Fin n} (ho : ∀ j, j ≠ i → (s j).eLock = .none)
    (l : Level) (m : Mode) :
    Quiet (Function.update s i ⟨l, m⟩) ↔
      l = .none ∨ l = .shared ∨ l = .reserved ∧ ∀ j, j = i := by
  have hself : (Function.update s i ⟨l, m⟩ i).eLock = l := by rw [Function.update_self]
  have hoff : ∀ j, j ≠ i → (Function.update s i ⟨l, m⟩ j).eLock = .none := fun j hj => by
    rw [Function.update_of_ne hj]
    exact ho j hj
  constructor
  · rintro (⟨hw, -⟩ | ⟨k, hk, halone⟩)
    · have := hw i
      rw [hself] at this
      cases l <;> simp_all [Level.writes]
    · have hik : i = k := halone i
      subst hik
      rw [hself] at hk
      exact Or.inr (Or.inr ⟨hk, halone⟩)
  · intro hl
    by_cases hres : l = .reserved ∧ ∀ j, j = i
    · exact Or.inr ⟨i, hself.trans hres.1, hres.2⟩
    · have hlow : l = .none ∨ l = .shared := by
        rcases hl with hl | hl | hl
        · exact Or.inl hl
        · exact Or.inr hl
        · exact absurd hl hres
      refine Or.inl ⟨fun j => ?_, fun j k hj hk => ?_⟩
      · rcases eq_or_ne j i with rfl | hj
        · rw [hself]
          rcases hlow with rfl | rfl <;> rfl
        · rw [hoff j hj]
          rfl
      · have hat : ∀ q, (Function.update s i ⟨l, m⟩ q).eLock = .shared → q = i := by
          intro q hq
          by_contra hne
          rw [hoff q hne] at hq
          cases hq
        rw [hat j hj, hat k hk]

/-- A first lock, from `NONE`, keeps a state quiet exactly when nobody else holds anything. -/
theorem LockInv.quiet_lock_shared {s : LockState n} (h : LockInv s) (hq : Quiet s) {i : Fin n}
    (hi : (s i).eLock = .none) :
    Quiet (vmsLock s i .shared).2 ↔ ∀ j, j ≠ i → (s j).eLock = .none := by
  constructor
  · intro hafter
    by_contra hn
    push Not at hn
    obtain ⟨j, hj, hne⟩ := hn
    -- `j` reads, so `i` is let in beside it
    have hothers : ∀ k, k ≠ j → (s k).eLock = .none := fun k hk => hq.others_none hne hk
    have hsj : (s j).eLock = .shared := by
      obtain ⟨hw, -⟩ | ⟨k, hk, halone⟩ := hq
      · have := hw j
        cases hl : (s j).eLock <;> simp_all [Level.writes]
      · rw [halone i, hk] at hi
        cases hi
    have hgrant : vmsLock s i .shared = (.ok, Function.update s i ⟨.shared, .pr⟩) := by
      obtain ⟨m, hm, -, heq⟩ | ⟨hno, -⟩ := convertTo_cases .busy s i .shared
      · cases hm
        exact heq
      · obtain ⟨k, -, hc⟩ := hno .pr rfl
        rcases eq_or_ne k j with rfl | hk
        · rw [h.granted_eq hsj rfl] at hc
          cases hc
        · rw [h.granted_eq (hothers k hk) rfl] at hc
          cases hc
    rw [hgrant] at hafter
    dsimp only at hafter
    have hself : (Function.update s i ⟨.shared, .pr⟩ i).eLock = .shared := by
      rw [Function.update_self]
    have hother := hafter.others_none (i := i) (by rw [hself]; exact Level.noConfusion) hj
    rw [Function.update_of_ne hj, hsj] at hother
    cases hother
  · intro ho
    rw [vmsLock, h.granted_of_others_none ho .busy rfl]
    exact (quiet_update_iff ho .shared .pr).mpr (Or.inr (Or.inl rfl))

theorem LockInv.quiet_apply_iff {s : LockState n} (h : LockInv s) (hq : Quiet s) {op : LockOp n}
    (ha : op.Allowed s) : Quiet (applyOp s op) ↔ op.Harmless s := by
  cases op with
  | lock i l =>
    have hup : upward (s i).eLock l = true := ha
    by_cases hi : (s i).eLock = .none
    · rw [hi] at hup
      cases l <;> simp [upward] at hup
      exact h.quiet_lock_shared hq hi
    · have ho : ∀ j, j ≠ i → (s j).eLock = .none := fun j hj => hq.others_none hi hj
      cases l with
      | none => cases hl : (s i).eLock <;> simp [hl, upward] at hup
      | shared => cases hl : (s i).eLock <;> simp [hl, upward] at hup hi
      | pending => cases hl : (s i).eLock <;> simp [hl, upward] at hup
      | reserved =>
        rw [applyOp, vmsLock, h.granted_of_others_none ho .busy rfl, quiet_update_iff ho]
        simp [LockOp.Harmless]
      | exclusive =>
        rw [applyOp, vmsLock, h.granted_of_others_none ho .busy rfl, quiet_update_iff ho]
        simp [LockOp.Harmless]
  | unlock i l =>
    refine iff_of_true ?_ trivial
    have hdown : downward (s i).eLock l = true := ha
    by_cases hi : (s i).eLock = .none
    · have hl : l = .none := by
        rw [hi] at hdown
        cases l <;> simp [downward] at hdown ⊢
      -- giving up nothing leaves the levels as they are
      subst hl
      obtain ⟨m, hm, -, heq⟩ | ⟨-, heq⟩ := convertTo_cases .ioerrUnlock s i .none
      · cases hm
        rw [applyOp, vmsUnLock, heq, show Function.update s i ⟨.none, .nl⟩ = s from ?_]
        · exact hq
        · have := h.granted_eq hi rfl
          rw [Function.update_eq_self_iff]
          cases hs : s i
          simp_all
      · rw [applyOp, vmsUnLock, heq]
        exact hq
    · have ho : ∀ j, j ≠ i → (s j).eLock = .none := fun j hj => hq.others_none hi hj
      have hl : l = .none ∨ l = .shared := by
        cases l <;> cases hl : (s i).eLock <;> simp [hl, downward] at hdown ⊢
      rcases hl with rfl | rfl
      · rw [applyOp, vmsUnLock, h.granted_of_others_none ho _ rfl, quiet_update_iff ho]
        exact Or.inl rfl
      · rw [applyOp, vmsUnLock, h.granted_of_others_none ho _ rfl, quiet_update_iff ho]
        exact Or.inr (Or.inl rfl)

theorem quiet_unlocked : Quiet (unlocked : LockState n) :=
  Or.inl ⟨fun _ => rfl, fun _ _ h => by cases h⟩

/-- **Which runs meet the protocol throughout.** From the unlocked file, whatever connections there
are and however their calls interleave, every state of a run meets the locking protocol if and
only if every call of it is harmless where it is made. -/
theorem every_lockProtocol_iff {ops : List (LockOp n)}
    (hrun : Run.EveryStep applyOp (fun s op => op.Allowed s) (unlocked : LockState n) ops) :
    Run.Every applyOp LockProtocol unlocked ops ↔
      Run.EveryStep applyOp (fun s op => op.Harmless s) unlocked ops := by
  refine Run.every_iff_everyStep (I := LockInv) (fun s op hs _ => hs.apply op) ?_ lockInv_unlocked
    (lockInv_unlocked.lockProtocol_iff.mpr quiet_unlocked) hrun
  intro s op hs hp ha
  rw [(hs.apply op).lockProtocol_iff]
  exact hs.quiet_apply_iff (hs.lockProtocol_iff.mp hp) ha

/-- Two connections that take turns reading never leave the protocol. -/
theorem every_lockProtocol_turns :
    Run.EveryStep applyOp (fun s op => op.Allowed s) (unlocked : LockState 2)
        [.lock 0 .shared, .unlock 0 .none, .lock 1 .shared] ∧
      Run.Every applyOp LockProtocol (unlocked : LockState 2)
        [.lock 0 .shared, .unlock 0 .none, .lock 1 .shared] := by
  have hrun : Run.EveryStep applyOp (fun s op => op.Allowed s) (unlocked : LockState 2)
      [.lock 0 .shared, .unlock 0 .none, .lock 1 .shared] := ⟨rfl, rfl, rfl, trivial⟩
  refine ⟨hrun, (every_lockProtocol_iff hrun).mpr ⟨?_, trivial, ?_, trivial⟩⟩
  · exact fun _ _ => rfl
  · show ∀ j : Fin 2, j ≠ 1 → _
    decide

/-- **Two readers.** Once two connections hold `SHARED`, neither is given `RESERVED`; and when one
connection does hold `RESERVED`, the probe of the other reports that nobody does. -/
theorem lockProtocol_fails_two_connections :
    (Run.EveryStep applyOp (fun s op => op.Allowed s) (unlocked : LockState 2)
        [.lock 0 .shared, .lock 1 .shared] ∧
      ¬ LockProtocol (Run.last applyOp (unlocked : LockState 2)
        [.lock 0 .shared, .lock 1 .shared])) ∧
    (Run.EveryStep applyOp (fun s op => op.Allowed s) (unlocked : LockState 2)
        [.lock 0 .shared, .lock 0 .reserved] ∧
      ¬ LockProtocol (Run.last applyOp (unlocked : LockState 2)
        [.lock 0 .shared, .lock 0 .reserved])) := by
  refine ⟨⟨⟨rfl, rfl, trivial⟩, fun h => ?_⟩, ⟨rfl, rfl, trivial⟩, fun h => ?_⟩
  · exact absurd (h.reserve_among_readers 0 rfl (by decide)) (by decide)
  · exact absurd ((h.probe 1).mpr ⟨0, rfl⟩) (by decide)

end OsVms

end SqliteVms

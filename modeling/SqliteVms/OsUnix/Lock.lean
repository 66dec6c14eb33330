import Mathlib.Algebra.Order.Ring.Int
import Mathlib.Data.Fintype.Card
import SqliteVms.Lib.Run

/-!
# File locks on POSIX locks

`unixLock` and `posixUnlock` of `os_unix.c`. The connections of a process share the locks of the
process, and each of the functions holds a mutex of the process; the locks are taken by calls of
`fcntl`, between any two of which the other processes go on. A call that would not be refused may
fail too.

The range of shared bytes is locked as a whole. `bProcessLock` is clear, and `handleNFSUnlock` is.

## Main definitions

* `unixLock`, `posixUnlock` — the functions, cut at their calls of `fcntl`
* `State`, `step`, `Op.Allowed` — the processes and their steps
* `Inv` — the invariant

## Main results

* `noLeak_of_run` — no lock is left behind
* `posixExclusion_of_run` — exclusion
-/

namespace SqliteVms

namespace OsUnix

/-- `NO_LOCK` to `EXCLUSIVE_LOCK`. -/
inductive FileLock
  | no
  | shared
  | reserved
  | pending
  | exclusive
  deriving DecidableEq

def FileLock.val : FileLock → ℕ
  | .no => 0
  | .shared => 1
  | .reserved => 2
  | .pending => 3
  | .exclusive => 4

/-- `F_UNLCK`, `F_RDLCK` and `F_WRLCK`. -/
inductive LockType
  | unlck
  | rdlck
  | wrlck
  deriving DecidableEq

/-- `PENDING_BYTE`, `RESERVED_BYTE`, and the `SHARED_SIZE` bytes from `SHARED_FIRST` on. -/
inductive Byte
  | pending
  | reserved
  | shared
  deriving DecidableEq

instance : Fintype Byte := ⟨{.pending, .reserved, .shared}, fun x => by cases x <;> decide⟩

/-- The ranges that are locked or unlocked: one of these, the first two, or the whole file. -/
inductive Range
  | one (b : Byte)
  | two
  | all

def Range.Has : Range → Byte → Prop
  | .one b, x => x = b
  | .two, x => x ≠ .shared
  | .all, _ => True

instance (r : Range) (x : Byte) : Decidable (r.Has x) := by
  cases r <;> unfold Range.Has <;> infer_instance

/-- What `fcntl` answers. The error `busy` is one that `sqliteErrorFromPosixError` makes
`SQLITE_BUSY` of. -/
inductive Answer
  | granted
  | busy
  | failed
  deriving DecidableEq

inductive Rc
  | ok
  | busy
  | ioerrLock
  | ioerrUnlock
  | ioerrRdlock
  deriving DecidableEq

def Answer.rc : Answer → Rc
  | .granted => .ok
  | .busy => .busy
  | .failed => .ioerrLock

/-- The `eFileLock` and `nShared` of a `unixInodeInfo`, and the `eFileLock` of each `unixFile`. -/
structure Proc (κ : Type*) where
  eFileLock : FileLock
  nShared : ℕ
  file : κ → FileLock

/-- What is left of a call: the answer and the state of the process, or a call of `fcntl`. -/
inductive Prog (κ : Type*)
  | ret (rc : Rc) (p : Proc κ)
  | sys (l_type : LockType) (r : Range) (k : Answer → Prog κ)

variable {κ : Type*} [DecidableEq κ]

def Proc.set (p : Proc κ) (c : κ) (e : FileLock) : Proc κ :=
  { p with file := Function.update p.file c e, eFileLock := e }

/-- `unixLock` behind the lock on the pending byte. -/
def lockRest (p : Proc κ) (c : κ) (e : FileLock) : Prog κ :=
  if e = .shared then
    .sys .rdlck (.one .shared) fun a => .sys .unlck (.one .pending) fun b =>
      if a ≠ .granted then .ret a.rc p
      else if b ≠ .granted then .ret .ioerrUnlock p
      else .ret .ok { p.set c .shared with nShared := 1 }
  else if e = .exclusive ∧ 1 < p.nShared then .ret .busy (p.set c .pending)
  else
    .sys .wrlck (.one (if e = .reserved then .reserved else .shared)) fun a =>
      if a = .granted then .ret .ok (p.set c e)
      else if e = .exclusive then .ret a.rc (p.set c .pending)
      else .ret a.rc p

def unixLock (p : Proc κ) (c : κ) (e : FileLock) : Prog κ :=
  if e.val ≤ (p.file c).val then .ret .ok p
  else if p.file c ≠ p.eFileLock ∧ (3 ≤ p.eFileLock.val ∨ 1 < e.val) then .ret .busy p
  else if e = .shared ∧ (p.eFileLock = .shared ∨ p.eFileLock = .reserved) then
    .ret .ok { p with file := Function.update p.file c .shared, nShared := p.nShared + 1 }
  else if e = .shared ∨ e = .exclusive ∧ (p.file c).val < 3 then
    .sys (if e = .shared then .rdlck else .wrlck) (.one .pending) fun a =>
      if a = .granted then lockRest p c e else .ret a.rc p
  else lockRest p c e

/-- `posixUnlock` behind the locks on the pending and the reserved byte. -/
def unlockRest (p : Proc κ) (c : κ) (e : FileLock) : Prog κ :=
  if e = .no then
    if p.nShared - 1 = 0 then
      .sys .unlck .all fun a =>
        .ret (if a = .granted then .ok else .ioerrUnlock) { p.set c .no with nShared := p.nShared - 1 }
    else .ret .ok { p with file := Function.update p.file c .no, nShared := p.nShared - 1 }
  else .ret .ok { p with file := Function.update p.file c e }

def unlockHigh (p : Proc κ) (c : κ) (e : FileLock) : Prog κ :=
  .sys .unlck .two fun a =>
    if a = .granted then unlockRest { p with eFileLock := .shared } c e else .ret .ioerrUnlock p

def posixUnlock (p : Proc κ) (c : κ) (e : FileLock) : Prog κ :=
  if (p.file c).val ≤ e.val then .ret .ok p
  else if 1 < (p.file c).val then
    if e = .shared then
      .sys .rdlck (.one .shared) fun a =>
        if a = .granted then unlockHigh p c e else .ret .ioerrRdlock p
    else unlockHigh p c e
  else unlockRest p c e

/-- The processes, the call that each is in and the connection that makes it, and the locks. -/
structure State (π κ : Type*) where
  proc : π → Proc κ
  call : π → Option (κ × Prog κ)
  locks : π → Byte → LockType

def start (π κ : Type*) : State π κ :=
  ⟨fun _ => ⟨.no, 0, fun _ => .no⟩, fun _ => none, fun _ _ => .unlck⟩

variable {π : Type*} [DecidableEq π]

def apply (locks : Byte → LockType) (t : LockType) (r : Range) : Byte → LockType :=
  fun x => if r.Has x then t else locks x

inductive Op (π κ : Type*)
  | lock (p : π) (c : κ) (e : FileLock)
  | unlock (p : π) (c : κ) (e : FileLock)
  | turn (p : π) (a : Answer)

/-- The next turn of a process: its call of `fcntl` is answered, or it returns. -/
def turn (s : State π κ) (p : π) (a : Answer) : State π κ :=
  match s.call p with
  | none => s
  | some (_, .ret _ x) =>
    { s with proc := Function.update s.proc p x, call := Function.update s.call p none }
  | some (c, .sys t r k) =>
    { s with
      call := Function.update s.call p (some (c, k a))
      locks := if a = .granted then Function.update s.locks p (apply (s.locks p) t r) else s.locks }

def step (s : State π κ) : Op π κ → State π κ
  | .lock p c e => { s with call := Function.update s.call p (some (c, unixLock (s.proc p) c e)) }
  | .unlock p c e => { s with call := Function.update s.call p (some (c, posixUnlock (s.proc p) c e)) }
  | .turn p a => turn s p a

/-- Locks of two processes on one byte. -/
def Compatible (t u : LockType) : Prop := t = .unlck ∨ u = .unlck ∨ (t = .rdlck ∧ u = .rdlck)

instance (t u : LockType) : Decidable (Compatible t u) := inferInstanceAs (Decidable (_ ∨ _ ∨ _))

/-- When a step is taken. The mutex of the process is free when a call begins, and the call is one
that the assertions allow; a lock is not granted beside one of another process that conflicts. -/
def Op.Allowed (s : State π κ) : Op π κ → Prop
  | .lock p c e => s.call p = none ∧ (((s.proc p).file c).val < e.val →
      ((s.proc p).file c ≠ .no ∨ e = .shared) ∧ e ≠ .pending ∧
        (e = .reserved → (s.proc p).file c = .shared))
  | .unlock p _ e => s.call p = none ∧ (e = .no ∨ e = .shared)
  | .turn p a => ∀ c t r k, s.call p = some (c, .sys t r k) → a = .granted →
      ∀ q x, q ≠ p → r.Has x → Compatible t (s.locks q x)

instance [Fintype π] (s : State π κ) (op : Op π κ) : Decidable (Op.Allowed s op) :=
  match op with
  | .lock p c e => inferInstanceAs (Decidable (s.call p = none ∧ (_ → _ ∧ _ ∧ (_ → _))))
  | .unlock p _ e => inferInstanceAs (Decidable (s.call p = none ∧ _))
  | .turn p a =>
    match hcall : s.call p with
    | none => .isTrue fun _ _ _ _ h => by cases hcall.symm.trans h
    | some (_, .ret _ _) => .isTrue fun _ _ _ _ h => by cases hcall.symm.trans h
    | some (_, .sys t r _) =>
      decidable_of_iff (a = .granted → ∀ q x, q ≠ p → r.Has x → Compatible t (s.locks q x))
        ⟨fun hall c t' r' k h => by
          cases hcall.symm.trans h
          exact hall, fun hall => hall _ _ _ _ hcall⟩

/-! ### One process -/

/-- The connections with a lock. -/
def holders [Fintype κ] (f : κ → FileLock) : Finset κ := Finset.univ.filter fun c => f c ≠ .no

/-- What holds of a process between calls. -/
structure Proc.Good [Fintype κ] (p : Proc κ) : Prop where
  count : p.nShared = (holders p.file).card
  le : ∀ c, (p.file c).val ≤ p.eFileLock.val
  top : p.eFileLock ≠ .no → ∃ c, p.file c = p.eFileLock
  uniq : ∀ c d, 1 < (p.file c).val → 1 < (p.file d).val → c = d
  alone : ∀ c d, p.file c = .exclusive → d ≠ c → p.file d = .no

/-- The locks of a process are those that its connections rely on. If `al`, no other process has a lock
on the shared bytes; a connection with `EXCLUSIVE_LOCK` relies on it. -/
structure Keeps (f : κ → FileLock) (al : Bool) (locks : Byte → LockType) : Prop where
  shared : ∀ c, f c ≠ .no → locks .shared ≠ .unlck
  reserved : ∀ c, f c = .reserved → locks .reserved = .wrlck
  pending : ∀ c, 3 ≤ (f c).val → locks .pending = .wrlck
  exclusive : ∀ c, f c = .exclusive → al = true
  al : al = true → locks .pending = .wrlck ∨ locks .shared = .wrlck

/-- Whether no other process has a lock on the shared bytes, after a call of `fcntl`. -/
def next (al : Bool) (locks : Byte → LockType) : Bool :=
  al && decide (locks .pending = .wrlck) || decide (locks .shared = .wrlck)

/-- A call is safe if the connections that rest, `f`, can rely on the locks throughout, and all can in
the end. The shared bytes are locked only beside a lock on them or on the pending byte. -/
def Safe [Fintype κ] (f : κ → FileLock) : Bool → (Byte → LockType) → Prog κ → Prop
  | al, locks, .ret _ p => Keeps f al locks ∧ p.Good ∧ Keeps p.file al locks
  | al, locks, .sys t r k => Keeps f al locks ∧
      (t ≠ .unlck → r.Has .shared → locks .pending ≠ .unlck ∨ locks .shared ≠ .unlck) ∧
      ∀ a, if a = .granted then Safe f (next al (apply locks t r)) (apply locks t r) (k a)
        else Safe f al locks (k a)

/-! ### The count of connections -/

variable [Fintype κ] {f : κ → FileLock} {al : Bool} {locks : Byte → LockType} {p : Proc κ} {c : κ}
  {e : FileLock}

omit [DecidableEq κ] in
theorem mem_holders {c : κ} : c ∈ holders f ↔ f c ≠ .no := by simp [holders]

theorem holders_update (hc : f c ≠ .no) (he : e ≠ .no) : holders (Function.update f c e) = holders f := by
  ext d
  rw [mem_holders, mem_holders]
  rcases eq_or_ne d c with rfl | hd
  · rw [Function.update_self]
    exact iff_of_true he hc
  · rw [Function.update_of_ne hd]

/-- One more connection holds a lock. -/
theorem card_holders_add (hc : f c = .no) (he : e ≠ .no) :
    (holders (Function.update f c e)).card = (holders f).card + 1 := by
  rw [← Finset.card_insert_of_notMem (mt mem_holders.mp (not_not.mpr hc))]
  congr 1
  ext d
  rw [mem_holders, Finset.mem_insert, mem_holders]
  rcases eq_or_ne d c with rfl | hd
  · rw [Function.update_self]
    exact iff_of_true he (Or.inl rfl)
  · rw [Function.update_of_ne hd, or_iff_right hd]

theorem holders_remove : holders (Function.update f c .no) = (holders f).erase c := by
  ext d
  rw [mem_holders, Finset.mem_erase, mem_holders]
  rcases eq_or_ne d c with rfl | hd
  · rw [Function.update_self]
    exact iff_of_false (fun h => h rfl) fun h => h.1 rfl
  · rw [Function.update_of_ne hd]
    exact (and_iff_right hd).symm

omit [DecidableEq κ] in
/-- The only connection with a lock. -/
theorem Proc.Good.eq_no (h : p.Good) (hc : p.file c ≠ .no) (hn : p.nShared ≤ 1) {d : κ} (hd : d ≠ c) :
    p.file d = .no := by
  by_contra hne
  rw [h.count] at hn
  exact hd (Finset.card_le_one.mp hn d (mem_holders.mpr hne) c (mem_holders.mpr hc))

theorem FileLock.val_pos {e : FileLock} (h : e ≠ .no) : 0 < e.val := by cases e <;> simp_all [val]

theorem FileLock.eq_no {e : FileLock} (h : ¬ 1 ≤ e.val) : e = .no := by cases e <;> simp_all [val]

theorem FileLock.eq_of_val {a b : FileLock} (h : a.val = b.val) : a = b := by
  cases a <;> cases b <;> simp_all [val]

omit [DecidableEq κ] in
/-- A connection above `SHARED_LOCK` is as high as any. -/
theorem Proc.Good.eq_top (h : p.Good) (hc : 1 < (p.file c).val) : p.eFileLock = p.file c := by
  obtain ⟨d, hd⟩ := h.top fun hno => by
    have hle := h.le c
    rw [hno] at hle
    exact absurd (hc.trans_le hle) (by decide)
  have hle := h.le c
  rw [← hd] at hle ⊢
  rw [h.uniq d c (hc.trans_le hle) hc]

omit [DecidableEq κ] in
/-- The others, beside a connection that is as high as any. -/
theorem Proc.Good.le_one (h : p.Good) (hc : p.file c = p.eFileLock) {d : κ} (hd : d ≠ c) :
    (p.file d).val ≤ 1 := by
  by_contra hlt
  have hle := h.le d
  rw [← hc] at hle
  exact hd (h.uniq d c (by omega) (by omega))

/-! ### Keeping the locks -/

theorem next_iff : next al locks = true ↔
    (al = true ∧ locks .pending = .wrlck) ∨ locks .shared = .wrlck := by
  rw [next, Bool.or_eq_true, Bool.and_eq_true, decide_eq_true_iff, decide_eq_true_iff]

theorem next_or (h : next al locks = true) : locks .pending = .wrlck ∨ locks .shared = .wrlck :=
  (next_iff.mp h).imp_left And.right

omit [Fintype κ] in
/-- What the locks cover without the connection at work. -/
theorem Keeps.rest (h : Keeps f al locks) (c : κ) : Keeps (Function.update f c .no) al locks := by
  have hsub : ∀ d, Function.update f c .no d ≠ .no → Function.update f c .no d = f d := fun d hd => by
    rcases eq_or_ne d c with rfl | hne
    · exact absurd (Function.update_self _ _ _) hd
    · exact Function.update_of_ne hne _ _
  refine ⟨fun d hd => h.shared d (hsub d hd ▸ hd), fun d hd => h.reserved d ?_, fun d hd => h.pending d ?_,
    fun d hd => h.exclusive d ?_, h.al⟩
  · exact (hsub d (by rw [hd]; decide)).symm.trans hd
  · exact hsub d (fun hno => by rw [hno] at hd; exact absurd hd (by decide)) ▸ hd
  · exact (hsub d (by rw [hd]; decide)).symm.trans hd

omit [Fintype κ] in
/-- The connection that calls gets a lock. -/
theorem Keeps.set (h : Keeps (Function.update f c .no) al locks) (hs : locks .shared ≠ .unlck)
    (hr : e = .reserved → locks .reserved = .wrlck) (hp : 3 ≤ e.val → locks .pending = .wrlck)
    (hx : e = .exclusive → al = true) : Keeps (Function.update f c e) al locks := by
  have hcases : ∀ d, (d = c ∧ Function.update f c e d = e) ∨
      Function.update f c e d = Function.update f c .no d := fun d => by
    rcases eq_or_ne d c with rfl | hd
    · exact Or.inl ⟨rfl, Function.update_self _ _ _⟩
    · exact Or.inr (by rw [Function.update_of_ne hd, Function.update_of_ne hd])
  refine ⟨fun d _ => hs, fun d hd => ?_, fun d hd => ?_, fun d hd => ?_, h.al⟩
  · rcases hcases d with ⟨-, heq⟩ | heq
    · exact hr (heq.symm.trans hd)
    · exact h.reserved d (heq.symm.trans hd)
  · rcases hcases d with ⟨-, heq⟩ | heq
    · exact hp (heq ▸ hd)
    · exact h.pending d (heq ▸ hd)
  · rcases hcases d with ⟨-, heq⟩ | heq
    · exact hx (heq.symm.trans hd)
    · exact h.exclusive d (heq.symm.trans hd)

omit [DecidableEq κ] [Fintype κ] in
/-- Connections with no more than `SHARED_LOCK` rely on the shared bytes alone. -/
theorem keeps_of_le_one (hle : ∀ d, (f d).val ≤ 1) (hs : ∀ d, f d ≠ .no → locks .shared ≠ .unlck)
    (hal : al = true → locks .pending = .wrlck ∨ locks .shared = .wrlck) : Keeps f al locks := by
  refine ⟨hs, fun d hd => ?_, fun d hd => ?_, fun d hd => ?_, hal⟩
  · exact absurd (hd ▸ hle d) (by decide)
  · have := hle d
    omega
  · exact absurd (hd ▸ hle d) (by decide)

/-- The other connections of the process hold SHARED at most. -/
theorem rest_le_one (h : p.Good) (hc : p.file c = p.eFileLock) (d : κ) :
    (Function.update p.file c .no d).val ≤ 1 := by
  rcases eq_or_ne d c with rfl | hd
  · rw [Function.update_self]
    decide
  · rw [Function.update_of_ne hd]
    exact h.le_one hc hd

theorem Proc.Good.set (h : p.Good) (hc : p.file c = p.eFileLock) (hne : p.file c ≠ .no) (he : e ≠ .no)
    (hx : e = .exclusive → p.nShared ≤ 1) : (p.set c e).Good := by
  have hother : ∀ {d}, d ≠ c → (Function.update p.file c e d).val ≤ 1 := fun {d} hd => by
    rw [Function.update_of_ne hd]
    exact h.le_one hc hd
  have hcaller : ∀ {d}, 1 < (Function.update p.file c e d).val → d = c := fun {d} hd => by
    by_contra hne
    exact absurd (hother hne) (not_le.mpr hd)
  refine ⟨?_, fun d => ?_, fun _ => ⟨c, Function.update_self _ _ _⟩,
    fun d d' hd hd' => (hcaller hd).trans (hcaller hd').symm, fun d d' hd hd' => ?_⟩
  · exact h.count.trans (congrArg Finset.card (holders_update hne he).symm)
  · rcases eq_or_ne d c with rfl | hd
    · exact (congrArg FileLock.val (Function.update_self _ _ _)).le
    · exact (hother hd).trans (FileLock.val_pos he)
  · obtain rfl : d = c := hcaller (by rw [show Function.update p.file c e d = _ from hd]; decide)
    have hx := hx ((Function.update_self _ _ _).symm.trans hd)
    exact (Function.update_of_ne hd' _ _).trans (h.eq_no hne hx hd')

/-- A connection gets `SHARED_LOCK` beside others that are not above `RESERVED_LOCK`. -/
theorem Proc.Good.share (h : p.Good) (hno : p.file c = .no) (he : e ≠ .no) (hlow : e.val ≤ 2)
    (hle : ∀ d, (p.file d).val ≤ e.val) (htop : e = .shared ∨ ∃ d, p.file d = e) :
    Proc.Good ⟨e, p.nShared + 1, Function.update p.file c .shared⟩ := by
  have hother : ∀ {d}, 1 < (Function.update p.file c .shared d).val → d ≠ c ∧
      Function.update p.file c .shared d = p.file d := fun {d} hd => by
    have hdc : d ≠ c := fun heq => by
      rw [heq, Function.update_self] at hd
      exact absurd hd (by decide)
    exact ⟨hdc, Function.update_of_ne hdc _ _⟩
  refine ⟨(congrArg (· + 1) h.count).trans (card_holders_add hno (by decide)).symm, fun d => ?_,
    fun _ => ?_, fun d d' hd hd' => ?_, fun d d' hd => ?_⟩
  · dsimp only
    rcases eq_or_ne d c with rfl | hd
    · rw [Function.update_self]
      exact FileLock.val_pos he
    · rw [Function.update_of_ne hd]
      exact hle d
  · rcases htop with rfl | ⟨d, hd⟩
    · exact ⟨c, Function.update_self _ _ _⟩
    · exact ⟨d, (Function.update_of_ne (fun heq => he (by rw [← hd, heq, hno])) _ _).trans hd⟩
  · exact h.uniq d d' ((hother hd).2 ▸ hd) ((hother hd').2 ▸ hd')
  · have heq := (hother (d := d) (by rw [show Function.update p.file c .shared d = _ from hd]; decide)).2
    have hle := hle d
    rw [← heq, show Function.update p.file c .shared d = _ from hd] at hle
    exact absurd (hle.trans hlow) (by decide)

/-- A connection gives its lock back. -/
theorem Proc.Good.leave (h : p.Good) (hne : p.file c ≠ .no) (hle : ∀ d, d ≠ c → (p.file d).val ≤ e.val)
    (htop : e ≠ .no → ∃ d, d ≠ c ∧ p.file d = e) :
    Proc.Good ⟨e, p.nShared - 1, Function.update p.file c .no⟩ := by
  have hother : ∀ {d}, Function.update p.file c .no d ≠ .no → Function.update p.file c .no d = p.file d :=
    fun {d} hd => Function.update_of_ne (fun heq => hd (by rw [heq, Function.update_self])) _ _
  have hhigh : ∀ {d}, 1 < (Function.update p.file c .no d).val → 1 < (p.file d).val := fun {d} hd =>
    hother (fun heq => by rw [heq] at hd; exact absurd hd (by decide)) ▸ hd
  refine ⟨?_, fun d => ?_, fun he => ?_, fun d d' hd hd' => h.uniq d d' (hhigh hd) (hhigh hd'),
    fun d d' hd hd' => ?_⟩
  · change p.nShared - 1 = (holders (Function.update p.file c .no)).card
    rw [holders_remove, Finset.card_erase_of_mem (mem_holders.mpr hne), h.count]
  · dsimp only
    rcases eq_or_ne d c with rfl | hd
    · rw [Function.update_self]
      exact Nat.zero_le _
    · rw [Function.update_of_ne hd]
      exact hle d hd
  · obtain ⟨d, hd, heq⟩ := htop he
    exact ⟨d, (Function.update_of_ne hd _ _).trans heq⟩
  · by_contra hne'
    refine hne' ((hother hne').trans (h.alone d d' ((hother ?_).symm.trans hd) hd'))
    rw [show Function.update p.file c .no d = _ from hd]
    decide

/-! ### Each call is safe -/

omit [DecidableEq κ] in
/-- A call of `fcntl` is safe when what follows is, whether it is granted or not. -/
theorem safe_sys {t : LockType} {r : Range} {k : Answer → Prog κ} (hk : Keeps f al locks)
    (hguard : t ≠ .unlck → r.Has .shared → locks .pending ≠ .unlck ∨ locks .shared ≠ .unlck)
    (hgrant : Safe f (next al (apply locks t r)) (apply locks t r) (k .granted))
    (hfail : ∀ a, a ≠ .granted → Safe f al locks (k a)) : Safe f al locks (.sys t r k) := by
  refine ⟨hk, hguard, fun a => ?_⟩
  split
  case isTrue heq => exact heq ▸ hgrant
  case isFalse hne => exact hfail a hne

/-- Returning with nothing changed. -/
theorem safe_ret (h : p.Good) (hk : Keeps p.file al locks) (rc : Rc) (c : κ) :
    Safe (Function.update p.file c .no) al locks (.ret rc p) := ⟨hk.rest c, h, hk⟩

omit [Fintype κ] in
theorem lockRest_shared : lockRest p c .shared = .sys .rdlck (.one .shared) fun a =>
    .sys .unlck (.one .pending) fun b =>
      if a ≠ .granted then .ret a.rc p
      else if b ≠ .granted then .ret .ioerrUnlock p
      else .ret .ok ⟨.shared, 1, Function.update p.file c .shared⟩ := by
  rw [lockRest, if_pos rfl]
  rfl

omit [Fintype κ] in
theorem lockRest_reserved : lockRest p c .reserved = .sys .wrlck (.one .reserved) fun a =>
    if a = .granted then .ret .ok (p.set c .reserved) else .ret a.rc p := by
  simp [lockRest]

omit [Fintype κ] in
theorem lockRest_exclusive : lockRest p c .exclusive =
    if 1 < p.nShared then .ret .busy (p.set c .pending)
    else .sys .wrlck (.one .shared) fun a =>
      if a = .granted then .ret .ok (p.set c .exclusive) else .ret a.rc (p.set c .pending) := by
  simp [lockRest]

/-- The request for `SHARED_LOCK` when nobody in the process has a lock. -/
theorem safe_shared (h : p.Good) (hno : ∀ d, p.file d = .no)
    (hp : locks .pending ≠ .unlck) (hal : al = true → locks .pending = .wrlck ∨ locks .shared = .wrlck) :
    Safe (Function.update p.file c .no) al locks (lockRest p c .shared) := by
  have hkeep : ∀ {al locks}, (al = true → locks .pending = .wrlck ∨ locks .shared = .wrlck) →
      Keeps p.file al locks := fun hal => keeps_of_le_one (fun d => by rw [hno d]; decide)
    (fun d hd => absurd (hno d) hd) hal
  rw [lockRest_shared]
  refine safe_sys ((hkeep hal).rest c) (fun _ _ => Or.inl hp) ?_ fun a ha => ?_
  · refine safe_sys ((hkeep next_or).rest c) (fun hne => absurd rfl hne) ?_ fun b hb => ?_
    · have hzero : p.nShared = 0 := h.count.trans (Finset.card_eq_zero.mpr
        (Finset.filter_false_of_mem fun d _ => not_not.mpr (hno d)))
      have hgood := h.share (e := .shared) (hno c) (by decide) (by decide)
        (fun d => by rw [hno d]; decide) (Or.inl rfl)
      rw [hzero] at hgood
      refine ⟨(hkeep next_or).rest c, hgood, ((hkeep next_or).rest c).set ?_ (fun heq => by cases heq)
        (fun hle => absurd hle (by decide)) fun heq => by cases heq⟩
      rw [apply, if_neg (by simp [Range.Has]), apply, if_pos (by simp [Range.Has])]
      decide
    · rw [if_neg (not_not.mpr rfl), if_pos hb]
      exact safe_ret h (hkeep next_or) _ c
  · refine safe_sys ((hkeep hal).rest c) (fun hne => absurd rfl hne) ?_ fun b _ => ?_
    · rw [if_pos ha]
      exact safe_ret h (hkeep next_or) _ c
    · rw [if_pos ha]
      exact safe_ret h (hkeep hal) _ c

/-- The request for `EXCLUSIVE_LOCK` beside a lock on the pending byte. -/
theorem safe_exclusive (h : p.Good) (hk : Keeps (Function.update p.file c .no) al locks)
    (hc : p.file c = p.eFileLock) (hne : p.file c ≠ .no) (hp : locks .pending = .wrlck)
    (hs : locks .shared ≠ .unlck) :
    Safe (Function.update p.file c .no) al locks (lockRest p c .exclusive) := by
  have hpending : ∀ rc, Safe (Function.update p.file c .no) al locks (.ret rc (p.set c .pending)) :=
    fun rc => ⟨hk, h.set hc hne (by decide) (fun heq => by cases heq),
      hk.set hs (fun heq => by cases heq) (fun _ => hp) (fun heq => by cases heq)⟩
  rw [lockRest_exclusive]
  split
  case isTrue => exact hpending _
  case isFalse hn =>
    refine safe_sys hk (fun _ _ => Or.inr hs) ?_ fun a ha => ?_
    · have hshared : apply locks .wrlck (.one .shared) .shared = .wrlck := if_pos rfl
      have hpend : apply locks .wrlck (.one .shared) .pending = .wrlck :=
        (if_neg (by simp [Range.Has])).trans hp
      have hkeep : Keeps (Function.update p.file c .no) (next al (apply locks .wrlck (.one .shared)))
          (apply locks .wrlck (.one .shared)) :=
        keeps_of_le_one (rest_le_one h hc) (fun _ _ => by rw [hshared]; decide) next_or
      rw [if_pos rfl]
      exact ⟨hkeep, h.set hc hne (by decide) fun _ => not_lt.mp hn, hkeep.set (by rw [hshared]; decide)
        (fun heq => by cases heq) (fun _ => hpend) fun _ => next_iff.mpr (Or.inr hshared)⟩
    · rw [if_neg ha]
      exact hpending _

/-- **`unixLock` is safe** at each call of `fcntl`. -/
theorem safe_unixLock (h : p.Good) (hk : Keeps p.file al locks)
    (hallowed : (p.file c).val < e.val → (p.file c ≠ .no ∨ e = .shared) ∧ e ≠ .pending ∧
      (e = .reserved → p.file c = .shared)) :
    Safe (Function.update p.file c .no) al locks (unixLock p c e) := by
  rw [unixLock]
  split
  case isTrue => exact safe_ret h hk _ c
  case isFalse hlt =>
  obtain ⟨hfirst, hpend, hres⟩ := hallowed (not_le.mp hlt)
  split
  case isTrue => exact safe_ret h hk _ c
  case isFalse hbusy =>
  split
  case isTrue hboth =>
    obtain ⟨rfl, htop⟩ := hboth
    have htop2 : p.eFileLock ≠ .no ∧ p.eFileLock.val ≤ 2 := by
      rcases htop with heq | heq <;> rw [heq] <;> decide
    obtain ⟨d, hd⟩ := h.top htop2.1
    exact ⟨hk.rest c, h.share (FileLock.eq_no hlt) htop2.1 htop2.2 h.le (Or.inr ⟨d, hd⟩),
      (hk.rest c).set (hk.shared d (hd ▸ htop2.1)) (fun heq => by cases heq)
        (fun hle => absurd hle (by decide)) fun heq => by cases heq⟩
  case isFalse hshared =>
  cases e with
  | no => exact absurd (Nat.zero_le _) hlt
  | pending => exact absurd rfl hpend
  | shared =>
    have hno : p.file c = .no := FileLock.eq_no hlt
    -- nobody in the process has a lock
    have htop : p.eFileLock = .no := by
      by_contra hne
      rw [hno] at hbusy
      have hlow := not_le.mp fun hle => hbusy ⟨Ne.symm hne, Or.inl hle⟩
      refine hshared ⟨rfl, ?_⟩
      cases htop : p.eFileLock <;> simp_all [FileLock.val]
    have hall : ∀ d, p.file d = .no := fun d => FileLock.eq_of_val (by
      have := h.le d
      rw [htop] at this
      exact le_antisymm this (Nat.zero_le _))
    rw [if_pos (Or.inl rfl), if_pos rfl]
    refine safe_sys (hk.rest c) (fun _ hx => by cases hx) ?_ fun a ha => ?_
    · rw [if_pos rfl]
      refine safe_shared h hall ?_ next_or
      rw [apply, if_pos (by simp [Range.Has])]
      decide
    · rw [if_neg ha]
      exact safe_ret h hk _ c
  | reserved =>
    have hc : p.file c = .shared := hres rfl
    have htop : p.file c = p.eFileLock := by
      by_contra hne
      exact hbusy ⟨hne, Or.inr (by decide)⟩
    rw [if_neg (by simp), lockRest_reserved]
    have hs : apply locks .wrlck (.one .reserved) .shared ≠ .unlck := by
      rw [apply, if_neg (by simp [Range.Has])]
      exact hk.shared c (by rw [hc]; decide)
    have hkeep : Keeps (Function.update p.file c .no) (next al (apply locks .wrlck (.one .reserved)))
        (apply locks .wrlck (.one .reserved)) :=
      keeps_of_le_one (rest_le_one h htop) (fun _ _ => hs) next_or
    refine safe_sys (hk.rest c) (fun _ hx => by cases hx) ?_ fun a ha => ?_
    · rw [if_pos rfl]
      exact ⟨hkeep, h.set htop (by rw [hc]; decide) (by decide) (fun heq => by cases heq),
        hkeep.set hs (fun _ => if_pos rfl) (fun hle => absurd hle (by decide)) fun heq => by cases heq⟩
    · rw [if_neg ha]
      exact safe_ret h hk _ c
  | exclusive =>
    have hne : p.file c ≠ .no := hfirst.resolve_right (by decide)
    have htop : p.file c = p.eFileLock := by
      by_contra hne
      exact hbusy ⟨hne, Or.inr (by decide)⟩
    have hs := hk.shared c hne
    split
    case isTrue =>
      rw [if_neg (by decide)]
      refine safe_sys (hk.rest c) (fun _ hx => by cases hx) ?_ fun a ha => ?_
      · have hs' : apply locks .wrlck (.one .pending) .shared ≠ .unlck := by
          rw [apply, if_neg (by simp [Range.Has])]
          exact hs
        rw [if_pos rfl]
        exact safe_exclusive h (keeps_of_le_one (rest_le_one h htop) (fun _ _ => hs') next_or) htop hne
          (if_pos rfl) hs'
      · rw [if_neg ha]
        exact safe_ret h hk _ c
    case isFalse hhigh =>
      refine safe_exclusive h (hk.rest c) htop hne (hk.pending c ?_) hs
      by_contra hlow
      exact hhigh (Or.inr ⟨rfl, not_le.mp hlow⟩)

/-- The end of a call that gives the lock back; `e` is the `eFileLock` of the process by then. -/
theorem safe_unlockRest (h : p.Good) (hk : Keeps (Function.update p.file c .no) al locks)
    (hne : p.file c ≠ .no) (hle : ∀ d, d ≠ c → (p.file d).val ≤ e.val)
    (htop : e = .shared ∨ ∃ d, d ≠ c ∧ p.file d = e) :
    Safe (Function.update p.file c .no) al locks (unlockRest { p with eFileLock := e } c .no) := by
  rw [unlockRest, if_pos rfl]
  split
  case isTrue hlast =>
    have hno : ∀ d, d ≠ c → p.file d = .no := fun d hd => h.eq_no hne (Nat.sub_eq_zero_iff_le.mp hlast) hd
    have hgood : Proc.Good ⟨.no, p.nShared - 1, Function.update p.file c .no⟩ :=
      h.leave hne (fun d hd => by rw [hno d hd]) fun hne => absurd rfl hne
    have hall : ∀ d, Function.update p.file c .no d = .no := fun d => by
      rcases eq_or_ne d c with rfl | hd
      · exact Function.update_self _ _ _
      · exact (Function.update_of_ne hd _ _).trans (hno d hd)
    refine safe_sys hk (fun hne => absurd rfl hne) ?_ fun a _ => ⟨hk, hgood, hk⟩
    have hkeep : Keeps (Function.update p.file c .no) (next al (apply locks .unlck .all))
        (apply locks .unlck .all) :=
      keeps_of_le_one (fun d => by rw [hall d]; decide) (fun d hd => absurd (hall d) hd) next_or
    exact ⟨hkeep, hgood, hkeep⟩
  case isFalse hmore =>
    refine ⟨hk, h.leave hne hle fun _ => ?_, hk⟩
    rcases htop with rfl | hex
    · -- somebody is left, with no more than `SHARED_LOCK`
      have hcard : 1 < (holders p.file).card := by
        rw [← h.count]
        dsimp only at hmore
        omega
      obtain ⟨d, hd, hdc⟩ := Finset.exists_mem_ne hcard c
      exact ⟨d, hdc, FileLock.eq_of_val (le_antisymm (hle d hdc) (FileLock.val_pos (mem_holders.mp hd)))⟩
    · exact hex

/-- **`posixUnlock` is safe** at each call of `fcntl`. -/
theorem safe_posixUnlock (h : p.Good) (hk : Keeps p.file al locks) (he : e = .no ∨ e = .shared) :
    Safe (Function.update p.file c .no) al locks (posixUnlock p c e) := by
  rw [posixUnlock]
  split
  case isTrue => exact safe_ret h hk _ c
  case isFalse hlt =>
  have hne : p.file c ≠ .no := fun heq => hlt (by rw [heq]; exact Nat.zero_le _)
  have hs := hk.shared c hne
  split
  case isTrue hhigh =>
    have htop := (h.eq_top hhigh).symm
    have hlow := rest_le_one h htop
    rcases he with rfl | rfl
    · rw [if_neg (by decide)]
      refine safe_sys (hk.rest c) (fun hne => absurd rfl hne) ?_ fun a ha => ?_
      · rw [if_pos rfl]
        refine safe_unlockRest h (keeps_of_le_one hlow (fun _ _ => ?_) next_or) hne
          (fun d hd => h.le_one htop hd) (Or.inl rfl)
        rw [apply, if_neg (by simp [Range.Has])]
        exact hs
      · rw [if_neg ha]
        exact safe_ret h hk _ c
    · rw [if_pos rfl]
      refine safe_sys (hk.rest c) (fun _ _ => Or.inr hs) ?_ fun a ha => ?_
      · have hs' : apply locks .rdlck (.one .shared) .shared = .rdlck := if_pos rfl
        have hsame : ∀ x, x ≠ .shared → apply locks .rdlck (.one .shared) x = locks x :=
          fun x hx => if_neg hx
        have hkeep : Keeps p.file (next al (apply locks .rdlck (.one .shared)))
            (apply locks .rdlck (.one .shared)) :=
          ⟨fun _ _ => by rw [hs']; decide,
            fun d hd => (hsame _ (by decide)).trans (hk.reserved d hd),
            fun d hd => (hsame _ (by decide)).trans (hk.pending d hd),
            fun d hd => next_iff.mpr (Or.inl ⟨hk.exclusive d hd,
              (hsame _ (by decide)).trans (hk.pending d (by rw [hd]; decide))⟩), next_or⟩
        rw [if_pos rfl]
        refine safe_sys (hkeep.rest c) (fun hne => absurd rfl hne) ?_ fun b hb => ?_
        · have hs2 : apply (apply locks .rdlck (.one .shared)) .unlck .two .shared ≠ .unlck := by
            rw [apply, if_neg (by simp [Range.Has]), hs']
            decide
          have hkeep2 : Keeps (Function.update p.file c .no)
              (next (next al (apply locks .rdlck (.one .shared)))
                (apply (apply locks .rdlck (.one .shared)) .unlck .two))
              (apply (apply locks .rdlck (.one .shared)) .unlck .two) :=
            keeps_of_le_one hlow (fun _ _ => hs2) next_or
          rw [if_pos rfl, unlockRest, if_neg (show FileLock.shared ≠ .no by decide)]
          exact ⟨hkeep2, h.set (e := .shared) htop hne (by decide) (fun heq => by cases heq), hkeep2.set hs2
            (fun heq => by cases heq) (fun hle => absurd hle (by decide)) fun heq => by cases heq⟩
        · rw [if_neg hb]
          exact safe_ret h hkeep _ c
      · rw [if_neg ha]
        exact safe_ret h hk _ c
  case isFalse hlow =>
    rcases he with rfl | rfl
    · have hc : p.file c = .shared := FileLock.eq_of_val
        (le_antisymm (not_lt.mp hlow) (FileLock.val_pos hne))
      refine safe_unlockRest h (hk.rest c) hne (fun d _ => h.le d) ?_
      obtain ⟨d, hd⟩ := h.top fun heq => by
        have hle := h.le c
        rw [heq, hc] at hle
        exact absurd hle (by decide)
      rcases eq_or_ne d c with rfl | hdc
      · exact Or.inl (hd.symm.trans hc)
      · exact Or.inr ⟨d, hdc, hd⟩
    · exact absurd (not_lt.mp hlow) hlt

/-! ### All processes -/

variable {s : State π κ} {ps : π → Bool} {g : Prog κ}

/-- What the locks of a process are good for, in a call or between two. -/
def Secure (s : State π κ) (al : Bool) (p : π) : Prop :=
  match s.call p with
  | none => Keeps (s.proc p).file al (s.locks p)
  | some (c, g) => Safe (Function.update (s.proc p).file c .no) al (s.locks p) g

/-- `ps` are processes beside which no other has a lock on the shared bytes. -/
structure Inv (s : State π κ) (ps : π → Bool) : Prop where
  good : ∀ p, (s.proc p).Good
  secure : ∀ p, Secure s (ps p) p
  compatible : ∀ p q x, p ≠ q → Compatible (s.locks p x) (s.locks q x)
  alone : ∀ p q, ps p = true → q ≠ p → s.locks q .shared = .unlck

omit [DecidableEq κ] in
theorem Safe.keeps (h : Safe f al locks g) : Keeps f al locks := by
  cases g with
  | ret rc p => exact h.1
  | sys t r k => exact h.1

omit [DecidableEq π] in
theorem inv_start : Inv (start π κ) fun _ => false where
  good _ := ⟨(Finset.card_eq_zero.mpr (Finset.filter_false_of_mem fun _ _ h => h rfl)).symm,
    fun _ => le_rfl, fun h => absurd rfl h, fun _ _ h => absurd h (Nat.not_lt_zero 1), fun _ _ h => by cases h⟩
  secure _ := keeps_of_le_one (fun _ => Nat.zero_le 1) (fun _ h => absurd rfl h)
    fun h => absurd h Bool.false_ne_true
  compatible _ _ _ _ := Or.inl rfl
  alone _ _ h := absurd h Bool.false_ne_true

/-- A process begins a call. -/
theorem Inv.begin (h : Inv s ps) {i : π}
    (hg : Safe (Function.update (s.proc i).file c .no) (ps i) (s.locks i) g) :
    Inv { s with call := Function.update s.call i (some (c, g)) } ps := by
  refine ⟨h.good, fun p => ?_, h.compatible, h.alone⟩
  rw [Secure]
  dsimp only
  rcases eq_or_ne p i with rfl | hp
  · rw [Function.update_self]
    exact hg
  · rw [Function.update_of_ne hp]
    exact h.secure p

theorem Compatible.symm {t u : LockType} (h : Compatible t u) : Compatible u t :=
  h.elim (Or.inr ∘ Or.inl) fun h => h.elim Or.inl fun h => Or.inr (Or.inr h.symm)

theorem Compatible.eq_unlck {t : LockType} (h : Compatible .wrlck t) : t = .unlck := by
  rcases h with h | h | h
  · cases h
  · exact h
  · cases h.1

/-- A call of `fcntl` is granted. -/
theorem Inv.granted (h : Inv s ps) {i : π} {t : LockType} {r : Range} {k : Answer → Prog κ}
    (hcall : s.call i = some (c, .sys t r k))
    (hfree : ∀ q x, q ≠ i → r.Has x → Compatible t (s.locks q x)) :
    Inv { s with
      call := Function.update s.call i (some (c, k .granted))
      locks := Function.update s.locks i (apply (s.locks i) t r) }
      (Function.update ps i (next (ps i) (apply (s.locks i) t r))) := by
  have hsafe := h.secure i
  rw [Secure, hcall] at hsafe
  obtain ⟨hkeeps, hguard, hnext⟩ := hsafe
  have hnew : ∀ q x, q ≠ i → Compatible (apply (s.locks i) t r x) (s.locks q x) := fun q x hq => by
    rw [apply]
    split
    · exact hfree q x hq ‹_›
    · exact h.compatible i q x hq.symm
  refine ⟨h.good, fun p => ?_, fun p q x hpq => ?_, fun p q hp hqp => ?_⟩
  · rw [Secure]
    dsimp only
    rcases eq_or_ne p i with rfl | hp
    · rw [Function.update_self, Function.update_self, Function.update_self]
      exact hnext .granted
    · rw [Function.update_of_ne hp, Function.update_of_ne hp, Function.update_of_ne hp]
      exact h.secure p
  · dsimp only
    rcases eq_or_ne p i with rfl | hp
    · rw [Function.update_self, Function.update_of_ne hpq.symm]
      exact hnew q x hpq.symm
    · rw [Function.update_of_ne hp]
      rcases eq_or_ne q i with rfl | hq
      · rw [Function.update_self]
        exact (hnew p x hp).symm
      · rw [Function.update_of_ne hq]
        exact h.compatible p q x hpq
  · dsimp only
    rcases eq_or_ne p i with rfl | hpi
    · rw [Function.update_self] at hp
      rw [Function.update_of_ne hqp]
      rcases next_iff.mp hp with ⟨hp, -⟩ | hw
      · exact h.alone p q hp hqp
      · exact (hw ▸ hnew q .shared hqp).eq_unlck
    · rw [Function.update_of_ne hpi] at hp
      rcases eq_or_ne q i with rfl | hqi
      · -- the process that locks is not the one that relies on being alone
        rw [Function.update_self, apply]
        split
        case isFalse => exact h.alone p q hp hqp
        case isTrue hhas =>
          by_contra ht
          have hsec := h.secure p
          rw [Secure] at hsec
          have hlock : s.locks p .pending = .wrlck ∨ s.locks p .shared = .wrlck := by
            split at hsec
            · exact hsec.al hp
            · exact hsec.keeps.al hp
          rcases hlock with hw | hw
          · rcases hguard ht hhas with hpend | hsh
            · exact hpend (hw ▸ h.compatible p q .pending hpi).eq_unlck
            · exact hsh (h.alone p q hp hqp)
          · exact ht (hw ▸ (hfree p .shared hpi hhas).symm).eq_unlck
      · rw [Function.update_of_ne hqi]
        exact h.alone p q hp hqp

/-- **One step** of the system: a call begins, or the kernel answers. -/
theorem Inv.step (h : Inv s ps) (op : Op π κ) (hop : op.Allowed s) : ∃ ps', Inv (step s op) ps' := by
  have hidle : ∀ {i}, s.call i = none → Keeps (s.proc i).file (ps i) (s.locks i) := fun {i} hi => by
    have hsec := h.secure i
    rwa [Secure, hi] at hsec
  cases op with
  | lock i c e => exact ⟨ps, h.begin (safe_unixLock (h.good i) (hidle hop.1) hop.2)⟩
  | unlock i c e => exact ⟨ps, h.begin (safe_posixUnlock (h.good i) (hidle hop.1) hop.2)⟩
  | turn i a =>
    rw [OsUnix.step, turn]
    have hsec := h.secure i
    rw [Secure] at hsec
    cases hcall : s.call i with
    | none => exact ⟨ps, h⟩
    | some cg =>
      obtain ⟨c, g⟩ := cg
      rw [hcall] at hsec
      cases g with
      | ret rc x =>
        refine ⟨ps, ⟨fun p => ?_, fun p => ?_, h.compatible, h.alone⟩⟩
        · dsimp only
          rcases eq_or_ne p i with rfl | hp
          · rw [Function.update_self]
            exact hsec.2.1
          · rw [Function.update_of_ne hp]
            exact h.good p
        · rw [Secure]
          dsimp only
          rcases eq_or_ne p i with rfl | hp
          · rw [Function.update_self, Function.update_self]
            exact hsec.2.2
          · rw [Function.update_of_ne hp, Function.update_of_ne hp]
            exact h.secure p
      | sys t r k =>
        dsimp only
        by_cases ha : a = .granted
        · subst ha
          rw [if_pos rfl]
          exact ⟨_, h.granted hcall (hop c t r k hcall rfl)⟩
        · rw [if_neg ha]
          have hnext := hsec.2.2 a
          rw [if_neg ha] at hnext
          exact ⟨ps, h.begin hnext⟩

/-! ### No lock is left behind -/

/-- The lowest lock of a connection that a locked byte is for. -/
def Byte.level : Byte → ℕ
  | .shared => 1
  | .reserved => 2
  | .pending => 3

/-- Each lock of a process is one that a connection has a use for. -/
def Uses (f : κ → FileLock) (locks : Byte → LockType) : Prop :=
  ∀ x, locks x ≠ .unlck → ∃ c, x.level ≤ (f c).val

/-- A call leaves no lock behind, if all that it unlocks is unlocked. -/
def Tidy : (Byte → LockType) → Prog κ → Prop
  | locks, .ret _ p => Uses p.file locks
  | locks, .sys t r k => Tidy (apply locks t r) (k .granted) ∧
      (t ≠ .unlck → ∀ a, a ≠ .granted → Tidy locks (k a))

omit [Fintype κ] in
/-- The connection that calls gets a higher lock. -/
theorem Uses.raise (h : Uses f locks) {locks' : Byte → LockType} (hle : (f c).val ≤ e.val)
    (hnew : ∀ x, locks' x ≠ .unlck → locks x ≠ .unlck ∨ x.level ≤ e.val) :
    Uses (Function.update f c e) locks' := fun x hx => by
  rcases hnew x hx with hx | hx
  · obtain ⟨d, hd⟩ := h x hx
    rcases eq_or_ne d c with rfl | hdc
    · exact ⟨d, by rw [Function.update_self]; exact hd.trans hle⟩
    · exact ⟨d, by rwa [Function.update_of_ne hdc]⟩
  · exact ⟨c, by rwa [Function.update_self]⟩

omit [DecidableEq κ] [Fintype κ] in
theorem tidy_sys {t : LockType} {r : Range} {g : Prog κ} {k : Answer → Prog κ}
    (hgrant : Tidy (apply locks t r) g) (hfail : t ≠ .unlck → ∀ a, Tidy locks (k a)) :
    Tidy locks (.sys t r fun a => if a = .granted then g else k a) := by
  refine ⟨hgrant, fun ht a ha => ?_⟩
  dsimp only
  rw [if_neg ha]
  exact hfail ht a

omit [Fintype κ] in
theorem tidy_exclusive : Tidy locks (lockRest p c .exclusive) := by
  have hset : ∀ {e : FileLock} {locks : Byte → LockType}, 3 ≤ e.val →
      Uses (Function.update p.file c e) locks := fun he x _ => by
    have hle : x.level ≤ 3 := by cases x <;> decide
    exact ⟨c, by rw [Function.update_self]; exact hle.trans he⟩
  rw [lockRest_exclusive]
  split
  case isTrue => exact hset (by decide)
  case isFalse => exact tidy_sys (hset (by decide)) fun _ _ => hset (by decide)

omit [Fintype κ] in
/-- `unixLock` leaves no lock that no connection has. -/
theorem tidy_unixLock (h : Uses p.file locks) (hpend : (p.file c).val < e.val → e ≠ .pending) :
    Tidy locks (unixLock p c e) := by
  rw [unixLock]
  split
  case isTrue => exact h
  case isFalse hlt =>
  have hle := (not_le.mp hlt).le
  split
  case isTrue => exact h
  case isFalse =>
  split
  case isTrue hboth =>
    obtain ⟨rfl, -⟩ := hboth
    exact h.raise hle fun _ => Or.inl
  case isFalse =>
  cases e with
  | no => exact absurd (Nat.zero_le _) hlt
  | pending => exact absurd rfl (hpend (not_le.mp hlt))
  | shared =>
    rw [if_pos (Or.inl rfl), if_pos rfl]
    refine tidy_sys ?_ fun _ _ => h
    rw [lockRest_shared]
    refine ⟨⟨h.raise hle fun x hx => ?_, fun hne => absurd rfl hne⟩, fun _ a ha =>
      ⟨?_, fun hne => absurd rfl hne⟩⟩
    · cases x <;> simp_all [apply, Range.Has, Byte.level, FileLock.val]
    · dsimp only
      rw [if_pos ha]
      refine fun x hx => h x ?_
      cases x <;> simp_all [apply, Range.Has]
  | reserved =>
    rw [if_neg (by simp), lockRest_reserved]
    refine tidy_sys (h.raise hle fun x hx => ?_) fun _ _ => h
    cases x <;> simp_all [apply, Range.Has, Byte.level, FileLock.val]
  | exclusive =>
    split
    case isTrue => exact tidy_sys tidy_exclusive fun _ _ => h
    case isFalse => exact tidy_exclusive

/-- The end of `posixUnlock` leaves no lock that no connection has. -/
theorem tidy_unlockRest (hcount : p.nShared = (holders p.file).card)
    (hx : ∀ x, locks x ≠ .unlck → x = .shared ∨ ∃ d, d ≠ c ∧ x.level ≤ (p.file d).val)
    (he : e = .no ∨ e = .shared) : Tidy locks (unlockRest p c e) := by
  have hset : (e = .no → ∃ d, d ≠ c ∧ 1 ≤ (p.file d).val) →
      Uses (Function.update p.file c e) locks := fun hno x hxl => by
    have hother : x = .shared ∧ e = .shared ∨ ∃ d, d ≠ c ∧ x.level ≤ (p.file d).val := by
      rcases hx x hxl with rfl | hd
      · exact he.elim (Or.inr ∘ hno) fun heq => Or.inl ⟨rfl, heq⟩
      · exact Or.inr hd
    rcases hother with ⟨rfl, rfl⟩ | ⟨d, hdc, hd⟩
    · exact ⟨c, by rw [Function.update_self]; decide⟩
    · exact ⟨d, by rwa [Function.update_of_ne hdc]⟩
  rw [unlockRest]
  split
  case isTrue heq =>
    subst heq
    split
    case isTrue => exact ⟨fun x hxl => absurd (if_pos trivial) hxl, fun hne => absurd rfl hne⟩
    case isFalse hmore =>
      refine hset fun _ => ?_
      obtain ⟨d, hd, hdc⟩ := Finset.exists_mem_ne (s := holders p.file) (by omega) c
      exact ⟨d, hdc, FileLock.val_pos (mem_holders.mp hd)⟩
  case isFalse hne => exact hset fun heq => absurd heq hne

/-- `posixUnlock` leaves no lock that no connection has, when its calls succeed. -/
theorem tidy_posixUnlock (hcount : p.nShared = (holders p.file).card) (h : Uses p.file locks)
    (he : e = .no ∨ e = .shared) : Tidy locks (posixUnlock p c e) := by
  have hhigh : ∀ locks, Tidy locks (unlockHigh p c e) := fun locks => by
    refine tidy_sys (tidy_unlockRest hcount (fun x hx => Or.inl ?_) he) fun hne => absurd rfl hne
    by_contra hne
    exact hx (if_pos hne)
  rw [posixUnlock]
  split
  case isTrue => exact h
  case isFalse =>
  split
  case isTrue =>
    split
    case isTrue => exact tidy_sys (hhigh _) fun _ _ => h
    case isFalse => exact hhigh _
  case isFalse hlow =>
    refine tidy_unlockRest hcount (fun x hx => ?_) he
    obtain ⟨d, hd⟩ := h x hx
    rcases eq_or_ne d c with rfl | hdc
    · have hle := hd.trans (not_lt.mp hlow)
      cases x <;> simp_all [Byte.level]
    · exact Or.inr ⟨d, hdc, hd⟩

/-- No call of `fcntl` that unlocks fails. -/
def Op.Unlocks (s : State π κ) : Op π κ → Prop
  | .turn p a => ∀ c r k, s.call p = some (c, .sys .unlck r k) → a = .granted
  | _ => True

def TidyAt (s : State π κ) (p : π) : Prop :=
  match s.call p with
  | none => Uses (s.proc p).file (s.locks p)
  | some (_, g) => Tidy (s.locks p) g

/-- No step leaves a lock behind while unlocking succeeds. -/
theorem Inv.tidy (h : Inv s ps) (ht : ∀ p, TidyAt s p) {op : Op π κ} (hop : op.Allowed s)
    (hun : op.Unlocks s) (p : π) : TidyAt (OsUnix.step s op) p := by
  have hidle : ∀ {i}, s.call i = none → Uses (s.proc i).file (s.locks i) := fun {i} hi => by
    have hat := ht i
    rwa [TidyAt, hi] at hat
  have hcall : ∀ {i c g}, Tidy (s.locks i) g →
      TidyAt { s with call := Function.update s.call i (some (c, g)) } p := fun {i c g} hg => by
    rw [TidyAt]
    dsimp only
    rcases eq_or_ne p i with rfl | hp
    · rw [Function.update_self]
      exact hg
    · rw [Function.update_of_ne hp]
      exact ht p
  cases op with
  | lock i c e => exact hcall (tidy_unixLock (hidle hop.1) fun hlt => (hop.2 hlt).2.1)
  | unlock i c e => exact hcall (tidy_posixUnlock (h.good i).count (hidle hop.1) hop.2)
  | turn i a =>
    rw [OsUnix.step, turn]
    have hat := ht i
    rw [TidyAt] at hat
    cases hi : s.call i with
    | none => exact ht p
    | some cg =>
      obtain ⟨c, g⟩ := cg
      rw [hi] at hat
      cases g with
      | ret rc x =>
        rw [TidyAt]
        dsimp only
        rcases eq_or_ne p i with rfl | hp
        · rw [Function.update_self, Function.update_self]
          exact hat
        · rw [Function.update_of_ne hp, Function.update_of_ne hp]
          exact ht p
      | sys t r k =>
        dsimp only
        by_cases ha : a = .granted
        · subst ha
          rw [if_pos rfl, TidyAt]
          dsimp only
          rcases eq_or_ne p i with rfl | hp
          · rw [Function.update_self, Function.update_self]
            exact hat.1
          · rw [Function.update_of_ne hp, Function.update_of_ne hp]
            exact ht p
        · rw [if_neg ha]
          refine hcall (hat.2 (fun heq => ?_) a ha)
          subst heq
          exact ha (hun c r k hi)

/-- **No lock is left behind.** As long as no call of `fcntl` that unlocks fails, whichever others do,
a process between calls has a lock on a byte only if one of its connections has a lock that is as high
as the byte is for. -/
theorem noLeak_of_run {ops : List (Op π κ)}
    (hrun : Run.EveryStep step (fun s op => Op.Allowed s op ∧ Op.Unlocks s op) (start π κ) ops)
    (hs : s = Run.last step (start π κ) ops) {i : π} (hi : s.call i = none) {x : Byte}
    (hx : s.locks i x ≠ .unlck) : ∃ c, x.level ≤ ((s.proc i).file c).val := by
  obtain ⟨-, ht⟩ : (∃ ps, Inv s ps) ∧ ∀ p, TidyAt s p := hs ▸
    Run.last_of_invariant (P := fun s => (∃ ps, Inv s ps) ∧ ∀ p, TidyAt s p)
      (fun _ op h hop => h.1.elim fun _ hi => ⟨hi.step op hop.1, hi.tidy h.2 hop.1 hop.2⟩)
      ⟨⟨_, inv_start⟩, fun _ _ hx => absurd rfl hx⟩ hrun
  have hat := ht i
  rw [TidyAt, hi] at hat
  exact hat x hx

/-- One process reads. -/
def reading : List (Op Bool Unit) :=
  [.lock false () .shared, .turn false .granted, .turn false .granted, .turn false .granted,
    .turn false .granted]

theorem reading_allowed : Run.EveryStep step (fun s op => Op.Allowed s op ∧ Op.Unlocks s op)
    (start Bool Unit) reading := by
  refine ⟨⟨⟨rfl, fun _ => ⟨Or.inr rfl, by decide, fun h => by cases h⟩⟩, trivial⟩, ?_, ?_, ?_, ?_,
    trivial⟩
  all_goals
    refine ⟨fun _ _ _ _ _ _ q x hq _ => ?_, fun _ _ _ _ => rfl⟩
    cases q
    · exact absurd rfl hq
    · exact Or.inr (Or.inl rfl)

theorem noLeak_of_run_reading :
    ∃ c, Byte.shared.level ≤ (((Run.last step (start Bool Unit) reading).proc false).file c).val :=
  noLeak_of_run reading_allowed rfl rfl (by decide)

/-! ### Exclusion -/

/-- The connection is not in a call. -/
def Rests (s : State π κ) (i : π) (c : κ) : Prop := ∀ d g, s.call i = some (d, g) → c ≠ d

/-- **Exclusion.** However the processes interleave and whichever calls of `fcntl` fail, beside a
connection with `EXCLUSIVE_LOCK` every other is at `NO_LOCK`, there are not two with `RESERVED_LOCK`,
and not two with `PENDING_LOCK` or more, among those that are not in a call. -/
theorem posixExclusion_of_run {ops : List (Op π κ)}
    (hrun : Run.EveryStep step (fun s op => Op.Allowed s op) (start π κ) ops)
    (hs : s = Run.last step (start π κ) ops) {i j : π} {d : κ} (hc : Rests s i c) (hd : Rests s j d)
    (hne : (i, c) ≠ (j, d)) :
    ((s.proc i).file c = .exclusive → (s.proc j).file d = .no) ∧
    ¬ ((s.proc i).file c = .reserved ∧ (s.proc j).file d = .reserved) ∧
    ¬ (3 ≤ ((s.proc i).file c).val ∧ 3 ≤ ((s.proc j).file d).val) := by
  obtain ⟨ps, h⟩ : ∃ ps, Inv s ps := hs ▸ Run.last_of_invariant (P := fun s => ∃ ps, Inv s ps)
    (fun _ op h hop => h.elim fun _ hi => hi.step op hop) ⟨_, inv_start⟩ hrun
  have hkeeps : ∀ {i c}, Rests s i c →
      ∃ f, f c = (s.proc i).file c ∧ Keeps f (ps i) (s.locks i) := fun {i c} hrest => by
    have hsec := h.secure i
    rw [Secure] at hsec
    split at hsec
    case h_1 => exact ⟨_, rfl, hsec⟩
    case h_2 d g hcall => exact ⟨_, Function.update_of_ne (hrest d g hcall) _ _, hsec.keeps⟩
  rcases eq_or_ne i j with rfl | hij
  · have hcd : d ≠ c := fun heq => hne (by rw [heq])
    refine ⟨fun hx => (h.good i).alone c d hx hcd, fun hand => hcd ?_, fun hand => hcd ?_⟩
    · exact (h.good i).uniq d c (by rw [hand.2]; decide) (by rw [hand.1]; decide)
    · exact (h.good i).uniq d c (by omega) (by omega)
  · obtain ⟨f, hf, hk⟩ := hkeeps hc
    obtain ⟨f', hf', hk'⟩ := hkeeps hd
    rw [← hf, ← hf']
    refine ⟨fun hx => ?_, fun hand => ?_, fun hand => ?_⟩
    · by_contra hno
      exact hk'.shared d hno (h.alone i j (hk.exclusive c hx) hij.symm)
    · have hboth := h.compatible i j .reserved hij
      rw [hk.reserved c hand.1, hk'.reserved d hand.2] at hboth
      cases hboth.eq_unlck
    · have hboth := h.compatible i j .pending hij
      rw [hk.pending c hand.1, hk'.pending d hand.2] at hboth
      cases hboth.eq_unlck

/-- One process has all the locks in turn, another one reads for a while. -/
def writing : List (Op Bool Unit) :=
  [.lock false () .shared, .turn false .granted, .turn false .granted, .turn false .granted,
    .turn false .granted, .lock false () .reserved, .turn false .granted, .turn false .granted,
    .lock true () .shared, .turn true .granted, .turn true .granted, .turn true .granted,
    .turn true .granted, .lock false () .exclusive, .turn false .granted, .turn false .busy,
    .turn false .granted, .unlock true () .no, .turn true .granted, .turn true .granted,
    .lock false () .exclusive, .turn false .granted, .turn false .granted]

example : ((Run.last step (start Bool Unit) writing).proc false).file () = .exclusive := by
  decide +kernel

theorem posixExclusion_of_run_writing :
    let s := Run.last step (start Bool Unit) writing
    ((s.proc false).file () = .exclusive → (s.proc true).file () = .no) ∧
    ¬ ((s.proc false).file () = .reserved ∧ (s.proc true).file () = .reserved) ∧
    ¬ (3 ≤ ((s.proc false).file ()).val ∧ 3 ≤ ((s.proc true).file ()).val) := by
  have hrun : Run.EveryStep step (fun s op => Op.Allowed s op) (start Bool Unit) writing := by
    decide +kernel
  exact posixExclusion_of_run hrun rfl (fun _ _ h => by cases h) (fun _ _ h => by cases h)
    fun h => by cases h

end OsUnix

end SqliteVms

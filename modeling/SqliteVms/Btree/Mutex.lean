import SqliteVms.Lib.LockOrder
import SqliteVms.Lib.Run

/-!
# The mutexes of shared b-trees

`btmutex.c`. Any number of connections, each on a thread of its own, enter and leave the mutexes of
the shared b-trees they have open. A connection that cannot have a mutex at once gives back those
behind it in the order of addresses and takes them again after it, one by one; between any two of
these steps the other threads run. A connection makes one call at a time, for it holds its own mutex.

## Main definitions

* `sqlite3BtreeEnter`, `resume`, `sqlite3BtreeLeave` — the functions, cut where they may block
* `State`, `step`, `Op.Allowed` — the threads and their steps
* `Inv` — the invariant

## Main results

* `noDeadlock_of_run` — no deadlock
* `exclusive_of_run` — exclusion
-/

namespace SqliteVms

namespace BtMutex

/-- The `Btree` handles of a connection, named by the address of their `BtShared`, and what a call of
`sqlite3BtreeEnter` has still to do: mutexes to give back, the one asked for, mutexes to take
again. -/
structure Conn (μ : Type*) where
  wantToLock : μ → ℕ
  locked : μ → Bool
  unlock : List μ
  lock : Option μ
  relock : List μ

/-- Nothing is left to do. -/
def Conn.Idle {μ : Type*} (x : Conn μ) : Prop := x.unlock = [] ∧ x.lock = none ∧ x.relock = []

/-- The connections, and the holder and the field `db` of each `BtShared`. -/
structure State (κ μ : Type*) where
  conn : κ → Conn μ
  mutex : μ → Option κ
  db : μ → Option κ

/-- Nobody has entered anything. -/
def start (κ μ : Type*) : State κ μ :=
  ⟨fun _ => ⟨fun _ => 0, fun _ => false, [], none, []⟩, fun _ => none, fun _ => none⟩

variable {κ μ : Type*} [DecidableEq κ] [LinearOrder μ]

/-- `lockBtreeMutex`; `x` is what the connection does afterwards. -/
def lockBtreeMutex (s : State κ μ) (c : κ) (x : Conn μ) (m : μ) : State κ μ where
  conn := Function.update s.conn c { x with locked := Function.update x.locked m true }
  mutex := Function.update s.mutex m (some c)
  db := Function.update s.db m (some c)

/-- `unlockBtreeMutex`. -/
def unlockBtreeMutex (s : State κ μ) (c : κ) (x : Conn μ) (m : μ) : State κ μ where
  conn := Function.update s.conn c { x with locked := Function.update x.locked m false }
  mutex := Function.update s.mutex m none
  db := s.db

def Conn.setWant (x : Conn μ) (m : μ) (n : ℕ) : Conn μ :=
  { x with wantToLock := Function.update x.wantToLock m n }

def setConn (s : State κ μ) (c : κ) (x : Conn μ) : State κ μ :=
  { s with conn := Function.update s.conn c x }

/-- `sqlite3BtreeEnter`, up to the point where it may block; `got` is the answer of
`sqlite3_mutex_try`. The list `pNext` is in the order of addresses. -/
def sqlite3BtreeEnter (btrees : κ → List μ) (s : State κ μ) (c : κ) (m : μ) (got : Bool) : State κ μ :=
  let x := (s.conn c).setWant m ((s.conn c).wantToLock m + 1)
  if x.locked m = true then setConn s c x
  else if got = true then lockBtreeMutex s c x m
  else
    let later := (btrees c).filter (m < ·)
    setConn s c { x with unlock := later, lock := some m, relock := later }

/-- `sqlite3BtreeLeave`. -/
def sqlite3BtreeLeave (s : State κ μ) (c : κ) (m : μ) : State κ μ :=
  let x := (s.conn c).setWant m ((s.conn c).wantToLock m - 1)
  if x.wantToLock m = 0 then unlockBtreeMutex s c x m else setConn s c x

/-- The next step of a call of `sqlite3BtreeEnter`. -/
def resume (s : State κ μ) (c : κ) : State κ μ :=
  match s.conn c with
  | ⟨w, l, m :: ms, asked, later⟩ =>
    if l m = true then unlockBtreeMutex s c ⟨w, l, ms, asked, later⟩ m
    else setConn s c ⟨w, l, ms, asked, later⟩
  | ⟨w, l, [], some m, later⟩ => lockBtreeMutex s c ⟨w, l, [], none, later⟩ m
  | ⟨w, l, [], none, m :: ms⟩ =>
    if 0 < w m then lockBtreeMutex s c ⟨w, l, [], none, ms⟩ m
    else setConn s c ⟨w, l, [], none, ms⟩
  | ⟨_, _, [], none, []⟩ => s

/-- The mutex a connection takes next. -/
def wants (s : State κ μ) (c : κ) : Option μ :=
  match s.conn c with
  | ⟨_, _, [], some m, _⟩ => some m
  | ⟨w, _, [], none, m :: _⟩ => if 0 < w m then some m else none
  | _ => none

/-- A step of connection `c`. -/
inductive Op (κ μ : Type*)
  | enter (c : κ) (m : μ) (got : Bool)
  | leave (c : κ) (m : μ)
  | resume (c : κ)

variable (btrees : κ → List μ)

def step (s : State κ μ) : Op κ μ → State κ μ
  | .enter c m got => sqlite3BtreeEnter btrees s c m got
  | .leave c m => sqlite3BtreeLeave s c m
  | .resume c => resume s c

/-- When a step is taken. A connection leaves only what it has entered, and a mutex that is held is
not given to another thread; `sqlite3_mutex_try` may fail for a free one. -/
def Op.Allowed (s : State κ μ) : Op κ μ → Prop
  | .enter c m got => (s.conn c).Idle ∧ m ∈ btrees c ∧ (got = true → s.mutex m = none)
  | .leave c m => (s.conn c).Idle ∧ 0 < (s.conn c).wantToLock m
  | .resume c => ∀ m, wants s c = some m → s.mutex m = none

/-! ### The invariant -/

/-- The mutexes a call has still to take. -/
def Conn.toLock (x : Conn μ) : List μ := x.lock.toList ++ x.relock

/-- What holds of one connection. Every mutex it holds and need not give back is below all those it
has still to take. -/
structure Conn.Good (L : List μ) (x : Conn μ) : Prop where
  mine : ∀ m, 0 < x.wantToLock m → m ∈ L
  want : ∀ m, x.locked m = true → 0 < x.wantToLock m
  sorted : x.toLock.Pairwise (· < ·)
  asked : ∀ m, x.lock = some m → 0 < x.wantToLock m
  low : ∀ m, x.locked m = true → m ∈ x.unlock ∨ ∀ y ∈ x.toLock, m < y
  held : ∀ m, 0 < x.wantToLock m → x.locked m = true ∨ m ∈ x.toLock
  again : x.unlock ⊆ x.relock

structure Inv (s : State κ μ) : Prop where
  good : ∀ c, (s.conn c).Good (btrees c)
  owner : ∀ c m, s.mutex m = some c ↔ (s.conn c).locked m = true
  db : ∀ c m, (s.conn c).locked m = true → s.db m = some c

variable {btrees} {s : State κ μ} {c : κ} {m : μ} {x : Conn μ}

/-- The counters of other b-trees are left alone. -/
theorem setWant_of_ne {k : μ} (hk : k ≠ m) (n : ℕ) :
    (x.setWant m n).wantToLock k = x.wantToLock k := Function.update_of_ne hk _ _

/-- A connection that is not locking, with its counters right. -/
theorem Conn.good_of_idle {L : List μ} (hidle : x.Idle) (hmine : ∀ m, 0 < x.wantToLock m → m ∈ L)
    (hwant : ∀ m, x.locked m = true ↔ 0 < x.wantToLock m) : x.Good L := by
  obtain ⟨hu, ha, hr⟩ := hidle
  have hto : x.toLock = [] := by rw [Conn.toLock, ha, hr]; rfl
  refine ⟨hmine, fun m => (hwant m).mp, ?_, fun m hm => ?_, fun m _ => Or.inr fun y hy => ?_,
    fun m hm => Or.inl ((hwant m).mpr hm), ?_⟩
  · rw [hto]
    exact List.Pairwise.nil
  · rw [ha] at hm
    cases hm
  · rw [hto] at hy
    cases hy
  · rw [hu]
    exact List.nil_subset _

/-- Between calls a connection holds what it wants. -/
theorem Conn.Good.locked_iff {L : List μ} (h : x.Good L) (hidle : x.Idle) (m : μ) :
    x.locked m = true ↔ 0 < x.wantToLock m := by
  refine ⟨h.want m, fun hm => (h.held m hm).resolve_right fun hto => ?_⟩
  rw [Conn.toLock, hidle.2.1, hidle.2.2] at hto
  cases hto

omit [DecidableEq κ] in
theorem inv_start : Inv btrees (start κ μ) where
  good _ := Conn.good_of_idle ⟨rfl, rfl, rfl⟩ (fun _ hm => absurd hm (lt_irrefl 0))
    fun _ => iff_of_false Bool.false_ne_true (lt_irrefl 0)
  owner _ _ := iff_of_false (Option.some_ne_none _).symm Bool.false_ne_true
  db _ _ hm := absurd hm Bool.false_ne_true

/-- The invariant of each connection, when one of them changes. -/
theorem Inv.good_update (h : Inv btrees s) (hx : x.Good (btrees c)) (d : κ) :
    (Function.update s.conn c x d).Good (btrees d) := by
  rcases eq_or_ne d c with rfl | hd
  · rw [Function.update_self]
    exact hx
  · rw [Function.update_of_ne hd]
    exact h.good d

/-- The invariant when a connection changes and holds what it held. -/
theorem Inv.setConn (h : Inv btrees s) (hx : x.Good (btrees c)) (hl : x.locked = (s.conn c).locked) :
    Inv btrees (setConn s c x) := by
  have hlocked : ∀ d, (Function.update s.conn c x d).locked = (s.conn d).locked := by
    intro d
    rcases eq_or_ne d c with rfl | hd
    · rw [Function.update_self, hl]
    · rw [Function.update_of_ne hd]
  refine ⟨h.good_update hx, fun d k => ?_, fun d k hk => h.db d k ?_⟩
  · exact (h.owner d k).trans (by rw [BtMutex.setConn, hlocked])
  · rwa [BtMutex.setConn, hlocked] at hk

/-- A free mutex is taken. -/
theorem Inv.lock (h : Inv btrees s) (hfree : s.mutex m = none) (hl : x.locked = (s.conn c).locked)
    (hx : Conn.Good (btrees c) { x with locked := Function.update x.locked m true }) :
    Inv btrees (lockBtreeMutex s c x m) := by
  have hnot : ∀ d, (s.conn d).locked m ≠ true := fun d hd => by
    rw [← h.owner, hfree] at hd
    cases hd
  have hlocked : ∀ d k, ((lockBtreeMutex s c x m).conn d).locked k = true ↔
      if k = m then d = c else (s.conn d).locked k = true := by
    intro d k
    rw [lockBtreeMutex]
    rcases eq_or_ne d c with rfl | hd <;> rcases eq_or_ne k m with rfl | hk <;> simp_all
  refine ⟨h.good_update hx, fun d k => ?_, fun d k hk => ?_⟩
  · rw [hlocked]
    change Function.update s.mutex m (some c) k = some d ↔ _
    rw [Function.update_apply]
    split
    · exact ⟨fun heq => (Option.some.inj heq).symm, fun heq => congrArg some heq.symm⟩
    · exact h.owner d k
  · rw [hlocked] at hk
    change Function.update s.db m (some c) k = some d
    rw [Function.update_apply]
    split at hk
    · rw [if_pos ‹_›, hk]
    · rw [if_neg ‹_›]
      exact h.db d k hk

/-- A mutex is given back. -/
theorem Inv.unlock (h : Inv btrees s) (hm : (s.conn c).locked m = true) (hl : x.locked = (s.conn c).locked)
    (hx : Conn.Good (btrees c) { x with locked := Function.update x.locked m false }) :
    Inv btrees (unlockBtreeMutex s c x m) := by
  have hmine := (h.owner c m).mpr hm
  have hlocked : ∀ d k, ((unlockBtreeMutex s c x m).conn d).locked k = true ↔
      k ≠ m ∧ (s.conn d).locked k = true := by
    intro d k
    rw [unlockBtreeMutex]
    rcases eq_or_ne d c with rfl | hd <;> rcases eq_or_ne k m with rfl | hk <;> simp_all
    rw [← Bool.not_eq_true, ← h.owner, hmine]
    exact fun heq => hd (Option.some.inj heq).symm
  refine ⟨h.good_update hx, fun d k => ?_, fun d k hk => h.db d k ((hlocked d k).mp hk).2⟩
  rw [hlocked]
  change Function.update s.mutex m none k = some d ↔ _
  rw [Function.update_apply]
  split
  · exact iff_of_false (Option.some_ne_none d).symm fun hand => hand.1 ‹_›
  · exact (h.owner d k).trans (and_iff_right ‹_›).symm

/-! ### Each step -/

/-- The invariant after `sqlite3BtreeEnter`. -/
theorem Inv.enter (hsorted : (btrees c).Pairwise (· < ·)) (h : Inv btrees s)
    (hidle : (s.conn c).Idle) (hm : m ∈ btrees c) {got : Bool} (hgot : got = true → s.mutex m = none) :
    Inv btrees (sqlite3BtreeEnter btrees s c m got) := by
  have hiff := (h.good c).locked_iff hidle
  have hmine : ∀ k, 0 < Function.update (s.conn c).wantToLock m ((s.conn c).wantToLock m + 1) k →
      k ∈ btrees c := fun k hk => by
    rcases eq_or_ne k m with rfl | hkm
    · exact hm
    · exact (h.good c).mine k (by rwa [Function.update_of_ne hkm] at hk)
  have hself : 0 < Function.update (s.conn c).wantToLock m ((s.conn c).wantToLock m + 1) m := by
    rw [Function.update_self]
    exact Nat.succ_pos _
  rw [sqlite3BtreeEnter]
  dsimp only
  split
  case isTrue hl =>
    refine h.setConn (Conn.good_of_idle hidle hmine fun k => ?_) rfl
    rcases eq_or_ne k m with rfl | hkm
    · exact iff_of_true hl hself
    · rw [setWant_of_ne hkm]
      exact hiff k
  case isFalse hl =>
    split
    case isTrue htry =>
      refine h.lock (hgot htry) rfl (Conn.good_of_idle hidle hmine fun k => ?_)
      rcases eq_or_ne k m with rfl | hkm
      · exact iff_of_true (Function.update_self _ _ _) hself
      · change Function.update (s.conn c).locked m true k = true ↔ 0 < (Conn.setWant _ m _).wantToLock k
        rw [Function.update_of_ne hkm, setWant_of_ne hkm]
        exact hiff k
    case isFalse =>
      have hlater : ∀ k, k ∈ (btrees c).filter (m < ·) ↔ k ∈ btrees c ∧ m < k := fun k => by
        rw [List.mem_filter, decide_eq_true_iff]
      have hwant : ∀ k, k ≠ m → ((s.conn c).locked k = true ↔
          0 < Function.update (s.conn c).wantToLock m ((s.conn c).wantToLock m + 1) k) := fun k hkm =>
        (hiff k).trans (by rw [Function.update_of_ne hkm])
      refine h.setConn ⟨hmine, fun k hk => ?_, List.pairwise_cons.mpr
        ⟨fun k hk => ((hlater k).mp hk).2, hsorted.filter _⟩, fun k hk => ?_, fun k hk => ?_,
        fun k hk => ?_, List.Subset.refl _⟩ rfl
      · exact (hwant k fun heq => hl (heq ▸ hk)).mp hk
      · exact Option.some.inj hk ▸ hself
      · have hkm : k ≠ m := fun heq => hl (heq ▸ hk)
        rcases lt_or_gt_of_ne hkm with hlt | hgt
        · refine Or.inr fun y hy => ?_
          rcases List.mem_cons.mp hy with rfl | hy
          · exact hlt
          · exact hlt.trans ((hlater y).mp hy).2
        · exact Or.inl ((hlater k).mpr ⟨hmine k ((hwant k hkm).mp hk), hgt⟩)
      · rcases eq_or_ne k m with rfl | hkm
        · exact Or.inr List.mem_cons_self
        · exact Or.inl ((hwant k hkm).mpr hk)

/-- The invariant after `sqlite3BtreeLeave`. -/
theorem Inv.leave (h : Inv btrees s) (hidle : (s.conn c).Idle) (hm : 0 < (s.conn c).wantToLock m) :
    Inv btrees (sqlite3BtreeLeave s c m) := by
  have hiff := (h.good c).locked_iff hidle
  have hmine : ∀ k, 0 < Function.update (s.conn c).wantToLock m ((s.conn c).wantToLock m - 1) k →
      k ∈ btrees c := fun k hk => (h.good c).mine k <| by
    rcases eq_or_ne k m with rfl | hkm
    · exact hm
    · rwa [Function.update_of_ne hkm] at hk
  rw [sqlite3BtreeLeave]
  split
  case isTrue hzero =>
    refine h.unlock ((hiff m).mpr hm) rfl (Conn.good_of_idle hidle hmine fun k => ?_)
    rcases eq_or_ne k m with rfl | hkm
    · change Function.update (s.conn c).locked k false k = true ↔ 0 < (Conn.setWant _ k _).wantToLock k
      rw [hzero, Function.update_self]
      exact iff_of_false Bool.false_ne_true (lt_irrefl 0)
    · change Function.update (s.conn c).locked m false k = true ↔ 0 < (Conn.setWant _ m _).wantToLock k
      rw [Function.update_of_ne hkm, setWant_of_ne hkm]
      exact hiff k
  case isFalse hpos =>
    refine h.setConn (Conn.good_of_idle hidle hmine fun k => ?_) rfl
    rcases eq_or_ne k m with rfl | hkm
    · exact iff_of_true ((hiff k).mpr hm) (Nat.pos_of_ne_zero hpos)
    · rw [setWant_of_ne hkm]
      exact hiff k

/-- The lowest of the mutexes still to take is taken. -/
theorem Conn.Good.take {L : List μ} {w : μ → ℕ} {l : μ → Bool} {a : Option μ} {r ms : List μ}
    (h : Conn.Good L ⟨w, l, [], a, r⟩) (hto : Conn.toLock ⟨w, l, [], a, r⟩ = m :: ms) (hw : 0 < w m) :
    Conn.Good L ⟨w, Function.update l m true, [], none, ms⟩ := by
  obtain ⟨hmine, hwant, hsorted, -, hlow, hheld, -⟩ := h
  rw [hto] at hsorted hlow hheld
  have hne : ∀ k, k ≠ m → Function.update l m true k = l k := fun k hk => Function.update_of_ne hk _ _
  refine ⟨hmine, fun k hk => ?_, (List.pairwise_cons.mp hsorted).2, fun k hk => ?_, fun k hk => ?_,
    fun k hk => ?_, List.nil_subset _⟩
  · rcases eq_or_ne k m with rfl | hkm
    · exact hw
    · exact hwant k ((hne k hkm).symm.trans hk)
  · cases hk
  · rcases eq_or_ne k m with rfl | hkm
    · exact Or.inr (List.pairwise_cons.mp hsorted).1
    · rcases hlow k ((hne k hkm).symm.trans hk) with hk | hk
      · cases hk
      · exact Or.inr fun y hy => hk y (List.mem_cons_of_mem m hy)
  · rcases eq_or_ne k m with rfl | hkm
    · exact Or.inl (Function.update_self _ _ _)
    · exact (hheld k hk).imp (hne k hkm).trans fun hto => (List.mem_cons.mp hto).resolve_left hkm

/-- The invariant after a connection that waited goes on. -/
theorem Inv.resume (h : Inv btrees s) (hfree : ∀ m, wants s c = some m → s.mutex m = none) :
    Inv btrees (resume s c) := by
  have hg := h.good c
  rw [BtMutex.resume]
  rw [wants] at hfree
  cases hc : s.conn c with
  | mk w l us a r =>
    rw [hc] at hg hfree
    cases us with
    | cons m ms =>
      have hagain : ms ⊆ r := fun k hk => hg.again (List.mem_cons_of_mem m hk)
      dsimp only
      split
      case isTrue hl =>
        have hof : ∀ k, Function.update l m false k = true → k ≠ m ∧ l k = true := fun k hk => by
          rcases eq_or_ne k m with rfl | hkm
          · rw [Function.update_self] at hk
            cases hk
          · exact ⟨hkm, by rwa [Function.update_of_ne hkm] at hk⟩
        refine h.unlock (by rw [hc]; exact hl) (by rw [hc]) ⟨hg.mine,
          fun k hk => hg.want k (hof k hk).2, hg.sorted, hg.asked, fun k hk => ?_, fun k hk => ?_,
          hagain⟩
        · exact (hg.low k (hof k hk).2).imp_left fun hto => (List.mem_cons.mp hto).resolve_left (hof k hk).1
        · rcases eq_or_ne k m with rfl | hkm
          · exact Or.inr (List.mem_append_right _ (hg.again List.mem_cons_self))
          · exact (hg.held k hk).imp_left (Function.update_of_ne hkm _ _).trans
      case isFalse hl =>
        refine h.setConn ⟨hg.mine, hg.want, hg.sorted, hg.asked, fun k hk => ?_, hg.held, hagain⟩
          (by rw [hc])
        exact (hg.low k hk).imp_left fun hto => (List.mem_cons.mp hto).resolve_left
          fun heq => hl (by rwa [heq] at hk)
    | nil =>
      cases a with
      | some m =>
        exact h.lock (hfree m rfl) (by rw [hc]) (hg.take rfl (hg.asked m rfl))
      | none =>
        cases r with
        | nil => exact h
        | cons m ms =>
          dsimp only at hfree ⊢
          split
          case isTrue hw =>
            rw [if_pos hw] at hfree
            exact h.lock (hfree m rfl) (by rw [hc]) (hg.take rfl hw)
          case isFalse hw =>
            refine h.setConn ⟨hg.mine, hg.want, (List.pairwise_cons.mp hg.sorted).2, hg.asked,
              fun k hk => ?_, fun k hk => ?_, List.nil_subset _⟩ (by rw [hc])
            · exact (hg.low k hk).imp_right fun hto y hy => hto y (List.mem_cons_of_mem m hy)
            · exact (hg.held k hk).imp_right fun hto =>
                (List.mem_cons.mp hto).resolve_left fun heq => hw (by rwa [heq] at hk)

/-- The invariant after one step. -/
theorem Inv.step (hsorted : ∀ c, (btrees c).Pairwise (· < ·)) (h : Inv btrees s) (op : Op κ μ)
    (hop : op.Allowed btrees s) : Inv btrees (step btrees s op) := by
  cases op with
  | enter c m got => exact h.enter (hsorted c) hop.1 hop.2.1 hop.2.2
  | leave c m => exact h.leave hop.1 hop.2
  | resume c => exact h.resume hop

/-- The invariant after every run. -/
theorem inv_of_run (hsorted : ∀ c, (btrees c).Pairwise (· < ·)) {ops : List (Op κ μ)}
    (hrun : Run.EveryStep (step btrees) (Op.Allowed btrees) (start κ μ) ops) :
    Inv btrees (Run.last (step btrees) (start κ μ) ops) :=
  Run.last_of_invariant (fun _ op h => h.step hsorted op) inv_start hrun

/-! ### Every run -/

omit [DecidableEq κ] [LinearOrder μ] in
/-- A connection that waits has nothing more to give back. -/
theorem wants_eq_some (h : wants s c = some m) :
    (s.conn c).unlock = [] ∧ m ∈ (s.conn c).toLock := by
  rw [wants] at h
  split at h
  case h_1 w l m' r hc =>
    rw [hc]
    exact ⟨rfl, Option.some.inj h ▸ List.mem_cons_self⟩
  case h_2 w l m' r hc =>
    split at h
    · rw [hc]
      exact ⟨rfl, Option.some.inj h ▸ List.mem_cons_self⟩
    · cases h
  case h_3 => cases h

omit [DecidableEq κ] in
/-- A connection waits only for a mutex above those that it holds. -/
theorem Inv.below (h : Inv btrees s) {m' : μ} (hw : wants s c = some m) (hm : s.mutex m' = some c) :
    m' < m := by
  obtain ⟨hu, hto⟩ := wants_eq_some hw
  rcases (h.good c).low m' ((h.owner c m').mp hm) with hk | hk
  · rw [hu] at hk
    cases hk
  · exact hk m hto

/-- The steps a call has still to take. -/
def Conn.work (x : Conn μ) : ℕ := x.unlock.length + x.toLock.length

/-- Going on leaves less to do. -/
theorem work_resume_lt (hidle : ¬ (s.conn c).Idle) :
    ((resume s c).conn c).work < (s.conn c).work := by
  rw [resume]
  cases hc : s.conn c with
  | mk w l us a r =>
    rw [hc] at hidle
    cases us with
    | cons m ms =>
      dsimp only
      split <;> simp [unlockBtreeMutex, setConn, Conn.work, Conn.toLock]
    | nil =>
      cases a with
      | some m => simp [lockBtreeMutex, Conn.work, Conn.toLock]
      | none =>
        cases r with
        | nil => exact absurd ⟨rfl, rfl, rfl⟩ hidle
        | cons m ms =>
          dsimp only
          split <;> simp [lockBtreeMutex, setConn, Conn.work, Conn.toLock]

/-- **No deadlock.** Whatever the threads do, no connection waits for itself through others, and at
the end of every chain is one that need not wait: it is between calls or comes nearer to the end of
the one it is in. -/
theorem noDeadlock_of_run [Finite κ] (hsorted : ∀ c, (btrees c).Pairwise (· < ·))
    {ops : List (Op κ μ)}
    (hrun : Run.EveryStep (step btrees) (Op.Allowed btrees) (start κ μ) ops)
    (hs : s = Run.last (step btrees) (start κ μ) ops) (c : κ) :
    ¬ Relation.TransGen (LockOrder.WaitsFor (wants s) s.mutex) c c ∧
      ∃ d, Relation.ReflTransGen (LockOrder.WaitsFor (wants s) s.mutex) c d ∧
        (Op.resume d).Allowed btrees s ∧
        ((s.conn d).Idle ∨ ((step btrees s (.resume d)).conn d).work < (s.conn d).work) := by
  have h : Inv btrees s := hs ▸ inv_of_run hsorted hrun
  have hbelow : ∀ c m m', wants s c = some m → s.mutex m' = some c → m' < m := fun _ _ _ => h.below
  obtain ⟨d, hcd, hd⟩ := LockOrder.exists_running hbelow c
  refine ⟨LockOrder.not_transGen_self hbelow c, d, hcd, fun m hm => ?_, ?_⟩
  · by_contra hne
    obtain ⟨e, he⟩ := Option.ne_none_iff_exists'.mp hne
    exact hd e ⟨m, hm, he⟩
  · rcases em (s.conn d).Idle with hidle | hidle
    · exact Or.inl hidle
    · exact Or.inr (work_resume_lt hidle)

/-- Two connections with the same two b-trees, each of which has one mutex; the first waits for the
other, which does not wait. -/
def crossing : List (Op Bool ℕ) :=
  [.enter false 1 true, .enter true 0 true, .enter false 0 false, .resume false]

theorem crossing_allowed :
    Run.EveryStep (step fun _ => [0, 1]) (Op.Allowed fun _ => [0, 1]) (start Bool ℕ) crossing :=
  ⟨⟨⟨rfl, rfl, rfl⟩, by decide, fun _ => rfl⟩, ⟨⟨rfl, rfl, rfl⟩, by decide, fun _ => rfl⟩,
    ⟨⟨rfl, rfl, rfl⟩, by decide, fun h => absurd h Bool.false_ne_true⟩,
    fun _ h => absurd h (Option.some_ne_none _).symm, trivial⟩

theorem noDeadlock_of_run_crossing :
    let s := Run.last (step fun _ => [0, 1]) (start Bool ℕ) crossing
    ¬ Relation.TransGen (LockOrder.WaitsFor (wants s) s.mutex) false false ∧
      ∃ d, Relation.ReflTransGen (LockOrder.WaitsFor (wants s) s.mutex) false d ∧
        (Op.resume d).Allowed (fun _ => [0, 1]) s ∧
        ((s.conn d).Idle ∨ ((step (fun _ => [0, 1]) s (.resume d)).conn d).work < (s.conn d).work) :=
  noDeadlock_of_run (fun _ => by decide) crossing_allowed rfl false

/-- **Exclusion.** A shared b-tree is locked through one handle at a time, whose connection is in
`BtShared.db`, and a call returns with exactly the mutexes that are wanted. -/
theorem exclusive_of_run (hsorted : ∀ c, (btrees c).Pairwise (· < ·)) {ops : List (Op κ μ)}
    (hrun : Run.EveryStep (step btrees) (Op.Allowed btrees) (start κ μ) ops)
    (hs : s = Run.last (step btrees) (start κ μ) ops) (c : κ) (m : μ) :
    ((s.conn c).locked m = true → s.db m = some c ∧
      ∀ d, (s.conn d).locked m = true → d = c) ∧
    ((s.conn c).Idle → ((s.conn c).locked m = true ↔ 0 < (s.conn c).wantToLock m)) := by
  have h : Inv btrees s := hs ▸ inv_of_run hsorted hrun
  refine ⟨fun hm => ⟨h.db c m hm, fun d hd => ?_⟩, fun hidle => (h.good c).locked_iff hidle m⟩
  have hc := (h.owner c m).mpr hm
  rw [(h.owner d m).mpr hd] at hc
  exact Option.some.inj hc

theorem exclusive_of_run_crossing :
    let s := Run.last (step fun _ => [0, 1]) (start Bool ℕ) crossing
    ((s.conn true).locked 0 = true → s.db 0 = some true ∧
      ∀ d, (s.conn d).locked 0 = true → d = true) ∧
    ((s.conn true).Idle → ((s.conn true).locked 0 = true ↔ 0 < (s.conn true).wantToLock 0)) :=
  exclusive_of_run (fun _ => by decide) crossing_allowed rfl true 0

end BtMutex

end SqliteVms

import Mathlib.Algebra.Order.Ring.Int
import Mathlib.Data.List.Perm.Subperm
import Mathlib.Logic.Relation
import SqliteVms.Lib.Linked
import SqliteVms.Lib.Run

/-!
# Unlock notification

`notify.c`. Connections that were refused a lock of a shared cache stand in one list for the whole
process, those with one callback side by side; when the connection in the way ends its transaction,
each callback gets the arguments of all who wait for it in one call, if memory allows. The mutex
`STATIC_MASTER` makes every routine one step.

## Main definitions

* `sqlite3_unlock_notify`, `sqlite3ConnectionUnlocked`, `sqlite3ConnectionBlocked`,
  `sqlite3ConnectionClosed` — the functions
* `step` — what connections do
* `Inv` — the invariant

## Main results

* `waiting_of_run` — no connection waits for itself, and the list has those that wait
* `delivered_of_run` — each that waits gets its argument once
* `calls_nodup_of_run` — one call for each callback
-/

namespace SqliteVms

namespace UnlockNotify

/-- The fields of a connection that are used here. -/
structure Conn (κ φ α : Type*) where
  pBlockingConnection : Option κ
  pUnlockConnection : Option κ
  xUnlockNotify : Option φ
  pUnlockArg : α

/-- `sqlite3BlockedList` in the order of `pNextBlocked`. -/
structure State (κ φ α : Type*) where
  conn : κ → Conn κ φ α
  sqlite3BlockedList : List κ

variable {κ φ α : Type*}

section

variable [DecidableEq κ] [DecidableEq φ] [Zero α]

def Conn.empty : Conn κ φ α := ⟨none, none, none, 0⟩

def start : State κ φ α := ⟨fun _ => Conn.empty, []⟩

def insertBlocked (f : κ → Option φ) (db : κ) : List κ → List κ
  | [] => [db]
  | p :: ps => if f p = f db then db :: p :: ps else p :: insertBlocked f db ps

def addToBlockedList (s : State κ φ α) (db : κ) : State κ φ α :=
  { s with sqlite3BlockedList :=
      insertBlocked (fun p => (s.conn p).xUnlockNotify) db s.sqlite3BlockedList }

def removeFromBlockedList (s : State κ φ α) (db : κ) : State κ φ α :=
  { s with sqlite3BlockedList := s.sqlite3BlockedList.erase db }

def setConn (s : State κ φ α) (db : κ) (x : Conn κ φ α) : State κ φ α :=
  { s with conn := Function.update s.conn db x }

def sqlite3ConnectionBlocked (s : State κ φ α) (db pBlocker : κ) : State κ φ α :=
  let x := s.conn db
  let t := if x.pBlockingConnection = none ∧ x.pUnlockConnection = none then addToBlockedList s db
    else s
  setConn t db { x with pBlockingConnection := some pBlocker }

inductive Rc
  | ok
  | locked
  deriving DecidableEq

/-- The loop of `sqlite3_unlock_notify` along `pUnlockConnection`, at most `n` steps of it: whether it
comes to `db`, or `none` if it does not end. -/
def search (s : State κ φ α) (db : κ) : ℕ → Option κ → Option Bool
  | 0, _ => none
  | _ + 1, none => some false
  | n + 1, some p => if p = db then some true else search s db n (s.conn p).pUnlockConnection

/-- The answer, the callbacks that are called, and the state. -/
structure Result (κ φ α : Type*) where
  rc : Rc
  calls : List (Option φ × List α)
  state : State κ φ α

def sqlite3_unlock_notify (s : State κ φ α) (db : κ) (xNotify : Option φ) (pArg : α) :
    Option (Result κ φ α) :=
  let x := s.conn db
  if xNotify = none then
    some ⟨.ok, [], setConn (removeFromBlockedList s db) db Conn.empty⟩
  else if x.pBlockingConnection = none then some ⟨.ok, [(xNotify, [pArg])], s⟩
  else
    (search s db (s.sqlite3BlockedList.length + 2) x.pBlockingConnection).map fun found =>
      if found = true then ⟨.locked, [], s⟩
      else
        let t := setConn s db ⟨x.pBlockingConnection, x.pBlockingConnection, xNotify, pArg⟩
        ⟨.ok, [], addToBlockedList (removeFromBlockedList t db) db⟩

/-- The local variables of `sqlite3ConnectionUnlocked`: the callback, the used part of `aArg` and the
size of the array, which is 16 at first; with them the calls made so far, how often memory was asked
for, and each place that was written to beside the size of the array at that time. -/
structure Collect (φ α : Type*) where
  xUnlockNotify : Option φ
  aArg : List α
  size : ℕ
  calls : List (Option φ × List α)
  nMalloc : ℕ
  writes : List (ℕ × ℕ)

def Collect.start : Collect φ α := ⟨none, [], 16, [], 0, []⟩

/-- The callback is called. -/
def Collect.flush (k : Collect φ α) : Collect φ α :=
  { k with aArg := [], calls := k.calls ++ [(k.xUnlockNotify, k.aArg)] }

/-- The array grows when it is full. `malloc i` is the answer to the request number `i`: a failure, or
a block that may be larger than asked for. -/
def Collect.grow (malloc : ℕ → Option ℕ) (k : Collect φ α) : Collect φ α :=
  if k.aArg.length = k.size then
    match malloc k.nMalloc with
    | some extra => { k with size := 2 * k.aArg.length + extra, nMalloc := k.nMalloc + 1 }
    | none => { k.flush with nMalloc := k.nMalloc + 1 }
  else k

/-- Step 2 for a connection that waits. -/
def Collect.add (malloc : ℕ → Option ℕ) (k : Collect φ α) (x : Option φ) (arg : α) : Collect φ α :=
  let k := if x ≠ k.xUnlockNotify ∧ k.aArg ≠ [] then k.flush else k
  let k := k.grow malloc
  { k with
    xUnlockNotify := x
    aArg := k.aArg ++ [arg]
    writes := k.writes ++ [(k.aArg.length, k.size)] }

/-- Steps 1 and 2 for one connection. -/
def Conn.release (db : κ) (x : Conn κ φ α) : Conn κ φ α :=
  let x := if x.pBlockingConnection = some db then { x with pBlockingConnection := none } else x
  if x.pUnlockConnection = some db then
    { x with pUnlockConnection := none, xUnlockNotify := none, pUnlockArg := 0 }
  else x

/-- The loop over the list: the connections that stay in it, all connections and the variables. -/
def unlockedLoop (malloc : ℕ → Option ℕ) (db : κ) :
    List κ → (κ → Conn κ φ α) → Collect φ α → List κ × (κ → Conn κ φ α) × Collect φ α
  | [], conn, k => ([], conn, k)
  | p :: ps, conn, k =>
    let x := (conn p).release db
    let k := if (conn p).pUnlockConnection = some db then
      k.add malloc (conn p).xUnlockNotify (conn p).pUnlockArg else k
    let r := unlockedLoop malloc db ps (Function.update conn p x) k
    if x.pBlockingConnection = none ∧ x.pUnlockConnection = none then r else (p :: r.1, r.2)

/-- The state, and the variables after the last call. -/
def sqlite3ConnectionUnlocked (malloc : ℕ → Option ℕ) (s : State κ φ α) (db : κ) :
    State κ φ α × Collect φ α :=
  let r := unlockedLoop malloc db s.sqlite3BlockedList s.conn Collect.start
  (⟨r.2.1, r.1⟩, if r.2.2.aArg ≠ [] then r.2.2.flush else r.2.2)

def sqlite3ConnectionClosed (malloc : ℕ → Option ℕ) (s : State κ φ α) (db : κ) : State κ φ α :=
  removeFromBlockedList (sqlite3ConnectionUnlocked malloc s db).1 db

inductive Op (κ φ α : Type*)
  | blocked (db pBlocker : κ)
  | notify (db : κ) (xNotify : Option φ) (pArg : α)
  | unlocked (malloc : ℕ → Option ℕ) (db : κ)
  | closed (malloc : ℕ → Option ℕ) (db : κ)

/-- After a connection is closed, its address may become that of a new one. -/
def step (s : State κ φ α) : Op κ φ α → State κ φ α
  | .blocked db pBlocker => sqlite3ConnectionBlocked s db pBlocker
  | .notify db xNotify pArg => ((sqlite3_unlock_notify s db xNotify pArg).map Result.state).getD s
  | .unlocked malloc db => (sqlite3ConnectionUnlocked malloc s db).1
  | .closed malloc db => setConn (sqlite3ConnectionClosed malloc s db) db Conn.empty

end

/-! ### The search -/

/-- One connection waits for another. -/
def Waits (s : State κ φ α) (a b : κ) : Prop := (s.conn a).pUnlockConnection = some b

variable {s : State κ φ α} {db : κ}

section

variable [DecidableEq κ]

theorem not_reflTransGen_of_search {n : ℕ} {p : κ} (h : search s db n (some p) = some false) :
    ¬ Relation.ReflTransGen (Waits s) p db := by
  induction n generalizing p with
  | zero => cases h
  | succ n ih =>
    rw [search] at h
    split at h
    case isTrue => cases h
    case isFalse hne =>
      intro hpath
      rcases Relation.ReflTransGen.cases_head hpath with heq | ⟨q, hq, hpath⟩
      · exact hne heq
      · exact ih (hq ▸ h) hpath

theorem reflTransGen_of_search {n : ℕ} {p : κ} (h : search s db n (some p) = some true) :
    Relation.ReflTransGen (Waits s) p db := by
  induction n generalizing p with
  | zero => cases h
  | succ n ih =>
    rw [search] at h
    split at h
    case isTrue heq => exact heq ▸ .refl
    case isFalse =>
      cases hq : (s.conn p).pUnlockConnection with
      | none =>
        rw [hq] at h
        cases n <;> cases h
      | some q => exact .head hq (ih (hq ▸ h))

end

/-! ### The calls -/

/-- The arguments that are delivered, those in the array included, each with its callback. -/
def Collect.delivered (k : Collect φ α) : List (Option φ × α) :=
  k.calls.flatMap (fun c => c.2.map (c.1, ·)) ++ k.aArg.map (k.xUnlockNotify, ·)

structure Collect.Good (k : Collect φ α) : Prop where
  pos : 0 < k.size
  size : k.aArg.length ≤ k.size
  callback : k.aArg ≠ [] → k.xUnlockNotify ≠ none
  calls : ∀ c ∈ k.calls, c.1 ≠ none ∧ c.2 ≠ []
  writes : ∀ w ∈ k.writes, w.1 < w.2

variable {malloc : ℕ → Option ℕ} {k : Collect φ α}

theorem Collect.Good.flush (h : k.Good) (hne : k.aArg ≠ []) :
    k.flush.Good ∧ k.flush.delivered = k.delivered := by
  refine ⟨⟨h.pos, Nat.zero_le _, fun hnil => absurd rfl hnil, fun c hc => ?_, h.writes⟩, ?_⟩
  · rcases List.mem_append.mp hc with hc | hc
    · exact h.calls c hc
    · obtain rfl := List.mem_singleton.mp hc
      exact ⟨h.callback hne, hne⟩
  · simp [Collect.delivered, Collect.flush]

theorem Collect.Good.grow (h : k.Good) (malloc : ℕ → Option ℕ) :
    (k.grow malloc).Good ∧ (k.grow malloc).delivered = k.delivered ∧
      (k.grow malloc).aArg.length < (k.grow malloc).size ∧
      ((k.grow malloc).aArg ≠ [] → k.aArg ≠ []) ∧
      (k.grow malloc).xUnlockNotify = k.xUnlockNotify := by
  have hpos := h.pos
  rw [Collect.grow]
  split
  case isTrue hfull =>
    split
    case h_1 extra _ =>
      have hlt : k.aArg.length < 2 * k.aArg.length + extra := by omega
      exact ⟨⟨by dsimp only; omega, hlt.le, h.callback, h.calls, h.writes⟩, rfl, hlt, id, rfl⟩
    case h_2 =>
      obtain ⟨⟨-, -, h3, h4, h5⟩, hsame⟩ := h.flush (List.length_pos_iff.mp (by omega))
      exact ⟨⟨h.pos, Nat.zero_le _, h3, h4, h5⟩, hsame, h.pos, absurd rfl, rfl⟩
  case isFalse hroom => exact ⟨h, rfl, lt_of_le_of_ne h.size hroom, id, rfl⟩

theorem grow_of_malloc (hm : ∀ i, malloc i ≠ none) : (k.grow malloc).calls = k.calls ∧
    (k.grow malloc).aArg = k.aArg ∧ (k.grow malloc).xUnlockNotify = k.xUnlockNotify := by
  rw [Collect.grow]
  split
  case isTrue =>
    split
    · exact ⟨rfl, rfl, rfl⟩
    · exact absurd ‹_› (hm _)
  case isFalse => exact ⟨rfl, rfl, rfl⟩

variable [DecidableEq φ] {x : Option φ} {arg : α} {ι : Type*} {f : ι → Option φ} {g : ι → α}

theorem Collect.Good.add (h : k.Good) (malloc : ℕ → Option ℕ) (hx : x ≠ none) (arg : α) :
    (k.add malloc x arg).Good ∧ (k.add malloc x arg).delivered = k.delivered ++ [(x, arg)] := by
  have hfirst : ∃ k1, (if x ≠ k.xUnlockNotify ∧ k.aArg ≠ [] then k.flush else k) = k1 ∧ k1.Good ∧
      k1.delivered = k.delivered ∧ (k1.aArg ≠ [] → k1.xUnlockNotify = x) := by
    split
    case isTrue hboth => exact ⟨_, rfl, (h.flush hboth.2).1, (h.flush hboth.2).2, absurd rfl⟩
    case isFalse hnot =>
      exact ⟨k, rfl, h, rfl, fun hne => by_contra fun hdiff => hnot ⟨Ne.symm hdiff, hne⟩⟩
  obtain ⟨k1, heq, h1, hsame1, hx1⟩ := hfirst
  obtain ⟨h2, hsame2, hlt, hne, hx2⟩ := h1.grow malloc
  rw [Collect.add]
  simp only [heq]
  refine ⟨⟨h2.pos, ?_, fun _ => hx, h2.calls, fun w hw => ?_⟩, ?_⟩
  · rw [List.length_append]
    exact hlt
  · rcases List.mem_append.mp hw with hw | hw
    · exact h2.writes w hw
    · obtain rfl := List.mem_singleton.mp hw
      exact hlt
  · have hmap : (k1.grow malloc).aArg.map ((k1.grow malloc).xUnlockNotify, ·) =
        (k1.grow malloc).aArg.map (x, ·) := by
      by_cases hnil : (k1.grow malloc).aArg = []
      · rw [hnil]
        rfl
      · rw [hx2, hx1 (hne hnil)]
    rw [← hsame1, ← hsame2, Collect.delivered, Collect.delivered, hmap, List.map_append,
      List.append_assoc]
    rfl

theorem Collect.Good.addAll (h : k.Good) (malloc : ℕ → Option ℕ) {W : List ι}
    (hW : ∀ c ∈ W, f c ≠ none) :
    (W.foldl (fun k c => k.add malloc (f c) (g c)) k).Good ∧
      (W.foldl (fun k c => k.add malloc (f c) (g c)) k).delivered =
        k.delivered ++ W.map fun c => (f c, g c) := by
  induction W generalizing k with
  | nil => exact ⟨h, (List.append_nil _).symm⟩
  | cons c W ih =>
    obtain ⟨hc, hW⟩ := List.forall_mem_cons.mp hW
    obtain ⟨h1, hsame⟩ := h.add malloc hc (g c)
    obtain ⟨h2, hall⟩ := ih h1 hW
    exact ⟨h2, by rw [List.foldl_cons, hall, hsame, List.append_assoc]; rfl⟩

/-- Those still to come have other callbacks than those that were called, and stand in blocks, that of
the current callback first. -/
structure Collect.Apart (f : ι → Option φ) (k : Collect φ α) (W : List ι) : Prop where
  called : (k.calls.map Prod.fst).Nodup
  current : k.aArg ≠ [] →
    k.xUnlockNotify ∉ k.calls.map Prod.fst ∧ W.group f k.xUnlockNotify <+: W
  ahead : ∀ c ∈ W, f c ∉ k.calls.map Prod.fst

theorem Collect.Apart.add (hm : ∀ i, malloc i ≠ none) {c : ι} {W : List ι} (h : k.Apart f (c :: W))
    (hblocks : (c :: W).Blocks f) (hnodup : (c :: W).Nodup) :
    (k.add malloc (f c) arg).Apart f W := by
  have hprefix : W.group f (f c) <+: W := by
    have hpre := hblocks (f c)
    rw [List.group_cons_self rfl] at hpre
    exact (List.cons_prefix_cons.mp (List.prefix_of_infix_append_cons (A := []) hpre hnodup)).2
  rw [Collect.add]
  split
  case isTrue hboth =>
    obtain ⟨hdiff, hne⟩ := hboth
    obtain ⟨hlast, hpre⟩ := h.current hne
    obtain ⟨hcalls, -, -⟩ := grow_of_malloc (k := k.flush) hm
    have hmap : (k.flush.grow malloc).calls.map Prod.fst =
        k.calls.map Prod.fst ++ [k.xUnlockNotify] := by rw [hcalls, Collect.flush, List.map_append]; rfl
    -- the block of the current callback is over
    have hover : W.group f k.xUnlockNotify = [] := by
      rw [List.group_cons_of_ne hdiff] at hpre
      rcases List.prefix_cons_iff.mp hpre with hnil | ⟨G, hG, -⟩
      · exact hnil
      · exact absurd (List.mem_group.mp (hG ▸ List.mem_cons_self)).2 hdiff
    refine ⟨?_, fun _ => ⟨?_, hprefix⟩, fun d hd => ?_⟩
    · rw [hmap]
      exact List.nodup_append.mpr ⟨h.called, List.pairwise_singleton _ _, fun a ha b hb heq =>
        hlast (List.mem_singleton.mp hb ▸ heq ▸ ha)⟩
    · rw [hmap, List.mem_append, List.mem_singleton, not_or]
      exact ⟨h.ahead c List.mem_cons_self, hdiff⟩
    · rw [hmap, List.mem_append, List.mem_singleton, not_or]
      exact ⟨h.ahead d (List.mem_cons_of_mem c hd), fun heq =>
        absurd (List.mem_group.mpr ⟨hd, heq⟩) (hover ▸ List.not_mem_nil)⟩
  case isFalse =>
    obtain ⟨hcalls, -, -⟩ := grow_of_malloc (k := k) hm
    have hmap : (k.grow malloc).calls.map Prod.fst = k.calls.map Prod.fst := by rw [hcalls]
    refine ⟨hmap ▸ h.called, fun _ => ⟨?_, hprefix⟩, fun d hd => ?_⟩
    · rw [hmap]
      exact h.ahead c List.mem_cons_self
    · rw [hmap]
      exact h.ahead d (List.mem_cons_of_mem c hd)

theorem Collect.Apart.addAll (hm : ∀ i, malloc i ≠ none) {W : List ι} (h : k.Apart f W)
    (hblocks : W.Blocks f) (hnodup : W.Nodup) :
    (W.foldl (fun k c => k.add malloc (f c) (g c)) k).Apart f [] := by
  induction W generalizing k with
  | nil => exact h
  | cons c W ih =>
    have htail : W.Blocks f := by
      classical
      have heq : (c :: W).filter (· ≠ c) = W := List.filter_ne_of_nodup (A := []) hnodup
      rw [← heq]
      exact hblocks.filter _
    exact ih (h.add hm hblocks hnodup) htail (List.nodup_cons.mp hnodup).2

/-! ### The list -/

/-- The connections of a list that have a callback. -/
def callers (conn : κ → Conn κ φ α) (L : List κ) : List κ :=
  L.filter fun c => (conn c).xUnlockNotify ≠ none

structure Inv (s : State κ φ α) : Prop where
  nodup : s.sqlite3BlockedList.Nodup
  mem : ∀ c, c ∈ s.sqlite3BlockedList ↔
    (s.conn c).pBlockingConnection ≠ none ∨ (s.conn c).pUnlockConnection ≠ none
  callback : ∀ c, (s.conn c).xUnlockNotify = none ↔ (s.conn c).pUnlockConnection = none
  ends : ∀ c, Acc (fun b a => Waits s a b) c
  blocks : (callers s.conn s.sqlite3BlockedList).Blocks fun c => (s.conn c).xUnlockNotify

section insertBlocked

variable {f : κ → Option φ} {db : κ} {L : List κ}

theorem insertBlocked_cases (f : κ → Option φ) (db : κ) (L : List κ) :
    (∃ A b B, L = A ++ b :: B ∧ f b = f db ∧ (∀ a ∈ A, f a ≠ f db) ∧
      insertBlocked f db L = A ++ db :: b :: B) ∨
    ((∀ a ∈ L, f a ≠ f db) ∧ insertBlocked f db L = L ++ [db]) := by
  induction L with
  | nil => exact Or.inr ⟨fun a ha => absurd ha List.not_mem_nil, rfl⟩
  | cons p ps ih =>
    rw [insertBlocked]
    by_cases hp : f p = f db
    · rw [if_pos hp]
      exact Or.inl ⟨[], p, ps, rfl, hp, fun a ha => absurd ha List.not_mem_nil, rfl⟩
    · rw [if_neg hp]
      rcases ih with ⟨A, b, B, rfl, hb, hA, heq⟩ | ⟨hL, heq⟩
      · exact Or.inl ⟨p :: A, b, B, rfl, hb, List.forall_mem_cons.mpr ⟨hp, hA⟩, by rw [heq]; rfl⟩
      · exact Or.inr ⟨List.forall_mem_cons.mpr ⟨hp, hL⟩, by rw [heq]; rfl⟩

theorem insertBlocked_perm (f : κ → Option φ) (db : κ) (L : List κ) :
    (insertBlocked f db L).Perm (db :: L) := by
  rcases insertBlocked_cases f db L with ⟨A, b, B, rfl, -, -, heq⟩ | ⟨-, heq⟩
  · rw [heq]
    exact List.perm_middle
  · rw [heq]
    exact List.perm_append_singleton db L

theorem filter_insertBlocked_none (f : κ → Option φ) (h : f db = none) :
    (insertBlocked f db L).filter (fun c => f c ≠ none) = L.filter fun c => f c ≠ none := by
  induction L with
  | nil => simp [insertBlocked, h]
  | cons p ps ih =>
    rw [insertBlocked]
    split
    · exact List.filter_cons_of_neg (by simp [h])
    · rw [List.filter_cons, List.filter_cons, ih]

theorem filter_insertBlocked (f : κ → Option φ) (h : f db ≠ none) :
    (insertBlocked f db L).filter (fun c => f c ≠ none) =
      insertBlocked f db (L.filter fun c => f c ≠ none) := by
  induction L with
  | nil => simp [insertBlocked, h]
  | cons p ps ih =>
    rw [insertBlocked]
    by_cases hp : f p = f db
    · have hne : f p ≠ none := hp ▸ h
      rw [if_pos hp, List.filter_cons_of_pos (by simpa using h),
        List.filter_cons_of_pos (by simpa using hne), insertBlocked, if_pos hp]
    · rw [if_neg hp, List.filter_cons, List.filter_cons, ih]
      split
      · rw [insertBlocked, if_neg hp]
      · rfl

/-- A connection is put beside those with its callback. -/
theorem blocks_insertBlocked (hL : L.Blocks f) (hnodup : L.Nodup) : (insertBlocked f db L).Blocks f := by
  rcases insertBlocked_cases f db L with ⟨A, b, B, rfl, hb, hA, heq⟩ | ⟨hne, heq⟩
  · rw [heq]
    refine hL.insert hb.symm ?_ hnodup
    have hempty : A.group f (f b) = [] :=
      List.filter_eq_nil_iff.mpr fun a ha => by simpa using hb ▸ hA a ha
    rw [List.group_append, hempty, List.group_cons_self rfl]
    rfl
  · rw [heq]
    exact hL.concat (List.filter_eq_nil_iff.mpr fun a ha => by simpa using hne a ha)

theorem callers_insert {conn : κ → Conn κ φ α} (hdb : (conn db).xUnlockNotify ≠ none)
    (hL : (callers conn L).Blocks fun c => (conn c).xUnlockNotify) (hnodup : L.Nodup) :
    (callers conn (insertBlocked (fun c => (conn c).xUnlockNotify) db L)).Blocks
      fun c => (conn c).xUnlockNotify := by
  rw [callers, filter_insertBlocked (fun c => (conn c).xUnlockNotify) hdb]
  exact blocks_insertBlocked hL (hnodup.filter _)

end insertBlocked

theorem Inv.not_transGen_self (h : Inv s) (c : κ) : ¬ Relation.TransGen (Waits s) c c := by
  induction h.ends c with
  | intro c _ ih =>
    intro hcc
    obtain ⟨d, hd, hdc⟩ := Relation.TransGen.head'_iff.mp hcc
    exact ih d hd (.tail' hdc hd)

variable [DecidableEq κ]

/-- The loop meets each connection once; `V` are those it has met. -/
theorem Inv.search_isSome (h : Inv s) {n : ℕ} {p : κ} {V : List κ} (hnodup : V.Nodup)
    (hV : V ⊆ s.sqlite3BlockedList) (hp : ∀ v ∈ V, Relation.TransGen (Waits s) v p)
    (hn : s.sqlite3BlockedList.length + 2 ≤ n + V.length) : (search s db n (some p)).isSome := by
  have hle := (List.subperm_of_subset hnodup hV).length_le
  induction n generalizing p V with
  | zero => omega
  | succ n ih =>
    rw [search]
    split
    case isTrue => rfl
    case isFalse =>
      cases hq : (s.conn p).pUnlockConnection with
      | none =>
        cases n with
        | zero => omega
        | succ n => rfl
      | some q =>
        have hin : p ∈ s.sqlite3BlockedList := (h.mem p).mpr (Or.inr (by simp [hq]))
        have hnot : p ∉ V := fun hmem => h.not_transGen_self p (hp p hmem)
        have hsub : p :: V ⊆ s.sqlite3BlockedList := List.cons_subset.mpr ⟨hin, hV⟩
        have hnodup' := List.nodup_cons.mpr ⟨hnot, hnodup⟩
        refine ih hnodup' hsub (List.forall_mem_cons.mpr ⟨.single hq, fun v hv => (hp v hv).tail hq⟩)
          (by rw [List.length_cons]; omega) (List.subperm_of_subset hnodup' hsub).length_le

/-! ### Each step keeps the invariant -/

/-- One connection changes. -/
theorem Inv.update (h : Inv s) {x : Conn κ φ α} {L : List κ} (hnodup : L.Nodup)
    (hmem : ∀ c, c ≠ db → (c ∈ L ↔ c ∈ s.sqlite3BlockedList))
    (hdb : db ∈ L ↔ x.pBlockingConnection ≠ none ∨ x.pUnlockConnection ≠ none)
    (hx : x.xUnlockNotify = none ↔ x.pUnlockConnection = none)
    (hpath : ∀ q, x.pUnlockConnection = some q → ¬ Relation.ReflTransGen (Waits s) q db)
    (hblocks : (callers (Function.update s.conn db x) L).Blocks
      fun c => (Function.update s.conn db x c).xUnlockNotify) :
    Inv ⟨Function.update s.conn db x, L⟩ := by
  have hwaits : ∀ c d, c ≠ db → (Waits ⟨Function.update s.conn db x, L⟩ c d ↔ Waits s c d) :=
    fun c d hc => by
      rw [Waits, Waits]
      dsimp only
      rw [Function.update_of_ne hc]
  refine ⟨hnodup, fun c => ?_, fun c => ?_, ?_, hblocks⟩
  · dsimp only
    rcases eq_or_ne c db with rfl | hc
    · rw [Function.update_self]
      exact hdb
    · rw [Function.update_of_ne hc]
      exact (hmem c hc).trans (h.mem c)
  · dsimp only
    rcases eq_or_ne c db with rfl | hc
    · rw [Function.update_self]
      exact hx
    · rw [Function.update_of_ne hc]
      exact h.callback c
  · -- first the connections that do not come to `db`, then `db`, then all others
    have haway : ∀ c, ¬ Relation.ReflTransGen (Waits s) c db →
        Acc (fun b a => Waits ⟨Function.update s.conn db x, L⟩ a b) c := fun c => by
      induction h.ends c with
      | intro c _ ih =>
        intro hc
        refine Acc.intro c fun d hd => ?_
        have hd := (hwaits c d fun heq => hc (heq ▸ .refl)).mp hd
        exact ih d hd fun hpath => hc (.head hd hpath)
    have hself : Acc (fun b a => Waits ⟨Function.update s.conn db x, L⟩ a b) db := by
      refine Acc.intro db fun d hd => haway d (hpath d ?_)
      rw [Waits] at hd
      dsimp only at hd
      rwa [Function.update_self] at hd
    intro c
    induction h.ends c with
    | intro c _ ih =>
      rcases eq_or_ne c db with rfl | hc
      · exact hself
      · exact Acc.intro c fun d hd => ih d ((hwaits c d hc).mp hd)

theorem callers_erase {x : Conn κ φ α} (hnodup : s.sqlite3BlockedList.Nodup)
    (hL : (callers s.conn s.sqlite3BlockedList).Blocks fun c => (s.conn c).xUnlockNotify) :
    (callers (Function.update s.conn db x) (s.sqlite3BlockedList.erase db)).Blocks
      fun c => (Function.update s.conn db x c).xUnlockNotify := by
  have hne : ∀ c ∈ s.sqlite3BlockedList.erase db, Function.update s.conn db x c = s.conn c :=
    fun c hc => Function.update_of_ne (hnodup.mem_erase_iff.mp hc).1 _ _
  have heq : callers (Function.update s.conn db x) (s.sqlite3BlockedList.erase db) =
      (callers s.conn s.sqlite3BlockedList).filter (· != db) := by
    rw [callers, List.filter_congr fun c hc => by rw [hne c hc], hnodup.erase_eq_filter, callers,
      List.filter_comm]
  refine List.Blocks.congr (f := fun c => (s.conn c).xUnlockNotify) (heq ▸ hL.filter _) fun c hc => ?_
  rw [hne c (List.mem_of_mem_filter hc)]

variable [Zero α]

omit [DecidableEq κ] in
theorem inv_start : Inv (start : State κ φ α) where
  nodup := List.nodup_nil
  mem _ := iff_of_false List.not_mem_nil (by simp [start, Conn.empty])
  callback _ := iff_of_true rfl rfl
  ends c := Acc.intro c fun d hd => by cases hd
  blocks _ := List.infix_rfl

/-- A connection leaves the list. -/
theorem Inv.remove (h : Inv s) (db : κ) : Inv (setConn (removeFromBlockedList s db) db Conn.empty) :=
  h.update (h.nodup.erase db) (fun _ hc => List.mem_erase_of_ne hc)
    (iff_of_false h.nodup.not_mem_erase (by simp [Conn.empty])) (iff_of_true rfl rfl)
    (fun _ hq => by cases hq) (callers_erase h.nodup h.blocks)

omit [Zero α] in
theorem Inv.blocked (h : Inv s) (db pBlocker : κ) : Inv (sqlite3ConnectionBlocked s db pBlocker) := by
  have hconn : ∀ c, (Function.update s.conn db { s.conn db with pBlockingConnection := some pBlocker }
      c).xUnlockNotify = (s.conn c).xUnlockNotify := fun c => by
    rcases eq_or_ne c db with rfl | hc
    · rw [Function.update_self]
    · rw [Function.update_of_ne hc]
  have hpath : ∀ q, (s.conn db).pUnlockConnection = some q →
      ¬ Relation.ReflTransGen (Waits s) q db := fun q hq hback =>
    h.not_transGen_self db (.head' hq hback)
  rw [sqlite3ConnectionBlocked]
  split
  case isTrue hfree =>
    have hnot : db ∉ s.sqlite3BlockedList := fun hin => ((h.mem db).mp hin).elim
      (absurd hfree.1) (absurd hfree.2)
    have hperm := insertBlocked_perm (fun p => (s.conn p).xUnlockNotify) db s.sqlite3BlockedList
    refine h.update (hperm.nodup_iff.mpr (List.nodup_cons.mpr ⟨hnot, h.nodup⟩)) (fun c hc => ?_)
      (iff_of_true (hperm.mem_iff.mpr List.mem_cons_self) (Or.inl (Option.some_ne_none _)))
      (h.callback db) hpath ?_
    · exact hperm.mem_iff.trans (List.mem_cons.trans (or_iff_right hc))
    · simp only [callers, hconn, addToBlockedList]
      rw [filter_insertBlocked_none (fun c => (s.conn c).xUnlockNotify) ((h.callback db).mpr hfree.2)]
      exact h.blocks
  case isFalse hheld =>
    have hin : db ∈ s.sqlite3BlockedList := (h.mem db).mpr (by
      by_contra hnone
      exact hheld ((not_or.mp hnone).imp not_not.mp not_not.mp))
    refine h.update h.nodup (fun c _ => Iff.rfl) (iff_of_true hin (Or.inl (Option.some_ne_none _)))
      (h.callback db) hpath ?_
    simp only [callers, hconn]
    exact h.blocks

theorem Inv.notify (h : Inv s) {x : Option φ} {arg : α} {r : Result κ φ α}
    (hr : sqlite3_unlock_notify s db x arg = some r) : Inv r.state := by
  rw [sqlite3_unlock_notify] at hr
  dsimp only at hr
  split at hr
  case isTrue =>
    obtain rfl := Option.some.inj hr
    exact h.remove db
  case isFalse hx =>
    split at hr
    case isTrue =>
      obtain rfl := Option.some.inj hr
      exact h
    case isFalse hp =>
      obtain ⟨p, hp⟩ := Option.ne_none_iff_exists'.mp hp
      obtain ⟨found, hfound, rfl⟩ := Option.map_eq_some_iff.mp hr
      cases found with
      | true => exact h
      | false =>
        rw [hp] at hfound
        have hperm := insertBlocked_perm (fun c => (Function.update s.conn db
          (⟨some p, some p, x, arg⟩ : Conn κ φ α) c).xUnlockNotify) db (s.sqlite3BlockedList.erase db)
        have hself : (Function.update s.conn db (⟨some p, some p, x, arg⟩ : Conn κ φ α)
          db).xUnlockNotify ≠ none := by rwa [Function.update_self]
        rw [if_neg Bool.false_ne_true, hp]
        refine h.update (hperm.nodup_iff.mpr (List.nodup_cons.mpr
          ⟨h.nodup.not_mem_erase, h.nodup.erase db⟩)) (fun c hc => ?_)
          (iff_of_true (hperm.mem_iff.mpr List.mem_cons_self) (Or.inl (Option.some_ne_none _)))
          (iff_of_false hx (Option.some_ne_none _)) (fun q hq => ?_) ?_
        · exact hperm.mem_iff.trans ((List.mem_cons.trans (or_iff_right hc)).trans
            (List.mem_erase_of_ne hc))
        · exact Option.some.inj hq ▸ not_reflTransGen_of_search hfound
        · exact callers_insert hself (callers_erase h.nodup h.blocks) (h.nodup.erase db)

/-! ### The end of a transaction -/

/-- The connections that wait for `db`. -/
def waiters (conn : κ → Conn κ φ α) (db : κ) (L : List κ) : List κ :=
  L.filter fun c => (conn c).pUnlockConnection = some db

omit [DecidableEq φ] in
theorem release_of_none {x : Conn κ φ α} (hb : x.pBlockingConnection = none)
    (hu : x.pUnlockConnection = none) : x.release db = x := by simp [Conn.release, hb, hu]

theorem unlockedLoop_eq (malloc : ℕ → Option ℕ) (db : κ) {L : List κ} (hnodup : L.Nodup)
    (conn : κ → Conn κ φ α) (k : Collect φ α) :
    unlockedLoop malloc db L conn k =
      (L.filter fun c => ((conn c).release db).pBlockingConnection ≠ none ∨
          ((conn c).release db).pUnlockConnection ≠ none,
        fun c => if c ∈ L then (conn c).release db else conn c,
        (waiters conn db L).foldl
          (fun (k : Collect φ α) c => k.add malloc (conn c).xUnlockNotify (conn c).pUnlockArg) k) := by
  induction L generalizing conn k with
  | nil => simp [unlockedLoop, waiters]
  | cons p ps ih =>
    obtain ⟨hp, hnodup⟩ := List.nodup_cons.mp hnodup
    have hne : ∀ c ∈ ps, Function.update conn p ((conn p).release db) c = conn c := fun c hc =>
      Function.update_of_ne (ne_of_mem_of_not_mem hc hp) _ _
    have hconn : (fun c => if c ∈ ps then (Function.update conn p ((conn p).release db) c).release db
        else Function.update conn p ((conn p).release db) c) =
        fun c => if c ∈ p :: ps then (conn c).release db else conn c := by
      funext c
      rcases eq_or_ne c p with rfl | hc
      · rw [if_neg hp, if_pos List.mem_cons_self, Function.update_self]
      · rw [Function.update_of_ne hc]
        exact if_congr (List.mem_cons.trans (or_iff_right hc)).symm rfl rfl
    have hfold : ∀ k, (waiters (Function.update conn p ((conn p).release db)) db ps).foldl
        (fun (k : Collect φ α) c => k.add malloc (Function.update conn p ((conn p).release db) c).xUnlockNotify
          (Function.update conn p ((conn p).release db) c).pUnlockArg) k =
        (waiters conn db ps).foldl
          (fun (k : Collect φ α) c => k.add malloc (conn c).xUnlockNotify (conn c).pUnlockArg) k := fun k => by
      rw [waiters, List.filter_congr fun c hc => by rw [hne c hc]]
      exact List.foldl_ext _ _ k fun k c hc => by rw [hne c (List.mem_of_mem_filter hc)]
    have hcons : (waiters conn db (p :: ps)).foldl
        (fun (k : Collect φ α) c => k.add malloc (conn c).xUnlockNotify (conn c).pUnlockArg) k =
        (waiters conn db ps).foldl (fun (k : Collect φ α) c => k.add malloc (conn c).xUnlockNotify (conn c).pUnlockArg)
          (if (conn p).pUnlockConnection = some db then
            k.add malloc (conn p).xUnlockNotify (conn p).pUnlockArg else k) := by
      by_cases hw : (conn p).pUnlockConnection = some db <;> simp [waiters, hw]
    rw [unlockedLoop, ih hnodup, hconn, hfold, ← hcons,
      List.filter_congr fun c hc => by rw [hne c hc]]
    split
    case isTrue hfree => rw [List.filter_cons_of_neg (by simpa using hfree)]
    case isFalse hheld =>
      rw [List.filter_cons_of_pos (by simpa [← not_and_or] using hheld)]

theorem Inv.unlocked_eq (h : Inv s) (malloc : ℕ → Option ℕ) (db : κ) :
    (sqlite3ConnectionUnlocked malloc s db).1 = ⟨fun c => (s.conn c).release db,
      s.sqlite3BlockedList.filter fun c => ((s.conn c).release db).pBlockingConnection ≠ none ∨
        ((s.conn c).release db).pUnlockConnection ≠ none⟩ := by
  rw [sqlite3ConnectionUnlocked, unlockedLoop_eq malloc db h.nodup]
  refine congrArg (State.mk · _) (funext fun c => ?_)
  dsimp only
  split
  case isTrue => rfl
  case isFalse hc =>
    have hnone := not_or.mp (mt (h.mem c).mpr hc)
    exact (release_of_none (not_not.mp hnone.1) (not_not.mp hnone.2)).symm

omit [DecidableEq φ] in
theorem pUnlockConnection_release (x : Conn κ φ α) (db : κ) : (x.release db).pUnlockConnection =
    if x.pUnlockConnection = some db then none else x.pUnlockConnection := by
  rw [Conn.release]
  split <;> split <;> rfl

omit [DecidableEq φ] in
theorem pBlockingConnection_release (x : Conn κ φ α) (db : κ) : (x.release db).pBlockingConnection =
    if x.pBlockingConnection = some db then none else x.pBlockingConnection := by
  rw [Conn.release]
  split <;> split <;> rfl

omit [DecidableEq φ] in
theorem xUnlockNotify_release (x : Conn κ φ α) (db : κ) : (x.release db).xUnlockNotify =
    if x.pUnlockConnection = some db then none else x.xUnlockNotify := by
  rw [Conn.release]
  split <;> split <;> rfl

theorem Inv.unlocked (h : Inv s) (malloc : ℕ → Option ℕ) (db : κ) :
    Inv (sqlite3ConnectionUnlocked malloc s db).1 := by
  rw [h.unlocked_eq]
  have hstill : ∀ {x : Option κ} {y : κ}, (if x = some db then none else x) = some y → x = some y :=
    fun {x y} hy => by
      split at hy
      · cases hy
      · exact hy
  refine ⟨h.nodup.filter _, fun c => ?_, fun c => ?_, fun c => ?_, ?_⟩
  · rw [List.mem_filter, decide_eq_true_iff, and_iff_right_iff_imp]
    refine fun hc => (h.mem c).mpr (hc.imp ?_ ?_)
    · rw [pBlockingConnection_release]
      exact fun hne hnone => hne (by rw [hnone]; rfl)
    · rw [pUnlockConnection_release]
      exact fun hne hnone => hne (by rw [hnone]; rfl)
  · dsimp only
    rw [xUnlockNotify_release, pUnlockConnection_release]
    split
    · exact iff_of_true rfl rfl
    · exact h.callback c
  · refine Subrelation.accessible (fun {b a} hab => ?_) (h.ends c)
    rw [Waits, pUnlockConnection_release] at hab
    exact hstill hab
  · have hx : ∀ c, ((s.conn c).release db).xUnlockNotify ≠ none → (s.conn c).xUnlockNotify ≠ none ∧
        ((s.conn c).release db).xUnlockNotify = (s.conn c).xUnlockNotify ∧
        ((s.conn c).release db).pUnlockConnection ≠ none := fun c hc => by
      rw [xUnlockNotify_release] at hc
      rw [xUnlockNotify_release, pUnlockConnection_release]
      by_cases hw : (s.conn c).pUnlockConnection = some db
      · rw [if_pos hw] at hc
        exact absurd rfl hc
      · rw [if_neg hw] at hc
        rw [if_neg hw, if_neg hw]
        exact ⟨hc, rfl, mt (h.callback c).mpr hc⟩
    have heq : callers (fun c => (s.conn c).release db) (s.sqlite3BlockedList.filter fun c =>
        ((s.conn c).release db).pBlockingConnection ≠ none ∨
          ((s.conn c).release db).pUnlockConnection ≠ none) =
        (callers s.conn s.sqlite3BlockedList).filter fun c =>
          ((s.conn c).release db).xUnlockNotify ≠ none := by
      rw [callers, callers, List.filter_filter, List.filter_filter]
      refine List.filter_congr fun c _ => ?_
      rw [← Bool.decide_and, ← Bool.decide_and, decide_eq_decide]
      exact ⟨fun hc => ⟨hc.1, (hx c hc.1).1⟩, fun hc => ⟨hc.1, Or.inr (hx c hc.1).2.2⟩⟩
    dsimp only
    rw [heq]
    refine List.Blocks.congr (h.blocks.filter _) fun c hc => (hx c ?_).2.1
    exact of_decide_eq_true (List.mem_filter.mp hc).2

theorem Inv.step (h : Inv s) (op : Op κ φ α) : Inv (step s op) := by
  cases op with
  | blocked db pBlocker => exact h.blocked db pBlocker
  | notify db x arg =>
    rw [UnlockNotify.step]
    cases hr : sqlite3_unlock_notify s db x arg with
    | none => exact h
    | some r => exact h.notify hr
  | unlocked malloc db => exact h.unlocked malloc db
  | closed malloc db => exact (h.unlocked malloc db).remove db

theorem inv_of_run (ops : List (Op κ φ α)) : Inv (Run.last step start ops) :=
  Run.last_of_invariant (Q := fun _ _ => True) (fun _ op h _ => h.step op) inv_start
    (Run.everyStep_true step start ops)

/-! ### Every run -/

/-- **Waiting.** Whatever the connections do, none waits for itself through others; the loop of
`sqlite3_unlock_notify` ends and answers `SQLITE_LOCKED` exactly when the connection would; and the
list holds each connection that is blocked or waits, once. -/
theorem waiting_of_run (ops : List (Op κ φ α)) :
    let s := Run.last step start ops
    (∀ c, ¬ Relation.TransGen (Waits s) c c) ∧
    (∀ db x arg, ∃ r, sqlite3_unlock_notify s db x arg = some r ∧
      (r.rc = .locked ↔ x ≠ none ∧ ∃ p, (s.conn db).pBlockingConnection = some p ∧
        Relation.ReflTransGen (Waits s) p db)) ∧
    s.sqlite3BlockedList.Nodup ∧
    ∀ c, c ∈ s.sqlite3BlockedList ↔
      (s.conn c).pBlockingConnection ≠ none ∨ (s.conn c).pUnlockConnection ≠ none := by
  intro s
  have h : Inv s := inv_of_run ops
  have hok : Rc.ok ≠ Rc.locked := by decide
  refine ⟨h.not_transGen_self, fun db x arg => ?_, h.nodup, h.mem⟩
  rw [sqlite3_unlock_notify]
  split
  case isTrue hx => exact ⟨_, rfl, iff_of_false hok fun hand => hand.1 hx⟩
  case isFalse hx =>
    split
    case isTrue hp =>
      refine ⟨_, rfl, iff_of_false hok fun hand => ?_⟩
      obtain ⟨-, p, hsome, -⟩ := hand
      rw [hp] at hsome
      cases hsome
    case isFalse hp =>
      obtain ⟨p, hp⟩ := Option.ne_none_iff_exists'.mp hp
      have hends : (search s db (s.sqlite3BlockedList.length + 2) (some p)).isSome :=
        h.search_isSome List.nodup_nil (List.nil_subset _)
          (fun v hv => absurd hv List.not_mem_nil) le_rfl
      obtain ⟨found, hfound⟩ := Option.isSome_iff_exists.mp hends
      rw [hp, hfound]
      refine ⟨_, rfl, ?_⟩
      cases found with
      | true => exact iff_of_true rfl ⟨hx, p, rfl, reflTransGen_of_search hfound⟩
      | false =>
        refine iff_of_false hok fun hand => ?_
        obtain ⟨-, q, hq, hpath⟩ := hand
        exact not_reflTransGen_of_search hfound (Option.some.inj hq ▸ hpath)

/-- **Delivery.** When a transaction ends, every connection that waits for it gets its argument, to its
own callback, once, in the order of the list, whichever requests for memory fail; the array is never
overrun, and nothing points to the connection any more. -/
theorem delivered_of_run (ops : List (Op κ φ α)) (malloc : ℕ → Option ℕ) (db : κ) :
    let s := Run.last step start ops
    let r := sqlite3ConnectionUnlocked malloc s db
    let W := waiters s.conn db s.sqlite3BlockedList
    W.Nodup ∧ (∀ c, c ∈ W ↔ Waits s c db) ∧
    r.2.calls.flatMap (fun c => c.2.map (c.1, ·)) =
      W.map (fun c => ((s.conn c).xUnlockNotify, (s.conn c).pUnlockArg)) ∧
    (∀ c ∈ r.2.calls, c.1 ≠ none ∧ c.2 ≠ []) ∧ (∀ w ∈ r.2.writes, w.1 < w.2) ∧
    ∀ c, (r.1.conn c).pBlockingConnection ≠ some db ∧ (r.1.conn c).pUnlockConnection ≠ some db := by
  intro s r W
  have h : Inv s := inv_of_run ops
  have hW : ∀ c, c ∈ waiters s.conn db s.sqlite3BlockedList ↔ Waits s c db := fun c => by
    rw [waiters, List.mem_filter, decide_eq_true_iff]
    exact and_iff_right_of_imp fun hc => (h.mem c).mpr (Or.inr (by rw [hc]; exact Option.some_ne_none _))
  have hgood : (Collect.start : Collect φ α).Good :=
    ⟨Nat.succ_pos 15, Nat.zero_le _, absurd rfl, fun _ hc => absurd hc List.not_mem_nil,
      fun _ hw => absurd hw List.not_mem_nil⟩
  obtain ⟨hend, hall⟩ := hgood.addAll (f := fun c => (s.conn c).xUnlockNotify)
    (g := fun c => (s.conn c).pUnlockArg) malloc (W := waiters s.conn db s.sqlite3BlockedList)
    fun c hc => mt (h.callback c).mp (by rw [(hW c).mp hc]; exact Option.some_ne_none _)
  have hlast : (sqlite3ConnectionUnlocked malloc s db).2.Good ∧
      (sqlite3ConnectionUnlocked malloc s db).2.calls.flatMap (fun c => c.2.map (c.1, ·)) =
        (waiters s.conn db s.sqlite3BlockedList).map
          fun c => ((s.conn c).xUnlockNotify, (s.conn c).pUnlockArg) := by
    rw [sqlite3ConnectionUnlocked, unlockedLoop_eq malloc db h.nodup]
    split
    case isTrue hne =>
      obtain ⟨hflush, hsame⟩ := hend.flush hne
      exact ⟨hflush, (List.append_nil _).symm.trans (hsame.trans hall)⟩
    case isFalse hnil =>
      refine ⟨hend, Eq.trans ?_ hall⟩
      rw [Collect.delivered, not_not.mp hnil]
      exact (List.append_nil _).symm
  refine ⟨h.nodup.filter _, hW, hlast.2, hlast.1.calls, hlast.1.writes, fun c => ?_⟩
  rw [h.unlocked_eq]
  dsimp only
  rw [pBlockingConnection_release, pUnlockConnection_release]
  constructor <;> split <;> simp_all

end UnlockNotify

end SqliteVms

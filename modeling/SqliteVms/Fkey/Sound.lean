import Mathlib.Algebra.Order.Ring.Int
import Mathlib.Algebra.Order.BigOperators.Group.List
import Mathlib.Data.List.Count
import SqliteVms.Fkey.Check
import SqliteVms.Lib.Run

/-!
# Foreign keys: the counters count the violations

A row violates a foreign key when no column of its child key is NULL and no row of the parent table
matches it. After each row operation `nDeferredCons` is the number of violations of the deferred
foreign keys, and `nFkConstraint` that of the immediate ones.

What it rests on is that a child key has at most one parent row: the parent key is the rowid or a
UNIQUE index. A row that comes in then ends exactly the violations of the child rows that match it,
`violations_insertRow`; and a row that goes out is one that came in, so the same identity, read the
other way, is the one for a DELETE.

The shortcut `OP_FkIfZero` stands before loops that count down. Such a loop counts down violations
that are in the counter, so when the counter is zero there is nothing it could find.

## Main definitions

* `Tests.Agree` — the three tests decide one relation
* `violated`, `nViolated` — the violations
* `Valid`, `Legal` — the UNIQUE constraints hold, and hold after an operation

## Main results

* `sqlite3FkCheck_new`, `sqlite3FkCheck_old` — what the checks add to the counters
* `counters_eq_nViolated` — the counters after each operation, and what the shortcuts skip
-/

namespace SqliteVms

namespace Fkey

variable {V : Type*} (t : Tests V)

/-- The three tests decide one relation between a child key without a NULL and a parent key, and
parent keys related to one child key are one entry of the parent key's index. -/
structure Tests.Agree : Prop where
  selfMatch : ∀ f c p, c.any t.isNull = false → t.selfMatch f c p = t.found f c p
  scan : ∀ f c p, t.scan f c p = (!c.any t.isNull && t.found f c p)
  unique : ∀ f c p q, c.any t.isNull = false → t.found f c p → t.found f c q → t.sameEntry f p q

/-- A child row and a parent row match. -/
def matched (f : FKey) (c p : Row V) : Bool :=
  !(childKey t f c).any t.isNull && t.found f (childKey t f c) (parentKey t f p)

/-- A child row violates a foreign key. -/
def violated (db : Db V) (f : FKey) (c : Row V) : Bool :=
  !(childKey t f c).any t.isNull && !(db f.zTo).any fun p => matched t f c p

/-- The number of rows that violate a foreign key. -/
def violations (db : Db V) (f : FKey) : ℤ := (db f.pFrom).countP (violated t db f)

/-- The sum over the foreign keys of one kind. -/
def total (isDeferred : Bool) (g : FKey → ℤ) (fkeys : List FKey) : ℤ :=
  (fkeys.map fun f => if f.isDeferred = isDeferred then g f else 0).sum

/-- The number of violated pairs of a row and a foreign key of one kind. -/
def nViolated (fkeys : List FKey) (isDeferred : Bool) (db : Db V) : ℤ :=
  total isDeferred (violations t db) fkeys

/-- Rowids are unique, and so are the parent keys. -/
structure Valid (fkeys : List FKey) (db : Db V) : Prop where
  rowids : ∀ k, ((db k).map Row.rowid).Nodup
  keys : ∀ f ∈ fkeys, ∀ p ∈ db f.zTo, ∀ q ∈ db f.zTo,
    t.sameEntry f (parentKey t f p) (parentKey t f q) → p.rowid = q.rowid

/-- An operation that gets as far as the foreign keys: it takes out a row that is there, and what
it puts in violates no UNIQUE constraint. -/
def Legal (fkeys : List FKey) (s : State V) : Op V → Prop
  | .insert pTab r => Valid t fkeys (insertRow s.db pTab r)
  | .delete pTab r => r ∈ s.db pTab
  | .update pTab old new =>
    old ∈ s.db pTab ∧ Valid t fkeys (insertRow (deleteRow s.db pTab old) pTab new)

/-! ### Counters -/

theorem Counters.get_opFkCounter (s : Counters) (a b : Bool) (n : ℤ) :
    (opFkCounter s a n).get b = s.get b + if a = b then n else 0 := by
  cases a <;> cases b <;> simp [opFkCounter, Counters.get]

theorem Counters.ext_get {s s' : Counters} (h : ∀ d, s.get d = s'.get d) : s = s' :=
  Counters.ext (h true) (h false)

@[simp] theorem opFkCounter_zero (s : Counters) (a : Bool) : opFkCounter s a 0 = s := by
  cases a <;> simp [opFkCounter]

theorem opFkCounter_add (s : Counters) (a : Bool) (m n : ℤ) :
    opFkCounter (opFkCounter s a m) a n = opFkCounter s a (m + n) := by
  apply Counters.ext_get
  intro d
  simp only [Counters.get_opFkCounter]
  split <;> omega

/-! ### Sums over the foreign keys -/

variable {d : Bool}

@[simp] theorem total_nil (g : FKey → ℤ) : total d g [] = 0 := rfl

@[simp] theorem total_cons (g : FKey → ℤ) (f : FKey) (fkeys : List FKey) :
    total d g (f :: fkeys) = (if f.isDeferred = d then g f else 0) + total d g fkeys := by
  simp [total]

theorem total_congr {g h : FKey → ℤ} {fkeys : List FKey} (hgh : ∀ f ∈ fkeys, g f = h f) :
    total d g fkeys = total d h fkeys := by
  refine congrArg List.sum (List.map_congr_left fun f hf => ?_)
  rw [hgh f hf]

theorem total_add (g h : FKey → ℤ) (fkeys : List FKey) :
    total d (fun f => g f + h f) fkeys = total d g fkeys + total d h fkeys := by
  induction fkeys with
  | nil => rfl
  | cons f fkeys ih =>
    simp only [total_cons, ih]
    split <;> omega

theorem total_neg (g : FKey → ℤ) (fkeys : List FKey) :
    total d (fun f => -g f) fkeys = -total d g fkeys := by
  induction fkeys with
  | nil => rfl
  | cons f fkeys ih =>
    simp only [total_cons, ih]
    split <;> omega

theorem total_le {g h : FKey → ℤ} (hgh : ∀ f, g f ≤ h f) (fkeys : List FKey) :
    total d g fkeys ≤ total d h fkeys := by
  induction fkeys with
  | nil => exact Int.le_refl 0
  | cons f fkeys ih =>
    simp only [total_cons]
    have := hgh f
    split <;> omega

theorem total_nonneg {g : FKey → ℤ} (hg : ∀ f, 0 ≤ g f) (fkeys : List FKey) :
    0 ≤ total d g fkeys := by
  refine List.sum_nonneg fun x hx => ?_
  obtain ⟨f, -, rfl⟩ := List.mem_map.mp hx
  split
  · exact hg f
  · exact Int.le_refl 0

/-- A sum over the foreign keys with a property is one over all of them. -/
theorem total_filter (p : FKey → Bool) (g : FKey → ℤ) (fkeys : List FKey) :
    total d g (fkeys.filter p) = total d (fun f => if p f then g f else 0) fkeys := by
  induction fkeys with
  | nil => rfl
  | cons f fkeys ih =>
    rw [List.filter_cons, total_cons, ← ih]
    cases hp : p f <;> simp

/-- A loop that counts. -/
theorem get_foldl_opFkCounter (g : FKey → ℤ) (fkeys : List FKey) (s : Counters) :
    (fkeys.foldl (fun s f => opFkCounter s f.isDeferred (g f)) s).get d =
      s.get d + total d g fkeys := by
  induction fkeys generalizing s with
  | nil => simp
  | cons f fkeys ih =>
    rw [List.foldl_cons, ih, Counters.get_opFkCounter, total_cons]
    omega

/-- The jump is only taken when the counter is zero. -/
def Shortcut (ifZero : Counters → Bool → Bool) : Prop :=
  ∀ s d, ifZero s d = true → s.get d = 0

theorem shortcut_opFkIfZero : Shortcut opFkIfZero := fun _ _ h => of_decide_eq_true h

theorem shortcut_noJump : Shortcut noJump := fun _ _ h => nomatch h

/-- **A loop that counts down with a shortcut.** When what the loop has to count down is in the
counters, the shortcut changes nothing. -/
theorem foldl_shortcut {ifZero : Counters → Bool → Bool} (hz : Shortcut ifZero) {m : FKey → ℤ}
    (hm : ∀ f, 0 ≤ m f) (fkeys : List FKey) {s : Counters}
    (hs : ∀ d, total d m fkeys ≤ s.get d) :
    fkeys.foldl (fun s f => if ifZero s f.isDeferred = true then s
      else opFkCounter s f.isDeferred (-m f)) s =
    fkeys.foldl (fun s f => opFkCounter s f.isDeferred (-m f)) s := by
  induction fkeys generalizing s with
  | nil => rfl
  | cons f fkeys ih =>
    have hbody : (if ifZero s f.isDeferred = true then s else opFkCounter s f.isDeferred (-m f)) =
        opFkCounter s f.isDeferred (-m f) := by
      split
      case isFalse => rfl
      case isTrue hjump =>
        -- the counter is zero, so `m f` is zero too
        have hf := hs f.isDeferred
        rw [hz s _ hjump, total_cons, if_pos rfl] at hf
        have hrest := total_nonneg (d := f.isDeferred) hm fkeys
        have hzero : m f = 0 := by
          have := hm f
          omega
        rw [hzero, Int.neg_zero, opFkCounter_zero]
    rw [List.foldl_cons, List.foldl_cons, hbody]
    apply ih
    intro d
    have hf := hs d
    rw [total_cons] at hf
    rw [Counters.get_opFkCounter]
    split <;> simp_all
    omega

/-! ### Violations -/

variable {t} {db db' : Db V} {f : FKey}

/-- What a row that comes into `pTab` violates itself. -/
def gained (t : Tests V) (db' : Db V) (pTab : ℕ) (r : Row V) (f : FKey) : ℤ :=
  if f.pFrom = pTab then (if violated t db' f r then 1 else 0) else 0

/-- The child rows of a row of `pTab`. -/
def resolved (t : Tests V) (db : Db V) (pTab : ℕ) (r : Row V) (f : FKey) : ℤ :=
  if f.zTo = pTab then ((db f.pFrom).countP fun c => matched t f c r : ℕ) else 0

theorem gained_nonneg (db' : Db V) (pTab : ℕ) (r : Row V) (f : FKey) :
    0 ≤ gained t db' pTab r f := by
  unfold gained
  split <;> try split
  all_goals omega

/-- A row of the table is one of the rows that may violate a foreign key. -/
theorem gained_le_violations {pTab : ℕ} {r : Row V} (hr : r ∈ db pTab) (f : FKey) :
    gained t db pTab r f ≤ violations t db f := by
  unfold gained violations
  split
  case isFalse => omega
  case isTrue hfrom =>
    subst hfrom
    split
    case isFalse => omega
    case isTrue hviol =>
      have hpos := List.countP_pos_iff.mpr ⟨r, hr, hviol⟩
      omega

theorem resolved_nonneg (db : Db V) (pTab : ℕ) (r : Row V) (f : FKey) :
    0 ≤ resolved t db pTab r f := by
  unfold resolved
  split <;> omega

theorem nViolated_nonneg (fkeys : List FKey) (db : Db V) : 0 ≤ nViolated t fkeys d db :=
  total_nonneg (fun _ => Int.natCast_nonneg _) fkeys

@[simp] theorem insertRow_self (db : Db V) (pTab : ℕ) (r : Row V) :
    insertRow db pTab r pTab = r :: db pTab := Function.update_self ..

theorem insertRow_of_ne {pTab k : ℕ} (h : k ≠ pTab) (r : Row V) :
    insertRow db pTab r k = db k := Function.update_of_ne h ..

@[simp] theorem deleteRow_self (db : Db V) (pTab : ℕ) (r : Row V) :
    deleteRow db pTab r pTab = (db pTab).filter fun c => c.rowid ≠ r.rowid :=
  Function.update_self ..

theorem deleteRow_of_ne {pTab k : ℕ} (h : k ≠ pTab) (r : Row V) :
    deleteRow db pTab r k = db k := Function.update_of_ne h ..

/-- A row that comes into the parent table is one more that may match. -/
theorem violated_insertRow (db : Db V) (pTab : ℕ) (r : Row V) (f : FKey) (c : Row V) :
    violated t (insertRow db pTab r) f c =
      (violated t db f c && !(decide (f.zTo = pTab) && matched t f c r)) := by
  unfold violated
  by_cases h : f.zTo = pTab
  · subst h
    rw [insertRow_self, List.any_cons, Bool.not_or]
    cases matched t f c r <;> simp
  · rw [insertRow_of_ne h]
    simp [h]

/-- A list is counted in two parts. -/
theorem countP_eq_add {α : Type*} {p q r : α → Bool} {l : List α}
    (h : ∀ a ∈ l, p a = (q a || r a)) (hqr : ∀ a ∈ l, ¬ (q a = true ∧ r a = true)) :
    l.countP p = l.countP q + l.countP r := by
  induction l with
  | nil => rfl
  | cons a l ih =>
    have hrest := ih (fun b hb => h b (List.mem_cons_of_mem _ hb))
      (fun b hb => hqr b (List.mem_cons_of_mem _ hb))
    have ha := h a List.mem_cons_self
    have hqra := hqr a List.mem_cons_self
    rw [List.countP_cons, List.countP_cons, List.countP_cons, hrest, ha]
    cases hq : q a <;> cases hr : r a <;> simp_all <;> omega

/-- A child row that matches a new parent row violated the foreign key before. -/
theorem violated_of_matched (h : t.Agree) {fkeys : List FKey} (hf : f ∈ fkeys) {pTab : ℕ}
    (hto : f.zTo = pTab) {r c : Row V} (hvalid : Valid t fkeys (insertRow db pTab r))
    (hc : matched t f c r = true) : violated t db f c = true := by
  subst hto
  simp only [matched, Bool.and_eq_true, Bool.not_eq_true'] at hc
  obtain ⟨hnull, hfound⟩ := hc
  simp only [violated, hnull, Bool.not_false, Bool.true_and, Bool.not_eq_true', List.any_eq_false]
  intro p hp hmatch
  simp only [matched, Bool.and_eq_true] at hmatch
  -- two parent rows with one entry of the index have one rowid
  have hrowid : p.rowid = r.rowid := by
    refine hvalid.keys f hf p ?_ r ?_ (h.unique f _ _ _ hnull hmatch.2 hfound)
    · rw [insertRow_self]
      exact List.mem_cons_of_mem _ hp
    · rw [insertRow_self]
      exact List.mem_cons_self
  have hnodup := hvalid.rowids f.zTo
  rw [insertRow_self, List.map_cons, List.nodup_cons] at hnodup
  exact hnodup.1 (hrowid ▸ List.mem_map_of_mem hp)

/-- **The violations before and after a row comes in.** -/
theorem violations_insertRow (h : t.Agree) {fkeys : List FKey} (hf : f ∈ fkeys) {pTab : ℕ}
    {r : Row V} (hvalid : Valid t fkeys (insertRow db pTab r)) :
    violations t (insertRow db pTab r) f + resolved t db pTab r f =
      violations t db f + gained t (insertRow db pTab r) pTab r f := by
  have hold : (db f.pFrom).countP (violated t db f) =
      (db f.pFrom).countP (violated t (insertRow db pTab r) f) +
        (db f.pFrom).countP fun c => decide (f.zTo = pTab) && matched t f c r := by
    apply countP_eq_add
    · intro c _
      rw [violated_insertRow]
      cases hm : decide (f.zTo = pTab) && matched t f c r with
      | false => simp
      | true =>
        rw [Bool.and_eq_true, decide_eq_true_eq] at hm
        simp [violated_of_matched h hf hm.1 hvalid hm.2]
    · intro c _ hboth
      rw [violated_insertRow] at hboth
      cases hm : decide (f.zTo = pTab) && matched t f c r <;> simp [hm] at hboth
  have hnew : (insertRow db pTab r f.pFrom).countP (violated t (insertRow db pTab r) f) =
      (db f.pFrom).countP (violated t (insertRow db pTab r) f) +
        if f.pFrom = pTab ∧ violated t (insertRow db pTab r) f r = true then 1 else 0 := by
    by_cases hfrom : f.pFrom = pTab
    · subst hfrom
      rw [insertRow_self, List.countP_cons]
      simp
    · rw [insertRow_of_ne hfrom]
      simp [hfrom]
  have hresolved : resolved t db pTab r f =
      ((db f.pFrom).countP fun c => decide (f.zTo = pTab) && matched t f c r : ℕ) := by
    unfold resolved
    split <;> simp_all
  have hgained : gained t (insertRow db pTab r) pTab r f =
      ((if f.pFrom = pTab ∧ violated t (insertRow db pTab r) f r = true then 1 else 0 : ℕ) : ℤ) := by
    unfold gained
    by_cases hfrom : f.pFrom = pTab
    · simp only [hfrom, if_true, true_and]
      split <;> rfl
    · simp [hfrom]
  unfold violations
  rw [hold, hnew, hresolved, hgained]
  push_cast
  omega

/-- The violations of all foreign keys before and after a row comes in. -/
theorem nViolated_insertRow (h : t.Agree) {fkeys : List FKey} {pTab : ℕ} {r : Row V}
    (hvalid : Valid t fkeys (insertRow db pTab r)) :
    nViolated t fkeys d (insertRow db pTab r) + total d (resolved t db pTab r) fkeys =
      nViolated t fkeys d db + total d (gained t (insertRow db pTab r) pTab r) fkeys := by
  unfold nViolated
  rw [← total_add, ← total_add]
  exact total_congr fun f hf => violations_insertRow h hf hvalid

/-! ### The same rows in another order -/

/-- Two databases with the same rows. -/
def SameRows (db db' : Db V) : Prop := ∀ k, (db k).Perm (db' k)

theorem SameRows.violated (h : SameRows db db') (f : FKey) (c : Row V) :
    violated t db f c = violated t db' f c := by
  unfold Fkey.violated
  rw [(h f.zTo).any_eq]

theorem SameRows.nViolated (h : SameRows db db') (fkeys : List FKey) :
    nViolated t fkeys d db = nViolated t fkeys d db' := by
  refine total_congr fun f _ => ?_
  unfold violations
  rw [(h f.pFrom).countP_eq, funext (h.violated f)]

theorem SameRows.valid (h : SameRows db db') {fkeys : List FKey} (hvalid : Valid t fkeys db) :
    Valid t fkeys db' where
  rowids k := ((h k).map Row.rowid).nodup (hvalid.rowids k)
  keys f hf p hp q hq := hvalid.keys f hf p ((h _).mem_iff.mpr hp) q ((h _).mem_iff.mpr hq)

/-- A row that goes out is one that came in. -/
theorem sameRows_insertRow_deleteRow {pTab : ℕ} {r : Row V} (hr : r ∈ db pTab)
    (hnodup : ((db pTab).map Row.rowid).Nodup) :
    SameRows db (insertRow (deleteRow db pTab r) pTab r) := by
  intro k
  by_cases hk : k = pTab
  · subst hk
    rw [insertRow_self, deleteRow_self]
    generalize db k = rows at hr hnodup
    induction rows with
    | nil => nomatch hr
    | cons c rows ih =>
      rw [List.map_cons, List.nodup_cons] at hnodup
      have hkeep : ∀ a ∈ rows, a.rowid ≠ c.rowid := fun a ha heq =>
        hnodup.1 (heq ▸ List.mem_map_of_mem ha)
      rcases List.mem_cons.mp hr with rfl | hr
      · rw [List.filter_cons_of_neg (by simp), List.filter_eq_self.mpr (by simpa using hkeep)]
      · rw [List.filter_cons_of_pos (by simpa using (hkeep r hr).symm)]
        exact ((ih hr hnodup.2).cons c).trans (List.Perm.swap ..)
  · rw [insertRow_of_ne hk, deleteRow_of_ne hk]

theorem Valid.deleteRow {fkeys : List FKey} (hvalid : Valid t fkeys db) (pTab : ℕ) (r : Row V) :
    Valid t fkeys (deleteRow db pTab r) := by
  have hsub : ∀ k, (Fkey.deleteRow db pTab r k).Sublist (db k) := by
    intro k
    by_cases hk : k = pTab
    · subst hk
      rw [deleteRow_self]
      exact List.filter_sublist
    · rw [deleteRow_of_ne hk]
  constructor
  case rowids => exact fun k => (hvalid.rowids k).sublist ((hsub k).map Row.rowid)
  case keys =>
    intro f hf p hp q hq
    exact hvalid.keys f hf p ((hsub _).subset hp) q ((hsub _).subset hq)

/-! ### The functions -/

variable {ifZero : Counters → Bool → Bool} {r : Row V}

/-- The search for the parent of a row that comes in. -/
theorem fkLookupParent_new (h : t.Agree) (s : Counters) :
    fkLookupParent t ifZero db f.zTo f r 1 s =
      opFkCounter s f.isDeferred
        (if violated t (insertRow db f.pFrom r) f r = true then 1 else 0) := by
  have hmiss : violated t (insertRow db f.pFrom r) f r =
      (!(childKey t f r).any t.isNull &&
        !(decide (f.zTo = f.pFrom) && t.selfMatch f (childKey t f r) (parentKey t f r)) &&
        !(db f.zTo).any fun p => t.found f (childKey t f r) (parentKey t f p)) := by
    rw [violated_insertRow]
    unfold violated matched
    cases hnull : (childKey t f r).any t.isNull with
    | true => rfl
    | false =>
      simp only [h.selfMatch f _ _ hnull, Bool.not_false, Bool.true_and]
      exact Bool.and_comm ..
  unfold fkLookupParent
  rw [if_neg (fun hneg => absurd hneg.1 (by decide)), hmiss]
  cases hnull : (childKey t f r).any t.isNull with
  | true => simp
  | false =>
    by_cases hself : f.zTo = f.pFrom ∧ t.selfMatch f (childKey t f r) (parentKey t f r) = true
    · simp [hself.1, hself.2]
    · have hself' : (decide (f.zTo = f.pFrom) &&
          t.selfMatch f (childKey t f r) (parentKey t f r)) = false := by
        simpa using hself
      rw [if_neg (by simp), if_neg (fun hs => hself ⟨hs.1, hs.2.2⟩), hself']
      cases (db f.zTo).any fun p => t.found f (childKey t f r) (parentKey t f p) <;> simp

/-- The search for the parent of a row that goes out. -/
theorem fkLookupParent_old (s : Counters) :
    fkLookupParent t ifZero db f.zTo f r (-1) s =
      if ifZero s f.isDeferred = true then s
      else opFkCounter s f.isDeferred (-(if violated t db f r = true then 1 else 0)) := by
  unfold fkLookupParent violated matched
  split
  case isTrue hjump => rw [if_pos hjump.2]
  case isFalse hjump =>
    rw [if_neg (fun hz => hjump ⟨by decide, hz⟩)]
    cases hnull : (childKey t f r).any t.isNull with
    | true => simp
    | false =>
      rw [if_neg (by simp), if_neg (fun hs => absurd hs.2.1 (by decide))]
      simp only [Bool.not_false, Bool.true_and]
      cases (db f.zTo).any fun p => t.found f (childKey t f r) (parentKey t f p) <;> simp

/-- The loop of `fkScanChildren` counts. -/
theorem foldl_scan (p : Row V → Prop) [DecidablePred p] (a : Bool) (n : ℤ) (rows : List (Row V))
    (s : Counters) :
    rows.foldl (fun s c => if p c then opFkCounter s a n else s) s =
      opFkCounter s a (n * (rows.countP fun c => p c : ℕ)) := by
  induction rows generalizing s with
  | nil => simp
  | cons c rows ih =>
    rw [List.foldl_cons, ih, List.countP_cons]
    by_cases hc : p c
    · simp only [hc, if_true, decide_true]
      rw [opFkCounter_add]
      congr 1
      push_cast
      rw [Int.mul_add, Int.mul_one, Int.add_comm]
    · simp [hc]

theorem scan_eq_matched (h : t.Agree) (f : FKey) (c p : Row V) :
    t.scan f (childKey t f c) (parentKey t f p) = matched t f c p := h.scan ..

/-- The scan for the children of a row that comes in. -/
theorem fkScanChildren_new (h : t.Agree) (s : Counters) :
    fkScanChildren t ifZero db f.zTo f r (-1) s =
      if ifZero s f.isDeferred = true then s
      else opFkCounter s f.isDeferred (-resolved t db f.zTo r f) := by
  unfold fkScanChildren resolved
  split
  case isTrue hjump => rw [if_pos hjump.2]
  case isFalse hjump =>
    rw [if_neg (fun hz => hjump ⟨by decide, hz⟩), foldl_scan, if_pos rfl, Int.neg_one_mul]
    congr 5
    funext c
    simp only [scan_eq_matched h]
    simp

/-- The scan for the children of a row that goes out. -/
theorem fkScanChildren_old (h : t.Agree) (s : Counters) :
    fkScanChildren t ifZero db f.zTo f r 1 s =
      opFkCounter s f.isDeferred (resolved t (deleteRow db f.zTo r) f.zTo r f) := by
  unfold fkScanChildren resolved
  rw [if_neg (fun hneg => absurd hneg.1 (by decide)), foldl_scan, if_pos rfl, Int.one_mul]
  congr 2
  by_cases hself : f.pFrom = f.zTo
  · rw [hself, deleteRow_self, List.countP_filter]
    congr 1
    funext c
    simp only [scan_eq_matched h]
    simp [eq_comm (a := r.rowid)]
  · rw [deleteRow_of_ne hself]
    congr 1
    funext c
    simp only [scan_eq_matched h]
    simp [Ne.symm hself]

/-- The foreign keys of which a table is the child: only these gain. -/
theorem total_gained (db' : Db V) (pTab : ℕ) (r : Row V) (fkeys : List FKey) :
    total d (gained t db' pTab r) (fkeys.filter fun f => f.pFrom = pTab) =
      total d (gained t db' pTab r) fkeys := by
  rw [total_filter]
  refine total_congr fun f _ => ?_
  by_cases hf : f.pFrom = pTab <;> simp [gained, hf]

/-- The foreign keys of which a table is the parent: only these have children. -/
theorem total_resolved (db : Db V) (pTab : ℕ) (r : Row V) (fkeys : List FKey) :
    total d (resolved t db pTab r) (fkeys.filter fun f => f.zTo = pTab) =
      total d (resolved t db pTab r) fkeys := by
  rw [total_filter]
  refine total_congr fun f _ => ?_
  by_cases hf : f.zTo = pTab <;> simp [resolved, hf]

/-- **The checks for a row that comes in.** -/
theorem sqlite3FkCheck_new (h : t.Agree) (hz : Shortcut ifZero) {fkeys : List FKey} {pTab : ℕ}
    (hvalid : Valid t fkeys (insertRow db pTab r)) {s : Counters}
    (hs : ∀ d, s.get d = nViolated t fkeys d db) (d : Bool) :
    (sqlite3FkCheck t ifZero db fkeys pTab none (some r) s).get d =
      nViolated t fkeys d (insertRow db pTab r) := by
  have hfrom : (fkeys.filter fun f => f.pFrom = pTab).foldl
        (fun s f => fkLookupParent t ifZero db f.zTo f r 1 s) s =
      (fkeys.filter fun f => f.pFrom = pTab).foldl
        (fun s f => opFkCounter s f.isDeferred (gained t (insertRow db pTab r) pTab r f)) s := by
    refine List.foldl_ext _ _ _ fun s f hf => ?_
    obtain rfl := of_decide_eq_true (List.mem_filter.mp hf).2
    rw [fkLookupParent_new h]
    simp [gained]
  have hto : ∀ s : Counters, (fkeys.filter fun f => f.zTo = pTab).foldl
        (fun s f => fkScanChildren t ifZero db pTab f r (-1) s) s =
      (fkeys.filter fun f => f.zTo = pTab).foldl
        (fun s f => if ifZero s f.isDeferred = true then s
          else opFkCounter s f.isDeferred (-resolved t db pTab r f)) s := by
    intro s
    refine List.foldl_ext _ _ _ fun s f hf => ?_
    obtain rfl := of_decide_eq_true (List.mem_filter.mp hf).2
    exact fkScanChildren_new h s
  have hbalance := fun d => nViolated_insertRow (d := d) h hvalid
  simp only [sqlite3FkCheck, Option.elim]
  rw [hfrom, hto, foldl_shortcut hz (resolved_nonneg db pTab r)]
  · rw [get_foldl_opFkCounter fun f => -resolved t db pTab r f, get_foldl_opFkCounter, hs,
      total_gained, total_neg, total_resolved]
    have := hbalance d
    omega
  · -- what the new row resolves is a violation of the old rows
    intro d
    rw [get_foldl_opFkCounter, hs, total_gained, total_resolved]
    have := hbalance d
    have := nViolated_nonneg (d := d) (t := t) fkeys (insertRow db pTab r)
    omega

/-- **The checks for a row that goes out.** -/
theorem sqlite3FkCheck_old (h : t.Agree) (hz : Shortcut ifZero) {fkeys : List FKey} {pTab : ℕ}
    (hvalid : Valid t fkeys db) (hr : r ∈ db pTab) {s : Counters}
    (hs : ∀ d, s.get d = nViolated t fkeys d db) (d : Bool) :
    (sqlite3FkCheck t ifZero db fkeys pTab (some r) none s).get d =
      nViolated t fkeys d (deleteRow db pTab r) := by
  have hback := sameRows_insertRow_deleteRow hr (hvalid.rowids pTab)
  have hfrom : (fkeys.filter fun f => f.pFrom = pTab).foldl
        (fun s f => fkLookupParent t ifZero db f.zTo f r (-1) s) s =
      (fkeys.filter fun f => f.pFrom = pTab).foldl
        (fun s f => if ifZero s f.isDeferred = true then s
          else opFkCounter s f.isDeferred (-gained t db pTab r f)) s := by
    refine List.foldl_ext _ _ _ fun s f hf => ?_
    obtain rfl := of_decide_eq_true (List.mem_filter.mp hf).2
    rw [fkLookupParent_old]
    simp [gained]
  have hto : ∀ s : Counters, (fkeys.filter fun f => f.zTo = pTab).foldl
        (fun s f => fkScanChildren t ifZero db pTab f r 1 s) s =
      (fkeys.filter fun f => f.zTo = pTab).foldl
        (fun s f => opFkCounter s f.isDeferred
          (resolved t (deleteRow db pTab r) pTab r f)) s := by
    intro s
    refine List.foldl_ext _ _ _ fun s f hf => ?_
    obtain rfl := of_decide_eq_true (List.mem_filter.mp hf).2
    exact fkScanChildren_old h s
  have hgained : gained t (insertRow (deleteRow db pTab r) pTab r) pTab r = gained t db pTab r := by
    funext f
    simp only [gained, hback.violated f r]
  have hbalance : ∀ d, nViolated t fkeys d db +
        total d (resolved t (deleteRow db pTab r) pTab r) fkeys =
      nViolated t fkeys d (deleteRow db pTab r) + total d (gained t db pTab r) fkeys := by
    intro d
    have hin := nViolated_insertRow (d := d) h (hback.valid hvalid)
    rwa [← hback.nViolated, hgained] at hin
  simp only [sqlite3FkCheck, Option.elim]
  rw [hfrom, hto, get_foldl_opFkCounter, foldl_shortcut hz (gained_nonneg db pTab r)]
  · rw [get_foldl_opFkCounter fun f => -gained t db pTab r f, hs, total_resolved, total_neg,
      total_gained]
    have := hbalance d
    omega
  · -- what the old row violates is counted
    intro d
    rw [hs, total_gained]
    exact total_le (gained_le_violations hr) fkeys

/-! ### Runs -/

variable {fkeys : List FKey}

/-- The counters are the numbers of violations, and the UNIQUE constraints hold. -/
structure Exact (t : Tests V) (fkeys : List FKey) (s : State V) : Prop where
  valid : Valid t fkeys s.db
  counters : ∀ d, s.counters.get d = nViolated t fkeys d s.db

theorem Exact.execDelete (h : t.Agree) (hz : Shortcut ifZero) {s : State V} (hs : Exact t fkeys s)
    {pTab : ℕ} (hr : r ∈ s.db pTab) : Exact t fkeys (execDelete t ifZero fkeys s pTab r) where
  valid := hs.valid.deleteRow pTab r
  counters := sqlite3FkCheck_old h hz hs.valid hr hs.counters

theorem Exact.execInsert (h : t.Agree) (hz : Shortcut ifZero) {s : State V} (hs : Exact t fkeys s)
    {pTab : ℕ} (hr : Valid t fkeys (insertRow s.db pTab r)) :
    Exact t fkeys (execInsert t ifZero fkeys s pTab r) where
  valid := hr
  counters := sqlite3FkCheck_new h hz hr hs.counters

/-- One row operation. -/
theorem Exact.exec (h : t.Agree) (hz : Shortcut ifZero) {s : State V} (hs : Exact t fkeys s)
    {op : Op V} (hop : Legal t fkeys s op) : Exact t fkeys (exec t ifZero fkeys s op) := by
  cases op with
  | insert pTab r => exact hs.execInsert h hz hop
  | delete pTab r => exact hs.execDelete h hz hop
  | update pTab old new => exact (hs.execDelete h hz hop.1).execInsert h hz hop.2

/-- The rows do not depend on the jumps. -/
theorem exec_db (t : Tests V) (ifZero ifZero' : Counters → Bool → Bool) (fkeys : List FKey)
    (s : State V) (op : Op V) :
    (Fkey.exec t ifZero fkeys s op).db = (Fkey.exec t ifZero' fkeys s op).db := by
  cases op <;> rfl

/-- Two codes that both count exactly do the same. -/
theorem exec_eq_noJump (h : t.Agree) {s : State V} (hs : Exact t fkeys s) {op : Op V}
    (hop : Legal t fkeys s op) :
    Fkey.exec t opFkIfZero fkeys s op = Fkey.exec t noJump fkeys s op := by
  have hjump := hs.exec h shortcut_opFkIfZero hop
  have hno := hs.exec h shortcut_noJump hop
  have hdb := exec_db t opFkIfZero noJump fkeys s op
  have hcounters : (Fkey.exec t opFkIfZero fkeys s op).counters =
      (Fkey.exec t noJump fkeys s op).counters := by
    apply Counters.ext_get
    intro d
    rw [hjump.counters d, hno.counters d, hdb]
  calc Fkey.exec t opFkIfZero fkeys s op
      = ⟨(Fkey.exec t opFkIfZero fkeys s op).db, (Fkey.exec t opFkIfZero fkeys s op).counters⟩ := rfl
    _ = ⟨(Fkey.exec t noJump fkeys s op).db, (Fkey.exec t noJump fkeys s op).counters⟩ := by
        rw [hdb, hcounters]
    _ = Fkey.exec t noJump fkeys s op := rfl

/-- A database without violations, with both counters zero. -/
theorem exact_of_no_violation {s : State V} (hvalid : Valid t fkeys s.db)
    (hzero : s.counters = ⟨0, 0⟩)
    (hnone : ∀ f ∈ fkeys, ∀ c ∈ s.db f.pFrom, violated t s.db f c = false) : Exact t fkeys s where
  valid := hvalid
  counters d := by
    have hviolations : ∀ f ∈ fkeys, violations t s.db f = (fun _ => 0) f := by
      intro f hf
      have hcount : (s.db f.pFrom).countP (violated t s.db f) = 0 :=
        List.countP_eq_zero.mpr fun c hc => by simp [hnone f hf c hc]
      simp [violations, hcount]
    have hsum : total d (fun _ => 0) fkeys = 0 := by simp [total]
    rw [nViolated, total_congr hviolations, hsum, hzero]
    cases d <;> rfl

/-- **The counters count the violations.** From a database without violations, after each row
operation the two counters are the numbers of violated pairs of a row and a foreign key, and
without the shortcuts the code does the same. -/
theorem counters_eq_nViolated (h : t.Agree) {s : State V} (hvalid : Valid t fkeys s.db)
    (hzero : s.counters = ⟨0, 0⟩)
    (hnone : ∀ f ∈ fkeys, ∀ c ∈ s.db f.pFrom, violated t s.db f c = false) {ops : List (Op V)}
    (hops : Run.EveryStep (Fkey.exec t opFkIfZero fkeys) (Legal t fkeys) s ops) :
    Run.Every (Fkey.exec t opFkIfZero fkeys) (fun s =>
        s.counters.nDeferredCons = nViolated t fkeys true s.db ∧
        s.counters.nFkConstraint = nViolated t fkeys false s.db) s ops ∧
      Run.EveryStep (Fkey.exec t opFkIfZero fkeys) (fun s op =>
        Fkey.exec t opFkIfZero fkeys s op = Fkey.exec t noJump fkeys s op) s ops := by
  have hexact := exact_of_no_violation hvalid hzero hnone
  clear hvalid hzero hnone
  induction ops generalizing s with
  | nil => exact ⟨⟨hexact.counters true, hexact.counters false⟩, trivial⟩
  | cons op ops ih =>
    obtain ⟨hcounters, hjumps⟩ := ih hops.2 (hexact.exec h shortcut_opFkIfZero hops.1)
    exact ⟨⟨⟨hexact.counters true, hexact.counters false⟩, hcounters⟩,
      exec_eq_noJump h hexact hops.1, hjumps⟩

/-- Values that are NULL or a number, compared as they are. -/
def plain : Tests (Option ℤ) where
  isNull v := v.isNone
  int := some
  found _ c p := c = p
  selfMatch _ c p := c = p
  scan _ c p := !c.any Option.isNone && c = p
  sameEntry _ p q := p = q

theorem plain_agree : plain.Agree where
  selfMatch _ _ _ _ := rfl
  scan _ _ _ := rfl
  unique _ c p q _ hp hq := by
    rw [plain, decide_eq_true_eq] at *
    rw [← hp, ← hq]

/-- A deferred foreign key of table 0 to itself. -/
def selfKey : FKey := ⟨0, 0, [.col 0], some [.col 1], true⟩

/-- A child comes in before its parent, and the parent goes out again. -/
theorem counters_eq_nViolated_self :
    Run.Every (Fkey.exec plain opFkIfZero [selfKey]) (fun s =>
        s.counters.nDeferredCons = nViolated plain [selfKey] true s.db ∧
        s.counters.nFkConstraint = nViolated plain [selfKey] false s.db)
      ⟨fun _ => [], ⟨0, 0⟩⟩
      [.insert 0 ⟨1, fun i => if i = 0 then some 2 else some 1⟩,
        .insert 0 ⟨2, fun i => if i = 0 then none else some 2⟩,
        .delete 0 ⟨2, fun i => if i = 0 then none else some 2⟩] := by
  refine (counters_eq_nViolated plain_agree ?_ rfl ?_ ?_).1
  · exact ⟨fun _ => List.nodup_nil, fun _ _ _ hp => nomatch hp⟩
  · exact fun _ _ _ hc => nomatch hc
  refine ⟨?_, ?_, ?_, trivial⟩
  · refine ⟨fun k => ?_, fun f hf p hp q hq _ => ?_⟩
    · by_cases hk : k = 0
      · simp [insertRow, hk]
      · simp [insertRow, Function.update_of_ne hk]
    · obtain rfl := List.mem_singleton.mp hf
      simp_all [insertRow, selfKey]
  · refine ⟨fun k => ?_, fun f hf p hp q hq heq => ?_⟩
    · by_cases hk : k = 0
      · simp [Fkey.exec, execInsert, insertRow, hk]
      · simp [Fkey.exec, execInsert, insertRow, Function.update_of_ne hk]
    · obtain rfl := List.mem_singleton.mp hf
      simp only [Fkey.exec, execInsert, insertRow, selfKey, Function.update_self,
        List.mem_cons, List.not_mem_nil, or_false] at hp hq
      rcases hp with rfl | rfl <;> rcases hq with rfl | rfl <;>
        simp_all [plain, parentKey, selfKey, val]
  · exact List.mem_cons_self

end Fkey

end SqliteVms

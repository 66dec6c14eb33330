import SqliteVms.Util.RowSetSound

/-!
# Row sets as queues

The other use of a row set: everything is inserted first, and then `sqlite3RowSetNext` takes the
values out, the smallest first. The list is sorted at the first call, unless it is in order, and the
row set is cleared with the call that takes the last value.

## Main definitions

* `Queue` — a row set with the flag `ROWSET_NEXT`
* `rowSetToList`, `sqlite3RowSetClear`, `sqlite3RowSetNext`
* `Ready` — the list is in order

## Main results

* `next_step` — one call, once the list is in order
* `next_first` — the first call
* `rowSetNext_sorted` — the values come out in order, each of them once
-/

namespace SqliteVms

namespace RowSet

open Cells

/-! ### The operations -/

/-- A row set with the flag `ROWSET_NEXT` of `rsFlags`. The other flag is `set.sorted`. -/
structure Queue where
  set : RowSet
  next : Bool

def sqlite3RowSetClear (p : Queue) : Queue where
  set := { p.set with pEntry := none, pLast := none, pForest := none, sorted := true }
  next := false

/-- `rowSetToList`. There is no forest. -/
def rowSetToList (p : Queue) : Result Queue :=
  if p.set.sorted then .ok { p with next := true }
  else do
    let (heap, pEntry) ← rowSetEntrySort p.set.fuel p.set.heap p.set.pEntry
    pure { set := { p.set with heap := heap, pEntry := pEntry }, next := true }

/-- The part of `sqlite3RowSetNext` after the first `if`. -/
def takeEntry (p : Queue) : Queue × Option ℤ :=
  match p.set.pEntry with
  | some pEntry =>
    match p.set.heap.right pEntry with
    | some pRight =>
      ({ p with set := { p.set with pEntry := some pRight } }, some (p.set.heap pEntry).v)
    | none =>
      (sqlite3RowSetClear { p with set := { p.set with pEntry := none } },
        some (p.set.heap pEntry).v)
  | none => (p, none)

/-- `sqlite3RowSetNext`. The answer is `*pRowid`, or nothing when the source returns 0. -/
def sqlite3RowSetNext (p : Queue) : Result (Queue × Option ℤ) := do
  let p ← if p.next then .ok p else rowSetToList p
  pure (takeEntry p)

/-- A number of calls, with their answers. -/
def nexts : ℕ → Queue → Result (List (Option ℤ))
  | 0, _ => .ok []
  | n + 1, p => do
    let (p, v) ← sqlite3RowSetNext p
    let vs ← nexts n p
    pure (v :: vs)

/-! ### One call -/

/-- The list has the values `ms` and needs no sorting. -/
structure Ready (p : Queue) (ms : List ℤ) : Prop where
  entries : ∃ es, Chain p.set.heap.right p.set.pEntry es ∧ es.map (fun a => (p.set.heap a).v) = ms
  sorted : p.next = true ∨ p.set.sorted = true

variable {p : Queue} {ms : List ℤ} {s : RowSet} {cs : List Call} {es : List ℕ}
  {fs : List (ℕ × Shape ℕ)}

theorem takeEntry_spec (hr : Ready p ms) :
    (takeEntry p).2 = ms.head? ∧ Ready (takeEntry p).1 ms.tail := by
  obtain ⟨⟨es, hes, rfl⟩, hsorted⟩ := hr
  cases hp : p.set.pEntry with
  | none =>
    obtain rfl := (hp ▸ hes).eq_nil
    have htake : takeEntry p = (p, none) := by simp only [takeEntry, hp]
    rw [htake]
    exact ⟨rfl, ⟨[], hes, rfl⟩, hsorted⟩
  | some a =>
    obtain ⟨es', rfl, htail⟩ := (hp ▸ hes).eq_cons
    cases hq : p.set.heap.right a with
    | some b =>
      have htake : takeEntry p =
          ({ p with set := { p.set with pEntry := some b } }, some (p.set.heap a).v) := by
        simp only [takeEntry, hp, hq]
      rw [htake]
      exact ⟨rfl, ⟨es', hq ▸ htail, rfl⟩, hsorted⟩
    | none =>
      obtain rfl := (hq ▸ htail).eq_nil
      have htake : takeEntry p =
          (sqlite3RowSetClear { p with set := { p.set with pEntry := none } },
            some (p.set.heap a).v) := by
        simp only [takeEntry, hp, hq]
      rw [htake]
      exact ⟨rfl, ⟨[], rfl, rfl⟩, Or.inr rfl⟩

/-- **One call, once the list is in order.** -/
theorem next_step (hr : Ready p ms) :
    ∃ p', sqlite3RowSetNext p = .ok (p', ms.head?) ∧ Ready p' ms.tail := by
  have htake : ∀ {p : Queue}, Ready p ms →
      ∃ p', takeEntry p = (p', ms.head?) ∧ Ready p' ms.tail := fun {p} hr => by
    obtain ⟨hhead, htail⟩ := takeEntry_spec hr
    exact ⟨(takeEntry p).1, Prod.ext rfl hhead, htail⟩
  rw [sqlite3RowSetNext]
  cases hn : p.next with
  | true =>
    obtain ⟨p', hrun, hr'⟩ := htake hr
    exact ⟨p', congrArg Except.ok hrun, hr'⟩
  | false =>
    have hs : p.set.sorted = true := hr.sorted.resolve_left (hn ▸ Bool.false_ne_true)
    obtain ⟨p', hrun, hr'⟩ := htake (p := { p with next := true }) ⟨hr.entries, Or.inl rfl⟩
    refine ⟨p', ?_, hr'⟩
    rw [if_neg Bool.false_ne_true, rowSetToList, if_pos hs]
    exact congrArg Except.ok hrun

/-- After a call that had to sort everything is as if the list had been in order before. -/
theorem next_first (hi : Inv s cs es fs) (hsort : Sortable (RowSet.pending cs)) :
    ∃ p ms, sqlite3RowSetNext ⟨s, false⟩ = sqlite3RowSetNext p ∧ Ready p ms ∧
      ms.Pairwise (· < ·) ∧ ∀ x, x ∈ ms ↔ x ∈ RowSet.pending cs := by
  have hset : ∀ {h : Heap} {as : List ℕ}, valuesOf h as = (RowSet.pending cs).toFinset →
      ∀ x, x ∈ as.map (fun a => (h a).v) ↔ x ∈ RowSet.pending cs := fun {h as} heq x => by
    rw [← List.mem_toFinset, ← List.mem_toFinset, ← heq, valuesOf]
  cases hs : s.sorted with
  | true =>
    have hord := hi.ordered_iff.mp (hi.sorted.mp hs)
    exact ⟨⟨s, false⟩, RowSet.pending cs, rfl, ⟨⟨es, hi.entries, hi.pending⟩, Or.inr hs⟩, hord,
      fun x => Iff.rfl⟩
  | false =>
    have hne : s.pEntry ≠ none := fun hp => by
      obtain rfl := (hp ▸ hi.entries).eq_nil
      exact absurd (hi.sorted.mpr List.Pairwise.nil) (hs ▸ Bool.false_ne_true)
    obtain ⟨q, hq⟩ := Option.ne_none_iff_exists'.mp hne
    rcases sortEntries_spec hi hq with ⟨-, h', q', ps, hrun, -, hps, hord, -, hval⟩ | ⟨hnot, -⟩
    · rw [sortEntries, hs, if_neg Bool.false_ne_true] at hrun
      have hlist : rowSetToList ⟨s, false⟩ =
          .ok ⟨{ s with heap := h', pEntry := some q' }, true⟩ := by
        rw [rowSetToList, if_neg (hs ▸ Bool.false_ne_true), hq, hrun]
        rfl
      refine ⟨⟨{ s with heap := h', pEntry := some q' }, true⟩, ps.map fun a => (h' a).v, ?_,
        ⟨⟨ps, hps, rfl⟩, Or.inl rfl⟩, List.pairwise_map.mpr hord, hset hval⟩
      rw [sqlite3RowSetNext, if_neg Bool.false_ne_true, hlist]
      rfl
    · exact absurd hsort hnot

/-! ### Sequences of calls -/

/-- The answers of `n` calls when the values are `ms`. -/
def answersOf (ms : List ℤ) (n : ℕ) : List (Option ℤ) := (List.range n).map fun i => ms[i]?

theorem answersOf_succ (ms : List ℤ) (n : ℕ) :
    answersOf ms (n + 1) = ms.head? :: answersOf ms.tail n := by
  rw [answersOf, answersOf, List.range_succ_eq_map, List.map_cons, List.map_map,
    List.head?_eq_getElem?]
  refine congrArg _ (List.map_congr_left fun i _ => ?_)
  rw [List.getElem?_tail]
  rfl

theorem nexts_spec (n : ℕ) (hr : Ready p ms) : nexts n p = .ok (answersOf ms n) := by
  induction n generalizing p ms with
  | zero => rfl
  | succ n ih =>
    obtain ⟨p', hrun, hr'⟩ := next_step hr
    rw [nexts, hrun, answersOf_succ]
    change (nexts n p').bind _ = _
    rw [ih hr']
    rfl

/-- Inserting a list of values. -/
def insertAll (s : RowSet) (vs : List ℤ) : RowSet := vs.foldl sqlite3RowSetInsert s

theorem insertAll_inv (vs : List ℤ) (hi : Inv s cs es fs) :
    ∃ cs' es', Inv (insertAll s vs) cs' es' fs ∧
      RowSet.pending cs' = RowSet.pending cs ++ vs := by
  induction vs generalizing s cs es with
  | nil => exact ⟨cs, es, hi, (List.append_nil _).symm⟩
  | cons v vs ih =>
    obtain ⟨cs', es', hi', hpend⟩ := ih (insert_step hi v)
    refine ⟨cs', es', hi', ?_⟩
    rw [hpend, RowSet.pending, List.append_assoc]
    rfl

/-- **A row set is a sorted queue without repetitions.** However many calls of `sqlite3RowSetNext`
follow the insertions, the answers are the different values in increasing order and then 0, and
`aBucket` was large enough. -/
theorem rowSetNext_sorted (heap : Heap) (vs : List ℤ) (hlen : vs.length < 2 ^ 39) :
    ∃ ms : List ℤ, ms.Pairwise (· < ·) ∧ (∀ x, x ∈ ms ↔ x ∈ vs) ∧
      ∀ n, nexts n ⟨insertAll (sqlite3RowSetInit heap) vs, false⟩ = .ok (answersOf ms n) := by
  obtain ⟨cs, es, hi, hpend⟩ := insertAll_inv vs (inv_init heap)
  replace hpend : RowSet.pending cs = vs := hpend
  have hsort : Sortable (RowSet.pending cs) :=
    Or.inr (hpend ▸ Nat.lt_trans hlen (Nat.pow_lt_pow_right (by decide) (by decide)))
  obtain ⟨p, ms, hfirst, hr, hord, hmem⟩ := next_first hi hsort
  refine ⟨ms, hord, hpend ▸ hmem, fun n => ?_⟩
  cases n with
  | zero => rfl
  | succ n =>
    rw [nexts, hfirst]
    exact nexts_spec (n + 1) hr

theorem rowSetNext_sorted_three :
    ∃ ms : List ℤ, ms.Pairwise (· < ·) ∧ (∀ x, x ∈ ms ↔ x ∈ [5, -2, 5]) ∧
      ∀ n, nexts n ⟨insertAll (sqlite3RowSetInit fun _ => ⟨0, none, none⟩) [5, -2, 5], false⟩ =
        .ok (answersOf ms n) :=
  rowSetNext_sorted _ _ (by decide)

end RowSet

end SqliteVms

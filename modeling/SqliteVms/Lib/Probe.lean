import Mathlib.Order.Interval.Finset.Nat

/-!
# Open addressing

A hash table of `n` slots in which a value that does not find its own slot free goes into the next
one that is, round the end of the table. An empty slot holds `0`. A search starts at the slot of the
value and goes on until it meets the value or an empty slot, so that two things matter: between the
slot of a value and the place where it stands there is no empty slot (`Table.reach`), and somewhere
there is one, or else a search for a value that is not there never ends.

## Main definitions

* `Probe.slot`, `Probe.probe` — the slots in the order of a search, the search
* `Probe.Table` — the invariant
* `Probe.used` — the number of slots that are taken

## Main results

* `Probe.Table.find` — a search in a table with room ends, and finds what is there
* `Probe.Table.insert` — a value put where the search ended
-/

namespace Probe

variable {α : Type*} [Zero α] {n : ℕ} {home : α → ℕ} {t : ℕ → α} {v : α}

/-! ### The search -/

/-- The slot that is met after `k` others in a search from `h`. -/
def slot (n h k : ℕ) : ℕ := (h + k) % n

/-- The first slot with `stop`, in a search of at most `fuel` slots from `h`. -/
def probe (n : ℕ) (stop : ℕ → Bool) : ℕ → ℕ → Option ℕ
  | 0, _ => none
  | fuel + 1, h => if stop h then some h else probe n stop fuel ((h + 1) % n)

theorem slot_zero {h : ℕ} (hh : h < n) : slot n h 0 = h := Nat.mod_eq_of_lt hh

theorem slot_succ (h k : ℕ) : slot n ((h + 1) % n) k = slot n h (k + 1) := by
  rw [slot, slot, Nat.mod_add_mod, Nat.add_assoc, Nat.add_comm 1 k]

theorem slot_lt (hn : 0 < n) (h k : ℕ) : slot n h k < n := Nat.mod_lt _ hn

/-- Every slot is met, and after fewer than `n` others. -/
theorem exists_slot {h s : ℕ} (hh : h < n) (hs : s < n) : ∃ k < n, slot n h k = s := by
  rcases le_or_gt h s with hle | hlt
  · refine ⟨s - h, by omega, ?_⟩
    rw [slot, Nat.add_sub_cancel' hle, Nat.mod_eq_of_lt hs]
  · refine ⟨n + s - h, by omega, ?_⟩
    rw [slot, Nat.add_sub_cancel' (by omega), Nat.add_mod_left, Nat.mod_eq_of_lt hs]

/-- What a search that ends has found. -/
theorem probe_some {stop : ℕ → Bool} {fuel h s : ℕ} (hh : h < n)
    (hs : probe n stop fuel h = some s) :
    ∃ k < fuel, slot n h k = s ∧ stop s = true ∧ ∀ j < k, stop (slot n h j) = false := by
  induction fuel generalizing h with
  | zero => exact absurd hs (by rw [probe]; exact nofun)
  | succ fuel ih =>
    rw [probe] at hs
    split at hs
    case isTrue hstop =>
      obtain rfl := Option.some.inj hs
      exact ⟨0, Nat.succ_pos _, slot_zero hh, hstop, fun j hj => absurd hj (Nat.not_lt_zero j)⟩
    case isFalse hgo =>
      obtain ⟨k, hk, hslot, hstop, hbefore⟩ := ih (Nat.mod_lt _ (by omega)) hs
      refine ⟨k + 1, by omega, (slot_succ h k).symm.trans hslot, hstop, fun j hj => ?_⟩
      cases j with
      | zero => rw [slot_zero hh]; exact Bool.eq_false_of_not_eq_true hgo
      | succ j => rw [← slot_succ]; exact hbefore j (by omega)

/-- A search ends when there is something to be found on its way. -/
theorem probe_isSome (stop : ℕ → Bool) {fuel h k : ℕ} (hh : h < n) (hk : k < fuel)
    (hstop : stop (slot n h k) = true) : ∃ s, probe n stop fuel h = some s := by
  induction fuel generalizing h k with
  | zero => exact absurd hk (Nat.not_lt_zero k)
  | succ fuel ih =>
    rw [probe]
    split
    case isTrue => exact ⟨h, rfl⟩
    case isFalse hgo =>
      cases k with
      | zero => exact absurd (slot_zero hh ▸ hstop) hgo
      | succ k =>
        exact ih (Nat.mod_lt _ (by omega)) (Nat.lt_of_succ_lt_succ hk) (slot_succ h k ▸ hstop)

/-! ### The invariant -/

/-- Slot `s` of the table holds what it should: no slot between the slot of the value and this one
is empty. -/
def Reached (n : ℕ) (home : α → ℕ) (t : ℕ → α) (s : ℕ) : Prop :=
  ∃ k < n, slot n (home (t s)) k = s ∧ ∀ j < k, t (slot n (home (t s)) j) ≠ 0

/-- The invariant of the table: no value stands in two slots, and all can be found. -/
structure Table (n : ℕ) (home : α → ℕ) (t : ℕ → α) : Prop where
  unique : ∀ s < n, ∀ s' < n, t s ≠ 0 → t s = t s' → s = s'
  reach : ∀ s < n, t s ≠ 0 → Reached n home t s

/-- The value is in the table. -/
def Holds (n : ℕ) (t : ℕ → α) (v : α) : Prop := ∃ s < n, t s = v

theorem table_zero : Table n home (fun _ => (0 : α)) where
  unique := fun _ _ _ _ h => absurd rfl h
  reach := fun _ _ h => absurd rfl h

theorem not_holds_zero (hv : v ≠ 0) : ¬ Holds n (fun _ => (0 : α)) v :=
  fun ⟨_, _, h⟩ => hv h.symm

theorem holds_update {s : ℕ} (hs : s < n) (hempty : t s = 0) {w : α} (hw : w ≠ 0) :
    Holds n (Function.update t s v) w ↔ w = v ∨ Holds n t w := by
  constructor
  · rintro ⟨q, hq, hval⟩
    rcases eq_or_ne q s with rfl | hne
    · exact Or.inl (by rw [← hval, Function.update_self])
    · exact Or.inr ⟨q, hq, by rw [← hval, Function.update_of_ne hne]⟩
  · rintro (rfl | ⟨q, hq, hval⟩)
    · exact ⟨s, hs, Function.update_self _ _ _⟩
    · have hne : q ≠ s := fun heq => hw (by rw [← hval, heq, hempty])
      exact ⟨q, hq, by rw [Function.update_of_ne hne, hval]⟩

/-- **A value put into the empty slot where the search for it ended.** -/
theorem Table.insert (h : Table n home t) {s k : ℕ} (hs : s < n) (hempty : t s = 0)
    (hnew : ¬ Holds n t v) (hk : k < n) (hks : slot n (home v) k = s)
    (hbefore : ∀ j < k, t (slot n (home v) j) ≠ 0) :
    Table n home (Function.update t s v) := by
  have hkeep : ∀ q, t q ≠ 0 → Function.update t s v q = t q := fun q hq =>
    Function.update_of_ne (fun heq => hq (by rw [heq, hempty])) _ _
  constructor
  case unique =>
    intro q hq q' hq' hne heq
    rcases eq_or_ne q s with rfl | hqs
    · rcases eq_or_ne q' q with rfl | hqs'
      · rfl
      · rw [Function.update_self, Function.update_of_ne hqs'] at heq
        exact absurd ⟨q', hq', heq.symm⟩ hnew
    · rw [Function.update_of_ne hqs] at hne heq
      rcases eq_or_ne q' s with rfl | hqs'
      · rw [Function.update_self] at heq
        exact absurd ⟨q, hq, heq⟩ hnew
      · rw [Function.update_of_ne hqs'] at heq
        exact h.unique q hq q' hq' hne heq
  case reach =>
    intro q hq hne
    rcases eq_or_ne q s with rfl | hqs
    · rw [Reached, Function.update_self]
      exact ⟨k, hk, hks, fun j hj => by rw [hkeep _ (hbefore j hj)]; exact hbefore j hj⟩
    · rw [Function.update_of_ne hqs] at hne
      obtain ⟨kq, hkq, hslot, hreach⟩ := h.reach q hq hne
      rw [Reached, Function.update_of_ne hqs]
      exact ⟨kq, hkq, hslot, fun j hj => by rw [hkeep _ (hreach j hj)]; exact hreach j hj⟩

/-! ### Room -/

variable [DecidableEq α]

/-- The number of slots that are taken. -/
def used (n : ℕ) (t : ℕ → α) : ℕ := ((Finset.range n).filter fun s => t s ≠ 0).card

theorem used_zero : used n (fun _ => (0 : α)) = 0 := by
  simp [used]

/-- A table that is not full has an empty slot. -/
theorem exists_empty (h : used n t < n) : ∃ s < n, t s = 0 := by
  by_contra hall
  push Not at hall
  have hfull : (Finset.range n).filter (fun s => t s ≠ 0) = Finset.range n :=
    Finset.filter_true_of_mem fun s hs => hall s (Finset.mem_range.mp hs)
  rw [used, hfull, Finset.card_range] at h
  exact lt_irrefl n h

theorem used_update {s : ℕ} (hs : s < n) (hempty : t s = 0) (hv : v ≠ 0) :
    used n (Function.update t s v) = used n t + 1 := by
  have hinsert : (Finset.range n).filter (fun q => Function.update t s v q ≠ 0) =
      insert s ((Finset.range n).filter fun q => t q ≠ 0) := by
    ext q
    rcases eq_or_ne q s with rfl | hne
    · simp [hs, hv]
    · simp [hne]
  rw [used, hinsert, Finset.card_insert_of_notMem (by simp [hempty]), used]

/-! ### Searching -/

/-- **A search in a table with room ends.** It ends at the value, if the table holds it, and at an
empty slot otherwise. -/
theorem Table.find (h : Table n home t) (hroom : used n t < n) (hv : v ≠ 0) (hhome : home v < n) :
    ∃ s < n, probe n (fun q => t q = 0 ∨ t q = v) n (home v) = some s ∧
      (t s = 0 ∨ t s = v) ∧ (t s = v ↔ Holds n t v) ∧
      ∃ k < n, slot n (home v) k = s ∧ ∀ j < k, t (slot n (home v) j) ≠ 0 := by
  obtain ⟨e, he, hempty⟩ := exists_empty hroom
  obtain ⟨ke, hke, hslot⟩ := exists_slot hhome he
  obtain ⟨s, hs⟩ := probe_isSome (fun q => t q = 0 ∨ t q = v) hhome hke (by
    simp [hslot, hempty])
  obtain ⟨k, hk, hks, hstop, hbefore⟩ := probe_some hhome hs
  simp only [decide_eq_true_eq, decide_eq_false_iff_not, not_or] at hstop hbefore
  have hsn : s < n := hks ▸ slot_lt (by omega) _ _
  refine ⟨s, hsn, hs, hstop, ⟨fun heq => ⟨s, hsn, heq⟩, ?_⟩, k, hk, hks,
    fun j hj => (hbefore j hj).1⟩
  rintro ⟨q, hq, rfl⟩
  obtain ⟨kq, -, hkq, hreach⟩ := h.reach q hq hv
  rcases lt_trichotomy k kq with hlt | heq | hgt
  · exact hstop.resolve_left (hks ▸ hreach k hlt)
  · rw [← hks, heq, hkq]
  · exact absurd (congrArg t hkq) (hbefore kq hgt).2

/-- A search for an empty slot ends in a table with room. -/
theorem find_empty (hroom : used n t < n) {h : ℕ} (hh : h < n) :
    ∃ s < n, probe n (fun q => t q = 0) n h = some s ∧ t s = 0 ∧
      ∃ k < n, slot n h k = s ∧ ∀ j < k, t (slot n h j) ≠ 0 := by
  obtain ⟨e, he, hempty⟩ := exists_empty hroom
  obtain ⟨ke, hke, hslot⟩ := exists_slot hh he
  obtain ⟨s, hs⟩ := probe_isSome (fun q => t q = 0) hh hke (by simp [hslot, hempty])
  obtain ⟨k, hk, hks, hstop, hbefore⟩ := probe_some hh hs
  simp only [decide_eq_true_eq, decide_eq_false_iff_not] at hstop hbefore
  exact ⟨s, hks ▸ slot_lt (by omega) _ _, hs, hstop, k, hk, hks, hbefore⟩

end Probe

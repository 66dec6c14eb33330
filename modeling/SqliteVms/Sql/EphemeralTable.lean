import SqliteVms.Lib.SearchTable
import SqliteVms.Vdbe.Mem

/-!
# Tables of values

The right side of an IN is put into an ephemeral table, by `OP_IdxInsert`, and `OP_Found` looks for
the left side in it. Both search with `sqlite3MemCompare`, and a value that compares equal to one in
the table overwrites it. That is an order unless a real is the `double` of two integers; a lookup goes
wrong only for one of the two.

## Main definitions

* `ephemeralTable`, `opFound` — the table, and the lookup in it or in an index
* `ExactAt` — the key is not one of two such integers

## Main results

* `ranks_sign` — which side of the key a value is on
* `opFound_ephemeralTable`, `opFound_index` — what a lookup finds
-/

namespace SqliteVms

namespace Vdbe

open Comparison SearchTable

/-! ### The code -/

/-- The comparison of an entry of a table with a key. -/
def entryCompare (pColl : CollSeq) (e key : Value) : ℤ := sqlite3MemCompare e key (some pColl)

/-- `OP_IdxInsert` of one value after the other, of which each is searched for. -/
def ephemeralTable (pColl : CollSeq) (pivot : List Value → Value → ℕ → ℕ) (values : List Value) :
    List Value :=
  build pivot (entryCompare pColl) values

/-- `OP_Found` with a key of one field. -/
def opFound (pColl : CollSeq) (pivot : ℕ → ℕ) (desc : Bool) (records : List Value) (key : Value) :
    Bool :=
  lookup pivot (fun e => if desc = true then -entryCompare pColl e key else entryCompare pColl e key)
    records

/-! ### The order -/

/-- The integer `key` is not the `double` of a real of `S` that is the one of another integer of `S`
too. -/
def ExactAt (key : Value) (S : Set Value) : Prop :=
  ∀ i j r, key = .int i → .int j ∈ S → .real r ∈ S →
    unitsOfInt i = r.units → unitsOfInt j = r.units → i = j

/-- The entries are in the order of the index. -/
def InOrder (pColl : CollSeq) (desc : Bool) (records : List Value) : Prop :=
  records.Pairwise fun a b =>
    (if desc = true then -entryCompare pColl a b else entryCompare pColl a b) ≤ 0

variable {pColl : CollSeq} {key : Value} {S : Set Value} {values records : List Value}

/-- A real is compared with integers and with reals alike. -/
theorem places_real (r : Double) (e x : Value) :
    Places (fun e => (entryCompare pColl e (.real r)).sign) (entryCompare pColl x (.real r)).sign
      (entryCompare pColl · x) e := by
  have hint : ∀ {i j : Int64}, i.toInt ≤ j.toInt → unitsOfInt i ≤ unitsOfInt j :=
    fun hle => unitsOfInt_mono (Int64.le_iff_toInt_le.mpr hle)
  have hplaces : ∀ {c a b : ℤ}, (c ≤ 0 → a ≤ b) → (0 ≤ c → b ≤ a) → e = e →
      (c < 0 → (threeWay a r.units).sign ≤ (threeWay b r.units).sign) ∧
      (c = 0 → (threeWay a r.units).sign = (threeWay b r.units).sign) ∧
      (0 < c → (threeWay b r.units).sign ≤ (threeWay a r.units).sign) := by
    intro c a b hlo hhi _
    refine ⟨fun h => sign_threeWay_mono (hlo h.le) _, fun h => ?_, fun h =>
      sign_threeWay_mono (hhi h.le) _⟩
    rw [le_antisymm (hlo h.le) (hhi h.ge)]
  cases e with
  | int i =>
    cases x with
    | int j =>
      obtain ⟨hlt, heq, hgt⟩ := hplaces (c := threeWay i.toInt j.toInt) (a := unitsOfInt i)
        (b := unitsOfInt j) (fun h => hint (threeWay_nonpos.mp h))
        (fun h => hint (threeWay_nonneg.mp h)) rfl
      exact ⟨hlt, heq, hgt⟩
    | real s =>
      obtain ⟨hlt, heq, hgt⟩ := hplaces (c := threeWay (unitsOfInt i) s.units) (a := unitsOfInt i)
        (b := s.units) threeWay_nonpos.mp threeWay_nonneg.mp rfl
      exact ⟨hlt, heq, hgt⟩
    | null | text | blob =>
      constructor <;> simp [entryCompare, sqlite3MemCompare, threeWay]
      all_goals split_ifs <;> simp
  | real s =>
    cases x with
    | int j =>
      obtain ⟨hlt, heq, hgt⟩ := hplaces (c := threeWay s.units (unitsOfInt j)) (a := s.units)
        (b := unitsOfInt j) threeWay_nonpos.mp threeWay_nonneg.mp rfl
      exact ⟨hlt, heq, hgt⟩
    | real t =>
      obtain ⟨hlt, heq, hgt⟩ := hplaces (c := threeWay s.units t.units) (a := s.units)
        (b := t.units) threeWay_nonpos.mp threeWay_nonneg.mp rfl
      exact ⟨hlt, heq, hgt⟩
    | null | text | blob =>
      constructor <;> simp [entryCompare, sqlite3MemCompare, threeWay]
      all_goals split_ifs <;> simp
  | null | text | blob =>
    cases x <;> constructor <;> simp [entryCompare, sqlite3MemCompare, threeWay]
    all_goals split_ifs <;> simp

/-- **The sides of a key.** A comparison of two values does not contradict on which side of the key
they are. -/
theorem ranks_sign (pColl : CollSeq) (h : ExactAt key S) :
    Ranks (fun e => (entryCompare pColl e key).sign) (entryCompare pColl) S := by
  intro x hx e he
  by_cases hreal : ∃ r, key = .real r
  · obtain ⟨r, rfl⟩ := hreal
    exact places_real r e x
  · have hexact : Exact {e, x, key} := by
      intro i j r hi hj hr hir hjr
      simp only [Set.mem_insert_iff, Set.mem_singleton_iff] at hi hj hr
      have hi' := h i j r
      have hj' := h j i r
      grind
    have horder : TotalOrderOn (entryCompare pColl) {e, x, key} :=
      totalOrderOn_sqlite3MemCompare hexact
    have hmem : e ∈ ({e, x, key} : Set Value) ∧ x ∈ ({e, x, key} : Set Value) ∧
        key ∈ ({e, x, key} : Set Value) := by simp
    exact
      { lt := fun hlt => horder.sign_le hmem.1 hmem.2.1 hmem.2.2 hlt.le
        eq := fun heq => le_antisymm (horder.sign_le hmem.1 hmem.2.1 hmem.2.2 heq.le)
          (horder.sign_le hmem.2.1 hmem.1 hmem.2.2 (horder.eq_symm _ hmem.1 _ hmem.2.1 heq).le)
        gt := fun hgt => horder.sign_le hmem.2.1 hmem.1 hmem.2.2
          ((horder.swap hmem.2.1 hmem.1).mpr hgt.le) }

/-- **`OP_Found` in an ephemeral table** finds a value if one of those put into it is equal. -/
theorem opFound_ephemeralTable (pivot : List Value → Value → ℕ → ℕ) (pivot' : ℕ → ℕ)
    (h : ExactAt key {e | e ∈ values}) :
    opFound pColl pivot' false (ephemeralTable pColl pivot values) key = true ↔
      ∃ e ∈ values, sqlite3MemCompare e key (some pColl) = 0 := by
  obtain ⟨hsorted, -, hrank⟩ := build_spec pivot (ranks_sign pColl h)
  have hzero := hrank 0
  simp only [Int.sign_eq_zero_iff_zero] at hzero
  exact (lookup_iff hsorted).trans hzero

/-- **`OP_Found` in an index** finds a value if one of its entries is equal. -/
theorem opFound_index (pivot : ℕ → ℕ) {desc : Bool} (hs : InOrder pColl desc records)
    (h : ExactAt key {e | e ∈ records}) :
    opFound pColl pivot desc records key = true ↔
      ∃ e ∈ records, sqlite3MemCompare e key (some pColl) = 0 := by
  have hranks := ranks_sign pColl h
  have hsorted : Sorted (fun e => (if desc = true then -entryCompare pColl e key
      else entryCompare pColl e key).sign) records := by
    refine List.Pairwise.imp_of_mem (fun {a b} ha hb hle => ?_) hs
    have hp := hranks b hb a ha
    cases desc with
    | false =>
      rcases lt_or_eq_of_le hle with hlt | heq
      · exact hp.lt hlt
      · exact (hp.eq heq).le
    | true =>
      simp only [if_true, Int.sign_neg, neg_le_neg_iff] at hle ⊢
      rcases lt_or_eq_of_le (neg_nonpos.mp hle) with hlt | heq
      · exact hp.gt hlt
      · exact (hp.eq heq.symm).ge
  refine (lookup_iff hsorted).trans (exists_congr fun e => and_congr_right fun _ => ?_)
  cases desc with
  | false => exact Iff.rfl
  | true => exact neg_eq_zero

theorem exactAt_null : ExactAt .null S := fun _ _ _ h => Value.noConfusion h

end Vdbe

end SqliteVms

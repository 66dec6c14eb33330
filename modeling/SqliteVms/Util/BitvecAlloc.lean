import SqliteVms.Util.Bitvec

/-!
# Bit vectors when memory runs out

`sqlite3BitvecSet` again, with allocations that may fail. Which of them succeed is up to `ok`, by
their number in the call. A sub-vector is not created then, and the array that saves a hash table
while it is divided is not either. The answer says whether the code returned `SQLITE_NOMEM`.

When the table was saved and a sub-vector cannot be created after that, the bits that should have
gone there are lost.

## Main definitions

* `setFrom`, `sqlite3BitvecSet` — setting a bit
* `Divides` — the hash table has to be divided
* `Kept` — what a call should leave behind

## Main results

* `setFrom_spec` — one call
* `setFrom_fresh` — a divided table when no sub-vector can be created
* `kept_iff` — bits may be lost exactly when the table has to be divided
-/

namespace SqliteVms

namespace Bitvec

namespace Alloc

open Probe

variable (L : Layout) (ok : ℕ → Bool)

/-! ### Setting a bit -/

/-- What a call leaves behind: the vector, whether it returned `SQLITE_NOMEM`, and the number of the
next allocation. -/
structure Outcome where
  vec : Bitvec
  nomem : Bool
  next : ℕ

/-- The vector is part of another one. -/
def Outcome.inside (r : Outcome) (f : Bitvec → Bitvec) : Outcome := { r with vec := f r.vec }

/-- What `sqlite3BitvecSet` does after `i--`, where `n` is the number of the next allocation. The
first argument bounds the depth. -/
def setFrom : ℕ → Bitvec → ℕ → ℕ → Option Outcome
  | 0, _, _, _ => none
  | _ + 1, null, _, n => some ⟨null, false, n⟩
  | fuel + 1, mk iSize nSet iDivisor aBitmap aHash apSub, i, n =>
    if L.bitvecNbit < iSize ∧ iDivisor ≠ 0 then
      let bin := i / iDivisor
      let down := fun q n => (setFrom fuel q (i % iDivisor) n).map fun r =>
        r.inside fun q => mk iSize nSet iDivisor aBitmap aHash (Function.update apSub bin q)
      match apSub bin with
      | null =>
        if ok n then down (sqlite3BitvecCreate iDivisor) (n + 1)
        else some ⟨mk iSize nSet iDivisor aBitmap aHash apSub, true, n + 1⟩
      | q => down q n
    else if iSize ≤ L.bitvecNbit then
      let aBitmap := Function.update aBitmap (i / 8) (aBitmap (i / 8) ||| mask i)
      some ⟨mk iSize nSet iDivisor aBitmap aHash apSub, false, n⟩
    else if aHash (L.bitvecHash i) = 0 ∧ nSet < L.bitvecNint - 1 then
      let aHash := Function.update aHash (L.bitvecHash i) (i + 1)
      some ⟨mk iSize (nSet + 1) iDivisor aBitmap aHash apSub, false, n⟩
    else
      (probe L.bitvecNint (fun h => aHash h = 0 ∨ aHash h = i + 1) L.bitvecNint
        (L.bitvecHash i)).bind fun h =>
        if aHash h = i + 1 then some ⟨mk iSize nSet iDivisor aBitmap aHash apSub, false, n⟩
        else if L.bitvecMxhash ≤ nSet then
          if ok n then
            let p := mk iSize nSet ((iSize + L.bitvecNptr - 1) / L.bitvecNptr) (fun _ => 0)
              (fun _ => 0) fun _ => null
            (setFrom fuel p i (n + 1)).bind fun r =>
              (List.range L.bitvecNint).foldlM
                (fun r j =>
                  if aHash j ≠ 0 then
                    (setFrom fuel r.vec (aHash j - 1) r.next).map fun r' =>
                      { r' with nomem := r.nomem || r'.nomem }
                  else some r) r
          else some ⟨mk iSize nSet iDivisor aBitmap aHash apSub, true, n + 1⟩
        else some ⟨mk iSize (nSet + 1) iDivisor aBitmap (Function.update aHash h (i + 1)) apSub,
          false, n⟩

def sqlite3BitvecSet (p : Bitvec) (i : ℕ) : Option Outcome :=
  match p with
  | null => some ⟨null, false, 0⟩
  | p => setFrom L ok (2 * p.iSize + 1) p (i - 1) 0

/-- The hash table where bit `i` belongs has to be divided before the bit can be set. -/
def Divides : Bitvec → ℕ → Prop
  | null, _ => False
  | mk iSize nSet iDivisor _ aHash apSub, i =>
    if iDivisor ≠ 0 then Divides (apSub (i / iDivisor)) (i % iDivisor)
    else L.bitvecNbit < iSize ∧ L.bitvecMxhash ≤ nSet ∧ ¬ Holds L.bitvecNint aHash (i + 1) ∧
      ¬ (aHash (L.bitvecHash i) = 0 ∧ nSet < L.bitvecNint - 1)

/-- No bit is set that the vector or one of its parts does not have. -/
def Within : Bitvec → Prop
  | null => True
  | mk iSize nSet iDivisor aBitmap aHash apSub =>
    (∀ j, Mem L (mk iSize nSet iDivisor aBitmap aHash apSub) j → j < iSize) ∧
      (iDivisor ≠ 0 → ∀ bin, Within (apSub bin))

variable {L ok}

theorem Within.lt {p : Bitvec} (h : Within L p) {j : ℕ} (hj : Mem L p j) : j < p.iSize := by
  cases p with
  | null => exact hj.elim
  | mk => exact h.1 j hj

theorem within_create (size : ℕ) : Within L (sqlite3BitvecCreate size) :=
  ⟨fun j hj => absurd hj (not_mem_create size j), fun hdiv => absurd rfl hdiv⟩

/-! ### The cases of a call -/

section Cases

variable {size nSet divisor i fuel n : ℕ} {aBitmap : ℕ → UInt8} {aHash : ℕ → ℕ}
  {apSub : ℕ → Bitvec}

theorem divides_sub (hdiv : divisor ≠ 0) :
    Divides L (mk size nSet divisor aBitmap aHash apSub) i ↔
      Divides L (apSub (i / divisor)) (i % divisor) := by
  rw [Divides, if_pos hdiv]

theorem divides_leaf :
    Divides L (mk size nSet 0 aBitmap aHash apSub) i ↔
      L.bitvecNbit < size ∧ L.bitvecMxhash ≤ nSet ∧ ¬ Holds L.bitvecNint aHash (i + 1) ∧
        ¬ (aHash (L.bitvecHash i) = 0 ∧ nSet < L.bitvecNint - 1) := by
  rw [Divides, if_neg (not_not.mpr rfl)]

theorem not_divides_create (j : ℕ) : ¬ Divides L (sqlite3BitvecCreate size) j := by
  rw [sqlite3BitvecCreate, divides_leaf]
  rintro ⟨-, hle, -, -⟩
  have := L.numbers
  omega

/-- The bit belongs into a sub-vector that is there. -/
theorem setFrom_down (hdiv : divisor ≠ 0) (hbit : L.bitvecNbit < size)
    (hq : apSub (i / divisor) ≠ null) :
    setFrom L ok (fuel + 1) (mk size nSet divisor aBitmap aHash apSub) i n =
      (setFrom L ok fuel (apSub (i / divisor)) (i % divisor) n).map fun r => r.inside fun q =>
        mk size nSet divisor aBitmap aHash (Function.update apSub (i / divisor) q) := by
  rw [setFrom, if_pos ⟨hbit, hdiv⟩]
  cases h : apSub (i / divisor) with
  | null => exact absurd h hq
  | mk => simp only [h]

/-- The bit belongs into a sub-vector that is not there. -/
theorem setFrom_create (hdiv : divisor ≠ 0) (hbit : L.bitvecNbit < size)
    (hq : apSub (i / divisor) = null) :
    setFrom L ok (fuel + 1) (mk size nSet divisor aBitmap aHash apSub) i n =
      if ok n then
        (setFrom L ok fuel (sqlite3BitvecCreate divisor) (i % divisor) (n + 1)).map fun r =>
          r.inside fun q =>
            mk size nSet divisor aBitmap aHash (Function.update apSub (i / divisor) q)
      else some ⟨mk size nSet divisor aBitmap aHash apSub, true, n + 1⟩ := by
  rw [setFrom, if_pos ⟨hbit, hdiv⟩]
  simp only [hq]

variable (ok fuel n) in
/-- No allocation is made for a bit of a bitmap or a hash table, unless the table is divided. -/
theorem setFrom_leaf (h : Inv L (mk size nSet 0 aBitmap aHash apSub))
    (hnot : ¬ Divides L (mk size nSet 0 aBitmap aHash apSub) i) :
    ∃ q, q.iDivisor = 0 ∧
      Bitvec.setFrom L (fuel + 1) (mk size nSet 0 aBitmap aHash apSub) i = some q ∧
      setFrom L ok (fuel + 1) (mk size nSet 0 aBitmap aHash apSub) i n = some ⟨q, false, n⟩ := by
  have hzero : ¬ (L.bitvecNbit < size ∧ 0 ≠ 0) := fun hand => hand.2 rfl
  rw [setFrom, Bitvec.setFrom, if_neg hzero, if_neg hzero]
  rcases le_or_gt size L.bitvecNbit with hbit | hbit
  · rw [if_pos hbit, if_pos hbit]
    exact ⟨_, rfl, rfl, rfl⟩
  have hok := h.2
  rw [if_neg (not_not.mpr rfl)] at hok
  rw [divides_leaf] at hnot
  obtain ⟨s, -, hprobe, -, hfound, -⟩ := (hok hbit).find i
  rw [if_neg (not_le.mpr hbit), if_neg (not_le.mpr hbit), hprobe, Option.bind_some,
    Option.bind_some]
  by_cases hfirst : aHash (L.bitvecHash i) = 0 ∧ nSet < L.bitvecNint - 1
  · rw [if_pos hfirst, if_pos hfirst]
    exact ⟨_, rfl, rfl, rfl⟩
  rw [if_neg hfirst, if_neg hfirst]
  by_cases hin : aHash s = i + 1
  · rw [if_pos hin, if_pos hin]
    exact ⟨_, rfl, rfl, rfl⟩
  have hfull : ¬ L.bitvecMxhash ≤ nSet := fun hle =>
    hnot ⟨hbit, hle, fun hold => hin (hfound.mpr hold), hfirst⟩
  rw [if_neg hin, if_neg hin, if_neg hfull, if_neg hfull]
  exact ⟨_, rfl, rfl, rfl⟩

theorem within_leaf {q : Bitvec} (hzero : q.iDivisor = 0) (h : ∀ j, Mem L q j → j < q.iSize) :
    Within L q := by
  cases q with
  | null => trivial
  | mk => exact ⟨h, fun hdiv => absurd hzero hdiv⟩

variable (L) in
/-- The vector that is divided, when it is still empty. -/
def divided (size nSet : ℕ) : Bitvec :=
  mk size nSet ((size + L.bitvecNptr - 1) / L.bitvecNptr) (fun _ => 0) (fun _ => 0) fun _ => null

variable (L ok) in
/-- The loop that sets the saved values again. -/
def resets (fuel : ℕ) (aHash : ℕ → ℕ) (js : List ℕ) (r : Outcome) : Option Outcome :=
  js.foldlM
    (fun r j =>
      if aHash j ≠ 0 then
        (setFrom L ok fuel r.vec (aHash j - 1) r.next).map fun r' =>
          { r' with nomem := r.nomem || r'.nomem }
      else some r) r

/-- The table is divided. -/
theorem setFrom_divides (h : Inv L (mk size nSet 0 aBitmap aHash apSub))
    (hdiv : Divides L (mk size nSet 0 aBitmap aHash apSub) i) :
    setFrom L ok (fuel + 1) (mk size nSet 0 aBitmap aHash apSub) i n =
      if ok n then
        (setFrom L ok fuel (divided L size nSet) i (n + 1)).bind
          (resets L ok fuel aHash (List.range L.bitvecNint))
      else some ⟨mk size nSet 0 aBitmap aHash apSub, true, n + 1⟩ := by
  obtain ⟨hbit, hfull, hnew, hfirst⟩ := divides_leaf.mp hdiv
  have hok := h.2
  rw [if_neg (not_not.mpr rfl)] at hok
  obtain ⟨s, -, hprobe, -, hfound, -⟩ := (hok hbit).find i
  have hzero : ¬ (L.bitvecNbit < size ∧ 0 ≠ 0) := fun hand => hand.2 rfl
  rw [setFrom, if_neg hzero, if_neg (not_le.mpr hbit), if_neg hfirst, hprobe, Option.bind_some,
    if_neg fun hin => hnew (hfound.mp hin), if_pos hfull]
  rfl

theorem resets_cons (j : ℕ) (js : List ℕ) (r : Outcome) :
    resets L ok fuel aHash (j :: js) r =
      (if aHash j ≠ 0 then
        (setFrom L ok fuel r.vec (aHash j - 1) r.next).map fun r' =>
          { r' with nomem := r.nomem || r'.nomem }
      else some r).bind (resets L ok fuel aHash js) := List.foldlM_cons

theorem inv_divided (hbit : L.bitvecNbit < size) : Inv L (divided L size nSet) := by
  have hpos := iDivisor_lt hbit
  exact (inv_sub (by omega)).mpr ⟨by omega, hbit, rfl, fun _ => ⟨trivial, Or.inl rfl⟩⟩

theorem not_mem_divided (hbit : L.bitvecNbit < size) (j : ℕ) :
    ¬ Mem L (divided L size nSet) j := by
  have hpos := iDivisor_lt hbit
  rw [divided, mem_sub (by omega)]
  exact id

theorem within_divided (hbit : L.bitvecNbit < size) : Within L (divided L size nSet) :=
  ⟨fun j hj => absurd hj (not_mem_divided hbit j), fun _ _ => trivial⟩

theorem rank_divided (hbit : L.bitvecNbit < size) : rank (divided L size nSet) = 2 * size := by
  have hpos := iDivisor_lt hbit
  rw [rank, divided, iDivisor, if_neg (by omega)]
  rfl

end Cases

/-! ### While memory lasts -/

variable {p : Bitvec} {i n fuel : ℕ} {r : Outcome}

/-- The table is divided, when every allocation succeeds. -/
theorem setFrom_divides_eq {size nSet : ℕ} {aBitmap : ℕ → UInt8} {aHash : ℕ → ℕ}
    {apSub : ℕ → Bitvec} (h : Inv L (mk size nSet 0 aBitmap aHash apSub))
    (hdiv : Divides L (mk size nSet 0 aBitmap aHash apSub) i) :
    Bitvec.setFrom L (fuel + 1) (mk size nSet 0 aBitmap aHash apSub) i =
      (Bitvec.setFrom L fuel (divided L size nSet) i).bind fun p =>
        (List.range L.bitvecNint).foldlM
          (fun p j => if aHash j ≠ 0 then Bitvec.setFrom L fuel p (aHash j - 1) else some p) p := by
  obtain ⟨hbit, hfull, hnew, hfirst⟩ := divides_leaf.mp hdiv
  have hok := h.2
  rw [if_neg (not_not.mpr rfl)] at hok
  obtain ⟨s, -, hprobe, -, hfound, -⟩ := (hok hbit).find i
  have hzero : ¬ (L.bitvecNbit < size ∧ 0 ≠ 0) := fun hand => hand.2 rfl
  rw [Bitvec.setFrom, if_neg hzero, if_neg (not_le.mpr hbit), if_neg hfirst, hprobe,
    Option.bind_some, if_neg fun hin => hnew (hfound.mp hin), if_pos hfull]
  rfl

/-- A call all of whose allocations succeed. -/
def Succeeds (L : Layout) (ok : ℕ → Bool) (fuel : ℕ) (p : Bitvec) (i n : ℕ) : Prop :=
  ∃ q n', n ≤ n' ∧ setFrom L ok fuel p i n = some ⟨q, false, n'⟩ ∧
    Bitvec.setFrom L fuel p i = some q

theorem resets_succeeds {aHash : ℕ → ℕ} (size : ℕ)
    (ih : ∀ p i n, (∀ k ≥ n, ok k = true) → Inv L p → i < p.iSize → rank p ≤ fuel →
      Succeeds L ok fuel p i n)
    (js : List ℕ) (hjs : ∀ j ∈ js, aHash j ≤ size) (hok : ∀ k ≥ r.next, ok k = true)
    (h : Inv L r.vec) (hsize : r.vec.iSize = size) (hrank : rank r.vec ≤ fuel) :
    ∃ q n', r.next ≤ n' ∧ resets L ok fuel aHash js r = some ⟨q, r.nomem, n'⟩ ∧
      js.foldlM (fun p j => if aHash j ≠ 0 then Bitvec.setFrom L fuel p (aHash j - 1) else some p)
        r.vec = some q := by
  induction js generalizing r with
  | nil => exact ⟨r.vec, r.next, le_rfl, rfl, rfl⟩
  | cons j js ihjs =>
    obtain ⟨hj, hjs⟩ := List.forall_mem_cons.mp hjs
    rw [resets_cons, List.foldlM_cons]
    by_cases h0 : aHash j ≠ 0
    · have hlt : aHash j - 1 < r.vec.iSize := by omega
      obtain ⟨q, n', hn, hrun, heq⟩ := ih r.vec (aHash j - 1) r.next hok h hlt hrank
      obtain ⟨q', hq', hset⟩ := Bitvec.setFrom_spec fuel r.vec (aHash j - 1) h hlt hrank
      obtain rfl := Option.some.inj (heq.symm.trans hq')
      obtain ⟨q', n'', hn', hrun', heq'⟩ := ihjs hjs (r := ⟨q, r.nomem, n'⟩)
        (fun k hk => hok k (hn.trans hk)) hset.inv (hset.iSize_eq.trans hsize)
        (hset.rank_le.trans hrank)
      refine ⟨q', n'', hn.trans hn', ?_, ?_⟩
      · rw [if_pos h0, hrun, Option.map_some, Bool.or_false]
        exact hrun'
      · rw [if_pos h0, heq]
        exact heq'
    · rw [if_neg h0, if_neg h0]
      exact ihjs hjs hok h hsize hrank

/-- **Setting a bit while memory lasts.** The code does what it does when no allocation can fail. -/
theorem setFrom_succeeds (fuel : ℕ) (p : Bitvec) (i n : ℕ) (hok : ∀ k ≥ n, ok k = true)
    (h : Inv L p) (hi : i < p.iSize) (hrank : rank p ≤ fuel) : Succeeds L ok fuel p i n := by
  induction fuel generalizing p i n with
  | zero =>
    rw [rank] at hrank
    omega
  | succ fuel ih =>
    cases p with
    | null => exact absurd hi (Nat.not_lt_zero i)
    | mk size nSet divisor aBitmap aHash apSub =>
      replace hi : i < size := hi
      rcases eq_or_ne divisor 0 with rfl | hdiv
      case inr =>
        obtain ⟨hbit, hsub, hle⟩ := inv_node hdiv h hrank
        have hmod : i % divisor < divisor := Nat.mod_lt _ (Nat.pos_of_ne_zero hdiv)
        have hold : Bitvec.setFrom L (fuel + 1) (mk size nSet divisor aBitmap aHash apSub) i =
            (Bitvec.setFrom L fuel (orCreate divisor (apSub (i / divisor))) (i % divisor)).map
              fun q => mk size nSet divisor aBitmap aHash
                (Function.update apSub (i / divisor) q) := by
          rw [Bitvec.setFrom, if_pos ⟨hbit, hdiv⟩]
        obtain ⟨hq, hqsize⟩ := hsub (i / divisor)
        by_cases hnull : apSub (i / divisor) = null
        · obtain ⟨q, n', hn, hrun, heq⟩ := ih (sqlite3BitvecCreate divisor) (i % divisor) (n + 1)
            (fun k hk => hok k (by omega)) (inv_create (Nat.pos_of_ne_zero hdiv)) hmod (hle _ rfl)
          refine ⟨mk size nSet divisor aBitmap aHash (Function.update apSub (i / divisor) q), n',
            by omega, ?_, ?_⟩
          · rw [setFrom_create hdiv hbit hnull, if_pos (hok n le_rfl), hrun]
            rfl
          · rw [hold, hnull, orCreate, heq]
            rfl
        · replace hqsize := hqsize.resolve_left hnull
          obtain ⟨q, n', hn, hrun, heq⟩ := ih (apSub (i / divisor)) (i % divisor) n hok hq
            (hqsize.symm ▸ hmod) (hle _ hqsize)
          have hcreate : orCreate divisor (apSub (i / divisor)) = apSub (i / divisor) := by
            cases hc : apSub (i / divisor) with
            | null => exact absurd hc hnull
            | mk => rfl
          refine ⟨mk size nSet divisor aBitmap aHash (Function.update apSub (i / divisor) q), n',
            hn, ?_, ?_⟩
          · rw [setFrom_down hdiv hbit hnull, hrun]
            rfl
          · rw [hold, hcreate, heq]
            rfl
      case inl =>
        by_cases hdivides : Divides L (mk size nSet 0 aBitmap aHash apSub) i
        · rw [Succeeds, setFrom_divides h hdivides, if_pos (hok n le_rfl),
            setFrom_divides_eq h hdivides]
          have hbit := (divides_leaf.mp hdivides).1
          have hhash := h.2
          rw [if_neg (not_not.mpr rfl)] at hhash
          have hrankd : rank (divided L size nSet) ≤ fuel := by
            rw [rank, iDivisor, if_pos rfl] at hrank
            rw [rank_divided hbit]
            exact Nat.le_of_succ_le_succ hrank
          obtain ⟨q, n', hn, hrun, heq⟩ := ih _ i (n + 1) (fun k hk => hok k (by omega))
            (inv_divided hbit) hi hrankd
          obtain ⟨q', hq', hset⟩ := Bitvec.setFrom_spec fuel _ i (inv_divided hbit) hi hrankd
          obtain rfl := Option.some.inj (heq.symm.trans hq')
          obtain ⟨q', n'', hn', hrun', heq'⟩ := resets_succeeds size ih (List.range L.bitvecNint)
            (r := ⟨q, false, n'⟩)
            (fun j hj => (hhash hbit).le_iSize j (List.mem_range.mp hj))
            (fun k hk => hok k (by change n' ≤ k at hk; omega)) hset.inv hset.iSize_eq
            (hset.rank_le.trans hrankd)
          refine ⟨q', n'', by change n' ≤ n'' at hn'; omega, ?_, ?_⟩
          · rw [hrun]
            exact hrun'
          · rw [heq]
            exact heq'
        · obtain ⟨q, -, hq, hrun⟩ := setFrom_leaf ok fuel n h hdivides
          exact ⟨q, n, le_rfl, hrun, hq⟩

/-! ### One call -/

/-- If the table has to be divided, either the array that saves it cannot be allocated, or nothing
fails after the first sub-vector. -/
def Safe (L : Layout) (ok : ℕ → Bool) (p : Bitvec) (i n : ℕ) : Prop :=
  Divides L p i → ok n = false ∨ ∀ k ≥ n + 2, ok k = true

/-- A call that tried to set bit `i`. -/
structure Tried (L : Layout) (ok : ℕ → Bool) (p : Bitvec) (i n : ℕ) (r : Outcome) : Prop where
  inv : Inv L r.vec
  iSize_eq : r.vec.iSize = p.iSize
  rank_le : rank r.vec ≤ rank p
  only : ∀ j, Mem L r.vec j → j = i ∨ Mem L p j
  within : Within L p → Within L r.vec
  keeps : Safe L ok p i n → ∀ j, Mem L p j → Mem L r.vec j

theorem Tried.refl (h : Inv L p) (b : Bool) (n' : ℕ) : Tried L ok p i n ⟨p, b, n'⟩ :=
  ⟨h, rfl, le_rfl, fun _ => Or.inr, id, fun _ _ => id⟩

theorem resets_spec {aHash : ℕ → ℕ} (size : ℕ)
    (ih : ∀ p i n, Inv L p → i < p.iSize → rank p ≤ fuel →
      ∃ r, setFrom L ok fuel p i n = some r ∧ Tried L ok p i n r)
    (js : List ℕ) (hjs : ∀ j ∈ js, aHash j ≤ size) (h : Inv L r.vec) (hsize : r.vec.iSize = size)
    (hrank : rank r.vec ≤ fuel) (hwithin : Within L r.vec) :
    ∃ r', resets L ok fuel aHash js r = some r' ∧ Inv L r'.vec ∧ r'.vec.iSize = size ∧
      rank r'.vec ≤ rank r.vec ∧ Within L r'.vec ∧
      ∀ x, Mem L r'.vec x → Mem L r.vec x ∨ ∃ j ∈ js, aHash j = x + 1 := by
  induction js generalizing r with
  | nil => exact ⟨r, rfl, h, hsize, le_rfl, hwithin, fun x => Or.inl⟩
  | cons j js ihjs =>
    obtain ⟨hj, hjs⟩ := List.forall_mem_cons.mp hjs
    rw [resets_cons]
    by_cases h0 : aHash j ≠ 0
    · obtain ⟨q, hq, ht⟩ := ih r.vec (aHash j - 1) r.next h (by omega) hrank
      obtain ⟨r', hrun, hinv, hsize', hrank', hwithin', honly⟩ :=
        ihjs hjs (r := { q with nomem := r.nomem || q.nomem }) ht.inv (ht.iSize_eq.trans hsize)
          (ht.rank_le.trans hrank) (ht.within hwithin)
      refine ⟨r', ?_, hinv, hsize', hrank'.trans ht.rank_le, hwithin', fun x hx => ?_⟩
      · rw [if_pos h0, hq]
        exact hrun
      · rw [List.exists_mem_cons_iff]
        rcases honly x hx with hin | hin
        · rcases ht.only x hin with rfl | hin
          · exact Or.inr (Or.inl (by omega))
          · exact Or.inl hin
        · exact Or.inr (Or.inr hin)
    · obtain ⟨r', hrun, hinv, hsize', hrank', hwithin', honly⟩ := ihjs hjs h hsize hrank hwithin
      refine ⟨r', ?_, hinv, hsize', hrank', hwithin', fun x hx => ?_⟩
      · rw [if_neg h0]
        exact hrun
      · rw [List.exists_mem_cons_iff]
        exact (honly x hx).imp_right Or.inr

/-- The bit belongs into a sub-vector, where the call `r` tried to set it. -/
theorem tried_inside {size nSet divisor : ℕ} {aBitmap : ℕ → UInt8} {aHash : ℕ → ℕ}
    {apSub : ℕ → Bitvec} {q : Bitvec} (hdiv : divisor ≠ 0)
    (h : Inv L (mk size nSet divisor aBitmap aHash apSub)) {m : ℕ}
    (ht : Tried L ok q (i % divisor) m r)
    (hi : i < size) (hsize : q.iSize = divisor)
    (hmem : ∀ j, Mem L (apSub (i / divisor)) j ↔ Mem L q j)
    (hwithin : Within L (apSub (i / divisor)) → Within L q)
    (hsafe : Safe L ok (apSub (i / divisor)) (i % divisor) n → Safe L ok q (i % divisor) m) :
    Tried L ok (mk size nSet divisor aBitmap aHash apSub) i n (r.inside fun q =>
      mk size nSet divisor aBitmap aHash (Function.update apSub (i / divisor) q)) := by
  have honly : ∀ j, Mem L (mk size nSet divisor aBitmap aHash
      (Function.update apSub (i / divisor) r.vec)) j →
        j = i ∨ Mem L (mk size nSet divisor aBitmap aHash apSub) j := fun j hj => by
    rw [mem_sub hdiv] at hj
    rw [mem_sub hdiv]
    rcases eq_or_ne (j / divisor) (i / divisor) with hbin | hbin
    · rw [hbin, Function.update_self] at hj
      rw [hbin, hmem]
      exact (ht.only _ hj).imp_left (eq_of_div_mod hbin)
    · rw [Function.update_of_ne hbin] at hj
      exact Or.inr hj
  refine ⟨inv_sub_update hdiv h ht.inv (Or.inr (ht.iSize_eq.trans hsize)) _, rfl, le_rfl, honly,
    fun hw => ⟨fun j hj => (honly j hj).elim (fun heq => heq ▸ hi) (hw.1 j), fun _ b => ?_⟩,
    fun hs j hj => ?_⟩
  · rcases eq_or_ne b (i / divisor) with rfl | hne
    · rw [Function.update_self]
      exact ht.within (hwithin (hw.2 hdiv _))
    · rw [Function.update_of_ne hne]
      exact hw.2 hdiv b
  · rw [Safe, divides_sub hdiv] at hs
    rw [mem_sub hdiv] at hj
    change Mem L (mk size nSet divisor aBitmap aHash (Function.update _ _ _)) j
    rw [mem_sub hdiv]
    rcases eq_or_ne (j / divisor) (i / divisor) with hbin | hbin
    · rw [hbin] at hj
      rw [hbin, Function.update_self]
      exact ht.keeps (hsafe hs) _ ((hmem _).mp hj)
    · rwa [Function.update_of_ne hbin]

/-- The first bit in the divided vector takes one allocation. -/
theorem setFrom_first {size nSet : ℕ} (hbit : L.bitvecNbit < size)
    (hfuel : rank (divided L size nSet) ≤ fuel)
    (hrun : setFrom L ok fuel (divided L size nSet) i n = some r) : r.next = n + 1 := by
  have hnum := L.numbers
  obtain ⟨hpos, hsmall⟩ := iDivisor_lt hbit
  rw [rank_divided hbit] at hfuel
  obtain ⟨fuel, rfl⟩ : ∃ k, fuel = k + 2 := ⟨fuel - 2, by omega⟩
  rw [divided, setFrom_create (by omega) hbit rfl] at hrun
  split at hrun
  case isFalse => exact congrArg Outcome.next (Option.some.inj hrun).symm
  case isTrue =>
    obtain ⟨q, -, -, hq⟩ := setFrom_leaf ok fuel (n + 1) (inv_create (L := L) hpos)
      (not_divides_create (i % ((size + L.bitvecNptr - 1) / L.bitvecNptr)))
    rw [sqlite3BitvecCreate, hq, Option.map_some] at hrun
    exact congrArg Outcome.next (Option.some.inj hrun).symm

variable (ok) in
/-- **Setting a bit.** Whatever allocations fail, the vector is one, and unless a table had to be
divided all its bits are there. -/
theorem setFrom_spec (fuel : ℕ) (p : Bitvec) (i n : ℕ) (h : Inv L p) (hi : i < p.iSize)
    (hrank : rank p ≤ fuel) : ∃ r, setFrom L ok fuel p i n = some r ∧ Tried L ok p i n r := by
  induction fuel generalizing p i n with
  | zero =>
    rw [rank] at hrank
    omega
  | succ fuel ih =>
    cases p with
    | null => exact absurd hi (Nat.not_lt_zero i)
    | mk size nSet divisor aBitmap aHash apSub =>
      replace hi : i < size := hi
      rcases eq_or_ne divisor 0 with rfl | hdiv
      case inr =>
        obtain ⟨hbit, hsub, hle⟩ := inv_node hdiv h hrank
        have hmod : i % divisor < divisor := Nat.mod_lt _ (Nat.pos_of_ne_zero hdiv)
        obtain ⟨hq, hqsize⟩ := hsub (i / divisor)
        by_cases hnull : apSub (i / divisor) = null
        · rw [setFrom_create hdiv hbit hnull]
          split
          case isTrue =>
            obtain ⟨r, hrun, ht⟩ := ih (sqlite3BitvecCreate divisor) (i % divisor) (n + 1)
              (inv_create (Nat.pos_of_ne_zero hdiv)) hmod (hle _ rfl)
            rw [hrun, Option.map_some]
            refine ⟨_, rfl, tried_inside hdiv h ht hi rfl (fun j => ?_) (fun _ => ?_) ?_⟩
            · rw [hnull]
              exact iff_of_false id (not_mem_create _ _)
            · exact within_create divisor
            · exact fun _ hd => absurd hd (not_divides_create _)
          case isFalse => exact ⟨_, rfl, Tried.refl h _ _⟩
        · replace hqsize := hqsize.resolve_left hnull
          obtain ⟨r, hrun, ht⟩ := ih (apSub (i / divisor)) (i % divisor) n hq (hqsize.symm ▸ hmod)
            (hle _ hqsize)
          rw [setFrom_down hdiv hbit hnull, hrun, Option.map_some]
          exact ⟨_, rfl, tried_inside hdiv h ht hi hqsize (fun j => Iff.rfl) id id⟩
      case inl =>
        by_cases hdivides : Divides L (mk size nSet 0 aBitmap aHash apSub) i
        · have hbit := (divides_leaf.mp hdivides).1
          have hhash := h.2
          rw [if_neg (not_not.mpr rfl)] at hhash
          have hle : ∀ j ∈ List.range L.bitvecNint, aHash j ≤ size := fun j hj =>
            (hhash hbit).le_iSize j (List.mem_range.mp hj)
          have hrankd : rank (divided L size nSet) ≤ fuel := by
            rw [rank, iDivisor, if_pos rfl] at hrank
            rw [rank_divided hbit]
            exact Nat.le_of_succ_le_succ hrank
          rw [setFrom_divides h hdivides]
          split
          case isFalse => exact ⟨_, rfl, Tried.refl h _ _⟩
          case isTrue hn =>
          obtain ⟨q, hq, ht⟩ := ih _ i (n + 1) (inv_divided hbit) hi hrankd
          obtain ⟨r', hrun, hinv, hsize', hrank', hwithin, honly⟩ := resets_spec size ih
            (List.range L.bitvecNint) hle ht.inv ht.iSize_eq (ht.rank_le.trans hrankd)
            (ht.within (within_divided hbit))
          refine ⟨r', by rw [hq]; exact hrun, hinv, hsize', ?_, fun j hj => ?_, fun _ => hwithin,
            fun hs j hj => ?_⟩
          · refine (hrank'.trans ht.rank_le).trans ?_
            rw [rank_divided hbit]
            exact Nat.le_add_right _ _
          · rw [mem_hash hbit]
            rcases honly j hj with hin | ⟨t, ht', hval⟩
            · exact (ht.only j hin).imp_right fun hin => absurd hin (not_mem_divided hbit j)
            · exact Or.inr ⟨t, List.mem_range.mp ht', hval⟩
          · -- nothing fails after the first sub-vector, and all values are set again
            have hnext : q.next = n + 2 := setFrom_first hbit hrankd hq
            have hall : ∀ k ≥ q.next, ok k = true := fun k hk =>
              (hs hdivides).resolve_left (ne_false_of_eq_true hn) k (hnext ▸ hk)
            have hrankq := ht.rank_le.trans hrankd
            obtain ⟨q', n', -, hrun', heq⟩ := resets_succeeds size (setFrom_succeeds fuel)
              (List.range L.bitvecNint) hle hall ht.inv ht.iSize_eq hrankq
            obtain ⟨p', hp', -, -, -, hmem⟩ := foldlM_spec size (Bitvec.setFrom_spec fuel)
              (List.range L.bitvecNint) hle ht.inv ht.iSize_eq hrankq
            obtain rfl := Option.some.inj (heq.symm.trans hp')
            obtain rfl := Option.some.inj (hrun'.symm.trans hrun)
            rw [mem_hash hbit] at hj
            obtain ⟨t, ht, hval⟩ := hj
            exact (hmem j).mpr (Or.inr ⟨t, List.mem_range.mpr ht, hval⟩)
        · obtain ⟨q, hzero, hq, hrun⟩ := setFrom_leaf ok fuel n h hdivides
          obtain ⟨q', hq', hset⟩ := Bitvec.setFrom_spec (fuel + 1) _ i h hi hrank
          obtain rfl := Option.some.inj (hq.symm.trans hq')
          refine ⟨_, hrun, hset.inv, hset.iSize_eq, hset.rank_le, fun j hj => (hset.mem j).mp hj,
            fun hw => within_leaf hzero fun j hj => ?_, fun _ j hj => (hset.mem j).mpr (Or.inr hj)⟩
          rw [hset.iSize_eq]
          rcases (hset.mem j).mp hj with rfl | hold
          · exact hi
          · exact hw.lt hold

/-! ### What is lost -/

/-- Nothing goes into the divided vector while no sub-vector can be created. -/
theorem setFrom_fresh {size nSet : ℕ} (hbit : L.bitvecNbit < size) (hn : ok n = false) :
    setFrom L ok (fuel + 1) (divided L size nSet) i n =
      some ⟨divided L size nSet, true, n + 1⟩ := by
  have hpos := iDivisor_lt hbit
  rw [divided, setFrom_create (by omega) hbit rfl, if_neg (hn ▸ Bool.false_ne_true)]

theorem resets_fresh (fuel nSet : ℕ) (aHash : ℕ → ℕ) {size : ℕ} (hbit : L.bitvecNbit < size)
    (js : List ℕ) (hn : ∀ k ≥ n, ok k = false) :
    ∃ n', resets L ok (fuel + 1) aHash js ⟨divided L size nSet, true, n⟩ =
      some ⟨divided L size nSet, true, n'⟩ := by
  induction js generalizing n with
  | nil => exact ⟨n, rfl⟩
  | cons j js ih =>
    rw [resets_cons]
    split
    case isTrue =>
      obtain ⟨n', hrun⟩ := ih (n := n + 1) fun k hk => hn k (by omega)
      refine ⟨n', ?_⟩
      rw [setFrom_fresh hbit (hn n le_rfl)]
      exact hrun
    case isFalse => exact ih hn

/-- **Losing bits.** A table is divided, and after the array that saves it nothing can be
allocated. -/
theorem setFrom_loses (fuel : ℕ) (p : Bitvec) (i : ℕ) (h : Inv L p) (hdivides : Divides L p i)
    (hwithin : Within L p) (hrank : rank p ≤ fuel) (hn : ok n = true)
    (hno : ∀ k > n, ok k = false) :
    ∃ r, setFrom L ok fuel p i n = some r ∧ r.nomem = true ∧ ∃ j, Mem L p j ∧ ¬ Mem L r.vec j := by
  induction fuel generalizing p i with
  | zero =>
    cases p with
    | null => exact hdivides.elim
    | mk =>
      have hpos := h.1
      rw [rank, iSize] at hrank
      omega
  | succ fuel ih =>
    cases p with
    | null => exact hdivides.elim
    | mk size nSet divisor aBitmap aHash apSub =>
      rcases eq_or_ne divisor 0 with rfl | hdiv
      case inr =>
        obtain ⟨hpos, hbit, hdivisor, hsub⟩ := (inv_sub hdiv).mp h
        have hsmall : divisor < size := hdivisor ▸ (iDivisor_lt hbit).2
        rw [rank, iDivisor, if_neg hdiv, iSize] at hrank
        rw [divides_sub hdiv] at hdivides
        have hnull : apSub (i / divisor) ≠ null := fun hnull => by
          rw [hnull] at hdivides
          exact hdivides
        have hqsize := (hsub (i / divisor)).2.resolve_left hnull
        have hwsub := hwithin.2 hdiv (i / divisor)
        obtain ⟨r, hrun, hnomem, j, hj, hnot⟩ := ih _ _ (hsub (i / divisor)).1 hdivides hwsub
          ((rank_le _).trans (by rw [hqsize]; omega))
        rw [setFrom_down hdiv hbit hnull, hrun, Option.map_some]
        -- the bit that is lost, by its number in the whole vector
        have hlt : j < divisor := hqsize ▸ hwsub.lt hj
        have hquot : (divisor * (i / divisor) + j) / divisor = i / divisor := by
          rw [Nat.mul_add_div (by omega), Nat.div_eq_of_lt hlt, Nat.add_zero]
        have hmod : (divisor * (i / divisor) + j) % divisor = j := by
          rw [Nat.mul_add_mod, Nat.mod_eq_of_lt hlt]
        refine ⟨_, rfl, hnomem, divisor * (i / divisor) + j, ?_, ?_⟩
        · rwa [mem_sub hdiv, hquot, hmod]
        · change ¬ Mem L (mk size nSet divisor aBitmap aHash (Function.update _ _ _)) _
          rwa [mem_sub hdiv, hquot, hmod, Function.update_self]
      case inl =>
        have hhash := h.2
        rw [if_neg (not_not.mpr rfl)] at hhash
        obtain ⟨hbit, hfull, -, -⟩ := divides_leaf.mp hdivides
        have hnum := L.numbers
        obtain ⟨fuel, rfl⟩ : ∃ k, fuel = k + 1 := by
          rw [rank, iDivisor, if_pos rfl, iSize] at hrank
          exact ⟨fuel - 1, by omega⟩
        obtain ⟨n', hrun⟩ := resets_fresh fuel nSet aHash hbit (List.range L.bitvecNint)
          (n := n + 1 + 1) fun k hk => hno k (by omega)
        rw [setFrom_divides h hdivides, if_pos hn, setFrom_fresh hbit (hno (n + 1) (by omega))]
        refine ⟨_, hrun, rfl, ?_⟩
        obtain ⟨s, hs, hval⟩ : ∃ s < L.bitvecNint, aHash s ≠ 0 := by
          by_contra hnone
          have hzero : used L.bitvecNint aHash = 0 := by
            rw [used, Finset.card_eq_zero, Finset.filter_eq_empty_iff]
            exact fun s hs hne => hnone ⟨s, Finset.mem_range.mp hs, hne⟩
          have := (hhash hbit).nSet_eq
          omega
        refine ⟨aHash s - 1, ?_, ?_⟩
        · rw [mem_hash hbit]
          exact ⟨s, hs, by omega⟩
        · exact not_mem_divided hbit _

/-! ### Sequences of calls -/

theorem clearFrom_within (h : Inv L p) (hw : Within L p) (i : ℕ) {p' : Bitvec}
    (hrun : clearFrom L p i = some p') : Within L p' := by
  induction p generalizing i p' with
  | null =>
    obtain rfl := Option.some.inj hrun
    trivial
  | mk size nSet divisor aBitmap aHash apSub ih =>
    obtain ⟨q, hq, -, hsize, -, hmem⟩ := clearFrom_spec h i
    obtain rfl := Option.some.inj (hrun.symm.trans hq)
    have hlt : ∀ j, Mem L p' j → j < p'.iSize := fun j hj => by
      rw [hsize]
      exact hw.1 j ((hmem j).mp hj).2
    rw [clearFrom] at hrun
    split at hrun
    case isTrue hdiv =>
      obtain ⟨q, hsub, rfl⟩ := Option.map_eq_some_iff.mp hrun
      refine ⟨hlt, fun _ b => ?_⟩
      rcases eq_or_ne b (i / divisor) with rfl | hne
      · rw [Function.update_self]
        exact ih _ (((inv_sub hdiv).mp h).2.2.2 _).1 (hw.2 hdiv _) _ hsub
      · rw [Function.update_of_ne hne]
        exact hw.2 hdiv b
    case isFalse hdiv =>
      refine within_leaf ?_ hlt
      split at hrun
      · rw [← Option.some.inj hrun]
        exact not_not.mp hdiv
      · obtain ⟨s, -, rfl⟩ := Option.map_eq_some_iff.mp hrun
        exact not_not.mp hdiv

/-- A call that changes a vector; if it sets a bit, with the allocations that succeed. -/
inductive Call
  | set (i : ℕ) (ok : ℕ → Bool)
  | clear (i : ℕ)

/-- The bit the call is about. -/
def Call.bit : Call → ℕ
  | set i _ => i
  | clear i => i

variable (L) in
/-- One call. -/
def step (p : Bitvec) : Call → Option Bitvec
  | .set i ok => (sqlite3BitvecSet L ok p i).map Outcome.vec
  | .clear i => sqlite3BitvecClear L p i

/-- A vector of `iSize` bits after some calls. -/
def Reachable (L : Layout) (iSize : ℕ) (p : Bitvec) : Prop :=
  ∃ calls : List Call, (∀ c ∈ calls, 1 ≤ c.bit ∧ c.bit ≤ iSize) ∧
    calls.foldlM (step L) (sqlite3BitvecCreate iSize) = some p

/-- What holds between calls. -/
structure Sound (L : Layout) (iSize : ℕ) (p : Bitvec) : Prop where
  inv : Inv L p
  iSize_eq : p.iSize = iSize
  within : Within L p

variable {size : ℕ}

theorem Sound.set (h : Sound L size p) (hi : 1 ≤ i ∧ i ≤ size) (ok : ℕ → Bool) :
    ∃ r, sqlite3BitvecSet L ok p i = some r ∧ Tried L ok p (i - 1) 0 r ∧ Sound L size r.vec := by
  have hlt : i - 1 < p.iSize := by
    rw [h.iSize_eq]
    omega
  obtain ⟨r, hrun, ht⟩ := setFrom_spec ok (2 * p.iSize + 1) p (i - 1) 0 h.inv hlt
    (rank_le p)
  refine ⟨r, ?_, ht, ht.inv, ht.iSize_eq.trans h.iSize_eq, ht.within h.within⟩
  cases p with
  | null => exact absurd hlt (Nat.not_lt_zero _)
  | mk => exact hrun

/-- **One call.** -/
theorem step_sound (h : Sound L size p) (c : Call) (hc : 1 ≤ c.bit ∧ c.bit ≤ size) :
    ∃ p', step L p c = some p' ∧ Sound L size p' := by
  cases c with
  | set i ok =>
    obtain ⟨r, hrun, -, hs⟩ := h.set hc ok
    exact ⟨r.vec, congrArg (Option.map Outcome.vec) hrun, hs⟩
  | clear i =>
    obtain ⟨q, hq, hinv, hsize, -, -⟩ := clearFrom_spec h.inv (i - 1)
    exact ⟨q, hq, hinv, hsize.trans h.iSize_eq, clearFrom_within h.inv h.within _ hq⟩

/-- **A sequence of calls.** -/
theorem run_sound {calls : List Call} (hcalls : ∀ c ∈ calls, 1 ≤ c.bit ∧ c.bit ≤ size)
    (h : Sound L size p) : ∃ p', calls.foldlM (step L) p = some p' ∧ Sound L size p' := by
  induction calls generalizing p with
  | nil => exact ⟨p, rfl, h⟩
  | cons c calls ih =>
    obtain ⟨hc, hcalls⟩ := List.forall_mem_cons.mp hcalls
    obtain ⟨q, hq, hs⟩ := step_sound h c hc
    obtain ⟨p', hp', hs'⟩ := ih hcalls hs
    refine ⟨p', ?_, hs'⟩
    rw [List.foldlM_cons, hq]
    exact hp'

theorem Reachable.sound (h : Reachable L size p) (hpos : 0 < size) : Sound L size p := by
  obtain ⟨calls, hcalls, hrun⟩ := h
  obtain ⟨p', hp', hs⟩ := run_sound hcalls ⟨inv_create hpos, rfl, within_create size⟩
  exact Option.some.inj (hp'.symm.trans hrun) ▸ hs

theorem test_iff (h : Inv L p) (j : ℕ) :
    sqlite3BitvecTest L p j = some true ↔ 1 ≤ j ∧ j ≤ p.iSize ∧ Mem L p (j - 1) := by
  cases p with
  | null => exact iff_of_false nofun fun hand => hand.2.2
  | mk size nSet divisor aBitmap aHash apSub =>
    change (if size < j ∨ j = 0 then some false else testFrom L _ (j - 1)) = some true ↔
      1 ≤ j ∧ j ≤ size ∧ _
    split
    case isTrue hout => exact iff_of_false nofun fun hand => by omega
    case isFalse hin =>
      obtain ⟨b, hb, hiff⟩ := testFrom_spec h (j - 1)
      rw [hb, Option.some_inj, hiff]
      exact ⟨fun hmem => ⟨by omega, by omega, hmem⟩, fun hand => hand.2.2⟩

/-- A call that may have returned `SQLITE_NOMEM` leaves a vector behind, and has not lost a bit. -/
def Kept (L : Layout) (p : Bitvec) (o : Option Outcome) : Prop :=
  ∃ r, o = some r ∧ Inv L r.vec ∧ r.vec.iSize = p.iSize ∧
    (r.nomem = true → ∀ j, sqlite3BitvecTest L p j = some true →
      sqlite3BitvecTest L r.vec j = some true)

theorem Sound.kept (h : Sound L size p) (hi : 1 ≤ i ∧ i ≤ size) {ok : ℕ → Bool}
    (hsafe : Safe L ok p (i - 1) 0) : Kept L p (sqlite3BitvecSet L ok p i) := by
  obtain ⟨r, hrun, ht, hs⟩ := h.set hi ok
  refine ⟨r, hrun, ht.inv, ht.iSize_eq, fun _ j hj => ?_⟩
  rw [test_iff h.inv] at hj
  rw [test_iff ht.inv, ht.iSize_eq]
  exact ⟨hj.1, hj.2.1, ht.keeps hsafe _ hj.2.2⟩

/-- The array for the hash table can be allocated, but nothing after it. -/
def onlyFirst (k : ℕ) : Bool := k = 0

theorem Sound.not_kept (h : Sound L size p) (hdivides : Divides L p (i - 1)) :
    ¬ Kept L p (sqlite3BitvecSet L onlyFirst p i) := by
  obtain ⟨r, hrun, hnomem, j, hj, hnot⟩ := setFrom_loses (2 * p.iSize + 1) p (i - 1)
    h.inv hdivides h.within (rank_le p) (show onlyFirst 0 = true from rfl)
    fun k hk => decide_eq_false (by omega)
  have hset : sqlite3BitvecSet L onlyFirst p i = some r := by
    cases p with
    | null => exact hdivides.elim
    | mk => exact hrun
  rintro ⟨r', hr', hinv, -, hkeeps⟩
  obtain rfl := Option.some.inj (hset.symm.trans hr')
  have htest := (test_iff h.inv (j + 1)).mpr ⟨by omega, h.within.lt hj, hj⟩
  exact hnot ((test_iff hinv (j + 1)).mp (hkeeps hnomem _ htest)).2.2

/-- **Bits may be lost exactly when a hash table has to be divided.** After any calls with any
failures, setting bit `i` keeps all bits whatever fails, if and only if the table for bit `i` need
not be divided for it. Where it has to be, they are kept if the array that saves the table cannot be
allocated, or if nothing fails after the first sub-vector. In any case the vector stays one. -/
theorem kept_iff (L : Layout) {iSize i : ℕ} (_hmax : iSize ≤ 2 ^ 31 - 2) (hi : 1 ≤ i ∧ i ≤ iSize)
    {p : Bitvec} (hp : Reachable L iSize p) :
    ((∀ ok, Kept L p (sqlite3BitvecSet L ok p i)) ↔ ¬ Divides L p (i - 1)) ∧
      (∀ ok, Safe L ok p (i - 1) 0 → Kept L p (sqlite3BitvecSet L ok p i)) ∧
      ∀ ok, ∃ r, sqlite3BitvecSet L ok p i = some r ∧ Inv L r.vec := by
  have hs := hp.sound (by omega)
  refine ⟨⟨fun hall hdivides => hs.not_kept hdivides (hall onlyFirst), fun hnot ok => ?_⟩,
    fun ok hsafe => hs.kept hi hsafe, fun ok => ?_⟩
  · exact hs.kept hi fun hdivides => absurd hdivides hnot
  · obtain ⟨r, hrun, ht, -⟩ := hs.set hi ok
    exact ⟨r, hrun, ht.inv⟩

/-- The first `k` bits are set. -/
def firstBits (k : ℕ) : Bitvec :=
  mk 100000 k 0 (fun _ => 0) (fun s => if s < k then s + 1 else 0) fun _ => null

theorem reachable_firstBits {k : ℕ} (hk : k ≤ 100) : Reachable wide 100000 (firstBits k) := by
  refine ⟨(List.range k).map fun j => .set (j + 1) fun _ => true, ?_, ?_⟩
  · intro c hc
    obtain ⟨j, hj, rfl⟩ := List.mem_map.mp hc
    have := List.mem_range.mp hj
    change 1 ≤ j + 1 ∧ j + 1 ≤ 100000
    omega
  · induction k with
    | zero => rfl
    | succ k ih =>
      have hhome : wide.bitvecHash k = k := by
        change k * 1 % 124 = k
        omega
      have hempty : (if wide.bitvecHash k < k then wide.bitvecHash k + 1 else 0) = 0 ∧
          k < wide.bitvecNint - 1 := by
        rw [hhome, if_neg (lt_irrefl k)]
        exact ⟨rfl, by change k < 123; omega⟩
      have hstep : step wide (firstBits k) (.set (k + 1) fun _ => true) =
          some (firstBits (k + 1)) := by
        change (setFrom wide (fun _ => true) (2 * 100000 + 1) (firstBits k) k 0).map _ = _
        rw [firstBits, setFrom, if_neg (fun hand => hand.2 rfl), if_neg (by decide), if_pos hempty,
          Option.map_some, firstBits, hhome]
        refine congrArg some (congrArg (fun t => mk 100000 (k + 1) 0 _ t _) (funext fun s => ?_))
        rcases eq_or_ne s k with rfl | hne
        · rw [Function.update_self, if_pos (Nat.lt_succ_self s)]
        · rw [Function.update_of_ne hne]
          exact if_congr (by omega) rfl rfl
      rw [List.range_succ, List.map_append, List.foldlM_append, ih (by omega)]
      change (step wide (firstBits k) (.set (k + 1) fun _ => true)).bind _ = _
      rw [hstep]
      rfl

theorem divides_firstBits : Divides wide (firstBits 62) (125 - 1) := by
  refine divides_leaf.mpr ⟨by decide, by decide, ?_, by decide⟩
  rintro ⟨s, -, hs⟩
  change (if s < 62 then s + 1 else 0) = 125 at hs
  split at hs <;> omega

theorem kept_iff_firstBits :
    ((∀ ok, Kept wide (firstBits 62) (sqlite3BitvecSet wide ok (firstBits 62) 125)) ↔
        ¬ Divides wide (firstBits 62) (125 - 1)) ∧
      (∀ ok, Safe wide ok (firstBits 62) (125 - 1) 0 →
        Kept wide (firstBits 62) (sqlite3BitvecSet wide ok (firstBits 62) 125)) ∧
      ∀ ok, ∃ r, sqlite3BitvecSet wide ok (firstBits 62) 125 = some r ∧ Inv wide r.vec :=
  kept_iff wide (by decide) (by decide) (reachable_firstBits (by decide))

/-- With 62 bits in the table the next one that meets another divides it. -/
theorem not_forall_kept :
    ¬ ∀ p, Reachable wide 100000 p → ∀ i, 1 ≤ i ∧ i ≤ 100000 → ∀ ok,
      Kept wide p (sqlite3BitvecSet wide ok p i) := fun hall =>
  ((reachable_firstBits (by decide)).sound (by decide)).not_kept divides_firstBits
    (hall (firstBits 62) (reachable_firstBits (by decide)) 125 (by decide) onlyFirst)

end Alloc

end Bitvec

end SqliteVms

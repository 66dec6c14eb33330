import SqliteVms.Btree.FreeSet
import Mathlib.Algebra.Order.Interval.Finset.SuccPred
import Mathlib.Data.Nat.SuccPred

/-!
# The size of a file after auto-vacuum

`finalDbSize` computes, in 32-bit arithmetic, how many pages an auto-vacuum database has once its
free pages are gone. Pages of the pointer map go with the pages they describe, and the page with
the locking bytes stays where it is, as long as the file reaches it.

The reserved pages are those at multiples of `pagesPerMapPage` above page 2, and one more: the
locking page, or the page behind it where it is itself at such a multiple and has pushed the map
page up. So the ordinary pages can be counted by one division.

## Main definitions

* `finalDbSize` — the function
* `ordinaryPages` — the ordinary pages up to a page number

## Main results

* `ordinaryPages_eq` — their number
* `finalDbSize_exact` — exactly the free pages are gone
-/

namespace SqliteVms

namespace Btree

variable (g : Geom)

/-! ### The function -/

/-- `PTRMAP_ISPAGE(pBt, pgno) || pgno==PENDING_BYTE_PAGE(pBt)`. -/
def isReserved (pgno : ℕ) : Bool := isPtrmapPage g pgno || pgno == pendingBytePage g

/-- The last loop of `finalDbSize`. Page 1 is not reserved, so that it ends there at the latest. -/
def backOff : ℕ → ℕ
  | 0 => 0
  | n + 1 => if isReserved g (n + 1) then backOff n else n + 1

/-- `finalDbSize`, on 32-bit page numbers. -/
def finalDbSize (nOrig nFree : ℕ) : ℕ :=
  let nEntry := g.usableSize / 5
  let nPtrmap :=
    (((nFree : ℤ) - nOrig + ptrmapPageno g nOrig + nEntry) % 2 ^ 32).toNat / nEntry
  let nFin := (((nOrig : ℤ) - nFree - nPtrmap) % 2 ^ 32).toNat
  let nFin := if pendingBytePage g < nOrig ∧ nFin < pendingBytePage g
    then (((nFin : ℤ) - 1) % 2 ^ 32).toNat else nFin
  backOff g nFin

/-! ### Counting ordinary pages -/

/-- The number of pages from 1 to `n` that are neither map pages nor the locking page. -/
def ordinaryPages (n : ℕ) : ℕ := ((Finset.Icc 1 n).filter fun p => isReserved g p = false).card

/-- The reserved page that is not at a multiple: the locking page, or the map page it pushes up. -/
def oddPage : ℕ :=
  if (pendingBytePage g - 2) % pagesPerMapPage g = 0 then pendingBytePage g + 1
  else pendingBytePage g

variable {g}

theorem isReserved_eq_false {pgno : ℕ} :
    isReserved g pgno = false ↔ isPtrmapPage g pgno = false ∧ pgno ≠ pendingBytePage g := by
  rw [isReserved, Bool.or_eq_false_iff, beq_eq_false_iff_ne]

theorem pendingBytePage_ge (g : Geom) : 16385 ≤ pendingBytePage g := by
  have hpos : 0 < g.pageSize := by
    have := g.usable_ge
    have := g.usable_le
    omega
  have hdiv : 16384 ≤ 0x40000000 / g.pageSize := by
    rw [Nat.le_div_iff_mul_le hpos]
    have := g.page_le
    omega
  rw [pendingBytePage]
  omega

/-- The locking page is where the map page of `p` would be. -/
theorem map_eq_pending_iff {p : ℕ} :
    (p - 2) / pagesPerMapPage g * pagesPerMapPage g + 2 = pendingBytePage g ↔
      (pendingBytePage g - 2) % pagesPerMapPage g = 0 ∧
        (p - 2) / pagesPerMapPage g = (pendingBytePage g - 2) / pagesPerMapPage g := by
  have hP := pagesPerMapPage_ge g
  have hpend := pendingBytePage_ge g
  have hdiv := Nat.div_add_mod (pendingBytePage g - 2) (pagesPerMapPage g)
  generalize (p - 2) / pagesPerMapPage g = q
  constructor
  · intro h
    have hsub : pendingBytePage g - 2 = q * pagesPerMapPage g := by omega
    rw [hsub, Nat.mul_mod_left, Nat.mul_div_cancel _ (by omega)]
    exact ⟨rfl, rfl⟩
  · rintro ⟨hmod, rfl⟩
    rw [hmod, Nat.mul_comm] at hdiv
    omega

/-- **The reserved pages**: those at a multiple, and the odd one. -/
theorem isReserved_iff {p : ℕ} (hp : 2 ≤ p) :
    isReserved g p = true ↔ (p - 2) % pagesPerMapPage g = 0 ∨ p = oddPage g := by
  have hpend := pendingBytePage_ge g
  have hdiv := Nat.div_add_mod (p - 2) (pagesPerMapPage g)
  have hcomm := Nat.mul_comm (pagesPerMapPage g) ((p - 2) / pagesPerMapPage g)
  have hpdiv := Nat.div_add_mod (pendingBytePage g - 2) (pagesPerMapPage g)
  have hiff := map_eq_pending_iff (g := g) (p := p)
  rw [isReserved, Bool.or_eq_true, isPtrmapPage, beq_iff_eq, beq_iff_eq, ptrmapPageno_of_ge hp,
    oddPage]
  by_cases hat : (p - 2) / pagesPerMapPage g * pagesPerMapPage g + 2 = pendingBytePage g
  · obtain ⟨hmod, hq⟩ := hiff.mp hat
    rw [if_pos hat, if_pos hmod]
    omega
  · rw [if_neg hat]
    by_cases hmod : (pendingBytePage g - 2) % pagesPerMapPage g = 0
    · rw [if_pos hmod]
      -- the odd page has the locking page as its map position
      have hne : p ≠ pendingBytePage g ∧ p ≠ pendingBytePage g + 1 := by
        have hq : ∀ r < 2, p = pendingBytePage g + r →
            (p - 2) / pagesPerMapPage g = (pendingBytePage g - 2) / pagesPerMapPage g := by
          intro r hr heq
          have hP := pagesPerMapPage_ge g
          rw [hmod, Nat.add_zero] at hpdiv
          generalize (pendingBytePage g - 2) / pagesPerMapPage g = k at hpdiv ⊢
          rw [show p - 2 = pagesPerMapPage g * k + r by omega, Nat.mul_add_div (by omega),
            Nat.div_eq_of_lt (by omega), Nat.add_zero]
        exact ⟨fun h => hat (hiff.mpr ⟨hmod, hq 0 (by decide) h⟩),
          fun h => hat (hiff.mpr ⟨hmod, hq 1 (by decide) h⟩)⟩
      omega
    · rw [if_neg hmod]
      omega

theorem isReserved_one : isReserved g 1 = false := by
  have := pendingBytePage_ge g
  rw [isReserved_eq_false, isPtrmapPage, ptrmapPageno, if_pos (by decide), beq_eq_false_iff_ne]
  omega

theorem ordinaryPages_succ (n : ℕ) :
    ordinaryPages g (n + 1) = ordinaryPages g n + if isReserved g (n + 1) = true then 0 else 1 := by
  rw [ordinaryPages, ordinaryPages, ← Finset.insert_Icc_right_eq_Icc_add_one (Nat.le_add_left 1 n),
    Finset.filter_insert]
  split
  · rename_i h
    rw [if_neg (by rw [h]; simp), Finset.card_insert_of_notMem (by simp)]
  · rename_i h
    rw [if_pos (by simpa using h), Nat.add_zero]

/-- **The number of ordinary pages.** -/
theorem ordinaryPages_eq (n : ℕ) :
    ordinaryPages g n + (n + pagesPerMapPage g - 2) / pagesPerMapPage g
      + (if oddPage g ≤ n then 1 else 0) = n := by
  have hP := pagesPerMapPage_ge g
  have hpend := pendingBytePage_ge g
  have hodd : pendingBytePage g ≤ oddPage g := by
    rw [oddPage]
    split <;> omega
  have hoddMod : (oddPage g - 2) % pagesPerMapPage g ≠ 0 := by
    have hpdiv := Nat.div_add_mod (pendingBytePage g - 2) (pagesPerMapPage g)
    rw [oddPage]
    split
    · rename_i hmod
      rw [hmod, Nat.add_zero] at hpdiv
      rw [show pendingBytePage g + 1 - 2
          = pagesPerMapPage g * ((pendingBytePage g - 2) / pagesPerMapPage g) + 1 by omega,
        Nat.mul_add_mod, Nat.mod_eq_of_lt (by omega)]
      decide
    · assumption
  induction n with
  | zero =>
    rw [if_neg (by omega), Nat.div_eq_of_lt (by omega)]
    rfl
  | succ n ih =>
    have hstep : (n + 1 + pagesPerMapPage g - 2) / pagesPerMapPage g
        = (n + pagesPerMapPage g - 2) / pagesPerMapPage g
          + if pagesPerMapPage g ∣ n + pagesPerMapPage g - 2 + 1 then 1 else 0 := by
      rw [← Nat.succ_div, show n + 1 + pagesPerMapPage g - 2
        = n + pagesPerMapPage g - 2 + 1 by omega]
    rw [ordinaryPages_succ, hstep]
    rcases Nat.eq_zero_or_pos n with rfl | hn
    · rw [isReserved_one, if_neg Bool.false_ne_true,
        if_neg (show ¬ pagesPerMapPage g ∣ 0 + pagesPerMapPage g - 2 + 1 from
          Nat.not_dvd_of_pos_of_lt (by omega) (by omega)), if_neg (show ¬ oddPage g ≤ 0 + 1 by omega)]
      rw [if_neg (show ¬ oddPage g ≤ 0 by omega)] at ih
      omega
    · have hdvd : pagesPerMapPage g ∣ n + pagesPerMapPage g - 2 + 1 ↔
          (n + 1 - 2) % pagesPerMapPage g = 0 := by
        rw [show n + pagesPerMapPage g - 2 + 1 = (n + 1 - 2) + pagesPerMapPage g by omega,
          Nat.dvd_add_self_right, Nat.dvd_iff_mod_eq_zero]
      have hres := isReserved_iff (g := g) (p := n + 1) (by omega)
      by_cases hmul : (n + 1 - 2) % pagesPerMapPage g = 0
      · have hne : n + 1 ≠ oddPage g := fun h => hoddMod (h ▸ hmul)
        rw [if_pos (hres.mpr (Or.inl hmul)), if_pos (hdvd.mpr hmul)]
        split_ifs at ih ⊢ <;> omega
      · rw [if_neg (show ¬ pagesPerMapPage g ∣ n + pagesPerMapPage g - 2 + 1 from
          fun h => hmul (hdvd.mp h))]
        by_cases heq : n + 1 = oddPage g
        · rw [if_pos (hres.mpr (Or.inr heq))]
          split_ifs at ih ⊢ <;> omega
        · rw [if_neg fun h => (hres.mp h).elim hmul heq]
          split_ifs at ih ⊢ <;> omega

/-! ### Going back -/

/-- Going back over reserved pages passes no ordinary one. -/
theorem backOff_spec {n : ℕ} (hn : 1 ≤ n) :
    backOff g n ≤ n ∧ isReserved g (backOff g n) = false ∧
      ordinaryPages g (backOff g n) = ordinaryPages g n := by
  induction n with
  | zero => omega
  | succ n ih =>
    rw [backOff]
    split
    · rename_i h
      have hpos : 1 ≤ n := by
        rcases Nat.eq_zero_or_pos n with rfl | hpos
        · rw [isReserved_one] at h
          exact Bool.noConfusion h
        · exact hpos
      obtain ⟨hle, hres, hcount⟩ := ih hpos
      refine ⟨by omega, hres, ?_⟩
      rw [hcount, ordinaryPages_succ, if_pos h, Nat.add_zero]
    · rename_i h
      exact ⟨Nat.le_refl _, by simpa using h, rfl⟩

/-- Map positions up to `n`, when `n` is `u` short of the page before the next one. -/
theorem mapPositions_eq {n u w : ℕ} (hn : n + u = pagesPerMapPage g * w + 1)
    (hu : u < pagesPerMapPage g) : (n + pagesPerMapPage g - 2) / pagesPerMapPage g = w := by
  have hP := pagesPerMapPage_ge g
  rw [show n + pagesPerMapPage g - 2 = pagesPerMapPage g * w + (pagesPerMapPage g - 1 - u) by omega,
    Nat.mul_add_div (by omega), Nat.div_eq_of_lt (by omega), Nat.add_zero]

/-- The number of ordinary pages where the map positions are known. -/
theorem ordinaryPages_of_eq {n u w : ℕ} (hn : n + u = pagesPerMapPage g * w + 1)
    (hu : u < pagesPerMapPage g) :
    ordinaryPages g n + w + (if oddPage g ≤ n then 1 else 0) = n := by
  rw [← mapPositions_eq hn hu]
  exact ordinaryPages_eq n

/-! ### The arithmetic -/

/-- The 32-bit arithmetic of `finalDbSize` does not wrap around in the end: `d` is the sum that is
divided, and `x` the size without the free pages and the map pages to drop. -/
theorem finalDbSize_eq {nOrig nFree d x : ℕ} (h32 : nOrig < 2 ^ 32)
    (hd : (d : ℤ) = (nFree : ℤ) - nOrig + ptrmapPageno g nOrig + (g.usableSize / 5 : ℕ))
    (hd32 : d < 2 ^ 32) (hx : x + nFree + d / (g.usableSize / 5) = nOrig) (hpos : 1 ≤ x) :
    finalDbSize g nOrig nFree = backOff g
      (if pendingBytePage g < nOrig ∧ x < pendingBytePage g then x - 1 else x) := by
  have hsum : (((nFree : ℤ) - nOrig + ptrmapPageno g nOrig + (g.usableSize / 5 : ℕ)) % 2 ^ 32).toNat
      = d := by
    rw [← hd]
    omega
  have hfin : (((nOrig : ℤ) - nFree - (d / (g.usableSize / 5) : ℕ)) % 2 ^ 32).toNat = x := by
    generalize d / (g.usableSize / 5) = k at hx ⊢
    omega
  have hdec : (((x : ℤ) - 1) % 2 ^ 32).toNat = x - 1 := by
    omega
  rw [finalDbSize, hsum, hfin, hdec]

/-- What is known of the last page of a file: the map position before it, the distance from there,
and whether the map page was pushed up. -/
theorem nOrig_split {nOrig : ℕ} (h2 : 2 ≤ nOrig) (hres : isReserved g nOrig = false) :
    ∃ q s e, nOrig = pagesPerMapPage g * q + 2 + s ∧ e < s ∧ s < pagesPerMapPage g ∧
      ptrmapPageno g nOrig = pagesPerMapPage g * q + 2 + e ∧
      (e = 0 ∧ pagesPerMapPage g * q + 2 ≠ pendingBytePage g ∨
        e = 1 ∧ pagesPerMapPage g * q + 2 = pendingBytePage g ∧
          oddPage g = pendingBytePage g + 1) := by
  have hP := pagesPerMapPage_ge g
  have hdiv := Nat.div_add_mod (nOrig - 2) (pagesPerMapPage g)
  have hcomm := Nat.mul_comm (pagesPerMapPage g) ((nOrig - 2) / pagesPerMapPage g)
  have hmod : (nOrig - 2) % pagesPerMapPage g ≠ 0 ∧ nOrig ≠ oddPage g := by
    have := (isReserved_iff (g := g) h2).not.mp (by rw [hres]; exact Bool.false_ne_true)
    rwa [not_or] at this
  have hlt := Nat.mod_lt (nOrig - 2) (show 0 < pagesPerMapPage g by omega)
  have hiff := map_eq_pending_iff (g := g) (p := nOrig)
  by_cases hat : (nOrig - 2) / pagesPerMapPage g * pagesPerMapPage g + 2 = pendingBytePage g
  · have hodd : oddPage g = pendingBytePage g + 1 := by rw [oddPage, if_pos (hiff.mp hat).1]
    refine ⟨(nOrig - 2) / pagesPerMapPage g, (nOrig - 2) % pagesPerMapPage g, 1, by omega, ?_, hlt,
      ?_, Or.inr ⟨rfl, by omega, hodd⟩⟩
    · have := hmod.2
      omega
    · rw [ptrmapPageno_of_ge h2, if_pos hat]
      omega
  · refine ⟨(nOrig - 2) / pagesPerMapPage g, (nOrig - 2) % pagesPerMapPage g, 0, by omega, by omega,
      hlt, ?_, Or.inl ⟨rfl, by omega⟩⟩
    rw [ptrmapPageno_of_ge h2, if_neg hat]
    omega

/-- The odd page is the locking page or the page behind it. -/
theorem oddPage_eq : oddPage g = pendingBytePage g ∨
    oddPage g = pendingBytePage g + 1 ∧ (pendingBytePage g - 2) % pagesPerMapPage g = 0 := by
  rw [oddPage]
  split
  · rename_i h
    exact Or.inr ⟨rfl, h⟩
  · exact Or.inl rfl

/-- The division of `finalDbSize`: the quotient `k` is the number of map pages to drop, and what is
left, `x`, lies `u` pages before the one in front of a map position, or one page behind it. -/
theorem division_spec {P q s e n nFree nOrd : ℕ} (hP : 97 ≤ P) (hPle : P ≤ 2 ^ 14)
    (hn : n = P * q + 2 + s) (hes : e < s) (hsP : s < P) (he1 : e ≤ 1) (h32 : n < 2 ^ 32)
    (hfree : nFree + 1 ≤ nOrd) (hle : nOrd + (q + 1) ≤ n) (hge : n ≤ nOrd + (q + 1) + 1) :
    ∃ k u w x, k = (nFree + (P - 1 - s) + e) / (P - 1) ∧ u < P - 1 ∧ k + w = q + 1 ∧
      P * q + P = P * k + P * w ∧ nFree + (P - 1 - s) + e < 2 ^ 32 ∧ x + u = P * w + 1 + e ∧
      x + k + nFree = n ∧ 1 ≤ x := by
  have hmulq : P * (q + 1) = P * q + P := Nat.mul_succ P q
  obtain ⟨d, hd⟩ : ∃ d, d = nFree + (P - 1 - s) + e := ⟨_, rfl⟩
  obtain ⟨k, hk⟩ : ∃ k, k = d / (P - 1) := ⟨_, rfl⟩
  obtain ⟨u, hu⟩ : ∃ u, u = d % (P - 1) := ⟨_, rfl⟩
  have hdk : (P - 1) * k + u = d := by
    rw [hk, hu]
    exact Nat.div_add_mod d (P - 1)
  have huP : u < P - 1 := by
    rw [hu]
    exact Nat.mod_lt _ (by omega)
  have hPk : P * k = (P - 1) * k + k := by
    rw [Nat.sub_mul, Nat.one_mul, Nat.sub_add_cancel]
    exact Nat.le_mul_of_pos_left k (by omega)
  rw [← hd]
  refine ⟨k, u, ?_⟩
  clear hu
  have hkq : k ≤ q + 1 := by
    by_contra hlt
    obtain ⟨j, hj⟩ := Nat.exists_eq_add_of_lt (Nat.lt_of_not_le hlt)
    have hmul : P * k = P * q + P + P * (j + 1) := by
      rw [hj, Nat.add_assoc (q + 1), Nat.mul_add, hmulq]
    have hlarge : 97 * (j + 1) ≤ P * (j + 1) := Nat.mul_le_mul_right _ hP
    clear hk
    omega
  obtain ⟨w, hw⟩ := Nat.exists_eq_add_of_le hkq
  have hmulw : P * q + P = P * k + P * w := by rw [← hmulq, hw, Nat.mul_add]
  have hd32 : d < 2 ^ 32 := by
    clear hk hdk hPk
    rcases Nat.lt_or_ge q (2 ^ 14) with hq | hq
    · have hsmall : P * q ≤ 2 ^ 14 * 2 ^ 14 := Nat.mul_le_mul hPle hq.le
      omega
    · omega
  refine ⟨w, n - nFree - k, hk, huP, hw.symm, hmulw, hd32, ?_⟩
  clear hk hd32
  omega

/-- **The ordinary pages in front of what is left.** The page `x`, or the one before it where the
file loses the locking page, has `nFree` ordinary pages less than the file before. -/
theorem ordinaryPages_left {q s e n nFree k u w x : ℕ} (hres : isReserved g n = false)
    (hn : n = pagesPerMapPage g * q + 2 + s) (hes : e < s) (hsP : s < pagesPerMapPage g)
    (he : e = 0 ∧ pagesPerMapPage g * q + 2 ≠ pendingBytePage g ∨
      e = 1 ∧ pagesPerMapPage g * q + 2 = pendingBytePage g ∧ oddPage g = pendingBytePage g + 1)
    (huP : u < pagesPerMapPage g - 1) (hw : k + w = q + 1)
    (hmulw : pagesPerMapPage g * q + pagesPerMapPage g =
      pagesPerMapPage g * k + pagesPerMapPage g * w)
    (hx : x + u = pagesPerMapPage g * w + 1 + e) (hxle : x + k + nFree = n)
    (hfree : nFree + 1 ≤ ordinaryPages g n) :
    ∀ y, y = (if pendingBytePage g < n ∧ x < pendingBytePage g then x - 1 else x) →
      1 ≤ y ∧ y ≤ n ∧ ordinaryPages g y + nFree = ordinaryPages g n := by
  have hP := pagesPerMapPage_ge g
  have hpend := pendingBytePage_ge g
  have hmulq : pagesPerMapPage g * (q + 1) = pagesPerMapPage g * q + pagesPerMapPage g :=
    Nat.mul_succ _ q
  have hodd : n ≠ oddPage g := by
    rintro rfl
    have := (isReserved_iff (g := g) (p := oddPage g) (by omega)).mpr (Or.inr rfl)
    rw [hres] at this
    exact Bool.false_ne_true this
  have hne : n ≠ pendingBytePage g := (isReserved_eq_false.mp hres).2
  have hpendle : pendingBytePage g ≤ oddPage g ∧ oddPage g ≤ pendingBytePage g + 1 := by
    rcases oddPage_eq (g := g) with h | h <;> omega
  set P := pagesPerMapPage g with hPdef
  have he1 : e ≤ 1 := by rcases he with ⟨h, -⟩ | ⟨h, -⟩ <;> omega
  have hord : ordinaryPages g n + (q + 1) + (if oddPage g ≤ n then 1 else 0) = n :=
    ordinaryPages_of_eq (show n + (P - 1 - s) = P * (q + 1) + 1 by omega)
      (show P - 1 - s < P by omega)
  clear hmulq
  rintro y rfl
  by_cases hcross : pendingBytePage g < n ∧ x < pendingBytePage g
  · -- the file no longer reaches the locking page
    rw [if_pos hcross]
    rw [if_pos (show oddPage g ≤ n by omega)] at hord
    have hcount' : ordinaryPages g (x - 1) + w + (if oddPage g ≤ x - 1 then 1 else 0) = x - 1 :=
      ordinaryPages_of_eq (show x - 1 + (u + 1 - e) = P * w + 1 by omega)
        (show u + 1 - e < P by omega)
    rw [if_neg (show ¬ oddPage g ≤ x - 1 by omega)] at hcount'
    omega
  rw [if_neg hcross]
  rcases Nat.lt_or_ge n (pendingBytePage g) with hlow | hhigh
  · -- the file never reached it
    rw [if_neg (show ¬ oddPage g ≤ n by omega)] at hord
    have hcount' : ordinaryPages g x + w + (if oddPage g ≤ x then 1 else 0) = x :=
      ordinaryPages_of_eq (show x + u = P * w + 1 by omega) (show u < P by omega)
    rw [if_neg (show ¬ oddPage g ≤ x by omega)] at hcount'
    omega
  · -- the file still reaches it
    rw [if_pos (show oddPage g ≤ n by omega)] at hord
    rcases he with ⟨rfl, -⟩ | ⟨rfl, hat, hoddat⟩
    · have hreach : oddPage g ≤ x := by
        rcases oddPage_eq (g := g) with h | ⟨h, hmod⟩
        · omega
        · -- `x` is not the locking page, which is at a multiple
          obtain ⟨j, hj⟩ := Nat.dvd_of_mod_eq_zero hmod
          rw [← hPdef] at hj
          have hsep : P * w ≤ P * j ∨ P * j + P ≤ P * w := by
            rcases Nat.lt_or_ge j w with hjw | hjw
            · right
              rw [← Nat.mul_succ]
              exact Nat.mul_le_mul_left P hjw
            · exact Or.inl (Nat.mul_le_mul_left P hjw)
          omega
      have hcount' : ordinaryPages g x + w + (if oddPage g ≤ x then 1 else 0) = x :=
        ordinaryPages_of_eq (show x + u = P * w + 1 by omega) (show u < P by omega)
      rw [if_pos hreach] at hcount'
      omega
    · have hwk : k = 1 ∧ w = q ∨ k = 0 ∧ w = q + 1 := by
        rcases Nat.lt_or_ge w q with hlt | hge
        · have := Nat.mul_le_mul_left P hlt
          rw [Nat.mul_succ] at this
          omega
        · omega
      rcases hwk with ⟨rfl, rfl⟩ | ⟨rfl, rfl⟩
      · -- the result is the locking page itself, which is left right after
        have hcount' : ordinaryPages g x + (w + 1) + (if oddPage g ≤ x then 1 else 0) = x :=
          ordinaryPages_of_eq (show x + (P - 1) = P * (w + 1) + 1 by rw [Nat.mul_succ]; omega)
            (show P - 1 < P by omega)
        rw [if_neg (show ¬ oddPage g ≤ x by omega)] at hcount'
        omega
      · rw [Nat.mul_zero, Nat.zero_add] at hmulw
        have hcount' : ordinaryPages g x + (q + 1) + (if oddPage g ≤ x then 1 else 0) = x :=
          ordinaryPages_of_eq (show x + (u - 1) = P * (q + 1) + 1 by omega)
            (show u - 1 < P by omega)
        rw [if_pos (show oddPage g ≤ x by omega)] at hcount'
        omega

/-- **The size after auto-vacuum is exact.** For every last page that is not reserved and every
number of free pages up to that of the ordinary pages behind page 1, the result is a page number up
to the last one, not reserved, and exactly `nFree` ordinary pages lie behind it. -/
theorem finalDbSize_exact (g : Geom) {nOrig nFree : ℕ} (h32 : nOrig < 2 ^ 32)
    (hres : isReserved g nOrig = false)
    (hfree : nFree ≤ ((Finset.Icc 2 nOrig).filter fun p => isReserved g p = false).card) :
    finalDbSize g nOrig nFree ≤ nOrig ∧ isReserved g (finalDbSize g nOrig nFree) = false ∧
      ordinaryPages g (finalDbSize g nOrig nFree) = ordinaryPages g nOrig - nFree := by
  have hP := pagesPerMapPage_ge g
  have hpend := pendingBytePage_ge g
  have hnE : g.usableSize / 5 = pagesPerMapPage g - 1 := by rw [pagesPerMapPage]; omega
  have hPle : pagesPerMapPage g ≤ 2 ^ 14 := by
    have := g.usable_le
    have := g.page_le
    rw [pagesPerMapPage]
    omega
  have h1 : 1 ≤ nOrig := by
    rcases Nat.eq_zero_or_pos nOrig with rfl | h
    · rw [isReserved_eq_false, isPtrmapPage, ptrmapPageno, if_pos (by decide)] at hres
      exact absurd hres.1 (by simp)
    · exact h
  have hcount : nFree + 1 ≤ ordinaryPages g nOrig := by
    rw [ordinaryPages, ← Finset.insert_Icc_add_one_left_eq_Icc h1, Finset.filter_insert,
      if_pos isReserved_one, Finset.card_insert_of_notMem (by simp)]
    exact Nat.succ_le_succ hfree
  suffices hmain : ∃ d x : ℕ, (d : ℤ) = (nFree : ℤ) - nOrig + ptrmapPageno g nOrig
      + (g.usableSize / 5 : ℕ) ∧ d < 2 ^ 32 ∧ x + nFree + d / (g.usableSize / 5) = nOrig ∧ 1 ≤ x ∧
      ∀ y, y = (if pendingBytePage g < nOrig ∧ x < pendingBytePage g then x - 1 else x) →
        1 ≤ y ∧ y ≤ nOrig ∧ ordinaryPages g y + nFree = ordinaryPages g nOrig by
    obtain ⟨d, x, hd, hd32, hx, hpos, hy⟩ := hmain
    obtain ⟨hy1, hyle, hord⟩ := hy _ rfl
    obtain ⟨hle, hback, hsame⟩ := backOff_spec (g := g) hy1
    rw [finalDbSize_eq h32 hd hd32 hx hpos]
    exact ⟨hle.trans hyle, hback, by omega⟩
  rcases Nat.lt_or_ge nOrig 2 with hlt | h2
  · -- a file of one page
    obtain rfl : nOrig = 1 := by omega
    obtain rfl : nFree = 0 := by simpa using hfree
    refine ⟨g.usableSize / 5 - 1, 1, ?_, by omega, ?_, Nat.le_refl _, ?_⟩
    · rw [ptrmapPageno, if_pos (by decide)]
      omega
    · rw [Nat.div_eq_of_lt (by omega)]
    · rintro y rfl
      rw [if_neg (by omega)]
      exact ⟨Nat.le_refl _, Nat.le_refl _, rfl⟩
  · obtain ⟨q, s, e, hn, hes, hsP, hmap, he⟩ := nOrig_split h2 hres
    have hmulq : pagesPerMapPage g * (q + 1) = pagesPerMapPage g * q + pagesPerMapPage g :=
      Nat.mul_succ _ q
    have he1 : e ≤ 1 := by rcases he with ⟨h, -⟩ | ⟨h, -⟩ <;> omega
    have hord : ordinaryPages g nOrig + (q + 1) + (if oddPage g ≤ nOrig then 1 else 0) = nOrig :=
      ordinaryPages_of_eq
        (show nOrig + (pagesPerMapPage g - 1 - s) = pagesPerMapPage g * (q + 1) + 1 by omega)
        (show pagesPerMapPage g - 1 - s < pagesPerMapPage g by omega)
    have hle : ordinaryPages g nOrig + (q + 1) ≤ nOrig :=
      (Nat.le_add_right _ _).trans hord.le
    have hge : nOrig ≤ ordinaryPages g nOrig + (q + 1) + 1 := by
      have hone : (if oddPage g ≤ nOrig then 1 else 0) ≤ 1 := by split <;> decide
      omega
    obtain ⟨k, u, w, x, hk, huP, hw, hmulw, hd32, hx, hxle, hx1⟩ :=
      division_spec hP hPle hn hes hsP he1 h32 hcount hle hge
    refine ⟨nFree + (pagesPerMapPage g - 1 - s) + e, x, ?_, hd32, ?_, hx1,
      ordinaryPages_left hres hn hes hsP he huP hw hmulw hx hxle hcount⟩
    · rw [hmap]
      clear hord he hk
      omega
    · rw [hnE, ← hk]
      omega

/-- One free page of 106, where the map page 105 goes with page 106. -/
theorem finalDbSize_exact_two_map_pages :
    finalDbSize smallGeom 106 1 ≤ 106 ∧ isReserved smallGeom (finalDbSize smallGeom 106 1) = false ∧
      ordinaryPages smallGeom (finalDbSize smallGeom 106 1) = ordinaryPages smallGeom 106 - 1 :=
  finalDbSize_exact smallGeom (by decide) (by decide +kernel) (by decide +kernel)

example : finalDbSize smallGeom 106 1 = 104 := by decide +kernel

end Btree

end SqliteVms

import SqliteVms.Lib.Probe
import Mathlib.Data.Nat.Bitwise

/-!
# Bit vectors

`bitvec.c`. A `Bitvec` has a fixed size of 512 bytes and takes one of three forms: a bitmap if
`iSize` allows it, a hash table of the bits that are set if these are few, and otherwise a table of
pointers to smaller vectors. The members of the union `u` are three fields here; which of them there
is follows from `iSize` and `iDivisor`, and the code reads no other.

How many pointers fit depends on their size, which is that of `Layout`. Every allocation succeeds.
`iSize` is at most 2147483646 and nothing wraps.

A probing loop is followed for `BITVEC_NINT` slots. The table does not change under it, and after as
many slots it is where it began, so `none` means that the loop of the source does not end.

## Main definitions

* `Bitvec` — the vector, or a null pointer
* `sqlite3BitvecTest`, `sqlite3BitvecSet`, `sqlite3BitvecClear` — its operations
* `Bitvec.Inv`, `Bitvec.Mem` — the invariant, the bits that are set

## Main results

* `setFrom_spec`, `clearFrom_spec`, `testFrom_spec` — one operation
* `bitvec_refines` — after every sequence of operations the vector is the set it stands for
-/

namespace SqliteVms

namespace Bitvec

/-! ### Layout -/

/-- `sizeof(Bitvec *)`. -/
structure Layout where
  szPtr : ℕ
  szPtr_eq : szPtr = 4 ∨ szPtr = 8

namespace Layout

variable (L : Layout)

/-- `BITVEC_USIZE`, with `BITVEC_SZ` bytes for the whole. -/
def bitvecUsize : ℕ := (512 - 3 * 4) / L.szPtr * L.szPtr

/-- `BITVEC_NELEM`. -/
def bitvecNelem : ℕ := L.bitvecUsize / 1

/-- `BITVEC_NBIT`. -/
def bitvecNbit : ℕ := L.bitvecNelem * 8

/-- `BITVEC_NINT`. -/
def bitvecNint : ℕ := L.bitvecUsize / 4

/-- `BITVEC_MXHASH`. -/
def bitvecMxhash : ℕ := L.bitvecNint / 2

/-- `BITVEC_NPTR`. -/
def bitvecNptr : ℕ := L.bitvecUsize / L.szPtr

/-- `BITVEC_HASH`. -/
def bitvecHash (x : ℕ) : ℕ := x * 1 % L.bitvecNint

/-- What the proofs need to know of the numbers. -/
theorem numbers : 2 ≤ L.bitvecNptr ∧ L.bitvecNptr ≤ 125 ∧ 3968 ≤ L.bitvecNbit ∧
    124 ≤ L.bitvecNint ∧ 0 < L.bitvecMxhash ∧ L.bitvecMxhash < L.bitvecNint - 1 := by
  obtain ⟨szPtr, rfl | rfl⟩ := L <;> decide

end Layout

end Bitvec

/-- `Bitvec *`. -/
inductive Bitvec
  | null
  | mk (iSize nSet iDivisor : ℕ) (aBitmap : ℕ → UInt8) (aHash : ℕ → ℕ) (apSub : ℕ → Bitvec)

namespace Bitvec

open Probe

variable (L : Layout)

/-! ### The operations -/

/-- `p->iSize`. -/
def iSize : Bitvec → ℕ
  | null => 0
  | mk iSize _ _ _ _ _ => iSize

/-- `p->iDivisor`. -/
def iDivisor : Bitvec → ℕ
  | null => 0
  | mk _ _ iDivisor _ _ _ => iDivisor

def sqlite3BitvecCreate (iSize : ℕ) : Bitvec := mk iSize 0 0 (fun _ => 0) (fun _ => 0) fun _ => null

/-- `1<<(i&(BITVEC_SZELEM-1))`. -/
def mask (i : ℕ) : UInt8 := ⟨1#8 <<< (i % 8)⟩

/-- What `sqlite3BitvecTest` does after `i--`. -/
def testFrom : Bitvec → ℕ → Option Bool
  | null, _ => some false
  | mk iSize _ iDivisor aBitmap aHash apSub, i =>
    if iDivisor ≠ 0 then testFrom (apSub (i / iDivisor)) (i % iDivisor)
    else if iSize ≤ L.bitvecNbit then some (aBitmap (i / 8) &&& mask i ≠ 0)
    else
      (probe L.bitvecNint (fun h => aHash h = 0 ∨ aHash h = i + 1) L.bitvecNint
        (L.bitvecHash i)).map fun h => aHash h = i + 1

def sqlite3BitvecTest (p : Bitvec) (i : ℕ) : Option Bool :=
  match p with
  | null => some false
  | p => if p.iSize < i ∨ i = 0 then some false else testFrom L p (i - 1)

/-- The sub-vector `p->u.apSub[bin]`, created if need be. -/
def orCreate (iDivisor : ℕ) : Bitvec → Bitvec
  | null => sqlite3BitvecCreate iDivisor
  | p => p

/-- What `sqlite3BitvecSet` does after `i--`. The first argument bounds the depth: every turn of the
`while` loop is one step down, and so is the call on the table that was just divided. -/
def setFrom : ℕ → Bitvec → ℕ → Option Bitvec
  | 0, _, _ => none
  | _ + 1, null, _ => some null
  | fuel + 1, mk iSize nSet iDivisor aBitmap aHash apSub, i =>
    if L.bitvecNbit < iSize ∧ iDivisor ≠ 0 then
      let bin := i / iDivisor
      (setFrom fuel (orCreate iDivisor (apSub bin)) (i % iDivisor)).map fun q =>
        mk iSize nSet iDivisor aBitmap aHash (Function.update apSub bin q)
    else if iSize ≤ L.bitvecNbit then
      let aBitmap := Function.update aBitmap (i / 8) (aBitmap (i / 8) ||| mask i)
      some (mk iSize nSet iDivisor aBitmap aHash apSub)
    else if aHash (L.bitvecHash i) = 0 ∧ nSet < L.bitvecNint - 1 then
      let aHash := Function.update aHash (L.bitvecHash i) (i + 1)
      some (mk iSize (nSet + 1) iDivisor aBitmap aHash apSub)
    else
      (probe L.bitvecNint (fun h => aHash h = 0 ∨ aHash h = i + 1) L.bitvecNint
        (L.bitvecHash i)).bind fun h =>
        if aHash h = i + 1 then some (mk iSize nSet iDivisor aBitmap aHash apSub)
        else if L.bitvecMxhash ≤ nSet then
          -- the union is cleared and what was in the hash table is set again, the new bit first
          let p := mk iSize nSet ((iSize + L.bitvecNptr - 1) / L.bitvecNptr) (fun _ => 0)
            (fun _ => 0) fun _ => null
          (setFrom fuel p i).bind fun p =>
            (List.range L.bitvecNint).foldlM
              (fun p j => if aHash j ≠ 0 then setFrom fuel p (aHash j - 1) else some p) p
        else some (mk iSize (nSet + 1) iDivisor aBitmap (Function.update aHash h (i + 1)) apSub)

def sqlite3BitvecSet (p : Bitvec) (i : ℕ) : Option Bitvec :=
  match p with
  | null => some null
  | p => setFrom L (2 * p.iSize + 1) p (i - 1)

/-- The loop of `sqlite3BitvecClear` that fills the hash table again, without `i`. The state is
`nSet` and the table. -/
def refill (aiValues : ℕ → ℕ) (i : ℕ) (js : List ℕ) (s : ℕ × (ℕ → ℕ)) : Option (ℕ × (ℕ → ℕ)) :=
  js.foldlM
    (fun s j =>
      if aiValues j ≠ 0 ∧ aiValues j ≠ i then
        (probe L.bitvecNint (fun h => s.2 h = 0) L.bitvecNint (L.bitvecHash (aiValues j - 1))).map
          fun h => (s.1 + 1, Function.update s.2 h (aiValues j))
      else some s) s

/-- What `sqlite3BitvecClear` does after `i--`. -/
def clearFrom : Bitvec → ℕ → Option Bitvec
  | null, _ => some null
  | mk iSize nSet iDivisor aBitmap aHash apSub, i =>
    if iDivisor ≠ 0 then
      let bin := i / iDivisor
      (clearFrom (apSub bin) (i % iDivisor)).map fun q =>
        mk iSize nSet iDivisor aBitmap aHash (Function.update apSub bin q)
    else if iSize ≤ L.bitvecNbit then
      let aBitmap := Function.update aBitmap (i / 8) (aBitmap (i / 8) &&& ~~~mask i)
      some (mk iSize nSet iDivisor aBitmap aHash apSub)
    else
      (refill L aHash (i + 1) (List.range L.bitvecNint) (0, fun _ => 0)).map fun s =>
        mk iSize s.1 iDivisor aBitmap s.2 apSub

def sqlite3BitvecClear (p : Bitvec) (i : ℕ) : Option Bitvec := clearFrom L p (i - 1)

/-! ### The invariant -/

/-- The slot of a value in the hash table; values are bits counted from one. -/
def home (v : ℕ) : ℕ := L.bitvecHash (v - 1)

/-- The invariant of a hash table. -/
structure HashOk (iSize nSet : ℕ) (aHash : ℕ → ℕ) : Prop where
  table : Table L.bitvecNint (home L) aHash
  nSet_eq : nSet = used L.bitvecNint aHash
  room : nSet < L.bitvecNint
  le_iSize : ∀ s < L.bitvecNint, aHash s ≤ iSize

/-- The invariant of a vector. -/
def Inv : Bitvec → Prop
  | null => True
  | mk iSize nSet iDivisor _ aHash apSub =>
    0 < iSize ∧
      if iDivisor ≠ 0 then
        L.bitvecNbit < iSize ∧ iDivisor = (iSize + L.bitvecNptr - 1) / L.bitvecNptr ∧
          ∀ bin, Inv (apSub bin) ∧ (apSub bin = null ∨ (apSub bin).iSize = iDivisor)
      else L.bitvecNbit < iSize → HashOk L iSize nSet aHash

/-- Bit `i` is set, the bits being counted from zero. -/
def Mem : Bitvec → ℕ → Prop
  | null, _ => False
  | mk iSize _ iDivisor aBitmap aHash apSub, i =>
    if iDivisor ≠ 0 then Mem (apSub (i / iDivisor)) (i % iDivisor)
    else if iSize ≤ L.bitvecNbit then aBitmap (i / 8) &&& mask i ≠ 0
    else Holds L.bitvecNint aHash (i + 1)

/-- Every hash table in the vector has an empty slot. -/
def HasRoom : Bitvec → Prop
  | null => True
  | mk iSize _ iDivisor _ aHash apSub =>
    if iDivisor ≠ 0 then ∀ bin, HasRoom (apSub bin)
    else L.bitvecNbit < iSize → ∃ h < L.bitvecNint, aHash h = 0

variable {L}

theorem Inv.hasRoom {p : Bitvec} (h : Inv L p) : HasRoom L p := by
  induction p with
  | null => trivial
  | mk iSize nSet iDivisor aBitmap aHash apSub ih =>
    obtain ⟨-, h⟩ := h
    rw [HasRoom]
    split at h
    case isTrue hdiv => rw [if_pos hdiv]; exact fun bin => ih bin (h.2.2 bin).1
    case isFalse hdiv =>
      rw [if_neg hdiv]
      intro hbit
      have hok := h hbit
      exact exists_empty (hok.nSet_eq ▸ hok.room)

/-! ### Bitmaps -/

theorem mask_getLsbD (i : ℕ) {k : ℕ} (hk : k < 8) :
    (mask i).toBitVec.getLsbD k = decide (k = i % 8) := by
  have hall : ∀ a k : Fin 8, (1#8 <<< a.val).getLsbD k = decide (k.val = a.val) := by decide
  exact hall ⟨i % 8, Nat.mod_lt _ (by omega)⟩ ⟨k, hk⟩

theorem and_mask_ne_zero (x : UInt8) (i : ℕ) :
    x &&& mask i ≠ 0 ↔ x.toBitVec.getLsbD (i % 8) = true := by
  have hzero : x &&& mask i ≠ 0 ↔ x.toBitVec &&& (mask i).toBitVec ≠ 0#8 := by
    rw [ne_eq, ne_eq, ← UInt8.toBitVec_inj, UInt8.toBitVec_and]
    rfl
  have hi : i % 8 < 8 := Nat.mod_lt _ (by omega)
  rw [hzero]
  constructor
  · intro hne
    by_contra hbit
    refine hne (BitVec.eq_of_getLsbD_eq fun j hj => ?_)
    rw [BitVec.getLsbD_and, mask_getLsbD i hj, BitVec.getLsbD_zero]
    rcases eq_or_ne j (i % 8) with rfl | hne
    · rw [Bool.eq_false_of_not_eq_true hbit, Bool.false_and]
    · rw [decide_eq_false hne, Bool.and_false]
  · intro hbit heq
    have hget := congrArg (fun b => b.getLsbD (i % 8)) heq
    simp only [BitVec.getLsbD_and, hbit, mask_getLsbD i hi, decide_true, Bool.and_true] at hget
    exact absurd hget (by simp)

/-- Two bits in one byte are one bit when their masks are the same. -/
theorem eq_of_div_mod {d i j : ℕ} (hdiv : j / d = i / d) (hmod : j % d = i % d) : j = i := by
  rw [← Nat.div_add_mod j d, ← Nat.div_add_mod i d, hdiv, hmod]

theorem bitmap_set (aBitmap : ℕ → UInt8) (i j : ℕ) :
    Function.update aBitmap (i / 8) (aBitmap (i / 8) ||| mask i) (j / 8) &&& mask j ≠ 0 ↔
      j = i ∨ aBitmap (j / 8) &&& mask j ≠ 0 := by
  have hj : j % 8 < 8 := Nat.mod_lt _ (by omega)
  rcases eq_or_ne (j / 8) (i / 8) with hdiv | hdiv
  · rw [hdiv, Function.update_self, and_mask_ne_zero, and_mask_ne_zero, UInt8.toBitVec_or,
      BitVec.getLsbD_or, mask_getLsbD i hj, Bool.or_eq_true, decide_eq_true_eq, or_comm]
    exact or_congr_left ⟨eq_of_div_mod hdiv, fun h => by rw [h]⟩
  · rw [Function.update_of_ne hdiv]
    exact ⟨Or.inr, fun h => h.resolve_left fun heq => hdiv (by rw [heq])⟩

theorem bitmap_clear (aBitmap : ℕ → UInt8) (i j : ℕ) :
    Function.update aBitmap (i / 8) (aBitmap (i / 8) &&& ~~~mask i) (j / 8) &&& mask j ≠ 0 ↔
      j ≠ i ∧ aBitmap (j / 8) &&& mask j ≠ 0 := by
  have hj : j % 8 < 8 := Nat.mod_lt _ (by omega)
  rcases eq_or_ne (j / 8) (i / 8) with hdiv | hdiv
  · rw [hdiv, Function.update_self, and_mask_ne_zero, and_mask_ne_zero, UInt8.toBitVec_and,
      BitVec.getLsbD_and, UInt8.toBitVec_not, BitVec.getLsbD_not, mask_getLsbD i hj,
      Bool.and_eq_true, and_comm, decide_eq_true hj, Bool.true_and, Bool.not_eq_true',
      decide_eq_false_iff_not]
    exact and_congr_left fun _ => not_congr ⟨eq_of_div_mod hdiv, fun h => by rw [h]⟩
  · rw [Function.update_of_ne hdiv]
    exact ⟨fun h => ⟨fun heq => hdiv (by rw [heq]), h⟩, And.right⟩

/-! ### Hash tables -/

theorem home_lt (v : ℕ) : home L v < L.bitvecNint :=
  Nat.mod_lt _ (by have := L.numbers; omega)

theorem hashOk_zero (iSize : ℕ) : HashOk L iSize 0 fun _ => 0 where
  table := table_zero
  nSet_eq := used_zero.symm
  room := by have := L.numbers; omega
  le_iSize := fun _ _ => Nat.zero_le _

/-- The search for bit `i` ends. -/
theorem HashOk.find {iSize nSet : ℕ} {aHash : ℕ → ℕ} (h : HashOk L iSize nSet aHash) (i : ℕ) :
    ∃ s < L.bitvecNint, probe L.bitvecNint (fun q => aHash q = 0 ∨ aHash q = i + 1) L.bitvecNint
        (L.bitvecHash i) = some s ∧
      (aHash s = 0 ∨ aHash s = i + 1) ∧ (aHash s = i + 1 ↔ Holds L.bitvecNint aHash (i + 1)) ∧
      ∃ k < L.bitvecNint, slot L.bitvecNint (home L (i + 1)) k = s ∧
        ∀ j < k, aHash (slot L.bitvecNint (home L (i + 1)) j) ≠ 0 :=
  h.table.find (h.nSet_eq ▸ h.room) (Nat.succ_ne_zero i) (home_lt _)

/-- A bit is put where the search for it ended. -/
theorem HashOk.insert {iSize nSet : ℕ} {aHash : ℕ → ℕ} (h : HashOk L iSize nSet aHash) {v s k : ℕ}
    (hv0 : v ≠ 0) (hv : v ≤ iSize) (hs : s < L.bitvecNint) (hempty : aHash s = 0)
    (hnew : ¬ Holds L.bitvecNint aHash v) (hk : k < L.bitvecNint)
    (hks : slot L.bitvecNint (home L v) k = s)
    (hbefore : ∀ j < k, aHash (slot L.bitvecNint (home L v) j) ≠ 0)
    (hroom : nSet + 1 < L.bitvecNint) :
    HashOk L iSize (nSet + 1) (Function.update aHash s v) where
  table := h.table.insert hs hempty hnew hk hks hbefore
  nSet_eq := by rw [used_update hs hempty hv0, ← h.nSet_eq]
  room := hroom
  le_iSize := fun q hq => by
    rcases eq_or_ne q s with rfl | hne
    · rw [Function.update_self]; exact hv
    · rw [Function.update_of_ne hne]; exact h.le_iSize q hq

/-- **Filling the hash table again.** `t` is what there is of it when the slots `js` of the old table
are still to come. -/
theorem refill_spec {iSize nSet : ℕ} {aHash : ℕ → ℕ} (h : HashOk L iSize nSet aHash) (i : ℕ)
    {js : List ℕ} (hnodup : js.Nodup) (hjs : ∀ j ∈ js, j < L.bitvecNint) {n : ℕ} {t : ℕ → ℕ}
    (ht : HashOk L iSize n t)
    (hroom : n + (js.filter fun j => aHash j ≠ 0 ∧ aHash j ≠ i).length < L.bitvecNint)
    (hnew : ∀ j ∈ js, aHash j ≠ 0 → ¬ Holds L.bitvecNint t (aHash j)) :
    ∃ n' t', refill L aHash i js (n, t) = some (n', t') ∧ HashOk L iSize n' t' ∧
      ∀ w, w ≠ 0 → (Holds L.bitvecNint t' w ↔
        Holds L.bitvecNint t w ∨ w ≠ i ∧ ∃ j ∈ js, aHash j = w) := by
  induction js generalizing n t with
  | nil => exact ⟨n, t, rfl, ht, fun w _ => by simp⟩
  | cons j js ih =>
    obtain ⟨hj, hnodup⟩ := List.nodup_cons.mp hnodup
    obtain ⟨hjn, hjs⟩ := List.forall_mem_cons.mp hjs
    obtain ⟨hjnew, hnew⟩ := List.forall_mem_cons.mp hnew
    rw [refill, List.foldlM_cons]
    by_cases hq : aHash j ≠ 0 ∧ aHash j ≠ i
    · rw [List.filter_cons_of_pos (by simpa using hq), List.length_cons] at hroom
      obtain ⟨s, hs, hprobe, hempty, k, hk, hks, hbefore⟩ :=
        find_empty (ht.nSet_eq ▸ ht.room) (home_lt (aHash j))
      have hins := ht.insert hq.1 (h.le_iSize j hjn) hs hempty (hjnew hq.1) hk hks hbefore
        (by omega)
      have hholds : ∀ w, w ≠ 0 → (Holds L.bitvecNint (Function.update t s (aHash j)) w ↔
          w = aHash j ∨ Holds L.bitvecNint t w) := fun w hw => holds_update hs hempty hw
      obtain ⟨n', t', hrun, hok, hall⟩ := ih hnodup hjs hins (by omega) fun q hqmem hq0 => by
        rw [hholds _ hq0, not_or]
        refine ⟨fun heq => hj ?_, hnew q hqmem hq0⟩
        rwa [← h.table.unique q (hjs q hqmem) j hjn hq0 heq]
      refine ⟨n', t', ?_, hok, fun w hw => ?_⟩
      · rw [if_pos hq]
        change (Option.map _ (probe _ _ _ (home L (aHash j)))).bind _ = _
        rw [hprobe]
        exact hrun
      · rw [hall w hw, hholds w hw, List.exists_mem_cons_iff]
        constructor
        · rintro ((rfl | hold) | ⟨hne, hin⟩)
          · exact Or.inr ⟨hq.2, Or.inl rfl⟩
          · exact Or.inl hold
          · exact Or.inr ⟨hne, Or.inr hin⟩
        · rintro (hold | ⟨hne, rfl | hin⟩)
          · exact Or.inl (Or.inr hold)
          · exact Or.inl (Or.inl rfl)
          · exact Or.inr ⟨hne, hin⟩
    · rw [List.filter_cons_of_neg (by simpa using hq)] at hroom
      obtain ⟨n', t', hrun, hok, hall⟩ := ih hnodup hjs ht hroom hnew
      refine ⟨n', t', ?_, hok, fun w hw => ?_⟩
      · rw [if_neg hq]
        exact hrun
      · rw [hall w hw, List.exists_mem_cons_iff]
        refine or_congr_right (and_congr_right fun hne => ⟨Or.inr, fun hin => hin.resolve_left ?_⟩)
        rintro rfl
        exact hq ⟨hw, hne⟩

/-! ### The three forms -/

section Forms

variable {size nSet divisor : ℕ} {aBitmap : ℕ → UInt8} {aHash : ℕ → ℕ} {apSub : ℕ → Bitvec}

theorem inv_sub (hdiv : divisor ≠ 0) :
    Inv L (mk size nSet divisor aBitmap aHash apSub) ↔ 0 < size ∧ L.bitvecNbit < size ∧
      divisor = (size + L.bitvecNptr - 1) / L.bitvecNptr ∧
      ∀ bin, Inv L (apSub bin) ∧ (apSub bin = null ∨ (apSub bin).iSize = divisor) := by
  rw [Inv, if_pos hdiv]

theorem inv_bitmap (hpos : 0 < size) (hbit : size ≤ L.bitvecNbit) :
    Inv L (mk size nSet 0 aBitmap aHash apSub) := by
  rw [Inv, if_neg (not_not.mpr rfl)]
  exact ⟨hpos, fun hlt => absurd hlt (not_lt.mpr hbit)⟩

theorem inv_hash (hpos : 0 < size) (h : HashOk L size nSet aHash) :
    Inv L (mk size nSet 0 aBitmap aHash apSub) := by
  rw [Inv, if_neg (not_not.mpr rfl)]
  exact ⟨hpos, fun _ => h⟩

theorem mem_sub (hdiv : divisor ≠ 0) (j : ℕ) :
    Mem L (mk size nSet divisor aBitmap aHash apSub) j ↔
      Mem L (apSub (j / divisor)) (j % divisor) := by
  rw [Mem, if_pos hdiv]

theorem mem_bitmap (hbit : size ≤ L.bitvecNbit) (j : ℕ) :
    Mem L (mk size nSet 0 aBitmap aHash apSub) j ↔ aBitmap (j / 8) &&& mask j ≠ 0 := by
  rw [Mem, if_neg (not_not.mpr rfl), if_pos hbit]

theorem mem_hash (hbit : L.bitvecNbit < size) (j : ℕ) :
    Mem L (mk size nSet 0 aBitmap aHash apSub) j ↔ Holds L.bitvecNint aHash (j + 1) := by
  rw [Mem, if_neg (not_not.mpr rfl), if_neg (not_le.mpr hbit)]

/-- One sub-vector is replaced. -/
theorem inv_sub_update (hdiv : divisor ≠ 0)
    (h : Inv L (mk size nSet divisor aBitmap aHash apSub)) {q : Bitvec} (hq : Inv L q)
    (hsize : q = null ∨ q.iSize = divisor) (bin : ℕ) :
    Inv L (mk size nSet divisor aBitmap aHash (Function.update apSub bin q)) := by
  rw [inv_sub hdiv] at h ⊢
  obtain ⟨hpos, hbit, hdivisor, hsub⟩ := h
  refine ⟨hpos, hbit, hdivisor, fun b => ?_⟩
  rcases eq_or_ne b bin with rfl | hne
  · rw [Function.update_self]; exact ⟨hq, hsize⟩
  · rw [Function.update_of_ne hne]; exact hsub b

end Forms

/-! ### One operation -/

/-- **Testing a bit.** -/
theorem testFrom_spec {p : Bitvec} (h : Inv L p) (i : ℕ) :
    ∃ b, testFrom L p i = some b ∧ (b = true ↔ Mem L p i) := by
  induction p generalizing i with
  | null => exact ⟨false, rfl, by simp [Mem]⟩
  | mk iSize nSet iDivisor aBitmap aHash apSub ih =>
    obtain ⟨-, h⟩ := h
    rw [testFrom, Mem]
    split at h
    case isTrue hdiv =>
      rw [if_pos hdiv, if_pos hdiv]
      exact ih _ (h.2.2 _).1 _
    case isFalse hdiv =>
      rw [if_neg hdiv, if_neg hdiv]
      by_cases hbit : iSize ≤ L.bitvecNbit
      · rw [if_pos hbit, if_pos hbit]
        exact ⟨_, rfl, decide_eq_true_iff⟩
      · rw [if_neg hbit, if_neg hbit]
        obtain ⟨s, -, hprobe, -, hiff, -⟩ := (h (by omega)).find i
        rw [hprobe]
        exact ⟨_, rfl, decide_eq_true_iff.trans hiff⟩

/-- **Clearing a bit.** -/
theorem clearFrom_spec {p : Bitvec} (h : Inv L p) (i : ℕ) :
    ∃ p', clearFrom L p i = some p' ∧ Inv L p' ∧ p'.iSize = p.iSize ∧ (p = null ↔ p' = null) ∧
      ∀ j, Mem L p' j ↔ j ≠ i ∧ Mem L p j := by
  induction p generalizing i with
  | null => exact ⟨null, rfl, trivial, rfl, Iff.rfl, fun j => by simp [Mem]⟩
  | mk size nSet divisor aBitmap aHash apSub ih =>
    rw [clearFrom]
    rcases eq_or_ne divisor 0 with rfl | hdiv
    case inr =>
      obtain ⟨-, -, -, hsub⟩ := (inv_sub hdiv).mp h
      obtain ⟨q, hq, hqinv, hqsize, hqnull, hqmem⟩ := ih (i / divisor) (hsub _).1 (i % divisor)
      refine ⟨mk size nSet divisor aBitmap aHash (Function.update apSub (i / divisor) q),
        by rw [if_pos hdiv]; change Option.map _ _ = _; rw [hq]; rfl,
        inv_sub_update hdiv h hqinv ((hsub _).2.imp hqnull.mp fun hs => hqsize.trans hs) _, rfl,
        by simp, fun j => ?_⟩
      rw [mem_sub hdiv, mem_sub hdiv]
      rcases eq_or_ne (j / divisor) (i / divisor) with hbin | hbin
      · rw [hbin, Function.update_self, hqmem]
        exact and_congr_left fun _ => not_congr ⟨eq_of_div_mod hbin, fun heq => by rw [heq]⟩
      · rw [Function.update_of_ne hbin]
        exact ⟨fun hmem => ⟨fun heq => hbin (by rw [heq]), hmem⟩, And.right⟩
    case inl =>
      obtain ⟨hpos, h⟩ := h
      rw [if_neg (not_not.mpr rfl)] at h ⊢
      rcases le_or_gt size L.bitvecNbit with hbit | hbit
      · refine ⟨_, if_pos hbit, inv_bitmap hpos hbit, rfl, by simp, fun j => ?_⟩
        rw [mem_bitmap hbit, mem_bitmap hbit]
        exact bitmap_clear aBitmap i j
      · have hok := h hbit
        have hroom : 0 + ((List.range L.bitvecNint).filter fun j =>
            aHash j ≠ 0 ∧ aHash j ≠ i + 1).length < L.bitvecNint := by
          refine lt_of_le_of_lt ?_ hok.room
          rw [Nat.zero_add, hok.nSet_eq]
          exact (List.monotone_filter_right _ fun j hj => by
            simp only [ne_eq, decide_eq_true_eq] at hj ⊢; exact hj.1).length_le
        obtain ⟨n', t', hrun, hok', hall⟩ := refill_spec hok (i + 1) List.nodup_range
          (fun j hj => List.mem_range.mp hj) (hashOk_zero size) hroom
          fun j _ hj => not_holds_zero hj
        refine ⟨mk size n' 0 aBitmap t' apSub, by rw [if_neg (not_le.mpr hbit), hrun]; rfl,
          inv_hash hpos hok', rfl, by simp, fun j => ?_⟩
        rw [mem_hash hbit, mem_hash hbit, hall (j + 1) (Nat.succ_ne_zero j),
          or_iff_right (not_holds_zero (Nat.succ_ne_zero j))]
        simp only [List.mem_range, Holds, ne_eq, Nat.add_right_cancel_iff]

theorem inv_create {size : ℕ} (hpos : 0 < size) : Inv L (sqlite3BitvecCreate size) :=
  inv_hash hpos (hashOk_zero size)

theorem not_mem_create (size j : ℕ) : ¬ Mem L (sqlite3BitvecCreate size) j := by
  rcases le_or_gt size L.bitvecNbit with hbit | hbit
  · rw [sqlite3BitvecCreate, mem_bitmap hbit, UInt8.zero_and]
    exact not_not.mpr rfl
  · rw [sqlite3BitvecCreate, mem_hash hbit]
    exact not_holds_zero (Nat.succ_ne_zero j)

/-- How deep setting a bit goes. -/
def rank (p : Bitvec) : ℕ := 2 * p.iSize + if p.iDivisor = 0 then 1 else 0

theorem rank_le (p : Bitvec) : rank p ≤ 2 * p.iSize + 1 :=
  Nat.add_le_add_left (by split <;> omega) _

/-- A vector after bit `i` was set in `p`. -/
structure IsSet (L : Layout) (p : Bitvec) (i : ℕ) (p' : Bitvec) : Prop where
  inv : Inv L p'
  iSize_eq : p'.iSize = p.iSize
  rank_le : rank p' ≤ rank p
  mem : ∀ j, Mem L p' j ↔ j = i ∨ Mem L p j

/-- The values of the old hash table are set again in the divided one. -/
theorem foldlM_spec {fuel : ℕ} (size : ℕ) {aHash : ℕ → ℕ}
    (ih : ∀ p i, Inv L p → i < p.iSize → rank p ≤ fuel →
      ∃ p', setFrom L fuel p i = some p' ∧ IsSet L p i p')
    (js : List ℕ) (hjs : ∀ j ∈ js, aHash j ≤ size) {p : Bitvec} (h : Inv L p)
    (hsize : p.iSize = size) (hrank : rank p ≤ fuel) :
    ∃ p', js.foldlM (fun p j => if aHash j ≠ 0 then setFrom L fuel p (aHash j - 1) else some p) p =
        some p' ∧ Inv L p' ∧ p'.iSize = size ∧ rank p' ≤ rank p ∧
      ∀ x, Mem L p' x ↔ Mem L p x ∨ ∃ j ∈ js, aHash j = x + 1 := by
  induction js generalizing p with
  | nil => exact ⟨p, rfl, h, hsize, le_rfl, fun x => by simp⟩
  | cons j js ihjs =>
    obtain ⟨hj, hjs⟩ := List.forall_mem_cons.mp hjs
    rw [List.foldlM_cons]
    by_cases h0 : aHash j ≠ 0
    · obtain ⟨q, hq, hset⟩ := ih p (aHash j - 1) h (by omega) hrank
      obtain ⟨p', hrun, hinv, hsize', hrank', hmem⟩ :=
        ihjs hjs hset.inv (hset.iSize_eq.trans hsize) (hset.rank_le.trans hrank)
      refine ⟨p', ?_, hinv, hsize', hrank'.trans hset.rank_le, fun x => ?_⟩
      · rw [if_pos h0, hq]
        exact hrun
      · have hx : x = aHash j - 1 ↔ aHash j = x + 1 := by omega
        rw [hmem, hset.mem, List.exists_mem_cons_iff, hx]
        exact or_assoc.trans or_left_comm
    · obtain ⟨p', hrun, hinv, hsize', hrank', hmem⟩ := ihjs hjs h hsize hrank
      refine ⟨p', ?_, hinv, hsize', hrank', fun x => ?_⟩
      · rw [if_neg h0]
        exact hrun
      · rw [hmem, List.exists_mem_cons_iff]
        exact or_congr_right ⟨Or.inr, fun hin => hin.resolve_left (by omega)⟩

/-- The sub-vectors are smaller than the vector. -/
theorem iDivisor_lt {size : ℕ} (hbit : L.bitvecNbit < size) :
    0 < (size + L.bitvecNptr - 1) / L.bitvecNptr ∧
      (size + L.bitvecNptr - 1) / L.bitvecNptr < size := by
  have hnum := L.numbers
  constructor
  · exact Nat.div_pos (by omega) (by omega)
  · rw [Nat.div_lt_iff_lt_mul (by omega)]
    have hle : size * 2 ≤ size * L.bitvecNptr := Nat.mul_le_mul_left _ (by omega)
    omega

/-- A divided vector, and the fuel that is left for its sub-vectors. -/
theorem inv_node {fuel size nSet divisor : ℕ} {aBitmap : ℕ → UInt8} {aHash : ℕ → ℕ}
    {apSub : ℕ → Bitvec} (hdiv : divisor ≠ 0)
    (h : Inv L (mk size nSet divisor aBitmap aHash apSub))
    (hrank : rank (mk size nSet divisor aBitmap aHash apSub) ≤ fuel + 1) :
    L.bitvecNbit < size ∧
      (∀ bin, Inv L (apSub bin) ∧ (apSub bin = null ∨ (apSub bin).iSize = divisor)) ∧
      ∀ q : Bitvec, q.iSize = divisor → rank q ≤ fuel := by
  obtain ⟨-, hbit, hdivisor, hsub⟩ := (inv_sub hdiv).mp h
  have hsmall : divisor < size := hdivisor ▸ (iDivisor_lt hbit).2
  rw [rank, iDivisor, if_neg hdiv] at hrank
  replace hrank : 2 * size ≤ fuel + 1 := hrank
  exact ⟨hbit, hsub, fun q hq => (rank_le q).trans (by rw [hq]; omega)⟩

/-- The sub-vector a bit is set in, whether it was there or not. -/
theorem orCreate_spec {divisor : ℕ} (hpos : 0 < divisor) {q : Bitvec} (hq : Inv L q)
    (hsize : q = null ∨ q.iSize = divisor) :
    Inv L (orCreate divisor q) ∧ (orCreate divisor q).iSize = divisor ∧
      ∀ j, Mem L (orCreate divisor q) j ↔ Mem L q j := by
  cases q with
  | null =>
    exact ⟨inv_create hpos, rfl, fun j => iff_of_false (not_mem_create divisor j) id⟩
  | mk => exact ⟨hq, hsize.resolve_left nofun, fun j => Iff.rfl⟩

/-- A bit goes into an empty slot of the hash table. -/
theorem isSet_hash {size nSet i s : ℕ} {aBitmap : ℕ → UInt8} {aHash : ℕ → ℕ}
    {apSub : ℕ → Bitvec} (hbit : L.bitvecNbit < size) (hs : s < L.bitvecNint)
    (hempty : aHash s = 0) (hok : HashOk L size (nSet + 1) (Function.update aHash s (i + 1))) :
    IsSet L (mk size nSet 0 aBitmap aHash apSub) i
      (mk size (nSet + 1) 0 aBitmap (Function.update aHash s (i + 1)) apSub) where
  inv := inv_hash (by omega) hok
  iSize_eq := rfl
  rank_le := le_rfl
  mem := fun j => by
    rw [mem_hash hbit, mem_hash hbit, holds_update (w := j + 1) hs hempty (Nat.succ_ne_zero j),
      Nat.add_right_cancel_iff]

/-- **Setting a bit.** -/
theorem setFrom_spec (fuel : ℕ) (p : Bitvec) (i : ℕ) (h : Inv L p) (hi : i < p.iSize)
    (hrank : rank p ≤ fuel) : ∃ p', setFrom L fuel p i = some p' ∧ IsSet L p i p' := by
  induction fuel generalizing p i with
  | zero =>
    rw [rank] at hrank
    omega
  | succ fuel ih =>
    cases p with
    | null => exact absurd hi (Nat.not_lt_zero i)
    | mk size nSet divisor aBitmap aHash apSub =>
      replace hi : i < size := hi
      rw [setFrom]
      rcases eq_or_ne divisor 0 with rfl | hdiv
      case inr =>
        obtain ⟨hbit, hsub, hle⟩ := inv_node hdiv h hrank
        obtain ⟨hq, hqsize, hqmem⟩ :=
          orCreate_spec (Nat.pos_of_ne_zero hdiv) (hsub (i / divisor)).1 (hsub (i / divisor)).2
        obtain ⟨q, hrun, hset⟩ := ih _ (i % divisor) hq
          (by rw [hqsize]; exact Nat.mod_lt _ (Nat.pos_of_ne_zero hdiv)) (hle _ hqsize)
        refine ⟨mk size nSet divisor aBitmap aHash (Function.update apSub (i / divisor) q), ?_,
          ?_, rfl, le_rfl, fun j => ?_⟩
        · rw [if_pos ⟨hbit, hdiv⟩]
          change Option.map _ _ = _
          rw [hrun]
          rfl
        · exact inv_sub_update hdiv h hset.inv (Or.inr (hset.iSize_eq.trans hqsize)) _
        · rw [mem_sub hdiv, mem_sub hdiv]
          rcases eq_or_ne (j / divisor) (i / divisor) with hbin | hbin
          · rw [hbin, Function.update_self, hset.mem, hqmem]
            exact or_congr_left ⟨eq_of_div_mod hbin, fun heq => by rw [heq]⟩
          · rw [Function.update_of_ne hbin]
            exact ⟨Or.inr, fun hmem => hmem.resolve_left fun heq => hbin (by rw [heq])⟩
      case inl =>
        obtain ⟨hpos, h⟩ := h
        rw [if_neg (not_not.mpr rfl)] at h
        rw [if_neg (fun hand => hand.2 rfl)]
        rcases le_or_gt size L.bitvecNbit with hbit | hbit
        · rw [if_pos hbit]
          refine ⟨_, rfl, inv_bitmap hpos hbit, rfl, le_rfl, fun j => ?_⟩
          rw [mem_bitmap hbit, mem_bitmap hbit]
          exact bitmap_set aBitmap i j
        have hok := h hbit
        obtain ⟨s, hs, hprobe, hstop, hfound, k, hk, hks, hbefore⟩ := hok.find i
        rw [if_neg (not_le.mpr hbit)]
        by_cases hfirst : aHash (L.bitvecHash i) = 0 ∧ nSet < L.bitvecNint - 1
        · -- the slot of the bit is empty, and is the one the search would find
          rw [if_pos hfirst]
          have hhome : L.bitvecHash i < L.bitvecNint := home_lt (i + 1)
          have hnew : ¬ Holds L.bitvecNint aHash (i + 1) := fun hin => by
            obtain ⟨q, hq, hval⟩ := hin
            obtain ⟨kq, -, hslot, hreach⟩ := hok.table.reach q hq (by omega)
            rcases Nat.eq_zero_or_pos kq with rfl | hkq
            · rw [hval, slot_zero (home_lt _)] at hslot
              rw [← hslot] at hval
              exact absurd (hval.symm.trans hfirst.1) (Nat.succ_ne_zero i)
            · refine hreach 0 hkq ?_
              rw [hval, slot_zero (home_lt _)]
              exact hfirst.1
          exact ⟨_, rfl, isSet_hash hbit hhome hfirst.1 (hok.insert (Nat.succ_ne_zero i) hi hhome
            hfirst.1 hnew (k := 0) (by omega) (slot_zero (home_lt _))
            (fun j hj => absurd hj (Nat.not_lt_zero j)) (by omega))⟩
        rw [if_neg hfirst, hprobe, Option.bind_some]
        by_cases hin : aHash s = i + 1
        · rw [if_pos hin]
          refine ⟨_, rfl, inv_hash hpos hok, rfl, le_rfl, fun j => ?_⟩
          refine ⟨Or.inr, fun hmem => hmem.elim (fun heq => ?_) id⟩
          rw [mem_hash hbit, heq]
          exact hfound.mp hin
        rw [if_neg hin]
        by_cases hfull : L.bitvecMxhash ≤ nSet
        · rw [if_pos hfull]
          have hdivisor := iDivisor_lt hbit
          generalize hd : (size + L.bitvecNptr - 1) / L.bitvecNptr = d at hdivisor ⊢
          have hd0 : d ≠ 0 := by omega
          have hfresh : Inv L (mk size nSet d (fun _ => 0) (fun _ => 0) fun _ => null) :=
            (inv_sub hd0).mpr ⟨hpos, hbit, hd.symm, fun _ => ⟨trivial, Or.inl rfl⟩⟩
          have hrankd : rank (mk size nSet d (fun _ => 0) (fun _ => 0) fun _ => null) ≤ fuel := by
            rw [rank, iDivisor, if_pos rfl] at hrank
            rw [rank, iDivisor, if_neg hd0]
            exact Nat.le_of_succ_le_succ hrank
          obtain ⟨q, hq, hset⟩ := ih _ i hfresh hi hrankd
          obtain ⟨p', hrun, hinv, hsize, hrank', hmem⟩ := foldlM_spec size ih
            (List.range L.bitvecNint) (fun j hj => hok.le_iSize j (List.mem_range.mp hj)) hset.inv hset.iSize_eq
            (hset.rank_le.trans hrankd)
          refine ⟨p', ?_, hinv, hsize, ?_, fun x => ?_⟩
          · change (setFrom L fuel _ i).bind _ = _
            rw [hq]
            exact hrun
          · refine (hrank'.trans hset.rank_le).trans ?_
            rw [rank, rank, iDivisor, iDivisor, if_neg hd0]
            exact Nat.le_add_right _ _
          · rw [hmem, hset.mem, mem_sub hd0, mem_hash hbit]
            simp only [Mem, or_false, List.mem_range, Holds]
        · rw [if_neg hfull]
          have hnum := L.numbers
          have hempty : aHash s = 0 := hstop.resolve_right hin
          exact ⟨_, rfl, isSet_hash hbit hs hempty (hok.insert (Nat.succ_ne_zero i) hi hs hempty
            (fun hold => hin (hfound.mpr hold)) hk hks hbefore (by omega))⟩

/-! ### Sequences of operations -/

/-- A call that changes a vector. -/
inductive Op
  | set (i : ℕ)
  | clear (i : ℕ)

namespace Op

/-- The bit the call is about. -/
def bit : Op → ℕ
  | set i => i
  | clear i => i

/-- The call sets its bit. -/
def isSet : Op → Bool
  | set _ => true
  | clear _ => false

end Op

variable (L) in
/-- One call. -/
def step (p : Bitvec) : Op → Option Bitvec
  | .set i => sqlite3BitvecSet L p i
  | .clear i => sqlite3BitvecClear L p i

/-- The last of the calls about bit `j` sets it. -/
def lastSet (ops : List Op) (j : ℕ) : Bool :=
  ops.foldl (fun b op => if op.bit = j then op.isSet else b) false

/-- A vector of `size` bits stands for the set of bits `S`, counted from one. -/
structure Refines (L : Layout) (size : ℕ) (p : Bitvec) (S : ℕ → Bool) : Prop where
  inv : Inv L p
  iSize_eq : p.iSize = size
  mem : ∀ j, Mem L p j ↔ S (j + 1) = true

variable {size : ℕ} {p : Bitvec} {S : ℕ → Bool}

theorem Refines.ne_null (h : Refines L size p S) (hpos : 0 < size) : p ≠ null := by
  rintro rfl
  exact absurd h.iSize_eq hpos.ne

/-- **One call.** -/
theorem step_refines (h : Refines L size p S) (op : Op) (hop : 1 ≤ op.bit ∧ op.bit ≤ size) :
    ∃ p', step L p op = some p' ∧
      Refines L size p' fun j => if op.bit = j then op.isSet else S j := by
  obtain ⟨hone, hle⟩ := hop
  have hiff : ∀ {i j : ℕ}, 1 ≤ i → (j = i - 1 ↔ i = j + 1) := fun _ => by omega
  cases op with
  | set i =>
    replace hone : 1 ≤ i := hone
    replace hle : i ≤ size := hle
    obtain ⟨p', hrun, hset⟩ := setFrom_spec (2 * p.iSize + 1) p (i - 1) h.inv
      (by rw [h.iSize_eq]; omega) (rank_le p)
    refine ⟨p', ?_, hset.inv, hset.iSize_eq.trans h.iSize_eq, fun j => ?_⟩
    · cases p with
      | null => exact absurd rfl (h.ne_null (by omega))
      | mk => exact hrun
    · rw [hset.mem, h.mem, hiff hone]
      change _ ↔ (if i = j + 1 then true else S (j + 1)) = true
      split <;> simp_all
  | clear i =>
    replace hone : 1 ≤ i := hone
    obtain ⟨p', hrun, hinv, hsize, -, hmem⟩ := clearFrom_spec h.inv (i - 1)
    refine ⟨p', hrun, hinv, hsize.trans h.iSize_eq, fun j => ?_⟩
    rw [hmem, h.mem, ne_eq, hiff hone]
    change _ ↔ (if i = j + 1 then false else S (j + 1)) = true
    split <;> simp_all

/-- **A sequence of calls.** -/
theorem run_refines {ops : List Op} (hops : ∀ op ∈ ops, 1 ≤ op.bit ∧ op.bit ≤ size)
    (h : Refines L size p S) :
    ∃ p', ops.foldlM (step L) p = some p' ∧
      Refines L size p' fun j => ops.foldl (fun b op => if op.bit = j then op.isSet else b) (S j) := by
  induction ops generalizing p S with
  | nil => exact ⟨p, rfl, h⟩
  | cons op ops ih =>
    obtain ⟨hop, hops⟩ := List.forall_mem_cons.mp hops
    obtain ⟨q, hq, href⟩ := step_refines h op hop
    obtain ⟨p', hp', href'⟩ := ih hops href
    refine ⟨p', ?_, href'⟩
    rw [List.foldlM_cons, hq]
    exact hp'

/-- Testing a bit, counted from one. -/
theorem Refines.test (h : Refines L size p S) (hpos : 0 < size) (j : ℕ) :
    sqlite3BitvecTest L p j = some (decide (1 ≤ j ∧ j ≤ size ∧ S j = true)) := by
  have hnull := h.ne_null hpos
  have hsize := h.iSize_eq
  have hlead : sqlite3BitvecTest L p j =
      if p.iSize < j ∨ j = 0 then some false else testFrom L p (j - 1) := by
    cases p with
    | null => exact absurd rfl hnull
    | mk => rfl
  rw [hlead, hsize]
  split
  case isTrue hout => rw [decide_eq_false fun hin => by omega]
  case isFalse hin =>
    obtain ⟨b, hb, hiff⟩ := testFrom_spec h.inv (j - 1)
    rw [hb, Option.some_inj, Bool.eq_iff_iff, hiff, h.mem, decide_eq_true_iff,
      Nat.sub_add_cancel (by omega)]
    exact ⟨fun hS => ⟨by omega, by omega, hS⟩, fun hall => hall.2.2⟩

/-- **A `Bitvec` is a set of bits.** Whatever is set and cleared in a vector of `iSize` bits, every
call and every loop in it ends, no hash table in the vector is full, and a bit tests true exactly
when it is one of the vector's bits and the last call about it set it. -/
theorem bitvec_refines (L : Layout) {iSize : ℕ} (hpos : 1 ≤ iSize) (_hmax : iSize ≤ 2 ^ 31 - 2)
    (ops : List Op) (hops : ∀ op ∈ ops, 1 ≤ op.bit ∧ op.bit ≤ iSize) :
    ∃ p, ops.foldlM (step L) (sqlite3BitvecCreate iSize) = some p ∧ HasRoom L p ∧
      ∀ j, sqlite3BitvecTest L p j = some (decide (1 ≤ j ∧ j ≤ iSize ∧ lastSet ops j = true)) := by
  have hstart : Refines L iSize (sqlite3BitvecCreate iSize) fun _ => false :=
    ⟨inv_create hpos, rfl, fun j => iff_of_false (not_mem_create iSize j) nofun⟩
  obtain ⟨p, hp, href⟩ := run_refines hops hstart
  exact ⟨p, hp, href.inv.hasRoom, href.test hpos⟩

/-- A vector with pointers of eight bytes and more than 3968 bits. -/
def wide : Layout := ⟨8, Or.inr rfl⟩

theorem bitvec_refines_wide :
    ∃ p, [Op.set 4000, .set 32, .clear 4000].foldlM (step wide) (sqlite3BitvecCreate 100000) =
        some p ∧ HasRoom wide p ∧
      ∀ j, sqlite3BitvecTest wide p j = some (decide (1 ≤ j ∧ j ≤ 100000 ∧
        lastSet [.set 4000, .set 32, .clear 4000] j = true)) :=
  bitvec_refines wide (by decide) (by decide) _ (by decide)

end Bitvec

end SqliteVms

import SqliteVms.Lib.Compare
import SqliteVms.Lib.Rounding
import Mathlib.Tactic.Positivity

/-!
# Values and their order

`sqlite3MemCompare` of `vdbemem.c`: the order of NULLs, numbers, texts and blobs that index
B-trees, sorting and uniqueness rest on. Two integers are compared exactly, an integer and a real
after a conversion to `double`, and the two do not always agree: above 2^53 the conversion makes
different integers equal to one real.

## Main definitions

* `Double` — a 64-bit real by its bits, with its value as a multiple of 2^-1074
* `Value` — a memory cell by the type its flags give it
* `CollSeq` — a collating sequence
* `sqlite3MemCompare` — the order
* `Exact` — no real of a set stands for two of its integers

## Main results

* `totalOrderOn_sqlite3MemCompare_iff` — the sets of values that `sqlite3MemCompare` orders
-/

namespace SqliteVms

namespace Vdbe

open Comparison Rounding

/-! ### Reals -/

/-- `sqlite3IsNaN`, on the bits of a `double`: the exponent is all ones and the fraction is not
zero. -/
def sqlite3IsNaN (bits : UInt64) : Bool :=
  bits.toNat / 2 ^ 52 % 2 ^ 11 = 2047 ∧ bits.toNat % 2 ^ 52 ≠ 0

/-- A `double` that is a number or an infinity. A cell never holds another one. -/
structure Double where
  bits : UInt64
  isNum : sqlite3IsNaN bits = false
  deriving DecidableEq

namespace Double

/-- The magnitude, in units of 2^-1074. The infinities follow the largest numbers, at 2^1024. -/
def magnitude (r : Double) : ℕ :=
  let e := r.bits.toNat / 2 ^ 52 % 2 ^ 11
  let f := r.bits.toNat % 2 ^ 52
  if e = 0 then f else (2 ^ 52 + f) * 2 ^ (e - 1)

/-- The value, in units of 2^-1074. -/
def units (r : Double) : ℤ :=
  if r.bits.toNat / 2 ^ 63 = 0 then r.magnitude else -r.magnitude

end Double

/-- `(double)i`, in units of 2^-1074: the integer rounded to 53 bits. -/
def unitsOfInt (i : Int64) : ℤ := intToBits 53 i.toInt * 2 ^ 1074

theorem unitsOfInt_mono {i j : Int64} (h : i ≤ j) : unitsOfInt i ≤ unitsOfInt j :=
  mul_le_mul_of_nonneg_right (intToBits_mono (by decide) (Int64.le_iff_toInt_le.mp h)) (by positivity)

/-! ### Cells -/

/-- The value of a memory cell: `MEM_Null`, `MEM_Int` with `u.i`, `MEM_Real` with `r`, and
`MEM_Str` and `MEM_Blob` with the `n` bytes at `z`. -/
inductive Value
  | null
  | int (i : Int64)
  | real (r : Double)
  | text (z : List UInt8)
  | blob (z : List UInt8)
  deriving DecidableEq

/-- A collating sequence. -/
structure CollSeq where
  /-- `sqlite3ValueText` to `pColl->enc`, where that is not the encoding of the texts. -/
  convert : Option (List UInt8 → List UInt8)
  xCmp : List UInt8 → List UInt8 → ℤ
  order : TotalOrderOn xCmp Set.univ

/-- The text as `xCmp` gets it. -/
def CollSeq.text (pColl : CollSeq) (z : List UInt8) : List UInt8 :=
  match pColl.convert with
  | none => z
  | some sqlite3ValueText => sqlite3ValueText z

/-- `memcmp` of the first `n` bytes. -/
def memcmp : ℕ → List UInt8 → List UInt8 → ℤ
  | n + 1, a :: as, b :: bs => if a = b then memcmp n as bs else threeWay a.toNat b.toNat
  | _, _, _ => 0

/-- The order of blobs: `memcmp`, and the shorter one first. -/
def blobCompare (z₁ z₂ : List UInt8) : ℤ :=
  let rc := memcmp (if z₁.length > z₂.length then z₂.length else z₁.length) z₁ z₂
  if rc = 0 then (z₁.length : ℤ) - z₂.length else rc

def sqlite3MemCompare (pMem1 pMem2 : Value) (pColl : Option CollSeq) : ℤ :=
  match pMem1, pMem2 with
  -- NULL is less than everything else
  | .null, .null => 0
  | .null, _ => -1
  | _, .null => 1
  -- numbers, compared as integers only if both are
  | .int i, .int j => threeWay i.toInt j.toInt
  | .int i, .real r => threeWay (unitsOfInt i) r.units
  | .real r, .int i => threeWay r.units (unitsOfInt i)
  | .real r, .real s => threeWay r.units s.units
  | .int _, _ => -1
  | .real _, _ => -1
  | _, .int _ => 1
  | _, .real _ => 1
  -- a text is less than a blob, and without a collating sequence compared like one
  | .text z₁, .text z₂ =>
    match pColl with
    | some pColl => pColl.xCmp (pColl.text z₁) (pColl.text z₂)
    | none => blobCompare z₁ z₂
  | .text _, .blob _ => -1
  | .blob _, .text _ => 1
  | .blob z₁, .blob z₂ => blobCompare z₁ z₂

/-! ### Blobs -/

theorem blobCompare_nil_left (z : List UInt8) : blobCompare [] z = -z.length := by
  simp [blobCompare, memcmp]

theorem blobCompare_nil_right (z : List UInt8) : blobCompare z [] = z.length := by
  cases z <;> simp [blobCompare, memcmp]

theorem blobCompare_cons (a b : UInt8) (as bs : List UInt8) :
    blobCompare (a :: as) (b :: bs) = if a = b then blobCompare as bs else threeWay a.toNat b.toNat := by
  have hlen : (if (a :: as).length > (b :: bs).length then (b :: bs).length else (a :: as).length) =
      (if as.length > bs.length then bs.length else as.length) + 1 := by
    simp only [List.length_cons]
    split <;> split <;> omega
  rw [blobCompare, hlen, memcmp]
  split
  · simp [blobCompare]
  · rename_i hab
    have hne : threeWay a.toNat b.toNat ≠ 0 := fun h =>
      hab (UInt8.toNat_inj.mp (threeWay_eq_zero.mp h))
    rw [if_neg hne]

/-- The bytes of a blob as numbers. -/
def bytes (z : List UInt8) : List ℕ := z.map UInt8.toNat

/-- **Blobs are in lexicographic order.** -/
theorem blobCompare_pos_neg (z₁ z₂ : List UInt8) :
    (0 < blobCompare z₁ z₂ ↔ bytes z₂ < bytes z₁) ∧
      (blobCompare z₁ z₂ < 0 ↔ bytes z₁ < bytes z₂) := by
  induction z₁ generalizing z₂ with
  | nil =>
    rw [blobCompare_nil_left]
    cases z₂ with
    | nil => simp [bytes]
    | cons b bs =>
      simp [bytes]
      omega
  | cons a as ih =>
    cases z₂ with
    | nil =>
      rw [blobCompare_nil_right]
      simp [bytes]
      omega
    | cons b bs =>
      rw [blobCompare_cons]
      split
      · rename_i hab
        subst hab
        simpa [bytes, List.cons_lt_cons_iff] using ih bs
      · rename_i hab
        have hab' : a.toNat ≠ b.toNat := fun h => hab (UInt8.toNat_inj.mp h)
        rw [threeWay_pos, threeWay_neg, bytes, bytes, List.map_cons, List.map_cons,
          List.cons_lt_cons_iff, List.cons_lt_cons_iff]
        omega

theorem blobCompare_nonpos (z₁ z₂ : List UInt8) :
    blobCompare z₁ z₂ ≤ 0 ↔ bytes z₁ ≤ bytes z₂ := by
  rw [← not_lt, (blobCompare_pos_neg z₁ z₂).1, not_lt]

theorem blobCompare_nonneg (z₁ z₂ : List UInt8) :
    0 ≤ blobCompare z₁ z₂ ↔ bytes z₂ ≤ bytes z₁ := by
  rw [← not_lt, (blobCompare_pos_neg z₁ z₂).2, not_lt]

theorem totalOrderOn_blobCompare (S : Set (List UInt8)) : TotalOrderOn blobCompare S := by
  refine .of_swap ?_ ?_
  · intro x _ y _
    rw [blobCompare_nonpos, blobCompare_nonneg]
  · intro x _ y _ z _
    rw [blobCompare_nonpos, blobCompare_nonpos, blobCompare_nonpos]
    exact le_trans

/-! ### Numbers -/

/-- No real of `S` stands for two integers of `S`: two different integers that are converted to one
`double` are not in `S` together with that `double`. -/
def Exact (S : Set Value) : Prop :=
  ∀ i j r, .int i ∈ S → .int j ∈ S → .real r ∈ S →
    unitsOfInt i = r.units → unitsOfInt j = r.units → i = j

/-- The storage classes in their order. -/
def storageClass : Value → ℕ
  | .null => 0
  | .int _ => 1
  | .real _ => 1
  | .text _ => 2
  | .blob _ => 3

variable {pColl : Option CollSeq} {S : Set Value}

theorem sqlite3MemCompare_of_lt {x y : Value} (h : storageClass x < storageClass y) :
    sqlite3MemCompare x y pColl < 0 ∧ 0 < sqlite3MemCompare y x pColl := by
  cases x <;> cases y <;> simp [storageClass] at h <;> simp [sqlite3MemCompare]

/-- Between an integer and an integer through a real, conversions are in the wrong order only if
all three are equal. -/
theorem le_of_unitsOfInt_le {i j : Int64} {r : Double} (hS : Exact S) (hi : .int i ∈ S)
    (hj : .int j ∈ S) (hr : .real r ∈ S) (hir : unitsOfInt i ≤ r.units)
    (hrj : r.units ≤ unitsOfInt j) : i ≤ j := by
  by_contra hlt
  have hji := unitsOfInt_mono (Int64.le_of_lt (Int64.not_le.mp hlt))
  have heq := hS i j r hi hj hr (le_antisymm hir (hrj.trans hji)) (le_antisymm (hji.trans hir) hrj)
  exact hlt (heq ▸ Int64.le_refl j)

theorem totalOrderOn_numbers (hS : Exact S) :
    TotalOrderOn (sqlite3MemCompare · · pColl) {x ∈ S | storageClass x = 1} := by
  refine .of_swap ?_ ?_
  · rintro x ⟨-, hx⟩ y ⟨-, hy⟩
    cases x <;> cases y <;> simp [storageClass] at hx hy <;>
      simp only [sqlite3MemCompare, threeWay_nonpos, threeWay_nonneg]
  · rintro x ⟨hxS, hx⟩ y ⟨hyS, hy⟩ z ⟨hzS, hz⟩
    cases x <;> cases y <;> cases z <;> simp [storageClass] at hx hy hz <;>
      simp only [sqlite3MemCompare, threeWay_nonpos, ← Int64.le_iff_toInt_le]
    case int.int.int => exact Int64.le_trans
    case int.int.real => exact fun h₁ h₂ => (unitsOfInt_mono h₁).trans h₂
    case int.real.int => exact fun h₁ h₂ => le_of_unitsOfInt_le hS hxS hzS hyS h₁ h₂
    case real.int.int => exact fun h₁ h₂ => h₁.trans (unitsOfInt_mono h₂)
    all_goals exact le_trans

/-! ### Texts and blobs -/

/-- The bytes of a text or a blob. -/
def Value.z : Value → List UInt8
  | .text z => z
  | .blob z => z
  | _ => []

theorem totalOrderOn_texts :
    TotalOrderOn (sqlite3MemCompare · · pColl) {x ∈ S | storageClass x = 2} := by
  cases pColl with
  | none =>
    refine ((totalOrderOn_blobCompare Set.univ).comap Value.z fun _ _ => trivial).congr ?_
    rintro x ⟨-, hx⟩ y ⟨-, hy⟩
    cases x <;> cases y <;> simp [storageClass] at hx hy
    rfl
  | some pColl =>
    refine (pColl.order.comap (fun x : Value => pColl.text x.z) fun _ _ => trivial).congr ?_
    rintro x ⟨-, hx⟩ y ⟨-, hy⟩
    cases x <;> cases y <;> simp [storageClass] at hx hy
    rfl

theorem totalOrderOn_blobs :
    TotalOrderOn (sqlite3MemCompare · · pColl) {x ∈ S | storageClass x = 3} := by
  refine ((totalOrderOn_blobCompare Set.univ).comap Value.z fun _ _ => trivial).congr ?_
  rintro x ⟨-, hx⟩ y ⟨-, hy⟩
  cases x <;> cases y <;> simp [storageClass] at hx hy
  rfl

theorem totalOrderOn_nulls :
    TotalOrderOn (sqlite3MemCompare · · pColl) {x ∈ S | storageClass x = 0} := by
  refine ((totalOrderOn_threeWay Set.univ).comap storageClass fun _ _ => trivial).congr ?_
  rintro x ⟨-, hx⟩ y ⟨-, hy⟩
  cases x <;> cases y <;> simp [storageClass] at hx hy
  rfl

/-! ### The order -/

theorem totalOrderOn_sqlite3MemCompare (hS : Exact S) :
    TotalOrderOn (sqlite3MemCompare · · pColl) S := by
  refine .of_rank storageClass (fun x _ y _ h => sqlite3MemCompare_of_lt h) ?_
  intro n
  match n with
  | 0 => exact totalOrderOn_nulls
  | 1 => exact totalOrderOn_numbers hS
  | 2 => exact totalOrderOn_texts
  | 3 => exact totalOrderOn_blobs
  | n + 4 =>
    have hnone : ∀ x ∈ {x ∈ S | storageClass x = n + 4}, False := by
      rintro x ⟨-, hx⟩
      cases x <;> simp [storageClass] at hx
    exact .of_swap (fun x hx => (hnone x hx).elim) (fun x hx => (hnone x hx).elim)

/-- A set on which the comparison is transitive keeps its integers apart. -/
theorem exact_of_transitive
    (h : ∀ x ∈ S, ∀ y ∈ S, ∀ z ∈ S, sqlite3MemCompare x y pColl ≤ 0 →
      sqlite3MemCompare y z pColl ≤ 0 → sqlite3MemCompare x z pColl ≤ 0) : Exact S := by
  intro i j r hi hj hr hir hjr
  -- through the real each of the two integers is at most the other
  have hle : ∀ k l : Int64, .int k ∈ S → .int l ∈ S → unitsOfInt k = r.units →
      unitsOfInt l = r.units → k ≤ l := by
    intro k l hk hl hkr hlr
    have := h (.int k) hk (.real r) hr (.int l) hl
    simp only [sqlite3MemCompare, threeWay_nonpos, hkr, hlr, le_refl, true_implies,
      ← Int64.le_iff_toInt_le] at this
    exact this
  exact Int64.le_antisymm (hle i j hi hj hir hjr) (hle j i hj hi hjr hir)

/-- **The values that `sqlite3MemCompare` orders.** On a set of values the comparison is a total
order if and only if no real of the set is the `double` of two different integers of the set. -/
theorem totalOrderOn_sqlite3MemCompare_iff (pColl : Option CollSeq) (S : Set Value) :
    TotalOrderOn (sqlite3MemCompare · · pColl) S ↔ Exact S := by
  constructor
  · intro h
    exact exact_of_transitive h.trans
  · exact totalOrderOn_sqlite3MemCompare

/-- The values with finite reals only. -/
def finiteValues : Set Value :=
  {x | ∀ r, x = .real r → r.magnitude < 2 ^ 1024 * 2 ^ 1074}

/-- 2^53. -/
def real53 : Double := ⟨0x4340000000000000, by decide⟩

theorem real53_mem_finiteValues : .real real53 ∈ finiteValues := by
  rintro r ⟨⟩
  decide +kernel

/-- 2^53+1 is at most the real 2^53, and that at most the integer 2^53. -/
theorem not_totalOrderOn_finiteValues :
    ¬ ∀ pColl, TotalOrderOn (sqlite3MemCompare · · pColl) finiteValues := by
  intro h
  have htrans := (h none).trans (.int 9007199254740993) (by rintro r ⟨⟩) (.real real53)
    real53_mem_finiteValues (.int 9007199254740992) (by rintro r ⟨⟩) (by decide +kernel)
    (by decide +kernel)
  revert htrans
  decide +kernel

end Vdbe

end SqliteVms

import SqliteVms.Vdbe.Record

/-!
# Comparing an encoded key

`sqlite3VdbeRecordCompare` of `vdbeaux.c` compares a record with a key that is already unpacked. The
record is decoded field by field and the first difference decides; when the unpacked key runs out of
fields, its flags break the tie.

## Main definitions

* `KeyInfo`, `UnpackedRecord` — the order of the fields, and the right key
* `sqlite3VdbeRecordCompare` — the comparison
* `lexCompare` — what it is for: the order of two lists of values

## Main results

* `sqlite3VdbeRecordCompare_encode` — comparing an encoded key is comparing its values
* `lexCompare_neg_iff` — the order of lists is symmetric
-/

namespace SqliteVms

namespace Vdbe

open Store Util Comparison

/-- `KeyInfo`: collating sequences and sort orders, with `true` for DESC. -/
structure KeyInfo where
  nField : ℕ
  aColl : ℕ → Option CollSeq
  aSortOrder : ℕ → Bool

/-- `UnpackedRecord`: the values, the three flags and the rowid that a search reports. -/
structure UnpackedRecord where
  pKeyInfo : KeyInfo
  aMem : List Value
  incrKey : Bool
  prefixMatch : Bool
  prefixSearch : Bool
  rowid : Int64

/-- `sqlite3MemCompare` with the collating sequence of field `i`. -/
def compareField (pKeyInfo : KeyInfo) (i : ℕ) (pMem1 pMem2 : Value) : ℤ :=
  sqlite3MemCompare pMem1 pMem2 (if i < pKeyInfo.nField then pKeyInfo.aColl i else none)

/-- The result for a field with DESC, `rc = -rc` on an `int`: -2^31 stays what it is. -/
def invertDesc (pKeyInfo : KeyInfo) (i : ℕ) (rc : ℤ) : ℤ :=
  if i < pKeyInfo.nField ∧ pKeyInfo.aSortOrder i = true then (-rc).bmod (2 ^ 32) else rc

/-- The end of the comparison, with all fields equal. -/
def breakTie (pPKey2 : UnpackedRecord) (idx1 szHdr1 : ℕ) : ℤ :=
  if pPKey2.incrKey then -1
  else if pPKey2.prefixMatch then 0
  else if idx1 < szHdr1 then 1
  else 0

/-- `mem1.u.i` after a field is read: only integers are stored there. -/
def loadInt (u : Int64) : Value → Int64
  | .int i => i
  | _ => u

/-- The flag and the rowid after a difference in field `i`. -/
def reportRowid (pPKey2 : UnpackedRecord) (i : ℕ) (u : Int64) : UnpackedRecord :=
  if pPKey2.prefixSearch = true ∧ i + 1 = pPKey2.aMem.length then
    { pPKey2 with prefixSearch := false, rowid := u }
  else pPKey2

/-- The loop, with the fields of the right key that are left. -/
def compareFields (aKey1 : ℕ → UInt8) (nKey1 szHdr1 : ℕ) (pPKey2 : UnpackedRecord) :
    List Value → ℕ → ℕ → ℕ → Int64 → ℤ × UnpackedRecord
  | [], _, idx1, _, _ => (breakTie pPKey2 idx1 szHdr1, pPKey2)
  | pMem2 :: aMem, i, idx1, d1, u =>
    if idx1 < szHdr1 then
      let serialType1 := getVarint32 fun k => aKey1 (idx1 + k)
      if nKey1 ≤ d1 ∧ 0 < sqlite3VdbeSerialTypeLen serialType1.1.toNat then
        (breakTie pPKey2 (idx1 + serialType1.2) szHdr1, pPKey2)
      else
        let mem1 := sqlite3VdbeSerialGet (fun k => aKey1 (d1 + k)) serialType1.1.toNat
        let rc := compareField pPKey2.pKeyInfo i mem1.1 pMem2
        if rc ≠ 0 then
          (invertDesc pPKey2.pKeyInfo i rc, reportRowid pPKey2 i (loadInt u mem1.1))
        else
          compareFields aKey1 nKey1 szHdr1 pPKey2 aMem (i + 1) (idx1 + serialType1.2) (d1 + mem1.2)
            (loadInt u mem1.1)
    else (breakTie pPKey2 idx1 szHdr1, pPKey2)

/-- `sqlite3VdbeRecordCompare`: the result, and the right key, whose flags and rowid may change.
`u` is what `mem1.u.i` holds before anything is stored there. -/
def sqlite3VdbeRecordCompare (u : Int64) (nKey1 : ℕ) (aKey1 : ℕ → UInt8) (pPKey2 : UnpackedRecord) :
    ℤ × UnpackedRecord :=
  let szHdr1 := getVarint32 aKey1
  compareFields aKey1 nKey1 szHdr1.1.toNat pPKey2 pPKey2.aMem 0 szHdr1.2 szHdr1.1.toNat u

/-- The key that `sqlite3VdbeRecordUnpack` makes of a record, in the space of
`sqlite3VdbeAllocUnpackedRecord`. -/
def unpackKey (pKeyInfo : KeyInfo) (rowid : Int64) (nKey : ℕ) (aKey : ℕ → UInt8) : UnpackedRecord where
  pKeyInfo := pKeyInfo
  aMem := sqlite3VdbeRecordUnpack (pKeyInfo.nField + 1) nKey aKey
  incrKey := false
  prefixMatch := false
  prefixSearch := false
  rowid := rowid

/-! ### The order of lists -/

/-- The order of two values in field `i`. -/
def orderField (pKeyInfo : KeyInfo) (i : ℕ) (x y : Value) : ℤ :=
  if i < pKeyInfo.nField ∧ pKeyInfo.aSortOrder i = true then -compareField pKeyInfo i x y
  else compareField pKeyInfo i x y

/-- The lexicographic order of two lists of values from field `i` on: the first difference in a
common field. -/
def lexCompare (pKeyInfo : KeyInfo) : ℕ → List Value → List Value → ℤ
  | i, x :: xs, y :: ys =>
    if orderField pKeyInfo i x y ≠ 0 then orderField pKeyInfo i x y
    else lexCompare pKeyInfo (i + 1) xs ys
  | _, _, _ => 0

theorem exact_pair (x y : Value) : Exact {x, y} := by
  rintro i j r hi hj hr - -
  simp only [Set.mem_insert_iff, Set.mem_singleton_iff] at hi hj hr
  grind

/-- Two values compare the other way round with the opposite sign. -/
theorem sqlite3MemCompare_neg_iff (pColl : Option CollSeq) (x y : Value) :
    sqlite3MemCompare x y pColl < 0 ↔ 0 < sqlite3MemCompare y x pColl :=
  (totalOrderOn_sqlite3MemCompare (exact_pair x y)).neg_iff (by simp) (by simp)

theorem orderField_neg_iff (pKeyInfo : KeyInfo) (i : ℕ) (x y : Value) :
    orderField pKeyInfo i x y < 0 ↔ 0 < orderField pKeyInfo i y x := by
  have h₁ := sqlite3MemCompare_neg_iff (if i < pKeyInfo.nField then pKeyInfo.aColl i else none) x y
  have h₂ := sqlite3MemCompare_neg_iff (if i < pKeyInfo.nField then pKeyInfo.aColl i else none) y x
  rw [orderField, orderField, compareField, compareField]
  split <;> omega

theorem orderField_eq_zero_iff (pKeyInfo : KeyInfo) (i : ℕ) (x y : Value) :
    orderField pKeyInfo i x y = 0 ↔ compareField pKeyInfo i x y = 0 := by
  rw [orderField]
  split <;> omega

/-- **The order of lists is symmetric.** -/
theorem lexCompare_neg_iff (pKeyInfo : KeyInfo) (i : ℕ) (xs ys : List Value) :
    lexCompare pKeyInfo i xs ys < 0 ↔ 0 < lexCompare pKeyInfo i ys xs := by
  induction xs generalizing i ys with
  | nil => cases ys <;> simp [lexCompare]
  | cons x xs ih =>
    cases ys with
    | nil => simp [lexCompare]
    | cons y ys =>
      have h₁ := orderField_neg_iff pKeyInfo i x y
      have h₂ := orderField_neg_iff pKeyInfo i y x
      rw [lexCompare, lexCompare]
      split <;> split
      · exact h₁
      · omega
      · omega
      · exact ih (i + 1) ys

/-! ### The results as C integers -/

/-- The comparisons of the values of two lists are `int`s: a collating function returns one, and
lengths are `int`s. -/
def IntResults (pKeyInfo : KeyInfo) (xs ys : List Value) : Prop :=
  ∀ i, ∀ x ∈ xs, ∀ y ∈ ys,
    -2 ^ 31 ≤ compareField pKeyInfo i x y ∧ compareField pKeyInfo i x y < 2 ^ 31

/-- The first field with a difference is not one with DESC for which the comparison is -2^31. -/
def Reversible (pKeyInfo : KeyInfo) : ℕ → List Value → List Value → Prop
  | i, x :: xs, y :: ys =>
    if compareField pKeyInfo i x y ≠ 0 then
      ¬(i < pKeyInfo.nField ∧ pKeyInfo.aSortOrder i = true ∧
        compareField pKeyInfo i x y = -2 ^ 31)
    else Reversible pKeyInfo (i + 1) xs ys
  | _, _, _ => True

/-- What the loop returns for a difference in a common field, and 0 for none. -/
def lexResult (pKeyInfo : KeyInfo) : ℕ → List Value → List Value → ℤ
  | i, x :: xs, y :: ys =>
    if compareField pKeyInfo i x y ≠ 0 then invertDesc pKeyInfo i (compareField pKeyInfo i x y)
    else lexResult pKeyInfo (i + 1) xs ys
  | _, _, _ => 0

theorem IntResults.tail {pKeyInfo : KeyInfo} {x y : Value} {xs ys : List Value}
    (h : IntResults pKeyInfo (x :: xs) (y :: ys)) : IntResults pKeyInfo xs ys :=
  fun i a ha b hb => h i a (List.mem_cons_of_mem _ ha) b (List.mem_cons_of_mem _ hb)

theorem bmod_neg_of_range {rc : ℤ} (hlow : -2 ^ 31 ≤ rc) (hhigh : rc < 2 ^ 31)
    (hmin : rc ≠ -2 ^ 31) : (-rc).bmod (2 ^ 32) = -rc :=
  Int.bmod_eq_of_le (by omega) (by omega)

/-- The result is the order of the lists, except that a -2^31 which DESC does not reverse makes the
greater list the lesser one. -/
theorem lexResult_spec {pKeyInfo : KeyInfo} {i : ℕ} {xs ys : List Value}
    (hint : IntResults pKeyInfo xs ys) :
    (Reversible pKeyInfo i xs ys → lexResult pKeyInfo i xs ys = lexCompare pKeyInfo i xs ys) ∧
      (¬Reversible pKeyInfo i xs ys →
        lexResult pKeyInfo i xs ys < 0 ∧ 0 < lexCompare pKeyInfo i xs ys) := by
  induction xs generalizing i ys with
  | nil => simp [lexResult, lexCompare, Reversible]
  | cons x xs ih =>
    cases ys with
    | nil => simp [lexResult, lexCompare, Reversible]
    | cons y ys =>
      obtain ⟨hlow, hhigh⟩ := hint i x List.mem_cons_self y List.mem_cons_self
      have hzero := orderField_eq_zero_iff pKeyInfo i x y
      rw [lexResult, lexCompare, Reversible]
      by_cases hcmp : compareField pKeyInfo i x y = 0
      · rw [if_neg (not_not.mpr hcmp), if_neg (not_not.mpr hcmp),
          if_neg (not_not.mpr (hzero.mpr hcmp))]
        exact ih hint.tail
      · rw [if_pos hcmp, if_pos hcmp, if_pos (mt hzero.mp hcmp), invertDesc, orderField]
        by_cases hdesc : i < pKeyInfo.nField ∧ pKeyInfo.aSortOrder i = true
        · rw [if_pos hdesc, if_pos hdesc]
          constructor
          · intro hrev
            exact bmod_neg_of_range hlow hhigh fun hmin => hrev ⟨hdesc.1, hdesc.2, hmin⟩
          · intro hrev
            rw [(not_not.mp hrev).2.2]
            decide
        · rw [if_neg hdesc, if_neg hdesc]
          exact ⟨fun _ => rfl, fun hrev => absurd ⟨(not_not.mp hrev).1, (not_not.mp hrev).2.1⟩ hdesc⟩

theorem lexResult_ne_zero_iff {pKeyInfo : KeyInfo} {i : ℕ} {xs ys : List Value}
    (hint : IntResults pKeyInfo xs ys) :
    lexResult pKeyInfo i xs ys ≠ 0 ↔ lexCompare pKeyInfo i xs ys ≠ 0 := by
  obtain ⟨hrev, hmin⟩ := lexResult_spec (i := i) hint
  by_cases h : Reversible pKeyInfo i xs ys
  · rw [hrev h]
  · have := hmin h
    omega

/-- The signs are the same if and only if the result is reversible. -/
theorem sign_lexResult_iff {pKeyInfo : KeyInfo} {i : ℕ} {xs ys : List Value}
    (hint : IntResults pKeyInfo xs ys) :
    (lexResult pKeyInfo i xs ys).sign = (lexCompare pKeyInfo i xs ys).sign ↔
      Reversible pKeyInfo i xs ys := by
  obtain ⟨hrev, hmin⟩ := lexResult_spec (i := i) hint
  by_cases h : Reversible pKeyInfo i xs ys
  · rw [hrev h]
    exact iff_of_true rfl h
  · obtain ⟨hneg, hpos⟩ := hmin h
    rw [Int.sign_eq_neg_one_of_neg hneg, Int.sign_eq_one_of_pos hpos]
    exact iff_of_false (by decide) h

/-! ### The comparison on values -/

/-- The loop on the values of the left key that are left, instead of their encoding. -/
def compareValues (pPKey2 : UnpackedRecord) :
    ℕ → Int64 → List Value → List Value → ℤ × UnpackedRecord
  | i, u, x :: xs, y :: ys =>
    if compareField pPKey2.pKeyInfo i x y ≠ 0 then
      (invertDesc pPKey2.pKeyInfo i (compareField pPKey2.pKeyInfo i x y),
        reportRowid pPKey2 i (loadInt u x))
    else compareValues pPKey2 (i + 1) (loadInt u x) xs ys
  | _, _, xs, _ => (breakTie pPKey2 0 xs.length, pPKey2)

variable {fileFormat nKey szHdr idx d : ℕ} {aKey : ℕ → UInt8} {data : List Mem}
  {pPKey2 : UnpackedRecord}

/-- The index is before the end of the header as long as there are fields. -/
theorem Encoded.breakTie_eq (h : Encoded aKey nKey szHdr fileFormat idx d data) :
    breakTie pPKey2 idx szHdr = breakTie pPKey2 0 data.length := by
  have hiff : idx < szHdr ↔ 0 < data.length := by
    cases data with
    | nil => simp [h.header_eq]
    | cons pRec data =>
      have hlt := h.lt_header
      simp only [List.length_cons]
      omega
  rw [breakTie, breakTie]
  simp only [hiff]

/-- **Decoding and comparing field by field** is comparing the values. -/
theorem compareFields_eq (h : Encoded aKey nKey szHdr fileFormat idx d data) (aMem : List Value)
    (i : ℕ) (u : Int64) :
    compareFields aKey nKey szHdr pPKey2 aMem i idx d u
      = compareValues pPKey2 i u (data.map Mem.content) aMem := by
  induction aMem generalizing data idx d i u with
  | nil =>
    rw [compareFields, h.breakTie_eq]
    cases data <;> simp [compareValues]
  | cons y ys ih =>
    cases data with
    | nil =>
      have hidx := h.header_eq
      rw [compareFields, if_neg (by omega), h.breakTie_eq]
      simp [compareValues]
    | cons pRec data =>
      have hlt := h.lt_header
      have hle := h.le_size
      have hshort : ¬ (nKey ≤ d ∧
          0 < sqlite3VdbeSerialTypeLen (sqlite3VdbeSerialType pRec fileFormat)) := by
        rw [fieldLen] at hle
        omega
      rw [compareFields, if_pos (by omega)]
      simp only [h.toNat_readType, hshort, if_false, h.readValue, List.map_cons, compareValues]
      split
      · rfl
      · rw [h.readType, ih h.next]

/-! ### What the comparison decides -/

variable {xs ys : List Value} {i : ℕ} {u : Int64}

/-- The result is that of the lists, or of the flags if there is no difference. -/
theorem compareValues_fst (pPKey2 : UnpackedRecord) (hlen : ys.length ≤ xs.length)
    (hint : IntResults pPKey2.pKeyInfo xs ys) :
    (compareValues pPKey2 i u xs ys).1 =
      if lexCompare pPKey2.pKeyInfo i xs ys ≠ 0 then lexResult pPKey2.pKeyInfo i xs ys
      else breakTie pPKey2 0 (xs.length - ys.length) := by
  induction xs generalizing i u ys with
  | nil =>
    cases ys with
    | nil => simp [compareValues, lexCompare]
    | cons y ys => simp at hlen
  | cons x xs ih =>
    cases ys with
    | nil => simp [compareValues, lexCompare]
    | cons y ys =>
      have hzero := orderField_eq_zero_iff pPKey2.pKeyInfo i x y
      rw [compareValues, lexCompare, lexResult]
      by_cases hcmp : compareField pPKey2.pKeyInfo i x y = 0
      · rw [if_neg (not_not.mpr hcmp), if_neg (not_not.mpr (hzero.mpr hcmp)),
          if_neg (not_not.mpr hcmp), ih (by simpa using hlen) hint.tail]
        simp
      · rw [if_pos hcmp, if_pos (mt hzero.mp hcmp), if_pos (mt hzero.mp hcmp), if_pos hcmp]

/-- A rowid is reported for a difference in the last field only, and it is what the left key has
there. -/
theorem compareValues_snd (hi : i + ys.length = pPKey2.aMem.length)
    (hsearch : pPKey2.prefixSearch = true)
    (h : (compareValues pPKey2 i u xs ys).2.prefixSearch = false) :
    (∀ j x y, j + 1 < ys.length → xs[j]? = some x → ys[j]? = some y →
      compareField pPKey2.pKeyInfo (i + j) x y = 0) ∧
      ∀ r, xs[ys.length - 1]? = some (.int r) → (compareValues pPKey2 i u xs ys).2.rowid = r := by
  induction xs generalizing i u ys with
  | nil => simp [compareValues, hsearch] at h
  | cons x xs ih =>
    cases ys with
    | nil => simp [compareValues, hsearch] at h
    | cons y ys =>
      rw [compareValues] at h ⊢
      by_cases hcmp : compareField pPKey2.pKeyInfo i x y = 0
      · rw [if_neg (not_not.mpr hcmp)] at h ⊢
        simp only [List.length_cons] at hi
        obtain ⟨hbefore, hrowid⟩ := ih (by omega) h
        -- the tie in this field is followed by the difference in the last one
        have hys : ys ≠ [] := by
          rintro rfl
          cases xs <;> simp [compareValues, hsearch] at h
        have hpos := List.length_pos_of_ne_nil hys
        constructor
        · intro j x' y' hj hx hy
          cases j with
          | zero =>
            simp only [List.getElem?_cons_zero, Option.some.injEq] at hx hy
            subst hx hy
            exact hcmp
          | succ j =>
            simp only [List.getElem?_cons_succ, List.length_cons] at hx hy hj
            have := hbefore j x' y' (by omega) hx hy
            rwa [show i + (j + 1) = i + 1 + j by omega]
        · intro r hr
          rw [List.length_cons, show ys.length + 1 - 1 = ys.length - 1 + 1 by omega,
            List.getElem?_cons_succ] at hr
          exact hrowid r hr
      · rw [if_pos hcmp] at h ⊢
        simp only [reportRowid, hsearch, true_and] at h ⊢
        split at h
        · rename_i hlast
          rw [if_pos hlast]
          simp only [List.length_cons] at hi
          obtain rfl : ys = [] := List.length_eq_zero_iff.mp (by omega)
          refine ⟨fun j x' y' hj => by simp at hj, fun r hr => ?_⟩
          obtain rfl : x = .int r := Option.some.inj hr
          rfl
        · simp [hsearch] at h

/-- The comparison `r` of a key of the values `a` with `pPKey2`, as it should be. -/
structure ComparesValues (pPKey2 : UnpackedRecord) (a : List Value) (r : ℤ × UnpackedRecord) :
    Prop where
  /-- The first difference in a common field decides. -/
  differ : lexCompare pPKey2.pKeyInfo 0 a pPKey2.aMem ≠ 0 →
    r.1.sign = (lexCompare pPKey2.pKeyInfo 0 a pPKey2.aMem).sign
  incrKey : lexCompare pPKey2.pKeyInfo 0 a pPKey2.aMem = 0 → pPKey2.incrKey = true → r.1 = -1
  prefixMatch : lexCompare pPKey2.pKeyInfo 0 a pPKey2.aMem = 0 → pPKey2.incrKey = false →
    pPKey2.prefixMatch = true → r.1 = 0
  same : lexCompare pPKey2.pKeyInfo 0 a pPKey2.aMem = 0 → pPKey2.incrKey = false →
    pPKey2.prefixMatch = false → a.length = pPKey2.aMem.length → r.1 = 0
  longer : lexCompare pPKey2.pKeyInfo 0 a pPKey2.aMem = 0 → pPKey2.incrKey = false →
    pPKey2.prefixMatch = false → pPKey2.aMem.length < a.length → 0 < r.1
  /-- The fields before the last one are equal, and the rowid is the integer in the last one. -/
  rowid : pPKey2.prefixSearch = true → r.2.prefixSearch = false →
    (∀ j x y, j + 1 < pPKey2.aMem.length → a[j]? = some x → pPKey2.aMem[j]? = some y →
      compareField pPKey2.pKeyInfo j x y = 0) ∧
      ∀ i, a[pPKey2.aMem.length - 1]? = some (.int i) → r.2.rowid = i

theorem comparesValues_compareValues {a : List Value} (hlen : pPKey2.aMem.length ≤ a.length)
    (hint : IntResults pPKey2.pKeyInfo a pPKey2.aMem) :
    ComparesValues pPKey2 a (compareValues pPKey2 0 u a pPKey2.aMem) ↔
      Reversible pPKey2.pKeyInfo 0 a pPKey2.aMem := by
  have hfst := compareValues_fst pPKey2 (i := 0) (u := u) hlen hint
  have hsign := sign_lexResult_iff (i := 0) hint
  constructor
  · intro h
    by_contra hmin
    have hne := ((lexResult_spec hint).2 hmin).2.ne'
    have hdiffer := h.differ hne
    rw [hfst, if_pos hne] at hdiffer
    exact hmin (hsign.mp hdiffer)
  intro hrev
  constructor
  case differ =>
    intro hne
    rw [hfst, if_pos hne]
    exact hsign.mpr hrev
  case incrKey =>
    intro hzero hincr
    rw [hfst, if_neg (not_not.mpr hzero), breakTie, hincr]
    rfl
  case prefixMatch =>
    intro hzero hincr hmatch
    rw [hfst, if_neg (not_not.mpr hzero), breakTie, hincr, hmatch]
    rfl
  case same =>
    intro hzero hincr hmatch heq
    rw [hfst, if_neg (not_not.mpr hzero), breakTie, hincr, hmatch, heq, Nat.sub_self]
    rfl
  case longer =>
    intro hzero hincr hmatch hlt
    rw [hfst, if_neg (not_not.mpr hzero), breakTie, hincr, hmatch]
    simp [hlt]
  case rowid =>
    intro hsearch hreport
    have hsnd := compareValues_snd (i := 0) (Nat.zero_add _) hsearch hreport
    simpa only [Nat.zero_add] using hsnd

variable {limitLength : ℕ}

/-- The comparison of an encoded key. -/
theorem sqlite3VdbeRecordCompare_eq (hdata : Storable limitLength fileFormat data)
    (hkey : Holds aKey 0 (encode fileFormat data)) :
    sqlite3VdbeRecordCompare u (encode fileFormat data).length aKey pPKey2
      = compareValues pPKey2 0 u (data.map Mem.content) pPKey2.aMem := by
  obtain ⟨hval, -, hdec⟩ := encoded_encode hdata.fits hdata.typeBytes_lt hkey
  rw [sqlite3VdbeRecordCompare, hval, compareFields_eq hdec]

/-- The buffer holds the record that `OP_MakeRecord` makes of the registers, with its zeros. -/
def HoldsRecord (limitLength fileFormat : ℕ) (regs : List Mem) (nKey : ℕ) (aKey : ℕ → UInt8) : Prop :=
  ∃ r, opMakeRecord limitLength fileFormat regs = some r ∧ nKey = r.z.length + r.nZero ∧
    Holds aKey 0 (r.z ++ List.replicate r.nZero 0)

theorem HoldsRecord.encode {regs : List Mem} (hdata : Storable limitLength fileFormat regs)
    (h : HoldsRecord limitLength fileFormat regs nKey aKey) :
    nKey = (encode fileFormat regs).length ∧ Holds aKey 0 (encode fileFormat regs) := by
  obtain ⟨r, hmade, rfl, hholds⟩ := h
  obtain ⟨r', hmade', hencode, -⟩ := opMakeRecord_eq hdata
  obtain rfl : r = r' := Option.some.inj (hmade.symm.trans hmade')
  rw [← hencode, List.length_append, List.length_replicate]
  exact ⟨rfl, hholds⟩

/-- Two encoded keys with equally many fields, each compared with the other unpacked. -/
theorem compare_unpackKey {a b : List Mem} {pKeyInfo : KeyInfo} {rowid : Int64} {nKey' : ℕ}
    {aKey' : ℕ → UInt8} (ha : Storable limitLength fileFormat a)
    (hb : Storable limitLength fileFormat b) (hlen : a.length = b.length)
    (hint : IntResults pKeyInfo (a.map Mem.content) (b.map Mem.content))
    (hfields : b.length ≤ pKeyInfo.nField + 1) (hkey : HoldsRecord limitLength fileFormat a nKey aKey)
    (hkey' : HoldsRecord limitLength fileFormat b nKey' aKey') :
    (sqlite3VdbeRecordCompare u nKey aKey (unpackKey pKeyInfo rowid nKey' aKey')).1
      = lexResult pKeyInfo 0 (a.map Mem.content) (b.map Mem.content) := by
  obtain ⟨rfl, hholds⟩ := hkey.encode ha
  obtain ⟨rfl, hholds'⟩ := hkey'.encode hb
  have hunpack : (unpackKey pKeyInfo rowid (encode fileFormat b).length aKey').aMem
      = b.map Mem.content := by
    rw [unpackKey, sqlite3VdbeRecordUnpack_encode hb.fits hb.typeBytes_lt hholds']
    exact List.take_of_length_le (by simpa using hfields)
  rw [sqlite3VdbeRecordCompare_eq ha hholds, hunpack, compareValues_fst _ (by simp [hlen]) hint]
  split
  · rfl
  · rename_i hzero
    rw [breakTie, unpackKey]
    simp only [List.length_map, hlen, Nat.sub_self, lt_self_iff_false, if_false, Bool.false_eq_true]
    exact (not_not.mp (mt (lexResult_ne_zero_iff hint).mp hzero)).symm

/-- Two results are opposite. -/
def Opposite (r r' : ℤ) : Prop := (r < 0 ↔ 0 < r') ∧ (r = 0 ↔ r' = 0) ∧ (0 < r ↔ r' < 0)

theorem opposite_lexResult_iff {pKeyInfo : KeyInfo} {xs ys : List Value}
    (hint : IntResults pKeyInfo xs ys) (hint' : IntResults pKeyInfo ys xs) :
    Opposite (lexResult pKeyInfo 0 xs ys) (lexResult pKeyInfo 0 ys xs) ↔
      Reversible pKeyInfo 0 xs ys ∧ Reversible pKeyInfo 0 ys xs := by
  have h₁ := lexCompare_neg_iff pKeyInfo 0 xs ys
  have h₂ := lexCompare_neg_iff pKeyInfo 0 ys xs
  obtain ⟨hrev, hmin⟩ := lexResult_spec (i := 0) hint
  obtain ⟨hrev', hmin'⟩ := lexResult_spec (i := 0) hint'
  rw [Opposite]
  by_cases h : Reversible pKeyInfo 0 xs ys <;> by_cases h' : Reversible pKeyInfo 0 ys xs
  · rw [hrev h, hrev' h']
    exact iff_of_true (by omega) ⟨h, h'⟩
  · have := hmin' h'
    rw [hrev h]
    exact iff_of_false (by omega) fun hboth => h' hboth.2
  · have := hmin h
    rw [hrev' h']
    exact iff_of_false (by omega) fun hboth => h hboth.1
  · -- both comparisons cannot be negative
    have := hmin h
    have := hmin' h'
    omega

/-- **Comparing an encoded key is comparing its values**, except for a -2^31 under DESC. -/
theorem sqlite3VdbeRecordCompare_encode (limitLength fileFormat : ℕ) (u rowid : Int64) :
    (∀ a nKey aKey pPKey2, Storable limitLength fileFormat a →
      HoldsRecord limitLength fileFormat a nKey aKey → pPKey2.aMem.length ≤ a.length →
      pPKey2.aMem.length ≤ pPKey2.pKeyInfo.nField + 1 →
      IntResults pPKey2.pKeyInfo (a.map Mem.content) pPKey2.aMem →
      (ComparesValues pPKey2 (a.map Mem.content) (sqlite3VdbeRecordCompare u nKey aKey pPKey2) ↔
        Reversible pPKey2.pKeyInfo 0 (a.map Mem.content) pPKey2.aMem)) ∧
    ∀ a b nKey aKey nKey' aKey' pKeyInfo, Storable limitLength fileFormat a →
      Storable limitLength fileFormat b → HoldsRecord limitLength fileFormat a nKey aKey →
      HoldsRecord limitLength fileFormat b nKey' aKey' → a.length = b.length →
      b.length ≤ pKeyInfo.nField + 1 →
      IntResults pKeyInfo (a.map Mem.content) (b.map Mem.content) →
      IntResults pKeyInfo (b.map Mem.content) (a.map Mem.content) →
      (Opposite (sqlite3VdbeRecordCompare u nKey aKey (unpackKey pKeyInfo rowid nKey' aKey')).1
          (sqlite3VdbeRecordCompare u nKey' aKey' (unpackKey pKeyInfo rowid nKey aKey)).1 ↔
        Reversible pKeyInfo 0 (a.map Mem.content) (b.map Mem.content) ∧
          Reversible pKeyInfo 0 (b.map Mem.content) (a.map Mem.content)) := by
  constructor
  · intro a nKey aKey pPKey2 ha hkey hlen _ hint
    obtain ⟨rfl, hholds⟩ := hkey.encode ha
    rw [sqlite3VdbeRecordCompare_eq ha hholds]
    exact comparesValues_compareValues (by simpa using hlen) hint
  · intro a b nKey aKey nKey' aKey' pKeyInfo ha hb hkey hkey' hlen hfields hint hint'
    rw [compare_unpackKey ha hb hlen hint hfields hkey hkey',
      compare_unpackKey hb ha hlen.symm hint' (hlen ▸ hfields) hkey' hkey]
    exact opposite_lexResult_iff hint hint'

/-- An index entry on one column, and a search for the column's value with another rowid. -/
def smallEntry : List Mem := [.value (.int 5), .value (.int 7)]

def smallSearch : UnpackedRecord where
  pKeyInfo := ⟨1, fun _ => none, fun _ => false⟩
  aMem := [.int 5, .int 9]
  incrKey := false
  prefixMatch := false
  prefixSearch := true
  rowid := 0

theorem intResults_small : IntResults smallSearch.pKeyInfo [.int 5, .int 7] [.int 5, .int 9] := by
  intro i x hx y hy
  simp only [List.mem_cons, List.not_mem_nil, or_false] at hx hy
  rcases hx with rfl | rfl <;> rcases hy with rfl | rfl <;>
    simp [compareField, sqlite3MemCompare, threeWay]

theorem compare_smallEntry :
    Storable 1000 4 smallEntry ∧ (ComparesValues smallSearch [.int 5, .int 7]
      (sqlite3VdbeRecordCompare 0 5 (fun i => [3, 1, 1, 5, 7].getD i 0) smallSearch) ↔
        Reversible smallSearch.pKeyInfo 0 [.int 5, .int 7] smallSearch.aMem) := by
  have hstorable : Storable 1000 4 smallEntry :=
    ⟨by decide, by decide, by decide, by decide, by decide⟩
  have hkey : HoldsRecord 1000 4 smallEntry 5 fun i => [3, 1, 1, 5, 7].getD i 0 :=
    ⟨⟨[3, 1, 1, 5, 7], 0⟩, by rfl, by rfl, by rfl⟩
  exact ⟨hstorable, (sqlite3VdbeRecordCompare_encode 1000 4 0 0).1 smallEntry 5 _ smallSearch
    hstorable hkey (by decide) (by decide) intResults_small⟩

/-- The difference is in the last field, so the rowid of the entry is reported. -/
example : (sqlite3VdbeRecordCompare 0 5 (fun i => [3, 1, 1, 5, 7].getD i 0) smallSearch).1 = -1 ∧
    (sqlite3VdbeRecordCompare 0 5 (fun i => [3, 1, 1, 5, 7].getD i 0) smallSearch).2.rowid = 7 := by
  decide

/-! ### A collating function that returns -2^31 -/

/-- The order of `BINARY`, with -2^31 for less. -/
def extreme (z₁ z₂ : List UInt8) : ℤ :=
  if blobCompare z₁ z₂ < 0 then -2147483648 else if blobCompare z₁ z₂ = 0 then 0 else 1

theorem extreme_nonpos (z₁ z₂ : List UInt8) : extreme z₁ z₂ ≤ 0 ↔ bytes z₁ ≤ bytes z₂ := by
  rw [← blobCompare_nonpos, extreme]
  split_ifs <;> omega

theorem extreme_nonneg (z₁ z₂ : List UInt8) : 0 ≤ extreme z₁ z₂ ↔ bytes z₂ ≤ bytes z₁ := by
  rw [← blobCompare_nonneg, extreme]
  split_ifs <;> omega

def extremeColl : CollSeq where
  convert := none
  xCmp := extreme
  order := by
    refine .of_swap ?_ ?_
    · intro x _ y _
      rw [extreme_nonpos, extreme_nonneg]
    · intro x _ y _ z _
      rw [extreme_nonpos, extreme_nonpos, extreme_nonpos]
      exact le_trans

/-- A search for `b` in an index with DESC. -/
def descSearch : UnpackedRecord where
  pKeyInfo := ⟨1, fun _ => some extremeColl, fun _ => true⟩
  aMem := [.text [98]]
  incrKey := false
  prefixMatch := false
  prefixSearch := false
  rowid := 0

/-- The entry `a` comes after `b` under DESC, and the code says before. -/
theorem not_forall_comparesValues : ¬∀ (limitLength fileFormat : ℕ) (u : Int64) (a : List Mem)
    (nKey : ℕ) (aKey : ℕ → UInt8) (pPKey2 : UnpackedRecord),
    Storable limitLength fileFormat a → HoldsRecord limitLength fileFormat a nKey aKey →
      pPKey2.aMem.length ≤ a.length → pPKey2.aMem.length ≤ pPKey2.pKeyInfo.nField + 1 →
      IntResults pPKey2.pKeyInfo (a.map Mem.content) pPKey2.aMem →
      ComparesValues pPKey2 (a.map Mem.content) (sqlite3VdbeRecordCompare u nKey aKey pPKey2) := by
  intro h
  have hint : IntResults descSearch.pKeyInfo [.text [97]] [.text [98]] := by
    intro i x hx y hy
    obtain rfl := List.mem_singleton.mp hx
    obtain rfl := List.mem_singleton.mp hy
    by_cases hi : i < 1 <;>
      simp [compareField, descSearch, hi, sqlite3MemCompare, extremeColl, CollSeq.text, extreme,
        blobCompare, memcmp, threeWay]
  have hcmp := h 1000 4 0 [.value (.text [97])] 3 (fun i => [2, 15, 97].getD i 0) descSearch
    ⟨by decide, by decide, by decide, by decide, by decide⟩ ⟨⟨[2, 15, 97], 0⟩, by rfl, by rfl, by rfl⟩
    (by decide) (by decide) hint
  exact absurd (hcmp.differ (by decide)) (by decide)

end Vdbe

end SqliteVms

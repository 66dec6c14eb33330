import SqliteVms.Vdbe.Serial

/-!
# Records

`OP_MakeRecord` of `vdbe.c` puts a list of registers into one record: a header with its own size and
the types of the values, then their bytes. A tail of zeros at the end of the record is counted and
not written. `sqlite3VdbeRecordUnpack` of `vdbeaux.c` reads the values again.

## Main definitions

* `opMakeRecord` — the record of a list of registers, or too big
* `encode` — what the record means: its bytes and its tail of zeros
* `sqlite3VdbeRecordUnpack` — the values of a record
* `Encoded` — a buffer in the middle of being decoded

## Main results

* `opMakeRecord_eq` — the record that is made
* `Encoded.next` — one step of every decoder
* `sqlite3VdbeRecordUnpack_encode` — the values are those that were put in
-/

namespace SqliteVms

namespace Vdbe

open Store Util

/-! ### Making a record -/

/-- The record in the output register: `z`, `n` and `u.nZero`. -/
structure Record where
  z : List UInt8
  nZero : ℕ

/-- The sums of the first loop. -/
structure Sizes where
  nData : ℕ
  nHdr : ℕ
  nZero : ℕ

/-- A blob with bytes and a tail is written out. -/
def expandPrefixed (pRec : Mem) : Mem :=
  if pRec.isZero = true ∧ 0 < pRec.z.length then sqlite3VdbeMemExpandBlob pRec else pRec

/-- `sqlite3VdbeSerialTypeLen` of the type of a register. -/
def fieldLen (fileFormat : ℕ) (pRec : Mem) : ℕ :=
  sqlite3VdbeSerialTypeLen (sqlite3VdbeSerialType pRec fileFormat)

/-- `sqlite3VarintLen` of the type of a register. -/
def typeLen (fileFormat : ℕ) (pRec : Mem) : ℕ :=
  sqlite3VarintLen (.ofNat (sqlite3VdbeSerialType pRec fileFormat))

/-- The body of the first loop. -/
def addField (fileFormat : ℕ) (s : Sizes) (pRec : Mem) : Sizes where
  nData := s.nData + fieldLen fileFormat pRec
  nHdr := s.nHdr + typeLen fileFormat pRec
  nZero :=
    if pRec.isZero then s.nZero + pRec.nZero
    else if fieldLen fileFormat pRec ≠ 0 then 0
    else s.nZero

/-- The size of the header with the varint for it. -/
def headerSize (nHdr : ℕ) : ℕ :=
  let nVarint := sqlite3VarintLen (.ofNat nHdr)
  if nVarint < sqlite3VarintLen (.ofNat (nHdr + nVarint)) then nHdr + nVarint + 1
  else nHdr + nVarint

/-- The loop that writes the types. -/
def putTypes (fileFormat : ℕ) (data : List Mem) : List UInt8 :=
  data.flatMap fun pRec => putVarint32 (.ofNat (sqlite3VdbeSerialType pRec fileFormat))

/-- The loop that writes the values, with room for `nBuf` bytes. -/
def putData (fileFormat : ℕ) : ℕ → List Mem → List UInt8
  | _, [] => []
  | nBuf, pRec :: data =>
    let xs := sqlite3VdbeSerialPut nBuf pRec fileFormat
    xs ++ putData fileFormat (nBuf - xs.length) data

/-- The record that is written once its sizes are known. -/
def writeRecord (fileFormat nHdr nByte nZero : ℕ) (data : List Mem) : Record :=
  let hdr := putVarint32 (.ofNat nHdr) ++ putTypes fileFormat data
  { z := hdr ++ putData fileFormat (nByte - hdr.length) data
    nZero := nZero }

/-- `OP_MakeRecord`, without affinities. The result is `none` where the opcode goes to `too_big`. -/
def opMakeRecord (limitLength fileFormat : ℕ) (regs : List Mem) : Option Record :=
  let data := regs.map expandPrefixed
  let s := data.foldl (addField fileFormat) ⟨0, 0, 0⟩
  let nHdr := headerSize s.nHdr
  let nByte := nHdr + s.nData - s.nZero
  if limitLength < nByte then none else some (writeRecord fileFormat nHdr nByte s.nZero data)

/-! ### Unpacking a record -/

/-- The loop of `sqlite3VdbeRecordUnpack`, with room for so many more fields. -/
def unpackFields (aKey : ℕ → UInt8) (nKey szHdr : ℕ) : ℕ → ℕ → ℕ → List Value
  | 0, _, _ => []
  | room + 1, idx, d =>
    if idx < szHdr ∧ d ≤ nKey then
      let serialType := getVarint32 fun i => aKey (idx + i)
      let field := sqlite3VdbeSerialGet (fun i => aKey (d + i)) serialType.1.toNat
      field.1 :: unpackFields aKey nKey szHdr room (idx + serialType.2) (d + field.2)
    else []

/-- `sqlite3VdbeRecordUnpack`: the fields of `p`, which has room for `nField` of them. -/
def sqlite3VdbeRecordUnpack (nField nKey : ℕ) (aKey : ℕ → UInt8) : List Value :=
  let szHdr := getVarint32 aKey
  unpackFields aKey nKey szHdr.1.toNat nField szHdr.2 szHdr.1.toNat

/-! ### The meaning of a record -/

variable {fileFormat : ℕ}

/-- The bytes of the types. -/
def typeBytes (fileFormat : ℕ) (data : List Mem) : ℕ := (data.map (typeLen fileFormat)).sum

/-- The bytes of the values, with all zeros. -/
def fullData (fileFormat : ℕ) (data : List Mem) : List UInt8 :=
  data.flatMap fun pRec => serialData pRec fileFormat

/-- The record that a list of registers stands for. -/
def encode (fileFormat : ℕ) (data : List Mem) : List UInt8 :=
  putVarint32 (.ofNat (headerSize (typeBytes fileFormat data))) ++ putTypes fileFormat data ++
    fullData fileFormat data

/-- Registers as the write loops see them. -/
structure Prepared (data : List Mem) : Prop where
  fits : ∀ pRec ∈ data, pRec.Fits
  pure : ∀ pRec ∈ data, pRec.isZero = true → pRec.z = []

theorem Prepared.tail {pRec : Mem} {data : List Mem} (h : Prepared (pRec :: data)) :
    Prepared data :=
  ⟨fun m hm => h.fits m (List.mem_cons_of_mem _ hm), fun m hm => h.pure m (List.mem_cons_of_mem _ hm)⟩

theorem Prepared.head {pRec : Mem} {data : List Mem} (h : Prepared (pRec :: data)) :
    pRec.Fits := h.fits _ List.mem_cons_self

@[simp] theorem fullData_cons (pRec : Mem) (data : List Mem) :
    fullData fileFormat (pRec :: data) = serialData pRec fileFormat ++ fullData fileFormat data := by
  simp [fullData]

@[simp] theorem putTypes_cons (pRec : Mem) (data : List Mem) :
    putTypes fileFormat (pRec :: data)
      = putVarint32 (.ofNat (sqlite3VdbeSerialType pRec fileFormat)) ++ putTypes fileFormat data := by
  simp [putTypes]

@[simp] theorem typeBytes_cons (pRec : Mem) (data : List Mem) :
    typeBytes fileFormat (pRec :: data) = typeLen fileFormat pRec + typeBytes fileFormat data := by
  simp [typeBytes]

theorem length_putVarint32_type (fileFormat : ℕ) (pRec : Mem) :
    (putVarint32 (.ofNat (sqlite3VdbeSerialType pRec fileFormat))).length
      = typeLen fileFormat pRec := by
  rw [(isVarint32_putVarint32 _).2, typeLen]
  congr 1
  rw [← UInt64.toNat_inj, UInt32.toNat_toUInt64, UInt32.toNat_ofNat', UInt64.toNat_ofNat']
  have := sqlite3VdbeSerialType_lt pRec fileFormat
  omega

theorem length_putTypes (data : List Mem) :
    (putTypes fileFormat data).length = typeBytes fileFormat data := by
  induction data with
  | nil => rfl
  | cons pRec data ih =>
    rw [putTypes_cons, List.length_append, ih, length_putVarint32_type, typeBytes_cons]

/-! ### The tail of zeros -/

/-- What the first loop does to `nZero`. -/
def zeroTail (fileFormat : ℕ) (nZero : ℕ) (data : List Mem) : ℕ :=
  data.foldl (fun nZero pRec => (addField fileFormat ⟨0, 0, nZero⟩ pRec).nZero) nZero

/-- The three sums are independent of each other. -/
theorem foldl_addField (s : Sizes) (data : List Mem) :
    data.foldl (addField fileFormat) s =
      ⟨s.nData + (data.map (fieldLen fileFormat)).sum, s.nHdr + typeBytes fileFormat data,
        zeroTail fileFormat s.nZero data⟩ := by
  induction data generalizing s with
  | nil => rfl
  | cons pRec data ih =>
    rw [List.foldl_cons, ih]
    simp only [addField, typeBytes, List.map_cons, List.sum_cons, Nat.add_assoc]
    rfl

theorem zeroTail_cons (nZero : ℕ) (pRec : Mem) (data : List Mem) :
    zeroTail fileFormat nZero (pRec :: data) =
      zeroTail fileFormat (addField fileFormat ⟨0, 0, nZero⟩ pRec).nZero data := rfl

/-- A value with bytes, after which the count of zeros starts again. -/
def Resets (fileFormat : ℕ) (pRec : Mem) : Prop :=
  pRec.isZero = false ∧ fieldLen fileFormat pRec ≠ 0

theorem zeroTail_of_resets {data : List Mem} (h : ∃ pRec ∈ data, Resets fileFormat pRec)
    (nZero : ℕ) : zeroTail fileFormat nZero data = zeroTail fileFormat 0 data := by
  induction data generalizing nZero with
  | nil => simp at h
  | cons pRec data ih =>
    by_cases hdata : ∃ pRec ∈ data, Resets fileFormat pRec
    · rw [zeroTail_cons, zeroTail_cons, ih hdata, ih hdata (addField _ _ _).nZero]
    · obtain ⟨m, hm, hres⟩ := h
      obtain rfl : m = pRec := by
        rcases List.mem_cons.mp hm with rfl | hm
        · rfl
        · exact absurd ⟨m, hm, hres⟩ hdata
      simp only [zeroTail_cons, addField, hres.1, hres.2, if_true, if_false, ne_eq,
        not_false_eq_true, Bool.false_eq_true]

theorem length_serialData_eq (fileFormat : ℕ) {pRec : Mem} (h : pRec.Fits) :
    (serialData pRec fileFormat).length = fieldLen fileFormat pRec := length_serialData h

theorem serialData_of_isZero (fileFormat : ℕ) {pRec : Mem} (hfits : pRec.Fits) (hzero : pRec.isZero = true)
    (hz : pRec.z = []) : serialData pRec fileFormat = List.replicate pRec.nZero 0 := by
  cases pRec with
  | value v => simp [Mem.isZero] at hzero
  | zeroBlob z nZero =>
    obtain rfl : z = [] := hz
    rw [serialData_zeroBlob (by simpa [Mem.Fits, Mem.content, Value.z] using hfits)]
    rfl

/-- Without a value with bytes everything is zeros. -/
theorem zeroTail_of_not_resets {data : List Mem} (hdata : Prepared data)
    (h : ¬ ∃ pRec ∈ data, Resets fileFormat pRec) (nZero : ℕ) :
    zeroTail fileFormat nZero data = nZero + (fullData fileFormat data).length ∧
      fullData fileFormat data = List.replicate (fullData fileFormat data).length 0 := by
  induction data generalizing nZero with
  | nil => simp [zeroTail, fullData]
  | cons pRec data ih =>
    have hnot : ¬ Resets fileFormat pRec := fun hr => h ⟨pRec, List.mem_cons_self, hr⟩
    have hlen := length_serialData_eq fileFormat hdata.head
    obtain ⟨htail, hrep⟩ := ih hdata.tail
      (fun ⟨m, hm, hr⟩ => h ⟨m, List.mem_cons_of_mem _ hm, hr⟩)
      (addField fileFormat ⟨0, 0, nZero⟩ pRec).nZero
    rw [zeroTail_cons, htail, fullData_cons, List.length_append]
    cases hzero : pRec.isZero with
    | true =>
      have hbytes := serialData_of_isZero fileFormat hdata.head hzero
        (hdata.pure _ List.mem_cons_self hzero)
      rw [hbytes, List.length_replicate, List.replicate_add, ← hrep]
      simp [addField, hzero, Nat.add_assoc]
    | false =>
      have hzlen : fieldLen fileFormat pRec = 0 := by
        by_contra hne
        exact hnot ⟨hzero, hne⟩
      have hnil : serialData pRec fileFormat = [] := List.length_eq_zero_iff.mp (hlen.trans hzlen)
      rw [hnil]
      refine ⟨?_, by simpa using hrep⟩
      simp [addField, hzero, hzlen]

theorem zeroTail_le (fileFormat : ℕ) {data : List Mem} (hdata : Prepared data) :
    zeroTail fileFormat 0 data ≤ (fullData fileFormat data).length := by
  induction data with
  | nil => simp [zeroTail]
  | cons pRec data ih =>
    by_cases h : ∃ pRec ∈ data, Resets fileFormat pRec
    · rw [zeroTail_cons, zeroTail_of_resets h, fullData_cons, List.length_append]
      exact (ih hdata.tail).trans (Nat.le_add_left _ _)
    · by_cases hall : ∃ m ∈ pRec :: data, Resets fileFormat m
      · -- the first value is the last one with bytes
        obtain ⟨hzero, hlen⟩ : Resets fileFormat pRec := by
          obtain ⟨m, hm, hr⟩ := hall
          rcases List.mem_cons.mp hm with rfl | hm
          · exact hr
          · exact absurd ⟨m, hm, hr⟩ h
        have hstep : (addField fileFormat ⟨0, 0, 0⟩ pRec).nZero = 0 := by
          simp [addField, hzero]
        rw [zeroTail_cons, hstep, fullData_cons, List.length_append]
        exact (ih hdata.tail).trans (Nat.le_add_left _ _)
      · rw [(zeroTail_of_not_resets hdata hall 0).1, Nat.zero_add]

/-- Only a blob with a tail is written according to the room that is left. -/
theorem sqlite3VdbeSerialPut_of_not_isZero {pRec : Mem} (h : pRec.isZero = false) (nBuf : ℕ) :
    sqlite3VdbeSerialPut nBuf pRec fileFormat = serialData pRec fileFormat := by
  simp [sqlite3VdbeSerialPut, serialData, h]

theorem sqlite3VdbeSerialPut_of_isZero {pRec : Mem} (hfits : pRec.Fits) (hzero : pRec.isZero = true)
    (hz : pRec.z = []) (nBuf : ℕ) :
    sqlite3VdbeSerialPut nBuf pRec fileFormat = List.replicate (min pRec.nZero nBuf) 0 := by
  cases pRec with
  | value v => simp [Mem.isZero] at hzero
  | zeroBlob z nZero =>
    obtain rfl : z = [] := hz
    have hlt : nZero < 2 ^ 31 - 6 := by simpa [Mem.Fits, Mem.content, Value.z] using hfits
    have htype : sqlite3VdbeSerialType (.zeroBlob [] nZero) fileFormat = nZero * 2 + 12 := by
      rw [sqlite3VdbeSerialType, List.length_nil, Nat.zero_add]
      omega
    have h7 : ¬ (nZero * 2 + 12 ≤ 7 ∧ 0 < nZero * 2 + 12) := by omega
    have h12 : 12 ≤ nZero * 2 + 12 := by omega
    simp only [sqlite3VdbeSerialPut, htype, h7, h12, if_true, if_false, Mem.isZero, Mem.z, Mem.nZero,
      List.length_nil, Nat.zero_add, Nat.sub_zero, List.nil_append]

/-- **The values are written up to the tail of zeros.** -/
theorem putData_append_replicate {data : List Mem} (hdata : Prepared data) {nBuf : ℕ}
    (h : nBuf + zeroTail fileFormat 0 data = (fullData fileFormat data).length) :
    putData fileFormat nBuf data ++ List.replicate (zeroTail fileFormat 0 data) 0
      = fullData fileFormat data := by
  induction data generalizing nBuf with
  | nil => simp [putData, fullData, zeroTail]
  | cons pRec data ih =>
    have hle := zeroTail_le fileFormat hdata.tail
    rw [fullData_cons, List.length_append, zeroTail_cons] at h
    rw [putData, fullData_cons, zeroTail_cons]
    cases hzero : pRec.isZero with
    | false =>
      have hstep : (addField fileFormat ⟨0, 0, 0⟩ pRec).nZero = 0 := by simp [addField, hzero]
      rw [hstep] at h ⊢
      simp only [sqlite3VdbeSerialPut_of_not_isZero hzero, List.append_assoc]
      rw [ih hdata.tail (by omega)]
    | true =>
      have hz := hdata.pure _ List.mem_cons_self hzero
      have hstep : (addField fileFormat ⟨0, 0, 0⟩ pRec).nZero = pRec.nZero := by
        simp [addField, hzero]
      rw [hstep] at h ⊢
      rw [serialData_of_isZero _ hdata.head hzero hz] at h ⊢
      rw [List.length_replicate] at h
      simp only [sqlite3VdbeSerialPut_of_isZero hdata.head hzero hz, List.length_replicate]
      by_cases hres : ∃ pRec ∈ data, Resets fileFormat pRec
      · -- the zeros are in front of other bytes, and there is room for them
        rw [zeroTail_of_resets hres] at h ⊢
        rw [Nat.min_eq_left (by omega), List.append_assoc, ih hdata.tail (by omega)]
      · -- the zeros and all that follows belong to the tail
        obtain ⟨htail, hrep⟩ := zeroTail_of_not_resets hdata.tail hres pRec.nZero
        have hzeros : 0 + zeroTail fileFormat 0 data = (fullData fileFormat data).length := by
          rw [Nat.zero_add, (zeroTail_of_not_resets hdata.tail hres 0).1, Nat.zero_add]
        have hfirst := ih hdata.tail hzeros
        rw [htail] at h ⊢
        obtain rfl : nBuf = 0 := by omega
        rw [(zeroTail_of_not_resets hdata.tail hres 0).1, Nat.zero_add] at hfirst
        have hnil : putData fileFormat 0 data = [] := by
          have hlen := congrArg List.length hfirst
          rw [List.length_append, List.length_replicate] at hlen
          exact List.length_eq_zero_iff.mp (by omega)
        simp only [Nat.min_zero, List.replicate_zero, Nat.sub_zero, List.nil_append, hnil]
        rw [List.replicate_add, ← hrep]

/-! ### The header -/

/-- Lengths of varints as far as headers need them. -/
theorem sqlite3VarintLen_bounds {n : ℕ} (h : n < 2 ^ 32) :
    0 < sqlite3VarintLen (.ofNat n) ∧ sqlite3VarintLen (.ofNat n) ≤ 5 ∧
      (sqlite3VarintLen (.ofNat n) ≤ 1 ↔ n < 2 ^ 7) ∧
      (sqlite3VarintLen (.ofNat n) ≤ 2 ↔ n < 2 ^ 14) ∧
      (sqlite3VarintLen (.ofNat n) ≤ 3 ↔ n < 2 ^ 21) ∧
      (sqlite3VarintLen (.ofNat n) ≤ 4 ↔ n < 2 ^ 28) := by
  have hn : (UInt64.ofNat n).toNat = n := by
    rw [UInt64.toNat_ofNat']
    omega
  have hiff : ∀ k, 0 < k → k < 9 → (sqlite3VarintLen (.ofNat n) ≤ k ↔ n < 2 ^ (7 * k)) := by
    intro k hk hk9
    rw [sqlite3VarintLen_le_iff hk hk9, hn]
  refine ⟨sqlite3VarintLen_pos _, (hiff 5 (by decide) (by decide)).mpr (by omega), ?_, ?_, ?_, ?_⟩
  · exact hiff 1 (by decide) (by decide)
  · exact hiff 2 (by decide) (by decide)
  · exact hiff 3 (by decide) (by decide)
  · exact hiff 4 (by decide) (by decide)

/-- **The size of a header counts the varint that holds it.** -/
theorem headerSize_eq {nHdr : ℕ} (h : nHdr < 2 ^ 21 - 4) :
    headerSize nHdr = sqlite3VarintLen (.ofNat (headerSize nHdr)) + nHdr := by
  have h₀ := sqlite3VarintLen_bounds (n := nHdr) (by omega)
  have h₁ := sqlite3VarintLen_bounds (n := nHdr + sqlite3VarintLen (.ofNat nHdr)) (by omega)
  rw [headerSize]
  split
  · have h₂ := sqlite3VarintLen_bounds (n := nHdr + sqlite3VarintLen (.ofNat nHdr) + 1) (by omega)
    omega
  · omega

theorem headerSize_bounds {nHdr : ℕ} (h : nHdr < 2 ^ 21 - 4) :
    nHdr < headerSize nHdr ∧ headerSize nHdr ≤ nHdr + 3 ∧
      (headerSize nHdr = nHdr + 3 ↔ 16382 ≤ nHdr) := by
  have h₀ := sqlite3VarintLen_bounds (n := nHdr) (by omega)
  have h₁ := sqlite3VarintLen_bounds (n := nHdr + sqlite3VarintLen (.ofNat nHdr)) (by omega)
  rw [headerSize]
  split <;> omega

theorem length_putVarint32_header {nHdr : ℕ} (h : nHdr < 2 ^ 21 - 4) :
    (putVarint32 (.ofNat (headerSize nHdr))).length + nHdr = headerSize nHdr := by
  have hb := headerSize_bounds h
  rw [(isVarint32_putVarint32 _).2]
  have hofNat : (UInt32.ofNat (headerSize nHdr)).toUInt64 = .ofNat (headerSize nHdr) := by
    rw [← UInt64.toNat_inj, UInt32.toNat_toUInt64, UInt32.toNat_ofNat', UInt64.toNat_ofNat']
    omega
  rw [hofNat]
  exact (headerSize_eq h).symm

theorem typeLen_bounds (fileFormat : ℕ) (pRec : Mem) :
    0 < typeLen fileFormat pRec ∧ typeLen fileFormat pRec ≤ 5 := by
  have h := sqlite3VarintLen_bounds (sqlite3VdbeSerialType_lt pRec fileFormat)
  exact ⟨h.1, h.2.1⟩

theorem typeBytes_le (fileFormat : ℕ) (data : List Mem) :
    typeBytes fileFormat data ≤ 5 * data.length := by
  induction data with
  | nil => simp [typeBytes]
  | cons pRec data ih =>
    have h := typeLen_bounds fileFormat pRec
    rw [typeBytes_cons, List.length_cons]
    omega

/-! ### The record -/

/-- Registers that make one record: at most 32767 of them, with values and a record within the
limit that `sqlite3_limit` allows, itself at most `SQLITE_MAX_LENGTH`. -/
structure Storable (limitLength fileFormat : ℕ) (regs : List Mem) : Prop where
  nonempty : regs ≠ []
  count : regs.length ≤ 32767
  limit : limitLength ≤ 1000000000
  values : ∀ pMem ∈ regs, pMem.content.z.length ≤ limitLength
  size : (encode fileFormat regs).length ≤ limitLength

namespace Storable

variable {limitLength : ℕ} {regs : List Mem}

theorem fits (h : Storable limitLength fileFormat regs) : ∀ pMem ∈ regs, pMem.Fits := by
  intro pMem hm
  have := h.values pMem hm
  have := h.limit
  rw [Mem.Fits]
  omega

theorem typeBytes_lt (h : Storable limitLength fileFormat regs) :
    typeBytes fileFormat regs < 2 ^ 21 - 4 := by
  have := typeBytes_le fileFormat regs
  have := h.count
  omega

end Storable

theorem content_expandPrefixed (pMem : Mem) : (expandPrefixed pMem).content = pMem.content := by
  rw [expandPrefixed]
  split <;> rfl

theorem serialType_expandPrefixed (pMem : Mem) :
    sqlite3VdbeSerialType (expandPrefixed pMem) fileFormat
      = sqlite3VdbeSerialType pMem fileFormat := by
  rw [expandPrefixed]
  split
  · cases pMem with
    | value v => rfl
    | zeroBlob z nZero =>
      simp [sqlite3VdbeMemExpandBlob, Mem.content, sqlite3VdbeSerialType]
  · rfl

theorem serialData_expandPrefixed {pMem : Mem} (h : pMem.Fits) :
    serialData (expandPrefixed pMem) fileFormat = serialData pMem fileFormat := by
  rw [expandPrefixed]
  split
  · cases pMem with
    | value v => rfl
    | zeroBlob z nZero =>
      have hlt : z.length + nZero < 2 ^ 31 - 6 := by
        simpa [Mem.Fits, Mem.content, Value.z] using h
      rw [serialData_zeroBlob hlt, sqlite3VdbeMemExpandBlob, Mem.content, serialData_blob (by simpa)]
  · rfl

/-- Writing out a blob changes neither the types nor the bytes. -/
theorem encode_expandPrefixed (fileFormat : ℕ) {regs : List Mem} (h : ∀ pMem ∈ regs, pMem.Fits) :
    typeBytes fileFormat (regs.map expandPrefixed) = typeBytes fileFormat regs ∧
      putTypes fileFormat (regs.map expandPrefixed) = putTypes fileFormat regs ∧
      fullData fileFormat (regs.map expandPrefixed) = fullData fileFormat regs := by
  refine ⟨?_, ?_, ?_⟩
  · simp only [typeBytes, List.map_map]
    congr 2
    funext pMem
    rw [Function.comp_apply, typeLen, typeLen, serialType_expandPrefixed]
  · simp only [putTypes, List.flatMap_map, serialType_expandPrefixed]
  · rw [fullData, fullData, List.flatMap_map]
    exact List.flatMap_congr fun pMem hm => serialData_expandPrefixed (h pMem hm)

theorem prepared_expandPrefixed {regs : List Mem} (h : ∀ pMem ∈ regs, pMem.Fits) :
    Prepared (regs.map expandPrefixed) := by
  constructor
  case fits =>
    intro m hm
    obtain ⟨pMem, hmem, rfl⟩ := List.mem_map.mp hm
    rw [Mem.Fits, content_expandPrefixed]
    exact h pMem hmem
  case pure =>
    intro m hm hzero
    obtain ⟨pMem, -, rfl⟩ := List.mem_map.mp hm
    rw [expandPrefixed] at hzero ⊢
    split at hzero
    · simp [sqlite3VdbeMemExpandBlob, Mem.isZero] at hzero
    · rename_i hnot
      rw [if_neg hnot]
      simpa [hzero] using hnot

theorem sum_fieldLen {data : List Mem} (h : ∀ pRec ∈ data, pRec.Fits) :
    (data.map (fieldLen fileFormat)).sum = (fullData fileFormat data).length := by
  rw [fullData, List.length_flatMap]
  congr 1
  exact List.map_congr_left fun pRec hm => (length_serialData_eq _ (h pRec hm)).symm

theorem length_encode {regs : List Mem} (h : typeBytes fileFormat regs < 2 ^ 21 - 4) :
    (encode fileFormat regs).length
      = headerSize (typeBytes fileFormat regs) + (fullData fileFormat regs).length := by
  rw [encode, List.length_append, List.length_append, length_putTypes, length_putVarint32_header h]

/-- **The record that is made.** Its bytes and its zeros are the encoding of the registers, and
their numbers are those that were computed first. -/
theorem opMakeRecord_eq {limitLength : ℕ} {regs : List Mem}
    (h : Storable limitLength fileFormat regs) :
    ∃ r, opMakeRecord limitLength fileFormat regs = some r ∧
      r.z ++ List.replicate r.nZero 0 = encode fileFormat regs ∧
      r.nZero = ((regs.map expandPrefixed).foldl (addField fileFormat) ⟨0, 0, 0⟩).nZero := by
  have hprep := prepared_expandPrefixed h.fits
  obtain ⟨htypes, hput, hfull⟩ := encode_expandPrefixed fileFormat h.fits
  have hle := zeroTail_le fileFormat hprep
  have hlen := length_encode h.typeBytes_lt
  have hhdr := length_putVarint32_header h.typeBytes_lt
  have hsize := h.size
  rw [opMakeRecord]
  simp only [foldl_addField, Nat.zero_add, sum_fieldLen hprep.fits, htypes, hfull]
  rw [hfull] at hle
  rw [if_neg (by omega)]
  refine ⟨_, rfl, ?_, rfl⟩
  simp only [writeRecord, hput, List.append_assoc]
  rw [putData_append_replicate hprep, hfull, encode, List.append_assoc]
  rw [hfull, List.length_append, length_putTypes]
  omega

/-- The sums of the first loop are the sizes of the encoding. -/
theorem foldl_addField_eq {limitLength : ℕ} {regs : List Mem}
    (h : Storable limitLength fileFormat regs) :
    ((regs.map expandPrefixed).foldl (addField fileFormat) ⟨0, 0, 0⟩).nHdr
        = typeBytes fileFormat regs ∧
      ((regs.map expandPrefixed).foldl (addField fileFormat) ⟨0, 0, 0⟩).nData
        = (fullData fileFormat regs).length := by
  have hprep := prepared_expandPrefixed h.fits
  obtain ⟨htypes, -, hfull⟩ := encode_expandPrefixed fileFormat h.fits
  simp only [foldl_addField, Nat.zero_add, sum_fieldLen hprep.fits, htypes, hfull, and_self]

/-! ### Decoding -/

/-- A decoder at the types in `idx` and the bytes in `d` of the registers that are still to come,
in a record with a header of `szHdr` and altogether `nKey` bytes. -/
structure Encoded (aKey : ℕ → UInt8) (nKey szHdr fileFormat idx d : ℕ) (data : List Mem) : Prop where
  fits : ∀ pRec ∈ data, pRec.Fits
  types : Holds aKey idx (putTypes fileFormat data)
  bytes : Holds aKey d (fullData fileFormat data)
  header : idx + (putTypes fileFormat data).length = szHdr
  size : d + (fullData fileFormat data).length = nKey

variable {aKey : ℕ → UInt8} {nKey szHdr idx d : ℕ} {pRec : Mem} {data : List Mem}

namespace Encoded

theorem readType (h : Encoded aKey nKey szHdr fileFormat idx d (pRec :: data)) :
    getVarint32 (fun i => aKey (idx + i))
      = (.ofNat (sqlite3VdbeSerialType pRec fileFormat), typeLen fileFormat pRec) := by
  have htypes := h.types
  rw [putTypes_cons] at htypes
  rw [getVarint32_putVarint32 _ (holds_append.mp htypes).1, length_putVarint32_type]

theorem toNat_readType (h : Encoded aKey nKey szHdr fileFormat idx d (pRec :: data)) :
    (getVarint32 fun i => aKey (idx + i)).1.toNat = sqlite3VdbeSerialType pRec fileFormat := by
  rw [h.readType, UInt32.toNat_ofNat']
  exact Nat.mod_eq_of_lt (sqlite3VdbeSerialType_lt pRec fileFormat)

/-- The value may be read from any buffer that has its bytes. -/
theorem readFrom (h : Encoded aKey nKey szHdr fileFormat idx d (pRec :: data)) {buf : ℕ → UInt8}
    (hbuf : ∀ i < fieldLen fileFormat pRec, buf i = aKey (d + i)) :
    sqlite3VdbeSerialGet buf (sqlite3VdbeSerialType pRec fileFormat)
      = (pRec.content, fieldLen fileFormat pRec) := by
  have hfits := h.fits _ List.mem_cons_self
  have hbytes := h.bytes
  rw [fullData_cons] at hbytes
  refine sqlite3VdbeSerialGet_eq hfits (holds_iff.mpr fun i hi => ?_)
  rw [Nat.zero_add, hbuf i (length_serialData_eq _ hfits ▸ hi)]
  exact (holds_append.mp hbytes).1.byte hi

theorem readValue (h : Encoded aKey nKey szHdr fileFormat idx d (pRec :: data)) :
    sqlite3VdbeSerialGet (fun i => aKey (d + i)) (sqlite3VdbeSerialType pRec fileFormat)
      = (pRec.content, fieldLen fileFormat pRec) := h.readFrom fun _ _ => rfl

theorem lt_header (h : Encoded aKey nKey szHdr fileFormat idx d (pRec :: data)) :
    idx + typeLen fileFormat pRec ≤ szHdr ∧ 0 < typeLen fileFormat pRec := by
  have hhdr := h.header
  have hpos := typeLen_bounds fileFormat pRec
  rw [putTypes_cons, List.length_append, length_putVarint32_type] at hhdr
  omega

theorem le_size (h : Encoded aKey nKey szHdr fileFormat idx d (pRec :: data)) :
    d + fieldLen fileFormat pRec ≤ nKey := by
  have hsize := h.size
  rw [fullData_cons, List.length_append, length_serialData_eq _ (h.fits _ List.mem_cons_self)] at hsize
  omega

/-- **One field further.** -/
theorem next (h : Encoded aKey nKey szHdr fileFormat idx d (pRec :: data)) :
    Encoded aKey nKey szHdr fileFormat (idx + typeLen fileFormat pRec)
      (d + fieldLen fileFormat pRec) data := by
  have hlen := length_serialData_eq fileFormat (h.fits _ List.mem_cons_self)
  have hlenType := length_putVarint32_type fileFormat pRec
  have htypes := h.types
  have hbytes := h.bytes
  have hhdr := h.header
  have hsize := h.size
  rw [putTypes_cons] at htypes hhdr
  rw [fullData_cons] at hbytes hsize
  rw [List.length_append, hlenType] at hhdr
  rw [List.length_append, hlen] at hsize
  constructor
  case fits => exact fun m hm => h.fits m (List.mem_cons_of_mem _ hm)
  case types => simpa only [hlenType] using (holds_append.mp htypes).2
  case bytes => simpa only [hlen] using (holds_append.mp hbytes).2
  case header => omega
  case size => omega

theorem header_eq (h : Encoded aKey nKey szHdr fileFormat idx d []) : idx = szHdr := h.header

end Encoded

/-- **A record is ready to be decoded**: the varint in front is the size of the header. -/
theorem encoded_encode (hfits : ∀ pRec ∈ data, pRec.Fits)
    (hlt : typeBytes fileFormat data < 2 ^ 21 - 4) (h : Holds aKey 0 (encode fileFormat data)) :
    (getVarint32 aKey).1.toNat = headerSize (typeBytes fileFormat data) ∧
      (getVarint32 aKey).2 + typeBytes fileFormat data = headerSize (typeBytes fileFormat data) ∧
      Encoded aKey (encode fileFormat data).length (headerSize (typeBytes fileFormat data)) fileFormat
        (getVarint32 aKey).2 (headerSize (typeBytes fileFormat data)) data := by
  have hlen := length_putVarint32_header hlt
  have hsize := length_encode hlt
  have hbound := headerSize_bounds hlt
  rw [encode, List.append_assoc] at h
  obtain ⟨hhdr, hrest⟩ := holds_append.mp h
  obtain ⟨htypes, hbytes⟩ := holds_append.mp hrest
  have hget := getVarint32_putVarint32 (UInt32.ofNat (headerSize (typeBytes fileFormat data))) hhdr
  simp only [Nat.zero_add] at hget
  rw [hget]
  rw [Nat.zero_add] at htypes hbytes
  rw [length_putTypes, hlen] at hbytes
  refine ⟨?_, hlen, ⟨hfits, htypes, hbytes, ?_, hsize.symm⟩⟩
  · rw [UInt32.toNat_ofNat']
    omega
  · rw [length_putTypes, hlen]

/-- The loop, from any field on. -/
theorem unpackFields_eq (h : Encoded aKey nKey szHdr fileFormat idx d data) (room : ℕ) :
    unpackFields aKey nKey szHdr room idx d = (data.map Mem.content).take room := by
  induction data generalizing idx d room with
  | nil =>
    have hidx := h.header_eq
    cases room with
    | zero => rfl
    | succ room =>
      rw [unpackFields, if_neg (by omega)]
      rfl
  | cons pRec data ih =>
    cases room with
    | zero => rfl
    | succ room =>
      have hlt := h.lt_header
      have hle := h.le_size
      rw [unpackFields, if_pos (by omega)]
      simp only [h.toNat_readType, h.readValue]
      rw [h.readType, ih h.next]
      rfl

/-- **Unpacking returns the values that were put in**, as many as there is room for. -/
theorem sqlite3VdbeRecordUnpack_encode (hfits : ∀ pRec ∈ data, pRec.Fits)
    (hlt : typeBytes fileFormat data < 2 ^ 21 - 4) (h : Holds aKey 0 (encode fileFormat data))
    (nField : ℕ) :
    sqlite3VdbeRecordUnpack nField (encode fileFormat data).length aKey
      = (data.map Mem.content).take nField := by
  obtain ⟨hval, -, hdec⟩ := encoded_encode hfits hlt h
  rw [sqlite3VdbeRecordUnpack, hval, unpackFields_eq hdec]

end Vdbe

end SqliteVms

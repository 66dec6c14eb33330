import SqliteVms.Vdbe.Record
import SqliteVms.Lib.BigEndian

/-!
# The size of a record

`OP_MakeRecord` adds up the sizes of the values in the integer types of C and tests the sum against
the length limit, less the tail of zeros, which is not stored. `OP_Column` and the B-tree see the
record with its tail. So a record may be made that nobody accepts afterwards.

The sums wrap around where their types end. The tail is the only one that can: the limit is below
2^31, and the registers of a program are one block of memory whose size is an `int`, so that there
are fewer than 2^26 of them.

## Main definitions

* `CSizes`, `recordSizes` — the sums in the types of C
* `ReadsBack` — a record that is made is accepted where it is read
* `fullSize` — the size of a record with its tail

## Main results

* `foldl_addFieldC` — the sums of C are the exact ones, wrapped around
* `readsBack_iff` — the tail is the exact condition
-/

namespace SqliteVms

namespace Vdbe

open BigEndian Util

/-! ### The sums of C -/

/-- The sums of the first loop: `nData` is an `u64`, `nHdr` and `nZero` are `int`. -/
structure CSizes where
  nData : ℕ
  nHdr : ℤ
  nZero : ℤ

/-- The body of the first loop. -/
def addFieldC (fileFormat : ℕ) (s : CSizes) (pRec : Mem) : CSizes where
  nData := (s.nData + fieldLen fileFormat pRec) % 2 ^ 64
  nHdr := toInt32 (s.nHdr + typeLen fileFormat pRec)
  nZero :=
    if pRec.isZero then toInt32 (s.nZero + pRec.nZero)
    else if fieldLen fileFormat pRec ≠ 0 then 0
    else s.nZero

/-- The header with the varint for its own size. -/
def headerSizeC (nHdr : ℤ) : ℤ :=
  let nVarint := sqlite3VarintLen (.ofInt nHdr)
  let nHdr := toInt32 (nHdr + nVarint)
  if nVarint < sqlite3VarintLen (.ofInt nHdr) then toInt32 (nHdr + 1) else nHdr

/-- `nByte` and `nZero` of the record of some registers. -/
def recordSizes (fileFormat : ℕ) (regs : List Mem) : ℤ × ℤ :=
  let s := (regs.map expandPrefixed).foldl (addFieldC fileFormat) ⟨0, 0, 0⟩
  ((headerSizeC s.nHdr + s.nData - s.nZero).bmod (2 ^ 64), s.nZero)

/-- The payload size that `fillInCell` computes from `nData` and `nZero`. -/
def nPayload (nData nZero : ℤ) : ℤ := toInt32 (nData + nZero)

/-! ### What is asked of a record -/

/-- `SQLITE_MAX_LENGTH`, the upper bound of `SQLITE_LIMIT_LENGTH`. -/
def maxLength : ℕ := 1000000000

/-- Values as `OP_MakeRecord` gets them: each within the limit, in registers that fit one block of
memory. -/
structure Registers (limitLength : ℕ) (regs : List Mem) : Prop where
  limit_le : limitLength ≤ maxLength
  count_le : regs.length ≤ 2 ^ 26
  length_le : ∀ pRec ∈ regs, pRec.content.z.length ≤ limitLength

/-- The exact sums of some registers, each of which is in the range of its type. -/
structure InRange (s : Sizes) : Prop where
  nData : s.nData < 2 ^ 64
  nHdr : s.nHdr < 2 ^ 31
  nZero : s.nZero < 2 ^ 31

/-- The exact sums after the first `k` registers. -/
def sizesAfter (fileFormat : ℕ) (regs : List Mem) (k : ℕ) : Sizes :=
  ((regs.take k).map expandPrefixed).foldl (addField fileFormat) ⟨0, 0, 0⟩

/-- A record that `OP_MakeRecord` makes can be read: with its tail it is within the limit, nothing
has overflowed, and the B-tree stores so many bytes. -/
def ReadsBack (limitLength fileFormat : ℕ) (regs : List Mem) : Prop :=
  let (nByte, nZero) := recordSizes fileFormat regs
  nByte ≤ limitLength →
    nByte + nZero ≤ limitLength ∧
    (∀ k, InRange (sizesAfter fileFormat regs k)) ∧
    headerSize (sizesAfter fileFormat regs regs.length).nHdr < 2 ^ 31 ∧
    nPayload nByte nZero = nByte + nZero

/-- The size of the record with its tail. -/
def fullSize (fileFormat : ℕ) (regs : List Mem) : ℕ :=
  headerSize (typeBytes fileFormat (regs.map expandPrefixed)) +
    ((regs.map expandPrefixed).map (fieldLen fileFormat)).sum

/-- The length of its tail: the blobs of zeros behind the last value with bytes. -/
def tailSize (fileFormat : ℕ) (regs : List Mem) : ℕ :=
  zeroTail fileFormat 0 (regs.map expandPrefixed)

/-! ### The sums of C are the exact ones, wrapped around -/

variable {limitLength fileFormat : ℕ} {regs : List Mem}

theorem toInt32_add (x y : ℤ) : toInt32 (toInt32 x + y) = toInt32 (x + y) := by
  rw [toInt32, toInt32, toInt32, Int.bmod_add_bmod]

/-- What does not fit wraps around to less. -/
theorem toInt32_le_sub {n : ℕ} (h : 2 ^ 31 ≤ n) : toInt32 n ≤ n - 2 ^ 32 := by
  have hlt : (n : ℤ).bmod (2 ^ 32) < 2 ^ 31 := Int.bmod_lt (by decide)
  have hdiv := Int.bmod_add_bdiv n (2 ^ 32)
  rw [toInt32]
  omega

theorem toInt32_zero : toInt32 0 = 0 := toInt32_of_lt (n := 0) (by decide)

/-- **The sums of C are the exact ones, wrapped around.** -/
theorem foldl_addFieldC (data : List Mem) (s : Sizes) :
    data.foldl (addFieldC fileFormat) ⟨s.nData % 2 ^ 64, toInt32 s.nHdr, toInt32 s.nZero⟩ =
      let t := data.foldl (addField fileFormat) s
      ⟨t.nData % 2 ^ 64, toInt32 t.nHdr, toInt32 t.nZero⟩ := by
  induction data generalizing s with
  | nil => rfl
  | cons pRec data ih =>
    rw [List.foldl_cons, List.foldl_cons, ← ih]
    congr 1
    have hzero : (addFieldC fileFormat ⟨s.nData % 2 ^ 64, toInt32 s.nHdr, toInt32 s.nZero⟩ pRec).nZero
        = toInt32 ((addField fileFormat s pRec).nZero : ℕ) := by
      rw [addFieldC, addField]
      dsimp only
      split
      · rw [toInt32_add, Nat.cast_add]
      · split
        · exact toInt32_zero.symm
        · rfl
    rw [← hzero, addFieldC, addField]
    congr 1
    · exact Nat.mod_add_mod _ _ _
    · rw [toInt32_add, Nat.cast_add]

theorem fieldLen_lt (fileFormat : ℕ) (pRec : Mem) : fieldLen fileFormat pRec < 2 ^ 31 := by
  have hlt := sqlite3VdbeSerialType_lt pRec fileFormat
  rw [fieldLen, sqlite3VdbeSerialTypeLen]
  generalize sqlite3VdbeSerialType pRec fileFormat = t at hlt
  split
  · omega
  · rename_i h12
    have ht : t < 12 := by omega
    revert ht
    generalize t = u
    intro ht
    interval_cases u <;> decide

theorem sum_fieldLen_le (fileFormat : ℕ) (data : List Mem) :
    (data.map (fieldLen fileFormat)).sum ≤ data.length * 2 ^ 31 := by
  induction data with
  | nil => simp
  | cons pRec data ih =>
    have := fieldLen_lt fileFormat pRec
    rw [List.map_cons, List.sum_cons, List.length_cons, Nat.succ_mul]
    omega

/-- The exact sums after some registers. -/
theorem sizesAfter_eq (fileFormat : ℕ) (regs : List Mem) (k : ℕ) : sizesAfter fileFormat regs k =
    ⟨(((regs.take k).map expandPrefixed).map (fieldLen fileFormat)).sum,
      typeBytes fileFormat ((regs.take k).map expandPrefixed), tailSize fileFormat (regs.take k)⟩ := by
  rw [sizesAfter, foldl_addField, Nat.zero_add, Nat.zero_add, tailSize]

/-- A header of fewer than 2^30 bytes of types is counted as it is. -/
theorem headerSizeC_eq {nHdr : ℕ} (h : nHdr < 2 ^ 30) :
    headerSizeC nHdr = headerSize nHdr ∧ headerSize nHdr ≤ nHdr + 10 := by
  have hlen := (sqlite3VarintLen_bounds (show nHdr < 2 ^ 32 by omega)).2.1
  have hsum : toInt32 ((nHdr : ℤ) + (sqlite3VarintLen (.ofNat nHdr) : ℕ))
      = (nHdr + sqlite3VarintLen (.ofNat nHdr) : ℕ) := by
    rw [← Nat.cast_add, toInt32_of_lt (by omega)]
  have hsucc : toInt32 ((nHdr + sqlite3VarintLen (.ofNat nHdr) : ℕ) + 1 : ℤ)
      = (nHdr + sqlite3VarintLen (.ofNat nHdr) + 1 : ℕ) := by
    rw [← Nat.cast_succ, toInt32_of_lt (by omega)]
  have hofInt : ∀ n : ℕ, UInt64.ofInt n = .ofNat n := fun n => by
    rw [UInt64.ofInt, ← UInt64.toNat_inj, UInt64.toNat_ofNat', UInt64.toNat_ofNat']
    omega
  rw [headerSizeC, headerSize, hofInt, hsum, hofInt, hsucc]
  split <;> exact ⟨rfl, by omega⟩

namespace Registers

variable (h : Registers limitLength regs)
include h

theorem fits : ∀ pRec ∈ regs, pRec.Fits := by
  intro pRec hm
  have := h.length_le pRec hm
  have := h.limit_le
  rw [maxLength] at this
  rw [Mem.Fits]
  omega

/-- The tail is part of the values. -/
theorem tailSize_le (fileFormat : ℕ) :
    tailSize fileFormat regs ≤ ((regs.map expandPrefixed).map (fieldLen fileFormat)).sum := by
  have hprep := prepared_expandPrefixed h.fits
  rw [sum_fieldLen hprep.fits]
  exact zeroTail_le fileFormat hprep

theorem take (k : ℕ) : Registers limitLength (regs.take k) where
  limit_le := h.limit_le
  count_le := (List.length_take_le' k regs).trans h.count_le
  length_le pRec hm := h.length_le pRec (List.mem_of_mem_take hm)

theorem typeBytes_lt (fileFormat : ℕ) :
    typeBytes fileFormat (regs.map expandPrefixed) < 2 ^ 30 := by
  have hle := typeBytes_le fileFormat (regs.map expandPrefixed)
  have := h.count_le
  rw [List.length_map] at hle
  omega

/-- What C computes: the tail wrapped around, and the exact size less that. -/
theorem recordSizes_eq (fileFormat : ℕ) : recordSizes fileFormat regs =
    ((fullSize fileFormat regs : ℤ) - toInt32 (tailSize fileFormat regs),
      toInt32 (tailSize fileFormat regs)) := by
  have hfold : (regs.map expandPrefixed).foldl (addFieldC fileFormat) _ = _ :=
    foldl_addFieldC (regs.map expandPrefixed) ⟨0, 0, 0⟩
  rw [foldl_addField, Nat.zero_add, Nat.zero_add] at hfold
  dsimp only at hfold
  rw [Nat.cast_zero, toInt32_zero, Nat.zero_mod] at hfold
  have hsum := sum_fieldLen_le fileFormat (regs.map expandPrefixed)
  have hcount := h.count_le
  rw [List.length_map] at hsum
  have htypes := h.typeBytes_lt fileFormat
  obtain ⟨hhdr, hhdrle⟩ := headerSizeC_eq htypes
  have htail : -2 ^ 31 ≤ toInt32 (tailSize fileFormat regs) := neg_le_toInt32 _
  have htail' : toInt32 (tailSize fileFormat regs) < 2 ^ 31 := by
    rw [toInt32]
    exact Int.bmod_lt (by decide)
  rw [recordSizes, hfold]
  dsimp only
  rw [toInt32_of_lt (n := typeBytes fileFormat _) (by omega), hhdr, Nat.mod_eq_of_lt (by omega),
    ← tailSize, Int.bmod_eq_of_le (by omega) (by omega), fullSize, Nat.cast_add]

/-- Below the limit nothing overflows. -/
theorem inRange (hsize : fullSize fileFormat regs < 2 ^ 31) (k : ℕ) :
    InRange (sizesAfter fileFormat regs k) := by
  have hle : ((regs.take k).map expandPrefixed).Sublist (regs.map expandPrefixed) :=
    (List.take_sublist k regs).map _
  have hsum : (((regs.take k).map expandPrefixed).map (fieldLen fileFormat)).sum
      ≤ ((regs.map expandPrefixed).map (fieldLen fileFormat)).sum :=
    List.Sublist.sum_le_sum (hle.map _) fun _ _ => Nat.zero_le _
  have htail := (h.take k).tailSize_le fileFormat
  have htypes := (h.take k).typeBytes_lt fileFormat
  rw [fullSize] at hsize
  rw [sizesAfter_eq]
  constructor
  case nData =>
    dsimp only
    omega
  case nHdr =>
    dsimp only
    omega
  case nZero =>
    dsimp only
    omega

end Registers

/-- **The tail decides.** A record that is made is accepted where it is read exactly when it is
within the limit with its tail, or is beyond the limit without it, so that it is not made at all, or
its tail is of 2^31 bytes or more, with which it is not made either. -/
theorem readsBack_iff (fileFormat : ℕ) (h : Registers limitLength regs) :
    ReadsBack limitLength fileFormat regs ↔ fullSize fileFormat regs ≤ limitLength ∨
      limitLength < fullSize fileFormat regs - tailSize fileFormat regs ∨
      2 ^ 31 ≤ tailSize fileFormat regs := by
  have hlimit := h.limit_le
  rw [maxLength] at hlimit
  have htail := h.tailSize_le fileFormat
  have hfull : ((regs.map expandPrefixed).map (fieldLen fileFormat)).sum
      ≤ fullSize fileFormat regs := Nat.le_add_left _ _
  rw [ReadsBack, h.recordSizes_eq]
  dsimp only
  constructor
  · intro hread
    by_contra hnot
    rw [not_or, not_or] at hnot
    obtain ⟨hbig, hsmall, hshort⟩ := hnot
    rw [toInt32_of_lt (by omega)] at hread
    have := (hread (by omega)).1
    omega
  · rintro (hsize | hbig | hlong) hmade
    · rw [toInt32_of_lt (by omega)] at hmade ⊢
      refine ⟨by omega, h.inRange (by omega), ?_, ?_⟩
      · rw [sizesAfter_eq, List.take_length]
        have := (headerSizeC_eq (h.typeBytes_lt fileFormat)).2
        have := h.typeBytes_lt fileFormat
        dsimp only
        omega
      · rw [nPayload, Int.sub_add_cancel, toInt32_of_lt (by omega)]
    · -- the record without its tail is beyond the limit
      rcases Nat.lt_or_ge (tailSize fileFormat regs) (2 ^ 31) with hlt | hge
      · rw [toInt32_of_lt hlt] at hmade
        omega
      · have := toInt32_le_sub hge
        omega
    · -- the tail wraps around, and is not taken off
      have := toInt32_le_sub hlong
      omega

/-- A blob of zeros of the length limit makes a record that is longer. -/
theorem not_readsBack_zeroblob :
    Registers maxLength [.zeroBlob [] maxLength] ∧
      ¬ ReadsBack maxLength 4 [.zeroBlob [] maxLength] := by
  have hsizes : recordSizes 4 [.zeroBlob [] maxLength] = (6, 1000000000) := by decide +kernel
  refine ⟨⟨Nat.le_refl _, by decide, fun pRec hm => ?_⟩, fun h => ?_⟩
  · obtain rfl := List.mem_singleton.mp hm
    rw [Mem.content, Value.z, List.nil_append, List.length_replicate]
  · rw [ReadsBack, hsizes] at h
    exact absurd (h (by decide)).1 (by decide)

/-- A short record with a tail. -/
theorem readsBack_iff_short : ReadsBack maxLength 4 [.value (.int 1), .zeroBlob [] 10] ↔
    fullSize 4 [.value (.int 1), .zeroBlob [] 10] ≤ maxLength ∨
      maxLength < fullSize 4 [.value (.int 1), .zeroBlob [] 10]
        - tailSize 4 [.value (.int 1), .zeroBlob [] 10] ∨
      2 ^ 31 ≤ tailSize 4 [.value (.int 1), .zeroBlob [] 10] := by
  refine readsBack_iff 4 ⟨Nat.le_refl _, by decide, ?_⟩
  decide

end Vdbe

end SqliteVms

import SqliteVms.Vdbe.Serial
import SqliteVms.Lib.BigEndian

/-!
# The space of an unpacked record

`sqlite3VdbeAllocUnpackedRecord` of `vdbeaux.c` puts an `UnpackedRecord` and its array of `Mem` into
a buffer of the caller, shifted up to an aligned address, or into memory of its own when the buffer
is too small. `sqlite3VdbeRecordUnpack` then fills the array, one `Mem` for each field of a key.

The shift takes bytes away from the buffer, and the test adds them. The two differ when the size that
is needed is in a window around the size of the buffer, as wide as twice the shift.

Addresses and sizes are numbers; the sizes of the two structures are those of the platform. The
value of a field is not used here, its type and its place are.

## Main definitions

* `sqlite3VdbeAllocUnpackedRecord` — where the record goes
* `unpackLoop` — the fields that are unpacked, with the offsets they are read from
* `Contained` — what is written is inside the memory that was chosen

## Main results

* `length_unpackLoop_allNulls` — there are keys that fill the array
* `unpackedRecord_inside_iff` — exactly when every key fits
-/

namespace SqliteVms

namespace Vdbe

open BigEndian Util

/-! ### Where the record goes -/

/-- `ROUND8`. -/
def round8 (x : ℕ) : ℕ := (x + 7) / 8 * 8

/-- The sizes of the two structures. What the largest record needs is an `int`. -/
structure Platform where
  szRecord : ℕ
  szMem : ℕ
  szMem_pos : 0 < szMem
  nByte_lt : round8 szRecord + szMem * 2 ^ 16 < 2 ^ 31

/-- The shift of an address to one that is a multiple of eight. -/
def nOff (pSpace : ℕ) : ℕ := (8 - pSpace % 8) % 8

/-- What a record with `nField + 1` fields needs. -/
def Platform.nByte (L : Platform) (nField : UInt16) : ℕ :=
  round8 L.szRecord + L.szMem * (nField.toNat + 1)

/-- The record as it is returned: its address, `nField`, and `*ppFree`. -/
structure RecordSpace where
  p : ℕ
  nField : UInt16
  ppFree : Option ℕ

/-- `sqlite3VdbeAllocUnpackedRecord`, for a key with `nField` columns. -/
def sqlite3VdbeAllocUnpackedRecord (L : Platform) (malloc : ℕ → Option ℕ) (nField : UInt16)
    (pSpace szSpace : ℕ) : Option RecordSpace :=
  if toInt32 (szSpace + nOff pSpace) < L.nByte nField then
    (malloc (L.nByte nField)).map fun p => ⟨p, nField + 1, some p⟩
  else some ⟨pSpace + nOff pSpace, nField + 1, none⟩

/-! ### Unpacking -/

/-- A turn of the loop: the offset of the type, the offset of the value, and the type. -/
structure Visit where
  idx : ℕ
  d : ℤ
  serialType : ℕ

/-- The loop of `sqlite3VdbeRecordUnpack`, with room for so many more fields. `idx` is an `u32` and
`d` is an `int`. -/
def unpackLoop (aKey : ℕ → UInt8) (nKey : ℤ) (szHdr : ℕ) : ℕ → ℕ → ℤ → List Visit
  | 0, _, _ => []
  | room + 1, idx, d =>
    if idx < szHdr ∧ d ≤ nKey then
      let serialType := getVarint32 fun i => aKey (idx + i)
      ⟨idx, d, serialType.1.toNat⟩ ::
        unpackLoop aKey nKey szHdr room ((idx + serialType.2) % 2 ^ 32)
          (toInt32 (d + sqlite3VdbeSerialTypeLen serialType.1.toNat))
    else []

/-- The fields that `sqlite3VdbeRecordUnpack` reads from a key. -/
def unpackVisits (nField : UInt16) (nKey : ℤ) (aKey : ℕ → UInt8) : List Visit :=
  let szHdr := getVarint32 aKey
  unpackLoop aKey nKey szHdr.1.toNat nField.toNat szHdr.2 (toInt32 szHdr.1.toNat)

/-- The memory that is written: the record itself, then one `Mem` for each field. -/
def recordWrites (L : Platform) (r : RecordSpace) (nKey : ℤ) (aKey : ℕ → UInt8) : List (ℕ × ℕ) :=
  (r.p, L.szRecord) ::
    (List.range (unpackVisits r.nField nKey aKey).length).map fun i =>
      (r.p + round8 L.szRecord + L.szMem * i, L.szMem)

/-- The memory that was chosen: the buffer, or what was allocated. -/
def chosenSpace (L : Platform) (nField : UInt16) (pSpace szSpace : ℕ) (r : RecordSpace) : ℕ × ℕ :=
  match r.ppFree with
  | none => (pSpace, szSpace)
  | some p => (p, L.nByte nField)

/-- The bytes of one range are among those of another. -/
def Within (x y : ℕ × ℕ) : Prop := y.1 ≤ x.1 ∧ x.1 + x.2 ≤ y.1 + y.2

/-- For every key, everything that is written is inside the memory that was chosen. -/
def Contained (L : Platform) (malloc : ℕ → Option ℕ) (nField : UInt16) (pSpace szSpace : ℕ) :
    Prop :=
  ∀ r, sqlite3VdbeAllocUnpackedRecord L malloc nField pSpace szSpace = some r →
    ∀ (nKey : ℤ) (aKey : ℕ → UInt8), ∀ w ∈ recordWrites L r nKey aKey,
      Within w (chosenSpace L nField pSpace szSpace r)

/-- What a record takes: `nField + 1` in the type of the field. -/
def Platform.used (L : Platform) (nField : UInt16) : ℕ :=
  round8 L.szRecord + L.szMem * (nField + 1).toNat

/-! ### The sizes -/

theorem le_round8 (x : ℕ) : x ≤ round8 x := by
  rw [round8]
  omega

theorem nOff_le (pSpace : ℕ) : nOff pSpace ≤ 7 := by
  rw [nOff]
  omega

theorem toNat_succ_le (nField : UInt16) : (nField + 1).toNat ≤ nField.toNat + 1 := by
  rw [UInt16.toNat_add]
  exact Nat.mod_le _ _

variable {L : Platform} {malloc : ℕ → Option ℕ} {nField : UInt16} {pSpace szSpace : ℕ}

theorem used_le_nByte (L : Platform) (nField : UInt16) : L.used nField ≤ L.nByte nField :=
  Nat.add_le_add_left (Nat.mul_le_mul_left _ (toNat_succ_le nField)) _

/-! ### How many fields are unpacked -/

theorem length_unpackLoop_le (aKey : ℕ → UInt8) (nKey : ℤ) (szHdr room idx : ℕ) (d : ℤ) :
    (unpackLoop aKey nKey szHdr room idx d).length ≤ room := by
  induction room generalizing idx d with
  | zero => exact Nat.le_refl _
  | succ room ih =>
    rw [unpackLoop]
    split
    · exact Nat.succ_le_succ (ih _ _)
    · exact Nat.zero_le _

/-- A key with a header of a megabyte that holds NULLs only. -/
def allNulls : ℕ → UInt8
  | 0 => 0xC0
  | 1 => 0x80
  | _ => 0

theorem getVarint32_allNulls : getVarint32 allNulls = (0x100000, 3) := by decide

theorem getVarint32_allNulls_field {idx : ℕ} (h : 2 ≤ idx) :
    getVarint32 (fun i => allNulls (idx + i)) = (0, 1) := by
  obtain ⟨k, rfl⟩ := Nat.exists_eq_add_of_le' h
  rfl

theorem length_unpackLoop_allNulls {room idx : ℕ} (hidx : 2 ≤ idx) (hroom : idx + room ≤ 2 ^ 20) :
    (unpackLoop allNulls (2 ^ 20) (2 ^ 20) room idx (2 ^ 20)).length = room := by
  induction room generalizing idx with
  | zero => rfl
  | succ room ih =>
    have hnext : (idx + 1) % 2 ^ 32 = idx + 1 := Nat.mod_eq_of_lt (by omega)
    have hlen : toInt32 (2 ^ 20 + (sqlite3VdbeSerialTypeLen (0 : UInt32).toNat : ℤ)) = 2 ^ 20 :=
      toInt32_of_lt (n := 2 ^ 20) (by decide)
    rw [unpackLoop, if_pos ⟨by omega, Int.le_refl _⟩, getVarint32_allNulls_field hidx]
    dsimp only
    rw [hnext, hlen, List.length_cons, ih (by omega) (by omega)]

/-- **A key may fill the whole array.** -/
theorem length_unpackVisits_allNulls (nField : UInt16) :
    (unpackVisits nField (2 ^ 20) allNulls).length = nField.toNat := by
  have hfields := nField.toNat_lt
  have hstart : toInt32 ((0x100000 : UInt32).toNat : ℤ) = 2 ^ 20 :=
    toInt32_of_lt (n := 2 ^ 20) (by decide)
  rw [unpackVisits, getVarint32_allNulls]
  dsimp only
  rw [hstart]
  exact length_unpackLoop_allNulls (by decide) (by omega)

/-! ### What is written -/

/-- What is written lies between the start of the record and the end of its array. -/
theorem recordWrites_within (r : RecordSpace) (nKey : ℤ) (aKey : ℕ → UInt8) {w : ℕ × ℕ}
    (hw : w ∈ recordWrites L r nKey aKey) :
    Within w (r.p, round8 L.szRecord + L.szMem * r.nField.toNat) := by
  rw [recordWrites, List.mem_cons, List.mem_map] at hw
  rcases hw with rfl | ⟨i, hi, rfl⟩
  · have hround := le_round8 L.szRecord
    exact ⟨Nat.le_refl _, by dsimp only; omega⟩
  · have hlt : i + 1 ≤ r.nField.toNat :=
      Nat.lt_of_lt_of_le (List.mem_range.mp hi) (length_unpackLoop_le _ _ _ _ _ _)
    have hmul := Nat.mul_le_mul_left L.szMem hlt
    rw [Nat.mul_succ] at hmul
    exact ⟨by dsimp only; omega, by dsimp only; omega⟩

/-- The last `Mem` is written when the key fills the array. -/
theorem lastWrite_mem (r : RecordSpace) (h : 0 < r.nField.toNat) :
    (r.p + round8 L.szRecord + L.szMem * (r.nField.toNat - 1), L.szMem)
      ∈ recordWrites L r (2 ^ 20) allNulls := by
  rw [recordWrites, length_unpackVisits_allNulls]
  refine List.mem_cons_of_mem _ (List.mem_map.mpr ⟨_, List.mem_range.mpr ?_, rfl⟩)
  omega

theorem contained_of_alloc (h : toInt32 (szSpace + nOff pSpace) < L.nByte nField) :
    Contained L malloc nField pSpace szSpace := by
  intro r hr nKey aKey w hw
  rw [sqlite3VdbeAllocUnpackedRecord, if_pos h, Option.map_eq_some_iff] at hr
  obtain ⟨p, -, rfl⟩ := hr
  have hin := recordWrites_within _ nKey aKey hw
  have hused := used_le_nByte L nField
  rw [Platform.used] at hused
  exact ⟨hin.1, Nat.le_trans hin.2 (Nat.add_le_add_left hused _)⟩

theorem contained_of_fits (h : nOff pSpace + L.used nField ≤ szSpace) :
    Contained L malloc nField pSpace szSpace := by
  by_cases halloc : toInt32 (szSpace + nOff pSpace) < L.nByte nField
  · exact contained_of_alloc halloc
  intro r hr nKey aKey w hw
  rw [sqlite3VdbeAllocUnpackedRecord, if_neg halloc] at hr
  cases hr
  have hin := recordWrites_within _ nKey aKey hw
  rw [Platform.used] at h
  exact ⟨Nat.le_trans (Nat.le_add_right _ _) hin.1, by
    refine Nat.le_trans hin.2 ?_
    dsimp only [chosenSpace]
    omega⟩

theorem toInt32_natCast_le (n : ℕ) : toInt32 n ≤ n := by
  rw [toInt32, Int.bmod_def]
  split
  · omega
  · omega

/-- With the largest number of columns `nField` becomes zero, and the space for the fields that are
not unpacked pays for the shift. -/
theorem fits_of_used_zero (hzero : (nField + 1).toNat = 0)
    (hbuf : ¬toInt32 (szSpace + nOff pSpace) < L.nByte nField) :
    nOff pSpace + L.used nField ≤ szSpace := by
  have hle := toInt32_natCast_le (szSpace + nOff pSpace)
  have hoff := nOff_le pSpace
  have hfields : nField.toNat + 1 = 2 ^ 16 := by
    rw [UInt16.toNat_add] at hzero
    have hlt := nField.toNat_lt
    have hone : (1 : UInt16).toNat = 1 := rfl
    omega
  have hpos := L.szMem_pos
  rw [Platform.nByte, hfields] at hbuf
  rw [Platform.used, hzero]
  push_cast at hle hbuf ⊢
  omega

/-- The other direction: a record in a buffer that it does not fit ends outside of it. -/
theorem fits_of_contained (h : Contained L malloc nField pSpace szSpace)
    (hbuf : ¬toInt32 (szSpace + nOff pSpace) < L.nByte nField) :
    nOff pSpace + L.used nField ≤ szSpace := by
  by_cases hzero : (nField + 1).toNat = 0
  · exact fits_of_used_zero hzero hbuf
  have hin := h _ (if_neg hbuf) (2 ^ 20) allNulls
  have hlast := (hin _ (lastWrite_mem _ (Nat.pos_of_ne_zero hzero))).2
  dsimp only [chosenSpace] at hlast
  rw [Platform.used]
  have hsucc : (nField + 1).toNat - 1 + 1 = (nField + 1).toNat := by omega
  have hmul := Nat.mul_succ L.szMem ((nField + 1).toNat - 1)
  rw [Nat.succ_eq_add_one, hsucc] at hmul
  omega

/-! ### When every key fits -/

/-- **What is unpacked stays in the memory that was chosen** exactly if memory is allocated, or the
buffer has room for the shift as well. -/
theorem unpackedRecord_inside_iff (L : Platform) (malloc : ℕ → Option ℕ) (nField : UInt16)
    (pSpace szSpace : ℕ) :
    Contained L malloc nField pSpace szSpace ↔
      toInt32 (szSpace + nOff pSpace) < L.nByte nField ∨
        nOff pSpace + L.used nField ≤ szSpace := by
  constructor
  · intro h
    by_cases hbuf : toInt32 (szSpace + nOff pSpace) < L.nByte nField
    · exact Or.inl hbuf
    · exact Or.inr (fits_of_contained h hbuf)
  · intro h
    rcases h with halloc | hfits
    · exact contained_of_alloc halloc
    · exact contained_of_fits hfits

/-- The sizes with pointers of eight bytes. -/
def lp64 : Platform := ⟨32, 56, by decide, by decide⟩

/-- The buffer of `btreeMoveto` at an odd address: the array of an index on one column ends one byte
behind it. -/
theorem not_contained_btreeMoveto : ¬Contained lp64 (fun _ => some 4096) 1 1 150 := by
  intro h
  have hsum : toInt32 ((150 : ℕ) + nOff 1 : ℤ) = 157 := toInt32_of_lt (n := 157) (by decide)
  have hbuf : ¬toInt32 ((150 : ℕ) + nOff 1 : ℤ) < lp64.nByte 1 := by
    rw [hsum]
    decide
  exact absurd (fits_of_contained h hbuf) (by decide)

end Vdbe

end SqliteVms

import SqliteVms.Btree.Page
import SqliteVms.Vdbe.RecordCompare
import SqliteVms.Vdbe.Unpack

/-!
# Corrupt records

`sqlite3VdbeRecordUnpack`, `sqlite3VdbeRecordCompare` and `sqlite3VdbeIdxRowid` of `vdbeaux.c` on
any bytes. The size of the header, the types and with them the lengths come from the record; the offset
of the next value is an `int`. What the functions do to the bytes of a key is a list of events: a
read, a text or blob that is handed on, and an offset before it is stored.

Each loop ends after the fields of the right key, or of the space for the record.

## Main definitions

* `recordUnpackEvents`, `recordCompareEvents`, `idxRowidEvents` — the three functions
* `UnpackInside`, `CompareInside`, `RowidInside` — the records that they are safe for

## Main results

* `decoding_safe_iff` — exactly when every event is inside the key
-/

namespace SqliteVms

namespace Vdbe

open BigEndian Util

/-! ### The code -/

/-- What happens to the bytes of a key. -/
inductive Event
  | read (pos n : ℤ)
  | text (pos n : ℤ)
  | offset (d : ℤ)

/-- Reads end before `nRead` bytes, texts are inside the key, and an offset is an `int` that is not
negative. -/
def Event.Safe (nKey nRead : ℤ) : Event → Prop
  | .read pos n => 0 ≤ pos ∧ pos + n ≤ nRead
  | .text pos n => 0 ≤ pos ∧ pos + n ≤ nKey
  | .offset d => 0 ≤ d ∧ d < 2 ^ 31

/-- `sqlite3VdbeSerialGet` at an offset: a number is read, a text or blob is handed on. -/
def getEvents (d : ℤ) (serialType : ℕ) : List Event :=
  if 12 ≤ serialType then [.text d (sqlite3VdbeSerialTypeLen serialType)]
  else if sqlite3VdbeSerialTypeLen serialType = 0 then []
  else [.read d (sqlite3VdbeSerialTypeLen serialType)]

/-- A turn of the loop of `sqlite3VdbeRecordUnpack`. -/
def visitEvents (aKey : ℕ → UInt8) (v : Visit) : List Event :=
  .read v.idx (getVarint32 fun i => aKey (v.idx + i)).2 :: getEvents v.d v.serialType ++
    [.offset (v.d + sqlite3VdbeSerialTypeLen v.serialType)]

/-- What is read and stored before a loop. -/
def headerEvents (aKey : ℕ → UInt8) : List Event :=
  [.read 0 (getVarint32 aKey).2, .offset (toInt32 (getVarint32 aKey).1.toNat)]

/-- `sqlite3VdbeRecordUnpack`, with room for `nField` fields. -/
def recordUnpackEvents (nField : UInt16) (nKey : ℕ) (aKey : ℕ → UInt8) : List Event :=
  headerEvents aKey ++ (unpackVisits nField nKey aKey).flatMap (visitEvents aKey)

/-- The loop of `sqlite3VdbeRecordCompare`, with the fields of the right key that are left. -/
def compareEvents (aKey1 : ℕ → UInt8) (nKey1 : ℤ) (szHdr1 : ℕ) (pKeyInfo : KeyInfo) :
    List Value → ℕ → ℕ → ℤ → List Event
  | [], _, _, _ => []
  | pMem2 :: aMem, i, idx1, d1 =>
    if idx1 < szHdr1 then
      let serialType1 := getVarint32 fun k => aKey1 (idx1 + k)
      let len := sqlite3VdbeSerialTypeLen serialType1.1.toNat
      .read idx1 serialType1.2 ::
        if nKey1 ≤ d1 ∧ 0 < len then []
        else
          getEvents d1 serialType1.1.toNat ++ .offset (d1 + len) ::
            if compareField pKeyInfo i
              (sqlite3VdbeSerialGet (fun k => aKey1 (d1 + k).toNat) serialType1.1.toNat).1 pMem2 ≠ 0
            then []
            else compareEvents aKey1 nKey1 szHdr1 pKeyInfo aMem (i + 1)
              ((idx1 + serialType1.2) % 2 ^ 32) (toInt32 (d1 + len))
    else []

/-- `sqlite3VdbeRecordCompare`. -/
def recordCompareEvents (nKey1 : ℕ) (aKey1 : ℕ → UInt8) (pPKey2 : UnpackedRecord) : List Event :=
  let szHdr1 := getVarint32 aKey1
  headerEvents aKey1 ++ compareEvents aKey1 nKey1 szHdr1.1.toNat pPKey2.pKeyInfo pPKey2.aMem 0
    szHdr1.2 (toInt32 szHdr1.1.toNat)

/-- `sqlite3VdbeIdxRowid`, for an entry of `n` bytes. -/
def idxRowidEvents (n : ℕ) (z : ℕ → UInt8) : List Event :=
  let szHdr := (getVarint32 z).1.toNat
  .read 0 (getVarint32 z).2 ::
    if szHdr < 3 ∨ n < toInt32 szHdr then []
    else
      let typeRowid := getVarint32 fun i => z (szHdr - 1 + i)
      let lenRowid := sqlite3VdbeSerialTypeLen typeRowid.1.toNat
      .read ((szHdr : ℤ) - 1) typeRowid.2 ::
        if typeRowid.1.toNat < 1 ∨ 9 < typeRowid.1.toNat ∨ typeRowid.1.toNat = 7 then []
        else if n < (szHdr + lenRowid) % 2 ^ 32 then []
        else getEvents ((n : ℤ) - lenRowid) typeRowid.1.toNat

/-! ### The condition -/

/-- A text or blob of the type at `d` ends in the key, and the offset behind it is an `int`. -/
def FieldInside (nKey : ℕ) (serialType d : ℕ) : Prop :=
  (12 ≤ serialType → d + sqlite3VdbeSerialTypeLen serialType ≤ nKey) ∧
    d + sqlite3VdbeSerialTypeLen serialType < 2 ^ 31

/-- The fields of a record from the offsets on, as far as they begin in the key. -/
def UnpackInside (aKey : ℕ → UInt8) (nKey szHdr : ℕ) : ℕ → ℕ → ℕ → Prop
  | 0, _, _ => True
  | room + 1, idx, d =>
    idx < szHdr → d ≤ nKey →
      FieldInside nKey (getVarint32 fun i => aKey (idx + i)).1.toNat d ∧
        UnpackInside aKey nKey szHdr room (idx + (getVarint32 fun i => aKey (idx + i)).2)
          (d + sqlite3VdbeSerialTypeLen (getVarint32 fun i => aKey (idx + i)).1.toNat)

/-- The fields of a record, as far as they are equal to those of the right key: the header does not
go on behind the key, and a field that is not behind the key ends in it. -/
def CompareInside (aKey1 : ℕ → UInt8) (nKey1 szHdr1 : ℕ) (pKeyInfo : KeyInfo) :
    List Value → ℕ → ℕ → ℕ → Prop
  | [], _, _, _ => True
  | pMem2 :: aMem, i, idx1, d1 =>
    idx1 < szHdr1 →
      idx1 + (getVarint32 fun k => aKey1 (idx1 + k)).2 ≤ nKey1 + 18 ∧
        (¬(nKey1 ≤ d1 ∧ 0 < sqlite3VdbeSerialTypeLen
            (getVarint32 fun k => aKey1 (idx1 + k)).1.toNat) →
          FieldInside nKey1 (getVarint32 fun k => aKey1 (idx1 + k)).1.toNat d1 ∧
          (compareField pKeyInfo i (sqlite3VdbeSerialGet (fun k => aKey1 (d1 + k))
              (getVarint32 fun k => aKey1 (idx1 + k)).1.toNat).1 pMem2 = 0 →
            CompareInside aKey1 nKey1 szHdr1 pKeyInfo aMem (i + 1)
              (idx1 + (getVarint32 fun k => aKey1 (idx1 + k)).2)
              (d1 + sqlite3VdbeSerialTypeLen (getVarint32 fun k => aKey1 (idx1 + k)).1.toNat)))

/-- The varints at the beginning of an entry and at the end of its header end in the entry. -/
def RowidInside (n : ℕ) (z : ℕ → UInt8) : Prop :=
  (getVarint32 z).2 ≤ n ∧
    ((getVarint32 z).1.toNat < 3 ∨
      n < (getVarint32 z).1.toNat ∧ (getVarint32 z).1.toNat < 2 ^ 31 ∨
      (getVarint32 z).1.toNat - 1 +
        (getVarint32 fun i => z ((getVarint32 z).1.toNat - 1 + i)).2 ≤ n)

/-! ### One field -/

theorem lt_skipVarint (p : ℕ → UInt8) (left i : ℕ) : i < skipVarint p (left + 1) i := by
  induction left generalizing i with
  | zero =>
    rw [skipVarint, skipVarint]
    split <;> exact Nat.lt_succ_self i
  | succ left ih =>
    rw [skipVarint]
    split
    · exact (Nat.lt_succ_self i).trans (ih (i + 1))
    · exact Nat.lt_succ_self i

theorem getVarint32_length_pos (p : ℕ → UInt8) : 0 < (getVarint32 p).2 := by
  have hlen : 0 < (sqlite3GetVarint p).2 := by
    rw [sqlite3GetVarint_length]
    exact lt_skipVarint p 8 0
  rw [getVarint32]
  split
  · exact Nat.one_pos
  · rw [sqlite3GetVarint32]
    split
    · exact Nat.two_pos
    · dsimp only
      split
      · exact Nat.succ_pos 2
      · exact hlen

theorem serialTypeLen_small : ∀ t : Fin 12, sqlite3VdbeSerialTypeLen t ≤ 8 := by decide

theorem serialTypeLen_le {serialType : ℕ} (h : serialType < 12) :
    sqlite3VdbeSerialTypeLen serialType ≤ 8 :=
  serialTypeLen_small ⟨serialType, h⟩

theorem toInt32_neg {n : ℕ} (h : 2 ^ 31 ≤ n) (hlt : n < 2 ^ 32) : toInt32 n < 0 := by
  rw [toInt32, Int.bmod_def]
  omega

/-- A value that does not begin behind the key. -/
theorem getEvents_safe_iff {nKey d serialType : ℕ}
    (h : d ≤ nKey ∨ sqlite3VdbeSerialTypeLen serialType = 0) :
    (∀ e ∈ getEvents d serialType, e.Safe nKey (nKey + 18)) ↔
      (12 ≤ serialType → d + sqlite3VdbeSerialTypeLen serialType ≤ nKey) := by
  rw [getEvents]
  by_cases htext : 12 ≤ serialType
  · rw [if_pos htext, List.forall_mem_singleton, Event.Safe, imp_iff_right htext]
    omega
  · have hlen := serialTypeLen_le (not_le.mp htext)
    rw [if_neg htext]
    refine iff_of_true ?_ fun hle => absurd hle htext
    by_cases hzero : sqlite3VdbeSerialTypeLen serialType = 0
    · rw [if_pos hzero]
      exact fun e he => absurd he List.not_mem_nil
    · rw [if_neg hzero, List.forall_mem_singleton, Event.Safe]
      have hle := h.resolve_right hzero
      omega

theorem offset_safe_iff {nKey d : ℕ} {nRead : ℤ} :
    (Event.offset d).Safe nKey nRead ↔ d < 2 ^ 31 := by
  rw [Event.Safe]
  omega

theorem headerEvents_safe_iff {nKey : ℕ} {aKey : ℕ → UInt8} :
    (∀ e ∈ headerEvents aKey, e.Safe nKey (nKey + 18)) ↔ (getVarint32 aKey).1.toNat < 2 ^ 31 := by
  have hlen := Btree.getVarint32_length_le aKey
  have hlt := (getVarint32 aKey).1.toNat_lt
  rw [headerEvents, List.forall_mem_cons, List.forall_mem_singleton]
  rw [and_iff_right (by rw [Event.Safe]; omega)]
  by_cases h : (getVarint32 aKey).1.toNat < 2 ^ 31
  · rw [toInt32_of_lt h]
    exact offset_safe_iff
  · refine iff_of_false (fun hsafe => ?_) h
    exact absurd hsafe.1 (not_le.mpr (toInt32_neg (not_lt.mp h) hlt))

/-! ### The loops -/

/-- **The loop of `sqlite3VdbeRecordUnpack`.** The header is read no further than the values. -/
theorem unpackLoop_safe_iff {aKey : ℕ → UInt8} {nKey szHdr : ℕ} (room : ℕ) {idx d : ℕ}
    (hd : szHdr ≤ d) (hlt : d < 2 ^ 31) :
    (∀ e ∈ (unpackLoop aKey nKey szHdr room idx d).flatMap (visitEvents aKey),
      e.Safe nKey (nKey + 18)) ↔ UnpackInside aKey nKey szHdr room idx d := by
  induction room generalizing idx d with
  | zero => exact iff_of_true (fun e he => absurd he List.not_mem_nil) trivial
  | succ room ih =>
    rw [unpackLoop, UnpackInside]
    by_cases hturn : idx < szHdr ∧ (d : ℤ) ≤ nKey
    · have hin : d ≤ nKey := by exact_mod_cast hturn.2
      rw [if_pos hturn, imp_iff_right hturn.1, imp_iff_right hin]
      have hlen := Btree.getVarint32_length_le fun i => aKey (idx + i)
      generalize hserial : getVarint32 (fun i => aKey (idx + i)) = serialType at *
      dsimp only
      rw [List.flatMap_cons, List.forall_mem_append, visitEvents, List.cons_append,
        List.forall_mem_cons, List.forall_mem_append, List.forall_mem_singleton]
      dsimp only
      rw [hserial, getEvents_safe_iff (Or.inl hin), FieldInside]
      have hread : (Event.read idx serialType.2).Safe nKey (nKey + 18) := by
        rw [Event.Safe]
        omega
      have hsum : ((d : ℤ) + sqlite3VdbeSerialTypeLen serialType.1.toNat) =
          ((d + sqlite3VdbeSerialTypeLen serialType.1.toNat : ℕ) : ℤ) := by
        rw [Nat.cast_add]
      rw [hsum, offset_safe_iff, and_iff_right hread]
      refine and_congr_right fun hfield => ?_
      have hmod : (idx + serialType.2) % 2 ^ 32 = idx + serialType.2 :=
        Nat.mod_eq_of_lt (by omega)
      rw [hmod, toInt32_of_lt hfield.2]
      exact ih (by omega) hfield.2
    · rw [if_neg hturn]
      refine iff_of_true (fun e he => absurd he List.not_mem_nil) fun hidx hle => ?_
      exact absurd ⟨hidx, by exact_mod_cast hle⟩ hturn

/-- **The loop of `sqlite3VdbeRecordCompare`.** -/
theorem compareEvents_safe_iff {aKey1 : ℕ → UInt8} {nKey1 szHdr1 : ℕ} (hhdr : szHdr1 < 2 ^ 31)
    (pKeyInfo : KeyInfo) (aMem : List Value) (i : ℕ) {idx1 d1 : ℕ} (hlt : d1 < 2 ^ 31) :
    (∀ e ∈ compareEvents aKey1 nKey1 szHdr1 pKeyInfo aMem i idx1 d1, e.Safe nKey1 (nKey1 + 18)) ↔
      CompareInside aKey1 nKey1 szHdr1 pKeyInfo aMem i idx1 d1 := by
  induction aMem generalizing i idx1 d1 with
  | nil => exact iff_of_true (fun e he => absurd he List.not_mem_nil) trivial
  | cons pMem2 aMem ih =>
    rw [compareEvents, CompareInside]
    by_cases hturn : idx1 < szHdr1
    · rw [if_pos hturn, imp_iff_right hturn]
      have hlen := Btree.getVarint32_length_le fun k => aKey1 (idx1 + k)
      generalize getVarint32 (fun k => aKey1 (idx1 + k)) = serialType at *
      dsimp only
      have hread : (Event.read idx1 serialType.2).Safe nKey1 (nKey1 + 18) ↔
          idx1 + serialType.2 ≤ nKey1 + 18 := by
        rw [Event.Safe]
        omega
      rw [List.forall_mem_cons, hread]
      refine and_congr_right fun _ => ?_
      by_cases hbehind : nKey1 ≤ d1 ∧ 0 < sqlite3VdbeSerialTypeLen serialType.1.toNat
      · rw [if_pos (by exact_mod_cast hbehind)]
        exact iff_of_true (fun e he => absurd he List.not_mem_nil) fun h => absurd hbehind h
      rw [if_neg (by exact_mod_cast hbehind), imp_iff_right hbehind]
      have hbegin : d1 ≤ nKey1 ∨ sqlite3VdbeSerialTypeLen serialType.1.toNat = 0 := by omega
      have hsum : ((d1 : ℤ) + sqlite3VdbeSerialTypeLen serialType.1.toNat) =
          ((d1 + sqlite3VdbeSerialTypeLen serialType.1.toNat : ℕ) : ℤ) := by
        rw [Nat.cast_add]
      have hvalue : (fun k : ℕ => aKey1 ((d1 : ℤ) + k).toNat) = fun k => aKey1 (d1 + k) := by
        funext k
        rw [← Nat.cast_add, Int.toNat_natCast]
      rw [List.forall_mem_append, List.forall_mem_cons, getEvents_safe_iff hbegin, hsum,
        offset_safe_iff, hvalue, ← and_assoc, FieldInside]
      refine and_congr_right fun hfield => ?_
      by_cases hequal : compareField pKeyInfo i
          (sqlite3VdbeSerialGet (fun k => aKey1 (d1 + k)) serialType.1.toNat).1 pMem2 = 0
      · have hmod : (idx1 + serialType.2) % 2 ^ 32 = idx1 + serialType.2 :=
          Nat.mod_eq_of_lt (by omega)
        rw [if_neg (not_not.mpr hequal), imp_iff_right hequal, hmod, toInt32_of_lt hfield.2]
        exact ih (i + 1) hfield.2
      · rw [if_pos hequal]
        exact iff_of_true (fun e he => absurd he List.not_mem_nil) fun h => absurd h hequal
    · rw [if_neg hturn]
      exact iff_of_true (fun e he => absurd he List.not_mem_nil) fun h => absurd h hturn

/-- **`sqlite3VdbeIdxRowid`.** The integer at the end of the entry is inside it. -/
theorem idxRowidEvents_safe_iff {n : ℕ} {z : ℕ → UInt8} (hn : n < 2 ^ 31) :
    (∀ e ∈ idxRowidEvents n z, e.Safe n n) ↔ RowidInside n z := by
  have hlt := (getVarint32 z).1.toNat_lt
  have hread : (Event.read 0 (getVarint32 z).2).Safe n n ↔ (getVarint32 z).2 ≤ n := by
    rw [Event.Safe]
    omega
  rw [idxRowidEvents, RowidInside]
  dsimp only
  rw [List.forall_mem_cons, hread]
  refine and_congr_right fun _ => ?_
  generalize (getVarint32 z).1.toNat = szHdr at *
  by_cases hsmall : szHdr < 3
  · rw [if_pos (Or.inl hsmall)]
    exact iff_of_true (fun e he => absurd he List.not_mem_nil) (Or.inl hsmall)
  refine Iff.trans ?_ (or_iff_right hsmall).symm
  have hpos := getVarint32_length_pos fun i => z (szHdr - 1 + i)
  generalize getVarint32 (fun i => z (szHdr - 1 + i)) = typeRowid at *
  have hlast : (Event.read ((szHdr : ℤ) - 1) typeRowid.2).Safe n n ↔
      szHdr - 1 + typeRowid.2 ≤ n := by
    rw [Event.Safe]
    omega
  by_cases hhalf : szHdr < 2 ^ 31
  · rw [toInt32_of_lt hhalf]
    by_cases hlong : n < szHdr
    · rw [if_pos (Or.inr (by exact_mod_cast hlong))]
      exact iff_of_true (fun e he => absurd he List.not_mem_nil) (Or.inl ⟨hlong, hhalf⟩)
    have hin : ¬(n < szHdr ∧ szHdr < 2 ^ 31) := fun h => hlong h.1
    rw [if_neg (not_or.mpr ⟨hsmall, by exact_mod_cast hlong⟩), or_iff_right hin,
      List.forall_mem_cons, hlast, and_iff_left]
    split
    · exact fun e he => absurd he List.not_mem_nil
    rename_i htype
    have hlen := serialTypeLen_le (show typeRowid.1.toNat < 12 by omega)
    split
    · exact fun e he => absurd he List.not_mem_nil
    rename_i hend
    rw [Nat.mod_eq_of_lt (by omega)] at hend
    rw [getEvents, if_neg (by omega)]
    split
    · exact fun e he => absurd he List.not_mem_nil
    · rw [List.forall_mem_singleton, Event.Safe]
      omega
  · -- as an `int` the size of the header is negative
    have hneg := toInt32_neg (not_lt.mp hhalf) hlt
    rw [if_neg (not_or.mpr ⟨hsmall, by omega⟩), List.forall_mem_cons, hlast]
    refine iff_of_false (fun h => ?_) ?_
    · have hle := h.1
      omega
    · rintro (h | h)
      · exact hhalf h.2
      · omega

/-! ### All three -/

theorem recordUnpackEvents_safe_iff {nField : UInt16} {nKey : ℕ} {aKey : ℕ → UInt8} :
    (∀ e ∈ recordUnpackEvents nField nKey aKey, e.Safe nKey (nKey + 18)) ↔
      (getVarint32 aKey).1.toNat < 2 ^ 31 ∧
        UnpackInside aKey nKey (getVarint32 aKey).1.toNat nField.toNat (getVarint32 aKey).2
          (getVarint32 aKey).1.toNat := by
  rw [recordUnpackEvents, List.forall_mem_append, headerEvents_safe_iff]
  refine and_congr_right fun hhdr => ?_
  rw [unpackVisits, toInt32_of_lt hhdr]
  exact unpackLoop_safe_iff nField.toNat le_rfl hhdr

theorem recordCompareEvents_safe_iff {nKey1 : ℕ} {aKey1 : ℕ → UInt8} {pPKey2 : UnpackedRecord} :
    (∀ e ∈ recordCompareEvents nKey1 aKey1 pPKey2, e.Safe nKey1 (nKey1 + 18)) ↔
      (getVarint32 aKey1).1.toNat < 2 ^ 31 ∧
        CompareInside aKey1 nKey1 (getVarint32 aKey1).1.toNat pPKey2.pKeyInfo pPKey2.aMem 0
          (getVarint32 aKey1).2 (getVarint32 aKey1).1.toNat := by
  rw [recordCompareEvents, List.forall_mem_append, headerEvents_safe_iff]
  refine and_congr_right fun hhdr => ?_
  rw [toInt32_of_lt hhdr]
  exact compareEvents_safe_iff hhdr pPKey2.pKeyInfo pPKey2.aMem 0 hhdr

/-- **When a record is decoded inside its bytes**, by each of the three functions. -/
theorem decoding_safe_iff {nKey : ℕ} (hkey : nKey < 2 ^ 31) (nField : UInt16) (aKey : ℕ → UInt8)
    (pPKey2 : UnpackedRecord) :
    ((∀ e ∈ recordUnpackEvents nField nKey aKey, e.Safe nKey (nKey + 18)) ∧
      (∀ e ∈ recordCompareEvents nKey aKey pPKey2, e.Safe nKey (nKey + 18)) ∧
      ∀ e ∈ idxRowidEvents nKey aKey, e.Safe nKey nKey) ↔
      (getVarint32 aKey).1.toNat < 2 ^ 31 ∧
        UnpackInside aKey nKey (getVarint32 aKey).1.toNat nField.toNat (getVarint32 aKey).2
          (getVarint32 aKey).1.toNat ∧
        CompareInside aKey nKey (getVarint32 aKey).1.toNat pPKey2.pKeyInfo pPKey2.aMem 0
          (getVarint32 aKey).2 (getVarint32 aKey).1.toNat ∧
        RowidInside nKey aKey := by
  rw [recordUnpackEvents_safe_iff, recordCompareEvents_safe_iff, idxRowidEvents_safe_iff hkey]
  constructor
  · rintro ⟨⟨hhdr, hunpack⟩, ⟨-, hcompare⟩, hrowid⟩
    exact ⟨hhdr, hunpack, hcompare, hrowid⟩
  · rintro ⟨hhdr, hunpack, hcompare, hrowid⟩
    exact ⟨⟨hhdr, hunpack⟩, ⟨hhdr, hcompare⟩, hrowid⟩

/-- A record with the number five, and a key without fields. -/
theorem decoding_safe_five :
    (∀ e ∈ recordUnpackEvents 1 3 fun i => [2, 1, 5].getD i 0, e.Safe 3 (3 + 18)) ∧
      (∀ e ∈ recordCompareEvents 3 (fun i => [2, 1, 5].getD i 0)
        ⟨⟨0, fun _ => none, fun _ => false⟩, [], false, false, false, 0⟩, e.Safe 3 (3 + 18)) ∧
      ∀ e ∈ idxRowidEvents 3 fun i => [2, 1, 5].getD i 0, e.Safe 3 3 := by
  have hinside : RowidInside 3 fun i => [2, 1, 5].getD i 0 := ⟨by decide, Or.inl (by decide)⟩
  exact (decoding_safe_iff (by decide : 3 < 2 ^ 31) 1 (fun i => [2, 1, 5].getD i 0)
    ⟨⟨0, fun _ => none, fun _ => false⟩, [], false, false, false, 0⟩).mpr
      ⟨by decide, fun _ _ => ⟨⟨fun h => absurd h (by decide), by decide⟩, trivial⟩, trivial,
        hinside⟩

/-- The header of two bytes announces a text of five, and nothing follows. -/
theorem not_decoding_safe_truncated :
    ¬∀ (nKey : ℕ) (nField : UInt16) (aKey : ℕ → UInt8) (pPKey2 : UnpackedRecord), nKey < 2 ^ 31 →
      (∀ e ∈ recordUnpackEvents nField nKey aKey, e.Safe nKey (nKey + 18)) ∧
        (∀ e ∈ recordCompareEvents nKey aKey pPKey2, e.Safe nKey (nKey + 18)) ∧
        ∀ e ∈ idxRowidEvents nKey aKey, e.Safe nKey nKey := by
  intro h
  have hunpack := (h 2 1 (fun i => [2, 23].getD i 0)
    ⟨⟨0, fun _ => none, fun _ => false⟩, [], false, false, false, 0⟩ (by decide)).1
  have hfields := (recordUnpackEvents_safe_iff.mp hunpack).2
  have htext := (hfields (by decide) (by decide)).1.1
  exact absurd (htext (by decide)) (by decide)

end Vdbe

end SqliteVms

import SqliteVms.Vdbe.Mem
import SqliteVms.Util.Varint

/-!
# Serial types

How one value is stored in a record: `sqlite3VdbeSerialType` gives its type and with it its length,
`sqlite3VdbeSerialPut` writes its bytes and `sqlite3VdbeSerialGet` reads them (`vdbeaux.c`).

## Main definitions

* `Mem` — a register, whose blob may have a tail of zeros that is not stored
* `sqlite3VdbeSerialType`, `sqlite3VdbeSerialTypeLen` — types and their lengths
* `sqlite3VdbeSerialPut`, `sqlite3VdbeSerialGet` — the bytes

## Main results

* `sqlite3VdbeSerialGet_eq` — the bytes of a value are read back as the value
-/

namespace SqliteVms

namespace Vdbe

open Store

/-! ### Registers -/

/-- A register: a value, or a blob with `MEM_Zero` and its `u.nZero`. -/
inductive Mem
  | value (v : Value)
  | zeroBlob (z : List UInt8) (nZero : ℕ)

namespace Mem

/-- The value that the register stands for. -/
def content : Mem → Value
  | value v => v
  | zeroBlob z nZero => .blob (z ++ List.replicate nZero 0)

/-- `pMem->z` with `pMem->n`. -/
def z : Mem → List UInt8
  | value v => v.z
  | zeroBlob z _ => z

/-- `flags & MEM_Zero`. -/
def isZero : Mem → Bool
  | value _ => false
  | zeroBlob _ _ => true

/-- `u.nZero`, of a register with `MEM_Zero`. -/
def nZero : Mem → ℕ
  | value _ => 0
  | zeroBlob _ nZero => nZero

/-- The eight bytes of `u.i` or `r`. -/
def word : Mem → UInt64
  | value (.int i) => i.toUInt64
  | value (.real r) => r.bits
  | _ => 0

end Mem

def sqlite3VdbeMemExpandBlob (pMem : Mem) : Mem := .value pMem.content

/-! ### Types -/

def max6Byte : ℤ := 0x00008000 * 2 ^ 32 - 1

/-- `sqlite3VdbeSerialType` of an integer. -/
def intSerialType (i : Int64) (fileFormat : ℕ) : ℕ :=
  if i.toInt < -max6Byte then 6 else
  let u := i.toInt.natAbs
  if u ≤ 127 then if i &&& 1 = i ∧ 4 ≤ fileFormat then 8 + u else 1
  else if u ≤ 32767 then 2
  else if u ≤ 8388607 then 3
  else if u ≤ 2147483647 then 4
  else if u ≤ max6Byte then 5
  else 6

def sqlite3VdbeSerialType (pMem : Mem) (fileFormat : ℕ) : ℕ :=
  match pMem with
  | .value .null => 0
  | .value (.int i) => intSerialType i fileFormat
  | .value (.real _) => 7
  | .value (.text z) => (z.length * 2 + 12 + 1) % 2 ^ 32
  | .value (.blob z) => (z.length * 2 + 12) % 2 ^ 32
  | .zeroBlob z nZero => ((z.length + nZero) * 2 + 12) % 2 ^ 32

def sqlite3VdbeSerialTypeLen (serialType : ℕ) : ℕ :=
  if 12 ≤ serialType then (serialType - 12) / 2
  else [0, 1, 2, 3, 4, 6, 8, 8, 0, 0, 0, 0].getD serialType 0

/-! ### Bytes -/

/-- The loop `while( i-- ){ buf[i] = (u8)(v&0xFF); v >>= 8; }`. -/
def putBytes : ℕ → UInt64 → List UInt8
  | 0, _ => []
  | n + 1, v => putBytes n (v >>> 8) ++ [(v &&& 0xff).toUInt8]

/-- `sqlite3VdbeSerialPut`: the bytes written, with room for `nBuf`. Their number is what the
function returns. -/
def sqlite3VdbeSerialPut (nBuf : ℕ) (pMem : Mem) (fileFormat : ℕ) : List UInt8 :=
  let serialType := sqlite3VdbeSerialType pMem fileFormat
  if serialType ≤ 7 ∧ 0 < serialType then
    putBytes (sqlite3VdbeSerialTypeLen serialType) pMem.word
  else if 12 ≤ serialType then
    if pMem.isZero then
      -- a tail that does not fit any more is left out
      pMem.z ++ List.replicate (min (pMem.z.length + pMem.nZero) nBuf - pMem.z.length) 0
    else pMem.z
  else []

/-- The number in `n` bytes. -/
def getBytes (buf : ℕ → UInt8) : ℕ → ℕ
  | 0 => 0
  | n + 1 => getBytes buf n * 2 ^ 8 + (buf n).toNat

/-- The number in `n + 1` bytes of which the first one is a `signed char`. -/
def getSigned (buf : ℕ → UInt8) (n : ℕ) : ℤ :=
  (buf 0).toInt8.toInt * 2 ^ (8 * n) + getBytes (fun i => buf (i + 1)) n

/-- `sqlite3VdbeSerialGet`: the value, and the number of bytes read. -/
def sqlite3VdbeSerialGet (buf : ℕ → UInt8) (serialType : ℕ) : Value × ℕ :=
  match serialType with
  | 10 | 11 | 0 => (.null, 0)
  | 1 => (.int (.ofInt (getSigned buf 0)), 1)
  | 2 => (.int (.ofInt (getSigned buf 1)), 2)
  | 3 => (.int (.ofInt (getSigned buf 2)), 3)
  | 4 => (.int (.ofInt (getSigned buf 3)), 4)
  | 5 => (.int (.ofInt (getSigned buf 5)), 6)
  | 6 => (.int (.ofInt (getSigned buf 7)), 8)
  | 7 =>
    let x := UInt64.ofNat (getBytes buf 8)
    (if h : sqlite3IsNaN x = false then .real ⟨x, h⟩ else .null, 8)
  | 8 => (.int 0, 0)
  | 9 => (.int 1, 0)
  | t =>
    let len := (t - 12) / 2
    (if t % 2 = 1 then .text (slice buf 0 len) else .blob (slice buf 0 len), len)

/-! ### Reading what was written -/

variable {buf : ℕ → UInt8}

theorem toNat_low_byte (v : UInt64) : (v &&& 0xff).toUInt8.toNat = v.toNat % 2 ^ 8 := by
  rw [UInt64.toNat_toUInt8, UInt64.toNat_and]
  have hmod := Nat.and_two_pow_sub_one_eq_mod v.toNat 8
  rw [show (0xff : UInt64).toNat = 2 ^ 8 - 1 from rfl, hmod, Nat.mod_mod]

@[simp] theorem length_putBytes (n : ℕ) (v : UInt64) : (putBytes n v).length = n := by
  induction n generalizing v with
  | zero => rfl
  | succ n ih => simp [putBytes, ih]

/-- Bytes that were put are read back. -/
theorem getBytes_of_holds {n : ℕ} {v : UInt64} (h : Holds buf 0 (putBytes n v)) :
    getBytes buf n = v.toNat % 2 ^ (8 * n) := by
  induction n generalizing v with
  | zero => simp [getBytes, Nat.mod_one]
  | succ n ih =>
    obtain ⟨hinit, hlast⟩ := holds_append.mp h
    have hbyte := hlast.byte (i := 0) (by simp)
    simp only [length_putBytes, Nat.zero_add, Nat.add_zero, List.getElem_cons_zero] at hbyte
    have hshift : (v >>> 8).toNat = v.toNat / 2 ^ 8 := by
      rw [UInt64.toNat_shiftRight, Nat.shiftRight_eq_div_pow]
      rfl
    rw [getBytes, ih hinit, hbyte, toNat_low_byte, hshift,
      show 2 ^ (8 * (n + 1)) = 2 ^ 8 * 2 ^ (8 * n) by rw [← pow_add]; ring_nf, Nat.mod_mul]
    ring

theorem getBytes_succ (buf : ℕ → UInt8) (n : ℕ) :
    getBytes buf (n + 1) = (buf 0).toNat * 2 ^ (8 * n) + getBytes (fun i => buf (i + 1)) n := by
  induction n with
  | zero => simp [getBytes]
  | succ n ih =>
    rw [getBytes, ih, getBytes, show 2 ^ (8 * (n + 1)) = 2 ^ (8 * n) * 2 ^ 8 by rw [← pow_add]; ring_nf]
    ring

theorem getBytes_lt (buf : ℕ → UInt8) (n : ℕ) : getBytes buf n < 2 ^ (8 * n) := by
  induction n with
  | zero => simp [getBytes]
  | succ n ih =>
    have hb := (buf n).toNat_lt
    rw [getBytes, show 2 ^ (8 * (n + 1)) = 2 ^ (8 * n) * 2 ^ 8 by rw [← pow_add]; ring_nf]
    omega

theorem toInt_toInt8 (b : UInt8) :
    b.toInt8.toInt = if b.toNat < 128 then (b.toNat : ℤ) else (b.toNat : ℤ) - 256 := by
  rw [Int8.toInt, UInt8.toBitVec_toInt8, BitVec.toInt_eq_toNat_cond]
  simp only [UInt8.toNat_toBitVec]
  split <;> split <;> omega

theorem toInt_eq (i : Int64) :
    i.toInt = if i.toUInt64.toNat < 2 ^ 63 then (i.toUInt64.toNat : ℤ)
      else (i.toUInt64.toNat : ℤ) - 2 ^ 64 := by
  rw [Int64.toInt, BitVec.toInt_eq_toNat_cond, Int64.toNat_toBitVec]
  split <;> split <;> omega

/-- The widths in which integers are stored. -/
theorem getSigned_eq {n : ℕ} {i : Int64} (hn : n ∈ [0, 1, 2, 3, 5, 7])
    (h : Holds buf 0 (putBytes (n + 1) i.toUInt64)) (hlo : -2 ^ (8 * n + 7) ≤ i.toInt)
    (hhi : i.toInt < 2 ^ (8 * n + 7)) : getSigned buf n = i.toInt := by
  have hbytes := getBytes_of_holds h
  have hrest := getBytes_lt (fun i => buf (i + 1)) n
  have hfirst := (buf 0).toNat_lt
  have hword := i.toUInt64.toNat_lt
  have hint := toInt_eq i
  rw [getBytes_succ] at hbytes
  rw [getSigned, toInt_toInt8]
  -- for each width the sign is that of the first byte
  simp only [List.mem_cons, List.not_mem_nil, or_false] at hn
  rcases hn with rfl | rfl | rfl | rfl | rfl | rfl <;> norm_num at * <;>
    split <;> split at hint <;> omega

/-- A signed integer that fits is read back. -/
theorem ofInt_getSigned {n : ℕ} {i : Int64} (hn : n ∈ [0, 1, 2, 3, 5, 7])
    (h : Holds buf 0 (putBytes (n + 1) i.toUInt64)) (hlo : -2 ^ (8 * n + 7) ≤ i.toInt)
    (hhi : i.toInt < 2 ^ (8 * n + 7)) : Int64.ofInt (getSigned buf n) = i := by
  rw [getSigned_eq hn h hlo hhi, Int64.ofInt_toInt]

/-- The constants. -/
theorem eq_zero_or_one_of_and_one {i : Int64} (h : i &&& 1 = i) : i = 0 ∨ i = 1 := by
  have hand := congrArg (fun j : Int64 => j.toUInt64.toNat) h
  simp only [Int64.toUInt64_and, UInt64.toNat_and] at hand
  have hmod := Nat.and_two_pow_sub_one_eq_mod i.toUInt64.toNat 1
  have hone : (1 : Int64).toUInt64.toNat = 2 ^ 1 - 1 := rfl
  rw [hone, hmod] at hand
  have hval : i.toUInt64.toNat = 0 ∨ i.toUInt64.toNat = 1 := by omega
  rcases hval with h0 | h1
  · left
    rw [← Int64.toInt_inj, toInt_eq, h0]
    rfl
  · right
    rw [← Int64.toInt_inj, toInt_eq, h1]
    rfl

/-- The integer read with a width that holds it. -/
theorem int_getSigned {t : ℕ} (n : ℕ) {i : Int64} (hn : n ∈ [0, 1, 2, 3, 5, 7])
    (ht : sqlite3VdbeSerialTypeLen t = n + 1)
    (h : Holds buf 0 (putBytes (sqlite3VdbeSerialTypeLen t) i.toUInt64))
    (hlo : -2 ^ (8 * n + 7) ≤ i.toInt) (hhi : i.toInt < 2 ^ (8 * n + 7)) :
    (Value.int (.ofInt (getSigned buf n)), n + 1) = (.int i, sqlite3VdbeSerialTypeLen t) := by
  rw [ht] at h ⊢
  rw [ofInt_getSigned hn h hlo hhi]

/-- An integer is read back. -/
theorem sqlite3VdbeSerialGet_int {i : Int64} {fileFormat : ℕ}
    (h : Holds buf 0
      (putBytes (sqlite3VdbeSerialTypeLen (intSerialType i fileFormat)) i.toUInt64)) :
    sqlite3VdbeSerialGet buf (intSerialType i fileFormat)
      = (.int i, sqlite3VdbeSerialTypeLen (intSerialType i fileFormat)) := by
  have hlo := Int64.le_toInt i
  have hhi := Int64.toInt_lt i
  generalize ht : intSerialType i fileFormat = t at h ⊢
  rw [intSerialType, max6Byte] at ht
  dsimp only at ht
  split_ifs at ht with hneg h1 hconst h2 h3 h4 h5 <;> subst ht
  · exact int_getSigned 7 (by simp) rfl h hlo hhi
  · rcases eq_zero_or_one_of_and_one hconst.1 with rfl | rfl <;> rfl
  · exact int_getSigned 0 (by simp) rfl h (by omega) (by omega)
  · exact int_getSigned 1 (by simp) rfl h (by omega) (by omega)
  · exact int_getSigned 2 (by simp) rfl h (by omega) (by omega)
  · exact int_getSigned 3 (by simp) rfl h (by omega) (by omega)
  · exact int_getSigned 5 (by simp) rfl h (by omega) (by omega)
  · exact int_getSigned 7 (by simp) rfl h hlo hhi

/-- A real is read back. -/
theorem sqlite3VdbeSerialGet_real {r : Double} (h : Holds buf 0 (putBytes 8 r.bits)) :
    sqlite3VdbeSerialGet buf 7 = (.real r, 8) := by
  have hbits : UInt64.ofNat (getBytes buf 8) = r.bits := by
    rw [getBytes_of_holds h, Nat.mod_eq_of_lt r.bits.toNat_lt, UInt64.ofNat_toNat]
  simp only [sqlite3VdbeSerialGet, hbits, r.isNum, dif_pos]

/-- A text or a blob is read back. -/
theorem sqlite3VdbeSerialGet_of_le {t : ℕ} (h : 12 ≤ t) :
    sqlite3VdbeSerialGet buf t =
      (if t % 2 = 1 then .text (slice buf 0 ((t - 12) / 2)) else .blob (slice buf 0 ((t - 12) / 2)),
        (t - 12) / 2) := by
  obtain ⟨k, rfl⟩ := Nat.exists_eq_add_of_le' h
  rfl

theorem sqlite3VdbeSerialTypeLen_of_le {t : ℕ} (h : 12 ≤ t) :
    sqlite3VdbeSerialTypeLen t = (t - 12) / 2 := if_pos h

/-- The bytes of a text or blob are short enough for their type to be a `u32`. -/
def Mem.Fits (pMem : Mem) : Prop := pMem.content.z.length < 2 ^ 31 - 6

/-- The bytes of a value with room for all of them. -/
def serialData (pMem : Mem) (fileFormat : ℕ) : List UInt8 :=
  sqlite3VdbeSerialPut (sqlite3VdbeSerialTypeLen (sqlite3VdbeSerialType pMem fileFormat)) pMem
    fileFormat

theorem intSerialType_bounds (i : Int64) (fileFormat : ℕ) :
    0 < intSerialType i fileFormat ∧ intSerialType i fileFormat < 10 := by
  rw [intSerialType]
  dsimp only
  split_ifs with h₁ h₂ h₃
  pick_goal 2
  · rcases eq_zero_or_one_of_and_one h₃.1 with rfl | rfl <;> decide
  all_goals omega

/-- What is written of an integer. -/
theorem serialData_int (i : Int64) (fileFormat : ℕ) :
    serialData (.value (.int i)) fileFormat =
      putBytes (sqlite3VdbeSerialTypeLen (intSerialType i fileFormat)) i.toUInt64 := by
  obtain ⟨hpos, hlt⟩ := intSerialType_bounds i fileFormat
  simp only [serialData, sqlite3VdbeSerialPut, sqlite3VdbeSerialType, hpos, and_true]
  by_cases h7 : intSerialType i fileFormat ≤ 7
  · simp only [h7, if_true]
    rfl
  · have h12 : ¬ 12 ≤ intSerialType i fileFormat := by omega
    simp only [h7, h12, if_false]
    obtain h8 | h9 : intSerialType i fileFormat = 8 ∨ intSerialType i fileFormat = 9 := by omega
    · rw [h8]
      rfl
    · rw [h9]
      rfl

/-- The bytes of a text or a blob are its type's. -/
theorem serialData_of_le (pMem : Mem) {fileFormat : ℕ}
    (h : 12 ≤ sqlite3VdbeSerialType pMem fileFormat)
    (hlen : sqlite3VdbeSerialTypeLen (sqlite3VdbeSerialType pMem fileFormat)
      = pMem.z.length + pMem.nZero) (hzero : pMem.isZero = false → pMem.nZero = 0) :
    serialData pMem fileFormat = pMem.z ++ List.replicate pMem.nZero 0 := by
  have h7 : ¬ (sqlite3VdbeSerialType pMem fileFormat ≤ 7 ∧
      0 < sqlite3VdbeSerialType pMem fileFormat) := by omega
  rw [serialData, sqlite3VdbeSerialPut, hlen]
  simp only [h7, h, if_false, if_true, Nat.min_self, Nat.add_sub_cancel_left]
  split
  · rfl
  · rename_i hz
    rw [hzero (by simpa using hz)]
    simp

/-- The types of texts and blobs. -/
theorem typeLen_text {n : ℕ} (h : n < 2 ^ 31 - 6) :
    12 ≤ (n * 2 + 12 + 1) % 2 ^ 32 ∧ (n * 2 + 12 + 1) % 2 ^ 32 % 2 = 1 ∧
      ((n * 2 + 12 + 1) % 2 ^ 32 - 12) / 2 = n := by
  omega

/-- The serial type of a blob tells its length. -/
theorem typeLen_blob {n : ℕ} (h : n < 2 ^ 31 - 6) :
    12 ≤ (n * 2 + 12) % 2 ^ 32 ∧ (n * 2 + 12) % 2 ^ 32 % 2 = 0 ∧
      ((n * 2 + 12) % 2 ^ 32 - 12) / 2 = n := by
  omega

theorem serialData_text {z : List UInt8} {fileFormat : ℕ} (h : z.length < 2 ^ 31 - 6) :
    serialData (.value (.text z)) fileFormat = z := by
  obtain ⟨hle, -, hlen⟩ := typeLen_text h
  exact (serialData_of_le (.value (.text z)) hle
    ((sqlite3VdbeSerialTypeLen_of_le hle).trans hlen) fun _ => rfl).trans (List.append_nil z)

theorem serialData_blob {z : List UInt8} {fileFormat : ℕ} (h : z.length < 2 ^ 31 - 6) :
    serialData (.value (.blob z)) fileFormat = z := by
  obtain ⟨hle, -, hlen⟩ := typeLen_blob h
  exact (serialData_of_le (.value (.blob z)) hle
    ((sqlite3VdbeSerialTypeLen_of_le hle).trans hlen) fun _ => rfl).trans (List.append_nil z)

theorem serialData_zeroBlob {z : List UInt8} {nZero fileFormat : ℕ}
    (h : z.length + nZero < 2 ^ 31 - 6) :
    serialData (.zeroBlob z nZero) fileFormat = z ++ List.replicate nZero 0 := by
  obtain ⟨hle, -, hlen⟩ := typeLen_blob h
  exact serialData_of_le _ hle ((sqlite3VdbeSerialTypeLen_of_le hle).trans hlen) nofun

/-- **Values are read back.** The type of a value tells the number of its bytes, and with it they
are read as the value. -/
theorem sqlite3VdbeSerialGet_eq {pMem : Mem} {fileFormat : ℕ} (hfits : pMem.Fits)
    (h : Holds buf 0 (serialData pMem fileFormat)) :
    sqlite3VdbeSerialGet buf (sqlite3VdbeSerialType pMem fileFormat)
      = (pMem.content, sqlite3VdbeSerialTypeLen (sqlite3VdbeSerialType pMem fileFormat)) := by
  match pMem with
  | .value .null => rfl
  | .value (.int i) =>
    rw [serialData_int] at h
    exact sqlite3VdbeSerialGet_int h
  | .value (.real r) => exact sqlite3VdbeSerialGet_real h
  | .value (.text z) =>
    have hfits : z.length < 2 ^ 31 - 6 := hfits
    obtain ⟨hle, hodd, hlen⟩ := typeLen_text hfits
    rw [serialData_text hfits] at h
    rw [sqlite3VdbeSerialType, sqlite3VdbeSerialGet_of_le hle, sqlite3VdbeSerialTypeLen_of_le hle,
      if_pos hodd, hlen, h]
    rfl
  | .value (.blob z) =>
    have hfits : z.length < 2 ^ 31 - 6 := hfits
    obtain ⟨hle, heven, hlen⟩ := typeLen_blob hfits
    rw [serialData_blob hfits] at h
    rw [sqlite3VdbeSerialType, sqlite3VdbeSerialGet_of_le hle, sqlite3VdbeSerialTypeLen_of_le hle,
      if_neg (by omega), hlen, h]
    rfl
  | .zeroBlob z nZero =>
    have hfits : z.length + nZero < 2 ^ 31 - 6 := by
      simpa [Mem.Fits, Mem.content, Value.z] using hfits
    obtain ⟨hle, heven, hlen⟩ := typeLen_blob hfits
    rw [serialData_zeroBlob hfits, Holds, List.length_append, List.length_replicate] at h
    rw [sqlite3VdbeSerialType, sqlite3VdbeSerialGet_of_le hle, sqlite3VdbeSerialTypeLen_of_le hle,
      if_neg (by omega), hlen, h]
    rfl

/-- As many bytes are written as the serial type says. -/
theorem length_serialData {pMem : Mem} {fileFormat : ℕ} (hfits : pMem.Fits) :
    (serialData pMem fileFormat).length
      = sqlite3VdbeSerialTypeLen (sqlite3VdbeSerialType pMem fileFormat) := by
  match pMem with
  | .value .null => rfl
  | .value (.int i) => rw [serialData_int, length_putBytes, sqlite3VdbeSerialType]
  | .value (.real r) => rfl
  | .value (.text z) =>
    have hfits : z.length < 2 ^ 31 - 6 := hfits
    obtain ⟨hle, -, hlen⟩ := typeLen_text hfits
    rw [serialData_text hfits, sqlite3VdbeSerialType, sqlite3VdbeSerialTypeLen_of_le hle, hlen]
  | .value (.blob z) =>
    have hfits : z.length < 2 ^ 31 - 6 := hfits
    obtain ⟨hle, -, hlen⟩ := typeLen_blob hfits
    rw [serialData_blob hfits, sqlite3VdbeSerialType, sqlite3VdbeSerialTypeLen_of_le hle, hlen]
  | .zeroBlob z nZero =>
    have hfits : z.length + nZero < 2 ^ 31 - 6 := by
      simpa [Mem.Fits, Mem.content, Value.z] using hfits
    obtain ⟨hle, -, hlen⟩ := typeLen_blob hfits
    rw [serialData_zeroBlob hfits, sqlite3VdbeSerialType, sqlite3VdbeSerialTypeLen_of_le hle, hlen,
      List.length_append, List.length_replicate]

theorem sqlite3VdbeSerialType_lt (pMem : Mem) (fileFormat : ℕ) :
    sqlite3VdbeSerialType pMem fileFormat < 2 ^ 32 := by
  match pMem with
  | .value .null => simp [sqlite3VdbeSerialType]
  | .value (.int i) =>
    have := intSerialType_bounds i fileFormat
    rw [sqlite3VdbeSerialType]
    omega
  | .value (.real r) => simp [sqlite3VdbeSerialType]
  | .value (.text z) => exact Nat.mod_lt _ (by decide)
  | .value (.blob z) => exact Nat.mod_lt _ (by decide)
  | .zeroBlob z nZero => exact Nat.mod_lt _ (by decide)

end Vdbe

end SqliteVms

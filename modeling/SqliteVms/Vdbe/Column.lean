import SqliteVms.Vdbe.Record

/-!
# Reading a column

`OP_Column` of `vdbe.c`. The types and offsets of the first `nField` columns are parsed once and
kept in the cursor; only so much of the header is read as `nField` types can need, and the parse is
checked against the size of the record. Two of the checks are wrong for some records: a header may
have more than 98307 bytes, and the part of a header that was read may end with the last type by
chance.

## Main definitions

* `VdbeCursor`, `Row` — the cursor with its cache, and where its record is
* `opColumn`, `readColumns` — one read, and a sequence of them
* `Stores` — the row holds a record
* `Parsable` — the records that are read

## Main results

* `opColumn_of_parsable`, `opColumn_of_not_parsable` — the first read
* `readColumns_eq` — all reads of a row
-/

namespace SqliteVms

namespace Vdbe

open Store Util

/-- Where the record of the cursor is. -/
inductive Row
  /-- `nullRow`. -/
  | null
  /-- The cell of a B-tree cursor: `payload` is what `sqlite3BtreeKey` and `sqlite3BtreeData` read,
  `zLocal` and `avail` what `sqlite3BtreeKeyFetch` and `sqlite3BtreeDataFetch` return. -/
  | btree (payloadSize : ℕ) (payload zLocal : ℕ → UInt8) (avail : ℕ)
  /-- The register of a pseudo-table. -/
  | pseudo (n : ℕ) (z : ℕ → UInt8)

/-- The cursor, with its cache of the parsed header. -/
structure VdbeCursor where
  nField : ℕ
  /-- `cacheStatus==p->cacheCtr`. -/
  fresh : Bool
  payloadSize : ℕ
  aRow : Option (ℕ → UInt8)
  aType : ℕ → ℕ
  aOffset : ℕ → ℕ

/-- The operands of the opcode: P2, P4 where it is a `Mem`, and the flags of P5. -/
structure ColumnOp where
  p2 : ℕ
  p4 : Option Value
  clearCache : Bool
  lengthArg : Bool
  typeofArg : Bool

inductive ColumnError
  | corrupt
  | tooBig
  deriving DecidableEq

/-! ### The header -/

/-- The variables of the loop that scans the header. -/
structure Scan where
  zIdx : ℕ
  offset : ℕ
  aType : ℕ → ℕ
  aOffset : ℕ → ℕ

/-- One type. -/
def scanType (zData : ℕ → UInt8) (i : ℕ) (s : Scan) : Scan :=
  let t := getVarint32 fun k => zData (s.zIdx + k)
  { zIdx := s.zIdx + t.2
    offset := (s.offset + sqlite3VdbeSerialTypeLen t.1.toNat) % 2 ^ 32
    aType := Function.update s.aType i t.1.toNat
    aOffset := Function.update s.aOffset i s.offset }

/-- The loop over the columns from `i` on, with so many left. -/
def scanHeader (zData : ℕ → UInt8) (zEndHdr : ℕ) : ℕ → ℕ → Scan → Scan
  | 0, _, s => s
  | left + 1, i, s =>
    if s.zIdx < zEndHdr then
      let s' := scanType zData i s
      -- an overflow of the offset makes the check after the loop fail
      if s'.offset < sqlite3VdbeSerialTypeLen (s'.aType i) then { s' with zIdx := zEndHdr + 1 }
      else scanHeader zData zEndHdr left (i + 1) s'
    else scanHeader zData zEndHdr left (i + 1) { s with aOffset := Function.update s.aOffset i 0 }

def sqlite3VdbeMemFromBtree (payload zLocal : ℕ → UInt8) (available offset amt : ℕ) : ℕ → UInt8 :=
  if offset + amt ≤ available then fun i => zLocal (offset + i)
  else fun i => if i < amt then payload (offset + i) else 0

/-- The bytes in which the size of the header is looked for. -/
def Row.zData : Row → ℕ → UInt8
  | .null => fun _ => 0
  | .btree _ _ zLocal _ => zLocal
  | .pseudo _ z => z

/-- `pC->aRow` after a fetch: the record, if all of it is on the page. -/
def fetchedRow (row : Row) (pC : VdbeCursor) : Option (ℕ → UInt8) :=
  match row with
  | .btree payloadSize _ zLocal avail => if payloadSize ≤ avail then some zLocal else none
  | _ => pC.aRow

/-- `zRec`: the register of a pseudo-table, or the cached row. -/
def zRec (row : Row) (pC : VdbeCursor) : Option (ℕ → UInt8) :=
  match row with
  | .pseudo _ z => some z
  | _ => pC.aRow

/-- The number of bytes of header that are read. -/
def headerLen (nField offset : ℕ) : ℕ := if nField * 5 + 3 > offset then offset else nField * 5 + 3

/-- The header, read from the B-tree if the page does not have enough of it. -/
def headerData (row : Row) (len : ℕ) : ℕ → UInt8 :=
  match row with
  | .btree payloadSize payload zLocal avail =>
    if ¬ payloadSize ≤ avail ∧ avail < len then sqlite3VdbeMemFromBtree payload zLocal avail 0 len
    else zLocal
  | row => row.zData

/-- The parse of the header into the cache of the cursor, with `true` for `SQLITE_CORRUPT`. -/
def parseHeader (row : Row) (payloadSize : ℕ) (pC : VdbeCursor) : Bool × VdbeCursor :=
  let hdr := getVarint32 row.zData
  let offset := hdr.1.toNat
  let pC := { pC with fresh := true, payloadSize := payloadSize, aRow := fetchedRow row pC }
  if offset > 98307 then (true, pC)
  else
    let len := headerLen pC.nField offset
    let s := scanHeader (headerData row len) len pC.nField 0 ⟨hdr.2, offset, pC.aType, pC.aOffset⟩
    (s.zIdx > len ∨ s.offset > payloadSize ∨ (s.zIdx = len ∧ s.offset ≠ payloadSize),
      { pC with aType := s.aType, aOffset := s.aOffset })

/-! ### The opcode -/

/-- The value of column P2 once its type and offset are known. -/
def columnValue (bogus : ℕ → UInt8) (row : Row) (op : ColumnOp) (pC : VdbeCursor) : Value :=
  let t := pC.aType op.p2
  let offset := pC.aOffset op.p2
  if offset = 0 then op.p4.getD .null
  else
    match zRec row pC, row with
    | some z, _ => (sqlite3VdbeSerialGet (fun i => z (offset + i)) t).1
    | none, .btree _ payload zLocal avail =>
      if (op.lengthArg ∨ op.typeofArg) ∧ (12 ≤ t ∧ t % 2 = 0 ∨ op.typeofArg) then
        -- only the type of the value matters, or its length
        (sqlite3VdbeSerialGet bogus t).1
      else
        (sqlite3VdbeSerialGet
          (sqlite3VdbeMemFromBtree payload zLocal avail offset (sqlite3VdbeSerialTypeLen t)) t).1
    | none, _ => .null

/-- Whether the cache is used. For a pseudo-table the opcode itself says so. -/
def checkCache (row : Row) (op : ColumnOp) (pC : VdbeCursor) : VdbeCursor :=
  match row with
  | .pseudo _ _ => { pC with fresh := !op.clearCache }
  | _ => pC

def payloadSize (row : Row) (pC : VdbeCursor) : ℕ :=
  match row with
  | .null => 0
  | .btree n _ _ _ => if pC.fresh then pC.payloadSize else n
  | .pseudo n _ => n

/-- `OP_Column`: the value for register P3, and the cursor. `bogus` is the content that stands in
for one that is not read. -/
def opColumn (bogus : ℕ → UInt8) (limitLength : ℕ) (row : Row) (op : ColumnOp) (pC : VdbeCursor) :
    Except ColumnError Value × VdbeCursor :=
  let pC := checkCache row op pC
  if payloadSize row pC = 0 then (.ok .null, pC)
  else if payloadSize row pC > limitLength then (.error .tooBig, pC)
  else if pC.fresh then (.ok (columnValue bogus row op pC), pC)
  else
    let r := parseHeader row (payloadSize row pC) pC
    (if r.1 then .error .corrupt else .ok (columnValue bogus row op r.2), r.2)

/-- One read after the other, while the cursor stays on its row. -/
def readColumns (bogus : ℕ → UInt8) (limitLength : ℕ) (row : Row) :
    VdbeCursor → List ColumnOp → List (Except ColumnError Value)
  | _, [] => []
  | pC, op :: ops =>
    let r := opColumn bogus limitLength row op pC
    r.1 :: readColumns bogus limitLength row r.2 ops

/-! ### Scanning a header -/

variable {fileFormat : ℕ}

/-- The offset of column `j`, and the end of the columns before it. -/
def columnOffset (fileFormat d : ℕ) (data : List Mem) (j : ℕ) : ℕ :=
  d + (fullData fileFormat (data.take j)).length

/-- What a scan of the columns from `i` on leaves, for the registers that are still to come. -/
structure Scanned (fileFormat i left idx d : ℕ) (data : List Mem) (s : Scan) : Prop where
  zIdx : s.zIdx = idx + typeBytes fileFormat (data.take left)
  offset : s.offset = columnOffset fileFormat d data left
  aOffset : ∀ j < left, s.aOffset (i + j) =
    if j < data.length then columnOffset fileFormat d data j else 0
  aType : ∀ j < left, ∀ h : j < data.length,
    s.aType (i + j) = sqlite3VdbeSerialType data[j] fileFormat

variable {zData aKey : ℕ → UInt8} {nKey szHdr len : ℕ}

/-- Entries that are done are kept. -/
theorem scanHeader_before (left i : ℕ) (s : Scan) {k : ℕ} (hk : k < i) :
    (scanHeader zData len left i s).aType k = s.aType k ∧
      (scanHeader zData len left i s).aOffset k = s.aOffset k := by
  induction left generalizing i s with
  | zero => exact ⟨rfl, rfl⟩
  | succ left ih =>
    have hne : k ≠ i := by omega
    have hone : (scanType zData i s).aType k = s.aType k ∧
        (scanType zData i s).aOffset k = s.aOffset k := by
      simp [scanType, Function.update_of_ne hne]
    rw [scanHeader]
    split
    · dsimp only
      split
      · exact hone
      · obtain ⟨h₁, h₂⟩ := ih (i + 1) (scanType zData i s) (by omega)
        exact ⟨h₁.trans hone.1, h₂.trans hone.2⟩
    · obtain ⟨h₁, h₂⟩ := ih (i + 1) { s with aOffset := Function.update s.aOffset i 0 } (by omega)
      exact ⟨h₁, h₂.trans (Function.update_of_ne hne _ _)⟩

theorem columnOffset_cons {pRec : Mem} {data : List Mem} (hfits : pRec.Fits) (d j : ℕ) :
    columnOffset fileFormat d (pRec :: data) (j + 1)
      = columnOffset fileFormat (d + fieldLen fileFormat pRec) data j := by
  rw [columnOffset, List.take_succ_cons, fullData_cons, List.length_append,
    length_serialData_eq _ hfits, columnOffset, Nat.add_assoc]

theorem Scanned.cons {i left idx d : ℕ} {pRec : Mem} {data : List Mem} {s : Scan}
    (hfits : pRec.Fits) (haOffset : s.aOffset i = d)
    (haType : s.aType i = sqlite3VdbeSerialType pRec fileFormat)
    (h : Scanned fileFormat (i + 1) left (idx + typeLen fileFormat pRec)
      (d + fieldLen fileFormat pRec) data s) :
    Scanned fileFormat i (left + 1) idx d (pRec :: data) s := by
  constructor
  case zIdx =>
    rw [h.zIdx, List.take_succ_cons, typeBytes_cons, Nat.add_assoc]
  case offset => rw [h.offset, columnOffset_cons hfits]
  case aOffset =>
    intro j hj
    cases j with
    | zero => simp [haOffset, columnOffset, fullData]
    | succ j =>
      have := h.aOffset j (by omega)
      rw [show i + (j + 1) = i + 1 + j by omega, this, columnOffset_cons hfits]
      simp
  case aType =>
    intro j hj hlt
    cases j with
    | zero => exact haType
    | succ j =>
      rw [show i + (j + 1) = i + 1 + j by omega]
      exact h.aType j (by omega) (by simpa using hlt)

theorem Scanned.nil {i left idx d : ℕ} {s : Scan} (haOffset : s.aOffset i = 0)
    (h : Scanned fileFormat (i + 1) left idx d [] s) :
    Scanned fileFormat i (left + 1) idx d [] s := by
  constructor
  case zIdx => simpa using h.zIdx
  case offset => simpa [columnOffset, fullData] using h.offset
  case aOffset =>
    intro j hj
    cases j with
    | zero => simpa using haOffset
    | succ j =>
      rw [show i + (j + 1) = i + 1 + j by omega, h.aOffset j (by omega)]
      simp
  case aType =>
    intro j hj hlt
    simp at hlt

/-- One type of a header of which `len` bytes were read. -/
theorem scanType_eq {s : Scan} {pRec : Mem} {data : List Mem} (i : ℕ)
    (hagree : ∀ k < len, zData k = aKey k) (hkey : nKey < 2 ^ 32)
    (h : Encoded aKey nKey szHdr fileFormat s.zIdx s.offset (pRec :: data))
    (hlen : s.zIdx + typeLen fileFormat pRec ≤ len) :
    scanType zData i s =
      { zIdx := s.zIdx + typeLen fileFormat pRec
        offset := s.offset + fieldLen fileFormat pRec
        aType := Function.update s.aType i (sqlite3VdbeSerialType pRec fileFormat)
        aOffset := Function.update s.aOffset i s.offset } := by
  have htypes := h.types
  rw [putTypes_cons] at htypes
  have hbytes : Holds zData s.zIdx
      (putVarint32 (.ofNat (sqlite3VdbeSerialType pRec fileFormat))) := by
    refine (holds_append.mp htypes).1.congr fun k _ hk => hagree k ?_
    rw [length_putVarint32_type] at hk
    omega
  have hget := getVarint32_putVarint32 _ hbytes
  have hle := h.le_size
  have htype : (UInt32.ofNat (sqlite3VdbeSerialType pRec fileFormat)).toNat
      = sqlite3VdbeSerialType pRec fileFormat := by
    rw [UInt32.toNat_ofNat']
    exact Nat.mod_eq_of_lt (sqlite3VdbeSerialType_lt pRec fileFormat)
  rw [scanType, hget, length_putVarint32_type]
  dsimp only
  rw [htype, Nat.mod_eq_of_lt]
  · rfl
  · exact lt_of_le_of_lt hle hkey

/-- **The scan of a header**, all of it or as much as the columns can need. -/
theorem scanned_scanHeader {s : Scan} {data : List Mem} (hagree : ∀ k < len, zData k = aKey k)
    (hkey : nKey < 2 ^ 32) (h : Encoded aKey nKey szHdr fileFormat s.zIdx s.offset data)
    (left i : ℕ) (hlen : len = szHdr ∨ s.zIdx + 5 * left ≤ len ∧ left ≤ data.length) :
    Scanned fileFormat i left s.zIdx s.offset data (scanHeader zData len left i s) := by
  induction left generalizing data s i with
  | zero =>
    constructor
    case zIdx => simp [scanHeader, typeBytes]
    case offset => simp [scanHeader, columnOffset, fullData]
    case aOffset => exact fun j hj => absurd hj (Nat.not_lt_zero j)
    case aType => exact fun j hj => absurd hj (Nat.not_lt_zero j)
  | succ left ih =>
    cases data with
    | nil =>
      have hidx := h.header_eq
      have hend : ¬ s.zIdx < len := by
        rcases hlen with hlen | hlen
        · omega
        · simp at hlen
      rw [scanHeader, if_neg hend]
      refine Scanned.nil ?_ (ih (s := { s with aOffset := Function.update s.aOffset i 0 }) h (i + 1) ?_)
      · rw [(scanHeader_before left (i + 1) _ (Nat.lt_succ_self i)).2]
        exact Function.update_self _ _ _
      · left
        rcases hlen with hlen | hlen
        · exact hlen
        · simp at hlen
    | cons pRec data =>
      have hhdr := h.lt_header
      have hbound := typeLen_bounds fileFormat pRec
      have hwin : s.zIdx + typeLen fileFormat pRec ≤ len := by omega
      have hscan := scanType_eq i hagree hkey h hwin
      have hover : ¬ s.offset + fieldLen fileFormat pRec
          < sqlite3VdbeSerialTypeLen (sqlite3VdbeSerialType pRec fileFormat) :=
        Nat.not_lt.mpr (Nat.le_add_left _ _)
      rw [scanHeader, if_pos (by omega), hscan]
      simp only [Function.update_self, hover, if_false]
      refine Scanned.cons (h.fits _ List.mem_cons_self) ?_ ?_
        (ih (s := ⟨_, _, _, _⟩) h.next (i + 1) ?_)
      · rw [(scanHeader_before left (i + 1) _ (Nat.lt_succ_self i)).2]
        exact Function.update_self _ _ _
      · rw [(scanHeader_before left (i + 1) _ (Nat.lt_succ_self i)).1]
        exact Function.update_self _ _ _
      · simp only [List.length_cons] at hlen ⊢
        omega

/-! ### Rows that hold a record -/

/-- The bytes of the record. -/
def Row.content : Row → ℕ → UInt8
  | .null => fun _ => 0
  | .btree _ payload _ _ => payload
  | .pseudo _ z => z

/-- The row holds the record `xs`. Of a record that overflows at least nine bytes are on the page,
as `OP_Column` relies on. -/
def Stores (row : Row) (xs : List UInt8) : Prop :=
  match row with
  | .null => False
  | .btree n payload zLocal avail =>
    n = xs.length ∧ Holds payload 0 xs ∧ (∀ i < avail, zLocal i = payload i) ∧ (n ≤ avail ∨ 9 ≤ avail)
  | .pseudo n z => n = xs.length ∧ Holds z 0 xs

namespace Stores

variable {row : Row} {xs : List UInt8}

theorem holds (h : Stores row xs) : Holds row.content 0 xs := by
  cases row with
  | null => exact h.elim
  | btree n payload zLocal avail => exact h.2.1
  | pseudo n z => exact h.2

theorem zData_eq (h : Stores row xs) {i : ℕ} (hi : i < 9) (hlt : i < xs.length) :
    row.zData i = row.content i := by
  cases row with
  | null => exact h.elim
  | btree n payload zLocal avail =>
    obtain ⟨hn, -, hagree, havail⟩ := h
    exact hagree i (by omega)
  | pseudo n z => rfl

theorem headerData_eq (h : Stores row xs) {len : ℕ} (hlen : len ≤ xs.length) {i : ℕ} (hi : i < len) :
    headerData row len i = row.content i := by
  cases row with
  | null => exact h.elim
  | btree n payload zLocal avail =>
    obtain ⟨hn, -, hagree, -⟩ := h
    rw [headerData]
    split
    · rename_i hpart
      rw [sqlite3VdbeMemFromBtree, if_neg (by omega)]
      simp [hi, Row.content]
    · exact hagree i (by omega)
  | pseudo n z => rfl

theorem payloadSize_eq (h : Stores row xs) {pC : VdbeCursor} (hfresh : pC.fresh = false) :
    payloadSize row pC = xs.length := by
  cases row with
  | null => exact h.elim
  | btree n payload zLocal avail =>
    rw [payloadSize, hfresh]
    exact h.1
  | pseudo n z => exact h.1

/-- The bytes at the offset of a column, wherever they are read from. -/
theorem memFromBtree {n avail offset amt : ℕ} {payload zLocal : ℕ → UInt8}
    (h : Stores (.btree n payload zLocal avail) xs) {i : ℕ} (hi : i < amt) :
    sqlite3VdbeMemFromBtree payload zLocal avail offset amt i = payload (offset + i) := by
  rw [sqlite3VdbeMemFromBtree]
  split
  · exact h.2.2.1 _ (by omega)
  · simp [hi]

end Stores

/-- A cursor whose cache holds the parsed header of the record. -/
structure Parsed (row : Row) (fileFormat : ℕ) (data : List Mem) (pC : VdbeCursor) : Prop where
  fresh : pC.fresh = true
  payloadSize : pC.payloadSize = (encode fileFormat data).length
  aRow : ∀ n payload zLocal avail, row = .btree n payload zLocal avail →
    pC.aRow = if n ≤ avail then some zLocal else none
  aOffset : ∀ j < pC.nField, pC.aOffset j =
    if j < data.length then columnOffset fileFormat (headerSize (typeBytes fileFormat data)) data j
    else 0
  aType : ∀ j < pC.nField, ∀ h : j < data.length,
    pC.aType j = sqlite3VdbeSerialType data[j] fileFormat

/-- The value of column `p2` of a record: that of the register, or the default. -/
def columnOf (data : List Mem) (op : ColumnOp) : Value :=
  ((data.map Mem.content)[op.p2]?).getD (op.p4.getD .null)

/-- The records that `OP_Column` can read with a cursor of `nField` columns. Their types take at
most 98304 bytes, and it is not the case that the types take at least 16382 bytes, that each of the
first `nField` values is a text or blob of at least 2^27-6 bytes, and that some later value has
bytes. -/
def Parsable (fileFormat nField : ℕ) (data : List Mem) : Prop :=
  typeBytes fileFormat data ≤ 98304 ∧
    ¬ (16382 ≤ typeBytes fileFormat data ∧
      (∀ pRec ∈ data.take nField, 2 ^ 27 - 6 ≤ pRec.content.z.length) ∧
      ∃ pRec ∈ data.drop nField, fieldLen fileFormat pRec ≠ 0)

variable {row : Row} {data : List Mem} {pC : VdbeCursor} {limitLength : ℕ}

/-- The decoder at column `j`. -/
theorem Encoded.drop {idx d : ℕ} (h : Encoded aKey nKey szHdr fileFormat idx d data) (j : ℕ) :
    Encoded aKey nKey szHdr fileFormat (idx + typeBytes fileFormat (data.take j))
      (columnOffset fileFormat d data j) (data.drop j) := by
  induction j generalizing idx d data with
  | zero => simpa [typeBytes, columnOffset, fullData] using h
  | succ j ih =>
    cases data with
    | nil => simpa [typeBytes, columnOffset, fullData] using h
    | cons pRec data =>
      have hnext := ih h.next
      rw [columnOffset_cons (h.fits _ List.mem_cons_self)]
      rwa [Nat.add_assoc, ← typeBytes_cons] at hnext

/-- **The value of a column**, from the cache. -/
theorem columnValue_eq (bogus : ℕ → UInt8) {op : ColumnOp}
    (hstores : Stores row (encode fileFormat data)) (hdata : Storable limitLength fileFormat data)
    (h : Parsed row fileFormat data pC) (hp2 : op.p2 < pC.nField) (hlength : op.lengthArg = false)
    (htypeof : op.typeofArg = false) : columnValue bogus row op pC = columnOf data op := by
  have hoff := h.aOffset op.p2 hp2
  unfold columnValue columnOf
  rw [hoff]
  by_cases hlt : op.p2 < data.length
  · obtain ⟨-, -, hdec⟩ := encoded_encode hdata.fits hdata.typeBytes_lt hstores.holds
    have hdrop := hdec.drop op.p2
    rw [List.drop_eq_getElem_cons hlt] at hdrop
    have hbound := headerSize_bounds hdata.typeBytes_lt
    have hpos : columnOffset fileFormat (headerSize (typeBytes fileFormat data)) data op.p2 ≠ 0 := by
      rw [columnOffset]
      omega
    rw [if_pos hlt, if_neg hpos, h.aType op.p2 hp2 hlt]
    simp only [List.getElem?_map, List.getElem?_eq_getElem hlt, Option.map_some, Option.getD_some]
    cases row with
    | null => exact hstores.elim
    | pseudo n z => exact congrArg Prod.fst hdrop.readValue
    | btree n payload zLocal avail =>
      have hle := hdrop.le_size
      have hrec : zRec (.btree n payload zLocal avail) pC = if n ≤ avail then some zLocal else none :=
        h.aRow n payload zLocal avail rfl
      rw [hrec]
      by_cases hfull : n ≤ avail
      · -- the whole row is on the page
        rw [if_pos hfull]
        refine congrArg Prod.fst (hdrop.readFrom fun i hi => hstores.2.2.1 _ ?_)
        have := hstores.1
        omega
      · rw [if_neg hfull]
        simp only [hlength, htypeof, Bool.false_eq_true, or_self, false_and, if_false]
        exact congrArg Prod.fst (hdrop.readFrom fun i hi => hstores.memFromBtree hi)
  · rw [if_neg hlt, if_pos rfl]
    simp [List.getElem?_eq_none (Nat.not_lt.mp hlt)]

/-! ### Parsing a header -/

/-- What the parse leaves, for a header that is not refused for its size. -/
theorem scanned_header (hstores : Stores row (encode fileFormat data))
    (hdata : Storable limitLength fileFormat data) (nField : ℕ) (aType aOffset : ℕ → ℕ) :
    Scanned fileFormat 0 nField
      (headerSize (typeBytes fileFormat data) - typeBytes fileFormat data)
      (headerSize (typeBytes fileFormat data)) data
      (scanHeader (headerData row (headerLen nField (headerSize (typeBytes fileFormat data))))
        (headerLen nField (headerSize (typeBytes fileFormat data))) nField 0
        ⟨headerSize (typeBytes fileFormat data) - typeBytes fileFormat data,
          headerSize (typeBytes fileFormat data), aType, aOffset⟩) := by
  obtain ⟨-, hidx, hdec⟩ := encoded_encode hdata.fits hdata.typeBytes_lt hstores.holds
  have hbound := headerSize_bounds hdata.typeBytes_lt
  have hbytes := typeBytes_le fileFormat data
  have hlen := length_encode hdata.typeBytes_lt
  have hsize := hdata.size
  have hlimit := hdata.limit
  have hle : headerLen nField (headerSize (typeBytes fileFormat data))
      ≤ headerSize (typeBytes fileFormat data) := by
    rw [headerLen]
    split <;> omega
  have hagree : ∀ k < headerLen nField (headerSize (typeBytes fileFormat data)),
      headerData row (headerLen nField (headerSize (typeBytes fileFormat data))) k = row.content k :=
    fun k hk => hstores.headerData_eq (by omega) hk
  have hkey : (encode fileFormat data).length < 2 ^ 32 := by omega
  rw [show headerSize (typeBytes fileFormat data) - typeBytes fileFormat data
    = (getVarint32 row.content).2 by omega]
  refine scanned_scanHeader (s := ⟨(getVarint32 row.content).2, headerSize (typeBytes fileFormat data), aType, aOffset⟩)
    hagree hkey hdec nField 0 ?_
  dsimp only
  rw [headerLen]
  split
  · exact .inl rfl
  · right
    omega

theorem typeLen_eq_five_iff (fileFormat : ℕ) {pRec : Mem} (hfits : pRec.Fits) :
    typeLen fileFormat pRec = 5 ↔ 2 ^ 27 - 6 ≤ pRec.content.z.length := by
  have h := sqlite3VarintLen_bounds (sqlite3VdbeSerialType_lt pRec fileFormat)
  rw [← typeLen] at h
  have hiff : typeLen fileFormat pRec = 5 ↔ 2 ^ 28 ≤ sqlite3VdbeSerialType pRec fileFormat := by omega
  rw [hiff]
  rw [Mem.Fits] at hfits
  cases pRec with
  | value v =>
    cases v with
    | null => simp [sqlite3VdbeSerialType, Mem.content, Value.z]
    | int i =>
      have := intSerialType_bounds i fileFormat
      simp only [sqlite3VdbeSerialType, Mem.content, Value.z, List.length_nil]
      omega
    | real r => simp [sqlite3VdbeSerialType, Mem.content, Value.z]
    | text z | blob z =>
      simp only [sqlite3VdbeSerialType, Mem.content, Value.z] at hfits ⊢
      omega
  | zeroBlob z nZero =>
    simp only [sqlite3VdbeSerialType, Mem.content, Value.z, List.length_append,
      List.length_replicate] at hfits ⊢
    omega

/-- The types take five bytes each exactly if all of them do. -/
theorem typeBytes_eq_iff (fileFormat : ℕ) (hfits : ∀ pRec ∈ data, pRec.Fits) :
    typeBytes fileFormat data = 5 * data.length ↔
      ∀ pRec ∈ data, 2 ^ 27 - 6 ≤ pRec.content.z.length := by
  induction data with
  | nil => simp [typeBytes]
  | cons pRec data ih =>
    have h := typeLen_bounds fileFormat pRec
    have hfive := typeLen_eq_five_iff fileFormat (hfits _ List.mem_cons_self)
    have hrest := ih fun m hm => hfits m (List.mem_cons_of_mem _ hm)
    have hle := typeBytes_le fileFormat data
    rw [typeBytes_cons, List.length_cons, List.forall_mem_cons, ← hfive, ← hrest]
    omega

theorem typeBytes_take_add_drop (fileFormat : ℕ) (data : List Mem) (j : ℕ) :
    typeBytes fileFormat (data.take j) + typeBytes fileFormat (data.drop j)
      = typeBytes fileFormat data := by
  rw [typeBytes, typeBytes, ← List.sum_append, ← List.map_append, List.take_append_drop, typeBytes]

theorem fullData_take_append_drop (fileFormat : ℕ) (data : List Mem) (j : ℕ) :
    fullData fileFormat (data.take j) ++ fullData fileFormat (data.drop j)
      = fullData fileFormat data := by
  rw [fullData, fullData, ← List.flatMap_append, List.take_append_drop, fullData]

theorem fullData_ne_nil_iff (hfits : ∀ pRec ∈ data, pRec.Fits) :
    (fullData fileFormat data).length ≠ 0 ↔ ∃ pRec ∈ data, fieldLen fileFormat pRec ≠ 0 := by
  rw [← sum_fieldLen hfits, Ne, List.sum_eq_zero_iff]
  simp

theorem typeBytes_pos (h : data ≠ []) : 0 < typeBytes fileFormat data := by
  obtain ⟨pRec, data, rfl⟩ := List.exists_cons_of_ne_nil h
  have := typeLen_bounds fileFormat pRec
  rw [typeBytes_cons]
  omega

/-- **The check after the scan**, of a header that is not refused for its size. -/
theorem scan_corrupt_iff {nField : ℕ} {s : Scan} (hdata : Storable limitLength fileFormat data)
    (h : Scanned fileFormat 0 nField
      (headerSize (typeBytes fileFormat data) - typeBytes fileFormat data)
      (headerSize (typeBytes fileFormat data)) data s) :
    (s.zIdx > headerLen nField (headerSize (typeBytes fileFormat data)) ∨
      s.offset > (encode fileFormat data).length ∨
      (s.zIdx = headerLen nField (headerSize (typeBytes fileFormat data)) ∧
        s.offset ≠ (encode fileFormat data).length)) ↔
      16382 ≤ typeBytes fileFormat data ∧
        (∀ pRec ∈ data.take nField, 2 ^ 27 - 6 ≤ pRec.content.z.length) ∧
        ∃ pRec ∈ data.drop nField, fieldLen fileFormat pRec ≠ 0 := by
  have hbound := headerSize_bounds hdata.typeBytes_lt
  have hfits := hdata.fits
  have htypes := typeBytes_take_add_drop fileFormat data nField
  have hbytes := congrArg List.length (fullData_take_append_drop fileFormat data nField)
  have hsize := length_encode hdata.typeBytes_lt
  have htake := typeBytes_le fileFormat (data.take nField)
  have hzIdx := h.zIdx
  have hoffset := h.offset
  rw [columnOffset] at hoffset
  rw [List.length_append] at hbytes
  rw [← typeBytes_eq_iff fileFormat fun m hm => hfits m (List.mem_of_mem_take hm),
    ← fullData_ne_nil_iff fun m hm => hfits m (List.mem_of_mem_drop hm)]
  rcases Nat.lt_or_ge nField data.length with hlt | hge
  · -- some columns are left out
    have hdrop : 0 < typeBytes fileFormat (data.drop nField) :=
      typeBytes_pos (by simpa [List.drop_eq_nil_iff] using hlt)
    rw [List.length_take, Nat.min_eq_left hlt.le] at htake ⊢
    rw [headerLen]
    split <;> omega
  · -- all columns are there, and the header ends where the bytes begin
    have hdrop : data.drop nField = [] := List.drop_eq_nil_of_le hge
    have hall : data.take nField = data := List.take_of_length_le hge
    rw [hdrop] at htypes hbytes ⊢
    rw [hall] at htypes hbytes hoffset hzIdx htake ⊢
    have hnone : (fullData fileFormat ([] : List Mem)).length = 0 := rfl
    have hnone' : typeBytes fileFormat [] = 0 := rfl
    rw [headerLen]
    split <;> omega

theorem getVarint32_zData (hstores : Stores row (encode fileFormat data))
    (hdata : Storable limitLength fileFormat data) :
    (getVarint32 row.zData).1.toNat = headerSize (typeBytes fileFormat data) ∧
      (getVarint32 row.zData).2 = headerSize (typeBytes fileFormat data) - typeBytes fileFormat data := by
  have hbound := headerSize_bounds hdata.typeBytes_lt
  have hlen := length_putVarint32_header hdata.typeBytes_lt
  have hsize := length_encode hdata.typeBytes_lt
  have hholds := hstores.holds
  rw [encode, List.append_assoc] at hholds
  have hhdr : Holds row.zData 0
      (putVarint32 (.ofNat (headerSize (typeBytes fileFormat data)))) :=
    (holds_append.mp hholds).1.congr fun i _ hi => hstores.zData_eq (by omega) (by omega)
  have hget := getVarint32_putVarint32 _ hhdr
  simp only [Nat.zero_add] at hget
  have hlt := hdata.typeBytes_lt
  rw [hget, UInt32.toNat_ofNat']
  dsimp only
  omega

/-- **The parse of a header**: a record is refused as corrupt exactly if it is not `Parsable`. -/
theorem parseHeader_eq (hstores : Stores row (encode fileFormat data))
    (hdata : Storable limitLength fileFormat data) (pC : VdbeCursor) :
    ((parseHeader row (encode fileFormat data).length pC).1 = true ↔
      ¬ Parsable fileFormat pC.nField data) ∧
      (parseHeader row (encode fileFormat data).length pC).2.nField = pC.nField ∧
      (Parsable fileFormat pC.nField data →
        Parsed row fileFormat data (parseHeader row (encode fileFormat data).length pC).2) := by
  obtain ⟨hval, hidx⟩ := getVarint32_zData hstores hdata
  have hbound := headerSize_bounds hdata.typeBytes_lt
  rw [parseHeader]
  simp only [hval, hidx]
  by_cases hbig : headerSize (typeBytes fileFormat data) > 98307
  · have hnot : ¬ Parsable fileFormat pC.nField data := fun h => by
      have := h.1
      omega
    rw [if_pos hbig]
    exact ⟨by simpa using hnot, rfl, fun h => absurd h hnot⟩
  · have hscan := scanned_header hstores hdata pC.nField pC.aType pC.aOffset
    rw [if_neg hbig]
    refine ⟨?_, rfl, fun _ => ?_⟩
    · rw [decide_eq_true_iff, scan_corrupt_iff hdata hscan, Parsable]
      have hsmall : typeBytes fileFormat data ≤ 98304 := by omega
      simp only [hsmall, true_and, not_not]
    · constructor
      case fresh => rfl
      case payloadSize => rfl
      case aRow =>
        rintro n payload zLocal avail rfl
        rfl
      case aOffset => simpa using hscan.aOffset
      case aType => simpa using hscan.aType

/-! ### Reads -/

variable {bogus : ℕ → UInt8} {op : ColumnOp}

theorem payloadSize_of_parsed (hstores : Stores row (encode fileFormat data))
    (h : Parsed row fileFormat data pC) : payloadSize row pC = (encode fileFormat data).length := by
  cases row with
  | null => exact hstores.elim
  | btree n payload zLocal avail =>
    rw [payloadSize, h.fresh]
    exact h.payloadSize
  | pseudo n z => exact hstores.1

/-- The read that parses the header. -/
theorem opColumn_of_stale (hstores : Stores row (encode fileFormat data))
    (hdata : Storable limitLength fileFormat data) (h : (checkCache row op pC).fresh = false) :
    opColumn bogus limitLength row op pC =
      let r := parseHeader row (encode fileFormat data).length (checkCache row op pC)
      (if r.1 then .error .corrupt else .ok (columnValue bogus row op r.2), r.2) := by
  have hbound := headerSize_bounds hdata.typeBytes_lt
  have hlen := length_encode hdata.typeBytes_lt
  have hsize := hdata.size
  rw [opColumn]
  dsimp only
  rw [hstores.payloadSize_eq h, if_neg (by omega), if_neg (by omega), h]
  rfl

theorem checkCache_nField (row : Row) (op : ColumnOp) (pC : VdbeCursor) :
    (checkCache row op pC).nField = pC.nField := by
  cases row <;> rfl

/-- The operands of a read of the value itself, of one of the columns of the cursor. -/
structure ReadsValue (nField : ℕ) (op : ColumnOp) : Prop where
  p2 : op.p2 < nField
  lengthArg : op.lengthArg = false
  typeofArg : op.typeofArg = false

/-- **A read that parses the header**, of a record that can be read. -/
theorem opColumn_of_parsable (bogus : ℕ → UInt8) (hstores : Stores row (encode fileFormat data))
    (hdata : Storable limitLength fileFormat data) (hop : ReadsValue pC.nField op)
    (h : (checkCache row op pC).fresh = false) (hparse : Parsable fileFormat pC.nField data) :
    ∃ pC', opColumn bogus limitLength row op pC = (.ok (columnOf data op), pC') ∧
      Parsed row fileFormat data pC' ∧ pC'.nField = pC.nField := by
  obtain ⟨hcorrupt, hnField, hparsed⟩ := parseHeader_eq hstores hdata (checkCache row op pC)
  rw [checkCache_nField] at hcorrupt hnField hparsed
  have hok : (parseHeader row (encode fileFormat data).length (checkCache row op pC)).1 = false := by
    rw [← Bool.not_eq_true, hcorrupt]
    exact fun hnot => hnot hparse
  refine ⟨_, ?_, hparsed hparse, hnField⟩
  rw [opColumn_of_stale hstores hdata h]
  simp only [hok, Bool.false_eq_true, if_false]
  rw [columnValue_eq bogus hstores hdata (hparsed hparse) (hnField ▸ hop.p2) hop.lengthArg
    hop.typeofArg]

/-- **A record that cannot be read** is reported as corrupt. -/
theorem opColumn_of_not_parsable (hstores : Stores row (encode fileFormat data))
    (hdata : Storable limitLength fileFormat data) (h : (checkCache row op pC).fresh = false)
    (hparse : ¬ Parsable fileFormat pC.nField data) :
    (opColumn bogus limitLength row op pC).1 = .error .corrupt := by
  obtain ⟨hcorrupt, -, -⟩ := parseHeader_eq hstores hdata (checkCache row op pC)
  rw [checkCache_nField] at hcorrupt
  rw [opColumn_of_stale hstores hdata h]
  simp only [hcorrupt.mpr hparse, if_true]

/-- A read from the cache. -/
theorem opColumn_of_parsed (hstores : Stores row (encode fileFormat data))
    (hdata : Storable limitLength fileFormat data) (hop : ReadsValue pC.nField op)
    (h : Parsed row fileFormat data pC) (hfresh : checkCache row op pC = pC) :
    opColumn bogus limitLength row op pC = (.ok (columnOf data op), pC) := by
  have hbound := headerSize_bounds hdata.typeBytes_lt
  have hlen := length_encode hdata.typeBytes_lt
  have hsize := hdata.size
  rw [opColumn, hfresh]
  dsimp only
  rw [payloadSize_of_parsed hstores h, if_neg (by omega), if_neg (by omega), h.fresh, if_pos rfl,
    columnValue_eq bogus hstores hdata h hop.p2 hop.lengthArg hop.typeofArg]

/-- The cache of a pseudo-table is used or thrown away as the opcode says, all others are used. -/
theorem checkCache_cases (op : ColumnOp) (h : Parsed row fileFormat data pC) :
    checkCache row op pC = pC ∨ (checkCache row op pC).fresh = false := by
  cases row with
  | null => exact .inl rfl
  | btree n payload zLocal avail => exact .inl rfl
  | pseudo n z =>
    cases hclear : op.clearCache with
    | false =>
      left
      simp only [checkCache, hclear, Bool.not_false]
      cases pC
      have hfresh := h.fresh
      simp_all
    | true =>
      right
      simp [checkCache, hclear]

/-- Reads from a cursor that has parsed the header. -/
theorem readColumns_of_parsed (hstores : Stores row (encode fileFormat data))
    (hdata : Storable limitLength fileFormat data) (hparse : Parsable fileFormat pC.nField data)
    (h : Parsed row fileFormat data pC) {ops : List ColumnOp}
    (hops : ∀ op ∈ ops, ReadsValue pC.nField op) :
    readColumns bogus limitLength row pC ops = ops.map fun op => .ok (columnOf data op) := by
  induction ops generalizing pC with
  | nil => rfl
  | cons op ops ih =>
    have hop := hops op List.mem_cons_self
    have hrest : ∀ op ∈ ops, ReadsValue pC.nField op := fun o ho => hops o (List.mem_cons_of_mem _ ho)
    rw [readColumns, List.map_cons]
    rcases checkCache_cases op h with hsame | hstale
    · rw [opColumn_of_parsed hstores hdata hop h hsame, ih hparse h hrest]
    · obtain ⟨pC', heq, hparsed, hnField⟩ :=
        opColumn_of_parsable bogus hstores hdata hop hstale hparse
      rw [heq, ih (hnField ▸ hparse) hparsed (hnField ▸ hrest)]

/-- **All reads of a row** return the values that were put into the record. -/
theorem readColumns_eq (hstores : Stores row (encode fileFormat data))
    (hdata : Storable limitLength fileFormat data) (hparse : Parsable fileFormat pC.nField data)
    {ops : List ColumnOp} (hops : ∀ op ∈ ops, ReadsValue pC.nField op)
    (hstale : ∀ op ∈ ops.head?, (checkCache row op pC).fresh = false) :
    readColumns bogus limitLength row pC ops = ops.map fun op => .ok (columnOf data op) := by
  cases ops with
  | nil => rfl
  | cons op ops =>
    obtain ⟨pC', heq, hparsed, hnField⟩ := opColumn_of_parsable bogus hstores hdata
      (hops op List.mem_cons_self) (hstale op rfl) hparse
    rw [readColumns, heq, List.map_cons,
      readColumns_of_parsed hstores hdata (hnField ▸ hparse) hparsed
        (hnField ▸ fun o ho => hops o (List.mem_cons_of_mem _ ho))]

end Vdbe

end SqliteVms

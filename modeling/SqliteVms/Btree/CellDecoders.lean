import SqliteVms.Btree.Page

/-!
# The decoders of a cell

A cell is decoded in three places: by `btreeParseCellPtr`, by `cellSizePtr`, and inside the search
of `sqlite3BtreeMovetoUnpacked`, which wants only the key. There a table cell is never decoded in
full, since its key comes before the payload, and an index cell is not if its payload size is in the
first byte or two and the payload fits.

## Main definitions

* `movetoKey` — what the search takes from a cell
* `exactSize` — the size of a cell without casts
* `MemPage.OfKind` — one of the four kinds of page

## Main results

* `nSize_exact` — no bit is lost in a cast
* `decoders_agree` — the three agree
-/

namespace SqliteVms

namespace Btree

open Util

/-! ### The search -/

variable (g : Geom)

/-- `BtShared.max1bytePayload`. -/
def Geom.max1bytePayload : ℕ := if 127 < g.maxLocal then 127 else g.maxLocal % 256

/-- What `sqlite3BtreeMovetoUnpacked` compares: the key of a table cell, a record in the page, or a
record that is read after the whole cell was decoded. Offsets are from the beginning of the cell. -/
inductive CellKey
  | intKey (offset : ℕ) (nCellKey : ℤ)
  | record (offset nCell : ℕ)
  | parsed (info : CellInfo)

/-- What `sqlite3BtreeMovetoUnpacked` takes from a cell. -/
def movetoKey (m : MemPage) (pCell : ℕ → UInt8) : CellKey :=
  if m.intKey then
    let offset := if m.hasData then
        m.childPtrSize + (getVarint32 fun i => pCell (m.childPtrSize + i)).2
      else m.childPtrSize
    .intKey offset (Int.bmod (sqlite3GetVarint fun i => pCell (offset + i)).1.toNat (2 ^ 64))
  else
    let c₀ := (pCell m.childPtrSize).toNat
    let c₁ := pCell (m.childPtrSize + 1)
    if c₀ ≤ g.max1bytePayload then .record (m.childPtrSize + 1) c₀
    else if c₁ &&& 0x80 = 0 ∧ (c₀ &&& 0x7f) <<< 7 + c₁.toNat ≤ m.maxLocal then
      .record (m.childPtrSize + 2) ((c₀ &&& 0x7f) <<< 7 + c₁.toNat)
    else .parsed (btreeParseCellPtr g m pCell)

/-- The cell is not decoded in full. -/
def CellKey.isInline : CellKey → Bool
  | intKey _ _ => true
  | record _ _ => true
  | parsed _ => false

/-- The kind of a page decides what its cells have and how much of a payload stays on it. -/
structure MemPage.OfKind (m : MemPage) : Prop where
  hasData : m.hasData = (m.intKey && m.leaf)
  maxLocal : m.maxLocal = if m.intKey then g.maxLeaf else g.maxLocal
  minLocal : m.minLocal = g.minLocal

variable {g} {m : MemPage} {pCell : ℕ → UInt8}

theorem MemPage.OfKind.localBounds (h : m.OfKind g) : m.LocalBounds g := by
  have hge := g.usable_ge
  refine ⟨?_, ?_⟩
  · rw [h.maxLocal, Geom.maxLeaf, Geom.maxLocal]
    split <;> omega
  · rw [h.maxLocal, h.minLocal, Geom.maxLeaf, Geom.maxLocal, Geom.minLocal]
    split <;> omega

/-- Pages are of a kind. -/
theorem btreeInitPage_ofKind {pgno : ℕ} {data : ℕ → UInt8}
    (h : btreeInitPage g pgno data = some m) : m.OfKind g := by
  rw [btreeInitPage] at h
  generalize (if pgno = 1 then 100 else 0) = hdr at h
  split at h
  · cases h
  rename_i leaf intKey _
  generalize (if leaf = true then 8 else 12) = first at h
  dsimp only at h
  split at h
  · cases h
  split at h
  · cases h
  split at h
  · cases h
  obtain rfl := Option.some.inj h
  exact ⟨rfl, rfl, rfl⟩

/-! ### Sizes -/

variable (g) in
/-- The payload on the page, without casts. -/
def exactLocal (m : MemPage) (nPayload : ℕ) : ℕ :=
  if nPayload ≤ m.maxLocal then nPayload else spillLocal g m nPayload

variable (g) in
/-- The size of a cell with a header of `n` bytes, without casts. -/
def exactSize (m : MemPage) (n nPayload : ℕ) : ℕ :=
  if nPayload ≤ m.maxLocal then max 4 (n + nPayload) else n + spillLocal g m nPayload + 4

/-- The fields of a `CellInfo` that are cast to 16 bits are what they were before. -/
structure Lossless (g : Geom) (m : MemPage) (info : CellInfo) : Prop where
  nLocal : info.nLocal = exactLocal g m info.nPayload
  iOverflow : info.iOverflow =
    if info.nPayload ≤ m.maxLocal then 0 else info.nLocal + info.nHeader
  nSize : info.nSize = exactSize g m info.nHeader info.nPayload

/-- **No bit is lost in a cast.** -/
theorem nSize_exact (h : m.LocalBounds g) (pCell : ℕ → UInt8) :
    Lossless g m (btreeParseCellPtr g m pCell) := by
  have hmax := h.max_le
  have hpage := g.usable_le.trans g.page_le
  have hge := g.usable_ge
  have hspill := h.spillLocal_le (payloadSize m pCell).1
  have hhdr : (btreeParseCellPtr g m pCell).nHeader ≤ 22 := headerSize_le m pCell
  have hpay := nPayload_eq (g := g) m pCell
  rcases Nat.lt_or_ge m.maxLocal (payloadSize m pCell).1 with hP | hP
  · have hnot : ¬ (btreeParseCellPtr g m pCell).nPayload ≤ m.maxLocal := by omega
    have hlocal : (btreeParseCellPtr g m pCell).nLocal =
        spillLocal g m (payloadSize m pCell).1 % 65536 := by
      rw [btreeParseCellPtr, if_neg (by omega)]
    have hover := iOverflow_spill (g := g) hP
    have hsize := nSize_spill (g := g) hP
    rw [headerSize] at hover hsize
    constructor
    · rw [exactLocal, if_neg hnot, hlocal, hpay]
      omega
    · rw [if_neg hnot, hover, hlocal]
      omega
    · rw [exactSize, if_neg hnot, hsize, hpay]
      omega
  · have hle : (btreeParseCellPtr g m pCell).nPayload ≤ m.maxLocal := by omega
    have hover : (btreeParseCellPtr g m pCell).iOverflow = 0 := by
      rw [btreeParseCellPtr, if_pos hP]
    have hlocal := nLocal_local (g := g) hP
    have hsize := nSize_local (g := g) hP
    rw [headerSize] at hsize
    constructor
    · rw [exactLocal, if_pos hle, hlocal, hpay]
      omega
    · rw [if_pos hle, hover]
    · rw [exactSize, if_pos hle, hsize, hpay]
      split <;> omega

/-- The bounds on the size of a cell. -/
theorem exactSize_bounds (h : m.LocalBounds g) (n nPayload : ℕ) :
    4 ≤ exactSize g m n nPayload ∧ exactSize g m n nPayload ≤ m.maxLocal + n + 4 := by
  have hspill := h.spillLocal_le nPayload
  rw [exactSize]
  split <;> omega

/-! ### Keys -/

theorem payloadSize_index (h : m.intKey = false) : payloadSize m pCell =
    ((getVarint32 fun i => pCell (m.childPtrSize + i)).1.toNat,
      m.childPtrSize + (getVarint32 fun i => pCell (m.childPtrSize + i)).2) := by
  rw [payloadSize, if_neg (by simp [h])]

/-- The payload of an index cell is its key. -/
theorem parse_index (h : m.intKey = false) (pCell : ℕ → UInt8) :
    (btreeParseCellPtr g m pCell).nKey = (payloadSize m pCell).1 ∧
      (btreeParseCellPtr g m pCell).nHeader = (payloadSize m pCell).2 := by
  rw [btreeParseCellPtr]
  simp only [h, Bool.false_eq_true, if_false]
  split <;> exact ⟨rfl, rfl⟩

theorem max1bytePayload_le (g : Geom) :
    g.max1bytePayload ≤ 127 ∧ g.max1bytePayload ≤ g.maxLocal ∧
      (g.max1bytePayload < 127 → g.max1bytePayload = g.maxLocal) := by
  rw [Geom.max1bytePayload]
  split <;> omega

/-- **The two short ways to decode an index cell.** The payload is wholly in the page, and the
record is found where a full decoding finds it. -/
theorem movetoKey_record (h : m.OfKind g) {offset nCell : ℕ}
    (hkey : movetoKey g m pCell = .record offset nCell) :
    (btreeParseCellPtr g m pCell).nPayload = nCell ∧ nCell ≤ m.maxLocal ∧
      (btreeParseCellPtr g m pCell).nHeader = offset ∧
      (btreeParseCellPtr g m pCell).nKey = nCell := by
  obtain ⟨hmax, hlocal, hsmall⟩ := max1bytePayload_le g
  rw [movetoKey] at hkey
  split at hkey
  case isTrue => exact absurd hkey nofun
  case isFalse hint =>
  replace hint : m.intKey = false := Bool.eq_false_of_not_eq_true hint
  have hmaxLocal : m.maxLocal = g.maxLocal := by
    rw [h.maxLocal, hint, if_neg Bool.false_ne_true]
  obtain ⟨hnKey, hheader⟩ := parse_index (g := g) hint pCell
  have hpayload := nPayload_eq (g := g) m pCell
  -- all that is left is what the macro reads
  suffices hread : ((getVarint32 fun i => pCell (m.childPtrSize + i)).1.toNat = nCell ∧
      m.childPtrSize + (getVarint32 fun i => pCell (m.childPtrSize + i)).2 = offset) ∧
      nCell ≤ m.maxLocal by
    obtain ⟨⟨hval, hoff⟩, hle⟩ := hread
    rw [hpayload, hnKey, hheader, payloadSize_index hint]
    exact ⟨hval, hle, hoff, congrArg Nat.cast hval⟩
  dsimp only at hkey
  split at hkey
  case isTrue hone =>
    obtain ⟨rfl, rfl⟩ := CellKey.record.inj hkey
    have hends : EndsAt (fun i => pCell (m.childPtrSize + i)) 0 :=
      ⟨fun i hi => absurd hi (Nat.not_lt_zero i), (and_0x80_iff_lt _).mpr (by
        change (pCell m.childPtrSize).toNat < 2 ^ 7
        omega)⟩
    have hgroups : groups (fun i => pCell (m.childPtrSize + i)) 1 =
        (pCell m.childPtrSize).toNat := by
      simp only [groups, Nat.add_zero]
      omega
    obtain ⟨hval, hlen⟩ := getVarint32_eq (by decide) hends (by rw [hgroups]; omega)
    rw [hval, hlen, hgroups]
    exact ⟨⟨rfl, rfl⟩, by omega⟩
  case isFalse hone =>
    split at hkey
    case isFalse => cases hkey
    case isTrue htwo =>
      obtain ⟨rfl, rfl⟩ := CellKey.record.inj hkey
      obtain ⟨hlow, hfits⟩ := htwo
      have hand : (pCell m.childPtrSize).toNat &&& 0x7f = (pCell m.childPtrSize).toNat % 2 ^ 7 :=
        Nat.and_two_pow_sub_one_eq_mod _ 7
      have hsecond := (and_0x80_iff_lt _).mp hlow
      rw [hand, Nat.shiftLeft_eq] at hfits ⊢
      -- a single byte above `max1bytePayload` is too much for the page even without the shift
      have hhigh : 2 ^ 7 ≤ (pCell m.childPtrSize).toNat := by
        by_contra hlt
        omega
      have hends : EndsAt (fun i => pCell (m.childPtrSize + i)) 1 := by
        refine ⟨fun i hi => ?_, hlow⟩
        obtain rfl : i = 0 := by omega
        exact fun hzero => absurd ((and_0x80_iff_lt _).mp hzero) (not_lt.mpr hhigh)
      have hgroups : groups (fun i => pCell (m.childPtrSize + i)) 2 =
          (pCell m.childPtrSize).toNat % 2 ^ 7 * 2 ^ 7 + (pCell (m.childPtrSize + 1)).toNat := by
        simp only [groups, Nat.add_zero]
        omega
      obtain ⟨hval, hlen⟩ := getVarint32_eq (by decide) hends (by rw [hgroups]; omega)
      rw [hval, hlen, hgroups]
      exact ⟨⟨rfl, rfl⟩, hfits⟩

/-- **The short way to decode a table cell.** The key is that of a full decoding, which reads it in
the same place, whatever becomes of the payload. -/
theorem movetoKey_intKey {offset : ℕ} {nCellKey : ℤ}
    (hkey : movetoKey g m pCell = .intKey offset nCellKey) :
    offset = (payloadSize m pCell).2 ∧ (btreeParseCellPtr g m pCell).nKey = nCellKey ∧
      (btreeParseCellPtr g m pCell).nHeader =
        offset + (sqlite3GetVarint fun i => pCell (offset + i)).2 := by
  rw [movetoKey] at hkey
  split at hkey
  case isFalse =>
    dsimp only at hkey
    split at hkey
    · exact absurd hkey nofun
    · split at hkey <;> exact absurd hkey nofun
  case isTrue hint =>
    obtain ⟨rfl, rfl⟩ := CellKey.intKey.inj hkey
    have hoff : (if m.hasData = true then
        m.childPtrSize + (getVarint32 fun i => pCell (m.childPtrSize + i)).2
        else m.childPtrSize) = (payloadSize m pCell).2 := by
      rw [payloadSize]
      cases hd : m.hasData with
      | true => rw [if_pos rfl, if_neg (by simp)]
      | false => rw [if_neg Bool.false_ne_true, if_pos ⟨hint, rfl⟩]
    rw [hoff]
    refine ⟨rfl, ?_⟩
    rw [btreeParseCellPtr]
    simp only [hint, if_true]
    split <;> simp only [and_self]

/-! ### All three -/

/-- What is asked of the decoders for one cell. -/
structure Agree (g : Geom) (m : MemPage) (pCell : ℕ → UInt8) : Prop where
  size : cellSizePtr g m pCell = (btreeParseCellPtr g m pCell).nSize
  four_le : 4 ≤ (btreeParseCellPtr g m pCell).nSize
  exact : Lossless g m (btreeParseCellPtr g m pCell)
  le_max : (btreeParseCellPtr g m pCell).nSize ≤
    m.maxLocal + (btreeParseCellPtr g m pCell).nHeader + 4
  intKey : ∀ offset nCellKey, movetoKey g m pCell = .intKey offset nCellKey →
    (btreeParseCellPtr g m pCell).nKey = nCellKey ∧
      (btreeParseCellPtr g m pCell).nHeader =
        offset + (sqlite3GetVarint fun i => pCell (offset + i)).2
  record : ∀ offset nCell, movetoKey g m pCell = .record offset nCell →
    (btreeParseCellPtr g m pCell).iOverflow = 0 ∧
      (btreeParseCellPtr g m pCell).nLocal = (btreeParseCellPtr g m pCell).nPayload ∧
      (btreeParseCellPtr g m pCell).nPayload = nCell ∧
      (btreeParseCellPtr g m pCell).nHeader = offset ∧ (btreeParseCellPtr g m pCell).nKey = nCell
  parsed : ∀ info, movetoKey g m pCell = .parsed info → info = btreeParseCellPtr g m pCell

/-- **The decoders of a cell agree.** For every kind of page, whatever the bytes of the cell, the
two sizes are the same, without a bit lost and within the bounds. The search takes the key of a
table cell from where a full decoding has it, and an index cell is decoded the short way only if its
payload is wholly in the page, and then gives the same record. -/
theorem decoders_agree (g : Geom) {m : MemPage} (h : m.OfKind g) (pCell : ℕ → UInt8) :
    Agree g m pCell := by
  have hexact := nSize_exact h.localBounds pCell
  have hbounds := exactSize_bounds h.localBounds (btreeParseCellPtr g m pCell).nHeader
    (btreeParseCellPtr g m pCell).nPayload
  constructor
  case size => exact cellSizePtr_eq h.localBounds pCell
  case four_le => exact hexact.nSize ▸ hbounds.1
  case exact => exact hexact
  case le_max => exact hexact.nSize ▸ hbounds.2
  case intKey => exact fun offset nCellKey hkey => (movetoKey_intKey hkey).2
  case record =>
    intro offset nCell hkey
    obtain ⟨hpay, hle, hheader, hnKey⟩ := movetoKey_record h hkey
    have hfits : (btreeParseCellPtr g m pCell).nPayload ≤ m.maxLocal := by omega
    refine ⟨?_, ?_, hpay, hheader, hnKey⟩
    · rw [hexact.iOverflow, if_pos hfits]
    · rw [hexact.nLocal, exactLocal, if_pos hfits]
  case parsed =>
    intro info hkey
    rw [movetoKey] at hkey
    split at hkey
    · exact absurd hkey nofun
    · dsimp only at hkey
      split at hkey
      · exact absurd hkey nofun
      · split at hkey
        · exact absurd hkey nofun
        · exact (CellKey.parsed.inj hkey).symm

/-- A page of 512 bytes. -/
def small : Geom where
  pageSize := 512
  usableSize := 512
  autoVacuum := false
  secureDelete := false
  mxPgno := 100
  usable_ge := usable_512
  usable_le := self_512
  page_le := max_512
  page_pow := pow_512
  mxPgno_lt := by decide

/-- A leaf of a table. -/
def tableLeaf : MemPage where
  hdrOffset := 0
  leaf := true
  intKey := true
  hasData := true
  maxLocal := small.maxLeaf
  minLocal := small.minLocal
  nCell := 1
  nFree := 0
  aData := fun _ => 0

/-- A payload of 1000 bytes with the key 1. -/
def longCell (i : ℕ) : UInt8 := if i = 0 then 0x87 else if i = 1 then 0x68 else 1

theorem decoders_agree_tableLeaf : Agree small tableLeaf longCell :=
  decoders_agree small ⟨rfl, rfl, rfl⟩ longCell

/-- A table cell is never decoded in full, not even if its payload overflows. -/
theorem not_inline_only_local :
    ¬ ∀ (g : Geom) (m : MemPage), m.OfKind g → ∀ pCell, (movetoKey g m pCell).isInline = true →
      (btreeParseCellPtr g m pCell).iOverflow = 0 := fun hall =>
  absurd (hall small tableLeaf ⟨rfl, rfl, rfl⟩ longCell rfl) (by decide)

end Btree

end SqliteVms

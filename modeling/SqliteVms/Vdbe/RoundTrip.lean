import SqliteVms.Vdbe.Column

/-!
# Records round-trip

What is put into a record comes out of it again, by unpacking the whole record or by reading columns
through a cursor. `OP_Column` misses some records: it takes the longest possible header to be 98307
bytes, with at most three bytes for a type, and it takes the end of the part of the header that it
read for the end of the header.

## Main definitions

* `RoundTrips` — everything that is promised about one list of registers

## Main results

* `roundTrips_iff` — the lists for which it is kept
-/

namespace SqliteVms

namespace Vdbe

open Store Util

/-- The record of `regs`, read with a cursor of `nField` columns. -/
structure RoundTrips (limitLength fileFormat nField : ℕ) (regs : List Mem) (s : Sizes) (r : Record) :
    Prop where
  /-- The record is made, with the sizes that the first loop adds up. -/
  made : opMakeRecord limitLength fileFormat regs = some r
  sizes : s = (regs.map expandPrefixed).foldl (addField fileFormat) ⟨0, 0, 0⟩
  /-- It has `nByte` bytes and `nZero` zeros. -/
  length : r.z.length = headerSize s.nHdr + s.nData - s.nZero ∧ r.nZero = s.nZero ∧
    s.nZero ≤ s.nData
  /-- The varint in front counts itself and the types. -/
  header : ∀ aKey, Holds aKey 0 (r.z ++ List.replicate r.nZero 0) →
    (getVarint32 aKey).1.toNat = (getVarint32 aKey).2 + s.nHdr
  unpack : ∀ aKey, Holds aKey 0 (r.z ++ List.replicate r.nZero 0) → ∀ room, regs.length ≤ room →
    sqlite3VdbeRecordUnpack room (r.z.length + r.nZero) aKey = regs.map Mem.content
  /-- Every sequence of reads of a row returns the values, and the defaults after the last one. -/
  column : ∀ row, Stores row (r.z ++ List.replicate r.nZero 0) → ∀ bogus pC, pC.nField = nField →
    ∀ ops, (∀ op ∈ ops, ReadsValue nField op) →
      (∀ op ∈ ops.head?, (checkCache row op pC).fresh = false) →
      readColumns bogus limitLength row pC ops = ops.map fun op => .ok (columnOf regs op)

variable {limitLength fileFormat nField : ℕ} {regs : List Mem}

theorem holds_getD (xs : List UInt8) : Holds (fun i => xs.getD i 0) 0 xs :=
  holds_iff.mpr fun i hi => by simp [hi]

/-- Every list but for the reads of columns, and these for the records that can be parsed. -/
theorem roundTrips_of_parsable (h : Storable limitLength fileFormat regs)
    (hparse : Parsable fileFormat nField regs) :
    ∃ s r, RoundTrips limitLength fileFormat nField regs s r := by
  obtain ⟨r, hmade, hencode, hzero⟩ := opMakeRecord_eq h
  obtain ⟨hHdr, hData⟩ := foldl_addField_eq h
  have hlen := length_encode h.typeBytes_lt
  have hsplit := congrArg List.length hencode
  rw [List.length_append, List.length_replicate] at hsplit
  have hle := zeroTail_le fileFormat (prepared_expandPrefixed h.fits)
  have htail : r.nZero ≤ (fullData fileFormat regs).length := by
    rw [hzero, foldl_addField]
    rwa [(encode_expandPrefixed _ h.fits).2.2] at hle
  refine ⟨_, r, hmade, rfl, ?_, ?_, ?_, ?_⟩
  · rw [hHdr, hData, ← hzero]
    omega
  · intro aKey haKey
    rw [hencode] at haKey
    obtain ⟨hval, hidx, -⟩ := encoded_encode h.fits h.typeBytes_lt haKey
    rw [hval, hHdr, hidx]
  · intro aKey haKey room hroom
    rw [hencode] at haKey
    rw [hsplit, sqlite3VdbeRecordUnpack_encode h.fits h.typeBytes_lt haKey]
    exact List.take_of_length_le (by simpa using hroom)
  · rintro row hrow bogus pC rfl ops hops hstale
    rw [hencode] at hrow
    exact readColumns_eq hrow h hparse hops hstale

/-- A record that cannot be parsed is refused even when all of it is on the page. -/
theorem parsable_of_roundTrips (h : Storable limitLength fileFormat regs) (hnField : 0 < nField)
    {s : Sizes} {r : Record} (hround : RoundTrips limitLength fileFormat nField regs s r) :
    Parsable fileFormat nField regs := by
  by_contra hparse
  obtain ⟨r', hmade, hencode, -⟩ := opMakeRecord_eq h
  obtain rfl : r = r' := Option.some.inj (hround.made.symm.trans hmade)
  have hrow : Stores (.btree (encode fileFormat regs).length
      (fun i => (encode fileFormat regs).getD i 0) (fun i => (encode fileFormat regs).getD i 0)
      (encode fileFormat regs).length) (encode fileFormat regs) :=
    ⟨rfl, holds_getD _, fun _ _ => rfl, .inl (Nat.le_refl _)⟩
  have hcolumn := hround.column
  rw [hencode] at hcolumn
  have hread := hcolumn _ hrow (fun _ => 0) ⟨nField, false, 0, none, fun _ => 0, fun _ => 0⟩ rfl
    [⟨0, none, false, false, false⟩] (by simpa using ⟨hnField, rfl, rfl⟩) (by simp [checkCache])
  rw [readColumns, List.map_cons] at hread
  have hfirst := (List.cons.inj hread).1
  rw [opColumn_of_not_parsable hrow h rfl hparse] at hfirst
  cases hfirst

/-- **Records round-trip** exactly if `OP_Column` can parse their header. -/
theorem roundTrips_iff (h : Storable limitLength fileFormat regs) (hnField : 0 < nField) :
    (∃ s r, RoundTrips limitLength fileFormat nField regs s r) ↔
      Parsable fileFormat nField regs := by
  constructor
  · rintro ⟨s, r, hround⟩
    exact parsable_of_roundTrips h hnField hround
  · exact roundTrips_of_parsable h

/-- A record with a NULL, a constant, an integer, a text and a tail of zeros. -/
def smallRegs : List Mem :=
  [.value .null, .value (.int 1), .value (.int (-300)), .value (.text [0x61, 0x62]), .zeroBlob [] 3]

theorem roundTrips_smallRegs :
    Storable 1000 4 smallRegs ∧ ∃ s r, RoundTrips 1000 4 2 smallRegs s r := by
  have hstorable : Storable 1000 4 smallRegs :=
    ⟨by decide, by decide, by decide, by decide, by decide⟩
  exact ⟨hstorable, (roundTrips_iff hstorable (by decide)).mpr ⟨by decide, fun h => absurd h.1 (by decide)⟩⟩

/-! ### A header of 98308 bytes -/

/-- 32763 blobs of 8186 bytes and four of 1048570 bytes, all zeros. -/
def longHeader : List Mem :=
  List.replicate 32763 (.zeroBlob [] 8186) ++ List.replicate 4 (.zeroBlob [] 1048570)

theorem typeBytes_append (data data' : List Mem) :
    typeBytes fileFormat (data ++ data') = typeBytes fileFormat data + typeBytes fileFormat data' := by
  simp [typeBytes]

theorem typeBytes_replicate (n : ℕ) (pRec : Mem) :
    typeBytes fileFormat (List.replicate n pRec) = n * typeLen fileFormat pRec := by
  simp [typeBytes]

theorem typeBytes_longHeader : typeBytes 4 longHeader = 98305 := by
  rw [longHeader, typeBytes_append, typeBytes_replicate, typeBytes_replicate,
    show typeLen 4 (.zeroBlob [] 8186) = 3 by decide +kernel,
    show typeLen 4 (.zeroBlob [] 1048570) = 4 by decide +kernel]

theorem sum_map_replicate (f : Mem → ℕ) (m n : ℕ) (x y : Mem) :
    ((List.replicate m x ++ List.replicate n y).map f).sum = m * f x + n * f y := by simp

theorem length_content_zeroBlob (nZero : ℕ) : (Mem.zeroBlob [] nZero).content.z.length = nZero := by
  simp [Mem.content, Value.z]

theorem storable_longHeader : Storable 1000000000 4 longHeader := by
  have hmem : ∀ pMem ∈ longHeader, pMem = .zeroBlob [] 8186 ∨ pMem = .zeroBlob [] 1048570 := by
    intro pMem hm
    rcases List.mem_append.mp hm with hm | hm
    · exact .inl (List.eq_of_mem_replicate hm)
    · exact .inr (List.eq_of_mem_replicate hm)
  have hvalues : ∀ pMem ∈ longHeader, pMem.content.z.length ≤ 1000000000 := by
    intro pMem hm
    rcases hmem pMem hm with rfl | rfl <;> rw [length_content_zeroBlob] <;> decide
  have hfits : ∀ pMem ∈ longHeader, pMem.Fits := by
    intro pMem hm
    rcases hmem pMem hm with rfl | rfl <;> rw [Mem.Fits, length_content_zeroBlob] <;> decide
  have hcount : longHeader.length = 32767 := by
    rw [longHeader, List.length_append, List.length_replicate, List.length_replicate]
  have hlen : (encode 4 longHeader).length
      = headerSize (typeBytes 4 longHeader) + (longHeader.map (fieldLen 4)).sum := by
    rw [length_encode (by rw [typeBytes_longHeader]; decide), sum_fieldLen hfits]
  refine ⟨?_, hcount.le, le_refl _, hvalues, ?_⟩
  · exact List.ne_nil_of_length_pos (by rw [hcount]; decide)
  · rw [hlen, typeBytes_longHeader, longHeader, sum_map_replicate,
      show fieldLen 4 (.zeroBlob [] 8186) = 8186 by decide +kernel,
      show fieldLen 4 (.zeroBlob [] 1048570) = 1048570 by decide +kernel,
      show headerSize 98305 = 98308 by decide +kernel]
    decide

/-- The columns of a record with a header of 98308 bytes cannot be read. -/
theorem not_roundTrips_longHeader :
    ¬ ∀ limitLength fileFormat nField regs, Storable limitLength fileFormat regs →
      1 ≤ fileFormat ∧ fileFormat ≤ 4 → 0 < nField →
      ∃ s r, RoundTrips limitLength fileFormat nField regs s r := by
  intro h
  obtain ⟨s, r, hround⟩ := h 1000000000 4 32767 longHeader storable_longHeader (by decide) (by decide)
  have hparse := (parsable_of_roundTrips storable_longHeader (by decide) hround).1
  rw [typeBytes_longHeader] at hparse
  exact absurd hparse (by decide)

end Vdbe

end SqliteVms

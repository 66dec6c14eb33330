import SqliteVms.Fts3.Codec

/-!
# Doclists from both ends

`sqlite3Fts3DoclistNext` goes through the entries of a doclist from the first to the last, and
`sqlite3Fts3DoclistPrev` from the last to the first. To find the beginning of an entry from behind,
the second looks for the terminator of the entry before. It does not tell that terminator from the
beginning of the doclist when the first entry has two bytes only. The first does not step over
padding.

## Main definitions

* `sqlite3Fts3DoclistNext`, `sqlite3Fts3DoclistPrev` — the two functions, with every read checked
* `Entry`, `encode` — the entries of a doclist and their bytes
-/

namespace SqliteVms

namespace Fts3

namespace Iter

/-! ### The code -/

/-- `sqlite3Fts3GetVarint` at `p`, if it stays in the doclist. -/
def readVarint (z : Bytes) (p : ℕ) : Option (ℤ × ℕ) :=
  if p + (getVarint (z.drop p)).2 ≤ z.length then some (getVarint (z.drop p)) else none

/-- The length that `fts3PoslistCopy` finds at `p`, if it stays in the doclist. -/
def readPoslist (z : Bytes) (p : ℕ) : Option ℕ :=
  if p + poslistLength 0 (z.drop p) ≤ z.length then some (poslistLength 0 (z.drop p)) else none

/-- The sign of the differences of docids: `bDescIdx ? -1 : 1`. -/
def sign (bDescIdx : Bool) : ℤ := if bDescIdx = true then -1 else 1

/-- An iterator: the pointer, the docid, the length of the list, and whether it is at its end. -/
structure Iterator where
  ptr : ℕ
  docid : ℤ
  nList : ℕ
  bEof : Bool

def sqlite3Fts3DoclistNext (bDescIdx : Bool) (z : Bytes) : Option ℕ → ℤ → Option Iterator
  | none, _ => (readVarint z 0).map fun r => ⟨r.2, r.1, 0, false⟩
  | some p, docid =>
    (readPoslist z p).bind fun k =>
      if z.length ≤ p + k then some ⟨p + k, docid, 0, true⟩
      else
        (readVarint z (p + k)).map fun r =>
          ⟨p + k + r.2, Int.bmod (docid + sign bDescIdx * r.1) (2 ^ 64), 0, false⟩

/-- The loop of `fts3GetReverseVarint`: `p + 1`, for the pointer `p` at which it stops. -/
def reverseVarint (z : Bytes) : ℕ → Option ℕ
  | 0 => some 0
  | n + 1 => z[n]?.bind fun c => if c &&& 0x80 ≠ 0 then reverseVarint z n else some (n + 1)

/-- The first loop of `fts3ReversePoslist`. -/
def skipBack (z : Bytes) : ℕ → UInt8 → Option (ℕ × UInt8)
  | 0, c => some (0, c)
  | p + 1, _ => z[p + 1]?.bind fun c => if c = 0 then skipBack z p c else some (p, c)

/-- The second loop of `fts3ReversePoslist`. -/
def findBack (z : Bytes) : ℕ → UInt8 → Option ℕ
  | 0, _ => some 0
  | p + 1, c =>
    z[p + 1]?.bind fun b => if b &&& 0x80 ||| c ≠ 0 then findBack z p b else some (p + 1)

/-- The third loop of `fts3ReversePoslist`. -/
def skipVarint (z : Bytes) : ℕ → ℕ → Option ℕ
  | 0, _ => none
  | fuel + 1, p =>
    z[p]?.bind fun b => if b &&& 0x80 ≠ 0 then skipVarint z fuel (p + 1) else some (p + 1)

def fts3ReversePoslist (z : Bytes) (p : ℕ) : Option ℕ :=
  if p < 2 then none
  else
    (skipBack z (p - 2) 0).bind fun r =>
      (findBack z r.1 r.2).bind fun p => skipVarint z (z.length + 1) (if 0 < p then p + 2 else p)

/-- The loop over all entries: the docid and the list of the last one. -/
def lastEntry (bDescIdx : Bool) (z : Bytes) : ℕ → ℕ → ℤ → ℤ → ℕ → Option (ℤ × ℕ)
  | 0, _, _, _, _ => none
  | fuel + 1, p, docid, iMul, pNext =>
    if p < z.length then
      (readVarint z p).bind fun r =>
        (readPoslist z (p + r.2)).bind fun k =>
          let q := p + r.2 + k
          lastEntry bDescIdx z fuel (q + ((z.drop q).takeWhile (· == 0)).length)
            (Int.bmod (docid + iMul * r.1) (2 ^ 64)) (sign bDescIdx) (p + r.2)
    else some (docid, pNext)

def sqlite3Fts3DoclistPrev (bDescIdx : Bool) (z : Bytes) : Option ℕ → ℤ → Option Iterator
  | none, _ =>
    (lastEntry bDescIdx z (z.length + 1) 0 0 1 0).map fun r =>
      ⟨r.2, r.1, z.length - r.2, false⟩
  | some p, docid =>
    (reverseVarint z (p - 1)).bind fun q =>
      (readVarint z q).bind fun r =>
        let docid := Int.bmod (docid - sign bDescIdx * r.1) (2 ^ 64)
        if q = 0 then some ⟨0, docid, 0, true⟩
        else (fts3ReversePoslist z q).map fun p => ⟨p, docid, q - p, false⟩

/-- The docids and position lists that `sqlite3Fts3DoclistNext` finds. -/
def nextRun (bDescIdx : Bool) (z : Bytes) : ℕ → Option ℕ → ℤ → Option (List (ℤ × Bytes))
  | 0, _, _ => none
  | fuel + 1, p, docid =>
    (sqlite3Fts3DoclistNext bDescIdx z p docid).bind fun i =>
      if i.bEof = true then some []
      else
        (readPoslist z i.ptr).bind fun k =>
          (nextRun bDescIdx z fuel (some i.ptr) i.docid).map
            ((i.docid, (z.drop i.ptr).take k) :: ·)

/-- The docids and position lists that `sqlite3Fts3DoclistPrev` finds. Behind the terminator of a
list is padding. -/
def prevRun (bDescIdx : Bool) (z : Bytes) : ℕ → Option ℕ → ℤ → Option (List (ℤ × Bytes))
  | 0, _, _ => none
  | fuel + 1, p, docid =>
    (sqlite3Fts3DoclistPrev bDescIdx z p docid).bind fun i =>
      if i.bEof = true then some []
      else
        let list := (z.drop i.ptr).take i.nList
        (prevRun bDescIdx z fuel (some i.ptr) i.docid).map
          ((i.docid, list.take (poslistLength 0 list)) :: ·)

/-! ### Entries -/

/-- An entry: the docid, the numbers of its position list, and how many zero bytes are behind the
terminator. -/
structure Entry where
  docid : ℤ
  numbers : List ℕ
  pad : ℕ

/-- The bytes of a position list. -/
def Entry.list (e : Entry) : Bytes := e.numbers.flatMap varint ++ [0]

/-- The position list and its padding. -/
def Entry.bytes (e : Entry) : Bytes := e.list ++ List.replicate e.pad 0

/-- What is found of an entry. -/
def Entry.pair (e : Entry) : ℤ × Bytes := (e.docid, e.list)

/-- The entries behind the docid `prev`. -/
def encodeFrom (bDescIdx : Bool) (prev : ℤ) : List Entry → Bytes
  | [] => []
  | e :: es =>
    putVarint (sign bDescIdx * (e.docid - prev)) ++ (e.bytes ++ encodeFrom bDescIdx e.docid es)

/-- The bytes of a doclist. -/
def encode (bDescIdx : Bool) : List Entry → Bytes
  | [] => []
  | e :: es => putVarint e.docid ++ (e.bytes ++ encodeFrom bDescIdx e.docid es)

/-- The numbers of position lists are not zero; docids have 64 bits. -/
def Entry.Valid (e : Entry) : Prop :=
  (∀ v ∈ e.numbers, 0 < v ∧ v < 2 ^ 64) ∧ -2 ^ 63 ≤ e.docid ∧ e.docid < 2 ^ 63

/-- The docids ascend, or descend. -/
def Sorted (bDescIdx : Bool) (es : List Entry) : Prop :=
  es.Pairwise fun a b => if bDescIdx = true then b.docid < a.docid else a.docid < b.docid

end Iter

end Fts3

end SqliteVms

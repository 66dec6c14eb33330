import SqliteVms.Fts3.DoclistIter
import SqliteVms.Lib.Checked
import SqliteVms.Vdbe.Mem

/-!
# Readers of segment nodes

Three functions read the entries of a segment node one after the other: `fts3ScanInteriorNode` for
a query, `fts3SegReaderNext` and `nodeReaderNext` for a merge. An entry has the length of a prefix
that it shares with the term before, the length and the bytes of the rest of its term, and, on a
leaf, the length and the bytes of a doclist. Every access is checked here: an access outside of the
node and its padding or outside of the term buffer, bytes of a term that were never written, an
`int` that overflows, or a step back is `none`.

## Main definitions

* `Term` — a buffer for a term
* `scanStep`, `segStep`, `nodeStep` — one entry, by each of the three
* `fts3ScanInteriorNode`, `segReaderLoop`, `nodeReaderLoop` — a whole node
-/

namespace SqliteVms

namespace Fts3

namespace Node

open Checked Vdbe
open Iter (readVarint)

/-! ### Lengths and terms -/

/-- A node and its `FTS3_NODE_PADDING`. -/
def padded (aNode : Bytes) : Bytes := aNode ++ List.replicate 20 0

/-- `sqlite3Fts3GetVarint32` at `p`, if it stays in the buffer. -/
def readVarint32 (z : Bytes) (p : ℕ) : Option (ℤ × ℕ) :=
  (readVarint z p).map fun r => (Int.bmod r.1 (2 ^ 32), r.2)

/-- The two lengths of an entry, the first only if it is there, and the place behind them. -/
def readLengths (z : Bytes) (hasPrefix : Bool) (p : ℕ) : Option (ℤ × ℤ × ℕ) :=
  (if hasPrefix = true then readVarint32 z p else some (0, 0)).bind fun (nPrefix, k) =>
    (readVarint32 z (p + k)).map fun (nSuffix, k') => (nPrefix, nSuffix, p + k + k')

/-- The sum of two `int`s, if it does not overflow. -/
def addInt (a b : ℤ) : Option ℤ := if -2 ^ 31 ≤ a + b ∧ a + b < 2 ^ 31 then some (a + b) else none

/-- A buffer: the bytes of the term and the size of the allocation. -/
structure Term where
  a : Bytes
  nAlloc : ℤ

/-- Room for `n` bytes. `malloc` says for which sizes there is memory; the inner `none` is
`SQLITE_NOMEM`. -/
def Term.grow (malloc : ℤ → Bool) (double : Bool) (t : Term) (n : ℤ) : Option (Option Term) :=
  if t.nAlloc < n then
    (if double = true then addInt n n else some n).map fun nNew =>
      if malloc nNew = true then some { t with nAlloc := nNew } else none
  else some (some t)

/-- The rest of a term is copied behind the prefix. -/
def Term.load (t : Term) (z : Bytes) (p : ℕ) (nPrefix nSuffix : ℤ) : Option Term :=
  if 0 ≤ nPrefix ∧ nPrefix ≤ t.a.length ∧ 0 ≤ nSuffix ∧ nPrefix + nSuffix ≤ t.nAlloc ∧
      p + nSuffix ≤ z.length then
    some { t with a := t.a.take nPrefix.toNat ++ (z.drop p).take nSuffix.toNat }
  else none

/-- The buffer after an entry. -/
def Term.store (malloc : ℤ → Bool) (double : Bool) (t : Term) (z : Bytes) (p : ℕ)
    (nPrefix nSuffix : ℤ) : Option (Option Term) :=
  ((addInt nPrefix nSuffix).bind (t.grow malloc double)).bind fun r =>
    match r with
    | none => some none
    | some t => (t.load z p nPrefix nSuffix).map some

/-- A result code. -/
inductive Rc
  | ok
  | nomem
  | corrupt

/-! ### `fts3ScanInteriorNode` -/

/-- The variables of `fts3ScanInteriorNode`; `first` and `last` are what was written. -/
structure Scan where
  zCsr : ℕ
  isFirstTerm : Bool
  zBuffer : Term
  iChild : ℤ
  piFirst : Bool
  piLast : Bool
  first : Option ℤ
  last : Option ℤ

/-- One round of its loop. -/
def scanStep (malloc : ℤ → Bool) (zTerm z : Bytes) (nNode : ℕ) (s : Scan) :
    Option ((Rc × Option ℤ × Option ℤ) ⊕ Scan) :=
  if s.zCsr < nNode ∧ (s.piFirst = true ∨ s.piLast = true) then
    (readLengths z (!s.isFirstTerm) s.zCsr).bind fun (nPrefix, nSuffix, zCsr) =>
      if nPrefix < 0 ∨ nSuffix < 0 ∨ (nNode : ℤ) < zCsr + nSuffix then
        some (.inl (.corrupt, s.first, s.last))
      else
        (s.zBuffer.store malloc true z zCsr nPrefix nSuffix).map fun r =>
          match r with
          | none => .inl (.nomem, s.first, s.last)
          | some t =>
            let nBuffer := t.a.length
            let cmp := memcmp (if nBuffer > zTerm.length then zTerm.length else nBuffer) zTerm t.a
            let setFirst := s.piFirst && (cmp < 0 || cmp = 0 && nBuffer > zTerm.length)
            let setLast := s.piLast && cmp < 0
            .inr
              { zCsr := zCsr + nSuffix.toNat
                isFirstTerm := false
                zBuffer := t
                iChild := Int.bmod (s.iChild + 1) (2 ^ 64)
                piFirst := s.piFirst && !setFirst
                piLast := s.piLast && !setLast
                first := if setFirst = true then some s.iChild else s.first
                last := if setLast = true then some s.iChild else s.last }
  else
    some (.inl (.ok, if s.piFirst = true then some s.iChild else s.first,
      if s.piLast = true then some s.iChild else s.last))

/-- What is before the loop. -/
def scanStart (z : Bytes) (nNode : ℕ) (piFirst piLast : Bool) :
    Option ((Rc × Option ℤ × Option ℤ) ⊕ Scan) :=
  (readVarint z 0).bind fun (_, k) =>
    (readVarint z k).map fun (iChild, k') =>
      if nNode < k + k' then .inl (.corrupt, none, none)
      else .inr ⟨k + k', true, ⟨[], 0⟩, iChild, piFirst, piLast, none, none⟩

def fts3ScanInteriorNode (malloc : ℤ → Bool) (zTerm aNode : Bytes) (piFirst piLast : Bool) :
    Option (Rc × Option ℤ × Option ℤ) :=
  (scanStart (padded aNode) aNode.length piFirst piLast).bind fun r =>
    match r with
    | .inl r => some r
    | .inr s => run (scanStep malloc zTerm (padded aNode) aNode.length) (aNode.length + 1) s

/-! ### `fts3SegReaderNext` -/

/-- The fields of `Fts3SegReader` on a node. -/
structure Seg where
  pNext : ℕ
  zTerm : Term
  aDoclist : ℕ
  nDoclist : ℤ

/-- `fts3SegReaderNext` on the last leaf, which is in memory. -/
def segStep (malloc : ℤ → Bool) (z : Bytes) (nNode : ℕ) (s : Seg) : Option (Rc ⊕ Seg) :=
  if nNode ≤ s.pNext then some (.inl .ok)
  else
    (readLengths z true s.pNext).bind fun (nPrefix, nSuffix, pNext) =>
      if nPrefix < 0 ∨ nSuffix ≤ 0 ∨ (nNode : ℤ) < pNext + nSuffix then some (.inl .corrupt)
      else
        (s.zTerm.store malloc true z pNext nPrefix nSuffix).bind fun r =>
          match r with
          | none => some (.inl .nomem)
          | some t =>
            (readVarint32 z (pNext + nSuffix.toNat)).bind fun (nDoclist, k) =>
              let aDoclist := pNext + nSuffix.toNat + k
              if (nNode : ℤ) < aDoclist + nDoclist then some (.inl .corrupt)
              else if aDoclist + nDoclist < 1 then none
              else
                z[(aDoclist + nDoclist - 1).toNat]?.bind fun b =>
                  if b ≠ 0 then some (.inl .corrupt)
                  -- the next entry would begin before the doclist of this one
                  else if nDoclist < 0 then none
                  else some (.inr ⟨aDoclist + nDoclist.toNat, t, aDoclist, nDoclist⟩)

/-- A reader at the beginning of the node. -/
def segStart : Seg := ⟨0, ⟨[], 0⟩, 0, 0⟩

/-- `fts3SegReaderNext` until the end of the node. -/
def segReaderLoop (malloc : ℤ → Bool) (aNode : Bytes) : Option Rc :=
  run (segStep malloc (padded aNode) aNode.length) (aNode.length + 1) segStart

/-! ### `nodeReaderNext` -/

structure NodeReader where
  iOff : ℕ
  iChild : ℤ
  term : Term
  aDoclist : ℕ
  nDoclist : ℤ

/-- The child after `nodeReaderNext` has moved on. -/
def NodeReader.child (s : NodeReader) : ℤ :=
  if s.iChild ≠ 0 ∧ s.term.a.length ≠ 0 then Int.bmod (s.iChild + 1) (2 ^ 64) else s.iChild

/-- `nodeReaderNext`. -/
def nodeStep (malloc : ℤ → Bool) (z : Bytes) (nNode : ℕ) (s : NodeReader) :
    Option (Rc ⊕ NodeReader) :=
  if nNode ≤ s.iOff then some (.inl .ok)
  else
    (readLengths z (decide (s.term.a.length ≠ 0)) s.iOff).bind fun (nPrefix, nSuffix, iOff) =>
      (s.term.store malloc false z iOff nPrefix nSuffix).bind fun r =>
        match r with
        | none => some (.inl .nomem)
        | some t =>
          let iOff := iOff + nSuffix.toNat
          if s.child = 0 then
            (readVarint32 z iOff).bind fun (nDoclist, k) =>
              if nDoclist < 0 then none
              else
                (addInt (iOff + k) nDoclist).map fun n =>
                  .inr ⟨n.toNat, s.child, t, iOff + k, nDoclist⟩
          else some (.inr ⟨iOff, s.child, t, s.aDoclist, s.nDoclist⟩)

/-- `nodeReaderInit` before its call of `nodeReaderNext`. -/
def nodeStart (z : Bytes) : Option NodeReader :=
  z[0]?.bind fun b =>
    if b ≠ 0 then (readVarint z 1).map fun (iChild, k) => ⟨1 + k, iChild, ⟨[], 0⟩, 0, 0⟩
    else some ⟨1, 0, ⟨[], 0⟩, 0, 0⟩

/-- `nodeReaderInit`, and `nodeReaderNext` until `aNode` is zero. -/
def nodeReaderLoop (malloc : ℤ → Bool) (aNode : Bytes) : Option Rc :=
  (nodeStart (padded aNode)).bind
    (run (nodeStep malloc (padded aNode) aNode.length) (aNode.length + 1))

end Node

end Fts3

end SqliteVms

import SqliteVms.Lib.Cells
import Mathlib.Data.Int.Order.Basic

/-!
# Row sets

`rowset.c`, as far as inserting and testing goes: `sqlite3RowSetNext` is never called on a set that
is tested. All entries are cells of one memory, those of a list, of a tree and of the list of trees
alike, and every allocation gives a new one. What is in a cell before it is written is up to the
caller.

The loops run for at most as many turns as there are entries. They need no more (see `RowSetSound`),
so `Fault.hang` stands for a loop that does not end. `Fault.bounds` is an access behind the end of
`aBucket`.

## Main definitions

* `RowSet` — the row set with its memory
* `rowSetEntryMerge`, `rowSetEntrySort`, `rowSetTreeToList`, `rowSetListToTree`
* `sqlite3RowSetInsert`, `sqlite3RowSetTest` — the operations
-/

namespace SqliteVms

namespace RowSet

structure RowSetEntry where
  v : ℤ
  pRight : Option ℕ
  pLeft : Option ℕ

/-- The entries by their addresses. -/
abbrev Heap := ℕ → RowSetEntry

/-- `a->pRight = p`. -/
def Heap.setRight (h : Heap) (a : ℕ) (p : Option ℕ) : Heap :=
  Function.update h a { h a with pRight := p }

/-- `a->pLeft = p`. -/
def Heap.setLeft (h : Heap) (a : ℕ) (p : Option ℕ) : Heap :=
  Function.update h a { h a with pLeft := p }

/-- What goes wrong. -/
inductive Fault
  | hang
  | bounds
  deriving DecidableEq

/-- An answer, unless something goes wrong. -/
abbrev Result := Except Fault

end RowSet

open RowSet in
/-- `RowSet`. The entries given out so far are those below `nEntry`. -/
structure RowSet where
  heap : Heap
  nEntry : ℕ
  pEntry : Option ℕ
  pLast : Option ℕ
  pForest : Option ℕ
  sorted : Bool
  iBatch : UInt8

namespace RowSet

/-! ### Merging and sorting -/

/-- `pTail->pRight = p`, where `pTail` is an entry or else the variable `head`, whose `pRight` is the
second component. -/
def putTail (h : Heap) (head pTail p : Option ℕ) : Heap × Option ℕ :=
  match pTail with
  | none => (h, p)
  | some t => (h.setRight t p, head)

/-- The loop of `rowSetEntryMerge`, and what comes after it. -/
def mergeLoop : ℕ → Heap → Option ℕ → Option ℕ → Option ℕ → Option ℕ → Result (Heap × Option ℕ)
  | 0, _, _, _, _, _ => .error .hang
  | fuel + 1, h, head, pTail, some a, some b =>
    if (h a).v < (h b).v then
      let s := putTail h head pTail (some a)
      mergeLoop fuel s.1 s.2 (some a) (s.1 a).pRight (some b)
    else if (h b).v < (h a).v then
      let s := putTail h head pTail (some b)
      mergeLoop fuel s.1 s.2 (some b) (some a) (s.1 b).pRight
    else mergeLoop fuel h head pTail (h a).pRight (some b)
  | _ + 1, h, head, pTail, some a, none => .ok (putTail h head pTail (some a))
  | _ + 1, h, head, pTail, none, pB => .ok (putTail h head pTail pB)

def rowSetEntryMerge (fuel : ℕ) (h : Heap) (pA pB : Option ℕ) : Result (Heap × Option ℕ) :=
  mergeLoop fuel h none none pA pB

/-- The elements of `aBucket`. -/
def nBucket : ℕ := 40

/-- The loop of `rowSetEntrySort` over the buckets that are not empty, from bucket `i` on, and the
assignment after it. The first argument counts the buckets from `i` on. -/
def fillBucket (fuel : ℕ) : ℕ → ℕ → Heap → (ℕ → Option ℕ) → Option ℕ →
    Result (Heap × (ℕ → Option ℕ))
  | 0, _, _, _, _ => .error .bounds
  | k + 1, i, h, aBucket, pIn =>
    match aBucket i with
    | none => .ok (h, Function.update aBucket i pIn)
    | some b => do
      let (h, pIn) ← rowSetEntryMerge fuel h (some b) pIn
      fillBucket fuel k (i + 1) h (Function.update aBucket i none) pIn

/-- The first loop of `rowSetEntrySort`. -/
def fillBuckets (fuel : ℕ) : ℕ → Heap → (ℕ → Option ℕ) → Option ℕ → Result (Heap × (ℕ → Option ℕ))
  | 0, _, _, _ => .error .hang
  | _ + 1, h, aBucket, none => .ok (h, aBucket)
  | n + 1, h, aBucket, some pIn => do
    let pNext := (h pIn).pRight
    let (h, aBucket) ← fillBucket fuel nBucket 0 (h.setRight pIn none) aBucket (some pIn)
    fillBuckets fuel n h aBucket pNext

/-- The second loop of `rowSetEntrySort`, over the buckets `is`. -/
def mergeBuckets (fuel : ℕ) (aBucket : ℕ → Option ℕ) :
    List ℕ → Heap → Option ℕ → Result (Heap × Option ℕ)
  | [], h, pIn => .ok (h, pIn)
  | i :: is, h, pIn => do
    let (h, pIn) ← rowSetEntryMerge fuel h pIn (aBucket i)
    mergeBuckets fuel aBucket is h pIn

def rowSetEntrySort (fuel : ℕ) (h : Heap) (pIn : Option ℕ) : Result (Heap × Option ℕ) := do
  let (h, aBucket) ← fillBuckets fuel fuel h (fun _ => none) pIn
  mergeBuckets fuel aBucket (List.range nBucket) h none

/-! ### Lists and trees -/

/-- The left half of `rowSetTreeToList`, with the call on the subtree as `treeToList`. The answer is
`*ppFirst`. -/
def leftToList (treeToList : Heap → ℕ → Result (Heap × ℕ × ℕ)) (h : Heap) (pIn : ℕ) :
    Result (Heap × ℕ) :=
  match (h pIn).pLeft with
  | some l => do
    let (h, first, p) ← treeToList h l
    pure (h.setRight p (some pIn), first)
  | none => pure (h, pIn)

/-- The right half of `rowSetTreeToList`. The answer is `*ppLast`. -/
def rightToList (treeToList : Heap → ℕ → Result (Heap × ℕ × ℕ)) (h : Heap) (pIn : ℕ) :
    Result (Heap × ℕ) :=
  match (h pIn).pRight with
  | some r => do
    let (h, right, last) ← treeToList h r
    pure (h.setRight pIn (some right), last)
  | none => pure (h, pIn)

/-- `rowSetTreeToList`. The answer is `*ppFirst` and `*ppLast`. -/
def rowSetTreeToList : ℕ → Heap → ℕ → Result (Heap × ℕ × ℕ)
  | 0, _, _ => .error .hang
  | fuel + 1, h, pIn => do
    let (h, first) ← leftToList (rowSetTreeToList fuel) h pIn
    let (h, last) ← rightToList (rowSetTreeToList fuel) h pIn
    pure (h, first, last)

/-- `rowSetNDeepTree`, where `iDepth` is one more than the first argument. The answer is the tree
and `*ppList`. -/
def rowSetNDeepTree : ℕ → Heap → Option ℕ → Heap × Option ℕ × Option ℕ
  | _, h, none => (h, none, none)
  | 0, h, some p => ((h.setLeft p none).setRight p none, some p, (h p).pRight)
  | d + 1, h, some p =>
    match rowSetNDeepTree d h (some p) with
    | (h, pLeft, none) => (h, pLeft, none)
    | (h, pLeft, some p) =>
      let (h, pRight, pList) := rowSetNDeepTree d (h.setLeft p pLeft) (h p).pRight
      (h.setRight p pRight, some p, pList)

/-- The loop of `rowSetListToTree`, where `iDepth` is one more than the second argument. -/
def listToTreeLoop : ℕ → ℕ → Heap → ℕ → Option ℕ → Result (Heap × ℕ)
  | 0, _, _, _, _ => .error .hang
  | _ + 1, _, h, p, none => .ok (h, p)
  | fuel + 1, d, h, pLeft, some p =>
    let (h, pRight, pList) := rowSetNDeepTree d (h.setLeft p (some pLeft)) (h p).pRight
    listToTreeLoop fuel (d + 1) (h.setRight p pRight) p pList

def rowSetListToTree (fuel : ℕ) (h : Heap) (pList : ℕ) : Result (Heap × ℕ) :=
  listToTreeLoop fuel 0 ((h.setLeft pList none).setRight pList none) pList (h pList).pRight

/-! ### The operations -/

def sqlite3RowSetInit (heap : Heap) : RowSet := ⟨heap, 0, none, none, none, true, 0⟩

def sqlite3RowSetInsert (s : RowSet) (rowid : ℤ) : RowSet :=
  let pEntry := s.nEntry
  let heap : Heap := Function.update s.heap pEntry { s.heap pEntry with v := rowid, pRight := none }
  match s.pLast with
  | some pLast =>
    { s with
      heap := heap.setRight pLast (some pEntry)
      nEntry := s.nEntry + 1
      sorted := if s.sorted ∧ rowid ≤ (heap pLast).v then false else s.sorted
      pLast := some pEntry }
  | none =>
    { s with
      heap := heap, nEntry := s.nEntry + 1, pEntry := some pEntry, pLast := some pEntry }

/-- `*ppPrevTree = p`, where `ppPrevTree` is the `pRight` of an entry or else `&pRowSet->pForest`. -/
def putForest (s : RowSet) (pPrevTree p : Option ℕ) : RowSet :=
  match pPrevTree with
  | none => { s with pForest := p }
  | some x => { s with heap := s.heap.setRight x p }

/-- The loop of `sqlite3RowSetTest` over the trees, and what comes after it if no place for the list
`p` was found among them. -/
def intoForest (fuel : ℕ) : ℕ → RowSet → Option ℕ → Option ℕ → ℕ → Result RowSet
  | 0, _, _, _, _ => .error .hang
  | _ + 1, s, pPrevTree, none, p => do
    let pTree := s.nEntry
    let s := putForest { s with nEntry := s.nEntry + 1 } pPrevTree (some pTree)
    let heap : Heap := Function.update s.heap pTree { s.heap pTree with v := 0, pRight := none }
    let (heap, root) ← rowSetListToTree fuel heap p
    pure { s with heap := heap.setLeft pTree (some root) }
  | n + 1, s, _, some pTree, p =>
    match (s.heap pTree).pLeft with
    | none => do
      let (heap, root) ← rowSetListToTree fuel s.heap p
      pure { s with heap := heap.setLeft pTree (some root) }
    | some root => do
      let (heap, pAux, _) ← rowSetTreeToList fuel s.heap root
      let (heap, q) ← rowSetEntryMerge fuel (heap.setLeft pTree none) (some pAux) (some p)
      match q with
      | some q => intoForest fuel n { s with heap := heap } (some pTree) (heap pTree).pRight q
      -- a merge of two lists that are not empty is not empty
      | none => .error .hang

/-- The loop of `sqlite3RowSetTest` in one tree. -/
def searchTree : ℕ → Heap → Option ℕ → ℤ → Result Bool
  | 0, _, _, _ => .error .hang
  | _ + 1, _, none, _ => .ok false
  | fuel + 1, h, some p, iRowid =>
    if (h p).v < iRowid then searchTree fuel h (h p).pRight iRowid
    else if iRowid < (h p).v then searchTree fuel h (h p).pLeft iRowid
    else .ok true

/-- The loop of `sqlite3RowSetTest` over the trees to be searched. -/
def searchForest (fuel : ℕ) : ℕ → Heap → Option ℕ → ℤ → Result Bool
  | 0, _, _, _ => .error .hang
  | _ + 1, _, none, _ => .ok false
  | n + 1, h, some pTree, iRowid => do
    let found ← searchTree fuel h (h pTree).pLeft iRowid
    if found then pure true else searchForest fuel n h (h pTree).pRight iRowid

/-- As many turns as a loop can need. -/
def fuel (s : RowSet) : ℕ := s.nEntry + 1

/-- The pending entries, from `p` on, in order. -/
def sortEntries (s : RowSet) (p : ℕ) : Result (Heap × Option ℕ) :=
  if s.sorted then .ok (s.heap, some p) else rowSetEntrySort s.fuel s.heap (some p)

/-- The pending entries go into the forest. -/
def growForest (s : RowSet) : Result RowSet :=
  match s.pEntry with
  | none => .ok s
  | some p => do
    let (heap, p) ← s.sortEntries p
    match p with
    | some p => do
      let s ← intoForest s.fuel s.fuel { s with heap := heap } none s.pForest p
      pure { s with pEntry := none, pLast := none, sorted := true }
    -- a list that is not empty is not empty when it is sorted
    | none => .error .hang

/-- The part of `sqlite3RowSetTest` for the first test of a new batch. -/
def newBatch (s : RowSet) (iBatch : UInt8) : Result RowSet := do
  let s ← s.growForest
  pure { s with iBatch := iBatch }

def sqlite3RowSetTest (s : RowSet) (iBatch : UInt8) (iRowid : ℤ) : Result (RowSet × Bool) := do
  let s ← if iBatch ≠ s.iBatch then s.newBatch iBatch else .ok s
  let found ← searchForest s.fuel s.fuel s.heap s.pForest iRowid
  pure (s, found)

end RowSet

end SqliteVms

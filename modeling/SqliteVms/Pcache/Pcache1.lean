import SqliteVms.Lib.Linked
import Mathlib.Data.Finset.Card

/-!
# The page cache

`pcache1.c`: a group of page caches. A cache finds its pages by their keys in a hash table. The pages
of the group that are not in use are on one list, the least recently used one last, and any cache of
the group may take a page from its end.

Whether a page is on that list is not recorded. `pcache1PinPage` looks at the pointers of the page.

A page is named by its address and a cache by a number. Which address the allocator gives, whether it
gives one at all and whether memory is short is up to the caller; an address that is in use counts as
none.

## Main definitions

* `PgHdr1`, `PCache1`, `PGroup` — a page, a cache and the group
* `pcache1PinPage`, `pcache1RemoveFromHash`, `pcache1FreePage` — what is done to one page
* `pcache1Fetch`, `pcache1Unpin`, `pcache1Rekey`, … — the methods
-/

namespace SqliteVms

namespace Pcache1

/-- `PgHdr1`, without its pointers. -/
structure PgHdr1 where
  iKey : UInt32
  pCache : ℕ

/-- `PCache1`. A slot of `apHash` is the chain of its pages. -/
structure PCache1 where
  szPage : ℕ
  szExtra : ℕ
  bPurgeable : Bool
  nMin : UInt32
  nMax : UInt32
  n90pct : UInt32
  iMaxKey : UInt32
  nRecyclable : UInt32
  nPage : UInt32
  nHash : ℕ
  apHash : ℕ → List ℕ

/-- The slot of a key. -/
def PCache1.slot (C : PCache1) (iKey : UInt32) : ℕ := iKey.toNat % C.nHash

/-- `PGroup`, and what is in memory: the pages at the addresses `pages`, with their pointers `lru`, and
the caches `caches`. -/
structure PGroup where
  nMaxPage : UInt32
  nMinPage : UInt32
  mxPinned : UInt32
  nCurrentPage : UInt32
  pLruHead : Option ℕ
  pLruTail : Option ℕ
  lru : Links ℕ
  pages : Finset ℕ
  page : ℕ → PgHdr1
  caches : Finset ℕ
  cache : ℕ → PCache1

/-- A cache of no use. -/
def PCache1.blank : PCache1 := ⟨0, 0, false, 0, 0, 0, 0, 0, 0, 0, fun _ => []⟩

def pcache1Init : PGroup :=
  { nMaxPage := 0, nMinPage := 0, mxPinned := 10, nCurrentPage := 0, pLruHead := none
    pLruTail := none, lru := ⟨fun _ => none, fun _ => none⟩, pages := ∅, page := fun _ => ⟨0, 0⟩
    caches := ∅, cache := fun _ => PCache1.blank }

namespace PGroup

variable (s : PGroup)

/-- The cache of a page. -/
def owner (a : ℕ) : PCache1 := s.cache (s.page a).pCache

/-- A cache is changed. -/
def setCache (c : ℕ) (f : PCache1 → PCache1) : PGroup :=
  { s with cache := Function.update s.cache c (f (s.cache c)) }

/-! ### One page -/

def pcache1PinPage (a : ℕ) : PGroup :=
  if (s.lru.next a).isSome ∨ s.pLruTail = some a then
    setCache
      { s with
        lru := ((s.lru.unlink a).setNext (some a) none).setPrev (some a) none
        pLruHead := if s.pLruHead = some a then s.lru.next a else s.pLruHead
        pLruTail := if s.pLruTail = some a then s.lru.prev a else s.pLruTail }
      (s.page a).pCache fun C => { C with nRecyclable := C.nRecyclable - 1 }
  else s

def pcache1RemoveFromHash (a : ℕ) : PGroup :=
  s.setCache (s.page a).pCache fun C =>
    let h := C.slot (s.page a).iKey
    { C with apHash := Function.update C.apHash h ((C.apHash h).erase a), nPage := C.nPage - 1 }

def pcache1FreePage (a : ℕ) : PGroup :=
  { s with
    pages := s.pages.erase a
    nCurrentPage := if (s.owner a).bPurgeable then s.nCurrentPage - 1 else s.nCurrentPage }

/-- `pcache1AllocPage`, with the answer of the allocator. -/
def pcache1AllocPage (c : ℕ) (malloc : Option ℕ) : Option ℕ × PGroup :=
  match malloc.filter (· ∉ s.pages) with
  | none => (none, s)
  | some a =>
    (some a,
      { s with
        pages := insert a s.pages
        nCurrentPage := if (s.cache c).bPurgeable then s.nCurrentPage + 1 else s.nCurrentPage })

/-! ### Many pages -/

/-- The loop of `pcache1EnforceMaxPage`, over `n` pages at most. -/
def enforceLoop : ℕ → PGroup → PGroup
  | 0, s => s
  | n + 1, s =>
    match s.pLruTail with
    | none => s
    | some a =>
      if s.nMaxPage < s.nCurrentPage then
        enforceLoop n (((s.pcache1PinPage a).pcache1RemoveFromHash a).pcache1FreePage a)
      else s

def pcache1EnforceMaxPage : PGroup := enforceLoop s.pages.card s

/-- The loop body of `pcache1TruncateUnsafe`, for a page of slot `h`. -/
def truncatePage (c : ℕ) (iLimit : UInt32) (h : ℕ) (s : PGroup) (a : ℕ) : PGroup :=
  if iLimit ≤ (s.page a).iKey then
    let s := s.setCache c fun C =>
      { C with nPage := C.nPage - 1, apHash := Function.update C.apHash h ((C.apHash h).erase a) }
    (s.pcache1PinPage a).pcache1FreePage a
  else s

def pcache1TruncateUnsafe (c : ℕ) (iLimit : UInt32) : PGroup :=
  (List.range (s.cache c).nHash).foldl
    (fun s h => ((s.cache c).apHash h).foldl (truncatePage c iLimit h) s) s

/-- A page is put into the chain of its key. -/
def rehashPage (nNew : ℕ) (apNew : ℕ → List ℕ) (a : ℕ) : ℕ → List ℕ :=
  let h := (s.page a).iKey.toNat % nNew
  Function.update apNew h (a :: apNew h)

/-- `pcache1ResizeHash`: whether there is a hash table afterwards, and the group. -/
def pcache1ResizeHash (c : ℕ) (malloc : Bool) : Bool × PGroup :=
  let C := s.cache c
  let nNew := if C.nHash * 2 < 256 then 256 else C.nHash * 2
  if malloc then
    let apNew := (List.range C.nHash).foldl
      (fun apNew i => (C.apHash i).foldl (s.rehashPage nNew) apNew) fun _ => []
    (true, s.setCache c fun C => { C with apHash := apNew, nHash := nNew })
  else (0 < C.nHash, s)

/-! ### The methods -/

/-- `mxPinned`, which is set where one of the others is. -/
def setMxPinned : PGroup := { s with mxPinned := s.nMaxPage + 10 - s.nMinPage }

def pcache1Create (szPage szExtra : ℕ) (bPurgeable : Bool) (malloc : Option ℕ) :
    Option ℕ × PGroup :=
  match malloc.filter (· ∉ s.caches) with
  | none => (none, s)
  | some c =>
    let C := { PCache1.blank with szPage, szExtra, bPurgeable, nMin := if bPurgeable then 10 else 0 }
    let s := { s with caches := insert c s.caches, cache := Function.update s.cache c C }
    (some c, if bPurgeable then setMxPinned { s with nMinPage := s.nMinPage + C.nMin } else s)

def pcache1Cachesize (c : ℕ) (nMax : UInt32) : PGroup :=
  if (s.cache c).bPurgeable then
    let s := setMxPinned { s with nMaxPage := s.nMaxPage + (nMax - (s.cache c).nMax) }
    (s.setCache c fun C => { C with nMax, n90pct := nMax * 9 / 10 }).pcache1EnforceMaxPage
  else s

def pcache1Shrink (c : ℕ) : PGroup :=
  if (s.cache c).bPurgeable then
    { pcache1EnforceMaxPage { s with nMaxPage := 0 } with nMaxPage := s.nMaxPage }
  else s

/-- What the rest of the program answers to `pcache1Fetch`: whether there is memory for a hash table,
the address of a new page, and twice whether memory is short. -/
structure Memory where
  hash : Bool
  page : Option ℕ
  pressure : Bool
  pressure' : Bool

/-- The page with a key. -/
def find (c : ℕ) (iKey : UInt32) : Option ℕ :=
  if 0 < (s.cache c).nHash then
    ((s.cache c).apHash ((s.cache c).slot iKey)).find? fun a => (s.page a).iKey = iKey
  else none

/-- The end of `pcache1Fetch`. -/
def noteKey (c : ℕ) (iKey : UInt32) : PGroup :=
  s.setCache c fun C => if C.iMaxKey < iKey then { C with iMaxKey := iKey } else C

/-- Step 4 of `pcache1Fetch`. -/
def recycle (c : ℕ) (pressure : Bool) : Option ℕ × PGroup :=
  let C := s.cache c
  match s.pLruTail with
  | none => (none, s)
  | some a =>
    if C.bPurgeable ∧ (C.nMax ≤ C.nPage + 1 ∨ s.nMaxPage ≤ s.nCurrentPage ∨ pressure) then
      let s := (s.pcache1RemoveFromHash a).pcache1PinPage a
      let pOther := s.owner a
      if pOther.szPage + pOther.szExtra ≠ C.szPage + C.szExtra then (none, s.pcache1FreePage a)
      else
        (some a,
          { s with
            nCurrentPage :=
              s.nCurrentPage - (pOther.bPurgeable.toUInt32 - C.bPurgeable.toUInt32) })
    else (none, s)

/-- The page that step 5 of `pcache1Fetch` has got is put into the hash table. -/
def addPage (c : ℕ) (iKey : UInt32) (a : ℕ) : PGroup :=
  setCache
    { s with
      page := Function.update s.page a ⟨iKey, c⟩
      lru := (s.lru.setPrev (some a) none).setNext (some a) none }
    c fun C =>
      let h := C.slot iKey
      { C with nPage := C.nPage + 1, apHash := Function.update C.apHash h (a :: C.apHash h) }

/-- Steps 4 and 5 of `pcache1Fetch`. -/
def fetchNew (c : ℕ) (iKey : UInt32) (memory : Memory) : Option ℕ × PGroup :=
  let (pPage, s) :=
    match s.recycle c memory.pressure' with
    | (some a, s) => (some a, s)
    | (none, s) => s.pcache1AllocPage c memory.page
  match pPage with
  | none => (none, s)
  | some a => (some a, (s.addPage c iKey a).noteKey c iKey)

def pcache1Fetch (c : ℕ) (iKey : UInt32) (createFlag : ℕ) (memory : Memory) : Option ℕ × PGroup :=
  let C := s.cache c
  match s.find c iKey with
  | some a => (some a, (s.pcache1PinPage a).noteKey c iKey)
  | none =>
    let nPinned := C.nPage - C.nRecyclable
    if createFlag = 0 then (none, s)
    else if createFlag = 1 ∧ (s.mxPinned ≤ nPinned ∨ C.n90pct ≤ nPinned ∨ memory.pressure) then
      (none, s)
    else if C.nHash ≤ C.nPage.toNat then
      match s.pcache1ResizeHash c memory.hash with
      | (false, s) => (none, s)
      | (true, s) => s.fetchNew c iKey memory
    else s.fetchNew c iKey memory

/-- A page becomes the first of the LRU list. -/
def pushLru (a : ℕ) : PGroup :=
  match s.pLruHead with
  | some b =>
    { s with lru := (s.lru.setPrev (some b) (some a)).setNext (some a) (some b), pLruHead := some a }
  | none => { s with pLruTail := some a, pLruHead := some a }

def pcache1Unpin (c a : ℕ) (reuseUnlikely : Bool) : PGroup :=
  if reuseUnlikely ∨ s.nMaxPage < s.nCurrentPage then
    (s.pcache1RemoveFromHash a).pcache1FreePage a
  else (s.pushLru a).setCache c fun C => { C with nRecyclable := C.nRecyclable + 1 }

def pcache1Rekey (c a : ℕ) (iOld iNew : UInt32) : PGroup :=
  let s := s.setCache c fun C =>
    let h := C.slot iOld
    { C with apHash := Function.update C.apHash h ((C.apHash h).erase a) }
  let s := { s with page := Function.update s.page a { s.page a with iKey := iNew } }
  s.setCache c fun C =>
    let h := C.slot iNew
    { C with
      apHash := Function.update C.apHash h (a :: C.apHash h)
      iMaxKey := if C.iMaxKey < iNew then iNew else C.iMaxKey }

def pcache1Truncate (c : ℕ) (iLimit : UInt32) : PGroup :=
  if iLimit ≤ (s.cache c).iMaxKey then
    (s.pcache1TruncateUnsafe c iLimit).setCache c fun C => { C with iMaxKey := iLimit - 1 }
  else s

def pcache1Destroy (c : ℕ) : PGroup :=
  let s := s.pcache1TruncateUnsafe c 0
  let C := s.cache c
  let s := setMxPinned
    { s with nMaxPage := s.nMaxPage - C.nMax, nMinPage := s.nMinPage - C.nMin }
  let s := s.pcache1EnforceMaxPage
  { s with caches := s.caches.erase c }

end PGroup

end Pcache1

end SqliteVms

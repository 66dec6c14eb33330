import SqliteVms.Btree.Page
import Mathlib.Order.Interval.Finset.Nat

/-!
# The integrity checker

`sqlite3BtreeIntegrityCheck` with `checkTreePage`, `checkList`, `checkRef` and `checkPtrmap`. The
limit on the number of messages is taken to be larger than any number of messages, and no
allocation fails.

The checker marks each page it meets, and goes on only from a page it has not met before. So its
recursion is never deeper, and its lists never longer, than the file; the fuel is the number of
pages, and `outOfFuel` is never reported (`outOfFuel_notMem`).

The counters `hit[]` are plain `char`, which is signed here: a counter that is incremented `c`
times holds `toChar c`.

## Main definitions

* `Msg`, `IntegrityCk` — the messages, and the checker's state
* `checkList`, `checkTreePage`, `sqlite3BtreeIntegrityCheck` — the checker

## Main results

* `outOfFuel_notMem` — the fuel suffices
-/

namespace SqliteVms

namespace Btree

open BigEndian

/-- The messages, with what they name. -/
inductive Msg
  | invalidPageNumber (iPage : ℕ)
  | secondReference (iPage : ℕ)
  | failedToReadPtrmap (iChild : ℕ)
  | badPtrmapEntry (iChild eType iParent ePtrmapType iPtrmapParent : ℕ)
  | pagesMissing (missing expected : ℤ) (iFirst : ℕ)
  | failedToGetPage (iPage : ℕ)
  | leafCountTooBig (iPage : ℕ)
  | unableToGetPage (iPage : ℕ)
  | initPageError (iPage : ℕ)
  | rowidOutOfOrder (iPage iCell : ℕ) (nKey previous : ℤ)
  | childDepthDiffers (iPage iCell : ℕ)
  | maxAboveParentMin (iPage : ℕ) (nMaxKey parent : ℤ)
  | minBelowParentMin (iPage : ℕ) (nMinKey parent : ℤ)
  | maxAboveParentMax (iPage : ℕ) (nMaxKey parent : ℤ)
  | minBelowParentMax (iPage : ℕ) (nMinKey parent : ℤ)
  | corruptCell (iCell iPage : ℕ)
  | multipleUses (byte iPage : ℕ)
  | fragmentation (cnt reported iPage : ℕ)
  | neverUsed (iPage : ℕ)
  | ptrmapPageReferenced (iPage : ℕ)
  | outOfFuel
  deriving DecidableEq, Repr

/-- `IntegrityCk`: the pages met so far, and the messages. -/
structure IntegrityCk where
  aPgRef : ℕ → Bool
  errMsg : List Msg

/-- `checkAppendMsg`. -/
def IntegrityCk.append (ck : IntegrityCk) (msg : Msg) : IntegrityCk :=
  { ck with errMsg := ck.errMsg ++ [msg] }

def IntegrityCk.setPageReferenced (ck : IntegrityCk) (iPg : ℕ) : IntegrityCk :=
  { ck with aPgRef := Function.update ck.aPgRef iPg true }

theorem IntegrityCk.setPageReferenced_self (ck : IntegrityCk) (iPg : ℕ) :
    (ck.setPageReferenced iPg).aPgRef iPg = true := Function.update_self _ _ _

theorem IntegrityCk.setPageReferenced_of_ne (ck : IntegrityCk) {iPg p : ℕ} (h : p ≠ iPg) :
    (ck.setPageReferenced iPg).aPgRef p = ck.aPgRef p := Function.update_of_ne h _ _

variable (g : Geom) (db : Db)

/-- `checkRef`. The answer is whether the page cannot be used. -/
def checkRef (ck : IntegrityCk) (iPage : ℕ) : Bool × IntegrityCk :=
  if iPage = 0 then (true, ck)
  else if db.nPage < iPage then (true, ck.append (.invalidPageNumber iPage))
  else if ck.aPgRef iPage then (true, ck.append (.secondReference iPage))
  else (false, ck.setPageReferenced iPage)

/-- `checkPtrmap`, which is called in auto-vacuum databases only. -/
def checkPtrmap (ck : IntegrityCk) (iChild eType iParent : ℕ) : IntegrityCk :=
  if g.autoVacuum = true then
    match ptrmapGet g db iChild with
    | .error _ => ck.append (.failedToReadPtrmap iChild)
    | .ok (ePtrmapType, iPtrmapParent) =>
      if ePtrmapType ≠ eType ∨ iPtrmapParent ≠ iParent then
        ck.append (.badPtrmapEntry iChild eType iParent ePtrmapType iPtrmapParent)
      else ck
  else ck

/-! ### Lists of pages -/

/-- One leaf of a free-list trunk page. -/
def checkFreeLeaf (ck : IntegrityCk) (iFreePage : ℕ) : IntegrityCk :=
  (checkRef db (checkPtrmap g db ck iFreePage ptrmapFreepage 0) iFreePage).2

/-- The leaves of a free-list trunk page. -/
def checkFreeLeaves (data : ℕ → UInt8) (ck : IntegrityCk) (n : ℕ) : IntegrityCk :=
  ((List.range n).map fun i => get4 data (8 + i * 4)).foldl (checkFreeLeaf g db) ck

/-- The number of leaves a trunk page says it has, as the `int` the checker reads. -/
def trunkCount (data : ℕ → UInt8) : ℤ := toInt32 (get4 data 4)

/-- The loop of `checkList`. -/
def checkListLoop (isFreeList : Bool) (expected : ℤ) (iFirst : ℕ) :
    ℕ → IntegrityCk → ℕ → ℤ → IntegrityCk
  | 0, ck, _, _ => ck.append .outOfFuel
  | fuel + 1, ck, iPage, N =>
    if N ≤ 0 then ck
    else if iPage = 0 ∨ 2 ^ 31 ≤ iPage then ck.append (.pagesMissing N expected iFirst)
    else
      match checkRef db ck iPage with
      | (true, ck) => ck
      | (false, ck) =>
        if acquire g db.nPage iPage ≠ .ok then ck.append (.failedToGetPage iPage)
        else
          let data := db.page iPage
          if isFreeList = true then
            let ck := checkPtrmap g db ck iPage ptrmapFreepage 0
            if (g.usableSize / 4 - 2 : ℕ) < trunkCount data then
              checkListLoop isFreeList expected iFirst fuel (ck.append (.leafCountTooBig iPage))
                (get4 data 0) (N - 2)
            else
              checkListLoop isFreeList expected iFirst fuel
                (checkFreeLeaves g db data ck (trunkCount data).toNat) (get4 data 0)
                (toInt32 (N - 1 - trunkCount data))
          else
            let ck := if 0 < N - 1 then checkPtrmap g db ck (get4 data 0) ptrmapOverflow2 iPage
              else ck
            checkListLoop isFreeList expected iFirst fuel ck (get4 data 0) (N - 1)

def checkList (isFreeList : Bool) (ck : IntegrityCk) (iPage : ℕ) (N : ℤ) : IntegrityCk :=
  checkListLoop g db isFreeList N iPage (db.nPage + 2) ck iPage N

/-! ### Coverage of one page -/

/-- Whether byte `j` lies in the block at `pc` of `size` bytes. -/
def Covers (j : ℕ) (block : ℕ × ℕ) : Bool := block.1 ≤ j && j < block.1 + block.2

/-- Position and size of cell `i`, as the coverage check takes them. -/
def cellExtent (m : MemPage) (i : ℕ) : ℕ × ℕ :=
  let pc := get2 m.aData (m.cellOffset + i * 2)
  (pc, if pc ≤ g.usableSize - 4 then cellSizePtr g m (fun j => m.aData (pc + j)) else 65536)

/-- A cell that ends on the page. -/
def cellFits (m : MemPage) (i : ℕ) : Bool :=
  (cellExtent g m i).1 + (cellExtent g m i).2 - 1 < g.usableSize

/-- The cells and freeblocks that are counted. -/
def blocks (m : MemPage) : List (ℕ × ℕ) :=
  ((List.range m.nCell).filter (cellFits g m)).map (cellExtent g m) ++
    freeblocks m.aData g.usableSize (get2 m.aData (m.hdrOffset + 1))

/-- The number of cells and freeblocks byte `j` lies in. -/
def coverCount (m : MemPage) (j : ℕ) : ℕ := (blocks g m).countP (Covers j)

/-- The start of the cell content area. -/
def contentOffset (m : MemPage) : ℕ := get2byteNotZero m.aData (m.hdrOffset + 5)

/-- How often `hit[j]` is set or incremented. -/
def hitCount (m : MemPage) (j : ℕ) : ℕ := coverCount g m j + if j < contentOffset m then 1 else 0

/-- What a signed `char` holds after `c` increments. -/
def toChar (c : ℕ) : ℤ := Int.bmod c 256

/-- The loop over `hit[]`: the bytes found zero, and the first byte found above one. -/
def scanHits (m : MemPage) : List ℕ → ℕ → ℕ × Option ℕ
  | [], cnt => (cnt, none)
  | i :: is, cnt =>
    if toChar (hitCount g m i) = 0 then scanHits m is (cnt + 1)
    else if 1 < toChar (hitCount g m i) then (cnt, some i)
    else scanHits m is cnt

/-- The cells that do not end on the page. -/
def checkCellsFit (iPage : ℕ) (m : MemPage) (ck : IntegrityCk) : IntegrityCk :=
  (List.range m.nCell).foldl
    (fun ck i => if cellFits g m i then ck else ck.append (.corruptCell i iPage)) ck

/-- The byte counted more than once, if there is one. -/
def checkUses (iPage : ℕ) (m : MemPage) (ck : IntegrityCk) : IntegrityCk :=
  match (scanHits g m (List.range g.usableSize) 0).2 with
  | some byte => ck.append (.multipleUses byte iPage)
  | none => ck

/-- The bytes not counted at all. -/
def checkFragments (iPage : ℕ) (m : MemPage) (ck : IntegrityCk) : IntegrityCk :=
  let cnt := (scanHits g m (List.range g.usableSize) 0).1
  let reported := (m.aData (m.hdrOffset + 7)).toNat
  if cnt ≠ reported then ck.append (.fragmentation cnt reported iPage) else ck

/-- The last part of `checkTreePage`: the page is covered exactly. -/
def checkCoverage (iPage : ℕ) (m : MemPage) (ck : IntegrityCk) : IntegrityCk :=
  checkFragments g iPage m (checkUses g iPage m (checkCellsFit g iPage m ck))

/-! ### Trees -/

/-- The part of `checkTreePage` that compares the keys of a leaf with those of its parent. The
first component is the parent's `nMinKey` afterwards. -/
def checkKeys (iPage : ℕ) (m : MemPage) (nMinKey nMaxKey : ℤ) (pMin pMax : Option ℤ)
    (ck : IntegrityCk) : ℤ × IntegrityCk :=
  if m.leaf = true ∧ m.intKey = true then
    match pMin, pMax with
    | some lo, none =>
      (lo, if lo < nMaxKey then ck.append (.maxAboveParentMin iPage nMaxKey lo) else ck)
    | some lo, some hi =>
      let ck := if nMinKey ≤ lo then ck.append (.minBelowParentMin iPage nMinKey lo) else ck
      let ck := if hi < nMaxKey then ck.append (.maxAboveParentMax iPage nMaxKey hi) else ck
      (nMaxKey, ck)
    | none, some hi =>
      (0, if nMinKey ≤ hi then ck.append (.minBelowParentMax iPage nMinKey hi) else ck)
    | none, none => (0, ck)
  else (pMin.getD 0, ck)

/-- The variables of the loop over the cells. -/
structure CellLoop where
  ck : IntegrityCk
  depth : ℕ
  nMinKey : ℤ
  nMaxKey : ℤ

/-- The order of the keys of a table page. -/
def checkRowid (iPage i : ℕ) (m : MemPage) (nKey : ℤ) (s : CellLoop) : CellLoop :=
  if m.intKey = true then
    if i = 0 then { s with nMinKey := nKey, nMaxKey := nKey }
    else
      { s with
        ck := if nKey ≤ s.nMaxKey then s.ck.append (.rowidOutOfOrder iPage i nKey s.nMaxKey)
          else s.ck
        nMaxKey := nKey }
  else s

/-- The number of overflow pages, in the 32-bit arithmetic of the source. -/
def overflowPages (info : CellInfo) : ℕ :=
  (info.nPayload - info.nLocal + g.usableSize - 5) % 2 ^ 32 / (g.usableSize - 4)

/-- The overflow pages of cell `i`. -/
def checkOverflow (iPage i : ℕ) (m : MemPage) (ck : IntegrityCk) : IntegrityCk :=
  let info := btreeParseCellPtr g m (cellAt g m i)
  if info.nLocal < info.nPayload ∧ findCell g m i + info.iOverflow ≤ g.usableSize then
    let pgnoOvfl := get4 (cellAt g m i) info.iOverflow
    checkList g db false (checkPtrmap g db ck pgnoOvfl ptrmapOverflow1 iPage) pgnoOvfl
      (overflowPages g info)
  else ck

/-- What `checkTreePage` answers: the depth, the parent's `nMinKey`, the checker. -/
abbrev TreeResult := ℕ × ℤ × IntegrityCk

/-- The keys and the overflow pages of cell `i`. -/
def checkPayload (iPage : ℕ) (m : MemPage) (s : CellLoop) (i : ℕ) : CellLoop :=
  let s := checkRowid iPage i m (btreeParseCellPtr g m (cellAt g m i)).nKey s
  { s with ck := checkOverflow g db iPage i m s.ck }

/-- The left child of cell `i`, `rec` being the recursive call. -/
def checkLeftChild (rec : IntegrityCk → ℕ → Option ℤ → Option ℤ → TreeResult) (iPage : ℕ)
    (m : MemPage) (s : CellLoop) (i : ℕ) : CellLoop :=
  let pgno := get4 (cellAt g m i) 0
  let r := rec (checkPtrmap g db s.ck pgno ptrmapBtree iPage) pgno (some s.nMinKey)
    (if i = 0 then none else some s.nMaxKey)
  { s with
    ck := if 0 < i ∧ r.1 ≠ s.depth then r.2.2.append (.childDepthDiffers iPage i) else r.2.2
    depth := r.1
    nMinKey := r.2.1 }

/-- One cell. -/
def checkCell (rec : IntegrityCk → ℕ → Option ℤ → Option ℤ → TreeResult) (iPage : ℕ) (m : MemPage)
    (s : CellLoop) (i : ℕ) : CellLoop :=
  if m.leaf = true then checkPayload g db iPage m s i
  else checkLeftChild g db rec iPage m (checkPayload g db iPage m s i) i

/-- The right-most child of an interior page. Its depth is not looked at. -/
def checkRightChild (rec : IntegrityCk → ℕ → Option ℤ → Option ℤ → TreeResult) (iPage : ℕ)
    (m : MemPage) (s : CellLoop) : IntegrityCk :=
  if m.leaf = true then s.ck
  else
    let pgno := get4 m.aData (m.hdrOffset + 8)
    (rec (checkPtrmap g db s.ck pgno ptrmapBtree iPage) pgno none
      (if m.nCell = 0 then none else some s.nMaxKey)).2.2

/-- The loop over the cells. -/
def checkCells (rec : IntegrityCk → ℕ → Option ℤ → Option ℤ → TreeResult) (iPage : ℕ)
    (m : MemPage) (ck : IntegrityCk) : CellLoop :=
  (List.range m.nCell).foldl (checkCell g db rec iPage m) ⟨ck, 0, 0, 0⟩

/-- A page once it is decoded. -/
def checkDecoded (rec : IntegrityCk → ℕ → Option ℤ → Option ℤ → TreeResult) (iPage : ℕ)
    (m : MemPage) (pMin pMax : Option ℤ) (ck : IntegrityCk) : TreeResult :=
  let s := checkCells g db rec iPage m ck
  let keys := checkKeys iPage m s.nMinKey s.nMaxKey pMin pMax (checkRightChild g db rec iPage m s)
  (s.depth + 1, keys.1, checkCoverage g iPage m keys.2)

def checkTreePage : ℕ → IntegrityCk → ℕ → Option ℤ → Option ℤ → TreeResult
  | 0, ck, _, pMin, _ => (0, pMin.getD 0, ck.append .outOfFuel)
  | fuel + 1, ck, iPage, pMin, pMax =>
    if iPage = 0 then (0, pMin.getD 0, ck)
    else
      match checkRef db ck iPage with
      | (true, ck) => (0, pMin.getD 0, ck)
      | (false, ck) =>
        if acquire g db.nPage iPage ≠ .ok then (0, pMin.getD 0, ck.append (.unableToGetPage iPage))
        else
          match btreeInitPage g iPage (db.page iPage) with
          | none => (0, pMin.getD 0, ck.append (.initPageError iPage))
          | some m => checkDecoded g db (checkTreePage fuel) iPage m pMin pMax ck

/-! ### The whole file -/

/-- One root of the list. -/
def checkRoot (ck : IntegrityCk) (root : ℕ) : IntegrityCk :=
  if root = 0 then ck
  else
    let ck := if 1 < root then checkPtrmap g db ck root ptrmapRootpage 0 else ck
    (checkTreePage g db (db.nPage + 1) ck root none none).2.2

/-- Whether page `i` was met, as it should be. -/
def checkMet (ck : IntegrityCk) (i : ℕ) : IntegrityCk :=
  let isMap : Bool := g.autoVacuum && isPtrmapPage g i
  if ck.aPgRef i = false ∧ isMap = false then ck.append (.neverUsed i)
  else if ck.aPgRef i = true ∧ isMap = true then ck.append (.ptrmapPageReferenced i)
  else ck

/-- The pages and messages before anything is checked. -/
def initialCk : IntegrityCk where
  aPgRef := fun p => p == pendingBytePage g && decide (p ≤ db.nPage)
  errMsg := []

/-- The check of the free list. -/
def checkFreeList : IntegrityCk :=
  checkList g db true (initialCk g db) (get4 (db.page 1) 32) (toInt32 (get4 (db.page 1) 36))

def sqlite3BtreeIntegrityCheck (aRoot : List ℕ) : IntegrityCk :=
  if db.nPage = 0 then initialCk g db
  else (List.range' 1 db.nPage).foldl (checkMet g)
    (aRoot.foldl (checkRoot g db) (checkFreeList g db))

/-! ### What every part of the checker leaves in place -/

section Ran

variable {db}

/-- The pages not met yet. -/
def unmet (db : Db) (ck : IntegrityCk) : ℕ :=
  ((Finset.Icc 1 db.nPage).filter fun p => ck.aPgRef p = false).card

/-- What holds between the states before and after a part of the checker: pages met stay met,
messages stay, and with more fuel than pages not met the fuel does not run out. -/
structure Ran (db : Db) (fuel : ℕ) (ck ck' : IntegrityCk) : Prop where
  met : ∀ p, ck.aPgRef p = true → ck'.aPgRef p = true
  msgs : ck.errMsg <+: ck'.errMsg
  fuel : unmet db ck < fuel → Msg.outOfFuel ∈ ck'.errMsg → Msg.outOfFuel ∈ ck.errMsg

variable {fuel : ℕ} {a b c ck : IntegrityCk}

/-- A check that does nothing. -/
theorem Ran.refl (ck : IntegrityCk) : Ran db fuel ck ck :=
  ⟨fun _ h => h, List.prefix_rfl, fun _ h => h⟩

/-- Pages are met, and never forgotten. -/
theorem Ran.unmet_le (h : Ran db fuel a b) : unmet db b ≤ unmet db a := by
  refine Finset.card_le_card fun p hp => ?_
  rw [Finset.mem_filter] at hp ⊢
  refine ⟨hp.1, ?_⟩
  by_contra hne
  have := h.met p (by simpa using hne)
  rw [hp.2] at this
  exact Bool.noConfusion this

/-- One check after the other. -/
theorem Ran.trans (h : Ran db fuel a b) (h' : Ran db fuel b c) : Ran db fuel a c :=
  ⟨fun p hp => h'.met p (h.met p hp), h.msgs.trans h'.msgs,
    fun hlt hm => h.fuel hlt (h'.fuel (lt_of_le_of_lt h.unmet_le hlt) hm)⟩

/-- Without messages after a part there were none before it. -/
theorem Ran.clean (h : Ran db fuel a b) (hb : b.errMsg = []) : a.errMsg = [] :=
  List.prefix_nil.mp (hb ▸ h.msgs)

/-- A message is added. -/
theorem ran_append {msg : Msg} (h : msg ≠ .outOfFuel) : Ran db fuel ck (ck.append msg) := by
  refine ⟨fun _ hp => hp, List.prefix_append _ _, fun _ hm => ?_⟩
  rw [IntegrityCk.append, List.mem_append, List.mem_singleton] at hm
  exact hm.resolve_right h.symm

/-- A check under a condition. -/
theorem ran_ite {P : Prop} [Decidable P] (ha : Ran db fuel ck a) (hb : Ran db fuel ck b) :
    Ran db fuel ck (if P then a else b) := by
  split
  · exact ha
  · exact hb

/-- A check in a loop. -/
theorem ran_foldl {α : Type*} {f : IntegrityCk → α → IntegrityCk}
    (h : ∀ ck x, Ran db fuel ck (f ck x)) (xs : List α) (ck : IntegrityCk) :
    Ran db fuel ck (xs.foldl f ck) := by
  induction xs generalizing ck with
  | nil => exact Ran.refl ck
  | cons x xs ih => exact (h ck x).trans (ih _)

/-- A page is marked as met. -/
theorem ran_setPageReferenced (iPg : ℕ) : Ran db fuel ck (ck.setPageReferenced iPg) := by
  refine ⟨fun p hp => ?_, List.prefix_rfl, fun _ h => h⟩
  rcases eq_or_ne p iPg with rfl | hne
  · exact ck.setPageReferenced_self p
  · rwa [ck.setPageReferenced_of_ne hne]

theorem ran_checkRef (iPage : ℕ) : Ran db fuel ck (checkRef db ck iPage).2 := by
  rw [checkRef]
  split_ifs
  · exact Ran.refl ck
  · exact ran_append (by simp)
  · exact ran_append (by simp)
  · exact ran_setPageReferenced iPage

/-- A page that can be used was not met, and is met now. -/
theorem checkRef_eq_false {iPage : ℕ} {ck' : IntegrityCk} (h : checkRef db ck iPage = (false, ck')) :
    iPage ≠ 0 ∧ iPage ≤ db.nPage ∧ ck.aPgRef iPage = false ∧ ck' = ck.setPageReferenced iPage := by
  rw [checkRef] at h
  split_ifs at h with h0 hle href
  · exact absurd (congrArg Prod.fst h) (by simp)
  · exact absurd (congrArg Prod.fst h) (by simp)
  · exact absurd (congrArg Prod.fst h) (by simp)
  · exact ⟨h0, by omega, by simpa using href, (congrArg Prod.snd h).symm⟩

/-- Marking a page that was not met leaves fewer to meet: this is what the recursion goes down on.
-/
theorem unmet_setPageReferenced {iPage : ℕ} (h0 : iPage ≠ 0) (hle : iPage ≤ db.nPage)
    (href : ck.aPgRef iPage = false) : unmet db (ck.setPageReferenced iPage) < unmet db ck := by
  refine Finset.card_lt_card ⟨fun p hp => ?_, fun hsub => ?_⟩
  · rw [Finset.mem_filter] at hp ⊢
    refine ⟨hp.1, ?_⟩
    rcases eq_or_ne p iPage with rfl | hne
    · exact href
    · rw [← ck.setPageReferenced_of_ne hne]
      exact hp.2
  · have hmem : iPage ∈ (Finset.Icc 1 db.nPage).filter fun p => ck.aPgRef p = false := by
      rw [Finset.mem_filter, Finset.mem_Icc]
      exact ⟨⟨by omega, hle⟩, href⟩
    have := (Finset.mem_filter.mp (hsub hmem)).2
    rw [ck.setPageReferenced_self] at this
    exact Bool.noConfusion this

/-- A page more is met, so one unit of fuel less will do. -/
theorem Ran.of_checkRef {iPage : ℕ} (hck : checkRef db ck iPage = (false, b))
    (h : Ran db fuel b c) : Ran db (fuel + 1) ck c := by
  obtain ⟨h0, hle, hfalse, rfl⟩ := checkRef_eq_false hck
  have hset : Ran db (fuel + 1) ck (ck.setPageReferenced iPage) := ran_setPageReferenced iPage
  have hlt := unmet_setPageReferenced h0 hle hfalse
  exact ⟨fun p hp => h.met p (hset.met p hp), hset.msgs.trans h.msgs,
    fun hu hm => hset.fuel hu (h.fuel (by omega) hm)⟩

variable {g}

theorem ran_checkPtrmap (iChild eType iParent : ℕ) :
    Ran db fuel ck (checkPtrmap g db ck iChild eType iParent) := by
  rw [checkPtrmap]
  split
  · split
    · exact ran_append (by simp)
    · exact ran_ite (ran_append (by simp)) (Ran.refl ck)
  · exact Ran.refl ck

theorem ran_checkFreeLeaf (ck : IntegrityCk) (iFreePage : ℕ) :
    Ran db fuel ck (checkFreeLeaf g db ck iFreePage) :=
  (ran_checkPtrmap _ _ _).trans (ran_checkRef _)

theorem ran_checkFreeLeaves (data : ℕ → UInt8) (n : ℕ) :
    Ran db fuel ck (checkFreeLeaves g db data ck n) :=
  ran_foldl ran_checkFreeLeaf _ _

variable (g db) in
/-- The loop over a list of pages. -/
theorem ran_checkListLoop (isFreeList : Bool) (expected : ℤ) (iFirst : ℕ) (fuel : ℕ)
    (ck : IntegrityCk) (iPage : ℕ) (N : ℤ) :
    Ran db fuel ck (checkListLoop g db isFreeList expected iFirst fuel ck iPage N) := by
  induction fuel generalizing ck iPage N with
  | zero => exact ⟨fun _ h => h, List.prefix_append _ _, fun hlt => absurd hlt (Nat.not_lt_zero _)⟩
  | succ fuel ih =>
    rw [checkListLoop]
    refine ran_ite (Ran.refl ck) (ran_ite (ran_append (by simp)) ?_)
    have href : Ran db (fuel + 1) ck (checkRef db ck iPage).2 := ran_checkRef iPage
    rcases hck : checkRef db ck iPage with ⟨_ | _, ck₁⟩
    · dsimp only
      refine ran_ite (Ran.of_checkRef hck (ran_append (by simp)))
        (Ran.of_checkRef hck (ran_ite (ran_ite ?_ ?_) ?_))
      · exact (ran_checkPtrmap _ _ _).trans ((ran_append (by simp)).trans (ih _ _ _))
      · exact (ran_checkPtrmap _ _ _).trans ((ran_checkFreeLeaves _ _).trans (ih _ _ _))
      · exact (ran_ite (ran_checkPtrmap _ _ _) (Ran.refl _)).trans (ih _ _ _)
    · rw [hck] at href
      exact href

theorem ran_checkList (isFreeList : Bool) (ck : IntegrityCk) (iPage : ℕ) (N : ℤ) :
    Ran db fuel ck (checkList g db isFreeList ck iPage N) := by
  have h : Ran db (db.nPage + 2) ck (checkList g db isFreeList ck iPage N) :=
    ran_checkListLoop g db isFreeList N iPage (db.nPage + 2) ck iPage N
  have hle : unmet db ck ≤ db.nPage := by
    refine (Finset.card_filter_le _ _).trans ?_
    rw [Nat.card_Icc]
    omega
  exact ⟨h.met, h.msgs, fun _ => h.fuel (by omega)⟩

theorem ran_checkCellsFit (iPage : ℕ) (m : MemPage) (ck : IntegrityCk) :
    Ran db fuel ck (checkCellsFit g iPage m ck) :=
  ran_foldl (fun ck i => ran_ite (Ran.refl ck)
    (ran_append (show Msg.corruptCell i iPage ≠ .outOfFuel by simp))) (List.range m.nCell) ck

theorem ran_checkUses (iPage : ℕ) (m : MemPage) (ck : IntegrityCk) :
    Ran db fuel ck (checkUses g iPage m ck) := by
  rw [checkUses]
  split
  · exact ran_append (by simp)
  · exact Ran.refl ck

theorem ran_checkFragments (iPage : ℕ) (m : MemPage) (ck : IntegrityCk) :
    Ran db fuel ck (checkFragments g iPage m ck) :=
  ran_ite (ran_append (by simp)) (Ran.refl ck)

theorem ran_checkCoverage (iPage : ℕ) (m : MemPage) (ck : IntegrityCk) :
    Ran db fuel ck (checkCoverage g iPage m ck) :=
  (ran_checkCellsFit iPage m ck).trans
    ((ran_checkUses iPage m _).trans (ran_checkFragments iPage m _))

theorem ran_checkKeys (iPage : ℕ) (m : MemPage) (lo hi : ℤ) (pMin pMax : Option ℤ)
    (ck : IntegrityCk) : Ran db fuel ck (checkKeys iPage m lo hi pMin pMax ck).2 := by
  unfold checkKeys
  split
  · split
    · exact ran_ite (ran_append (by simp)) (Ran.refl ck)
    · exact Ran.trans (ran_ite (ran_append (by simp)) (Ran.refl ck))
        (ran_ite (ran_append (by simp)) (Ran.refl _))
    · exact ran_ite (ran_append (by simp)) (Ran.refl ck)
    · exact Ran.refl ck
  · exact Ran.refl ck

theorem ran_checkRowid (iPage i : ℕ) (m : MemPage) (nKey : ℤ) (s : CellLoop) :
    Ran db fuel s.ck (checkRowid iPage i m nKey s).ck := by
  rw [checkRowid]
  split
  · split
    · exact Ran.refl s.ck
    · exact ran_ite (ran_append (by simp)) (Ran.refl s.ck)
  · exact Ran.refl s.ck

theorem ran_checkOverflow (iPage i : ℕ) (m : MemPage) (ck : IntegrityCk) :
    Ran db fuel ck (checkOverflow g db iPage i m ck) := by
  rw [checkOverflow]
  dsimp only
  exact ran_ite ((ran_checkPtrmap _ _ _).trans (ran_checkList _ _ _ _)) (Ran.refl ck)

theorem ran_checkPayload (iPage : ℕ) (m : MemPage) (s : CellLoop) (i : ℕ) :
    Ran db fuel s.ck (checkPayload g db iPage m s i).ck :=
  (ran_checkRowid iPage i m _ s).trans (ran_checkOverflow iPage i m _)

section Rec

variable {rec : IntegrityCk → ℕ → Option ℤ → Option ℤ → TreeResult}
  (hrec : ∀ ck iPage pMin pMax, Ran db fuel ck (rec ck iPage pMin pMax).2.2)
include hrec

theorem ran_checkLeftChild (iPage : ℕ) (m : MemPage) (s : CellLoop) (i : ℕ) :
    Ran db fuel s.ck (checkLeftChild g db rec iPage m s i).ck :=
  ((ran_checkPtrmap _ _ _).trans (hrec _ _ _ _)).trans
    (ran_ite (ran_append (by simp)) (Ran.refl _))

theorem ran_checkCell (iPage : ℕ) (m : MemPage) (s : CellLoop) (i : ℕ) :
    Ran db fuel s.ck (checkCell g db rec iPage m s i).ck := by
  rw [checkCell]
  split
  · exact ran_checkPayload iPage m s i
  · exact (ran_checkPayload iPage m s i).trans (ran_checkLeftChild hrec iPage m _ i)

theorem ran_foldl_checkCell (iPage : ℕ) (m : MemPage) (is : List ℕ) (s : CellLoop) :
    Ran db fuel s.ck (is.foldl (checkCell g db rec iPage m) s).ck := by
  induction is generalizing s with
  | nil => exact Ran.refl s.ck
  | cons i is ih => exact (ran_checkCell hrec iPage m s i).trans (ih _)

theorem ran_checkRightChild (iPage : ℕ) (m : MemPage) (s : CellLoop) :
    Ran db fuel s.ck (checkRightChild g db rec iPage m s) := by
  rw [checkRightChild]
  split
  · exact Ran.refl _
  · exact (ran_checkPtrmap _ _ _).trans (hrec _ _ _ _)

/-- The checks of a page that could be decoded. -/
theorem ran_checkDecoded (iPage : ℕ) (m : MemPage) (pMin pMax : Option ℤ) (ck : IntegrityCk) :
    Ran db fuel ck (checkDecoded g db rec iPage m pMin pMax ck).2.2 := by
  exact (ran_foldl_checkCell hrec iPage m (List.range m.nCell) ⟨ck, 0, 0, 0⟩).trans
    ((ran_checkRightChild hrec iPage m _).trans
      ((ran_checkKeys iPage m _ _ pMin pMax _).trans (ran_checkCoverage iPage m _)))

end Rec

/-- **The walk over a tree** does not run out of fuel. -/
theorem ran_checkTreePage (fuel : ℕ) (ck : IntegrityCk) (iPage : ℕ) (pMin pMax : Option ℤ) :
    Ran db fuel ck (checkTreePage g db fuel ck iPage pMin pMax).2.2 := by
  induction fuel generalizing ck iPage pMin pMax with
  | zero => exact ⟨fun _ h => h, List.prefix_append _ _, fun hlt => absurd hlt (Nat.not_lt_zero _)⟩
  | succ fuel ih =>
    rw [checkTreePage]
    split
    · exact Ran.refl ck
    have href : Ran db (fuel + 1) ck (checkRef db ck iPage).2 := ran_checkRef iPage
    rcases hck : checkRef db ck iPage with ⟨_ | _, ck₁⟩
    · dsimp only
      split
      · exact Ran.of_checkRef hck (ran_append (by simp))
      split
      · exact Ran.of_checkRef hck (ran_append (by simp))
      · exact Ran.of_checkRef hck (ran_checkDecoded ih _ _ _ _ _)
    · rw [hck] at href
      exact href

theorem ran_checkRoot (root : ℕ) (ck : IntegrityCk) :
    Ran db (db.nPage + 1) ck (checkRoot g db ck root) := by
  rw [checkRoot]
  refine ran_ite (Ran.refl ck) ?_
  dsimp only
  exact (ran_ite (ran_checkPtrmap _ _ _) (Ran.refl ck)).trans (ran_checkTreePage _ _ _ _ _)

theorem ran_checkMet (ck : IntegrityCk) (i : ℕ) : Ran db fuel ck (checkMet g ck i) := by
  rw [checkMet]
  exact ran_ite (ran_append (by simp)) (ran_ite (ran_append (by simp)) (Ran.refl ck))

variable (g db)

/-- **The fuel suffices**: the checker always comes to an end. -/
theorem outOfFuel_notMem (aRoot : List ℕ) :
    Msg.outOfFuel ∉ (sqlite3BtreeIntegrityCheck g db aRoot).errMsg := by
  rw [sqlite3BtreeIntegrityCheck]
  split
  · exact List.not_mem_nil
  have hran : Ran db (db.nPage + 1) (initialCk g db) ((List.range' 1 db.nPage).foldl (checkMet g)
      (aRoot.foldl (checkRoot g db) (checkFreeList g db))) :=
    (ran_checkList true (initialCk g db) (get4 (db.page 1) 32)
      (toInt32 (get4 (db.page 1) 36))).trans
    ((ran_foldl (fun ck root => ran_checkRoot root ck) aRoot _).trans
      (ran_foldl ran_checkMet (List.range' 1 db.nPage) _))
  intro hmem
  refine absurd (hran.fuel ?_ hmem) List.not_mem_nil
  refine Nat.lt_succ_of_le ((Finset.card_filter_le _ _).trans ?_)
  rw [Nat.card_Icc]
  omega

end Ran

end Btree

end SqliteVms

import SqliteVms.Btree.Page
import SqliteVms.Lib.Packing

/-!
# How `balance_nonroot` divides cells between pages

The two loops of `balance_nonroot` that decide which cell goes to which page. The first packs the
pages from the left, and counts two bytes too many for each page that it closes. The second goes back
from the right and moves cells over one at a time.

Indices into `szCell` are checked here: a run that reads outside of the array has no result.

## Main definitions

* `packLeft`, `shiftRight`, `adjust` — the two loops
* `partition` — the new pages
* `LegalPages` — what the pages must be

## Main results

* `partition_spec` — the two loops leave legal pages
-/

namespace SqliteVms

namespace Btree

namespace Partition

open Packing

/-- `NB`, the number of pages that take part in the balance. -/
def NB : ℕ := 3

/-- The entries of `szNew` and `cntNew` for one page. -/
structure NewPage where
  szNew : ℤ
  cntNew : ℕ
  deriving DecidableEq, Repr

/-- The loop that packs the pages from the left, at cell `i`. The pages that are closed stand in
`closed`, the last one first; `none` is `SQLITE_CORRUPT`. -/
def packLeft (leafData : Bool) (usableSpace : ℕ) (szCell : List ℕ) (i subtotal : ℕ)
    (closed : List NewPage) : Option (List NewPage) :=
  if h : i < szCell.length then
    let subtotal := subtotal + (szCell[i] + 2)
    if usableSpace < subtotal then
      let closed' := ⟨((subtotal - szCell[i] : ℕ) : ℤ), i⟩ :: closed
      if hk : NB + 1 < closed'.length then none
      else packLeft leafData usableSpace szCell (if leafData then i else i + 1) 0 closed'
    else packLeft leafData usableSpace szCell (i + 1) subtotal closed
  else some (⟨(subtotal : ℤ), szCell.length⟩ :: closed)
termination_by (NB + 2 - closed.length, szCell.length - i)
decreasing_by
  · simp only [closed', List.length_cons] at hk
    simp only [List.length_cons]
    exact Prod.Lex.left _ _ (by omega)
  · exact Prod.Lex.right _ (by omega)

/-- The condition of the inner loop that moves cells to the right, with the page on the left ending
before cell `cntNew`. The sizes are read only when the first half does not decide. -/
def movesCell (leafData bBulk : Bool) (szCell : List ℕ) (cntNew : ℕ) (szRight szLeft : ℤ) :
    Option Bool :=
  if szRight = 0 then some true
  else if bBulk then some false
  else
    match cntNew with
    | 0 => none
    | r + 1 =>
      match szCell[if leafData then r else r + 1]?, szCell[r]? with
      | some szD, some szR => some (szRight + szD + 2 ≤ szLeft - (szR + 2))
      | _, _ => none

/-- The inner loop: cells go from the left page to the right one. The result has `cntNew` of the left
page and the two sizes. -/
def shiftRight (leafData bBulk : Bool) (szCell : List ℕ) (cntNew : ℕ) (szRight szLeft : ℤ) :
    Option (ℕ × ℤ × ℤ) :=
  match movesCell leafData bBulk szCell cntNew szRight szLeft with
  | none => none
  | some false => some (cntNew, szRight, szLeft)
  | some true =>
    match cntNew with
    | 0 => none
    | r + 1 =>
      match szCell[if leafData then r else r + 1]?, szCell[r]? with
      | some szD, some szR =>
        shiftRight leafData bBulk szCell r (szRight + (szD + 2)) (szLeft - (szR + 2))
      | _, _ => none

/-- The outer loop, over the pages from the right. -/
def adjust (leafData bBulk : Bool) (szCell : List ℕ) : List NewPage → Option (List NewPage)
  | [] => some []
  | [page] => some [page]
  | right :: left :: rest =>
    match shiftRight leafData bBulk szCell left.cntNew right.szNew left.szNew with
    | none => none
    | some (cntNew, szRight, szLeft) =>
      match adjust leafData bBulk szCell (⟨szLeft, cntNew⟩ :: rest) with
      | none => none
      | some pages => some (⟨szRight, right.cntNew⟩ :: pages)
termination_by pages => pages.length

/-- `cntNew`, from the left. -/
def partition (leafData bBulk : Bool) (usableSpace : ℕ) (szCell : List ℕ) : Option (List ℕ) :=
  match packLeft leafData usableSpace szCell 0 0 [] with
  | none => none
  | some pages =>
    match adjust leafData bBulk szCell pages with
    | none => none
    | some pages => some (pages.map NewPage.cntNew).reverse

/-! ### The first loop -/

/-- Zero, or one when the cell between two pages is a divider. -/
def gapOf (leafData : Bool) : ℕ := if leafData then 0 else 1

/-- The bytes that the cells take on a page: each with its pointer. -/
def cellBytes (szCell : List ℕ) : List ℕ := szCell.map (· + 2)

@[simp] theorem length_cellBytes (szCell : List ℕ) : (cellBytes szCell).length = szCell.length :=
  List.length_map _

section Loops

variable {leafData bBulk : Bool} {usableSpace maxCell : ℕ} {szCell : List ℕ}
  {closed rest : List NewPage} {right left : NewPage}

theorem weight_cellBytes_succ {i : ℕ} (h : i < szCell.length) :
    weight (cellBytes szCell) (i + 1) = weight (cellBytes szCell) i + (szCell[i] + 2) := by
  rw [weight_succ (by rwa [length_cellBytes])]
  simp [cellBytes]

/-- The first cell of the page that comes after the ones in the list. -/
def startOf (leafData : Bool) : List NewPage → ℕ
  | [] => 0
  | page :: _ => page.cntNew + gapOf leafData

/-- The pages that the first loop has closed. What stands in `szNew` is two bytes too many. -/
inductive Closed (leafData : Bool) (usableSpace : ℕ) (szCell : List ℕ) : List NewPage → Prop
  | nil : Closed leafData usableSpace szCell []
  | cons {rest : List NewPage} {page : NewPage} : Closed leafData usableSpace szCell rest →
      startOf leafData rest < page.cntNew → page.cntNew < szCell.length →
      weight (cellBytes szCell) page.cntNew
        ≤ weight (cellBytes szCell) (startOf leafData rest) + usableSpace →
      weight (cellBytes szCell) (startOf leafData rest) + usableSpace
        < weight (cellBytes szCell) (page.cntNew + 1) →
      page.szNew = weight (cellBytes szCell) page.cntNew
        - weight (cellBytes szCell) (startOf leafData rest) + 2 →
      Closed leafData usableSpace szCell (page :: rest)

theorem Closed.packed (h : Closed leafData usableSpace szCell closed) :
    Packed (cellBytes szCell) usableSpace (gapOf leafData) (closed.map NewPage.cntNew)
      (startOf leafData closed) := by
  induction h with
  | nil => exact Packed.nil
  | cons _ hlt hlen hfits hover _ ih =>
    exact ih.close hlt.le (by rwa [length_cellBytes]) hfits hover

theorem Closed.startOf_le (h : Closed leafData usableSpace szCell closed) :
    startOf leafData closed ≤ szCell.length := by
  cases h with
  | nil => exact Nat.zero_le _
  | cons _ _ hlen _ _ _ =>
    rw [startOf, gapOf]
    split <;> omega

/-- Cell `i` closes a page that it does not fit on. -/
theorem Closed.close {i subtotal : ℕ} (hclosed : Closed leafData usableSpace szCell closed)
    (hi : i < szCell.length) (hcell : szCell[i] + 2 ≤ usableSpace)
    (hstart : startOf leafData closed ≤ i)
    (hsub : weight (cellBytes szCell) (startOf leafData closed) + subtotal
      = weight (cellBytes szCell) i) (hfits : subtotal ≤ usableSpace)
    (hover : usableSpace < subtotal + (szCell[i] + 2)) :
    Closed leafData usableSpace szCell
      (⟨((subtotal + (szCell[i] + 2) - szCell[i] : ℕ) : ℤ), i⟩ :: closed) := by
  have hsucc := weight_cellBytes_succ hi
  refine Closed.cons hclosed ?_ hi (by dsimp only; omega) (by dsimp only; omega) ?_
  · dsimp only
    rcases Nat.lt_or_eq_of_le hstart with hlt | heq
    · exact hlt
    · rw [heq] at hsub
      omega
  · dsimp only
    omega

/-- **The first loop** ends with every page but the last one closed, when no more pages than there may
be can be closed. -/
theorem packLeft_spec (hcells : ∀ s ∈ szCell, s + 2 ≤ usableSpace)
    (hcount : ∀ closed, Closed leafData usableSpace szCell closed → closed.length ≤ NB + 1)
    {i subtotal : ℕ} (hclosed : Closed leafData usableSpace szCell closed)
    (hstart : startOf leafData closed ≤ i) (hi : i ≤ szCell.length)
    (hsub : weight (cellBytes szCell) (startOf leafData closed) + subtotal
      = weight (cellBytes szCell) i) (hfits : subtotal ≤ usableSpace) :
    ∃ last rest, packLeft leafData usableSpace szCell i subtotal closed = some (last :: rest) ∧
      Closed leafData usableSpace szCell rest ∧ last.cntNew = szCell.length ∧
      last.szNew = weight (cellBytes szCell) szCell.length
        - weight (cellBytes szCell) (startOf leafData rest) ∧
      weight (cellBytes szCell) szCell.length
        ≤ weight (cellBytes szCell) (startOf leafData rest) + usableSpace := by
  fun_induction packLeft leafData usableSpace szCell i subtotal closed with
  | case1 i sub closed h subtotal hover closed' hk =>
    have hcell := hcells _ (List.getElem_mem h)
    exact absurd (hcount closed' (hclosed.close h hcell hstart hsub hfits hover)) (by omega)
  | case2 i sub closed h subtotal hover closed' hk ih =>
    have hcell := hcells _ (List.getElem_mem h)
    have hnext : startOf leafData closed' = if leafData then i else i + 1 := by
      show i + gapOf leafData = _
      rw [gapOf]
      split <;> rfl
    simp only [dite_eq_ite] at ih
    refine ih (hclosed.close h hcell hstart hsub hfits hover) hnext.le ?_ ?_ (Nat.zero_le _)
    · split <;> omega
    · rw [hnext, Nat.add_zero]
  | case3 i sub closed h subtotal hroom ih =>
    refine ih hclosed (by omega) h ?_ (by omega)
    rw [weight_cellBytes_succ h, ← hsub, Nat.add_assoc]
  | case4 i sub closed h =>
    obtain rfl : i = szCell.length := by omega
    refine ⟨_, closed, rfl, hclosed, rfl, ?_, by omega⟩
    dsimp only
    omega

/-! ### The second loop -/

/-- A page holds a cell at least and no more than fits. -/
structure PageOk (leafData : Bool) (usableSpace : ℕ) (szCell : List ℕ) (start cntNew : ℕ) : Prop where
  nonempty : start < cntNew
  fits : weight (cellBytes szCell) cntNew ≤ weight (cellBytes szCell) start + usableSpace

/-- The first cell that goes over: the last one of the page on the left, or the divider behind it. -/
theorem moved_index (r : ℕ) : (if leafData then r else r + 1) = r + gapOf leafData := by
  rw [gapOf]
  split <;> rfl

/-- Two neighbouring pages in the inner loop: the left one is `start ≤ i < cntNew` and the right one
ends before `stop`. The right page may be empty only while the left one has two cells. -/
structure Neighbours (leafData : Bool) (usableSpace : ℕ) (szCell : List ℕ)
    (start cntNew stop : ℕ) (szRight szLeft : ℤ) : Prop where
  le : cntNew + gapOf leafData ≤ stop
  left : PageOk leafData usableSpace szCell start cntNew
  szLeft_eq : szLeft = weight (cellBytes szCell) cntNew - weight (cellBytes szCell) start + 2
  right : weight (cellBytes szCell) stop
    ≤ weight (cellBytes szCell) (cntNew + gapOf leafData) + usableSpace
  szRight_eq : (szRight = weight (cellBytes szCell) stop
      - weight (cellBytes szCell) (cntNew + gapOf leafData)) ∨
    cntNew + gapOf leafData < stop ∧ szRight = weight (cellBytes szCell) stop
      - weight (cellBytes szCell) (cntNew + gapOf leafData) + 2
  two : szRight = 0 → start + 1 < cntNew

section Neighbours

variable {start cntNew stop r : ℕ} {szRight szLeft : ℤ}

theorem Neighbours.nonneg
    (h : Neighbours leafData usableSpace szCell start cntNew stop szRight szLeft) : 0 ≤ szRight := by
  have hmono := weight_mono (w := cellBytes szCell) h.le
  have := h.szRight_eq
  omega

/-- A right page with something on it is a page. -/
theorem Neighbours.right_ok
    (h : Neighbours leafData usableSpace szCell start cntNew stop szRight szLeft)
    (hne : szRight ≠ 0) : PageOk leafData usableSpace szCell (cntNew + gapOf leafData) stop := by
  refine ⟨?_, h.right⟩
  rcases Nat.lt_or_eq_of_le h.le with hlt | heq
  · exact hlt
  · have := h.szRight_eq
    rw [heq] at this
    omega

variable (hcells : ∀ s ∈ szCell, 4 ≤ s ∧ s + 2 ≤ usableSpace) (hstop : stop ≤ szCell.length)

include hcells hstop

/-- The cells that a move looks at. -/
theorem Neighbours.moved
    (h : Neighbours leafData usableSpace szCell start (r + 1) stop szRight szLeft) :
    ∃ szD szR, szCell[r + gapOf leafData]? = some szD ∧ szCell[r]? = some szR ∧ 4 ≤ szD ∧ 4 ≤ szR ∧
      szD + 2 ≤ usableSpace ∧
      weight (cellBytes szCell) (r + 1 + gapOf leafData)
        = weight (cellBytes szCell) (r + gapOf leafData) + (szD + 2) ∧
      weight (cellBytes szCell) (r + 1) = weight (cellBytes szCell) r + (szR + 2) := by
  have hle := h.le
  have hr : r < szCell.length := by omega
  have hd : r + gapOf leafData < szCell.length := by omega
  have hcellR := hcells _ (List.getElem_mem hr)
  have hcellD := hcells _ (List.getElem_mem hd)
  have hweightD := weight_cellBytes_succ hd
  rw [Nat.add_right_comm] at hweightD
  exact ⟨_, _, List.getElem?_eq_getElem hd, List.getElem?_eq_getElem hr, hcellD.1, hcellR.1,
    hcellD.2, hweightD, weight_cellBytes_succ hr⟩

/-- A move to an empty page, or to one that stays the smaller one. -/
theorem Neighbours.move {szD szR : ℕ}
    (h : Neighbours leafData usableSpace szCell start (r + 1) stop szRight szLeft)
    (hD : szCell[r + gapOf leafData]? = some szD) (hR : szCell[r]? = some szR)
    (hgo : szRight = 0 ∨ szRight + szD + 2 ≤ szLeft - (szR + 2)) :
    Neighbours leafData usableSpace szCell start r stop (szRight + (szD + 2))
      (szLeft - (szR + 2)) := by
  obtain ⟨szD', szR', hD', hR', hfourD, hfourR, hfitD, hweightD, hweightR⟩ := h.moved hcells hstop
  rw [hD] at hD'
  rw [hR] at hR'
  obtain rfl := Option.some.inj hD'
  obtain rfl := Option.some.inj hR'
  have hle := h.le
  have hnonneg := h.nonneg
  have hstart := h.left.nonempty
  have hfits := h.left.fits
  have hszLeft := h.szLeft_eq
  have hszRight := h.szRight_eq
  have htwo := h.two
  have hmono := weight_mono (w := cellBytes szCell) hle
  have hsame : start = r → weight (cellBytes szCell) start = weight (cellBytes szCell) r :=
    fun heq => by rw [heq]
  constructor
  case le => omega
  case left => exact ⟨by omega, by omega⟩
  case szLeft_eq => omega
  case right => omega
  case szRight_eq => omega
  case two => intro hzero; omega

variable (bBulk) in
/-- **The inner loop**: cells go to the page on the right until it is not empty and not much smaller;
the page on the left keeps one at least, and neither is too full. -/
theorem shiftRight_spec
    (h : Neighbours leafData usableSpace szCell start cntNew stop szRight szLeft) :
    ∃ cntNew' szRight' szLeft',
      shiftRight leafData bBulk szCell cntNew szRight szLeft = some (cntNew', szRight', szLeft') ∧
      Neighbours leafData usableSpace szCell start cntNew' stop szRight' szLeft' ∧ szRight' ≠ 0 := by
  induction cntNew generalizing szRight szLeft with
  | zero => exact absurd h.left.nonempty (Nat.not_lt_zero _)
  | succ r ih =>
    obtain ⟨szD, szR, hD, hR, -⟩ := h.moved hcells hstop
    rw [shiftRight, movesCell]
    simp only [moved_index, hD, hR]
    by_cases hzero : szRight = 0
    · rw [if_pos hzero]
      exact ih (h.move hcells hstop hD hR (Or.inl hzero))
    rw [if_neg hzero]
    by_cases hbulk : bBulk = true
    · rw [if_pos hbulk]
      exact ⟨_, _, _, rfl, h, hzero⟩
    rw [if_neg hbulk]
    by_cases hgo : szRight + szD + 2 ≤ szLeft - (szR + 2)
    · simp only [hgo, decide_true]
      exact ih (h.move hcells hstop hD hR (Or.inr hgo))
    · simp only [hgo, decide_false]
      exact ⟨_, _, _, rfl, h, hzero⟩

end Neighbours

/-- Every page of the list, the last one first, is one. -/
def PagesOk (leafData : Bool) (usableSpace : ℕ) (szCell : List ℕ) : List NewPage → Prop
  | [] => True
  | page :: rest => PageOk leafData usableSpace szCell (startOf leafData rest) page.cntNew ∧
    PagesOk leafData usableSpace szCell rest

/-- The page at the right of the ones that the first loop has closed. -/
structure RightPage (leafData : Bool) (usableSpace : ℕ) (szCell : List ℕ) (rest : List NewPage)
    (page : NewPage) : Prop where
  le : startOf leafData rest ≤ page.cntNew
  le_length : page.cntNew ≤ szCell.length
  fits : weight (cellBytes szCell) page.cntNew
    ≤ weight (cellBytes szCell) (startOf leafData rest) + usableSpace
  szNew_eq : (page.szNew = weight (cellBytes szCell) page.cntNew
      - weight (cellBytes szCell) (startOf leafData rest)) ∨
    startOf leafData rest < page.cntNew ∧ page.szNew = weight (cellBytes szCell) page.cntNew
      - weight (cellBytes szCell) (startOf leafData rest) + 2
  two : page.szNew = 0 → ∃ left rest', rest = left :: rest' ∧ startOf leafData rest' + 1 < left.cntNew

variable (bBulk) in
/-- **The outer loop** leaves pages that are all legal. -/
theorem adjust_spec (hcells : ∀ s ∈ szCell, 4 ≤ s ∧ s + 2 ≤ usableSpace) {page : NewPage}
    (hclosed : Closed leafData usableSpace szCell rest)
    (hpage : RightPage leafData usableSpace szCell rest page) :
    ∃ head tail, adjust leafData bBulk szCell (page :: rest) = some (head :: tail) ∧
      head.cntNew = page.cntNew ∧ tail.length = rest.length ∧
      PagesOk leafData usableSpace szCell (head :: tail) := by
  induction rest generalizing page with
  | nil =>
    refine ⟨page, [], by rw [adjust], rfl, rfl, ⟨⟨?_, hpage.fits⟩, trivial⟩⟩
    have hne : page.szNew ≠ 0 := fun hzero => by
      obtain ⟨left, rest', hnil, -⟩ := hpage.two hzero
      exact absurd hnil (by simp)
    rcases Nat.eq_zero_or_pos page.cntNew with hzero | hpos
    · have := hpage.szNew_eq
      rw [hzero] at this
      simp only [startOf, weight_zero] at this
      omega
    · exact hpos
  | cons left rest ih =>
    obtain ⟨szRight, cntRight⟩ := page
    cases hclosed with
    | cons hrest hlt hlen hfits hover hsz =>
      have hneighbours : Neighbours leafData usableSpace szCell (startOf leafData rest) left.cntNew
          cntRight szRight left.szNew := by
        constructor
        case le => exact hpage.le
        case left => exact ⟨hlt, hfits⟩
        case szLeft_eq => exact hsz
        case right => exact hpage.fits
        case szRight_eq => exact hpage.szNew_eq
        case two =>
          intro hzero
          obtain ⟨_, _, heq, htwo⟩ := hpage.two hzero
          obtain ⟨rfl, rfl⟩ := List.cons.inj heq
          exact htwo
      obtain ⟨cntLeft, szRight', szLeft, hshift, hafter, hne⟩ :=
        shiftRight_spec bBulk hcells hpage.le_length hneighbours
      have hleft : RightPage leafData usableSpace szCell rest ⟨szLeft, cntLeft⟩ := by
        have hmono := weight_mono (w := cellBytes szCell) hafter.left.nonempty.le
        have hszLeft := hafter.szLeft_eq
        constructor
        case le => exact hafter.left.nonempty.le
        case le_length => exact (Nat.le_of_add_right_le hafter.le).trans hpage.le_length
        case fits => exact hafter.left.fits
        case szNew_eq => exact Or.inr ⟨hafter.left.nonempty, hszLeft⟩
        case two =>
          intro hzero
          dsimp only at hzero
          omega
      obtain ⟨head, tail, hadjust, hhead, hlength, hok⟩ := ih hrest hleft
      refine ⟨⟨szRight', cntRight⟩, head :: tail, ?_, rfl, by simp [hlength], ?_, hok⟩
      · rw [adjust, hshift]
        dsimp only
        rw [hadjust]
      · have := hafter.right_ok hne
        rw [startOf, hhead]
        exact this

/-- No cell is left out at the end when each cell takes room. -/
theorem startOf_eq_length (hclosed : Closed leafData usableSpace szCell rest)
    (hzero : (weight (cellBytes szCell) szCell.length : ℤ)
      - weight (cellBytes szCell) (startOf leafData rest) = 0) :
    startOf leafData rest = szCell.length := by
  by_contra hne
  have hlt := lt_of_le_of_ne hclosed.startOf_le hne
  have hmono := weight_mono (w := cellBytes szCell) (show startOf leafData rest + 1 ≤ _ from hlt)
  rw [weight_cellBytes_succ hlt] at hmono
  omega

variable (bBulk) in
/-- **The two loops** together, for cells of which there is one at least. Unless the siblings are leaves
with data any two cells fit on a page. -/
theorem partition_spec {most : ℕ} (hmost : most ≤ NB + 1)
    (hcells : ∀ s ∈ szCell, 4 ≤ s ∧ s + 2 ≤ usableSpace) (hne : szCell ≠ [])
    (hcount : ∀ closed, Closed leafData usableSpace szCell closed → closed.length ≤ most)
    (hpair : leafData = false → ∀ s ∈ szCell, ∀ t ∈ szCell, s + 2 + (t + 2) ≤ usableSpace) :
    ∃ page rest, partition leafData bBulk usableSpace szCell
        = some (((page :: rest).map NewPage.cntNew).reverse) ∧
      page.cntNew = szCell.length ∧ rest.length ≤ most ∧
      PagesOk leafData usableSpace szCell (page :: rest) := by
  obtain ⟨last, closed, hpack, hclosed, hcnt, hsz, hfits⟩ :=
    packLeft_spec (i := 0) (fun s hs => (hcells s hs).2)
      (fun closed hclosed => (hcount closed hclosed).trans hmost) Closed.nil le_rfl (Nat.zero_le _)
      (by simp [startOf]) (Nat.zero_le usableSpace)
  have hlast : RightPage leafData usableSpace szCell closed last := by
    constructor
    case le => exact hcnt ▸ hclosed.startOf_le
    case le_length => exact hcnt.le
    case fits => rw [hcnt]; exact hfits
    case szNew_eq => rw [hcnt]; exact Or.inl hsz
    case two =>
      intro hzero
      have hstart := startOf_eq_length hclosed (hsz ▸ hzero)
      cases hclosed with
      | nil => exact absurd (List.length_eq_zero_iff.mp hstart.symm) hne
      | @cons rest left hrest hlt hlen hfull hover hszLeft =>
        refine ⟨left, rest, rfl, ?_⟩
        rw [startOf, gapOf] at hstart
        have hdata : leafData = false := by
          cases leafData
          · rfl
          · simp only [if_true] at hstart
            omega
        -- a page is not closed with a single cell, as two cells fit
        by_contra hsingle
        have hone : left.cntNew = startOf leafData rest + 1 := by omega
        have hfirst := weight_cellBytes_succ (show startOf leafData rest < szCell.length by omega)
        have hsecond := weight_cellBytes_succ hlen
        have htwo := hpair hdata _ (List.getElem_mem (show startOf leafData rest < szCell.length by
          omega)) _ (List.getElem_mem hlen)
        rw [hsecond] at hover
        rw [← hone] at hfirst
        omega
  obtain ⟨head, tail, hadjust, hhead, hlength, hok⟩ :=
    adjust_spec bBulk hcells hclosed hlast
  refine ⟨head, tail, ?_, hhead.trans hcnt, ?_, hok⟩
  · rw [partition, hpack]
    dsimp only
    rw [hadjust]
  · rw [hlength]
    exact hcount _ hclosed

end Loops

/-! ### Legal pages -/

/-- The index of the first cell of page `i`. -/
def firstCell (leafData : Bool) (cntNew : List ℕ) (i : ℕ) : ℕ :=
  if i = 0 then 0 else cntNew.getD (i - 1) 0 + gapOf leafData

/-- The bytes of the cells from `first` up to `last`, each with its pointer. -/
def pageBytes (szCell : List ℕ) (first last : ℕ) : ℕ :=
  (((szCell.take last).drop first).map (· + 2)).sum

/-- What the new pages have to be. -/
structure LegalPages (leafData : Bool) (usableSpace : ℕ) (szCell cntNew : List ℕ) : Prop where
  length_le : cntNew.length ≤ NB + 2
  last : cntNew.getLast? = some szCell.length
  increasing : cntNew.Pairwise (· < ·)
  nonempty : ∀ i (h : i < cntNew.length),
    firstCell leafData cntNew i < cntNew[i] ∨ szCell = [] ∧ cntNew = [0]
  fits : ∀ i (h : i < cntNew.length),
    pageBytes szCell (firstCell leafData cntNew i) cntNew[i] ≤ usableSpace

section Legal

variable {leafData bBulk : Bool} {usableSpace : ℕ} {szCell : List ℕ} {page : NewPage}
  {pages rest : List NewPage}

theorem pageBytes_eq {s : List ℕ} {first last : ℕ} (h : first ≤ last) :
    weight (cellBytes s) first + pageBytes s first last = weight (cellBytes s) last := by
  obtain ⟨k, rfl⟩ := Nat.exists_eq_add_of_le h
  rw [pageBytes, weight, weight, cellBytes, List.drop_take, Nat.add_sub_cancel_left,
    List.take_add, List.sum_append, List.map_take, List.map_drop]

theorem PagesOk.pairwise (h : PagesOk leafData usableSpace szCell pages) :
    (pages.map NewPage.cntNew).Pairwise (· > ·) := by
  induction pages with
  | nil => exact List.Pairwise.nil
  | cons page rest ih =>
    have hrest := ih h.2
    rw [List.map_cons, List.pairwise_cons]
    refine ⟨fun x hx => ?_, hrest⟩
    have hlt := h.1.nonempty
    cases rest with
    | nil => exact absurd hx (by simp)
    | cons left rest =>
      rw [startOf] at hlt
      rw [List.map_cons, List.pairwise_cons] at hrest
      rw [List.map_cons, List.mem_cons] at hx
      rcases hx with rfl | hx
      · omega
      · have := hrest.1 x hx
        omega

/-- Page by page, from the left. -/
theorem PagesOk.page_ok (h : PagesOk leafData usableSpace szCell pages) (i : ℕ)
    (hi : i < (pages.map NewPage.cntNew).reverse.length) :
    PageOk leafData usableSpace szCell (firstCell leafData (pages.map NewPage.cntNew).reverse i)
      (pages.map NewPage.cntNew).reverse[i] := by
  induction pages with
  | nil => exact absurd hi (by simp)
  | cons page rest ih =>
    simp only [List.map_cons, List.reverse_cons] at hi ⊢
    rcases Nat.lt_or_ge i (rest.map NewPage.cntNew).reverse.length with hlt | hge
    · have hfirst : firstCell leafData ((rest.map NewPage.cntNew).reverse ++ [page.cntNew]) i
          = firstCell leafData (rest.map NewPage.cntNew).reverse i := by
        rw [firstCell, firstCell]
        split
        · rfl
        · rw [List.getD_append _ _ _ _ (by omega)]
      rw [hfirst, List.getElem_append_left hlt]
      exact ih h.2 hlt
    · rw [List.length_append, List.length_singleton] at hi
      have heq : i = (rest.map NewPage.cntNew).reverse.length := by omega
      have hfirst : firstCell leafData ((rest.map NewPage.cntNew).reverse ++ [page.cntNew]) i
          = startOf leafData rest := by
        cases rest with
        | nil =>
          simp only [List.map_nil, List.reverse_nil, List.length_nil] at heq
          rw [heq]
          rfl
        | cons left rest =>
          simp only [List.length_reverse, List.length_map, List.length_cons] at heq
          rw [firstCell, if_neg (by omega), startOf, List.getD_append _ _ _ _ (by simp; omega)]
          simp [heq]
      rw [hfirst, List.getElem_append_right hge]
      simp only [heq, Nat.sub_self, List.getElem_cons_zero]
      exact h.1

/-- The pages that the loops leave are legal. -/
theorem PagesOk.legal (h : PagesOk leafData usableSpace szCell (page :: rest))
    (hcnt : page.cntNew = szCell.length) (hlength : rest.length ≤ NB + 1) :
    LegalPages leafData usableSpace szCell ((page :: rest).map NewPage.cntNew).reverse := by
  constructor
  case length_le => simpa using hlength
  case last => simp [hcnt]
  case increasing => exact List.pairwise_reverse.mpr h.pairwise
  case nonempty =>
    intro i hi
    exact Or.inl (h.page_ok i hi).nonempty
  case fits =>
    intro i hi
    have hpage := h.page_ok i hi
    have heq := pageBytes_eq (s := szCell) hpage.nonempty.le
    have hfits := hpage.fits
    omega

/-- An empty tree is one empty page. -/
theorem partition_nil : partition leafData bBulk usableSpace [] = some [0] := by
  rw [partition, packLeft, dif_neg (by simp)]
  simp [adjust]

theorem legalPages_nil : LegalPages leafData usableSpace [] [0] := by
  constructor
  case length_le => decide
  case last => rfl
  case increasing => simp
  case nonempty =>
    intro i hi
    exact Or.inr ⟨rfl, rfl⟩
  case fits =>
    intro i hi
    simp [pageBytes]

end Legal

end Partition

end Btree

end SqliteVms

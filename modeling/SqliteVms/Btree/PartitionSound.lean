import Mathlib.Algebra.Order.BigOperators.Group.List
import SqliteVms.Btree.Partition

/-!
# When the partition is legal

The cells that `balance_nonroot` brings together: those of up to three pages that fit, one group of
cells that overflow one of them, and the dividers. The pages that the loops make are legal whenever a
cell fits an empty page. The dividers that they leave share a buffer of one page. There are at most
four of them; in an index there are at most three as long as at most three cells overflow a page, and
the cells that overflow an interior page are the dividers of the balance a level below.

## Main definitions

* `Kind`, `Siblings` — the cells that come together
* `Siblings.Legal` — the pages and the dividers are as they have to be

## Main results

* `partition_legal` — the partition is legal
* `partition_not_legal` — cells with which it is not
-/

namespace SqliteVms

namespace Btree

namespace Partition

open Packing

/-- The pages that are balanced: leaves of a table, leaves of an index, or interior pages. -/
inductive Kind
  | leafData
  | indexLeaf
  | interior
  deriving DecidableEq, Repr

/-- `leafData`. -/
def Kind.isLeafData (kind : Kind) : Bool := kind == .leafData

def Kind.leafCorrection : Kind → ℕ
  | .interior => 0
  | _ => 4

def Kind.usableSpace (g : Geom) (kind : Kind) : ℕ := g.usableSize - 12 + kind.leafCorrection

/-- The bound on the size of a cell. -/
def Kind.maxCell (g : Geom) : Kind → ℕ
  | .leafData => g.usableSize - 8
  | _ => g.maxLocal + 23

/-- The cells that can overflow a page: one that is inserted into a leaf, or the dividers that the
balance of a level below inserts into an interior page. -/
def Kind.maxOvfl : Kind → ℕ
  | .interior => NB + 1
  | _ => 1

/-- The loop that fills `szCell`, over the pages and the dividers between them. -/
def gather (leafData : Bool) (divs : ℕ → ℕ) : List (List ℕ) → ℕ → List ℕ
  | [], _ => []
  | [page], _ => page
  | page :: next :: pages, i =>
    page ++ (if leafData then [] else [divs i]) ++ gather leafData divs (next :: pages) (i + 1)

/-- The sizes of the cells of up to three pages that fit, of the cells that overflow one of them, and
of the dividers, all of at most `b` bytes. `keyLen` is the length of the key of a cell as a varint,
`reparsed` the size of a divider that was rounded up to four bytes on a leaf. -/
structure Siblings (g : Geom) (kind : Kind) (b : ℕ) where
  pages : List (List ℕ)
  divs : ℕ → ℕ
  ovflPage : ℕ
  ovflIdx : ℕ
  ovfl : List ℕ
  keyLen : ℕ → ℕ
  reparsed : ℕ → ℕ
  pages_length_le : pages.length ≤ NB
  fits : ∀ page ∈ pages, (cellBytes page).sum ≤ kind.usableSpace g
  page_cell : ∀ page ∈ pages, ∀ s ∈ page, 4 ≤ s ∧ s ≤ b
  ovfl_cell : ∀ s ∈ ovfl, 4 ≤ s ∧ s ≤ b
  div_cell : ∀ i, 4 ≤ divs i ∧ divs i ≤ b
  ovfl_length_le : ovfl.length ≤ kind.maxOvfl
  keyLen_le : ∀ j, keyLen j ≤ 9
  reparsed_le : ∀ j, reparsed j ≤ 8

variable {g : Geom} {kind : Kind} {b : ℕ}

/-- The pages with the cells that overflow. -/
def Siblings.withOvfl (x : Siblings g kind b) : List (List ℕ) :=
  x.pages.modify x.ovflPage fun page => page.take x.ovflIdx ++ (x.ovfl ++ page.drop x.ovflIdx)

def Siblings.szCell (x : Siblings g kind b) : List ℕ :=
  gather kind.isLeafData x.divs x.withOvfl 0

/-- The size of the divider that is made of cell `j`. -/
def Siblings.dividerSize (x : Siblings g kind b) (j : ℕ) : ℕ :=
  match kind with
  | .leafData => 4 + x.keyLen (j - 1)
  | .indexLeaf => if x.szCell.getD j 0 = 4 then x.reparsed j else x.szCell.getD j 0 + 4
  | .interior => x.szCell.getD j 0

/-- The bytes of the dividers in `aOvflSpace`. -/
def Siblings.dividerBytes (x : Siblings g kind b) (cntNew : List ℕ) : ℕ :=
  ((cntNew.filter (· < x.szCell.length)).map x.dividerSize).sum

/-- The loops end with legal pages and dividers that fit the buffer. -/
def Siblings.Legal (x : Siblings g kind b) (bBulk : Bool) (cntNew : List ℕ) : Prop :=
  partition kind.isLeafData bBulk (kind.usableSpace g) x.szCell = some cntNew ∧
    LegalPages kind.isLeafData (kind.usableSpace g) x.szCell cntNew ∧
    x.dividerBytes cntNew ≤ g.pageSize

/-! ### The cells -/

theorem mem_gather {leafData : Bool} {divs : ℕ → ℕ} {pages : List (List ℕ)} {i s : ℕ}
    (h : s ∈ gather leafData divs pages i) : (∃ page ∈ pages, s ∈ page) ∨ ∃ i, s = divs i := by
  fun_induction gather leafData divs pages i with
  | case1 => exact absurd h (by simp)
  | case2 page i => exact Or.inl ⟨page, List.mem_singleton_self _, h⟩
  | case3 page next pages i ih =>
    rw [List.mem_append, List.mem_append] at h
    rcases h with (h | h) | h
    · exact Or.inl ⟨page, List.mem_cons_self, h⟩
    · split at h
      · exact absurd h (by simp)
      · exact Or.inr ⟨i, List.mem_singleton.mp h⟩
    · rcases ih h with ⟨page', hpage', hs⟩ | hdiv
      · exact Or.inl ⟨page', List.mem_cons_of_mem _ hpage', hs⟩
      · exact Or.inr hdiv

theorem mem_modify {f : List ℕ → List ℕ} {pages : List (List ℕ)} {page : List ℕ} {k : ℕ}
    (h : page ∈ pages.modify k f) : page ∈ pages ∨ ∃ page' ∈ pages, page = f page' := by
  obtain ⟨i, hi, rfl⟩ := List.mem_iff_getElem.mp h
  rw [List.length_modify] at hi
  rw [List.getElem_modify]
  split
  · exact Or.inr ⟨_, List.getElem_mem hi, rfl⟩
  · exact Or.inl (List.getElem_mem hi)

/-- Every cell has at least four bytes and at most `b`. -/
theorem Siblings.mem_szCell (x : Siblings g kind b) {s : ℕ} (h : s ∈ x.szCell) :
    4 ≤ s ∧ s ≤ b := by
  rcases mem_gather h with ⟨page, hpage, hs⟩ | ⟨i, rfl⟩
  · rcases mem_modify hpage with hpage' | ⟨page', hpage', rfl⟩
    · exact x.page_cell page hpage' s hs
    · rw [List.mem_append, List.mem_append] at hs
      rcases hs with hs | hs | hs
      · exact x.page_cell page' hpage' s (List.mem_of_mem_take hs)
      · exact x.ovfl_cell s hs
      · exact x.page_cell page' hpage' s (List.mem_of_mem_drop hs)
  · exact x.div_cell i

/-! ### How many pages they need -/

theorem cellBytes_append (xs ys : List ℕ) :
    cellBytes (xs ++ ys) = cellBytes xs ++ cellBytes ys := List.map_append

theorem sum_le_length_mul {xs : List ℕ} {d : ℕ} (h : ∀ s ∈ xs, s ≤ d) : xs.sum ≤ xs.length * d := by
  simpa using List.sum_le_card_nsmul xs d h

theorem sum_cellBytes_le {xs : List ℕ} (h : ∀ s ∈ xs, s ≤ b) :
    (cellBytes xs).sum ≤ xs.length * (b + 2) := by
  rw [← length_cellBytes]
  apply sum_le_length_mul
  intro y hy
  obtain ⟨s, hs, rfl⟩ := List.mem_map.mp hy
  exact Nat.add_le_add_right (h s hs) 2

variable {leafData : Bool} {divs : ℕ → ℕ} {pages : List (List ℕ)} {cap n k i : ℕ}

theorem gather_cons (page next : List ℕ) :
    cellBytes (gather leafData divs (page :: next :: pages) i)
      = cellBytes page ++ (cellBytes (if leafData then [] else [divs i])
        ++ cellBytes (gather leafData divs (next :: pages) (i + 1))) := by
  rw [gather, cellBytes_append, cellBytes_append, List.append_assoc]

theorem length_divider :
    (cellBytes (if leafData then [] else [divs i])).length = gapOf leafData := by
  cases leafData <;> rfl

/-- Pages that fit are a cut of their cells. -/
theorem gather_cut (hfits : ∀ page ∈ pages, (cellBytes page).sum ≤ cap) :
    Cut cap (gapOf leafData) (pages.length - 1) (cellBytes (gather leafData divs pages i)) := by
  fun_induction gather leafData divs pages i with
  | case1 => exact Cut.last (Nat.zero_le _)
  | case2 page i => exact Cut.last (hfits page (List.mem_singleton_self _))
  | case3 page next pages i ih =>
    have hrest := ih fun p hp => hfits p (List.mem_cons_of_mem _ hp)
    rw [cellBytes_append, cellBytes_append, List.append_assoc]
    exact Cut.cons (hfits page List.mem_cons_self) length_divider hrest

/-- The same when one of the pages needs `n` more. -/
theorem gather_modify_cut {f : List ℕ → List ℕ}
    (hfits : ∀ page ∈ pages, (cellBytes page).sum ≤ cap)
    (hcut : ∀ page ∈ pages, Cut cap (gapOf leafData) n (cellBytes (f page))) :
    Cut cap (gapOf leafData) (n + (pages.length - 1))
      (cellBytes (gather leafData divs (pages.modify k f) i)) := by
  induction pages generalizing k i with
  | nil => exact Cut.last (by simp [gather, cellBytes])
  | cons page pages ih =>
    have hhead := hfits page List.mem_cons_self
    have hrest : ∀ p ∈ pages, (cellBytes p).sum ≤ cap := fun p hp =>
      hfits p (List.mem_cons_of_mem _ hp)
    cases k with
    | zero =>
      have hpage := hcut page List.mem_cons_self
      rw [List.modify_zero_cons]
      cases pages with
      | nil => exact hpage
      | cons next pages =>
        rw [gather_cons]
        exact hpage.append length_divider (gather_cut hrest)
    | succ k =>
      have hmodify := ih (k := k) (i := i + 1) hrest fun p hp =>
        hcut p (List.mem_cons_of_mem _ hp)
      rw [List.modify_succ_cons]
      cases pages with
      | nil =>
        rw [List.modify_nil]
        exact Cut.last hhead
      | cons next pages =>
        obtain ⟨next', pages', hcons⟩ : ∃ next' pages',
            (next :: pages).modify k f = next' :: pages' := by
          cases k with
          | zero => exact ⟨_, _, List.modify_zero_cons _ _ _⟩
          | succ k => exact ⟨_, _, List.modify_succ_cons _ _ _ _⟩
        rw [hcons, gather_cons]
        rw [hcons] at hmodify
        exact Cut.cons hhead length_divider hmodify

/-- The cells need as many pages more than the siblings as the page that overflows does. -/
theorem Siblings.szCell_cut (x : Siblings g kind b)
    (hcut : ∀ page ∈ x.pages, Cut (kind.usableSpace g) (gapOf kind.isLeafData) n
      (cellBytes (page.take x.ovflIdx ++ (x.ovfl ++ page.drop x.ovflIdx)))) :
    Cut (kind.usableSpace g) (gapOf kind.isLeafData) (n + 2) (cellBytes x.szCell) := by
  have hlen := x.pages_length_le
  exact (gather_modify_cut x.fits hcut).mono (by rw [NB] at hlen; omega)

theorem Siblings.sum_ovfl_le (x : Siblings g kind b) :
    (cellBytes x.ovfl).sum ≤ x.ovfl.length * (b + 2) :=
  sum_cellBytes_le fun s hs => (x.ovfl_cell s hs).2

/-- With dividers only the number of bytes counts. -/
theorem Siblings.ovfl_cut (x : Siblings g kind b)
    (hover : x.ovfl.length * (b + 2) ≤ n * (kind.usableSpace g + 1)) (page : List ℕ)
    (hpage : page ∈ x.pages) : Cut (kind.usableSpace g) 1 n
      (cellBytes (page.take x.ovflIdx ++ (x.ovfl ++ page.drop x.ovflIdx))) := by
  have hfits := x.fits page hpage
  have hovfl := x.sum_ovfl_le
  have hsplit : (cellBytes (page.take x.ovflIdx)).sum + (cellBytes (page.drop x.ovflIdx)).sum
      = (cellBytes page).sum := by
    rw [← List.sum_append, ← cellBytes_append, List.take_append_drop]
  apply cut_of_sum_le
  rw [cellBytes_append, cellBytes_append, List.sum_append, List.sum_append]
  omega

/-- Without dividers the cell that overflows can take a page of its own. -/
theorem Siblings.ovfl_cut_leafData (x : Siblings g kind b) (hlen : x.ovfl.length ≤ 1)
    (hfit : b + 2 ≤ kind.usableSpace g) (page : List ℕ) (hpage : page ∈ x.pages) :
    Cut (kind.usableSpace g) 0 2
      (cellBytes (page.take x.ovflIdx ++ (x.ovfl ++ page.drop x.ovflIdx))) := by
  have hfits := x.fits page hpage
  have hovfl := x.sum_ovfl_le
  have hone := Nat.mul_le_mul_right (b + 2) hlen
  have hsplit : (cellBytes (page.take x.ovflIdx)).sum + (cellBytes (page.drop x.ovflIdx)).sum
      = (cellBytes page).sum := by
    rw [← List.sum_append, ← cellBytes_append, List.take_append_drop]
  have htake : (cellBytes (page.take x.ovflIdx)).sum ≤ kind.usableSpace g := by omega
  have hone : (cellBytes x.ovfl).sum ≤ kind.usableSpace g := by omega
  have hdrop : (cellBytes (page.drop x.ovflIdx)).sum ≤ kind.usableSpace g := by omega
  rw [cellBytes_append, cellBytes_append]
  have hrest : Cut (kind.usableSpace g) 0 1
      (cellBytes x.ovfl ++ ([] ++ cellBytes (page.drop x.ovflIdx))) :=
    Cut.cons hone rfl (Cut.last hdrop)
  have hall : Cut (kind.usableSpace g) 0 2 (cellBytes (page.take x.ovflIdx)
      ++ ([] ++ (cellBytes x.ovfl ++ ([] ++ cellBytes (page.drop x.ovflIdx))))) :=
    Cut.cons htake rfl hrest
  exact hall

/-! ### The pages -/

theorem Siblings.legalPages (x : Siblings g kind b) (bBulk : Bool) (hn : n ≤ NB + 1)
    (hcut : Cut (kind.usableSpace g) (gapOf kind.isLeafData) n (cellBytes x.szCell))
    (hfit : b + 2 ≤ kind.usableSpace g)
    (hpair : kind.isLeafData = false → b + 2 + (b + 2) ≤ kind.usableSpace g) :
    ∃ cntNew, partition kind.isLeafData bBulk (kind.usableSpace g) x.szCell = some cntNew ∧
      LegalPages kind.isLeafData (kind.usableSpace g) x.szCell cntNew ∧
      cntNew.length ≤ n + 1 := by
  by_cases hnil : x.szCell = []
  · rw [hnil]
    exact ⟨[0], partition_nil, legalPages_nil, by simp⟩
  · have hcells : ∀ s ∈ x.szCell, 4 ≤ s ∧ s + 2 ≤ kind.usableSpace g := fun s hs => by
      have := x.mem_szCell hs
      omega
    have hcount : ∀ closed, Closed kind.isLeafData (kind.usableSpace g) x.szCell closed →
        closed.length ≤ n := fun closed hclosed => by
      simpa using hclosed.packed.length_le hcut
    have htwo : kind.isLeafData = false → ∀ s ∈ x.szCell, ∀ t ∈ x.szCell,
        s + 2 + (t + 2) ≤ kind.usableSpace g := fun hdata s hs t ht => by
      have := hpair hdata
      have := x.mem_szCell hs
      have := x.mem_szCell ht
      omega
    obtain ⟨page, rest, hpart, hcnt, hlen, hok⟩ :=
      partition_spec bBulk hn hcells hnil hcount htwo
    exact ⟨_, hpart, hok.legal hcnt (hlen.trans hn), by simpa using hlen⟩

/-- One divider for each page but the last. -/
theorem Siblings.dividerBytes_le (x : Siblings g kind b) {cntNew : List ℕ} {d : ℕ}
    (hlast : cntNew.getLast? = some x.szCell.length) (hlen : cntNew.length ≤ n + 1)
    (hd : ∀ j, x.dividerSize j ≤ d) : x.dividerBytes cntNew ≤ n * d := by
  obtain ⟨init, rfl⟩ := List.getLast?_eq_some_iff.mp hlast
  have hfilter : ((init ++ [x.szCell.length]).filter (· < x.szCell.length)).length ≤ n := by
    rw [List.filter_append, List.length_append]
    have hinit := List.length_filter_le (fun j => decide (j < x.szCell.length)) init
    simp only [List.length_append, List.length_singleton] at hlen
    simp
    omega
  have hsum : x.dividerBytes (init ++ [x.szCell.length]) ≤ _ * d := sum_le_length_mul (by
    intro s hs
    obtain ⟨j, -, rfl⟩ := List.mem_map.mp hs
    exact hd j)
  rw [List.length_map] at hsum
  exact hsum.trans (Nat.mul_le_mul_right d hfilter)

theorem Siblings.getD_szCell_le (x : Siblings g kind b) (j : ℕ) : x.szCell.getD j 0 ≤ b := by
  rw [List.getD_eq_getElem?_getD]
  rcases Nat.lt_or_ge j x.szCell.length with hj | hj
  · rw [List.getElem?_eq_getElem hj]
    exact (x.mem_szCell (List.getElem_mem hj)).2
  · rw [List.getElem?_eq_none hj]
    exact Nat.zero_le _

theorem Kind.maxCell_le (hb : b ≤ kind.maxCell g) (hkind : kind ≠ .leafData) :
    255 * b ≤ 64 * (g.usableSize - 12) := by
  have hge := g.usable_ge
  have hmax : b ≤ g.maxLocal + 23 := by
    cases kind
    · exact absurd rfl hkind
    · exact hb
    · exact hb
  rw [Geom.maxLocal] at hmax
  omega

theorem Siblings.dividerSize_leafData (x : Siblings g .leafData b) (j : ℕ) :
    x.dividerSize j = 4 + x.keyLen (j - 1) := rfl

theorem Siblings.dividerSize_indexLeaf (x : Siblings g .indexLeaf b) (j : ℕ) : x.dividerSize j =
    if x.szCell.getD j 0 = 4 then x.reparsed j else x.szCell.getD j 0 + 4 := rfl

/-- In an index there are at most three dividers, when at most three cells overflow. -/
theorem Siblings.legalPages_index (x : Siblings g kind b) (hb : b ≤ kind.maxCell g)
    (hkind : kind ≠ .leafData) (hn : n ≤ 2) (bBulk : Bool)
    (hover : x.ovfl.length * (b + 2) ≤ n * (kind.usableSpace g + 1)) :
    ∃ cntNew, partition kind.isLeafData bBulk (kind.usableSpace g) x.szCell = some cntNew ∧
      LegalPages kind.isLeafData (kind.usableSpace g) x.szCell cntNew ∧
      cntNew.length ≤ n + 3 := by
  have hge := g.usable_ge
  have hcell := Kind.maxCell_le hb hkind
  have hdata : kind.isLeafData = false := by
    cases kind
    · exact absurd rfl hkind
    · rfl
    · rfl
  have hspace : g.usableSize - 12 ≤ kind.usableSpace g := Nat.le_add_right _ _
  have hgap : gapOf kind.isLeafData = 1 := by rw [hdata]; rfl
  have hcut := x.szCell_cut (n := n) (by rw [hgap]; exact x.ovfl_cut hover)
  exact x.legalPages bBulk (by rw [NB]; omega) hcut (by omega) fun _ => by omega

/-- **The partition of `balance_nonroot` is legal**: the first loop stays within `NB + 2` pages, no
size is read outside of the array, all pages fit and none is empty, and the dividers fit their buffer.
A cell has to fit an empty leaf; on an interior page of an index at most three cells overflow, or a
quarter of a page holds a cell. An index gets at most three dividers. -/
theorem partition_legal (x : Siblings g kind b) (hb : b ≤ kind.maxCell g)
    (hfit : kind = .leafData → b + 2 ≤ kind.usableSpace g)
    (hgroup : kind = .interior → x.ovfl.length ≤ 3 ∨ 4 * b ≤ g.pageSize) (bBulk : Bool) :
    ∃ cntNew, x.Legal bBulk cntNew ∧
      (kind ≠ .leafData → x.ovfl.length ≤ 3 → cntNew.length ≤ 4) := by
  have hge := g.usable_ge
  have hle := g.usable_le
  have hovfl := x.ovfl_length_le
  cases kind with
  | leafData =>
    have hcut := x.szCell_cut (x.ovfl_cut_leafData hovfl (hfit rfl))
    obtain ⟨cntNew, hpart, hlegal, hlen⟩ :=
      x.legalPages bBulk le_rfl hcut (hfit rfl) (fun h => absurd h (by decide))
    refine ⟨cntNew, ⟨hpart, hlegal, ?_⟩, fun h => absurd rfl h⟩
    have hdiv := x.dividerBytes_le (d := 13) hlegal.last hlen fun j => by
      have := x.keyLen_le (j - 1)
      rw [x.dividerSize_leafData]
      omega
    rw [NB] at hdiv
    omega
  | indexLeaf =>
    have hcell := Kind.maxCell_le hb (by decide)
    have hone : x.ovfl.length * (b + 2) ≤ 1 * (b + 2) := Nat.mul_le_mul_right (b + 2) hovfl
    have hspace : Kind.usableSpace g .indexLeaf = g.usableSize - 12 + 4 := rfl
    obtain ⟨cntNew, hpart, hlegal, hlen⟩ := x.legalPages_index (n := 1) hb (by decide) (by decide)
      bBulk (by omega)
    refine ⟨cntNew, ⟨hpart, hlegal, ?_⟩, fun _ _ => hlen⟩
    have hdiv := x.dividerBytes_le (n := 3) (d := b + 8) hlegal.last hlen fun j => by
      have := x.getD_szCell_le j
      have := x.reparsed_le j
      rw [x.dividerSize_indexLeaf]
      split <;> omega
    omega
  | interior =>
    have hcell := Kind.maxCell_le hb (by decide)
    have hspace : Kind.usableSpace g .interior = g.usableSize - 12 := rfl
    rcases Nat.lt_or_ge 3 x.ovfl.length with hfour | hthree
    · -- four dividers of a quarter of a page each
      have hquarter := (hgroup rfl).resolve_left (by omega)
      have hmore : x.ovfl.length * (b + 2) ≤ 4 * (b + 2) := Nat.mul_le_mul_right (b + 2) hovfl
      obtain ⟨cntNew, hpart, hlegal, hlen⟩ := x.legalPages_index (n := 2) hb (by decide) le_rfl
        bBulk (by omega)
      refine ⟨cntNew, ⟨hpart, hlegal, ?_⟩, fun _ h => absurd h (by omega)⟩
      have hdiv := x.dividerBytes_le (n := 4) hlegal.last hlen x.getD_szCell_le
      omega
    · have hmore := Nat.mul_le_mul_right (b + 2) hthree
      obtain ⟨cntNew, hpart, hlegal, hlen⟩ := x.legalPages_index (n := 1) hb (by decide) (by decide)
        bBulk (by omega)
      refine ⟨cntNew, ⟨hpart, hlegal, ?_⟩, fun _ _ => hlen⟩
      have hdiv := x.dividerBytes_le (n := 3) hlegal.last hlen x.getD_szCell_le
      omega

theorem max_1024 : 1024 ≤ 65536 := by decide
theorem lt_0 : 0 < 2 ^ 31 := by decide

/-- Pages of 1 KiB. -/
def pages1k : Geom :=
  ⟨1024, 1024, false, false, 0, by decide, by decide, max_1024, ⟨10, rfl⟩, lt_0⟩

/-- Pages of 64 KiB. -/
def pages64k : Geom :=
  ⟨65536, 65536, false, false, 0, by decide, by decide, by decide, ⟨16, rfl⟩, lt_0⟩

/-- A leaf with a cell that is too large for an empty page. -/
def oversize : Siblings pages1k .leafData 1016 where
  pages := [[]]
  divs := fun _ => 4
  ovflPage := 0
  ovflIdx := 0
  ovfl := [1016]
  keyLen := fun _ => 1
  reparsed := fun _ => 4
  pages_length_le := by decide
  fits := by decide
  page_cell := by decide
  ovfl_cell := by decide
  div_cell := fun _ => by decide
  ovfl_length_le := by decide
  keyLen_le := fun _ => by decide
  reparsed_le := fun _ => by decide

/-- Four cells that overflow an interior page of an index. -/
def crowded : Siblings pages64k .interior 16433 where
  pages := [[16433, 16433, 16433], [16433, 16433, 16433], [16433, 16433, 16218, 16404]]
  divs := fun _ => 16433
  ovflPage := 2
  ovflIdx := 3
  ovfl := [16433, 16433, 16433, 16433]
  keyLen := fun _ => 1
  reparsed := fun _ => 4
  pages_length_le := by decide
  fits := by decide
  page_cell := by decide
  ovfl_cell := by decide
  div_cell := fun _ => by decide
  ovfl_length_le := by decide
  keyLen_le := fun _ => by decide
  reparsed_le := fun _ => by decide

theorem oversize_partition : partition true false 1016 oversize.szCell = none := by
  rw [show oversize.szCell = [1016] from rfl]
  simp [partition, packLeft, NB]

theorem crowded_partition :
    partition false false 65524 crowded.szCell = some [3, 7, 11, 14, 16] := by
  rw [show crowded.szCell = [16433, 16433, 16433, 16433, 16433, 16433, 16433, 16433, 16433, 16433,
    16218, 16433, 16433, 16433, 16433, 16404] by decide]
  simp [partition, packLeft, adjust, shiftRight, movesCell, NB]

/-- A cell can be too large for any page, and four dividers for their buffer. -/
theorem partition_not_legal :
    (1016 ≤ Kind.leafData.maxCell pages1k ∧ ∀ cntNew, ¬ oversize.Legal false cntNew) ∧
      16433 ≤ Kind.interior.maxCell pages64k ∧ ∀ cntNew, ¬ crowded.Legal false cntNew := by
  refine ⟨⟨by decide, ?_⟩, by decide, ?_⟩
  · rintro cntNew ⟨hpart, -, -⟩
    exact absurd (hpart.symm.trans oversize_partition) (by simp)
  · rintro cntNew ⟨hpart, -, hdiv⟩
    obtain rfl := Option.some.inj (hpart.symm.trans crowded_partition)
    exact absurd hdiv (by decide)

/-- The cells of three interior pages, of which three overflow. -/
theorem partition_legal_crowded : ∃ cntNew,
    ({ crowded with
        ovfl := [16433, 16433, 16433]
        ovfl_cell := by decide
        ovfl_length_le := by decide } : Siblings _ .interior 16433).Legal false cntNew ∧
      (Kind.interior ≠ .leafData → 3 ≤ 3 → cntNew.length ≤ 4) :=
  partition_legal _ (by decide) (fun h => absurd h (by decide)) (fun _ => Or.inl (by decide)) false

end Partition

end Btree

end SqliteVms

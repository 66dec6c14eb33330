import SqliteVms.Btree.SpaceSound

/-!
# The cells of a page are a list

A page without overflowing cells holds a list of cells. On a page whose content area is divided exactly
between cells, freeblocks and fragments, `insertCell` and `dropCell` insert into that list and erase
from it, and the page that they leave is divided exactly again.

## Main definitions

* `WellFormedPage` — the page, with its cells and freeblocks
* `Edit`, `Content` — what is done to a page, and what it comes to for the list

## Main results

* `insertCell_spec`, `dropCell_spec` — one cell
* `edits_refine` — any number of them
-/

namespace SqliteVms

namespace Btree

open Store BigEndian Extent

/-! ### Cell pointers are moved -/

section Shift

variable {g : Geom} {data : ℕ → UInt8} {n ptr : ℕ}

theorem shiftUp_spec (hle : ptr + 2 * n + 2 ≤ g.usableSize) :
    shiftUp g data n (ptr + 2 * n) = .ok (blit data (ptr + 2) (slice data ptr (2 * n))) := by
  induction n generalizing data with
  | zero => rw [Nat.mul_zero, slice_zero, blit_nil]; rfl
  | succ n ih =>
    have hslice : slice (blit data (ptr + 2 + 2 * n) (slice data (ptr + 2 * n) 2)) ptr (2 * n)
        = slice data ptr (2 * n) := slice_congr fun i hi => blit_outside (by omega)
    rw [shiftUp, show ptr + 2 * (n + 1) - 2 = ptr + 2 * n by omega, loads_ok (by omega), ok_bind,
      store_ok (by rw [length_slice]; omega), ok_bind,
      show ptr + 2 * (n + 1) = ptr + 2 + 2 * n by omega, ih (by omega), hslice,
      blit_comm _ (by simp only [length_slice]; omega), Nat.mul_succ, slice_append,
      ← blit_blit_append, length_slice]

theorem shiftDown_spec (hle : ptr + 2 * n + 2 ≤ g.usableSize) :
    shiftDown g data n ptr = .ok (blit data ptr (slice data (ptr + 2) (2 * n))) := by
  induction n generalizing data ptr with
  | zero => rw [Nat.mul_zero, slice_zero, blit_nil]; rfl
  | succ n ih =>
    have hslice : slice (blit data ptr (slice data (ptr + 2) 2)) (ptr + 2 + 2) (2 * n)
        = slice data (ptr + 2 + 2) (2 * n) :=
      slice_congr fun i hi => blit_outside (by rw [length_slice]; omega)
    rw [shiftDown, loads_ok (by omega), ok_bind, store_ok (by rw [length_slice]; omega), ok_bind,
      ih (by omega), hslice, Nat.mul_succ, Nat.add_comm (2 * n), slice_append, ← blit_blit_append,
      length_slice]

end Shift

/-! ### Well-formed pages -/

/-- A page whose cells, freeblocks and fragments divide the content area, and whose `nFree` is what
the gap, the freeblocks and the fragments come to. -/
structure WellFormedPage (g : Geom) (m : MemPage) (cells : List (ℕ × List UInt8))
    (free : List (ℕ × ℕ)) : Prop where
  cellsAt : CellsAt g m cells
  tiled : Tiled g m (extents cells) free
  separated : Separated free
  nFree : m.nFree = (m.top - m.iCellFirst) + total free + (m.aData (m.hdrOffset + 7)).toNat

section WellFormed

variable {g : Geom} {m : MemPage} {cells : List (ℕ × List UInt8)} {free : List (ℕ × ℕ)}

/-- How much room cells take is a matter of their bytes. -/
theorem total_extents (cells : List (ℕ × List UInt8)) :
    total (extents cells) = ((cells.map Prod.snd).map List.length).sum := by
  rw [total, extents, List.map_map, List.map_map]
  rfl

/-- All that is neither header nor cell is free. -/
theorem WellFormedPage.nFree_add (h : WellFormedPage g m cells free) :
    m.nFree + m.iCellFirst + total (extents cells) = g.usableSize := by
  have hcount := h.tiled.count
  have hle := h.tiled.le_top
  rw [h.nFree, ← hcount, total_append]
  omega

theorem wellFormedPage_of_nFree (hc : CellsAt g m cells) (ht : Tiled g m (extents cells) free)
    (hsep : Separated free) (hfree : m.nFree + m.iCellFirst + total (extents cells) = g.usableSize) :
    WellFormedPage g m cells free := by
  have hcount := ht.count
  have hle := ht.le_top
  rw [total_append] at hcount
  exact ⟨hc, ht, hsep, by omega⟩

end WellFormed

/-! ### A cell is inserted -/

section Insert

variable {g : Geom} {m : MemPage} {cells : List (ℕ × List UInt8)}
  {free : List (ℕ × ℕ)} {idx i sz iChild p j : ℕ} {xs : List UInt8} {pCell : ℕ → UInt8}

/-- The bytes of the page with the cell at `idx`, and its pointer before those from the `i`-th on. -/
def insertBytes (m : MemPage) (idx i : ℕ) (xs : List UInt8) : ℕ → UInt8 :=
  put2 (put2 (blit (blit m.aData idx xs) (m.cellOffset + 2 * i + 2)
    (slice (blit m.aData idx xs) (m.cellOffset + 2 * i) (2 * (m.nCell - i))))
      (m.cellOffset + 2 * i) idx) (m.hdrOffset + 3) (m.nCell + 1)

/-- What is neither the cell nor a moved pointer nor the number of cells. -/
theorem insertBytes_outside (hi : i ≤ m.nCell)
    (hhdr : p < m.hdrOffset + 3 ∨ m.hdrOffset + 5 ≤ p)
    (hptr : p < m.cellOffset + 2 * i ∨ m.iCellFirst + 2 ≤ p)
    (hcell : p < idx ∨ idx + xs.length ≤ p) : insertBytes m idx i xs p = m.aData p := by
  rw [MemPage.iCellFirst] at hptr
  rw [insertBytes, put2_outside (by omega), put2_outside (by omega),
    blit_outside (by rw [length_slice]; omega), blit_outside hcell]

theorem insertBytes_nCell (hn : m.nCell + 1 < 2 ^ 16) :
    get2 (insertBytes m idx i xs) (m.hdrOffset + 3) = m.nCell + 1 :=
  get2_put2_self _ _ hn

section Pointers

variable (hidx : m.iCellFirst + 2 ≤ idx)

include hidx

/-- A cell pointer before the new one. -/
theorem insertBytes_before (hji : j < i) (hi : i ≤ m.nCell) :
    get2 (insertBytes m idx i xs) (m.cellOffset + 2 * j) = get2 m.aData (m.cellOffset + 2 * j) := by
  have hoff := m.hdr_add_eight_le_cellOffset
  rw [MemPage.iCellFirst] at hidx
  exact get2_congr fun k hk => insertBytes_outside hi (by omega) (by omega) (by omega)

omit hidx in
/-- The new cell pointer. -/
theorem insertBytes_self (hlt : idx < 2 ^ 16) :
    get2 (insertBytes m idx i xs) (m.cellOffset + 2 * i) = idx := by
  have hoff := m.hdr_add_eight_le_cellOffset
  rw [insertBytes, get2_put2_of_disjoint (by omega), get2_put2_self _ _ hlt]

/-- A cell pointer behind the new one. -/
theorem insertBytes_after (hij : i ≤ j) (hj : j < m.nCell) :
    get2 (insertBytes m idx i xs) (m.cellOffset + 2 * (j + 1))
      = get2 m.aData (m.cellOffset + 2 * j) := by
  have hoff := m.hdr_add_eight_le_cellOffset
  obtain ⟨k, rfl⟩ := Nat.exists_eq_add_of_le hij
  rw [MemPage.iCellFirst] at hidx
  rw [insertBytes, get2_put2_of_disjoint (by omega), get2_put2_of_disjoint (by omega),
    show m.cellOffset + 2 * (i + k + 1) = m.cellOffset + 2 * i + 2 + 2 * k by omega,
    get2_blit_slice (by omega), get2_blit_of_disjoint (by omega),
    show m.cellOffset + 2 * i + 2 * k = m.cellOffset + 2 * (i + k) by omega]

end Pointers

theorem extents_insertIdx (cells : List (ℕ × List UInt8)) (i : ℕ) (c : ℕ × List UInt8) :
    extents (cells.insertIdx i c) = (extents cells).insertIdx i (c.1, c.2.length) :=
  List.map_insertIdx _ _ _ _

theorem perm_extents_insertIdx (hi : i ≤ cells.length) (c : ℕ × List UInt8) :
    (extents (cells.insertIdx i c)).Perm ((c.1, c.2.length) :: extents cells) := by
  rw [extents_insertIdx]
  exact List.perm_insertIdx _ _ (by rwa [extents, List.length_map])

/-- The page with the cell. -/
def MemPage.insert (m : MemPage) (idx i : ℕ) (xs : List UInt8) : MemPage :=
  { m with
    aData := insertBytes m idx i xs
    nCell := m.nCell + 1
    nFree := m.nFree - (2 + xs.length) }

section At

variable (hc : CellsAt g m cells) (ht : Tiled g m ((idx, xs.length) :: extents cells) free)
  (hroom : m.iCellFirst + 2 ≤ m.top) (hi : i ≤ cells.length)

include hc ht hroom hi

/-- The freeblocks are where they were. -/
theorem Tiled.insert :
    Tiled g (m.insert idx i xs) (extents (cells.insertIdx i (idx, xs))) free := by
  have hhdr := m.hdr_add_eight_le_cellOffset
  have hin := ht.inside (idx, xs.length) (by simp)
  have hi' : i ≤ m.nCell := hc.nCell ▸ hi
  have hle : m.hdrOffset + 8 ≤ m.iCellFirst := m.hdr_add_eight_le
  dsimp only at hin
  refine ht.update rfl hroom (perm_extents_insertIdx hi (idx, xs)) (fun p hp => ?_)
    fun u hu p hp => ?_
  · exact insertBytes_outside hi' (by omega) (by omega) (by omega)
  · have hu' := ht.inside u (by simp [hu])
    have hout := ht.not_inside_used hu hp List.mem_cons_self
    have hlo := hp.1
    refine insertBytes_outside hi' (by omega) (by omega) ?_
    by_contra hcon
    exact hout ⟨by dsimp only; omega, by dsimp only; omega⟩

/-- **The cell stands in the list**, and the others as before. -/
theorem CellsAt.insert (hcell : IsCell g m xs) :
    CellsAt g (m.insert idx i xs) (cells.insertIdx i (idx, xs)) := by
  have hhdr := m.hdr_add_eight_le_cellOffset
  have hin := ht.inside (idx, xs.length) (by simp)
  have hsize := ht.size_ge (idx, xs.length) (by simp)
  have husable := ht.usable_le
  have hn := hc.nCell
  have hi' : i ≤ m.nCell := hn ▸ hi
  have hle : m.iCellFirst = m.cellOffset + 2 * m.nCell := rfl
  dsimp only at hin hsize
  constructor
  case bounds => exact ⟨hc.bounds.max_le, hc.bounds.min_le⟩
  case nCell =>
    rw [List.length_insertIdx_of_le_length hi, ← hn]
    rfl
  case header =>
    rw [List.length_insertIdx_of_le_length hi, ← hn]
    exact insertBytes_nCell (by omega)
  case pointers =>
    intro j c hj
    rw [List.getElem?_insertIdx] at hj
    rcases Nat.lt_trichotomy j i with hji | rfl | hij
    · rw [if_pos hji] at hj
      exact (insertBytes_before (by omega) hji hi').trans (hc.pointers j c hj)
    · rw [if_neg (lt_irrefl j), if_pos rfl, if_pos hi] at hj
      obtain rfl := Option.some.inj hj
      exact insertBytes_self (by omega)
    · rw [if_neg (by omega), if_neg (by omega)] at hj
      obtain ⟨k, rfl⟩ := Nat.exists_eq_succ_of_ne_zero (Nat.ne_zero_of_lt hij)
      obtain ⟨hk, -⟩ := List.getElem?_eq_some_iff.mp hj
      exact (insertBytes_after (by omega) (by omega) (by omega)).trans (hc.pointers k c hj)
  case holds =>
    intro c hmem
    rcases (List.mem_insertIdx hi).mp hmem with rfl | hmem
    · refine (holds_blit m.aData idx xs).congr fun p hlo hhi => ?_
      show insertBytes m idx i xs p = _
      rw [insertBytes, put2_outside (by omega), put2_outside (by omega),
        blit_outside (by rw [length_slice]; omega)]
    · have hu := mem_extents.mpr ⟨c, hmem, rfl⟩
      have hc' := ht.inside (c.1, c.2.length) (by simp [hu])
      dsimp only at hc'
      refine (hc.holds c hmem).congr fun p hlo hhi =>
        insertBytes_outside hi' (by omega) (by omega) ?_
      by_contra hcon
      have hin' : Inside (idx, xs.length) p := ⟨by dsimp only; omega, by dsimp only; omega⟩
      exact not_inside_of_mem ht.apart hin' (List.mem_append_left _ hu) ⟨hlo, hhi⟩
  case isCell =>
    intro c hmem
    rcases (List.mem_insertIdx hi).mp hmem with rfl | hmem
    · exact hcell
    · exact hc.isCell c hmem

end At

theorem length_newCell (hsz : 4 ≤ sz) : (newCell pCell sz iChild).length = sz := by
  rw [newCell]
  split
  · exact length_slice _ _ _
  · rw [List.length_append, length_bytes4, length_slice]
    omega

/-- What is stored is the cell, in one piece or two. -/
theorem storeCell_ok {data : ℕ → UInt8} (hsz : 4 ≤ sz) (hle : idx + sz ≤ g.usableSize) :
    storeCell g data idx pCell sz iChild = .ok (blit data idx (newCell pCell sz iChild)) := by
  rw [storeCell, newCell]
  by_cases hchild : iChild = 0
  · rw [if_pos hchild, if_pos hchild, store_ok (by rwa [length_slice])]
  · rw [if_neg hchild, if_neg hchild, store_ok (by rw [length_slice]; omega), ok_bind,
      store_ok (by rw [length_bytes4]; omega), blit_comm _ (by rw [length_bytes4]; omega),
      ← blit_blit_append, length_bytes4]

/-- With another child pointer a cell is a cell. -/
theorem isCell_newCell (hm : m.LocalBounds g) (hsz : 4 ≤ sz) (hcell : cellSizePtr g m pCell = sz)
    (hchild : iChild ≠ 0 → m.leaf = false) : IsCell g m (newCell pCell sz iChild) := by
  rw [IsCell, length_newCell hsz]
  refine (cellSizePtr_congr hm fun i hle hi => ?_).trans hcell
  rw [hcell] at hi
  rw [List.getD_eq_getElem _ _ (by rwa [length_newCell hsz])]
  by_cases hzero : iChild = 0
  · simp only [newCell, if_pos hzero, getElem_slice, Nat.zero_add]
  · rw [MemPage.childPtrSize, hchild hzero] at hle
    have hfour : 4 ≤ i := hle
    simp only [newCell, if_neg hzero]
    rw [List.getElem_append_right (by rwa [length_bytes4]), getElem_slice, length_bytes4,
      Nat.add_sub_cancel' hfour]

/-- **`insertCell` inserts into the list of cells.** -/
theorem insertCell_spec (h : WellFormedPage g m cells free) (temp : ℕ → UInt8)
    (hi : i ≤ cells.length) (hsz : 4 ≤ sz) (hroom : sz + 2 ≤ m.nFree)
    (hcell : cellSizePtr g m pCell = sz) (hchild : iChild ≠ 0 → m.leaf = false) :
    ∃ data idx cells' free', insertCell g temp m i pCell sz iChild
        = .ok (.page ((m.withData data).insert idx i (newCell pCell sz iChild))) ∧
      cells'.map Prod.snd = (cells.map Prod.snd).insertIdx i (newCell pCell sz iChild) ∧
      WellFormedPage g ((m.withData data).insert idx i (newCell pCell sz iChild)) cells' free' := by
  obtain ⟨⟨m₁, idx⟩, halloc, data₀, cells₀, hmap, hcells₀, hpage, ⟨free₁, ht, hsep⟩, hkeeps, htop⟩ :=
    allocateSpace_spec h.cellsAt h.tiled h.separated h.nFree_add temp hsz hroom
  obtain ⟨data₁, rfl⟩ : ∃ data₁, m₁ = m.withData data₁ := ⟨m₁.aData, hpage⟩
  dsimp only at ht hkeeps htop
  have hlen : (newCell pCell sz iChild).length = sz := length_newCell hsz
  have hcells₁ : CellsAt g (m.withData data₁) cells₀ := hcells₀.keeps hkeeps
  have hi₀ : i ≤ cells₀.length := by
    rwa [← List.length_map Prod.snd, hmap, List.length_map]
  have hn : m.nCell = cells₀.length := hcells₀.nCell
  have hin := ht.inside (idx, sz) (by simp)
  have husable := ht.usable_le
  have hhdr := m.hdr_add_eight_le_cellOffset
  have hle : m.iCellFirst = m.cellOffset + 2 * m.nCell := rfl
  have hroom₁ : m.iCellFirst + 2 ≤ (m.withData data₁).top := htop
  dsimp only at hin
  rw [← hlen] at ht
  have hcells := hcells₁.insert ht htop hi₀
    (isCell_newCell (m := m.withData data₁) hcells₁.bounds hsz hcell hchild)
  have htiled := Tiled.insert hcells₁ ht htop hi₀
  refine ⟨data₁, idx, cells₀.insertIdx i (idx, newCell pCell sz iChild), free₁, ?_, ?_,
    wellFormedPage_of_nFree hcells htiled hsep ?_⟩
  · have hshift : shiftUp g (blit data₁ idx (newCell pCell sz iChild)) (m.nCell - i)
        (m.cellOffset + 2 * i + 2 * (m.nCell - i)) = _ := shiftUp_spec (by omega)
    rw [show m.cellOffset + 2 * i + 2 * (m.nCell - i) = m.cellOffset + 2 * m.nCell by omega] at hshift
    rw [insertCell, if_neg (by omega)]
    dsimp only
    rw [halloc, ok_bind]
    dsimp only
    rw [storeCell_ok hsz hin.2, ok_bind, hshift, ok_bind, store2_ok (by omega), ok_bind,
      store2_ok (show m.hdrOffset + 3 + 2 ≤ _ by omega), ok_bind, MemPage.insert, hlen]
    rfl
  · rw [List.map_insertIdx, hmap]
  · have hfree := h.nFree_add
    have htotal : total (extents cells₀) = total (extents cells) := by
      rw [total_extents, total_extents, hmap]
    rw [total_perm (perm_extents_insertIdx hi₀ _), total_cons, htotal, MemPage.insert, hlen]
    show m.nFree - (2 + sz) + (m.cellOffset + 2 * (m.nCell + 1)) + (sz + _) = _
    omega

end Insert

/-! ### A cell is removed -/

section Drop

variable {g : Geom} {m : MemPage} {cells : List (ℕ × List UInt8)} {free : List (ℕ × ℕ)}
  {idx p j fuel : ℕ} {c : ℕ × List UInt8} {data : ℕ → UInt8}

/-- The bytes of the page without the pointer of cell `idx`. -/
def eraseBytes (m : MemPage) (data : ℕ → UInt8) (idx : ℕ) : ℕ → UInt8 :=
  put2 (blit data (m.cellOffset + 2 * idx)
    (slice data (m.cellOffset + 2 * idx + 2) (2 * (m.nCell - 1 - idx)))) (m.hdrOffset + 3) (m.nCell - 1)

theorem eraseBytes_outside (hidx : idx < m.nCell) (hhdr : p < m.hdrOffset + 3 ∨ m.hdrOffset + 5 ≤ p)
    (hptr : p < m.cellOffset + 2 * idx ∨ m.iCellFirst ≤ p) : eraseBytes m data idx p = data p := by
  rw [MemPage.iCellFirst] at hptr
  rw [eraseBytes, put2_outside (by omega), blit_outside (by rw [length_slice]; omega)]

/-- A cell pointer behind the one that is gone. -/
theorem eraseBytes_after (hij : idx ≤ j) (hj : j + 1 < m.nCell) :
    get2 (eraseBytes m data idx) (m.cellOffset + 2 * j) = get2 data (m.cellOffset + 2 * (j + 1)) := by
  have hoff := m.hdr_add_eight_le_cellOffset
  obtain ⟨k, rfl⟩ := Nat.exists_eq_add_of_le hij
  rw [eraseBytes, get2_put2_of_disjoint (by omega),
    show m.cellOffset + 2 * (idx + k) = m.cellOffset + 2 * idx + 2 * k by omega,
    get2_blit_slice (by omega)]
  exact congrArg _ (by omega)

theorem perm_extents_eraseIdx (hidx : cells[idx]? = some c) :
    ((c.1, c.2.length) :: extents (cells.eraseIdx idx)).Perm (extents cells) := by
  obtain ⟨hlt, rfl⟩ := List.getElem?_eq_some_iff.mp hidx
  exact (List.getElem_cons_eraseIdx_perm hlt).map fun c => (c.1, c.2.length)

/-- The page without the cell, when its space is given back. -/
def MemPage.erase (m : MemPage) (data : ℕ → UInt8) (idx sz : ℕ) : MemPage :=
  { m with
    aData := eraseBytes m data idx
    nCell := m.nCell - 1
    nFree := m.nFree + (2 + sz) }

section At

variable {sz : ℕ} (hlt : idx < m.nCell)
  (ht : Tiled g (m.withData data) (extents (cells.eraseIdx idx)) free)

include hlt ht

theorem Tiled.eraseIdx : Tiled g (m.erase data idx sz) (extents (cells.eraseIdx idx)) free := by
  have hhdr := m.hdr_add_eight_le_cellOffset
  have hle : m.iCellFirst = m.cellOffset + 2 * m.nCell := rfl
  have htop : m.iCellFirst ≤ (m.withData data).top := ht.le_top
  refine ht.update rfl ?_ (List.Perm.refl _) (fun p hp => ?_) fun u hu p hp => ?_
  · show m.cellOffset + 2 * (m.nCell - 1) ≤ _
    omega
  · have hp' : (m.hdrOffset + 1 ≤ p ∧ p < m.hdrOffset + 3) ∨
        (m.hdrOffset + 5 ≤ p ∧ p < m.hdrOffset + 8) := hp
    exact eraseBytes_outside hlt (by omega) (by omega)
  · have hin := (ht.inside u (List.mem_append_right _ hu)).1
    have hlo := hp.1
    exact eraseBytes_outside hlt (by omega) (by omega)

/-- The other cells stand in the list as before. -/
theorem CellsAt.eraseIdx (hc : CellsAt g m cells)
    (hkeeps : Keeps m (extents (cells.eraseIdx idx)) data) :
    CellsAt g (m.erase data idx sz) (cells.eraseIdx idx) := by
  have hhdr := m.hdr_add_eight_le_cellOffset
  have hle : m.iCellFirst = m.cellOffset + 2 * m.nCell := rfl
  have hn := hc.nCell
  have hptr : ∀ j < m.nCell, get2 data (m.cellOffset + 2 * j) = get2 m.aData (m.cellOffset + 2 * j) :=
    fun j hj => get2_congr fun k hk => hkeeps _ (by omega)
  constructor
  case bounds => exact ⟨hc.bounds.max_le, hc.bounds.min_le⟩
  case nCell =>
    rw [List.length_eraseIdx_of_lt (hn ▸ hlt), ← hn]
    rfl
  case header =>
    have hlt' : m.nCell < 2 ^ 16 := by
      rw [hn, ← hc.header]
      exact get2_lt _ _
    rw [List.length_eraseIdx_of_lt (hn ▸ hlt), ← hn]
    exact get2_put2_self _ _ (by omega)
  case pointers =>
    intro j c hj
    rw [List.getElem?_eraseIdx] at hj
    by_cases hji : j < idx
    · rw [if_pos hji] at hj
      rw [← hc.pointers j c hj, ← hptr j (by omega)]
      refine get2_congr fun k hk => ?_
      exact eraseBytes_outside (p := m.cellOffset + 2 * j + k) hlt (by omega) (by omega)
    · rw [if_neg hji] at hj
      obtain ⟨hj', -⟩ := List.getElem?_eq_some_iff.mp hj
      rw [← hc.pointers (j + 1) c hj, ← hptr (j + 1) (by omega)]
      exact eraseBytes_after (by omega) (by omega)
  case holds =>
    intro c hmem
    have hu := mem_extents.mpr ⟨c, hmem, rfl⟩
    have hin := (ht.inside _ (List.mem_append_left _ hu)).1
    have htop : m.iCellFirst ≤ (m.withData data).top := ht.le_top
    dsimp only at hin
    refine (hc.holds c (List.mem_of_mem_eraseIdx hmem)).congr fun p hlo hhi => ?_
    have hsame : data p = m.aData p := hkeeps p (Or.inr (Or.inr (Or.inr ⟨_, hu, hlo, hhi⟩)))
    exact (eraseBytes_outside hlt (by omega) (by omega)).trans hsame
  case isCell => exact fun c hmem => hc.isCell c (List.mem_of_mem_eraseIdx hmem)

end At

/-- **`dropCell` erases from the list of cells.** -/
theorem dropCell_spec (h : WellFormedPage g m cells free) (hidx : cells[idx]? = some c)
    (hfuel : g.usableSize ≤ fuel) :
    ∃ data free', dropCell g fuel m idx c.2.length = .ok (m.erase data idx c.2.length) ∧
      WellFormedPage g (m.erase data idx c.2.length) (cells.eraseIdx idx) free' := by
  obtain ⟨hlt, -⟩ := List.getElem?_eq_some_iff.mp hidx
  have hn := h.cellsAt.nCell
  have hperm := perm_extents_eraseIdx hidx
  have hhdr := m.hdr_add_eight_le_cellOffset
  have hle : m.iCellFirst = m.cellOffset + 2 * m.nCell := rfl
  have htop := h.tiled.le_top
  have ht : Tiled g m ((c.1, c.2.length) :: extents (cells.eraseIdx idx)) free :=
    h.tiled.update rfl htop hperm (fun _ _ => rfl) fun _ _ _ _ => rfl
  have hin := ht.inside (c.1, c.2.length) (by simp)
  have husable := ht.usable_le
  have hfree := h.nFree_add
  obtain ⟨data, free', hrun, ht', hsep, hkeeps⟩ := freeSpace_spec ht hfuel
  rw [← total_perm hperm, total_cons] at hfree
  have hraw : get2 m.aData (m.hdrOffset + 5) ≤ m.top := get2_le_get2byteNotZero _ _
  dsimp only at hin hfree
  refine ⟨data, free', ?_, wellFormedPage_of_nFree (h.cellsAt.eraseIdx (hn ▸ hlt) ht' hkeeps)
    (ht'.eraseIdx (hn ▸ hlt)) hsep ?_⟩
  · rw [dropCell, load2_ok (by omega), ok_bind, load2_ok (by omega), ok_bind,
      h.cellsAt.pointers idx c hidx, if_neg (by omega), hrun, ok_bind]
    dsimp only
    rw [shiftDown_spec (show m.cellOffset + 2 * idx + 2 * (m.nCell - 1 - idx) + 2 ≤ _ by omega),
      ok_bind, store2_ok (by omega), ok_bind,
      show ((m.nFree + c.2.length % 65536) % 65536 + 2) % 65536 = m.nFree + (2 + c.2.length) by omega]
    rfl
  · show m.nFree + (2 + c.2.length) + (m.cellOffset + 2 * (m.nCell - 1)) + _ = _
    omega

end Drop

/-! ### Any number of edits -/

/-- A call that inserts or removes a cell. -/
inductive Edit
  | insert (temp : ℕ → UInt8) (i : ℕ) (pCell : ℕ → UInt8) (sz iChild : ℕ)
  | drop (idx sz : ℕ)

/-- What the code makes of it. -/
def Edit.run (g : Geom) (fuel : ℕ) (m : MemPage) : Edit → Except Fault Inserted
  | .insert temp i pCell sz iChild => insertCell g temp m i pCell sz iChild
  | .drop idx sz => do
    let m ← dropCell g fuel m idx sz
    .ok (.page m)

/-- The calls succeed one after the other, and no cell overflows the page. -/
inductive Edits (g : Geom) (fuel : ℕ) : MemPage → List Edit → MemPage → Prop
  | nil (m : MemPage) : Edits g fuel m [] m
  | cons {m m' m'' : MemPage} {e : Edit} {es : List Edit} (h : e.run g fuel m = .ok (.page m'))
      (hes : Edits g fuel m' es m'') : Edits g fuel m (e :: es) m''

/-- What a page holds: a list of cells, and so many free bytes. -/
structure Content where
  cells : List (List UInt8)
  nFree : ℕ

/-- What a call comes to. -/
def Content.edit (c : Content) : Edit → Content
  | .insert _ i pCell sz iChild =>
    ⟨c.cells.insertIdx i (newCell pCell sz iChild), c.nFree - (2 + sz)⟩
  | .drop idx sz => ⟨c.cells.eraseIdx idx, c.nFree + (2 + sz)⟩

/-- A call is for a cell of the right size that there is, or that there is room for. A page with child
pointers takes a new one. -/
def Content.Allows (g : Geom) (m : MemPage) (c : Content) : Edit → Prop
  | .insert _ i pCell sz iChild => i ≤ c.cells.length ∧ 4 ≤ sz ∧ sz + 2 ≤ c.nFree ∧
    cellSizePtr g m pCell = sz ∧ (iChild ≠ 0 → m.leaf = false)
  | .drop idx sz => c.cells[idx]?.map List.length = some sz

/-- Each call in turn is. -/
def Content.AllowsAll (g : Geom) (m : MemPage) : Content → List Edit → Prop
  | _, [] => True
  | c, e :: es => c.Allows g m e ∧ (c.edit e).AllowsAll g m es

/-- The page is well-formed and holds just this. -/
def HoldsContent (g : Geom) (m : MemPage) (c : Content) : Prop :=
  ∃ cells free, WellFormedPage g m cells free ∧ cells.map Prod.snd = c.cells ∧ m.nFree = c.nFree

section Edits

variable {g : Geom} {m m' : MemPage} {c : Content} {e : Edit} {es : List Edit} {fuel : ℕ}

/-- What is not changed in a page by its cells. -/
def SameKind (m m' : MemPage) : Prop :=
  m' = { m with aData := m'.aData, nCell := m'.nCell, nFree := m'.nFree }

theorem Content.AllowsAll.sameKind (hkind : SameKind m m') (h : c.AllowsAll g m es) :
    c.AllowsAll g m' es := by
  rw [hkind]
  induction es generalizing c with
  | nil => trivial
  | cons e es ih => exact ⟨by cases e <;> exact h.1, ih h.2⟩

/-- One call that is allowed. -/
theorem HoldsContent.edit (h : HoldsContent g m c) (hfuel : g.usableSize ≤ fuel) (he : c.Allows g m e) :
    ∃ m', e.run g fuel m = .ok (.page m') ∧ HoldsContent g m' (c.edit e) ∧ SameKind m m' := by
  obtain ⟨cells, free, hpage, hcells, hfree⟩ := h
  cases e with
  | insert temp i pCell sz iChild =>
    obtain ⟨hi, hsz, hroom, hcell, hchild⟩ := he
    rw [← hcells, List.length_map] at hi
    obtain ⟨data, idx, cells', free', hrun, hmap, hpage'⟩ :=
      insertCell_spec hpage temp hi hsz (hfree ▸ hroom) hcell hchild
    refine ⟨_, hrun, ⟨cells', free', hpage', by rw [hmap, hcells]; rfl, ?_⟩, rfl⟩
    show m.nFree - (2 + (newCell pCell sz iChild).length) = c.nFree - (2 + sz)
    rw [length_newCell hsz, hfree]
  | drop idx sz =>
    have hget : (c.cells[idx]?).map List.length = some sz := he
    rw [← hcells, List.getElem?_map, Option.map_map] at hget
    obtain ⟨d, hd, hlen⟩ := Option.map_eq_some_iff.mp hget
    obtain rfl : d.2.length = sz := hlen
    obtain ⟨data, free', hrun, hpage'⟩ := dropCell_spec hpage hd hfuel
    refine ⟨_, ?_, ⟨_, free', hpage', ?_, ?_⟩, rfl⟩
    · rw [Edit.run, hrun, ok_bind]
    · rw [← List.eraseIdx_map, hcells]
      rfl
    · rw [MemPage.erase, hfree]
      rfl

/-- **Insertion and removal of cells are insertion into a list and deletion from it**: the calls
succeed, the page stays well-formed, and its cells are those of the list. -/
theorem edits_refine (h : HoldsContent g m c) (hfuel : g.usableSize ≤ fuel)
    (hes : c.AllowsAll g m es) :
    ∃ m', Edits g fuel m es m' ∧ HoldsContent g m' (es.foldl Content.edit c) := by
  induction es generalizing m c with
  | nil => exact ⟨m, .nil m, h⟩
  | cons e es ih =>
    obtain ⟨m₁, hrun, h₁, hkind⟩ := h.edit hfuel hes.1
    obtain ⟨m', hedits, h'⟩ := ih h₁ (hes.2.sameKind hkind)
    exact ⟨m', .cons hrun hedits, h'⟩

/-- An index leaf of 512 bytes without cells. -/
def emptyLeaf : MemPage where
  hdrOffset := 0
  leaf := true
  intKey := false
  hasData := false
  maxLocal := 102
  minLocal := 39
  nCell := 0
  nFree := 504
  aData := blit (fun _ => 0) 0 [0x0a, 0, 0, 0, 0, 2, 0, 0]

/-- The file that it is in. -/
def geom512 : Geom where
  pageSize := 512
  usableSize := 512
  autoVacuum := false
  secureDelete := true
  mxPgno := 1000
  usable_ge := usable_512
  usable_le := self_512
  page_le := max_512
  page_pow := pow_512
  mxPgno_lt := lt_1000

theorem holdsContent_emptyLeaf : HoldsContent geom512 emptyLeaf ⟨[], 504⟩ := by
  have htop : emptyLeaf.top = 512 := by
    simp [MemPage.top, get2byteNotZero, get2, emptyLeaf, blit]
  have hchain : get2 emptyLeaf.aData 1 = 0 := by simp [get2, emptyLeaf, blit]
  have hcount : get2 emptyLeaf.aData 3 = 0 := by simp [get2, emptyLeaf, blit]
  refine ⟨[], [], ?_, rfl, rfl⟩
  refine wellFormedPage_of_nFree ?_ ?_ List.isChain_nil rfl
  · constructor
    case bounds => exact ⟨by decide, by decide⟩
    case nCell => rfl
    case header => exact hcount
    case pointers => exact fun i c hc => absurd hc (by simp)
    case holds => exact fun c hc => absurd hc (by simp)
    case isCell => exact fun c hc => absurd hc (by simp)
  · constructor
    case chain => exact hchain
    case apart => exact List.Pairwise.nil
    case inside => exact fun u hu => absurd hu (by simp [extents])
    case size_ge => exact fun u hu => absurd hu (by simp [extents])
    case le_top => rw [htop]; decide
    case count => rw [htop]; rfl

/-- Two cells are inserted and the second is removed. -/
theorem edits_refine_emptyLeaf : ∃ m', Edits geom512 512 emptyLeaf
    [.insert (fun _ => 0) 0 (fun i => [3, 1, 2, 3].getD i 0) 4 0,
      .insert (fun _ => 0) 0 (fun i => [4, 5, 6, 7, 8].getD i 0) 5 0, .drop 1 4] m' ∧
    HoldsContent geom512 m' ⟨[[4, 5, 6, 7, 8]], 497⟩ :=
  edits_refine holdsContent_emptyLeaf (by decide)
    ⟨⟨by decide, by decide, by decide, by decide, by decide⟩,
      ⟨by decide, by decide, by decide, by decide, by decide⟩, by rfl, trivial⟩

end Edits

end Btree

end SqliteVms

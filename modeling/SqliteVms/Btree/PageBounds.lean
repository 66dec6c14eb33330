import SqliteVms.Btree.CellList
import Mathlib.Data.List.TakeWhile

/-!
# Accesses to a page of arbitrary content

`btreeInitPage` checks the list of freeblocks of a page, but it does not check where its cells are. On
any page that it accepts the routines of `Space` read and write the usable part only, with two
exceptions: a block that is freed one byte behind the start of a freeblock overwrites the link of that
freeblock, and a cell may be allocated in the two bytes that its own pointer needs.

## Main definitions

* `Accepted` — what `btreeInitPage` checks
* `Safe` — a routine ends, and stays inside the page
* `AllocatesBehind`, `FreesApart` — where the routines do what they should

## Main results

* `Accepted.defragmentPage`, `Accepted.defragmentPage_corrupt` — when a page can be defragmented
* `page_routines_inside` — the three routines, on every page that is accepted
-/

namespace SqliteVms

namespace Btree

open Store BigEndian Extent

/-! ### What is checked -/

/-- What is known of a page and its freeblocks. -/
structure Accepted (g : Geom) (m : MemPage) (free : List (ℕ × ℕ)) : Prop where
  bounds : m.LocalBounds g
  chain : FreeChain m.aData (m.hdrOffset + 1) free
  separated : Separated free
  inside : ∀ u ∈ free, m.iCellFirst ≤ u.1 ∧ u.1 + 4 ≤ g.usableSize ∧ u.1 + u.2 ≤ g.usableSize
  first_le : m.iCellFirst ≤ g.usableSize
  top_le : m.top ≤ g.usableSize
  header : get2 m.aData (m.hdrOffset + 3) = m.nCell

section Accepted

variable {g : Geom} {m : MemPage} {data : ℕ → UInt8} {addr first last : ℕ}

/-- **The loop over the freeblocks** checks that they ascend and do not meet. -/
theorem sumFreeblocks_spec {fuel nFree n : ℕ}
    (haddr : first ≤ get2 data addr → 0 < get2 data addr → addr + 4 ≤ get2 data addr)
    (h : sumFreeblocks g data first last fuel (get2 data addr) nFree = some n) :
    ∃ us, FreeChain data addr us ∧ Separated us ∧ n = nFree + total us ∧
      ∀ u ∈ us, first ≤ u.1 ∧ u.1 ≤ last ∧ u.1 + u.2 ≤ g.usableSize := by
  induction fuel generalizing addr nFree with
  | zero => exact absurd h (by simp [sumFreeblocks])
  | succ fuel ih =>
    rw [sumFreeblocks] at h
    by_cases hzero : get2 data addr = 0
    · rw [if_pos hzero] at h
      exact ⟨[], hzero, List.isChain_nil, (Option.some.inj h).symm, by simp⟩
    rw [if_neg hzero] at h
    by_cases hoff : get2 data addr < first ∨ last < get2 data addr
    · exact absurd h (by simp [if_pos hoff])
    rw [if_neg hoff] at h
    dsimp only at h
    generalize hpc : get2 data addr = pc at *
    by_cases hbad : (0 < get2 data pc ∧ get2 data pc ≤ pc + get2 data (pc + 2) + 3) ∨
        g.usableSize < pc + get2 data (pc + 2)
    · exact absurd h (by simp [if_pos hbad])
    rw [if_neg hbad] at h
    obtain ⟨us, hchain, hsep, hsum, hin⟩ := ih (by omega) h
    refine ⟨(pc, get2 data (pc + 2)) :: us, ⟨hpc, rfl, haddr (by omega) (by omega), hchain⟩,
      List.isChain_cons.mpr ⟨fun v hv => ?_, hsep⟩, ?_, fun u hu => ?_⟩
    · have hnext := hchain.first
      cases us with
      | nil => exact absurd hv (by simp)
      | cons w us =>
        obtain rfl : w = v := by simpa using hv
        rw [target] at hnext
        have hpos := hchain.2.2.1
        dsimp only
        omega
    · rw [total_cons, hsum]
      omega
    · rcases List.mem_cons.mp hu with rfl | hu
      · dsimp only
        omega
      · exact hin u hu

/-- A page that `btreeInitPage` accepts. The bytes behind the usable part of a page are counted by
one byte of the file header. -/
theorem btreeInitPage_accepted {pgno : ℕ} (hreserve : g.pageSize ≤ g.usableSize + 255)
    (h : btreeInitPage g pgno data = some m) : ∃ free, Accepted g m free := by
  have hbounds := btreeInitPage_localBounds h
  have hge := g.usable_ge
  rw [btreeInitPage] at h
  have hhdr : (if pgno = 1 then 100 else 0) ≤ 100 := by split <;> omega
  generalize (if pgno = 1 then 100 else 0) = hdr at h hhdr
  split at h
  · exact absurd h (by simp)
  rename_i leaf intKey _
  dsimp only at h
  split at h
  · exact absurd h (by simp)
  rename_i hmany
  split at h
  · exact absurd h (by simp)
  rename_i nFree hsum
  split at h
  · exact absurd h (by simp)
  rename_i husable
  obtain rfl := Option.some.inj h
  obtain ⟨us, hchain, hsep, htotal, hin⟩ := sumFreeblocks_spec (by split <;> omega) hsum
  refine ⟨us, ?_⟩
  constructor
  case bounds => exact hbounds
  case chain => exact hchain
  case separated => exact hsep
  case inside =>
    intro u hu
    have := hin u hu
    exact ⟨this.1, by omega, this.2.2⟩
  case first_le =>
    show hdr + (if leaf = true then 8 else 12) + 2 * get2 data (hdr + 3) ≤ g.usableSize
    split <;> omega
  case top_le =>
    show get2byteNotZero data (hdr + 5) ≤ g.usableSize
    omega
  case header => rfl

end Accepted

/-! ### Defragmenting -/

/-- A routine ends, with a result or with `SQLITE_CORRUPT`, and no access is outside. -/
def Safe {α : Type} (r : Except Fault α) : Prop := ∀ e, r = .error e → e = .corrupt

theorem safe_ok {α : Type} (a : α) : Safe (.ok a) := fun _ h => by cases h

theorem safe_corrupt {α : Type} : Safe (.error .corrupt : Except Fault α) := fun _ h => by
  cases h
  rfl

section Defragment

variable {g : Geom} {m : MemPage} {data temp : ℕ → UInt8} {n i cbrk : ℕ}

variable (g m temp) in
/-- The cell that a pointer leads to in a copy of the page, when its size is read there. -/
def cellOf (i : ℕ) : ℕ × List UInt8 :=
  (get2 m.aData (m.cellOffset + 2 * i), slice temp (get2 m.aData (m.cellOffset + 2 * i))
    (cellSizePtr g m fun j => temp (get2 m.aData (m.cellOffset + 2 * i) + j)))

variable (g m temp) in
/-- The cells of all pointers. -/
def cellsOf : List (ℕ × List UInt8) := (List.range' 0 m.nCell).map (cellOf g m temp)

/-- The size that is read in a copy is the size of what is read. -/
theorem isCell_cellOf (hm : m.LocalBounds g) (i : ℕ) : IsCell g m (cellOf g m temp i).2 := by
  rw [IsCell, cellOf, length_slice]
  refine cellSizePtr_congr hm fun j _ hj => ?_
  rw [List.getD_eq_getElem _ _ (by rwa [length_slice]), getElem_slice]

theorem holds_cellOf (i : ℕ) : Holds temp (cellOf g m temp i).1 (cellOf g m temp i).2 := by
  rw [Holds, cellOf, length_slice]

/-- **The loop of `defragmentPage` comes to `SQLITE_CORRUPT`** unless all cells that are left are where
cells can be, and have room together. -/
theorem defragmentCells_corrupt (hm : m.LocalBounds g) (hcount : i + n ≤ m.nCell)
    (hcbrk : m.iCellFirst ≤ cbrk) (hle : cbrk ≤ g.usableSize)
    (hptr : ∀ j < n, get2 data (m.cellOffset + 2 * (i + j)) = get2 m.aData (m.cellOffset + 2 * (i + j)))
    (hbad : ¬ ((∀ c ∈ (List.range' i n).map (cellOf g m temp), Movable g m temp c) ∧
      m.iCellFirst + total (extents ((List.range' i n).map (cellOf g m temp))) ≤ cbrk)) :
    defragmentCells g m temp n i cbrk data = .error .corrupt := by
  induction n generalizing i cbrk data with
  | zero => exact absurd ⟨by simp, by simpa [extents] using hcbrk⟩ hbad
  | succ n ih =>
    have hfour : 4 ≤ (cellOf g m temp i).2.length := (isCell_cellOf hm i).four_le hm
    have hpc := hptr 0 (Nat.succ_pos n)
    have hlast : m.cellOffset + 2 * (i + n + 1) ≤ m.iCellFirst := by
      rw [MemPage.iCellFirst]
      omega
    rw [Nat.add_zero] at hpc
    rw [List.range'_succ, List.map_cons, List.forall_mem_cons, extents_cons, total_cons] at hbad
    rw [defragmentCells, load2_ok (by omega), ok_bind, hpc]
    generalize hc : cellOf g m temp i = c at *
    have hpc' : get2 m.aData (m.cellOffset + 2 * i) = c.1 := by rw [← hc, cellOf]
    have hsize : cellSizePtr g m (fun j => temp (c.1 + j)) = c.2.length := by
      rw [← hc, cellOf, length_slice]
    have hholds : Holds temp c.1 c.2 := hc ▸ holds_cellOf i
    rw [hpc']
    by_cases hoff : c.1 < m.iCellFirst ∨ g.usableSize - 4 < c.1
    · rw [if_pos hoff]
    rw [if_neg hoff, cellSizeAt, if_pos (by omega), ok_bind, hsize]
    by_cases hroom : cbrk < m.iCellFirst + c.2.length ∨ g.usableSize < c.1 + c.2.length
    · rw [if_pos hroom]
    rw [if_neg hroom, store_ok (by rw [length_slice]; omega), ok_bind, store2_ok (by omega), ok_bind]
    refine ih (by omega) (by omega) (by omega) (fun j hj => ?_) fun hgood => hbad ⟨⟨?_, hgood.1⟩, ?_⟩
    · have hsame := hptr (j + 1) (by omega)
      rw [show i + (j + 1) = i + 1 + j by omega] at hsame
      rw [get2_put2_of_disjoint (by omega), get2_blit_of_disjoint (by omega), hsame]
    · exact ⟨by omega, by omega, hfour, hholds, hc ▸ isCell_cellOf hm i⟩
    · have := hgood.2
      dsimp only
      omega

variable (g m temp) in
/-- The cells, with their sizes as they are read, are where cells can be and leave `nFree` bytes. -/
def Packable : Prop :=
  (∀ c ∈ cellsOf g m (copied g m temp), m.iCellFirst ≤ c.1 ∧ c.1 + c.2.length ≤ g.usableSize) ∧
    m.nFree + m.iCellFirst + total (extents (cellsOf g m (copied g m temp))) = g.usableSize

theorem movable_cellsOf (hm : m.LocalBounds g) :
    (∀ c ∈ cellsOf g m temp, Movable g m temp c) ↔
      ∀ c ∈ cellsOf g m temp, m.iCellFirst ≤ c.1 ∧ c.1 + c.2.length ≤ g.usableSize := by
  constructor
  · exact fun h c hc => ⟨(h c hc).ge, (h c hc).le⟩
  · intro h c hc
    obtain ⟨hge, hle⟩ := h c hc
    obtain ⟨i, -, rfl⟩ := List.mem_map.mp hc
    exact ⟨hge, hle, (isCell_cellOf hm i).four_le hm, holds_cellOf i, isCell_cellOf hm i⟩

theorem length_cellsOf : (cellsOf g m temp).length = m.nCell := by simp [cellsOf]

theorem cellsOf_pointers {c : ℕ × List UInt8} (h : (cellsOf g m temp)[i]? = some c) :
    get2 m.aData (m.cellOffset + 2 * i) = c.1 := by
  rw [cellsOf, List.getElem?_map] at h
  obtain ⟨j, hj, rfl⟩ := Option.map_eq_some_iff.mp h
  obtain ⟨hlt, rfl⟩ := List.getElem?_eq_some_iff.mp hj
  simp [cellOf]

variable {free : List (ℕ × ℕ)}

theorem Accepted.raw_le (ha : Accepted g m free) : get2 m.aData (m.hdrOffset + 5) ≤ g.usableSize :=
  (get2_le_get2byteNotZero _ _).trans ha.top_le

/-- **A page that can be defragmented is well-formed then**, whatever it was before. -/
theorem Accepted.defragmentPage (ha : Accepted g m free) (hp : Packable g m temp) :
    ∃ data cells, defragmentPage g temp m = .ok (m.withData data) ∧
      WellFormedPage g (m.withData data) cells [] ∧
      (m.withData data).top = m.iCellFirst + m.nFree := by
  obtain ⟨data, hrun, hcells, htiled, htop⟩ := defragmentPage_of_movable ha.bounds
    length_cellsOf.symm (ha.header.trans length_cellsOf.symm) (fun i c => cellsOf_pointers)
    ((movable_cellsOf ha.bounds).mpr hp.1) hp.2 ha.raw_le
  refine ⟨data, _, hrun, wellFormedPage_of_nFree hcells htiled List.isChain_nil ?_, htop⟩
  rw [total_packed]
  exact hp.2

/-- Any other page is found to be corrupt. -/
theorem Accepted.defragmentPage_corrupt (ha : Accepted g m free) (hp : ¬ Packable g m temp) :
    Btree.defragmentPage g temp m = .error .corrupt := by
  by_cases hall : (∀ c ∈ cellsOf g m (copied g m temp), Movable g m (copied g m temp) c) ∧
      m.iCellFirst + total (extents (cellsOf g m (copied g m temp))) ≤ g.usableSize
  · obtain ⟨data, hrun, -⟩ := defragmentCells_spec m.aData 0 ha.bounds hall.1
      (fun j c hj => by rw [Nat.zero_add]; exact cellsOf_pointers hj) hall.2 le_rfl
      (by rw [length_cellsOf, Nat.zero_add])
    rw [length_cellsOf] at hrun
    rw [defragmentPage_of_run hrun (by omega) (by omega) ha.raw_le, if_pos]
    intro heq
    exact hp ⟨(movable_cellsOf ha.bounds).mp hall.1, by omega⟩
  · have hfirst := ha.first_le
    have hhdr := m.hdr_add_eight_le
    rw [Btree.defragmentPage, load2_ok (by omega), ok_bind, if_neg (by have := ha.raw_le; omega)]
    show (defragmentCells g m (copied g m temp) m.nCell 0 g.usableSize m.aData >>= _) = _
    rw [defragmentCells_corrupt ha.bounds (by omega) hfirst le_rfl (fun j _ => by rw [Nat.zero_add])
      hall]
    rfl

end Defragment

/-! ### Allocating -/

/-- The freeblocks of a page. -/
def MemPage.freeList (g : Geom) (m : MemPage) : List (ℕ × ℕ) :=
  freeblocks m.aData g.usableSize (get2 m.aData (m.hdrOffset + 1))

/-- The freeblock that `allocateSpace` takes: the first that is large enough, unless there are many
fragments or the gap is not two bytes wide. -/
def firstFit (g : Geom) (m : MemPage) (nByte : ℕ) : Option (ℕ × ℕ) :=
  if (m.aData (m.hdrOffset + 7)).toNat < 60 ∧ m.iCellFirst + 2 ≤ m.top then
    (m.freeList g).find? fun u => nByte ≤ u.2
  else none

/-- What is allocated begins behind the next cell pointer, or the page is found to be corrupt. -/
def AllocatesBehind (g : Geom) (m : MemPage) (temp : ℕ → UInt8) (nByte : ℕ) : Prop :=
  m.top < m.iCellFirst ∨
    match firstFit g m nByte with
    | some u => m.iCellFirst + 2 ≤ u.1 + (u.2 - nByte)
    | none => ((m.aData (m.hdrOffset + 7)).toNat < 60 ∧ m.iCellFirst + 2 + nByte ≤ m.top) ∨
      nByte + 2 ≤ m.nFree ∨ ¬ Packable g m temp

section Allocate

variable {g : Geom} {m : MemPage} {data temp : ℕ → UInt8} {free us : List (ℕ × ℕ)}
  {addr nByte nFrag top fuel : ℕ}

theorem FreeChain.length_le {hi : ℕ} (h : FreeChain data addr us) (hin : ∀ u ∈ us, u.1 ≤ hi)
    (haddr : addr ≤ hi) : 4 * us.length + addr ≤ hi := by
  induction us generalizing addr with
  | nil => simpa using haddr
  | cons u us ih =>
    have := ih h.2.2.2 (fun v hv => hin v (List.mem_cons_of_mem _ hv)) (hin u List.mem_cons_self)
    have := h.2.2.1
    rw [List.length_cons]
    omega

theorem FreeChain.freeblocks_eq (h : FreeChain data addr us) (hfuel : us.length ≤ fuel) :
    freeblocks data fuel (get2 data addr) = us := by
  induction us generalizing addr fuel with
  | nil =>
    rw [show get2 data addr = 0 from h]
    cases fuel <;> rfl
  | cons u us ih =>
    obtain ⟨fuel, rfl⟩ := Nat.exists_eq_succ_of_ne_zero (show fuel ≠ 0 by simp at hfuel; omega)
    obtain ⟨hu, hsize, hadd, hrest⟩ := h
    rw [hu, freeblocks, if_neg (by omega), hsize, ih hrest (by simpa using hfuel)]

theorem Accepted.hdr_le (ha : Accepted g m free) : m.hdrOffset + 8 ≤ g.usableSize :=
  m.hdr_add_eight_le.trans ha.first_le

theorem Accepted.length_lt (ha : Accepted g m free) : free.length + 1 < g.usableSize := by
  have hge := g.usable_ge
  have hhdr := ha.hdr_le
  have hlen : 4 * free.length + (m.hdrOffset + 1) ≤ g.usableSize :=
    ha.chain.length_le (fun u hu => by have := ha.inside u hu; omega) (by omega)
  omega

theorem Accepted.freeList_eq (ha : Accepted g m free) : m.freeList g = free :=
  ha.chain.freeblocks_eq (by have := ha.length_lt; omega)

variable (nByte nFrag) in
/-- **The search for a slot** finds the first that is large enough. -/
theorem findSlot_of_chain (hchain : FreeChain m.aData addr us)
    (hin : ∀ u ∈ us, u.1 + 4 ≤ g.usableSize ∧ u.1 + u.2 ≤ g.usableSize)
    (haddr : addr + 2 ≤ g.usableSize) (hhdr : m.hdrOffset + 8 ≤ g.usableSize)
    (hfuel : us.length < fuel) :
    (us.find? (fun u => nByte ≤ u.2) = none ∧ findSlot g m nByte nFrag fuel addr = .ok none) ∨
      ∃ u m', us.find? (fun u => nByte ≤ u.2) = some u ∧
        findSlot g m nByte nFrag fuel addr = .ok (some (m', u.1 + (u.2 - nByte))) := by
  induction us generalizing addr fuel with
  | nil =>
    obtain ⟨fuel, rfl⟩ := Nat.exists_eq_succ_of_ne_zero (Nat.ne_zero_of_lt hfuel)
    rw [findSlot, load2_ok haddr, ok_bind, show get2 m.aData addr = 0 from hchain, if_pos rfl]
    exact Or.inl ⟨rfl, rfl⟩
  | cons u us ih =>
    obtain ⟨fuel, rfl⟩ := Nat.exists_eq_succ_of_ne_zero (Nat.ne_zero_of_lt hfuel)
    obtain ⟨hu, hsize, hadd, hrest⟩ := hchain
    obtain ⟨hfour, hle⟩ := hin u List.mem_cons_self
    rw [findSlot, load2_ok haddr, ok_bind, hu, if_neg (by omega), if_neg (by omega),
      load2_ok (by omega), ok_bind, hsize]
    by_cases hfit : nByte ≤ u.2
    · have hfind : (u :: us).find? (fun u => nByte ≤ u.2) = some u :=
        List.find?_cons_of_pos (by simpa using hfit)
      rw [if_pos hfit]
      dsimp only
      by_cases hsmall : u.2 - nByte < 4
      · rw [if_pos hsmall, loads_ok (by omega), ok_bind, store_ok (by rwa [length_slice]), ok_bind,
          store_ok (by simp; omega), ok_bind]
        exact Or.inr ⟨u, _, hfind, rfl⟩
      · rw [if_neg hsmall, if_neg (by omega), store2_ok (by omega), ok_bind]
        exact Or.inr ⟨u, _, hfind, rfl⟩
    · rw [if_neg hfit, List.find?_cons_of_neg (by simpa using hfit)]
      exact ih hrest (fun v hv => hin v (List.mem_cons_of_mem _ hv)) (by omega)
        (Nat.lt_of_succ_lt_succ hfuel)

theorem takeGap_ok (hle : nByte ≤ top) (hhdr : m.hdrOffset + 8 ≤ g.usableSize) :
    ∃ m', takeGap g m nByte top = .ok (m', top - nByte) := by
  rw [Btree.takeGap, if_neg (by omega), store2_ok (by omega), ok_bind]
  exact ⟨_, rfl⟩

section Accepted

variable (ha : Accepted g m free) (temp)

include ha

/-- The end of `allocateSpace`: the gap has room, or the page is defragmented. -/
theorem Accepted.allocateGap (hle : nByte ≤ m.nFree) :
    (allocateGap g temp m nByte m.top = .error .corrupt ∧ ¬ Packable g m temp) ∨
      ∃ r, allocateGap g temp m nByte m.top = .ok r ∧ r.2 + nByte ≤ g.usableSize ∧
        (m.iCellFirst + 2 ≤ r.2 ↔ m.iCellFirst + 2 + nByte ≤ m.top ∨ nByte + 2 ≤ m.nFree ∨
          ¬ Packable g m temp) := by
  have hhdr := ha.hdr_le
  have htop := ha.top_le
  rw [Btree.allocateGap]
  by_cases hgap : m.top < m.iCellFirst + 2 + nByte
  · rw [if_pos hgap]
    by_cases hp : Packable g m temp
    · obtain ⟨data, cells, hrun, hpage, htop'⟩ := ha.defragmentPage hp
      have hfree := hpage.nFree_add
      obtain ⟨m', hm'⟩ := takeGap_ok (g := g) (m := m.withData data)
        (show nByte ≤ m.iCellFirst + m.nFree by omega) hhdr
      rw [hrun, ok_bind, load2NotZero_ok (show m.hdrOffset + 5 + 2 ≤ _ by omega), ok_bind,
        show get2byteNotZero (m.withData data).aData (m.hdrOffset + 5) = _ from htop']
      refine Or.inr ⟨_, hm', ?_, ?_⟩
      · have hsum : m.nFree + m.iCellFirst + _ = g.usableSize := hfree
        dsimp only
        omega
      · simp only [hp, not_true_eq_false, or_false]
        omega
    · rw [ha.defragmentPage_corrupt hp]
      exact Or.inl ⟨rfl, hp⟩
  · obtain ⟨m', hm'⟩ := takeGap_ok (g := g) (m := m) (show nByte ≤ m.top by omega) hhdr
    rw [if_neg hgap]
    refine Or.inr ⟨_, hm', by dsimp only; omega, ?_⟩
    dsimp only
    omega

/-- A page of many fragments is defragmented first. -/
theorem Accepted.defragment_allocateGap (hle : nByte ≤ m.nFree) (hp : Packable g m temp) :
    ∃ m₁, Btree.defragmentPage g temp m = .ok m₁ ∧
      load2NotZero g m₁.aData (m.hdrOffset + 5) = .ok m₁.top ∧
      ∃ r, Btree.allocateGap g temp m₁ nByte m₁.top = .ok r ∧ r.2 + nByte ≤ g.usableSize ∧
        (m.iCellFirst + 2 ≤ r.2 ↔ nByte + 2 ≤ m.nFree) := by
  have hhdr := ha.hdr_le
  obtain ⟨data, cells, hrun, hpage, htop⟩ := ha.defragmentPage hp
  refine ⟨m.withData data, hrun, load2NotZero_ok (by omega), ?_⟩
  have hsum : m.nFree + m.iCellFirst + _ = g.usableSize := hpage.nFree_add
  rw [Btree.allocateGap, htop]
  show ∃ r, (if m.iCellFirst + m.nFree < m.iCellFirst + 2 + nByte then _ else _) = _ ∧ _
  by_cases hgap : m.iCellFirst + m.nFree < m.iCellFirst + 2 + nByte
  · obtain ⟨data', hrun', -, -, htop'⟩ :=
      defragmentPage_spec hpage.cellsAt hpage.tiled hpage.nFree_add temp
    obtain ⟨m', hm'⟩ := takeGap_ok (g := g) (m := (m.withData data).withData data')
      (show nByte ≤ m.iCellFirst + m.nFree by omega) hhdr
    rw [if_pos hgap, hrun', ok_bind, load2NotZero_ok (show m.hdrOffset + 5 + 2 ≤ _ by omega), ok_bind,
      show get2byteNotZero ((m.withData data).withData data').aData (m.hdrOffset + 5) = _ from htop']
    exact ⟨_, hm', by dsimp only; omega, by dsimp only; omega⟩
  · obtain ⟨m', hm'⟩ := takeGap_ok (g := g) (m := m.withData data)
      (show nByte ≤ m.iCellFirst + m.nFree by omega) hhdr
    rw [if_neg hgap]
    exact ⟨_, hm', by dsimp only; omega, by dsimp only; omega⟩

/-- **`allocateSpace` on a page of any content.** -/
theorem Accepted.allocateSpace (hle : nByte ≤ m.nFree) :
    (Btree.allocateSpace g temp m nByte = .error .corrupt ∧ AllocatesBehind g m temp nByte) ∨
      ∃ r, Btree.allocateSpace g temp m nByte = .ok r ∧ r.2 + nByte ≤ g.usableSize ∧
        (m.iCellFirst + 2 ≤ r.2 ↔ AllocatesBehind g m temp nByte) := by
  have hhdr := ha.hdr_le
  have htop : load2NotZero g m.aData (m.hdrOffset + 5) = .ok m.top := load2NotZero_ok (by omega)
  rw [Btree.allocateSpace]
  dsimp only
  rw [load_ok (by omega), ok_bind, htop, ok_bind, AllocatesBehind, firstFit, ha.freeList_eq]
  by_cases hlow : m.top < m.iCellFirst
  · rw [if_pos hlow]
    exact Or.inl ⟨rfl, Or.inl hlow⟩
  rw [if_neg hlow]
  by_cases hmany : 60 ≤ (m.aData (m.hdrOffset + 7)).toNat
  · rw [if_pos hmany, if_neg (by omega)]
    dsimp only
    by_cases hp : Packable g m temp
    · obtain ⟨m₁, hrun, hload, r, hgap, hroom, hiff⟩ := ha.defragment_allocateGap temp hle hp
      rw [hrun, ok_bind, hload, ok_bind, hgap]
      refine Or.inr ⟨r, rfl, hroom, hiff.trans ?_⟩
      simp only [hp, not_true_eq_false, or_false]
      omega
    · rw [ha.defragmentPage_corrupt hp]
      exact Or.inl ⟨rfl, Or.inr (Or.inr (Or.inr hp))⟩
  rw [if_neg hmany]
  have hlt : (m.aData (m.hdrOffset + 7)).toNat < 60 := by omega
  by_cases htwo : m.iCellFirst + 2 ≤ m.top
  · rw [if_pos htwo, if_pos ⟨hlt, htwo⟩]
    have hsearch := findSlot_of_chain nByte (m.aData (m.hdrOffset + 7)).toNat ha.chain
      (fun u hu => (ha.inside u hu).2) (by omega) hhdr
      (show free.length < g.usableSize by have := ha.length_lt; omega)
    rcases hsearch with ⟨hnone, hrun⟩ | ⟨u, m', hsome, hrun⟩
    · rw [hnone, hrun, ok_bind]
      rcases ha.allocateGap temp hle with ⟨hgap, hp⟩ | ⟨r, hgap, hroom, hiff⟩
      · exact Or.inl ⟨hgap, Or.inr (Or.inr (Or.inr hp))⟩
      · refine Or.inr ⟨r, hgap, hroom, hiff.trans ?_⟩
        simp only [hlow, hlt, true_and, false_or]
    · have hu := ha.inside u (List.mem_of_find?_eq_some hsome)
      have hfit : nByte ≤ u.2 := by simpa using List.find?_some hsome
      rw [hsome, hrun, ok_bind]
      refine Or.inr ⟨_, rfl, by dsimp only; omega, ?_⟩
      simp only [hlow, false_or]
  · rw [if_neg htwo, if_neg fun h => htwo h.2]
    dsimp only
    rcases ha.allocateGap temp hle with ⟨hgap, hp⟩ | ⟨r, hgap, hroom, hiff⟩
    · exact Or.inl ⟨hgap, Or.inr (Or.inr (Or.inr hp))⟩
    · refine Or.inr ⟨r, hgap, hroom, hiff.trans ?_⟩
      simp only [hlow, hlt, true_and, false_or]

end Accepted

end Allocate

/-! ### Freeing -/

/-- The link at `addr` leads through the freeblocks, whatever their sizes are, and the last link holds
`n`. -/
def Links (data : ℕ → UInt8) : ℕ → List (ℕ × ℕ) → ℕ → Prop
  | addr, [], n => get2 data addr = n
  | addr, u :: us, n => get2 data addr = u.1 ∧ addr + 2 ≤ u.1 ∧ Links data u.1 us n

/-- The list ends, or its last block ends behind the next one, which `freeSpace` takes for corrupt. -/
def EndsAt (data : ℕ → UInt8) (us : List (ℕ × ℕ)) (n : ℕ) : Prop :=
  n = 0 ∨ 0 < n ∧ ∃ u, us.getLast? = some u ∧ n < u.1 + get2 data (u.1 + 2) ∧
    u.1 + get2 data (u.1 + 2) ≤ 65536

section Links

variable {g : Geom} {data data' : ℕ → UInt8} {us pre post : List (ℕ × ℕ)} {addr n hdr lo fuel : ℕ}

theorem FreeChain.links (h : FreeChain data addr (pre ++ post)) :
    Links data addr pre (target post) := by
  induction pre generalizing addr with
  | nil => exact FreeChain.first h
  | cons u pre ih => exact ⟨h.1, by have := h.2.2.1; omega, ih h.2.2.2⟩

theorem Links.congr (h : Links data addr us n) (haddr : get2 data' addr = get2 data addr)
    (hus : ∀ u ∈ us, get2 data' u.1 = get2 data u.1) : Links data' addr us n := by
  induction us generalizing addr with
  | nil => exact haddr.trans h
  | cons u us ih =>
    exact ⟨haddr.trans h.1, h.2.1, ih h.2.2 (hus u List.mem_cons_self) fun v hv =>
      hus v (List.mem_cons_of_mem _ hv)⟩

theorem Links.add_two_le (h : Links data addr us n) {u : ℕ × ℕ} (hu : u ∈ us) : addr + 2 ≤ u.1 := by
  induction us generalizing addr with
  | nil => exact absurd hu (by simp)
  | cons v us ih =>
    rcases List.mem_cons.mp hu with rfl | hu
    · exact h.2.1
    · have := ih h.2.2 hu
      have := h.2.1
      omega

theorem Links.le_lastLink (h : Links data addr us n) : addr ≤ lastLink addr us := by
  induction us generalizing addr with
  | nil => exact le_rfl
  | cons u us ih => exact (Nat.le_of_add_right_le h.2.1).trans (ih h.2.2)

/-- The list with another end, when what is before its last link is as it was. -/
theorem Links.splice {n' : ℕ} (h : Links data addr pre n)
    (hkeep : ∀ off, off + 2 ≤ lastLink addr pre → get2 data' off = get2 data off)
    (hpost : Links data' (lastLink addr pre) post n') : Links data' addr (pre ++ post) n' := by
  induction pre generalizing addr with
  | nil => exact hpost
  | cons u pre ih =>
    have hle := h.2.2.le_lastLink
    have hadd := h.2.1
    exact ⟨(hkeep addr (by rw [lastLink]; omega)).trans h.1, hadd, ih h.2.2 hkeep hpost⟩

/-- **The search for the place of a block** stays in the list. -/
theorem findGap_of_links {start : ℕ} (h : Links data addr us n)
    (hus : ∀ u ∈ us, 0 < u.1 ∧ u.1 < start ∧ u.1 + 2 ≤ g.usableSize) (hn : n = 0 ∨ start ≤ n)
    (haddr : addr + 2 ≤ g.usableSize) (hfuel : us.length < fuel) :
    findGap g data start fuel addr = .error .corrupt ∨
      findGap g data start fuel addr = .ok (lastLink addr us, n) := by
  induction us generalizing addr fuel with
  | nil =>
    obtain ⟨fuel, rfl⟩ := Nat.exists_eq_succ_of_ne_zero (Nat.ne_zero_of_lt hfuel)
    rw [findGap, load2_ok haddr, ok_bind, show get2 data addr = n from h, if_neg (by omega)]
    exact Or.inr rfl
  | cons u us ih =>
    obtain ⟨fuel, rfl⟩ := Nat.exists_eq_succ_of_ne_zero (Nat.ne_zero_of_lt hfuel)
    obtain ⟨hu, hadd, hrest⟩ := h
    obtain ⟨hpos, hlt, hle⟩ := hus u List.mem_cons_self
    rw [findGap, load2_ok haddr, ok_bind, hu, if_pos ⟨hlt, hpos⟩]
    by_cases hnear : u.1 < addr + 4
    · rw [if_pos hnear]
      exact Or.inl rfl
    · rw [if_neg hnear]
      exact ih hrest (fun v hv => hus v (List.mem_cons_of_mem _ hv)) hle (Nat.lt_of_succ_lt_succ hfuel)

/-- The bytes of the page when two freeblocks are put together and the header counts `b` fragments. -/
def joinBytes (hdr : ℕ) (data : ℕ → UInt8) (u v : ℕ × ℕ) (b : UInt8) : ℕ → UInt8 :=
  put2 (put2 (blit data (hdr + 7) [b]) u.1 (get2 data v.1)) (u.1 + 2)
    (v.1 + get2 data (v.1 + 2) - u.1)

section Join

variable {u v : ℕ × ℕ} (b : UInt8)

theorem joinBytes_outside {p : ℕ} (hp : p ≠ hdr + 7) (hp' : p < u.1 ∨ u.1 + 4 ≤ p) :
    joinBytes hdr data u v b p = data p := by
  rw [joinBytes, put2_outside (by omega), put2_outside (by omega), blit_outside (by simp; omega)]

theorem get2_joinBytes {off : ℕ} (hoff : off + 2 ≤ hdr + 7 ∨ hdr + 8 ≤ off)
    (hoff' : off + 2 ≤ u.1 ∨ u.1 + 4 ≤ off) :
    get2 (joinBytes hdr data u v b) off = get2 data off :=
  get2_congr fun i hi => joinBytes_outside b (by omega) (by omega)

theorem joinBytes_next : get2 (joinBytes hdr data u v b) u.1 = get2 data v.1 := by
  rw [joinBytes, get2_put2_of_disjoint (by omega), get2_put2_self _ _ (get2_lt _ _)]

theorem joinBytes_size (hlt : v.1 + get2 data (v.1 + 2) - u.1 < 2 ^ 16) :
    get2 (joinBytes hdr data u v b) (u.1 + 2) = v.1 + get2 data (v.1 + 2) - u.1 :=
  get2_put2_self _ _ hlt

variable (h : Links data addr (u :: v :: us) n) (hu : hdr + 8 ≤ u.1)

include h hu

/-- The list stays one. -/
theorem Links.join (haddr : addr = hdr + 1 ∨ hdr + 8 ≤ addr) :
    Links (joinBytes hdr data u v b) addr (u :: us) n := by
  obtain ⟨hfirst, hadd, hnext, haddv, hrest⟩ := h
  refine ⟨(get2_joinBytes b (by omega) (by omega)).trans hfirst, hadd, ?_⟩
  cases us with
  | nil => exact (joinBytes_next b).trans hrest
  | cons w us =>
    obtain ⟨hw, haddw, hrest'⟩ := hrest
    refine ⟨(joinBytes_next b).trans hw, by omega,
      hrest'.congr (get2_joinBytes b (by omega) (by omega)) fun x hx => ?_⟩
    have := hrest'.add_two_le hx
    exact get2_joinBytes b (by omega) (by omega)

/-- So does its end. -/
theorem Links.join_endsAt (hend : EndsAt data (u :: v :: us) n) :
    EndsAt (joinBytes hdr data u v b) (u :: us) n := by
  rcases hend with hzero | ⟨hpos, w, hw, hlt, hle⟩
  · exact Or.inl hzero
  obtain ⟨-, -, -, haddv, hrest⟩ := h
  cases us with
  | nil =>
    obtain rfl : v = w := by simpa using hw
    have hsize : get2 (joinBytes hdr data u v b) (u.1 + 2) = v.1 + get2 data (v.1 + 2) - u.1 :=
      joinBytes_size b (by omega)
    exact Or.inr ⟨hpos, u, rfl, by omega, by omega⟩
  | cons x us =>
    have hmem : w ∈ x :: us := List.mem_of_getLast? hw
    have hle' := hrest.add_two_le hmem
    have hsize : get2 (joinBytes hdr data u v b) (w.1 + 2) = get2 data (w.1 + 2) :=
      get2_joinBytes b (by omega) (by omega)
    exact Or.inr ⟨hpos, w, hw, by omega, by omega⟩

end Join

variable (fuel) in
/-- One round for two blocks that are near. -/
theorem coalesce_near {u v : ℕ × ℕ} (h : Links data addr (u :: v :: us) n)
    (hu : hdr + 8 ≤ u.1 ∧ u.1 + 4 ≤ g.usableSize) (hv : v.1 + 4 ≤ g.usableSize)
    (hle : addr + 2 ≤ g.usableSize) (hhdr : hdr + 8 ≤ g.usableSize)
    (hnear : v.1 ≤ u.1 + get2 data (u.1 + 2) + 3) :
    coalesce g hdr (fuel + 1) addr data = .error .corrupt ∨ ∃ b,
      coalesce g hdr (fuel + 1) addr data = coalesce g hdr fuel addr (joinBytes hdr data u v b) := by
  obtain ⟨hfirst, hadd, hnext, haddv, -⟩ := h
  rw [coalesce, load2_ok hle, ok_bind, hfirst, if_neg (by omega), load2_ok (by omega), ok_bind,
    load2_ok (by omega), ok_bind, hnext, if_pos ⟨hnear, by omega⟩, load_ok (by omega), ok_bind]
  dsimp only
  split
  · exact Or.inl rfl
  generalize data (hdr + 7) - UInt8.ofNat (v.1 - (u.1 + get2 data (u.1 + 2))) = b
  refine Or.inr ⟨b, ?_⟩
  have hsize : get2 (put2 (blit data (hdr + 7) [b]) u.1 (get2 data v.1)) (v.1 + 2)
      = get2 data (v.1 + 2) := by
    rw [get2_put2_of_disjoint (by omega), get2_blit_of_disjoint (by simp; omega)]
  have hlink : get2 (blit data (hdr + 7) [b]) v.1 = get2 data v.1 :=
    get2_blit_of_disjoint (by simp; omega)
  rw [store_ok (by simp; omega), ok_bind, load2_ok (by omega), ok_bind, store2_ok (by omega), ok_bind,
    load2_ok (by omega), ok_bind, store2_ok (by omega), ok_bind, hlink, hsize, joinBytes]

/-- **Adjacent freeblocks are put together** inside of the page, and the header keeps its first
freeblock. -/
theorem coalesce_of_links (h : Links data addr us n)
    (hus : ∀ u ∈ us, hdr + 8 ≤ u.1 ∧ u.1 + 4 ≤ g.usableSize) (hend : EndsAt data us n)
    (haddr : addr = hdr + 1 ∨ hdr + 8 ≤ addr) (hle : addr + 2 ≤ g.usableSize)
    (hhdr : hdr + 8 ≤ g.usableSize) (hfuel : us.length < fuel) :
    coalesce g hdr fuel addr data = .error .corrupt ∨
      ∃ data', coalesce g hdr fuel addr data = .ok data' ∧ ∀ q < hdr + 7, data' q = data q := by
  induction fuel generalizing addr data us with
  | zero => exact absurd hfuel (Nat.not_lt_zero _)
  | succ fuel ih =>
    cases us with
    | nil =>
      have hzero : n = 0 := by
        rcases hend with hzero | ⟨-, u, hu, -⟩
        · exact hzero
        · exact absurd hu (by simp)
      rw [coalesce, load2_ok hle, ok_bind, show get2 data addr = n from h, if_pos hzero]
      exact Or.inr ⟨data, rfl, fun _ _ => rfl⟩
    | cons u us =>
      obtain ⟨hlo, hhi⟩ := hus u List.mem_cons_self
      by_cases hnear : get2 data u.1 ≤ u.1 + get2 data (u.1 + 2) + 3 ∧ 0 < get2 data u.1
      · cases us with
        | nil =>
          -- only a block that ends behind the next one is near it
          obtain ⟨hu, hadd, hn⟩ := h
          have hn : get2 data u.1 = n := hn
          rcases hend with hzero | ⟨-, w, hw, hlt, -⟩
          · omega
          · obtain rfl : u = w := by simpa using hw
            rw [coalesce, load2_ok hle, ok_bind, hu, if_neg (by omega), load2_ok (by omega), ok_bind,
              load2_ok (by omega), ok_bind, if_pos hnear, load_ok (by omega), ok_bind]
            dsimp only
            rw [if_pos (by omega)]
            exact Or.inl rfl
        | cons v us =>
          have hv := hus v (List.mem_cons_of_mem _ List.mem_cons_self)
          rcases coalesce_near fuel h ⟨hlo, hhi⟩ hv.2 hle hhdr (by rw [← h.2.2.1]; exact hnear.1)
            with hbad | ⟨b, hstep⟩
          · exact Or.inl hbad
          rw [hstep]
          have hmore := ih (h.join b hlo haddr)
            (fun w hw => hus w (by rcases List.mem_cons.mp hw with rfl | hw <;> simp [*]))
            (h.join_endsAt b hlo hend) haddr hle (by simp only [List.length_cons] at hfuel ⊢; omega)
          refine hmore.imp_right ?_
          rintro ⟨data', hrun, hkeep⟩
          exact ⟨data', hrun, fun q hq =>
            (hkeep q hq).trans (joinBytes_outside b (by omega) (by omega))⟩
      · obtain ⟨hu, hadd, hrest⟩ := h
        rw [coalesce, load2_ok hle, ok_bind, hu, if_neg (by omega), load2_ok (by omega), ok_bind,
          load2_ok (by omega), ok_bind, if_neg hnear]
        refine ih hrest (fun v hv => hus v (List.mem_cons_of_mem _ hv)) ?_ (Or.inr hlo) (by omega)
          (Nat.lt_of_succ_lt_succ hfuel)
        rcases hend with hzero | ⟨hpos, w, hw, hlt, hsum⟩
        · exact Or.inl hzero
        cases us with
        | nil =>
          obtain rfl : u = w := by simpa using hw
          have hn : get2 data u.1 = n := hrest
          omega
        | cons v us => exact Or.inr ⟨hpos, w, hw, hlt, hsum⟩

theorem dropFirst_ok {p : ℕ} (hp : get2 data (hdr + 1) = p) (hle : p + 4 ≤ g.usableSize)
    (hhdr : hdr + 8 ≤ g.usableSize) : ∃ data', dropFirst g hdr data = .ok data' := by
  rw [dropFirst, loads_ok (by omega), ok_bind, loads_ok (by omega), ok_bind]
  split
  · rw [load2_ok (by omega), ok_bind, hp, loads_ok (by omega), ok_bind,
      store_ok (by rw [length_slice]; omega), ok_bind, load2_ok (by omega), ok_bind,
      load2_ok (by omega), ok_bind, store2_ok (by omega)]
    exact ⟨_, rfl⟩
  · exact ⟨_, rfl⟩

/-- A link that leads backwards is found before anything is written. -/
theorem findGap_backwards {start : ℕ} (h : Links data addr us n)
    (hus : ∀ u ∈ us, 0 < u.1 ∧ u.1 < start ∧ u.1 + 2 ≤ g.usableSize) (hpos : 0 < n) (hn : n < start)
    (hback : n < lastLink addr us + 4) (haddr : addr + 2 ≤ g.usableSize) (hfuel : us.length < fuel) :
    findGap g data start fuel addr = .error .corrupt := by
  induction us generalizing addr fuel with
  | nil =>
    obtain ⟨fuel, rfl⟩ := Nat.exists_eq_succ_of_ne_zero (Nat.ne_zero_of_lt hfuel)
    rw [findGap, load2_ok haddr, ok_bind, show get2 data addr = n from h, if_pos ⟨hn, hpos⟩]
    exact if_pos hback
  | cons u us ih =>
    obtain ⟨fuel, rfl⟩ := Nat.exists_eq_succ_of_ne_zero (Nat.ne_zero_of_lt hfuel)
    obtain ⟨hu, -, hrest⟩ := h
    obtain ⟨hpos', hlt, hle⟩ := hus u List.mem_cons_self
    rw [findGap, load2_ok haddr, ok_bind, hu, if_pos ⟨hlt, hpos'⟩]
    split
    · rfl
    · exact ih hrest (fun v hv => hus v (List.mem_cons_of_mem _ hv)) hback hle
        (Nat.lt_of_succ_lt_succ hfuel)

end Links

/-- The block begins at the second byte of a link, which `BTS_SECURE_DELETE` overwrites with a zero,
and what is left of the link leads backwards or behind the last place for a freeblock. -/
def Refused (g : Geom) (m : MemPage) (start size : ℕ) : Prop :=
  g.secureDelete = true ∧ 0 < size ∧ (∃ u ∈ m.freeList g, u.1 + 1 = start) ∧
    0 < (m.aData (start - 1)).toNat * 256 ∧ ((m.aData (start - 1)).toNat * 256 < start ∨
      g.usableSize - 4 < (m.aData (start - 1)).toNat * 256)

/-- The header of the freed block lies on the page and overwrites no link to a freeblock. A block of
four bytes and more may begin in a freeblock or end in one, which `freeSpace` finds out. -/
def FreesApart (g : Geom) (m : MemPage) (start size : ℕ) : Prop :=
  start + 4 ≤ g.usableSize ∧ ∀ u ∈ m.freeList g,
    u.1 + 1 ≠ start ∧ (size < 4 → u.1 < start ∨ start + 4 ≤ u.1)

section Free

variable {g : Geom} {m : MemPage} {free : List (ℕ × ℕ)} {start size fuel : ℕ}

theorem eraseFreed_ok (data : ℕ → UInt8) (hend : start + size ≤ g.usableSize) :
    ∃ data', eraseFreed g data start size = .ok data' ∧
      ∀ p, p < start ∨ start + size ≤ p → data' p = data p := by
  rw [eraseFreed]
  split
  · exact ⟨_, store_ok (by simpa using hend), fun p hp => blit_outside (by simpa using hp)⟩
  · exact ⟨_, rfl, fun _ _ => rfl⟩

/-- The list of freeblocks is split at the place of the block. -/
theorem Accepted.split (ha : Accepted g m free) (start : ℕ) : ∃ pre post, free = pre ++ post ∧
    (∀ u ∈ pre, u.1 < start) ∧ ∀ u ∈ post, start ≤ u.1 := by
  refine ⟨free.takeWhile fun u => u.1 < start, free.dropWhile fun u => u.1 < start,
    (List.takeWhile_append_dropWhile).symm, fun u hu => by simpa using List.mem_takeWhile_imp hu,
    fun u hu => ?_⟩
  have hsorted := ha.chain.pairwise.sublist (List.dropWhile_sublist fun u => decide (u.1 < start))
  cases hpost : free.dropWhile fun u => u.1 < start with
  | nil => exact absurd hu (by simp [hpost])
  | cons w post =>
    have hw : start ≤ w.1 := by
      have := List.head_dropWhile_not (fun u : ℕ × ℕ => decide (u.1 < start)) (l := free)
        (by simp [hpost])
      simpa [hpost] using this
    rw [hpost] at hu hsorted
    rcases List.mem_cons.mp hu with rfl | hu
    · exact hw
    · have := (List.pairwise_cons.mp hsorted).1 u hu
      omega

section Link

variable {pre post : List (ℕ × ℕ)} {data : ℕ → UInt8} (ha : Accepted g m (pre ++ post))
  (hstart : m.cellOffset ≤ start) (hpre : ∀ u ∈ pre, u.1 < start ∧ u.1 + 1 ≠ start)
  (hdata : ∀ p, p < start ∨ start + size ≤ p → data p = m.aData p)

include ha hstart hpre hdata

/-- What is erased leaves the list before it. -/
theorem Accepted.links_before : Links data (m.hdrOffset + 1) pre (target post) := by
  have hhdr := m.hdr_add_eight_le_cellOffset
  refine ha.chain.links.congr (get2_congr fun i hi => hdata _ (by omega)) fun u hu => ?_
  have := hpre u hu
  exact get2_congr fun i hi => hdata _ (by omega)

omit hdata in
theorem Accepted.lastLink_le : lastLink (m.hdrOffset + 1) pre + 2 ≤ start ∧
    (lastLink (m.hdrOffset + 1) pre = m.hdrOffset + 1 ∨
      m.hdrOffset + 8 ≤ lastLink (m.hdrOffset + 1) pre) := by
  have hhdr := m.hdr_add_eight_le_cellOffset
  have hle := m.hdr_add_eight_le
  rcases lastLink_eq (m.hdrOffset + 1) pre with heq | ⟨u, hu, heq⟩
  · exact ⟨by omega, Or.inl heq⟩
  · have hin := ha.inside u (List.mem_append_left _ hu)
    have := hpre u hu
    exact ⟨by omega, Or.inr (by omega)⟩

/-- The list goes on to the freed block, and from there to the end or to where it is found corrupt. -/
theorem Accepted.links_linked (hpost : ∀ u ∈ post, start ≤ u.1)
    (hsmall : size < 4 → ∀ u ∈ post, start + 4 ≤ u.1) (hend : start + size ≤ g.usableSize)
    (hfour : start + 4 ≤ g.usableSize) :
    ∃ us n, us ≠ [] ∧ us.length ≤ (pre ++ post).length + 1 ∧
      Links (linkBytes data (lastLink (m.hdrOffset + 1) pre) (target post) (start, size))
        (m.hdrOffset + 1) us n ∧
      (∀ u ∈ us, m.hdrOffset + 8 ≤ u.1 ∧ u.1 + 4 ≤ g.usableSize) ∧
      EndsAt (linkBytes data (lastLink (m.hdrOffset + 1) pre) (target post) (start, size)) us n := by
  have hhdr := m.hdr_add_eight_le_cellOffset
  have hfirst := m.hdr_add_eight_le
  have husable : g.usableSize ≤ 65536 := g.usable_le.trans g.page_le
  obtain ⟨hlast, hside⟩ := ha.lastLink_le hstart hpre
  have hlinks := ha.links_before hstart hpre hdata
  have hin : ∀ u ∈ pre ++ post, m.hdrOffset + 8 ≤ u.1 ∧ u.1 + 4 ≤ g.usableSize := fun u hu => by
    have := ha.inside u hu
    omega
  have htarget : target post < 2 ^ 16 := by
    cases post with
    | nil => exact Nat.two_pow_pos 16
    | cons w post =>
      have := hin w (by simp)
      rw [target]
      omega
  generalize hL : lastLink (m.hdrOffset + 1) pre = addr at *
  have hout : ∀ off, off + 2 ≤ addr ∨ start + 4 ≤ off →
      get2 (linkBytes data addr (target post) (start, size)) off = get2 data off := fun off hoff => by
    rw [linkBytes, get2_put2_of_disjoint (by dsimp only; omega),
      get2_put2_of_disjoint (by dsimp only; omega), get2_put2_of_disjoint (by omega)]
  have hblock : get2 (linkBytes data addr (target post) (start, size)) addr = start := by
    rw [linkBytes, get2_put2_of_disjoint (by dsimp only; omega),
      get2_put2_of_disjoint (by dsimp only; omega), get2_put2_self _ _ (by dsimp only; omega)]
  have hnext : get2 (linkBytes data addr (target post) (start, size)) start = target post := by
    rw [linkBytes, get2_put2_of_disjoint (by dsimp only; omega), get2_put2_self _ _ htarget]
  have hsize : get2 (linkBytes data addr (target post) (start, size)) (start + 2) = size :=
    get2_put2_self _ _ (by omega)
  have hwhole : ∀ us n, Links (linkBytes data addr (target post) (start, size)) start us n →
      Links (linkBytes data addr (target post) (start, size)) (m.hdrOffset + 1)
        (pre ++ (start, size) :: us) n := fun us n hus =>
    hlinks.splice (fun off hoff => hout off (by rw [hL] at hoff; omega))
      (hL.symm ▸ ⟨hblock, hlast, hus⟩)
  have hinside : ∀ us, (∀ u ∈ us, u ∈ post) → ∀ u ∈ pre ++ (start, size) :: us,
      m.hdrOffset + 8 ≤ u.1 ∧ u.1 + 4 ≤ g.usableSize := fun us hus u hu => by
    rcases List.mem_append.mp hu with hu | hu
    · exact hin u (List.mem_append_left _ hu)
    rcases List.mem_cons.mp hu with rfl | hu
    · exact ⟨by dsimp only; omega, hfour⟩
    · exact hin u (List.mem_append_right _ (hus u hu))
  by_cases hover : 0 < target post ∧ target post < start + size
  · refine ⟨pre ++ [(start, size)], target post, by simp, by simp, hwhole [] _ hnext,
      hinside [] (by simp), Or.inr ⟨hover.1, (start, size), by simp, ?_⟩⟩
    rw [hsize]
    dsimp only
    omega
  · refine ⟨pre ++ (start, size) :: post, 0, by simp, by simp; omega, hwhole post 0 ?_,
      hinside post (fun _ => id), Or.inl rfl⟩
    cases post with
    | nil => exact hnext
    | cons w post =>
      have hrest := ha.chain.rest
      rw [hL] at hrest
      have hw := hpost w List.mem_cons_self
      rw [target] at hover hnext
      have hbehind : start + 4 ≤ w.1 := by
        by_cases hlt : size < 4
        · exact hsmall hlt w List.mem_cons_self
        · omega
      refine ⟨hnext, by omega, ?_⟩
      have hlinks' : Links m.aData w.1 (post ++ []) (target []) := by
        have hchain : FreeChain m.aData w.1 ((post ++ []) ++ []) := by simpa using hrest.2.2.2
        exact hchain.links
      rw [List.append_nil] at hlinks'
      have hsame : ∀ off, w.1 ≤ off →
          get2 (linkBytes data addr (target (w :: post)) (start, size)) off = get2 m.aData off :=
        fun off hoff => (hout off (by omega)).trans (get2_congr fun i hi => hdata _ (by omega))
      refine hlinks'.congr (hsame w.1 le_rfl) fun u hu => hsame u.1 ?_
      have := hrest.2.2.2.add_four_le hu
      omega

end Link

/-- **`freeSpace` on a page of any content.** -/
theorem Accepted.freeSpace (ha : Accepted g m free) (hstart : m.cellOffset ≤ start)
    (hend : start + size ≤ g.usableSize) (hapart : FreesApart g m start size)
    (hfuel : g.usableSize ≤ fuel) : Safe (Btree.freeSpace g fuel m start size) := by
  have hlen := ha.length_lt
  have hhdr := ha.hdr_le
  obtain ⟨hfour, hfree⟩ := hapart
  rw [ha.freeList_eq] at hfree
  obtain ⟨pre, post, rfl, hbefore, hafter⟩ := ha.split start
  have hpre : ∀ u ∈ pre, u.1 < start ∧ u.1 + 1 ≠ start := fun u hu =>
    ⟨hbefore u hu, (hfree u (List.mem_append_left _ hu)).1⟩
  have hsmall : size < 4 → ∀ u ∈ post, start + 4 ≤ u.1 := fun hlt u hu => by
    have := (hfree u (List.mem_append_right _ hu)).2 hlt
    have := hafter u hu
    omega
  obtain ⟨data₀, herase, hdata⟩ := eraseFreed_ok m.aData hend
  have hlinks := ha.links_before hstart hpre hdata
  obtain ⟨hlast, -⟩ := ha.lastLink_le hstart hpre
  have hnext : target post = 0 ∨ start ≤ target post := by
    cases post with
    | nil => exact Or.inl rfl
    | cons w post => exact Or.inr (hafter w List.mem_cons_self)
  have hbound : target post ≤ g.usableSize - 4 := by
    cases post with
    | nil => exact Nat.zero_le _
    | cons w post =>
      have := ha.inside w (by simp)
      rw [target]
      omega
  rw [Btree.freeSpace]
  dsimp only
  rw [herase, ok_bind]
  rw [List.length_append] at hlen
  have hsearch : ∀ u ∈ pre, 0 < u.1 ∧ u.1 < start ∧ u.1 + 2 ≤ g.usableSize := fun u hu => by
    have := hpre u hu
    have := ha.inside u (List.mem_append_left _ hu)
    have := m.hdr_add_eight_le
    omega
  rcases findGap_of_links hlinks hsearch hnext (by omega) (show pre.length < fuel by omega)
    with hbad | hfind
  · rw [hbad]
    exact safe_corrupt
  rw [hfind, ok_bind]
  dsimp only
  rw [if_neg (by omega), store2_ok (by omega), ok_bind, store2_ok (by omega), ok_bind,
    store2_ok (by omega), ok_bind]
  obtain ⟨us, n, hne, hus, hlinks₁, hin, hends⟩ :=
    ha.links_linked hstart hpre hdata hafter hsmall hend hfour
  rw [List.length_append] at hus
  show Safe (coalesce g m.hdrOffset fuel (m.hdrOffset + 1) (linkBytes data₀
    (lastLink (m.hdrOffset + 1) pre) (target post) (start, size)) >>= _)
  rcases coalesce_of_links hlinks₁ hin hends (Or.inl rfl) (by omega) hhdr
    (show us.length < fuel by omega) with hbad | ⟨data₂, hrun, hkeep⟩
  · rw [hbad]
    exact safe_corrupt
  obtain ⟨u, us, rfl⟩ := List.exists_cons_of_ne_nil hne
  have hhead : get2 data₂ (m.hdrOffset + 1) = u.1 :=
    (get2_congr fun i hi => hkeep _ (by omega)).trans hlinks₁.1
  obtain ⟨data₃, hdrop⟩ := dropFirst_ok hhead (hin u List.mem_cons_self).2 hhdr
  rw [hrun, ok_bind, hdrop, ok_bind]
  exact safe_ok _

/-- A garbled link is found before anything is written. -/
theorem Accepted.freeSpace_refused (ha : Accepted g m free) (hend : start + size ≤ g.usableSize)
    (hrefused : Refused g m start size) (hfuel : g.usableSize ≤ fuel) :
    Safe (Btree.freeSpace g fuel m start size) := by
  obtain ⟨hsecure, hsize, ⟨u, hu, hustart⟩, hpos, hbad⟩ := hrefused
  have hhdr := ha.hdr_le
  have hlen := ha.length_lt
  rw [ha.freeList_eq] at hu
  obtain ⟨pre, post, rfl⟩ := List.append_of_mem hu
  have hin := ha.inside u (by simp)
  have herase : eraseFreed g m.aData start size =
      .ok (blit m.aData start (List.replicate size 0)) := by
    rw [eraseFreed, if_pos hsecure, store_ok (by simpa using hend)]
  generalize hdata : blit m.aData start (List.replicate size 0) = data at herase
  have hsame : ∀ p < start, data p = m.aData p := fun p hp =>
    hdata ▸ blit_outside (Or.inl hp)
  have hzero : data start = 0 := by
    rw [← hdata]
    change blit m.aData start (List.replicate size 0) (start + 0) = 0
    rw [blit_inside (by simpa using hsize), List.getElem_replicate]
  have hlinks : Links data (m.hdrOffset + 1) (pre ++ [u]) ((m.aData (start - 1)).toNat * 256) := by
    have hrest := ha.chain.rest
    refine ha.chain.links.splice (fun off hoff => get2_congr fun i hi => hsame _ ?_) ⟨?_, ?_, ?_⟩
    · have := hrest.2.2.1
      omega
    · rw [← hrest.1]
      refine get2_congr fun i hi => hsame _ ?_
      have := hrest.2.2.1
      omega
    · have := hrest.2.2.1
      omega
    · rw [Links, get2, hsame u.1 (by omega), show u.1 + 1 = start from hustart, hzero,
        show start - 1 = u.1 by omega]
      simp
  have hsearch : ∀ v ∈ pre ++ [u], 0 < v.1 ∧ v.1 < start ∧ v.1 + 2 ≤ g.usableSize := by
    intro v hv
    have hpair := ha.chain.pairwise
    have hv' : v ∈ pre ++ u :: post := by
      rcases List.mem_append.mp hv with hv | hv
      · exact List.mem_append_left _ hv
      · exact List.mem_append_right _ (List.mem_singleton.mp hv ▸ List.mem_cons_self)
    have hvin := ha.inside v hv'
    have hle : v.1 ≤ u.1 := by
      rcases List.mem_append.mp hv with hv | hv
      · have := (List.pairwise_append.mp hpair).2.2 v hv u List.mem_cons_self
        omega
      · rw [List.mem_singleton.mp hv]
    have := m.hdr_add_eight_le
    omega
  have hcount : (pre ++ [u]).length < fuel := by
    simp only [List.length_append, List.length_cons, List.length_nil] at hlen ⊢
    omega
  rw [Btree.freeSpace]
  dsimp only
  rw [herase, ok_bind]
  by_cases hlt : (m.aData (start - 1)).toNat * 256 < start
  · rw [findGap_backwards hlinks hsearch hpos hlt (by rw [lastLink_concat]; omega) (by omega) hcount]
    exact safe_corrupt
  · rcases findGap_of_links hlinks hsearch (Or.inr (by omega)) (by omega) hcount with hrun | hrun
    · rw [hrun]
      exact safe_corrupt
    · rw [hrun, ok_bind]
      dsimp only
      rw [if_pos (hbad.resolve_left hlt)]
      exact safe_corrupt

end Free

/-! ### The three routines -/

section Routines

variable {g : Geom} {m : MemPage}

/-- `allocateSpace` stays inside, and what it allocates is on the page and behind the next cell
pointer. -/
def AllocatesInside (g : Geom) (m : MemPage) (temp : ℕ → UInt8) (nByte : ℕ) : Prop :=
  Safe (allocateSpace g temp m nByte) ∧ ∀ m' idx, allocateSpace g temp m nByte = .ok (m', idx) →
    m.iCellFirst + 2 ≤ idx ∧ idx + nByte ≤ g.usableSize

/-- `freeSpace` ends, and stays inside. -/
def FreesInside (g : Geom) (m : MemPage) (start size : ℕ) : Prop :=
  ∃ rounds, ∀ fuel ≥ rounds, Safe (freeSpace g fuel m start size)

/-- A freeblock that is its own successor is put together with itself for ever. -/
theorem coalesce_endless {data : ℕ → UInt8} {hdr addr p : ℕ} (haddr : get2 data addr = p)
    (hnext : get2 data p = p) (hsize : get2 data (p + 2) = 0)
    (hle : addr + 2 ≤ hdr + 7) (hp : hdr + 8 ≤ p) (hend : p + 4 ≤ g.usableSize) (fuel : ℕ) :
    coalesce g hdr fuel addr data = .error .endless := by
  induction fuel generalizing data with
  | zero => rfl
  | succ fuel ih =>
    have hlt : p < 2 ^ 16 := hnext ▸ get2_lt data p
    rw [coalesce, load2_ok (by omega), ok_bind, haddr, if_neg (by omega), load2_ok (by omega), ok_bind,
      load2_ok (by omega), ok_bind, hnext, hsize, if_pos (by omega), load_ok (by omega), ok_bind]
    dsimp only
    rw [if_neg (by omega)]
    generalize data (hdr + 7) - UInt8.ofNat (p - (p + 0)) = b
    have hlink : get2 (blit data (hdr + 7) [b]) p = p := by
      rw [get2_blit_of_disjoint (by simp; omega), hnext]
    rw [store_ok (by simp; omega), ok_bind, load2_ok (by omega), ok_bind, store2_ok (by omega), ok_bind,
      load2_ok (by omega), ok_bind, store2_ok (by omega), ok_bind, hlink]
    have hsize' : get2 (put2 (blit data (hdr + 7) [b]) p p) (p + 2) = 0 := by
      rw [get2_put2_of_disjoint (by omega), get2_blit_of_disjoint (by simp; omega), hsize]
    rw [hsize', show p + 0 - p = 0 by omega]
    refine ih ?_ ?_ ?_
    · rw [get2_put2_of_disjoint (by omega), get2_put2_of_disjoint (by omega),
        get2_blit_of_disjoint (by simp; omega), haddr]
    · rw [get2_put2_of_disjoint (by omega), get2_put2_self _ _ hlt]
    · exact get2_put2_self _ _ (by decide)

/-- An index leaf with a freeblock at 256 and a cell, without payload, at 257. -/
def overlapping : MemPage where
  hdrOffset := 0
  leaf := true
  intKey := false
  hasData := false
  maxLocal := 102
  minLocal := 39
  nCell := 1
  nFree := 250
  aData := blit (blit (fun _ => 0) 0 [0x0a, 1, 0, 0, 1, 1, 0, 0, 1, 1]) 256 [0, 0, 0, 4]

theorem overlapping_words : get2 overlapping.aData 1 = 256 ∧ get2 overlapping.aData 3 = 1 ∧
    get2 overlapping.aData 5 = 256 ∧ get2 overlapping.aData 256 = 0 ∧
    get2 overlapping.aData 258 = 4 := by
  refine ⟨?_, ?_, ?_, ?_, ?_⟩ <;> simp [get2, overlapping, blit]

theorem btreeInitPage_overlapping :
    btreeInitPage geom512 2 overlapping.aData = some overlapping := by
  obtain ⟨hfirst, hcount, htop, hnext, hsize⟩ := overlapping_words
  have hflag : decodeFlags (overlapping.aData 0).toNat = some (true, false) := by decide
  have hfrag : overlapping.aData 7 = 0 := by decide
  simp [btreeInitPage, hflag, hcount, hfirst, hfrag, htop, get2byteNotZero, sumFreeblocks, hnext, hsize,
    geom512]
  rfl

/-- The cell is freed: the link that is written to the freeblock before it and the one that is written
to the block itself share a byte, and the freeblock becomes its own successor. -/
theorem freeSpace_overlapping (fuel : ℕ) :
    freeSpace geom512 fuel overlapping 257 4 = .error .endless := by
  obtain ⟨hfirst, -, -, hnext, -⟩ := overlapping_words
  have herase : eraseFreed geom512 overlapping.aData 257 4
      = .ok (blit overlapping.aData 257 (List.replicate 4 0)) := rfl
  generalize hdata : blit overlapping.aData 257 (List.replicate 4 0) = data at herase
  have h₁ : get2 data 1 = 256 := by rw [← hdata, get2_blit_of_disjoint (by simp), hfirst]
  have h₂ : get2 data 256 = 0 := by simp [get2, ← hdata, overlapping, blit]
  rw [freeSpace]
  dsimp only
  rw [herase, ok_bind]
  rcases fuel with _ | _ | fuel
  · rfl
  · rw [show overlapping.hdrOffset + 1 = 1 from rfl, findGap, load2_ok (by decide), ok_bind, h₁]
    rfl
  · have hgap : findGap geom512 data 257 (fuel + 2) (overlapping.hdrOffset + 1) = .ok (256, 0) := by
      rw [show overlapping.hdrOffset + 1 = 1 from rfl, findGap, load2_ok (by decide), ok_bind, h₁,
        if_pos (by decide), if_neg (by decide), findGap, load2_ok (by decide), ok_bind, h₂,
        if_neg (by decide)]
    rw [hgap, ok_bind]
    dsimp only
    rw [if_neg (by decide), store2_ok (by decide), ok_bind, store2_ok (by decide), ok_bind,
      store2_ok (by decide), ok_bind]
    have hself : get2 (put2 (put2 (put2 data 256 257) 257 0) (257 + 2) 4) 256 = 256 := by
      simp [get2, put2, bytes2, blit]
    have hzero : get2 (put2 (put2 (put2 data 256 257) 257 0) (257 + 2) 4) 258 = 0 := by
      simp [get2, put2, bytes2, blit]
    have hlink : get2 (put2 (put2 (put2 data 256 257) 257 0) (257 + 2) 4) 1 = 256 := by
      rw [get2_put2_of_disjoint (by omega), get2_put2_of_disjoint (by omega),
        get2_put2_of_disjoint (by omega), h₁]
    rw [show overlapping.hdrOffset = 0 from rfl, Nat.zero_add,
      coalesce_endless hlink hself hzero (by decide) (by decide) (by decide)]
    rfl

end Routines

end Btree

end SqliteVms

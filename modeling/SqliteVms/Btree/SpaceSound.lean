import SqliteVms.Btree.Tiling
import SqliteVms.Util.VarintCodec

/-!
# Space is allocated on a page

A slot is taken from the list of freeblocks, or space from the gap; when neither will do all cells are
moved to the end of the page.

## Main definitions

* `CellsAt` — where the cells are, and their bytes
* `packed` — the same cells at the end of the page

## Main results

* `findSlot_spec`, `defragmentPage_spec` — the two ways to find room
* `allocateSpace_spec` — space is allocated, and no cell is changed
-/

namespace SqliteVms

namespace Btree

open Store BigEndian Extent Util

section Slot

variable {g : Geom} {m : MemPage} {used free pre post : List (ℕ × ℕ)} {u : ℕ × ℕ} {nByte : ℕ}

/-! ### A slot from the list -/

theorem Separated.pairwise (h : Separated free) :
    free.Pairwise fun u v => u.1 + u.2 + 4 ≤ v.1 := by
  have htrans : IsTrans (ℕ × ℕ) fun u v => u.1 + u.2 + 4 ≤ v.1 := ⟨fun u v w huv hvw => by omega⟩
  exact List.isChain_iff_pairwise.mp h

theorem Separated.remove (h : Separated (pre ++ u :: post)) : Separated (pre ++ post) := by
  have hsub : (pre ++ post).Sublist (pre ++ u :: post) :=
    List.Sublist.append_left (List.sublist_cons_self u post) pre
  exact (h.pairwise.sublist hsub).isChain

theorem Separated.shrink (h : Separated (pre ++ u :: post)) {v : ℕ × ℕ} (hv : v.1 = u.1)
    (hle : v.2 ≤ u.2) : Separated (pre ++ v :: post) := by
  obtain ⟨hpre, hrest, hlast⟩ := List.isChain_append.mp h
  obtain ⟨hhead, hpost⟩ := List.isChain_cons.mp hrest
  refine List.isChain_append.mpr ⟨hpre, List.isChain_cons.mpr ⟨fun w hw => ?_, hpost⟩,
    fun w hw x hx => ?_⟩
  · have := hhead w hw
    omega
  · obtain rfl := Option.some.inj hx
    have := hlast w hw u rfl
    omega

/-- The part of a slot that is taken: its end. -/
def taken (u : ℕ × ℕ) (nByte : ℕ) : ℕ × ℕ := (u.1 + (u.2 - nByte), nByte)

/-- The bytes after a slot was taken, with a fragment before what is used. -/
def unlinkBytes (hdr : ℕ) (data : ℕ → UInt8) (addr : ℕ) (u : ℕ × ℕ) (nByte : ℕ) : ℕ → UInt8 :=
  blit (blit data addr (slice data u.1 2)) (hdr + 7)
    [UInt8.ofNat ((data (hdr + 7)).toNat + (u.2 - nByte))]

/-- What is taken of a slot with what is left of it is apart from the rest. -/
theorem Tiled.taken_apart (h : Tiled g m used (pre ++ u :: post)) (hle : nByte ≤ u.2) :
    (taken u nByte :: (used ++ (pre ++ post))).Pairwise Apart ∧
      ∀ w ∈ used ++ (pre ++ post), Apart (u.1, u.2 - nByte) w := by
  have hall := pairwise_perm (perm_one used pre post u) h.apart
  obtain ⟨hu, hrest⟩ := List.pairwise_cons.mp hall
  refine ⟨List.pairwise_cons.mpr ⟨fun w hw => ?_, hrest⟩, fun w hw => ?_⟩
  · have := hu w hw
    simp only [Apart, taken] at *
    omega
  · have := hu w hw
    simp only [Apart] at *
    omega

theorem Tiled.taken_inside (h : Tiled g m used (pre ++ u :: post)) (hle : nByte ≤ u.2) :
    m.top ≤ (taken u nByte).1 ∧ (taken u nByte).1 + (taken u nByte).2 ≤ g.usableSize := by
  have hu := h.inside u (by simp)
  simp only [taken]
  omega

theorem mem_one {w : ℕ × ℕ} (hw : w ∈ used ++ (pre ++ post)) : w ∈ used ++ (pre ++ u :: post) :=
  (perm_one used pre post u).mem_iff.mpr (List.mem_cons_of_mem _ hw)

/-- **A slot is taken whole**, and what is not used of it becomes a fragment. -/
theorem Tiled.unlink (h : Tiled g m used (pre ++ u :: post)) (hle : nByte ≤ u.2) (hbyte : 4 ≤ nByte)
    (hfrag : (m.aData (m.hdrOffset + 7)).toNat + (u.2 - nByte) < 256) :
    Tiled g (m.withData (unlinkBytes m.hdrOffset m.aData (lastLink (m.hdrOffset + 1) pre) u nByte))
      (taken u nByte :: used) (pre ++ post) := by
  obtain ⟨-, hsorted, hbefore⟩ := List.pairwise_append.mp h.sorted
  have hafter := (List.pairwise_cons.mp hsorted).1
  have hhdr := m.hdr_add_eight_le
  have hu := h.mem_free (u := u) (by simp)
  have hside := h.lastLink_cases
  obtain ⟨-, -, hadd, hnext⟩ := h.chain.rest
  have hbefore' := fun w (hw : w ∈ pre) => h.le_lastLink hw
  have hchain := h.chain
  generalize hL : lastLink (m.hdrOffset + 1) pre = addr at *
  have hword : ∀ off, off + 2 ≤ addr ∨ addr + 2 ≤ off →
      off + 2 ≤ m.hdrOffset + 7 ∨ m.hdrOffset + 8 ≤ off →
      get2 (unlinkBytes m.hdrOffset m.aData addr u nByte) off = get2 m.aData off :=
    fun off haddr h7 => by
    rw [unlinkBytes, get2_blit_of_disjoint (by simp; omega), get2_blit_of_disjoint (by simp; omega)]
  have htop : (m.withData (unlinkBytes m.hdrOffset m.aData addr u nByte)).top = m.top :=
    get2byteNotZero_congr (hword (m.hdrOffset + 5) (by omega) (by omega))
  have hlink : get2 (unlinkBytes m.hdrOffset m.aData addr u nByte) addr = get2 m.aData u.1 := by
    rw [unlinkBytes, get2_blit_of_disjoint (by simp; omega)]
    exact get2_congr fun i hi => by rw [blit_inside (by simpa using hi), getElem_slice]
  constructor
  case chain =>
    refine hchain.splice (fun hlt => ?_) (fun w hw => ?_) ?_
    · exact hword _ (by omega) (by omega)
    · have hw' := h.mem_free (u := w) (List.mem_append_left _ hw)
      have hle := hbefore' w hw
      rw [hL]
      exact ⟨hword _ (by omega) (by omega), fun hlt => hword _ (by omega) (by omega)⟩
    · rw [hL]
      refine hnext.relink (fun w hw => ?_) hlink fun w hw => ?_
      · have := hnext.add_four_le hw
        omega
      · have := hnext.add_four_le hw
        exact ⟨hword _ (by omega) (by omega), hword _ (by omega) (by omega)⟩
  case apart => exact (h.taken_apart hle).1
  case inside =>
    intro w hw
    rw [htop]
    rcases List.mem_cons.mp hw with rfl | hw
    · exact h.taken_inside hle
    · exact h.inside w (mem_one hw)
  case size_ge =>
    intro w hw
    rcases List.mem_cons.mp hw with rfl | hw
    · exact hbyte
    · exact h.size_ge w (mem_one hw)
  case le_top => rw [htop]; exact h.le_top
  case count =>
    have hbyte' : unlinkBytes m.hdrOffset m.aData addr u nByte (m.hdrOffset + 7)
        = UInt8.ofNat ((m.aData (m.hdrOffset + 7)).toNat + (u.2 - nByte)) :=
      blit_inside (i := 0) (by simp)
    have hcount := h.count
    rw [total_perm (perm_one used pre post u), total_cons] at hcount
    rw [htop, show (m.withData (unlinkBytes m.hdrOffset m.aData addr u nByte)).aData
      (m.hdrOffset + 7) = _ from hbyte', UInt8.toNat_ofNat', Nat.mod_eq_of_lt hfrag,
      List.cons_append, total_cons]
    simp only [taken]
    omega

/-- **The end of a slot is taken**, and the rest stays in the list. -/
theorem Tiled.shrink (h : Tiled g m used (pre ++ u :: post)) (hle : nByte + 4 ≤ u.2)
    (hbyte : 4 ≤ nByte) :
    Tiled g (m.withData (put2 m.aData (u.1 + 2) (u.2 - nByte))) (taken u nByte :: used)
      (pre ++ (u.1, u.2 - nByte) :: post) := by
  obtain ⟨-, hsorted, hbefore⟩ := List.pairwise_append.mp h.sorted
  have hafter := (List.pairwise_cons.mp hsorted).1
  have hhdr := m.hdr_add_eight_le
  have hu := h.mem_free (u := u) (by simp)
  have hside := h.lastLink_cases
  have husable := h.usable_le
  have htop' := get2byteNotZero_pos m.aData (m.hdrOffset + 5)
  obtain ⟨hlink, -, hadd, hnext⟩ := h.chain.rest
  have hword : ∀ off, off + 2 ≤ u.1 + 2 ∨ u.1 + 4 ≤ off →
      get2 (put2 m.aData (u.1 + 2) (u.2 - nByte)) off = get2 m.aData off :=
    fun off hoff => get2_put2_of_disjoint (by omega)
  have htop : (m.withData (put2 m.aData (u.1 + 2) (u.2 - nByte))).top = m.top :=
    get2byteNotZero_congr (hword (m.hdrOffset + 5) (by omega))
  have hperm := perm_one (taken u nByte :: used) pre post (u.1, u.2 - nByte)
  have hmem : ∀ w ∈ (taken u nByte :: used) ++ (pre ++ (u.1, u.2 - nByte) :: post),
      w = (u.1, u.2 - nByte) ∨ w = taken u nByte ∨ w ∈ used ++ (pre ++ post) := fun w hw => by
    rcases List.mem_cons.mp (hperm.mem_iff.mp hw) with rfl | hw
    · exact Or.inl rfl
    · exact Or.inr (List.mem_cons.mp hw)
  constructor
  case chain =>
    refine h.chain.splice (fun hlt => hword _ (by omega)) (fun w hw => ?_) ?_
    · have hw' := h.mem_free (u := w) (List.mem_append_left _ hw)
      have hle := hbefore w hw u List.mem_cons_self
      exact ⟨hword _ (by omega), fun hlt => hword _ (by omega)⟩
    · refine ⟨(hword _ (by omega)).trans hlink, get2_put2_self _ _ (by omega), hadd, ?_⟩
      refine hnext.relink (fun w hw => hnext.add_four_le hw) (hword _ (by omega)) fun w hw => ?_
      have := hnext.add_four_le hw
      exact ⟨hword _ (by omega), hword _ (by omega)⟩
  case apart =>
    obtain ⟨htaken, hrest⟩ := h.taken_apart (show nByte ≤ u.2 by omega)
    refine pairwise_perm hperm.symm (List.pairwise_cons.mpr ⟨fun w hw => ?_, htaken⟩)
    rcases List.mem_cons.mp hw with rfl | hw
    · exact Or.inl le_rfl
    · exact hrest w hw
  case inside =>
    intro w hw
    rw [htop]
    have hin := h.inside u (by simp)
    rcases hmem w hw with rfl | rfl | hw
    · exact ⟨hin.1, by dsimp only; omega⟩
    · exact h.taken_inside (by omega)
    · exact h.inside w (mem_one hw)
  case size_ge =>
    intro w hw
    rcases hmem w hw with rfl | rfl | hw
    · dsimp only
      omega
    · exact hbyte
    · exact h.size_ge w (mem_one hw)
  case le_top => rw [htop]; exact h.le_top
  case count =>
    have hsame : put2 m.aData (u.1 + 2) (u.2 - nByte) (m.hdrOffset + 7) = m.aData (m.hdrOffset + 7) :=
      put2_outside (by omega)
    have hcount := h.count
    rw [total_perm (perm_one used pre post u), total_cons, ← hsame] at hcount
    rw [htop, total_perm hperm, total_cons, List.cons_append, total_cons]
    simp only [taken]
    show (put2 m.aData (u.1 + 2) (u.2 - nByte) (m.hdrOffset + 7)).toNat + _ + _ = _
    omega

/-- What is written to the freeblocks or to the count of fragments leaves the rest as it is. -/
theorem Tiled.keeps_of_free (h : Tiled g m used free) {data : ℕ → UInt8}
    (hdata : ∀ p, (p < m.hdrOffset + 1 ∨ m.hdrOffset + 3 ≤ p) →
      (p < m.hdrOffset + 5 ∨ m.hdrOffset + 8 ≤ p) → (∀ u ∈ free, ¬ Inside u p) →
      data p = m.aData p) : Keeps m used data := by
  have hhdr := m.hdr_add_eight_le
  have htop := h.le_top
  intro p hp
  have hfree : ∀ u ∈ free, ¬ Inside u p := fun u hu hin => by
    have hu' := h.mem_free hu
    have hle := hin.1
    rcases hp with hp | hp | hp | ⟨w, hw, hp⟩
    · omega
    · omega
    · omega
    · exact h.not_inside_used hu hin hw hp
  rcases hp with hp | hp | hp | ⟨w, hw, hp⟩
  · exact hdata p (by omega) (by omega) hfree
  · exact hdata p (by omega) (by omega) hfree
  · exact hdata p (by omega) (by omega) hfree
  · have hin := h.inside w (List.mem_append_left _ hw)
    have hle := hp.1
    exact hdata p (by omega) (by omega) hfree

theorem Tiled.unlinkBytes_keeps (h : Tiled g m used (pre ++ u :: post)) : Keeps m used
    (unlinkBytes m.hdrOffset m.aData (lastLink (m.hdrOffset + 1) pre) u nByte) := by
  refine h.keeps_of_free fun p hp hp' hfree => ?_
  rw [unlinkBytes, blit_outside (by simp; omega), blit_outside ?_]
  rw [length_slice]
  rcases lastLink_eq (m.hdrOffset + 1) pre with heq | ⟨w, hw, heq⟩
  · omega
  · have hnot := hfree w (List.mem_append_left _ hw)
    have hw' := h.mem_free (u := w) (List.mem_append_left _ hw)
    by_contra hcon
    exact hnot ⟨by omega, by omega⟩

theorem Tiled.shrink_keeps (h : Tiled g m used (pre ++ u :: post)) {v : ℕ} :
    Keeps m used (put2 m.aData (u.1 + 2) v) := by
  refine h.keeps_of_free fun p hp hp' hfree => put2_outside ?_
  have hnot := hfree u (by simp)
  have hu := h.mem_free (u := u) (by simp)
  by_contra hcon
  exact hnot ⟨by omega, by omega⟩

theorem Tiled.unlinkBytes_top (h : Tiled g m used (pre ++ u :: post)) :
    (m.withData (unlinkBytes m.hdrOffset m.aData (lastLink (m.hdrOffset + 1) pre) u nByte)).top
      = m.top := by
  have hside := h.lastLink_cases
  have hhdr := m.hdr_add_eight_le
  have hsame : get2 (unlinkBytes m.hdrOffset m.aData (lastLink (m.hdrOffset + 1) pre) u nByte)
      (m.hdrOffset + 5) = get2 m.aData (m.hdrOffset + 5) := by
    rw [unlinkBytes, get2_blit_of_disjoint (by simp), get2_blit_of_disjoint (by simp; omega)]
  exact get2byteNotZero_congr hsame

theorem Tiled.shrink_top (h : Tiled g m used (pre ++ u :: post)) {v : ℕ} :
    (m.withData (put2 m.aData (u.1 + 2) v)).top = m.top := by
  have hu := h.mem_free (u := u) (by simp)
  have hsame : get2 (put2 m.aData (u.1 + 2) v) (m.hdrOffset + 5)
      = get2 m.aData (m.hdrOffset + 5) := get2_put2_of_disjoint (by omega)
  exact get2byteNotZero_congr hsame

/-- What allocating comes to: the space at the index is in use now, what was in use is as it was, and
there is room for one more cell pointer. -/
structure Allocated (g : Geom) (m : MemPage) (used : List (ℕ × ℕ)) (nByte : ℕ)
    (r : MemPage × ℕ) : Prop where
  page : r.1 = m.withData r.1.aData
  tiled : ∃ free, Tiled g r.1 ((r.2, nByte) :: used) free ∧ Separated free
  keeps : Keeps m used r.1.aData
  room : m.iCellFirst + 2 ≤ r.1.top

/-- **The search for a slot** finds one that is large enough, or comes to the end of the list. -/
theorem findSlot_spec {fuel nFrag : ℕ} (h : Tiled g m used (pre ++ post))
    (hsep : Separated (pre ++ post)) (hfuel : post.length < fuel) (hbyte : 4 ≤ nByte)
    (hfrag : nFrag = (m.aData (m.hdrOffset + 7)).toNat) (hlt : nFrag < 60)
    (hroom : m.iCellFirst + 2 ≤ m.top) :
    findSlot g m nByte nFrag fuel (lastLink (m.hdrOffset + 1) pre) = .ok none ∨
      ∃ r, findSlot g m nByte nFrag fuel (lastLink (m.hdrOffset + 1) pre) = .ok (some r) ∧
        Allocated g m used nByte r := by
  induction post generalizing pre fuel with
  | nil =>
    obtain ⟨fuel, rfl⟩ := Nat.exists_eq_succ_of_ne_zero (Nat.ne_zero_of_lt hfuel)
    rw [findSlot, load2_ok h.lastLink_add_two_le, ok_bind, h.chain.rest.first, target, if_pos rfl]
    exact Or.inl rfl
  | cons u post ih =>
    obtain ⟨fuel, rfl⟩ := Nat.exists_eq_succ_of_ne_zero (Nat.ne_zero_of_lt hfuel)
    obtain ⟨hu, hsize, hadd, hnext⟩ := h.chain.rest
    have hin := h.mem_free (u := u) (by simp)
    have hhdr := h.hdr_le
    rw [findSlot, load2_ok h.lastLink_add_two_le, ok_bind, hu, if_neg (by omega),
      if_neg (by omega), load2_ok (by omega), ok_bind, hsize]
    by_cases hle : nByte ≤ u.2
    · rw [if_pos hle]
      dsimp only
      by_cases hsmall : u.2 - nByte < 4
      · rw [if_pos hsmall, loads_ok (by omega), ok_bind,
          store_ok (by simpa using h.lastLink_add_two_le), ok_bind, store_ok (by simp; omega), ok_bind,
          hfrag]
        refine Or.inr ⟨_, rfl, ?_⟩
        constructor
        case page => rfl
        case tiled => exact ⟨pre ++ post, h.unlink hle hbyte (by omega), hsep.remove⟩
        case keeps => exact h.unlinkBytes_keeps
        case room => exact h.unlinkBytes_top.symm ▸ hroom
      · rw [if_neg hsmall, if_neg (by omega), store2_ok (by omega), ok_bind]
        refine Or.inr ⟨_, rfl, ?_⟩
        constructor
        case page => rfl
        case tiled =>
          exact ⟨_, h.shrink (by omega) hbyte, hsep.shrink rfl (Nat.sub_le _ _)⟩
        case keeps => exact h.shrink_keeps
        case room => exact h.shrink_top.symm ▸ hroom
    · have h' : Tiled g m used ((pre ++ [u]) ++ post) := by simpa using h
      have hsep' : Separated ((pre ++ [u]) ++ post) := by simpa using hsep
      have hmore := ih h' hsep' (Nat.lt_of_succ_lt_succ hfuel)
      rw [lastLink_concat] at hmore
      rw [if_neg hle]
      exact hmore

/-! ### Space from the gap -/

/-- **Space is taken from the gap.** -/
theorem Tiled.takeGap (h : Tiled g m used free) (hroom : m.iCellFirst + nByte ≤ m.top)
    (hbyte : 4 ≤ nByte) :
    Tiled g (m.withData (put2 m.aData (m.hdrOffset + 5) (m.top - nByte)))
      ((m.top - nByte, nByte) :: used) free := by
  have hhdr := m.hdr_add_eight_le
  have husable := h.usable_le
  have hcount := h.count
  have htop : (m.withData (put2 m.aData (m.hdrOffset + 5) (m.top - nByte))).top = m.top - nByte :=
    get2byteNotZero_put2 (by omega) (by omega)
  have hword : ∀ off, off + 2 ≤ m.hdrOffset + 5 ∨ m.hdrOffset + 7 ≤ off →
      get2 (put2 m.aData (m.hdrOffset + 5) (m.top - nByte)) off = get2 m.aData off :=
    fun off hoff => get2_put2_of_disjoint (by omega)
  constructor
  case chain =>
    refine h.chain.relink (fun w hw => h.chain.add_four_le hw) ?_ fun w hw => ?_
    · exact hword (m.hdrOffset + 1) (by omega)
    · have := h.mem_free hw
      exact ⟨hword _ (by omega), hword _ (by omega)⟩
  case apart =>
    refine List.pairwise_cons.mpr ⟨fun w hw => ?_, h.apart⟩
    have := h.inside w hw
    refine Or.inl ?_
    dsimp only
    omega
  case inside =>
    intro w hw
    rw [htop]
    rcases List.mem_cons.mp hw with rfl | hw
    · dsimp only
      omega
    · have := h.inside w hw
      omega
  case size_ge =>
    intro w hw
    rcases List.mem_cons.mp hw with rfl | hw
    · exact hbyte
    · exact h.size_ge w hw
  case le_top =>
    rw [htop]
    show m.iCellFirst ≤ m.top - nByte
    omega
  case count =>
    have hsame : put2 m.aData (m.hdrOffset + 5) (m.top - nByte) (m.hdrOffset + 7)
        = m.aData (m.hdrOffset + 7) := put2_outside (by omega)
    rw [← hsame] at hcount
    rw [htop, List.cons_append, total_cons]
    show (put2 m.aData (m.hdrOffset + 5) (m.top - nByte) (m.hdrOffset + 7)).toNat + _ + _ = _
    dsimp only
    omega

theorem takeGap_spec (h : Tiled g m used free) (hsep : Separated free)
    (hroom : m.iCellFirst + 2 + nByte ≤ m.top) (hbyte : 4 ≤ nByte) :
    ∃ r, takeGap g m nByte m.top = .ok r ∧ Allocated g m used nByte r := by
  have hhdr := h.hdr_le
  have hcount := h.count
  have husable := h.usable_le
  rw [Btree.takeGap, if_neg (by omega), store2_ok (by omega), ok_bind]
  refine ⟨_, rfl, ?_⟩
  constructor
  case page => rfl
  case tiled => exact ⟨free, h.takeGap (by omega) hbyte, hsep⟩
  case keeps => exact h.keeps_of_free fun p hp hp' _ => put2_outside (by omega)
  case room =>
    have htop : (m.withData (put2 m.aData (m.hdrOffset + 5) (m.top - nByte))).top = m.top - nByte :=
      get2byteNotZero_put2 (by omega) (by omega)
    show m.iCellFirst + 2 ≤ (m.withData (put2 m.aData (m.hdrOffset + 5) (m.top - nByte))).top
    rw [htop]
    omega

end Slot

/-! ### The size of a cell -/

section Cell

variable {g : Geom} {m : MemPage} {p q : ℕ → UInt8}

theorem payloadSize_congr (h : ∀ i, m.childPtrSize ≤ i → i < (payloadSize m p).2 → q i = p i) :
    payloadSize m q = payloadSize m p := by
  rw [payloadSize] at h ⊢
  rw [payloadSize]
  split
  · rfl
  · rename_i hkey
    rw [if_neg hkey] at h
    have hread := getVarint32_congr (p := fun i => p (m.childPtrSize + i))
      (q := fun i => q (m.childPtrSize + i)) fun i hi =>
        h (m.childPtrSize + i) (Nat.le_add_right _ _) (by dsimp only; omega)
    rw [hread]

theorem childPtrSize_le_payloadSize (m : MemPage) (p : ℕ → UInt8) :
    m.childPtrSize ≤ (payloadSize m p).2 := by
  rw [payloadSize]
  split
  · exact le_rfl
  · exact Nat.le_add_right _ _

/-- A header is read from its bytes only, and not from the child pointer. -/
theorem headerSize_congr (h : ∀ i, m.childPtrSize ≤ i → i < headerSize g m p → q i = p i) :
    headerSize g m q = headerSize g m p ∧ payloadSize m q = payloadSize m p := by
  rw [headerSize_eq] at h
  have hchild := childPtrSize_le_payloadSize m p
  have hpayload : payloadSize m q = payloadSize m p := payloadSize_congr fun i hle hi => h i hle (by
    split <;> omega)
  refine ⟨?_, hpayload⟩
  rw [headerSize_eq, headerSize_eq, hpayload]
  split
  · rename_i hkey
    rw [if_pos hkey] at h
    rw [← sqlite3GetVarint_length] at h
    rw [← sqlite3GetVarint_length, ← sqlite3GetVarint_length,
      sqlite3GetVarint_congr (p := fun i => p ((payloadSize m p).2 + i)) fun i hi =>
        h _ (by omega) (by omega)]
  · rfl

/-- **The size of a cell is read from the cell only**, and not from its child pointer. -/
theorem cellSizePtr_congr (hm : m.LocalBounds g)
    (h : ∀ i, m.childPtrSize ≤ i → i < cellSizePtr g m p → q i = p i) :
    cellSizePtr g m q = cellSizePtr g m p := by
  have hsize : ∀ r, cellSizePtr g m r = (if (if m.maxLocal < (payloadSize m r).1
      then spillLocal g m (payloadSize m r).1 + 4 else (payloadSize m r).1) + headerSize g m r < 4
      then 4 else (if m.maxLocal < (payloadSize m r).1
      then spillLocal g m (payloadSize m r).1 + 4 else (payloadSize m r).1) + headerSize g m r) % 65536 :=
    fun r => by rw [headerSize_eq]; rfl
  have hmax := hm.max_le
  have hpage := g.usable_le.trans g.page_le
  have hge := g.usable_ge
  have hspill := hm.spillLocal_le (payloadSize m p).1
  have hhdr := headerSize_le (g := g) m p
  have hle : headerSize g m p ≤ cellSizePtr g m p := by
    rw [hsize]
    split_ifs <;> omega
  obtain ⟨hhead, hpayload⟩ :=
    headerSize_congr (g := g) fun i hchild hi => h i hchild (hi.trans_le hle)
  rw [hsize, hsize, hhead, hpayload]

variable (g m) in
/-- The bytes are those of a cell. -/
def IsCell (xs : List UInt8) : Prop := cellSizePtr g m (fun i => xs.getD i 0) = xs.length

theorem IsCell.cellSizePtr {xs : List UInt8} (h : IsCell g m xs) (hm : m.LocalBounds g)
    {data : ℕ → UInt8} {pc : ℕ} (hdata : Holds data pc xs) :
    cellSizePtr g m (fun j => data (pc + j)) = xs.length := by
  rw [cellSizePtr_congr hm fun i _ hi => ?_, h]
  rw [h] at hi
  rw [hdata.byte hi, List.getD_eq_getElem _ _ hi]

/-- A cell has four bytes at least. -/
theorem IsCell.four_le {xs : List UInt8} (h : IsCell g m xs) (hm : m.LocalBounds g) :
    4 ≤ xs.length := by
  have hmax := hm.max_le
  have hpage := g.usable_le.trans g.page_le
  have hge := g.usable_ge
  have hspill := hm.spillLocal_le (payloadSize m fun i => xs.getD i 0).1
  have hhdr := headerSize_le (g := g) m fun i => xs.getD i 0
  rw [← h]
  rw [cellSizePtr_eq hm]
  rcases Nat.lt_or_ge m.maxLocal (payloadSize m fun i => xs.getD i 0).1 with hP | hP
  · rw [nSize_spill hP]
    omega
  · rw [nSize_local hP]
    split <;> omega

end Cell

/-! ### The cells are moved to the end of the page -/

/-- Where the cells are. -/
def extents (cells : List (ℕ × List UInt8)) : List (ℕ × ℕ) :=
  cells.map fun c => (c.1, c.2.length)

/-- The cells of a page, by position and bytes, in the order of their pointers. -/
structure CellsAt (g : Geom) (m : MemPage) (cells : List (ℕ × List UInt8)) : Prop where
  bounds : m.LocalBounds g
  nCell : m.nCell = cells.length
  header : get2 m.aData (m.hdrOffset + 3) = cells.length
  pointers : ∀ i c, cells[i]? = some c → get2 m.aData (m.cellOffset + 2 * i) = c.1
  holds : ∀ c ∈ cells, Holds m.aData c.1 c.2
  isCell : ∀ c ∈ cells, IsCell g m c.2

/-- The cells one after the other from the end, the first one last. -/
def packed : ℕ → List (ℕ × List UInt8) → List (ℕ × List UInt8)
  | _, [] => []
  | cbrk, c :: cells => (cbrk - c.2.length, c.2) :: packed (cbrk - c.2.length) cells

section Defragment

variable {g : Geom} {m : MemPage} {cells : List (ℕ × List UInt8)} {free : List (ℕ × ℕ)}
  {data temp : ℕ → UInt8} {cbrk i : ℕ}

theorem mem_extents {u : ℕ × ℕ} : u ∈ extents cells ↔ ∃ c ∈ cells, (c.1, c.2.length) = u :=
  List.mem_map

@[simp] theorem extents_cons (c : ℕ × List UInt8) (cells : List (ℕ × List UInt8)) :
    extents (c :: cells) = (c.1, c.2.length) :: extents cells := rfl

/-- What a routine keeps are the cells. -/
theorem CellsAt.keeps (h : CellsAt g m cells) (hdata : Keeps m (extents cells) data) :
    CellsAt g (m.withData data) cells := by
  have hoff := m.hdr_add_eight_le_cellOffset
  constructor
  case bounds => exact ⟨h.bounds.max_le, h.bounds.min_le⟩
  case nCell => exact h.nCell
  case header =>
    rw [← h.header]
    exact get2_congr fun i hi => hdata (m.hdrOffset + 3 + i) (by omega)
  case pointers =>
    intro i c hc
    rw [← h.pointers i c hc]
    obtain ⟨hi, -⟩ := List.getElem?_eq_some_iff.mp hc
    have hn := h.nCell
    refine get2_congr fun j hj => hdata (m.cellOffset + 2 * i + j) (Or.inr (Or.inr (Or.inl ?_)))
    rw [MemPage.iCellFirst]
    omega
  case holds =>
    intro c hc
    refine (h.holds c hc).congr fun p hle hlt => hdata p (Or.inr (Or.inr (Or.inr ?_)))
    exact ⟨_, mem_extents.mpr ⟨c, hc, rfl⟩, hle, hlt⟩
  case isCell => exact h.isCell

@[simp] theorem length_packed (cbrk : ℕ) (cells : List (ℕ × List UInt8)) :
    (packed cbrk cells).length = cells.length := by
  induction cells generalizing cbrk with
  | nil => rfl
  | cons c cells ih => simp [packed, ih]

theorem map_snd_packed (cbrk : ℕ) (cells : List (ℕ × List UInt8)) :
    (packed cbrk cells).map Prod.snd = cells.map Prod.snd := by
  induction cells generalizing cbrk with
  | nil => rfl
  | cons c cells ih => simp [packed, ih]

theorem total_packed (cbrk : ℕ) (cells : List (ℕ × List UInt8)) :
    total (extents (packed cbrk cells)) = total (extents cells) := by
  induction cells generalizing cbrk with
  | nil => rfl
  | cons c cells ih => simp [packed, ih]

/-- The cells lie one below the other. -/
theorem packed_inside (hroom : total (extents cells) ≤ cbrk) {u : ℕ × ℕ}
    (hu : u ∈ extents (packed cbrk cells)) :
    cbrk - total (extents cells) ≤ u.1 ∧ u.1 + u.2 ≤ cbrk := by
  induction cells generalizing cbrk with
  | nil => exact absurd hu (by simp [packed, extents])
  | cons c cells ih =>
    rw [extents_cons, total_cons] at hroom ⊢
    rcases List.mem_cons.mp hu with rfl | hu
    · dsimp only at hroom ⊢
      omega
    · have := ih (by dsimp only at hroom; omega) hu
      dsimp only at hroom ⊢
      omega

theorem packed_apart (hroom : total (extents cells) ≤ cbrk) :
    (extents (packed cbrk cells)).Pairwise Apart := by
  induction cells generalizing cbrk with
  | nil => exact List.Pairwise.nil
  | cons c cells ih =>
    rw [extents_cons, total_cons] at hroom
    dsimp only at hroom
    refine List.pairwise_cons.mpr ⟨fun u hu => Or.inr ?_, ih (by omega)⟩
    exact (packed_inside (by omega) hu).2

/-- What the loop of `defragmentPage` is given of each cell that it has to move. -/
structure Movable (g : Geom) (m : MemPage) (temp : ℕ → UInt8) (c : ℕ × List UInt8) : Prop where
  ge : m.iCellFirst ≤ c.1
  le : c.1 + c.2.length ≤ g.usableSize
  four_le : 4 ≤ c.2.length
  holds : Holds temp c.1 c.2
  isCell : IsCell g m c.2

variable (data i) in
/-- **The loop of `defragmentPage`** moves the cells that are left to where the last ones ended. -/
theorem defragmentCells_spec (hm : m.LocalBounds g) (hcells : ∀ c ∈ cells, Movable g m temp c)
    (hptr : ∀ j c, cells[j]? = some c → get2 data (m.cellOffset + 2 * (i + j)) = c.1)
    (hroom : m.iCellFirst + total (extents cells) ≤ cbrk) (hcbrk : cbrk ≤ g.usableSize)
    (hcount : i + cells.length ≤ m.nCell) :
    ∃ data', defragmentCells g m temp cells.length i cbrk data
        = .ok (cbrk - total (extents cells), data') ∧
      (∀ j c, (packed cbrk cells)[j]? = some c →
        get2 data' (m.cellOffset + 2 * (i + j)) = c.1) ∧
      (∀ c ∈ packed cbrk cells, Holds data' c.1 c.2) ∧
      ∀ p, p < m.cellOffset + 2 * i ∨ (m.iCellFirst ≤ p ∧ p < cbrk - total (extents cells)) ∨
        cbrk ≤ p → data' p = data p := by
  induction cells generalizing i cbrk data with
  | nil =>
    exact ⟨data, rfl, fun j c hc => absurd hc (by simp [packed]), by simp [packed], fun _ _ => rfl⟩
  | cons c cells ih =>
    have husable := g.usable_le.trans g.page_le
    have hc := hcells c List.mem_cons_self
    have hge := hc.ge
    have hle := hc.le
    have hfour := hc.four_le
    have hfirst : m.cellOffset + 2 * (i + 1) ≤ m.iCellFirst := by
      rw [List.length_cons] at hcount
      rw [MemPage.iCellFirst]
      omega
    have hpc := hptr 0 c rfl
    rw [extents_cons, total_cons] at hroom
    rw [Nat.add_zero] at hpc
    dsimp only at hroom
    generalize hdata₁ : put2 (blit data (cbrk - c.2.length) (slice temp c.1 c.2.length))
      (m.cellOffset + 2 * i) (cbrk - c.2.length) = data₁
    have hout : ∀ p, p < m.cellOffset + 2 * i ∨ m.cellOffset + 2 * (i + 1) ≤ p →
        p < cbrk - c.2.length ∨ cbrk ≤ p → data₁ p = data p := fun p hp hp' => by
      rw [← hdata₁, put2_outside (by omega), blit_outside (by rw [length_slice]; omega)]
    have hptr₁ : ∀ j d, cells[j]? = some d →
        get2 data₁ (m.cellOffset + 2 * (i + 1 + j)) = d.1 := fun j d hd => by
      obtain ⟨hj, -⟩ := List.getElem?_eq_some_iff.mp hd
      have hlast : m.cellOffset + 2 * (i + 1 + j + 1) ≤ m.iCellFirst := by
        rw [List.length_cons] at hcount
        rw [MemPage.iCellFirst]
        omega
      rw [← hptr (j + 1) d hd, show i + (j + 1) = i + 1 + j by omega]
      exact get2_congr fun k hk => hout _ (by omega) (by omega)
    obtain ⟨data', hrun, hptr', hholds', hkeep'⟩ :=
      ih data₁ (i + 1) (fun d hd => hcells d (List.mem_cons_of_mem _ hd)) hptr₁ (by omega)
        (show cbrk - c.2.length ≤ g.usableSize by omega) (by rw [List.length_cons] at hcount; omega)
    have hsum : cbrk - total (extents (c :: cells))
        = cbrk - c.2.length - total (extents cells) := by
      rw [extents_cons, total_cons]
      dsimp only
      omega
    refine ⟨data', ?_, ?_, ?_, ?_⟩
    · rw [List.length_cons, defragmentCells, load2_ok (by omega), ok_bind, hpc, if_neg (by omega),
        cellSizeAt, if_pos (by omega), ok_bind, hc.isCell.cellSizePtr hm hc.holds, if_neg (by omega),
        store_ok (by rw [length_slice]; omega), ok_bind, store2_ok (by omega), ok_bind, hdata₁, hrun,
        hsum]
    · intro j d hd
      cases j with
      | zero =>
        obtain rfl := Option.some.inj hd
        have hsame : get2 data' (m.cellOffset + 2 * (i + 0)) = get2 data₁ (m.cellOffset + 2 * i) :=
          get2_congr fun k hk => hkeep' _ (by omega)
        rw [hsame, ← hdata₁, get2_put2_self _ _ (by omega)]
      | succ j =>
        rw [show i + (j + 1) = i + 1 + j by omega]
        exact hptr' j d hd
    · intro d hd
      rcases List.mem_cons.mp hd with rfl | hd
      · have hcell : Holds data₁ (cbrk - c.2.length) (slice temp c.1 c.2.length) := by
          rw [← hdata₁]
          exact (holds_blit _ _ _).blit (by simp only [length_slice, length_bytes2]; omega)
        rw [hc.holds] at hcell
        exact hcell.congr fun p hp _ => hkeep' p (Or.inr (Or.inr hp))
      · exact hholds' d hd
    · intro p hp
      rw [hsum] at hp
      rw [hkeep' p (by omega)]
      exact hout p (by omega) (by omega)

/-- The bytes of the page after the loop, with the header of a page that has no freeblocks. -/
def clearedBytes (m : MemPage) (data : ℕ → UInt8) (cbrk : ℕ) : ℕ → UInt8 :=
  blit (blit (blit (blit (put2 data (m.hdrOffset + 5) cbrk) (m.hdrOffset + 1) [0])
    (m.hdrOffset + 2) [0]) (m.hdrOffset + 7) [0]) m.iCellFirst
    (List.replicate (cbrk - m.iCellFirst) 0)

theorem clearedBytes_outside {p : ℕ} (hhdr : p < m.hdrOffset + 1 ∨
      (m.hdrOffset + 3 ≤ p ∧ p < m.hdrOffset + 5) ∨ m.hdrOffset + 8 ≤ p)
    (hgap : p < m.iCellFirst ∨ cbrk ≤ p) : clearedBytes m data cbrk p = data p := by
  rw [clearedBytes, blit_outside (by rw [List.length_replicate]; omega), blit_outside (by simp; omega),
    blit_outside (by simp; omega), blit_outside (by simp; omega), put2_outside (by omega)]

variable (m data) in
/-- The header of a page that has no freeblocks. -/
theorem clearedBytes_header (hpos : 0 < cbrk) (hcbrk : cbrk ≤ 65536) :
    get2 (clearedBytes m data cbrk) (m.hdrOffset + 1) = 0 ∧
      clearedBytes m data cbrk (m.hdrOffset + 7) = 0 ∧
      get2byteNotZero (clearedBytes m data cbrk) (m.hdrOffset + 5) = cbrk := by
  have hhdr := m.hdr_add_eight_le
  refine ⟨?_, ?_, ?_⟩
  · have h₁ : clearedBytes m data cbrk (m.hdrOffset + 1) = 0 := by
      rw [clearedBytes, blit_outside (by omega), blit_outside (by simp), blit_outside (by simp)]
      exact blit_inside (i := 0) (by simp)
    have h₂ : clearedBytes m data cbrk (m.hdrOffset + 1 + 1) = 0 := by
      rw [clearedBytes, blit_outside (by omega), blit_outside (by simp)]
      exact blit_inside (i := 0) (by simp)
    rw [get2, h₁, h₂]
    rfl
  · rw [clearedBytes, blit_outside (by omega)]
    exact blit_inside (i := 0) (by simp)
  · have hsame : get2 (clearedBytes m data cbrk) (m.hdrOffset + 5)
        = get2 (put2 data (m.hdrOffset + 5) cbrk) (m.hdrOffset + 5) := by
      rw [clearedBytes, get2_blit_of_disjoint (by omega), get2_blit_of_disjoint (by simp),
        get2_blit_of_disjoint (by simp), get2_blit_of_disjoint (by simp)]
    rw [get2byteNotZero_congr hsame, get2byteNotZero_put2 hpos hcbrk]

variable (g m temp) in
/-- The buffer of the pager, with the copy of the content area in it. -/
def copied : ℕ → UInt8 := fun p =>
  if get2 m.aData (m.hdrOffset + 5) ≤ p ∧ p < g.usableSize then m.aData p else temp p

theorem get2_le_get2byteNotZero (data : ℕ → UInt8) (off : ℕ) :
    get2 data off ≤ get2byteNotZero data off := by
  rw [get2byteNotZero]
  split <;> omega

variable (temp) in
theorem Tiled.movable (ht : Tiled g m (extents cells) free) (hc : CellsAt g m cells)
    {c : ℕ × List UInt8} (hmem : c ∈ cells) : Movable g m (copied g m temp) c := by
  have hu : (c.1, c.2.length) ∈ extents cells ++ free :=
    List.mem_append_left _ (mem_extents.mpr ⟨c, hmem, rfl⟩)
  have hin := ht.inside _ hu
  have hle := ht.le_top
  have hraw : get2 m.aData (m.hdrOffset + 5) ≤ m.top := get2_le_get2byteNotZero _ _
  dsimp only at hin
  constructor
  case ge => omega
  case le => exact hin.2
  case four_le => exact ht.size_ge _ hu
  case holds => exact (hc.holds c hmem).congr fun p hp hp' => if_pos ⟨by omega, by omega⟩
  case isCell => exact hc.isCell c hmem

/-- What `defragmentPage` does when its loop has ended at `cbrk`. -/
theorem defragmentPage_of_run (hrun : defragmentCells g m (copied g m temp) m.nCell 0 g.usableSize
      m.aData = .ok (cbrk, data)) (hge : m.iCellFirst ≤ cbrk) (hle : cbrk ≤ g.usableSize)
    (hraw : get2 m.aData (m.hdrOffset + 5) ≤ g.usableSize) :
    defragmentPage g temp m = if cbrk - m.iCellFirst ≠ m.nFree then .error .corrupt
      else .ok (m.withData (clearedBytes m data cbrk)) := by
  have hhdr := m.hdr_add_eight_le
  rw [defragmentPage, load2_ok (by omega), ok_bind, if_neg (by omega)]
  show (defragmentCells g m (copied g m temp) m.nCell 0 g.usableSize m.aData >>= _) = _
  rw [hrun, ok_bind]
  dsimp only
  rw [store2_ok (by omega), ok_bind, store_ok (by simp; omega), ok_bind, store_ok (by simp; omega),
    ok_bind, store_ok (by simp; omega), ok_bind, store_ok (by rw [List.length_replicate]; omega),
    ok_bind]
  rfl

/-- **Defragmenting** moves all cells to the end of the page, in their order. -/
theorem defragmentPage_of_movable (hm : m.LocalBounds g) (hn : m.nCell = cells.length)
    (hheader : get2 m.aData (m.hdrOffset + 3) = cells.length)
    (hptr : ∀ i c, cells[i]? = some c → get2 m.aData (m.cellOffset + 2 * i) = c.1)
    (hcells : ∀ c ∈ cells, Movable g m (copied g m temp) c)
    (hfree : m.nFree + m.iCellFirst + total (extents cells) = g.usableSize)
    (hraw : get2 m.aData (m.hdrOffset + 5) ≤ g.usableSize) :
    ∃ data, defragmentPage g temp m = .ok (m.withData data) ∧
      CellsAt g (m.withData data) (packed g.usableSize cells) ∧
      Tiled g (m.withData data) (extents (packed g.usableSize cells)) [] ∧
      (m.withData data).top = m.iCellFirst + m.nFree := by
  have hhdr := m.hdr_add_eight_le
  have husable : g.usableSize ≤ 65536 := g.usable_le.trans g.page_le
  have hoff := m.hdr_add_eight_le_cellOffset
  obtain ⟨data₁, hrun, hptr, hholds, hkeep⟩ := defragmentCells_spec m.aData 0 hm hcells
    (fun j c hj => by rw [Nat.zero_add]; exact hptr j c hj) (by omega) le_rfl
    (by rw [hn, Nat.zero_add])
  rw [← hn] at hrun
  generalize hcbrk : g.usableSize - total (extents cells) = cbrk at *
  have hle : m.iCellFirst ≤ cbrk := by omega
  obtain ⟨hchain, hzero, htop⟩ :=
    clearedBytes_header m data₁ (show 0 < cbrk by omega) (by omega)
  have hout : ∀ p, p < m.hdrOffset + 1 ∨ (m.hdrOffset + 3 ≤ p ∧ p < m.hdrOffset + 5) ∨
      m.hdrOffset + 8 ≤ p → p < m.iCellFirst ∨ cbrk ≤ p →
      clearedBytes m data₁ cbrk p = data₁ p := fun p => clearedBytes_outside
  have hinside : ∀ u ∈ extents (packed g.usableSize cells), cbrk ≤ u.1 ∧ u.1 + u.2 ≤ g.usableSize :=
    fun u hu => hcbrk ▸ packed_inside (by omega) hu
  refine ⟨clearedBytes m data₁ cbrk, ?_, ?_, ?_, ?_⟩
  · rw [defragmentPage_of_run hrun hle (by omega) hraw, if_neg (by omega)]
  · constructor
    case bounds => exact ⟨hm.max_le, hm.min_le⟩
    case nCell => rw [length_packed]; exact hn
    case header =>
      rw [length_packed, ← hheader]
      refine get2_congr fun i hi => ?_
      rw [show (m.withData (clearedBytes m data₁ cbrk)).aData
        ((m.withData (clearedBytes m data₁ cbrk)).hdrOffset + 3 + i) = _ from
          hout (m.hdrOffset + 3 + i) (by omega) (by omega)]
      exact hkeep _ (Or.inl (by omega))
    case pointers =>
      intro i c hi
      have hlt : i < cells.length := by
        obtain ⟨hi', -⟩ := List.getElem?_eq_some_iff.mp hi
        simpa using hi'
      rw [← hptr i c hi, Nat.zero_add]
      refine get2_congr fun j hj => hout (m.cellOffset + 2 * i + j) (by omega) (Or.inl ?_)
      rw [MemPage.iCellFirst]
      omega
    case holds =>
      intro c hmem
      refine (hholds c hmem).congr fun p hp hp' => hout p ?_ ?_
      · have := (hinside _ (mem_extents.mpr ⟨c, hmem, rfl⟩)).1
        omega
      · have := (hinside _ (mem_extents.mpr ⟨c, hmem, rfl⟩)).1
        exact Or.inr (by dsimp only at this; omega)
    case isCell =>
      intro c hmem
      have hsnd : c.2 ∈ (packed g.usableSize cells).map Prod.snd := List.mem_map_of_mem hmem
      rw [map_snd_packed] at hsnd
      obtain ⟨d, hd, heq⟩ := List.mem_map.mp hsnd
      exact heq ▸ (hcells d hd).isCell
  · constructor
    case chain => exact hchain
    case apart => simpa using packed_apart (by omega)
    case inside =>
      intro u hu
      rw [List.append_nil] at hu
      exact (show (m.withData (clearedBytes m data₁ cbrk)).top = cbrk from htop).symm ▸ hinside u hu
    case size_ge =>
      intro u hu
      rw [List.append_nil] at hu
      obtain ⟨c, hmem, rfl⟩ := mem_extents.mp hu
      have hsnd : c.2 ∈ (packed g.usableSize cells).map Prod.snd := List.mem_map_of_mem hmem
      rw [map_snd_packed] at hsnd
      obtain ⟨d, hd, heq⟩ := List.mem_map.mp hsnd
      exact heq ▸ (hcells d hd).isCell.four_le hm
    case le_top => exact hle.trans_eq htop.symm
    case count =>
      rw [show (m.withData (clearedBytes m data₁ cbrk)).aData
        ((m.withData (clearedBytes m data₁ cbrk)).hdrOffset + 7) = 0 from hzero,
        show (m.withData (clearedBytes m data₁ cbrk)).top = cbrk from htop, List.append_nil,
        total_packed]
      show 0 + _ + _ = _
      omega
  · rw [show (m.withData (clearedBytes m data₁ cbrk)).top = cbrk from htop]
    omega

theorem defragmentPage_spec (hc : CellsAt g m cells) (ht : Tiled g m (extents cells) free)
    (hfree : m.nFree + m.iCellFirst + total (extents cells) = g.usableSize) (temp : ℕ → UInt8) :
    ∃ data, defragmentPage g temp m = .ok (m.withData data) ∧
      CellsAt g (m.withData data) (packed g.usableSize cells) ∧
      Tiled g (m.withData data) (extents (packed g.usableSize cells)) [] ∧
      (m.withData data).top = m.iCellFirst + m.nFree := by
  have hcount := ht.count
  have hraw : get2 m.aData (m.hdrOffset + 5) ≤ m.top := get2_le_get2byteNotZero _ _
  exact defragmentPage_of_movable hc.bounds hc.nCell hc.header hc.pointers
    (fun c hmem => ht.movable temp hc hmem) hfree (by omega)

/-! ### `allocateSpace` -/

variable {nByte : ℕ}

/-- Space is allocated on the page, with its cells in the same places or in others. -/
def Allocates (g : Geom) (m : MemPage) (cells : List (ℕ × List UInt8)) (nByte : ℕ)
    (r : MemPage × ℕ) : Prop :=
  ∃ data cells', cells'.map Prod.snd = cells.map Prod.snd ∧ CellsAt g (m.withData data) cells' ∧
    Allocated g (m.withData data) (extents cells') nByte r

section Allocate

variable (hc : CellsAt g m cells) (ht : Tiled g m (extents cells) free) (hsep : Separated free)
  (hfree : m.nFree + m.iCellFirst + total (extents cells) = g.usableSize) (temp : ℕ → UInt8)
  (hbyte : 4 ≤ nByte) (hroom : nByte + 2 ≤ m.nFree)

include hc ht hfree hbyte hroom

theorem defragment_takeGap : ∃ data, defragmentPage g temp m = .ok (m.withData data) ∧
    ∃ r, takeGap g (m.withData data) nByte (m.withData data).top = .ok r ∧
      Allocates g m cells nByte r := by
  obtain ⟨data, hrun, hcells, htiled, htop⟩ := defragmentPage_spec hc ht hfree temp
  have hgap : (m.withData data).iCellFirst + 2 + nByte ≤ (m.withData data).top := by
    rw [htop]
    show m.iCellFirst + 2 + nByte ≤ m.iCellFirst + m.nFree
    omega
  obtain ⟨r, htake, halloc⟩ := takeGap_spec htiled List.isChain_nil hgap hbyte
  exact ⟨data, hrun, r, htake, data, _, map_snd_packed _ _, hcells, halloc⟩

include hsep

theorem allocateGap_spec :
    ∃ r, allocateGap g temp m nByte m.top = .ok r ∧ Allocates g m cells nByte r := by
  have hhdr := ht.hdr_le
  rw [allocateGap]
  by_cases hgap : m.top < m.iCellFirst + 2 + nByte
  · obtain ⟨data, hrun, r, htake, halloc⟩ := defragment_takeGap hc ht hfree temp hbyte hroom
    rw [if_pos hgap, hrun, ok_bind, load2NotZero_ok (show m.hdrOffset + 5 + 2 ≤ _ by omega), ok_bind]
    exact ⟨r, htake, halloc⟩
  · obtain ⟨r, htake, halloc⟩ := takeGap_spec ht hsep (by omega) hbyte
    rw [if_neg hgap]
    exact ⟨r, htake, m.aData, cells, rfl, hc, halloc⟩

/-- **`allocateSpace` succeeds** when there is room for the space and a cell pointer, and changes no
cell. -/
theorem allocateSpace_spec :
    ∃ r, allocateSpace g temp m nByte = .ok r ∧ Allocates g m cells nByte r := by
  have hhdr := ht.hdr_le
  have hle := ht.le_top
  have htop : load2NotZero g m.aData (m.hdrOffset + 5) = .ok m.top := load2NotZero_ok (by omega)
  rw [allocateSpace]
  dsimp only
  rw [load_ok (by omega), ok_bind, htop, ok_bind, if_neg (by omega)]
  by_cases hmany : 60 ≤ (m.aData (m.hdrOffset + 7)).toNat
  · obtain ⟨data, hrun, hcells, htiled, -⟩ := defragmentPage_spec hc ht hfree temp
    have hfree' : (m.withData data).nFree + (m.withData data).iCellFirst
        + total (extents (packed g.usableSize cells)) = g.usableSize := by
      rw [total_packed]
      exact hfree
    obtain ⟨r, halloc, data', cells', hmap, hcells', hr⟩ :=
      allocateGap_spec hcells htiled List.isChain_nil hfree' temp hbyte hroom
    rw [if_pos hmany, hrun, ok_bind, load2NotZero_ok (show m.hdrOffset + 5 + 2 ≤ _ by omega), ok_bind]
    exact ⟨r, halloc, data', cells', hmap.trans (map_snd_packed _ _), hcells', hr⟩
  · rw [if_neg hmany]
    obtain ⟨r, hgap, hr⟩ := allocateGap_spec hc ht hsep hfree temp hbyte hroom
    by_cases htwo : m.iCellFirst + 2 ≤ m.top
    · rw [if_pos htwo]
      rcases findSlot_spec (show Tiled g m (extents cells) ([] ++ free) from ht) hsep ht.length_le
        hbyte rfl (by omega) htwo with hnone | ⟨r', hsome, hr'⟩
      · rw [show findSlot g m nByte _ g.usableSize (m.hdrOffset + 1) = _ from hnone, ok_bind]
        exact ⟨r, hgap, hr⟩
      · rw [show findSlot g m nByte _ g.usableSize (m.hdrOffset + 1) = _ from hsome, ok_bind]
        exact ⟨r', rfl, m.aData, cells, rfl, hc, hr'⟩
    · rw [if_neg htwo]
      exact ⟨r, hgap, hr⟩

end Allocate

end Defragment

end Btree

end SqliteVms

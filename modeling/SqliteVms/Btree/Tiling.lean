import SqliteVms.Btree.Space
import SqliteVms.Lib.Extent

/-!
# How the content area of a page is divided

The content area of a page holds the cells, the freeblocks and fragments. Cells and freeblocks do not
overlap, and the header counts the bytes that are in neither of them. What is in use is a list of
extents here; what the bytes of a cell are does not matter yet.

## Main definitions

* `FreeChain` — the list of freeblocks
* `Tiled` — the division of the content area
* `Separated` — no two freeblocks stand within three bytes
* `Keeps` — what the routines leave as it is

## Main results

* `coalesce_spec`, `freeSpace_spec` — space is given back
-/

namespace SqliteVms

namespace Btree

open Store BigEndian Extent

/-! ### Accesses that are inside -/

section Access

variable {g : Geom} {data : ℕ → UInt8} {off n v : ℕ} {xs : List UInt8}

@[simp] theorem ok_bind {α β : Type} (a : α) (f : α → Except Fault β) :
    (Except.ok a >>= f) = f a := rfl

theorem load_ok (h : off < g.usableSize) : load g data off = .ok (data off) := if_pos h

theorem loads_ok (h : off + n ≤ g.usableSize) : loads g data off n = .ok (slice data off n) :=
  if_pos h

theorem load2_ok (h : off + 2 ≤ g.usableSize) : load2 g data off = .ok (get2 data off) := if_pos h

theorem store_ok (h : off + xs.length ≤ g.usableSize) :
    store g data off xs = .ok (blit data off xs) := if_pos h

theorem store2_ok (h : off + 2 ≤ g.usableSize) : store2 g data off v = .ok (put2 data off v) :=
  store_ok h

theorem load2NotZero_ok (h : off + 2 ≤ g.usableSize) :
    load2NotZero g data off = .ok (get2byteNotZero data off) := by
  rw [load2NotZero, load2_ok h]
  rfl

end Access

/-! ### The list of freeblocks -/

/-- The link at `addr` leads through the freeblocks, by position and size. -/
def FreeChain (data : ℕ → UInt8) : ℕ → List (ℕ × ℕ) → Prop
  | addr, [] => get2 data addr = 0
  | addr, u :: us =>
    get2 data addr = u.1 ∧ get2 data (u.1 + 2) = u.2 ∧ addr + 4 ≤ u.1 ∧ FreeChain data u.1 us

/-- The last link of a part of the list. -/
def lastLink : ℕ → List (ℕ × ℕ) → ℕ
  | addr, [] => addr
  | _, u :: us => lastLink u.1 us

/-- What the link to the rest of the list holds. -/
def target : List (ℕ × ℕ) → ℕ
  | [] => 0
  | u :: _ => u.1

section FreeChain

variable {data data' : ℕ → UInt8} {addr addr' p : ℕ} {us pre post : List (ℕ × ℕ)} {u : ℕ × ℕ}

theorem FreeChain.first (h : FreeChain data addr us) : get2 data addr = target us := by
  cases us with
  | nil => exact h
  | cons u us => exact h.1

theorem lastLink_concat (addr : ℕ) (pre : List (ℕ × ℕ)) (u : ℕ × ℕ) :
    lastLink addr (pre ++ [u]) = u.1 := by
  induction pre generalizing addr with
  | nil => rfl
  | cons v pre ih => exact ih v.1

theorem lastLink_eq (addr : ℕ) (pre : List (ℕ × ℕ)) :
    lastLink addr pre = addr ∨ ∃ u ∈ pre, lastLink addr pre = u.1 := by
  rcases List.eq_nil_or_concat pre with rfl | ⟨init, u, rfl⟩
  · exact Or.inl rfl
  · rw [List.concat_eq_append, lastLink_concat]
    exact Or.inr ⟨u, by simp, rfl⟩

theorem FreeChain.rest (h : FreeChain data addr (pre ++ post)) :
    FreeChain data (lastLink addr pre) post := by
  induction pre generalizing addr with
  | nil => exact h
  | cons u pre ih => exact ih h.2.2.2

theorem FreeChain.le_lastLink (h : FreeChain data addr (pre ++ post)) : addr ≤ lastLink addr pre := by
  induction pre generalizing addr with
  | nil => exact le_rfl
  | cons u pre ih => exact (Nat.le_of_add_right_le h.2.2.1).trans (ih h.2.2.2)

theorem FreeChain.add_four_le (h : FreeChain data addr us) (hu : u ∈ us) : addr + 4 ≤ u.1 := by
  induction us generalizing addr with
  | nil => exact absurd hu (by simp)
  | cons v us ih =>
    rcases List.mem_cons.mp hu with rfl | hu
    · exact h.2.2.1
    · have := ih h.2.2.2 hu
      have := h.2.2.1
      omega

theorem FreeChain.pairwise (h : FreeChain data addr us) : us.Pairwise fun u v => u.1 + 4 ≤ v.1 := by
  induction us generalizing addr with
  | nil => exact List.Pairwise.nil
  | cons u us ih => exact List.pairwise_cons.mpr ⟨fun v hv => h.2.2.2.add_four_le hv, ih h.2.2.2⟩

/-- The list from another link, when its blocks are as they were. -/
theorem FreeChain.relink (h : FreeChain data addr us) (hadd : ∀ u ∈ us, addr' + 4 ≤ u.1)
    (hfirst : get2 data' addr' = get2 data addr)
    (hus : ∀ u ∈ us, get2 data' u.1 = get2 data u.1 ∧ get2 data' (u.1 + 2) = get2 data (u.1 + 2)) :
    FreeChain data' addr' us := by
  induction us generalizing addr addr' with
  | nil => exact hfirst.trans h
  | cons u us ih =>
    obtain ⟨hu, hsize, -, hrest⟩ := h
    obtain ⟨hnext, hsize'⟩ := hus u List.mem_cons_self
    exact ⟨hfirst.trans hu, hsize'.trans hsize, hadd u List.mem_cons_self,
      ih hrest (fun v hv => hrest.add_four_le hv) hnext fun v hv =>
        hus v (List.mem_cons_of_mem _ hv)⟩

/-- The list with a new part behind one of its links. -/
theorem FreeChain.splice {post' : List (ℕ × ℕ)} (h : FreeChain data addr (pre ++ post))
    (haddr : addr < lastLink addr pre → get2 data' addr = get2 data addr)
    (hpre : ∀ u ∈ pre, get2 data' (u.1 + 2) = get2 data (u.1 + 2) ∧
      (u.1 < lastLink addr pre → get2 data' u.1 = get2 data u.1))
    (hpost : FreeChain data' (lastLink addr pre) post') : FreeChain data' addr (pre ++ post') := by
  induction pre generalizing addr with
  | nil => exact hpost
  | cons u pre ih =>
    obtain ⟨hu, hsize, hadd, hrest⟩ := h
    have hle := hrest.le_lastLink
    refine ⟨(haddr ?_).trans hu, (hpre u List.mem_cons_self).1.trans hsize, hadd, ?_⟩
    · rw [lastLink]
      omega
    · exact ih hrest (hpre u List.mem_cons_self).2
        (fun v hv => hpre v (List.mem_cons_of_mem _ hv)) hpost

end FreeChain

/-! ### The division -/

/-- `top` of `allocateSpace`: where the content area begins. -/
def MemPage.top (m : MemPage) : ℕ := get2byteNotZero m.aData (m.hdrOffset + 5)

/-- The content area of the page is divided between what is in use, the freeblocks and the fragments
that the header counts. -/
structure Tiled (g : Geom) (m : MemPage) (used free : List (ℕ × ℕ)) : Prop where
  chain : FreeChain m.aData (m.hdrOffset + 1) free
  apart : (used ++ free).Pairwise Apart
  inside : ∀ u ∈ used ++ free, m.top ≤ u.1 ∧ u.1 + u.2 ≤ g.usableSize
  size_ge : ∀ u ∈ used ++ free, 4 ≤ u.2
  le_top : m.iCellFirst ≤ m.top
  count : (m.aData (m.hdrOffset + 7)).toNat + total (used ++ free) + m.top = g.usableSize

/-- A freeblock is four bytes before the next one, at least. -/
def Separated (free : List (ℕ × ℕ)) : Prop := free.IsChain fun u v => u.1 + u.2 + 4 ≤ v.1

/-- The header up to the list of freeblocks, the number of cells, the cell pointers and what is in
use stay as they are. -/
def Keeps (m : MemPage) (used : List (ℕ × ℕ)) (data' : ℕ → UInt8) : Prop :=
  ∀ p, p ≤ m.hdrOffset ∨ (m.hdrOffset + 3 ≤ p ∧ p < m.hdrOffset + 5) ∨
    (m.hdrOffset + 8 ≤ p ∧ p < m.iCellFirst) ∨ (∃ u ∈ used, Inside u p) → data' p = m.aData p

/-- The page with other bytes. -/
abbrev MemPage.withData (m : MemPage) (data : ℕ → UInt8) : MemPage := { m with aData := data }

section Tiled

variable {g : Geom} {m : MemPage} {data data' : ℕ → UInt8} {used free pre post : List (ℕ × ℕ)}
  {u v : ℕ × ℕ} {p : ℕ}

theorem Keeps.refl (m : MemPage) (used : List (ℕ × ℕ)) : Keeps m used m.aData := fun _ _ => rfl

theorem Keeps.trans (h : Keeps m used data) (h' : Keeps (m.withData data) used data') :
    Keeps m used data' := fun p hp => (h' p hp).trans (h p hp)

theorem MemPage.hdr_add_eight_le_cellOffset (m : MemPage) : m.hdrOffset + 8 ≤ m.cellOffset := by
  rw [MemPage.cellOffset]
  split <;> omega

theorem MemPage.hdr_add_eight_le (m : MemPage) : m.hdrOffset + 8 ≤ m.iCellFirst :=
  m.hdr_add_eight_le_cellOffset.trans (Nat.le_add_right _ _)

theorem get2byteNotZero_pos (data : ℕ → UInt8) (off : ℕ) : 0 < get2byteNotZero data off := by
  rw [get2byteNotZero]
  split <;> omega

theorem get2byteNotZero_congr {off off' : ℕ} (h : get2 data' off' = get2 data off) :
    get2byteNotZero data' off' = get2byteNotZero data off := by
  rw [get2byteNotZero, get2byteNotZero, h]

/-- What is written as the start of the content area is read back, 65536 too. -/
theorem get2byteNotZero_put2 {off n : ℕ} (hpos : 0 < n) (hle : n ≤ 65536) :
    get2byteNotZero (put2 data off n) off = n := by
  rw [get2byteNotZero, get2_put2_mod]
  split <;> omega

theorem Tiled.usable_le (_ : Tiled g m used free) : g.usableSize ≤ 65536 :=
  g.usable_le.trans g.page_le

/-- Where a freeblock stands. -/
theorem Tiled.mem_free (h : Tiled g m used free) (hu : u ∈ free) :
    m.hdrOffset + 8 ≤ u.1 ∧ m.iCellFirst ≤ u.1 ∧ u.1 + u.2 ≤ g.usableSize ∧ 4 ≤ u.2 := by
  have hin := h.inside u (List.mem_append_right _ hu)
  have hsize := h.size_ge u (List.mem_append_right _ hu)
  have hhdr := m.hdr_add_eight_le
  have hle := h.le_top
  exact ⟨by omega, by omega, hin.2, hsize⟩

theorem Tiled.hdr_le (h : Tiled g m used free) : m.hdrOffset + 8 ≤ g.usableSize := by
  have hcount := h.count
  have hhdr := m.hdr_add_eight_le
  have hle := h.le_top
  omega

/-- A link is in the header, or the start of a freeblock. -/
theorem Tiled.lastLink_cases (h : Tiled g m used (pre ++ post)) :
    lastLink (m.hdrOffset + 1) pre = m.hdrOffset + 1 ∨
      m.iCellFirst ≤ lastLink (m.hdrOffset + 1) pre := by
  rcases lastLink_eq (m.hdrOffset + 1) pre with heq | ⟨u, hu, heq⟩
  · exact Or.inl heq
  · rw [heq]
    exact Or.inr (h.mem_free (List.mem_append_left _ hu)).2.1

theorem Tiled.lastLink_add_two_le (h : Tiled g m used (pre ++ post)) :
    lastLink (m.hdrOffset + 1) pre + 2 ≤ g.usableSize := by
  have hhdr := h.hdr_le
  rcases lastLink_eq (m.hdrOffset + 1) pre with heq | ⟨u, hu, heq⟩
  · omega
  · have := h.mem_free (List.mem_append_left _ hu)
    omega

/-- Freeblocks do not overlap what is in use. -/
theorem Tiled.not_inside_used (h : Tiled g m used free) (hu : u ∈ free) (hp : Inside u p)
    (hv : v ∈ used) : ¬ Inside v p :=
  (((List.pairwise_append.mp h.apart).2.2 v hv u hu).symm).not_inside hp

/-- Only the freeblocks and six bytes of the header matter for the division, and the extents in use
but not their order. -/
theorem Tiled.update {m' : MemPage} {used' : List (ℕ × ℕ)} (h : Tiled g m used free)
    (hoff : m'.hdrOffset = m.hdrOffset) (hle : m'.iCellFirst ≤ m.top) (hused : used'.Perm used)
    (hhdr : ∀ p, (m.hdrOffset + 1 ≤ p ∧ p < m.hdrOffset + 3) ∨
      (m.hdrOffset + 5 ≤ p ∧ p < m.hdrOffset + 8) → m'.aData p = m.aData p)
    (hfree : ∀ u ∈ free, ∀ p, Inside u p → m'.aData p = m.aData p) : Tiled g m' used' free := by
  have htop : m'.top = m.top := by
    rw [MemPage.top, hoff]
    exact get2byteNotZero_congr (get2_congr fun i hi => hhdr _ (by omega))
  have hperm : (used' ++ free).Perm (used ++ free) := hused.append_right free
  constructor
  case chain =>
    rw [hoff]
    refine h.chain.relink (fun u => h.chain.add_four_le)
      (get2_congr fun i hi => hhdr _ (by omega)) fun u hu => ?_
    have hsize := (h.mem_free hu).2.2.2
    constructor
    · exact get2_congr fun i hi => hfree u hu _ ⟨by omega, by omega⟩
    · exact get2_congr fun i hi => hfree u hu _ ⟨by omega, by omega⟩
  case apart => exact pairwise_perm hperm.symm h.apart
  case inside => exact fun u hu => htop ▸ h.inside u (hperm.mem_iff.mp hu)
  case size_ge => exact fun u hu => h.size_ge u (hperm.mem_iff.mp hu)
  case le_top => exact htop ▸ hle
  case count =>
    rw [htop, hoff, hhdr _ (by omega), total_perm hperm]
    exact h.count

/-- Each freeblock ends before the next one begins. -/
theorem Tiled.sorted (h : Tiled g m used free) : free.Pairwise fun u v => u.1 + u.2 ≤ v.1 := by
  have hfree := (List.pairwise_append.mp h.apart).2.1
  refine (hfree.and h.chain.pairwise).imp ?_
  rintro u v ⟨hle | hle, hlt⟩
  · exact hle
  · omega

/-- The extents with those of two freeblocks in front. -/
theorem perm_two (used pre post : List (ℕ × ℕ)) (u v : ℕ × ℕ) :
    (used ++ (pre ++ u :: v :: post)).Perm (u :: v :: (used ++ (pre ++ post))) := by
  calc used ++ (pre ++ u :: v :: post)
      = (used ++ pre) ++ u :: v :: post := (List.append_assoc _ _ _).symm
    _ |>.Perm (u :: ((used ++ pre) ++ v :: post)) := List.perm_middle
    _ |>.Perm (u :: v :: ((used ++ pre) ++ post)) := List.perm_middle.cons u
    _ |>.Perm (u :: v :: (used ++ (pre ++ post))) := by rw [List.append_assoc]

theorem perm_one (used pre post : List (ℕ × ℕ)) (u : ℕ × ℕ) :
    (used ++ (pre ++ u :: post)).Perm (u :: (used ++ (pre ++ post))) := by
  rw [← List.append_assoc, ← List.append_assoc]
  exact List.perm_middle

theorem mem_rest {w : ℕ × ℕ} (hw : w ∈ used ++ (pre ++ post)) :
    w ∈ used ++ (pre ++ u :: v :: post) :=
  (perm_two used pre post u v).mem_iff.mpr (List.mem_cons_of_mem _ (List.mem_cons_of_mem _ hw))

/-- The extent that two freeblocks make with the fragment between them. -/
def merged (u v : ℕ × ℕ) : ℕ × ℕ := (u.1, v.1 + v.2 - u.1)

section Merge

variable (h : Tiled g m used (pre ++ u :: v :: post)) (hnear : v.1 ≤ u.1 + u.2 + 3)

include h

theorem Tiled.add_le : u.1 + u.2 ≤ v.1 :=
  (List.pairwise_cons.mp (List.pairwise_append.mp h.sorted).2.1).1 v List.mem_cons_self

include hnear

/-- No other extent lies between two freeblocks that are near. -/
theorem Tiled.merged_apart : (merged u v :: (used ++ (pre ++ post))).Pairwise Apart := by
  have huv := h.add_le
  have hperm := perm_two used pre post u v
  obtain ⟨hapartu, hrest⟩ := List.pairwise_cons.mp (pairwise_perm hperm h.apart)
  obtain ⟨hapartv, hrest⟩ := List.pairwise_cons.mp hrest
  refine List.pairwise_cons.mpr ⟨fun w hw => ?_, hrest⟩
  have := h.size_ge w (mem_rest hw)
  have := hapartu w (List.mem_cons_of_mem _ hw)
  have := hapartv w hw
  simp only [Apart, merged] at *
  omega

omit hnear in
theorem Tiled.merged_inside {w : ℕ × ℕ} (hw : w ∈ merged u v :: (used ++ (pre ++ post))) :
    m.top ≤ w.1 ∧ w.1 + w.2 ≤ g.usableSize := by
  rcases List.mem_cons.mp hw with rfl | hw
  · have hperm := perm_two used pre post u v
    have hu := h.inside u (hperm.mem_iff.mpr List.mem_cons_self)
    have hv := h.inside v (hperm.mem_iff.mpr (List.mem_cons_of_mem _ List.mem_cons_self))
    have huv := h.add_le
    simp only [merged]
    omega
  · exact h.inside w (mem_rest hw)

/-- The bytes between them are fragments. -/
theorem Tiled.frag_le : v.1 - (u.1 + u.2) ≤ (m.aData (m.hdrOffset + 7)).toNat := by
  have huv := h.add_le
  have hcount := h.count
  have htotal := total_add_le (h.merged_apart hnear) (fun w hw => h.merged_inside hw) (by omega)
  rw [total_perm (perm_two used pre post u v), total_cons, total_cons] at hcount
  rw [total_cons] at htotal
  simp only [merged] at htotal
  omega

/-- **Two freeblocks are put together**, with the fragment between them. -/
theorem Tiled.merge (hfirst : get2 data u.1 = target post)
    (hsize : get2 data (u.1 + 2) = v.1 + v.2 - u.1)
    (hfrag : (data (m.hdrOffset + 7)).toNat + (v.1 - (u.1 + u.2))
      = (m.aData (m.hdrOffset + 7)).toNat)
    (hkeep : ∀ p, p ≠ m.hdrOffset + 7 → p < u.1 ∨ u.1 + 4 ≤ p → data p = m.aData p) :
    Tiled g (m.withData data) used (pre ++ merged u v :: post) := by
  obtain ⟨-, hsorted, hbefore⟩ := List.pairwise_append.mp h.sorted
  obtain ⟨hu', hsorted⟩ := List.pairwise_cons.mp hsorted
  have huv := h.add_le
  have hhdr := m.hdr_add_eight_le
  have hu := h.mem_free (u := u) (by simp)
  have hv := h.mem_free (u := v) (by simp)
  have hword : ∀ off, off + 2 ≤ m.hdrOffset + 7 ∨ m.hdrOffset + 8 ≤ off →
      off + 2 ≤ u.1 ∨ u.1 + 4 ≤ off → get2 data off = get2 m.aData off :=
    fun off h7 hoff => get2_congr fun i hi => hkeep _ (by omega) (by omega)
  have htop : (m.withData data).top = m.top :=
    get2byteNotZero_congr (hword (m.hdrOffset + 5) (by omega) (by omega))
  have hchain := h.chain
  obtain ⟨hlink, -, hadd, hnext⟩ := hchain.rest
  have hperm := perm_one used pre post (merged u v)
  constructor
  case chain =>
    refine hchain.splice (fun _ => hword _ (by omega) (by omega)) (fun w hw => ?_) ?_
    · have hw' := h.mem_free (u := w) (List.mem_append_left _ hw)
      have hle := hbefore w hw u List.mem_cons_self
      exact ⟨hword _ (by omega) (by omega), fun _ => hword _ (by omega) (by omega)⟩
    · have hside := h.lastLink_cases
      refine ⟨(hword _ (by omega) (by omega)).trans hlink, hsize, hadd, ?_⟩
      refine hnext.2.2.2.relink (fun w hw => ?_) ?_ fun w hw => ?_
      · have := hnext.2.2.2.add_four_le hw
        simp only [merged]
        omega
      · exact hfirst.trans hnext.2.2.2.first.symm
      · have hle := hu' w (List.mem_cons_of_mem _ hw)
        exact ⟨hword _ (by omega) (by omega), hword _ (by omega) (by omega)⟩
  case apart => exact pairwise_perm hperm.symm (h.merged_apart hnear)
  case inside =>
    intro w hw
    rw [htop]
    exact h.merged_inside (hperm.mem_iff.mp hw)
  case size_ge =>
    intro w hw
    rcases List.mem_cons.mp (hperm.mem_iff.mp hw) with rfl | hw
    · simp only [merged]
      omega
    · exact h.size_ge w (mem_rest hw)
  case le_top => rw [htop]; exact h.le_top
  case count =>
    have hcount := h.count
    rw [total_perm (perm_two used pre post u v), total_cons, total_cons] at hcount
    rw [htop, total_perm hperm, total_cons]
    simp only [merged]
    omega

end Merge

/-! ### Freeblocks are put together -/

theorem target_append (pre : List (ℕ × ℕ)) (u v : ℕ × ℕ) (us vs : List (ℕ × ℕ)) (h : u.1 = v.1) :
    target (pre ++ u :: us) = target (pre ++ v :: vs) := by
  cases pre with
  | nil => exact h
  | cons w pre => rfl

/-- The bytes after two freeblocks were put together. -/
def mergeBytes (hdr : ℕ) (data : ℕ → UInt8) (u v : ℕ × ℕ) : ℕ → UInt8 :=
  let data₁ := blit data (hdr + 7) [data (hdr + 7) - UInt8.ofNat (v.1 - (u.1 + u.2))]
  put2 (put2 data₁ u.1 (get2 data₁ v.1)) (u.1 + 2) (v.1 + v.2 - u.1)

theorem mergeBytes_outside {hdr : ℕ} (hne : p ≠ hdr + 7) (hp : p < u.1 ∨ u.1 + 4 ≤ p) :
    mergeBytes hdr data u v p = data p := by
  rw [mergeBytes, put2_outside (by omega), put2_outside (by omega), blit_outside (by simp; omega)]

theorem Tiled.tiled_mergeBytes (h : Tiled g m used (pre ++ u :: v :: post))
    (hnear : v.1 ≤ u.1 + u.2 + 3) :
    Tiled g (m.withData (mergeBytes m.hdrOffset m.aData u v)) used (pre ++ merged u v :: post) := by
  have huv := h.add_le
  have hhdr := m.hdr_add_eight_le
  have hu := h.mem_free (u := u) (by simp)
  have hv := h.mem_free (u := v) (by simp)
  have hfrag := h.frag_le hnear
  have husable := h.usable_le
  obtain ⟨-, -, -, hnext⟩ := h.chain.rest
  refine h.merge hnear ?_ ?_ ?_ fun p => mergeBytes_outside
  · rw [mergeBytes, get2_put2_of_disjoint (by omega), get2_put2_self _ _ (get2_lt _ _),
      get2_blit_of_disjoint (by simp; omega)]
    exact hnext.2.2.2.first
  · exact get2_put2_self _ _ (by omega)
  · have hbyte : mergeBytes m.hdrOffset m.aData u v (m.hdrOffset + 7)
        = m.aData (m.hdrOffset + 7) - UInt8.ofNat (v.1 - (u.1 + u.2)) := by
      rw [mergeBytes, put2_outside (by omega), put2_outside (by omega)]
      exact blit_inside (i := 0) (by simp)
    have hlt := (m.aData (m.hdrOffset + 7)).toNat_lt
    have hof : (UInt8.ofNat (v.1 - (u.1 + u.2))).toNat = v.1 - (u.1 + u.2) := by
      rw [UInt8.toNat_ofNat', Nat.mod_eq_of_lt (by omega)]
    have hle : UInt8.ofNat (v.1 - (u.1 + u.2)) ≤ m.aData (m.hdrOffset + 7) := by
      rw [UInt8.le_iff_toNat_le, hof]
      exact hfrag
    rw [hbyte, UInt8.toNat_sub_of_le _ _ hle, hof]
    exact Nat.sub_add_cancel hfrag

theorem Tiled.mergeBytes_keeps (h : Tiled g m used (pre ++ u :: v :: post)) :
    Keeps m used (mergeBytes m.hdrOffset m.aData u v) := by
  have hu := h.mem_free (u := u) (by simp)
  have hhdr := m.hdr_add_eight_le
  intro p hp
  refine mergeBytes_outside ?_ ?_
  · rintro rfl
    rcases hp with hp | hp | hp | ⟨w, hw, hp⟩
    · omega
    · omega
    · omega
    · have := h.inside w (List.mem_append_left _ hw)
      have := h.le_top
      have := hp.1
      omega
  · by_contra hin
    have hinside : Inside u p := ⟨by omega, by omega⟩
    rcases hp with hp | hp | hp | ⟨w, hw, hp⟩
    · omega
    · omega
    · omega
    · exact h.not_inside_used (by simp) hinside hw hp

theorem separated_concat (h : Separated (pre ++ [u])) (huv : v.1 = u.1) :
    Separated (pre ++ [v]) := by
  obtain ⟨hpre, -, hlast⟩ := List.isChain_append.mp h
  refine List.isChain_append.mpr ⟨hpre, List.isChain_singleton _, fun w hw x hx => ?_⟩
  obtain rfl := Option.some.inj hx
  have := hlast w hw u rfl
  omega

/-- **The loop that puts freeblocks together** leaves a list in which none are near. With `pre` behind
it and `rest` ahead, no blocks in `pre` are near. -/
theorem coalesce_spec {fuel : ℕ} {rest : List (ℕ × ℕ)} (h : Tiled g m used (pre ++ rest))
    (hsep : Separated (pre ++ rest.take 1)) (hfuel : rest.length < fuel) :
    ∃ data free, coalesce g m.hdrOffset fuel (lastLink (m.hdrOffset + 1) pre) m.aData = .ok data ∧
      Tiled g (m.withData data) used free ∧ Separated free ∧ Keeps m used data ∧
      get2 data (m.hdrOffset + 5) = get2 m.aData (m.hdrOffset + 5) ∧
      target free = target (pre ++ rest) := by
  induction fuel generalizing pre rest m with
  | zero => exact absurd hfuel (Nat.not_lt_zero _)
  | succ fuel ih =>
    have hlink := h.chain.rest
    rw [coalesce, load2_ok h.lastLink_add_two_le, ok_bind, hlink.first]
    cases rest with
    | nil =>
      rw [target, if_pos rfl]
      exact ⟨m.aData, pre, rfl, by simpa using h, by simpa using hsep, Keeps.refl _ _, rfl, by simp⟩
    | cons u rest =>
      obtain ⟨hu, hsize, hadd, hnext⟩ := hlink
      have hin := h.mem_free (u := u) (by simp)
      rw [target, if_neg (by omega), load2_ok (by omega), ok_bind, load2_ok (by omega), ok_bind,
        hnext.first, hsize]
      cases rest with
      | nil =>
        have h' : Tiled g m used ((pre ++ [u]) ++ []) := by simpa using h
        have hmore := ih h' (by simpa using hsep) (by simpa using hfuel)
        rw [target, if_neg (by omega)]
        simpa [lastLink_concat] using hmore
      | cons v rest =>
        obtain ⟨hv, hsizev, -, hlast⟩ := hnext
        have hinv := h.mem_free (u := v) (by simp)
        have huv := h.add_le
        by_cases hnear : v.1 ≤ u.1 + u.2 + 3
        · have hfrag := h.frag_le hnear
          have hstep := h.tiled_mergeBytes hnear
          have hhdr := m.hdr_add_eight_le
          obtain ⟨data, free, hrun, htiled, hfree, hkeeps, htop, htarget⟩ :=
            ih hstep (separated_concat hsep rfl) (by simpa using hfuel)
          have hread : ∀ x, get2 (put2 (blit m.aData (m.hdrOffset + 7)
              [m.aData (m.hdrOffset + 7) - UInt8.ofNat (v.1 - (u.1 + u.2))]) u.1 x) (v.1 + 2)
              = v.2 := fun x => by
            rw [get2_put2_of_disjoint (by omega), get2_blit_of_disjoint (by simp; omega), hsizev]
          refine ⟨data, free, ?_, htiled, hfree, h.mergeBytes_keeps.trans hkeeps, ?_, ?_⟩
          · rw [target, if_pos ⟨hnear, by omega⟩, load_ok (by omega), ok_bind]
            dsimp only
            rw [if_neg (by omega), store_ok (by simp; omega), ok_bind, load2_ok (by omega), ok_bind,
              store2_ok (by omega), ok_bind, load2_ok (by omega), ok_bind, store2_ok (by omega),
              ok_bind, hread]
            exact hrun
          · have hsame : get2 (mergeBytes m.hdrOffset m.aData u v) (m.hdrOffset + 5)
                = get2 m.aData (m.hdrOffset + 5) :=
              get2_congr fun i hi => mergeBytes_outside (by omega) (by omega)
            exact htop.trans hsame
          · rw [htarget]
            exact target_append pre _ _ _ _ rfl
        · have h' : Tiled g m used ((pre ++ [u]) ++ v :: rest) := by simpa using h
          have hsep' : Separated ((pre ++ [u]) ++ [v]) := by
            refine List.isChain_append.mpr ⟨hsep, List.isChain_singleton _, fun w hw x hx => ?_⟩
            obtain rfl := Option.some.inj hx
            obtain rfl : u = w := by simpa using hw
            omega
          have hmore := ih h' hsep' (by simpa using hfuel)
          rw [target, if_neg (by omega)]
          simpa [lastLink_concat] using hmore

/-! ### A block is given back -/

/-- The blocks before a link end before it. -/
theorem Tiled.le_lastLink (h : Tiled g m used (pre ++ post)) (hu : u ∈ pre) :
    u.1 = lastLink (m.hdrOffset + 1) pre ∨ u.1 + u.2 ≤ lastLink (m.hdrOffset + 1) pre := by
  rcases List.eq_nil_or_concat pre with rfl | ⟨init, w, rfl⟩
  · exact absurd hu (by simp)
  · rw [List.concat_eq_append] at h hu ⊢
    rw [lastLink_concat]
    rcases List.mem_append.mp hu with hu | hu
    · have hsorted := (List.pairwise_append.mp h.sorted).1
      exact Or.inr ((List.pairwise_append.mp hsorted).2.2 u hu w (by simp))
    · rw [List.mem_singleton.mp hu]
      exact Or.inl rfl

/-- **The search for the place of a block** comes to the link before it. -/
theorem findGap_spec {fuel : ℕ} (start : ℕ) (h : Tiled g m used (pre ++ post))
    (hfuel : post.length < fuel) :
    ∃ before after, post = before ++ after ∧
      findGap g m.aData start fuel (lastLink (m.hdrOffset + 1) pre)
        = .ok (lastLink (m.hdrOffset + 1) (pre ++ before), target after) ∧
      (∀ u ∈ before, u.1 < start) ∧ (∀ u ∈ after, start ≤ u.1) := by
  induction post generalizing pre fuel with
  | nil =>
    obtain ⟨fuel, rfl⟩ := Nat.exists_eq_succ_of_ne_zero (Nat.ne_zero_of_lt hfuel)
    refine ⟨[], [], rfl, ?_, by simp, by simp⟩
    rw [findGap, load2_ok h.lastLink_add_two_le, ok_bind, h.chain.rest.first, target,
      if_neg (by simp), List.append_nil]
  | cons u post ih =>
    obtain ⟨fuel, rfl⟩ := Nat.exists_eq_succ_of_ne_zero (Nat.ne_zero_of_lt hfuel)
    obtain ⟨hu, -, hadd, hnext⟩ := h.chain.rest
    by_cases hlt : u.1 < start
    · obtain ⟨before, after, rfl, hrun, hbefore, hafter⟩ :=
        ih (by simpa using h : Tiled g m used ((pre ++ [u]) ++ post)) (Nat.lt_of_succ_lt_succ hfuel)
      refine ⟨u :: before, after, rfl, ?_, List.forall_mem_cons.mpr ⟨hlt, hbefore⟩, hafter⟩
      rw [lastLink_concat] at hrun
      rw [findGap, load2_ok h.lastLink_add_two_le, ok_bind, hu, if_pos ⟨hlt, by omega⟩,
        if_neg (by omega), hrun, List.append_assoc, List.singleton_append]
    · refine ⟨[], u :: post, rfl, ?_, by simp, ?_⟩
      · rw [findGap, load2_ok h.lastLink_add_two_le, ok_bind, hu, if_neg (by omega),
          List.append_nil, target]
      · refine List.forall_mem_cons.mpr ⟨by omega, fun v hv => ?_⟩
        have := hnext.add_four_le hv
        omega

/-- The bytes after a block was put in the list. -/
def linkBytes (data : ℕ → UInt8) (addr pbegin : ℕ) (u : ℕ × ℕ) : ℕ → UInt8 :=
  put2 (put2 (put2 data addr u.1) u.1 pbegin) (u.1 + 2) u.2

/-- **A block is put in the list.** -/
theorem Tiled.link (h : Tiled g m (u :: used) (pre ++ post)) (hpre : ∀ w ∈ pre, w.1 < u.1)
    (hpost : ∀ w ∈ post, u.1 ≤ w.1) :
    Tiled g (m.withData (linkBytes m.aData (lastLink (m.hdrOffset + 1) pre) (target post) u)) used
      (pre ++ u :: post) := by
  have hperm := perm_one used pre post u
  have hapart := (List.pairwise_cons.mp h.apart).1
  have hin := h.inside u List.mem_cons_self
  have hsize := h.size_ge u List.mem_cons_self
  have htop := h.le_top
  have hhdr := m.hdr_add_eight_le
  have husable := h.usable_le
  have hpre' : ∀ w ∈ pre, w.1 + w.2 ≤ u.1 := fun w hw => by
    have := hpre w hw
    rcases hapart w (by simp [hw]) with hle | hle <;> omega
  have hpost' : ∀ w ∈ post, u.1 + u.2 ≤ w.1 := fun w hw => by
    have := hpost w hw
    have := (h.mem_free (List.mem_append_right _ hw)).2.2.2
    rcases hapart w (by simp [hw]) with hle | hle <;> omega
  have hlink : lastLink (m.hdrOffset + 1) pre + 4 ≤ u.1 := by
    rcases lastLink_eq (m.hdrOffset + 1) pre with heq | ⟨w, hw, heq⟩
    · omega
    · have := hpre' w hw
      have := (h.mem_free (List.mem_append_left _ hw)).2.2.2
      omega
  have hside := h.lastLink_cases
  generalize hL : lastLink (m.hdrOffset + 1) pre = addr at *
  have hword : ∀ off, off + 2 ≤ addr ∨ addr + 2 ≤ off → off + 2 ≤ u.1 ∨ u.1 + 4 ≤ off →
      get2 (linkBytes m.aData addr (target post) u) off = get2 m.aData off := fun off haddr hu => by
    rw [linkBytes, get2_put2_of_disjoint (by omega), get2_put2_of_disjoint (by omega),
      get2_put2_of_disjoint (by omega)]
  have htop' : (m.withData (linkBytes m.aData addr (target post) u)).top = m.top :=
    get2byteNotZero_congr (hword (m.hdrOffset + 5) (by omega) (by omega))
  have hchain := h.chain
  constructor
  case chain =>
    refine hchain.splice (fun hlt => ?_) (fun w hw => ?_) ?_
    · exact hword _ (by omega) (by omega)
    · have hw' := h.mem_free (List.mem_append_left _ hw)
      have hbefore := h.le_lastLink hw
      have hle := hpre' w hw
      rw [hL] at hbefore ⊢
      exact ⟨hword _ (by omega) (by omega), fun hlt => hword _ (by omega) (by omega)⟩
    · have hrest := hchain.rest
      rw [hL] at hrest ⊢
      refine ⟨?_, ?_, hlink, hrest.relink (fun w hw => ?_) ?_ fun w hw => ?_⟩
      · rw [linkBytes, get2_put2_of_disjoint (by omega), get2_put2_of_disjoint (by omega),
          get2_put2_self _ _ (by omega)]
      · rw [linkBytes, get2_put2_self _ _ (by omega)]
      · have := hpost' w hw
        omega
      · rw [linkBytes, get2_put2_of_disjoint (by omega), get2_put2_self, hrest.first]
        rw [← hrest.first]
        exact get2_lt _ _
      · have hle := hpost' w hw
        exact ⟨hword _ (by omega) (by omega), hword _ (by omega) (by omega)⟩
  case apart => exact pairwise_perm hperm.symm h.apart
  case inside =>
    intro w hw
    rw [htop']
    exact h.inside w (hperm.mem_iff.mp hw)
  case size_ge => exact fun w hw => h.size_ge w (hperm.mem_iff.mp hw)
  case le_top => rw [htop']; exact h.le_top
  case count =>
    have hbyte : linkBytes m.aData addr (target post) u (m.hdrOffset + 7)
        = m.aData (m.hdrOffset + 7) := by
      rw [linkBytes, put2_outside (by omega), put2_outside (by omega), put2_outside (by omega)]
    have hcount := h.count
    rw [← hbyte] at hcount
    rw [htop', total_perm hperm]
    exact hcount

theorem Tiled.linkBytes_keeps (h : Tiled g m (u :: used) (pre ++ post)) :
    Keeps m used (linkBytes m.aData (lastLink (m.hdrOffset + 1) pre) (target post) u) := by
  have hapart := h.apart
  have hin := h.inside u List.mem_cons_self
  have hsize := h.size_ge u List.mem_cons_self
  have htop := h.le_top
  have hhdr := m.hdr_add_eight_le
  have hside := h.lastLink_cases
  intro p hp
  have hu : ¬ Inside u p := fun hin' => by
    rcases hp with hp | hp | hp | ⟨w, hw, hp⟩
    · have := hin'.1
      omega
    · have := hin'.1
      omega
    · have := hin'.1
      omega
    · exact not_inside_of_mem hapart hin' (List.mem_append_left _ hw) hp
  have hlink : p < lastLink (m.hdrOffset + 1) pre ∨ lastLink (m.hdrOffset + 1) pre + 2 ≤ p := by
    rcases lastLink_eq (m.hdrOffset + 1) pre with heq | ⟨w, hw, heq⟩
    · rcases hp with hp | hp | hp | ⟨x, hx, hp⟩
      · omega
      · omega
      · omega
      · have := h.inside x (by simp [hx])
        have := hp.1
        omega
    · by_contra hnot
      have hw' := h.mem_free (List.mem_append_left _ hw)
      have hwin : Inside w p := ⟨by omega, by omega⟩
      rcases hp with hp | hp | hp | ⟨x, hx, hp⟩
      · omega
      · omega
      · omega
      · exact h.not_inside_used (List.mem_append_left _ hw) hwin (List.mem_cons_of_mem _ hx) hp
  have hnot : p < u.1 ∨ u.1 + 4 ≤ p := by
    by_contra hcon
    exact hu ⟨by omega, by omega⟩
  rw [linkBytes, put2_outside (by omega), put2_outside (by omega), put2_outside hlink]

/-! ### The start of the content area -/

theorem slice_two_eq_iff {off off' : ℕ} :
    slice data off 2 = slice data off' 2 ↔ get2 data off = get2 data off' := by
  have hslice : ∀ off, slice data off 2 = [data off, data (off + 1)] := fun _ => rfl
  rw [hslice, hslice, get2, get2]
  constructor
  · intro heq
    obtain ⟨h₀, h₁⟩ := List.cons.inj heq
    rw [h₀, (List.cons.inj h₁).1]
  · intro heq
    have h₀ := (data (off + 1)).toNat_lt
    have h₁ := (data (off' + 1)).toNat_lt
    rw [UInt8.toNat_inj.mp (show (data off).toNat = (data off').toNat by omega),
      UInt8.toNat_inj.mp (show (data (off + 1)).toNat = (data (off' + 1)).toNat by omega)]

/-- The bytes after the first freeblock joined the gap. -/
def dropBytes (hdr : ℕ) (data : ℕ → UInt8) (u : ℕ × ℕ) : ℕ → UInt8 :=
  put2 (blit data (hdr + 1) (slice data u.1 2)) (hdr + 5) (u.1 + u.2)

/-- **The first freeblock joins the gap.** -/
theorem Tiled.tiled_dropBytes (h : Tiled g m used (u :: post)) (htop : u.1 = m.top) :
    Tiled g (m.withData (dropBytes m.hdrOffset m.aData u)) used post := by
  have hperm : (used ++ u :: post).Perm (u :: (used ++ post)) := List.perm_middle
  have hall := pairwise_perm hperm h.apart
  have hu := h.mem_free List.mem_cons_self
  have hhdr := m.hdr_add_eight_le
  have husable := h.usable_le
  obtain ⟨-, -, -, hnext⟩ := h.chain
  have hword : ∀ off, m.hdrOffset + 8 ≤ off →
      get2 (dropBytes m.hdrOffset m.aData u) off = get2 m.aData off := fun off hoff => by
    rw [dropBytes, get2_put2_of_disjoint (by omega), get2_blit_of_disjoint (by simp; omega)]
  have htop' : (m.withData (dropBytes m.hdrOffset m.aData u)).top = u.1 + u.2 :=
    get2byteNotZero_put2 (by omega) (by omega)
  have hfirst : get2 (dropBytes m.hdrOffset m.aData u) (m.hdrOffset + 1) = get2 m.aData u.1 := by
    rw [dropBytes, get2_put2_of_disjoint (by omega)]
    exact get2_congr fun i hi => by rw [blit_inside (by simpa using hi), getElem_slice]
  have hmem : ∀ w ∈ used ++ post, w ∈ used ++ u :: post := fun w hw =>
    hperm.mem_iff.mpr (List.mem_cons_of_mem _ hw)
  constructor
  case chain =>
    refine hnext.relink (fun w hw => ?_) hfirst fun w hw => ?_
    · have := hnext.add_four_le hw
      show m.hdrOffset + 1 + 4 ≤ w.1
      omega
    · have := hnext.add_four_le hw
      exact ⟨hword _ (by omega), hword _ (by omega)⟩
  case apart => exact (List.pairwise_cons.mp hall).2
  case inside =>
    intro w hw
    have hin := h.inside w (hmem w hw)
    have hsize := h.size_ge w (hmem w hw)
    rw [htop']
    rcases (List.pairwise_cons.mp hall).1 w hw with hle | hle
    · exact ⟨hle, hin.2⟩
    · omega
  case size_ge => exact fun w hw => h.size_ge w (hmem w hw)
  case le_top =>
    rw [htop']
    show m.iCellFirst ≤ u.1 + u.2
    omega
  case count =>
    have hbyte : dropBytes m.hdrOffset m.aData u (m.hdrOffset + 7) = m.aData (m.hdrOffset + 7) := by
      rw [dropBytes, put2_outside (by omega), blit_outside (by simp)]
    have hcount := h.count
    rw [← hbyte, total_perm hperm, total_cons, ← htop] at hcount
    rw [htop']
    show (dropBytes m.hdrOffset m.aData u (m.hdrOffset + 7)).toNat + _ + _ = _
    omega

theorem Tiled.dropBytes_keeps (h : Tiled g m used (u :: post)) :
    Keeps m used (dropBytes m.hdrOffset m.aData u) := by
  have hhdr := m.hdr_add_eight_le
  have htop := h.le_top
  intro p hp
  have hout : (p < m.hdrOffset + 1 ∨ m.hdrOffset + 3 ≤ p) ∧
      (p < m.hdrOffset + 5 ∨ m.hdrOffset + 7 ≤ p) := by
    rcases hp with hp | hp | hp | ⟨w, hw, hp⟩
    · omega
    · omega
    · omega
    · have := h.inside w (List.mem_append_left _ hw)
      have := hp.1
      omega
  rw [dropBytes, put2_outside hout.2, blit_outside (by simpa using hout.1)]

theorem dropFirst_spec (h : Tiled g m used free) (hsep : Separated free) (hne : free ≠ []) :
    ∃ data free', dropFirst g m.hdrOffset m.aData = .ok data ∧
      Tiled g (m.withData data) used free' ∧ Separated free' ∧ Keeps m used data := by
  obtain ⟨u, post, rfl⟩ := List.exists_cons_of_ne_nil hne
  have hhdr := h.hdr_le
  have hu := h.mem_free List.mem_cons_self
  obtain ⟨hfirst, hsize, -, -⟩ := h.chain
  rw [dropFirst, loads_ok (by omega), ok_bind, loads_ok (by omega), ok_bind]
  by_cases heq : slice m.aData (m.hdrOffset + 1) 2 = slice m.aData (m.hdrOffset + 5) 2
  · have hraw := slice_two_eq_iff.mp heq
    rw [hfirst] at hraw
    have htop : u.1 = m.top := by
      rw [MemPage.top, get2byteNotZero, ← hraw, if_neg (by omega)]
    have hread : get2 (blit m.aData (m.hdrOffset + 1) (slice m.aData u.1 2)) (u.1 + 2) = u.2 := by
      rw [get2_blit_of_disjoint (by simp; omega), hsize]
    refine ⟨_, post, ?_, h.tiled_dropBytes htop, (List.isChain_cons.mp hsep).2, h.dropBytes_keeps⟩
    rw [if_pos heq, load2_ok (by omega), ok_bind, hfirst, loads_ok (by omega), ok_bind,
      store_ok (by simp; omega), ok_bind, load2_ok (by omega), ok_bind, load2_ok (by omega),
      ok_bind, store2_ok (by omega), hread, get2_blit_of_disjoint (by simp), ← hraw]
    rfl
  · exact ⟨m.aData, u :: post, by rw [if_neg heq], h, hsep, Keeps.refl _ _⟩

/-! ### `freeSpace` -/

theorem Tiled.length_le (h : Tiled g m used free) : free.length < g.usableSize := by
  have hcount := h.count
  have hsum : free.length * 4 ≤ total free := by
    have hall : ∀ u ∈ free, 4 ≤ u.2 := fun u hu => (h.mem_free hu).2.2.2
    clear h hcount
    induction free with
    | nil => simp
    | cons u free ih =>
      have := ih fun v hv => hall v (List.mem_cons_of_mem _ hv)
      have := hall u List.mem_cons_self
      rw [List.length_cons, total_cons]
      omega
  have hhdr := m.hdr_add_eight_le
  have hle := h.le_top
  rw [total_append] at hcount
  omega

theorem Tiled.target_pos (h : Tiled g m used free) (hne : free ≠ []) : 0 < target free := by
  obtain ⟨u, us, rfl⟩ := List.exists_cons_of_ne_nil hne
  have := (h.mem_free List.mem_cons_self).1
  rw [target]
  omega

/-- The block may be overwritten first. -/
theorem Tiled.erase (h : Tiled g m (u :: used) free) (hdata : ∀ p, ¬ Inside u p → data p = m.aData p) :
    Tiled g (m.withData data) (u :: used) free ∧ Keeps m used data := by
  have hin := h.inside u List.mem_cons_self
  have htop := h.le_top
  have hhdr := m.hdr_add_eight_le
  have hlow : ∀ p < m.iCellFirst, ¬ Inside u p := fun p hp hu => by
    have := hu.1
    omega
  constructor
  · refine h.update rfl htop (List.Perm.refl _) (fun p hp => hdata p (hlow p (by omega)))
      fun v hv p hp => hdata p fun hu => ?_
    exact h.not_inside_used hv hp List.mem_cons_self hu
  · intro p hp
    refine hdata p fun hu => ?_
    rcases hp with hp | hp | hp | ⟨w, hw, hp⟩
    · exact hlow p (by omega) hu
    · exact hlow p (by omega) hu
    · exact hlow p hp.2 hu
    · exact not_inside_of_mem h.apart hu (List.mem_append_left _ hw) hp

/-- **Space is given back**: what was in use becomes free, and nothing else changes. -/
theorem freeSpace_spec {fuel : ℕ} (h : Tiled g m (u :: used) free) (hfuel : g.usableSize ≤ fuel) :
    ∃ data free', freeSpace g fuel m u.1 u.2
        = .ok { m with aData := data, nFree := (m.nFree + u.2 % 65536) % 65536 } ∧
      Tiled g (m.withData data) used free' ∧ Separated free' ∧ Keeps m used data := by
  have hin := h.inside u List.mem_cons_self
  have hsize := h.size_ge u List.mem_cons_self
  obtain ⟨data₀, hrun₀, h₀, hkeep₀⟩ : ∃ data₀,
      eraseFreed g m.aData u.1 u.2 = .ok data₀ ∧
        Tiled g (m.withData data₀) (u :: used) free ∧ Keeps m used data₀ := by
    rw [eraseFreed]
    by_cases hsecure : g.secureDelete = true
    · refine ⟨_, by rw [if_pos hsecure, store_ok (by simpa using hin.2)], h.erase fun p hp => ?_⟩
      refine blit_outside ?_
      rw [List.length_replicate]
      by_contra hcon
      exact hp ⟨by omega, by omega⟩
    · exact ⟨_, by rw [if_neg hsecure], h.erase fun p _ => rfl⟩
  have hlen := h.length_le
  obtain ⟨before, after, rfl, hfind, hbefore, hafter⟩ :=
    findGap_spec u.1 (show Tiled g (m.withData data₀) (u :: used) ([] ++ free) from h₀)
      (hlen.trans_le hfuel)
  have hlinked := h₀.link hbefore hafter
  have hone : Separated ([] ++ (before ++ u :: after).take 1) := by
    cases before <;> exact List.isChain_singleton _
  obtain ⟨data₂, free₂, hrun₂, h₂, hsep₂, hkeep₂, -, htarget⟩ :=
    coalesce_spec (show Tiled g _ used ([] ++ (before ++ u :: after)) from hlinked) hone
      (hlinked.length_le.trans_le hfuel)
  have hne : free₂ ≠ [] := by
    rintro rfl
    exact absurd htarget.symm (hlinked.target_pos (by simp)).ne'
  obtain ⟨data₃, free₃, hrun₃, h₃, hsep₃, hkeep₃⟩ := dropFirst_spec h₂ hsep₂ hne
  refine ⟨data₃, free₃, ?_, h₃, hsep₃,
    ((hkeep₀.trans h₀.linkBytes_keeps).trans hkeep₂).trans hkeep₃⟩
  have hlast : target after ≤ g.usableSize - 4 := by
    cases after with
    | nil => exact Nat.zero_le _
    | cons w after =>
      have := h.mem_free (u := w) (by simp)
      rw [target]
      omega
  have hbound : lastLink (m.hdrOffset + 1) before + 2 ≤ g.usableSize := h₀.lastLink_add_two_le
  rw [freeSpace]
  dsimp only
  rw [hrun₀, ok_bind, show findGap g data₀ u.1 fuel (m.hdrOffset + 1) = _ from hfind, ok_bind]
  dsimp only
  rw [if_neg (by omega), List.nil_append, store2_ok hbound, ok_bind, store2_ok (by omega), ok_bind,
    store2_ok (by omega), ok_bind]
  have hmerge : coalesce g m.hdrOffset fuel (m.hdrOffset + 1) (put2 (put2 (put2 data₀
      (lastLink (m.hdrOffset + 1) before) u.1) u.1 (target after)) (u.1 + 2) u.2) = .ok data₂ := hrun₂
  rw [hmerge, ok_bind, show dropFirst g m.hdrOffset data₂ = _ from hrun₃, ok_bind]

end Tiled

end Btree

end SqliteVms

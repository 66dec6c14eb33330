import SqliteVms.Btree.IntegrityCheck

/-!
# What the integrity checker shows

A page of the file can be named in four kinds of places: by the free list, by the list of roots,
by a child pointer of a tree page and by the overflow chain of a cell. `Sound` says what a file is
to be like: every page is named in exactly one place, the bytes of every tree page are used once
or are counted as fragments, all leaves of a tree are equally deep, and the overflow chains are as
long as their cells need.

The checker does not look at everything. The counters of the coverage check are one byte wide, the
depth of a right-most child is ignored, an overflow chain may go on after its last page, and the
number of overflow pages wraps at 32 bits. `Unchecked` says that nothing is wrong there.

## Main definitions

* `Site`, `Refers` — the places where pages are named
* `LeafDepth` — the depth of the leaves of a tree
* `Sound` — what a file is to be like
* `Unchecked` — the part the checker does not look at

## Main results

* `treeSpec_checkTreePage` — what the check of one tree without a message shows
-/

namespace SqliteVms

namespace Btree

open BigEndian

variable (g : Geom) (db : Db) (aRoot : List ℕ)

/-! ### Trees and chains -/

/-- The child pointers of a page, the right-most one last. -/
def childPtr (p i : ℕ) : Option ℕ :=
  match btreeInitPage g p (db.page p) with
  | none => none
  | some m =>
    if m.leaf = true then none
    else if i < m.nCell then some (get4 (cellAt g m i) 0)
    else if i = m.nCell then some (get4 m.aData (m.hdrOffset + 8))
    else none

/-- The pages of the trees. -/
inductive TreePage : ℕ → Prop
  | root {p : ℕ} (hmem : p ∈ aRoot) (h0 : p ≠ 0) (hle : p ≤ db.nPage) : TreePage p
  | child {p c i : ℕ} (hp : TreePage p) (hc : childPtr g db p i = some c) (h0 : c ≠ 0)
      (hle : c ≤ db.nPage) : TreePage c

/-- `LeafDepth p right d`: there is a leaf `d` levels below page `p`, and `right` says whether the
way to it takes a right-most child. -/
inductive LeafDepth : ℕ → Bool → ℕ → Prop
  | leaf {p : ℕ} {m : MemPage} (h0 : p ≠ 0) (hm : btreeInitPage g p (db.page p) = some m)
      (hleaf : m.leaf = true) : LeafDepth p false 0
  | cell {p i d : ℕ} {m : MemPage} {right : Bool} (h0 : p ≠ 0)
      (hm : btreeInitPage g p (db.page p) = some m) (hleaf : m.leaf = false) (hi : i < m.nCell)
      (hd : LeafDepth (get4 (cellAt g m i) 0) right d) : LeafDepth p right (d + 1)
  | right {p d : ℕ} {m : MemPage} {right : Bool} (h0 : p ≠ 0)
      (hm : btreeInitPage g p (db.page p) = some m) (hleaf : m.leaf = false)
      (hd : LeafDepth (get4 m.aData (m.hdrOffset + 8)) right d) : LeafDepth p true (d + 1)

/-- The first `n` pages of a chain. -/
def chainPages : ℕ → ℕ → List ℕ
  | 0, _ => []
  | n + 1, i => i :: chainPages n (get4 (db.page i) 0)

/-- The page number a chain goes on with after `n` pages. -/
def chainEnd : ℕ → ℕ → ℕ
  | 0, i => i
  | n + 1, i => chainEnd n (get4 (db.page i) 0)

/-- The number of overflow pages a cell needs. -/
def requiredPages (info : CellInfo) : ℕ :=
  (info.nPayload - info.nLocal + g.usableSize - 5) / (g.usableSize - 4)

/-- Cell `i` of page `p` has a part of its payload on overflow pages; its content, and the first of
these pages. -/
def Overflows (p i : ℕ) (info : CellInfo) (first : ℕ) : Prop :=
  ∃ m, btreeInitPage g p (db.page p) = some m ∧ i < m.nCell ∧
    info = btreeParseCellPtr g m (cellAt g m i) ∧ info.nLocal < info.nPayload ∧
    first = get4 (cellAt g m i) info.iOverflow

/-- The pages of the free list: trunks and their leaves, for as long as the count of page 1
lasts. -/
def freeWalk : ℕ → ℕ → ℤ → List ℕ
  | 0, _, _ => []
  | fuel + 1, i, N =>
    if N ≤ 0 then []
    else i :: ((List.range (trunkCount (db.page i)).toNat).map fun j => get4 (db.page i) (8 + j * 4))
      ++ freeWalk fuel (get4 (db.page i) 0) (toInt32 (N - 1 - trunkCount (db.page i)))

@[inherit_doc freeWalk]
def freeListing : List ℕ :=
  freeWalk db (db.nPage + 2) (get4 (db.page 1) 32) (toInt32 (get4 (db.page 1) 36))

/-! ### What a file is to be like -/

/-- A place where a page is named: entry `k` of the free list, entry `k` of the list of roots, child
pointer `i` of page `p`, or page `k` of the overflow chain of cell `i` of page `p`. -/
inductive Site
  | free (k : ℕ)
  | root (k : ℕ)
  | child (p i : ℕ)
  | ovfl (p i k : ℕ)
  deriving DecidableEq

/-- The place names page `q`, `need` being the number of overflow pages of a cell. -/
def Refers (need : CellInfo → ℕ) : Site → ℕ → Prop
  | .free k, q => (freeListing db)[k]? = some q
  | .root k, q => aRoot[k]? = some q
  | .child p i, q => TreePage g db aRoot p ∧ childPtr g db p i = some q
  | .ovfl p i k, q => TreePage g db aRoot p ∧ ∃ info first, Overflows g db p i info first ∧
      (chainPages db (need info) first)[k]? = some q

/-- The pages nothing may name: the locking page and the pointer-map pages. -/
def Reserved (q : ℕ) : Prop :=
  q = pendingBytePage g ∨ (g.autoVacuum = true ∧ isPtrmapPage g q = true)

/-- The bytes of a page are used once, and the unused ones are counted as fragments. -/
def ExactlyCovered (m : MemPage) : Prop :=
  (∀ j < g.usableSize, coverCount g m j ≤ 1) ∧
    ((List.range g.usableSize).filter fun j => contentOffset m ≤ j ∧ coverCount g m j = 0).length
      = (m.aData (m.hdrOffset + 7)).toNat

/-- **What a file is to be like.** -/
structure Sound : Prop where
  named_once : ∀ q, 1 ≤ q → q ≤ db.nPage → ¬ Reserved g q →
    ∃! s, Refers g db aRoot (requiredPages g) s q
  reserved : ∀ q, 1 ≤ q → q ≤ db.nPage → Reserved g q →
    ∀ s, ¬ Refers g db aRoot (requiredPages g) s q
  covered : ∀ p m, TreePage g db aRoot p → btreeInitPage g p (db.page p) = some m →
    ExactlyCovered g m
  depth : ∀ p ∈ aRoot, p ≤ db.nPage → ∀ r d r' d', LeafDepth g db p r d →
    LeafDepth g db p r' d' → d = d'
  chains : ∀ p i info first, TreePage g db aRoot p → Overflows g db p i info first →
    (∀ q ∈ chainPages db (requiredPages g info) first, 1 ≤ q ∧ q ≤ db.nPage) ∧
      chainEnd db (requiredPages g info) first = 0

/-- **The part the checker does not look at**: no byte of a tree page is counted 128 times, leaves
reached through a right-most child are as deep as the other leaves of the tree, and the number of
overflow pages of a cell does not wrap, nor does the chain go on after the last of them. -/
structure Unchecked : Prop where
  counters : ∀ p m, TreePage g db aRoot p → btreeInitPage g p (db.page p) = some m →
    ∀ j < g.usableSize, hitCount g m j < 128
  rightDepth : ∀ p ∈ aRoot, p ≤ db.nPage → ∀ d r' d', LeafDepth g db p true d →
    LeafDepth g db p r' d' → d = d'
  chains : ∀ p i info first, TreePage g db aRoot p → Overflows g db p i info first →
    info.nPayload - info.nLocal + g.usableSize - 5 < 2 ^ 32 ∧
      chainEnd db (requiredPages g info) first = 0

/-! ### Parts of the checker that report nothing -/

section Clean

variable {g} {db}

theorem append_errMsg_ne_nil (ck : IntegrityCk) (msg : Msg) : (ck.append msg).errMsg ≠ [] := by
  rw [IntegrityCk.append]
  exact List.append_ne_nil_of_right_ne_nil _ (List.cons_ne_nil _ _)

/-- The pages `ps`, distinct and not met before, are met in addition. -/
structure Grows (db : Db) (ck ck' : IntegrityCk) (ps : List ℕ) : Prop where
  nodup : ps.Nodup
  fresh : ∀ q ∈ ps, ck.aPgRef q = false
  range : ∀ q ∈ ps, q ≠ 0 ∧ q ≤ db.nPage
  met : ∀ q, ck'.aPgRef q = true ↔ ck.aPgRef q = true ∨ q ∈ ps

theorem Grows.refl (ck : IntegrityCk) : Grows db ck ck [] :=
  ⟨List.nodup_nil, by simp, by simp, by simp⟩

theorem Grows.trans {a b c : IntegrityCk} {ps qs : List ℕ} (h : Grows db a b ps)
    (h' : Grows db b c qs) : Grows db a c (ps ++ qs) := by
  have hdisj : ∀ q ∈ qs, a.aPgRef q = false ∧ q ∉ ps := fun q hq => by
    have hb := h'.fresh q hq
    rw [← Bool.not_eq_true, h.met q, not_or, Bool.not_eq_true] at hb
    exact hb
  refine ⟨?_, ?_, ?_, fun q => ?_⟩
  · rw [List.nodup_append]
    exact ⟨h.nodup, h'.nodup, fun x hx y hy heq => (hdisj y hy).2 (heq ▸ hx)⟩
  · intro q hq
    rcases List.mem_append.mp hq with hq | hq
    · exact h.fresh q hq
    · exact (hdisj q hq).1
  · intro q hq
    rcases List.mem_append.mp hq with hq | hq
    · exact h.range q hq
    · exact h'.range q hq
  · rw [h'.met, h.met, List.mem_append, or_assoc]

theorem grows_setPageReferenced {ck : IntegrityCk} {q : ℕ} (h0 : q ≠ 0) (hle : q ≤ db.nPage)
    (href : ck.aPgRef q = false) : Grows db ck (ck.setPageReferenced q) [q] := by
  refine ⟨List.nodup_singleton q, ?_, ?_, fun x => ?_⟩
  · simpa using href
  · simpa using ⟨h0, hle⟩
  · rw [List.mem_singleton]
    rcases eq_or_ne x q with rfl | hne
    · exact iff_of_true (ck.setPageReferenced_self x) (Or.inr rfl)
    · rw [ck.setPageReferenced_of_ne hne]
      exact ⟨Or.inl, fun h => h.resolve_right hne⟩

theorem checkRef_clean {ck : IntegrityCk} {q : ℕ} (h : (checkRef db ck q).2.errMsg = []) :
    Grows db ck (checkRef db ck q).2 (if q = 0 then [] else [q]) ∧
      ((checkRef db ck q).1 = false ↔ q ≠ 0) := by
  rw [checkRef] at h ⊢
  split_ifs at h ⊢ with h0 hle href
  · exact ⟨Grows.refl ck, by simpa using h0⟩
  · exact absurd h (append_errMsg_ne_nil _ _)
  · exact absurd h (append_errMsg_ne_nil _ _)
  · exact ⟨grows_setPageReferenced h0 (by omega) (by simpa using href), by simpa using h0⟩

theorem checkPtrmap_clean {ck : IntegrityCk} {iChild eType iParent : ℕ}
    (h : (checkPtrmap g db ck iChild eType iParent).errMsg = []) :
    checkPtrmap g db ck iChild eType iParent = ck := by
  rw [checkPtrmap] at h ⊢
  split at h
  · split at h
    · exact absurd h (append_errMsg_ne_nil _ _)
    · split at h
      · exact absurd h (append_errMsg_ne_nil _ _)
      · rename_i hav _ _ _ _ hne
        rw [if_pos hav]
        exact if_neg hne
  · rename_i hav
    rw [if_neg hav]

/-! ### Lists of pages -/

theorem foldl_checkFreeLeaf_clean {ck : IntegrityCk} {qs : List ℕ}
    (h : (qs.foldl (checkFreeLeaf g db) ck).errMsg = []) :
    Grows db ck (qs.foldl (checkFreeLeaf g db) ck) (qs.filter (· ≠ 0)) := by
  induction qs generalizing ck with
  | nil => exact Grows.refl ck
  | cons q qs ih =>
    rw [List.foldl_cons] at h ⊢
    have hran : Ran db 0 (checkFreeLeaf g db ck q)
        (qs.foldl (checkFreeLeaf g db) (checkFreeLeaf g db ck q)) := ran_foldl ran_checkFreeLeaf qs _
    have hclean := hran.clean h
    have href : Ran db 0 (checkPtrmap g db ck q ptrmapFreepage 0) (checkFreeLeaf g db ck q) :=
      ran_checkRef q
    have hmap := checkPtrmap_clean (href.clean hclean)
    have hleaf : checkFreeLeaf g db ck q = (checkRef db ck q).2 := by rw [checkFreeLeaf, hmap]
    rw [hleaf] at hclean
    have hgrows := (checkRef_clean hclean).1
    rw [← hleaf] at hgrows
    have hrest := hgrows.trans (ih h)
    rcases eq_or_ne q 0 with h0 | h0
    · rw [if_pos h0] at hrest
      rwa [List.filter_cons_of_neg (by simpa using h0)]
    · rw [if_neg h0] at hrest
      rwa [List.filter_cons_of_pos (by simpa using h0)]

/-- What a turn of the loop of `checkList` comes to when there is no message. -/
theorem checkListLoop_clean {isFreeList : Bool} {expected : ℤ} {iFirst fuel : ℕ} {ck : IntegrityCk}
    {i : ℕ} {N : ℤ}
    (h : (checkListLoop g db isFreeList expected iFirst (fuel + 1) ck i N).errMsg = [])
    (hN : 0 < N) :
    ∃ ck₁, Grows db ck ck₁ [i] ∧
      (isFreeList = true →
        checkListLoop g db isFreeList expected iFirst (fuel + 1) ck i N =
          checkListLoop g db isFreeList expected iFirst fuel
            (checkFreeLeaves g db (db.page i) ck₁ (trunkCount (db.page i)).toNat)
            (get4 (db.page i) 0) (toInt32 (N - 1 - trunkCount (db.page i)))) ∧
      (isFreeList = false →
        checkListLoop g db isFreeList expected iFirst (fuel + 1) ck i N =
          checkListLoop g db isFreeList expected iFirst fuel ck₁ (get4 (db.page i) 0) (N - 1)) := by
  rw [checkListLoop, if_neg (by omega)] at h ⊢
  split at h
  · exact absurd h (append_errMsg_ne_nil _ _)
  rename_i hrange
  rw [if_neg hrange]
  have h0 : i ≠ 0 := fun h0 => hrange (Or.inl h0)
  rcases hck : checkRef db ck i with ⟨_ | _, ck₁⟩
  · rw [hck] at h
    dsimp only at h ⊢
    obtain ⟨-, hle, hfalse, hck₁⟩ := checkRef_eq_false hck
    have hgrows : Grows db ck ck₁ [i] := hck₁ ▸ grows_setPageReferenced h0 hle hfalse
    split at h
    · exact absurd h (append_errMsg_ne_nil _ _)
    rename_i hacq
    rw [if_neg hacq]
    refine ⟨ck₁, hgrows, ?_, ?_⟩
    · rintro rfl
      rw [if_pos rfl] at h ⊢
      split at h
      · have hran := ran_checkListLoop g db true expected iFirst fuel
          ((checkPtrmap g db ck₁ i ptrmapFreepage 0).append (.leafCountTooBig i))
          (get4 (db.page i) 0) (N - 2)
        exact absurd (hran.clean h) (append_errMsg_ne_nil _ _)
      · rename_i hbig
        rw [if_neg hbig]
        have hran := ran_checkListLoop g db true expected iFirst fuel
          (checkFreeLeaves g db (db.page i) (checkPtrmap g db ck₁ i ptrmapFreepage 0)
            (trunkCount (db.page i)).toNat) (get4 (db.page i) 0)
          (toInt32 (N - 1 - trunkCount (db.page i)))
        have hleaves : Ran db fuel (checkPtrmap g db ck₁ i ptrmapFreepage 0)
            (checkFreeLeaves g db (db.page i) (checkPtrmap g db ck₁ i ptrmapFreepage 0)
              (trunkCount (db.page i)).toNat) := ran_checkFreeLeaves _ _
        rw [checkPtrmap_clean (hleaves.clean (hran.clean h))]
    · rintro rfl
      rw [if_neg (by simp)] at h ⊢
      have hran := ran_checkListLoop g db false expected iFirst fuel
        (if 0 < N - 1 then checkPtrmap g db ck₁ (get4 (db.page i) 0) ptrmapOverflow2 i else ck₁)
        (get4 (db.page i) 0) (N - 1)
      have hclean := hran.clean h
      split at hclean
      · rename_i hlt
        rw [if_pos hlt, checkPtrmap_clean hclean]
      · rename_i hlt
        rw [if_neg hlt]
  · have hclean : (checkRef db ck i).2.errMsg = [] := by
      rw [hck] at h ⊢
      exact h
    have := (checkRef_clean hclean).2.mpr h0
    rw [hck] at this
    exact Bool.noConfusion this

theorem checkListLoop_zero_ne {isFreeList : Bool} {expected : ℤ} {iFirst : ℕ} {ck : IntegrityCk}
    {i : ℕ} {N : ℤ} : (checkListLoop g db isFreeList expected iFirst 0 ck i N).errMsg ≠ [] :=
  append_errMsg_ne_nil _ _

/-- An overflow chain without a message has its pages. -/
theorem checkListLoop_overflow {expected : ℤ} {iFirst fuel : ℕ} {ck : IntegrityCk} {i N : ℕ}
    (h : (checkListLoop g db false expected iFirst fuel ck i N).errMsg = []) :
    Grows db ck (checkListLoop g db false expected iFirst fuel ck i N) (chainPages db N i) := by
  induction fuel generalizing ck i N with
  | zero => exact absurd h checkListLoop_zero_ne
  | succ fuel ih =>
    cases N with
    | zero =>
      rw [checkListLoop, if_pos (by simp)]
      exact Grows.refl ck
    | succ N =>
      obtain ⟨ck₁, hgrows, -, hnext⟩ := checkListLoop_clean h (by omega)
      have hnext := hnext rfl
      rw [show ((N + 1 : ℕ) : ℤ) - 1 = N by omega] at hnext
      rw [hnext] at h ⊢
      exact hgrows.trans (ih h)

/-- A free list without a message. -/
theorem checkListLoop_free {expected : ℤ} {iFirst fuel : ℕ} {ck : IntegrityCk} {i : ℕ} {N : ℤ}
    (h : (checkListLoop g db true expected iFirst fuel ck i N).errMsg = []) :
    Grows db ck (checkListLoop g db true expected iFirst fuel ck i N)
      ((freeWalk db fuel i N).filter (· ≠ 0)) := by
  induction fuel generalizing ck i N with
  | zero => exact absurd h checkListLoop_zero_ne
  | succ fuel ih =>
    rcases lt_or_ge 0 N with hN | hN
    · obtain ⟨ck₁, hgrows, hnext, -⟩ := checkListLoop_clean h hN
      have hnext := hnext rfl
      rw [hnext] at h ⊢
      have hran := ran_checkListLoop g db true expected iFirst fuel
        (checkFreeLeaves g db (db.page i) ck₁ (trunkCount (db.page i)).toNat) (get4 (db.page i) 0)
        (toInt32 (N - 1 - trunkCount (db.page i)))
      have h0 := (hgrows.range i (by simp)).1
      rw [freeWalk, if_neg (by omega), List.filter_append, List.filter_cons_of_pos (by simpa using h0)]
      exact (hgrows.trans (foldl_checkFreeLeaf_clean (hran.clean h))).trans (ih h)
    · rw [checkListLoop, if_pos hN, freeWalk, if_pos hN]
      exact Grows.refl ck

/-! ### Coverage -/

/-- All cells end on the page, and the loop over `hit[]` finds no byte above one and as many zero
bytes as the page header says. -/
structure Covered (g : Geom) (m : MemPage) : Prop where
  fits : ∀ i < m.nCell, cellFits g m i = true
  uses : (scanHits g m (List.range g.usableSize) 0).2 = none
  fragments : (scanHits g m (List.range g.usableSize) 0).1 = (m.aData (m.hdrOffset + 7)).toNat

theorem foldl_append_clean {P : ℕ → Bool} {msg : ℕ → Msg} {is : List ℕ} {ck : IntegrityCk}
    (h : (is.foldl (fun ck i => if P i then ck else ck.append (msg i)) ck).errMsg = []) :
    (∀ i ∈ is, P i = true) ∧ is.foldl (fun ck i => if P i then ck else ck.append (msg i)) ck = ck := by
  induction is generalizing ck with
  | nil => exact ⟨by simp, rfl⟩
  | cons i is ih =>
    rw [List.foldl_cons] at h ⊢
    obtain ⟨hall, heq⟩ := ih h
    rw [heq] at h ⊢
    split at h
    · rename_i hi
      rw [if_pos hi]
      exact ⟨fun j hj => (List.mem_cons.mp hj).elim (fun hj => hj ▸ hi) (hall j), rfl⟩
    · exact absurd h (append_errMsg_ne_nil _ _)

theorem checkCoverage_clean {iPage : ℕ} {m : MemPage} {ck : IntegrityCk}
    (h : (checkCoverage g iPage m ck).errMsg = []) :
    checkCoverage g iPage m ck = ck ∧ Covered g m := by
  rw [checkCoverage, checkFragments] at h ⊢
  split at h
  · exact absurd h (append_errMsg_ne_nil _ _)
  rename_i hfrag
  rw [if_neg hfrag]
  rw [checkUses] at h ⊢
  split at h
  · exact absurd h (append_errMsg_ne_nil _ _)
  rename_i huses
  rw [checkCellsFit] at h ⊢
  obtain ⟨hall, heq⟩ := foldl_append_clean h
  refine ⟨?_, fun i hi => hall i (List.mem_range.mpr hi), huses, not_not.mp hfrag⟩
  exact heq

theorem toChar_of_lt {c : ℕ} (h : c < 128) : toChar c = c := by
  unfold toChar
  exact Int.bmod_eq_of_le (by omega) (by omega)

/-- When no counter has wrapped, the loop over `hit[]` sees the true counts. -/
theorem scanHits_spec {m : MemPage} {is : List ℕ} (hlt : ∀ i ∈ is, hitCount g m i < 128) {cnt : ℕ}
    (h : (scanHits g m is cnt).2 = none) :
    (∀ i ∈ is, hitCount g m i ≤ 1) ∧
      (scanHits g m is cnt).1 = cnt + (is.filter fun i => hitCount g m i = 0).length := by
  induction is generalizing cnt with
  | nil => exact ⟨by simp, rfl⟩
  | cons i is ih =>
    have hi := hlt i List.mem_cons_self
    have hchar := toChar_of_lt hi
    have hlt' : ∀ j ∈ is, hitCount g m j < 128 := fun j hj => hlt j (List.mem_cons_of_mem _ hj)
    rw [scanHits, hchar] at h ⊢
    split at h
    · rename_i h0
      have h0 : hitCount g m i = 0 := by exact_mod_cast h0
      rw [if_pos (by omega)]
      obtain ⟨hle, hcnt⟩ := ih hlt' h
      refine ⟨fun j hj => ?_, ?_⟩
      · rcases List.mem_cons.mp hj with rfl | hj
        · omega
        · exact hle j hj
      · rw [hcnt, List.filter_cons_of_pos (by simpa using h0), List.length_cons]
        omega
    · rename_i h0
      split at h
      · exact absurd h (by simp)
      · rename_i h1
        rw [if_neg h0, if_neg h1]
        obtain ⟨hle, hcnt⟩ := ih hlt' h
        refine ⟨fun j hj => ?_, ?_⟩
        · rcases List.mem_cons.mp hj with rfl | hj
          · omega
          · exact hle j hj
        · rw [hcnt, List.filter_cons_of_neg (by simpa using fun h => h0 (by omega))]

/-- **The coverage check shows what it is for unless a counter wraps.** -/
theorem Covered.exactly {m : MemPage} (h : Covered g m) :
    ExactlyCovered g m ↔ ∀ j < g.usableSize, hitCount g m j < 128 := by
  constructor
  · rintro ⟨hle, -⟩ j hj
    have := hle j hj
    rw [hitCount]
    split <;> omega
  · intro hlt
    obtain ⟨hle, hcnt⟩ := scanHits_spec (fun j hj => hlt j (List.mem_range.mp hj)) h.uses
    refine ⟨fun j hj => ?_, ?_⟩
    · have := hle j (List.mem_range.mpr hj)
      rw [hitCount] at this
      omega
    · rw [← h.fragments, hcnt, Nat.zero_add]
      refine congrArg List.length (List.filter_congr fun j _ => ?_)
      rw [hitCount]
      refine decide_eq_decide.mpr ?_
      split <;> omega

end Clean

/-! ### What a tree without a message shows -/

section Batch

variable {g} {db} {aRoot}

/-- A place that names a tree page. -/
def Site.IsTree : Site → Prop
  | .root _ => True
  | .child _ _ => True
  | _ => False

/-- The places `E`, each with the page it names, have been looked at: the pages are met, each place
does name its page, and where the page is a tree page, it is decodable and covered and all the
places on it are in `E` too. -/
structure Batch (g : Geom) (db : Db) (aRoot : List ℕ) (ck ck' : IntegrityCk)
    (E : List (Site × ℕ)) : Prop where
  grows : Grows db ck ck' (E.map Prod.snd)
  refers : ∀ e ∈ E, Refers g db aRoot (overflowPages g) e.1 e.2
  covered : ∀ e ∈ E, e.1.IsTree → ∃ m, btreeInitPage g e.2 (db.page e.2) = some m ∧ Covered g m
  children : ∀ e ∈ E, e.1.IsTree → ∀ i c, childPtr g db e.2 i = some c → c ≠ 0 →
    (Site.child e.2 i, c) ∈ E
  chains : ∀ e ∈ E, e.1.IsTree → ∀ i info first, Overflows g db e.2 i info first →
    ∀ k q, (chainPages db (overflowPages g info) first)[k]? = some q → (Site.ovfl e.2 i k, q) ∈ E

theorem Batch.nil (ck : IntegrityCk) : Batch g db aRoot ck ck [] :=
  ⟨Grows.refl ck, by simp, by simp, by simp, by simp⟩

theorem Batch.append {a b c : IntegrityCk} {E F : List (Site × ℕ)} (h : Batch g db aRoot a b E)
    (h' : Batch g db aRoot b c F) : Batch g db aRoot a c (E ++ F) := by
  refine ⟨?_, fun e he => ?_, fun e he => ?_, fun e he ht i q hq h0 => ?_,
    fun e he ht i info first hov k q hk => ?_⟩
  · rw [List.map_append]
    exact h.grows.trans h'.grows
  · exact (List.mem_append.mp he).elim (h.refers e) (h'.refers e)
  · exact (List.mem_append.mp he).elim (h.covered e) (h'.covered e)
  · rcases List.mem_append.mp he with he | he
    · exact List.mem_append_left _ (h.children e he ht i q hq h0)
    · exact List.mem_append_right _ (h'.children e he ht i q hq h0)
  · rcases List.mem_append.mp he with he | he
    · exact List.mem_append_left _ (h.chains e he ht i info first hov k q hk)
    · exact List.mem_append_right _ (h'.chains e he ht i info first hov k q hk)

/-- Places that do not name tree pages make a batch as soon as their pages are met. -/
theorem Batch.of_grows {ck ck' : IntegrityCk} {E : List (Site × ℕ)}
    (hgrows : Grows db ck ck' (E.map Prod.snd))
    (hrefers : ∀ e ∈ E, Refers g db aRoot (overflowPages g) e.1 e.2)
    (hleaf : ∀ e ∈ E, ¬ e.1.IsTree) : Batch g db aRoot ck ck' E :=
  ⟨hgrows, hrefers, fun e he ht => absurd ht (hleaf e he), fun e he ht => absurd ht (hleaf e he),
    fun e he ht => absurd ht (hleaf e he)⟩

/-- The places `mk 0`, `mk 1` and so on with the pages `qs`. -/
def enumerate (mk : ℕ → Site) (qs : List ℕ) : List (Site × ℕ) :=
  qs.zipIdx.map fun e => (mk e.2, e.1)

theorem map_snd_enumerate (mk : ℕ → Site) (qs : List ℕ) : (enumerate mk qs).map Prod.snd = qs := by
  rw [enumerate, List.map_map]
  exact List.zipIdx_map_fst 0 qs

theorem mem_enumerate {mk : ℕ → Site} {qs : List ℕ} {e : Site × ℕ} :
    e ∈ enumerate mk qs ↔ ∃ k, qs[k]? = some e.2 ∧ e.1 = mk k := by
  rw [enumerate, List.mem_map]
  constructor
  · rintro ⟨⟨q, k⟩, hmem, rfl⟩
    exact ⟨k, by simpa [List.mem_zipIdx_iff_getElem?] using hmem, rfl⟩
  · rintro ⟨k, hk, heq⟩
    refine ⟨(e.2, k), ?_, ?_⟩
    · simpa [List.mem_zipIdx_iff_getElem?] using hk
    · rw [← heq]

/-- A covered page has its overflow pointers on the page. -/
theorem Covered.overflow_le {m : MemPage} (h : Covered g m) (hb : m.LocalBounds g) {i : ℕ}
    (hi : i < m.nCell) (hov : (btreeParseCellPtr g m (cellAt g m i)).nLocal
      < (btreeParseCellPtr g m (cellAt g m i)).nPayload) :
    findCell g m i + (btreeParseCellPtr g m (cellAt g m i)).iOverflow ≤ g.usableSize := by
  have hfits := h.fits i hi
  have hle := g.usable_le
  have hpage := g.page_le
  have hge := g.usable_ge
  rw [cellFits, cellExtent, decide_eq_true_eq] at hfits
  dsimp only at hfits
  rw [Nat.mul_comm i 2] at hfits
  split at hfits
  · rename_i hpc
    have hfind := findCell_eq (g := g) (m := m) (i := i) (by omega)
    have hcell : (fun j => m.aData (get2 m.aData (m.cellOffset + 2 * i) + j)) = cellAt g m i := by
      rw [← hfind]
      rfl
    rw [hcell, cellSizePtr_eq hb, nSize_of_overflow hb hov, ← hfind] at hfits
    omega
  · omega

/-! The parts of `checkTreePage`, on a page `p` of a tree. -/

variable {p i : ℕ} {m : MemPage}

theorem overflows_iff (hm : btreeInitPage g p (db.page p) = some m) {info : CellInfo} {first : ℕ} :
    Overflows g db p i info first ↔ i < m.nCell ∧ info = btreeParseCellPtr g m (cellAt g m i) ∧
      info.nLocal < info.nPayload ∧ first = get4 (cellAt g m i) info.iOverflow := by
  constructor
  · rintro ⟨m', hm', h⟩
    obtain rfl : m = m' := Option.some.inj (hm.symm.trans hm')
    exact h
  · exact fun h => ⟨m, hm, h⟩

/-- The overflow pages of one cell. -/
theorem batch_checkOverflow (hm : btreeInitPage g p (db.page p) = some m) (hcov : Covered g m)
    (htree : TreePage g db aRoot p) (hi : i < m.nCell) {ck : IntegrityCk}
    (h : (checkOverflow g db p i m ck).errMsg = []) :
    ∃ E, Batch g db aRoot ck (checkOverflow g db p i m ck) E ∧
      ∀ info first, Overflows g db p i info first → ∀ k q,
        (chainPages db (overflowPages g info) first)[k]? = some q → (Site.ovfl p i k, q) ∈ E := by
  rw [checkOverflow] at h ⊢
  dsimp only at h ⊢
  set info := btreeParseCellPtr g m (cellAt g m i) with hinfo
  by_cases hov : info.nLocal < info.nPayload
  · have hle := hcov.overflow_le (btreeInitPage_localBounds hm) hi hov
    rw [if_pos ⟨hov, hle⟩] at h ⊢
    generalize hfirst : get4 (cellAt g m i) info.iOverflow = first at h ⊢
    have hran : Ran db 0 (checkPtrmap g db ck first ptrmapOverflow1 p) (checkList g db false
        (checkPtrmap g db ck first ptrmapOverflow1 p) first (overflowPages g info)) :=
      ran_checkList _ _ _ _
    have hmap := checkPtrmap_clean (hran.clean h)
    rw [hmap] at h ⊢
    have hchain : Overflows g db p i info first :=
      (overflows_iff hm).mpr ⟨hi, hinfo, hov, hfirst.symm⟩
    refine ⟨enumerate (Site.ovfl p i) (chainPages db (overflowPages g info) first),
      Batch.of_grows ?_ ?_ ?_, ?_⟩
    · rw [map_snd_enumerate]
      exact checkListLoop_overflow h
    · rintro ⟨s, q⟩ he
      obtain ⟨k, hk, rfl⟩ := mem_enumerate.mp he
      exact ⟨htree, info, first, hchain, hk⟩
    · rintro ⟨s, q⟩ he
      obtain ⟨k, hk, rfl⟩ := mem_enumerate.mp he
      exact id
    · intro info' first' hov' k q hk
      obtain ⟨-, rfl, -, rfl⟩ := (overflows_iff hm).mp hov'
      rw [← hinfo, hfirst] at hk
      exact mem_enumerate.mpr ⟨k, hk, rfl⟩
  · rw [if_neg fun h => hov h.1]
    refine ⟨[], Batch.nil ck, fun info' first' hov' => ?_⟩
    obtain ⟨-, rfl, hlt, -⟩ := (overflows_iff hm).mp hov'
    exact absurd hlt hov

theorem checkRowid_clean {nKey : ℤ} {s : CellLoop} (h : (checkRowid p i m nKey s).ck.errMsg = []) :
    (checkRowid p i m nKey s).ck = s.ck := by
  rw [checkRowid] at h ⊢
  split at h
  · rename_i hint
    rw [if_pos hint]
    split at h
    · rename_i h0
      rw [if_pos h0]
    · rename_i h0
      rw [if_neg h0]
      dsimp only at h ⊢
      split at h
      · exact absurd h (append_errMsg_ne_nil _ _)
      · rename_i hkey
        rw [if_neg hkey]
  · rename_i hint
    rw [if_neg hint]

theorem depth_checkPayload (p : ℕ) (m : MemPage) (s : CellLoop) (i : ℕ) :
    (checkPayload g db p m s i).depth = s.depth := by
  rw [checkPayload]
  dsimp only
  rw [checkRowid]
  split_ifs <;> rfl

/-- On a leaf the loop over the cells leaves the depth alone. -/
theorem depth_foldl_checkCell {rec : IntegrityCk → ℕ → Option ℤ → Option ℤ → TreeResult}
    (hleaf : m.leaf = true) (is : List ℕ) (s : CellLoop) :
    (is.foldl (checkCell g db rec p m) s).depth = s.depth := by
  induction is generalizing s with
  | nil => rfl
  | cons i is ih => rw [List.foldl_cons, ih, checkCell, if_pos hleaf, depth_checkPayload]

theorem checkKeys_clean {lo hi : ℤ} {pMin pMax : Option ℤ} {ck : IntegrityCk}
    (h : (checkKeys p m lo hi pMin pMax ck).2.errMsg = []) :
    (checkKeys p m lo hi pMin pMax ck).2 = ck := by
  have hite : ∀ {P : Prop} [Decidable P] {ck : IntegrityCk} {msg : Msg},
      (if P then ck.append msg else ck).errMsg = [] → (if P then ck.append msg else ck) = ck := by
    intro P _ ck msg h
    split at h
    · exact absurd h (append_errMsg_ne_nil _ _)
    · rename_i hP
      exact if_neg hP
  unfold checkKeys at h ⊢
  split at h
  · rename_i hleaf
    rw [if_pos hleaf]
    cases pMin <;> cases pMax
    · rfl
    · exact hite h
    · exact hite h
    · have houter := hite h
      dsimp only at h houter ⊢
      rw [houter] at h ⊢
      exact hite h
  · rename_i hleaf
    rw [if_neg hleaf]

/-- What `checkTreePage` shows, of the function or of its recursive call: if it reports nothing for
page `c`, named by `s`, then the tree below `c` is a batch, and every leaf below it that is reached
without a right-most child is as deep as it says. -/
def TreeSpec (g : Geom) (db : Db) (aRoot : List ℕ)
    (rec : IntegrityCk → ℕ → Option ℤ → Option ℤ → TreeResult) : Prop :=
  ∀ ck c pMin pMax s, s.IsTree →
    (c ≠ 0 → c ≤ db.nPage → Refers g db aRoot (overflowPages g) s c ∧ TreePage g db aRoot c) →
    (rec ck c pMin pMax).2.2.errMsg = [] →
    (∃ E, Batch g db aRoot ck (rec ck c pMin pMax).2.2 E ∧ (c ≠ 0 → (s, c) ∈ E)) ∧
      ∀ d, LeafDepth g db c false d → d + 1 = (rec ck c pMin pMax).1

section Rec

variable {rec : IntegrityCk → ℕ → Option ℤ → Option ℤ → TreeResult}

/-- The places on the first `n` cells of page `p` are in `E`, and the leaves below their children
that are reached without a right-most child are `depth` levels down. -/
structure CellsDone (g : Geom) (db : Db) (p n : ℕ) (m : MemPage) (depth : ℕ)
    (E : List (Site × ℕ)) : Prop where
  chains : ∀ i < n, ∀ info first, Overflows g db p i info first → ∀ k q,
    (chainPages db (overflowPages g info) first)[k]? = some q → (Site.ovfl p i k, q) ∈ E
  children : m.leaf = false → ∀ i < n, get4 (cellAt g m i) 0 ≠ 0 →
    (Site.child p i, get4 (cellAt g m i) 0) ∈ E
  depth : m.leaf = false → ∀ i < n, ∀ d, LeafDepth g db (get4 (cellAt g m i) 0) false d →
    d + 1 = depth

/-- A child of `p` is a tree page, named on `p`. -/
theorem childPtr_refers (htree : TreePage g db aRoot p) {c : ℕ} (hc : childPtr g db p i = some c)
    (h0 : c ≠ 0) (hle : c ≤ db.nPage) :
    Refers g db aRoot (overflowPages g) (.child p i) c ∧ TreePage g db aRoot c :=
  ⟨⟨htree, hc⟩, .child htree hc h0 hle⟩

theorem childPtr_cell (hm : btreeInitPage g p (db.page p) = some m) (hleaf : m.leaf = false)
    (hi : i < m.nCell) : childPtr g db p i = some (get4 (cellAt g m i) 0) := by
  rw [childPtr, hm]
  dsimp only
  rw [if_neg (by simp [hleaf]), if_pos hi]

theorem childPtr_right (hm : btreeInitPage g p (db.page p) = some m) (hleaf : m.leaf = false) :
    childPtr g db p m.nCell = some (get4 m.aData (m.hdrOffset + 8)) := by
  rw [childPtr, hm]
  dsimp only
  rw [if_neg (by simp [hleaf]), if_neg (by omega), if_pos rfl]

theorem batch_checkPayload (hm : btreeInitPage g p (db.page p) = some m) (hcov : Covered g m)
    (htree : TreePage g db aRoot p) (hi : i < m.nCell) {s : CellLoop}
    (h : (checkPayload g db p m s i).ck.errMsg = []) :
    ∃ E, Batch g db aRoot s.ck (checkPayload g db p m s i).ck E ∧
      ∀ info first, Overflows g db p i info first → ∀ k q,
        (chainPages db (overflowPages g info) first)[k]? = some q → (Site.ovfl p i k, q) ∈ E := by
  have hov : Ran db 0 (checkRowid p i m (btreeParseCellPtr g m (cellAt g m i)).nKey s).ck
      (checkPayload g db p m s i).ck := ran_checkOverflow _ _ _ _
  have hck := checkRowid_clean (hov.clean h)
  obtain ⟨E, hbatch, hchains⟩ := batch_checkOverflow hm hcov htree hi h
  exact ⟨E, hck ▸ hbatch, hchains⟩

variable (hspec : TreeSpec g db aRoot rec)
  (hran : ∀ ck iPage pMin pMax, Ran db 0 ck (rec ck iPage pMin pMax).2.2)
include hspec hran

theorem batch_checkLeftChild (hm : btreeInitPage g p (db.page p) = some m)
    (htree : TreePage g db aRoot p) (hleaf : m.leaf = false) (hi : i < m.nCell) {s : CellLoop}
    (h : (checkLeftChild g db rec p m s i).ck.errMsg = []) :
    (∃ E, Batch g db aRoot s.ck (checkLeftChild g db rec p m s i).ck E ∧
      (get4 (cellAt g m i) 0 ≠ 0 → (Site.child p i, get4 (cellAt g m i) 0) ∈ E)) ∧
      (0 < i → (checkLeftChild g db rec p m s i).depth = s.depth) ∧
      ∀ d, LeafDepth g db (get4 (cellAt g m i) 0) false d →
        d + 1 = (checkLeftChild g db rec p m s i).depth := by
  have hchild := childPtr_cell hm hleaf hi
  rw [checkLeftChild] at h ⊢
  generalize get4 (cellAt g m i) 0 = c at h hchild ⊢
  dsimp only at h ⊢
  generalize (if i = 0 then none else some s.nMaxKey) = pMax at h ⊢
  split at h
  · exact absurd h (append_errMsg_ne_nil _ _)
  rename_i hdepth
  rw [if_neg hdepth]
  have hmap := checkPtrmap_clean ((hran _ _ _ _).clean h)
  rw [hmap] at h hdepth ⊢
  obtain ⟨⟨E, hbatch, hmem⟩, hleafs⟩ :=
    hspec _ c _ _ (.child p i) trivial (fun h0 hle => childPtr_refers htree hchild h0 hle) h
  exact ⟨⟨E, hbatch, hmem⟩, fun hpos => not_not.mp fun hne => hdepth ⟨hpos, hne⟩, hleafs⟩

/-- The loop over the cells. -/
theorem batch_foldl_checkCell (hm : btreeInitPage g p (db.page p) = some m) (hcov : Covered g m)
    (htree : TreePage g db aRoot p) {n : ℕ} (hn : n ≤ m.nCell) {s : CellLoop}
    (h : ((List.range n).foldl (checkCell g db rec p m) s).ck.errMsg = []) :
    ∃ E, Batch g db aRoot s.ck ((List.range n).foldl (checkCell g db rec p m) s).ck E ∧
      CellsDone g db p n m ((List.range n).foldl (checkCell g db rec p m) s).depth E := by
  induction n with
  | zero => exact ⟨[], Batch.nil s.ck, by simp, by simp, by simp⟩
  | succ n ih =>
    rw [List.range_succ, List.foldl_append, List.foldl_cons, List.foldl_nil] at h ⊢
    have hcell := (ran_checkCell (g := g) hran p m ((List.range n).foldl (checkCell g db rec p m) s)
      n).clean h
    obtain ⟨E, hE, hdone⟩ := ih (by omega) hcell
    generalize (List.range n).foldl (checkCell g db rec p m) s = s₁ at h hE hdone ⊢
    rw [checkCell] at h ⊢
    rcases Bool.eq_false_or_eq_true m.leaf with hleaf | hleaf
    · rw [if_pos hleaf] at h ⊢
      obtain ⟨F, hF, hchains⟩ := batch_checkPayload hm hcov htree hn h
      refine ⟨E ++ F, hE.append hF, fun i hi info first hov k q hk => ?_, ?_, ?_⟩
      · rcases Nat.lt_succ_iff_lt_or_eq.mp hi with hi | rfl
        · exact List.mem_append_left _ (hdone.chains i hi info first hov k q hk)
        · exact List.mem_append_right _ (hchains info first hov k q hk)
      · simp [hleaf]
      · simp [hleaf]
    · rw [if_neg (by simp [hleaf])] at h ⊢
      have hpay := (ran_checkLeftChild (g := g) hran p m (checkPayload g db p m s₁ n) n).clean h
      obtain ⟨F, hF, hchains⟩ := batch_checkPayload hm hcov htree hn hpay
      obtain ⟨⟨F', hF', hmem⟩, hsame, hleafs⟩ :=
        batch_checkLeftChild hspec hran hm htree hleaf hn h
      refine ⟨E ++ (F ++ F'), hE.append (hF.append hF'), fun i hi info first hov k q hk => ?_,
        fun _ i hi h0 => ?_, fun _ i hi d hd => ?_⟩
      · rcases Nat.lt_succ_iff_lt_or_eq.mp hi with hi | rfl
        · exact List.mem_append_left _ (hdone.chains i hi info first hov k q hk)
        · exact List.mem_append_right _ (List.mem_append_left _ (hchains info first hov k q hk))
      · rcases Nat.lt_succ_iff_lt_or_eq.mp hi with hi | rfl
        · exact List.mem_append_left _ (hdone.children hleaf i hi h0)
        · exact List.mem_append_right _ (List.mem_append_right _ (hmem h0))
      · rcases Nat.lt_succ_iff_lt_or_eq.mp hi with hi | rfl
        · rw [hsame (by omega), depth_checkPayload]
          exact hdone.depth hleaf i hi d hd
        · exact hleafs d hd

theorem batch_checkRightChild (hm : btreeInitPage g p (db.page p) = some m)
    (htree : TreePage g db aRoot p) {s : CellLoop}
    (h : (checkRightChild g db rec p m s).errMsg = []) :
    ∃ E, Batch g db aRoot s.ck (checkRightChild g db rec p m s) E ∧
      (m.leaf = false → get4 m.aData (m.hdrOffset + 8) ≠ 0 →
        (Site.child p m.nCell, get4 m.aData (m.hdrOffset + 8)) ∈ E) := by
  rw [checkRightChild] at h ⊢
  rcases Bool.eq_false_or_eq_true m.leaf with hleaf | hleaf
  · rw [if_pos hleaf]
    exact ⟨[], Batch.nil s.ck, fun hf => absurd hleaf (by simp [hf])⟩
  · rw [if_neg (by simp [hleaf])] at h ⊢
    have hchild := childPtr_right hm hleaf
    generalize get4 m.aData (m.hdrOffset + 8) = c at h hchild ⊢
    dsimp only at h ⊢
    have hmap := checkPtrmap_clean ((hran _ _ _ _).clean h)
    rw [hmap] at h ⊢
    obtain ⟨⟨E, hbatch, hmem⟩, -⟩ :=
      hspec _ c _ _ (.child p m.nCell) trivial (fun h0 hle => childPtr_refers htree hchild h0 hle) h
    exact ⟨E, hbatch, fun _ => hmem⟩

/-- A decoded page: the batch of everything below it, and the leaves below it. -/
theorem batch_checkDecoded (hm : btreeInitPage g p (db.page p) = some m)
    (htree : TreePage g db aRoot p) {pMin pMax : Option ℤ} {ck : IntegrityCk}
    (h : (checkDecoded g db rec p m pMin pMax ck).2.2.errMsg = []) :
    Covered g m ∧
      (∃ E, Batch g db aRoot ck (checkDecoded g db rec p m pMin pMax ck).2.2 E ∧
        (∀ i c, childPtr g db p i = some c → c ≠ 0 → (Site.child p i, c) ∈ E) ∧
        ∀ i info first, Overflows g db p i info first → ∀ k q,
          (chainPages db (overflowPages g info) first)[k]? = some q → (Site.ovfl p i k, q) ∈ E) ∧
      ∀ d, LeafDepth g db p false d → d + 1 = (checkDecoded g db rec p m pMin pMax ck).1 := by
  rw [checkDecoded, checkCells] at h ⊢
  dsimp only at h ⊢
  obtain ⟨hcover, hcov⟩ := checkCoverage_clean h
  rw [hcover] at h ⊢
  have hkeys := checkKeys_clean h
  rw [hkeys] at h ⊢
  have hcells := (ran_checkRightChild (g := g) hran p m _).clean h
  obtain ⟨E, hE, hdone⟩ := batch_foldl_checkCell hspec hran hm hcov htree le_rfl hcells
  obtain ⟨F, hF, hright⟩ := batch_checkRightChild hspec hran hm htree h
  refine ⟨hcov, ⟨E ++ F, hE.append hF, fun i c hc h0 => ?_, fun i info first hov k q hk => ?_⟩,
    fun d hd => ?_⟩
  · rw [childPtr, hm] at hc
    dsimp only at hc
    split_ifs at hc with hleaf hi hi
    · obtain rfl := Option.some.inj hc
      exact List.mem_append_left _ (hdone.children (by simpa using hleaf) i hi h0)
    · obtain rfl := Option.some.inj hc
      rw [hi]
      exact List.mem_append_right _ (hright (by simpa using hleaf) h0)
  · exact List.mem_append_left _
      (hdone.chains i ((overflows_iff hm).mp hov).1 info first hov k q hk)
  · cases hd with
    | leaf h0 hm' hleaf =>
      -- on a leaf the loop leaves the depth at zero
      obtain rfl := Option.some.inj (hm.symm.trans hm')
      rw [depth_foldl_checkCell hleaf]
    | cell h0 hm' hleaf hi hd =>
      obtain rfl := Option.some.inj (hm.symm.trans hm')
      rw [hdone.depth hleaf _ hi _ hd]

end Rec

/-- **The check of a tree that reports nothing.** -/
theorem treeSpec_checkTreePage (fuel : ℕ) : TreeSpec g db aRoot (checkTreePage g db fuel) := by
  induction fuel with
  | zero =>
    intro ck c pMin pMax s _ _ h
    exact absurd h (append_errMsg_ne_nil _ _)
  | succ fuel ih =>
    intro ck c pMin pMax s hs hrefers h
    rw [checkTreePage] at h ⊢
    split at h
    · rename_i h0
      rw [if_pos h0]
      refine ⟨⟨[], Batch.nil ck, fun hne => absurd h0 hne⟩, fun d hd => ?_⟩
      cases hd with
      | leaf hne => exact absurd h0 hne
      | cell hne => exact absurd h0 hne
    rename_i h0
    rw [if_neg h0]
    rcases hck : checkRef db ck c with ⟨_ | _, ck₁⟩
    · rw [hck] at h
      dsimp only at h ⊢
      obtain ⟨-, hle, hfalse, hck₁⟩ := checkRef_eq_false hck
      obtain ⟨hsite, htree⟩ := hrefers h0 hle
      split at h
      · exact absurd h (append_errMsg_ne_nil _ _)
      rename_i hacq
      rw [if_neg hacq]
      cases hm : btreeInitPage g c (db.page c) with
      | none =>
        rw [hm] at h
        exact absurd h (append_errMsg_ne_nil _ _)
      | some m =>
        rw [hm] at h
        dsimp only at h ⊢
        have hran : ∀ ck iPage pMin pMax,
            Ran db 0 ck (checkTreePage g db fuel ck iPage pMin pMax).2.2 := fun ck q lo hi =>
          ⟨(ran_checkTreePage fuel ck q lo hi).met, (ran_checkTreePage fuel ck q lo hi).msgs,
            fun hlt => absurd hlt (Nat.not_lt_zero _)⟩
        obtain ⟨hcov, ⟨E, hE, hchildren, hchains⟩, hleafs⟩ :=
          batch_checkDecoded ih hran hm htree h
        refine ⟨⟨(s, c) :: E, ⟨?_, ?_, ?_, ?_, ?_⟩, fun _ => List.mem_cons_self⟩, hleafs⟩
        · have hset : Grows db ck ck₁ [c] := hck₁ ▸ grows_setPageReferenced h0 hle hfalse
          exact hset.trans hE.grows
        · intro e he
          rcases List.mem_cons.mp he with rfl | he
          · exact hsite
          · exact hE.refers e he
        · intro e he ht
          rcases List.mem_cons.mp he with rfl | he
          · exact ⟨m, hm, hcov⟩
          · exact hE.covered e he ht
        · intro e he ht i q hq hq0
          rcases List.mem_cons.mp he with rfl | he
          · exact List.mem_cons_of_mem _ (hchildren i q hq hq0)
          · exact List.mem_cons_of_mem _ (hE.children e he ht i q hq hq0)
        · intro e he ht i info first hov k q hk
          rcases List.mem_cons.mp he with rfl | he
          · exact List.mem_cons_of_mem _ (hchains i info first hov k q hk)
          · exact List.mem_cons_of_mem _ (hE.chains e he ht i info first hov k q hk)
    · have hclean : (checkRef db ck c).2.errMsg = [] := by
        rw [hck] at h ⊢
        exact h
      have := (checkRef_clean hclean).2.mpr h0
      rw [hck] at this
      exact Bool.noConfusion this

end Batch

end Btree

end SqliteVms

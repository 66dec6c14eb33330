import SqliteVms.Util.RowSetMerge
import Mathlib.Data.Finset.Basic

/-!
# Row sets: what a test answers

The values of a row set by the calls made so far, the newest first: a test sees what was inserted
before the last test that began a new batch. The forest is a binary counter of batches; what has
been inserted since the last new batch waits on a list.

The list is sorted when a new batch begins, unless it is in order. `rowSetEntrySort` has 40 buckets
and does not check that they suffice, which they do for less than `2 ^ 40` entries.

## Main definitions

* `visible`, `pending`, `forest` — the abstract set
* `Inv` — the row set stands for it
* `Fits` — no list is sorted that is too long

## Main results

* `intoForest_spec` — a list goes into the forest
* `test_step` — one test
* `rowSet_iff` — all tests answer as they should exactly when `Fits`
-/

namespace SqliteVms

namespace RowSet

open Cells

/-! ### The abstract set -/

/-- A call. -/
inductive Call
  | insert (v : ℤ)
  | test (iBatch : UInt8) (iRowid : ℤ)

/-- The batch number in force. -/
def inForce : List Call → UInt8
  | [] => 0
  | .insert _ :: cs => inForce cs
  | .test iBatch _ :: _ => iBatch

/-- All values inserted. -/
def inserted : List Call → List ℤ
  | [] => []
  | .insert v :: cs => inserted cs ++ [v]
  | .test _ _ :: cs => inserted cs

/-- The values inserted before the last test that changed the batch number. -/
def visible : List Call → List ℤ
  | [] => []
  | .insert _ :: cs => visible cs
  | .test iBatch _ :: cs => if iBatch ≠ inForce cs then inserted cs else visible cs

/-- The values inserted after it. -/
def pending : List Call → List ℤ
  | [] => []
  | .insert v :: cs => pending cs ++ [v]
  | .test iBatch _ :: cs => if iBatch ≠ inForce cs then [] else pending cs

/-- A batch is counted: it goes to the first free place, with all that stand before it. -/
def mergeIn : List (Finset ℤ) → Finset ℤ → List (Finset ℤ)
  | [], P => [P]
  | F :: Fs, P => if F = ∅ then P :: Fs else ∅ :: mergeIn Fs (F ∪ P)

/-- The values merged into each tree of the forest. -/
def forest : List Call → List (Finset ℤ)
  | [] => []
  | .insert _ :: cs => forest cs
  | .test iBatch _ :: cs =>
    if iBatch ≠ inForce cs ∧ pending cs ≠ [] then mergeIn (forest cs) (pending cs).toFinset
    else forest cs

variable {cs : List Call} {x : ℤ}

theorem mem_inserted : x ∈ inserted cs ↔ x ∈ visible cs ∨ x ∈ pending cs := by
  induction cs with
  | nil => simp [inserted, visible, pending]
  | cons c cs ih =>
    cases c with
    | insert v => simp only [inserted, visible, pending, List.mem_append, ih, or_assoc]
    | test b r =>
      rw [inserted, visible, pending]
      split
      case isTrue => simp
      case isFalse => exact ih

theorem mem_mergeIn {Fs : List (Finset ℤ)} {P : Finset ℤ} :
    (∃ F ∈ mergeIn Fs P, x ∈ F) ↔ (∃ F ∈ Fs, x ∈ F) ∨ x ∈ P := by
  induction Fs generalizing P with
  | nil => simp [mergeIn]
  | cons F Fs ih =>
    rw [mergeIn]
    split
    case isTrue hF =>
      rw [List.exists_mem_cons_iff, List.exists_mem_cons_iff, hF, or_comm]
      simp
    case isFalse =>
      rw [List.exists_mem_cons_iff, ih, List.exists_mem_cons_iff, Finset.mem_union]
      simp only [Finset.notMem_empty, false_or]
      exact or_left_comm.trans or_assoc.symm

/-- The trees hold what is visible. -/
theorem mem_visible : x ∈ visible cs ↔ ∃ F ∈ forest cs, x ∈ F := by
  induction cs with
  | nil => simp [visible, forest]
  | cons c cs ih =>
    cases c with
    | insert v => exact ih
    | test b r =>
      rw [visible, forest]
      by_cases hb : b ≠ inForce cs
      · rw [if_pos hb, mem_inserted, ih]
        by_cases hp : pending cs ≠ []
        · rw [if_pos ⟨hb, hp⟩, mem_mergeIn, List.mem_toFinset]
        · rw [if_neg (fun hand => hp hand.2), not_not.mp hp, or_iff_left List.not_mem_nil]
      · rw [if_neg hb, if_neg (fun hand => hb hand.1), ih]

/-! ### Searching -/

variable {S : List ℕ} {h h' h'' : Heap} {p : Option ℕ} {as ms : List ℕ} {t : Shape ℕ}

/-- The values of the entries of a list. -/
def valuesOf (h : Heap) (as : List ℕ) : Finset ℤ := (as.map fun a => (h a).v).toFinset

theorem mem_valuesOf : x ∈ valuesOf h as ↔ HasValue h as x := by
  rw [valuesOf, List.mem_toFinset, List.mem_map]
  rfl

theorem valuesOf_congr (hv : ∀ a ∈ as, (h' a).v = (h a).v) : valuesOf h' as = valuesOf h as := by
  rw [valuesOf, valuesOf, List.map_congr_left hv]

theorem ordered_congr (hv : ∀ a ∈ as, (h' a).v = (h a).v) : Ordered h' as ↔ Ordered h as :=
  List.Pairwise.iff_of_mem fun ha hb => by rw [hv _ ha, hv _ hb]

/-- **Searching a tree.** -/
theorem searchTree_spec (fuel : ℕ) (ht : IsTree h.left h.right p t) (ho : Ordered h t.flat)
    (hfuel : t.flat.length < fuel) :
    searchTree fuel h p x = .ok (decide (x ∈ valuesOf h t.flat)) := by
  induction fuel generalizing p t with
  | zero => exact absurd hfuel (Nat.not_lt_zero _)
  | succ fuel ih =>
    cases p with
    | none =>
      obtain rfl := ht.eq_leaf
      rfl
    | some a =>
      obtain ⟨l, r, rfl, hl, hr⟩ := ht.eq_node
      rw [Shape.flat] at ho
      simp only [Shape.flat, List.length_append, List.length_cons] at hfuel
      obtain ⟨hol, hor, hlr⟩ := List.pairwise_append.mp ho
      have hmem : x ∈ valuesOf h (Shape.node l a r).flat ↔
          x ∈ valuesOf h l.flat ∨ (h a).v = x ∨ x ∈ valuesOf h r.flat := by
        rw [mem_valuesOf, mem_valuesOf, mem_valuesOf, Shape.flat, hasValue_append, hasValue_cons]
      have hleft : x ∈ valuesOf h l.flat → x < (h a).v := fun hin => by
        obtain ⟨c, hc, rfl⟩ := mem_valuesOf.mp hin
        exact hlr c hc a List.mem_cons_self
      have hright : x ∈ valuesOf h r.flat → (h a).v < x := fun hin => by
        obtain ⟨c, hc, rfl⟩ := mem_valuesOf.mp hin
        exact List.rel_of_pairwise_cons hor hc
      rw [searchTree]
      split
      case isTrue hlt =>
        rw [ih (p := (h a).pRight) hr (List.Pairwise.of_cons hor) (by omega)]
        refine congrArg _ (decide_eq_decide.mpr ⟨fun hin => hmem.mpr (Or.inr (Or.inr hin)), ?_⟩)
        intro hin
        rcases hmem.mp hin with hin | heq | hin
        · exact absurd (hleft hin) (by omega)
        · exact absurd heq (by omega)
        · exact hin
      case isFalse hge =>
        split
        case isTrue hlt =>
          rw [ih (p := (h a).pLeft) hl hol (by omega)]
          refine congrArg _ (decide_eq_decide.mpr ⟨fun hin => hmem.mpr (Or.inl hin), ?_⟩)
          intro hin
          rcases hmem.mp hin with hin | heq | hin
          · exact hin
          · exact absurd heq (by omega)
          · exact absurd (hright hin) (by omega)
        case isFalse hle =>
          rw [decide_eq_true (hmem.mpr (Or.inr (Or.inl (by omega))))]

/-- The trees of a forest, each with the entry that holds its root. -/
structure Trees (h : Heap) (fs : List (ℕ × Shape ℕ)) : Prop where
  isTree : ∀ f ∈ fs, IsTree h.left h.right (h.left f.1) f.2
  ordered : ∀ f ∈ fs, Ordered h f.2.flat

/-- The entries of a forest. -/
def foot (fs : List (ℕ × Shape ℕ)) : List ℕ := fs.flatMap fun f => f.1 :: f.2.flat

/-- The values in each tree. -/
def treeValues (h : Heap) (fs : List (ℕ × Shape ℕ)) : List (Finset ℤ) :=
  fs.map fun f => valuesOf h f.2.flat

variable {f : ℕ × Shape ℕ} {fs : List (ℕ × Shape ℕ)}

theorem mem_foot {a : ℕ} : a ∈ foot fs ↔ ∃ f ∈ fs, a = f.1 ∨ a ∈ f.2.flat := by
  simp [foot]

theorem foot_cons : foot (f :: fs) = f.1 :: f.2.flat ++ foot fs := by
  rw [foot, foot, List.flatMap_cons]

theorem trees_cons : Trees h (f :: fs) ↔
    (IsTree h.left h.right (h.left f.1) f.2 ∧ Ordered h f.2.flat) ∧ Trees h fs := by
  constructor
  · rintro ⟨ht, ho⟩
    obtain ⟨ht, hts⟩ := List.forall_mem_cons.mp ht
    obtain ⟨ho, hos⟩ := List.forall_mem_cons.mp ho
    exact ⟨⟨ht, ho⟩, hts, hos⟩
  · rintro ⟨⟨ht, ho⟩, hts, hos⟩
    exact ⟨List.forall_mem_cons.mpr ⟨ht, hts⟩, List.forall_mem_cons.mpr ⟨ho, hos⟩⟩

/-- **Searching the forest.** -/
theorem searchForest_spec {fuel : ℕ} (n : ℕ) (hp : Chain h.right p (fs.map Prod.fst))
    (ht : Trees h fs) (hfuel : ∀ f ∈ fs, f.2.flat.length < fuel) (hn : fs.length < n) :
    searchForest fuel n h p x = .ok (decide (∃ F ∈ treeValues h fs, x ∈ F)) := by
  induction n generalizing p fs with
  | zero => exact absurd hn (Nat.not_lt_zero _)
  | succ n ih =>
    cases fs with
    | nil =>
      obtain rfl : p = none := hp
      simp [searchForest, treeValues]
    | cons f fs =>
      obtain ⟨rfl, hnext⟩ := hp
      obtain ⟨⟨hf, ho⟩, ht⟩ := trees_cons.mp ht
      obtain ⟨hlen, hfuel⟩ := List.forall_mem_cons.mp hfuel
      rw [List.length_cons] at hn
      have hone : searchTree fuel h (h f.1).pLeft x = .ok (decide (x ∈ valuesOf h f.2.flat)) :=
        searchTree_spec fuel hf ho hlen
      have hrest : searchForest fuel n h (h f.1).pRight x =
          .ok (decide (∃ F ∈ treeValues h fs, x ∈ F)) := ih hnext ht hfuel (by omega)
      have hsplit : (∃ F ∈ treeValues h (f :: fs), x ∈ F) ↔
          x ∈ valuesOf h f.2.flat ∨ ∃ F ∈ treeValues h fs, x ∈ F := List.exists_mem_cons_iff ..
      rw [searchForest, hone]
      change (if decide _ = true then _ else _) = _
      split
      case isTrue hin =>
        rw [decide_eq_true (hsplit.mpr (Or.inl (of_decide_eq_true hin)))]
        rfl
      case isFalse hout =>
        rw [hrest]
        refine congrArg _ (decide_eq_decide.mpr ?_)
        rw [hsplit, or_iff_right (fun hin => hout (decide_eq_true hin))]

/-! ### A list goes into the forest -/

/-- Only entries of `S` are changed, and no value but that of entry `n`, which is new. -/
structure FrameNew (n : ℕ) (S : List ℕ) (h h' : Heap) : Prop where
  out : ∀ c, c ∉ S → h' c = h c
  v : ∀ c, c ≠ n → (h' c).v = (h c).v

theorem FrameNew.cons_frame {n : ℕ} (hf : Frame ms h h') (hn : FrameNew n S h' h'') (hS : ms ⊆ S) :
    FrameNew n S h h'' where
  out := fun c hc => (hn.out c hc).trans (hf.out c fun hin => hc (hS hin))
  v := fun c hc => (hn.v c hc).trans (hf.v c)

theorem FrameNew.mono {n : ℕ} (hn : FrameNew n S h h') {S' : List ℕ} (hS : S ⊆ S') :
    FrameNew n S' h h' := ⟨fun c hc => hn.out c fun hin => hc (hS hin), hn.v⟩

theorem FrameNew.frame {n : ℕ} (hn : FrameNew n S h h') (hf : Frame ms h' h'') (hS : ms ⊆ S) :
    FrameNew n S h h'' where
  out := fun c hc => (hf.out c fun hin => hc (hS hin)).trans (hn.out c hc)
  v := fun c hc => (hf.v c).trans (hn.v c hc)

theorem Frame.frameNew (hf : Frame ms h h') (n : ℕ) (hS : ms ⊆ S) : FrameNew n S h h' :=
  ⟨fun c hc => hf.out c fun hin => hc (hS hin), fun c _ => hf.v c⟩

/-- What `*ppPrevTree` is. -/
def forestPtr (s : RowSet) : Option ℕ → Option ℕ
  | none => s.pForest
  | some x => s.heap.right x

/-- What `sqlite3RowSetTest` has when it comes to a place in the forest with the list `ps`, the trees
`fs` still to come. -/
structure IntoPre (s : RowSet) (pPrevTree pTree : Option ℕ) (p : ℕ) (fs : List (ℕ × Shape ℕ))
    (ps : List ℕ) : Prop where
  ptr : forestPtr s pPrevTree = pTree
  headers : Chain s.heap.right pTree (fs.map Prod.fst)
  trees : Trees s.heap fs
  chain : Chain s.heap.right (some p) ps
  ordered : Ordered s.heap ps
  nodup : (pPrevTree.toList ++ ps ++ foot fs).Nodup
  bound : ∀ a ∈ pPrevTree.toList ++ ps ++ foot fs, a < s.nEntry

/-- What it has done in the end. -/
structure IntoPost (s : RowSet) (pPrevTree : Option ℕ) (fs : List (ℕ × Shape ℕ)) (ps : List ℕ)
    (s' : RowSet) (fs' : List (ℕ × Shape ℕ)) : Prop where
  nEntry : s.nEntry ≤ s'.nEntry ∧ s'.nEntry ≤ s.nEntry + 1
  pForest : pPrevTree ≠ none → s'.pForest = s.pForest
  iBatch : s'.iBatch = s.iBatch
  left : ∀ y, pPrevTree = some y → s'.heap.left y = s.heap.left y
  frame : FrameNew s.nEntry (s.nEntry :: pPrevTree.toList ++ ps ++ foot fs) s.heap s'.heap
  headers : Chain s'.heap.right (forestPtr s' pPrevTree) (fs'.map Prod.fst)
  trees : Trees s'.heap fs'
  nodup : (foot fs').Nodup
  subset : ∀ a ∈ foot fs', a ∈ ps ∨ a ∈ foot fs ∨ a = s.nEntry
  bound : ∀ a ∈ foot fs', a < s'.nEntry
  values : treeValues s'.heap fs' = mergeIn (treeValues s.heap fs) (valuesOf s.heap ps)

/-- The list becomes a tree of its own. -/
theorem intoForest_new {s : RowSet} {pPrevTree : Option ℕ} {q fuel : ℕ} {ps : List ℕ} (n : ℕ)
    (hpre : IntoPre s pPrevTree none q [] ps) (hfuel : s.nEntry ≤ fuel) :
    ∃ s' fs', intoForest fuel (n + 1) s pPrevTree none q = .ok s' ∧
      IntoPost s pPrevTree [] ps s' fs' := by
  obtain ⟨-, -, -, hchain, hord, hnodup, hbound⟩ := hpre
  simp only [foot, List.flatMap_nil, List.append_nil] at hnodup hbound
  obtain ⟨-, hnps, hdisj⟩ := List.nodup_append.mp hnodup
  have hfresh : s.nEntry ∉ pPrevTree.toList ++ ps := fun hin => lt_irrefl _ (hbound _ hin)
  simp only [List.mem_append, not_or] at hfresh hbound
  -- the memory after the new entry was linked and written
  let s₁ := putForest { s with nEntry := s.nEntry + 1 } pPrevTree (some s.nEntry)
  let h₁ : Heap := Function.update s₁.heap s.nEntry
    { s₁.heap s.nEntry with v := 0, pRight := none }
  have hlink : Frame pPrevTree.toList s.heap s₁.heap ∧ forestPtr s₁ pPrevTree = some s.nEntry ∧
      s₁.iBatch = s.iBatch ∧ s₁.nEntry = s.nEntry + 1 ∧
      (pPrevTree ≠ none → s₁.pForest = s.pForest) := by
    cases pPrevTree with
    | none => exact ⟨Frame.refl _ _, rfl, rfl, rfl, fun hne => absurd rfl hne⟩
    | some y =>
      exact ⟨frame_setRight (List.mem_singleton.mpr rfl), setRight_right_self, rfl, rfl,
        fun _ => rfl⟩
  obtain ⟨hf₁, hptr, hbatch, hnEntry, hforest⟩ := hlink
  have hh₁ : ∀ c, c ≠ s.nEntry → h₁ c = s₁.heap c := fun c hc => Function.update_of_ne hc _ _
  have hn₁ : h₁.right s.nEntry = none := by
    change (h₁ s.nEntry).pRight = none
    rw [show h₁ s.nEntry = _ from Function.update_self _ _ _]
  have hnew : FrameNew s.nEntry (s.nEntry :: pPrevTree.toList ++ ps) s.heap h₁ := by
    constructor
    case out =>
      intro c hc
      simp only [List.cons_append, List.mem_cons, List.mem_append, not_or] at hc
      rw [hh₁ c hc.1, hf₁.out c hc.2.1]
    case v => exact fun c hc => by rw [hh₁ c hc, hf₁.v]
  have hps : ∀ c ∈ ps, h₁ c = s.heap c := fun c hc => by
    rw [hh₁ c fun heq => hfresh.2 (heq ▸ hc), hf₁.out c fun hin => hdisj c hin c hc rfl]
  have hchain₁ : Chain h₁.right (some q) ps :=
    hchain.congr fun c hc => congrArg RowSetEntry.pRight (hps c hc)
  have hlen : ps.length ≤ fuel := by
    have hrange : ps ⊆ List.range s.nEntry := fun c hc =>
      List.mem_range.mpr (hbound c (Or.inr hc))
    refine Nat.le_trans (Nat.le_trans (List.subperm_of_subset hnps hrange).length_le ?_) hfuel
    rw [List.length_range]
  obtain ⟨h₂, root, t, hrun, hf₂, ht, hflat⟩ := rowSetListToTree_spec hchain₁ hnps hlen
  have hv : ∀ c ∈ ps, ((h₂.setLeft s.nEntry (some root)) c).v = (s.heap c).v := fun c hc => by
    rw [(frame_setLeft (S := [s.nEntry]) (List.mem_singleton.mpr rfl)).v, hf₂.v, hps c hc]
  refine ⟨{ s₁ with heap := h₂.setLeft s.nEntry (some root) }, [(s.nEntry, t)], ?_, ?_⟩
  · rw [intoForest]
    change (rowSetListToTree fuel h₁ q).bind _ = _
    rw [hrun]
    rfl
  constructor
  case nEntry => exact ⟨by rw [hnEntry]; omega, by rw [hnEntry]⟩
  case pForest => exact hforest
  case iBatch => exact hbatch
  case left =>
    rintro y rfl
    have hy : y ∈ (some y).toList := List.mem_singleton.mpr rfl
    have hne : y ≠ s.nEntry := fun heq => hfresh.1 (heq ▸ hy)
    change (h₂.setLeft s.nEntry (some root)).left y = _
    rw [setLeft_left_of_ne hne, hf₂.left fun hin => hdisj y hy y hin rfl]
    exact (congrArg RowSetEntry.pLeft (hh₁ y hne)).trans (setRight_left y)
  case frame =>
    simp only [foot, List.flatMap_nil, List.append_nil]
    exact (hnew.frame hf₂ (List.subset_append_right _ _)).frame
      (frame_setLeft (List.mem_singleton.mpr rfl)) (List.cons_subset.mpr
        ⟨List.mem_cons_self, List.nil_subset _⟩)
  case headers =>
    have hend : (h₂.setLeft s.nEntry (some root)).right s.nEntry = none := by
      rw [setLeft_right, hf₂.right hfresh.2, hn₁]
    refine ⟨?_, hend⟩
    cases pPrevTree with
    | none => exact hptr
    | some y =>
      have hy : y ∈ (some y).toList := List.mem_singleton.mpr rfl
      change (h₂.setLeft s.nEntry (some root)).right y = _
      rw [setLeft_right, hf₂.right fun hin => hdisj y hy y hin rfl]
      exact (congrArg RowSetEntry.pRight (hh₁ y fun heq => hfresh.1 (heq ▸ hy))).trans hptr
  case trees =>
    refine trees_cons.mpr ⟨⟨?_, ?_⟩, nofun, nofun⟩
    · rw [setLeft_left_self]
      refine ht.congr (fun c hc => setLeft_left_of_ne ?_) fun c _ => setLeft_right c
      exact fun heq => hfresh.2 (heq ▸ hflat ▸ hc)
    · rw [hflat]
      exact (ordered_congr hv).mpr hord
  case nodup =>
    simp only [foot, List.flatMap_cons, List.flatMap_nil, List.append_nil, hflat]
    exact List.nodup_cons.mpr ⟨hfresh.2, hnps⟩
  case subset =>
    intro a ha
    simp only [foot, List.flatMap_cons, List.flatMap_nil, List.append_nil, hflat,
      List.mem_cons] at ha
    exact ha.symm.imp id Or.inr
  case bound =>
    intro a ha
    simp only [foot, List.flatMap_cons, List.flatMap_nil, List.append_nil, hflat,
      List.mem_cons] at ha
    change a < s₁.nEntry
    rw [hnEntry]
    rcases ha with rfl | ha
    · omega
    · exact Nat.lt_succ_of_lt (hbound a (Or.inr ha))
  case values =>
    change [valuesOf _ t.flat] = mergeIn [] _
    rw [hflat, mergeIn, valuesOf_congr hv]

/-- Entries that are all below `n` are at most `n`. -/
theorem length_le_of_lt {n : ℕ} (hnodup : as.Nodup) (hlt : ∀ a ∈ as, a < n) : as.length ≤ n := by
  have hsub : as ⊆ List.range n := fun a ha => List.mem_range.mpr (hlt a ha)
  rw [← List.length_range (n := n)]
  exact (List.subperm_of_subset hnodup hsub).length_le

/-- A forest whose entries are all as they were. -/
theorem Trees.congr (ht : Trees h fs) (heq : ∀ a ∈ foot fs, h' a = h a) : Trees h' fs where
  isTree := fun f hmem => by
    have hroot := heq f.1 (mem_foot.mpr ⟨f, hmem, Or.inl rfl⟩)
    have hflat : ∀ a ∈ f.2.flat, h' a = h a := fun a ha => heq a (mem_foot.mpr ⟨f, hmem, Or.inr ha⟩)
    rw [Heap.left, hroot]
    exact (ht.isTree f hmem).congr (fun a ha => congrArg RowSetEntry.pLeft (hflat a ha))
      fun a ha => congrArg RowSetEntry.pRight (hflat a ha)
  ordered := fun f hmem => (ordered_congr fun a ha =>
    congrArg RowSetEntry.v (heq a (mem_foot.mpr ⟨f, hmem, Or.inr ha⟩))).mpr (ht.ordered f hmem)

theorem headers_congr (hp : Chain h.right p (fs.map Prod.fst)) (heq : ∀ a ∈ foot fs, h' a = h a) :
    Chain h'.right p (fs.map Prod.fst) :=
  hp.congr fun a ha => by
    obtain ⟨f, hmem, rfl⟩ := List.mem_map.mp ha
    exact congrArg RowSetEntry.pRight (heq f.1 (mem_foot.mpr ⟨f, hmem, Or.inl rfl⟩))

theorem treeValues_congr (heq : ∀ a ∈ foot fs, h' a = h a) : treeValues h' fs = treeValues h fs :=
  List.map_congr_left fun f hmem => valuesOf_congr fun a ha =>
    congrArg RowSetEntry.v (heq a (mem_foot.mpr ⟨f, hmem, Or.inr ha⟩))

theorem Trees.frame (ht : Trees h fs) (hf : Frame ms h h') (hdisj : ∀ a ∈ foot fs, a ∉ ms) :
    Trees h' fs := ht.congr fun a ha => hf.out a (hdisj a ha)

theorem headers_frame (hp : Chain h.right p (fs.map Prod.fst)) (hf : Frame ms h h')
    (hdisj : ∀ a ∈ foot fs, a ∉ ms) : Chain h'.right p (fs.map Prod.fst) :=
  headers_congr hp fun a ha => hf.out a (hdisj a ha)

theorem Frame.valuesOf (hf : Frame ms h h') (as : List ℕ) : valuesOf h' as = valuesOf h as :=
  valuesOf_congr fun a _ => hf.v a

theorem Frame.treeValues (hf : Frame ms h h') (fs : List (ℕ × Shape ℕ)) :
    treeValues h' fs = treeValues h fs :=
  List.map_congr_left fun f _ => hf.valuesOf f.2.flat

theorem valuesOf_nil : valuesOf h [] = ∅ := rfl

theorem valuesOf_ne_empty {a : ℕ} (ha : a ∈ as) : valuesOf h as ≠ ∅ := fun heq =>
  Finset.notMem_empty (h a).v (heq ▸ mem_valuesOf.mpr ⟨a, ha, rfl⟩)

/-- The place is free: the list becomes its tree. -/
theorem intoForest_free {s : RowSet} {pPrevTree : Option ℕ} {q fuel x : ℕ} {ps : List ℕ} (n : ℕ)
    (hpre : IntoPre s pPrevTree (some x) q ((x, .leaf) :: fs) ps) (hfuel : s.nEntry ≤ fuel) :
    ∃ s' fs', intoForest fuel (n + 1) s pPrevTree (some x) q = .ok s' ∧
      IntoPost s pPrevTree ((x, .leaf) :: fs) ps s' fs' := by
  obtain ⟨hptr, hheaders, htrees, hchain, hord, hnodup, hbound⟩ := hpre
  obtain ⟨⟨hleaf, -⟩, htrees⟩ := trees_cons.mp htrees
  replace hleaf : s.heap.left x = none := hleaf
  obtain ⟨-, hheaders⟩ := hheaders
  rw [List.append_assoc] at hnodup hbound
  obtain ⟨-, hnodup, hprev⟩ := List.nodup_append.mp hnodup
  obtain ⟨hnps, hnfoot, hdisj⟩ := List.nodup_append.mp hnodup
  rw [foot_cons, Shape.flat, List.singleton_append] at hnfoot
  obtain ⟨hx, hnfs⟩ := List.nodup_cons.mp hnfoot
  have hxps : x ∉ ps := fun hin => hdisj x hin x (by simp [foot]) rfl
  have hfoot : ∀ a ∈ foot fs, a ∉ ps := fun a ha hin => hdisj a hin a (by simp [foot_cons, ha]) rfl
  have hlen : ps.length ≤ fuel :=
    Nat.le_trans (length_le_of_lt hnps fun a ha => hbound a (by simp [ha])) hfuel
  obtain ⟨h₂, root, t, hrun, hf₂, ht, hflat⟩ := rowSetListToTree_spec hchain hnps hlen
  have hf₃ : Frame [x] h₂ (h₂.setLeft x (some root)) := frame_setLeft (List.mem_singleton.mpr rfl)
  have hf : Frame (x :: ps) s.heap (h₂.setLeft x (some root)) :=
    (hf₂.mono (List.subset_cons_self _ _)).trans (hf₃.mono
      (List.cons_subset.mpr ⟨List.mem_cons_self, List.nil_subset _⟩))
  have hout : ∀ a ∈ foot fs, a ∉ x :: ps := fun a ha hin => by
    rcases List.mem_cons.mp hin with rfl | hin
    · exact hx ha
    · exact hfoot a ha hin
  have hsub : ∀ a ∈ foot ((x, t) :: fs), a ∈ ps ∨ a ∈ foot ((x, .leaf) :: fs) := fun a ha => by
    simp only [foot_cons, hflat, Shape.flat, List.mem_append, List.mem_cons,
      List.not_mem_nil] at ha ⊢
    tauto
  refine ⟨{ s with heap := h₂.setLeft x (some root) }, (x, t) :: fs, ?_, ?_⟩
  · rw [intoForest]
    change (match s.heap.left x with | none => _ | some root => _) = _
    rw [hleaf, hrun]
    rfl
  constructor
  case nEntry => exact ⟨Nat.le_refl _, Nat.le_succ _⟩
  case pForest => exact fun _ => rfl
  case iBatch => rfl
  case left =>
    intro y hy
    refine hf.left fun hin => ?_
    refine hprev y (by rw [hy]; exact List.mem_singleton.mpr rfl) y ?_ rfl
    simp only [foot_cons, List.mem_append, List.mem_cons] at hin ⊢
    tauto
  case frame =>
    refine hf.frameNew _ fun a ha => ?_
    simp only [foot_cons, List.cons_append, List.mem_cons, List.mem_append] at ha ⊢
    tauto
  case headers =>
    refine ⟨?_, ?_⟩
    · cases pPrevTree with
      | none => exact hptr
      | some y =>
        refine (hf.right fun hin => ?_).trans hptr
        refine hprev y (List.mem_singleton.mpr rfl) y ?_ rfl
        simp only [foot_cons, List.mem_append, List.mem_cons] at hin ⊢
        tauto
    · change Chain _ ((h₂.setLeft x (some root)).right x) _
      rw [setLeft_right, hf₂.right hxps]
      exact headers_frame hheaders hf hout
  case trees =>
    refine trees_cons.mpr ⟨⟨?_, ?_⟩, htrees.frame hf hout⟩
    · rw [setLeft_left_self]
      refine ht.congr (fun c hc => setLeft_left_of_ne ?_) fun c _ => setLeft_right c
      exact fun heq => hxps (heq ▸ hflat ▸ hc)
    · rw [hflat]
      exact hf.ordered.mpr hord
  case nodup =>
    rw [foot_cons, hflat]
    refine List.nodup_append.mpr ⟨List.nodup_cons.mpr ⟨hxps, hnps⟩, hnfs, ?_⟩
    exact fun a ha b hb heq => hout b hb (heq ▸ ha)
  case subset => exact fun a ha => (hsub a ha).imp_right Or.inl
  case bound =>
    intro a ha
    refine hbound a ?_
    simp only [List.mem_append]
    exact Or.inr (hsub a ha)
  case values =>
    change valuesOf _ t.flat :: treeValues _ fs = mergeIn (valuesOf _ [] :: treeValues _ fs) _
    rw [mergeIn, valuesOf_nil, if_pos rfl, hflat, hf.valuesOf, hf.treeValues]

/-- No entry is of two of the lists: the place `x`, its tree, the list `ps` and what comes behind. -/
structure Apart (s : RowSet) (pPrevTree : Option ℕ) (x : ℕ) (t : Shape ℕ) (fs : List (ℕ × Shape ℕ))
    (ps : List ℕ) : Prop where
  place : x ∉ t.flat ∧ x ∉ ps ∧ x ∉ foot fs
  tree : ∀ b ∈ t.flat, b ∉ ps
  out : ∀ b ∈ foot fs, b ∉ x :: t.flat ++ ps
  nodup : t.flat.Nodup ∧ ps.Nodup ∧ (foot fs).Nodup
  lt : ∀ b, b = x ∨ b ∈ t.flat ∨ b ∈ ps ∨ b ∈ foot fs → b < s.nEntry
  prev : ∀ y, pPrevTree = some y → y ≠ s.nEntry ∧
    ∀ b, b = x ∨ b ∈ t.flat ∨ b ∈ ps ∨ b ∈ foot fs → y ≠ b

theorem IntoPre.apart {s : RowSet} {pPrevTree : Option ℕ} {q x : ℕ} {ps : List ℕ} {t : Shape ℕ}
    (hpre : IntoPre s pPrevTree (some x) q ((x, t) :: fs) ps) : Apart s pPrevTree x t fs ps := by
  obtain ⟨-, -, -, -, -, hnodup, hbound⟩ := hpre
  rw [List.append_assoc] at hnodup hbound
  obtain ⟨-, hnodup, hprev⟩ := List.nodup_append.mp hnodup
  obtain ⟨hnps, hnfoot, hdisj⟩ := List.nodup_append.mp hnodup
  rw [foot_cons] at hnfoot hdisj hbound
  obtain ⟨hnxt, hnfs, hdisjt⟩ := List.nodup_append.mp hnfoot
  obtain ⟨hxt, hnt⟩ := List.nodup_cons.mp hnxt
  constructor
  case place =>
    exact ⟨hxt, fun hin => hdisj x hin x (by simp) rfl, fun hin => hdisjt x (by simp) x hin rfl⟩
  case tree => exact fun b hb hin => hdisj b hin b (by simp [show b ∈ t.flat from hb]) rfl
  case out =>
    intro b hb hin
    rcases List.mem_append.mp hin with hin | hin
    · exact hdisjt b hin b hb rfl
    · exact hdisj b hin b (by simp [hb]) rfl
  case nodup => exact ⟨hnt, hnps, hnfs⟩
  case lt =>
    intro b hb
    refine hbound b ?_
    simp only [List.mem_append, List.mem_cons]
    tauto
  case prev =>
    rintro y rfl
    refine ⟨(hbound y (by simp)).ne, fun b hb => hprev y (List.mem_singleton.mpr rfl) b ?_⟩
    simp only [List.mem_append, foot_cons, List.mem_cons]
    tauto

/-- The place is taken: its tree is made a list again and merged with the new one, which then goes
on to the next place. -/
theorem intoForest_taken {s : RowSet} {pPrevTree : Option ℕ} {q fuel x : ℕ} {ps : List ℕ}
    {t : Shape ℕ} {root : ℕ} (n : ℕ) (hpre : IntoPre s pPrevTree (some x) q ((x, t) :: fs) ps)
    (hroot : s.heap.left x = some root) (hfuel : s.nEntry < fuel) :
    ∃ h' q' ps', intoForest fuel (n + 1) s pPrevTree (some x) q =
        intoForest fuel n { s with heap := h' } (some x) (h'.right x) q' ∧
      Frame (x :: t.flat ++ ps) s.heap h' ∧ h'.left x = none ∧
      IntoPre { s with heap := h' } (some x) (h'.right x) q' fs ps' ∧
      (∀ b ∈ ps', b ∈ t.flat ∨ b ∈ ps) ∧ h'.right x = s.heap.right x ∧
      valuesOf h' ps' = valuesOf s.heap t.flat ∪ valuesOf s.heap ps := by
  have hap := hpre.apart
  obtain ⟨hxt, hxps, hxfoot⟩ := hap.place
  obtain ⟨hnt, hnps, hnfs⟩ := hap.nodup
  obtain ⟨-, hheaders, htrees, hchain, hord, -, -⟩ := hpre
  obtain ⟨⟨htree, hot⟩, htrees⟩ := trees_cons.mp htrees
  obtain ⟨-, hheaders⟩ := hheaders
  change IsTree s.heap.left s.heap.right (s.heap.left x) t at htree
  change Chain s.heap.right (s.heap.right x) (fs.map Prod.fst) at hheaders
  replace hot : Ordered s.heap t.flat := hot
  rw [hroot] at htree
  have hlen : t.flat.length + ps.length < fuel := by
    rw [← List.length_append]
    refine Nat.lt_of_le_of_lt (length_le_of_lt (List.nodup_append.mpr
      ⟨hnt, hnps, fun b hb c hc hbc => hap.tree b hb (hbc ▸ hc)⟩) fun b hb => hap.lt b ?_) hfuel
    rcases List.mem_append.mp hb with hb | hb
    · exact Or.inr (Or.inl hb)
    · exact Or.inr (Or.inr (Or.inl hb))
  -- the three steps
  obtain ⟨h₁, first, last, init, hrun₁, hf₁, hlast, hchain₁⟩ :=
    rowSetTreeToList_spec fuel t (by omega) s.heap root htree hnt
  have hf₂ : Frame [x] h₁ (h₁.setLeft x none) := frame_setLeft (List.mem_singleton.mpr rfl)
  have hf₁₂ : Frame (x :: t.flat) s.heap (h₁.setLeft x none) :=
    (hf₁.mono (List.subset_cons_self _ _)).trans (hf₂.mono
      (List.cons_subset.mpr ⟨List.mem_cons_self, List.nil_subset _⟩))
  have hchainT : Chain (h₁.setLeft x none).right (some first) t.flat :=
    Chain.congr hchain₁ fun b _ => setLeft_right b
  have hchainP : Chain (h₁.setLeft x none).right (some q) ps :=
    hf₁₂.chain hchain fun b hb hin => by
      rcases List.mem_cons.mp hin with rfl | hin
      · exact hxps hb
      · exact hap.tree b hin hb
  obtain ⟨h₃, p, ms, hrun₃, hf₃, hms, hu⟩ := rowSetEntryMerge_spec hchainT hchainP
    (hf₁₂.ordered.mpr hot) (hf₁₂.ordered.mpr hord) hap.tree hlen
  have hf : Frame (x :: t.flat ++ ps) s.heap h₃ :=
    (hf₁₂.mono (List.subset_append_left _ _)).trans (hf₃.mono fun b hb => by
      rw [List.cons_append]
      exact List.mem_cons_of_mem _ hb)
  have hx₃ : x ∉ t.flat ++ ps := fun hin => (List.mem_append.mp hin).elim hxt hxps
  have hmem : ∀ b ∈ ms, b ∈ t.flat ∨ b ∈ ps := hu.mem
  have hright : h₃.right x = s.heap.right x := by
    rw [hf₃.right hx₃, setLeft_right, hf₁.right hxt]
  have hvalues : ∀ y, HasValue h₃ ms y ↔ HasValue s.heap t.flat y ∨ HasValue s.heap ps y :=
    fun y => by rw [hf₃.hasValue, hu.values, hf₁₂.hasValue, hf₁₂.hasValue]
  -- the merged list is not empty
  cases p with
  | none =>
    obtain rfl := hms.eq_nil
    refine absurd ((hvalues (s.heap last).v).mpr (Or.inl ⟨last, ?_, rfl⟩)) not_hasValue_nil
    rw [hlast]
    simp
  | some q' =>
    refine ⟨h₃, q', ms, ?_, hf, ?_, ?_, hmem, hright, ?_⟩
    · rw [intoForest]
      change (match s.heap.left x with | none => _ | some root => _) = _
      rw [hroot]
      change (rowSetTreeToList fuel s.heap root).bind _ = _
      rw [hrun₁]
      change (rowSetEntryMerge fuel (h₁.setLeft x none) (some first) (some q)).bind _ = _
      rw [hrun₃]
      rfl
    · rw [hf₃.left hx₃, setLeft_left_self]
    · constructor
      case ptr => rfl
      case headers =>
        rw [hright]
        exact headers_frame hheaders hf hap.out
      case trees => exact htrees.frame hf hap.out
      case chain => exact hms
      case ordered => exact hf₃.ordered.mpr hu.ordered
      case nodup =>
        refine List.nodup_cons.mpr ⟨fun hin => ?_, List.nodup_append.mpr
          ⟨hu.ordered.nodup, hnfs, fun b hb c hc hbc => ?_⟩⟩
        · rcases List.mem_append.mp hin with hin | hin
          · exact hx₃ (List.mem_append.mpr (hmem x hin))
          · exact hxfoot hin
        · refine hap.out c hc ?_
          rw [List.cons_append]
          exact List.mem_cons_of_mem _ (List.mem_append.mpr (hmem c (hbc ▸ hb)))
      case bound =>
        intro b hb
        refine hap.lt b ?_
        simp only [List.mem_append, Option.toList_some, List.mem_singleton] at hb
        rcases hb with (rfl | hb) | hb
        · exact Or.inl rfl
        · exact Or.inr ((hmem b hb).imp_right Or.inl)
        · exact Or.inr (Or.inr (Or.inr hb))
    · ext y
      rw [mem_valuesOf, Finset.mem_union, mem_valuesOf, mem_valuesOf]
      exact hvalues y

/-- What the places behind `x` have done is what the whole has done, when the tree of `x` was merged
into the list before. -/
theorem IntoPost.of_taken {s s' : RowSet} {pPrevTree : Option ℕ} {q x : ℕ} {ps ps' : List ℕ}
    {t : Shape ℕ} {fs' : List (ℕ × Shape ℕ)}
    (hpre : IntoPre s pPrevTree (some x) q ((x, t) :: fs) ps) (hne : t.flat ≠ [])
    (hf : Frame (x :: t.flat ++ ps) s.heap h) (hleft : h.left x = none)
    (hmem : ∀ b ∈ ps', b ∈ t.flat ∨ b ∈ ps)
    (hvalues : valuesOf h ps' = valuesOf s.heap t.flat ∪ valuesOf s.heap ps)
    (hpost : IntoPost { s with heap := h } (some x) fs ps' s' fs') :
    IntoPost s pPrevTree ((x, t) :: fs) ps s' ((x, .leaf) :: fs') := by
  have hap := hpre.apart
  obtain ⟨hxt, hxps, hxfoot⟩ := hap.place
  have hxlt : x < s.nEntry := hap.lt x (Or.inl rfl)
  have hxout : x ∉ foot fs' := fun hin => by
    rcases hpost.subset x hin with hin | hin | heq
    · exact (hmem x hin).elim hxt hxps
    · exact hxfoot hin
    · exact absurd heq hxlt.ne
  have hkeep : ∀ y, pPrevTree = some y → s'.heap y = s.heap y := fun y hy => by
    obtain ⟨hyn, hyout⟩ := hap.prev y hy
    have hyx := hyout x (Or.inl rfl)
    have hyt : y ∉ t.flat := fun hin => hyout y (Or.inr (Or.inl hin)) rfl
    have hyp : y ∉ ps := fun hin => hyout y (Or.inr (Or.inr (Or.inl hin))) rfl
    have hyf : y ∉ foot fs := fun hin => hyout y (Or.inr (Or.inr (Or.inr hin))) rfl
    have hyps : y ∉ ps' := fun hin => (hmem y hin).elim hyt hyp
    refine (hpost.frame.out y ?_).trans (hf.out y ?_)
    · simp only [List.cons_append, List.mem_cons, List.mem_append, Option.toList_some,
        List.not_mem_nil]
      tauto
    · simp only [List.cons_append, List.mem_cons, List.mem_append]
      tauto
  constructor
  case nEntry => exact hpost.nEntry
  case pForest => exact fun _ => hpost.pForest (Option.some_ne_none x)
  case iBatch => exact hpost.iBatch
  case left => exact fun y hy => congrArg RowSetEntry.pLeft (hkeep y hy)
  case frame =>
    refine FrameNew.cons_frame (hf.mono ?_) (hpost.frame.mono ?_) (List.Subset.refl _)
    · intro b hb
      simp only [foot_cons, List.cons_append, List.mem_cons, List.mem_append] at hb ⊢
      tauto
    · intro b hb
      simp only [foot_cons, List.cons_append, List.mem_cons, List.mem_append,
        Option.toList_some, List.not_mem_nil] at hb ⊢
      have := hmem b
      tauto
  case headers =>
    refine ⟨?_, hpost.headers⟩
    cases pPrevTree with
    | none => exact (hpost.pForest (Option.some_ne_none x)).trans hpre.ptr
    | some y => exact (congrArg RowSetEntry.pRight (hkeep y rfl)).trans hpre.ptr
  case trees =>
    exact trees_cons.mpr ⟨⟨(hpost.left x rfl).trans hleft, List.Pairwise.nil⟩, hpost.trees⟩
  case nodup =>
    rw [foot_cons]
    exact List.nodup_cons.mpr ⟨hxout, hpost.nodup⟩
  case subset =>
    intro b hb
    rw [foot_cons] at hb ⊢
    rcases List.mem_cons.mp hb with rfl | hb
    · exact Or.inr (Or.inl (by simp))
    · rcases hpost.subset b hb with hin | hin | heq
      · rcases hmem b hin with hin | hin
        · exact Or.inr (Or.inl (by simp [hin]))
        · exact Or.inl hin
      · exact Or.inr (Or.inl (by simp [hin]))
      · exact Or.inr (Or.inr heq)
  case bound =>
    intro b hb
    rw [foot_cons] at hb
    rcases List.mem_cons.mp hb with rfl | hb
    · exact Nat.lt_of_lt_of_le hxlt hpost.nEntry.1
    · exact hpost.bound b hb
  case values =>
    obtain ⟨c, hc⟩ := List.exists_mem_of_ne_nil _ hne
    change valuesOf _ [] :: treeValues _ fs' = mergeIn (valuesOf _ t.flat :: treeValues _ fs) _
    rw [mergeIn, if_neg (valuesOf_ne_empty hc), hpost.values, valuesOf_nil, hvalues,
      hf.treeValues]

/-- **A list goes into the forest.** -/
theorem intoForest_spec {fuel : ℕ} (n : ℕ) {s : RowSet} {pPrevTree pTree : Option ℕ} {q : ℕ}
    {ps : List ℕ} (hpre : IntoPre s pPrevTree pTree q fs ps) (hfuel : s.nEntry < fuel)
    (hn : fs.length < n) :
    ∃ s' fs', intoForest fuel n s pPrevTree pTree q = .ok s' ∧ IntoPost s pPrevTree fs ps s' fs' := by
  induction n generalizing s pPrevTree pTree q fs ps with
  | zero => exact absurd hn (Nat.not_lt_zero _)
  | succ n ih =>
    cases fs with
    | nil =>
      obtain rfl : pTree = none := hpre.headers
      exact intoForest_new n hpre hfuel.le
    | cons f fs =>
      obtain ⟨x, t⟩ := f
      obtain rfl : pTree = some x := hpre.headers.1
      have htree : IsTree s.heap.left s.heap.right (s.heap.left x) t :=
        hpre.trees.isTree (x, t) List.mem_cons_self
      cases hroot : s.heap.left x with
      | none =>
        rw [hroot] at htree
        obtain rfl := htree.eq_leaf
        exact intoForest_free n hpre hfuel.le
      | some root =>
        obtain ⟨h₁, q', ps', hrun, hf, hleft, hpre', hmem, -, hvalues⟩ :=
          intoForest_taken n hpre hroot hfuel
        obtain ⟨s', fs', hrun', hpost⟩ := ih hpre' hfuel (by rw [List.length_cons] at hn; omega)
        have hne : t.flat ≠ [] := by
          obtain ⟨l, r, rfl, -, -⟩ := (hroot ▸ htree).eq_node
          simp [Shape.flat]
        exact ⟨s', (x, .leaf) :: fs', hrun.trans hrun',
          hpost.of_taken hpre hne hf hleft hmem hvalues⟩

/-! ### The invariant -/

/-- The row set after the calls `cs`. The pending entries are `es`, the trees `fs`. -/
structure Inv (s : RowSet) (cs : List Call) (es : List ℕ) (fs : List (ℕ × Shape ℕ)) : Prop where
  entries : Chain s.heap.right s.pEntry es
  last : s.pLast = es.getLast?
  sorted : s.sorted = true ↔ Ordered s.heap es
  pending : es.map (fun a => (s.heap a).v) = pending cs
  headers : Chain s.heap.right s.pForest (fs.map Prod.fst)
  trees : Trees s.heap fs
  nodup : (es ++ foot fs).Nodup
  bound : ∀ a ∈ es ++ foot fs, a < s.nEntry
  values : treeValues s.heap fs = forest cs
  iBatch : s.iBatch = inForce cs

theorem inv_init (heap : Heap) : Inv (sqlite3RowSetInit heap) [] [] [] where
  entries := rfl
  last := rfl
  sorted := iff_of_true rfl List.Pairwise.nil
  pending := rfl
  headers := rfl
  trees := ⟨nofun, nofun⟩
  nodup := List.nodup_nil
  bound := nofun
  values := rfl
  iBatch := rfl

variable {s : RowSet} {es : List ℕ}

theorem ordered_snoc {l a : ℕ} :
    Ordered h (as ++ [l] ++ [a]) ↔ Ordered h (as ++ [l]) ∧ (h l).v < (h a).v := by
  rw [Ordered, List.pairwise_append]
  constructor
  · rintro ⟨ho, -, hlt⟩
    exact ⟨ho, hlt l (by simp) a (by simp)⟩
  · rintro ⟨ho, hlt⟩
    refine ⟨ho, List.pairwise_singleton _ _, fun b hb c hc => ?_⟩
    obtain rfl := List.mem_singleton.mp hc
    rcases List.mem_append.mp hb with hb | hb
    · exact ((List.pairwise_append.mp ho).2.2 b hb l (by simp)).trans hlt
    · obtain rfl := List.mem_singleton.mp hb
      exact hlt

/-- **Inserting.** -/
theorem insert_step (hi : Inv s cs es fs) (v : ℤ) :
    Inv (sqlite3RowSetInsert s v) (.insert v :: cs) (es ++ [s.nEntry]) fs := by
  obtain ⟨hentries, hlast, hsorted, hpending, hheaders, htrees, hnodup, hbound, hvalues, hbatch⟩ := hi
  have hfresh : s.nEntry ∉ es ++ foot fs := fun hin => lt_irrefl _ (hbound _ hin)
  obtain ⟨hfe, hff⟩ := not_or.mp (mt List.mem_append.mpr hfresh)
  obtain ⟨hne, hnf, hdisj⟩ := List.nodup_append.mp hnodup
  have hnodup' : (es ++ [s.nEntry] ++ foot fs).Nodup := by
    rw [List.append_assoc]
    exact List.nodup_middle.mpr (List.nodup_cons.mpr ⟨hfresh, hnodup⟩)
  have hbound' : ∀ a ∈ es ++ [s.nEntry] ++ foot fs, a < s.nEntry + 1 := fun a ha => by
    simp only [List.append_assoc, List.mem_append, List.mem_singleton] at ha hbound
    rcases ha with ha | rfl | ha
    · exact Nat.lt_succ_of_lt (hbound a (Or.inl ha))
    · exact Nat.lt_succ_self _
    · exact Nat.lt_succ_of_lt (hbound a (Or.inr ha))
  let h₁ : Heap := Function.update s.heap s.nEntry { s.heap s.nEntry with v := v, pRight := none }
  have hold : ∀ a, a ≠ s.nEntry → h₁ a = s.heap a := fun a ha => Function.update_of_ne ha _ _
  have hnew : (h₁ s.nEntry).v = v ∧ (h₁ s.nEntry).pRight = none := by
    rw [show h₁ s.nEntry = _ from Function.update_self _ _ _]
    exact ⟨rfl, rfl⟩
  rcases List.eq_nil_or_concat es with rfl | ⟨init, l, rfl⟩
  case inl =>
    have hrun : sqlite3RowSetInsert s v =
        { s with
          heap := h₁, nEntry := s.nEntry + 1, pEntry := some s.nEntry
          pLast := some s.nEntry } := by
      rw [sqlite3RowSetInsert, show s.pLast = none from hlast]
    have hfoot : ∀ a ∈ foot fs, h₁ a = s.heap a := fun a ha => hold a fun heq => hff (heq ▸ ha)
    rw [hrun]
    constructor
    case entries => exact ⟨rfl, hnew.2⟩
    case last => rfl
    case sorted =>
      exact iff_of_true (hsorted.mpr List.Pairwise.nil) (List.pairwise_singleton _ _)
    case pending =>
      change [(h₁ s.nEntry).v] = pending cs ++ [v]
      rw [hnew.1, ← hpending]
      rfl
    case headers => exact headers_congr hheaders hfoot
    case trees => exact htrees.congr hfoot
    case nodup => exact hnodup'
    case bound => exact hbound'
    case values => exact (treeValues_congr hfoot).trans hvalues
    case iBatch => exact hbatch
  case inr =>
    rw [List.concat_eq_append] at *
    have hl : l ≠ s.nEntry := fun heq => hfe (by rw [← heq]; simp)
    have hinit : ∀ a ∈ init, a ≠ l ∧ a ≠ s.nEntry := fun a ha =>
      ⟨(List.nodup_append.mp hne).2.2 a ha l (by simp), fun heq => hfe (by rw [← heq]; simp [ha])⟩
    have hlastl : s.pLast = some l := by rw [hlast, List.getLast?_append]; rfl
    let h₂ : Heap := h₁.setRight l (some s.nEntry)
    have hf : Frame [l] h₁ h₂ := frame_setRight (List.mem_singleton.mpr rfl)
    have hrun : sqlite3RowSetInsert s v =
        { s with
          heap := h₂, nEntry := s.nEntry + 1
          sorted := if s.sorted ∧ v ≤ (h₁ l).v then false else s.sorted
          pLast := some s.nEntry } := by
      rw [sqlite3RowSetInsert, hlastl]
    have hfoot : ∀ a ∈ foot fs, h₂ a = s.heap a := fun a ha => by
      rw [hf.out a fun hin => hdisj l (by simp) a ha (List.mem_singleton.mp hin).symm,
        hold a fun heq => hff (heq ▸ ha)]
    have hv : ∀ a ∈ init ++ [l], (h₂ a).v = (s.heap a).v := fun a ha => by
      rw [hf.v, hold a fun heq => hfe (heq ▸ ha)]
    have hvnew : (h₂ s.nEntry).v = v := (hf.v _).trans hnew.1
    rw [hrun]
    constructor
    case entries =>
      refine seg_append.mpr ⟨some s.nEntry, ?_, rfl, ?_⟩
      · refine Seg.setLast hentries (fun a ha => ?_) setRight_right_self
        rw [setRight_right_of_ne (hinit a ha).1]
        exact congrArg RowSetEntry.pRight (hold a (hinit a ha).2)
      · exact (setRight_right_of_ne hl.symm).trans hnew.2
    case last => simp
    case sorted =>
      have hlv : (h₁ l).v = (h₂ l).v := (hf.v l).symm
      change (if s.sorted = true ∧ v ≤ (h₁ l).v then false else s.sorted) = true ↔ _
      rw [ordered_snoc, hvnew, ordered_congr hv, ← hsorted, hlv]
      split
      case isTrue hand => exact iff_of_false nofun fun hcon => absurd hcon.2 (not_lt.mpr hand.2)
      case isFalse hnot =>
        exact ⟨fun hs => ⟨hs, not_le.mp fun hle => hnot ⟨hs, hle⟩⟩, And.left⟩
    case pending =>
      rw [List.map_append, List.map_congr_left hv, hpending]
      change pending cs ++ [(h₂ s.nEntry).v] = _
      rw [hvnew]
      rfl
    case headers => exact headers_congr hheaders hfoot
    case trees => exact htrees.congr hfoot
    case nodup => exact hnodup'
    case bound => exact hbound'
    case values => exact (treeValues_congr hfoot).trans hvalues
    case iBatch => exact hbatch

/-- No list is sorted that is too long. -/
def Sortable (vs : List ℤ) : Prop := vs.Pairwise (· < ·) ∨ vs.length < 2 ^ nBucket

theorem Inv.ordered_iff (hi : Inv s cs es fs) :
    Ordered s.heap es ↔ (RowSet.pending cs).Pairwise (· < ·) := by
  rw [← hi.pending, List.pairwise_map]
  rfl

theorem Inv.length_le (hi : Inv s cs es fs) : es.length ≤ s.nEntry ∧ fs.length ≤ s.nEntry ∧
    ∀ f ∈ fs, f.2.flat.length ≤ s.nEntry := by
  obtain ⟨hne, hnf, -⟩ := List.nodup_append.mp hi.nodup
  have hfoot := length_le_of_lt hnf fun a ha => hi.bound a (List.mem_append_right _ ha)
  have hmap : (fs.map Prod.fst).length ≤ (foot fs).length := by
    rw [List.length_map, foot, List.length_flatMap]
    clear * -
    induction fs with
    | nil => exact Nat.le_refl _
    | cons f fs ih =>
      simp only [List.length_cons, List.map_cons, List.sum_cons] at ih ⊢
      omega
  refine ⟨length_le_of_lt hne fun a ha => hi.bound a (List.mem_append_left _ ha), ?_, ?_⟩
  · rw [List.length_map] at hmap
    exact Nat.le_trans hmap hfoot
  · intro f hf
    refine Nat.le_trans ?_ hfoot
    obtain ⟨fs₁, fs₂, rfl⟩ := List.append_of_mem hf
    simp only [foot, List.flatMap_append, List.flatMap_cons, List.length_append, List.length_cons]
    omega

/-- The pending entries in order. -/
theorem sortEntries_spec {q : ℕ} (hi : Inv s cs es fs) (hq : s.pEntry = some q) :
    (Sortable (RowSet.pending cs) ∧ ∃ h' q' ps, s.sortEntries q = .ok (h', some q') ∧
      Frame es s.heap h' ∧ Chain h'.right (some q') ps ∧ Ordered h' ps ∧ ps ⊆ es ∧
      valuesOf h' ps = (RowSet.pending cs).toFinset) ∨
    (¬ Sortable (RowSet.pending cs) ∧ s.sortEntries q = .error .bounds) := by
  have hvalues : (RowSet.pending cs).toFinset = valuesOf s.heap es := by rw [← hi.pending, valuesOf]
  have hlength : (RowSet.pending cs).length = es.length := by rw [← hi.pending, List.length_map]
  have hchain : Chain s.heap.right (some q) es := hq ▸ hi.entries
  rw [sortEntries]
  split
  case isTrue hs =>
    have hord := hi.sorted.mp hs
    exact Or.inl ⟨Or.inl (hi.ordered_iff.mp hord), s.heap, q, es, rfl, Frame.refl _ _, hchain, hord,
      List.Subset.refl _, hvalues.symm⟩
  case isFalse hs =>
    have hnord : ¬ (RowSet.pending cs).Pairwise (· < ·) := fun hp =>
      hs (hi.sorted.mpr (hi.ordered_iff.mpr hp))
    have hfuel : es.length < s.fuel := Nat.lt_succ_of_le hi.length_le.1
    rcases rowSetEntrySort_spec hchain (List.nodup_append.mp hi.nodup).1 hfuel with
      ⟨hlt, h', q', ms, hrun, hf, hms, hord, hsub, hval⟩ | ⟨hge, herr⟩
    · refine Or.inl ⟨Or.inr (hlength ▸ hlt), h', ?_⟩
      have hset : valuesOf h' ms = valuesOf s.heap es := by
        ext y
        rw [mem_valuesOf, mem_valuesOf, hval]
      cases q' with
      | some q' => exact ⟨q', ms, hrun, hf, hms, hord, hsub, hset.trans hvalues.symm⟩
      | none =>
        obtain rfl := hms.eq_nil
        obtain ⟨es', rfl, -⟩ := hchain.eq_cons
        exact absurd hset.symm (valuesOf_ne_empty List.mem_cons_self)
    · refine Or.inr ⟨fun hsort => ?_, herr⟩
      rcases hsort with hp | hlt
      · exact hnord hp
      · exact absurd hge (not_le.mpr (hlength ▸ hlt))

theorem growForest_none (hq : s.pEntry = none) : s.growForest = .ok s := by
  rw [growForest]
  split
  case h_1 => rfl
  case h_2 p hp => exact absurd (hq.symm.trans hp) nofun

theorem growForest_some {q : ℕ} (hq : s.pEntry = some q) :
    s.growForest = (s.sortEntries q).bind fun r =>
      match r.2 with
      | some p => (intoForest s.fuel s.fuel { s with heap := r.1 } none s.pForest p).bind
          fun s => .ok { s with pEntry := none, pLast := none, sorted := true }
      | none => .error .hang := by
  rw [growForest]
  split
  case h_1 hp => exact absurd (hq.symm.trans hp) nofun
  case h_2 p hp =>
    obtain rfl := Option.some.inj (hq.symm.trans hp)
    rfl

/-- **A new batch.** -/
theorem newBatch_step (hi : Inv s cs es fs) {iBatch : UInt8} (hb : iBatch ≠ inForce cs)
    (iRowid : ℤ) :
    (Sortable (RowSet.pending cs) ∧ ∃ s' fs', s.newBatch iBatch = .ok s' ∧
      Inv s' (.test iBatch iRowid :: cs) [] fs') ∨
    (¬ Sortable (RowSet.pending cs) ∧ s.newBatch iBatch = .error .bounds) := by
  have hpend : RowSet.pending (.test iBatch iRowid :: cs) = [] := by rw [RowSet.pending, if_pos hb]
  cases hq : s.pEntry with
  | none =>
    have hes : es = [] := (hq ▸ hi.entries).eq_nil
    subst hes
    have hnil : RowSet.pending cs = [] := hi.pending.symm
    have hforest : forest (.test iBatch iRowid :: cs) = forest cs := by
      rw [forest, if_neg fun hand => hand.2 hnil]
    refine Or.inl ⟨Or.inl (hnil ▸ List.Pairwise.nil), { s with iBatch := iBatch }, fs, ?_, ?_⟩
    · rw [newBatch, growForest_none hq]
      rfl
    · exact ⟨hi.entries, hi.last, hi.sorted, hpend.symm, hi.headers, hi.trees, hi.nodup, hi.bound,
        hforest ▸ hi.values, rfl⟩
  | some q =>
    have hchain : Chain s.heap.right (some q) es := hq ▸ hi.entries
    obtain ⟨es', hes, -⟩ := hchain.eq_cons
    have hne : RowSet.pending cs ≠ [] := by
      rw [← hi.pending, hes]
      exact List.cons_ne_nil _ _
    have hforest : forest (.test iBatch iRowid :: cs) =
        mergeIn (forest cs) (RowSet.pending cs).toFinset := by
      rw [forest, if_pos ⟨hb, hne⟩]
    rcases sortEntries_spec hi hq with ⟨hsort, h', q', ps, hrun, hf, hps, hord, hsub, hval⟩ |
      ⟨hnot, herr⟩
    · refine Or.inl ⟨hsort, ?_⟩
      obtain ⟨-, hnf, hdisj⟩ := List.nodup_append.mp hi.nodup
      have hfoot : ∀ a ∈ foot fs, a ∉ es := fun a ha hin => hdisj a hin a ha rfl
      have hpre : IntoPre { s with heap := h' } none s.pForest q' fs ps := by
        constructor
        case ptr => rfl
        case headers => exact headers_frame hi.headers hf hfoot
        case trees => exact hi.trees.frame hf hfoot
        case chain => exact hps
        case ordered => exact hord
        case nodup =>
          exact List.nodup_append.mpr ⟨hord.nodup, hnf, fun a ha b hb => hdisj a (hsub ha) b hb⟩
        case bound =>
          intro a ha
          refine hi.bound a ?_
          rcases List.mem_append.mp ha with ha | ha
          · exact List.mem_append_left _ (hsub ha)
          · exact List.mem_append_right _ ha
      have hfuel : s.nEntry < s.fuel := Nat.lt_succ_self _
      obtain ⟨s', fs', hinto, hpost⟩ := intoForest_spec s.fuel hpre hfuel
        (Nat.lt_succ_of_le hi.length_le.2.1)
      refine ⟨{ s' with pEntry := none, pLast := none, sorted := true, iBatch := iBatch }, fs',
        ?_, ?_⟩
      · rw [newBatch, growForest_some hq, hrun]
        change ((intoForest s.fuel s.fuel { s with heap := h' } none s.pForest q').bind _).bind _ = _
        rw [hinto]
        rfl
      constructor
      case entries => rfl
      case last => rfl
      case sorted => exact iff_of_true rfl List.Pairwise.nil
      case pending => exact hpend.symm
      case headers => exact hpost.headers
      case trees => exact hpost.trees
      case nodup => exact hpost.nodup
      case bound => exact hpost.bound
      case values =>
        rw [hforest, ← hi.values, ← hval]
        exact hpost.values.trans (congrArg (mergeIn · _) (hf.treeValues fs))
      case iBatch => rfl
    · exact Or.inr ⟨hnot, by rw [newBatch, growForest_some hq, herr]; rfl⟩

/-- **Testing.** -/
theorem test_step (hi : Inv s cs es fs) (iBatch : UInt8) (iRowid : ℤ) :
    ((iBatch = inForce cs ∨ Sortable (RowSet.pending cs)) ∧
      ∃ s' es' fs', sqlite3RowSetTest s iBatch iRowid =
          .ok (s', decide (iRowid ∈ visible (.test iBatch iRowid :: cs))) ∧
        Inv s' (.test iBatch iRowid :: cs) es' fs') ∨
    (¬ (iBatch = inForce cs ∨ Sortable (RowSet.pending cs)) ∧
      sqlite3RowSetTest s iBatch iRowid = .error .bounds) := by
  have hsearch : ∀ {s' : RowSet} {es' : List ℕ} {fs' : List (ℕ × Shape ℕ)},
      Inv s' (.test iBatch iRowid :: cs) es' fs' →
        searchForest s'.fuel s'.fuel s'.heap s'.pForest iRowid =
          .ok (decide (iRowid ∈ visible (.test iBatch iRowid :: cs))) := fun {s' es' fs'} hi' => by
    obtain ⟨-, hlen, hflat⟩ := hi'.length_le
    have hfuel : ∀ f ∈ fs', f.2.flat.length < s'.fuel := fun f hf => Nat.lt_succ_of_le (hflat f hf)
    rw [searchForest_spec s'.fuel hi'.headers hi'.trees hfuel (Nat.lt_succ_of_le hlen)]
    refine congrArg _ (decide_eq_decide.mpr ?_)
    rw [hi'.values, mem_visible]
  rw [sqlite3RowSetTest, hi.iBatch]
  by_cases hb : iBatch = inForce cs
  · rw [if_neg (not_not.mpr hb)]
    have hi' : Inv s (.test iBatch iRowid :: cs) es fs := by
      refine ⟨hi.entries, hi.last, hi.sorted, ?_, hi.headers, hi.trees, hi.nodup, hi.bound, ?_, ?_⟩
      · rw [hi.pending, RowSet.pending, if_neg (not_not.mpr hb)]
      · rw [hi.values, forest, if_neg fun hand => hand.1 hb]
      · rw [hi.iBatch, inForce, hb]
    refine Or.inl ⟨Or.inl hb, s, es, fs, ?_, hi'⟩
    change (searchForest s.fuel s.fuel s.heap s.pForest iRowid).bind _ = _
    rw [hsearch hi']
    rfl
  · rw [if_pos hb]
    rcases newBatch_step hi hb iRowid with ⟨hsort, s', fs', hrun, hi'⟩ | ⟨hnot, herr⟩
    · refine Or.inl ⟨Or.inr hsort, s', [], fs', ?_, hi'⟩
      rw [hrun]
      change (searchForest s'.fuel s'.fuel s'.heap s'.pForest iRowid).bind _ = _
      rw [hsearch hi']
      rfl
    · refine Or.inr ⟨not_or.mpr ⟨hb, hnot⟩, ?_⟩
      rw [herr]
      rfl

/-! ### Sequences of calls -/

/-- A sequence of calls, with the answers of the tests. -/
def run (s : RowSet) : List Call → Result (RowSet × List Bool)
  | [] => .ok (s, [])
  | .insert v :: calls => run (sqlite3RowSetInsert s v) calls
  | .test iBatch iRowid :: calls => do
    let (s, found) ← sqlite3RowSetTest s iBatch iRowid
    let (s, answers) ← run s calls
    pure (s, found :: answers)

/-- The answers a sequence of calls should get, after the calls `cs`. -/
def answers (cs : List Call) : List Call → List Bool
  | [] => []
  | .insert v :: calls => answers (.insert v :: cs) calls
  | .test iBatch iRowid :: calls =>
    decide (iRowid ∈ visible (.test iBatch iRowid :: cs)) ::
      answers (.test iBatch iRowid :: cs) calls

/-- Whenever a new batch begins, the values that wait are in order or less than `2 ^ 40`. -/
def Fits (cs : List Call) : List Call → Prop
  | [] => True
  | .insert v :: calls => Fits (.insert v :: cs) calls
  | .test iBatch iRowid :: calls =>
    (iBatch = inForce cs ∨ Sortable (pending cs)) ∧ Fits (.test iBatch iRowid :: cs) calls

/-- The forest consists of search trees, which hold the values `Fs`. -/
def SearchTrees (s : RowSet) (Fs : List (Finset ℤ)) : Prop :=
  ∃ fs, Chain s.heap.right s.pForest (fs.map Prod.fst) ∧ Trees s.heap fs ∧
    treeValues s.heap fs = Fs

/-- **A sequence of calls.** -/
theorem run_spec (calls : List Call) (hi : Inv s cs es fs) :
    (Fits cs calls ∧ ∃ s' es' fs', run s calls = .ok (s', answers cs calls) ∧
      Inv s' (calls.reverse ++ cs) es' fs') ∨
    (¬ Fits cs calls ∧ run s calls = .error .bounds) := by
  induction calls generalizing s cs es fs with
  | nil => exact Or.inl ⟨trivial, s, es, fs, rfl, hi⟩
  | cons c calls ih =>
    rw [List.reverse_cons, List.append_assoc, List.singleton_append]
    cases c with
    | insert v => exact ih (insert_step hi v)
    | test iBatch iRowid =>
      rw [run]
      rcases test_step hi iBatch iRowid with ⟨hfit, s₁, es₁, fs₁, hrun, hi₁⟩ | ⟨hnot, herr⟩
      · rw [hrun]
        rcases ih hi₁ with ⟨hfits, s', es', fs', hrun', hi'⟩ | ⟨hnot, herr⟩
        · refine Or.inl ⟨⟨hfit, hfits⟩, s', es', fs', ?_, hi'⟩
          change (run s₁ calls).bind _ = _
          rw [hrun']
          rfl
        · refine Or.inr ⟨fun hfits => hnot hfits.2, ?_⟩
          change (run s₁ calls).bind _ = _
          rw [herr]
          rfl
      · refine Or.inr ⟨fun hfits => hnot hfits.1, ?_⟩
        rw [herr]
        rfl

/-- What is asked of a sequence of calls: all tests answer by what was inserted before the last new
batch, and the trees are search trees with the values merged into them. -/
def Batchwise (heap : Heap) (calls : List Call) : Prop :=
  ∃ s, run (sqlite3RowSetInit heap) calls = .ok (s, answers [] calls) ∧
    SearchTrees s (forest calls.reverse)

/-- **Row sets answer batchwise exactly when the 40 buckets suffice.** -/
theorem rowSet_iff (heap : Heap) (calls : List Call) :
    Batchwise heap calls ↔ Fits [] calls := by
  rcases run_spec calls (inv_init heap) with ⟨hfits, s, es, fs, hrun, hi⟩ | ⟨hnot, herr⟩
  · rw [List.append_nil] at hi
    exact iff_of_true ⟨s, hrun, fs, hi.headers, hi.trees, hi.values⟩ hfits
  · refine iff_of_false ?_ hnot
    rintro ⟨s, hrun, -⟩
    rw [herr] at hrun
    exact absurd hrun nofun

/-- The same value many times, and a test of a new batch. -/
def floodCalls (n : ℕ) : List Call := List.replicate n (.insert 7) ++ [.test 1 7]

theorem fits_floodCalls {n m : ℕ} (hp : pending cs = List.replicate m 7) (hb : inForce cs = 0) :
    Fits cs (floodCalls n) ↔ Sortable (List.replicate (m + n) 7) := by
  induction n generalizing cs m with
  | zero =>
    change ((1 = inForce cs ∨ Sortable (pending cs)) ∧ True) ↔ _
    rw [and_true, hb, hp, or_iff_right (by decide), Nat.add_zero]
  | succ n ih =>
    have hpend : pending (.insert 7 :: cs) = List.replicate (m + 1) 7 := by
      rw [pending, hp, List.replicate_succ']
    rw [floodCalls, List.replicate_succ, List.cons_append]
    refine (ih hpend hb).trans ?_
    rw [Nat.add_assoc, Nat.add_comm 1 n]

theorem not_sortable_replicate {n : ℕ} (hn : 2 ^ nBucket ≤ n) :
    ¬ Sortable (List.replicate n 7) := by
  rintro (hpair | hlt)
  · obtain ⟨k, rfl⟩ : ∃ k, n = k + 2 := Nat.exists_eq_add_of_le' (le_trans (by decide) hn)
    exact absurd (List.rel_of_pairwise_cons hpair (List.mem_cons_self (l := List.replicate k 7)))
      (lt_irrefl _)
  · rw [List.length_replicate] at hlt
    exact absurd hn (not_le.mpr hlt)

theorem not_batchwise_floodCalls (heap : Heap) {n : ℕ} (hn : 2 ^ nBucket ≤ n) :
    ¬ Batchwise heap (floodCalls n) := by
  have hnot : ¬ Fits [] (floodCalls n) := by
    rw [fits_floodCalls (m := 0) rfl rfl, Nat.zero_add]
    exact not_sortable_replicate hn
  rcases run_spec (floodCalls n) (inv_init heap) with ⟨hfits, -⟩ | ⟨-, herr⟩
  · exact absurd hfits hnot
  · rintro ⟨s, hrun, -⟩
    rw [herr] at hrun
    exact absurd hrun nofun

/-- With `2 ^ 40` values the sort runs over the end of `aBucket`. -/
theorem not_batchwise_flood : ¬ Batchwise (fun _ => ⟨0, none, none⟩) (floodCalls (2 ^ 40)) :=
  not_batchwise_floodCalls _ (Nat.le_refl _)

end RowSet

end SqliteVms

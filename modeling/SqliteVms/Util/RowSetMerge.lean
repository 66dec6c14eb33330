import Mathlib.Algebra.Order.Ring.Int
import SqliteVms.Util.RowSet
import Mathlib.Data.List.Perm.Subperm

/-!
# Row sets: merging, sorting, trees

What the functions on lists and trees of entries do to the memory. Each of them changes only entries
of the lists or trees it is given, and no value (`Frame`); what comes out is made of the same entries
or of some of them.

## Main results

* `rowSetEntryMerge_spec` — two ordered lists make one, without the duplicates
* `rowSetEntrySort_spec` — a list is sorted, if it has less than `2 ^ 40` entries, and otherwise
  `aBucket` is too short
* `rowSetTreeToList_spec`, `rowSetListToTree_spec` — an ordered list makes a search tree, and back
-/

namespace SqliteVms

namespace RowSet

open Cells

/-! ### Frames -/

/-- The right and left pointers in a memory. -/
def Heap.right (h : Heap) (a : ℕ) : Option ℕ := (h a).pRight

@[inherit_doc Heap.right]
def Heap.left (h : Heap) (a : ℕ) : Option ℕ := (h a).pLeft

/-- Only entries of `S` are changed, and no value. -/
structure Frame (S : List ℕ) (h h' : Heap) : Prop where
  out : ∀ c, c ∉ S → h' c = h c
  v : ∀ c, (h' c).v = (h c).v

variable {S S' : List ℕ} {h h' h'' : Heap} {p q : Option ℕ} {a b : ℕ} {as bs ms : List ℕ} {x : ℤ}

theorem Frame.refl (S : List ℕ) (h : Heap) : Frame S h h := ⟨fun _ _ => rfl, fun _ => rfl⟩

theorem Frame.trans (h₁ : Frame S h h') (h₂ : Frame S h' h'') : Frame S h h'' :=
  ⟨fun c hc => (h₂.out c hc).trans (h₁.out c hc), fun c => (h₂.v c).trans (h₁.v c)⟩

theorem Frame.mono (hf : Frame S h h') (hS : S ⊆ S') : Frame S' h h' :=
  ⟨fun c hc => hf.out c fun hin => hc (hS hin), hf.v⟩

theorem frame_setRight (ha : a ∈ S) : Frame S h (h.setRight a p) where
  out := fun c hc => Function.update_of_ne (ne_of_mem_of_not_mem ha hc).symm _ _
  v := fun c => by
    rcases eq_or_ne c a with rfl | hne
    · rw [Heap.setRight, Function.update_self]
    · rw [Heap.setRight, Function.update_of_ne hne]

theorem frame_setLeft (ha : a ∈ S) : Frame S h (h.setLeft a p) where
  out := fun c hc => Function.update_of_ne (ne_of_mem_of_not_mem ha hc).symm _ _
  v := fun c => by
    rcases eq_or_ne c a with rfl | hne
    · rw [Heap.setLeft, Function.update_self]
    · rw [Heap.setLeft, Function.update_of_ne hne]

@[simp] theorem setRight_right_self : (h.setRight a p).right a = p := by
  rw [Heap.right, Heap.setRight, Function.update_self]

@[simp] theorem setRight_left (c : ℕ) : (h.setRight a p).left c = h.left c := by
  rcases eq_or_ne c a with rfl | hne
  · rw [Heap.left, Heap.setRight, Function.update_self]; rfl
  · rw [Heap.left, Heap.setRight, Function.update_of_ne hne]; rfl

theorem setRight_right_of_ne (hne : b ≠ a) : (h.setRight a p).right b = h.right b := by
  rw [Heap.right, Heap.setRight, Function.update_of_ne hne]; rfl

@[simp] theorem setLeft_left_self : (h.setLeft a p).left a = p := by
  rw [Heap.left, Heap.setLeft, Function.update_self]

@[simp] theorem setLeft_right (c : ℕ) : (h.setLeft a p).right c = h.right c := by
  rcases eq_or_ne c a with rfl | hne
  · rw [Heap.right, Heap.setLeft, Function.update_self]; rfl
  · rw [Heap.right, Heap.setLeft, Function.update_of_ne hne]; rfl

theorem setLeft_left_of_ne (hne : b ≠ a) : (h.setLeft a p).left b = h.left b := by
  rw [Heap.left, Heap.setLeft, Function.update_of_ne hne]; rfl

theorem Frame.right (hf : Frame S h h') (ha : a ∉ S) : h'.right a = h.right a :=
  congrArg RowSetEntry.pRight (hf.out a ha)

theorem Frame.left (hf : Frame S h h') (ha : a ∉ S) : h'.left a = h.left a :=
  congrArg RowSetEntry.pLeft (hf.out a ha)

theorem Frame.chain (hf : Frame S h h') (hp : Chain h.right p as) (hdisj : ∀ a ∈ as, a ∉ S) :
    Chain h'.right p as := hp.congr fun a ha => hf.right (hdisj a ha)

theorem Frame.isTree {t : Shape ℕ} (hf : Frame S h h') (hp : IsTree h.left h.right p t)
    (hdisj : ∀ a ∈ t.flat, a ∉ S) : IsTree h'.left h'.right p t :=
  hp.congr (fun a ha => hf.left (hdisj a ha)) fun a ha => hf.right (hdisj a ha)

/-- The values increase along the list. -/
def Ordered (h : Heap) (as : List ℕ) : Prop := as.Pairwise fun a b => (h a).v < (h b).v

/-- `x` is the value of an entry of the list. -/
def HasValue (h : Heap) (as : List ℕ) (x : ℤ) : Prop := ∃ a ∈ as, (h a).v = x

theorem Frame.ordered (hf : Frame S h h') : Ordered h' as ↔ Ordered h as := by
  simp only [Ordered, hf.v]

theorem Frame.hasValue (hf : Frame S h h') : HasValue h' as x ↔ HasValue h as x := by
  simp only [HasValue, hf.v]

theorem Ordered.nodup (ho : Ordered h as) : as.Nodup :=
  ho.imp fun hlt heq => by rw [heq] at hlt; exact lt_irrefl _ hlt

theorem hasValue_cons : HasValue h (a :: as) x ↔ (h a).v = x ∨ HasValue h as x := by
  simp [HasValue]

theorem hasValue_append : HasValue h (as ++ bs) x ↔ HasValue h as x ∨ HasValue h bs x := by
  simp only [HasValue, List.mem_append, or_and_right, exists_or]

theorem not_hasValue_nil : ¬ HasValue h [] x := by simp [HasValue]

/-! ### Merging -/

/-- What `pTail->pRight` is. -/
def tailPtr (h : Heap) (head : Option ℕ) : Option ℕ → Option ℕ
  | none => head
  | some t => h.right t

/-- The list `ms` is what the ordered lists `as` and `bs` make. -/
structure Union (h : Heap) (as bs ms : List ℕ) : Prop where
  ordered : Ordered h ms
  mem : ∀ a ∈ ms, a ∈ as ∨ a ∈ bs
  values : ∀ x, HasValue h ms x ↔ HasValue h as x ∨ HasValue h bs x

theorem Union.symm (hu : Union h as bs ms) : Union h bs as ms :=
  ⟨hu.ordered, fun a ha => (hu.mem a ha).symm, fun x => (hu.values x).trans or_comm⟩

/-- The first of the two lists goes first. -/
theorem Union.cons (hu : Union h as bs ms) (ha : Ordered h (a :: as))
    (hlt : ∀ b ∈ bs, (h a).v < (h b).v) : Union h (a :: as) bs (a :: ms) where
  ordered := List.pairwise_cons.mpr ⟨fun m hm =>
    (hu.mem m hm).elim (List.rel_of_pairwise_cons ha) (hlt m), hu.ordered⟩
  mem := fun m hm => by
    rcases List.mem_cons.mp hm with rfl | hm
    · exact Or.inl List.mem_cons_self
    · exact (hu.mem m hm).imp_left (List.mem_cons_of_mem _)
  values := fun x => by rw [hasValue_cons, hasValue_cons, hu.values, or_assoc]

/-- A duplicate is left out. -/
theorem Union.drop (hu : Union h as (b :: bs) ms) (heq : (h a).v = (h b).v) :
    Union h (a :: as) (b :: bs) ms where
  ordered := hu.ordered
  mem := fun m hm => (hu.mem m hm).imp_left (List.mem_cons_of_mem _)
  values := fun x => by
    rw [hu.values, hasValue_cons, hasValue_cons, heq]
    tauto

/-- What the loop of `rowSetEntryMerge` has done. -/
structure Merged (h : Heap) (head pTail : Option ℕ) (as bs : List ℕ) (h' : Heap)
    (head' : Option ℕ) (ms : List ℕ) : Prop where
  frame : Frame (pTail.toList ++ as ++ bs) h h'
  chain : Chain h'.right (tailPtr h' head' pTail) ms
  head_eq : pTail ≠ none → head' = head
  union : Union h as bs ms

variable {head head' pTail pA pB : Option ℕ}

theorem Merged.symm (hm : Merged h head pTail as bs h' head' ms) :
    Merged h head pTail bs as h' head' ms where
  frame := hm.frame.mono fun c hc => by simp only [List.mem_append] at hc ⊢; tauto
  chain := hm.chain
  head_eq := hm.head_eq
  union := hm.union.symm

theorem putTail_spec (h : Heap) (head pTail p : Option ℕ) :
    Frame pTail.toList h (putTail h head pTail p).1 ∧
      tailPtr (putTail h head pTail p).1 (putTail h head pTail p).2 pTail = p ∧
      (pTail ≠ none → (putTail h head pTail p).2 = head) := by
  cases pTail with
  | none => exact ⟨Frame.refl _ _, rfl, fun hne => absurd rfl hne⟩
  | some t =>
    exact ⟨frame_setRight (by simp), setRight_right_self, fun _ => rfl⟩

/-- The first entry of the first list was linked, and the rest of the loop done. -/
theorem Merged.link
    (hm : Merged (putTail h head pTail (some a)).1 (putTail h head pTail (some a)).2 (some a) as bs
      h' head' ms)
    (ha : Ordered h (a :: as)) (hlt : ∀ b ∈ bs, (h a).v < (h b).v)
    (htail : ∀ t, pTail = some t → t ∉ a :: as ∧ t ∉ bs) :
    Merged h head pTail (a :: as) bs h' head' (a :: ms) := by
  obtain ⟨hf, hput, hhead⟩ := putTail_spec h head pTail (some a)
  constructor
  case frame =>
    refine (hf.mono ?_).trans (hm.frame.mono ?_)
    · exact fun c hc => by simp only [List.mem_append]; tauto
    · exact fun c hc => by
        simp only [List.mem_append, Option.toList_some, List.mem_cons, List.not_mem_nil] at hc ⊢
        tauto
  case chain =>
    refine ⟨?_, hm.chain⟩
    cases pTail with
    | none => exact hm.head_eq nofun
    | some t =>
      obtain ⟨hta, htb⟩ := htail t rfl
      refine (hm.frame.right fun hin => ?_).trans hput
      simp only [List.mem_append, Option.toList_some, List.mem_cons, List.not_mem_nil] at hin hta
      tauto
  case head_eq => exact fun hne => (hm.head_eq nofun).trans (hhead hne)
  case union =>
    refine Union.cons ⟨?_, hm.union.mem, fun x => ?_⟩ ha hlt
    · exact hf.ordered.mp hm.union.ordered
    · rw [← hf.hasValue, ← hf.hasValue, ← hf.hasValue]; exact hm.union.values x

/-- One of the lists is empty: the other is the rest. -/
theorem merged_rest (hb : Chain h.right pB bs) (ho : Ordered h bs)
    (htail : ∀ t, pTail = some t → t ∉ bs) :
    Merged h head pTail [] bs (putTail h head pTail pB).1 (putTail h head pTail pB).2 bs := by
  obtain ⟨hf, hput, hhead⟩ := putTail_spec h head pTail pB
  constructor
  case frame => exact hf.mono fun c hc => by simp only [List.mem_append]; tauto
  case chain =>
    rw [hput]
    refine hf.chain hb fun b hb hin => ?_
    rw [Option.mem_toList] at hin
    exact htail b hin hb
  case head_eq => exact hhead
  case union => exact ⟨ho, fun a ha => Or.inr ha, fun x => (or_iff_right not_hasValue_nil).symm⟩

/-- What the loop relies on: two ordered lists without a common entry, and an entry of neither at
the tail. -/
structure MergePre (h : Heap) (pTail pA pB : Option ℕ) (as bs : List ℕ) : Prop where
  chainA : Chain h.right pA as
  chainB : Chain h.right pB bs
  orderedA : Ordered h as
  orderedB : Ordered h bs
  disjoint : ∀ a ∈ as, a ∉ bs
  tail : ∀ t, pTail = some t → t ∉ as ∧ t ∉ bs

theorem MergePre.symm (hp : MergePre h pTail pA pB as bs) : MergePre h pTail pB pA bs as where
  chainA := hp.chainB
  chainB := hp.chainA
  orderedA := hp.orderedB
  orderedB := hp.orderedA
  disjoint := fun b hb ha => hp.disjoint b ha hb
  tail := fun t ht => (hp.tail t ht).symm

/-- The first entry of the first list is linked. -/
theorem MergePre.link (hp : MergePre h pTail (some a) pB (a :: as) bs) (head : Option ℕ) :
    MergePre (putTail h head pTail (some a)).1 (some a)
      ((putTail h head pTail (some a)).1 a).pRight pB as bs := by
  obtain ⟨hf, -, -⟩ := putTail_spec h head pTail (some a)
  have hout : ∀ c, c ∈ a :: as ∨ c ∈ bs → c ∉ pTail.toList := fun c hc hin => by
    rw [Option.mem_toList] at hin
    exact hc.elim (hp.tail c hin).1 (hp.tail c hin).2
  constructor
  case chainA =>
    refine hf.chain ?_ fun c hc => hout c (Or.inl (List.mem_cons_of_mem _ hc))
    rw [hf.out a (hout a (Or.inl List.mem_cons_self))]
    exact hp.chainA.2
  case chainB => exact hf.chain hp.chainB fun c hc => hout c (Or.inr hc)
  case orderedA => exact hf.ordered.mpr (List.Pairwise.of_cons hp.orderedA)
  case orderedB => exact hf.ordered.mpr hp.orderedB
  case disjoint => exact fun c hc => hp.disjoint c (List.mem_cons_of_mem _ hc)
  case tail =>
    intro t ht
    obtain rfl := Option.some.inj ht
    exact ⟨(List.nodup_cons.mp hp.orderedA.nodup).1, hp.disjoint a List.mem_cons_self⟩

/-- The value at the head of a list is smaller than those of a list that starts higher. -/
theorem Ordered.lt_of_lt (ho : Ordered h (b :: bs)) (hlt : (h a).v < (h b).v) :
    ∀ c ∈ b :: bs, (h a).v < (h c).v := by
  intro c hc
  rcases List.mem_cons.mp hc with rfl | hc
  · exact hlt
  · exact lt_trans hlt (List.rel_of_pairwise_cons ho hc)

theorem mergeLoop_spec (fuel : ℕ) (head : Option ℕ) (hp : MergePre h pTail pA pB as bs)
    (hfuel : as.length + bs.length < fuel) :
    ∃ h' head' ms, mergeLoop fuel h head pTail pA pB = .ok (h', head') ∧
      Merged h head pTail as bs h' head' ms := by
  induction fuel generalizing h head pTail pA pB as bs with
  | zero => exact absurd hfuel (Nat.not_lt_zero _)
  | succ fuel ih =>
    cases pA with
    | none =>
      obtain rfl := hp.chainA.eq_nil
      exact ⟨_, _, bs, rfl, merged_rest hp.chainB hp.orderedB fun t ht => (hp.tail t ht).2⟩
    | some a =>
      obtain ⟨as, rfl, hAs⟩ := hp.chainA.eq_cons
      cases pB with
      | none =>
        obtain rfl := hp.chainB.eq_nil
        exact ⟨_, _, a :: as, rfl,
          (merged_rest hp.chainA hp.orderedA fun t ht => (hp.tail t ht).1).symm⟩
      | some b =>
        obtain ⟨bs, rfl, hBs⟩ := hp.chainB.eq_cons
        simp only [List.length_cons] at hfuel
        rw [mergeLoop]
        split
        case isTrue hlt =>
          obtain ⟨h', head', ms, hrun, hm⟩ := ih (putTail h head pTail (some a)).2
            (hp.link head) (by simp only [List.length_cons]; omega)
          exact ⟨h', head', a :: ms, hrun,
            hm.link hp.orderedA (hp.orderedB.lt_of_lt hlt) hp.tail⟩
        case isFalse hge =>
          split
          case isTrue hlt =>
            obtain ⟨h', head', ms, hrun, hm⟩ := ih (putTail h head pTail (some b)).2
              (hp.symm.link head).symm (by simp only [List.length_cons]; omega)
            exact ⟨h', head', b :: ms, hrun,
              (hm.symm.link hp.orderedB (hp.orderedA.lt_of_lt hlt) hp.symm.tail).symm⟩
          case isFalse hle =>
            have hrest : MergePre h pTail (h a).pRight (some b) as (b :: bs) :=
              ⟨hAs, hp.chainB, List.Pairwise.of_cons hp.orderedA, hp.orderedB,
                fun c hc => hp.disjoint c (List.mem_cons_of_mem _ hc), fun t ht =>
                ⟨fun hin => (hp.tail t ht).1 (List.mem_cons_of_mem _ hin), (hp.tail t ht).2⟩⟩
            obtain ⟨h', head', ms, hrun, hm⟩ := ih head hrest
              (by simp only [List.length_cons]; omega)
            refine ⟨h', head', ms, hrun, hm.frame.mono fun c hc => ?_, hm.chain, hm.head_eq,
              hm.union.drop (le_antisymm (not_lt.mp hle) (not_lt.mp hge))⟩
            simp only [List.mem_append, List.mem_cons] at hc ⊢
            tauto

/-- **Two ordered lists make one.** -/
theorem rowSetEntryMerge_spec {fuel : ℕ} (hA : Chain h.right pA as) (hB : Chain h.right pB bs)
    (hoA : Ordered h as) (hoB : Ordered h bs) (hdisj : ∀ a ∈ as, a ∉ bs)
    (hfuel : as.length + bs.length < fuel) :
    ∃ h' p ms, rowSetEntryMerge fuel h pA pB = .ok (h', p) ∧ Frame (as ++ bs) h h' ∧
      Chain h'.right p ms ∧ Union h as bs ms := by
  have hpre : MergePre h none pA pB as bs := ⟨hA, hB, hoA, hoB, hdisj, nofun⟩
  obtain ⟨h', p, ms, hrun, hm⟩ := mergeLoop_spec fuel none hpre hfuel
  exact ⟨h', p, ms, hrun, hm.frame, hm.chain, hm.union⟩

/-! ### Trees -/

/-- What `rowSetTreeToList` does to a tree. -/
def ToList (treeToList : Heap → ℕ → Result (Heap × ℕ × ℕ)) (t : Shape ℕ) : Prop :=
  ∀ h r, IsTree h.left h.right (some r) t → t.flat.Nodup →
    ∃ h' first last init, treeToList h r = .ok (h', first, last) ∧ Frame t.flat h h' ∧
      t.flat = init ++ [last] ∧ Chain h'.right (some first) t.flat

variable {treeToList : Heap → ℕ → Result (Heap × ℕ × ℕ)} {t : Shape ℕ} {fuel r : ℕ}

theorem leftToList_spec (hrec : ToList treeToList t) (ht : IsTree h.left h.right (h.left r) t)
    (hnodup : t.flat.Nodup) :
    ∃ h' first, leftToList treeToList h r = .ok (h', first) ∧ Frame t.flat h h' ∧
      Seg h'.right (some first) t.flat (some r) := by
  rw [leftToList]
  split
  case h_1 l hl =>
    rw [Heap.left, hl] at ht
    obtain ⟨h', first, last, init, hrun, hf, hlast, hchain⟩ := hrec h l ht hnodup
    refine ⟨h'.setRight last (some r), first, ?_, ?_, ?_⟩
    · rw [hrun]
      rfl
    · exact hf.trans (frame_setRight (by rw [hlast]; simp))
    · rw [hlast] at hchain hnodup ⊢
      refine hchain.setLast (fun b hb => setRight_right_of_ne ?_) setRight_right_self
      exact (List.nodup_append.mp hnodup).2.2 b hb last (List.mem_singleton.mpr rfl)
  case h_2 hl =>
    rw [Heap.left, hl] at ht
    obtain rfl := ht.eq_leaf
    exact ⟨h, r, rfl, Frame.refl _ _, rfl⟩

theorem rightToList_spec (hrec : ToList treeToList t) (ht : IsTree h.left h.right (h.right r) t)
    (hnodup : (r :: t.flat).Nodup) :
    ∃ h' last init, rightToList treeToList h r = .ok (h', last) ∧ Frame (r :: t.flat) h h' ∧
      r :: t.flat = init ++ [last] ∧ Chain h'.right (some r) (r :: t.flat) := by
  obtain ⟨hr, hflat⟩ := List.nodup_cons.mp hnodup
  rw [rightToList]
  split
  case h_1 q hq =>
    rw [Heap.right, hq] at ht
    obtain ⟨h', first, last, init, hrun, hf, hlast, hchain⟩ := hrec h q ht hflat
    refine ⟨h'.setRight r (some first), last, r :: init, ?_, ?_, ?_, rfl, ?_⟩
    · rw [hrun]
      rfl
    · exact (hf.mono (List.subset_cons_self _ _)).trans (frame_setRight List.mem_cons_self)
    · rw [hlast, List.cons_append]
    · rw [setRight_right_self]
      exact hchain.congr fun b hb => setRight_right_of_ne (ne_of_mem_of_not_mem hb hr)
  case h_2 hq =>
    rw [Heap.right, hq] at ht
    obtain rfl := ht.eq_leaf
    exact ⟨h, r, [], rfl, Frame.refl _ _, rfl, rfl, hq⟩

/-- **A tree is made a list.** -/
theorem rowSetTreeToList_spec (fuel : ℕ) (t : Shape ℕ) (hfuel : t.flat.length ≤ fuel) :
    ToList (rowSetTreeToList fuel) t := by
  induction fuel generalizing t with
  | zero =>
    intro h r ht
    cases t with
    | leaf => exact absurd ht nofun
    | node l a q => simp [Shape.flat] at hfuel
  | succ fuel ih =>
    intro h r ht hnodup
    cases t with
    | leaf => exact absurd ht nofun
    | node l a q =>
      obtain ⟨ha, hl, hq⟩ := ht
      obtain rfl := Option.some.inj ha
      simp only [Shape.flat, List.length_append, List.length_cons] at hnodup hfuel ⊢
      obtain ⟨hnl, hnq, hdisj⟩ := List.nodup_append.mp hnodup
      obtain ⟨h₁, first, hleft, hf₁, hseg⟩ :=
        leftToList_spec (ih l (by omega)) hl hnl
      have hout : ∀ c ∈ r :: q.flat, c ∉ l.flat := fun c hc hin => hdisj c hin c hc rfl
      have hq₁ : IsTree h₁.left h₁.right (h₁.right r) q := by
        rw [hf₁.right (hout r List.mem_cons_self)]
        exact hf₁.isTree hq fun c hc => hout c (List.mem_cons_of_mem _ hc)
      obtain ⟨h₂, last, init, hright, hf₂, hlast, hchain⟩ :=
        rightToList_spec (ih q (by omega)) hq₁ hnq
      refine ⟨h₂, first, last, l.flat ++ init, ?_, ?_, ?_, ?_⟩
      · rw [rowSetTreeToList, hleft]
        change (rightToList _ h₁ r).bind _ = _
        rw [hright]
        rfl
      · exact (hf₁.mono (List.subset_append_left _ _)).trans
          (hf₂.mono (List.subset_append_right _ _))
      · rw [hlast, List.append_assoc]
      · refine seg_append.mpr ⟨some r, hseg.congr fun c hc => hf₂.right fun hin => ?_, hchain⟩
        exact hout c hin hc

/-- **The head of a list is made a tree**, as deep as is asked for or as the list allows. -/
theorem rowSetNDeepTree_spec (d : ℕ) (hp : Chain h.right p as) (hnodup : as.Nodup) :
    ∃ t rest, as = t.flat ++ rest ∧
      Frame t.flat h (rowSetNDeepTree d h p).1 ∧
      IsTree (rowSetNDeepTree d h p).1.left (rowSetNDeepTree d h p).1.right
        (rowSetNDeepTree d h p).2.1 t ∧
      Chain (rowSetNDeepTree d h p).1.right (rowSetNDeepTree d h p).2.2 rest := by
  induction d generalizing h p as with
  | zero =>
    cases p with
    | none =>
      obtain rfl := hp.eq_nil
      exact ⟨.leaf, [], rfl, Frame.refl _ _, rfl, rfl⟩
    | some a =>
      obtain ⟨rest, rfl, hrest⟩ := hp.eq_cons
      obtain ⟨ha, -⟩ := List.nodup_cons.mp hnodup
      refine ⟨.node .leaf a .leaf, rest, rfl, ?_, ⟨rfl, ?_, ?_⟩, ?_⟩
      · exact (frame_setLeft (by simp [Shape.flat])).trans (frame_setRight (by simp [Shape.flat]))
      · simp [rowSetNDeepTree, IsTree]
      · simp [rowSetNDeepTree, IsTree]
      · refine Chain.congr hrest fun c hc => ?_
        rw [rowSetNDeepTree, setRight_right_of_ne (ne_of_mem_of_not_mem hc ha), setLeft_right]
  | succ d ih =>
    cases p with
    | none =>
      obtain rfl := hp.eq_nil
      exact ⟨.leaf, [], rfl, Frame.refl _ _, rfl, rfl⟩
    | some a =>
      obtain ⟨l, rest, has, hfl, htl, hrest⟩ := ih hp hnodup
      rw [rowSetNDeepTree]
      generalize rowSetNDeepTree d h (some a) = s at hfl htl hrest ⊢
      obtain ⟨h₁, pLeft, pList⟩ := s
      cases pList with
      | none => exact ⟨l, rest, has, hfl, htl, hrest⟩
      | some b =>
        obtain ⟨rest, rfl, hnext⟩ := hrest.eq_cons
        subst has
        obtain ⟨hnl, hnb, hdisj⟩ := List.nodup_append.mp hnodup
        obtain ⟨hb, hnrest⟩ := List.nodup_cons.mp hnb
        simp only at hfl htl hnext ⊢
        have hrest' : Chain (h₁.setLeft b pLeft).right (h₁ b).pRight rest :=
          Chain.congr hnext fun c _ => setLeft_right c
        obtain ⟨r, rest', hsplit, hfr, htr, hlast⟩ := ih hrest' hnrest
        generalize rowSetNDeepTree d (h₁.setLeft b pLeft) (h₁ b).pRight = s at hfr htr hlast ⊢
        obtain ⟨h₂, pRight, pList⟩ := s
        subst hsplit
        simp only [List.mem_append, not_or] at hfr htr hlast hb ⊢
        have hbl : b ∉ l.flat := fun hin => hdisj b hin b List.mem_cons_self rfl
        have hlr : ∀ c ∈ l.flat, c ∉ r.flat ∧ c ≠ b := fun c hc =>
          ⟨fun hin => hdisj c hc c (by simp [hin]) rfl, fun heq => hbl (heq ▸ hc)⟩
        refine ⟨.node l b r, rest', by simp [Shape.flat], ?_, ⟨rfl, ?_, ?_⟩, ?_⟩
        · refine (hfl.mono ?_).trans ((frame_setLeft ?_).trans ((hfr.mono ?_).trans
            (frame_setRight ?_))) <;> simp only [Shape.flat]
          · exact List.subset_append_left _ _
          · simp
          · exact List.Subset.trans (List.subset_cons_self _ _) (List.subset_append_right _ _)
          · simp
        · rw [setRight_left, hfr.left hb.1, setLeft_left_self]
          refine htl.congr (fun c hc => ?_) fun c hc => ?_
          · rw [setRight_left, hfr.left (hlr c hc).1, setLeft_left_of_ne (hlr c hc).2]
          · rw [setRight_right_of_ne (hlr c hc).2, hfr.right (hlr c hc).1, setLeft_right]
        · rw [setRight_right_self]
          refine htr.congr (fun c _ => setRight_left c) fun c hc => setRight_right_of_ne ?_
          exact fun heq => hb.1 (heq ▸ hc)
        · exact Chain.congr hlast fun c hc =>
            setRight_right_of_ne fun heq => hb.2 (heq ▸ hc)

theorem listToTreeLoop_spec (fuel d : ℕ) {t : Shape ℕ} {r : ℕ}
    (ht : IsTree h.left h.right (some r) t) (hp : Chain h.right p as)
    (hnodup : (t.flat ++ as).Nodup) (hfuel : as.length < fuel) :
    ∃ h' root t', listToTreeLoop fuel d h r p = .ok (h', root) ∧ Frame (t.flat ++ as) h h' ∧
      IsTree h'.left h'.right (some root) t' ∧ t'.flat = t.flat ++ as := by
  induction fuel generalizing d h r p t as with
  | zero => exact absurd hfuel (Nat.not_lt_zero _)
  | succ fuel ih =>
    cases p with
    | none =>
      obtain rfl := hp.eq_nil
      exact ⟨h, r, t, rfl, Frame.refl _ _, ht, (List.append_nil _).symm⟩
    | some b =>
      obtain ⟨as, rfl, hnext⟩ := hp.eq_cons
      obtain ⟨-, hnb, hdisj⟩ := List.nodup_append.mp hnodup
      obtain ⟨hb, hnas⟩ := List.nodup_cons.mp hnb
      rw [listToTreeLoop]
      obtain ⟨q, rest, has, hfq, htq, hrest⟩ := rowSetNDeepTree_spec d
        (h := h.setLeft b (some r)) (p := (h b).pRight)
        (Chain.congr hnext fun c _ => setLeft_right c) hnas
      generalize rowSetNDeepTree d (h.setLeft b (some r)) (h b).pRight = s at hfq htq hrest ⊢
      obtain ⟨h₁, pRight, pList⟩ := s
      subst has
      simp only [List.mem_append, not_or, List.length_cons, List.length_append] at *
      have hbt : b ∉ t.flat := fun hin => hdisj b hin b List.mem_cons_self rfl
      have htout : ∀ c ∈ t.flat, c ∉ q.flat ∧ c ≠ b := fun c hc =>
        ⟨fun hin => hdisj c hc c (by simp [hin]) rfl, fun heq => hbt (heq ▸ hc)⟩
      have htree : IsTree (h₁.setRight b pRight).left (h₁.setRight b pRight).right (some b)
          (.node t b q) := by
        refine ⟨rfl, ?_, ?_⟩
        · rw [setRight_left, hfq.left hb.1, setLeft_left_self]
          refine ht.congr (fun c hc => ?_) fun c hc => ?_
          · rw [setRight_left, hfq.left (htout c hc).1, setLeft_left_of_ne (htout c hc).2]
          · rw [setRight_right_of_ne (htout c hc).2, hfq.right (htout c hc).1, setLeft_right]
        · rw [setRight_right_self]
          refine htq.congr (fun c _ => setRight_left c) fun c hc => setRight_right_of_ne ?_
          exact fun heq => hb.1 (heq ▸ hc)
      have hchain : Chain (h₁.setRight b pRight).right pList rest :=
        Chain.congr hrest fun c hc => setRight_right_of_ne fun heq => hb.2 (heq ▸ hc)
      have hflat : (Shape.node t b q).flat ++ rest = t.flat ++ b :: (q.flat ++ rest) := by
        simp [Shape.flat]
      obtain ⟨h', root, t', hrun, hf, ht', hflat'⟩ := ih (d + 1) htree hchain
        (by rw [hflat]; exact hnodup) (by omega)
      rw [hflat] at hf hflat'
      refine ⟨h', root, t', hrun, ?_, ht', hflat'⟩
      refine (frame_setLeft ?_).trans ((hfq.mono ?_).trans ((frame_setRight ?_).trans hf))
      · simp
      · exact List.Subset.trans (List.subset_append_left _ _)
          (List.Subset.trans (List.subset_cons_self _ _) (List.subset_append_right _ _))
      · simp

/-- **A list is made a tree.** -/
theorem rowSetListToTree_spec {fuel a : ℕ} (hp : Chain h.right (some a) as) (hnodup : as.Nodup)
    (hfuel : as.length ≤ fuel) :
    ∃ h' root t, rowSetListToTree fuel h a = .ok (h', root) ∧ Frame as h h' ∧
      IsTree h'.left h'.right (some root) t ∧ t.flat = as := by
  obtain ⟨as, rfl, hnext⟩ := hp.eq_cons
  obtain ⟨ha, -⟩ := List.nodup_cons.mp hnodup
  have htree : IsTree ((h.setLeft a none).setRight a none).left
      ((h.setLeft a none).setRight a none).right (some a) (.node .leaf a .leaf) := by
    simp [IsTree]
  have hchain : Chain ((h.setLeft a none).setRight a none).right (h a).pRight as :=
    Chain.congr hnext fun c hc => by
      rw [setRight_right_of_ne (ne_of_mem_of_not_mem hc ha), setLeft_right]
  obtain ⟨h', root, t, hrun, hf, ht, hflat⟩ :=
    listToTreeLoop_spec fuel 0 htree hchain hnodup (by rw [List.length_cons] at hfuel; omega)
  refine ⟨h', root, t, hrun, ?_, ht, hflat⟩
  exact ((frame_setLeft List.mem_cons_self).trans (frame_setRight List.mem_cons_self)).trans hf

/-! ### Sorting

The buckets are the digits of a binary counter: bucket `i` is taken when digit `i` of the number of
entries that went in is one. -/

/-- The number the first `n` buckets stand for. -/
def weight (B : ℕ → List ℕ) : ℕ → ℕ
  | 0 => 0
  | n + 1 => weight B n + if B n = [] then 0 else 2 ^ n

variable {B : ℕ → List ℕ} {aBucket : ℕ → Option ℕ} {i j n : ℕ}

theorem weight_lt (B : ℕ → List ℕ) (n : ℕ) : weight B n < 2 ^ n := by
  induction n with
  | zero => exact Nat.one_pos
  | succ n ih =>
    rw [weight, Nat.pow_succ]
    split <;> omega

theorem weight_update_of_le (hi : n ≤ i) : weight (Function.update B i bs) n = weight B n := by
  induction n with
  | zero => rfl
  | succ n ih =>
    rw [weight, weight, ih (by omega), Function.update_of_ne (by omega)]

/-- A bucket is filled. -/
theorem weight_update (bs : List ℕ) (hi : i < n) (hempty : B i = []) (hbs : bs ≠ []) :
    weight (Function.update B i bs) n = weight B n + 2 ^ i := by
  induction n with
  | zero => exact absurd hi (Nat.not_lt_zero i)
  | succ n ih =>
    rw [weight, weight]
    rcases eq_or_ne n i with rfl | hne
    · rw [weight_update_of_le (Nat.le_refl n), Function.update_self, if_neg hbs, if_pos hempty,
        Nat.add_zero]
    · rw [ih (by omega), Function.update_of_ne hne]
      omega

/-- A bucket is emptied. -/
theorem weight_clear (hi : i < n) (hfull : B i ≠ []) :
    weight (Function.update B i []) n + 2 ^ i = weight B n := by
  rw [← weight_update (B i) hi (Function.update_self _ _ _) hfull, Function.update_idem,
    Function.update_eq_self]

/-- The buckets hold ordered lists without a common entry, all of entries in `S`. -/
structure Buckets (S : List ℕ) (h : Heap) (aBucket : ℕ → Option ℕ) (B : ℕ → List ℕ) : Prop where
  chain : ∀ i, Chain h.right (aBucket i) (B i)
  ordered : ∀ i, Ordered h (B i)
  disjoint : ∀ i j, i ≠ j → ∀ a ∈ B i, a ∉ B j
  subset : ∀ i, B i ⊆ S
  top : ∀ i, nBucket ≤ i → B i = []

/-- `x` is the value of an entry in a bucket. -/
def InBuckets (h : Heap) (B : ℕ → List ℕ) (x : ℤ) : Prop := ∃ i, HasValue h (B i) x

theorem inBuckets_update :
    InBuckets h (Function.update B i bs) x ↔
      HasValue h bs x ∨ ∃ j, j ≠ i ∧ HasValue h (B j) x := by
  constructor
  · rintro ⟨j, hj⟩
    rcases eq_or_ne j i with rfl | hne
    · rw [Function.update_self] at hj
      exact Or.inl hj
    · rw [Function.update_of_ne hne] at hj
      exact Or.inr ⟨j, hne, hj⟩
  · rintro (hbs | ⟨j, hne, hj⟩)
    · exact ⟨i, by rwa [Function.update_self]⟩
    · exact ⟨j, by rwa [Function.update_of_ne hne]⟩

theorem inBuckets_split :
    InBuckets h B x ↔ HasValue h (B i) x ∨ ∃ j, j ≠ i ∧ HasValue h (B j) x := by
  conv_lhs => rw [← Function.update_eq_self i B]
  exact inBuckets_update

/-- A list goes into a bucket, in a memory where the other buckets are as they were. -/
theorem Buckets.update (hb : Buckets S h aBucket B) (hi : i < nBucket) (hf : Frame ms h h')
    (hms : ∀ j, j ≠ i → ∀ a ∈ B j, a ∉ ms) (hp : Chain h'.right p bs) (ho : Ordered h' bs)
    (hbs : bs ⊆ ms) (hS : bs ⊆ S) :
    Buckets S h' (Function.update aBucket i p) (Function.update B i bs) where
  chain := fun j => by
    rcases eq_or_ne j i with rfl | hne
    · rw [Function.update_self, Function.update_self]; exact hp
    · rw [Function.update_of_ne hne, Function.update_of_ne hne]
      exact hf.chain (hb.chain j) (hms j hne)
  ordered := fun j => by
    rcases eq_or_ne j i with rfl | hne
    · rw [Function.update_self]; exact ho
    · rw [Function.update_of_ne hne]; exact hf.ordered.mpr (hb.ordered j)
  disjoint := fun j k hjk a ha => by
    rcases eq_or_ne j i with rfl | hj
    · rw [Function.update_self] at ha
      rw [Function.update_of_ne (Ne.symm hjk)]
      exact fun hin => hms k (Ne.symm hjk) a hin (hbs ha)
    · rw [Function.update_of_ne hj] at ha
      rcases eq_or_ne k i with rfl | hk
      · rw [Function.update_self]
        exact fun hin => hms j hj a ha (hbs hin)
      · rw [Function.update_of_ne hk]
        exact hb.disjoint j k hjk a ha
  subset := fun j => by
    rcases eq_or_ne j i with rfl | hne
    · rw [Function.update_self]; exact hS
    · rw [Function.update_of_ne hne]; exact hb.subset j
  top := fun j hj => by rw [Function.update_of_ne (by omega)]; exact hb.top j hj

theorem emptied_disjoint (hout : ∀ j, j ≠ i → ∀ a ∈ B j, a ∉ as) (hms : ms ⊆ as) :
    ∀ j, ∀ a ∈ Function.update B i [] j, a ∉ ms := by
  intro j a ha hin
  rcases eq_or_ne j i with rfl | hj
  · rw [Function.update_self] at ha
    exact absurd ha List.not_mem_nil
  · rw [Function.update_of_ne hj] at ha
    exact hout j hj a ha (hms hin)

/-- **One list goes into the buckets**, as the digit of weight `2 ^ i`. -/
theorem fillBucket_spec {fuel : ℕ} (k : ℕ) (hk : i + k = nBucket) (hb : Buckets S h aBucket B)
    (hp : Chain h.right p as) (ho : Ordered h as) (has : as ≠ [])
    (hdisj : ∀ j, ∀ a ∈ B j, a ∉ as) (hS : as ⊆ S) (hfuel : S.length < fuel) :
    (weight B nBucket + 2 ^ i < 2 ^ nBucket ∧
      ∃ h' aBucket' B', fillBucket fuel k i h aBucket p = .ok (h', aBucket') ∧ Frame S h h' ∧
        Buckets S h' aBucket' B' ∧ weight B' nBucket = weight B nBucket + 2 ^ i ∧
        (∀ j, ∀ a ∈ B' j, a ∈ as ∨ ∃ k, a ∈ B k) ∧
        ∀ x, InBuckets h' B' x ↔ InBuckets h B x ∨ HasValue h as x) ∨
    (2 ^ nBucket ≤ weight B nBucket + 2 ^ i ∧
      fillBucket fuel k i h aBucket p = .error .bounds) := by
  induction k generalizing i h aBucket B p as with
  | zero =>
    obtain rfl : i = nBucket := hk
    exact Or.inr ⟨Nat.le_add_left _ _, rfl⟩
  | succ k ih =>
    have hi : i < nBucket := by omega
    rw [fillBucket]
    split
    case h_1 hnone =>
      have hempty : B i = [] := (hnone ▸ hb.chain i).eq_nil
      have hweight := weight_update as hi hempty has
      refine Or.inl ⟨hweight ▸ weight_lt _ _, h, _, Function.update B i as, rfl, Frame.refl _ _,
        hb.update hi (Frame.refl as h) (fun j _ => hdisj j) hp ho (List.Subset.refl _) hS, hweight,
        ?_, fun x => ?_⟩
      · intro j a ha
        rcases eq_or_ne j i with rfl | hne
        · rw [Function.update_self] at ha; exact Or.inl ha
        · rw [Function.update_of_ne hne] at ha; exact Or.inr ⟨j, ha⟩
      · rw [inBuckets_update, inBuckets_split (i := i), hempty,
          or_iff_right not_hasValue_nil, or_comm]
    case h_2 b hsome =>
      obtain ⟨bs, hBi, -⟩ := (hsome ▸ hb.chain i).eq_cons
      have hfull : B i ≠ [] := by rw [hBi]; exact List.cons_ne_nil _ _
      have hlen : (B i).length + as.length < fuel := by
        rw [← List.length_append]
        refine Nat.lt_of_le_of_lt (List.subperm_of_subset ?_ ?_).length_le hfuel
        · exact List.nodup_append.mpr ⟨(hb.ordered i).nodup, ho.nodup, fun a ha c hc hac =>
            hdisj i a ha (hac ▸ hc)⟩
        · exact List.append_subset.mpr ⟨hb.subset i, hS⟩
      obtain ⟨h₁, q, ms, hrun, hf, hq, hu⟩ := rowSetEntryMerge_spec (hsome ▸ hb.chain i) hp
        (hb.ordered i) ho (hdisj i) hlen
      have hmsub : ms ⊆ B i ++ as := fun a ha => List.mem_append.mpr (hu.mem a ha)
      have hmS : ms ⊆ S := List.Subset.trans hmsub (List.append_subset.mpr ⟨hb.subset i, hS⟩)
      have hout : ∀ j, j ≠ i → ∀ a ∈ B j, a ∉ B i ++ as := fun j hj a ha hin =>
        (List.mem_append.mp hin).elim (hb.disjoint j i hj a ha) (hdisj j a ha)
      have hb₁ : Buckets S h₁ (Function.update aBucket i none) (Function.update B i []) :=
        hb.update hi hf hout rfl List.Pairwise.nil (List.nil_subset _) (List.nil_subset _)
      have hms : ms ≠ [] := by
        rintro rfl
        obtain ⟨a, as, rfl⟩ := List.exists_cons_of_ne_nil has
        exact not_hasValue_nil ((hu.values (h a).v).mpr (Or.inr ⟨a, List.mem_cons_self, rfl⟩))
      have hdisj₁ := emptied_disjoint hout hmsub
      have hclear := weight_clear hi hfull
      have hpow : 2 ^ (i + 1) = 2 ^ i + 2 ^ i := by rw [Nat.pow_succ]; omega
      have hrun' : fillBucket fuel k (i + 1) h₁ (Function.update aBucket i none) q =
          (rowSetEntryMerge fuel h (some b) p).bind fun s =>
            fillBucket fuel k (i + 1) s.1 (Function.update aBucket i none) s.2 := by
        rw [hrun]; rfl
      rcases ih (i := i + 1) (by omega) hb₁ hq (hf.ordered.mpr hu.ordered) hms hdisj₁ hmS with
        ⟨hlt, h', ab', B', hok, hf', hb', hw', hsub, hval⟩ | ⟨hge, herr⟩
      · refine Or.inl ⟨by omega, h', ab', B', hrun'.symm.trans hok,
          (hf.mono (List.append_subset.mpr ⟨hb.subset i, hS⟩)).trans hf', hb', by omega, ?_,
          fun x => ?_⟩
        · intro j a ha
          rcases hsub j a ha with hin | ⟨l, hl⟩
          · exact (hu.mem a hin).symm.imp id fun hin => ⟨i, hin⟩
          · rcases eq_or_ne l i with rfl | hne
            · rw [Function.update_self] at hl; exact absurd hl List.not_mem_nil
            · rw [Function.update_of_ne hne] at hl; exact Or.inr ⟨l, hl⟩
        · rw [hval, inBuckets_update, or_iff_right not_hasValue_nil, inBuckets_split (i := i),
            hf.hasValue, hu.values]
          simp only [hf.hasValue]
          exact or_left_comm.trans or_assoc.symm
      · exact Or.inr ⟨by omega, hrun'.symm.trans herr⟩

theorem Buckets.mono (hb : Buckets S h aBucket B) (hS : S ⊆ S') : Buckets S' h aBucket B where
  chain := hb.chain
  ordered := hb.ordered
  disjoint := hb.disjoint
  subset := fun i => List.Subset.trans (hb.subset i) hS
  top := hb.top

theorem Buckets.frame (hb : Buckets S h aBucket B) (hf : Frame ms h h') (hdisj : ∀ a ∈ S, a ∉ ms) :
    Buckets S h' aBucket B where
  chain := fun i => hf.chain (hb.chain i) fun a ha => hdisj a (hb.subset i ha)
  ordered := fun i => hf.ordered.mpr (hb.ordered i)
  disjoint := hb.disjoint
  subset := hb.subset
  top := hb.top

theorem Frame.inBuckets (hf : Frame S h h') : InBuckets h' B x ↔ InBuckets h B x := by
  simp only [InBuckets, hf.hasValue]

/-- **All entries go into the buckets**, unless there are too many. -/
theorem fillBuckets_spec {fuel : ℕ} (n : ℕ) (hb : Buckets S h aBucket B)
    (hp : Chain h.right p as) (hnodup : as.Nodup) (hdisj : ∀ a ∈ S, a ∉ as)
    (hfuel : S.length + as.length < fuel) (hn : as.length < n) :
    (weight B nBucket + as.length < 2 ^ nBucket ∧
      ∃ h' aBucket' B', fillBuckets fuel n h aBucket p = .ok (h', aBucket') ∧
        Frame (S ++ as) h h' ∧ Buckets (S ++ as) h' aBucket' B' ∧
        ∀ x, InBuckets h' B' x ↔ InBuckets h B x ∨ HasValue h as x) ∨
    (2 ^ nBucket ≤ weight B nBucket + as.length ∧
      fillBuckets fuel n h aBucket p = .error .bounds) := by
  induction n generalizing h aBucket B p as S with
  | zero => exact absurd hn (Nat.not_lt_zero _)
  | succ n ih =>
    cases p with
    | none =>
      obtain rfl := hp.eq_nil
      refine Or.inl ⟨weight_lt B nBucket, h, aBucket, B, rfl, Frame.refl _ _,
        hb.mono (List.subset_append_left _ _), fun x => ?_⟩
      rw [or_iff_left not_hasValue_nil]
    | some a =>
      obtain ⟨as, rfl, hnext⟩ := hp.eq_cons
      obtain ⟨ha, hnodup⟩ := List.nodup_cons.mp hnodup
      simp only [List.length_cons, List.mem_cons, not_or] at hfuel hn hdisj
      have hf₀ : Frame [a] h (h.setRight a none) := frame_setRight (List.mem_singleton.mpr rfl)
      have hb₀ : Buckets (a :: S) (h.setRight a none) aBucket B :=
        (hb.frame hf₀ fun c hc hin => (hdisj c hc).1 (List.mem_singleton.mp hin)).mono
          (List.subset_cons_self _ _)
      have hone : Chain (h.setRight a none).right (some a) [a] := ⟨rfl, setRight_right_self⟩
      have hlen : (a :: S).length < fuel := by rw [List.length_cons]; omega
      have hstep := fillBucket_spec (i := 0) nBucket (Nat.zero_add _) hb₀ hone
        (List.pairwise_singleton _ _) (List.cons_ne_nil _ _)
        (fun j c hc hin => (hdisj c (hb.subset j hc)).1 (List.mem_singleton.mp hin))
        (List.cons_subset.mpr ⟨List.mem_cons_self, List.nil_subset _⟩) hlen
      have hrun' : fillBuckets fuel (n + 1) h aBucket (some a) =
          (fillBucket fuel nBucket 0 (h.setRight a none) aBucket (some a)).bind fun s =>
            fillBuckets fuel n s.1 s.2 (h a).pRight := rfl
      rcases hstep with ⟨hlt, h₁, ab₁, B₁, hok, hf₁, hb₁, hw₁, -, hval₁⟩ | ⟨hge, herr⟩
      · have hout : ∀ c ∈ as, c ∉ a :: S := fun c hc hin => by
          rcases List.mem_cons.mp hin with rfl | hin
          · exact ha hc
          · exact (hdisj c hin).2 hc
        have hchain : Chain h₁.right (h a).pRight as :=
          hf₁.chain (hf₀.chain hnext fun c hc hin =>
            hout c hc (List.mem_cons.mpr (Or.inl (List.mem_singleton.mp hin)))) hout
        have hS : (a :: S) ++ as ⊆ S ++ a :: as := fun c hc => by
          simp only [List.mem_append, List.mem_cons] at hc ⊢
          tauto
        have hrun₁ : fillBuckets fuel (n + 1) h aBucket (some a) =
            fillBuckets fuel n h₁ ab₁ (h a).pRight := by rw [hrun', hok]; rfl
        rcases ih hb₁ hchain hnodup (fun c hc hin => hout c hin hc)
          (by rw [List.length_cons]; omega) (by omega) with
          ⟨hlt', h', ab', B', hok', hf', hb', hval'⟩ | ⟨hge', herr'⟩
        · refine Or.inl ⟨by rw [List.length_cons]; omega, h', ab', B', hrun₁.trans hok', ?_,
            hb'.mono hS, fun x => ?_⟩
          · refine ((hf₀.mono ?_).trans (hf₁.mono ?_)).trans (hf'.mono hS)
            · exact fun c hc => hS (List.mem_append_left _ (List.mem_cons.mpr
                (Or.inl (List.mem_singleton.mp hc))))
            · exact fun c hc => hS (List.mem_append_left _ hc)
          · rw [hval', hval₁, hf₁.hasValue, hf₀.hasValue, hf₀.hasValue, hf₀.inBuckets,
              hasValue_cons, hasValue_cons, or_iff_left (not_hasValue_nil (x := x)), or_assoc]
        · exact Or.inr ⟨by rw [List.length_cons]; omega, hrun₁.trans herr'⟩
      · exact Or.inr ⟨by rw [List.length_cons]; omega, by rw [hrun', herr]; rfl⟩

theorem mergeBuckets_congr {fuel : ℕ} {aBucket' : ℕ → Option ℕ} {is : List ℕ}
    (heq : ∀ i ∈ is, aBucket i = aBucket' i) :
    mergeBuckets fuel aBucket is h p = mergeBuckets fuel aBucket' is h p := by
  induction is generalizing h p with
  | nil => rfl
  | cons i is ih =>
    obtain ⟨hi, his⟩ := List.forall_mem_cons.mp heq
    rw [mergeBuckets, mergeBuckets, hi]
    exact congrArg _ (funext fun s => ih his)

/-- **The buckets are merged.** -/
theorem mergeBuckets_spec {fuel : ℕ} {is : List ℕ} (his : is.Nodup) (hlt : ∀ i ∈ is, i < nBucket)
    (hb : Buckets S h aBucket B) (hp : Chain h.right p as) (ho : Ordered h as)
    (hdisj : ∀ j, ∀ a ∈ B j, a ∉ as) (hS : as ⊆ S) (hfuel : S.length < fuel) :
    ∃ h' q ms, mergeBuckets fuel aBucket is h p = .ok (h', q) ∧ Frame S h h' ∧
      Chain h'.right q ms ∧ Ordered h' ms ∧ ms ⊆ S ∧
      ∀ x, HasValue h' ms x ↔ HasValue h as x ∨ ∃ i ∈ is, HasValue h (B i) x := by
  induction is generalizing h p as aBucket B with
  | nil =>
    exact ⟨h, p, as, rfl, Frame.refl _ _, hp, ho, hS, fun x => by simp⟩
  | cons i is ih =>
    obtain ⟨hi, his⟩ := List.nodup_cons.mp his
    obtain ⟨hin, hlt⟩ := List.forall_mem_cons.mp hlt
    have hsub : as ++ B i ⊆ S := List.append_subset.mpr ⟨hS, hb.subset i⟩
    have hlen : as.length + (B i).length < fuel := by
      rw [← List.length_append]
      refine Nat.lt_of_le_of_lt (List.subperm_of_subset ?_ hsub).length_le hfuel
      exact List.nodup_append.mpr ⟨ho.nodup, (hb.ordered i).nodup, fun a ha c hc hac =>
        hdisj i c hc (hac ▸ ha)⟩
    obtain ⟨h₁, q, ms, hrun, hf, hq, hu⟩ := rowSetEntryMerge_spec hp (hb.chain i) ho
      (hb.ordered i) (fun a ha hin => hdisj i a hin ha) hlen
    have hmsub : ms ⊆ as ++ B i := fun a ha => List.mem_append.mpr (hu.mem a ha)
    have hout : ∀ j, j ≠ i → ∀ a ∈ B j, a ∉ as ++ B i := fun j hj a ha hin =>
      (List.mem_append.mp hin).elim (hdisj j a ha) (hb.disjoint j i hj a ha)
    have hb₁ : Buckets S h₁ (Function.update aBucket i none) (Function.update B i []) :=
      hb.update hin hf hout rfl List.Pairwise.nil (List.nil_subset _) (List.nil_subset _)
    have hdisj₁ := emptied_disjoint hout hmsub
    have hne : ∀ j ∈ is, j ≠ i := fun j hj => ne_of_mem_of_not_mem hj hi
    obtain ⟨h', q', ms', hrun', hf', hq', ho', hsub', hval⟩ := ih his hlt hb₁ hq
      (hf.ordered.mpr hu.ordered) hdisj₁ (List.Subset.trans hmsub hsub)
    refine ⟨h', q', ms', ?_, (hf.mono hsub).trans hf', hq', ho', hsub', fun x => ?_⟩
    · rw [mergeBuckets, hrun]
      change mergeBuckets fuel aBucket is h₁ q = _
      rw [← hrun']
      exact mergeBuckets_congr fun j hj => (Function.update_of_ne (hne j hj) _ _).symm
    · have hrest : (∃ j ∈ is, HasValue h₁ (Function.update B i [] j) x) ↔
          ∃ j ∈ is, HasValue h (B j) x := by
        refine exists_congr fun j => and_congr_right fun hj => ?_
        rw [Function.update_of_ne (hne j hj), hf.hasValue]
      rw [hval, hf.hasValue, hu.values, hrest, List.exists_mem_cons_iff, or_assoc]

/-- **A list is sorted**, unless it is too long. -/
theorem rowSetEntrySort_spec {fuel : ℕ} (hp : Chain h.right p as) (hnodup : as.Nodup)
    (hfuel : as.length < fuel) :
    (as.length < 2 ^ nBucket ∧ ∃ h' q ms, rowSetEntrySort fuel h p = .ok (h', q) ∧
      Frame as h h' ∧ Chain h'.right q ms ∧ Ordered h' ms ∧ ms ⊆ as ∧
      ∀ x, HasValue h' ms x ↔ HasValue h as x) ∨
    (2 ^ nBucket ≤ as.length ∧ rowSetEntrySort fuel h p = .error .bounds) := by
  have hzero : weight (fun _ => []) nBucket = 0 := by decide
  have hb : Buckets [] h (fun _ => none) fun _ => [] :=
    ⟨fun _ => rfl, fun _ => List.Pairwise.nil, fun _ _ _ _ ha => absurd ha List.not_mem_nil,
      fun _ => List.Subset.refl _, fun _ _ => rfl⟩
  have hsort : rowSetEntrySort fuel h p = (fillBuckets fuel fuel h (fun _ => none) p).bind fun s =>
      mergeBuckets fuel s.2 (List.range nBucket) s.1 none := rfl
  have hlen : ([] : List ℕ).length + as.length < fuel := by rw [List.length_nil]; omega
  have hfill := fillBuckets_spec fuel hb hp hnodup (fun a ha => absurd ha List.not_mem_nil) hlen
    hfuel
  rw [hzero, Nat.zero_add, List.nil_append] at hfill
  rcases hfill with ⟨hlt, h₁, ab₁, B₁, hok, hf, hb₁, hval⟩ | ⟨hge, herr⟩
  · have hnil : Chain h₁.right none [] := rfl
    obtain ⟨h', q, ms, hrun, hf', hq, ho, hsub, hval'⟩ := mergeBuckets_spec
      List.nodup_range (fun i hi => List.mem_range.mp hi) hb₁ hnil List.Pairwise.nil
      (fun _ _ _ => List.not_mem_nil) (List.nil_subset _) hfuel
    refine Or.inl ⟨hlt, h', q, ms, ?_, hf.trans hf', hq, ho, hsub, fun x => ?_⟩
    · rw [hsort, hok]
      exact hrun
    · rw [hval', or_iff_right not_hasValue_nil, ← or_iff_right (a := InBuckets h (fun _ => []) x)
        (b := HasValue h as x) (fun hin => not_hasValue_nil hin.choose_spec), ← hval]
      refine ⟨fun ⟨i, _, hi⟩ => ⟨i, hi⟩, fun ⟨i, hi⟩ => ⟨i, List.mem_range.mpr ?_, hi⟩⟩
      by_contra hge
      rw [hb₁.top i (Nat.le_of_not_lt hge)] at hi
      exact not_hasValue_nil hi
  · exact Or.inr ⟨hge, by rw [hsort, herr]; rfl⟩

end RowSet

end SqliteVms

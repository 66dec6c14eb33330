import Mathlib.Data.List.Infix

/-!
# Doubly linked lists

Every node has two pointers, to the node after it and to the node before it. A list of nodes is
linked when the pointers say so; the pointers of nodes that are not in the list may be anything, so
that several lists, and the remains of old ones, live in one memory.

What is said of a list is said of its segments: `Links.Seg l p L q` is about the nodes of `L` only,
with `p` before the first and `q` behind the last. Segments are put together by `seg_append`, and a
change of pointers elsewhere does not matter to them (`Seg.congr`).

## Main definitions

* `Links` — the two pointers of all nodes
* `Links.Seg`, `Links.IsList` — a segment, a whole list
* `Links.insert`, `Links.unlink` — a node is put between two, or taken out
* `Links.follow` — the nodes met when following `next`
* `List.Blocks` — the elements with one image stand next to each other

## Main results

* `Links.Seg.insert`, `Links.Seg.unlink` — what becomes of the list
* `Links.IsList.follow` — following `next` meets the list
* `List.Blocks.insert`, `List.Blocks.filter` — elements that belong together stay together
-/

/-- A prefix that ends before `b`. -/
theorem List.prefix_of_append_cons {α : Type*} {B A C : List α} {b : α} (h : B <+: A ++ b :: C)
    (hb : b ∉ B) : B <+: A := by
  induction A generalizing B with
  | nil =>
    rcases List.prefix_cons_iff.mp h with rfl | ⟨B', rfl, -⟩
    · exact List.nil_prefix
    · exact absurd List.mem_cons_self hb
  | cons a A ih =>
    rcases List.prefix_cons_iff.mp h with rfl | ⟨B', rfl, hB'⟩
    · exact List.nil_prefix
    · exact List.cons_prefix_cons.mpr ⟨rfl, ih hB' fun hin => hb (List.mem_cons_of_mem _ hin)⟩

/-- A block without `b` in a list with `b` lies on one side of it. -/
theorem List.infix_of_append_cons {α : Type*} {B A C : List α} {b : α} (h : B <:+: A ++ b :: C)
    (hb : b ∉ B) : B <:+: A ∨ B <:+: C := by
  induction A with
  | nil =>
    rcases List.infix_cons_iff.mp h with hpre | hin
    · exact Or.inl (List.prefix_of_append_cons (A := []) hpre hb).isInfix
    · exact Or.inr hin
  | cons a A ih =>
    rcases List.infix_cons_iff.mp h with hpre | hin
    · exact Or.inl (List.prefix_of_append_cons (A := a :: A) hpre hb).isInfix
    · exact (ih hin).imp (fun h => h.trans (List.suffix_cons a A).isInfix) id

/-- A block that starts with `b` stands where `b` does. -/
theorem List.prefix_of_infix_append_cons {α : Type*} {G A C : List α} {b : α}
    (h : b :: G <:+: A ++ b :: C) (hnodup : (A ++ b :: C).Nodup) : b :: G <+: b :: C := by
  induction A with
  | nil =>
    rcases List.infix_cons_iff.mp h with hpre | hin
    · exact hpre
    · exact absurd (hin.subset List.mem_cons_self) (List.nodup_cons.mp hnodup).1
  | cons a A ih =>
    obtain ⟨ha, hnodup⟩ := List.nodup_cons.mp hnodup
    rcases List.infix_cons_iff.mp h with hpre | hin
    · obtain ⟨rfl, -⟩ := List.cons_prefix_cons.mp hpre
      exact absurd (List.mem_append_right A List.mem_cons_self) ha
    · exact ih hin hnodup

/-- A list without one of its elements. -/
theorem List.filter_ne_of_nodup {α : Type*} [DecidableEq α] {A B : List α} {a : α}
    (hnodup : (A ++ a :: B).Nodup) : (A ++ a :: B).filter (· ≠ a) = A ++ B := by
  obtain ⟨-, hnB, hdisj⟩ := List.nodup_append.mp hnodup
  have hA : A.filter (· ≠ a) = A := List.filter_eq_self.mpr fun y hy => by
    simpa using hdisj y hy a List.mem_cons_self
  have hB : B.filter (· ≠ a) = B := List.filter_eq_self.mpr fun y hy => by
    simpa using ne_of_mem_of_not_mem hy (List.nodup_cons.mp hnB).1
  rw [List.filter_append, List.filter_cons_of_neg (by simp), hA, hB]

variable {α : Type*}

/-- The two pointers of every node. -/
structure Links (α : Type*) where
  next : α → Option α
  prev : α → Option α

namespace Links

/-- The nodes of `L` are linked, with `p` before the first and `q` behind the last. -/
def Seg (l : Links α) : Option α → List α → Option α → Prop
  | _, [], _ => True
  | p, x :: L, q => l.prev x = p ∧ l.next x = L.head?.or q ∧ Seg l (some x) L q

/-- `first` is the first node of the linked list `L`. -/
structure IsList (l : Links α) (first : Option α) (L : List α) : Prop where
  nodup : L.Nodup
  first : first = L.head?
  seg : l.Seg none L none

/-- The nodes met from `x` on, `n` of them at most. -/
def follow (l : Links α) : ℕ → Option α → List α
  | 0, _ => []
  | _ + 1, none => []
  | n + 1, some x => x :: follow l n (l.next x)

variable {l l' : Links α} {p q : Option α} {L A B : List α}

theorem seg_append : l.Seg p (A ++ B) q ↔ l.Seg p A (B.head?.or q) ∧ l.Seg (A.getLast?.or p) B q := by
  induction A generalizing p with
  | nil => simp [Seg]
  | cons a A ih =>
    have hhead : (A ++ B).head?.or q = A.head?.or (B.head?.or q) := by
      rw [List.head?_append, Option.or_assoc]
    have hlast : ((a :: A).getLast?.or p) = A.getLast?.or (some a) := by
      rw [List.getLast?_cons]
      cases A.getLast? <;> rfl
    rw [List.cons_append, Seg, Seg, ih, hhead, hlast]
    simp only [and_assoc]

theorem Seg.congr (h : l.Seg p L q) (hl : ∀ x ∈ L, l'.next x = l.next x ∧ l'.prev x = l.prev x) :
    l'.Seg p L q := by
  induction L generalizing p with
  | nil => trivial
  | cons x L ih =>
    obtain ⟨hprev, hnext, hrest⟩ := h
    obtain ⟨hn, hp⟩ := hl x List.mem_cons_self
    exact ⟨hp.trans hprev, hn.trans hnext, ih hrest fun y hy => hl y (List.mem_cons_of_mem _ hy)⟩

/-- The pointer of the last node is changed. -/
theorem Seg.setLast (h : l.Seg p L q) (hnodup : L.Nodup) {q' : Option α}
    (hprev : ∀ x ∈ L, l'.prev x = l.prev x)
    (hlast : ∀ x ∈ L, L.getLast? = some x → l'.next x = q')
    (hnext : ∀ x ∈ L, L.getLast? ≠ some x → l'.next x = l.next x) : l'.Seg p L q' := by
  induction L generalizing p with
  | nil => trivial
  | cons x L ih =>
    obtain ⟨hp, hn, hrest⟩ := h
    obtain ⟨hx, hnodup⟩ := List.nodup_cons.mp hnodup
    have htail : ∀ y ∈ L, (x :: L).getLast? = some y ↔ L.getLast? = some y := by
      intro y hy
      rw [List.getLast?_cons]
      cases hL : L.getLast? with
      | none => exact absurd (List.getLast?_eq_none_iff.mp hL ▸ hy) List.not_mem_nil
      | some z => rfl
    refine ⟨(hprev x List.mem_cons_self).trans hp, ?_, ih hrest hnodup ?_ ?_ ?_⟩
    · cases L with
      | nil => exact hlast x List.mem_cons_self rfl
      | cons y L =>
        rw [hnext x List.mem_cons_self, hn]
        · rfl
        · intro heq
          exact hx (List.mem_of_getLast? (by rwa [List.getLast?_cons_cons] at heq))
    · exact fun y hy => hprev y (List.mem_cons_of_mem _ hy)
    · exact fun y hy heq => hlast y (List.mem_cons_of_mem _ hy) ((htail y hy).mpr heq)
    · exact fun y hy hne => hnext y (List.mem_cons_of_mem _ hy) fun heq => hne ((htail y hy).mp heq)

/-- The pointer of the first node is changed. -/
theorem Seg.setFirst (h : l.Seg p L q) (hnodup : L.Nodup) {p' : Option α}
    (hnext : ∀ x ∈ L, l'.next x = l.next x)
    (hfirst : ∀ x ∈ L, L.head? = some x → l'.prev x = p')
    (hprev : ∀ x ∈ L, L.head? ≠ some x → l'.prev x = l.prev x) : l'.Seg p' L q := by
  cases L with
  | nil => trivial
  | cons x L =>
    obtain ⟨-, hn, hrest⟩ := h
    refine ⟨hfirst x List.mem_cons_self rfl, (hnext x List.mem_cons_self).trans hn, ?_⟩
    refine hrest.congr fun y hy => ⟨hnext y (List.mem_cons_of_mem _ hy), ?_⟩
    refine hprev y (List.mem_cons_of_mem _ hy) fun heq => ?_
    obtain rfl : x = y := Option.some.inj heq
    exact (List.nodup_cons.mp hnodup).1 hy

/-- The pointers of a node in the middle of a list. -/
theorem Seg.pointers {x : α} (h : l.Seg p (A ++ x :: B) q) :
    l.prev x = A.getLast?.or p ∧ l.next x = B.head?.or q := by
  obtain ⟨-, hprev, hnext, -⟩ := seg_append.mp h
  exact ⟨hprev, hnext⟩

/-- Following `next` meets the nodes of a segment, and then what is behind it. -/
theorem Seg.follow (h : l.Seg p L q) (n : ℕ) :
    l.follow (L.length + n) (L.head?.or q) = L ++ l.follow n q := by
  induction L generalizing p with
  | nil => rw [List.length_nil, Nat.zero_add]; rfl
  | cons x L ih =>
    obtain ⟨-, hnext, hrest⟩ := h
    rw [List.length_cons, Nat.add_right_comm]
    change x :: l.follow (L.length + n) (l.next x) = x :: (L ++ l.follow n q)
    rw [hnext, ih hrest]

/-- Following `next` from the first node meets the list, and comes to an end. -/
theorem IsList.follow {first : Option α} (h : l.IsList first L) {n : ℕ} (hn : L.length ≤ n) :
    l.follow n first = L := by
  obtain ⟨k, rfl⟩ := Nat.exists_eq_add_of_le hn
  have hall := h.seg.follow k
  rw [Option.or_none, ← h.first] at hall
  rw [hall]
  cases k <;> exact List.append_nil L

/-- The nodes of `L` are linked by `next`; what `prev` says does not matter. -/
def Fwd (l : Links α) : List α → Prop
  | [] => True
  | x :: L => l.next x = L.head? ∧ Fwd l L

theorem Seg.fwd (h : l.Seg p L none) : l.Fwd L := by
  induction L generalizing p with
  | nil => trivial
  | cons x L ih => exact ⟨h.2.1.trans Option.or_none, ih h.2.2⟩

theorem Fwd.congr (h : l.Fwd L) (hl : ∀ x ∈ L, l'.next x = l.next x) : l'.Fwd L := by
  induction L with
  | nil => trivial
  | cons x L ih =>
    exact ⟨(hl x List.mem_cons_self).trans h.1, ih h.2 fun y hy => hl y (List.mem_cons_of_mem _ hy)⟩

/-! ### Changing pointers -/

variable [DecidableEq α]

/-- The pointer `next` of a node, if there is a node, is set. -/
def setNext (l : Links α) (x : Option α) (y : Option α) : Links α :=
  match x with
  | none => l
  | some x => { l with next := Function.update l.next x y }

/-- The pointer `prev` of a node, if there is a node, is set. -/
def setPrev (l : Links α) (x : Option α) (y : Option α) : Links α :=
  match x with
  | none => l
  | some x => { l with prev := Function.update l.prev x y }

/-- Node `x` is put between `p` and `q`. -/
def insert (l : Links α) (x : α) (p q : Option α) : Links α :=
  (((l.setNext (some x) q).setPrev (some x) p).setNext p (some x)).setPrev q (some x)

/-- Node `x` is taken out. -/
def unlink (l : Links α) (x : α) : Links α :=
  (l.setNext (l.prev x) (l.next x)).setPrev (l.next x) (l.prev x)

@[simp] theorem setNext_prev (x y : Option α) : (l.setNext x y).prev = l.prev := by
  cases x <;> rfl

@[simp] theorem setPrev_next (x y : Option α) : (l.setPrev x y).next = l.next := by
  cases x <;> rfl

theorem setNext_next (x : Option α) (y : Option α) (z : α) :
    (l.setNext x y).next z = if x = some z then y else l.next z := by
  cases x with
  | none => rfl
  | some x =>
    rcases eq_or_ne z x with rfl | hne
    · rw [if_pos rfl]
      exact Function.update_self _ _ _
    · rw [if_neg fun heq => hne (Option.some.inj heq).symm]
      exact Function.update_of_ne hne _ _

theorem setPrev_prev (x : Option α) (y : Option α) (z : α) :
    (l.setPrev x y).prev z = if x = some z then y else l.prev z := by
  cases x with
  | none => rfl
  | some x =>
    rcases eq_or_ne z x with rfl | hne
    · rw [if_pos rfl]
      exact Function.update_self _ _ _
    · rw [if_neg fun heq => hne (Option.some.inj heq).symm]
      exact Function.update_of_ne hne _ _

theorem insert_next (x : α) (p q : Option α) (z : α) :
    (l.insert x p q).next z
      = if p = some z then some x else if z = x then q else l.next z := by
  rw [Links.insert, setPrev_next, setNext_next, setPrev_next, setNext_next]
  simp only [Option.some.injEq, eq_comm]

theorem insert_prev (x : α) (p q : Option α) (z : α) :
    (l.insert x p q).prev z
      = if q = some z then some x else if z = x then p else l.prev z := by
  rw [Links.insert, setPrev_prev, setNext_prev, setPrev_prev, setNext_prev]
  simp only [Option.some.injEq, eq_comm]

theorem unlink_next (x z : α) :
    (l.unlink x).next z = if l.prev x = some z then l.next x else l.next z := by
  rw [unlink, setPrev_next, setNext_next]

theorem unlink_prev (x z : α) :
    (l.unlink x).prev z = if l.next x = some z then l.prev x else l.prev z := by
  rw [unlink, setPrev_prev, setNext_prev]

/-- **A node is put into a list.** -/
theorem Seg.insert {x : α} (h : l.Seg none (A ++ B) none) (hnodup : (A ++ B).Nodup)
    (hx : x ∉ A ++ B) :
    (l.insert x A.getLast? B.head?).Seg none (A ++ x :: B) none := by
  obtain ⟨hA, hB⟩ := seg_append.mp h
  obtain ⟨hnA, hnB, hdisj⟩ := List.nodup_append.mp hnodup
  rw [List.mem_append, not_or] at hx
  rw [Option.or_none] at hA hB
  have hneA : ∀ y ∈ A, B.head? ≠ some y := fun y hy heq =>
    hdisj y hy y (List.mem_of_mem_head? heq) rfl
  have hneB : ∀ y ∈ B, A.getLast? ≠ some y := fun y hy heq =>
    hdisj y (List.mem_of_getLast? heq) y hy rfl
  have hlast : A.getLast? ≠ some x := fun heq => hx.1 (List.mem_of_getLast? heq)
  have hhead : B.head? ≠ some x := fun heq => hx.2 (List.mem_of_mem_head? heq)
  rw [seg_append]
  constructor
  · refine hA.setLast hnA (fun y hy => ?_) (fun y hy heq => ?_) (fun y hy hne => ?_)
    · rw [insert_prev, if_neg (hneA y hy), if_neg (ne_of_mem_of_not_mem hy hx.1)]
    · rw [insert_next, if_pos heq]
      rfl
    · rw [insert_next, if_neg hne, if_neg (ne_of_mem_of_not_mem hy hx.1)]
  · refine ⟨?_, ?_, hB.setFirst hnB (fun y hy => ?_) (fun y hy heq => ?_) (fun y hy hne => ?_)⟩
    · rw [insert_prev, if_neg hhead, if_pos rfl, Option.or_none]
    · rw [insert_next, if_neg hlast, if_pos rfl, Option.or_none]
    · rw [insert_next, if_neg (hneB y hy), if_neg (ne_of_mem_of_not_mem hy hx.2)]
    · rw [insert_prev, if_pos heq]
    · rw [insert_prev, if_neg hne, if_neg (ne_of_mem_of_not_mem hy hx.2)]

/-- **A node is taken out of a list.** -/
theorem Seg.unlink {x : α} (h : l.Seg none (A ++ x :: B) none) (hnodup : (A ++ x :: B).Nodup) :
    (l.unlink x).Seg none (A ++ B) none := by
  obtain ⟨hprev, hnext⟩ := h.pointers
  rw [Option.or_none] at hprev hnext
  obtain ⟨hA, -, -, hB⟩ := seg_append.mp h
  obtain ⟨hnA, hnxB, hdisj⟩ := List.nodup_append.mp hnodup
  obtain ⟨-, hnB⟩ := List.nodup_cons.mp hnxB
  have hneA : ∀ y ∈ A, B.head? ≠ some y := fun y hy heq =>
    hdisj y hy y (List.mem_cons_of_mem _ (List.mem_of_mem_head? heq)) rfl
  have hneB : ∀ y ∈ B, A.getLast? ≠ some y := fun y hy heq =>
    hdisj y (List.mem_of_getLast? heq) y (List.mem_cons_of_mem _ hy) rfl
  rw [seg_append, Option.or_none, Option.or_none]
  constructor
  · refine hA.setLast hnA (fun y hy => ?_) (fun y hy heq => ?_) (fun y hy hne => ?_)
    · rw [unlink_prev, hnext, if_neg (hneA y hy)]
    · rw [unlink_next, hprev, if_pos heq, hnext]
    · rw [unlink_next, hprev, if_neg hne]
  · refine hB.setFirst hnB (fun y hy => ?_) (fun y hy heq => ?_) (fun y hy hne => ?_)
    · rw [unlink_next, hprev, if_neg (hneB y hy)]
    · rw [unlink_prev, hnext, if_pos heq, hprev]
    · rw [unlink_prev, hnext, if_neg hne]

end Links

/-! ### Blocks -/

namespace List

variable {β : Type*} [DecidableEq β] {f : α → β} {L A B : List α} {x b : α} {h : β}

/-- The elements that `f` sends to `h`. -/
def group (f : α → β) (h : β) (L : List α) : List α := L.filter fun x => decide (f x = h)

/-- The elements that `f` sends to one value stand next to each other. -/
def Blocks (f : α → β) (L : List α) : Prop := ∀ h, L.group f h <:+: L

theorem mem_group : x ∈ L.group f h ↔ x ∈ L ∧ f x = h := by
  rw [group, mem_filter, decide_eq_true_eq]

theorem group_append : (A ++ B).group f h = A.group f h ++ B.group f h := filter_append _ _

theorem group_cons_self (h : f x = y) : (x :: L).group f y = x :: L.group f y :=
  filter_cons_of_pos (by simpa using h)

theorem group_cons_of_ne (h : f x ≠ y) : (x :: L).group f y = L.group f y :=
  filter_cons_of_neg (by simpa using h)

/-- An element comes to the front that has no block yet. -/
theorem Blocks.cons (hL : L.Blocks f) (hx : L.group f (f x) = []) : (x :: L).Blocks f := by
  intro h
  by_cases heq : f x = h
  · rw [group_cons_self heq, ← heq, hx]
    exact (prefix_append [x] L).isInfix
  · rw [group_cons_of_ne heq]
    exact (hL h).trans (suffix_cons x L).isInfix

/-- An element comes to the end that has no block yet. -/
theorem Blocks.concat (hL : L.Blocks f) (hx : L.group f (f x) = []) : (L ++ [x]).Blocks f := by
  intro h
  rw [group_append]
  by_cases heq : f x = h
  · rw [← heq, hx, group_cons_self rfl]
    exact (suffix_append L [x]).isInfix
  · rw [group_cons_of_ne heq]
    exact (append_nil (L.group f h)).symm ▸ (hL h).trans (prefix_append L [x]).isInfix

theorem Blocks.congr {g : α → β} (hL : L.Blocks f) (hfg : ∀ x ∈ L, g x = f x) : L.Blocks g := by
  intro h
  have heq : L.group g h = L.group f h := filter_congr fun x hx => by rw [hfg x hx]
  exact heq ▸ hL h

/-- An element is put before the first of its block. -/
theorem Blocks.insert (hL : (A ++ b :: B).Blocks f) (hx : f x = f b)
    (hhead : ((A ++ b :: B).group f (f b)).head? = some b) (hnodup : (A ++ b :: B).Nodup) :
    (A ++ x :: b :: B).Blocks f := by
  intro h
  by_cases heq : f x = h
  · -- no element of the block stands before `b`
    have hA : A.group f h = [] := by
      rw [← heq, hx]
      rw [group_append] at hhead
      cases hcase : A.group f (f b) with
      | nil => rfl
      | cons y Y =>
        rw [hcase] at hhead
        obtain rfl : y = b := Option.some.inj hhead
        have hy : y ∈ A := (mem_group.mp (hcase ▸ mem_cons_self)).1
        exact absurd rfl ((nodup_append.mp hnodup).2.2 y hy y mem_cons_self)
    have hin := hL h
    rw [group_append, hA, nil_append, group_cons_self (hx ▸ heq)] at hin
    have hpre := prefix_of_infix_append_cons hin hnodup
    rw [group_append, hA, nil_append, group_cons_self heq, group_cons_self (hx ▸ heq)]
    exact (cons_prefix_cons.mpr ⟨rfl, hpre⟩).isInfix.trans (suffix_append A _).isInfix
  · rw [group_append, group_cons_of_ne heq, ← group_append]
    have hb : b ∉ (A ++ b :: B).group f h := fun hin => heq (hx.trans (mem_group.mp hin).2)
    rcases infix_of_append_cons (hL h) hb with hcase | hcase
    · exact hcase.trans (prefix_append A _).isInfix
    · have hsuffix : B <:+ x :: b :: B := (suffix_cons b B).trans (suffix_cons x _)
      exact hcase.trans (hsuffix.trans (suffix_append A _)).isInfix

/-- An element is taken out. -/
theorem Blocks.filter (hL : L.Blocks f) (P : α → Bool) : (L.filter P).Blocks f := by
  intro h
  rw [group, filter_comm]
  exact (hL h).filter P

end List

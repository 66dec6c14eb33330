import SqliteVms.Fts3.Balance
import Mathlib.Tactic.Abel

/-!
# The trees that are balanced, in memory

While a query tree is balanced, its nodes are in the trees of `apLeaf`, in a list of free nodes and
in what is left of the old tree, with a hole where the last leaf was. Every step of
`fts3ExprBalance` moves nodes between them.

## Main definitions

* `Parts` — the trees of `apLeaf`, one more tree and the free nodes, in memory
* `Counter` — place `i` of `apLeaf` has a tree of 2^i leaves

## Main results

* `carry_spec`, `gather_spec` — trees are joined, and the leaves keep their order
* `detach_spec`, `advance_spec` — a leaf is taken out of the tree, and then its parent
* `cleanup_spec` — every node is deleted once
-/

namespace SqliteVms

namespace Fts3

namespace Balance

open ParentTree

variable {eType : ℕ → ExprType} {fuel : ℕ} {e : ExprType} {t t' l r : PTree} {i : ℕ} {m m' : Memory}
  {sp : Spine}

/-! ### The trees and the free nodes in memory -/

theorem eq_of_frame {S U : Multiset ℕ} (hnd : (S + U).Nodup) (hframe : ∀ i ∉ S, m' i = m i) :
    ∀ i ∈ U, m' i = m i := by
  intro i hi
  refine hframe i fun hS => ?_
  exact Multiset.disjoint_left.mp (Multiset.nodup_add.mp hnd).2.2 hS hi

/-- The free nodes are linked by their parent pointers. -/
def FreeList (m : Memory) : Option ℕ → List ℕ → Prop
  | pFree, [] => pFree = none
  | pFree, f :: fs => pFree = some f ∧ FreeList m (m f).up fs

/-- The trees of `apLeaf`, an empty place for an empty tree, in memory. -/
def RepAll (m : Memory) (ls : List PTree) : Prop := ∀ x ∈ ls, Rep m none x

/-- The nodes in the trees. -/
def allIds (ls : List PTree) : Multiset ℕ := (ls.map PTree.ids).sum

/-- The leaves of the trees: a tree in a higher place is further left. -/
def allLeaves (eType : ℕ → ExprType) (e : ExprType) : List PTree → List PTree
  | [] => []
  | x :: ls => allLeaves eType e ls ++ leaves eType e x

/-- The operator nodes of the trees. -/
def allOps (eType : ℕ → ExprType) (e : ExprType) (ls : List PTree) : Multiset ℕ :=
  (ls.map (ops eType e)).sum

/-- The places that are not empty. -/
def count (ls : List PTree) : ℕ := ls.countP (· ≠ .nil)

/-- A tree of 2^k leaves, each at depth `k`. -/
def Full (eType : ℕ → ExprType) (e : ExprType) (k : ℕ) (t : PTree) : Prop :=
  height eType e t = k ∧ (leaves eType e t).length = 2 ^ k

/-- A place has a tree with twice as many leaves as the place before it would have. -/
def Counter (eType : ℕ → ExprType) (e : ExprType) : ℕ → List PTree → Prop
  | _, [] => True
  | k, x :: ls => (x ≠ .nil → Full eType e k x) ∧ Counter eType e (k + 1) ls

variable {pFree p : Option ℕ} {fs : List ℕ} {x : PTree} {ls : List PTree} {f q k : ℕ}

@[simp] theorem allIds_nil : allIds [] = 0 := rfl

@[simp] theorem allIds_cons (x : PTree) (ls : List PTree) :
    allIds (x :: ls) = x.ids + allIds ls := by
  rw [allIds, List.map_cons, List.sum_cons, allIds]

@[simp] theorem allOps_nil : allOps eType e [] = 0 := rfl

@[simp] theorem allOps_cons (x : PTree) (ls : List PTree) :
    allOps eType e (x :: ls) = ops eType e x + allOps eType e ls := by
  rw [allOps, List.map_cons, List.sum_cons, allOps]

@[simp] theorem count_nil_cons (ls : List PTree) : count (.nil :: ls) = count ls :=
  List.countP_cons_of_neg (by simp)

theorem count_cons (h : x ≠ .nil) (ls : List PTree) : count (x :: ls) = count ls + 1 :=
  List.countP_cons_of_pos (by simpa using h)

theorem FreeList.congr (h : FreeList m pFree fs) (heq : ∀ i ∈ (fs : Multiset ℕ), m' i = m i) :
    FreeList m' pFree fs := by
  induction fs generalizing pFree with
  | nil => exact h
  | cons f fs ih =>
    refine ⟨h.1, ?_⟩
    rw [heq f (Multiset.mem_coe.mpr List.mem_cons_self)]
    refine ih h.2 fun i hi => heq i ?_
    exact Multiset.mem_coe.mpr (List.mem_cons_of_mem _ (Multiset.mem_coe.mp hi))

theorem repAll_cons : RepAll m (x :: ls) ↔ Rep m none x ∧ RepAll m ls := List.forall_mem_cons

theorem mem_allIds (hx : x ∈ ls) (hi : i ∈ x.ids) : i ∈ allIds ls := by
  induction ls with
  | nil => exact absurd hx List.not_mem_nil
  | cons y ls ih =>
    rw [allIds_cons, Multiset.mem_add]
    rcases List.mem_cons.mp hx with rfl | hx
    · exact Or.inl hi
    · exact Or.inr (ih hx)

theorem RepAll.congr (h : RepAll m ls) (heq : ∀ i ∈ allIds ls, m' i = m i) : RepAll m' ls := by
  intro x hx
  exact (h x hx).congr fun i hi => heq i (mem_allIds hx hi)

theorem leaves_length_pos (he : IsOp e) (hne : t ≠ .nil) (hb : Binary eType t) :
    0 < (leaves eType e t).length := by
  have h := leaves_descend he hne hb []
  rw [spineLeaves, List.append_nil] at h
  rw [h]
  exact Nat.succ_pos _

/-- A free node becomes the root of a new tree. -/
theorem useFree_spec (hl : Rep m none l) (hr : Rep m none r) (hq : l.ptr = some q)
    (hi : r.ptr = some i) (hnd : (PTree.node f l r).ids.Nodup) :
    Rep (useFree m f q i).1 none (.node f l r) ∧ (useFree m f q i).2 = (m f).up ∧
      ∀ j ∉ (PTree.node f l r).ids, (useFree m f q i).1 j = m j := by
  have hql := PTree.mem_ids_of_ptr hq
  have hir := PTree.mem_ids_of_ptr hi
  obtain ⟨hfl, hfr⟩ := PTree.notMem_of_nodup hnd
  obtain ⟨hndl, hndr, hdisj⟩ := Multiset.nodup_add.mp (Multiset.nodup_cons.mp hnd).2
  have hqf : f ≠ q := fun h => hfl (h ▸ hql)
  have hif : f ≠ i := fun h => hfr (h ▸ hir)
  have hqi : q ≠ i := fun h => Multiset.disjoint_left.mp hdisj hql (h ▸ hir)
  have hvalue : ∀ j, (useFree m f q i).1 j =
      if j = f then ⟨none, some q, some i⟩ else
      if j = q ∨ j = i then { m j with up := some f } else m j := by
    intro j
    simp only [useFree, Memory.setUp, Memory.setLeft, Memory.setRight, Function.update_apply]
    grind
  refine ⟨⟨?_, ?_, ?_, ?_, ?_⟩, ?_, ?_⟩
  · rw [hvalue, if_pos rfl]
  · rw [hvalue, if_pos rfl, hq]
  · rw [hvalue, if_pos rfl, hi]
  · refine (hl.setUp hndl hq (some f)).congr fun j hj => ?_
    have hjf : j ≠ f := fun h => hfl (h ▸ hj)
    have hji : j ≠ i := fun h => Multiset.disjoint_left.mp hdisj hj (h ▸ hir)
    rw [hvalue, if_neg hjf, Memory.setUp, Function.update_apply]
    by_cases hjq : j = q
    · rw [if_pos (Or.inl hjq), if_pos hjq, hjq]
    · rw [if_neg (not_or.mpr ⟨hjq, hji⟩), if_neg hjq]
  · refine (hr.setUp hndr hi (some f)).congr fun j hj => ?_
    have hjf : j ≠ f := fun h => hfr (h ▸ hj)
    have hjq : j ≠ q := fun h => Multiset.disjoint_left.mp hdisj hql (h ▸ hj)
    rw [hvalue, if_neg hjf, Memory.setUp, Function.update_apply]
    by_cases hji : j = i
    · rw [if_pos (Or.inr hji), if_pos hji, hji]
    · rw [if_neg (not_or.mpr ⟨hjq, hji⟩), if_neg hji]
  · simp only [useFree, Memory.setUp, Memory.setLeft, Memory.setRight, Function.update_apply]
    grind
  · intro j hj
    rw [PTree.ids_node, Multiset.mem_cons, Multiset.mem_add, not_or, not_or] at hj
    obtain ⟨hjf, hjl, hjr⟩ := hj
    rw [hvalue, if_neg hjf, if_neg]
    exact not_or.mpr ⟨fun h => hjl (h ▸ hql), fun h => hjr (h ▸ hir)⟩

/-! ### The binary counter -/

theorem leaves_node (h : eType i = e) (l r : PTree) :
    leaves eType e (.node i l r) = leaves eType e l ++ leaves eType e r := if_pos h

theorem leaves_node_of_ne (h : eType i ≠ e) (l r : PTree) :
    leaves eType e (.node i l r) = [.node i l r] := if_neg h

theorem ops_node (h : eType i = e) (l r : PTree) :
    ops eType e (.node i l r) = i ::ₘ (ops eType e l + ops eType e r) := if_pos h

theorem height_node (h : eType i = e) (l r : PTree) :
    height eType e (.node i l r) = max (height eType e l) (height eType e r) + 1 := if_pos h

/-- The nodes of the trees and the free nodes. -/
def partIds (ls : List PTree) (t : PTree) (fs : List ℕ) : Multiset ℕ := allIds ls + t.ids + fs

/-- The trees of `apLeaf`, one more tree, and the free nodes, all apart. -/
structure Parts (m : Memory) (ls : List PTree) (t : PTree) (pFree : Option ℕ) (fs : List ℕ) :
    Prop where
  trees : RepAll m ls
  tree : Rep m none t
  free : FreeList m pFree fs
  nodup : (partIds ls t fs).Nodup

theorem partIds_use (x : PTree) (ls : List PTree) (t : PTree) (f : ℕ) (fs : List ℕ) :
    partIds ls (.node f x t) fs = partIds (x :: ls) t (f :: fs) := by
  simp only [partIds, allIds_cons, PTree.ids_node, ← Multiset.cons_coe, Multiset.cons_add,
    Multiset.add_cons]
  refine congrArg (f ::ₘ ·) ?_
  abel

theorem partIds_node (ls : List PTree) (t : PTree) (fs : List ℕ) :
    partIds ls t fs = t.ids + (allIds ls + fs) := by
  rw [partIds]
  abel

/-- An empty place does not count. -/
theorem parts_nil_cons : Parts m (.nil :: ls) t pFree fs ↔ Parts m ls t pFree fs := by
  have hids : partIds (.nil :: ls) t fs = partIds ls t fs := by
    rw [partIds, allIds_cons, PTree.ids_nil, zero_add, partIds]
  constructor
  · intro h
    exact ⟨(repAll_cons.mp h.trees).2, h.tree, h.free, hids ▸ h.nodup⟩
  · intro h
    exact ⟨repAll_cons.mpr ⟨trivial, h.trees⟩, h.tree, h.free, hids ▸ h.nodup⟩

/-- A place and the tree are joined below a free node. -/
theorem Parts.use (h : Parts m (x :: ls) t pFree (f :: fs)) (hq : x.ptr = some q)
    (hi : t.ptr = some i) :
    Parts (useFree m f q i).1 ls (.node f x t) (useFree m f q i).2 fs ∧
      ∀ j ∉ partIds (x :: ls) t (f :: fs), (useFree m f q i).1 j = m j := by
  obtain ⟨htrees, htree, ⟨-, hfree⟩, hnd⟩ := h
  obtain ⟨hx, hls⟩ := repAll_cons.mp htrees
  rw [← partIds_use, partIds_node] at hnd ⊢
  obtain ⟨hrep, hup, hframe⟩ := useFree_spec hx htree hq hi (Multiset.nodup_add.mp hnd).1
  have heq := eq_of_frame hnd hframe
  refine ⟨⟨hls.congr fun j hj => heq j ?_, hrep, ?_, ?_⟩, fun j hj => hframe j fun hn => hj ?_⟩
  · exact Multiset.mem_add.mpr (Or.inl hj)
  · rw [hup]
    exact hfree.congr fun j hj => heq j (Multiset.mem_add.mpr (Or.inr hj))
  · rwa [partIds_node]
  · exact Multiset.mem_add.mpr (Or.inl hn)

theorem Full.node (hf : eType f = e) (hx : Full eType e k x) (ht : Full eType e k t) :
    Full eType e (k + 1) (.node f x t) := by
  refine ⟨?_, ?_⟩
  · rw [height_node hf, hx.1, ht.1, Nat.max_self]
  · rw [leaves_node hf, List.length_append, hx.2, ht.2, Nat.pow_succ, Nat.mul_two]

/-- A tree is added to the counter: no leaf changes its place, and a free node is used for every
carry. -/
theorem carry_spec (h : Parts m ls t pFree fs) (hi : t.ptr = some i) (hc : Counter eType e k ls)
    (ht : Full eType e k t) (hn : count ls ≤ fs.length) (hfs : ∀ f ∈ fs, eType f = e) :
    ∃ ls' t' m' pFree' fs', carry (ls.map PTree.ptr) (some i) m pFree =
        some (ls'.map PTree.ptr, t'.ptr, m', pFree') ∧
      Parts m' ls' t' pFree' fs' ∧ partIds ls' t' fs' = partIds ls t fs ∧
      (∀ j ∉ partIds ls t fs, m' j = m j) ∧ (∀ f ∈ fs', eType f = e) ∧
      Counter eType e k ls' ∧
      (t' = .nil → allLeaves eType e ls' = allLeaves eType e ls ++ leaves eType e t ∧
        allOps eType e ls' + fs' = allOps eType e ls + ops eType e t + fs ∧
        fs'.length + 1 + count ls = fs.length + count ls') := by
  induction ls generalizing t i m pFree fs k with
  | nil =>
    refine ⟨[], t, m, pFree, fs, ?_, h, rfl, fun _ _ => rfl, hfs, trivial, ?_⟩
    · rw [hi]
      rfl
    · intro hnil
      rw [hnil] at hi
      nomatch hi
  | cons x ls ih =>
    by_cases hx : x = .nil
    · -- the place is empty
      subst hx
      refine ⟨t :: ls, .nil, m, pFree, fs, ?_, ?_, ?_, fun _ _ => rfl, hfs,
        ⟨fun _ => ht, hc.2⟩, fun _ => ⟨?_, ?_, ?_⟩⟩
      · rw [List.map_cons, List.map_cons, hi]
        rfl
      · have h' := parts_nil_cons.mp h
        refine ⟨repAll_cons.mpr ⟨h'.tree, h'.trees⟩, trivial, h'.free, ?_⟩
        rw [partIds, allIds_cons, PTree.ids_nil, add_zero, add_comm t.ids]
        exact h'.nodup
      · simp only [partIds, allIds_cons, PTree.ids_nil, add_zero, zero_add, add_comm t.ids]
      · simp only [allLeaves, leaves, List.append_nil]
      · simp only [allOps_cons, ops, zero_add, add_comm (ops eType e t)]
      · have hne : t ≠ .nil := fun hnil => by
          rw [hnil] at hi
          nomatch hi
        rw [count_nil_cons, count_cons hne]
        omega
    · -- a carry
      obtain ⟨q, hq⟩ : ∃ q, x.ptr = some q :=
        Option.ne_none_iff_exists'.mp (mt PTree.ptr_eq_none.mp hx)
      rw [count_cons hx] at hn
      cases fs with
      | nil => exact absurd hn (Nat.not_succ_le_zero _)
      | cons f fs =>
        obtain ⟨hf, hfs'⟩ := List.forall_mem_cons.mp hfs
        obtain ⟨hp, hframe⟩ := h.use hq hi
        obtain ⟨ls', t', m', pFree', fs', hcarry, hp', hids, hframe', hfs'', hc', hnil⟩ :=
          ih hp rfl hc.2 ((hc.1 hx).node hf ht) (by simpa using hn) hfs'
        rw [partIds_use] at hids hframe'
        have hids' : partIds (.nil :: ls') t' fs' = partIds ls' t' fs' := by
          rw [partIds, allIds_cons, PTree.ids_nil, zero_add, partIds]
        refine ⟨.nil :: ls', t', m', pFree', fs', ?_, parts_nil_cons.mpr hp', hids'.trans hids,
          fun j hj => (hframe' j hj).trans (hframe j hj), hfs'', ⟨absurd rfl, hc'⟩,
          fun ht' => ?_⟩
        · rw [h.free.1, List.map_cons, hq, carry, hcarry]
          rfl
        · obtain ⟨hleaves, hops, hlen⟩ := hnil ht'
          rw [leaves_node hf] at hleaves
          rw [ops_node hf] at hops
          refine ⟨?_, ?_, ?_⟩
          · rw [allLeaves, hleaves, leaves, List.append_nil, allLeaves, List.append_assoc]
          · rw [allOps_cons, ops, zero_add, hops, allOps_cons, ← Multiset.cons_coe,
              Multiset.add_cons, Multiset.cons_add, Multiset.add_cons]
            refine congrArg (f ::ₘ ·) ?_
            abel
          · rw [count_nil_cons, count_cons hx, List.length_cons]
            omega

/-- The trees of the counter are joined, with the higher places on the left. -/
theorem gather_spec (h : Parts m ls t pFree fs) (hc : Counter eType e k ls)
    (hlow : t ≠ .nil → height eType e t ≤ k ∧ 0 < (leaves eType e t).length)
    (hheight : height eType e t ≤ Nat.clog 2 (leaves eType e t).length)
    (hn : fs.length + 1 = count (t :: ls)) (hfs : ∀ f ∈ fs, eType f = e) :
    ∃ t' m', gather (ls.map PTree.ptr) t.ptr m pFree = some (t'.ptr, m', none) ∧
      Rep m' none t' ∧ t'.ids = partIds ls t fs ∧ (∀ j ∉ partIds ls t fs, m' j = m j) ∧
      leaves eType e t' = allLeaves eType e ls ++ leaves eType e t ∧
      ops eType e t' = allOps eType e ls + ops eType e t + fs ∧
      height eType e t' ≤ Nat.clog 2 (leaves eType e t').length := by
  induction ls generalizing t m pFree fs k with
  | nil =>
    have hfs : fs = [] := by
      have hle : count [t] ≤ 1 := List.countP_le_length
      exact List.length_eq_zero_iff.mp (by omega)
    subst hfs
    have hfree : pFree = none := h.free
    refine ⟨t, m, ?_, h.tree, ?_, fun _ _ => rfl, rfl, ?_, hheight⟩
    · rw [hfree]
      rfl
    · rw [partIds, allIds_nil, zero_add, Multiset.coe_nil, add_zero]
    · rw [allOps_nil, zero_add, Multiset.coe_nil, add_zero]
  | cons x ls ih =>
    by_cases hx : x = .nil
    · subst hx
      have hids : partIds (.nil :: ls) t fs = partIds ls t fs := by
        rw [partIds, allIds_cons, PTree.ids_nil, zero_add, partIds]
      have hn' : fs.length + 1 = count (t :: ls) := by
        by_cases ht : t = .nil
        · simpa [ht] using hn
        · rwa [count_cons ht, count_nil_cons, ← count_cons ht] at hn
      obtain ⟨t', m', hg, hrep, hids', hframe, hl, ho, hh⟩ :=
        ih (parts_nil_cons.mp h) hc.2
          (fun ht => ⟨(hlow ht).1.trans (Nat.le_succ k), (hlow ht).2⟩) hheight hn' hfs
      refine ⟨t', m', ?_, hrep, hids'.trans hids.symm, hids ▸ hframe, ?_, ?_, hh⟩
      · rw [List.map_cons]
        exact hg
      · rw [hl, allLeaves, leaves, List.append_nil]
      · rw [ho, allOps_cons, ops, zero_add]
    · obtain ⟨q, hq⟩ : ∃ q, x.ptr = some q :=
        Option.ne_none_iff_exists'.mp (mt PTree.ptr_eq_none.mp hx)
      obtain ⟨hxh, hxl⟩ := hc.1 hx
      by_cases ht : t = .nil
      · -- the first tree
        subst ht
        obtain ⟨hx1, hls⟩ := repAll_cons.mp h.trees
        have hids : partIds (x :: ls) .nil fs = partIds ls x fs := by
          simp only [partIds, allIds_cons, PTree.ids_nil, add_zero, add_comm x.ids]
        have hnd : (x.ids + (allIds ls + fs)).Nodup := by
          rw [← partIds_node, ← hids]
          exact h.nodup
        have hframe : ∀ j ∉ x.ids, m.setUp q none j = m j := fun j hj =>
          m.setUp_of_ne none fun heq => hj (heq ▸ PTree.mem_ids_of_ptr hq)
        have heq := eq_of_frame hnd hframe
        have hp : Parts (m.setUp q none) ls x pFree fs := by
          refine ⟨hls.congr fun j hj => heq j (Multiset.mem_add.mpr (Or.inl hj)),
            hx1.setUp (Multiset.nodup_add.mp hnd).1 hq none,
            h.free.congr fun j hj => heq j (Multiset.mem_add.mpr (Or.inr hj)), ?_⟩
          rwa [partIds_node]
        rw [count_nil_cons] at hn
        obtain ⟨t', m', hg, hrep, hids', hframe', hl, ho, hh⟩ :=
          ih hp hc.2 (fun _ => ⟨by omega, hxl ▸ Nat.two_pow_pos k⟩)
            (by rw [hxh, hxl, Nat.clog_pow 2 k Nat.one_lt_two]) hn hfs
        refine ⟨t', m', ?_, hrep, hids'.trans hids.symm, fun j hj => ?_, ?_, ?_, hh⟩
        · rw [List.map_cons, hq]
          rw [hq] at hg
          exact hg
        · rw [hids] at hj
          rw [hframe' j hj]
          refine hframe j fun hjx => hj ?_
          rw [partIds_node]
          exact Multiset.mem_add.mpr (Or.inl hjx)
        · rw [hl, allLeaves, leaves, List.append_nil]
        · rw [ho, allOps_cons, ops]
          abel
      · obtain ⟨i, hi⟩ : ∃ i, t.ptr = some i :=
          Option.ne_none_iff_exists'.mp (mt PTree.ptr_eq_none.mp ht)
        rw [count_cons ht, count_cons hx] at hn
        cases fs with
        | nil =>
          rw [List.length_nil] at hn
          omega
        | cons f fs =>
          obtain ⟨hf, hfs'⟩ := List.forall_mem_cons.mp hfs
          obtain ⟨hp, hframe⟩ := h.use hq hi
          obtain ⟨hth, htl⟩ := hlow ht
          have hnode : height eType e (.node f x t) = k + 1 := by
            rw [height_node hf, hxh, Nat.max_eq_left hth]
          have hlen : (leaves eType e (.node f x t)).length =
              2 ^ k + (leaves eType e t).length := by
            rw [leaves_node hf, List.length_append, hxl]
          have hclog : k + 1 ≤ Nat.clog 2 (2 ^ k + (leaves eType e t).length) :=
            (Nat.lt_clog_iff_pow_lt Nat.one_lt_two).mpr (by omega)
          rw [List.length_cons] at hn
          obtain ⟨t', m', hg, hrep, hids', hframe', hl, ho, hh⟩ :=
            ih hp hc.2 (fun _ => ⟨hnode.le, by omega⟩) (by rw [hnode, hlen]; exact hclog)
              (by rw [count_cons (by simp)]; omega) hfs'
          rw [partIds_use] at hids' hframe'
          refine ⟨t', m', ?_, hrep, hids', fun j hj => (hframe' j hj).trans (hframe j hj),
            ?_, ?_, hh⟩
          · rw [h.free.1, List.map_cons, hq, hi, gather]
            exact hg
          · rw [hl, leaves_node hf, allLeaves, List.append_assoc]
          · rw [ho, ops_node hf, allOps_cons, ← Multiset.cons_coe, Multiset.add_cons,
              Multiset.cons_add, Multiset.add_cons]
            refine congrArg (f ::ₘ ·) ?_
            abel

/-! ### What is deleted -/

variable {s : State} {pRoot : Option ℕ}

theorem exprFree_spec (h : Rep s.mem none t) (hnd : t.ids.Nodup) (hfuel : t.ids.card < fuel) :
    sqlite3Fts3ExprFree fuel s t.ptr = { s with freed := s.freed ++ t.post } := by
  cases t with
  | nil => rw [PTree.post, List.append_nil, PTree.ptr, sqlite3Fts3ExprFree]
  | node i l r =>
    rw [← PTree.coe_post, Multiset.coe_card] at hfuel
    rw [PTree.ptr_node, sqlite3Fts3ExprFree, walk_eq h hnd rfl hfuel]

theorem freeNodes_spec (h : FreeList m pFree fs) (hfuel : fs.length ≤ fuel) :
    freeNodes m fuel pFree = fs := by
  induction fs generalizing pFree fuel with
  | nil =>
    obtain rfl : pFree = none := h
    cases fuel with
    | zero => rfl
    | succ n => rfl
  | cons f fs ih =>
    obtain ⟨n, rfl⟩ : ∃ n, fuel = n + 1 := ⟨fuel - 1, by rw [List.length_cons] at hfuel; omega⟩
    rw [h.1, freeNodes, ih h.2 (Nat.le_of_succ_le_succ hfuel)]

/-- Every tree of `apLeaf` is deleted. -/
theorem foldl_exprFree (h : RepAll s.mem ls) (hnd : (allIds ls).Nodup)
    (hfuel : (allIds ls).card < fuel) :
    (ls.map PTree.ptr).foldl (sqlite3Fts3ExprFree fuel) s =
      { s with freed := s.freed ++ ls.flatMap PTree.post } := by
  induction ls generalizing s with
  | nil => rw [List.flatMap_nil, List.append_nil, List.map_nil, List.foldl_nil]
  | cons x ls ih =>
    rw [allIds_cons] at hnd hfuel
    rw [Multiset.card_add] at hfuel
    obtain ⟨hx, hls⟩ := repAll_cons.mp h
    obtain ⟨hndx, hndl, -⟩ := Multiset.nodup_add.mp hnd
    rw [List.map_cons, List.foldl_cons, exprFree_spec hx hndx (by omega)]
    rw [ih (s := { s with freed := s.freed ++ x.post }) hls hndl (by omega), List.flatMap_cons,
      List.append_assoc]

theorem coe_flatMap_post (ls : List PTree) :
    (ls.flatMap PTree.post : Multiset ℕ) = allIds ls := by
  induction ls with
  | nil => rfl
  | cons x ls ih => rw [List.flatMap_cons, ← Multiset.coe_add, PTree.coe_post, ih, allIds_cons]

/-- After an error every node is deleted once. -/
theorem cleanup_spec (h : Parts s.mem ls t pFree fs) (hfuel : (partIds ls t fs).card < fuel) :
    ∃ fr, cleanup fuel s (ls.map PTree.ptr) pFree t.ptr = { s with freed := s.freed ++ fr } ∧
      (fr : Multiset ℕ) = partIds ls t fs := by
  obtain ⟨htrees, htree, hfree, hnd⟩ := h
  rw [partIds] at hnd hfuel
  rw [Multiset.card_add, Multiset.card_add, Multiset.coe_card] at hfuel
  obtain ⟨hnd, -, -⟩ := Multiset.nodup_add.mp hnd
  obtain ⟨hndl, hndt, -⟩ := Multiset.nodup_add.mp hnd
  refine ⟨ls.flatMap PTree.post ++ (fs ++ t.post), ?_, ?_⟩
  · rw [cleanup, foldl_exprFree htrees hndl (by omega), freeNodes_spec hfree (by omega)]
    refine (exprFree_spec (by exact htree) hndt (by omega)).trans ?_
    simp only [List.append_assoc]
  · rw [← Multiset.coe_add, ← Multiset.coe_add, coe_flatMap_post, PTree.coe_post, partIds]
    abel

/-! ### A leaf is taken out -/

theorem plug_ptr (c : ℕ × PTree) (sp : Spine) (t t' : PTree) :
    (plug t (c :: sp)).ptr = (plug t' (c :: sp)).ptr := by
  induction sp generalizing c t t' with
  | nil => rfl
  | cons d sp ih =>
    rw [plug, plug]
    exact ih _ _ _

/-- The leaf becomes a tree of its own; there is nothing in its place. -/
theorem detach_spec (hl : Rep m (top sp) l) (ha : Around m (some i) sp) (hi : l.ptr = some i)
    (hnd : (l.ids + spineIds sp).Nodup) :
    (detach m i (plug l sp).ptr).2 = (top sp, (plug .nil sp).ptr) ∧
      Rep (detach m i (plug l sp).ptr).1 none l ∧
      Around (detach m i (plug l sp).ptr).1 none sp ∧
      ∀ j ∉ l.ids + spineIds sp, (detach m i (plug l sp).ptr).1 j = m j := by
  have hil := PTree.mem_ids_of_ptr hi
  obtain ⟨hndl, hnds, hdisj⟩ := Multiset.nodup_add.mp hnd
  have hup : (m i).up = top sp := by
    cases l with
    | nil => nomatch hi
    | node j ll lr =>
      obtain rfl := Option.some.inj hi
      exact hl.1
  have hrep := hl.setUp hndl hi none
  cases sp with
  | nil =>
    rw [detach, hup]
    refine ⟨rfl, hrep, trivial, fun j hj => m.setUp_of_ne none fun heq => hj ?_⟩
    rw [heq, spineIds_nil, add_zero]
    exact hil
  | cons c sp =>
    have hc : c.1 ∉ l.ids := fun h =>
      Multiset.disjoint_left.mp hdisj h (Multiset.mem_cons_self _ _)
    have hci : c.1 ≠ i := fun h => hc (h ▸ hil)
    rw [spineIds_cons] at hnds hdisj
    obtain ⟨hcs, -⟩ := Multiset.nodup_cons.mp hnds
    rw [Multiset.mem_add, not_or] at hcs
    have hup' : (m i).up = some c.1 := hup
    rw [detach, hup']
    dsimp only
    obtain ⟨haup, -, haright, hac, ha⟩ := ha
    have hother : ∀ j, j ≠ c.1 → j ∉ l.ids →
        ((m.setUp i none).setLeft c.1 none) j = m j := fun j hjc hjl => by
      have hji : j ≠ i := fun h => hjl (h ▸ hil)
      rw [Memory.setLeft_of_ne _ _ hjc, Memory.setUp_of_ne _ _ hji]
    have hself : ((m.setUp i none).setLeft c.1 none) c.1 = { m c.1 with left := none } := by
      rw [Memory.setLeft_self, Memory.setUp_of_ne _ _ hci]
    refine ⟨congrArg (some c.1, ·) (plug_ptr c sp l .nil), hrep.congr fun j hj => ?_,
      ⟨?_, ?_, ?_, hac.congr fun j hj => ?_, ha.congr fun j hj => ?_⟩, fun j hj => ?_⟩
    · exact Memory.setLeft_of_ne _ _ fun heq => hc (heq ▸ hj)
    · rw [hself, haup]
    · rw [hself]
    · rw [hself, haright]
    · refine hother j (fun heq => hcs.1 (heq ▸ hj)) fun hjl => ?_
      exact Multiset.disjoint_left.mp hdisj hjl
        (Multiset.mem_cons_of_mem (Multiset.mem_add.mpr (Or.inl hj)))
    · refine hother j (fun heq => hcs.2 (heq ▸ hj)) fun hjl => ?_
      exact Multiset.disjoint_left.mp hdisj hjl
        (Multiset.mem_cons_of_mem (Multiset.mem_add.mpr (Or.inr hj)))
    · rw [Multiset.mem_add, spineIds_cons, Multiset.mem_cons] at hj
      tauto

/-- The parent of the leaf is taken out, and the next leaf is found. -/
theorem advance_spec {o : ℕ} (pFree : Option ℕ) (ha : Around m none ((o, r) :: sp))
    (he : IsOp e) (hr : r ≠ .nil) (hb : Binary eType r) (hsp : SpineOk eType e sp)
    (hfuel : r.ids.card ≤ fuel)
    (hnd : (spineIds ((o, r) :: sp)).Nodup) :
    ∃ m' i, advance eType fuel e m o (plug .nil ((o, r) :: sp)).ptr pFree =
        some (m', i, (plug r sp).ptr) ∧
      (descend eType e r sp).1.ptr = some i ∧
      Rep m' (top (descend eType e r sp).2) (descend eType e r sp).1 ∧
      Around m' (descend eType e r sp).1.ptr (descend eType e r sp).2 ∧
      (m' o).up = pFree ∧ ∀ j ∉ spineIds ((o, r) :: sp), m' j = m j := by
  obtain ⟨hup, -, hright, hrep, hsp'⟩ := ha
  obtain ⟨q, hq⟩ : ∃ q, r.ptr = some q := Option.ne_none_iff_exists'.mp (mt PTree.ptr_eq_none.mp hr)
  obtain ⟨i, hi⟩ : ∃ i, (descend eType e r sp).1.ptr = some i :=
    Option.ne_none_iff_exists'.mp (mt PTree.ptr_eq_none.mp (descend_spec he hr hb hsp).1)
  have hleft : leftmost eType m e fuel q = some i := by
    rw [← PTree.coe_post, Multiset.coe_card] at hfuel
    rw [leftmost_eq hrep he hb hq hfuel sp, hi]
  have hqr := PTree.mem_ids_of_ptr hq
  rw [spineIds_cons] at hnd
  obtain ⟨ho, hnd⟩ := Multiset.nodup_cons.mp hnd
  rw [Multiset.mem_add, not_or] at ho
  obtain ⟨hndr, hnds, hdisj⟩ := Multiset.nodup_add.mp hnd
  have hqo : o ≠ q := fun h => ho.1 (h ▸ hqr)
  -- it is enough that the rest of the tree is in memory
  suffices ∃ m', advance eType fuel e m o (plug .nil ((o, r) :: sp)).ptr pFree =
      some (m', i, (plug r sp).ptr) ∧ Rep m' (top sp) r ∧ Around m' r.ptr sp ∧
        (m' o).up = pFree ∧ ∀ j ∉ spineIds ((o, r) :: sp), m' j = m j by
    obtain ⟨m', hadv, hr', ha', ho', hframe⟩ := this
    have hplug := (rep_plug r sp).mpr ⟨hr', ha'⟩
    rw [← plug_descend eType e, rep_plug] at hplug
    exact ⟨m', i, hadv, hi, hplug.1, hplug.2, ho', hframe⟩
  have hrep' := hrep.setUp hndr hq
  cases sp with
  | nil =>
    refine ⟨(m.setUp q none).setUp o pFree, ?_, ?_, trivial, ?_, fun j hj => ?_⟩
    · rw [advance, hright, hq]
      dsimp only
      rw [hleft, hup]
      dsimp only [top]
      rw [plug, hq]
    · exact (hrep' none).congr fun j hj => Memory.setUp_of_ne _ _ fun h => ho.1 (h ▸ hj)
    · rw [Memory.setUp_self]
    · rw [spineIds_cons, Multiset.mem_cons, Multiset.mem_add, not_or, not_or] at hj
      rw [Memory.setUp_of_ne _ _ hj.1, Memory.setUp_of_ne _ _ fun h : j = q => hj.2.1 (h ▸ hqr)]
  | cons c sp =>
    rw [spineIds_cons] at ho hdisj hnds
    obtain ⟨hcs, -⟩ := Multiset.nodup_cons.mp hnds
    rw [Multiset.mem_add, not_or] at hcs
    have hcr : c.1 ∉ r.ids := fun h =>
      Multiset.disjoint_left.mp hdisj h (Multiset.mem_cons_self _ _)
    have hco : o ≠ c.1 := fun h => ho.2 (h ▸ Multiset.mem_cons_self _ _)
    have hcq : c.1 ≠ q := fun h => hcr (h ▸ hqr)
    have hvalue : ∀ j, (((m.setUp q (some c.1)).setLeft c.1 (some q)).setUp o pFree) j =
        if j = o then { m o with up := pFree } else
        if j = c.1 then { m c.1 with left := some q } else m.setUp q (some c.1) j := by
      intro j
      simp only [Memory.setUp, Memory.setLeft, Function.update_apply]
      grind
    have hother : ∀ j, j ≠ o → j ≠ c.1 → j ∉ r.ids →
        (((m.setUp q (some c.1)).setLeft c.1 (some q)).setUp o pFree) j = m j := by
      intro j hjo hjc hjr
      rw [hvalue, if_neg hjo, if_neg hjc, Memory.setUp_of_ne _ _ fun h : j = q => hjr (h ▸ hqr)]
    obtain ⟨haup, -, haright, hac, ha⟩ := hsp'
    refine ⟨((m.setUp q (some c.1)).setLeft c.1 (some q)).setUp o pFree, ?_, ?_,
      ⟨?_, ?_, ?_, ?_, ?_⟩, ?_, fun j hj => ?_⟩
    · rw [advance, hright, hq]
      dsimp only
      rw [hleft, hup]
      dsimp only [top]
      rw [plug, plug_ptr c sp _ r]
    · refine (hrep' (some c.1)).congr fun j hj => ?_
      rw [hvalue, if_neg fun h : j = o => ho.1 (h ▸ hj), if_neg fun h : j = c.1 => hcr (h ▸ hj)]
    · rw [hvalue, if_neg hco.symm, if_pos rfl, haup]
    · rw [hvalue, if_neg hco.symm, if_pos rfl, hq]
    · rw [hvalue, if_neg hco.symm, if_pos rfl, haright]
    · refine hac.congr fun j hj => ?_
      have hjs : j ∈ c.1 ::ₘ (c.2.ids + spineIds sp) :=
        Multiset.mem_cons_of_mem (Multiset.mem_add.mpr (Or.inl hj))
      exact hother j (fun h => ho.2 (h ▸ hjs)) (fun h => hcs.1 (h ▸ hj))
        fun h => Multiset.disjoint_left.mp hdisj h hjs
    · refine ha.congr fun j hj => ?_
      have hjs : j ∈ c.1 ::ₘ (c.2.ids + spineIds sp) :=
        Multiset.mem_cons_of_mem (Multiset.mem_add.mpr (Or.inr hj))
      exact hother j (fun h => ho.2 (h ▸ hjs)) (fun h => hcs.2 (h ▸ hj))
        fun h => Multiset.disjoint_left.mp hdisj h hjs
    · rw [hvalue, if_pos rfl]
    · simp only [spineIds_cons, Multiset.mem_cons, Multiset.mem_add, not_or] at hj
      exact hother j hj.1 hj.2.2.1 hj.2.1

end Balance

end Fts3

end SqliteVms

import SqliteVms.Fts3.BalanceParts
import Mathlib.Tactic.Linarith
import Mathlib.Tactic.Ring

/-!
# The balanced tree

A call of `fts3ExprBalance` that succeeds returns a tree of the same nodes, with the same operator
at its root and the same leaves in the same order, no deeper than it must be. A call that fails
deletes every node once. A tree below a NOT or a NEAR node is not balanced.

## Main definitions

* `Loop`, `LoopResult` — what the loop over the leaves starts from and what it leaves
* `phrases` — the phrases of a tree, in the order of their numbers

## Main results

* `leafLoop_spec` — the loop over the leaves
* `fts3ExprBalance_spec` — the new tree, or every node freed once
* `not_forall_shallow` — a tree of AND nodes below a NOT stays as it is
-/

namespace SqliteVms

namespace Fts3

namespace Balance

open ParentTree

variable {eType : ℕ → ExprType} {fuel : ℕ} {e : ExprType} {t t' l r : PTree} {i : ℕ} {m m' : Memory}
  {sp : Spine}

variable {pFree p pRoot : Option ℕ} {fs : List ℕ} {x : PTree} {ls : List PTree} {s : State}

/-! ### The loop over the leaves -/

/-- What a call makes of a tree: another tree, or nothing, with every node freed. -/
structure Result (eType : ℕ → ExprType) (s : State) (t : PTree) (rc : Rc) (p : Option ℕ)
    (s' : State) : Prop where
  frame : ∀ i ∉ t.ids, s'.mem i = s.mem i
  ok : rc = .ok → s'.freed = s.freed ∧
    ∃ t', p = t'.ptr ∧ Rep s'.mem none t' ∧ t'.ids = t.ids ∧ Balanced eType t t'
  err : rc ≠ .ok → p = none ∧ ∃ fr, s'.freed = s.freed ++ fr ∧ (fr : Multiset ℕ) = t.ids

/-- The calls that a function answers as it should. -/
def Correct (eType : ℕ → ExprType) (fuel : ℕ)
    (balance : State → ℕ → Option (Rc × Option ℕ × State)) : Prop :=
  ∀ s t i, Rep s.mem none t → t.ptr = some i → t.ids.Nodup → Binary eType t →
    t.ids.card < fuel → ∃ rc p s', balance s i = some (rc, p, s') ∧ Result eType s t rc p s'

/-- What the loop is about: the tree that is left, with the leaf `l` and what is around it, the
trees of `apLeaf` and the free nodes. -/
structure Loop (eType : ℕ → ExprType) (e : ExprType) (m : Memory) (l : PTree) (sp : Spine)
    (ls : List PTree) (pFree : Option ℕ) (fs : List ℕ) : Prop where
  leaf : Rep m (top sp) l
  around : Around m l.ptr sp
  trees : RepAll m ls
  free : FreeList m pFree fs
  nodup : (l.ids + spineIds sp + (allIds ls + fs)).Nodup
  ne : l ≠ .nil
  type : rootType eType l ≠ some e
  binary : Binary eType l
  spine : SpineOk eType e sp
  counter : Counter eType e 0 ls
  count : fs.length = count ls
  ops : ∀ f ∈ fs, eType f = e

/-- What the loop leaves. -/
structure LoopResult (eType : ℕ → ExprType) (e : ExprType) (s : State) (l : PTree) (sp : Spine)
    (ls : List PTree) (fs : List ℕ) (rc : Rc) (pRoot : Option ℕ) (apLeaf : List (Option ℕ))
    (pFree : Option ℕ) (s' : State) : Prop where
  frame : ∀ i ∉ l.ids + spineIds sp + (allIds ls + fs), s'.mem i = s.mem i
  ok : rc = .ok → s'.freed = s.freed ∧ ∃ ls' fs', apLeaf = ls'.map PTree.ptr ∧
    Parts s'.mem ls' .nil pFree fs' ∧
    partIds ls' .nil fs' = l.ids + spineIds sp + (allIds ls + fs) ∧
    Counter eType e 0 ls' ∧ (∀ f ∈ fs', eType f = e) ∧ fs'.length + 1 = Balance.count ls' ∧
    allOps eType e ls' + fs' = spineOps eType e sp + (allOps eType e ls + fs) ∧
    ∃ new, allLeaves eType e ls' = allLeaves eType e ls ++ new ∧
      List.Forall₂ (Balanced eType) (l :: spineLeaves eType e sp) new
  err : rc ≠ .ok → ∃ ls' t' fs' fr, apLeaf = ls'.map PTree.ptr ∧ pRoot = t'.ptr ∧
    Parts s'.mem ls' t' pFree fs' ∧ s'.freed = s.freed ++ fr ∧
    fr + partIds ls' t' fs' = l.ids + spineIds sp + (allIds ls + fs)

theorem spine_descend (eType : ℕ → ExprType) (e : ExprType) (t : PTree) (sp : Spine) :
    (descend eType e t sp).1.ids + spineIds (descend eType e t sp).2 = t.ids + spineIds sp := by
  rw [← ids_plug, plug_descend, ids_plug]

/-- A leaf that is balanced is a leaf still. -/
theorem Balanced.leaf (h : Balanced eType t t') (hne : t ≠ .nil) (ht : rootType eType t ≠ some e) :
    leaves eType e t' = [t'] ∧ ops eType e t' = 0 ∧ Full eType e 0 t' := by
  have ht' : rootType eType t' ≠ some e := by rwa [h.rootType_eq]
  have hne' : t' ≠ .nil := by
    rintro rfl
    cases t with
    | nil => exact hne rfl
    | node i l r => nomatch h.rootType_eq
  have hl := leaves_of_ne ht' hne'
  refine ⟨hl, ops_of_ne ht', height_of_ne ht', ?_⟩
  rw [hl]
  rfl

/-- The next leaf: the loop goes on with the tree on the right of the operator that it took. -/
theorem next_loop {o : ℕ} {fs' : List ℕ} {pFree' : Option ℕ} {ls' : List PTree} {B : Multiset ℕ}
    (he : IsOp e) (hsp : Around m none ((o, r) :: sp)) (hspine : SpineOk eType e ((o, r) :: sp))
    (hp : Parts m ls' .nil pFree' fs') (hids : allIds ls' + fs' = B)
    (hnd : (spineIds ((o, r) :: sp) + B).Nodup) (hcounter : Counter eType e 0 ls')
    (hcount : fs'.length + 1 = count ls') (hops : ∀ f ∈ fs', eType f = e)
    (hfuel : r.ids.card ≤ fuel) :
    ∃ m' j, advance eType fuel e m o (plug .nil ((o, r) :: sp)).ptr pFree' =
        some (m', j, (plug r sp).ptr) ∧
      (descend eType e r sp).1.ptr = some j ∧
      Loop eType e m' (descend eType e r sp).1 (descend eType e r sp).2 ls' (some o) (o :: fs') ∧
      (descend eType e r sp).1.ids + spineIds (descend eType e r sp).2 +
        (allIds ls' + (o :: fs' : List ℕ)) = spineIds ((o, r) :: sp) + B ∧
      ∀ k ∉ spineIds ((o, r) :: sp), m' k = m k := by
  obtain ⟨⟨ho, hrne, hbr⟩, hspok⟩ := List.forall_mem_cons.mp hspine
  obtain ⟨m', j, hadv, hj, hl, ha, hup, hframe⟩ :=
    advance_spec pFree' hsp he hrne hbr hspok hfuel (Multiset.nodup_add.mp hnd).1
  obtain ⟨hne, htype, hb, hspok'⟩ := descend_spec he hrne hbr hspok
  have hsum : (descend eType e r sp).1.ids + spineIds (descend eType e r sp).2 +
      (allIds ls' + (o :: fs' : List ℕ)) = spineIds ((o, r) :: sp) + B := by
    rw [spine_descend, ← Multiset.cons_coe, Multiset.add_cons, Multiset.add_cons, hids,
      spineIds_cons, Multiset.cons_add]
  have hrest : ∀ k ∈ allIds ls' + fs', m' k = m k := by
    refine eq_of_frame ?_ hframe
    rw [hids]
    exact hnd
  refine ⟨m', j, hadv, hj, ?_, hsum, hframe⟩
  exact
    { leaf := hl
      around := ha
      trees := hp.trees.congr fun k hk => hrest k (Multiset.mem_add.mpr (Or.inl hk))
      free := ⟨rfl, by
        rw [hup]
        exact hp.free.congr fun k hk => hrest k (Multiset.mem_add.mpr (Or.inr hk))⟩
      nodup := by
        rw [hsum]
        exact hnd
      ne := hne
      type := htype
      binary := hb
      spine := hspok'
      counter := hcounter
      count := by
        rw [List.length_cons]
        omega
      ops := List.forall_mem_cons.mpr ⟨ho, hops⟩ }

/-- The leaf is taken out of the tree and balanced; nothing else is changed by that. -/
theorem Loop.balance_leaf {balance : State → ℕ → Option (Rc × Option ℕ × State)}
    (hbal : Correct eType fuel balance) (h : Loop eType e s.mem l sp ls pFree fs)
    (hi : l.ptr = some i) (hfuel : l.ids.card < fuel) :
    ∃ m₁ rc p s₂, detach s.mem i (plug l sp).ptr = (m₁, top sp, (plug .nil sp).ptr) ∧
      balance { s with mem := m₁ } i = some (rc, p, s₂) ∧
      Result eType { s with mem := m₁ } l rc p s₂ ∧ Around s₂.mem none sp ∧
      RepAll s₂.mem ls ∧ FreeList s₂.mem pFree fs ∧
      ∀ j ∉ l.ids + spineIds sp + (allIds ls + fs), s₂.mem j = s.mem j := by
  have hnd := h.nodup
  obtain ⟨hndls, -, -⟩ := Multiset.nodup_add.mp h.nodup
  obtain ⟨hd, hdl, hdsp, hdframe⟩ := detach_spec h.leaf (hi ▸ h.around) hi hndls
  have hdrest := eq_of_frame hnd hdframe
  obtain ⟨rc, p, s₂, hrun, hres⟩ := hbal { s with mem := (detach s.mem i (plug l sp).ptr).1 } l i
    hdl hi (Multiset.nodup_add.mp hndls).1 h.binary hfuel
  have hrest₂ := eq_of_frame (by rwa [← add_assoc]) hres.frame
  refine ⟨_, rc, p, s₂, Prod.ext rfl hd, hrun, hres,
    hdsp.congr fun j hj => hrest₂ j (Multiset.mem_add.mpr (Or.inl hj)),
    h.trees.congr fun j hj => ?_, h.free.congr fun j hj => ?_, fun j hj => ?_⟩
  · exact (hrest₂ j (by rw [Multiset.mem_add, Multiset.mem_add]; tauto)).trans
      (hdrest j (Multiset.mem_add.mpr (Or.inl hj)))
  · exact (hrest₂ j (by rw [Multiset.mem_add, Multiset.mem_add]; tauto)).trans
      (hdrest j (Multiset.mem_add.mpr (Or.inr hj)))
  · rw [Multiset.mem_add, Multiset.mem_add] at hj
    exact (hres.frame j (by tauto)).trans (hdframe j (by rw [Multiset.mem_add]; tauto))

/-- The balanced leaf is added to the counter. -/
theorem Loop.carry_leaf {s₂ : State} {l' : PTree} (h : Loop eType e s.mem l sp ls pFree fs)
    (hl' : Rep s₂.mem none l') (hids' : l'.ids = l.ids) (hbl : Balanced eType l l')
    (hsp : Around s₂.mem none sp) (htrees : RepAll s₂.mem ls) (hfree : FreeList s₂.mem pFree fs)
    (hframe : ∀ j ∉ l.ids + spineIds sp + (allIds ls + fs), s₂.mem j = s.mem j) :
    ∃ ls' t' m₃ pFree' fs', carry (ls.map PTree.ptr) l'.ptr s₂.mem pFree =
        some (ls'.map PTree.ptr, t'.ptr, m₃, pFree') ∧
      Parts m₃ ls' t' pFree' fs' ∧ partIds ls' t' fs' = l.ids + (allIds ls + fs) ∧
      Around m₃ none sp ∧ (∀ j ∉ l.ids + spineIds sp + (allIds ls + fs), m₃ j = s.mem j) ∧
      (∀ f ∈ fs', eType f = e) ∧ Counter eType e 0 ls' ∧
      (t' = .nil → allLeaves eType e ls' = allLeaves eType e ls ++ [l'] ∧
        allOps eType e ls' + fs' = allOps eType e ls + fs ∧
        fs'.length + 1 = Balance.count ls') := by
  obtain ⟨hleaf, hops, hfull⟩ := hbl.leaf h.ne h.type
  have hids₂ : partIds ls l' fs = l.ids + (allIds ls + fs) := by rw [partIds_node, hids']
  have htotal : l.ids + (allIds ls + fs) + spineIds sp =
      l.ids + spineIds sp + (allIds ls + fs) := add_right_comm _ _ _
  have hnd : (l.ids + (allIds ls + fs) + spineIds sp).Nodup := by
    rw [htotal]
    exact h.nodup
  have hp₂ : Parts s₂.mem ls l' pFree fs := by
    refine ⟨htrees, hl', hfree, ?_⟩
    rw [hids₂]
    exact (Multiset.nodup_add.mp hnd).1
  obtain ⟨i', hi'⟩ : ∃ i', l'.ptr = some i' := by
    refine Option.ne_none_iff_exists'.mp (mt PTree.ptr_eq_none.mp ?_)
    rintro rfl
    nomatch hleaf
  obtain ⟨ls', t', m₃, pFree', fs', hcarry, hp₃, hids₃, hframe₃, hfs', hcounter, hnil⟩ :=
    carry_spec hp₂ hi' h.counter hfull h.count.ge h.ops
  rw [hids₂] at hids₃ hframe₃
  rw [hi']
  refine ⟨ls', t', m₃, pFree', fs', hcarry, hp₃, hids₃, hsp.congr (eq_of_frame hnd hframe₃),
    fun j hj => (hframe₃ j fun hn => hj ?_).trans (hframe j hj), hfs', hcounter, fun ht' => ?_⟩
  · rw [← htotal, Multiset.mem_add]
    exact Or.inl hn
  · obtain ⟨hleaves, hops', hlen⟩ := hnil ht'
    rw [hleaf] at hleaves
    rw [hops, add_zero] at hops'
    have hcount := h.count
    exact ⟨hleaves, hops', by omega⟩

/-- The loop ends with the error of a leaf that could not be balanced: the leaf is freed, the tree
without it and the leaves before it are as they were. -/
theorem loopResult_below {s₂ : State} {rc : Rc} {fr : List ℕ}
    (hframe : ∀ j ∉ l.ids + spineIds sp + (allIds ls + fs), s₂.mem j = s.mem j) (hrc : rc ≠ .ok)
    (htrees : RepAll s₂.mem ls) (hsp : Around s₂.mem none sp) (hfree : FreeList s₂.mem pFree fs)
    (hnd : (l.ids + (spineIds sp + (allIds ls + fs))).Nodup) (hfreed : s₂.freed = s.freed ++ fr)
    (hfr : (fr : Multiset ℕ) = l.ids) :
    LoopResult eType e s l sp ls fs rc (plug .nil sp).ptr (ls.map PTree.ptr) pFree s₂ := by
  refine ⟨hframe, fun hok => absurd hok hrc, fun _ =>
    ⟨ls, plug .nil sp, fs, fr, rfl, rfl, ⟨htrees, ?_, hfree, ?_⟩, hfreed, ?_⟩⟩
  · exact (rep_plug _ _).mpr ⟨trivial, hsp⟩
  · rw [partIds_node, ids_plug, PTree.ids_nil, zero_add]
    exact (Multiset.nodup_add.mp hnd).2.1
  · rw [partIds_node, ids_plug, PTree.ids_nil, zero_add, hfr, add_assoc]

/-- The loop ends with `SQLITE_TOOBIG`: the leaves are more than `apLeaf` has room for, and the tree
`t` that the carry left over is freed. -/
theorem loopResult_over (s₃ : State) {ls' : List PTree} {pFree' : Option ℕ} {fs' : List ℕ}
    (hframe : ∀ j ∉ l.ids + spineIds sp + (allIds ls + fs), s₃.mem j = s.mem j)
    (hp : Parts s₃.mem ls' t pFree' fs') (hsp : Around s₃.mem none sp)
    (hnd : (l.ids + spineIds sp + (allIds ls + fs)).Nodup)
    (hids : partIds ls' t fs' = l.ids + (allIds ls + fs)) (hfreed : s₃.freed = s.freed) :
    LoopResult eType e s l sp ls fs .toobig (plug .nil sp).ptr (ls'.map PTree.ptr) pFree'
      { s₃ with freed := s₃.freed ++ t.post } := by
  have hsum : t.ids + (spineIds sp + (allIds ls' + fs')) =
      l.ids + spineIds sp + (allIds ls + fs) := by
    rw [partIds_node] at hids
    rw [add_right_comm, ← hids]
    abel
  refine ⟨hframe, fun hok => Rc.noConfusion hok, fun _ =>
    ⟨ls', plug .nil sp, fs', t.post, rfl, rfl,
      ⟨hp.trees, (rep_plug _ _).mpr ⟨trivial, hsp⟩, hp.free, ?_⟩, ?_, ?_⟩⟩
  · rw [partIds_node, ids_plug, PTree.ids_nil, zero_add]
    rw [← hsum] at hnd
    exact (Multiset.nodup_add.mp hnd).2.1
  · exact congrArg (· ++ t.post) hfreed
  · rw [partIds_node, ids_plug, PTree.ids_nil, zero_add, PTree.coe_post, hsum]

/-- The loop goes on: what the rest leaves is what the whole leaves, with the balanced leaf `l'`
before the others. -/
theorem LoopResult.of_rest {o : ℕ} {s₁ s' : State} {l' : PTree} {ls' : List PTree} {fs' : List ℕ}
    {rc : Rc} {apLeaf : List (Option ℕ)} {pFree' : Option ℕ} (he : IsOp e)
    (hspine : SpineOk eType e ((o, r) :: sp))
    (h : LoopResult eType e s₁ (descend eType e r sp).1 (descend eType e r sp).2 ls' (o :: fs') rc
      pRoot apLeaf pFree' s')
    (hsum : (descend eType e r sp).1.ids + spineIds (descend eType e r sp).2 +
      (allIds ls' + (o :: fs' : List ℕ)) = l.ids + spineIds ((o, r) :: sp) + (allIds ls + fs))
    (hframe : ∀ j ∉ l.ids + spineIds ((o, r) :: sp) + (allIds ls + fs), s₁.mem j = s.mem j)
    (hfreed : s₁.freed = s.freed) (hbl : Balanced eType l l')
    (hops : allOps eType e ls' + fs' = allOps eType e ls + fs)
    (hleaves : allLeaves eType e ls' = allLeaves eType e ls ++ [l']) :
    LoopResult eType e s l ((o, r) :: sp) ls fs rc pRoot apLeaf pFree' s' := by
  obtain ⟨⟨-, hrne, hbr⟩, hspok⟩ := List.forall_mem_cons.mp hspine
  refine ⟨fun j hj => ?_, fun hok => ?_, fun herr => ?_⟩
  · exact (h.frame j (by rw [hsum]; exact hj)).trans (hframe j hj)
  · obtain ⟨hfreed₅, ls₅, fs₅, hap, hp₅, hids₅, hc₅, hfs₅, hlen₅, hops₅, new, hl₅, hnew⟩ := h.ok hok
    refine ⟨hfreed₅.trans hfreed, ls₅, fs₅, hap, hp₅, hids₅.trans hsum, hc₅, hfs₅, hlen₅,
      ?_, l' :: new, ?_, List.Forall₂.cons hbl ?_⟩
    · have hod := ops_descend eType e r sp
      rw [ops_of_ne (descend_spec he hrne hbr hspok).2.1, zero_add] at hod
      rw [hops₅, ← hod, ← Multiset.cons_coe, Multiset.add_cons, Multiset.add_cons, hops,
        spineOps, Multiset.cons_add]
    · rw [hl₅, hleaves, List.append_assoc, List.singleton_append]
    · rw [spineLeaves, leaves_descend he hrne hbr]
      exact hnew
  · obtain ⟨ls₅, t₅, fs₅, fr, hap, hroot, hp₅, hfreed₅, hfr⟩ := h.err herr
    exact ⟨ls₅, t₅, fs₅, fr, hap, hroot, hp₅, hfreed₅.trans (congrArg (· ++ fr) hfreed),
      hfr.trans hsum⟩

theorem leafLoop_spec {balance : State → ℕ → Option (Rc × Option ℕ × State)} {n : ℕ}
    (hbal : Correct eType fuel balance) (he : IsOp e)
    (h : Loop eType e s.mem l sp ls pFree fs) (hi : l.ptr = some i)
    (hn : (l.ids + spineIds sp).card ≤ n)
    (hfuel : (l.ids + spineIds sp + (allIds ls + fs)).card < fuel) :
    ∃ rc pRoot apLeaf pFree' s', leafLoop eType fuel balance e n s i (plug l sp).ptr
        (ls.map PTree.ptr) pFree = some (rc, pRoot, apLeaf, pFree', s') ∧
      LoopResult eType e s l sp ls fs rc pRoot apLeaf pFree' s' := by
  induction n generalizing s l i sp ls pFree fs with
  | zero =>
    have := Multiset.card_pos_iff_exists_mem.mpr ⟨i, PTree.mem_ids_of_ptr hi⟩
    rw [Multiset.card_add] at hn
    omega
  | succ n ih =>
    have hnd := h.nodup
    have htotal : l.ids + (allIds ls + fs) + spineIds sp =
        l.ids + spineIds sp + (allIds ls + fs) := add_right_comm _ _ _
    have hlfuel : l.ids.card < fuel := by
      rw [Multiset.card_add, Multiset.card_add] at hfuel
      omega
    obtain ⟨m₁, rc, p, s₂, hd, hrun, hres, hsp₂, htrees₂, hfree₂, hframe₂⟩ :=
      h.balance_leaf hbal hi hlfuel
    rw [leafLoop, hd]
    dsimp only
    rw [hrun]
    dsimp only
    by_cases hrc : rc = .ok
    · subst hrc
      obtain ⟨hfreed, l', rfl, hl', hids', hbl⟩ := hres.ok rfl
      obtain ⟨ls', t', m₃, pFree', fs', hcarry, hp₃, hids₃, hsp₃, hframe₃, hfs', hcounter, hnil⟩ :=
        h.carry_leaf hl' hids' hbl hsp₂ htrees₂ hfree₂ hframe₂
      rw [if_neg (not_not.mpr rfl), hcarry]
      by_cases ht' : t' = .nil
      · subst ht'
        obtain ⟨hleaves, hops', hlen⟩ := hnil rfl
        have hids₃' : allIds ls' + fs' = l.ids + (allIds ls + fs) := by
          rw [← hids₃, partIds_node, PTree.ids_nil, zero_add]
        cases sp with
        | nil =>
          -- it was the last one
          refine ⟨_, _, _, _, _, rfl, hframe₃, fun _ => ⟨hfreed, ls', fs', rfl, hp₃, ?_, hcounter,
            hfs', hlen, ?_, [l'], hleaves, ?_⟩, absurd rfl⟩
          · rw [hids₃, ← htotal, spineIds_nil, add_zero]
          · rw [hops', spineOps, zero_add]
          · exact List.Forall₂.cons hbl List.Forall₂.nil
        | cons c sp =>
          obtain ⟨o, r⟩ := c
          have hrfuel : r.ids.card ≤ fuel := by
            rw [spineIds_cons, Multiset.card_add, Multiset.card_add, Multiset.card_cons,
              Multiset.card_add] at hfuel
            dsimp only at hfuel
            omega
          have hall : spineIds ((o, r) :: sp) + (l.ids + (allIds ls + fs)) =
              l.ids + spineIds ((o, r) :: sp) + (allIds ls + fs) := by
            rw [add_left_comm, ← add_assoc]
          obtain ⟨m₄, j, hadv, hj, hloop, hsum, hframe₄⟩ :=
            next_loop he hsp₃ h.spine hp₃ hids₃' (by rw [hall]; exact hnd) hcounter hlen
              hfs' hrfuel
          rw [hall] at hsum
          have hn₄ : ((descend eType e r sp).1.ids +
              spineIds (descend eType e r sp).2).card ≤ n := by
            rw [spineIds_cons, Multiset.card_add, Multiset.card_cons] at hn
            dsimp only at hn
            rw [spine_descend]
            omega
          obtain ⟨rc, pRoot, apLeaf, pFree₅, s₅, hrun₅, hres₅⟩ :=
            ih (s := { s₂ with mem := m₄ }) hloop hj hn₄ (by rw [hsum]; exact hfuel)
          rw [plug_descend] at hrun₅
          rw [show PTree.nil.ptr = none from rfl]
          dsimp only [top]
          rw [hadv]
          refine ⟨rc, pRoot, apLeaf, pFree₅, s₅, hrun₅, hres₅.of_rest he h.spine hsum
            (fun j hj => ?_) hfreed hbl hops' hleaves⟩
          have hj' := hj
          rw [Multiset.mem_add, Multiset.mem_add] at hj'
          exact (hframe₄ j (by tauto)).trans (hframe₃ j hj)
      · -- more leaves than `apLeaf` has room for
        obtain ⟨j, hj⟩ : ∃ j, t'.ptr = some j :=
          Option.ne_none_iff_exists'.mp (mt PTree.ptr_eq_none.mp ht')
        have hnd₃ := hp₃.nodup
        rw [partIds_node] at hnd₃
        have hcard : t'.ids.card < fuel := by
          rw [← htotal, ← hids₃, partIds_node, Multiset.card_add, Multiset.card_add] at hfuel
          omega
        have hfree : sqlite3Fts3ExprFree fuel { s₂ with mem := m₃ } t'.ptr = _ :=
          exprFree_spec hp₃.tree (Multiset.nodup_add.mp hnd₃).1 hcard
        rw [hj] at hfree ⊢
        dsimp only
        rw [hfree]
        exact ⟨_, _, _, _, _, rfl,
          loopResult_over { s₂ with mem := m₃ } hframe₃ hp₃ hsp₃ hnd hids₃ hfreed⟩
    · -- an error below
      obtain ⟨rfl, fr, hfreed, hfr⟩ := hres.err hrc
      rw [if_pos hrc]
      exact ⟨_, _, _, _, _, rfl,
        loopResult_below hframe₂ hrc htrees₂ hsp₂ hfree₂ (by rwa [← add_assoc]) hfreed hfr⟩

/-! ### The whole function -/

theorem leaves_replicate (n : ℕ) : allLeaves eType e (List.replicate n .nil) = [] := by
  induction n with
  | zero => rfl
  | succ n ih => rw [List.replicate_succ, allLeaves, ih, leaves, List.append_nil]

theorem allOps_replicate (n : ℕ) : allOps eType e (List.replicate n .nil) = 0 := by
  induction n with
  | zero => rfl
  | succ n ih => rw [List.replicate_succ, allOps_cons, ih, ops, add_zero]

theorem allIds_replicate (n : ℕ) : allIds (List.replicate n .nil) = 0 := by
  induction n with
  | zero => rfl
  | succ n ih => rw [List.replicate_succ, allIds_cons, ih, PTree.ids_nil, add_zero]

theorem count_replicate (n : ℕ) : count (List.replicate n .nil) = 0 := by
  induction n with
  | zero => rfl
  | succ n ih => rw [List.replicate_succ, count_nil_cons, ih]

theorem counter_replicate (n k : ℕ) : Counter eType e k (List.replicate n .nil) := by
  induction n generalizing k with
  | zero => trivial
  | succ n ih => exact ⟨absurd rfl, ih _⟩

theorem repAll_replicate (n : ℕ) : RepAll m (List.replicate n .nil) := by
  intro x hx
  rw [List.eq_of_mem_replicate hx]
  trivial

/-- An operator with two children has two leaves at least. -/
theorem two_le_leaves (he : IsOp e) (hb : Binary eType t) (ht : rootType eType t = some e) :
    2 ≤ (leaves eType e t).length := by
  cases t with
  | nil => nomatch ht
  | node i l r =>
    have hi : eType i = e := Option.some.inj ht
    obtain ⟨hne, hbl, hbr⟩ := hb
    obtain ⟨hl, hr⟩ := hne (hi ▸ he)
    have h1 := leaves_length_pos he hl hbl
    have h2 := leaves_length_pos he hr hbr
    rw [leaves_node hi, List.length_append]
    omega

theorem rootType_of_two_le (h : 2 ≤ (leaves eType e t).length) : rootType eType t = some e := by
  by_contra hne
  cases t with
  | nil => exact absurd h (Nat.not_succ_le_zero 1)
  | node i l r =>
    rw [leaves_of_ne hne (by simp), List.length_singleton] at h
    omega

/-- When every node was deleted. -/
theorem result_freed {rc : Rc} {s' : State} (hrc : rc ≠ .ok) (hi : t.ptr = some i)
    (hrep : Rep s.mem none t) (hnd : t.ids.Nodup) (hfuel : t.ids.card < fuel)
    (hmem : s'.mem = s.mem) (hfreed : s'.freed = s.freed) :
    Result eType s t rc none (sqlite3Fts3ExprFree fuel s' (some i)) := by
  rw [← hi, exprFree_spec (hmem ▸ hrep) hnd hfuel]
  exact ⟨fun _ _ => congrFun hmem _, fun hok => absurd hok hrc,
    fun _ => ⟨rfl, t.post, congrArg (· ++ t.post) hfreed, t.coe_post⟩⟩

theorem start_ids (eType : ℕ → ExprType) (e : ExprType) (t : PTree) (n : ℕ) :
    (descend eType e t []).1.ids + spineIds (descend eType e t []).2 +
      (allIds (List.replicate n .nil) + ([] : List ℕ)) = t.ids := by
  rw [spine_descend, allIds_replicate, spineIds_nil, Multiset.coe_nil, add_zero, add_zero, add_zero]

/-- The loop starts with the left-most leaf. -/
theorem loop_descend (he : IsOp e) (hrep : Rep m none t) (hne : t ≠ .nil) (hnd : t.ids.Nodup)
    (hb : Binary eType t) (n : ℕ) :
    Loop eType e m (descend eType e t []).1 (descend eType e t []).2 (List.replicate n .nil)
      none [] := by
  have hplug := plug_descend eType e t []
  rw [plug] at hplug
  rw [← hplug, rep_plug] at hrep
  obtain ⟨hne', htype, hb', hsp⟩ := descend_spec he hne hb (List.forall_mem_nil _)
  refine ⟨hrep.1, hrep.2, repAll_replicate n, rfl, ?_, hne', htype, hb', hsp, counter_replicate n 0,
    (count_replicate n).symm, fun _ hf => absurd hf List.not_mem_nil⟩
  rw [start_ids]
  exact hnd

/-- What the loop leaves is put together. -/
theorem gather_result {apLeaf : List (Option ℕ)} {s' : State} {n : ℕ} (he : IsOp e)
    (hb : Binary eType t) (ht : rootType eType t = some e)
    (h : LoopResult eType e s (descend eType e t []).1 (descend eType e t []).2
      (List.replicate n .nil) [] .ok pRoot apLeaf pFree s') :
    ∃ p m, gather apLeaf none s'.mem pFree = some (p, m, none) ∧
      Result eType s t .ok p { s' with mem := m } := by
  have hne : t ≠ .nil := by
    rintro rfl
    nomatch ht
  have hids := start_ids eType e t n
  obtain ⟨hfreed, ls, fs, rfl, hp, hpids, hc, hfs, hlen, hops, new, hnew, hbal⟩ := h.ok rfl
  rw [hids] at hpids
  have hn : fs.length + 1 = count (.nil :: ls) := by rw [count_nil_cons, hlen]
  obtain ⟨t', m', hg, hrep, hids', hframe, hl, ho, hh⟩ :=
    gather_spec hp hc (absurd rfl) (Nat.zero_le _) hn hfs
  rw [hnew, leaves_replicate, List.nil_append, leaves, List.append_nil] at hl
  rw [ops, add_zero, hops, allOps_replicate, Multiset.coe_nil, add_zero, add_zero] at ho
  have hleaves := leaves_descend he hne hb []
  rw [spineLeaves, List.append_nil] at hleaves
  have hopst := ops_descend eType e t []
  rw [ops_of_ne (descend_spec he hne hb (List.forall_mem_nil _)).2.1, zero_add, spineOps,
    add_zero] at hopst
  rw [← hleaves, ← hl] at hbal
  refine ⟨t'.ptr, m', hg, fun j hj => ?_, fun _ => ⟨hfreed, t', rfl, hrep, hids'.trans hpids, ?_⟩,
    absurd rfl⟩
  · rw [← hpids] at hj
    exact (hframe j hj).trans (h.frame j (by rwa [hids, ← hpids]))
  · have hlength := hbal.length_eq
    have htwo := two_le_leaves he hb ht
    exact .op he ht (rootType_of_two_le (by omega)) hbal (ho.trans hopst.symm) (by rwa [hlength])

theorem cleanup_result {apLeaf : List (Option ℕ)} {s' : State} {n : ℕ} {rc : Rc} (hrc : rc ≠ .ok)
    (hfuel : t.ids.card < fuel)
    (h : LoopResult eType e s (descend eType e t []).1 (descend eType e t []).2
      (List.replicate n .nil) [] rc pRoot apLeaf pFree s') :
    Result eType s t rc none (cleanup fuel s' apLeaf pFree pRoot) := by
  have hids := start_ids eType e t n
  obtain ⟨ls, t', fs, fr, rfl, rfl, hp, hfreed, hfr⟩ := h.err hrc
  rw [hids] at hfr
  have hcard : (partIds ls t' fs).card < fuel := by
    rw [← hfr, Multiset.card_add] at hfuel
    omega
  obtain ⟨fr', hclean, hfr'⟩ := cleanup_spec hp hcard
  rw [hclean]
  refine ⟨fun j hj => h.frame j (by rwa [hids]), fun hok => absurd hok hrc, fun _ =>
    ⟨rfl, fr ++ fr', ?_, ?_⟩⟩
  · rw [← List.append_assoc, ← hfreed]
  · rw [← Multiset.coe_add, hfr', hfr]

/-- Every call does what it should, whatever `sqlite3_malloc` does. -/
theorem correct (n : ℕ) : Correct eType fuel (fts3ExprBalance eType fuel n) := by
  induction n with
  | zero =>
    intro s t i hrep hi hnd hb hfuel
    exact ⟨_, _, _, rfl, result_freed (by decide) hi hrep hnd hfuel rfl rfl⟩
  | succ n ih =>
    intro s t i hrep hi hnd hb hfuel
    have hne : t ≠ .nil := by
      rintro rfl
      nomatch hi
    have ht : rootType eType t = some (eType i) := by
      cases t with
      | nil => exact absurd rfl hne
      | node j l r => rw [← Option.some.inj hi, rootType]
    rw [fts3ExprBalance]
    by_cases he : IsOp (eType i)
    · rw [if_pos he]
      by_cases hmalloc : s.mallocs.headD true = false
      · rw [if_pos hmalloc]
        exact ⟨_, _, _, rfl, result_freed (by decide) hi hrep hnd hfuel rfl rfl⟩
      · have hloop := loop_descend he hrep hne hnd hb (n + 1)
        have hlen : t.post.length ≤ fuel := by
          rw [← Multiset.coe_card, PTree.coe_post]
          exact hfuel.le
        obtain ⟨q, hq⟩ : ∃ q, (descend eType (eType i) t []).1.ptr = some q :=
          Option.ne_none_iff_exists'.mp (mt PTree.ptr_eq_none.mp hloop.ne)
        have hids := spine_descend eType (eType i) t []
        rw [spineIds_nil, add_zero] at hids
        obtain ⟨rc, pRoot, apLeaf, pFree, s', hrun, hres⟩ :=
          leafLoop_spec (s := { s with mallocs := s.mallocs.tail }) (n := fuel)
            ih he hloop hq (by rw [hids]; exact hfuel.le)
            (by rwa [hids, allIds_replicate, Multiset.coe_nil, add_zero, add_zero])
        rw [plug_descend, plug, hi, List.map_replicate, show PTree.nil.ptr = none from rfl] at hrun
        rw [if_neg hmalloc, leftmost_eq hrep he hb hi hlen [], hq]
        dsimp only
        rw [hrun]
        by_cases hrc : rc = .ok
        · subst hrc
          obtain ⟨p, m', hg, hresult⟩ := gather_result he hb ht hres
          dsimp only
          rw [hg]
          exact ⟨_, _, _, rfl, hresult.frame, hresult.ok, hresult.err⟩
        · have hresult := cleanup_result hrc hfuel hres
          cases rc with
          | ok => exact absurd rfl hrc
          | error => exact ⟨_, _, _, rfl, hresult.frame, hresult.ok, hresult.err⟩
          | nomem => exact ⟨_, _, _, rfl, hresult.frame, hresult.ok, hresult.err⟩
          | toobig => exact ⟨_, _, _, rfl, hresult.frame, hresult.ok, hresult.err⟩
    · -- the tree stays as it is
      rw [if_neg he]
      refine ⟨_, _, _, rfl, fun _ _ => rfl, fun _ => ⟨rfl, t, hi.symm, hrep, rfl, ?_⟩, absurd rfl⟩
      cases t with
      | nil => exact absurd rfl hne
      | node j l r =>
        obtain rfl := Option.some.inj hi
        exact .other he

/-! ### Phrases -/

/-- The phrases, from left to right. -/
def phrases (eType : ℕ → ExprType) : PTree → List ℕ
  | .nil => []
  | .node i l r =>
    phrases eType l ++ ((if eType i = .phrase then [i] else []) ++ phrases eType r)

theorem phrases_leaves (he : IsOp e) (t : PTree) :
    (leaves eType e t).flatMap (phrases eType) = phrases eType t := by
  induction t with
  | nil => rfl
  | node i l r hl hr =>
    by_cases hi : eType i = e
    · have hne : eType i ≠ .phrase := by
        rintro heq
        rw [heq] at hi
        subst hi
        exact absurd he (by decide)
      rw [leaves_node hi, List.flatMap_append, hl, hr, phrases, if_neg hne, List.nil_append]
    · rw [leaves_node_of_ne hi, List.flatMap_singleton]

theorem card_leaf (hx : x ∈ leaves eType e t) : x.ids.card ≤ t.ids.card := by
  induction t with
  | nil => exact absurd hx List.not_mem_nil
  | node i l r hl hr =>
    by_cases hi : eType i = e
    · rw [leaves_node hi, List.mem_append] at hx
      rw [PTree.ids_node, Multiset.card_cons, Multiset.card_add]
      rcases hx with hx | hx
      · have := hl hx
        omega
      · have := hr hx
        omega
    · rw [leaves_node_of_ne hi, List.mem_singleton] at hx
      rw [hx]

/-- The leaves below an operator are smaller trees. -/
theorem card_leaf_lt (ht : rootType eType t = some e) (hx : x ∈ leaves eType e t) :
    x.ids.card < t.ids.card := by
  cases t with
  | nil => nomatch ht
  | node i l r =>
    rw [leaves_node (Option.some.inj ht), List.mem_append] at hx
    rw [PTree.ids_node, Multiset.card_cons, Multiset.card_add]
    rcases hx with hx | hx
    · have := card_leaf hx
      omega
    · have := card_leaf hx
      omega

theorem flatMap_eq_of_forall₂ {R : PTree → PTree → Prop} {as bs : List PTree} {g : PTree → List ℕ}
    (h : List.Forall₂ R as bs) (hR : ∀ a ∈ as, ∀ b, R a b → g b = g a) :
    bs.flatMap g = as.flatMap g := by
  induction h with
  | nil => rfl
  | cons hab _ ih =>
    rw [List.flatMap_cons, List.flatMap_cons, hR _ List.mem_cons_self _ hab,
      ih fun a ha => hR a (List.mem_cons_of_mem _ ha)]

/-- Phrases keep their numbers. -/
theorem Balanced.phrases_eq (h : Balanced eType t t') : phrases eType t' = phrases eType t := by
  induction hn : t.ids.card using Nat.strong_induction_on generalizing t t' with
  | _ n ih =>
    cases h with
    | other h => rfl
    | op he ht ht' hleaves hops hheight =>
      rw [← phrases_leaves he t', ← phrases_leaves he t]
      refine flatMap_eq_of_forall₂ hleaves fun a ha b hab => ?_
      exact ih a.ids.card (hn ▸ card_leaf_lt ht ha) hab rfl

/-- When `fts3ExprBalance` succeeds, the new tree has the same nodes and the same operator at the
root, with the leaves of every tree of one operator in the same order and the phrases too;
otherwise each node is freed once. -/
theorem fts3ExprBalance_spec (nMaxDepth : ℕ) (hrep : Rep s.mem none t) (hi : t.ptr = some i)
    (hnd : t.ids.Nodup) (hb : Binary eType t) (hfuel : t.ids.card < fuel) :
    ∃ rc p s', fts3ExprBalance eType fuel nMaxDepth s i = some (rc, p, s') ∧
      (∀ j ∉ t.ids, s'.mem j = s.mem j) ∧
      (rc = .ok → s'.freed = s.freed ∧ ∃ t', p = t'.ptr ∧ Rep s'.mem none t' ∧ t'.ids = t.ids ∧
        rootType eType t' = rootType eType t ∧ Balanced eType t t' ∧
        phrases eType t' = phrases eType t) ∧
      (rc ≠ .ok → p = none ∧ ∃ fr, s'.freed = s.freed ++ fr ∧ fr.Nodup ∧
        ∀ j, j ∈ fr ↔ j ∈ t.ids) := by
  obtain ⟨rc, p, s', hrun, hframe, hok, herr⟩ := correct nMaxDepth s t i hrep hi hnd hb hfuel
  refine ⟨rc, p, s', hrun, hframe, fun hrc => ?_, fun hrc => ?_⟩
  · obtain ⟨hfreed, t', hp, hrep', hids, hbal⟩ := hok hrc
    exact ⟨hfreed, t', hp, hrep', hids, hbal.rootType_eq, hbal, hbal.phrases_eq⟩
  · obtain ⟨hp, fr, hfreed, hfr⟩ := herr hrc
    refine ⟨hp, fr, hfreed, ?_, fun j => ?_⟩
    · rwa [← Multiset.coe_nodup, hfr]
    · rw [← hfr, Multiset.mem_coe]

/-! ### Below a NOT -/

/-- Every tree of one operator, as large as it is, has a depth of at most `c` times the logarithm of
the number of its leaves, plus `c`; `parent` is the type of the node above. -/
def Shallow (eType : ℕ → ExprType) (c : ℕ) : Option ExprType → PTree → Prop
  | _, .nil => True
  | parent, .node i l r =>
    (IsOp (eType i) → parent ≠ some (eType i) → height eType (eType i) (.node i l r) ≤
      c * (Nat.clog 2 (leaves eType (eType i) (.node i l r)).length + 1)) ∧
    Shallow eType c (some (eType i)) l ∧ Shallow eType c (some (eType i)) r

/-- Node 0 is a NOT, the other even ones are AND nodes. -/
def notType (i : ℕ) : ExprType := if i = 0 then .not else if i % 2 = 0 then .and else .phrase

/-- A tree of `n` AND nodes that leans to the left. -/
def chain : ℕ → PTree
  | 0 => .node 3 .nil .nil
  | n + 1 => .node (2 * n + 2) (chain n) (.node (2 * n + 5) .nil .nil)

/-- The same below a NOT. -/
def notChain (n : ℕ) : PTree := .node 0 (chain n) (.node 1 .nil .nil)

/-- A tree is written to memory. -/
def write (m : Memory) : Option ℕ → PTree → Memory
  | _, .nil => m
  | p, .node i l r =>
    Function.update (write (write m (some i) l) (some i) r) i ⟨p, l.ptr, r.ptr⟩

theorem write_of_notMem (h : i ∉ t.ids) : write m p t i = m i := by
  induction t generalizing m p with
  | nil => rfl
  | node j l r hl hr =>
    rw [PTree.ids_node, Multiset.mem_cons, Multiset.mem_add, not_or, not_or] at h
    rw [write, Function.update_of_ne h.1, hr h.2.2, hl h.2.1]

theorem rep_write (m : Memory) (p : Option ℕ) (hnd : t.ids.Nodup) : Rep (write m p t) p t := by
  induction t generalizing m p with
  | nil => trivial
  | node i l r hl hr =>
    obtain ⟨hil, hir⟩ := PTree.notMem_of_nodup hnd
    obtain ⟨hndl, hndr, hdisj⟩ := Multiset.nodup_add.mp (Multiset.nodup_cons.mp hnd).2
    have hself : write m p (.node i l r) i = ⟨p, l.ptr, r.ptr⟩ := Function.update_self _ _ _
    refine ⟨by rw [hself], by rw [hself], by rw [hself],
      (hl m (some i) hndl).congr fun j hj => ?_,
      (hr (write m (some i) l) (some i) hndr).congr fun j hj => ?_⟩
    · rw [write, Function.update_of_ne fun h : j = i => hil (h ▸ hj),
        write_of_notMem (Multiset.disjoint_left.mp hdisj hj)]
    · rw [write, Function.update_of_ne fun h : j = i => hir (h ▸ hj)]

/-- A memory has one tree at most below a pointer. -/
theorem Rep.unique (h : Rep m p t) (h' : Rep m p t') (hptr : t.ptr = t'.ptr) : t = t' := by
  induction t generalizing p t' with
  | nil => exact (PTree.ptr_eq_none.mp hptr.symm).symm
  | node i l r hl hr =>
    cases t' with
    | nil => nomatch hptr
    | node j l' r' =>
      obtain rfl := Option.some.inj hptr
      obtain ⟨-, hleft, hright, h1, h2⟩ := h
      obtain ⟨-, hleft', hright', h1', h2'⟩ := h'
      rw [hl h1 h1' (hleft.symm.trans hleft'), hr h2 h2' (hright.symm.trans hright')]

theorem mem_chain {n j : ℕ} (h : j ∈ (chain n).ids) :
    2 ≤ j ∧ j < 2 * n + 4 ∧ (j % 2 = 0 → j < 2 * n + 2) := by
  induction n with
  | zero =>
    rw [chain, PTree.ids_node, PTree.ids_nil, add_zero, Multiset.mem_cons] at h
    rcases h with rfl | h
    · decide
    · exact absurd h (Multiset.notMem_zero j)
  | succ n ih =>
    rw [chain, PTree.ids_node, PTree.ids_node, PTree.ids_nil, add_zero, Multiset.mem_cons,
      Multiset.mem_add, Multiset.mem_cons] at h
    rcases h with rfl | h | rfl | h
    · omega
    · have := ih h
      omega
    · omega
    · exact absurd h (Multiset.notMem_zero j)

theorem nodup_chain (n : ℕ) : (chain n).ids.Nodup := by
  induction n with
  | zero => decide
  | succ n ih =>
    have hnew : 2 * n + 5 ∉ (chain n).ids := fun h => by
      have := mem_chain h
      omega
    have hop : 2 * n + 2 ∉ (chain n).ids := fun h => by
      have := mem_chain h
      omega
    rw [chain, PTree.ids_node, PTree.ids_node, PTree.ids_nil, add_zero, Multiset.add_cons, add_zero]
    refine Multiset.nodup_cons.mpr ⟨?_, Multiset.nodup_cons.mpr ⟨hnew, ih⟩⟩
    rw [Multiset.mem_cons, not_or]
    exact ⟨by omega, hop⟩

theorem nodup_notChain (n : ℕ) : (notChain n).ids.Nodup := by
  rw [notChain, PTree.ids_node, PTree.ids_node, PTree.ids_nil, add_zero, Multiset.add_cons,
    add_zero]
  refine Multiset.nodup_cons.mpr ⟨fun h => ?_, Multiset.nodup_cons.mpr ⟨fun h => ?_, nodup_chain n⟩⟩
  · rcases Multiset.mem_cons.mp h with h | h
    · exact absurd h (by decide)
    · have := mem_chain h
      omega
  · have := mem_chain h
    omega

theorem notType_chain (n : ℕ) :
    rootType notType (chain (n + 1)) = some .and ∧ notType (2 * n + 2) = .and := by
  have h : notType (2 * n + 2) = .and := by
    rw [notType, if_neg (by omega), if_pos (by omega)]
  exact ⟨congrArg some h, h⟩

theorem notType_odd (n : ℕ) : notType (2 * n + 5) = .phrase := by
  rw [notType, if_neg (by omega), if_neg (by omega)]

theorem binary_chain (n : ℕ) : Binary notType (chain n) := by
  induction n with
  | zero => exact ⟨fun h => absurd h (by decide), trivial, trivial⟩
  | succ n ih =>
    refine ⟨fun _ => ⟨by cases n <;> simp [chain], by simp⟩, ih, fun h => ?_, trivial, trivial⟩
    rw [notType_odd] at h
    exact absurd h (by decide)

theorem chain_spec (n : ℕ) :
    height notType .and (chain n) = n ∧ (leaves notType .and (chain n)).length = n + 1 := by
  induction n with
  | zero => decide
  | succ n ih =>
    have hodd : notType (2 * n + 5) ≠ .and := by
      rw [notType_odd]
      decide
    have hleaf : height notType .and (.node (2 * n + 5) .nil .nil) = 0 := if_neg hodd
    rw [chain, height_node (notType_chain n).2, leaves_node (notType_chain n).2, ih.1, hleaf,
      leaves_node_of_ne hodd, List.length_append, ih.2]
    exact ⟨by rw [Nat.max_zero], rfl⟩

theorem fts3ExprBalance_spec_chain :
    ∃ p s' t', fts3ExprBalance notType 8 3
        ⟨write (fun _ => ⟨none, none, none⟩) none (chain 3), [], []⟩ 6 = some (.ok, p, s') ∧
      p = t'.ptr ∧ Rep s'.mem none t' ∧ Balanced notType (chain 3) t' ∧
      phrases notType t' = [3, 5, 7, 9] := by
  obtain ⟨rc, p, s', hrun, -, hok, -⟩ := fts3ExprBalance_spec 3
    (rep_write (fun _ => ⟨none, none, none⟩) none (nodup_chain 3)) rfl (nodup_chain 3)
    (binary_chain 3) (show (chain 3).ids.card < 8 by decide) (s := ⟨_, [], []⟩)
  have hrc : (fts3ExprBalance notType 8 3
      ⟨write (fun _ => ⟨none, none, none⟩) none (chain 3), [], []⟩ 6).map (·.1) = some .ok := by
    decide
  rw [hrun] at hrc
  obtain rfl : rc = .ok := Option.some.inj hrc
  obtain ⟨-, t', hp, hrep, -, -, hbal, hphrases⟩ := hok rfl
  exact ⟨p, s', t', hrun, hp, hrep, hbal, hphrases⟩

theorem lt_four_pow (c : ℕ) : c * (2 * c + 5) + 3 < 4 ^ (c + 2) := by
  induction c with
  | zero => decide
  | succ c ih =>
    rw [Nat.pow_succ]
    nlinarith

/-- Not every operator level becomes shallow, for any logarithmic bound: a chain of AND nodes below
a NOT stays as it is. -/
theorem not_forall_shallow : ¬ ∃ c, ∀ (eType : ℕ → ExprType) (fuel nMaxDepth : ℕ) (s : State)
    (t : PTree) (i : ℕ), 1 ≤ nMaxDepth → Rep s.mem none t → t.ptr = some i → t.ids.Nodup →
      Binary eType t → t.ids.card < fuel → ∀ p s',
        fts3ExprBalance eType fuel nMaxDepth s i = some (.ok, p, s') →
          ∃ t', p = t'.ptr ∧ Rep s'.mem none t' ∧ Shallow eType c none t' := by
  rintro ⟨c, hc⟩
  obtain ⟨n, hn⟩ : ∃ n, 4 ^ (c + 2) = n + 1 + 1 := ⟨4 ^ (c + 2) - 2, by
    have := lt_four_pow c
    have : 4 ^ 1 ≤ 4 ^ (c + 2) := Nat.pow_le_pow_right (by decide) (by omega)
    omega⟩
  have hrep := rep_write (fun _ => ⟨none, none, none⟩) none (nodup_notChain (n + 1))
  have hb : Binary notType (notChain (n + 1)) :=
    ⟨fun h => absurd h (by decide), binary_chain _, fun h => absurd h (by decide), trivial, trivial⟩
  obtain ⟨t', hp, hrep', hshallow⟩ := hc notType _ 1
    ⟨write (fun _ => ⟨none, none, none⟩) none (notChain (n + 1)), [], []⟩ (notChain (n + 1)) 0
    le_rfl hrep rfl (nodup_notChain _) hb (Nat.lt_succ_self _) _ _ rfl
  obtain rfl := Rep.unique hrep hrep' hp
  have hlevel := hshallow.2.1
  have hspec := chain_spec (n + 1)
  rw [chain] at hlevel hspec
  have hlevel := hlevel.1 (by rw [(notType_chain n).2]; decide)
    (by rw [(notType_chain n).2]; decide)
  rw [(notType_chain n).2, hspec.1, hspec.2, ← hn, show 4 = 2 ^ 2 from rfl, ← Nat.pow_mul,
    Nat.clog_pow 2 _ Nat.one_lt_two] at hlevel
  have hlt := lt_four_pow c
  have hmul : c * (2 * (c + 2) + 1) = c * (2 * c + 5) := by ring
  omega

end Balance

end Fts3

end SqliteVms

import SqliteVms.Lib.ParentTree
import Mathlib.Data.Nat.Log

/-!
# Balancing a query tree

`fts3ExprBalance` of `fts3_expr.c` takes a tree of AND or of OR nodes apart, leaf by leaf from the
left, and puts the leaves together again in the manner of a binary counter: place `i` of `apLeaf`
has a tree of 2^i leaves. The operator nodes that come free are used again. The subtrees of NOT and
NEAR nodes stay as they are.

## Main definitions

* `fts3ExprBalance` — the function, on nodes with pointers
* `leaves`, `ops`, `height` — the tree of one operator at the root of a tree
* `Balanced` — what becomes of a tree

## Main results

* `descend_spec`, `leftmost_eq` — the left-most leaf
-/

namespace SqliteVms

namespace Fts3

namespace Balance

open ParentTree

/-! ### The code -/

/-- The types of nodes. -/
inductive ExprType where
  | near
  | not
  | and
  | or
  | phrase
  deriving DecidableEq

/-- The type of an operator with a tree of its own. -/
def IsOp (e : ExprType) : Prop := e = .and ∨ e = .or

instance (e : ExprType) : Decidable (IsOp e) := inferInstanceAs (Decidable (_ ∨ _))

/-- Return codes. -/
inductive Rc where
  | ok
  | error
  | nomem
  | toobig
  deriving DecidableEq

/-- The nodes, those that were freed, and what the next calls of `sqlite3_malloc` do. -/
structure State where
  mem : Memory
  freed : List ℕ
  mallocs : List Bool

variable (eType : ℕ → ExprType) (fuel : ℕ)

def sqlite3Fts3ExprFree (s : State) : Option ℕ → State
  | none => s
  | some p => { s with freed := s.freed ++ walk s.mem fuel fuel (some (first s.mem fuel p)) }

/-- The left-most leaf in a tree of `e` nodes, unless a null pointer is met. -/
def leftmost (m : Memory) (e : ExprType) : ℕ → ℕ → Option ℕ
  | 0, p => some p
  | n + 1, p =>
    if eType p = e then
      match (m p).left with
      | some q => leftmost m e n q
      | none => none
    else some p

/-- The free node `f` becomes the parent of `l` and `r`: the memory, and the next free node. -/
def useFree (m : Memory) (f l r : ℕ) : Memory × Option ℕ :=
  let m := (((m.setLeft f (some l)).setRight f (some r)).setUp l (some f)).setUp r (some f)
  (m.setUp f none, (m f).up)

/-- The loop over `iLvl`: the new `apLeaf`, the tree that is left over, the memory and the free
nodes, unless there is no free node. -/
def carry : List (Option ℕ) → Option ℕ → Memory → Option ℕ →
    Option (List (Option ℕ) × Option ℕ × Memory × Option ℕ)
  | apLeaf, none, m, pFree => some (apLeaf, none, m, pFree)
  | [], some p, m, pFree => some ([], some p, m, pFree)
  | none :: apLeaf, some p, m, pFree => some (some p :: apLeaf, none, m, pFree)
  | some q :: apLeaf, some p, m, pFree =>
    match pFree with
    | none => none
    | some f =>
      match carry apLeaf (some f) (useFree m f q p).1 (useFree m f q p).2 with
      | none => none
      | some r => some (none :: r.1, r.2)

/-- The loop that puts the trees of `apLeaf` together. -/
def gather : List (Option ℕ) → Option ℕ → Memory → Option ℕ →
    Option (Option ℕ × Memory × Option ℕ)
  | [], p, m, pFree => some (p, m, pFree)
  | none :: apLeaf, p, m, pFree => gather apLeaf p m pFree
  | some q :: apLeaf, none, m, pFree => gather apLeaf (some q) (m.setUp q none) pFree
  | some q :: apLeaf, some p, m, pFree =>
    match pFree with
    | none => none
    | some f => gather apLeaf (some f) (useFree m f q p).1 (useFree m f q p).2

/-- The nodes of the free list. -/
def freeNodes (m : Memory) : ℕ → Option ℕ → List ℕ
  | 0, _ => []
  | _ + 1, none => []
  | n + 1, some f => f :: freeNodes m n (m f).up

/-- What is deleted after an error. -/
def cleanup (s : State) (apLeaf : List (Option ℕ)) (pFree pRoot : Option ℕ) : State :=
  let s := apLeaf.foldl (sqlite3Fts3ExprFree fuel) s
  let s := { s with freed := s.freed ++ freeNodes s.mem fuel pFree }
  sqlite3Fts3ExprFree fuel s pRoot

/-- The leaf `p` is taken out of the tree: the memory, its parent, and the root that is left. -/
def detach (m : Memory) (p : ℕ) (pRoot : Option ℕ) : Memory × Option ℕ × Option ℕ :=
  match (m p).up with
  | some o => ((m.setUp p none).setLeft o none, some o, pRoot)
  | none => (m.setUp p none, none, none)

/-- The parent `o` of the last leaf is taken out of the tree and put on the free list: the memory,
the next leaf, and the root, unless a null pointer is met. -/
def advance (e : ExprType) (m : Memory) (o : ℕ) (pRoot pFree : Option ℕ) :
    Option (Memory × ℕ × Option ℕ) :=
  match (m o).right with
  | none => none
  | some r =>
    match leftmost eType m e fuel r with
    | none => none
    | some p =>
      match (m o).up with
      | some g => some (((m.setUp r (some g)).setLeft g (some r)).setUp o pFree, p, pRoot)
      | none => some ((m.setUp r none).setUp o pFree, p, some r)

/-- The loop over the leaves. -/
def leafLoop (balance : State → ℕ → Option (Rc × Option ℕ × State)) (e : ExprType) :
    ℕ → State → ℕ → Option ℕ → List (Option ℕ) → Option ℕ →
      Option (Rc × Option ℕ × List (Option ℕ) × Option ℕ × State)
  | 0, _, _, _, _, _ => none
  | n + 1, s, p, pRoot, apLeaf, pFree =>
    let d := detach s.mem p pRoot
    match balance { s with mem := d.1 } p with
    | none => none
    | some (rc, p, s) =>
      if rc ≠ .ok then some (rc, d.2.2, apLeaf, pFree, s)
      else
        match carry apLeaf p s.mem pFree with
        | none => none
        | some (apLeaf, some p, m, pFree) =>
          some (.toobig, d.2.2, apLeaf, pFree,
            sqlite3Fts3ExprFree fuel { s with mem := m } (some p))
        | some (apLeaf, none, m, pFree) =>
          match d.2.1 with
          | none => some (.ok, d.2.2, apLeaf, pFree, { s with mem := m })
          | some o =>
            match advance eType fuel e m o d.2.2 pFree with
            | none => none
            | some (m, p, pRoot) =>
              leafLoop balance e n { s with mem := m } p pRoot apLeaf (some o)

/-- `fts3ExprBalance`: the return code, the new root and the memory. There is no result if a null
pointer is followed. -/
def fts3ExprBalance : ℕ → State → ℕ → Option (Rc × Option ℕ × State)
  | 0, s, pRoot => some (.error, none, sqlite3Fts3ExprFree fuel s (some pRoot))
  | nMaxDepth + 1, s, pRoot =>
    if IsOp (eType pRoot) then
      let s' := { s with mallocs := s.mallocs.tail }
      if s.mallocs.headD true = false then
        some (.nomem, none, sqlite3Fts3ExprFree fuel s' (some pRoot))
      else
        match leftmost eType s.mem (eType pRoot) fuel pRoot with
        | none => none
        | some p =>
          match leafLoop eType fuel (fts3ExprBalance nMaxDepth) (eType pRoot) fuel s' p
              (some pRoot) (List.replicate (nMaxDepth + 1) none) none with
          | none => none
          | some (.ok, _, apLeaf, pFree, s) =>
            match gather apLeaf none s.mem pFree with
            | none => none
            | some (p, m, _) => some (.ok, p, { s with mem := m })
          | some (rc, pRoot, apLeaf, pFree, s) =>
            some (rc, none, cleanup fuel s apLeaf pFree pRoot)
    else some (.ok, some pRoot, s)

/-! ### The tree of one operator -/

variable {eType : ℕ → ExprType} {fuel : ℕ} {e : ExprType} {t t' l r : PTree} {i : ℕ} {m m' : Memory}
  {sp : Spine}

/-- The type of the root. -/
def rootType (eType : ℕ → ExprType) : PTree → Option ExprType
  | .nil => none
  | .node i _ _ => some (eType i)

/-- The subtrees below the `e` nodes at the root. -/
def leaves (eType : ℕ → ExprType) (e : ExprType) : PTree → List PTree
  | .nil => []
  | .node i l r => if eType i = e then leaves eType e l ++ leaves eType e r else [.node i l r]

/-- The `e` nodes at the root. -/
def ops (eType : ℕ → ExprType) (e : ExprType) : PTree → Multiset ℕ
  | .nil => 0
  | .node i l r => if eType i = e then i ::ₘ (ops eType e l + ops eType e r) else 0

/-- The depth of the `e` nodes at the root. -/
def height (eType : ℕ → ExprType) (e : ExprType) : PTree → ℕ
  | .nil => 0
  | .node i l r => if eType i = e then max (height eType e l) (height eType e r) + 1 else 0

/-- AND and OR nodes have two children. -/
def Binary (eType : ℕ → ExprType) : PTree → Prop
  | .nil => True
  | .node i l r => (IsOp (eType i) → l ≠ .nil ∧ r ≠ .nil) ∧ Binary eType l ∧ Binary eType r

/-- A tree and what becomes of it: the leaves of one operator in the same order, each balanced
itself, below the same operator nodes, and no deeper than it must be. -/
inductive Balanced (eType : ℕ → ExprType) : PTree → PTree → Prop
  | other {i : ℕ} {l r : PTree} (h : ¬ IsOp (eType i)) : Balanced eType (.node i l r) (.node i l r)
  | op {e : ExprType} {t t' : PTree} (he : IsOp e) (ht : rootType eType t = some e)
      (ht' : rootType eType t' = some e)
      (hleaves : List.Forall₂ (Balanced eType) (leaves eType e t) (leaves eType e t'))
      (hops : ops eType e t' = ops eType e t)
      (hheight : height eType e t' ≤ Nat.clog 2 (leaves eType e t).length) : Balanced eType t t'

theorem Balanced.rootType_eq (h : Balanced eType t t') : rootType eType t' = rootType eType t := by
  cases h with
  | other h => rfl
  | op he ht ht' hleaves hops hheight => rw [ht, ht']

theorem leaves_of_ne (h : rootType eType t ≠ some e) (hne : t ≠ .nil) : leaves eType e t = [t] := by
  cases t with
  | nil => exact absurd rfl hne
  | node i l r => exact if_neg fun heq => h (congrArg some heq)

theorem ops_of_ne (h : rootType eType t ≠ some e) : ops eType e t = 0 := by
  cases t with
  | nil => rfl
  | node i l r => exact if_neg fun heq => h (congrArg some heq)

theorem height_of_ne (h : rootType eType t ≠ some e) : height eType e t = 0 := by
  cases t with
  | nil => rfl
  | node i l r => exact if_neg fun heq => h (congrArg some heq)

/-! ### The left-most leaf -/

/-- The left-most leaf of the `e` nodes at the root, and what is around it. -/
def descend (eType : ℕ → ExprType) (e : ExprType) : PTree → Spine → PTree × Spine
  | .nil, sp => (.nil, sp)
  | .node i l r, sp => if eType i = e then descend eType e l ((i, r) :: sp) else (.node i l r, sp)

/-- The leaves around a leaf, on its right. -/
def spineLeaves (eType : ℕ → ExprType) (e : ExprType) : Spine → List PTree
  | [] => []
  | c :: sp => leaves eType e c.2 ++ spineLeaves eType e sp

/-- The `e` nodes around a leaf. -/
def spineOps (eType : ℕ → ExprType) (e : ExprType) : Spine → Multiset ℕ
  | [] => 0
  | c :: sp => c.1 ::ₘ (ops eType e c.2 + spineOps eType e sp)

/-- The nodes above a leaf are `e` nodes, with whole trees on their right. -/
def SpineOk (eType : ℕ → ExprType) (e : ExprType) (sp : Spine) : Prop :=
  ∀ c ∈ sp, eType c.1 = e ∧ c.2 ≠ .nil ∧ Binary eType c.2

theorem plug_descend (eType : ℕ → ExprType) (e : ExprType) (t : PTree) (sp : Spine) :
    plug (descend eType e t sp).1 (descend eType e t sp).2 = plug t sp := by
  induction t generalizing sp with
  | nil => rfl
  | node i l r hl hr =>
    rw [descend]
    split
    · exact hl _
    · rfl

/-- A leaf is found, and the nodes above it are `e` nodes. -/
theorem descend_spec (he : IsOp e) (hne : t ≠ .nil) (hb : Binary eType t)
    (hsp : SpineOk eType e sp) :
    (descend eType e t sp).1 ≠ .nil ∧ rootType eType (descend eType e t sp).1 ≠ some e ∧
      Binary eType (descend eType e t sp).1 ∧ SpineOk eType e (descend eType e t sp).2 := by
  induction t generalizing sp with
  | nil => exact absurd rfl hne
  | node i l r hl hr =>
    rw [descend]
    split
    · rename_i heq
      obtain ⟨hnil, hbl, hbr⟩ := hb
      obtain ⟨hlne, hrne⟩ := hnil (heq ▸ he)
      exact hl hlne hbl (List.forall_mem_cons.mpr ⟨⟨heq, hrne, hbr⟩, hsp⟩)
    · rename_i hneq
      exact ⟨hne, fun h => hneq (Option.some.inj h), hb, hsp⟩

theorem leaves_descend (he : IsOp e) (hne : t ≠ .nil) (hb : Binary eType t) (sp : Spine) :
    leaves eType e t ++ spineLeaves eType e sp =
      (descend eType e t sp).1 :: spineLeaves eType e (descend eType e t sp).2 := by
  induction t generalizing sp with
  | nil => exact absurd rfl hne
  | node i l r hl hr =>
    rw [descend, leaves]
    split
    · rename_i heq
      obtain ⟨hnil, hbl, -⟩ := hb
      rw [← hl (hnil (heq ▸ he)).1 hbl, spineLeaves, List.append_assoc]
    · rfl

theorem ops_descend (eType : ℕ → ExprType) (e : ExprType) (t : PTree) (sp : Spine) :
    ops eType e t + spineOps eType e sp =
      ops eType e (descend eType e t sp).1 + spineOps eType e (descend eType e t sp).2 := by
  induction t generalizing sp with
  | nil => rfl
  | node i l r hl hr =>
    rw [descend]
    split
    · rename_i heq
      rw [← hl, spineOps, ops, if_pos heq, Multiset.cons_add, Multiset.add_cons, add_assoc]
    · rfl

theorem leftmost_eq {n : ℕ} {p : Option ℕ} (h : Rep m p t) (he : IsOp e) (hb : Binary eType t)
    (hi : t.ptr = some i) (hn : t.post.length ≤ n) (sp : Spine) :
    leftmost eType m e n i = (descend eType e t sp).1.ptr := by
  induction t generalizing p i n sp with
  | nil => nomatch hi
  | node j l r hl hr =>
    obtain rfl := Option.some.inj hi
    obtain ⟨n, rfl⟩ : ∃ k, n = k + 1 := by
      have := PTree.length_post_pos j l r
      exact ⟨n - 1, by omega⟩
    rw [leftmost, descend]
    split
    · rename_i heq
      obtain ⟨-, hleft, -, hrl, -⟩ := h
      obtain ⟨hnil, hbl, -⟩ := hb
      rw [PTree.post, List.length_append, List.length_append, List.length_singleton] at hn
      cases l with
      | nil => exact absurd rfl (hnil (heq ▸ he)).1
      | node k ll lr =>
        rw [hleft]
        exact hl hrl hbl rfl (by omega) _
    · rfl

end Balance

end Fts3

end SqliteVms

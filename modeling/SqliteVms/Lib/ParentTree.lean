import Mathlib.Algebra.Order.Group.Multiset

/-!
# Binary trees with parent pointers

Nodes are named by numbers, and each has three pointers, to its parent and to its two children. A
tree in memory is a tree of names (`Rep`); what is around a subtree is the list of the nodes above
it, with the trees on their right (`Around`). Both depend on their own nodes only.

## Main definitions

* `ParentTree.Rep`, `ParentTree.Around` — a tree in memory, and what is to the right of a subtree
* `ParentTree.walk` — the nodes in the order in which a sweep without a stack leaves them

## Main results

* `ParentTree.rep_plug` — a tree is a subtree and what is around it
* `ParentTree.walk_eq` — the sweep meets every node once
-/

namespace ParentTree

/-- A node. -/
structure Node where
  up : Option ℕ
  left : Option ℕ
  right : Option ℕ
  deriving DecidableEq

/-- The nodes in memory. -/
abbrev Memory := ℕ → Node

namespace Memory

/-- Another parent. -/
def setUp (m : Memory) (i : ℕ) (v : Option ℕ) : Memory := Function.update m i { m i with up := v }

/-- Another left child. -/
def setLeft (m : Memory) (i : ℕ) (v : Option ℕ) : Memory :=
  Function.update m i { m i with left := v }

/-- Another right child. -/
def setRight (m : Memory) (i : ℕ) (v : Option ℕ) : Memory :=
  Function.update m i { m i with right := v }

variable (m : Memory) {i j : ℕ} (v : Option ℕ)

theorem setUp_of_ne (h : j ≠ i) : m.setUp i v j = m j := Function.update_of_ne h _ _

theorem setLeft_of_ne (h : j ≠ i) : m.setLeft i v j = m j := Function.update_of_ne h _ _

@[simp] theorem setUp_self : m.setUp i v i = { m i with up := v } := Function.update_self _ _ _

@[simp] theorem setLeft_self : m.setLeft i v i = { m i with left := v } :=
  Function.update_self _ _ _

end Memory

/-- A tree of names. -/
inductive PTree where
  | nil
  | node (i : ℕ) (l r : PTree)
  deriving DecidableEq

namespace PTree

/-- The pointer to a tree. -/
def ptr : PTree → Option ℕ
  | nil => none
  | node i _ _ => some i

/-- The names in a tree. -/
def ids : PTree → Multiset ℕ
  | nil => 0
  | node i l r => i ::ₘ (l.ids + r.ids)

/-- The names in a tree, children first. -/
def post : PTree → List ℕ
  | nil => []
  | node i l r => l.post ++ (r.post ++ [i])

@[simp] theorem ptr_node (i : ℕ) (l r : PTree) : (node i l r).ptr = some i := rfl

@[simp] theorem ids_node (i : ℕ) (l r : PTree) : (node i l r).ids = i ::ₘ (l.ids + r.ids) := rfl

@[simp] theorem ids_nil : nil.ids = 0 := rfl

theorem coe_post (t : PTree) : (t.post : Multiset ℕ) = t.ids := by
  induction t with
  | nil => rfl
  | node i l r hl hr =>
    rw [post, ids, ← Multiset.coe_add, ← Multiset.coe_add, hl, hr, Multiset.coe_singleton,
      ← add_assoc, Multiset.add_comm _ {i}, Multiset.singleton_add]

theorem ptr_eq_none {t : PTree} : t.ptr = none ↔ t = nil := by
  cases t with
  | nil => exact iff_of_true rfl rfl
  | node i l r => exact iff_of_false (Option.some_ne_none i) (fun h => nomatch h)

theorem mem_ids_of_ptr {t : PTree} {i : ℕ} (h : t.ptr = some i) : i ∈ t.ids := by
  cases t with
  | nil => nomatch h
  | node j l r =>
    obtain rfl := Option.some.inj h
    exact Multiset.mem_cons_self _ _

end PTree

variable {m m' : Memory} {p : Option ℕ} {t l r : PTree} {i j : ℕ}

/-! ### A tree in memory -/

/-- The tree is in memory, below `p`. -/
def Rep (m : Memory) : Option ℕ → PTree → Prop
  | _, .nil => True
  | p, .node i l r =>
    (m i).up = p ∧ (m i).left = l.ptr ∧ (m i).right = r.ptr ∧ Rep m (some i) l ∧ Rep m (some i) r

theorem Rep.congr (h : Rep m p t) (heq : ∀ i ∈ t.ids, m' i = m i) : Rep m' p t := by
  induction t generalizing p with
  | nil => trivial
  | node i l r hl hr =>
    obtain ⟨hup, hleft, hright, h1, h2⟩ := h
    rw [← heq i (Multiset.mem_cons_self _ _)] at hup hleft hright
    refine ⟨hup, hleft, hright, hl h1 fun j hj => heq j ?_, hr h2 fun j hj => heq j ?_⟩
    · exact Multiset.mem_cons_of_mem (Multiset.mem_add.mpr (Or.inl hj))
    · exact Multiset.mem_cons_of_mem (Multiset.mem_add.mpr (Or.inr hj))

/-- The root is not below itself. -/
theorem PTree.notMem_of_nodup (h : (PTree.node i l r).ids.Nodup) : i ∉ l.ids ∧ i ∉ r.ids := by
  have hnot := (Multiset.nodup_cons.mp h).1
  rw [Multiset.mem_add] at hnot
  exact not_or.mp hnot

/-- The tree below another node. -/
theorem Rep.setUp (h : Rep m p t) (hnd : t.ids.Nodup) (hi : t.ptr = some i) (v : Option ℕ) :
    Rep (m.setUp i v) v t := by
  cases t with
  | nil => trivial
  | node j l r =>
    obtain rfl := Option.some.inj hi
    obtain ⟨-, hleft, hright, h1, h2⟩ := h
    obtain ⟨hl, hr⟩ := PTree.notMem_of_nodup hnd
    refine ⟨by rw [Memory.setUp_self], by rw [Memory.setUp_self, hleft],
      by rw [Memory.setUp_self, hright], h1.congr fun n hn => ?_, h2.congr fun n hn => ?_⟩
    · exact m.setUp_of_ne v fun heq => hl (heq ▸ hn)
    · exact m.setUp_of_ne v fun heq => hr (heq ▸ hn)

/-! ### Around a subtree -/

/-- The nodes above a subtree on the left, from below, with the trees on their right. -/
abbrev Spine := List (ℕ × PTree)

/-- The node above. -/
def top : Spine → Option ℕ
  | [] => none
  | c :: _ => some c.1

/-- The tree with `t` in place of the subtree. -/
def plug (t : PTree) : Spine → PTree
  | [] => t
  | c :: sp => plug (.node c.1 t c.2) sp

/-- The names around a subtree. -/
def spineIds : Spine → Multiset ℕ
  | [] => 0
  | c :: sp => c.1 ::ₘ (c.2.ids + spineIds sp)

/-- What is around a subtree is in memory, with `p` in place of the subtree. -/
def Around (m : Memory) : Option ℕ → Spine → Prop
  | _, [] => True
  | p, c :: sp =>
    (m c.1).up = top sp ∧ (m c.1).left = p ∧ (m c.1).right = c.2.ptr ∧ Rep m (some c.1) c.2 ∧
      Around m (some c.1) sp

variable {sp : Spine}

@[simp] theorem spineIds_nil : spineIds [] = 0 := rfl

@[simp] theorem spineIds_cons (c : ℕ × PTree) (sp : Spine) :
    spineIds (c :: sp) = c.1 ::ₘ (c.2.ids + spineIds sp) := rfl

theorem ids_plug (t : PTree) (sp : Spine) : (plug t sp).ids = t.ids + spineIds sp := by
  induction sp generalizing t with
  | nil => exact (add_zero _).symm
  | cons c sp ih =>
    rw [plug, ih, PTree.ids, spineIds, Multiset.cons_add, Multiset.add_cons, add_assoc]

/-- A tree is a subtree and what is around it. -/
theorem rep_plug (t : PTree) (sp : Spine) :
    Rep m none (plug t sp) ↔ Rep m (top sp) t ∧ Around m t.ptr sp := by
  induction sp generalizing t with
  | nil => exact (and_iff_left trivial).symm
  | cons c sp ih =>
    rw [plug, ih, Rep, Around, top]
    tauto

theorem Around.congr (h : Around m p sp) (heq : ∀ i ∈ spineIds sp, m' i = m i) :
    Around m' p sp := by
  induction sp generalizing p with
  | nil => trivial
  | cons c sp ih =>
    obtain ⟨hup, hleft, hright, hrep, haround⟩ := h
    have hc := heq c.1 (Multiset.mem_cons_self _ _)
    rw [← hc] at hup hleft hright
    refine ⟨hup, hleft, hright, hrep.congr fun j hj => heq j ?_, ih haround fun j hj => heq j ?_⟩
    · exact Multiset.mem_cons_of_mem (Multiset.mem_add.mpr (Or.inl hj))
    · exact Multiset.mem_cons_of_mem (Multiset.mem_add.mpr (Or.inr hj))

/-! ### A sweep without a stack -/

/-- The first node of a tree that has no children, to the left where there is a choice. -/
def first (m : Memory) : ℕ → ℕ → ℕ
  | 0, p => p
  | fuel + 1, p =>
    match (m p).left, (m p).right with
    | some q, _ => first m fuel q
    | none, some q => first m fuel q
    | none, none => p

/-- The node after `p`: the first one on the right, or else the parent. -/
def next (m : Memory) (fuel p : ℕ) : Option ℕ :=
  match (m p).up with
  | none => none
  | some q =>
    match (m q).right with
    | some r => if (m q).left = some p then some (first m fuel r) else some q
    | none => some q

/-- The nodes that a sweep leaves. -/
def walk (m : Memory) (fuel : ℕ) : ℕ → Option ℕ → List ℕ
  | 0, _ => []
  | _ + 1, none => []
  | n + 1, some p => p :: walk m fuel n (next m fuel p)

/-- The node that `first` finds. -/
def PTree.first : PTree → ℕ
  | nil => 0
  | node i nil nil => i
  | node _ nil (node j l r) => (node j l r).first
  | node _ (node j l r) _ => (node j l r).first

theorem PTree.length_post_pos (i : ℕ) (l r : PTree) : 0 < (node i l r).post.length := by
  rw [post, List.length_append, List.length_append, List.length_singleton]
  omega

theorem first_eq {fuel : ℕ} (h : Rep m p t) (hi : t.ptr = some i)
    (hfuel : t.post.length ≤ fuel) : first m fuel i = t.first := by
  induction t using PTree.first.induct generalizing p i fuel with
  | case1 => nomatch hi
  | case2 j =>
    obtain rfl := Option.some.inj hi
    obtain ⟨-, hleft, hright, -, -⟩ := h
    cases fuel with
    | zero => rfl
    | succ fuel =>
      rw [first, hleft, hright]
      rfl
  | case3 k j l r ih =>
    obtain rfl := Option.some.inj hi
    obtain ⟨-, hleft, hright, -, hr⟩ := h
    rw [PTree.post, List.length_append, List.length_append, List.length_singleton] at hfuel
    obtain ⟨fuel, rfl⟩ : ∃ n, fuel = n + 1 := ⟨fuel - 1, by omega⟩
    rw [first, hleft, hright]
    exact ih hr rfl (by omega)
  | case4 k j l r r' ih =>
    obtain rfl := Option.some.inj hi
    obtain ⟨-, hleft, -, hl, -⟩ := h
    rw [PTree.post, List.length_append, List.length_append, List.length_singleton] at hfuel
    obtain ⟨fuel, rfl⟩ : ∃ n, fuel = n + 1 := ⟨fuel - 1, by omega⟩
    rw [first, hleft]
    exact ih hl rfl (by omega)

/-- From its first node, a sweep leaves the nodes of a tree, each after its children. -/
theorem walk_first {fuel : ℕ} (h : Rep m p t) (hnd : t.ids.Nodup) (hi : t.ptr = some i)
    (hfuel : t.post.length ≤ fuel) (n : ℕ) :
    walk m fuel (t.post.length + n) (some t.first) = t.post ++ walk m fuel n (next m fuel i) := by
  induction t generalizing p i n with
  | nil => nomatch hi
  | node j l r ihl ihr =>
    obtain rfl := Option.some.inj hi
    have hrep := h
    obtain ⟨-, hleft, hright, hl, hr⟩ := h
    obtain ⟨hndl, hndr, hdisj⟩ := Multiset.nodup_add.mp (Multiset.nodup_cons.mp hnd).2
    have hlen : (PTree.node j l r).post.length = l.post.length + (r.post.length + 1) := by
      rw [PTree.post, List.length_append, List.length_append, List.length_singleton]
    -- the node itself comes last
    have hlast : walk m fuel (1 + n) (some j) = j :: walk m fuel n (next m fuel j) := by
      rw [Nat.add_comm, walk]
    have hright' : ∀ jr, r.ptr = some jr →
        walk m fuel (r.post.length + (1 + n)) (some r.first) =
          r.post ++ j :: walk m fuel n (next m fuel j) := by
      intro jr hjr
      have hup : (m jr).up = some j := by
        cases r with
        | nil => nomatch hjr
        | node _ _ _ =>
          obtain rfl := Option.some.inj hjr
          exact hr.1
      have hnext : next m fuel jr = some j := by
        have hne : (m j).left ≠ some jr := by
          rw [hleft]
          intro heq
          exact (Multiset.disjoint_left.mp hdisj (PTree.mem_ids_of_ptr heq))
            (PTree.mem_ids_of_ptr hjr)
        rw [next, hup]
        dsimp only
        rw [hright, hjr]
        exact if_neg hne
      rw [ihr hr hndr hjr (by omega), hnext, hlast]
    cases l with
    | nil =>
      cases r with
      | nil => exact hlast
      | node jr rl rr =>
        have hpost : (PTree.node j .nil (.node jr rl rr)).post =
            (PTree.node jr rl rr).post ++ [j] := rfl
        rw [PTree.first, hpost, List.length_append, List.length_singleton, Nat.add_assoc,
          List.append_assoc, List.singleton_append]
        exact hright' jr rfl
    | node jl ll lr =>
      have hup : (m jl).up = some j := hl.1
      have hlen' : (PTree.node j (PTree.node jl ll lr) r).post.length + n =
          (PTree.node jl ll lr).post.length + (r.post.length + (1 + n)) := by
        rw [hlen]
        omega
      have hpost : (PTree.node j (.node jl ll lr) r).post =
          (PTree.node jl ll lr).post ++ (r.post ++ [j]) := rfl
      rw [hlen', PTree.first, ihl hl hndl rfl (by omega), hpost, List.append_assoc,
        List.append_assoc, List.singleton_append]
      refine congrArg ((PTree.node jl ll lr).post ++ ·) ?_
      cases r with
      | nil =>
        have hnext : next m fuel jl = some j := by
          rw [next, hup]
          dsimp only
          rw [hright]
          rfl
        rw [hnext, PTree.post, List.length_nil, Nat.zero_add, hlast]
        rfl
      | node jr rl rr =>
        have hnext : next m fuel jl = some (first m fuel jr) := by
          rw [next, hup]
          dsimp only
          rw [hright]
          exact if_pos hleft
        rw [hnext, first_eq hr rfl (by omega)]
        exact hright' jr rfl

/-- A sweep of a whole tree meets every node once. -/
theorem walk_eq {fuel : ℕ} (h : Rep m none t) (hnd : t.ids.Nodup) (hi : t.ptr = some i)
    (hfuel : t.post.length < fuel) : walk m fuel fuel (some (first m fuel i)) = t.post := by
  obtain ⟨n, rfl⟩ : ∃ n, fuel = t.post.length + n := ⟨fuel - t.post.length, by omega⟩
  obtain ⟨n, rfl⟩ : ∃ k, n = k + 1 := ⟨n - 1, by omega⟩
  have hnext : next m (t.post.length + (n + 1)) i = none := by
    cases t with
    | nil => nomatch hi
    | node j l r =>
      obtain rfl := Option.some.inj hi
      rw [next, h.1]
  rw [first_eq h hi hfuel.le, walk_first h hnd hi hfuel.le, hnext, walk, List.append_nil]

end ParentTree

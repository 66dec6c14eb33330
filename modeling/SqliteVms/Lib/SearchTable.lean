import Mathlib.Algebra.Order.Ring.Int
import Mathlib.Data.List.Induction

/-!
# Tables that are searched

A search narrows a list down to one place. It looks at an entry of the part that is left, and goes on
in front of it or behind it, or stops if the entry is equal. Which entry it looks at is the matter of
a `pivot`, and of no account here. An entry is inserted where the search for it ends, and overwrites
one that is equal.

The comparison need not be an order. What holds of a table is said by a rank: a function to an order
that the comparison does not contradict. Two entries that are equal have one rank, so that a rank is
not lost when an entry is overwritten.

## Main definitions

* `search`, `lookup`, `insert`, `build` — the operations
* `Places`, `Ranks` — the comparisons do not contradict the ranks

## Main results

* `search_places` — where a search ends
* `lookup_iff` — what a lookup finds
* `build_spec` — a table that is built by insertions
-/

namespace SearchTable

variable {α β : Type*}

/-- The entries in front of the place, the equal one, and those behind it. `c` compares an entry with
what is searched for. -/
def search (pivot : ℕ → ℕ) (c : α → ℤ) (l : List α) : List α × Option α × List α :=
  match _h : l.drop (pivot l.length % l.length) with
  | [] => ([], none, [])
  | e :: post =>
    if c e = 0 then (l.take (pivot l.length % l.length), some e, post)
    else if c e < 0 then
      let r := search pivot c post
      (l.take (pivot l.length % l.length) ++ e :: r.1, r.2)
    else
      let r := search pivot c (l.take (pivot l.length % l.length))
      (r.1, r.2.1, r.2.2 ++ e :: post)
termination_by l.length
decreasing_by
  all_goals
    have hlen := congrArg List.length _h
    rw [List.length_drop, List.length_cons] at hlen
    first
    | omega
    | (rw [List.length_take]; omega)

/-- Whether there is an equal entry. -/
def lookup (pivot : ℕ → ℕ) (c : α → ℤ) (l : List α) : Bool := (search pivot c l).2.1.isSome

/-- An entry is inserted. -/
def insert (pivot : ℕ → ℕ) (cmp : α → α → ℤ) (l : List α) (x : α) : List α :=
  (search pivot (cmp · x) l).1 ++ x :: (search pivot (cmp · x) l).2.2

/-- Entries are inserted into an empty table. -/
def build (pivot : List α → α → ℕ → ℕ) (cmp : α → α → ℤ) (xs : List α) : List α :=
  xs.foldl (fun l x => insert (pivot l x) cmp l x) []

/-! ### The search -/

variable {pivot : ℕ → ℕ} {c : α → ℤ} {cmp : α → α → ℤ} {l xs : List α} {x : α}

theorem drop_eq_nil (h : l.drop (pivot l.length % l.length) = []) : l = [] := by
  by_contra hne
  have hpos := List.length_pos_iff.mpr hne
  have hlt := Nat.mod_lt (pivot l.length) hpos
  have hle := List.drop_eq_nil_iff.mp h
  omega

theorem eq_of_drop {k : ℕ} {e : α} {post : List α} (h : l.drop k = e :: post) :
    l = l.take k ++ e :: post := by rw [← h, List.take_append_drop]

/-- The search takes the table apart. -/
theorem search_append (pivot : ℕ → ℕ) (c : α → ℤ) (l : List α) :
    (search pivot c l).1 ++ ((search pivot c l).2.1.toList ++ (search pivot c l).2.2) = l := by
  fun_induction search pivot c l with
  | case1 l h => exact (drop_eq_nil h).symm
  | case2 l e post h heq => exact (eq_of_drop h).symm
  | case3 l e post h hne hlt r ih =>
    rw [List.append_assoc, List.cons_append, ih]
    exact (eq_of_drop h).symm
  | case4 l e post h hne hlt r ih =>
    rw [← List.append_assoc r.2.1.toList, ← List.append_assoc r.1, ih]
    exact (eq_of_drop h).symm

theorem search_eq_zero {e : α} (h : (search pivot c l).2.1 = some e) : c e = 0 := by
  fun_induction search pivot c l with
  | case1 => exact absurd h (Option.some_ne_none e).symm
  | case2 l e' post _ heq => exact Option.some.inj h ▸ heq
  | case3 l e' post _ hne hlt r ih => exact ih h
  | case4 l e' post _ hne hlt r ih => exact ih h

variable [LinearOrder β] {f : α → β} {t : β}

/-- The comparison of an entry does not contradict the rank `t` of what it is compared with. -/
structure Places (f : α → β) (t : β) (c : α → ℤ) (e : α) : Prop where
  lt : c e < 0 → f e ≤ t
  eq : c e = 0 → f e = t
  gt : 0 < c e → t ≤ f e

/-- The ranks go up. -/
def Sorted (f : α → β) (l : List α) : Prop := l.Pairwise fun a b => f a ≤ f b

theorem sorted_append {l₁ l₂ : List α} : Sorted f (l₁ ++ l₂) ↔
    Sorted f l₁ ∧ Sorted f l₂ ∧ ∀ a ∈ l₁, ∀ b ∈ l₂, f a ≤ f b := List.pairwise_append

/-- **The place** is behind the lower ranks and in front of the higher ones. -/
theorem search_places (pivot : ℕ → ℕ) (hs : Sorted f l) (hc : ∀ e ∈ l, Places f t c e) :
    (∀ e ∈ (search pivot c l).1, f e ≤ t) ∧ ∀ e ∈ (search pivot c l).2.2, t ≤ f e := by
  fun_induction search pivot c l with
  | case1 => exact ⟨fun e he => absurd he List.not_mem_nil, fun e he => absurd he List.not_mem_nil⟩
  | case2 l e post h heq =>
    rw [eq_of_drop h, sorted_append] at hs
    have he : f e = t := (hc e (List.mem_of_mem_drop (h ▸ List.mem_cons_self))).eq heq
    exact ⟨fun a ha => he ▸ hs.2.2 a ha e List.mem_cons_self,
      fun b hb => he ▸ (List.pairwise_cons.mp hs.2.1).1 b hb⟩
  | case3 l e post h hne hlt r ih =>
    rw [eq_of_drop h, sorted_append] at hs
    have he : f e ≤ t := (hc e (List.mem_of_mem_drop (h ▸ List.mem_cons_self))).lt hlt
    obtain ⟨hbefore, hbehind⟩ := ih (List.pairwise_cons.mp hs.2.1).2 fun a ha =>
      hc a (List.mem_of_mem_drop (h ▸ List.mem_cons_of_mem e ha))
    refine ⟨fun a ha => ?_, hbehind⟩
    rcases List.mem_append.mp ha with ha | ha
    · exact (hs.2.2 a ha e List.mem_cons_self).trans he
    · rcases List.mem_cons.mp ha with rfl | ha
      · exact he
      · exact hbefore a ha
  | case4 l e post h hne hlt r ih =>
    rw [eq_of_drop h, sorted_append] at hs
    have he : t ≤ f e := (hc e (List.mem_of_mem_drop (h ▸ List.mem_cons_self))).gt (by omega)
    obtain ⟨hbefore, hbehind⟩ := ih hs.1 fun a ha => hc a (List.mem_of_mem_take ha)
    refine ⟨hbefore, fun b hb => ?_⟩
    rcases List.mem_append.mp hb with hb | hb
    · exact hbehind b hb
    · rcases List.mem_cons.mp hb with rfl | hb
      · exact he
      · exact he.trans ((List.pairwise_cons.mp hs.2.1).1 b hb)

/-- **The lookup** finds an equal entry if there is one, where the comparisons go up. -/
theorem lookup_iff (hs : Sorted (fun e => (c e).sign) l) :
    lookup pivot c l = true ↔ ∃ e ∈ l, c e = 0 := by
  rw [lookup, Option.isSome_iff_exists]
  constructor
  · rintro ⟨e, he⟩
    have hmem : e ∈ l := by
      rw [← search_append pivot c l, he]
      simp
    exact ⟨e, hmem, search_eq_zero he⟩
  · rintro ⟨e, hmem, heq⟩
    fun_induction search pivot c l with
    | case1 l h => exact absurd (drop_eq_nil h ▸ hmem) List.not_mem_nil
    | case2 l e' post h heq' => exact ⟨e', rfl⟩
    | case3 l e' post h hne hlt r ih =>
      rw [eq_of_drop h, sorted_append] at hs
      rw [eq_of_drop h, List.mem_append, List.mem_cons] at hmem
      rcases hmem with hmem | rfl | hmem
      · have hle : (c e).sign ≤ (c e').sign := hs.2.2 e hmem e' List.mem_cons_self
        rw [heq, Int.sign_eq_neg_one_of_neg hlt] at hle
        exact absurd hle (by decide)
      · exact absurd heq hne
      · exact ih (List.pairwise_cons.mp hs.2.1).2 hmem
    | case4 l e' post h hne hlt r ih =>
      rw [eq_of_drop h, sorted_append] at hs
      rw [eq_of_drop h, List.mem_append, List.mem_cons] at hmem
      rcases hmem with hmem | rfl | hmem
      · exact ih hs.1 hmem
      · exact absurd heq hne
      · have hle : (c e').sign ≤ (c e).sign := (List.pairwise_cons.mp hs.2.1).1 e hmem
        rw [heq, Int.sign_eq_one_of_pos (by omega)] at hle
        exact absurd hle (by decide)

/-! ### The table -/

/-- The comparisons of the entries do not contradict their ranks. -/
def Ranks (f : α → β) (cmp : α → α → ℤ) (S : Set α) : Prop :=
  ∀ x ∈ S, ∀ e ∈ S, Places f (f x) (cmp · x) e

theorem mem_insert {e : α} (h : e ∈ insert pivot cmp l x) : e = x ∨ e ∈ l := by
  have happ := search_append pivot (cmp · x) l
  rw [insert, List.mem_append, List.mem_cons] at h
  rw [← happ, List.mem_append, List.mem_append]
  tauto

theorem insert_sorted (hs : Sorted f l) (hc : ∀ e ∈ l, Places f (f x) (cmp · x) e) :
    Sorted f (insert pivot cmp l x) := by
  obtain ⟨hbefore, hbehind⟩ := search_places pivot hs hc
  have happ := search_append pivot (cmp · x) l
  rw [← happ, sorted_append, sorted_append] at hs
  rw [insert, sorted_append]
  refine ⟨hs.1, List.pairwise_cons.mpr ⟨hbehind, hs.2.1.2.1⟩, fun a ha b hb => ?_⟩
  rcases List.mem_cons.mp hb with rfl | hb
  · exact hbefore a ha
  · exact (hbefore a ha).trans (hbehind b hb)

theorem insert_rank (hc : ∀ e ∈ l, Places f (f x) (cmp · x) e) (t : β) :
    (∃ e ∈ insert pivot cmp l x, f e = t) ↔ f x = t ∨ ∃ e ∈ l, f e = t := by
  have happ := search_append pivot (cmp · x) l
  constructor
  · rintro ⟨e, he, rfl⟩
    rcases mem_insert he with rfl | he
    · exact Or.inl rfl
    · exact Or.inr ⟨e, he, rfl⟩
  · rintro (rfl | ⟨e, he, rfl⟩)
    · exact ⟨x, List.mem_append_right _ List.mem_cons_self, rfl⟩
    · have hmem := he
      rw [← happ, List.mem_append, List.mem_append, Option.mem_toList] at hmem
      rcases hmem with hmem | hmem | hmem
      · exact ⟨e, List.mem_append_left _ hmem, rfl⟩
      · exact ⟨x, List.mem_append_right _ List.mem_cons_self,
          ((hc e he).eq (search_eq_zero (c := (cmp · x)) hmem)).symm⟩
      · exact ⟨e, List.mem_append_right _ (List.mem_cons_of_mem x hmem), rfl⟩

/-- **The table** goes up in rank and has the ranks of what was inserted. -/
theorem build_spec (pivot : List α → α → ℕ → ℕ) (h : Ranks f cmp {x | x ∈ xs}) :
    Sorted f (build pivot cmp xs) ∧ (∀ e ∈ build pivot cmp xs, e ∈ xs) ∧
      ∀ t, (∃ e ∈ build pivot cmp xs, f e = t) ↔ ∃ e ∈ xs, f e = t := by
  induction xs using List.reverseRecOn with
  | nil => exact ⟨List.Pairwise.nil, fun e he => he, fun t => Iff.rfl⟩
  | append_singleton xs x ih =>
    obtain ⟨hsorted, hmem, hrank⟩ := ih fun y hy e he =>
      h y (List.mem_append_left _ hy) e (List.mem_append_left _ he)
    have hbuild : build pivot cmp (xs ++ [x]) =
        insert (pivot (build pivot cmp xs) x) cmp (build pivot cmp xs) x := by
      rw [build, List.foldl_append]
      rfl
    have hc : ∀ e ∈ build pivot cmp xs, Places f (f x) (cmp · x) e := fun e he =>
      h x (List.mem_append_right _ List.mem_cons_self) e (List.mem_append_left _ (hmem e he))
    rw [hbuild]
    refine ⟨insert_sorted hsorted hc, fun e he => ?_, fun t => ?_⟩
    · rcases mem_insert he with rfl | he
      · exact List.mem_append_right _ List.mem_cons_self
      · exact List.mem_append_left _ (hmem e he)
    · rw [insert_rank hc, hrank]
      simp only [List.mem_append, List.mem_singleton, or_and_right, exists_or, exists_eq_left]
      exact or_comm

end SearchTable

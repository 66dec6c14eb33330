import SqliteVms.Btree.FreeList
import SqliteVms.Lib.Run
import Mathlib.Order.Interval.Finset.Nat

/-!
# The free list is a set of pages

`FreeSet` is what the free list is for: a finite set of page numbers and a file length. The two
functions of the free list are steps of it, on every image whose chain is well formed.

A call fails on such an image when the file cannot grow, when someone holds the page, and when a
search has nothing to find: `BTALLOC_LE` with free pages but none up to `nearby`, and
`BTALLOC_EXACT` with a page in use whose pointer-map entry is missing or says it is free. The
callers make no such call; `Admissible` states what they see to.

## Main definitions

* `FreeSet.Alloc` — what an allocation may answer
* `WellFormed` — the image has a well-formed free list that holds this set
* `Represents` — and its pointer map has the free pages as free
* `Admissible` — the calls that cannot fail
* `Call`, `State`, `step` — runs of the two functions, the set carried along

## Main results

* `represents_alloc`, `represents_free` — each call is a step of the set
* `freeList_run` — so is every call of every run
-/

namespace SqliteVms

namespace Btree

open Store BigEndian

/-- A set of free pages, and the length of the file. -/
structure FreeSet where
  free : Finset ℕ
  nPage : ℕ

variable (g : Geom)

/-- `p` is the first page after `n` that may be used. -/
def IsNextPage (n p : ℕ) : Prop :=
  n < p ∧ Ordinary g p ∧ ∀ q, n < q → q < p → ¬ Ordinary g q

/-- What an allocation may answer: a free page, the one asked for where it is free, or the next
page past the end when nothing is free. -/
def FreeSet.Alloc (a : FreeSet) (eMode : AllocMode) (nearby pgno : ℕ) : Prop :=
  (pgno ∈ a.free ∧ (eMode = .exact → nearby ∈ a.free → pgno = nearby) ∧
    (eMode = .le → (∃ p ∈ a.free, p ≤ nearby) → pgno ≤ nearby)) ∨
  (a.free = ∅ ∧ IsNextPage g a.nPage pgno)

/-- The set after page `pgno` was allocated. -/
def FreeSet.alloc (a : FreeSet) (pgno : ℕ) : FreeSet where
  free := a.free.erase pgno
  nPage := max a.nPage pgno

/-- The set after page `pgno` was freed. -/
def FreeSet.release (a : FreeSet) (pgno : ℕ) : FreeSet where
  free := insert pgno a.free
  nPage := a.nPage

/-- The pages in use: in the file, and neither free nor reserved. -/
def FreeSet.Used (a : FreeSet) (p : ℕ) : Prop := Ordinary g p ∧ p ≤ a.nPage ∧ p ∉ a.free

/-- **The image has a well-formed free list, and it holds the set `a`.** The chain that starts at
offset 32 of page 1 runs through distinct ordinary pages of the file, its trunks are not overfull,
and the two counts of page 1 are right. -/
structure WellFormed (db : Db) (a : FreeSet) : Prop where
  list : ∃ ts, ListAt g db (1, 32) ts ∧ a.free = (freeOf db.page ts).toFinset
  freeCount : get4 (db.page 1) 36 = a.free.card
  pageCount : get4 (db.page 1) 28 = a.nPage
  nPage_eq : db.nPage = a.nPage
  one_le : 1 ≤ a.nPage
  le_mx : a.nPage ≤ g.mxPgno

/-- A well-formed free list, and a pointer map that has free pages as free. -/
structure Represents (db : Db) (a : FreeSet) : Prop extends WellFormed g db a where
  map : g.autoVacuum = true → ∀ p ∈ a.free, ptrmapType g db p = ptrmapFreepage

section Alloc

variable {g} {db : Db} {a : FreeSet}

theorem Represents.mem_free (h : Represents g db a) {p : ℕ} (hp : p ∈ a.free) :
    Ordinary g p ∧ p ≤ db.nPage := by
  obtain ⟨ts, hlist, hfree⟩ := h.list
  rw [hfree, List.mem_toFinset] at hp
  exact hlist.inFile p hp

/-- Free pages are pages other than the first. -/
theorem Represents.card_lt (h : Represents g db a) : a.free.card < a.nPage := by
  have hsub : a.free ⊆ Finset.Icc 2 a.nPage := fun p hp => by
    obtain ⟨hord, hle⟩ := h.mem_free hp
    rw [Finset.mem_Icc]
    exact ⟨hord.1, h.nPage_eq ▸ hle⟩
  have hcard := Finset.card_le_card hsub
  have := h.one_le
  rw [Nat.card_Icc] at hcard
  omega

theorem length_le_freeOf (page : ℕ → ℕ → UInt8) (ts : List ℕ) :
    ts.length ≤ (freeOf page ts).length := by
  induction ts with
  | nil => exact Nat.zero_le _
  | cons t ts ih =>
    rw [freeOf_cons, List.length_cons, List.length_cons, List.length_append]
    omega

/-- A chain is not touched by what happens to other pages, if the link stays. -/
theorem ListAt.of_same (db' : Db) {lnk : ℕ × ℕ} {ts : List ℕ} (h : ListAt g db lnk ts)
    (hlink : get4 (db'.page lnk.1) lnk.2 = get4 (db.page lnk.1) lnk.2)
    (hsame : ∀ p ∈ freeOf db.page ts, db'.page p = db.page p) (hn : db'.nPage = db.nPage) :
    ListAt g db' lnk ts ∧ freeOf db'.page ts = freeOf db.page ts := by
  have htrunks : ∀ t ∈ ts, db'.page t = db.page t := fun t ht => hsame t (mem_freeOf_of_mem _ ht)
  have hfree := freeOf_congr htrunks
  refine ⟨⟨?_, ?_, ?_, ?_⟩, hfree⟩
  · rw [hlink]
    exact chain_congr htrunks h.chain
  · rw [hfree]
    exact h.nodup
  · rw [hfree]
    exact h.fresh
  · rw [hfree, hn]
    exact h.inFile

/-! ### The end of the file -/

/-- The pages behind a map page have their entries on it. -/
theorem ptrmapPageno_of_map {m q : ℕ} (hm : 2 ≤ m) (hmap : isPtrmapPage g m = true)
    (hlt : m < q) (hle : q ≤ m + 2) : ptrmapPageno g q = m := by
  rw [isPtrmapPage, beq_iff_eq, ptrmapPageno_of_ge hm] at hmap
  have hn := pagesPerMapPage_ge g
  have hdiv : (q - 2) / pagesPerMapPage g = (m - 2) / pagesPerMapPage g := by
    set d := (m - 2) / pagesPerMapPage g
    refine Nat.div_eq_of_lt_le ?_ ?_
    · split at hmap <;> omega
    · rw [Nat.add_mul]
      split at hmap <;> omega
  rw [ptrmapPageno_of_ge (by omega), hdiv, hmap]

theorem bumpPage_spec (n : ℕ) : n < bumpPage g n ∧ bumpPage g n ≤ n + 2 ∧
    bumpPage g n ≠ pendingBytePage g ∧
    ∀ q, n < q → q < bumpPage g n → q = pendingBytePage g := by
  unfold bumpPage
  split <;> refine ⟨?_, ?_, ?_, ?_⟩ <;> intros <;> omega

/-- The page number `extendFile` goes for. -/
def nextPage (g : Geom) (n : ℕ) : ℕ :=
  if g.autoVacuum = true ∧ isPtrmapPage g (bumpPage g n) = true then bumpPage g (bumpPage g n)
  else bumpPage g n

theorem isNextPage_nextPage {n : ℕ} (hn : 1 ≤ n) : IsNextPage g n (nextPage g n) := by
  obtain ⟨hlt, -, hpend, hbetween⟩ := bumpPage_spec (g := g) n
  obtain ⟨hlt', hle', hpend', hbetween'⟩ := bumpPage_spec (g := g) (bumpPage g n)
  rw [nextPage]
  split
  · rename_i hmap
    refine ⟨by omega, ⟨by omega, hpend', fun _ => ?_⟩, fun q hq hq' hord => ?_⟩
    · rw [isPtrmapPage, beq_eq_false_iff_ne, ptrmapPageno_of_map (by omega) hmap.2 hlt' hle']
      omega
    · rcases Nat.lt_trichotomy q (bumpPage g n) with h | h | h
      · exact hord.2.1 (hbetween q hq h)
      · have := hord.2.2 hmap.1
        rw [h, hmap.2] at this
        exact Bool.noConfusion this
      · exact hord.2.1 (hbetween' q h hq')
  · rename_i hmap
    refine ⟨hlt, ⟨by omega, hpend, fun hav => ?_⟩, fun q hq hq' hord => ?_⟩
    · exact Bool.eq_false_iff.mpr fun h => hmap ⟨hav, h⟩
    · exact hord.2.1 (hbetween q hq hq')

variable (fetch : ℕ → ℕ → UInt8)

theorem appendPage_ok {dbSize pgno : ℕ} (hacq : acquire g dbSize pgno = .ok) :
    appendPage g fetch db dbSize pgno =
      (.ok pgno, ((({ db with nPage := pgno } : Db).put 1 28 pgno).update pgno (fetch pgno))) := by
  rw [appendPage]
  rw [hacq, if_neg (by simp)]

/-- A page past the end can be had exactly up to the limit. -/
theorem acquire_past_end {dbSize pgno : ℕ} (h0 : dbSize < pgno) (hpend : pgno ≠ pendingBytePage g) :
    acquire g dbSize pgno = .ok ↔ pgno ≤ g.mxPgno := by
  have hmx := g.mxPgno_lt
  rw [acquire]
  split_ifs <;> simp <;> omega

/-- **Allocation at the end of the file.** -/
theorem extendFile_spec (hn : 1 ≤ db.nPage) :
    (nextPage g db.nPage ≤ g.mxPgno ∧ ∃ db', extendFile g fetch db = (.ok (nextPage g db.nPage), db') ∧
      db'.nPage = nextPage g db.nPage ∧ db'.page 1 = put4 (db.page 1) 28 (nextPage g db.nPage)) ∨
    (g.mxPgno < nextPage g db.nPage ∧ ∃ rc db', extendFile g fetch db = (.error rc, db')) := by
  obtain ⟨hlt, -, hpend, -⟩ := bumpPage_spec (g := g) db.nPage
  obtain ⟨hlt', -, hpend', -⟩ := bumpPage_spec (g := g) (bumpPage g db.nPage)
  rw [extendFile, nextPage]
  split
  · -- a map page comes first
    rcases Nat.lt_or_ge g.mxPgno (bumpPage g (bumpPage g db.nPage)) with hfull | hroom
    · refine Or.inr ⟨hfull, ?_⟩
      split
      · exact ⟨_, _, rfl⟩
      · have hacq := (acquire_past_end (hlt.trans hlt') hpend').not.mpr (by omega)
        rw [appendPage]
        rw [if_pos hacq]
        exact ⟨_, _, rfl⟩
    · refine Or.inl ⟨hroom, ?_⟩
      rw [(acquire_past_end hlt hpend).mpr (by omega), if_neg (by simp),
        appendPage_ok _ ((acquire_past_end (hlt.trans hlt') hpend').mpr hroom)]
      refine ⟨_, rfl, rfl, ?_⟩
      rw [Db.update_page_of_ne _ (by omega), Db.put_page_self]
      exact congrArg (put4 · 28 _) (Db.update_page_of_ne _ (by omega) _)
  · rcases Nat.lt_or_ge g.mxPgno (bumpPage g db.nPage) with hfull | hroom
    · refine Or.inr ⟨hfull, ?_⟩
      rw [appendPage]
      rw [if_pos ((acquire_past_end hlt hpend).not.mpr (by omega))]
      exact ⟨_, _, rfl⟩
    · refine Or.inl ⟨hroom, ?_⟩
      rw [appendPage_ok _ ((acquire_past_end hlt hpend).mpr hroom)]
      refine ⟨_, rfl, rfl, ?_⟩
      rw [Db.update_page_of_ne _ (by omega), Db.put_page_self]

/-- Allocation at the end of the file leaves the pages that were there, page 1 apart. -/
theorem extendFile_page {q : ℕ} (h1 : q ≠ 1) (hle : q ≤ db.nPage) :
    (extendFile g fetch db).2.page q = db.page q := by
  obtain ⟨hlt, -, -, -⟩ := bumpPage_spec (g := g) db.nPage
  obtain ⟨hlt', -, -, -⟩ := bumpPage_spec (g := g) (bumpPage g db.nPage)
  have happend : ∀ (db₁ : Db) n p, q ≠ p →
      (appendPage g fetch db₁ n p).2.page q = db₁.page q := by
    intro db₁ n p hqp
    rw [appendPage]
    split
    · exact Db.put_page_of_ne _ h1 _ _
    · rw [Db.update_page_of_ne _ hqp]
      exact Db.put_page_of_ne _ h1 _ _
  rw [extendFile]
  split
  · split
    · rfl
    · rw [happend _ _ _ (by omega), Db.update_page_of_ne _ (by omega)]
  · exact happend _ _ _ (by omega)

/-! ### One allocation -/

/-- What is taken off the chain leaves the set. -/
theorem Represents.of_taken (h : Represents g db a) {ts : List ℕ} (hlist : ListAt g db (1, 32) ts)
    (hfree : a.free = (freeOf db.page ts).toFinset) {db' : Db} {pgno : ℕ}
    (htaken : Taken g (db.put 1 36 (a.free.card - 1)) db' (1, 32) ts pgno)
    (hfreeOf : freeOf (db.put 1 36 (a.free.card - 1)).page ts = freeOf db.page ts) :
    pgno ∈ a.free ∧ Represents g db' (a.alloc pgno) := by
  obtain ⟨⟨ts', hchain, hperm⟩, hn, hlink, hframe⟩ := htaken
  rw [hfreeOf] at hperm hframe
  have hcard := h.card_lt
  have hle := h.le_mx
  have hmx := g.mxPgno_lt
  have hnodup := hperm.nodup_iff.mpr hlist.nodup
  rw [List.nodup_cons] at hnodup
  have hmem : pgno ∈ a.free := by
    rw [hfree, List.mem_toFinset]
    exact hperm.subset List.mem_cons_self
  have hsub : ∀ p ∈ freeOf db'.page ts', p ∈ freeOf db.page ts :=
    fun p hp => hperm.subset (List.mem_cons_of_mem _ hp)
  have hnPage : db'.nPage = db.nPage := hn
  have hpgle : pgno ≤ a.nPage := h.nPage_eq ▸ (h.mem_free hmem).2
  -- page 1 outside the link
  have hone : ∀ off, off + 4 ≤ 32 ∨ 36 ≤ off →
      get4 (db'.page 1) off = get4 ((db.put 1 36 (a.free.card - 1)).page 1) off :=
    fun off hoff => get4_congr fun i hi => hlink _ (by omega)
  refine ⟨hmem, ⟨⟨ts', ⟨hchain, hnodup.2, fun hp => hlist.fresh (hsub _ hp), fun p hp => ?_⟩, ?_⟩,
    ?_, ?_, ?_, ?_, ?_⟩, ?_⟩
  · rw [hnPage]
    exact hlist.inFile p (hsub p hp)
  · rw [FreeSet.alloc, hfree, ← List.toFinset_eq_of_perm _ _ hperm, List.toFinset_cons]
    refine Finset.erase_insert ?_
    rw [List.mem_toFinset]
    exact hnodup.1
  · rw [hone 36 (by omega), Db.put_page_self, get4_put4_self _ _ (by omega)]
    exact (Finset.card_erase_of_mem hmem).symm
  · rw [hone 28 (by omega), Db.put_page_self, get4_put4_of_disjoint (by omega), h.pageCount]
    exact (max_eq_left hpgle).symm
  · rw [hnPage, h.nPage_eq]
    exact (max_eq_left hpgle).symm
  · exact h.one_le.trans (le_max_left _ _)
  · exact max_le hle (hpgle.trans hle)
  · intro hav p hp
    have hpfree := Finset.mem_of_mem_erase hp
    have hp2 := (h.mem_free hpfree).1.1
    have hne1 : ptrmapPageno g p ≠ 1 := by
      have := two_le_ptrmapPageno (g := g) hp2
      omega
    rw [← h.map hav p hpfree]
    refine ptrmapType_congr ?_
    rw [hframe _ hne1 fun hm => (hlist.inFile _ hm).1.ne_ptrmapPageno hav hp2 rfl,
      Db.put_page_of_ne _ hne1]

/-- When nothing is free, only the length of the file changes. -/
theorem Represents.of_extended (h : Represents g db a) (hempty : a.free = ∅) {db' : Db} {pgno : ℕ}
    (hlt : db.nPage < pgno) (hroom : pgno ≤ g.mxPgno) (hn : db'.nPage = pgno)
    (hone : db'.page 1 = put4 (db.page 1) 28 pgno) : Represents g db' (a.alloc pgno) := by
  have hmx := g.mxPgno_lt
  have hnil : ∀ {ts}, a.free = (freeOf db.page ts).toFinset → ts = [] := by
    intro ts hfree
    cases ts with
    | nil => rfl
    | cons t ts =>
      have ht : t ∈ a.free := by
        rw [hfree, List.mem_toFinset]
        exact mem_freeOf_of_mem _ List.mem_cons_self
      rw [hempty] at ht
      exact absurd ht (Finset.notMem_empty _)
  have hsame : a.alloc pgno = ⟨∅, pgno⟩ := by
    rw [FreeSet.alloc, hempty, Finset.erase_empty, max_eq_right (by have := h.nPage_eq; omega)]
  obtain ⟨ts, hlist, hfree⟩ := h.list
  obtain rfl := hnil hfree
  have hlink : get4 (db'.page 1) 32 = 0 := by
    rw [hone, get4_put4_of_disjoint (by omega)]
    exact hlist.chain
  rw [hsame]
  refine ⟨⟨⟨[], ⟨hlink, by simp, by simp, by simp⟩, by simp⟩, ?_, ?_, hn,
    show 1 ≤ pgno by omega, hroom⟩, ?_⟩
  · rw [hone, get4_put4_of_disjoint (by omega), h.freeCount, hempty]
  · rw [hone, get4_put4_self _ _ (by omega)]
  · intro _ p hp
    exact absurd hp (Finset.notMem_empty p)

end Alloc

section AllocStep

variable {g} {db : Db} {a : FreeSet} (fetch : ℕ → ℕ → UInt8) (held : ℕ → Bool) (eMode : AllocMode)
  (nearby : ℕ)

/-- What the first assertion of `allocateBtreePage` and the type of `nearby` say of a call. -/
def AllocLegal (g : Geom) (eMode : AllocMode) (nearby : ℕ) : Prop :=
  nearby < 2 ^ 32 ∧ (eMode ≠ .any → 0 < nearby ∧ g.autoVacuum = true)

/-- An allocation that cannot fail: nobody holds a page that is not in use, the file can grow if
nothing is free, `BTALLOC_LE` has a page to find if anything is free, and `BTALLOC_EXACT` is asked
for a free page, for one past the end, or for one the pointer map knows to be in use. -/
structure AllocAdmissible (g : Geom) (db : Db) (a : FreeSet) (held : ℕ → Bool) (eMode : AllocMode)
    (nearby : ℕ) : Prop where
  notHeld : ∀ p, p ∈ a.free ∨ a.nPage < p → held p = false
  room : a.free = ∅ → ∀ p, IsNextPage g a.nPage p → p ≤ g.mxPgno
  le : eMode = .le → a.free = ∅ ∨ ∃ p ∈ a.free, p ≤ nearby
  exact : eMode = .exact → a.free = ∅ ∨ a.nPage < nearby ∨ nearby ∈ a.free ∨
    ∃ e, ptrmapGet g db nearby = .ok e ∧ e.1 ≠ ptrmapFreepage

theorem hit_exact {p : ℕ} : Hit .exact nearby p ↔ p = nearby := by
  simp [Hit]

theorem hit_le {p : ℕ} : Hit .le nearby p ↔ p ≤ nearby := by
  simp [Hit, le_iff_eq_or_lt]

/-- The pointer map is asked for a free page and knows it. -/
theorem ptrmapGet_free (h : Represents g db a) (hav : g.autoVacuum = true) {p : ℕ}
    (hp : p ∈ a.free) : ∃ parent, ptrmapGet g db p = .ok (ptrmapFreepage, parent) := by
  obtain ⟨hord, hle⟩ := h.mem_free hp
  have hlt := hord.ptrmapPageno_lt hav
  have hge := two_le_ptrmapPageno (g := g) hord.1
  have hacq : acquire g db.nPage (ptrmapPageno g p) = .ok :=
    acquire_of_le (by omega) (ptrmapPageno_ne_pending hord.1) (by omega) (h.nPage_eq ▸ h.le_mx)
  refine ⟨get4 (db.page (ptrmapPageno g p)) (5 * (p - ptrmapPageno g p - 1) + 1), ?_⟩
  rw [ptrmapGet]
  dsimp only
  rw [hacq, if_neg (by simp), hord.ptrmapPtroffset hav, if_neg (by omega), h.map hav p hp,
    if_neg (by decide), Int.toNat_natCast]

/-- `searchList` and what it means: the chain is searched in mode `BTALLOC_LE`, and in mode
`BTALLOC_EXACT` at least when `nearby` is free. -/
theorem searchList_spec (h : Represents g db a) (hlegal : AllocLegal g eMode nearby) :
    (∃ rc, searchList g eMode nearby db = .error rc ∧ (a.free ≠ ∅ →
      ¬ AllocAdmissible g db a held eMode nearby)) ∨
    ∃ search, searchList g eMode nearby db = .ok search ∧
      (search = true → 0 < nearby ∧ nearby < 2 ^ 32) ∧
      (eMode = .le → search = true) ∧ (eMode = .exact → nearby ∈ a.free → search = true) ∧
      (search = true → a.free ≠ ∅ → (∀ p ∈ a.free, ¬ Hit eMode nearby p) →
        ¬ AllocAdmissible g db a held eMode nearby) := by
  obtain ⟨hn, hmode⟩ := hlegal
  cases eMode with
  | any => exact Or.inr ⟨false, rfl, by simp, by simp, by simp, by simp⟩
  | le =>
    refine Or.inr ⟨true, rfl, fun _ => ⟨(hmode (by simp)).1, hn⟩, fun _ => rfl, by simp, ?_⟩
    intro _ hne hmiss hadm
    rcases hadm.le rfl with h0 | ⟨p, hp, hle⟩
    · exact hne h0
    · exact hmiss p hp ((hit_le nearby).mpr hle)
  | exact =>
    obtain ⟨hpos, hav⟩ := hmode (by simp)
    rw [searchList]
    by_cases hle : nearby ≤ db.nPage
    · rw [if_pos hle]
      cases hget : ptrmapGet g db nearby with
      | error rc =>
        refine Or.inl ⟨rc, rfl, fun hne hadm => ?_⟩
        rcases hadm.exact rfl with h0 | h1 | h2 | ⟨e, he, -⟩
        · exact hne h0
        · rw [← h.nPage_eq] at h1
          omega
        · obtain ⟨parent, hok⟩ := ptrmapGet_free h hav h2
          rw [hget] at hok
          cases hok
        · rw [hget] at he
          cases he
      | ok e =>
        refine Or.inr ⟨e.1 == ptrmapFreepage, rfl, fun _ => ⟨hpos, hn⟩, by simp, ?_, ?_⟩
        · intro _ hfree
          obtain ⟨parent, hok⟩ := ptrmapGet_free h hav hfree
          rw [hget] at hok
          cases hok
          rfl
        · intro hs hne hmiss hadm
          rcases hadm.exact rfl with h0 | h1 | h2 | ⟨e', he', hty⟩
          · exact hne h0
          · rw [← h.nPage_eq] at h1
            omega
          · exact hmiss nearby h2 ((hit_exact nearby).mpr rfl)
          · rw [hget] at he'
            cases he'
            exact hty (by simpa using hs)
    · rw [if_neg hle]
      refine Or.inr ⟨false, rfl, by simp, by simp, fun _ hfree => ?_, by simp⟩
      exact absurd (h.mem_free hfree).2 hle

/-- One allocation, with what it leaves as it was: every page of the file but page 1 and the free
ones. -/
theorem allocateBtreePage_spec (h : Represents g db a) (hlegal : AllocLegal g eMode nearby) :
    (∃ pgno db', allocateBtreePage g fetch eMode nearby held db = some (.ok pgno, db') ∧
      a.Alloc g eMode nearby pgno ∧ Represents g db' (a.alloc pgno) ∧
      ∀ q, q ≠ 1 → q ∉ a.free → q ≤ db.nPage → db'.page q = db.page q) ∨
    ((∃ rc db', allocateBtreePage g fetch eMode nearby held db = some (.error rc, db')) ∧
      ¬ AllocAdmissible g db a held eMode nearby) := by
  have hcard := h.card_lt
  obtain ⟨ts, hlist, hfree⟩ := h.list
  have hlen : a.free.card = (freeOf db.page ts).length := by
    rw [hfree, List.toFinset_card_of_nodup hlist.nodup]
  rw [allocateBtreePage]
  rw [h.freeCount, if_neg (by have := h.nPage_eq; omega)]
  rcases Nat.eq_zero_or_pos a.free.card with h0 | hpos
  · -- nothing is free: the file grows
    rw [if_neg (by omega)]
    have hempty := Finset.card_eq_zero.mp h0
    have hnext := isNextPage_nextPage (g := g) (h.nPage_eq ▸ h.one_le)
    rcases extendFile_spec fetch (h.nPage_eq ▸ h.one_le) with
      ⟨hroom, db', hext, hn, hone⟩ | ⟨hfull, rc, db', hext⟩
    · rw [hext, checkPageRefcount]
      cases hheld : held (nextPage g db.nPage) with
      | true =>
        refine Or.inr ⟨⟨_, _, rfl⟩, fun hadm => ?_⟩
        rw [hadm.notHeld _ (Or.inr (h.nPage_eq ▸ hnext.1))] at hheld
        exact Bool.noConfusion hheld
      | false =>
        refine Or.inl ⟨_, _, rfl, Or.inr ⟨hempty, h.nPage_eq ▸ hnext⟩, ?_, ?_⟩
        · exact h.of_extended hempty hnext.1 hroom hn hone
        · intro q h1 _ hle
          rw [← extendFile_page fetch h1 hle, hext]
    · rw [hext, checkPageRefcount]
      refine Or.inr ⟨⟨_, _, rfl⟩, fun hadm => ?_⟩
      rw [h.nPage_eq] at hnext hfull
      have := hadm.room hempty _ hnext
      omega
  · rw [if_pos hpos]
    have hne : a.free ≠ ∅ := Finset.card_pos.mp hpos |>.ne_empty
    rcases searchList_spec held eMode nearby h hlegal with ⟨rc, hs, hbad⟩ |
      ⟨search, hs, hnear, hle, hexact, hbad⟩
    · rw [hs]
      exact Or.inr ⟨⟨_, _, rfl⟩, hbad hne⟩
    · rw [hs]
      have hpage1 : (1 : ℕ) ∉ freeOf db.page ts := hlist.fresh
      obtain ⟨hlist₁, hfreeOf⟩ := hlist.of_same (db.put 1 36 (a.free.card - 1))
        (by rw [Db.put_page_self, get4_put4_of_disjoint (by omega)])
        (fun p hp => Db.put_page_of_ne _ (ne_of_mem_of_not_mem hp hpage1) _ _) rfl
      have hfuel : ts.length < db.nPage + 1 := by
        have := length_le_freeOf db.page ts
        have := h.nPage_eq
        omega
      have hmx₁ : (db.put 1 36 (a.free.card - 1)).nPage ≤ g.mxPgno := h.nPage_eq ▸ h.le_mx
      dsimp only
      rcases allocLoop_spec fetch eMode nearby search hmx₁ hlist₁ hnear hfuel with
        ⟨p, db', hloop, htaken, hhit⟩ | ⟨⟨rc, db', hloop⟩, hnil, hmiss⟩
      · obtain ⟨hmem, hrep⟩ := h.of_taken hlist hfree htaken hfreeOf
        rw [hloop, Option.map_some, checkPageRefcount]
        cases hheld : held p with
        | true =>
          refine Or.inr ⟨⟨_, _, rfl⟩, fun hadm => ?_⟩
          rw [hadm.notHeld p (Or.inl hmem)] at hheld
          exact Bool.noConfusion hheld
        | false =>
          refine Or.inl ⟨p, db', rfl, Or.inl ⟨hmem, ?_, ?_⟩, hrep, ?_⟩
          · rintro rfl hn
            exact (hit_exact nearby).mp (hhit (hexact rfl hn))
          · rintro rfl -
            exact (hit_le nearby).mp (hhit (hle rfl))
          · intro q h1 hq _
            rw [hfree, List.mem_toFinset, ← hfreeOf] at hq
            rw [htaken.frame q h1 hq, Db.put_page_of_ne _ h1]
      · rw [hloop, Option.map_some, checkPageRefcount]
        refine Or.inr ⟨⟨_, _, rfl⟩, ?_⟩
        have hts : ts ≠ [] := by
          rintro rfl
          rw [freeOf_nil] at hfree
          exact hne hfree
        have hs' : search = true := by
          cases search with
          | true => rfl
          | false => exact absurd (hnil rfl) hts
        refine hbad hs' hne fun p hp => hmiss p ?_
        rw [hfreeOf]
        rwa [hfree, List.mem_toFinset] at hp

/-- **One allocation.** It answers a page the set allows and the image follows the set, or it was
not admissible. -/
theorem represents_alloc (h : Represents g db a) (hlegal : AllocLegal g eMode nearby) :
    (∃ pgno db', allocateBtreePage g fetch eMode nearby held db = some (.ok pgno, db') ∧
      a.Alloc g eMode nearby pgno ∧ Represents g db' (a.alloc pgno)) ∨
    ((∃ rc db', allocateBtreePage g fetch eMode nearby held db = some (.error rc, db')) ∧
      ¬ AllocAdmissible g db a held eMode nearby) := by
  rcases allocateBtreePage_spec fetch held eMode nearby h hlegal with
    ⟨pgno, db', hans, halloc, hrep, -⟩ | hbad
  · exact Or.inl ⟨pgno, db', hans, halloc, hrep⟩
  · exact Or.inr hbad

end AllocStep

/-! ### One page freed -/

section FreeStep

variable {g} {db : Db} {a : FreeSet} {iPage : ℕ} (inCache : Bool)

theorem FreeSet.Used.acquire (h : Represents g db a) (hp : a.Used g iPage) :
    acquire g db.nPage iPage = .ok :=
  hp.1.acquire (h.nPage_eq ▸ hp.2.1) (h.nPage_eq ▸ h.le_mx)

/-- The image once the page is counted, wiped and marked, before it is put on the chain. -/
structure Marked (g : Geom) (db db' : Db) (a : FreeSet) (iPage : ℕ) : Prop where
  nPage : db'.nPage = db.nPage
  one : db'.page 1 = put4 (db.page 1) 36 (a.free.card + 1)
  same : ∀ p ∈ a.free, db'.page p = db.page p
  map : g.autoVacuum = true → ∀ p ∈ insert iPage a.free, ptrmapType g db' p = ptrmapFreepage

theorem wipePage_spec (h : Represents g db a) (hp : a.Used g iPage) :
    ∃ db', wipePage g inCache iPage (db.put 1 36 (a.free.card + 1)) = (.ok, db') ∧
      db'.nPage = db.nPage ∧
      ∀ q, q ≠ iPage → db'.page q = (db.put 1 36 (a.free.card + 1)).page q := by
  rw [wipePage]
  split
  · rw [Db.put_nPage, hp.acquire h, if_neg (by simp)]
    exact ⟨_, rfl, rfl, fun q hq => Db.update_page_of_ne _ hq _⟩
  · exact ⟨_, rfl, rfl, fun q _ => rfl⟩

theorem marked_of_used (h : Represents g db a) (hp : a.Used g iPage) :
    ∃ db₁ db₂, wipePage g inCache iPage (db.put 1 36 (a.free.card + 1)) = (.ok, db₁) ∧
      markFree g iPage db₁ = (.ok, db₂) ∧ Marked g db db₂ a iPage := by
  obtain ⟨db₁, hwipe, hn, hframe⟩ := wipePage_spec inCache h hp
  obtain ⟨hord, hle, hnot⟩ := hp
  have h1 : (1 : ℕ) ≠ iPage := by have := hord.1; omega
  have hne : ∀ p ∈ a.free, p ≠ iPage ∧ p ≠ 1 := fun p hp =>
    ⟨ne_of_mem_of_not_mem hp hnot, by have := (h.mem_free hp).1.1; omega⟩
  have hone : db₁.page 1 = put4 (db.page 1) 36 (a.free.card + 1) := by
    rw [hframe 1 h1, Db.put_page_self]
  have hsame : ∀ p ∈ a.free, db₁.page p = db.page p := fun p hp => by
    rw [hframe p (hne p hp).1, Db.put_page_of_ne _ (hne p hp).2]
  rcases Bool.eq_false_or_eq_true g.autoVacuum with hav | hav
  · have hle₁ : iPage ≤ db₁.nPage := by rwa [hn, h.nPage_eq]
    have hmx₁ : db₁.nPage ≤ g.mxPgno := by
      rw [hn, h.nPage_eq]
      exact h.le_mx
    have hmark : markFree g iPage db₁ = ptrmapPut g db₁ iPage ptrmapFreepage 0 := by
      rw [markFree, if_pos hav]
    have hput := ptrmapPut_eq hav hord hle₁ hmx₁ ptrmapFreepage 0
    have hmapne : ∀ {p q}, Ordinary g p → 2 ≤ q → p ≠ ptrmapPageno g q :=
      fun hp hq => (hp.ne_ptrmapPageno hav hq).symm
    refine ⟨db₁, (ptrmapPut g db₁ iPage ptrmapFreepage 0).2, hwipe, ?_, ?_, ?_, ?_, ?_⟩
    · rw [hmark, hput]
    · rw [hput, Db.update_nPage, hn]
    · rw [hput, Db.update_page_of_ne _ (by have := two_le_ptrmapPageno (g := g) hord.1; omega), hone]
    · intro p hp
      rw [hput, Db.update_page_of_ne _ (hmapne (h.mem_free hp).1 hord.1), hsame p hp]
    · intro _ p hp
      rcases Finset.mem_insert.mp hp with rfl | hp
      · exact ptrmapType_put_self hav hord hle₁ hmx₁ (by decide) 0
      · have hpord := (h.mem_free hp).1
        rw [ptrmapType_put_of_ne hav hord hpord (hne p hp).1 hle₁ hmx₁, ← h.map hav p hp]
        refine ptrmapType_congr ?_
        rw [hframe _ (hmapne hord hpord.1).symm, Db.put_page_of_ne]
        have := two_le_ptrmapPageno (g := g) hpord.1
        omega
  · refine ⟨db₁, db₁, hwipe, ?_, hn, hone, hsame, fun h' => ?_⟩
    · rw [markFree, if_neg (by rw [hav]; simp)]
    · rw [hav] at h'
      exact Bool.noConfusion h'

/-- The page at the end of the leaves of a trunk. -/
theorem leaves_push {trunk : ℕ → UInt8} {n p : ℕ} (hn : get4 trunk 4 = n) (hn' : n + 1 < 2 ^ 32)
    (hp : p < 2 ^ 32) :
    leaves (put4 (put4 trunk 4 (n + 1)) (8 + 4 * n) p) = leaves trunk ++ [p] := by
  have hcount : get4 (put4 (put4 trunk 4 (n + 1)) (8 + 4 * n) p) 4 = n + 1 := by
    rw [get4_put4_of_disjoint (by omega), get4_put4_self _ _ hn']
  rw [leaves, leaves, hcount, hn, List.range_succ, List.map_append, List.map_singleton]
  congr 1
  · refine List.map_congr_left fun i hi => ?_
    have hi := List.mem_range.mp hi
    rw [leaf, get4_put4_of_disjoint (by omega), get4_put4_of_disjoint (by omega), leaf]
  · rw [leaf, get4_put4_self _ _ hp]

variable {db₂ db' : Db} {ts : List ℕ}

/-- What a chain with the freed page on it comes to. -/
theorem Marked.represents (hm : Marked g db db₂ a iPage) (h : Represents g db a)
    (hp : a.Used g iPage) (hfree : a.free = (freeOf db.page ts).toFinset)
    (hlist : ListAt g db (1, 32) ts) (hn : db'.nPage = db₂.nPage)
    (hone : ∀ off, off + 4 ≤ 32 ∨ 36 ≤ off → get4 (db'.page 1) off = get4 (db₂.page 1) off)
    (hframe : ∀ q, q ≠ 1 → ¬ Ordinary g q → db'.page q = db₂.page q)
    (ts' : List ℕ) (hchain : Chain g db'.page (get4 (db'.page 1) 32) ts')
    (hperm : (freeOf db'.page ts').Perm (iPage :: freeOf db.page ts)) :
    Represents g db' (a.release iPage) := by
  have hcard := h.card_lt
  have hle := h.le_mx
  have hmx := g.mxPgno_lt
  have hnotmem : iPage ∉ freeOf db.page ts := fun hm => hp.2.2 (by
    rw [hfree, List.mem_toFinset]
    exact hm)
  have hmem : ∀ q ∈ freeOf db'.page ts', Ordinary g q ∧ q ≤ db.nPage := by
    intro q hq
    rcases List.mem_cons.mp (hperm.subset hq) with rfl | hq
    · exact ⟨hp.1, h.nPage_eq ▸ hp.2.1⟩
    · exact hlist.inFile q hq
  refine ⟨⟨⟨ts', ⟨hchain, ?_, fun h1 => ?_, fun q hq => ?_⟩, ?_⟩, ?_, ?_, ?_, h.one_le, hle⟩, ?_⟩
  · exact hperm.nodup_iff.mpr (List.nodup_cons.mpr ⟨hnotmem, hlist.nodup⟩)
  · have := (hmem 1 h1).1.1
    omega
  · rw [hn, hm.nPage]
    exact hmem q hq
  · rw [List.toFinset_eq_of_perm _ _ hperm, List.toFinset_cons, ← hfree, FreeSet.release]
  · rw [hone 36 (by omega), hm.one, get4_put4_self _ _ (by omega)]
    exact (Finset.card_insert_of_notMem hp.2.2).symm
  · rw [hone 28 (by omega), hm.one, get4_put4_of_disjoint (by omega)]
    exact h.pageCount
  · rw [hn, hm.nPage]
    exact h.nPage_eq
  · intro hav q hq
    have hq2 : 2 ≤ q := by
      rcases Finset.mem_insert.mp hq with rfl | hq
      · exact hp.1.1
      · exact (h.mem_free hq).1.1
    rw [← hm.map hav q hq]
    refine ptrmapType_congr (hframe _ ?_ fun hord => hord.ne_ptrmapPageno hav hq2 rfl)
    have := two_le_ptrmapPageno (g := g) hq2
    omega

/-- The page becomes the first trunk. -/
theorem pushTrunk_spec (hm : Marked g db db₂ a iPage) (h : Represents g db a)
    (hp : a.Used g iPage) (hfree : a.free = (freeOf db.page ts).toFinset)
    (hlist : ListAt g db (1, 32) ts) {iTrunk : ℕ} (hi : iTrunk = get4 (db.page 1) 32) :
    ∃ db', pushTrunk g inCache iTrunk iPage db₂ = (.ok, db') ∧
      Represents g db' (a.release iPage) := by
  have h1 : iPage ≠ 1 := by have := hp.1.1; omega
  have hacq : acquire g db₂.nPage iPage = .ok := hm.nPage ▸ hp.acquire h
  have hp32 : iPage < 2 ^ 32 := by
    have := hp.2.1
    have := h.le_mx
    have := g.mxPgno_lt
    omega
  set db' := ((db₂.put iPage 0 iTrunk).put iPage 4 0).put 1 32 iPage with hdb'
  have hpush : pushTrunk g inCache iTrunk iPage db₂ = (.ok, db') := by
    rw [pushTrunk, hacq, if_neg (by simp)]
  have hpage : db'.page iPage = put4 (put4 (db₂.page iPage) 0 iTrunk) 4 0 := by
    rw [hdb', Db.put_page_of_ne _ h1, Db.put_page_self, Db.put_page_self]
  have hother : ∀ q, q ≠ 1 → q ≠ iPage → db'.page q = db₂.page q := fun q hq hq' => by
    rw [hdb', Db.put_page_of_ne _ hq, Db.put_page_of_ne _ hq', Db.put_page_of_ne _ hq']
  have hpage1 : db'.page 1 = put4 (db₂.page 1) 32 iPage := by
    rw [hdb', Db.put_page_self, Db.put_page_of_ne _ h1.symm, Db.put_page_of_ne _ h1.symm]
  have hsame : ∀ t ∈ ts, db'.page t = db.page t := by
    intro t ht
    have htfree : t ∈ a.free := by
      rw [hfree, List.mem_toFinset]
      exact mem_freeOf_of_mem _ ht
    have := (h.mem_free htfree).1.1
    rw [hother t (by omega) (ne_of_mem_of_not_mem htfree hp.2.2), hm.same t htfree]
  have hnil : leaves (db'.page iPage) = [] := by
    refine List.eq_nil_of_length_eq_zero ?_
    rw [length_leaves, hpage, get4_put4_self _ _ (by decide)]
  refine ⟨db', hpush, hm.represents h hp hfree hlist rfl (fun off hoff => ?_) (fun q hq hord => ?_)
    (iPage :: ts) ⟨?_, ?_, ?_⟩ ?_⟩
  · rw [hpage1, get4_put4_of_disjoint (by omega)]
  · exact hother q hq fun heq => hord (heq ▸ hp.1)
  · rw [hpage1, get4_put4_self _ _ hp32]
  · rw [hpage, get4_put4_self _ _ (by decide)]
    exact Nat.zero_le _
  · rw [hpage, get4_put4_of_disjoint (by omega), get4_put4_self _ _ (hi ▸ get4_lt _ _), hi]
    exact chain_congr hsame hlist.chain
  · rw [freeOf_cons, hnil, List.nil_append, freeOf_congr hsame]

/-- The page becomes the last leaf of the first trunk. -/
theorem addLeaf_spec {t : ℕ} (hm : Marked g db db₂ a iPage) (h : Represents g db a)
    (hp : a.Used g iPage) (hfree : a.free = (freeOf db.page (t :: ts)).toFinset)
    (hlist : ListAt g db (1, 32) (t :: ts)) (hroom : get4 (db.page t) 4 < g.usableSize / 4 - 2) :
    Represents g ((db₂.put t 4 (get4 (db.page t) 4 + 1)).put t (8 + 4 * get4 (db.page t) 4) iPage)
      (a.release iPage) := by
  have hmem : ∀ q ∈ t :: ts, q ∈ a.free := fun q hq => by
    rw [hfree, List.mem_toFinset]
    exact mem_freeOf_of_mem _ hq
  have htfree := hmem t List.mem_cons_self
  have ht1 : (1 : ℕ) ≠ t := hlist.ne_trunk
  have hsize : g.usableSize / 4 - 2 < 2 ^ 31 := by
    have := g.usable_le
    have := g.page_le
    omega
  have hp32 : iPage < 2 ^ 32 := by
    have := hp.2.1
    have := h.le_mx
    have := g.mxPgno_lt
    omega
  set n := get4 (db.page t) 4 with hn
  set db' := (db₂.put t 4 (n + 1)).put t (8 + 4 * n) iPage with hdb'
  have hother : ∀ q, q ≠ t → db'.page q = db₂.page q := fun q hq => by
    rw [hdb', Db.put_page_of_ne _ hq, Db.put_page_of_ne _ hq]
  have hpage : db'.page t = put4 (put4 (db.page t) 4 (n + 1)) (8 + 4 * n) iPage := by
    rw [hdb', Db.put_page_self, Db.put_page_self, hm.same t htfree]
  have hsame : ∀ u ∈ ts, db'.page u = db.page u := by
    intro u hu
    rw [hother u, hm.same u (hmem u (List.mem_cons_of_mem _ hu))]
    rintro rfl
    exact hlist.trunk_notMem.2 (mem_freeOf_of_mem _ hu)
  have hlink : get4 (db₂.page 1) 32 = t := by
    rw [hm.one, get4_put4_of_disjoint (by omega)]
    exact hlist.iTrunk
  refine hm.represents h hp hfree hlist rfl (fun off _ => by rw [hother 1 ht1])
    (fun q _ hord => hother q fun heq => hord (heq ▸ (h.mem_free htfree).1)) (t :: ts)
    ⟨?_, ?_, ?_⟩ ?_
  · rw [hother 1 ht1, hlink]
  · rw [hpage, get4_put4_of_disjoint (by omega), get4_put4_self _ _ (by omega)]
    omega
  · rw [hpage, get4_put4_of_disjoint (by omega), get4_put4_of_disjoint (by omega)]
    exact chain_congr hsame hlist.tail.chain
  · rw [freeOf_cons, freeOf_cons, hpage, leaves_push hn.symm (by omega) hp32, freeOf_congr hsame,
      List.append_assoc, List.singleton_append]
    exact (List.Perm.cons _ List.perm_middle).trans (List.Perm.swap _ _ _)

/-- **One page freed.** Freeing a page in use always succeeds, and the image follows the set. -/
theorem represents_free (h : Represents g db a) (hp : a.Used g iPage) :
    ∃ db', freePage2 g inCache db iPage = (.ok, db') ∧ Represents g db' (a.release iPage) := by
  obtain ⟨ts, hlist, hfree⟩ := h.list
  obtain ⟨db₁, db₂, hwipe, hmark, hm⟩ := marked_of_used inCache h hp
  have hfree2 : freePage2 g inCache db iPage = linkFree g inCache a.free.card iPage db₂ := by
    rw [freePage2, h.freeCount, hwipe, andThen]
    dsimp only
    rw [hmark, andThen]
  have hcard : a.free.card = (freeOf db.page ts).length := by
    rw [hfree, List.toFinset_card_of_nodup hlist.nodup]
  have hlink : get4 (db₂.page 1) 32 = get4 (db.page 1) 32 := by
    rw [hm.one, get4_put4_of_disjoint (by omega)]
  rw [hfree2, linkFree]
  cases ts with
  | nil =>
    have h0 : a.free.card = 0 := by rw [hcard]; simp
    rw [if_neg (by omega)]
    exact pushTrunk_spec inCache hm h hp hfree hlist (Eq.symm hlist.chain)
  | cons t ts =>
    have htmem : t ∈ freeOf db.page (t :: ts) := mem_freeOf_of_mem _ List.mem_cons_self
    have htfree : t ∈ a.free := by
      rw [hfree, List.mem_toFinset]
      exact htmem
    obtain ⟨htord, htle⟩ := hlist.inFile t htmem
    have hne : a.free.card ≠ 0 := by
      rw [hcard, freeOf_cons, List.length_cons]
      omega
    have htpage : db₂.page t = db.page t := hm.same t htfree
    have hcap := hlist.chain.2.1
    dsimp only
    rw [if_pos hne, hlink, hlist.iTrunk, htord.acquire (hm.nPage ▸ htle)
      (by rw [hm.nPage, h.nPage_eq]; exact h.le_mx), if_neg (by simp), htpage, if_neg (by omega)]
    split
    · -- there is room on the first trunk
      rename_i hroom
      exact ⟨_, rfl, addLeaf_spec hm h hp hfree hlist (by omega)⟩
    · exact pushTrunk_spec inCache hm h hp hfree hlist hlist.iTrunk.symm

end FreeStep

/-! ### Runs -/

/-- A call of one of the two functions, with what it is given. -/
inductive Call
  | allocateBtreePage (fetch : ℕ → ℕ → UInt8) (held : ℕ → Bool) (eMode : AllocMode) (nearby : ℕ)
  | freePage2 (inCache : Bool) (iPage : ℕ)

/-- The image, and beside it the set it stands for. -/
structure State where
  db : Db
  set : FreeSet

/-- The page number a call answers, or its error, and the image after it. -/
def answer (db : Db) : Call → Option (Except Rc ℕ × Db)
  | .allocateBtreePage fetch held eMode nearby => allocateBtreePage g fetch eMode nearby held db
  | .freePage2 inCache iPage =>
    match freePage2 g inCache db iPage with
    | (.ok, db') => some (.ok iPage, db')
    | (rc, db') => some (.error rc, db')

/-- The set after a call that answered `pgno`. -/
def FreeSet.after (a : FreeSet) : Call → ℕ → FreeSet
  | .allocateBtreePage .., pgno => a.alloc pgno
  | .freePage2 .., pgno => a.release pgno

/-- A call. One that fails leaves the set and may change the image. -/
def step (s : State) (c : Call) : State :=
  match answer g s.db c with
  | some (.ok pgno, db') => ⟨db', s.set.after c pgno⟩
  | some (.error _, db') => ⟨db', s.set⟩
  | none => s

/-- What the source asserts of a call, and that only pages in use are freed. -/
def Legal (s : State) : Call → Prop
  | .allocateBtreePage _ _ eMode nearby => AllocLegal g eMode nearby
  | .freePage2 _ iPage => s.set.Used g iPage

/-- A call that cannot fail. -/
def Admissible (s : State) : Call → Prop
  | .allocateBtreePage _ held eMode nearby => AllocAdmissible g s.db s.set held eMode nearby
  | .freePage2 .. => True

/-- The call succeeds and does what it is for: an allocation answers a page the set allows, which
is ordinary and not in use, and the image after the call has a well-formed free list that holds the
set after the call. -/
def Exact (s : State) (c : Call) : Prop :=
  ∃ pgno, (answer g s.db c).map Prod.fst = some (.ok pgno) ∧
    (match c with
      | .allocateBtreePage _ _ eMode nearby =>
        s.set.Alloc g eMode nearby pgno ∧ Ordinary g pgno ∧ ¬ s.set.Used g pgno
      | .freePage2 _ iPage => pgno = iPage) ∧
    (step g s c).set = s.set.after c pgno ∧ Represents g (step g s c).db (step g s c).set

variable {g}

theorem step_ok {s : State} {c : Call} {pgno : ℕ} {db' : Db}
    (h : answer g s.db c = some (.ok pgno, db')) : step g s c = ⟨db', s.set.after c pgno⟩ := by
  rw [step, h]

/-- An allocated page is an ordinary page that was not in use. -/
theorem FreeSet.Alloc.ordinary {s : State} (h : Represents g s.db s.set) {eMode : AllocMode}
    {nearby pgno : ℕ} (ha : s.set.Alloc g eMode nearby pgno) :
    Ordinary g pgno ∧ ¬ s.set.Used g pgno := by
  rcases ha with ⟨hmem, -⟩ | ⟨-, hnext⟩
  · exact ⟨(h.mem_free hmem).1, fun hu => hu.2.2 hmem⟩
  · refine ⟨hnext.2.1, fun hu => ?_⟩
    have := hnext.1
    have := hu.2.1
    omega

/-- **One call.** -/
theorem exact_of_legal {s : State} {c : Call} (h : Represents g s.db s.set) (hlegal : Legal g s c)
    (hok : Admissible g s c ∨ ∃ pgno, (answer g s.db c).map Prod.fst = some (.ok pgno)) :
    Exact g s c := by
  cases c with
  | allocateBtreePage fetch held eMode nearby =>
    rcases represents_alloc fetch held eMode nearby h hlegal with
      ⟨pgno, db', hans, halloc, hrep⟩ | ⟨⟨rc, db', hans⟩, hbad⟩
    · have hstep := step_ok (g := g) (c := .allocateBtreePage fetch held eMode nearby) hans
      refine ⟨pgno, ?_, ⟨halloc, halloc.ordinary h⟩, by rw [hstep], by rw [hstep]; exact hrep⟩
      rw [answer, hans, Option.map_some]
    · rcases hok with hadm | ⟨pgno, hpgno⟩
      · exact absurd hadm hbad
      · rw [answer, hans, Option.map_some] at hpgno
        cases hpgno
  | freePage2 inCache iPage =>
    obtain ⟨db', hfree, hrep⟩ := represents_free inCache h hlegal
    have hans : answer g s.db (.freePage2 inCache iPage) = some (.ok iPage, db') := by
      rw [answer, hfree]
    have hstep := step_ok hans
    exact ⟨iPage, by rw [hans, Option.map_some], rfl, by rw [hstep], by rw [hstep]; exact hrep⟩

/-- **The free list never loses or duplicates a page.** In every run from an image with a
well-formed free list, each call that is admissible, or succeeds, is exact, and in every state of
the run the image has a well-formed free list with the right counts that holds the set. -/
theorem freeList_run {s : State} {cs : List Call} (h : Represents g s.db s.set)
    (hrun : Run.EveryStep (step g) (fun s c => Legal g s c ∧ (Admissible g s c ∨
      ∃ pgno, (answer g s.db c).map Prod.fst = some (.ok pgno))) s cs) :
    Run.EveryStep (step g) (Exact g) s cs ∧
      Run.Every (step g) (fun s => Represents g s.db s.set) s cs := by
  induction cs generalizing s with
  | nil => exact ⟨trivial, h⟩
  | cons c cs ih =>
    obtain ⟨⟨hlegal, hok⟩, hrest⟩ := hrun
    have hexact := exact_of_legal h hlegal hok
    obtain ⟨_, _, _, _, hrep⟩ := hexact
    obtain ⟨hsteps, hstates⟩ := ih hrep hrest
    exact ⟨⟨exact_of_legal h hlegal hok, hsteps⟩, h, hstates⟩

/-! ### A file of four pages -/

/-- A small auto-vacuum geometry. -/
def smallGeom : Geom where
  pageSize := 512
  usableSize := 512
  autoVacuum := true
  secureDelete := false
  mxPgno := 1000
  usable_ge := usable_512
  usable_le := self_512
  page_le := max_512
  page_pow := pow_512
  mxPgno_lt := lt_1000

/-- Page 2 is the pointer map, page 3 is in use, and page 4 is a free trunk without leaves. -/
def fourPages : Db where
  nPage := 4
  page := fun p i =>
    if p = 1 ∧ (i = 31 ∨ i = 35) then 4
    else if p = 1 ∧ i = 39 then 1
    else if p = 2 ∧ i = 0 then 5
    else if p = 2 ∧ i = 5 then 2
    else 0

theorem represents_fourPages : Represents smallGeom fourPages ⟨{4}, 4⟩ := by
  have hleaves : leaves (fourPages.page 4) = [] :=
    List.eq_nil_of_length_eq_zero (by rw [length_leaves]; decide +kernel)
  have hfree : freeOf fourPages.page [4] = [4] := by
    rw [freeOf_cons, freeOf_nil, hleaves, List.append_nil]
  refine ⟨⟨⟨[4], ⟨⟨?_, ?_, ?_⟩, ?_, ?_, ?_⟩, ?_⟩, ?_, ?_, rfl, by decide, by decide⟩,
    fun _ p hp => ?_⟩
  · decide +kernel
  · decide +kernel
  · show get4 (fourPages.page 4) 0 = 0
    decide +kernel
  · rw [hfree]
    exact List.nodup_singleton 4
  · rw [hfree]
    decide
  · rw [hfree]
    intro p hp
    rw [List.mem_singleton] at hp
    subst hp
    exact ⟨by decide +kernel, by decide⟩
  · rw [hfree]
    rfl
  · decide +kernel
  · decide +kernel
  · rw [Finset.mem_singleton] at hp
    subst hp
    decide +kernel

/-- Page 3 is freed and asked for again. -/
theorem freeList_run_four_pages :
    Run.EveryStep (step smallGeom) (Exact smallGeom) ⟨fourPages, ⟨{4}, 4⟩⟩
        [.freePage2 true 3, .allocateBtreePage (fun _ _ => 0) (fun _ => false) .exact 3] ∧
      Run.Every (step smallGeom) (fun s => Represents smallGeom s.db s.set)
        ⟨fourPages, ⟨{4}, 4⟩⟩
        [.freePage2 true 3, .allocateBtreePage (fun _ _ => 0) (fun _ => false) .exact 3] := by
  refine freeList_run represents_fourPages ⟨⟨?_, Or.inl trivial⟩, ⟨?_, Or.inr ⟨3, ?_⟩⟩, trivial⟩
  · exact ⟨by decide +kernel, by decide, by decide⟩
  · exact ⟨by decide, fun _ => ⟨by decide, rfl⟩⟩
  · decide +kernel

/-- Pages 3 and 4 are free, but the pointer map has page 4 as a page of a tree. -/
def staleEntry : Db where
  nPage := 4
  page := fun p i =>
    if p = 1 ∧ (i = 31 ∨ i = 35) then 4
    else if p = 1 ∧ i = 39 then 2
    else if p = 2 ∧ i = 0 then 2
    else if p = 2 ∧ i = 5 then 5
    else if p = 4 ∧ i = 7 then 1
    else if p = 4 ∧ i = 11 then 3
    else 0

theorem wellFormed_staleEntry : WellFormed smallGeom staleEntry ⟨{3, 4}, 4⟩ := by
  have hcount : get4 (staleEntry.page 4) 4 = 1 := by decide +kernel
  have hleaves : leaves (staleEntry.page 4) = [3] := by
    rw [leaves, hcount, List.range_one, List.map_singleton, leaf]
    exact congrArg (fun l => [l]) (by decide +kernel)
  have hfree : freeOf staleEntry.page [4] = [4, 3] := by
    rw [freeOf_cons, freeOf_nil, hleaves, List.append_nil]
  refine ⟨⟨[4], ⟨⟨?_, ?_, ?_⟩, ?_, ?_, ?_⟩, ?_⟩, ?_, ?_, rfl, by decide, by decide⟩
  · decide +kernel
  · decide +kernel
  · show get4 (staleEntry.page 4) 0 = 0
    decide +kernel
  · rw [hfree]
    decide
  · rw [hfree]
    decide
  · rw [hfree]
    intro p hp
    rw [List.mem_cons, List.mem_singleton] at hp
    rcases hp with rfl | rfl
    · exact ⟨by decide +kernel, by decide⟩
    · exact ⟨by decide +kernel, by decide⟩
  · rw [hfree]
    decide
  · decide +kernel
  · decide +kernel

/-- Two calls that are not exact on a well-formed free list. With only page 4 free, asking for a
page up to 3 reads past the end of the chain: the file is reported as corrupt, after the free count
was lowered. With pages 3 and 4 free and a stale map entry, asking for page 4 answers page 3. -/
theorem allocateBtreePage_not_exact :
    (WellFormed smallGeom fourPages ⟨{4}, 4⟩ ∧ AllocLegal smallGeom .le 3 ∧
      (allocateBtreePage smallGeom (fun _ _ => 0) .le 3 (fun _ => false) fourPages).map
        (fun r => (r.1, get4 (r.2.page 1) 36)) = some (.error .corrupt, 0)) ∧
    (WellFormed smallGeom staleEntry ⟨{3, 4}, 4⟩ ∧ AllocLegal smallGeom .exact 4 ∧
      (allocateBtreePage smallGeom (fun _ _ => 0) .exact 4 (fun _ => false) staleEntry).map
        Prod.fst = some (.ok 3)) := by
  refine ⟨⟨represents_fourPages.toWellFormed, ⟨by decide, fun _ => ⟨by decide, rfl⟩⟩, ?_⟩,
    wellFormed_staleEntry, ⟨by decide, fun _ => ⟨by decide, rfl⟩⟩, ?_⟩
  · decide +kernel
  · decide +kernel

end Btree

end SqliteVms

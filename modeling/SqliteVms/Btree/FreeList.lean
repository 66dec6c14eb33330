import SqliteVms.Btree.Image
import Mathlib.Data.List.Perm.Basic

/-!
# The free list: `allocateBtreePage` and `freePage2`

Free pages are kept in a chain of trunk pages that starts at offset 32 of page 1. A trunk holds the
number of the next trunk, a leaf count, and the numbers of its leaves. Offset 36 of page 1 counts
the free pages and offset 28 the pages of the file.

The search of `allocateBtreePage` follows the chain for as long as it has not found its page. On a
damaged image the chain may be a cycle; a search that has read more trunks than the file has pages
has read one twice and never ends, which is the answer `none` here.

The pager decides what the buffer of a page fetched without its content holds; `fetch` stands for
these bytes. `held` are the pages someone else has a reference to.

## Main definitions

* `allocateBtreePage`, `freePage2` — the two functions
* `Chain`, `freeOf` — a chain of trunks, and all pages on it
* `ListAt`, `Taken` — a sound chain, and the chain with one page taken off

## Main results

* `hit_closest` — a trunk with a leaf the search wants offers such a leaf
* `allocLoop_spec` — the search takes one page off the chain, or there is none it may take
-/

namespace SqliteVms

namespace Btree

open Store BigEndian

/-! ### The functions -/

/-- `BTALLOC_ANY`, `BTALLOC_EXACT` and `BTALLOC_LE`. -/
inductive AllocMode
  | any
  | exact
  | le
  deriving DecidableEq, Repr

def sqlite3AbsInt32 (x : ℤ) : ℤ :=
  if 0 ≤ x then x else if x = -2 ^ 31 then 2 ^ 31 - 1 else -x

/-- The number of leaf `i` of a trunk page. -/
def leaf (trunk : ℕ → UInt8) (i : ℕ) : ℕ := get4 trunk (8 + 4 * i)

/-- How far leaf `i` is from `nearby`, in the 32-bit arithmetic of the source. -/
def leafDist (trunk : ℕ → UInt8) (nearby i : ℕ) : ℤ :=
  sqlite3AbsInt32 (toInt32 ((leaf trunk i : ℤ) - nearby))

/-- The index `closest` of the leaf to take from a trunk with `k` leaves. -/
def closest (trunk : ℕ → UInt8) (eMode : AllocMode) (nearby k : ℕ) : ℕ :=
  if 0 < nearby then
    if eMode = .le then ((List.range k).find? fun i => leaf trunk i ≤ nearby).getD 0
    else ((List.range' 1 (k - 1)).foldl
      (fun best i => if leafDist trunk nearby i < best.2 then (i, leafDist trunk nearby i) else best)
      (0, leafDist trunk nearby 0)).1
  else 0

/-- The trunk after its leaf `c` of `k` is taken: the last leaf moves into the gap. -/
def dropLeaf (trunk : ℕ → UInt8) (k c : ℕ) : ℕ → UInt8 :=
  put4 (if c < k - 1 then blit trunk (8 + 4 * c) (slice trunk (4 + 4 * k) 4) else trunk) 4 (k - 1)

/-- The first leaf made a trunk in place of `trunk`, which has `k` leaves. -/
def promoteLeaf (trunk newTrunk : ℕ → UInt8) (k : ℕ) : ℕ → UInt8 :=
  blit (put4 (blit newTrunk 0 (slice trunk 0 4)) 4 (k - 1)) 8 (slice trunk 12 ((k - 1) * 4))

/-- The outcome of one turn of the search. -/
inductive Turn
  | found (pgno : ℕ) (db : Db)
  | failed (rc : Rc) (db : Db)
  | next (iTrunk : ℕ)

/-- A page the search is content with. -/
def Hit (eMode : AllocMode) (nearby p : ℕ) : Prop := p = nearby ∨ (p < nearby ∧ eMode = .le)

instance (eMode : AllocMode) (nearby p : ℕ) : Decidable (Hit eMode nearby p) :=
  inferInstanceAs (Decidable (_ ∨ _))

variable (g : Geom) (fetch : ℕ → ℕ → UInt8) (eMode : AllocMode) (nearby : ℕ)

/-- The trunk `iTrunk` itself is the page to allocate. -/
def takeTrunk (db : Db) (lnk : ℕ × ℕ) (iTrunk k : ℕ) : Turn :=
  let trunk := db.page iTrunk
  if k = 0 then
    .found iTrunk (db.update lnk.1 (blit (db.page lnk.1) lnk.2 (slice trunk 0 4)))
  else
    let iNewTrunk := leaf trunk 0
    if db.nPage < iNewTrunk then .failed .corrupt db
    else if acquire g db.nPage iNewTrunk ≠ .ok then .failed (acquire g db.nPage iNewTrunk) db
    else .found iTrunk
      ((db.update iNewTrunk (promoteLeaf trunk (db.page iNewTrunk) k)).put lnk.1 lnk.2 iNewTrunk)

/-- A leaf of `iTrunk` is the page to allocate, if it will do. -/
def takeLeaf (search : Bool) (db : Db) (iTrunk k : ℕ) : Turn :=
  let trunk := db.page iTrunk
  let iPage := leaf trunk (closest trunk eMode nearby k)
  if db.nPage < iPage then .failed .corrupt db
  else if search = false ∨ Hit eMode nearby iPage then
    let db' := db.update iTrunk (dropLeaf trunk k (closest trunk eMode nearby k))
    if acquire g db.nPage iPage ≠ .ok then .failed (acquire g db.nPage iPage) db'
    else .found iPage (db'.update iPage (fetch iPage))
  else .next iTrunk

/-- One turn of the loop of `allocateBtreePage`. `lnk` is where the number of the next trunk is
stored: offset 32 of page 1, or offset 0 of `pPrevTrunk`. -/
def allocTurn (search : Bool) (db : Db) (lnk : ℕ × ℕ) : Turn :=
  let iTrunk := get4 (db.page lnk.1) lnk.2
  if db.nPage < iTrunk then .failed .corrupt db
  else if acquire g db.nPage iTrunk ≠ .ok then .failed (acquire g db.nPage iTrunk) db
  else
    let k := get4 (db.page iTrunk) 4
    if k = 0 ∧ search = false then takeTrunk g db lnk iTrunk 0
    else if g.usableSize / 4 - 2 < k then .failed .corrupt db
    else if search = true ∧ Hit eMode nearby iTrunk then takeTrunk g db lnk iTrunk k
    else if 0 < k then takeLeaf g fetch eMode nearby search db iTrunk k
    else .next iTrunk

/-- Turn after turn, until one finds the page or fails. -/
def loopTurns (turn : ℕ × ℕ → Turn) : ℕ → ℕ × ℕ → Option (Except Rc ℕ × Db)
  | 0, _ => none
  | fuel + 1, lnk =>
    match turn lnk with
    | .found pgno db' => some (.ok pgno, db')
    | .failed rc db' => some (.error rc, db')
    | .next iTrunk => loopTurns turn fuel (iTrunk, 0)

/-- The loop of `allocateBtreePage`. A turn that goes on changes nothing. -/
def allocLoop (search : Bool) (db : Db) (fuel : ℕ) (lnk : ℕ × ℕ) : Option (Except Rc ℕ × Db) :=
  loopTurns (allocTurn g fetch eMode nearby search db) fuel lnk

/-- Whether the chain is to be searched for `nearby`. -/
def searchList (db : Db) : Except Rc Bool :=
  match eMode with
  | .exact =>
    if nearby ≤ db.nPage then (ptrmapGet g db nearby).map fun e => e.1 == ptrmapFreepage
    else .ok false
  | .le => .ok true
  | .any => .ok false

/-- The page number after `n`, past the locking page. -/
def bumpPage (n : ℕ) : ℕ := if n + 1 = pendingBytePage g then n + 2 else n + 1

/-- The last steps of an allocation at the end of the file. -/
def appendPage (db : Db) (dbSize pgno : ℕ) : Except Rc ℕ × Db :=
  let db' := ({ db with nPage := pgno }).put 1 28 pgno
  if acquire g dbSize pgno ≠ .ok then (.error (acquire g dbSize pgno), db')
  else (.ok pgno, db'.update pgno (fetch pgno))

/-- Allocation at the end of the file, when nothing is free. -/
def extendFile (db : Db) : Except Rc ℕ × Db :=
  let pgno := bumpPage g db.nPage
  if g.autoVacuum = true ∧ isPtrmapPage g pgno = true then
    if acquire g db.nPage pgno ≠ .ok then
      (.error (acquire g db.nPage pgno), { db with nPage := pgno })
    else appendPage g fetch (db.update pgno (fetch pgno)) db.nPage (bumpPage g pgno)
  else appendPage g fetch db db.nPage pgno

/-- The last check of `allocateBtreePage`: nobody else may hold the page. -/
def checkPageRefcount (held : ℕ → Bool) : Except Rc ℕ × Db → Except Rc ℕ × Db
  | (.ok pgno, db) => (if held pgno then .error .corrupt else .ok pgno, db)
  | (.error rc, db) => (.error rc, db)

def allocateBtreePage (held : ℕ → Bool) (db : Db) : Option (Except Rc ℕ × Db) :=
  let n := get4 (db.page 1) 36
  if db.nPage ≤ n then some (.error .corrupt, db)
  else if 0 < n then
    match searchList g eMode nearby db with
    | .error rc => some (.error rc, db)
    | .ok search =>
      (allocLoop g fetch eMode nearby search (db.put 1 36 (n - 1)) (db.nPage + 1) (1, 32)).map
        (checkPageRefcount held)
  else some (checkPageRefcount held (extendFile g fetch db))

/-- Go on after a step that succeeded. -/
def andThen (r : Rc × Db) (f : Db → Rc × Db) : Rc × Db :=
  match r.1 with
  | .ok => f r.2
  | rc => (rc, r.2)

variable (inCache : Bool)

/-- The page wiped, with `BTS_SECURE_DELETE`. `inCache` says that the caller or the cache has the
page, so that it need not be fetched. -/
def wipePage (iPage : ℕ) (db : Db) : Rc × Db :=
  if g.secureDelete = true then
    if inCache = false ∧ acquire g db.nPage iPage ≠ .ok then (acquire g db.nPage iPage, db)
    else (.ok, db.update iPage (blit (db.page iPage) 0 (List.replicate g.pageSize 0)))
  else (.ok, db)

/-- The pointer-map entry of the page. -/
def markFree (iPage : ℕ) (db : Db) : Rc × Db :=
  if g.autoVacuum = true then ptrmapPut g db iPage ptrmapFreepage 0 else (.ok, db)

/-- The page made the first trunk. -/
def pushTrunk (iTrunk iPage : ℕ) (db : Db) : Rc × Db :=
  if inCache = false ∧ acquire g db.nPage iPage ≠ .ok then (acquire g db.nPage iPage, db)
  else (.ok, ((db.put iPage 0 iTrunk).put iPage 4 0).put 1 32 iPage)

/-- The page put on the chain: as a leaf of the first trunk, or as the first trunk. -/
def linkFree (nFree iPage : ℕ) (db : Db) : Rc × Db :=
  if nFree ≠ 0 then
    let iTrunk := get4 (db.page 1) 32
    if acquire g db.nPage iTrunk ≠ .ok then (acquire g db.nPage iTrunk, db)
    else
      let nLeaf := get4 (db.page iTrunk) 4
      if g.usableSize / 4 - 2 < nLeaf then (.corrupt, db)
      else if nLeaf < g.usableSize / 4 - 8 then
        (.ok, (db.put iTrunk 4 (nLeaf + 1)).put iTrunk (8 + 4 * nLeaf) iPage)
      else pushTrunk g inCache iTrunk iPage db
  else pushTrunk g inCache 0 iPage db

def freePage2 (db : Db) (iPage : ℕ) : Rc × Db :=
  let nFree := get4 (db.page 1) 36
  andThen (wipePage g inCache iPage (db.put 1 36 (nFree + 1))) fun db =>
    andThen (markFree g iPage db) (linkFree g inCache nFree iPage)

/-! ### The leaf the search looks at -/

section Closest

variable {trunk : ℕ → UInt8} {nearby k : ℕ}

theorem sqlite3AbsInt32_nonneg {x : ℤ} (h : -2 ^ 31 ≤ x) : 0 ≤ sqlite3AbsInt32 x := by
  unfold sqlite3AbsInt32
  split_ifs <;> omega

theorem sqlite3AbsInt32_eq_zero {x : ℤ} : sqlite3AbsInt32 x = 0 ↔ x = 0 := by
  unfold sqlite3AbsInt32
  split_ifs <;> omega

theorem leafDist_nonneg (i : ℕ) : 0 ≤ leafDist trunk nearby i :=
  sqlite3AbsInt32_nonneg (neg_le_toInt32 _)

/-- Distance zero is being the page itself. -/
theorem leafDist_eq_zero (hn : nearby < 2 ^ 32) {i : ℕ} :
    leafDist trunk nearby i = 0 ↔ leaf trunk i = nearby := by
  rw [leafDist, sqlite3AbsInt32_eq_zero]
  constructor
  · exact eq_of_toInt32_sub_eq_zero (get4_lt _ _) hn
  · rintro h
    rw [h, Int.sub_self]
    exact toInt32_of_lt (n := 0) (by decide)

/-- The loop keeps an index it has seen together with its distance, the least so far. -/
theorem foldl_nearest (trunk : ℕ → UInt8) (nearby : ℕ) (is : List ℕ) (c : ℕ) :
    ∃ c', is.foldl (fun best i => if leafDist trunk nearby i < best.2
        then (i, leafDist trunk nearby i) else best) (c, leafDist trunk nearby c)
        = (c', leafDist trunk nearby c') ∧ c' ∈ c :: is ∧
      ∀ i ∈ c :: is, leafDist trunk nearby c' ≤ leafDist trunk nearby i := by
  induction is generalizing c with
  | nil => exact ⟨c, rfl, by simp, by simp⟩
  | cons i is ih =>
    rw [List.foldl_cons]
    dsimp only
    split
    · rename_i hlt
      obtain ⟨c', heq, hmem, hmin⟩ := ih i
      refine ⟨c', heq, List.mem_cons_of_mem _ hmem, fun j hj => ?_⟩
      rcases List.mem_cons.mp hj with rfl | hj
      · exact (hmin i (by simp)).trans hlt.le
      · exact hmin j hj
    · rename_i hge
      obtain ⟨c', heq, hmem, hmin⟩ := ih c
      refine ⟨c', heq, ?_, fun j hj => ?_⟩
      · rcases List.mem_cons.mp hmem with rfl | hmem
        · exact List.mem_cons_self
        · exact List.mem_cons_of_mem _ (List.mem_cons_of_mem _ hmem)
      · have hc := hmin c (by simp)
        rcases List.mem_cons.mp hj with rfl | hj
        · exact hc
        · rcases List.mem_cons.mp hj with rfl | hj
          · omega
          · exact hmin j (by simp [hj])

theorem closest_le_mode (hn : 0 < nearby) :
    closest trunk .le nearby k = ((List.range k).find? fun i => leaf trunk i ≤ nearby).getD 0 := by
  rw [closest, if_pos hn, if_pos rfl]

/-- Outside mode `BTALLOC_LE` the chosen leaf is at least distance. -/
theorem closest_nearest (trunk : ℕ → UInt8) (hn : 0 < nearby) (hk : 0 < k) (hm : eMode ≠ .le) :
    closest trunk eMode nearby k < k ∧
      ∀ i < k, leafDist trunk nearby (closest trunk eMode nearby k) ≤ leafDist trunk nearby i := by
  obtain ⟨c, heq, hmem, hmin⟩ := foldl_nearest trunk nearby (List.range' 1 (k - 1)) 0
  have hc : closest trunk eMode nearby k = c := by
    rw [closest, if_pos hn, if_neg hm, heq]
  rw [hc]
  constructor
  · rcases List.mem_cons.mp hmem with rfl | hmem
    · exact hk
    · have := List.mem_range'_1.mp hmem
      omega
  · intro i hi
    refine hmin i ?_
    rcases Nat.eq_zero_or_pos i with rfl | hpos
    · exact List.mem_cons_self
    · exact List.mem_cons_of_mem _ (List.mem_range'_1.mpr (by omega))

theorem closest_lt (hk : 0 < k) : closest trunk eMode nearby k < k := by
  rcases Nat.eq_zero_or_pos nearby with rfl | hn
  · rw [closest, if_neg (by omega)]
    exact hk
  · rcases eq_or_ne eMode .le with rfl | hm
    · rw [closest_le_mode hn]
      cases hf : (List.range k).find? fun i => leaf trunk i ≤ nearby with
      | none => exact hk
      | some i => exact List.mem_range.mp (List.mem_of_find?_eq_some hf)
    · exact (closest_nearest eMode trunk hn hk hm).1

/-- **A trunk that has a leaf the search wants offers such a leaf.** -/
theorem hit_closest (hn : 0 < nearby) (hn' : nearby < 2 ^ 32) {i : ℕ} (hi : i < k)
    (hhit : Hit eMode nearby (leaf trunk i)) :
    Hit eMode nearby (leaf trunk (closest trunk eMode nearby k)) := by
  rcases eq_or_ne eMode .le with rfl | hm
  · have hle : leaf trunk i ≤ nearby := by
      rcases hhit with h | h <;> omega
    have hsome : ((List.range k).find? fun i => leaf trunk i ≤ nearby).isSome := by
      rw [List.find?_isSome]
      exact ⟨i, List.mem_range.mpr hi, by simpa using hle⟩
    obtain ⟨c, hc⟩ := Option.isSome_iff_exists.mp hsome
    rw [closest_le_mode hn, hc, Option.getD_some]
    have hle' : leaf trunk c ≤ nearby := by simpa using List.find?_some hc
    rcases Nat.lt_or_eq_of_le hle' with h | h
    · exact Or.inr ⟨h, rfl⟩
    · exact Or.inl h
  · have heq : leaf trunk i = nearby := by
      rcases hhit with h | h
      · exact h
      · exact absurd h.2 hm
    have hmin := (closest_nearest eMode trunk hn (by omega) hm).2 i hi
    rw [(leafDist_eq_zero hn').mpr heq] at hmin
    exact Or.inl ((leafDist_eq_zero hn').mp (le_antisymm hmin (leafDist_nonneg _)))

end Closest

/-! ### The chain -/

section Chain

/-- The leaves of a trunk page. -/
def leaves (trunk : ℕ → UInt8) : List ℕ := (List.range (get4 trunk 4)).map (leaf trunk)

/-- The trunks `ts`, chained one to the next and starting at page `i`, none with more leaves than
fit on it. -/
def Chain (page : ℕ → ℕ → UInt8) : ℕ → List ℕ → Prop
  | i, [] => i = 0
  | i, t :: ts =>
    i = t ∧ get4 (page t) 4 ≤ g.usableSize / 4 - 2 ∧ Chain page (get4 (page t) 0) ts

/-- All pages of a chain, trunks and leaves. -/
def freeOf (page : ℕ → ℕ → UInt8) (ts : List ℕ) : List ℕ := ts.flatMap fun t => t :: leaves (page t)

variable {g} {page page' : ℕ → ℕ → UInt8} {trunk trunk' : ℕ → UInt8}

@[simp] theorem freeOf_nil : freeOf page [] = [] := rfl

@[simp] theorem freeOf_cons (page : ℕ → ℕ → UInt8) (t : ℕ) (ts : List ℕ) :
    freeOf page (t :: ts) = t :: (leaves (page t) ++ freeOf page ts) := by
  rw [freeOf, List.flatMap_cons, List.cons_append, ← freeOf]

@[simp] theorem length_leaves : (leaves trunk).length = get4 trunk 4 := by
  rw [leaves, List.length_map, List.length_range]

theorem leaf_mem_leaves {i : ℕ} (h : i < get4 trunk 4) : leaf trunk i ∈ leaves trunk :=
  List.mem_map.mpr ⟨i, List.mem_range.mpr h, rfl⟩

/-- Two trunks with the same count and the same leaf numbers have the same leaves. -/
theorem leaves_eq_of (hk : get4 trunk' 4 = get4 trunk 4)
    (hleaf : ∀ i < get4 trunk 4, leaf trunk' i = leaf trunk i) : leaves trunk' = leaves trunk := by
  rw [leaves, leaves, hk]
  exact List.map_congr_left fun i hi => hleaf i (List.mem_range.mp hi)

/-- The leaves of a trunk do not depend on its first four bytes. -/
theorem leaves_congr (h : ∀ j, 4 ≤ j → trunk' j = trunk j) : leaves trunk' = leaves trunk :=
  leaves_eq_of (get4_congr fun i _ => h _ (by omega)) fun _ _ => get4_congr fun i _ => h _ (by omega)

theorem freeOf_congr {ts : List ℕ} (h : ∀ t ∈ ts, page' t = page t) :
    freeOf page' ts = freeOf page ts := by
  induction ts with
  | nil => rw [freeOf_nil, freeOf_nil]
  | cons t ts ih =>
    rw [freeOf_cons, freeOf_cons, h t (by simp), ih fun u hu => h u (by simp [hu])]

theorem chain_congr {ts : List ℕ} (h : ∀ t ∈ ts, page' t = page t) {i : ℕ}
    (hc : Chain g page i ts) : Chain g page' i ts := by
  induction ts generalizing i with
  | nil => exact hc
  | cons t ts ih =>
    obtain ⟨hi, hk, hrest⟩ := hc
    rw [Chain, h t (by simp)]
    exact ⟨hi, hk, ih (fun u hu => h u (by simp [hu])) hrest⟩

theorem mem_freeOf_of_mem (page : ℕ → ℕ → UInt8) {ts : List ℕ} {t : ℕ} (h : t ∈ ts) : t ∈ freeOf page ts :=
  List.mem_flatMap.mpr ⟨t, h, List.mem_cons_self⟩

/-- Putting the last element in the place of element `c` takes that element out. -/
theorem perm_set_last (xs : List ℕ) {c : ℕ} (hc : c < xs.length) (x : ℕ) :
    (xs[c] :: xs.set c x).Perm (xs ++ [x]) := calc
  (xs[c] :: xs.set c x).Perm (xs[c] :: x :: xs.eraseIdx c) :=
    (List.set_perm_cons_eraseIdx hc x).cons _
  _ |>.Perm (x :: xs[c] :: xs.eraseIdx c) := List.Perm.swap _ _ _
  _ |>.Perm (x :: xs) := (List.getElem_cons_eraseIdx_perm hc).cons _
  _ |>.Perm (xs ++ [x]) := (List.perm_append_singleton x xs).symm

end Chain

section Trunk

variable {trunk : ℕ → UInt8} {k c : ℕ}

theorem get4_dropLeaf_count (hk : k < 2 ^ 32) : get4 (dropLeaf trunk k c) 4 = k - 1 := by
  rw [dropLeaf, get4_put4_self _ _ (by omega)]

theorem get4_dropLeaf_next : get4 (dropLeaf trunk k c) 0 = get4 trunk 0 := by
  rw [dropLeaf, get4_put4_of_disjoint (by omega)]
  split
  · rw [get4_blit_of_disjoint (by omega)]
  · rfl

theorem leaf_dropLeaf {i : ℕ} (hi : i < k - 1) :
    leaf (dropLeaf trunk k c) i = if i = c then leaf trunk (k - 1) else leaf trunk i := by
  rw [leaf, dropLeaf, get4_put4_of_disjoint (by omega)]
  split
  · rename_i hc
    rcases eq_or_ne i c with rfl | hne
    · rw [if_pos rfl]
      have hcopy : get4 (blit trunk (8 + 4 * i) (slice trunk (4 + 4 * k) 4)) (8 + 4 * i + 0)
          = get4 trunk (4 + 4 * k + 0) := get4_blit_slice (by decide)
      rw [Nat.add_zero, Nat.add_zero] at hcopy
      rw [hcopy, leaf, show 8 + 4 * (k - 1) = 4 + 4 * k by omega]
    · rw [if_neg hne, get4_blit_of_disjoint (by rw [length_slice]; omega), leaf]
  · rw [if_neg (by omega), leaf]

theorem leaves_eq_concat (hk : get4 trunk 4 = k) (hpos : 0 < k) :
    leaves trunk = (List.range (k - 1)).map (leaf trunk) ++ [leaf trunk (k - 1)] := by
  rw [leaves, hk]
  obtain ⟨m, rfl⟩ := Nat.exists_eq_add_of_lt hpos
  rw [Nat.zero_add, Nat.add_sub_cancel, List.range_succ, List.map_append, List.map_singleton]

/-- **Taking leaf `c` off a trunk.** -/
theorem leaves_dropLeaf (hk : get4 trunk 4 = k) (hc : c < k) :
    (leaf trunk c :: leaves (dropLeaf trunk k c)).Perm (leaves trunk) := by
  have hlt : k < 2 ^ 32 := hk ▸ get4_lt _ _
  rw [leaves_eq_concat hk (by omega), leaves, get4_dropLeaf_count hlt]
  rcases Nat.lt_or_ge c (k - 1) with h | h
  · have hset : (List.range (k - 1)).map (leaf (dropLeaf trunk k c))
        = ((List.range (k - 1)).map (leaf trunk)).set c (leaf trunk (k - 1)) := by
      refine List.ext_getElem (by simp) fun i hi hi' => ?_
      rw [List.length_map, List.length_range] at hi
      rw [List.getElem_map, List.getElem_range, leaf_dropLeaf hi, List.getElem_set,
        List.getElem_map, List.getElem_range]
      simp only [eq_comm]
    rw [hset]
    have hperm := perm_set_last ((List.range (k - 1)).map (leaf trunk)) (c := c)
      (by simpa using h) (leaf trunk (k - 1))
    rwa [List.getElem_map, List.getElem_range] at hperm
  · obtain rfl : c = k - 1 := by omega
    have hsame : (List.range (k - 1)).map (leaf (dropLeaf trunk k (k - 1)))
        = (List.range (k - 1)).map (leaf trunk) := by
      refine List.map_congr_left fun i hi => ?_
      have hi := List.mem_range.mp hi
      rw [leaf_dropLeaf hi, if_neg (by omega)]
    rw [hsame]
    exact (List.perm_append_singleton _ _).symm

variable {newTrunk : ℕ → UInt8}

theorem get4_promoteLeaf_next : get4 (promoteLeaf trunk newTrunk k) 0 = get4 trunk 0 := by
  rw [promoteLeaf, get4_blit_of_disjoint (by omega), get4_put4_of_disjoint (by omega)]
  have hcopy : get4 (blit newTrunk 0 (slice trunk 0 4)) (0 + 0) = get4 trunk (0 + 0) :=
    get4_blit_slice (by decide)
  exact hcopy

theorem get4_promoteLeaf_count (hk : k < 2 ^ 32) :
    get4 (promoteLeaf trunk newTrunk k) 4 = k - 1 := by
  rw [promoteLeaf, get4_blit_of_disjoint (by omega), get4_put4_self _ _ (by omega)]

/-- **The promoted leaf takes over the other leaves.** -/
theorem leaves_promoteLeaf (newTrunk : ℕ → UInt8) (hk : get4 trunk 4 = k) (hpos : 0 < k) :
    leaves trunk = leaf trunk 0 :: leaves (promoteLeaf trunk newTrunk k) := by
  have hlt : k < 2 ^ 32 := hk ▸ get4_lt _ _
  obtain ⟨m, rfl⟩ := Nat.exists_eq_add_of_lt hpos
  rw [leaves, leaves, hk, get4_promoteLeaf_count hlt, Nat.zero_add, Nat.add_sub_cancel,
    List.range_succ_eq_map, List.map_cons, List.map_map]
  refine congrArg _ (List.map_congr_left fun i hi => ?_)
  have hi := List.mem_range.mp hi
  rw [Function.comp_apply, leaf, leaf, promoteLeaf, get4_blit_slice (by omega),
    show 8 + 4 * (i + 1) = 12 + 4 * i by omega]

end Trunk

/-! ### The search takes one page off the chain -/

/-- A chain hangs on `lnk`: its pages are distinct, ordinary and in the file, and the page that
holds the link is none of them. -/
structure ListAt (db : Db) (lnk : ℕ × ℕ) (ts : List ℕ) : Prop where
  chain : Chain g db.page (get4 (db.page lnk.1) lnk.2) ts
  nodup : (freeOf db.page ts).Nodup
  fresh : lnk.1 ∉ freeOf db.page ts
  inFile : ∀ p ∈ freeOf db.page ts, Ordinary g p ∧ p ≤ db.nPage

/-- `pgno` is gone from the chain at `lnk`, and nothing else has happened to it. -/
structure Taken (db db' : Db) (lnk : ℕ × ℕ) (ts : List ℕ) (pgno : ℕ) : Prop where
  chain : ∃ ts', Chain g db'.page (get4 (db'.page lnk.1) lnk.2) ts' ∧
    (pgno :: freeOf db'.page ts').Perm (freeOf db.page ts)
  nPage : db'.nPage = db.nPage
  link : ∀ j, j < lnk.2 ∨ lnk.2 + 4 ≤ j → db'.page lnk.1 j = db.page lnk.1 j
  frame : ∀ p, p ≠ lnk.1 → p ∉ freeOf db.page ts → db'.page p = db.page p

section Search

variable {g} {fetch} {eMode} {nearby} {db : Db} {lnk : ℕ × ℕ} {t : ℕ} {ts : List ℕ} {search : Bool}

theorem ListAt.iTrunk (h : ListAt g db lnk (t :: ts)) : get4 (db.page lnk.1) lnk.2 = t := h.chain.1

theorem ListAt.ne_trunk (h : ListAt g db lnk (t :: ts)) : lnk.1 ≠ t := by
  rintro heq
  exact h.fresh (by rw [heq, freeOf_cons]; exact List.mem_cons_self)

theorem ListAt.trunk_notMem (h : ListAt g db lnk (t :: ts)) :
    t ∉ leaves (db.page t) ∧ t ∉ freeOf db.page ts := by
  have := (List.nodup_cons.mp (freeOf_cons db.page t ts ▸ h.nodup)).1
  rwa [List.mem_append, not_or] at this

/-- The rest of the chain hangs on the first trunk. -/
theorem ListAt.tail (h : ListAt g db lnk (t :: ts)) : ListAt g db (t, 0) ts := by
  have hsub : ∀ p ∈ freeOf db.page ts, p ∈ freeOf db.page (t :: ts) := fun p hp => by
    rw [freeOf_cons]
    exact List.mem_cons_of_mem _ (List.mem_append_right _ hp)
  have hnodup := h.nodup
  rw [freeOf_cons] at hnodup
  exact ⟨h.chain.2.2, (List.nodup_append.mp (List.nodup_cons.mp hnodup).2).2.1,
    h.trunk_notMem.2, fun p hp => h.inFile p (hsub p hp)⟩

theorem ListAt.notMem_tail_of_leaf (h : ListAt g db lnk (t :: ts)) {p : ℕ}
    (hp : p ∈ leaves (db.page t)) : p ∉ freeOf db.page ts := by
  have hnodup := h.nodup
  rw [freeOf_cons] at hnodup
  have := (List.nodup_append.mp (List.nodup_cons.mp hnodup).2).2.2
  exact fun hp' => this p hp p hp' rfl

/-- What is taken further down the chain is taken from the whole chain. -/
theorem Taken.cons {db' : Db} {pgno : ℕ} (h : ListAt g db lnk (t :: ts))
    (htaken : Taken g db db' (t, 0) ts pgno) : Taken g db db' lnk (t :: ts) pgno := by
  obtain ⟨⟨ts', hchain, hperm⟩, hn, hlink, hframe⟩ := htaken
  have hlnk : db'.page lnk.1 = db.page lnk.1 := by
    refine hframe _ h.ne_trunk fun hmem => h.fresh ?_
    rw [freeOf_cons]
    exact List.mem_cons_of_mem _ (List.mem_append_right _ hmem)
  have hleaves : leaves (db'.page t) = leaves (db.page t) :=
    leaves_congr fun j hj => hlink j (Or.inr (by omega))
  have hcount : get4 (db'.page t) 4 = get4 (db.page t) 4 :=
    get4_congr fun j _ => hlink _ (Or.inr (by omega))
  refine ⟨⟨t :: ts', ⟨?_, ?_, hchain⟩, ?_⟩, hn, fun j _ => by rw [hlnk], fun p hp hmem => ?_⟩
  · rw [hlnk]
    exact h.iTrunk
  · rw [hcount]
    exact h.chain.2.1
  · rw [freeOf_cons, freeOf_cons, hleaves]
    refine (List.Perm.swap _ _ _).trans (List.Perm.cons _ ?_)
    exact List.perm_middle.symm.trans (hperm.append_left _)
  · rw [freeOf_cons, List.mem_cons, List.mem_append, not_or, not_or] at hmem
    exact hframe p hmem.1 hmem.2.2

variable (hmx : db.nPage ≤ g.mxPgno)
include hmx

/-- The first trunk itself is taken. -/
theorem takeTrunk_spec (h : ListAt g db lnk (t :: ts)) :
    ∃ db', takeTrunk g db lnk t (get4 (db.page t) 4) = .found t db' ∧
      Taken g db db' lnk (t :: ts) t := by
  have hlnk : ∀ u ∈ ts, u ≠ lnk.1 := fun u hu heq =>
    h.fresh (mem_freeOf_of_mem _ (List.mem_cons_of_mem _ (heq ▸ hu)))
  rcases Nat.eq_zero_or_pos (get4 (db.page t) 4) with hk | hk
  · -- no leaves: the link skips the trunk
    have hsame : ∀ u ∈ ts, (db.update lnk.1 (blit (db.page lnk.1) lnk.2
        (slice (db.page t) 0 4))).page u = db.page u :=
      fun u hu => Db.update_page_of_ne _ (hlnk u hu) _
    refine ⟨db.update lnk.1 (blit (db.page lnk.1) lnk.2 (slice (db.page t) 0 4)),
      by rw [takeTrunk]; dsimp only; rw [if_pos hk], ⟨ts, ?_, ?_⟩, rfl, ?_, ?_⟩
    · have hcopy : get4 (blit (db.page lnk.1) lnk.2 (slice (db.page t) 0 4)) (lnk.2 + 0)
          = get4 (db.page t) (0 + 0) := get4_blit_slice (by decide)
      rw [Nat.add_zero] at hcopy
      rw [Db.update_page_self, hcopy]
      exact chain_congr hsame h.tail.chain
    · have hnil : leaves (db.page t) = [] := List.eq_nil_of_length_eq_zero (by simpa using hk)
      rw [freeOf_cons, hnil, List.nil_append, freeOf_congr hsame]
    · intro j hj
      rw [Db.update_page_self, blit_outside (by rwa [length_slice])]
    · exact fun p hp _ => Db.update_page_of_ne _ hp _
  · -- the first leaf takes the trunk's place
    set l := leaf (db.page t) 0 with hl
    have hlmem : l ∈ leaves (db.page t) := leaf_mem_leaves hk
    have hlfree : l ∈ freeOf db.page (t :: ts) := by
      rw [freeOf_cons]
      exact List.mem_cons_of_mem _ (List.mem_append_left _ hlmem)
    obtain ⟨hlord, hlle⟩ := h.inFile l hlfree
    have hllnk : l ≠ lnk.1 := fun heq => h.fresh (heq ▸ hlfree)
    have hk32 : get4 (db.page t) 4 < 2 ^ 32 := get4_lt _ _
    set b := promoteLeaf (db.page t) (db.page l) (get4 (db.page t) 4) with hb
    have hnew : ((db.update l b).put lnk.1 lnk.2 l).page l = b := by
      rw [Db.put_page_of_ne _ hllnk, Db.update_page_self]
    have hsame : ∀ u ∈ ts, ((db.update l b).put lnk.1 lnk.2 l).page u = db.page u := by
      intro u hu
      rw [Db.put_page_of_ne _ (hlnk u hu), Db.update_page_of_ne]
      rintro rfl
      exact h.notMem_tail_of_leaf hlmem (mem_freeOf_of_mem _ hu)
    refine ⟨(db.update l b).put lnk.1 lnk.2 l, ?_, ⟨l :: ts, ⟨?_, ?_, ?_⟩, ?_⟩, rfl, ?_, ?_⟩
    · rw [takeTrunk]
      dsimp only
      rw [if_neg (by omega), ← hl, if_neg (by omega), hlord.acquire hlle hmx, if_neg (by simp)]
    · have := g.mxPgno_lt
      rw [Db.put_page_self, get4_put4_self _ _ (by omega)]
    · have := h.chain.2.1
      rw [hnew, hb, get4_promoteLeaf_count hk32]
      omega
    · rw [hnew, hb, get4_promoteLeaf_next]
      exact chain_congr hsame h.tail.chain
    · rw [freeOf_cons, freeOf_cons, hnew, leaves_promoteLeaf (db.page l) rfl hk, ← hl, ← hb,
        freeOf_congr hsame, List.cons_append]
    · intro j hj
      rw [Db.put_page_self, put4_outside hj, Db.update_page_of_ne _ hllnk.symm]
    · intro p hp hpmem
      rw [Db.put_page_of_ne _ hp, Db.update_page_of_ne]
      rintro rfl
      exact hpmem hlfree

variable (fetch) (eMode) (nearby) (search)

/-- A leaf of the first trunk is taken, if the search is content with the closest one. -/
theorem takeLeaf_spec (h : ListAt g db lnk (t :: ts)) (hk : 0 < get4 (db.page t) 4) :
    (∃ p db', takeLeaf g fetch eMode nearby search db t (get4 (db.page t) 4) = .found p db' ∧
      Taken g db db' lnk (t :: ts) p ∧ (search = true → Hit eMode nearby p)) ∨
    (takeLeaf g fetch eMode nearby search db t (get4 (db.page t) 4) = .next t ∧ search = true ∧
      ¬ Hit eMode nearby (leaf (db.page t)
        (closest (db.page t) eMode nearby (get4 (db.page t) 4)))) := by
  set k := get4 (db.page t) 4 with hkdef
  set c := closest (db.page t) eMode nearby k with hc
  have hck : c < k := closest_lt eMode hk
  set p := leaf (db.page t) c with hp
  have hpmem : p ∈ leaves (db.page t) := leaf_mem_leaves (by omega)
  have hpfree : p ∈ freeOf db.page (t :: ts) := by
    rw [freeOf_cons]
    exact List.mem_cons_of_mem _ (List.mem_append_left _ hpmem)
  obtain ⟨hpord, hple⟩ := h.inFile p hpfree
  by_cases hhit : search = false ∨ Hit eMode nearby p
  · left
    have hpt : t ≠ p := fun heq => h.trunk_notMem.1 (heq ▸ hpmem)
    have hlp : lnk.1 ≠ p := fun heq => h.fresh (heq ▸ hpfree)
    have htrunk : ((db.update t (dropLeaf (db.page t) k c)).update p (fetch p)).page t
        = dropLeaf (db.page t) k c := by
      rw [Db.update_page_of_ne _ hpt, Db.update_page_self]
    have hlnk : ((db.update t (dropLeaf (db.page t) k c)).update p (fetch p)).page lnk.1
        = db.page lnk.1 := by
      rw [Db.update_page_of_ne _ hlp, Db.update_page_of_ne _ h.ne_trunk]
    have hsame : ∀ u ∈ ts, ((db.update t (dropLeaf (db.page t) k c)).update p (fetch p)).page u
        = db.page u := by
      intro u hu
      have hu' := mem_freeOf_of_mem db.page hu
      rw [Db.update_page_of_ne, Db.update_page_of_ne]
      · rintro rfl
        exact h.trunk_notMem.2 hu'
      · rintro rfl
        exact h.notMem_tail_of_leaf hpmem hu'
    refine ⟨p, (db.update t (dropLeaf (db.page t) k c)).update p (fetch p), ?_,
      ⟨⟨t :: ts, ⟨?_, ?_, ?_⟩, ?_⟩, rfl, fun j _ => by rw [hlnk], ?_⟩, ?_⟩
    · rw [takeLeaf]
      dsimp only
      rw [← hc, ← hp, if_neg (by omega), if_pos hhit, hpord.acquire hple hmx, if_neg (by simp)]
    · rw [hlnk]
      exact h.iTrunk
    · have := h.chain.2.1
      rw [htrunk, get4_dropLeaf_count (hkdef ▸ get4_lt _ _)]
      omega
    · rw [htrunk, get4_dropLeaf_next]
      exact chain_congr hsame h.tail.chain
    · rw [freeOf_cons, freeOf_cons, htrunk, freeOf_congr hsame]
      refine (List.Perm.swap _ _ _).trans (List.Perm.cons _ ?_)
      rw [← List.cons_append]
      exact (leaves_dropLeaf hkdef.symm hck).append_right _
    · intro q _ hq
      rw [Db.update_page_of_ne, Db.update_page_of_ne]
      · rintro rfl
        exact hq (mem_freeOf_of_mem _ List.mem_cons_self)
      · rintro rfl
        exact hq hpfree
    · intro hs
      rcases hhit with h' | h'
      · rw [hs] at h'
        exact Bool.noConfusion h'
      · exact h'
  · right
    refine ⟨?_, ?_, fun hh => hhit (Or.inr hh)⟩
    · rw [takeLeaf]
      dsimp only
      rw [← hc, ← hp, if_neg (by omega), if_neg hhit]
    · cases search with
      | true => rfl
      | false => exact absurd (Or.inl rfl) hhit

/-- **One turn of the search.** It takes a page it may take, or the first trunk and its leaves hold
none. -/
theorem allocTurn_spec (h : ListAt g db lnk (t :: ts))
    (hnear : search = true → 0 < nearby ∧ nearby < 2 ^ 32) :
    (∃ p db', allocTurn g fetch eMode nearby search db lnk = .found p db' ∧
      Taken g db db' lnk (t :: ts) p ∧ (search = true → Hit eMode nearby p)) ∨
    (allocTurn g fetch eMode nearby search db lnk = .next t ∧ search = true ∧
      ∀ p ∈ t :: leaves (db.page t), ¬ Hit eMode nearby p) := by
  obtain ⟨htord, htle⟩ := h.inFile t (mem_freeOf_of_mem _ List.mem_cons_self)
  have hcap := h.chain.2.1
  have hturn : allocTurn g fetch eMode nearby search db lnk =
      if get4 (db.page t) 4 = 0 ∧ search = false then takeTrunk g db lnk t 0
      else if search = true ∧ Hit eMode nearby t then
        takeTrunk g db lnk t (get4 (db.page t) 4)
      else if 0 < get4 (db.page t) 4 then
        takeLeaf g fetch eMode nearby search db t (get4 (db.page t) 4)
      else .next t := by
    rw [allocTurn]
    dsimp only
    rw [h.iTrunk, if_neg (by omega), htord.acquire htle hmx, if_neg (by simp),
      if_neg (show ¬ g.usableSize / 4 - 2 < get4 (db.page t) 4 by omega)]
  obtain ⟨db₁, htake, htaken⟩ := takeTrunk_spec hmx h
  rw [hturn]
  by_cases h0 : get4 (db.page t) 4 = 0 ∧ search = false
  · left
    refine ⟨t, db₁, ?_, htaken, fun hs => ?_⟩
    · rw [if_pos h0, ← h0.1, htake]
    · rw [h0.2] at hs
      exact Bool.noConfusion hs
  rw [if_neg h0]
  by_cases hhit : search = true ∧ Hit eMode nearby t
  · exact Or.inl ⟨t, db₁, by rw [if_pos hhit, htake], htaken, fun _ => hhit.2⟩
  rw [if_neg hhit]
  rcases Nat.eq_zero_or_pos (get4 (db.page t) 4) with hk | hk
  · -- a searched trunk without leaves
    have hs : search = true := by
      cases search with
      | true => rfl
      | false => exact absurd ⟨hk, rfl⟩ h0
    have hnil : leaves (db.page t) = [] := List.eq_nil_of_length_eq_zero (by simpa using hk)
    refine Or.inr ⟨by rw [if_neg (by omega)], hs, fun p hp => ?_⟩
    rw [hnil, List.mem_singleton] at hp
    rw [hp]
    exact fun hh => hhit ⟨hs, hh⟩
  · rw [if_pos hk]
    rcases takeLeaf_spec fetch eMode nearby search hmx h hk with hfound | ⟨hnext, hs, hmiss⟩
    · exact Or.inl hfound
    · refine Or.inr ⟨hnext, hs, fun p hp hh => ?_⟩
      rcases List.mem_cons.mp hp with rfl | hp
      · exact hhit ⟨hs, hh⟩
      · obtain ⟨i, hi, rfl⟩ := List.mem_map.mp hp
        obtain ⟨hn0, hn32⟩ := hnear hs
        exact hmiss (hit_closest eMode hn0 hn32 (List.mem_range.mp hi) hh)

/-- **The search takes one page off the chain, one it may take if it searches, or there is none.**
The induction is on the trunks ahead; the link moves from trunk to trunk. -/
theorem allocLoop_spec (h : ListAt g db lnk ts)
    (hnear : search = true → 0 < nearby ∧ nearby < 2 ^ 32) {fuel : ℕ} (hfuel : ts.length < fuel) :
    (∃ p db', allocLoop g fetch eMode nearby search db fuel lnk = some (.ok p, db') ∧
      Taken g db db' lnk ts p ∧ (search = true → Hit eMode nearby p)) ∨
    ((∃ rc db', allocLoop g fetch eMode nearby search db fuel lnk = some (.error rc, db')) ∧
      (search = false → ts = []) ∧ ∀ p ∈ freeOf db.page ts, ¬ Hit eMode nearby p) := by
  induction ts generalizing lnk fuel with
  | nil =>
    -- the end of the chain is page number zero, which the pager refuses
    right
    obtain ⟨fuel, rfl⟩ := Nat.exists_eq_add_of_lt hfuel
    have hzero : get4 (db.page lnk.1) lnk.2 = 0 := h.chain
    have hfail : allocTurn g fetch eMode nearby search db lnk = .failed .corrupt db := by
      rw [allocTurn]
      dsimp only
      rw [hzero, if_neg (by omega), show acquire g db.nPage 0 = .corrupt by rw [acquire]; simp,
        if_pos (by simp)]
    refine ⟨⟨.corrupt, db, ?_⟩, fun _ => rfl, by simp⟩
    rw [allocLoop, List.length_nil, loopTurns, hfail]
  | cons t ts ih =>
    obtain ⟨fuel, rfl⟩ : ∃ n, fuel = n + 1 := ⟨fuel - 1, by omega⟩
    rw [List.length_cons] at hfuel
    rcases allocTurn_spec fetch eMode nearby search hmx h hnear with
      ⟨p, db', hturn, htaken, hhit⟩ | ⟨hturn, hs, hmiss⟩
    · exact Or.inl ⟨p, db', by rw [allocLoop, loopTurns, hturn], htaken, hhit⟩
    · have hloop : allocLoop g fetch eMode nearby search db (fuel + 1) lnk
          = allocLoop g fetch eMode nearby search db fuel (t, 0) := by
        rw [allocLoop, loopTurns, hturn, allocLoop]
      rw [hloop]
      rcases ih h.tail (Nat.lt_of_succ_lt_succ hfuel) with ⟨p, db', hloop', htaken, hhit⟩ | ⟨herr, -, hmiss'⟩
      · exact Or.inl ⟨p, db', hloop', htaken.cons h, hhit⟩
      · refine Or.inr ⟨herr, fun hf => ?_, fun p hp => ?_⟩
        · rw [hs] at hf
          exact Bool.noConfusion hf
        · rw [freeOf_cons, ← List.cons_append, List.mem_append] at hp
          rcases hp with hp | hp
          · exact hmiss p hp
          · exact hmiss' p hp

end Search

end Btree

end SqliteVms

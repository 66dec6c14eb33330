import SqliteVms.Pcache.Pcache1

/-!
# The invariant of the page cache

The pages of the hash tables, and the pages of the LRU list. While a page is moved from one cache to
another it is in no table, and its address is in use all the same; so the invariant is about a set of
pages `T` that are in the tables, a list `L`, and the share `n` of `nCurrentPage` that is in neither.
Between two calls `T` is all pages there are, and `n` is 0.

## Main definitions

* `count` — the number of pages of a kind, as a counter has it
* `Tables`, `Lru` — the hash tables and the LRU list
* `Inv` — the two together, and `nCurrentPage`

## Main results

* `Inv.pin`, `Inv.remove`, `Inv.free`, `Inv.add`, `Inv.push` — what is done to one page
-/

namespace SqliteVms

namespace Pcache1

/-- The number of pages of a kind, as a counter has it. -/
def count (T : Finset ℕ) (P : ℕ → Prop) [DecidablePred P] : UInt32 :=
  UInt32.ofNat (T.filter P).card

theorem count_insert {T : Finset ℕ} {P : ℕ → Prop} [DecidablePred P] {a : ℕ} (ha : a ∉ T) :
    count (insert a T) P = count T P + if P a then 1 else 0 := by
  unfold count
  rw [Finset.filter_insert]
  split
  · rw [Finset.card_insert_of_notMem fun h => ha (Finset.mem_of_mem_filter a h), UInt32.ofNat_add]
    rfl
  · rw [UInt32.add_zero]

theorem count_congr {T : Finset ℕ} {P Q : ℕ → Prop} [DecidablePred P] [DecidablePred Q]
    (h : ∀ a ∈ T, P a ↔ Q a) : count T P = count T Q := by
  unfold count
  rw [Finset.filter_congr h]

/-- The pages of `T` are in the hash tables, each in the slot of its key. -/
structure Tables (s : PGroup) (T : Finset ℕ) : Prop where
  owner : ∀ a ∈ T, (s.page a).pCache ∈ s.caches
  pos : ∀ a ∈ T, 0 < (s.owner a).nHash
  mem : ∀ c ∈ s.caches, ∀ h a, a ∈ (s.cache c).apHash h ↔
    a ∈ T ∧ (s.page a).pCache = c ∧ (s.cache c).slot (s.page a).iKey = h
  nodup : ∀ c ∈ s.caches, ∀ h, ((s.cache c).apHash h).Nodup
  key : ∀ a ∈ T, ∀ b ∈ T, (s.page a).pCache = (s.page b).pCache →
    (s.page a).iKey = (s.page b).iKey → a = b
  nPage : ∀ c ∈ s.caches, (s.cache c).nPage = count T fun a => (s.page a).pCache = c

/-- `L` is the LRU list. The pages of `T` that are not on it have no pointers. -/
structure Lru (s : PGroup) (T : Finset ℕ) (L : List ℕ) : Prop where
  list : s.lru.IsList s.pLruHead L
  tail : s.pLruTail = L.getLast?
  sub : ∀ a ∈ L, a ∈ s.pages
  owner : ∀ a ∈ L, (s.page a).pCache ∈ s.caches
  clear : ∀ a ∈ T, a ∉ L → s.lru.next a = none ∧ s.lru.prev a = none
  nRecyclable : ∀ c ∈ s.caches, (s.cache c).nRecyclable
    = count L.toFinset fun a => (s.page a).pCache = c

/-- The invariant. -/
structure Inv (s : PGroup) (T : Finset ℕ) (L : List ℕ) (n : UInt32) : Prop where
  sub : T ⊆ s.pages
  tables : Tables s T
  lru : Lru s T L
  maxKey : ∀ a ∈ T, (s.page a).iKey ≤ (s.owner a).iMaxKey
  current : s.nCurrentPage = count T (fun a => (s.owner a).bPurgeable) + n

variable {s s' : PGroup} {T : Finset ℕ} {L A B : List ℕ} {n : UInt32} {a c : ℕ}

/-! ### What does not matter -/

/-- The same pages in the same tables. -/
structure SameTables (s s' : PGroup) : Prop where
  page : s'.page = s.page
  caches : s'.caches = s.caches
  nHash : ∀ c, (s'.cache c).nHash = (s.cache c).nHash
  apHash : ∀ c, (s'.cache c).apHash = (s.cache c).apHash
  nPage : ∀ c, (s'.cache c).nPage = (s.cache c).nPage
  bPurgeable : ∀ c, (s'.cache c).bPurgeable = (s.cache c).bPurgeable

/-- The same list. -/
structure SameLru (s s' : PGroup) : Prop where
  lru : s'.lru = s.lru
  pLruHead : s'.pLruHead = s.pLruHead
  pLruTail : s'.pLruTail = s.pLruTail
  page : s'.page = s.page
  caches : s'.caches = s.caches
  nRecyclable : ∀ c, (s'.cache c).nRecyclable = (s.cache c).nRecyclable

theorem SameTables.slot (h : SameTables s s') (c : ℕ) : (s'.cache c).slot = (s.cache c).slot := by
  funext iKey
  rw [PCache1.slot, PCache1.slot, h.nHash]

/-- The tables do not depend on the rest of the group. -/
theorem SameTables.tables (h : SameTables s s') (ht : Tables s T) : Tables s' T := by
  constructor
  case owner => rw [h.page, h.caches]; exact ht.owner
  case pos =>
    intro a ha
    rw [PGroup.owner, h.nHash, h.page]
    exact ht.pos a ha
  case mem =>
    intro c hc k a
    rw [h.caches] at hc
    rw [h.apHash, h.page, h.slot]
    exact ht.mem c hc k a
  case nodup =>
    intro c hc k
    rw [h.caches] at hc
    rw [h.apHash]
    exact ht.nodup c hc k
  case key => rw [h.page]; exact ht.key
  case nPage =>
    intro c hc
    rw [h.caches] at hc
    rw [h.nPage, h.page]
    exact ht.nPage c hc

theorem SameTables.purgeable (h : SameTables s s') (a : ℕ) :
    (s'.owner a).bPurgeable = (s.owner a).bPurgeable := by
  rw [PGroup.owner, PGroup.owner, h.page, h.bPurgeable]

/-- The list does not depend on the rest of the group. -/
theorem SameLru.lists (h : SameLru s s') (hl : Lru s T L) (hsub : ∀ a ∈ L, a ∈ s'.pages) :
    Lru s' T L := by
  constructor
  case list => rw [h.lru, h.pLruHead]; exact hl.list
  case tail => rw [h.pLruTail]; exact hl.tail
  case sub => exact hsub
  case owner => rw [h.page, h.caches]; exact hl.owner
  case clear => rw [h.lru]; exact hl.clear
  case nRecyclable =>
    intro c hc
    rw [h.caches] at hc
    rw [h.nRecyclable, h.page]
    exact hl.nRecyclable c hc

theorem Tables.of_eq (h : Tables s T) (hpage : s'.page = s.page) (hcaches : s'.caches = s.caches)
    (hcache : s'.cache = s.cache) : Tables s' T := by
  have hsame : SameTables s s' := by
    refine ⟨hpage, hcaches, ?_, ?_, ?_, ?_⟩ <;> · intro c; rw [hcache]
  exact hsame.tables h

theorem Lru.of_eq (h : Lru s T L) (hlru : s'.lru = s.lru) (hhead : s'.pLruHead = s.pLruHead)
    (htail : s'.pLruTail = s.pLruTail) (hpage : s'.page = s.page) (hcaches : s'.caches = s.caches)
    (hcache : s'.cache = s.cache) (hsub : ∀ a ∈ L, a ∈ s'.pages) : Lru s' T L := by
  have hsame : SameLru s s' := ⟨hlru, hhead, htail, hpage, hcaches, fun c => by rw [hcache]⟩
  exact hsame.lists h hsub

theorem setCache_cache (s : PGroup) (c : ℕ) (f : PCache1 → PCache1) (d : ℕ) :
    (s.setCache c f).cache d = if d = c then f (s.cache d) else s.cache d := by
  rw [PGroup.setCache]
  rcases eq_or_ne d c with rfl | hne
  · rw [if_pos rfl]
    exact Function.update_self _ _ _
  · rw [if_neg hne]
    exact Function.update_of_ne hne _ _

/-- A field that `f` keeps. -/
theorem setCache_field {α : Type*} (g : PCache1 → α) {f : PCache1 → PCache1} (c d : ℕ)
    (hf : ∀ C, g (f C) = g C) (hcache : s'.cache = s.cache) :
    g ((s'.setCache c f).cache d) = g (s.cache d) := by
  rw [setCache_cache, hcache]
  split
  · exact hf _
  · rfl

/-- What `f` keeps of a cache that has to do with its hash table. -/
structure KeepsTable (f : PCache1 → PCache1) : Prop where
  nHash : ∀ C, (f C).nHash = C.nHash
  apHash : ∀ C, (f C).apHash = C.apHash
  nPage : ∀ C, (f C).nPage = C.nPage
  bPurgeable : ∀ C, (f C).bPurgeable = C.bPurgeable

/-- A cache changes, but not its table. -/
theorem sameTables_setCache {f : PCache1 → PCache1} (hf : KeepsTable f) (hpage : s'.page = s.page)
    (hcaches : s'.caches = s.caches) (hcache : s'.cache = s.cache) (c : ℕ) :
    SameTables s (s'.setCache c f) := by
  constructor
  case page => exact hpage
  case caches => exact hcaches
  case nHash => exact fun d => setCache_field PCache1.nHash c d hf.nHash hcache
  case apHash => exact fun d => setCache_field PCache1.apHash c d hf.apHash hcache
  case nPage => exact fun d => setCache_field PCache1.nPage c d hf.nPage hcache
  case bPurgeable => exact fun d => setCache_field PCache1.bPurgeable c d hf.bPurgeable hcache

theorem SameTables.refl (s : PGroup) : SameTables s s :=
  ⟨rfl, rfl, fun _ => rfl, fun _ => rfl, fun _ => rfl, fun _ => rfl⟩

/-! ### Pinning -/

/-- Whether a page is on the list shows in its pointers. -/
theorem Lru.mem_iff (h : Lru s T L) (ha : a ∈ T ∨ a ∈ L) :
    (s.lru.next a).isSome ∨ s.pLruTail = some a ↔ a ∈ L := by
  constructor
  · intro hin
    by_contra hL
    have hclear := h.clear a (ha.resolve_right hL) hL
    rcases hin with hnext | htail
    · rw [hclear.1] at hnext
      cases hnext
    · rw [h.tail] at htail
      exact hL (List.mem_of_getLast? htail)
  · intro hL
    obtain ⟨A, B, rfl⟩ := List.append_of_mem hL
    obtain ⟨-, hnext⟩ := h.list.seg.pointers
    cases B with
    | nil =>
      refine Or.inr (h.tail.trans ?_)
      rw [List.getLast?_append, List.getLast?_singleton, Option.some_or]
    | cons b B =>
      refine Or.inl ?_
      rw [hnext]
      rfl

/-- Pinning a page that is not on the list does nothing. -/
theorem pinPage_of_not_mem (h : Lru s T L) (ha : a ∈ T) (hL : a ∉ L) : s.pcache1PinPage a = s := by
  rw [PGroup.pcache1PinPage, if_neg fun hin => hL ((h.mem_iff (Or.inl ha)).mp hin)]

/-- Pinning leaves the tables alone. -/
theorem pinPage_sameTables (s : PGroup) (a : ℕ) : SameTables s (s.pcache1PinPage a) := by
  unfold PGroup.pcache1PinPage
  split
  · refine sameTables_setCache ?_ ?_ ?_ ?_ _
    · exact ⟨fun _ => rfl, fun _ => rfl, fun _ => rfl, fun _ => rfl⟩
    all_goals rfl
  · exact SameTables.refl s

/-- A page is taken off the list. -/
theorem Lru.pin (h : Lru s T (A ++ a :: B)) : Lru (s.pcache1PinPage a) T (A ++ B) := by
  have hmem : a ∈ A ++ a :: B := List.mem_append_right A List.mem_cons_self
  have hnodup := h.list.nodup
  have haAB : a ∉ A ++ B := (List.nodup_cons.mp (List.nodup_middle.mp hnodup)).1
  obtain ⟨hprev, hnext⟩ := h.list.seg.pointers
  rw [Option.or_none] at hprev hnext
  have hsub : A ++ B ⊆ A ++ a :: B :=
    List.append_subset.mpr ⟨List.subset_append_left A _,
      List.Subset.trans (List.subset_cons_self a B) (List.subset_append_right A _)⟩
  have hneA : ∀ x ∈ A, x ≠ a := fun x hx heq => haAB (heq ▸ List.mem_append_left B hx)
  have hneB : ∀ x ∈ B, x ≠ a := fun x hx heq => haAB (heq ▸ List.mem_append_right A hx)
  have hseg : (((s.lru.unlink a).setNext (some a) none).setPrev (some a) none).Seg none (A ++ B)
      none := by
    refine (h.list.seg.unlink hnodup).congr fun x hx => ?_
    have hne : some a ≠ some x := fun heq => haAB (Option.some.inj heq ▸ hx)
    rw [Links.setPrev_next, Links.setNext_next, if_neg hne, Links.setPrev_prev, if_neg hne,
      Links.setNext_prev]
    exact ⟨rfl, rfl⟩
  rw [PGroup.pcache1PinPage, if_pos ((h.mem_iff (Or.inr hmem)).mpr hmem)]
  constructor
  case list =>
    refine ⟨(List.nodup_cons.mp (List.nodup_middle.mp hnodup)).2, ?_, hseg⟩
    show (if s.pLruHead = some a then s.lru.next a else s.pLruHead) = (A ++ B).head?
    rw [h.list.first, hnext]
    cases A with
    | nil => exact if_pos rfl
    | cons x A => exact if_neg fun heq => hneA x List.mem_cons_self (Option.some.inj heq)
  case tail =>
    show (if s.pLruTail = some a then s.lru.prev a else s.pLruTail) = (A ++ B).getLast?
    rw [h.tail, hprev]
    cases hB : B.getLast? with
    | none =>
      rw [List.getLast?_eq_none_iff] at hB
      rw [hB, List.append_nil, List.getLast?_concat, if_pos rfl]
    | some b =>
      have hlast : (A ++ a :: B).getLast? = some b := by
        rw [List.getLast?_append, List.getLast?_cons, hB]
        rfl
      rw [hlast, if_neg fun heq => hneB b (List.mem_of_getLast? hB) (Option.some.inj heq),
        List.getLast?_append, hB]
      rfl
  case sub => exact fun x hx => h.sub x (hsub hx)
  case owner => exact fun x hx => h.owner x (hsub hx)
  case clear =>
    intro x hxT hx
    show (((s.lru.unlink a).setNext (some a) none).setPrev (some a) none).next x = none ∧
      (((s.lru.unlink a).setNext (some a) none).setPrev (some a) none).prev x = none
    rw [Links.setPrev_next, Links.setNext_next, Links.setPrev_prev, Links.setNext_prev,
      Links.unlink_next, Links.unlink_prev, hprev, hnext]
    rcases eq_or_ne x a with rfl | hne
    · exact ⟨if_pos rfl, if_pos rfl⟩
    · have hxL : x ∉ A ++ a :: B := by
        rw [List.mem_append, List.mem_cons]
        rintro (hxA | rfl | hxB)
        · exact hx (List.mem_append_left B hxA)
        · exact hne rfl
        · exact hx (List.mem_append_right A hxB)
      have hclear := h.clear x hxT hxL
      have ha : some a ≠ some x := fun heq => hne (Option.some.inj heq).symm
      have hA : A.getLast? ≠ some x := fun heq =>
        hx (List.mem_append_left B (List.mem_of_getLast? heq))
      have hB : B.head? ≠ some x := fun heq =>
        hx (List.mem_append_right A (List.mem_of_mem_head? heq))
      rw [if_neg ha, if_neg ha, if_neg hA, if_neg hB]
      exact hclear
  case nRecyclable =>
    intro c hc
    have hcount := h.nRecyclable c hc
    have hset : (A ++ a :: B).toFinset = insert a (A ++ B).toFinset := by
      ext x
      simp only [List.mem_toFinset, Finset.mem_insert, List.mem_append, List.mem_cons]
      tauto
    rw [hset, count_insert (by rwa [List.mem_toFinset])] at hcount
    show ((PGroup.setCache _ _ _).cache c).nRecyclable = _
    rw [setCache_cache]
    split
    · rename_i heq
      show (s.cache c).nRecyclable - 1 = _
      rw [hcount, if_pos heq.symm, UInt32.add_sub_cancel]
      rfl
    · rename_i hne
      rw [if_neg fun heq => hne heq.symm, UInt32.add_zero] at hcount
      exact hcount

theorem pinPage_iMaxKey (s : PGroup) (a c : ℕ) :
    ((s.pcache1PinPage a).cache c).iMaxKey = (s.cache c).iMaxKey := by
  unfold PGroup.pcache1PinPage
  split
  · exact setCache_field PCache1.iMaxKey _ c (fun _ => rfl) rfl
  · rfl

theorem pinPage_pages (s : PGroup) (a : ℕ) : (s.pcache1PinPage a).pages = s.pages := by
  unfold PGroup.pcache1PinPage
  split <;> rfl

theorem pinPage_nCurrentPage (s : PGroup) (a : ℕ) :
    (s.pcache1PinPage a).nCurrentPage = s.nCurrentPage := by
  unfold PGroup.pcache1PinPage
  split <;> rfl

/-- **A page is pinned**, whether it was before or not. -/
theorem Inv.pin (h : Inv s T L n) (ha : a ∈ T ∨ a ∈ L) :
    Inv (s.pcache1PinPage a) T (L.filter (· ≠ a)) n := by
  by_cases hL : a ∈ L
  · have hsame := pinPage_sameTables s a
    obtain ⟨A, B, rfl⟩ := List.append_of_mem hL
    rw [List.filter_ne_of_nodup h.lru.list.nodup]
    constructor
    case sub => rw [pinPage_pages]; exact h.sub
    case tables => exact hsame.tables h.tables
    case lru => exact h.lru.pin
    case maxKey =>
      intro x hx
      rw [PGroup.owner, pinPage_iMaxKey, hsame.page]
      exact h.maxKey x hx
    case current =>
      rw [pinPage_nCurrentPage, h.current]
      exact congrArg (· + n) (count_congr fun x _ => by rw [hsame.purgeable])
  · have hfilter : L.filter (· ≠ a) = L := List.filter_eq_self.mpr fun x hx => by
      simpa using ne_of_mem_of_not_mem hx hL
    rw [pinPage_of_not_mem h.lru (ha.resolve_right hL) hL, hfilter]
    exact h

/-! ### Taking a page out of its table -/

theorem Lru.mono {T' : Finset ℕ} (h : Lru s T L) (hT : T' ⊆ T) : Lru s T' L :=
  { h with clear := fun a ha => h.clear a (hT ha) }

theorem removeFromHash_sameLru (s : PGroup) (a : ℕ) : SameLru s (s.pcache1RemoveFromHash a) :=
  ⟨rfl, rfl, rfl, rfl, rfl, fun c => setCache_field PCache1.nRecyclable _ c (fun _ => rfl) rfl⟩

theorem removeFromHash_nHash (s : PGroup) (a c : ℕ) :
    ((s.pcache1RemoveFromHash a).cache c).nHash = (s.cache c).nHash :=
  setCache_field PCache1.nHash _ c (fun _ => rfl) rfl

theorem removeFromHash_iMaxKey (s : PGroup) (a c : ℕ) :
    ((s.pcache1RemoveFromHash a).cache c).iMaxKey = (s.cache c).iMaxKey :=
  setCache_field PCache1.iMaxKey _ c (fun _ => rfl) rfl

/-- The chains without the page. -/
theorem mem_removeFromHash (h : Tables s T) (ha : a ∈ T) (hc : c ∈ s.caches) (k x : ℕ) :
    x ∈ ((s.pcache1RemoveFromHash a).cache c).apHash k ↔ x ∈ (s.cache c).apHash k ∧ x ≠ a := by
  have hnodup := h.nodup c hc
  rw [PGroup.pcache1RemoveFromHash, setCache_cache]
  split
  · rename_i heq
    show x ∈ Function.update (s.cache c).apHash ((s.cache c).slot (s.page a).iKey) _ k ↔ _
    rcases eq_or_ne k ((s.cache c).slot (s.page a).iKey) with rfl | hne
    · rw [Function.update_self, (hnodup _).mem_erase_iff, and_comm]
    · rw [Function.update_of_ne hne]
      refine ⟨fun hx => ⟨hx, ?_⟩, And.left⟩
      rintro rfl
      exact hne ((h.mem c hc k x).mp hx).2.2.symm
  · rename_i hne
    refine ⟨fun hx => ⟨hx, ?_⟩, And.left⟩
    rintro rfl
    exact hne ((h.mem c hc k x).mp hx).2.1.symm

/-- The tables after `pcache1RemoveFromHash`. -/
theorem Tables.remove (h : Tables s (insert a T)) (ha : a ∉ T) :
    Tables (s.pcache1RemoveFromHash a) T := by
  constructor
  case owner => exact fun x hx => h.owner x (Finset.mem_insert_of_mem hx)
  case pos =>
    intro x hx
    rw [PGroup.owner, removeFromHash_nHash]
    exact h.pos x (Finset.mem_insert_of_mem hx)
  case mem =>
    intro c hc k x
    rw [mem_removeFromHash h (Finset.mem_insert_self a T) hc, h.mem c hc, Finset.mem_insert,
      PCache1.slot, PCache1.slot, removeFromHash_nHash]
    constructor
    · rintro ⟨⟨rfl | hx, hrest⟩, hne⟩
      · exact absurd rfl hne
      · exact ⟨hx, hrest⟩
    · rintro ⟨hx, hrest⟩
      exact ⟨⟨Or.inr hx, hrest⟩, fun heq => ha (heq ▸ hx)⟩
  case nodup =>
    intro c hc k
    rw [PGroup.pcache1RemoveFromHash, setCache_cache]
    split
    · dsimp only
      rw [Function.update_apply]
      split
      · exact (h.nodup c hc _).erase a
      · exact h.nodup c hc k
    · exact h.nodup c hc k
  case key =>
    exact fun x hx y hy => h.key x (Finset.mem_insert_of_mem hx) y (Finset.mem_insert_of_mem hy)
  case nPage =>
    intro c hc
    have hcount := h.nPage c hc
    rw [count_insert ha] at hcount
    rw [PGroup.pcache1RemoveFromHash, setCache_cache]
    split
    · rename_i heq
      show (s.cache c).nPage - 1 = _
      rw [hcount, if_pos heq.symm, UInt32.add_sub_cancel]
      rfl
    · rename_i hne
      rw [if_neg fun heq => hne heq.symm, UInt32.add_zero] at hcount
      exact hcount

theorem removeFromHash_purgeable (s : PGroup) (a x : ℕ) :
    ((s.pcache1RemoveFromHash a).owner x).bPurgeable = (s.owner x).bPurgeable :=
  setCache_field PCache1.bPurgeable _ _ (fun _ => rfl) rfl

/-- A page that is in no table has its share in `nCurrentPage`. -/
theorem Inv.remove (h : Inv s (insert a T) L n) (ha : a ∉ T) :
    Inv (s.pcache1RemoveFromHash a) T L (n + (s.owner a).bPurgeable.toUInt32) := by
  have hT := Finset.subset_insert a T
  constructor
  case sub => exact hT.trans h.sub
  case tables => exact h.tables.remove ha
  case lru => exact (removeFromHash_sameLru s a).lists (h.lru.mono hT) h.lru.sub
  case maxKey =>
    intro x hx
    rw [PGroup.owner, removeFromHash_iMaxKey]
    exact h.maxKey x (hT hx)
  case current =>
    show s.nCurrentPage = _
    have hcount : count T (fun x => ((s.pcache1RemoveFromHash a).owner x).bPurgeable)
        = count T fun x => (s.owner x).bPurgeable := count_congr fun x _ => by rw [removeFromHash_purgeable]
    rw [h.current, count_insert ha, hcount, UInt32.add_assoc, UInt32.add_comm _ n]
    cases (s.owner a).bPurgeable <;> rfl

/-- A page that is in no table and not on the list is freed. -/
theorem Inv.free (h : Inv s T L (n + (s.owner a).bPurgeable.toUInt32)) (ha : a ∉ T)
    (haL : a ∉ L) : Inv (s.pcache1FreePage a) T L n := by
  constructor
  case sub => exact fun x hx => Finset.mem_erase_of_ne_of_mem (fun heq => ha (heq ▸ hx)) (h.sub hx)
  case tables => refine h.tables.of_eq ?_ ?_ ?_ <;> rfl
  case lru =>
    refine h.lru.of_eq ?_ ?_ ?_ ?_ ?_ ?_ ?_
    case refine_7 =>
      exact fun x hx => Finset.mem_erase_of_ne_of_mem (fun heq => haL (heq ▸ hx)) (h.lru.sub x hx)
    all_goals rfl
  case maxKey => exact h.maxKey
  case current =>
    have hcurrent := h.current
    show (if (s.owner a).bPurgeable then s.nCurrentPage - 1 else s.nCurrentPage)
      = count T (fun x => (s.owner x).bPurgeable) + n
    rw [hcurrent]
    cases (s.owner a).bPurgeable with
    | true =>
      rw [if_pos rfl, ← UInt32.add_assoc]
      exact UInt32.add_sub_cancel _ _
    | false => exact congrArg (count T _ + ·) (UInt32.add_zero n)

/-- A page that is in use is discarded. -/
theorem Inv.discard (h : Inv s T L n) (ha : a ∈ T) (haL : a ∉ L) :
    Inv ((s.pcache1RemoveFromHash a).pcache1FreePage a) (T.erase a) L n := by
  rw [← Finset.insert_erase ha] at h
  have hremove := h.remove (Finset.notMem_erase a T)
  rw [← removeFromHash_purgeable s a a] at hremove
  exact hremove.free (Finset.notMem_erase a T) haL

/-- A page is taken off the list and discarded. -/
theorem Inv.evict (h : Inv s T L n) (ha : a ∈ T) :
    Inv (((s.pcache1PinPage a).pcache1RemoveFromHash a).pcache1FreePage a) (T.erase a)
      (L.filter (· ≠ a)) n :=
  (h.pin (Or.inl ha)).discard ha (by simp)

/-! ### Putting a page into a table -/

theorem addPage_page_self (s : PGroup) (c : ℕ) (k : UInt32) (a : ℕ) :
    (s.addPage c k a).page a = ⟨k, c⟩ := Function.update_self _ _ _

theorem addPage_page_of_ne {x : ℕ} (hne : x ≠ a) (s : PGroup) (c : ℕ) (k : UInt32) :
    (s.addPage c k a).page x = s.page x := Function.update_of_ne hne _ _

/-- The chains with the new page. -/
theorem mem_addPage {k : UInt32} (d h x : ℕ) :
    x ∈ ((s.addPage c k a).cache d).apHash h ↔
      x ∈ (s.cache d).apHash h ∨ x = a ∧ d = c ∧ h = (s.cache c).slot k := by
  rw [PGroup.addPage, setCache_cache]
  split
  · rename_i heq
    subst heq
    show x ∈ Function.update (s.cache d).apHash ((s.cache d).slot k) _ h ↔ _
    rcases eq_or_ne h ((s.cache d).slot k) with rfl | hne
    · rw [Function.update_self, List.mem_cons]
      tauto
    · rw [Function.update_of_ne hne]
      tauto
  · tauto

/-- The tables with the new page. -/
theorem Tables.add {k : UInt32} (h : Tables s T) (hc : c ∈ s.caches) (hpos : 0 < (s.cache c).nHash)
    (ha : a ∉ T) (hk : ∀ x ∈ T, (s.page x).pCache = c → (s.page x).iKey ≠ k) :
    Tables (s.addPage c k a) (insert a T) := by
  have hself := addPage_page_self s c k a
  have hne : ∀ x ∈ T, x ≠ a := fun x hx heq => ha (heq ▸ hx)
  have hpage : ∀ x ∈ T, (s.addPage c k a).page x = s.page x := fun x hx =>
    addPage_page_of_ne (hne x hx) s c k
  have hnHash : ∀ d, ((s.addPage c k a).cache d).nHash = (s.cache d).nHash :=
    fun d => setCache_field PCache1.nHash _ d (fun _ => rfl) rfl
  constructor
  case owner =>
    intro x hx
    rcases Finset.mem_insert.mp hx with rfl | hx
    · rw [hself]
      exact hc
    · rw [hpage x hx]
      exact h.owner x hx
  case pos =>
    intro x hx
    rw [PGroup.owner, hnHash]
    rcases Finset.mem_insert.mp hx with rfl | hx
    · rw [hself]
      exact hpos
    · rw [hpage x hx]
      exact h.pos x hx
  case mem =>
    intro d hd i x
    rw [mem_addPage, h.mem d hd, PCache1.slot, PCache1.slot, PCache1.slot, hnHash, Finset.mem_insert]
    rcases eq_or_ne x a with rfl | hxa
    · rw [hself]
      constructor
      · rintro (⟨hx, -⟩ | ⟨-, rfl, rfl⟩)
        · exact absurd hx ha
        · exact ⟨Or.inl rfl, rfl, rfl⟩
      · rintro ⟨-, rfl, rfl⟩
        exact Or.inr ⟨rfl, rfl, rfl⟩
    · rw [addPage_page_of_ne hxa]
      tauto
  case nodup =>
    intro d hd i
    rw [PGroup.addPage, setCache_cache]
    split
    · dsimp only
      rw [Function.update_apply]
      split
      · exact List.nodup_cons.mpr ⟨fun hin => ha ((h.mem d hd _ a).mp hin).1, h.nodup d hd _⟩
      · exact h.nodup d hd i
    · exact h.nodup d hd i
  case key =>
    intro x hx y hy hcache hkey
    rcases Finset.mem_insert.mp hx with rfl | hxT
    · rcases Finset.mem_insert.mp hy with rfl | hyT
      · rfl
      · rw [hself, hpage y hyT] at hcache hkey
        exact absurd hkey.symm (hk y hyT hcache.symm)
    · rcases Finset.mem_insert.mp hy with rfl | hyT
      · rw [hself, hpage x hxT] at hcache hkey
        exact absurd hkey (hk x hxT hcache)
      · rw [hpage x hxT, hpage y hyT] at hcache hkey
        exact h.key x hxT y hyT hcache hkey
  case nPage =>
    intro d hd
    have hcount : count T (fun x => ((s.addPage c k a).page x).pCache = d)
        = count T fun x => (s.page x).pCache = d := count_congr fun x hx => by rw [hpage x hx]
    rw [count_insert ha, hcount, hself, ← h.nPage d hd, PGroup.addPage, setCache_cache]
    split
    · rename_i heq
      exact congrArg ((s.cache d).nPage + ·) (if_pos heq.symm).symm
    · rename_i hdc
      rw [if_neg fun heq => hdc heq.symm, UInt32.add_zero]

/-- The list, when a page is added that is not on it. -/
theorem Lru.add {k : UInt32} (h : Lru s T L) (ha : a ∉ L) :
    Lru (s.addPage c k a) (insert a T) L := by
  have hne : ∀ x ∈ L, x ≠ a := by
    rintro x hx rfl
    exact ha hx
  have hpage : ∀ x ∈ L, (s.addPage c k a).page x = s.page x := fun x hx =>
    addPage_page_of_ne (hne x hx) s c k
  have hnext : ∀ x, (s.addPage c k a).lru.next x = if x = a then none else s.lru.next x := by
    intro x
    rw [PGroup.addPage, PGroup.setCache, Links.setNext_next, Links.setPrev_next]
    simp only [Option.some.injEq, eq_comm]
  have hprev : ∀ x, (s.addPage c k a).lru.prev x = if x = a then none else s.lru.prev x := by
    intro x
    rw [PGroup.addPage, PGroup.setCache, Links.setNext_prev, Links.setPrev_prev]
    simp only [Option.some.injEq, eq_comm]
  constructor
  case list =>
    refine ⟨h.list.nodup, h.list.first, h.list.seg.congr fun x hx => ?_⟩
    rw [hnext, hprev, if_neg (hne x hx), if_neg (hne x hx)]
    exact ⟨rfl, rfl⟩
  case tail => exact h.tail
  case sub => exact h.sub
  case owner =>
    intro x hx
    rw [hpage x hx]
    exact h.owner x hx
  case clear =>
    intro x hx hxL
    rw [hnext, hprev]
    split
    · exact ⟨rfl, rfl⟩
    · rename_i hne
      exact h.clear x (Finset.mem_of_mem_insert_of_ne hx hne) hxL
  case nRecyclable =>
    intro d hd
    have hcount : count L.toFinset (fun x => ((s.addPage c k a).page x).pCache = d)
        = count L.toFinset fun x => (s.page x).pCache = d :=
      count_congr fun x hx => by rw [hpage x (List.mem_toFinset.mp hx)]
    have hfield : ((s.addPage c k a).cache d).nRecyclable = (s.cache d).nRecyclable :=
      setCache_field PCache1.nRecyclable _ d (fun _ => rfl) rfl
    rw [hcount, hfield]
    exact h.nRecyclable d hd

/-! ### The largest key -/

theorem noteKey_sameTables (s : PGroup) (c : ℕ) (k : UInt32) : SameTables s (s.noteKey c k) := by
  refine sameTables_setCache ?_ ?_ ?_ ?_ _
  · constructor <;> · intro C; split <;> rfl
  all_goals rfl

theorem noteKey_sameLru (s : PGroup) (c : ℕ) (k : UInt32) : SameLru s (s.noteKey c k) := by
  refine ⟨rfl, rfl, rfl, rfl, rfl, fun d => setCache_field PCache1.nRecyclable c d ?_ rfl⟩
  intro C
  split <;> rfl

/-- The bound on the keys only grows, up to the new key. -/
theorem noteKey_iMaxKey (s : PGroup) (c : ℕ) (k : UInt32) (d : ℕ) :
    (s.cache d).iMaxKey ≤ ((s.noteKey c k).cache d).iMaxKey ∧
      (d = c → k ≤ ((s.noteKey c k).cache d).iMaxKey) := by
  rw [PGroup.noteKey, setCache_cache]
  split
  · split
    · rename_i hlt
      exact ⟨UInt32.le_of_lt hlt, fun _ => UInt32.le_refl _⟩
    · rename_i hle
      exact ⟨UInt32.le_refl _, fun _ => UInt32.not_lt.mp hle⟩
  · rename_i hne
    exact ⟨UInt32.le_refl _, fun heq => absurd heq hne⟩

theorem Inv.noteKey (h : Inv s T L n) (c : ℕ) (k : UInt32) : Inv (s.noteKey c k) T L n := by
  have hsame := noteKey_sameTables s c k
  constructor
  case sub => exact h.sub
  case tables => exact hsame.tables h.tables
  case lru => exact (noteKey_sameLru s c k).lists h.lru h.lru.sub
  case maxKey =>
    exact fun x hx => UInt32.le_trans (h.maxKey x hx) (noteKey_iMaxKey s c k _).1
  case current =>
    show s.nCurrentPage = _
    rw [h.current]
    exact congrArg (· + n) (count_congr fun x _ => by rw [hsame.purgeable])

/-- **A page is put into a table**, under a key that is not in it. -/
theorem Inv.add {k : UInt32} (h : Inv s T L (n + (s.cache c).bPurgeable.toUInt32))
    (hc : c ∈ s.caches) (hpos : 0 < (s.cache c).nHash) (hpages : a ∈ s.pages) (ha : a ∉ T)
    (haL : a ∉ L) (hk : ∀ x ∈ T, (s.page x).pCache = c → (s.page x).iKey ≠ k) :
    Inv ((s.addPage c k a).noteKey c k) (insert a T) L n := by
  have hne : ∀ x ∈ T, x ≠ a := fun x hx heq => ha (heq ▸ hx)
  have hpage : ∀ x ∈ T, (s.addPage c k a).page x = s.page x := fun x hx =>
    addPage_page_of_ne (hne x hx) s c k
  have hsame := noteKey_sameTables (s.addPage c k a) c k
  have hmax := noteKey_iMaxKey (s.addPage c k a) c k
  have hadd : ∀ d, ((s.addPage c k a).cache d).iMaxKey = (s.cache d).iMaxKey :=
    fun d => setCache_field PCache1.iMaxKey _ d (fun _ => rfl) rfl
  have hpurgeable : ∀ d, ((s.addPage c k a).cache d).bPurgeable = (s.cache d).bPurgeable :=
    fun d => setCache_field PCache1.bPurgeable _ d (fun _ => rfl) rfl
  constructor
  case sub => exact Finset.insert_subset hpages h.sub
  case tables => exact hsame.tables (h.tables.add hc hpos ha hk)
  case lru => exact (noteKey_sameLru _ c k).lists (h.lru.add haL) h.lru.sub
  case maxKey =>
    intro x hx
    show ((s.addPage c k a).page x).iKey
      ≤ (((s.addPage c k a).noteKey c k).cache ((s.addPage c k a).page x).pCache).iMaxKey
    rcases Finset.mem_insert.mp hx with rfl | hxT
    · rw [addPage_page_self]
      exact (hmax c).2 rfl
    · rw [hpage x hxT]
      refine UInt32.le_trans (h.maxKey x hxT) (UInt32.le_trans ?_ (hmax _).1)
      rw [hadd]
      exact UInt32.le_refl _
  case current =>
    have hcount : count T (fun x => (((s.addPage c k a).noteKey c k).owner x).bPurgeable)
        = count T fun x => (s.owner x).bPurgeable := by
      refine count_congr fun x hx => ?_
      rw [hsame.purgeable, PGroup.owner, PGroup.owner, hpurgeable, hpage x hx]
    have hself : (((s.addPage c k a).noteKey c k).owner a).bPurgeable
        = (s.cache c).bPurgeable := by
      rw [hsame.purgeable, PGroup.owner, hpurgeable, addPage_page_self]
    show s.nCurrentPage = _
    rw [h.current, count_insert ha, hcount, hself, UInt32.add_assoc, UInt32.add_comm n]
    cases (s.cache c).bPurgeable <;> rfl

/-! ### Unpinning -/

/-- The LRU list with one more page at its front, which had no pointers. -/
theorem Lru.push_list (h : Lru s T L) (ha : a ∈ T) (haL : a ∉ L) :
    (s.pushLru a).lru.IsList (s.pushLru a).pLruHead (a :: L) ∧
      (s.pushLru a).pLruTail = (a :: L).getLast? := by
  obtain ⟨hnext, hprev⟩ := h.clear a ha haL
  have hinsert := Links.Seg.insert (A := []) h.list.seg h.list.nodup haL
  have hnodup : (a :: L).Nodup := List.nodup_cons.mpr ⟨haL, h.list.nodup⟩
  unfold PGroup.pushLru
  split
  · rename_i b hhead
    rw [h.list.first] at hhead
    have hbL := List.mem_of_mem_head? hhead
    refine ⟨⟨hnodup, rfl, hinsert.congr fun x hx => ?_⟩, ?_⟩
    · rw [Links.setNext_next, Links.setPrev_next, Links.setNext_prev, Links.setPrev_prev,
        Links.insert_next, Links.insert_prev, hhead]
      refine ⟨?_, ?_⟩
      · rcases eq_or_ne x a with rfl | hne
        · rw [if_pos rfl, if_pos rfl]
          rfl
        · rw [if_neg fun heq => hne (Option.some.inj heq).symm, if_neg hne]
          rfl
      · rcases eq_or_ne x a with rfl | hne
        · have hbx : some b ≠ some x := fun heq => haL (Option.some.inj heq ▸ hbL)
          rw [if_neg hbx, if_neg hbx, if_pos rfl, hprev]
          rfl
        · rw [if_neg hne]
    · obtain ⟨L', rfl⟩ := List.head?_eq_some_iff.mp hhead
      rw [h.tail, List.getLast?_cons_cons]
  · rename_i hhead
    rw [h.list.first, List.head?_eq_none_iff] at hhead
    subst hhead
    refine ⟨⟨hnodup, rfl, ?_⟩, rfl⟩
    exact ⟨hprev, hnext, trivial⟩

theorem pushLru_cache (s : PGroup) (a : ℕ) : (s.pushLru a).cache = s.cache := by
  unfold PGroup.pushLru
  split <;> rfl

theorem pushLru_page (s : PGroup) (a : ℕ) : (s.pushLru a).page = s.page := by
  unfold PGroup.pushLru
  split <;> rfl

theorem pushLru_caches (s : PGroup) (a : ℕ) : (s.pushLru a).caches = s.caches := by
  unfold PGroup.pushLru
  split <;> rfl

theorem pushLru_pages (s : PGroup) (a : ℕ) : (s.pushLru a).pages = s.pages := by
  unfold PGroup.pushLru
  split <;> rfl

theorem pushLru_nCurrentPage (s : PGroup) (a : ℕ) :
    (s.pushLru a).nCurrentPage = s.nCurrentPage := by
  unfold PGroup.pushLru
  split <;> rfl

/-- The pointers of other pages that are not on the list stay as they are. -/
theorem pushLru_clear (h : Lru s T L) {x : ℕ} (hx : x ∈ T) (hxa : x ≠ a) (hxL : x ∉ L) :
    (s.pushLru a).lru.next x = none ∧ (s.pushLru a).lru.prev x = none := by
  obtain ⟨hnext, hprev⟩ := h.clear x hx hxL
  unfold PGroup.pushLru
  split
  · rename_i b hhead
    rw [h.list.first] at hhead
    have hbx : some b ≠ some x := fun heq =>
      hxL (Option.some.inj heq ▸ List.mem_of_mem_head? hhead)
    rw [Links.setNext_next, Links.setPrev_next, Links.setNext_prev, Links.setPrev_prev,
      if_neg hbx, if_neg fun heq => hxa (Option.some.inj heq).symm]
    exact ⟨hnext, hprev⟩
  · exact ⟨hnext, hprev⟩

/-- **A page is unpinned.** -/
theorem Inv.push (h : Inv s T L n) (ha : a ∈ T) (haL : a ∉ L) (hc : (s.page a).pCache = c) :
    Inv ((s.pushLru a).setCache c fun C => { C with nRecyclable := C.nRecyclable + 1 }) T
      (a :: L) n := by
  obtain ⟨hlist, htail⟩ := h.lru.push_list ha haL
  have hsame : SameTables s
      ((s.pushLru a).setCache c fun C => { C with nRecyclable := C.nRecyclable + 1 }) := by
    refine sameTables_setCache ?_ (pushLru_page s a) (pushLru_caches s a) (pushLru_cache s a) c
    exact ⟨fun _ => rfl, fun _ => rfl, fun _ => rfl, fun _ => rfl⟩
  have hmax : ∀ d, (((s.pushLru a).setCache c fun C =>
      { C with nRecyclable := C.nRecyclable + 1 }).cache d).iMaxKey = (s.cache d).iMaxKey :=
    fun d => setCache_field PCache1.iMaxKey c d (fun _ => rfl) (pushLru_cache s a)
  constructor
  case sub =>
    show T ⊆ (s.pushLru a).pages
    rw [pushLru_pages]
    exact h.sub
  case tables => exact hsame.tables h.tables
  case lru =>
    constructor
    case list => exact hlist
    case tail => exact htail
    case sub =>
      show ∀ x ∈ a :: L, x ∈ (s.pushLru a).pages
      rw [pushLru_pages]
      exact List.forall_mem_cons.mpr ⟨h.sub ha, h.lru.sub⟩
    case owner =>
      rw [hsame.page, hsame.caches]
      exact List.forall_mem_cons.mpr ⟨h.tables.owner a ha, h.lru.owner⟩
    case clear =>
      intro x hx hxL
      rw [List.mem_cons, not_or] at hxL
      exact pushLru_clear h.lru hx hxL.1 hxL.2
    case nRecyclable =>
      intro d hd
      rw [hsame.caches] at hd
      rw [hsame.page, List.toFinset_cons, count_insert (by rwa [List.mem_toFinset]),
        ← h.lru.nRecyclable d hd, setCache_cache, pushLru_cache, hc]
      split
      · rename_i heq
        exact congrArg ((s.cache d).nRecyclable + ·) (if_pos heq.symm).symm
      · rename_i hne
        rw [if_neg fun heq => hne heq.symm, UInt32.add_zero]
  case maxKey =>
    intro x hx
    rw [PGroup.owner, hmax, hsame.page]
    exact h.maxKey x hx
  case current =>
    show (s.pushLru a).nCurrentPage = _
    rw [pushLru_nCurrentPage, h.current]
    exact congrArg (· + n) (count_congr fun x _ => by rw [hsame.purgeable])

end Pcache1

end SqliteVms

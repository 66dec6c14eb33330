import SqliteVms.Pcache.Evict

/-!
# Fetching a page

`pcache1Fetch` gives the page with the key if there is one. If there is none it may take the last page
of the LRU list, which may be of another cache of the group, or a new one; before that, it may make
the hash table larger.

## Main definitions

* `Fetched` — a page has come into use

## Main results

* `resizeHash_spec` — `pcache1ResizeHash`
* `fetch_spec` — `pcache1Fetch`
-/

namespace SqliteVms

namespace Pcache1

variable {s s' s'' : PGroup} {T : Finset ℕ} {L L' L'' : List ℕ} {n : UInt32} {a c : ℕ} {k : UInt32}

/-! ### A larger hash table -/

theorem mem_rehashPage {nNew : ℕ} {apNew : ℕ → List ℕ} {i x : ℕ} :
    x ∈ s.rehashPage nNew apNew a i ↔
      x ∈ apNew i ∨ x = a ∧ (s.page a).iKey.toNat % nNew = i := by
  rw [PGroup.rehashPage, Function.update_apply]
  split
  · rename_i heq
    rw [List.mem_cons, heq]
    tauto
  · rename_i hne
    exact ⟨Or.inl, fun hx => hx.resolve_right fun h => hne h.2.symm⟩

/-- The chains that the loop of `pcache1ResizeHash` makes from the pages of `X`. -/
theorem rehash_spec {nNew : ℕ} {X : List ℕ} {apNew : ℕ → List ℕ} (hX : X.Nodup)
    (hnodup : ∀ i, (apNew i).Nodup) (hdisj : ∀ i, ∀ x ∈ X, x ∉ apNew i) (i : ℕ) :
    (X.foldl (s.rehashPage nNew) apNew i).Nodup ∧
      ∀ x, x ∈ X.foldl (s.rehashPage nNew) apNew i ↔
        x ∈ apNew i ∨ x ∈ X ∧ (s.page x).iKey.toNat % nNew = i := by
  induction X generalizing apNew with
  | nil => exact ⟨hnodup i, fun x => by simp⟩
  | cons a X ih =>
    obtain ⟨haX, hX⟩ := List.nodup_cons.mp hX
    have hnodup₁ : ∀ j, (s.rehashPage nNew apNew a j).Nodup := by
      intro j
      rw [PGroup.rehashPage, Function.update_apply]
      split
      · exact List.nodup_cons.mpr ⟨hdisj _ a List.mem_cons_self, hnodup _⟩
      · exact hnodup j
    have hdisj₁ : ∀ j, ∀ x ∈ X, x ∉ s.rehashPage nNew apNew a j := by
      intro j x hx hin
      rcases mem_rehashPage.mp hin with hin | ⟨rfl, -⟩
      · exact hdisj j x (List.mem_cons_of_mem a hx) hin
      · exact haX hx
    obtain ⟨hnd, hmem⟩ := ih hX hnodup₁ hdisj₁
    refine ⟨hnd, fun x => ?_⟩
    rw [List.foldl_cons, hmem, mem_rehashPage, List.mem_cons]
    constructor
    · rintro ((hin | ⟨rfl, hi⟩) | ⟨hx, hi⟩)
      · exact Or.inl hin
      · exact Or.inr ⟨Or.inl rfl, hi⟩
      · exact Or.inr ⟨Or.inr hx, hi⟩
    · rintro (hin | ⟨rfl | hx, hi⟩)
      · exact Or.inl (Or.inl hin)
      · exact Or.inl (Or.inr ⟨rfl, hi⟩)
      · exact Or.inr ⟨hx, hi⟩

/-- The hash table of a cache is replaced by one with the same pages. -/
theorem Inv.setTable {nNew : ℕ} {apNew : ℕ → List ℕ} (h : Inv s T L n) (hnNew : 0 < nNew)
    (hnodup : ∀ i, (apNew i).Nodup)
    (hmem : ∀ i x, x ∈ apNew i ↔ x ∈ (s.cache c).table ∧ (s.page x).iKey.toNat % nNew = i)
    (hc : c ∈ s.caches) :
    Inv (s.setCache c fun C => { C with apHash := apNew, nHash := nNew }) T L n := by
  have hpurgeable : ∀ x, ((s.setCache c fun C =>
      { C with apHash := apNew, nHash := nNew }).owner x).bPurgeable = (s.owner x).bPurgeable :=
    fun x => setCache_field PCache1.bPurgeable c _ (fun _ => rfl) rfl
  constructor
  case sub => exact h.sub
  case tables =>
    constructor
    case owner => exact h.tables.owner
    case pos =>
      intro x hx
      rw [PGroup.owner, setCache_cache]
      split
      · exact hnNew
      · exact h.tables.pos x hx
    case mem =>
      intro d hd i x
      rw [setCache_cache]
      split
      · rename_i heq
        subst heq
        rw [hmem, h.tables.mem_table hd, and_assoc]
        rfl
      · exact h.tables.mem d hd i x
    case nodup =>
      intro d hd i
      rw [setCache_cache]
      split
      · exact hnodup i
      · exact h.tables.nodup d hd i
    case key => exact h.tables.key
    case nPage =>
      intro d hd
      have hfield : ((s.setCache c fun C => { C with apHash := apNew, nHash := nNew }).cache
          d).nPage = (s.cache d).nPage := setCache_field PCache1.nPage c d (fun _ => rfl) rfl
      rw [hfield]
      exact h.tables.nPage d hd
  case lru =>
    have hsame : SameLru s (s.setCache c fun C => { C with apHash := apNew, nHash := nNew }) :=
      ⟨rfl, rfl, rfl, rfl, rfl, fun d => setCache_field PCache1.nRecyclable c d (fun _ => rfl) rfl⟩
    exact hsame.lists h.lru h.lru.sub
  case maxKey =>
    intro x hx
    have hfield : ((s.setCache c fun C => { C with apHash := apNew, nHash := nNew }).owner
        x).iMaxKey = (s.owner x).iMaxKey := setCache_field PCache1.iMaxKey c _ (fun _ => rfl) rfl
    rw [hfield]
    exact h.maxKey x hx
  case current =>
    show s.nCurrentPage = _
    rw [h.current]
    exact congrArg (· + n) (count_congr fun x _ => by rw [hpurgeable])

/-- What `pcache1ResizeHash` leaves as it is. -/
structure SamePages (s s' : PGroup) : Prop where
  page : s'.page = s.page
  pages : s'.pages = s.pages
  caches : s'.caches = s.caches

/-- **`pcache1ResizeHash`** keeps the pages of the table; if it reports success, there is a table. -/
theorem resizeHash_spec (h : Inv s s.pages L 0) (hc : c ∈ s.caches) (malloc : Bool) :
    Inv (s.pcache1ResizeHash c malloc).2 s.pages L 0 ∧
      SamePages s (s.pcache1ResizeHash c malloc).2 ∧
      ((s.pcache1ResizeHash c malloc).1 = true →
        0 < ((s.pcache1ResizeHash c malloc).2.cache c).nHash) := by
  rw [PGroup.pcache1ResizeHash]
  cases malloc with
  | false => exact ⟨h, ⟨rfl, rfl, rfl⟩, fun hpos => of_decide_eq_true hpos⟩
  | true =>
    dsimp only
    rw [if_pos rfl, ← List.foldl_flatMap]
    have hpos : 0 < if (s.cache c).nHash * 2 < 256 then 256 else (s.cache c).nHash * 2 := by
      split <;> omega
    generalize (if (s.cache c).nHash * 2 < 256 then 256 else (s.cache c).nHash * 2) = nNew at hpos ⊢
    have hspec : ∀ i, ((s.cache c).table.foldl (s.rehashPage nNew) (fun _ => []) i).Nodup ∧
        ∀ x, x ∈ (s.cache c).table.foldl (s.rehashPage nNew) (fun _ => []) i ↔
          x ∈ [] ∨ x ∈ (s.cache c).table ∧ (s.page x).iKey.toNat % nNew = i :=
      rehash_spec (h.tables.nodup_table hc) (fun _ => List.nodup_nil) fun _ _ _ => List.not_mem_nil
    refine ⟨h.setTable hpos (fun i => (hspec i).1) (fun i x => ?_) hc, ⟨rfl, rfl, rfl⟩, fun _ => ?_⟩
    · refine ((hspec i).2 x).trans ?_
      simp
    · rw [setCache_cache, if_pos rfl]
      exact hpos

/-! ### Fetching -/

/-- A page is in use that was not, or was all along, and has the key. Of the others, some that are not
in use may be gone. -/
structure Fetched (s : PGroup) (L : List ℕ) (c : ℕ) (k : UInt32) (a : ℕ) (s' : PGroup)
    (L' : List ℕ) : Prop where
  key : s'.page a = ⟨k, c⟩
  page : ∀ x, x ≠ a → s'.page x = s.page x
  caches : s'.caches = s.caches
  mem : a ∈ s'.pages
  pinned : a ∉ L'
  pages : ∀ x ∈ s'.pages, x ≠ a → x ∈ s.pages
  lru : L' ⊆ L
  keeps : ∀ x ∈ s.pages, x ∉ L → x ∈ s'.pages
  stays : ∀ x ∈ s'.pages, x ≠ a → x ∈ L → x ∈ L'

theorem Evicts.fetched (h : Evicts s L s' L') (h' : Fetched s' L' c k a s'' L'') :
    Fetched s L c k a s'' L'' where
  key := h'.key
  page := fun x hx => by rw [h'.page x hx, h.page]
  caches := h'.caches.trans h.caches
  mem := h'.mem
  pinned := h'.pinned
  pages := fun x hx hne => h.pages (h'.pages x hx hne)
  lru := List.Subset.trans h'.lru h.lru
  keeps := fun x hx hL => h'.keeps x (h.keeps x hx hL) fun hin => hL (h.lru hin)
  stays := fun x hx hne hL => h'.stays x hx hne (h.stays x (h'.pages x hx hne) hL)

theorem SamePages.evicts (h : SamePages s s') (L : List ℕ) : Evicts s L s' L where
  page := h.page
  caches := h.caches
  pages := h.pages.le
  lru := List.Subset.refl L
  keeps := fun _ ha _ => h.pages ▸ ha
  stays := fun _ _ hL => hL

/-- The step from `nCurrentPage` of one cache to that of another. -/
theorem sub_purgeable (m : UInt32) (b b' : Bool) :
    m + (0 + b.toUInt32) - (b.toUInt32 - b'.toUInt32) = m + (0 + b'.toUInt32) := by
  cases b <;> cases b' <;> simp [Bool.toUInt32]

/-- The page that is in no table goes from one cache to another. -/
theorem Inv.setCurrent {b : Bool} (h : Inv s T L (0 + b.toUInt32)) (b' : Bool) :
    Inv { s with nCurrentPage := s.nCurrentPage - (b.toUInt32 - b'.toUInt32) } T L
      (0 + b'.toUInt32) := by
  constructor
  case sub => exact h.sub
  case tables => refine h.tables.of_eq ?_ ?_ ?_ <;> rfl
  case lru => refine h.lru.of_eq ?_ ?_ ?_ ?_ ?_ ?_ h.lru.sub <;> rfl
  case maxKey => exact h.maxKey
  case current =>
    show s.nCurrentPage - (b.toUInt32 - b'.toUInt32) = _
    rw [h.current]
    exact sub_purgeable _ b b'

theorem recycle_spec (h : Inv s s.pages L 0) (pressure : Bool) :
    (s.recycle c pressure).1 = none ∧
        (∃ L', Inv (s.recycle c pressure).2 (s.recycle c pressure).2.pages L' 0 ∧
          Evicts s L (s.recycle c pressure).2 L') ∨
      ∃ a ∈ L, (s.recycle c pressure).1 = some a ∧ SamePages s (s.recycle c pressure).2 ∧
        Inv (s.recycle c pressure).2 (s.pages.erase a) (L.filter (· ≠ a))
          (0 + ((s.recycle c pressure).2.cache c).bPurgeable.toUInt32) := by
  rw [PGroup.recycle]
  cases htail : s.pLruTail with
  | none => exact Or.inl ⟨rfl, L, h, Evicts.refl s L⟩
  | some a =>
    have haL : a ∈ L := by
      rw [h.lru.tail] at htail
      exact List.mem_of_getLast? htail
    have ha := h.lru.sub a haL
    dsimp only
    split
    · split
      · have hevict := h.evict ha
        have hpages : (((s.pcache1PinPage a).pcache1RemoveFromHash a).pcache1FreePage a).pages
            = s.pages.erase a := congrArg (Finset.erase · a) (pinPage_pages s a)
        rw [← hpages] at hevict
        rw [pinPage_removeFromHash]
        exact Or.inl ⟨rfl, _, hevict, evicts_last s L haL⟩
      · have hremove := h
        rw [← Finset.insert_erase ha] at hremove
        have hpin := (hremove.remove (Finset.notMem_erase a _)).pin (Or.inr haL)
        have hsame := pinPage_sameTables (s.pcache1RemoveFromHash a) a
        have howner : (s.owner a).bPurgeable
            = (((s.pcache1RemoveFromHash a).pcache1PinPage a).owner a).bPurgeable :=
          ((hsame.purgeable a).trans (removeFromHash_purgeable s a a)).symm
        have hcache : (((s.pcache1RemoveFromHash a).pcache1PinPage a).cache c).bPurgeable
            = (s.cache c).bPurgeable :=
          (hsame.bPurgeable c).trans (setCache_field PCache1.bPurgeable _ c (fun _ => rfl) rfl)
        rw [howner] at hpin
        have hcurrent := hpin.setCurrent (s.cache c).bPurgeable
        refine Or.inr ⟨a, haL, rfl, ⟨hsame.page, pinPage_pages _ a, hsame.caches⟩, ?_⟩
        show Inv _ _ _ (0 + (((s.pcache1RemoveFromHash a).pcache1PinPage a).cache
          c).bPurgeable.toUInt32)
        rw [hcache]
        exact hcurrent
    · exact Or.inl ⟨rfl, L, h, Evicts.refl s L⟩

theorem allocPage_spec (h : Inv s s.pages L 0) (malloc : Option ℕ) :
    s.pcache1AllocPage c malloc = (none, s) ∨
      ∃ a s', s.pcache1AllocPage c malloc = (some a, s') ∧ a ∉ s.pages ∧
        s'.pages = insert a s.pages ∧ s'.page = s.page ∧ s'.caches = s.caches ∧
        s'.cache = s.cache ∧ Inv s' s.pages L (0 + (s'.cache c).bPurgeable.toUInt32) := by
  rw [PGroup.pcache1AllocPage]
  cases hmalloc : malloc.filter (· ∉ s.pages) with
  | none => exact Or.inl rfl
  | some a =>
    have ha := of_decide_eq_true (Option.filter_eq_some_iff.mp hmalloc).2
    refine Or.inr ⟨a, _, rfl, ha, rfl, rfl, rfl, rfl, ?_⟩
    constructor
    case sub => exact Finset.subset_insert a s.pages
    case tables => refine h.tables.of_eq ?_ ?_ ?_ <;> rfl
    case lru =>
      refine h.lru.of_eq ?_ ?_ ?_ ?_ ?_ ?_ ?_
      case refine_7 => exact fun x hx => Finset.mem_insert_of_mem (h.lru.sub x hx)
      all_goals rfl
    case maxKey => exact h.maxKey
    case current =>
      have hcurrent := h.current
      rw [UInt32.add_zero] at hcurrent
      show (if (s.cache c).bPurgeable then s.nCurrentPage + 1 else s.nCurrentPage)
        = count s.pages (fun x => (s.owner x).bPurgeable) + (0 + (s.cache c).bPurgeable.toUInt32)
      rw [← hcurrent]
      cases (s.cache c).bPurgeable <;> simp [Bool.toUInt32]

theorem recycle_nHash (s : PGroup) (c : ℕ) (pressure : Bool) (d : ℕ) :
    ((s.recycle c pressure).2.cache d).nHash = (s.cache d).nHash := by
  have hpin : ∀ a, (((s.pcache1RemoveFromHash a).pcache1PinPage a).cache d).nHash
      = (s.cache d).nHash := fun a =>
    ((pinPage_sameTables _ a).nHash d).trans (removeFromHash_nHash s a d)
  rw [PGroup.recycle]
  split
  · rfl
  · split
    · dsimp only
      split
      · exact hpin _
      · exact hpin _
    · rfl

/-- Steps 4 and 5 of `pcache1Fetch`. -/
theorem fetchNew_spec (h : Inv s s.pages L 0) (hc : c ∈ s.caches) (hpos : 0 < (s.cache c).nHash)
    (hk : ∀ x ∈ s.pages, (s.page x).pCache = c → (s.page x).iKey ≠ k) (memory : PGroup.Memory) :
    (s.fetchNew c k memory).1 = none ∧
        (∃ L', Inv (s.fetchNew c k memory).2 (s.fetchNew c k memory).2.pages L' 0 ∧
          Evicts s L (s.fetchNew c k memory).2 L') ∨
      ∃ a L', (s.fetchNew c k memory).1 = some a ∧ (a ∈ L ∨ a ∉ s.pages) ∧
        Inv (s.fetchNew c k memory).2 (s.fetchNew c k memory).2.pages L' 0 ∧
        Fetched s L c k a (s.fetchNew c k memory).2 L' := by
  have hnHash := recycle_nHash s c memory.pressure' c
  rcases hrecycle : s.recycle c memory.pressure' with ⟨pPage, s₁⟩
  have hspec := recycle_spec (c := c) h memory.pressure'
  rw [hrecycle] at hspec hnHash
  rw [PGroup.fetchNew, hrecycle]
  rcases hspec with ⟨hnone, L₁, hinv₁, hev₁⟩ | ⟨a, haL, hsome, hsame, hinv₁⟩
  · obtain rfl : pPage = none := hnone
    dsimp only
    rcases allocPage_spec (c := c) hinv₁ memory.page with
      halloc | ⟨a, s₂, halloc, ha, hpages, hpage, hcaches, hcache, hinv₂⟩
    · rw [halloc]
      exact Or.inl ⟨rfl, L₁, hinv₁, hev₁⟩
    · rw [halloc]
      have haL₁ : a ∉ L₁ := fun hin => ha (hinv₁.lru.sub a hin)
      have hpos₂ : 0 < (s₂.cache c).nHash := by
        rw [hcache, hnHash]
        exact hpos
      have hk₂ : ∀ x ∈ s₁.pages, (s₂.page x).pCache = c → (s₂.page x).iKey ≠ k := by
        intro x hx
        rw [hpage, hev₁.page]
        exact hk x (hev₁.pages hx)
      have hadd := hinv₂.add (hcaches ▸ hev₁.caches ▸ hc) hpos₂
        (hpages ▸ Finset.mem_insert_self a _) ha haL₁ hk₂
      have hfetched : Fetched s₁ L₁ c k a ((s₂.addPage c k a).noteKey c k) L₁ := by
        constructor
        case key => exact addPage_page_self s₂ c k a
        case page =>
          intro x hne
          rw [← hpage]
          exact addPage_page_of_ne hne s₂ c k
        case caches => exact hcaches
        case mem => exact hpages ▸ Finset.mem_insert_self a _
        case pinned => exact haL₁
        case pages => exact fun x hx hne => Finset.mem_of_mem_insert_of_ne (hpages ▸ hx) hne
        case lru => exact List.Subset.refl L₁
        case keeps => exact fun x hx _ => hpages ▸ Finset.mem_insert_of_mem hx
        case stays => exact fun _ _ _ hL => hL
      rw [← hpages] at hadd
      refine Or.inr ⟨a, L₁, rfl, ?_, hadd, hev₁.fetched hfetched⟩
      by_contra hcon
      rw [not_or, not_not] at hcon
      exact ha (hev₁.keeps a hcon.2 hcon.1)
  · obtain rfl : pPage = some a := hsome
    have ha := h.lru.sub a haL
    have hadd := hinv₁.add (hsame.caches ▸ hc) (hnHash ▸ hpos) (hsame.pages ▸ ha)
      (Finset.notMem_erase a _) (by simp) fun x hx => by
        rw [hsame.page]
        exact hk x (Finset.mem_of_mem_erase hx)
    rw [Finset.insert_erase ha, ← hsame.pages] at hadd
    refine Or.inr ⟨a, _, rfl, Or.inl haL, hadd, ?_⟩
    constructor
    case key => exact addPage_page_self s₁ c k a
    case page =>
      intro x hne
      rw [← hsame.page]
      exact addPage_page_of_ne hne s₁ c k
    case caches => exact hsame.caches
    case mem => exact hsame.pages ▸ ha
    case pinned => simp
    case pages => exact fun x hx _ => hsame.pages ▸ hx
    case lru => exact List.filter_subset_self _
    case keeps => exact fun x hx _ => hsame.pages ▸ hx
    case stays => exact fun x _ hne hL => List.mem_filter.mpr ⟨hL, by simpa using hne⟩

/-- **`pcache1Fetch`** finds the page with the key if there is one. If not, the page it gives, if it
gives one, is not in use. -/
theorem fetch_spec (h : Inv s s.pages L 0) (hc : c ∈ s.caches) (k : UInt32) (createFlag : ℕ)
    (memory : PGroup.Memory) {r : Option ℕ} (hr : s.pcache1Fetch c k createFlag memory = (r, s')) :
    (r = none ∧ s.find c k = none ∧ ∃ L', Inv s' s'.pages L' 0 ∧ Evicts s L s' L') ∨
      ∃ a L', r = some a ∧ Inv s' s'.pages L' 0 ∧ Fetched s L c k a s' L' ∧
        (s.find c k = some a ∨ s.find c k = none ∧ (a ∈ L ∨ a ∉ s.pages)) := by
  rw [PGroup.pcache1Fetch] at hr
  cases hfind : s.find c k with
  | some a =>
    rw [hfind] at hr
    obtain ⟨rfl, rfl⟩ := Prod.mk.inj hr
    obtain ⟨ha, hcache, hkey⟩ := (find_eq_some_iff h.tables hc).mp hfind
    have hsame := pinPage_sameTables s a
    have hpages : ((s.pcache1PinPage a).noteKey c k).pages = s.pages := pinPage_pages s a
    have hinv := (h.pin (Or.inl ha)).noteKey c k
    rw [← hpages] at hinv
    refine Or.inr ⟨a, _, rfl, hinv, ?_, Or.inl rfl⟩
    constructor
    case key =>
      show (s.pcache1PinPage a).page a = ⟨k, c⟩
      rw [hsame.page, ← hcache, ← hkey]
    case page => exact fun x _ => congrFun hsame.page x
    case caches => exact hsame.caches
    case mem => exact hpages ▸ ha
    case pinned => simp
    case pages => exact fun x hx _ => hpages ▸ hx
    case lru => exact List.filter_subset_self _
    case keeps => exact fun x hx _ => hpages ▸ hx
    case stays => exact fun x _ hne hL => List.mem_filter.mpr ⟨hL, by simpa using hne⟩
  | none =>
    have hk := (find_eq_none_iff h.tables hc).mp hfind
    rw [hfind] at hr
    have hstay : Inv s s.pages L 0 ∧ Evicts s L s L := ⟨h, Evicts.refl s L⟩
    -- steps 4 and 5, from a group with a hash table for the cache
    have hnew : ∀ s₁, Inv s₁ s₁.pages L 0 → SamePages s s₁ → 0 < (s₁.cache c).nHash →
        s₁.fetchNew c k memory = (r, s') →
        (r = none ∧ ∃ L', Inv s' s'.pages L' 0 ∧ Evicts s L s' L') ∨
          ∃ a L', r = some a ∧ Inv s' s'.pages L' 0 ∧ Fetched s L c k a s' L' ∧
            (a ∈ L ∨ a ∉ s.pages) := by
      intro s₁ hinv₁ hsame₁ hpos₁ heq
      have hk₁ : ∀ x ∈ s₁.pages, (s₁.page x).pCache = c → (s₁.page x).iKey ≠ k := by
        rw [hsame₁.page, hsame₁.pages]
        exact hk
      have hnew := fetchNew_spec hinv₁ (hsame₁.caches ▸ hc) hpos₁ hk₁ memory
      rw [heq] at hnew
      rcases hnew with ⟨hnone, L', hinv, hev⟩ | ⟨a, L', hsome, hfree, hinv, hfetched⟩
      · exact Or.inl ⟨hnone, L', hinv, (hsame₁.evicts L).trans hev⟩
      · rw [hsame₁.pages] at hfree
        exact Or.inr ⟨a, L', hsome, hinv, (hsame₁.evicts L).fetched hfetched, hfree⟩
    have hresult : (r = none ∧ ∃ L', Inv s' s'.pages L' 0 ∧ Evicts s L s' L') ∨
        ∃ a L', r = some a ∧ Inv s' s'.pages L' 0 ∧ Fetched s L c k a s' L' ∧
          (a ∈ L ∨ a ∉ s.pages) := by
      dsimp only at hr
      split at hr
      · obtain ⟨rfl, rfl⟩ := Prod.mk.inj hr
        exact Or.inl ⟨rfl, L, hstay⟩
      split at hr
      · obtain ⟨rfl, rfl⟩ := Prod.mk.inj hr
        exact Or.inl ⟨rfl, L, hstay⟩
      split at hr
      · obtain ⟨hinv₁, hsame₁, hpos₁⟩ := resizeHash_spec h hc memory.hash
        rcases hresize : s.pcache1ResizeHash c memory.hash with ⟨ok, s₁⟩
        rw [hresize] at hr hinv₁ hsame₁ hpos₁
        rw [← hsame₁.pages] at hinv₁
        cases ok with
        | false =>
          obtain ⟨rfl, rfl⟩ := Prod.mk.inj hr
          exact Or.inl ⟨rfl, L, hinv₁, hsame₁.evicts L⟩
        | true => exact hnew s₁ hinv₁ hsame₁ (hpos₁ rfl) hr
      · exact hnew s h ⟨rfl, rfl, rfl⟩ (by omega) hr
    rcases hresult with ⟨hnone, hev⟩ | ⟨a, L', hsome, hinv, hfetched, hfree⟩
    · exact Or.inl ⟨hnone, rfl, hev⟩
    · exact Or.inr ⟨a, L', hsome, hinv, hfetched, Or.inr ⟨rfl, hfree⟩⟩

end Pcache1

end SqliteVms

import SqliteVms.Pcache.Fetch

/-!
# The other methods of the page cache

What is left of `sqlite3_pcache_methods2`: each of them keeps the invariant, and does to the pages what
its name says.

## Main results

* `create_spec`, `cachesize_spec`, `shrink_spec`, `destroy_spec` — about a cache
* `unpin_spec`, `rekey_spec`, `truncate_spec` — about the pages of a cache
-/

namespace SqliteVms

namespace Pcache1

variable {s s' : PGroup} {T : Finset ℕ} {L L' : List ℕ} {n : UInt32} {a c : ℕ} {k : UInt32}

/-! ### Pages -/

/-- **`pcache1Unpin`**: the page is on the LRU list, or is gone. -/
theorem unpin_spec (h : Inv s s.pages L 0) (ha : a ∈ s.pages) (haL : a ∉ L)
    (hc : (s.page a).pCache = c) (reuseUnlikely : Bool) :
    ∃ L', Inv (s.pcache1Unpin c a reuseUnlikely) (s.pcache1Unpin c a reuseUnlikely).pages L' 0 ∧
      (s.pcache1Unpin c a reuseUnlikely).page = s.page ∧
      (s.pcache1Unpin c a reuseUnlikely).caches = s.caches ∧
      ((s.pcache1Unpin c a reuseUnlikely).pages = s.pages.erase a ∧ L' = L ∨
        (s.pcache1Unpin c a reuseUnlikely).pages = s.pages ∧ L' = a :: L) := by
  rw [PGroup.pcache1Unpin]
  split
  · exact ⟨L, h.discard ha haL, rfl, rfl, Or.inl ⟨rfl, rfl⟩⟩
  · have hpages := pushLru_pages s a
    have hpush := h.push ha haL hc
    rw [← hpages] at hpush
    exact ⟨a :: L, hpush, pushLru_page s a, pushLru_caches s a, Or.inr ⟨hpages, rfl⟩⟩

/-- A cache after `pcache1Rekey`. -/
theorem rekey_cache (s : PGroup) (c a : ℕ) (kOld k : UInt32) (d : ℕ) :
    (s.pcache1Rekey c a kOld k).cache d =
      if d = c then
        let ap := Function.update (s.cache d).apHash ((s.cache d).slot kOld)
          (((s.cache d).apHash ((s.cache d).slot kOld)).erase a)
        { s.cache d with
          apHash := Function.update ap ((s.cache d).slot k) (a :: ap ((s.cache d).slot k))
          iMaxKey := if (s.cache d).iMaxKey < k then k else (s.cache d).iMaxKey }
      else s.cache d := by
  rw [PGroup.pcache1Rekey, setCache_cache]
  split
  · rename_i heq
    subst heq
    show (_ : PCache1) = _
    dsimp only
    rw [setCache_cache, if_pos rfl]
    rfl
  · rename_i hne
    dsimp only
    rw [setCache_cache, if_neg hne]

/-- The chains that `pcache1Rekey` has taken the page out of. -/
theorem rekey_erased {kOld : UInt32} (h : Tables s T) (hold : (s.page a).iKey = kOld)
    (hc : c ∈ s.caches) (i : ℕ) :
    (Function.update (s.cache c).apHash ((s.cache c).slot kOld)
        (((s.cache c).apHash ((s.cache c).slot kOld)).erase a) i).Nodup ∧
      ∀ x, x ∈ Function.update (s.cache c).apHash ((s.cache c).slot kOld)
        (((s.cache c).apHash ((s.cache c).slot kOld)).erase a) i ↔
          x ∈ (s.cache c).apHash i ∧ x ≠ a := by
  have hnodup := h.nodup c hc
  rw [Function.update_apply]
  split
  · rename_i heq
    subst heq
    refine ⟨(hnodup _).erase a, fun x => ?_⟩
    rw [(hnodup _).mem_erase_iff, and_comm]
  · rename_i hne
    refine ⟨hnodup i, fun x => ⟨fun hx => ⟨hx, ?_⟩, And.left⟩⟩
    rintro rfl
    refine hne (((h.mem c hc i x).mp hx).2.2.symm.trans ?_)
    rw [hold]

/-- The chains after `pcache1Rekey`. -/
theorem rekey_chain {kOld : UInt32} (h : Tables s T) (hold : (s.page a).iKey = kOld)
    (hcache : (s.page a).pCache = c) {d : ℕ} (hd : d ∈ s.caches) (i : ℕ) :
    (((s.pcache1Rekey c a kOld k).cache d).apHash i).Nodup ∧
      ∀ x, x ∈ ((s.pcache1Rekey c a kOld k).cache d).apHash i ↔
        x ∈ (s.cache d).apHash i ∧ x ≠ a ∨ x = a ∧ d = c ∧ i = (s.cache d).slot k := by
  rw [rekey_cache]
  split
  · rename_i heq
    subst heq
    dsimp only
    obtain ⟨hnodup, hmem⟩ := rekey_erased h hold hd i
    rw [Function.update_apply]
    split
    · rename_i heq
      subst heq
      refine ⟨List.nodup_cons.mpr ⟨fun hin => ((hmem a).mp hin).2 rfl, hnodup⟩, fun x => ?_⟩
      rw [List.mem_cons, hmem]
      tauto
    · rename_i hne
      refine ⟨hnodup, fun x => ?_⟩
      rw [hmem]
      tauto
  · rename_i hne
    refine ⟨h.nodup d hd i, fun x => ⟨fun hx => Or.inl ⟨hx, ?_⟩, ?_⟩⟩
    · rintro rfl
      exact hne (((h.mem d hd i x).mp hx).2.1.symm.trans hcache)
    · rintro (⟨hx, -⟩ | ⟨-, heq, -⟩)
      · exact hx
      · exact absurd heq hne

theorem rekey_page (s : PGroup) (c a : ℕ) (kOld k : UInt32) :
    (s.pcache1Rekey c a kOld k).page = Function.update s.page a ⟨k, (s.page a).pCache⟩ := rfl

theorem rekey_page_self (s : PGroup) (c a : ℕ) (kOld k : UInt32) :
    ((s.pcache1Rekey c a kOld k).page a).iKey = k := by
  rw [rekey_page, Function.update_self]

theorem rekey_page_of_ne {x : ℕ} (hne : x ≠ a) (s : PGroup) (c : ℕ) (kOld k : UInt32) :
    (s.pcache1Rekey c a kOld k).page x = s.page x := by
  rw [rekey_page, Function.update_of_ne hne]

theorem rekey_pCache (s : PGroup) (c a : ℕ) (kOld k : UInt32) (x : ℕ) :
    ((s.pcache1Rekey c a kOld k).page x).pCache = (s.page x).pCache := by
  rw [rekey_page, Function.update_apply]
  split
  · rename_i heq
    rw [heq]
  · rfl

/-- Of a cache `pcache1Rekey` changes nothing but the chains and the bound on the keys. -/
theorem rekey_field {β : Type} (g : PCache1 → β)
    (hg : ∀ (C : PCache1) (ap : ℕ → List ℕ) (m : UInt32),
      g { C with apHash := ap, iMaxKey := m } = g C) (s : PGroup) (c a : ℕ) (kOld k : UInt32)
    (d : ℕ) : g ((s.pcache1Rekey c a kOld k).cache d) = g (s.cache d) := by
  rw [rekey_cache]
  split
  · exact hg _ _ _
  · rfl

theorem rekey_nHash (s : PGroup) (c a : ℕ) (kOld k : UInt32) (d : ℕ) :
    ((s.pcache1Rekey c a kOld k).cache d).nHash = (s.cache d).nHash :=
  rekey_field PCache1.nHash (fun _ _ _ => rfl) s c a kOld k d

theorem rekey_slot (s : PGroup) (c a : ℕ) (kOld k : UInt32) (d : ℕ) :
    ((s.pcache1Rekey c a kOld k).cache d).slot = (s.cache d).slot := by
  funext key
  rw [PCache1.slot, PCache1.slot, rekey_nHash]

theorem rekey_count (s : PGroup) (c a : ℕ) (kOld k : UInt32) (U : Finset ℕ) (d : ℕ) :
    count U (fun x => ((s.pcache1Rekey c a kOld k).page x).pCache = d) =
      count U fun x => (s.page x).pCache = d :=
  count_congr fun x _ => by rw [rekey_pCache]

/-- The tables after `pcache1Rekey`, to a key that is not in the table. -/
theorem rekey_tables {kOld : UInt32} (h : Tables s T) (ha : a ∈ T)
    (hold : (s.page a).iKey = kOld) (hcache : (s.page a).pCache = c)
    (hk : ∀ x ∈ T, (s.page x).pCache = c → (s.page x).iKey ≠ k) :
    Tables (s.pcache1Rekey c a kOld k) T := by
  constructor
  case owner =>
    intro x hx
    rw [rekey_pCache]
    exact h.owner x hx
  case pos =>
    intro x hx
    rw [PGroup.owner, rekey_nHash, rekey_pCache]
    exact h.pos x hx
  case mem =>
    intro d hd i x
    rw [(rekey_chain h hold hcache hd i).2, h.mem d hd, rekey_slot, rekey_pCache]
    rcases eq_or_ne x a with rfl | hne
    · rw [rekey_page_self]
      constructor
      · rintro (⟨-, hne⟩ | ⟨-, rfl, rfl⟩)
        · exact absurd rfl hne
        · exact ⟨ha, hcache, rfl⟩
      · rintro ⟨-, hd', rfl⟩
        exact Or.inr ⟨rfl, hd'.symm.trans hcache, rfl⟩
    · rw [rekey_page_of_ne hne]
      tauto
  case nodup => exact fun d hd i => (rekey_chain h hold hcache hd i).1
  case key =>
    intro x hx y hy hsame hkey
    rw [rekey_pCache, rekey_pCache] at hsame
    rcases eq_or_ne x a with rfl | hxa
    · rcases eq_or_ne y x with rfl | hyx
      · rfl
      · rw [rekey_page_self, rekey_page_of_ne hyx] at hkey
        exact absurd hkey.symm (hk y hy (hsame.symm.trans hcache))
    · rcases eq_or_ne y a with rfl | hya
      · rw [rekey_page_self, rekey_page_of_ne hxa] at hkey
        exact absurd hkey (hk x hx (hsame.trans hcache))
      · rw [rekey_page_of_ne hxa, rekey_page_of_ne hya] at hkey
        exact h.key x hx y hy hsame hkey
  case nPage =>
    intro d hd
    rw [rekey_field PCache1.nPage fun _ _ _ => rfl, rekey_count]
    exact h.nPage d hd

/-- The list after `pcache1Rekey`. -/
theorem rekey_lru (h : Lru s T L) (c a : ℕ) (kOld k : UInt32) :
    Lru (s.pcache1Rekey c a kOld k) T L := by
  constructor
  case list => exact h.list
  case tail => exact h.tail
  case sub => exact h.sub
  case owner =>
    intro x hx
    rw [rekey_pCache]
    exact h.owner x hx
  case clear => exact h.clear
  case nRecyclable =>
    intro d hd
    rw [rekey_field PCache1.nRecyclable fun _ _ _ => rfl, rekey_count]
    exact h.nRecyclable d hd

/-- **`pcache1Rekey`**, to a key that is not in the table. -/
theorem rekey_spec {kOld : UInt32} (h : Inv s T L n) (ha : a ∈ T)
    (hold : (s.page a).iKey = kOld) (hcache : (s.page a).pCache = c)
    (hk : ∀ x ∈ T, (s.page x).pCache = c → (s.page x).iKey ≠ k) :
    Inv (s.pcache1Rekey c a kOld k) T L n := by
  constructor
  case sub => exact h.sub
  case tables => exact rekey_tables h.tables ha hold hcache hk
  case lru => exact rekey_lru h.lru c a kOld k
  case maxKey =>
    intro x hx
    rw [PGroup.owner, rekey_cache, rekey_pCache]
    have hmax := h.maxKey x hx
    rw [PGroup.owner] at hmax
    rcases eq_or_ne x a with rfl | hne
    · rw [rekey_page_self, if_pos hcache]
      dsimp only
      split
      · exact UInt32.le_refl k
      · rename_i hle
        exact UInt32.not_lt.mp hle
    · rw [rekey_page_of_ne hne]
      split
      · dsimp only
        split
        · rename_i hlt
          exact UInt32.le_trans hmax (UInt32.le_of_lt hlt)
        · exact hmax
      · exact hmax
  case current =>
    show s.nCurrentPage = _
    rw [h.current]
    refine congrArg (· + n) (count_congr fun x _ => ?_)
    rw [PGroup.owner, PGroup.owner, rekey_pCache,
      rekey_field PCache1.bPurgeable fun _ _ _ => rfl]

/-- A cache gets another bound on its keys. -/
theorem Inv.setMaxKey {m : UInt32} (h : Inv s T L n)
    (hm : ∀ x ∈ T, (s.page x).pCache = c → (s.page x).iKey ≤ m) :
    Inv (s.setCache c fun C => { C with iMaxKey := m }) T L n := by
  have hsame : SameTables s (s.setCache c fun C => { C with iMaxKey := m }) := by
    refine sameTables_setCache ?_ rfl rfl rfl c
    exact ⟨fun _ => rfl, fun _ => rfl, fun _ => rfl, fun _ => rfl⟩
  have hlru : SameLru s (s.setCache c fun C => { C with iMaxKey := m }) :=
    ⟨rfl, rfl, rfl, rfl, rfl, fun d => setCache_field PCache1.nRecyclable c d (fun _ => rfl) rfl⟩
  constructor
  case sub => exact h.sub
  case tables => exact hsame.tables h.tables
  case lru => exact hlru.lists h.lru h.lru.sub
  case maxKey =>
    intro x hx
    rw [PGroup.owner, setCache_cache]
    split
    · rename_i heq
      exact hm x hx heq
    · exact h.maxKey x hx
  case current =>
    show s.nCurrentPage = _
    rw [h.current]
    exact congrArg (· + n) (count_congr fun x _ => by rw [hsame.purgeable])

theorem le_sub_one_of_not_le {x y : UInt32} (h : ¬y ≤ x) : x ≤ y - 1 := by
  rw [UInt32.not_le, UInt32.lt_iff_toNat_lt] at h
  rw [UInt32.le_iff_toNat_le, UInt32.toNat_sub_of_le _ _ (by
    rw [UInt32.le_iff_toNat_le]
    exact Nat.succ_le_of_lt (Nat.lt_of_le_of_lt (Nat.zero_le _) h))]
  exact Nat.le_sub_one_of_lt h

/-- **`pcache1Truncate`**: the pages of the cache are gone from a key on, in use or not. -/
theorem truncate_spec (h : Inv s s.pages L 0) (hc : c ∈ s.caches) (k : UInt32) :
    ∃ L', Inv (s.pcache1Truncate c k) (s.pcache1Truncate c k).pages L' 0 ∧
      (s.pcache1Truncate c k).page = s.page ∧ (s.pcache1Truncate c k).caches = s.caches ∧
      (∀ x, x ∈ (s.pcache1Truncate c k).pages ↔
        x ∈ s.pages ∧ ¬((s.page x).pCache = c ∧ k ≤ (s.page x).iKey)) ∧
      ∀ x, x ∈ L' ↔ x ∈ L ∧ ¬((s.page x).pCache = c ∧ k ≤ (s.page x).iKey) := by
  rw [PGroup.pcache1Truncate]
  split
  · obtain ⟨L', hinv, hd⟩ := truncateUnsafe_spec h hc k
    refine ⟨L', hinv.setMaxKey fun x hx hcache => ?_, hd.page, hd.caches, hd.pages, hd.lru⟩
    rw [hd.page] at hcache ⊢
    exact le_sub_one_of_not_le fun hle => ((hd.pages x).mp hx).2 ⟨hcache, hle⟩
  · rename_i hlt
    have hnone : ∀ x ∈ s.pages, ¬((s.page x).pCache = c ∧ k ≤ (s.page x).iKey) := by
      rintro x hx ⟨hcache, hk⟩
      have hmax := h.maxKey x hx
      rw [PGroup.owner, hcache] at hmax
      exact hlt (UInt32.le_trans hk hmax)
    exact ⟨L, h, rfl, rfl, fun x => ⟨fun hx => ⟨hx, hnone x hx⟩, And.left⟩,
      fun x => ⟨fun hx => ⟨hx, hnone x (h.lru.sub x hx)⟩, And.left⟩⟩

/-! ### Caches -/

theorem Inv.of_eq (h : Inv s T L n) (hpages : s'.pages = s.pages) (hpage : s'.page = s.page)
    (hlru : s'.lru = s.lru) (hhead : s'.pLruHead = s.pLruHead) (htail : s'.pLruTail = s.pLruTail)
    (hcaches : s'.caches = s.caches) (hcache : s'.cache = s.cache)
    (hcurrent : s'.nCurrentPage = s.nCurrentPage) : Inv s' T L n := by
  constructor
  case sub => exact hpages ▸ h.sub
  case tables => exact h.tables.of_eq hpage hcaches hcache
  case lru => exact h.lru.of_eq hlru hhead htail hpage hcaches hcache (hpages ▸ h.lru.sub)
  case maxKey =>
    intro x hx
    rw [PGroup.owner, hcache, hpage]
    exact h.maxKey x hx
  case current =>
    rw [hcurrent, h.current]
    exact congrArg (· + n) (count_congr fun x _ => by rw [PGroup.owner, PGroup.owner, hpage, hcache])

/-- A cache without pages is new. -/
theorem Inv.addCache {C : PCache1} (h : Inv s T L n) (hc : c ∉ s.caches)
    (happly : ∀ i, C.apHash i = []) (hnPage : C.nPage = 0) (hnRecyclable : C.nRecyclable = 0) :
    Inv { s with caches := insert c s.caches, cache := Function.update s.cache c C } T L n := by
  have hold : ∀ d ∈ s.caches, d ≠ c := by
    rintro d hd rfl
    exact hc hd
  have hother : ∀ d ∈ s.caches, Function.update s.cache c C d = s.cache d := fun d hd =>
    Function.update_of_ne (hold d hd) C s.cache
  have hne : ∀ x ∈ T, (s.page x).pCache ≠ c := fun x hx => hold _ (h.tables.owner x hx)
  have hneL : ∀ x ∈ L, (s.page x).pCache ≠ c := fun x hx => hold _ (h.lru.owner x hx)
  have hzero : ∀ U : Finset ℕ, (∀ x ∈ U, (s.page x).pCache ≠ c) →
      count U (fun x => (s.page x).pCache = c) = 0 := by
    intro U hU
    rw [count, Finset.filter_false_of_mem hU]
    rfl
  constructor
  case sub => exact h.sub
  case tables =>
    constructor
    case owner => exact fun x hx => Finset.mem_insert_of_mem (h.tables.owner x hx)
    case pos =>
      intro x hx
      show 0 < (Function.update s.cache c C (s.page x).pCache).nHash
      rw [hother _ (h.tables.owner x hx)]
      exact h.tables.pos x hx
    case mem =>
      intro d hd i x
      show x ∈ (Function.update s.cache c C d).apHash i ↔
        x ∈ T ∧ (s.page x).pCache = d ∧ (Function.update s.cache c C d).slot (s.page x).iKey = i
      rcases Finset.mem_insert.mp hd with rfl | hd
      · rw [Function.update_self, happly]
        exact ⟨fun hx => absurd hx List.not_mem_nil, fun hx => absurd hx.2.1 (hne x hx.1)⟩
      · rw [hother d hd]
        exact h.tables.mem d hd i x
    case nodup =>
      intro d hd i
      show ((Function.update s.cache c C d).apHash i).Nodup
      rcases Finset.mem_insert.mp hd with rfl | hd
      · rw [Function.update_self, happly]
        exact List.nodup_nil
      · rw [hother d hd]
        exact h.tables.nodup d hd i
    case key => exact h.tables.key
    case nPage =>
      intro d hd
      show (Function.update s.cache c C d).nPage = _
      rcases Finset.mem_insert.mp hd with rfl | hd
      · rw [Function.update_self, hnPage]
        exact (hzero T hne).symm
      · rw [hother d hd]
        exact h.tables.nPage d hd
  case lru =>
    constructor
    case list => exact h.lru.list
    case tail => exact h.lru.tail
    case sub => exact h.lru.sub
    case owner => exact fun x hx => Finset.mem_insert_of_mem (h.lru.owner x hx)
    case clear => exact h.lru.clear
    case nRecyclable =>
      intro d hd
      show (Function.update s.cache c C d).nRecyclable = _
      rcases Finset.mem_insert.mp hd with rfl | hd
      · rw [Function.update_self, hnRecyclable]
        exact (hzero _ fun x hx => hneL x (List.mem_toFinset.mp hx)).symm
      · rw [hother d hd]
        exact h.lru.nRecyclable d hd
  case maxKey =>
    intro x hx
    show _ ≤ (Function.update s.cache c C (s.page x).pCache).iMaxKey
    rw [hother _ (h.tables.owner x hx)]
    exact h.maxKey x hx
  case current =>
    show s.nCurrentPage = _
    rw [h.current]
    refine congrArg (· + n) (count_congr fun x hx => ?_)
    show _ ↔ (Function.update s.cache c C (s.page x).pCache).bPurgeable = true
    rw [hother _ (h.tables.owner x hx)]
    rfl

/-- A cache that has no pages any more is gone. -/
theorem Inv.dropCache (h : Inv s T L n) (hT : ∀ x ∈ T, (s.page x).pCache ≠ c)
    (hL : ∀ x ∈ L, (s.page x).pCache ≠ c) :
    Inv { s with caches := s.caches.erase c } T L n := by
  constructor
  case sub => exact h.sub
  case tables =>
    constructor
    case owner => exact fun x hx => Finset.mem_erase.mpr ⟨hT x hx, h.tables.owner x hx⟩
    case pos => exact h.tables.pos
    case mem => exact fun d hd => h.tables.mem d (Finset.mem_of_mem_erase hd)
    case nodup => exact fun d hd => h.tables.nodup d (Finset.mem_of_mem_erase hd)
    case key => exact h.tables.key
    case nPage => exact fun d hd => h.tables.nPage d (Finset.mem_of_mem_erase hd)
  case lru =>
    constructor
    case list => exact h.lru.list
    case tail => exact h.lru.tail
    case sub => exact h.lru.sub
    case owner => exact fun x hx => Finset.mem_erase.mpr ⟨hL x hx, h.lru.owner x hx⟩
    case clear => exact h.lru.clear
    case nRecyclable => exact fun d hd => h.lru.nRecyclable d (Finset.mem_of_mem_erase hd)
  case maxKey => exact h.maxKey
  case current => exact h.current

/-- The limits of a cache do not matter. -/
theorem Inv.setLimits (h : Inv s T L n) (c : ℕ) (m m' : UInt32) :
    Inv (s.setCache c fun C => { C with nMax := m, n90pct := m' }) T L n := by
  have hsame : SameTables s (s.setCache c fun C => { C with nMax := m, n90pct := m' }) := by
    refine sameTables_setCache ?_ rfl rfl rfl c
    exact ⟨fun _ => rfl, fun _ => rfl, fun _ => rfl, fun _ => rfl⟩
  have hlru : SameLru s (s.setCache c fun C => { C with nMax := m, n90pct := m' }) :=
    ⟨rfl, rfl, rfl, rfl, rfl, fun d => setCache_field PCache1.nRecyclable c d (fun _ => rfl) rfl⟩
  constructor
  case sub => exact h.sub
  case tables => exact hsame.tables h.tables
  case lru => exact hlru.lists h.lru h.lru.sub
  case maxKey =>
    intro x hx
    have hfield : ((s.setCache c fun C => { C with nMax := m, n90pct := m' }).owner x).iMaxKey
        = (s.owner x).iMaxKey := setCache_field PCache1.iMaxKey c _ (fun _ => rfl) rfl
    rw [hfield]
    exact h.maxKey x hx
  case current =>
    show s.nCurrentPage = _
    rw [h.current]
    exact congrArg (· + n) (count_congr fun x _ => by rw [hsame.purgeable])

/-- **`pcache1Create`** does nothing to the pages. -/
theorem create_spec (h : Inv s s.pages L 0) (szPage szExtra : ℕ) (bPurgeable : Bool)
    (malloc : Option ℕ) :
    Inv (s.pcache1Create szPage szExtra bPurgeable malloc).2
        (s.pcache1Create szPage szExtra bPurgeable malloc).2.pages L 0 ∧
      (s.pcache1Create szPage szExtra bPurgeable malloc).2.pages = s.pages ∧
      (s.pcache1Create szPage szExtra bPurgeable malloc).2.page = s.page := by
  rw [PGroup.pcache1Create]
  cases hmalloc : malloc.filter (· ∉ s.caches) with
  | none => exact ⟨h, rfl, rfl⟩
  | some c =>
    have hc := of_decide_eq_true (Option.filter_eq_some_iff.mp hmalloc).2
    dsimp only
    generalize hC : ({ PCache1.blank with
      szPage, szExtra, bPurgeable, nMin := if bPurgeable then 10 else 0 } : PCache1) = C
    have hadd : Inv { s with caches := insert c s.caches, cache := Function.update s.cache c C }
        s.pages L 0 := by
      subst hC
      refine h.addCache hc ?_ ?_ ?_
      · exact fun _ => rfl
      all_goals rfl
    split
    · refine ⟨hadd.of_eq ?_ ?_ ?_ ?_ ?_ ?_ ?_ ?_, ?_, ?_⟩ <;> rfl
    · exact ⟨hadd, rfl, rfl⟩

/-- **`pcache1Cachesize`** gives up pages that are not in use. -/
theorem cachesize_spec (h : Inv s s.pages L 0) (c : ℕ) (nMax : UInt32) :
    ∃ L', Inv (s.pcache1Cachesize c nMax) (s.pcache1Cachesize c nMax).pages L' 0 ∧
      Evicts s L (s.pcache1Cachesize c nMax) L' := by
  rw [PGroup.pcache1Cachesize]
  split
  · have hmax : Inv (PGroup.setMxPinned
        { s with nMaxPage := s.nMaxPage + (nMax - (s.cache c).nMax) }) s.pages L 0 := by
      refine h.of_eq ?_ ?_ ?_ ?_ ?_ ?_ ?_ ?_ <;> rfl
    have hlimits := hmax.setLimits c nMax (nMax * 9 / 10)
    generalize hs₁ : PGroup.setCache _ c _ = s₁ at hlimits
    have hsame : SamePages s s₁ := by
      subst hs₁
      exact ⟨rfl, rfl, rfl⟩
    rw [← hsame.pages] at hlimits
    obtain ⟨L', hinv, hev⟩ := enforceMaxPage_spec hlimits
    dsimp only
    rw [hs₁]
    exact ⟨L', hinv, (hsame.evicts L).trans hev⟩
  · exact ⟨L, h, Evicts.refl s L⟩

/-- **`pcache1Shrink`** gives up pages that are not in use. -/
theorem shrink_spec (h : Inv s s.pages L 0) (c : ℕ) :
    ∃ L', Inv (s.pcache1Shrink c) (s.pcache1Shrink c).pages L' 0 ∧
      Evicts s L (s.pcache1Shrink c) L' := by
  rw [PGroup.pcache1Shrink]
  split
  · have hzero : Inv { s with nMaxPage := 0 } s.pages L 0 := by
      refine h.of_eq ?_ ?_ ?_ ?_ ?_ ?_ ?_ ?_ <;> rfl
    obtain ⟨L', hinv, hev⟩ := enforceMaxPage_spec hzero
    have hsame : SamePages s { s with nMaxPage := 0 } := ⟨rfl, rfl, rfl⟩
    generalize PGroup.pcache1EnforceMaxPage { s with nMaxPage := 0 } = s₁ at hinv hev ⊢
    have hsame' : SamePages s₁ { s₁ with nMaxPage := s.nMaxPage } := ⟨rfl, rfl, rfl⟩
    refine ⟨L', ?_, ((hsame.evicts L).trans hev).trans (hsame'.evicts L')⟩
    refine hinv.of_eq ?_ ?_ ?_ ?_ ?_ ?_ ?_ ?_ <;> rfl
  · exact ⟨L, h, Evicts.refl s L⟩

/-- **`pcache1Destroy`**: the pages of the cache are gone, and perhaps others that are not in use. -/
theorem destroy_spec (h : Inv s s.pages L 0) (hc : c ∈ s.caches) :
    ∃ L', Inv (s.pcache1Destroy c) (s.pcache1Destroy c).pages L' 0 ∧
      (s.pcache1Destroy c).page = s.page ∧ (s.pcache1Destroy c).caches = s.caches.erase c ∧
      (∀ x ∈ (s.pcache1Destroy c).pages, x ∈ s.pages ∧ (s.page x).pCache ≠ c) ∧ L' ⊆ L ∧
      (∀ x ∈ s.pages, x ∉ L → (s.page x).pCache ≠ c → x ∈ (s.pcache1Destroy c).pages) ∧
      ∀ x ∈ (s.pcache1Destroy c).pages, x ∈ L → x ∈ L' := by
  obtain ⟨L₁, hinv₁, hd⟩ := truncateUnsafe_spec h hc 0
  rw [PGroup.pcache1Destroy]
  dsimp only
  generalize s.pcache1TruncateUnsafe c 0 = s₁ at hinv₁ hd ⊢
  have hgone : ∀ x, (s.page x).pCache = c ∧ 0 ≤ (s.page x).iKey ↔ (s.page x).pCache = c :=
    fun x => and_iff_left (UInt32.le_iff_toNat_le.mpr (Nat.zero_le _))
  generalize hs₂ : PGroup.setMxPinned { s₁ with nMaxPage := _, nMinPage := _ } = s₂
  have hsame : SamePages s₁ s₂ := by
    subst hs₂
    exact ⟨rfl, rfl, rfl⟩
  have hinv₂ : Inv s₂ s₂.pages L₁ 0 := by
    subst hs₂
    refine hinv₁.of_eq ?_ ?_ ?_ ?_ ?_ ?_ ?_ ?_ <;> rfl
  obtain ⟨L', hinv₃, hev⟩ := enforceMaxPage_spec hinv₂
  have hev := (hsame.evicts L₁).trans hev
  generalize s₂.pcache1EnforceMaxPage = s₃ at hinv₃ hev ⊢
  have hpages : ∀ x ∈ s₃.pages, x ∈ s.pages ∧ (s.page x).pCache ≠ c := by
    intro x hx
    obtain ⟨hxs, hne⟩ := (hd.pages x).mp (hev.pages hx)
    exact ⟨hxs, fun heq => hne ((hgone x).mpr heq)⟩
  have hlru : ∀ x ∈ L', x ∈ L ∧ (s.page x).pCache ≠ c := by
    intro x hx
    obtain ⟨hxL, hne⟩ := (hd.lru x).mp (hev.lru hx)
    exact ⟨hxL, fun heq => hne ((hgone x).mpr heq)⟩
  have hpage := hev.page.trans hd.page
  refine ⟨L', hinv₃.dropCache ?_ ?_, hpage, ?_, hpages, fun x hx => (hlru x hx).1, ?_, ?_⟩
  · rw [hpage]
    exact fun x hx => (hpages x hx).2
  · rw [hpage]
    exact fun x hx => (hlru x hx).2
  · exact congrArg (Finset.erase · c) (hev.caches.trans hd.caches)
  · intro x hx hxL hne
    refine hev.keeps x ((hd.pages x).mpr ⟨hx, fun heq => hne heq.1⟩) fun hin => ?_
    exact hxL ((hd.lru x).mp hin).1
  · intro x hx hxL
    refine hev.stays x hx ((hd.lru x).mpr ⟨hxL, fun heq => ?_⟩)
    exact (hpages x hx).2 heq.1

end Pcache1

end SqliteVms

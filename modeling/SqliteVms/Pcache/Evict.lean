import SqliteVms.Pcache.Invariant

/-!
# Pages that are given up

Pages of the LRU list are given up when there are too many pages, the least recently used first. When
a cache is truncated its pages go away whether they are in use or not.

## Main definitions

* `PCache1.table` — the pages of a hash table, slot by slot
* `Evicts` — pages of the LRU list are given up
* `Discards` — certain pages go away, in use or not

## Main results

* `find_eq_some_iff` — the search of `pcache1Fetch`
* `enforceMaxPage_spec` — `pcache1EnforceMaxPage`
* `truncateUnsafe_spec` — `pcache1TruncateUnsafe`
-/

namespace SqliteVms

namespace Pcache1

/-- The pages of a hash table, slot by slot. -/
def PCache1.table (C : PCache1) : List ℕ := (List.range C.nHash).flatMap C.apHash

variable {s s' s'' : PGroup} {T : Finset ℕ} {L L' L'' : List ℕ} {n : UInt32} {a c : ℕ} {k : UInt32}

/-! ### The hash table -/

theorem Tables.mem_table (h : Tables s T) (hc : c ∈ s.caches) :
    a ∈ (s.cache c).table ↔ a ∈ T ∧ (s.page a).pCache = c := by
  rw [PCache1.table, List.mem_flatMap]
  constructor
  · rintro ⟨i, -, ha⟩
    obtain ⟨haT, hcache, -⟩ := (h.mem c hc i a).mp ha
    exact ⟨haT, hcache⟩
  · rintro ⟨haT, hcache⟩
    have hpos := h.pos a haT
    rw [PGroup.owner, hcache] at hpos
    exact ⟨_, List.mem_range.mpr (Nat.mod_lt _ hpos), (h.mem c hc _ a).mpr ⟨haT, hcache, rfl⟩⟩

theorem Tables.nodup_table (h : Tables s T) (hc : c ∈ s.caches) : (s.cache c).table.Nodup := by
  refine List.nodup_flatMap.mpr ⟨fun i _ => h.nodup c hc i, ?_⟩
  refine (List.nodup_range).imp fun {i j} hne => ?_
  intro a hi hj
  exact hne (((h.mem c hc i a).mp hi).2.2.symm.trans ((h.mem c hc j a).mp hj).2.2)

theorem Tables.length_table (h : Tables s T) (hc : c ∈ s.caches) :
    (s.cache c).nPage = UInt32.ofNat (s.cache c).table.length := by
  rw [h.nPage c hc, count, ← List.toFinset_card_of_nodup (h.nodup_table hc)]
  congr 2
  ext a
  rw [Finset.mem_filter, List.mem_toFinset, h.mem_table hc]

/-- **The search** finds the page with the key, if there is one. -/
theorem find_eq_some_iff (h : Tables s T) (hc : c ∈ s.caches) :
    s.find c k = some a ↔ a ∈ T ∧ (s.page a).pCache = c ∧ (s.page a).iKey = k := by
  unfold PGroup.find
  constructor
  · intro hfind
    split at hfind
    · have hkey := List.find?_some hfind
      rw [decide_eq_true_eq] at hkey
      obtain ⟨haT, hcache, -⟩ := (h.mem c hc _ a).mp (List.mem_of_find?_eq_some hfind)
      exact ⟨haT, hcache, hkey⟩
    · cases hfind
  · rintro ⟨haT, hcache, hkey⟩
    have hpos := h.pos a haT
    rw [PGroup.owner, hcache] at hpos
    rw [if_pos hpos]
    have hmem : a ∈ (s.cache c).apHash ((s.cache c).slot k) :=
      (h.mem c hc _ a).mpr ⟨haT, hcache, by rw [hkey]⟩
    cases hfind : ((s.cache c).apHash ((s.cache c).slot k)).find? fun a => (s.page a).iKey = k with
    | none =>
      have hnone := List.find?_eq_none.mp hfind a hmem
      exact absurd (decide_eq_true hkey) hnone
    | some b =>
      have hb := List.find?_some hfind
      rw [decide_eq_true_eq] at hb
      obtain ⟨hbT, hbc, -⟩ := (h.mem c hc _ b).mp (List.mem_of_find?_eq_some hfind)
      rw [h.key b hbT a haT (hbc.trans hcache.symm) (hb.trans hkey.symm)]

theorem find_eq_none_iff (h : Tables s T) (hc : c ∈ s.caches) :
    s.find c k = none ↔ ∀ a ∈ T, (s.page a).pCache = c → (s.page a).iKey ≠ k := by
  rw [Option.eq_none_iff_forall_ne_some]
  constructor
  · exact fun hnone a haT hcache hkey => hnone a ((find_eq_some_iff h hc).mpr ⟨haT, hcache, hkey⟩)
  · intro hall a hfind
    obtain ⟨haT, hcache, hkey⟩ := (find_eq_some_iff h hc).mp hfind
    exact hall a haT hcache hkey

/-! ### Giving pages up -/

/-- Pages of the LRU list are given up, and nothing else. -/
structure Evicts (s : PGroup) (L : List ℕ) (s' : PGroup) (L' : List ℕ) : Prop where
  page : s'.page = s.page
  caches : s'.caches = s.caches
  pages : s'.pages ⊆ s.pages
  lru : L' ⊆ L
  keeps : ∀ a ∈ s.pages, a ∉ L → a ∈ s'.pages
  stays : ∀ a ∈ s'.pages, a ∈ L → a ∈ L'

theorem Evicts.refl (s : PGroup) (L : List ℕ) : Evicts s L s L :=
  ⟨rfl, rfl, Finset.Subset.refl _, List.Subset.refl _, fun _ h _ => h, fun _ _ h => h⟩

theorem Evicts.trans (h : Evicts s L s' L') (h' : Evicts s' L' s'' L'') : Evicts s L s'' L'' where
  page := h'.page.trans h.page
  caches := h'.caches.trans h.caches
  pages := h'.pages.trans h.pages
  lru := List.Subset.trans h'.lru h.lru
  keeps := fun a ha hL => h'.keeps a (h.keeps a ha hL) fun hin => hL (h.lru hin)
  stays := fun a ha hL => h'.stays a ha (h.stays a (h'.pages ha) hL)

/-- The last page of the LRU list is given up. -/
theorem evicts_last (s : PGroup) (L : List ℕ) (ha : a ∈ L) :
    Evicts s L (((s.pcache1PinPage a).pcache1RemoveFromHash a).pcache1FreePage a)
      (L.filter (· ≠ a)) := by
  have hsame := pinPage_sameTables s a
  have hpages : (((s.pcache1PinPage a).pcache1RemoveFromHash a).pcache1FreePage a).pages
      = s.pages.erase a := congrArg (Finset.erase · a) (pinPage_pages s a)
  constructor
  case page => exact hsame.page
  case caches => exact hsame.caches
  case pages =>
    rw [hpages]
    exact Finset.erase_subset a s.pages
  case lru => exact List.filter_subset_self _
  case keeps =>
    intro x hx hL
    rw [hpages]
    exact Finset.mem_erase_of_ne_of_mem (fun heq => hL (heq ▸ ha)) hx
  case stays =>
    intro x hx hL
    rw [hpages] at hx
    exact List.mem_filter.mpr ⟨hL, by simpa using (Finset.mem_erase.mp hx).1⟩

theorem enforceLoop_spec (m : ℕ) (h : Inv s s.pages L 0) :
    ∃ L', Inv (PGroup.enforceLoop m s) (PGroup.enforceLoop m s).pages L' 0 ∧
      Evicts s L (PGroup.enforceLoop m s) L' := by
  induction m generalizing s L with
  | zero => exact ⟨L, h, Evicts.refl s L⟩
  | succ m ih =>
    rw [PGroup.enforceLoop]
    split
    · exact ⟨L, h, Evicts.refl s L⟩
    · rename_i a htail
      split
      · rw [h.lru.tail] at htail
        have haL := List.mem_of_getLast? htail
        have hevict := h.evict (h.lru.sub a haL)
        have hpages : (((s.pcache1PinPage a).pcache1RemoveFromHash a).pcache1FreePage a).pages
            = s.pages.erase a := congrArg (Finset.erase · a) (pinPage_pages s a)
        rw [← hpages] at hevict
        obtain ⟨L', hinv, hev⟩ := ih hevict
        exact ⟨L', hinv, (evicts_last s L haL).trans hev⟩
      · exact ⟨L, h, Evicts.refl s L⟩

/-- `pcache1EnforceMaxPage`. -/
theorem enforceMaxPage_spec (h : Inv s s.pages L 0) :
    ∃ L', Inv s.pcache1EnforceMaxPage s.pcache1EnforceMaxPage.pages L' 0 ∧
      Evicts s L s.pcache1EnforceMaxPage L' := enforceLoop_spec _ h

/-! ### Truncating -/

/-- The pages that `P` is about are gone, from the tables and from the list. -/
structure Discards (s : PGroup) (L : List ℕ) (P : ℕ → Prop) (s' : PGroup) (L' : List ℕ) : Prop where
  page : s'.page = s.page
  caches : s'.caches = s.caches
  cache : ∀ c, (s'.cache c).nHash = (s.cache c).nHash ∧
    (s'.cache c).iMaxKey = (s.cache c).iMaxKey
  pages : ∀ a, a ∈ s'.pages ↔ a ∈ s.pages ∧ ¬P a
  lru : ∀ a, a ∈ L' ↔ a ∈ L ∧ ¬P a

variable {P Q : ℕ → Prop}

theorem Discards.trans (h : Discards s L P s' L') (h' : Discards s' L' Q s'' L'') :
    Discards s L (fun a => P a ∨ Q a) s'' L'' where
  page := h'.page.trans h.page
  caches := h'.caches.trans h.caches
  cache := fun c => ⟨(h'.cache c).1.trans (h.cache c).1, (h'.cache c).2.trans (h.cache c).2⟩
  pages := fun a => by rw [h'.pages, h.pages, and_assoc, not_or]
  lru := fun a => by rw [h'.lru, h.lru, and_assoc, not_or]

theorem Discards.congr (h : Discards s L P s' L') (hPQ : ∀ a ∈ s.pages, P a ↔ Q a)
    (hL : ∀ a ∈ L, a ∈ s.pages) : Discards s L Q s' L' where
  page := h.page
  caches := h.caches
  cache := h.cache
  pages := fun a => by
    rw [h.pages]
    exact and_congr_right fun ha => not_congr (hPQ a ha)
  lru := fun a => by
    rw [h.lru]
    exact and_congr_right fun ha => not_congr (hPQ a (hL a ha))

theorem Discards.refl (s : PGroup) (L : List ℕ) : Discards s L (fun _ => False) s L :=
  ⟨rfl, rfl, fun _ => ⟨rfl, rfl⟩, fun _ => by simp, fun _ => by simp⟩

/-- It does not matter whether a page is first removed from its table or first taken off the list. -/
theorem pinPage_removeFromHash (s : PGroup) (a : ℕ) :
    (s.pcache1RemoveFromHash a).pcache1PinPage a = (s.pcache1PinPage a).pcache1RemoveFromHash a := by
  by_cases hin : (s.lru.next a).isSome ∨ s.pLruTail = some a
  · have hin' : ((s.pcache1RemoveFromHash a).lru.next a).isSome ∨
        (s.pcache1RemoveFromHash a).pLruTail = some a := hin
    rw [PGroup.pcache1PinPage, if_pos hin', PGroup.pcache1PinPage, if_pos hin]
    simp only [PGroup.pcache1RemoveFromHash, PGroup.setCache, Function.update_self,
      Function.update_idem, PCache1.slot]
    rfl
  · have hin' : ¬(((s.pcache1RemoveFromHash a).lru.next a).isSome ∨
        (s.pcache1RemoveFromHash a).pLruTail = some a) := hin
    rw [PGroup.pcache1PinPage, if_neg hin', PGroup.pcache1PinPage, if_neg hin]

/-- The loop body of `pcache1TruncateUnsafe`: a page is taken off the list, removed and freed. -/
theorem truncatePage_eq (hcache : (s.page a).pCache = c) {i : ℕ}
    (hslot : (s.cache c).slot (s.page a).iKey = i) (hk : k ≤ (s.page a).iKey) :
    PGroup.truncatePage c k i s a
      = ((s.pcache1PinPage a).pcache1RemoveFromHash a).pcache1FreePage a := by
  subst hcache hslot
  rw [PGroup.truncatePage, if_pos hk, ← pinPage_removeFromHash]
  rfl

theorem truncatePage_spec (h : Inv s s.pages L 0) (ha : a ∈ s.pages) (hcache : (s.page a).pCache = c)
    {i : ℕ} (hslot : (s.cache c).slot (s.page a).iKey = i) :
    ∃ L', Inv (PGroup.truncatePage c k i s a) (PGroup.truncatePage c k i s a).pages L' 0 ∧
      Discards s L (fun x => x = a ∧ k ≤ (s.page a).iKey) (PGroup.truncatePage c k i s a) L' := by
  by_cases hk : k ≤ (s.page a).iKey
  · rw [truncatePage_eq hcache hslot hk]
    have hsame := pinPage_sameTables s a
    have hpages : (((s.pcache1PinPage a).pcache1RemoveFromHash a).pcache1FreePage a).pages
        = s.pages.erase a := congrArg (Finset.erase · a) (pinPage_pages s a)
    have hevict := h.evict ha
    rw [← hpages] at hevict
    refine ⟨_, hevict, hsame.page, hsame.caches, fun d => ⟨?_, ?_⟩, fun x => ?_, fun x => ?_⟩
    · exact (removeFromHash_nHash (s.pcache1PinPage a) a d).trans (hsame.nHash d)
    · exact (removeFromHash_iMaxKey (s.pcache1PinPage a) a d).trans (pinPage_iMaxKey s a d)
    · rw [hpages, Finset.mem_erase, and_comm]
      simp [hk]
    · rw [List.mem_filter]
      simp [hk]
  · rw [PGroup.truncatePage, if_neg hk]
    exact ⟨L, h, (Discards.refl s L).congr (fun x _ => by simp [hk]) h.lru.sub⟩

theorem Discards.slot (h : Discards s L P s' L') (c : ℕ) :
    (s'.cache c).slot = (s.cache c).slot := by
  funext key
  rw [PCache1.slot, PCache1.slot, (h.cache c).1]

/-- The loop over a chain. -/
theorem truncateChain_spec {i : ℕ} {X : List ℕ} (h : Inv s s.pages L 0) (hnodup : X.Nodup)
    (hX : ∀ x ∈ X, x ∈ s.pages ∧ (s.page x).pCache = c ∧ (s.cache c).slot (s.page x).iKey = i) :
    ∃ L', Inv (X.foldl (PGroup.truncatePage c k i) s)
        (X.foldl (PGroup.truncatePage c k i) s).pages L' 0 ∧
      Discards s L (fun x => x ∈ X ∧ k ≤ (s.page x).iKey)
        (X.foldl (PGroup.truncatePage c k i) s) L' := by
  induction X generalizing s L with
  | nil => exact ⟨L, h, (Discards.refl s L).congr (fun x _ => by simp) h.lru.sub⟩
  | cons a X ih =>
    obtain ⟨haX, hnodup⟩ := List.nodup_cons.mp hnodup
    obtain ⟨ha, hcache, hslot⟩ := hX a List.mem_cons_self
    obtain ⟨L₁, hinv₁, hd₁⟩ := truncatePage_spec (k := k) h ha hcache hslot
    have hX₁ : ∀ x ∈ X, x ∈ (PGroup.truncatePage c k i s a).pages ∧
        ((PGroup.truncatePage c k i s a).page x).pCache = c ∧
        ((PGroup.truncatePage c k i s a).cache c).slot
          ((PGroup.truncatePage c k i s a).page x).iKey = i := by
      intro x hx
      obtain ⟨hxP, hxc, hxs⟩ := hX x (List.mem_cons_of_mem a hx)
      rw [hd₁.pages, hd₁.page, hd₁.slot]
      exact ⟨⟨hxP, fun heq => haX (heq.1 ▸ hx)⟩, hxc, hxs⟩
    obtain ⟨L₂, hinv₂, hd₂⟩ := ih hinv₁ hnodup hX₁
    refine ⟨L₂, hinv₂, (hd₁.trans hd₂).congr (fun x _ => ?_) h.lru.sub⟩
    rw [hd₁.page, List.mem_cons]
    constructor
    · rintro (⟨rfl, hk⟩ | ⟨hx, hk⟩)
      · exact ⟨Or.inl rfl, hk⟩
      · exact ⟨Or.inr hx, hk⟩
    · rintro ⟨rfl | hx, hk⟩
      · exact Or.inl ⟨rfl, hk⟩
      · exact Or.inr ⟨hx, hk⟩

/-- The loop over the first `m` slots. -/
theorem truncateSlots_spec (h : Inv s s.pages L 0) (hc : c ∈ s.caches) (m : ℕ) :
    ∃ s' L', (List.range m).foldl
        (fun s i => ((s.cache c).apHash i).foldl (PGroup.truncatePage c k i) s) s = s' ∧
      Inv s' s'.pages L' 0 ∧
      Discards s L (fun x => ((s.page x).pCache = c ∧ (s.cache c).slot (s.page x).iKey < m) ∧
        k ≤ (s.page x).iKey) s' L' := by
  induction m with
  | zero =>
    exact ⟨s, L, rfl, h, (Discards.refl s L).congr (fun x _ => by simp) h.lru.sub⟩
  | succ m ih =>
    obtain ⟨s₁, L₁, hs₁, hinv₁, hd₁⟩ := ih
    have hc₁ : c ∈ s₁.caches := hd₁.caches ▸ hc
    have hmem := hinv₁.tables.mem c hc₁ m
    obtain ⟨L₂, hinv₂, hd₂⟩ := truncateChain_spec (k := k) hinv₁ (hinv₁.tables.nodup c hc₁ m)
      fun x hx => (hmem x).mp hx
    refine ⟨_, L₂, ?_, hinv₂, (hd₁.trans hd₂).congr (fun x hx => ?_) h.lru.sub⟩
    · rw [List.range_succ, List.foldl_append, hs₁]
      rfl
    · rw [hmem, hd₁.pages, hd₁.page, hd₁.slot, Nat.lt_succ_iff_lt_or_eq]
      constructor
      · rintro (⟨⟨hcache, hslot⟩, hk⟩ | ⟨⟨-, hcache, hslot⟩, hk⟩)
        · exact ⟨⟨hcache, Or.inl hslot⟩, hk⟩
        · exact ⟨⟨hcache, Or.inr hslot⟩, hk⟩
      · rintro ⟨⟨hcache, hslot | hslot⟩, hk⟩
        · exact Or.inl ⟨⟨hcache, hslot⟩, hk⟩
        · exact Or.inr ⟨⟨⟨hx, fun hin => hin.1.2.ne hslot⟩, hcache, hslot⟩, hk⟩

/-- **`pcache1TruncateUnsafe`** discards the pages of a cache from a key on, in use or not. -/
theorem truncateUnsafe_spec (h : Inv s s.pages L 0) (hc : c ∈ s.caches) (k : UInt32) :
    ∃ L', Inv (s.pcache1TruncateUnsafe c k) (s.pcache1TruncateUnsafe c k).pages L' 0 ∧
      Discards s L (fun x => (s.page x).pCache = c ∧ k ≤ (s.page x).iKey)
        (s.pcache1TruncateUnsafe c k) L' := by
  obtain ⟨s', L', hs', hinv, hd⟩ := truncateSlots_spec (k := k) h hc (s.cache c).nHash
  rw [PGroup.pcache1TruncateUnsafe, hs']
  refine ⟨L', hinv, hd.congr (fun x hx => ?_) h.lru.sub⟩
  constructor
  · rintro ⟨⟨hcache, -⟩, hk⟩
    exact ⟨hcache, hk⟩
  · rintro ⟨hcache, hk⟩
    have hpos := h.tables.pos x hx
    rw [PGroup.owner, hcache] at hpos
    exact ⟨⟨hcache, Nat.mod_lt _ hpos⟩, hk⟩

end Pcache1

end SqliteVms

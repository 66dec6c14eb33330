import Mathlib.Algebra.Order.Ring.Int
import SqliteVms.Lib.Run
import SqliteVms.Pcache.Methods

/-!
# Runs of the page cache

Any number of caches in one group, and calls of their methods in any order. Which pages are in use is
not in the group: it is what the callers have been given and have not given back. A run keeps both.

## Main definitions

* `Held` — the group and the pages in use
* `Call`, `step` — the methods, and what they do
* `Call.Legal` — what the callers see to
* `Sound` — what holds between two calls

## Main results

* `step_keeps` — one call
* `pcache1_run` — runs
-/

namespace SqliteVms

namespace Pcache1

/-- The group, and the pages that are in use. -/
structure Held where
  group : PGroup
  pinned : Finset ℕ

/-- A call of a method, with the answers that it gets from the rest of the program. -/
inductive Call where
  | create (szPage szExtra : ℕ) (bPurgeable : Bool) (malloc : Option ℕ)
  | cachesize (c : ℕ) (nMax : UInt32)
  | shrink (c : ℕ)
  | fetch (c : ℕ) (iKey : UInt32) (createFlag : ℕ) (memory : PGroup.Memory)
  | unpin (c a : ℕ) (reuseUnlikely : Bool)
  | rekey (c a : ℕ) (iOld iNew : UInt32)
  | truncate (c : ℕ) (iLimit : UInt32)
  | destroy (c : ℕ)

/-- A page of the cache with a key from `iLimit` on. -/
def PGroup.From (s : PGroup) (c : ℕ) (iLimit : UInt32) (a : ℕ) : Prop :=
  (s.page a).pCache = c ∧ iLimit ≤ (s.page a).iKey

instance (s : PGroup) (c : ℕ) (iLimit : UInt32) : DecidablePred (s.From c iLimit) :=
  fun _ => inferInstanceAs (Decidable (_ ∧ _))

/-- A call. A page that is fetched is in use, until it is unpinned or its cache is truncated or
destroyed. -/
def step (g : Held) : Call → Held
  | .create szPage szExtra bPurgeable malloc =>
    { g with group := (g.group.pcache1Create szPage szExtra bPurgeable malloc).2 }
  | .cachesize c nMax => { g with group := g.group.pcache1Cachesize c nMax }
  | .shrink c => { g with group := g.group.pcache1Shrink c }
  | .fetch c iKey createFlag memory =>
    match g.group.pcache1Fetch c iKey createFlag memory with
    | (none, s) => { g with group := s }
    | (some a, s) => { group := s, pinned := insert a g.pinned }
  | .unpin c a reuseUnlikely =>
    { group := g.group.pcache1Unpin c a reuseUnlikely, pinned := g.pinned.erase a }
  | .rekey c a iOld iNew => { g with group := g.group.pcache1Rekey c a iOld iNew }
  | .truncate c iLimit =>
    { group := g.group.pcache1Truncate c iLimit
      pinned := g.pinned.filter fun a => ¬g.group.From c iLimit a }
  | .destroy c =>
    { group := g.group.pcache1Destroy c
      pinned := g.pinned.filter fun a => (g.group.page a).pCache ≠ c }

/-- What the callers see to: the cache exists, a page that is unpinned is in use, and the key that a
page is given is not in use. -/
def Call.Legal (g : Held) : Call → Prop
  | .create .. => True
  | .cachesize c _ => c ∈ g.group.caches
  | .shrink c => c ∈ g.group.caches
  | .fetch c .. => c ∈ g.group.caches
  | .unpin c a _ => a ∈ g.pinned ∧ (g.group.page a).pCache = c
  | .rekey c a iOld iNew =>
    a ∈ (g.group.cache c).table ∧ c ∈ g.group.caches ∧ (g.group.page a).iKey = iOld ∧
      ∀ x ∈ (g.group.cache c).table, (g.group.page x).iKey ≠ iNew
  | .truncate c _ => c ∈ g.group.caches
  | .destroy c => c ∈ g.group.caches

instance (g : Held) : (call : Call) → Decidable (call.Legal g)
  | .create .. => isTrue trivial
  | .cachesize c _ => inferInstanceAs (Decidable (c ∈ g.group.caches))
  | .shrink c => inferInstanceAs (Decidable (c ∈ g.group.caches))
  | .fetch c .. => inferInstanceAs (Decidable (c ∈ g.group.caches))
  | .unpin .. => inferInstanceAs (Decidable (_ ∧ _))
  | .rekey .. => inferInstanceAs (Decidable (_ ∧ _ ∧ _ ∧ _))
  | .truncate c _ => inferInstanceAs (Decidable (c ∈ g.group.caches))
  | .destroy c => inferInstanceAs (Decidable (c ∈ g.group.caches))

/-- The calls that are about a page itself, or about the pages of its cache. -/
def Call.Own (g : Held) (a : ℕ) : Call → Prop
  | .unpin _ b _ => b = a
  | .rekey _ b _ _ => b = a
  | .truncate c iLimit => g.group.From c iLimit a
  | .destroy c => (g.group.page a).pCache = c
  | _ => False

/-- The number of pages of a kind. -/
def Counts (counter : UInt32) (T : Finset ℕ) : Prop :=
  counter = UInt32.ofNat T.card ∧ (T.card < 2 ^ 32 → counter.toNat = T.card)

/-- **What holds between two calls.** -/
structure Sound (g : Held) : Prop where
  /-- the pages of a table are those of the cache, each in the slot of its key -/
  table : ∀ c ∈ g.group.caches, ∀ a, a ∈ (g.group.cache c).table ↔
    a ∈ g.group.pages ∧ (g.group.page a).pCache = c
  bucket : ∀ c ∈ g.group.caches, ∀ h, ∀ a ∈ (g.group.cache c).apHash h,
    (g.group.cache c).slot (g.group.page a).iKey = h
  nodup : ∀ c ∈ g.group.caches, (g.group.cache c).table.Nodup
  keys : ∀ c ∈ g.group.caches, ((g.group.cache c).table.map fun a => (g.group.page a).iKey).Nodup
  owned : ∀ a ∈ g.group.pages, (g.group.page a).pCache ∈ g.group.caches
  nPage : ∀ c ∈ g.group.caches,
    Counts (g.group.cache c).nPage (g.group.cache c).table.toFinset
  /-- the LRU list has the pages that are not in use -/
  lru : ∃ L, g.group.lru.IsList g.group.pLruHead L ∧ g.group.pLruTail = L.getLast? ∧
    ∀ a, a ∈ L ↔ a ∈ g.group.pages ∧ a ∉ g.pinned
  nRecyclable : ∀ c ∈ g.group.caches, Counts (g.group.cache c).nRecyclable
    ((g.group.pages \ g.pinned).filter fun a => (g.group.page a).pCache = c)
  nCurrentPage : Counts g.group.nCurrentPage
    (g.group.pages.filter fun a => (g.group.owner a).bPurgeable)
  /-- no page in use is lost -/
  pinned : g.pinned ⊆ g.group.pages

/-- The invariant between two calls. -/
def Ok (g : Held) : Prop :=
  g.pinned ⊆ g.group.pages ∧ ∃ L, Inv g.group g.group.pages L 0 ∧
    ∀ a, a ∈ L ↔ a ∈ g.group.pages ∧ a ∉ g.pinned

variable {s s' : PGroup} {P P' : Finset ℕ} {L L' : List ℕ} {g : Held} {a c : ℕ} {k : UInt32}

theorem counts_ofNat {counter : UInt32} {T : Finset ℕ} (h : counter = UInt32.ofNat T.card) :
    Counts counter T := by
  refine ⟨h, fun hlt => ?_⟩
  rw [h, UInt32.toNat_ofNat', Nat.mod_eq_of_lt hlt]

/-- The invariant says what it should. -/
theorem Ok.sound (h : Ok g) : Sound g := by
  obtain ⟨hpinned, L, hinv, hL⟩ := h
  constructor
  case table => exact fun c hc a => hinv.tables.mem_table hc
  case bucket => exact fun c hc i a ha => ((hinv.tables.mem c hc i a).mp ha).2.2
  case nodup => exact fun c hc => hinv.tables.nodup_table hc
  case keys =>
    intro c hc
    refine (hinv.tables.nodup_table hc).map_on fun a ha b hb hkey => ?_
    obtain ⟨haP, hac⟩ := (hinv.tables.mem_table hc).mp ha
    obtain ⟨hbP, hbc⟩ := (hinv.tables.mem_table hc).mp hb
    exact hinv.tables.key a haP b hbP (hac.trans hbc.symm) hkey
  case owned => exact hinv.tables.owner
  case nPage =>
    intro c hc
    refine counts_ofNat ?_
    rw [List.toFinset_card_of_nodup (hinv.tables.nodup_table hc), hinv.tables.length_table hc]
  case lru => exact ⟨L, hinv.lru.list, hinv.lru.tail, hL⟩
  case nRecyclable =>
    intro c hc
    have hset : L.toFinset = g.group.pages \ g.pinned := by
      ext a
      rw [List.mem_toFinset, hL, Finset.mem_sdiff]
    refine counts_ofNat ?_
    rw [← hset]
    exact hinv.lru.nRecyclable c hc
  case nCurrentPage =>
    refine counts_ofNat ?_
    rw [hinv.current, UInt32.add_zero]
    rfl
  case pinned => exact hpinned

theorem ok_init : Ok ⟨pcache1Init, ∅⟩ := by
  refine ⟨Finset.Subset.refl _, [], ?_, fun a => ?_⟩
  · constructor
    case sub => exact Finset.Subset.refl _
    case tables =>
      constructor
      case owner => exact fun a ha => absurd ha (Finset.notMem_empty a)
      case pos => exact fun a ha => absurd ha (Finset.notMem_empty a)
      case mem => exact fun c hc => absurd hc (Finset.notMem_empty c)
      case nodup => exact fun c hc => absurd hc (Finset.notMem_empty c)
      case key => exact fun a ha => absurd ha (Finset.notMem_empty a)
      case nPage => exact fun c hc => absurd hc (Finset.notMem_empty c)
    case lru =>
      constructor
      case list => exact ⟨List.nodup_nil, rfl, trivial⟩
      case tail => rfl
      case sub => exact fun a ha => absurd ha List.not_mem_nil
      case owner => exact fun a ha => absurd ha List.not_mem_nil
      case clear => exact fun a ha => absurd ha (Finset.notMem_empty a)
      case nRecyclable => exact fun c hc => absurd hc (Finset.notMem_empty c)
    case maxKey => exact fun a ha => absurd ha (Finset.notMem_empty a)
    case current => rfl
  · exact iff_of_false List.not_mem_nil fun h => Finset.notMem_empty a h.1

/-! ### One call -/

/-- What a call does to the pages in use: those that it is not about are as they were. -/
def Keeps (g : Held) (call : Call) (g' : Held) : Prop :=
  ∀ a ∈ g.pinned, ¬call.Own g a → a ∈ g'.pinned ∧ g'.group.page a = g.group.page a

/-- A page that is fetched. -/
def Fetches (g : Held) (c : ℕ) (k : UInt32) (r : Option ℕ) (g' : Held) : Prop :=
  (∀ a ∈ (g.group.cache c).table, (g.group.page a).iKey = k → r = some a) ∧
    ∀ a, r = some a → a ∈ g'.pinned ∧ g'.group.page a = ⟨k, c⟩ ∧
      ((∀ b ∈ (g.group.cache c).table, (g.group.page b).iKey ≠ k) → a ∉ g.pinned)

/-- Pages that are not in use are given up. -/
theorem Ok.evicts (hpinned : P ⊆ s.pages) (hL : ∀ a, a ∈ L ↔ a ∈ s.pages ∧ a ∉ P)
    (hinv : Inv s' s'.pages L' 0) (hev : Evicts s L s' L') : Ok ⟨s', P⟩ := by
  refine ⟨fun a ha => ?_, L', hinv, fun a => ⟨fun ha => ⟨hinv.lru.sub a ha, ?_⟩, ?_⟩⟩
  · exact hev.keeps a (hpinned ha) fun hin => ((hL a).mp hin).2 ha
  · exact ((hL a).mp (hev.lru ha)).2
  · rintro ⟨ha, hnot⟩
    exact hev.stays a ha ((hL a).mpr ⟨hev.pages ha, hnot⟩)

/-- A page is fetched. -/
theorem Ok.fetched (hpinned : P ⊆ s.pages) (hL : ∀ a, a ∈ L ↔ a ∈ s.pages ∧ a ∉ P)
    (hinv : Inv s' s'.pages L' 0) (hf : Fetched s L c k a s' L') : Ok ⟨s', insert a P⟩ := by
  refine ⟨fun x hx => ?_, L', hinv, fun x => ⟨fun hx => ⟨hinv.lru.sub x hx, ?_⟩, ?_⟩⟩
  · rcases Finset.mem_insert.mp hx with rfl | hx
    · exact hf.mem
    · exact hf.keeps x (hpinned hx) fun hin => ((hL x).mp hin).2 hx
  · rw [Finset.mem_insert, not_or]
    refine ⟨?_, ((hL x).mp (hf.lru hx)).2⟩
    rintro rfl
    exact hf.pinned hx
  · rintro ⟨hx, hnot⟩
    rw [Finset.mem_insert, not_or] at hnot
    exact hf.stays x hx hnot.1 ((hL x).mpr ⟨hf.pages x hx hnot.1, hnot.2⟩)

/-- **One call** keeps the invariant, and the pages in use that it is not about. -/
theorem step_keeps (h : Ok g) (call : Call) (hlegal : call.Legal g) :
    Ok (step g call) ∧ Keeps g call (step g call) := by
  obtain ⟨s, P⟩ := g
  obtain ⟨hpinned, L, hinv, hL⟩ := h
  have hcovers : ∀ a, a ∈ s.pages → a ∈ L ∨ a ∈ P := fun a ha => by
    by_cases haP : a ∈ P
    · exact Or.inr haP
    · exact Or.inl ((hL a).mpr ⟨ha, haP⟩)
  have hfree : ∀ a ∈ P, a ∉ L := fun a ha hin => ((hL a).mp hin).2 ha
  cases call with
  | create szPage szExtra bPurgeable malloc =>
    obtain ⟨hinv', hpages, hpage⟩ := create_spec hinv szPage szExtra bPurgeable malloc
    refine ⟨⟨fun a ha => ?_, L, hinv', fun a => ?_⟩, fun a ha _ => ⟨ha, congrFun hpage a⟩⟩
    · exact hpages ▸ hpinned ha
    · rw [hL]
      exact and_congr_left fun _ => by rw [← hpages]; rfl
  | cachesize c nMax =>
    obtain ⟨L', hinv', hev⟩ := cachesize_spec hinv c nMax
    exact ⟨Ok.evicts hpinned hL hinv' hev, fun a ha _ => ⟨ha, congrFun hev.page a⟩⟩
  | shrink c =>
    obtain ⟨L', hinv', hev⟩ := shrink_spec hinv c
    exact ⟨Ok.evicts hpinned hL hinv' hev, fun a ha _ => ⟨ha, congrFun hev.page a⟩⟩
  | fetch c k createFlag memory =>
    rcases hr : s.pcache1Fetch c k createFlag memory with ⟨r, s'⟩
    have hspec := fetch_spec hinv hlegal k createFlag memory hr
    rw [step, hr]
    rcases hspec with ⟨rfl, -, L', hinv', hev⟩ | ⟨a, L', rfl, hinv', hf, hfind⟩
    · exact ⟨Ok.evicts hpinned hL hinv' hev, fun a ha _ => ⟨ha, congrFun hev.page a⟩⟩
    · refine ⟨Ok.fetched hpinned hL hinv' hf, fun x hx _ => ⟨Finset.mem_insert_of_mem hx, ?_⟩⟩
      rcases eq_or_ne x a with rfl | hne
      · rcases hfind with hfind | ⟨-, hin | hout⟩
        · obtain ⟨-, hcache, hkey⟩ := (find_eq_some_iff hinv.tables hlegal).mp hfind
          refine hf.key.trans ?_
          rw [← hcache, ← hkey]
        · exact absurd hin (hfree x hx)
        · exact absurd (hpinned hx) hout
      · exact hf.page x hne
  | unpin c a reuseUnlikely =>
    obtain ⟨haP, hcache⟩ := hlegal
    obtain ⟨L', hinv', hpage, -, hor⟩ :=
      unpin_spec hinv (hpinned haP) (hfree a haP) hcache reuseUnlikely
    refine ⟨⟨fun x hx => ?_, L', hinv', fun x => ?_⟩, fun x hx hown => ⟨?_, congrFun hpage x⟩⟩
    · obtain ⟨hne, hxP⟩ := Finset.mem_erase.mp hx
      rcases hor with ⟨hpages, -⟩ | ⟨hpages, -⟩
      · exact hpages ▸ Finset.mem_erase_of_ne_of_mem hne (hpinned hxP)
      · exact hpages ▸ hpinned hxP
    · show x ∈ L' ↔ x ∈ (s.pcache1Unpin c a reuseUnlikely).pages ∧ x ∉ P.erase a
      rw [Finset.mem_erase]
      rcases hor with ⟨hpages, rfl⟩ | ⟨hpages, rfl⟩
      · rw [hpages, hL, Finset.mem_erase]
        refine ⟨fun ⟨hx, hnot⟩ => ⟨⟨?_, hx⟩, fun hin => hnot hin.2⟩, fun ⟨⟨hne, hx⟩, hnot⟩ => ?_⟩
        · rintro rfl
          exact hnot haP
        · exact ⟨hx, fun hin => hnot ⟨hne, hin⟩⟩
      · rw [hpages, List.mem_cons, hL]
        constructor
        · rintro (rfl | ⟨hx, hnot⟩)
          · exact ⟨hpinned haP, fun hin => hin.1 rfl⟩
          · exact ⟨hx, fun hin => hnot hin.2⟩
        · rintro ⟨hx, hnot⟩
          rcases eq_or_ne x a with rfl | hne
          · exact Or.inl rfl
          · exact Or.inr ⟨hx, fun hin => hnot ⟨hne, hin⟩⟩
    · exact Finset.mem_erase_of_ne_of_mem (fun heq => hown heq.symm) hx
  | rekey c a kOld k =>
    obtain ⟨hat, hc, hold, hk⟩ := hlegal
    obtain ⟨ha, hcache⟩ := (hinv.tables.mem_table hc).mp hat
    have hunused : ∀ x ∈ s.pages, (s.page x).pCache = c → (s.page x).iKey ≠ k :=
      fun x hx hxc => hk x ((hinv.tables.mem_table hc).mpr ⟨hx, hxc⟩)
    have hinv' := rekey_spec hinv ha hold hcache hunused
    refine ⟨⟨hpinned, L, hinv', hL⟩, fun x hx hown => ⟨hx, ?_⟩⟩
    show (s.pcache1Rekey c a kOld k).page x = s.page x
    rw [rekey_page, Function.update_of_ne fun heq => hown heq.symm]
  | truncate c k =>
    obtain ⟨L', hinv', hpage, -, hpages, hlru⟩ := truncate_spec hinv hlegal k
    refine ⟨⟨fun x hx => ?_, L', hinv', fun x => ?_⟩, fun x hx hown => ⟨?_, congrFun hpage x⟩⟩
    · obtain ⟨hxP, hnot⟩ := Finset.mem_filter.mp hx
      exact (hpages x).mpr ⟨hpinned hxP, hnot⟩
    · show x ∈ L' ↔ x ∈ (s.pcache1Truncate c k).pages ∧ x ∉ P.filter fun a => ¬s.From c k a
      rw [hlru, hL, hpages, Finset.mem_filter, PGroup.From]
      tauto
    · exact Finset.mem_filter.mpr ⟨hx, hown⟩
  | destroy c =>
    obtain ⟨L', hinv', hpage, -, hpages, hlru, hkeeps, hstays⟩ := destroy_spec hinv hlegal
    refine ⟨⟨fun x hx => ?_, L', hinv', fun x => ?_⟩, fun x hx hown => ⟨?_, congrFun hpage x⟩⟩
    · obtain ⟨hxP, hne⟩ := Finset.mem_filter.mp hx
      exact hkeeps x (hpinned hxP) (hfree x hxP) hne
    · show x ∈ L' ↔ x ∈ (s.pcache1Destroy c).pages ∧ x ∉ P.filter fun a => (s.page a).pCache ≠ c
      rw [Finset.mem_filter]
      constructor
      · exact fun hx => ⟨hinv'.lru.sub x hx, fun hin => ((hL x).mp (hlru hx)).2 hin.1⟩
      · rintro ⟨hx, hnot⟩
        obtain ⟨hxs, hne⟩ := hpages x hx
        exact hstays x hx ((hL x).mpr ⟨hxs, fun hin => hnot ⟨hin, hne⟩⟩)
    · exact Finset.mem_filter.mpr ⟨hx, hown⟩

/-- **`pcache1Fetch`** gives the page with the key if there is one, and else one that is not in use. -/
theorem step_fetches (h : Ok g) (hc : c ∈ g.group.caches) (k : UInt32) (createFlag : ℕ)
    (memory : PGroup.Memory) :
    Fetches g c k (g.group.pcache1Fetch c k createFlag memory).1
      (step g (.fetch c k createFlag memory)) := by
  obtain ⟨s, P⟩ := g
  obtain ⟨hpinned, L, hinv, hL⟩ := h
  have htable := fun a => hinv.tables.mem_table (a := a) hc
  rcases hr : s.pcache1Fetch c k createFlag memory with ⟨r, s'⟩
  have hspec := fetch_spec hinv hc k createFlag memory hr
  rw [step, hr]
  rcases hspec with ⟨rfl, hfind, -⟩ | ⟨a, L', rfl, hinv', hf, hfind⟩
  · refine ⟨fun a ha hkey => ?_, fun a hnone => absurd hnone (Option.some_ne_none a).symm⟩
    obtain ⟨haP, hcache⟩ := (htable a).mp ha
    exact absurd hkey ((find_eq_none_iff hinv.tables hc).mp hfind a haP hcache)
  · constructor
    · intro b hb hkey
      obtain ⟨hbP, hcache⟩ := (htable b).mp hb
      have hb := (find_eq_some_iff hinv.tables hc).mpr ⟨hbP, hcache, hkey⟩
      rcases hfind with hfind | ⟨hfind, -⟩
      · exact hfind.symm.trans hb
      · exact absurd (hfind.symm.trans hb) (Option.some_ne_none b).symm
    · intro b heq
      obtain rfl := Option.some.inj heq
      refine ⟨Finset.mem_insert_self a P, hf.key, fun hnone haP => ?_⟩
      rcases hfind with hfind | ⟨-, hin | hout⟩
      · obtain ⟨hmem, hcache, hkey⟩ := (find_eq_some_iff hinv.tables hc).mp hfind
        exact hnone a ((htable a).mpr ⟨hmem, hcache⟩) hkey
      · exact ((hL a).mp hin).2 haP
      · exact hout (hpinned haP)

/-! ### Runs -/

/-- The group after `pcache1Init`. -/
def init : Held := ⟨pcache1Init, ∅⟩

/-- A run whose calls are all legal. -/
def LegalRun (calls : List Call) : Prop := Run.EveryStep step (fun g call => call.Legal g) init calls

theorem ok_run {calls : List Call} (h : LegalRun calls) : Ok (Run.last step init calls) := by
  refine Run.last_of_invariant (P := Ok) (fun g call hok hlegal => ?_) ok_init h
  exact (step_keeps hok call hlegal).1

/-- **The page cache never loses, duplicates or moves a page in use.** After any legal run the tables,
the list and the counters are right, and the next call keeps the pages in use; a fetch gives the page
with the key if there is one. -/
theorem pcache1_run (calls : List Call) (h : LegalRun calls) :
    Sound (Run.last step init calls) ∧
      ∀ call, Call.Legal (Run.last step init calls) call →
        Keeps (Run.last step init calls) call (step (Run.last step init calls) call) ∧
          ∀ c k createFlag memory, call = .fetch c k createFlag memory →
            Fetches (Run.last step init calls) c k
              ((Run.last step init calls).group.pcache1Fetch c k createFlag memory).1
              (step (Run.last step init calls) call) := by
  have hok := ok_run h
  refine ⟨hok.sound, fun call hlegal => ⟨(step_keeps hok call hlegal).2, ?_⟩⟩
  rintro c k createFlag memory rfl
  exact step_fetches hok hlegal k createFlag memory

/-- A page of one cache is unpinned. -/
def unpinned : List Call :=
  [.create 512 8 true (some 0), .create 512 8 true (some 1), .cachesize 0 20, .cachesize 1 1,
    .fetch 0 7 2 ⟨true, some 100, false, false⟩, .unpin 0 100 false]

/-- Another cache takes the page over. -/
theorem pcache1_run_unpinned :
    Sound (Run.last step init unpinned) ∧
      Fetches (Run.last step init unpinned) 1 9 (some 100)
        (step (Run.last step init unpinned) (.fetch 1 9 2 ⟨true, none, false, false⟩)) := by
  have hlegal : LegalRun unpinned := by
    refine ⟨?_, ?_, ?_, ?_, ?_, ?_, trivial⟩ <;> · show Call.Legal _ _; decide
  obtain ⟨hsound, hstep⟩ := pcache1_run unpinned hlegal
  have hfetch := hstep (.fetch 1 9 2 ⟨true, none, false, false⟩) (by decide)
  exact ⟨hsound, hfetch.2 1 9 2 ⟨true, none, false, false⟩ rfl⟩

end Pcache1

end SqliteVms

import SqliteVms.Btree.IntegritySound

/-!
# The integrity check of a whole file

The places where pages are named are collected along the run of the checker: first those of the
free list, then those of each tree. When nothing was reported, the pages they name are distinct,
and the loop at the end shows that they are all the pages there are.

## Main results

* `accounted_of_clean` — what a run without a message shows
* `sound_iff_unchecked` — a file with no message is sound exactly if `Unchecked` holds of it
-/

namespace SqliteVms

namespace Btree

open BigEndian

variable {g : Geom} {db : Db} {aRoot : List ℕ}

/-! ### The parts of the check -/

variable (aRoot) in
theorem batch_checkFreeList (h : (checkFreeList g db).errMsg = []) :
    ∃ E, Batch g db aRoot (initialCk g db) (checkFreeList g db) E ∧
      ∀ k q, (freeListing db)[k]? = some q → q ≠ 0 → (Site.free k, q) ∈ E := by
  refine ⟨(enumerate Site.free (freeListing db)).filter fun e => e.2 ≠ 0,
    Batch.of_grows ?_ ?_ ?_, ?_⟩
  · have hgrows := checkListLoop_free h
    have hmap : ((enumerate Site.free (freeListing db)).filter fun e => e.2 ≠ 0).map Prod.snd
        = (freeListing db).filter (· ≠ 0) := by
      conv_rhs => rw [← map_snd_enumerate Site.free (freeListing db), List.filter_map]
      rfl
    rw [hmap]
    exact hgrows
  · rintro ⟨s, q⟩ he
    obtain ⟨k, hk, rfl⟩ := mem_enumerate.mp (List.mem_filter.mp he).1
    exact hk
  · rintro ⟨s, q⟩ he
    obtain ⟨k, hk, rfl⟩ := mem_enumerate.mp (List.mem_filter.mp he).1
    exact id
  · intro k q hk h0
    exact List.mem_filter.mpr ⟨mem_enumerate.mpr ⟨k, hk, rfl⟩, by simpa using h0⟩

theorem batch_checkRoot {k r : ℕ} (hk : aRoot[k]? = some r) {ck : IntegrityCk}
    (h : (checkRoot g db ck r).errMsg = []) :
    ∃ E, Batch g db aRoot ck (checkRoot g db ck r) E ∧ (r ≠ 0 → (Site.root k, r) ∈ E) ∧
      ∃ depth, ∀ d, LeafDepth g db r false d → d + 1 = depth := by
  rw [checkRoot] at h ⊢
  rcases eq_or_ne r 0 with h0 | h0
  · rw [if_pos h0]
    refine ⟨[], Batch.nil ck, fun hne => absurd h0 hne, 0, fun d hd => ?_⟩
    cases hd with
    | leaf hne => exact absurd h0 hne
    | cell hne => exact absurd h0 hne
  · rw [if_neg h0] at h ⊢
    dsimp only at h ⊢
    have hmap : (if 1 < r then checkPtrmap g db ck r ptrmapRootpage 0 else ck) = ck := by
      have hclean := (ran_checkTreePage (g := g) (db.nPage + 1) _ r none none).clean h
      split at hclean
      · rename_i hlt
        rw [if_pos hlt, checkPtrmap_clean hclean]
      · rename_i hlt
        rw [if_neg hlt]
    rw [hmap] at h ⊢
    have hrefers : r ≠ 0 → r ≤ db.nPage →
        Refers g db aRoot (overflowPages g) (.root k) r ∧ TreePage g db aRoot r := fun h0 hle =>
      ⟨hk, .root (List.mem_of_getElem? hk) h0 hle⟩
    obtain ⟨⟨E, hE, hmem⟩, hdepth⟩ :=
      treeSpec_checkTreePage (db.nPage + 1) ck r none none (.root k) trivial hrefers h
    exact ⟨E, hE, hmem, _, hdepth⟩

theorem batch_foldl_checkRoot {pre rs : List ℕ} (hroots : aRoot = pre ++ rs) {ck : IntegrityCk}
    (h : (rs.foldl (checkRoot g db) ck).errMsg = []) :
    ∃ E, Batch g db aRoot ck (rs.foldl (checkRoot g db) ck) E ∧
      (∀ k r, rs[k]? = some r → r ≠ 0 → (Site.root (pre.length + k), r) ∈ E) ∧
      ∀ r ∈ rs, ∃ depth, ∀ d, LeafDepth g db r false d → d + 1 = depth := by
  induction rs generalizing pre ck with
  | nil => exact ⟨[], Batch.nil ck, by simp, by simp⟩
  | cons r rs ih =>
    rw [List.foldl_cons] at h ⊢
    have hran : Ran db (db.nPage + 1) (checkRoot g db ck r)
        (rs.foldl (checkRoot g db) (checkRoot g db ck r)) :=
      ran_foldl (fun ck root => ran_checkRoot root ck) rs _
    have hk : aRoot[pre.length]? = some r := by
      rw [hroots, List.getElem?_append_right le_rfl, Nat.sub_self, List.getElem?_cons_zero]
    obtain ⟨E, hE, hmem, hdepth⟩ := batch_checkRoot hk (hran.clean h)
    have hroots' : aRoot = (pre ++ [r]) ++ rs := by rw [hroots, List.append_assoc]; rfl
    obtain ⟨F, hF, hmems, hdepths⟩ := ih hroots' h
    refine ⟨E ++ F, hE.append hF, fun k q hq h0 => ?_, fun q hq => ?_⟩
    · cases k with
      | zero =>
        obtain rfl : r = q := by simpa using hq
        exact List.mem_append_left _ (hmem h0)
      | succ k =>
        have := hmems k q (by simpa using hq) h0
        rw [List.length_append, List.length_singleton, Nat.add_assoc, Nat.add_comm 1 k] at this
        exact List.mem_append_right _ this
    · rcases List.mem_cons.mp hq with rfl | hq
      · exact hdepth
      · exact hdepths q hq

theorem checkMet_clean {ck : IntegrityCk} {q : ℕ} (h : (checkMet g ck q).errMsg = []) :
    checkMet g ck q = ck ∧
      (ck.aPgRef q = true ↔ ¬ (g.autoVacuum = true ∧ isPtrmapPage g q = true)) := by
  rw [checkMet] at h ⊢
  split at h
  · exact absurd h (append_errMsg_ne_nil _ _)
  rename_i hunused
  rw [if_neg hunused]
  split at h
  · exact absurd h (append_errMsg_ne_nil _ _)
  rename_i hmap
  rw [if_neg hmap]
  refine ⟨rfl, ?_⟩
  rw [← Bool.and_eq_true]
  generalize ck.aPgRef q = met at hunused hmap ⊢
  generalize (g.autoVacuum && isPtrmapPage g q) = isMap at hunused hmap ⊢
  revert hunused hmap
  decide +revert

theorem foldl_checkMet_clean {ck : IntegrityCk} {qs : List ℕ}
    (h : (qs.foldl (checkMet g) ck).errMsg = []) :
    qs.foldl (checkMet g) ck = ck ∧ ∀ q ∈ qs,
      (ck.aPgRef q = true ↔ ¬ (g.autoVacuum = true ∧ isPtrmapPage g q = true)) := by
  induction qs generalizing ck with
  | nil => exact ⟨rfl, by simp⟩
  | cons q qs ih =>
    rw [List.foldl_cons] at h ⊢
    obtain ⟨heq, hall⟩ := ih h
    rw [heq] at h ⊢
    obtain ⟨hsame, hq⟩ := checkMet_clean h
    rw [hsame] at hall ⊢
    refine ⟨rfl, fun x hx => ?_⟩
    rcases List.mem_cons.mp hx with rfl | hx
    · exact hq
    · exact hall x hx

/-! ### All the places -/

/-- `E` has all the places that name a page, with the page, and the pages are those that are to be
named, each once. -/
structure Accounted (g : Geom) (db : Db) (aRoot : List ℕ) (E : List (Site × ℕ)) : Prop where
  nodup : (E.map Prod.snd).Nodup
  refers : ∀ e ∈ E, Refers g db aRoot (overflowPages g) e.1 e.2
  complete : ∀ s q, Refers g db aRoot (overflowPages g) s q → q ≠ 0 → (s, q) ∈ E
  range : ∀ e ∈ E, e.2 ≠ 0 ∧ e.2 ≤ db.nPage
  used : ∀ q, 1 ≤ q → q ≤ db.nPage → (q ∈ E.map Prod.snd ↔ ¬ Reserved g q)
  covered : ∀ p, TreePage g db aRoot p →
    ∃ m, btreeInitPage g p (db.page p) = some m ∧ Covered g m
  chains : ∀ p, TreePage g db aRoot p → ∀ i info first, Overflows g db p i info first →
    ∀ k q, (chainPages db (overflowPages g info) first)[k]? = some q → (Site.ovfl p i k, q) ∈ E
  depth : ∀ r ∈ aRoot, ∃ depth, ∀ d, LeafDepth g db r false d → d + 1 = depth

/-- A batch with the roots has all tree pages. -/
theorem Batch.mem_of_treePage {ck ck' : IntegrityCk} {E : List (Site × ℕ)}
    (h : Batch g db aRoot ck ck' E)
    (hroot : ∀ k r, aRoot[k]? = some r → r ≠ 0 → (Site.root k, r) ∈ E) {p : ℕ}
    (hp : TreePage g db aRoot p) : ∃ s : Site, s.IsTree ∧ (s, p) ∈ E := by
  induction hp with
  | root hmem h0 hle =>
    obtain ⟨k, hk⟩ := List.getElem?_of_mem hmem
    exact ⟨.root k, trivial, hroot k _ hk h0⟩
  | child hp hc h0 hle ih =>
    obtain ⟨s, hs, hmem⟩ := ih
    exact ⟨.child _ _, trivial, h.children _ hmem hs _ _ hc h0⟩

/-- **What a run without a message shows.** -/
theorem accounted_of_clean (hn : db.nPage ≠ 0)
    (h : (sqlite3BtreeIntegrityCheck g db aRoot).errMsg = []) :
    ∃ E, Accounted g db aRoot E := by
  rw [sqlite3BtreeIntegrityCheck, if_neg hn] at h
  obtain ⟨hsame, hmet⟩ := foldl_checkMet_clean h
  rw [hsame] at h
  have hran : Ran db (db.nPage + 1) (checkFreeList g db)
      (aRoot.foldl (checkRoot g db) (checkFreeList g db)) :=
    ran_foldl (fun ck root => ran_checkRoot root ck) aRoot _
  obtain ⟨E, hE, hfree⟩ := batch_checkFreeList aRoot (hran.clean h)
  obtain ⟨F, hF, hroots, hdepth⟩ := batch_foldl_checkRoot (List.nil_append aRoot).symm h
  have hbatch := hE.append hF
  have htree : ∀ p, TreePage g db aRoot p → ∃ s : Site, s.IsTree ∧ (s, p) ∈ E ++ F := fun p hp =>
    hbatch.mem_of_treePage (fun k r hk h0 => List.mem_append_right _ (by simpa using hroots k r hk h0))
      hp
  refine ⟨E ++ F, hbatch.grows.nodup, hbatch.refers, ?_, fun e he => ?_, fun q h1 hle => ?_,
    fun p hp => ?_, fun p hp i info first hov k q hk => ?_, hdepth⟩
  · rintro (k | k | ⟨p, i⟩ | ⟨p, i, k⟩) q hq h0
    · exact List.mem_append_left _ (hfree k q hq h0)
    · exact List.mem_append_right _ (by simpa using hroots k q hq h0)
    · obtain ⟨s, hs, hmem⟩ := htree p hq.1
      exact hbatch.children _ hmem hs i q hq.2 h0
    · obtain ⟨hp, info, first, hov, hk⟩ := hq
      obtain ⟨s, hs, hmem⟩ := htree p hp
      exact hbatch.chains _ hmem hs i info first hov k q hk
  · exact hbatch.grows.range e.2 (List.mem_map_of_mem he)
  · -- the locking page is marked before the check, so it is not met
    have hq := hmet q (List.mem_range'_1.mpr ⟨h1, by omega⟩)
    have hinit : (initialCk g db).aPgRef q = true ↔ q = pendingBytePage g := by
      simp [initialCk, hle]
    have hgrown := hbatch.grows.met q
    rw [hinit] at hgrown
    rw [Reserved, not_or, ← hq, hgrown]
    refine ⟨fun hmem => ⟨fun heq => ?_, Or.inr hmem⟩, fun hor => hor.2.resolve_left hor.1⟩
    have hfresh := hbatch.grows.fresh q hmem
    rw [hinit.mpr heq] at hfresh
    exact Bool.noConfusion hfresh
  · obtain ⟨s, hs, hmem⟩ := htree p hp
    exact hbatch.covered _ hmem hs
  · obtain ⟨s, hs, hmem⟩ := htree p hp
    exact hbatch.chains _ hmem hs i info first hov k q hk

namespace Accounted

variable {E : List (Site × ℕ)} (hE : Accounted g db aRoot E)
include hE

/-- A page is named in one place of `E` at most. -/
theorem site_unique {s s' : Site} {q : ℕ} (h : (s, q) ∈ E) (h' : (s', q) ∈ E) : s = s' := by
  have := List.inj_on_of_nodup_map hE.nodup h h' rfl
  exact congrArg Prod.fst this

theorem exists_site {q : ℕ} (h1 : 1 ≤ q) (hle : q ≤ db.nPage) (hres : ¬ Reserved g q) :
    ∃ s, (s, q) ∈ E := by
  obtain ⟨⟨s, q'⟩, hmem, rfl⟩ := List.mem_map.mp ((hE.used q h1 hle).mpr hres)
  exact ⟨s, hmem⟩

theorem not_reserved {s : Site} {q : ℕ} (h : (s, q) ∈ E) : ¬ Reserved g q := by
  obtain ⟨h0, hle⟩ := hE.range _ h
  exact (hE.used q (Nat.one_le_iff_ne_zero.mpr h0) hle).mp (List.mem_map_of_mem h)

end Accounted

/-! ### Chains -/

theorem getElem?_chainPages {n i k q : ℕ} :
    (chainPages db n i)[k]? = some q ↔ k < n ∧ chainEnd db k i = q := by
  induction n generalizing i k with
  | zero => simp [chainPages]
  | succ n ih =>
    cases k with
    | zero => simp [chainPages, chainEnd]
    | succ k => rw [chainPages, List.getElem?_cons_succ, ih, chainEnd, Nat.succ_lt_succ_iff]

theorem overflowPages_eq {info : CellInfo}
    (h : info.nPayload - info.nLocal + g.usableSize - 5 < 2 ^ 32) :
    overflowPages g info = requiredPages g info := by
  rw [overflowPages, Nat.mod_eq_of_lt h, requiredPages]

theorem overflowPages_le (info : CellInfo) : overflowPages g info ≤ requiredPages g info :=
  Nat.div_le_div_right (Nat.mod_le _ _)

/-- Where the number of overflow pages wraps, it comes out too small. -/
theorem overflowPages_lt {info : CellInfo}
    (h : 2 ^ 32 ≤ info.nPayload - info.nLocal + g.usableSize - 5) :
    overflowPages g info < requiredPages g info := by
  have hle := g.usable_le
  have hpage := g.page_le
  have hge := g.usable_ge
  rw [overflowPages, requiredPages]
  generalize info.nPayload - info.nLocal + g.usableSize - 5 = x at h ⊢
  have hmod : x % 2 ^ 32 + (g.usableSize - 4) ≤ x := by
    have hdiv := Nat.mod_add_div x (2 ^ 32)
    have hpos : 1 ≤ x / 2 ^ 32 := (Nat.one_le_div_iff (by norm_num)).mpr h
    omega
  calc x % 2 ^ 32 / (g.usableSize - 4)
      < x % 2 ^ 32 / (g.usableSize - 4) + 1 := Nat.lt_succ_self _
    _ = (x % 2 ^ 32 + (g.usableSize - 4)) / (g.usableSize - 4) :=
        (Nat.add_div_right _ (by omega)).symm
    _ ≤ x / (g.usableSize - 4) := Nat.div_le_div_right hmod

theorem overflows_unique {p i : ℕ} {info info' : CellInfo} {first first' : ℕ}
    (h : Overflows g db p i info first) (h' : Overflows g db p i info' first') :
    info = info' ∧ first = first' := by
  obtain ⟨m, hm, -, rfl, -, rfl⟩ := h
  obtain ⟨-, rfl, -, rfl⟩ := (overflows_iff hm).mp h'
  exact ⟨rfl, rfl⟩

/-- What the checker takes to name a page does name it. -/
theorem Refers.required {s : Site} {q : ℕ} (h : Refers g db aRoot (overflowPages g) s q) :
    Refers g db aRoot (requiredPages g) s q := by
  rcases s with k | k | ⟨p, i⟩ | ⟨p, i, k⟩
  · exact h
  · exact h
  · exact h
  · obtain ⟨hp, info, first, hov, hk⟩ := h
    rw [getElem?_chainPages] at hk
    exact ⟨hp, info, first, hov,
      getElem?_chainPages.mpr ⟨hk.1.trans_le (overflowPages_le info), hk.2⟩⟩

/-- When no number of overflow pages wraps, the checker looks at all places. -/
theorem Refers.of_required (hchains : ∀ p i info first, TreePage g db aRoot p →
      Overflows g db p i info first → info.nPayload - info.nLocal + g.usableSize - 5 < 2 ^ 32)
    {s : Site} {q : ℕ} (h : Refers g db aRoot (requiredPages g) s q) :
    Refers g db aRoot (overflowPages g) s q := by
  rcases s with k | k | ⟨p, i⟩ | ⟨p, i, k⟩
  · exact h
  · exact h
  · exact h
  · obtain ⟨hp, info, first, hov, hk⟩ := h
    rw [← overflowPages_eq (hchains p i info first hp hov)] at hk
    exact ⟨hp, info, first, hov, hk⟩

/-! ### The file -/

namespace Accounted

variable {E : List (Site × ℕ)} (hE : Accounted g db aRoot E)
include hE

theorem exactlyCovered_iff {p : ℕ} {m : MemPage} (hp : TreePage g db aRoot p)
    (hm : btreeInitPage g p (db.page p) = some m) :
    ExactlyCovered g m ↔ ∀ j < g.usableSize, hitCount g m j < 128 := by
  obtain ⟨m', hm', hcov⟩ := hE.covered p hp
  obtain rfl := Option.some.inj (hm.symm.trans hm')
  exact hcov.exactly

theorem sound (h : Unchecked g db aRoot) : Sound g db aRoot := by
  have hchains : ∀ p i info first, TreePage g db aRoot p → Overflows g db p i info first →
      info.nPayload - info.nLocal + g.usableSize - 5 < 2 ^ 32 :=
    fun p i info first hp hov => (h.chains p i info first hp hov).1
  refine ⟨fun q h1 hle hres => ?_, fun q h1 hle hres s hs => ?_,
    fun p m hp hm => (hE.exactlyCovered_iff hp hm).mpr (h.counters p m hp hm),
    fun p hp hle r d r' d' hd hd' => ?_, fun p i info first hp hov => ⟨fun q hq => ?_, ?_⟩⟩
  · obtain ⟨s, hmem⟩ := hE.exists_site h1 hle hres
    refine ⟨s, (hE.refers _ hmem).required, fun s' hs' => ?_⟩
    exact hE.site_unique (hE.complete s' q (Refers.of_required hchains hs') (by omega)) hmem
  · have hmem := hE.complete s q (Refers.of_required hchains hs) (by omega)
    exact hE.not_reserved hmem hres
  · -- only leaves reached without a right-most child were compared
    cases r with
    | true => exact h.rightDepth p hp hle d r' d' hd hd'
    | false =>
      cases r' with
      | true => exact (h.rightDepth p hp hle d' false d hd' hd).symm
      | false =>
        obtain ⟨depth, hdepth⟩ := hE.depth p hp
        have := hdepth d hd
        have := hdepth d' hd'
        omega
  · obtain ⟨k, hk⟩ := List.getElem?_of_mem hq
    rw [← overflowPages_eq (hchains p i info first hp hov)] at hk
    obtain ⟨h0, hle⟩ := hE.range _ (hE.chains p hp i info first hov k q hk)
    exact ⟨Nat.one_le_iff_ne_zero.mpr h0, hle⟩
  · exact (h.chains p i info first hp hov).2

/-- In a sound file no number of overflow pages wraps: the checker would have left out a page of
the chain, and that page would be named twice. -/
theorem lt_of_sound (h : Sound g db aRoot) {p i : ℕ} {info : CellInfo} {first : ℕ}
    (hp : TreePage g db aRoot p) (hov : Overflows g db p i info first) :
    info.nPayload - info.nLocal + g.usableSize - 5 < 2 ^ 32 := by
  by_contra hwrap
  have hlt := overflowPages_lt (not_lt.mp hwrap)
  have hk : (chainPages db (requiredPages g info) first)[overflowPages g info]?
      = some (chainEnd db (overflowPages g info) first) := getElem?_chainPages.mpr ⟨hlt, rfl⟩
  generalize chainEnd db (overflowPages g info) first = q at hk
  obtain ⟨h1, hle⟩ := (h.chains p i info first hp hov).1 q (List.mem_of_getElem? hk)
  have hrefers : Refers g db aRoot (requiredPages g) (.ovfl p i (overflowPages g info)) q :=
    ⟨hp, info, first, hov, hk⟩
  have hres : ¬ Reserved g q := fun hres => h.reserved q h1 hle hres _ hrefers
  obtain ⟨s, hmem⟩ := hE.exists_site h1 hle hres
  have hs := hE.refers _ hmem
  obtain rfl : s = _ := (h.named_once q h1 hle hres).unique hs.required hrefers
  obtain ⟨-, info', first', hov', hk'⟩ := hs
  obtain ⟨rfl, rfl⟩ := overflows_unique hov hov'
  exact lt_irrefl _ (getElem?_chainPages.mp hk').1

theorem unchecked (h : Sound g db aRoot) : Unchecked g db aRoot :=
  ⟨fun p m hp hm => (hE.exactlyCovered_iff hp hm).mp (h.covered p m hp hm),
    fun p hp hle d r' d' => h.depth p hp hle true d r' d',
    fun p i info first hp hov => ⟨hE.lt_of_sound h hp hov, (h.chains p i info first hp hov).2⟩⟩

end Accounted

theorem not_treePage_of_empty (h : db.nPage = 0) {p : ℕ} : ¬ TreePage g db aRoot p := by
  intro hp
  cases hp with
  | root _ h0 hle => omega
  | child _ _ h0 hle => omega

theorem not_leafDepth_of_empty (h : db.nPage = 0) {p : ℕ} (hle : p ≤ db.nPage) {r : Bool} {d : ℕ} :
    ¬ LeafDepth g db p r d := by
  intro hd
  cases hd with
  | leaf h0 => omega
  | cell h0 => omega
  | right h0 => omega

/-- **A file with no message is sound exactly if nothing is wrong in the part the checker does not
look at.** -/
theorem sound_iff_unchecked (h : (sqlite3BtreeIntegrityCheck g db aRoot).errMsg = []) :
    Sound g db aRoot ↔ Unchecked g db aRoot := by
  rcases eq_or_ne db.nPage 0 with hn | hn
  · have htree : ∀ p, ¬ TreePage g db aRoot p := fun p => not_treePage_of_empty hn
    refine iff_of_true ⟨fun q h1 hle => by omega, fun q h1 hle => by omega,
      fun p m hp => absurd hp (htree p), fun p _ hle r d r' d' hd => ?_,
      fun p i info first hp => absurd hp (htree p)⟩
      ⟨fun p m hp => absurd hp (htree p), fun p _ hle d r' d' hd => ?_,
        fun p i info first hp => absurd hp (htree p)⟩
    · exact absurd hd (not_leafDepth_of_empty hn hle)
    · exact absurd hd (not_leafDepth_of_empty hn hle)
  · obtain ⟨E, hE⟩ := accounted_of_clean hn h
    exact ⟨hE.unchecked, hE.sound⟩

/-! ### Two files -/

/-- Pages of 512 bytes, without auto-vacuum. -/
def plainGeom : Geom where
  pageSize := 512
  usableSize := 512
  autoVacuum := false
  secureDelete := false
  mxPgno := 1000
  usable_ge := usable_512
  usable_le := self_512
  page_le := max_512
  page_pow := pow_512
  mxPgno_lt := lt_1000

/-- The root has the leaves 2 and 3. The cell of leaf 2 goes on in page 4, and page 5 is free. -/
def twoLevels : Db where
  nPage := 5
  page := fun p i =>
    if p = 1 then
      if i = 35 then 5 else if i = 39 then 1 else if i = 100 then 0x05 else if i = 104 then 1
      else if i = 105 then 1 else if i = 106 then 0xfb else if i = 111 then 3 else if i = 112 then 1
      else if i = 113 then 0xfb else if i = 510 then 2 else if i = 511 then 1 else 0
    else if p = 2 then
      if i = 0 then 0x0d else if i = 4 then 1 else if i = 5 then 1 else if i = 6 then 0xd2
      else if i = 8 then 1 else if i = 9 then 0xd2 else if i = 466 then 0x83
      else if i = 467 then 0x74 else if i = 468 then 1 else if i = 511 then 4 else 0
    else if p = 3 then
      if i = 0 then 0x0d else if i = 4 then 1 else if i = 5 then 1 else if i = 6 then 0xfc
      else if i = 8 then 1 else if i = 9 then 0xfc else if i = 508 then 2 else if i = 509 then 2
      else 0
    else 0

/-- The pages of the tree: the children of the root, and the payload of the leaves. -/
theorem twoLevels_pages :
    (∃ m, btreeInitPage plainGeom 1 (twoLevels.page 1) = some m ∧ m.leaf = false ∧ m.nCell = 1 ∧
      get4 (cellAt plainGeom m 0) 0 = 2 ∧ get4 m.aData (m.hdrOffset + 8) = 3 ∧
      (btreeParseCellPtr plainGeom m (cellAt plainGeom m 0)).nPayload = 0 ∧
      (blocks plainGeom m).length = 1) ∧
    (∃ m, btreeInitPage plainGeom 2 (twoLevels.page 2) = some m ∧ m.leaf = true ∧ m.nCell = 1 ∧
      (btreeParseCellPtr plainGeom m (cellAt plainGeom m 0)).nPayload = 500 ∧
      (btreeParseCellPtr plainGeom m (cellAt plainGeom m 0)).nLocal = 39 ∧
      get4 (cellAt plainGeom m 0) (btreeParseCellPtr plainGeom m (cellAt plainGeom m 0)).iOverflow
        = 4 ∧ (blocks plainGeom m).length = 1) ∧
    ∃ m, btreeInitPage plainGeom 3 (twoLevels.page 3) = some m ∧ m.leaf = true ∧ m.nCell = 1 ∧
      (btreeParseCellPtr plainGeom m (cellAt plainGeom m 0)).nPayload = 2 ∧
      (btreeParseCellPtr plainGeom m (cellAt plainGeom m 0)).nLocal = 2 ∧
      (blocks plainGeom m).length = 1 := by
  have hget : ∀ {p : ℕ} {P : MemPage → Prop}
      (hsome : (btreeInitPage plainGeom p (twoLevels.page p)).isSome = true),
      P ((btreeInitPage plainGeom p (twoLevels.page p)).get hsome) →
      ∃ m, btreeInitPage plainGeom p (twoLevels.page p) = some m ∧ P m := fun hsome hP =>
    ⟨_, (Option.some_get hsome).symm, hP⟩
  refine ⟨hget (by decide +kernel) ?_, hget (by decide +kernel) ?_, hget (by decide +kernel) ?_⟩ <;>
    decide +kernel

theorem treePage_twoLevels {p : ℕ} (hp : TreePage plainGeom twoLevels [1] p) :
    p = 1 ∨ p = 2 ∨ p = 3 := by
  obtain ⟨⟨m₁, hm₁, hleaf₁, hcells₁, hleft, hright, -⟩, ⟨m₂, hm₂, hleaf₂, -⟩, m₃, hm₃, hleaf₃, -⟩ :=
    twoLevels_pages
  induction hp with
  | root hmem => exact Or.inl (List.mem_singleton.mp hmem)
  | @child p c i hp hc h0 hle ih =>
    rcases ih with rfl | rfl | rfl
    · simp only [childPtr, hm₁, hleaf₁, Bool.false_eq_true, if_false, hcells₁] at hc
      split at hc
      · obtain rfl : i = 0 := by omega
        rw [hleft, Option.some_inj] at hc
        exact Or.inr (Or.inl hc.symm)
      split at hc
      · rw [hright, Option.some_inj] at hc
        exact Or.inr (Or.inr hc.symm)
      · cases hc
    · simp only [childPtr, hm₂, hleaf₂, if_true] at hc
      cases hc
    · simp only [childPtr, hm₃, hleaf₃, if_true] at hc
      cases hc

theorem leafDepth_leaf {g : Geom} {db : Db} {p d : ℕ} {r : Bool} {m : MemPage}
    (hm : btreeInitPage g p (db.page p) = some m) (hleaf : m.leaf = true)
    (h : LeafDepth g db p r d) : d = 0 := by
  cases h with
  | leaf => rfl
  | cell _ hm' hf =>
    obtain rfl := Option.some.inj (hm.symm.trans hm')
    exact absurd (hleaf.symm.trans hf) (by decide)
  | right _ hm' hf =>
    obtain rfl := Option.some.inj (hm.symm.trans hm')
    exact absurd (hleaf.symm.trans hf) (by decide)

theorem leafDepth_twoLevels {d : ℕ} {r : Bool} (h : LeafDepth plainGeom twoLevels 1 r d) :
    d = 1 := by
  obtain ⟨⟨m₁, hm₁, hleaf₁, hcells₁, hleft, hright, -⟩, ⟨m₂, hm₂, hleaf₂, -⟩, m₃, hm₃, hleaf₃, -⟩ :=
    twoLevels_pages
  cases h with
  | leaf _ hm hleaf =>
    obtain rfl := Option.some.inj (hm₁.symm.trans hm)
    exact absurd (hleaf₁.symm.trans hleaf) (by decide)
  | @cell _ i _ m _ _ hm hleaf hi hd =>
    obtain rfl := Option.some.inj (hm₁.symm.trans hm)
    obtain rfl : i = 0 := by omega
    rw [hleft] at hd
    rw [leafDepth_leaf hm₂ hleaf₂ hd]
  | right _ hm hleaf hd =>
    obtain rfl := Option.some.inj (hm₁.symm.trans hm)
    rw [hright] at hd
    rw [leafDepth_leaf hm₃ hleaf₃ hd]

theorem hitCount_lt {g : Geom} {m : MemPage} (h : (blocks g m).length = 1) (j : ℕ) :
    hitCount g m j < 128 := by
  have hle : coverCount g m j ≤ (blocks g m).length := List.countP_le_length
  rw [hitCount]
  split <;> omega

theorem unchecked_twoLevels : Unchecked plainGeom twoLevels [1] := by
  obtain ⟨⟨m₁, hm₁, -, hcells₁, -, -, hpayload₁, hblocks₁⟩,
    ⟨m₂, hm₂, -, hcells₂, hpayload₂, hlocal₂, hfirst₂, hblocks₂⟩,
    m₃, hm₃, -, hcells₃, hpayload₃, hlocal₃, hblocks₃⟩ := twoLevels_pages
  refine ⟨fun p m hp hm j _ => ?_, fun p hp _ d r' d' hd hd' => ?_,
    fun p i info first hp hov => ?_⟩
  · rcases treePage_twoLevels hp with rfl | rfl | rfl
    · obtain rfl := Option.some.inj (hm₁.symm.trans hm)
      exact hitCount_lt hblocks₁ j
    · obtain rfl := Option.some.inj (hm₂.symm.trans hm)
      exact hitCount_lt hblocks₂ j
    · obtain rfl := Option.some.inj (hm₃.symm.trans hm)
      exact hitCount_lt hblocks₃ j
  · obtain rfl := List.mem_singleton.mp hp
    rw [leafDepth_twoLevels hd, leafDepth_twoLevels hd']
  · rcases treePage_twoLevels hp with rfl | rfl | rfl
    · obtain ⟨hi, rfl, hlt, -⟩ := (overflows_iff hm₁).mp hov
      obtain rfl : i = 0 := by omega
      omega
    · obtain ⟨hi, rfl, hlt, rfl⟩ := (overflows_iff hm₂).mp hov
      obtain rfl : i = 0 := by omega
      rw [requiredPages, hpayload₂, hlocal₂, hfirst₂]
      exact ⟨by decide, by decide +kernel⟩
    · obtain ⟨hi, rfl, hlt, -⟩ := (overflows_iff hm₃).mp hov
      obtain rfl : i = 0 := by omega
      omega

theorem sound_twoLevels :
    (sqlite3BtreeIntegrityCheck plainGeom twoLevels [1]).errMsg = [] ∧
      Sound plainGeom twoLevels [1] := by
  have hclean : (sqlite3BtreeIntegrityCheck plainGeom twoLevels [1]).errMsg = [] := by
    decide +kernel
  exact ⟨hclean, (sound_iff_unchecked hclean).mpr unchecked_twoLevels⟩

/-- The root has leaf 2 to its left, and to its right the interior page 3, which has no cell and has
leaf 4 to its right. -/
def unevenTree : Db where
  nPage := 4
  page := fun p i =>
    if p = 1 then
      if i = 100 then 0x05 else if i = 104 then 1 else if i = 105 then 1 else if i = 106 then 0xfb
      else if i = 111 then 3 else if i = 112 then 1 else if i = 113 then 0xfb
      else if i = 510 then 2 else if i = 511 then 9 else 0
    else if p = 3 then
      if i = 0 then 0x05 else if i = 5 then 2 else if i = 11 then 4 else 0
    else
      if i = 0 then 0x0d else if i = 5 then 2 else 0

/-- The pages of the tree: which are leaves, and the children of the others. -/
theorem unevenTree_pages :
    (∃ m, btreeInitPage plainGeom 1 (unevenTree.page 1) = some m ∧ m.leaf = false ∧ m.nCell = 1 ∧
      get4 (cellAt plainGeom m 0) 0 = 2 ∧ get4 m.aData (m.hdrOffset + 8) = 3) ∧
    (∃ m, btreeInitPage plainGeom 2 (unevenTree.page 2) = some m ∧ m.leaf = true) ∧
    (∃ m, btreeInitPage plainGeom 3 (unevenTree.page 3) = some m ∧ m.leaf = false ∧
      get4 m.aData (m.hdrOffset + 8) = 4) ∧
    ∃ m, btreeInitPage plainGeom 4 (unevenTree.page 4) = some m ∧ m.leaf = true := by
  have hget : ∀ {p : ℕ} {P : MemPage → Prop}
      (hsome : (btreeInitPage plainGeom p (unevenTree.page p)).isSome = true),
      P ((btreeInitPage plainGeom p (unevenTree.page p)).get hsome) →
      ∃ m, btreeInitPage plainGeom p (unevenTree.page p) = some m ∧ P m := fun hsome hP =>
    ⟨_, (Option.some_get hsome).symm, hP⟩
  refine ⟨hget (by decide +kernel) ?_, hget (by decide +kernel) ?_, hget (by decide +kernel) ?_,
    hget (by decide +kernel) ?_⟩ <;> decide +kernel

/-- Nothing is reported for this tree, and its leaves are not equally deep. -/
theorem unevenTree_clean_not_sound :
    (sqlite3BtreeIntegrityCheck plainGeom unevenTree [1]).errMsg = [] ∧
      ¬ Sound plainGeom unevenTree [1] := by
  refine ⟨by decide +kernel, fun h => ?_⟩
  obtain ⟨⟨m₁, hm₁, hleaf₁, hcells, hleft, hright₁⟩, ⟨m₂, hm₂, hleaf₂⟩, ⟨m₃, hm₃, hleaf₃, hright₃⟩,
    m₄, hm₄, hleaf₄⟩ := unevenTree_pages
  have hshort : LeafDepth plainGeom unevenTree 1 false 1 := by
    have h₂ : LeafDepth plainGeom unevenTree (get4 (cellAt plainGeom m₁ 0) 0) false 0 := by
      rw [hleft]
      exact .leaf (by decide) hm₂ hleaf₂
    exact .cell (by decide) hm₁ hleaf₁ (by omega) h₂
  have hlong : LeafDepth plainGeom unevenTree 1 true 2 := by
    have h₄ : LeafDepth plainGeom unevenTree (get4 m₃.aData (m₃.hdrOffset + 8)) false 0 := by
      rw [hright₃]
      exact .leaf (by decide) hm₄ hleaf₄
    have h₃ : LeafDepth plainGeom unevenTree (get4 m₁.aData (m₁.hdrOffset + 8)) true 1 := by
      rw [hright₁]
      exact .right (by decide) hm₃ hleaf₃ h₄
    exact .right (by decide) hm₁ hleaf₁ h₃
  exact absurd (h.depth 1 (by decide) (by decide) _ _ _ _ hshort hlong) (by decide)

end Btree

end SqliteVms

import SqliteVms.Sql.OrToIn

/-!
# The IN and the OR

The search ends with a column that is in every subterm, and of every subterm exactly one of the term
and its commuted copy is taken into the list. The IN is true when the OR is, where the collating
sequence of the comparison is the same in all subterms and in the IN.

## Main results

* `searchColumn_spec` — what the search has checked
* `exprAnalyzeOrTerm_represents` — every subterm is in the list once
* `or_iff_in` — the OR and the IN
* `not_forall_or_iff_in` — the collating sequences are not checked
-/

namespace SqliteVms

namespace Sql

namespace OrToIn

open Vdbe Comparison

variable {N : Type*} {tables B : Finset ℕ} {affinity : Column → Option Affinity}
  {ts : Flagged N tables affinity} {c : Column} {iCursor : Option ℕ}
  {t : OrTerm N tables affinity}
  {ds : List (OrTerm N tables affinity × Option (OrTerm N tables affinity))}

/-! ### Masks -/

theorem mem_getMask {i k : ℕ} : k ∈ getMask tables i ↔ i ∈ tables ∧ k = i := by
  rw [getMask]
  split_ifs with h
  · simp [h]
  · simp [h]

/-- A table with a bit in `chngToIN` has one in every subterm. -/
theorem mem_mask {d : OrTerm N tables affinity × Option (OrTerm N tables affinity)} (hd : d ∈ ds)
    {k : ℕ} (hk : k ∈ chngToIN ds) : k ∈ mask d := by
  have hfold : ∀ (B : Finset ℕ),
      k ∈ ds.foldl (fun b d => b ∩ mask d) B → k ∈ B ∧ ∀ d ∈ ds, k ∈ mask d := by
    clear hd hk
    induction ds with
    | nil => exact fun B h => ⟨h, fun d hd => absurd hd List.not_mem_nil⟩
    | cons e ds ih =>
      intro B h
      obtain ⟨hB, hds⟩ := ih _ h
      obtain ⟨hB, he⟩ := Finset.mem_inter.mp hB
      exact ⟨hB, List.forall_mem_cons.mpr ⟨he, hds⟩⟩
  exact (hfold tables hk).2 d hd

/-! ### The search -/

theorem skipTerms_map (B : Finset ℕ) (iCursor : Option ℕ) (ts : Flagged N tables affinity) :
    (skipTerms B iCursor ts).1.map Prod.fst ++
    (skipTerms B iCursor ts).2.map Prod.fst = ts.map Prod.fst := by
  induction ts with
  | nil => rfl
  | cons p ts ih =>
    rw [skipTerms]
    split
    · exact congrArg _ ih
    · rfl

theorem skipTerms_skipped (B : Finset ℕ) (iCursor : Option ℕ) (ts : Flagged N tables affinity) :
    ∀ p ∈ (skipTerms B iCursor ts).1, p.2 = false ∧
    (some p.1.left.1 = iCursor ∨ B ∩ getMask tables p.1.left.1 = ∅) := by
  induction ts with
  | nil => exact fun p hp => absurd hp List.not_mem_nil
  | cons p ts ih =>
    rw [skipTerms]
    split
    · rename_i h
      exact List.forall_mem_cons.mpr ⟨⟨rfl, h⟩, ih⟩
    · exact fun p hp => absurd hp List.not_mem_nil

theorem skipTerms_candidate {p : OrTerm N tables affinity × Bool} {rest : Flagged N tables affinity}
    (h : (skipTerms B iCursor ts).2 = p :: rest) :
    some p.1.left.1 ≠ iCursor ∧ B ∩ getMask tables p.1.left.1 ≠ ∅ := by
  induction ts with
  | nil => cases h
  | cons q ts ih =>
    rw [skipTerms] at h
    split at h
    · exact ih h
    · rename_i hq
      obtain ⟨rfl, -⟩ := List.cons.inj h
      exact not_or.mp hq

theorem checkTerms_map (c : Column) (ts : Flagged N tables affinity) :
    (checkTerms c ts).2.map Prod.fst = ts.map Prod.fst := by
  induction ts with
  | nil => rfl
  | cons p ts ih =>
    rw [checkTerms]
    split_ifs
    · exact congrArg (p.1 :: ·) ih
    · rfl
    · rfl
    · exact congrArg (p.1 :: ·) ih

/-- The terms from the candidate on. -/
theorem checkTerms_spec (h : (checkTerms c ts).1 = true) :
    (∀ p ∈ (checkTerms c ts).2, p.2 = decide (p.1.left.1 = c.1)) ∧
      ∀ p ∈ ts, p.1.left.1 = c.1 →
        p.1.left = c ∧ (p.1.pRight.aff = none ∨ p.1.pRight.aff = p.1.pLeft.aff) := by
  induction ts with
  | nil => exact ⟨fun p hp => absurd hp List.not_mem_nil, fun p hp => absurd hp List.not_mem_nil⟩
  | cons p ts ih =>
    rw [checkTerms] at h ⊢
    split_ifs at h ⊢ with hcursor hcolumn haff
    · obtain ⟨hflags, hterms⟩ := ih h
      exact ⟨List.forall_mem_cons.mpr ⟨by simp [hcursor], hflags⟩,
        List.forall_mem_cons.mpr ⟨fun heq => absurd heq hcursor, hterms⟩⟩
    · obtain ⟨hflags, hterms⟩ := ih h
      refine ⟨List.forall_mem_cons.mpr ⟨by simp [not_not.mp hcursor], hflags⟩,
        List.forall_mem_cons.mpr ⟨fun heq => ⟨Prod.ext heq (not_not.mp hcolumn), ?_⟩, hterms⟩⟩
      rcases not_and_or.mp haff with hnone | hsame
      · exact Or.inl (not_not.mp hnone)
      · exact Or.inr (not_not.mp hsame)

/-- What the search has checked. -/
theorem searchColumn_spec {j : ℕ} {r : Column × Flagged N tables affinity}
    (h : searchColumn B j iCursor ts = some r) :
    r.1.1 ∈ B ∧ r.1.1 ∈ tables ∧ r.2.map Prod.fst = ts.map Prod.fst ∧
      (∀ p ∈ r.2, p.2 = decide (p.1.left.1 = r.1.1)) ∧
      ∀ t ∈ ts.map Prod.fst, t.left.1 = r.1.1 →
        t.left = r.1 ∧ (t.pRight.aff = none ∨ t.pRight.aff = t.pLeft.aff) := by
  induction j generalizing iCursor ts with
  | zero => cases h
  | succ j ih =>
    have hmap := skipTerms_map B iCursor ts
    have hskipped := skipTerms_skipped B iCursor ts
    have hcandidate : ∀ p rest, (skipTerms B iCursor ts).2 = p :: rest →
        some p.1.left.1 ≠ iCursor ∧ B ∩ getMask tables p.1.left.1 ≠ ∅ :=
      fun _ _ => skipTerms_candidate
    rw [searchColumn] at h
    generalize hr : skipTerms B iCursor ts = s at h hmap hskipped hcandidate
    obtain ⟨skipped, rest⟩ := s
    cases rest with
    | nil => cases h
    | cons p rest =>
      obtain ⟨hne, hbit⟩ := hcandidate p rest rfl
      have hcheck := checkTerms_map p.1.left (p :: rest)
      have hall : (skipped ++ (checkTerms p.1.left (p :: rest)).2).map Prod.fst =
          ts.map Prod.fst := by
        rw [List.map_append, hcheck]
        exact hmap
      change (if (checkTerms p.1.left (p :: rest)).1 = true then _ else _) = _ at h
      split at h
      · rename_i hok
        obtain ⟨hflags, hterms⟩ := checkTerms_spec hok
        obtain rfl := Option.some.inj h
        obtain ⟨k, hk⟩ := Finset.nonempty_iff_ne_empty.mpr hbit
        obtain ⟨hkB, hk⟩ := Finset.mem_inter.mp hk
        obtain ⟨hin, rfl⟩ := mem_getMask.mp hk
        have hother : ∀ q ∈ skipped, q.1.left.1 ≠ p.1.left.1 := by
          intro q hq heq
          rcases (hskipped q hq).2 with hsame | hempty
          · exact hne (heq ▸ hsame)
          · exact hbit (heq ▸ hempty)
        refine ⟨hkB, hin, hall, ?_, ?_⟩
        · intro q hq
          rcases List.mem_append.mp hq with hq | hq
          · rw [(hskipped q hq).1, decide_eq_false (hother q hq)]
          · exact hflags q hq
        · intro t ht heq
          rw [← hmap] at ht
          rcases List.mem_append.mp ht with ht | ht
          · obtain ⟨q, hq, rfl⟩ := List.mem_map.mp ht
            exact absurd heq (hother q hq)
          · obtain ⟨q, hq, rfl⟩ := List.mem_map.mp ht
            exact hterms q hq heq
      · have hrec := ih h
        rw [hall] at hrec
        exact hrec

/-! ### Every subterm is in the list once -/

theorem exprCommute_spec (l r : Operand N tables affinity) :
    (exprCommute l r).1.aff = r.aff ∧ (exprCommute l r).1.value = r.value ∧
      (exprCommute l r).2.aff = l.aff ∧ (exprCommute l r).2.value = l.value := by
  rw [exprCommute]
  split_ifs <;> exact ⟨rfl, rfl, rfl, rfl⟩

variable {d : Disjunct N tables affinity}
  {e : OrTerm N tables affinity × Option (OrTerm N tables affinity)}
  {pExpr : List (Disjunct N tables affinity)}

theorem exprAnalyze_spec (h : exprAnalyze d = some e) :
    ∃ l r, d = .eq l r ∧ Disjoint r.usage l.usage ∧
      ((e.1.pLeft, e.1.pRight) = (l, r) ∨ (e.1.pLeft, e.1.pRight) = exprCommute l r) ∧
      ∀ p ∈ e.2, (p.pLeft, p.pRight) = exprCommute l r ∧ l.column = some e.1.left ∧
        r.column = some p.left := by
  cases d with
  | other => cases h
  | eq l r =>
    rw [exprAnalyze] at h
    split at h
    · cases h
    · rename_i hdisjoint
      refine ⟨l, r, rfl, not_not.mp hdisjoint, ?_⟩
      split at h
      · rename_i c d hl hr
        obtain rfl := Option.some.inj h
        refine ⟨Or.inl rfl, fun p hp => ?_⟩
        obtain rfl := Option.some.inj hp
        exact ⟨rfl, hl, hr⟩
      · obtain rfl := Option.some.inj h
        exact ⟨Or.inl rfl, fun p hp => absurd hp (Option.not_mem_none p)⟩
      · obtain rfl := Option.some.inj h
        exact ⟨Or.inr rfl, fun p hp => absurd hp (Option.not_mem_none p)⟩
      · cases h

/-- The term and its commuted copy. -/
def both (e : OrTerm N tables affinity × Option (OrTerm N tables affinity)) :
    List (OrTerm N tables affinity) := e.1 :: e.2.toList

theorem orTerms_perm
    (ds : List (OrTerm N tables affinity × Option (OrTerm N tables affinity))) :
    (orTerms ds).Perm (ds.flatMap both) := by
  induction ds with
  | nil => exact .refl _
  | cons e ds ih =>
    have hstep : orTerms (e :: ds) = e.1 :: (orTerms ds ++ e.2.toList) := by
      rw [orTerms, orTerms, List.map_cons, List.reverse_cons, List.filterMap_append,
        List.cons_append, List.append_assoc]
      cases he : e.2 <;> simp [he]
    rw [hstep, List.flatMap_cons]
    exact .cons e.1 (List.perm_append_comm.trans (.append_left _ ih))

/-- A table in the mask of a subterm is on the left of exactly one of the two. -/
theorem both_filter (h : exprAnalyze d = some e) {k : ℕ} (hk : k ∈ mask e) :
    ∃ t, (both e).filter (fun t => decide (t.left.1 = k)) = [t] ∧ (t = e.1 ∨ e.2 = some t) := by
  obtain ⟨l, r, -, hdisjoint, -, hcopy⟩ := exprAnalyze_spec h
  obtain ⟨t, p⟩ := e
  cases p with
  | none =>
    obtain ⟨-, rfl⟩ := mem_getMask.mp hk
    exact ⟨t, by simp [both], Or.inl rfl⟩
  | some p =>
    obtain ⟨-, hl, hr⟩ := hcopy p rfl
    have hnot : k ∈ tables → ¬(t.left.1 = k ∧ p.left.1 = k) := by
      rintro hin ⟨ht, hp⟩
      have hkr : k ∈ r.usage := by
        rw [(r.column_spec _ hr).2.1, hp]
        exact mem_getMask.mpr ⟨hin, rfl⟩
      have hkl : k ∈ l.usage := by
        rw [(l.column_spec _ hl).2.1, ht]
        exact mem_getMask.mpr ⟨hin, rfl⟩
      exact Finset.disjoint_left.mp hdisjoint hkr hkl
    rcases Finset.mem_union.mp hk with hk | hk
    · obtain ⟨hin, rfl⟩ := mem_getMask.mp hk
      have ht : t.left.1 ≠ p.left.1 := fun ht => hnot hin ⟨ht, rfl⟩
      exact ⟨p, by simp [both, ht], Or.inr rfl⟩
    · obtain ⟨hin, rfl⟩ := mem_getMask.mp hk
      have hp : p.left.1 ≠ t.left.1 := fun hp => hnot hin ⟨rfl, hp⟩
      exact ⟨t, by simp [both, hp], Or.inl rfl⟩

theorem mapM_exprAnalyze (h : pExpr.mapM exprAnalyze = some ds) :
    List.Forall₂ (fun d e => exprAnalyze d = some e) pExpr ds := by
  induction pExpr generalizing ds with
  | nil =>
    obtain rfl := Option.some.inj h
    exact .nil
  | cons d pExpr ih =>
    rw [List.mapM_cons] at h
    cases he : exprAnalyze d with
    | none => simp [he] at h
    | some e =>
      cases hes : pExpr.mapM exprAnalyze with
      | none => simp [he, hes] at h
      | some es =>
        have hcons : e :: es = ds := by simpa [he, hes] using h
        rw [← hcons]
        exact .cons he (ih hes)

theorem filter_represents (hds : List.Forall₂ (fun d e => exprAnalyze d = some e) pExpr ds)
    (hmask : ∀ e ∈ ds, c.1 ∈ mask e)
    (hterms : ∀ t ∈ ds.flatMap both, t.left.1 = c.1 →
      t.left = c ∧ (t.pRight.aff = none ∨ t.pRight.aff = t.pLeft.aff)) :
    List.Forall₂ (Represents c) pExpr
      ((ds.flatMap both).filter (fun t => decide (t.left.1 = c.1))) := by
  induction hds with
  | nil => exact .nil
  | @cons d e pExpr ds he hds ih =>
    obtain ⟨hk, hmask⟩ := List.forall_mem_cons.mp hmask
    obtain ⟨t, hfilter, ht⟩ := both_filter he hk
    rw [List.flatMap_cons] at hterms ⊢
    obtain ⟨hboth, hterms⟩ := List.forall_mem_append.mp hterms
    rw [List.filter_append, hfilter]
    refine .cons ?_ (ih hmask hterms)
    have hmem : t ∈ (both e).filter (fun t => decide (t.left.1 = c.1)) := by
      rw [hfilter]
      exact List.mem_singleton.mpr rfl
    obtain ⟨hmem, hcursor⟩ := List.mem_filter.mp hmem
    obtain ⟨hleft, haff⟩ := hboth t hmem (of_decide_eq_true hcursor)
    obtain ⟨l, r, rfl, -, hfirst, hcopy⟩ := exprAnalyze_spec he
    refine ⟨hleft, haff, l, r, rfl, ?_⟩
    rcases ht with rfl | ht
    · exact hfirst
    · exact Or.inr (hcopy t ht).1

/-- **Every subterm is in the list once**, with the column on its left side. -/
theorem exprAnalyzeOrTerm_represents {ts : List (OrTerm N tables affinity)}
    (h : exprAnalyzeOrTerm pExpr = some (c, ts)) :
    ∃ us, us.Perm ts ∧ List.Forall₂ (Represents c) pExpr us := by
  obtain ⟨ds, hds, h⟩ := Option.bind_eq_some_iff.mp h
  split at h
  · cases h
  · obtain ⟨r, hr, hlist⟩ := Option.map_eq_some_iff.mp h
    obtain ⟨rfl, rfl⟩ := Prod.mk.inj hlist
    obtain ⟨hbit, -, hmap, hflags, hterms⟩ := searchColumn_spec hr
    have hall : ((orTerms ds).map (·, false)).map Prod.fst = orTerms ds := by
      rw [List.map_map]
      exact List.map_id _
    rw [hall] at hmap hterms
    have hlist : (r.2.filter Prod.snd).map Prod.fst =
        (orTerms ds).filter (fun t => decide (t.left.1 = r.1.1)) := by
      rw [← hmap, List.filter_map]
      exact congrArg _ (List.filter_congr hflags)
    rw [hlist]
    refine ⟨_, ((orTerms_perm ds).filter _).symm, ?_⟩
    refine filter_represents (mapM_exprAnalyze hds) (fun e he => mem_mask he hbit) fun t ht => ?_
    exact hterms t ((orTerms_perm ds).mem_iff.mpr ht)

/-! ### The meaning -/

variable {convert : Affinity → Vdbe.Value → Vdbe.Value} {xColl : Option N → CollSeq}
  {ρ : Column → Vdbe.Value}

theorem sqlite3BinaryCompareCollSeq_exprCommute (l r : Operand N tables affinity) :
    sqlite3BinaryCompareCollSeq (exprCommute l r).1 (exprCommute l r).2 =
      sqlite3BinaryCompareCollSeq l r := by
  cases hl : l.epCollate <;> cases hr : r.epCollate <;> cases hc : l.collSeq <;>
    cases hd : r.collSeq <;> simp [exprCommute, sqlite3BinaryCompareCollSeq, hl, hr, hc, hd]

theorem sqlite3CompareAffinity_comm (a b : Option Affinity) :
    sqlite3CompareAffinity a b = sqlite3CompareAffinity b a := by
  cases a <;> cases b <;> simp [sqlite3CompareAffinity, Bool.or_comm]

theorem valueEq_comm {v e : Vdbe.Value} {pColl : CollSeq} :
    ValueEq v e pColl ↔ ValueEq e v pColl := by
  have hswap : ∀ v e : Vdbe.Value, ValueEq v e pColl → ValueEq e v pColl := by
    rintro v e ⟨hv, he, heq⟩
    have hexact : Exact {v, e} := by
      rintro i j r (hi | hi) (hj | hj) (hr | hr) - - <;> grind
    have horder : TotalOrderOn (sqlite3MemCompare · · (some pColl)) _ :=
      totalOrderOn_sqlite3MemCompare hexact
    exact ⟨he, hv, horder.eq_symm _ (Or.inl rfl) _ (Or.inr rfl) heq⟩
  exact ⟨hswap v e, hswap e v⟩

/-- An entry of a table is equal to a key. -/
theorem compare_eq_zero_iff {e key : Vdbe.Value} {pColl : CollSeq} (hkey : key ≠ .null) :
    sqlite3MemCompare e key (some pColl) = 0 ↔ ValueEq key e pColl := by
  constructor
  · intro heq
    have he : e ≠ .null := by
      rintro rfl
      cases key <;> simp [sqlite3MemCompare] at heq hkey
    exact valueEq_comm.mp ⟨he, hkey, heq⟩
  · exact fun h => (valueEq_comm.mp h).2.2

theorem compare_int (i j : Int64) {pColl : Option CollSeq} :
    sqlite3MemCompare (.int i) (.int j) pColl = 0 ↔ i = j := by
  change threeWay i.toInt j.toInt = 0 ↔ i = j
  rw [threeWay_eq_zero]
  exact Int64.toInt_inj

theorem eqTrue_exprCommute (l r : Operand N tables affinity) :
    EqTrue convert xColl ρ (exprCommute l r).1 (exprCommute l r).2 ↔
      EqTrue convert xColl ρ l r := by
  obtain ⟨haff, hvalue, haff', hvalue'⟩ := exprCommute_spec l r
  rw [EqTrue, EqTrue, sqlite3BinaryCompareCollSeq_exprCommute, haff, haff', hvalue, hvalue',
    sqlite3CompareAffinity_comm]
  exact valueEq_comm

/-- A subterm is the comparison that the IN makes of the right side of its term, but for the
collating sequence. -/
theorem holds_iff (hstored : Stored convert ρ pExpr) (hd : d ∈ pExpr) (h : Represents c d t)
    {pColl : CollSeq}
    (hcoll : ∀ l r, d = .eq l r → xColl (sqlite3BinaryCompareCollSeq l r) = pColl) :
    d.Holds convert xColl ρ ↔ ValueEq (convert ((affinity c).getD .none) (ρ c))
      (convert ((affinity c).getD .none) (t.pRight.value ρ)) pColl := by
  obtain ⟨hleft, haff, l, r, rfl, hpair⟩ := h
  have hterm : EqTrue convert xColl ρ l r ↔ EqTrue convert xColl ρ t.pLeft t.pRight := by
    rcases hpair with hpair | hpair
    · obtain ⟨h1, h2⟩ := Prod.mk.inj hpair
      rw [h1, h2]
    · rw [← eqTrue_exprCommute l r, ← hpair]
  have hsame : sqlite3BinaryCompareCollSeq t.pLeft t.pRight = sqlite3BinaryCompareCollSeq l r := by
    rcases hpair with hpair | hpair
    · obtain ⟨h1, h2⟩ := Prod.mk.inj hpair
      rw [h1, h2]
    · rw [← sqlite3BinaryCompareCollSeq_exprCommute l r, ← hpair]
  have hkept : ∀ o, o = t.pLeft ∨ o = t.pRight → ∀ a, o.aff = some a →
      convert a (o.value ρ) = o.value ρ ∧
        (sqlite3IsNumericAffinity a = true → convert .numeric (o.value ρ) = o.value ρ) := by
    have hl := hstored.kept l r hd l (Or.inl rfl)
    have hr := hstored.kept l r hd r (Or.inr rfl)
    rcases hpair with hpair | hpair
    · obtain ⟨h1, h2⟩ := Prod.mk.inj hpair
      rintro o (rfl | rfl)
      · exact h1 ▸ hl
      · exact h2 ▸ hr
    · obtain ⟨h1, h2, h3, h4⟩ := exprCommute_spec l r
      rw [← hpair] at h1 h2 h3 h4
      rintro o (rfl | rfl)
      · rw [h1, h2]
        exact hr
      · rw [h3, h4]
        exact hl
  obtain ⟨hcolumn, -, hvalue⟩ := t.pLeft.column_spec t.left t.left_spec
  rw [hleft] at hcolumn hvalue
  change EqTrue convert xColl ρ l r ↔ _
  rw [hterm, EqTrue, hsame, hcoll l r rfl, hvalue ρ]
  rcases haff with hnone | heq
  · rw [hnone, hcolumn]
    cases affinity c <;> exact Iff.rfl
  · cases ha : affinity c with
    | none =>
      rw [heq, hcolumn, ha]
      exact Iff.rfl
    | some a =>
      have hleftKept := hkept t.pLeft (Or.inl rfl) a (hcolumn.trans ha)
      have hrightKept := hkept t.pRight (Or.inr rfl) a (heq.trans (hcolumn.trans ha))
      rw [hvalue ρ] at hleftKept
      rw [heq, hcolumn, ha, Option.getD_some, hleftKept.1, hrightKept.1, sqlite3CompareAffinity]
      cases hnum : sqlite3IsNumericAffinity a with
      | false =>
        rw [Bool.or_self, if_neg Bool.false_ne_true, hstored.none, hstored.none]
      | true =>
        rw [Bool.or_self, if_pos rfl, hleftKept.2 hnum, hrightKept.2 hnum]

/-- **The table** tells the values of the list from each other as far as the left value goes. -/
theorem inTrue_iff (pivot : List Vdbe.Value → Vdbe.Value → ℕ → ℕ)
    {pLeft : Operand N tables affinity} {pList : List (Operand N tables affinity)}
    (hexact : ExactAt (convert (pLeft.aff.getD .none) (pLeft.value ρ))
      {e | e ∈ inValues convert ρ pLeft pList}) :
    InTrue convert xColl pivot ρ pLeft pList ↔ ∃ e ∈ pList,
      ValueEq (convert (pLeft.aff.getD .none) (pLeft.value ρ))
        (convert (pLeft.aff.getD .none) (e.value ρ)) (xColl pLeft.collSeq) := by
  rw [InTrue, opFound_ephemeralTable _ _ hexact, inValues]
  constructor
  · rintro ⟨hkey, e, he, heq⟩
    obtain ⟨o, ho, rfl⟩ := List.mem_map.mp he
    exact ⟨o, ho, (compare_eq_zero_iff hkey).mp heq⟩
  · rintro ⟨o, ho, heq⟩
    exact ⟨heq.1, _, List.mem_map.mpr ⟨o, ho, rfl⟩, (compare_eq_zero_iff heq.1).mpr heq⟩

theorem exists_iff_of_forall₂ {α β : Type*} {R : α → β → Prop} {P : α → Prop} {Q : β → Prop}
    {as : List α} {bs : List β} (h : List.Forall₂ R as bs)
    (hPQ : ∀ a ∈ as, ∀ b, R a b → (P a ↔ Q b)) : (∃ b ∈ bs, Q b) ↔ ∃ a ∈ as, P a := by
  induction h with
  | nil => simp
  | @cons a b as bs hab _ ih =>
    obtain ⟨hP, hPQ⟩ := List.forall_mem_cons.mp hPQ
    rw [List.exists_mem_cons_iff, List.exists_mem_cons_iff, ih hPQ, hP b hab]

/-- All texts are the same. -/
def sloppy : CollSeq := ⟨none, fun _ _ => 0, .of_swap (by simp) (by simp)⟩

/-- `BINARY`. -/
def binary : CollSeq := ⟨none, blobCompare, totalOrderOn_blobCompare _⟩

/-- The column, of TEXT affinity, with or without `COLLATE`. -/
def textColumn (coll : Option Bool) : Operand Bool {0} (fun _ => some .text) where
  column := some (0, 0)
  epCollate := coll.isSome
  collSeq := some (coll.getD true)
  aff := some .text
  usage := {0}
  value ρ := ρ (0, 0)
  column_spec := by
    rintro c hc
    obtain rfl := Option.some.inj hc
    exact ⟨rfl, rfl, fun _ => rfl⟩

/-- A literal. -/
def literal (z : List UInt8) : Operand Bool {0} (fun _ => some .text) :=
  ⟨none, false, none, none, ∅, fun _ => .text z, by simp⟩

end OrToIn

end Sql

end SqliteVms

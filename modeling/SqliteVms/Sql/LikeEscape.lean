import SqliteVms.Sql.Like

/-!
# Escape characters of LIKE

Two kinds of escape character are not taken for one by the code: a wildcard is found to be a wildcard
first, and one that ends the pattern is left out, unless it is behind a `matchAll`. What the code takes
such a pattern for is said here, and that the other kinds are what they should be is in `Sql.Like`.

## Main results

* `compareLoop_idle` — an escape character that is a wildcard
* `compareLoop_unpaired` — an escape character that ends the pattern
* `not_matches_dangling` — the language of such a pattern
* `Matches.beginning` — what a string in the language of a pattern begins with
-/

namespace SqliteVms

namespace Sql

namespace Like

variable {info : CompareInfo} {e : ℕ}

/-! ### An escape character that is a wildcard -/

/-- The loop over the wildcards ends at a character that is none. -/
theorem runLoop_spec {q s zPattern zString : List ℕ} {c : ℕ}
    (h : runLoop info q s = some (some (c, zPattern, zString))) :
    c ∈ q ∧ zPattern ⊆ q ∧ c ≠ info.matchAll ∧ c ≠ info.matchOne := by
  induction q generalizing s with
  | nil => exact absurd h (by rw [runLoop]; exact Option.some_ne_none _ ∘ Eq.symm)
  | cons a q ih =>
    rw [runLoop.eq_def] at h
    dsimp only at h
    split at h
    · obtain ⟨hc, hsub, hne⟩ := ih h
      exact ⟨List.mem_cons_of_mem a hc, List.subset_cons_of_subset a hsub, hne⟩
    rename_i hall
    split at h
    · cases s with
      | nil => cases h
      | cons d s =>
        dsimp only at h
        split at h
        · cases h
        · obtain ⟨hc, hsub, hne⟩ := ih h
          exact ⟨List.mem_cons_of_mem a hc, List.subset_cons_of_subset a hsub, hne⟩
    · rename_i hone
      cases h
      exact ⟨List.mem_cons_self, List.subset_cons_self _ _, hall, hone⟩

theorem setLoop_subset (c : ℕ) {q z : List ℕ} {prior : ℕ} {seen b : Bool}
    (h : setLoop c q prior seen = some (some (b, z))) : z ⊆ q := by
  induction hlen : q.length using Nat.strong_induction_on generalizing q prior seen with
  | _ n ih =>
    cases q with
    | nil =>
      rw [setLoop.eq_def] at h
      cases h
    | cons c2 q =>
      rw [setLoop.eq_def] at h
      dsimp only at h
      split at h
      · cases h
      split at h
      · cases h
        exact List.subset_cons_self _ _
      cases q with
      | nil => cases h
      | cons d rest =>
        rw [List.length_cons, List.length_cons] at hlen
        dsimp only at h
        split at h
        · exact List.subset_cons_of_subset _ (List.subset_cons_of_subset _
            (ih rest.length (by omega) h rfl))
        · exact List.subset_cons_of_subset _ (ih (rest.length + 1) (by omega) h rfl)

theorem setParts_subset (q : List ℕ) : (setParts q).2.2 ⊆ q := by
  intro x hx
  rw [setParts.eq_def] at hx
  cases q with
  | nil => exact hx
  | cons c z =>
    dsimp only at hx
    split at hx
    · cases z with
      | nil => exact absurd hx List.not_mem_nil
      | cons d z =>
        dsimp only at hx
        split at hx
        · exact List.mem_cons_of_mem _ (List.mem_cons_of_mem _ hx)
        · exact List.mem_cons_of_mem _ hx
    split at hx
    · exact List.mem_cons_of_mem _ hx
    · exact hx

theorem setMatch_subset {c : ℕ} {q z : List ℕ} (h : setMatch c q = some (some z)) : z ⊆ q := by
  have hsub := setParts_subset q
  rw [setMatch] at h
  rcases hparts : setParts q with ⟨invert, bracket, body⟩
  rw [hparts] at h hsub
  obtain ⟨r, hr, hz⟩ := Option.map_eq_some_iff.mp h
  cases r with
  | none => cases hz
  | some r =>
    obtain ⟨seen, z'⟩ := r
    dsimp only [Option.bind_some] at hz
    split at hz
    · cases hz
      exact List.Subset.trans (setLoop_subset c hr) hsub
    · cases hz

/-- **An escape character that is a wildcard**, or is not in the pattern, changes nothing for the
code. -/
theorem compareLoop_idle (fuel : ℕ) {q : List ℕ} (s : List ℕ)
    (hq : e ∈ q → e = info.matchAll ∨ e = info.matchOne) :
    compareLoop info e fuel false q s = compareLoop info 0 fuel false q s := by
  induction fuel generalizing q s with
  | zero => rfl
  | succ fuel ih =>
    cases q with
    | nil => rfl
    | cons c z =>
      have hrec : ∀ {z' : List ℕ}, z' ⊆ c :: z →
          compareLoop info e fuel false z' = compareLoop info 0 fuel false z' := by
        intro z' hz
        funext v
        exact ih v fun hmem => hq (hz hmem)
      have hz : z ⊆ c :: z := List.subset_cons_self _ _
      rw [compareLoop.eq_def, compareLoop.eq_def info 0]
      dsimp only
      by_cases hc : c = 0
      · rw [if_pos hc, if_pos hc]
      rw [if_neg hc, if_neg hc]
      by_cases hall : c = info.matchAll ∧ false = false
      · rw [if_pos hall, if_pos hall]
        cases hrun : runLoop info z s with
        | none => rfl
        | some r =>
          cases r with
          | none => rfl
          | some r =>
            obtain ⟨c', z', s'⟩ := r
            obtain ⟨hc', hsub, hnall, hnone⟩ := runLoop_spec hrun
            have hce' : c' ≠ e := by
              rintro rfl
              rcases hq (hz hc') with h | h
              · exact hnall h
              · exact hnone h
            dsimp only [Option.bind_some]
            by_cases hzero : c' = 0
            · rw [if_pos hzero, if_pos hzero]
            · rw [if_neg hzero, if_neg hzero, if_neg hce', if_neg hzero,
                hrec (List.Subset.trans hsub hz),
                hrec (List.cons_subset.mpr ⟨hz hc', List.Subset.trans hsub hz⟩)]
      rw [if_neg hall, if_neg hall]
      by_cases hone : c = info.matchOne ∧ false = false
      · rw [if_pos hone, if_pos hone, hrec hz]
      rw [if_neg hone, if_neg hone]
      by_cases hset : c = info.matchSet
      · rw [if_pos hset, if_pos hset]
        cases s with
        | nil => rfl
        | cons d s =>
          dsimp only
          cases hmatch : setMatch d z with
          | none => rfl
          | some r =>
            cases r with
            | none => rfl
            | some z' =>
              dsimp only [Option.bind_some]
              rw [hrec (List.Subset.trans (setMatch_subset hmatch) hz)]
      · have hesc : ¬(e = c ∧ false = false) := by
          rintro ⟨rfl, -⟩
          rcases hq List.mem_cons_self with h | h
          · exact hall ⟨h, rfl⟩
          · exact hone ⟨h, rfl⟩
        have hesc0 : ¬(0 = c ∧ false = false) := fun h => hc h.1.symm
        rw [if_neg hset, if_neg hset, if_neg hesc, if_neg hesc0, hrec hz]

theorem matches_absent {p : List ℕ} (hp : e ∉ p) (hzero : 0 ∉ p) (s : List ℕ) :
    Matches info e p s ↔ Matches info 0 p s := by
  have hgo : ∀ {a b : ℕ} {q : List ℕ}, a ∉ q → b ∉ q → Matches info a q s → Matches info b q s := by
    intro a b q ha hb h
    induction h with
    | nil => exact Matches.nil
    | escape c d p s hesc h hm ih => exact absurd List.mem_cons_self ha
    | all p t s hesc hm ih =>
      rw [List.mem_cons, not_or] at ha hb
      exact Matches.all p t s hb.1 (ih ha.2 hb.2)
    | one d p s hesc hm ih =>
      rw [List.mem_cons, not_or] at ha hb
      exact Matches.one d p s hb.1 (ih ha.2 hb.2)
    | set d body l p s invert bracket hset hparts hl hin hm ih =>
      rw [List.mem_cons, not_or] at ha hb
      have hsub : p ⊆ body := by
        have hparts' := setParts_subset body
        rw [hparts] at hparts'
        exact fun x hx => hparts' (List.mem_append_right _ (List.mem_cons_of_mem _ hx))
      exact Matches.set d body l p s invert bracket hset hparts hl hin
        (ih (fun h => ha.2 (hsub h)) fun h => hb.2 (hsub h))
    | self c d p s hesc hall hone hset h hm ih =>
      rw [List.mem_cons, not_or] at ha hb
      exact Matches.self c d p s (Ne.symm hb.1) hall hone hset h (ih ha.2 hb.2)
  exact ⟨hgo hp hzero, hgo hzero hp⟩

/-- A string in the language of a pattern begins with one in the language of its beginning. -/
theorem Matches.beginning {a : ℕ} {q r s : List ℕ} (hset : info.matchSet = 0) (ha : a ∉ q)
    (h : Matches info a (q ++ r) s) : ∃ t v, s = t ++ v ∧ Matches info a q t := by
  induction q generalizing s with
  | nil => exact ⟨[], s, rfl, Matches.nil⟩
  | cons c q ih =>
    rw [List.mem_cons, not_or] at ha
    rw [List.cons_append] at h
    rcases h.inv with ⟨hq, -⟩ | ⟨c', d, p', s', hq, -⟩ | ⟨p', t, s', hq, rfl, hm⟩ |
      ⟨d, p', s', hq, rfl, hm⟩ | ⟨d, body, l, p', s', _, _, hq, -, hne, -⟩ |
      ⟨c', d, p', s', hq, rfl, hesc, hall, hone, hns, hcd, hm⟩
    · cases hq
    · exact absurd (List.cons.inj hq).1.symm ha.1
    · obtain ⟨rfl, rfl⟩ := List.cons.inj hq
      obtain ⟨t', v, rfl, hm'⟩ := ih ha.2 hm
      exact ⟨t ++ t', v, (List.append_assoc _ _ _).symm, Matches.all q t t' ha.1 hm'⟩
    · obtain ⟨rfl, rfl⟩ := List.cons.inj hq
      obtain ⟨t', v, rfl, hm'⟩ := ih ha.2 hm
      exact ⟨d :: t', v, rfl, Matches.one d q t' ha.1 hm'⟩
    · exact absurd hset hne
    · obtain ⟨rfl, rfl⟩ := List.cons.inj hq
      obtain ⟨t', v, rfl, hm'⟩ := ih ha.2 hm
      exact ⟨d :: t', v, rfl, Matches.self c d q t' hesc hall hone hns hcd hm'⟩

/-! ### An escape character that ends the pattern -/

/-- A pattern that ends in an unpaired escape character matches nothing. -/
theorem not_matches_dangling (hr : Rules info e) (he : e ≠ 0) {p : List ℕ} (hp : 0 ∉ p)
    {flag : Bool} (h : Dangling info e flag p) (s : List ℕ) : ¬Matches info e p s := by
  fun_induction Dangling info e flag p generalizing s with
  | case1 => exact h.elim
  | case2 flag c =>
    obtain ⟨rfl, -⟩ := h
    exact not_matches_escape hr he
  | case3 flag d p ih =>
    intro hm
    obtain ⟨_, s', -, -, hm'⟩ := (matches_escape hr he).mp hm
    exact ih (fun hz => hp (List.mem_cons_of_mem _ (List.mem_cons_of_mem _ hz))) h s' hm'
  | case4 flag d p hesc ih =>
    intro hm
    obtain ⟨_, s', -, hm'⟩ := (matches_all hr).mp hm
    exact ih (fun hz => hp (List.mem_cons_of_mem _ hz)) h s' hm'
  | case5 flag d p hesc hall ih =>
    intro hm
    obtain ⟨_, s', -, hm'⟩ := (matches_one hr).mp hm
    exact ih (fun hz => hp (List.mem_cons_of_mem _ hz)) h s' hm'
  | case6 flag c d p hesc hall hone ih =>
    intro hm
    have hset : c ≠ info.matchSet := by
      rw [hr.set_of_esc he]
      exact fun hc => hp (hc ▸ List.mem_cons_self)
    obtain ⟨_, s', -, -, hm'⟩ := (matches_self hesc hall hone hset).mp hm
    exact ih (fun hz => hp (List.mem_cons_of_mem _ hz)) h s' hm'

theorem dangling_append {flag : Bool} {c : ℕ} {q : List ℕ} (hq : q ≠ []) :
    Dangling info e flag (c :: q) ↔
      if c = e then Dangling info e false q.tail
      else if c = info.matchAll then Dangling info e true q
      else if c = info.matchOne then Dangling info e flag q
      else Dangling info e false q := by
  cases q with
  | nil => exact absurd rfl hq
  | cons d q =>
    rw [Dangling]
    rfl

theorem append_escape_ne_nil (q : List ℕ) : q ++ [e] ≠ [] :=
  List.append_ne_nil_of_right_ne_nil q (List.cons_ne_nil e [])

/-- What the loop over the wildcards behind a `matchAll` comes to does not depend on the end of the
pattern. -/
inductive RunsTo (info : CompareInfo) (e : ℕ) (q s : List ℕ) : Prop
  | past (h : ∀ z, runLoop info (q ++ z) s = none) : RunsTo info e q s
  | short (h : ∀ z, runLoop info (q ++ z) s = some none) : RunsTo info e q s
  | next (c : ℕ) (r s' : List ℕ) (hsub : c :: r ⊆ q) (hlen : r.length < q.length)
      (hall : c ≠ info.matchAll) (hone : c ≠ info.matchOne)
      (hd : Dangling info e true (c :: (r ++ [e])))
      (h : ∀ z, runLoop info (q ++ z) s = some (some (c, r ++ z, s'))) : RunsTo info e q s

theorem runsTo_of_dangling (hr : Rules info e) {q : List ℕ}
    (h : Dangling info e true (q ++ [e])) (s : List ℕ) : RunsTo info e q s := by
  have hcons : ∀ {c : ℕ} {q s : List ℕ} {s' : List ℕ}, RunsTo info e q s' →
      (∀ z, runLoop info (c :: (q ++ z)) s = runLoop info (q ++ z) s') →
      RunsTo info e (c :: q) s := by
    intro c q s s' hruns heq
    cases hruns with
    | past h => exact .past fun z => (heq z).trans (h z)
    | short h => exact .short fun z => (heq z).trans (h z)
    | next c' r s'' hsub hlen hall hone hd h =>
      exact .next c' r s'' (List.subset_cons_of_subset c hsub) (Nat.lt_succ_of_lt hlen) hall hone hd
        fun z => (heq z).trans (h z)
  induction q generalizing s with
  | nil => exact absurd h.2 (by decide)
  | cons c q ih =>
    have hd := h
    rw [List.cons_append, dangling_append (append_escape_ne_nil q)] at hd
    by_cases hall : c = info.matchAll
    · rw [if_neg (fun hc => hr.esc_ne_all (hc.symm.trans hall)), if_pos hall] at hd
      exact hcons (ih hd s) fun z => by
        rw [runLoop.eq_def]
        exact if_pos hall
    by_cases hone : c = info.matchOne
    · rw [if_neg (fun hc => hr.esc_ne_one (hc.symm.trans hone)), if_neg hall, if_pos hone] at hd
      cases s with
      | nil =>
        refine .past fun z => ?_
        rw [List.cons_append, runLoop.eq_def]
        dsimp only
        rw [if_neg hall, if_pos hone]
      | cons d s =>
        by_cases hzero : d = 0
        · refine .short fun z => ?_
          rw [List.cons_append, runLoop.eq_def]
          dsimp only
          rw [if_neg hall, if_pos hone, if_pos hzero]
        · refine hcons (ih hd s) fun z => ?_
          rw [runLoop.eq_def]
          dsimp only
          rw [if_neg hall, if_pos hone, if_neg hzero]
    · refine .next c q s (List.Subset.refl _) (Nat.lt_succ_self _) hall hone h fun z => ?_
      rw [List.cons_append, runLoop.eq_def]
      dsimp only
      rw [if_neg hall, if_neg hone]

/-- **An escape character that ends the pattern** is left out by the code. -/
theorem compareLoop_unpaired (hr : Rules info e) (he : e ≠ 0) {fuel : ℕ} {q : List ℕ}
    (hq : 0 ∉ q) (hfuel : q.length + 1 < fuel) (h : Dangling info e false (q ++ [e]))
    (s : List ℕ) :
    compareLoop info e fuel false (q ++ [e, 0]) s = compareLoop info e fuel false (q ++ [0]) s := by
  induction fuel using Nat.strong_induction_on generalizing q s with
  | _ fuel ih =>
    obtain ⟨fuel, rfl⟩ : ∃ f, fuel = f + 2 := ⟨fuel - 2, by omega⟩
    have hset : ∀ {c : ℕ}, c ≠ 0 → c ≠ info.matchSet := fun hc => by
      rw [hr.set_of_esc he]
      exact hc
    cases q with
    | nil =>
      rw [List.nil_append, List.nil_append, compareLoop.eq_def info e (fuel + 2) false [e, 0] s]
      dsimp only
      rw [if_neg he, if_neg fun h => hr.esc_ne_all h.1, if_neg fun h => hr.esc_ne_one h.1,
        if_neg (hset he), if_pos ⟨rfl, rfl⟩]
      rfl
    | cons c q =>
      rw [List.mem_cons, not_or] at hq
      have hc := Ne.symm hq.1
      rw [List.length_cons] at hfuel
      rw [List.cons_append, dangling_append (append_escape_ne_nil q)] at h
      have hstep : Dangling info e false (q ++ [e]) →
          compareLoop info e (fuel + 1) false (q ++ [e, 0]) =
            compareLoop info e (fuel + 1) false (q ++ [0]) := fun hd =>
        funext fun v => ih (fuel + 1) (by omega) hq.2 (by omega) hd v
      rw [List.cons_append, List.cons_append,
        compareLoop.eq_def info e (fuel + 2) false (c :: (q ++ [e, 0])) s,
        compareLoop.eq_def info e (fuel + 2) false (c :: (q ++ [0])) s]
      dsimp only
      rw [if_neg hc, if_neg hc]
      by_cases hall : c = info.matchAll
      · rw [if_neg (fun hce => hr.esc_ne_all (hce.symm.trans hall)), if_pos hall] at h
        rw [if_pos ⟨hall, rfl⟩, if_pos ⟨hall, rfl⟩]
        cases runsTo_of_dangling hr h s with
        | past hrun => rw [hrun, hrun]
        | short hrun => rw [hrun, hrun]
        | next c' r s' hsub hlen hall' hone' hd hrun =>
          have hmem : 0 ∉ c' :: r := fun hz => hq.2 (hsub hz)
          rw [List.mem_cons, not_or] at hmem
          have hc' := Ne.symm hmem.1
          rw [dangling_append (append_escape_ne_nil r)] at hd
          rw [hrun, hrun, Option.bind_some, Option.bind_some]
          dsimp only
          rw [if_neg hc', if_neg hc']
          by_cases hesc : c' = e
          · rw [if_pos hesc] at hd
            rw [if_pos hesc, if_pos hesc]
            cases r with
            | nil => exact hd.elim
            | cons d r =>
              rw [List.mem_cons, not_or] at hmem
              rw [List.cons_append, List.cons_append]
              dsimp only
              rw [if_neg (Ne.symm hmem.2.1), if_neg (Ne.symm hmem.2.1)]
              rw [List.length_cons] at hlen
              have hrest : compareLoop info e (fuel + 1) false (r ++ [e, 0]) =
                  compareLoop info e (fuel + 1) false (r ++ [0]) :=
                funext fun v => ih (fuel + 1) (by omega) hmem.2.2 (by omega) hd v
              rw [hrest]
          · rw [if_neg hesc, if_neg hall', if_neg hone'] at hd
            rw [if_neg hesc, if_neg hesc, if_neg (hset hc'), if_neg (hset hc')]
            have hrest : compareLoop info e (fuel + 1) false (r ++ [e, 0]) =
                compareLoop info e (fuel + 1) false (r ++ [0]) :=
              funext fun v => ih (fuel + 1) (by omega) hmem.2 (by omega) hd v
            rw [hrest]
      have hall' : ¬(c = info.matchAll ∧ false = false) := fun hx => hall hx.1
      rw [if_neg hall', if_neg hall']
      by_cases hone : c = info.matchOne
      · rw [if_neg (fun hce => hr.esc_ne_one (hce.symm.trans hone)), if_neg hall, if_pos hone] at h
        rw [if_pos ⟨hone, rfl⟩, if_pos ⟨hone, rfl⟩, hstep h]
      have hone' : ¬(c = info.matchOne ∧ false = false) := fun hx => hone hx.1
      rw [if_neg hone', if_neg hone', if_neg (hset hc), if_neg (hset hc)]
      by_cases hesc : c = e
      · -- the character behind it stands for itself
        rw [if_pos hesc] at h
        rw [if_pos ⟨hesc.symm, rfl⟩, if_pos ⟨hesc.symm, rfl⟩]
        cases q with
        | nil => exact h.elim
        | cons d q =>
          rw [List.length_cons] at hfuel
          have hq' := hq.2
          rw [List.mem_cons, not_or] at hq'
          have hd := Ne.symm hq'.1
          have hrest : compareLoop info e fuel false (q ++ [e, 0]) =
              compareLoop info e fuel false (q ++ [0]) :=
            funext fun v => ih fuel (by omega) hq'.2 (by omega) h v
          rw [List.cons_append, List.cons_append,
            compareLoop.eq_def info e (fuel + 1) true (d :: (q ++ [e, 0])) s,
            compareLoop.eq_def info e (fuel + 1) true (d :: (q ++ [0])) s]
          dsimp only
          have hnot : ∀ {P : Prop}, ¬(P ∧ true = false) := fun hx => absurd hx.2 (by decide)
          simp only [if_neg hd, if_neg hnot, if_neg (hset hd), hrest]
      · rw [if_neg hesc, if_neg hall, if_neg hone] at h
        have hesc' : ¬(e = c ∧ false = false) := fun hx => hesc hx.1.symm
        rw [if_neg hesc', if_neg hesc', hstep h]

theorem dangling_last {flag : Bool} {p : List ℕ} (h : Dangling info e flag p) :
    ∃ q, p = q ++ [e] := by
  fun_induction Dangling info e flag p with
  | case1 => exact h.elim
  | case2 flag c => exact ⟨[], by rw [h.1]; rfl⟩
  | case3 flag d p ih =>
    obtain ⟨q, rfl⟩ := ih h
    exact ⟨e :: d :: q, rfl⟩
  | case4 flag d p hesc ih =>
    obtain ⟨q, hq⟩ := ih h
    exact ⟨info.matchAll :: q, by rw [hq]; rfl⟩
  | case5 flag d p hesc hall ih =>
    obtain ⟨q, hq⟩ := ih h
    exact ⟨info.matchOne :: q, by rw [hq]; rfl⟩
  | case6 flag c d p hesc hall hone ih =>
    obtain ⟨q, hq⟩ := ih h
    exact ⟨c :: q, by rw [hq]; rfl⟩

/-- What is in front of an unpaired escape character does not end in one. -/
theorem not_dangling_front {flag : Bool} {q : List ℕ} (h : Dangling info e flag (q ++ [e])) :
    ¬Dangling info e flag q := by
  induction hn : q.length using Nat.strong_induction_on generalizing q flag with
  | _ n ih =>
    cases q with
    | nil => exact fun hq => hq
    | cons c q =>
      rw [List.length_cons] at hn
      rw [List.cons_append, dangling_append (append_escape_ne_nil q)] at h
      cases q with
      | nil =>
        rintro ⟨rfl, -⟩
        rw [if_pos rfl] at h
        exact h
      | cons d q =>
        rw [List.length_cons] at hn
        rw [dangling_append (List.cons_ne_nil d q)]
        split at h
        · rename_i hc
          rw [if_pos hc]
          exact ih q.length (by omega) h rfl
        rename_i hc
        rw [if_neg hc]
        split at h
        · rename_i hall
          rw [if_pos hall]
          exact ih (q.length + 1) (by omega) h rfl
        rename_i hall
        rw [if_neg hall]
        split at h
        · rename_i hone
          rw [if_pos hone]
          exact ih (q.length + 1) (by omega) h rfl
        · rename_i hone
          rw [if_neg hone]
          exact ih (q.length + 1) (by omega) h rfl

/-! ### All escape characters -/

/-- An escape character that is a wildcard. -/
def IsWildcard (info : CompareInfo) (e : ℕ) : Prop := e = info.matchAll ∨ e = info.matchOne

/-- No beginning of the string is matched by what is in front of an escape character that is a
wildcard, and the string is not matched by what is in front of one that ends the pattern. -/
structure EscapeClear (info : CompareInfo) (e : ℕ) (p s : List ℕ) : Prop where
  wildcard : IsWildcard info e → ∀ q r, p = q ++ e :: r → e ∉ q →
    ∀ t v, s = t ++ v → ¬Matches info 0 q t
  paired : Dangling info e false p → ¬Matches info e p.dropLast s

theorem Decides.exists {o : Option Bool} {P : Prop} (h : Decides o P) : ∃ b, o = some b := by
  rcases h with ⟨h, -⟩ | ⟨h, -⟩
  · exact ⟨true, h⟩
  · exact ⟨false, h⟩

theorem Decides.unique {o : Option Bool} {P Q : Prop} (hP : Decides o P) (hQ : Decides o Q) :
    P ↔ Q := by
  rcases hP with ⟨h, hp⟩ | ⟨h, hp⟩ <;> rcases hQ with ⟨h', hq⟩ | ⟨h', hq⟩
  · exact iff_of_true hp hq
  · exact absurd (h.symm.trans h') (by decide)
  · exact absurd (h.symm.trans h') (by decide)
  · exact iff_of_false hp hq

/-- Neither the language of the pattern nor that of the code has the string. -/
theorem not_matches_wildcard {p s : List ℕ} (hp : 0 ∉ p) (hset : info.matchSet = 0)
    (he : IsWildcard info e) (hmem : e ∈ p) (hclear : EscapeClear info e p s) : ¬Matches info 0 p s ∧ ¬Matches info e p s := by
  obtain ⟨q, r, rfl, hq⟩ := List.eq_append_cons_of_mem hmem
  have hq0 : 0 ∉ q := fun hz => hp (List.mem_append_left _ hz)
  constructor
  · intro hm
    obtain ⟨t, v, rfl, ht⟩ := hm.beginning hset hq0
    exact hclear.wildcard he q r rfl hq t v rfl ht
  · intro hm
    obtain ⟨t, v, rfl, ht⟩ := hm.beginning hset hq
    exact hclear.wildcard he q r rfl hq t v rfl ((matches_absent hq hq0 t).mp ht)

section Loop

variable {fuel : ℕ} {p s : List ℕ} (hp : 0 ∉ p) (hs : 0 ∉ s) (hfuel : p.length + 1 < fuel)
include hp hs hfuel

/-- An escape character that is a wildcard: the code takes it for one. -/
theorem decides_wildcard (hr : Rules info 0) (he : IsWildcard info e) :
    Decides (compareLoop info e fuel false (p ++ [0]) (s ++ [0])) (Matches info 0 p s) := by
  rw [compareLoop_idle fuel (s ++ [0]) fun _ => he]
  exact compareLoop_decides hr hp hs (by omega) (not_dangling_of_zero hp false)

/-- Another one: the code leaves out one that ends the pattern. -/
theorem decides_dangling (hr : Rules info e) (he : e ≠ 0) (h : Dangling info e false p) :
    Decides (compareLoop info e fuel false (p ++ [0]) (s ++ [0]))
      (Matches info e p.dropLast s) := by
  obtain ⟨q, rfl⟩ := dangling_last h
  have hq : 0 ∉ q := fun hz => hp (List.mem_append_left _ hz)
  have hlen : q.length + 1 < fuel := by
    rw [List.length_append, List.length_singleton] at hfuel
    omega
  have hcode := compareLoop_unpaired hr he hq hlen h (s ++ [0])
  rw [List.dropLast_concat, List.append_assoc]
  have hfuel' : q.length < fuel := by omega
  exact (congrArg (fun o => Decides o (Matches info e q s)) hcode).mpr
    (compareLoop_decides hr hq hs hfuel' (not_dangling_front h))

/-- **The loop decides the language of the pattern**, but for these escape characters. -/
theorem compareLoop_escape (hr : Rules info 0) (hset : e ≠ 0 → info.matchSet = 0) :
    (∃ b, compareLoop info e fuel false (p ++ [0]) (s ++ [0]) = some b) ∧
      (EscapeClear info e p s →
        Decides (compareLoop info e fuel false (p ++ [0]) (s ++ [0])) (Matches info e p s)) ∧
      (¬IsWildcard info e → Decides (compareLoop info e fuel false (p ++ [0]) (s ++ [0]))
        (Matches info e p s) → EscapeClear info e p s) := by
  by_cases he : IsWildcard info e
  · have hdec := decides_wildcard hp hs hfuel hr he
    have hne : e ≠ 0 := by
      rcases he with rfl | rfl
      · exact hr.all_ne_zero
      · exact hr.one_ne_zero
    refine ⟨hdec.exists, fun hclear => hdec.congr ?_, fun h => absurd he h⟩
    by_cases hmem : e ∈ p
    · obtain ⟨h0, h1⟩ := not_matches_wildcard hp (hset hne) he hmem hclear
      exact iff_of_false h0 h1
    · exact (matches_absent hmem hp s).symm
  · have hr' : Rules info e := ⟨hr.all_ne_zero, hr.one_ne_zero, hr.all_ne_one, hr.set_ne_all,
      hr.set_ne_one, fun h => he (Or.inl h), fun h => he (Or.inr h), hset⟩
    by_cases hd : Dangling info e false p
    · have hne : e ≠ 0 := fun h => not_dangling_of_zero hp false (h ▸ hd)
      have hdec := decides_dangling hp hs hfuel hr' hne hd
      have hnot := not_matches_dangling hr' hne hp hd s
      exact ⟨hdec.exists, fun hclear => hdec.congr (iff_of_false (hclear.paired hd) hnot),
        fun _ h => ⟨fun h => absurd h he, fun _ hm => hnot ((hdec.unique h).mp hm)⟩⟩
    · have hdec : Decides (compareLoop info e fuel false (p ++ [0]) (s ++ [0]))
          (Matches info e p s) := compareLoop_decides hr' hp hs (by omega) hd
      exact ⟨hdec.exists, fun _ => hdec,
        fun _ _ => ⟨fun h => absurd h he, fun h => absurd h hd⟩⟩

end Loop

end Like

end Sql

end SqliteVms

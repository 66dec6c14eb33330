import SqliteVms.Sql.TokenBounds
import SqliteVms.Util.Hash

/-!
# Complete statements

`sqlite3_complete` of `complete.c` has a tokenizer of its own and a table with eight states. The
table accepts the sequences of statements: a statement that begins with CREATE TRIGGER ends with the
tokens `;` END `;`, any other with its first `;`.

## Main definitions

* `sqlite3Complete` — the function, with every read checked
* `Statement`, `Statements` — the statements of a sequence of tokens

## Main results

* `open_step`, `run_iff` — what the states mean
* `accepts_iff` — what the table accepts
-/

namespace SqliteVms

namespace Sql

namespace Complete

/-! ### The table -/

/-- The tokens of `sqlite3_complete`. -/
inductive Tk
  | tkSemi | tkWs | tkOther | tkExplain | tkCreate | tkTemp | tkTrigger | tkEnd
  deriving DecidableEq, Repr

/-- The states of `sqlite3_complete`. -/
inductive State
  | invalid | start | normal | explain | create | trigger | semi | ended
  deriving DecidableEq, Repr

/-- A row of the table, with a column for each token. -/
def row (a b c d e f g h : State) : Tk → State
  | .tkSemi => a
  | .tkWs => b
  | .tkOther => c
  | .tkExplain => d
  | .tkCreate => e
  | .tkTemp => f
  | .tkTrigger => g
  | .tkEnd => h

def trans : State → Tk → State
  | .invalid => row .start .invalid .normal .explain .create .normal .normal .normal
  | .start => row .start .start .normal .explain .create .normal .normal .normal
  | .normal => row .start .normal .normal .normal .normal .normal .normal .normal
  | .explain => row .start .explain .explain .normal .create .normal .normal .normal
  | .create => row .start .create .normal .normal .normal .create .trigger .normal
  | .trigger => row .semi .trigger .trigger .trigger .trigger .trigger .trigger .trigger
  | .semi => row .semi .semi .trigger .trigger .trigger .trigger .trigger .ended
  | .ended => row .start .ended .trigger .trigger .trigger .trigger .trigger .trigger

/-! ### The tokens -/

/-- What the switch does: a token of `n` bytes, `return 0`, or `return state==1`. -/
inductive Symbol
  | token (t : Tk) (n : ℕ)
  | stop
  | rest

/-- The bytes of a keyword. -/
def word (s : String) : List UInt8 := s.toList.map Char.toUInt8

/-- `sqlite3StrNICmp` of an identifier and a keyword of `n` bytes. -/
def isWord (z : List UInt8) (n : ℕ) (s : String) : Bool :=
  z.length == n && Hash.strnicmp z (word s) n == 0

/-- The token of an identifier. -/
def wordToken (z : List UInt8) : Tk :=
  let c := byteAt z 0
  if c = 'c'.toUInt8 ∨ c = 'C'.toUInt8 then
    if isWord z 6 "create" then .tkCreate else .tkOther
  else if c = 't'.toUInt8 ∨ c = 'T'.toUInt8 then
    if isWord z 7 "trigger" then .tkTrigger
    else if isWord z 4 "temp" then .tkTemp
    else if isWord z 9 "temporary" then .tkTemp
    else .tkOther
  else if c = 'e'.toUInt8 ∨ c = 'E'.toUInt8 then
    if isWord z 3 "end" then .tkEnd
    else if isWord z 7 "explain" then .tkExplain
    else .tkOther
  else .tkOther

/-- The loop for a C-style comment: where `*/` or the terminator is. -/
def blockC (z : List UInt8) : ℕ → ℕ → Option ℕ
  | 0, _ => none
  | fuel + 1, i =>
    (peek z i).bind fun c =>
      if c = 0 then some i
      else if c = '*'.toUInt8 then
        (peek z (i + 1)).bind fun d => if d = '/'.toUInt8 then some i else blockC z fuel (i + 1)
      else blockC z fuel (i + 1)

/-- A name or a text that ends with `c`. -/
def closedC (c : UInt8) (z : List UInt8) : Option Symbol :=
  (scanC (fun d => d ≠ 0 && d ≠ c) z (z.length + 1) 1).bind fun i =>
    (peek z i).map fun d => if d = 0 then .stop else .token .tkOther (i + 1)

/-- The switch. -/
def symbolC (z : List UInt8) : Option Symbol :=
  (peek z 0).bind fun c =>
    if c = ';'.toUInt8 then some (.token .tkSemi 1)
    else if c = 32 ∨ c = 13 ∨ c = 9 ∨ c = 10 ∨ c = 12 then some (.token .tkWs 1)
    else if c = '/'.toUInt8 then
      (peek z 1).bind fun d =>
        if d ≠ '*'.toUInt8 then some (.token .tkOther 1)
        else
          (blockC z (z.length + 1) 2).bind fun i =>
            (peek z i).map fun d => if d = 0 then .stop else .token .tkWs (i + 2)
    else if c = '-'.toUInt8 then
      (peek z 1).bind fun d =>
        if d ≠ '-'.toUInt8 then some (.token .tkOther 1)
        else
          (scanC (fun d => d ≠ 0 && d ≠ 10) z (z.length + 1) 0).bind fun i =>
            (peek z i).map fun d => if d = 0 then .rest else .token .tkWs (i + 1)
    else if c = '['.toUInt8 then closedC ']'.toUInt8 z
    else if c = bquote ∨ c = dquote ∨ c = squote then closedC c z
    else if idChar c = true then
      (scanC idChar z (z.length + 1) 1).map fun i => .token (wordToken (z.take i)) i
    else some (.token .tkOther 1)

/-- The loop over the text that is left. What lies behind the terminator is not read. -/
def completeLoop : ℕ → State → List UInt8 → Option Bool
  | 0, _, _ => none
  | fuel + 1, state, z =>
    (peek z 0).bind fun c =>
      if c = 0 then some (state == .start)
      else
        (symbolC z).bind fun
          | .stop => some false
          | .rest => some (state == .start)
          | .token t n =>
            if z.length < n then none else completeLoop fuel (trans state t) (z.drop n)

/-- `sqlite3_complete`. -/
def sqlite3Complete (zSql : List UInt8) : Option Bool :=
  completeLoop (zSql.length + 1) .invalid zSql

/-! ### Statements -/

/-- Nothing, or EXPLAIN and other tokens. -/
def ExplainPart (p : List Tk) : Prop := p = [] ∨ ∃ k, p = .tkExplain :: List.replicate k .tkOther

/-- The tokens begin with CREATE TRIGGER, perhaps with EXPLAIN and other tokens before it and with
TEMP behind CREATE. -/
def TriggerStart (u : List Tk) : Prop :=
  ∃ p n v, ExplainPart p ∧ u = p ++ .tkCreate :: (List.replicate n .tkTemp ++ .tkTrigger :: v)

/-- The last token closes the statement, or it did before. -/
def Closes (u : List Tk) : Prop :=
  (TriggerStart u ∧ [.tkSemi, .tkEnd, .tkSemi] <:+ u) ∨ (¬ TriggerStart u ∧ [.tkSemi] <:+ u)

/-- A statement: its last token closes it, and none before does. -/
def Statement (u : List Tk) : Prop := Closes u ∧ ∀ v, v <+: u → v ≠ u → ¬ Closes v

/-- Statements, one at least. -/
def Statements (us : List Tk) : Prop :=
  us ≠ [] ∧ ∃ ss : List (List Tk), (∀ s ∈ ss, Statement s) ∧ us = ss.flatten

/-- Behind CREATE. -/
def afterCreate : List Tk → Bool
  | .tkTemp :: u => afterCreate u
  | .tkTrigger :: _ => true
  | _ => false

/-- Behind EXPLAIN. -/
def afterExplain : List Tk → Bool
  | .tkOther :: u => afterExplain u
  | .tkCreate :: u => afterCreate u
  | _ => false

/-- At the beginning of a statement. -/
def triggerStart : List Tk → Bool
  | .tkExplain :: u => afterExplain u
  | .tkCreate :: u => afterCreate u
  | _ => false

theorem afterCreate_iff (u : List Tk) :
    afterCreate u = true ↔ ∃ n v, u = List.replicate n .tkTemp ++ .tkTrigger :: v := by
  fun_induction afterCreate u with
  | case1 u ih =>
    rw [ih]
    constructor
    · rintro ⟨n, v, rfl⟩
      exact ⟨n + 1, v, rfl⟩
    · rintro ⟨n, v, h⟩
      cases n with
      | zero => nomatch h
      | succ n => exact ⟨n, v, (List.cons.inj h).2⟩
  | case2 v => exact iff_of_true rfl ⟨0, v, rfl⟩
  | case3 u h1 h2 =>
    refine iff_of_false Bool.false_ne_true ?_
    rintro ⟨n, v, rfl⟩
    cases n with
    | zero => exact h2 v rfl
    | succ n => exact h1 _ rfl

theorem afterExplain_iff (u : List Tk) : afterExplain u = true ↔
    ∃ k v, u = List.replicate k .tkOther ++ .tkCreate :: v ∧ afterCreate v = true := by
  fun_induction afterExplain u with
  | case1 u ih =>
    rw [ih]
    constructor
    · rintro ⟨k, v, rfl, hv⟩
      exact ⟨k + 1, v, rfl, hv⟩
    · rintro ⟨k, v, h, hv⟩
      cases k with
      | zero => nomatch h
      | succ k => exact ⟨k, v, (List.cons.inj h).2, hv⟩
  | case2 u =>
    constructor
    · intro h
      exact ⟨0, u, rfl, h⟩
    · rintro ⟨k, v, h, hv⟩
      cases k with
      | zero => rwa [(List.cons.inj h).2]
      | succ k => nomatch h
  | case3 u h1 h2 =>
    refine iff_of_false Bool.false_ne_true ?_
    rintro ⟨k, v, rfl, -⟩
    cases k with
    | zero => exact h2 _ rfl
    | succ k => exact h1 _ rfl

theorem triggerStart_iff (u : List Tk) : TriggerStart u ↔ triggerStart u = true := by
  have hexplain : ∀ v, triggerStart (.tkExplain :: v) = afterExplain v := fun _ => rfl
  have hcreate : ∀ v, triggerStart (.tkCreate :: v) = afterCreate v := fun _ => rfl
  constructor
  · rintro ⟨p, n, v, rfl | ⟨k, rfl⟩, rfl⟩
    · rw [List.nil_append, hcreate, afterCreate_iff]
      exact ⟨n, v, rfl⟩
    · rw [List.cons_append, hexplain, afterExplain_iff]
      exact ⟨k, _, rfl, (afterCreate_iff _).mpr ⟨n, v, rfl⟩⟩
  · intro h
    cases u with
    | nil => nomatch h
    | cons t u =>
      cases t with
      | tkExplain =>
        obtain ⟨k, v, rfl, hv⟩ := (afterExplain_iff u).mp h
        obtain ⟨n, w, rfl⟩ := (afterCreate_iff v).mp hv
        exact ⟨_, n, w, Or.inr ⟨k, rfl⟩, rfl⟩
      | tkCreate =>
        obtain ⟨n, w, rfl⟩ := (afterCreate_iff u).mp h
        exact ⟨[], n, w, Or.inl rfl, rfl⟩
      | _ => nomatch h

theorem afterCreate_replicate (n : ℕ) (v : List Tk) :
    afterCreate (List.replicate n .tkTemp ++ v) = afterCreate v := by
  induction n with
  | zero => rfl
  | succ n ih => exact ih

theorem afterExplain_replicate (k : ℕ) (v : List Tk) :
    afterExplain (List.replicate k .tkOther ++ v) = afterExplain v := by
  induction k with
  | zero => rfl
  | succ k ih => exact ih

theorem triggerStart_create {p : List Tk} (hp : ExplainPart p) (n : ℕ) (v : List Tk) :
    triggerStart (p ++ .tkCreate :: List.replicate n .tkTemp ++ v) = afterCreate v := by
  rcases hp with rfl | ⟨k, rfl⟩
  · exact afterCreate_replicate n v
  · rw [List.append_assoc]
    exact (afterExplain_replicate k _).trans (afterCreate_replicate n v)

theorem triggerStart_append {u : List Tk} (h : triggerStart u = true) (v : List Tk) :
    triggerStart (u ++ v) = true := by
  rw [← triggerStart_iff] at h ⊢
  obtain ⟨p, n, w, hp, rfl⟩ := h
  exact ⟨p, n, w ++ v, hp, by simp⟩

instance (u : List Tk) : Decidable (TriggerStart u) :=
  decidable_of_iff _ (triggerStart_iff u).symm

instance (u : List Tk) : Decidable (Closes u) := inferInstanceAs (Decidable (_ ∨ _))

/-! ### What the states mean -/

theorem suffix_snoc {v u : List Tk} {s t : Tk} : v ++ [s] <:+ u ++ [t] ↔ s = t ∧ v <:+ u := by
  rw [List.suffix_concat_iff]
  constructor
  · rintro (h | ⟨w, h, hw⟩)
    · exact absurd h (by simp)
    · obtain ⟨rfl, hlast⟩ := List.append_inj' h rfl
      exact ⟨List.singleton_inj.mp hlast, hw⟩
  · rintro ⟨rfl, h⟩
    exact Or.inr ⟨v, rfl, h⟩

/-- The last token is one token only. -/
theorem not_semi_end {u : List Tk} (h : [Tk.tkSemi] <:+ u) (h' : [Tk.tkSemi, .tkEnd] <:+ u) :
    False := by
  have hlast := (h.getLast (by simp)).trans (h'.getLast (by simp)).symm
  exact absurd hlast (by simp)

theorem closes_snoc (u : List Tk) (t : Tk) : Closes (u ++ [t]) ↔ t = .tkSemi ∧
    (triggerStart (u ++ [t]) = true → [.tkSemi, .tkEnd] <:+ u) := by
  have hthree : [Tk.tkSemi, .tkEnd, .tkSemi] <:+ u ++ [t] ↔ .tkSemi = t ∧ [.tkSemi, .tkEnd] <:+ u :=
    suffix_snoc (v := [.tkSemi, .tkEnd])
  have hone : [Tk.tkSemi] <:+ u ++ [t] ↔ .tkSemi = t ∧ [] <:+ u := suffix_snoc (v := [])
  rw [Closes, triggerStart_iff, hthree, hone, eq_comm (a := t)]
  have hnil : [] <:+ u := List.nil_suffix
  tauto

/-- The tokens of a statement that is not closed, and the state behind them. -/
inductive Open : State → List Tk → Prop
  | invalid : Open .invalid []
  | start : Open .start []
  | explain (k : ℕ) : Open .explain (.tkExplain :: List.replicate k .tkOther)
  | create {p : List Tk} (hp : ExplainPart p) (n : ℕ) :
      Open .create (p ++ .tkCreate :: List.replicate n .tkTemp)
  | normal {u : List Tk} (hne : u ≠ []) (h : ∀ w, triggerStart (u ++ w) = false) : Open .normal u
  | trigger {u : List Tk} (h : triggerStart u = true) (hsemi : ¬ [.tkSemi] <:+ u)
      (hend : ¬ [.tkSemi, .tkEnd] <:+ u) : Open .trigger u
  | semi {u : List Tk} (h : triggerStart u = true) (hsemi : [.tkSemi] <:+ u) : Open .semi u
  | ended {u : List Tk} (h : triggerStart u = true) (hend : [.tkSemi, .tkEnd] <:+ u) : Open .ended u

theorem not_closes {u : List Tk} {t : Tk} (ht : t ≠ .tkSemi) : ¬ Closes (u ++ [t]) :=
  fun h => ht ((closes_snoc u t).mp h).1

/-- A token that no trigger has at this place. -/
theorem open_normal {st : State} {u : List Tk} {t : Tk} {g : List Tk → Bool}
    (h : ∀ w, triggerStart (u ++ [t] ++ w) = g w) (hg : ∀ w, g w = false)
    (hst : trans st t = if t = .tkSemi then .start else .normal) :
    if Closes (u ++ [t]) then trans st t = .start else Open (trans st t) (u ++ [t]) := by
  have hstart : triggerStart (u ++ [t]) = false := by
    rw [← hg [], ← h [], List.append_nil]
  have hcloses := closes_snoc u t
  rw [hstart] at hcloses
  by_cases ht : t = .tkSemi
  · rw [if_pos (hcloses.mpr ⟨ht, fun h => by nomatch h⟩), hst, if_pos ht]
  · rw [if_neg (not_closes ht), hst, if_neg ht]
    exact .normal (by simp) fun w => (h w).trans (hg w)

/-- One more token at the beginning of a statement. -/
theorem open_first (st : State) (t : Tk) (ht : t ≠ .tkWs) (hst : trans st t = trans .start t) :
    if Closes [t] then trans st t = .start else Open (trans st t) [t] := by
  rw [hst]
  have hfirst : ∀ w, triggerStart ([] ++ [t] ++ w) = triggerStart (t :: w) := fun _ => rfl
  cases t with
  | tkWs => exact absurd rfl ht
  | tkExplain =>
    rw [if_neg (by decide)]
    exact .explain 0
  | tkCreate =>
    rw [if_neg (by decide)]
    exact .create (Or.inl rfl) 0
  | _ => exact open_normal hfirst (fun _ => rfl) rfl

/-- **One more token**: the statement is closed, or the next state says what was read. -/
theorem open_step {st : State} {u : List Tk} (h : Open st u) (t : Tk) (ht : t ≠ .tkWs) :
    if Closes (u ++ [t]) then trans st t = .start else Open (trans st t) (u ++ [t]) := by
  cases h with
  | invalid => exact open_first .invalid t ht (by cases t <;> first | rfl | exact absurd rfl ht)
  | start => exact open_first .start t ht rfl
  | explain k =>
    have hword : ∀ w, triggerStart (.tkExplain :: List.replicate k .tkOther ++ [t] ++ w) =
        afterExplain (t :: w) := fun w => by
      rw [List.append_assoc]
      exact afterExplain_replicate k (t :: w)
    cases t with
    | tkWs => exact absurd rfl ht
    | tkOther =>
      rw [if_neg (not_closes (by decide))]
      have hsnoc : Tk.tkExplain :: List.replicate k .tkOther ++ [.tkOther] =
          .tkExplain :: List.replicate (k + 1) .tkOther := by
        rw [List.replicate_succ', List.cons_append]
      rw [hsnoc]
      exact .explain (k + 1)
    | tkCreate =>
      rw [if_neg (not_closes (by decide))]
      exact .create (Or.inr ⟨k, rfl⟩) 0
    | tkSemi => exact open_normal hword (fun _ => rfl) rfl
    | tkExplain => exact open_normal hword (fun _ => rfl) rfl
    | tkTemp => exact open_normal hword (fun _ => rfl) rfl
    | tkTrigger => exact open_normal hword (fun _ => rfl) rfl
    | tkEnd => exact open_normal hword (fun _ => rfl) rfl
  | create hp n =>
    have hword : ∀ w, triggerStart (_ ++ .tkCreate :: List.replicate n .tkTemp ++ [t] ++ w) =
        afterCreate (t :: w) := fun w => by
      rw [List.append_assoc]
      exact triggerStart_create hp n (t :: w)
    cases t with
    | tkWs => exact absurd rfl ht
    | tkTemp =>
      rw [if_neg (not_closes (by decide)), List.append_assoc, List.cons_append,
        ← List.replicate_succ']
      exact .create hp (n + 1)
    | tkTrigger =>
      rw [if_neg (not_closes (by decide))]
      have htrigger := hword []
      rw [List.append_nil] at htrigger
      exact .trigger htrigger (fun h => by nomatch (suffix_snoc (v := []).mp h).1)
        (fun h => by nomatch (suffix_snoc (v := [_]).mp h).1)
    | tkSemi => exact open_normal hword (fun _ => rfl) rfl
    | tkOther => exact open_normal hword (fun _ => rfl) rfl
    | tkExplain => exact open_normal hword (fun _ => rfl) rfl
    | tkCreate => exact open_normal hword (fun _ => rfl) rfl
    | tkEnd => exact open_normal hword (fun _ => rfl) rfl
  | normal hne hn =>
    have hword : ∀ w, triggerStart (u ++ [t] ++ w) = false := fun w => by
      rw [List.append_assoc]
      exact hn (t :: w)
    cases t with
    | tkWs => exact absurd rfl ht
    | _ => exact open_normal hword (fun _ => rfl) rfl
  | trigger htrigger hsemi hend =>
    have htrigger' := triggerStart_append htrigger [t]
    rw [if_neg fun h => hend (((closes_snoc u t).mp h).2 htrigger')]
    by_cases hs : t = .tkSemi
    · subst hs
      exact .semi htrigger' ((suffix_snoc (v := [])).mpr ⟨rfl, List.nil_suffix⟩)
    · have hnext : trans .trigger t = .trigger := by
        cases t with
        | tkSemi => exact absurd rfl hs
        | _ => rfl
      rw [hnext]
      exact .trigger htrigger' (fun h => hs ((suffix_snoc (v := [])).mp h).1.symm)
        fun h => hsemi ((suffix_snoc (v := [_])).mp h).2
  | semi htrigger hsemi =>
    have htrigger' := triggerStart_append htrigger [t]
    have hend : ¬ [Tk.tkSemi, .tkEnd] <:+ u := fun h => not_semi_end hsemi h
    rw [if_neg fun h => hend (((closes_snoc u t).mp h).2 htrigger')]
    by_cases hs : t = .tkSemi
    · subst hs
      exact .semi htrigger' ((suffix_snoc (v := [])).mpr ⟨rfl, List.nil_suffix⟩)
    by_cases he : t = .tkEnd
    · subst he
      exact .ended htrigger' ((suffix_snoc (v := [_])).mpr ⟨rfl, hsemi⟩)
    · have hnext : trans .semi t = .trigger := by
        cases t with
        | tkSemi => exact absurd rfl hs
        | tkEnd => exact absurd rfl he
        | tkWs => exact absurd rfl ht
        | _ => rfl
      rw [hnext]
      exact .trigger htrigger' (fun h => hs ((suffix_snoc (v := [])).mp h).1.symm)
        fun h => he ((suffix_snoc (v := [_])).mp h).1.symm
  | ended htrigger hend =>
    have htrigger' := triggerStart_append htrigger [t]
    have hsemi : ¬ [Tk.tkSemi] <:+ u := fun h => not_semi_end h hend
    by_cases hs : t = .tkSemi
    · rw [if_pos ((closes_snoc u t).mpr ⟨hs, fun _ => hend⟩), hs]
      rfl
    · rw [if_neg (not_closes hs)]
      have hnext : trans .ended t = .trigger := by
        cases t with
        | tkSemi => exact absurd rfl hs
        | tkWs => exact absurd rfl ht
        | _ => rfl
      rw [hnext]
      exact .trigger htrigger' (fun h => hs ((suffix_snoc (v := [])).mp h).1.symm)
        fun h => hsemi ((suffix_snoc (v := [_])).mp h).2

/-- No part of the tokens that were read closes a statement. -/
def Unclosed (u : List Tk) : Prop := ∀ v, v <+: u → ¬ Closes v

theorem unclosed_nil : Unclosed [] := by
  intro v hv
  obtain rfl := List.prefix_nil.mp hv
  decide

theorem Unclosed.snoc {u : List Tk} (h : Unclosed u) {t : Tk} (ht : ¬ Closes (u ++ [t])) :
    Unclosed (u ++ [t]) := by
  intro v hv
  rcases List.prefix_concat_iff.mp hv with rfl | hv
  · exact ht
  · exact h v hv

theorem statement_of_closes {u : List Tk} (h : Unclosed u) {t : Tk} (ht : Closes (u ++ [t])) :
    Statement (u ++ [t]) := by
  refine ⟨ht, fun v hv hne => ?_⟩
  rcases List.prefix_concat_iff.mp hv with rfl | hv
  · exact absurd rfl hne
  · exact h v hv

theorem Open.ne_start {st : State} {u : List Tk} (h : Open st u) (hne : u ≠ []) : st ≠ .start := by
  cases h with
  | start => exact absurd rfl hne
  | _ => decide

/-- **What the table accepts**, after a part of a statement. -/
theorem run_iff {st : State} {u : List Tk} (h : Open st u) (hu : Unclosed u) {us : List Tk}
    (hws : ∀ t ∈ us, t ≠ .tkWs) : us.foldl trans st = .start ↔ (st = .start ∧ us = []) ∨
      ∃ a b, us = a ++ b ∧ a ≠ [] ∧ Statement (u ++ a) ∧
        ∃ ss : List (List Tk), (∀ s ∈ ss, Statement s) ∧ b = ss.flatten := by
  induction us generalizing st u with
  | nil =>
    rw [List.foldl_nil]
    constructor
    · exact fun h => Or.inl ⟨h, rfl⟩
    · rintro (h | ⟨a, b, hab, ha, -⟩)
      · exact h.1
      · exact absurd (List.append_eq_nil_iff.mp hab.symm).1 ha
  | cons t us ih =>
    obtain ⟨ht, hws⟩ := List.forall_mem_cons.mp hws
    have hstep := open_step h t ht
    rw [List.foldl_cons]
    by_cases hc : Closes (u ++ [t])
    · -- the statement ends here
      rw [if_pos hc] at hstep
      rw [hstep, ih .start unclosed_nil hws]
      constructor
      · intro hrest
        refine Or.inr ⟨[t], us, rfl, by simp, statement_of_closes hu hc, ?_⟩
        rcases hrest with ⟨-, rfl⟩ | ⟨a, b, rfl, -, ha, ss, hss, rfl⟩
        · exact ⟨[], List.forall_mem_nil _, rfl⟩
        · exact ⟨a :: ss, List.forall_mem_cons.mpr ⟨ha, hss⟩, rfl⟩
      · rintro (⟨-, hnil⟩ | ⟨a, b, hab, ha, hstatement, ss, hss, rfl⟩)
        · nomatch hnil
        · cases a with
          | nil => exact absurd rfl ha
          | cons s a =>
            obtain ⟨rfl, rfl⟩ := List.cons.inj hab
            have hprefix : u ++ [t] <+: u ++ t :: a := by simp
            have hnil : a = [] := by
              by_contra hne
              exact hstatement.2 _ hprefix (by simpa using Ne.symm hne) hc
            subst hnil
            cases ss with
            | nil => exact Or.inl ⟨rfl, rfl⟩
            | cons s ss =>
              obtain ⟨hs, hss⟩ := List.forall_mem_cons.mp hss
              refine Or.inr ⟨s, ss.flatten, rfl, ?_, hs, ss, hss, rfl⟩
              rintro rfl
              exact unclosed_nil [] List.prefix_rfl hs.1
    · rw [if_neg hc] at hstep
      rw [ih hstep (hu.snoc hc) hws]
      constructor
      · rintro (⟨hstart, -⟩ | ⟨a, b, rfl, -, ha, hb⟩)
        · exact absurd hstart (hstep.ne_start (by simp))
        · refine Or.inr ⟨t :: a, b, rfl, by simp, ?_, hb⟩
          rwa [List.append_assoc] at ha
      · rintro (⟨-, hnil⟩ | ⟨a, b, hab, ha, hstatement, hb⟩)
        · nomatch hnil
        · cases a with
          | nil => exact absurd rfl ha
          | cons s a =>
            obtain ⟨rfl, rfl⟩ := List.cons.inj hab
            refine Or.inr ⟨a, b, rfl, ?_, by rwa [List.append_assoc], hb⟩
            rintro rfl
            exact hc hstatement.1

/-- **The table accepts statements**, one at least. -/
theorem accepts_iff {us : List Tk} (hws : ∀ t ∈ us, t ≠ .tkWs) :
    us.foldl trans .invalid = .start ↔ Statements us := by
  rw [run_iff .invalid unclosed_nil hws, Statements]
  constructor
  · rintro (⟨h, -⟩ | ⟨a, b, rfl, ha, hstatement, ss, hss, rfl⟩)
    · nomatch h
    · exact ⟨by simp [ha], a :: ss, List.forall_mem_cons.mpr ⟨hstatement, hss⟩, rfl⟩
  · rintro ⟨hne, ss, hss, rfl⟩
    cases ss with
    | nil => exact absurd rfl hne
    | cons s ss =>
      obtain ⟨hs, hss⟩ := List.forall_mem_cons.mp hss
      refine Or.inr ⟨s, ss.flatten, rfl, ?_, hs, ss, hss, rfl⟩
      rintro rfl
      exact unclosed_nil [] List.prefix_rfl hs.1

end Complete

end Sql

end SqliteVms

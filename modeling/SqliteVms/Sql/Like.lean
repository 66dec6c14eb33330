import SqliteVms.Util.Hash

/-!
# LIKE and GLOB

`patternCompare` of `func.c` on texts that are decoded: a text is the list of its characters as
`sqlite3Utf8Read` returns them, with a zero at the end, and nothing behind the zero may be read.

What a pattern means is said by `Matches`: `matchAll` stands for any sequence, `matchOne` for any
character, a set in brackets for a character by its rules, the escape character for the character
behind it, and other characters for themselves.

## Main definitions

* `compareLoop` — the loop of `patternCompare`
* `Matches` — the language of a pattern
* `Dangling` — the pattern ends in an escape character with nothing behind it

## Main results

* `compareLoop_decides` — the loop decides the language
-/

namespace SqliteVms

namespace Sql

namespace Like

open Hash

/-! ### The code -/

/-- `struct compareInfo`. -/
structure CompareInfo where
  matchAll : ℕ
  matchOne : ℕ
  matchSet : ℕ
  noCase : Bool

def globInfo : CompareInfo := ⟨'*'.toNat, '?'.toNat, '['.toNat, false⟩

def likeInfoNorm : CompareInfo := ⟨'%'.toNat, '_'.toNat, 0, true⟩

def likeInfoAlt : CompareInfo := ⟨'%'.toNat, '_'.toNat, 0, false⟩

/-- `GlogUpperToLower`, where `noCase` is set. -/
def foldCase (noCase : Bool) (c : ℕ) : ℕ :=
  if noCase = true ∧ c < 128 then (upperToLower (.ofNat c)).toNat else c

/-- The loop over the wildcards behind a `matchAll`: the next character, and what is left of the
pattern and of the string. The inner `none` is the return of zero. -/
def runLoop (info : CompareInfo) : List ℕ → List ℕ → Option (Option (ℕ × List ℕ × List ℕ))
  | [], _ => none
  | c :: zPattern, zString =>
    if c = info.matchAll then runLoop info zPattern zString
    else if c = info.matchOne then
      match zString with
      | [] => none
      | d :: zString => if d = 0 then some none else runLoop info zPattern zString
    else some (some (c, zPattern, zString))

/-- The loop that looks for the character `c` and compares the rest behind it. -/
def searchLoop (compare : List ℕ → Option Bool) (noCase : Bool) (c : ℕ) : List ℕ → Option Bool
  | [] => none
  | c2 :: zString =>
    if c2 = 0 then some false
    else if foldCase noCase c2 = foldCase noCase c then
      (compare zString).bind fun found =>
        if found = true then some true else searchLoop compare noCase c zString
    else searchLoop compare noCase c zString

/-- The loop that compares a pattern that begins with a set at each place of the string. -/
def setSearch (compare : List ℕ → Option Bool) : List ℕ → Option Bool
  | [] => none
  | c :: zString =>
    if c = 0 then some false
    else
      (compare (c :: zString)).bind fun found =>
        if found = true then some true else setSearch compare zString

/-- The loop over a set: whether the character `c` was seen, and what follows the set. The inner
`none` is for a set that is not closed. -/
def setLoop (c : ℕ) : List ℕ → ℕ → Bool → Option (Option (Bool × List ℕ))
  | [], _, _ => none
  | c2 :: zPattern, prior, seen =>
    if c2 = 0 then some none
    else if c2 = ']'.toNat then some (some (seen, zPattern))
    else
      match zPattern with
      | [] => none
      | d :: rest =>
        if c2 = '-'.toNat ∧ d ≠ ']'.toNat ∧ d ≠ 0 ∧ 0 < prior then
          setLoop c rest 0 (seen || (decide (prior ≤ c) && decide (c ≤ d)))
        else setLoop c (d :: rest) c2 (seen || decide (c = c2))

/-- What a set begins with: whether it is inverted, whether it has a `]` of its own, and what
follows. -/
def setParts : List ℕ → Bool × Bool × List ℕ
  | [] => (false, false, [])
  | c :: z =>
    if c = '^'.toNat then
      match z with
      | [] => (true, false, [])
      | d :: z => if d = ']'.toNat then (true, true, z) else (true, false, d :: z)
    else if c = ']'.toNat then (false, true, z)
    else (false, false, c :: z)

/-- The branch for a set: what follows it if the character `c` matches. -/
def setMatch (c : ℕ) (zPattern : List ℕ) : Option (Option (List ℕ)) :=
  let (invert, bracket, zPattern) := setParts zPattern
  (setLoop c zPattern 0 (bracket && decide (c = ']'.toNat))).map fun r =>
    r.bind fun (seen, zPattern) => if (seen ^^ invert) = true then some zPattern else none

/-- The loop of `patternCompare`; `prevEscape` says that the previous character was the escape
character. -/
def compareLoop (info : CompareInfo) (esc : ℕ) : ℕ → Bool → List ℕ → List ℕ → Option Bool
  | 0, _, _, _ => none
  | _ + 1, _, [], _ => none
  | fuel + 1, prevEscape, c :: zPattern, zString =>
    if c = 0 then zString.head?.map fun d => decide (d = 0)
    else if c = info.matchAll ∧ prevEscape = false then
      (runLoop info zPattern zString).bind fun r =>
        match r with
        | none => some false
        | some (c, zPattern, zString) =>
          if c = 0 then some true
          else if c = esc then
            match zPattern with
            | [] => none
            | c :: zPattern =>
              if c = 0 then some false
              else searchLoop (compareLoop info esc fuel false zPattern) info.noCase c zString
          else if c = info.matchSet then
            setSearch (compareLoop info esc fuel false (c :: zPattern)) zString
          else searchLoop (compareLoop info esc fuel false zPattern) info.noCase c zString
    else if c = info.matchOne ∧ prevEscape = false then
      match zString with
      | [] => none
      | d :: zString =>
        if d = 0 then some false else compareLoop info esc fuel false zPattern zString
    else if c = info.matchSet then
      match zString with
      | [] => none
      | d :: zString =>
        if d = 0 then some false
        else
          (setMatch d zPattern).bind fun r =>
            match r with
            | none => some false
            | some zPattern => compareLoop info esc fuel prevEscape zPattern zString
    else if esc = c ∧ prevEscape = false then compareLoop info esc fuel true zPattern zString
    else
      match zString with
      | [] => none
      | d :: zString =>
        if foldCase info.noCase c ≠ foldCase info.noCase d then some false
        else compareLoop info esc fuel false zPattern zString

/-- `patternCompare`: a call consumes at least one character of the pattern. -/
def patternCompare (info : CompareInfo) (esc : ℕ) (zPattern zString : List ℕ) : Option Bool :=
  compareLoop info esc (zPattern.length + 1) false zPattern zString

/-! ### The language of a pattern -/

/-- The members of a set: single characters, and ranges. A `-` that has nothing before it or behind
it is a character. -/
def Member (c : ℕ) : List ℕ → Prop
  | [] => False
  | [x] => c = x
  | [x, y] => c = x ∨ c = y
  | x :: m :: y :: l =>
    if m = '-'.toNat then c = x ∨ (x ≤ c ∧ c ≤ y) ∨ Member c l else c = x ∨ Member c (m :: y :: l)

/-- A set with the members `l` matches the character. -/
def InSet (invert bracket : Bool) (l : List ℕ) (c : ℕ) : Prop :=
  (bracket = true ∧ c = ']'.toNat ∨ Member c l) ↔ invert = false

/-- The language of a pattern. -/
inductive Matches (info : CompareInfo) (esc : ℕ) : List ℕ → List ℕ → Prop
  | nil : Matches info esc [] []
  | escape (c d : ℕ) (p s : List ℕ) (hesc : esc ≠ 0)
      (h : foldCase info.noCase c = foldCase info.noCase d) :
      Matches info esc p s → Matches info esc (esc :: c :: p) (d :: s)
  | all (p t s : List ℕ) (hesc : esc ≠ info.matchAll) :
      Matches info esc p s → Matches info esc (info.matchAll :: p) (t ++ s)
  | one (d : ℕ) (p s : List ℕ) (hesc : esc ≠ info.matchOne) :
      Matches info esc p s → Matches info esc (info.matchOne :: p) (d :: s)
  | set (d : ℕ) (body l p s : List ℕ) (invert bracket : Bool) (hset : info.matchSet ≠ 0)
      (hparts : setParts body = (invert, bracket, l ++ ']'.toNat :: p)) (hl : ']'.toNat ∉ l)
      (hin : InSet invert bracket l d) :
      Matches info esc p s → Matches info esc (info.matchSet :: body) (d :: s)
  | self (c d : ℕ) (p s : List ℕ) (hesc : c ≠ esc) (hall : c ≠ info.matchAll)
      (hone : c ≠ info.matchOne) (hset : c ≠ info.matchSet)
      (h : foldCase info.noCase c = foldCase info.noCase d) :
      Matches info esc p s → Matches info esc (c :: p) (d :: s)

/-- The pattern ends in an escape character with nothing behind it. Behind a `matchAll` and other
wildcards the code sees that, so this is not counted there. -/
def Dangling (info : CompareInfo) (esc : ℕ) : Bool → List ℕ → Prop
  | _, [] => False
  | afterAll, [c] => c = esc ∧ afterAll = false
  | afterAll, c :: d :: p =>
    if c = esc then Dangling info esc false p
    else if c = info.matchAll then Dangling info esc true (d :: p)
    else if c = info.matchOne then Dangling info esc afterAll (d :: p)
    else Dangling info esc false (d :: p)

/-- The special characters are different ones, and an escape character is neither a wildcard nor
used together with sets. -/
structure Rules (info : CompareInfo) (esc : ℕ) : Prop where
  all_ne_zero : info.matchAll ≠ 0
  one_ne_zero : info.matchOne ≠ 0
  all_ne_one : info.matchAll ≠ info.matchOne
  set_ne_all : info.matchSet ≠ info.matchAll
  set_ne_one : info.matchSet ≠ info.matchOne
  esc_ne_all : esc ≠ info.matchAll
  esc_ne_one : esc ≠ info.matchOne
  set_of_esc : esc ≠ 0 → info.matchSet = 0

/-- A result of the code says whether something is so. -/
def Decides (o : Option Bool) (P : Prop) : Prop := o = some true ∧ P ∨ o = some false ∧ ¬P

theorem decides_true {P : Prop} (h : P) : Decides (some true) P := Or.inl ⟨rfl, h⟩

theorem decides_false {P : Prop} (h : ¬P) : Decides (some false) P := Or.inr ⟨rfl, h⟩

theorem Decides.congr {o : Option Bool} {P Q : Prop} (h : Decides o P) (hPQ : P ↔ Q) :
    Decides o Q := by
  rcases h with ⟨ho, hP⟩ | ⟨ho, hP⟩
  · exact Or.inl ⟨ho, hPQ.mp hP⟩
  · exact Or.inr ⟨ho, fun hQ => hP (hPQ.mpr hQ)⟩

variable {info : CompareInfo} {esc : ℕ}

/-! ### What a pattern matches -/

/-- How a pattern and a string may match. -/
theorem Matches.inv {q s : List ℕ} (h : Matches info esc q s) :
    (q = [] ∧ s = []) ∨
      (∃ c d p s', q = esc :: c :: p ∧ s = d :: s' ∧ esc ≠ 0 ∧
        foldCase info.noCase c = foldCase info.noCase d ∧ Matches info esc p s') ∨
      (∃ p t s', q = info.matchAll :: p ∧ s = t ++ s' ∧ Matches info esc p s') ∨
      (∃ d p s', q = info.matchOne :: p ∧ s = d :: s' ∧ Matches info esc p s') ∨
      (∃ d body l p s' invert bracket, q = info.matchSet :: body ∧ s = d :: s' ∧
        info.matchSet ≠ 0 ∧ setParts body = (invert, bracket, l ++ ']'.toNat :: p) ∧
        ']'.toNat ∉ l ∧ InSet invert bracket l d ∧ Matches info esc p s') ∨
      (∃ c d p s', q = c :: p ∧ s = d :: s' ∧ c ≠ esc ∧ c ≠ info.matchAll ∧ c ≠ info.matchOne ∧
        c ≠ info.matchSet ∧ foldCase info.noCase c = foldCase info.noCase d ∧
        Matches info esc p s') := by
  cases h with
  | nil => exact Or.inl ⟨rfl, rfl⟩
  | escape c d p s hesc h hm => exact Or.inr (Or.inl ⟨c, d, p, s, rfl, rfl, hesc, h, hm⟩)
  | all p t s hesc hm => exact Or.inr (Or.inr (Or.inl ⟨p, t, s, rfl, rfl, hm⟩))
  | one d p s hesc hm => exact Or.inr (Or.inr (Or.inr (Or.inl ⟨d, p, s, rfl, rfl, hm⟩)))
  | set d body l p s invert bracket hset hparts hl hin hm =>
    exact Or.inr (Or.inr (Or.inr (Or.inr (Or.inl
      ⟨d, body, l, p, s, invert, bracket, rfl, rfl, hset, hparts, hl, hin, hm⟩))))
  | self c d p s hesc hall hone hset h hm =>
    exact Or.inr (Or.inr (Or.inr (Or.inr (Or.inr
      ⟨c, d, p, s, rfl, rfl, hesc, hall, hone, hset, h, hm⟩))))

theorem matches_nil {s : List ℕ} : Matches info esc [] s ↔ s = [] := by
  constructor
  · intro h
    cases h
    rfl
  · rintro rfl
    exact Matches.nil

theorem matches_all (hr : Rules info esc) {p s : List ℕ} :
    Matches info esc (info.matchAll :: p) s ↔ ∃ t s', s = t ++ s' ∧ Matches info esc p s' := by
  constructor
  · intro h
    rcases h.inv with ⟨hq, -⟩ | ⟨c, d, p', s', hq, -⟩ | ⟨p', t, s', hq, hs, hm⟩ |
      ⟨d, p', s', hq, -⟩ | ⟨d, body, l, p', s', _, _, hq, -⟩ | ⟨c, d, p', s', hq, -, -, hne, -⟩
    · cases hq
    · exact absurd (List.cons.inj hq).1.symm hr.esc_ne_all
    · obtain ⟨-, rfl⟩ := List.cons.inj hq
      exact ⟨t, s', hs, hm⟩
    · exact absurd (List.cons.inj hq).1 hr.all_ne_one
    · exact absurd (List.cons.inj hq).1.symm hr.set_ne_all
    · exact absurd (List.cons.inj hq).1.symm hne
  · rintro ⟨t, s', rfl, hm⟩
    exact Matches.all p t s' hr.esc_ne_all hm

theorem matches_one (hr : Rules info esc) {p s : List ℕ} :
    Matches info esc (info.matchOne :: p) s ↔ ∃ d s', s = d :: s' ∧ Matches info esc p s' := by
  constructor
  · intro h
    rcases h.inv with ⟨hq, -⟩ | ⟨c, d, p', s', hq, -⟩ | ⟨p', t, s', hq, -⟩ |
      ⟨d, p', s', hq, hs, hm⟩ | ⟨d, body, l, p', s', _, _, hq, -⟩ |
      ⟨c, d, p', s', hq, -, -, -, hne, -⟩
    · cases hq
    · exact absurd (List.cons.inj hq).1.symm hr.esc_ne_one
    · exact absurd (List.cons.inj hq).1.symm hr.all_ne_one
    · obtain ⟨-, rfl⟩ := List.cons.inj hq
      exact ⟨d, s', hs, hm⟩
    · exact absurd (List.cons.inj hq).1.symm hr.set_ne_one
    · exact absurd (List.cons.inj hq).1.symm hne
  · rintro ⟨d, s', rfl, hm⟩
    exact Matches.one d p s' hr.esc_ne_one hm

theorem matches_escape (hr : Rules info esc) (hesc : esc ≠ 0) {c : ℕ} {p s : List ℕ} :
    Matches info esc (esc :: c :: p) s ↔ ∃ d s', s = d :: s' ∧
      foldCase info.noCase c = foldCase info.noCase d ∧ Matches info esc p s' := by
  constructor
  · intro h
    rcases h.inv with ⟨hq, -⟩ | ⟨c', d, p', s', hq, hs, -, hcd, hm⟩ | ⟨p', t, s', hq, -⟩ |
      ⟨d, p', s', hq, -⟩ | ⟨d, body, l, p', s', _, _, hq, -, hset, -⟩ |
      ⟨c', d, p', s', hq, -, hne, -⟩
    · cases hq
    · obtain ⟨-, hrest⟩ := List.cons.inj hq
      obtain ⟨rfl, rfl⟩ := List.cons.inj hrest
      exact ⟨d, s', hs, hcd, hm⟩
    · exact absurd (List.cons.inj hq).1 hr.esc_ne_all
    · exact absurd (List.cons.inj hq).1 hr.esc_ne_one
    · exact absurd (hr.set_of_esc hesc) hset
    · exact absurd (List.cons.inj hq).1.symm hne
  · rintro ⟨d, s', rfl, hcd, hm⟩
    exact Matches.escape c d p s' hesc hcd hm

/-- An escape character alone matches nothing. -/
theorem not_matches_escape (hr : Rules info esc) (hesc : esc ≠ 0) {s : List ℕ} :
    ¬Matches info esc [esc] s := by
  intro h
  rcases h.inv with ⟨hq, -⟩ | ⟨c', d, p', s', hq, -⟩ | ⟨p', t, s', hq, -⟩ |
    ⟨d, p', s', hq, -⟩ | ⟨d, body, l, p', s', _, _, hq, -, hset, -⟩ | ⟨c', d, p', s', hq, -, hne, -⟩
  · cases hq
  · cases hq
  · exact hr.esc_ne_all (List.cons.inj hq).1
  · exact hr.esc_ne_one (List.cons.inj hq).1
  · exact hset (hr.set_of_esc hesc)
  · exact hne (List.cons.inj hq).1.symm

theorem matches_self {c : ℕ} (hesc : c ≠ esc) (hall : c ≠ info.matchAll)
    (hone : c ≠ info.matchOne) (hset : c ≠ info.matchSet) {p s : List ℕ} :
    Matches info esc (c :: p) s ↔ ∃ d s', s = d :: s' ∧
      foldCase info.noCase c = foldCase info.noCase d ∧ Matches info esc p s' := by
  constructor
  · intro h
    rcases h.inv with ⟨hq, -⟩ | ⟨c', d, p', s', hq, -⟩ | ⟨p', t, s', hq, -⟩ |
      ⟨d, p', s', hq, -⟩ | ⟨d, body, l, p', s', _, _, hq, -⟩ |
      ⟨c', d, p', s', hq, hs, -, -, -, -, hcd, hm⟩
    · cases hq
    · exact absurd (List.cons.inj hq).1 hesc
    · exact absurd (List.cons.inj hq).1 hall
    · exact absurd (List.cons.inj hq).1 hone
    · exact absurd (List.cons.inj hq).1 hset
    · obtain ⟨rfl, rfl⟩ := List.cons.inj hq
      exact ⟨d, s', hs, hcd, hm⟩
  · rintro ⟨d, s', rfl, hcd, hm⟩
    exact Matches.self c d p s' hesc hall hone hset hcd hm

theorem matches_set (hr : Rules info esc) (hset : info.matchSet ≠ 0) {body s : List ℕ} :
    Matches info esc (info.matchSet :: body) s ↔ ∃ d s' invert bracket l p, s = d :: s' ∧
      setParts body = (invert, bracket, l ++ ']'.toNat :: p) ∧ ']'.toNat ∉ l ∧
      InSet invert bracket l d ∧ Matches info esc p s' := by
  constructor
  · intro h
    rcases h.inv with ⟨hq, -⟩ | ⟨c', d, p', s', hq, -, hesc, -⟩ | ⟨p', t, s', hq, -⟩ |
      ⟨d, p', s', hq, -⟩ | ⟨d, body, l, p', s', invert, bracket, hq, hs, -, hparts, hl, hin, hm⟩ |
      ⟨c', d, p', s', hq, -, -, -, -, hne, -⟩
    · cases hq
    · exact absurd (hr.set_of_esc hesc) hset
    · exact absurd (List.cons.inj hq).1 hr.set_ne_all
    · exact absurd (List.cons.inj hq).1 hr.set_ne_one
    · obtain ⟨-, rfl⟩ := List.cons.inj hq
      exact ⟨d, s', invert, bracket, l, p', hs, hparts, hl, hin, hm⟩
    · exact absurd (List.cons.inj hq).1.symm hne
  · rintro ⟨d, s', invert, bracket, l, p, rfl, hparts, hl, hin, hm⟩
    exact Matches.set d body l p s' invert bracket hset hparts hl hin hm

/-! ### Behind a wildcard -/

/-- What a pattern matches somewhere behind the start of a string. -/
def Somewhere (info : CompareInfo) (esc : ℕ) (p s : List ℕ) : Prop :=
  ∃ t s', s = t ++ s' ∧ Matches info esc p s'

theorem somewhere_nil (s : List ℕ) : Somewhere info esc [] s :=
  ⟨s, [], (List.append_nil s).symm, Matches.nil⟩

theorem somewhere_all (hr : Rules info esc) {p s : List ℕ} :
    Somewhere info esc (info.matchAll :: p) s ↔ Somewhere info esc p s := by
  constructor
  · rintro ⟨t, s', rfl, hm⟩
    obtain ⟨t', s'', rfl, hm'⟩ := (matches_all hr).mp hm
    exact ⟨t ++ t', s'', (List.append_assoc _ _ _).symm, hm'⟩
  · rintro ⟨t, s', rfl, hm⟩
    exact ⟨t, s', rfl, (matches_all hr).mpr ⟨[], s', rfl, hm⟩⟩

/-- Any sequence and then any character are the same as the character first. -/
theorem somewhere_one (hr : Rules info esc) {p s : List ℕ} :
    Somewhere info esc (info.matchOne :: p) s ↔ ∃ d s', s = d :: s' ∧ Somewhere info esc p s' := by
  constructor
  · rintro ⟨t, s', rfl, hm⟩
    obtain ⟨d, s'', rfl, hm'⟩ := (matches_one hr).mp hm
    cases t with
    | nil => exact ⟨d, s'', rfl, [], s'', rfl, hm'⟩
    | cons e t => exact ⟨e, t ++ d :: s'', rfl, t ++ [d], s'', by simp, hm'⟩
  · rintro ⟨d, s', rfl, t, s'', rfl, hm⟩
    cases t with
    | nil => exact ⟨[], d :: s'', rfl, (matches_one hr).mpr ⟨d, s'', rfl, hm⟩⟩
    | cons e t =>
      -- the character that is matched is the last one of the sequence
      obtain ⟨u, f, huf⟩ : ∃ u f, d :: e :: t = u ++ [f] :=
        ⟨(d :: e :: t).dropLast, (d :: e :: t).getLast (List.cons_ne_nil _ _),
          (List.dropLast_append_getLast _).symm⟩
      refine ⟨u, f :: s'', ?_, (matches_one hr).mpr ⟨f, s'', rfl, hm⟩⟩
      have happ : d :: (e :: t ++ s'') = (d :: e :: t) ++ s'' := rfl
      rw [happ, huf, List.append_assoc]
      rfl

/-- Where a character of the pattern is found, and the rest of the string matches the rest. -/
def FoundAt (noCase : Bool) (c : ℕ) (Q : List ℕ → Prop) (s : List ℕ) : Prop :=
  ∃ u e v, s = u ++ e :: v ∧ foldCase noCase c = foldCase noCase e ∧ Q v

theorem somewhere_iff_foundAt {p q s : List ℕ} {c : ℕ}
    (h : ∀ s, Matches info esc q s ↔ ∃ d s', s = d :: s' ∧
      foldCase info.noCase c = foldCase info.noCase d ∧ Matches info esc p s') :
    Somewhere info esc q s ↔ FoundAt info.noCase c (Matches info esc p) s := by
  constructor
  · rintro ⟨t, s', rfl, hm⟩
    obtain ⟨d, s'', rfl, hcd, hm'⟩ := (h s').mp hm
    exact ⟨t, d, s'', rfl, hcd, hm'⟩
  · rintro ⟨u, e, v, rfl, hce, hm⟩
    exact ⟨u, e :: v, rfl, (h _).mpr ⟨e, v, rfl, hce, hm⟩⟩

theorem foundAt_cons {noCase : Bool} {c d : ℕ} {Q : List ℕ → Prop} {s : List ℕ} :
    FoundAt noCase c Q (d :: s) ↔
      (foldCase noCase c = foldCase noCase d ∧ Q s) ∨ FoundAt noCase c Q s := by
  constructor
  · rintro ⟨u, e, v, hs, hce, hQ⟩
    cases u with
    | nil =>
      obtain ⟨rfl, rfl⟩ := List.cons.inj hs
      exact Or.inl ⟨hce, hQ⟩
    | cons f u =>
      obtain ⟨rfl, rfl⟩ := List.cons.inj hs
      exact Or.inr ⟨u, e, v, rfl, hce, hQ⟩
  · rintro (⟨hcd, hQ⟩ | ⟨u, e, v, rfl, hce, hQ⟩)
    · exact ⟨[], d, s, rfl, hcd, hQ⟩
    · exact ⟨d :: u, e, v, rfl, hce, hQ⟩

/-- **The loop that looks for a character.** -/
theorem searchLoop_decides {compare : List ℕ → Option Bool} {Q : List ℕ → Prop} (noCase : Bool)
    (c : ℕ) {s : List ℕ} (hs : 0 ∉ s)
    (hcompare : ∀ v, 0 ∉ v → Decides (compare (v ++ [0])) (Q v)) :
    Decides (searchLoop compare noCase c (s ++ [0])) (FoundAt noCase c Q s) := by
  induction s with
  | nil =>
    refine decides_false ?_
    rintro ⟨u, e, v, h, -⟩
    exact absurd h.symm (by simp)
  | cons d s ih =>
    rw [List.mem_cons, not_or] at hs
    have hrest := ih hs.2
    rw [List.cons_append, searchLoop, if_neg (Ne.symm hs.1)]
    by_cases hcd : foldCase noCase d = foldCase noCase c
    · rw [if_pos hcd]
      rcases hcompare s hs.2 with ⟨hok, hQ⟩ | ⟨hok, hQ⟩
      · rw [hok]
        exact decides_true (foundAt_cons.mpr (Or.inl ⟨hcd.symm, hQ⟩))
      · rw [hok]
        refine hrest.congr (foundAt_cons.trans ?_).symm
        exact ⟨fun h => h.resolve_left fun h => hQ h.2, Or.inr⟩
    · rw [if_neg hcd]
      refine hrest.congr (foundAt_cons.trans ?_).symm
      exact ⟨fun h => h.resolve_left fun h => hcd h.1.symm, Or.inr⟩

/-- **The loop that compares a set at each place.** -/
theorem setSearch_decides {compare : List ℕ → Option Bool} {Q : List ℕ → Prop} (hnil : ¬Q [])
    {s : List ℕ} (hs : 0 ∉ s) (hcompare : ∀ v, 0 ∉ v → Decides (compare (v ++ [0])) (Q v)) :
    Decides (setSearch compare (s ++ [0])) (∃ t s', s = t ++ s' ∧ Q s') := by
  induction s with
  | nil =>
    refine decides_false ?_
    rintro ⟨t, s', h, hQ⟩
    rw [(List.append_eq_nil_iff.mp h.symm).2] at hQ
    exact hnil hQ
  | cons d s ih =>
    have hhere := hcompare (d :: s) hs
    rw [List.mem_cons, not_or] at hs
    have hrest := ih hs.2
    rw [List.cons_append] at hhere ⊢
    rw [setSearch, if_neg (Ne.symm hs.1)]
    rcases hhere with ⟨hok, hQ⟩ | ⟨hok, hQ⟩
    · rw [hok]
      exact decides_true ⟨[], d :: s, rfl, hQ⟩
    · rw [hok]
      refine hrest.congr ⟨?_, ?_⟩
      · rintro ⟨t, s', rfl, hQ'⟩
        exact ⟨d :: t, s', rfl, hQ'⟩
      · rintro ⟨t, s', h, hQ'⟩
        cases t with
        | nil =>
          rw [List.nil_append] at h
          exact absurd (h ▸ hQ') hQ
        | cons e t =>
          obtain ⟨rfl, rfl⟩ := List.cons.inj h
          exact ⟨t, s', rfl, hQ'⟩

/-- What the wildcards behind a `matchAll` lead to. -/
inductive Run (info : CompareInfo) (esc : ℕ) (p s : List ℕ) :
    Option (ℕ × List ℕ × List ℕ) → Prop
  | short (h : ¬Somewhere info esc p s) : Run info esc p s none
  | done (z z' : List ℕ) (h : Somewhere info esc p s) : Run info esc p s (some (0, z, z'))
  | next (c : ℕ) (p' s' : List ℕ) (hc : c ≠ 0) (hall : c ≠ info.matchAll)
      (hone : c ≠ info.matchOne) (hp : 0 ∉ p') (hs : 0 ∉ s') (hlen : p'.length < p.length)
      (hdangling : ¬Dangling info esc true p → ¬Dangling info esc true (c :: p'))
      (h : Somewhere info esc p s ↔ Somewhere info esc (c :: p') s') :
      Run info esc p s (some (c, p' ++ [0], s' ++ [0]))

/-- A wildcard is no escape character. -/
theorem dangling_cons (hr : Rules info esc) {c : ℕ} (p : List ℕ)
    (h : c = info.matchAll ∨ c = info.matchOne) :
    Dangling info esc true p → Dangling info esc true (c :: p) := by
  intro hp
  have hne : c ≠ esc := by
    rcases h with rfl | rfl
    · exact hr.esc_ne_all.symm
    · exact hr.esc_ne_one.symm
  cases p with
  | nil => exact hp.elim
  | cons d p =>
    rw [Dangling, if_neg hne]
    split
    · exact hp
    split
    · exact hp
    · rename_i hall hone
      exact (h.elim hall hone).elim

theorem runLoop_run (hr : Rules info esc) {p s : List ℕ} (hp : 0 ∉ p) (hs : 0 ∉ s) :
    ∃ r, runLoop info (p ++ [0]) (s ++ [0]) = some r ∧ Run info esc p s r := by
  induction p generalizing s with
  | nil =>
    refine ⟨some (0, [], s ++ [0]), ?_, Run.done _ _ (somewhere_nil s)⟩
    rw [List.nil_append, runLoop.eq_def]
    dsimp only
    rw [if_neg (Ne.symm hr.all_ne_zero), if_neg (Ne.symm hr.one_ne_zero)]
  | cons c p ih =>
    rw [List.mem_cons, not_or] at hp
    rw [List.cons_append, runLoop.eq_def]
    dsimp only
    by_cases hall : c = info.matchAll
    · subst hall
      obtain ⟨r, hrun, hr'⟩ := ih hp.2 hs
      rw [if_pos rfl]
      refine ⟨r, hrun, ?_⟩
      cases hr' with
      | short h => exact Run.short fun hm => h ((somewhere_all hr).mp hm)
      | done z z' h => exact Run.done z z' ((somewhere_all hr).mpr h)
      | next c p' s' hc hall hone hp' hs' hlen hdangling h =>
        exact Run.next c p' s' hc hall hone hp' hs' (Nat.lt_succ_of_lt hlen)
          (fun hnot => hdangling fun hd => hnot (dangling_cons hr p (Or.inl rfl) hd))
          ((somewhere_all hr).trans h)
    rw [if_neg hall]
    by_cases hone : c = info.matchOne
    · subst hone
      rw [if_pos rfl]
      cases s with
      | nil =>
        refine ⟨none, rfl, Run.short fun hm => ?_⟩
        obtain ⟨d, s', h, -⟩ := (somewhere_one hr).mp hm
        cases h
      | cons d s =>
        rw [List.mem_cons, not_or] at hs
        obtain ⟨r, hrun, hr'⟩ := ih hp.2 hs.2
        have hstep : Somewhere info esc (info.matchOne :: p) (d :: s) ↔ Somewhere info esc p s := by
          rw [somewhere_one hr]
          constructor
          · rintro ⟨d', s', h, hm⟩
            obtain ⟨-, rfl⟩ := List.cons.inj h
            exact hm
          · exact fun hm => ⟨d, s, rfl, hm⟩
        rw [List.cons_append]
        dsimp only
        rw [if_neg (Ne.symm hs.1)]
        refine ⟨r, hrun, ?_⟩
        cases hr' with
        | short h => exact Run.short fun hm => h (hstep.mp hm)
        | done z z' h => exact Run.done z z' (hstep.mpr h)
        | next c p' s' hc hall hone hp' hs' hlen hdangling h =>
          exact Run.next c p' s' hc hall hone hp' hs' (Nat.lt_succ_of_lt hlen)
            (fun hnot => hdangling fun hd => hnot (dangling_cons hr p (Or.inr rfl) hd))
            (hstep.trans h)
    · rw [if_neg hone]
      exact ⟨_, rfl, Run.next c p s (Ne.symm hp.1) hall hone hp.2 hs (Nat.lt_succ_self _)
        (fun h => h) Iff.rfl⟩

/-! ### Sets -/

/-- The members of a set behind a character `prior`, which may begin a range; zero is for none. -/
def MemberFrom (c prior : ℕ) : List ℕ → Prop
  | m :: y :: l =>
    if m = '-'.toNat ∧ 0 < prior then (prior ≤ c ∧ c ≤ y) ∨ Member c l else Member c (m :: y :: l)
  | l => Member c l

theorem memberFrom_zero (c : ℕ) (l : List ℕ) : MemberFrom c 0 l ↔ Member c l := by
  rcases l with _ | ⟨m, _ | ⟨y, l⟩⟩
  · exact Iff.rfl
  · exact Iff.rfl
  · rw [MemberFrom, if_neg fun h => absurd h.2 (Nat.lt_irrefl 0)]

theorem member_cons {c x : ℕ} (hx : x ≠ 0) (l : List ℕ) :
    Member c (x :: l) ↔ c = x ∨ MemberFrom c x l := by
  rcases l with _ | ⟨m, _ | ⟨y, l⟩⟩
  · rw [MemberFrom, Member, Member, or_false]
    exact fun _ _ _ h => by cases h
  · rw [MemberFrom, Member, Member]
    exact fun _ _ _ h => by cases h
  · rw [MemberFrom, Member]
    by_cases hm : m = '-'.toNat
    · rw [if_pos hm, if_pos ⟨hm, Nat.pos_of_ne_zero hx⟩]
    · rw [if_neg hm, if_neg fun h => hm h.1]

/-- **The loop over a set that is closed.** -/
theorem setLoop_closed (c : ℕ) {l p : List ℕ} (hzero : 0 ∉ l) (hclose : ']'.toNat ∉ l)
    (prior : ℕ) (seen : Bool) :
    ∃ b, setLoop c (l ++ ']'.toNat :: p) prior seen = some (some (b, p)) ∧
      (b = true ↔ seen = true ∨ MemberFrom c prior l) := by
  induction hn : l.length using Nat.strong_induction_on generalizing l prior seen with
  | _ n ih =>
    subst hn
    rcases l with _ | ⟨x, l⟩
    · refine ⟨seen, ?_, ?_⟩
      · rw [List.nil_append, setLoop.eq_def]
        dsimp only
        rw [if_neg (by decide), if_pos rfl]
      · rw [MemberFrom, Member, or_false]
        exact fun _ _ _ h => by cases h
    rw [List.mem_cons, not_or] at hzero hclose
    -- a character of the set, followed by another one or by the end of the set
    have hplain : ∀ (d : ℕ) (rest : List ℕ), l ++ ']'.toNat :: p = d :: rest →
        ¬(x = '-'.toNat ∧ d ≠ ']'.toNat ∧ d ≠ 0 ∧ 0 < prior) →
        (MemberFrom c prior (x :: l) ↔ Member c (x :: l)) →
        ∃ b, setLoop c ((x :: l) ++ ']'.toNat :: p) prior seen = some (some (b, p)) ∧
          (b = true ↔ seen = true ∨ MemberFrom c prior (x :: l)) := by
      intro d rest hsplit hnot hmember
      obtain ⟨b, hb, hiff⟩ :=
        ih l.length (Nat.lt_succ_self _) hzero.2 hclose.2 x (seen || decide (c = x)) rfl
      refine ⟨b, ?_, ?_⟩
      · rw [hsplit] at hb
        rw [List.cons_append, hsplit, setLoop.eq_def]
        dsimp only
        rw [if_neg (Ne.symm hzero.1), if_neg (Ne.symm hclose.1), if_neg hnot]
        exact hb
      · rw [hiff, hmember, member_cons (Ne.symm hzero.1), Bool.or_eq_true, decide_eq_true_iff,
          or_assoc]
    rcases l with _ | ⟨y, l⟩
    · refine hplain _ _ rfl (fun h => h.2.1 rfl) ?_
      rw [MemberFrom]
      exact fun _ _ _ h => by cases h
    by_cases hrange : x = '-'.toNat ∧ 0 < prior
    · obtain ⟨hx, hprior⟩ := hrange
      subst hx
      have hz := hzero.2
      have hcl := hclose.2
      rw [List.mem_cons, not_or] at hz hcl
      obtain ⟨b, hb, hiff⟩ := ih l.length (by simp only [List.length_cons]; omega) hz.2 hcl.2 0
        (seen || (decide (prior ≤ c) && decide (c ≤ y))) rfl
      refine ⟨b, ?_, ?_⟩
      · rw [List.cons_append, List.cons_append, setLoop.eq_def]
        dsimp only
        rw [if_neg (by decide), if_neg (by decide),
          if_pos ⟨rfl, Ne.symm hcl.1, Ne.symm hz.1, hprior⟩]
        exact hb
      · rw [hiff, memberFrom_zero, MemberFrom, if_pos ⟨rfl, hprior⟩, Bool.or_eq_true,
          Bool.and_eq_true, decide_eq_true_iff, decide_eq_true_iff, or_assoc]
    · refine hplain _ _ rfl (fun h => hrange ⟨h.1, h.2.2.2⟩) ?_
      rw [MemberFrom, if_neg hrange]

/-- The loop over a set that is not closed. -/
theorem setLoop_open (c : ℕ) {l : List ℕ} (hzero : 0 ∉ l) (hclose : ']'.toNat ∉ l) (prior : ℕ)
    (seen : Bool) : setLoop c (l ++ [0]) prior seen = some none := by
  induction hn : l.length using Nat.strong_induction_on generalizing l prior seen with
  | _ n ih =>
    subst hn
    rcases l with _ | ⟨x, l⟩
    · rfl
    rw [List.mem_cons, not_or] at hzero hclose
    have hnext := ih l.length (Nat.lt_succ_self _) hzero.2 hclose.2 x (seen || decide (c = x)) rfl
    rw [List.cons_append, setLoop.eq_def]
    dsimp only
    rw [if_neg (Ne.symm hzero.1), if_neg (Ne.symm hclose.1)]
    rcases l with _ | ⟨y, l⟩
    · rw [List.nil_append]
      dsimp only
      rw [if_neg fun h => h.2.2.1 rfl]
      exact hnext
    · rw [List.cons_append] at hnext ⊢
      dsimp only
      split
      · have hz := hzero.2
        have hcl := hclose.2
        rw [List.mem_cons, not_or] at hz hcl
        exact ih l.length (by simp only [List.length_cons]; omega) hz.2 hcl.2 0 _ rfl
      · exact hnext

/-- What a set begins with, in front of a terminator. -/
theorem setParts_append (body : List ℕ) :
    ∃ invert bracket rest, setParts body = (invert, bracket, rest) ∧
      setParts (body ++ [0]) = (invert, bracket, rest ++ [0]) ∧ ∀ c, c ∈ rest → c ∈ body := by
  rcases body with _ | ⟨c, body⟩
  · exact ⟨false, false, [], rfl, rfl, fun _ h => h⟩
  rw [List.cons_append, setParts.eq_def, setParts.eq_def]
  dsimp only
  by_cases hhat : c = '^'.toNat
  · rw [if_pos hhat, if_pos hhat]
    rcases body with _ | ⟨d, body⟩
    · exact ⟨true, false, [], rfl, rfl, fun _ h => by cases h⟩
    · rw [List.cons_append]
      dsimp only
      by_cases hd : d = ']'.toNat
      · rw [if_pos hd, if_pos hd]
        exact ⟨true, true, body, rfl, rfl,
          fun _ h => List.mem_cons_of_mem _ (List.mem_cons_of_mem _ h)⟩
      · rw [if_neg hd, if_neg hd]
        exact ⟨true, false, d :: body, rfl, rfl, fun _ h => List.mem_cons_of_mem _ h⟩
  · rw [if_neg hhat, if_neg hhat]
    by_cases hc : c = ']'.toNat
    · rw [if_pos hc, if_pos hc]
      exact ⟨false, true, body, rfl, rfl, fun _ h => List.mem_cons_of_mem _ h⟩
    · rw [if_neg hc, if_neg hc]
      exact ⟨false, false, c :: body, rfl, rfl, fun _ h => h⟩

theorem xor_eq_true_iff {b invert : Bool} {P : Prop} (h : b = true ↔ P) :
    (b ^^ invert) = true ↔ (P ↔ invert = false) := by
  rw [← h]
  cases b <;> cases invert <;> decide

/-- The first bracket splits a list in one way. -/
theorem append_bracket_inj {l l' p p' : List ℕ} (hl : ']'.toNat ∉ l) (hl' : ']'.toNat ∉ l')
    (h : l ++ ']'.toNat :: p = l' ++ ']'.toNat :: p') : l = l' ∧ p = p' := by
  have htake : ∀ l p : List ℕ, ']'.toNat ∉ l →
      (l ++ ']'.toNat :: p).takeWhile (· ≠ ']'.toNat) = l := by
    intro l p hl
    have hall : ∀ c ∈ l, (decide (c ≠ ']'.toNat)) = true :=
      fun c hc => decide_eq_true fun h => hl (h ▸ hc)
    rw [List.takeWhile_append_of_pos hall, List.takeWhile_cons_of_neg (by simp), List.append_nil]
  have heq := congrArg (List.takeWhile (· ≠ ']'.toNat)) h
  rw [htake l p hl, htake l' p' hl'] at heq
  subst heq
  exact ⟨rfl, (List.cons.inj (List.append_cancel_left h)).2⟩

theorem setParts_length {body l p : List ℕ} {invert bracket : Bool}
    (h : setParts body = (invert, bracket, l ++ ']'.toNat :: p)) : p.length ≤ body.length := by
  have hlen : (setParts body).2.2.length ≤ body.length := by
    rw [setParts.eq_def]
    split
    · exact Nat.le_refl _
    split
    · split
      · exact Nat.zero_le _
      · split
        · simp only [List.length_cons]
          omega
        · simp only [List.length_cons]
          omega
    split
    · exact Nat.le_succ _
    · exact Nat.le_refl _
  rw [h] at hlen
  simp only [List.length_append, List.length_cons] at hlen
  omega

/-- **The branch for a set.** What is left of the pattern, if the set is closed and matches. -/
theorem setMatch_eq (d : ℕ) {body : List ℕ} (hzero : 0 ∉ body) :
    (setMatch d (body ++ [0]) = some none ∧
      ∀ invert bracket l p, setParts body = (invert, bracket, l ++ ']'.toNat :: p) →
        ']'.toNat ∉ l → ¬InSet invert bracket l d) ∨
      ∃ invert bracket l p, setParts body = (invert, bracket, l ++ ']'.toNat :: p) ∧
        ']'.toNat ∉ l ∧ InSet invert bracket l d ∧ 0 ∉ p ∧
        setMatch d (body ++ [0]) = some (some (p ++ [0])) := by
  obtain ⟨invert, bracket, rest, hparts, hparts', hmem⟩ := setParts_append body
  have hrest : 0 ∉ rest := fun h => hzero (hmem 0 h)
  rw [setMatch, hparts']
  dsimp only
  by_cases hclose : ']'.toNat ∈ rest
  · -- the first bracket closes the set
    obtain ⟨l, p, rfl, hl⟩ := List.eq_append_cons_of_mem hclose
    have hl0 : 0 ∉ l := fun h => hrest (List.mem_append_left _ h)
    have hp0 : 0 ∉ p := fun h => hrest (List.mem_append_right _ (List.mem_cons_of_mem _ h))
    obtain ⟨b, hb, hiff⟩ := setLoop_closed d (p := p ++ [0]) hl0 hl 0
      (bracket && decide (d = ']'.toNat))
    rw [List.append_assoc, List.cons_append, hb, Option.map_some, Option.bind_some]
    have hset : (b ^^ invert) = true ↔ InSet invert bracket l d := by
      refine xor_eq_true_iff (hiff.trans ?_)
      rw [memberFrom_zero, Bool.and_eq_true, decide_eq_true_iff]
    by_cases hin : InSet invert bracket l d
    · rw [if_pos (hset.mpr hin)]
      exact Or.inr ⟨invert, bracket, l, p, hparts, hl, hin, hp0, rfl⟩
    · rw [if_neg fun h => hin (hset.mp h)]
      refine Or.inl ⟨rfl, fun invert' bracket' l' p' hparts'' hl' => ?_⟩
      rw [hparts] at hparts''
      obtain ⟨rfl, hpair⟩ := Prod.mk.inj hparts''
      obtain ⟨rfl, hlist⟩ := Prod.mk.inj hpair
      rwa [← (append_bracket_inj hl hl' hlist).1]
  · rw [setLoop_open d hrest hclose]
    refine Or.inl ⟨rfl, fun invert' bracket' l' p' hparts'' _ _ => hclose ?_⟩
    rw [hparts] at hparts''
    obtain ⟨rfl, hpair⟩ := Prod.mk.inj hparts''
    obtain ⟨rfl, hlist⟩ := Prod.mk.inj hpair
    rw [hlist]
    exact List.mem_append_right _ List.mem_cons_self

/-! ### The loop -/

theorem foldCase_ne_zero (noCase : Bool) {c : ℕ} (hc : c ≠ 0) :
    foldCase noCase c ≠ foldCase noCase 0 := by
  have hzero : foldCase noCase 0 = 0 := by cases noCase <;> rfl
  rw [hzero, foldCase]
  split
  · rename_i h
    have hne : UInt8.ofNat c ≠ 0 := by
      intro heq
      have hnat := congrArg UInt8.toNat heq
      have hz : (0 : UInt8).toNat = 0 := rfl
      rw [UInt8.toNat_ofNat'] at hnat
      omega
    exact fun heq => upperToLower_ne_zero hne (UInt8.toNat_inj.mp heq)
  · exact hc

/-- What dangles behind an ordinary character or a wildcard dangles. -/
theorem dangling_of_tail {flag : Bool} {c : ℕ} (hesc : c ≠ esc) {p : List ℕ}
    (h : Dangling info esc
      (if c = info.matchAll then true else if c = info.matchOne then flag else false) p) :
    Dangling info esc flag (c :: p) := by
  cases p with
  | nil => exact h.elim
  | cons d p =>
    rw [Dangling, if_neg hesc]
    split
    · rename_i hall
      rwa [if_pos hall] at h
    · rename_i hall
      rw [if_neg hall] at h
      split
      · rename_i hone
        rwa [if_pos hone] at h
      · rename_i hone
        rwa [if_neg hone] at h

theorem dangling_of_escape {flag : Bool} {c : ℕ} {p : List ℕ} (h : Dangling info esc false p) :
    Dangling info esc flag (esc :: c :: p) := by
  rw [Dangling, if_pos rfl]
  exact h

theorem not_dangling_of_zero {p : List ℕ} (hp : 0 ∉ p) (flag : Bool) :
    ¬Dangling info 0 flag p := by
  induction p generalizing flag with
  | nil => exact fun h => h
  | cons c p ih =>
    rw [List.mem_cons, not_or] at hp
    cases p with
    | nil => exact fun h => hp.1 h.1.symm
    | cons d p =>
      rw [Dangling, if_neg (Ne.symm hp.1)]
      split
      · exact ih hp.2 true
      split
      · exact ih hp.2 flag
      · exact ih hp.2 false

/-- An ordinary character, or one behind an escape character. -/
theorem compare_char {c : ℕ} (hc : c ≠ 0) {p s : List ℕ} (hs : 0 ∉ s)
    {compare : List ℕ → Option Bool}
    (hcompare : ∀ v, 0 ∉ v → Decides (compare (v ++ [0])) (Matches info esc p v)) :
    Decides
      (match s ++ [0] with
        | [] => none
        | d :: zString =>
          if foldCase info.noCase c ≠ foldCase info.noCase d then some false else compare zString)
      (∃ d s', s = d :: s' ∧ foldCase info.noCase c = foldCase info.noCase d ∧
        Matches info esc p s') := by
  cases s with
  | nil =>
    rw [List.nil_append]
    dsimp only
    rw [if_pos (foldCase_ne_zero _ hc)]
    refine decides_false ?_
    rintro ⟨d, s', h, -⟩
    cases h
  | cons d s =>
    rw [List.mem_cons, not_or] at hs
    rw [List.cons_append]
    dsimp only
    by_cases hcd : foldCase info.noCase c = foldCase info.noCase d
    · rw [if_neg (not_not.mpr hcd)]
      refine (hcompare s hs.2).congr ⟨fun h => ⟨d, s, rfl, hcd, h⟩, ?_⟩
      rintro ⟨d', s', h, -, hm⟩
      obtain ⟨-, rfl⟩ := List.cons.inj h
      exact hm
    · rw [if_pos hcd]
      refine decides_false ?_
      rintro ⟨d', s', h, hcd', -⟩
      obtain ⟨rfl, -⟩ := List.cons.inj h
      exact hcd hcd'

/-- A set does not match the end of a string. -/
theorem not_matches_set_nil (hr : Rules info esc) (hset : info.matchSet ≠ 0) {body : List ℕ} :
    ¬Matches info esc (info.matchSet :: body) [] := by
  intro h
  obtain ⟨d, s', _, _, _, _, hs, -⟩ := (matches_set hr hset).mp h
  cases hs

theorem Rules.esc_eq_zero (hr : Rules info esc) (hset : info.matchSet ≠ 0) : esc = 0 := by
  by_contra hesc
  exact hset (hr.set_of_esc hesc)

/-- The part of the loop behind a `matchAll`. -/
theorem compare_all (hr : Rules info esc) {fuel : ℕ} {p s : List ℕ} (hp : 0 ∉ p) (hs : 0 ∉ s)
    (hfuel : p.length < fuel) (hd : ¬Dangling info esc true p)
    (ih : ∀ p s, 0 ∉ p → 0 ∉ s → p.length < fuel → ¬Dangling info esc false p →
      Decides (compareLoop info esc fuel false (p ++ [0]) (s ++ [0])) (Matches info esc p s)) :
    Decides
      ((runLoop info (p ++ [0]) (s ++ [0])).bind fun r =>
        match r with
        | none => some false
        | some (c, zPattern, zString) =>
          if c = 0 then some true
          else if c = esc then
            match zPattern with
            | [] => none
            | c :: zPattern =>
              if c = 0 then some false
              else searchLoop (compareLoop info esc fuel false zPattern) info.noCase c zString
          else if c = info.matchSet then
            setSearch (compareLoop info esc fuel false (c :: zPattern)) zString
          else searchLoop (compareLoop info esc fuel false zPattern) info.noCase c zString)
      (Somewhere info esc p s) := by
  obtain ⟨r, hrun, hr'⟩ := runLoop_run hr hp hs
  rw [hrun, Option.bind_some]
  cases hr' with
  | short h => exact decides_false h
  | done z z' h =>
    dsimp only
    rw [if_pos rfl]
    exact decides_true h
  | next c p' s' hc hall hone hp' hs' hlen hdangling h =>
    have hnot := hdangling hd
    dsimp only
    rw [if_neg hc]
    by_cases hesc : c = esc
    · subst hesc
      rw [if_pos rfl]
      cases p' with
      | nil =>
        rw [List.nil_append]
        dsimp only
        rw [if_pos rfl]
        refine decides_false fun hm => ?_
        obtain ⟨t, s'', rfl, hm'⟩ := h.mp hm
        exact not_matches_escape hr hc hm'
      | cons c' p' =>
        rw [List.mem_cons, not_or] at hp'
        rw [List.cons_append]
        dsimp only
        rw [if_neg (Ne.symm hp'.1)]
        refine (searchLoop_decides info.noCase c' hs' fun v hv => ih p' v hp'.2 hv ?_
          fun hdang => hnot (dangling_of_escape hdang)).congr ?_
        · rw [List.length_cons] at hlen
          omega
        · exact (h.trans (somewhere_iff_foundAt fun s => matches_escape hr hc)).symm
    rw [if_neg hesc]
    by_cases hset : c = info.matchSet
    · have hset0 : info.matchSet ≠ 0 := hset ▸ hc
      have hzero := hr.esc_eq_zero hset0
      have hmem : 0 ∉ c :: p' := by
        rw [List.mem_cons, not_or]
        exact ⟨Ne.symm hc, hp'⟩
      rw [if_pos hset]
      refine (setSearch_decides (Q := Matches info esc (c :: p')) ?_ hs' fun v hv =>
        ih (c :: p') v hmem hv ?_ ?_).congr h.symm
      · rw [hset]
        exact not_matches_set_nil hr hset0
      · rw [List.length_cons]
        omega
      · rw [hzero]
        exact not_dangling_of_zero hmem false
    · rw [if_neg hset]
      refine (searchLoop_decides info.noCase c hs' fun v hv => ih p' v hp' hv (by omega)
        fun hdang => hnot (dangling_of_tail hesc ?_)).congr ?_
      · rwa [if_neg hall, if_neg hone]
      · exact (h.trans (somewhere_iff_foundAt fun s => matches_self hesc hall hone hset)).symm

/-- The part of the loop behind a set. -/
theorem compare_set (hr : Rules info esc) (hset : info.matchSet ≠ 0) {body s : List ℕ} {d : ℕ}
    (hbody : 0 ∉ body) {compare : List ℕ → Option Bool}
    (hcompare : ∀ p, 0 ∉ p → p.length ≤ body.length →
      Decides (compare (p ++ [0])) (Matches info esc p s)) :
    Decides
      ((setMatch d (body ++ [0])).bind fun r =>
        match r with
        | none => some false
        | some zPattern => compare zPattern)
      (Matches info esc (info.matchSet :: body) (d :: s)) := by
  rcases setMatch_eq d hbody with
    ⟨hnone, hnot⟩ | ⟨invert, bracket, l, p, hparts, hl, hin, hp, hsome⟩
  · rw [hnone]
    refine decides_false fun h => ?_
    obtain ⟨d', s', invert, bracket, l, p, hs, hparts, hl, hin, -⟩ := (matches_set hr hset).mp h
    obtain ⟨rfl, -⟩ := List.cons.inj hs
    exact hnot invert bracket l p hparts hl hin
  · rw [hsome]
    refine (hcompare p hp (setParts_length hparts)).congr ?_
    rw [matches_set hr hset]
    constructor
    · exact fun h => ⟨d, s, invert, bracket, l, p, rfl, hparts, hl, hin, h⟩
    · rintro ⟨d', s', invert', bracket', l', p', hs, hparts', hl', -, hm⟩
      obtain ⟨-, rfl⟩ := List.cons.inj hs
      rw [hparts] at hparts'
      obtain ⟨-, hpair⟩ := Prod.mk.inj hparts'
      obtain ⟨-, hlist⟩ := Prod.mk.inj hpair
      rwa [(append_bracket_inj hl hl' hlist).2]

/-- **The loop decides the language of the pattern.** -/
theorem compareLoop_decides (hr : Rules info esc) {fuel : ℕ} {p s : List ℕ} (hp : 0 ∉ p)
    (hs : 0 ∉ s) (hfuel : p.length < fuel) (hd : ¬Dangling info esc false p) :
    Decides (compareLoop info esc fuel false (p ++ [0]) (s ++ [0])) (Matches info esc p s) := by
  induction fuel using Nat.strong_induction_on generalizing p s with
  | _ fuel ih =>
    obtain ⟨fuel, rfl⟩ := Nat.exists_eq_add_one_of_ne_zero (Nat.ne_of_gt (Nat.zero_lt_of_lt hfuel))
    have ih' : ∀ p s, 0 ∉ p → 0 ∉ s → p.length < fuel → ¬Dangling info esc false p →
        Decides (compareLoop info esc fuel false (p ++ [0]) (s ++ [0])) (Matches info esc p s) :=
      fun p s hp hs hfuel hd => ih fuel (Nat.lt_succ_self _) hp hs hfuel hd
    cases p with
    | nil =>
      rw [List.nil_append, compareLoop.eq_def]
      dsimp only
      rw [if_pos rfl]
      cases s with
      | nil => exact decides_true Matches.nil
      | cons d s =>
        rw [List.mem_cons, not_or] at hs
        rw [List.cons_append, List.head?_cons, Option.map_some, decide_eq_false (Ne.symm hs.1)]
        exact decides_false fun h => by cases matches_nil.mp h
    | cons c p =>
      have hmem := hp
      rw [List.mem_cons, not_or] at hp
      have hc := Ne.symm hp.1
      rw [List.length_cons] at hfuel
      rw [List.cons_append, compareLoop.eq_def]
      dsimp only
      rw [if_neg hc]
      by_cases hall : c = info.matchAll
      · subst hall
        rw [if_pos ⟨rfl, rfl⟩]
        refine (compare_all hr hp.2 hs (by omega) (fun hdang => hd ?_) ih').congr
          (matches_all hr).symm
        refine dangling_of_tail hr.esc_ne_all.symm ?_
        rwa [if_pos rfl]
      rw [if_neg fun h => hall h.1]
      by_cases hone : c = info.matchOne
      · subst hone
        have hnot : ¬Dangling info esc false p := by
          refine fun hdang => hd (dangling_of_tail hr.esc_ne_one.symm ?_)
          rwa [if_neg hall, if_pos rfl]
        rw [if_pos ⟨rfl, rfl⟩]
        cases s with
        | nil =>
          refine decides_false fun h => ?_
          obtain ⟨d, s', h, -⟩ := (matches_one hr).mp h
          cases h
        | cons d s =>
          rw [List.mem_cons, not_or] at hs
          rw [List.cons_append]
          dsimp only
          rw [if_neg (Ne.symm hs.1)]
          refine (ih' p s hp.2 hs.2 (by omega) hnot).congr ((matches_one hr).trans ?_).symm
          constructor
          · rintro ⟨d', s', h, hm⟩
            obtain ⟨-, rfl⟩ := List.cons.inj h
            exact hm
          · exact fun hm => ⟨d, s, rfl, hm⟩
      rw [if_neg fun h => hone h.1]
      by_cases hset : c = info.matchSet
      · subst hset
        rw [if_pos rfl]
        cases s with
        | nil => exact decides_false (not_matches_set_nil hr hc)
        | cons d s =>
          rw [List.mem_cons, not_or] at hs
          rw [List.cons_append]
          dsimp only
          rw [if_neg (Ne.symm hs.1)]
          refine compare_set hr hc hp.2 fun p' hp' hlen => ih' p' s hp' hs.2 (by omega) ?_
          rw [hr.esc_eq_zero hc]
          exact not_dangling_of_zero hp' false
      rw [if_neg hset]
      by_cases hesc : c = esc
      · subst hesc
        rw [if_pos ⟨rfl, rfl⟩]
        cases p with
        | nil => exact absurd ⟨rfl, rfl⟩ hd
        | cons c' p =>
          -- the character behind the escape character stands for itself
          rw [List.length_cons] at hfuel
          obtain ⟨fuel, rfl⟩ :=
            Nat.exists_eq_add_one_of_ne_zero (n := fuel) (by omega)
          have hp' := hp.2
          rw [List.mem_cons, not_or] at hp'
          have hset' : c' ≠ info.matchSet := by
            rw [hr.set_of_esc hc]
            exact Ne.symm hp'.1
          rw [List.cons_append, compareLoop.eq_def]
          dsimp only
          rw [if_neg (Ne.symm hp'.1), if_neg fun h => absurd h.2 (by decide),
            if_neg fun h => absurd h.2 (by decide), if_neg hset',
            if_neg fun h => absurd h.2 (by decide)]
          exact (compare_char (Ne.symm hp'.1) hs fun v hv =>
            ih fuel (by omega) hp'.2 hv (by omega) fun hdang =>
              hd (dangling_of_escape hdang)).congr (matches_escape hr hc).symm
      · rw [if_neg fun h => hesc h.1.symm]
        refine (compare_char hc hs fun v hv => ih' p v hp.2 hv (by omega) fun hdang =>
          hd (dangling_of_tail hesc ?_)).congr (matches_self hesc hall hone hset).symm
        rwa [if_neg hall, if_neg hone]

end Like

end Sql

end SqliteVms

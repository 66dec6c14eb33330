import Mathlib.Data.List.Basic

/-!
# Tokens

`tokenize.c`. A string of C is the list of its bytes; behind them comes the zero byte, so that
reading past the end reads zero. A zero byte in the list ends the string too.

The keywords are found by `keywordCode`, which a generated file defines; it is a parameter.

## Main definitions

* `sqlite3GetToken` — the first token of a string, its type and its length
* `quotedToken` — the branch for the three quotes
-/

namespace SqliteVms

namespace Sql

/-- The types of tokens. -/
inductive TokenType
  | space | minus | lp | rp | semi | plus | star | slash | rem | eq | le | ne | lshift | lt | ge
  | rshift | gt | illegal | bitor | concat | comma | bitand | bitnot | string | id | dot | integer
  | float | variable | register | blob
  | keyword (code : ℕ)
  deriving DecidableEq, Repr

/-- The single quote. -/
def squote : UInt8 := 39

/-- The double quote. -/
def dquote : UInt8 := 34

/-- The back quote. -/
def bquote : UInt8 := 96

/-- `sqlite3Isspace`. -/
def isSpace (c : UInt8) : Bool := c == 32 || (9 ≤ c && c ≤ 13)

/-- `sqlite3Isdigit`. -/
def isDigit (c : UInt8) : Bool := '0'.toUInt8 ≤ c && c ≤ '9'.toUInt8

/-- `sqlite3Isxdigit`. -/
def isXdigit (c : UInt8) : Bool :=
  isDigit c || ('A'.toUInt8 ≤ c && c ≤ 'F'.toUInt8) || ('a'.toUInt8 ≤ c && c ≤ 'f'.toUInt8)

/-- `IdChar`. -/
def idChar (c : UInt8) : Bool :=
  isDigit c || ('A'.toUInt8 ≤ c && c ≤ 'Z'.toUInt8) || ('a'.toUInt8 ≤ c && c ≤ 'z'.toUInt8) ||
    c == '$'.toUInt8 || c == '_'.toUInt8 || 128 ≤ c

/-- `z[i]`. -/
def byteAt (z : List UInt8) (i : ℕ) : UInt8 := z.getD i 0

/-- Where the bytes end that begin at `i` and have the property. -/
def scan (p : UInt8 → Bool) (z : List UInt8) (i : ℕ) : ℕ := i + ((z.drop i).takeWhile p).length

/-- The loop for a comment: `c` is the byte before the rest. -/
def commentLoop (c : UInt8) : List UInt8 → ℕ → ℕ
  | [], i => i
  | d :: z, i =>
    if c = '*'.toUInt8 ∧ d = '/'.toUInt8 then i + 1
    else if d = 0 then i
    else commentLoop d z (i + 1)

/-- The loop for quoted text: where it ends, and the byte there. -/
def quotedLoop (delim : UInt8) : List UInt8 → ℕ → ℕ × UInt8
  | [], i => (i, 0)
  | c :: z, i =>
    if c = 0 then (i, 0)
    else if c = delim then
      match z with
      | d :: z => if d = delim then quotedLoop delim z (i + 2) else (i, c)
      | [] => (i, c)
    else quotedLoop delim z (i + 1)

/-- The branch for the quotes. -/
def quotedToken (delim : UInt8) (z : List UInt8) : TokenType × ℕ :=
  let (i, c) := quotedLoop delim z.tail 1
  if c = squote then (.string, i + 1)
  else if c ≠ 0 then (.id, i + 1)
  else (.illegal, i)

/-- The branch for a number. -/
def numberToken (z : List UInt8) : TokenType × ℕ :=
  let i := scan isDigit z 0
  let (t, i) :=
    if byteAt z i = '.'.toUInt8 then (TokenType.float, scan isDigit z (i + 1))
    else (TokenType.integer, i)
  let (t, i) :=
    if (byteAt z i = 'e'.toUInt8 ∨ byteAt z i = 'E'.toUInt8) ∧
        (isDigit (byteAt z (i + 1)) ∨
          ((byteAt z (i + 1) = '+'.toUInt8 ∨ byteAt z (i + 1) = '-'.toUInt8) ∧
            isDigit (byteAt z (i + 2)))) then
      (TokenType.float, scan isDigit z (i + 2))
    else (t, i)
  if idChar (byteAt z i) then (.illegal, scan idChar z i) else (t, i)

/-- The branch for an identifier in brackets. -/
def bracketToken (z : List UInt8) : TokenType × ℕ :=
  let i := scan (fun c => c ≠ 0 && c ≠ ']'.toUInt8) z 1
  if byteAt z i = ']'.toUInt8 then (.id, i + 1) else (.illegal, i)

/-- The loop for a variable: where it ends, how many bytes of an identifier there were, and whether
what stands in parentheses is closed. -/
def variableLoop : List UInt8 → ℕ → ℕ → ℕ × ℕ × Bool
  | [], i, n => (i, n, true)
  | c :: z, i, n =>
    if c = 0 then (i, n, true)
    else if idChar c then variableLoop z (i + 1) (n + 1)
    else if c = '('.toUInt8 ∧ 0 < n then
      let k := scan (fun c => c ≠ 0 && !isSpace c && c ≠ ')'.toUInt8) z 0
      if byteAt z k = ')'.toUInt8 then (i + k + 2, n, true) else (i + k + 1, n, false)
    else
      match z with
      | d :: z =>
        if c = ':'.toUInt8 ∧ d = ':'.toUInt8 then variableLoop z (i + 2) n else (i, n, true)
      | [] => (i, n, true)

/-- The branch for a variable. -/
def variableToken (z : List UInt8) : TokenType × ℕ :=
  let (i, n, closed) := variableLoop z.tail 1 0
  (if n = 0 ∨ !closed then .illegal else .variable, i)

/-- The branch for a blob. -/
def blobToken (z : List UInt8) : TokenType × ℕ :=
  let i := scan isXdigit z 2
  let (t, i) :=
    if byteAt z i ≠ squote ∨ i % 2 ≠ 0 then
      (TokenType.illegal, scan (fun c => c ≠ 0 && c ≠ squote) z i)
    else (TokenType.blob, i)
  (t, if byteAt z i ≠ 0 then i + 1 else i)

def sqlite3GetToken (keywordCode : List UInt8 → TokenType) (z : List UInt8) : TokenType × ℕ :=
  let c := byteAt z 0
  let d := byteAt z 1
  if c = 32 ∨ c = 9 ∨ c = 10 ∨ c = 12 ∨ c = 13 then (.space, scan isSpace z 1)
  else if c = '-'.toUInt8 then
    if d = '-'.toUInt8 then (.space, scan (fun c => c ≠ 0 && c ≠ 10) z 2) else (.minus, 1)
  else if c = '('.toUInt8 then (.lp, 1)
  else if c = ')'.toUInt8 then (.rp, 1)
  else if c = ';'.toUInt8 then (.semi, 1)
  else if c = '+'.toUInt8 then (.plus, 1)
  else if c = '*'.toUInt8 then (.star, 1)
  else if c = '/'.toUInt8 then
    if d ≠ '*'.toUInt8 ∨ byteAt z 2 = 0 then (.slash, 1)
    else (.space, commentLoop (byteAt z 2) (z.drop 3) 3)
  else if c = '%'.toUInt8 then (.rem, 1)
  else if c = '='.toUInt8 then (.eq, if d = '='.toUInt8 then 2 else 1)
  else if c = '<'.toUInt8 then
    if d = '='.toUInt8 then (.le, 2)
    else if d = '>'.toUInt8 then (.ne, 2)
    else if d = '<'.toUInt8 then (.lshift, 2)
    else (.lt, 1)
  else if c = '>'.toUInt8 then
    if d = '='.toUInt8 then (.ge, 2)
    else if d = '>'.toUInt8 then (.rshift, 2)
    else (.gt, 1)
  else if c = '!'.toUInt8 then (if d ≠ '='.toUInt8 then .illegal else .ne, 2)
  else if c = '|'.toUInt8 then if d ≠ '|'.toUInt8 then (.bitor, 1) else (.concat, 2)
  else if c = ','.toUInt8 then (.comma, 1)
  else if c = '&'.toUInt8 then (.bitand, 1)
  else if c = '~'.toUInt8 then (.bitnot, 1)
  else if c = bquote ∨ c = squote ∨ c = dquote then quotedToken c z
  else if c = '.'.toUInt8 then if isDigit d then numberToken z else (.dot, 1)
  else if isDigit c then numberToken z
  else if c = '['.toUInt8 then bracketToken z
  else if c = '?'.toUInt8 then (.variable, scan isDigit z 1)
  else if c = '#'.toUInt8 then
    if 1 < scan isDigit z 1 then (.register, scan isDigit z 1) else variableToken z
  else if c = '$'.toUInt8 ∨ c = '@'.toUInt8 ∨ c = ':'.toUInt8 then variableToken z
  else if (c = 'x'.toUInt8 ∨ c = 'X'.toUInt8) ∧ d = squote then blobToken z
  else if idChar c then (keywordCode (z.take (scan idChar z 1)), scan idChar z 1)
  else (.illegal, 1)

/-! ### Quoted text -/

/-- A text with every quote in it doubled. -/
def doubled (q : UInt8) : List UInt8 → List UInt8
  | [] => []
  | c :: z => if c = q then c :: c :: doubled q z else c :: doubled q z

/-- **A doubled quote does not end a text**, and a single one does. -/
theorem quotedLoop_doubled {q : UInt8} (hq : q ≠ 0) {t : List UInt8} (ht : 0 ∉ t) {s : List UInt8}
    (hs : s.head? ≠ some q) (i : ℕ) :
    quotedLoop q (doubled q t ++ q :: s) i = (i + (doubled q t).length, q) := by
  induction t generalizing i with
  | nil =>
    rw [doubled, List.nil_append, quotedLoop.eq_def]
    dsimp only
    rw [if_neg hq, if_pos rfl]
    cases s with
    | nil => rfl
    | cons d s => exact if_neg fun heq => hs (congrArg some heq)
  | cons c t ih =>
    rw [List.mem_cons, not_or] at ht
    rw [doubled]
    split
    · rename_i hc
      subst hc
      rw [List.cons_append, List.cons_append, quotedLoop.eq_def]
      dsimp only
      rw [if_neg hq, if_pos rfl, if_pos rfl, ih ht.2, List.length_cons, List.length_cons]
      congr 1
      omega
    · rename_i hc
      rw [List.cons_append, quotedLoop.eq_def]
      dsimp only
      rw [if_neg (Ne.symm ht.1), if_neg hc, ih ht.2, List.length_cons]
      congr 1
      omega

/-- The text in quotes. -/
def quoted (q : UInt8) (t : List UInt8) : List UInt8 := q :: (doubled q t ++ [q])

theorem quoted_append (q : UInt8) (t s : List UInt8) :
    quoted q t ++ s = q :: (doubled q t ++ q :: s) := by
  rw [quoted, List.cons_append, List.append_assoc]
  rfl

theorem length_quoted (q : UInt8) (t : List UInt8) :
    (quoted q t).length = (doubled q t).length + 2 := by
  rw [quoted, List.length_cons, List.length_append, List.length_singleton]

theorem quotedToken_quoted {q : UInt8} (hq : q ≠ 0) {t : List UInt8} (ht : 0 ∉ t) {s : List UInt8}
    (hs : s.head? ≠ some q) :
    quotedToken q (quoted q t ++ s)
      = (if q = squote then .string else .id, (quoted q t).length) := by
  have hlen : 1 + (doubled q t).length + 1 = (quoted q t).length := by
    rw [length_quoted]
    omega
  rw [quoted_append, quotedToken, List.tail_cons, quotedLoop_doubled hq ht hs]
  dsimp only
  split
  · rw [hlen]
  · rw [hlen]

/-- **A quoted text is one token**, whatever follows it, if that does not begin with the quote. -/
theorem getToken_quoted (keywordCode : List UInt8 → TokenType) {q : UInt8}
    (hq : q = bquote ∨ q = squote ∨ q = dquote) {t : List UInt8} (ht : 0 ∉ t) {s : List UInt8}
    (hs : s.head? ≠ some q) :
    sqlite3GetToken keywordCode (quoted q t ++ s)
      = (if q = squote then .string else .id, (quoted q t).length) := by
  have hbranch : sqlite3GetToken keywordCode (q :: (doubled q t ++ q :: s))
      = quotedToken q (q :: (doubled q t ++ q :: s)) := by
    rcases hq with rfl | rfl | rfl <;> rfl
  rw [quoted_append, hbranch, ← quoted_append]
  refine quotedToken_quoted ?_ ht hs
  rcases hq with rfl | rfl | rfl <;> decide

/-! ### Blobs -/

theorem takeWhile_append_cons {p : UInt8 → Bool} {A : List UInt8} (hA : ∀ c ∈ A, p c = true)
    {c : UInt8} (hc : p c = false) (s : List UInt8) : (A ++ c :: s).takeWhile p = A := by
  have hstop : ¬p c = true := by
    rw [hc]
    exact Bool.false_ne_true
  rw [List.takeWhile_append_of_pos hA, List.takeWhile_cons_of_neg hstop, List.append_nil]

/-- A blob literal with the digits `hex`. -/
def blobLiteral (hex : List UInt8) : List UInt8 := 'X'.toUInt8 :: squote :: (hex ++ [squote])

theorem length_blobLiteral (hex : List UInt8) : (blobLiteral hex).length = hex.length + 3 := by
  rw [blobLiteral, List.length_cons, List.length_cons, List.length_append, List.length_singleton]

/-- **A blob literal is one token**, whatever follows it. -/
theorem getToken_blobLiteral (keywordCode : List UInt8 → TokenType) {hex : List UInt8}
    (hhex : ∀ c ∈ hex, isXdigit c = true) (heven : hex.length % 2 = 0) (s : List UInt8) :
    sqlite3GetToken keywordCode (blobLiteral hex ++ s) = (.blob, (blobLiteral hex).length) := by
  have htext : blobLiteral hex ++ s = 'X'.toUInt8 :: squote :: (hex ++ squote :: s) := by
    rw [blobLiteral, List.cons_append, List.cons_append, List.append_assoc]
    rfl
  have hscan : scan isXdigit (blobLiteral hex ++ s) 2 = hex.length + 2 := by
    rw [htext, scan]
    change 2 + ((hex ++ squote :: s).takeWhile isXdigit).length = _
    rw [takeWhile_append_cons hhex (by decide)]
    omega
  have hend : byteAt (blobLiteral hex ++ s) (hex.length + 2) = squote := by
    rw [htext, byteAt, List.getD_cons_succ, List.getD_cons_succ, List.getD_eq_getElem?_getD,
      List.getElem?_append_right (Nat.le_refl _), Nat.sub_self]
    rfl
  have hbranch : sqlite3GetToken keywordCode (blobLiteral hex ++ s)
      = blobToken (blobLiteral hex ++ s) := rfl
  rw [hbranch, blobToken, hscan]
  dsimp only
  rw [if_neg (not_or.mpr ⟨fun hne => hne hend, by omega⟩)]
  dsimp only
  rw [hend, if_pos (by decide), length_blobLiteral]

end Sql

end SqliteVms

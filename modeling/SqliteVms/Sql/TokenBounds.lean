import Mathlib.Algebra.Order.Ring.Int
import SqliteVms.Sql.Token

/-!
# The bytes that the tokenizer reads

`sqlite3GetToken` once more, now with every read checked: the text is followed by its terminator
and nothing behind that may be read. The checked tokenizer never reads too far and agrees with the
other one; but a text that is a single `!` gets a token of two bytes, and `sqlite3RunParser`, which
goes on behind the token, reads past the terminator.

## Main definitions

* `getTokenC` — the tokenizer with checked reads
* `sqlite3RunParser` — the loop over the tokens of a text
* `Delimited` — where strings, quoted identifiers and comments end
* `Proper` — what is asked of the first token of a text

## Main results

* `getTokenC_eq` — no read goes past the terminator
* `inside_getToken` — where the token ends
* `proper_iff` — a single `!` is the only text whose first token is wrong
-/

namespace SqliteVms

namespace Sql

/-! ### Checked reads -/

/-- `z[i]`, where the text is followed by its terminator. -/
def peek (z : List UInt8) (i : ℕ) : Option UInt8 := (z ++ [0])[i]?

/-- The loop over the bytes from `i` on that have the property. -/
def scanC (p : UInt8 → Bool) (z : List UInt8) : ℕ → ℕ → Option ℕ
  | 0, _ => none
  | fuel + 1, i => (peek z i).bind fun c => if p c = true then scanC p z fuel (i + 1) else some i

/-- The loop for a comment. -/
def commentC (z : List UInt8) : ℕ → UInt8 → ℕ → Option ℕ
  | 0, _, _ => none
  | fuel + 1, c, i =>
    (peek z i).bind fun d =>
      if c = '*'.toUInt8 ∧ d = '/'.toUInt8 then some (i + 1)
      else if d = 0 then some i
      else commentC z fuel d (i + 1)

/-- The loop for quoted text. -/
def quotedC (delim : UInt8) (z : List UInt8) : ℕ → ℕ → Option (ℕ × UInt8)
  | 0, _ => none
  | fuel + 1, i =>
    (peek z i).bind fun c =>
      if c = 0 then some (i, 0)
      else if c = delim then
        (peek z (i + 1)).bind fun d =>
          if d = delim then quotedC delim z fuel (i + 2) else some (i, c)
      else quotedC delim z fuel (i + 1)

/-- The loop for a variable. -/
def variableC (z : List UInt8) : ℕ → ℕ → ℕ → Option (ℕ × ℕ × Bool)
  | 0, _, _ => none
  | fuel + 1, i, n =>
    (peek z i).bind fun c =>
      if c = 0 then some (i, n, true)
      else if idChar c = true then variableC z fuel (i + 1) (n + 1)
      else if c = '('.toUInt8 ∧ 0 < n then
        (scanC (fun c => c ≠ 0 && !isSpace c && c ≠ ')'.toUInt8) z (z.length + 1) (i + 1)).bind fun k =>
          (peek z k).map fun d => if d = ')'.toUInt8 then (k + 1, n, true) else (k, n, false)
      else if c = ':'.toUInt8 then
        (peek z (i + 1)).bind fun d =>
          if d = ':'.toUInt8 then variableC z fuel (i + 2) n else some (i, n, true)
      else some (i, n, true)

/-- The branch for a slash. -/
def slashC (z : List UInt8) : Option (TokenType × ℕ) :=
  (peek z 1).bind fun d =>
    if d ≠ '*'.toUInt8 then some (.slash, 1)
    else
      (peek z 2).bind fun e =>
        if e = 0 then some (.slash, 1)
        else (commentC z (z.length + 1) e 3).map fun i => (.space, i)

/-- The branch for the quotes. -/
def quotedTokenC (delim : UInt8) (z : List UInt8) : Option (TokenType × ℕ) :=
  (quotedC delim z (z.length + 1) 1).map fun (i, c) =>
    if c = squote then (.string, i + 1) else if c ≠ 0 then (.id, i + 1) else (.illegal, i)

/-- The fraction of a number. -/
def fractionC (z : List UInt8) (i : ℕ) : Option (TokenType × ℕ) :=
  (peek z i).bind fun c =>
    if c = '.'.toUInt8 then
      (scanC isDigit z (z.length + 1) (i + 1)).map fun i => (.float, i)
    else some (.integer, i)

/-- Whether an exponent begins at `i`. -/
def exponentC (z : List UInt8) (i : ℕ) : Option Bool :=
  (peek z i).bind fun c =>
    if c = 'e'.toUInt8 ∨ c = 'E'.toUInt8 then
      (peek z (i + 1)).bind fun d =>
        if isDigit d = true then some true
        else if d = '+'.toUInt8 ∨ d = '-'.toUInt8 then (peek z (i + 2)).map isDigit
        else some false
    else some false

/-- The branch for a number. -/
def numberTokenC (z : List UInt8) : Option (TokenType × ℕ) :=
  (scanC isDigit z (z.length + 1) 0).bind fun i =>
    (fractionC z i).bind fun (t, i) =>
      (exponentC z i).bind fun e =>
        (if e = true then
            (scanC isDigit z (z.length + 1) (i + 2)).map fun i => (TokenType.float, i)
          else some (t, i)).bind fun (t, i) =>
            (scanC idChar z (z.length + 1) i).map fun j => (if i < j then .illegal else t, j)

/-- The branch for an identifier in brackets. -/
def bracketTokenC (z : List UInt8) : Option (TokenType × ℕ) :=
  (scanC (fun c => c ≠ 0 && c ≠ ']'.toUInt8) z (z.length + 1) 1).bind fun i =>
    (peek z i).map fun c => if c = ']'.toUInt8 then (.id, i + 1) else (.illegal, i)

/-- The branch for a variable. -/
def variableTokenC (z : List UInt8) : Option (TokenType × ℕ) :=
  (variableC z (z.length + 1) 1 0).map fun (i, n, closed) =>
    (if n = 0 ∨ !closed then .illegal else .variable, i)

/-- The branch for a blob. -/
def blobTokenC (z : List UInt8) : Option (TokenType × ℕ) :=
  (scanC isXdigit z (z.length + 1) 2).bind fun i =>
    (peek z i).bind fun c =>
      (if c ≠ squote ∨ i % 2 ≠ 0 then
          (scanC (fun c => c ≠ 0 && c ≠ squote) z (z.length + 1) i).map fun j =>
            (TokenType.illegal, j)
        else some (TokenType.blob, i)).bind fun (t, i) =>
          (peek z i).map fun c => (t, if c ≠ 0 then i + 1 else i)

/-- `sqlite3GetToken` with checked reads. -/
def getTokenC (keywordCode : List UInt8 → TokenType) (z : List UInt8) : Option (TokenType × ℕ) :=
  (peek z 0).bind fun c =>
    if c = 32 ∨ c = 9 ∨ c = 10 ∨ c = 12 ∨ c = 13 then
      (scanC isSpace z (z.length + 1) 1).map fun i => (.space, i)
    else if c = '-'.toUInt8 then
      (peek z 1).bind fun d =>
        if d = '-'.toUInt8 then
          (scanC (fun c => c ≠ 0 && c ≠ 10) z (z.length + 1) 2).map fun i => (.space, i)
        else some (.minus, 1)
    else if c = '('.toUInt8 then some (.lp, 1)
    else if c = ')'.toUInt8 then some (.rp, 1)
    else if c = ';'.toUInt8 then some (.semi, 1)
    else if c = '+'.toUInt8 then some (.plus, 1)
    else if c = '*'.toUInt8 then some (.star, 1)
    else if c = '/'.toUInt8 then slashC z
    else if c = '%'.toUInt8 then some (.rem, 1)
    else if c = '='.toUInt8 then
      (peek z 1).map fun d => (.eq, if d = '='.toUInt8 then 2 else 1)
    else if c = '<'.toUInt8 then
      (peek z 1).map fun d =>
        if d = '='.toUInt8 then (.le, 2)
        else if d = '>'.toUInt8 then (.ne, 2)
        else if d = '<'.toUInt8 then (.lshift, 2)
        else (.lt, 1)
    else if c = '>'.toUInt8 then
      (peek z 1).map fun d =>
        if d = '='.toUInt8 then (.ge, 2)
        else if d = '>'.toUInt8 then (.rshift, 2)
        else (.gt, 1)
    else if c = '!'.toUInt8 then
      (peek z 1).map fun d => (if d ≠ '='.toUInt8 then .illegal else .ne, 2)
    else if c = '|'.toUInt8 then
      (peek z 1).map fun d => if d ≠ '|'.toUInt8 then (.bitor, 1) else (.concat, 2)
    else if c = ','.toUInt8 then some (.comma, 1)
    else if c = '&'.toUInt8 then some (.bitand, 1)
    else if c = '~'.toUInt8 then some (.bitnot, 1)
    else if c = bquote ∨ c = squote ∨ c = dquote then quotedTokenC c z
    else if c = '.'.toUInt8 then
      (peek z 1).bind fun d => if isDigit d = true then numberTokenC z else some (.dot, 1)
    else if isDigit c = true then numberTokenC z
    else if c = '['.toUInt8 then bracketTokenC z
    else if c = '?'.toUInt8 then
      (scanC isDigit z (z.length + 1) 1).map fun i => (.variable, i)
    else if c = '#'.toUInt8 then
      (scanC isDigit z (z.length + 1) 1).bind fun i =>
        if 1 < i then some (.register, i) else variableTokenC z
    else if c = '$'.toUInt8 ∨ c = '@'.toUInt8 ∨ c = ':'.toUInt8 then variableTokenC z
    else if c = 'x'.toUInt8 ∨ c = 'X'.toUInt8 then
      (peek z 1).bind fun d =>
        if d = squote then blobTokenC z
        else (scanC idChar z (z.length + 1) 1).map fun i => (keywordCode (z.take i), i)
    else if idChar c = true then
      (scanC idChar z (z.length + 1) 1).map fun i => (keywordCode (z.take i), i)
    else some (.illegal, 1)

/-! ### No read goes too far -/

theorem peek_eq {z : List UInt8} {i : ℕ} (h : i ≤ z.length) : peek z i = some (byteAt z i) := by
  rw [peek, byteAt, List.getD_eq_getElem?_getD]
  rcases Nat.lt_or_ge i z.length with hlt | hge
  · rw [List.getElem?_append_left hlt, List.getElem?_eq_getElem hlt]
    rfl
  · obtain rfl : i = z.length := by omega
    rw [List.getElem?_append_right (Nat.le_refl _), Nat.sub_self,
      List.getElem?_eq_none (Nat.le_refl _)]
    rfl

theorem byteAt_length (z : List UInt8) : byteAt z z.length = 0 := by
  rw [byteAt, List.getD_eq_getElem?_getD, List.getElem?_eq_none (Nat.le_refl _)]
  rfl

/-- Behind a byte that is not the terminator there is another one. -/
theorem lt_of_byteAt_ne {z : List UInt8} {i : ℕ} (h : byteAt z i ≠ 0) : i < z.length := by
  by_contra hge
  refine h ?_
  rw [byteAt, List.getD_eq_getElem?_getD, List.getElem?_eq_none (Nat.not_lt.mp hge)]
  rfl

theorem byteAt_drop (z : List UInt8) (i j : ℕ) : byteAt (z.drop i) j = byteAt z (i + j) := by
  rw [byteAt, byteAt, List.getD_eq_getElem?_getD, List.getD_eq_getElem?_getD, List.getElem?_drop]

theorem scan_le (p : UInt8 → Bool) {z : List UInt8} {i : ℕ} (h : i ≤ z.length) :
    i ≤ scan p z i ∧ scan p z i ≤ z.length := by
  have hlen := (List.takeWhile_prefix p (l := z.drop i)).length_le
  rw [List.length_drop] at hlen
  rw [scan]
  omega

theorem drop_eq_cons {z : List UInt8} {i : ℕ} (h : i < z.length) :
    z.drop i = byteAt z i :: z.drop (i + 1) := by
  rw [List.drop_eq_getElem_cons h, byteAt, List.getD_eq_getElem?_getD, List.getElem?_eq_getElem h]
  rfl

theorem scan_of_neg {p : UInt8 → Bool} {z : List UInt8} {i : ℕ} (hlt : i < z.length)
    (h : p (byteAt z i) = false) : scan p z i = i := by
  rw [scan, drop_eq_cons hlt, List.takeWhile_cons, h]
  rfl

theorem scan_of_pos {p : UInt8 → Bool} {z : List UInt8} {i : ℕ} (hlt : i < z.length)
    (h : p (byteAt z i) = true) : scan p z i = scan p z (i + 1) := by
  rw [scan, scan, drop_eq_cons hlt, List.takeWhile_cons, h, if_pos rfl, List.length_cons]
  omega

theorem scan_length (p : UInt8 → Bool) (z : List UInt8) : scan p z z.length = z.length := by
  rw [scan, List.drop_length]
  rfl

/-- **A loop that stops at the terminator stays in the text.** -/
theorem scanC_eq {p : UInt8 → Bool} (hp : p 0 = false) {z : List UInt8} {fuel i : ℕ}
    (hi : i ≤ z.length) (hfuel : z.length < fuel + i) : scanC p z fuel i = some (scan p z i) := by
  induction fuel generalizing i with
  | zero => omega
  | succ fuel ih =>
    rw [scanC, peek_eq hi, Option.bind_some]
    rcases Nat.lt_or_ge i z.length with hlt | hge
    · cases hc : p (byteAt z i) with
      | true => rw [if_pos rfl, ih hlt (by omega), ← scan_of_pos hlt hc]
      | false => rw [if_neg Bool.false_ne_true, scan_of_neg hlt hc]
    · obtain rfl : i = z.length := by omega
      rw [byteAt_length, hp, if_neg Bool.false_ne_true, scan_length]

theorem drop_length_eq_nil (z : List UInt8) : z.drop z.length = [] := List.drop_length

theorem commentC_eq {z : List UInt8} {fuel i : ℕ} (c : UInt8) (hi : i ≤ z.length)
    (hfuel : z.length < fuel + i) : commentC z fuel c i = some (commentLoop c (z.drop i) i) := by
  induction fuel generalizing c i with
  | zero => omega
  | succ fuel ih =>
    rw [commentC, peek_eq hi, Option.bind_some]
    rcases Nat.lt_or_ge i z.length with hlt | hge
    · rw [drop_eq_cons hlt, commentLoop]
      split
      · rfl
      split
      · rfl
      · exact ih _ hlt (by omega)
    · obtain rfl : i = z.length := by omega
      rw [byteAt_length, drop_length_eq_nil, if_neg fun h => absurd h.2 (by decide), if_pos rfl]
      rfl

theorem quotedC_eq {delim : UInt8} (hdelim : delim ≠ 0) {z : List UInt8} {fuel i : ℕ}
    (hi : i ≤ z.length) (hfuel : z.length < fuel + i) :
    quotedC delim z fuel i = some (quotedLoop delim (z.drop i) i) := by
  induction fuel generalizing i with
  | zero => omega
  | succ fuel ih =>
    rw [quotedC, peek_eq hi, Option.bind_some]
    rcases Nat.lt_or_ge i z.length with hlt | hge
    · rw [drop_eq_cons hlt, quotedLoop.eq_def]
      dsimp only
      split
      · rfl
      split
      · have hnext : i + 1 ≤ z.length := hlt
        rw [peek_eq hnext, Option.bind_some]
        rcases Nat.lt_or_ge (i + 1) z.length with hlt' | hge'
        · rw [drop_eq_cons hlt']
          dsimp only
          split
          · exact ih hlt' (by omega)
          · rfl
        · have hend : i + 1 = z.length := by omega
          rw [hend, byteAt_length, drop_length_eq_nil, if_neg (Ne.symm hdelim)]
      · exact ih hlt (by omega)
    · obtain rfl : i = z.length := by omega
      rw [byteAt_length, drop_length_eq_nil, if_pos rfl]
      rfl

theorem scan_drop (p : UInt8 → Bool) (z : List UInt8) (i : ℕ) :
    scan p z i = i + scan p (z.drop i) 0 := by
  rw [scan, scan, List.drop_zero]
  omega

theorem variableC_eq {z : List UInt8} {fuel i : ℕ} (n : ℕ) (hi : i ≤ z.length)
    (hfuel : z.length < fuel + i) : variableC z fuel i n = some (variableLoop (z.drop i) i n) := by
  induction fuel generalizing i n with
  | zero => omega
  | succ fuel ih =>
    rw [variableC, peek_eq hi, Option.bind_some]
    rcases Nat.lt_or_ge i z.length with hlt | hge
    · rw [drop_eq_cons hlt, variableLoop.eq_def]
      dsimp only
      split
      · rfl
      split
      · exact ih _ hlt (by omega)
      split
      · -- the text in parentheses
        have hnext : i + 1 ≤ z.length := hlt
        have hscan := scan_le (fun c => c ≠ 0 && !isSpace c && c ≠ ')'.toUInt8) hnext
        rw [scanC_eq (by decide) hnext (by omega), Option.bind_some, peek_eq hscan.2, byteAt_drop,
          scan_drop]
        dsimp only [Option.map_some]
        split
        · exact congrArg some (Prod.ext (by dsimp only; omega) rfl)
        · exact congrArg some (Prod.ext (by dsimp only; omega) rfl)
      split
      · rename_i hcolon
        have hnext : i + 1 ≤ z.length := hlt
        rw [peek_eq hnext, Option.bind_some]
        rcases Nat.lt_or_ge (i + 1) z.length with hlt' | hge'
        · rw [drop_eq_cons hlt']
          dsimp only
          split
          · rename_i hd
            rw [if_pos ⟨hcolon, hd⟩]
            exact ih _ hlt' (by omega)
          · rename_i hd
            rw [if_neg fun h => hd h.2]
        · have hend : i + 1 = z.length := by omega
          rw [hend, byteAt_length, drop_length_eq_nil, if_neg (by decide)]
      · rename_i hcolon
        split
        · rw [if_neg fun h => hcolon h.1]
        · rfl
    · obtain rfl : i = z.length := by omega
      rw [byteAt_length, drop_length_eq_nil, if_pos rfl]
      rfl

theorem idChar_zero : idChar 0 = false := by decide

theorem isDigit_zero : isDigit 0 = false := by decide

/-- A scan moves on exactly if the first byte has the property. -/
theorem lt_scan_iff {p : UInt8 → Bool} (hp : p 0 = false) {z : List UInt8} {i : ℕ}
    (hi : i ≤ z.length) : i < scan p z i ↔ p (byteAt z i) = true := by
  rcases Nat.lt_or_ge i z.length with hlt | hge
  · cases hc : p (byteAt z i) with
    | true =>
      rw [scan_of_pos hlt hc]
      have hle := scan_le p (i := i + 1) hlt
      exact iff_of_true (by omega) rfl
    | false =>
      rw [scan_of_neg hlt hc]
      exact iff_of_false (Nat.lt_irrefl _) Bool.false_ne_true
  · obtain rfl : i = z.length := by omega
    rw [byteAt_length, hp, scan_length]
    exact iff_of_false (Nat.lt_irrefl _) Bool.false_ne_true

theorem slashC_eq {z : List UInt8} (hz : 1 ≤ z.length) :
    slashC z = some (if byteAt z 1 ≠ '*'.toUInt8 ∨ byteAt z 2 = 0 then (.slash, 1)
      else (.space, commentLoop (byteAt z 2) (z.drop 3) 3)) := by
  rw [slashC, peek_eq hz, Option.bind_some]
  by_cases hstar : byteAt z 1 ≠ '*'.toUInt8
  · rw [if_pos hstar, if_pos (Or.inl hstar)]
  · have htwo : 1 < z.length :=
      lt_of_byteAt_ne (by rw [not_not.mp hstar]; decide)
    rw [if_neg hstar, peek_eq htwo, Option.bind_some]
    by_cases hzero : byteAt z 2 = 0
    · rw [if_pos hzero, if_pos (Or.inr hzero)]
    · rw [if_neg hzero, if_neg (not_or.mpr ⟨hstar, hzero⟩),
        commentC_eq _ (lt_of_byteAt_ne hzero) (by omega)]
      rfl

theorem quotedTokenC_eq {delim : UInt8} (hdelim : delim ≠ 0) {z : List UInt8}
    (hz : 1 ≤ z.length) : quotedTokenC delim z = some (quotedToken delim z) := by
  rw [quotedTokenC, quotedC_eq hdelim hz (by omega), List.drop_one]
  rfl

theorem fractionC_eq {z : List UInt8} {i : ℕ} (hi : i ≤ z.length) :
    fractionC z i = some (if byteAt z i = '.'.toUInt8 then (.float, scan isDigit z (i + 1))
      else (.integer, i)) := by
  rw [fractionC, peek_eq hi, Option.bind_some]
  split
  · rename_i hdot
    have hlt : i < z.length := lt_of_byteAt_ne (by rw [hdot]; decide)
    rw [scanC_eq isDigit_zero hlt (by omega)]
    rfl
  · rfl

/-- Where an exponent begins. -/
def Exponent (z : List UInt8) (i : ℕ) : Prop :=
  (byteAt z i = 'e'.toUInt8 ∨ byteAt z i = 'E'.toUInt8) ∧
    (isDigit (byteAt z (i + 1)) ∨
      ((byteAt z (i + 1) = '+'.toUInt8 ∨ byteAt z (i + 1) = '-'.toUInt8) ∧
        isDigit (byteAt z (i + 2))))

instance (z : List UInt8) (i : ℕ) : Decidable (Exponent z i) :=
  inferInstanceAs (Decidable (_ ∧ _))

theorem Exponent.lt {z : List UInt8} {i : ℕ} (h : Exponent z i) : i + 1 < z.length := by
  refine lt_of_byteAt_ne fun hzero => ?_
  rcases h.2 with hdigit | ⟨hplus | hminus, -⟩
  · rw [hzero] at hdigit
    exact absurd hdigit (by decide)
  · rw [hzero] at hplus
    exact absurd hplus (by decide)
  · rw [hzero] at hminus
    exact absurd hminus (by decide)

theorem exponentC_eq {z : List UInt8} {i : ℕ} (hi : i ≤ z.length) :
    exponentC z i = some (decide (Exponent z i)) := by
  rw [exponentC, peek_eq hi, Option.bind_some]
  by_cases he : byteAt z i = 'e'.toUInt8 ∨ byteAt z i = 'E'.toUInt8
  · have hlt : i < z.length := lt_of_byteAt_ne (by rcases he with h | h <;> rw [h] <;> decide)
    rw [if_pos he, peek_eq hlt, Option.bind_some]
    by_cases hdigit : isDigit (byteAt z (i + 1)) = true
    · rw [if_pos hdigit, decide_eq_true ⟨he, Or.inl hdigit⟩]
    rw [if_neg hdigit]
    by_cases hsign : byteAt z (i + 1) = '+'.toUInt8 ∨ byteAt z (i + 1) = '-'.toUInt8
    · have hlt' : i + 1 < z.length :=
        lt_of_byteAt_ne (by rcases hsign with h | h <;> rw [h] <;> decide)
      rw [if_pos hsign, peek_eq hlt', Option.map_some]
      congr 1
      rw [Bool.eq_iff_iff, decide_eq_true_iff]
      exact ⟨fun h => ⟨he, Or.inr ⟨hsign, h⟩⟩, fun h => (h.2.resolve_left hdigit).2⟩
    · rw [if_neg hsign, decide_eq_false fun h => hsign (h.2.resolve_left hdigit).1]
  · rw [if_neg he, decide_eq_false fun h => he h.1]

theorem fraction_le {z : List UInt8} {i : ℕ} (hi : i ≤ z.length) :
    let r : TokenType × ℕ := if byteAt z i = '.'.toUInt8 then (.float, scan isDigit z (i + 1))
      else (.integer, i)
    i ≤ r.2 ∧ r.2 ≤ z.length := by
  intro r
  dsimp only [r]
  split
  · rename_i hdot
    have hlt : i < z.length := lt_of_byteAt_ne (by rw [hdot]; decide)
    have hle := scan_le isDigit (i := i + 1) hlt
    exact ⟨Nat.le_of_succ_le hle.1, hle.2⟩
  · exact ⟨Nat.le_refl _, hi⟩

/-- What follows the mantissa of a number. -/
def numberTail (z : List UInt8) (t : TokenType) (i : ℕ) : TokenType × ℕ :=
  if idChar (byteAt z i) = true then (.illegal, scan idChar z i) else (t, i)

theorem numberTailC_eq {z : List UInt8} (t : TokenType) {i : ℕ} (hi : i ≤ z.length) :
    (scanC idChar z (z.length + 1) i).map
      (fun j => ((if i < j then .illegal else t : TokenType), j)) = some (numberTail z t i) := by
  have hmove := lt_scan_iff idChar_zero hi
  rw [scanC_eq idChar_zero hi (by omega), Option.map_some, numberTail]
  by_cases hid : idChar (byteAt z i) = true
  · rw [if_pos (hmove.mpr hid), if_pos hid]
  · have hstay : scan idChar z i = i := by
      have hle := (scan_le idChar hi).1
      have hnot : ¬i < scan idChar z i := fun h => hid (hmove.mp h)
      omega
    rw [if_neg fun h => hid (hmove.mp h), if_neg hid, hstay]

/-- The exponent and what follows it. -/
theorem exponentTailC_eq {z : List UInt8} (t : TokenType) {i : ℕ} (hi : i ≤ z.length) :
    ((exponentC z i).bind fun e =>
      (if e = true then
          (scanC isDigit z (z.length + 1) (i + 2)).map fun i => (TokenType.float, i)
        else some (t, i)).bind fun (t, i) =>
          (scanC idChar z (z.length + 1) i).map fun j =>
            ((if i < j then .illegal else t : TokenType), j)) =
      some (if Exponent z i then numberTail z .float (scan isDigit z (i + 2))
        else numberTail z t i) := by
  rw [exponentC_eq hi, Option.bind_some]
  by_cases he : Exponent z i
  · have hlt : i + 2 ≤ z.length := he.lt
    have hle := scan_le isDigit hlt
    rw [decide_eq_true he, if_pos rfl, if_pos he, scanC_eq isDigit_zero hlt (by omega),
      Option.map_some, Option.bind_some]
    exact numberTailC_eq _ hle.2
  · rw [decide_eq_false he, if_neg Bool.false_ne_true, if_neg he, Option.bind_some]
    exact numberTailC_eq _ hi

theorem numberToken_eq (z : List UInt8) :
    numberToken z =
      let r : TokenType × ℕ :=
        if byteAt z (scan isDigit z 0) = '.'.toUInt8 then
          (.float, scan isDigit z (scan isDigit z 0 + 1))
        else (.integer, scan isDigit z 0)
      if Exponent z r.2 then numberTail z .float (scan isDigit z (r.2 + 2))
        else numberTail z r.1 r.2 := by
  rw [numberToken]
  dsimp only
  generalize (if byteAt z (scan isDigit z 0) = '.'.toUInt8 then
      (TokenType.float, scan isDigit z (scan isDigit z 0 + 1))
    else (TokenType.integer, scan isDigit z 0)) = r
  obtain ⟨t, i⟩ := r
  dsimp only
  by_cases he : Exponent z i
  · rw [if_pos he, if_pos (show _ ∧ _ from he)]
    rfl
  · rw [if_neg he, if_neg (show ¬(_ ∧ _) from he)]
    rfl

theorem numberTokenC_eq (z : List UInt8) : numberTokenC z = some (numberToken z) := by
  have hscan := scan_le isDigit (Nat.zero_le z.length)
  have hfraction := fraction_le hscan.2
  rw [numberTokenC, scanC_eq isDigit_zero (Nat.zero_le _) (by omega), Option.bind_some,
    fractionC_eq hscan.2, Option.bind_some, numberToken_eq]
  exact exponentTailC_eq _ hfraction.2

theorem bracketTokenC_eq {z : List UInt8} (hz : 1 ≤ z.length) :
    bracketTokenC z = some (bracketToken z) := by
  have hscan := scan_le (fun c => c ≠ 0 && c ≠ ']'.toUInt8) hz
  rw [bracketTokenC, scanC_eq (by decide) hz (by omega), Option.bind_some, peek_eq hscan.2]
  rfl

theorem variableTokenC_eq {z : List UInt8} (hz : 1 ≤ z.length) :
    variableTokenC z = some (variableToken z) := by
  rw [variableTokenC, variableC_eq 0 hz (by omega), List.drop_one]
  rfl

theorem blobTokenC_eq {z : List UInt8} (hz : 2 ≤ z.length) : blobTokenC z = some (blobToken z) := by
  have hscan := scan_le isXdigit hz
  rw [blobTokenC, scanC_eq (by decide) hz (by omega), Option.bind_some, peek_eq hscan.2,
    Option.bind_some, blobToken]
  dsimp only
  by_cases hend : byteAt z (scan isXdigit z 2) ≠ squote ∨ scan isXdigit z 2 % 2 ≠ 0
  · have hscan' := scan_le (fun c => c ≠ 0 && c ≠ squote) hscan.2
    rw [if_pos hend, if_pos hend, scanC_eq (by decide) hscan.2 (by omega), Option.map_some,
      Option.bind_some, peek_eq hscan'.2]
    rfl
  · rw [if_neg hend, if_neg hend, Option.bind_some, peek_eq hscan.2]
    rfl

theorem ite_eq_some {α : Type} {c : Prop} [Decidable c] {x y : Option α} {a b : α}
    (hpos : c → x = some a) (hneg : ¬c → y = some b) :
    (if c then x else y) = some (if c then a else b) := by
  by_cases h : c
  · rw [if_pos h, if_pos h, hpos h]
  · rw [if_neg h, if_neg h, hneg h]

/-- **No read goes past the terminator**, and the token is the same. -/
theorem getTokenC_eq (keywordCode : List UInt8 → TokenType) {z : List UInt8} (hz : z ≠ []) :
    getTokenC keywordCode z = some (sqlite3GetToken keywordCode z) := by
  have hlen : 1 ≤ z.length := List.length_pos_of_ne_nil hz
  have hword : (scanC idChar z (z.length + 1) 1).map (fun i => (keywordCode (z.take i), i))
      = some (keywordCode (z.take (scan idChar z 1)), scan idChar z 1) := by
    rw [scanC_eq idChar_zero hlen (by omega)]
    rfl
  have hnext := peek_eq hlen
  rw [getTokenC, peek_eq (Nat.zero_le _), Option.bind_some, sqlite3GetToken]
  refine ite_eq_some (fun _ => ?_) fun _ => ?_
  · rw [scanC_eq (by decide) hlen (by omega)]
    rfl
  refine ite_eq_some (fun _ => ?_) fun _ => ?_
  · rw [hnext, Option.bind_some]
    refine ite_eq_some (fun hdash => ?_) fun _ => rfl
    have htwo : 1 < z.length := lt_of_byteAt_ne (by rw [hdash]; decide)
    rw [scanC_eq (by decide) htwo (by omega)]
    rfl
  iterate 5 refine ite_eq_some (fun _ => rfl) fun _ => ?_
  refine ite_eq_some (fun _ => slashC_eq hlen) fun _ => ?_
  refine ite_eq_some (fun _ => rfl) fun _ => ?_
  iterate 5 refine ite_eq_some (fun _ => by rw [hnext]; rfl) fun _ => ?_
  iterate 3 refine ite_eq_some (fun _ => rfl) fun _ => ?_
  refine ite_eq_some (fun hquote => quotedTokenC_eq ?_ hlen) fun _ => ?_
  · rcases hquote with h | h | h <;> rw [h] <;> decide
  refine ite_eq_some (fun _ => ?_) fun _ => ?_
  · rw [hnext, Option.bind_some]
    exact ite_eq_some (fun _ => numberTokenC_eq z) fun _ => rfl
  refine ite_eq_some (fun _ => numberTokenC_eq z) fun _ => ?_
  refine ite_eq_some (fun _ => bracketTokenC_eq hlen) fun _ => ?_
  refine ite_eq_some (fun _ => ?_) fun _ => ?_
  · rw [scanC_eq isDigit_zero hlen (by omega)]
    rfl
  refine ite_eq_some (fun _ => ?_) fun _ => ?_
  · rw [scanC_eq isDigit_zero hlen (by omega), Option.bind_some]
    exact ite_eq_some (fun _ => rfl) fun _ => variableTokenC_eq hlen
  refine ite_eq_some (fun _ => variableTokenC_eq hlen) fun _ => ?_
  by_cases hx : byteAt z 0 = 'x'.toUInt8 ∨ byteAt z 0 = 'X'.toUInt8
  · have hid : idChar (byteAt z 0) = true := by rcases hx with h | h <;> rw [h] <;> decide
    rw [if_pos hx, hnext, Option.bind_some]
    by_cases hd : byteAt z 1 = squote
    · have htwo : 1 < z.length := lt_of_byteAt_ne (by rw [hd]; decide)
      rw [if_pos hd, if_pos ⟨hx, hd⟩, blobTokenC_eq htwo]
    · rw [if_neg hd, if_neg fun h => hd h.2, if_pos hid, hword]
  · have hblob : ¬((byteAt z 0 = 'x'.toUInt8 ∨ byteAt z 0 = 'X'.toUInt8) ∧ byteAt z 1 = squote) :=
      fun h => hx h.1
    rw [if_neg hx, if_neg hblob]
    exact ite_eq_some (fun _ => hword) fun _ => rfl

/-! ### Where a token ends -/

theorem commentLoop_bounds (c : UInt8) (z : List UInt8) (i : ℕ) :
    i ≤ commentLoop c z i ∧ commentLoop c z i ≤ i + z.length := by
  fun_induction commentLoop c z i with
  | case1 c i => exact ⟨Nat.le_refl _, Nat.le_add_right _ _⟩
  | case2 i z c d h => exact ⟨Nat.le_succ _, by rw [List.length_cons]; omega⟩
  | case3 => exact ⟨Nat.le_refl _, Nat.le_add_right _ _⟩
  | case4 i z c d h hzero ih =>
    rw [List.length_cons]
    omega

theorem quotedLoop_bounds (delim : UInt8) (z : List UInt8) (i : ℕ) :
    i ≤ (quotedLoop delim z i).1 ∧ (quotedLoop delim z i).1 ≤ i + z.length ∧
      ((quotedLoop delim z i).2 ≠ 0 → (quotedLoop delim z i).1 < i + z.length) := by
  fun_induction quotedLoop delim z i with
  | case1 i => exact ⟨Nat.le_refl _, Nat.le_add_right _ _, fun h => absurd rfl h⟩
  | case2 z i => exact ⟨Nat.le_refl _, Nat.le_add_right _ _, fun h => absurd rfl h⟩
  | case3 i z h ih =>
    obtain ⟨hle, hge, hlt⟩ := ih
    rw [List.length_cons, List.length_cons]
    exact ⟨by omega, by omega, fun h => by have := hlt h; omega⟩
  | case4 i d z hd h =>
    rw [List.length_cons]
    exact ⟨Nat.le_refl _, by dsimp only; omega, fun _ => by dsimp only; omega⟩
  | case5 i h =>
    rw [List.length_cons]
    exact ⟨Nat.le_refl _, by dsimp only; omega, fun _ => by dsimp only; omega⟩
  | case6 c z i hc h ih =>
    obtain ⟨hle, hge, hlt⟩ := ih
    rw [List.length_cons]
    exact ⟨by omega, by omega, fun h => by have := hlt h; omega⟩

theorem variableLoop_bounds (z : List UInt8) (i n : ℕ) :
    i ≤ (variableLoop z i n).1 ∧ (variableLoop z i n).1 ≤ i + z.length := by
  fun_induction variableLoop z i n with
  | case1 i n => exact ⟨Nat.le_refl _, Nat.le_add_right _ _⟩
  | case2 z i n => exact ⟨Nat.le_refl _, Nat.le_add_right _ _⟩
  | case3 c z i n hc hid ih =>
    rw [List.length_cons]
    omega
  | case4 c z i n hc hid hparen k hclose =>
    -- the parenthesis that closes is in the text
    have hlt : k < z.length := lt_of_byteAt_ne (by rw [hclose]; decide)
    rw [List.length_cons]
    dsimp only
    omega
  | case5 c z i n hc hid hparen k hclose =>
    have hle := (scan_le (fun c => c ≠ 0 && !isSpace c && c ≠ ')'.toUInt8) (Nat.zero_le z.length)).2
    rw [List.length_cons]
    dsimp only [k]
    omega
  | case6 c i n hc hid hparen d z hcolon ih =>
    rw [List.length_cons, List.length_cons]
    omega
  | case7 => exact ⟨Nat.le_refl _, Nat.le_add_right _ _⟩
  | case8 => exact ⟨Nat.le_refl _, Nat.le_add_right _ _⟩

/-- A token of a text: at least one byte, and no more than there are. -/
def Inside (z : List UInt8) (r : TokenType × ℕ) : Prop := 1 ≤ r.2 ∧ r.2 ≤ z.length

variable {z : List UInt8}

theorem inside_one (hz : 1 ≤ z.length) (t : TokenType) : Inside z (t, 1) := ⟨Nat.le_refl _, hz⟩

theorem inside_two {c : UInt8} (hc : c ≠ 0) (h : byteAt z 1 = c) (t : TokenType) :
    Inside z (t, 2) :=
  ⟨Nat.le_succ 1, lt_of_byteAt_ne (h ▸ hc)⟩

theorem inside_scan (p : UInt8 → Bool) {i : ℕ} (hi : 1 ≤ i) (hz : i ≤ z.length) (t : TokenType) :
    Inside z (t, scan p z i) := by
  have hle := scan_le p hz
  exact ⟨Nat.le_trans hi hle.1, hle.2⟩

theorem inside_quotedToken (delim : UInt8) (hz : 1 ≤ z.length) : Inside z (quotedToken delim z) := by
  have hbounds := quotedLoop_bounds delim z.tail 1
  rw [List.length_tail] at hbounds
  obtain ⟨hle, hge, hlt⟩ := hbounds
  rw [quotedToken]
  dsimp only
  split
  · rename_i hquote
    have hin := hlt (by rw [hquote]; decide)
    exact ⟨by dsimp only; omega, by dsimp only; omega⟩
  split
  · rename_i hne
    have hin := hlt hne
    exact ⟨by dsimp only; omega, by dsimp only; omega⟩
  · exact ⟨by dsimp only; omega, by dsimp only; omega⟩

theorem inside_numberTail (t : TokenType) {i : ℕ} (hi : 1 ≤ i) (hz : i ≤ z.length) :
    Inside z (numberTail z t i) := by
  rw [numberTail]
  split
  · exact inside_scan _ hi hz _
  · exact ⟨hi, hz⟩

/-- A number begins with a digit, or with a point and a digit. -/
theorem inside_numberToken (hz : 1 ≤ z.length)
    (h : isDigit (byteAt z 0) = true ∨ byteAt z 0 = '.'.toUInt8) : Inside z (numberToken z) := by
  have hscan := scan_le isDigit (Nat.zero_le z.length)
  have hfraction := fraction_le hscan.2
  have hone : 1 ≤ (if byteAt z (scan isDigit z 0) = '.'.toUInt8 then
      (TokenType.float, scan isDigit z (scan isDigit z 0 + 1))
    else (TokenType.integer, scan isDigit z 0)).2 := by
    rcases h with hdigit | hdot
    · have hmove := (lt_scan_iff isDigit_zero (Nat.zero_le z.length)).mpr hdigit
      exact Nat.le_trans hmove hfraction.1
    · have hstay : scan isDigit z 0 = 0 := scan_of_neg hz (by rw [hdot]; decide)
      rw [hstay, if_pos hdot]
      exact (scan_le isDigit hz).1
  rw [numberToken_eq]
  generalize (if byteAt z (scan isDigit z 0) = '.'.toUInt8 then
      (TokenType.float, scan isDigit z (scan isDigit z 0 + 1))
    else (TokenType.integer, scan isDigit z 0)) = r at hfraction hone ⊢
  dsimp only at hfraction ⊢
  split
  · rename_i he
    have hlt : r.2 + 2 ≤ z.length := he.lt
    have hle := scan_le isDigit hlt
    exact inside_numberTail _ (by omega) hle.2
  · exact inside_numberTail _ hone hfraction.2

theorem inside_bracketToken (hz : 1 ≤ z.length) : Inside z (bracketToken z) := by
  have hle := scan_le (fun c => c ≠ 0 && c ≠ ']'.toUInt8) hz
  rw [bracketToken]
  split
  · rename_i hclose
    have hlt : scan (fun c => c ≠ 0 && c ≠ ']'.toUInt8) z 1 < z.length :=
      lt_of_byteAt_ne (by rw [hclose]; decide)
    exact ⟨Nat.le_add_left _ _, hlt⟩
  · exact hle

theorem inside_variableToken (hz : 1 ≤ z.length) : Inside z (variableToken z) := by
  have hbounds := variableLoop_bounds z.tail 1 0
  rw [List.length_tail] at hbounds
  rw [variableToken]
  exact ⟨by dsimp only; omega, by dsimp only; omega⟩

theorem inside_blobToken (hz : 2 ≤ z.length) : Inside z (blobToken z) := by
  have hscan := scan_le isXdigit hz
  have hend : ∀ t i, 1 ≤ i → i ≤ z.length →
      Inside z ((t : TokenType), if byteAt z i ≠ 0 then i + 1 else i) := by
    intro t i hone hle
    split
    · rename_i hne
      exact ⟨Nat.le_add_left _ _, lt_of_byteAt_ne hne⟩
    · exact ⟨hone, hle⟩
  rw [blobToken]
  dsimp only
  split
  · have hscan' := scan_le (fun c => c ≠ 0 && c ≠ squote) hscan.2
    exact hend _ _ (by omega) hscan'.2
  · exact hend _ _ (by omega) hscan.2

/-- **A token lies in the text**, unless the text is a single `!`. -/
theorem inside_getToken (keywordCode : List UInt8 → TokenType) (hz : z ≠ [])
    (hbang : byteAt z 0 = '!'.toUInt8 → 2 ≤ z.length) : Inside z (sqlite3GetToken keywordCode z) := by
  have hlen : 1 ≤ z.length := List.length_pos_of_ne_nil hz
  have hone := inside_one hlen
  rw [sqlite3GetToken]
  refine iteInduction (fun _ => inside_scan _ (Nat.le_refl _) hlen _) fun _ => ?_
  refine iteInduction (fun _ => ?_) fun _ => ?_
  · refine iteInduction (fun hdash => ?_) fun _ => hone _
    exact inside_scan _ (by decide) (lt_of_byteAt_ne (i := 1) (by rw [hdash]; decide)) _
  iterate 5 refine iteInduction (fun _ => hone _) fun _ => ?_
  refine iteInduction (fun _ => ?_) fun _ => ?_
  · refine iteInduction (fun _ => hone _) fun hcomment => ?_
    rw [not_or] at hcomment
    have hlt : 2 < z.length := lt_of_byteAt_ne hcomment.2
    have hbounds := commentLoop_bounds (byteAt z 2) (z.drop 3) 3
    rw [List.length_drop] at hbounds
    exact ⟨by dsimp only; omega, by dsimp only; omega⟩
  refine iteInduction (fun _ => hone _) fun _ => ?_
  refine iteInduction (fun _ => ?_) fun _ => ?_
  · by_cases heq : byteAt z 1 = '='.toUInt8
    · rw [if_pos heq]
      exact inside_two (by decide) heq _
    · rw [if_neg heq]
      exact hone _
  refine iteInduction (fun _ => ?_) fun _ => ?_
  · refine iteInduction (fun heq => inside_two (by decide) heq _) fun _ => ?_
    refine iteInduction (fun heq => inside_two (by decide) heq _) fun _ => ?_
    exact iteInduction (fun heq => inside_two (by decide) heq _) fun _ => hone _
  refine iteInduction (fun _ => ?_) fun _ => ?_
  · refine iteInduction (fun heq => inside_two (by decide) heq _) fun _ => ?_
    exact iteInduction (fun heq => inside_two (by decide) heq _) fun _ => hone _
  refine iteInduction (fun h => ⟨Nat.le_succ 1, hbang h⟩) fun _ => ?_
  refine iteInduction (fun _ => ?_) fun _ => ?_
  · refine iteInduction (fun _ => hone _) fun heq => ?_
    exact inside_two (by decide) (not_not.mp heq) _
  iterate 3 refine iteInduction (fun _ => hone _) fun _ => ?_
  refine iteInduction (fun _ => inside_quotedToken _ hlen) fun _ => ?_
  refine iteInduction (fun hdot => ?_) fun _ => ?_
  · exact iteInduction (fun _ => inside_numberToken hlen (Or.inr hdot)) fun _ => hone _
  refine iteInduction (fun hdigit => inside_numberToken hlen (Or.inl hdigit)) fun _ => ?_
  refine iteInduction (fun _ => inside_bracketToken hlen) fun _ => ?_
  refine iteInduction (fun _ => inside_scan _ (Nat.le_refl _) hlen _) fun _ => ?_
  refine iteInduction (fun _ => ?_) fun _ => ?_
  · refine iteInduction (fun _ => inside_scan _ (Nat.le_refl _) hlen _) fun _ => ?_
    exact inside_variableToken hlen
  refine iteInduction (fun _ => inside_variableToken hlen) fun _ => ?_
  refine iteInduction (fun hx => ?_) fun _ => ?_
  · exact inside_blobToken (lt_of_byteAt_ne (i := 1) (by rw [hx.2]; decide))
  exact iteInduction (fun _ => inside_scan _ (Nat.le_refl _) hlen _) fun _ => hone _

/-! ### Where strings, quoted identifiers and comments end -/

/-- The star of a comment. -/
def star : UInt8 := '*'.toUInt8

/-- The slash of a comment. -/
def slash : UInt8 := '/'.toUInt8

/-- Where the token of a text ends that begins with a quote, with a bracket or as a comment: at the
first place that closes it, where a doubled quote does not, and at the end of the text if there is
none. A comment of one line does not contain its newline. -/
structure Delimited (z : List UInt8) (n : ℕ) : Prop where
  quote : ∀ q, q = bquote ∨ q = squote ∨ q = dquote → ∀ t s, s.head? ≠ some q →
    z = quoted q t ++ s → n = (quoted q t).length
  openQuote : ∀ q, q = bquote ∨ q = squote ∨ q = dquote → ∀ t, z = q :: doubled q t → n = z.length
  bracket : ∀ t s, ']'.toUInt8 ∉ t → z = '['.toUInt8 :: (t ++ ']'.toUInt8 :: s) → n = t.length + 2
  openBracket : ∀ t, ']'.toUInt8 ∉ t → z = '['.toUInt8 :: t → n = z.length
  line : ∀ t s, 10 ∉ t → z = '-'.toUInt8 :: '-'.toUInt8 :: (t ++ 10 :: s) → n = t.length + 2
  openLine : ∀ t, 10 ∉ t → z = '-'.toUInt8 :: '-'.toUInt8 :: t → n = z.length
  block : ∀ t s, ¬[star, slash] <:+: t ++ [star] → z = slash :: star :: (t ++ star :: slash :: s) →
    n = t.length + 4
  openBlock : ∀ t, t ≠ [] → ¬[star, slash] <:+: t → z = slash :: star :: t → n = z.length

theorem mem_doubled {q c : UInt8} {t : List UInt8} (h : c ∈ t) : c ∈ doubled q t := by
  induction t with
  | nil => cases h
  | cons d t ih =>
    rw [doubled]
    rw [List.mem_cons] at h
    rcases h with rfl | h
    · split
      · exact List.mem_cons_self
      · exact List.mem_cons_self
    · split
      · exact List.mem_cons_of_mem _ (List.mem_cons_of_mem _ (ih h))
      · exact List.mem_cons_of_mem _ (ih h)

/-- Doubled quotes only: the text is not closed. -/
theorem quotedLoop_open {q : UInt8} (hq : q ≠ 0) {t : List UInt8} (ht : 0 ∉ t) (i : ℕ) :
    quotedLoop q (doubled q t) i = (i + (doubled q t).length, 0) := by
  induction t generalizing i with
  | nil => rfl
  | cons c t ih =>
    rw [List.mem_cons, not_or] at ht
    rw [doubled]
    split
    · rename_i hc
      subst hc
      rw [quotedLoop.eq_def]
      dsimp only
      rw [if_neg hq, if_pos rfl, if_pos rfl, ih ht.2, List.length_cons, List.length_cons]
      congr 1
      omega
    · rename_i hc
      rw [quotedLoop.eq_def]
      dsimp only
      rw [if_neg (Ne.symm ht.1), if_neg hc, ih ht.2, List.length_cons]
      congr 1
      omega

theorem getToken_open (keywordCode : List UInt8 → TokenType) {q : UInt8}
    (hq : q = bquote ∨ q = squote ∨ q = dquote) {t : List UInt8} (ht : 0 ∉ t) :
    (sqlite3GetToken keywordCode (q :: doubled q t)).2 = (q :: doubled q t).length := by
  have hbranch : sqlite3GetToken keywordCode (q :: doubled q t) = quotedToken q (q :: doubled q t) :=
    by rcases hq with rfl | rfl | rfl <;> rfl
  have hne : q ≠ 0 := by rcases hq with rfl | rfl | rfl <;> decide
  rw [hbranch, quotedToken, List.tail_cons, quotedLoop_open hne ht]
  dsimp only
  rw [if_neg (by decide), if_neg (by decide), List.length_cons]
  dsimp only
  omega

/-- A scan ends at the first byte without the property. -/
theorem scan_append {p : UInt8 → Bool} {A B : List UInt8} {c : UInt8}
    (hB : ∀ c ∈ B, p c = true) (hc : p c = false) (s : List UInt8) :
    scan p (A ++ (B ++ c :: s)) A.length = A.length + B.length := by
  rw [scan, List.drop_left, takeWhile_append_cons hB hc]

theorem scan_append_all {p : UInt8 → Bool} {A B : List UInt8} (hB : ∀ c ∈ B, p c = true) :
    scan p (A ++ B) A.length = (A ++ B).length := by
  have hall : (B ++ []).takeWhile p = B ++ [].takeWhile p := List.takeWhile_append_of_pos hB
  rw [List.append_nil, List.takeWhile_nil, List.append_nil] at hall
  rw [scan, List.drop_left, hall, List.length_append]

theorem byteAt_append (A : List UInt8) (c : UInt8) (s : List UInt8) :
    byteAt (A ++ c :: s) A.length = c := by
  rw [byteAt, List.getD_eq_getElem?_getD, List.getElem?_append_right (Nat.le_refl _), Nat.sub_self]
  rfl

theorem getToken_bracket (keywordCode : List UInt8 → TokenType) (z : List UInt8) :
    sqlite3GetToken keywordCode ('['.toUInt8 :: z) = bracketToken ('['.toUInt8 :: z) := rfl

theorem getToken_comment (keywordCode : List UInt8 → TokenType) {c : UInt8} (hc : c ≠ 0)
    (l : List UInt8) :
    sqlite3GetToken keywordCode (slash :: star :: c :: l) = (.space, commentLoop c l 3) := by
  have hbranch : sqlite3GetToken keywordCode (slash :: star :: c :: l)
      = if '*'.toUInt8 ≠ '*'.toUInt8 ∨ c = 0 then (.slash, 1)
        else (.space, commentLoop c l 3) := rfl
  rw [hbranch, if_neg fun h => h.elim (fun h => h rfl) hc]

/-- A scan that goes on but for the terminator and one other byte. -/
theorem forall_ne {B : List UInt8} {stop : UInt8} (hzero : 0 ∉ B) (hstop : stop ∉ B) :
    ∀ c ∈ B, (c ≠ 0 && c ≠ stop) = true := by
  intro c hc
  rw [Bool.and_eq_true, decide_eq_true_iff, decide_eq_true_iff]
  exact ⟨fun h => hzero (h ▸ hc), fun h => hstop (h ▸ hc)⟩

theorem commentLoop_block {t s : List UInt8} (hzero : 0 ∉ t) (hnot : ¬[star, slash] <:+: t ++ [star])
    {c : UInt8} {l : List UInt8} (h : c :: l = t ++ star :: slash :: s) (i : ℕ) :
    commentLoop c l i = i + t.length + 1 := by
  induction t generalizing c l i with
  | nil =>
    cases h
    rw [commentLoop, if_pos ⟨rfl, rfl⟩]
    rfl
  | cons x t ih =>
    rw [List.mem_cons, not_or] at hzero
    rw [List.cons_append] at h
    obtain ⟨rfl, rfl⟩ := List.cons.inj h
    have hinner : ¬[star, slash] <:+: t ++ [star] := fun hin => hnot (List.infix_cons hin)
    obtain ⟨d, l, hdl⟩ : ∃ d l, t ++ star :: slash :: s = d :: l := by
      cases t with
      | nil => exact ⟨_, _, rfl⟩
      | cons d t => exact ⟨_, _, rfl⟩
    have hclose : ¬(c = '*'.toUInt8 ∧ d = '/'.toUInt8) := by
      rintro ⟨rfl, rfl⟩
      cases t with
      | nil => exact absurd (List.cons.inj hdl).1 (by decide)
      | cons d t =>
        obtain ⟨rfl, -⟩ := List.cons.inj hdl
        exact hnot ⟨[], t ++ [star], rfl⟩
    have hd : d ≠ 0 := by
      cases t with
      | nil =>
        obtain ⟨rfl, -⟩ := List.cons.inj hdl
        decide
      | cons d t =>
        obtain ⟨rfl, -⟩ := List.cons.inj hdl
        exact fun h => hzero.2 (h ▸ List.mem_cons_self)
    rw [hdl, commentLoop, if_neg hclose, if_neg hd, ih hzero.2 hinner hdl.symm, List.length_cons]
    omega

theorem commentLoop_open {c : UInt8} {l : List UInt8} (hzero : 0 ∉ l)
    (hnot : ¬[star, slash] <:+: c :: l) (i : ℕ) : commentLoop c l i = i + l.length := by
  induction l generalizing c i with
  | nil => rfl
  | cons d l ih =>
    rw [List.mem_cons, not_or] at hzero
    have hclose : ¬(c = '*'.toUInt8 ∧ d = '/'.toUInt8) := by
      rintro ⟨rfl, rfl⟩
      exact hnot ⟨[], l, rfl⟩
    rw [commentLoop, if_neg hclose, if_neg (Ne.symm hzero.1),
      ih hzero.2 fun hin => hnot (List.infix_cons hin), List.length_cons]
    omega

/-- **A token ends where it is closed.** -/
theorem delimited_getToken (keywordCode : List UInt8 → TokenType) (hzero : 0 ∉ z) :
    Delimited z (sqlite3GetToken keywordCode z).2 where
  quote q hq t s hs hz := by
    have ht : 0 ∉ t := by
      intro h
      refine hzero ?_
      rw [hz, quoted_append]
      exact List.mem_cons_of_mem _ (List.mem_append_left _ (mem_doubled h))
    rw [hz, getToken_quoted keywordCode hq ht hs]
  openQuote q hq t hz := by
    rw [hz]
    refine getToken_open keywordCode hq fun h => hzero ?_
    rw [hz]
    exact List.mem_cons_of_mem _ (mem_doubled h)
  bracket t s hstop hz := by
    have ht : 0 ∉ t := fun h => hzero (hz ▸ List.mem_cons_of_mem _ (List.mem_append_left _ h))
    have hscan : scan (fun c => c ≠ 0 && c ≠ ']'.toUInt8)
        ('['.toUInt8 :: (t ++ ']'.toUInt8 :: s)) 1 = 1 + t.length :=
      scan_append (A := ['['.toUInt8]) (forall_ne ht hstop) (by decide) s
    have hclose : byteAt ('['.toUInt8 :: (t ++ ']'.toUInt8 :: s)) (1 + t.length) = ']'.toUInt8 := by
      rw [Nat.add_comm]
      exact byteAt_append ('['.toUInt8 :: t) _ s
    rw [hz, getToken_bracket, bracketToken, hscan, if_pos hclose]
    dsimp only
    omega
  openBracket t hstop hz := by
    have ht : 0 ∉ t := fun h => hzero (hz ▸ List.mem_cons_of_mem _ h)
    have hscan : scan (fun c => c ≠ 0 && c ≠ ']'.toUInt8) ('['.toUInt8 :: t) 1
        = ('['.toUInt8 :: t).length :=
      scan_append_all (A := ['['.toUInt8]) (forall_ne ht hstop)
    rw [hz, getToken_bracket, bracketToken, hscan, byteAt_length, if_neg (by decide)]
  line t s hstop hz := by
    have ht : 0 ∉ t := fun h =>
      hzero (hz ▸ List.mem_cons_of_mem _ (List.mem_cons_of_mem _ (List.mem_append_left _ h)))
    have hscan := scan_append (A := ['-'.toUInt8, '-'.toUInt8]) (forall_ne ht hstop)
      (c := 10) (by decide) s
    rw [hz]
    exact hscan.trans (Nat.add_comm _ _)
  openLine t hstop hz := by
    have ht : 0 ∉ t := fun h =>
      hzero (hz ▸ List.mem_cons_of_mem _ (List.mem_cons_of_mem _ h))
    rw [hz]
    exact scan_append_all (A := ['-'.toUInt8, '-'.toUInt8]) (forall_ne ht hstop)
  block t s hnot hz := by
    have ht : 0 ∉ t := fun h =>
      hzero (hz ▸ List.mem_cons_of_mem _ (List.mem_cons_of_mem _ (List.mem_append_left _ h)))
    obtain ⟨c, l, hcl⟩ : ∃ c l, t ++ star :: slash :: s = c :: l := by
      cases t with
      | nil => exact ⟨_, _, rfl⟩
      | cons c t => exact ⟨_, _, rfl⟩
    rw [hcl] at hz
    have hc : c ≠ 0 := fun h => hzero (by rw [hz, h]; simp)
    rw [hz, getToken_comment keywordCode hc, commentLoop_block ht hnot hcl.symm]
    dsimp only
    omega
  openBlock t hne hnot hz := by
    obtain ⟨c, l, rfl⟩ := List.exists_cons_of_ne_nil hne
    have hl : 0 ∉ c :: l := fun h =>
      hzero (hz ▸ List.mem_cons_of_mem _ (List.mem_cons_of_mem _ h))
    rw [List.mem_cons, not_or] at hl
    rw [hz, getToken_comment keywordCode (Ne.symm hl.1), commentLoop_open hl.2 hnot]
    rw [List.length_cons, List.length_cons, List.length_cons]
    omega

/-! ### The first token of a text -/

/-- The exclamation mark. -/
def bang : UInt8 := '!'.toUInt8

/-- What is asked of the first token: no read goes past the terminator, the token lies in the text,
and it ends where it should. -/
def Proper (keywordCode : List UInt8 → TokenType) (z : List UInt8) : Prop :=
  ∃ r, getTokenC keywordCode z = some r ∧ Inside z r ∧ Delimited z r.2

theorem inside_getToken_iff (keywordCode : List UInt8 → TokenType) (hz : z ≠ []) :
    Inside z (sqlite3GetToken keywordCode z) ↔ z ≠ [bang] := by
  constructor
  · rintro ⟨-, hle⟩ rfl
    exact Nat.not_succ_le_self 1 hle
  · intro hne
    refine inside_getToken keywordCode hz fun hfirst => ?_
    obtain ⟨c, l, rfl⟩ := List.exists_cons_of_ne_nil hz
    cases l with
    | nil => exact absurd (congrArg (fun c => [c]) hfirst) hne
    | cons d l => exact Nat.le_add_left 2 _

theorem proper_getToken_iff (keywordCode : List UInt8 → TokenType) (hz : z ≠ []) (hzero : 0 ∉ z) :
    Proper keywordCode z ↔ z ≠ [bang] := by
  rw [← inside_getToken_iff keywordCode hz, Proper, getTokenC_eq keywordCode hz]
  constructor
  · rintro ⟨r, hr, hin, -⟩
    cases hr
    exact hin
  · exact fun hin => ⟨_, rfl, hin, delimited_getToken keywordCode hzero⟩

/-! ### The tokens of a text -/

/-- The loop of `sqlite3RunParser` over the text that is left, which begins at `i`: the lengths of
the tokens. The loop ends at the terminator, or behind a token where the parser `halts`. The byte
behind a token is read in both cases. -/
def sqlite3RunParser (keywordCode : List UInt8 → TokenType) (halts : ℕ → TokenType → Bool) :
    ℕ → ℕ → List UInt8 → Option (List ℕ)
  | 0, _, _ => none
  | fuel + 1, i, z =>
    (peek z 0).bind fun c =>
      if c = 0 then some []
      else
        (getTokenC keywordCode z).bind fun r =>
          if z.length < r.2 then none
          else if halts i r.1 = true then some [r.2]
          else (sqlite3RunParser keywordCode halts fuel (i + r.2) (z.drop r.2)).map (r.2 :: ·)

/-- The texts that `sqlite3GetToken` is called with in this loop. -/
def calls (keywordCode : List UInt8 → TokenType) (halts : ℕ → TokenType → Bool) :
    ℕ → ℕ → List UInt8 → List (List UInt8)
  | 0, _, _ => []
  | fuel + 1, i, z =>
    if z = [] then []
    else
      let r := sqlite3GetToken keywordCode z
      if halts i r.1 = true then [z]
      else z :: calls keywordCode halts fuel (i + r.2) (z.drop r.2)

/-- Tokens cover a text: none is empty, and one after the other they do not go past its end; if
nothing stops the parser, they end there. -/
structure Covers (halts : ℕ → TokenType → Bool) (z : List UInt8) (ns : List ℕ) : Prop where
  pos : ∀ n ∈ ns, 1 ≤ n
  sum_le : ns.sum ≤ z.length
  sum_eq : (∀ i t, halts i t = false) → ns.sum = z.length

theorem covers_cons {halts : ℕ → TokenType → Bool} {n : ℕ} (hn : 1 ≤ n) (hle : n ≤ z.length)
    (ns : List ℕ) : Covers halts z (n :: ns) ↔ Covers halts (z.drop n) ns := by
  constructor
  · rintro ⟨hpos, hsum, heq⟩
    rw [List.sum_cons] at hsum heq
    refine ⟨fun m hm => hpos m (List.mem_cons_of_mem _ hm), ?_, fun hgo => ?_⟩
    · rw [List.length_drop]
      omega
    · have hend := heq hgo
      rw [List.length_drop]
      omega
  · rintro ⟨hpos, hsum, heq⟩
    rw [List.length_drop] at hsum heq
    refine ⟨List.forall_mem_cons.mpr ⟨hn, hpos⟩, ?_, fun hgo => ?_⟩
    · rw [List.sum_cons]
      omega
    · have hend := heq hgo
      rw [List.sum_cons]
      omega

/-- **The tokens cover the text exactly if none of the calls is with a single `!`.** -/
theorem runParser_covers_iff (keywordCode : List UInt8 → TokenType) (halts : ℕ → TokenType → Bool)
    {fuel : ℕ} (i : ℕ) (hzero : 0 ∉ z) (hfuel : z.length < fuel) :
    (∃ ns, sqlite3RunParser keywordCode halts fuel i z = some ns ∧ Covers halts z ns) ↔
      [bang] ∉ calls keywordCode halts fuel i z := by
  induction fuel generalizing i z with
  | zero => omega
  | succ fuel ih =>
    rw [sqlite3RunParser, calls, peek_eq (Nat.zero_le _), Option.bind_some]
    by_cases hz : z = []
    · subst hz
      have hend : byteAt [] 0 = 0 := rfl
      rw [if_pos hend, if_pos rfl]
      exact iff_of_true ⟨[], rfl, ⟨fun _ h => (by cases h), Nat.le_refl _, fun _ => rfl⟩⟩
        List.not_mem_nil
    have hfirst : byteAt z 0 ≠ 0 := by
      obtain ⟨c, l, rfl⟩ := List.exists_cons_of_ne_nil hz
      exact fun h => hzero (List.mem_cons.mpr (Or.inl h.symm))
    have hinside := inside_getToken_iff keywordCode hz
    rw [if_neg hfirst, if_neg hz, getTokenC_eq keywordCode hz, Option.bind_some]
    dsimp only
    by_cases hbang : z = [bang]
    · -- the token of a single `!` goes past the terminator
      subst hbang
      have hlong : [bang].length < (sqlite3GetToken keywordCode [bang]).2 := Nat.lt_succ_self 1
      rw [if_pos hlong]
      refine iff_of_false ?_ fun hnot => hnot ?_
      · rintro ⟨ns, h, -⟩
        cases h
      · split
        · exact List.mem_singleton.mpr rfl
        · exact List.mem_cons_self
    · generalize sqlite3GetToken keywordCode z = r at hinside
      obtain ⟨hpos, hle⟩ := hinside.mpr hbang
      rw [if_neg (Nat.not_lt.mpr hle)]
      by_cases hhalt : halts i r.1 = true
      · rw [if_pos hhalt, if_pos hhalt]
        refine iff_of_true ⟨[r.2], rfl, (covers_cons hpos hle []).mpr ?_⟩
          fun h => hbang (List.mem_singleton.mp h).symm
        refine ⟨fun _ h => (by cases h), Nat.zero_le _, fun hgo => ?_⟩
        rw [hgo] at hhalt
        cases hhalt
      · have hrest : 0 ∉ z.drop r.2 := fun h => hzero (List.mem_of_mem_drop h)
        have hshort : (z.drop r.2).length < fuel := by
          rw [List.length_drop]
          omega
        rw [if_neg hhalt, if_neg hhalt, List.mem_cons, not_or, ← ih (i + r.2) hrest hshort]
        constructor
        · rintro ⟨ns, hns, hcovers⟩
          obtain ⟨ns', hns', rfl⟩ := Option.map_eq_some_iff.mp hns
          exact ⟨Ne.symm hbang, ns', hns', (covers_cons hpos hle ns').mp hcovers⟩
        · rintro ⟨-, ns, hns, hcovers⟩
          exact ⟨r.2 :: ns, by rw [hns]; rfl, (covers_cons hpos hle ns).mpr hcovers⟩

/-- **A single `!` is what the tokenizer gets wrong.** The first token of a text is proper unless
the text is that, and the loop of `sqlite3RunParser` covers a text and stays in it unless it calls
the tokenizer with that. -/
theorem proper_iff (keywordCode : List UInt8 → TokenType) {z : List UInt8} (hz : z ≠ [])
    (hzero : 0 ∉ z) :
    (Proper keywordCode z ↔ z ≠ [bang]) ∧
      ∀ halts, (∃ ns, sqlite3RunParser keywordCode halts (z.length + 1) 0 z = some ns ∧
          Covers halts z ns) ↔
        [bang] ∉ calls keywordCode halts (z.length + 1) 0 z :=
  ⟨proper_getToken_iff keywordCode hz hzero,
    fun halts => runParser_covers_iff keywordCode halts 0 hzero (Nat.lt_succ_self _)⟩

/-- A text of two tokens: `1=`. -/
theorem proper_equation :
    Proper (fun _ => .id) [49, 61] ∧
      ∃ ns, sqlite3RunParser (fun _ => .id) (fun _ _ => false) 3 0 [49, 61] = some ns ∧
        Covers (fun _ _ => false) [49, 61] ns := by
  have h := proper_iff (fun _ => .id) (z := [49, 61]) (by decide) (by decide)
  exact ⟨h.1.mpr (by decide), (h.2 fun _ _ => false).mpr (by decide)⟩

/-- A text that is a single `!`: the token has two bytes, and the loop reads past the terminator. -/
theorem not_proper_bang :
    ¬(Proper (fun _ => .id) [bang] ∧
      ∃ ns, sqlite3RunParser (fun _ => .id) (fun _ _ => false) 2 0 [bang] = some ns) := by
  rintro ⟨⟨r, hr, hinside, -⟩, -⟩
  cases hr
  exact Nat.not_succ_le_self 1 hinside.2

end Sql

end SqliteVms

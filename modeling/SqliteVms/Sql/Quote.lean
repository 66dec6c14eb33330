import Mathlib.Data.List.TakeWhile
import SqliteVms.Sql.Token

/-!
# Quoting

Who writes quoted text: `quoteFunc` of `func.c`, and the conversions `%q`, `%Q` and `%w` of
`printf.c`. Who reads it: `sqlite3GetToken`, `sqlite3Dequote` and `sqlite3HexToBlob`.

A writer may run out of memory, or come to a limit, and then it writes nothing, or only a part of
it. What the allocator answers is up to the caller: `malloc` has the answers to come, and when they
are used up it always gives memory. The conversions for numbers are not here; a format with one of
them gives `none`, as one does whose arguments are of the wrong type.

## Main definitions

* `quoteFunc`, `sqlescape`, `sqlite3VXPrintf` — the writers
* `sqlite3Dequote`, `sqlite3HexToBlob` — the readers

## Main results

* `quoting_sound` — what the writers give is one token, and reads back as what was written
-/

namespace SqliteVms

namespace Sql

/-! ### `quoteFunc` -/

/-- The values of SQL. How a floating point number is printed is left open. -/
inductive Value (ρ : Type)
  | null
  | integer (i : ℤ)
  | float (r : ρ)
  | text (z : List UInt8)
  | blob (z : List UInt8)

/-- The bytes before the zero byte. -/
def cstring (z : List UInt8) : List UInt8 := z.takeWhile (· ≠ 0)

/-- `contextMalloc`: whether there is memory. -/
def contextMalloc (limit : ℕ) (malloc : Bool) (nByte : ℕ) : Bool := nByte ≤ limit && malloc

/-- The digits of hexadecimal numbers. -/
def hexdigits : List UInt8 :=
  ['0', '1', '2', '3', '4', '5', '6', '7', '8', '9', 'A', 'B', 'C', 'D', 'E', 'F'].map Char.toUInt8

/-- A byte in two digits. -/
def hexByte (c : UInt8) : List UInt8 :=
  [byteAt hexdigits ((c >>> 4) &&& 15).toNat, byteAt hexdigits (c &&& 15).toNat]

def quoteFunc {ρ : Type} (printFloat : ρ → List UInt8) (limit : ℕ) (malloc : Bool) :
    Value ρ → Option (Value ρ)
  | .float r => some (.text (printFloat r))
  | .integer i => some (.integer i)
  | .blob z =>
    if contextMalloc limit malloc (2 * z.length + 4) then some (.text (blobLiteral (z.flatMap hexByte)))
    else none
  | .text z =>
    if contextMalloc limit malloc ((cstring z).length + (cstring z).count squote + 3) then
      some (.text (quoted squote (cstring z)))
    else none
  | .null => some (.text (['N', 'U', 'L', 'L'].map Char.toUInt8))

/-! ### Printing -/

structure StrAccum where
  zText : List UInt8
  nAlloc : ℕ
  mxAlloc : ℕ
  useMalloc : Bool
  tooBig : Bool
  mallocFailed : Bool
  malloc : List Bool

namespace StrAccum

/-- All that was appended is there. -/
def Ok (p : StrAccum) : Prop := p.tooBig = false ∧ p.mallocFailed = false

instance (p : StrAccum) : Decidable p.Ok := inferInstanceAs (Decidable (_ ∧ _))

/-- `sqlite3StrAccumAppend`. -/
def append (p : StrAccum) (z : List UInt8) : StrAccum :=
  if p.tooBig ∨ p.mallocFailed then p
  else if z = [] then p
  else if p.zText.length + z.length < p.nAlloc then { p with zText := p.zText ++ z }
  else if !p.useMalloc then
    { p with tooBig := true, zText := p.zText ++ z.take (p.nAlloc - p.zText.length - 1) }
  else if p.mxAlloc < p.zText.length + z.length + 1 then { p with tooBig := true, zText := [] }
  else if p.malloc.headD true then
    { p with
      nAlloc := p.zText.length + z.length + 1
      zText := p.zText ++ z
      malloc := p.malloc.tail }
  else { p with mallocFailed := true, zText := [], malloc := p.malloc.tail }

/-- `sqlite3AppendSpace`, all spaces at once. -/
def appendSpace (p : StrAccum) (N : ℕ) : StrAccum := p.append (List.replicate N 32)

end StrAccum

/-- The conversions with quotes, of `%q`, `%Q` and `%w`. -/
inductive EscapeType
  | etSQLESCAPE | etSQLESCAPE2 | etSQLESCAPE3
  deriving DecidableEq

/-- The bytes of a string that a conversion uses. -/
def consumed (precision : Option ℕ) (z : List UInt8) : List UInt8 :=
  match precision with
  | none => cstring z
  | some k => (cstring z).take k

/-- The conversions with quotes. -/
def sqlescape (xtype : EscapeType) (precision : Option ℕ) (escarg : Option (List UInt8))
    (p : StrAccum) : Option (List UInt8) × StrAccum :=
  let q := if xtype = .etSQLESCAPE3 then dquote else squote
  let null :=
    if xtype = .etSQLESCAPE2 then ['N', 'U', 'L', 'L'] else ['(', 'N', 'U', 'L', 'L', ')']
  let z := consumed precision (escarg.getD (null.map Char.toUInt8))
  let needQuote := escarg.isSome && xtype = .etSQLESCAPE2
  let n := z.count q + z.length + 1 + if needQuote then 2 else 0
  let buf := if needQuote then quoted q z else doubled q z
  if n ≤ 70 then (some buf, p)
  else if p.malloc.headD true then (some buf, { p with malloc := p.malloc.tail })
  else (none, { p with mallocFailed := true, malloc := p.malloc.tail })

/-- The arguments of a format. -/
inductive Arg
  | int (i : ℤ)
  | str (z : Option (List UInt8))

/-- What a conversion of a format says, and what is behind it. -/
structure Field where
  leftjustify : Bool
  width : ℕ
  precision : Option ℕ
  fmttype : UInt8
  fmt : List UInt8
  args : List Arg

/-- The flags. Only the one to justify to the left matters here. -/
def flags : List UInt8 → Bool → Bool × List UInt8
  | [], left => (left, [])
  | c :: fmt, left =>
    if c = '-'.toUInt8 then flags fmt true
    else if c = '+'.toUInt8 ∨ c = 32 ∨ c = '#'.toUInt8 ∨ c = '!'.toUInt8 ∨ c = '0'.toUInt8 then
      flags fmt left
    else (left, c :: fmt)

/-- A number in a format. -/
def number : List UInt8 → ℕ → ℕ × List UInt8
  | [], n => (n, [])
  | c :: fmt, n => if isDigit c then number fmt (n * 10 + (c.toNat - 48)) else (n, c :: fmt)

/-- A number in a format, or among the arguments. -/
def numberArg (fmt : List UInt8) (args : List Arg) : Option (ℤ × List UInt8 × List Arg) :=
  if fmt.head? = some '*'.toUInt8 then
    match args with
    | .int i :: args => some (i, fmt.tail, args)
    | _ => none
  else
    let (n, fmt) := number fmt 0
    some (n, fmt, args)

/-- Flags, width, precision and modifiers. -/
def field (fmt : List UInt8) (args : List Arg) : Option Field := do
  let (left, fmt) := flags fmt false
  let (width, fmt, args) ← numberArg fmt args
  let (precision, fmt, args) ←
    if fmt.head? = some '.'.toUInt8 then do
      let (precision, fmt, args) ← numberArg fmt.tail args
      pure (some precision.natAbs, fmt, args)
    else pure (none, fmt, args)
  let fmt := if fmt.head? = some 'l'.toUInt8 then fmt.tail else fmt
  let fmt := if fmt.head? = some 'l'.toUInt8 then fmt.tail else fmt
  pure ⟨left || width < 0, width.natAbs, precision, byteAt fmt 0, fmt.tail, args⟩

/-- The text of a conversion, with the arguments it leaves. -/
def convert (f : Field) (p : StrAccum) : Option ((Option (List UInt8) × StrAccum) × List Arg) :=
  let escape (xtype : EscapeType) :=
    match f.args with
    | .str z :: args => some (sqlescape xtype f.precision z p, args)
    | _ => none
  if f.fmttype = 's'.toUInt8 ∨ f.fmttype = 'z'.toUInt8 then
    match f.args with
    | .str z :: args => some ((some (consumed f.precision (z.getD [])), p), args)
    | _ => none
  else if f.fmttype = 'q'.toUInt8 then escape .etSQLESCAPE
  else if f.fmttype = 'Q'.toUInt8 then escape .etSQLESCAPE2
  else if f.fmttype = 'w'.toUInt8 then escape .etSQLESCAPE3
  else if f.fmttype = '%'.toUInt8 then some ((some ['%'.toUInt8], p), f.args)
  else none

/-- The text of a conversion with its padding. -/
def output (left : Bool) (width : ℕ) (p : StrAccum) (buf : List UInt8) : StrAccum :=
  let pad (p : StrAccum) := p.appendSpace (width - buf.length)
  if left then pad (p.append buf) else (pad p).append buf

/-- The loop of `sqlite3VXPrintf`, over `n` conversions at most. -/
def vxprintfLoop : ℕ → StrAccum → List UInt8 → List Arg → Option StrAccum
  | 0, p, _, _ => some p
  | n + 1, p, fmt, args =>
    let text := fmt.takeWhile (· ≠ '%'.toUInt8)
    let p := p.append text
    match fmt.drop text.length with
    | [] => some p
    | [_] => some (p.append ['%'.toUInt8])
    | _ :: fmt => do
      let f ← field fmt args
      match ← convert f p with
      | ((none, p), _) => some p
      | ((some buf, p), args) =>
        vxprintfLoop n (output f.leftjustify f.width p buf) f.fmt args

def sqlite3VXPrintf (p : StrAccum) (fmt : List UInt8) (args : List Arg) : Option StrAccum :=
  vxprintfLoop (fmt.length + 1) p fmt args

/-! ### Reading back -/

/-- The loop of `sqlite3Dequote`. It writes where it has read already, so that what it reads is what
was there. -/
def dequoteLoop (quote : UInt8) : List UInt8 → List UInt8
  | [] => []
  | c :: z =>
    if c = 0 then []
    else if c = quote then
      match z with
      | d :: z => if d = quote then quote :: dequoteLoop quote z else []
      | [] => []
    else c :: dequoteLoop quote z

/-- `sqlite3Dequote`: the length of the text, and the text. -/
def sqlite3Dequote (z : List UInt8) : ℤ × List UInt8 :=
  let c := byteAt z 0
  if c = squote ∨ c = dquote ∨ c = bquote then
    ((dequoteLoop c z.tail).length, dequoteLoop c z.tail)
  else if c = '['.toUInt8 then
    ((dequoteLoop ']'.toUInt8 z.tail).length, dequoteLoop ']'.toUInt8 z.tail)
  else (-1, z)

def sqlite3HexToInt (h : UInt8) : UInt8 := (h + ((h >>> 6) &&& 1) * 9) &&& 15

def sqlite3HexToBlob : List UInt8 → List UInt8
  | c :: d :: z => ((sqlite3HexToInt c <<< 4) ||| sqlite3HexToInt d) :: sqlite3HexToBlob z
  | _ => []

/-! ### The accumulator -/

namespace StrAccum

/-- What was appended without an error is there. -/
theorem append_ok {p : StrAccum} {z : List UInt8} (h : (p.append z).Ok) :
    p.Ok ∧ (p.append z).zText = p.zText ++ z := by
  unfold append at h ⊢
  by_cases hbad : p.tooBig = true ∨ p.mallocFailed = true
  · rw [if_pos hbad] at h
    obtain ⟨h₁, h₂⟩ := h
    rw [h₁, h₂] at hbad
    exact absurd hbad (by decide)
  · have hok : p.Ok := by
      rw [not_or, Bool.not_eq_true, Bool.not_eq_true] at hbad
      exact hbad
    rw [if_neg hbad] at h ⊢
    refine ⟨hok, ?_⟩
    split at h
    · rename_i hz
      rw [if_pos hz, hz, List.append_nil]
    · rename_i hz
      rw [if_neg hz]
      split at h
      · rename_i hroom
        rw [if_pos hroom]
      · rename_i hroom
        rw [if_neg hroom]
        split at h
        · exact nomatch h.1
        · rename_i hmalloc
          rw [if_neg hmalloc]
          split at h
          · exact nomatch h.1
          · rename_i hsize
            rw [if_neg hsize]
            split at h
            · rename_i hmem
              rw [if_pos hmem]
            · exact nomatch h.2

end StrAccum

theorem output_ok {p : StrAccum} {buf : List UInt8} (h : (output false 0 p buf).Ok) :
    p.Ok ∧ (output false 0 p buf).zText = p.zText ++ buf := by
  have hpad : ∀ (p : StrAccum) (w : ℕ), p.appendSpace (0 - w) = p.append [] := by
    intro p w
    rw [StrAccum.appendSpace, Nat.zero_sub]
    rfl
  have hout : output false 0 p buf = (p.append []).append buf := by
    rw [← hpad p buf.length]
    rfl
  rw [hout] at h ⊢
  obtain ⟨h₁, htext⟩ := StrAccum.append_ok h
  obtain ⟨h₂, htext'⟩ := StrAccum.append_ok h₁
  exact ⟨h₂, by rw [htext, htext', List.append_nil]⟩

/-- What the conversions with quotes make of a text. -/
def escaped (xtype : EscapeType) (t : List UInt8) : List UInt8 :=
  match xtype with
  | .etSQLESCAPE => doubled squote t
  | .etSQLESCAPE2 => quoted squote t
  | .etSQLESCAPE3 => doubled dquote t

theorem cstring_eq {t : List UInt8} (ht : 0 ∉ t) : cstring t = t :=
  List.takeWhile_eq_self_iff.mpr fun c hc => by simpa using ne_of_mem_of_not_mem hc ht

/-- A conversion with quotes either gives the text, or fails and says so. -/
theorem sqlescape_cases (xtype : EscapeType) {t : List UInt8} (ht : 0 ∉ t) (p : StrAccum) :
    (∃ p', sqlescape xtype none (some t) p = (some (escaped xtype t), p') ∧
        p'.zText = p.zText ∧ (p'.Ok → p.Ok)) ∨
      ∃ p', sqlescape xtype none (some t) p = (none, p') ∧ ¬p'.Ok := by
  have hbuf : (if (some t).isSome && xtype = .etSQLESCAPE2 then
      quoted (if xtype = .etSQLESCAPE3 then dquote else squote) t
      else doubled (if xtype = .etSQLESCAPE3 then dquote else squote) t) = escaped xtype t := by
    cases xtype <;> rfl
  unfold sqlescape
  dsimp only [consumed, Option.getD_some]
  rw [cstring_eq ht, hbuf]
  generalize List.count _ t + t.length + 1 + _ = n
  split
  · exact Or.inl ⟨p, rfl, rfl, id⟩
  · split
    · exact Or.inl ⟨_, rfl, rfl, id⟩
    · exact Or.inr ⟨_, rfl, fun h => nomatch h.2⟩

section Format

variable {fmt pre post t : List UInt8} {c : UInt8} {args args' : List Arg} {f : Field}
  {p p' : StrAccum}

theorem takeWhile_percent (hpre : '%'.toUInt8 ∉ pre) :
    pre.takeWhile (· ≠ '%'.toUInt8) = pre :=
  List.takeWhile_eq_self_iff.mpr fun c hc => by simpa using ne_of_mem_of_not_mem hc hpre

/-- A format without a conversion. -/
theorem vxprintfLoop_text (n : ℕ) (hpost : '%'.toUInt8 ∉ post) :
    vxprintfLoop (n + 1) p post args = some (p.append post) := by
  rw [vxprintfLoop, takeWhile_percent hpost, List.drop_length]

/-- A format up to the first conversion. -/
theorem vxprintfLoop_field (n : ℕ) (hpre : '%'.toUInt8 ∉ pre)
    (hfield : field (c :: post) args = some f) :
    vxprintfLoop (n + 1) p (pre ++ '%'.toUInt8 :: c :: post) args
      = (convert f (p.append pre)).bind fun r =>
        match r with
        | ((none, p), _) => some p
        | ((some buf, p), args) =>
          vxprintfLoop n (output f.leftjustify f.width p buf) f.fmt args := by
  have htext : (pre ++ '%'.toUInt8 :: c :: post).takeWhile (· ≠ '%'.toUInt8) = pre :=
    takeWhile_append_cons (fun d hd => by simpa using ne_of_mem_of_not_mem hd hpre) (by decide) _
  rw [vxprintfLoop, htext, List.drop_left]
  dsimp only
  rw [hfield, Option.bind_eq_bind, Option.bind_some]
  rfl

/-- **A format of one conversion between two texts** prints what the conversion makes of its
argument, or fails. -/
theorem vxprintf_escape {xtype : EscapeType} (hpre : '%'.toUInt8 ∉ pre)
    (hpost : '%'.toUInt8 ∉ post)
    (hfield : field (c :: post) [.str (some t)] = some ⟨false, 0, none, c, post, [.str (some t)]⟩)
    (hconv : ∀ p, convert ⟨false, 0, none, c, post, [.str (some t)]⟩ p
      = some (sqlescape xtype none (some t) p, []))
    (ht : 0 ∉ t)
    (h : sqlite3VXPrintf p (pre ++ '%'.toUInt8 :: c :: post) [.str (some t)] = some p')
    (hok : p'.Ok) : p'.zText = p.zText ++ (pre ++ escaped xtype t ++ post) := by
  obtain ⟨n, hn⟩ : ∃ n, (pre ++ '%'.toUInt8 :: c :: post).length = n + 1 :=
    Nat.exists_eq_succ_of_ne_zero (by simp)
  rw [sqlite3VXPrintf, hn, vxprintfLoop_field _ hpre hfield, hconv, Option.bind_some] at h
  rcases sqlescape_cases xtype ht (p.append pre) with ⟨p₁, heq, htext, hkeep⟩ | ⟨p₁, heq, hbad⟩
  · rw [heq] at h
    dsimp only at h
    rw [vxprintfLoop_text _ hpost] at h
    obtain rfl := Option.some.inj h
    obtain ⟨hok₂, htext₃⟩ := StrAccum.append_ok hok
    obtain ⟨hok₁, htext₂⟩ := output_ok hok₂
    obtain ⟨-, htext₁⟩ := StrAccum.append_ok (hkeep hok₁)
    rw [htext₃, htext₂, htext, htext₁, List.append_assoc, List.append_assoc, List.append_assoc]
  · rw [heq] at h
    obtain rfl := Option.some.inj h
    exact absurd hok hbad

end Format

/-! ### Reading what was written -/

theorem dequoteLoop_doubled {q : UInt8} (hq : q ≠ 0) {t : List UInt8} (ht : 0 ∉ t) :
    dequoteLoop q (doubled q t ++ [q]) = t := by
  induction t with
  | nil =>
    rw [doubled, List.nil_append, dequoteLoop.eq_def]
    dsimp only
    rw [if_neg hq, if_pos rfl]
  | cons c t ih =>
    rw [List.mem_cons, not_or] at ht
    rw [doubled]
    split
    · rename_i hc
      subst hc
      rw [List.cons_append, List.cons_append, dequoteLoop.eq_def]
      dsimp only
      rw [if_neg hq, if_pos rfl, if_pos rfl, ih ht.2]
    · rename_i hc
      rw [List.cons_append, dequoteLoop.eq_def]
      dsimp only
      rw [if_neg (Ne.symm ht.1), if_neg hc, ih ht.2]

/-- **A quoted text dequotes** to what it was. -/
theorem dequote_quoted {q : UInt8} (hq : q = squote ∨ q = dquote ∨ q = bquote) {t : List UInt8}
    (ht : 0 ∉ t) : sqlite3Dequote (quoted q t) = ((t.length : ℤ), t) := by
  have hbranch : sqlite3Dequote (quoted q t)
      = (((dequoteLoop q (doubled q t ++ [q])).length : ℤ), dequoteLoop q (doubled q t ++ [q])) := by
    rcases hq with rfl | rfl | rfl <;> rfl
  rw [hbranch, dequoteLoop_doubled ?_ ht]
  rcases hq with rfl | rfl | rfl <;> decide

theorem isXdigit_digit (n : Fin 16) : isXdigit (byteAt hexdigits n) = true := by decide +revert

theorem hexToInt_digit (n : Fin 16) : sqlite3HexToInt (byteAt hexdigits n) = UInt8.ofNat n := by
  decide +revert

theorem toNat_and_fifteen_lt (c : UInt8) : (c &&& 15).toNat < 16 := by
  rw [UInt8.toNat_and]
  exact Nat.lt_of_le_of_lt Nat.and_le_right (by decide)

theorem hexToInt_nibble (c : UInt8) :
    sqlite3HexToInt (byteAt hexdigits (c &&& 15).toNat) = c &&& 15 := by
  have hdigit := hexToInt_digit ⟨(c &&& 15).toNat, toNat_and_fifteen_lt c⟩
  rwa [UInt8.ofNat_toNat] at hdigit

/-- A byte from its nibbles. -/
theorem nibbles (c : UInt8) : (c >>> 4 &&& 15) <<< 4 ||| c &&& 15 = c := by
  refine UInt8.toBitVec_inj.mp (BitVec.eq_of_getLsbD_eq fun i hi => ?_)
  match i, hi with
  | 0, _ | 1, _ | 2, _ | 3, _ | 4, _ | 5, _ | 6, _ | 7, _ => simp

theorem hexByte_isXdigit (c : UInt8) : ∀ d ∈ hexByte c, isXdigit d = true := by
  intro d hd
  rcases List.mem_pair.mp hd with rfl | rfl
  · exact isXdigit_digit ⟨_, toNat_and_fifteen_lt _⟩
  · exact isXdigit_digit ⟨_, toNat_and_fifteen_lt c⟩

theorem hexToBlob_hexByte (c : UInt8) (z : List UInt8) :
    sqlite3HexToBlob (hexByte c ++ z) = c :: sqlite3HexToBlob z := by
  show ((sqlite3HexToInt _ <<< 4) ||| sqlite3HexToInt _) :: sqlite3HexToBlob z = _
  rw [hexToInt_nibble, hexToInt_nibble, nibbles]

/-- **The digits of a blob** read back as the blob. -/
theorem hexToBlob_flatMap (b : List UInt8) : sqlite3HexToBlob (b.flatMap hexByte) = b := by
  induction b with
  | nil => rfl
  | cons c b ih => rw [List.flatMap_cons, hexToBlob_hexByte, ih]

theorem length_flatMap_hexByte (b : List UInt8) : (b.flatMap hexByte).length = 2 * b.length := by
  induction b with
  | nil => rfl
  | cons c b ih =>
    rw [List.flatMap_cons, List.length_append, ih, List.length_cons, Nat.mul_succ]
    exact Nat.add_comm 2 _

/-! ### The contract -/

/-- The formats `%Q`, and `%q` and `%w` between their quotes. -/
def fmtQ : List UInt8 := ['%', 'Q'].map Char.toUInt8

/-- See `fmtQ`. -/
def fmtq : List UInt8 := [squote, '%'.toUInt8, 'q'.toUInt8, squote]

/-- See `fmtQ`. -/
def fmtw : List UInt8 := [dquote, '%'.toUInt8, 'w'.toUInt8, dquote]

/-- What is printed in full for a text. -/
def Prints (fmt t z : List UInt8) : Prop :=
  ∃ p p', p.zText = [] ∧ sqlite3VXPrintf p fmt [.str (some t)] = some p' ∧ p'.Ok ∧ p'.zText = z

/-- What `quoteFunc` answers. -/
def Quotes {ρ : Type} (v : Value ρ) (z : List UInt8) : Prop :=
  ∃ printFloat limit malloc, quoteFunc printFloat limit malloc v = some (.text z)

/-- A format of one conversion, between `A` and `B`. -/
theorem Prints.eq (xtype : EscapeType) {c : UInt8} {A B t z : List UInt8}
    (h : Prints (A ++ '%'.toUInt8 :: c :: B) t z) (hA : '%'.toUInt8 ∉ A) (hB : '%'.toUInt8 ∉ B)
    (hfield : field (c :: B) [.str (some t)] = some ⟨false, 0, none, c, B, [.str (some t)]⟩)
    (hconv : ∀ p, convert ⟨false, 0, none, c, B, [.str (some t)]⟩ p
      = some (sqlescape xtype none (some t) p, []))
    (ht : 0 ∉ t) : z = A ++ escaped xtype t ++ B := by
  obtain ⟨p, p', hp, hprint, hok, rfl⟩ := h
  rw [vxprintf_escape hA hB hfield hconv ht hprint hok, hp, List.nil_append]

theorem Prints.quoted_Q {t z : List UInt8} (h : Prints fmtQ t z) (ht : 0 ∉ t) :
    z = quoted squote t := by
  rw [Prints.eq .etSQLESCAPE2 (A := []) (B := []) h (by decide) (by decide) rfl
    (fun _ => rfl) ht, List.append_nil]
  rfl

theorem Prints.quoted_q {t z : List UInt8} (h : Prints fmtq t z) (ht : 0 ∉ t) :
    z = quoted squote t :=
  Prints.eq .etSQLESCAPE (A := [squote]) (B := [squote]) h (by decide) (by decide) rfl
    (fun _ => rfl) ht

theorem Prints.quoted_w {t z : List UInt8} (h : Prints fmtw t z) (ht : 0 ∉ t) :
    z = quoted dquote t :=
  Prints.eq .etSQLESCAPE3 (A := [dquote]) (B := [dquote]) h (by decide) (by decide) rfl
    (fun _ => rfl) ht

variable {ρ : Type}

theorem Quotes.text {t z : List UInt8} (h : Quotes (.text t : Value ρ) z) (ht : 0 ∉ t) :
    z = quoted squote t := by
  obtain ⟨printFloat, limit, malloc, h⟩ := h
  rw [quoteFunc, cstring_eq ht] at h
  split at h
  · obtain rfl := Value.text.inj (Option.some.inj h)
    rfl
  · exact nomatch h

theorem Quotes.blob {b z : List UInt8} (h : Quotes (.blob b : Value ρ) z) :
    z = blobLiteral (b.flatMap hexByte) := by
  obtain ⟨printFloat, limit, malloc, h⟩ := h
  rw [quoteFunc] at h
  split at h
  · obtain rfl := Value.text.inj (Option.some.inj h)
    rfl
  · exact nomatch h

/-- **Quoting is sound.** Whatever text is written as a string or as an identifier, and whatever
blob as a literal: in front of anything that does not begin with the quote it is one token, of the
right type and as long as what was written, and reads back as the text or the blob. -/
theorem quoting_sound (ρ : Type) (keywordCode : List UInt8 → TokenType) :
    (∀ t z s : List UInt8, 0 ∉ t →
      Quotes (.text t : Value ρ) z ∨ Prints fmtQ t z ∨ Prints fmtq t z → s.head? ≠ some squote →
        sqlite3GetToken keywordCode (z ++ s) = (.string, z.length) ∧
          sqlite3Dequote z = ((t.length : ℤ), t)) ∧
      (∀ b z s : List UInt8, Quotes (.blob b : Value ρ) z →
        sqlite3GetToken keywordCode (z ++ s) = (.blob, z.length) ∧
          ∃ hex, z = 'X'.toUInt8 :: squote :: (hex ++ [squote]) ∧ sqlite3HexToBlob hex = b) ∧
      ∀ t z s : List UInt8, 0 ∉ t → Prints fmtw t z → s.head? ≠ some dquote →
        sqlite3GetToken keywordCode (z ++ s) = (.id, z.length) ∧
          sqlite3Dequote z = ((t.length : ℤ), t) := by
  refine ⟨fun t z s ht hz hs => ?_, fun b z s hz => ?_, fun t z s ht hz hs => ?_⟩
  · obtain rfl : z = quoted squote t := by
      rcases hz with hz | hz | hz
      · exact hz.text ht
      · exact hz.quoted_Q ht
      · exact hz.quoted_q ht
    exact ⟨getToken_quoted keywordCode (Or.inr (Or.inl rfl)) ht hs, dequote_quoted (Or.inl rfl) ht⟩
  · obtain rfl := hz.blob
    refine ⟨getToken_blobLiteral keywordCode (fun d hd => ?_) ?_ s, _, rfl, hexToBlob_flatMap b⟩
    · obtain ⟨c, -, hc⟩ := List.mem_flatMap.mp hd
      exact hexByte_isXdigit c d hc
    · rw [length_flatMap_hexByte]
      exact Nat.mul_mod_right 2 _
  · obtain rfl := hz.quoted_w ht
    exact ⟨getToken_quoted keywordCode (Or.inr (Or.inr rfl)) ht hs,
      dequote_quoted (Or.inr (Or.inl rfl)) ht⟩

/-- A text of a letter and a quote, printed with `%Q` in front of a comma. -/
theorem quoting_sound_example :
    sqlite3GetToken (fun _ => .id) ([39, 97, 39, 39, 39] ++ [44]) = (.string, 5) ∧
      sqlite3Dequote [39, 97, 39, 39, 39] = (2, [97, 39]) :=
  (quoting_sound Empty fun _ => .id).1 [97, 39] [39, 97, 39, 39, 39] [44] (by decide)
    (Or.inr (Or.inl ⟨⟨[], 100, 0, false, false, false, []⟩,
      ⟨[39, 97, 39, 39, 39], 100, 0, false, false, false, []⟩, rfl, rfl, ⟨rfl, rfl⟩, rfl⟩))
    (by decide)

end Sql

end SqliteVms

import Mathlib.Algebra.Order.Ring.Int
import SqliteVms.Sql.LikeEscape

/-!
# Reading UTF-8

`sqlite3Utf8Read` of `utf.c` and the texts that `patternCompare` of `func.c` is called with. A text
is a list of bytes with its zero at the end; a read behind the zero fails. `patternCompare` reads
its characters one after the other; here they are read first and then compared.

Two characters are not read as they are: U+FFFE and U+FFFF are taken for U+FFFD, the replacement
character.

## Main definitions

* `sqlite3Utf8Read` — the first character of a text, and what is left
* `writeUtf8` — the bytes of a character
* `patternCompareUtf8` — `patternCompare` on bytes
* `LikeWorks` — `patternCompare` decides the language of a pattern

## Main results

* `sqlite3Utf8Read_writeUtf8` — a character is read back
* `patternCompareUtf8_decides` — when the language is decided
-/

namespace SqliteVms

namespace Sql

namespace Like

/-! ### The code -/

def sqlite3Utf8Trans1 (i : ℕ) : ℕ :=
  if i < 32 then i
  else if i < 48 then i - 32
  else if i < 56 then i - 48
  else if i < 60 then i - 56
  else if i = 61 then 1
  else 0

/-- The loop over the other bytes of a character. -/
def readTail : List UInt8 → ℕ → Option (ℕ × List UInt8)
  | [], _ => none
  | b :: z, c =>
    if b &&& 0xc0 = 0x80 then readTail z ((c * 64 + (b &&& 0x3f).toNat) % 2 ^ 32)
    else some (c, b :: z)

/-- The characters that are replaced: small ones in more than one byte, `(c&0xFFFFF800)==0xD800`,
and `(c&0xFFFFFFFE)==0xFFFE`. -/
def cleaned (c : ℕ) : ℕ := if c < 0x80 ∨ c / 0x800 = 0x1B ∨ c / 2 = 0x7FFF then 0xFFFD else c

def sqlite3Utf8Read : List UInt8 → Option (ℕ × List UInt8)
  | [] => none
  | b :: z =>
    if 0xc0 ≤ b then (readTail z (sqlite3Utf8Trans1 (b.toNat - 0xc0))).map fun r =>
      (cleaned r.1, r.2)
    else some (b.toNat, z)

/-- The characters of a text up to the zero. -/
def readText : ℕ → List UInt8 → Option (List ℕ)
  | 0, _ => none
  | fuel + 1, z =>
    (sqlite3Utf8Read z).bind fun r =>
      if r.1 = 0 then some [0] else (readText fuel r.2).map (r.1 :: ·)

/-- `patternCompare` on bytes. -/
def patternCompareUtf8 (info : CompareInfo) (esc : ℕ) (zPattern zString : List UInt8) :
    Option Bool :=
  (readText zPattern.length zPattern).bind fun p =>
    (readText zString.length zString).bind fun s => patternCompare info esc p s

/-! ### Texts -/

/-- A character that is not the zero. -/
structure Scalar (c : ℕ) : Prop where
  pos : 0 < c
  lt : c < 0x110000
  not_surrogate : ¬(0xD800 ≤ c ∧ c < 0xE000)

/-- `WRITE_UTF8`: the bytes of a character. -/
def writeUtf8 (c : ℕ) : List UInt8 :=
  if c < 0x80 then [.ofNat c]
  else if c < 0x800 then [.ofNat (0xC0 + c / 64), .ofNat (0x80 + c % 64)]
  else if c < 0x10000 then
    [.ofNat (0xE0 + c / 4096), .ofNat (0x80 + c / 64 % 64), .ofNat (0x80 + c % 64)]
  else
    [.ofNat (0xF0 + c / 262144), .ofNat (0x80 + c / 4096 % 64), .ofNat (0x80 + c / 64 % 64),
      .ofNat (0x80 + c % 64)]

instance (c : ℕ) : Decidable (Scalar c) :=
  decidable_of_iff (0 < c ∧ c < 0x110000 ∧ ¬(0xD800 ≤ c ∧ c < 0xE000))
    ⟨fun ⟨h1, h2, h3⟩ => ⟨h1, h2, h3⟩, fun ⟨h1, h2, h3⟩ => ⟨h1, h2, h3⟩⟩

/-- The bytes of a text. -/
def utf8 (cs : List ℕ) : List UInt8 := cs.flatMap writeUtf8 ++ [0]

/-- The escape character as `likeFunc` reads it; zero is for none. -/
def readEscape : Option ℕ → ℕ
  | none => 0
  | some e => ((sqlite3Utf8Read (utf8 [e])).map Prod.fst).getD 0

/-- U+FFFE and U+FFFF. -/
def Unreadable (c : ℕ) : Prop := c / 2 = 0x7FFF

instance (c : ℕ) : Decidable (Unreadable c) := inferInstanceAs (Decidable (_ = _))

/-- A character as it is read. -/
def asRead (c : ℕ) : ℕ := if Unreadable c then 0xFFFD else c

/-- `patternCompare` returns 1 for the strings that are in the language of the pattern and 0 for the
others, and reads nothing behind a zero. -/
def LikeWorks (info : CompareInfo) (esc : Option ℕ) (p s : List ℕ) : Prop :=
  Decides (patternCompareUtf8 info (readEscape esc) (utf8 p) (utf8 s))
    (Matches info (esc.getD 0) p s)

/-- The same for the characters as they are read. -/
def LikeWorksAsRead (info : CompareInfo) (esc : Option ℕ) (p s : List ℕ) : Prop :=
  Decides (patternCompareUtf8 info (readEscape esc) (utf8 p) (utf8 s))
    (Matches info ((esc.map asRead).getD 0) (p.map asRead) (s.map asRead))

/-! ### A character is read back -/

theorem tail_byte : ∀ x : Fin 64, UInt8.ofNat (0x80 + x) &&& 0xc0 = 0x80 ∧
    (UInt8.ofNat (0x80 + x) &&& 0x3f).toNat = x := by decide

theorem readTail_tail {x c : ℕ} (hx : x < 64) (hc : c * 64 + x < 2 ^ 32) (z : List UInt8) :
    readTail (UInt8.ofNat (0x80 + x) :: z) c = readTail z (c * 64 + x) := by
  obtain ⟨htail, hlow⟩ := tail_byte ⟨x, hx⟩
  dsimp only at htail hlow
  rw [readTail, if_pos htail, hlow, Nat.mod_eq_of_lt hc]

/-- What may follow a character: another one, or the end. -/
def Starts (z : List UInt8) : Prop := ∃ b z', z = b :: z' ∧ ¬b &&& 0xc0 = 0x80

theorem readTail_starts {z : List UInt8} (h : Starts z) (c : ℕ) : readTail z c = some (c, z) := by
  obtain ⟨b, z', rfl, hb⟩ := h
  rw [readTail, if_neg hb]

theorem sqlite3Utf8Read_lead {n : ℕ} (hn : 0xC0 ≤ n) (hlt : n < 256) (z : List UInt8) :
    sqlite3Utf8Read (UInt8.ofNat n :: z) =
      (readTail z (sqlite3Utf8Trans1 (n - 0xc0))).map fun r => (cleaned r.1, r.2) := by
  have hnat : (UInt8.ofNat n).toNat = n := by
    rw [UInt8.toNat_ofNat', Nat.mod_eq_of_lt hlt]
  have hle : 0xc0 ≤ UInt8.ofNat n := by
    rw [UInt8.le_iff_toNat_le, hnat]
    exact hn
  rw [sqlite3Utf8Read, if_pos hle, hnat]

theorem cleaned_eq {c : ℕ} (hc : Scalar c) (h : 0x80 ≤ c) :
    cleaned c = asRead c := by
  have hsurrogate := hc.not_surrogate
  by_cases hbad : Unreadable c
  · have heq : c / 2 = 0x7FFF := hbad
    rw [asRead, if_pos hbad, cleaned, if_pos (Or.inr (Or.inr heq))]
  · have hgood : ¬c / 2 = 0x7FFF := hbad
    rw [asRead, if_neg hbad, cleaned, if_neg (by omega)]

/-- **A character is read back**, if it is not one of the two. -/
theorem sqlite3Utf8Read_writeUtf8 {c : ℕ} (hc : Scalar c) {z : List UInt8} (hz : Starts z) :
    sqlite3Utf8Read (writeUtf8 c ++ z) = some (asRead c, z) := by
  have hlt := hc.lt
  rw [writeUtf8]
  by_cases h1 : c < 0x80
  · have hnat : (UInt8.ofNat c).toNat = c := by
      rw [UInt8.toNat_ofNat', Nat.mod_eq_of_lt (by omega)]
    have hlow : ¬0xc0 ≤ UInt8.ofNat c := by
      rw [UInt8.le_iff_toNat_le, hnat]
      have h192 : (0xc0 : UInt8).toNat = 192 := rfl
      omega
    have hgood : ¬Unreadable c := by
      intro hbad
      have heq : c / 2 = 0x7FFF := hbad
      omega
    rw [if_pos h1, List.singleton_append, sqlite3Utf8Read, if_neg hlow, hnat, asRead, if_neg hgood]
  rw [if_neg h1, ← cleaned_eq hc (by omega)]
  by_cases h2 : c < 0x800
  · have hlead : sqlite3Utf8Trans1 (0xC0 + c / 64 - 0xc0) = c / 64 := by
      rw [sqlite3Utf8Trans1, if_pos (by omega)]
      omega
    rw [if_pos h2, List.cons_append, List.cons_append, List.nil_append,
      sqlite3Utf8Read_lead (by omega) (by omega), hlead, readTail_tail (by omega) (by omega),
      readTail_starts hz, Nat.div_add_mod']
    rfl
  rw [if_neg h2]
  by_cases h3 : c < 0x10000
  · have hlead : sqlite3Utf8Trans1 (0xE0 + c / 4096 - 0xc0) = c / 4096 := by
      rw [sqlite3Utf8Trans1, if_neg (by omega), if_pos (by omega)]
      omega
    have hsum : (c / 4096 * 64 + c / 64 % 64) * 64 + c % 64 = c := by omega
    rw [if_pos h3, List.cons_append, List.cons_append, List.cons_append, List.nil_append,
      sqlite3Utf8Read_lead (by omega) (by omega), hlead, readTail_tail (by omega) (by omega),
      readTail_tail (by omega) (by omega), readTail_starts hz, hsum]
    rfl
  · have hlead : sqlite3Utf8Trans1 (0xF0 + c / 262144 - 0xc0) = c / 262144 := by
      rw [sqlite3Utf8Trans1, if_neg (by omega), if_neg (by omega), if_pos (by omega)]
      omega
    have hsum : ((c / 262144 * 64 + c / 4096 % 64) * 64 + c / 64 % 64) * 64 + c % 64 = c := by
      omega
    rw [if_neg h3, List.cons_append, List.cons_append, List.cons_append, List.cons_append,
      List.nil_append, sqlite3Utf8Read_lead (by omega) (by omega), hlead,
      readTail_tail (by omega) (by omega), readTail_tail (by omega) (by omega),
      readTail_tail (by omega) (by omega), readTail_starts hz, hsum]
    rfl

/-! ### A text is read back -/

set_option maxRecDepth 4000 in
theorem lead_byte : ∀ n : Fin 256, n < 0x80 ∨ 0xC0 ≤ n → ¬UInt8.ofNat n &&& 0xc0 = 0x80 := by
  decide

theorem starts_lead {n : ℕ} (hlt : n < 256) (h : n < 0x80 ∨ 0xC0 ≤ n) (z : List UInt8) :
    Starts (UInt8.ofNat n :: z) :=
  ⟨_, z, rfl, lead_byte ⟨n, hlt⟩ h⟩

theorem starts_writeUtf8 {c : ℕ} (hc : Scalar c) (z : List UInt8) : Starts (writeUtf8 c ++ z) := by
  have hlt := hc.lt
  rw [writeUtf8]
  split
  · exact starts_lead (by omega) (by omega) _
  split
  · exact starts_lead (by omega) (by omega) _
  split
  · exact starts_lead (by omega) (by omega) _
  · exact starts_lead (by omega) (by omega) _

theorem utf8_cons (c : ℕ) (cs : List ℕ) : utf8 (c :: cs) = writeUtf8 c ++ utf8 cs := by
  rw [utf8, utf8, List.flatMap_cons, List.append_assoc]

theorem starts_utf8 {cs : List ℕ} (h : ∀ c ∈ cs, Scalar c) : Starts (utf8 cs) := by
  cases cs with
  | nil => exact ⟨0, [], rfl, by decide⟩
  | cons c cs =>
    rw [utf8_cons]
    exact starts_writeUtf8 (h c List.mem_cons_self) _

theorem length_utf8 (cs : List ℕ) : cs.length < (utf8 cs).length := by
  induction cs with
  | nil => exact Nat.zero_lt_one
  | cons c cs ih =>
    have hpos : 0 < (writeUtf8 c).length := by
      rw [writeUtf8]
      split_ifs <;> exact Nat.succ_pos _
    rw [utf8_cons, List.length_append, List.length_cons]
    omega

theorem asRead_pos {c : ℕ} (hc : Scalar c) : 0 < asRead c := by
  rw [asRead]
  split
  · exact (by decide : 0 < 0xFFFD)
  · exact hc.pos

theorem zero_notMem_asRead {cs : List ℕ} (hcs : ∀ c ∈ cs, Scalar c) : 0 ∉ cs.map asRead := by
  intro h
  obtain ⟨c, hc, hzero⟩ := List.mem_map.mp h
  exact absurd (asRead_pos (hcs c hc)) (by omega)

/-- **A text is read back**, with its characters as they are read. -/
theorem readText_utf8 {cs : List ℕ} (hcs : ∀ c ∈ cs, Scalar c) {fuel : ℕ}
    (hfuel : cs.length < fuel) : readText fuel (utf8 cs) = some (cs.map asRead ++ [0]) := by
  induction cs generalizing fuel with
  | nil =>
    obtain ⟨fuel, rfl⟩ : ∃ f, fuel = f + 1 := ⟨fuel - 1, by omega⟩
    rfl
  | cons c cs ih =>
    obtain ⟨fuel, rfl⟩ : ∃ f, fuel = f + 1 := ⟨fuel - 1, by omega⟩
    rw [List.forall_mem_cons] at hcs
    rw [List.length_cons] at hfuel
    rw [readText, utf8_cons, sqlite3Utf8Read_writeUtf8 hcs.1 (starts_utf8 hcs.2), Option.bind_some,
      if_neg (Nat.pos_iff_ne_zero.mp (asRead_pos hcs.1)), ih hcs.2 (by omega)]
    rfl

theorem readEscape_eq {esc : Option ℕ} (hesc : ∀ e, esc = some e → Scalar e) :
    readEscape esc = (esc.map asRead).getD 0 := by
  cases esc with
  | none => rfl
  | some e =>
    have hzero : Starts (utf8 []) := starts_utf8 fun c hc => absurd hc List.not_mem_nil
    rw [readEscape, utf8_cons, sqlite3Utf8Read_writeUtf8 (hesc e rfl) hzero]
    rfl

/-! ### When the language is decided -/

/-- The calls of `patternCompare`: GLOB has no escape character. -/
def Calls (info : CompareInfo) (esc : Option ℕ) : Prop :=
  info = globInfo ∧ esc = none ∨ info = likeInfoNorm ∨ info = likeInfoAlt

/-- A pattern with its escape character, and a string. -/
structure Texts (esc : Option ℕ) (p s : List ℕ) : Prop where
  pattern : ∀ c ∈ p, Scalar c
  string : ∀ c ∈ s, Scalar c
  escape : ∀ e, esc = some e → Scalar e

variable {info : CompareInfo}

theorem rules_of_calls {esc : Option ℕ} (hcalls : Calls info esc) : Rules info 0 := by
  rcases hcalls with ⟨rfl, -⟩ | rfl | rfl <;> constructor <;> decide

theorem matchSet_of_calls {esc : Option ℕ} (hcalls : Calls info esc)
    (hne : (esc.map asRead).getD 0 ≠ 0) : info.matchSet = 0 := by
  rcases hcalls with ⟨-, rfl⟩ | rfl | rfl
  · exact absurd rfl hne
  · rfl
  · rfl

/-- **`patternCompare`** reads nothing behind a zero. It decides the language of the pattern, but
where an escape character is one of those that the code does not take for one; if that is not a
wildcard, only there. -/
theorem patternCompareUtf8_decides {esc : Option ℕ} {p s : List ℕ} (hcalls : Calls info esc)
    (htexts : Texts esc p s) :
    (∃ b, patternCompareUtf8 info (readEscape esc) (utf8 p) (utf8 s) = some b) ∧
      (EscapeClear info ((esc.map asRead).getD 0) (p.map asRead) (s.map asRead) →
        LikeWorksAsRead info esc p s) ∧
      (¬IsWildcard info ((esc.map asRead).getD 0) → LikeWorksAsRead info esc p s →
        EscapeClear info ((esc.map asRead).getD 0) (p.map asRead) (s.map asRead)) := by
  have hcode : patternCompareUtf8 info (readEscape esc) (utf8 p) (utf8 s) =
      compareLoop info ((esc.map asRead).getD 0) ((p.map asRead ++ [0]).length + 1) false
        (p.map asRead ++ [0]) (s.map asRead ++ [0]) := by
    rw [patternCompareUtf8, readEscape_eq htexts.escape, readText_utf8 htexts.pattern (length_utf8 p),
      readText_utf8 htexts.string (length_utf8 s)]
    rfl
  have hfuel : (p.map asRead).length + 1 < (p.map asRead ++ [0]).length + 1 := by
    rw [List.length_append, List.length_singleton]
    omega
  rw [LikeWorksAsRead, hcode]
  exact compareLoop_escape (zero_notMem_asRead htexts.pattern) (zero_notMem_asRead htexts.string)
    hfuel (rules_of_calls hcalls) (matchSet_of_calls hcalls)

/-- `a!%%` matches `A%b`, where `!` is the escape character. -/
theorem patternCompareUtf8_decides_escaped :
    LikeWorksAsRead likeInfoNorm (some '!'.toNat) ['a'.toNat, '!'.toNat, '%'.toNat, '%'.toNat]
      ['A'.toNat, '%'.toNat, 'b'.toNat] := by
  have hesc : ∀ e, some '!'.toNat = some e → e = 33 := fun e he => (Option.some.inj he).symm
  refine (patternCompareUtf8_decides (Or.inr (Or.inl rfl))
    ⟨by decide, by decide, fun e he => hesc e he ▸ by decide⟩).2.1 ⟨fun h => ?_, fun h => ?_⟩
  · exact absurd h (by rw [IsWildcard]; decide)
  · exact absurd h (by simp [Dangling, likeInfoNorm, asRead, Unreadable])

/-- U+FFFE and U+FFFF are read alike. -/
theorem not_forall_likeWorks :
    ¬∀ (info : CompareInfo) (esc : Option ℕ) (p s : List ℕ), Calls info esc → Texts esc p s →
      LikeWorks info esc p s := by
  intro h
  have hworks := h likeInfoNorm none [0xFFFE] [0xFFFF] (Or.inr (Or.inl rfl))
    ⟨by decide, by decide, fun e he => by cases he⟩
  have hcode : patternCompareUtf8 likeInfoNorm (readEscape none) (utf8 [0xFFFE]) (utf8 [0xFFFF]) =
      some true := by decide
  rcases hworks with ⟨-, hmatches⟩ | ⟨hfalse, -⟩
  · obtain ⟨d, s, hs, heq, -⟩ :=
      (matches_self (by decide) (by decide) (by decide) (by decide)).mp hmatches
    obtain ⟨rfl, -⟩ := List.cons.inj hs
    exact absurd heq (by decide)
  · rw [hcode] at hfalse
    cases hfalse

end Like

end Sql

end SqliteVms

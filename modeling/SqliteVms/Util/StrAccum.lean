import Mathlib.Data.List.Basic
import Mathlib.Tactic.Linarith

/-!
# The string accumulator

`StrAccum` of `printf.c`, which collects the text of a format. It begins in a buffer of its caller.
`sqlite3_snprintf` stays there and cuts the text off; `sqlite3_mprintf` and `sqlite3MPrintf` move to
the heap when the buffer is full, and return memory of the heap.

What `sqlite3VXPrintf` appends does not depend on the accumulator, so a format with its arguments is
the list of the texts that are appended. Memory is a list of bytes, and a read or a write outside
of it fails. Whether memory is granted, and what is in it, may depend on everything.

## Main definitions

* `sqlite3StrAccumAppend`, `sqlite3StrAccumFinish` — the accumulator
* `sqlite3_vmprintf`, `sqlite3_vsnprintf` — without and with a bound
* `Collected` — the accumulator has collected a text

## Main results

* `appendAll_collected` — no byte is lost on the heap
* `vsnprintf_spec` — the text that is cut off
-/

namespace SqliteVms

namespace Printf

/-! ### The code -/

/-- A value in an `int`. -/
def toInt (x : ℤ) : ℤ := x.bmod (2 ^ 32)

/-- The arguments of an append: the bytes at `z`, and how many of them; a negative number is for
those before the zero. -/
structure Chunk where
  z : List UInt8
  n : ℤ
  readable : n < 0 ∧ 0 ∈ z ∨ 0 ≤ n ∧ n ≤ z.length ∧ n < 2 ^ 31

/-- The length that is appended, by `sqlite3Strlen30` for a negative number. -/
def Chunk.length (c : Chunk) : ℕ :=
  if c.n < 0 then (c.z.takeWhile (· ≠ 0)).length % 2 ^ 30 else c.n.toNat

/-- The bytes that are appended. -/
def Chunk.bytes (c : Chunk) : List UInt8 := c.z.take c.length

/-- The values of `useMalloc`. -/
inductive UseMalloc
  | fixed | db | malloc
  deriving DecidableEq

/-- Where `zText` points to: nowhere, to `zBase`, or to a block of the heap. -/
inductive ZText
  | null
  | base
  | heap (block : List UInt8)

/-- `struct StrAccum`; `zBase` is the buffer of the caller. -/
structure StrAccum where
  zBase : List UInt8
  zText : ZText
  nChar : ℕ
  nAlloc : ℕ
  mxAlloc : ℕ
  useMalloc : UseMalloc
  tooBig : Bool
  mallocFailed : Bool

/-- The heap: a block of the size that is asked for, or nothing. -/
structure Heap where
  block : StrAccum → ℕ → Option (List UInt8)
  length_block : ∀ p n z, block p n = some z → z.length = n

def sqlite3StrAccumInit (zBase : List UInt8) (n mx : ℕ) (useMalloc : UseMalloc) : StrAccum :=
  ⟨zBase, .base, 0, n, mx, useMalloc, false, false⟩

def sqlite3StrAccumReset (p : StrAccum) : StrAccum := { p with zText := .null }

/-- `memcpy(&block[i], z, z.length)`. -/
def write (block : List UInt8) (i : ℕ) (z : List UInt8) : Option (List UInt8) :=
  if i + z.length ≤ block.length then some (block.take i ++ z ++ block.drop (i + z.length))
  else none

/-- The bytes are copied behind the text. -/
def copy (p : StrAccum) (z : List UInt8) : Option StrAccum :=
  match p.zText with
  | .null => none
  | .base =>
    (write p.zBase p.nChar z).map fun block =>
      { p with zBase := block, nChar := p.nChar + z.length }
  | .heap block =>
    (write block p.nChar z).map fun block =>
      { p with zText := .heap block, nChar := p.nChar + z.length }

/-- `sqlite3DbRealloc` or `sqlite3_realloc`, and the copy out of `zBase`. -/
def grow (heap : Heap) (p : StrAccum) (n : ℕ) : Option (List UInt8) :=
  (heap.block p n).bind fun z =>
    match p.zText with
    | .heap block => some (block.take n ++ z.drop (block.take n).length)
    | _ => write z 0 (p.zBase.take p.nChar)

def sqlite3StrAccumAppend (heap : Heap) (p : StrAccum) (c : Chunk) : Option StrAccum :=
  if p.tooBig = true ∨ p.mallocFailed = true then some p
  else if c.length = 0 then some p
  else if p.nAlloc ≤ toInt (p.nChar + c.length) then
    if p.useMalloc = .fixed then
      -- what still fits, with room for the zero
      if p.nAlloc - p.nChar - 1 = 0 then some { p with tooBig := true }
      else copy { p with tooBig := true } (c.z.take (p.nAlloc - p.nChar - 1))
    else if p.mxAlloc < p.nChar + c.length + 1 then
      some { sqlite3StrAccumReset p with tooBig := true }
    else
      match grow heap p (p.nChar + c.length + 1) with
      | some zNew =>
        copy { p with nAlloc := p.nChar + c.length + 1, zText := .heap zNew } c.bytes
      | none =>
        some (sqlite3StrAccumReset
          { p with nAlloc := p.nChar + c.length + 1, mallocFailed := true })
  else copy p c.bytes

/-- What `sqlite3VXPrintf` does to the accumulator. -/
def appendAll (heap : Heap) : StrAccum → List Chunk → Option StrAccum
  | p, [] => some p
  | p, c :: l => (sqlite3StrAccumAppend heap p c).bind fun p => appendAll heap p l

def sqlite3StrAccumFinish (heap : Heap) (p : StrAccum) : Option StrAccum :=
  match p.zText with
  | .null => some p
  | .heap block => (write block p.nChar [0]).map fun block => { p with zText := .heap block }
  | .base =>
    (write p.zBase p.nChar [0]).bind fun zBase =>
      if p.useMalloc = .fixed then some { p with zBase := zBase }
      else
        match heap.block p (p.nChar + 1) with
        | none => some { p with zBase := zBase, zText := .null, mallocFailed := true }
        | some z =>
          (write z 0 (zBase.take (p.nChar + 1))).map fun z =>
            { p with zBase := zBase, zText := .heap z }

/-- `SQLITE_PRINT_BUF_SIZE`. -/
def printBufSize : ℕ := 70

/-- `SQLITE_MAX_LENGTH`. -/
def maxLength : ℕ := 1000000000

/-- `sqlite3_vmprintf` with the bytes that are on its stack; the inner `none` is NULL. -/
def sqlite3_vmprintf (heap : Heap) (zBase : List UInt8) (l : List Chunk) :
    Option (Option (List UInt8)) :=
  (appendAll heap (sqlite3StrAccumInit zBase printBufSize maxLength .malloc) l).bind fun p =>
    (sqlite3StrAccumFinish heap p).map fun p =>
      match p.zText with
      | .heap block => some block
      | _ => none

/-- `sqlite3_vsnprintf`: the buffer afterwards. -/
def sqlite3_vsnprintf (heap : Heap) (n : ℤ) (zBuf : List UInt8) (l : List Chunk) :
    Option (List UInt8) :=
  if n ≤ 0 then some zBuf
  else
    (appendAll heap (sqlite3StrAccumInit zBuf n.toNat 0 .fixed) l).bind fun p =>
      (sqlite3StrAccumFinish heap p).map fun p => p.zBase

/-! ### Memory -/

theorem toInt_of_lt {x : ℤ} (hlow : 0 ≤ x) (h : x < 2 ^ 31) : toInt x = x := by
  rw [toInt, Int.bmod_def]
  omega

theorem Chunk.length_le (c : Chunk) : c.length ≤ c.z.length := by
  rw [Chunk.length]
  have htake := (List.takeWhile_prefix (l := c.z) (· ≠ 0)).length_le
  rcases c.readable with ⟨hneg, -⟩ | ⟨hpos, hle, -⟩
  · rw [if_pos hneg]
    exact (Nat.mod_le _ _).trans htake
  · rw [if_neg (by omega)]
    omega

theorem Chunk.length_bytes (c : Chunk) : c.bytes.length = c.length := by
  rw [Chunk.bytes, List.length_take, Nat.min_eq_left c.length_le]

/-- A write behind the bytes `a`. -/
theorem write_append {a b z : List UInt8} (h : z.length ≤ b.length) :
    write (a ++ b) a.length z = some (a ++ z ++ b.drop z.length) := by
  rw [write, if_pos (by rw [List.length_append]; omega), List.take_left' rfl, List.drop_append,
    List.drop_eq_nil_of_le (by omega), List.nil_append, Nat.add_sub_cancel_left]

theorem write_append_none {a b z : List UInt8} (h : b.length < z.length) :
    write (a ++ b) a.length z = none := by
  rw [write, if_neg (by rw [List.length_append]; omega)]

theorem write_zero {b z : List UInt8} (h : z.length ≤ b.length) :
    write b 0 z = some (z ++ b.drop z.length) :=
  write_append (a := []) h

/-- The memory that `zText` points to. -/
def StrAccum.memory (p : StrAccum) : Option (List UInt8) :=
  match p.zText with
  | .null => none
  | .base => some p.zBase
  | .heap block => some block

/-! ### On the heap -/

/-- The accumulator has collected the text `T`; the bytes `R` behind it are free, and one of them is
for the zero. -/
structure Collected (p : StrAccum) (T R : List UInt8) : Prop where
  tooBig : p.tooBig = false
  mallocFailed : p.mallocFailed = false
  memory : p.memory = some (T ++ R)
  nChar : p.nChar = T.length
  nAlloc : p.nAlloc = T.length + R.length
  room : 0 < R.length
  small : p.nAlloc < 2 ^ 31

/-- The text was too big, or there was no memory. -/
structure Failed (p : StrAccum) : Prop where
  flag : p.tooBig = true ∨ p.mallocFailed = true
  zText : p.zText = .null

theorem copy_eq {p : StrAccum} {T R z : List UInt8} (hmem : p.memory = some (T ++ R))
    (hchar : p.nChar = T.length) (h : z.length ≤ R.length) :
    ∃ p', copy p z = some p' ∧ p'.memory = some (T ++ z ++ R.drop z.length) ∧
      p'.nChar = T.length + z.length ∧ p'.nAlloc = p.nAlloc ∧ p'.mxAlloc = p.mxAlloc ∧
      p'.useMalloc = p.useMalloc ∧ p'.tooBig = p.tooBig ∧ p'.mallocFailed = p.mallocFailed := by
  rw [StrAccum.memory] at hmem
  rw [copy, hchar]
  cases htext : p.zText with
  | null =>
    rw [htext] at hmem
    cases hmem
  | base =>
    rw [htext] at hmem
    dsimp only at hmem ⊢
    rw [Option.some.inj hmem, write_append h]
    exact ⟨_, rfl, by rw [StrAccum.memory], rfl, rfl, rfl, rfl, rfl, rfl⟩
  | heap block =>
    rw [htext] at hmem
    dsimp only at hmem ⊢
    rw [Option.some.inj hmem, write_append h]
    exact ⟨_, rfl, rfl, rfl, rfl, rfl, rfl, rfl, rfl⟩

theorem copy_none {p : StrAccum} {T R z : List UInt8} (hmem : p.memory = some (T ++ R))
    (hchar : p.nChar = T.length) (h : R.length < z.length) : copy p z = none := by
  rw [StrAccum.memory] at hmem
  rw [copy, hchar]
  cases htext : p.zText with
  | null => rfl
  | base =>
    rw [htext] at hmem
    dsimp only at hmem ⊢
    rw [Option.some.inj hmem, write_append_none h]
    rfl
  | heap block =>
    rw [htext] at hmem
    dsimp only at hmem ⊢
    rw [Option.some.inj hmem, write_append_none h]
    rfl

/-- New memory begins with the text. -/
theorem grow_spec {heap : Heap} {p : StrAccum} {T R z : List UInt8} {k : ℕ}
    (hp : Collected p T R) (h : grow heap p (T.length + k) = some z) :
    ∃ R', z = T ++ R' ∧ R'.length = k := by
  rw [grow] at h
  obtain ⟨z', hblock, hz⟩ := Option.bind_eq_some_iff.mp h
  have hlen := heap.length_block _ _ _ hblock
  have hmem := hp.memory
  rw [StrAccum.memory] at hmem
  cases htext : p.zText with
  | null =>
    rw [htext] at hmem
    cases hmem
  | base =>
    rw [htext] at hmem hz
    dsimp only at hmem hz
    rw [Option.some.inj hmem, hp.nChar, List.take_left' rfl, write_zero (by omega)] at hz
    exact ⟨z'.drop T.length, (Option.some.inj hz).symm, by rw [List.length_drop]; omega⟩
  | heap block =>
    rw [htext] at hmem hz
    dsimp only at hmem hz
    rw [Option.some.inj hmem, List.take_length_add_append, List.append_assoc] at hz
    refine ⟨_, (Option.some.inj hz).symm, ?_⟩
    rw [List.length_append, List.length_drop, List.length_append, hlen, List.length_take]
    omega

/-- **An append on the heap.** -/
theorem append_collected {heap : Heap} {p p' : StrAccum} {T R : List UInt8} {c : Chunk}
    (hmode : p.useMalloc ≠ .fixed) (hmx : p.mxAlloc < 2 ^ 31) (hp : Collected p T R)
    (h : sqlite3StrAccumAppend heap p c = some p') :
    p'.useMalloc = p.useMalloc ∧ p'.mxAlloc = p.mxAlloc ∧
      ((∃ R', Collected p' (T ++ c.bytes) R') ∨ Failed p') := by
  have hflags : ¬(p.tooBig = true ∨ p.mallocFailed = true) := by
    rw [hp.tooBig, hp.mallocFailed]
    decide
  have hlen := c.length_bytes
  rw [sqlite3StrAccumAppend, if_neg hflags] at h
  by_cases hzero : c.length = 0
  · rw [if_pos hzero] at h
    cases h
    have hnil : c.bytes = [] := List.length_eq_zero_iff.mp (hlen.trans hzero)
    rw [hnil, List.append_nil]
    exact ⟨rfl, rfl, Or.inl ⟨R, hp⟩⟩
  rw [if_neg hzero] at h
  by_cases hfull : (p.nAlloc : ℤ) ≤ toInt (p.nChar + c.length)
  · rw [if_pos hfull, if_neg hmode] at h
    by_cases hbig : p.mxAlloc < p.nChar + c.length + 1
    · rw [if_pos hbig] at h
      cases h
      exact ⟨rfl, rfl, Or.inr ⟨Or.inl rfl, rfl⟩⟩
    rw [if_neg hbig, hp.nChar, Nat.add_assoc] at h
    cases hgrow : grow heap p (T.length + (c.length + 1)) with
    | none =>
      rw [hgrow] at h
      cases h
      exact ⟨rfl, rfl, Or.inr ⟨Or.inr rfl, rfl⟩⟩
    | some zNew =>
      obtain ⟨R', rfl, hR'⟩ := grow_spec hp hgrow
      rw [hgrow] at h
      obtain ⟨q, hq, hmem, hchar, halloc, hmax, huse, hbig', hfailed⟩ :=
        copy_eq (p := { p with
          nAlloc := T.length + (c.length + 1), zText := .heap (T ++ R'), nChar := T.length })
          (z := c.bytes) rfl rfl (by omega)
      dsimp only at h
      rw [hq] at h
      cases h
      have hdrop : (R'.drop c.bytes.length).length = 1 := by
        rw [List.length_drop]
        omega
      refine ⟨huse, hmax, Or.inl ⟨R'.drop c.bytes.length, hbig'.trans hp.tooBig,
        hfailed.trans hp.mallocFailed, hmem, ?_, ?_, ?_, ?_⟩⟩
      · rw [hchar, List.length_append]
      · rw [halloc, List.length_append, hdrop, hlen]
        dsimp only
        omega
      · omega
      · rw [halloc]
        have hchar' := hp.nChar
        dsimp only
        omega
  · rw [if_neg hfull] at h
    have hfit : c.bytes.length ≤ R.length := by
      by_contra hnot
      rw [copy_none hp.memory hp.nChar (by omega)] at h
      cases h
    obtain ⟨q, hq, hmem, hchar, halloc, hmax, huse, hbig', hfailed⟩ :=
      copy_eq hp.memory hp.nChar hfit
    rw [hq] at h
    cases h
    have halloc' := hp.nAlloc
    have hchar' := hp.nChar
    have hroom : p.nChar + c.length < p.nAlloc := by
      have hsmall := hp.small
      rw [toInt_of_lt (by omega) (by omega), not_le] at hfull
      exact_mod_cast hfull
    clear hfull hmx
    refine ⟨huse, hmax, Or.inl ⟨R.drop c.bytes.length, hbig'.trans hp.tooBig,
      hfailed.trans hp.mallocFailed, hmem, ?_, ?_, ?_, ?_⟩⟩
    · rw [hchar, List.length_append]
    · rw [halloc, List.length_append, List.length_drop]
      omega
    · rw [List.length_drop]
      omega
    · exact halloc.trans_lt hp.small

theorem append_failed {heap : Heap} {p : StrAccum} (hp : Failed p) (c : Chunk) :
    sqlite3StrAccumAppend heap p c = some p := by
  rw [sqlite3StrAccumAppend, if_pos hp.flag]

theorem appendAll_failed {heap : Heap} {p : StrAccum} (hp : Failed p) (l : List Chunk) :
    appendAll heap p l = some p := by
  induction l with
  | nil => rfl
  | cons c l ih => rw [appendAll, append_failed hp, Option.bind_some, ih]

/-- All bytes that are appended. -/
def text (l : List Chunk) : List UInt8 := l.flatMap Chunk.bytes

/-- **No byte is lost on the heap**: the text is there, or the call has failed. -/
theorem appendAll_collected {heap : Heap} {p p' : StrAccum} {T R : List UInt8} (l : List Chunk)
    (hmode : p.useMalloc ≠ .fixed) (hmx : p.mxAlloc < 2 ^ 31) (hp : Collected p T R)
    (h : appendAll heap p l = some p') :
    p'.useMalloc = p.useMalloc ∧ ((∃ R', Collected p' (T ++ text l) R') ∨ Failed p') := by
  induction l generalizing p T R with
  | nil =>
    cases h
    rw [text, List.flatMap_nil, List.append_nil]
    exact ⟨rfl, Or.inl ⟨R, hp⟩⟩
  | cons c l ih =>
    rw [appendAll] at h
    obtain ⟨q, hq, hrest⟩ := Option.bind_eq_some_iff.mp h
    obtain ⟨huse, hmax, ⟨R', hgood⟩ | hbad⟩ := append_collected hmode hmx hp hq
    · obtain ⟨huse', hdone⟩ := ih (huse ▸ hmode) (hmax ▸ hmx) hgood hrest
      rw [text, List.flatMap_cons, ← List.append_assoc]
      exact ⟨huse'.trans huse, hdone⟩
    · rw [appendAll_failed hbad] at hrest
      cases hrest
      exact ⟨huse, Or.inr hbad⟩

theorem collected_init {zBase : List UInt8} {mx : ℕ} (useMalloc : UseMalloc)
    (hpos : 0 < zBase.length) (hlen : zBase.length < 2 ^ 31) :
    Collected (sqlite3StrAccumInit zBase zBase.length mx useMalloc) [] zBase :=
  ⟨rfl, rfl, rfl, rfl, (Nat.zero_add _).symm, hpos, hlen⟩

theorem finish_collected {heap : Heap} {p p' : StrAccum} {T R : List UInt8}
    (hmode : p.useMalloc ≠ .fixed) (hp : Collected p T R)
    (h : sqlite3StrAccumFinish heap p = some p') :
    p'.zText = .null ∨ ∃ R', p'.zText = .heap (T ++ 0 :: R') := by
  have hmem := hp.memory
  have hroom : [(0 : UInt8)].length ≤ R.length := hp.room
  rw [StrAccum.memory] at hmem
  rw [sqlite3StrAccumFinish] at h
  cases htext : p.zText with
  | null =>
    rw [htext] at hmem
    cases hmem
  | heap block =>
    rw [htext] at hmem h
    dsimp only at hmem h
    rw [Option.some.inj hmem, hp.nChar, write_append hroom] at h
    cases h
    exact Or.inr ⟨R.drop 1, by rw [List.append_assoc]; rfl⟩
  | base =>
    rw [htext] at hmem h
    dsimp only at hmem h
    rw [Option.some.inj hmem, hp.nChar, write_append hroom, Option.bind_some, if_neg hmode] at h
    cases hblock : heap.block p (T.length + 1) with
    | none =>
      rw [hblock] at h
      cases h
      exact Or.inl rfl
    | some z =>
      have hlen := heap.length_block _ _ _ hblock
      have htake : (T ++ [0] ++ R.drop [(0 : UInt8)].length).take (T.length + 1) = T ++ [0] :=
        List.take_left' (by rw [List.length_append, List.length_singleton])
      rw [hblock] at h
      dsimp only at h
      rw [htake, write_zero (by rw [List.length_append, List.length_singleton, hlen])] at h
      cases h
      refine Or.inr ⟨z.drop (T ++ [0]).length, ?_⟩
      change ZText.heap (T ++ [0] ++ _) = _
      rw [List.append_assoc]
      rfl

/-- The memory that `sqlite3_vmprintf` returns. -/
theorem vmprintf_spec {heap : Heap} {zBase z : List UInt8} {l : List Chunk}
    (hlen : zBase.length = printBufSize) (h : sqlite3_vmprintf heap zBase l = some (some z)) :
    (text l).length < 2 ^ 31 ∧ ∃ R, z = text l ++ 0 :: R := by
  rw [sqlite3_vmprintf, ← hlen] at h
  obtain ⟨p, hp, h⟩ := Option.bind_eq_some_iff.mp h
  obtain ⟨q, hq, hz⟩ := Option.map_eq_some_iff.mp h
  have hinit : Collected (sqlite3StrAccumInit zBase zBase.length maxLength .malloc) [] zBase :=
    collected_init .malloc (hlen ▸ by decide) (hlen ▸ by decide)
  have hmalloc : UseMalloc.malloc ≠ .fixed := by decide
  have hmx : maxLength < 2 ^ 31 := by decide
  obtain ⟨huse, ⟨R, hgood⟩ | hbad⟩ := appendAll_collected l hmalloc hmx hinit hp
  · rw [List.nil_append] at hgood
    have hmode : p.useMalloc ≠ .fixed := by
      rw [huse]
      exact hmalloc
    refine ⟨?_, ?_⟩
    · have hsmall := hgood.small
      rw [hgood.nAlloc] at hsmall
      exact (Nat.le_add_right _ _).trans_lt hsmall
    rcases finish_collected hmode hgood hq with htext | ⟨R', htext⟩
    · rw [htext] at hz
      cases hz
    · rw [htext] at hz
      cases hz
      exact ⟨R', rfl⟩
  · rw [sqlite3StrAccumFinish, hbad.zText] at hq
    cases hq
    rw [hbad.zText] at hz
    cases hz

/-! ### With a bound -/

/-- The accumulator in a buffer of `n` bytes, after the text `T`. -/
def bounded (n : ℕ) (zBuf T : List UInt8) : StrAccum where
  zBase := T.take (n - 1) ++ zBuf.drop (min T.length (n - 1))
  zText := .base
  nChar := min T.length (n - 1)
  nAlloc := n
  mxAlloc := 0
  useMalloc := .fixed
  tooBig := decide (n ≤ T.length)
  mallocFailed := false

theorem copy_bounded {p : StrAccum} {a b z : List UInt8} (hbase : p.zText = .base)
    (hmem : p.zBase = a ++ b) (hchar : p.nChar = a.length) (h : z.length ≤ b.length) :
    copy p z = some
      { p with zBase := a ++ z ++ b.drop z.length, nChar := a.length + z.length } := by
  rw [copy, hbase]
  dsimp only
  rw [hmem, hchar, write_append h]
  rfl

/-- **An append in a buffer.** -/
theorem append_bounded (heap : Heap) {n : ℕ} {zBuf T : List UInt8} {c : Chunk} (hn : 1 ≤ n)
    (hbuf : n ≤ zBuf.length) (hlen : T.length + c.length < 2 ^ 31) :
    sqlite3StrAccumAppend heap (bounded n zBuf T) c = some (bounded n zBuf (T ++ c.bytes)) := by
  have hbytes := c.length_bytes
  by_cases hfull : n ≤ T.length
  · -- nothing more is taken
    have htake : (T ++ c.bytes).take (n - 1) = T.take (n - 1) :=
      List.take_append_of_le_length (by omega)
    have hmin : min (T ++ c.bytes).length (n - 1) = min T.length (n - 1) := by
      rw [List.length_append]
      omega
    have hbig : decide (n ≤ (T ++ c.bytes).length) = decide (n ≤ T.length) := by
      rw [List.length_append, decide_eq_true hfull, decide_eq_true (by omega)]
    have hflag : (bounded n zBuf T).tooBig = true := decide_eq_true hfull
    rw [sqlite3StrAccumAppend, if_pos (Or.inl hflag), bounded, bounded, htake, hmin, hbig]
  have hflags : ¬((bounded n zBuf T).tooBig = true ∨ (bounded n zBuf T).mallocFailed = true) := by
    rintro (hbig | hfailed)
    · exact hfull (of_decide_eq_true hbig)
    · cases hfailed
  rw [sqlite3StrAccumAppend, if_neg hflags]
  by_cases hzero : c.length = 0
  · have hnil : c.bytes = [] := List.length_eq_zero_iff.mp (hbytes.trans hzero)
    rw [if_pos hzero, hnil, List.append_nil]
  have hmin : min T.length (n - 1) = T.length := by omega
  have hchar : (bounded n zBuf T).nChar = T.length := hmin
  have hbase : (bounded n zBuf T).zBase = T ++ zBuf.drop T.length := by
    rw [bounded, hmin, List.take_of_length_le (by omega)]
  have hroom : (zBuf.drop T.length).length = zBuf.length - T.length := List.length_drop
  have hsum : toInt ((bounded n zBuf T).nChar + c.length) = T.length + c.length := by
    rw [hchar]
    exact toInt_of_lt (by omega) (by omega)
  have hleft : (bounded n zBuf T).nAlloc - (bounded n zBuf T).nChar - 1 = n - T.length - 1 := by
    rw [hchar]
    rfl
  clear hlen
  rw [if_neg hzero, hsum, hleft]
  by_cases hover : ((bounded n zBuf T).nAlloc : ℤ) ≤ T.length + c.length
  · have hover' : n ≤ T.length + c.length := by exact_mod_cast hover
    have htake : c.z.take (n - T.length - 1) = c.bytes.take (n - T.length - 1) := by
      rw [Chunk.bytes, List.take_take, Nat.min_eq_left (by omega)]
    have hcut : (T ++ c.bytes).take (n - 1) = T ++ c.bytes.take (n - T.length - 1) := by
      rw [List.take_append, List.take_of_length_le (by omega), Nat.sub_right_comm]
    have hmin' : min (T ++ c.bytes).length (n - 1) = n - 1 := by
      rw [List.length_append]
      omega
    have hbig : decide (n ≤ (T ++ c.bytes).length) = true := by
      rw [List.length_append, decide_eq_true (by omega)]
    have huse : (bounded n zBuf T).useMalloc = .fixed := rfl
    rw [if_pos hover, if_pos huse]
    by_cases hlast : n - T.length - 1 = 0
    · rw [if_pos hlast, bounded, bounded, hcut, hmin', hbig, hlast, List.take_zero, List.append_nil,
        hmin, List.take_of_length_le (by omega)]
      have heq : T.length = n - 1 := by omega
      rw [heq]
    · have hz : (c.bytes.take (n - T.length - 1)).length = n - T.length - 1 := by
        rw [List.length_take]
        omega
      have hcopy := copy_bounded (p := { bounded n zBuf T with tooBig := true })
        (z := c.bytes.take (n - T.length - 1)) rfl hbase hchar (by omega)
      have hpos : T.length + (n - T.length - 1) = n - 1 := by omega
      rw [hz, List.drop_drop, hpos] at hcopy
      rw [if_neg hlast, htake, hcopy, bounded, bounded, hcut, hmin', hbig]
  · have hover' : T.length + c.length < n := by
      rw [not_le] at hover
      exact_mod_cast hover
    have hcut : (T ++ c.bytes).take (n - 1) = T ++ c.bytes :=
      List.take_of_length_le (by rw [List.length_append]; omega)
    have hmin' : min (T ++ c.bytes).length (n - 1) = T.length + c.length := by
      rw [List.length_append]
      omega
    have hbig : decide (n ≤ (T ++ c.bytes).length) = decide (n ≤ T.length) := by
      rw [List.length_append, decide_eq_false hfull, decide_eq_false (by omega)]
    have hcopy := copy_bounded (z := c.bytes) rfl hbase hchar (by omega)
    rw [hbytes, List.drop_drop] at hcopy
    rw [if_neg hover, hcopy, bounded, bounded, hcut, hmin', hbig]

theorem appendAll_bounded (heap : Heap) {n : ℕ} {zBuf T : List UInt8} (l : List Chunk)
    (hn : 1 ≤ n) (hbuf : n ≤ zBuf.length) (hlen : (T ++ text l).length < 2 ^ 31) :
    appendAll heap (bounded n zBuf T) l = some (bounded n zBuf (T ++ text l)) := by
  induction l generalizing T with
  | nil => rw [text, List.flatMap_nil, List.append_nil, appendAll]
  | cons c l ih =>
    rw [text, List.flatMap_cons, ← List.append_assoc] at hlen ⊢
    have hstep : T.length + c.length < 2 ^ 31 := by
      rw [List.length_append, List.length_append, c.length_bytes] at hlen
      exact (Nat.le_add_right _ _).trans_lt hlen
    rw [appendAll, append_bounded heap hn hbuf hstep, Option.bind_some]
    exact ih hlen

/-- **The text that is cut off.** -/
theorem vsnprintf_spec (heap : Heap) {n : ℤ} {zBuf : List UInt8} {l : List Chunk} (hn : 1 ≤ n)
    (hbuf : n ≤ zBuf.length) (hlen : (text l).length < 2 ^ 31) :
    sqlite3_vsnprintf heap n zBuf l = some ((text l).take (n.toNat - 1) ++
      0 :: zBuf.drop (min (text l).length (n.toNat - 1) + 1)) := by
  have hinit : sqlite3StrAccumInit zBuf n.toNat 0 .fixed = bounded n.toNat zBuf [] := by
    have hfew : ¬n.toNat ≤ 0 := by omega
    rw [bounded, List.length_nil, decide_eq_false hfew, List.take_nil, Nat.zero_min, List.drop_zero]
    rfl
  have hchar : (bounded n.toNat zBuf (text l)).nChar = ((text l).take (n.toNat - 1)).length := by
    rw [List.length_take, Nat.min_comm]
    rfl
  have hroom : [(0 : UInt8)].length ≤ (zBuf.drop (min (text l).length (n.toNat - 1))).length := by
    rw [List.length_drop, List.length_singleton]
    omega
  rw [sqlite3_vsnprintf, if_neg (by omega), hinit,
    appendAll_bounded heap l (by omega) (by omega) hlen, List.nil_append, Option.bind_some,
    sqlite3StrAccumFinish]
  have hbase : (bounded n.toNat zBuf (text l)).zBase =
      (text l).take (n.toNat - 1) ++ zBuf.drop (min (text l).length (n.toNat - 1)) := rfl
  have htext : (bounded n.toNat zBuf (text l)).zText = .base := rfl
  have huse : (bounded n.toNat zBuf (text l)).useMalloc = .fixed := rfl
  rw [htext]
  dsimp only
  rw [hchar, hbase, write_append hroom, Option.bind_some, if_pos huse, List.append_assoc,
    List.drop_drop]
  rfl

end Printf

end SqliteVms

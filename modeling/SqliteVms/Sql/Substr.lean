import SqliteVms.Sql.Utf8

/-!
# `substr`

`substrFunc` of `func.c`. A text is its bytes without a zero, a blob is its bytes, and `limit` is
`SQLITE_LIMIT_LENGTH`, which stands for the missing length. The start and the length are computed
in 64 bits; a computation that leaves them fails.

Without a length the characters behind `limit` positions are lost when the window begins before the
first character, and an empty blob becomes `NULL`.

## Main definitions

* `substrFunc` — the code
* `characters` — a text, divided where `SQLITE_SKIP_UTF8` divides it
* `window` — the positions of a list that lie in the window

## Main results

* `substrWindow_spec` — the start and the length
* `substr_iff` — when the result is the window
-/

namespace SqliteVms

namespace Sql

namespace Substr

/-! ### The code -/

/-- `(*z & 0xc0)==0x80`. -/
def isTail (b : UInt8) : Bool := b &&& 0xc0 == 0x80

/-- `SQLITE_SKIP_UTF8`. -/
def skipUtf8 : List UInt8 → List UInt8
  | [] => []
  | b :: z => if 0xc0 ≤ b then z.dropWhile isTail else z

/-- The loop that counts the characters. -/
def countLoop : ℕ → List UInt8 → ℕ
  | _, [] => 0
  | 0, _ :: _ => 0
  | fuel + 1, b :: z => countLoop fuel (skipUtf8 (b :: z)) + 1

/-- The loops over characters, while there are any. -/
def skipLoop : ℕ → List UInt8 → List UInt8
  | 0, z => z
  | _ + 1, [] => []
  | n + 1, b :: z => skipLoop n (skipUtf8 (b :: z))

/-- A value of 64 bits. -/
def i64 (x : ℤ) : Option ℤ := if -2 ^ 63 ≤ x ∧ x < 2 ^ 63 then some x else none

/-- `p2` and `negP2`. -/
def readLength (limit : ℤ) : Option ℤ → Option (ℤ × Bool)
  | some p2 => if p2 < 0 then (i64 (-p2)).map (·, true) else some (p2, false)
  | none => some (limit, false)

/-- `p1` counts from 0, and `p2` is less if the window begins before the first character. -/
def fromStart (len p1 p2 : ℤ) : Option (ℤ × ℤ) :=
  if p1 < 0 then
    (i64 (p1 + len)).bind fun p1 =>
      if p1 < 0 then (i64 (p2 + p1)).map fun p2 => (0, if p2 < 0 then 0 else p2)
      else some (p1, p2)
  else if 0 < p1 then (i64 (p1 - 1)).map (·, p2)
  else if 0 < p2 then (i64 (p2 - 1)).map (p1, ·)
  else some (p1, p2)

/-- The characters before `p1`, if `negP2` is set. -/
def preceding (p1 p2 : ℤ) : Option (ℤ × ℤ) :=
  (i64 (p1 - p2)).bind fun p1 =>
    if p1 < 0 then (i64 (p2 + p1)).map (0, ·) else some (p1, p2)

/-- `p1` and `p2` of `substrFunc`. -/
def substrWindow (limit len p1 : ℤ) (arg2 : Option ℤ) : Option (ℤ × ℤ) :=
  (readLength limit arg2).bind fun r => (fromStart len p1 r.1).bind fun q =>
    if r.2 = true then preceding q.1 q.2 else some q

/-- The length of the part of a blob. -/
def clip (len p1 p2 : ℤ) : Option ℤ :=
  (i64 (p1 + p2)).bind fun stop =>
    if len < stop then (i64 (len - p1)).map fun p2 => if p2 < 0 then 0 else p2 else some p2

/-- The first argument. -/
inductive Arg
  | text (z : List UInt8)
  | blob (z : List UInt8)
  deriving DecidableEq

/-- `substrFunc`: the bytes of the result, or `NULL`. It fails if a value leaves its 64 bits or
becomes negative. -/
def substrFunc (limit : ℤ) (arg0 : Arg) (arg1 : ℤ) (arg2 : Option ℤ) :
    Option (Option (List UInt8)) :=
  match arg0 with
  | .text z => do
    let (p1, p2) ←
      substrWindow limit (if arg1 < 0 then countLoop z.length z else 0) arg1 arg2
    if 0 ≤ p1 ∧ 0 ≤ p2 then
      let z := skipLoop p1.toNat z
      let z2 := skipLoop p2.toNat z
      some (some (z.take (z.length - z2.length)))
    else none
  | .blob [] => some none
  | .blob z => do
    let (p1, p2) ← substrWindow limit z.length arg1 arg2
    if 0 ≤ p1 ∧ 0 ≤ p2 then
      (clip z.length p1 p2).map fun p2 => some ((z.drop p1.toNat).take p2.toNat)
    else none

/-! ### The window -/

/-- The characters of a text. -/
def characters : List UInt8 → List (List UInt8)
  | [] => []
  | b :: z =>
    if 0xc0 ≤ b then (b :: z.takeWhile isTail) :: characters (z.dropWhile isTail)
    else [b] :: characters z
termination_by z => z.length
decreasing_by
  · exact Nat.lt_succ_of_le (List.dropWhile_suffix isTail).length_le
  · exact Nat.lt_succ_self _

/-- What the positions of the first argument count. -/
def Arg.units : Arg → List (List UInt8)
  | .text z => characters z
  | .blob z => z.map ([·])

/-- The position of the start of a list of `len` units. -/
def startOf (len X : ℤ) : ℤ := if 0 < X then X else if X < 0 then len + X + 1 else 0

/-- A position lies in the window that starts at `p`. -/
def InWindow (p : ℤ) (Y : Option ℤ) (i : ℤ) : Prop :=
  match Y with
  | none => p ≤ i
  | some Y => (0 ≤ Y ∧ p ≤ i ∧ i < p + Y) ∨ (Y < 0 ∧ p - Y.natAbs ≤ i ∧ i < p)

instance (p : ℤ) (Y : Option ℤ) (i : ℤ) : Decidable (InWindow p Y i) :=
  match Y with
  | none => inferInstanceAs (Decidable (p ≤ i))
  | some Y =>
    inferInstanceAs (Decidable ((0 ≤ Y ∧ p ≤ i ∧ i < p + Y) ∨ (Y < 0 ∧ p - Y.natAbs ≤ i ∧ i < p)))

/-- The members of a list at the positions in the window. -/
def window {α : Type*} (l : List α) (p : ℤ) (Y : Option ℤ) : List α :=
  ((l.zipIdx 1).filter fun q => decide (InWindow p Y q.2)).map Prod.fst

/-- What `substr` returns by its documentation. -/
def substrDoc (x : Arg) (X : ℤ) (Y : Option ℤ) : List UInt8 :=
  (window x.units (startOf x.units.length X) Y).flatten

/-! ### Characters -/

theorem characters_cons (b : UInt8) (z : List UInt8) :
    ∃ c, c ≠ [] ∧ characters (b :: z) = c :: characters (skipUtf8 (b :: z)) ∧
      b :: z = c ++ skipUtf8 (b :: z) := by
  rw [characters, skipUtf8]
  split
  · exact ⟨b :: z.takeWhile isTail, List.cons_ne_nil _ _, rfl, by
      rw [List.cons_append, List.takeWhile_append_dropWhile]⟩
  · exact ⟨[b], List.cons_ne_nil _ _, rfl, rfl⟩

theorem length_skipUtf8_lt (b : UInt8) (z : List UInt8) :
    (skipUtf8 (b :: z)).length < (b :: z).length := by
  obtain ⟨c, hc, -, hz⟩ := characters_cons b z
  have hlen := congrArg List.length hz
  rw [List.length_append] at hlen
  have hpos := List.length_pos_iff.mpr hc
  omega

theorem countLoop_eq {fuel : ℕ} {z : List UInt8} (h : z.length ≤ fuel) :
    countLoop fuel z = (characters z).length := by
  induction fuel generalizing z with
  | zero =>
    rw [List.length_eq_zero_iff.mp (Nat.le_zero.mp h), characters]
    rfl
  | succ fuel ih =>
    cases z with
    | nil =>
      rw [characters]
      rfl
    | cons b z =>
      obtain ⟨c, -, hc, -⟩ := characters_cons b z
      have hlt := length_skipUtf8_lt b z
      rw [countLoop, hc, List.length_cons, ih (by omega)]

/-- The loop over `n` characters. -/
theorem skipLoop_spec (n : ℕ) (z : List UInt8) :
    z = ((characters z).take n).flatten ++ skipLoop n z ∧
      characters (skipLoop n z) = (characters z).drop n := by
  induction n generalizing z with
  | zero => exact ⟨rfl, rfl⟩
  | succ n ih =>
    cases z with
    | nil =>
      rw [characters, skipLoop, characters]
      exact ⟨rfl, rfl⟩
    | cons b z =>
      obtain ⟨c, -, hc, hz⟩ := characters_cons b z
      obtain ⟨hsplit, hdrop⟩ := ih (skipUtf8 (b :: z))
      rw [hc, skipLoop, List.take_succ_cons, List.flatten_cons, List.drop_succ_cons,
        List.append_assoc, ← hsplit]
      exact ⟨hz, hdrop⟩

theorem take_skipLoop (n : ℕ) (z : List UInt8) :
    z.take (z.length - (skipLoop n z).length) = ((characters z).take n).flatten := by
  obtain ⟨hsplit, -⟩ := skipLoop_spec n z
  have hlen := congrArg List.length hsplit
  rw [List.length_append] at hlen
  have hcount : z.length - (skipLoop n z).length = ((characters z).take n).flatten.length := by
    omega
  have htake : (((characters z).take n).flatten ++ skipLoop n z).take
      ((characters z).take n).flatten.length = ((characters z).take n).flatten := List.take_left
  rwa [← hsplit, ← hcount] at htake

/-! ### The window of a list -/

/-- The positions from `s` up to `e`. -/
theorem filter_zipIdx {α : Type*} {P : ℕ → Bool} (l : List α) (k s e : ℕ)
    (hP : ∀ i, k ≤ i → i < k + l.length → (P i = true ↔ s ≤ i ∧ i < e)) :
    ((l.zipIdx k).filter fun q => P q.2).map Prod.fst = (l.take (e - k)).drop (s - k) := by
  induction l generalizing k with
  | nil => simp
  | cons a l ih =>
    have htail := ih (k + 1) fun i hi hlt => hP i (by omega) (by rw [List.length_cons]; omega)
    have hhead := hP k le_rfl (by rw [List.length_cons]; omega)
    rw [List.zipIdx_cons, List.filter_cons]
    dsimp only
    by_cases hin : s ≤ k ∧ k < e
    · rw [if_pos (hhead.mpr hin), List.map_cons, htail]
      obtain ⟨n, hn⟩ : ∃ n, e - k = n + 1 := ⟨e - k - 1, by omega⟩
      have hs : s - k = 0 := by omega
      have hs' : s - (k + 1) = 0 := by omega
      have he : e - (k + 1) = n := by omega
      rw [hn, hs, hs', he]
      rfl
    · rw [if_neg fun h => hin (hhead.mp h), htail]
      by_cases hk : k < e
      · obtain ⟨n, hn⟩ : ∃ n, e - k = n + 1 := ⟨e - k - 1, by omega⟩
        obtain ⟨m, hm⟩ : ∃ m, s - k = m + 1 := ⟨s - k - 1, by omega⟩
        have he : e - (k + 1) = n := by omega
        have hs : s - (k + 1) = m := by omega
        rw [hn, hm, he, hs]
        rfl
      · have he : e - k = 0 := by omega
        have he' : e - (k + 1) = 0 := by omega
        rw [he, he', List.take_zero, List.take_zero, List.drop_nil, List.drop_nil]

/-! ### The start and the length -/

/-- The arguments are values of 32 bits, and without a length the list is within the limit. -/
structure Args (limit L X : ℤ) (Y : Option ℤ) : Prop where
  start : -2 ^ 31 ≤ X ∧ X < 2 ^ 31
  length : ∀ y, Y = some y → -2 ^ 31 ≤ y ∧ y < 2 ^ 31
  size : 0 ≤ L ∧ L < 2 ^ 31
  bound : 0 ≤ limit ∧ limit < 2 ^ 31
  le_limit : Y = none → L ≤ limit

/-- Without a length, the limit reaches the end of the list from where the window starts. -/
def Reaches (limit L X : ℤ) (Y : Option ℤ) : Prop :=
  Y = none → 0 < X ∨ L = 0 ∨ (X = 0 ∧ L < limit) ∨ (X < 0 ∧ -X ≤ limit)

theorem i64_eq {x : ℤ} (h : -2 ^ 63 ≤ x ∧ x < 2 ^ 63) : i64 x = some x := if_pos h

variable {limit L X len : ℤ} {Y : Option ℤ}

theorem fromStart_eq (hX : -2 ^ 31 ≤ X ∧ X < 2 ^ 31) (hL : 0 ≤ L ∧ L < 2 ^ 31)
    (hlen : X < 0 → len = L) {p2 : ℤ} (hp : 0 ≤ p2 ∧ p2 ≤ 2 ^ 31) :
    fromStart len X p2 = some (max (startOf L X - 1) 0,
      if 0 ≤ startOf L X - 1 then p2 else max (p2 + (startOf L X - 1)) 0) := by
  by_cases hneg : X < 0
  · have hs : startOf L X = L + X + 1 := by rw [startOf, if_neg (by omega), if_pos hneg]
    rw [fromStart, if_pos hneg, hlen hneg, i64_eq (by omega), Option.bind_some, hs]
    by_cases hbefore : X + L < 0
    · rw [if_pos hbefore, i64_eq (by omega), Option.map_some,
        if_neg (by omega : ¬0 ≤ L + X + 1 - 1)]
      congr 2
      · omega
      · split <;> omega
    · rw [if_neg hbefore, if_pos (by omega)]
      congr 2
      omega
  · rw [fromStart, if_neg hneg]
    by_cases hpos : 0 < X
    · have hs : startOf L X = X := if_pos hpos
      rw [if_pos hpos, i64_eq (by omega), Option.map_some, hs, if_pos (by omega)]
      congr 2
      omega
    · have hs : startOf L X = 0 := by rw [startOf, if_neg hpos, if_neg hneg]
      rw [if_neg hpos, hs, if_neg (by omega : ¬(0 : ℤ) ≤ 0 - 1)]
      by_cases hp2 : 0 < p2
      · rw [if_pos hp2, i64_eq (by omega), Option.map_some]
        congr 2 <;> omega
      · rw [if_neg hp2]
        congr 2 <;> omega

theorem preceding_eq {p1 p2 : ℤ} (hp1 : 0 ≤ p1 ∧ p1 < 2 ^ 32) (hp2 : 0 ≤ p2 ∧ p2 ≤ 2 ^ 31) :
    preceding p1 p2 = some (max (p1 - p2) 0, min p1 p2) := by
  rw [preceding, i64_eq (by omega), Option.bind_some]
  split
  · rw [i64_eq (by omega), Option.map_some]
    congr 2 <;> omega
  · congr 2 <;> omega

/-- **The start and the length** are the window, or the length is too small. -/
theorem substrWindow_spec (h : Args limit L X Y) :
    ∃ p1 p2, (∀ len, (X < 0 → len = L) → substrWindow limit len X Y = some (p1, p2)) ∧
      0 ≤ p1 ∧ 0 ≤ p2 ∧ p1 + p2 < 2 ^ 63 ∧
      (Reaches limit L X Y → ∀ i, 1 ≤ i → i ≤ L →
        (InWindow (startOf L X) Y i ↔ p1 + 1 ≤ i ∧ i < p1 + p2 + 1)) ∧
      (¬Reaches limit L X Y → p1 = 0 ∧ p2 < L) := by
  obtain ⟨hX, hY, hL, hlimit, hle⟩ := h
  have hstart : startOf L X = if 0 < X then X else if X < 0 then L + X + 1 else 0 := rfl
  cases Y with
  | none =>
    have hle := hle rfl
    have hp : 0 ≤ limit ∧ limit ≤ 2 ^ 31 := by omega
    have heq : ∀ len, (X < 0 → len = L) → substrWindow limit len X none =
        some (max (startOf L X - 1) 0,
          if 0 ≤ startOf L X - 1 then limit else max (limit + (startOf L X - 1)) 0) := by
      intro len hlen
      rw [substrWindow, readLength, Option.bind_some, fromStart_eq hX hL hlen hp]
      rfl
    refine ⟨_, _, heq, by omega, ?_, ?_, fun hr i hi hiL => ?_, fun hr => ?_⟩
    · split <;> omega
    · split <;> split at hstart <;> omega
    · have hr := hr rfl
      rw [InWindow]
      split <;> split at hstart <;> omega
    · have hr : ¬(0 < X ∨ L = 0 ∨ (X = 0 ∧ L < limit) ∨ (X < 0 ∧ -X ≤ limit)) := fun hr' =>
        hr fun _ => hr'
      split <;> split at hstart <;> omega
  | some y =>
    have hy := hY y rfl
    have hreach : Reaches limit L X (some y) := fun h => nomatch h
    by_cases hneg : y < 0
    · have hp : 0 ≤ -y ∧ -y ≤ 2 ^ 31 := by omega
      have hfirst : 0 ≤ max (startOf L X - 1) 0 ∧ max (startOf L X - 1) 0 < 2 ^ 32 := by
        split at hstart <;> omega
      have hsecond : 0 ≤ (if 0 ≤ startOf L X - 1 then -y else max (-y + (startOf L X - 1)) 0) ∧
          (if 0 ≤ startOf L X - 1 then -y else max (-y + (startOf L X - 1)) 0) ≤ 2 ^ 31 := by
        split <;> omega
      have heq : ∀ len, (X < 0 → len = L) → substrWindow limit len X (some y) =
          some (max (max (startOf L X - 1) 0 -
              if 0 ≤ startOf L X - 1 then -y else max (-y + (startOf L X - 1)) 0) 0,
            min (max (startOf L X - 1) 0)
              (if 0 ≤ startOf L X - 1 then -y else max (-y + (startOf L X - 1)) 0)) := by
        intro len hlen
        rw [substrWindow, readLength, if_pos hneg, i64_eq (by omega), Option.map_some,
          Option.bind_some, fromStart_eq hX hL hlen hp, Option.bind_some, if_pos rfl,
          preceding_eq hfirst hsecond]
      refine ⟨_, _, heq, by omega, by omega, by omega, fun _ i hi hiL => ?_,
        fun hr => absurd hreach hr⟩
      rw [InWindow]
      split <;> omega
    · have hp : 0 ≤ y ∧ y ≤ 2 ^ 31 := by omega
      have heq : ∀ len, (X < 0 → len = L) → substrWindow limit len X (some y) =
          some (max (startOf L X - 1) 0,
            if 0 ≤ startOf L X - 1 then y else max (y + (startOf L X - 1)) 0) := by
        intro len hlen
        rw [substrWindow, readLength, if_neg hneg, Option.bind_some, fromStart_eq hX hL hlen hp]
        rfl
      refine ⟨_, _, heq, by omega, ?_, ?_, fun _ i hi hiL => ?_, fun hr => absurd hreach hr⟩
      · split <;> omega
      · split <;> split at hstart <;> omega
      · rw [InWindow]
        split <;> omega

/-! ### When the result is the window -/

theorem window_eq {α : Type*} (l : List α) (p : ℤ) {p1 p2 : ℤ} (h1 : 0 ≤ p1) (h2 : 0 ≤ p2)
    (hin : ∀ i : ℤ, 1 ≤ i → i ≤ l.length → (InWindow p Y i ↔ p1 + 1 ≤ i ∧ i < p1 + p2 + 1)) :
    window l p Y = (l.drop p1.toNat).take p2.toNat := by
  have hfilter := filter_zipIdx (P := fun i => decide (InWindow p Y i)) l 1 (p1.toNat + 1)
    (p1.toNat + p2.toNat + 1) fun i hi hlt => by
      rw [decide_eq_true_eq, hin i (by omega) (by omega)]
      omega
  rw [window, hfilter, List.drop_take]
  congr 1
  omega

theorem flatten_singletons (z : List UInt8) : (z.map ([·])).flatten = z := by
  induction z with
  | nil => rfl
  | cons b z ih => rw [List.map_cons, List.flatten_cons, ih, List.singleton_append]

theorem clip_spec (z : List UInt8) {p1 p2 : ℤ} (h1 : 0 ≤ p1) (h2 : 0 ≤ p2)
    (hsum : p1 + p2 < 2 ^ 63) (hz : (z.length : ℤ) < 2 ^ 31) :
    ∃ p2', clip z.length p1 p2 = some p2' ∧
      (z.drop p1.toNat).take p2'.toNat = (z.drop p1.toNat).take p2.toNat := by
  rw [clip, i64_eq ⟨by omega, hsum⟩, Option.bind_some]
  split
  · rw [i64_eq (by omega), Option.map_some]
    refine ⟨_, rfl, ?_⟩
    rw [List.take_of_length_le, List.take_of_length_le]
    · rw [List.length_drop]
      omega
    · rw [List.length_drop]
      split <;> omega
  · exact ⟨p2, rfl, rfl⟩

/-- What the end of `substrFunc` returns. -/
theorem substrFunc_eq {x : Arg} (hx : x ≠ .blob []) (h : Args limit x.units.length X Y)
    {p1 p2 : ℤ} (h1 : 0 ≤ p1) (h2 : 0 ≤ p2) (hsum : p1 + p2 < 2 ^ 63)
    (heq : ∀ len, (X < 0 → len = (x.units.length : ℤ)) →
      substrWindow limit len X Y = some (p1, p2)) :
    substrFunc limit x X Y = some (some ((x.units.drop p1.toNat).take p2.toNat).flatten) := by
  cases x with
  | text z =>
    have hwin := heq (if X < 0 then countLoop z.length z else 0) fun hneg => by
      rw [if_pos hneg, countLoop_eq le_rfl]
      rfl
    obtain ⟨-, hdrop⟩ := skipLoop_spec p1.toNat z
    rw [substrFunc, hwin]
    change (if 0 ≤ p1 ∧ 0 ≤ p2 then _ else none) = _
    rw [if_pos ⟨h1, h2⟩, take_skipLoop, hdrop]
    rfl
  | blob z =>
    have hwin := heq z.length fun _ => by rw [Arg.units, List.length_map]
    have hresult : (((Arg.blob z).units.drop p1.toNat).take p2.toNat).flatten =
        (z.drop p1.toNat).take p2.toNat := by
      rw [Arg.units, ← List.map_drop, ← List.map_take, flatten_singletons]
    have hsize := h.size
    rw [Arg.units, List.length_map] at hsize
    rw [hresult]
    cases z with
    | nil => exact absurd rfl hx
    | cons b z =>
      rw [substrFunc, hwin]
      · change (if 0 ≤ p1 ∧ 0 ≤ p2 then _ else none) = _
        obtain ⟨p2', hclip, htake⟩ := clip_spec (b :: z) h1 h2 hsum hsize.2
        rw [if_pos ⟨h1, h2⟩, hclip, Option.map_some, htake]
      · exact fun h => nomatch h

theorem not_reaches (h : ¬Reaches limit L X Y) :
    Y = none ∧ ¬(0 < X ∨ L = 0 ∨ (X = 0 ∧ L < limit) ∨ (X < 0 ∧ -X ≤ limit)) :=
  Classical.not_imp.mp h

/-- The window begins before the first character. -/
theorem startOf_nonpos (h : Args limit L X Y) (hreach : ¬Reaches limit L X Y) :
    startOf L X ≤ 0 := by
  obtain ⟨hY, hnot⟩ := not_reaches hreach
  have hle := h.le_limit hY
  rw [startOf]
  split
  · omega
  · split <;> omega

theorem units_ne_nil {x : Arg} : ∀ u ∈ x.units, u ≠ [] := by
  intro u hu
  cases x with
  | text z =>
    rw [Arg.units] at hu
    induction hn : z.length using Nat.strong_induction_on generalizing z with
    | _ n ih =>
      cases z with
      | nil =>
        rw [characters] at hu
        cases hu
      | cons b z =>
        obtain ⟨c, hne, hc, -⟩ := characters_cons b z
        rw [hc] at hu
        rcases List.mem_cons.mp hu with rfl | hu
        · exact hne
        · exact ih _ (hn ▸ length_skipUtf8_lt b z) _ hu rfl
  | blob z =>
    obtain ⟨b, -, rfl⟩ := List.mem_map.mp hu
    exact List.cons_ne_nil _ _

theorem flatten_take_ne {l : List (List UInt8)} (hl : ∀ u ∈ l, u ≠ []) {n : ℕ}
    (hn : n < l.length) : (l.take n).flatten ≠ l.flatten := by
  intro heq
  have hsplit := congrArg List.flatten (List.take_append_drop n l)
  rw [List.flatten_append, heq] at hsplit
  have hnil := List.append_cancel_left (hsplit.trans (List.append_nil _).symm)
  have hmem : l[n] ∈ l.drop n := by
    rw [List.drop_eq_getElem_cons hn]
    exact List.mem_cons_self
  exact hl _ (List.getElem_mem hn) (List.flatten_eq_nil_iff.mp hnil _ hmem)

/-- **When `substr` returns the window**: the argument is not an empty blob, and a missing length is
made up for by the limit. It never leaves its 64 bits, and the start and the length are never
negative. -/
theorem substr_iff {x : Arg} (h : Args limit x.units.length X Y) :
    substrFunc limit x X Y = some (some (substrDoc x X Y)) ↔
      x ≠ .blob [] ∧ Reaches limit x.units.length X Y := by
  by_cases hx : x = .blob []
  · subst hx
    refine iff_of_false (fun heq => ?_) fun hne => hne.1 rfl
    rw [substrFunc] at heq
    cases heq
  · obtain ⟨p1, p2, heq, h1, h2, hsum, hwin, hshort⟩ := substrWindow_spec h
    rw [substrFunc_eq hx h h1 h2 hsum heq]
    by_cases hreach : Reaches limit x.units.length X Y
    · refine iff_of_true ?_ ⟨hx, hreach⟩
      rw [substrDoc, window_eq _ _ h1 h2 (hwin hreach)]
    · refine iff_of_false (fun heq => ?_) fun hand => hreach hand.2
      obtain ⟨rfl, hlt⟩ := hshort hreach
      have hin : ∀ i : ℤ, 1 ≤ i → i ≤ x.units.length →
          (InWindow (startOf x.units.length X) Y i ↔
            0 + 1 ≤ i ∧ i < 0 + (x.units.length : ℤ) + 1) := by
        intro i hi hiL
        have hstart := startOf_nonpos h hreach
        obtain ⟨rfl, -⟩ := not_reaches hreach
        rw [InWindow]
        omega
      have hdoc := Option.some.inj (Option.some.inj heq)
      rw [substrDoc, window_eq _ _ le_rfl (Int.natCast_nonneg _) hin] at hdoc
      refine flatten_take_ne units_ne_nil (n := p2.toNat) (by omega) (hdoc.trans ?_)
      rw [Int.toNat_natCast, Int.toNat_zero, List.drop_zero, List.take_length]

theorem substr_iff_second :
    substrFunc 1000000000 (.blob [97, 98, 99]) 2 (some 1) =
        some (some (substrDoc (.blob [97, 98, 99]) 2 (some 1))) ↔
      Arg.blob [97, 98, 99] ≠ .blob [] ∧ Reaches 1000000000 3 2 (some 1) := by
  refine substr_iff (x := .blob [97, 98, 99]) (X := 2) (Y := some 1)
    ⟨by decide, fun y hy => ?_, by decide, by decide, fun h => nomatch h⟩
  cases hy
  decide

/-- `substr(x'616263', -2000000000)` is empty and not `x'616263'`. -/
theorem not_forall_substrDoc :
    ¬∀ (limit X : ℤ) (Y : Option ℤ) (x : Arg), Args limit x.units.length X Y →
      substrFunc limit x X Y = some (some (substrDoc x X Y)) := by
  intro h
  have hall := h 1000000000 (-2000000000) none (.blob [97, 98, 99])
    ⟨by decide, (fun y hy => nomatch hy), by decide, by decide, fun _ => by decide⟩
  exact absurd hall (by decide)

end Substr

end Sql

end SqliteVms

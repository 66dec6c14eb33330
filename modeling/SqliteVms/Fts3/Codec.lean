import SqliteVms.Fts3.Near
import SqliteVms.Fts3.Poslist
import Mathlib.Tactic.Ring

/-!
# The bytes of position lists

A position list as bytes and as what it stands for. Each varint of a column is at least 2, so that the
bytes 0 and 1 between columns are not taken for one of them.

## Main definitions

* `encodePositions`, `encodeColumns`, `encode` — the bytes of a position list

## Main results

* `getVarint_putVarint` — what is written is read
* `columnLength_encodePositions`, `poslistLength_encode` — where a column and a list end
* `length_encode_le` — a list with fewer positions has fewer bytes
-/

namespace SqliteVms

namespace Fts3

open Query (Poslist)

/-! ### Bytes of a varint -/

/-- A byte below 128 ends a varint. -/
theorem low_byte {v : ℕ} (h : v < 128) : UInt8.ofNat v &&& 0x80 = 0 ∧
    (UInt8.ofNat v).toNat = v ∧ (0x80 ||| UInt8.ofNat v) &&& 0xFE ≠ 0 ∧
    UInt8.ofNat v ||| 0x80 ≠ 0 :=
  (by decide : ∀ i : Fin 128, UInt8.ofNat i &&& 0x80 = 0 ∧ (UInt8.ofNat i).toNat = i ∧
    (0x80 ||| UInt8.ofNat i) &&& 0xFE ≠ 0 ∧ UInt8.ofNat i ||| 0x80 ≠ 0) ⟨v, h⟩

theorem low_byte_of_le {v : ℕ} (h : v < 128) (h2 : 2 ≤ v) : UInt8.ofNat v &&& 0xFE ≠ 0 :=
  (by decide : ∀ i : Fin 128, 2 ≤ i.val → UInt8.ofNat i &&& 0xFE ≠ 0) ⟨v, h⟩ h2

/-- A byte with its high bit set goes on. -/
theorem high_byte {v : ℕ} (h : v < 128) : UInt8.ofNat (v + 128) &&& 0x80 = 0x80 ∧
    (UInt8.ofNat (v + 128) &&& 0x7f).toNat = v ∧ UInt8.ofNat (v + 128) &&& 0xFE ≠ 0 ∧
    (0x80 ||| UInt8.ofNat (v + 128)) &&& 0xFE ≠ 0 ∧ UInt8.ofNat (v + 128) ||| 0x80 ≠ 0 ∧
    UInt8.ofNat (v + 128) ≠ 0 :=
  (by decide : ∀ i : Fin 128, UInt8.ofNat (i + 128) &&& 0x80 = 0x80 ∧
    (UInt8.ofNat (i + 128) &&& 0x7f).toNat = i ∧ UInt8.ofNat (i + 128) &&& 0xFE ≠ 0 ∧
    (0x80 ||| UInt8.ofNat (i + 128)) &&& 0xFE ≠ 0 ∧ UInt8.ofNat (i + 128) ||| 0x80 ≠ 0 ∧
    UInt8.ofNat (i + 128) ≠ 0) ⟨v, h⟩

/-- The bytes of a number. -/
def varint (v : ℕ) : Bytes := putVarintLoop 10 v

theorem putVarint_natCast {v : ℕ} (h : v < 2 ^ 64) : putVarint v = varint v := by
  rw [putVarint, varint]
  congr 1
  omega

/-- The loops of writing and reading, from any place value on. -/
theorem varintLoop_putVarintLoop {n m v : ℕ} (hn : n ≤ m) (hv : v < 128 ^ n) (hpos : 0 < n)
    (x y : ℕ) (rest : Bytes) : varintLoop m x y (putVarintLoop n v ++ rest) =
      (x + y * v, (putVarintLoop n v).length) := by
  induction n generalizing m v x y with
  | zero => omega
  | succ n ih =>
    obtain ⟨m, rfl⟩ : ∃ k, m = k + 1 := ⟨m - 1, by omega⟩
    rw [putVarintLoop]
    split
    · rename_i hlow
      obtain ⟨hbit, hval, -⟩ := low_byte hlow
      rw [List.singleton_append, varintLoop, hbit, if_neg (by decide), hval]
      rfl
    · rename_i hhigh
      obtain ⟨hbit, hval, -⟩ := high_byte (Nat.mod_lt v (by decide : 0 < 128))
      have hn0 : 0 < n := by
        rcases Nat.eq_zero_or_pos n with rfl | h
        · omega
        · exact h
      have hdiv : v / 128 < 128 ^ n := Nat.div_lt_of_lt_mul (by rwa [pow_succ'] at hv)
      rw [List.cons_append, varintLoop, if_pos hbit, hval, ih (by omega) hdiv hn0]
      refine Prod.ext ?_ rfl
      dsimp only
      have hmod := Nat.div_add_mod v 128
      calc x + y * (v % 128) + y * 128 * (v / 128) = x + y * (128 * (v / 128) + v % 128) := by ring
        _ = x + y * v := by rw [hmod]

/-- **Reading what was written.** -/
theorem getVarint_varint {v : ℕ} (hv : v < 2 ^ 64) (rest : Bytes) :
    getVarint (varint v ++ rest) = (Int.bmod v (2 ^ 64), (varint v).length) := by
  have hlt : v < 128 ^ 10 := hv.trans_le (by decide)
  have hloop : varintLoop 10 0 1 (varint v ++ rest) = (0 + 1 * v, (varint v).length) :=
    varintLoop_putVarintLoop (le_refl 10) hlt (by decide) 0 1 rest
  rw [Nat.zero_add, Nat.one_mul] at hloop
  unfold getVarint
  rw [hloop]

/-- What is written is read. -/
theorem getVarint_putVarint (v : ℤ) (rest : Bytes) :
    getVarint (putVarint v ++ rest) = (v.bmod (2 ^ 64), (putVarint v).length) := by
  have hv : (v % 2 ^ 64).toNat < 2 ^ 64 := by omega
  have hmod : ((v % 2 ^ 64).toNat : ℤ) = v % 2 ^ 64 := by omega
  rw [show putVarint v = varint (v % 2 ^ 64).toNat from rfl, getVarint_varint hv, hmod]
  refine Prod.ext ?_ rfl
  exact Int.emod_bmod v (2 ^ 64)

/-- The same for the reader of 32 bits. -/
theorem getVarint32_varint {v : ℕ} (hv : v < 2 ^ 31) (rest : Bytes) :
    getVarint32 (varint v ++ rest) = ((v : ℤ), (varint v).length) := by
  have hbig : Int.bmod v (2 ^ 64) = v := Int.bmod_eq_of_le (by omega) (by omega)
  have hsmall : Int.bmod v (2 ^ 32) = v := Int.bmod_eq_of_le (by omega) (by omega)
  simp only [getVarint32, getVarint_varint (show v < 2 ^ 64 by omega), hbig, hsmall]

theorem getDelta_varint {v : ℕ} (hv : v < 2 ^ 63) (i : ℤ) (rest : Bytes) :
    getDelta (varint v ++ rest) i = (rest, i + v) := by
  have hbig : Int.bmod v (2 ^ 64) = v := Int.bmod_eq_of_le (by omega) (by omega)
  rw [getDelta, getVarint_varint (by omega)]
  dsimp only
  rw [hbig, List.drop_left]

/-! ### Lengths -/

theorem length_putVarintLoop_mono (n : ℕ) {v w : ℕ} (h : v ≤ w) :
    (putVarintLoop n v).length ≤ (putVarintLoop n w).length := by
  induction n generalizing v w with
  | zero => exact le_rfl
  | succ n ih =>
    rw [putVarintLoop, putVarintLoop]
    split
    · split
      · exact le_rfl
      · exact Nat.succ_le_succ (Nat.zero_le _)
    · rw [if_neg (by omega)]
      exact Nat.succ_le_succ (ih (Nat.div_le_div_right h))

/-- A larger number takes no fewer bytes. -/
theorem length_varint_mono {v w : ℕ} (h : v ≤ w) : (varint v).length ≤ (varint w).length :=
  length_putVarintLoop_mono 10 h

theorem length_putVarintLoop_pos {n : ℕ} (hn : 0 < n) (v : ℕ) :
    0 < (putVarintLoop n v).length := by
  obtain ⟨n, rfl⟩ : ∃ k, n = k + 1 := ⟨n - 1, by omega⟩
  rw [putVarintLoop]
  split
  · exact Nat.one_pos
  · exact Nat.succ_pos _

theorem length_varint_pos (v : ℕ) : 0 < (varint v).length :=
  length_putVarintLoop_pos (by decide) v

theorem length_varint_le (v : ℕ) : (varint v).length ≤ 10 := by
  have hle : ∀ n v, (putVarintLoop n v).length ≤ n := by
    intro n
    induction n with
    | zero => exact fun _ => le_rfl
    | succ n ih =>
      intro v
      rw [putVarintLoop]
      split
      · exact Nat.succ_le_succ (Nat.zero_le _)
      · exact Nat.succ_le_succ (ih _)
  exact hle 10 v

theorem length_putVarintLoop_succ (n v : ℕ) :
    (putVarintLoop n v).length ≤ (putVarintLoop (n + 1) v).length := by
  induction n generalizing v with
  | zero => exact Nat.zero_le _
  | succ n ih =>
    rw [putVarintLoop, putVarintLoop]
    split
    · exact le_rfl
    · exact Nat.succ_le_succ (ih _)

theorem length_putVarintLoop_mul (n v : ℕ) :
    (putVarintLoop n (128 * v)).length ≤ (putVarintLoop n v).length + 1 := by
  cases n with
  | zero => exact Nat.zero_le _
  | succ n =>
    rw [putVarintLoop]
    split
    · exact Nat.succ_le_succ (Nat.zero_le _)
    · rw [List.length_cons, Nat.mul_div_cancel_left v (by decide)]
      exact Nat.succ_le_succ (length_putVarintLoop_succ n v)

/-- A varint of a sum is no longer than the varints of its parts. -/
theorem length_varint_add (v w : ℕ) :
    (varint (v + w)).length ≤ (varint v).length + (varint w).length := by
  have hmax : ∀ m k, m ≤ k → (varint (m + k)).length ≤ (varint m).length + (varint k).length := by
    intro m k hmk
    have hsum := length_varint_mono (by omega : m + k ≤ 128 * k)
    have hmul := length_putVarintLoop_mul 10 k
    have hpos := length_varint_pos m
    change (varint (128 * k)).length ≤ (varint k).length + 1 at hmul
    omega
  obtain h | h := le_total v w
  · exact hmax v w h
  · rw [Nat.add_comm v w, Nat.add_comm (varint v).length]
    exact hmax w v h

/-! ### Where a column and a list end -/

/-- `fts3ColumnlistCopy` skips a varint. -/
theorem columnLength_putVarintLoop {n v : ℕ} {c : UInt8} (hn : 0 < n) (hv : v < 128 ^ n)
    (hc : c = 0x80 ∨ c = 0 ∧ 2 ≤ v) (rest : Bytes) :
    columnLength c (putVarintLoop n v ++ rest) =
      (putVarintLoop n v).length + columnLength 0 rest := by
  induction n generalizing v c with
  | zero => omega
  | succ n ih =>
    rw [putVarintLoop]
    split
    · rename_i hlow
      obtain ⟨hbit, -, hmask, -⟩ := low_byte hlow
      have hne : (c ||| UInt8.ofNat v) &&& 0xFE ≠ 0 := by
        obtain rfl | ⟨rfl, h2⟩ := hc
        · exact hmask
        · rw [UInt8.zero_or]
          exact low_byte_of_le hlow h2
      rw [List.singleton_append, columnLength, if_pos hne, hbit, List.length_singleton,
        Nat.add_comm]
    · rename_i hhigh
      obtain ⟨hbit, -, hmask, hmask', -⟩ := high_byte (Nat.mod_lt v (by decide : 0 < 128))
      have hne : (c ||| UInt8.ofNat (v % 128 + 128)) &&& 0xFE ≠ 0 := by
        obtain rfl | ⟨rfl, -⟩ := hc
        · exact hmask'
        · rwa [UInt8.zero_or]
      have hn0 : 0 < n := by
        rcases Nat.eq_zero_or_pos n with rfl | h
        · omega
        · exact h
      rw [List.cons_append, columnLength, if_pos hne, hbit,
        ih hn0 (Nat.div_lt_of_lt_mul (by rwa [pow_succ'] at hv)) (.inl rfl), List.length_cons]
      omega

/-- `fts3PoslistCopy` skips a varint. -/
theorem poslistLength_putVarintLoop {n v : ℕ} {c : UInt8} (hn : 0 < n) (hv : v < 128 ^ n)
    (hc : c = 0x80 ∨ c = 0 ∧ 0 < v) (rest : Bytes) :
    poslistLength c (putVarintLoop n v ++ rest) =
      (putVarintLoop n v).length + poslistLength 0 rest := by
  induction n generalizing v c with
  | zero => omega
  | succ n ih =>
    rw [putVarintLoop]
    split
    · rename_i hlow
      obtain ⟨hbit, hval, -, hor⟩ := low_byte hlow
      have hne : UInt8.ofNat v ||| c ≠ 0 := by
        obtain rfl | ⟨rfl, h2⟩ := hc
        · exact hor
        · rw [UInt8.or_zero]
          intro hzero
          rw [hzero] at hval
          exact h2.ne hval
      rw [List.singleton_append, poslistLength, if_pos hne, hbit, List.length_singleton,
        Nat.add_comm]
    · rename_i hhigh
      obtain ⟨hbit, -, -, -, hor, hzero⟩ := high_byte (Nat.mod_lt v (by decide : 0 < 128))
      have hne : UInt8.ofNat (v % 128 + 128) ||| c ≠ 0 := by
        obtain rfl | ⟨rfl, -⟩ := hc
        · exact hor
        · rwa [UInt8.or_zero]
      have hn0 : 0 < n := by
        rcases Nat.eq_zero_or_pos n with rfl | h
        · omega
        · exact h
      rw [List.cons_append, poslistLength, if_pos hne, hbit,
        ih hn0 (Nat.div_lt_of_lt_mul (by rwa [pow_succ'] at hv)) (.inl rfl), List.length_cons]
      omega

theorem columnLength_varint {v : ℕ} (hv : v < 2 ^ 64) (h2 : 2 ≤ v) (rest : Bytes) :
    columnLength 0 (varint v ++ rest) = (varint v).length + columnLength 0 rest :=
  columnLength_putVarintLoop (by decide) (hv.trans_le (by decide)) (.inr ⟨rfl, h2⟩) rest

theorem poslistLength_varint {v : ℕ} (hv : v < 2 ^ 64) (h0 : 0 < v) (rest : Bytes) :
    poslistLength 0 (varint v ++ rest) = (varint v).length + poslistLength 0 rest :=
  poslistLength_putVarintLoop (by decide) (hv.trans_le (by decide)) (.inr ⟨rfl, h0⟩) rest

/-- The first byte of a varint that is not 0 or 1. -/
theorem deref_varint {v : ℕ} (h2 : 2 ≤ v) (rest : Bytes) :
    deref (varint v ++ rest) &&& 0xFE ≠ 0 := by
  rw [varint, putVarintLoop]
  split
  · rename_i hlow
    exact low_byte_of_le hlow h2
  · exact (high_byte (Nat.mod_lt v (by decide : 0 < 128))).2.2.1

/-- A byte that is not 0 or 1. -/
theorem ne_of_and {b : UInt8} (h : b &&& 0xFE ≠ 0) : b ≠ 0 ∧ b ≠ 1 :=
  ⟨by rintro rfl; exact h rfl, by rintro rfl; exact h rfl⟩

/-! ### Position lists -/

/-- The bytes of the positions of a column after `iPrev`. -/
def encodePositions : ℕ → List ℕ → Bytes
  | _, [] => []
  | iPrev, x :: xs => varint (x + 2 - iPrev) ++ encodePositions x xs

/-- The bytes of the columns of a position list. -/
def encodeColumns : Poslist → Bytes
  | [] => []
  | (iCol, ps) :: p =>
    (if iCol ≠ 0 then 1 :: varint iCol else []) ++ encodePositions 0 ps ++ encodeColumns p

/-- The bytes of a position list. -/
def encode (p : Poslist) : Bytes := encodeColumns p ++ [0]

/-- The columns and positions are below `POSITION_LIST_END`, also with the 2 added: a document does
not have 2^31 terms. -/
def Small (p : Poslist) : Prop := ∀ c ∈ p, c.1 < 2 ^ 31 - 1 ∧ ∀ x ∈ c.2, x < 2 ^ 31 - 3

/-- A list that comes after `iPrev`. -/
def After (iPrev : ℕ) (ps : List ℕ) : Prop :=
  ps.Pairwise (· < ·) ∧ ∀ x ∈ ps, iPrev ≤ x ∧ x < 2 ^ 31 - 3

theorem After.tail {iPrev x : ℕ} {xs : List ℕ} (h : After iPrev (x :: xs)) : After x xs :=
  ⟨(List.pairwise_cons.mp h.1).2, fun y hy =>
    ⟨((List.pairwise_cons.mp h.1).1 y hy).le, (h.2 y (List.mem_cons_of_mem _ hy)).2⟩⟩

theorem After.head {iPrev x : ℕ} {xs : List ℕ} (h : After iPrev (x :: xs)) :
    iPrev ≤ x ∧ x < 2 ^ 31 - 3 := h.2 x List.mem_cons_self

/-- `fts3ColumnlistCopy` skips the positions of a column. -/
theorem columnLength_encodePositions {iPrev : ℕ} {ps : List ℕ} (h : After iPrev ps)
    {rest : Bytes} (hrest : columnLength 0 rest = 0) :
    columnLength 0 (encodePositions iPrev ps ++ rest) = (encodePositions iPrev ps).length := by
  induction ps generalizing iPrev with
  | nil => exact hrest
  | cons x xs ih =>
    obtain ⟨hle, hlt⟩ := h.head
    rw [encodePositions, List.append_assoc, columnLength_varint (by omega) (by omega),
      ih h.tail, List.length_append]

/-- `fts3PoslistCopy` skips the positions of a column. -/
theorem poslistLength_encodePositions {iPrev : ℕ} {ps : List ℕ} (h : After iPrev ps)
    (rest : Bytes) : poslistLength 0 (encodePositions iPrev ps ++ rest) =
      (encodePositions iPrev ps).length + poslistLength 0 rest := by
  induction ps generalizing iPrev with
  | nil => exact (Nat.zero_add _).symm
  | cons x xs ih =>
    obtain ⟨hle, hlt⟩ := h.head
    rw [encodePositions, List.append_assoc, poslistLength_varint (by omega) (by omega),
      ih h.tail, List.length_append, Nat.add_assoc]

theorem Query.Poslist.Valid.after {iCol : ℕ} {ps : List ℕ} {p : Poslist}
    (h : Poslist.Valid ((iCol, ps) :: p)) (hs : Small ((iCol, ps) :: p)) : After 0 ps :=
  ⟨h.head, fun x hx => ⟨Nat.zero_le _, (hs _ List.mem_cons_self).2 x hx⟩⟩

theorem Small.tail {c : ℕ × List ℕ} {p : Poslist} (h : Small (c :: p)) : Small p :=
  fun d hd => h d (List.mem_cons_of_mem _ hd)

/-- A position list ends with its terminator. -/
theorem poslistLength_encode {p : Poslist} (hv : p.Valid) (hs : Small p) (rest : Bytes) :
    poslistLength 0 (encode p ++ rest) = (encode p).length := by
  have hcolumns : poslistLength 0 (encodeColumns p ++ (0 :: rest)) =
      (encodeColumns p).length + 1 := by
    induction p with
    | nil => rfl
    | cons c p ih =>
      obtain ⟨iCol, ps⟩ := c
      have hcol := (hs _ List.mem_cons_self).1
      rw [encodeColumns]
      split
      · rename_i hne
        have hone : ∀ xs : Bytes, poslistLength 0 (1 :: xs) = poslistLength 0 xs + 1 := fun _ => rfl
        rw [List.append_assoc, List.append_assoc, List.cons_append, hone,
          poslistLength_varint (by dsimp only at hcol; omega) (Nat.pos_of_ne_zero hne),
          poslistLength_encodePositions (hv.after hs), ih hv.tail hs.tail, List.length_append,
          List.length_append, List.length_cons]
        omega
      · rw [List.nil_append, List.append_assoc, poslistLength_encodePositions (hv.after hs),
          ih hv.tail hs.tail, List.length_append]
        omega
  rw [encode, List.append_assoc, List.singleton_append, hcolumns, List.length_append]
  rfl

/-! ### A list with fewer positions -/

/-- Fewer positions take no more bytes. -/
theorem length_encodePositions_le {iPrev : ℕ} {ms ps : List ℕ} (hp : ps.Pairwise (· < ·))
    (hm : ms.Pairwise (· < ·)) (hsub : ∀ x ∈ ms, x ∈ ps) :
    (encodePositions iPrev ms).length ≤ (encodePositions iPrev ps).length := by
  induction ps generalizing iPrev ms with
  | nil =>
    obtain rfl := List.eq_nil_iff_forall_not_mem.mpr fun x hx => List.not_mem_nil (hsub x hx)
    exact le_rfl
  | cons x xs ih =>
    obtain ⟨hx, hxs⟩ := List.pairwise_cons.mp hp
    cases ms with
    | nil => exact Nat.zero_le _
    | cons y ys =>
      obtain ⟨hy, hys⟩ := List.pairwise_cons.mp hm
      by_cases hxy : y = x
      · subst hxy
        have htail := @ih y ys hxs hys fun z hz =>
          (List.mem_cons.mp (hsub z (List.mem_cons_of_mem _ hz))).resolve_left
            fun heq => (hy z hz).ne heq.symm
        rw [encodePositions, encodePositions, List.length_append, List.length_append]
        omega
      · have hmem : y ∈ xs := (List.mem_cons.mp (hsub y List.mem_cons_self)).resolve_left hxy
        have hlt := hx y hmem
        have hrest := @ih x (y :: ys) hxs hm fun z hz => by
          refine (List.mem_cons.mp (hsub z hz)).resolve_left fun heq => ?_
          obtain rfl | hz := List.mem_cons.mp hz
          · exact hxy heq
          · have := hy z hz
            omega
        have hadd := length_varint_add (x + 2 - iPrev) (y + 2 - x)
        have hmono := length_varint_mono
          (by omega : y + 2 - iPrev ≤ x + 2 - iPrev + (y + 2 - x))
        simp only [encodePositions, List.length_append] at hrest ⊢
        omega

/-- A list with fewer positions has fewer bytes. -/
theorem length_encodeColumns_le {m p : Poslist} (hp : p.Valid) (hm : m.Valid)
    (hsub : ∀ iCol iPos, m.Has iCol iPos → p.Has iCol iPos) :
    (encodeColumns m).length ≤ (encodeColumns p).length := by
  induction p generalizing m with
  | nil =>
    have hnil : m = [] := by
      by_contra hne
      obtain ⟨iCol, iPos, hhas⟩ := hm.ne_nil_iff.mp hne
      exact Query.not_has_nil (hsub iCol iPos hhas)
    rw [hnil]
  | cons c p ih =>
    obtain ⟨iCol, ps⟩ := c
    cases m with
    | nil => exact Nat.zero_le _
    | cons d m =>
      obtain ⟨iCol', ms⟩ := d
      by_cases hcol : iCol' = iCol
      · subst hcol
        have hps := @length_encodePositions_le 0 ms ps hp.head hm.head fun x hx => by
          have hhas := Query.has_cons.mp (hsub iCol' x (Query.has_cons.mpr (.inl ⟨rfl, hx⟩)))
          exact (hhas.resolve_right fun h => (hp.lt_of_has h).ne rfl).2
        have htail := ih hp.tail hm.tail fun i x h => by
          have hlt := hm.lt_of_has h
          have hhas := Query.has_cons.mp (hsub i x (Query.has_cons.mpr (.inr h)))
          exact hhas.resolve_left fun heq => hlt.ne heq.1.symm
        simp only [encodeColumns, List.length_append]
        omega
      · have hlater : ∀ i x, Poslist.Has ((iCol', ms) :: m) i x → Poslist.Has p i x := by
          intro i x h
          have hhas := Query.has_cons.mp (hsub i x h)
          refine hhas.resolve_left fun heq => ?_
          obtain ⟨y, hy⟩ := List.exists_mem_of_ne_nil _ hm.head_ne
          have hfirst := Query.has_cons.mp (hsub iCol' y (Query.has_cons.mpr (.inl ⟨rfl, hy⟩)))
          have hlt : iCol < iCol' := hp.lt_of_has (hfirst.resolve_left fun h => hcol h.1)
          rcases Query.has_cons.mp h with h | h
          · omega
          · have := hm.lt_of_has h
            omega
        have htail := ih hp.tail hm hlater
        simp only [encodeColumns, List.length_append] at htail ⊢
        omega

/-- A part of a position list takes no more bytes than the whole. -/
theorem length_encode_le {m p : Poslist} (hp : p.Valid) (hm : m.Valid)
    (hsub : ∀ iCol iPos, m.Has iCol iPos → p.Has iCol iPos) :
    (encode m).length ≤ (encode p).length := by
  rw [encode, encode, List.length_append, List.length_append]
  exact Nat.add_le_add_right (length_encodeColumns_le hp hm hsub) 1

end Fts3

end SqliteVms

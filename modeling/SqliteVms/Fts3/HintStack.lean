import SqliteVms.Fts3.DoclistIterSteps

/-!
# Varints from behind, and the stack of merge hints

A hint is two varints, and the hints are pushed at the end of a blob. To pop one the two varints
have to be found from behind, where only the high bits of the bytes tell where one begins.
`fts3IncrmergeHintPop` takes the last byte for all of the second varint, and then the loop that is
there to find the first one has nothing left to do.

The memory is a function of the address, 0 being the first byte of the blob or list.

## Main definitions

* `fts3GetReverseVarint` — the varint before a pointer
* `fts3IncrmergeHintPush`, `fts3IncrmergeHintPop` — the stack
* `PopsBack`, `ReadsInside` — what is asked of a pop

## Main results

* `back_spec` — where a search for high bits stops
* `popsBack_iff`, `readsInside_iff` — when a pop does what is asked of it
* `hintStack_iff` — the varints, and the stack
-/

namespace SqliteVms

namespace Fts3

namespace Hint

/-! ### The code -/

/-- The bytes by their addresses. -/
abbrev Memory := ℤ → UInt8

/-- `sqlite3Fts3GetVarint`: the value and the number of bytes. It reads no more than 11. -/
def getVarintAt (a : Memory) (p : ℤ) : ℤ × ℕ :=
  getVarint ((List.range 11).map fun k : ℕ => a (p + k))

/-- `sqlite3Fts3GetVarint32`. -/
def getVarint32At (a : Memory) (p : ℤ) : ℤ × ℕ :=
  (Int.bmod (getVarintAt a p).1 (2 ^ 32), (getVarintAt a p).2)

/-- The loop of `sqlite3Fts3VarintLen`. -/
def varintLenLoop : ℕ → ℕ → ℕ
  | 0, _ => 0
  | n + 1, v => if v / 128 = 0 then 1 else varintLenLoop n (v / 128) + 1

def sqlite3Fts3VarintLen (v : ℤ) : ℕ := varintLenLoop 10 (v % 2 ^ 64).toNat

/-- The loop over bytes with a high bit, from index `i - 1` down to 0: where it stops, and the
addresses read. -/
def back (a : Memory) : ℕ → ℕ × List ℤ
  | 0 => (0, [])
  | i + 1 =>
    if a i &&& 0x80 ≠ 0 then ((back a i).1, (i : ℤ) :: (back a i).2) else (i + 1, [(i : ℤ)])

/-- `fts3GetReverseVarint`, with `pStart` at 0: the new `*pp` and `*pVal`. -/
def fts3GetReverseVarint (a : Memory) (pp : ℕ) : ℕ × ℤ :=
  let p := (back a (pp - 1)).1
  (p, (getVarintAt a p).1)

/-- `fts3IncrmergeHintPush`, by the bytes of the blob. -/
def fts3IncrmergeHintPush (hint : Bytes) (iAbsLevel nInput : ℤ) : Bytes :=
  hint ++ putVarint iAbsLevel ++ putVarint nInput

/-- What `fts3IncrmergeHintPop` leaves behind: whether it returns `SQLITE_OK`, `*piAbsLevel`,
`*pnInput`, `pHint->n` and the addresses read. -/
structure Popped where
  ok : Bool
  iAbsLevel : ℤ
  nInput : ℤ
  n : ℤ
  reads : List ℤ

/-- One of the two loops of `fts3IncrmergeHintPop`. -/
def stepBack (a : Memory) (i : ℤ) : ℤ × List ℤ :=
  if 0 < i then ((back a i.toNat).1, (back a i.toNat).2) else (i, [])

/-- The addresses of `k` bytes from `p` on. -/
def span (p : ℤ) (k : ℕ) : List ℤ := (List.range k).map fun j : ℕ => p + j

def fts3IncrmergeHintPop (a : Memory) (nHint : ℤ) : Popped :=
  let l := stepBack a (nHint - 2)
  let l' := stepBack a l.1
  let i := l'.1
  let v := getVarintAt a i
  let w := getVarint32At a (i + v.2)
  ⟨i + v.2 + w.2 = nHint, v.1, w.1, i, l.2 ++ l'.2 ++ span i v.2 ++ span (i + v.2) w.2⟩

/-! ### Going back -/

variable {a : Memory} {z : Bytes} {m k i n : ℕ} {p : ℤ}

/-- **Going back.** The search stops behind the last byte without a high bit. -/
theorem back_spec (hmk : m ≤ k) (hhigh : ∀ j : ℕ, m ≤ j → j < k → a j &&& 0x80 ≠ 0)
    (hlow : m = 0 ∨ a (m - 1 : ℕ) &&& 0x80 = 0) : (back a k).1 = m := by
  induction k with
  | zero => exact (Nat.le_zero.mp hmk).symm
  | succ k ih =>
    rw [back]
    rcases Nat.lt_or_ge k m with hlt | hle
    · obtain rfl : m = k + 1 := by omega
      have hk : a k &&& 0x80 = 0 := hlow.resolve_left (by omega)
      rw [if_neg (not_not.mpr hk)]
    · rw [if_pos (hhigh k hle (by omega))]
      exact ih hle fun j hj hjk => hhigh j hj (by omega)

theorem back_reads : ∀ r ∈ (back a k).2, 0 ≤ r ∧ r < k := by
  induction k with
  | zero => exact fun r hr => absurd hr List.not_mem_nil
  | succ k ih =>
    intro r hr
    rw [back] at hr
    split at hr
    · rcases List.mem_cons.mp hr with rfl | hr
      · omega
      · have := ih r hr
        omega
    · obtain rfl := List.mem_singleton.mp hr
      omega

/-- What the search found: bytes with a high bit, and before them one without. -/
theorem back_found (a : Memory) (k : ℕ) : (back a k).1 ≤ k ∧
    (∀ j : ℕ, (back a k).1 ≤ j → j < k → a j &&& 0x80 ≠ 0) ∧
    ((back a k).1 = 0 ∨ a ((back a k).1 - 1 : ℕ) &&& 0x80 = 0) := by
  induction k with
  | zero => exact ⟨le_rfl, fun j _ hj => absurd hj (Nat.not_lt_zero j), Or.inl rfl⟩
  | succ k ih =>
    rw [back]
    split
    case isTrue hk =>
      refine ⟨by have := ih.1; omega, fun j hj hjk => ?_, ih.2.2⟩
      rcases Nat.lt_succ_iff_lt_or_eq.mp hjk with hlt | rfl
      · exact ih.2.1 j hj hlt
      · exact hk
    case isFalse hk =>
      exact ⟨le_rfl, fun j hj hjk => absurd hj (by dsimp only; omega), Or.inr (not_not.mp hk)⟩

/-- A second search stops where it starts. -/
theorem back_again (a : Memory) (k : ℕ) : (back a (back a k).1).1 = (back a k).1 := by
  obtain ⟨-, -, hlow⟩ := back_found a k
  exact back_spec le_rfl (fun j hj hjk => absurd hj (not_le.mpr hjk)) hlow

/-! ### Reading a varint -/

/-- The blob in the memory. -/
def IsBlob (a : Memory) (z : Bytes) : Prop := ∀ k < z.length, z[k]? = some (a k)

theorem high_iff (b : UInt8) : b &&& 0x80 = 0x80 ↔ b &&& 0x80 ≠ 0 := by
  rcases Nat.lt_or_ge b.toNat 128 with hlt | hge
  · have hb := (low_byte hlt).1
    rw [UInt8.ofNat_toNat] at hb
    rw [hb]
    exact iff_of_false (by decide) (by decide)
  · have hb := (high_byte (v := b.toNat - 128) (by have := b.toNat_lt; omega)).1
    rw [Nat.sub_add_cancel hge, UInt8.ofNat_toNat] at hb
    rw [hb]
    exact iff_of_true rfl (by decide)

theorem varintLoop_le (n x y : ℕ) (bs : Bytes) : (varintLoop n x y bs).2 ≤ n + 1 := by
  induction n generalizing x y bs with
  | zero => cases bs <;> exact le_rfl
  | succ n ih =>
    cases bs with
    | nil => exact Nat.le_add_left 1 _
    | cons b bs =>
      rw [varintLoop]
      split
      · exact Nat.succ_le_succ (ih _ _ bs)
      · exact Nat.le_add_left 1 _

/-- Bytes with a high bit are read on. -/
theorem lt_varintLoop {c : ℕ} (n x y : ℕ) {bs : Bytes} (hc : c ≤ n)
    (hhigh : ∀ j < c, ∃ b, bs[j]? = some b ∧ b &&& 0x80 ≠ 0) : c < (varintLoop n x y bs).2 := by
  induction n generalizing x y bs c with
  | zero =>
    obtain rfl := Nat.le_zero.mp hc
    cases bs <;> exact Nat.one_pos
  | succ n ih =>
    rcases Nat.eq_zero_or_pos c with rfl | hpos
    · cases bs with
      | nil => exact Nat.one_pos
      | cons b bs =>
        rw [varintLoop]
        split
        · exact Nat.succ_pos _
        · exact Nat.one_pos
    · obtain ⟨b, hb, hbit⟩ := hhigh 0 hpos
      obtain ⟨bs, rfl⟩ : ∃ bs', bs = b :: bs' := by
        cases bs with
        | nil => exact absurd hb.symm (Option.some_ne_none b)
        | cons b' bs => exact ⟨bs, by rw [Option.some.inj hb]⟩
      rw [varintLoop, if_pos ((high_iff b).mpr hbit)]
      have hhigh' : ∀ j < c - 1, ∃ b, bs[j]? = some b ∧ b &&& 0x80 ≠ 0 := fun j hj =>
        hhigh (j + 1) (by omega)
      have hlt := ih (x + y * (b &&& 0x7f).toNat) (y * 128) (by omega) hhigh'
      change c < _ + 1
      omega

/-- A byte without a high bit is the last. -/
theorem varintLoop_le_of_low {j : ℕ} (n x y : ℕ) {bs : Bytes} {b : UInt8} (hj : bs[j]? = some b)
    (hlow : b &&& 0x80 = 0) : (varintLoop n x y bs).2 ≤ j + 1 := by
  induction n generalizing x y bs j with
  | zero => cases bs <;> exact Nat.le_add_left 1 _
  | succ n ih =>
    cases bs with
    | nil => exact Nat.le_add_left 1 _
    | cons c bs =>
      rw [varintLoop]
      split
      case isTrue hc =>
        cases j with
        | zero =>
          obtain rfl := Option.some.inj hj
          exact absurd hlow ((high_iff c).mp hc)
        | succ j => exact Nat.succ_le_succ (ih _ _ hj)
      case isFalse => exact Nat.le_add_left 1 _

theorem window_getElem (a : Memory) (p : ℤ) {j : ℕ} (hj : j < 11) :
    ((List.range 11).map fun k : ℕ => a (p + k))[j]? = some (a (p + j)) := by
  rw [List.getElem?_map, List.getElem?_range hj]
  rfl

theorem getVarintAt_le (a : Memory) (p : ℤ) : (getVarintAt a p).2 ≤ 11 :=
  varintLoop_le 10 0 1 ((List.range 11).map fun k : ℕ => a (p + k))

theorem lt_getVarintAt {c : ℕ} (hc : c ≤ 10) (hhigh : ∀ j : ℕ, j < c → a (p + j) &&& 0x80 ≠ 0) :
    c < (getVarintAt a p).2 :=
  lt_varintLoop 10 0 1 hc fun j hj => ⟨_, window_getElem a p (by omega), hhigh j hj⟩

theorem getVarintAt_le_of_low {j : ℕ} (hj : j ≤ 10) (hlow : a (p + j) &&& 0x80 = 0) :
    (getVarintAt a p).2 ≤ j + 1 :=
  varintLoop_le_of_low 10 0 1 (window_getElem a p (by omega)) hlow

/-- A varint in a blob. -/
theorem getVarintAt_blob {pre rest : Bytes} {v : ℤ}
    (hz : IsBlob a (pre ++ (putVarint v ++ rest))) :
    getVarintAt a pre.length = (v.bmod (2 ^ 64), (putVarint v).length) := by
  have hpre : putVarint v <+: (List.range 11).map fun k : ℕ => a ((pre.length : ℤ) + k) := by
    rw [List.prefix_iff_getElem?]
    intro j hj
    have hlen := length_varint_le (v % 2 ^ 64).toNat
    have hj10 : j < 10 := Nat.lt_of_lt_of_le hj hlen
    have hget := hz (pre.length + j) (by simp only [List.length_append]; omega)
    rw [List.getElem?_append_right (by omega), Nat.add_sub_cancel_left,
      List.getElem?_append_left hj, Nat.cast_add] at hget
    rw [window_getElem a _ (by omega), ← hget, List.getElem?_eq_getElem hj]
  obtain ⟨t, ht⟩ := hpre
  rw [getVarintAt, ← ht, getVarint_putVarint]

theorem length_putVarintLoop_eq (n v : ℕ) : (putVarintLoop n v).length = varintLenLoop n v := by
  induction n generalizing v with
  | zero => rfl
  | succ n ih =>
    rw [putVarintLoop, varintLenLoop]
    by_cases hv : v < 128
    · rw [if_pos hv, if_pos (Nat.div_eq_of_lt hv)]
      rfl
    · rw [if_neg hv, if_neg (by omega), List.length_cons, ih]

/-! ### Popping -/

theorem IsBlob.at_of_eq {pre rest : Bytes} {b : UInt8} (hz : IsBlob a z)
    (h : z = pre ++ b :: rest) : a pre.length = b := by
  have hget := hz pre.length (by rw [h, List.length_append, List.length_cons]; omega)
  rw [h, List.getElem?_append_right le_rfl, Nat.sub_self] at hget
  exact (Option.some.inj hget).symm

/-- The end of a blob before which another varint begins. -/
def Closed (z : Bytes) : Prop := z = [] ∨ ∃ pre b, z = pre ++ [b] ∧ b &&& 0x80 = 0

theorem closed_append (z : Bytes) (v : ℤ) : Closed (z ++ putVarint v) := by
  obtain ⟨init, last, heq, -, hlast, -⟩ := Iter.putVarint_bytes v
  exact Or.inr ⟨z ++ init, last, by rw [heq, List.append_assoc], hlast⟩

/-- **A varint found from behind**, from any of its bytes or from its end. -/
theorem back_varint {pre rest : Bytes} {v : ℤ} (hpre : Closed pre)
    (hz : IsBlob a (pre ++ (putVarint v ++ rest))) (hk : pre.length ≤ k)
    (hk' : k < pre.length + (putVarint v).length) : (back a k).1 = pre.length := by
  obtain ⟨init, last, heq, hinit, -, -⟩ := Iter.putVarint_bytes v
  rw [heq, List.length_append, List.length_singleton] at hk'
  refine back_spec hk (fun j hj hjk => ?_) ?_
  · have hget := hz j (by rw [heq]; simp only [List.length_append]; omega)
    have hj' : j - pre.length < init.length := by omega
    rw [List.getElem?_append_right hj, heq, List.append_assoc, List.getElem?_append_left hj',
      List.getElem?_eq_getElem hj'] at hget
    rw [← Option.some.inj hget]
    exact hinit _ (List.getElem_mem _)
  · rcases hpre with rfl | ⟨pre', b, rfl, hb⟩
    · exact Or.inl rfl
    · refine Or.inr ?_
      rw [List.append_assoc, List.singleton_append] at hz
      rw [List.length_append, List.length_singleton, Nat.add_sub_cancel, hz.at_of_eq rfl]
      exact hb

theorem stepBack_natCast (a : Memory) (k : ℕ) :
    stepBack a k = (((back a k).1 : ℤ), (back a k).2) := by
  cases k with
  | zero => rfl
  | succ k =>
    rw [stepBack, if_pos (by omega)]
    rfl

/-- A pop from a blob of two bytes or more. -/
theorem pop_eq (a : Memory) (hn : 2 ≤ n) (hm : (back a (n - 2)).1 = m) :
    ∃ reads : List ℤ, (∀ r ∈ reads, 0 ≤ r ∧ r < n) ∧ fts3IncrmergeHintPop a n =
      ⟨m + (getVarintAt a m).2 + (getVarintAt a (m + (getVarintAt a m).2)).2 = (n : ℤ),
        (getVarintAt a m).1, Int.bmod (getVarintAt a (m + (getVarintAt a m).2)).1 (2 ^ 32), m,
        reads ++ span m (getVarintAt a m).2 ++ span (m + (getVarintAt a m).2)
          (getVarintAt a (m + (getVarintAt a m).2)).2⟩ := by
  have hagain : (back a m).1 = m := hm ▸ back_again a (n - 2)
  have hle : m ≤ n - 2 := hm ▸ (back_found a (n - 2)).1
  have hfirst : stepBack a ((n : ℤ) - 2) = ((m : ℤ), (back a (n - 2)).2) := by
    rw [show (n : ℤ) - 2 = (n - 2 : ℕ) by omega, stepBack_natCast, hm]
  refine ⟨(back a (n - 2)).2 ++ (back a m).2, fun r hr => ?_, ?_⟩
  · rcases List.mem_append.mp hr with hr | hr
    · have := back_reads r hr
      omega
    · have := back_reads r hr
      omega
  · rw [fts3IncrmergeHintPop, hfirst]
    simp only [stepBack_natCast, hagain, getVarint32At]

/-- The hint that was pushed last is popped, and the blob is what it was. -/
def PopsBack (z : Bytes) (iAbsLevel nInput : ℤ) : Prop :=
  ∀ a, IsBlob a (fts3IncrmergeHintPush z iAbsLevel nInput) →
    let r := fts3IncrmergeHintPop a (fts3IncrmergeHintPush z iAbsLevel nInput).length
    r.ok = true ∧ r.iAbsLevel = iAbsLevel ∧ r.nInput = nInput ∧ r.n = z.length

theorem exists_isBlob (z : Bytes) : ∃ a, IsBlob a z :=
  ⟨fun k => z.getD k.toNat 0, fun k hk => by
    change z[k]? = some (z.getD ((k : ℤ)).toNat 0)
    rw [Int.toNat_natCast, List.getD_eq_getElem?_getD, List.getElem?_eq_getElem hk]
    rfl⟩

/-- **Popping what was pushed.** The second varint has to be a single byte. -/
theorem popsBack_iff (hz : Closed z) {iAbsLevel nInput : ℤ} (h0 : 0 ≤ iAbsLevel)
    (hlevel : iAbsLevel < 2 ^ 63) (h1 : 1 ≤ nInput) (hinput : nInput < 2 ^ 31) :
    PopsBack z iAbsLevel nInput ↔ nInput < 128 := by
  have hbig : iAbsLevel.bmod (2 ^ 64) = iAbsLevel := Int.bmod_eq_of_le (by omega) (by omega)
  have hwide : nInput.bmod (2 ^ 64) = nInput := Int.bmod_eq_of_le (by omega) (by omega)
  have hsmall : nInput.bmod (2 ^ 32) = nInput := Int.bmod_eq_of_le (by omega) (by omega)
  have hmod : nInput % 2 ^ 64 = nInput := by omega
  obtain ⟨init, last, heq, -, -, -, hinit⟩ := Iter.putVarint_bytes nInput
  rw [hmod] at hinit
  have hinlen : (putVarint nInput).length = init.length + 1 := by
    rw [heq, List.length_append, List.length_singleton]
  have hllen : 0 < (putVarint iAbsLevel).length := length_varint_pos _
  have hlen : (fts3IncrmergeHintPush z iAbsLevel nInput).length =
      z.length + (putVarint iAbsLevel).length + (putVarint nInput).length := by
    rw [fts3IncrmergeHintPush, List.length_append, List.length_append]
  have hsecond : ∀ {a}, IsBlob a (fts3IncrmergeHintPush z iAbsLevel nInput) →
      getVarintAt a ((z.length : ℤ) + (putVarint iAbsLevel).length) =
        (nInput.bmod (2 ^ 64), (putVarint nInput).length) := fun {a} ha => by
    have ha' : IsBlob a ((z ++ putVarint iAbsLevel) ++ (putVarint nInput ++ [])) := by
      rwa [List.append_nil]
    have hget := getVarintAt_blob ha'
    rwa [List.length_append, Nat.cast_add] at hget
  constructor
  · intro hpops
    by_contra hge
    obtain ⟨a, ha⟩ := exists_isBlob (fts3IncrmergeHintPush z iAbsLevel nInput)
    have hpos : 0 < init.length := List.length_pos_iff.mpr fun hnil => hge (hinit.mp hnil)
    -- both loops stop at the second varint, which is taken for the first
    have ha' : IsBlob a ((z ++ putVarint iAbsLevel) ++ (putVarint nInput ++ [])) := by
      rwa [List.append_nil]
    have hback := back_varint (closed_append z iAbsLevel) ha'
      (k := (fts3IncrmergeHintPush z iAbsLevel nInput).length - 2)
      (by rw [hlen, List.length_append]; omega) (by rw [hlen, List.length_append]; omega)
    obtain ⟨reads, -, hpop⟩ := pop_eq a (n := (fts3IncrmergeHintPush z iAbsLevel nInput).length)
      (by omega) hback
    have hok := (hpops a ha).1
    rw [hpop] at hok
    have hsum := of_decide_eq_true hok
    have hnext : 0 < (getVarintAt a ((z.length : ℤ) + (putVarint iAbsLevel).length +
        (putVarint nInput).length)).2 :=
      lt_getVarintAt (Nat.zero_le _) fun j hj => absurd hj (by omega)
    rw [List.length_append, Nat.cast_add, hsecond ha] at hsum
    dsimp only at hsum
    omega
  · intro hlt a ha
    have hnil : init.length = 0 := List.length_eq_zero_iff.mpr (hinit.mpr hlt)
    have ha' : IsBlob a (z ++ (putVarint iAbsLevel ++ putVarint nInput)) := by
      rwa [← List.append_assoc]
    have hback := back_varint hz ha' (k := (fts3IncrmergeHintPush z iAbsLevel nInput).length - 2)
      (by omega) (by omega)
    obtain ⟨reads, -, hpop⟩ := pop_eq a (n := (fts3IncrmergeHintPush z iAbsLevel nInput).length)
      (by omega) hback
    have hfirst := getVarintAt_blob ha'
    dsimp only
    rw [hpop, hfirst]
    dsimp only
    rw [hsecond ha]
    rw [hwide]
    exact ⟨decide_eq_true (by rw [hlen]; push_cast; rfl), hbig, hsmall, rfl⟩

/-! ### Damaged blobs -/

/-- A pop reads only the `n` bytes of the blob. -/
def ReadsInside (a : Memory) (n : ℕ) : Prop := ∀ r ∈ (fts3IncrmergeHintPop a n).reads, 0 ≤ r ∧ r < n

/-- With `k` bytes before the last two that have a high bit, and no more of them, two varints end in
the blob. A varint is cut off after 11 bytes. -/
def EndsInside (a : Memory) (n : ℕ) : Prop :=
  2 ≤ n ∧ ∃ k ≤ n - 2, (∀ j : ℕ, n - 2 - k ≤ j → j < n - 2 → a j &&& 0x80 ≠ 0) ∧
    (n - 2 - k = 0 ∨ a (n - 2 - k - 1 : ℕ) &&& 0x80 = 0) ∧
    (k < 10 ∧ a (n - 2 : ℕ) &&& 0x80 = 0 ∧ a (n - 1 : ℕ) &&& 0x80 = 0 ∨
      k = 10 ∧ a (n - 1 : ℕ) &&& 0x80 = 0 ∨
      (11 ≤ k ∧ k ≤ 19) ∧ (a (n - 2 : ℕ) &&& 0x80 = 0 ∨ a (n - 1 : ℕ) &&& 0x80 = 0) ∨ 20 ≤ k)

theorem mem_span {q r : ℤ} : r ∈ span q k ↔ q ≤ r ∧ r < q + k := by
  rw [span, List.mem_map]
  constructor
  · rintro ⟨j, hj, rfl⟩
    have := List.mem_range.mp hj
    omega
  · rintro ⟨hle, hlt⟩
    exact ⟨(r - q).toNat, List.mem_range.mpr (by omega), by omega⟩

/-- The first varint read is at `m`, and no byte outside is read if the second ends in the blob. -/
theorem readsInside_iff_le (hn : 2 ≤ n) (hm : (back a (n - 2)).1 = m) :
    ReadsInside a n ↔
      m + (getVarintAt a m).2 + (getVarintAt a (m + (getVarintAt a m).2 : ℕ)).2 ≤ n := by
  obtain ⟨reads, hreads, hpop⟩ := pop_eq a hn hm
  have hpos : 0 < (getVarintAt a (m + (getVarintAt a m).2 : ℕ)).2 :=
    lt_getVarintAt (Nat.zero_le _) fun j hj => absurd hj (Nat.not_lt_zero j)
  rw [ReadsInside, hpop, Nat.cast_add] at *
  constructor
  · intro hall
    have := hall (m + (getVarintAt a m).2 +
      ((getVarintAt a ((m : ℤ) + (getVarintAt a m).2)).2 - 1 : ℕ))
      (List.mem_append_right _ (mem_span.mpr (by omega)))
    omega
  · intro hle r hr
    rcases List.mem_append.mp hr with hr | hr
    · rcases List.mem_append.mp hr with hr | hr
      · exact hreads r hr
      · have := mem_span.mp hr
        omega
    · have := mem_span.mp hr
      omega

theorem lt_length {c : ℕ} (a : Memory) (m : ℕ) (hc : c ≤ 10)
    (hhigh : ∀ j : ℕ, m ≤ j → j < m + c → a j &&& 0x80 ≠ 0) : c < (getVarintAt a m).2 :=
  lt_getVarintAt hc fun j hj => by
    have := hhigh (m + j) (by omega) (by omega)
    rwa [Nat.cast_add] at this

theorem length_le {j : ℕ} (a : Memory) (m : ℕ) (hmj : m ≤ j) (hj : j ≤ m + 10)
    (hlow : a j &&& 0x80 = 0) : (getVarintAt a m).2 ≤ j - m + 1 :=
  getVarintAt_le_of_low (j := j - m) (by omega) (by
    rwa [show (m : ℤ) + (j - m : ℕ) = j by omega])

/-- Two varints from `m` on, where `k` bytes with a high bit are followed by two more. -/
theorem ends_iff (hhigh : ∀ j : ℕ, m ≤ j → j < m + k → a j &&& 0x80 ≠ 0) :
    m + (getVarintAt a m).2 + (getVarintAt a (m + (getVarintAt a m).2 : ℕ)).2 ≤ m + k + 2 ↔
      k < 10 ∧ a (m + k : ℕ) &&& 0x80 = 0 ∧ a (m + k + 1 : ℕ) &&& 0x80 = 0 ∨
        k = 10 ∧ a (m + k + 1 : ℕ) &&& 0x80 = 0 ∨
        (11 ≤ k ∧ k ≤ 19) ∧ (a (m + k : ℕ) &&& 0x80 = 0 ∨ a (m + k + 1 : ℕ) &&& 0x80 = 0) ∨
        20 ≤ k := by
  have hmax := getVarintAt_le a m
  have hmax' := getVarintAt_le a (m + (getVarintAt a m).2 : ℕ)
  have hsnoc : a (m + k : ℕ) &&& 0x80 ≠ 0 → ∀ j : ℕ, m ≤ j → j < m + (k + 1) → a j &&& 0x80 ≠ 0 :=
    fun hA j hj hjk => by
      rcases Nat.lt_or_eq_of_le (Nat.lt_succ_iff.mp hjk) with hlt | rfl
      · exact hhigh j hj hlt
      · exact hA
  have hlast : a (m + k : ℕ) &&& 0x80 ≠ 0 → a (m + k + 1 : ℕ) &&& 0x80 ≠ 0 →
      ∀ j : ℕ, m ≤ j → j < m + (k + 2) → a j &&& 0x80 ≠ 0 := fun hA hB j hj hjk => by
    rcases Nat.lt_or_eq_of_le (Nat.lt_succ_iff.mp hjk) with hlt | rfl
    · exact hsnoc hA j hj hlt
    · exact hB
  rcases Nat.lt_or_ge k 10 with hk | hk
  · by_cases hA : a (m + k : ℕ) &&& 0x80 = 0
    · have hone : (getVarintAt a m).2 = k + 1 := by
        have := lt_length a m (c := k) (by omega) hhigh
        have := length_le a m (Nat.le_add_right m k) (by omega) hA
        omega
      rw [hone]
      by_cases hB : a (m + k + 1 : ℕ) &&& 0x80 = 0
      · have := length_le a (m + (k + 1)) (j := m + k + 1) (by omega) (by omega) hB
        exact iff_of_true (by omega) (Or.inl ⟨hk, hA, hB⟩)
      · have := lt_length a (m + (k + 1)) (c := 1) (by omega) fun j hj hjk => by
          obtain rfl : j = m + k + 1 := by omega
          exact hB
        refine iff_of_false (by omega) ?_
        rintro (⟨-, -, hB'⟩ | ⟨rfl, -⟩ | ⟨⟨h11, -⟩, -⟩ | h20)
        · exact hB hB'
        all_goals omega
    · have := lt_length a m (c := k + 1) (by omega) (hsnoc hA)
      have := lt_length a (m + (getVarintAt a m).2) (c := 0) (by omega)
        fun j hj hjk => absurd hjk (by omega)
      refine iff_of_false (by omega) ?_
      rintro (⟨-, hA', -⟩ | ⟨rfl, -⟩ | ⟨⟨h11, -⟩, -⟩ | h20)
      · exact hA hA'
      all_goals omega
  · have hone : (getVarintAt a m).2 = 11 := by
      have := lt_length a m (c := 10) le_rfl fun j hj hjk => hhigh j hj (by omega)
      omega
    rw [hone] at hmax' ⊢
    rcases Nat.lt_or_ge k 20 with hk20 | hk20
    case inr => exact iff_of_true (by omega) (Or.inr (Or.inr (Or.inr hk20)))
    rcases Nat.eq_or_lt_of_le hk with rfl | hk11
    · by_cases hB : a (m + 10 + 1 : ℕ) &&& 0x80 = 0
      · have := length_le a (m + 11) (j := m + 10 + 1) (by omega) (by omega) hB
        exact iff_of_true (by omega) (Or.inr (Or.inl ⟨rfl, hB⟩))
      · have := lt_length a (m + 11) (c := 1) (by omega) fun j hj hjk => by
          obtain rfl : j = m + 10 + 1 := by omega
          exact hB
        refine iff_of_false (by omega) ?_
        rintro (⟨h10, -⟩ | ⟨-, hB'⟩ | ⟨⟨h11, -⟩, -⟩ | h20)
        · omega
        · exact hB hB'
        all_goals omega
    by_cases hA : a (m + k : ℕ) &&& 0x80 = 0
    · have := length_le a (m + 11) (j := m + k) (by omega) (by omega) hA
      exact iff_of_true (by omega) (Or.inr (Or.inr (Or.inl ⟨by omega, Or.inl hA⟩)))
    by_cases hB : a (m + k + 1 : ℕ) &&& 0x80 = 0
    · have := length_le a (m + 11) (j := m + k + 1) (by omega) (by omega) hB
      exact iff_of_true (by omega) (Or.inr (Or.inr (Or.inl ⟨by omega, Or.inr hB⟩)))
    have := lt_length a (m + 11) (c := k - 9) (by omega)
      fun j hj hjk => hlast hA hB j (by omega) (by omega)
    refine iff_of_false (by omega) ?_
    rintro (⟨h10, -⟩ | ⟨rfl, -⟩ | ⟨-, hA' | hB'⟩ | h20)
    · omega
    · omega
    · exact hA hA'
    · exact hB hB'
    · omega

/-- **Popping from any bytes.** -/
theorem readsInside_iff (a : Memory) (n : ℕ) : ReadsInside a n ↔ EndsInside a n := by
  rcases Nat.lt_or_ge n 2 with hn | hn
  · refine iff_of_false (fun hreads => ?_) fun hends => absurd hends.1 (not_le.mpr hn)
    have hpos : 0 < (getVarintAt a ((n : ℤ) - 2)).2 :=
      lt_getVarintAt (Nat.zero_le _) fun j hj => absurd hj (Nat.not_lt_zero j)
    have hback : stepBack a ((n : ℤ) - 2) = ((n : ℤ) - 2, []) := by rw [stepBack, if_neg (by omega)]
    have hmem : (n : ℤ) - 2 ∈ (fts3IncrmergeHintPop a n).reads := by
      simp only [fts3IncrmergeHintPop, hback]
      exact List.mem_append_left _ (List.mem_append_right _ (mem_span.mpr (by omega)))
    have := hreads _ hmem
    omega
  -- `m` is where the search stops, `k` bytes before the last two
  have hends : ∀ {m k : ℕ}, m + k + 2 = n → (∀ j : ℕ, m ≤ j → j < m + k → a j &&& 0x80 ≠ 0) →
      (m = 0 ∨ a (m - 1 : ℕ) &&& 0x80 = 0) → (ReadsInside a n ↔
        k < 10 ∧ a (m + k : ℕ) &&& 0x80 = 0 ∧ a (m + k + 1 : ℕ) &&& 0x80 = 0 ∨
          k = 10 ∧ a (m + k + 1 : ℕ) &&& 0x80 = 0 ∨
          (11 ≤ k ∧ k ≤ 19) ∧ (a (m + k : ℕ) &&& 0x80 = 0 ∨ a (m + k + 1 : ℕ) &&& 0x80 = 0) ∨
          20 ≤ k) := fun {m k} hmk hhigh hlow => by
    have hback : (back a (n - 2)).1 = m :=
      back_spec (by omega) (fun j hj hjk => hhigh j hj (by omega)) hlow
    rw [readsInside_iff_le hn hback, ← hmk]
    exact ends_iff hhigh
  constructor
  · intro hreads
    obtain ⟨hle, hhigh, hlow⟩ := back_found a (n - 2)
    have hsub : n - 2 - (n - 2 - (back a (n - 2)).1) = (back a (n - 2)).1 := by omega
    have hiff := hends (m := (back a (n - 2)).1) (k := n - 2 - (back a (n - 2)).1) (by omega)
      (fun j hj hjk => hhigh j hj (by omega)) hlow
    rw [Nat.add_sub_cancel' hle, show n - 2 + 1 = n - 1 by omega] at hiff
    refine ⟨hn, n - 2 - (back a (n - 2)).1, by omega, ?_, ?_, hiff.mp hreads⟩
    · rw [hsub]
      exact hhigh
    · rw [hsub]
      exact hlow
  · rintro ⟨-, k, hk, hhigh, hlow, hcases⟩
    have hiff := hends (m := n - 2 - k) (k := k) (by omega)
      (fun j hj hjk => hhigh j hj (by omega)) hlow
    rw [Nat.sub_add_cancel hk, show n - 2 + 1 = n - 1 by omega] at hiff
    exact hiff.mpr hcases

/-! ### All of it -/

/-- Blobs built by pushes. -/
inductive Pushed : Bytes → Prop
  | empty : Pushed []
  | push {z : Bytes} (iAbsLevel nInput : ℤ) (hz : Pushed z) :
    Pushed (fts3IncrmergeHintPush z iAbsLevel nInput)

theorem Pushed.closed (h : Pushed z) : Closed z := by
  cases h with
  | empty => exact Or.inl rfl
  | push iAbsLevel nInput => exact closed_append _ nInput

theorem closed_flatMap (vs : List ℤ) : Closed (vs.flatMap putVarint) := by
  rcases List.eq_nil_or_concat vs with rfl | ⟨init, v, rfl⟩
  · exact Or.inl rfl
  · rw [List.concat_eq_append, List.flatMap_append, List.flatMap_singleton]
    exact closed_append _ v

/-- A varint that was written is read again. -/
def ReadsBack (v : ℤ) : Prop :=
  (∀ rest, getVarint (putVarint v ++ rest) = (v, (putVarint v).length)) ∧
    (putVarint v).length = sqlite3Fts3VarintLen v ∧ (putVarint v).length ≤ 10

/-- The last of some varints is found from behind. -/
def ReadsLast (vs : List ℤ) (v : ℤ) : Prop :=
  ∀ a, IsBlob a (vs.flatMap putVarint ++ putVarint v) →
    fts3GetReverseVarint a (vs.flatMap putVarint ++ putVarint v).length =
      ((vs.flatMap putVarint).length, v)

theorem readsBack {v : ℤ} (hlow : -2 ^ 63 ≤ v) (hhigh : v < 2 ^ 63) : ReadsBack v := by
  refine ⟨fun rest => ?_, length_putVarintLoop_eq 10 _, length_varint_le _⟩
  rw [getVarint_putVarint, Int.bmod_eq_of_le (by omega) (by omega)]

theorem readsLast (vs : List ℤ) {v : ℤ} (hlow : -2 ^ 63 ≤ v) (hhigh : v < 2 ^ 63) :
    ReadsLast vs v := fun a ha => by
  have hpos : 0 < (putVarint v).length := length_varint_pos _
  have ha' : IsBlob a (vs.flatMap putVarint ++ (putVarint v ++ [])) := by rwa [List.append_nil]
  rw [fts3GetReverseVarint, back_varint (closed_flatMap vs) ha'
    (by rw [List.length_append]; omega) (by rw [List.length_append]; omega),
    getVarintAt_blob ha', Int.bmod_eq_of_le (by omega) (by omega)]

/-- **Varints and hints.** Varints are read back, and found from behind. A hint is popped as it was
pushed exactly if its second varint is below 128, and a pop reads only inside the blob exactly if
two varints end there. -/
theorem hintStack_iff {v : ℤ} (hlow : -2 ^ 63 ≤ v) (hhigh : v < 2 ^ 63) (vs : List ℤ)
    {z : Bytes} (hz : Pushed z) {iAbsLevel nInput : ℤ} (h0 : 0 ≤ iAbsLevel)
    (hlevel : iAbsLevel < 2 ^ 63) (h1 : 1 ≤ nInput) (hinput : nInput < 2 ^ 31) (a : Memory)
    (n : ℕ) : ReadsBack v ∧ ReadsLast vs v ∧ (PopsBack z iAbsLevel nInput ↔ nInput < 128) ∧
      (ReadsInside a n ↔ EndsInside a n) :=
  ⟨readsBack hlow hhigh, readsLast vs hlow hhigh, popsBack_iff hz.closed h0 hlevel h1 hinput,
    readsInside_iff a n⟩

theorem hintStack_iff_sample :
    ReadsBack (-1) ∧ ReadsLast [300, 0] (-1) ∧
      (PopsBack (fts3IncrmergeHintPush [] 2 16) 1024 8 ↔ (8 : ℤ) < 128) ∧
      (ReadsInside (fun _ => 0) 4 ↔ EndsInside (fun _ => 0) 4) :=
  hintStack_iff (by decide) (by decide) _ (Pushed.push 2 16 Pushed.empty) (by decide) (by decide)
    (by decide) (by decide) _ _

/-- 128 segments are too many for a hint. -/
theorem not_forall_popsBack :
    ¬ ∀ z, Pushed z → ∀ iAbsLevel nInput : ℤ, 0 ≤ iAbsLevel ∧ iAbsLevel < 2 ^ 63 →
      1 ≤ nInput ∧ nInput < 2 ^ 31 → PopsBack z iAbsLevel nInput := fun hall =>
  absurd ((popsBack_iff Pushed.empty.closed (by decide) (by decide) (by decide) (by decide)).mp
    (hall [] Pushed.empty 0 128 (by decide) (by decide))) (by decide)

end Hint

end Fts3

end SqliteVms

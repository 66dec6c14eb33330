import SqliteVms.Fts3.MergeBytes
import SqliteVms.Lib.Chain
import Mathlib.Algebra.Order.BigOperators.Group.Finset

/-!
# The test of a NEAR chain

`fts3EvalNearTest` of `fts3.c`. A first pass trims each position list by the one on its left, a second
pass by the one on its right. A position is left if and only if it is part of a chain. The phrases of
a chain have position lists in buffers of their own.

## Main definitions

* `nearTrim`, `nearTest` — the functions, with the temporary space they use
* `HasPos`, `Near` — the positions of the phrases, and which of them are near
* `FindsChains` — what the test is for

## Main results

* `nearTrim_eq` — one trim
* `nearTest_chains_iff` — when the test finds the chains
-/

namespace SqliteVms

namespace Fts3

open Query (Poslist IsNear nParam)

/-! ### The code -/

/-- `xs` in place of what is at `off`, as far as there is room. -/
def splice (l : Bytes) (off : ℕ) (xs : Bytes) : Bytes :=
  l.take off ++ xs.take (l.length - off) ++ l.drop (off + xs.length)

theorem length_splice (l : Bytes) (off : ℕ) (xs : Bytes) :
    (splice l off xs).length = l.length := by
  rw [splice, List.length_append, List.length_append, List.length_take, List.length_take,
    List.length_drop]
  omega

/-- A phrase of a NEAR chain, with the buffer at `doclist.pList`. -/
structure NearPhrase where
  nToken : ℕ
  pList : Bytes
  nList : ℕ

/-- `fts3EvalNearTrim`: nothing if its result is 0. -/
def nearTrim (nNear : ℕ) (aPoslist : Bytes) (nToken : ℕ) (p : NearPhrase) : Option NearPhrase :=
  match poslistNearMerge (nParam nNear p.nToken) (nParam nNear nToken) aPoslist p.pList with
  | none => none
  | some out =>
    some
      { p with
        pList := splice (splice p.pList 0 out) (out.length - 1)
          (List.replicate (p.nList - (out.length - 1)) 0)
        nList := out.length - 1 }

/-- The bytes that `fts3EvalNearTrim` needs at `aTmp`. -/
def trimSpace (nNear : ℕ) (aPoslist : Bytes) (nToken : ℕ) (p : NearPhrase) : ℕ :=
  (poslistPhraseMerge (nParam nNear p.nToken) false false aPoslist p.pList).length +
    (poslistPhraseMerge (nParam nNear nToken) true false p.pList aPoslist).length

/-- The first loop of `fts3EvalNearTest`, for `n` phrases after phrase `i`: the result, the phrases,
and the temporary space. -/
def trimUp (nNear : ℕ → ℕ) : ℕ → ℕ → (ℕ → NearPhrase) → Bool × (ℕ → NearPhrase) × ℕ
  | 0, _, ph => (true, ph, 0)
  | n + 1, i, ph =>
    let nSpace := trimSpace (nNear i) (ph i).pList (ph i).nToken (ph (i + 1))
    match nearTrim (nNear i) (ph i).pList (ph i).nToken (ph (i + 1)) with
    | none => (false, ph, nSpace)
    | some p =>
      let q := trimUp nNear n (i + 1) (Function.update ph (i + 1) p)
      (q.1, q.2.1, max nSpace q.2.2)

/-- The second loop of `fts3EvalNearTest`, for the phrases before phrase `i`. -/
def trimDown (nNear : ℕ → ℕ) : ℕ → (ℕ → NearPhrase) → Bool × (ℕ → NearPhrase) × ℕ
  | 0, ph => (true, ph, 0)
  | i + 1, ph =>
    let nSpace := trimSpace (nNear i) (ph (i + 1)).pList (ph (i + 1)).nToken (ph i)
    match nearTrim (nNear i) (ph (i + 1)).pList (ph (i + 1)).nToken (ph i) with
    | none => (false, ph, nSpace)
    | some p =>
      let q := trimDown nNear i (Function.update ph i p)
      (q.1, q.2.1, max nSpace q.2.2)

/-- The `nTmp` of `fts3EvalNearTest`. -/
def nTmp (k : ℕ) (ph : ℕ → NearPhrase) : ℕ := ∑ i ∈ Finset.range (k + 1), (ph i).nList

/-- `fts3EvalNearTest` for the phrases 0 to `k`, and the distances between them. -/
def nearTest (nNear : ℕ → ℕ) (k : ℕ) (ph : ℕ → NearPhrase) : Bool × (ℕ → NearPhrase) × ℕ :=
  if nTmp k ph = 0 then (false, ph, 0)
  else
    let q := trimUp nNear k 0 ph
    if q.1 = true then
      let q' := trimDown nNear k q.2.1
      (q'.1, q'.2.1, max q.2.2 q'.2.2)
    else q

/-! ### Trimming -/

/-- A phrase has a position list in its buffer. Zeros and other bytes come after it. -/
structure Lists (p : NearPhrase) (l : Poslist) (rest : Bytes) : Prop where
  nToken : 0 < p.nToken
  valid : l.Valid
  small : Small l
  nonempty : l ≠ []
  pList : ∃ z, p.pList = encode l ++ (List.replicate z 0 ++ rest)
  nList : p.nList = (encode l).length ∨ p.nList + 1 = (encode l).length

variable {nNear : ℕ → ℕ} {f p p' : NearPhrase} {lf lp m l : Poslist} {rest rest' : Bytes} {n k : ℕ}

theorem length_encode (l : Poslist) : (encode l).length = (encodeColumns l).length + 1 :=
  List.length_append

/-- What is behind the first bytes, after fewer bytes were written. -/
theorem drop_write {a b : Bytes} (h : b.length ≤ a.length) (t : Bytes) :
    (b ++ 0 :: (a ++ 0 :: t).drop (b.length + 1)).drop a.length = 0 :: t := by
  obtain ⟨d, hd⟩ := Nat.exists_eq_add_of_le h
  rw [hd, ← List.drop_drop, List.drop_left]
  cases d with
  | zero =>
    rw [Nat.add_zero] at hd
    rw [List.drop_zero, ← hd, ← List.drop_drop, List.drop_left, List.drop_one, List.tail_cons]
  | succ d =>
    rw [List.drop_succ_cons, List.drop_drop, Nat.add_right_comm, Nat.add_assoc, ← hd,
      List.drop_left]

/-- The list in place of a longer one. -/
theorem splice_encode (h : (encode m).length ≤ (encode l).length)
    (hn : n = (encode l).length ∨ n + 1 = (encode l).length) (t : Bytes) :
    splice (splice (encode l ++ t) 0 (encode m)) ((encode m).length - 1)
        (List.replicate (n - ((encode m).length - 1)) 0) =
      encode m ++ (List.replicate ((encode l).length - (encode m).length) 0 ++ t) := by
  have hlm := length_encode m
  have hll := length_encode l
  have hle : (encodeColumns m).length ≤ (encodeColumns l).length := by omega
  have hfirst : splice (encode l ++ t) 0 (encode m) =
      encodeColumns m ++
        0 :: (encodeColumns l ++ 0 :: t).drop ((encodeColumns m).length + 1) := by
    rw [splice, List.take_zero, List.nil_append, List.take_of_length_le, Nat.zero_add, hlm,
      encode, encode, List.append_assoc, List.append_assoc]
    · rfl
    · rw [List.length_append]
      omega
  have hdrop := drop_write hle t
  rw [hfirst, hlm, hll, Nat.add_sub_cancel, splice, List.take_left,
    List.take_of_length_le, List.length_replicate, Nat.add_sub_cancel' (by omega), encode,
    List.append_assoc, List.append_assoc, Nat.add_sub_add_right]
  · congr 1
    rcases hn with rfl | hn
    · rw [hll, ← List.drop_drop, hdrop, List.drop_one, List.tail_cons, Nat.sub_add_comm hle,
        List.replicate_succ]
      rfl
    · rw [show n = (encodeColumns l).length by omega, hdrop, List.append_cons,
        ← List.replicate_succ', List.replicate_succ]
      rfl
  · rw [List.length_replicate, List.length_append, List.length_cons, List.length_drop,
      List.length_append, List.length_cons]
    omega

/-- A phrase after it was trimmed: its position list, what is behind it, and its tokens. -/
structure Trimmed (p₀ : NearPhrase) (l₀ : Poslist) (rest : Bytes) (p : NearPhrase) (l : Poslist) :
    Prop extends Lists p l rest where
  nToken_eq : p.nToken = p₀.nToken
  length_eq : p.pList.length = p₀.pList.length
  length_le : (encode l).length ≤ (encode l₀).length

theorem Lists.trimmed (h : Lists p l rest) : Trimmed p l rest p l :=
  { h with nToken_eq := rfl, length_eq := rfl, length_le := le_rfl }

/-- What `fts3EvalNearTrim` keeps of the list of `p`, beside the list of `f`. -/
def Kept (nNear : ℕ) (f p : NearPhrase) (lf lp : Poslist) (iCol x : ℕ) : Prop :=
  lp.Has iCol x ∧ ∃ y, lf.Has iCol y ∧ IsNear (nParam nNear p.nToken) (nParam nNear f.nToken) y x

/-- **One trim.** Only the positions near the other list are left, and zeros in place of the
others. -/
theorem nearTrim_eq {p₀ : NearPhrase} {l₀ : Poslist} (d : ℕ) (hf : Lists f lf rest')
    (hp : Trimmed p₀ l₀ rest p lp) (hr : Poslist.Fair (nParam d p.nToken) lf lp)
    (hl : Poslist.Fair (nParam d f.nToken) lp lf) :
    (nearTrim d f.pList f.nToken p = none ∧ ∀ iCol x, ¬ Kept d f p lf lp iCol x) ∨
      ∃ p' m, nearTrim d f.pList f.nToken p = some p' ∧ Trimmed p₀ l₀ rest p' m ∧
        ∀ iCol x, m.Has iCol x ↔ Kept d f p lf lp iCol x := by
  have hhas : ∀ iCol x, (Query.nearMerge (nParam d p.nToken) (nParam d f.nToken) lf lp).Has iCol x ↔
      Kept d f p lf lp iCol x := fun iCol x => Query.has_nearMerge hr hl hf.valid hp.valid
  have hv : (Query.nearMerge (nParam d p.nToken) (nParam d f.nToken) lf lp).Valid :=
    hf.valid.nearMerge hr hl hp.valid
  have hsub : ∀ iCol x, (Query.nearMerge (nParam d p.nToken) (nParam d f.nToken) lf lp).Has iCol x →
      lp.Has iCol x := fun iCol x h => ((hhas iCol x).mp h).1
  have hle := length_encode_le hp.valid hv hsub
  obtain ⟨z, hz⟩ := hp.pList
  obtain ⟨z', hz'⟩ := hf.pList
  have hmerge := poslistNearMerge_encode hr hl hf.valid hp.valid hf.small hp.small hf.nonempty
    hp.nonempty (List.replicate z' 0 ++ rest') (List.replicate z 0 ++ rest)
  rw [← hz, ← hz'] at hmerge
  by_cases hnil : Query.nearMerge (nParam d p.nToken) (nParam d f.nToken) lf lp = []
  · refine Or.inl ⟨?_, fun iCol x h => ?_⟩
    · rw [nearTrim, hmerge, if_pos hnil]
    · rw [← hhas, hnil] at h
      exact Query.not_has_nil h
  · rw [if_neg hnil] at hmerge
    refine Or.inr ⟨_, _, by rw [nearTrim, hmerge], ?_, hhas⟩
    constructor
    · constructor
      · exact hp.nToken
      · exact hv
      · exact small_of_has hv hp.small hsub
      · exact hnil
      · refine ⟨(encode lp).length -
          (encode (Query.nearMerge (nParam d p.nToken) (nParam d f.nToken) lf lp)).length + z, ?_⟩
        dsimp only
        rw [hz, splice_encode hle hp.nList, List.replicate_add, List.append_assoc]
      · exact Or.inr (Nat.sub_add_cancel (by rw [length_encode]; exact Nat.le_add_left 1 _))
    · exact hp.nToken_eq
    · exact (length_splice _ _ _).trans
        ((length_splice _ _ _).trans hp.length_eq)
    · exact hle.trans hp.length_le

/-- The temporary lists are no longer than the list that is trimmed, each. -/
theorem trimSpace_le (d : ℕ) (hf : Lists f lf rest') (hp : Lists p lp rest)
    (hr : Poslist.Fair (nParam d p.nToken) lf lp) (hl : Poslist.Fair (nParam d f.nToken) lp lf) :
    trimSpace d f.pList f.nToken p ≤ (encode lp).length * 2 := by
  obtain ⟨z, hz⟩ := hp.pList
  obtain ⟨z', hz'⟩ := hf.pList
  rw [trimSpace, hz, hz', poslistPhraseMerge_encode false hr hf.valid hp.valid hf.small hp.small
    hf.nonempty hp.nonempty, poslistPhraseMerge_encode true hl hp.valid hf.valid hp.small hf.small
    hp.nonempty hf.nonempty, Nat.mul_two]
  refine Nat.add_le_add (length_encodeSome_le hp.valid (hf.valid.phraseMerge hr hp.valid) ?_)
    (length_encodeSome_le hp.valid (hp.valid.phraseMerge hl hf.valid) ?_)
  · intro iCol x h
    obtain ⟨a, b, -, hb, -, -, rfl⟩ := (Query.has_phraseMerge hr hf.valid hp.valid).mp h
    exact hb
  · intro iCol x h
    obtain ⟨a, b, ha, -, -, -, rfl⟩ := (Query.has_phraseMerge hl hp.valid hf.valid).mp h
    exact ha

/-! ### The passes -/

/-- A position of phrase `i`, in column `iCol`. -/
def HasPos (P : ℕ → Poslist) (iCol i x : ℕ) : Prop := (P i).Has iCol x

/-- A position of phrase `i` and one of the next phrase are near. -/
def Near (nNear : ℕ → ℕ) (ph : ℕ → NearPhrase) (i x y : ℕ) : Prop :=
  (x < y ∧ y ≤ x + (nNear i + (ph (i + 1)).nToken)) ∨
    (y < x ∧ x ≤ y + (nNear i + (ph i).nToken))

/-- Two such positions for which the sum of the distance and the tokens is an `int`. -/
def NearFits (nNear : ℕ → ℕ) (ph : ℕ → NearPhrase) (i x y : ℕ) : Prop :=
  (x < y ∧ y ≤ x + (nNear i + (ph (i + 1)).nToken) ∧ nNear i + (ph (i + 1)).nToken < 2 ^ 31) ∨
    (y < x ∧ x ≤ y + (nNear i + (ph i).nToken) ∧ nNear i + (ph i).nToken < 2 ^ 31)

/-- What the merge takes for near, with the sums as they are. -/
def NearInt (nNear : ℕ → ℕ) (ph : ℕ → NearPhrase) (i x y : ℕ) : Prop :=
  IsNear (nParam (nNear i) (ph (i + 1)).nToken) (nParam (nNear i) (ph i).nToken) x y

/-- The distances and the numbers of tokens are `int`s, and so is a position with the tokens of a
phrase: both are counted in texts of less than 2^30 terms. -/
structure InRange (nNear : ℕ → ℕ) (k : ℕ) (ph : ℕ → NearPhrase) (P : ℕ → Poslist) : Prop where
  nNear : ∀ i < k, nNear i < 2 ^ 31
  nToken : ∀ i ≤ k, (ph i).nToken < 2 ^ 31
  sum : ∀ i ≤ k, ∀ j ≤ k, ∀ iCol x, (P i).Has iCol x → x + (ph j).nToken ≤ 2 ^ 31

variable {ph₀ ph : ℕ → NearPhrase} {P Q : ℕ → Poslist} {rests : ℕ → Bytes} {i s : ℕ}

theorem fair_nParam {d nToken : ℕ} (hd : d < 2 ^ 31) (hn : 0 < nToken)
    (hl : ∀ iCol x, l.Has iCol x → x + nToken ≤ 2 ^ 31) (m : Poslist) :
    Poslist.Fair (nParam d nToken) l m := by
  intro iCol ps1 ps2 h1 _
  by_cases hsum : d + nToken < 2 ^ 31
  · rw [Query.nParam_eq hsum]
    exact Or.inl (by omega)
  · refine Or.inr fun a ha b _ heq => ?_
    have hle := hl iCol a ⟨ps1, h1, ha⟩
    rw [Query.nParam_of_le (by omega) (by omega)] at heq
    omega

/-- The window is empty where the sum is no `int`. -/
theorem le_nParam_iff {d nToken x y : ℕ} (hd : d < 2 ^ 31) (hn : nToken < 2 ^ 31) :
    (x < y ∧ (y : ℤ) ≤ x + nParam d nToken) ↔
      x < y ∧ y ≤ x + (d + nToken) ∧ d + nToken < 2 ^ 31 := by
  by_cases hsum : d + nToken < 2 ^ 31
  · rw [Query.nParam_eq hsum]
    omega
  · rw [Query.nParam_of_le (by omega) (by omega)]
    omega

theorem nearInt_iff (h : InRange nNear k ph P) (hi : i < k) (x y : ℕ) :
    NearInt nNear ph i x y ↔ NearFits nNear ph i x y :=
  or_congr (le_nParam_iff (h.nNear i hi) (h.nToken (i + 1) hi))
    (le_nParam_iff (h.nNear i hi) (h.nToken i hi.le))

theorem NearFits.near {x y : ℕ} (h : NearFits nNear ph i x y) : Near nNear ph i x y :=
  h.imp (fun h => ⟨h.1, h.2.1⟩) fun h => ⟨h.1, h.2.1⟩

theorem isChain_nearInt_iff (h : InRange nNear k ph P) {iCol : ℕ} {q : ℕ → ℕ} :
    Chain.IsChain (HasPos P iCol) (NearInt nNear ph) 0 k q ↔
      Chain.IsChain (HasPos P iCol) (NearFits nNear ph) 0 k q := by
  constructor
  · exact fun hq => ⟨hq.has, fun i hi hik => (nearInt_iff h hik _ _).mp (hq.near i hi hik)⟩
  · exact fun hq => ⟨hq.has, fun i hi hik => (nearInt_iff h hik _ _).mpr (hq.near i hi hik)⟩

/-- A trim of the first pass. -/
theorem kept_up (hf : (ph i).nToken = (ph₀ i).nToken)
    (hp : (ph (i + 1)).nToken = (ph₀ (i + 1)).nToken) (hQ : Q (i + 1) = P (i + 1)) {iCol : ℕ}
    (hlow : ∀ x, (Q i).Has iCol x ↔ Chain.Through (HasPos P iCol) (NearInt nNear ph₀) 0 i i x)
    (x : ℕ) :
    Kept (nNear i) (ph i) (ph (i + 1)) (Q i) (Q (i + 1)) iCol x ↔
      Chain.Through (HasPos P iCol) (NearInt nNear ph₀) 0 (i + 1) (i + 1) x := by
  rw [Chain.through_succ (Nat.zero_le i), Kept, hQ, hf, hp]
  exact and_congr_right fun _ => exists_congr fun y => and_congr_left fun _ => hlow y

/-- A trim of the second pass. -/
theorem kept_down (hi : i < k) (hp : (ph i).nToken = (ph₀ i).nToken)
    (hf : (ph (i + 1)).nToken = (ph₀ (i + 1)).nToken) {iCol : ℕ}
    (hlow : ∀ x, (Q i).Has iCol x ↔ Chain.Through (HasPos P iCol) (NearInt nNear ph₀) 0 i i x)
    (hhigh : ∀ x, (Q (i + 1)).Has iCol x ↔
      Chain.Through (HasPos P iCol) (NearInt nNear ph₀) 0 k (i + 1) x) (x : ℕ) :
    Kept (nNear i) (ph (i + 1)) (ph i) (Q (i + 1)) (Q i) iCol x ↔
      Chain.Through (HasPos P iCol) (NearInt nNear ph₀) 0 k i x := by
  rw [Chain.through_iff (Nat.zero_le i) hi, Kept, hp, hf, hlow]
  exact and_congr_right fun _ => exists_congr fun y => and_congr (hhigh y) Or.comm

/-- The first pass keeps the positions that a chain leads up to. -/
theorem trimUp_eq (hint : InRange nNear k ph₀ P) (hik : i + n ≤ k)
    (hT : ∀ j ≤ i + n, Trimmed (ph₀ j) (P j) (rests j) (ph j) (Q j))
    (hlow : ∀ j ≤ i, ∀ iCol x, (Q j).Has iCol x ↔
      Chain.Through (HasPos P iCol) (NearInt nNear ph₀) 0 j j x)
    (hhigh : ∀ j, i < j → Q j = P j) (hs : ∀ j ≤ i + n, (encode (P j)).length ≤ s) :
    (trimUp nNear n i ph).2.2 ≤ s * 2 ∧
      (((trimUp nNear n i ph).1 = false ∧
          ∀ iCol q, ¬ Chain.IsChain (HasPos P iCol) (NearInt nNear ph₀) 0 (i + n) q) ∨
        ((trimUp nNear n i ph).1 = true ∧ ∃ Q' : ℕ → Poslist,
          (∀ j ≤ i + n,
            Trimmed (ph₀ j) (P j) (rests j) ((trimUp nNear n i ph).2.1 j) (Q' j)) ∧
          ∀ j ≤ i + n, ∀ iCol x, (Q' j).Has iCol x ↔
            Chain.Through (HasPos P iCol) (NearInt nNear ph₀) 0 j j x)) := by
  induction n generalizing i ph Q with
  | zero => exact ⟨Nat.zero_le _, Or.inr ⟨rfl, Q, hT, hlow⟩⟩
  | succ n ih =>
    have hf := hT i (by omega)
    have hp := hT (i + 1) (by omega)
    have hkept := fun iCol => kept_up hf.nToken_eq hp.nToken_eq
      (hhigh (i + 1) (by omega)) (hlow i le_rfl iCol)
    have hr : Poslist.Fair (nParam (nNear i) (ph (i + 1)).nToken) (Q i) (Q (i + 1)) := by
      refine fair_nParam (hint.nNear i (by omega)) hp.nToken (fun iCol x hx => ?_) _
      obtain ⟨q, hq, rfl⟩ := (hlow i le_rfl iCol x).mp hx
      rw [hp.nToken_eq]
      exact hint.sum i (by omega) (i + 1) (by omega) iCol _ (hq.has i (Nat.zero_le i) le_rfl)
    have hl : Poslist.Fair (nParam (nNear i) (ph i).nToken) (Q (i + 1)) (Q i) := by
      refine fair_nParam (hint.nNear i (by omega)) hf.nToken (fun iCol x hx => ?_) _
      rw [hhigh (i + 1) (by omega)] at hx
      rw [hf.nToken_eq]
      exact hint.sum (i + 1) (by omega) i (by omega) iCol x hx
    have hspace : trimSpace (nNear i) (ph i).pList (ph i).nToken (ph (i + 1)) ≤ s * 2 :=
      (trimSpace_le _ hf.toLists hp.toLists hr hl).trans
        (Nat.mul_le_mul_right 2 (hp.length_le.trans (hs (i + 1) (by omega))))
    rw [trimUp]
    rcases nearTrim_eq (nNear i) hf.toLists hp hr hl with ⟨htrim, hno⟩ | ⟨p', m, htrim, hp', hm⟩
    · rw [htrim]
      refine ⟨hspace, Or.inl ⟨rfl, fun iCol q hq => hno iCol (q (i + 1)) ?_⟩⟩
      exact (hkept iCol _).mpr ((hq.sub le_rfl (by omega)).through (i + 1))
    · rw [htrim]
      dsimp only
      have hnext := @ih (Function.update ph (i + 1) p') (Function.update Q (i + 1) m) (i + 1)
        (by omega) ?_ ?_ ?_ ?_
      · rw [Nat.add_right_comm, Nat.add_assoc] at hnext
        exact ⟨max_le hspace hnext.1, hnext.2⟩
      · intro j hj
        by_cases hji : j = i + 1
        · subst hji
          rwa [Function.update_self, Function.update_self]
        · rw [Function.update_of_ne hji, Function.update_of_ne hji]
          exact hT j (by omega)
      · intro j hj iCol x
        by_cases hji : j = i + 1
        · subst hji
          rw [Function.update_self, hm, hkept]
        · rw [Function.update_of_ne hji]
          exact hlow j (by omega) iCol x
      · intro j hj
        rw [Function.update_of_ne (by omega)]
        exact hhigh j (by omega)
      · exact fun j hj => hs j (by omega)

/-- The second pass keeps the positions of the chains. -/
theorem trimDown_eq (hint : InRange nNear k ph₀ P) (hi : i ≤ k)
    (hT : ∀ j ≤ k, Trimmed (ph₀ j) (P j) (rests j) (ph j) (Q j))
    (hlow : ∀ j < i, ∀ iCol x, (Q j).Has iCol x ↔
      Chain.Through (HasPos P iCol) (NearInt nNear ph₀) 0 j j x)
    (hhigh : ∀ j, i ≤ j → j ≤ k → ∀ iCol x, (Q j).Has iCol x ↔
      Chain.Through (HasPos P iCol) (NearInt nNear ph₀) 0 k j x)
    (hs : ∀ j ≤ k, (encode (P j)).length ≤ s)
    (hchain : ∃ iCol q, Chain.IsChain (HasPos P iCol) (NearInt nNear ph₀) 0 k q) :
    (trimDown nNear i ph).2.2 ≤ s * 2 ∧ (trimDown nNear i ph).1 = true ∧
      ∃ Q' : ℕ → Poslist,
        (∀ j ≤ k, Trimmed (ph₀ j) (P j) (rests j) ((trimDown nNear i ph).2.1 j) (Q' j)) ∧
        ∀ j ≤ k, ∀ iCol x, (Q' j).Has iCol x ↔
          Chain.Through (HasPos P iCol) (NearInt nNear ph₀) 0 k j x := by
  induction i generalizing ph Q with
  | zero => exact ⟨Nat.zero_le _, rfl, Q, hT, fun j hj => hhigh j (Nat.zero_le j) hj⟩
  | succ i ih =>
    have hf := hT (i + 1) hi
    have hp := hT i (by omega)
    have hkept := fun iCol => kept_down hi hp.nToken_eq hf.nToken_eq
      (hlow i (by omega) iCol) (hhigh (i + 1) le_rfl hi iCol)
    have hr : Poslist.Fair (nParam (nNear i) (ph i).nToken) (Q (i + 1)) (Q i) := by
      refine fair_nParam (hint.nNear i (by omega)) hp.nToken (fun iCol x hx => ?_) _
      obtain ⟨q, hq, rfl⟩ := (hhigh (i + 1) le_rfl hi iCol x).mp hx
      rw [hp.nToken_eq]
      exact hint.sum (i + 1) hi i (by omega) iCol _ (hq.has (i + 1) (Nat.zero_le _) hi)
    have hl : Poslist.Fair (nParam (nNear i) (ph (i + 1)).nToken) (Q i) (Q (i + 1)) := by
      refine fair_nParam (hint.nNear i (by omega)) hf.nToken (fun iCol x hx => ?_) _
      obtain ⟨q, hq, rfl⟩ := (hlow i (by omega) iCol x).mp hx
      rw [hf.nToken_eq]
      exact hint.sum i (by omega) (i + 1) hi iCol _ (hq.has i (Nat.zero_le i) le_rfl)
    have hspace : trimSpace (nNear i) (ph (i + 1)).pList (ph (i + 1)).nToken (ph i) ≤ s * 2 :=
      (trimSpace_le _ hf.toLists hp.toLists hr hl).trans
        (Nat.mul_le_mul_right 2 (hp.length_le.trans (hs i (by omega))))
    rw [trimDown]
    rcases nearTrim_eq (nNear i) hf.toLists hp hr hl with ⟨-, hno⟩ | ⟨p', m, htrim, hp', hm⟩
    · obtain ⟨iCol, q, hq⟩ := hchain
      exact absurd ((hkept iCol _).mpr (hq.through i)) (hno iCol (q i))
    · rw [htrim]
      dsimp only
      have hnext := @ih (Function.update ph i p') (Function.update Q i m) (by omega) ?_ ?_ ?_
      · exact ⟨max_le hspace hnext.1, hnext.2⟩
      · intro j hj
        by_cases hji : j = i
        · subst hji
          rwa [Function.update_self, Function.update_self]
        · rw [Function.update_of_ne hji, Function.update_of_ne hji]
          exact hT j hj
      · intro j hj iCol x
        rw [Function.update_of_ne (by omega)]
        exact hlow j (by omega) iCol x
      · intro j hj hjk iCol x
        by_cases hji : j = i
        · subst hji
          rw [Function.update_self, hm, hkept]
        · rw [Function.update_of_ne hji]
          exact hhigh j (by omega) hjk iCol x

/-! ### The test -/

theorem Lists.nList_pos (h : Lists p l rest) : 0 < p.nList := by
  have hpos := List.length_pos_of_ne_nil ((encodeColumns_eq_nil h.valid).not.mpr h.nonempty)
  have hlen := length_encode l
  rcases h.nList with heq | heq <;> omega

/-- The other phrases make up for the byte that a length may leave out. -/
theorem length_encode_le_nTmp (hk : 0 < k) (h : ∀ i ≤ k, Lists (ph i) (P i) (rests i))
    (hi : i ≤ k) : (encode (P i)).length ≤ nTmp k ph := by
  obtain ⟨j, hj, hne⟩ : ∃ j ≤ k, i ≠ j := by
    rcases Nat.eq_zero_or_pos i with rfl | hpos
    · exact ⟨k, le_rfl, hk.ne⟩
    · exact ⟨0, hk.le, hpos.ne'⟩
  have hsum : (ph i).nList + (ph j).nList ≤ nTmp k ph := by
    rw [← Finset.sum_pair (f := fun i => (ph i).nList) hne]
    refine Finset.sum_le_sum_of_subset fun x hx => ?_
    rcases Finset.mem_insert.mp hx with rfl | hx
    · exact Finset.mem_range.mpr (Nat.lt_succ_of_le hi)
    · rw [Finset.mem_singleton.mp hx]
      exact Finset.mem_range.mpr (Nat.lt_succ_of_le hj)
  have hpos := (h j hj).nList_pos
  rcases (h i hi).nList with heq | heq <;> omega

/-- There is a match when there is a chain as the merge sees it. What is left of each list then is
the positions in such chains, with zeros behind them, and the temporary lists have the space they
need. -/
theorem nearTest_spec (hk : 0 < k) (h : ∀ i ≤ k, Lists (ph i) (P i) (rests i))
    (hint : InRange nNear k ph P) :
    ((nearTest nNear k ph).1 = true ↔
        ∃ iCol q, Chain.IsChain (HasPos P iCol) (NearInt nNear ph) 0 k q) ∧
      ((nearTest nNear k ph).1 = true → ∀ i ≤ k, ∃ l : Poslist,
        Trimmed (ph i) (P i) (rests i) ((nearTest nNear k ph).2.1 i) l ∧
        ∀ iCol x, l.Has iCol x ↔
          ∃ q, Chain.IsChain (HasPos P iCol) (NearInt nNear ph) 0 k q ∧ q i = x) ∧
      (nearTest nNear k ph).2.2 ≤ nTmp k ph * 2 := by
  have hs : ∀ j ≤ k, (encode (P j)).length ≤ nTmp k ph :=
    fun j hj => length_encode_le_nTmp hk h hj
  have hlen0 := length_encode (P 0)
  have hpos : nTmp k ph ≠ 0 := by
    have := hs 0 hk.le
    omega
  have hup := @trimUp_eq nNear k k ph ph P P rests 0 (nTmp k ph) hint (by omega) ?_ ?_ ?_ ?_
  · rw [Nat.zero_add] at hup
    obtain ⟨hspace, ⟨hres, hno⟩ | ⟨hres, Q, hT, hQ⟩⟩ := hup
    · have hnone : ¬ ∃ iCol q, Chain.IsChain (HasPos P iCol) (NearInt nNear ph) 0 k q :=
        fun ⟨iCol, q, hq⟩ => hno iCol q hq
      rw [nearTest, if_neg hpos, if_neg (by rw [hres]; exact Bool.false_ne_true), hres]
      exact ⟨iff_of_false Bool.false_ne_true hnone, fun h => absurd h Bool.false_ne_true, hspace⟩
    · have hchain : ∃ iCol q, Chain.IsChain (HasPos P iCol) (NearInt nNear ph) 0 k q := by
        obtain ⟨iCol, x, hx⟩ := (hT k le_rfl).valid.ne_nil_iff.mp (hT k le_rfl).nonempty
        obtain ⟨q, hq, -⟩ := (hQ k le_rfl iCol x).mp hx
        exact ⟨iCol, q, hq⟩
      have hdown := trimDown_eq hint le_rfl hT (fun j hj => hQ j hj.le)
        (fun j hj hjk iCol x => by rw [le_antisymm hjk hj]; exact hQ k le_rfl iCol x) hs hchain
      obtain ⟨hspace', hres', Q', hT', hQ'⟩ := hdown
      rw [nearTest, if_neg hpos, if_pos hres, hres']
      exact ⟨iff_of_true rfl hchain, fun _ i hi => ⟨Q' i, hT' i hi, hQ' i hi⟩,
        max_le hspace hspace'⟩
  · exact fun j hj => (h j (by omega)).trimmed
  · intro j hj iCol x
    obtain rfl := Nat.le_zero.mp hj
    have hself : Chain.Through (HasPos P iCol) (NearInt nNear ph) 0 0 0 x ↔ HasPos P iCol 0 x :=
      Chain.through_self
    exact hself.symm
  · exact fun j _ => rfl
  · exact fun j hj => hs j (by omega)

/-- A list has a position when it has a match with a list of one position next to it: what a buffer
holds is determined by its bytes. -/
theorem Lists.has_iff (h : Lists p l rest) (iCol x : ℕ) (hcol : iCol < 2 ^ 31 - 1) :
    l.Has iCol x ↔ x < 2 ^ 31 - 3 ∧
      if x = 0 then poslistPhraseMerge 1 true false p.pList (encode [(iCol, [1])] ++ []) ≠ []
      else poslistPhraseMerge 1 false false (encode [(iCol, [x - 1])] ++ []) p.pList ≠ [] := by
  have hone : ∀ y, Poslist.Valid [(iCol, [y])] := fun y => ⟨by simp, by simp, by simp⟩
  have hsmall : ∀ y, y < 2 ^ 31 - 3 → Small [(iCol, [y])] := fun y hy => by
    simpa [Small] using ⟨hcol, hy⟩
  have hmem : ∀ y z, Poslist.Has [(iCol, [y])] iCol z ↔ z = y := fun y z => by
    simp [Query.has_cons]
  have hfair : ∀ a b : Poslist, Poslist.Fair 1 a b := Poslist.fair_of_pos Int.one_pos
  have hnil : ∀ m : Poslist, m.Valid → (encodeSome m ≠ [] ↔ ∃ c y, m.Has c y) := fun m hm => by
    rw [← hm.ne_nil_iff, encodeSome]
    split
    · exact iff_of_false (fun h => h rfl) fun h => h ‹_›
    · rename_i hne
      exact iff_of_true (List.append_ne_nil_of_right_ne_nil _ (List.cons_ne_nil _ _)) hne
  by_cases hx : x < 2 ^ 31 - 3
  swap
  · exact iff_of_false (fun hhas => hx (h.small.of_has hhas).2) fun hhas => hx hhas.1
  rw [and_iff_right hx]
  obtain ⟨z, hz⟩ := h.pList
  rw [hz]
  split
  · rename_i hzero
    rw [poslistPhraseMerge_encode true (hfair _ _) h.valid (hone 1) h.small (hsmall 1 (by omega))
      h.nonempty (List.cons_ne_nil _ _), hnil _ (h.valid.phraseMerge (hfair _ _) (hone 1))]
    constructor
    · intro hhas
      refine ⟨iCol, x, (Query.has_phraseMerge (hfair _ _) h.valid (hone 1)).mpr
        ⟨x, 1, hhas, (hmem 1 1).mpr rfl, by omega, by omega, rfl⟩⟩
    · rintro ⟨c, y, hhas⟩
      obtain ⟨a, b, ha, hb, hlt, -, -⟩ :=
        (Query.has_phraseMerge (hfair _ _) h.valid (hone 1)).mp hhas
      obtain rfl : c = iCol := by
        obtain ⟨ps, hps, -⟩ := hb
        exact (Prod.mk.inj (List.mem_singleton.mp hps)).1
      have := (hmem 1 b).mp hb
      obtain rfl : a = x := by omega
      exact ha
  · rename_i hpos
    rw [poslistPhraseMerge_encode false (hfair _ _) (hone _) h.valid (hsmall _ (by omega)) h.small
      (List.cons_ne_nil _ _) h.nonempty, hnil _ ((hone _).phraseMerge (hfair _ _) h.valid)]
    constructor
    · intro hhas
      exact ⟨iCol, x, (Query.has_phraseMerge (hfair _ _) (hone _) h.valid).mpr
        ⟨x - 1, x, (hmem _ _).mpr rfl, hhas, by omega, by omega, rfl⟩⟩
    · rintro ⟨c, y, hhas⟩
      obtain ⟨a, b, ha, hb, hlt, hle, -⟩ :=
        (Query.has_phraseMerge (hfair _ _) (hone _) h.valid).mp hhas
      obtain rfl : c = iCol := by
        obtain ⟨ps, hps, -⟩ := ha
        exact (Prod.mk.inj (List.mem_singleton.mp hps)).1
      have := (hmem (x - 1) a).mp ha
      obtain rfl : b = x := by omega
      exact hb

theorem Lists.has_congr {m : Poslist} {rest' : Bytes} (h : Lists p l rest) (h' : Lists p m rest')
    {iCol x : ℕ} (hhas : l.Has iCol x) : m.Has iCol x := by
  have hcol := (h.small.of_has hhas).1
  exact (h'.has_iff iCol x hcol).mpr ((h.has_iff iCol x hcol).mp hhas)

/-- The test finds the chains: there is a match when there is a chain. What is left of each list
then is the positions in chains, with zeros behind them, and the temporary lists have the space they
need. -/
structure FindsChains (nNear : ℕ → ℕ) (k : ℕ) (ph : ℕ → NearPhrase) (P : ℕ → Poslist)
    (rests : ℕ → Bytes) (r : Bool × (ℕ → NearPhrase) × ℕ) : Prop where
  result : r.1 = true ↔ ∃ iCol q, Chain.IsChain (HasPos P iCol) (Near nNear ph) 0 k q
  left : r.1 = true → ∀ i ≤ k, ∃ l : Poslist, Trimmed (ph i) (P i) (rests i) (r.2.1 i) l ∧
    ∀ iCol x, l.Has iCol x ↔
      ∃ q, Chain.IsChain (HasPos P iCol) (Near nNear ph) 0 k q ∧ q i = x
  space : r.2.2 ≤ nTmp k ph * 2

/-- **The chains.** The test finds them exactly when each position that is in a chain is in one of
which no sum overflows. -/
theorem nearTest_chains_iff (nNear : ℕ → ℕ) (hk : 0 < k)
    (h : ∀ i ≤ k, Lists (ph i) (P i) (rests i)) (hint : InRange nNear k ph P) :
    FindsChains nNear k ph P rests (nearTest nNear k ph) ↔
      ∀ i ≤ k, ∀ iCol q, Chain.IsChain (HasPos P iCol) (Near nNear ph) 0 k q →
        ∃ q', Chain.IsChain (HasPos P iCol) (NearFits nNear ph) 0 k q' ∧ q' i = q i := by
  obtain ⟨hres, hleft, hspace⟩ := nearTest_spec hk h hint
  have hnear : ∀ iCol q, Chain.IsChain (HasPos P iCol) (NearFits nNear ph) 0 k q →
      Chain.IsChain (HasPos P iCol) (Near nNear ph) 0 k q :=
    fun iCol q hq => ⟨hq.has, fun i hi hik => (hq.near i hi hik).near⟩
  constructor
  · intro hfinds i hi iCol q hq
    have htrue := hfinds.result.mpr ⟨iCol, q, hq⟩
    obtain ⟨l, hl, hmem⟩ := hfinds.left htrue i hi
    obtain ⟨m, hm, hmem'⟩ := hleft htrue i hi
    obtain ⟨q', hq', heq⟩ :=
      (hmem' iCol (q i)).mp (hl.has_congr hm.toLists ((hmem iCol (q i)).mpr ⟨q, hq, rfl⟩))
    exact ⟨q', (isChain_nearInt_iff hint).mp hq', heq⟩
  · intro hcond
    refine ⟨hres.trans ⟨?_, ?_⟩, fun htrue i hi => ?_, hspace⟩
    · rintro ⟨iCol, q, hq⟩
      exact ⟨iCol, q, hnear iCol q ((isChain_nearInt_iff hint).mp hq)⟩
    · rintro ⟨iCol, q, hq⟩
      obtain ⟨q', hq', -⟩ := hcond 0 (Nat.zero_le k) iCol q hq
      exact ⟨iCol, q', (isChain_nearInt_iff hint).mpr hq'⟩
    · obtain ⟨m, hm, hmem⟩ := hleft htrue i hi
      refine ⟨m, hm, fun iCol x => (hmem iCol x).trans ⟨?_, ?_⟩⟩
      · rintro ⟨q, hq, rfl⟩
        exact ⟨q, hnear iCol q ((isChain_nearInt_iff hint).mp hq), rfl⟩
      · rintro ⟨q, hq, rfl⟩
        obtain ⟨q', hq', heq⟩ := hcond i hi iCol q hq
        exact ⟨q', (isChain_nearInt_iff hint).mpr hq', heq⟩

/-- One word at place 3, another at places 5 and 30. -/
def twoWords (i : ℕ) : NearPhrase :=
  if i = 0 then ⟨1, encode [(0, [3])], 2⟩ else ⟨1, encode [(0, [5, 30])], 3⟩

def twoLists (i : ℕ) : Poslist := if i = 0 then [(0, [3])] else [(0, [5, 30])]

theorem lists_encode (hn : 0 < n) (hv : l.Valid) (hs : Small l) (hne : l ≠ []) :
    Lists ⟨n, encode l, (encode l).length⟩ l [] :=
  { nToken := hn
    valid := hv
    small := hs
    nonempty := hne
    pList := ⟨0, (List.append_nil _).symm⟩
    nList := Or.inl rfl }

theorem lists_twoWords : ∀ i ≤ 1, Lists (twoWords i) (twoLists i) [] := by
  intro i _
  by_cases hi : i = 0
  · rw [twoWords, twoLists, if_pos hi, if_pos hi]
    exact lists_encode Nat.one_pos ⟨by decide, by decide, by decide⟩ (by simp [Small]) (by decide)
  · rw [twoWords, twoLists, if_neg hi, if_neg hi]
    exact lists_encode Nat.one_pos ⟨by decide, by decide, by decide⟩ (by simp [Small]) (by decide)

theorem inRange_twoWords {d : ℕ} (hd : d < 2 ^ 31) : InRange (fun _ => d) 1 twoWords twoLists := by
  have hone : ∀ i, (twoWords i).nToken = 1 := fun i => by
    rw [twoWords]
    split <;> rfl
  refine ⟨fun _ _ => hd, fun i _ => ?_, fun i hi j _ iCol x hx => ?_⟩
  · rw [hone]
    decide
  · have hlt := ((lists_twoWords i hi).small.of_has hx).2
    rw [hone]
    exact Nat.le_of_lt (by omega)

/-- The places 3 and 5 are a chain. -/
theorem isChain_twoWords {d : ℕ} (hd : 0 < d) :
    Chain.IsChain (HasPos twoLists 0) (Near (fun _ => d) twoWords) 0 1
      fun i => if i = 0 then 3 else 5 := by
  constructor
  · intro i _ hi
    by_cases h0 : i = 0
    · rw [HasPos, twoLists, if_pos h0, if_pos h0]
      exact ⟨[3], List.mem_cons_self, List.mem_cons_self⟩
    · rw [HasPos, twoLists, if_neg h0, if_neg h0]
      exact ⟨[5, 30], List.mem_cons_self, List.mem_cons_self⟩
  · intro i _ hi
    obtain rfl := Nat.lt_one_iff.mp hi
    refine Or.inl ⟨by decide, ?_⟩
    change 5 ≤ 3 + (d + 1)
    omega

theorem nearTest_twoWords : FindsChains (fun _ => 10) 1 twoWords twoLists (fun _ => [])
    (nearTest (fun _ => 10) 1 twoWords) := by
  refine (nearTest_chains_iff (fun _ => 10) Nat.one_pos lists_twoWords
    (inRange_twoWords (by decide))).mpr fun i _ iCol q hq => ⟨q, ⟨hq.has, fun i hi hik => ?_⟩, rfl⟩
  obtain rfl := Nat.lt_one_iff.mp hik
  exact (hq.near 0 hi hik).imp (fun h => ⟨h.1, h.2, by decide⟩) fun h => ⟨h.1, h.2, by decide⟩

/-- With NEAR/2147483647 the windows are empty, and the chain is not found. -/
theorem not_forall_findsChains : ¬∀ (nNear : ℕ → ℕ) (k : ℕ) (ph : ℕ → NearPhrase)
    (P : ℕ → Poslist) (rests : ℕ → Bytes), 0 < k → (∀ i ≤ k, Lists (ph i) (P i) (rests i)) →
      InRange nNear k ph P → FindsChains nNear k ph P rests (nearTest nNear k ph) := by
  intro h
  have hfinds := h (fun _ => 2147483647) 1 twoWords twoLists (fun _ => []) Nat.one_pos
    lists_twoWords (inRange_twoWords (by decide))
  have htrue := hfinds.result.mpr ⟨0, _, isChain_twoWords (by decide)⟩
  have hfalse : (nearTest (fun _ => 2147483647) 1 twoWords).1 = false := by decide +kernel
  rw [hfalse] at htrue
  cases htrue

end Fts3

end SqliteVms

import SqliteVms.Fts3.NodeReader

/-!
# Readers of segment nodes on any bytes

On a node of any bytes the readers make no fault but a few: all three trust that a prefix is not
longer than the term before, `fts3SegReaderNext` trusts that the length of a doclist is not
negative, and `nodeReaderNext` checks no length at all. Where these are as they should be, the
buffers are large enough, no `int` overflows, the padding ends the last varint, and the readers come
to an end.

## Main definitions

* `scanGood`, `segGood`, `nodeGood` — what the readers trust in

## Main results

* `store_isSome_iff` — when a term is stored without fault
* `scanStep_isSome`, `segStep_isSome`, `nodeStep_isSome` — when a reader passes an entry
* `readers_safe_iff` — when the readers are safe
* `not_forall_safe` — a prefix longer than the term before
-/

namespace SqliteVms

namespace Fts3

namespace Node

open Checked Vdbe
open Iter (readVarint)

variable {malloc : ℤ → Bool} {double : Bool} {aNode z zTerm : Bytes} {p : ℕ} {t t' : Term}
  {nPrefix nSuffix : ℤ}

/-! ### Lengths -/

/-- A varint ends at a zero byte at the latest. -/
theorem varintLoop_zero (a b : Bytes) (n x y : ℕ) :
    1 ≤ (varintLoop n x y (a ++ 0 :: b)).2 ∧ (varintLoop n x y (a ++ 0 :: b)).2 ≤ a.length + 1 := by
  induction a generalizing n x y with
  | nil =>
    cases n with
    | zero => exact ⟨Nat.le_refl 1, Nat.le_refl 1⟩
    | succ n =>
      rw [List.nil_append, varintLoop, if_neg (by decide)]
      exact ⟨Nat.le_refl 1, Nat.le_refl 1⟩
  | cons c a ih =>
    cases n with
    | zero => exact ⟨Nat.le_refl 1, Nat.le_add_left 1 _⟩
    | succ n =>
      rw [List.cons_append, varintLoop, List.length_cons]
      split
      · obtain ⟨hpos, hle⟩ := ih n (x + y * (c &&& 0x7f).toNat) (y * 128)
        dsimp only
        omega
      · dsimp only
        omega

theorem length_padded (aNode : Bytes) : (padded aNode).length = aNode.length + 20 := by
  rw [padded, List.length_append, List.length_replicate]

theorem length_padded_le (hnode : aNode.length ≤ 1000000000) :
    (padded aNode).length ≤ 1000000020 := by
  rw [length_padded]
  omega

/-- Before the last byte of the padding there is a zero to stop at. -/
theorem drop_padded (hp : p < aNode.length + 20) : ∃ a b, (padded aNode).drop p = a ++ 0 :: b ∧
    a.length = aNode.length - p := by
  rcases Nat.lt_or_ge p aNode.length with hlt | hge
  · refine ⟨aNode.drop p, List.replicate 19 0, ?_, List.length_drop ..⟩
    rw [padded, List.drop_append_of_le_length (by omega)]
    rfl
  · obtain ⟨k, hk⟩ : ∃ k, 20 - (p - aNode.length) = k + 1 := ⟨19 - (p - aNode.length), by omega⟩
    refine ⟨[], List.replicate k 0, ?_, by rw [List.length_nil]; omega⟩
    rw [padded, List.drop_append, List.drop_eq_nil_of_le hge, List.drop_replicate, hk]
    rfl

theorem readVarint_padded (hp : p < aNode.length + 20) : ∃ v k,
    readVarint (padded aNode) p = some (v, k) ∧ 1 ≤ k ∧ k ≤ aNode.length - p + 1 := by
  obtain ⟨a, b, hdrop, hlen⟩ := drop_padded hp
  have hk := varintLoop_zero a b 10 0 1
  have hk' : (getVarint ((padded aNode).drop p)).2 = (varintLoop 10 0 1 (a ++ 0 :: b)).2 := by
    rw [hdrop]
    rfl
  rw [← hk'] at hk
  refine ⟨(getVarint ((padded aNode).drop p)).1, (getVarint ((padded aNode).drop p)).2, ?_, hk.1,
    by omega⟩
  rw [readVarint, if_pos]
  rw [length_padded]
  omega

theorem readVarint32_padded (hp : p < aNode.length + 20) : ∃ v k,
    readVarint32 (padded aNode) p = some (v, k) ∧ 1 ≤ k ∧ k ≤ aNode.length - p + 1 := by
  obtain ⟨v, k, hread, hk⟩ := readVarint_padded hp
  exact ⟨_, k, by rw [readVarint32, hread, Option.map_some], hk⟩

/-- The lengths of an entry are in the node or just behind it. -/
theorem readLengths_padded (hasPrefix : Bool) (hp : p < aNode.length) : ∃ nPrefix nSuffix q,
    readLengths (padded aNode) hasPrefix p = some (nPrefix, nSuffix, q) ∧ p < q ∧
      q ≤ aNode.length + 2 := by
  obtain ⟨v, k, hfirst, hk⟩ : ∃ v k,
      (if hasPrefix = true then readVarint32 (padded aNode) p else some (0, 0)) = some (v, k) ∧
        k ≤ aNode.length - p + 1 := by
    cases hasPrefix with
    | true =>
      obtain ⟨v, k, hread, -, hk⟩ := readVarint32_padded (show p < aNode.length + 20 by omega)
      exact ⟨v, k, hread, hk⟩
    | false => exact ⟨0, 0, rfl, Nat.zero_le _⟩
  obtain ⟨v', k', hsecond, hpos, hk'⟩ :=
    readVarint32_padded (show p + k < aNode.length + 20 by omega)
  refine ⟨v, v', p + k + k', ?_, by omega, by omega⟩
  rw [readLengths, hfirst, Option.bind_some]
  dsimp only
  rw [hsecond, Option.map_some]

theorem lengths_inj {a b a' b' : ℤ} {c c' : ℕ} (h : some (a, b, c) = some (a', b', c')) :
    a = a' ∧ b = b' ∧ c = c' := by
  obtain ⟨ha, hbc⟩ := Prod.mk.inj (Option.some.inj h)
  exact ⟨ha, Prod.mk.inj hbc⟩

/-! ### Terms -/

/-- There is no memory for the term. -/
def Term.Refused (malloc : ℤ → Bool) (double : Bool) (t : Term) (nPrefix nSuffix : ℤ) : Prop :=
  (addInt nPrefix nSuffix).bind (t.grow malloc double) = some none

/-- The prefix is one of the term before, and the rest is in the buffer. -/
def Fits (z : Bytes) (p : ℕ) (t : Term) (nPrefix nSuffix : ℤ) : Prop :=
  0 ≤ nPrefix ∧ nPrefix ≤ t.a.length ∧ 0 ≤ nSuffix ∧ p + nSuffix ≤ z.length

/-- Terms of a node are short enough for an `int`, and for twice their length. -/
theorem grow_of_fits (hlen : t.a.length ≤ p) (hz : z.length ≤ 1000000020)
    (h : Fits z p t nPrefix nSuffix) (malloc : ℤ → Bool) (double : Bool) :
    t.Refused malloc double nPrefix nSuffix ∨
      ∃ t', (addInt nPrefix nSuffix).bind (t.grow malloc double) = some (some t') ∧ t'.a = t.a ∧
        nPrefix + nSuffix ≤ t'.nAlloc := by
  obtain ⟨hpre, hle, hsuf, hend⟩ := h
  have hsum : addInt nPrefix nSuffix = some (nPrefix + nSuffix) := by
    rw [addInt, if_pos (by omega)]
  rw [Term.Refused, hsum, Option.bind_some, Term.grow]
  split
  · obtain ⟨m, hm, hnm⟩ : ∃ m, (if double = true then
        addInt (nPrefix + nSuffix) (nPrefix + nSuffix) else some (nPrefix + nSuffix)) = some m ∧
        nPrefix + nSuffix ≤ m := by
      cases double with
      | true =>
        refine ⟨nPrefix + nSuffix + (nPrefix + nSuffix), ?_, by omega⟩
        rw [if_pos rfl, addInt, if_pos (by omega)]
      | false => exact ⟨nPrefix + nSuffix, rfl, le_refl _⟩
    rw [hm, Option.map_some]
    split
    · exact Or.inr ⟨_, rfl, rfl, hnm⟩
    · exact Or.inl rfl
  · exact Or.inr ⟨t, rfl, rfl, by omega⟩

theorem grow_a {n : ℤ} (h : t.grow malloc double n = some (some t')) : t'.a = t.a := by
  rw [Term.grow] at h
  split at h
  · obtain ⟨m, -, hm⟩ := Option.map_eq_some_iff.mp h
    split at hm
    · rw [← Option.some.inj hm]
    · cases hm
  · rw [← Option.some.inj (Option.some.inj h)]

/-- **When a term is stored without fault.** -/
theorem store_isSome_iff (malloc : ℤ → Bool) (double : Bool) (nPrefix nSuffix : ℤ)
    (hlen : t.a.length ≤ p) (hz : z.length ≤ 1000000020) :
    (t.store malloc double z p nPrefix nSuffix).isSome ↔
      t.Refused malloc double nPrefix nSuffix ∨ Fits z p t nPrefix nSuffix := by
  rw [Term.store]
  constructor
  · intro h
    by_contra hbad
    obtain ⟨hrefused, hfits⟩ := not_or.mp hbad
    rw [Term.Refused] at hrefused
    cases hgrow : (addInt nPrefix nSuffix).bind (t.grow malloc double) with
    | none =>
      rw [hgrow] at h
      cases h
    | some r =>
      cases r with
      | none => exact hrefused hgrow
      | some t' =>
        obtain ⟨n, -, hn⟩ := Option.bind_eq_some_iff.mp hgrow
        rw [hgrow, Option.bind_some] at h
        dsimp only at h
        rw [Term.load, if_neg] at h
        · cases h
        · rintro ⟨h1, h2, h3, -, h5⟩
          rw [grow_a hn] at h2
          exact hfits ⟨h1, h2, h3, h5⟩
  · rintro (hrefused | hfits)
    · rw [hrefused]
      rfl
    · rcases grow_of_fits hlen hz hfits malloc double with hrefused | ⟨t', hgrow, ha, hroom⟩
      · rw [hrefused]
        rfl
      · obtain ⟨h1, h2, h3, h4⟩ := hfits
        rw [hgrow, Option.bind_some]
        dsimp only
        rw [Term.load, if_pos ⟨h1, by rw [ha]; exact h2, h3, hroom, h4⟩]
        rfl

theorem store_eq_none_iff :
    t.store malloc double z p nPrefix nSuffix = some none ↔
      t.Refused malloc double nPrefix nSuffix := by
  rw [Term.store]
  constructor
  · intro h
    obtain ⟨r, hgrow, hr⟩ := Option.bind_eq_some_iff.mp h
    cases r with
    | none => exact hgrow
    | some t' =>
      obtain ⟨t₂, -, ht⟩ := Option.map_eq_some_iff.mp hr
      cases ht
  · intro h
    rw [h]
    rfl

/-- A term that is stored. -/
theorem store_spec (h : t.store malloc double z p nPrefix nSuffix = some (some t')) :
    Fits z p t nPrefix nSuffix ∧ (t'.a.length : ℤ) = nPrefix + nSuffix := by
  rw [Term.store] at h
  obtain ⟨r, hgrow, hr⟩ := Option.bind_eq_some_iff.mp h
  cases r with
  | none => cases hr
  | some t₁ =>
    obtain ⟨n, -, hn⟩ := Option.bind_eq_some_iff.mp hgrow
    obtain ⟨t₂, hload, ht⟩ := Option.map_eq_some_iff.mp hr
    obtain rfl := Option.some.inj ht
    rw [Term.load] at hload
    split at hload
    · rename_i hcond
      obtain ⟨h1, h2, h3, -, h5⟩ := hcond
      rw [grow_a hn] at h2
      refine ⟨⟨h1, h2, h3, h5⟩, ?_⟩
      rw [← Option.some.inj hload]
      dsimp only
      rw [grow_a hn, List.length_append, List.length_take, List.length_take, List.length_drop]
      omega
    · cases hload

/-! ### `fts3ScanInteriorNode` -/

/-- The entry that the loop comes to has no longer prefix than the term before. -/
def scanGood (malloc : ℤ → Bool) (z : Bytes) (nNode : ℕ) (s : Scan) : Prop :=
  s.zCsr < nNode → (s.piFirst = true ∨ s.piLast = true) → ∀ nPrefix nSuffix q,
    readLengths z (!s.isFirstTerm) s.zCsr = some (nPrefix, nSuffix, q) →
      0 ≤ nPrefix → 0 ≤ nSuffix → q + nSuffix ≤ nNode →
        nPrefix ≤ s.zBuffer.a.length ∨ s.zBuffer.Refused malloc true nPrefix nSuffix

theorem scanStep_isSome (malloc : ℤ → Bool) (zTerm : Bytes)
    (hnode : aNode.length ≤ 1000000000) {s : Scan}
    (hs : s.zBuffer.a.length ≤ s.zCsr) :
    (scanStep malloc zTerm (padded aNode) aNode.length s).isSome ↔
      scanGood malloc (padded aNode) aNode.length s := by
  rw [scanStep, scanGood]
  by_cases hmore : s.zCsr < aNode.length ∧ (s.piFirst = true ∨ s.piLast = true)
  · obtain ⟨nPrefix, nSuffix, q, hread, hlt, hle⟩ := readLengths_padded (!s.isFirstTerm) hmore.1
    rw [if_pos hmore, hread, Option.bind_some]
    dsimp only
    by_cases hcorrupt : nPrefix < 0 ∨ nSuffix < 0 ∨ (aNode.length : ℤ) < q + nSuffix
    · rw [if_pos hcorrupt]
      refine iff_of_true rfl fun _ _ nPrefix' nSuffix' q' heq => ?_
      obtain ⟨rfl, rfl, rfl⟩ := lengths_inj heq
      omega
    · have hstore := store_isSome_iff malloc true nPrefix nSuffix
        (show s.zBuffer.a.length ≤ q by omega) (length_padded_le hnode)
      rw [if_neg hcorrupt, Option.isSome_map, hstore]
      constructor
      · intro h _ _ nPrefix' nSuffix' q' heq _ _ _
        obtain ⟨rfl, rfl, rfl⟩ := lengths_inj heq
        exact h.elim Or.inr fun h => Or.inl h.2.1
      · intro h
        rcases h hmore.1 hmore.2 nPrefix nSuffix q rfl (by omega) (by omega) (by omega) with h | h
        · exact Or.inr ⟨by omega, h, by omega, by rw [length_padded]; omega⟩
        · exact Or.inl h
  · rw [if_neg hmore]
    exact iff_of_true rfl fun h1 h2 => absurd ⟨h1, h2⟩ hmore

theorem scanStep_inv {s s' : Scan} (hs : s.zBuffer.a.length ≤ s.zCsr)
    (h : scanStep malloc zTerm (padded aNode) aNode.length s = some (.inr s')) :
    s'.zBuffer.a.length ≤ s'.zCsr ∧ aNode.length - s'.zCsr < aNode.length - s.zCsr := by
  rw [scanStep] at h
  split at h
  · rename_i hmore
    obtain ⟨nPrefix, nSuffix, q, hread, hlt, hle⟩ := readLengths_padded (!s.isFirstTerm) hmore.1
    rw [hread, Option.bind_some] at h
    dsimp only at h
    split at h
    · cases h
    · obtain ⟨r, hstore, hr⟩ := Option.map_eq_some_iff.mp h
      cases r with
      | none => cases hr
      | some t =>
        obtain ⟨hfits, hlen⟩ := store_spec hstore
        obtain rfl := Sum.inr.inj hr
        obtain ⟨h1, h2, h3, -⟩ := hfits
        dsimp only
        omega
  · cases h

/-! ### `fts3SegReaderNext` -/

/-- The entry has no longer prefix than the term before, and the length of its doclist is not
negative, unless the byte before the end of the doclist is in the node and not zero. -/
def segGood (malloc : ℤ → Bool) (z : Bytes) (nNode : ℕ) (s : Seg) : Prop :=
  s.pNext < nNode → ∀ nPrefix nSuffix q, readLengths z true s.pNext = some (nPrefix, nSuffix, q) →
    0 ≤ nPrefix → 0 < nSuffix → q + nSuffix ≤ nNode →
      s.zTerm.Refused malloc true nPrefix nSuffix ∨
        nPrefix ≤ s.zTerm.a.length ∧ ∀ nDoclist k,
          readVarint32 z (q + nSuffix.toNat) = some (nDoclist, k) →
            0 ≤ nDoclist ∨ 1 ≤ (q + nSuffix.toNat + k : ℕ) + nDoclist ∧
              z[((q + nSuffix.toNat + k : ℕ) + nDoclist - 1).toNat]? ≠ some 0

theorem segDoclist_isSome {a : ℕ} {nDoclist : ℤ} (ha : 1 ≤ a) (hle : a ≤ aNode.length + 1)
    {t : Term} :
    (if (aNode.length : ℤ) < a + nDoclist then some (.inl .corrupt)
      else if a + nDoclist < 1 then none
      else
        (padded aNode)[(a + nDoclist - 1).toNat]?.bind fun b =>
          if b ≠ 0 then some (.inl .corrupt)
          else if nDoclist < 0 then none
          else some (.inr ⟨a + nDoclist.toNat, t, a, nDoclist⟩) : Option (Rc ⊕ Seg)).isSome ↔
      (0 ≤ nDoclist ∨ 1 ≤ (a : ℤ) + nDoclist ∧
        (padded aNode)[((a : ℤ) + nDoclist - 1).toNat]? ≠ some 0) := by
  split
  · exact iff_of_true rfl (Or.inl (by omega))
  split
  · exact iff_of_false Bool.false_ne_true (by omega)
  have hindex : ((a : ℤ) + nDoclist - 1).toNat < (padded aNode).length := by
    rw [length_padded]
    omega
  rw [List.getElem?_eq_getElem hindex, Option.bind_some]
  split
  · rename_i hb
    exact iff_of_true rfl (Or.inr ⟨by omega, fun h => hb (Option.some.inj h)⟩)
  · rename_i hb
    split
    · refine iff_of_false Bool.false_ne_true ?_
      rintro (h | ⟨-, h⟩)
      · omega
      · exact h (congrArg some (not_not.mp hb))
    · exact iff_of_true rfl (Or.inl (by omega))

theorem segStep_isSome (malloc : ℤ → Bool) (hnode : aNode.length ≤ 1000000000) {s : Seg}
    (hs : s.zTerm.a.length ≤ s.pNext) :
    (segStep malloc (padded aNode) aNode.length s).isSome ↔
      segGood malloc (padded aNode) aNode.length s := by
  rw [segStep, segGood]
  by_cases hend : aNode.length ≤ s.pNext
  · rw [if_pos hend]
    exact iff_of_true rfl fun h => absurd h (not_lt.mpr hend)
  · obtain ⟨nPrefix, nSuffix, q, hread, hlt, hle⟩ := readLengths_padded true (not_le.mp hend)
    rw [if_neg hend, hread, Option.bind_some]
    dsimp only
    by_cases hcorrupt : nPrefix < 0 ∨ nSuffix ≤ 0 ∨ (aNode.length : ℤ) < q + nSuffix
    · rw [if_pos hcorrupt]
      refine iff_of_true rfl fun _ nPrefix' nSuffix' q' heq => ?_
      obtain ⟨rfl, rfl, rfl⟩ := lengths_inj heq
      omega
    · have hstore := store_isSome_iff malloc true nPrefix nSuffix
        (show s.zTerm.a.length ≤ q by omega) (length_padded_le hnode)
      have hfits : nPrefix ≤ s.zTerm.a.length → Fits (padded aNode) q s.zTerm nPrefix nSuffix :=
        fun h => ⟨by omega, h, by omega, by rw [length_padded]; omega⟩
      rw [if_neg hcorrupt]
      cases hr : s.zTerm.store malloc true (padded aNode) q nPrefix nSuffix with
      | none =>
        rw [hr] at hstore
        refine iff_of_false Bool.false_ne_true fun h => Bool.false_ne_true (hstore.mpr ?_)
        rcases h (not_le.mp hend) nPrefix nSuffix q rfl (by omega) (by omega) (by omega) with h | h
        · exact Or.inl h
        · exact Or.inr (hfits h.1)
      | some r =>
        cases r with
        | none =>
          refine iff_of_true rfl fun _ nPrefix' nSuffix' q' heq _ _ _ => Or.inl ?_
          obtain ⟨rfl, rfl, rfl⟩ := lengths_inj heq
          exact store_eq_none_iff.mp hr
        | some t =>
          obtain ⟨nDoclist, k, hdoclist, hk, hkle⟩ := readVarint32_padded
            (show q + nSuffix.toNat < aNode.length + 20 by omega)
          have hnot : ¬s.zTerm.Refused malloc true nPrefix nSuffix := fun h => by
            rw [store_eq_none_iff.mpr h] at hr
            cases hr
          have hpre := (store_spec hr).1.2.1
          rw [Option.bind_some]
          dsimp only
          rw [hdoclist, Option.bind_some]
          dsimp only
          rw [segDoclist_isSome (by omega) (by omega)]
          constructor
          · intro h _ nPrefix' nSuffix' q' heq _ _ _
            obtain ⟨rfl, rfl, rfl⟩ := lengths_inj heq
            refine Or.inr ⟨hpre, fun nDoclist' k' heq' => ?_⟩
            rw [hdoclist] at heq'
            obtain ⟨rfl, rfl⟩ := Prod.mk.inj (Option.some.inj heq')
            exact h
          · intro h
            have hgood := h (not_le.mp hend) nPrefix nSuffix q rfl (by omega) (by omega) (by omega)
            exact (hgood.resolve_left hnot).2 nDoclist k hdoclist

theorem segStep_inv {s s' : Seg} (hs : s.zTerm.a.length ≤ s.pNext)
    (h : segStep malloc (padded aNode) aNode.length s = some (.inr s')) :
    s'.zTerm.a.length ≤ s'.pNext ∧ aNode.length - s'.pNext < aNode.length - s.pNext := by
  rw [segStep] at h
  split at h
  · cases h
  · rename_i hend
    obtain ⟨nPrefix, nSuffix, q, hread, hlt, hle⟩ := readLengths_padded true (not_le.mp hend)
    rw [hread, Option.bind_some] at h
    dsimp only at h
    split at h
    · cases h
    · obtain ⟨r, hstore, hr⟩ := Option.bind_eq_some_iff.mp h
      cases r with
      | none => cases hr
      | some t =>
        obtain ⟨⟨h1, h2, h3, -⟩, hlen⟩ := store_spec hstore
        obtain ⟨⟨nDoclist, k⟩, -, hdoclist⟩ := Option.bind_eq_some_iff.mp hr
        dsimp only at hdoclist
        split at hdoclist
        · cases hdoclist
        split at hdoclist
        · cases hdoclist
        obtain ⟨b, -, hb⟩ := Option.bind_eq_some_iff.mp hdoclist
        split at hb
        · cases hb
        split at hb
        · cases hb
        obtain rfl := Sum.inr.inj (Option.some.inj hb)
        dsimp only
        omega

/-! ### `nodeReaderNext` -/

/-- The entry has a prefix of the term before, its term ends in the node or its padding, and its
doclist has a length that is not negative and does not overflow. -/
def nodeGood (malloc : ℤ → Bool) (z : Bytes) (nNode : ℕ) (s : NodeReader) : Prop :=
  s.iOff < nNode → ∀ nPrefix nSuffix q,
    readLengths z (decide (s.term.a.length ≠ 0)) s.iOff = some (nPrefix, nSuffix, q) →
      s.term.Refused malloc false nPrefix nSuffix ∨
        Fits z q s.term nPrefix nSuffix ∧ (s.child = 0 →
          q + nSuffix.toNat < z.length ∧ ∀ nDoclist k,
            readVarint32 z (q + nSuffix.toNat) = some (nDoclist, k) →
              0 ≤ nDoclist ∧ (q + nSuffix.toNat + k : ℕ) + nDoclist < 2 ^ 31)

theorem readVarint32_end (z : Bytes) : readVarint32 z z.length = none := by
  have hone : (getVarint ([] : Bytes)).2 = 1 := rfl
  rw [readVarint32, readVarint, List.drop_length, hone, if_neg (by omega)]
  rfl

theorem nodeDoclist_isSome {a : ℕ} (t : Term) (iChild : ℤ) (hlow : a ≤ aNode.length + 20) :
    ((readVarint32 (padded aNode) a).bind fun (nDoclist, k) =>
      if nDoclist < 0 then none
      else
        (addInt (a + k) nDoclist).map fun n =>
          (.inr ⟨n.toNat, iChild, t, a + k, nDoclist⟩ : Rc ⊕ NodeReader)).isSome ↔
      a < (padded aNode).length ∧ ∀ nDoclist k, readVarint32 (padded aNode) a = some (nDoclist, k) →
        0 ≤ nDoclist ∧ (a + k : ℕ) + nDoclist < 2 ^ 31 := by
  rcases Nat.lt_or_ge a (aNode.length + 20) with hlt | hge
  · obtain ⟨nDoclist, k, hread, -, hk⟩ := readVarint32_padded hlt
    rw [hread, Option.bind_some, length_padded]
    dsimp only
    constructor
    · intro h
      refine ⟨hlt, fun nDoclist' k' heq => ?_⟩
      obtain ⟨rfl, rfl⟩ := Prod.mk.inj (Option.some.inj heq)
      split at h
      · cases h
      · rw [Option.isSome_map, addInt] at h
        split at h
        · omega
        · cases h
    · rintro ⟨-, h⟩
      obtain ⟨hpos, hint⟩ := h nDoclist k rfl
      rw [if_neg (by omega), Option.isSome_map, addInt, if_pos (by omega)]
      rfl
  · obtain rfl : a = (padded aNode).length := by
      rw [length_padded]
      omega
    rw [readVarint32_end]
    exact iff_of_false Bool.false_ne_true fun h => absurd h.1 (lt_irrefl _)

theorem nodeStep_isSome (malloc : ℤ → Bool) (hnode : aNode.length ≤ 1000000000) {s : NodeReader}
    (hs : s.term.a.length ≤ s.iOff) :
    (nodeStep malloc (padded aNode) aNode.length s).isSome ↔
      nodeGood malloc (padded aNode) aNode.length s := by
  rw [nodeStep, nodeGood]
  by_cases hend : aNode.length ≤ s.iOff
  · rw [if_pos hend]
    exact iff_of_true rfl fun h => absurd h (not_lt.mpr hend)
  · obtain ⟨nPrefix, nSuffix, q, hread, hlt, hle⟩ :=
      readLengths_padded (decide (s.term.a.length ≠ 0)) (not_le.mp hend)
    have hstore := store_isSome_iff malloc false nPrefix nSuffix
      (show s.term.a.length ≤ q by omega) (length_padded_le hnode)
    rw [if_neg hend, hread, Option.bind_some]
    dsimp only
    cases hr : s.term.store malloc false (padded aNode) q nPrefix nSuffix with
    | none =>
      rw [hr] at hstore
      refine iff_of_false Bool.false_ne_true fun h => Bool.false_ne_true (hstore.mpr ?_)
      exact (h (not_le.mp hend) nPrefix nSuffix q rfl).imp_right And.left
    | some r =>
      cases r with
      | none =>
        refine iff_of_true rfl fun _ nPrefix' nSuffix' q' heq => Or.inl ?_
        obtain ⟨rfl, rfl, rfl⟩ := lengths_inj heq
        exact store_eq_none_iff.mp hr
      | some t =>
        have hnot : ¬s.term.Refused malloc false nPrefix nSuffix := fun h => by
          rw [store_eq_none_iff.mpr h] at hr
          cases hr
        obtain ⟨hfits, -⟩ := store_spec hr
        have hbuffer := hfits.2.2
        rw [length_padded] at hbuffer
        have hdoclist := nodeDoclist_isSome (a := q + nSuffix.toNat) t s.child
          (show q + nSuffix.toNat ≤ aNode.length + 20 by omega)
        rw [Option.bind_some]
        dsimp only
        by_cases hchild : s.child = 0
        · rw [if_pos hchild]
          refine Iff.trans hdoclist ?_
          constructor
          · intro h _ nPrefix' nSuffix' q' heq
            obtain ⟨rfl, rfl, rfl⟩ := lengths_inj heq
            exact Or.inr ⟨hfits, fun _ => h⟩
          · intro h
            exact ((h (not_le.mp hend) nPrefix nSuffix q rfl).resolve_left hnot).2 hchild
        · rw [if_neg hchild]
          refine iff_of_true rfl fun _ nPrefix' nSuffix' q' heq => ?_
          obtain ⟨rfl, rfl, rfl⟩ := lengths_inj heq
          exact Or.inr ⟨hfits, fun h => absurd h hchild⟩

theorem nodeStep_inv {s s' : NodeReader} (hs : s.term.a.length ≤ s.iOff)
    (h : nodeStep malloc (padded aNode) aNode.length s = some (.inr s')) :
    s'.term.a.length ≤ s'.iOff ∧ aNode.length - s'.iOff < aNode.length - s.iOff := by
  rw [nodeStep] at h
  split at h
  · cases h
  · rename_i hend
    obtain ⟨nPrefix, nSuffix, q, hread, hlt, hle⟩ :=
      readLengths_padded (decide (s.term.a.length ≠ 0)) (not_le.mp hend)
    rw [hread, Option.bind_some] at h
    dsimp only at h
    obtain ⟨r, hstore, hr⟩ := Option.bind_eq_some_iff.mp h
    cases r with
    | none => cases hr
    | some t =>
      obtain ⟨⟨h1, h2, h3, -⟩, hlen⟩ := store_spec hstore
      dsimp only at hr
      split at hr
      · obtain ⟨⟨nDoclist, k⟩, -, hdoclist⟩ := Option.bind_eq_some_iff.mp hr
        dsimp only at hdoclist
        split at hdoclist
        · cases hdoclist
        · obtain ⟨n, hn, hnext⟩ := Option.map_eq_some_iff.mp hdoclist
          rw [addInt] at hn
          split at hn
          · obtain rfl := Option.some.inj hn
            obtain rfl := Sum.inr.inj hnext
            dsimp only
            omega
          · cases hn
      · obtain rfl := Sum.inr.inj (Option.some.inj hr)
        dsimp only
        omega

/-! ### Whole nodes -/

theorem scanStart_padded (aNode : Bytes) (piFirst piLast : Bool) : ∃ r,
    scanStart (padded aNode) aNode.length piFirst piLast = some r ∧
      ∀ s, r = .inr s → s.zBuffer.a.length ≤ s.zCsr := by
  obtain ⟨v, k, hread, -, hk⟩ := readVarint_padded (show 0 < aNode.length + 20 by omega)
  obtain ⟨iChild, k', hread', -⟩ := readVarint_padded (show k < aNode.length + 20 by omega)
  rw [scanStart, hread, Option.bind_some]
  dsimp only
  rw [hread', Option.map_some]
  refine ⟨_, rfl, fun s hs => ?_⟩
  dsimp only at hs
  split at hs
  · cases hs
  · obtain rfl := Sum.inr.inj hs
    exact Nat.zero_le _

theorem nodeStart_padded (aNode : Bytes) : ∃ s, nodeStart (padded aNode) = some s ∧
    s.term.a.length ≤ s.iOff := by
  have hzero : 0 < (padded aNode).length := by
    rw [length_padded]
    omega
  rw [nodeStart, List.getElem?_eq_getElem hzero, Option.bind_some]
  split
  · obtain ⟨iChild, k, hread, -⟩ := readVarint_padded (show 1 < aNode.length + 20 by omega)
    rw [hread, Option.map_some]
    exact ⟨_, rfl, Nat.zero_le _⟩
  · exact ⟨_, rfl, Nat.zero_le _⟩

/-- **When the readers are safe**: exactly when every entry they come to is good. -/
theorem readers_safe_iff (hnode : aNode.length ≤ 1000000000) (malloc : ℤ → Bool) (zTerm : Bytes)
    (piFirst piLast : Bool) :
    ((fts3ScanInteriorNode malloc zTerm aNode piFirst piLast).isSome ↔ ∀ s₀ s,
        scanStart (padded aNode) aNode.length piFirst piLast = some (.inr s₀) →
          Reaches (scanStep malloc zTerm (padded aNode) aNode.length) s₀ s →
            scanGood malloc (padded aNode) aNode.length s) ∧
      ((segReaderLoop malloc aNode).isSome ↔ ∀ s,
        Reaches (segStep malloc (padded aNode) aNode.length) segStart s →
          segGood malloc (padded aNode) aNode.length s) ∧
      ((nodeReaderLoop malloc aNode).isSome ↔ ∀ s₀ s, nodeStart (padded aNode) = some s₀ →
        Reaches (nodeStep malloc (padded aNode) aNode.length) s₀ s →
          nodeGood malloc (padded aNode) aNode.length s) := by
  refine ⟨?_, ?_, ?_⟩
  · obtain ⟨r, hstart, hinv⟩ := scanStart_padded aNode piFirst piLast
    rw [fts3ScanInteriorNode, hstart, Option.bind_some]
    cases r with
    | inl r => exact iff_of_true rfl fun s₀ s h => by cases h
    | inr s₁ =>
      have hrun := isSome_run_iff (fun s : Scan => aNode.length - s.zCsr)
        (fun s => scanStep_isSome malloc zTerm hnode)
        (fun s s' => scanStep_inv) (hinv s₁ rfl)
        (show aNode.length - s₁.zCsr < aNode.length + 1 by omega)
      refine hrun.trans ⟨fun h s₀ s heq => ?_, fun h s => h s₁ s rfl⟩
      obtain rfl := Sum.inr.inj (Option.some.inj heq)
      exact h s
  · exact isSome_run_iff (fun s : Seg => aNode.length - s.pNext)
      (fun s => segStep_isSome malloc hnode) (fun s s' => segStep_inv)
      (show segStart.zTerm.a.length ≤ segStart.pNext from Nat.le_refl 0)
      (show aNode.length - segStart.pNext < aNode.length + 1 by omega)
  · obtain ⟨s₁, hstart, hinv⟩ := nodeStart_padded aNode
    have hrun := isSome_run_iff (fun s : NodeReader => aNode.length - s.iOff)
      (fun s => nodeStep_isSome malloc hnode) (fun s s' => nodeStep_inv) hinv
      (show aNode.length - s₁.iOff < aNode.length + 1 by omega)
    rw [nodeReaderLoop, hstart, Option.bind_some]
    refine hrun.trans ⟨fun h s₀ s heq => ?_, fun h s => h s₁ s rfl⟩
    obtain rfl := Option.some.inj heq
    exact h s

/-- A leaf with the terms `b` and `bc`. -/
def twoTerms : Bytes := [0, 1, 98, 3, 1, 2, 0, 1, 1, 99, 3, 1, 2, 0]

theorem readers_safe_iff_leaf : twoTerms.length ≤ 1000000000 ∧ ∀ s,
    Reaches (segStep (fun _ => true) (padded twoTerms) twoTerms.length) segStart s →
      segGood (fun _ => true) (padded twoTerms) twoTerms.length s :=
  ⟨by decide, (readers_safe_iff (show twoTerms.length ≤ 1000000000 by decide)
    (fun _ => true) [98] true true).2.1.mp (by decide)⟩

/-- The second term of an interior node has a prefix of five bytes, the first term has one. -/
theorem not_forall_safe :
    ¬∀ (malloc : ℤ → Bool) (zTerm aNode : Bytes) (piFirst piLast : Bool),
      aNode.length ≤ 1000000000 →
        (fts3ScanInteriorNode malloc zTerm aNode piFirst piLast).isSome ∧
          (segReaderLoop malloc aNode).isSome ∧ (nodeReaderLoop malloc aNode).isSome := by
  intro h
  have hscan : (fts3ScanInteriorNode (fun _ => true) [98, 98, 98, 98, 98, 98]
      [1, 0, 1, 98, 5, 1, 99] true true).isSome = false := by decide
  exact Bool.false_ne_true
    (hscan.symm.trans (h (fun _ => true) [98, 98, 98, 98, 98, 98] [1, 0, 1, 98, 5, 1, 99] true true
      (by decide)).1)

end Node

end Fts3

end SqliteVms

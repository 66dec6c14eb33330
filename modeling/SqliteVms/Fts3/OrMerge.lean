import SqliteVms.Fts3.MergeBytes

/-!
# The union of doclists

`fts3DoclistOrMerge` of `fts3.c`. Docids are written as differences, modulo 2^64, and compared by the
sign of a 64-bit difference. The documents come out in order if and only if none is too far behind
the next one of the other list.

## Main definitions

* `doclist` — the bytes of a doclist
* `doclistOrMerge` — the function
* `Close` — the docids for which the comparisons are right
* `termSelect` — the doclists of many terms, merged as they come
* `CloseRun` — the lists that come together are close

## Main results

* `doclistOrMerge_doclist` — the merge of the documents
* `isUnion_iff`, `isUnionAll_iff` — when the result is the union
-/

namespace SqliteVms

namespace Fts3

open Query (Poslist)

/-! ### The code -/

/-- A 64-bit number. -/
def i64 (n : ℤ) : ℤ := n.bmod (2 ^ 64)

/-- `DOCID_CMP`. -/
def docidCmp (bDesc : Bool) (i1 i2 : ℤ) : ℤ := i64 ((if bDesc then -1 else 1) * i64 (i1 - i2))

/-- What `fts3PutDeltaVarint3` writes. -/
def putDelta3 (bDescIdx : Bool) (iPrev : ℤ) (bFirst : Bool) (iVal : ℤ) : Bytes :=
  putVarint (if bDescIdx = false ∨ bFirst = false then iVal - iPrev else iPrev - iVal)

/-- `fts3GetDeltaVarint3`: the value and the pointer, or a null pointer. -/
def getDelta3 (bDescIdx : Bool) (iVal : ℤ) (p : Bytes) : Option (ℤ × Bytes) :=
  if p = [] then none
  else
    some (i64 (if bDescIdx then iVal - (getVarint p).1 else iVal + (getVarint p).1),
      p.drop (getVarint p).2)

/-- What `fts3PoslistCopy` copies, and the pointer behind it. -/
def poslistCopy (p : Bytes) : Bytes × Bytes :=
  (p.take (poslistLength 0 p), p.drop (poslistLength 0 p))

/-- The loop of `fts3DoclistOrMerge`: what is written from here on. -/
def orLoop (bDesc : Bool) : ℕ → Option (ℤ × Bytes) → Option (ℤ × Bytes) → ℤ → Bool → Bytes
  | 0, _, _, _, _ => []
  | _ + 1, none, none, _, _ => []
  | fuel + 1, some r1, none, iPrev, bFirstOut =>
    putDelta3 bDesc iPrev bFirstOut r1.1 ++ ((poslistCopy r1.2).1 ++
      orLoop bDesc fuel (getDelta3 bDesc r1.1 (poslistCopy r1.2).2) none r1.1 true)
  | fuel + 1, none, some r2, iPrev, bFirstOut =>
    putDelta3 bDesc iPrev bFirstOut r2.1 ++ ((poslistCopy r2.2).1 ++
      orLoop bDesc fuel none (getDelta3 bDesc r2.1 (poslistCopy r2.2).2) r2.1 true)
  | fuel + 1, some r1, some r2, iPrev, bFirstOut =>
    if docidCmp bDesc r1.1 r2.1 = 0 then
      putDelta3 bDesc iPrev bFirstOut r1.1 ++ ((poslistMergePtrs r1.2 r2.2).1 ++
        orLoop bDesc fuel (getDelta3 bDesc r1.1 (poslistMergePtrs r1.2 r2.2).2.1)
          (getDelta3 bDesc r2.1 (poslistMergePtrs r1.2 r2.2).2.2) r1.1 true)
    else if docidCmp bDesc r1.1 r2.1 < 0 then
      putDelta3 bDesc iPrev bFirstOut r1.1 ++ ((poslistCopy r1.2).1 ++
        orLoop bDesc fuel (getDelta3 bDesc r1.1 (poslistCopy r1.2).2) (some r2) r1.1 true)
    else
      putDelta3 bDesc iPrev bFirstOut r2.1 ++ ((poslistCopy r2.2).1 ++
        orLoop bDesc fuel (some r1) (getDelta3 bDesc r2.1 (poslistCopy r2.2).2) r2.1 true)

/-- `fts3DoclistOrMerge`. -/
def doclistOrMerge (bDesc : Bool) (a1 a2 : Bytes) : Bytes :=
  orLoop bDesc (a1.length + a2.length + 1) (getDelta3 false 0 a1) (getDelta3 false 0 a2) 0 false

/-! ### Doclists -/

/-- The documents of a doclist, with their position lists. -/
abbrev Docs := List (ℤ × Poslist)

/-- The bytes of the documents behind the one with docid `iPrev`. -/
def encodeDocs (bDesc : Bool) : ℤ → Bool → Docs → Bytes
  | _, _, [] => []
  | iPrev, bFirst, d :: l =>
    putDelta3 bDesc iPrev bFirst d.1 ++ (encode d.2 ++ encodeDocs bDesc d.1 true l)

/-- The bytes of a doclist. -/
def doclist (bDesc : Bool) (l : Docs) : Bytes := encodeDocs bDesc 0 false l

/-- A document with a 64-bit docid and a position list. -/
structure DocValid (d : ℤ × Poslist) : Prop where
  lo : -2 ^ 63 ≤ d.1
  hi : d.1 < 2 ^ 63
  valid : d.2.Valid
  small : Small d.2
  nonempty : d.2 ≠ []

/-- A docid in the order of the doclist. -/
def key (bDesc : Bool) (i : ℤ) : ℤ := (if bDesc then -1 else 1) * i

/-- The documents are in order. -/
structure DocsValid (bDesc : Bool) (l : Docs) : Prop where
  doc : ∀ d ∈ l, DocValid d
  sorted : l.Pairwise fun d e => key bDesc d.1 < key bDesc e.1

/-- The documents, merged in the order of `DOCID_CMP`. -/
def mergeDocs (bDesc : Bool) : Docs → Docs → Docs
  | d1 :: l1, d2 :: l2 =>
    if docidCmp bDesc d1.1 d2.1 = 0 then
      (d1.1, Query.poslistMerge d1.2 d2.2) :: mergeDocs bDesc l1 l2
    else if docidCmp bDesc d1.1 d2.1 < 0 then d1 :: mergeDocs bDesc l1 (d2 :: l2)
    else d2 :: mergeDocs bDesc (d1 :: l1) l2
  | [], l2 => l2
  | l1, [] => l1
termination_by l1 l2 => l1.length + l2.length

/-! ### Reading -/

theorem i64_eq_self {i : ℤ} (h : -2 ^ 63 ≤ i) (h' : i < 2 ^ 63) : i64 i = i :=
  Int.bmod_eq_of_le (m := 2 ^ 64) (by omega) (by omega)

variable {bDesc b : Bool} {d d1 d2 : ℤ × Poslist} {l l1 l2 : Docs} {i iPrev : ℤ} {rest : Bytes}

theorem putVarint_ne_nil (v : ℤ) : putVarint v ≠ [] :=
  List.ne_nil_of_length_pos (length_varint_pos _)

/-- A docid that was written is read. -/
theorem getDelta3_putDelta3 (h1 : -2 ^ 63 ≤ i) (h2 : i < 2 ^ 63) (rest : Bytes) :
    getDelta3 (bDesc && b) iPrev (putDelta3 bDesc iPrev b i ++ rest) = some (i, rest) := by
  rw [getDelta3, putDelta3, if_neg (List.append_ne_nil_of_left_ne_nil (putVarint_ne_nil _) _),
    getVarint_putVarint]
  dsimp only
  rw [List.drop_left]
  congr 2
  rw [← i64_eq_self h1 h2]
  cases bDesc <;> cases b <;> simp [i64]

/-- The place in the loop before the documents `l`. -/
def reading (bDesc : Bool) : Docs → Option (ℤ × Bytes)
  | [] => none
  | d :: l => some (d.1, encode d.2 ++ encodeDocs bDesc d.1 true l)

theorem getDelta3_encodeDocs (hd : ∀ d ∈ l, DocValid d) :
    getDelta3 (bDesc && b) iPrev (encodeDocs bDesc iPrev b l) = reading bDesc l := by
  cases l with
  | nil => rfl
  | cons d l =>
    have hv := hd d List.mem_cons_self
    exact getDelta3_putDelta3 hv.lo hv.hi _

theorem getDelta3_next (hd : ∀ d ∈ l, DocValid d) :
    getDelta3 bDesc iPrev (encodeDocs bDesc iPrev true l) = reading bDesc l := by
  rw [← getDelta3_encodeDocs hd, Bool.and_true]

theorem poslistCopy_encode (hd : DocValid d) (rest : Bytes) :
    poslistCopy (encode d.2 ++ rest) = (encode d.2, rest) := by
  rw [poslistCopy, poslistLength_encode hd.valid hd.small, List.take_left, List.drop_left]

theorem mergeDocs_nil_left (l : Docs) : mergeDocs bDesc [] l = l := by
  rw [mergeDocs]

theorem mergeDocs_nil_right (l : Docs) : mergeDocs bDesc l [] = l := by
  cases l with
  | nil => rw [mergeDocs]
  | cons d l =>
    rw [mergeDocs]
    exact fun h => nomatch h

/-- The loop writes the merge of the documents that are left. -/
theorem orLoop_eq {fuel : ℕ} (hfuel : l1.length + l2.length < fuel) (h1 : ∀ d ∈ l1, DocValid d)
    (h2 : ∀ d ∈ l2, DocValid d) (iPrev : ℤ) (b : Bool) :
    orLoop bDesc fuel (reading bDesc l1) (reading bDesc l2) iPrev b =
      encodeDocs bDesc iPrev b (mergeDocs bDesc l1 l2) := by
  induction fuel generalizing l1 l2 iPrev b with
  | zero => omega
  | succ fuel ih =>
    cases l1 with
    | nil =>
      rw [mergeDocs_nil_left]
      cases l2 with
      | nil => rfl
      | cons d2 l2 =>
        have hd := h2 d2 List.mem_cons_self
        have hl := fun d hd => h2 d (List.mem_cons_of_mem d2 hd)
        rw [List.length_cons] at hfuel
        have hnext := @ih [] l2 (by omega) h1 hl d2.1 true
        rw [mergeDocs_nil_left] at hnext
        rw [reading, reading, orLoop, poslistCopy_encode hd, getDelta3_next hl, encodeDocs]
        dsimp only
        rw [← hnext, reading]
    | cons d1 l1 =>
      have hd1 := h1 d1 List.mem_cons_self
      have hl1 := fun d hd => h1 d (List.mem_cons_of_mem d1 hd)
      rw [List.length_cons] at hfuel
      cases l2 with
      | nil =>
        have hnext := @ih l1 [] (by omega) hl1 h2 d1.1 true
        rw [mergeDocs_nil_right] at hnext
        rw [mergeDocs_nil_right, reading, reading, orLoop, poslistCopy_encode hd1,
          getDelta3_next hl1, encodeDocs]
        dsimp only
        rw [← hnext, reading]
      | cons d2 l2 =>
        have hd2 := h2 d2 List.mem_cons_self
        have hl2 := fun d hd => h2 d (List.mem_cons_of_mem d2 hd)
        rw [List.length_cons] at hfuel
        rw [reading, reading, orLoop, mergeDocs]
        dsimp only
        split
        · rw [poslistMergePtrs_encode hd1.valid hd2.valid hd1.small hd2.small, encodeDocs]
          dsimp only
          rw [getDelta3_next hl1, getDelta3_next hl2, ih (by omega) hl1 hl2]
        · split
          · have hnext := @ih l1 (d2 :: l2) (by rw [List.length_cons]; omega) hl1 h2
              d1.1 true
            rw [poslistCopy_encode hd1, encodeDocs, ← hnext, reading]
            dsimp only
            rw [getDelta3_next hl1]
          · have hnext := @ih (d1 :: l1) l2 (by rw [List.length_cons]; omega) h1 hl2
              d2.1 true
            rw [poslistCopy_encode hd2, encodeDocs, ← hnext, reading]
            dsimp only
            rw [getDelta3_next hl2]

theorem length_le_encodeDocs (iPrev : ℤ) (b : Bool) (l : Docs) :
    l.length ≤ (encodeDocs bDesc iPrev b l).length := by
  induction l generalizing iPrev b with
  | nil => exact Nat.zero_le _
  | cons d l ih =>
    have hpos := List.length_pos_of_ne_nil (putVarint_ne_nil
      (if bDesc = false ∨ b = false then d.1 - iPrev else iPrev - d.1))
    have hle := ih d.1 true
    rw [encodeDocs, List.length_append, List.length_append, List.length_cons, putDelta3]
    omega

/-- **The merge.** The bytes of two doclists give those of the merged documents. -/
theorem doclistOrMerge_doclist (h1 : ∀ d ∈ l1, DocValid d) (h2 : ∀ d ∈ l2, DocValid d) :
    doclistOrMerge bDesc (doclist bDesc l1) (doclist bDesc l2) =
      doclist bDesc (mergeDocs bDesc l1 l2) := by
  have hlen1 := @length_le_encodeDocs bDesc 0 false l1
  have hlen2 := @length_le_encodeDocs bDesc 0 false l2
  have hr1 := @getDelta3_encodeDocs bDesc false l1 0 h1
  have hr2 := @getDelta3_encodeDocs bDesc false l2 0 h2
  rw [Bool.and_false] at hr1 hr2
  rw [doclistOrMerge, doclist, doclist, hr1, hr2, orLoop_eq (by omega) h1 h2, doclist]

/-! ### The order -/

theorem docidCmp_eq (i1 i2 : ℤ) : docidCmp bDesc i1 i2 = i64 (key bDesc i1 - key bDesc i2) := by
  cases bDesc <;> simp only [docidCmp, key, i64, Int.bmod_def, if_true, if_false,
    Bool.false_eq_true] <;> omega

theorem docidCmp_eq_zero (h1 : DocValid d1) (h2 : DocValid d2) :
    docidCmp bDesc d1.1 d2.1 = 0 ↔ key bDesc d1.1 = key bDesc d2.1 := by
  have := h1.lo
  have := h1.hi
  have := h2.lo
  have := h2.hi
  rw [docidCmp_eq, i64, Int.bmod_def]
  cases bDesc <;> simp only [key, if_true, if_false, Bool.false_eq_true] <;> split <;> omega

/-- The sign of the difference is right up to a distance of 2^63. -/
theorem docidCmp_neg (h1 : DocValid d1) (h2 : DocValid d2) :
    docidCmp bDesc d1.1 d2.1 < 0 ↔
      (key bDesc d1.1 < key bDesc d2.1 ∧ key bDesc d2.1 ≤ key bDesc d1.1 + 2 ^ 63) ∨
        key bDesc d2.1 + 2 ^ 63 ≤ key bDesc d1.1 := by
  have := h1.lo
  have := h1.hi
  have := h2.lo
  have := h2.hi
  rw [docidCmp_eq, i64, Int.bmod_def]
  cases bDesc <;> simp only [key, if_true, if_false, Bool.false_eq_true] <;> split <;> omega

/-- Where a document of one list has documents of the other one behind it, one of them is at most
2^63 away, or less. -/
def Close (bDesc : Bool) (l1 l2 : Docs) : Prop :=
  (∀ d ∈ l1, ∀ e ∈ l2, key bDesc d.1 ≤ key bDesc e.1 →
    ∃ e' ∈ l2, key bDesc d.1 ≤ key bDesc e'.1 ∧ key bDesc e'.1 ≤ key bDesc d.1 + 2 ^ 63) ∧
  ∀ e ∈ l2, ∀ d ∈ l1, key bDesc e.1 ≤ key bDesc d.1 →
    ∃ d' ∈ l1, key bDesc e.1 ≤ key bDesc d'.1 ∧ key bDesc d'.1 < key bDesc e.1 + 2 ^ 63

/-- The documents are in order. -/
def Sorted (bDesc : Bool) (l : Docs) : Prop :=
  l.Pairwise fun d e => key bDesc d.1 < key bDesc e.1

theorem fst_mem_mergeDocs (l1 l2 : Docs) {i : ℤ} :
    i ∈ (mergeDocs bDesc l1 l2).map Prod.fst → i ∈ l1.map Prod.fst ∨ i ∈ l2.map Prod.fst := by
  fun_induction mergeDocs bDesc l1 l2 with
  | case1 d1 l1 d2 l2 h ih =>
    simp only [List.map_cons, List.mem_cons]
    rintro (rfl | hi)
    · exact Or.inl (Or.inl rfl)
    · exact (ih hi).imp Or.inr Or.inr
  | case2 d1 l1 d2 l2 h h' ih =>
    simp only [List.map_cons, List.mem_cons] at ih ⊢
    rintro (rfl | hi)
    · exact Or.inl (Or.inl rfl)
    · exact (ih hi).imp_left Or.inr
  | case3 d1 l1 d2 l2 h h' ih =>
    simp only [List.map_cons, List.mem_cons] at ih ⊢
    rintro (rfl | hi)
    · exact Or.inr (Or.inl rfl)
    · exact (ih hi).imp_right Or.inr
  | case4 => exact Or.inr
  | case5 => exact Or.inl

theorem mem_fst_mergeDocs (l1 l2 : Docs) (h1 : ∀ d ∈ l1, DocValid d) (h2 : ∀ d ∈ l2, DocValid d)
    {i : ℤ} (h : i ∈ l1.map Prod.fst ∨ i ∈ l2.map Prod.fst) :
    i ∈ (mergeDocs bDesc l1 l2).map Prod.fst := by
  fun_induction mergeDocs bDesc l1 l2 with
  | case1 d1 l1 d2 l2 hcmp ih =>
    have heq := (docidCmp_eq_zero (h1 d1 List.mem_cons_self) (h2 d2 List.mem_cons_self)).mp hcmp
    have hi := ih (fun d hd => h1 d (List.mem_cons_of_mem _ hd))
      (fun d hd => h2 d (List.mem_cons_of_mem _ hd))
    have heq' : d1.1 = d2.1 := by
      cases bDesc <;> simp only [key, if_true, if_false, Bool.false_eq_true] at heq <;> omega
    simp only [List.map_cons, List.mem_cons] at h hi ⊢
    grind
  | case2 d1 l1 d2 l2 _ _ ih =>
    have hi := ih (fun d hd => h1 d (List.mem_cons_of_mem _ hd)) h2
    simp only [List.map_cons, List.mem_cons] at h hi ⊢
    grind
  | case3 d1 l1 d2 l2 _ _ ih =>
    have hi := ih h1 (fun d hd => h2 d (List.mem_cons_of_mem _ hd))
    simp only [List.map_cons, List.mem_cons] at h hi ⊢
    grind
  | case4 => simpa using h
  | case5 => simpa using h

/-- The first document, before all others. -/
theorem close_cons_left (h1 : ∀ d ∈ l1, key bDesc d1.1 < key bDesc d.1)
    (h2 : ∀ e ∈ l2, key bDesc d1.1 < key bDesc e.1)
    (hnear : ∃ e ∈ l2, key bDesc e.1 ≤ key bDesc d1.1 + 2 ^ 63) :
    Close bDesc (d1 :: l1) l2 ↔ Close bDesc l1 l2 := by
  constructor
  · rintro ⟨ha, hb⟩
    refine ⟨fun d hd => ha d (List.mem_cons_of_mem _ hd), fun e he d hd hle => ?_⟩
    obtain ⟨d', hd', hle', hlt'⟩ := hb e he d (List.mem_cons_of_mem _ hd) hle
    rcases List.mem_cons.mp hd' with rfl | hd'
    · exact absurd (h2 e he) (not_lt.mpr hle')
    · exact ⟨d', hd', hle', hlt'⟩
  · rintro ⟨ha, hb⟩
    constructor
    · intro d hd e he hle
      rcases List.mem_cons.mp hd with rfl | hd
      · obtain ⟨e', he', hle'⟩ := hnear
        exact ⟨e', he', (h2 e' he').le, hle'⟩
      · exact ha d hd e he hle
    · intro e he d hd hle
      rcases List.mem_cons.mp hd with rfl | hd
      · exact absurd (h2 e he) (not_lt.mpr hle)
      · obtain ⟨d', hd', hle', hlt'⟩ := hb e he d hd hle
        exact ⟨d', List.mem_cons_of_mem _ hd', hle', hlt'⟩

theorem close_cons_right (h1 : ∀ d ∈ l1, key bDesc d2.1 < key bDesc d.1)
    (h2 : ∀ e ∈ l2, key bDesc d2.1 < key bDesc e.1)
    (hnear : ∃ d ∈ l1, key bDesc d.1 < key bDesc d2.1 + 2 ^ 63) :
    Close bDesc l1 (d2 :: l2) ↔ Close bDesc l1 l2 := by
  constructor
  · rintro ⟨ha, hb⟩
    refine ⟨fun d hd e he hle => ?_, fun e he => hb e (List.mem_cons_of_mem _ he)⟩
    obtain ⟨e', he', hle', hlt'⟩ := ha d hd e (List.mem_cons_of_mem _ he) hle
    rcases List.mem_cons.mp he' with rfl | he'
    · exact absurd (h1 d hd) (not_lt.mpr hle')
    · exact ⟨e', he', hle', hlt'⟩
  · rintro ⟨ha, hb⟩
    constructor
    · intro d hd e he hle
      rcases List.mem_cons.mp he with rfl | he
      · exact absurd (h1 d hd) (not_lt.mpr hle)
      · obtain ⟨e', he', hle', hlt'⟩ := ha d hd e he hle
        exact ⟨e', List.mem_cons_of_mem _ he', hle', hlt'⟩
    · intro e he d hd hle
      rcases List.mem_cons.mp he with rfl | he
      · obtain ⟨d', hd', hlt'⟩ := hnear
        exact ⟨d', hd', (h1 d' hd').le, hlt'⟩
      · exact hb e he d hd hle

/-- A docid of both lists, before all others. -/
theorem close_cons_both (heq : key bDesc d1.1 = key bDesc d2.1)
    (h1 : ∀ d ∈ l1, key bDesc d1.1 < key bDesc d.1)
    (h2 : ∀ e ∈ l2, key bDesc d1.1 < key bDesc e.1) :
    Close bDesc (d1 :: l1) (d2 :: l2) ↔ Close bDesc l1 l2 := by
  constructor
  · rintro ⟨ha, hb⟩
    constructor
    · intro d hd e he hle
      obtain ⟨e', he', hle', hlt'⟩ :=
        ha d (List.mem_cons_of_mem _ hd) e (List.mem_cons_of_mem _ he) hle
      rcases List.mem_cons.mp he' with rfl | he'
      · exact absurd (h1 d hd) (by omega)
      · exact ⟨e', he', hle', hlt'⟩
    · intro e he d hd hle
      obtain ⟨d', hd', hle', hlt'⟩ :=
        hb e (List.mem_cons_of_mem _ he) d (List.mem_cons_of_mem _ hd) hle
      rcases List.mem_cons.mp hd' with rfl | hd'
      · exact absurd (h2 e he) (by omega)
      · exact ⟨d', hd', hle', hlt'⟩
  · rintro ⟨ha, hb⟩
    constructor
    · intro d hd e he hle
      rcases List.mem_cons.mp hd with rfl | hd
      · exact ⟨d2, List.mem_cons_self, heq.le, by omega⟩
      · rcases List.mem_cons.mp he with rfl | he
        · exact absurd (h1 d hd) (by omega)
        · obtain ⟨e', he', hle', hlt'⟩ := ha d hd e he hle
          exact ⟨e', List.mem_cons_of_mem _ he', hle', hlt'⟩
    · intro e he d hd hle
      rcases List.mem_cons.mp he with rfl | he
      · exact ⟨d1, List.mem_cons_self, heq.ge, by omega⟩
      · rcases List.mem_cons.mp hd with rfl | hd
        · exact absurd (h2 e he) (by omega)
        · obtain ⟨d', hd', hle', hlt'⟩ := hb e he d hd hle
          exact ⟨d', List.mem_cons_of_mem _ hd', hle', hlt'⟩

theorem Sorted.lt_head (h : Sorted bDesc (d :: l)) : ∀ e ∈ l, key bDesc d.1 < key bDesc e.1 :=
  (List.pairwise_cons.mp h).1

theorem Sorted.lt_of_lt (h : Sorted bDesc (d :: l)) {i : ℤ} (hi : i < key bDesc d.1) :
    ∀ e ∈ d :: l, i < key bDesc e.1 :=
  List.forall_mem_cons.mpr ⟨hi, fun e he => hi.trans (h.lt_head e he)⟩

/-- What comes after the first document of the merge. -/
theorem lt_mergeDocs {j : ℤ} (h1 : ∀ d ∈ l1, j < key bDesc d.1)
    (h2 : ∀ d ∈ l2, j < key bDesc d.1) : ∀ d ∈ mergeDocs bDesc l1 l2, j < key bDesc d.1 := by
  intro d hd
  rcases fst_mem_mergeDocs l1 l2 (List.mem_map_of_mem hd) with hi | hi
  · obtain ⟨e, he, heq⟩ := List.mem_map.mp hi
    rw [← heq]
    exact h1 e he
  · obtain ⟨e, he, heq⟩ := List.mem_map.mp hi
    rw [← heq]
    exact h2 e he

/-- **The order.** The merge is in order exactly when the documents are close. -/
theorem sorted_mergeDocs (h1 : ∀ d ∈ l1, DocValid d) (h2 : ∀ d ∈ l2, DocValid d)
    (hs1 : Sorted bDesc l1) (hs2 : Sorted bDesc l2) :
    Sorted bDesc (mergeDocs bDesc l1 l2) ↔ Close bDesc l1 l2 := by
  fun_induction mergeDocs bDesc l1 l2 with
  | case1 d1 l1 d2 l2 hcmp ih =>
    have heq := (docidCmp_eq_zero (h1 d1 List.mem_cons_self) (h2 d2 List.mem_cons_self)).mp hcmp
    have hlt2 : ∀ e ∈ l2, key bDesc d1.1 < key bDesc e.1 := heq ▸ hs2.lt_head
    rw [close_cons_both heq hs1.lt_head hlt2, ← ih (fun d hd => h1 d (List.mem_cons_of_mem _ hd))
      (fun d hd => h2 d (List.mem_cons_of_mem _ hd)) hs1.tail hs2.tail]
    exact List.pairwise_cons.trans (and_iff_right (lt_mergeDocs hs1.lt_head hlt2))
  | case2 d1 l1 d2 l2 _ hcmp ih =>
    have hd1 := h1 d1 List.mem_cons_self
    have hd2 := h2 d2 List.mem_cons_self
    have hl1 := fun d hd => h1 d (List.mem_cons_of_mem d1 hd)
    rcases (docidCmp_neg hd1 hd2).mp hcmp with ⟨hlt, hle⟩ | hfar
    · have hlt2 := hs2.lt_of_lt hlt
      rw [close_cons_left hs1.lt_head hlt2 ⟨d2, List.mem_cons_self, hle⟩,
        ← ih hl1 h2 hs1.tail hs2]
      exact List.pairwise_cons.trans (and_iff_right (lt_mergeDocs hs1.lt_head hlt2))
    · refine iff_of_false (fun hs => ?_) fun hc => ?_
      · obtain ⟨e, he, heq⟩ := List.mem_map.mp
          (@mem_fst_mergeDocs bDesc l1 (d2 :: l2) hl1 h2 _ (Or.inr List.mem_cons_self))
        have hlt := hs.lt_head e he
        rw [heq] at hlt
        omega
      · obtain ⟨d', hd', -, hlt⟩ := hc.2 d2 List.mem_cons_self d1 List.mem_cons_self (by omega)
        rcases List.mem_cons.mp hd' with rfl | hd'
        · omega
        · have := hs1.lt_head d' hd'
          omega
  | case3 d1 l1 d2 l2 hne hcmp ih =>
    have hd1 := h1 d1 List.mem_cons_self
    have hd2 := h2 d2 List.mem_cons_self
    have hl2 := fun d hd => h2 d (List.mem_cons_of_mem d2 hd)
    have hne' := (docidCmp_eq_zero hd1 hd2).not.mp hne
    have hcmp' := (docidCmp_neg hd1 hd2).not.mp hcmp
    by_cases hlt : key bDesc d2.1 < key bDesc d1.1
    · have hlt1 := hs1.lt_of_lt hlt
      rw [close_cons_right hlt1 hs2.lt_head ⟨d1, List.mem_cons_self, by omega⟩,
        ← ih h1 hl2 hs1 hs2.tail]
      exact List.pairwise_cons.trans (and_iff_right (lt_mergeDocs hlt1 hs2.lt_head))
    · refine iff_of_false (fun hs => ?_) fun hc => ?_
      · obtain ⟨e, he, heq⟩ := List.mem_map.mp
          (@mem_fst_mergeDocs bDesc (d1 :: l1) l2 h1 hl2 _ (Or.inl List.mem_cons_self))
        have hlt' := hs.lt_head e he
        rw [heq] at hlt'
        exact hlt hlt'
      · obtain ⟨d', hd', -, hle⟩ := hc.1 d1 List.mem_cons_self d2 List.mem_cons_self (by omega)
        rcases List.mem_cons.mp hd' with rfl | hd'
        · omega
        · have := hs2.lt_head d' hd'
          omega
  | case4 l2 =>
    exact iff_of_true hs2 ⟨fun d hd => absurd hd List.not_mem_nil,
      fun e _ d hd => absurd hd List.not_mem_nil⟩
  | case5 l1 =>
    exact iff_of_true hs1 ⟨fun d _ e he => absurd he List.not_mem_nil,
      fun e he => absurd he List.not_mem_nil⟩

/-! ### The union -/

/-- A position of a document. -/
def Docs.Has (l : Docs) (iDocid : ℤ) (iCol iPos : ℕ) : Prop :=
  ∃ p : Poslist, (iDocid, p) ∈ l ∧ p.Has iCol iPos

theorem docs_has_cons {iCol iPos : ℕ} : Docs.Has (d :: l) i iCol iPos ↔
    (i = d.1 ∧ d.2.Has iCol iPos) ∨ Docs.Has l i iCol iPos := by
  constructor
  · rintro ⟨p, hp, hpos⟩
    rcases List.mem_cons.mp hp with rfl | hp
    · exact Or.inl ⟨rfl, hpos⟩
    · exact Or.inr ⟨p, hp, hpos⟩
  · rintro (⟨rfl, hpos⟩ | ⟨p, hp, hpos⟩)
    · exact ⟨d.2, List.mem_cons_self, hpos⟩
    · exact ⟨p, List.mem_cons_of_mem _ hp, hpos⟩

theorem docs_not_has_nil {iCol iPos : ℕ} : ¬ Docs.Has [] i iCol iPos :=
  fun ⟨_, hp, _⟩ => List.not_mem_nil hp

theorem fst_eq_of_key {i1 i2 : ℤ} (h : key bDesc i1 = key bDesc i2) : i1 = i2 := by
  cases bDesc <;> simp only [key, if_true, if_false, Bool.false_eq_true] at h <;> omega

/-- The merge has the positions of both. -/
theorem has_mergeDocs (h1 : ∀ d ∈ l1, DocValid d) (h2 : ∀ d ∈ l2, DocValid d) {iCol iPos : ℕ} :
    (mergeDocs bDesc l1 l2).Has i iCol iPos ↔ l1.Has i iCol iPos ∨ l2.Has i iCol iPos := by
  fun_induction mergeDocs bDesc l1 l2 with
  | case1 d1 l1 d2 l2 hcmp ih =>
    have heq := fst_eq_of_key
      ((docidCmp_eq_zero (h1 d1 List.mem_cons_self) (h2 d2 List.mem_cons_self)).mp hcmp)
    rw [docs_has_cons, docs_has_cons, docs_has_cons, Query.has_poslistMerge,
      ih (fun d hd => h1 d (List.mem_cons_of_mem _ hd))
        (fun d hd => h2 d (List.mem_cons_of_mem _ hd)), ← heq]
    tauto
  | case2 d1 l1 d2 l2 _ _ ih =>
    rw [docs_has_cons, docs_has_cons, ih (fun d hd => h1 d (List.mem_cons_of_mem _ hd)) h2]
    tauto
  | case3 d1 l1 d2 l2 _ _ ih =>
    rw [docs_has_cons, ih h1 (fun d hd => h2 d (List.mem_cons_of_mem _ hd)),
      @docs_has_cons d2 l2]
    tauto
  | case4 l2 => exact (or_iff_right docs_not_has_nil).symm
  | case5 l1 => exact (or_iff_left docs_not_has_nil).symm

theorem DocValid.merge (h1 : DocValid d1) (h2 : DocValid d2) :
    DocValid (d1.1, Query.poslistMerge d1.2 d2.2) := by
  have hv := h1.valid.poslistMerge h2.valid
  exact
    { lo := h1.lo
      hi := h1.hi
      valid := hv
      small := small_poslistMerge hv h1.small h2.small
      nonempty := poslistMerge_ne_nil _ h1.nonempty }

theorem docValid_mergeDocs (h1 : ∀ d ∈ l1, DocValid d) (h2 : ∀ d ∈ l2, DocValid d) :
    ∀ d ∈ mergeDocs bDesc l1 l2, DocValid d := by
  fun_induction mergeDocs bDesc l1 l2 with
  | case1 d1 l1 d2 l2 _ ih =>
    exact List.forall_mem_cons.mpr
      ⟨(h1 d1 List.mem_cons_self).merge (h2 d2 List.mem_cons_self),
        ih (fun d hd => h1 d (List.mem_cons_of_mem _ hd))
          (fun d hd => h2 d (List.mem_cons_of_mem _ hd))⟩
  | case2 d1 l1 d2 l2 _ _ ih =>
    exact List.forall_mem_cons.mpr
      ⟨h1 d1 List.mem_cons_self, ih (fun d hd => h1 d (List.mem_cons_of_mem _ hd)) h2⟩
  | case3 d1 l1 d2 l2 _ _ ih =>
    exact List.forall_mem_cons.mpr
      ⟨h2 d2 List.mem_cons_self, ih h1 (fun d hd => h2 d (List.mem_cons_of_mem _ hd))⟩
  | case4 => exact h2
  | case5 => exact h1

/-- The bytes tell the docids. -/
theorem map_fst_of_encodeDocs (h1 : ∀ d ∈ l1, DocValid d) (h2 : ∀ d ∈ l2, DocValid d)
    (h : encodeDocs bDesc iPrev b l1 = encodeDocs bDesc iPrev b l2) :
    l1.map Prod.fst = l2.map Prod.fst := by
  have hread := (getDelta3_encodeDocs h1).symm.trans
    ((congrArg (getDelta3 (bDesc && b) iPrev) h).trans (getDelta3_encodeDocs h2))
  induction l1 generalizing iPrev b l2 with
  | nil =>
    cases l2 with
    | nil => rfl
    | cons d2 l2 => nomatch hread
  | cons d1 l1 ih =>
    cases l2 with
    | nil => nomatch hread
    | cons d2 l2 =>
      have hl1 := fun d hd => h1 d (List.mem_cons_of_mem d1 hd)
      have hl2 := fun d hd => h2 d (List.mem_cons_of_mem d2 hd)
      obtain ⟨hi, hbytes⟩ := Prod.ext_iff.mp (Option.some.inj hread)
      have hcopy := congrArg (fun p => (poslistCopy p).2) hbytes
      dsimp only at hi hcopy
      rw [poslistCopy_encode (h1 d1 List.mem_cons_self), ← hi,
        poslistCopy_encode (h2 d2 List.mem_cons_self)] at hcopy
      have hnext := (getDelta3_encodeDocs hl1).symm.trans
        ((congrArg (getDelta3 (bDesc && true) d1.1) hcopy).trans (getDelta3_encodeDocs hl2))
      rw [List.map_cons, List.map_cons, hi, ih hl1 hl2 hcopy hnext]

theorem sorted_iff_map (l : Docs) : Sorted bDesc l ↔
    (l.map Prod.fst).Pairwise fun i j => key bDesc i < key bDesc j := by
  rw [Sorted, List.pairwise_map]

/-! ### The length -/

/-- A position follows a position at least as large as in the list it comes from. -/
theorem length_columnMerge_le {p p1 p2 : ℕ} {ps1 ps2 : List ℕ} (h1 : ps1.Pairwise (· < ·))
    (h2 : ps2.Pairwise (· < ·)) (hle1 : p1 ≤ p) (hle2 : p2 ≤ p) (hp1 : ∀ x ∈ ps1, p ≤ x)
    (hp2 : ∀ x ∈ ps2, p ≤ x) : (encodePositions p (Query.columnMerge ps1 ps2)).length ≤
      (encodePositions p1 ps1).length + (encodePositions p2 ps2).length := by
  fun_induction Query.columnMerge ps1 ps2 generalizing p p1 p2 with
  | case1 ps1 x ps2 ih =>
    have hx := hp1 x List.mem_cons_self
    have hx1 := (List.pairwise_cons.mp h1).1
    have hx2 := (List.pairwise_cons.mp h2).1
    have hnext := ih h1.tail h2.tail le_rfl le_rfl (fun z hz => (hx1 z hz).le)
      (fun z hz => (hx2 z hz).le)
    have hmono := length_varint_mono (by omega : x + 2 - p ≤ x + 2 - p1)
    simp only [encodePositions, List.length_append]
    omega
  | case2 x ps1 y ps2 hne hlt ih =>
    have hx := hp1 x List.mem_cons_self
    have hx1 := (List.pairwise_cons.mp h1).1
    have hx2 := (List.pairwise_cons.mp h2).1
    have hnext := @ih x x p2 h1.tail h2 le_rfl (by omega)
      (fun z hz => (hx1 z hz).le)
      (List.forall_mem_cons.mpr ⟨hlt.le, fun z hz => (hlt.trans (hx2 z hz)).le⟩)
    have hmono := length_varint_mono (by omega : x + 2 - p ≤ x + 2 - p1)
    simp only [encodePositions, List.length_append] at hnext ⊢
    omega
  | case3 x ps1 y ps2 hne hlt ih =>
    have hy := hp2 y List.mem_cons_self
    have hx1 := (List.pairwise_cons.mp h1).1
    have hx2 := (List.pairwise_cons.mp h2).1
    have hyx : y < x := by omega
    have hnext := @ih y p1 y h1 h2.tail (by omega) le_rfl
      (List.forall_mem_cons.mpr ⟨hyx.le, fun z hz => (hyx.trans (hx1 z hz)).le⟩)
      (fun z hz => (hx2 z hz).le)
    have hmono := length_varint_mono (by omega : y + 2 - p ≤ y + 2 - p2)
    simp only [encodePositions, List.length_append] at hnext ⊢
    omega
  | case4 ps2 =>
    cases ps2 with
    | nil => exact Nat.zero_le _
    | cons y ps2 =>
      have hmono := length_varint_mono (by omega : y + 2 - p ≤ y + 2 - p2)
      simp only [encodePositions, List.length_append]
      omega
  | case5 ps1 =>
    cases ps1 with
    | nil => exact Nat.zero_le _
    | cons x ps1 =>
      have hmono := length_varint_mono (by omega : x + 2 - p ≤ x + 2 - p1)
      simp only [encodePositions, List.length_append]
      omega

theorem length_poslistMerge_le {a b : Poslist} (ha : a.Valid) (hb : b.Valid) :
    (encodeColumns (Query.poslistMerge a b)).length ≤
      (encodeColumns a).length + (encodeColumns b).length := by
  fun_induction Query.poslistMerge a b with
  | case1 ps1 p1 c ps2 p2 ih =>
    have hcol := @length_columnMerge_le 0 0 0 _ _ ha.head hb.head le_rfl le_rfl
      (fun x _ => Nat.zero_le x) (fun x _ => Nat.zero_le x)
    have hnext := ih ha.tail hb.tail
    simp only [encodeColumns, List.length_append]
    omega
  | case2 c1 ps1 p1 c2 ps2 p2 _ _ ih =>
    have hnext := ih ha.tail hb
    simp only [encodeColumns, List.length_append] at hnext ⊢
    omega
  | case3 c1 ps1 p1 c2 ps2 p2 _ _ ih =>
    have hnext := ih ha hb.tail
    simp only [encodeColumns, List.length_append] at hnext ⊢
    omega
  | case4 => exact Nat.le_add_left _ _
  | case5 => exact Nat.le_add_right _ _

theorem length_encode_poslistMerge {a b : Poslist} (ha : a.Valid) (hb : b.Valid) :
    (encode (Query.poslistMerge a b)).length ≤ (encode a).length + (encode b).length := by
  have hle := length_poslistMerge_le ha hb
  simp only [encode, List.length_append]
  omega

/-- A 64-bit docid. -/
def Docid (i : ℤ) : Prop := -2 ^ 63 ≤ i ∧ i < 2 ^ 63

theorem key_sub_lt {j : ℤ} (hi : Docid i) (hj : Docid j) : key bDesc i - key bDesc j < 2 ^ 64 := by
  obtain ⟨h1, h2⟩ := hi
  obtain ⟨h3, h4⟩ := hj
  cases bDesc <;> simp only [key, if_true, if_false, Bool.false_eq_true] <;> omega

theorem DocValid.docid (h : DocValid d) : Docid d.1 := ⟨h.lo, h.hi⟩

theorem putDelta3_true (h : key bDesc iPrev < key bDesc i)
    (hlt : key bDesc i - key bDesc iPrev < 2 ^ 64) :
    putDelta3 bDesc iPrev true i = varint (key bDesc i - key bDesc iPrev).toNat := by
  rw [putDelta3, putVarint, varint]
  congr 1
  cases bDesc <;> simp only [key, if_true, if_false, Bool.false_eq_true, reduceCtorEq, or_false,
    or_self] at h hlt ⊢ <;> omega

/-- A smaller difference takes no more bytes. -/
theorem length_putDelta3_le {p p1 : ℤ} (hi : Docid i) (hp1 : Docid p1)
    (hle : key bDesc p1 ≤ key bDesc p) (hlt : key bDesc p < key bDesc i) :
    (putDelta3 bDesc p true i).length ≤ (putDelta3 bDesc p1 true i).length := by
  have hdiff : key bDesc i - key bDesc p1 < 2 ^ 64 := key_sub_lt hi hp1
  rw [putDelta3_true hlt (by omega), putDelta3_true (by omega) hdiff]
  exact length_varint_mono (by omega)

theorem length_putDelta3_pos (p : ℤ) (i : ℤ) : 0 < (putDelta3 bDesc p b i).length :=
  length_varint_pos _

theorem length_putDelta3_le_ten (p : ℤ) (i : ℤ) : (putDelta3 bDesc p b i).length ≤ 10 :=
  length_varint_le _

theorem length_encodeDocs_prev {p p1 : ℤ} (h : ∀ d ∈ l, DocValid d) (hp1 : Docid p1)
    (hle : key bDesc p1 ≤ key bDesc p) (hlt : ∀ d ∈ l, key bDesc p < key bDesc d.1) :
    (encodeDocs bDesc p true l).length ≤ (encodeDocs bDesc p1 true l).length := by
  cases l with
  | nil => exact le_rfl
  | cons d l =>
    have hput := length_putDelta3_le (h d List.mem_cons_self).docid hp1 hle
      (hlt d List.mem_cons_self)
    simp only [encodeDocs, List.length_append]
    omega

/-- What is left of both lists comes after the document that was written. -/
theorem Sorted.lt_both (h1 : ∀ d ∈ l1, DocValid d) (h2 : ∀ d ∈ l2, DocValid d)
    (hs : Sorted bDesc (d :: mergeDocs bDesc l1 l2)) :
    (∀ e ∈ l1, key bDesc d.1 < key bDesc e.1) ∧ ∀ e ∈ l2, key bDesc d.1 < key bDesc e.1 := by
  have hall : ∀ e : ℤ × Poslist, e.1 ∈ l1.map Prod.fst ∨ e.1 ∈ l2.map Prod.fst →
      key bDesc d.1 < key bDesc e.1 := by
    intro e he
    obtain ⟨e', he', heq⟩ := List.mem_map.mp (@mem_fst_mergeDocs bDesc l1 l2 h1 h2 _ he)
    rw [← heq]
    exact hs.lt_head e' he'
  exact ⟨fun e he => hall e (Or.inl (List.mem_map_of_mem he)),
    fun e he => hall e (Or.inr (List.mem_map_of_mem he))⟩

theorem length_encodeDocs_merge {p p1 p2 : ℤ} (h1 : ∀ d ∈ l1, DocValid d)
    (h2 : ∀ d ∈ l2, DocValid d) (hs : Sorted bDesc (mergeDocs bDesc l1 l2)) (hp1 : Docid p1)
    (hp2 : Docid p2) (hle1 : key bDesc p1 ≤ key bDesc p) (hle2 : key bDesc p2 ≤ key bDesc p)
    (hlt1 : ∀ d ∈ l1, key bDesc p < key bDesc d.1)
    (hlt2 : ∀ d ∈ l2, key bDesc p < key bDesc d.1) :
    (encodeDocs bDesc p true (mergeDocs bDesc l1 l2)).length ≤
      (encodeDocs bDesc p1 true l1).length + (encodeDocs bDesc p2 true l2).length := by
  fun_induction mergeDocs bDesc l1 l2 generalizing p p1 p2 with
  | case1 d1 l1 d2 l2 hcmp ih =>
    have hd1 := h1 d1 List.mem_cons_self
    have hd2 := h2 d2 List.mem_cons_self
    have hl1 := fun d hd => h1 d (List.mem_cons_of_mem d1 hd)
    have hl2 := fun d hd => h2 d (List.mem_cons_of_mem d2 hd)
    have heq := fst_eq_of_key ((docidCmp_eq_zero hd1 hd2).mp hcmp)
    obtain ⟨ha, hb⟩ := hs.lt_both hl1 hl2
    have hnext := ih hl1 hl2 hs.tail hd1.docid hd1.docid le_rfl le_rfl ha hb
    have hput := length_putDelta3_le hd1.docid hp1 hle1 (hlt1 d1 List.mem_cons_self)
    have henc := length_encode_poslistMerge hd1.valid hd2.valid
    simp only [encodeDocs, List.length_append, ← heq]
    omega
  | case2 d1 l1 d2 l2 _ _ ih =>
    have hd1 := h1 d1 List.mem_cons_self
    have hl1 := fun d hd => h1 d (List.mem_cons_of_mem d1 hd)
    obtain ⟨ha, hb⟩ := hs.lt_both hl1 h2
    have hlt := hlt1 d1 List.mem_cons_self
    have hnext := ih hl1 h2 hs.tail hd1.docid hp2 le_rfl (by omega) ha hb
    have hput := length_putDelta3_le hd1.docid hp1 hle1 hlt
    simp only [encodeDocs, List.length_append] at hnext ⊢
    omega
  | case3 d1 l1 d2 l2 _ _ ih =>
    have hd2 := h2 d2 List.mem_cons_self
    have hl2 := fun d hd => h2 d (List.mem_cons_of_mem d2 hd)
    obtain ⟨ha, hb⟩ := hs.lt_both h1 hl2
    have hlt := hlt2 d2 List.mem_cons_self
    have hnext := ih h1 hl2 hs.tail hp1 hd2.docid (by omega) le_rfl ha hb
    have hput := length_putDelta3_le hd2.docid hp2 hle2 hlt
    simp only [encodeDocs, List.length_append] at hnext ⊢
    omega
  | case4 l2 => exact (length_encodeDocs_prev h2 hp2 hle2 hlt2).trans (Nat.le_add_left _ _)
  | case5 l1 => exact (length_encodeDocs_prev h1 hp1 hle1 hlt1).trans (Nat.le_add_right _ _)

/-- The first docid of a list may take up to 9 bytes more after another docid. -/
theorem length_encodeDocs_first (p : ℤ) (l : Docs) :
    (encodeDocs bDesc p true l).length ≤ (doclist bDesc l).length + 9 := by
  cases l with
  | nil => exact Nat.zero_le _
  | cons d l =>
    have hle := @length_putDelta3_le_ten bDesc true p d.1
    have hpos := @length_putDelta3_pos bDesc false 0 d.1
    simp only [doclist, encodeDocs, List.length_append]
    omega

/-- **The length.** The output fits in the space that is allocated. -/
theorem length_doclist_merge (h1 : ∀ d ∈ l1, DocValid d) (h2 : ∀ d ∈ l2, DocValid d)
    (hs : Sorted bDesc (mergeDocs bDesc l1 l2)) :
    (doclist bDesc (mergeDocs bDesc l1 l2)).length ≤
      (doclist bDesc l1).length + (doclist bDesc l2).length + 9 := by
  cases l1 with
  | nil =>
    rw [mergeDocs_nil_left]
    omega
  | cons d1 l1 =>
    cases l2 with
    | nil =>
      rw [mergeDocs_nil_right]
      omega
    | cons d2 l2 =>
      have hd1 := h1 d1 List.mem_cons_self
      have hd2 := h2 d2 List.mem_cons_self
      have hl1 := fun d hd => h1 d (List.mem_cons_of_mem d1 hd)
      have hl2 := fun d hd => h2 d (List.mem_cons_of_mem d2 hd)
      rw [mergeDocs] at hs ⊢
      split at hs
      · rename_i hcmp
        rw [if_pos hcmp]
        have heq := fst_eq_of_key ((docidCmp_eq_zero hd1 hd2).mp hcmp)
        obtain ⟨ha, hb⟩ := hs.lt_both hl1 hl2
        have hnext := length_encodeDocs_merge hl1 hl2 hs.tail hd1.docid hd1.docid le_rfl le_rfl
          ha hb
        have henc := length_encode_poslistMerge hd1.valid hd2.valid
        simp only [doclist, encodeDocs, List.length_append, ← heq]
        omega
      · rename_i hne
        rw [if_neg hne]
        split at hs
        · rename_i hcmp
          rw [if_pos hcmp]
          obtain ⟨ha, hb⟩ := hs.lt_both hl1 h2
          have hnext := length_encodeDocs_merge hl1 h2 hs.tail hd1.docid hd1.docid le_rfl le_rfl
            ha hb
          have hfirst := @length_encodeDocs_first bDesc d1.1 (d2 :: l2)
          simp only [doclist, encodeDocs, List.length_append] at hnext hfirst ⊢
          omega
        · rename_i hcmp
          rw [if_neg hcmp]
          obtain ⟨ha, hb⟩ := hs.lt_both h1 hl2
          have hnext := length_encodeDocs_merge h1 hl2 hs.tail hd2.docid hd2.docid le_rfl le_rfl
            ha hb
          have hfirst := @length_encodeDocs_first bDesc d2.1 (d1 :: l1)
          simp only [doclist, encodeDocs, List.length_append] at hnext hfirst ⊢
          omega

/-! ### What the merge is for -/

/-- The bytes are those of the union of two doclists, and fit in the space allocated for them. -/
def IsUnion (bDesc : Bool) (l1 l2 : Docs) (out : Bytes) : Prop :=
  (∃ l, DocsValid bDesc l ∧ out = doclist bDesc l ∧
    ∀ iDocid iCol iPos, l.Has iDocid iCol iPos ↔
      l1.Has iDocid iCol iPos ∨ l2.Has iDocid iCol iPos) ∧
  out.length ≤ (doclist bDesc l1).length + (doclist bDesc l2).length + 9

theorem DocsValid.mergeDocs (h1 : DocsValid bDesc l1) (h2 : DocsValid bDesc l2)
    (hc : Close bDesc l1 l2) : DocsValid bDesc (mergeDocs bDesc l1 l2) :=
  ⟨docValid_mergeDocs h1.doc h2.doc, (sorted_mergeDocs h1.doc h2.doc h1.sorted h2.sorted).mpr hc⟩

/-- **The union.** The result is the union of two doclists exactly when their docids are close. -/
theorem isUnion_iff (h1 : DocsValid bDesc l1) (h2 : DocsValid bDesc l2) :
    IsUnion bDesc l1 l2 (doclistOrMerge bDesc (doclist bDesc l1) (doclist bDesc l2)) ↔
      Close bDesc l1 l2 := by
  have hsorted := sorted_mergeDocs h1.doc h2.doc h1.sorted h2.sorted
  have hdoc : ∀ d ∈ mergeDocs bDesc l1 l2, DocValid d := docValid_mergeDocs h1.doc h2.doc
  rw [doclistOrMerge_doclist h1.doc h2.doc]
  constructor
  · rintro ⟨⟨l, hl, hbytes, -⟩, -⟩
    have hfst := map_fst_of_encodeDocs hdoc hl.doc hbytes
    rw [← hsorted, sorted_iff_map, hfst, ← sorted_iff_map]
    exact hl.sorted
  · intro hc
    exact ⟨⟨_, h1.mergeDocs h2 hc, rfl, fun i iCol iPos => has_mergeDocs h1.doc h2.doc⟩,
      length_doclist_merge h1.doc h2.doc (hsorted.mpr hc)⟩

/-! ### The doclists of many terms -/

/-- The loop of `fts3TermSelectMerge`. The last place keeps what is merged into it. -/
def termSelectLoop (bDesc : Bool) : List (Option Bytes) → Bytes → List (Option Bytes)
  | [], _ => []
  | none :: aa, aMerge => some aMerge :: aa
  | [some a], aMerge => [some (doclistOrMerge bDesc aMerge a)]
  | some a :: a' :: aa, aMerge =>
    none :: termSelectLoop bDesc (a' :: aa) (doclistOrMerge bDesc aMerge a)

/-- `fts3TermSelectMerge`, for the places of `aaOutput`. -/
def termSelectMerge (bDesc : Bool) (aa : List (Option Bytes)) (aDoclist : Bytes) :
    List (Option Bytes) :=
  match aa with
  | none :: aa => some aDoclist :: aa
  | aa => termSelectLoop bDesc aa aDoclist

/-- The loop of `fts3TermSelectFinishMerge`. -/
def termSelectFinishMerge (bDesc : Bool) : List (Option Bytes) → Option Bytes → Option Bytes
  | [], aOut => aOut
  | none :: aa, aOut => termSelectFinishMerge bDesc aa aOut
  | some a :: aa, none => termSelectFinishMerge bDesc aa (some a)
  | some a :: aa, some aOut => termSelectFinishMerge bDesc aa (some (doclistOrMerge bDesc a aOut))

/-- The doclists of the terms, merged as they come, and what is left of them in the end. -/
def termSelect (bDesc : Bool) (lists : List Bytes) : Option Bytes :=
  termSelectFinishMerge bDesc (lists.foldl (termSelectMerge bDesc) (List.replicate 16 none)) none

/-! ### Which doclists come together -/

variable {α : Type*}

/-- `termSelectLoop` for any way to merge. -/
def addLoop (op : α → α → α) : List (Option α) → α → List (Option α)
  | [], _ => []
  | none :: ds, m => some m :: ds
  | [some l], m => [some (op m l)]
  | some l :: d :: ds, m => none :: addLoop op (d :: ds) (op m l)

/-- `termSelectFinishMerge` for any way to merge. -/
def finishLoop (op : α → α → α) : List (Option α) → Option α → Option α
  | [], o => o
  | none :: ds, o => finishLoop op ds o
  | some l :: ds, none => finishLoop op ds (some l)
  | some l :: ds, some m => finishLoop op ds (some (op l m))

/-- The documents of the lists that `addLoop` brings together are close. The documents of a place are
those of the lists gathered there, in any order. -/
def CloseLoop (bDesc : Bool) : List (Option Docs) → Docs → Prop
  | [], _ => True
  | none :: _, _ => True
  | [some l], m => Close bDesc m l
  | some l :: d :: ds, m => Close bDesc m l ∧ CloseLoop bDesc (d :: ds) (m ++ l)

/-- The documents of the lists that `finishLoop` brings together are close. -/
def CloseFinish (bDesc : Bool) : List (Option Docs) → Option Docs → Prop
  | [], _ => True
  | none :: ds, o => CloseFinish bDesc ds o
  | some l :: ds, none => CloseFinish bDesc ds (some l)
  | some l :: ds, some m => Close bDesc l m ∧ CloseFinish bDesc ds (some (l ++ m))

/-- The lists that come together are close, as one list after another joins those gathered before. -/
def CloseRun (bDesc : Bool) : List (Option Docs) → List Docs → Prop
  | gs, [] => CloseFinish bDesc gs none
  | gs, m :: ls => CloseLoop bDesc gs m ∧ CloseRun bDesc (addLoop (· ++ ·) gs m) ls

/-- The bytes are those of the union of the doclists. -/
def IsUnionAll (bDesc : Bool) (L : List Docs) (out : Bytes) : Prop :=
  ∃ l, DocsValid bDesc l ∧ out = doclist bDesc l ∧
    ∀ iDocid iCol iPos, l.Has iDocid iCol iPos ↔ ∃ l' ∈ L, l'.Has iDocid iCol iPos

/-! ### A merged list stands for those it was merged from -/

variable {L ls : List Docs} {m g g1 g2 : Docs} {ds gs : List (Option Docs)} {o og : Option Docs}

/-- The places of `aaOutput` before the first list. -/
abbrev noPlaces : List (Option Docs) := List.replicate 16 none

/-- `l` has the documents of `g`, each once. -/
structure Stands (l g : Docs) : Prop where
  doc : ∀ d ∈ l, DocValid d
  fst : ∀ i, i ∈ l.map Prod.fst ↔ i ∈ g.map Prod.fst
  has : ∀ i iCol iPos, l.Has i iCol iPos ↔ g.Has i iCol iPos

theorem DocsValid.stands (h : DocsValid bDesc l) : Stands l l :=
  ⟨h.doc, fun _ => Iff.rfl, fun _ _ _ => Iff.rfl⟩

theorem mem_fst_mergeDocs_iff (h1 : ∀ d ∈ l1, DocValid d) (h2 : ∀ d ∈ l2, DocValid d) :
    i ∈ (mergeDocs bDesc l1 l2).map Prod.fst ↔ i ∈ l1.map Prod.fst ∨ i ∈ l2.map Prod.fst :=
  ⟨fst_mem_mergeDocs l1 l2, mem_fst_mergeDocs l1 l2 h1 h2⟩

theorem docs_has_append {iCol iPos : ℕ} :
    Docs.Has (l1 ++ l2) i iCol iPos ↔ Docs.Has l1 i iCol iPos ∨ Docs.Has l2 i iCol iPos := by
  simp only [Docs.Has, List.mem_append, or_and_right, exists_or]

theorem Stands.merge (h1 : Stands l1 g1) (h2 : Stands l2 g2) :
    Stands (mergeDocs bDesc l1 l2) (g1 ++ g2) where
  doc := docValid_mergeDocs h1.doc h2.doc
  fst i := by
    rw [mem_fst_mergeDocs_iff h1.doc h2.doc, h1.fst, h2.fst, List.map_append, List.mem_append]
  has i iCol iPos := by rw [has_mergeDocs h1.doc h2.doc, h1.has, h2.has, docs_has_append]

/-- Which documents are close is said of their docids. -/
theorem close_iff_map : Close bDesc l1 l2 ↔
    (∀ i ∈ l1.map Prod.fst, ∀ j ∈ l2.map Prod.fst, key bDesc i ≤ key bDesc j →
      ∃ j' ∈ l2.map Prod.fst, key bDesc i ≤ key bDesc j' ∧ key bDesc j' ≤ key bDesc i + 2 ^ 63) ∧
    ∀ j ∈ l2.map Prod.fst, ∀ i ∈ l1.map Prod.fst, key bDesc j ≤ key bDesc i →
      ∃ i' ∈ l1.map Prod.fst, key bDesc j ≤ key bDesc i' ∧ key bDesc i' < key bDesc j + 2 ^ 63 := by
  simp only [Close, List.mem_map, forall_exists_index, and_imp, forall_apply_eq_imp_iff₂,
    exists_exists_and_eq_and]

theorem Stands.close_iff (h1 : Stands l1 g1) (h2 : Stands l2 g2) :
    Close bDesc l1 l2 ↔ Close bDesc g1 g2 := by
  simp only [close_iff_map, h1.fst, h2.fst]

/-- A merge keeps the documents of each list in their places, in order or not. -/
theorem sublist_mergeDocs (h1 : ∀ d ∈ l1, DocValid d) (h2 : ∀ d ∈ l2, DocValid d) :
    (l1.map Prod.fst).Sublist ((mergeDocs bDesc l1 l2).map Prod.fst) ∧
      (l2.map Prod.fst).Sublist ((mergeDocs bDesc l1 l2).map Prod.fst) := by
  fun_induction mergeDocs bDesc l1 l2 with
  | case1 d1 l1 d2 l2 hcmp ih =>
    have heq := fst_eq_of_key
      ((docidCmp_eq_zero (h1 d1 List.mem_cons_self) (h2 d2 List.mem_cons_self)).mp hcmp)
    have hnext := ih (fun d hd => h1 d (List.mem_cons_of_mem _ hd))
      fun d hd => h2 d (List.mem_cons_of_mem _ hd)
    simp only [List.map_cons, ← heq]
    exact ⟨hnext.1.cons_cons _, hnext.2.cons_cons _⟩
  | case2 d1 l1 d2 l2 _ _ ih =>
    have hnext := ih (fun d hd => h1 d (List.mem_cons_of_mem _ hd)) h2
    exact ⟨hnext.1.cons_cons _, hnext.2.cons _⟩
  | case3 d1 l1 d2 l2 _ _ ih =>
    have hnext := ih h1 fun d hd => h2 d (List.mem_cons_of_mem _ hd)
    exact ⟨hnext.1.cons _, hnext.2.cons_cons _⟩
  | case4 l2 => exact ⟨List.nil_sublist _, List.Sublist.refl _⟩
  | case5 l1 => exact ⟨List.Sublist.refl _, List.nil_sublist _⟩

theorem Stands.sorted_merge (h1 : Stands l1 g1) (h2 : Stands l2 g2) :
    Sorted bDesc (mergeDocs bDesc l1 l2) ↔
      Sorted bDesc l1 ∧ Sorted bDesc l2 ∧ Close bDesc g1 g2 := by
  rw [← h1.close_iff h2]
  constructor
  · intro hs
    obtain ⟨hsub1, hsub2⟩ := @sublist_mergeDocs bDesc l1 l2 h1.doc h2.doc
    have hs1 := (sorted_iff_map l1).mpr (((sorted_iff_map _).mp hs).sublist hsub1)
    have hs2 := (sorted_iff_map l2).mpr (((sorted_iff_map _).mp hs).sublist hsub2)
    exact ⟨hs1, hs2, (sorted_mergeDocs h1.doc h2.doc hs1 hs2).mp hs⟩
  · rintro ⟨hs1, hs2, hc⟩
    exact (sorted_mergeDocs h1.doc h2.doc hs1 hs2).mpr hc

/-! ### The places -/

/-- The bytes at a place of `aaOutput`. -/
def place (bDesc : Bool) : Option Docs → Option Bytes := Option.map (doclist bDesc)

/-- What is at a place, if anything, is in order. -/
def SortedAt (bDesc : Bool) (o : Option Docs) : Prop := ∀ l ∈ o, Sorted bDesc l

/-- Place by place, merged lists stand for the lists gathered there. -/
abbrev Places (ds gs : List (Option Docs)) : Prop := List.Forall₂ (Option.Rel Stands) ds gs

theorem sortedAt_none : SortedAt bDesc none := fun _ hl => absurd hl (Option.not_mem_none _)

theorem sortedAt_some : SortedAt bDesc (some l) ↔ Sorted bDesc l :=
  ⟨fun h => h l rfl, fun h _ hl => Option.some.inj hl ▸ h⟩

theorem termSelectLoop_eq (hds : Places ds gs) (hm : Stands m g) :
    termSelectLoop bDesc (ds.map (place bDesc)) (doclist bDesc m) =
      (addLoop (mergeDocs bDesc) ds m).map (place bDesc) := by
  induction hds generalizing m g with
  | nil => rfl
  | @cons d e ds gs hd htail ih =>
    cases hd with
    | none => rfl
    | @some l k hl =>
      have hbytes := @doclistOrMerge_doclist bDesc m l hm.doc hl.doc
      cases htail with
      | nil => exact congrArg (fun a => [some a]) hbytes
      | cons hd htail =>
        have hnext := ih (@Stands.merge bDesc _ _ _ _ hm hl)
        rw [← hbytes] at hnext
        exact congrArg (none :: ·) hnext

theorem termSelectMerge_eq (hds : Places ds gs) (hm : Stands m g) :
    termSelectMerge bDesc (ds.map (place bDesc)) (doclist bDesc m) =
      (addLoop (mergeDocs bDesc) ds m).map (place bDesc) := by
  rw [← termSelectLoop_eq hds hm]
  rcases ds with _ | ⟨_ | l, ds⟩ <;> rfl

theorem Places.addLoop (hds : Places ds gs) (hm : Stands m g) :
    Places (addLoop (mergeDocs bDesc) ds m) (addLoop (· ++ ·) gs g) := by
  induction hds generalizing m g with
  | nil => exact List.Forall₂.nil
  | cons hd htail ih =>
    cases hd with
    | none => exact List.Forall₂.cons (Option.Rel.some hm) htail
    | some hl =>
      cases htail with
      | nil => exact List.Forall₂.cons (Option.Rel.some (hm.merge hl)) List.Forall₂.nil
      | cons hd htail => exact List.Forall₂.cons Option.Rel.none (ih (hm.merge hl))

theorem sorted_addLoop (hne : ds ≠ []) (hds : Places ds gs) (hm : Stands m g) :
    (∀ o ∈ addLoop (mergeDocs bDesc) ds m, SortedAt bDesc o) ↔
      (∀ o ∈ ds, SortedAt bDesc o) ∧ Sorted bDesc m ∧ CloseLoop bDesc gs g := by
  induction hds generalizing m g with
  | nil => exact absurd rfl hne
  | @cons d e ds gs hd htail ih =>
    cases hd with
    | none =>
      simp only [Fts3.addLoop, CloseLoop, List.forall_mem_cons, sortedAt_some]
      exact ⟨fun h => ⟨⟨sortedAt_none, h.2⟩, h.1, trivial⟩, fun h => ⟨h.2.1, h.1.2⟩⟩
    | @some l k hl =>
      have hmerge := @Stands.sorted_merge bDesc _ _ _ _ hm hl
      cases htail with
      | nil =>
        simp only [Fts3.addLoop, CloseLoop, List.forall_mem_cons, sortedAt_some, hmerge]
        tauto
      | cons hd htail =>
        have hnext := ih (List.cons_ne_nil _ _) (@Stands.merge bDesc _ _ _ _ hm hl)
        simp only [List.forall_mem_cons] at hnext
        simp only [Fts3.addLoop, CloseLoop, List.forall_mem_cons, sortedAt_some, hnext, hmerge]
        exact ⟨fun h => ⟨⟨h.2.2.1.2.1, h.2.1⟩, h.2.2.1.1, h.2.2.1.2.2, h.2.2.2⟩,
          fun h => ⟨sortedAt_none, h.1.2, ⟨h.2.1, h.1.1, h.2.2.1⟩, h.2.2.2⟩⟩
theorem finishLoop_eq (hds : Places ds gs) (ho : Option.Rel Stands o og) :
    termSelectFinishMerge bDesc (ds.map (place bDesc)) (place bDesc o) =
      place bDesc (finishLoop (mergeDocs bDesc) ds o) := by
  induction hds generalizing o og with
  | nil => rfl
  | cons hd _ ih =>
    cases hd with
    | none => exact ih ho
    | @some l k hl =>
      cases ho with
      | none => exact ih (Option.Rel.some hl)
      | @some m g hm =>
        have hnext := ih (Option.Rel.some (@Stands.merge bDesc _ _ _ _ hl hm))
        have hbytes := @doclistOrMerge_doclist bDesc l m hl.doc hm.doc
        rw [place, Option.map_some, ← hbytes] at hnext
        exact hnext

theorem rel_finishLoop (hds : Places ds gs) (ho : Option.Rel Stands o og) :
    Option.Rel Stands (finishLoop (mergeDocs bDesc) ds o) (finishLoop (· ++ ·) gs og) := by
  induction hds generalizing o og with
  | nil => exact ho
  | cons hd _ ih =>
    cases hd with
    | none => exact ih ho
    | some hl =>
      cases ho with
      | none => exact ih (Option.Rel.some hl)
      | some hm => exact ih (Option.Rel.some (hl.merge hm))

theorem sorted_finishLoop (hds : Places ds gs) (ho : Option.Rel Stands o og) :
    SortedAt bDesc (finishLoop (mergeDocs bDesc) ds o) ↔
      (∀ d ∈ ds, SortedAt bDesc d) ∧ SortedAt bDesc o ∧ CloseFinish bDesc gs og := by
  induction hds generalizing o og with
  | nil => simp [finishLoop, CloseFinish]
  | cons hd _ ih =>
    cases hd with
    | none =>
      have hnext := ih ho
      simp only [finishLoop, CloseFinish, List.forall_mem_cons, hnext]
      exact and_congr_left fun _ => (and_iff_right sortedAt_none).symm
    | @some l k hl =>
      cases ho with
      | none =>
        have hnext := ih (Option.Rel.some hl)
        simp only [finishLoop, CloseFinish, List.forall_mem_cons, hnext]
        exact ⟨fun h => ⟨⟨h.2.1, h.1⟩, sortedAt_none, h.2.2⟩, fun h => ⟨h.1.2, h.1.1, h.2.2⟩⟩
      | @some m g hm =>
        have hnext := ih (Option.Rel.some (@Stands.merge bDesc _ _ _ _ hl hm))
        simp only [finishLoop, CloseFinish, List.forall_mem_cons, sortedAt_some, hnext,
          hl.sorted_merge hm]
        tauto

/-! ### The union of many doclists -/

/-- The documents that are gathered at the places. -/
def gathered (gs : List (Option Docs)) : Docs := gs.flatMap (Option.getD · [])

theorem mem_gathered_addLoop (hne : gs ≠ []) (g : Docs) :
    d ∈ gathered (addLoop (· ++ ·) gs g) ↔ d ∈ gathered gs ∨ d ∈ g := by
  fun_induction addLoop (· ++ ·) gs g with
  | case1 => exact absurd rfl hne
  | case2 gs g =>
    simp only [gathered, List.flatMap_cons, List.mem_append, Option.getD_some, Option.getD_none,
      List.not_mem_nil]
    tauto
  | case3 l g =>
    simp only [gathered, List.flatMap_cons, List.mem_append, Option.getD_some]
    tauto
  | case4 l o gs g ih =>
    have hnext := ih (List.cons_ne_nil _ _)
    simp only [gathered, List.flatMap_cons, List.mem_append, Option.getD_some, Option.getD_none,
      List.not_mem_nil] at hnext ⊢
    tauto

theorem addLoop_ne_nil {op : Docs → Docs → Docs} (hne : ds ≠ []) (m : Docs) :
    addLoop op ds m ≠ [] := by
  fun_cases addLoop op ds m with
  | case1 => exact absurd rfl hne
  | _ => exact List.cons_ne_nil _ _

theorem mem_finishLoop (gs : List (Option Docs)) (og : Option Docs) :
    d ∈ (finishLoop (· ++ ·) gs og).getD [] ↔ d ∈ gathered gs ∨ d ∈ og.getD [] := by
  fun_induction finishLoop (· ++ ·) gs og with
  | case1 o => simp [gathered]
  | case2 gs o ih => simpa [gathered] using ih
  | case3 l gs ih =>
    simp only [gathered, List.flatMap_cons, List.mem_append, Option.getD_some, Option.getD_none,
      List.not_mem_nil] at ih ⊢
    tauto
  | case4 l gs m ih =>
    simp only [gathered, List.flatMap_cons, List.mem_append, Option.getD_some] at ih ⊢
    tauto

/-- **The run.** Merging one list after another and then what is left gives one list that stands for
all documents; it is in order exactly when the lists that come together are close. -/
theorem termSelect_run (hne : ds ≠ []) (hds : Places ds gs) (hls : ∀ l ∈ ls, DocsValid bDesc l) :
    ∃ o og, Option.Rel Stands o og ∧
      termSelectFinishMerge bDesc
        ((ls.map (doclist bDesc)).foldl (termSelectMerge bDesc) (ds.map (place bDesc))) none =
          place bDesc o ∧
      (SortedAt bDesc o ↔ (∀ d ∈ ds, SortedAt bDesc d) ∧ CloseRun bDesc gs ls) ∧
      ∀ d, d ∈ og.getD [] ↔ d ∈ gathered gs ∨ ∃ l ∈ ls, d ∈ l := by
  induction ls generalizing ds gs with
  | nil =>
    have ho : Option.Rel Stands none none := Option.Rel.none
    refine ⟨_, _, rel_finishLoop hds ho, finishLoop_eq hds ho, ?_, fun d => ?_⟩
    · rw [sorted_finishLoop hds ho, and_iff_right sortedAt_none]
      rfl
    · rw [mem_finishLoop]
      simp
  | cons m ls ih =>
    have hm := hls m List.mem_cons_self
    have hgs : gs ≠ [] := fun h => hne (List.forall₂_nil_right_iff.mp (h ▸ hds))
    obtain ⟨o, og, hrel, hrun, hsorted, hmem⟩ := ih (addLoop_ne_nil hne m)
      (hds.addLoop hm.stands) fun l hl => hls l (List.mem_cons_of_mem _ hl)
    refine ⟨o, og, hrel, ?_, ?_, fun d => ?_⟩
    · rw [List.map_cons, List.foldl_cons, termSelectMerge_eq hds hm.stands, hrun]
    · have hmsorted : Sorted bDesc m := hm.sorted
      rw [hsorted, sorted_addLoop hne hds hm.stands, CloseRun, and_iff_right hmsorted, and_assoc]
    · rw [hmem, mem_gathered_addLoop hgs, or_assoc]
      simp only [List.mem_cons, exists_eq_or_imp]

theorem places_noPlaces : Places noPlaces noPlaces :=
  List.forall₂_same.mpr fun o ho => by
    rw [List.eq_of_mem_replicate ho]
    exact Option.Rel.none

/-- **The union of many.** The result is the union of the doclists exactly when those that come
together are close. -/
theorem isUnionAll_iff (h : ∀ l ∈ L, DocsValid bDesc l) :
    IsUnionAll bDesc L ((termSelect bDesc (L.map (doclist bDesc))).getD []) ↔
      CloseRun bDesc noPlaces L := by
  obtain ⟨o, og, hrel, hrun, hsorted, hmem⟩ :=
    termSelect_run (show noPlaces ≠ [] from List.cons_ne_nil _ _) places_noPlaces h
  have hempty : ∀ d ∈ noPlaces, SortedAt bDesc d := fun d hd =>
    List.eq_of_mem_replicate hd ▸ sortedAt_none
  have hstands : Stands (o.getD []) (og.getD []) := by
    cases hrel with
    | none => exact ⟨fun d hd => absurd hd List.not_mem_nil, fun _ => Iff.rfl, fun _ _ _ => Iff.rfl⟩
    | some hl => exact hl
  have hbytes : (termSelect bDesc (L.map (doclist bDesc))).getD [] = doclist bDesc (o.getD []) := by
    have hrun' : termSelect bDesc (L.map (doclist bDesc)) = place bDesc o := hrun
    rw [hrun']
    cases o <;> rfl
  have hat : SortedAt bDesc o ↔ Sorted bDesc (o.getD []) := by
    cases o with
    | none => exact iff_of_true sortedAt_none List.Pairwise.nil
    | some l => exact sortedAt_some
  have hhas : ∀ i iCol iPos, Docs.Has (o.getD []) i iCol iPos ↔ ∃ l ∈ L, l.Has i iCol iPos := by
    intro i iCol iPos
    rw [hstands.has]
    simp only [Docs.Has, hmem]
    simp [gathered]
    tauto
  rw [and_iff_right hempty, hat] at hsorted
  rw [hbytes, ← hsorted]
  constructor
  · rintro ⟨l, hl, heq, -⟩
    rw [sorted_iff_map, map_fst_of_encodeDocs hstands.doc hl.doc heq, ← sorted_iff_map]
    exact hl.sorted
  · intro hs
    exact ⟨_, ⟨hstands.doc, hs⟩, rfl, hhas⟩

/-- **OR.** Two doclists give their union exactly when their docids are close. The doclists of many
terms do exactly when those that come together are close. -/
theorem orMerge_union (h1 : DocsValid bDesc l1) (h2 : DocsValid bDesc l2)
    (h : ∀ l ∈ L, DocsValid bDesc l) :
    (IsUnion bDesc l1 l2 (doclistOrMerge bDesc (doclist bDesc l1) (doclist bDesc l2)) ↔
      Close bDesc l1 l2) ∧
    (IsUnionAll bDesc L ((termSelect bDesc (L.map (doclist bDesc))).getD []) ↔
      CloseRun bDesc noPlaces L) :=
  ⟨isUnion_iff h1 h2, isUnionAll_iff h⟩

/-- Documents with a word at place 0 each. -/
def docsAt (docids : List ℤ) : Docs := docids.map fun i => (i, [(0, [0])])

theorem docsValid_docsAt {docids : List ℤ} (hi : ∀ i ∈ docids, Docid i)
    (hs : docids.Pairwise fun i j => key bDesc i < key bDesc j) :
    DocsValid bDesc (docsAt docids) := by
  refine ⟨fun d hd => ?_, List.pairwise_map.mpr hs⟩
  obtain ⟨i, hmem, rfl⟩ := List.mem_map.mp hd
  exact
    { lo := (hi i hmem).1
      hi := (hi i hmem).2
      valid := (⟨by decide, by decide, by decide⟩ : Poslist.Valid [(0, [0])])
      small := by simp [Small]
      nonempty := List.cons_ne_nil _ _ }

theorem orMerge_union_docsAt :
    IsUnion false (docsAt [-3, 5]) (docsAt [-3, 7])
      (doclistOrMerge false (doclist false (docsAt [-3, 5])) (doclist false (docsAt [-3, 7]))) ∧
    IsUnionAll false [docsAt [2 ^ 62 + 1], docsAt [-1], docsAt [-2 ^ 62 - 5, 0]]
      ((termSelect false ([docsAt [2 ^ 62 + 1], docsAt [-1], docsAt [-2 ^ 62 - 5, 0]].map
        (doclist false))).getD []) := by
  have hdocs : ∀ l ∈ [docsAt [-3, 5], docsAt [-3, 7], docsAt [2 ^ 62 + 1], docsAt [-1],
      docsAt [-2 ^ 62 - 5, 0]], DocsValid false l := by
    simp only [List.forall_mem_cons]
    exact ⟨docsValid_docsAt (by unfold Docid; decide) (by decide),
      docsValid_docsAt (by unfold Docid; decide) (by decide),
      docsValid_docsAt (by unfold Docid; decide) (by decide),
      docsValid_docsAt (by unfold Docid; decide) (by decide),
      docsValid_docsAt (by unfold Docid; decide) (by decide), fun l hl => absurd hl List.not_mem_nil⟩
  have hall := orMerge_union (hdocs _ List.mem_cons_self)
    (hdocs _ (List.mem_cons_of_mem _ List.mem_cons_self))
    fun l hl => hdocs l (List.mem_cons_of_mem _ (List.mem_cons_of_mem _ hl))
  refine ⟨hall.1.mpr ?_, hall.2.mpr ?_⟩
  · unfold Close
    decide
  · -- The first two lists come together, then the third one joins them.
    refine ⟨trivial, ⟨?_, trivial⟩, trivial, ?_, trivial⟩ <;> unfold Close <;> decide

/-- The docids -2^63 and 1 come out in the wrong order. -/
theorem not_forall_isUnion : ¬ ∀ (bDesc : Bool) (l1 l2 : Docs), DocsValid bDesc l1 →
    DocsValid bDesc l2 →
    IsUnion bDesc l1 l2 (doclistOrMerge bDesc (doclist bDesc l1) (doclist bDesc l2)) := by
  intro h
  have h1 : DocsValid false (docsAt [-2 ^ 63]) := docsValid_docsAt (by unfold Docid; decide) (by decide)
  have h2 : DocsValid false (docsAt [1]) := docsValid_docsAt (by unfold Docid; decide) (by decide)
  obtain ⟨e, he, -, hle⟩ := ((isUnion_iff h1 h2).mp (h false _ _ h1 h2)).1 _ List.mem_cons_self _
    List.mem_cons_self (by decide)
  rw [List.mem_singleton.mp he] at hle
  exact absurd hle (by decide)

end Fts3

end SqliteVms

import SqliteVms.Sql.Complete

/-!
# Complete statements and the tokenizer

`sqlite3_complete` finds the tokens of a text in another way than `sqlite3GetToken`. What is one
token for the tokenizer can be several other tokens for `sqlite3_complete`, and the table does not
see the difference. But a vertical tab behind white space is a token for `sqlite3_complete` alone,
and so is a keyword behind a register for the tokenizer alone.

## Main definitions

* `tokens` — the tokens of a text
* `Others` — bytes that `sqlite3_complete` takes for other tokens

## Main results

* `complete_getToken` — both move over one token of the tokenizer
* `complete_isSome` — no read goes past the terminator
* `sqlite3Complete_correct` — the texts that are complete
-/

namespace SqliteVms

namespace Sql

namespace Complete

/-! ### Scans -/

variable {p : UInt8 → Bool} {z : List UInt8} {i j n : ℕ} {c : UInt8} {st : State}

theorem scan_forall (hi : i ≤ z.length) (hj : i ≤ j) (hlt : j < scan p z i) :
    p (byteAt z j) = true := by
  induction h : z.length - i generalizing i with
  | zero =>
    obtain rfl : i = z.length := by omega
    rw [scan_length] at hlt
    omega
  | succ k ih =>
    have hiz : i < z.length := by omega
    cases hc : p (byteAt z i) with
    | false =>
      rw [scan_of_neg hiz hc] at hlt
      omega
    | true =>
      rw [scan_of_pos hiz hc] at hlt
      rcases Nat.eq_or_lt_of_le hj with rfl | hj
      · exact hc
      · exact ih hiz hj hlt (by omega)

theorem scan_eq (hij : i ≤ j) (hj : j ≤ z.length)
    (hall : ∀ k, i ≤ k → k < j → p (byteAt z k) = true) (hstop : p (byteAt z j) = false) :
    scan p z i = j := by
  induction h : j - i generalizing i with
  | zero =>
    obtain rfl : i = j := by omega
    rcases Nat.lt_or_ge i z.length with hlt | hge
    · exact scan_of_neg hlt hstop
    · obtain rfl : i = z.length := by omega
      exact scan_length p z
  | succ k ih =>
    rw [scan_of_pos (by omega) (hall i (Nat.le_refl i) (by omega))]
    exact ih (by omega) (fun k hk hkj => hall k (by omega) hkj) (by omega)

theorem scan_stop (hp : p 0 = false) (hi : i ≤ z.length) : p (byteAt z (scan p z i)) = false := by
  induction h : z.length - i generalizing i with
  | zero =>
    obtain rfl : i = z.length := by omega
    rw [scan_length, byteAt_length, hp]
  | succ k ih =>
    have hiz : i < z.length := by omega
    cases hc : p (byteAt z i) with
    | false => rw [scan_of_neg hiz hc, hc]
    | true =>
      rw [scan_of_pos hiz hc]
      exact ih hiz (by omega)

theorem byteAt_mem (h : i < z.length) : byteAt z i ∈ z := by
  rw [byteAt, List.getD_eq_getElem?_getD, List.getElem?_eq_getElem h]
  exact List.getElem_mem h

theorem byteAt_ne_zero (hz : 0 ∉ z) (h : i < z.length) : byteAt z i ≠ 0 := fun heq =>
  hz (heq ▸ byteAt_mem h)

theorem byteAt_eq_zero_iff (hz : 0 ∉ z) (hi : i ≤ z.length) : byteAt z i = 0 ↔ i = z.length := by
  constructor
  · intro h
    by_contra hne
    exact byteAt_ne_zero hz (by omega) h
  · rintro rfl
    exact byteAt_length z

theorem notMem_drop (hz : 0 ∉ z) (n : ℕ) : 0 ∉ z.drop n := fun h => hz (List.mem_of_mem_drop h)

/-! ### The bytes that are read -/

/-- Where the loop for a C-style comment stops, and where the tokenizer's does. -/
theorem blockC_spec (hz : 0 ∉ z) (fuel : ℕ) (hi : i ≤ z.length) (hfuel : z.length < fuel + i) :
    ∃ j, blockC z fuel i = some j ∧ i ≤ j ∧
      ((j = z.length ∧ ∀ k, i ≤ k → ¬ (byteAt z k = '*'.toUInt8 ∧ byteAt z (k + 1) = '/'.toUInt8)) ∨
        (j + 2 ≤ z.length ∧ byteAt z j ≠ 0 ∧
          commentLoop (byteAt z i) (z.drop (i + 1)) (i + 1) = j + 2)) := by
  induction fuel generalizing i with
  | zero => omega
  | succ fuel ih =>
    rw [blockC, peek_eq hi, Option.bind_some]
    rcases Nat.lt_or_ge i z.length with hlt | hge
    · have hnext : ∃ j, blockC z fuel (i + 1) = some j ∧ i + 1 ≤ j ∧
          ((j = z.length ∧ ∀ k, i + 1 ≤ k →
              ¬ (byteAt z k = '*'.toUInt8 ∧ byteAt z (k + 1) = '/'.toUInt8)) ∨
            (j + 2 ≤ z.length ∧ byteAt z j ≠ 0 ∧
              commentLoop (byteAt z (i + 1)) (z.drop (i + 1 + 1)) (i + 1 + 1) = j + 2)) :=
        ih hlt (by omega)
      by_cases hend : byteAt z i = '*'.toUInt8 ∧ byteAt z (i + 1) = '/'.toUInt8
      · have hlt' : i + 1 < z.length := lt_of_byteAt_ne (by rw [hend.2]; decide)
        refine ⟨i, ?_, Nat.le_refl i, Or.inr ⟨hlt', byteAt_ne_zero hz hlt, ?_⟩⟩
        · rw [if_neg (byteAt_ne_zero hz hlt), if_pos hend.1, peek_eq hlt, Option.bind_some,
            if_pos hend.2]
        · rw [drop_eq_cons hlt', commentLoop, if_pos hend]
      · obtain ⟨j, hj, hij, hcase⟩ := hnext
        refine ⟨j, ?_, by omega, ?_⟩
        · rw [if_neg (byteAt_ne_zero hz hlt)]
          by_cases hstar : byteAt z i = '*'.toUInt8
          · rw [if_pos hstar, peek_eq hlt, Option.bind_some, if_neg fun h => hend ⟨hstar, h⟩, hj]
          · rw [if_neg hstar, hj]
        · rcases hcase with ⟨hjz, hnone⟩ | ⟨hjz, hjne, hloop⟩
          · refine Or.inl ⟨hjz, fun k hk hboth => ?_⟩
            rcases Nat.eq_or_lt_of_le hk with rfl | hk
            · exact hend hboth
            · exact hnone k hk hboth
          · have hlt' : i + 1 < z.length := by omega
            refine Or.inr ⟨hjz, hjne, ?_⟩
            rw [drop_eq_cons hlt', commentLoop, if_neg hend, if_neg (byteAt_ne_zero hz hlt')]
            exact hloop
    · obtain rfl : i = z.length := by omega
      refine ⟨z.length, ?_, Nat.le_refl _, Or.inl ⟨rfl, fun k hk hboth => ?_⟩⟩
      · rw [byteAt_length, if_pos rfl]
      · have := lt_of_byteAt_ne (z := z) (i := k) (by rw [hboth.1]; decide)
        omega

theorem closedC_eq (c : UInt8) (hz : 1 ≤ z.length) :
    closedC c z = some (if byteAt z (scan (fun d => d ≠ 0 && d ≠ c) z 1) = 0 then .stop
      else .token .tkOther (scan (fun d => d ≠ 0 && d ≠ c) z 1 + 1)) := by
  rw [closedC, scanC_eq rfl hz (by omega), Option.bind_some, peek_eq (scan_le _ hz).2]
  rfl

/-- There is a result, and a token of it is in the text. -/
def Bounded (z : List UInt8) (x : Option Symbol) : Prop :=
  ∃ s, x = some s ∧ ∀ t n, s = .token t n → 1 ≤ n ∧ n ≤ z.length

theorem bounded_token (t : Tk) (hn : 1 ≤ n) (hle : n ≤ z.length) :
    Bounded z (some (.token t n)) := by
  refine ⟨_, rfl, fun u k h => ?_⟩
  obtain ⟨-, rfl⟩ := Symbol.token.inj h
  exact ⟨hn, hle⟩

theorem bounded_closedC (c : UInt8) (hz : 1 ≤ z.length) : Bounded z (closedC c z) := by
  rw [closedC_eq c hz]
  split
  · exact ⟨_, rfl, fun t n h => nomatch h⟩
  · rename_i hend
    exact bounded_token _ (Nat.le_add_left _ _) (lt_of_byteAt_ne hend)

/-- **The switch reads nothing behind the terminator**, and a token that it finds is in the text. -/
theorem bounded_symbolC (hz : 0 ∉ z) (hne : z ≠ []) : Bounded z (symbolC z) := by
  have hlen : 1 ≤ z.length := List.length_pos_of_ne_nil hne
  have hone : ∀ t, Bounded z (some (.token t 1)) := fun t => bounded_token t (Nat.le_refl 1) hlen
  rw [symbolC, peek_eq (Nat.zero_le _), Option.bind_some]
  refine iteInduction (fun _ => hone _) fun _ => ?_
  refine iteInduction (fun _ => hone _) fun _ => ?_
  refine iteInduction (fun _ => ?_) fun _ => ?_
  · rw [peek_eq hlen, Option.bind_some]
    refine iteInduction (fun _ => hone _) fun hstar => ?_
    have htwo : 2 ≤ z.length := lt_of_byteAt_ne (i := 1) fun h => hstar (by rw [h]; decide)
    obtain ⟨j, hj, hij, hcase⟩ := blockC_spec hz (z.length + 1) htwo (by omega)
    rw [hj, Option.bind_some, peek_eq (by omega), Option.map_some]
    split
    · exact ⟨_, rfl, fun t n h => nomatch h⟩
    · rename_i hend
      rcases hcase with ⟨rfl, -⟩ | ⟨hjz, -⟩
      · exact absurd (byteAt_length z) hend
      · exact bounded_token _ (by omega) hjz
  refine iteInduction (fun _ => ?_) fun _ => ?_
  · rw [peek_eq hlen, Option.bind_some]
    refine iteInduction (fun _ => hone _) fun _ => ?_
    rw [scanC_eq rfl (Nat.zero_le _) (by omega), Option.bind_some,
      peek_eq (scan_le _ (Nat.zero_le _)).2, Option.map_some]
    split
    · exact ⟨_, rfl, fun t n h => nomatch h⟩
    · rename_i hend
      exact bounded_token _ (Nat.le_add_left _ _) (lt_of_byteAt_ne hend)
  refine iteInduction (fun _ => bounded_closedC _ hlen) fun _ => ?_
  refine iteInduction (fun _ => bounded_closedC _ hlen) fun _ => ?_
  refine iteInduction (fun _ => ?_) fun _ => hone _
  rw [scanC_eq idChar_zero hlen (by omega), Option.map_some]
  exact bounded_token _ (scan_le _ hlen).1 (scan_le _ hlen).2

/-- Enough fuel is enough. -/
theorem completeLoop_fuel (hz : 0 ∉ z) {m : ℕ} (hn : z.length < n) (hm : z.length < m) :
    completeLoop n st z = completeLoop m st z := by
  induction n generalizing m st z with
  | zero => omega
  | succ n ih =>
    obtain ⟨m, rfl⟩ : ∃ k, m = k + 1 := ⟨m - 1, by omega⟩
    rw [completeLoop, completeLoop, peek_eq (Nat.zero_le _), Option.bind_some, Option.bind_some]
    by_cases hne : z = []
    · rw [hne]
      rfl
    have hlen : 0 < z.length := List.length_pos_of_ne_nil hne
    rw [if_neg (byteAt_ne_zero hz hlen), if_neg (byteAt_ne_zero hz hlen)]
    obtain ⟨s, hs, hbounds⟩ := bounded_symbolC hz hne
    rw [hs, Option.bind_some, Option.bind_some]
    cases s with
    | stop => rfl
    | rest => rfl
    | token t k =>
      obtain ⟨hk, hkz⟩ := hbounds t k rfl
      have hdrop : (z.drop k).length = z.length - k := List.length_drop
      dsimp only
      rw [if_neg (by omega), if_neg (by omega)]
      exact ih (notMem_drop hz k) (by omega) (by omega)

/-- What is returned for the text that is left. -/
def complete (st : State) (z : List UInt8) : Option Bool := completeLoop (z.length + 1) st z

theorem complete_nil (st : State) : complete st [] = some (st == .start) := rfl

theorem complete_token {t : Tk} (hz : 0 ∉ z) (hne : z ≠ []) (h : symbolC z = some (.token t n)) :
    complete st z = complete (trans st t) (z.drop n) := by
  obtain ⟨s, hs, hbounds⟩ := bounded_symbolC hz hne
  obtain ⟨hn, hnz⟩ := hbounds t n (Option.some.inj (hs.symm.trans h))
  have hlen : 0 < z.length := List.length_pos_of_ne_nil hne
  have hdrop : (z.drop n).length = z.length - n := List.length_drop
  rw [complete, completeLoop, peek_eq (Nat.zero_le _), Option.bind_some,
    if_neg (byteAt_ne_zero hz hlen), h, Option.bind_some]
  dsimp only
  rw [if_neg (by omega)]
  exact completeLoop_fuel (notMem_drop hz n) (by omega) (by omega)

theorem complete_stop (hz : 0 ∉ z) (hne : z ≠ []) (h : symbolC z = some .stop) :
    complete st z = some false := by
  rw [complete, completeLoop, peek_eq (Nat.zero_le _), Option.bind_some,
    if_neg (byteAt_ne_zero hz (List.length_pos_of_ne_nil hne)), h, Option.bind_some]

theorem complete_rest (hz : 0 ∉ z) (hne : z ≠ []) (h : symbolC z = some .rest) :
    complete st z = some (st == .start) := by
  rw [complete, completeLoop, peek_eq (Nat.zero_le _), Option.bind_some,
    if_neg (byteAt_ne_zero hz (List.length_pos_of_ne_nil hne)), h, Option.bind_some]

/-- **No byte behind the terminator is read**, whatever the text is. -/
theorem complete_isSome (hz : 0 ∉ z) (st : State) : ∃ b, complete st z = some b := by
  induction h : z.length using Nat.strong_induction_on generalizing z st with
  | _ k ih =>
    subst h
    by_cases hne : z = []
    · exact ⟨_, by rw [hne, complete_nil]⟩
    have hlen : 0 < z.length := List.length_pos_of_ne_nil hne
    obtain ⟨s, hs, hbounds⟩ := bounded_symbolC hz hne
    cases s with
    | stop => exact ⟨_, complete_stop hz hne hs⟩
    | rest => exact ⟨_, complete_rest hz hne hs⟩
    | token t n =>
      obtain ⟨hn, hnz⟩ := hbounds t n rfl
      rw [complete_token hz hne hs]
      exact ih _ (by rw [List.length_drop]; omega) (notMem_drop hz n) _ rfl

/-! ### Other tokens -/

/-- The first `n` bytes are other tokens for `sqlite3_complete`. -/
inductive Others : List UInt8 → ℕ → Prop
  | one {z : List UInt8} {n : ℕ} (h : symbolC z = some (.token .tkOther n)) : Others z n
  | cons {z : List UInt8} {n k : ℕ} (h : symbolC z = some (.token .tkOther n))
      (hk : Others (z.drop n) k) (hne : z.drop n ≠ []) : Others z (n + k)

/-- The table does not count other tokens. -/
theorem trans_other (st : State) : trans (trans st .tkOther) .tkOther = trans st .tkOther := by
  cases st <;> rfl

theorem complete_others (hz : 0 ∉ z) (hne : z ≠ []) (h : Others z n) :
    complete st z = complete (trans st .tkOther) (z.drop n) := by
  induction h generalizing st with
  | one h => exact complete_token hz hne h
  | cons h hk hne' ih =>
    rw [complete_token hz hne h, ih (notMem_drop hz _) hne', trans_other, List.drop_drop]

/-- The bytes that are other tokens by themselves. -/
def isPunct (c : UInt8) : Bool :=
  !(c == 0 || c == ';'.toUInt8 || c == 32 || c == 13 || c == 9 || c == 10 || c == 12 ||
    c == '/'.toUInt8 || c == '-'.toUInt8 || c == '['.toUInt8 || c == bquote || c == dquote ||
    c == squote || idChar c)

theorem symbolC_punct (h : isPunct (byteAt z 0) = true) :
    symbolC z = some (.token .tkOther 1) := by
  simp only [isPunct, Bool.not_eq_true', Bool.or_eq_false_iff, beq_eq_false_iff_ne] at h
  obtain ⟨⟨⟨⟨⟨⟨⟨⟨⟨⟨⟨⟨⟨-, h1⟩, h2⟩, h3⟩, h4⟩, h5⟩, h6⟩, h7⟩, h8⟩, h9⟩, h10⟩, h11⟩, h12⟩, h13⟩ := h
  rw [symbolC, peek_eq (Nat.zero_le _), Option.bind_some, if_neg h1, if_neg (by tauto), if_neg h7,
    if_neg h8, if_neg h9, if_neg (by tauto), h13, if_neg Bool.false_ne_true]

theorem others_punct (h : isPunct (byteAt z 0) = true) : Others z 1 := .one (symbolC_punct h)

theorem others_punct_two (h : isPunct (byteAt z 0) = true) (h' : isPunct (byteAt z 1) = true) :
    Others z 2 := by
  have hne : byteAt z 1 ≠ 0 := by
    rintro heq
    rw [heq] at h'
    exact absurd h' (by decide)
  have hlt := lt_of_byteAt_ne hne
  refine .cons (symbolC_punct h) (others_punct ?_) (List.ne_nil_of_length_pos ?_)
  · rwa [byteAt_drop]
  · rw [List.length_drop]
    omega

/-! ### Identifiers -/

/-- The bytes that no identifier begins with, for `sqlite3_complete`. -/
theorem symbolC_word (h : idChar (byteAt z 0) = true) :
    symbolC z = some (.token (wordToken (z.take (scan idChar z 1))) (scan idChar z 1)) := by
  have hne : ∀ c, idChar c = false → byteAt z 0 ≠ c := by
    rintro c hc heq
    rw [heq, hc] at h
    nomatch h
  have hlen : 1 ≤ z.length := lt_of_byteAt_ne (hne 0 rfl)
  rw [symbolC, peek_eq (Nat.zero_le _), Option.bind_some, if_neg (hne _ rfl), if_neg,
    if_neg (hne _ rfl), if_neg (hne _ rfl), if_neg (hne _ rfl), if_neg, if_pos h,
    scanC_eq idChar_zero hlen (by omega), Option.map_some]
  · rintro (h | h | h)
    · exact hne _ rfl h
    · exact hne _ rfl h
    · exact hne _ rfl h
  · rintro (h | h | h | h | h)
    · exact hne _ rfl h
    · exact hne _ rfl h
    · exact hne _ rfl h
    · exact hne _ rfl h
    · exact hne _ rfl h

theorem isWord_iff {w : List UInt8} (hw : 0 ∉ w) {s : String} (hs : (word s).length = n)
    (hfold : Hash.fold (word s) = word s) : isWord w n s = true ↔ Hash.fold w = word s := by
  subst hs
  rw [isWord, Bool.and_eq_true, beq_iff_eq, beq_iff_eq]
  constructor
  · rintro ⟨hlen, hcmp⟩
    rw [← hfold]
    exact (Hash.strnicmp_eq_zero hw hlen).mp hcmp
  · intro h
    have hlen : w.length = (word s).length := by
      rw [← h, Hash.fold, List.length_map]
    exact ⟨hlen, (Hash.strnicmp_eq_zero hw hlen).mpr (by rw [h, hfold])⟩

theorem upperToLower_eq {c d : UInt8} (h : Hash.upperToLower c = d) :
    c = d ∨ c = d - 32 := by
  rw [Hash.upperToLower] at h
  split at h
  · right
    rw [← h]
    simp
  · exact Or.inl h

/-- The first byte of a keyword. -/
theorem byteAt_of_fold {w : List UInt8} {s : String} {d : UInt8}
    (hs : byteAt (word s) 0 = d) (hlen : 0 < (word s).length) (h : Hash.fold w = word s) :
    byteAt w 0 = d ∨ byteAt w 0 = d - 32 := by
  cases w with
  | nil =>
    rw [← h] at hlen
    nomatch hlen
  | cons c w =>
    rw [← h] at hs
    exact upperToLower_eq hs

/-- The tokens of words. -/
theorem wordToken_eq {w : List UInt8} (hw : 0 ∉ w) : wordToken w =
    if Hash.fold w = word "create" then .tkCreate
    else if Hash.fold w = word "trigger" then .tkTrigger
    else if Hash.fold w = word "temp" ∨ Hash.fold w = word "temporary" then .tkTemp
    else if Hash.fold w = word "end" then .tkEnd
    else if Hash.fold w = word "explain" then .tkExplain
    else .tkOther := by
  have hc : Hash.fold w = word "create" → byteAt w 0 = 'c'.toUInt8 ∨ byteAt w 0 = 'C'.toUInt8 :=
    byteAt_of_fold rfl (by decide)
  have ht : Hash.fold w = word "trigger" → byteAt w 0 = 't'.toUInt8 ∨ byteAt w 0 = 'T'.toUInt8 :=
    byteAt_of_fold rfl (by decide)
  have ht' : Hash.fold w = word "temp" → byteAt w 0 = 't'.toUInt8 ∨ byteAt w 0 = 'T'.toUInt8 :=
    byteAt_of_fold rfl (by decide)
  have ht'' : Hash.fold w = word "temporary" →
      byteAt w 0 = 't'.toUInt8 ∨ byteAt w 0 = 'T'.toUInt8 :=
    byteAt_of_fold rfl (by decide)
  have he : Hash.fold w = word "end" → byteAt w 0 = 'e'.toUInt8 ∨ byteAt w 0 = 'E'.toUInt8 :=
    byteAt_of_fold rfl (by decide)
  have he' : Hash.fold w = word "explain" → byteAt w 0 = 'e'.toUInt8 ∨ byteAt w 0 = 'E'.toUInt8 :=
    byteAt_of_fold rfl (by decide)
  have hct : byteAt w 0 = 'c'.toUInt8 ∨ byteAt w 0 = 'C'.toUInt8 →
      ¬ (byteAt w 0 = 't'.toUInt8 ∨ byteAt w 0 = 'T'.toUInt8) := by
    rintro (h | h) <;> rw [h] <;> decide
  have hce : byteAt w 0 = 'c'.toUInt8 ∨ byteAt w 0 = 'C'.toUInt8 →
      ¬ (byteAt w 0 = 'e'.toUInt8 ∨ byteAt w 0 = 'E'.toUInt8) := by
    rintro (h | h) <;> rw [h] <;> decide
  have hte : byteAt w 0 = 't'.toUInt8 ∨ byteAt w 0 = 'T'.toUInt8 →
      ¬ (byteAt w 0 = 'e'.toUInt8 ∨ byteAt w 0 = 'E'.toUInt8) := by
    rintro (h | h) <;> rw [h] <;> decide
  rw [wordToken]
  simp only [isWord_iff hw (s := "create") (n := 6) rfl rfl,
    isWord_iff hw (s := "trigger") (n := 7) rfl rfl, isWord_iff hw (s := "temp") (n := 4) rfl rfl,
    isWord_iff hw (s := "temporary") (n := 9) rfl rfl, isWord_iff hw (s := "end") (n := 3) rfl rfl,
    isWord_iff hw (s := "explain") (n := 7) rfl rfl]
  by_cases h1 : byteAt w 0 = 'c'.toUInt8 ∨ byteAt w 0 = 'C'.toUInt8
  · have h2 := hct h1
    have h3 := hce h1
    rw [if_pos h1, if_neg (mt ht h2), if_neg (not_or.mpr ⟨mt ht' h2, mt ht'' h2⟩),
      if_neg (mt he h3), if_neg (mt he' h3)]
  rw [if_neg h1, if_neg (mt hc h1)]
  by_cases h2 : byteAt w 0 = 't'.toUInt8 ∨ byteAt w 0 = 'T'.toUInt8
  · have h3 := hte h2
    rw [if_pos h2, if_neg (mt he h3), if_neg (mt he' h3), ite_or]
  rw [if_neg h2, if_neg (mt ht h2), if_neg (not_or.mpr ⟨mt ht' h2, mt ht'' h2⟩)]
  by_cases h3 : byteAt w 0 = 'e'.toUInt8 ∨ byteAt w 0 = 'E'.toUInt8
  · rw [if_pos h3]
  · rw [if_neg h3, if_neg (mt he h3), if_neg (mt he' h3)]

/-! ### Numbers -/

/-- The bytes of a number. -/
def numberByte (c : UInt8) : Bool :=
  isDigit c || c == '.'.toUInt8 || c == 'e'.toUInt8 || c == 'E'.toUInt8 || c == '+'.toUInt8 ||
    c == '-'.toUInt8

theorem lower_numberByte {c : UInt8} (h : numberByte c = true) :
    Hash.upperToLower c ≠ 'n'.toUInt8 ∧ Hash.upperToLower c ≠ 'x'.toUInt8 ∧
      Hash.upperToLower c ≠ 'c'.toUInt8 ∧ Hash.upperToLower c ≠ 't'.toUInt8 := by
  have hne : ∀ d : UInt8, numberByte d = false → numberByte (d - 32) = false →
      Hash.upperToLower c ≠ d := by
    intro d hd hd' heq
    rcases upperToLower_eq heq with rfl | rfl
    · rw [hd] at h
      nomatch h
    · rw [hd'] at h
      nomatch h
  exact ⟨hne _ rfl rfl, hne _ rfl rfl, hne _ rfl rfl, hne _ rfl rfl⟩

/-- A word in a number is not a keyword. -/
theorem wordToken_number {w : List UInt8} (hw : ∀ c ∈ w, numberByte c = true) :
    wordToken w = .tkOther := by
  have hzero : 0 ∉ w := fun h => by nomatch hw 0 h
  have hno : ∀ s : String, (∃ d ∈ word s, d = 'n'.toUInt8 ∨ d = 'x'.toUInt8 ∨ d = 'c'.toUInt8 ∨
      d = 't'.toUInt8) → Hash.fold w ≠ word s := by
    rintro s ⟨d, hd, hdc⟩ heq
    rw [← heq, Hash.fold, List.mem_map] at hd
    obtain ⟨c, hc, rfl⟩ := hd
    have := lower_numberByte (hw c hc)
    tauto
  rw [wordToken_eq hzero, if_neg (hno _ (by decide)), if_neg (hno _ (by decide)),
    if_neg (not_or.mpr ⟨hno _ (by decide), hno _ (by decide)⟩), if_neg (hno _ (by decide)),
    if_neg (hno _ (by decide))]

theorem byteAt_take_mem {w : List UInt8} {n : ℕ} (h : c ∈ w.take n) :
    ∃ k, k < n ∧ k < w.length ∧ byteAt w k = c := by
  obtain ⟨k, hk, rfl⟩ := List.getElem_of_mem h
  rw [List.length_take] at hk
  refine ⟨k, by omega, by omega, ?_⟩
  rw [List.getElem_take, byteAt, List.getD_eq_getElem?_getD, List.getElem?_eq_getElem (by omega)]
  rfl

theorem scan_le_of_stop (hin : i ≤ n) (hn : n ≤ z.length) (hstop : p (byteAt z n) = false) :
    scan p z i ≤ n := by
  by_contra hlt
  have := scan_forall (by omega) hin (by omega : n < scan p z i)
  rw [hstop] at this
  nomatch this

/-- **The bytes of a number** are other tokens, if no identifier goes on behind them. -/
theorem others_number (hn : 1 ≤ n) (hnz : n ≤ z.length)
    (hall : ∀ k, k < n → numberByte (byteAt z k) = true) (hstop : idChar (byteAt z n) = false)
    (hdash : ∀ k, k < n → byteAt z k = '-'.toUInt8 → byteAt z (k + 1) ≠ '-'.toUInt8) :
    Others z n := by
  induction n using Nat.strong_induction_on generalizing z with
  | _ n ih =>
    -- a first token of `k` bytes, and what is left of the number
    have hrest : ∀ k, 1 ≤ k → k ≤ n → symbolC z = some (.token .tkOther k) → Others z n := by
      intro k hk hkn hsymbol
      rcases Nat.eq_or_lt_of_le hkn with rfl | hlt
      · exact .one hsymbol
      · obtain ⟨m, rfl⟩ : ∃ m, n = k + m := ⟨n - k, by omega⟩
        refine .cons hsymbol (ih m (by omega) (by omega) ?_ (fun j hj => ?_) ?_ fun j hj => ?_) ?_
        · rw [List.length_drop]
          omega
        · rw [byteAt_drop]
          exact hall _ (by omega)
        · rwa [byteAt_drop]
        · rw [byteAt_drop, byteAt_drop]
          exact hdash _ (by omega)
        · refine List.ne_nil_of_length_pos ?_
          rw [List.length_drop]
          omega
    by_cases hid : idChar (byteAt z 0) = true
    · have hle := scan_le_of_stop (p := idChar) hn hnz hstop
      have hsymbol := symbolC_word hid
      rw [wordToken_number fun c hc => ?_] at hsymbol
      · exact hrest _ (scan_le _ (by omega)).1 hle hsymbol
      · obtain ⟨k, hk, -, rfl⟩ := byteAt_take_mem hc
        exact hall k (by omega)
    · have hfirst := hall 0 hn
      by_cases hminus : byteAt z 0 = '-'.toUInt8
      · refine hrest 1 (Nat.le_refl 1) hn ?_
        rw [symbolC, peek_eq (Nat.zero_le _), Option.bind_some, hminus]
        have hpeek := peek_eq (z := z) (i := 1) (by omega)
        have := hdash 0 hn hminus
        rw [hpeek]
        exact if_pos this
      · refine hrest 1 (Nat.le_refl 1) hn (symbolC_punct ?_)
        have hdigit : isDigit (byteAt z 0) = false := by
          by_contra h
          rw [Bool.not_eq_false] at h
          exact hid (by rw [idChar, h]; rfl)
        simp only [numberByte, hdigit, Bool.false_or, Bool.or_eq_true, beq_iff_eq] at hfirst
        rcases hfirst with (((h | h) | h) | h) | h
        · rw [h]
          decide
        · exact absurd (by rw [h]; decide) hid
        · exact absurd (by rw [h]; decide) hid
        · rw [h]
          decide
        · exact absurd h hminus

/-! ### Quotes -/

/-- A quoted part of a text, from its quote to the next one. -/
theorem closedC_part {q : UInt8} {pre : List UInt8} (hpre : ∀ c ∈ pre, c ≠ 0 ∧ c ≠ q) (hq : q ≠ 0)
    (rest : List UInt8) :
    closedC q (q :: (pre ++ q :: rest)) = some (.token .tkOther (pre.length + 2)) := by
  have hlen : 1 ≤ (q :: (pre ++ q :: rest)).length := by
    rw [List.length_cons]
    omega
  have hscan : scan (fun d => d ≠ 0 && d ≠ q) (q :: (pre ++ q :: rest)) 1 = pre.length + 1 := by
    rw [scan, List.drop_one, List.tail_cons, takeWhile_append_cons _ (by simp), Nat.add_comm]
    intro c hc
    obtain ⟨hzero, hne⟩ := hpre c hc
    simp [hzero, hne]
  have hbyte : byteAt (q :: (pre ++ q :: rest)) (pre.length + 1) = q := by
    rw [byteAt, List.getD_cons_succ, List.getD_eq_getElem?_getD,
      List.getElem?_append_right (Nat.le_refl _), Nat.sub_self]
    rfl
  rw [closedC_eq q hlen, hscan, hbyte, if_neg hq]

theorem symbolC_quote {q : UInt8} (hq : q = bquote ∨ q = squote ∨ q = dquote) (y : List UInt8) :
    symbolC (q :: y) = closedC q (q :: y) := by
  rcases hq with rfl | rfl | rfl <;> rfl

/-- **A quoted text** is other tokens, one for each part between doubled quotes. -/
theorem others_quoted {q : UInt8} (hq : q = bquote ∨ q = squote ∨ q = dquote) {y : List UInt8}
    {i : ℕ} (hy : 0 ∉ y) {pre : List UInt8} (hpre : ∀ c ∈ pre, c ≠ 0 ∧ c ≠ q)
    (hend : (quotedLoop q y i).2 ≠ 0) :
    Others (q :: (pre ++ y)) (pre.length + ((quotedLoop q y i).1 - i) + 2) := by
  have hq0 : q ≠ 0 := by
    rcases hq with rfl | rfl | rfl <;> decide
  fun_induction quotedLoop q y i generalizing pre with
  | case1 i => exact absurd rfl hend
  | case2 z i => exact absurd rfl hend
  | case3 i z h ih =>
    -- a doubled quote: the text ends and another one begins
    have hbounds := (quotedLoop_bounds q z (i + 2)).1
    have hz : 0 ∉ z := fun h => hy (List.mem_cons_of_mem _ (List.mem_cons_of_mem _ h))
    have hsymbol := (symbolC_quote hq _).trans (closedC_part hpre hq0 (q :: z))
    have hdrop : (q :: (pre ++ q :: q :: z)).drop (pre.length + 2) = q :: z := by
      rw [List.drop_succ_cons, List.drop_append, List.drop_of_length_le (by omega),
        List.nil_append, show pre.length + 1 - pre.length = 1 by omega]
      rfl
    have hlen : pre.length + ((quotedLoop q z (i + 2)).1 - i) + 2 = pre.length + 2 +
        (([] : List UInt8).length + ((quotedLoop q z (i + 2)).1 - (i + 2)) + 2) := by
      rw [List.length_nil]
      omega
    rw [hlen]
    refine .cons hsymbol ?_ (by rw [hdrop]; simp)
    rw [hdrop]
    exact ih hz (List.forall_mem_nil _) hend
  | case4 i d z hd h =>
    have hlen : pre.length + (i - i) + 2 = pre.length + 2 := by omega
    dsimp only
    rw [hlen]
    exact .one ((symbolC_quote hq _).trans (closedC_part hpre hq0 _))
  | case5 i h =>
    have hlen : pre.length + (i - i) + 2 = pre.length + 2 := by omega
    dsimp only
    rw [hlen]
    exact .one ((symbolC_quote hq _).trans (closedC_part hpre hq0 _))
  | case6 c z i hc h ih =>
    have hbounds := (quotedLoop_bounds q z (i + 1)).1
    have hlen : pre.length + ((quotedLoop q z (i + 1)).1 - i) + 2 =
        (pre ++ [c]).length + ((quotedLoop q z (i + 1)).1 - (i + 1)) + 2 := by
      rw [List.length_append, List.length_singleton]
      omega
    rw [hlen, List.append_cons]
    refine ih (fun h => hy (List.mem_cons_of_mem _ h)) (fun b hb => ?_) hend
    rcases List.mem_append.mp hb with hb | hb
    · exact hpre b hb
    · rw [List.mem_singleton.mp hb]
      exact ⟨hc, h⟩

/-! ### White space and comments -/

theorem symbolC_ws (h : byteAt z 0 = 32 ∨ byteAt z 0 = 13 ∨ byteAt z 0 = 9 ∨ byteAt z 0 = 10 ∨
    byteAt z 0 = 12) : symbolC z = some (.token .tkWs 1) := by
  rw [symbolC, peek_eq (Nat.zero_le _), Option.bind_some, if_neg, if_pos h]
  rcases h with h | h | h | h | h <;> rw [h] <;> decide

theorem trans_ws (st : State) : trans st .tkWs = st := by
  cases st <;> rfl

/-- White space without a vertical tab. -/
theorem complete_spaces (hz : 0 ∉ z) (hn : n ≤ z.length)
    (hall : ∀ k, k < n → byteAt z k = 32 ∨ byteAt z k = 13 ∨ byteAt z k = 9 ∨ byteAt z k = 10 ∨
      byteAt z k = 12) : complete st z = complete st (z.drop n) := by
  induction n generalizing z with
  | zero => rfl
  | succ n ih =>
    have hne : z ≠ [] := List.ne_nil_of_length_pos (by omega)
    rw [complete_token hz hne (symbolC_ws (hall 0 (Nat.succ_pos n))), trans_ws,
      ih (notMem_drop hz 1) (by rw [List.length_drop]; omega), List.drop_drop, Nat.add_comm 1 n]
    intro k hk
    rw [byteAt_drop, Nat.add_comm 1 k]
    exact hall (k + 1) (by omega)

theorem isSpace_cases {c : UInt8} (h : isSpace c = true) (hne : c ≠ 11) :
    c = 32 ∨ c = 13 ∨ c = 9 ∨ c = 10 ∨ c = 12 := by
  rw [isSpace, Bool.or_eq_true, beq_iff_eq, Bool.and_eq_true, decide_eq_true_eq,
    decide_eq_true_eq] at h
  rcases h with h | ⟨hle, hge⟩
  · exact Or.inl h
  · simp only [UInt8.le_iff_toNat_le, ← UInt8.toNat_inj, ne_eq] at hle hge hne ⊢
    simp only [UInt8.reduceToNat] at hle hge hne ⊢
    omega

/-- A comment that ends with its line. -/
theorem complete_line (hz : 0 ∉ z) (h : byteAt z 0 = '-'.toUInt8) (h' : byteAt z 1 = '-'.toUInt8) :
    complete st z = complete st (z.drop (scan (fun c => c ≠ 0 && c ≠ 10) z 2)) := by
  have hlen : 2 ≤ z.length := lt_of_byteAt_ne (i := 1) (by rw [h']; decide)
  have hne : z ≠ [] := List.ne_nil_of_length_pos (by omega)
  have hscan : scan (fun c => c ≠ 0 && c ≠ 10) z 0 = scan (fun c => c ≠ 0 && c ≠ 10) z 2 := by
    rw [scan_of_pos (by omega) (by rw [h]; decide), scan_of_pos hlen (by rw [h']; decide)]
  have hsymbol : symbolC z = some (if byteAt z (scan (fun c => c ≠ 0 && c ≠ 10) z 2) = 0 then .rest
      else .token .tkWs (scan (fun c => c ≠ 0 && c ≠ 10) z 2 + 1)) := by
    rw [symbolC, peek_eq (Nat.zero_le _), Option.bind_some, if_neg (by rw [h]; decide),
      if_neg (by rw [h]; decide), if_neg (by rw [h]; decide), if_pos h, peek_eq (by omega),
      Option.bind_some, if_neg (not_not.mpr h'), scanC_eq rfl (Nat.zero_le _) (by omega),
      Option.bind_some, hscan, peek_eq (scan_le _ hlen).2]
    rfl
  have hstop := scan_stop (p := fun c => c ≠ 0 && c ≠ 10) rfl hlen
  have hle := (scan_le (fun c => c ≠ 0 && c ≠ 10) hlen).2
  generalize scan (fun c => c ≠ 0 && c ≠ 10) z 2 = k at hsymbol hstop hle ⊢
  by_cases hend : byteAt z k = 0
  · rw [if_pos hend] at hsymbol
    rw [complete_rest hz hne hsymbol, (byteAt_eq_zero_iff hz hle).mp hend, List.drop_length,
      complete_nil]
  · have hnl : byteAt z k = 10 := by
      simpa [hend] using hstop
    have hkz : k < z.length := lt_of_byteAt_ne hend
    rw [if_neg hend] at hsymbol
    rw [complete_token hz hne hsymbol, trans_ws,
      complete_spaces (n := 1) (notMem_drop hz k) (by rw [List.length_drop]; omega) ?_,
      List.drop_drop]
    intro j hj
    obtain rfl : j = 0 := by omega
    rw [byteAt_drop]
    tauto

/-- A comment that is closed. -/
theorem complete_block (hz : 0 ∉ z) (h : byteAt z 0 = '/'.toUInt8) (h' : byteAt z 1 = '*'.toUInt8)
    (hclosed : ['*'.toUInt8, '/'.toUInt8] <:+
      (z.take (commentLoop (byteAt z 2) (z.drop 3) 3)).drop 2) :
    complete st z = complete st (z.drop (commentLoop (byteAt z 2) (z.drop 3) 3)) := by
  have hlen : 2 ≤ z.length := lt_of_byteAt_ne (i := 1) (by rw [h']; decide)
  have hne : z ≠ [] := List.ne_nil_of_length_pos (by omega)
  obtain ⟨j, hj, hij, hcase⟩ := blockC_spec hz (z.length + 1) hlen (by omega)
  rcases hcase with ⟨-, hnone⟩ | ⟨hjz, hjne, hloop⟩
  · -- the end of the comment would have been found
    obtain ⟨a, ha⟩ := hclosed
    have hdrop : z.drop 2 = a ++ '*'.toUInt8 :: '/'.toUInt8 ::
        (z.drop (commentLoop (byteAt z 2) (z.drop 3) 3)).drop
          (2 - (z.take (commentLoop (byteAt z 2) (z.drop 3) 3)).length) := by
      conv_lhs => rw [← List.take_append_drop (commentLoop (byteAt z 2) (z.drop 3) 3) z]
      rw [List.drop_append, ← ha, List.append_assoc]
      rfl
    refine absurd ⟨?_, ?_⟩ (hnone (2 + a.length) (Nat.le_add_right _ _))
    · rw [← byteAt_drop, hdrop, byteAt_append]
    · rw [Nat.add_assoc, ← byteAt_drop, hdrop, List.append_cons]
      have hlen' : a.length + 1 = (a ++ ['*'.toUInt8]).length := by
        rw [List.length_append, List.length_singleton]
      rw [hlen', byteAt_append]
  · have hsymbol : symbolC z = some (.token .tkWs (j + 2)) := by
      rw [symbolC, peek_eq (Nat.zero_le _), Option.bind_some, if_neg (by rw [h]; decide),
        if_neg (by rw [h]; decide), if_pos h, peek_eq (by omega), Option.bind_some,
        if_neg (not_not.mpr h'), hj, Option.bind_some, peek_eq (by omega), Option.map_some,
        if_neg hjne]
    rw [complete_token hz hne hsymbol, trans_ws, hloop]

/-! ### One token -/

/-- The codes of the keywords that the table knows. -/
structure Codes where
  create : ℕ
  trigger : ℕ
  temp : ℕ
  «end» : ℕ
  explain : ℕ

/-- The token of the table. -/
def Codes.tk (k : Codes) : TokenType → Tk
  | .space => .tkWs
  | .semi => .tkSemi
  | .keyword c =>
    if c = k.create then .tkCreate
    else if c = k.trigger then .tkTrigger
    else if c = k.temp then .tkTemp
    else if c = k.end then .tkEnd
    else if c = k.explain then .tkExplain
    else .tkOther
  | _ => .tkOther

/-- What the hash table of the keywords does: these words have these codes, in any case of letters,
and no others have. -/
structure Keywords (keywordCode : List UInt8 → TokenType) (k : Codes) : Prop where
  create : ∀ w, keywordCode w = .keyword k.create ↔ Hash.fold w = word "create"
  trigger : ∀ w, keywordCode w = .keyword k.trigger ↔ Hash.fold w = word "trigger"
  temp : ∀ w, keywordCode w = .keyword k.temp ↔
    Hash.fold w = word "temp" ∨ Hash.fold w = word "temporary"
  «end» : ∀ w, keywordCode w = .keyword k.end ↔ Hash.fold w = word "end"
  explain : ∀ w, keywordCode w = .keyword k.explain ↔ Hash.fold w = word "explain"
  id : ∀ w, keywordCode w = .id ∨ ∃ c, keywordCode w = .keyword c

variable {keywordCode : List UInt8 → TokenType} {k : Codes}

/-- Both know the same keywords. -/
theorem tk_keywordCode (h : Keywords keywordCode k) {w : List UInt8} (hw : 0 ∉ w) :
    k.tk (keywordCode w) = wordToken w := by
  rw [wordToken_eq hw]
  simp only [← h.create, ← h.trigger, ← h.temp, ← h.end, ← h.explain]
  rcases h.id w with hid | ⟨c, hc⟩
  · simp only [hid, reduceCtorEq, if_false]
    rfl
  · simp only [hc, Codes.tk, TokenType.keyword.injEq]

/-- What is asked of a token. -/
structure Same (z : List UInt8) (r : TokenType × ℕ) : Prop where
  legal : r.1 ≠ .illegal ∧ r.1 ≠ .variable
  closed : r.1 = .space → byteAt z 0 = '/'.toUInt8 →
    ['*'.toUInt8, '/'.toUInt8] <:+ (z.take r.2).drop 2
  tabs : r.1 = .space → isSpace (byteAt z 0) = true → 11 ∉ z.take r.2
  register : r.1 = .register → idChar (byteAt z r.2) = false

/-- The tokenizer and `sqlite3_complete` move over the token in the same way. -/
def Moves (k : Codes) (z : List UInt8) (r : TokenType × ℕ) : Prop :=
  Same z r → ∀ st, complete st z = complete (trans st (k.tk r.1)) (z.drop r.2)

theorem moves_others {t : TokenType} (hz : 0 ∉ z) (hne : z ≠ []) (h : Others z n)
    (ht : k.tk t = .tkOther) : Moves k z (t, n) := by
  intro _ st
  rw [ht]
  exact complete_others hz hne h

theorem moves_illegal (n : ℕ) : Moves k z (.illegal, n) := fun h => absurd rfl h.legal.1

theorem moves_punct {t : TokenType} (hz : 0 ∉ z) (hne : z ≠ []) (h : isPunct (byteAt z 0) = true)
    (ht : k.tk t = .tkOther) : Moves k z (t, 1) := moves_others hz hne (others_punct h) ht

theorem moves_punct_two {t : TokenType} (hz : 0 ∉ z) (hne : z ≠ [])
    (h : isPunct (byteAt z 0) = true) (h' : isPunct (byteAt z 1) = true) (ht : k.tk t = .tkOther) :
    Moves k z (t, 2) := moves_others hz hne (others_punct_two h h') ht

theorem moves_quoted {q : UInt8} (hz : 0 ∉ z) (hlen : 1 ≤ z.length) (hc : byteAt z 0 = q)
    (hq : q = bquote ∨ q = squote ∨ q = dquote) : Moves k z (quotedToken q z) := by
  have hdrop : z = q :: z.tail := by
    have := drop_eq_cons (i := 0) hlen
    rwa [List.drop_zero, hc, Nat.zero_add, List.drop_one] at this
  have hne : z ≠ [] := List.ne_nil_of_length_pos hlen
  have hothers : (quotedLoop q z.tail 1).2 ≠ 0 → Others z ((quotedLoop q z.tail 1).1 + 1) := by
    intro hend
    have h := others_quoted hq (i := 1) (fun h => hz (List.mem_of_mem_tail h))
      (List.forall_mem_nil _) hend
    have hbounds := (quotedLoop_bounds q z.tail 1).1
    have hn : ([] : List UInt8).length + ((quotedLoop q z.tail 1).1 - 1) + 2 =
        (quotedLoop q z.tail 1).1 + 1 := by
      rw [List.length_nil]
      omega
    rw [hn, List.nil_append, ← hdrop] at h
    exact h
  rw [quotedToken]
  dsimp only
  split
  · rename_i h
    exact moves_others hz hne (hothers (by rw [h]; decide)) rfl
  split
  · rename_i h
    exact moves_others hz hne (hothers h) rfl
  · exact moves_illegal _

theorem moves_bracket (hz : 0 ∉ z) (hlen : 1 ≤ z.length) (hc : byteAt z 0 = '['.toUInt8) :
    Moves k z (bracketToken z) := by
  have hsymbol : symbolC z = closedC ']'.toUInt8 z := by
    rw [symbolC, peek_eq (Nat.zero_le _), Option.bind_some, hc]
    rfl
  rw [bracketToken]
  split
  · rename_i h
    refine moves_others hz (List.ne_nil_of_length_pos hlen) (.one ?_) rfl
    rw [hsymbol, closedC_eq _ hlen, if_neg (by rw [h]; decide)]
  · exact moves_illegal _

theorem isXdigit_ne {c : UInt8} (h : isXdigit c = true) : c ≠ 0 ∧ c ≠ squote := by
  constructor
  · rintro rfl
    nomatch h
  · rintro rfl
    nomatch h

theorem moves_blob (hz : 0 ∉ z) (hlen : 2 ≤ z.length)
    (hc : byteAt z 0 = 'x'.toUInt8 ∨ byteAt z 0 = 'X'.toUInt8) (hd : byteAt z 1 = squote) :
    Moves k z (blobToken z) := by
  have hne : z ≠ [] := List.ne_nil_of_length_pos (by omega)
  rw [blobToken]
  dsimp only
  split
  · exact moves_illegal _
  · rename_i h
    rw [not_or, not_not] at h
    have hle := (scan_le isXdigit hlen).1
    have hlt := lt_of_byteAt_ne (by rw [h.1]; decide : byteAt z (scan isXdigit z 2) ≠ 0)
    have hforall := @scan_forall isXdigit z 2
    generalize scan isXdigit z 2 = i at h hle hlt hforall ⊢
    rw [if_pos (by rw [h.1]; decide)]
    refine moves_others hz hne ?_ rfl
    -- the letter is a word
    have hword : scan idChar z 1 = 1 :=
      scan_eq (Nat.le_refl 1) (by omega) (fun _ _ _ => by omega) (by rw [hd]; decide)
    have hid : idChar (byteAt z 0) = true := by
      rcases hc with hc | hc <;> rw [hc] <;> decide
    have hfirst := symbolC_word hid
    rw [hword] at hfirst
    have htake : wordToken (z.take 1) = .tkOther := by
      have hbyte : byteAt (z.take 1) 0 = byteAt z 0 := by
        cases z with
        | nil => exact absurd rfl hne
        | cons c z => rfl
      rw [wordToken, hbyte]
      rcases hc with hc | hc <;> rw [hc] <;> rfl
    rw [htake] at hfirst
    have hn : i + 1 = 1 + i := Nat.add_comm _ _
    rw [hn]
    refine .cons hfirst (.one ?_) (List.ne_nil_of_length_pos (by rw [List.length_drop]; omega))
    -- and the digits are a quoted text
    have hquote : symbolC (z.drop 1) = closedC squote (z.drop 1) := by
      rw [drop_eq_cons (by omega : 1 < z.length), hd]
      exact symbolC_quote (Or.inr (Or.inl rfl)) _
    have hscan : scan (fun d => d ≠ 0 && d ≠ squote) (z.drop 1) 1 = i - 1 := by
      refine scan_eq (by omega) (by rw [List.length_drop]; omega) (fun j hj hji => ?_) ?_
      · obtain ⟨h0, hsq⟩ := isXdigit_ne (hforall hlen (j := 1 + j) (by omega) (by omega))
        rw [byteAt_drop]
        simp [h0, hsq]
      · rw [byteAt_drop, show 1 + (i - 1) = i by omega, h.1]
        decide
    rw [hquote, closedC_eq _ (by rw [List.length_drop]; omega), hscan, byteAt_drop,
      show 1 + (i - 1) = i by omega, h.1, if_neg (by decide), show i - 1 + 1 = i by omega]

theorem isDigit_idChar {c : UInt8} (h : isDigit c = true) :
    idChar c = true ∧ numberByte c = true := by
  rw [idChar, numberByte, h]
  exact ⟨rfl, rfl⟩

theorem digit_scan (hi : i ≤ z.length) {j : ℕ} (hj : i ≤ j) (hlt : j < scan isDigit z i) :
    numberByte (byteAt z j) = true ∧ byteAt z j ≠ '-'.toUInt8 := by
  have h := scan_forall hi hj hlt
  refine ⟨(isDigit_idChar h).2, ?_⟩
  intro heq
  rw [heq] at h
  nomatch h

/-- The bytes below `n` may stand in a number, and no sign stands before another one. -/
def NumberPart (z : List UInt8) (n : ℕ) : Prop :=
  ∀ k, k < n → numberByte (byteAt z k) = true ∧
    (byteAt z k = '-'.toUInt8 → byteAt z (k + 1) ≠ '-'.toUInt8)

theorem NumberPart.digits (h : NumberPart z i) (hi : i ≤ z.length) :
    NumberPart z (scan isDigit z i) := by
  intro k hk
  rcases Nat.lt_or_ge k i with hlt | hge
  · exact h k hlt
  · obtain ⟨hbyte, hne⟩ := digit_scan hi hge hk
    exact ⟨hbyte, fun heq => absurd heq hne⟩

theorem NumberPart.succ (h : NumberPart z i) (hbyte : numberByte (byteAt z i) = true)
    (hdash : byteAt z i = '-'.toUInt8 → byteAt z (i + 1) ≠ '-'.toUInt8) : NumberPart z (i + 1) := by
  intro k hk
  rcases Nat.lt_succ_iff_lt_or_eq.mp hk with hlt | rfl
  · exact h k hlt
  · exact ⟨hbyte, hdash⟩

theorem moves_numberTail {t : TokenType} (hz : 0 ∉ z) (ht : k.tk t = .tkOther) (hi : 1 ≤ i)
    (hiz : i ≤ z.length) (h : NumberPart z i) : Moves k z (numberTail z t i) := by
  rw [numberTail]
  split
  · exact moves_illegal _
  · rename_i hid
    refine moves_others hz (List.ne_nil_of_length_pos (by omega)) ?_ ht
    exact others_number hi hiz (fun j hj => (h j hj).1) (by simpa using hid) fun j hj => (h j hj).2

theorem exponent_part (he : Exponent z i) (h : NumberPart z i) : NumberPart z (i + 2) := by
  obtain ⟨hletter, hdigit⟩ := he
  refine (h.succ ?_ fun hdash => ?_).succ ?_ fun hdash => ?_
  · rcases hletter with h | h <;> rw [h] <;> decide
  · rcases hletter with h | h <;> exact absurd (h.symm.trans hdash) (by decide)
  · rcases hdigit with h | ⟨h | h, -⟩
    · exact (isDigit_idChar h).2
    · rw [h]
      decide
    · rw [h]
      decide
  · -- a digit stands behind the sign
    rcases hdigit with h | ⟨-, h⟩
    · rw [hdash] at h
      nomatch h
    · intro heq
      rw [heq] at h
      nomatch h

theorem moves_number (hz : 0 ∉ z) (hlen : 1 ≤ z.length)
    (h : isDigit (byteAt z 0) = true ∨ byteAt z 0 = '.'.toUInt8) : Moves k z (numberToken z) := by
  have hscan := scan_le isDigit (Nat.zero_le z.length)
  have hdigits : NumberPart z (scan isDigit z 0) :=
    NumberPart.digits (fun j hj => absurd hj (Nat.not_lt_zero j)) (Nat.zero_le _)
  have hmantissa : ∃ t i, (if byteAt z (scan isDigit z 0) = '.'.toUInt8 then
        (TokenType.float, scan isDigit z (scan isDigit z 0 + 1))
      else (TokenType.integer, scan isDigit z 0)) = (t, i) ∧ k.tk t = .tkOther ∧ 1 ≤ i ∧
        i ≤ z.length ∧ NumberPart z i := by
    by_cases hdot : byteAt z (scan isDigit z 0) = '.'.toUInt8
    · have hlt : scan isDigit z 0 < z.length := lt_of_byteAt_ne (by rw [hdot]; decide)
      have hle := scan_le isDigit (i := scan isDigit z 0 + 1) hlt
      rw [if_pos hdot]
      refine ⟨_, _, rfl, rfl, by omega, hle.2, (hdigits.succ ?_ fun hdash => ?_).digits hlt⟩
      · rw [hdot]
        decide
      · exact absurd (hdot.symm.trans hdash) (by decide)
    · have hdigit : isDigit (byteAt z 0) = true := by
        refine h.resolve_right fun heq => hdot ?_
        have hstay : scan isDigit z 0 = 0 := scan_of_neg hlen (by rw [heq]; decide)
        rw [hstay, heq]
      have hmove := (lt_scan_iff isDigit_zero (Nat.zero_le z.length)).mpr hdigit
      rw [if_neg hdot]
      exact ⟨_, _, rfl, rfl, hmove, hscan.2, hdigits⟩
  obtain ⟨t, i, heq, ht, hi, hiz, hpart⟩ := hmantissa
  rw [numberToken_eq, heq]
  dsimp only
  split
  · rename_i he
    have hlt : i + 2 ≤ z.length := he.lt
    have hle := scan_le isDigit hlt
    exact moves_numberTail hz rfl (by omega) hle.2 ((exponent_part he hpart).digits hlt)
  · exact moves_numberTail hz ht hi hiz hpart

theorem moves_variable (z : List UInt8) : Moves k z (variableToken z) := by
  rw [variableToken]
  dsimp only
  split
  · exact moves_illegal _
  · exact fun h => absurd rfl h.legal.2

theorem moves_register (hz : 0 ∉ z) (hlen : 1 ≤ z.length) (hc : byteAt z 0 = '#'.toUInt8)
    (hdigit : 1 < scan isDigit z 1) : Moves k z (.register, scan isDigit z 1) := by
  intro hsame
  refine moves_others hz (List.ne_nil_of_length_pos hlen) ?_ rfl hsame
  have hid := hsame.register rfl
  dsimp only at hid
  have hle := (scan_le isDigit hlen).2
  have hforall := @scan_forall isDigit z 1
  generalize scan isDigit z 1 = n at hdigit hid hle hforall ⊢
  obtain ⟨m, rfl⟩ : ∃ m, n = 1 + m := ⟨n - 1, by omega⟩
  have hfirst := hforall hlen (Nat.le_refl 1) hdigit
  refine .cons (symbolC_punct (by rw [hc]; decide)) (.one ?_)
    (List.ne_nil_of_length_pos (by rw [List.length_drop]; omega))
  have hbyte : byteAt (z.drop 1) 0 = byteAt z 1 := byteAt_drop z 1 0
  have hscan : scan idChar (z.drop 1) 1 = m := by
    refine scan_eq (by omega) (by rw [List.length_drop]; omega) (fun j hj hjm => ?_) ?_
    · rw [byteAt_drop]
      exact (isDigit_idChar (hforall hlen (by omega) (by omega))).1
    · rwa [byteAt_drop]
  have hword := symbolC_word (z := z.drop 1) (by rw [hbyte]; exact (isDigit_idChar hfirst).1)
  rw [hscan, wordToken_number fun c hc => ?_] at hword
  · exact hword
  · obtain ⟨j, hj, -, rfl⟩ := byteAt_take_mem hc
    rw [byteAt_drop]
    exact (isDigit_idChar (hforall hlen (by omega) (by omega))).2

theorem moves_word (hkw : Keywords keywordCode k) (hz : 0 ∉ z) (hid : idChar (byteAt z 0) = true) :
    Moves k z (keywordCode (z.take (scan idChar z 1)), scan idChar z 1) := by
  intro _ st
  have hne : z ≠ [] := by
    rintro rfl
    nomatch hid
  rw [complete_token hz hne (symbolC_word hid),
    tk_keywordCode hkw fun h => hz (List.mem_of_mem_take h)]

theorem moves_space (hz : 0 ∉ z) (hlen : 1 ≤ z.length)
    (hc : byteAt z 0 = 32 ∨ byteAt z 0 = 9 ∨ byteAt z 0 = 10 ∨ byteAt z 0 = 12 ∨ byteAt z 0 = 13) :
    Moves k z (.space, scan isSpace z 1) := by
  intro hsame st
  have hspace : isSpace (byteAt z 0) = true := by
    rcases hc with h | h | h | h | h <;> rw [h] <;> decide
  have htab := hsame.tabs rfl hspace
  have hle := scan_le isSpace hlen
  rw [show k.tk .space = .tkWs from rfl, trans_ws]
  refine complete_spaces hz hle.2 fun j hj => isSpace_cases ?_ fun heq => htab ?_
  · rcases Nat.eq_zero_or_pos j with rfl | hpos
    · exact hspace
    · exact scan_forall hlen hpos hj
  · have hlt : j < (z.take (scan isSpace z 1)).length := by
      rw [List.length_take]
      dsimp only at hj
      omega
    have hbyte : byteAt (z.take (scan isSpace z 1)) j = byteAt z j := by
      rw [byteAt, byteAt, List.getD_eq_getElem?_getD, List.getD_eq_getElem?_getD,
        List.getElem?_take_of_lt hj]
    rw [← heq, ← hbyte]
    exact byteAt_mem hlt

/-- A text that ends with the beginning of a comment is not complete, for either. -/
theorem moves_slash (hz : 0 ∉ z) (hne : z ≠ []) (hc : byteAt z 0 = '/'.toUInt8)
    (h : byteAt z 1 ≠ '*'.toUInt8 ∨ byteAt z 2 = 0) : Moves k z (.slash, 1) := by
  have hlen : 1 ≤ z.length := List.length_pos_of_ne_nil hne
  by_cases hstar : byteAt z 1 = '*'.toUInt8
  · intro _ st
    have hzero := h.resolve_left (not_not.mpr hstar)
    have htwo : 2 ≤ z.length := lt_of_byteAt_ne (i := 1) (by rw [hstar]; decide)
    have hend := (byteAt_eq_zero_iff hz htwo).mp hzero
    have hstop : symbolC z = some .stop := by
      rw [symbolC, peek_eq (Nat.zero_le _), Option.bind_some, if_neg (by rw [hc]; decide),
        if_neg (by rw [hc]; decide), if_pos hc, peek_eq hlen, Option.bind_some,
        if_neg (not_not.mpr hstar), blockC, peek_eq htwo, Option.bind_some, if_pos hzero,
        Option.bind_some, peek_eq htwo, Option.map_some, if_pos hzero]
    have hdrop : z.drop 1 = ['*'.toUInt8] := by
      rw [drop_eq_cons htwo, hstar, List.drop_of_length_le (by omega)]
    rw [complete_stop hz hne hstop, hdrop]
    cases st <;> rfl
  · refine moves_others hz hne (.one ?_) rfl
    rw [symbolC, peek_eq (Nat.zero_le _), Option.bind_some, if_neg (by rw [hc]; decide),
      if_neg (by rw [hc]; decide), if_pos hc, peek_eq hlen, Option.bind_some, if_pos hstar]

/-- **Both move over one token of the tokenizer.** -/
theorem complete_getToken (hkw : Keywords keywordCode k) (hz : 0 ∉ z) (hne : z ≠ []) :
    Moves k z (sqlite3GetToken keywordCode z) := by
  have hlen : 1 ≤ z.length := List.length_pos_of_ne_nil hne
  have hpunct : ∀ {c : UInt8} {t : TokenType}, byteAt z 0 = c → isPunct c = true →
      k.tk t = .tkOther → Moves k z (t, 1) := fun hc h ht =>
    moves_punct hz hne (by rw [hc]; exact h) ht
  have hpunct₂ : ∀ {c d : UInt8} {t : TokenType}, byteAt z 0 = c → byteAt z 1 = d →
      isPunct c = true → isPunct d = true → k.tk t = .tkOther → Moves k z (t, 2) :=
    fun hc hd h h' ht => moves_punct_two hz hne (by rw [hc]; exact h) (by rw [hd]; exact h') ht
  rw [sqlite3GetToken]
  refine iteInduction (fun hc => moves_space hz hlen hc) fun _ => ?_
  refine iteInduction (fun hc => ?_) fun _ => ?_
  · refine iteInduction (fun hd => ?_) fun hd => ?_
    · intro _ st
      rw [show k.tk .space = .tkWs from rfl, trans_ws]
      exact complete_line hz hc hd
    · refine moves_others hz hne (.one ?_) rfl
      rw [symbolC, peek_eq (Nat.zero_le _), Option.bind_some, if_neg (by rw [hc]; decide),
        if_neg (by rw [hc]; decide), if_neg (by rw [hc]; decide), if_pos hc, peek_eq hlen,
        Option.bind_some, if_pos hd]
  refine iteInduction (fun hc => hpunct hc rfl rfl) fun _ => ?_
  refine iteInduction (fun hc => hpunct hc rfl rfl) fun _ => ?_
  refine iteInduction (fun hc _ st => ?_) fun _ => ?_
  · refine complete_token hz hne ?_
    rw [symbolC, peek_eq (Nat.zero_le _), Option.bind_some, if_pos hc]
    rfl
  refine iteInduction (fun hc => hpunct hc rfl rfl) fun _ => ?_
  refine iteInduction (fun hc => hpunct hc rfl rfl) fun _ => ?_
  refine iteInduction (fun hc => ?_) fun _ => ?_
  · refine iteInduction (fun hd => moves_slash hz hne hc hd) fun hd => ?_
    rw [not_or, not_not] at hd
    intro hsame st
    rw [show k.tk .space = .tkWs from rfl, trans_ws]
    exact complete_block hz hc hd.1 (hsame.closed rfl hc)
  refine iteInduction (fun hc => hpunct hc rfl rfl) fun _ => ?_
  refine iteInduction (fun hc => ?_) fun _ => ?_
  · by_cases hd : byteAt z 1 = '='.toUInt8
    · rw [if_pos hd]
      exact hpunct₂ hc hd rfl rfl rfl
    · rw [if_neg hd]
      exact hpunct hc rfl rfl
  refine iteInduction (fun hc => ?_) fun _ => ?_
  · refine iteInduction (fun hd => hpunct₂ hc hd rfl rfl rfl) fun _ => ?_
    refine iteInduction (fun hd => hpunct₂ hc hd rfl rfl rfl) fun _ => ?_
    exact iteInduction (fun hd => hpunct₂ hc hd rfl rfl rfl) fun _ => hpunct hc rfl rfl
  refine iteInduction (fun hc => ?_) fun _ => ?_
  · refine iteInduction (fun hd => hpunct₂ hc hd rfl rfl rfl) fun _ => ?_
    exact iteInduction (fun hd => hpunct₂ hc hd rfl rfl rfl) fun _ => hpunct hc rfl rfl
  refine iteInduction (fun hc => ?_) fun _ => ?_
  · by_cases hd : byteAt z 1 = '='.toUInt8
    · rw [if_neg (not_not.mpr hd)]
      exact hpunct₂ hc hd rfl rfl rfl
    · rw [if_pos hd]
      exact moves_illegal _
  refine iteInduction (fun hc => ?_) fun _ => ?_
  · refine iteInduction (fun _ => hpunct hc rfl rfl) fun hd => ?_
    exact hpunct₂ hc (not_not.mp hd) rfl rfl rfl
  iterate 3 refine iteInduction (fun hc => hpunct hc rfl rfl) fun _ => ?_
  refine iteInduction (fun hc => moves_quoted hz hlen rfl hc) fun _ => ?_
  refine iteInduction (fun hc => ?_) fun _ => ?_
  · exact iteInduction (fun _ => moves_number hz hlen (Or.inr hc)) fun _ => hpunct hc rfl rfl
  refine iteInduction (fun hc => moves_number hz hlen (Or.inl hc)) fun _ => ?_
  refine iteInduction (fun hc => moves_bracket hz hlen hc) fun _ => ?_
  refine iteInduction (fun _ hsame => absurd rfl hsame.legal.2) fun _ => ?_
  refine iteInduction (fun hc => ?_) fun _ => ?_
  · exact iteInduction (fun hd => moves_register hz hlen hc hd) fun _ => moves_variable z
  refine iteInduction (fun _ => moves_variable z) fun _ => ?_
  refine iteInduction (fun hc => ?_) fun _ => ?_
  · exact moves_blob hz (lt_of_byteAt_ne (i := 1) (by rw [hc.2]; decide)) hc.1 hc.2
  exact iteInduction (fun hc => moves_word hkw hz hc) fun _ => moves_illegal _

/-! ### All tokens -/

/-- The tokens of a text, each with the text that begins with it. -/
def tokens (keywordCode : List UInt8 → TokenType) :
    ℕ → List UInt8 → List (List UInt8 × TokenType × ℕ)
  | 0, _ => []
  | fuel + 1, z =>
    if z = [] then []
    else
      let r := sqlite3GetToken keywordCode z
      (z, r) :: tokens keywordCode fuel (z.drop r.2)

/-- The tokens that are not space, as the table knows them. -/
def classes (keywordCode : List UInt8 → TokenType) (k : Codes) (z : List UInt8) : List Tk :=
  ((tokens keywordCode z.length z).map fun t => k.tk t.2.1).filter (· ≠ .tkWs)

theorem foldl_filter_ws (us : List Tk) (st : State) :
    (us.filter (· ≠ .tkWs)).foldl trans st = us.foldl trans st := by
  induction us generalizing st with
  | nil => rfl
  | cons t us ih =>
    by_cases ht : t = .tkWs
    · rw [List.filter_cons_of_neg (by simpa using ht), ih, List.foldl_cons, ht, trans_ws]
    · rw [List.filter_cons_of_pos (by simpa using ht), List.foldl_cons, List.foldl_cons, ih]

/-- A legal token has a byte at least, and ends in the text. -/
theorem inside_of_legal (hne : z ≠ []) (h : (sqlite3GetToken keywordCode z).1 ≠ .illegal) :
    Inside z (sqlite3GetToken keywordCode z) := by
  refine inside_getToken keywordCode hne fun hbang => ?_
  by_contra hlen
  obtain ⟨c, rfl⟩ : ∃ c, z = [c] := by
    have := List.length_pos_of_ne_nil hne
    exact List.length_eq_one_iff.mp (by omega)
  obtain rfl : c = '!'.toUInt8 := hbang
  exact h rfl

/-- **Both move over all tokens.** -/
theorem complete_tokens (hkw : Keywords keywordCode k) {fuel : ℕ} (hz : 0 ∉ z)
    (hfuel : z.length ≤ fuel) (h : ∀ t ∈ tokens keywordCode fuel z, Same t.1 t.2) (st : State) :
    complete st z =
      some (((tokens keywordCode fuel z).map fun t => k.tk t.2.1).foldl trans st == .start) := by
  induction fuel generalizing z st with
  | zero =>
    rw [List.length_eq_zero_iff.mp (Nat.le_zero.mp hfuel), complete_nil]
    rfl
  | succ fuel ih =>
    rw [tokens] at h ⊢
    by_cases hne : z = []
    · rw [if_pos hne, hne, complete_nil]
      rfl
    · rw [if_neg hne] at h ⊢
      obtain ⟨hfirst, hrest⟩ := List.forall_mem_cons.mp h
      have hlen := (inside_of_legal hne hfirst.legal.1).1
      rw [complete_getToken hkw hz hne hfirst st, List.map_cons, List.foldl_cons]
      refine ih (notMem_drop hz _) ?_ hrest _
      rw [List.length_drop]
      omega

/-- Every token is legal and none is a variable, and comments are closed. -/
def Readable (keywordCode : List UInt8 → TokenType) (z : List UInt8) : Prop :=
  ∀ t ∈ tokens keywordCode z.length z, (t.2.1 ≠ .illegal ∧ t.2.1 ≠ .variable) ∧
    (t.2.1 = .space → byteAt t.1 0 = '/'.toUInt8 →
      ['*'.toUInt8, '/'.toUInt8] <:+ (t.1.take t.2.2).drop 2)

/-- No vertical tab is in white space, and no identifier goes on behind the number of a register. -/
def Agreed (keywordCode : List UInt8 → TokenType) (z : List UInt8) : Prop :=
  ∀ t ∈ tokens keywordCode z.length z,
    (t.2.1 = .space → isSpace (byteAt t.1 0) = true → 11 ∉ t.1.take t.2.2) ∧
    (t.2.1 = .register → idChar (byteAt t.1 t.2.2) = false)

instance (z : List UInt8) : Decidable (Readable keywordCode z) :=
  inferInstanceAs (Decidable (∀ t ∈ _, _))

instance (z : List UInt8) : Decidable (Agreed keywordCode z) :=
  inferInstanceAs (Decidable (∀ t ∈ _, _))

/-- `sqlite3_complete` never reads behind the terminator, and accepts the texts whose tokens are
statements. -/
theorem sqlite3Complete_correct (hkw : Keywords keywordCode k) :
    (∀ z, 0 ∉ z → ∃ b, sqlite3Complete z = some b) ∧
      ∀ z, 0 ∉ z → Readable keywordCode z → Agreed keywordCode z →
        (sqlite3Complete z = some true ↔ Statements (classes keywordCode k z)) := by
  refine ⟨fun z hz => complete_isSome hz .invalid, fun z hz hread hagree => ?_⟩
  have hsame : ∀ t ∈ tokens keywordCode z.length z, Same t.1 t.2 := fun t ht =>
    ⟨(hread t ht).1, (hread t ht).2, (hagree t ht).1, (hagree t ht).2⟩
  have hws : ∀ t ∈ classes keywordCode k z, t ≠ .tkWs := fun t ht => by
    simpa using (List.mem_filter.mp ht).2
  have hrun : sqlite3Complete z = complete .invalid z := rfl
  rw [← accepts_iff hws, classes, foldl_filter_ws, hrun,
    complete_tokens hkw hz (Nat.le_refl _) hsame .invalid, Option.some.injEq, beq_iff_eq]

/-- The codes of the keywords of the table, in their order. -/
def tableCodes : Codes := ⟨0, 1, 2, 3, 4⟩

/-- The keywords of the table alone. -/
def tableKeyword (w : List UInt8) : TokenType :=
  if Hash.fold w = word "create" then .keyword 0
  else if Hash.fold w = word "trigger" then .keyword 1
  else if Hash.fold w = word "temp" ∨ Hash.fold w = word "temporary" then .keyword 2
  else if Hash.fold w = word "end" then .keyword 3
  else if Hash.fold w = word "explain" then .keyword 4
  else .id

theorem keywords_table : Keywords tableKeyword tableCodes := by
  have h01 : word "create" ≠ word "trigger" := by decide
  have h02 : word "create" ≠ word "temp" := by decide
  have h02' : word "create" ≠ word "temporary" := by decide
  have h03 : word "create" ≠ word "end" := by decide
  have h04 : word "create" ≠ word "explain" := by decide
  have h12 : word "trigger" ≠ word "temp" := by decide
  have h12' : word "trigger" ≠ word "temporary" := by decide
  have h13 : word "trigger" ≠ word "end" := by decide
  have h14 : word "trigger" ≠ word "explain" := by decide
  have h23 : word "temp" ≠ word "end" := by decide
  have h23' : word "temporary" ≠ word "end" := by decide
  have h24 : word "temp" ≠ word "explain" := by decide
  have h24' : word "temporary" ≠ word "explain" := by decide
  have h34 : word "end" ≠ word "explain" := by decide
  constructor
  all_goals
    intro w
    simp only [tableKeyword, tableCodes]
    grind

/-- A text with a trigger and a comment. -/
theorem sqlite3Complete_correct_trigger :
    sqlite3Complete (word "create temp trigger t; end; -- x") = some true ∧
      Statements (classes tableKeyword tableCodes (word "create temp trigger t; end; -- x")) := by
  have hrun : sqlite3Complete (word "create temp trigger t; end; -- x") = some true := by decide
  refine ⟨hrun, ((sqlite3Complete_correct keywords_table).2 _ ?_ ?_ ?_).mp hrun⟩
  · decide
  · decide
  · decide

/-- A vertical tab behind a space keeps a statement open. -/
theorem not_complete_tab : ¬ ∀ (keywordCode : List UInt8 → TokenType) (k : Codes),
    Keywords keywordCode k → ∀ z, 0 ∉ z → Readable keywordCode z →
      (sqlite3Complete z = some true ↔ Statements (classes keywordCode k z)) := by
  intro h
  have hz := h tableKeyword tableCodes keywords_table [';'.toUInt8, 32, 11] (by decide) (by decide)
  have hclasses : classes tableKeyword tableCodes [';'.toUInt8, 32, 11] = [.tkSemi] := by decide
  rw [hclasses] at hz
  have hstatements : Statements [.tkSemi] :=
    (accepts_iff (List.forall_mem_singleton.mpr (by decide))).mp rfl
  exact absurd (hz.mpr hstatements) (by decide)

end Complete

end Sql

end SqliteVms

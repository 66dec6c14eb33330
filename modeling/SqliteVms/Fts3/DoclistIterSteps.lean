import SqliteVms.Fts3.DoclistIter
import Mathlib.Data.List.Induction

/-!
# One entry of a doclist

What the loops of `fts3GetReverseVarint` and `fts3ReversePoslist` find behind an entry, and what the
readers find before one. An entry is found from behind by the terminator of the entry before it, the
only zero byte that no padding follows; the loop that looks for it ends at the first byte of the
doclist too.

## Main results

* `reverseVarint_spec`, `reversePoslist_spec` — where the two functions stop
* `readVarint_append`, `readPoslist_append` — what is read at the beginning of an entry
* `docid_add`, `docid_sub` — a difference of docids is undone, whatever its size
-/

namespace SqliteVms

namespace Fts3

namespace Iter

variable {z A B C : Bytes} {c : UInt8} {n p : ℕ} {bDescIdx : Bool} {prev docid : ℤ}
  {e : Entry} {es : List Entry}

/-! ### Bytes -/

/-- All bytes of a varint but the last one have the high bit. -/
theorem putVarintLoop_bytes {v : ℕ} (hn : 0 < n) (hv : v < 128 ^ n) :
    ∃ init last, putVarintLoop n v = init ++ [last] ∧ (∀ b ∈ init, b &&& 0x80 ≠ 0) ∧
      last &&& 0x80 = 0 ∧ (0 < v → last ≠ 0) ∧ (init = [] ↔ v < 128) := by
  induction n generalizing v with
  | zero => omega
  | succ n ih =>
    rw [putVarintLoop]
    by_cases hlow : v < 128
    · obtain ⟨hbit, hval, -, -⟩ := low_byte hlow
      rw [if_pos hlow]
      refine ⟨[], UInt8.ofNat v, rfl, List.forall_mem_nil _, hbit, fun hpos heq => ?_,
        iff_of_true rfl hlow⟩
      rw [heq] at hval
      exact hpos.ne hval
    · have hbit := (high_byte (Nat.mod_lt v (by decide : 0 < 128))).1
      have hn0 : 0 < n := by
        rcases Nat.eq_zero_or_pos n with rfl | h
        · omega
        · exact h
      obtain ⟨init, last, heq, hinit, hlast, hpos, -⟩ :=
        ih hn0 (Nat.div_lt_of_lt_mul (by rwa [pow_succ'] at hv))
      rw [if_neg hlow, heq]
      refine ⟨UInt8.ofNat (v % 128 + 128) :: init, last, rfl, List.forall_mem_cons.mpr ⟨?_, hinit⟩,
        hlast, fun _ => hpos (by omega), iff_of_false (by simp) hlow⟩
      rw [hbit]
      decide

theorem putVarint_bytes (v : ℤ) :
    ∃ init last, putVarint v = init ++ [last] ∧ (∀ b ∈ init, b &&& 0x80 ≠ 0) ∧
      last &&& 0x80 = 0 ∧ (v % 2 ^ 64 ≠ 0 → last ≠ 0) ∧ (init = [] ↔ v % 2 ^ 64 < 128) := by
  have hlt : (v % 2 ^ 64).toNat < 128 ^ 10 := by
    have : (v % 2 ^ 64).toNat < 2 ^ 64 := by omega
    exact this.trans_le (by decide)
  obtain ⟨init, last, heq, hinit, hlast, hpos, hlow⟩ := putVarintLoop_bytes (by decide) hlt
  exact ⟨init, last, heq, hinit, hlast, fun h => hpos (by omega), hlow.trans (by omega)⟩

theorem ne_zero_of_bit {b : UInt8} (h : b &&& 0x80 ≠ 0) : b ≠ 0 := by
  rintro rfl
  exact h rfl

/-- The bytes of the numbers: none is zero, and the last one has no high bit. -/
theorem numbers_bytes {ns : List ℕ} (h : ∀ v ∈ ns, 0 < v ∧ v < 2 ^ 64) :
    (∀ b ∈ ns.flatMap varint, b ≠ 0) ∧
      (ns.flatMap varint = [] ∨ ∃ N last, ns.flatMap varint = N ++ [last] ∧ last &&& 0x80 = 0) ∧
      (ns.flatMap varint = [] ↔ ns = []) := by
  induction ns with
  | nil => exact ⟨List.forall_mem_nil _, Or.inl rfl, iff_of_true rfl rfl⟩
  | cons v ns ih =>
    obtain ⟨⟨hpos, hlt⟩, hns⟩ := List.forall_mem_cons.mp h
    obtain ⟨hall, hend, -⟩ := ih hns
    obtain ⟨init, last, heq, hinit, hlast, hne, -⟩ :=
      putVarintLoop_bytes (n := 10) (by decide) (hlt.trans_le (by decide))
    rw [List.flatMap_cons, varint, heq]
    refine ⟨fun b hb => ?_, Or.inr ?_, iff_of_false (by simp) (by simp)⟩
    · rw [List.mem_append, List.mem_append, List.mem_singleton] at hb
      rcases hb with (hb | rfl) | hb
      · exact ne_zero_of_bit (hinit b hb)
      · exact hne hpos
      · exact hall b hb
    · rcases hend with hnil | ⟨N, last', heq', hlast'⟩
      · rw [hnil, List.append_nil]
        exact ⟨init, last, rfl, hlast⟩
      · rw [heq']
        exact ⟨init ++ [last] ++ N, last', by simp, hlast'⟩

theorem read_at (A C : Bytes) (h : z = A ++ c :: C) (hn : A.length = n) :
    z[n]? = some c := by
  rw [h, ← hn, List.getElem?_append_right (Nat.le_refl _), Nat.sub_self]
  rfl

/-! ### Backwards over one entry -/

/-- What is before an entry: nothing, or the zero byte that ends the entry before, which is no part
of a varint. -/
def Ended (A : Bytes) : Prop := A = [] ∨ ∃ B b, A = B ++ [b, 0] ∧ b &&& 0x80 = 0

theorem reverseVarint_spec (hA : Ended A) {init : Bytes} (hinit : ∀ b ∈ init, b &&& 0x80 ≠ 0)
    (C : Bytes) : reverseVarint (A ++ (init ++ C)) (A.length + init.length) = some A.length := by
  induction init using List.reverseRecOn generalizing C with
  | nil =>
    rcases hA with rfl | ⟨B, b, rfl, hb⟩
    · rfl
    · have hread : (B ++ [b, 0] ++ ([] ++ C))[B.length + 1]? = some 0 :=
        read_at (B ++ [b]) C (by simp) (by simp)
      rw [List.length_append, List.length_nil, Nat.add_zero]
      change reverseVarint _ (B.length + 1 + 1) = _
      rw [reverseVarint, hread, Option.bind_some, if_neg (by decide)]
      rfl
  | append_singleton init b ih =>
    obtain ⟨hinit, hb⟩ := List.forall_mem_append.mp hinit
    have hread : (A ++ (init ++ [b] ++ C))[A.length + init.length]? = some b :=
      read_at (A ++ init) C (by simp) (by simp)
    rw [List.length_append, List.length_singleton, ← Nat.add_assoc, reverseVarint, hread,
      Option.bind_some, if_pos (hb b (List.mem_singleton.mpr rfl)), List.append_assoc]
    exact ih hinit ([b] ++ C)

theorem skipBack_zeros (B C : Bytes) (k : ℕ) (hp : B.length = p + 1) :
    skipBack (B ++ (List.replicate k 0 ++ C)) (p + k) 0 =
      skipBack (B ++ (List.replicate k 0 ++ C)) p 0 := by
  induction k generalizing C with
  | zero => rfl
  | succ k ih =>
    have hlist : List.replicate (k + 1) 0 ++ C = List.replicate k 0 ++ (0 :: C) := by
      rw [List.replicate_succ', List.append_assoc]
      rfl
    have hread : (B ++ (List.replicate k 0 ++ (0 :: C)))[p + k + 1]? = some 0 :=
      read_at (B ++ List.replicate k 0) C (by simp) (by simp; omega)
    rw [hlist, ← Nat.add_assoc, skipBack, hread, Option.bind_some, if_pos rfl]
    exact ih (0 :: C)

/-- The second loop moves over bytes that are not zero. -/
theorem findBack_down {S : Bytes} (hS : ∀ b ∈ S, b ≠ 0) (C : Bytes) (hA : 0 < A.length)
    (hc : c ≠ 0) : ∃ d, d ≠ 0 ∧ findBack (A ++ (S ++ C)) (A.length + S.length - 1) c =
      findBack (A ++ (S ++ C)) (A.length - 1) d := by
  induction S using List.reverseRecOn generalizing C c with
  | nil => exact ⟨c, hc, rfl⟩
  | append_singleton S b ih =>
    obtain ⟨hS, hb⟩ := List.forall_mem_append.mp hS
    have hb := hb b (List.mem_singleton.mpr rfl)
    have hread : (A ++ (S ++ [b] ++ C))[A.length + S.length - 1 + 1]? = some b :=
      read_at (A ++ S) C (by simp) (by simp; omega)
    have hor : b &&& 0x80 ||| c ≠ 0 := fun h => hc (UInt8.or_eq_zero_iff.mp h).2
    have hlen : A.length + (S ++ [b]).length - 1 = A.length + S.length - 1 + 1 := by
      rw [List.length_append, List.length_singleton]
      omega
    rw [hlen, findBack, hread, Option.bind_some, if_pos hor, List.append_assoc]
    exact ih hS ([b] ++ C) hb

theorem skipVarint_spec {init : Bytes} {last : UInt8} (hinit : ∀ b ∈ init, b &&& 0x80 ≠ 0)
    (hlast : last &&& 0x80 = 0) (A C : Bytes) {fuel : ℕ} (hfuel : init.length < fuel) :
    skipVarint (A ++ (init ++ last :: C)) fuel A.length = some (A.length + init.length + 1) := by
  induction init generalizing A fuel with
  | nil =>
    obtain ⟨n, rfl⟩ : ∃ n, fuel = n + 1 := ⟨fuel - 1, by omega⟩
    have hread : (A ++ ([] ++ last :: C))[A.length]? = some last := read_at A C rfl rfl
    rw [skipVarint, hread, Option.bind_some, if_neg (not_not.mpr hlast)]
    rfl
  | cons b init ih =>
    obtain ⟨hb, hinit⟩ := List.forall_mem_cons.mp hinit
    obtain ⟨n, rfl⟩ : ∃ n, fuel = n + 1 := ⟨fuel - 1, by omega⟩
    have h := ih hinit (A ++ [b]) (show init.length < n by rw [List.length_cons] at hfuel; omega)
    rw [List.length_append, List.length_singleton, List.append_assoc, List.singleton_append] at h
    have hread : (A ++ (b :: init ++ last :: C))[A.length]? = some b := read_at A _ rfl rfl
    rw [skipVarint, hread, Option.bind_some, if_pos hb, List.cons_append, h, List.length_cons]
    congr 1
    omega

/-- The first two loops stop at a byte that is zero, or at the first one. -/
theorem searchBack {S : Bytes} (hS : ∀ b ∈ S, b ≠ 0) (pad : ℕ) (C : Bytes) (hA : 0 < A.length)
    (hne : 1 < A.length → S ≠ []) :
    ∃ d, (A.length = 1 ∨ d ≠ 0) ∧
      ((skipBack (A ++ (S ++ (List.replicate (pad + 1) 0 ++ C)))
          (A.length + S.length - 1 + pad) 0).bind fun r =>
            findBack (A ++ (S ++ (List.replicate (pad + 1) 0 ++ C))) r.1 r.2) =
        findBack (A ++ (S ++ (List.replicate (pad + 1) 0 ++ C))) (A.length - 1) d := by
  have hlist : A ++ (S ++ (List.replicate (pad + 1) 0 ++ C)) =
      A ++ S ++ (List.replicate pad 0 ++ (0 :: C)) := by
    rw [List.replicate_succ', List.append_assoc, List.append_assoc]
    rfl
  have hzeros := skipBack_zeros (p := A.length + S.length - 1) (A ++ S) (0 :: C) pad
    (by rw [List.length_append]; omega)
  rw [← hlist] at hzeros
  rw [hzeros]
  rcases List.eq_nil_or_concat' S with rfl | ⟨S, l, rfl⟩
  · have hone : A.length = 1 := by
      by_contra h
      exact hne (by omega) rfl
    rw [hone]
    exact ⟨0, Or.inl rfl, rfl⟩
  · obtain ⟨hS, hl⟩ := List.forall_mem_append.mp hS
    have hl := hl l (List.mem_singleton.mpr rfl)
    have hlen : A.length + (S ++ [l]).length - 1 = A.length + S.length - 1 + 1 := by
      rw [List.length_append, List.length_singleton]
      omega
    rw [hlen, List.append_assoc]
    have hread : (A ++ (S ++ ([l] ++ (List.replicate (pad + 1) 0 ++ C))))[
        A.length + S.length - 1 + 1]? = some l :=
      read_at (A ++ S) (List.replicate (pad + 1) 0 ++ C) (by simp) (by simp; omega)
    obtain ⟨d, hd, hdown⟩ := findBack_down hS ([l] ++ (List.replicate (pad + 1) 0 ++ C)) hA hl
    refine ⟨d, Or.inr hd, ?_⟩
    rw [skipBack, hread, Option.bind_some, if_neg hl, Option.bind_some]
    exact hdown

theorem skipVarint_from {init : Bytes} {last : UInt8} (hinit : ∀ b ∈ init, b &&& 0x80 ≠ 0)
    (hlast : last &&& 0x80 = 0) (A C : Bytes) (hz : z = A ++ (init ++ last :: C)) :
    skipVarint z (z.length + 1) A.length = some (A.length + init.length + 1) := by
  subst hz
  refine skipVarint_spec hinit hlast A C ?_
  rw [List.length_append, List.length_append]
  omega

/-- At the first entry the loops stop at its first byte. -/
theorem reversePoslist_first {init N : Bytes} {last : UInt8} (hinit : ∀ b ∈ init, b &&& 0x80 ≠ 0)
    (hlast : last &&& 0x80 = 0) (hne : init ≠ [] → last ≠ 0) (hN : ∀ b ∈ N, b ≠ 0) (pad : ℕ)
    (C : Bytes) :
    fts3ReversePoslist (init ++ last :: (N ++ (List.replicate (pad + 1) 0 ++ C)))
        (init.length + 1 + (N.length + (pad + 1))) = some (init.length + 1) := by
  obtain ⟨s, S, hsplit, hlen, hS⟩ : ∃ s S, init ++ last :: N = s :: S ∧
      S.length = init.length + N.length ∧ ∀ b ∈ S, b ≠ 0 := by
    cases init with
    | nil => exact ⟨last, N, rfl, by simp, hN⟩
    | cons b init =>
      refine ⟨b, init ++ last :: N, rfl, by simp; omega, fun d hd => ?_⟩
      rcases List.mem_append.mp hd with hd | hd
      · exact ne_zero_of_bit (hinit d (List.mem_cons_of_mem _ hd))
      · rcases List.mem_cons.mp hd with rfl | hd
        · exact hne (by simp)
        · exact hN d hd
  have hlist : init ++ last :: (N ++ (List.replicate (pad + 1) 0 ++ C)) =
      [s] ++ (S ++ (List.replicate (pad + 1) 0 ++ C)) := by
    rw [← List.cons_append, ← List.append_assoc, hsplit]
    rfl
  obtain ⟨d, -, hsearch⟩ :=
    searchBack hS pad C (A := [s]) (by simp) (fun h => absurd h (by simp))
  have hskip := skipVarint_from hinit hlast [] (N ++ (List.replicate (pad + 1) 0 ++ C)) hlist.symm
  have hpos : init.length + 1 + (N.length + (pad + 1)) - 2 = [s].length + S.length - 1 + pad := by
    rw [List.length_singleton]
    omega
  rw [fts3ReversePoslist, if_neg (by omega), hlist, hpos, ← Option.bind_assoc, hsearch]
  rw [List.length_nil, Nat.zero_add] at hskip
  exact hskip

/-- Behind another entry they stop at its terminator, or at the first byte if that is the one before
the terminator. -/
theorem reversePoslist_later (B : Bytes) {b : UInt8} (hb : b &&& 0x80 = 0) {init N : Bytes}
    {last : UInt8} (hinit : ∀ b ∈ init, b &&& 0x80 ≠ 0) (hlast : last &&& 0x80 = 0) (hne : last ≠ 0)
    (hN : ∀ b ∈ N, b ≠ 0) (pad : ℕ) (C : Bytes) :
    fts3ReversePoslist (B ++ [b, 0] ++ (init ++ last :: (N ++ (List.replicate (pad + 1) 0 ++ C))))
        (B.length + 2 + (init.length + 1) + (N.length + (pad + 1))) =
      some (if B.length = 0 then 1 else B.length + 2 + (init.length + 1)) := by
  have hS : ∀ d ∈ init ++ last :: N, d ≠ 0 := by
    intro d hd
    rcases List.mem_append.mp hd with hd | hd
    · exact ne_zero_of_bit (hinit d hd)
    · rcases List.mem_cons.mp hd with rfl | hd
      · exact hne
      · exact hN d hd
  have hlist : B ++ [b, 0] ++ (init ++ last :: (N ++ (List.replicate (pad + 1) 0 ++ C))) =
      B ++ [b, 0] ++ (init ++ last :: N ++ (List.replicate (pad + 1) 0 ++ C)) := by simp
  have hlen : (B ++ [b, 0]).length = B.length + 2 := by simp
  obtain ⟨d, hd, hsearch⟩ :=
    searchBack hS pad C (A := B ++ [b, 0]) (by simp) (fun _ => by simp)
  have hd := hd.resolve_left (by simp)
  have hskip := skipVarint_from hinit hlast (B ++ [b, 0]) (N ++ (List.replicate (pad + 1) 0 ++ C))
    hlist.symm
  have hpos : B.length + 2 + (init.length + 1) + (N.length + (pad + 1)) - 2 =
      (B ++ [b, 0]).length + (init ++ last :: N).length - 1 + pad := by
    simp
    omega
  have hzero : (B ++ [b, 0] ++ (init ++ last :: N ++ (List.replicate (pad + 1) 0 ++ C)))[
      B.length + 1]? = some 0 :=
    read_at (B ++ [b]) (init ++ last :: N ++ (List.replicate (pad + 1) 0 ++ C)) (by simp) (by simp)
  have hor : (0 : UInt8) &&& 0x80 ||| d ≠ 0 := fun h => hd (UInt8.or_eq_zero_iff.mp h).2
  rw [fts3ReversePoslist, if_neg (by omega), hlist, hpos, ← Option.bind_assoc, hsearch, hlen,
    Nat.add_sub_assoc (by decide), findBack, hzero, Option.bind_some, if_pos hor]
  rcases Nat.eq_zero_or_pos B.length with hB | hB
  · have hBnil := List.length_eq_zero_iff.mp hB
    subst hBnil
    have hone := skipVarint_from (List.forall_mem_nil _) hb []
      (0 :: (init ++ last :: N ++ (List.replicate (pad + 1) 0 ++ C))) rfl
    exact hone
  · obtain ⟨m, hm⟩ : ∃ m, B.length = m + 1 := ⟨B.length - 1, by omega⟩
    have hread : (B ++ [b, 0] ++ (init ++ last :: N ++ (List.replicate (pad + 1) 0 ++ C)))[m + 1]? =
        some b :=
      read_at B (0 :: (init ++ last :: N ++ (List.replicate (pad + 1) 0 ++ C))) (by simp) hm
    rw [hlen, hm, Nat.add_assoc] at hskip
    rw [hm, findBack, hread, Option.bind_some, if_neg (by rw [hb]; decide), Option.bind_some,
      if_pos (Nat.succ_pos m), if_neg (Nat.succ_ne_zero m)]
    exact hskip

/-- **Where `fts3ReversePoslist` stops**: at the position list of the entry, but at the list of the
entry before if that begins the doclist with two bytes. -/
theorem reversePoslist_spec (hA : Ended A) {init N : Bytes} {last : UInt8}
    (hinit : ∀ b ∈ init, b &&& 0x80 ≠ 0) (hlast : last &&& 0x80 = 0)
    (hne : A ≠ [] ∨ init ≠ [] → last ≠ 0) (hN : ∀ b ∈ N, b ≠ 0) (pad : ℕ) (C : Bytes) :
    fts3ReversePoslist (A ++ (init ++ last :: (N ++ (List.replicate (pad + 1) 0 ++ C))))
        (A.length + (init.length + 1) + (N.length + (pad + 1))) =
      some (if A.length = 2 then 1 else A.length + (init.length + 1)) := by
  rcases hA with rfl | ⟨B, b, rfl, hb⟩
  · have hfirst := reversePoslist_first hinit hlast (fun h => hne (Or.inr h)) hN pad C
    rwa [List.length_nil, Nat.zero_add, if_neg (by decide)]
  · have hlater := reversePoslist_later B hb hinit hlast (hne (Or.inl (by simp))) hN pad C
    have hlen : (B ++ [b, 0]).length = B.length + 2 := by simp
    have hiff : B.length + 2 = 2 ↔ B.length = 0 := by omega
    rw [hlen]
    simp only [hiff]
    exact hlater

/-! ### Docids -/

theorem docid_add (bDescIdx : Bool) {d d' : ℤ} (h : -2 ^ 63 ≤ d') (h' : d' < 2 ^ 63) :
    Int.bmod (d + sign bDescIdx * Int.bmod (sign bDescIdx * (d' - d)) (2 ^ 64)) (2 ^ 64) = d' := by
  have heq : d + (d' - d) = d' := by omega
  cases bDescIdx
  · rw [show sign false = 1 from rfl, one_mul, one_mul, Int.add_bmod_bmod, heq]
    exact Int.bmod_eq_of_le (by omega) (by omega)
  · rw [show sign true = -1 from rfl, neg_one_mul, neg_one_mul, ← sub_eq_add_neg,
      Int.sub_bmod_bmod, sub_neg_eq_add, heq]
    exact Int.bmod_eq_of_le (by omega) (by omega)

theorem docid_sub (bDescIdx : Bool) {d d' : ℤ} (h : -2 ^ 63 ≤ d) (h' : d < 2 ^ 63) :
    Int.bmod (d' - sign bDescIdx * Int.bmod (sign bDescIdx * (d' - d)) (2 ^ 64)) (2 ^ 64) = d := by
  have heq : d' - (d' - d) = d := by omega
  cases bDescIdx
  · rw [show sign false = 1 from rfl, one_mul, one_mul, Int.sub_bmod_bmod, heq]
    exact Int.bmod_eq_of_le (by omega) (by omega)
  · rw [show sign true = -1 from rfl, neg_one_mul, neg_one_mul, sub_neg_eq_add,
      Int.add_bmod_bmod, ← sub_eq_add_neg, heq]
    exact Int.bmod_eq_of_le (by omega) (by omega)

/-- The difference of two docids is not zero. -/
theorem delta_ne (bDescIdx : Bool) {d d' : ℤ} (h : -2 ^ 63 ≤ d ∧ d < 2 ^ 63)
    (h' : -2 ^ 63 ≤ d' ∧ d' < 2 ^ 63) (hne : d ≠ d') :
    sign bDescIdx * (d' - d) % 2 ^ 64 ≠ 0 := by
  cases bDescIdx
  · rw [show sign false = 1 from rfl]
    omega
  · rw [show sign true = -1 from rfl]
    omega

/-! ### Forwards over one entry -/

theorem readVarint_append (A C : Bytes) (v : ℤ) :
    readVarint (A ++ (putVarint v ++ C)) A.length =
      some (Int.bmod v (2 ^ 64), (putVarint v).length) := by
  rw [readVarint, List.drop_left, getVarint_putVarint, if_pos]
  rw [List.length_append, List.length_append]
  omega

theorem poslistLength_list (h : e.Valid) (C : Bytes) :
    poslistLength 0 (e.list ++ C) = e.list.length := by
  have hnums := h.1
  rw [Entry.list]
  generalize e.numbers = ns at hnums
  induction ns with
  | nil => rfl
  | cons v ns ih =>
    obtain ⟨⟨hpos, hlt⟩, hns⟩ := List.forall_mem_cons.mp hnums
    rw [List.flatMap_cons, List.append_assoc, List.append_assoc, poslistLength_varint hlt hpos,
      ← List.append_assoc, ih hns, List.append_assoc]
    exact List.length_append.symm

theorem readPoslist_append (h : e.Valid) (A C : Bytes) :
    readPoslist (A ++ (e.list ++ C)) A.length = some e.list.length := by
  rw [readPoslist, List.drop_left, poslistLength_list h, if_pos]
  rw [List.length_append, List.length_append]
  omega

theorem length_list (e : Entry) : e.list.length = (e.numbers.flatMap varint).length + 1 := by
  rw [Entry.list, List.length_append, List.length_singleton]

theorem length_bytes (e : Entry) : e.bytes.length = e.list.length + e.pad := by
  rw [Entry.bytes, List.length_append, List.length_replicate]

/-- The docid before the entries behind `es`. -/
def lastDocid (prev : ℤ) (es : List Entry) : ℤ := es.foldl (fun _ e => e.docid) prev

theorem lastDocid_append (prev : ℤ) (es : List Entry) (e : Entry) :
    lastDocid prev (es ++ [e]) = e.docid := List.foldl_append

theorem encodeFrom_append (bDescIdx : Bool) (prev : ℤ) (l r : List Entry) :
    encodeFrom bDescIdx prev (l ++ r) =
      encodeFrom bDescIdx prev l ++ encodeFrom bDescIdx (lastDocid prev l) r := by
  induction l generalizing prev with
  | nil => rfl
  | cons e l ih =>
    rw [List.cons_append, encodeFrom, ih, encodeFrom, List.append_assoc, List.append_assoc]
    rfl

/-- The docid before the first entry, to write it as the others are. -/
def start (bDescIdx : Bool) : List Entry → ℤ
  | [] => 0
  | e :: _ => if bDescIdx = true then 2 * e.docid else 0

theorem delta_start (bDescIdx : Bool) (e : Entry) (es : List Entry) :
    sign bDescIdx * (e.docid - start bDescIdx (e :: es)) = e.docid := by
  cases bDescIdx
  · change 1 * (e.docid - 0) = e.docid
    omega
  · change -1 * (e.docid - 2 * e.docid) = e.docid
    omega

theorem encode_eq (bDescIdx : Bool) (es : List Entry) :
    encode bDescIdx es = encodeFrom bDescIdx (start bDescIdx es) es := by
  cases es with
  | nil => rfl
  | cons e es => rw [encode, encodeFrom, delta_start]

end Iter

end Fts3

end SqliteVms

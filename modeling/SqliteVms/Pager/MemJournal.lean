import Mathlib.Data.List.Perm.Subperm
import SqliteVms.Lib.Disk
import SqliteVms.Lib.Run

/-!
# The journal in memory

`memjournal.c` keeps a journal in a list of chunks, with a cursor at its end and another where the
last read stopped. A read that stops at the end of a chunk moves on to the next; where the chunk was
the last one, the cursor is left without a chunk. It is not moved when the journal grows, and a read
that goes on from there follows a null pointer.

An address that has been freed is not handed out again.

## Main definitions

* `FileChunk`, `FilePoint`, `MemJournal` — the structures, over a heap
* `memjrnlRead`, `memjrnlWrite`, `memjrnlTruncate` — the methods; `none` is an access through a
  pointer that is null or has been freed
* `Chunks` — the chunks hold the bytes of a file
* `Stale` — a read that goes on from a cursor without a chunk

## Main results

* `memjrnlRead_spec`, `memjrnlWrite_spec`, `memjrnlTruncate_spec` — the methods
* `readpoint_isNone_iff` — which reads leave the cursor without a chunk
* `exec_eq_file_iff` — the journal answers as a file does exactly along runs without a stale read
-/

namespace SqliteVms

namespace MemoryJournal

open Store

/-! ### The journal -/

/-- The size of a pointer. -/
inductive Pointers
  | four
  | eight
  deriving DecidableEq

/-- `sizeof(FileChunk*)`. -/
def Pointers.size : Pointers → ℕ
  | four => 4
  | eight => 8

/-- `JOURNAL_CHUNKSIZE`. -/
def chunkSize (w : Pointers) : ℕ := 1024 - w.size

theorem chunkSize_pos (w : Pointers) : 0 < chunkSize w := by cases w <;> decide

/-- A chunk. Only the first `chunkSize` bytes of it are there. -/
structure FileChunk where
  pNext : Option ℕ
  zChunk : ℕ → UInt8

/-- A cursor. -/
structure FilePoint where
  iOffset : ℕ
  pChunk : Option ℕ

/-- A journal with the heap it lives in. No address from `brk` on has been handed out. -/
structure MemJournal where
  heap : ℕ → Option FileChunk
  brk : ℕ
  pFirst : Option ℕ
  endpoint : FilePoint
  readpoint : FilePoint

def sqlite3MemJournalOpen (p : MemJournal) : MemJournal :=
  { p with pFirst := none, endpoint := ⟨0, none⟩, readpoint := ⟨0, none⟩ }

/-- What a pointer points to. -/
def MemJournal.deref (p : MemJournal) (pChunk : Option ℕ) : Option FileChunk := pChunk.bind p.heap

/-! ### Reads -/

variable (w : Pointers)

/-- The loop that looks for the chunk of `iOfst`, from a chunk at `iOff` on. -/
def seekLoop (p : MemJournal) (iOfst : ℕ) : ℕ → ℕ → Option ℕ → Option (Option ℕ)
  | 0, _, _ => none
  | fuel + 1, iOff, pChunk =>
    if pChunk ≠ none ∧ iOff + chunkSize w ≤ iOfst then
      (p.deref pChunk).bind fun c => seekLoop p iOfst fuel (iOff + chunkSize w) c.pNext
    else some pChunk

/-- The chunk a read starts in. -/
def startChunk (p : MemJournal) (iOfst : ℕ) : Option (Option ℕ) :=
  if p.readpoint.iOffset ≠ iOfst ∨ iOfst = 0 then seekLoop w p iOfst (iOfst + 1) 0 p.pFirst
  else some p.readpoint.pChunk

/-- The loop that copies: what it copies, and the chunk it ends in. -/
def copyLoop (p : MemJournal) : ℕ → Option ℕ → ℕ → ℤ → Option (List UInt8 × Option ℕ)
  | 0, _, _, _ => none
  | fuel + 1, pChunk, iChunkOffset, nRead =>
    (p.deref pChunk).bind fun c =>
      let iSpace : ℤ := chunkSize w - iChunkOffset
      let nCopy := (min nRead iSpace).toNat
      let zOut := slice c.zChunk iChunkOffset nCopy
      let nRead' := nRead - iSpace
      if 0 ≤ nRead' then
        if c.pNext ≠ none ∧ 0 < nRead' then
          (copyLoop p fuel c.pNext 0 nRead').map fun r => (zOut ++ r.1, r.2)
        else some (zOut, c.pNext)
      else some (zOut, pChunk)

def memjrnlRead (p : MemJournal) (iAmt iOfst : ℕ) : Option (List UInt8 × MemJournal) := do
  let pChunk ← startChunk w p iOfst
  let (zOut, pChunk) ← copyLoop w p (iAmt + 1) pChunk (iOfst % chunkSize w) iAmt
  return (zOut, { p with readpoint := ⟨iOfst + iAmt, pChunk⟩ })

/-! ### Writes -/

-- what is in memory that `malloc` hands out
variable (junk : ℕ → ℕ → UInt8)

/-- A new chunk at the end of the list. -/
def extend (p : MemJournal) : Option MemJournal :=
  let pNew := p.brk
  let heap := Function.update p.heap pNew (some ⟨none, junk pNew⟩)
  let p' := { p with brk := pNew + 1, endpoint.pChunk := some pNew }
  match p.endpoint.pChunk with
  | some a => (p.heap a).map fun c =>
      { p' with heap := Function.update heap a (some { c with pNext := some pNew }) }
  | none => some { p' with heap := heap, pFirst := some pNew }

/-- The bytes `z` are copied into the last chunk. -/
def fillChunk (p : MemJournal) (iChunkOffset : ℕ) (z : List UInt8) : Option MemJournal :=
  match p.endpoint.pChunk with
  | some a => (p.heap a).map fun c =>
      { p with
        heap := Function.update p.heap a (some { c with zChunk := blit c.zChunk iChunkOffset z })
        endpoint.iOffset := p.endpoint.iOffset + z.length }
  | none => none

/-- The loop of `memjrnlWrite`. -/
def writeLoop : ℕ → MemJournal → List UInt8 → Option MemJournal
  | 0, _, _ => none
  | fuel + 1, p, z =>
    if z = [] then some p
    else
      let iChunkOffset := p.endpoint.iOffset % chunkSize w
      let iSpace := min z.length (chunkSize w - iChunkOffset)
      ((if iChunkOffset = 0 then extend junk p else some p).bind fun p =>
        fillChunk p iChunkOffset (z.take iSpace)).bind fun p => writeLoop fuel p (z.drop iSpace)

/-- `memjrnlWrite`, when the chunks it asks for are there. The offset is not used. -/
def memjrnlWrite (p : MemJournal) (zBuf : List UInt8) (_iOfst : ℕ) : Option MemJournal :=
  writeLoop w junk (zBuf.length + 1) p zBuf

/-! ### Truncation -/

/-- The loop of `memjrnlTruncate`, which frees the list. -/
def freeLoop : ℕ → (ℕ → Option FileChunk) → Option ℕ → Option (ℕ → Option FileChunk)
  | _, heap, none => some heap
  | 0, _, some _ => none
  | fuel + 1, heap, some a =>
    (heap a).bind fun c => freeLoop fuel (Function.update heap a none) c.pNext

/-- `memjrnlTruncate`. The size is zero. -/
def memjrnlTruncate (p : MemJournal) : Option MemJournal :=
  (freeLoop p.brk p.heap p.pFirst).map fun heap => sqlite3MemJournalOpen { p with heap }

/-! ### The bytes in the chunks -/

/-- The chunks `L`, in the order of the list, hold the bytes of `f`. -/
structure Chunks (p : MemJournal) (L : List ℕ) (f : Disk.File) : Prop where
  nodup : L.Nodup
  fresh : ∀ a ∈ L, a < p.brk
  first : p.pFirst = L[0]?
  last : p.endpoint.pChunk = L.getLast?
  size : p.endpoint.iOffset = f.size
  room : f.size ≤ L.length * chunkSize w
  holds : ∀ i a, L[i]? = some a → ∃ c, p.heap a = some c ∧ c.pNext = L[i + 1]? ∧
    ∀ k < chunkSize w, i * chunkSize w + k < f.size → c.zChunk k = f.byte (i * chunkSize w + k)

namespace Chunks

variable {w junk} {p : MemJournal} {L : List ℕ} {f : Disk.File}

theorem deref (h : Chunks w p L f) {i : ℕ} (hi : i < L.length) :
    ∃ a c, L[i]? = some a ∧ p.deref L[i]? = some c ∧ c.pNext = L[i + 1]? ∧
      ∀ k < chunkSize w, i * chunkSize w + k < f.size →
        c.zChunk k = f.byte (i * chunkSize w + k) := by
  obtain ⟨c, hc, hnext, hbytes⟩ := h.holds i L[i] (List.getElem?_eq_getElem hi)
  refine ⟨L[i], c, List.getElem?_eq_getElem hi, ?_, hnext, hbytes⟩
  rw [List.getElem?_eq_getElem hi]
  exact hc

/-- An offset in the file is in one of the chunks. -/
theorem div_lt (h : Chunks w p L f) {iOfst : ℕ} (hlt : iOfst < f.size) :
    iOfst / chunkSize w < L.length :=
  (Nat.div_lt_iff_lt_mul (chunkSize_pos w)).mpr (hlt.trans_le h.room)

/-- **The search ends in the chunk of the offset.** -/
theorem seekLoop_eq (h : Chunks w p L f) {iOfst : ℕ} (hlt : iOfst < f.size) (fuel i : ℕ)
    (hi : i * chunkSize w ≤ iOfst) (hfuel : iOfst - i * chunkSize w < fuel) :
    seekLoop w p iOfst fuel (i * chunkSize w) L[i]? = some L[iOfst / chunkSize w]? := by
  have hpos := chunkSize_pos w
  induction fuel generalizing i with
  | zero => omega
  | succ fuel ih =>
    have hle : i ≤ iOfst / chunkSize w := (Nat.le_div_iff_mul_le hpos).mpr hi
    obtain ⟨a, c, ha, hc, hnext, -⟩ := h.deref (hle.trans_lt (h.div_lt hlt))
    have hsucc : (i + 1) * chunkSize w = i * chunkSize w + chunkSize w := Nat.add_one_mul i _
    rw [seekLoop]
    by_cases hmore : i * chunkSize w + chunkSize w ≤ iOfst
    · rw [if_pos ⟨by rw [ha]; exact Option.some_ne_none a, hmore⟩, hc, Option.bind_some, hnext,
        ← hsucc]
      exact ih (i + 1) (by omega) (by omega)
    · rw [if_neg fun hand => hmore hand.2]
      have hlast : iOfst / chunkSize w < i + 1 :=
        (Nat.div_lt_iff_lt_mul hpos).mpr (by omega)
      rw [show iOfst / chunkSize w = i by omega]

/-- **The copy.** It ends in the chunk of the offset behind what it has copied, if there is one. -/
theorem copyLoop_eq (h : Chunks w p L f) (fuel i off n : ℕ) (hoff : off < chunkSize w)
    (hn : 0 < n) (hin : i * chunkSize w + off + n ≤ f.size) (hfuel : n < fuel) :
    copyLoop w p fuel L[i]? off n = some (slice f.byte (i * chunkSize w + off) n,
      L[(i * chunkSize w + off + n) / chunkSize w]?) := by
  have hpos := chunkSize_pos w
  induction fuel generalizing i off n with
  | zero => omega
  | succ fuel ih =>
    have hi : i < L.length := by
      have := h.div_lt (show i * chunkSize w + off < f.size by omega)
      rwa [Nat.mul_comm, Nat.mul_add_div hpos, Nat.div_eq_of_lt hoff, Nat.add_zero] at this
    obtain ⟨a, c, ha, hc, hnext, hbytes⟩ := h.deref hi
    have hslice : ∀ m, off + m ≤ chunkSize w → m ≤ n →
        slice c.zChunk off m = slice f.byte (i * chunkSize w + off) m := by
      intro m hm hmn
      refine slice_eq_slice fun k hk => ?_
      rw [hbytes (off + k) (by omega) (by omega), Nat.add_assoc]
    rw [copyLoop, hc, Option.bind_some]
    dsimp only
    obtain ⟨space, hspace⟩ := Nat.exists_eq_add_of_lt hoff
    by_cases hless : (n : ℤ) - (chunkSize w - off) < 0
    · -- the read ends inside of the chunk
      rw [if_neg (by omega), show (min (n : ℤ) (chunkSize w - off)).toNat = n by omega,
        hslice n (by omega) (Nat.le_refl n), Nat.mul_comm, Nat.add_assoc, Nat.mul_add_div hpos,
        Nat.div_eq_of_lt (by omega), Nat.add_zero]
    have hcopied : (min (n : ℤ) (chunkSize w - off)).toNat = space + 1 := by omega
    have hend : i * chunkSize w + off + (space + 1) = (i + 1) * chunkSize w := by
      rw [Nat.add_one_mul]
      omega
    rw [if_pos (by omega), hcopied, hslice _ (by omega) (by omega), hnext]
    obtain ⟨rest, rfl⟩ := Nat.exists_eq_add_of_le (show space + 1 ≤ n by omega)
    by_cases hrest : rest = 0
    · -- it ends with the chunk
      rw [if_neg fun hand => absurd hand.2 (by omega), hrest, Nat.add_zero, hend,
        Nat.mul_div_cancel _ hpos]
    · have hnot : L[i + 1]? ≠ none := by
        have := h.div_lt (show (i + 1) * chunkSize w < f.size by omega)
        rw [Nat.mul_div_cancel _ hpos] at this
        rw [List.getElem?_eq_getElem this]
        exact Option.some_ne_none _
      have htail := ih (i + 1) 0 rest hpos (by omega) (by omega) (by omega)
      simp only [Nat.add_zero] at htail
      rw [if_pos ⟨hnot, by omega⟩,
        show ((space + 1 + rest : ℕ) : ℤ) - (chunkSize w - off) = (rest : ℕ) by omega, htail,
        Option.map_some, slice_append _ _ (space + 1) rest, ← Nat.add_assoc _ (space + 1) rest,
        hend]

/-! ### One pass of the write loop -/

variable (junk) in
/-- A full list of chunks takes one more. -/
theorem extend_spec (h : Chunks w p L f) (hfull : L.length * chunkSize w = f.size) :
    ∃ p', extend junk p = some p' ∧ Chunks w p' (L ++ [p.brk]) f ∧
      p'.readpoint = p.readpoint := by
  have hnew : p.brk ∉ L := fun hm => Nat.lt_irrefl _ (h.fresh _ hm)
  have hnodup : (L ++ [p.brk]).Nodup :=
    List.nodup_append.mpr ⟨h.nodup, List.pairwise_singleton _ _, fun a ha b hb hab => by
      rw [List.mem_singleton.mp hb] at hab
      exact hnew (hab ▸ ha)⟩
  have hfresh : ∀ a ∈ L ++ [p.brk], a < p.brk + 1 := by
    intro a ha
    rcases List.mem_append.mp ha with ha | ha
    · exact (h.fresh a ha).trans (Nat.lt_succ_self _)
    · rw [List.mem_singleton.mp ha]
      exact Nat.lt_succ_self _
  have hroom : f.size ≤ (L ++ [p.brk]).length * chunkSize w := by
    rw [List.length_append, List.length_singleton, Nat.add_one_mul]
    exact h.room.trans (Nat.le_add_right _ _)
  cases hL : L.getLast? with
  | none =>
    obtain rfl := List.getLast?_eq_none_iff.mp hL
    simp only [extend, h.last, hL]
    refine ⟨_, rfl, ⟨hnodup, hfresh, rfl, rfl, h.size, hroom, fun i a hi => ?_⟩, rfl⟩
    obtain ⟨rfl, rfl⟩ : i = 0 ∧ p.brk = a := by
      cases i with
      | zero => exact ⟨rfl, Option.some.inj hi⟩
      | succ i => exact absurd hi (by simp)
    refine ⟨_, Function.update_self _ _ _, rfl, fun k _ hk => ?_⟩
    rw [← hfull, List.length_nil, Nat.zero_mul] at hk
    omega
  | some e =>
    obtain ⟨M, rfl⟩ := List.getLast?_eq_some_iff.mp hL
    have hne : p.brk ≠ e := fun heq => hnew (heq ▸ by simp)
    obtain ⟨c, hc, -, hbytes⟩ := h.holds M.length e (by simp)
    have hfirst : p.pFirst = (M ++ [e] ++ [p.brk])[0]? := by
      rw [h.first]
      exact (List.getElem?_append_left (by simp)).symm
    simp only [extend, h.last, hL, hc, Option.map_some]
    refine ⟨_, rfl, ⟨hnodup, hfresh, hfirst, by simp, h.size, hroom, fun i a hi => ?_⟩, rfl⟩
    rcases Nat.lt_trichotomy i M.length with hlt | rfl | hgt
    · -- a chunk in front of the last one
      have hi' : (M ++ [e])[i]? = some a := by
        rwa [List.getElem?_append_left (by simp; omega)] at hi
      have hae : a ≠ e := by
        rintro rfl
        have := (List.getElem?_inj (by simp; omega) h.nodup).mp
          (hi'.trans (show some a = (M ++ [a])[M.length]? by simp))
        omega
      have haM : a ∈ M ++ [e] := List.mem_of_getElem? hi'
      obtain ⟨c', hc', hnext, hbytes'⟩ := h.holds i a hi'
      refine ⟨c', ?_, ?_, hbytes'⟩
      · exact (Function.update_of_ne hae _ _).trans
          ((Function.update_of_ne (fun heq : a = p.brk => hnew (heq ▸ haM)) _ _).trans hc')
      · rw [hnext]
        exact (List.getElem?_append_left (by simp; omega)).symm
    · -- the last one, which is linked to the new one
      obtain rfl : e = a := by simpa using hi
      exact ⟨_, Function.update_self _ _ _, by simp, hbytes⟩
    · -- the new one
      obtain ⟨rfl, rfl⟩ : i = M.length + 1 ∧ p.brk = a := by
        have hlt := (List.getElem?_eq_some_iff.mp hi).1
        simp only [List.length_append, List.length_singleton] at hlt
        obtain rfl : i = M.length + 1 := by omega
        exact ⟨rfl, by simpa using hi⟩
      refine ⟨⟨none, junk p.brk⟩, ?_, by simp, fun k _ hk => ?_⟩
      · exact (Function.update_of_ne hne _ _).trans (Function.update_self _ _ _)
      · rw [← hfull, List.length_append, List.length_singleton] at hk
        omega

/-- Bytes for which there is room in the last chunk. -/
theorem fillChunk_spec (h : Chunks w p L f) {z : List UInt8}
    (hlast : L.length = f.size / chunkSize w + 1)
    (hz : f.size % chunkSize w + z.length ≤ chunkSize w) :
    ∃ p', fillChunk p (f.size % chunkSize w) z = some p' ∧ Chunks w p' L (f.write f.size z) ∧
      p'.readpoint = p.readpoint := by
  have hpos := chunkSize_pos w
  have hdiv := Nat.div_add_mod' f.size (chunkSize w)
  obtain ⟨M, e, rfl⟩ : ∃ M e, L = M ++ [e] :=
    ⟨_, _, (List.dropLast_append_getLast (List.ne_nil_of_length_pos
      (Nat.lt_of_lt_of_eq (Nat.succ_pos _) hlast.symm))).symm⟩
  have hM : M.length = f.size / chunkSize w := by simpa using hlast
  have hend : p.endpoint.pChunk = some e := by simpa using h.last
  obtain ⟨c, hc, hnext, hbytes⟩ := h.holds M.length e (by simp)
  have hgrown : (f.write f.size z).size = f.size + z.length := by
    rw [Disk.File.write_size]
    omega
  simp only [fillChunk, hend, hc, Option.map_some]
  refine ⟨_, rfl, ⟨h.nodup, h.fresh, h.first, hend ▸ h.last, ?_, ?_,
    fun i a hi => ?_⟩, rfl⟩
  · rw [hgrown, ← h.size]
  · have hlt := Nat.mod_lt f.size hpos
    rw [hgrown, List.length_append, List.length_singleton, Nat.add_one_mul, hM]
    omega
  rw [hgrown, Disk.File.write_byte]
  by_cases hae : a = e
  · obtain rfl : i = M.length :=
      (List.getElem?_inj (List.getElem?_eq_some_iff.mp hi).1 h.nodup).mp
        (hi.trans (by rw [hae]; simp))
    subst hae
    refine ⟨_, Function.update_self _ _ _, hnext, fun k hk hin => ?_⟩
    rw [hM] at hbytes hin ⊢
    dsimp only
    by_cases hold : k < f.size % chunkSize w
    · rw [blit_outside (Or.inl hold), blit_outside (Or.inl (by omega))]
      exact hbytes k hk (by omega)
    · obtain ⟨j, rfl⟩ := Nat.exists_eq_add_of_le (Nat.le_of_not_lt hold)
      rw [blit_inside (by omega), ← Nat.add_assoc, hdiv, blit_inside (by omega)]
  · obtain ⟨c', hc', hnext', hbytes'⟩ := h.holds i a hi
    refine ⟨c', (Function.update_of_ne hae _ _).trans hc', hnext', fun k hk _ => ?_⟩
    have hiM : i < M.length := by
      have hlt := (List.getElem?_eq_some_iff.mp hi).1
      rw [List.length_append, List.length_singleton] at hlt
      refine Nat.lt_of_le_of_ne (by omega) ?_
      rintro rfl
      exact hae (by simpa using hi.symm)
    have hbelow : i * chunkSize w + chunkSize w ≤ f.size / chunkSize w * chunkSize w := by
      rw [← Nat.add_one_mul]
      exact Nat.mul_le_mul_right _ (by omega)
    rw [blit_outside (Or.inl (by omega))]
    exact hbytes' k hk (by omega)

end Chunks

/-! ### The methods -/

/-- The journal holds the bytes of `f`, in no more chunks than it needs, and the read cursor, if it
has a chunk, has the one of its offset. -/
structure Rep (p : MemJournal) (L : List ℕ) (f : Disk.File) : Prop extends Chunks w p L f where
  tight : L.length * chunkSize w < f.size + chunkSize w
  cursor : ∀ a, p.readpoint.pChunk = some a → L[p.readpoint.iOffset / chunkSize w]? = some a

/-- A read that goes on where the last one stopped, when that one has left no chunk. -/
def Stale (p : MemJournal) (iOfst : ℕ) : Prop :=
  p.readpoint.iOffset = iOfst ∧ iOfst ≠ 0 ∧ p.readpoint.pChunk = none

theorem rep_open (p : MemJournal) : Rep w (sqlite3MemJournalOpen p) [] Disk.File.empty where
  nodup := List.nodup_nil
  fresh := fun _ h => absurd h List.not_mem_nil
  first := rfl
  last := rfl
  size := rfl
  room := Nat.zero_le _
  holds := fun _ _ h => absurd h (by simp)
  tight := by simpa [Disk.File.empty] using chunkSize_pos w
  cursor := fun _ h => absurd h (Option.some_ne_none _).symm

variable {w junk} {p : MemJournal} {L : List ℕ} {f : Disk.File}

/-- A stale read follows a null pointer. -/
theorem memjrnlRead_of_stale {iOfst : ℕ} (iAmt : ℕ) (h : Stale p iOfst) :
    memjrnlRead w p iAmt iOfst = none := by
  obtain ⟨hoff, hne, hnone⟩ := h
  have hstart : startChunk w p iOfst = some none := by
    rw [startChunk, if_neg (by rw [hoff]; simp [hne]), hnone]
  have hcopy : copyLoop w p (iAmt + 1) none (iOfst % chunkSize w) iAmt = none := rfl
  simp [memjrnlRead, hstart, hcopy]

namespace Rep

theorem startChunk_eq (h : Rep w p L f) {iOfst : ℕ} (hlt : iOfst < f.size) (hok : ¬ Stale p iOfst) :
    startChunk w p iOfst = some L[iOfst / chunkSize w]? := by
  rw [startChunk]
  split
  · have := h.seekLoop_eq hlt (iOfst + 1) 0 (by omega) (by omega)
    rwa [Nat.zero_mul, ← h.first] at this
  · rename_i hcached
    rw [not_or, not_not] at hcached
    cases hchunk : p.readpoint.pChunk with
    | none => exact absurd ⟨hcached.1, hcached.2, hchunk⟩ hok
    | some a => rw [← h.cursor a hchunk, hcached.1]

/-- **A read that is not stale reads the bytes of the file**, and moves the cursor behind them. -/
theorem memjrnlRead_spec (h : Rep w p L f) {iAmt iOfst : ℕ} (hpos : 0 < iAmt)
    (hin : iOfst + iAmt ≤ f.size) (hok : ¬ Stale p iOfst) :
    memjrnlRead w p iAmt iOfst = some (slice f.byte iOfst iAmt,
      { p with readpoint := ⟨iOfst + iAmt, L[(iOfst + iAmt) / chunkSize w]?⟩ }) := by
  have hmod := Nat.div_add_mod' iOfst (chunkSize w)
  have hcopy := h.copyLoop_eq (iAmt + 1) (iOfst / chunkSize w) (iOfst % chunkSize w) iAmt
    (Nat.mod_lt _ (chunkSize_pos w)) hpos (by rw [hmod]; exact hin) (Nat.lt_succ_self _)
  rw [hmod] at hcopy
  simp only [memjrnlRead, h.startChunk_eq (by omega) hok, hcopy, Option.bind_eq_bind,
    Option.bind_some, Option.pure_def]

/-- **Where a read loses the cursor.** The cursor has no chunk after a read exactly when the read
ended at the end of the journal and the chunks of the journal are full. -/
theorem readpoint_isNone_iff (h : Rep w p L f) {iEnd : ℕ} (hin : iEnd ≤ f.size) :
    L[iEnd / chunkSize w]? = none ↔ iEnd = f.size ∧ chunkSize w ∣ f.size := by
  have hroom := h.room
  have htight := h.tight
  rw [List.getElem?_eq_none_iff, Nat.le_div_iff_mul_le (chunkSize_pos w)]
  constructor
  · intro hle
    exact ⟨by omega, ⟨L.length, by rw [Nat.mul_comm]; omega⟩⟩
  · rintro ⟨rfl, q, hq⟩
    rw [hq, Nat.mul_comm, ← Nat.mul_add_one] at htight
    rw [hq, Nat.mul_comm L.length]
    exact Nat.mul_le_mul_left _ (Nat.lt_succ_iff.mp (Nat.lt_of_mul_lt_mul_left htight))

theorem keep_read (h : Rep w p L f) (iEnd : ℕ) :
    Rep w { p with readpoint := ⟨iEnd, L[iEnd / chunkSize w]?⟩ } L f where
  nodup := h.nodup
  fresh := h.fresh
  first := h.first
  last := h.last
  size := h.size
  room := h.room
  holds := h.holds
  tight := h.tight
  cursor := fun _ ha => ha

variable (junk) in
/-- **A write appends to the file**, and leaves the read cursor where it is. -/
theorem writeLoop_spec (fuel : ℕ) (h : Rep w p L f) {z : List UInt8} (hfuel : z.length < fuel) :
    ∃ p' L', writeLoop w junk fuel p z = some p' ∧ Rep w p' L' (f.write f.size z) ∧
      p'.readpoint = p.readpoint := by
  have hpos := chunkSize_pos w
  induction fuel generalizing p L f z with
  | zero => omega
  | succ fuel ih =>
    rw [writeLoop]
    by_cases hz : z = []
    · rw [if_pos hz, hz, Disk.File.write_nil (Nat.le_refl _)]
      exact ⟨p, L, rfl, h, rfl⟩
    have hzpos := List.length_pos_iff.mpr hz
    have hlt := Nat.mod_lt f.size hpos
    have hdiv := Nat.div_add_mod' f.size (chunkSize w)
    have hroom := h.room
    have htight := h.tight
    -- after the new chunk, if one is needed, there is one for the end of the file
    obtain ⟨p₁, M, hext, h₁, hlen, hread₁⟩ : ∃ p₁ M,
        (if f.size % chunkSize w = 0 then extend junk p else some p) = some p₁ ∧
          Chunks w p₁ (L ++ M) f ∧ (L ++ M).length = f.size / chunkSize w + 1 ∧
          p₁.readpoint = p.readpoint := by
      by_cases hfull : f.size % chunkSize w = 0
      · rw [hfull, Nat.add_zero] at hdiv
        have hL : L.length = f.size / chunkSize w := by
          refine Nat.le_antisymm (Nat.lt_succ_iff.mp ?_) ?_
          · refine Nat.lt_of_mul_lt_mul_right (a := chunkSize w) ?_
            rw [Nat.succ_mul]
            omega
          · exact Nat.le_of_mul_le_mul_right (by omega) hpos
        obtain ⟨p₁, hext, h₁, hread₁⟩ := h.extend_spec junk (by rw [hL, hdiv])
        exact ⟨p₁, [p.brk], by rw [if_pos hfull, hext], h₁, by simp [hL], hread₁⟩
      · refine ⟨p, [], by rw [if_neg hfull], by rw [List.append_nil]; exact h.toChunks, ?_, rfl⟩
        rw [List.append_nil]
        refine Nat.le_antisymm ?_ ?_
        · refine Nat.lt_succ_iff.mp (Nat.lt_of_mul_lt_mul_right (a := chunkSize w) ?_)
          rw [Nat.succ_mul, Nat.add_one_mul]
          omega
        · exact Nat.succ_le_of_lt (Nat.lt_of_mul_lt_mul_right (a := chunkSize w) (by omega))
    generalize hspace : min z.length (chunkSize w - f.size % chunkSize w) = iSpace
    have htake : (z.take iSpace).length = iSpace := by
      rw [List.length_take]
      omega
    obtain ⟨p₂, hfill, h₂, hread₂⟩ := h₁.fillChunk_spec (z := z.take iSpace) hlen (by omega)
    have hgrown : (f.write f.size (z.take iSpace)).size = f.size + iSpace := by
      rw [Disk.File.write_size, htake]
      omega
    have hrep : Rep w p₂ (L ++ M) (f.write f.size (z.take iSpace)) := by
      refine { h₂ with tight := ?_, cursor := ?_ }
      · rw [hgrown, hlen, Nat.add_one_mul]
        omega
      · intro a ha
        rw [hread₂, hread₁] at ha ⊢
        have := h.cursor a ha
        rw [List.getElem?_append_left (List.getElem?_eq_some_iff.mp this).1, this]
    obtain ⟨p', L', hloop, hrep', hread⟩ := ih hrep (z := z.drop iSpace) (by
      rw [List.length_drop]
      omega)
    refine ⟨p', L', ?_, ?_, hread.trans (hread₂.trans hread₁)⟩
    · rw [if_neg hz]
      dsimp only
      rw [h.size, hspace, hext, Option.bind_some, hfill, Option.bind_some, hloop]
    · have hwrite := f.write_append f.size (z.take iSpace) (z.drop iSpace)
      rw [htake, List.take_append_drop] at hwrite
      rw [hgrown, hwrite] at hrep'
      exact hrep'

variable (junk) in
theorem memjrnlWrite_spec (h : Rep w p L f) (zBuf : List UInt8) (iOfst : ℕ) :
    ∃ p' L', memjrnlWrite w junk p zBuf iOfst = some p' ∧ Rep w p' L' (f.write f.size zBuf) ∧
      p'.readpoint = p.readpoint :=
  h.writeLoop_spec junk _ (Nat.lt_succ_self _)

end Rep

/-- The loop frees every chunk once. -/
theorem Chunks.freeLoop_isSome (h : Chunks w p L f) (fuel i : ℕ) (heap : ℕ → Option FileChunk)
    (hfuel : L.length ≤ i + fuel) (hheap : ∀ j a, i ≤ j → L[j]? = some a → heap a = p.heap a) :
    ∃ heap', freeLoop fuel heap L[i]? = some heap' := by
  induction fuel generalizing i heap with
  | zero =>
    rw [List.getElem?_eq_none (by omega), freeLoop]
    exact ⟨heap, rfl⟩
  | succ fuel ih =>
    cases hi : L[i]? with
    | none =>
      rw [freeLoop]
      exact ⟨heap, rfl⟩
    | some a =>
      obtain ⟨c, hc, hnext, -⟩ := h.holds i a hi
      rw [freeLoop, hheap i a (Nat.le_refl i) hi, hc, Option.bind_some, hnext]
      refine ih (i + 1) _ (by omega) fun j b hj hb => ?_
      have hne : b ≠ a := by
        rintro rfl
        have := (List.getElem?_inj (List.getElem?_eq_some_iff.mp hb).1 h.nodup).mp
          (hb.trans hi.symm)
        omega
      rw [Function.update_of_ne hne]
      exact hheap j b (by omega) hb

/-- **Truncation empties the file.** -/
theorem memjrnlTruncate_spec (h : Chunks w p L f) :
    ∃ p', memjrnlTruncate p = some p' ∧ Rep w p' [] Disk.File.empty := by
  have hlen : L.length ≤ p.brk := by
    have hsub : L ⊆ List.range p.brk := fun a ha => List.mem_range.mpr (h.fresh a ha)
    have hle := (List.subperm_of_subset h.nodup hsub).length_le
    rwa [List.length_range] at hle
  obtain ⟨heap, hfree⟩ := h.freeLoop_isSome p.brk 0 p.heap (by omega) fun _ _ _ _ => rfl
  refine ⟨sqlite3MemJournalOpen { p with heap }, ?_, rep_open w _⟩
  rw [memjrnlTruncate, h.first, hfree, Option.map_some]

/-! ### Runs -/

/-- A call of one of the methods. -/
inductive Call
  | write (zBuf : List UInt8) (iOfst : ℕ)
  | read (iAmt iOfst : ℕ)
  | truncate

/-- The answer of a call is the bytes it has read; `none` is an access that is not allowed. -/
abbrev Answer := Option (List UInt8)

variable (w junk) in
/-- A call on the journal. -/
def step (p : MemJournal) : Call → Answer × MemJournal
  | .write zBuf iOfst =>
    match memjrnlWrite w junk p zBuf iOfst with
    | some p' => (some [], p')
    | none => (none, p)
  | .read iAmt iOfst =>
    match memjrnlRead w p iAmt iOfst with
    | some (zBuf, p') => (some zBuf, p')
    | none => (none, p)
  | .truncate =>
    match memjrnlTruncate p with
    | some p' => (some [], p')
    | none => (none, p)

/-- The call on a file. -/
def fileStep (f : Disk.File) : Call → Answer × Disk.File
  | .write zBuf iOfst => (some [], f.write iOfst zBuf)
  | .read iAmt iOfst => (some (slice f.byte iOfst iAmt), f)
  | .truncate => (some [], Disk.File.empty)

/-- Writes are at the end, and reads inside of the file. -/
def Legal (f : Disk.File) : Call → Prop
  | .write _ iOfst => iOfst = f.size
  | .read iAmt iOfst => 0 < iAmt ∧ iOfst + iAmt ≤ f.size
  | .truncate => True

/-- A call that is no stale read. -/
def Fresh (p : MemJournal) : Call → Prop
  | .read _ iOfst => ¬ Stale p iOfst
  | _ => True

theorem step_answer_iff (a : Call) (h : ∃ L, Rep w p L f) (hlegal : Legal f a) :
    (step w junk p a).1 = (fileStep f a).1 ↔ Fresh p a := by
  obtain ⟨L, h⟩ := h
  cases a with
  | write zBuf iOfst =>
    obtain ⟨p', L', hwrite, -⟩ := h.memjrnlWrite_spec junk zBuf iOfst
    simp [step, fileStep, Fresh, hwrite]
  | read iAmt iOfst =>
    by_cases hstale : Stale p iOfst
    · simp [step, fileStep, Fresh, hstale, memjrnlRead_of_stale]
    · simp [step, fileStep, Fresh, hstale, h.memjrnlRead_spec hlegal.1 hlegal.2 hstale]
  | truncate =>
    obtain ⟨p', htruncate, -⟩ := memjrnlTruncate_spec h.toChunks
    simp [step, fileStep, Fresh, htruncate]

theorem step_keeps (a : Call) (h : ∃ L, Rep w p L f) (hlegal : Legal f a) (hfresh : Fresh p a) :
    ∃ L, Rep w (step w junk p a).2 L (fileStep f a).2 := by
  obtain ⟨L, h⟩ := h
  cases a with
  | write zBuf iOfst =>
    obtain ⟨p', L', hwrite, hrep, -⟩ := h.memjrnlWrite_spec junk zBuf iOfst
    obtain rfl : iOfst = f.size := hlegal
    exact ⟨L', by simpa [step, fileStep, hwrite] using hrep⟩
  | read iAmt iOfst =>
    refine ⟨L, ?_⟩
    simpa [step, fileStep, h.memjrnlRead_spec hlegal.1 hlegal.2 hfresh] using h.keep_read _
  | truncate =>
    obtain ⟨p', htruncate, hrep⟩ := memjrnlTruncate_spec h.toChunks
    exact ⟨[], by simpa [step, fileStep, htruncate] using hrep⟩

theorem exec_answers_iff {as : List Call} (h : ∃ L, Rep w p L f)
    (hrun : Run.EveryStep (fun f a => (fileStep f a).2) Legal f as) :
    (Run.exec (step w junk) p as).1 = (Run.exec fileStep f as).1 ↔
      Run.EveryStep (fun p a => (step w junk p a).2) Fresh p as :=
  Run.exec_eq_iff (R := fun p f => ∃ L, Rep w p L f) (fun _ _ a h hl => step_answer_iff a h hl)
    (fun _ _ a h hl hf => step_keeps a h hl hf) h hrun

/-- **The journal in memory.** Along a run of writes at the end, reads inside of the file and
truncations, a journal answers what a file answers exactly when no read is stale. -/
theorem exec_eq_file_iff (w : Pointers) (junk : ℕ → ℕ → UInt8) (p : MemJournal) {as : List Call}
    (hrun : Run.EveryStep (fun f a => (fileStep f a).2) Legal Disk.File.empty as) :
    (Run.exec (step w junk) (sqlite3MemJournalOpen p) as).1
        = (Run.exec fileStep Disk.File.empty as).1 ↔
      Run.EveryStep (fun p a => (step w junk p a).2) Fresh (sqlite3MemJournalOpen p) as :=
  exec_answers_iff ⟨[], rep_open w p⟩ hrun

/-- Nothing has been handed out. -/
def emptyHeap : MemJournal := ⟨fun _ => none, 0, none, ⟨0, none⟩, ⟨0, none⟩⟩

/-- A short journal, read in two parts. -/
theorem exec_eq_file_short :
    (Run.exec (step .eight fun _ _ => 0) (sqlite3MemJournalOpen emptyHeap)
          [.write [1, 2, 3] 0, .read 2 0, .write [4] 3, .read 2 2]).1
        = (Run.exec fileStep Disk.File.empty
          [.write [1, 2, 3] 0, .read 2 0, .write [4] 3, .read 2 2]).1 ↔
      Run.EveryStep (fun p a => (step .eight (fun _ _ => 0) p a).2) Fresh
        (sqlite3MemJournalOpen emptyHeap)
        [.write [1, 2, 3] 0, .read 2 0, .write [4] 3, .read 2 2] :=
  exec_eq_file_iff .eight _ emptyHeap
    ⟨rfl, ⟨by decide, by decide⟩, rfl, ⟨by decide, by decide⟩, trivial⟩

/-- A chunk is filled and read to its end. Then more is written, and read from there on. -/
def boundaryRun (w : Pointers) : List Call :=
  [.write (List.replicate (chunkSize w) 0) 0, .read (chunkSize w) 0, .write [1] (chunkSize w),
    .read 1 (chunkSize w)]

theorem boundaryRun_legal (w : Pointers) :
    Run.EveryStep (fun f a => (fileStep f a).2) Legal Disk.File.empty (boundaryRun w) := by
  refine ⟨rfl, ⟨chunkSize_pos w, ?_⟩, ?_, ⟨by decide, ?_⟩, trivial⟩ <;>
    simp [Legal, fileStep, Disk.File.empty]

theorem boundaryRun_not_fresh (w : Pointers) (junk : ℕ → ℕ → UInt8) (p : MemJournal) :
    ¬ Run.EveryStep (fun p a => (step w junk p a).2) Fresh (sqlite3MemJournalOpen p)
      (boundaryRun w) := by
  rintro ⟨-, hread, -, hlast, -⟩
  obtain ⟨p₁, L₁, hw₁, h₁, -⟩ := (rep_open w p).memjrnlWrite_spec junk
    (List.replicate (chunkSize w) 0) 0
  have hsize : (Disk.File.empty.write Disk.File.empty.size
      (List.replicate (chunkSize w) 0)).size = chunkSize w := by simp [Disk.File.empty]
  simp only [step, hw₁] at hread hlast
  rw [h₁.memjrnlRead_spec (chunkSize_pos w) (by omega) hread] at hlast
  have hnone : L₁[(0 + chunkSize w) / chunkSize w]? = none :=
    (h₁.readpoint_isNone_iff (by omega)).mpr ⟨by omega, by rw [hsize]⟩
  obtain ⟨p₃, L₃, hw₃, -, hread₃⟩ := (h₁.keep_read (0 + chunkSize w)).memjrnlWrite_spec
    junk [1] (chunkSize w)
  rw [hw₃] at hlast
  refine hlast ⟨?_, (chunkSize_pos w).ne', ?_⟩
  · rw [hread₃, Nat.zero_add]
  · rw [hread₃]
    exact hnone

/-- **A read that follows a null pointer.** -/
theorem not_exec_eq_file :
    ¬ ∀ (w : Pointers) (junk : ℕ → ℕ → UInt8) (p : MemJournal) (as : List Call),
      Run.EveryStep (fun f a => (fileStep f a).2) Legal Disk.File.empty as →
        (Run.exec (step w junk) (sqlite3MemJournalOpen p) as).1
          = (Run.exec fileStep Disk.File.empty as).1 := by
  intro h
  have heq := h .eight (fun _ _ => 0) emptyHeap _ (boundaryRun_legal .eight)
  exact boundaryRun_not_fresh .eight _ emptyHeap
    ((exec_answers_iff ⟨[], rep_open .eight emptyHeap⟩ (boundaryRun_legal .eight)).mp heq)

end MemoryJournal

end SqliteVms

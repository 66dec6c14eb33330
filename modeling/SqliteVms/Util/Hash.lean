import SqliteVms.Lib.Linked
import SqliteVms.Lib.Run

/-!
# The symbol hash table

`hash.c`. All elements are on one doubly linked list, and a bucket is a position in it and a count.
When the count comes to zero the position stays what it was, and may be that of an element of
another bucket or of one that was freed; nothing reads it then.

An address of an element is a natural number. Which free address `sqlite3Malloc` gives, whether it
gives one at all, and how much more than asked for it gives for the buckets, is up to the caller.

## Main definitions

* `Hash` — the table
* `sqlite3HashInsert`, `sqlite3HashFind`, `sqlite3HashClear` — its operations
* `Hash.Inv` — the invariant
* `Map`, `Map.step` — the finite map the table stands for

## Main results

* `insertElement_linked`, `rehash_linked` — the list and the buckets
* `hash_refines` — the table answers as the map does, after every sequence of operations
-/

namespace SqliteVms

namespace Hash

/-- `sqlite3UpperToLower`. -/
def upperToLower (c : UInt8) : UInt8 := if 65 ≤ c ∧ c ≤ 90 then c + 32 else c

def strHash (z : List UInt8) : UInt32 :=
  z.foldl (fun h c => (h <<< 3) ^^^ h ^^^ (upperToLower c).toUInt32) 0

/-- `sqlite3_strnicmp`. A string ends with a zero byte. -/
def strnicmp (zLeft zRight : List UInt8) : ℕ → ℤ
  | 0 => 0
  | N + 1 =>
    let a := zLeft.headD 0
    let b := zRight.headD 0
    if a ≠ 0 ∧ upperToLower a = upperToLower b then strnicmp zLeft.tail zRight.tail N
    else (upperToLower a).toNat - (upperToLower b).toNat

/-- `HashElem`, without its pointers. -/
structure HashElem (δ : Type) where
  data : δ
  pKey : List UInt8

/-- `_ht`: the elements are the one at `chain` and the next ones, `count` in all. -/
structure Bucket where
  count : ℕ
  chain : Option ℕ

/-- What the memory allocator answers: an address for an element, and for the buckets the room there
is for more of them. -/
structure Malloc where
  elem : Option ℕ
  ht : Option ℕ

/-- Keys. -/
abbrev Key := { z : List UInt8 // 0 ∉ z }

end Hash

open Hash in
/-- `Hash`, and the elements in memory: `links` are their pointers and `elem` the rest of them. -/
structure Hash (δ : Type) where
  htsize : ℕ
  count : ℕ
  first : Option ℕ
  ht : Option (ℕ → Bucket)
  links : Links ℕ
  elem : ℕ → Option (HashElem δ)

namespace Hash

variable {δ : Type}

def sqlite3HashInit : Hash δ := ⟨0, 0, none, none, ⟨fun _ => none, fun _ => none⟩, fun _ => none⟩

variable (s : Hash δ)

/-- The elements met from `first` on, with `sqliteHashFirst` and `sqliteHashNext`. -/
def walk : List ℕ := s.links.follow s.count s.first

def sqlite3HashClear : Hash δ :=
  { s with
    htsize := 0, count := 0, first := none, ht := none
    elem := fun a => if a ∈ s.walk then none else s.elem a }

/-- The bucket of a key. -/
def bucket (pKey : List UInt8) : ℕ := (strHash pKey).toNat % s.htsize

/-- The bucket of an element. -/
def bucketOf (a : ℕ) : ℕ := (s.elem a).elim 0 fun e => s.bucket e.pKey

/-- `pHead` of `insertElement`. -/
def pHead (pEntry : Option ℕ) : Option ℕ :=
  match pEntry, s.ht with
  | some h, some ht => if (ht h).count ≠ 0 then (ht h).chain else none
  | _, _ => none

/-- A bucket has one more element, which is its first. -/
def countBucket (pEntry : Option ℕ) (pNew : ℕ) : Option (ℕ → Bucket) :=
  match pEntry with
  | some h => s.ht.map fun ht => Function.update ht h ⟨(ht h).count + 1, some pNew⟩
  | none => s.ht

def insertElement (pEntry : Option ℕ) (pNew : ℕ) : Hash δ :=
  match s.pHead pEntry with
  | some b =>
    { s with
      ht := s.countBucket pEntry pNew
      links := s.links.insert pNew (s.links.prev b) (some b)
      first := if (s.links.prev b).isSome then s.first else some pNew }
  | none =>
    { s with
      ht := s.countBucket pEntry pNew
      links := s.links.insert pNew none s.first
      first := some pNew }

/-- The loop of `rehash`, over `n` elements at most. -/
def rehashLoop : ℕ → Option ℕ → Hash δ → Hash δ
  | 0, _, s => s
  | _ + 1, none, s => s
  | n + 1, some a, s => rehashLoop n (s.links.next a) (s.insertElement (some (s.bucketOf a)) a)

/-- The number of buckets that fit the `SQLITE_MALLOC_SOFT_LIMIT`. -/
def softLimit (newSize : ℕ) : ℕ := if 1024 < newSize * 16 then 1024 / 16 else newSize

/-- `rehash`, `none` if the table keeps its size. -/
def rehash (newSize : ℕ) (malloc : Option ℕ) : Option (Hash δ) :=
  let newSize := softLimit newSize
  if newSize = s.htsize then none
  else
    match malloc with
    | none => none
    | some more =>
      some (rehashLoop s.count s.first
        { s with ht := some fun _ => ⟨0, none⟩, htsize := newSize + more, first := none })

/-- The element at `a` has the key. -/
def hasKey (pKey : List UInt8) (a : ℕ) : Bool :=
  (s.elem a).any fun e => e.pKey.length == pKey.length && strnicmp e.pKey pKey pKey.length == 0

/-- The loop of `findElementGivenHash`. -/
def findLoop (pKey : List UInt8) : ℕ → Option ℕ → Option ℕ
  | 0, _ => none
  | _ + 1, none => none
  | n + 1, some a => if s.hasKey pKey a then some a else findLoop pKey n (s.links.next a)

def findElementGivenHash (pKey : List UInt8) (h : ℕ) : Option ℕ :=
  match s.ht with
  | some ht => s.findLoop pKey (ht h).count (ht h).chain
  | none => s.findLoop pKey s.count s.first

/-- The bucket that loses `a`. -/
def uncountBucket (a h : ℕ) : Option (ℕ → Bucket) :=
  s.ht.map fun ht => Function.update ht h
    ⟨(ht h).count - 1, if (ht h).chain = some a then s.links.next a else (ht h).chain⟩

def removeElementGivenHash (a h : ℕ) : Hash δ :=
  let s' :=
    { s with
      links := s.links.unlink a
      first := if (s.links.prev a).isSome then s.first else s.links.next a
      ht := s.uncountBucket a h
      elem := Function.update s.elem a none
      count := s.count - 1 }
  if s'.count = 0 then s'.sqlite3HashClear else s'

def sqlite3HashFind (pKey : List UInt8) : Option δ :=
  ((s.findElementGivenHash pKey (if s.ht.isSome then s.bucket pKey else 0)).bind s.elem).map
    HashElem.data

/-- The address of a new element. One that is in use is not given out again. -/
def newElem (malloc : Option ℕ) : Option ℕ :=
  malloc.map fun a => if a ∈ s.walk then s.walk.foldr max 0 + 1 else a

/-- The part of `sqlite3HashInsert` that makes the table larger. -/
def grow (malloc : Option ℕ) : Hash δ :=
  let s' := { s with count := s.count + 1 }
  if 10 ≤ s'.count ∧ 2 * s'.htsize < s'.count then (s'.rehash (s'.count * 2) malloc).getD s' else s'

/-- The part of `sqlite3HashInsert` for a key that is not in the table. -/
def insertNew (pKey : List UInt8) (data : δ) (malloc : Malloc) : Option δ × Hash δ :=
  match s.newElem malloc.elem with
  | none => (some data, s)
  | some a =>
    let s := grow { s with elem := Function.update s.elem a (some ⟨data, pKey⟩) } malloc.ht
    (none, s.insertElement (s.ht.map fun _ => s.bucket pKey) a)

def sqlite3HashInsert (pKey : List UInt8) (data : Option δ) (malloc : Malloc) : Option δ × Hash δ :=
  let h := if s.htsize ≠ 0 then s.bucket pKey else 0
  match s.findElementGivenHash pKey h with
  | some a =>
    let oldData := (s.elem a).map HashElem.data
    match data with
    | none => (oldData, s.removeElementGivenHash a h)
    | some d => (oldData, { s with elem := Function.update s.elem a (some ⟨d, pKey⟩) })
  | none =>
    match data with
    | none => (none, s)
    | some d => s.insertNew pKey d malloc

/-! ### Runs -/

/-- A call of one of the operations. -/
inductive Call (δ : Type)
  | insert (key : Key) (data : Option δ) (malloc : Malloc)
  | find (key : Key)
  | clear

/-- What a call answers, and the table after it. -/
def step : Call δ → Option δ × Hash δ
  | .insert key data malloc => s.sqlite3HashInsert key.val data malloc
  | .find key => (s.sqlite3HashFind key.val, s)
  | .clear => (none, s.sqlite3HashClear)

/-- A finite map on keys without regard to case. -/
abbrev Map (δ : Type) := List UInt8 → Option δ

/-- A key without regard to case. -/
def fold (pKey : List UInt8) : List UInt8 := pKey.map upperToLower

/-- The calls on a map. An insert can fail only when it needs a new element. -/
def Map.step (m : Map δ) : Call δ → Option δ × Map δ
  | .insert key data malloc =>
    match m (fold key.val), data with
    | none, some d =>
      if malloc.elem.isSome then (none, Function.update m (fold key.val) (some d)) else (some d, m)
    | old, data => (old, Function.update m (fold key.val) data)
  | .find key => (m (fold key.val), m)
  | .clear => (none, fun _ => none)

namespace Map

variable {m : Map δ} {key : Key} {malloc : Malloc}

theorem step_of_some {d : δ} (h : m (fold key.val) = some d) (data : Option δ) :
    m.step (.insert key data malloc) = (some d, Function.update m (fold key.val) data) := by
  simp only [Map.step, h]

theorem step_remove_of_none (h : m (fold key.val) = none) :
    m.step (.insert key none malloc) = (none, m) := by
  simp only [Map.step, h]
  exact congrArg (Prod.mk none) (Function.update_eq_self_iff.mpr h.symm)

theorem step_insert_of_none (h : m (fold key.val) = none) (d : δ) :
    m.step (.insert key (some d) malloc)
      = if malloc.elem.isSome then (none, Function.update m (fold key.val) (some d))
        else (some d, m) := by
  simp only [Map.step, h]

end Map

/-! ### The list and the buckets -/

/-- The elements of `L` are on the list, those with one value of `f` next to each other, and where the
buckets say. -/
structure Linked (f : ℕ → ℕ) (L : List ℕ) (s : Hash δ) : Prop where
  list : s.links.IsList s.first L
  blocks : s.ht.isSome → L.Blocks f
  bucket : ∀ ht, s.ht = some ht → ∀ h, (ht h).count = (L.group f h).length ∧
    (L.group f h ≠ [] → (ht h).chain = (L.group f h).head?)

variable {s} {f : ℕ → ℕ} {L : List ℕ} {x : ℕ}

/-- What `insertElement` leaves alone. -/
structure SameElems (s s' : Hash δ) : Prop where
  elem : s'.elem = s.elem
  count : s'.count = s.count
  htsize : s'.htsize = s.htsize
  ht : s'.ht.isSome = s.ht.isSome

theorem SameElems.refl (s : Hash δ) : SameElems s s := ⟨rfl, rfl, rfl, rfl⟩

theorem SameElems.trans {s' s'' : Hash δ} (h : SameElems s s') (h' : SameElems s' s'') :
    SameElems s s'' :=
  ⟨h'.elem.trans h.elem, h'.count.trans h.count, h'.htsize.trans h.htsize, h'.ht.trans h.ht⟩

theorem SameElems.bucketOf {s' : Hash δ} (h : SameElems s s') : s'.bucketOf = s.bucketOf := by
  funext a
  simp only [Hash.bucketOf, h.elem, Hash.bucket, h.htsize]

theorem countBucket_isSome (s : Hash δ) (pEntry : Option ℕ) (a : ℕ) :
    (s.countBucket pEntry a).isSome = s.ht.isSome := by
  cases pEntry with
  | none => rfl
  | some h => exact Option.isSome_map

theorem insertElement_same (s : Hash δ) (pEntry : Option ℕ) (a : ℕ) :
    SameElems s (s.insertElement pEntry a) := by
  rw [insertElement]
  split
  · exact ⟨rfl, rfl, rfl, countBucket_isSome s pEntry a⟩
  · exact ⟨rfl, rfl, rfl, countBucket_isSome s pEntry a⟩

/-- The buckets after an insertion before the first of the block, or at the front of the list when
there is no block. -/
theorem countBucket_spec {ht : ℕ → Bucket} {L' : List ℕ} (hht : s.ht = some ht)
    (hbucket : ∀ h, (ht h).count = (L.group f h).length ∧
      (L.group f h ≠ [] → (ht h).chain = (L.group f h).head?))
    (hself : L'.group f (f x) = x :: L.group f (f x))
    (hother : ∀ h ≠ f x, L'.group f h = L.group f h) :
    ∀ ht', s.countBucket (some (f x)) x = some ht' → ∀ h, (ht' h).count = (L'.group f h).length ∧
      (L'.group f h ≠ [] → (ht' h).chain = (L'.group f h).head?) := by
  intro ht' heq h
  rw [countBucket, hht, Option.map_some, Option.some.injEq] at heq
  subst heq
  rcases eq_or_ne h (f x) with rfl | hne
  · rw [Function.update_self, hself, (hbucket _).1]
    exact ⟨rfl, fun _ => rfl⟩
  · rw [Function.update_of_ne hne, hother h hne]
    exact hbucket h

theorem pHead_eq {ht : ℕ → Bucket} (hht : s.ht = some ht) (y : ℕ) :
    s.pHead (s.ht.map fun _ => y) = if (ht y).count ≠ 0 then (ht y).chain else none := by
  unfold pHead
  rw [hht]
  rfl

/-- There is no first element of the bucket when the bucket is empty. -/
theorem pHead_none (h : Linked f L s) {y : ℕ} (hhead : s.pHead (s.ht.map fun _ => y) = none)
    (hht : s.ht.isSome) : L.group f y = [] := by
  obtain ⟨ht, hht⟩ := Option.isSome_iff_exists.mp hht
  obtain ⟨hcount, hchain⟩ := h.bucket ht hht y
  by_contra hne
  rw [pHead_eq hht, if_pos (by rw [hcount]; exact fun h0 => hne (List.eq_nil_of_length_eq_zero h0)), hchain hne,
    List.head?_eq_none_iff] at hhead
  exact hne hhead

theorem pHead_some (h : Linked f L s) {y b : ℕ} (hhead : s.pHead (s.ht.map fun _ => y) = some b) :
    s.ht.isSome ∧ (L.group f y).head? = some b := by
  rcases hht : s.ht with _ | ht
  · unfold pHead at hhead
    rw [hht] at hhead
    exact absurd hhead (Option.some_ne_none b).symm
  · obtain ⟨hcount, hchain⟩ := h.bucket ht hht y
    rw [pHead_eq hht] at hhead
    split at hhead
    · rename_i hne
      rw [← hchain fun hnil => hne (by rw [hcount, hnil, List.length_nil])]
      exact ⟨rfl, hhead⟩
    · exact absurd hhead (Option.some_ne_none b).symm

/-- **`insertElement`** puts a new element on the list, and in its bucket if there are buckets. -/
theorem insertElement_linked (h : Linked f L s) (hx : x ∉ L) :
    ∃ L', Linked f L' (s.insertElement (s.ht.map fun _ => f x) x) ∧ L'.Perm (x :: L) ∧
      ∀ y ∉ L, y ≠ x →
        (s.insertElement (s.ht.map fun _ => f x) x).links.next y = s.links.next y := by
  rw [insertElement]
  rcases hhead : s.pHead (s.ht.map fun _ => f x) with _ | b
  · -- no element of the bucket is there yet
    refine ⟨x :: L, ⟨⟨List.nodup_cons.mpr ⟨hx, h.list.nodup⟩, rfl, ?_⟩, ?_, ?_⟩, List.Perm.refl _,
      fun y hy hne => ?_⟩
    · have hseg := Links.Seg.insert (A := []) h.list.seg h.list.nodup hx
      rw [List.getLast?_nil, ← h.list.first] at hseg
      exact hseg
    · intro hht
      rw [countBucket_isSome] at hht
      exact (h.blocks hht).cons (pHead_none h hhead hht)
    · rcases hht : s.ht with _ | ht
      · intro ht' heq
        rw [Option.map_none, countBucket, hht] at heq
        exact absurd heq (Option.some_ne_none ht').symm
      · exact countBucket_spec hht (h.bucket ht hht) (List.group_cons_self rfl)
          fun h' hne => List.group_cons_of_ne hne.symm
    · dsimp only
      rw [Links.insert_next, if_neg (fun heq => nomatch heq), if_neg hne]
  · -- `b` is the first of the bucket
    obtain ⟨hsome, hfirst⟩ := pHead_some h hhead
    obtain ⟨hmem, hfb⟩ := List.mem_group.mp (List.mem_of_mem_head? hfirst)
    obtain ⟨A, B, rfl⟩ := List.append_of_mem hmem
    obtain ⟨hprev, -⟩ := h.list.seg.pointers
    rw [Option.or_none] at hprev
    have hnodup : (A ++ x :: b :: B).Nodup :=
      List.perm_middle.nodup_iff.mpr (List.nodup_cons.mpr ⟨hx, h.list.nodup⟩)
    refine ⟨A ++ x :: b :: B, ⟨⟨hnodup, ?_, ?_⟩, ?_, ?_⟩, List.perm_middle, fun y hy hne => ?_⟩
    · have hlist := h.list.first
      dsimp only
      rw [hprev]
      cases A with
      | nil => rfl
      | cons a A =>
        rw [List.getLast?_cons, Option.isSome_some, if_pos rfl, hlist]
        rfl
    · have hseg := Links.Seg.insert (A := A) (B := b :: B) h.list.seg h.list.nodup hx
      rw [List.head?_cons, ← hprev] at hseg
      exact hseg
    · intro _
      exact (h.blocks hsome).insert hfb.symm (by rw [hfb]; exact hfirst) h.list.nodup
    · obtain ⟨ht, hht⟩ := Option.isSome_iff_exists.mp hsome
      rw [hht]
      refine countBucket_spec hht (h.bucket ht hht) ?_ fun h' hne => ?_
      · have hA : A.group f (f x) = [] := by
          cases hcase : A.group f (f x) with
          | nil => rfl
          | cons y Y =>
            rw [List.group_append, hcase] at hfirst
            obtain rfl : y = b := Option.some.inj hfirst
            have hy : y ∈ A := (List.mem_group.mp (hcase ▸ List.mem_cons_self)).1
            exact absurd rfl ((List.nodup_append.mp h.list.nodup).2.2 y hy y List.mem_cons_self)
        rw [List.group_append, List.group_append, hA, List.nil_append, List.nil_append,
          List.group_cons_self rfl]
      · rw [List.group_append, List.group_append, List.group_cons_of_ne hne.symm]
    · have hne' : A.getLast? ≠ some y := fun heq =>
        hy (List.mem_append_left _ (List.mem_of_getLast? heq))
      dsimp only
      rw [Links.insert_next, hprev, if_neg hne', if_neg hne]

/-! ### Rehashing -/

/-- The elements still to come are put into the buckets. -/
theorem rehashLoop_linked {R : List ℕ} {n : ℕ} (h : Linked s.bucketOf L s) (hht : s.ht.isSome)
    (hR : s.links.Fwd R) (hnodup : (R ++ L).Nodup) (hn : R.length ≤ n) :
    ∃ L', Linked s.bucketOf L' (rehashLoop n R.head? s) ∧ L'.Perm (R ++ L) ∧
      SameElems s (rehashLoop n R.head? s) := by
  induction R generalizing s L n with
  | nil =>
    refine ⟨L, ?_, List.Perm.refl _, ?_⟩
    · cases n <;> exact h
    · cases n <;> exact SameElems.refl s
  | cons x R ih =>
    rw [List.cons_append, List.nodup_cons, List.mem_append, not_or] at hnodup
    obtain ⟨hx, hnodup⟩ := hnodup
    obtain ⟨n, rfl⟩ := Nat.exists_eq_succ_of_ne_zero (by rw [List.length_cons] at hn; omega : n ≠ 0)
    obtain ⟨L₁, h₁, hperm, hnext⟩ := insertElement_linked h hx.2
    obtain ⟨ht, hht'⟩ := Option.isSome_iff_exists.mp hht
    have hentry : (s.ht.map fun _ => s.bucketOf x) = some (s.bucketOf x) := by rw [hht']; rfl
    rw [hentry] at h₁ hnext
    have hsame := insertElement_same s (some (s.bucketOf x)) x
    have hbucket := hsame.bucketOf
    have h₁' : Linked (s.insertElement (some (s.bucketOf x)) x).bucketOf L₁
        (s.insertElement (some (s.bucketOf x)) x) := by
      rw [hbucket]
      exact h₁
    have hperm' : (R ++ L₁).Perm (x :: (R ++ L)) :=
      (hperm.append_left R).trans List.perm_middle
    have hdisj := List.nodup_append.mp hnodup
    obtain ⟨L', hL', hpermL', hsame'⟩ := ih h₁' (hsame.ht.trans hht)
      (hR.2.congr fun y hy => hnext y (fun hL => hdisj.2.2 y hy y hL rfl)
        (ne_of_mem_of_not_mem hy hx.1))
      (hperm'.nodup_iff.mpr (List.nodup_cons.mpr ⟨by rw [List.mem_append, not_or]; exact hx, hnodup⟩))
      (show R.length ≤ n by rw [List.length_cons] at hn; omega)
    rw [hbucket] at hL'
    have hrec : rehashLoop (n + 1) (x :: R).head? s
        = rehashLoop n R.head? (s.insertElement (some (s.bucketOf x)) x) := by
      rw [← hR.1]
      rfl
    rw [hrec]
    exact ⟨L', hL', hpermL'.trans hperm', hsame.trans hsame'⟩

/-! ### The invariant -/

/-- The table with the elements `L`. -/
structure Inv (L : List ℕ) (s : Hash δ) : Prop where
  linked : Linked s.bucketOf L s
  count : s.count = L.length
  live : ∀ a, a ∈ L ↔ (s.elem a).isSome
  noNul : ∀ a e, s.elem a = some e → 0 ∉ e.pKey
  keys : ∀ a b e e', s.elem a = some e → s.elem b = some e' → fold e.pKey = fold e'.pKey → a = b
  htsize : s.ht.isSome ↔ s.htsize ≠ 0

theorem Inv.walk (h : Inv L s) : s.walk = L := h.linked.list.follow h.count.ge

/-! ### Finding -/

theorem upperToLower_ne_zero {c : UInt8} (h : c ≠ 0) : upperToLower c ≠ 0 := by
  rw [upperToLower]
  split
  · rename_i hupper
    rw [UInt8.le_iff_toNat_le, UInt8.le_iff_toNat_le] at hupper
    intro hzero
    rw [← UInt8.toNat_inj, UInt8.toNat_add] at hzero
    have h65 : (65 : UInt8).toNat = 65 := rfl
    have h90 : (90 : UInt8).toNat = 90 := rfl
    have h32 : (32 : UInt8).toNat = 32 := rfl
    have h0 : (0 : UInt8).toNat = 0 := rfl
    omega
  · exact h

theorem strnicmp_eq_zero {a b : List UInt8} (ha : 0 ∉ a) (hlen : a.length = b.length) :
    strnicmp a b b.length = 0 ↔ fold a = fold b := by
  induction b generalizing a with
  | nil =>
    obtain rfl := List.eq_nil_of_length_eq_zero hlen
    exact ⟨fun _ => rfl, fun _ => rfl⟩
  | cons y b ih =>
    obtain ⟨x, a, rfl⟩ : ∃ x a', a = x :: a' := by
      cases a with
      | nil => exact absurd hlen (by simp)
      | cons x a => exact ⟨x, a, rfl⟩
    rw [List.mem_cons, not_or] at ha
    rw [List.length_cons, strnicmp, List.headD_cons, List.headD_cons, List.tail_cons, List.tail_cons,
      fold, fold, List.map_cons, List.map_cons, List.cons.injEq]
    by_cases heq : upperToLower x = upperToLower y
    · rw [if_pos ⟨Ne.symm ha.1, heq⟩, ih ha.2 (by simpa using hlen)]
      exact ⟨fun h => ⟨heq, h⟩, fun h => h.2⟩
    · rw [if_neg fun h => heq h.2]
      have hne : (upperToLower x).toNat ≠ (upperToLower y).toNat := fun h => heq (UInt8.toNat.inj h)
      exact ⟨fun h => by omega, fun h => absurd h.1 heq⟩

theorem length_fold (z : List UInt8) : (fold z).length = z.length := List.length_map _

theorem hasKey_iff {a : ℕ} {e : HashElem δ} (ha : s.elem a = some e) (he : 0 ∉ e.pKey)
    (pKey : List UInt8) : s.hasKey pKey a = true ↔ fold e.pKey = fold pKey := by
  rw [hasKey, ha, Option.any_some, Bool.and_eq_true, beq_iff_eq, beq_iff_eq]
  constructor
  · rintro ⟨hlen, hcmp⟩
    exact (strnicmp_eq_zero he hlen).mp hcmp
  · intro heq
    have hlen : e.pKey.length = pKey.length := by
      rw [← length_fold, heq, length_fold]
    exact ⟨hlen, (strnicmp_eq_zero he hlen).mpr heq⟩

/-- The hash of a key does not depend on its case. -/
theorem strHash_fold {a b : List UInt8} (h : fold a = fold b) : strHash a = strHash b := by
  have hmap : ∀ z : List UInt8, strHash z
      = (fold z).foldl (fun (h : UInt32) c => (h <<< 3) ^^^ h ^^^ c.toUInt32) 0 := by
    intro z
    rw [strHash, fold, List.foldl_map]
  rw [hmap, hmap, h]

/-- The loop goes through a segment. -/
theorem findLoop_seg {G : List ℕ} {p q : Option ℕ} (pKey : List UInt8) (h : s.links.Seg p G q) :
    s.findLoop pKey G.length (G.head?.or q) = G.find? (s.hasKey pKey) := by
  induction G generalizing p with
  | nil => rfl
  | cons x G ih =>
    obtain ⟨-, hnext, hrest⟩ := h
    rw [List.find?_cons, List.length_cons]
    change (if s.hasKey pKey x then some x else s.findLoop pKey G.length (s.links.next x)) = _
    rw [hnext, ih hrest]
    cases s.hasKey pKey x <;> rfl

/-- A block of a list is a segment. -/
theorem Linked.seg_group (h : Linked f L s) (hht : s.ht.isSome) (i : ℕ) :
    ∃ p q, s.links.Seg p (L.group f i) q := by
  obtain ⟨A, C, heq⟩ := h.blocks hht i
  have hseg := h.list.seg
  rw [← heq] at hseg
  exact ⟨_, _, (Links.seg_append.mp (Links.seg_append.mp hseg).1).2⟩

theorem bucketOf_eq {a : ℕ} {e : HashElem δ} (ha : s.elem a = some e) :
    s.bucketOf a = s.bucket e.pKey := by
  rw [bucketOf, ha]
  rfl

/-- **`findElementGivenHash`** finds the element with the key. -/
theorem findElement_iff (h : Inv L s) (pKey : List UInt8) (a : ℕ) {i : ℕ}
    (hi : s.ht.isSome → i = s.bucket pKey) :
    s.findElementGivenHash pKey i = some a ↔ ∃ e, s.elem a = some e ∧ fold e.pKey = fold pKey := by
  have hfound : ∀ {G : List ℕ}, G ⊆ L → (∀ b e, s.elem b = some e → fold e.pKey = fold pKey → b ∈ G) →
      (G.find? (s.hasKey pKey) = some a ↔ ∃ e, s.elem a = some e ∧ fold e.pKey = fold pKey) := by
    intro G hsub hall
    constructor
    · intro hfind
      have hmem := hsub (List.mem_of_find?_eq_some hfind)
      obtain ⟨e, he⟩ := Option.isSome_iff_exists.mp ((h.live a).mp hmem)
      exact ⟨e, he, (hasKey_iff he (h.noNul a e he) pKey).mp (List.find?_some hfind)⟩
    · rintro ⟨e, he, hfold⟩
      have hkey := (hasKey_iff he (h.noNul a e he) pKey).mpr hfold
      cases hfind : G.find? (s.hasKey pKey) with
      | none => exact absurd hkey (List.find?_eq_none.mp hfind a (hall a e he hfold))
      | some b =>
        have hmem := hsub (List.mem_of_find?_eq_some hfind)
        obtain ⟨e', he'⟩ := Option.isSome_iff_exists.mp ((h.live b).mp hmem)
        have hfold' := (hasKey_iff he' (h.noNul b e' he') pKey).mp (List.find?_some hfind)
        rw [h.keys b a e' e he' he (hfold'.trans hfold.symm)]
  unfold findElementGivenHash
  rcases hht : s.ht with _ | ht
  · dsimp only
    have hloop := findLoop_seg pKey h.linked.list.seg
    rw [Option.or_none, ← h.linked.list.first, ← h.count] at hloop
    rw [hloop]
    exact hfound (fun _ hb => hb) fun b e hb _ => (h.live b).mpr (by rw [hb]; rfl)
  · dsimp only
    have hsome : s.ht.isSome := by rw [hht]; rfl
    obtain ⟨hcount, hchain⟩ := h.linked.bucket ht hht i
    obtain ⟨p, q, hseg⟩ := h.linked.seg_group hsome i
    have hloop : s.findLoop pKey (ht i).count (ht i).chain
        = (L.group s.bucketOf i).find? (s.hasKey pKey) := by
      rw [hcount]
      cases hG : L.group s.bucketOf i with
      | nil => rfl
      | cons x G =>
        rw [hchain (by rw [hG]; exact List.cons_ne_nil _ _), hG]
        rw [hG] at hseg
        exact findLoop_seg pKey hseg
    rw [hloop]
    refine hfound (fun b hb => (List.mem_group.mp hb).1) fun b e hb hfold => ?_
    refine List.mem_group.mpr ⟨(h.live b).mpr (by rw [hb]; rfl), ?_⟩
    rw [bucketOf_eq hb, hi hsome, bucket, bucket, strHash_fold hfold]

/-! ### Changing the table -/

/-- A table without elements and without buckets. -/
theorem inv_empty (hfirst : s.first = none) (hht : s.ht = none) (hcount : s.count = 0)
    (hsize : s.htsize = 0) (hnone : ∀ a, s.elem a = none) : Inv [] s := by
  constructor
  case linked =>
    constructor
    case list => exact ⟨List.nodup_nil, hfirst, trivial⟩
    case blocks =>
      intro hsome
      rw [hht] at hsome
      exact nomatch hsome
    case bucket =>
      intro ht heq
      rw [hht] at heq
      exact nomatch heq
  case count => exact hcount
  case live =>
    intro a
    rw [hnone]
    exact ⟨fun h => absurd h List.not_mem_nil, fun h => nomatch h⟩
  case noNul =>
    intro a e ha
    rw [hnone] at ha
    exact nomatch ha
  case keys =>
    intro a b e e' ha
    rw [hnone] at ha
    exact nomatch ha
  case htsize =>
    rw [hht, hsize]
    exact ⟨(fun h => nomatch h), fun h => absurd rfl h⟩

theorem inv_init : Inv [] (sqlite3HashInit : Hash δ) := inv_empty rfl rfl rfl rfl fun _ => rfl

theorem clear_elem (h : Inv L s) (a : ℕ) : s.sqlite3HashClear.elem a = none := by
  rw [sqlite3HashClear, h.walk]
  dsimp only
  split
  · rfl
  · rename_i ha
    rw [h.live, Option.not_isSome_iff_eq_none] at ha
    exact ha

/-- **`sqlite3HashClear`** empties the table. -/
theorem clear_inv (h : Inv L s) : Inv [] s.sqlite3HashClear :=
  inv_empty rfl rfl rfl rfl (clear_elem h)

/-- The data of an element is replaced, and its key by one that is equal but for case. -/
theorem replace_inv (h : Inv L s) {a : ℕ} {e : HashElem δ} (ha : s.elem a = some e) (key : Key)
    (hkey : fold e.pKey = fold key.val) (d : δ) :
    Inv L { s with elem := Function.update s.elem a (some ⟨d, key.val⟩) } := by
  have hother : ∀ {b : ℕ} {e' : HashElem δ},
      Function.update s.elem a (some ⟨d, key.val⟩) b = some e' →
      ∃ e₀, s.elem b = some e₀ ∧ fold e₀.pKey = fold e'.pKey ∧ 0 ∉ e'.pKey := by
    intro b e' hb
    rcases eq_or_ne b a with rfl | hne
    · rw [Function.update_self] at hb
      obtain rfl := Option.some.inj hb
      exact ⟨e, ha, hkey, key.property⟩
    · rw [Function.update_of_ne hne] at hb
      exact ⟨e', hb, rfl, h.noNul b e' hb⟩
  have hbucket : bucketOf { s with elem := Function.update s.elem a (some ⟨d, key.val⟩) }
      = s.bucketOf := by
    funext b
    rcases eq_or_ne b a with rfl | hne
    · rw [bucketOf_eq ha, bucketOf_eq (Function.update_self b _ s.elem), bucket, bucket,
        strHash_fold hkey]
    · simp only [bucketOf, Function.update_of_ne hne]
      rfl
  refine ⟨?_, h.count, fun b => ?_, fun b e' hb => ?_, fun b b' e₁ e₂ hb hb' heq => ?_, h.htsize⟩
  · rw [hbucket]
    exact ⟨h.linked.list, h.linked.blocks, h.linked.bucket⟩
  · rw [h.live]
    dsimp only
    rcases eq_or_ne b a with rfl | hne
    · rw [ha, Function.update_self]
      exact ⟨fun _ => rfl, fun _ => rfl⟩
    · rw [Function.update_of_ne hne]
  · obtain ⟨-, -, -, hnul⟩ := hother hb
    exact hnul
  · obtain ⟨e₁', h₁, hf₁, -⟩ := hother hb
    obtain ⟨e₂', h₂, hf₂, -⟩ := hother hb'
    exact h.keys b b' e₁' e₂' h₁ h₂ (hf₁.trans (heq.trans hf₂.symm))

/-- The bucket of an element that is not in the list does not matter. -/
theorem Linked.congr {g : ℕ → ℕ} (h : Linked f L s) (hg : ∀ a ∈ L, g a = f a) : Linked g L s := by
  have hgroup : ∀ i, L.group g i = L.group f i := fun i =>
    List.filter_congr fun a ha => by rw [hg a ha]
  constructor
  case list => exact h.list
  case blocks =>
    intro hht i
    rw [hgroup]
    exact h.blocks hht i
  case bucket =>
    intro ht hht i
    rw [hgroup]
    exact h.bucket ht hht i

/-- The bucket of the element that is taken out. -/
theorem uncountBucket_spec {A B : List ℕ} {a : ℕ} (h : Linked f (A ++ a :: B) s) {ht : ℕ → Bucket}
    (hht : s.ht = some ht) :
    ∀ ht', s.uncountBucket a (f a) = some ht' → ∀ i, (ht' i).count = ((A ++ B).group f i).length ∧
      ((A ++ B).group f i ≠ [] → (ht' i).chain = ((A ++ B).group f i).head?) := by
  intro ht' heq i
  rw [uncountBucket, hht, Option.map_some, Option.some.injEq] at heq
  subst heq
  obtain ⟨hcount, hchain⟩ := h.bucket ht hht i
  rw [List.group_append] at hcount hchain ⊢
  rcases eq_or_ne i (f a) with rfl | hne
  · rw [List.group_cons_self rfl] at hcount hchain
    have hchain := hchain (List.append_ne_nil_of_right_ne_nil _ (List.cons_ne_nil _ _))
    rw [Function.update_self]
    dsimp only
    constructor
    · rw [hcount, List.length_append, List.length_append, List.length_cons]
      omega
    · intro hne
      cases hA : A.group f (f a) with
      | nil =>
        -- the first of the block goes, and the next one of the list is the next of the block
        rw [hA, List.nil_append] at hchain hne
        rw [hchain, List.head?_cons, if_pos rfl, List.nil_append, h.list.seg.pointers.2,
          Option.or_none]
        have hblock := h.blocks (by rw [hht]; rfl) (f a)
        rw [List.group_append, hA, List.nil_append, List.group_cons_self rfl] at hblock
        have hpre := List.prefix_of_infix_append_cons hblock h.list.nodup
        obtain ⟨C, hC⟩ := (List.cons_prefix_cons.mp hpre).2
        exact (congrArg List.head? hC).symm.trans (List.head?_append_of_ne_nil _ hne)
      | cons y Y =>
        rw [hA] at hchain
        have hy : y ∈ A := (List.mem_group.mp (hA ▸ List.mem_cons_self)).1
        have hya : y ≠ a := fun heq =>
          (List.nodup_append.mp h.list.nodup).2.2 y hy a List.mem_cons_self heq
        rw [hchain, List.cons_append, List.head?_cons,
          if_neg fun heq => hya (Option.some.inj heq)]
        rfl
  · rw [Function.update_of_ne hne]
    rw [List.group_cons_of_ne hne.symm] at hcount hchain
    exact ⟨hcount, hchain⟩

/-- An element is taken out of the list, and of its bucket if there are buckets. -/
theorem unlink_linked {a : ℕ} (h : Linked f L s) (ha : a ∈ L) {s' : Hash δ}
    (hlinks : s'.links = s.links.unlink a)
    (hfirst : s'.first = if (s.links.prev a).isSome then s.first else s.links.next a)
    (hht : s'.ht = s.uncountBucket a (f a)) : Linked f (L.filter (· ≠ a)) s' := by
  have hblocks := fun hsome => (h.blocks hsome).filter (· ≠ a)
  obtain ⟨A, B, rfl⟩ := List.append_of_mem ha
  have hnodup := h.list.nodup
  rw [List.filter_ne_of_nodup hnodup] at hblocks ⊢
  obtain ⟨hprev, hnext⟩ := h.list.seg.pointers
  rw [Option.or_none] at hprev hnext
  constructor
  case list =>
    constructor
    case nodup => exact (List.nodup_cons.mp (List.perm_middle.nodup_iff.mp hnodup)).2
    case first =>
      rw [hfirst, hprev, hnext, h.list.first]
      cases A with
      | nil => rfl
      | cons y A =>
        rw [List.getLast?_cons, Option.isSome_some, if_pos rfl]
        rfl
    case seg =>
      rw [hlinks]
      exact h.list.seg.unlink hnodup
  case blocks =>
    intro hsome
    rw [hht, uncountBucket, Option.isSome_map] at hsome
    exact hblocks hsome
  case bucket =>
    intro ht' heq
    rw [hht] at heq
    cases hs : s.ht with
    | none =>
      rw [uncountBucket, hs] at heq
      exact nomatch heq
    | some ht => exact uncountBucket_spec h hs ht' heq

/-- **`removeElementGivenHash`** takes an element out. -/
theorem remove_inv (h : Inv L s) {a : ℕ} {e : HashElem δ} (ha : s.elem a = some e) :
    ∃ L', Inv L' (s.removeElementGivenHash a (s.bucketOf a)) ∧
      (s.removeElementGivenHash a (s.bucketOf a)).elem = Function.update s.elem a none := by
  have hmem : a ∈ L := (h.live a).mpr (by rw [ha]; rfl)
  set s' : Hash δ :=
    { s with
      links := s.links.unlink a
      first := if (s.links.prev a).isSome then s.first else s.links.next a
      ht := s.uncountBucket a (s.bucketOf a)
      elem := Function.update s.elem a none
      count := s.count - 1 } with hs'
  have hremove : s.removeElementGivenHash a (s.bucketOf a)
      = if s'.count = 0 then s'.sqlite3HashClear else s' := rfl
  have hsub : ∀ b e', s'.elem b = some e' → s.elem b = some e' := by
    intro b e' hb
    rcases eq_or_ne b a with rfl | hne
    · exact absurd (hb.symm.trans (Function.update_self b none s.elem)) (Option.some_ne_none e')
    · exact (Function.update_of_ne hne none s.elem).symm.trans hb
  have hinv : Inv (L.filter (· ≠ a)) s' := by
    constructor
    case linked =>
      refine (unlink_linked h.linked hmem rfl rfl rfl).congr fun b hb => ?_
      have hne : b ≠ a := by simpa using List.of_mem_filter hb
      simp only [bucketOf, hs', Function.update_of_ne hne]
      rfl
    case count =>
      have hnodup := h.linked.list.nodup
      have hcount := h.count
      obtain ⟨A, B, rfl⟩ := List.append_of_mem hmem
      rw [List.filter_ne_of_nodup hnodup]
      rw [List.length_append, List.length_cons] at hcount
      rw [List.length_append]
      exact (congrArg (· - 1) hcount : s'.count = _)
    case live =>
      intro b
      rw [List.mem_filter, h.live]
      rcases eq_or_ne b a with rfl | hne
      · rw [hs']
        dsimp only
        rw [Function.update_self]
        simp
      · rw [hs']
        dsimp only
        rw [Function.update_of_ne hne]
        simp [hne]
    case noNul => exact fun b e' hb => h.noNul b e' (hsub b e' hb)
    case keys => exact fun b c e₁ e₂ hb hc => h.keys b c e₁ e₂ (hsub b e₁ hb) (hsub c e₂ hc)
    case htsize =>
      rw [hs']
      dsimp only
      rw [uncountBucket, Option.isSome_map]
      exact h.htsize
  rw [hremove]
  by_cases hzero : s'.count = 0
  · rw [if_pos hzero]
    refine ⟨[], clear_inv hinv, funext fun b => ?_⟩
    rw [sqlite3HashClear, walk, hzero]
    rfl
  · rw [if_neg hzero]
    exact ⟨_, hinv, rfl⟩

/-! ### A new element -/

/-- The address is not in use. -/
theorem newElem_fresh (h : Inv L s) {malloc : Option ℕ} {a : ℕ} (ha : s.newElem malloc = some a) :
    a ∉ L := by
  rw [newElem, h.walk] at ha
  obtain ⟨b, -, rfl⟩ := Option.map_eq_some_iff.mp ha
  split
  · intro hmem
    have hle : ∀ {l : List ℕ} {x : ℕ}, x ∈ l → x ≤ l.foldr max 0 := by
      intro l x hx
      induction l with
      | nil => exact absurd hx List.not_mem_nil
      | cons y l ih =>
        rw [List.foldr_cons]
        rcases List.mem_cons.mp hx with rfl | hx
        · exact le_max_left _ _
        · exact (ih hx).trans (le_max_right _ _)
    exact absurd (hle hmem) (by omega)
  · assumption

theorem softLimit_ne_zero {n : ℕ} (hn : n ≠ 0) : softLimit n ≠ 0 := by
  unfold softLimit
  split <;> omega

/-- **`rehash`** puts the same elements into other buckets. -/
theorem rehash_linked (h : Linked f L s) (hcount : L.length ≤ s.count) {newSize : ℕ}
    (hsize : newSize ≠ 0) {malloc : Option ℕ} {s' : Hash δ} (hs' : s.rehash newSize malloc = some s') :
    ∃ L', Linked s'.bucketOf L' s' ∧ L'.Perm L ∧ s'.elem = s.elem ∧ s'.count = s.count ∧
      s'.ht.isSome ∧ s'.htsize ≠ 0 := by
  unfold rehash at hs'
  dsimp only at hs'
  split at hs'
  · exact nomatch hs'
  · cases malloc with
    | none => exact nomatch hs'
    | some more =>
      obtain rfl := Option.some.inj hs'
      set s₀ : Hash δ :=
        { s with
          ht := some fun _ => ⟨0, none⟩, htsize := softLimit newSize + more, first := none } with hs₀
      have hempty : Linked s₀.bucketOf [] s₀ := by
        constructor
        case list => exact ⟨List.nodup_nil, rfl, trivial⟩
        case blocks => exact fun _ _ => List.infix_refl []
        case bucket =>
          intro ht heq i
          obtain rfl := Option.some.inj heq
          exact ⟨rfl, fun hne => absurd rfl hne⟩
      obtain ⟨L', hL', hperm, hsame⟩ := rehashLoop_linked (R := L) (n := s.count) hempty rfl
        h.list.seg.fwd (by rw [List.append_nil]; exact h.list.nodup) hcount
      rw [← h.list.first] at hL' hsame
      rw [List.append_nil] at hperm
      refine ⟨L', ?_, hperm, hsame.elem, hsame.count, hsame.ht, ?_⟩
      · rw [hsame.bucketOf]
        exact hL'
      · rw [hsame.htsize]
        exact Nat.ne_of_gt (Nat.add_pos_left (Nat.pos_of_ne_zero (softLimit_ne_zero hsize)) more)

/-- Growing keeps the elements, and makes room for one more in the count. -/
theorem grow_linked (h : Linked s.bucketOf L s) (hcount : L.length ≤ s.count)
    (hsize : s.ht.isSome ↔ s.htsize ≠ 0) (malloc : Option ℕ) :
    ∃ L', Linked (s.grow malloc).bucketOf L' (s.grow malloc) ∧ L'.Perm L ∧
      (s.grow malloc).elem = s.elem ∧ (s.grow malloc).count = s.count + 1 ∧
      ((s.grow malloc).ht.isSome ↔ (s.grow malloc).htsize ≠ 0) := by
  set s₁ : Hash δ := { s with count := s.count + 1 } with hs₁
  have h₁ : Linked s₁.bucketOf L s₁ := ⟨h.list, h.blocks, h.bucket⟩
  have hgrow : s.grow malloc
      = if 10 ≤ s₁.count ∧ 2 * s₁.htsize < s₁.count then
          (s₁.rehash (s₁.count * 2) malloc).getD s₁ else s₁ := rfl
  rw [hgrow]
  split
  · rename_i hcond
    cases hre : s₁.rehash (s₁.count * 2) malloc with
    | none => exact ⟨L, h₁, List.Perm.refl L, rfl, rfl, hsize⟩
    | some s₂ =>
      obtain ⟨L', hL', hperm, helem, hc, hht, hne⟩ := rehash_linked h₁
        (hcount.trans (Nat.le_succ _)) (by omega) hre
      exact ⟨L', hL', hperm, helem, hc, iff_of_true hht hne⟩
  · exact ⟨L, h₁, List.Perm.refl L, rfl, rfl, hsize⟩

/-- **A new element** comes into the table. -/
theorem insertNew_inv (h : Inv L s) (key : Key) (d : δ) (malloc : Malloc)
    (hnew : ∀ a e, s.elem a = some e → fold e.pKey ≠ fold key.val) {a : ℕ}
    (ha : s.newElem malloc.elem = some a) :
    s.elem a = none ∧ (s.insertNew key.val d malloc).1 = none ∧
      (∃ L', Inv L' (s.insertNew key.val d malloc).2) ∧
      (s.insertNew key.val d malloc).2.elem = Function.update s.elem a (some ⟨d, key.val⟩) := by
  have hfresh := newElem_fresh h ha
  have hnone : s.elem a = none := by
    rw [h.live, Option.not_isSome_iff_eq_none] at hfresh
    exact hfresh
  set s₁ : Hash δ := { s with elem := Function.update s.elem a (some ⟨d, key.val⟩) } with hs₁
  have h₁ : Linked s₁.bucketOf L s₁ := by
    have hcongr := h.linked.congr (g := s₁.bucketOf) fun b hb => by
      simp only [bucketOf, hs₁, Function.update_of_ne (ne_of_mem_of_not_mem hb hfresh)]
      rfl
    exact ⟨hcongr.list, hcongr.blocks, hcongr.bucket⟩
  obtain ⟨L₂, h₂, hperm₂, helem₂, hcount₂, hsize₂⟩ :=
    grow_linked h₁ h.count.ge h.htsize malloc.ht
  set s₂ : Hash δ := s₁.grow malloc.ht with hs₂
  have hentry : s₂.bucket key.val = s₂.bucketOf a := by
    rw [bucketOf_eq (e := ⟨d, key.val⟩) (by rw [helem₂]; exact Function.update_self _ _ _)]
  obtain ⟨L₃, h₃, hperm₃, -⟩ := insertElement_linked h₂ fun hin => hfresh (hperm₂.mem_iff.mp hin)
  have hinsert : s.insertNew key.val d malloc
      = (none, s₂.insertElement (s₂.ht.map fun _ => s₂.bucketOf a) a) := by
    rw [← hentry]
    unfold insertNew
    rw [ha]
  have hsame := insertElement_same s₂ (s₂.ht.map fun _ => s₂.bucketOf a) a
  rw [hinsert]
  have helem : (s₂.insertElement (s₂.ht.map fun _ => s₂.bucketOf a) a).elem
      = Function.update s.elem a (some ⟨d, key.val⟩) := hsame.elem.trans helem₂
  refine ⟨hnone, rfl, ⟨L₃, ?_⟩, helem⟩
  have hcases : ∀ {b : ℕ} {e : HashElem δ},
      Function.update s.elem a (some ⟨d, key.val⟩) b = some e →
      (b = a ∧ e = ⟨d, key.val⟩) ∨ s.elem b = some e := by
    intro b e hb
    rcases eq_or_ne b a with rfl | hne
    · rw [Function.update_self] at hb
      exact Or.inl ⟨rfl, (Option.some.inj hb).symm⟩
    · rw [Function.update_of_ne hne] at hb
      exact Or.inr hb
  constructor
  case linked =>
    rw [hsame.bucketOf]
    exact h₃
  case count =>
    rw [hsame.count, hcount₂, hperm₃.length_eq, List.length_cons, hperm₂.length_eq]
    exact congrArg (· + 1) h.count
  case live =>
    intro b
    rw [helem, hperm₃.mem_iff, List.mem_cons, hperm₂.mem_iff, h.live]
    rcases eq_or_ne b a with rfl | hne
    · rw [Function.update_self]
      exact ⟨fun _ => rfl, fun _ => Or.inl rfl⟩
    · rw [Function.update_of_ne hne]
      exact ⟨fun h => h.resolve_left hne, Or.inr⟩
  case noNul =>
    intro b e hb
    rw [helem] at hb
    rcases hcases hb with ⟨-, rfl⟩ | hb
    · exact key.property
    · exact h.noNul b e hb
  case keys =>
    intro b c e₁ e₂ hb hc heq
    rw [helem] at hb hc
    rcases hcases hb with ⟨hba, rfl⟩ | hb' <;> rcases hcases hc with ⟨hca, rfl⟩ | hc'
    · rw [hba, hca]
    · exact absurd heq.symm (hnew c e₂ hc')
    · exact absurd heq (hnew b e₁ hb')
    · exact h.keys b c e₁ e₂ hb' hc' heq
  case htsize =>
    rw [hsame.ht, hsame.htsize]
    exact hsize₂

/-! ### The table stands for a map -/

/-- The table stands for the map `m`. -/
structure Refines (s : Hash δ) (m : Map δ) : Prop where
  inv : ∃ L, Inv L s
  data : ∀ k d, m k = some d ↔ ∃ a e, s.elem a = some e ∧ fold e.pKey = k ∧ e.data = d

/-- The data of one key is changed, by a change of the element at `a`. -/
theorem Refines.update {m : Map δ} (h : Refines s m) {s' : Hash δ} (hinv : ∃ L, Inv L s') {a : ℕ}
    {k : List UInt8} {x : Option (HashElem δ)} (helem : s'.elem = Function.update s.elem a x)
    (hold : ∀ b e, s.elem b = some e → (b = a ↔ fold e.pKey = k))
    (hnew : ∀ e, x = some e → fold e.pKey = k) :
    Refines s' (Function.update m k (x.map HashElem.data)) := by
  refine ⟨hinv, fun k' d => ?_⟩
  rw [helem]
  rcases eq_or_ne k' k with rfl | hk
  · rw [Function.update_self, Option.map_eq_some_iff]
    constructor
    · rintro ⟨e, hx, hd⟩
      exact ⟨a, e, (Function.update_self a x s.elem).trans hx, hnew e hx, hd⟩
    · rintro ⟨b, e, hb, hfold, hd⟩
      rcases eq_or_ne b a with rfl | hne
      · exact ⟨e, (Function.update_self b x s.elem).symm.trans hb, hd⟩
      · rw [Function.update_of_ne hne] at hb
        exact absurd ((hold b e hb).mpr hfold) hne
  · rw [Function.update_of_ne hk, h.data]
    constructor
    · rintro ⟨b, e, hb, hfold, hd⟩
      have hne : b ≠ a := fun heq => hk (hfold.symm.trans ((hold b e hb).mp heq))
      exact ⟨b, e, (Function.update_of_ne hne x s.elem).trans hb, hfold, hd⟩
    · rintro ⟨b, e, hb, hfold, hd⟩
      rcases eq_or_ne b a with rfl | hne
      · rw [Function.update_self] at hb
        exact absurd (hfold.symm.trans (hnew e hb)) hk
      · rw [Function.update_of_ne hne] at hb
        exact ⟨b, e, hb, hfold, hd⟩

theorem refines_init (δ : Type) : Refines (sqlite3HashInit : Hash δ) fun _ => none :=
  ⟨⟨[], inv_init⟩, fun _ _ => iff_of_false (fun h => nomatch h) fun ⟨_, _, h, _⟩ => nomatch h⟩

theorem refines_clear {m : Map δ} (h : Refines s m) : Refines s.sqlite3HashClear fun _ => none := by
  obtain ⟨L, hL⟩ := h.inv
  refine ⟨⟨[], clear_inv hL⟩, fun k d => iff_of_false (fun h => nomatch h) ?_⟩
  rintro ⟨a, e, ha, -⟩
  rw [clear_elem hL] at ha
  exact nomatch ha

/-- Looking for a key gives what the map has for it. -/
theorem Refines.find {m : Map δ} (h : Refines s m) (pKey : List UInt8) {i : ℕ}
    (hi : s.ht.isSome → i = s.bucket pKey) :
    m (fold pKey) = ((s.findElementGivenHash pKey i).bind s.elem).map HashElem.data := by
  obtain ⟨L, hL⟩ := h.inv
  cases hfind : s.findElementGivenHash pKey i with
  | none =>
    cases hm : m (fold pKey) with
    | none => rfl
    | some d =>
      obtain ⟨a, e, ha, hfold, -⟩ := (h.data _ d).mp hm
      exact nomatch hfind.symm.trans ((findElement_iff hL pKey a hi).mpr ⟨e, ha, hfold⟩)
  | some a =>
    obtain ⟨e, ha, hfold⟩ := (findElement_iff hL pKey a hi).mp hfind
    rw [Option.bind_some, ha]
    exact (h.data _ e.data).mpr ⟨a, e, ha, hfold, rfl⟩

theorem Refines.hashFind {m : Map δ} (h : Refines s m) (pKey : List UInt8) :
    s.sqlite3HashFind pKey = m (fold pKey) :=
  (h.find pKey fun hht => if_pos hht).symm

/-- The bucket that an insert looks in. -/
theorem Inv.bucket_eq (h : Inv L s) (pKey : List UInt8) {i : ℕ}
    (hi : i = if s.htsize ≠ 0 then s.bucket pKey else 0) (hht : s.ht.isSome) :
    i = s.bucket pKey := hi.trans (if_pos (h.htsize.mp hht))

/-- An insert that needs an element and gets none. -/
theorem Refines.insert_nomem {m : Map δ} (h : Refines s m) {pKey : List UInt8}
    (hnone : m (fold pKey) = none) (d : δ) {malloc : Malloc} (hmalloc : malloc.elem = none) :
    s.sqlite3HashInsert pKey (some d) malloc = (some d, s) := by
  obtain ⟨L, hL⟩ := h.inv
  obtain ⟨i, hi⟩ : ∃ i, i = if s.htsize ≠ 0 then s.bucket pKey else 0 := ⟨_, rfl⟩
  have hm := h.find pKey (hL.bucket_eq pKey hi)
  have hfind : s.findElementGivenHash pKey i = none := by
    cases hfind : s.findElementGivenHash pKey i with
    | none => rfl
    | some a =>
      obtain ⟨e, ha, -⟩ := (findElement_iff hL pKey a (hL.bucket_eq pKey hi)).mp hfind
      rw [hfind, Option.bind_some, ha] at hm
      exact nomatch hm.symm.trans hnone
  rw [sqlite3HashInsert, ← hi]
  dsimp only
  rw [hfind]
  dsimp only
  rw [insertNew, newElem, hmalloc]
  rfl

/-- **An insert** answers as the map does, and leaves a table that stands for the new map. -/
theorem insert_refines {m : Map δ} (h : Refines s m) (key : Key) (data : Option δ)
    (malloc : Malloc) :
    (s.sqlite3HashInsert key.val data malloc).1 = (m.step (.insert key data malloc)).1 ∧
      Refines (s.sqlite3HashInsert key.val data malloc).2
        (m.step (.insert key data malloc)).2 := by
  obtain ⟨L, hL⟩ := h.inv
  obtain ⟨i, hi⟩ : ∃ i, i = if s.htsize ≠ 0 then s.bucket key.val else 0 := ⟨_, rfl⟩
  have hbucket := hL.bucket_eq key.val hi
  have hm := h.find key.val hbucket
  cases hfind : s.findElementGivenHash key.val i with
  | some a =>
    obtain ⟨e, ha, hfold⟩ := (findElement_iff hL key.val a hbucket).mp hfind
    rw [hfind, Option.bind_some, ha] at hm
    have hold : ∀ b e', s.elem b = some e' → (b = a ↔ fold e'.pKey = fold key.val) := by
      intro b e' hb
      constructor
      · rintro rfl
        obtain rfl := Option.some.inj (hb.symm.trans ha)
        exact hfold
      · exact fun heq => hL.keys b a e' e hb ha (heq.trans hfold.symm)
    rw [Map.step_of_some hm]
    cases data with
    | none =>
      have hinsert : s.sqlite3HashInsert key.val none malloc
          = (some e.data, s.removeElementGivenHash a i) := by
        rw [sqlite3HashInsert, ← hi]
        dsimp only
        rw [hfind]
        dsimp only
        rw [ha]
        rfl
      have hbucketOf : s.removeElementGivenHash a i = s.removeElementGivenHash a (s.bucketOf a) := by
        cases hht : s.ht with
        | none =>
          unfold removeElementGivenHash uncountBucket
          rw [hht]
          rfl
        | some ht =>
          rw [bucketOf_eq ha, hbucket (by rw [hht]; rfl), bucket, bucket, strHash_fold hfold]
      obtain ⟨L', hL', helem⟩ := remove_inv hL ha
      rw [hinsert, hbucketOf]
      exact ⟨rfl, h.update ⟨L', hL'⟩ helem hold fun e' he' => nomatch he'⟩
    | some d =>
      have hinsert : s.sqlite3HashInsert key.val (some d) malloc
          = (some e.data, { s with elem := Function.update s.elem a (some ⟨d, key.val⟩) }) := by
        rw [sqlite3HashInsert, ← hi]
        dsimp only
        rw [hfind]
        dsimp only
        rw [ha]
        rfl
      rw [hinsert]
      refine ⟨rfl, h.update ⟨L, replace_inv hL ha key hfold d⟩ rfl hold fun e' he' => ?_⟩
      obtain rfl := Option.some.inj he'
      rfl
  | none =>
    rw [hfind] at hm
    have hnew : ∀ a e, s.elem a = some e → fold e.pKey ≠ fold key.val := fun a e ha hfold =>
      nomatch hfind.symm.trans ((findElement_iff hL key.val a hbucket).mpr ⟨e, ha, hfold⟩)
    cases data with
    | none =>
      have hinsert : s.sqlite3HashInsert key.val none malloc = (none, s) := by
        rw [sqlite3HashInsert, ← hi]
        dsimp only
        rw [hfind]
      rw [hinsert, Map.step_remove_of_none hm]
      exact ⟨rfl, h⟩
    | some d =>
      rw [Map.step_insert_of_none hm]
      cases hmalloc : malloc.elem with
      | none =>
        rw [h.insert_nomem hm d hmalloc]
        exact ⟨rfl, h⟩
      | some free =>
        have hinsert : s.sqlite3HashInsert key.val (some d) malloc
            = s.insertNew key.val d malloc := by
          rw [sqlite3HashInsert, ← hi]
          dsimp only
          rw [hfind]
        obtain ⟨a, ha⟩ : ∃ a, s.newElem malloc.elem = some a := ⟨_, by rw [hmalloc]; rfl⟩
        obtain ⟨hnone, hanswer, hinv, helem⟩ := insertNew_inv hL key d malloc hnew ha
        rw [hinsert]
        refine ⟨hanswer, h.update hinv helem (fun b e hb => ?_) fun e he => ?_⟩
        · refine iff_of_false (fun heq => ?_) (hnew b e hb)
          rw [heq, hnone] at hb
          exact nomatch hb
        · obtain rfl := Option.some.inj he
          rfl

/-- **One call** on the table is one on the map. -/
theorem step_refines (s : Hash δ) (m : Map δ) (c : Call δ) (h : Refines s m) :
    (s.step c).1 = (m.step c).1 ∧ Refines (s.step c).2 (m.step c).2 := by
  cases c with
  | insert key data malloc => exact insert_refines h key data malloc
  | find key => exact ⟨h.hashFind key.val, h⟩
  | clear => exact ⟨rfl, refines_clear h⟩

end Hash

open Hash in
/-- **The hash table is a finite map without regard to case.** After any calls, whatever the
allocator does, the answers were those of the map and so is every further look-up; an insert that
needs an element and gets none changes nothing; walking the list meets every element once and comes
to an end; and every bucket is a block of the list, of the length it counts. -/
theorem hash_refines {δ : Type} (calls : List (Call δ)) :
    let t := Run.exec step sqlite3HashInit calls
    let m := Run.exec Map.step (fun _ => none) calls
    t.1 = m.1 ∧ (∀ key : Key, t.2.sqlite3HashFind key.val = m.2 (fold key.val)) ∧
      (∀ (key : Key) (d : δ) (malloc : Malloc), m.2 (fold key.val) = none → malloc.elem = none →
        t.2.sqlite3HashInsert key.val (some d) malloc = (some d, t.2)) ∧
      t.2.walk.Nodup ∧ (∀ a, a ∈ t.2.walk ↔ (t.2.elem a).isSome) ∧
      (∀ n, t.2.count ≤ n → t.2.links.follow n t.2.first = t.2.walk) ∧
      t.2.count = t.2.walk.length ∧
      ∀ ht, t.2.ht = some ht → ∀ i,
        t.2.walk.group t.2.bucketOf i <:+: t.2.walk ∧
        (ht i).count = (t.2.walk.group t.2.bucketOf i).length ∧
        (0 < (ht i).count → (ht i).chain = (t.2.walk.group t.2.bucketOf i).head?) := by
  intro t m
  obtain ⟨hanswers, href⟩ := Run.exec_of_simulation step_refines (refines_init δ) calls
  obtain ⟨L, hL⟩ := href.inv
  have hwalk : t.2.walk = L := hL.walk
  refine ⟨hanswers, fun key => href.hashFind key.val,
    fun key d malloc hnone hmalloc => href.insert_nomem hnone d hmalloc, ?_⟩
  rw [hwalk]
  refine ⟨hL.linked.list.nodup, hL.live, fun n hn => ?_, hL.count, fun ht hht i => ?_⟩
  · exact hL.linked.list.follow (hL.count.symm.trans_le hn)
  · obtain ⟨hcount, hchain⟩ := hL.linked.bucket ht hht i
    refine ⟨hL.linked.blocks (Option.isSome_iff_exists.mpr ⟨ht, hht⟩) i, hcount, fun hpos => ?_⟩
    refine hchain fun hnil => ?_
    rw [hcount, hnil] at hpos
    exact absurd hpos (Nat.lt_irrefl 0)

end SqliteVms

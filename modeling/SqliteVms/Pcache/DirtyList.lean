import Mathlib
import SqliteVms.Lib.Linked

/-!
# The dirty list

The list of dirty pages of `pcache.c`, linked in both directions, with `pSynced` pointing into it.
A page is known by its place in memory; what the plugin returns to `sqlite3PcacheFetch` is any page
that it may return: the page in use with that number, or one that is not in use.

Loops along the list are bounded by the number of pages in memory.

## Main definitions

* `PCache` — the pages, their links, and the pointers into the list
* `pcacheRemoveFromDirtyList`, `pcacheAddToDirtyList` — the list
* `pcacheSortDirtyList` — the sort
* `Op`, `step` — the operations
* `Inv` — the invariant, with the list in two parts

## Main results

* `Inv.step`, `inv_run` — one operation, and a run, keep the invariant
* `fetchStress_spec` — the page that is chosen to be written
* `sortDirtyList_spec` — the sort
* `dirtyList_run` — the list is exact in every run
-/

namespace SqliteVms

namespace Dirty

open Links

/-! ### The code -/

/-- Arithmetic on an `i16`. -/
def i16 (n : ℤ) : ℤ := n.bmod (2 ^ 16)

/-- `PgHdr`, without its links: the flags are `PGHDR_DIRTY` and `PGHDR_NEED_SYNC`, and `nRef` is an
`i16`. -/
structure PgHdr where
  pgno : ℕ
  nRef : ℤ
  dirty : Bool
  needSync : Bool

/-- `PCache`: `links` are `pDirtyNext` and `pDirtyPrev`. -/
structure PCache where
  page : ℕ → PgHdr
  links : Links ℕ
  pDirty : Option ℕ
  pDirtyTail : Option ℕ
  pSynced : Option ℕ
  nRef : ℕ
  nPage : ℕ

/-- The loops along `pDirtyPrev`, up to a page for which `stop` holds. -/
def walk (links : Links ℕ) (stop : ℕ → Bool) : ℕ → Option ℕ → Option ℕ
  | 0, _ => none
  | _ + 1, none => none
  | fuel + 1, some x => if stop x = true then some x else walk links stop fuel (links.prev x)

def pcacheRemoveFromDirtyList (s : PCache) (x : ℕ) : PCache where
  page := s.page
  links := ((s.links.unlink x).setNext (some x) none).setPrev (some x) none
  pDirty := if s.links.prev x = none then s.links.next x else s.pDirty
  pDirtyTail := if s.links.next x = none then s.links.prev x else s.pDirtyTail
  pSynced :=
    if s.pSynced = some x then
      walk s.links (fun y => !(s.page y).needSync) (s.nPage + 1) (s.links.prev x)
    else s.pSynced
  nRef := s.nRef
  nPage := s.nPage

def pcacheAddToDirtyList (s : PCache) (x : ℕ) : PCache where
  page := s.page
  links := (s.links.setNext (some x) s.pDirty).setPrev s.pDirty (some x)
  pDirty := some x
  pDirtyTail := if s.pDirtyTail = none then some x else s.pDirtyTail
  pSynced := if s.pSynced = none ∧ (s.page x).needSync = false then some x else s.pSynced
  nRef := s.nRef
  nPage := s.nPage

/-- A page is written to memory. -/
def PCache.setPage (s : PCache) (x : ℕ) (p : PgHdr) : PCache :=
  { s with page := Function.update s.page x p }

/-- The search of `sqlite3PcacheFetch` for a page to write out, and the page for `xStress`. -/
def fetchStress (s : PCache) : PCache × Option ℕ :=
  let pPg := walk s.links (fun y => decide ((s.page y).nRef = 0) && !(s.page y).needSync)
    (s.nPage + 1) s.pSynced
  ({ s with pSynced := pPg },
    if pPg = none then
      walk s.links (fun y => decide ((s.page y).nRef = 0)) (s.nPage + 1) s.pDirtyTail
    else pPg)

/-- The end of `sqlite3PcacheFetch`, with the page that the plugin returned. A page that is not in
use gets its number, and its header is cleared if its memory is new. -/
def fetchPage (s : PCache) (x pgno : ℕ) (isNew : Bool) : PCache :=
  let p := s.page x
  let s := { s with
    nRef := if p.nRef = 0 then s.nRef + 1 else s.nRef, nPage := max s.nPage (x + 1) }
  s.setPage x { p with pgno := pgno, nRef := i16 (p.nRef + 1), needSync := !isNew && p.needSync }

def sqlite3PcacheRef (s : PCache) (x : ℕ) : PCache :=
  s.setPage x { s.page x with nRef := i16 ((s.page x).nRef + 1) }

def sqlite3PcacheRelease (s : PCache) (x : ℕ) : PCache :=
  let s := s.setPage x { s.page x with nRef := i16 ((s.page x).nRef - 1) }
  if (s.page x).nRef = 0 then
    let s := { s with nRef := s.nRef - 1 }
    if (s.page x).dirty = true then pcacheAddToDirtyList (pcacheRemoveFromDirtyList s x) x else s
  else s

/-- `sqlite3PcacheDrop`: the page is given back to the plugin. -/
def sqlite3PcacheDrop (s : PCache) (x : ℕ) : PCache :=
  let s := if (s.page x).dirty = true then pcacheRemoveFromDirtyList s x else s
  { s with nRef := s.nRef - 1 }.setPage x { s.page x with nRef := 0, dirty := false }

def sqlite3PcacheMakeDirty (s : PCache) (x : ℕ) : PCache :=
  if (s.page x).dirty = true then s
  else pcacheAddToDirtyList (s.setPage x { s.page x with dirty := true }) x

def sqlite3PcacheMakeClean (s : PCache) (x : ℕ) : PCache :=
  if (s.page x).dirty = true then
    (pcacheRemoveFromDirtyList s x).setPage x { s.page x with dirty := false, needSync := false }
  else s

/-- The loop of `sqlite3PcacheCleanAll`. -/
def cleanLoop : ℕ → PCache → PCache
  | 0, s => s
  | fuel + 1, s =>
    match s.pDirty with
    | none => s
    | some x => cleanLoop fuel (sqlite3PcacheMakeClean s x)

def sqlite3PcacheCleanAll (s : PCache) : PCache := cleanLoop (s.nPage + 1) s

def sqlite3PcacheClearSyncFlags (s : PCache) : PCache :=
  { (s.links.follow (s.nPage + 1) s.pDirty).foldl
      (fun s x => s.setPage x { s.page x with needSync := false }) s with pSynced := s.pDirtyTail }

def sqlite3PcacheMove (s : PCache) (x newPgno : ℕ) : PCache :=
  let s := s.setPage x { s.page x with pgno := newPgno }
  if (s.page x).dirty = true ∧ (s.page x).needSync = true then
    pcacheAddToDirtyList (pcacheRemoveFromDirtyList s x) x
  else s

/-- `PGHDR_NEED_SYNC` is set or cleared by the pager. -/
def setNeedSync (s : PCache) (x : ℕ) (b : Bool) : PCache :=
  s.setPage x { s.page x with needSync := b }

/-- `pcacheMergeDirtyList`. The chains through `pDirty`, which nothing else reads, are lists. -/
def pcacheMergeDirtyList (s : PCache) (pA pB : List ℕ) : List ℕ :=
  pA.merge pB fun a b => decide ((s.page a).pgno < (s.page b).pgno)

/-- The loop of `pcacheSortDirtyList` over the buckets. -/
def sortInto (s : PCache) : List (List ℕ) → List ℕ → List (List ℕ)
  | [], _ => []
  | [a], p => [pcacheMergeDirtyList s a p]
  | [] :: a' :: rest, p => p :: a' :: rest
  | (x :: a) :: a' :: rest, p =>
    [] :: sortInto s (a' :: rest) (pcacheMergeDirtyList s (x :: a) p)

/-- `pcacheSortDirtyList`: `N_SORT_BUCKET` is 32. -/
def pcacheSortDirtyList (s : PCache) (pIn : List ℕ) : List ℕ :=
  match pIn.foldl (fun a x => sortInto s a [x]) (List.replicate 32 []) with
  | [] => []
  | p :: a => a.foldl (pcacheMergeDirtyList s) p

/-- `sqlite3PcacheDirtyList`, with the cache that it leaves. -/
def sqlite3PcacheDirtyList (s : PCache) : PCache × List ℕ :=
  (s, pcacheSortDirtyList s (s.links.follow (s.nPage + 1) s.pDirty))

/-! ### Runs -/

/-- The page is in use: it is dirty or referenced. -/
def InUse (s : PCache) (x : ℕ) : Prop := (s.page x).dirty = true ∨ 0 < (s.page x).nRef

/-- The operations. A fetch is its search, what `xStress` does, and its end. -/
inductive Op
  | stress
  | fetch (x pgno : ℕ) (isNew : Bool)
  | ref (x : ℕ)
  | release (x : ℕ)
  | drop (x : ℕ)
  | makeDirty (x : ℕ)
  | makeClean (x : ℕ)
  | cleanAll
  | clearSyncFlags
  | move (x newPgno : ℕ)
  | setSync (x : ℕ) (b : Bool)

/-- What the assertions and the plugin promise: pages are referenced, the page that is fetched is
the one in use with its number or one that is not in use, and a page is moved to a free number. -/
def Op.Allowed (s : PCache) : Op → Prop
  | .stress | .cleanAll | .clearSyncFlags | .makeClean _ => True
  | .fetch x pgno isNew => (InUse s x ∧ (s.page x).pgno = pgno ∧ isNew = false) ∨
      (¬InUse s x ∧ ∀ y, InUse s y → (s.page y).pgno ≠ pgno)
  | .ref x | .release x | .makeDirty x | .setSync x _ => 0 < (s.page x).nRef
  | .drop x => (s.page x).nRef = 1
  | .move x newPgno => 0 < (s.page x).nRef ∧ ∀ y, InUse s y → y ≠ x → (s.page y).pgno ≠ newPgno

/-- One operation. -/
def step (s : PCache) : Op → PCache
  | .stress => (fetchStress s).1
  | .fetch x pgno isNew => fetchPage s x pgno isNew
  | .ref x => sqlite3PcacheRef s x
  | .release x => sqlite3PcacheRelease s x
  | .drop x => sqlite3PcacheDrop s x
  | .makeDirty x => sqlite3PcacheMakeDirty s x
  | .makeClean x => sqlite3PcacheMakeClean s x
  | .cleanAll => sqlite3PcacheCleanAll s
  | .clearSyncFlags => sqlite3PcacheClearSyncFlags s
  | .move x newPgno => sqlite3PcacheMove s x newPgno
  | .setSync x b => setNeedSync s x b

/-- No reference is added to a page that has 32767 of them. -/
def Op.InRange (s : PCache) : Op → Prop
  | .fetch x _ _ | .ref x => (s.page x).nRef ≠ 32767
  | _ => True

/-- The state after operations that are allowed and for which `ok` holds. -/
inductive Run (ok : PCache → Op → Prop) : PCache → List Op → PCache → Prop
  | nil (s : PCache) : Run ok s [] s
  | cons {s s' : PCache} {op : Op} {l : List Op} (h : op.Allowed s) (hok : ok s op)
      (hrun : Run ok (step s op) l s') : Run ok s (op :: l) s'

/-- An empty cache. -/
def emptyCache : PCache where
  page _ := ⟨0, 0, false, false⟩
  links := ⟨fun _ => none, fun _ => none⟩
  pDirty := none
  pDirtyTail := none
  pSynced := none
  nRef := 0
  nPage := 0

/-! ### The invariant -/

/-- A page that need not be looked at for writing without a sync. -/
def Skipped (s : PCache) (x : ℕ) : Prop := 0 < (s.page x).nRef ∨ (s.page x).needSync = true

/-- The dirty list is `A ++ B`, and `pSynced` is the last page of `A`. -/
structure Listed (s : PCache) (A B : List ℕ) : Prop where
  list : s.links.IsList s.pDirty (A ++ B)
  tail : s.pDirtyTail = (A ++ B).getLast?
  synced : s.pSynced = A.getLast?
  outside : ∀ x, x ∉ A ++ B → s.links.next x = none ∧ s.links.prev x = none
  lt : ∀ x ∈ A ++ B, x < s.nPage

/-- **The dirty list is exact.** -/
structure Inv (s : PCache) : Prop where
  listed : ∃ A B, Listed s A B ∧ (∀ x, x ∈ A ++ B ↔ (s.page x).dirty = true) ∧
    ∀ x ∈ B, Skipped s x
  nRef : ∃ R : List ℕ, R.Nodup ∧ (∀ x, x ∈ R ↔ 0 < (s.page x).nRef) ∧ s.nRef = R.length
  lt : ∀ x, 0 < (s.page x).nRef → x < s.nPage
  pgno : ∀ x y, InUse s x → InUse s y → (s.page x).pgno = (s.page y).pgno → x = y
  range : ∀ x, 0 ≤ (s.page x).nRef ∧ (s.page x).nRef ≤ 32767

variable {s s' : PCache} {A B P Q : List ℕ} {x : ℕ}

/-! ### Walks -/

/-- A walk from the last page of `A` finds the last one at which it stops. -/
theorem walk_spec {links : Links ℕ} (stop : ℕ → Bool) (h : links.Seg none (A ++ B) none) {fuel : ℕ}
    (hfuel : A.length < fuel) : walk links stop fuel A.getLast? = A.reverse.find? stop := by
  obtain ⟨fuel, rfl⟩ : ∃ f, fuel = f + 1 := ⟨fuel - 1, by omega⟩
  induction A using List.reverseRecOn generalizing B fuel with
  | nil => rfl
  | append_singleton A y ih =>
    rw [List.append_assoc, List.singleton_append] at h
    obtain ⟨hprev, -⟩ := h.pointers
    rw [Option.or_none] at hprev
    rw [List.length_append, List.length_singleton] at hfuel
    rw [List.getLast?_concat, List.reverse_concat, walk, List.find?_cons]
    cases hstop : stop y with
    | true => rfl
    | false =>
      obtain ⟨fuel, rfl⟩ : ∃ f, fuel = f + 1 := ⟨fuel - 1, by omega⟩
      rw [if_neg Bool.false_ne_true, hprev]
      exact ih h fuel (by omega)

/-- The pages behind the one that is found. -/
theorem find_split (stop : ℕ → Bool) (A : List ℕ) :
    ∃ A₁ C, A = A₁ ++ C ∧ A.reverse.find? stop = A₁.getLast? ∧ (∀ c ∈ C, stop c = false) ∧
      ∀ y, A₁.getLast? = some y → stop y = true := by
  induction A using List.reverseRecOn with
  | nil => exact ⟨[], [], rfl, rfl, fun c hc => absurd hc List.not_mem_nil, fun y hy => by cases hy⟩
  | append_singleton A y ih =>
    rw [List.reverse_concat, List.find?_cons]
    cases hstop : stop y with
    | true =>
      refine ⟨A ++ [y], [], (List.append_nil _).symm, List.getLast?_concat.symm,
        fun c hc => absurd hc List.not_mem_nil, fun z hz => ?_⟩
      rw [List.getLast?_concat] at hz
      exact Option.some.inj hz ▸ hstop
    | false =>
      obtain ⟨A₁, C, rfl, hfind, hC, hlast⟩ := ih
      refine ⟨A₁, C ++ [y], by rw [List.append_assoc], hfind, fun c hc => ?_, hlast⟩
      rcases List.mem_append.mp hc with hc | hc
      · exact hC c hc
      · rw [List.mem_singleton.mp hc]
        exact hstop

/-! ### The list -/

theorem Listed.length_le (h : Listed s A B) : (A ++ B).length ≤ s.nPage := by
  have hsub : A ++ B ⊆ List.range s.nPage := fun y hy => List.mem_range.mpr (h.lt y hy)
  have hle := (h.list.nodup.subperm hsub).length_le
  rwa [List.length_range] at hle

theorem Listed.length_lt (h : Listed s A B) : A.length < s.nPage + 1 := by
  have hle := h.length_le
  rw [List.length_append] at hle
  omega

/-- What a removal does to the links. -/
theorem unlinked (hlist : s.links.IsList s.pDirty (P ++ x :: Q))
    (htail : s.pDirtyTail = (P ++ x :: Q).getLast?)
    (hout : ∀ y, y ∉ P ++ x :: Q → s.links.next y = none ∧ s.links.prev y = none) :
    (pcacheRemoveFromDirtyList s x).links.IsList (pcacheRemoveFromDirtyList s x).pDirty (P ++ Q) ∧
      (pcacheRemoveFromDirtyList s x).pDirtyTail = (P ++ Q).getLast? ∧
      ∀ y, y ∉ P ++ Q → (pcacheRemoveFromDirtyList s x).links.next y = none ∧
        (pcacheRemoveFromDirtyList s x).links.prev y = none := by
  obtain ⟨hprev, hnext⟩ := hlist.seg.pointers
  rw [Option.or_none] at hprev hnext
  have hperm : (P ++ x :: Q).Perm (x :: (P ++ Q)) := List.perm_middle
  obtain ⟨hx, hnodup⟩ := List.nodup_cons.mp (hperm.nodup_iff.mp hlist.nodup)
  refine ⟨⟨hnodup, ?_, ?_⟩, ?_, fun y hy => ?_⟩
  · rw [pcacheRemoveFromDirtyList]
    dsimp only
    rw [hprev, hnext, hlist.first]
    cases P with
    | nil => rfl
    | cons y P => rw [List.getLast?_cons, if_neg (Option.some_ne_none _)]; rfl
  · refine (hlist.seg.unlink hlist.nodup).congr fun y hy => ?_
    have hne : some x ≠ some y := fun h => hx (Option.some.inj h ▸ hy)
    rw [pcacheRemoveFromDirtyList]
    dsimp only
    rw [setPrev_next, setNext_next, if_neg hne, setPrev_prev, if_neg hne, setNext_prev]
    exact ⟨rfl, rfl⟩
  · rw [pcacheRemoveFromDirtyList]
    dsimp only
    rw [hprev, hnext, htail, List.getLast?_append, List.getLast?_append]
    cases Q with
    | nil => rfl
    | cons y Q =>
      rw [List.head?_cons, if_neg (Option.some_ne_none _), List.getLast?_cons_cons]
  · rw [pcacheRemoveFromDirtyList]
    dsimp only
    rw [setPrev_next, setNext_next, setPrev_prev, setNext_prev]
    by_cases hyx : y = x
    · subst hyx
      rw [if_pos rfl, if_pos rfl]
      exact ⟨rfl, rfl⟩
    · have hne : some x ≠ some y := fun h => hyx (Option.some.inj h).symm
      obtain ⟨hn, hp⟩ := hout y fun h => by
        rcases List.mem_cons.mp (hperm.mem_iff.mp h) with h | h
        · exact hyx h
        · exact hy h
      rw [List.mem_append, not_or] at hy
      have hneP : P.getLast? ≠ some y := fun h => hy.1 (List.mem_of_getLast? h)
      have hneQ : Q.head? ≠ some y := fun h => hy.2 (List.mem_of_mem_head? h)
      rw [if_neg hne, if_neg hne, unlink_next, unlink_prev, hprev, hnext, if_neg hneP, if_neg hneQ]
      exact ⟨hn, hp⟩

/-- **A removal**: the pages that come to stand behind `pSynced` need a sync. -/
theorem listed_remove (h : Listed s A B) (hx : x ∈ A ++ B) :
    ∃ A' B', Listed (pcacheRemoveFromDirtyList s x) A' B' ∧
      (∀ y, y ∈ A' ++ B' ↔ y ∈ A ++ B ∧ y ≠ x) ∧
      ∀ y ∈ B', y ∈ B ∨ (s.page y).needSync = true := by
  have hmem : ∀ {P Q : List ℕ}, A ++ B = P ++ x :: Q → ∀ y, y ∈ P ++ Q ↔ y ∈ A ++ B ∧ y ≠ x := by
    intro P Q heq y
    have hperm : (A ++ B).Perm (x :: (P ++ Q)) := heq ▸ List.perm_middle
    have hnotin := (List.nodup_cons.mp (hperm.nodup_iff.mp h.list.nodup)).1
    rw [hperm.mem_iff, List.mem_cons]
    constructor
    · exact fun hy => ⟨Or.inr hy, fun hyx => hnotin (hyx ▸ hy)⟩
    · rintro ⟨hy | hy, hne⟩
      · exact absurd hy hne
      · exact hy
  have hlisted : ∀ {A' B' P Q : List ℕ}, A ++ B = P ++ x :: Q → P ++ Q = A' ++ B' →
      (pcacheRemoveFromDirtyList s x).pSynced = A'.getLast? →
      Listed (pcacheRemoveFromDirtyList s x) A' B' := by
    intro A' B' P Q heq heq' hsynced
    obtain ⟨hlist, htail, hout⟩ := unlinked (heq ▸ h.list) (heq ▸ h.tail) (heq ▸ h.outside)
    exact ⟨heq' ▸ hlist, heq' ▸ htail, hsynced, heq' ▸ hout, fun y hy =>
      h.lt y ((hmem heq y).mp (heq' ▸ hy)).1⟩
  have hnodup := h.list.nodup
  rcases List.mem_append.mp hx with hxA | hxB
  · obtain ⟨A₁, A₂, rfl⟩ := List.append_of_mem hxA
    have heq : A₁ ++ x :: A₂ ++ B = A₁ ++ x :: (A₂ ++ B) := by
      rw [List.append_assoc, List.cons_append]
    cases A₂ with
    | nil =>
      -- the cursor goes back to a page that needs no sync
      have hlast : s.pSynced = some x := by rw [h.synced, List.getLast?_concat]
      have hseg := h.list.seg
      rw [heq, List.nil_append] at hseg
      obtain ⟨hprev, -⟩ := hseg.pointers
      rw [Option.or_none] at hprev
      have hlen : A₁.length < s.nPage + 1 := by
        have hle := h.length_lt
        rw [List.length_append, List.length_singleton] at hle
        omega
      obtain ⟨A', C, rfl, hfind, hC, -⟩ := find_split (fun y => !(s.page y).needSync) A₁
      refine ⟨A', C ++ B, hlisted heq (by rw [List.nil_append, List.append_assoc]) ?_, ?_, ?_⟩
      · rw [pcacheRemoveFromDirtyList]
        dsimp only
        rw [if_pos hlast, hprev, walk_spec _ hseg hlen, hfind]
      · intro y
        rw [← List.append_assoc]
        exact hmem (heq.trans (by rw [List.nil_append])) y
      · intro y hy
        rcases List.mem_append.mp hy with hy | hy
        · exact Or.inr (by have hstop := hC y hy; rwa [Bool.not_eq_false'] at hstop)
        · exact Or.inl hy
    | cons z A₂ =>
      have hlast : (A₁ ++ x :: z :: A₂).getLast? = (A₁ ++ z :: A₂).getLast? := by
        rw [List.getLast?_append, List.getLast?_append, List.getLast?_cons_cons]
      have hne : s.pSynced ≠ some x := by
        intro hsome
        rw [h.synced, List.getLast?_append, List.getLast?_cons_cons] at hsome
        have hin : x ∈ z :: A₂ := by
          cases hz : (z :: A₂).getLast? with
          | none => cases List.getLast?_eq_none_iff.mp hz
          | some w =>
            rw [hz] at hsome
            exact Option.some.inj hsome ▸ List.mem_of_getLast? hz
        have hcons := (List.nodup_append.mp (List.nodup_append.mp hnodup).1).2.1
        exact (List.nodup_cons.mp hcons).1 hin
      refine ⟨A₁ ++ z :: A₂, B, hlisted heq (by rw [List.append_assoc]) ?_, ?_,
        fun y hy => Or.inl hy⟩
      · rw [pcacheRemoveFromDirtyList]
        dsimp only
        rw [if_neg hne, h.synced, hlast]
      · intro y
        rw [List.append_assoc]
        exact hmem heq y
  · obtain ⟨B₁, B₂, rfl⟩ := List.append_of_mem hxB
    have heq : A ++ (B₁ ++ x :: B₂) = (A ++ B₁) ++ x :: B₂ := (List.append_assoc _ _ _).symm
    have hne : s.pSynced ≠ some x := by
      intro hsome
      rw [h.synced] at hsome
      exact (List.nodup_append.mp hnodup).2.2 x (List.mem_of_getLast? hsome) x hxB rfl
    refine ⟨A, B₁ ++ B₂, hlisted heq (List.append_assoc _ _ _) ?_, ?_, fun y hy => Or.inl ?_⟩
    · rw [pcacheRemoveFromDirtyList]
      dsimp only
      rw [if_neg hne, h.synced]
    · intro y
      rw [← List.append_assoc]
      exact hmem heq y
    · rcases List.mem_append.mp hy with hy | hy
      · exact List.mem_append_left _ hy
      · exact List.mem_append_right _ (List.mem_cons_of_mem _ hy)

/-- **A page is put in front.** -/
theorem listed_add (h : Listed s A B) (hx : x ∉ A ++ B) (hlt : x < s.nPage) :
    ∃ A' B', Listed (pcacheAddToDirtyList s x) A' B' ∧ A' ++ B' = x :: (A ++ B) ∧
      ∀ y ∈ B', y ∈ B ∨ (y = x ∧ (s.page x).needSync = true) := by
  obtain ⟨-, hprevx⟩ := h.outside x hx
  have hhead : s.pDirty ≠ some x := fun heq =>
    hx (List.mem_of_mem_head? (h.list.first ▸ heq : (A ++ B).head? = some x))
  have hlisted : ∀ {A' B' : List ℕ}, A' ++ B' = x :: (A ++ B) →
      (pcacheAddToDirtyList s x).pSynced = A'.getLast? →
      Listed (pcacheAddToDirtyList s x) A' B' := by
    intro A' B' heq hsynced
    refine ⟨⟨?_, ?_, ?_⟩, ?_, hsynced, fun y hy => ?_, fun y hy => ?_⟩
    · rw [heq]
      exact List.nodup_cons.mpr ⟨hx, h.list.nodup⟩
    · rw [heq]
      rfl
    · rw [heq]
      refine ⟨?_, ?_, h.list.seg.setFirst h.list.nodup (fun y hy => ?_) (fun y hy hfirst => ?_)
        (fun y hy hfirst => ?_)⟩
      · rw [pcacheAddToDirtyList, setPrev_prev, if_neg hhead, setNext_prev, hprevx]
      · rw [pcacheAddToDirtyList, setPrev_next, setNext_next, if_pos rfl, Option.or_none,
          h.list.first]
      · have hne : some x ≠ some y := fun heq => hx (Option.some.inj heq ▸ hy)
        rw [pcacheAddToDirtyList, setPrev_next, setNext_next, if_neg hne]
      · rw [pcacheAddToDirtyList, setPrev_prev, h.list.first, if_pos hfirst]
      · rw [pcacheAddToDirtyList, setPrev_prev, h.list.first, if_neg hfirst, setNext_prev]
    · rw [pcacheAddToDirtyList, heq, h.tail]
      dsimp only
      cases hL : A ++ B with
      | nil => rfl
      | cons y L =>
        rw [List.getLast?_cons_cons, List.getLast?_cons, if_neg (Option.some_ne_none _)]
    · rw [heq, List.mem_cons, not_or] at hy
      have hne : some x ≠ some y := fun heq => hy.1 (Option.some.inj heq).symm
      have hfirst : s.pDirty ≠ some y := fun heq =>
        hy.2 (List.mem_of_mem_head? (h.list.first ▸ heq : (A ++ B).head? = some y))
      rw [pcacheAddToDirtyList]
      dsimp only
      rw [setPrev_next, setNext_next, if_neg hne, setPrev_prev, if_neg hfirst, setNext_prev]
      exact h.outside y hy.2
    · rw [heq, List.mem_cons] at hy
      rcases hy with rfl | hy
      · exact hlt
      · exact h.lt y hy
  have hsynced := h.synced
  cases A with
  | cons a A =>
    have hne : s.pSynced ≠ none := by
      rw [hsynced, List.getLast?_cons]
      exact Option.some_ne_none _
    refine ⟨x :: a :: A, B, hlisted rfl ?_, rfl, fun y hy => Or.inl hy⟩
    rw [pcacheAddToDirtyList, List.getLast?_cons_cons]
    dsimp only
    rw [if_neg fun hif => hne hif.1, hsynced]
  | nil =>
    by_cases hsync : (s.page x).needSync = true
    · refine ⟨[], x :: B, hlisted rfl ?_, rfl, fun y hy => ?_⟩
      · rw [pcacheAddToDirtyList]
        dsimp only
        rw [if_neg fun hif => Bool.false_ne_true (hif.2.symm.trans hsync), hsynced]
      · rcases List.mem_cons.mp hy with rfl | hy
        · exact Or.inr ⟨rfl, hsync⟩
        · exact Or.inl hy
    · refine ⟨[x], B, hlisted rfl ?_, rfl, fun y hy => Or.inl hy⟩
      rw [pcacheAddToDirtyList]
      dsimp only
      rw [if_pos ⟨hsynced, Bool.eq_false_iff.mpr hsync⟩]
      rfl

/-- A page is taken out and put in front again. -/
theorem listed_touch (h : Listed s A B) (hx : x ∈ A ++ B) :
    ∃ A' B', Listed (pcacheAddToDirtyList (pcacheRemoveFromDirtyList s x) x) A' B' ∧
      (∀ y, y ∈ A' ++ B' ↔ y ∈ A ++ B) ∧
      ∀ y ∈ B', (y ∈ B ∧ y ≠ x) ∨ (s.page y).needSync = true := by
  obtain ⟨A₁, B₁, h₁, hmem, hB₁⟩ := listed_remove h hx
  have hnotin : x ∉ A₁ ++ B₁ := fun hin => ((hmem x).mp hin).2 rfl
  obtain ⟨A₂, B₂, h₂, heq, hB₂⟩ := listed_add h₁ hnotin (h.lt x hx)
  refine ⟨A₂, B₂, h₂, fun y => ?_, fun y hy => ?_⟩
  · rw [heq, List.mem_cons, hmem]
    constructor
    · rintro (rfl | hy)
      · exact hx
      · exact hy.1
    · intro hy
      by_cases hyx : y = x
      · exact Or.inl hyx
      · exact Or.inr ⟨hy, hyx⟩
  · rcases hB₂ y hy with hy₁ | ⟨rfl, hsync⟩
    · have hne : y ≠ x := fun hyx => hnotin (hyx ▸ List.mem_append_right A₁ hy₁)
      exact (hB₁ y hy₁).imp (fun hyB => ⟨hyB, hne⟩) id
    · exact Or.inr hsync

/-- The list does not depend on the pages. -/
theorem Listed.congr (h : Listed s A B) (hlinks : s'.links = s.links)
    (hfirst : s'.pDirty = s.pDirty) (htail : s'.pDirtyTail = s.pDirtyTail)
    (hsynced : s'.pSynced = s.pSynced)
    (hle : s.nPage ≤ s'.nPage) : Listed s' A B := by
  refine ⟨?_, htail.trans h.tail, hsynced.trans h.synced, ?_, fun y hy => (h.lt y hy).trans_le hle⟩
  · rw [hlinks, hfirst]
    exact h.list
  · rw [hlinks]
    exact h.outside

/-! ### References -/

/-- `nRef` is the number of pages that are referenced. -/
def Counted (s : PCache) : Prop :=
  ∃ R : List ℕ, R.Nodup ∧ (∀ x, x ∈ R ↔ 0 < (s.page x).nRef) ∧ s.nRef = R.length

theorem Counted.congr (h : Counted s) (hpage : ∀ y, 0 < (s'.page y).nRef ↔ 0 < (s.page y).nRef)
    (hn : s'.nRef = s.nRef) : Counted s' := by
  obtain ⟨R, hnodup, hR, hlen⟩ := h
  exact ⟨R, hnodup, fun y => (hR y).trans (hpage y).symm, hn.trans hlen⟩

theorem Counted.add (h : Counted s) (hx : (s.page x).nRef = 0)
    (hpage : ∀ y, 0 < (s'.page y).nRef ↔ y = x ∨ 0 < (s.page y).nRef)
    (hn : s'.nRef = s.nRef + 1) : Counted s' := by
  obtain ⟨R, hnodup, hR, hlen⟩ := h
  have hnotin : x ∉ R := fun hin => by
    have hpos := (hR x).mp hin
    omega
  refine ⟨x :: R, List.nodup_cons.mpr ⟨hnotin, hnodup⟩, fun y => ?_, ?_⟩
  · rw [List.mem_cons, hR, hpage]
  · rw [hn, hlen, List.length_cons]

theorem Counted.remove (h : Counted s) (hx : 0 < (s.page x).nRef)
    (hpage : ∀ y, 0 < (s'.page y).nRef ↔ 0 < (s.page y).nRef ∧ y ≠ x)
    (hn : s'.nRef = s.nRef - 1) : Counted s' := by
  obtain ⟨R, hnodup, hR, hlen⟩ := h
  refine ⟨R.erase x, hnodup.erase x, fun y => ?_, ?_⟩
  · rw [hnodup.mem_erase_iff, hR, hpage, and_comm]
  · rw [hn, hlen, List.length_erase_of_mem ((hR x).mpr hx)]

/-! ### The operations -/

theorem i16_eq {n : ℤ} (h : -32768 ≤ n) (h' : n ≤ 32767) : i16 n = n :=
  Int.bmod_eq_of_le (by omega) (by omega)

theorem setPage_page (s : PCache) (x : ℕ) (p : PgHdr) (y : ℕ) :
    (s.setPage x p).page y = if y = x then p else s.page y := by
  rw [PCache.setPage]
  exact Function.update_apply _ _ _ _

theorem inv_emptyCache : Inv emptyCache := by
  refine ⟨⟨[], [], ⟨⟨List.nodup_nil, rfl, trivial⟩, rfl, rfl, fun x _ => ⟨rfl, rfl⟩,
    fun x hx => absurd hx List.not_mem_nil⟩, fun x => ?_, fun x hx => absurd hx List.not_mem_nil⟩,
    ⟨[], List.nodup_nil, fun x => ?_, rfl⟩, fun x hx => ?_, fun x y hx => ?_, fun x => ?_⟩
  · exact iff_of_false List.not_mem_nil Bool.false_ne_true
  · exact iff_of_false List.not_mem_nil (lt_irrefl 0)
  · exact absurd hx (lt_irrefl 0)
  · exact absurd hx (not_or.mpr ⟨Bool.false_ne_true, lt_irrefl 0⟩)
  · exact ⟨le_rfl, (by decide : (0 : ℤ) ≤ 32767)⟩

/-- The search changes the cursor only. -/
theorem inv_stress (h : Inv s) : Inv (fetchStress s).1 := by
  obtain ⟨A, B, hlisted, hdirty, hB⟩ := h.listed
  refine ⟨?_, h.nRef, h.lt, h.pgno, h.range⟩
  obtain ⟨A₁, C, rfl, hfind, hC, -⟩ := find_split
    (fun y => decide ((s.page y).nRef = 0) && !(s.page y).needSync) A
  refine ⟨A₁, C ++ B, ⟨?_, ?_, ?_, ?_, ?_⟩, ?_, fun y hy => ?_⟩
  · rw [← List.append_assoc]
    exact hlisted.list
  · rw [← List.append_assoc]
    exact hlisted.tail
  · rw [fetchStress]
    dsimp only
    rw [hlisted.synced, walk_spec _ hlisted.list.seg hlisted.length_lt, hfind]
  · rw [← List.append_assoc]
    exact hlisted.outside
  · rw [← List.append_assoc]
    exact hlisted.lt
  · rw [← List.append_assoc]
    exact hdirty
  · rcases List.mem_append.mp hy with hy | hy
    · have hstop := hC y hy
      rw [Bool.and_eq_false_iff, decide_eq_false_iff_not, Bool.not_eq_false'] at hstop
      exact hstop.imp (fun hne => lt_of_le_of_ne (h.range y).1 (Ne.symm hne)) id
    · exact hB y hy

/-- **The page that is chosen**: it is dirty and not referenced, and it needs a sync only if all
such pages do. -/
theorem fetchStress_spec (h : Inv s) {pPg : ℕ} (hpage : (fetchStress s).2 = some pPg) :
    (s.page pPg).dirty = true ∧ (s.page pPg).nRef = 0 ∧
      ((s.page pPg).needSync = true →
        ∀ y, (s.page y).dirty = true → (s.page y).nRef = 0 → (s.page y).needSync = true) := by
  obtain ⟨A, B, hlisted, hdirty, hB⟩ := h.listed
  have hseg : s.links.Seg none ((A ++ B) ++ []) none := by
    rw [List.append_nil]
    exact hlisted.list.seg
  rw [fetchStress] at hpage
  dsimp only at hpage
  rw [hlisted.synced, walk_spec _ hlisted.list.seg hlisted.length_lt, hlisted.tail,
    walk_spec _ hseg (Nat.lt_succ_of_le hlisted.length_le)] at hpage
  split at hpage
  · -- every page up to the cursor is referenced or needs a sync
    rename_i hnone
    have hstop := List.find?_some hpage
    rw [decide_eq_true_eq] at hstop
    have hmem := List.mem_reverse.mp (List.mem_of_find?_eq_some hpage)
    refine ⟨(hdirty pPg).mp hmem, hstop, fun _ y hy hzero => ?_⟩
    rcases List.mem_append.mp ((hdirty y).mpr hy) with hyA | hyB
    · have hnot := List.find?_eq_none.mp hnone y (List.mem_reverse.mpr hyA)
      simp only [hzero, decide_true, Bool.true_and, Bool.not_eq_true', Bool.not_eq_false] at hnot
      exact hnot
    · rcases hB y hyB with hpos | hsync
      · omega
      · exact hsync
  · have hstop := List.find?_some hpage
    rw [Bool.and_eq_true, decide_eq_true_eq, Bool.not_eq_true'] at hstop
    have hmem := List.mem_reverse.mp (List.mem_of_find?_eq_some hpage)
    refine ⟨(hdirty pPg).mp (List.mem_append_left B hmem), hstop.1, fun hsync => ?_⟩
    rw [hstop.2] at hsync
    cases hsync

/-- The pages change, and the list does not. -/
theorem Inv.listed_congr (h : Inv s) (hlinks : s'.links = s.links) (hfirst : s'.pDirty = s.pDirty)
    (htail : s'.pDirtyTail = s.pDirtyTail) (hsynced : s'.pSynced = s.pSynced)
    (hle : s.nPage ≤ s'.nPage) (hdirty : ∀ y, (s'.page y).dirty = (s.page y).dirty)
    (hskip : ∀ y, (s.page y).dirty = true → Skipped s y → Skipped s' y) :
    ∃ A B, Listed s' A B ∧ (∀ y, y ∈ A ++ B ↔ (s'.page y).dirty = true) ∧
      ∀ y ∈ B, Skipped s' y := by
  obtain ⟨A, B, hlisted, hmem, hB⟩ := h.listed
  refine ⟨A, B, hlisted.congr hlinks hfirst htail hsynced hle, fun y => ?_, fun y hy => ?_⟩
  · rw [hmem, hdirty]
  · exact hskip y ((hmem y).mp (List.mem_append_right A hy)) (hB y hy)

/-- A page in use stays in use, perhaps with another number. -/
theorem inv_setPage (h : Inv s) {p : PgHdr} (hx : 0 < (s.page x).nRef) (hpos : 0 < p.nRef)
    (hmax : p.nRef ≤ 32767) (hdirty : p.dirty = (s.page x).dirty)
    (hpgno : ∀ y, InUse s y → y ≠ x → (s.page y).pgno ≠ p.pgno) : Inv (s.setPage x p) := by
  have hiff : ∀ y, 0 < ((s.setPage x p).page y).nRef ↔ 0 < (s.page y).nRef := by
    intro y
    rw [setPage_page]
    split
    · rename_i hyx
      subst hyx
      exact iff_of_true hpos hx
    · exact Iff.rfl
  have hd : ∀ y, ((s.setPage x p).page y).dirty = (s.page y).dirty := by
    intro y
    rw [setPage_page]
    split
    · rename_i hyx
      rw [hyx, hdirty]
    · rfl
  have huse : ∀ y, InUse (s.setPage x p) y → InUse s y := by
    intro y hy
    rwa [InUse, hd, hiff] at hy
  refine ⟨h.listed_congr rfl rfl rfl rfl le_rfl hd fun y _ hy => ?_,
    Counted.congr (s := s) h.nRef hiff rfl, fun y hy => h.lt y ((hiff y).mp hy),
    fun y z hy hz heq => ?_, fun y => ?_⟩
  · rw [Skipped, setPage_page]
    split
    · exact Or.inl hpos
    · exact hy
  · have hy' := huse y hy
    have hz' := huse z hz
    rw [setPage_page, setPage_page] at heq
    split at heq <;> rename_i hyx <;> split at heq <;> rename_i hzx
    · exact hyx.trans hzx.symm
    · exact absurd heq.symm (hpgno z hz' hzx)
    · exact absurd heq (hpgno y hy' hyx)
    · exact h.pgno y z hy' hz' heq
  · rw [setPage_page]
    split
    · exact ⟨hpos.le, hmax⟩
    · exact h.range y

/-- No other page has its number. -/
theorem Inv.pgno_ne (h : Inv s) (hx : InUse s x) :
    ∀ y, InUse s y → y ≠ x → (s.page y).pgno ≠ (s.page x).pgno :=
  fun y hy hne heq => hne (h.pgno y x hy hx heq)

theorem Inv.i16_add (h : Inv s) (hx : (s.page x).nRef ≠ 32767) :
    i16 ((s.page x).nRef + 1) = (s.page x).nRef + 1 ∧ (s.page x).nRef + 1 ≤ 32767 := by
  have hrange := h.range x
  exact ⟨i16_eq (by omega) (by omega), by omega⟩

theorem Inv.i16_sub (h : Inv s) : i16 ((s.page x).nRef - 1) = (s.page x).nRef - 1 := by
  have hrange := h.range x
  exact i16_eq (by omega) (by omega)

theorem inv_ref (h : Inv s) (hx : 0 < (s.page x).nRef) (hmax : (s.page x).nRef ≠ 32767) :
    Inv (sqlite3PcacheRef s x) := by
  obtain ⟨heq, hle⟩ := h.i16_add hmax
  rw [sqlite3PcacheRef, heq]
  exact inv_setPage h hx (by dsimp only; omega) hle rfl (h.pgno_ne (Or.inr hx))

theorem inv_setNeedSync (h : Inv s) (hx : 0 < (s.page x).nRef) (b : Bool) :
    Inv (setNeedSync s x b) :=
  inv_setPage h hx hx (h.range x).2 rfl (h.pgno_ne (Or.inr hx))

/-- The list is put in order again when a page is taken out and put in front. -/
theorem inv_touch (h : Inv s) (hx : (s.page x).dirty = true) :
    Inv (pcacheAddToDirtyList (pcacheRemoveFromDirtyList s x) x) := by
  obtain ⟨A, B, hlisted, hmem, hB⟩ := h.listed
  obtain ⟨A', B', hlisted', hmem', hB'⟩ := listed_touch hlisted ((hmem x).mpr hx)
  refine ⟨⟨A', B', hlisted', fun y => (hmem' y).trans (hmem y), fun y hy => ?_⟩, h.nRef, h.lt,
    h.pgno, h.range⟩
  rcases hB' y hy with ⟨hyB, -⟩ | hsync
  · exact hB y hyB
  · exact Or.inr hsync

theorem inv_move (h : Inv s) {newPgno : ℕ} (hx : 0 < (s.page x).nRef)
    (hpgno : ∀ y, InUse s y → y ≠ x → (s.page y).pgno ≠ newPgno) :
    Inv (sqlite3PcacheMove s x newPgno) := by
  have hset : Inv (s.setPage x { s.page x with pgno := newPgno }) :=
    inv_setPage h hx hx (h.range x).2 rfl hpgno
  rw [sqlite3PcacheMove]
  dsimp only
  split
  · rename_i hif
    exact inv_touch hset hif.1
  · exact hset

/-- The pages in use become fewer, or stay. -/
theorem Inv.fewer (h : Inv s)
    (hlisted : ∃ A B, Listed s' A B ∧ (∀ y, y ∈ A ++ B ↔ (s'.page y).dirty = true) ∧
      ∀ y ∈ B, Skipped s' y)
    (hcount : Counted s') (hnPage : s'.nPage = s.nPage)
    (href : ∀ y, 0 < (s'.page y).nRef → 0 < (s.page y).nRef)
    (huse : ∀ y, InUse s' y → InUse s y) (hpgno : ∀ y, (s'.page y).pgno = (s.page y).pgno)
    (hrange : ∀ y, (s'.page y).nRef = (s.page y).nRef ∨
      0 ≤ (s'.page y).nRef ∧ (s'.page y).nRef ≤ (s.page y).nRef) :
    Inv s' := by
  refine ⟨hlisted, hcount, fun y hy => ?_, fun y z hy hz heq => ?_, fun y => ?_⟩
  · rw [hnPage]
    exact h.lt y (href y hy)
  · rw [hpgno, hpgno] at heq
    exact h.pgno y z (huse y hy) (huse z hz) heq
  · have hle := h.range y
    have hle' := hrange y
    omega

/-- A page is taken out of the list and is not dirty any more. -/
theorem listed_clean (h : Inv s) (hx : (s.page x).dirty = true)
    (hlinks : s'.links = (pcacheRemoveFromDirtyList s x).links)
    (hfirst : s'.pDirty = (pcacheRemoveFromDirtyList s x).pDirty)
    (htail : s'.pDirtyTail = (pcacheRemoveFromDirtyList s x).pDirtyTail)
    (hsynced : s'.pSynced = (pcacheRemoveFromDirtyList s x).pSynced) (hnPage : s'.nPage = s.nPage)
    (hpage : ∀ y, y ≠ x → s'.page y = s.page y) (hclean : (s'.page x).dirty = false) :
    ∃ A B, Listed s' A B ∧ (∀ y, y ∈ A ++ B ↔ (s'.page y).dirty = true) ∧
      ∀ y ∈ B, Skipped s' y := by
  obtain ⟨A, B, hlisted, hmem, hB⟩ := h.listed
  obtain ⟨A', B', hlisted', hmem', hB'⟩ := listed_remove hlisted ((hmem x).mpr hx)
  refine ⟨A', B', hlisted'.congr hlinks hfirst htail hsynced (le_of_eq hnPage.symm), fun y => ?_,
    fun y hy => ?_⟩
  · rw [hmem', hmem]
    by_cases hyx : y = x
    · rw [hyx, hclean]
      exact iff_of_false (fun hy => hy.2 rfl) Bool.false_ne_true
    · rw [hpage y hyx]
      exact and_iff_left hyx
  · rw [Skipped, hpage y ((hmem' y).mp (List.mem_append_right A' hy)).2]
    rcases hB' y hy with hyB | hsync
    · exact hB y hyB
    · exact Or.inr hsync

theorem inv_makeClean (h : Inv s) (x : ℕ) : Inv (sqlite3PcacheMakeClean s x) := by
  rw [sqlite3PcacheMakeClean]
  split
  · rename_i hx
    generalize hs' : (pcacheRemoveFromDirtyList s x).setPage x
      { s.page x with dirty := false, needSync := false } = s'
    have hpage : ∀ y, s'.page y =
        if y = x then { s.page x with dirty := false, needSync := false } else s.page y :=
      fun y => hs' ▸ setPage_page _ _ _ y
    have href : ∀ y, (s'.page y).nRef = (s.page y).nRef := by
      intro y
      by_cases hyx : y = x
      · rw [hyx, hpage, if_pos rfl]
      · rw [hpage, if_neg hyx]
    refine h.fewer (listed_clean h hx ?_ ?_ ?_ ?_ ?_ (fun y hy => ?_) ?_)
      (Counted.congr (s := s) h.nRef (fun y => by rw [href]) ?_) ?_ (fun y hy => by rwa [← href])
      (fun y hy => ?_) (fun y => ?_) fun y => Or.inl (href y)
    any_goals (subst hs'; rfl)
    · rw [hpage, if_neg hy]
    · rw [hpage, if_pos rfl]
    · rw [InUse, hpage] at hy
      split at hy
      · rename_i hyx
        exact hyx ▸ Or.inl hx
      · exact hy
    · by_cases hyx : y = x
      · rw [hyx, hpage, if_pos rfl]
      · rw [hpage, if_neg hyx]
  · exact h

theorem inv_cleanLoop (fuel : ℕ) : ∀ s, Inv s → Inv (cleanLoop fuel s) := by
  induction fuel with
  | zero => exact fun s h => h
  | succ fuel ih =>
    intro s h
    rw [cleanLoop]
    split
    · exact h
    · exact ih _ (inv_makeClean h _)

/-- What the loop over the list leaves alone. -/
theorem foldl_clearSync (l : List ℕ) (s : PCache) :
    ∃ page : ℕ → PgHdr, l.foldl (fun s x => s.setPage x { s.page x with needSync := false }) s =
        { s with page := page } ∧
      ∀ y, (page y).dirty = (s.page y).dirty ∧ (page y).nRef = (s.page y).nRef ∧
        (page y).pgno = (s.page y).pgno := by
  induction l generalizing s with
  | nil => exact ⟨s.page, rfl, fun y => ⟨rfl, rfl, rfl⟩⟩
  | cons x l ih =>
    obtain ⟨page, heq, hpage⟩ := ih (s.setPage x { s.page x with needSync := false })
    refine ⟨page, by rw [List.foldl_cons, heq]; rfl, fun y => ?_⟩
    obtain ⟨hd, hn, hp⟩ := hpage y
    rw [hd, hn, hp, setPage_page]
    split
    · rename_i hyx
      subst hyx
      exact ⟨rfl, rfl, rfl⟩
    · exact ⟨rfl, rfl, rfl⟩

theorem inv_clearSyncFlags (h : Inv s) : Inv (sqlite3PcacheClearSyncFlags s) := by
  obtain ⟨page, heq, hpage⟩ := foldl_clearSync (s.links.follow (s.nPage + 1) s.pDirty) s
  obtain ⟨A, B, hlisted, hmem, -⟩ := h.listed
  rw [sqlite3PcacheClearSyncFlags, heq]
  have hnil : A ++ B ++ [] = A ++ B := List.append_nil _
  refine h.fewer ⟨A ++ B, [], ⟨?_, ?_, hlisted.tail, ?_, ?_⟩, fun y => ?_,
    fun y hy => absurd hy List.not_mem_nil⟩
    (Counted.congr (s := s) h.nRef (fun y => by rw [(hpage y).2.1]) rfl) rfl
    (fun y hy => by rwa [← (hpage y).2.1]) (fun y hy => ?_) (fun y => (hpage y).2.2)
    fun y => Or.inl (hpage y).2.1
  · rw [hnil]
    exact hlisted.list
  · rw [hnil]
    exact hlisted.tail
  · rw [hnil]
    exact hlisted.outside
  · rw [hnil]
    exact hlisted.lt
  · rw [hnil, hmem, (hpage y).1]
  · rwa [InUse, (hpage y).1, (hpage y).2.1] at hy

theorem inv_makeDirty (h : Inv s) (hx : 0 < (s.page x).nRef) :
    Inv (sqlite3PcacheMakeDirty s x) := by
  rw [sqlite3PcacheMakeDirty]
  split
  · exact h
  · rename_i hclean
    obtain ⟨A, B, hlisted, hmem, hB⟩ := h.listed
    generalize hs' : s.setPage x { s.page x with dirty := true } = s'
    have hpage : ∀ y, s'.page y = if y = x then { s.page x with dirty := true } else s.page y :=
      fun y => hs' ▸ setPage_page _ _ _ y
    have hlisted' : Listed s' A B := by
      subst hs'
      exact hlisted.congr rfl rfl rfl rfl le_rfl
    have href : ∀ y, (s'.page y).nRef = (s.page y).nRef := by
      intro y
      by_cases hyx : y = x
      · rw [hyx, hpage, if_pos rfl]
      · rw [hpage, if_neg hyx]
    have hnotin : x ∉ A ++ B := fun hin => hclean ((hmem x).mp hin)
    have hnPage : s'.nPage = s.nPage := by
      subst hs'
      rfl
    obtain ⟨A', B', hlisted'', heq, hB'⟩ :=
      listed_add hlisted' hnotin (hnPage.symm ▸ h.lt x hx)
    refine h.fewer ⟨A', B', hlisted'', fun y => ?_, fun y hy => ?_⟩
      (Counted.congr (s := s) h.nRef (fun y => ?_) ?_) hnPage (fun y hy => ?_) (fun y hy => ?_)
      (fun y => ?_) fun y => Or.inl (href y)
    · rw [heq, List.mem_cons, hmem]
      change _ ↔ (s'.page y).dirty = true
      rw [hpage]
      split
      · rename_i hyx
        exact iff_of_true (Or.inl hyx) rfl
      · rename_i hyx
        exact or_iff_right hyx
    · rcases hB' y hy with hyB | ⟨hyx, hsync⟩
      · have hne : y ≠ x := fun hyx => hnotin (hyx ▸ List.mem_append_right A hyB)
        have hskip := hB y hyB
        change 0 < (s'.page y).nRef ∨ (s'.page y).needSync = true
        rw [hpage, if_neg hne]
        exact hskip
      · rw [hyx]
        exact Or.inr hsync
    · change 0 < (s'.page y).nRef ↔ _
      rw [href]
    · subst hs'
      rfl
    · change 0 < (s'.page y).nRef at hy
      rwa [← href]
    · change (s'.page y).dirty = true ∨ 0 < (s'.page y).nRef at hy
      rw [hpage] at hy
      split at hy
      · rename_i hyx
        exact hyx ▸ Or.inr hx
      · exact hy
    · change (s'.page y).pgno = _
      by_cases hyx : y = x
      · rw [hyx, hpage, if_pos rfl]
      · rw [hpage, if_neg hyx]

/-- A reference goes, and the page is not in use any more or only dirty. -/
theorem counted_unref (h : Inv s) (hx : 0 < (s.page x).nRef)
    (hpage : ∀ y, y ≠ x → (s'.page y).nRef = (s.page y).nRef) (hzero : (s'.page x).nRef = 0)
    (hn : s'.nRef = s.nRef - 1) : Counted s' := by
  refine Counted.remove (s := s) h.nRef hx (fun y => ?_) hn
  by_cases hyx : y = x
  · rw [hyx, hzero]
    exact iff_of_false (lt_irrefl 0) fun hy => hy.2 rfl
  · rw [hpage y hyx]
    exact (and_iff_left hyx).symm

/-- The state after the last reference to a page. -/
def unref (s : PCache) (x : ℕ) : PCache :=
  { s.setPage x { s.page x with nRef := i16 ((s.page x).nRef - 1) } with nRef := s.nRef - 1 }

theorem sqlite3PcacheRelease_eq (s : PCache) (x : ℕ) :
    sqlite3PcacheRelease s x =
      if i16 ((s.page x).nRef - 1) = 0 then
        if (s.page x).dirty = true then
          pcacheAddToDirtyList (pcacheRemoveFromDirtyList (unref s x) x) x
        else unref s x
      else s.setPage x { s.page x with nRef := i16 ((s.page x).nRef - 1) } := by
  rw [sqlite3PcacheRelease]
  dsimp only
  rw [setPage_page, if_pos rfl]
  rfl

theorem inv_release (h : Inv s) (hx : 0 < (s.page x).nRef) : Inv (sqlite3PcacheRelease s x) := by
  have hrangex := h.range x
  have hsub := h.i16_sub (x := x)
  rw [sqlite3PcacheRelease_eq]
  split
  · rename_i hzero
    obtain ⟨A, B, hlisted, hmem, hB⟩ := h.listed
    generalize hs' : unref s x = s'
    have hpage : ∀ y, y ≠ x → s'.page y = s.page y := by
      intro y hy
      subst hs'
      exact (setPage_page _ _ _ _).trans (if_neg hy)
    have hpagex : s'.page x = { s.page x with nRef := 0 } := by
      rw [← hzero, ← hs']
      exact (setPage_page _ _ _ _).trans (if_pos rfl)
    have hd : ∀ y, (s'.page y).dirty = (s.page y).dirty := by
      intro y
      by_cases hyx : y = x
      · rw [hyx, hpagex]
      · rw [hpage y hyx]
    have hpgno : ∀ y, (s'.page y).pgno = (s.page y).pgno := by
      intro y
      by_cases hyx : y = x
      · rw [hyx, hpagex]
      · rw [hpage y hyx]
    have href : ∀ y, 0 < (s'.page y).nRef → 0 < (s.page y).nRef := by
      intro y hy
      by_cases hyx : y = x
      · exact hyx ▸ hx
      · rwa [hpage y hyx] at hy
    have huse : ∀ y, InUse s' y → InUse s y := fun y hy => hy.imp (fun hy => hd y ▸ hy) (href y)
    have hrange : ∀ y, (s'.page y).nRef = (s.page y).nRef ∨
        0 ≤ (s'.page y).nRef ∧ (s'.page y).nRef ≤ (s.page y).nRef := by
      intro y
      by_cases hyx : y = x
      · rw [hyx, hpagex]
        exact Or.inr ⟨le_rfl, hrangex.1⟩
      · exact Or.inl (by rw [hpage y hyx])
    have hlisted' : Listed s' A B := by
      subst hs'
      exact hlisted.congr rfl rfl rfl rfl le_rfl
    have hcount : Counted s' := by
      refine counted_unref h hx (fun y hy => by rw [hpage y hy]) (by rw [hpagex]) ?_
      subst hs'
      rfl
    have hnPage : s'.nPage = s.nPage := by
      subst hs'
      rfl
    split
    · rename_i hdirty
      obtain ⟨A', B', hlisted'', hmem', hB'⟩ := listed_touch hlisted' ((hmem x).mpr hdirty)
      refine h.fewer ⟨A', B', hlisted'', fun y => ?_, fun y hy => ?_⟩ hcount hnPage href huse hpgno hrange
      · rw [hmem', hmem, ← hd]
        exact Iff.rfl
      · rcases hB' y hy with ⟨hyB, hyx⟩ | hsync
        · have hskip := hB y hyB
          rw [Skipped, ← hpage y hyx] at hskip
          exact hskip
        · exact Or.inr hsync
    · rename_i hclean
      refine h.fewer ⟨A, B, hlisted', fun y => ?_, fun y hy => ?_⟩ hcount hnPage href huse hpgno hrange
      · rw [hmem, hd]
      · have hyd := (hmem y).mp (List.mem_append_right A hy)
        have hyx : y ≠ x := fun hyx => hclean (hyx ▸ hyd)
        rw [Skipped, hpage y hyx]
        exact hB y hy
  · rename_i hpos
    rw [hsub] at hpos ⊢
    exact inv_setPage h hx (by dsimp only; omega) (by dsimp only; omega) rfl
      (h.pgno_ne (Or.inr hx))

theorem inv_drop (h : Inv s) (hx : (s.page x).nRef = 1) : Inv (sqlite3PcacheDrop s x) := by
  have hpos : 0 < (s.page x).nRef := by omega
  generalize hs' : sqlite3PcacheDrop s x = s'
  have hbase :
      (if (s.page x).dirty = true then pcacheRemoveFromDirtyList s x else s).page = s.page ∧
      (if (s.page x).dirty = true then pcacheRemoveFromDirtyList s x else s).nRef = s.nRef ∧
      (if (s.page x).dirty = true then pcacheRemoveFromDirtyList s x else s).nPage = s.nPage := by
    split <;> exact ⟨rfl, rfl, rfl⟩
  rw [sqlite3PcacheDrop] at hs'
  dsimp only at hs'
  have hpage : ∀ y, s'.page y =
      if y = x then { s.page x with nRef := 0, dirty := false } else s.page y := by
    intro y
    rw [← hs', setPage_page, hbase.1]
  have hn : s'.nRef = s.nRef - 1 := by
    rw [← hs', ← hbase.2.1]
    rfl
  have hnPage : s'.nPage = s.nPage := by
    rw [← hs', ← hbase.2.2]
    rfl
  have hne : ∀ y, y ≠ x → s'.page y = s.page y := fun y hy => (hpage y).trans (if_neg hy)
  have hpagex : s'.page x = { s.page x with nRef := 0, dirty := false } :=
    (hpage x).trans (if_pos rfl)
  have hcount : Counted s' :=
    counted_unref h hpos (fun y hy => by rw [hne y hy]) (by rw [hpagex]) hn
  have hrange : ∀ y, (s'.page y).nRef = (s.page y).nRef ∨
      0 ≤ (s'.page y).nRef ∧ (s'.page y).nRef ≤ (s.page y).nRef := by
    intro y
    by_cases hyx : y = x
    · rw [hyx, hpagex]
      exact Or.inr ⟨le_rfl, hpos.le⟩
    · exact Or.inl (by rw [hne y hyx])
  have href : ∀ y, 0 < (s'.page y).nRef → 0 < (s.page y).nRef := by
    intro y hy
    by_cases hyx : y = x
    · exact hyx ▸ hpos
    · rwa [hne y hyx] at hy
  have huse : ∀ y, InUse s' y → InUse s y := by
    intro y hy
    by_cases hyx : y = x
    · exact hyx ▸ Or.inr hpos
    · rwa [InUse, hne y hyx] at hy
  have hpgno : ∀ y, (s'.page y).pgno = (s.page y).pgno := by
    intro y
    by_cases hyx : y = x
    · rw [hyx, hpagex]
    · rw [hne y hyx]
  refine h.fewer ?_ hcount hnPage href huse hpgno hrange
  by_cases hdirty : (s.page x).dirty = true
  · rw [if_pos hdirty] at hs'
    refine listed_clean h hdirty ?_ ?_ ?_ ?_ hnPage hne (by rw [hpagex])
    all_goals (rw [← hs']; rfl)
  · rw [if_neg hdirty] at hs'
    refine h.listed_congr ?_ ?_ ?_ ?_ (le_of_eq hnPage.symm) (fun y => ?_) fun y hy hskip => ?_
    any_goals (rw [← hs']; rfl)
    · by_cases hyx : y = x
      · rw [hyx, hpagex]
        exact (Bool.eq_false_iff.mpr hdirty).symm
      · rw [hne y hyx]
    · have hyx : y ≠ x := fun hyx => hdirty (hyx ▸ hy)
      rwa [Skipped, hne y hyx]

theorem inv_fetch (h : Inv s) {pgno : ℕ} {isNew : Bool}
    (hx : (InUse s x ∧ (s.page x).pgno = pgno ∧ isNew = false) ∨
      (¬InUse s x ∧ ∀ y, InUse s y → (s.page y).pgno ≠ pgno))
    (hmax : (s.page x).nRef ≠ 32767) : Inv (fetchPage s x pgno isNew) := by
  have hpgno : ∀ y, InUse s y → y ≠ x → (s.page y).pgno ≠ pgno := by
    intro y hy hyx
    rcases hx with ⟨hin, rfl, -⟩ | ⟨-, hfree⟩
    · exact h.pgno_ne hin y hy hyx
    · exact hfree y hy
  obtain ⟨hadd, hle⟩ := h.i16_add hmax
  have hrangex := h.range x
  generalize hs' : fetchPage s x pgno isNew = s'
  rw [fetchPage] at hs'
  have hpage : ∀ y, s'.page y =
      if y = x then
        { s.page x with
          pgno := pgno, nRef := i16 ((s.page x).nRef + 1), needSync := !isNew && (s.page x).needSync }
      else s.page y := by
    intro y
    rw [← hs', setPage_page]
  have hn : s'.nRef = if (s.page x).nRef = 0 then s.nRef + 1 else s.nRef := by
    rw [← hs']
    rfl
  have hnPage : s'.nPage = max s.nPage (x + 1) := by
    rw [← hs']
    rfl
  have hne : ∀ y, y ≠ x → s'.page y = s.page y := fun y hy => (hpage y).trans (if_neg hy)
  have hpagex := (hpage x).trans (if_pos rfl)
  have hposx : 0 < (s'.page x).nRef := by
    rw [hpagex]
    change 0 < i16 ((s.page x).nRef + 1)
    rw [hadd]
    omega
  have hd : ∀ y, (s'.page y).dirty = (s.page y).dirty := by
    intro y
    by_cases hyx : y = x
    · rw [hyx, hpagex]
    · rw [hne y hyx]
  have huse : ∀ y, y ≠ x → InUse s' y → InUse s y := by
    intro y hyx hy
    rwa [InUse, hne y hyx] at hy
  have href : ∀ y, 0 < (s'.page y).nRef ↔ y = x ∨ 0 < (s.page y).nRef := by
    intro y
    by_cases hyx : y = x
    · rw [hyx]
      exact iff_of_true hposx (Or.inl rfl)
    · rw [hne y hyx]
      exact (or_iff_right hyx).symm
  refine ⟨?_, ?_, fun y hy => ?_, fun y z hy hz heq => ?_, fun y => ?_⟩
  · refine h.listed_congr ?_ ?_ ?_ ?_ (hnPage ▸ le_max_left _ _) hd fun y _ hskip => ?_
    any_goals (rw [← hs']; rfl)
    by_cases hyx : y = x
    · exact hyx ▸ Or.inl hposx
    · rwa [Skipped, hne y hyx]
  · by_cases hzero : (s.page x).nRef = 0
    · rw [if_pos hzero] at hn
      exact Counted.add (s := s) h.nRef hzero href hn
    · rw [if_neg hzero] at hn
      refine Counted.congr (s := s) h.nRef (fun y => ?_) hn
      rw [href]
      refine or_iff_right_of_imp fun hyx => ?_
      rw [hyx]
      exact lt_of_le_of_ne hrangex.1 (Ne.symm hzero)
  · rw [hnPage]
    rcases (href y).mp hy with rfl | hy
    · exact (Nat.lt_succ_self _).trans_le (Nat.le_max_right _ _)
    · exact (h.lt y hy).trans_le (Nat.le_max_left _ _)
  · by_cases hyx : y = x <;> by_cases hzx : z = x
    · exact hyx.trans hzx.symm
    · rw [hyx, hpagex, hne z hzx] at heq
      exact absurd heq.symm (hpgno z (huse z hzx hz) hzx)
    · rw [hzx, hpagex, hne y hyx] at heq
      exact absurd heq (hpgno y (huse y hyx hy) hyx)
    · rw [hne y hyx, hne z hzx] at heq
      exact h.pgno y z (huse y hyx hy) (huse z hzx hz) heq
  · by_cases hyx : y = x
    · rw [hyx, hpagex]
      change 0 ≤ i16 ((s.page x).nRef + 1) ∧ i16 ((s.page x).nRef + 1) ≤ 32767
      rw [hadd]
      omega
    · rw [hne y hyx]
      exact h.range y

/-- **One operation keeps the list exact.** -/
theorem Inv.step (h : Inv s) {op : Op} (hop : op.Allowed s) (hok : op.InRange s) :
    Inv (Dirty.step s op) := by
  cases op with
  | stress => exact inv_stress h
  | fetch x pgno isNew => exact inv_fetch h hop hok
  | ref x => exact inv_ref h hop hok
  | release x => exact inv_release h hop
  | drop x => exact inv_drop h hop
  | makeDirty x => exact inv_makeDirty h hop
  | makeClean x => exact inv_makeClean h x
  | cleanAll => exact inv_cleanLoop _ s h
  | clearSyncFlags => exact inv_clearSyncFlags h
  | move x newPgno => exact inv_move h hop.1 hop.2
  | setSync x b => exact inv_setNeedSync h hop b

theorem inv_run {l : List Op} (hrun : Run (fun s op => op.InRange s) s l s') (h : Inv s) :
    Inv s' := by
  induction hrun with
  | nil s => exact h
  | cons hop hok _ ih => exact ih (h.step hop hok)

/-! ### The sorted list -/

/-- The page numbers increase. -/
def Sorted (s : PCache) (l : List ℕ) : Prop :=
  l.Pairwise fun a b => (s.page a).pgno < (s.page b).pgno

/-- No two pages have one number. -/
def Distinct (s : PCache) (l : List ℕ) : Prop :=
  l.Pairwise fun a b => (s.page a).pgno ≠ (s.page b).pgno

theorem Distinct.perm {l l' : List ℕ} (h : Distinct s l) (hperm : l.Perm l') : Distinct s l' :=
  (hperm.pairwise_iff fun h => Ne.symm h).mp h

theorem merge_perm (s : PCache) (l l' : List ℕ) : (pcacheMergeDirtyList s l l').Perm (l ++ l') :=
  List.merge_perm_append _

theorem sorted_merge {l l' : List ℕ} (hl : Sorted s l) (hl' : Sorted s l')
    (hne : ∀ a ∈ l, ∀ b ∈ l', (s.page a).pgno ≠ (s.page b).pgno) :
    Sorted s (pcacheMergeDirtyList s l l') := by
  induction l generalizing l' with
  | nil =>
    rw [pcacheMergeDirtyList, List.nil_merge]
    exact hl'
  | cons a l ih =>
    induction l' with
    | nil =>
      rw [pcacheMergeDirtyList, List.merge_right]
      exact hl
    | cons b l' ih' =>
      obtain ⟨ha, hl₁⟩ := List.pairwise_cons.mp hl
      obtain ⟨hb, hl₁'⟩ := List.pairwise_cons.mp hl'
      have hab := hne a List.mem_cons_self b List.mem_cons_self
      rw [pcacheMergeDirtyList, List.cons_merge_cons]
      split
      · rename_i hlt
        rw [decide_eq_true_eq] at hlt
        refine List.pairwise_cons.mpr ⟨fun c hc => ?_,
          ih hl₁ hl' fun x hx => hne x (List.mem_cons_of_mem _ hx)⟩
        rcases List.mem_append.mp ((merge_perm s l (b :: l')).mem_iff.mp hc) with hc | hc
        · exact ha c hc
        · rcases List.mem_cons.mp hc with rfl | hc
          · exact hlt
          · exact hlt.trans (hb c hc)
      · rename_i hge
        rw [decide_eq_true_eq, not_lt] at hge
        have hlt := lt_of_le_of_ne hge (Ne.symm hab)
        refine List.pairwise_cons.mpr ⟨fun c hc => ?_,
          ih' hl₁' fun x hx y hy => hne x hx y (List.mem_cons_of_mem _ hy)⟩
        rcases List.mem_append.mp ((merge_perm s (a :: l) l').mem_iff.mp hc) with hc | hc
        · rcases List.mem_cons.mp hc with rfl | hc
          · exact hlt
          · exact hlt.trans (ha c hc)
        · exact hb c hc

/-- Sorted chains are merged. -/
theorem merge_distinct {l l' : List ℕ} (hl : Sorted s l) (hl' : Sorted s l')
    (hd : Distinct s (l ++ l')) : Sorted s (pcacheMergeDirtyList s l l') :=
  sorted_merge hl hl' (List.pairwise_append.mp hd).2.2

theorem sortInto_spec (a : List (List ℕ)) (p : List ℕ) (ha : a ≠ []) (hs : ∀ l ∈ a, Sorted s l)
    (hp : Sorted s p) (hd : Distinct s (a.flatten ++ p)) :
    sortInto s a p ≠ [] ∧ (sortInto s a p).flatten.Perm (a.flatten ++ p) ∧
      ∀ l ∈ sortInto s a p, Sorted s l := by
  induction a generalizing p with
  | nil => exact absurd rfl ha
  | cons b a ih =>
    have hb := hs b List.mem_cons_self
    cases a with
    | nil =>
      rw [List.flatten_singleton] at hd ⊢
      rw [sortInto]
      refine ⟨List.cons_ne_nil _ _, ?_, fun l hl => ?_⟩
      · rw [List.flatten_singleton]
        exact merge_perm s b p
      · rw [List.mem_singleton.mp hl]
        exact merge_distinct hb hp hd
    | cons b' a =>
      cases b with
      | nil =>
        rw [sortInto]
        refine ⟨List.cons_ne_nil _ _, ?_, fun l hl => ?_⟩
        · rw [List.flatten_cons (l := []), List.nil_append]
          exact List.perm_append_comm
        · rcases List.mem_cons.mp hl with rfl | hl
          · exact hp
          · exact hs l (List.mem_cons_of_mem _ hl)
      | cons x b =>
        have hperm : ((b' :: a).flatten ++ pcacheMergeDirtyList s (x :: b) p).Perm
            (((x :: b) :: b' :: a).flatten ++ p) := by
          rw [List.flatten_cons (l := x :: b)]
          refine (List.Perm.append_left _ (merge_perm s (x :: b) p)).trans ?_
          rw [← List.append_assoc]
          exact List.Perm.append_right _ List.perm_append_comm
        have hbp : Distinct s (x :: b ++ p) := by
          refine hd.sublist (List.Sublist.append ?_ (List.Sublist.refl p))
          rw [List.flatten_cons]
          exact List.sublist_append_left _ _
        obtain ⟨-, hflat, hall⟩ := ih (pcacheMergeDirtyList s (x :: b) p) (List.cons_ne_nil _ _)
          (fun l hl => hs l (List.mem_cons_of_mem _ hl)) (merge_distinct hb hp hbp)
          (hd.perm hperm.symm)
        rw [sortInto]
        refine ⟨List.cons_ne_nil _ _, ?_, fun l hl => ?_⟩
        · rw [List.flatten_cons, List.nil_append]
          exact hflat.trans hperm
        · rcases List.mem_cons.mp hl with rfl | hl
          · exact List.Pairwise.nil
          · exact hall l hl

theorem foldl_sortInto (pIn : List ℕ) (a : List (List ℕ)) (ha : a ≠ [])
    (hs : ∀ l ∈ a, Sorted s l) (hd : Distinct s (a.flatten ++ pIn)) :
    pIn.foldl (fun a x => sortInto s a [x]) a ≠ [] ∧
      (pIn.foldl (fun a x => sortInto s a [x]) a).flatten.Perm (a.flatten ++ pIn) ∧
      ∀ l ∈ pIn.foldl (fun a x => sortInto s a [x]) a, Sorted s l := by
  induction pIn generalizing a with
  | nil =>
    rw [List.foldl_nil, List.append_nil]
    exact ⟨ha, List.Perm.refl _, hs⟩
  | cons x pIn ih =>
    have happ : a.flatten ++ x :: pIn = a.flatten ++ [x] ++ pIn := by
      rw [List.append_assoc, List.singleton_append]
    rw [happ] at hd ⊢
    obtain ⟨hne, hflat, hall⟩ := sortInto_spec a [x] ha hs (List.pairwise_singleton _ _)
      (hd.sublist (List.sublist_append_left _ _))
    obtain ⟨hne', hflat', hall'⟩ :=
      ih (sortInto s a [x]) hne hall (hd.perm (hflat.symm.append_right pIn))
    exact ⟨hne', hflat'.trans (hflat.append_right pIn), hall'⟩

theorem foldl_merge (a : List (List ℕ)) (p : List ℕ) (hs : ∀ l ∈ a, Sorted s l) (hp : Sorted s p)
    (hd : Distinct s (p ++ a.flatten)) :
    (a.foldl (pcacheMergeDirtyList s) p).Perm (p ++ a.flatten) ∧
      Sorted s (a.foldl (pcacheMergeDirtyList s) p) := by
  induction a generalizing p with
  | nil =>
    rw [List.foldl_nil, List.flatten_nil, List.append_nil]
    exact ⟨List.Perm.refl _, hp⟩
  | cons b a ih =>
    rw [List.flatten_cons, ← List.append_assoc] at hd ⊢
    have hmerge := merge_perm s p b
    obtain ⟨hperm, hsorted⟩ := ih (pcacheMergeDirtyList s p b)
      (fun l hl => hs l (List.mem_cons_of_mem _ hl))
      (merge_distinct hp (hs b List.mem_cons_self) (hd.sublist (List.sublist_append_left _ _)))
      (hd.perm (hmerge.symm.append_right a.flatten))
    exact ⟨hperm.trans (hmerge.append_right a.flatten), hsorted⟩

/-- **The sort**: the same pages, with increasing numbers. -/
theorem sortDirtyList_spec {pIn : List ℕ} (hd : Distinct s pIn) :
    (pcacheSortDirtyList s pIn).Perm pIn ∧ Sorted s (pcacheSortDirtyList s pIn) := by
  have hnil : (List.replicate 32 ([] : List ℕ)).flatten = [] := rfl
  obtain ⟨hne, hflat, hall⟩ := foldl_sortInto (s := s) pIn (List.replicate 32 [])
    (List.cons_ne_nil _ _) (fun l hl => (List.eq_of_mem_replicate hl) ▸ List.Pairwise.nil)
    (by rwa [hnil])
  rw [hnil, List.nil_append] at hflat
  rw [pcacheSortDirtyList]
  split
  · rename_i heq
    exact absurd heq hne
  · rename_i p a heq
    rw [heq] at hflat hall
    rw [List.flatten_cons] at hflat
    obtain ⟨hperm, hsorted⟩ := foldl_merge a p (fun l hl => hall l (List.mem_cons_of_mem _ hl))
      (hall p List.mem_cons_self) (hd.perm hflat.symm)
    exact ⟨hperm.trans hflat, hsorted⟩

theorem dirtyList_spec (h : Inv s) {L : List ℕ} (hlist : s.links.IsList s.pDirty L)
    (hlen : L.length ≤ s.nPage) (hmem : ∀ x, x ∈ L ↔ (s.page x).dirty = true) :
    (sqlite3PcacheDirtyList s).2.Perm L ∧ Sorted s (sqlite3PcacheDirtyList s).2 := by
  have hd : Distinct s L := hlist.nodup.imp_of_mem fun hx hy hne heq =>
    hne (h.pgno _ _ (Or.inl ((hmem _).mp hx)) (Or.inl ((hmem _).mp hy)) heq)
  rw [sqlite3PcacheDirtyList]
  dsimp only
  rw [hlist.follow (Nat.le_succ_of_le hlen)]
  exact sortDirtyList_spec hd

/-! ### Every run -/

/-- The dirty list is exact, `nRef` counts the pages in use, the page that is handed to `xStress` is
a legal one, and the sorted list has the dirty pages. -/
structure Exact (s : PCache) : Prop where
  list : ∃ A B : List ℕ, s.links.IsList s.pDirty (A ++ B) ∧ s.pDirtyTail = (A ++ B).getLast? ∧
    (∀ x, x ∈ A ++ B ↔ (s.page x).dirty = true) ∧ s.pSynced = A.getLast? ∧
    (∀ x ∈ B, 0 < (s.page x).nRef ∨ (s.page x).needSync = true) ∧
    (sqlite3PcacheDirtyList s).2.Perm (A ++ B)
  nRef : ∃ R : List ℕ, R.Nodup ∧ (∀ x, x ∈ R ↔ 0 < (s.page x).nRef) ∧ s.nRef = R.length
  stress : ∀ pPg, (fetchStress s).2 = some pPg → (s.page pPg).dirty = true ∧
    (s.page pPg).nRef = 0 ∧ ((s.page pPg).needSync = true →
      ∀ y, (s.page y).dirty = true → (s.page y).nRef = 0 → (s.page y).needSync = true)
  sorted : (sqlite3PcacheDirtyList s).2.Pairwise fun a b => (s.page a).pgno < (s.page b).pgno
  same : (sqlite3PcacheDirtyList s).1 = s

/-- **The dirty list is exact in every run** that adds no reference to a page with 32767. -/
theorem dirtyList_run {l : List Op} (hrun : Run (fun s op => op.InRange s) emptyCache l s) :
    Exact s := by
  have h := inv_run hrun inv_emptyCache
  obtain ⟨A, B, hlisted, hmem, hB⟩ := h.listed
  obtain ⟨hperm, hsorted⟩ := dirtyList_spec h hlisted.list hlisted.length_le hmem
  exact ⟨⟨A, B, hlisted.list, hlisted.tail, hmem, hlisted.synced, hB, hperm⟩, h.nRef,
    fun pPg hpage => fetchStress_spec h hpage, hsorted, rfl⟩

theorem dirtyList_run_one_page :
    Exact (sqlite3PcacheRelease (sqlite3PcacheMakeDirty (fetchPage emptyCache 0 7 true) 0) 0) := by
  refine dirtyList_run (l := [.fetch 0 7 true, .makeDirty 0, .release 0])
    (.cons ?_ ?_ (.cons ?_ trivial (.cons ?_ trivial (.nil _))))
  · exact Or.inr ⟨not_or.mpr ⟨Bool.false_ne_true, lt_irrefl 0⟩,
      fun y hy => absurd hy (not_or.mpr ⟨Bool.false_ne_true, lt_irrefl 0⟩)⟩
  · exact (by decide : (0 : ℤ) ≠ 32767)
  · exact (by decide : (0 : ℤ) < 1)
  · exact (by decide : (0 : ℤ) < 1)

/-! ### References that are not released -/

/-- Page 7 after `n` fetches. -/
def fetched (n : ℕ) : PCache where
  page := Function.update emptyCache.page 0 ⟨if n = 0 then 0 else 7, i16 n, false, false⟩
  links := emptyCache.links
  pDirty := none
  pDirtyTail := none
  pSynced := none
  nRef := if n = 0 then 0 else 1
  nPage := if n = 0 then 0 else 1

theorem fetched_page (n : ℕ) :
    (fetched n).page 0 = ⟨if n = 0 then 0 else 7, i16 n, false, false⟩ :=
  Function.update_self (β := fun _ => PgHdr) 0 _ emptyCache.page

theorem not_inUse_fetched {n y : ℕ} (hy : y ≠ 0) : ¬InUse (fetched n) y := by
  have hpage : (fetched n).page y = ⟨0, 0, false, false⟩ := Function.update_of_ne hy ..
  rw [InUse, hpage]
  exact not_or.mpr ⟨Bool.false_ne_true, lt_irrefl 0⟩

theorem i16_eq_zero_iff (n : ℕ) : i16 n = 0 ↔ n % 65536 = 0 := by
  have hdef := Int.bmod_def n (2 ^ 16)
  rw [i16, hdef]
  split <;> omega

theorem step_fetched {n : ℕ} (hn : n < 65536) :
    step (fetched n) (.fetch 0 7 false) = fetched (n + 1) := by
  have hi16 : i16 (i16 n + 1) = i16 (n + 1 : ℕ) := by
    rw [i16, i16, i16, Int.bmod_add_bmod, Nat.cast_add, Nat.cast_one]
  change fetchPage (fetched n) 0 7 false = _
  rw [fetchPage, fetched_page]
  by_cases hzero : n = 0
  · subst hzero
    simp [fetched, PCache.setPage, i16, emptyCache]
  · have hne : i16 n ≠ 0 := fun h => by
      have := (i16_eq_zero_iff n).mp h
      omega
    simp [fetched, PCache.setPage, hne, hzero, hi16]

theorem allowed_fetched {n : ℕ} : Op.Allowed (fetched n) (.fetch 0 7 false) := by
  have hother : ∀ y, InUse (fetched n) y → y = 0 := fun y hy => by
    by_contra hne
    exact not_inUse_fetched hne hy
  by_cases huse : InUse (fetched n) 0
  · refine Or.inl ⟨huse, ?_, rfl⟩
    rw [InUse, fetched_page] at huse
    rw [fetched_page]
    refine if_neg fun hzero => ?_
    subst hzero
    exact huse.elim (fun h => Bool.false_ne_true h) fun h => absurd h (by decide)
  · exact Or.inr ⟨huse, fun y hy => absurd (hother y hy ▸ hy) huse⟩

theorem run_fetched {k n : ℕ} (h : n + k ≤ 65536) :
    Run (fun _ _ => True) (fetched n) (List.replicate k (.fetch 0 7 false)) (fetched (n + k)) := by
  induction k generalizing n with
  | zero => exact .nil _
  | succ k ih =>
    refine .cons allowed_fetched trivial ?_
    rw [step_fetched (by omega), show n + (k + 1) = n + 1 + k by omega]
    exact ih (by omega)

/-- After 65536 fetches of one page it seems to be out of use, and is still counted. -/
theorem not_forall_run_exact : ¬∀ l s, Run (fun _ _ => True) emptyCache l s → Exact s := by
  intro h
  have hempty : fetched 0 = emptyCache := by simp [fetched, emptyCache, i16]
  have hexact := h _ _ (hempty ▸ run_fetched (n := 0) (k := 65536) (by decide))
  obtain ⟨R, -, hR, hlen⟩ := hexact.nRef
  have hnil : R = [] := by
    refine List.eq_nil_iff_forall_not_mem.mpr fun y hy => ?_
    have hpos := (hR y).mp hy
    have hy0 : y = 0 := by
      by_contra hne
      exact not_inUse_fetched hne (Or.inr hpos)
    rw [hy0, fetched_page] at hpos
    exact absurd hpos (by rw [(i16_eq_zero_iff _).mpr rfl]; exact lt_irrefl 0)
  rw [hnil] at hlen
  exact absurd hlen (by simp [fetched])

end Dirty

end SqliteVms

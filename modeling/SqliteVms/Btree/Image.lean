import SqliteVms.Lib.BigEndian

/-!
# The database image, and its pointer map

`Db` is the database as the b-tree layer sees it through the pager: the bytes of every page and
the number of pages. Reading and writing a page never fails here except where the source fails
for a page number it will not accept; the pager's I/O errors are left out.

In an auto-vacuum database every page but the first has an entry on a pointer-map page: a type
and the page number of its parent.

## Main definitions

* `Geom` — page size, usable size and the settings that do not change
* `Db`, `Db.update` — the image, and one page of it replaced
* `ptrmapPageno`, `ptrmapGet`, `ptrmapPut` — the pointer map

## Main results

* `ptrmapPageno_idem` — the page that holds an entry is a pointer-map page
* `ptrmapType_put_self`, `ptrmapType_put_of_ne` — an entry after a write to the map
-/

namespace SqliteVms

namespace Btree

open Store BigEndian

/-- The result codes of the b-tree layer. -/
inductive Rc
  | ok
  | corrupt
  | full
  deriving DecidableEq, Repr

/-- Page geometry and settings of a database, with the bounds the file format puts on them. -/
structure Geom where
  pageSize : ℕ
  usableSize : ℕ
  autoVacuum : Bool
  secureDelete : Bool
  mxPgno : ℕ
  usable_ge : 480 ≤ usableSize
  usable_le : usableSize ≤ pageSize
  page_le : pageSize ≤ 65536
  page_pow : ∃ k, pageSize = 2 ^ k
  mxPgno_lt : mxPgno < 2 ^ 31

theorem usable_512 : 480 ≤ 512 := by decide
theorem self_512 : 512 ≤ 512 := le_rfl
theorem max_512 : 512 ≤ 65536 := by decide
theorem pow_512 : ∃ k, 512 = 2 ^ k := ⟨9, rfl⟩
theorem lt_1000 : 1000 < 2 ^ 31 := by decide

/-- A database image: the bytes of each page, and the page count `pBt->nPage`. -/
structure Db where
  page : ℕ → ℕ → UInt8
  nPage : ℕ

/-- The image with page `p` replaced. -/
def Db.update (db : Db) (p : ℕ) (bytes : ℕ → UInt8) : Db :=
  { db with page := Function.update db.page p bytes }

@[simp] theorem Db.update_nPage (db : Db) (p : ℕ) (bytes : ℕ → UInt8) :
    (db.update p bytes).nPage = db.nPage := rfl

@[simp] theorem Db.update_page_self (db : Db) (p : ℕ) (bytes : ℕ → UInt8) :
    (db.update p bytes).page p = bytes := Function.update_self _ _ _

theorem Db.update_page_of_ne (db : Db) {p q : ℕ} (h : q ≠ p) (bytes : ℕ → UInt8) :
    (db.update p bytes).page q = db.page q := Function.update_of_ne h _ _

/-- `put4byte` into page `p`. -/
def Db.put (db : Db) (p off v : ℕ) : Db := db.update p (put4 (db.page p) off v)

@[simp] theorem Db.put_nPage (db : Db) (p off v : ℕ) : (db.put p off v).nPage = db.nPage := rfl

@[simp] theorem Db.put_page_self (db : Db) (p off v : ℕ) :
    (db.put p off v).page p = put4 (db.page p) off v := Db.update_page_self _ _ _

theorem Db.put_page_of_ne (db : Db) {p q : ℕ} (h : q ≠ p) (off v : ℕ) :
    (db.put p off v).page q = db.page q := Db.update_page_of_ne _ h _

variable (g : Geom)

/-- `PENDING_BYTE_PAGE`: the page that holds the locking bytes and is never used. -/
def pendingBytePage : ℕ := 0x40000000 / g.pageSize + 1

/-- The check `sqlite3PagerAcquire` makes of a page number when `dbSize` pages exist. -/
def acquire (dbSize pgno : ℕ) : Rc :=
  if pgno = 0 ∨ 2 ^ 31 ≤ pgno ∨ pgno = pendingBytePage g then .corrupt
  else if dbSize < pgno ∧ g.mxPgno < pgno then .full
  else .ok

/-! ### The pointer map -/

/-- Entries on one pointer-map page, plus the page itself. -/
def pagesPerMapPage : ℕ := g.usableSize / 5 + 1

/-- `ptrmapPageno`: the pointer-map page with the entry of `pgno`. -/
def ptrmapPageno (pgno : ℕ) : ℕ :=
  if pgno < 2 then 0
  else
    let ret := (pgno - 2) / pagesPerMapPage g * pagesPerMapPage g + 2
    if ret = pendingBytePage g then ret + 1 else ret

/-- `PTRMAP_ISPAGE`. -/
def isPtrmapPage (pgno : ℕ) : Bool := ptrmapPageno g pgno == pgno

/-- `PTRMAP_PTROFFSET`. -/
def ptrmapPtroffset (iPtrmap key : ℕ) : ℤ := 5 * ((key : ℤ) - iPtrmap - 1)

/-- `PTRMAP_ROOTPAGE` to `PTRMAP_BTREE`, as the byte stored. -/
def ptrmapRootpage : ℕ := 1
@[inherit_doc ptrmapRootpage] def ptrmapFreepage : ℕ := 2
@[inherit_doc ptrmapRootpage] def ptrmapOverflow1 : ℕ := 3
@[inherit_doc ptrmapRootpage] def ptrmapOverflow2 : ℕ := 4
@[inherit_doc ptrmapRootpage] def ptrmapBtree : ℕ := 5

/-- The type byte the map holds for `key`, whatever it is. -/
def ptrmapType (db : Db) (key : ℕ) : ℕ :=
  (db.page (ptrmapPageno g key) (ptrmapPtroffset (ptrmapPageno g key) key).toNat).toNat

/-- `ptrmapGet`: type and parent of `key`. -/
def ptrmapGet (db : Db) (key : ℕ) : Except Rc (ℕ × ℕ) :=
  let iPtrmap := ptrmapPageno g key
  if acquire g db.nPage iPtrmap ≠ .ok then .error (acquire g db.nPage iPtrmap)
  else
    let offset := ptrmapPtroffset iPtrmap key
    if offset < 0 then .error .corrupt
    else
      let eType := ptrmapType g db key
      if eType < 1 ∨ 5 < eType then .error .corrupt
      else .ok (eType, get4 (db.page iPtrmap) (offset.toNat + 1))

/-- `ptrmapPut`: record type and parent of `key`. -/
def ptrmapPut (db : Db) (key eType parent : ℕ) : Rc × Db :=
  if key = 0 then (.corrupt, db)
  else
    let iPtrmap := ptrmapPageno g key
    if acquire g db.nPage iPtrmap ≠ .ok then (acquire g db.nPage iPtrmap, db)
    else
      let offset := ptrmapPtroffset iPtrmap key
      if offset < 0 then (.corrupt, db)
      else (.ok, db.update iPtrmap
        (blit (db.page iPtrmap) offset.toNat (UInt8.ofNat eType :: bytes4 parent)))

/-- The pages neither reserved for the map nor for the locking bytes. -/
def Ordinary (pgno : ℕ) : Prop :=
  2 ≤ pgno ∧ pgno ≠ pendingBytePage g ∧ (g.autoVacuum = true → isPtrmapPage g pgno = false)

instance (pgno : ℕ) : Decidable (Ordinary g pgno) := inferInstanceAs (Decidable (_ ∧ _ ∧ (_ → _)))

variable {g}

theorem pagesPerMapPage_ge (g : Geom) : 97 ≤ pagesPerMapPage g := by
  have := g.usable_ge
  rw [pagesPerMapPage]
  omega

/-- The map pages sit at multiples of `pagesPerMapPage` above page 2, moved up by one where the
locking page is in the way. -/
theorem ptrmapPageno_of_ge {pgno : ℕ} (h : 2 ≤ pgno) :
    ptrmapPageno g pgno =
      if (pgno - 2) / pagesPerMapPage g * pagesPerMapPage g + 2 = pendingBytePage g
      then (pgno - 2) / pagesPerMapPage g * pagesPerMapPage g + 3
      else (pgno - 2) / pagesPerMapPage g * pagesPerMapPage g + 2 := by
  rw [ptrmapPageno, if_neg (by omega)]

theorem ptrmapPageno_ne_pending {pgno : ℕ} (h : 2 ≤ pgno) :
    ptrmapPageno g pgno ≠ pendingBytePage g := by
  rw [ptrmapPageno_of_ge h]
  split <;> omega

theorem two_le_ptrmapPageno {pgno : ℕ} (h : 2 ≤ pgno) : 2 ≤ ptrmapPageno g pgno := by
  rw [ptrmapPageno_of_ge h]
  split <;> omega

/-- **The page that holds an entry is a pointer-map page.** -/
theorem ptrmapPageno_idem {pgno : ℕ} (h : 2 ≤ pgno) :
    ptrmapPageno g (ptrmapPageno g pgno) = ptrmapPageno g pgno := by
  have hn := pagesPerMapPage_ge g
  have hdiv : ∀ q r, r < pagesPerMapPage g →
      (q * pagesPerMapPage g + r) / pagesPerMapPage g * pagesPerMapPage g
        = q * pagesPerMapPage g := by
    intro q r hr
    rw [Nat.mul_comm q, Nat.mul_add_div (by omega), Nat.div_eq_of_lt hr, Nat.add_zero,
      Nat.mul_comm]
  rw [ptrmapPageno_of_ge (two_le_ptrmapPageno h), ptrmapPageno_of_ge h]
  generalize (pgno - 2) / pagesPerMapPage g = q
  split
  · rename_i hp
    rw [show q * pagesPerMapPage g + 3 - 2 = q * pagesPerMapPage g + 1 by omega,
      hdiv q 1 (by omega), if_pos hp]
  · rename_i hp
    rw [show q * pagesPerMapPage g + 2 - 2 = q * pagesPerMapPage g + 0 by omega,
      hdiv q 0 (by omega), if_neg hp]

theorem isPtrmapPage_ptrmapPageno {pgno : ℕ} (h : 2 ≤ pgno) :
    isPtrmapPage g (ptrmapPageno g pgno) = true := by
  rw [isPtrmapPage, beq_iff_eq]
  exact ptrmapPageno_idem h

/-- An ordinary page of an auto-vacuum database lies behind its map page. -/
theorem Ordinary.ptrmapPageno_lt (hav : g.autoVacuum = true) {pgno : ℕ} (h : Ordinary g pgno) :
    ptrmapPageno g pgno < pgno := by
  obtain ⟨hge, hpend, hmap⟩ := h
  have hne : ptrmapPageno g pgno ≠ pgno := fun hc => by
    have := hmap hav
    rw [isPtrmapPage, beq_eq_false_iff_ne] at this
    exact this hc
  have hle : (pgno - 2) / pagesPerMapPage g * pagesPerMapPage g ≤ pgno - 2 :=
    Nat.div_mul_le_self _ _
  rw [ptrmapPageno_of_ge hge] at hne ⊢
  split at hne
  · rename_i hp
    rw [if_pos hp]
    omega
  · rename_i hp
    rw [if_neg hp]
    omega

theorem acquire_of_le {dbSize pgno : ℕ} (h0 : pgno ≠ 0) (hpend : pgno ≠ pendingBytePage g)
    (hle : pgno ≤ dbSize) (hmx : dbSize ≤ g.mxPgno) : acquire g dbSize pgno = .ok := by
  have := g.mxPgno_lt
  rw [acquire, if_neg (by omega), if_neg (by omega)]

/-- An ordinary page of the file can be fetched. -/
theorem Ordinary.acquire {pgno dbSize : ℕ} (h : Ordinary g pgno) (hle : pgno ≤ dbSize)
    (hmx : dbSize ≤ g.mxPgno) : acquire g dbSize pgno = .ok :=
  acquire_of_le (by have := h.1; omega) h.2.1 hle hmx

theorem Ordinary.ptrmapPtroffset (hav : g.autoVacuum = true) {pgno : ℕ} (h : Ordinary g pgno) :
    ptrmapPtroffset (ptrmapPageno g pgno) pgno = (5 * (pgno - ptrmapPageno g pgno - 1) : ℕ) := by
  have := h.ptrmapPageno_lt hav
  rw [Btree.ptrmapPtroffset]
  omega

/-- What `ptrmapPut` does for an ordinary page of the file. -/
theorem ptrmapPut_eq (hav : g.autoVacuum = true) {db : Db} {key : ℕ} (hkey : Ordinary g key)
    (hle : key ≤ db.nPage) (hmx : db.nPage ≤ g.mxPgno) (eType parent : ℕ) :
    ptrmapPut g db key eType parent = (.ok, db.update (ptrmapPageno g key)
      (blit (db.page (ptrmapPageno g key)) (5 * (key - ptrmapPageno g key - 1))
        (UInt8.ofNat eType :: bytes4 parent))) := by
  have hlt := hkey.ptrmapPageno_lt hav
  have hacq : acquire g db.nPage (ptrmapPageno g key) = .ok :=
    acquire_of_le (by have := two_le_ptrmapPageno (g := g) hkey.1; omega)
      (ptrmapPageno_ne_pending hkey.1) (by omega) hmx
  have hkey0 : key ≠ 0 := by have := hkey.1; omega
  rw [ptrmapPut, if_neg hkey0]
  dsimp only
  rw [if_neg (by rw [hacq]; simp), hkey.ptrmapPtroffset hav, if_neg (by omega), Int.toNat_natCast]

theorem ptrmapType_eq (hav : g.autoVacuum = true) {key : ℕ} (hkey : Ordinary g key) (db : Db) :
    ptrmapType g db key =
      (db.page (ptrmapPageno g key) (5 * (key - ptrmapPageno g key - 1))).toNat := by
  rw [ptrmapType, hkey.ptrmapPtroffset hav, Int.toNat_natCast]

/-- The entry of `key` after a write to the map. -/
theorem ptrmapType_put_self (hav : g.autoVacuum = true) {db : Db} {key : ℕ}
    (hkey : Ordinary g key) (hle : key ≤ db.nPage) (hmx : db.nPage ≤ g.mxPgno) {eType : ℕ}
    (hty : eType < 256) (parent : ℕ) :
    ptrmapType g (ptrmapPut g db key eType parent).2 key = eType := by
  rw [ptrmapPut_eq hav hkey hle hmx, ptrmapType_eq hav hkey, Db.update_page_self]
  generalize 5 * (key - ptrmapPageno g key - 1) = off
  have hbyte : ∀ s : ℕ → UInt8, blit s off (UInt8.ofNat eType :: bytes4 parent) off
      = UInt8.ofNat eType := fun s => blit_inside (i := 0) (by simp)
  rw [hbyte, UInt8.toNat_ofNat']
  omega

/-- Writing one entry leaves the others. -/
theorem ptrmapType_put_of_ne (hav : g.autoVacuum = true) {db : Db} {key key' : ℕ}
    (hkey : Ordinary g key) (hkey' : Ordinary g key') (hne : key' ≠ key) (hle : key ≤ db.nPage)
    (hmx : db.nPage ≤ g.mxPgno) (eType parent : ℕ) :
    ptrmapType g (ptrmapPut g db key eType parent).2 key' = ptrmapType g db key' := by
  rw [ptrmapPut_eq hav hkey hle hmx, ptrmapType_eq hav hkey', ptrmapType_eq hav hkey']
  rcases eq_or_ne (ptrmapPageno g key') (ptrmapPageno g key) with heq | hpage
  · -- entries on one map page are five bytes each
    have hlt := hkey.ptrmapPageno_lt hav
    have hlt' := hkey'.ptrmapPageno_lt hav
    rw [heq] at hlt' ⊢
    rw [Db.update_page_self, blit_outside]
    rw [List.length_cons, length_bytes4]
    omega
  · rw [Db.update_page_of_ne _ hpage]

/-- The map entry of a page depends on the map page only. -/
theorem ptrmapType_congr {db db' : Db} {key : ℕ}
    (h : db'.page (ptrmapPageno g key) = db.page (ptrmapPageno g key)) :
    ptrmapType g db' key = ptrmapType g db key := by
  rw [ptrmapType, ptrmapType, h]

/-- An ordinary page is not the map page of any page. -/
theorem Ordinary.ne_ptrmapPageno (hav : g.autoVacuum = true) {p q : ℕ} (hp : Ordinary g p)
    (hq : 2 ≤ q) : ptrmapPageno g q ≠ p := by
  rintro rfl
  have := hp.2.2 hav
  rw [isPtrmapPage_ptrmapPageno hq] at this
  exact Bool.noConfusion this

end Btree

end SqliteVms

import SqliteVms.Lib.Store

/-!
# Files that survive a crash in part

A file has a size and a byte at every position, zero beyond the end. What a program has written to
it and not yet synced is a list of operations over the last synced contents: the program sees them
all, and a crash keeps any of them, loses any of them, and may leave any bytes in the range of a
write it tore.

Which bytes a torn write may leave is a parameter of the crash, so that a result can say what it
needs of them.

## Main definitions

* `Disk.File`, `Disk.File.write`, `Disk.File.truncate` — contents
* `Disk.Op`, `Disk.DiskFile` — synced contents and unsynced operations
* `Disk.Crash`, `Disk.DiskFile.Crash` — what a crash may leave

## Main results

* `Disk.Crash.invariant` — the invariant rule for crashes
* `Disk.Crash.byte_eq` — a byte that no unsynced operation touches is as it was
* `Disk.applyAll_congr` — writes replayed on two files that differ only where they reach
-/

namespace Disk

open Store

/-- The contents of a file. -/
@[ext] structure File where
  size : ℕ
  byte : ℕ → UInt8
  tight : ∀ i, size ≤ i → byte i = 0

namespace File

/-- The file without a byte. -/
def empty : File := ⟨0, fun _ => 0, fun _ _ => rfl⟩

/-- The file with `xs` written at position `off`; a gap before it reads as zeros. -/
def write (f : File) (off : ℕ) (xs : List UInt8) : File where
  size := max f.size (off + xs.length)
  byte := blit f.byte off xs
  tight := fun i hi => by
    rw [blit_outside (by omega)]
    exact f.tight i (by omega)

/-- The first `n` bytes of the file, with zeros added if it is shorter. -/
def truncate (f : File) (n : ℕ) : File where
  size := n
  byte := fun i => if i < n then f.byte i else 0
  tight := fun i hi => if_neg (by omega)

@[simp] theorem write_size (f : File) (off : ℕ) (xs : List UInt8) :
    (f.write off xs).size = max f.size (off + xs.length) := rfl

/-- A write of nothing inside of the file. -/
theorem write_nil {f : File} {off : ℕ} (h : off ≤ f.size) : f.write off [] = f :=
  File.ext (Nat.max_eq_left h) (blit_nil _ _)

/-- Two writes one behind the other are one write. -/
theorem write_append (f : File) (off : ℕ) (xs ys : List UInt8) :
    (f.write off xs).write (off + xs.length) ys = f.write off (xs ++ ys) := by
  refine File.ext ?_ (blit_blit_append _ _ _ _)
  simp only [write, List.length_append]
  omega

@[simp] theorem write_byte (f : File) (off : ℕ) (xs : List UInt8) :
    (f.write off xs).byte = blit f.byte off xs := rfl

@[simp] theorem truncate_size (f : File) (n : ℕ) : (f.truncate n).size = n := rfl

theorem truncate_byte {f : File} {n i : ℕ} (h : i < n) : (f.truncate n).byte i = f.byte i :=
  if_pos h

/-- Two files of one size are equal when their bytes up to that size are. -/
theorem ext_of_lt {f f' : File} (hsize : f.size = f'.size)
    (h : ∀ i < f.size, f.byte i = f'.byte i) : f = f' := by
  refine File.ext hsize (funext fun i => ?_)
  rcases lt_or_ge i f.size with hi | hi
  · exact h i hi
  · rw [f.tight i hi, f'.tight i (hsize ▸ hi)]

theorem truncate_self (f : File) : f.truncate f.size = f :=
  ext_of_lt rfl fun _ hi => truncate_byte hi

end File

/-- An operation on a file. -/
inductive Op
  | write (off : ℕ) (xs : List UInt8)
  | truncate (n : ℕ)

/-- The file after the operation. -/
def Op.apply : Op → File → File
  | .write off xs, f => f.write off xs
  | .truncate n, f => f.truncate n

/-- The operation leaves byte `i` alone. -/
def Op.Avoids (i : ℕ) : Op → Prop
  | .write off xs => i < off ∨ off + xs.length ≤ i
  | .truncate n => i < n

/-- The operation is a write. -/
def Op.IsWrite : Op → Prop
  | .write _ _ => True
  | .truncate _ => False

theorem Op.apply_byte {op : Op} {i : ℕ} (h : op.Avoids i) (f : File) :
    (op.apply f).byte i = f.byte i := by
  cases op with
  | write off xs => exact blit_outside h
  | truncate n => exact File.truncate_byte h

/-- `Crash ok ops f f'`: of the operations `ops` on `f`, some are done, some are lost and some
writes are torn, `ok off ys` saying that a torn write at `off` may leave `ys`. -/
inductive Crash (ok : ℕ → List UInt8 → Prop) : List Op → File → File → Prop
  | nil {f : File} : Crash ok [] f f
  | lost {op : Op} {ops : List Op} {f f' : File} (h : Crash ok ops f f') : Crash ok (op :: ops) f f'
  | done {op : Op} {ops : List Op} {f f' : File} (h : Crash ok ops (op.apply f) f') :
      Crash ok (op :: ops) f f'
  | torn {off : ℕ} {xs ys : List UInt8} {ops : List Op} {f f' : File}
      (hlen : ys.length = xs.length) (hok : ok off ys) (h : Crash ok ops (f.write off ys) f') :
      Crash ok (.write off xs :: ops) f f'

variable {ok : ℕ → List UInt8 → Prop} {ops : List Op} {f f' : File}

/-- **The invariant rule.** What every operation keeps, done or torn, holds after a crash. -/
theorem Crash.invariant {Q : File → Prop} (hcrash : Crash ok ops f f')
    (hdone : ∀ op ∈ ops, ∀ f, Q f → Q (op.apply f))
    (htorn : ∀ off xs, Op.write off xs ∈ ops → ∀ ys, ys.length = xs.length → ok off ys →
      ∀ f, Q f → Q (f.write off ys)) (h : Q f) : Q f' := by
  induction hcrash with
  | nil => exact h
  | lost _ ih =>
    exact ih (fun op hop => hdone op (List.mem_cons_of_mem _ hop))
      (fun off xs hop => htorn off xs (List.mem_cons_of_mem _ hop)) h
  | done _ ih =>
    exact ih (fun op hop => hdone op (List.mem_cons_of_mem _ hop))
      (fun off xs hop => htorn off xs (List.mem_cons_of_mem _ hop))
      (hdone _ List.mem_cons_self _ h)
  | torn hlen hok _ ih =>
    exact ih (fun op hop => hdone op (List.mem_cons_of_mem _ hop))
      (fun off xs hop => htorn off xs (List.mem_cons_of_mem _ hop))
      (htorn _ _ List.mem_cons_self _ hlen hok _ h)

/-- A byte that no operation touches is as it was. -/
theorem Crash.byte_eq (hcrash : Crash ok ops f f') {i : ℕ} (h : ∀ op ∈ ops, op.Avoids i) :
    f'.byte i = f.byte i := by
  refine hcrash.invariant (Q := fun f' => f'.byte i = f.byte i) (fun op hop f₁ hf₁ => ?_)
    (fun off xs hop ys hlen _ f₁ hf₁ => ?_) rfl
  · rw [op.apply_byte (h op hop), hf₁]
  · have hav : i < off ∨ off + xs.length ≤ i := h _ hop
    rw [← hf₁]
    exact blit_outside (by omega)

/-- Writes do not make a file shorter. -/
theorem Crash.size_le (hcrash : Crash ok ops f f') (h : ∀ op ∈ ops, op.IsWrite) :
    f.size ≤ f'.size := by
  refine hcrash.invariant (Q := fun f' => f.size ≤ f'.size) (fun op hop f₁ hf₁ => ?_)
    (fun off xs hop ys hlen _ f₁ hf₁ => ?_) le_rfl
  · cases op with
    | write off xs => exact hf₁.trans (le_max_left _ _)
    | truncate n => exact absurd (h _ hop) id
  · exact hf₁.trans (le_max_left _ _)

theorem Crash.eq_of_nil (hcrash : Crash ok [] f f') : f' = f := by
  cases hcrash
  rfl

/-- The operation, with the bytes of a write replaced by those of `forged` in its range. -/
def Op.tornBy (forged : ℕ → UInt8) : Op → Op
  | .write off xs => .write off (slice forged off xs.length)
  | .truncate n => .truncate n

/-- All writes may be torn, and leave what `forged` has in their ranges. -/
theorem crash_tornBy (hok : ∀ off xs, ok off xs) (forged : ℕ → UInt8) (ops : List Op) (f : File) :
    Crash ok ops f (ops.foldl (fun f op => (op.tornBy forged).apply f) f) := by
  induction ops generalizing f with
  | nil => exact .nil
  | cons op ops ih =>
    cases op with
    | write off xs => exact .torn (length_slice _ _ _) (hok _ _) (ih _)
    | truncate n => exact .done (ih _)

/-- The file after all the operations. -/
def applyAll (ops : List Op) (f : File) : File := ops.foldl (fun f op => op.apply f) f

@[simp] theorem applyAll_nil (f : File) : applyAll [] f = f := rfl

theorem applyAll_append (ops ops' : List Op) (f : File) :
    applyAll (ops ++ ops') f = applyAll ops' (applyAll ops f) := List.foldl_append

@[simp] theorem applyAll_cons (op : Op) (ops : List Op) (f : File) :
    applyAll (op :: ops) f = applyAll ops (op.apply f) := rfl

/-- How far writes reach does not depend on the file. -/
theorem applyAll_size (h : ∀ op ∈ ops, op.IsWrite) (f : File) :
    (applyAll ops f).size = max f.size (applyAll ops File.empty).size := by
  induction ops generalizing f with
  | nil => exact (max_eq_left (Nat.zero_le _)).symm
  | cons op ops ih =>
    have hops := fun op' hop => h op' (List.mem_cons_of_mem op hop)
    cases op with
    | write off xs =>
      rw [applyAll_cons, applyAll_cons, ih hops, ih hops (Op.apply _ File.empty)]
      simp only [Op.apply, File.write_size, File.empty, Nat.zero_max, max_assoc]
    | truncate n => exact absurd (h _ List.mem_cons_self) id

/-- A file is as long as each write reaches. -/
theorem write_le_applyAll (h : ∀ op ∈ ops, op.IsWrite) {off : ℕ} {xs : List UInt8}
    (hop : Op.write off xs ∈ ops) (f : File) : off + xs.length ≤ (applyAll ops f).size := by
  induction ops generalizing f with
  | nil => exact absurd hop List.not_mem_nil
  | cons op ops ih =>
    have hops := fun op' hop => h op' (List.mem_cons_of_mem op hop)
    rw [applyAll_cons]
    rcases List.mem_cons.mp hop with rfl | hop
    · rw [applyAll_size hops]
      exact (le_max_right _ _).trans (le_max_left _ _)
    · exact ih hops hop _

/-- Writes that end before `n` do not make a file longer. -/
theorem applyAll_size_le {n : ℕ} (h : ∀ op ∈ ops, ∃ off xs, op = .write off xs ∧ off + xs.length ≤ n)
    (hf : f.size ≤ n) : (applyAll ops f).size ≤ n := by
  induction ops generalizing f with
  | nil => exact hf
  | cons op ops ih =>
    obtain ⟨off, xs, rfl, hle⟩ := h op List.mem_cons_self
    exact ih (fun op' hop => h op' (List.mem_cons_of_mem _ hop)) (max_le hf hle)

/-- **Replaying writes.** Two files that agree wherever the writes do not reach, and are equally
long in the end, become the same. -/
theorem applyAll_congr (h : ∀ op ∈ ops, op.IsWrite)
    (hbyte : ∀ i, (∀ op ∈ ops, op.Avoids i) → f.byte i = f'.byte i)
    (hsize : (applyAll ops f).size = (applyAll ops f').size) : applyAll ops f = applyAll ops f' := by
  refine File.ext hsize (funext fun i => ?_)
  clear hsize
  induction ops generalizing f f' with
  | nil => exact hbyte i fun _ hop => absurd hop List.not_mem_nil
  | cons op ops ih =>
    rw [applyAll_cons, applyAll_cons]
    refine ih (fun op' hop => h op' (List.mem_cons_of_mem op hop)) fun i hi => ?_
    cases op with
    | write off xs =>
      simp only [Op.apply, File.write_byte]
      by_cases hav : i < off ∨ off + xs.length ≤ i
      · rw [blit_outside hav, blit_outside hav]
        refine hbyte i fun op' hop => ?_
        rcases List.mem_cons.mp hop with rfl | hop
        exacts [hav, hi op' hop]
      · obtain ⟨k, rfl⟩ := Nat.exists_eq_add_of_le (show off ≤ i by omega)
        rw [blit_inside (by omega), blit_inside (by omega)]
    | truncate n => exact absurd (h _ List.mem_cons_self) id

/-- A file on a disk: what is synced, and what is not. -/
structure DiskFile where
  synced : File
  pending : List Op

namespace DiskFile

/-- The contents a program sees. -/
def view (d : DiskFile) : File := d.pending.foldl (fun f op => op.apply f) d.synced

/-- One more operation. -/
def perform (d : DiskFile) (op : Op) : DiskFile := { d with pending := d.pending ++ [op] }

/-- A write. -/
def write (d : DiskFile) (off : ℕ) (xs : List UInt8) : DiskFile := d.perform (.write off xs)

/-- A change of the size. -/
def truncate (d : DiskFile) (n : ℕ) : DiskFile := d.perform (.truncate n)

/-- A sync: what the program sees is on the disk. -/
def sync (d : DiskFile) : DiskFile := ⟨d.view, []⟩

/-- A file as it is found, everything on the disk. -/
def ofFile (f : File) : DiskFile := ⟨f, []⟩

/-- `f` may be left of the file by a crash. -/
def Crash (ok : ℕ → List UInt8 → Prop) (d : DiskFile) (f : File) : Prop :=
  Disk.Crash ok d.pending d.synced f

/-- A crash may keep everything. -/
theorem crash_view (d : DiskFile) : d.Crash ok d.view := by
  obtain ⟨f, ops⟩ := d
  rw [Crash, view]
  dsimp only
  induction ops generalizing f with
  | nil => exact .nil
  | cons op ops ih => exact .done (ih (op.apply f))

@[simp] theorem view_ofFile (f : File) : (ofFile f).view = f := rfl

@[simp] theorem view_sync (d : DiskFile) : d.sync.view = d.view := rfl

@[simp] theorem view_write (d : DiskFile) (off : ℕ) (xs : List UInt8) :
    (d.write off xs).view = d.view.write off xs := by
  simp [view, write, perform, Op.apply]

@[simp] theorem view_truncate (d : DiskFile) (n : ℕ) :
    (d.truncate n).view = d.view.truncate n := by
  simp [view, truncate, perform, Op.apply]

theorem mem_pending_write {d : DiskFile} {off : ℕ} {xs : List UInt8} {op : Op} :
    op ∈ (d.write off xs).pending ↔ op ∈ d.pending ∨ op = .write off xs := by
  simp [write, perform]

end DiskFile

end Disk

import Mathlib.Data.Set.Insert

/-!
# Files that a crash may catch half written

What a process reads from a file is one thing; what a crash leaves of it is another, and until the
file is synced there is more than one possibility. `Durable` keeps both: the value seen now, and
the set of values a crash may leave. A write adds to that set, a sync reduces it to the value seen.

Nothing is said about what a value is. A file that may not exist has values in an `Option`.

## Main definitions

* `Durable` — a value and the possibilities of a crash
* `Durable.pure`, `Durable.write`, `Durable.sync` — the three ways to get one
-/

/-- A value, and what a crash may leave of it. -/
@[ext] structure Durable (α : Type*) where
  cur : α
  poss : Set α
  cur_mem : cur ∈ poss

namespace Durable

variable {α : Type*}

/-- A value that is safely on disk. -/
def pure (a : α) : Durable α := ⟨a, {a}, rfl⟩

/-- The value `a` written and not synced. A crash may leave it, what it would have left before, or
one of `torn`. -/
def write (f : Durable α) (torn : Set α) (a : α) : Durable α :=
  ⟨a, insert a (f.poss ∪ torn), Set.mem_insert _ _⟩

/-- The value synced. -/
def sync (f : Durable α) : Durable α := pure f.cur

@[simp] theorem pure_cur (a : α) : (pure a).cur = a := rfl

@[simp] theorem mem_pure {a b : α} : b ∈ (pure a).poss ↔ b = a := Iff.rfl

@[simp] theorem write_cur (f : Durable α) (torn : Set α) (a : α) : (f.write torn a).cur = a := rfl

@[simp] theorem mem_write {f : Durable α} {torn : Set α} {a b : α} :
    b ∈ (f.write torn a).poss ↔ b = a ∨ b ∈ f.poss ∨ b ∈ torn := Iff.rfl

@[simp] theorem sync_pure (a : α) : (pure a).sync = pure a := rfl

end Durable

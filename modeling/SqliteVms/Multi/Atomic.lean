import SqliteVms.Multi.Commit

/-!
# A commit of several files is all or nothing

Two invariants share the life of the files between them. Before the master journal is deleted
(`Roll`), every journal that names it can rely on its being there, and every file whose journal may
be missing is untouched. Afterwards (`Comm`) every file is complete and every journal left names a
master journal that is gone. Each request of `vdbeCommit` keeps one of them, and the deletion leads
from the first to the second; each step of a recovery keeps the one it starts from.

## Main results

* `vdbeCommit_every` — the files at every point of the commit
* `Roll.step`, `Comm.step` — recovery steps
* `allOrNothing` — every crash, every recovery, provided the main database has a file name
* `not_allOrNothing_memoryMain` — two attached files and a `:memory:` main database
-/

namespace SqliteVms

namespace Multi

variable {D : Type} {t : Txn D}

/-! ### The content of the master journal -/

/-- What entry `i` adds to the master journal. -/
def Txn.nameBytes (t : Txn D) (i : ℕ) : List UInt8 :=
  ((dbAt t.aDb i).bind fun db => if db.isInTrans then db.journalName else none).elim [] (· ++ [0])

/-- The whole of the master journal. -/
def Txn.content (t : Txn D) : List UInt8 := (List.range t.aDb.length).flatMap t.nameBytes

theorem childNames_append {z : Name} (h : 0 ∉ z) (rest : List UInt8) (acc : Name) :
    childNames (z ++ 0 :: rest) acc = (acc ++ z) :: childNames rest [] := by
  induction z generalizing acc with
  | nil => simp [childNames]
  | cons b z ih =>
    obtain ⟨hb, hz⟩ := not_or.mp (mt List.mem_cons.mpr h)
    rw [List.cons_append, childNames, if_neg (Ne.symm hb), ih hz, List.append_assoc]
    rfl

theorem IsChild.lt {i : ℕ} (h : t.IsChild i) : i < t.aDb.length := by
  obtain ⟨db, z, hdb, -⟩ := h
  by_contra hn
  rw [dbAt, List.getElem?_eq_none (by omega)] at hdb
  cases hdb

theorem nameBytes_eq {i : ℕ} {db : Db} {z : Name} (hdb : dbAt t.aDb i = some db)
    (hin : db.isInTrans = true) (hz : db.journalName = some z) : t.nameBytes i = z ++ [0] := by
  rw [Txn.nameBytes, hdb, Option.bind_some, if_pos hin, hz]
  rfl

/-- What an entry adds is nothing or a name with its terminator. -/
theorem nameBytes_cases (t : Txn D) (i : ℕ) :
    t.nameBytes i = [] ∨ ∃ z, 0 ∉ z ∧ t.nameBytes i = z ++ [0] := by
  cases hdb : dbAt t.aDb i with
  | none => exact Or.inl (by rw [Txn.nameBytes, hdb]; rfl)
  | some db =>
    by_cases hin : db.isInTrans = true
    · cases hz : db.journalName with
      | none => exact Or.inl (by rw [Txn.nameBytes, hdb, Option.bind_some, if_pos hin, hz]; rfl)
      | some z =>
        refine Or.inr ⟨z, ?_, nameBytes_eq hdb hin hz⟩
        exact (t.journalName_ok i z (by rw [journalName, hdb, Option.bind_some, hz])).2
    · exact Or.inl (by rw [Txn.nameBytes, hdb, Option.bind_some, if_neg hin]; rfl)

/-- Every journal of the transaction is listed. -/
theorem mem_childNames_content {i : ℕ} {db : Db} {z : Name} (hdb : dbAt t.aDb i = some db)
    (hin : db.isInTrans = true) (hz : db.journalName = some z) :
    z ∈ childNames t.content [] := by
  have hlt : i < t.aDb.length := IsChild.lt ⟨db, z, hdb, hin, hz⟩
  rw [Txn.content]
  have hmem := List.mem_range.mpr hlt
  generalize List.range t.aDb.length = is at hmem
  induction is with
  | nil => cases hmem
  | cons k ks ih =>
    rw [List.flatMap_cons]
    rcases List.mem_cons.mp hmem with rfl | hk
    · have hok := t.journalName_ok i z (by rw [journalName, hdb, Option.bind_some, hz])
      rw [nameBytes_eq hdb hin hz, List.append_assoc, List.singleton_append,
        childNames_append hok.2, List.nil_append]
      exact List.mem_cons_self
    · rcases nameBytes_cases t k with hnil | ⟨y, hy, heq⟩
      · rw [hnil, List.nil_append]
        exact ih hk
      · rw [heq, List.append_assoc, List.singleton_append, childNames_append hy]
        exact List.mem_cons_of_mem _ (ih hk)

/-! ### The two invariants of the files -/

/-- The journal names the master journal of the transaction. -/
def Names (t : Txn D) (j : Option Jrnl) : Prop := ∃ j', j = some j' ∧ j'.master = some t.zMaster

/-- A file can still be rolled back: what it holds is something a rollback deals with, it is
untouched if its journal may turn out cold, and the master journal its journal names is there. -/
structure RollAt (t : Txn D) (i : ℕ) (master : Durable (Option (List UInt8)))
    (jrnl : Durable (Option Jrnl)) (db : Durable D) : Prop where
  dirty : db.poss ⊆ t.dirty i
  cold : ∀ v ∈ jrnl.poss, Cold v → db = .pure (t.orig i)
  named : ∀ j, some j ∈ jrnl.poss → ∀ z, j.master = some z →
    z = t.zMaster ∧ master = .pure (some t.content) ∧ Names t jrnl.cur

/-- A file is committed: it is complete, and its journal names a master journal. -/
structure CommAt (t : Txn D) (i : ℕ) (jrnl : Durable (Option Jrnl)) (db : Durable D) : Prop where
  db : db = .pure (t.new i)
  named : ∀ j, some j ∈ jrnl.poss → j.master = some t.zMaster

/-- The transaction can still be rolled back. -/
def Roll (t : Txn D) (s : FS D) : Prop :=
  ∀ i, t.IsChild i → RollAt t i s.master (s.jrnl i) (s.db i)

/-- The transaction is committed. -/
def Comm (t : Txn D) (s : FS D) : Prop :=
  s.master = .pure none ∧ ∀ i, t.IsChild i → CommAt t i (s.jrnl i) (s.db i)

theorem Roll.left {s s' : FS D} (h : Roll t s) (hleft : Left s s') : Roll t s' := by
  rcases hleft with rfl | hcrash
  · exact h
  intro i hi
  obtain ⟨d, hd, hdb⟩ := hcrash.db i
  obtain ⟨w, hw, hjrnl⟩ := hcrash.jrnl i
  obtain ⟨m, hm, hmaster⟩ := hcrash.master
  have hroll := h i hi
  rw [hdb, hjrnl, hmaster]
  constructor
  case dirty =>
    rintro _ rfl
    exact hroll.dirty hd
  case cold =>
    intro v hv hcold
    rw [Durable.mem_pure] at hv
    rw [hroll.cold w hw (by rwa [← hv]), Durable.mem_pure] at hd
    rw [hd]
  case named =>
    intro j hj z hz
    rw [Durable.mem_pure] at hj
    obtain ⟨rfl, hcontent, -⟩ := hroll.named j (by rwa [hj]) z hz
    rw [hcontent, Durable.mem_pure] at hm
    exact ⟨rfl, by rw [hm], j, by rw [Durable.pure_cur, hj], hz⟩

theorem Comm.left {s s' : FS D} (h : Comm t s) (hleft : Left s s') : Comm t s' := by
  rcases hleft with rfl | hcrash
  · exact h
  obtain ⟨hmaster, hcomm⟩ := h
  constructor
  · obtain ⟨v, hv, heq⟩ := hcrash.master
    rw [hmaster, Durable.mem_pure] at hv
    rw [heq, hv]
  · intro i hi
    obtain ⟨d, hd, hdb⟩ := hcrash.db i
    obtain ⟨w, hw, hjrnl⟩ := hcrash.jrnl i
    rw [(hcomm i hi).db, Durable.mem_pure] at hd
    rw [hdb, hjrnl, hd]
    refine ⟨rfl, fun j hj => (hcomm i hi).named j ?_⟩
    rw [Durable.mem_pure] at hj
    rwa [hj]

section Frames

variable {s : FS D} {i : ℕ} {jrnl : Durable (Option Jrnl)} {db : Durable D}

theorem Roll.setJrnl (h : Roll t s) (hi : t.IsChild i → RollAt t i s.master jrnl (s.db i)) :
    Roll t (s.setJrnl i jrnl) := by
  intro k hk
  rw [FS.setJrnl_master, FS.setJrnl_db, FS.setJrnl_jrnl]
  rcases eq_or_ne k i with rfl | hne
  · rw [Function.update_self]
    exact hi hk
  · rw [Function.update_of_ne hne]
    exact h k hk

theorem Roll.setDb (h : Roll t s) (hi : t.IsChild i → RollAt t i s.master (s.jrnl i) db) :
    Roll t (s.setDb i db) := by
  intro k hk
  rw [FS.setDb_master, FS.setDb_db, FS.setDb_jrnl]
  rcases eq_or_ne k i with rfl | hne
  · rw [Function.update_self]
    exact hi hk
  · rw [Function.update_of_ne hne]
    exact h k hk

theorem Comm.setJrnl (h : Comm t s) (hi : t.IsChild i → CommAt t i jrnl (s.db i)) :
    Comm t (s.setJrnl i jrnl) := by
  refine ⟨h.1, fun k hk => ?_⟩
  rw [FS.setJrnl_db, FS.setJrnl_jrnl]
  rcases eq_or_ne k i with rfl | hne
  · rw [Function.update_self]
    exact hi hk
  · rw [Function.update_of_ne hne]
    exact h.2 k hk

theorem Comm.setDb (h : Comm t s) (hi : t.IsChild i → CommAt t i (s.jrnl i) db) :
    Comm t (s.setDb i db) := by
  refine ⟨h.1, fun k hk => ?_⟩
  rw [FS.setDb_db, FS.setDb_jrnl]
  rcases eq_or_ne k i with rfl | hne
  · rw [Function.update_self]
    exact hi hk
  · rw [Function.update_of_ne hne]
    exact h.2 k hk

/-- A file whose journal is surely gone. -/
theorem commAt_none : CommAt t i (.pure none) (.pure (t.new i)) :=
  ⟨rfl, fun j hj => by rw [Durable.mem_pure] at hj; cases hj⟩

theorem rollAt_none {master : Durable (Option (List UInt8))} :
    RollAt t i master (.pure none) (.pure (t.orig i)) where
  dirty := by
    rintro _ rfl
    exact t.orig_dirty i
  cold := fun _ _ _ => rfl
  named := fun j hj => by rw [Durable.mem_pure] at hj; cases hj

end Frames

/-! ### The commit -/

/-- Database `i` is as the commit found it. -/
structure Waiting (t : Txn D) (s : FS D) (i : ℕ) : Prop where
  unmodified : ∀ db, dbAt t.aDb i = some db → db.modified = false →
    s.jrnl i = .pure none ∧ s.db i = .pure (t.orig i)
  modified : ∀ db, dbAt t.aDb i = some db → db.modified = true →
    (s.jrnl i).cur = some ⟨true, none⟩
  unnamed : ∀ j, some j ∈ (s.jrnl i).poss → j.master = none
  dirty : (s.db i).poss ⊆ t.dirty i
  cold : ∀ v ∈ (s.jrnl i).poss, Cold v → s.db i = .pure (t.orig i)

theorem Start.waiting {s : FS D} (h : Start t s) {i : ℕ} (hi : t.IsChild i) : Waiting t s i := by
  obtain ⟨db, z, hdb, -⟩ := id hi
  cases hm : db.modified with
  | false =>
    obtain ⟨hjrnl, hfile⟩ := h.unmodified i db hi hdb hm
    have hroll : RollAt t i s.master (s.jrnl i) (s.db i) := by
      rw [hjrnl, hfile]
      exact rollAt_none
    refine ⟨?_, ?_, ?_, hroll.dirty, hroll.cold⟩
    · exact fun _ _ _ => ⟨hjrnl, hfile⟩
    · intro db' hdb' hm'
      obtain rfl := Option.some.inj (hdb.symm.trans hdb')
      rw [hm] at hm'
      cases hm'
    · intro j hj
      rw [hjrnl, Durable.mem_pure] at hj
      cases hj
  | true =>
    obtain ⟨hcur, hunnamed, hdirty, hcold⟩ := h.modified i db hi hdb hm
    refine ⟨?_, fun _ _ _ => hcur, hunnamed, hdirty, fun v hv hc => hcold ⟨v, hv, hc⟩⟩
    intro db' hdb' hm'
    obtain rfl := Option.some.inj (hdb.symm.trans hdb')
    rw [hm] at hm'
    cases hm'

/-- A file whose journal has no name yet does not care about the master journal. -/
theorem Waiting.rollAt {s : FS D} {i : ℕ} (h : Waiting t s i)
    (master : Durable (Option (List UInt8))) : RollAt t i master (s.jrnl i) (s.db i) where
  dirty := h.dirty
  cold := h.cold
  named := fun j hj z hz => by
    rw [h.unnamed j hj] at hz
    cases hz

/-- Waiting is about the files of the database alone. -/
theorem Waiting.congr {s s' : FS D} {i : ℕ} (h : Waiting t s i) (hjrnl : s'.jrnl i = s.jrnl i)
    (hdb : s'.db i = s.db i) : Waiting t s' i :=
  ⟨by rw [hjrnl, hdb]; exact h.unmodified, by rw [hjrnl]; exact h.modified,
    by rw [hjrnl]; exact h.unnamed, by rw [hdb]; exact h.dirty, by rw [hjrnl, hdb]; exact h.cold⟩

section Run

open Run

/-- The master journal being filled: nothing but the master journal changes. -/
def Filling (t : Txn D) (todo : List ℕ) (s : FS D) : Prop :=
  (∀ i, t.IsChild i → Waiting t s i) ∧
    ∃ acc, s.master.cur = some acc ∧ acc ++ todo.flatMap t.nameBytes = t.content

theorem roll_of_waiting {s : FS D} (h : ∀ i, t.IsChild i → Waiting t s i) : Roll t s :=
  fun i hi => (h i hi).rollAt s.master

theorem filling_writeName {s : FS D} {i : ℕ} {is : List ℕ} (h : Filling t (i :: is) s) :
    Every (exec t) (Roll t) s (((dbAt t.aDb i).map (writeName i)).getD []) ∧
      Filling t is (last (exec t) s (((dbAt t.aDb i).map (writeName i)).getD [])) := by
  obtain ⟨hwait, acc, hcur, hacc⟩ := h
  have hroll := roll_of_waiting hwait
  rw [List.flatMap_cons, ← List.append_assoc] at hacc
  have hskip : t.nameBytes i = [] → Filling t is s := by
    intro hnil
    rw [hnil, List.append_nil] at hacc
    exact ⟨hwait, acc, hcur, hacc⟩
  cases hdb : dbAt t.aDb i with
  | none => exact ⟨hroll, hskip (by rw [Txn.nameBytes, hdb]; rfl)⟩
  | some db =>
    rw [Option.map_some, Option.getD_some, writeName]
    by_cases hin : db.isInTrans = true
    · rw [if_pos hin]
      cases hz : db.journalName with
      | none =>
        exact ⟨hroll, hskip (by rw [Txn.nameBytes, hdb, Option.bind_some, if_pos hin, hz]; rfl)⟩
      | some z =>
        have hwait' : ∀ k, t.IsChild k → Waiting t (exec t s (.writeMaster (z ++ [0]))) k :=
          fun k hk => (hwait k hk).congr rfl rfl
        rw [nameBytes_eq hdb hin hz] at hacc
        refine ⟨⟨hroll, roll_of_waiting hwait'⟩, hwait', acc ++ (z ++ [0]), ?_, hacc⟩
        rw [last_cons, last_nil, exec, Durable.write_cur, hcur, Option.getD_some]
    · rw [if_neg hin]
      exact ⟨hroll, hskip (by rw [Txn.nameBytes, hdb, Option.bind_some, if_neg hin]; rfl)⟩

/-- The first phase: the databases still to come wait, the others are complete. -/
structure Naming (t : Txn D) (todo : List ℕ) (s : FS D) : Prop where
  master : s.master = .pure (some t.content)
  roll : Roll t s
  waiting : ∀ i ∈ todo, t.IsChild i → Waiting t s i
  complete : ∀ i, i ∉ todo → t.IsChild i → CommAt t i (s.jrnl i) (s.db i)

/-- A file with a durable journal that names the master journal. -/
theorem rollAt_named {i : ℕ} {db : Durable D} (hdirty : db.poss ⊆ t.dirty i) :
    RollAt t i (.pure (some t.content)) (.pure (some ⟨true, some t.zMaster⟩)) db where
  dirty := hdirty
  cold := fun v hv hcold => by
    rw [Durable.mem_pure] at hv
    exact Bool.noConfusion (hcold _ hv)
  named := fun j hj z hz => by
    rw [Durable.mem_pure] at hj
    obtain rfl := Option.some.inj hj
    exact ⟨(Option.some.inj hz).symm, rfl, _, rfl, rfl⟩

/-- The name put at the end of a journal and not yet synced. -/
theorem Waiting.rollAt_write {s : FS D} {i : ℕ} (h : Waiting t s i)
    (hcur : (s.jrnl i).cur = some ⟨true, none⟩) :
    RollAt t i (.pure (some t.content))
      ((s.jrnl i).write (setMaster t.zMaster '' (s.jrnl i).poss)
        (setMaster t.zMaster (s.jrnl i).cur)) (s.db i) := by
  have hname : Names t (setMaster t.zMaster (s.jrnl i).cur) := by
    rw [hcur]
    exact ⟨_, rfl, rfl⟩
  constructor
  case dirty => exact h.dirty
  case cold =>
    intro v hv hcold
    rw [Durable.mem_write] at hv
    rcases hv with rfl | hv | ⟨w, hw, rfl⟩
    · rw [hcur] at hcold
      exact Bool.noConfusion (hcold ⟨true, some t.zMaster⟩ rfl)
    · exact h.cold v hv hcold
    · refine h.cold w hw fun j hj => ?_
      rw [hj] at hcold
      exact hcold { j with master := some t.zMaster } rfl
  case named =>
    intro j hj z hz
    rw [Durable.mem_write] at hj
    refine ⟨?_, rfl, hname⟩
    rcases hj with hj | hj | ⟨w, hw, hj⟩
    · obtain ⟨j', hj', hm⟩ := hname
      rw [hj', Option.some.injEq] at hj
      rw [hj, hm, Option.some.injEq] at hz
      exact hz.symm
    · rw [h.unnamed j hj] at hz
      cases hz
    · obtain ⟨j', -, rfl⟩ := Option.map_eq_some_iff.mp hj
      exact (Option.some.inj hz).symm

theorem naming_phaseOne {s : FS D} {i : ℕ} {is : List ℕ} (hnodup : i ∉ is)
    (h : Naming t (i :: is) s) :
    Every (exec t) (Roll t) s (((dbAt t.aDb i).map (phaseOne true i)).getD []) ∧
      Naming t is (last (exec t) s (((dbAt t.aDb i).map (phaseOne true i)).getD [])) := by
  -- nothing is done for a database without changes, and for one without a file
  have hskip : (∀ db, t.IsChild i → dbAt t.aDb i = some db → db.modified = false) →
      Naming t is s := by
    intro hnot
    refine ⟨h.master, h.roll, fun k hk => h.waiting k (List.mem_cons_of_mem _ hk), fun k hk hc => ?_⟩
    rcases eq_or_ne k i with rfl | hne
    · obtain ⟨db, z, hdb, -⟩ := id hc
      have hm := hnot db hc hdb
      obtain ⟨hjrnl, hfile⟩ := (h.waiting k List.mem_cons_self hc).unmodified db hdb hm
      rw [hjrnl, hfile, ← t.new_eq_orig k db hdb hm]
      exact commAt_none
    · exact h.complete k (fun hmem => (List.mem_cons.mp hmem).elim hne hk) hc
  cases hdb : dbAt t.aDb i with
  | none => exact ⟨h.roll, hskip fun db _ hdb' => by rw [hdb] at hdb'; cases hdb'⟩
  | some db =>
    rw [Option.map_some, Option.getD_some, phaseOne]
    by_cases hm : db.modified = true ∧ db.journalName.isSome = true
    · rw [if_pos hm, if_pos rfl]
      obtain ⟨z, hz⟩ := Option.isSome_iff_exists.mp hm.2
      have hi : t.IsChild i := ⟨db, z, hdb, t.inTrans_of_modified i db hdb hm.1, hz⟩
      have hwait := h.waiting i List.mem_cons_self hi
      have hcur := hwait.modified db hdb hm.1
      let s₁ := exec t s (.nameJrnl i)
      let s₂ := exec t s₁ (.syncJrnl i)
      let s₃ := exec t s₂ (.writeDb i)
      let s₄ := exec t s₃ (.syncDb i)
      have hj₂ : s₂.jrnl i = .pure (some ⟨true, some t.zMaster⟩) := by
        simp only [s₂, s₁, exec, FS.setJrnl_jrnl, Function.update_self, Durable.sync,
          Durable.write_cur, hcur]
        rfl
      have hd₄ : s₄.db i = .pure (t.new i) := by
        simp only [s₄, s₃, exec, FS.setDb_db, Function.update_self, Durable.sync,
          Durable.write_cur]
      have hroll₁ : Roll t s₁ := h.roll.setJrnl fun _ => by
        rw [h.master]
        exact hwait.rollAt_write hcur
      have hroll₂ : Roll t s₂ := hroll₁.setJrnl fun _ => by
        have hsync : (s₁.jrnl i).sync = s₂.jrnl i := (Function.update_self i _ s₁.jrnl).symm
        rw [hsync, hj₂, show s₁.master = s.master from rfl, h.master]
        exact rollAt_named hwait.dirty
      have hroll₃ : Roll t s₃ := hroll₂.setDb fun _ => by
        rw [hj₂, show s₂.master = s.master from rfl, h.master]
        refine rollAt_named ?_
        rintro d (rfl | hd | hd)
        exacts [t.new_dirty i, hwait.dirty hd, hd]
      have hroll₄ : Roll t s₄ := hroll₃.setDb fun _ => by
        have hsync : (s₃.db i).sync = s₄.db i := (Function.update_self i _ s₃.db).symm
        rw [hsync, hd₄, show s₃.jrnl i = s₂.jrnl i from rfl, hj₂,
          show s₃.master = s.master from rfl, h.master]
        refine rollAt_named ?_
        rintro d rfl
        exact t.new_dirty i
      have hframe : ∀ k, k ≠ i → s₄.jrnl k = s.jrnl k ∧ s₄.db k = s.db k := by
        intro k hk
        simp only [s₄, s₃, s₂, s₁, exec, FS.setDb_db, FS.setDb_jrnl, FS.setJrnl_db,
          FS.setJrnl_jrnl, Function.update_of_ne hk, and_self]
      refine ⟨⟨h.roll, hroll₁, hroll₂, hroll₃, hroll₄⟩, h.master, hroll₄, fun k hk hc => ?_,
        fun k hk hc => ?_⟩
      · obtain ⟨h1, h2⟩ := hframe k fun heq => hnodup (heq ▸ hk)
        exact (h.waiting k (List.mem_cons_of_mem _ hk) hc).congr h1 h2
      · rcases eq_or_ne k i with rfl | hne
        · change CommAt t k (s₄.jrnl k) (s₄.db k)
          rw [hd₄, show s₄.jrnl k = s₂.jrnl k from rfl, hj₂]
          refine ⟨rfl, fun j hj => ?_⟩
          rw [Durable.mem_pure, Option.some.injEq] at hj
          rw [hj]
        · obtain ⟨h1, h2⟩ := hframe k hne
          change CommAt t k (s₄.jrnl k) (s₄.db k)
          rw [h1, h2]
          exact h.complete k (fun hmem => (List.mem_cons.mp hmem).elim hne hk) hc
    · rw [if_neg hm]
      refine ⟨h.roll, hskip fun db' hc hdb' => ?_⟩
      obtain ⟨db'', z, hdb'', -, hz⟩ := hc
      obtain rfl := Option.some.inj (hdb.symm.trans hdb')
      obtain rfl := Option.some.inj (hdb.symm.trans hdb'')
      by_contra hne
      exact hm ⟨by simpa using hne, by rw [hz]; rfl⟩

theorem comm_phaseTwo {s : FS D} {i : ℕ} (h : Comm t s) :
    Every (exec t) (Comm t) s (((dbAt t.aDb i).map (phaseTwo i)).getD []) ∧
      Comm t (last (exec t) s (((dbAt t.aDb i).map (phaseTwo i)).getD [])) := by
  cases dbAt t.aDb i with
  | none => exact ⟨h, h⟩
  | some db =>
    rw [Option.map_some, Option.getD_some, phaseTwo]
    split
    · have hcomm : Comm t (exec t s (.deleteJrnl i)) := h.setJrnl fun hi => by
        rw [(h.2 i hi).db]
        exact commAt_none
      exact ⟨⟨h, hcomm⟩, hcomm⟩
    · exact ⟨h, h⟩

/-- **The commit, request by request.** With a file name for the main database and more than one
open transaction, the files can be rolled back until the master journal is deleted, and are
committed from then on. -/
theorem vdbeCommit_every (hmain : t.zMainFile ≠ []) (htrans : 2 ≤ t.nTrans) {s : FS D}
    (h : Start t s) : Every (exec t) (fun s => Roll t s ∨ Comm t s) s (vdbeCommit t) := by
  rw [vdbeCommit, if_neg (by rintro (hc | hc); exacts [hmain hc, by omega])]
  have hwait : ∀ i, t.IsChild i → Waiting t s i := fun i hi => h.waiting hi
  -- the name is free
  obtain ⟨s₁, hs₁, hwait₁, hevery₁⟩ : ∃ s₁, last (exec t) s
      (if t.stale then [.deleteMaster] else []) = s₁ ∧ (∀ i, t.IsChild i → Waiting t s₁ i) ∧
      Every (exec t) (Roll t) s (if t.stale then [.deleteMaster] else []) := by
    split
    · have hwait' : ∀ i, t.IsChild i → Waiting t (exec t s .deleteMaster) i :=
        fun i hi => (hwait i hi).congr rfl rfl
      exact ⟨_, rfl, hwait', roll_of_waiting hwait, roll_of_waiting hwait'⟩
    · exact ⟨s, rfl, hwait, roll_of_waiting hwait⟩
  -- the names are written
  have hfill : Filling t (List.range t.aDb.length) (exec t s₁ .createMaster) :=
    ⟨fun i hi => (hwait₁ i hi).congr rfl rfl, [], rfl, rfl⟩
  obtain ⟨hevery₂, hfilled⟩ := every_flatMap (P := Roll t) (I := Filling t)
    (fun _ hI => roll_of_waiting hI.1) (fun _ _ _ hI => filling_writeName hI) hfill
  obtain ⟨hwait₂, acc, hcur, hacc⟩ := hfilled
  rw [← Txn.forDbs] at hevery₂ hwait₂ hcur
  rw [List.flatMap_nil, List.append_nil] at hacc
  generalize hs₂ : last (exec t) (exec t s₁ .createMaster) (t.forDbs writeName) = s₂
    at hwait₂ hcur
  -- the first phase
  have hname : Naming t (List.range t.aDb.length) (exec t s₂ .syncMaster) := by
    have hwait₃ : ∀ i, t.IsChild i → Waiting t (exec t s₂ .syncMaster) i :=
      fun i hi => (hwait₂ i hi).congr rfl rfl
    refine ⟨?_, roll_of_waiting hwait₃, fun i _ hi => hwait₃ i hi, fun i hi hc => ?_⟩
    · rw [exec, Durable.sync, hcur, hacc]
    · exact absurd (List.mem_range.mpr (IsChild.lt hc)) hi
  obtain ⟨hevery₃, -, hnamed⟩ := every_flatMap (P := Roll t)
    (I := fun todo s => todo.Nodup ∧ Naming t todo s) (fun _ hI => hI.2.roll)
    (fun _ _ _ hI => by
      obtain ⟨hnodup, hI⟩ := hI
      obtain ⟨h1, h2⟩ := naming_phaseOne (List.nodup_cons.mp hnodup).1 hI
      exact ⟨h1, (List.nodup_cons.mp hnodup).2, h2⟩)
    ⟨List.nodup_range, hname⟩
  rw [← Txn.forDbs] at hevery₃ hnamed
  generalize hs₃ : last (exec t) (exec t s₂ .syncMaster) (t.forDbs (phaseOne true)) = s₃ at hnamed
  -- the master journal is deleted
  have hcomm : Comm t (exec t s₃ .deleteMaster) :=
    ⟨rfl, fun i hi => hnamed.complete i List.not_mem_nil hi⟩
  have hevery₄ : Every (exec t) (Comm t) (exec t s₃ .deleteMaster) (t.forDbs phaseTwo) :=
    (every_flatMap (I := fun _ => Comm t) (fun _ hI => hI) (fun _ _ _ hI => comm_phaseTwo hI)
      hcomm).1
  have hl : ∀ s, Roll t s → Roll t s ∨ Comm t s := fun _ => Or.inl
  simp only [every_append, last_append, hs₁, last_cons, last_nil, hs₂, hs₃]
  refine ⟨⟨⟨⟨⟨⟨hevery₁.mono hl, ?_⟩, hevery₂.mono hl⟩, ?_⟩, hevery₃.mono hl⟩, ?_⟩,
    hevery₄.mono fun _ => Or.inr⟩
  · exact ⟨Or.inl (roll_of_waiting hwait₁), Or.inl (roll_of_waiting hfill.1)⟩
  · exact ⟨Or.inl (roll_of_waiting hwait₂), Or.inl hname.roll⟩
  · exact ⟨Or.inl hnamed.roll, Or.inr hcomm⟩

end Run

/-! ### Recovery while the transaction can be rolled back -/

/-- What the process of database `i` may rely on where it stands. -/
def RollPc (t : Txn D) (s : FS D) (i : ℕ) : Pc → Prop
  | .hot => ∃ j, (s.jrnl i).cur = some j ∧ j.first = true
  | .opened => ∃ j, s.jrnl i = .pure (some j) ∧ j.first = true
  | .playback z res => (∃ j, s.jrnl i = .pure (some j) ∧ j.first = true ∧ j.master = z) ∧ res = true
  | .restored z res =>
    (∃ j, s.jrnl i = .pure (some j) ∧ j.first = true ∧ j.master = z) ∧ res = true ∧
      (s.db i).cur = t.orig i
  | .finalize z res =>
    (∃ j, s.jrnl i = .pure (some j) ∧ j.first = true ∧ j.master = z) ∧ res = true ∧
      s.db i = .pure (t.orig i)
  | .scan zs => ∀ k, t.IsChild k → Names t (s.jrnl k).cur →
    ∀ z, journalName t.aDb k = some z → z ∈ zs
  | _ => True

/-- The system while the transaction can be rolled back. -/
def RollSys (t : Txn D) (s : Sys D) : Prop :=
  Roll t s.fs ∧ ∀ i, t.IsChild i → RollPc t s.fs i (s.pc i)

/-- The processes of the other databases are not disturbed: their files are the same, and no
journal has gained a name. -/
theorem RollPc.congr {s s' : FS D} {i : ℕ} {pc : Pc} (h : RollPc t s i pc)
    (hjrnl : s'.jrnl i = s.jrnl i) (hdb : s'.db i = s.db i)
    (hnames : ∀ k, Names t (s'.jrnl k).cur → Names t (s.jrnl k).cur) : RollPc t s' i pc := by
  cases pc with
  | scan zs => exact fun k hk hn => h k hk (hnames k hn)
  | hot => simpa only [RollPc, hjrnl] using h
  | opened => simpa only [RollPc, hjrnl] using h
  | playback z res => simpa only [RollPc, hjrnl] using h
  | restored z res => simpa only [RollPc, hjrnl, hdb] using h
  | finalize z res => simpa only [RollPc, hjrnl, hdb] using h
  | idle => trivial
  | delmaster => trivial
  | done => trivial

section Goto

variable {s : Sys D} {i : ℕ} {pc : Pc}

/-- A step of process `i` on its own files. -/
theorem RollSys.goto (h : RollSys t s) {fs : FS D} (hroll : Roll t fs)
    (hjrnl : ∀ k, k ≠ i → fs.jrnl k = s.fs.jrnl k) (hdb : ∀ k, k ≠ i → fs.db k = s.fs.db k)
    (hnames : Names t (fs.jrnl i).cur → Names t (s.fs.jrnl i).cur)
    (hpc : t.IsChild i → RollPc t fs i pc) : RollSys t (s.goto i fs pc) := by
  refine ⟨hroll, fun k hk => ?_⟩
  rw [Sys.goto]
  dsimp only
  rcases eq_or_ne k i with rfl | hne
  · rw [Function.update_self]
    exact hpc hk
  · rw [Function.update_of_ne hne]
    refine (h.2 k hk).congr (hjrnl k hne) (hdb k hne) fun l hl => ?_
    rcases eq_or_ne l i with rfl | hne'
    · exact hnames hl
    · rwa [hjrnl l hne'] at hl

/-- A step that leaves the files alone. -/
theorem RollSys.stay (h : RollSys t s) (hpc : t.IsChild i → RollPc t s.fs i pc) :
    RollSys t (s.goto i s.fs pc) :=
  h.goto h.1 (fun _ _ => rfl) (fun _ _ => rfl) id hpc

theorem RollSys.setJrnl (h : RollSys t s) {j : Durable (Option Jrnl)}
    (hroll : t.IsChild i → RollAt t i s.fs.master j (s.fs.db i))
    (hnames : Names t j.cur → Names t (s.fs.jrnl i).cur)
    (hpc : t.IsChild i → RollPc t (s.fs.setJrnl i j) i pc) :
    RollSys t (s.goto i (s.fs.setJrnl i j) pc) := by
  refine h.goto (h.1.setJrnl hroll) (fun k hk => ?_) (fun _ _ => rfl) ?_ hpc
  · rw [FS.setJrnl_jrnl, Function.update_of_ne hk]
  · rw [FS.setJrnl_jrnl, Function.update_self]
    exact hnames

theorem RollSys.setDb (h : RollSys t s) {d : Durable D}
    (hroll : t.IsChild i → RollAt t i s.fs.master (s.fs.jrnl i) d)
    (hpc : t.IsChild i → RollPc t (s.fs.setDb i d) i pc) :
    RollSys t (s.goto i (s.fs.setDb i d) pc) := by
  refine h.goto (h.1.setDb hroll) (fun _ _ => rfl) (fun k hk => ?_) id hpc
  rw [FS.setDb_db, Function.update_of_ne hk]

theorem not_names_none : ¬ Names t none := by
  rintro ⟨j, hj, -⟩
  cases hj

/-- A file with a hot journal on disk takes any content a rollback deals with. -/
theorem RollAt.of_hot {master : Durable (Option (List UInt8))} {j : Jrnl} {d d' : Durable D}
    (h : RollAt t i master (.pure (some j)) d) (hfirst : j.first = true)
    (hdirty : d'.poss ⊆ t.dirty i) : RollAt t i master (.pure (some j)) d' where
  dirty := hdirty
  cold := fun v hv hcold => by
    rw [Durable.mem_pure] at hv
    have := hcold j hv
    rw [hfirst] at this
    cases this
  named := h.named

end Goto

/-- A journal is found by its name. -/
theorem jrnlNamed_eq {fs : FS D} {i : ℕ} {z : Name} (hi : t.IsChild i)
    (hz : journalName t.aDb i = some z) : jrnlNamed t fs z = (fs.jrnl i).cur := by
  have hfind : (List.range t.aDb.length).find? (fun k => journalName t.aDb k = some z) = some i := by
    rw [List.find?_eq_some_iff_getElem]
    refine ⟨by simpa using hz, i, by simpa using IsChild.lt hi, by simp, fun k hk => ?_⟩
    rw [List.getElem_range]
    have hne : journalName t.aDb k ≠ some z := fun hk' => by
      have := t.journalName_inj k i z hk' hz
      omega
    simpa using hne
  rw [jrnlNamed, hfind, Option.bind_some]

theorem IsChild.mem_content {i : ℕ} {z : Name} (hi : t.IsChild i)
    (hz : journalName t.aDb i = some z) : z ∈ childNames t.content [] := by
  obtain ⟨db, z', hdb, hin, hz'⟩ := hi
  rw [journalName, hdb, Option.bind_some, hz', Option.some.injEq] at hz
  rw [← hz]
  exact mem_childNames_content hdb hin hz'

/-- A journal that names the master journal can rely on it. -/
theorem Roll.master_of_names {s : FS D} (h : Roll t s) {i : ℕ} (hi : t.IsChild i)
    (hn : Names t (s.jrnl i).cur) : s.master = .pure (some t.content) := by
  obtain ⟨j, hj, hz⟩ := hn
  exact ((h i hi).named j (by rw [← hj]; exact (s.jrnl i).cur_mem) _ hz).2.1

/-- A recovery opens the journal: the file is empty and the journal goes, or the journal is hot. -/
theorem RollSys.advance_idle {s : Sys D} (h : RollSys t s) {i : ℕ} (hi : t.IsChild i)
    (hp : s.pc i = .idle) : RollSys t (advance t s i) := by
  have hroll := h.1 i hi
  rw [Multi.advance, hp]
  dsimp only
  cases hcur : (s.fs.jrnl i).cur with
  | none => exact h.stay fun _ => trivial
  | some j =>
    dsimp only
    by_cases hzero : t.nPage (s.fs.db i).cur = 0
    · rw [if_pos hzero]
      have horig : (s.fs.db i).cur = t.orig i :=
        t.eq_orig_of_nPage i _ (hroll.dirty (s.fs.db i).cur_mem) hzero
      have hfs : ∀ k, k ≠ i → ((s.fs.setDb i (s.fs.db i).sync).setJrnl i (.pure none)).jrnl k
          = s.fs.jrnl k := fun k hk => by
        rw [FS.setJrnl_jrnl, Function.update_of_ne hk, FS.setDb_jrnl]
      refine h.goto ?_ hfs (fun k hk => ?_) ?_ fun _ => trivial
      · intro k hk
        rcases eq_or_ne k i with rfl | hne
        · rw [FS.setJrnl_jrnl, Function.update_self, FS.setJrnl_db, FS.setDb_db,
            Function.update_self, Durable.sync, horig]
          exact rollAt_none
        · rw [hfs k hne, FS.setJrnl_db, FS.setDb_db, Function.update_of_ne hne]
          exact h.1 k hk
      · rw [FS.setJrnl_db, FS.setDb_db, Function.update_of_ne hk]
      · rw [FS.setJrnl_jrnl, Function.update_self]
        exact fun hn => absurd hn not_names_none
    · rw [if_neg hzero]
      cases hfirst : j.first with
      | true => exact h.stay fun _ => ⟨j, hcur, hfirst⟩
      | false => exact h.stay fun _ => trivial

/-- A recovery syncs the journal that it found hot. -/
theorem RollSys.advance_hot {s : Sys D} (h : RollSys t s) {i : ℕ} (hi : t.IsChild i)
    (hp : s.pc i = .hot) : RollSys t (advance t s i) := by
  have hroll := h.1 i hi
  have hpc := h.2 i hi
  rw [Multi.advance, hp]
  rw [hp] at hpc
  obtain ⟨j, hcur, hfirst⟩ := hpc
  have hmem : some j ∈ (s.fs.jrnl i).poss := by
    rw [← hcur]
    exact (s.fs.jrnl i).cur_mem
  refine h.setJrnl (fun _ => ⟨hroll.dirty, ?_, ?_⟩) id fun _ => ⟨j, ?_, hfirst⟩
  · rintro v hv hcold
    rw [Durable.sync, hcur, Durable.mem_pure] at hv
    exact hroll.cold v (by rwa [hv]) hcold
  · intro j' hj' z hz
    rw [Durable.sync, hcur, Durable.mem_pure] at hj'
    exact hroll.named j' (by rwa [hj']) z hz
  · rw [FS.setJrnl_jrnl, Function.update_self, Durable.sync, hcur]

/-- `pager_delmaster` looks at the next name of the master journal. -/
theorem RollSys.advance_scan {s : Sys D} (h : RollSys t s) {i : ℕ} (hi : t.IsChild i)
    {zs : List Name} (hp : s.pc i = .scan zs) : RollSys t (advance t s i) := by
  have hpc := h.2 i hi
  rw [Multi.advance, hp]
  rw [hp] at hpc
  cases zs with
  | nil =>
    -- no journal names the master journal any more
    refine h.goto (fun k hk => ?_) (fun _ _ => rfl) (fun _ _ => rfl) id fun _ => trivial
    refine ⟨(h.1 k hk).dirty, (h.1 k hk).cold, fun j hj z hz => ?_⟩
    obtain ⟨rfl, -, hn⟩ := (h.1 k hk).named j hj z hz
    obtain ⟨db, y, hdb, -, hy⟩ := id hk
    have := hpc k hk hn y (by rw [journalName, hdb, Option.bind_some, hy])
    cases this
  | cons z zs =>
    dsimp only
    have hskip : (∀ j, jrnlNamed t s.fs z = some j → j.master ≠ some t.zMaster) →
        RollSys t (s.goto i s.fs (.scan zs)) := by
      intro hno
      refine h.stay fun _ k hk hn y hy => ?_
      rcases List.mem_cons.mp (hpc k hk hn y hy) with rfl | hmem
      · obtain ⟨j, hj, hm⟩ := hn
        exact absurd hm (hno j (by rw [jrnlNamed_eq hk hy, hj]))
      · exact hmem
    cases hj : jrnlNamed t s.fs z with
    | none => exact hskip fun j hj' => by rw [hj] at hj'; cases hj'
    | some j =>
      dsimp only
      by_cases hm : j.master = some t.zMaster
      · rw [if_pos hm]
        exact h.stay fun _ => trivial
      · rw [if_neg hm]
        refine hskip fun j' hj' => ?_
        rw [hj, Option.some.injEq] at hj'
        rwa [← hj']

/-- **One request of a recovery**, while the transaction can be rolled back. -/
theorem RollSys.advance {s : Sys D} (h : RollSys t s) {i : ℕ} (hi : t.IsChild i) :
    RollSys t (advance t s i) := by
  have hroll := h.1 i hi
  have hpc := h.2 i hi
  cases hp : s.pc i with
  | idle => exact h.advance_idle hi hp
  | hot => exact h.advance_hot hi hp
  | scan zs => exact h.advance_scan hi hp
  | opened =>
    rw [hp] at hpc
    obtain ⟨j, hj, hfirst⟩ := hpc
    rw [Multi.advance, hp]
    dsimp only
    rw [hj, Durable.pure_cur]
    refine h.stay fun _ => ⟨⟨j, hj, hfirst, rfl⟩, ?_⟩
    cases hz : j.master with
    | none => rfl
    | some z =>
      obtain ⟨rfl, hm, -⟩ := hroll.named j (by rw [hj]; rfl) z hz
      rw [Option.all_some, masterExists, hm]
      simp
  | playback z res =>
    rw [hp] at hpc
    obtain ⟨⟨j, hj, hfirst, hz⟩, rfl⟩ := hpc
    rw [Multi.advance, hp]
    dsimp only
    rw [if_pos rfl]
    refine h.setDb (fun _ => ?_) fun _ => ⟨⟨j, hj, hfirst, hz⟩, rfl, ?_⟩
    · rw [hj] at hroll ⊢
      refine hroll.of_hot hfirst ?_
      rintro d (rfl | hd | hd)
      exacts [t.orig_dirty i, hroll.dirty hd, hd]
    · rw [FS.setDb_db, Function.update_self, Durable.write_cur]
  | restored z res =>
    rw [hp] at hpc
    obtain ⟨⟨j, hj, hfirst, hz⟩, hres, hcur⟩ := hpc
    rw [Multi.advance, hp]
    dsimp only
    refine h.setDb (fun _ => ?_) fun _ => ⟨⟨j, hj, hfirst, hz⟩, hres, ?_⟩
    · rw [hj] at hroll ⊢
      refine hroll.of_hot hfirst ?_
      rw [Durable.sync, hcur]
      rintro d rfl
      exact t.orig_dirty i
    · rw [FS.setDb_db, Function.update_self, Durable.sync, hcur]
  | finalize z res =>
    rw [hp] at hpc
    obtain ⟨-, -, hdb⟩ := hpc
    rw [Multi.advance, hp]
    dsimp only
    refine h.setJrnl (fun _ => ?_) (fun hn => absurd hn not_names_none) fun _ => ?_
    · rw [hdb]
      exact rollAt_none
    · split <;> trivial
  | delmaster =>
    rw [Multi.advance, hp]
    dsimp only
    cases hcur : s.fs.master.cur with
    | none => exact h.stay fun _ => trivial
    | some zMasterJournal =>
      refine h.stay fun _ k hk hn z hz => ?_
      have hm := h.1.master_of_names hk hn
      rw [hm, Durable.pure_cur, Option.some.injEq] at hcur
      rw [← hcur]
      exact IsChild.mem_content hk hz
  | done =>
    rw [Multi.advance, hp]
    exact h.stay fun _ => trivial

/-! ### Recovery after the commit -/

/-- After the commit nothing is played back, and no process gets as far as the master journal. -/
def CommPc : Pc → Prop
  | .playback _ res => res = false
  | .restored _ res => res = false
  | .finalize _ res => res = false
  | .delmaster => False
  | .scan _ => False
  | _ => True

/-- The system after the commit. -/
def CommSys (t : Txn D) (s : Sys D) : Prop :=
  Comm t s.fs ∧ ∀ i, t.IsChild i → CommPc (s.pc i)

theorem CommSys.goto {s : Sys D} (h : CommSys t s) {i : ℕ} {fs : FS D} {pc : Pc}
    (hcomm : Comm t fs) (hpc : CommPc pc) : CommSys t (s.goto i fs pc) := by
  refine ⟨hcomm, fun k hk => ?_⟩
  rw [Sys.goto]
  dsimp only
  rcases eq_or_ne k i with rfl | hne
  · rw [Function.update_self]
    exact hpc
  · rw [Function.update_of_ne hne]
    exact h.2 k hk

/-- **One request of a recovery** after the commit. -/
theorem CommSys.advance {s : Sys D} (h : CommSys t s) {i : ℕ} (hi : t.IsChild i) :
    CommSys t (advance t s i) := by
  have hcomm := h.1.2 i hi
  have hpc := h.2 i hi
  have hsync : (s.fs.db i).sync = s.fs.db i := by
    rw [hcomm.db, Durable.sync_pure]
  have hgone : CommAt t i (.pure none) (s.fs.db i) := by
    rw [hcomm.db]
    exact commAt_none
  rw [Multi.advance]
  cases hp : s.pc i with
  | idle =>
    dsimp only
    cases hcur : (s.fs.jrnl i).cur with
    | none => exact h.goto h.1 trivial
    | some j =>
      dsimp only
      split
      · refine h.goto (Comm.setJrnl (h.1.setDb fun _ => ?_) fun _ => ?_) trivial
        · rwa [hsync]
        · rwa [FS.setDb_db, Function.update_self, hsync]
      · split <;> exact h.goto h.1 trivial
  | hot =>
    refine h.goto (h.1.setJrnl fun _ => ⟨hcomm.db, fun j hj => hcomm.named j ?_⟩) trivial
    rw [Durable.sync, Durable.mem_pure] at hj
    rw [hj]
    exact (s.fs.jrnl i).cur_mem
  | opened =>
    dsimp only
    cases hcur : (s.fs.jrnl i).cur with
    | none => exact h.goto h.1 trivial
    | some j =>
      have hz := hcomm.named j (by rw [← hcur]; exact (s.fs.jrnl i).cur_mem)
      refine h.goto h.1 ?_
      rw [CommPc, hz, Option.all_some, masterExists, h.1.1, Durable.pure_cur, Option.isSome_none,
        Bool.and_false]
  | playback z res =>
    rw [hp] at hpc
    obtain rfl : res = false := hpc
    exact h.goto h.1 rfl
  | restored z res =>
    rw [hp] at hpc
    refine h.goto (h.1.setDb fun _ => ?_) hpc
    rwa [hsync]
  | finalize z res =>
    rw [hp] at hpc
    obtain rfl : res = false := hpc
    refine h.goto (h.1.setJrnl fun _ => hgone) ?_
    rw [if_neg (by simp)]
    trivial
  | delmaster =>
    rw [hp] at hpc
    exact hpc.elim
  | scan zs =>
    rw [hp] at hpc
    exact hpc.elim
  | done => exact h.goto h.1 trivial

/-! ### All or nothing -/

theorem RollSys.step {s s' : Sys D} (h : RollSys t s) (hstep : Step t s s') : RollSys t s' := by
  cases hstep with
  | advance i hi => exact h.advance hi
  | kill i => exact h.stay fun _ => trivial
  | crash fs hcrash => exact ⟨h.1.left (Or.inr hcrash), fun _ _ => trivial⟩

theorem CommSys.step {s s' : Sys D} (h : CommSys t s) (hstep : Step t s s') : CommSys t s' := by
  cases hstep with
  | advance i hi => exact h.advance hi
  | kill i => exact h.goto h.1 trivial
  | crash fs hcrash => exact ⟨h.1.left (Or.inr hcrash), fun _ _ => trivial⟩

/-- However long the recovery goes on, it stays on one side of the commit. -/
theorem rollSys_or_commSys {s s' : Sys D} (h : RollSys t s ∨ CommSys t s)
    (hrun : Relation.ReflTransGen (Step t) s s') : RollSys t s' ∨ CommSys t s' := by
  induction hrun with
  | refl => exact h
  | tail _ hstep ih => exact ih.imp (fun hr => hr.step hstep) fun hc => hc.step hstep

/-- The databases with files and open transactions are among those `vdbeCommit` counts. -/
theorem children_le_nTrans (t : Txn D) : t.children.length ≤ t.nTrans := by
  rw [Txn.children, Txn.nTrans, ← List.countP_eq_length_filter, ← List.countP_eq_length_filter]
  refine List.countP_mono_left fun i _ hi => ?_
  rw [Option.any_eq_true] at hi ⊢
  obtain ⟨db, hdb, hin⟩ := hi
  rw [Bool.and_eq_true] at hin
  refine ⟨db, hdb, ?_⟩
  rw [Bool.and_eq_true]
  refine ⟨hin.1, ?_⟩
  rw [bne_iff_ne]
  rintro rfl
  have htemp := t.temp
  rw [journalName, hdb, Option.bind_some] at htemp
  rw [htemp] at hin
  exact Bool.noConfusion hin.2

/-- **A commit of several files is all or nothing**, for every crash and every recovery, when the
main database has a file name. -/
theorem allOrNothing (t : Txn D) (hmain : t.zMainFile ≠ []) (hk : 2 ≤ t.children.length) :
    AllOrNothing t := by
  intro fs₀ hstart n fs₁ hleft s hrun
  have hevery := vdbeCommit_every hmain (hk.trans (children_le_nTrans t)) hstart
  have hinit : RollSys t ⟨fs₁, fun _ => .idle⟩ ∨ CommSys t ⟨fs₁, fun _ => .idle⟩ :=
    (hevery.take n).imp (fun hr => ⟨hr.left hleft, fun _ _ => trivial⟩)
      fun hc => ⟨hc.left hleft, fun _ _ => trivial⟩
  rcases rollSys_or_commSys hinit hrun with ⟨hroll, hpc⟩ | ⟨hcomm, hpc⟩
  · refine ⟨fun hcold => Or.inr fun i hi => ?_, fun i hi hscan j hj jrnl hcur hname => ?_⟩
    · exact (hroll i hi).cold _ (s.fs.jrnl i).cur_mem (hcold i hi)
    · have hlist := hpc i hi
      rw [hscan] at hlist
      obtain ⟨db, z, hdb, -, hz⟩ := id hj
      have := hlist j hj ⟨jrnl, hcur, hname⟩ z (by rw [journalName, hdb, Option.bind_some, hz])
      cases this
  · refine ⟨fun _ => Or.inl fun i hi => (hcomm.2 i hi).db, fun i hi hscan => ?_⟩
    have hlist := hpc i hi
    rw [hscan] at hlist
    exact hlist.elim

/-! ### Two attached files -/

/-- A main database that takes no part, in memory or in a file, and two attached files that have
been changed. -/
def twoFilesDb (mem : Bool) : List (Option Db) :=
  [some ⟨false, if mem then none else some [99], false⟩, none, some ⟨true, some [97], true⟩,
    some ⟨true, some [98], true⟩]

theorem journalName_twoFilesDb {mem : Bool} {i : ℕ} {z : Name}
    (h : journalName (twoFilesDb mem) i = some z) :
    (i = 0 ∧ z = [99]) ∨ (i = 2 ∧ z = [97]) ∨ (i = 3 ∧ z = [98]) := by
  rcases i with _ | _ | _ | _ | i
  all_goals cases mem
  all_goals simp_all [journalName, dbAt, twoFilesDb]

/-- The transaction on the two attached files, with contents that are old or new. -/
def twoFiles (mem : Bool) : Txn Bool where
  zMainFile := if mem then [] else [77]
  zMaster := [109]
  stale := false
  aDb := twoFilesDb mem
  nPage := fun _ => 1
  orig := fun _ => false
  new := fun i => decide (2 ≤ i)
  dirty := fun _ => Set.univ
  temp := rfl
  inTrans_of_modified := by
    intro i db hdb hm
    rcases i with _ | _ | _ | _ | i
    all_goals simp_all [dbAt, twoFilesDb]
    all_goals rw [← hdb] at hm ⊢
    all_goals first | rfl | cases hm
  new_eq_orig := by
    intro i db hdb hm
    rcases i with _ | _ | _ | _ | i
    all_goals simp_all [dbAt, twoFilesDb]
    all_goals rw [← hdb] at hm
    all_goals cases hm
  orig_dirty := fun _ => trivial
  new_dirty := fun _ => trivial
  eq_orig_of_nPage := fun _ _ _ h => absurd h (by decide)
  journalName_inj := by
    intro i j z hi hj
    rcases journalName_twoFilesDb hi with ⟨rfl, rfl⟩ | ⟨rfl, rfl⟩ | ⟨rfl, rfl⟩
    all_goals rcases journalName_twoFilesDb hj with ⟨rfl, h⟩ | ⟨rfl, h⟩ | ⟨rfl, h⟩
    all_goals first | rfl | exact absurd h (by decide)
  journalName_ok := by
    intro i z hi
    rcases journalName_twoFilesDb hi with ⟨-, rfl⟩ | ⟨-, rfl⟩ | ⟨-, rfl⟩
    all_goals decide

/-- With the main database in a file, the two commit together. -/
theorem allOrNothing_twoFiles : AllOrNothing (twoFiles false) :=
  allOrNothing (twoFiles false) (by decide) (by decide)

/-- The files when both attached databases have a durable journal and are themselves untouched. -/
def twoFilesStart : FS Bool where
  master := .pure none
  jrnl := fun i => if 2 ≤ i then .pure (some ⟨true, none⟩) else .pure none
  db := fun _ => .pure false

theorem isChild_twoFiles {mem : Bool} {i : ℕ} (h : (twoFiles mem).IsChild i) : i = 2 ∨ i = 3 := by
  obtain ⟨db, z, hdb, hin, -⟩ := h
  rcases i with _ | _ | _ | _ | i
  · cases Option.some.inj hdb
    cases hin
  · cases hdb
  · exact Or.inl rfl
  · exact Or.inr rfl
  · cases hdb

theorem start_twoFiles (mem : Bool) : Start (twoFiles mem) twoFilesStart where
  master := fun _ => rfl
  unmodified := by
    intro i db hi hdb hm
    rcases isChild_twoFiles hi with rfl | rfl
    all_goals
      cases Option.some.inj hdb
      cases hm
  modified := by
    intro i db hi hdb hm
    have hjrnl : twoFilesStart.jrnl i = .pure (some ⟨true, none⟩) :=
      if_pos (by rcases isChild_twoFiles hi with rfl | rfl <;> omega)
    rw [hjrnl]
    refine ⟨rfl, fun j hj => ?_, fun _ _ => trivial, fun _ => rfl⟩
    rw [Durable.mem_pure, Option.some.injEq] at hj
    rw [hj]

/-- **A `:memory:` main database.** Two attached files have open transactions; the commit crashes
after it has deleted the journal of the first, and the second is rolled back. -/
theorem not_allOrNothing_memoryMain :
    2 ≤ (twoFiles true).children.length ∧ ¬ AllOrNothing (twoFiles true) := by
  refine ⟨by decide, fun h => ?_⟩
  have h2 : (twoFiles true).IsChild 2 := ⟨_, _, rfl, rfl, rfl⟩
  have h3 : (twoFiles true).IsChild 3 := ⟨_, _, rfl, rfl, rfl⟩
  obtain ⟨hout, -⟩ := h twoFilesStart (start_twoFiles true) 7 _ (Or.inl rfl) _
    (.tail (.tail (.tail (.tail (.tail (.tail .refl (.advance _ 3 h3)) (.advance _ 3 h3))
      (.advance _ 3 h3)) (.advance _ 3 h3)) (.advance _ 3 h3)) (.advance _ 3 h3))
  have hor := hout fun i hi => by
    rcases isChild_twoFiles hi with rfl | rfl
    all_goals exact fun j hj => nomatch hj
  rcases hor with hnew | horig
  · exact Bool.noConfusion (congrArg Durable.cur (hnew 3 h3))
  · exact Bool.noConfusion (congrArg Durable.cur (horig 2 h2))

end Multi

end SqliteVms

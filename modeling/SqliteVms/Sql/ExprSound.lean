import SqliteVms.Sql.ExprCode

/-!
# The value code of an expression

`sqlite3ExprCodeTarget` against the meaning of an expression. The code it makes leaves the value in
the register it names, in whatever program the code stands, and leaves the registers alone that are
in use.

A temporary register is one that is free, and is not used for anything else until it is released.

## Main definitions

* `eval`, `logic` — the value of an expression, and its truth value by a reading of the leaves
* `Ready`, `Kept`, `Grow`, `Ext` — the registers of the parser, and code within code
* `RunsTo` — what a piece of code does in any program

## Main results

* `codesTemp` — `sqlite3ExprCodeTemp`
* `targetCode` — `sqlite3ExprCodeTarget`
-/

namespace SqliteVms

open Vdbe Segment

namespace Code

variable {R : Reading}

/-! ### Meaning -/

/-- Whether a value passes a test for NULL. -/
def nullTest (op : NullTest) (v : Value) : Bool := decide (op = .isNull) == decide (v = .null)

/-- The value of an expression. -/
def eval (R : Reading) (m : Regs) : Expr → Value
  | .value v => v
  | .register r => m r
  | .and x y => opLogic R andLogic (eval R m y) (eval R m x)
  | .or x y => opLogic R orLogic (eval R m y) (eval R m x)
  | .not x => opNot R (eval R m x)
  | .cmp op x y => ofTruth (compareOp op.token false (eval R m y) (eval R m x))
  | .is x y => ofTruth (compareOp Cmp.eq.token true (eval R m y) (eval R m x))
  | .isNot x y => ofTruth (compareOp Cmp.ne.token true (eval R m y) (eval R m x))
  | .null op x => ofTruth (some (nullTest op (eval R m x)))
  | .between x y z =>
    opLogic R andLogic (ofTruth (compareOp Cmp.ge.token false (eval R m y) (eval R m x)))
      (ofTruth (compareOp Cmp.le.token false (eval R m z) (eval R m x)))

/-- The truth value of an expression, by the reading `T` of what its connectives connect. -/
def logic (R : Reading) (T : Value → Truth) (m : Regs) : Expr → Truth
  | .and x y => (logic R T m x).and (logic R T m y)
  | .or x y => (logic R T m x).or (logic R T m y)
  | .not x => (logic R T m x).not
  | e => T (eval R m e)

theorem eval_congr {m m' : Regs} {e : Expr} (h : ∀ r ∈ e.regs, m' r = m r) :
    eval R m' e = eval R m e := by
  induction e with
  | value v => rfl
  | register r => exact h r List.mem_cons_self
  | and x y ihx ihy | or x y ihx ihy | cmp op x y ihx ihy | is x y ihx ihy | isNot x y ihx ihy =>
    have hx := ihx fun r hr => h r (List.mem_append_left _ hr)
    have hy := ihy fun r hr => h r (List.mem_append_right _ hr)
    simp only [eval, hx, hy]
  | not x ih | null op x ih => simp only [eval, ih h]
  | between x y z ihx ihy ihz =>
    have hx := ihx fun r hr => h r (List.mem_append_left _ (List.mem_append_left _ hr))
    have hy := ihy fun r hr => h r (List.mem_append_left _ (List.mem_append_right _ hr))
    have hz := ihz fun r hr => h r (List.mem_append_right _ hr)
    simp only [eval, hx, hy, hz]

theorem logic_congr {T : Value → Truth} {m m' : Regs} {e : Expr} (h : ∀ r ∈ e.regs, m' r = m r) :
    logic R T m' e = logic R T m e := by
  induction e with
  | and x y ihx ihy | or x y ihx ihy =>
    have hx := ihx fun r hr => h r (List.mem_append_left _ hr)
    have hy := ihy fun r hr => h r (List.mem_append_right _ hr)
    simp only [logic, hx, hy]
  | not x ih => simp only [logic, ih h]
  | _ => exact congrArg T (eval_congr h)

/-! ### Registers -/

/-- The registers that are free are different, and there are that many. -/
structure Ready (p : Parse) : Prop where
  nodup : p.aTempReg.Nodup
  le : ∀ r ∈ p.aTempReg, r ≤ p.nMem

/-- A register that is in use. -/
def Kept (p : Parse) (r : ℕ) : Prop := r ≤ p.nMem ∧ r ∉ p.aTempReg

/-- New code behind the old, with new labels, and without the registers in use. -/
structure Grow (p p' : Parse) : Prop where
  ops : p.aOp <+: p'.aOp
  labels : p.aLabel <+: p'.aLabel
  kept : ∀ r, Kept p r → Kept p' r

/-- The code in a program. Its jumps go where they do there. -/
structure Ext (p F : Parse) : Prop where
  ops : p.aOp <+: F.aOp
  labels : ∀ (i a : ℕ), p.aLabel[i]? = some (some a) → F.aLabel[i]? = some (some a)

variable {p p' p'' F : Parse} {f : ℕ}

theorem getElem?_of_initial {α : Type*} {xs ys : List α} (h : xs <+: ys) {i : ℕ} {x : α}
    (hi : xs[i]? = some x) : ys[i]? = some x := by
  obtain ⟨zs, rfl⟩ := h
  obtain ⟨hlt, -⟩ := List.getElem?_eq_some_iff.mp hi
  rw [List.getElem?_append_left hlt, hi]

theorem Kept.ne {a b : ℕ} (ha : Kept p a) (hb : ¬Kept p b) : a ≠ b := fun h => hb (h ▸ ha)

theorem Grow.refl (p : Parse) : Grow p p :=
  ⟨List.prefix_refl _, List.prefix_refl _, fun _ h => h⟩

theorem Grow.trans (h : Grow p p') (h' : Grow p' p'') : Grow p p'' :=
  ⟨h.ops.trans h'.ops, h.labels.trans h'.labels, fun r hr => h'.kept r (h.kept r hr)⟩

theorem Grow.nOp_le (h : Grow p p') : p.nOp ≤ p'.nOp := h.ops.length_le

theorem Grow.ext (h : Grow p p') (hF : Ext p' F) : Ext p F :=
  ⟨h.ops.trans hF.ops, fun i a hi => hF.labels i a (getElem?_of_initial h.labels hi)⟩

theorem grow_addOp (p : Parse) (op : Op) : Grow p (p.addOp op) :=
  ⟨List.prefix_append _ _, List.prefix_refl _, fun _ h => h⟩

theorem ready_addOp (h : Ready p) (op : Op) : Ready (p.addOp op) := ⟨h.nodup, h.le⟩

theorem nOp_addOp (p : Parse) (op : Op) : (p.addOp op).nOp = p.nOp + 1 := List.length_append

/-- The opcode in the program. -/
theorem Ext.opAt {op : Op} (h : Ext (p.addOp op) F) : F.aOp[p.nOp]? = some op :=
  getElem?_of_initial h.ops List.getElem?_concat_length

/-- A new register. -/
theorem sqlite3GetTempReg_spec (h : Ready p) {r1 : ℕ} {p1 : Parse}
    (hget : p.sqlite3GetTempReg = (r1, p1)) :
    Ready p1 ∧ Grow p p1 ∧ Kept p1 r1 ∧ ¬Kept p r1 ∧ p1.nOp = p.nOp := by
  rw [Parse.sqlite3GetTempReg] at hget
  split at hget
  · rename_i hnil
    obtain ⟨rfl, rfl⟩ := Prod.mk.inj hget
    have hempty : ∀ r, r ∉ p.aTempReg := by
      intro r
      rw [hnil]
      exact List.not_mem_nil
    refine ⟨⟨h.nodup, fun r hr => absurd hr (hempty r)⟩,
      ⟨List.prefix_refl _, List.prefix_refl _, fun r hr => ⟨Nat.le_succ_of_le hr.1, hempty r⟩⟩,
      ⟨le_rfl, hempty _⟩, fun hr => absurd hr.1 (Nat.not_succ_le_self _), rfl⟩
  · rename_i r rest hcons
    obtain ⟨rfl, rfl⟩ := Prod.mk.inj hget
    have hnodup := h.nodup
    rw [hcons] at hnodup
    obtain ⟨hr1, hrest⟩ := List.nodup_cons.mp hnodup
    refine ⟨⟨hrest, fun r hr => h.le r (by rw [hcons]; exact List.mem_cons_of_mem _ hr)⟩,
      ⟨List.prefix_refl _, List.prefix_refl _, fun r hr => ⟨hr.1, fun hin => hr.2 ?_⟩⟩,
      ⟨h.le _ (by rw [hcons]; exact List.mem_cons_self), hr1⟩, fun hr => hr.2 ?_, rfl⟩
    · rw [hcons]
      exact List.mem_cons_of_mem _ hin
    · rw [hcons]
      exact List.mem_cons_self

/-- A register that is to be released, if there is one. -/
def Held (p p' : Parse) (f : ℕ) : Prop := f ≠ 0 → ¬Kept p f ∧ Kept p' f

theorem release_cases (p : Parse) (f : ℕ) :
    p.sqlite3ReleaseTempReg f = p ∨
      f ≠ 0 ∧ p.sqlite3ReleaseTempReg f = { p with aTempReg := f :: p.aTempReg } := by
  rw [Parse.sqlite3ReleaseTempReg]
  split
  · rename_i h
    exact Or.inr ⟨h.1, rfl⟩
  · exact Or.inl rfl

/-- A register is released. -/
theorem release_spec (hready : Ready p') (hgrow : Grow p p') (hheld : Held p p' f) :
    Ready (p'.sqlite3ReleaseTempReg f) ∧ Grow p (p'.sqlite3ReleaseTempReg f) ∧
      (p'.sqlite3ReleaseTempReg f).aOp = p'.aOp ∧
      (p'.sqlite3ReleaseTempReg f).aLabel = p'.aLabel ∧
      ∀ r, Kept p' r → (f ≠ 0 → r ≠ f) → Kept (p'.sqlite3ReleaseTempReg f) r := by
  rcases release_cases p' f with heq | ⟨hf, heq⟩
  · rw [heq]
    exact ⟨hready, hgrow, rfl, rfl, fun r hr _ => hr⟩
  · rw [heq]
    obtain ⟨hfree, hkept⟩ := hheld hf
    have hother : ∀ r, Kept p' r → r ≠ f → Kept { p' with aTempReg := f :: p'.aTempReg } r :=
      fun r hr hne => ⟨hr.1, List.not_mem_cons_of_ne_of_not_mem hne hr.2⟩
    refine ⟨⟨List.nodup_cons.mpr ⟨hkept.2, hready.nodup⟩, fun r hr => ?_⟩,
      ⟨hgrow.ops, hgrow.labels, fun r hr => hother r (hgrow.kept r hr) fun h => hfree (h ▸ hr)⟩,
      rfl, rfl, fun r hr hne => hother r hr (hne hf)⟩
    rcases List.mem_cons.mp hr with rfl | hr
    · exact hkept.1
    · exact hready.le r hr

theorem Ext.of_eq (h : Ext p F) (hops : p'.aOp = p.aOp) (hlabels : p'.aLabel = p.aLabel) :
    Ext p' F :=
  ⟨by rw [hops]; exact h.ops, by rw [hlabels]; exact h.labels⟩

/-- Several registers are released. -/
theorem release_all {fs : List ℕ} (hready : Ready p') (hgrow : Grow p p')
    (hheld : ∀ f ∈ fs, Held p p' f) (hne : fs.Pairwise fun f g => g ≠ 0 → g ≠ f) :
    Ready (fs.foldl Parse.sqlite3ReleaseTempReg p') ∧
      Grow p (fs.foldl Parse.sqlite3ReleaseTempReg p') ∧
      (fs.foldl Parse.sqlite3ReleaseTempReg p').aOp = p'.aOp ∧
      (fs.foldl Parse.sqlite3ReleaseTempReg p').aLabel = p'.aLabel := by
  induction fs generalizing p' with
  | nil => exact ⟨hready, hgrow, rfl, rfl⟩
  | cons f fs ih =>
    obtain ⟨hfirst, hrest⟩ := List.pairwise_cons.mp hne
    obtain ⟨hready₁, hgrow₁, hops, hlabels, hkept⟩ :=
      release_spec hready hgrow (hheld f List.mem_cons_self)
    have hheld₁ : ∀ g ∈ fs, Held p (p'.sqlite3ReleaseTempReg f) g := by
      intro g hg h0
      obtain ⟨hfree, hk⟩ := hheld g (List.mem_cons_of_mem _ hg) h0
      exact ⟨hfree, hkept g hk fun _ => hfirst g hg h0⟩
    obtain ⟨hready₂, hgrow₂, hops₂, hlabels₂⟩ := ih hready₁ hgrow₁ hheld₁ hrest
    exact ⟨hready₂, hgrow₂, hops₂.trans hops, hlabels₂.trans hlabels⟩

/-! ### Runs of generated code -/

/-- The code between `p` and `p'`, in any program, runs from its beginning to its end, and changes
the registers as `Q` says. -/
def RunsTo (R : Reading) (p p' : Parse) (Q : Regs → Regs → Prop) : Prop :=
  ∀ F, Ext p' F → ∀ m, ∃ m', Runs (step R F) p.nOp p'.nOp (p.nOp, m) (p'.nOp, m') ∧ Q m m'

variable {Q Q' : Regs → Regs → Prop}

theorem RunsTo.seq (h : RunsTo R p p' Q) (h' : RunsTo R p' p'' Q') (hgrow : Grow p p')
    (hgrow' : Grow p' p'') : RunsTo R p p'' fun m m'' => ∃ m', Q m m' ∧ Q' m' m'' := by
  intro F hF m
  obtain ⟨m', hrun, hQ⟩ := h F (hgrow'.ext hF) m
  obtain ⟨m'', hrun', hQ'⟩ := h' F hF m'
  exact ⟨m'', hrun.seq hrun' hgrow.nOp_le hgrow'.nOp_le, m', hQ, hQ'⟩

theorem RunsTo.mono (h : RunsTo R p p' Q) (hQ : ∀ m m', Q m m' → Q' m m') : RunsTo R p p' Q' := by
  intro F hF m
  obtain ⟨m', hrun, hm'⟩ := h F hF m
  exact ⟨m', hrun, hQ m m' hm'⟩

/-- An opcode that goes on to the next one. -/
theorem RunsTo.op {op : Op} {u : Regs → Regs}
    (hstep : ∀ F m, F.aOp[p.nOp]? = some op → step R F (p.nOp, m) = some (p.nOp + 1, u m)) :
    RunsTo R p (p.addOp op) fun m m' => m' = u m := by
  intro F hF m
  refine ⟨u m, ?_, rfl⟩
  rw [nOp_addOp]
  exact Runs.one (hstep F m hF.opAt)

theorem RunsTo.of_eq (h : RunsTo R p p' Q) (hops : p''.aOp = p'.aOp)
    (hlabels : p''.aLabel = p'.aLabel) : RunsTo R p p'' Q := by
  intro F hF m
  have hn : p''.nOp = p'.nOp := congrArg List.length hops
  rw [hn]
  exact h F (hF.of_eq hops.symm hlabels.symm) m

/-! ### The value code -/

/-- Code for the value of an expression, with the register it names. -/
structure CodesTarget (R : Reading) (e : Expr) (target : ℕ) (p : Parse) (c : ℕ × Parse) : Prop where
  ready : Ready c.2
  grow : Grow p c.2
  kept : Kept c.2 c.1
  run : RunsTo R p c.2 fun m m' =>
    m' c.1 = eval R m e ∧ ∀ x, Kept p x → x ≠ target → m' x = m x

/-- Code generated for any target is code for the value. -/
def TargetCode (R : Reading) (e : Expr) : Prop :=
  ∀ (p : Parse) (target : ℕ), Ready p → Kept p target →
    (∀ r ∈ e.regs, Kept p r ∧ r ≠ target) →
    CodesTarget R e target p (sqlite3ExprCodeTarget e target p)

/-- Code for the value of an expression in a temporary register, with the one to be released. -/
structure CodesTemp (R : Reading) (e : Expr) (p : Parse) (c : ℕ × ℕ × Parse) : Prop where
  ready : Ready c.2.2
  grow : Grow p c.2.2
  kept : Kept c.2.2 c.1
  held : Held p c.2.2 c.2.1
  run : RunsTo R p c.2.2 fun m m' => m' c.1 = eval R m e ∧ ∀ x, Kept p x → m' x = m x

/-- **`sqlite3ExprCodeTemp`** takes a register and gives it back if it was not needed. -/
theorem codesTemp {e : Expr} (he : TargetCode R e) (hready : Ready p)
    (hregs : ∀ r ∈ e.regs, Kept p r) : CodesTemp R e p (sqlite3ExprCodeTemp e p) := by
  rcases hget : p.sqlite3GetTempReg with ⟨r1, p1⟩
  obtain ⟨hready₁, hgrow₁, hkept₁, hfree, hn⟩ := sqlite3GetTempReg_spec hready hget
  have hne : ∀ x, Kept p x → x ≠ r1 := fun x hx heq => hfree (heq ▸ hx)
  have hcode := he p1 r1 hready₁ hkept₁ fun r hr =>
    ⟨hgrow₁.kept r (hregs r hr), hne r (hregs r hr)⟩
  have hrun : RunsTo R p (sqlite3ExprCodeTarget e r1 p1).2 fun m m' =>
      m' (sqlite3ExprCodeTarget e r1 p1).1 = eval R m e ∧ ∀ x, Kept p x → m' x = m x := by
    intro F hF m
    obtain ⟨m', hrun, hval, hframe⟩ := hcode.run F hF m
    rw [hn] at hrun
    exact ⟨m', hrun, hval, fun x hx => hframe x (hgrow₁.kept x hx) (hne x hx)⟩
  have hkeep := hcode.grow.kept r1 hkept₁
  have htemp : sqlite3ExprCodeTemp e p
      = if (sqlite3ExprCodeTarget e r1 p1).1 = r1 then
          ((sqlite3ExprCodeTarget e r1 p1).1, r1, (sqlite3ExprCodeTarget e r1 p1).2)
        else ((sqlite3ExprCodeTarget e r1 p1).1, 0,
          (sqlite3ExprCodeTarget e r1 p1).2.sqlite3ReleaseTempReg r1) := by
    rw [sqlite3ExprCodeTemp, Parse.exprCodeTemp, hget]
  rw [htemp]
  split
  · exact ⟨hcode.ready, hgrow₁.trans hcode.grow, hcode.kept, fun _ => ⟨hfree, hkeep⟩, hrun⟩
  · rename_i hother
    obtain ⟨hready₂, hgrow₂, hops, hlabels, hkept₂⟩ := release_spec hcode.ready
      (hgrow₁.trans hcode.grow) fun _ => ⟨hfree, hkeep⟩
    exact ⟨hready₂, hgrow₂, hkept₂ _ hcode.kept fun _ => hother, fun h => absurd rfl h,
      hrun.of_eq hops hlabels⟩

/-- Two values in temporary registers. -/
structure CodesPair (R : Reading) (x y : Expr) (p : Parse) (r1 f1 r2 f2 : ℕ) (p' : Parse) :
    Prop where
  ready : Ready p'
  grow : Grow p p'
  kept : Kept p' r1 ∧ Kept p' r2
  held : Held p p' f1 ∧ Held p p' f2
  ne : f2 ≠ 0 → f2 ≠ f1 ∧ f2 ≠ r1
  run : RunsTo R p p' fun m m' =>
    m' r1 = eval R m x ∧ m' r2 = eval R m y ∧ ∀ x, Kept p x → m' x = m x

theorem codesPair {x y : Expr} (hx : TargetCode R x) (hy : TargetCode R y) (hready : Ready p)
    (hregs : ∀ r ∈ x.regs ++ y.regs, Kept p r) {r1 f1 r2 f2 : ℕ} {p1 p2 : Parse}
    (h1 : sqlite3ExprCodeTemp x p = (r1, f1, p1)) (h2 : sqlite3ExprCodeTemp y p1 = (r2, f2, p2)) :
    CodesPair R x y p r1 f1 r2 f2 p2 := by
  have hregsy : ∀ r ∈ y.regs, Kept p r := fun r hr => hregs r (List.mem_append_right _ hr)
  have c1 := codesTemp hx hready fun r hr => hregs r (List.mem_append_left _ hr)
  rw [h1] at c1
  have c2 := codesTemp hy c1.ready fun r hr => c1.grow.kept r (hregsy r hr)
  rw [h2] at c2
  constructor
  case ready => exact c2.ready
  case grow => exact c1.grow.trans c2.grow
  case kept => exact ⟨c2.grow.kept r1 c1.kept, c2.kept⟩
  case held =>
    exact ⟨fun hf => ⟨(c1.held hf).1, c2.grow.kept f1 (c1.held hf).2⟩,
      fun hf => ⟨fun hk => (c2.held hf).1 (c1.grow.kept f2 hk), (c2.held hf).2⟩⟩
  case ne =>
    intro hf
    refine ⟨?_, ?_⟩
    · rintro rfl
      exact (c2.held hf).1 (c1.held hf).2
    · rintro rfl
      exact (c2.held hf).1 c1.kept
  case run =>
    refine (c1.run.seq c2.run c1.grow c2.grow).mono ?_
    rintro m m'' ⟨m', ⟨hval₁, hframe₁⟩, hval₂, hframe₂⟩
    refine ⟨(hframe₂ r1 c1.kept).trans hval₁, ?_, fun x hx => ?_⟩
    · rw [hval₂]
      exact eval_congr fun r hr => hframe₁ r (hregsy r hr)
    · rw [hframe₂ x (c1.grow.kept x hx), hframe₁ x hx]

/-- The registers of two values are released behind the opcode that uses them. -/
theorem CodesPair.release {x y : Expr} {r1 f1 r2 f2 : ℕ} (h : CodesPair R x y p r1 f1 r2 f2 p')
    (op : Op) :
    Ready (((p'.addOp op).sqlite3ReleaseTempReg f1).sqlite3ReleaseTempReg f2) ∧
      Grow p (((p'.addOp op).sqlite3ReleaseTempReg f1).sqlite3ReleaseTempReg f2) ∧
      (((p'.addOp op).sqlite3ReleaseTempReg f1).sqlite3ReleaseTempReg f2).aOp
        = (p'.addOp op).aOp ∧
      (((p'.addOp op).sqlite3ReleaseTempReg f1).sqlite3ReleaseTempReg f2).aLabel
        = (p'.addOp op).aLabel := by
  have hheld : ∀ f ∈ [f1, f2], Held p (p'.addOp op) f := by
    intro f hf
    rcases List.mem_pair.mp hf with rfl | rfl
    · exact h.held.1
    · exact h.held.2
  exact release_all (ready_addOp h.ready op) (h.grow.trans (grow_addOp p' op)) hheld
    (List.pairwise_pair.mpr fun hf => (h.ne hf).1)

/-- An opcode that stores what it makes of two values. -/
theorem CodesPair.store {x y e : Expr} {r1 f1 r2 f2 target : ℕ} {u : Regs → Value}
    (h : CodesPair R x y p r1 f1 r2 f2 p') (op : Op) (htarget : Kept p target)
    (hstep : ∀ F m, F.aOp[p'.nOp]? = some op →
      step R F (p'.nOp, m) = some (p'.nOp + 1, Function.update m target (u m)))
    (hval : ∀ m m' : Regs, m' r1 = eval R m x → m' r2 = eval R m y → u m' = eval R m e) :
    CodesTarget R e target p
      (target, ((p'.addOp op).sqlite3ReleaseTempReg f1).sqlite3ReleaseTempReg f2) := by
  obtain ⟨hready, hgrow, hops, hlabels⟩ := h.release op
  constructor
  case ready => exact hready
  case grow => exact hgrow
  case kept => exact hgrow.kept target htarget
  case run =>
    refine RunsTo.of_eq (RunsTo.mono (h.run.seq (RunsTo.op hstep) h.grow (grow_addOp p' op)) ?_)
      hops hlabels
    rintro m m'' ⟨m', ⟨hval₁, hval₂, hframe⟩, rfl⟩
    refine ⟨(Function.update_self _ _ _).trans (hval m m' hval₁ hval₂), fun k hk hne => ?_⟩
    exact (Function.update_of_ne hne _ _).trans (hframe k hk)

/-- A comparison that stores its result. -/
theorem step_store {F : Parse} {m : Regs} {pc opcode in1 in2 target : ℕ} {nullEq : Bool}
    (h : F.aOp[pc]? = some (.compare opcode in2 target in1 ⟨true, nullEq, false⟩)) :
    step R F (pc, m)
      = some (pc + 1, Function.update m target (ofTruth (compareOp opcode nullEq (m in2) (m in1)))) := by
  rw [step, h]
  rfl

/-- An operator of two values whose opcode stores its result. -/
theorem targetCode_pair {x y e : Expr} (op : ℕ → ℕ → ℕ → Op) (u : Value → Value → Value)
    (hx : TargetCode R x) (hy : TargetCode R y) (hregs : e.regs = x.regs ++ y.regs)
    (hcode : ∀ target p, sqlite3ExprCodeTarget e target p
      = codeBinary op (sqlite3ExprCodeTarget x) (sqlite3ExprCodeTarget y) target p)
    (hstep : ∀ {F : Parse} {m : Regs} {pc p1 p2 p3 : ℕ}, F.aOp[pc]? = some (op p1 p2 p3) →
      step R F (pc, m) = some (pc + 1, Function.update m p3 (u (m p1) (m p2))))
    (heval : ∀ m, eval R m e = u (eval R m y) (eval R m x)) : TargetCode R e := by
  intro p target hready htarget he
  rw [hregs] at he
  rcases h1 : sqlite3ExprCodeTemp x p with ⟨r1, f1, p1⟩
  rcases h2 : sqlite3ExprCodeTemp y p1 with ⟨r2, f2, p2⟩
  have hpair := codesPair hx hy hready (fun r hr => (he r hr).1) h1 h2
  have hstored := hpair.store (e := e) (op r2 r1 target) htarget (fun F m hop => hstep hop)
    fun m m' hv₁ hv₂ => by rw [hv₁, hv₂, heval]
  have hbinary : sqlite3ExprCodeTarget e target p
      = (target, ((p2.addOp (op r2 r1 target)).sqlite3ReleaseTempReg f1).sqlite3ReleaseTempReg f2) := by
    rw [sqlite3ExprCodeTemp] at h1 h2
    rw [hcode, codeBinary, h1]
    dsimp only
    rw [h2]
  rw [hbinary]
  exact hstored

theorem targetCode_compare {x y e : Expr} {opcode : ℕ} {nullEq : Bool} (hx : TargetCode R x)
    (hy : TargetCode R y) (hregs : e.regs = x.regs ++ y.regs)
    (hcode : ∀ target p, sqlite3ExprCodeTarget e target p = codeCompareTarget opcode nullEq
      (sqlite3ExprCodeTarget x) (sqlite3ExprCodeTarget y) target p)
    (heval : ∀ m, eval R m e = ofTruth (compareOp opcode nullEq (eval R m y) (eval R m x))) :
    TargetCode R e :=
  targetCode_pair (fun r2 r1 target => .compare opcode r2 target r1 ⟨true, nullEq, false⟩)
    (fun v w => ofTruth (compareOp opcode nullEq v w)) hx hy hregs hcode step_store heval

theorem step_and {F : Parse} {m : Regs} {pc p1 p2 p3 : ℕ} (h : F.aOp[pc]? = some (.and p1 p2 p3)) :
    step R F (pc, m)
      = some (pc + 1, Function.update m p3 (opLogic R andLogic (m p1) (m p2))) := by
  rw [step, h]
  rfl

theorem step_or {F : Parse} {m : Regs} {pc p1 p2 p3 : ℕ} (h : F.aOp[pc]? = some (.or p1 p2 p3)) :
    step R F (pc, m)
      = some (pc + 1, Function.update m p3 (opLogic R orLogic (m p1) (m p2))) := by
  rw [step, h]
  rfl

theorem targetCode_value (v : Value) : TargetCode R (.value v) := by
  intro p target hready htarget _
  constructor
  case ready => exact ready_addOp hready _
  case grow => exact grow_addOp p _
  case kept => exact htarget
  case run =>
    refine (RunsTo.op (u := fun m => Function.update m target v) fun F m hop => ?_).mono ?_
    · rw [step, hop]
      rfl
    · rintro m m' rfl
      exact ⟨Function.update_self _ _ _, fun x _ hne => Function.update_of_ne hne _ _⟩

theorem targetCode_register (r : ℕ) : TargetCode R (.register r) := by
  intro p target hready _ hregs
  refine ⟨hready, Grow.refl p, (hregs r List.mem_cons_self).1, fun F _ m => ?_⟩
  exact ⟨m, Runs.refl _, rfl, fun _ _ _ => rfl⟩

theorem targetCode_not {x : Expr} (hx : TargetCode R x) : TargetCode R (.not x) := by
  intro p target hready htarget he
  rcases h1 : sqlite3ExprCodeTemp x p with ⟨r1, f1, p1⟩
  have c1 := codesTemp hx hready fun r hr => (he r hr).1
  rw [h1] at c1
  have hnot : sqlite3ExprCodeTarget (.not x) target p
      = (target, (p1.addOp (.not r1 target)).sqlite3ReleaseTempReg f1) := by
    rw [sqlite3ExprCodeTemp] at h1
    rw [sqlite3ExprCodeTarget, h1]
  obtain ⟨hready₁, hgrow₁, hops, hlabels, -⟩ := release_spec (ready_addOp c1.ready (.not r1 target))
    (c1.grow.trans (grow_addOp p1 _)) c1.held
  rw [hnot]
  constructor
  case ready => exact hready₁
  case grow => exact hgrow₁
  case kept => exact hgrow₁.kept target htarget
  case run =>
    have hop : RunsTo R p1 (p1.addOp (.not r1 target)) fun m m' =>
        m' = Function.update m target (opNot R (m r1)) := by
      refine RunsTo.op fun F m hop => ?_
      rw [step, hop]
      rfl
    refine RunsTo.of_eq (RunsTo.mono (c1.run.seq hop c1.grow (grow_addOp p1 _)) ?_) hops hlabels
    rintro m m'' ⟨m', ⟨hval, hframe⟩, rfl⟩
    refine ⟨(Function.update_self _ _ _).trans (by rw [hval, eval]), fun k hk hne => ?_⟩
    exact (Function.update_of_ne hne _ _).trans (hframe k hk)

/-- A test for NULL and the addition it jumps over. -/
theorem jumpHere_null (p : Parse) (opcode r : ℕ) (op : Op) :
    (((p.addOp (.null opcode r 0)).addOp op).jumpHere p.nOp)
      = { p with aOp := p.aOp ++ [.null opcode r ((p.nOp + 2 : ℕ) : ℤ), op] } := by
  have hmodify : ∀ (xs : List Op) (f : Op → Op) (a b : Op),
      ((xs ++ [a]) ++ [b]).modify xs.length f = xs ++ [f a, b] := by
    intro xs f a b
    induction xs with
    | nil => rfl
    | cons x xs ih => exact congrArg (x :: ·) ih
  rw [Parse.jumpHere, Parse.nOp, Parse.addOp, Parse.addOp, hmodify, Parse.nOp, List.length_append,
    List.length_append]
  rfl

/-- The jump of a test for NULL. -/
theorem step_null {F : Parse} {m : Regs} {pc r : ℕ} {dest : ℤ} {op : NullTest}
    (h : F.aOp[pc]? = some (.null op.token r dest)) :
    step R F (pc, m) = some (if nullTest op (m r) then F.addr dest else pc + 1, m) := by
  rw [step, h]
  cases op with
  | isNull => by_cases hnull : m r = .null <;> simp [hnull, NullTest.token, nullTest]
  | notNull => by_cases hnull : m r = .null <;> simp [hnull, NullTest.token, nullTest]

/-- The code for a test for NULL: from 1 in the target to the result. -/
theorem runsTo_null (op : NullTest) (r target : ℕ) :
    RunsTo R p (((p.addOp (.null op.token r 0)).addOp (.addImm target (-1))).jumpHere p.nOp)
      fun m m' => m target = .int 1 → m' = Function.update m target
        (ofTruth (some (nullTest op (m r)))) := by
  rw [jumpHere_null]
  intro F hF m
  have hn : Parse.nOp { p with
      aOp := p.aOp ++ [.null op.token r ((p.nOp + 2 : ℕ) : ℤ), .addImm target (-1)] } = p.nOp + 2 :=
    List.length_append
  have hnull : F.aOp[p.nOp]? = some (.null op.token r ((p.nOp + 2 : ℕ) : ℤ)) := by
    refine getElem?_of_initial hF.ops (Eq.trans (List.getElem?_append_right le_rfl) ?_)
    rw [Parse.nOp, Nat.sub_self]
    rfl
  have hadd : F.aOp[p.nOp + 1]? = some (.addImm target (-1)) := by
    refine getElem?_of_initial hF.ops (Eq.trans (List.getElem?_append_right (Nat.le_succ _)) ?_)
    rw [Parse.nOp, Nat.add_sub_cancel_left]
    rfl
  have haddr : F.addr ((p.nOp + 2 : ℕ) : ℤ) = p.nOp + 2 := by
    rw [Parse.addr, if_neg (Int.not_lt.mpr (Int.natCast_nonneg _)), Int.toNat_natCast]
  have hstep : step R F (p.nOp, m)
      = some (if nullTest op (m r) then p.nOp + 2 else p.nOp + 1, m) := by
    rw [step_null hnull, haddr]
  rw [hn]
  cases htaken : nullTest op (m r) with
  | true =>
    rw [htaken, if_pos rfl] at hstep
    refine ⟨m, (Runs.one hstep).mono le_rfl (Nat.le_succ _), fun h1 => ?_⟩
    rw [htaken]
    exact ((congrArg _ h1.symm).trans (Function.update_eq_self target m)).symm
  | false =>
    rw [htaken, if_neg Bool.false_ne_true] at hstep
    have hadd' : step R F (p.nOp + 1, m) = some (p.nOp + 2, Function.update m target
        (.int (sqlite3VdbeIntValue R (m target) + -1))) := by
      rw [step, hadd]
      rfl
    refine ⟨_, (Runs.one hstep).snoc (Nat.le_succ _) hadd', fun h1 => ?_⟩
    have hzero : sqlite3VdbeIntValue R (.int 1) + -1 = 0 := (by decide : (1 : Int64) + -1 = 0)
    rw [htaken, h1, hzero]
    rfl

theorem targetCode_null {x : Expr} (op : NullTest) (hx : TargetCode R x) :
    TargetCode R (.null op x) := by
  intro p target hready htarget he
  rcases h1 : sqlite3ExprCodeTemp x (p.addOp (.const (.int 1) target)) with ⟨r1, f1, p1⟩
  have c1 := codesTemp hx (ready_addOp hready (.const (.int 1) target)) fun r hr => (he r hr).1
  rw [h1] at c1
  have hnull : sqlite3ExprCodeTarget (.null op x) target p
      = (target, (((p1.addOp (.null op.token r1 0)).addOp (.addImm target (-1))).jumpHere
          p1.nOp).sqlite3ReleaseTempReg f1) := by
    rw [sqlite3ExprCodeTemp] at h1
    rw [sqlite3ExprCodeTarget, h1]
  have hone : RunsTo R p (p.addOp (.const (.int 1) target)) fun m m' =>
      m' = Function.update m target (.int 1) := by
    refine RunsTo.op fun F m hop => ?_
    rw [step, hop]
    rfl
  have htest := runsTo_null (R := R) (p := p1) op r1 target
  have hgrow₁ : Grow p1 (((p1.addOp (.null op.token r1 0)).addOp
      (.addImm target (-1))).jumpHere p1.nOp) := by
    rw [jumpHere_null]
    exact ⟨List.prefix_append _ _, List.prefix_refl _, fun _ h => h⟩
  have hgrow := (grow_addOp p (.const (.int 1) target)).trans (c1.grow.trans hgrow₁)
  have hready₁ : Ready (((p1.addOp (.null op.token r1 0)).addOp
      (.addImm target (-1))).jumpHere p1.nOp) := ⟨c1.ready.nodup, c1.ready.le⟩
  obtain ⟨hready₂, hgrow₂, hops, hlabels, -⟩ := release_spec hready₁ hgrow c1.held
  rw [hnull]
  constructor
  case ready => exact hready₂
  case grow => exact hgrow₂
  case kept => exact hgrow₂.kept target htarget
  case run =>
    refine RunsTo.of_eq (RunsTo.mono (hone.seq (c1.run.seq htest c1.grow hgrow₁)
      (grow_addOp p _) (c1.grow.trans hgrow₁)) ?_) hops hlabels
    rintro m m₃ ⟨m₁, rfl, m₂, ⟨hval, hframe⟩, htest⟩
    have hsame : ∀ k, Kept p k → k ≠ target → m₂ k = m k := fun k hk hne =>
      (hframe k hk).trans (Function.update_of_ne hne _ _)
    have heval : eval R (Function.update m target (.int 1)) x = eval R m x :=
      eval_congr fun r hr => Function.update_of_ne (he r hr).2 _ _
    rw [htest ((hframe target htarget).trans (Function.update_self _ _ _)), hval, heval]
    exact ⟨Function.update_self _ _ _, fun k hk hne =>
      (Function.update_of_ne hne _ _).trans (hsame k hk hne)⟩

/-- The code of a `BETWEEN` up to its first comparison: the operand is in `r1`, the result of the
comparison in `r3`, and `r4` is for the result of the other one. -/
structure CodesLow (R : Reading) (x y : Expr) (p : Parse) (r1 f1 r3 r4 : ℕ) (p' : Parse) :
    Prop where
  ready : Ready p'
  grow : Grow p p'
  kept : Kept p' r1 ∧ Kept p' r3 ∧ Kept p' r4
  free : ¬Kept p r3 ∧ ¬Kept p r4
  held : Held p p' f1
  ne : r3 ≠ r4 ∧ (f1 ≠ 0 → f1 ≠ r3 ∧ f1 ≠ r4)
  run : RunsTo R p p' fun m m' => m' r1 = eval R m x ∧
    m' r3 = ofTruth (compareOp Cmp.ge.token false (eval R m y) (eval R m x)) ∧
    ∀ k, Kept p k → m' k = m k

theorem CodesPair.low {x y : Expr} {r1 f1 r2 f2 r3 r4 : ℕ} {p2 p3 p4 : Parse}
    (h : CodesPair R x y p r1 f1 r2 f2 p2) (h3 : p2.sqlite3GetTempReg = (r3, p3))
    (h4 : p3.sqlite3GetTempReg = (r4, p4)) :
    CodesLow R x y p r1 f1 r3 r4 ((p4.codeCompare Cmp.ge.token r1 r2 r3
      ⟨true, false, false⟩).sqlite3ReleaseTempReg f2) := by
  obtain ⟨hready₃, hgrow₃, hkept₃, hfree₃, hn₃⟩ := sqlite3GetTempReg_spec h.ready h3
  obtain ⟨hready₄, hgrow₄, hkept₄, hfree₄, hn₄⟩ := sqlite3GetTempReg_spec hready₃ h4
  have hgrow := hgrow₃.trans hgrow₄
  have hr2 := hgrow.kept r2 h.kept.2
  have hr3 := hgrow₄.kept r3 hkept₃
  have hne4 : ∀ k, Kept p2 k → k ≠ r4 := fun k hk => (hgrow₃.kept k hk).ne hfree₄
  let op : Op := .compare Cmp.ge.token r2 r3 r1 ⟨true, false, false⟩
  have hgrow₅ : Grow p (p4.addOp op) := h.grow.trans (hgrow.trans (grow_addOp p4 op))
  have hheld₂ : Held p (p4.addOp op) f2 := fun hf =>
    ⟨(h.held.2 hf).1, hgrow.kept f2 (h.held.2 hf).2⟩
  obtain ⟨hready₆, hgrow₆, hops, hlabels, hkept₆⟩ :=
    release_spec (ready_addOp hready₄ op) hgrow₅ hheld₂
  have hf2 : ∀ k, ¬Kept p2 k → f2 ≠ 0 → k ≠ f2 := fun k hk hf =>
    ((h.held.2 hf).2.ne hk).symm
  have hrun : RunsTo R p4 (p4.addOp op) fun m m' =>
      m' = Function.update m r3 (ofTruth (compareOp Cmp.ge.token false (m r2) (m r1))) :=
    RunsTo.op fun F m hop => step_store hop
  have hpair : RunsTo R p p4 fun m m' =>
      m' r1 = eval R m x ∧ m' r2 = eval R m y ∧ ∀ x, Kept p x → m' x = m x := by
    intro F hF m
    have := h.run F (hgrow.ext hF) m
    rwa [← hn₃, ← hn₄] at this
  constructor
  case ready => exact hready₆
  case grow => exact hgrow₆
  case kept =>
    exact ⟨hkept₆ r1 (hgrow.kept r1 h.kept.1) fun hf => (h.ne hf).2.symm,
      hkept₆ r3 hr3 (hf2 r3 hfree₃),
      hkept₆ r4 hkept₄ (hf2 r4 fun hk => hne4 r4 hk rfl)⟩
  case free =>
    exact ⟨fun hk => hfree₃ (h.grow.kept r3 hk), fun hk => hne4 r4 (h.grow.kept r4 hk) rfl⟩
  case held =>
    intro hf
    obtain ⟨hfree, hk⟩ := h.held.1 hf
    exact ⟨hfree, hkept₆ f1 (hgrow.kept f1 hk) fun hf' => (h.ne hf').1.symm⟩
  case ne =>
    refine ⟨hkept₃.ne hfree₄, fun hf => ?_⟩
    exact ⟨(h.held.1 hf).2.ne hfree₃, hne4 f1 (h.held.1 hf).2⟩
  case run =>
    refine RunsTo.of_eq (RunsTo.mono (hpair.seq hrun (h.grow.trans hgrow) (grow_addOp p4 op)) ?_)
      hops hlabels
    rintro m m'' ⟨m', ⟨hval₁, hval₂, hframe⟩, rfl⟩
    refine ⟨?_, ?_, fun k hk => ?_⟩
    · exact (Function.update_of_ne (h.kept.1.ne hfree₃) _ _).trans hval₁
    · rw [Function.update_self, hval₁, hval₂]
    · exact (Function.update_of_ne ((h.grow.kept k hk).ne hfree₃) _ _).trans (hframe k hk)

theorem targetCode_between {x y z : Expr} (hx : TargetCode R x) (hy : TargetCode R y)
    (hz : TargetCode R z) : TargetCode R (.between x y z) := by
  intro p target hready htarget he
  have hxy : ∀ r ∈ x.regs ++ y.regs, Kept p r := fun r hr => (he r (List.mem_append_left _ hr)).1
  have hregsz : ∀ r ∈ z.regs, Kept p r := fun r hr => (he r (List.mem_append_right _ hr)).1
  rcases h1 : sqlite3ExprCodeTemp x p with ⟨r1, f1, p1⟩
  rcases h2 : sqlite3ExprCodeTemp y p1 with ⟨r2, f2, p2⟩
  rcases h3 : p2.sqlite3GetTempReg with ⟨r3, p3⟩
  rcases h4 : p3.sqlite3GetTempReg with ⟨r4, p4⟩
  have low := (codesPair hx hy hready hxy h1 h2).low h3 h4
  rcases h5 : sqlite3ExprCodeTemp z ((p4.codeCompare Cmp.ge.token r1 r2 r3
    ⟨true, false, false⟩).sqlite3ReleaseTempReg f2) with ⟨r5, f5, p5⟩
  have c5 := codesTemp hz low.ready fun r hr => low.grow.kept r (hregsz r hr)
  rw [h5] at c5
  let le : Op := .compare Cmp.le.token r5 r4 r1 ⟨true, false, false⟩
  let and : Op := .and r3 r4 target
  have hcode : sqlite3ExprCodeTarget (.between x y z) target p = (target,
      [r3, r4, f1, f5].foldl Parse.sqlite3ReleaseTempReg ((p5.addOp le).addOp and)) := by
    rw [sqlite3ExprCodeTemp] at h1 h2 h5
    rw [sqlite3ExprCodeTarget, h1]
    dsimp only
    rw [h2]
    dsimp only
    rw [h3]
    dsimp only
    rw [h4]
    dsimp only
    rw [h5]
    rfl
  have hgrow := (low.grow.trans c5.grow).trans
    ((grow_addOp p5 le).trans (grow_addOp (p5.addOp le) and))
  have hheld : ∀ f ∈ [r3, r4, f1, f5], Held p ((p5.addOp le).addOp and) f := by
    simp only [List.forall_mem_cons]
    refine ⟨fun _ => ⟨low.free.1, c5.grow.kept r3 low.kept.2.1⟩,
      fun _ => ⟨low.free.2, c5.grow.kept r4 low.kept.2.2⟩,
      fun hf => ⟨(low.held hf).1, c5.grow.kept f1 (low.held hf).2⟩,
      fun hf => ⟨fun hk => (c5.held hf).1 (low.grow.kept f5 hk), (c5.held hf).2⟩,
      List.forall_mem_nil _⟩
  have hne : [r3, r4, f1, f5].Pairwise fun f g => g ≠ 0 → g ≠ f := by
    simp only [List.pairwise_cons, List.forall_mem_cons]
    refine ⟨⟨fun _ => low.ne.1.symm, fun hf => (low.ne.2 hf).1,
        fun hf => (low.kept.2.1.ne (c5.held hf).1).symm, List.forall_mem_nil _⟩,
      ⟨fun hf => (low.ne.2 hf).2, fun hf => (low.kept.2.2.ne (c5.held hf).1).symm,
        List.forall_mem_nil _⟩,
      ⟨?_, List.forall_mem_nil _⟩, List.forall_mem_nil _, List.Pairwise.nil⟩
    rintro hf rfl
    exact (c5.held hf).1 (low.held hf).2
  obtain ⟨hready', hgrow', hops, hlabels⟩ := release_all
    (ready_addOp (ready_addOp c5.ready le) and) hgrow hheld hne
  rw [hcode]
  constructor
  case ready => exact hready'
  case grow => exact hgrow'
  case kept => exact hgrow'.kept target htarget
  case run =>
    have hle : RunsTo R p5 (p5.addOp le) fun m m' =>
        m' = Function.update m r4 (ofTruth (compareOp Cmp.le.token false (m r5) (m r1))) :=
      RunsTo.op fun F m hop => step_store hop
    have hand : RunsTo R (p5.addOp le) ((p5.addOp le).addOp and) fun m m' =>
        m' = Function.update m target (opLogic R andLogic (m r3) (m r4)) :=
      RunsTo.op fun F m hop => step_and hop
    refine RunsTo.of_eq (RunsTo.mono (low.run.seq (c5.run.seq (hle.seq hand (grow_addOp p5 le)
      (grow_addOp _ and)) c5.grow ((grow_addOp p5 le).trans (grow_addOp _ and))) low.grow
      (c5.grow.trans ((grow_addOp p5 le).trans (grow_addOp _ and)))) ?_) hops hlabels
    rintro m m₄ ⟨m₁, ⟨hval₁, hlow, hframe₁⟩, m₂, ⟨hval₅, hframe₂⟩, m₃, rfl, rfl⟩
    have hz₁ : eval R m₁ z = eval R m z := eval_congr fun r hr => hframe₁ r (hregsz r hr)
    refine ⟨?_, fun k hk hne => ?_⟩
    · rw [Function.update_self, Function.update_self, Function.update_of_ne low.ne.1, hval₅, hz₁,
        hframe₂ r1 low.kept.1, hval₁, hframe₂ r3 low.kept.2.1, hlow]
      rfl
    · rw [Function.update_of_ne hne, Function.update_of_ne (hk.ne low.free.2),
        hframe₂ k (low.grow.kept k hk), hframe₁ k hk]

/-- **`sqlite3ExprCodeTarget`** leaves the value in the register it names. -/
theorem targetCode (e : Expr) : TargetCode R e := by
  induction e with
  | value v => exact targetCode_value v
  | register r => exact targetCode_register r
  | and x y hx hy =>
    exact targetCode_pair .and (opLogic R andLogic) hx hy rfl
      (fun _ _ => by rw [sqlite3ExprCodeTarget]) step_and fun _ => rfl
  | or x y hx hy =>
    exact targetCode_pair .or (opLogic R orLogic) hx hy rfl
      (fun _ _ => by rw [sqlite3ExprCodeTarget]) step_or fun _ => rfl
  | not x hx => exact targetCode_not hx
  | cmp op x y hx hy =>
    exact targetCode_compare hx hy rfl (fun _ _ => by rw [sqlite3ExprCodeTarget]) fun _ => rfl
  | is x y hx hy =>
    exact targetCode_compare hx hy rfl (fun _ _ => by rw [sqlite3ExprCodeTarget]) fun _ => rfl
  | isNot x y hx hy =>
    exact targetCode_compare hx hy rfl (fun _ _ => by rw [sqlite3ExprCodeTarget]) fun _ => rfl
  | null op x hx => exact targetCode_null op hx
  | between x y z hx hy hz => exact targetCode_between hx hy hz

end Code

end SqliteVms

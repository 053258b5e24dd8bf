import Mathlib.Data.List.Induction

namespace Frost32.Fallible

/-!
# Runs of a step that may fail

A list of inputs is fed to a step function one after the other; an error ends the run.

* `bind_eq_ok` — both parts of a successful computation succeed.
* `runList` — the state after all inputs.
* `runList_append`, `exists_of_runList` — a run in two parts, and the state in between.
* `invariant` — what every step preserves holds after every prefix of the inputs.
* `ErrorsIn` — the errors a computation can end in; `exists_step_of_error`, which input of a
  run fails.
* `Corresponds` — two computations that fail both, or succeed with related results;
  `corresponds_runList`, the simulation rule for runs.
-/

variable {ε σ τ α β : Type}

/-- A computation in two parts succeeds exactly when both parts do. -/
theorem bind_eq_ok {x : Except ε α} {f : α → Except ε β} {b : β} :
    x >>= f = .ok b ↔ ∃ a, x = .ok a ∧ f a = .ok b := by
  cases x with
  | error e =>
    constructor
    · intro h
      cases h
    · rintro ⟨a, h, -⟩
      cases h
  | ok a =>
    constructor
    · intro h
      exact ⟨a, rfl, h⟩
    · rintro ⟨a', h, hf⟩
      cases h
      exact hf

/-- A computation that is checked to succeed has a result. -/
theorem exists_eq_ok {x : Except ε α} (h : x.isOk = true) : ∃ a, x = .ok a := by
  cases x with
  | error e => cases h
  | ok a => exact ⟨a, rfl⟩

/-! ### Errors -/

/-- Every error that the computation ends in has the property. -/
structure ErrorsIn (P : ε → Prop) (x : Except ε α) : Prop where
  of_error : ∀ e, x = .error e → P e

theorem errorsIn_ok (P : ε → Prop) (a : α) : ErrorsIn P (.ok a : Except ε α) where
  of_error := by
    intro e h
    cases h

theorem errorsIn_error {P : ε → Prop} {e : ε} (h : P e) :
    ErrorsIn P (.error e : Except ε α) where
  of_error := by
    intro e' he
    cases he
    exact h

theorem ErrorsIn.bind {P : ε → Prop} {x : Except ε α} {f : α → Except ε β} (hx : ErrorsIn P x)
    (hf : ∀ a, ErrorsIn P (f a)) : ErrorsIn P (x >>= f) where
  of_error := by
    intro e h
    cases x with
    | error e' =>
      cases h
      exact hx.of_error e rfl
    | ok a => exact (hf a).of_error e h

/-! ### Two computations side by side -/

/-- Both computations fail, or both succeed with related results. -/
inductive Corresponds (R : α → β → Prop) : Except ε α → Except ε β → Prop
  | ok {a : α} {b : β} (h : R a b) : Corresponds R (.ok a) (.ok b)
  | error (e e' : ε) : Corresponds R (.error e) (.error e')

/-- Which error a computation ends in does not matter to what follows it. -/
theorem toOption_bind_congr {x y : Except ε α} {f g : α → Except ε β}
    (hx : x.toOption = y.toOption) (hf : ∀ a, (f a).toOption = (g a).toOption) :
    (x >>= f).toOption = (y >>= g).toOption := by
  cases x with
  | error e =>
    cases y with
    | error e' => rfl
    | ok b => cases hx
  | ok a =>
    cases y with
    | error e => cases hx
    | ok b =>
      cases hx
      exact hf a

theorem Corresponds.bind {R : α → β → Prop} {S : σ → τ → Prop} {x : Except ε α} {y : Except ε β}
    {f : α → Except ε σ} {g : β → Except ε τ} (h : Corresponds R x y)
    (hf : ∀ a b, R a b → Corresponds S (f a) (g b)) : Corresponds S (x >>= f) (y >>= g) := by
  cases h with
  | ok h => exact hf _ _ h
  | error e e' => exact .error e e'

/-- Computations with the same result, and what is made of it. -/
theorem corresponds_map {R : β → σ → Prop} {x y : Except ε α} {f : α → β} {g : α → σ}
    (h : x.toOption = y.toOption) (hf : ∀ a, R (f a) (g a)) :
    Corresponds R (x.map f) (y.map g) := by
  cases x with
  | error e =>
    cases y with
    | error e' => exact .error e e'
    | ok b => cases h
  | ok a =>
    cases y with
    | error e => cases h
    | ok b =>
      cases h
      exact .ok (hf a)

/-- What related results have in common. -/
theorem Corresponds.toOption_map {R : α → β → Prop} {x : Except ε α} {y : Except ε β}
    {f : α → σ} {g : β → σ} (h : Corresponds R x y) (hf : ∀ a b, R a b → f a = g b) :
    (x.map f).toOption = (y.map g).toOption := by
  cases h with
  | ok h => exact congrArg some (hf _ _ h)
  | error e e' => rfl

/-! ### Runs -/

/-- The state after all inputs of the list. -/
def runList (step : α → σ → Except ε σ) : List α → σ → Except ε σ
  | [], s => .ok s
  | x :: xs, s => step x s >>= runList step xs

variable {step : α → σ → Except ε σ}

@[simp] theorem runList_nil (s : σ) : runList step [] s = .ok s := rfl

theorem runList_cons (x : α) (xs : List α) (s : σ) :
    runList step (x :: xs) s = step x s >>= runList step xs := rfl

theorem runList_singleton (x : α) (s : σ) : runList step [x] s = step x s := by
  rw [runList_cons]
  cases step x s <;> rfl

theorem runList_append (xs ys : List α) (s : σ) :
    runList step (xs ++ ys) s = runList step xs s >>= runList step ys := by
  induction xs generalizing s with
  | nil => rfl
  | cons x xs ih =>
    rw [List.cons_append, runList_cons, runList_cons]
    cases step x s with
    | error e => rfl
    | ok u => exact ih u

/-- A successful run passes through a state between any two parts of its inputs. -/
theorem exists_of_runList {xs ys : List α} {s t : σ} (h : runList step (xs ++ ys) s = .ok t) :
    ∃ u, runList step xs s = .ok u ∧ runList step ys u = .ok t := by
  rw [runList_append] at h
  cases hx : runList step xs s with
  | error e => rw [hx] at h; cases h
  | ok u =>
    rw [hx] at h
    exact ⟨u, rfl, h⟩

/-- **A run that fails does so at one of its inputs**, after a run that succeeds. -/
theorem exists_step_of_error {xs : List α} {s : σ} {e : ε} (h : runList step xs s = .error e) :
    ∃ pre x post u, xs = pre ++ x :: post ∧ runList step pre s = .ok u ∧ step x u = .error e := by
  induction xs generalizing s with
  | nil => cases h
  | cons x xs ih =>
    cases hx : step x s with
    | error e' =>
      rw [runList_cons, hx] at h
      cases h
      exact ⟨[], x, xs, s, rfl, rfl, hx⟩
    | ok v =>
      rw [runList_cons, hx] at h
      obtain ⟨pre, y, post, u, rfl, hu, hy⟩ := ih h
      refine ⟨x :: pre, y, post, u, rfl, ?_, hy⟩
      rw [runList_cons, hx]
      exact hu

/-- An input that fails ends the run. -/
theorem runList_eq_error {pre post : List α} {x : α} {s u : σ} {e : ε}
    (hu : runList step pre s = .ok u) (hx : step x u = .error e) :
    runList step (pre ++ x :: post) s = .error e := by
  rw [runList_append, hu]
  show step x u >>= runList step post = .error e
  rw [hx]
  rfl

/-- One more input. -/
theorem runList_concat_eq_ok {xs : List α} {x : α} {s u v : σ} (hu : runList step xs s = .ok u)
    (hv : step x u = .ok v) : runList step (xs ++ [x]) s = .ok v := by
  rw [runList_append, hu]
  show runList step [x] u = .ok v
  rw [runList_singleton, hv]

/-- **Invariant rule**: what holds at the start and is preserved by the step for every input
    of the list holds after every prefix of it. -/
theorem invariant {P : List α → σ → Prop} {xs : List α} {s : σ} (h₀ : P [] s)
    (hstep : ∀ pre x post u v, xs = pre ++ x :: post → P pre u → step x u = .ok v →
      P (pre ++ [x]) v) :
    ∀ {pre post : List α} {u : σ}, xs = pre ++ post → runList step pre s = .ok u → P pre u := by
  intro pre
  induction pre using List.reverseRecOn with
  | nil =>
    intro post u _ hu
    cases hu
    exact h₀
  | append_singleton pre x ih =>
    intro post u hxs hu
    obtain ⟨v, hv, hx⟩ := exists_of_runList hu
    rw [runList_singleton] at hx
    have hxs' : xs = pre ++ x :: post := by rw [hxs, List.append_assoc]; rfl
    exact hstep pre x post v u hxs' (ih hxs' hv) hx

/-- **Simulation rule**: where each step corresponds to the step for the translated input, runs
    correspond. -/
theorem corresponds_runList {R : σ → τ → Prop} {step' : β → τ → Except ε τ} {tr : α → β}
    (hstep : ∀ x s t, R s t → Corresponds R (step x s) (step' (tr x) t)) (xs : List α) {s : σ}
    {t : τ} (h : R s t) : Corresponds R (runList step xs s) (runList step' (xs.map tr) t) := by
  induction xs generalizing s t with
  | nil => exact .ok h
  | cons x xs ih => exact (hstep x s t h).bind fun u v huv => ih huv

end Frost32.Fallible

import Mathlib.Logic.Basic

/-!
# Computations cut short by a bound

A computation over states `σ` that may be stopped by a bound on its depth gives either a
result, from which a state can be read, or the state in which it was stopped.  A claim
about such a computation has two sides: a relation `R` between the first state and that
of a result, and a relation `E` between the first state and the one it was stopped in.

The states a computation can come to are those of a *run*: single updates one after the
other, and scopes, which are entered, run and left again.  A computation that is stopped
has entered some scopes and left none of them.
-/

namespace Bounded

variable {σ α β : Type} {R E : σ → σ → Prop} {π : α → σ} {ρ : β → σ} {s t : σ} {x : Except σ α}
variable {f : α → Except σ β}

/-- Relations for finished and for stopped computations that compose: what follows a
    finished computation may be stopped, and a stopped one has no successor. -/
structure Chained (R E : σ → σ → Prop) : Prop where
  refl : ∀ s, R s s
  trans : ∀ {s t u}, R s t → R t u → R s u
  cut : ∀ s, E s s
  extend : ∀ {s t u}, R s t → E t u → E s u

/-- The computation `x`, started in `s`, meets `R` when it ends and `E` when it is
    stopped. -/
def Sat (R E : σ → σ → Prop) (π : α → σ) (s : σ) : Except σ α → Prop
  | .ok a => R s (π a)
  | .error t => E s t

/-- A computation and what follows it, towards any relation `R'` that `R` may come
    before. -/
theorem Sat.andThen {R' : σ → σ → Prop}
    (htrans : ∀ {s t u}, R s t → R' t u → R' s u) (hextend : ∀ {s t u}, R s t → E t u → E s u)
    (hx : Sat R E π s x) (hf : ∀ a, Sat R' E ρ (π a) (f a)) : Sat R' E ρ s (x >>= f) := by
  cases x with
  | error t => exact hx
  | ok a =>
    have ha := hf a
    show Sat R' E ρ s (f a)
    cases hfa : f a with
    | error u =>
      rw [hfa] at ha
      exact hextend hx ha
    | ok b =>
      rw [hfa] at ha
      exact htrans hx ha

theorem Sat.bind (c : Chained R E)
    (hx : Sat R E π s x) (hf : ∀ a, Sat R E ρ (π a) (f a)) : Sat R E ρ s (x >>= f) :=
  Sat.andThen c.trans c.extend hx hf

/-- A step before the computation. -/
theorem Sat.after (c : Chained R E) (h : R s t) (hx : Sat R E π t x) :
    Sat R E π s x := by
  cases x with
  | error u => exact c.extend h hx
  | ok a => exact c.trans h hx

theorem bind_eq_ok {b : β} :
    (x >>= f) = .ok b ↔ ∃ a, x = .ok a ∧ f a = .ok b := by
  cases x <;> simp [bind, Except.bind]

/-- The same computation under weaker relations. -/
theorem Sat.mono {R' E' : σ → σ → Prop} (hx : Sat R E π s x)
    (hR : ∀ t, R s t → R' s t) (hE : ∀ t, E s t → E' s t) : Sat R' E' π s x := by
  cases x with
  | error t => exact hE t hx
  | ok a => exact hR _ hx

/-! ## Runs -/

section Runs

variable (update : σ → σ → Prop) (opens : σ → σ → (σ → σ) → Prop)

/-- The states a computation can end in. `opens s s' leave`: from `s` a scope can be
    entered at `s'`, and is left by `leave`. -/
inductive Runs : σ → σ → Prop where
  | refl (s : σ) : Runs s s
  | update {s t : σ} : update s t → Runs s t
  | trans {s t u : σ} : Runs s t → Runs t u → Runs s u
  | scope {s s' t : σ} {leave : σ → σ} : opens s s' leave → Runs s' t → Runs s (leave t)

/-- The states a computation can be stopped in. -/
inductive Stops : σ → σ → Prop where
  | here (s : σ) : Stops s s
  | after {s t u : σ} : Runs update opens s t → Stops t u → Stops s u
  | inside {s s' t : σ} {leave : σ → σ} : opens s s' leave → Stops s' t → Stops s t

variable {update opens}

theorem runs_chained : Chained (Runs update opens) (Stops update opens) where
  refl := .refl
  trans := .trans
  cut := .here
  extend := .after

variable (update opens) in
/-- The states from which, inside a scope, `leave` leads to the second state. -/
def Leaving (leave : σ → σ) (s u : σ) : Prop := ∃ t, Runs update opens s t ∧ u = leave t

/-- A scope that the whole computation stands in. -/
theorem Sat.scope {s' : σ} {leave : σ → σ} (hs : opens s s' leave)
    (hx : Sat (Leaving update opens leave) (Stops update opens) π s' x) :
    Sat (Runs update opens) (Stops update opens) π s x := by
  cases x with
  | error t => exact .inside hs hx
  | ok a =>
    rcases hx with ⟨t, hrun, ht⟩
    show Runs update opens s (π a)
    rw [ht]
    exact .scope hs hrun

/-- The same inside a further scope. -/
theorem Sat.scopeIn {s' : σ} {leave leave' : σ → σ} (hs : opens s s' leave)
    (hx : Sat (Leaving update opens (leave' ∘ leave)) (Stops update opens) π s' x) :
    Sat (Leaving update opens leave') (Stops update opens) π s x := by
  cases x with
  | error t => exact .inside hs hx
  | ok a =>
    rcases hx with ⟨t, hrun, ht⟩
    exact ⟨leave t, .scope hs hrun, ht⟩

/-- A scope around a part of the computation. -/
theorem Sat.scopeThen {s' : σ} {leave : σ → σ}
    {R' : σ → σ → Prop} (htrans : ∀ {s t u}, Runs update opens s t → R' t u → R' s u)
    (hs : opens s s' leave) (hx : Sat (Runs update opens) (Stops update opens) π s' x)
    (hf : ∀ a, Sat R' (Stops update opens) ρ (leave (π a)) (f a)) :
    Sat R' (Stops update opens) ρ s (x >>= f) := by
  cases x with
  | error t => exact .inside hs hx
  | ok a =>
    have hleft : Sat (Runs update opens) (Stops update opens) (fun a => leave (π a)) s (.ok a) :=
      Runs.scope hs hx
    exact Sat.andThen htrans .after hleft hf

theorem Leaving.after {leave : σ → σ} {s t u : σ} (hst : Runs update opens s t)
    (htu : Leaving update opens leave t u) : Leaving update opens leave s u := by
  rcases htu with ⟨v, hv, rfl⟩
  exact ⟨v, hst.trans hv, rfl⟩

/-- What holds of every update and passes every scope holds of a run and of a stopped
    run. -/
theorem Chained.of_runs (c : Chained R E) (hupdate : ∀ s t, update s t → R s t)
    (hscope : ∀ s s' t leave, opens s s' leave → R s' t → R s (leave t)) :
    ∀ {s t}, Runs update opens s t → R s t := by
  intro s t run
  induction run with
  | refl s => exact c.refl s
  | update h => exact hupdate _ _ h
  | trans _ _ ih₁ ih₂ => exact c.trans ih₁ ih₂
  | scope h _ ih => exact hscope _ _ _ _ h ih

theorem Chained.of_stops (c : Chained R E) (hupdate : ∀ s t, update s t → R s t)
    (hscope : ∀ s s' t leave, opens s s' leave → R s' t → R s (leave t))
    (hinside : ∀ s s' t leave, opens s s' leave → E s' t → E s t) :
    ∀ {s t}, Stops update opens s t → E s t := by
  intro s t stop
  induction stop with
  | here s => exact c.cut s
  | after run _ ih => exact c.extend (c.of_runs hupdate hscope run) ih
  | inside h _ ih => exact hinside _ _ _ _ h ih

end Runs

end Bounded

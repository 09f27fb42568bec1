import Mathlib.Logic.Basic

/-!
# Computations with a state and an error

Rules for computations that read and write a state and may fail.  `Yields P m a Q` says
that from every state in which `P` holds the computation `m` succeeds with the result `a`
and ends in a state in which `Q` holds.  The rules follow the way such computations are
written: a value, one computation after the other, the reading of the state.  `Gives` is the
same for a result of which only a property is known, and `Fails` is for computations that
end with an error.
-/

namespace StateExcept

variable {σ ε α β : Type} {P Q R : σ → Prop} {m' : StateT σ (Except ε) α}

/-- What two computations that succeed one after the other have done. -/
theorem bind_eq_ok {m : StateT σ (Except ε) α} {f : α → StateT σ (Except ε) β} {s : σ}
    {r : β × σ} : (m >>= f) s = .ok r ↔ ∃ a s', m s = .ok (a, s') ∧ f a s' = .ok r := by
  simp only [Bind.bind, StateT.bind]
  constructor
  · intro h
    cases hm : m s with
    | error e =>
      rw [hm] at h
      cases h
    | ok r' =>
      rw [hm] at h
      exact ⟨r'.1, r'.2, rfl, h⟩
  · rintro ⟨a, s', hm, hf⟩
    rw [hm]
    exact hf

def Yields (P : σ → Prop) (m : StateT σ (Except ε) α) (a : α) (Q : σ → Prop) : Prop :=
  ∀ s, P s → ∃ s', m s = .ok (a, s') ∧ Q s'

namespace Yields

variable {m : StateT σ (Except ε) α} {f : α → StateT σ (Except ε) β} {a : α} {b : β}

theorem pure (a : α) : Yields P (Pure.pure a : StateT σ (Except ε) α) a P :=
  fun s hs => ⟨s, rfl, hs⟩

theorem bind (hm : Yields P m a Q) (hf : Yields Q (f a) b R) : Yields P (m >>= f) b R := by
  intro s hs
  rcases hm s hs with ⟨s₁, h₁, hs₁⟩
  rcases hf s₁ hs₁ with ⟨s₂, h₂, hs₂⟩
  refine ⟨s₂, ?_, hs₂⟩
  simp only [Bind.bind, StateT.bind, h₁, Except.bind]
  exact h₂

/-- What follows a reading of the state may use what holds of it. -/
theorem get_bind {f : σ → StateT σ (Except ε) β} (hf : ∀ s, P s → Yields P (f s) b R) :
    Yields P (get >>= f) b R := by
  intro s hs
  exact hf s hs s hs

theorem ite_pos {c : Prop} [Decidable c] (hc : c)
    (h : Yields P m a Q) : Yields P (if c then m else m') a Q := by
  rwa [if_pos hc]

theorem ite_neg {c : Prop} [Decidable c] (hc : ¬ c)
    (h : Yields P m' a Q) : Yields P (if c then m else m') a Q := by
  rwa [if_neg hc]

end Yields

/-- From every state in which `P` holds `m` succeeds, with a result and a state of which
    `A` holds. -/
def Gives (P : σ → Prop) (m : StateT σ (Except ε) α) (A : α → σ → Prop) : Prop :=
  ∀ s, P s → ∃ a s', m s = .ok (a, s') ∧ A a s'

namespace Gives

variable {m : StateT σ (Except ε) α} {f : α → StateT σ (Except ε) β} {A : α → σ → Prop}
  {B : β → σ → Prop} {a : α}

theorem pure (h : ∀ s, P s → A a s) : Gives P (Pure.pure a : StateT σ (Except ε) α) A :=
  fun s hs => ⟨a, s, rfl, h s hs⟩

theorem bind (hm : Gives P m A) (hf : ∀ a, Gives (A a) (f a) B) : Gives P (m >>= f) B := by
  intro s hs
  rcases hm s hs with ⟨a, s₁, h₁, hs₁⟩
  rcases hf a s₁ hs₁ with ⟨b, s₂, h₂, hs₂⟩
  refine ⟨b, s₂, ?_, hs₂⟩
  simp only [Bind.bind, StateT.bind, h₁, Except.bind]
  exact h₂

theorem get_bind {f : σ → StateT σ (Except ε) β} (hf : ∀ s, P s → Gives P (f s) B) :
    Gives P (get >>= f) B := by
  intro s hs
  exact hf s hs s hs

end Gives

/-- A fixed result, and then what follows it. -/
theorem Yields.gives {m : StateT σ (Except ε) α} {f : α → StateT σ (Except ε) β} {a : α}
    {B : β → σ → Prop} (hm : Yields P m a Q) (hf : Gives Q (f a) B) : Gives P (m >>= f) B := by
  intro s hs
  rcases hm s hs with ⟨s₁, h₁, hs₁⟩
  rcases hf s₁ hs₁ with ⟨b, s₂, h₂, hs₂⟩
  refine ⟨b, s₂, ?_, hs₂⟩
  simp only [Bind.bind, StateT.bind, h₁, Except.bind]
  exact h₂

/-- From every state in which `P` holds `m` ends with an error. -/
def Fails (P : σ → Prop) (m : StateT σ (Except ε) α) : Prop := ∀ s, P s → ∃ e, m s = .error e

namespace Fails

variable {m : StateT σ (Except ε) α} {f : α → StateT σ (Except ε) β} {a : α}

/-- Nothing follows an error. -/
theorem bind (hm : Fails P m) : Fails P (m >>= f) := by
  intro s hs
  rcases hm s hs with ⟨e, he⟩
  refine ⟨e, ?_⟩
  simp only [Bind.bind, StateT.bind, he, Except.bind]

theorem get_bind {f : σ → StateT σ (Except ε) β} (hf : ∀ s, P s → Fails P (f s)) :
    Fails P (get >>= f) := by
  intro s hs
  exact hf s hs s hs

theorem ite_pos {c : Prop} [Decidable c] (hc : c)
    (h : Fails P m) : Fails P (if c then m else m') := by
  rwa [if_pos hc]

theorem ite_neg {c : Prop} [Decidable c] (hc : ¬ c)
    (h : Fails P m') : Fails P (if c then m else m') := by
  rwa [if_neg hc]

end Fails

/-- A fixed result, and then an error. -/
theorem Yields.fails {m : StateT σ (Except ε) α} {f : α → StateT σ (Except ε) β} {a : α}
    (hm : Yields P m a Q) (hf : Fails Q (f a)) : Fails P (m >>= f) := by
  intro s hs
  rcases hm s hs with ⟨s₁, h₁, hs₁⟩
  rcases hf s₁ hs₁ with ⟨e, he⟩
  refine ⟨e, ?_⟩
  simp only [Bind.bind, StateT.bind, h₁, Except.bind]
  exact he

end StateExcept

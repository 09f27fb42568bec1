import Mathlib.Data.List.Basic

/-!
# Runs of a step function

A run takes one input after another.  Its calls are the inputs with the states they are
taken in; what every call keeps holds in every state of the run.
-/

namespace Runs

variable {σ ι : Type} (step : σ → ι → σ)

/-- The states of a run, the first and the last among them. -/
def states (s : σ) : List ι → List σ
  | [] => [s]
  | i :: is => s :: states (step s i) is

/-- The inputs of a run, each with the state before it. -/
def calls (s : σ) : List ι → List (σ × ι)
  | [] => []
  | i :: is => (s, i) :: calls (step s i) is

variable {step} {s : σ} {is : List ι}

theorem first_mem_states : s ∈ states step s is := by
  cases is with
  | nil => exact .head _
  | cons i is => exact .head _

/-- What every call keeps holds in every state. -/
theorem states_induct {P : σ → Prop} (hs : P s)
    (hcalls : ∀ c ∈ calls step s is, P c.1 → P (step c.1 c.2)) : ∀ t ∈ states step s is, P t := by
  induction is generalizing s with
  | nil =>
    intro t ht
    rcases List.mem_singleton.mp ht with rfl
    exact hs
  | cons i is ih =>
    intro t ht
    rcases List.mem_cons.mp ht with rfl | ht
    · exact hs
    · exact ih (hcalls (s, i) (.head _) hs) (fun c hc => hcalls c (.tail _ hc)) t ht

/-- A call starts and ends in states of the run. -/
theorem mem_states_of_mem_calls {c : σ × ι} (hc : c ∈ calls step s is) :
    c.1 ∈ states step s is ∧ step c.1 c.2 ∈ states step s is := by
  induction is generalizing s with
  | nil => cases hc
  | cons i is ih =>
    rcases List.mem_cons.mp hc with rfl | hc
    · exact ⟨.head _, .tail _ first_mem_states⟩
    · exact ⟨.tail _ (ih hc).1, .tail _ (ih hc).2⟩

theorem input_of_mem_calls {c : σ × ι} (hc : c ∈ calls step s is) : c.2 ∈ is := by
  induction is generalizing s with
  | nil => cases hc
  | cons i is ih =>
    rcases List.mem_cons.mp hc with rfl | hc
    · exact .head _
    · exact .tail _ (ih hc)

end Runs

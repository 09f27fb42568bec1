import Wasmsh.Variables
import Wasmsh.Reachability

/-!
# What every run keeps

For every program, host and depth: the names of the outer scopes, and what the open captures
already hold.
-/

namespace Wasmsh

open Bounded

variable {W P : Type} {h : Host W P} {s s' t : Runtime W}

/-- **No text changes which names the scopes below the innermost one have**: what functions,
    traps and subshells open they close again. -/
theorem input_keeps_outer_names (h : Host W P) (n : Nat) (input : String) (s : Runtime W) :
    Sat (fun s t => SameNames s.state t.state) (fun _ _ => True) Prod.snd s
      ((Interp.interp h n).executeInputInner input s) :=
  ((Interp.walks_interp h n).executeInputInner input s).mono (fun _ hr => Reach.sameNames hr)
    fun _ _ => trivial

/-- The captures of the second list are those of the first, with more in them. -/
inductive Continues : List OutputCapture → List OutputCapture → Prop
  | nil : Continues [] []
  | cons {c : OutputCapture} {cs ds : List OutputCapture} (out err : List Char) :
    Continues cs ds →
    Continues (c :: cs) ({ c with stdout := c.stdout ++ out, stderr := c.stderr ++ err } :: ds)

namespace Continues

theorem refl (cs : List OutputCapture) : Continues cs cs := by
  induction cs with
  | nil => exact .nil
  | cons c cs ih => simpa using ih.cons (c := c) [] []

theorem trans {cs ds es : List OutputCapture} (h₁ : Continues cs ds) (h₂ : Continues ds es) :
    Continues cs es := by
  induction h₁ generalizing es with
  | nil => exact h₂
  | cons out err _ ih =>
    cases h₂ with
    | cons out' err' h =>
      simpa only [List.append_assoc] using (ih h).cons (out ++ out') (err ++ err')

theorem of_capture {stdout : Bool} {data : List Char} {cs ds : List OutputCapture}
    (hcapture : Runtime.capture stdout data cs = some ds) : Continues cs ds := by
  induction cs generalizing ds with
  | nil => cases hcapture
  | cons c cs ih =>
    unfold Runtime.capture at hcapture
    split at hcapture
    · cases hcapture
      simpa using (refl cs).cons (c := c) data []
    · split at hcapture
      · cases hcapture
        simpa using (refl cs).cons (c := c) [] data
      · rcases Option.map_eq_some_iff.mp hcapture with ⟨ds, hds, rfl⟩
        simpa using (ih hds).cons (c := c) [] []

end Continues

/-- The captures are as they were, but for what was written since. -/
def KeepsCaptures (s t : Runtime W) : Prop := Continues s.exec.outputCaptures t.exec.outputCaptures

theorem KeepsCaptures.of_eq (heq : t.exec.outputCaptures = s.exec.outputCaptures) :
    KeepsCaptures s t := by
  unfold KeepsCaptures
  rw [heq]
  exact .refl _

theorem captures_routeOutput (stdout : Bool) (data : List Char) :
    KeepsCaptures s (s.routeOutput h stdout data).2 := by
  unfold Runtime.routeOutput
  split
  · exact .of_eq rfl
  · dsimp only
    split
    · next hcapture => exact .of_capture hcapture
    · exact .of_eq rfl

theorem captures_check {b : Bool} (hcheck : s.checkResourceLimits = (b, t)) :
    KeepsCaptures s t := .of_eq (by grind [Runtime.checkResourceLimits])

theorem Update.captures (hu : Update h s t) : KeepsCaptures s t := by
  cases hu with
  | write stdout data =>
    refine (captures_routeOutput (h := h) stdout data).trans (KeepsCaptures.of_eq ?_)
    grind [Runtime.write, Runtime.accountOutput]
  | writeRouted stdout data =>
    refine (captures_routeOutput (h := h) stdout data).trans (KeepsCaptures.of_eq ?_)
    grind [Runtime.writeRouted, Runtime.accountRouted]
  | syncPipe used =>
    exact .of_eq (by grind [Runtime.syncPipeBudget, Runtime.markStopReason])
  | charge _ hcheck | exhausted _ hcheck => exact captures_check hcheck
  | dispatch _ _ hcheck | loopVar _ _ _ hcheck | iteration _ hcheck =>
    exact (captures_check hcheck).trans (.refl _)
  | _ => exact .of_eq rfl

/-- A scope takes only its own capture away. -/
theorem Opens.captures {leave : Runtime W → Runtime W} (ho : Opens h s s' leave)
    (hrun : KeepsCaptures s' t) : KeepsCaptures s (leave t) := by
  cases ho with
  | capture stdout stderr =>
    simp only [KeepsCaptures, Runtime.pushCapture, Runtime.popCapture] at hrun ⊢
    generalize t.exec.outputCaptures = cs at hrun ⊢
    cases hrun with
    | cons _ _ hrest => exact hrest
  | isolated enter newProcess => exact .of_eq rfl
  | shebang path => exact .of_eq rfl
  | _ => exact hrun

/-- **No text loses captured output**: it closes the captures that it opens, and the others hold
    what they held, with what it wrote behind it. -/
theorem input_keeps_captures (h : Host W P) (n : Nat) (input : String) (s : Runtime W) :
    Sat KeepsCaptures (fun _ _ => True) Prod.snd s
      ((Interp.interp h n).executeInputInner input s) := by
  have hchained : Chained (KeepsCaptures (W := W)) fun _ _ => True :=
    ⟨fun _ => .refl _, .trans, fun _ => trivial, fun _ _ => trivial⟩
  exact ((Interp.walks_interp h n).executeInputInner input s).mono
    (fun _ => hchained.of_runs (fun _ _ hu => hu.captures) fun _ _ _ _ ho => ho.captures)
    fun _ _ => trivial

end Wasmsh

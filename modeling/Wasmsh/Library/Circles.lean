import Mathlib.Data.Set.Finite.Basic
import Mathlib.Logic.Relation

/-!
# Chains and circles

A relation in which only finitely many elements have a successor.  Following it from an
element ends, whichever successors are taken, exactly when nothing that the element leads
to leads back to itself.
-/

namespace Circles

open Relation

variable {α : Type} {r : α → α → Prop} {a b : α}

/-- Every way to follow the relation from the element ends. -/
def Ends (r : α → α → Prop) (a : α) : Prop := Acc (Function.swap r) a

/-- Some steps lead from the element back to it. -/
def OnCircle (r : α → α → Prop) (a : α) : Prop := TransGen r a a

/-- The element leads to no circle. -/
def CircleFree (r : α → α → Prop) (a : α) : Prop := ∀ b, ReflTransGen r a b → ¬ OnCircle r b

theorem ends_of_no_next (h : ∀ b, ¬ r a b) : Ends r a :=
  Acc.intro a fun b hb => absurd hb (h b)

theorem Ends.next (h : Ends r a) (hb : r a b) : Ends r b := h.inv hb

theorem Ends.of_reaches (h : Ends r a) (hb : ReflTransGen r a b) : Ends r b := by
  induction hb with
  | refl => exact h
  | tail _ hstep ih => exact ih.next hstep

/-- What lies on a circle can be followed for ever. -/
theorem OnCircle.not_ends (h : OnCircle r a) : ¬ Ends r a := by
  intro hends
  have hacc : Acc (TransGen (Function.swap r)) a := Acc.transGen hends
  have hself : TransGen (Function.swap r) a a := transGen_swap.mpr h
  -- the first element of the circle that induction reaches has itself below it
  clear h hends
  induction hacc with
  | intro x _ ih => exact ih x hself hself

theorem Ends.circleFree (h : Ends r a) : CircleFree r a :=
  fun _ hb hcircle => hcircle.not_ends (h.of_reaches hb)

/-- The elements that `a` leads to and that have a successor. -/
def Ahead (r : α → α → Prop) (a : α) : Type := {x : α // ReflTransGen r a x ∧ ∃ y, r x y}

theorem CircleFree.wellFounded (hfinite : Set.Finite {x | ∃ y, r x y}) (h : CircleFree r a) :
    WellFounded fun x y : Ahead r a => TransGen r y.1 x.1 := by
  have hsub : Set.Finite {x | ReflTransGen r a x ∧ ∃ y, r x y} :=
    hfinite.subset fun x hx => hx.2
  have : Finite (Ahead r a) := hsub
  have : IsTrans (Ahead r a) fun x y => TransGen r y.1 x.1 := ⟨fun _ _ _ hxy hyz => hyz.trans hxy⟩
  have : Std.Irrefl fun x y : Ahead r a => TransGen r y.1 x.1 := ⟨fun x => h x.1 x.2.1⟩
  exact Finite.wellFounded_of_trans_of_irrefl _

theorem CircleFree.ends (hfinite : Set.Finite {x | ∃ y, r x y}) (h : CircleFree r a) : Ends r a := by
  have hahead : ∀ x : Ahead r a, Ends r x.1 := by
    intro x
    induction x using (h.wellFounded hfinite).induction with
    | _ x ih =>
      refine Acc.intro x.1 fun y hy => ?_
      by_cases hnext : ∃ z, r y z
      · exact ih ⟨y, x.2.1.tail hy, hnext⟩ (TransGen.single hy)
      · exact ends_of_no_next fun z hz => hnext ⟨z, hz⟩
  by_cases hnext : ∃ b, r a b
  · exact hahead ⟨a, .refl, hnext⟩
  · exact ends_of_no_next fun b hb => hnext ⟨b, hb⟩

/-- **Only circles go on for ever.** -/
theorem ends_iff_circleFree (hfinite : Set.Finite {x | ∃ y, r x y}) :
    Ends r a ↔ CircleFree r a :=
  ⟨Ends.circleFree, CircleFree.ends hfinite⟩

end Circles

import Mathlib.Data.List.Infix

/-!
# Bracketed lists

Lists over an alphabet with a left and a right bracket and a separator: the closing bracket
that belongs to an opening one, the balanced lists, the pairs of a list, and the pieces into
which the separators outside all brackets cut it.
-/

namespace Brackets

/-- The tokens that structure a list. -/
structure Alphabet (α : Type) where
  left : α
  right : α
  sep : α
  right_ne_left : right ≠ left
  sep_ne_left : sep ≠ left
  sep_ne_right : sep ≠ right

variable {α : Type} {B : Alphabet α}
variable {d k : Nat} {t : α} {ts inner behind more : List α}

/-! ## 1. Balanced lists and pieces -/

/-- Every bracket of the list has its partner in the list. -/
inductive Balanced (B : Alphabet α) : List α → Prop
  | nil : Balanced B []
  | plain {t : α} {ts : List α} : t ≠ B.left → t ≠ B.right → Balanced B ts →
      Balanced B (t :: ts)
  | group {inner ts : List α} : Balanced B inner → Balanced B ts →
      Balanced B (B.left :: (inner ++ B.right :: ts))

theorem Balanced.append (h : Balanced B ts) (hmore : Balanced B more) :
    Balanced B (ts ++ more) := by
  induction h with
  | nil => exact hmore
  | plain hl hr _ ih => exact .plain hl hr ih
  | group h₁ _ _ ih₂ =>
    rw [List.cons_append, List.append_assoc, List.cons_append]
    exact .group h₁ ih₂

theorem balanced_of_not_mem (hl : B.left ∉ ts) (hr : B.right ∉ ts) : Balanced B ts := by
  induction ts with
  | nil => exact .nil
  | cons t ts ih =>
    simp only [List.mem_cons, not_or] at hl hr
    exact .plain (Ne.symm hl.1) (Ne.symm hr.1) (ih hl.2 hr.2)

/-- Put a list before the first piece. -/
def prependFirst (before : List α) : List (List α) → List (List α)
  | [] => [before]
  | piece :: pieces => (before ++ piece) :: pieces

theorem prependFirst_prependFirst (u v : List α) (ps : List (List α)) :
    prependFirst u (prependFirst v ps) = prependFirst (u ++ v) ps := by
  cases ps <;> simp [prependFirst]

theorem prependFirst_nil {ps : List (List α)} (h : ps ≠ []) : prependFirst [] ps = ps := by
  cases ps with
  | nil => exact absurd rfl h
  | cons => rfl

@[simp] theorem prependFirst_ne_nil (u : List α) (ps : List (List α)) :
    prependFirst u ps ≠ [] := by
  cases ps <;> simp [prependFirst]

theorem mem_prependFirst {u piece : List α} {ps : List (List α)} (h : piece ∈ prependFirst u ps)
    (hne : ps ≠ []) : (∃ p ∈ ps, piece = u ++ p) ∨ piece ∈ ps := by
  cases ps with
  | nil => exact absurd rfl hne
  | cons p ps =>
    rcases List.mem_cons.mp h with rfl | h
    · exact .inl ⟨p, List.mem_cons_self, rfl⟩
    · exact .inr (List.mem_cons_of_mem p h)

/-- The pieces put together again. -/
def rejoin (B : Alphabet α) : List (List α) → List α
  | [] => []
  | [piece] => piece
  | piece :: pieces => piece ++ B.sep :: rejoin B pieces

theorem rejoin_cons {piece : List α} {ps : List (List α)} (h : ps ≠ []) :
    rejoin B (piece :: ps) = piece ++ B.sep :: rejoin B ps := by
  cases ps with
  | nil => exact absurd rfl h
  | cons => rfl

theorem rejoin_prependFirst (u : List α) {ps : List (List α)} (h : ps ≠ []) :
    rejoin B (prependFirst u ps) = u ++ rejoin B ps := by
  cases ps with
  | nil => exact absurd rfl h
  | cons p ps =>
    cases ps with
    | nil => rfl
    | cons q qs => simp [prependFirst, rejoin]

variable [DecidableEq α]

/-! ## 2. The closing bracket -/

/-- What stands before the bracket that closes the list `d + 1` levels up, and what stands
    behind it. -/
def closeOf (B : Alphabet α) : Nat → List α → Option (List α × List α)
  | _, [] => none
  | d, t :: ts =>
    if t = B.left then (closeOf B (d + 1) ts).map fun e => (t :: e.1, e.2)
    else if t = B.right then
      match d with
      | 0 => some ([], ts)
      | d + 1 => (closeOf B d ts).map fun e => (t :: e.1, e.2)
    else (closeOf B d ts).map fun e => (t :: e.1, e.2)

@[simp] theorem closeOf_nil (d : Nat) : closeOf B d [] = none := by
  simp [closeOf]

theorem closeOf_left (d : Nat) (ts : List α) : closeOf B d (B.left :: ts) =
    (closeOf B (d + 1) ts).map fun e => (B.left :: e.1, e.2) := by
  simp [closeOf]

theorem closeOf_right_zero (ts : List α) : closeOf B 0 (B.right :: ts) = some ([], ts) := by
  simp [closeOf, B.right_ne_left]

theorem closeOf_right_succ (d : Nat) (ts : List α) : closeOf B (d + 1) (B.right :: ts) =
    (closeOf B d ts).map fun e => (B.right :: e.1, e.2) := by
  simp [closeOf, B.right_ne_left]

theorem closeOf_plain (d : Nat) (ts : List α) (hl : t ≠ B.left) (hr : t ≠ B.right) :
    closeOf B d (t :: ts) = (closeOf B d ts).map fun e => (t :: e.1, e.2) := by
  simp [closeOf, hl, hr]

/-- Closing two levels: first the inner one, then the outer one. -/
theorem closeOf_add (d k : Nat) (ts : List α) : closeOf B (d + k + 1) ts =
    (closeOf B k ts).bind fun e =>
      (closeOf B d e.2).map fun f => (e.1 ++ B.right :: f.1, f.2) := by
  induction ts generalizing k with
  | nil => simp
  | cons t ts ih =>
    by_cases hl : t = B.left
    · subst hl
      rw [closeOf_left, closeOf_left, show d + k + 1 + 1 = d + (k + 1) + 1 from rfl, ih (k + 1)]
      cases closeOf B (k + 1) ts <;> simp [Function.comp_def]
    by_cases hr : t = B.right
    · subst hr
      rw [closeOf_right_succ]
      cases k with
      | zero => simp [closeOf_right_zero]
      | succ k =>
        rw [closeOf_right_succ, show d + (k + 1) = d + k + 1 from rfl, ih k]
        cases closeOf B k ts <;> simp [Function.comp_def]
    · rw [closeOf_plain _ _ hl hr, closeOf_plain _ _ hl hr, ih k]
      cases closeOf B k ts <;> simp [Function.comp_def]

theorem closeOf_split (h : closeOf B d ts = some (inner, behind)) :
    ts = inner ++ B.right :: behind := by
  induction ts generalizing d inner with
  | nil => simp at h
  | cons t ts ih =>
    have hmap : ∀ k, (closeOf B k ts).map (fun e => (t :: e.1, e.2)) = some (inner, behind) →
        t :: ts = inner ++ B.right :: behind := by
      intro k hk
      rw [Option.map_eq_some_iff] at hk
      rcases hk with ⟨⟨u, v⟩, hu, heq⟩
      simp only [Prod.mk.injEq] at heq
      rw [← heq.1, ih (heq.2 ▸ hu), List.cons_append]
    by_cases hl : t = B.left
    · subst hl
      exact hmap _ (closeOf_left d ts ▸ h)
    by_cases hr : t = B.right
    · subst hr
      cases d with
      | zero =>
        rw [closeOf_right_zero, Option.some.injEq, Prod.mk.injEq] at h
        rw [← h.1, h.2, List.nil_append]
      | succ d => exact hmap _ (closeOf_right_succ d ts ▸ h)
    · exact hmap _ (closeOf_plain d ts hl hr ▸ h)

theorem closeOf_balanced_append (h : Balanced B ts) (d : Nat) (more : List α) :
    closeOf B d (ts ++ more) = (closeOf B d more).map fun e => (ts ++ e.1, e.2) := by
  induction h generalizing d more with
  | nil => simp
  | plain hl hr _ ih =>
    rw [List.cons_append, closeOf_plain _ _ hl hr, ih, Option.map_map]
    rfl
  | @group inner ts _ _ ih₁ ih₂ =>
    rw [List.cons_append, List.append_assoc, List.cons_append, closeOf_left, ih₁,
      closeOf_right_succ, ih₂]
    simp only [Option.map_map]
    congr 1
    funext e
    simp

theorem closeOf_balanced (h : Balanced B inner) (behind : List α) :
    closeOf B 0 (inner ++ B.right :: behind) = some (inner, behind) := by
  simp [closeOf_balanced_append h, closeOf_right_zero]

theorem closeOf_append (h : closeOf B d ts = some (inner, behind)) (more : List α) :
    closeOf B d (ts ++ more) = some (inner, behind ++ more) := by
  induction ts generalizing d inner with
  | nil => simp at h
  | cons t ts ih =>
    have hmap : ∀ k, (closeOf B k ts).map (fun e => (t :: e.1, e.2)) = some (inner, behind) →
        (closeOf B k (ts ++ more)).map (fun e => (t :: e.1, e.2)) =
          some (inner, behind ++ more) := by
      intro k hk
      rw [Option.map_eq_some_iff] at hk
      rcases hk with ⟨⟨u, v⟩, hu, heq⟩
      obtain ⟨rfl, rfl⟩ := Prod.mk.inj heq
      rw [ih hu, Option.map_some]
    rw [List.cons_append]
    by_cases hl : t = B.left
    · subst hl
      rw [closeOf_left] at h ⊢
      exact hmap _ h
    by_cases hr : t = B.right
    · subst hr
      cases d with
      | zero =>
        rw [closeOf_right_zero, Option.some.injEq, Prod.mk.injEq] at h
        rw [closeOf_right_zero, ← h.1, h.2]
      | succ d =>
        rw [closeOf_right_succ] at h ⊢
        exact hmap _ h
    · rw [closeOf_plain _ _ hl hr] at h ⊢
      exact hmap _ h

/-- What stands between a bracket and its partner is balanced. -/
theorem balanced_of_closeOf (h : closeOf B 0 ts = some (inner, behind)) : Balanced B inner := by
  -- on the length, since behind an inner pair the scan starts again
  induction hn : ts.length using Nat.strong_induction_on generalizing ts inner behind with
  | _ n ih =>
  cases ts with
  | nil => simp at h
  | cons t ts =>
    by_cases hl : t = B.left
    · subst hl
      rw [closeOf_left, closeOf_add 0 0, Option.map_eq_some_iff] at h
      rcases h with ⟨f, hf, heq⟩
      rw [Option.bind_eq_some_iff] at hf
      rcases hf with ⟨⟨inner₁, rest⟩, h₁, h₂⟩
      rw [Option.map_eq_some_iff] at h₂
      rcases h₂ with ⟨⟨inner₂, behind₂⟩, h₂, rfl⟩
      have hlen : ts.length = inner₁.length + (rest.length + 1) := by
        simpa using congrArg List.length (closeOf_split h₁)
      rw [List.length_cons] at hn
      have hfirst := ih ts.length (by omega) h₁ rfl
      have hsecond := ih rest.length (by omega) h₂ rfl
      rw [← (Prod.mk.inj heq).1]
      exact .group hfirst hsecond
    by_cases hr : t = B.right
    · subst hr
      rw [closeOf_right_zero, Option.some.injEq, Prod.mk.injEq] at h
      exact h.1 ▸ .nil
    · rw [closeOf_plain _ _ hl hr, Option.map_eq_some_iff] at h
      rcases h with ⟨⟨inner', rest⟩, h', heq⟩
      obtain ⟨rfl, rfl⟩ := Prod.mk.inj heq
      rw [List.length_cons] at hn
      exact .plain hl hr (ih _ (by omega) h' rfl)

/-! ## 3. The pairs of a list -/

/-- `inner` stands between two partners somewhere in the list. -/
inductive PairIn (B : Alphabet α) : List α → List α → Prop
  | here {ts inner behind : List α} : closeOf B 0 ts = some (inner, behind) →
      PairIn B (B.left :: ts) inner
  | there {t : α} {ts inner : List α} : PairIn B ts inner → PairIn B (t :: ts) inner

theorem not_pairIn_nil : ¬ PairIn B [] inner := by
  intro h
  cases h

theorem pairIn_cons_of_ne (hl : t ≠ B.left) : PairIn B (t :: ts) inner ↔ PairIn B ts inner := by
  constructor
  · intro h
    cases h with
    | here => exact absurd rfl hl
    | there h => exact h
  · exact .there

theorem pairIn_cons_of_none (hnone : closeOf B 0 ts = none) :
    PairIn B (B.left :: ts) inner ↔ PairIn B ts inner := by
  constructor
  · intro h
    cases h with
    | here h => rw [hnone] at h; simp at h
    | there h => exact h
  · exact .there

theorem pairIn_cons_of_some {body : List α} (hsome : closeOf B 0 ts = some (body, behind)) :
    PairIn B (B.left :: ts) inner ↔ inner = body ∨ PairIn B ts inner := by
  constructor
  · intro h
    cases h with
    | here h =>
      rw [hsome, Option.some.injEq, Prod.mk.injEq] at h
      exact .inl h.1.symm
    | there h => exact .inr h
  · rintro (rfl | h)
    · exact .here hsome
    · exact .there h

theorem PairIn.prepend (h : PairIn B ts inner) (before : List α) :
    PairIn B (before ++ ts) inner := by
  induction before with
  | nil => exact h
  | cons t before ih => exact .there ih

theorem PairIn.append (h : PairIn B ts inner) (more : List α) : PairIn B (ts ++ more) inner := by
  induction h with
  | here h => exact .here (closeOf_append h more)
  | there _ ih => exact .there ih

theorem PairIn.of_infix {us : List α} (h : PairIn B ts inner) (hus : ts <:+: us) :
    PairIn B us inner := by
  rcases hus with ⟨before, behind, rfl⟩
  exact (h.prepend before).append behind

theorem pairIn_append_of_not_mem (hl : B.left ∉ ts) :
    PairIn B (ts ++ more) inner ↔ PairIn B more inner := by
  induction ts with
  | nil => exact Iff.rfl
  | cons t ts ih =>
    simp only [List.mem_cons, not_or] at hl
    rw [List.cons_append, pairIn_cons_of_ne (Ne.symm hl.1), ih hl.2]

/-- The pairs of a list that starts with a balanced one. -/
theorem pairIn_append (h : Balanced B ts) (more inner : List α) :
    PairIn B (ts ++ more) inner ↔ PairIn B ts inner ∨ PairIn B more inner := by
  induction h generalizing more with
  | nil => simp [not_pairIn_nil]
  | plain hl _ _ ih => rw [List.cons_append, pairIn_cons_of_ne hl, pairIn_cons_of_ne hl, ih]
  | @group body ts hbody _ ih₁ ih₂ =>
    rw [List.cons_append, List.append_assoc, List.cons_append,
      pairIn_cons_of_some (closeOf_balanced hbody _), pairIn_cons_of_some (closeOf_balanced hbody _),
      ih₁, ih₁, pairIn_cons_of_ne B.right_ne_left, pairIn_cons_of_ne B.right_ne_left, ih₂,
      or_assoc, or_assoc]

/-- The pairs of a list that starts with a pair. -/
theorem pairIn_group (h : Balanced B ts) (behind inner : List α) :
    PairIn B (B.left :: (ts ++ B.right :: behind)) inner ↔
      inner = ts ∨ PairIn B ts inner ∨ PairIn B behind inner := by
  rw [pairIn_cons_of_some (closeOf_balanced h behind), pairIn_append h,
    pairIn_cons_of_ne B.right_ne_left]

/-! ## 4. Cutting -/

/-- The pieces between the separators outside all brackets, from a depth on. -/
def pieces (B : Alphabet α) : Nat → List α → List (List α)
  | _, [] => [[]]
  | d, t :: ts =>
    if t = B.sep ∧ d = 0 then [] :: pieces B d ts
    else if t = B.left then prependFirst [t] (pieces B (d + 1) ts)
    else if t = B.right then prependFirst [t] (pieces B (d - 1) ts)
    else prependFirst [t] (pieces B d ts)

theorem pieces_ne_nil (d : Nat) (ts : List α) : pieces B d ts ≠ [] := by
  cases ts with
  | nil => simp [pieces]
  | cons t ts =>
    rw [pieces]
    split
    · simp
    · split
      · simp
      · split <;> simp

theorem pieces_sep (ts : List α) : pieces B 0 (B.sep :: ts) = [] :: pieces B 0 ts := by
  simp [pieces]

theorem pieces_sep_succ (d : Nat) (ts : List α) :
    pieces B (d + 1) (B.sep :: ts) = prependFirst [B.sep] (pieces B (d + 1) ts) := by
  simp [pieces, B.sep_ne_left, B.sep_ne_right]

theorem pieces_left (d : Nat) (ts : List α) :
    pieces B d (B.left :: ts) = prependFirst [B.left] (pieces B (d + 1) ts) := by
  simp [pieces, Ne.symm B.sep_ne_left]

theorem pieces_right (d : Nat) (ts : List α) :
    pieces B d (B.right :: ts) = prependFirst [B.right] (pieces B (d - 1) ts) := by
  simp [pieces, Ne.symm B.sep_ne_right, B.right_ne_left]

theorem pieces_plain (d : Nat) (ts : List α) (hs : t ≠ B.sep) (hl : t ≠ B.left)
    (hr : t ≠ B.right) : pieces B d (t :: ts) = prependFirst [t] (pieces B d ts) := by
  simp [pieces, hs, hl, hr]

/-- Without a separator nothing is cut. -/
theorem pieces_of_not_mem (h : B.sep ∉ ts) (d : Nat) : pieces B d ts = [ts] := by
  induction ts generalizing d with
  | nil => rfl
  | cons t ts ih =>
    simp only [List.mem_cons, not_or] at h
    have hfirst : ∀ k, prependFirst [t] (pieces B k ts) = [t :: ts] := by
      intro k
      rw [ih h.2]
      rfl
    rw [pieces, if_neg (fun hsep => h.1 hsep.1.symm)]
    split
    · exact hfirst _
    · split <;> exact hfirst _

/-- Inside brackets a balanced list is not cut. -/
theorem pieces_succ_append (h : Balanced B ts) (d : Nat) (more : List α) :
    pieces B (d + 1) (ts ++ more) = prependFirst ts (pieces B (d + 1) more) := by
  induction h generalizing d more with
  | nil => rw [List.nil_append, prependFirst_nil (pieces_ne_nil _ _)]
  | @plain t ts hl hr _ ih =>
    rw [List.cons_append]
    by_cases hs : t = B.sep
    · subst hs
      rw [pieces_sep_succ, ih, prependFirst_prependFirst, List.singleton_append]
    · rw [pieces_plain _ _ hs hl hr, ih, prependFirst_prependFirst, List.singleton_append]
  | group _ _ ih₁ ih₂ =>
    rw [List.cons_append, List.append_assoc, List.cons_append, pieces_left, ih₁, pieces_right,
      Nat.add_sub_cancel, ih₂]
    simp only [prependFirst_prependFirst]
    simp

theorem pieces_group (h : Balanced B inner) (ts : List α) :
    pieces B 0 (B.left :: (inner ++ B.right :: ts)) =
      prependFirst (B.left :: (inner ++ [B.right])) (pieces B 0 ts) := by
  rw [pieces_left, pieces_succ_append h, pieces_right]
  simp only [prependFirst_prependFirst]
  simp

/-- The pieces of a balanced list are balanced. -/
theorem balanced_of_mem_pieces (h : Balanced B ts) : ∀ piece ∈ pieces B 0 ts,
    Balanced B piece := by
  have hfirst : ∀ {u ps}, Balanced B u → ps ≠ [] → (∀ p ∈ ps, Balanced B p) →
      ∀ piece ∈ prependFirst u ps, Balanced B piece := by
    intro u ps hu hne hps piece hmem
    rcases mem_prependFirst hmem hne with ⟨p, hp, rfl⟩ | hp
    · exact hu.append (hps p hp)
    · exact hps piece hp
  induction h with
  | nil => simp [pieces, Balanced.nil]
  | @plain t ts hl hr _ ih =>
    by_cases hs : t = B.sep
    · subst hs
      intro piece hmem
      rw [pieces_sep] at hmem
      rcases List.mem_cons.mp hmem with rfl | hmem
      · exact .nil
      · exact ih piece hmem
    · rw [pieces_plain _ _ hs hl hr]
      exact hfirst (.plain hl hr .nil) (pieces_ne_nil _ _) ih
  | group h₁ _ _ ih₂ =>
    rw [pieces_group h₁]
    exact hfirst (.group h₁ .nil) (pieces_ne_nil _ _) ih₂

theorem rejoin_pieces (d : Nat) (ts : List α) : rejoin B (pieces B d ts) = ts := by
  induction ts generalizing d with
  | nil => rfl
  | cons t ts ih =>
    have hfirst : ∀ k, rejoin B (prependFirst [t] (pieces B k ts)) = t :: ts := by
      intro k
      rw [rejoin_prependFirst _ (pieces_ne_nil k ts), ih, List.singleton_append]
    rw [pieces]
    split
    · rename_i hsep
      rw [rejoin_cons (pieces_ne_nil d ts), ih, hsep.1, List.nil_append]
    · split
      · exact hfirst _
      · split <;> exact hfirst _

/-- What passes from a list to both sides of a separator passes to its pieces. -/
theorem forall_mem_pieces {P : List α → Prop} (hcut : ∀ u v, P (u ++ B.sep :: v) → P u ∧ P v)
    (h : P ts) (d : Nat) : ∀ piece ∈ pieces B d ts, P piece := by
  have hall : ∀ ps : List (List α), P (rejoin B ps) → ∀ piece ∈ ps, P piece := by
    intro ps
    induction ps with
    | nil => simp
    | cons p ps ih =>
      cases ps with
      | nil => simp [rejoin]
      | cons q qs =>
        intro hp piece hmem
        have hboth := hcut p (rejoin B (q :: qs)) hp
        rcases List.mem_cons.mp hmem with rfl | hmem
        · exact hboth.1
        · exact ih hboth.2 piece hmem
  exact hall _ ((rejoin_pieces d ts).symm ▸ h)

theorem infix_of_mem_pieces {piece : List α} (h : piece ∈ pieces B d ts) : piece <:+: ts := by
  refine forall_mem_pieces (P := (· <:+: ts)) ?_ List.infix_rfl d piece h
  intro u v huv
  exact ⟨List.IsInfix.trans ⟨[], B.sep :: v, by simp⟩ huv,
    List.IsInfix.trans ⟨u ++ [B.sep], [], by simp⟩ huv⟩

end Brackets

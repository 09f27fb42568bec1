import Mathlib.Data.List.Infix

/-!
# Wildcard patterns

A pattern is a list of elements, each of which stands for one symbol of a class or for any
text.  `Matches` says which texts it stands for.  A matcher that reads the elements off a
pattern one by one and, when it fails, lets the last star take one symbol more decides
this: the stars before the last one need not be tried again.
-/

namespace Wildcards

/-- An element of a pattern. -/
inductive Element (α : Type) where
  | star
  | one (accepts : α → Bool)

/-- The texts of a pattern. -/
inductive Matches {α : Type} : List (Element α) → List α → Prop
  | nil : Matches [] []
  | one {accepts : α → Bool} {es a as} : accepts a = true → Matches es as →
      Matches (.one accepts :: es) (a :: as)
  | skip {es as} : Matches es as → Matches (.star :: es) as
  | more {es a as} : Matches (.star :: es) as → Matches (.star :: es) (a :: as)

section

variable {α : Type} {es es' : List (Element α)} {as : List α}

theorem matches_nil_iff : Matches ([] : List (Element α)) as ↔ as = [] := by
  constructor
  · intro h
    cases h
    rfl
  · rintro rfl
    exact .nil

theorem matches_one_iff {accepts : α → Bool} {a : α} :
    Matches (.one accepts :: es) (a :: as) ↔ accepts a = true ∧ Matches es as := by
  constructor
  · intro h
    cases h with
    | one ha h => exact ⟨ha, h⟩
  · rintro ⟨ha, h⟩
    exact .one ha h

theorem not_matches_one_nil {accepts : α → Bool} : ¬ Matches (.one accepts :: es) [] := by
  intro h
  cases h

/-- A star takes nothing, or a symbol and then more. -/
theorem matches_star_iff :
    Matches (.star :: es) as ↔ Matches es as ∨ Matches (.star :: es) as.tail := by
  constructor
  · intro h
    cases h with
    | skip h => exact .inl h
    | more h => exact .inr h
  · rintro (h | h)
    · exact .skip h
    · cases as with
      | nil => exact h
      | cons a as => exact .more h

theorem matches_star_iff_suffix :
    Matches (.star :: es) as ↔ ∃ as', as' <:+ as ∧ Matches es as' := by
  induction as with
  | nil =>
    rw [matches_star_iff, List.tail_nil]
    constructor
    · intro h
      refine ⟨[], List.nil_suffix, ?_⟩
      rcases h with h | h
      · exact h
      · cases h with
        | skip h => exact h
    · rintro ⟨as', hsuffix, h⟩
      rw [List.suffix_nil.mp hsuffix] at h
      exact .inl h
  | cons a as ih =>
    rw [matches_star_iff, List.tail_cons, ih]
    constructor
    · rintro (h | ⟨as', hsuffix, h⟩)
      · exact ⟨a :: as, List.suffix_rfl, h⟩
      · exact ⟨as', hsuffix.trans (List.suffix_cons a as), h⟩
    · rintro ⟨as', hsuffix, h⟩
      rcases List.suffix_cons_iff.mp hsuffix with rfl | hsuffix
      · exact .inl h
      · exact .inr ⟨as', hsuffix, h⟩

theorem Matches.star_of_suffix {as' : List α} (h : Matches (.star :: es) as')
    (hsuffix : as' <:+ as) : Matches (.star :: es) as := by
  rw [matches_star_iff_suffix] at h ⊢
  rcases h with ⟨as'', hsuffix', h⟩
  exact ⟨as'', hsuffix'.trans hsuffix, h⟩

/-- Two patterns one after the other. -/
theorem matches_append_iff :
    Matches (es ++ es') as ↔ ∃ u v, as = u ++ v ∧ Matches es u ∧ Matches es' v := by
  constructor
  · intro h
    induction es generalizing as with
    | nil => exact ⟨[], as, rfl, .nil, h⟩
    | cons e es ih =>
      cases e with
      | star =>
        rcases matches_star_iff_suffix.mp h with ⟨as', ⟨w, rfl⟩, h'⟩
        rcases ih h' with ⟨u, v, rfl, hu, hv⟩
        refine ⟨w ++ u, v, (List.append_assoc w u v).symm, ?_, hv⟩
        exact Matches.star_of_suffix (.skip hu) (List.suffix_append w u)
      | one accepts =>
        cases h with
        | @one _ _ a as ha h =>
          rcases ih h with ⟨u, v, rfl, hu, hv⟩
          exact ⟨a :: u, v, rfl, .one ha hu, hv⟩
  · rintro ⟨u, v, rfl, hu, hv⟩
    induction hu with
    | nil => exact hv
    | one ha _ ih => exact .one ha ih
    | skip _ ih => exact .skip ih
    | more _ ih => exact .more ih

theorem matches_star_any (as : List α) : Matches [.star] as :=
  matches_star_iff_suffix.mpr ⟨[], List.nil_suffix, .nil⟩

/-- What a pattern begins with, and then anything. -/
theorem Matches.star_of_init (h : Matches es as) (hinit : es' <+: es) :
    Matches (es' ++ [.star]) as := by
  rcases hinit with ⟨rest, rfl⟩
  rcases matches_append_iff.mp h with ⟨u, v, rfl, hu, -⟩
  exact matches_append_iff.mpr ⟨u, v, rfl, hu, matches_star_any v⟩

/-- Symbols that have to be there take as many symbols of the text. -/
theorem Matches.drop_ones {ones : List (α → Bool)} (h : Matches (ones.map .one ++ es) as) :
    ones.length ≤ as.length ∧ Matches es (as.drop ones.length) := by
  induction ones generalizing as with
  | nil => exact ⟨Nat.zero_le _, h⟩
  | cons accepts ones ih =>
    cases h with
    | one ha h =>
      rcases ih h with ⟨hlen, h⟩
      exact ⟨Nat.succ_le_succ hlen, h⟩

/-- Without a star all texts are as long as the pattern. -/
theorem Matches.length_eq (h : Matches es as) (hstar : .star ∉ es) : as.length = es.length := by
  induction h with
  | nil => rfl
  | one _ _ ih => exact congrArg (· + 1) (ih fun hmem => hstar (.tail _ hmem))
  | skip _ _ => exact absurd List.mem_cons_self hstar
  | more _ _ => exact absurd List.mem_cons_self hstar

/-- With a star, two texts and anything between them make a text again. -/
theorem Matches.bridge {as' : List α} (h : Matches es as) (h' : Matches es as')
    (hstar : .star ∈ es) (between : List α) : Matches es (as ++ between ++ as') := by
  obtain ⟨es₁, es₂, rfl⟩ := List.append_of_mem hstar
  obtain ⟨u, v, rfl, hu, -⟩ := matches_append_iff.mp h
  obtain ⟨u', v', rfl, -, hv'⟩ := matches_append_iff.mp h'
  refine matches_append_iff.mpr ⟨u, v ++ between ++ u' ++ v', by simp, hu, ?_⟩
  exact hv'.star_of_suffix (List.suffix_append _ _)

end

/-! ## 1. Reading a pattern -/

/-- A way to read a pattern: its next element and the rest of it, which is smaller, and
    whether only stars are left. -/
structure Reader (π α : Type) where
  read : π → Option (Element α × π)
  finished : π → Bool
  size : π → Nat
  size_lt : ∀ {p : π} {e : Element α} {r : π}, read p = some (e, r) → size r < size p
  finished_of_none : ∀ {p : π}, read p = none → finished p = true
  finished_of_star : ∀ {p r : π}, read p = some (.star, r) → finished p = finished r
  finished_of_one : ∀ {p r : π} {accepts : α → Bool}, read p = some (.one accepts, r) →
    finished p = false

namespace Reader

variable {π α : Type} (R : Reader π α)

/-- The elements of a pattern. -/
def elements (p : π) : List (Element α) :=
  match _h : R.read p with
  | none => []
  | some e => e.1 :: elements e.2
termination_by R.size p
decreasing_by exact R.size_lt _h

variable {R}

theorem elements_of_none {p : π} (h : R.read p = none) : R.elements p = [] := by
  rw [elements]
  split
  · rfl
  · next h' =>
    rw [h] at h'
    cases h'

theorem elements_of_some {p r : π} {e : Element α} (h : R.read p = some (e, r)) :
    R.elements p = e :: R.elements r := by
  rw [elements]
  split
  · next h' =>
    rw [h] at h'
    cases h'
  · next h' =>
    rw [h] at h'
    cases h'
    rfl

/-- A pattern has no more elements than its size. -/
theorem length_elements_le (p : π) : (R.elements p).length ≤ R.size p := by
  induction hn : R.size p using Nat.strong_induction_on generalizing p with
  | _ n ih =>
    subst hn
    rcases hread : R.read p with _ | ⟨e, r⟩
    · rw [elements_of_none hread]
      exact Nat.zero_le _
    · have hlt := R.size_lt hread
      have hle := ih _ hlt r rfl
      rw [elements_of_some hread, List.length_cons]
      exact Nat.succ_le_of_lt (Nat.lt_of_le_of_lt hle hlt)

theorem finished_iff (p : π) : R.finished p = true ↔ Matches (R.elements p) [] := by
  induction hn : R.size p using Nat.strong_induction_on generalizing p with
  | _ n ih =>
    subst hn
    rcases hread : R.read p with _ | ⟨_ | accepts, r⟩
    · rw [R.finished_of_none hread, elements_of_none hread]
      exact ⟨fun _ => .nil, fun _ => rfl⟩
    · rw [R.finished_of_star hread, elements_of_some hread, matches_star_iff,
        ih _ (R.size_lt hread) r rfl]
      constructor
      · exact .inl
      · rintro (h | h)
        · exact h
        · cases h with
          | skip h => exact h
    · rw [R.finished_of_one hread, elements_of_some hread]
      exact ⟨fun h => (nomatch h), fun h => absurd h not_matches_one_nil⟩

/-! ## 2. Matching -/

variable (R)

/-- What a matcher does at a symbol. -/
inductive Step (π : Type) where
  | consume (rest : π)
  | star (rest : π)
  | mismatch

def step (p : π) (a : α) : Step π :=
  match R.read p with
  | none => .mismatch
  | some (.star, r) => .star r
  | some (.one accepts, r) => if accepts a then .consume r else .mismatch

/-- The matcher: `star` holds the pattern after the last star and the text where it was
    met.  The first argument bounds the number of turns. -/
def loop : Nat → π → List α → Option (π × List α) → Bool
  | _, p, [], _ => R.finished p
  | 0, _, _, _ => false
  | n + 1, p, a :: as, star =>
    match R.step p a with
    | .star r => loop n r (a :: as) (some (r, a :: as))
    | .consume r => loop n r as star
    | .mismatch =>
      match star with
      | none => false
      | some (r, at_) => loop n r at_.tail (some (r, at_.tail))

/-- The patterns that the matcher reads against a symbol. -/
def tested : Nat → π → List α → Option (π × List α) → List π
  | _, _, [], _ => []
  | 0, _, _, _ => []
  | n + 1, p, a :: as, star =>
    p :: match R.step p a with
      | .star r => tested n r (a :: as) (some (r, a :: as))
      | .consume r => tested n r as star
      | .mismatch =>
        match star with
        | none => []
        | some (r, at_) => tested n r at_.tail (some (r, at_.tail))

variable {R}

/-- Two matchers that take the same step at every pattern that one of them reads. -/
theorem loop_eq_loop {R' : Reader π α} {fine : π → Prop}
    (hfinished : ∀ p, R.finished p = R'.finished p)
    (hstep : ∀ p, fine p → ∀ a, R.step p a = R'.step p a) {n : Nat} {p : π} {as : List α}
    {star : Option (π × List α)} (h : ∀ q ∈ R.tested n p as star, fine q) :
    R.loop n p as star = R'.loop n p as star := by
  induction n generalizing p as star with
  | zero =>
    cases as with
    | nil => exact hfinished p
    | cons a as => rfl
  | succ n ih =>
    cases as with
    | nil => exact hfinished p
    | cons a as =>
      simp only [tested, List.mem_cons, forall_eq_or_imp] at h
      obtain ⟨hp, hrest⟩ := h
      simp only [loop, ← hstep p hp a]
      cases hread : R.step p a with
      | consume r | star r =>
        rw [hread] at hrest
        exact ih hrest
      | mismatch =>
        rw [hread] at hrest
        rcases star with _ | ⟨r, at_⟩
        · rfl
        · exact ih hrest

/-- Since the last star the matcher has read elements of one symbol only. -/
def SinceStar (R : Reader π α) (p : π) (as : List α) : Option (π × List α) → Prop
  | none => True
  | some (r, at_) => ∃ ones : List (α → Bool),
      R.elements r = ones.map .one ++ R.elements p ∧ as = at_.drop ones.length

/-- The last star matches when it takes at least one symbol more. -/
def Later (R : Reader π α) : Option (π × List α) → Prop
  | none => False
  | some (r, at_) => Matches (.star :: R.elements r) at_.tail

/-- How many symbols the matcher may still have to read. -/
def ahead (as : List α) : Option (π × List α) → Nat
  | none => as.length
  | some (_, at_) => at_.length

/-- A new star takes what the last one could have taken. -/
theorem matches_of_later {p : π} {as : List α} {star : Option (π × List α)}
    {es : List (Element α)} (hp : R.elements p = .star :: es) (hstar : SinceStar R p as star)
    (hlater : Later R star) : Matches (R.elements p) as := by
  rcases star with _ | ⟨r, at_⟩
  · exact hlater.elim
  · rcases hstar with ⟨ones, hr, rfl⟩
    rcases matches_star_iff_suffix.mp hlater with ⟨as', hsuffix, h⟩
    rw [hr] at h
    have hdrop := h.drop_ones.2
    rw [hp] at hdrop ⊢
    refine hdrop.star_of_suffix ?_
    rcases hsuffix.trans (List.tail_suffix at_) with ⟨w, rfl⟩
    have hdrops : as'.drop ones.length = ((w ++ as').drop ones.length).drop w.length := by
      rw [List.drop_drop, Nat.add_comm, ← List.drop_drop, List.drop_left]
    rw [hdrops]
    exact List.drop_suffix _ _

/-- At the end of the text the last star cannot help. -/
theorem matches_nil_of_later {p : π} {star : Option (π × List α)} (hstar : SinceStar R p [] star)
    (hlater : Later R star) : Matches (R.elements p) [] := by
  rcases star with _ | ⟨r, at_⟩
  · exact hlater.elim
  · rcases hstar with ⟨ones, hr, hdrop⟩
    rcases matches_star_iff_suffix.mp hlater with ⟨as', hsuffix, h⟩
    rw [hr] at h
    rcases h.drop_ones with ⟨hlen, h⟩
    have hshort : at_.length ≤ ones.length := List.drop_eq_nil_iff.mp hdrop.symm
    have hle := hsuffix.length_le
    rw [List.length_tail] at hle
    have hnil : as' = [] := List.eq_nil_of_length_eq_zero (by omega)
    rw [hnil, List.drop_nil] at h
    exact h

theorem step_of_none {p : π} {a : α} (h : R.read p = none) : R.step p a = .mismatch := by
  rw [step, h]

theorem step_of_star {p r : π} {a : α} (h : R.read p = some (.star, r)) :
    R.step p a = .star r := by
  rw [step, h]

theorem step_of_one {p r : π} {a : α} {accepts : α → Bool}
    (h : R.read p = some (.one accepts, r)) :
    R.step p a = if accepts a then .consume r else .mismatch := by
  rw [step, h]

/-- What the matcher still decides: the rest of the pattern matches, or the last star takes
    more. -/
theorem loop_iff {size : Nat} : ∀ (n : Nat) (p : π) (as : List α) (star : Option (π × List α)),
    R.size p ≤ size → (∀ r at_, star = some (r, at_) → R.size r ≤ size) →
    SinceStar R p as star → ahead as star * (size + 1) + R.size p + 1 ≤ n →
    (R.loop n p as star = true ↔ Matches (R.elements p) as ∨ Later R star) := by
  intro n
  induction n with
  | zero =>
    intro p as star hp hr hstar hn
    cases hn
  | succ n ih =>
    intro p as star hp hr hstar hn
    cases as with
    | nil =>
      rw [loop, finished_iff]
      constructor
      · exact .inl
      · rintro (h | h)
        · exact h
        · exact matches_nil_of_later hstar h
    | cons a as =>
      -- The last star takes one symbol more and the matcher starts again behind it.
      have hmismatch : ¬ Matches (R.elements p) (a :: as) → R.step p a = .mismatch →
          (R.loop (n + 1) p (a :: as) star = true ↔
            Matches (R.elements p) (a :: as) ∨ Later R star) := by
        intro hnot hstep
        simp only [loop, hstep]
        rcases star with _ | ⟨r, at_⟩
        · constructor
          · intro h
            cases h
          · rintro (h | h)
            · exact absurd h hnot
            · exact h.elim
        · rcases hstar with ⟨ones, helems, hdrop⟩
          have hne : at_ ≠ [] := by
            rintro rfl
            rw [List.drop_nil] at hdrop
            cases hdrop
          have hlen : 0 < at_.length := List.length_pos_of_ne_nil hne
          have hsize := hr r at_ rfl
          have hmul : (at_.length - 1) * (size + 1) + (size + 1) = at_.length * (size + 1) := by
            rw [← Nat.succ_mul]
            congr 1
            omega
          dsimp only
          rw [ih r at_.tail (some (r, at_.tail)) hsize
            (by rintro r' at' heq; cases heq; exact hsize) ⟨[], rfl, rfl⟩
            (by simp only [ahead, List.length_tail] at hn ⊢; omega)]
          constructor
          · intro h
            exact .inr (matches_star_iff.mpr h)
          · rintro (h | h)
            · exact absurd h hnot
            · exact matches_star_iff.mp h
      rcases hread : R.read p with _ | ⟨_ | accepts, r⟩
      · refine hmismatch ?_ (step_of_none hread)
        rw [elements_of_none hread, matches_nil_iff]
        exact List.cons_ne_nil a as
      · have hsize := R.size_lt hread
        simp only [loop, step_of_star hread]
        rw [ih r (a :: as) (some (r, a :: as)) (by omega)
          (by rintro r' at' heq; cases heq; omega) ⟨[], rfl, rfl⟩ ?_]
        · rw [elements_of_some hread]
          constructor
          · intro h
            exact .inl (matches_star_iff.mpr h)
          · rintro (h | h)
            · exact matches_star_iff.mp h
            · have helems := elements_of_some hread
              exact matches_star_iff.mp (helems ▸ matches_of_later helems hstar h)
        · have hle : ahead (a :: as) (some (r, a :: as)) ≤ ahead (a :: as) star := by
            rcases star with _ | ⟨r', at_⟩
            · exact Nat.le_refl _
            · rcases hstar with ⟨ones, -, hdrop⟩
              simp only [ahead]
              rw [hdrop, List.length_drop]
              omega
          have hmul := Nat.mul_le_mul_right (size + 1) hle
          omega
      · have hsize := R.size_lt hread
        by_cases ha : accepts a = true
        · simp only [loop, step_of_one hread, if_pos ha]
          rw [ih r as star (by omega) hr ?_ ?_, elements_of_some hread, matches_one_iff]
          · constructor
            · rintro (h | h)
              · exact .inl ⟨ha, h⟩
              · exact .inr h
            · rintro (h | h)
              · exact .inl h.2
              · exact .inr h
          · rcases star with _ | ⟨r', at_⟩
            · trivial
            · rcases hstar with ⟨ones, helems, hdrop⟩
              refine ⟨ones ++ [accepts], ?_, ?_⟩
              · rw [helems, elements_of_some hread]
                simp
              · rw [List.length_append, ← List.drop_drop, ← hdrop]
                rfl
          · have hle : ahead as star ≤ ahead (a :: as) star := by
              rcases star with _ | ⟨r', at_⟩
              · exact Nat.le_succ _
              · exact Nat.le_refl _
            have hmul := Nat.mul_le_mul_right (size + 1) hle
            omega
        · refine hmismatch ?_ ?_
          · rw [elements_of_some hread, matches_one_iff]
            exact fun h => ha h.1
          · rw [step_of_one hread, if_neg ha]

/-- A matcher with enough turns decides the texts of its pattern. -/
theorem loop_iff_matches {n : Nat} {p : π} {as : List α}
    (hn : as.length * (R.size p + 1) + R.size p + 1 ≤ n) :
    R.loop n p as none = true ↔ Matches (R.elements p) as := by
  rw [loop_iff n p as none (Nat.le_refl _) (fun _ _ h => nomatch h) trivial hn]
  constructor
  · rintro (h | h)
    · exact h
    · exact h.elim
  · exact .inl

end Reader

end Wildcards

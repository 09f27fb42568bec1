import Wasmsh.Globs
import Wasmsh.Library.Wildcards

/-!
# The two glob matchers

`glob_match_inner` of `wasmsh-runtime/src/pattern.rs` and `simple_glob_match` of
`wasmsh-expand/src/lib.rs` run the same loop over the elements of a pattern.  Each decides
the texts of the elements that it reads; they read backslashes and some brackets in
different ways.
-/

namespace Wasmsh.Globs

open Wildcards

/-! ## 1. `simple_glob_match` -/

/-- `ClassOutcome`. -/
inductive ClassOutcome where
  | matched (rest : List Char)
  | noMatch
  | invalid
  deriving DecidableEq, Repr

/-- The loop of `bracket_class_matches`. -/
def bracketLoop (negated : Bool) (c : Char) : Nat → Bool → List Char → ClassOutcome
  | _, _, [] => .invalid
  | members, matched, ']' :: r =>
    if members = 0 then .invalid
    else if (if negated then !matched else matched) then .matched r
    else .noMatch
  | members, matched, ch :: '-' :: hi :: r =>
    if hi ≠ ']' then bracketLoop negated c (members + 1) (matched || (ch ≤ c && c ≤ hi)) r
    else bracketLoop negated c (members + 1) (matched || ch == c) ('-' :: hi :: r)
  | members, matched, ch :: r => bracketLoop negated c (members + 1) (matched || ch == c) r

/-- After the `[` and its negation: a `]` here is a member. -/
def bracketMembers (negated : Bool) (c : Char) : List Char → ClassOutcome
  | ']' :: r => bracketLoop negated c 1 (c == ']') r
  | r => bracketLoop negated c 0 false r

/-- `bracket_class_matches`, the pattern after its `[`. -/
def bracketClassMatches (pattern : List Char) (c : Char) : ClassOutcome :=
  match pattern with
  | '!' :: r => bracketMembers true c r
  | '^' :: r => bracketMembers true c r
  | r => bracketMembers false c r

/-- `match_single`. -/
def matchSingle (pattern : List Char) (c : Char) : Option (List Char) :=
  match pattern with
  | [] => none
  | '?' :: r => some r
  | '[' :: r =>
    match bracketClassMatches r c with
    | .matched next => some next
    | .noMatch => none
    | .invalid => if '[' = c then some r else none
  | cur :: r => if cur = c then some r else none

/-- The loop of `simple_glob_match`; `star` holds the pattern after the most recent star
    and the text that it has left.  The first argument bounds the number of turns. -/
def simpleGlobLoop : Nat → List Char → List Char → Option (List Char × List Char) → Bool
  | _, pattern, [], _ => pattern.all (· == '*')
  | 0, _, _, _ => false
  | n + 1, pattern, c :: text, star =>
    match pattern with
    | '*' :: r => simpleGlobLoop n r (c :: text) (some (r, c :: text))
    | _ =>
      match matchSingle pattern c with
      | some next => simpleGlobLoop n next text star
      | none =>
        match star with
        | none => false
        | some (r, at_) => simpleGlobLoop n r at_.tail (some (r, at_.tail))

/-- `simple_glob_match`. -/
def simpleGlobMatch (pattern text : List Char) : Bool :=
  simpleGlobLoop ((text.length + 1) * (text.length + pattern.length + 1)) pattern text none

/-! ## 2. What the matchers read -/

/-- Where a class of `glob_match_char_class` ends does not depend on the byte. -/
theorem classItems_rest (ch ch' : Char) (first m m' : Bool) (r : List Char) :
    (classItems ch first r m).1 = (classItems ch' first r m').1 := by
  fun_induction classItems ch first r m generalizing m' with
  | case1 => rfl
  | case2 first lo hi r m h => rw [classItems, if_pos h]
  | case3 first lo hi r m h ih => rw [classItems, if_neg h, ih]
  | case4 first c cs m hne h => rw [classItems.eq_3 _ _ _ _ _ hne, if_pos h]
  | case5 first c cs m hne h ih => rw [classItems.eq_3 _ _ _ _ _ hne, if_neg h, ih]

theorem classItems_length (ch : Char) (first m : Bool) (r : List Char) :
    (classItems ch first r m).1.length ≤ r.length := by
  fun_induction classItems ch first r m with
  | case1 => exact Nat.le_refl _
  | case2 | case3 first lo hi r m h ih | case4 | case5 first c cs m hne h ih =>
    simp only [List.length_cons]; omega

/-- Where the class ends. -/
def classRest (r : List Char) : List Char := (globMatchCharClass r ' ').1

theorem globMatchCharClass_rest (r : List Char) (ch : Char) :
    (globMatchCharClass r ch).1 = classRest r := by
  unfold classRest globMatchCharClass
  split
  · exact classItems_rest _ _ _ _ _ _
  · exact classItems_rest _ _ _ _ _ _
  · exact classItems_rest _ _ _ _ _ _

theorem classRest_length (r : List Char) : (classRest r).length ≤ r.length := by
  unfold classRest globMatchCharClass
  split
  · exact (classItems_length _ _ _ _).trans (Nat.le_succ _)
  · exact (classItems_length _ _ _ _).trans (Nat.le_succ _)
  · exact classItems_length _ _ _ _

/-- The next element for `glob_match_inner`. -/
def globRead (pattern : List Char) : Option (Element Char × List Char) :=
  match pattern with
  | [] => none
  | '?' :: r => some (.one fun _ => true, r)
  | '*' :: r => some (.star, r)
  | '[' :: r => some (.one fun ch => (globMatchCharClass r ch).2, classRest r)
  | '\\' :: c :: r => some (.one fun ch => c == ch, r)
  | c :: r => some (.one fun ch => c == ch, r)

/-- How `glob_match_inner` reads a pattern. -/
def globReader : Reader (List Char) Char where
  read := globRead
  finished p := p.all (· == '*')
  size := List.length
  size_lt := by
    intro p e r h
    unfold globRead at h
    split at h
    · cases h
    · cases h
      exact Nat.lt_succ_self _
    · cases h
      exact Nat.lt_succ_self _
    · next r' =>
      cases h
      exact Nat.lt_succ_of_le (classRest_length r')
    · cases h
      simp only [List.length_cons]
      omega
    · cases h
      exact Nat.lt_succ_self _
  finished_of_none := by
    intro p h
    unfold globRead at h
    split at h
    · rfl
    all_goals cases h
  finished_of_star := by
    intro p r h
    unfold globRead at h
    split at h
    all_goals cases h
    rfl
  finished_of_one := by
    intro p r accepts h
    have hne : ∀ c r', p = c :: r' → c ≠ '*' := by
      rintro c r' rfl rfl
      cases h
    cases p with
    | nil => cases h
    | cons c r' => simp [hne c r' rfl]

/-- A step as the library has it. -/
def GlobPatternStep.toStep : GlobPatternStep → Reader.Step (List Char)
  | .consume r => .consume r
  | .star r => .star r
  | .mismatch => .mismatch

theorem toStep_globStep (p : List Char) (ch : Char) :
    (globStep p ch).toStep = globReader.step p ch := by
  have hlit : ∀ c r, (if c = ch then GlobPatternStep.consume r else .mismatch).toStep =
      if (c == ch) = true then .consume r else .mismatch := by
    intro c r
    by_cases hc : c = ch
    · rw [if_pos hc, if_pos (beq_iff_eq.mpr hc)]
      rfl
    · rw [if_neg hc, if_neg fun h => hc (beq_iff_eq.mp h)]
      rfl
  unfold globStep
  split
  · rfl
  · rfl
  · rfl
  · next r =>
    have hread : globReader.read ('[' :: r) =
      some (.one fun ch => (globMatchCharClass r ch).2, classRest r) := rfl
    rw [Reader.step_of_one hread]
    dsimp only
    rw [← globMatchCharClass_rest r ch]
    split
    · rfl
    · rfl
  · exact hlit _ _
  · next c r hq hs hb hesc =>
    have hread : globReader.read (c :: r) = some (.one fun ch => c == ch, r) := by
      simp only [globReader, globRead]
    rw [Reader.step_of_one hread]
    exact hlit _ _

theorem globMatchLoop_eq (n : Nat) (p name : List Char) (star : Option (List Char × List Char)) :
    globMatchLoop n p name star = globReader.loop n p name star := by
  induction n generalizing p name star with
  | zero => cases name <;> rfl
  | succ n ih =>
    cases name with
    | nil => rfl
    | cons ch name =>
      simp only [globMatchLoop, Reader.loop, ← toStep_globStep]
      cases globStep p ch with
      | consume r => exact ih _ _ _
      | star r => exact ih _ _ _
      | mismatch =>
        rcases star with _ | ⟨r, at_⟩
        · rfl
        · exact ih _ _ _

/-- The patterns that the loop of `glob_match_inner` reads against a byte of the name: in
    each, what it reads is the first element. -/
def testedPatterns : Nat → List Char → List Char → Option (List Char × List Char) →
    List (List Char)
  | _, _, [], _ => []
  | 0, _, _, _ => []
  | n + 1, pattern, ch :: name, star =>
    pattern :: match globStep pattern ch with
      | .star r => testedPatterns n r (ch :: name) (some (r, ch :: name))
      | .consume r => testedPatterns n r name star
      | .mismatch =>
        match star with
        | none => []
        | some (r, at_) => testedPatterns n r at_.tail (some (r, at_.tail))

/-- Those of a whole run of `glob_match_inner`. -/
def globTested (pattern name : List Char) : List (List Char) :=
  testedPatterns ((name.length + 1) * (name.length + pattern.length + 1)) pattern name none

theorem testedPatterns_eq (n : Nat) (p name : List Char) (star : Option (List Char × List Char)) :
    testedPatterns n p name star = globReader.tested n p name star := by
  induction n generalizing p name star with
  | zero => cases name <;> rfl
  | succ n ih =>
    cases name with
    | nil => rfl
    | cons ch name =>
      simp only [testedPatterns, Reader.tested, ← toStep_globStep]
      refine congrArg (p :: ·) ?_
      cases globStep p ch with
      | consume r => exact ih _ _ _
      | star r => exact ih _ _ _
      | mismatch =>
        rcases star with _ | ⟨r, at_⟩
        · rfl
        · exact ih _ _ _

/-- A matcher that takes the steps of `glob_match_inner` at every pattern of its run gives
    its answer. -/
theorem globMatchInner_iff_of_tested {R : Reader (List Char) Char} {fine : List Char → Prop}
    (hsize : R.size = List.length) (hfinished : ∀ p, globReader.finished p = R.finished p)
    (hstep : ∀ p, fine p → ∀ c, globReader.step p c = R.step p c) {pattern name : List Char}
    (h : ∀ p ∈ globTested pattern name, fine p) :
    globMatchInner pattern name = true ↔ Matches (R.elements pattern) name := by
  rw [globMatchInner, globMatchLoop_eq, Reader.loop_eq_loop hfinished hstep
    (fun q hq => h q (by rwa [globTested, testedPatterns_eq]))]
  refine Reader.loop_iff_matches ?_
  rw [hsize, Nat.add_assoc, ← Nat.succ_mul]
  exact Nat.mul_le_mul_left _ (by omega)

/-- `glob_match_inner` decides the texts of the elements that it reads. -/
theorem globMatchInner_iff (pattern name : List Char) :
    globMatchInner pattern name = true ↔ Matches (globReader.elements pattern) name := by
  have hall : ∀ p ∈ globTested pattern name, (fun _ => True) p := fun _ _ => trivial
  exact globMatchInner_iff_of_tested rfl (fun _ => rfl) (fun _ _ _ => rfl) hall

/-- Whether a class of `bracket_class_matches` is closed, and where it ends. -/
def bracketRest (members : Nat) : List Char → Option (List Char)
  | [] => none
  | ']' :: r => if members = 0 then none else some r
  | _ :: '-' :: hi :: r =>
    if hi ≠ ']' then bracketRest (members + 1) r else bracketRest (members + 1) ('-' :: hi :: r)
  | _ :: r => bracketRest (members + 1) r

/-- The outcome of a class that ends before `rest`, or of one that does not end. -/
def ClassOutcome.EndsAt (rest : Option (List Char)) (o : ClassOutcome) : Prop :=
  match rest with
  | none => o = .invalid
  | some r => o = .matched r ∨ o = .noMatch

theorem bracketLoop_endsAt (negated : Bool) (c : Char) (members : Nat) (matched : Bool)
    (r : List Char) :
    (bracketLoop negated c members matched r).EndsAt (bracketRest members r) := by
  fun_induction bracketLoop negated c members matched r with
  | case1 => rfl
  | case2 matched r => rw [bracketRest, if_pos rfl]; rfl
  | case3 members matched r h hm => rw [bracketRest, if_neg h]; exact .inl rfl
  | case4 members matched r h hm => rw [bracketRest, if_neg h]; exact .inr rfl
  | case5 members matched ch hi r hch hhi ih =>
    rw [bracketRest.eq_3 _ _ _ _ hch, if_pos hhi]
    exact ih
  | case6 members matched ch hi r hch hhi ih =>
    rw [bracketRest.eq_3 _ _ _ _ hch, if_neg hhi]
    exact ih
  | case7 members matched ch r hch hr ih =>
    rw [bracketRest.eq_4 _ _ _ hch hr]
    exact ih

theorem bracketRest_length {members : Nat} {r rest : List Char}
    (h : bracketRest members r = some rest) : rest.length ≤ r.length := by
  fun_induction bracketRest members r with
  | case1 => cases h
  | case2 => cases h
  | case3 members r hm =>
    cases h
    exact Nat.le_succ _
  | case4 members ch hi r hch hhi ih | case6 members ch r hch hr ih =>
    have hle := ih h
    simp only [List.length_cons]
    omega
  | case5 members ch hi r hch hhi ih =>
    have hle := ih h
    simp only [List.length_cons] at hle ⊢
    omega

/-- Where the members of a class end, after its negation. -/
def bracketMembersRest : List Char → Option (List Char)
  | ']' :: r => bracketRest 1 r
  | r => bracketRest 0 r

/-- Where a class of `bracket_class_matches` ends. -/
def bracketClassRest (pattern : List Char) : Option (List Char) :=
  match pattern with
  | '!' :: r => bracketMembersRest r
  | '^' :: r => bracketMembersRest r
  | r => bracketMembersRest r

theorem bracketMembers_endsAt (negated : Bool) (c : Char) (r : List Char) :
    (bracketMembers negated c r).EndsAt (bracketMembersRest r) := by
  unfold bracketMembers bracketMembersRest
  split
  · exact bracketLoop_endsAt _ _ _ _ _
  · exact bracketLoop_endsAt _ _ _ _ _

theorem bracketClassMatches_endsAt (r : List Char) (c : Char) :
    (bracketClassMatches r c).EndsAt (bracketClassRest r) := by
  unfold bracketClassMatches bracketClassRest
  split
  · exact bracketMembers_endsAt _ _ _
  · exact bracketMembers_endsAt _ _ _
  · exact bracketMembers_endsAt _ _ _

theorem bracketMembersRest_length {r rest : List Char} (h : bracketMembersRest r = some rest) :
    rest.length ≤ r.length := by
  unfold bracketMembersRest at h
  split at h
  · exact (bracketRest_length h).trans (Nat.le_succ _)
  · exact bracketRest_length h

theorem bracketClassRest_length {r rest : List Char} (h : bracketClassRest r = some rest) :
    rest.length ≤ r.length := by
  unfold bracketClassRest at h
  split at h
  · exact (bracketMembersRest_length h).trans (Nat.le_succ _)
  · exact (bracketMembersRest_length h).trans (Nat.le_succ _)
  · exact bracketMembersRest_length h

/-- The next element for `simple_glob_match`. -/
def simpleRead (pattern : List Char) : Option (Element Char × List Char) :=
  match pattern with
  | [] => none
  | '?' :: r => some (.one fun _ => true, r)
  | '*' :: r => some (.star, r)
  | '[' :: r =>
    match bracketClassRest r with
    | some rest => some (.one fun c => bracketClassMatches r c == .matched rest, rest)
    | none => some (.one fun c => '[' == c, r)
  | cur :: r => some (.one fun c => cur == c, r)

/-- How `simple_glob_match` reads a pattern. -/
def simpleReader : Reader (List Char) Char where
  read := simpleRead
  finished p := p.all (· == '*')
  size := List.length
  size_lt := by
    intro p e r h
    unfold simpleRead at h
    split at h
    · cases h
    · cases h
      exact Nat.lt_succ_self _
    · cases h
      exact Nat.lt_succ_self _
    · next r' =>
      split at h
      · next rest hrest =>
        cases h
        exact Nat.lt_succ_of_le (bracketClassRest_length hrest)
      · cases h
        exact Nat.lt_succ_self _
    · cases h
      exact Nat.lt_succ_self _
  finished_of_none := by
    intro p h
    unfold simpleRead at h
    split at h
    · rfl
    · cases h
    · cases h
    · split at h
      all_goals cases h
    · cases h
  finished_of_star := by
    intro p r h
    unfold simpleRead at h
    split at h
    · cases h
    · cases h
    · cases h
      rfl
    · split at h
      all_goals cases h
    · cases h
  finished_of_one := by
    intro p r accepts h
    have hne : ∀ c r', p = c :: r' → c ≠ '*' := by
      rintro c r' rfl rfl
      cases h
    cases p with
    | nil => cases h
    | cons c r' => simp [hne c r' rfl]

/-- A step that is not at a star. -/
theorem step_simpleReader {p : List Char} (hp : p.head? ≠ some '*') (c : Char) :
    simpleReader.step p c = (matchSingle p c).elim .mismatch .consume := by
  have hlit : ∀ (cur : Char) (r : List Char),
      (if (cur == c) = true then Reader.Step.consume r else .mismatch) =
        (if cur = c then some r else none).elim .mismatch .consume := by
    intro cur r
    by_cases hc : cur = c
    · rw [if_pos hc, if_pos (beq_iff_eq.mpr hc)]
      rfl
    · rw [if_neg hc, if_neg fun h => hc (beq_iff_eq.mp h)]
      rfl
  unfold matchSingle
  split
  · rfl
  · rfl
  · next r =>
    have hends := bracketClassMatches_endsAt r c
    rcases hrest : bracketClassRest r with _ | rest
    · have hread : simpleReader.read ('[' :: r) = some (.one fun c => '[' == c, r) := by
        simp only [simpleReader, simpleRead, hrest]
      rw [hrest] at hends
      rw [Reader.step_of_one hread, hends]
      exact hlit _ _
    · have hread : simpleReader.read ('[' :: r) =
          some (.one fun c => bracketClassMatches r c == .matched rest, rest) := by
        simp only [simpleReader, simpleRead, hrest]
      rw [hrest] at hends
      rw [Reader.step_of_one hread]
      rcases hends with hends | hends
      · rw [hends, if_pos (beq_iff_eq.mpr rfl)]
        rfl
      · rw [hends, if_neg (by simp)]
        rfl
  · next cur r hq hb =>
    have hs : cur ≠ '*' := by
      rintro rfl
      exact hp rfl
    have hread : simpleReader.read (cur :: r) = some (.one fun c => cur == c, r) := by
      simp only [simpleReader, simpleRead]
    rw [Reader.step_of_one hread]
    exact hlit _ _

theorem simpleGlobLoop_eq (n : Nat) (p text : List Char)
    (star : Option (List Char × List Char)) :
    simpleGlobLoop n p text star = simpleReader.loop n p text star := by
  induction n generalizing p text star with
  | zero => cases text <;> rfl
  | succ n ih =>
    cases text with
    | nil => rfl
    | cons c text =>
      by_cases hp : p.head? = some '*'
      · cases p with
        | nil => cases hp
        | cons d r =>
          cases hp
          exact ih _ _ _
      · simp only [Reader.loop, step_simpleReader hp]
        have hloop : simpleGlobLoop (n + 1) p (c :: text) star =
            (matchSingle p c).elim
              (star.elim false fun s => simpleGlobLoop n s.1 s.2.tail (some (s.1, s.2.tail)))
              fun next => simpleGlobLoop n next text star := by
          simp only [simpleGlobLoop]
          split
          · exact absurd rfl hp
          · cases matchSingle p c with
            | none => cases star <;> rfl
            | some next => rfl
        rw [hloop]
        cases matchSingle p c with
        | some next => exact ih _ _ _
        | none =>
          rcases star with _ | ⟨r, at_⟩
          · rfl
          · exact ih _ _ _

/-- `simple_glob_match` decides the texts of the elements that it reads. -/
theorem simpleGlobMatch_iff (pattern text : List Char) :
    simpleGlobMatch pattern text = true ↔ Matches (simpleReader.elements pattern) text := by
  rw [simpleGlobMatch, simpleGlobLoop_eq]
  refine Reader.loop_iff_matches ?_
  show text.length * (pattern.length + 1) + pattern.length + 1 ≤ _
  rw [Nat.add_assoc, ← Nat.succ_mul]
  exact Nat.mul_le_mul_left _ (by omega)

/-! ## 3. Elements that are read alike -/

/-- The pattern after a class, as `glob_match_char_class` reads it: no result where no `]`
    closes it or a `]` is the upper end of a range. -/
def classEnd : Bool → List Char → Option (List Char)
  | _, [] => none
  | first, lo :: '-' :: hi :: r =>
    if !first && lo == ']' then some ('-' :: hi :: r)
    else if hi == ']' then none
    else classEnd false r
  | first, c :: cs => if !first && c == ']' then some cs else classEnd false cs

/-- A class without its mark of negation. -/
def withoutNegation : List Char → List Char
  | '!' :: r => r
  | '^' :: r => r
  | r => r

/-- The class starts with a range from `]`. -/
def rangeFromBracket : List Char → Bool
  | ']' :: '-' :: _ :: _ => true
  | _ => false

/-- Both matchers read the first element of the pattern alike: it is no backslash before
    another byte, and a class is closed, has no range that ends with a `]` and does not
    start with one from `]`. -/
def readAlike : List Char → Bool
  | '\\' :: r => r.isEmpty
  | '[' :: r =>
    !rangeFromBracket (withoutNegation r) && (classEnd true (withoutNegation r)).isSome
  | _ => true

/-- A class that ends before `rest`, for both matchers and every byte. -/
structure ClassAlike (rest : List Char) (items : Char → List Char × Bool)
    (outcome : Bool → Char → ClassOutcome) : Prop where
  items_rest : ∀ c, (items c).1 = rest
  outcome_eq : ∀ negated c, outcome negated c =
    if (if negated then !(items c).2 else (items c).2) then .matched rest else .noMatch

theorem classAlike_later {r rest : List Char} (h : classEnd false r = some rest)
    (hits : Char → Bool) (members : Nat) (hm : 0 < members ∨ r.head? ≠ some ']') :
    ClassAlike rest (fun c => classItems c false r (hits c))
      fun negated c => bracketLoop negated c members (hits c) r := by
  induction hn : r.length using Nat.strong_induction_on generalizing r hits members with
  | _ n ih =>
    subst hn
    cases r with
    | nil => cases h
    | cons ch r =>
      have hpos : ch = ']' → members ≠ 0 := by
        rintro rfl
        rcases hm with hm | hm
        · exact Nat.ne_of_gt hm
        · exact absurd rfl hm
      by_cases hrange : ∃ hi r', r = '-' :: hi :: r'
      · rcases hrange with ⟨hi, r, rfl⟩
        rw [classEnd] at h
        by_cases hch : ch = ']'
        · subst hch
          rw [if_pos (by decide)] at h
          cases h
          constructor
          · intro c
            rw [classItems, if_pos (by decide)]
          · intro negated c
            simp only [bracketLoop, classItems, if_neg (hpos rfl)]
            rfl
        · rw [if_neg (by simp [hch])] at h
          by_cases hhi : hi = ']'
          · rw [if_pos (by simp [hhi])] at h
            cases h
          · rw [if_neg (by simp [hhi])] at h
            have hclass := ih r.length (by simp only [List.length_cons]; omega) h
              (fun c => hits c || (ch ≤ c && c ≤ hi)) (members + 1)
              (.inl (Nat.succ_pos members)) rfl
            have hitems : ∀ c, classItems c false (ch :: '-' :: hi :: r) (hits c) =
                classItems c false r (hits c || (ch ≤ c && c ≤ hi)) := by
              intro c
              rw [classItems, if_neg (by simp [hch])]
            constructor
            · intro c
              rw [hitems]
              exact hclass.items_rest c
            · intro negated c
              rw [hitems, bracketLoop.eq_3 _ _ _ _ _ _ _ hch, if_pos hhi]
              exact hclass.outcome_eq negated c
      · have hne : ∀ hi r', r = '-' :: hi :: r' → False := fun hi r' heq => hrange ⟨hi, r', heq⟩
        rw [classEnd.eq_3 _ _ _ hne] at h
        by_cases hch : ch = ']'
        · subst hch
          rw [if_pos (by decide)] at h
          cases h
          have hitems : ∀ c, classItems c false (']' :: rest) (hits c) = (rest, hits c) := by
            intro c
            rw [classItems.eq_3 _ _ _ _ _ hne, if_pos (by decide)]
          constructor
          · intro c
            rw [hitems]
          · intro negated c
            rw [hitems, bracketLoop, if_neg (hpos rfl)]
        · rw [if_neg (by simp [hch])] at h
          have hclass := ih r.length (Nat.lt_succ_self _) h (fun c => hits c || ch == c)
            (members + 1) (.inl (Nat.succ_pos members)) rfl
          have hitems : ∀ c, classItems c false (ch :: r) (hits c) =
              classItems c false r (hits c || ch == c) := by
            intro c
            rw [classItems.eq_3 _ _ _ _ _ hne, if_neg (by simp [hch])]
          constructor
          · intro c
            rw [hitems]
            exact hclass.items_rest c
          · intro negated c
            rw [hitems, bracketLoop.eq_4 _ _ _ _ _ _ hch hne]
            exact hclass.outcome_eq negated c

theorem classAlike_first {r rest : List Char} (hrange : rangeFromBracket r = false)
    (h : classEnd true r = some rest) :
    ClassAlike rest (fun c => classItems c true r false)
      fun negated c => bracketMembers negated c r := by
  by_cases hhead : r.head? = some ']'
  · cases r with
    | nil => cases hhead
    | cons ch r =>
      cases hhead
      have hne : ∀ hi r', r = '-' :: hi :: r' → False := by
        rintro hi r' rfl
        cases hrange
      rw [classEnd.eq_3 _ _ _ hne, if_neg (by decide)] at h
      have hclass := classAlike_later h (fun c => c == ']') 1 (.inl Nat.one_pos)
      have hitems : ∀ c, classItems c true (']' :: r) false = classItems c false r (c == ']') := by
        intro c
        rw [classItems.eq_3 _ _ _ _ _ hne, if_neg (by decide), Bool.false_or, Bool.beq_comm]
      constructor
      · intro c
        rw [hitems]
        exact hclass.items_rest c
      · intro negated c
        rw [hitems]
        exact hclass.outcome_eq negated c
  · have hne : ∀ ch r', r = ch :: r' → ch ≠ ']' := by
      rintro ch r' rfl rfl
      exact hhead rfl
    have hitems : ∀ c, classItems c true r false = classItems c false r false := by
      intro c
      rw [classItems.eq_def, classItems.eq_def]
      split
      · rfl
      · simp [hne _ _ rfl]
      · simp [hne _ _ rfl]
    have hmembers : ∀ negated c, bracketMembers negated c r = bracketLoop negated c 0 false r := by
      intro negated c
      unfold bracketMembers
      split
      · exact absurd rfl hhead
      · rfl
    have hlater : classEnd false r = some rest := by
      rw [classEnd.eq_def] at h ⊢
      split at h
      · cases h
      · simpa [hne _ _ rfl] using h
      · simpa [hne _ _ rfl] using h
    have hclass := classAlike_later hlater (fun _ => false) 0 (.inr hhead)
    constructor
    · intro c
      rw [hitems]
      exact hclass.items_rest c
    · intro negated c
      rw [hitems, hmembers]
      exact hclass.outcome_eq negated c

/-- An element that is read alike is the same for both matchers. -/
theorem read_eq_of_readAlike {p : List Char} (h : readAlike p = true) :
    globReader.read p = simpleReader.read p := by
  have hclass : ∀ {body r : List Char} {negated : Bool},
      rangeFromBracket r = false → (classEnd true r).isSome = true →
      (∀ c, globMatchCharClass body c = ((classItems c true r false).1,
        if negated then !(classItems c true r false).2 else (classItems c true r false).2)) →
      (∀ c, bracketClassMatches body c = bracketMembers negated c r) →
      bracketClassRest body = bracketMembersRest r →
      globReader.read ('[' :: body) = simpleReader.read ('[' :: body) := by
    intro body r negated hrange hclosed hglob hsimple hends
    obtain ⟨rest, hend⟩ := Option.isSome_iff_exists.mp hclosed
    have hclass := classAlike_first hrange hend
    have hrest : classRest body = rest := by
      rw [classRest, hglob]
      exact hclass.items_rest _
    have hclassRest : bracketClassRest body = some rest := by
      -- One of the two negations lets the byte in, so the outcome shows the end.
      have hshown : ∃ negated, bracketMembers negated ' ' r = .matched rest := by
        cases hhit : (classItems ' ' true r false).2 with
        | false => exact ⟨true, by rw [hclass.outcome_eq, hhit]; rfl⟩
        | true => exact ⟨false, by rw [hclass.outcome_eq, hhit]; rfl⟩
      rcases hshown with ⟨neg, hshown⟩
      have hmatched := bracketMembers_endsAt neg ' ' r
      rw [hshown, ← hends] at hmatched
      rcases hbody : bracketClassRest body with _ | rest'
      · rw [hbody] at hmatched
        cases hmatched
      · rw [hbody] at hmatched
        rcases hmatched with hmatched | hmatched
        · cases hmatched
          rfl
        · cases hmatched
    have hread : globReader.read ('[' :: body) =
        some (.one fun c => (globMatchCharClass body c).2, classRest body) := rfl
    rw [hread, hrest]
    simp only [simpleReader, simpleRead, hclassRest]
    refine congrArg some (congrArg (fun f => (Element.one f, rest)) (funext fun c => ?_))
    rw [hsimple, hclass.outcome_eq, hglob]
    generalize (if negated = true then !(classItems c true r false).2
      else (classItems c true r false).2) = hit
    cases hit with
    | false => rfl
    | true => simp
  unfold readAlike at h
  split at h
  · next r =>
    rw [List.isEmpty_iff.mp h]
    rfl
  · next body =>
    rw [Bool.and_eq_true, Bool.not_eq_true'] at h
    obtain ⟨hrange, hclosed⟩ := h
    unfold withoutNegation at hrange hclosed
    split at hrange
    · exact @hclass _ _ true hrange hclosed (fun _ => rfl) (fun _ => rfl) rfl
    · exact @hclass _ _ true hrange hclosed (fun _ => rfl) (fun _ => rfl) rfl
    · next r hbang hcaret =>
      refine @hclass _ _ false hrange ?_ ?_ ?_ ?_
      · simpa only using hclosed
      · intro c
        simp only [globMatchCharClass]
        rfl
      · intro c
        simp only [bracketClassMatches]
      · simp only [bracketClassRest]
  · next hback hbr =>
    cases p with
    | nil => rfl
    | cons c r =>
      by_cases hq : c = '?'
      · subst hq
        rfl
      by_cases hs : c = '*'
      · subst hs
        rfl
      have hesc : ∀ d r', c = '\\' → r = d :: r' → False := fun _ _ hc _ => hback r (hc ▸ rfl)
      have hopen : c = '[' → False := fun hc => hbr r (hc ▸ rfl)
      simp only [globReader, globRead, simpleReader, simpleRead]

/-! ## 4. Patterns without brackets -/

/-- A shortest text of a pattern without brackets, as `glob_match_inner` reads it. -/
def shortestText : List Char → List Char
  | [] => []
  | '*' :: r => shortestText r
  | '\\' :: c :: r => c :: shortestText r
  | c :: r => c :: shortestText r

theorem simpleRead_cons {c : Char} (hs : c ≠ '*') (hb : c ≠ '[') (r : List Char) :
    ∃ accepts : Char → Bool, simpleReader.read (c :: r) = some (.one accepts, r) ∧
      accepts c = true ∧ (c ≠ '?' → ∀ d, accepts d = true → d = c) := by
  by_cases hq : c = '?'
  · subst hq
    exact ⟨fun _ => true, rfl, rfl, fun h => absurd rfl h⟩
  · refine ⟨fun d => c == d, ?_, beq_iff_eq.mpr rfl, fun _ d hd => (beq_iff_eq.mp hd).symm⟩
    simp only [simpleReader, simpleRead]

/-- `simple_glob_match` needs a byte for each byte of the pattern that is no star. -/
theorem length_le_of_matches {p w : List Char} (hp : '[' ∉ p)
    (h : Matches (simpleReader.elements p) w) : p.countP (· != '*') ≤ w.length := by
  induction p generalizing w with
  | nil => exact Nat.zero_le _
  | cons c r ih =>
    have hr : '[' ∉ r := fun hmem => hp (.tail _ hmem)
    by_cases hs : c = '*'
    · subst hs
      have hread : simpleReader.read ('*' :: r) = some (.star, r) := rfl
      rw [Reader.elements_of_some hread] at h
      rcases matches_star_iff_suffix.mp h with ⟨w', hsuffix, h⟩
      rw [List.countP_cons_of_neg (by decide)]
      exact (ih hr h).trans hsuffix.length_le
    · have hb : c ≠ '[' := by
        rintro rfl
        exact hp (.head _)
      rcases simpleRead_cons hs hb r with ⟨accepts, hread, -, -⟩
      rw [Reader.elements_of_some hread] at h
      rw [List.countP_cons_of_pos (by simpa using hs)]
      cases h with
      | one ha h => exact Nat.succ_le_succ (ih hr h)

theorem length_shortestText (p : List Char) :
    (shortestText p).length ≤ p.countP (· != '*') := by
  fun_induction shortestText p with
  | case1 => exact Nat.zero_le _
  | case2 r ih =>
    rw [List.countP_cons_of_neg (by decide)]
    exact ih
  | case3 c r ih =>
    rw [List.countP_cons_of_pos (by decide), List.length_cons]
    refine Nat.succ_le_succ (ih.trans ?_)
    exact (List.sublist_cons_self c r).countP_le
  | case4 c r hs hesc ih =>
    rw [List.countP_cons_of_pos (by simpa using hs), List.length_cons]
    exact Nat.succ_le_succ ih

theorem matches_shortestText {p : List Char} (hp : '[' ∉ p) :
    Matches (globReader.elements p) (shortestText p) := by
  fun_induction shortestText p with
  | case1 =>
    rw [Reader.elements_of_none rfl]
    exact .nil
  | case2 r ih =>
    have hread : globReader.read ('*' :: r) = some (.star, r) := rfl
    rw [Reader.elements_of_some hread]
    exact .skip (ih fun h => hp (.tail _ h))
  | case3 c r ih =>
    have hread : globReader.read ('\\' :: c :: r) = some (.one fun ch => c == ch, r) := rfl
    rw [Reader.elements_of_some hread]
    exact .one (beq_iff_eq.mpr rfl) (ih fun h => hp (.tail _ (.tail _ h)))
  | case4 c r hs hesc ih =>
    have hmatch := ih fun h => hp (.tail _ h)
    by_cases hq : c = '?'
    · subst hq
      have hread : globReader.read ('?' :: r) = some (.one fun _ => true, r) := rfl
      rw [Reader.elements_of_some hread]
      exact .one rfl hmatch
    · have hb : c ≠ '[' := by
        rintro rfl
        exact hp (.head _)
      have hread : globReader.read (c :: r) = some (.one fun ch => c == ch, r) := by
        simp only [globReader, globRead]
      rw [Reader.elements_of_some hread]
      exact .one (beq_iff_eq.mpr rfl) hmatch

/-- No backslash stands before another byte. -/
def escapeFree : List Char → Bool
  | [] => true
  | '\\' :: r => r.isEmpty
  | _ :: r => escapeFree r

/-- Without brackets and escapes the elements are the same. -/
theorem elements_eq_of_escapeFree {p : List Char} (hp : '[' ∉ p) (h : escapeFree p = true) :
    globReader.elements p = simpleReader.elements p := by
  induction p with
  | nil => rw [Reader.elements_of_none rfl, Reader.elements_of_none rfl]
  | cons c r ih =>
    have hb : c ≠ '[' := by
      rintro rfl
      exact hp (.head _)
    have hhere : readAlike (c :: r) = true := by
      by_cases hback : c = '\\'
      · subst hback
        exact h
      · rw [readAlike.eq_3]
        · rintro r' ⟨⟩
          exact hback rfl
        · rintro r' ⟨⟩
          exact hb rfl
    have hrest : globReader.elements r = simpleReader.elements r := by
      by_cases hback : c = '\\'
      · subst hback
        rw [List.isEmpty_iff.mp h, Reader.elements_of_none rfl, Reader.elements_of_none rfl]
      · refine ih (fun hmem => hp (.tail _ hmem)) ?_
        rwa [escapeFree.eq_3 _ _ hback] at h
    have hread := read_eq_of_readAlike hhere
    by_cases hs : c = '*'
    · subst hs
      have hstar : simpleReader.read ('*' :: r) = some (.star, r) := rfl
      rw [Reader.elements_of_some (hread.trans hstar), Reader.elements_of_some hstar, hrest]
    · obtain ⟨accepts, hone, -⟩ := simpleRead_cons hs hb r
      rw [Reader.elements_of_some (hread.trans hone), Reader.elements_of_some hone, hrest]

/-- A shortest text of the one matcher is too short for the other, or has the quoted byte
    where the other wants the backslash. -/
theorem escapeFree_of_matches {p : List Char} (hp : '[' ∉ p)
    (h : Matches (simpleReader.elements p) (shortestText p)) : escapeFree p = true := by
  fun_induction shortestText p with
  | case1 => rfl
  | case2 r ih =>
    have hr : '[' ∉ r := fun hmem => hp (.tail _ hmem)
    have hread : simpleReader.read ('*' :: r) = some (.star, r) := rfl
    rw [Reader.elements_of_some hread] at h
    rcases matches_star_iff_suffix.mp h with ⟨w, hsuffix, h⟩
    have hlen := (length_shortestText r).trans (length_le_of_matches hr h)
    rw [hsuffix.eq_of_length_le hlen] at h
    exact ih hr h
  | case3 c r ih =>
    exfalso
    rcases simpleRead_cons (c := '\\') (by decide) (by decide) (c :: r) with
      ⟨accepts, hread, -, hone⟩
    rw [Reader.elements_of_some hread, matches_one_iff] at h
    have hc : c = '\\' := hone (by decide) c h.1
    have hlen := length_le_of_matches (fun hmem => hp (.tail _ hmem)) h.2
    rw [hc, List.countP_cons_of_pos (by decide)] at hlen
    exact absurd (hlen.trans (length_shortestText r)) (Nat.not_succ_le_self _)
  | case4 c r hs hesc ih =>
    have hr : '[' ∉ r := fun hmem => hp (.tail _ hmem)
    have hb : c ≠ '[' := by
      rintro rfl
      exact hp (.head _)
    rcases simpleRead_cons hs hb r with ⟨accepts, hread, -, -⟩
    rw [Reader.elements_of_some hread, matches_one_iff] at h
    by_cases hback : c = '\\'
    · subst hback
      cases r with
      | nil => rfl
      | cons d r => exact absurd rfl (hesc d r rfl)
    · rw [escapeFree.eq_3 _ _ hback]
      exact ih hr h.2

/-- **The two glob matchers.**  They give the same answer when every element that
    `glob_match_inner` tests on its way is read alike; on a pattern without brackets they
    agree about every text exactly if no backslash stands before another byte. -/
theorem glob_matchers_agree (pattern : List Char) :
    (∀ text, (∀ p ∈ globTested pattern text, readAlike p = true) →
      globMatchInner pattern text = simpleGlobMatch pattern text) ∧
    ('[' ∉ pattern → ((∀ text, globMatchInner pattern text = simpleGlobMatch pattern text) ↔
      escapeFree pattern = true)) := by
  refine ⟨fun text h => ?_, fun hp => ⟨fun h => ?_, fun h text => ?_⟩⟩
  · have hstep : ∀ p, readAlike p = true → ∀ c, globReader.step p c = simpleReader.step p c := by
      intro p hp c
      rw [Reader.step, Reader.step, read_eq_of_readAlike hp]
    rw [Bool.eq_iff_iff, simpleGlobMatch_iff]
    exact @globMatchInner_iff_of_tested simpleReader _ rfl (fun _ => rfl) hstep pattern text h
  · refine escapeFree_of_matches hp ?_
    rw [← simpleGlobMatch_iff, ← h, globMatchInner_iff]
    exact matches_shortestText hp
  · rw [Bool.eq_iff_iff, globMatchInner_iff, simpleGlobMatch_iff, elements_eq_of_escapeFree hp h]

/-- A quoted star, and a class that is not closed. -/
theorem glob_matchers_disagree :
    globMatchInner ['\\', '*'] ['*'] = true ∧ simpleGlobMatch ['\\', '*'] ['*'] = false ∧
      globMatchInner ['[', 'a', 'b'] ['a'] = true ∧
      simpleGlobMatch ['[', 'a', 'b'] ['a'] = false := by
  decide

end Wasmsh.Globs

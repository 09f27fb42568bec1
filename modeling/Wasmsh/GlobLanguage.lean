import Wasmsh.GlobMatchers

/-!
# The language of a glob pattern

What a pattern stands for, read off its text: the items of a bracket class are single
bytes and ranges, a `]` in the first place of a class and a `-` right before the `]` that
closes it are items, and a `[` that opens no class is a byte like any other.
`glob_match_inner` decides whether a name is in this language where every class that it
tests on its way is closed.  It takes the `]` after `a-` for the upper end of a range, and a
`[` that is never closed for a class of all that follows.
-/

namespace Wasmsh.Globs

open Wildcards

/-! ## 1. The language -/

/-- An item of a bracket class. -/
inductive ClassItem where
  | byte (c : Char)
  | range (lo hi : Char)
  deriving DecidableEq, Repr

/-- The byte is one of the item's. -/
def ClassItem.has : ClassItem → Char → Bool
  | .byte c, ch => c == ch
  | .range lo hi, ch => lo ≤ ch && ch ≤ hi

/-- The items of a class, up to the `]` that closes it, and the pattern after that.  The
    first argument says whether the next item is the first one. -/
inductive Items : Bool → List Char → List ClassItem → List Char → Prop
  | close {r} : Items false (']' :: r) [] r
  | range {first lo hi r items rest} : (first = true ∨ lo ≠ ']') → hi ≠ ']' →
      Items false r items rest → Items first (lo :: '-' :: hi :: r) (.range lo hi :: items) rest
  | byte {first c r items rest} : (first = true ∨ c ≠ ']') →
      (∀ hi r', r = '-' :: hi :: r' → hi = ']') →
      Items false r items rest → Items first (c :: r) (.byte c :: items) rest

/-- The first byte of a class that stands for the bytes the items leave out. -/
def isNegation (c : Char) : Bool := c == '!' || c == '^'

/-- A bracket class after its `[`: whether it is negated, its items and what follows. -/
inductive Bracket : List Char → Bool → List ClassItem → List Char → Prop
  | negated {mark r items rest} : isNegation mark = true → Items true r items rest →
      Bracket (mark :: r) true items rest
  | plain {r items rest} : (∀ c ∈ r.head?, isNegation c = false) → Items true r items rest →
      Bracket r false items rest

/-- The names that a pattern stands for. -/
inductive InLanguage : List Char → List Char → Prop
  | nil : InLanguage [] []
  | star {p before name} : InLanguage p name → InLanguage ('*' :: p) (before ++ name)
  | any {p ch name} : InLanguage p name → InLanguage ('?' :: p) (ch :: name)
  | escaped {c p name} : InLanguage p name → InLanguage ('\\' :: c :: p) (c :: name)
  | bracket {p negated items rest ch name} : Bracket p negated items rest →
      (items.any (·.has ch) != negated) = true → InLanguage rest name →
      InLanguage ('[' :: p) (ch :: name)
  | other {c p name} : c ≠ '*' → c ≠ '?' → (c = '\\' → p = []) →
      (c = '[' → ∀ negated items rest, ¬ Bracket p negated items rest) →
      InLanguage p name → InLanguage (c :: p) (c :: name)

/-! ## 2. The classes of the language -/

/-- The items of a class and the pattern after it; no result where it is not closed. -/
def readItems : Bool → List Char → Option (List ClassItem × List Char)
  | _, [] => none
  | first, lo :: '-' :: hi :: r =>
    if !first && lo == ']' then some ([], '-' :: hi :: r)
    else if hi == ']' then
      (readItems false ('-' :: hi :: r)).map fun e => (.byte lo :: e.1, e.2)
    else (readItems false r).map fun e => (.range lo hi :: e.1, e.2)
  | first, c :: cs =>
    if !first && c == ']' then some ([], cs)
    else (readItems false cs).map fun e => (.byte c :: e.1, e.2)

/-- A class: whether it is negated, its items and the pattern after it. -/
def readBracket : List Char → Option (Bool × List ClassItem × List Char)
  | '!' :: r => (readItems true r).map (true, ·)
  | '^' :: r => (readItems true r).map (true, ·)
  | r => (readItems true r).map (false, ·)

/-- A byte is an item where it does not close the class. -/
theorem opens_iff {first : Bool} {c : Char} :
    ¬ (!first && c == ']') = true ↔ first = true ∨ c ≠ ']' := by
  cases first <;> simp

theorem items_of_readItems {first : Bool} {p rest : List Char} {items : List ClassItem}
    (h : readItems first p = some (items, rest)) : Items first p items rest := by
  fun_induction readItems first p generalizing items rest with
  | case1 => cases h
  | case2 first lo hi r hclose | case5 first c cs hshape hclose =>
    cases h
    simp only [Bool.and_eq_true, Bool.not_eq_eq_eq_not, Bool.not_true, beq_iff_eq] at hclose
    obtain ⟨rfl, rfl⟩ := hclose
    exact .close
  | case3 first lo hi r hopen hhi ih =>
    obtain ⟨⟨more, rest'⟩, hmore, heq⟩ := Option.map_eq_some_iff.mp h
    cases heq
    refine .byte (opens_iff.mp hopen) ?_ (ih hmore)
    rintro hi' r' ⟨⟩
    exact beq_iff_eq.mp hhi
  | case4 first lo hi r hopen hhi ih =>
    obtain ⟨⟨more, rest'⟩, hmore, heq⟩ := Option.map_eq_some_iff.mp h
    cases heq
    exact .range (opens_iff.mp hopen) (by simpa using hhi) (ih hmore)
  | case6 first c cs hshape hopen ih =>
    obtain ⟨⟨more, rest'⟩, hmore, heq⟩ := Option.map_eq_some_iff.mp h
    cases heq
    exact .byte (opens_iff.mp hopen) (fun hi r' hr => absurd hr (hshape hi r')) (ih hmore)

theorem readItems_of_items {first : Bool} {p rest : List Char} {items : List ClassItem}
    (h : Items first p items rest) : readItems first p = some (items, rest) := by
  induction h with
  | @close r =>
    rw [readItems.eq_def]
    split
    · next heq => cases heq
    · next heq =>
      cases heq
      rfl
    · next heq =>
      cases heq
      rfl
  | range hlo hhi _ ih => rw [readItems, if_neg (opens_iff.mpr hlo), if_neg (by simpa using hhi), ih]; rfl
  | @byte first c r items rest hc hdash _ ih =>
    by_cases hrange : ∃ hi r', r = '-' :: hi :: r'
    · obtain ⟨hi, r', rfl⟩ := hrange
      cases hdash hi r' rfl
      rw [readItems, if_neg (opens_iff.mpr hc), if_pos (by decide), ih]
      rfl
    · rw [readItems.eq_3 _ _ _ (fun hi r' heq => hrange ⟨hi, r', heq⟩), if_neg (opens_iff.mpr hc), ih]
      rfl

theorem readBracket_iff {p rest : List Char} {negated : Bool} {items : List ClassItem} :
    readBracket p = some (negated, items, rest) ↔ Bracket p negated items rest := by
  have hmark : ∀ {mark r}, isNegation mark = true →
      (Bracket (mark :: r) negated items rest ↔
        negated = true ∧ readItems true r = some (items, rest)) := by
    intro mark r hmark
    constructor
    · intro h
      cases h with
      | negated _ h => exact ⟨rfl, readItems_of_items h⟩
      | plain hplain => exact absurd hmark (by rw [hplain _ rfl]; exact Bool.false_ne_true)
    · rintro ⟨rfl, h⟩
      exact .negated hmark (items_of_readItems h)
  have hmap : ∀ {n : Bool} {r : List Char}, ((readItems true r).map (n, ·)) =
      some (negated, items, rest) ↔ negated = n ∧ readItems true r = some (items, rest) := by
    intro n r
    rw [Option.map_eq_some_iff]
    constructor
    · rintro ⟨e, he, heq⟩
      cases heq
      exact ⟨rfl, he⟩
    · rintro ⟨rfl, h⟩
      exact ⟨_, h, rfl⟩
  unfold readBracket
  split
  · rw [hmap, hmark rfl]
  · rw [hmap, hmark rfl]
  · next hbang hcaret =>
    have hplain : ∀ c ∈ p.head?, isNegation c = false := by
      intro c hc
      cases p with
      | nil => cases hc
      | cons d r =>
        cases hc
        have hne : c ≠ '!' ∧ c ≠ '^' := ⟨fun he => hbang r (he ▸ rfl), fun he => hcaret r (he ▸ rfl)⟩
        simp [isNegation, hne]
    rw [hmap]
    constructor
    · rintro ⟨rfl, h⟩
      exact .plain hplain (items_of_readItems h)
    · intro h
      cases h with
      | negated hnegation =>
        rw [hplain _ rfl] at hnegation
        cases hnegation
      | plain _ h => exact ⟨rfl, readItems_of_items h⟩

/-- The next element of the language: all but classes are read as the matcher does. -/
def languageRead (pattern : List Char) : Option (Element Char × List Char) :=
  match pattern with
  | '[' :: r =>
    match readBracket r with
    | some (negated, items, rest) => some (.one fun ch => items.any (·.has ch) != negated, rest)
    | none => some (.one fun ch => '[' == ch, r)
  | p => globRead p

theorem length_readItems {first : Bool} {p rest : List Char} {items : List ClassItem}
    (h : readItems first p = some (items, rest)) : rest.length ≤ p.length := by
  have hitems := items_of_readItems h
  clear h
  induction hitems with
  | close => exact Nat.le_succ _
  | range _ _ _ ih => exact ih.trans (by simp only [List.length_cons]; omega)
  | byte _ _ _ ih => exact ih.trans (Nat.le_succ _)

theorem length_readBracket {p rest : List Char} {negated : Bool} {items : List ClassItem}
    (h : readBracket p = some (negated, items, rest)) : rest.length ≤ p.length := by
  cases readBracket_iff.mp h with
  | negated _ h => exact (length_readItems (readItems_of_items h)).trans (Nat.le_succ _)
  | plain _ h => exact length_readItems (readItems_of_items h)

/-- How the language reads a pattern. -/
def languageReader : Reader (List Char) Char where
  read := languageRead
  finished p := p.all (· == '*')
  size := List.length
  size_lt := by
    intro p e r h
    unfold languageRead at h
    split at h
    · split at h
      · next hbracket =>
        cases h
        exact Nat.lt_succ_of_le (length_readBracket hbracket)
      · cases h
        exact Nat.lt_succ_self _
    · exact globReader.size_lt h
  finished_of_none := by
    intro p h
    unfold languageRead at h
    split at h
    · split at h
      all_goals cases h
    · exact globReader.finished_of_none h
  finished_of_star := by
    intro p r h
    unfold languageRead at h
    split at h
    · split at h
      all_goals cases h
    · exact globReader.finished_of_star h
  finished_of_one := by
    intro p r accepts h
    unfold languageRead at h
    split at h
    · rfl
    · exact globReader.finished_of_one h

theorem languageRead_eq {p : List Char} (h : ∀ r, p ≠ '[' :: r) : languageRead p = globRead p := by
  unfold languageRead
  split
  · exact absurd rfl (h _)
  · rfl

/-! ## 3. Classes that are closed -/

/-- A class at the head of the pattern is read as it is written: it is closed, and no `]` is
    the upper end of a range. -/
def classClosed : List Char → Bool
  | '[' :: r => (classEnd true (withoutNegation r)).isSome
  | _ => true

/-- Where the class is closed the loop reads the items of the language. -/
theorem classItems_of_classEnd {first : Bool} {p rest : List Char}
    (h : classEnd first p = some rest) : ∃ items, Items first p items rest ∧
      ∀ ch matched, classItems ch first p matched = (rest, matched || items.any (·.has ch)) := by
  fun_induction classEnd first p with
  | case1 => cases h
  | case2 first lo hi r hclose =>
    cases h
    simp only [Bool.and_eq_true, Bool.not_eq_eq_eq_not, Bool.not_true, beq_iff_eq] at hclose
    rcases hclose with ⟨rfl, rfl⟩
    exact ⟨[], .close, fun ch matched => by simp [classItems]⟩
  | case3 => cases h
  | case4 first lo hi r hopen hhi ih =>
    rcases ih h with ⟨items, hitems, hread⟩
    refine ⟨.range lo hi :: items, .range (opens_iff.mp hopen) (by simpa using hhi) hitems, fun ch matched => ?_⟩
    rw [classItems, if_neg hopen, hread, List.any_cons, Bool.or_assoc]
    rfl
  | case5 first c cs hshape hclose =>
    cases h
    simp only [Bool.and_eq_true, Bool.not_eq_eq_eq_not, Bool.not_true, beq_iff_eq] at hclose
    rcases hclose with ⟨rfl, rfl⟩
    exact ⟨[], .close, fun ch matched => by rw [classItems.eq_3 _ _ _ _ _ hshape]; simp⟩
  | case6 first c cs hshape hopen ih =>
    rcases ih h with ⟨items, hitems, hread⟩
    refine ⟨.byte c :: items, .byte (opens_iff.mp hopen)
      (fun hi r' hr => absurd hr (hshape hi r')) hitems, fun ch matched => ?_⟩
    rw [classItems.eq_3 _ _ _ _ _ hshape, if_neg hopen, hread, List.any_cons, Bool.or_assoc]
    rfl

/-- Where the class is closed `glob_match_char_class` reads the class of the language. -/
theorem bracket_of_classEnd {p rest : List Char}
    (h : classEnd true (withoutNegation p) = some rest) : ∃ negated items,
      Bracket p negated items rest ∧
        ∀ ch, globMatchCharClass p ch = (rest, items.any (·.has ch) != negated) := by
  unfold withoutNegation at h
  split at h
  · rcases classItems_of_classEnd h with ⟨items, hitems, hread⟩
    refine ⟨true, items, .negated rfl hitems, fun ch => ?_⟩
    rw [globMatchCharClass, hread]
    simp
  · rcases classItems_of_classEnd h with ⟨items, hitems, hread⟩
    refine ⟨true, items, .negated rfl hitems, fun ch => ?_⟩
    rw [globMatchCharClass, hread]
    simp
  · next hbang hcaret =>
    rcases classItems_of_classEnd h with ⟨items, hitems, hread⟩
    refine ⟨false, items, .plain ?_ hitems, fun ch => ?_⟩
    · intro c hc
      cases p with
      | nil => cases hc
      | cons d r =>
        cases hc
        have hc : c ≠ '!' ∧ c ≠ '^' := ⟨fun he => hbang r (he ▸ rfl), fun he => hcaret r (he ▸ rfl)⟩
        simp [isNegation, hc]
    · rw [globMatchCharClass.eq_3 _ _ hbang hcaret, hread]
      simp

/-- Where the class at the head of the pattern is closed the matcher takes the step of the
    language. -/
theorem step_eq_of_classClosed {p : List Char} (h : classClosed p = true) (ch : Char) :
    globReader.step p ch = languageReader.step p ch := by
  have hread : globReader.read p = languageReader.read p := by
    unfold classClosed at h
    split at h
    · next r =>
      obtain ⟨rest, hend⟩ := Option.isSome_iff_exists.mp h
      obtain ⟨negated, items, hclass, hmatch⟩ := bracket_of_classEnd hend
      have hglob : globReader.read ('[' :: r) =
          some (.one fun ch => items.any (·.has ch) != negated, rest) := by
        show some (Element.one fun ch => (globMatchCharClass r ch).2, classRest r) = _
        simp only [classRest, hmatch]
      rw [hglob]
      simp only [languageReader, languageRead, readBracket_iff.mpr hclass]
    · next hopen => exact (languageRead_eq fun r hr => hopen r hr).symm
  rw [Reader.step, Reader.step, hread]

/-! ## 4. Exactness -/

theorem inLanguage_star_iff {p name : List Char} :
    InLanguage ('*' :: p) name ↔ ∃ name', name' <:+ name ∧ InLanguage p name' := by
  constructor
  · intro h
    cases h with
    | star h => exact ⟨_, List.suffix_append _ _, h⟩
    | other hstar => exact absurd rfl hstar
  · rintro ⟨name', ⟨before, rfl⟩, h⟩
    exact .star h

/-- A class that is read as one: one byte of it and the rest. -/
theorem inLanguage_bracket_iff {p rest : List Char} {negated : Bool} {items : List ClassItem}
    (hclass : Bracket p negated items rest) {name : List Char} :
    InLanguage ('[' :: p) name ↔ ∃ ch name', name = ch :: name' ∧
      (items.any (·.has ch) != negated) = true ∧ InLanguage rest name' := by
  constructor
  · intro h
    cases h with
    | bracket hclass' hch h =>
      have heq := (readBracket_iff.mpr hclass).symm.trans (readBracket_iff.mpr hclass')
      cases heq
      exact ⟨_, _, rfl, hch, h⟩
    | other _ _ _ hopen => exact absurd hclass (hopen rfl _ _ _)
  · rintro ⟨ch, name', rfl, hch, h⟩
    exact .bracket hclass hch h

/-- A byte that stands for itself. -/
theorem inLanguage_byte_iff {c : Char} {p name : List Char} (hstar : c ≠ '*') (hany : c ≠ '?')
    (hlast : c = '\\' → p = [])
    (hopen : c = '[' → ∀ negated items rest, ¬ Bracket p negated items rest) :
    InLanguage (c :: p) name ↔
      ∃ ch name', name = ch :: name' ∧ (c == ch) = true ∧ InLanguage p name' := by
  constructor
  · intro h
    cases h with
    | star => exact absurd rfl hstar
    | any => exact absurd rfl hany
    | escaped => cases hlast rfl
    | bracket hclass => exact absurd hclass (hopen rfl _ _ _)
    | other _ _ _ _ h => exact ⟨_, _, rfl, beq_self_eq_true _, h⟩
  · rintro ⟨ch, name', rfl, hch, h⟩
    cases beq_iff_eq.mp hch
    exact .other hstar hany hlast hopen h

/-- One element and the rest, whatever the pattern it was read from. -/
theorem matches_one_iff_exists {accepts : Char → Bool} {es : List (Element Char)}
    {name : List Char} : Matches (.one accepts :: es) name ↔
      ∃ ch name', name = ch :: name' ∧ accepts ch = true ∧ Matches es name' := by
  constructor
  · intro h
    cases h with
    | one hch h => exact ⟨_, _, rfl, hch, h⟩
  · rintro ⟨ch, name', rfl, hch, h⟩
    exact .one hch h

/-- The names that the elements of the language stand for are those of the pattern. -/
theorem elements_iff_inLanguage (p name : List Char) :
    Matches (languageReader.elements p) name ↔ InLanguage p name := by
  induction hn : p.length using Nat.strong_induction_on generalizing p name with
  | _ n ih =>
    subst hn
    have hone : ∀ {accepts : Char → Bool} {r : List Char},
        languageReader.read p = some (.one accepts, r) →
        (Matches (languageReader.elements p) name ↔
          ∃ ch name', name = ch :: name' ∧ accepts ch = true ∧ InLanguage r name') := by
      intro accepts r hread
      rw [Reader.elements_of_some hread, matches_one_iff_exists]
      simp only [ih _ (languageReader.size_lt hread) r _ rfl]
    cases p with
    | nil =>
      rw [Reader.elements_of_none rfl, matches_nil_iff]
      constructor
      · rintro rfl
        exact .nil
      · intro h
        cases h
        rfl
    | cons c p =>
      by_cases hb : c = '['
      · subst hb
        cases hbracket : readBracket p with
        | some e =>
          obtain ⟨negated, items, rest⟩ := e
          rw [inLanguage_bracket_iff (readBracket_iff.mp hbracket)]
          refine hone ?_
          simp only [languageReader, languageRead, hbracket]
        | none =>
          have hread : languageReader.read ('[' :: p) = some (.one fun ch => '[' == ch, p) := by
            simp only [languageReader, languageRead, hbracket]
          rw [hone hread, inLanguage_byte_iff (by decide) (by decide)
            (fun h => absurd h (by decide)) (fun _ negated items rest h => ?_)]
          rw [readBracket_iff.mpr h] at hbracket
          cases hbracket
      have hglob : languageReader.read (c :: p) = globRead (c :: p) :=
        languageRead_eq fun r hr => hb (List.cons.inj hr).1
      by_cases hstar : c = '*'
      · subst hstar
        have hread : languageReader.read ('*' :: p) = some (.star, p) := hglob
        rw [Reader.elements_of_some hread, matches_star_iff_suffix, inLanguage_star_iff]
        simp only [ih _ (languageReader.size_lt hread) p _ rfl]
      by_cases hany : c = '?'
      · subst hany
        rw [hone hglob]
        constructor
        · rintro ⟨ch, name', rfl, -, h⟩
          exact .any h
        · intro h
          cases h with
          | any h => exact ⟨_, _, rfl, rfl, h⟩
          | other _ hne => exact absurd rfl hne
      by_cases hlast : c = '\\' → p = []
      · have hread : languageReader.read (c :: p) = some (.one fun ch => c == ch, p) := by
          rw [hglob, globRead.eq_6 _ _ hany hstar hb]
          intro c' r hc hp
          cases (hlast hc).symm.trans hp
        rw [hone hread, inLanguage_byte_iff hstar hany hlast (fun he => absurd he hb)]
      · obtain ⟨hback, hne⟩ := Classical.not_imp.mp hlast
        subst hback
        obtain ⟨d, r, rfl⟩ := List.exists_cons_of_ne_nil hne
        rw [hone hglob]
        constructor
        · rintro ⟨ch, name', rfl, hch, h⟩
          cases beq_iff_eq.mp hch
          exact .escaped h
        · intro h
          cases h with
          | escaped h => exact ⟨_, _, rfl, beq_self_eq_true _, h⟩
          | other _ _ hlast => cases hlast rfl

/-- **Glob matching is exact where every class that it tests is closed.** -/
theorem glob_match_exact (pattern name : List Char)
    (hclosed : ∀ p ∈ globTested pattern name, classClosed p = true) :
    globMatchInner pattern name = true ↔ InLanguage pattern name := by
  rw [@globMatchInner_iff_of_tested languageReader _ rfl (fun _ => rfl)
    (fun _ hp c => step_eq_of_classClosed hp c) pattern name hclosed]
  exact elements_iff_inLanguage pattern name

/-- The class of `*.[ch]` is tested and closed; that of `*.[ch-]` is not tested at all when
    the name has no point. -/
theorem glob_match_exact_of_source :
    (globMatchInner "*.[ch]".toList "ab.c".toList = true ↔
      InLanguage "*.[ch]".toList "ab.c".toList) ∧
    (globMatchInner "*.[ch-]".toList "README".toList = true ↔
      InLanguage "*.[ch-]".toList "README".toList) :=
  ⟨glob_match_exact _ _ (by decide), glob_match_exact _ _ (by decide)⟩

/-- `[a-]` has `a` and `-` for the language and nothing for the matcher. -/
theorem glob_class_with_last_dash :
    globMatchInner "[a-]".toList "a".toList = false ∧
      InLanguage "[a-]".toList "a".toList := by
  constructor
  · decide
  · have hitems : Items true "a-]".toList [.byte 'a', .byte '-'] [] := by
      refine .byte (.inl rfl) ?_ (.byte (.inr (by decide)) ?_ .close)
      · intro hi r' h
        cases h
        rfl
      · intro hi r' h
        cases h
    refine .bracket (.plain ?_ hitems) rfl .nil
    intro c hc
    cases hc
    rfl

end Wasmsh.Globs

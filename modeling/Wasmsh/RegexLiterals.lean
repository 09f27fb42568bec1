import Mathlib.Data.List.Infix
import Wasmsh.Library.CharBoundaries
import Wasmsh.Regex

/-!
# Patterns without metacharacters

`regex_match_with_captures` looks for a pattern without metacharacters as it is written.
The matcher that it would call otherwise takes a backslash away from the character after
it, so on such a pattern it looks for another text.
-/

namespace Wasmsh.Regex

variable {anchoredStart anchoredEnd : Bool}

/-! ## 1. What the matcher looks for -/

/-- The bytes for which `has_regex_metachar` looks. -/
def regexMetachars : List Char := ['.', '+', '*', '?', '[', '(', '|']

/-- The text without the backslashes that quote. -/
def unescape : List Char → List Char
  | '\\' :: c :: r => c :: unescape r
  | c :: r => c :: unescape r
  | [] => []

theorem not_metachar {core : List Char} (h : hasRegexMetachar core = false) :
    ∀ c ∈ core, c ∉ regexMetachars := by
  intro c hc hmeta
  have hcontains : ∀ m, core.contains m = false → c ≠ m := by
    rintro m hm rfl
    rw [List.contains_iff_mem.mpr hc] at hm
    cases hm
  simp only [hasRegexMetachar, Bool.or_eq_false_iff] at h
  rcases h with ⟨⟨⟨⟨⟨⟨h₁, h₂⟩, h₃⟩, h₄⟩, h₅⟩, h₆⟩, h₇⟩
  simp only [regexMetachars, List.mem_cons, List.not_mem_nil, or_false] at hmeta
  rcases hmeta with rfl | rfl | rfl | rfl | rfl | rfl | rfl
  · exact hcontains _ h₁ rfl
  · exact hcontains _ h₂ rfl
  · exact hcontains _ h₃ rfl
  · exact hcontains _ h₄ rfl
  · exact hcontains _ h₅ rfl
  · exact hcontains _ h₆ rfl
  · exact hcontains _ h₇ rfl

theorem not_metachar_encode {core : List Char} (h : ∀ c ∈ core, c ∉ regexMetachars) :
    ∀ b ∈ Utf8.encode core, b ∉ regexMetachars := by
  intro b hb hmeta
  have hascii : b.toNat < 0x80 := by
    simp only [regexMetachars, List.mem_cons, List.not_mem_nil, or_false] at hmeta
    rcases hmeta with rfl | rfl | rfl | rfl | rfl | rfl | rfl <;> decide
  exact h b (Utf8.mem_of_mem_encode hascii hb) hmeta

theorem parseQuantifier_of_not_metachar {r : List Char} (h : ∀ c ∈ r, c ∉ regexMetachars) :
    parseQuantifier r = (none, r) := by
  unfold parseQuantifier
  split
  · exact absurd (by decide) (h _ (.head _))
  · exact absurd (by decide) (h _ (.head _))
  · exact absurd (by decide) (h _ (.head _))
  · rfl

/-- The text begins with the word; what follows, if it may. -/
def afterWord (mustEnd : Bool) (w t : List Char) : Option (List Char × List Capture) :=
  if w.isPrefixOf t then (regexCheckEnd (t.drop w.length) mustEnd).map (·, []) else none

theorem afterWord_cons (mustEnd : Bool) (c : Char) (w t : List Char) :
    afterWord mustEnd (c :: w) t =
      regexMatchSingleElem (fun x => x == c) (afterWord mustEnd w) t := by
  cases t with
  | nil => rfl
  | cons x t =>
    unfold afterWord regexMatchSingleElem
    by_cases hx : x = c
    · subst hx
      simp
    · have hne : c ≠ x := fun h => hx h.symm
      simp [hne, hx]

theorem regexMatchElem_literal {β : Type} (next : List Char → List Char → Option β) {b c : Char}
    {r r' : List Char} (helem : parseRegexElem b r = (fun x => x == c, r'))
    (hr : ∀ c ∈ r', c ∉ regexMetachars) (t : List Char) :
    regexMatchElem next b r t = regexMatchSingleElem (fun x => x == c) (next r') t := by
  unfold regexMatchElem
  rw [helem]
  dsimp only
  rw [parseQuantifier_of_not_metachar hr]

/-- The matcher looks for the text without its backslashes. -/
theorem regexMatchCapturing_literal (mustEnd : Bool) (n : Nat) (pat t : List Char)
    (hn : pat.length ≤ n) (hpat : ∀ c ∈ pat, c ∉ regexMetachars) :
    regexMatchCapturing mustEnd n pat t = afterWord mustEnd (unescape pat) t := by
  fun_induction unescape pat generalizing n t with
  | case1 c r ih =>
    cases n with
    | zero => cases hn
    | succ n =>
      have hrest : ∀ d ∈ r, d ∉ regexMetachars := fun d hd => hpat d (.tail _ (.tail _ hd))
      rw [afterWord_cons]
      show regexMatchElem (regexMatchCapturing mustEnd n) '\\' (c :: r) t = _
      have hslash : parseRegexElem '\\' (c :: r) = (fun x => x == c, r) := rfl
      rw [regexMatchElem_literal _ hslash hrest]
      have hnext : regexMatchCapturing mustEnd n r = afterWord mustEnd (unescape r) :=
        funext fun t => ih n t (by simp only [List.length_cons] at hn; omega) hrest
      rw [hnext]
  | case2 c r hslash ih =>
    cases n with
    | zero => cases hn
    | succ n =>
      have hrest : ∀ d ∈ r, d ∉ regexMetachars := fun d hd => hpat d (.tail _ hd)
      have hc : ∀ m ∈ regexMetachars, c ≠ m := by
        rintro m hm rfl
        exact hpat c (.head _) hm
      have hstep : regexMatchCapturing mustEnd (n + 1) (c :: r) t =
          regexMatchElem (regexMatchCapturing mustEnd n) c r t := by
        rw [regexMatchCapturing.eq_4]
        rintro rfl
        exact hc '(' (by decide) rfl
      have helem : parseRegexElem c r = (fun x => x == c, r) := by
        unfold parseRegexElem
        split
        · exact absurd rfl (hc '.' (by decide))
        · exact absurd rfl (hc '[' (by decide))
        · next d r' => exact absurd rfl (hslash d r' rfl)
        · rfl
      rw [afterWord_cons, hstep, regexMatchElem_literal _ helem hrest]
      have hnext : regexMatchCapturing mustEnd n r = afterWord mustEnd (unescape r) :=
        funext fun t => ih n t (by simp only [List.length_cons] at hn; omega) hrest
      rw [hnext]
  | case3 =>
    cases n <;> simp [regexMatchCapturing, afterWord]

theorem unescape_append {w : List Char} (hw : ∀ c ∈ w, c ≠ '\\') (r : List Char) :
    unescape (w ++ r) = w ++ unescape r := by
  induction w with
  | nil => rfl
  | cons c w ih =>
    have hc : c ≠ '\\' := hw c (.head _)
    rw [List.cons_append, unescape.eq_2 _ _ fun _ _ h _ => hc h,
      ih fun d hd => hw d (.tail _ hd), List.cons_append]

theorem ne_backslash_of_mem_encodeChar {b c : Char} (hc : c ≠ '\\') (hb : b ∈ Utf8.encodeChar c) :
    b ≠ '\\' := by
  rintro rfl
  exact hc (Utf8.eq_of_mem_encodeChar (by decide) hb).symm

/-- Backslashes are taken away from the bytes as from the characters. -/
theorem unescape_encode (core : List Char) :
    unescape (Utf8.encode core) = Utf8.encode (unescape core) := by
  fun_induction unescape core with
  | case1 c r ih =>
    rw [Utf8.encode_cons, Utf8.encode_cons, Utf8.encode_cons,
      Utf8.encodeChar_of_ascii (show ('\\' : Char).toNat < 0x80 by decide), List.singleton_append]
    by_cases hc : c.toNat < 0x80
    · rw [Utf8.encodeChar_of_ascii hc, List.singleton_append, unescape.eq_1, ih,
        List.singleton_append]
    · have hhigh := Nat.le_of_not_lt hc
      obtain ⟨b, bs, heq, -, hall⟩ := Utf8.encodeChar_of_not_ascii hhigh
      rw [heq] at hall ⊢
      have hbs : ∀ d ∈ bs, d ≠ '\\' := by
        rintro d hd rfl
        exact absurd (hall _ (.tail _ hd)) (by decide)
      rw [List.cons_append, unescape.eq_1, unescape_append hbs, ih, List.cons_append]
  | case2 c r hslash ih =>
    by_cases hc : c = '\\'
    · subst hc
      cases r with
      | nil => rfl
      | cons d r => exact absurd rfl (hslash d r rfl)
    · rw [Utf8.encode_cons, Utf8.encode_cons,
        unescape_append fun b hb => ne_backslash_of_mem_encodeChar hc hb, ih]
  | case3 => rfl

/-! ## 2. Searching -/

/-- The word stands in the text where the anchors want it. -/
def Occurs (text w : List Char) (anchoredStart anchoredEnd : Bool) : Prop :=
  ∃ before after, text = before ++ (w ++ after) ∧
    (anchoredStart = true → before = []) ∧ (anchoredEnd = true → after = [])

theorem literal_value {text w : List Char} {captures : List (List Char)}
    (h : regexMatchLiteralWithCaptures text w anchoredStart anchoredEnd = some captures) :
    captures = [w] := by
  rw [regexMatchLiteralWithCaptures, Option.map_eq_some_iff] at h
  rcases h with ⟨range, hrange, rfl⟩
  cases anchoredStart with
  | true =>
    cases anchoredEnd with
    | true =>
      rw [literalMatchRange.eq_1] at hrange
      split at hrange
      · next heq =>
        cases hrange
        rw [heq, List.drop_zero, Nat.sub_zero, List.take_length]
      · cases hrange
    | false =>
      rw [literalMatchRange.eq_2] at hrange
      split at hrange
      · next hinit =>
        cases hrange
        obtain ⟨after, rfl⟩ := List.isPrefixOf_iff_prefix.mp hinit
        rw [List.drop_zero, Nat.sub_zero, List.take_left]
      · cases hrange
  | false =>
    cases anchoredEnd with
    | true =>
      rw [literalMatchRange.eq_3] at hrange
      split at hrange
      · next hsuffix =>
        cases hrange
        obtain ⟨before, rfl⟩ := List.isSuffixOf_iff_suffix.mp hsuffix
        have hlength : (before ++ w).length - w.length = before.length := by
          rw [List.length_append]
          omega
        dsimp only
        rw [hlength, List.drop_left, List.length_append, Nat.add_sub_cancel_left, List.take_length]
      · cases hrange
    | false =>
      rw [literalMatchRange.eq_4, Option.map_eq_some_iff] at hrange
      rcases hrange with ⟨pos, hpos, rfl⟩
      have hinit := List.find?_some hpos
      obtain ⟨after, hafter⟩ := List.isPrefixOf_iff_prefix.mp hinit
      dsimp only
      rw [Nat.add_sub_cancel_left, ← hafter, List.take_left]

/-- A pattern of literals is searched for as a text. -/
theorem regexMatchLiteral_iff (text core : List Char) (anchoredStart anchoredEnd : Bool) :
    (regexMatchLiteralWithCaptures text core anchoredStart anchoredEnd).isSome = true ↔
      ∃ before after, text = before ++ (core ++ after) ∧
        (anchoredStart = true → before = []) ∧ (anchoredEnd = true → after = []) := by
  rw [regexMatchLiteralWithCaptures, Option.isSome_map]
  cases anchoredStart with
  | true =>
    cases anchoredEnd with
    | true =>
      rw [literalMatchRange.eq_1]
      constructor
      · intro h
        split at h
        · next heq => exact ⟨[], [], by simpa using heq, fun _ => rfl, fun _ => rfl⟩
        · cases h
      · rintro ⟨before, after, rfl, hstart, hend⟩
        rw [hstart rfl, hend rfl, if_pos (by simp)]
        rfl
    | false =>
      rw [literalMatchRange.eq_2]
      constructor
      · intro h
        split at h
        · next hinit =>
          obtain ⟨after, rfl⟩ := List.isPrefixOf_iff_prefix.mp hinit
          exact ⟨[], after, rfl, fun _ => rfl, fun h => absurd h Bool.false_ne_true⟩
        · cases h
      · rintro ⟨before, after, rfl, hstart, -⟩
        rw [hstart rfl, List.nil_append, if_pos (List.isPrefixOf_iff_prefix.mpr ⟨after, rfl⟩)]
        rfl
  | false =>
    cases anchoredEnd with
    | true =>
      rw [literalMatchRange.eq_3]
      constructor
      · intro h
        split at h
        · next hsuffix =>
          obtain ⟨before, rfl⟩ := List.isSuffixOf_iff_suffix.mp hsuffix
          exact ⟨before, [], by rw [List.append_nil], fun h => absurd h Bool.false_ne_true, fun _ => rfl⟩
        · cases h
      · rintro ⟨before, after, rfl, -, hend⟩
        rw [hend rfl, if_pos (List.isSuffixOf_iff_suffix.mpr ⟨before, by rw [List.append_nil]⟩)]
        rfl
    | false =>
      rw [literalMatchRange.eq_4, Option.isSome_map, List.find?_isSome]
      constructor
      · rintro ⟨pos, -, hinit⟩
        obtain ⟨after, hafter⟩ := List.isPrefixOf_iff_prefix.mp hinit
        exact ⟨text.take pos, after, by rw [hafter, List.take_append_drop], fun h => absurd h Bool.false_ne_true,
          fun h => absurd h Bool.false_ne_true⟩
      · rintro ⟨before, after, rfl, -, -⟩
        refine ⟨before.length, ?_, ?_⟩
        · rw [List.mem_range, List.length_append]
          omega
        · rw [List.drop_left]
          exact List.isPrefixOf_iff_prefix.mpr ⟨after, rfl⟩

/-- The literal path finds the word where it stands. -/
theorem regexMatchLiteral_of_occurs {text w : List Char}
    (h : Occurs text w anchoredStart anchoredEnd) :
    regexMatchLiteralWithCaptures text w anchoredStart anchoredEnd = some [w] := by
  rcases Option.isSome_iff_exists.mp
    ((regexMatchLiteral_iff text w anchoredStart anchoredEnd).mpr h) with ⟨captures, hcaptures⟩
  rw [hcaptures, literal_value hcaptures]

theorem regexMatchLiteral_of_not_occurs {text w : List Char}
    (h : ¬ Occurs text w anchoredStart anchoredEnd) :
    regexMatchLiteralWithCaptures text w anchoredStart anchoredEnd = none := by
  rw [← Option.not_isSome_iff_eq_none]
  intro hsome
  exact h ((regexMatchLiteral_iff text w anchoredStart anchoredEnd).mp hsome)

/-- Where the matcher starts. -/
def searchStarts (text : List Char) (anchoredStart : Bool) : List (List Char) :=
  if anchoredStart then [text] else text.tails

theorem mem_searchStarts {text v : List Char} {anchoredStart : Bool}
    (h : v ∈ searchStarts text anchoredStart) :
    v <:+ text ∧ (anchoredStart = true → v = text) := by
  cases anchoredStart with
  | true =>
    rw [List.mem_singleton.mp h]
    exact ⟨List.suffix_refl _, fun _ => rfl⟩
  | false => exact ⟨(List.mem_tails _ _).mp h, fun h => absurd h Bool.false_ne_true⟩

theorem afterWord_eq_some {mustEnd : Bool} {w t : List Char}
    {found : List Char × List Capture} (h : afterWord mustEnd w t = some found) :
    ∃ rest, t = w ++ rest ∧ (mustEnd = true → rest = []) ∧ found = (rest, []) := by
  unfold afterWord at h
  split at h
  · next hinit =>
    obtain ⟨rest, rfl⟩ := List.isPrefixOf_iff_prefix.mp hinit
    rw [List.drop_left, Option.map_eq_some_iff] at h
    rcases h with ⟨stop, hstop, rfl⟩
    unfold regexCheckEnd at hstop
    split at hstop
    · cases hstop
    · next hend =>
      cases hstop
      refine ⟨rest, rfl, fun hmust => ?_, rfl⟩
      simpa [hmust] using hend
  · cases h

theorem afterWord_append {mustEnd : Bool} {rest : List Char} (h : mustEnd = true → rest = [])
    (w : List Char) : afterWord mustEnd w (w ++ rest) = some (rest, []) := by
  have hend : regexCheckEnd rest mustEnd = some rest := by
    cases mustEnd with
    | true =>
      rw [h rfl]
      rfl
    | false => rfl
  rw [afterWord, if_pos (List.isPrefixOf_iff_prefix.mpr (List.prefix_append _ _)), List.drop_left,
    hend]
  rfl

/-- The empty word is found in the first place, or at the end. -/
theorem boundary_of_empty {text start stop : List Char} {caps : List Capture}
    (h : (searchStarts (Utf8.encode text) anchoredStart).findSome? (fun start =>
      (afterWord anchoredEnd [] start).map fun found => (start, found)) =
        some (start, stop, caps)) : Utf8.isCharBoundary start = true := by
  cases anchoredEnd with
  | true =>
    rcases List.exists_of_findSome?_eq_some h with ⟨v, -, hmap⟩
    rcases Option.map_eq_some_iff.mp hmap with ⟨found, hfound, hpair⟩
    cases hpair
    rcases afterWord_eq_some hfound with ⟨rest, rfl, hend, -⟩
    rw [hend rfl]
    rfl
  | false =>
    have hfirst : ∃ starts, searchStarts (Utf8.encode text) anchoredStart =
        Utf8.encode text :: starts := by
      cases anchoredStart with
      | true => exact ⟨[], rfl⟩
      | false =>
        show ∃ starts, (Utf8.encode text).tails = Utf8.encode text :: starts
        cases Utf8.encode text with
        | nil => exact ⟨[], rfl⟩
        | cons b bs => exact ⟨bs.tails, List.tails_cons b bs⟩
    rcases hfirst with ⟨starts, hstarts⟩
    have hone : afterWord false [] (Utf8.encode text) = some (Utf8.encode text, []) :=
      afterWord_append (fun h => absurd h Bool.false_ne_true) []
    rw [hstarts, List.findSome?_cons, hone] at h
    cases h
    exact Utf8.isCharBoundary_encode text

/-- **The matcher without metacharacters** looks for the text without its backslashes. -/
theorem regexFindFirstMatch_literal {core : List Char} (hcore : hasRegexMetachar core = false)
    (text : List Char) (anchoredStart anchoredEnd : Bool) :
    regexFindFirstMatch (Utf8.encode text) (Utf8.encode core) anchoredStart anchoredEnd =
      some (regexMatchLiteralWithCaptures text (unescape core) anchoredStart anchoredEnd) := by
  have hcapturing : ∀ t, regexMatchCapturing anchoredEnd (Utf8.encode core).length
      (Utf8.encode core) t = afterWord anchoredEnd (Utf8.encode (unescape core)) t := by
    intro t
    rw [regexMatchCapturing_literal _ _ _ _ (le_refl _) (not_metachar_encode (not_metachar hcore)),
      unescape_encode]
  have hstarts : (if anchoredStart then [Utf8.encode text] else (Utf8.encode text).tails) =
    searchStarts (Utf8.encode text) anchoredStart := rfl
  unfold regexFindFirstMatch
  simp only [hcapturing, hstarts]
  split
  · next hnone =>
    rw [regexMatchLiteral_of_not_occurs]
    rintro ⟨before, after, rfl, hstart, hend⟩
    have hmem : Utf8.encode (unescape core ++ after) ∈
        searchStarts (Utf8.encode (before ++ (unescape core ++ after))) anchoredStart := by
      cases anchoredStart with
      | true =>
        rw [hstart rfl]
        exact List.mem_singleton.mpr rfl
      | false =>
        rw [Utf8.encode_append before]
        exact (List.mem_tails _ _).mpr (List.suffix_append _ _)
    have hend' : anchoredEnd = true → Utf8.encode after = [] := fun h => by
      rw [hend h]
      rfl
    have hfound := List.findSome?_eq_none_iff.mp hnone _ hmem
    rw [Utf8.encode_append, afterWord_append hend'] at hfound
    cases hfound
  · next start stop groupCaps hsome =>
    rcases List.exists_of_findSome?_eq_some hsome with ⟨v, hv, hmap⟩
    rcases Option.map_eq_some_iff.mp hmap with ⟨found, hfound, hpair⟩
    cases hpair
    rcases afterWord_eq_some hfound with ⟨rest, rfl, hend, hpair⟩
    cases hpair
    rcases mem_searchStarts hv with ⟨hsuffix, hstart⟩
    -- the place where the match starts is not inside a character
    have hplace : Utf8.isCharBoundary (Utf8.encode (unescape core) ++ stop) = true := by
      by_cases hne : unescape core = []
      · rw [hne, Utf8.encode_nil] at hsome ⊢
        exact boundary_of_empty hsome
      · exact Utf8.isCharBoundary_of_prefix hne (List.prefix_append _ _)
    rcases Utf8.exists_encode_of_boundary hsuffix hplace with ⟨s, ⟨before, rfl⟩, hs⟩
    rcases Utf8.exists_of_encode_eq_append hs.symm with ⟨after, rfl, rfl⟩
    have hoccurs : Occurs (before ++ (unescape core ++ after)) (unescape core) anchoredStart
        anchoredEnd := by
      refine ⟨before, after, rfl, fun h => ?_, fun h => ?_⟩
      · have heq := hstart h
        rw [← Utf8.encode_append] at heq
        have := Utf8.encode_injective heq
        exact List.append_left_eq_self.mp this.symm
      · exact Utf8.encode_injective (hend h)
    rw [regexMatchLiteral_of_occurs hoccurs]
    rw [regexBuildCaptureList, List.mapM_cons, ← Utf8.encode_append, Utf8.slice_encode]
    rfl

/-! ## 3. The two paths -/

/-- A backslash stands before another character. -/
def Escapes (core : List Char) : Prop := ∃ before c after, core = before ++ '\\' :: c :: after

theorem length_unescape_le (core : List Char) : (unescape core).length ≤ core.length := by
  fun_induction unescape core with
  | case1 c r ih => simp only [List.length_cons]; omega
  | case2 c r _ ih => simp only [List.length_cons]; omega
  | case3 => exact le_refl _

/-- Only such a backslash is taken away. -/
theorem unescape_eq_iff (core : List Char) : unescape core = core ↔ ¬ Escapes core := by
  fun_induction unescape core with
  | case1 c r ih =>
    have hle := length_unescape_le r
    constructor
    · intro h
      have hlength := congrArg List.length h
      simp only [List.length_cons] at hlength
      omega
    · intro h
      exact absurd ⟨[], c, r, rfl⟩ h
  | case2 c r hslash ih =>
    rw [List.cons.injEq, eq_self, true_and, ih]
    constructor
    · rintro h ⟨before, d, after, heq⟩
      cases before with
      | nil =>
        cases heq
        exact hslash d after rfl rfl
      | cons b before =>
        cases heq
        exact h ⟨before, d, after, rfl⟩
    · rintro h ⟨before, d, after, rfl⟩
      exact h ⟨c :: before, d, after, rfl⟩
  | case3 =>
    constructor
    · rintro - ⟨before, d, after, heq⟩
      cases before <;> cases heq
    · intro _
      rfl

/-- **When the literal path agrees with the matcher.**  For every text and every pattern whose
    core has no metacharacter: exactly when the core has no backslash before another
    character, or the text has, where the anchors want it, neither the core nor the core
    without these backslashes. -/
theorem literal_path_agrees_iff (text pattern : List Char)
    (hcore : hasRegexMetachar (regexStripAnchors pattern).1 = false) :
    regexFindFirstMatch (Utf8.encode text) (Utf8.encode (regexStripAnchors pattern).1)
        (regexStripAnchors pattern).2.1 (regexStripAnchors pattern).2.2 =
      some (regexMatchLiteralWithCaptures text (regexStripAnchors pattern).1
        (regexStripAnchors pattern).2.1 (regexStripAnchors pattern).2.2) ↔
    ¬ Escapes (regexStripAnchors pattern).1 ∨
      (¬ Occurs text (regexStripAnchors pattern).1 (regexStripAnchors pattern).2.1
          (regexStripAnchors pattern).2.2 ∧
        ¬ Occurs text (unescape (regexStripAnchors pattern).1) (regexStripAnchors pattern).2.1
          (regexStripAnchors pattern).2.2) := by
  rw [regexFindFirstMatch_literal hcore, ← unescape_eq_iff]
  generalize (regexStripAnchors pattern).1 = core
  generalize (regexStripAnchors pattern).2.1 = anchoredStart
  generalize (regexStripAnchors pattern).2.2 = anchoredEnd
  constructor
  · intro h
    by_cases hplain : unescape core = core
    · exact .inl hplain
    right
    have hsame := Option.some.inj h
    constructor
    · intro hoccurs
      rw [regexMatchLiteral_of_occurs hoccurs] at hsame
      have hvalue := literal_value hsame
      exact hplain (List.cons.inj hvalue).1.symm
    · intro hoccurs
      rw [regexMatchLiteral_of_occurs hoccurs] at hsame
      have hvalue := literal_value hsame.symm
      exact hplain (List.cons.inj hvalue).1
  · rintro (hplain | ⟨hcore, hunescaped⟩)
    · rw [hplain]
    · rw [regexMatchLiteral_of_not_occurs hcore, regexMatchLiteral_of_not_occurs hunescaped]

/-- `^ab$` and `ab`. -/
theorem literal_path_agrees_on_ab :
    regexFindFirstMatch (Utf8.encode "ab".toList) (Utf8.encode "ab".toList) true true =
      some (regexMatchLiteralWithCaptures "ab".toList "ab".toList true true) :=
  (literal_path_agrees_iff "ab".toList "^ab$".toList (by decide)).mpr
    (.inl ((unescape_eq_iff _).mp (by decide)))

/-- `a\$` is looked for with its backslash. -/
theorem literal_path_with_backslash :
    hasRegexMetachar (regexStripAnchors ['a', '\\', '$']).1 = false ∧
      regexMatchWithCaptures ['a', '$'] ['a', '\\', '$'] = some none ∧
      regexFindFirstMatch (Utf8.encode ['a', '$'])
        (Utf8.encode (regexStripAnchors ['a', '\\', '$']).1)
        (regexStripAnchors ['a', '\\', '$']).2.1 (regexStripAnchors ['a', '\\', '$']).2.2 =
          some (some [['a', '$']]) := by
  decide

end Wasmsh.Regex

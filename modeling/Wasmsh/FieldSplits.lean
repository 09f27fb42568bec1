import Wasmsh.ForLists
import Wasmsh.Library.FieldSplitting

/-!
# Field splitting

A `for` list splits the value of an unquoted expansion at the characters of `IFS` and joins the
outer pieces to the text around the expansion.  POSIX has two kinds of separators, and a
separator at the edge of the value parts it from that text.  `split_for_word_iff` says for
which values, with which text around them, the two are the same.
-/

namespace Wasmsh.Expand

open Globs Interp FieldSplitting

/-! ## 1. The fields that are prescribed -/

/-- IFS white space. -/
def isIfsBlank (c : Char) : Bool := c == ' ' || c == '\t' || c == '\n'

/-- The fields of a literal text, an unquoted expansion with the value `t`, and a literal
    text. -/
def posixFields (ifs pre t post : List Char) : List (List Char) :=
  fields (ifs.contains ·) isIfsBlank .fresh (literal pre ++ (expansion t ++ literal post))

example : posixFields [' ', ':'] [] ":a : b::c ".toList ['d'] =
    [[], ['a'], ['b'], [], ['c'], ['d']] := by
  decide

/-! ## 2. The fields of a `for` list -/

theorem splitsInto_ifsPieces (ifs t : List Char) : splitsInto ifs t (ifsPieces ifs t) = true := by
  unfold splitsInto
  by_cases hifs : ifs.isEmpty = true
  · have hnone : t.any (ifs.contains ·) = false := by simp [List.isEmpty_iff.mp hifs]
    rw [if_pos hifs, ifsPieces_whole hnone]
    cases t with
    | nil => rfl
    | cons c t => simp
  · rw [if_neg hifs, beq_self_eq_true]

/-- The end of a field, and the next one. -/
def pushElement (f : ForFields) (e : List Char) : ForFields :=
  { f with current := e, out := f.out ++ [f.current] }

/-- A literal text behind the fields. -/
def appendText (f : ForFields) (t : List Char) : ForFields := { f with current := f.current ++ t }

/-- The field that is open, with the elements and a literal text behind it. -/
theorem forFieldTexts_foldl {pieces : List (List Char)} (hpieces : ∀ e ∈ pieces, e ≠ [])
    (e post : List Char) (out : List (List Char)) (he : pieces ≠ [] → e ≠ []) :
    forFieldTexts (appendText (pieces.foldl pushElement ⟨e, out, false⟩) post) =
      out ++ joinPieces [] (e :: pieces) post := by
  induction pieces generalizing e out with
  | nil =>
    by_cases hnil : e ++ post = []
    · simp [forFieldTexts, appendText, joinPieces, glue, hnil]
    · simp [forFieldTexts, appendText, joinPieces, glue, hnil]
  | cons e' pieces ih =>
    have hrest := ih (fun p hp => hpieces p (.tail _ hp)) e' (out ++ [e])
      fun _ => hpieces e' (.head _)
    have he := he (List.cons_ne_nil _ _)
    have hjoin : joinPieces [] (e :: e' :: pieces) post = e :: joinPieces [] (e' :: pieces) post := by
      rw [joinPieces, glue, List.nil_append, filter_ne_cons he, joinPieces]
    rw [hjoin]
    calc
      _ = (out ++ [e]) ++ joinPieces [] (e' :: pieces) post := hrest
      _ = _ := by rw [List.append_assoc, List.singleton_append]

/-- The pieces of an expansion, joined to the text around it. -/
theorem forFieldTexts_splitUnquoted (ifs pre t post : List Char) :
    forFieldTexts (appendText (splitUnquoted ifs t ⟨pre, [], false⟩) post) =
      joinPieces pre (ifsPieces ifs t) post := by
  obtain ⟨hsplit, hpieces⟩ := splitUnquoted_into (splitsInto_ifsPieces ifs t) ⟨pre, [], false⟩
  rw [hsplit]
  cases hp : ifsPieces ifs t with
  | nil =>
    by_cases hnil : pre ++ post = []
    · simp [pushElements, forFieldTexts, appendText, joinPieces, glue, hnil]
    · simp [pushElements, forFieldTexts, appendText, joinPieces, glue, hnil]
  | cons e es =>
    rw [hp] at hpieces
    have hglue : joinPieces pre (e :: es) post = joinPieces [] ((pre ++ e) :: es) post := by
      cases es <;> simp [joinPieces, glue]
    rw [hglue]
    refine forFieldTexts_foldl (fun p hp => hpieces p (.tail _ hp)) (pre ++ e) post [] fun _ => ?_
    simp [hpieces e (.head _)]

/-! ## 3. Words -/

variable {W P : Type} (h : Host W P) (x : Expander) (r : Recs W P)

/-- What `split_for_parts` splits of the value: a tilde at the start of a parameter's value or
    a number is expanded. -/
def splitText (p : WordPart) (value : List Char) (s : ShellState) : List Char :=
  match p with
  | .commandSubstitution _ => value
  | _ => expandTildeText value s

/-- An unquoted expansion, its value and the state behind it. -/
inductive HasValue : WordPart → Runtime W → List Char → Runtime W → Prop
  | parameter {name : List Char} {s s' : Runtime W}
    (hops : s.applyOps (x.expandParameter 0 name s.state).1 = .ok s') :
    HasValue (.parameter name) s (x.expandParameter 0 name s.state).2 s'
  | arithmetic {e : List Char} {s s' : Runtime W}
    (hops : s.applyOps (x.evalArithmetic e s.state).1 = .ok s') :
    HasValue (.arithmetic e) s (toString (x.evalArithmetic e s.state).2).toList s'
  | substitution {inner t : List Char} {s s' : Runtime W}
    (hrun : executeSubst h r inner s = .ok (t, s')) :
    HasValue (.commandSubstitution inner) s t s'

/-- The value of the expansion gives the fields that are prescribed. -/
structure SplitsAsPosix (ifs pre t split post : List Char) : Prop where
  /-- Blanks are not all that stands between two separators that are no blanks. -/
  no_double : ¬ Doubles (ifs.contains ·) isIfsBlank t
  /-- Where no text stands before the value, its first separator behind blanks is none of
      these. -/
  no_lead : pre = [] → ¬ Leads (ifs.contains ·) isIfsBlank t
  /-- No separator parts the value from the text around it. -/
  apart : Apart (ifs.contains ·) pre t post
  /-- What is split has the pieces of the value. -/
  pieces : ifsPieces ifs split = ifsPieces ifs t

theorem splitsAsPosix_iff {ifs pre t split post : List Char} :
    joinPieces pre (ifsPieces ifs split) post = posixFields ifs pre t post ↔
      SplitsAsPosix ifs pre t split post := by
  rw [posixFields, fields_eq_joinPieces_iff isIfsBlank fun z hz => ne_nil_of_mem_ifsPieces hz]
  constructor
  · rintro ⟨⟨hdouble, hlead⟩, hapart, hpieces⟩
    exact ⟨hdouble, hlead, hapart, hpieces⟩
  · rintro ⟨hdouble, hlead, hapart, hpieces⟩
    exact ⟨⟨hdouble, hlead⟩, hapart, hpieces⟩

variable {h x r} {files : W → Files} {depth : Nat}

/-- A part is run, and then what it makes of the fields is written. -/
theorem splitForPart_of {h : Host W P} {ifs out : List Char} {p : WordPart} {f : ForFields}
    {s u u' : Runtime W} (hout : substOutput h r p s = .ok (out, u))
    (hops : u.applyOps (h.splitForPart ifs false p out f u.state).1 = .ok u') :
    splitForPart h r ifs false p f s =
      .ok ((h.splitForPart ifs false p out f u.state).2, u') := by
  rw [splitForPart, hout]
  change (u.applyOps (h.splitForPart ifs false p out f u.state).1).bind _ = _
  rw [hops]
  rfl

theorem splitForPart_literal (ifs t : List Char) (f : ForFields) (s : Runtime W) :
    splitForPart (h.shell x files depth) r ifs false (.literal t) f s =
      .ok (appendText f t, s) :=
  splitForPart_of rfl s.applyOps_nil

/-- The value of one part, with its tilde expanded. -/
theorem splitUnquotedPart_expanded {p : WordPart} (hp : ∀ f s, splitUnquotedPart x ifs p [] f s =
      ((expandWord x ⟨[p]⟩ s).1, splitUnquoted ifs (expandWord x ⟨[p]⟩ s).2 f))
    (hsplit : ∀ t s, splitText p t s = expandTildeText t s) (hout : ∀ s : Runtime W,
      substOutput (h.shell x files depth) r p s = .ok ([], s)) {f : ForFields}
    {s s' : Runtime W} (hops : s.applyOps (expandPart x p s.state).1 = .ok s') :
    splitForPart (h.shell x files depth) r ifs false p f s =
      .ok (splitUnquoted ifs (splitText p (expandPart x p s.state).2 s'.state) f, s') := by
  have hafter := ShellState.after_of_some (Runtime.applyOps_ok hops).1
  have hword : expandWord x ⟨[p]⟩ s.state = ((expandPart x p s.state).1,
      splitText p (expandPart x p s.state).2 s'.state) := by
    rw [hsplit, ← hafter]
    simp [expandWord, expandParts]
  have hstep : (h.shell x files depth).splitForPart ifs false p [] f s.state =
      ((expandPart x p s.state).1,
        splitUnquoted ifs (splitText p (expandPart x p s.state).2 s'.state) f) := by
    change splitUnquotedPart x ifs p [] f s.state = _
    rw [hp, hword]
  have hrun := @splitForPart_of _ _ r _ _ _ _ f _ _ _ (hout s) (by rw [hstep]; exact hops)
  rw [hstep] at hrun
  exact hrun

theorem splitForPart_value {p : WordPart} {s s' : Runtime W} {t : List Char}
    (hvalue : HasValue (h.shell x files depth) x r p s t s') (ifs : List Char) (f : ForFields) :
    splitForPart (h.shell x files depth) r ifs false p f s =
      .ok (splitUnquoted ifs (splitText p t s'.state) f, s') := by
  cases hvalue with
  | parameter hops | arithmetic hops =>
    exact splitUnquotedPart_expanded (fun _ _ => rfl) (fun _ _ => rfl) (fun _ => rfl) hops
  | substitution hrun => exact splitForPart_of hrun (Runtime.applyOps_nil _)

/-- The word is split at the value, and the text around it is joined. -/
theorem splitForWord_value {p : WordPart} {s s' : Runtime W} {t : List Char}
    (hvalue : HasValue (h.shell x files depth) x r p s t s') (pre post : List Char) :
    splitForWord (h.shell x files depth) r ⟨[.literal pre, p, .literal post]⟩ s =
      .ok (joinPieces pre (ifsPieces (ifsOf s.state) (splitText p t s'.state)) post, s') := by
  have hparts : ∀ q : WordPart, (∀ qs, q ≠ .doubleQuoted qs) → ∀ ps f u g u',
      splitForPart (h.shell x files depth) r (ifsOf s.state) false q f u = .ok (g, u') →
        splitForParts (h.shell x files depth) r (ifsOf s.state) (q :: ps) f u =
          splitForParts (h.shell x files depth) r (ifsOf s.state) ps g u' := by
    intro q hq ps f u g u' hstep
    cases q with
    | doubleQuoted qs => exact absurd rfl (hq qs)
    | _ =>
      rw [splitForParts, hstep]
      · rfl
      · simp
  have hnot : ∀ qs, p ≠ .doubleQuoted qs := by
    rintro qs rfl
    cases hvalue
  rw [splitForWord, hparts _ (by simp) _ _ _ _ _ (splitForPart_literal _ _ _ _),
    hparts _ hnot _ _ _ _ _ (splitForPart_value hvalue _ _),
    hparts _ (by simp) _ _ _ _ _ (splitForPart_literal _ _ _ _), ← forFieldTexts_splitUnquoted]
  rfl

/-- **Field splitting**: whatever `IFS` is, for every expansion with a value and every text
    around it, the fields of the word are the prescribed ones exactly where the separators of
    the value allow it. -/
theorem split_for_word_iff {p : WordPart} {s s' : Runtime W} {t : List Char}
    (hvalue : HasValue (h.shell x files depth) x r p s t s') (pre post : List Char) :
    splitForWord (h.shell x files depth) r ⟨[.literal pre, p, .literal post]⟩ s =
        .ok (posixFields (ifsOf s.state) pre t post, s') ↔
      SplitsAsPosix (ifsOf s.state) pre t (splitText p t s'.state) post := by
  rw [splitForWord_value hvalue, ← splitsAsPosix_iff]
  constructor
  · intro heq
    injection heq with heq
    exact congrArg Prod.fst heq
  · intro heq
    rw [heq]

/-- `for w in a$x`, with `b c` in `x`. -/
theorem split_for_word_inner :
    let s := Runtime.bareWith "x" (.ofScalar "b c")
    splitForWord bareShell outOfFuel ⟨[.literal ['a'], .parameter ['x'], .literal []]⟩ s =
      .ok (posixFields (ifsOf s.state) ['a'] ['b', ' ', 'c'] [], s) := by
  have hifs : ifsOf (Runtime.bareWith "x" (.ofScalar "b c")).state = [' ', '\t', '\n'] := rfl
  refine (@split_for_word_iff _ _ _ _ _ (fun _ => noFiles) _ _ _ _ _ (.parameter rfl) ['a'] []).mpr
    ⟨?_, by simp, ⟨.inr (.inl ?_), .inl rfl⟩, ?_⟩
  · change ¬ Doubles _ _ ['b', ' ', 'c']
    rw [hifs]
    simp [doubles_cons, leads_cons, not_doubles_nil, isHard, isIfsBlank]
  · rintro c ⟨⟩
    decide
  · decide

/-- `for w in a$x`, with a blank before the value. -/
theorem separator_before_value_is_lost : ¬ ∀ (pre post : List Char) (value : String),
    let s := Runtime.bareWith "x" (.ofScalar value)
    splitForWord bareShell outOfFuel ⟨[.literal pre, .parameter ['x'], .literal post]⟩ s =
      .ok (posixFields (ifsOf s.state) pre value.toList post, s) := by
  intro hall
  have h := hall ['a'] [] " b"
  have hrun : splitForWord bareShell outOfFuel
      ⟨[.literal ['a'], .parameter ['x'], .literal []]⟩ (.bareWith "x" (.ofScalar " b")) =
      .ok ([['a', 'b']], .bareWith "x" (.ofScalar " b")) := rfl
  have hfields : posixFields (ifsOf (Runtime.bareWith "x" (.ofScalar " b")).state) ['a']
      [' ', 'b'] [] = [['a'], ['b']] := by decide
  change _ = Except.ok (posixFields _ ['a'] [' ', 'b'] [], _) at h
  rw [hrun, hfields] at h
  injection h with h
  injection h with h
  exact absurd h (by decide)

end Wasmsh.Expand

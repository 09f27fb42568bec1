import Wasmsh.Arithmetic
import Wasmsh.GlobMatchers
import Wasmsh.OperandDepth

/-!
# The forms of `${...}`

`expand_parameter` of `wasmsh-expand/src/lib.rs` tries one form after another on the text
between the braces: a subscript, a length, an indirection, a change of case, a
transformation, a substitution, a substring, and only then the operators of `Operands`.

The source works on bytes and cuts texts at byte offsets; a cut inside a character panics,
and so does a sum of offsets outside `i64`.
-/

namespace Wasmsh.Params

open Expand Globs Operands
open Utf8 (size)

/-- What the forms call and do not contain: `expand_string` of a subscript, an arithmetic
    expression, and the case tables of the standard library. -/
structure Rules where
  expandIndex : Operands.Effect
  evalArithmetic : List Char → ShellState → Option (List StateOp × Int)
  toUppercase : List Char → List Char
  toLowercase : List Char → List Char
  charToUppercase : Char → List Char
  charToLowercase : Char → List Char

/-- `is_valid_identifier`. -/
def isValidIdentifier (name : List Char) : Bool := !name.isEmpty && name.all isNameByte

/-- `join(" ")`. -/
def joinWords (values : List String) : List Char := [' '].intercalate (values.map String.toList)

/-! ## 1. Subscripts -/

/-- `get_array_length`. -/
def getArrayLength (s : ShellState) (name : String) : Nat := (s.getArrayValues name).length

/-- `strip_array_glob_suffix`. -/
def stripArrayGlobSuffix (t : List Char) : Option (List Char) :=
  if (['[', '@', ']'].isSuffixOf t || ['[', '*', ']'].isSuffixOf t) && t.length ≠ 3 then
    some (t.take (t.length - 3))
  else none

/-- `try_expand_array_length_or_keys`. -/
def tryExpandArrayLengthOrKeys (name : List Char) (s : ShellState) : Option (List Char) :=
  match name with
  | '#' :: rest => (stripArrayGlobSuffix rest).map fun base =>
    (toString (getArrayLength s (String.ofList base))).toList
  | '!' :: rest => (stripArrayGlobSuffix rest).map fun base =>
    joinWords (s.getArrayKeys (String.ofList base))
  | _ => none

/-- The text before the first `[`, the text up to the next `]`, and the text after that. -/
def subscript (name : List Char) : Option (List Char × List Char × List Char) :=
  let rest := (name.dropWhile (· != '[')).drop 1
  if name.contains '[' && rest.contains ']' then
    some (name.takeWhile (· != '['), rest.takeWhile (· != ']'), (rest.dropWhile (· != ']')).drop 1)
  else none

/-- `try_expand_array_slice`. -/
def tryExpandArraySlice (name : List Char) (s : ShellState) : Option (List Char) :=
  match subscript name with
  | some (base, index, ':' :: spec) =>
    if isValidIdentifier base && (index == ['@'] || index == ['*']) then
      some (joinWords (applyArraySlice (s.getArrayValues (String.ofList base)) spec))
    else none
  | _ => none

/-- `try_expand_array_all_values`. -/
def tryExpandArrayAllValues (name : List Char) (s : ShellState) : Option (List Char) :=
  (stripArrayGlobSuffix name).map fun base => joinWords (s.getArrayValues (String.ofList base))

/-- `try_expand_array_single_element`. -/
def tryExpandArraySingleElement (x : Rules) (name : List Char) (s : ShellState) : Outcome :=
  match subscript name with
  | some (base, index, _) =>
    if isValidIdentifier base && !index.isEmpty then
      match if index.contains '$' then x.expandIndex index s else some ([], index) with
      | some expanded => .handled expanded.1 (((s.after expanded.1).getArrayElement
          (String.ofList base) (String.ofList expanded.2)).getD "").toList
      | none => .panicked
    else .skipped
  | none => .skipped

/-- `try_expand_array_subscript`. -/
def tryExpandArraySubscript (x : Rules) (name : List Char) (s : ShellState) : Outcome :=
  (Outcome.ofText (tryExpandArrayLengthOrKeys name s)).orElse <|
  (Outcome.ofText (tryExpandArraySlice name s)).orElse <|
  (Outcome.ofText (tryExpandArrayAllValues name s)).orElse <|
  tryExpandArraySingleElement x name s

/-! ## 2. Lengths and indirections -/

/-- `try_expand_string_length`: the number of the bytes. -/
def tryExpandStringLength (name : List Char) (s : ShellState) : Option (List Char) :=
  match name with
  | '#' :: var =>
    if var = [] then none
    else if var = ['@'] ∨ var = ['*'] then some (toString s.positional.length).toList
    else
      let bytes := ((s.getVar (String.ofList var)).map fun v => Utf8.encode v.toList).getD []
      some (toString bytes.length).toList
  | _ => none

/-- `var_names_with_prefix`. -/
def varNamesWithPrefix (s : ShellState) (start : List Char) : List String :=
  ((s.env.inner :: s.env.outer).flatMap IndexMap.keys).filter
    (fun name => start.isPrefixOf name.toList) |>.dedup.mergeSort fun a b => decide (a ≤ b)

/-- `try_expand_indirect_or_prefix`. -/
def tryExpandIndirectOrPrefix (name : List Char) (s : ShellState) : Option (List Char) :=
  match name with
  | '!' :: rest =>
    if (rest.getLast? = some '*' ∨ rest.getLast? = some '@') ∧ isValidIdentifier rest.dropLast then
      some (joinWords (varNamesWithPrefix s rest.dropLast))
    else if isValidIdentifier rest then
      some (((s.getVar (String.ofList rest)).bind s.getVar).getD "").toList
    else none
  | _ => none

/-! ## 3. Changes of case and transformations -/

/-- `transform_first_char`. -/
def transformFirstChar (f : Char → List Char) : List Char → List Char
  | c :: cs => f c ++ cs
  | [] => []

/-- `try_case_modification`. -/
def tryCaseModification (x : Rules) (name : List Char) (s : ShellState) : Option (List Char) :=
  let var := name.takeWhile isNameByte
  if var = [] then none
  else
    let value := (s.getVar (String.ofList var)).map String.toList
    match name.dropWhile isNameByte with
    | '^' :: '^' :: _ => value.map x.toUppercase
    | '^' :: _ => value.map (transformFirstChar x.charToUppercase)
    | ',' :: ',' :: _ => value.map x.toLowercase
    | ',' :: _ => value.map (transformFirstChar x.charToLowercase)
    | _ => none

/-- `simple_escape_char`. -/
def simpleEscapeChar (b : Char) : Option Char :=
  if b = 'n' then some '\n' else if b = 't' then some '\t' else if b = 'r' then some '\r'
  else if b = 'a' then some '\x07' else if b = 'b' then some '\x08'
  else if b = 'e' ∨ b = 'E' then some '\x1b' else if b = 'f' then some '\x0c'
  else if b = 'v' then some '\x0b' else if ['\\', '\'', '"'].contains b then some b else none

/-- The byte that at most `most` digits of a radix stand for, zero when they stand for no
    byte, and what follows them; none when there are no digits. -/
def escapedByte (radix most : Nat) (bytes : List Char) : Option (Char × List Char) :=
  let digits := (bytes.take most).takeWhile fun b =>
    ((Arith.radixDigit b).filter (· < radix)).isSome
  if digits = [] then none
  else
    let n := digits.foldl (fun n b => radix * n + (Arith.radixDigit b).getD 0) 0
    some (Char.ofNat (if n < 256 then n else 0), bytes.drop digits.length)

/-- `expand_backslash_escapes` on bytes; the first argument bounds the number of turns. -/
def expandBackslashEscapes : Nat → List Char → List Char
  | 0, _ => []
  | _ + 1, [] => []
  | n + 1, '\\' :: b :: r =>
    match simpleEscapeChar b with
    | some c => c :: expandBackslashEscapes n r
    | none =>
      if b = '0' then
        let e := (escapedByte 8 3 r).getD ('\x00', r)
        e.1 :: expandBackslashEscapes n e.2
      else if b = 'x' then
        match escapedByte 16 2 r with
        | some e => e.1 :: expandBackslashEscapes n e.2
        | none => '\\' :: 'x' :: expandBackslashEscapes n r
      else '\\' :: b :: expandBackslashEscapes n r
  | n + 1, b :: r => b :: expandBackslashEscapes n r

/-- `try_transform_operator`. -/
def tryTransformOperator (x : Rules) (name : List Char) (s : ShellState) : Option (List Char) :=
  match name.reverse with
  | op :: '@' :: rev =>
    let var := rev.reverse
    if !isValidIdentifier var then none
    else
      let val := ((s.getVar (String.ofList var)).getD "").toList
      if op = 'Q' then
        some ('\'' :: val.flatMap (fun c => if c = '\'' then "'\\''".toList else [c]) ++ ['\''])
      else if op = 'E' then
        some (expandBackslashEscapes (Utf8.encode val).length (Utf8.encode val))
      else if op = 'U' then some (x.toUppercase val)
      else if op = 'L' then some (x.toLowercase val)
      else if op = 'u' then some (transformFirstChar x.charToUppercase val)
      else if op = 'a' then some []
      else if op = 'A' then some ("declare -- ".toList ++ var ++ "=\"".toList ++ val ++ ['"'])
      else none
  | _ => none

/-! ## 4. Cuts and patterns -/

/-- The texts before and after a byte offset; none when it is inside a character. -/
def cutAt : Nat → List Char → Option (List Char × List Char)
  | 0, t => some ([], t)
  | _ + 1, [] => none
  | n + 1, c :: t =>
    if (Utf8.encodeChar c).length ≤ n + 1 then
      (cutAt (n + 1 - (Utf8.encodeChar c).length) t).map fun e => (c :: e.1, e.2)
    else none

/-- `&text[start..stop]`. -/
def between (t : List Char) (start stop : Nat) : Option (List Char) :=
  (cutAt start t).bind fun e => (cutAt (stop - start) e.2).map (·.1)

/-- `simple_glob_match` on texts. -/
def globMatches (pattern t : List Char) : Bool :=
  simpleGlobMatch (Utf8.encode pattern) (Utf8.encode t)

/-- The loop of `strip_prefix_glob` and `strip_suffix_glob` over their offsets: of the cuts
    whose part matches it keeps the best; `none` when it panics. -/
def stripLoop (val pattern : List Char) (part : List Char × List Char → List Char)
    (better : Nat → Nat → Bool) : List Nat → Option Nat → Option (Option Nat)
  | [], chosen => some chosen
  | pos :: more, chosen =>
    match cutAt pos val with
    | none => none
    | some e =>
      stripLoop val pattern part better more
        (if globMatches pattern (part e) && chosen.all (better pos) then some pos else chosen)

/-- What is kept of a value that is cut at the chosen offset. -/
def keptAt (val : List Char) (kept : List Char × List Char → List Char) :
    Option Nat → Option (Option (List Char))
  | none => some none
  | some pos => (cutAt pos val).map fun e => some (kept e)

/-- `strip_prefix_glob`; `none` when it panics. -/
def stripPrefixGlob (val pattern : List Char) (greedy : Bool) : Option (Option (List Char)) :=
  let better (stop best : Nat) : Bool := decide (if greedy then best < stop else stop < best)
  (stripLoop val pattern (·.1) better (List.range (size val + 1)) none).bind (keptAt val (·.2))

/-- `strip_suffix_glob`; `none` when it panics. -/
def stripSuffixGlob (val pattern : List Char) (greedy : Bool) : Option (Option (List Char)) :=
  let better (start best : Nat) : Bool := decide (if greedy then start < best else best < start)
  (stripLoop val pattern (·.2) better (List.range (size val + 1)) none).bind (keptAt val (·.1))

/-- `expand_param_strip_op`, its operand expanded; `none` when it panics. -/
def expandParamStripOp (operator val pat : List Char) : Option (List Char) :=
  let stripped :=
    if operator = ['#'] then stripPrefixGlob val pat false
    else if operator = ['#', '#'] then stripPrefixGlob val pat true
    else if operator = ['%'] then stripSuffixGlob val pat false
    else stripSuffixGlob val pat true
  stripped.map (·.getD val)

/-! ## 5. Substitutions -/

/-- `SubstAnchor`. -/
inductive SubstAnchor where
  | start
  | stop
  | none
  deriving DecidableEq, Repr

/-- `is_glob_pattern`. -/
def isGlobPattern (pattern : List Char) : Bool :=
  pattern.contains '*' || pattern.contains '?' || pattern.contains '['

/-- `str::replacen(pattern, rep, 1)`. -/
def replacen (pattern rep : List Char) : List Char → List Char
  | [] => if pattern = [] then rep else []
  | c :: t =>
    if pattern.isPrefixOf (c :: t) then rep ++ (c :: t).drop pattern.length
    else c :: replacen pattern rep t

/-- `str::replace`; the first argument counts the characters of an occurrence that are still
    to be left out.  An empty pattern occurs before each character and at the end. -/
def replace (pattern rep : List Char) : Nat → List Char → List Char
  | _, [] => if pattern = [] then rep else []
  | left + 1, _ :: t => replace pattern rep left t
  | 0, c :: t =>
    if pattern = [] then rep ++ c :: replace pattern rep 0 t
    else if pattern.isPrefixOf (c :: t) then rep ++ replace pattern rep (pattern.length - 1) t
    else c :: replace pattern rep 0 t

/-- The first of some ends at which a part of the text matches: `none` when a part is cut
    inside a character before. -/
def findEnd (text pattern : List Char) (start : Nat) : List Nat → Option (Option Nat)
  | [] => some none
  | stop :: stops =>
    match between text start stop with
    | none => none
    | some part =>
      if globMatches pattern part then some (some stop) else findEnd text pattern start stops

/-- The offsets from one to the size of the text. -/
def offsetsFrom (text : List Char) (start : Nat) : List Nat :=
  (List.range (size text + 1 - start)).map (start + ·)

/-- The loop of `glob_find_first` over its starts. -/
def globFindLoop (text pattern : List Char) : List Nat → Option (Option (Nat × Nat))
  | [] => some none
  | start :: starts =>
    match findEnd text pattern start (offsetsFrom text start) with
    | none => none
    | some (some stop) => some (some (start, stop))
    | some none => globFindLoop text pattern starts

/-- `glob_find_first`. -/
def globFindFirst (text pattern : List Char) : Option (Option (Nat × Nat)) :=
  if pattern = [] then some (some (0, 0))
  else globFindLoop text pattern (List.range (size text + 1))

/-- `glob_replace_first`. -/
def globReplaceFirst (text pattern rep : List Char) : Option (List Char) :=
  if !isGlobPattern pattern then some (replacen pattern rep text)
  else
    match globFindFirst text pattern with
    | none => none
    | some none => some text
    | some (some (start, stop)) =>
      (cutAt start text).bind fun front => (cutAt stop text).map fun back =>
        front.1 ++ rep ++ back.2

/-- The loop of `glob_replace_all` from an offset; the first argument bounds the number of
    turns.  A byte that is not matched is pushed as a character. -/
def globReplaceLoop (text pattern rep : List Char) : Nat → Nat → Option (List Char)
  | 0, _ => some []
  | n + 1, pos =>
    if size text < pos then some []
    else
      match findEnd text pattern pos (offsetsFrom text pos) with
      | none => none
      | some (some stop) =>
        (globReplaceLoop text pattern rep n (if stop = pos then stop + 1 else stop)).map (rep ++ ·)
      | some none =>
        (globReplaceLoop text pattern rep n (pos + 1)).map ((Utf8.encode text)[pos]?.toList ++ ·)

/-- `glob_replace_all`. -/
def globReplaceAll (text pattern rep : List Char) : Option (List Char) :=
  if !isGlobPattern pattern then some (replace pattern rep 0 text)
  else globReplaceLoop text pattern rep (size text + 1) 0

/-- The last of some offsets at which a cut gives a text that matches. -/
def lastMatch (text pattern : List Char) (part : List Char × List Char → List Char) :
    List Nat → Option Nat → Option (Option Nat)
  | [], best => some best
  | pos :: more, best =>
    match cutAt pos text with
    | none => none
    | some e =>
      lastMatch text pattern part more (if globMatches pattern (part e) then some pos else best)

/-- `glob_match_at_start`. -/
def globMatchAtStart (text pattern : List Char) : Option (Option Nat) :=
  lastMatch text pattern (·.1) (List.range (size text + 1)) none

/-- `glob_match_at_end`. -/
def globMatchAtEnd (text pattern : List Char) : Option (Option Nat) :=
  lastMatch text pattern (·.2) (List.range (size text + 1)).reverse none

/-- `substitution_at_start`. -/
def substitutionAtStart (val pattern rep : List Char) : Option (List Char) :=
  (globMatchAtStart val pattern).bind fun found =>
    match found with
    | none => some val
    | some n => (cutAt n val).map fun e => rep ++ e.2

/-- `substitution_at_end`. -/
def substitutionAtEnd (val pattern rep : List Char) : Option (List Char) :=
  (globMatchAtEnd val pattern).bind fun found =>
    match found with
    | none => some val
    | some n => (cutAt n val).map fun e => e.1 ++ rep

/-- `substitution_unanchored`. -/
def substitutionUnanchored (val pat rep : List Char) (global : Bool) : Option (List Char) :=
  if global then globReplaceAll val pat rep else globReplaceFirst val pat rep

/-- `parse_subst_anchor`. -/
def parseSubstAnchor : List Char → SubstAnchor × List Char
  | '#' :: p => (.start, p.takeWhile (· != '/'))
  | '%' :: p => (.stop, p.takeWhile (· != '/'))
  | _ => (.none, [])

/-- `parse_subst_pat_rep`. -/
def parseSubstPatRep (rest : List Char) (anchor : SubstAnchor) : List Char × List Char :=
  let after := if anchor ≠ .none ∧ (rest.head? = some '#' ∨ rest.head? = some '%') then rest.drop 1
    else rest
  (after.takeWhile (· != '/'), (after.dropWhile (· != '/')).drop 1)

/-- `substitution_result`. -/
def substitutionResult (val : List Char) (anchor : SubstAnchor) (patStr pat rep : List Char)
    (global : Bool) : Option (List Char) :=
  match anchor with
  | .start => substitutionAtStart val patStr rep
  | .stop => substitutionAtEnd val patStr rep
  | .none => substitutionUnanchored val pat rep global

/-- `try_expand_substitution`. -/
def tryExpandSubstitution (name : List Char) (s : ShellState) : Outcome :=
  let var := name.takeWhile (· != '/')
  if !name.contains '/' || !isValidIdentifier var then .skipped
  else
    let rest := (name.dropWhile (· != '/')).drop 1
    let global := decide (rest.head? = some '/')
    let rest := if global then rest.drop 1 else rest
    let anchor := parseSubstAnchor rest
    let parts := parseSubstPatRep rest anchor.1
    match s.getVar (String.ofList var) with
    | none => .handled [] []
    | some val =>
      .ofResult (substitutionResult val.toList anchor.1 anchor.2 parts.1 parts.2 global)

/-! ## 6. Substrings -/

/-- `i64::try_from(n).unwrap_or(i64::MAX)`. -/
def clampI64 (n : Nat) : Int := min n (2 ^ 63 - 1)

/-- The end of `try_expand_substring`, the value and the two texts known; `none` when it
    panics.  A sum of the start and the length above `i64::MAX` is a panic where overflow is
    checked; where it wraps around, the end becomes 0 and lies before the start. -/
def substring (chars offsetStr : List Char) (lengthStr : Option (List Char)) :
    Option (List Char) :=
  let len := clampI64 chars.length
  let offset := (Braces.parseI64 (trim offsetStr)).getD 0
  if offset < 0 ∧ len + offset < 0 then some []
  else
    let start := if offset < 0 then max (len + offset) 0 else min offset len
    let stop : Option Int :=
      match lengthStr with
      | some spec =>
        let count := (Braces.parseI64 (trim spec)).getD (len - start)
        if count < 0 then some (max (len + count) start)
        else if start + count < 2 ^ 63 then some (min (start + count) len)
        else none
      | none => some len
    stop.bind fun stop =>
      let start := start.toNat
      let stop := min (max stop 0).toNat chars.length
      if start ≤ stop then some ((chars.drop start).take (stop - start)) else none

/-- `try_expand_substring`. -/
def tryExpandSubstring (name : List Char) (s : ShellState) : Outcome :=
  let var := name.takeWhile (· != ':')
  let rest := (name.dropWhile (· != ':')).drop 1
  let trimmed := rest.dropWhile isWhitespace
  if !name.contains ':' then .skipped
  else if ['-', '=', '+', '?'].any (fun c => rest.head? == some c) then .skipped
  else if trimmed.head?.any Char.isDigit ||
      (trimmed.length != rest.length && trimmed.head? == some '-') then
    match s.getVar (String.ofList var) with
    | none => .handled [] []
    | some val =>
      let offsetStr := trimmed.takeWhile (· != ':')
      let lengthStr := if trimmed.contains ':' then some ((trimmed.dropWhile (· != ':')).drop 1)
        else none
      .ofResult (substring val.toList offsetStr lengthStr)
  else .skipped

/-! ## 7. `expand_parameter` -/

variable (x : Rules)

/-- The forms that `expand_parameter` tries before it looks for an operator. -/
def forms (name : List Char) (s : ShellState) : Outcome :=
  (tryExpandArraySubscript x name s).orElse <|
  (Outcome.ofText (tryExpandStringLength name s)).orElse <|
  (Outcome.ofText (tryExpandIndirectOrPrefix name s)).orElse <|
  (Outcome.ofText (tryCaseModification x name s)).orElse <|
  (Outcome.ofText (tryTransformOperator x name s)).orElse <|
  (tryExpandSubstitution name s).orElse <|
  tryExpandSubstring name s

/-- The forms and the strip operators as the operators of `Operands` use them. -/
def paramRules : ParamRules := ⟨forms x, expandParamStripOp, x.evalArithmetic⟩

/-- `expand_parameter` at a depth; `none` when it panics. -/
def expandParameter (depth : Nat) : Operands.Effect := expandParameterAt (paramRules x) depth

theorem expandParameter_eq (depth : Nat) (name : List Char) (s : ShellState) :
    expandParameter x depth name s = match forms x name s with
      | .handled ops text => some (ops, text)
      | .panicked => none
      | .skipped => expandOperator (paramRules x)
          (expandOperandInner (paramRules x) (maxExpandDepth - depth)) name s := rfl

/-! ## 8. Names before an operator -/

section

variable {v rest : List Char} {c : Char}

theorem isNameByte_of_mem (hv : isValidIdentifier v = true) : ∀ b ∈ v, isNameByte b = true := by
  rw [isValidIdentifier, Bool.and_eq_true, List.all_eq_true] at hv
  exact hv.2

theorem ne_nil_of_identifier (hv : isValidIdentifier v = true) : v ≠ [] := by
  rintro rfl
  exact Bool.false_ne_true hv

theorem not_identifier_of_mem (hc : isNameByte c = false) {t : List Char} (hmem : c ∈ t) :
    isValidIdentifier t = false := by
  rw [Bool.eq_false_iff]
  intro ht
  rw [isNameByte_of_mem ht c hmem] at hc
  exact absurd hc (by decide)

/-- A test that all bytes of names pass and the next character does not. -/
theorem takeWhile_identifier {p : Char → Bool} (hv : isValidIdentifier v = true)
    (hp : ∀ b, isNameByte b = true → p b = true) (hc : p c = false) :
    (v ++ c :: rest).takeWhile p = v := by
  rw [List.takeWhile_append_of_pos fun b hb => hp b (isNameByte_of_mem hv b hb),
    List.takeWhile_cons_of_neg (by rw [hc]; exact Bool.false_ne_true), List.append_nil]

theorem dropWhile_identifier {p : Char → Bool} (hv : isValidIdentifier v = true)
    (hp : ∀ b, isNameByte b = true → p b = true) (hc : p c = false) :
    (v ++ c :: rest).dropWhile p = c :: rest := by
  rw [List.dropWhile_append_of_pos fun b hb => hp b (isNameByte_of_mem hv b hb),
    List.dropWhile_cons_of_neg (by rw [hc]; exact Bool.false_ne_true)]

theorem bne_of_name {b d : Char} (hd : isNameByte d = false) (hb : isNameByte b = true) :
    (b != d) = true := by
  rw [bne_iff_ne]
  rintro rfl
  rw [hb] at hd
  exact absurd hd (by decide)

theorem head?_identifier (hv : isValidIdentifier v = true) {d : Char}
    (hd : isNameByte d = false) {t : List Char} : v ++ t ≠ d :: rest := by
  cases v with
  | nil => exact absurd rfl (ne_nil_of_identifier hv)
  | cons b bs =>
    intro heq
    rw [List.cons_append, List.cons.injEq] at heq
    have hb := isNameByte_of_mem hv b List.mem_cons_self
    rw [heq.1, hd] at hb
    exact absurd hb (by decide)

/-- Before the first bracket stands more than a name. -/
theorem not_identifier_base (hv : isValidIdentifier v = true) (hname : isNameByte c = false)
    (hc : c ≠ '[') {base index more : List Char}
    (h : subscript (v ++ c :: rest) = some (base, index, more)) :
    isValidIdentifier base = false := by
  have hbase : base = (v ++ c :: rest).takeWhile (· != '[') := by
    unfold subscript at h
    dsimp only at h
    split at h
    · exact (congrArg Prod.fst (Option.some.inj h)).symm
    · cases h
  apply not_identifier_of_mem hname
  rw [hbase, List.takeWhile_append_of_pos fun b hb =>
      bne_of_name (by decide) (isNameByte_of_mem hv b hb),
    List.takeWhile_cons_of_pos (by simpa using hc)]
  exact List.mem_append_right _ List.mem_cons_self

theorem tryExpandArraySubscript_name (hv : isValidIdentifier v = true)
    (hname : isNameByte c = false) (hc : c ≠ '[') (s : ShellState) :
    tryExpandArraySubscript x (v ++ c :: rest) s =
      Outcome.ofText (tryExpandArrayAllValues (v ++ c :: rest) s) := by
  have hkeys : tryExpandArrayLengthOrKeys (v ++ c :: rest) s = none := by
    unfold tryExpandArrayLengthOrKeys
    split
    · next heq => exact absurd heq (head?_identifier hv (by decide))
    · next heq => exact absurd heq (head?_identifier hv (by decide))
    · rfl
  have hslice : tryExpandArraySlice (v ++ c :: rest) s = none := by
    unfold tryExpandArraySlice
    split
    · next heq => rw [not_identifier_base hv hname hc heq]; rfl
    · rfl
  have helement : tryExpandArraySingleElement x (v ++ c :: rest) s = .skipped := by
    unfold tryExpandArraySingleElement
    split
    · next heq => rw [not_identifier_base hv hname hc heq]; rfl
    · rfl
  rw [tryExpandArraySubscript, hkeys, hslice, helement]
  cases tryExpandArrayAllValues (v ++ c :: rest) s <;> rfl

theorem tryTransformOperator_name (hname : isNameByte c = false) (hc : c ≠ '@')
    (hv : isValidIdentifier v = true) (s : ShellState) :
    tryTransformOperator x (v ++ c :: rest) s = none := by
  unfold tryTransformOperator
  split
  · next op rev heq =>
    have hrev : v ++ c :: rest = rev.reverse ++ ['@', op] := by
      rw [← List.reverse_inj, heq]
      simp
    have hvar : isValidIdentifier rev.reverse = false := by
      rw [Bool.eq_false_iff]
      intro hid
      -- the operator is the first character that is not of a name
      have hfirst : (v ++ c :: rest).dropWhile isNameByte = c :: rest :=
        dropWhile_identifier hv (fun _ hb => hb) hname
      rw [hrev, dropWhile_identifier hid (fun _ hb => hb) (by decide)] at hfirst
      exact hc (List.cons.inj hfirst).1.symm
    dsimp only
    rw [hvar]
    rfl
  · rfl

/-- An operator after a name, and the forms that remain. -/
theorem forms_name (hv : isValidIdentifier v = true) (hname : isNameByte c = false)
    (hc : c ∉ ['[', '^', ',', '@']) (s : ShellState) :
    forms x (v ++ c :: rest) s =
      (Outcome.ofText (tryExpandArrayAllValues (v ++ c :: rest) s)).orElse
        ((tryExpandSubstitution (v ++ c :: rest) s).orElse
          (tryExpandSubstring (v ++ c :: rest) s)) := by
  simp only [List.mem_cons, List.not_mem_nil, or_false, not_or] at hc
  obtain ⟨hbracket, hcaret, hcomma, hat⟩ := hc
  have hlength : tryExpandStringLength (v ++ c :: rest) s = none := by
    unfold tryExpandStringLength
    split
    · next heq => exact absurd heq (head?_identifier hv (by decide))
    · rfl
  have hindirect : tryExpandIndirectOrPrefix (v ++ c :: rest) s = none := by
    unfold tryExpandIndirectOrPrefix
    split
    · next heq => exact absurd heq (head?_identifier hv (by decide))
    · rfl
  have hcase : tryCaseModification x (v ++ c :: rest) s = none := by
    unfold tryCaseModification
    dsimp only
    rw [takeWhile_identifier hv (fun _ hb => hb) hname,
      dropWhile_identifier hv (fun _ hb => hb) hname, if_neg (ne_nil_of_identifier hv)]
    split
    · next heq => exact absurd (List.cons.inj heq).1 hcaret
    · next heq => exact absurd (List.cons.inj heq).1 hcaret
    · next heq => exact absurd (List.cons.inj heq).1 hcomma
    · next heq => exact absurd (List.cons.inj heq).1 hcomma
    · rfl
  rw [forms, tryExpandArraySubscript_name x hv hname hbracket, hlength, hindirect, hcase,
    tryTransformOperator_name x hname hat hv]
  rfl

theorem tryExpandSubstitution_name (hv : isValidIdentifier v = true)
    (hname : isNameByte c = false) (hc : c ≠ '/') (s : ShellState) :
    tryExpandSubstitution (v ++ c :: rest) s = .skipped := by
  have hvar : isValidIdentifier ((v ++ c :: rest).takeWhile (· != '/')) = false := by
    apply not_identifier_of_mem hname
    rw [List.takeWhile_append_of_pos fun b hb =>
        bne_of_name (by decide) (isNameByte_of_mem hv b hb),
      List.takeWhile_cons_of_pos (by simpa using hc)]
    exact List.mem_append_right _ List.mem_cons_self
  unfold tryExpandSubstitution
  dsimp only
  rw [hvar, Bool.not_false, Bool.or_true, if_pos rfl]

end

end Wasmsh.Params

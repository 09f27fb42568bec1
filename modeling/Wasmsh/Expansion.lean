import Wasmsh.Assignment
import Wasmsh.Braces
import Wasmsh.Globs

/-!
# The expansion of words

`expand_word`, `expand_words_argv` and what they call in `wasmsh-expand/src/lib.rs`, and the
two places of `wasmsh-runtime/src/lib.rs` that make arguments out of words: the words of a
command (`execute_exec`) and the words of a `for` list (`expand_for_words`).

The value of a parameter and of an arithmetic expression is the `Expander`'s, with the
writes its evaluation makes; everything after it is explicit.  A text with its quoting mask
is a list of characters with a flag: the source keeps a flag for each byte, and the bytes of
one character always have the same.
-/

namespace Wasmsh

open Braces Globs

/-- What the expansion of words calls and does not contain.  Both are taken to return. -/
structure Expander where
  /-- `expand_parameter` at a depth. -/
  expandParameter : Nat → List Char → ShellState → List StateOp × List Char
  evalArithmetic : List Char → ShellState → List StateOp × Int
  /-- The operands of the parameter, expanded at a depth, stay above its limit. -/
  fits : Nat → List Char → ShellState → Bool
  /-- Then a smaller depth makes no difference. -/
  expandParameter_of_fits : ∀ {depth depth' : Nat} {name : List Char} {s : ShellState},
    depth' ≤ depth → fits depth name s = true →
      expandParameter depth' name s = expandParameter depth name s

/-- Nothing has a value. -/
def Expander.empty : Expander := ⟨fun _ _ _ => ([], []), fun _ _ => ([], 0), fun _ _ _ => true,
  fun _ _ => rfl⟩

/-- The state after writes. -/
def ShellState.after (s : ShellState) (ops : List StateOp) : ShellState :=
  (s.applyAll ops).getD s

theorem ShellState.after_of_some {s t : ShellState} {ops : List StateOp}
    (h : s.applyAll ops = some t) : s.after ops = t := by
  rw [ShellState.after, h, Option.getD_some]

/-- A text with a flag for each character: `true` when it was quoted. -/
abbrev Masked := List (Char × Bool)

namespace Masked

/-- `push_masked` on an empty text. -/
def ofText (quoted : Bool) (t : List Char) : Masked := t.map (·, quoted)

def text (m : Masked) : List Char := m.map (·.1)

/-- `was_quoted`. -/
def wasQuoted (m : Masked) : Bool := m.any (·.2)

/-- The flags of the bytes. -/
def byteMask (m : Masked) : List Bool :=
  m.flatMap fun e => List.replicate (Utf8.encodeChar e.1).length e.2

theorem text_ofText (q : Bool) (t : List Char) : (Masked.ofText q t).text = t := by
  simp [Masked.ofText, Masked.text, Function.comp_def]

theorem text_append (m m' : Masked) : (m ++ m' : Masked).text = m.text ++ m'.text :=
  List.map_append

end Masked

namespace Expand

/-- `MAX_EXPAND_DEPTH`. -/
def maxExpandDepth : Nat := 50

/-! ## 1. Arrays -/

/-- `apply_array_slice`. -/
def applyArraySlice {α : Type} (values : List α) (spec : List Char) : List α :=
  let len : Int := values.length
  let given := (parseSigned 127 (trim (spec.takeWhile (· != ':')))).getD 0
  let offset := max (if given < 0 then given + len else given) 0
  let start := (min offset len).toNat
  let stop := if spec.contains ':' then
      let count := (parseSigned 127 (trim ((spec.dropWhile (· != ':')).drop 1))).getD len
      if count < 0 then (max (len + count) offset).toNat else (min (offset + count) len).toNat
    else values.length
  (values.drop start).take (stop - start)

/-- `array_multi_expansion`: the elements of `$@`, `${a[@]}`, `${!a[@]}` and their slices. -/
def arrayMultiExpansion (name : List Char) (s : ShellState) : Option (List (List Char)) :=
  if name = ['@'] then some (s.positional.map String.toList)
  else
    let rest := (name.dropWhile (· != '[')).drop 1
    if !name.contains '[' || !rest.contains ']' || rest.takeWhile (· != ']') ≠ ['@'] then none
    else
      let (base, isKeys) := match name.takeWhile (· != '[') with
        | '!' :: b => (b, true)
        | b => (b, false)
      if base = [] ∨ base.head? = some '#' then none
      else
        let array := String.ofList base
        let elements := (if isKeys then s.getArrayKeys array else s.getArrayValues array).map
          String.toList
        some (match (rest.dropWhile (· != ']')).drop 1 with
          | ':' :: spec => applyArraySlice elements spec
          | _ => elements)

/-- The text after the first `[@]`. -/
def afterAllElements : List Char → Option (List Char)
  | '[' :: '@' :: ']' :: rest => some rest
  | _ :: cs => afterAllElements cs
  | [] => none

/-- `is_multi_field_parameter_name`. -/
def isMultiFieldParameterName (name : List Char) : Bool :=
  name == ['@'] || (afterAllElements name).any fun rest => rest = [] || rest.head? = some ':'

mutual

/-- `word_has_multi_field_parameter`. -/
def partHasMultiField : WordPart → Bool
  | .parameter name => isMultiFieldParameterName name
  | .doubleQuoted ps => partsHaveMultiField ps
  | _ => false

def partsHaveMultiField : List WordPart → Bool
  | [] => false
  | p :: ps => partHasMultiField p || partsHaveMultiField ps

end

/-- `MultiAtom`. -/
inductive MultiAtom where
  | text (t : List Char) (literal : Bool)
  | fields (elements : List (List Char)) (literal : Bool)
  deriving DecidableEq, Repr

/-- The fields of a word so far, the last one first, and whether anything was put into
    them. -/
structure MultiFields where
  last : Masked
  before : List Masked
  hadText : Bool

/-- One atom in the loop of `expand_word_multi`. -/
def MultiFields.push (f : MultiFields) : MultiAtom → MultiFields
  | .text t literal =>
    if t.isEmpty then f else { f with last := f.last ++ .ofText literal t, hadText := true }
  | .fields [] _ => f
  | .fields (e :: es) literal =>
    let fields := (f.last ++ .ofText literal e) :: es.map (Masked.ofText literal)
    ⟨fields.getLastD [], f.before ++ fields.dropLast, true⟩

/-- The fields that `expand_word_multi` makes of atoms. -/
def multiFields (atoms : List MultiAtom) : List Masked :=
  let f := atoms.foldl MultiFields.push ⟨[], [], false⟩
  if !f.hadText && f.before.isEmpty && f.last.isEmpty then [] else f.before ++ [f.last]

/-! ## 2. Words of a command -/

section

variable (x : Expander)

mutual

/-- `expand_part_masked`: beyond the limit a part is dropped, and the parameter is one
    deeper than the part. -/
def expandPartMasked (quoted : Bool) (depth : Nat) :
    WordPart → ShellState → List StateOp × Masked
  | .literal t, _ => if maxExpandDepth < depth then ([], []) else ([], .ofText quoted t)
  | .singleQuoted t, _ => if maxExpandDepth < depth then ([], []) else ([], .ofText true t)
  | .doubleQuoted ps, s =>
    if maxExpandDepth < depth then ([], []) else expandPartsMasked true (depth + 1) ps s
  | .parameter name, s =>
    if maxExpandDepth < depth then ([], [])
    else
      let value := x.expandParameter (depth + 1) name s
      (value.1, .ofText quoted value.2)
  | .arithmetic e, s =>
    if maxExpandDepth < depth then ([], [])
    else ((x.evalArithmetic e s).1, .ofText quoted (toString (x.evalArithmetic e s).2).toList)
  | _, _ => ([], [])

def expandPartsMasked (quoted : Bool) (depth : Nat) :
    List WordPart → ShellState → List StateOp × Masked
  | [], _ => ([], [])
  | p :: ps, s =>
    let first := expandPartMasked quoted depth p s
    let rest := expandPartsMasked quoted depth ps (s.after first.1)
    (first.1 ++ rest.1, first.2 ++ rest.2)

end

/-- A text that starts with a tilde of its own. -/
def isTildeText (t : List Char) : Bool := t == ['~'] || t.take 2 == ['~', '/']

/-- The tilde of `expand_word_masked`: after it nothing counts as quoted. -/
def expandTilde (m : Masked) (s : ShellState) : Masked :=
  if isTildeText m.text then
    match s.getVar "HOME" with
    | some home => .ofText false (home.toList ++ m.text.drop 1)
    | none => m
  else m

/-- `expand_word_masked`. -/
def expandWordMasked (w : Word) (s : ShellState) : List StateOp × Masked :=
  let parts := expandPartsMasked x false 0 w.parts s
  (parts.1, expandTilde parts.2 (s.after parts.1))

mutual

/-- One part in `collect_multi_atoms`. -/
def collectMultiAtom (quoted : Bool) (depth : Nat) :
    WordPart → ShellState → List StateOp × List MultiAtom
  | .literal t, _ => ([], [.text t quoted])
  | .singleQuoted t, _ => ([], [.text t true])
  | .doubleQuoted ps, s =>
    if maxExpandDepth < depth + 1 then ([], []) else collectMultiAtoms true (depth + 1) ps s
  | .parameter name, s =>
    match arrayMultiExpansion name s with
    | some elements => ([], [.fields elements quoted])
    | none =>
      let value := x.expandParameter (depth + 1) name s
      (value.1, [.text value.2 quoted])
  | .arithmetic e, s =>
    ((x.evalArithmetic e s).1, [.text (toString (x.evalArithmetic e s).2).toList quoted])
  | _, _ => ([], [])

/-- `collect_multi_atoms`. -/
def collectMultiAtoms (quoted : Bool) (depth : Nat) :
    List WordPart → ShellState → List StateOp × List MultiAtom
  | [], _ => ([], [])
  | p :: ps, s =>
    let first := collectMultiAtom quoted depth p s
    let rest := collectMultiAtoms quoted depth ps (s.after first.1)
    (first.1 ++ rest.1, first.2 ++ rest.2)

end

/-- An atom of several fields. -/
def MultiAtom.isFields : MultiAtom → Bool
  | .fields _ _ => true
  | .text _ _ => false

/-- `expand_word_multi`; no fields when the word has no multi-field parameter after all. -/
def expandWordMulti (w : Word) (s : ShellState) : List StateOp × Option (List Masked) :=
  let atoms := collectMultiAtoms x false 0 w.parts s
  (atoms.1, if atoms.2.any MultiAtom.isFields then some (multiFields atoms.2) else none)

/-- One word of `expand_words_argv`. -/
def expandWordArgv (w : Word) (s : ShellState) : List StateOp × List Masked :=
  if partsHaveMultiField w.parts then
    let multi := expandWordMulti x w s
    match multi.2 with
    | some fields => (multi.1, fields)
    | none =>
      let single := expandWordMasked x w (s.after multi.1)
      (multi.1 ++ single.1, [single.2])
  else
    let single := expandWordMasked x w s
    (single.1, [single.2])

/-- `expand_words_argv`. -/
def expandWordsArgv : List Word → ShellState → List StateOp × List Masked
  | [], _ => ([], [])
  | w :: ws, s =>
    let first := expandWordArgv x w s
    let rest := expandWordsArgv ws (s.after first.1)
    (first.1 ++ rest.1, first.2 ++ rest.2)

/-- Brace expansion in `execute_exec`: of the expanded text, and only of a word without
    quoted characters. -/
def braceWords (m : Masked) : List TaggedWord :=
  if m.wasQuoted then [⟨m.text, true, m.byteMask⟩]
  else (expandBraces m.text).map fun t =>
    ⟨t, false, List.replicate (Utf8.encode t).length false⟩

/-- The arguments of a command: `expand_words_argv`, then braces, then pathnames; nothing
    when the words expand to nothing. -/
def expandArgv (fs : Files) (depth : Nat) (ws : List Word) (s : ShellState) :
    List StateOp × Option (List String) :=
  let words := expandWordsArgv x ws s
  let after := s.after words.1
  let argv := expandGlobsTagged fs (.of after) after.cwd.toList depth (words.2.flatMap braceWords)
  (words.1, if words.2.isEmpty then none else some (argv.map String.ofList))

/-! ## 3. Single words -/

mutual

/-- `expand_part_depth` at depth 0; only operands of parameters go deeper. -/
def expandPart : WordPart → ShellState → List StateOp × List Char
  | .literal t, _ => ([], t)
  | .singleQuoted t, _ => ([], t)
  | .doubleQuoted ps, s => expandParts ps s
  | .parameter name, s => x.expandParameter 0 name s
  | .arithmetic e, s => ((x.evalArithmetic e s).1, (toString (x.evalArithmetic e s).2).toList)
  | _, _ => ([], [])

def expandParts : List WordPart → ShellState → List StateOp × List Char
  | [], _ => ([], [])
  | p :: ps, s =>
    let first := expandPart p s
    let rest := expandParts ps (s.after first.1)
    (first.1 ++ rest.1, first.2 ++ rest.2)

end

/-- The tilde of `expand_word`. -/
def expandTildeText (t : List Char) (s : ShellState) : List Char :=
  if isTildeText t then
    match s.getVar "HOME" with
    | some home => home.toList ++ t.drop 1
    | none => t
  else t

theorem text_expandTilde (m : Masked) (s : ShellState) :
    (expandTilde m s).text = expandTildeText m.text s := by
  unfold expandTilde expandTildeText
  split
  · cases s.getVar "HOME" with
    | none => rfl
    | some home => rw [Masked.text_ofText]
  · rfl

/-- `expand_word`. -/
def expandWord (w : Word) (s : ShellState) : List StateOp × List Char :=
  let parts := expandParts x w.parts s
  (parts.1, expandTildeText parts.2 (s.after parts.1))

/-! ## 4. Words of a `for` list -/

/-- `text.split(|c| ifs.contains(c))` without its empty pieces. -/
def ifsPieces (ifs : List Char) : List Char → List (List Char)
  | t => (t.splitOnP (ifs.contains ·)).filter (!·.isEmpty)

/-- The pieces after the first in `split_unquoted`. -/
def pushPieces (f : ForFields) (pieces : List (List Char)) : ForFields :=
  pieces.foldl (fun f piece =>
    if f.current.isEmpty then { f with current := piece }
    else { f with current := piece, out := f.out ++ [f.current] }) f

/-- `split_unquoted`. -/
def splitUnquoted (ifs text : List Char) (f : ForFields) : ForFields :=
  if ifs.isEmpty then { f with current := f.current ++ text }
  else match ifsPieces ifs text with
    | [] => f
    | piece :: pieces => pushPieces { f with current := f.current ++ piece } pieces

/-- The elements of a quoted multi-field parameter. -/
def pushElements (f : ForFields) : List (List Char) → ForFields
  | [] => f
  | e :: es => es.foldl (fun f e => { f with current := e, out := f.out ++ [f.current] })
    { f with current := f.current ++ e }

/-- A part inside double quotes in `split_for_parts`; `out` is the output of a command
    substitution. -/
def splitQuotedPart (p : WordPart) (out : List Char) (f : ForFields) (s : ShellState) :
    List StateOp × ForFields :=
  match p with
  | .parameter name =>
    match arrayMultiExpansion name s with
    | some elements => ([], pushElements f elements)
    | none =>
      let value := expandWord x ⟨[p]⟩ s
      (value.1, { f with current := f.current ++ value.2 })
  | .literal t => ([], { f with current := f.current ++ t })
  | .singleQuoted t => ([], { f with current := f.current ++ t })
  | .commandSubstitution _ => ([], { f with current := f.current ++ out })
  | p =>
    let value := expandWord x ⟨[p]⟩ s
    (value.1, { f with current := f.current ++ value.2 })

/-- A part outside double quotes in `split_for_parts`. -/
def splitUnquotedPart (ifs : List Char) (p : WordPart) (out : List Char) (f : ForFields)
    (s : ShellState) : List StateOp × ForFields :=
  match p with
  | .literal t => ([], { f with current := f.current ++ t })
  | .singleQuoted t => ([], { f with current := f.current ++ t, quotedSeen := true })
  | .commandSubstitution _ => ([], splitUnquoted ifs out f)
  | .parameter name =>
    let value := expandWord x ⟨[.parameter name]⟩ s
    (value.1, splitUnquoted ifs value.2 f)
  | .arithmetic e =>
    let value := expandWord x ⟨[.arithmetic e]⟩ s
    (value.1, splitUnquoted ifs value.2 f)
  | _ => ([], f)

/-- Braces and pathnames of the fields of a `for` list. -/
def expandForGlobs (fs : Files) (depth : Nat) (fields : List (List Char)) (s : ShellState) :
    List (List Char) :=
  expandGlobs fs (.of s) s.cwd.toList depth (fields.flatMap expandBraces)

end

end Expand

end Wasmsh

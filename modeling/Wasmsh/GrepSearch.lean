import Wasmsh.SedScripts

/-!
# The arguments and the matches of `grep`

The option parser of `grep` and the search for the text that `-o` prints, of
`wasmsh-utils/src/text_ops.rs`, and the same search of `grep` in a pipeline, of
`wasmsh-runtime/src/streaming_grep.rs`.  The compilers of the engine and the Unicode tables
that `to_lowercase` reads are parameters.  A slice of a line is its offset and its text.
-/

namespace Wasmsh.PosixRegex

/-! ## 1. All matches -/

/-- The loop of `find_iter_offsets`. -/
def findIterLoop (r : Regex) (subject : List Char) : Nat → Nat → List (Nat × Nat)
  | 0, _ => []
  | fuel + 1, cursor =>
    if cursor ≤ subject.length then
      match leftmostMatch r subject cursor with
      | none => []
      | some (_, relStart, relEnd) =>
        (cursor + relStart, cursor + relEnd) ::
          if advancePastMatch relStart relEnd = 0 then []
          else findIterLoop r subject fuel (cursor + advancePastMatch relStart relEnd)
    else []

/-- `find_iter_offsets`. -/
def findIterOffsets (r : Regex) (subject : List Char) : List (Nat × Nat) :=
  if r.empty then [(0, 0)] else findIterLoop r subject (subject.length + 1) 0

end Wasmsh.PosixRegex

namespace Wasmsh.Grep

open PosixRegex

/-! ## 2. Options -/

/-- `GrepFlags`. -/
structure GrepFlags where
  ignoreCase : Bool
  invert : Bool
  countOnly : Bool
  showLineNumbers : Bool
  recursive : Bool
  filesOnly : Bool
  wordMatch : Bool
  onlyMatching : Bool
  quiet : Bool
  extended : Bool
  fixed : Bool
  afterContext : Nat
  beforeContext : Nat
  maxCount : Option Nat
  showFilename : Option Bool
  nullAfterFilename : Bool
  patterns : List (List Char)
  includeGlob : Option (List Char)
  excludeGlob : Option (List Char)
  deriving DecidableEq, Repr

/-- `default_grep_flags`. -/
def defaultGrepFlags : GrepFlags where
  ignoreCase := false
  invert := false
  countOnly := false
  showLineNumbers := false
  recursive := false
  filesOnly := false
  wordMatch := false
  onlyMatching := false
  quiet := false
  extended := false
  fixed := false
  afterContext := 0
  beforeContext := 0
  maxCount := none
  showFilename := none
  nullAfterFilename := false
  patterns := []
  includeGlob := none
  excludeGlob := none

/-- `str::strip_prefix`. -/
def stripPrefix (start text : List Char) : Option (List Char) :=
  if start.isPrefixOf text then some (text.drop start.length) else none

/-- `parse_grep_long_option`: the flags, if the argument is such an option. -/
def parseGrepLongOption (arg : List Char) (flags : GrepFlags) : Option GrepFlags :=
  match stripPrefix "--include=".toList arg with
  | some glob => some { flags with includeGlob := some glob }
  | none =>
    match stripPrefix "--exclude=".toList arg with
    | some glob => some { flags with excludeGlob := some glob }
    | none =>
      if arg = "--null".toList then some { flags with nullAfterFilename := true }
      else if arg = "--color".toList ∨ "--color=".toList.isPrefixOf arg = true then some flags
      else none

/-- `parse::<usize>()`. -/
def parseUsize (text : List Char) : Option Nat := parseUnsigned 64 (String.ofList text)

/-- The options `-A`, `-B`, `-C` and `-m` with their value behind the letter. -/
def setGluedNumber (letter : List Char) (n : Nat) (flags : GrepFlags) : GrepFlags :=
  if letter = ['-', 'A'] then { flags with afterContext := n }
  else if letter = ['-', 'B'] then { flags with beforeContext := n }
  else if letter = ['-', 'C'] then { flags with beforeContext := n, afterContext := n }
  else { flags with maxCount := some n }

/-- The options with their value in the next argument. -/
def setNextValue (arg next : List Char) (flags : GrepFlags) : Option GrepFlags :=
  match arg with
  | ['-', 'e'] => some { flags with patterns := flags.patterns ++ [next] }
  | ['-', 'f'] => some flags
  | ['-', 'A'] => some { flags with afterContext := (parseUsize next).getD 0 }
  | ['-', 'B'] => some { flags with beforeContext := (parseUsize next).getD 0 }
  | ['-', 'C'] =>
    let n := (parseUsize next).getD 0
    some { flags with beforeContext := n, afterContext := n }
  | ['-', 'm'] => some { flags with maxCount := parseUsize next }
  | _ => none

/-- `parse_grep_valued_short_option`: the number of arguments that are consumed and the flags,
    if the argument is such an option; no value is a panic. -/
def parseGrepValuedShortOption (arg : List Char) (next : Option (List Char)) (flags : GrepFlags) :
    Option (Option (Nat × GrepFlags)) :=
  let bytes := Utf8.encode arg
  let separated := (next.bind fun value => setNextValue arg value flags).map (2, ·)
  if 2 < bytes.length then
    (sliceStr bytes 0 2).bind fun letter =>
      (sliceStr bytes 2 bytes.length).map fun rest =>
        if letter = ['-', 'A'] ∨ letter = ['-', 'B'] ∨ letter = ['-', 'C'] ∨
            letter = ['-', 'm'] then
          (parseUsize (Utf8.decode rest)).map fun n => (1, setGluedNumber letter n flags)
        else separated
  else some separated

/-- A letter of `parse_grep_short_cluster`. -/
def setGrepLetter (flags : GrepFlags) (c : Char) : GrepFlags :=
  match c with
  | 'i' => { flags with ignoreCase := true }
  | 'v' => { flags with invert := true }
  | 'c' => { flags with countOnly := true }
  | 'n' => { flags with showLineNumbers := true }
  | 'r' => { flags with recursive := true }
  | 'R' => { flags with recursive := true }
  | 'l' => { flags with filesOnly := true }
  | 'E' => { flags with extended := true }
  | 'P' => { flags with extended := true }
  | 'F' => { flags with fixed := true }
  | 'w' => { flags with wordMatch := true }
  | 'o' => { flags with onlyMatching := true }
  | 'q' => { flags with quiet := true }
  | 'h' => { flags with showFilename := some false }
  | 'H' => { flags with showFilename := some true }
  | 'Z' => { flags with nullAfterFilename := true }
  | _ => flags

/-- `parse_grep_short_cluster`. -/
def parseGrepShortCluster (cluster : List Char) (flags : GrepFlags) : GrepFlags :=
  cluster.foldl setGrepLetter flags

/-- The loop of `parse_grep_flags`; the next argument is skipped where it was consumed. -/
def parseGrepArgs : Bool → List (List Char) → GrepFlags → List (List Char) →
    Option (GrepFlags × List (List Char))
  | _, [], flags, rest => some (flags, rest)
  | true, _ :: args, flags, rest => parseGrepArgs false args flags rest
  | false, arg :: args, flags, rest =>
    if arg = ['-', '-'] then some (flags, rest ++ args)
    else
      match parseGrepLongOption arg flags with
      | some flags => parseGrepArgs false args flags rest
      | none =>
        (parseGrepValuedShortOption arg args.head? flags).bind fun consumed =>
          match consumed with
          | some (count, flags) => parseGrepArgs (count == 2) args flags rest
          | none =>
            if arg.head? = some '-' ∧ 1 < (Utf8.encode arg).length then
              parseGrepArgs false args (parseGrepShortCluster arg.tail flags) rest
            else parseGrepArgs false args flags (rest ++ [arg])

/-- `parse_grep_flags`. -/
def parseGrepFlags (argv : List (List Char)) : Option (GrepFlags × List (List Char)) :=
  parseGrepArgs false argv.tail defaultGrepFlags []

/-! ## 3. Searching a line -/

/-- What is outside the repository: the tables behind `str::to_lowercase` (the lower case of a
    character, `Cased` and `Case_Ignorable`), and the compilers of the engine for the two
    syntaxes and for the default one. -/
structure Env where
  lower : Char → List Char
  isCased : Char → Bool
  isCaseIgnorable : Char → Bool
  compileBre : List Char → Option Regex
  compileEre : List Char → Option Regex
  compileDefault : List Char → Option Regex

/-- `case_ignorable_then_cased`. -/
def ignorableThenCased (env : Env) (text : List Char) : Bool :=
  (text.dropWhile env.isCaseIgnorable).head?.any env.isCased

/-- `str::to_lowercase`, `before` being the characters before the text, the nearest one first:
    a `Σ` at the end of a word becomes a `ς`. -/
def toLowercaseFrom (env : Env) (before : List Char) : List Char → List Char
  | [] => []
  | c :: cs =>
    (if c = 'Σ' then
      [if ignorableThenCased env before && !ignorableThenCased env cs then 'ς' else 'σ']
    else env.lower c) ++ toLowercaseFrom env (c :: before) cs

def toLowercase (env : Env) (text : List Char) : List Char := toLowercaseFrom env [] text

/-- `is_word_byte`. -/
def isWordByte (b : Char) : Bool := b.isAlphanum || b == '_'

/-- `word_boundaries_ok`, for a range of the line. -/
def wordBoundariesOk (text : List Char) (start stop : Nat) : Bool :=
  (start == 0 || !(text[start - 1]?).any isWordByte) && !(text[stop]?).any isWordByte

/-- A range that may be taken: a word if `-w` is given. -/
def takesRange (needleLine : List Char) (wordMatch : Bool) (range : Nat × Nat) : Bool :=
  !wordMatch || wordBoundariesOk needleLine range.1 range.2

/-- `str::find`: the offset of the first occurrence. -/
def findStr (text pattern : List Char) : Option Nat :=
  (List.range (text.length + 1)).find? fun i => pattern.isPrefixOf (text.drop i)

/-- `(&line[start..stop])` as a slice; no value is a panic. -/
def sliceAt (line : List Char) (start stop : Nat) : Option (Nat × List Char) :=
  (sliceStr line start stop).map (start, ·)

/-- The regular expression of a pattern. -/
def compile (env : Env) (extended : Bool) (pattern : List Char) : Option Regex :=
  if extended then env.compileEre pattern else env.compileBre pattern

/-- The range that `grep_find_regex_match` takes. -/
def regexRange (env : Env) (needleLine pattern : List Char) (flags : GrepFlags) :
    Option (Nat × Nat) :=
  (compile env flags.extended pattern).bind fun re =>
    (findIterOffsets re needleLine).find? (takesRange needleLine flags.wordMatch)

/-- `grep_find_regex_match`. -/
def grepFindRegexMatch (env : Env) (line needleLine pattern : List Char) (flags : GrepFlags) :
    Option (Option (Nat × List Char)) :=
  match regexRange env needleLine pattern flags with
  | some (start, stop) => (sliceAt line start stop).map some
  | none => some none

/-- The range that `grep_find_literal_match` takes. -/
def literalRange (needleLine pattern : List Char) (wordMatch : Bool) : Option (Nat × Nat) :=
  ((findStr needleLine pattern).map fun start => (start, start + pattern.length)).filter
    (takesRange needleLine wordMatch)

/-- `grep_find_literal_match`. -/
def grepFindLiteralMatch (line needleLine pattern : List Char) (wordMatch : Bool) :
    Option (Option (Nat × List Char)) :=
  match literalRange needleLine pattern wordMatch with
  | some (start, stop) => (sliceAt line start stop).map some
  | none => some none

/-- A text as it is compared. -/
def folded (env : Env) (ignoreCase : Bool) (text : List Char) : List Char :=
  if ignoreCase then toLowercase env text else text

/-- `grep_find_match`. -/
def grepFindMatch (env : Env) (line pattern : List Char) (flags : GrepFlags) :
    Option (Option (Nat × List Char)) :=
  let l := Utf8.encode (folded env flags.ignoreCase line)
  let p := folded env flags.ignoreCase pattern
  let literal := grepFindLiteralMatch (Utf8.encode line) l (Utf8.encode p) flags.wordMatch
  if flags.fixed then literal
  else
    (grepFindRegexMatch env (Utf8.encode line) l p flags).bind fun hit =>
      match hit with
      | some slice => some (some slice)
      | none => literal

/-- What the search in a pipeline reads of `StreamingGrepFlags`. -/
structure StreamingGrepFlags where
  ignoreCase : Bool
  wordMatch : Bool
  extended : Bool
  fixed : Bool
  deriving DecidableEq, Repr

/-- A range that may be taken in a pipeline, where `_` is no part of a word. -/
def takesStreamingRange (needleLine : List Char) (wordMatch : Bool) (range : Nat × Nat) : Bool :=
  !wordMatch || ((range.1 == 0 || !(needleLine[range.1 - 1]?).any Char.isAlphanum) &&
    !(needleLine[range.2]?).any Char.isAlphanum)

/-- The range that `streaming_grep_find_match` takes. -/
def streamingRange (needleLine pattern : List Char) (wordMatch : Bool) : Option (Nat × Nat) :=
  ((findStr needleLine pattern).map fun start => (start, start + pattern.length)).filter
    (takesStreamingRange needleLine wordMatch)

/-- `streaming_grep_find_match`. -/
def streamingGrepFindMatch (env : Env) (line pattern : List Char) (flags : StreamingGrepFlags) :
    Option (Option (Nat × List Char)) :=
  match streamingRange (Utf8.encode (folded env flags.ignoreCase line))
      (Utf8.encode (folded env flags.ignoreCase pattern)) flags.wordMatch with
  | some (start, stop) => (sliceAt (Utf8.encode line) start stop).map some
  | none => some none

/-- The patterns that `streaming_grep_match_pattern` tries. -/
def alternatives (flags : StreamingGrepFlags) (pattern : List Char) : List (List Char) :=
  if flags.extended && pattern.contains '|' then (pattern.splitOn '|').map trim else [pattern]

/-! ## 4. What is to be printed -/

/-- The pattern matches the compared line at a range: as a regular expression where it has
    one, and letter by letter otherwise. -/
def MatchesAt (compiled : Option Regex) (needleLine pattern : List Char) (range : Nat × Nat) :
    Prop :=
  match compiled with
  | some re => range ∈ findIterOffsets re needleLine
  | none => range.2 = range.1 + pattern.length ∧ pattern <+: needleLine.drop range.1

/-- The regular expression that `grep` has for a pattern. -/
def regexFor (env : Env) (flags : GrepFlags) (pattern : List Char) : Option Regex :=
  if flags.fixed then none else compile env flags.extended pattern

/-- Where `grep` finds the pattern in the compared line. -/
def GrepHits (env : Env) (flags : GrepFlags) (line pattern : List Char) (range : Nat × Nat) :
    Prop :=
  MatchesAt (regexFor env flags (folded env flags.ignoreCase pattern))
    (Utf8.encode (folded env flags.ignoreCase line))
    (Utf8.encode (folded env flags.ignoreCase pattern)) range

/-- Where `grep` in a pipeline finds the pattern in the compared line. -/
def StreamingHits (env : Env) (flags : StreamingGrepFlags) (line pattern : List Char)
    (range : Nat × Nat) : Prop :=
  ∃ p ∈ alternatives flags (folded env flags.ignoreCase pattern),
    MatchesAt (if flags.fixed then none else env.compileDefault p)
      (Utf8.encode (folded env flags.ignoreCase line)) (Utf8.encode p) range

/-- A range of the line, between characters, which becomes a range with a property when the
    line is folded. -/
def CutAt (env : Env) (ignoreCase : Bool) (line : List Char) (Hit : Nat × Nat → Prop)
    (range : Nat × Nat) (text : List Char) : Prop :=
  ∃ before after, line = before ++ text ++ after ∧ (Utf8.encode before).length = range.1 ∧
    (Utf8.encode (before ++ text)).length = range.2 ∧
      Hit ((Utf8.encode (folded env ignoreCase before)).length,
        (Utf8.encode (folded env ignoreCase (before ++ text))).length)

/-- The search returns, and a slice that it finds is one of the line that the pattern matches,
    cut between characters. -/
def PrintsMatch (env : Env) (ignoreCase : Bool) (line : List Char) (Hit : Nat × Nat → Prop)
    (result : Option (Option (Nat × List Char))) : Prop :=
  ∃ printed, result = some printed ∧ ∀ slice, printed = some slice →
    ∃ text stop, slice.2 = Utf8.encode text ∧
      CutAt env ignoreCase line Hit (slice.1, stop) text

/-! ## 5. When it is the right one -/

/-- The first match of a regular expression that may be taken. -/
def FirstMatch (re : Regex) (text : List Char) (takes : Nat × Nat → Bool) (range : Nat × Nat) :
    Prop :=
  ∃ earlier later, findIterOffsets re text = earlier ++ range :: later ∧ takes range = true ∧
    ∀ r ∈ earlier, takes r = false

/-- The first place where the letters of a pattern stand, if it may be taken. -/
def FirstPlace (text pattern : List Char) (takes : Nat × Nat → Bool) (range : Nat × Nat) : Prop :=
  range.2 = range.1 + pattern.length ∧ pattern <+: text.drop range.1 ∧
    (∀ i < range.1, ¬ pattern <+: text.drop i) ∧ takes range = true

/-- The range lies between characters of the line, and stays where it is when the line is
    folded. -/
def InPlace (env : Env) (ignoreCase : Bool) (line : List Char) (range : Nat × Nat) : Prop :=
  ∃ text, CutAt env ignoreCase line (· = range) range text

/-- The first match of the regular expression is in place, and where there is none the letters
    of the pattern do not stand in the line; without a regular expression, under `-i`, the
    letters are in place where they stand first. -/
def ReadsMatch (env : Env) (line pattern : List Char) (flags : GrepFlags) : Prop :=
  let l := Utf8.encode (folded env flags.ignoreCase line)
  let p := Utf8.encode (folded env flags.ignoreCase pattern)
  match regexFor env flags (folded env flags.ignoreCase pattern) with
  | some re =>
    (∀ range, FirstMatch re l (takesRange l flags.wordMatch) range →
      InPlace env flags.ignoreCase line range) ∧
    ((∀ range ∈ findIterOffsets re l, takesRange l flags.wordMatch range = false) →
      ∀ range, ¬ FirstPlace l p (takesRange l flags.wordMatch) range)
  | none => flags.ignoreCase = true → ∀ range,
      FirstPlace l p (takesRange l flags.wordMatch) range → InPlace env flags.ignoreCase line range

/-- Where the letters of the pattern stand first, the pattern matches, and under `-i` the range
    is in place. -/
def ReadsLetters (env : Env) (line pattern : List Char) (flags : StreamingGrepFlags) : Prop :=
  let l := Utf8.encode (folded env flags.ignoreCase line)
  let p := Utf8.encode (folded env flags.ignoreCase pattern)
  ∀ range, FirstPlace l p (takesStreamingRange l flags.wordMatch) range →
    StreamingHits env flags line pattern range ∧
      (flags.ignoreCase = true → InPlace env flags.ignoreCase line range)

/-- The characters of the line have lower cases of as many bytes. -/
def KeepsLengths (env : Env) (ignoreCase : Bool) (line : List Char) : Prop :=
  ignoreCase = true → ∀ c ∈ line, c ≠ 'Σ' →
    (Utf8.encode (env.lower c)).length = (Utf8.encodeChar c).length

/-! ## 6. Slices of a line -/

theorem bytes_between (before text after : List Char) :
    ((Utf8.encode (before ++ text ++ after)).drop (Utf8.encode before).length).take
      ((Utf8.encode (before ++ text)).length - (Utf8.encode before).length) = Utf8.encode text := by
  simp only [Utf8.encode_append, List.append_assoc, List.drop_left, List.length_append,
    Nat.add_sub_cancel_left, List.take_left]

theorem sliceAt_eq_some_iff {line : List Char} {start stop : Nat} {slice : Nat × List Char} :
    sliceAt (Utf8.encode line) start stop = some slice ↔
      ∃ before text after, line = before ++ text ++ after ∧
        (Utf8.encode before).length = start ∧ (Utf8.encode (before ++ text)).length = stop ∧
          slice = (start, Utf8.encode text) := by
  constructor
  · intro h
    rcases Option.map_eq_some_iff.mp h with ⟨bytes, hbytes, rfl⟩
    rcases sliceStr_eq_some hbytes with ⟨hle, hlen, hstart, hstop, rfl⟩
    rcases (Utf8.isCharBoundary_drop_iff (Nat.le_trans hle hlen)).mp hstart with ⟨before, hb, rfl⟩
    rcases (Utf8.isCharBoundary_drop_iff hlen).mp hstop with ⟨upto, ⟨after, rfl⟩, rfl⟩
    have hinit : before <+: upto := by
      rcases List.prefix_or_prefix_of_prefix hb (List.prefix_append upto after) with hp | hp
      · exact hp
      · rcases hp with ⟨more, rfl⟩
        rw [Utf8.encode_append, List.length_append] at hle
        have hmore := Utf8.length_le_encode more
        have hnil : more = [] := List.eq_nil_of_length_eq_zero (by omega)
        rw [hnil, List.append_nil]
    rcases hinit with ⟨text, rfl⟩
    refine ⟨before, text, after, rfl, rfl, rfl, ?_⟩
    rw [bytes_between]
  · rintro ⟨before, text, after, rfl, rfl, rfl, rfl⟩
    have hbefore : (Utf8.encode before).length ≤ (Utf8.encode (before ++ text)).length := by
      rw [Utf8.encode_append, List.length_append]
      exact Nat.le_add_right _ _
    have hlen : (Utf8.encode (before ++ text)).length ≤
        (Utf8.encode (before ++ text ++ after)).length := by
      rw [Utf8.encode_append (before ++ text) after, List.length_append]
      exact Nat.le_add_right _ _
    have hstart := (Utf8.isCharBoundary_drop_iff (Nat.le_trans hbefore hlen)).mpr
      ⟨before, ⟨text ++ after, by rw [List.append_assoc]⟩, rfl⟩
    have hstop := (Utf8.isCharBoundary_drop_iff hlen).mpr ⟨before ++ text, ⟨after, rfl⟩, rfl⟩
    rw [sliceAt, sliceStr_of_boundaries hbefore hlen hstart hstop, bytes_between]
    rfl

/-- The slice at a range is right exactly when the range is cut between characters and is one
    of the pattern's matches when the line is folded. -/
theorem printsMatch_slice_iff (env : Env) (ignoreCase : Bool) (line : List Char)
    (Hit : Nat × Nat → Prop) (start stop : Nat) :
    PrintsMatch env ignoreCase line Hit ((sliceAt (Utf8.encode line) start stop).map some) ↔
      ∃ text, CutAt env ignoreCase line Hit (start, stop) text := by
  constructor
  · rintro ⟨printed, hreturn, hright⟩
    rcases Option.map_eq_some_iff.mp hreturn with ⟨slice, hslice, rfl⟩
    rcases sliceAt_eq_some_iff.mp hslice with ⟨before, text, after, hline, hstart, hstop, rfl⟩
    rcases hright _ rfl with ⟨text', stop', htext, before', after', hline', hstart', -, hhit⟩
    cases Utf8.encode_injective htext
    have hbefore : before = before' := by
      have hinLine : Utf8.encode before <+: Utf8.encode line :=
        Utf8.encode_isPrefix_iff.mpr ⟨text ++ after, by rw [hline, List.append_assoc]⟩
      have hinLine' : Utf8.encode before' <+: Utf8.encode line :=
        Utf8.encode_isPrefix_iff.mpr ⟨text ++ after', by rw [hline', List.append_assoc]⟩
      have hbytes : Utf8.encode before <+: Utf8.encode before' :=
        List.prefix_of_prefix_length_le hinLine hinLine' (Nat.le_of_eq (hstart.trans hstart'.symm))
      have heq := hbytes.eq_of_length (hstart.trans hstart'.symm)
      exact Utf8.encode_injective heq
    subst hbefore
    exact ⟨text, before, after, hline, hstart, hstop, hhit⟩
  · rintro ⟨text, before, after, hline, hstart, hstop, hhit⟩
    have hslice := sliceAt_eq_some_iff.mpr ⟨before, text, after, hline, hstart, hstop, rfl⟩
    refine ⟨some (start, Utf8.encode text), ?_, ?_⟩
    · rw [hslice]
      rfl
    · intro slice h
      cases h
      exact ⟨text, stop, rfl, before, after, hline, hstart, hstop, hhit⟩

theorem printsMatch_none (env : Env) (ignoreCase : Bool) (line : List Char)
    (Hit : Nat × Nat → Prop) : PrintsMatch env ignoreCase line Hit (some none) :=
  ⟨none, rfl, fun slice h => (by cases h)⟩

/-! ## 7. What `-o` prints -/

section Printing

variable (env : Env) (line pattern : List Char) (flags : GrepFlags)

/-- The range that `grep_find_match` takes. -/
def hitRange : Option (Nat × Nat) :=
  let l := Utf8.encode (folded env flags.ignoreCase line)
  let p := folded env flags.ignoreCase pattern
  let literal := literalRange l (Utf8.encode p) flags.wordMatch
  if flags.fixed then literal else (regexRange env l p flags).or literal

variable {env line pattern flags}

theorem grepFindMatch_of_range {start stop : Nat}
    (h : hitRange env line pattern flags = some (start, stop)) :
    grepFindMatch env line pattern flags =
      (sliceAt (Utf8.encode line) start stop).map some := by
  unfold hitRange at h
  unfold grepFindMatch grepFindLiteralMatch grepFindRegexMatch
  dsimp only at h ⊢
  split
  · next hfixed =>
    rw [if_pos hfixed] at h
    rw [h]
  · next hfixed =>
    rw [if_neg hfixed] at h
    cases hregex : regexRange env (Utf8.encode (folded env flags.ignoreCase line))
        (folded env flags.ignoreCase pattern) flags with
    | none =>
      rw [hregex, Option.none_or] at h
      rw [h]
      rfl
    | some range =>
      rw [hregex, Option.some_or] at h
      cases h
      dsimp only
      cases sliceAt (Utf8.encode line) start stop <;> rfl

theorem grepFindMatch_of_none (h : hitRange env line pattern flags = none) :
    grepFindMatch env line pattern flags = some none := by
  unfold hitRange at h
  unfold grepFindMatch grepFindLiteralMatch grepFindRegexMatch
  dsimp only at h ⊢
  split
  · next hfixed =>
    rw [if_pos hfixed] at h
    rw [h]
  · next hfixed =>
    rw [if_neg hfixed, Option.or_eq_none_iff] at h
    rw [h.1, h.2]
    rfl

theorem hitRange_of_regex {re : Regex}
    (h : regexFor env flags (folded env flags.ignoreCase pattern) = some re) :
    hitRange env line pattern flags =
      ((findIterOffsets re (Utf8.encode (folded env flags.ignoreCase line))).find?
        (takesRange (Utf8.encode (folded env flags.ignoreCase line)) flags.wordMatch)).or
      (literalRange (Utf8.encode (folded env flags.ignoreCase line))
        (Utf8.encode (folded env flags.ignoreCase pattern)) flags.wordMatch) := by
  unfold regexFor at h
  split at h
  · cases h
  · next hfixed =>
    unfold hitRange regexRange
    dsimp only
    rw [if_neg hfixed, h]
    rfl

theorem hitRange_of_letters (h : regexFor env flags (folded env flags.ignoreCase pattern) = none) :
    hitRange env line pattern flags =
      literalRange (Utf8.encode (folded env flags.ignoreCase line))
        (Utf8.encode (folded env flags.ignoreCase pattern)) flags.wordMatch := by
  unfold hitRange regexRange
  unfold regexFor at h
  dsimp only
  split
  · rfl
  · next hfixed =>
    rw [if_neg hfixed] at h
    rw [h]
    rfl

theorem findStr_eq_some_iff {text pattern : List Char} {start : Nat} :
    findStr text pattern = some start ↔
      pattern <+: text.drop start ∧ ∀ i < start, ¬ pattern <+: text.drop i := by
  have hbound (h : pattern <+: text.drop start) (hfirst : ∀ i < start, ¬ pattern <+: text.drop i) :
      start < text.length + 1 := by
    by_contra hlt
    have hnil : text.drop start = [] := List.drop_eq_nil_of_le (by omega)
    rw [hnil, List.prefix_nil] at h
    exact hfirst text.length (by omega) (by rw [h]; exact List.nil_prefix)
  unfold findStr
  simp only [List.find?_range_eq_some, List.isPrefixOf_iff_prefix, List.mem_range,
    Bool.not_eq_true', Bool.eq_false_iff, ne_eq]
  constructor
  · exact fun h => ⟨h.1, h.2.2⟩
  · exact fun h => ⟨h.1, hbound h.1 h.2, h.2⟩

theorem firstPlace_iff {text pattern : List Char} {takes : Nat × Nat → Bool}
    {range : Nat × Nat} :
    ((findStr text pattern).map fun start => (start, start + pattern.length)).filter takes =
        some range ↔ FirstPlace text pattern takes range := by
  rw [Option.filter_eq_some_iff, Option.map_eq_some_iff]
  constructor
  · rintro ⟨⟨start, hstart, rfl⟩, htakes⟩
    have hplace := findStr_eq_some_iff.mp hstart
    exact ⟨rfl, hplace.1, hplace.2, htakes⟩
  · rintro ⟨hstop, hplace, hfirst, htakes⟩
    exact ⟨⟨range.1, findStr_eq_some_iff.mpr ⟨hplace, hfirst⟩, Prod.ext rfl hstop.symm⟩, htakes⟩

theorem firstMatch_iff {re : Regex} {text : List Char} {takes : Nat × Nat → Bool}
    {range : Nat × Nat} :
    (findIterOffsets re text).find? takes = some range ↔ FirstMatch re text takes range := by
  rw [List.find?_eq_some_iff_append]
  constructor
  · rintro ⟨htakes, earlier, later, hall, hearlier⟩
    exact ⟨earlier, later, hall, htakes, fun r hr => by simpa using hearlier r hr⟩
  · rintro ⟨earlier, later, hall, htakes, hearlier⟩
    exact ⟨htakes, earlier, later, hall, fun r hr => by simp [hearlier r hr]⟩

/-- The letters of a pattern stand between the characters of a line. -/
theorem inPlace_of_firstPlace {takes : Nat × Nat → Bool} {range : Nat × Nat}
    (h : FirstPlace (Utf8.encode line) (Utf8.encode pattern) takes range) :
    InPlace env false line range := by
  rcases h with ⟨hstop, hplace, hfirst, -⟩
  have hstart : ∃ before, before <+: line ∧ (Utf8.encode before).length = range.1 := by
    by_cases hnil : pattern = []
    · subst hnil
      have hzero : range.1 = 0 := by
        by_contra hne
        exact hfirst 0 (Nat.pos_of_ne_zero hne) List.nil_prefix
      exact ⟨[], List.nil_prefix, hzero.symm⟩
    · have hne : Utf8.encode pattern ≠ [] := by
        intro henc
        exact hnil (Utf8.encode_injective (henc.trans Utf8.encode_nil.symm))
      have hle : range.1 ≤ (Utf8.encode line).length := by
        by_contra hlt
        rw [List.drop_eq_nil_of_le (by omega), List.prefix_nil] at hplace
        exact hne hplace
      exact (Utf8.isCharBoundary_drop_iff hle).mp (Utf8.isCharBoundary_of_prefix hnil hplace)
  rcases hstart with ⟨before, ⟨rest, rfl⟩, hbefore⟩
  rw [Utf8.encode_append, ← hbefore, List.drop_left, Utf8.encode_isPrefix_iff] at hplace
  rcases hplace with ⟨after, rfl⟩
  have hend : (Utf8.encode (before ++ pattern)).length = range.2 := by
    rw [Utf8.encode_append, List.length_append, hbefore, hstop]
  exact ⟨pattern, before, after, (List.append_assoc ..).symm, hbefore, hend,
    Prod.ext hbefore hend⟩

theorem length_toLowercaseFrom {before text : List Char}
    (h : ∀ c ∈ text, c ≠ 'Σ' → (Utf8.encode (env.lower c)).length = (Utf8.encodeChar c).length) :
    (Utf8.encode (toLowercaseFrom env before text)).length = (Utf8.encode text).length := by
  induction text generalizing before with
  | nil => rfl
  | cons c cs ih =>
    rw [toLowercaseFrom, Utf8.encode_append, Utf8.encode_cons, List.length_append,
      List.length_append, ih fun d hd => h d (.tail _ hd)]
    congr 1
    split
    · next hsigma =>
      subst hsigma
      split
      · rfl
      · rfl
    · next hsigma => exact h c (.head _) hsigma

/-- Characters that keep their lengths keep their places. -/
theorem inPlace_of_cutAt {ignoreCase : Bool} {Hit : Nat × Nat → Prop} {range : Nat × Nat}
    {text : List Char} (hkeeps : KeepsLengths env ignoreCase line)
    (h : CutAt env ignoreCase line Hit range text) :
    Hit range ∧ InPlace env ignoreCase line range := by
  rcases h with ⟨before, after, rfl, hstart, hstop, hhit⟩
  have hlength : ∀ u, u <+: before ++ text ++ after →
      (Utf8.encode (folded env ignoreCase u)).length = (Utf8.encode u).length := by
    intro u hu
    unfold folded
    split
    · next hcase =>
      exact length_toLowercaseFrom fun c hc hsigma => hkeeps hcase c (hu.subset hc) hsigma
    · rfl
  have himage : ((Utf8.encode (folded env ignoreCase before)).length,
      (Utf8.encode (folded env ignoreCase (before ++ text))).length) = range := by
    rw [hlength _ ⟨text ++ after, (List.append_assoc ..).symm⟩, hlength _ ⟨after, rfl⟩]
    exact Prod.ext hstart hstop
  rw [himage] at hhit
  exact ⟨hhit, text, before, after, rfl, hstart, hstop, himage⟩

theorem cutAt_of_inPlace {ignoreCase : Bool} {Hit : Nat × Nat → Prop} {range : Nat × Nat}
    (hplace : InPlace env ignoreCase line range) (hhit : Hit range) :
    ∃ text, CutAt env ignoreCase line Hit range text := by
  rcases hplace with ⟨text, before, after, hline, hstart, hstop, himage⟩
  exact ⟨text, before, after, hline, hstart, hstop, by rwa [himage]⟩

theorem printsMatch_iff_range {Hit : Nat × Nat → Prop} :
    PrintsMatch env flags.ignoreCase line Hit (grepFindMatch env line pattern flags) ↔
      ∀ range, hitRange env line pattern flags = some range →
        ∃ text, CutAt env flags.ignoreCase line Hit range text := by
  cases h : hitRange env line pattern flags with
  | none =>
    rw [grepFindMatch_of_none h]
    exact iff_of_true (printsMatch_none ..) fun range hrange => (by cases hrange)
  | some range =>
    rw [grepFindMatch_of_range h, printsMatch_slice_iff]
    exact ⟨fun hcut range hrange => (by cases hrange; exact hcut), fun hall => hall _ rfl⟩

/-- What `grep -o` prints for a line and a pattern. -/
theorem grepFindMatch_prints (h : ReadsMatch env line pattern flags) :
    PrintsMatch env flags.ignoreCase line (GrepHits env flags line pattern)
      (grepFindMatch env line pattern flags) := by
  rw [printsMatch_iff_range]
  intro range hrange
  unfold ReadsMatch at h
  dsimp only at h
  cases hregex : regexFor env flags (folded env flags.ignoreCase pattern) with
  | some re =>
    rw [hregex] at h
    rw [hitRange_of_regex hregex, Option.or_eq_some_iff] at hrange
    rcases hrange with hmatch | ⟨hnone, hletters⟩
    · refine cutAt_of_inPlace (h.1 range (firstMatch_iff.mp hmatch)) ?_
      unfold GrepHits
      rw [hregex]
      exact List.mem_of_find?_eq_some hmatch
    · refine absurd (firstPlace_iff.mp hletters) (h.2 (fun r hr => ?_) range)
      simpa using List.find?_eq_none.mp hnone r hr
  | none =>
    rw [hregex] at h
    rw [hitRange_of_letters hregex] at hrange
    have hplace := firstPlace_iff.mp hrange
    have hin : InPlace env flags.ignoreCase line range := by
      cases hcase : flags.ignoreCase with
      | true => exact hcase ▸ h hcase range hplace
      | false =>
        rw [hcase] at hplace
        exact inPlace_of_firstPlace hplace
    refine cutAt_of_inPlace hin ?_
    unfold GrepHits
    rw [hregex]
    exact ⟨hplace.1, hplace.2.1⟩

/-- Where the characters of the line keep their lengths, only what the condition allows is
    right. -/
theorem readsMatch_of_prints (hkeeps : KeepsLengths env flags.ignoreCase line)
    (h : PrintsMatch env flags.ignoreCase line (GrepHits env flags line pattern)
      (grepFindMatch env line pattern flags)) : ReadsMatch env line pattern flags := by
  rw [printsMatch_iff_range] at h
  have hright : ∀ range, hitRange env line pattern flags = some range →
      GrepHits env flags line pattern range ∧ InPlace env flags.ignoreCase line range := by
    intro range hrange
    rcases h range hrange with ⟨text, hcut⟩
    exact inPlace_of_cutAt hkeeps hcut
  unfold ReadsMatch
  dsimp only
  cases hregex : regexFor env flags (folded env flags.ignoreCase pattern) with
  | some re =>
    refine ⟨fun range hmatch => ?_, fun hnone range hplace => ?_⟩
    · refine (hright range ?_).2
      rw [hitRange_of_regex hregex, firstMatch_iff.mpr hmatch, Option.some_or]
    · have hfind : (findIterOffsets re (Utf8.encode (folded env flags.ignoreCase line))).find?
          (takesRange (Utf8.encode (folded env flags.ignoreCase line)) flags.wordMatch) = none := by
        rw [List.find?_eq_none]
        intro r hr
        rw [hnone r hr]
        exact Bool.false_ne_true
      have hhit := (hright range (by
        rw [hitRange_of_regex hregex, hfind, Option.none_or]
        exact firstPlace_iff.mpr hplace)).1
      unfold GrepHits at hhit
      rw [hregex] at hhit
      have hno := hnone range hhit
      rw [hplace.2.2.2] at hno
      cases hno
  | none =>
    intro _ range hplace
    refine (hright range ?_).2
    rw [hitRange_of_letters hregex]
    exact firstPlace_iff.mpr hplace

section Streaming

variable {sflags : StreamingGrepFlags}

theorem streaming_printsMatch_iff {Hit : Nat × Nat → Prop} :
    PrintsMatch env sflags.ignoreCase line Hit (streamingGrepFindMatch env line pattern sflags) ↔
      ∀ range, FirstPlace (Utf8.encode (folded env sflags.ignoreCase line))
          (Utf8.encode (folded env sflags.ignoreCase pattern))
          (takesStreamingRange (Utf8.encode (folded env sflags.ignoreCase line))
            sflags.wordMatch) range →
        ∃ text, CutAt env sflags.ignoreCase line Hit range text := by
  simp only [← firstPlace_iff]
  unfold streamingGrepFindMatch streamingRange
  cases Option.filter _ _ with
  | none => exact iff_of_true (printsMatch_none ..) fun range hrange => (by cases hrange)
  | some range =>
    dsimp only
    rw [printsMatch_slice_iff]
    exact ⟨fun hcut range hrange => (by cases hrange; exact hcut), fun hall => hall _ rfl⟩

theorem streamingGrepFindMatch_prints (h : ReadsLetters env line pattern sflags) :
    PrintsMatch env sflags.ignoreCase line (StreamingHits env sflags line pattern)
      (streamingGrepFindMatch env line pattern sflags) := by
  rw [streaming_printsMatch_iff]
  intro range hplace
  have hread := h range hplace
  have hin : InPlace env sflags.ignoreCase line range := by
    cases hcase : sflags.ignoreCase with
    | true => exact hcase ▸ hread.2 hcase
    | false =>
      rw [hcase] at hplace
      exact inPlace_of_firstPlace hplace
  exact cutAt_of_inPlace hin hread.1

theorem readsLetters_of_prints (hkeeps : KeepsLengths env sflags.ignoreCase line)
    (h : PrintsMatch env sflags.ignoreCase line (StreamingHits env sflags line pattern)
      (streamingGrepFindMatch env line pattern sflags)) :
    ReadsLetters env line pattern sflags := by
  intro range hplace
  rcases streaming_printsMatch_iff.mp h range hplace with ⟨text, hcut⟩
  have hright := inPlace_of_cutAt hkeeps hcut
  exact ⟨hright.1, fun _ => hright.2⟩

end Streaming

end Printing

/-! ## 8. The arguments -/

/-- The place behind the second byte is inside a character. -/
def CutsCharacter (arg : List Char) : Prop :=
  ∃ c rest, arg = c :: rest ∧
    (0x800 ≤ c.toNat ∨ c.toNat < 0x80 ∧ ∃ d rest', rest = d :: rest' ∧ 0x80 ≤ d.toNat)

theorem two_lt_length_encodeChar_iff (c : Char) :
    2 < (Utf8.encodeChar c).length ↔ 0x800 ≤ c.toNat := by
  unfold Utf8.encodeChar
  dsimp only
  split
  · next h => exact iff_of_false (by decide : ¬ 2 < 1) (by omega)
  · split
    · next h => exact iff_of_false (by decide : ¬ 2 < 2) (by omega)
    · next h =>
      split
      · exact iff_of_true (by decide : 2 < 3) (by omega)
      · exact iff_of_true (by decide : 2 < 4) (by omega)

theorem length_encodeChar_eq_one_iff (c : Char) :
    (Utf8.encodeChar c).length = 1 ↔ c.toNat < 0x80 := by
  constructor
  · intro h
    by_contra hwide
    have := Utf8.one_lt_length_encodeChar (Nat.le_of_not_lt hwide)
    omega
  · intro h
    rw [Utf8.encodeChar_of_ascii h]
    rfl

theorem length_encode_cons (c : Char) (cs : List Char) :
    (Utf8.encode (c :: cs)).length = (Utf8.encodeChar c).length + (Utf8.encode cs).length := by
  rw [Utf8.encode_cons, List.length_append]

theorem length_encodeChar_pos (c : Char) : 0 < (Utf8.encodeChar c).length :=
  List.length_pos_of_ne_nil (Utf8.encodeChar_ne_nil c)

/-- Two bytes are two characters of one byte or one of two. -/
theorem not_cutsCharacter_iff {arg : List Char} (hlen : 2 < (Utf8.encode arg).length) :
    ¬ CutsCharacter arg ↔ ∃ u, u <+: arg ∧ (Utf8.encode u).length = 2 := by
  cases arg with
  | nil => exact absurd hlen (by decide)
  | cons c rest =>
    have hpos := length_encodeChar_pos c
    have hthree := two_lt_length_encodeChar_iff c
    have hone := length_encodeChar_eq_one_iff c
    rw [length_encode_cons] at hlen
    constructor
    · intro hcuts
      have hsmall : ¬ 0x800 ≤ c.toNat := fun h => hcuts ⟨c, rest, rfl, .inl h⟩
      by_cases hc : c.toNat < 0x80
      · cases rest with
        | nil =>
          rw [hone.mpr hc] at hlen
          exact absurd hlen (by decide)
        | cons d rest =>
          have hd : d.toNat < 0x80 := by
            by_contra hwide
            exact hcuts ⟨c, d :: rest, rfl, .inr ⟨hc, d, rest, rfl, Nat.le_of_not_lt hwide⟩⟩
          refine ⟨[c, d], ⟨rest, rfl⟩, ?_⟩
          rw [length_encode_cons, length_encode_cons, hone.mpr hc,
            (length_encodeChar_eq_one_iff d).mpr hd]
          rfl
      · refine ⟨[c], ⟨rest, rfl⟩, ?_⟩
        rw [length_encode_cons, Utf8.encode_nil, List.length_nil]
        omega
    · rintro ⟨u, hu, hlength⟩ ⟨c', rest', heq, hcase⟩
      cases heq
      cases u with
      | nil => cases hlength
      | cons a u =>
        rw [List.cons_prefix_cons] at hu
        rcases hu with ⟨rfl, hu⟩
        rw [length_encode_cons] at hlength
        rcases hcase with hbig | ⟨hc, d, rest', rfl, hd⟩
        · have := hthree.mpr hbig
          omega
        · rw [hone.mpr hc] at hlength
          cases u with
          | nil => cases hlength
          | cons b u =>
            rw [List.cons_prefix_cons] at hu
            rcases hu with ⟨rfl, -⟩
            rw [length_encode_cons] at hlength
            have := Utf8.one_lt_length_encodeChar hd
            omega

/-- The options whose value is the next argument. -/
def takesValue (arg : List Char) : Bool :=
  match arg with
  | ['-', c] => c == 'e' || c == 'f' || c == 'A' || c == 'B' || c == 'C' || c == 'm'
  | _ => false

/-- The long options. -/
def isGrepLongOption (arg : List Char) : Bool :=
  "--include=".toList.isPrefixOf arg || "--exclude=".toList.isPrefixOf arg ||
    arg == "--null".toList || arg == "--color".toList || "--color=".toList.isPrefixOf arg

/-- The arguments that are split behind their second byte: those before `--` that are neither
    long options nor values. -/
def splitArgs : Bool → List (List Char) → List (List Char)
  | _, [] => []
  | true, _ :: args => splitArgs false args
  | false, arg :: args =>
    if arg = ['-', '-'] then []
    else if isGrepLongOption arg then splitArgs false args
    else arg :: splitArgs (takesValue arg && args.head?.isSome) args

theorem parseGrepLongOption_isSome (arg : List Char) (flags : GrepFlags) :
    (parseGrepLongOption arg flags).isSome = isGrepLongOption arg := by
  unfold parseGrepLongOption isGrepLongOption stripPrefix
  cases "--include=".toList.isPrefixOf arg with
  | true => rfl
  | false =>
    cases "--exclude=".toList.isPrefixOf arg with
    | true => rfl
    | false =>
      by_cases hnull : arg = "--null".toList
      · rw [if_neg Bool.false_ne_true, if_neg Bool.false_ne_true]
        dsimp only
        rw [if_pos hnull, beq_iff_eq.mpr hnull]
        rfl
      · rw [if_neg Bool.false_ne_true, if_neg Bool.false_ne_true]
        dsimp only
        rw [if_neg hnull, beq_eq_false_iff_ne.mpr hnull]
        by_cases hcolor : arg = "--color".toList
        · rw [if_pos (.inl hcolor), beq_iff_eq.mpr hcolor]
          rfl
        · rw [beq_eq_false_iff_ne.mpr hcolor]
          cases hvalue : "--color=".toList.isPrefixOf arg with
          | true =>
            rw [if_pos (.inr rfl)]
            rfl
          | false =>
            rw [if_neg (by simp only [hcolor, Bool.false_eq_true, or_self, not_false_eq_true])]
            rfl

theorem setNextValue_isSome (arg next : List Char) (flags : GrepFlags) :
    (setNextValue arg next flags).isSome = takesValue arg := by
  unfold setNextValue takesValue
  split <;> try rfl
  split
  · next h1 h2 h3 h4 h5 h6 _ c =>
    simp only [Option.isSome_none]
    symm
    simp only [Bool.or_eq_false_iff, beq_eq_false_iff_ne]
    refine ⟨⟨⟨⟨⟨?_, ?_⟩, ?_⟩, ?_⟩, ?_⟩, ?_⟩ <;> rintro rfl <;> simp_all
  · rfl

theorem length_encode_of_takesValue {arg : List Char} (h : takesValue arg = true) :
    (Utf8.encode arg).length = 2 := by
  unfold takesValue at h
  split at h
  · next c =>
    simp only [Bool.or_eq_true, beq_iff_eq] at h
    rcases h with ((((rfl | rfl) | rfl) | rfl) | rfl) | rfl <;> decide
  · cases h

/-- A valued option is read exactly when the argument can be split, and consumes the next
    argument exactly when it takes a value. -/
theorem valuedShortOption_isSome_iff (arg : List Char) (next : Option (List Char))
    (flags : GrepFlags) :
    (parseGrepValuedShortOption arg next flags).isSome = true ↔ ¬ CutsCharacter arg := by
  unfold parseGrepValuedShortOption
  dsimp only
  split
  · next hlen =>
    rw [not_cutsCharacter_iff hlen, ← Utf8.isCharBoundary_drop_iff (by omega)]
    constructor
    · intro h
      rcases Option.isSome_iff_exists.mp h with ⟨_, h⟩
      rcases Option.bind_eq_some_iff.mp h with ⟨letter, hletter, -⟩
      exact (sliceStr_eq_some hletter).2.2.2.1
    · intro h
      have hletter : sliceStr (Utf8.encode arg) 0 2 = some (((Utf8.encode arg).drop 0).take 2) :=
        sliceStr_of_boundaries (Nat.zero_le 2) (by omega) (Utf8.isCharBoundary_encode arg) h
      rw [hletter, sliceStr_tail (by omega) h]
      rfl
  · next hlen =>
    refine iff_of_true rfl ?_
    rintro ⟨c, rest, rfl, hcase⟩
    rw [length_encode_cons] at hlen
    rcases hcase with hbig | ⟨hc, d, rest', rfl, hd⟩
    · have := (two_lt_length_encodeChar_iff c).mpr hbig
      omega
    · have := length_encodeChar_pos c
      have := Utf8.one_lt_length_encodeChar hd
      rw [length_encode_cons] at hlen
      omega

theorem valuedShortOption_consumed {arg : List Char} {next : Option (List Char)}
    {flags : GrepFlags} {consumed : Option (Nat × GrepFlags)}
    (h : parseGrepValuedShortOption arg next flags = some consumed) :
    consumed.any (·.1 == 2) = (takesValue arg && next.isSome) := by
  have hseparated : ((next.bind fun value => setNextValue arg value flags).map (2, ·)).any
      (·.1 == 2) = (takesValue arg && next.isSome) := by
    cases next with
    | none => simp
    | some value =>
      have hset := setNextValue_isSome arg value flags
      cases hvalue : setNextValue arg value flags with
      | none | some flags' =>
        rw [hvalue] at hset
        rw [← hset, Option.bind_some, hvalue]
        rfl
  unfold parseGrepValuedShortOption at h
  dsimp only at h
  split at h
  · next hlen =>
    rcases Option.bind_eq_some_iff.mp h with ⟨letter, hletter, h⟩
    rcases Option.map_eq_some_iff.mp h with ⟨rest, hrest, rfl⟩
    split
    · have htakes : takesValue arg = false := by
        rw [← Bool.not_eq_true]
        intro htakes
        rw [length_encode_of_takesValue htakes] at hlen
        exact absurd hlen (by decide)
      rw [htakes]
      cases parseUsize (Utf8.decode rest) <;> rfl
    · exact hseparated
  · cases h
    exact hseparated

theorem parseGrepArgs_isSome_iff (skip : Bool) (args : List (List Char)) (flags : GrepFlags)
    (rest : List (List Char)) : (parseGrepArgs skip args flags rest).isSome = true ↔
      ∀ arg ∈ splitArgs skip args, ¬ CutsCharacter arg := by
  induction args generalizing skip flags rest with
  | nil => exact iff_of_true (by cases skip <;> rfl) (by cases skip <;> simp [splitArgs])
  | cons arg args ih =>
    cases skip with
    | true => exact ih false flags rest
    | false =>
      rw [parseGrepArgs, splitArgs]
      split
      · exact iff_of_true rfl fun arg h => absurd h List.not_mem_nil
      · have hlong := parseGrepLongOption_isSome arg flags
        cases hoption : parseGrepLongOption arg flags with
        | some flags' =>
          rw [hoption, Option.isSome_some] at hlong
          rw [← hlong, if_pos rfl]
          exact ih false flags' rest
        | none =>
          rw [hoption, Option.isSome_none] at hlong
          rw [← hlong, if_neg Bool.false_ne_true, List.forall_mem_cons]
          have hsome := valuedShortOption_isSome_iff arg args.head? flags
          cases hvalued : parseGrepValuedShortOption arg args.head? flags with
          | none =>
            rw [hvalued] at hsome
            refine iff_of_false Bool.false_ne_true fun h => ?_
            exact absurd (hsome.mpr h.1) Bool.false_ne_true
          | some consumed =>
            rw [hvalued] at hsome
            have hskip := valuedShortOption_consumed hvalued
            rw [← hskip, and_iff_right (hsome.mp rfl), Option.bind_some]
            cases consumed with
            | some found => exact ih _ found.2 rest
            | none =>
              dsimp only
              split
              · exact ih false _ rest
              · exact ih false flags _

/-- The arguments are read exactly when none of those that are split is cut inside a
    character. -/
theorem parseGrepFlags_isSome_iff (argv : List (List Char)) :
    (parseGrepFlags argv).isSome = true ↔
      ∀ arg ∈ splitArgs false argv.tail, ¬ CutsCharacter arg :=
  parseGrepArgs_isSome_iff false argv.tail defaultGrepFlags []

/-! ## 9. Texts that are not ASCII -/

/-- Compilers for `^b` and `a*`, and a lower-casing in which one letter gets longer. -/
def sampleEnv : Env where
  lower c := if c = 'İ' then ['i', '\u0307'] else [c.toLower]
  isCased c := c.isAlpha
  isCaseIgnorable _ := false
  compileBre p := if p = ['^', 'b'] then some ⟨literalAtStart 'b', false⟩ else none
  compileEre _ := none
  compileDefault p := if p = ['a', '*'] then some ⟨literalStar 'a', false⟩ else none

end Wasmsh.Grep

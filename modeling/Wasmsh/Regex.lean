import Mathlib.Data.List.Basic
import Wasmsh.Globs

/-!
# Regular expressions

`regex_match_with_captures` of `wasmsh-runtime/src/pattern.rs`, the matcher of `=~`.  It
reads bytes, from the pattern without its anchors; a position in the text or in the pattern
is given by what follows it.
-/

namespace Wasmsh.Regex

open Globs (consAlternative)

/-! ## 1. Elements and quantifiers -/

/-- The loop of `parse_regex_char_class`: the bytes of the class as ranges, and the pattern
    after it. -/
def charClassLoop : List Char → List (Char × Char) × List Char
  | [] => ([], [])
  | ']' :: r => ([], r)
  | lo :: '-' :: hi :: r => ((lo, hi) :: (charClassLoop r).1, (charClassLoop r).2)
  | c :: r => ((c, c) :: (charClassLoop r).1, (charClassLoop r).2)

/-- `regex_char_class_matches`. -/
def regexCharClassMatches (chars : List (Char × Char)) (negate : Bool) (c : Char) : Bool :=
  let found := chars.any fun range => decide (range.1 ≤ c ∧ c ≤ range.2)
  if negate then !found else found

/-- `parse_regex_char_class`, the pattern after its `[`. -/
def parseRegexCharClass : List Char → (Char → Bool) × List Char
  | '^' :: r => (regexCharClassMatches (charClassLoop r).1 true, (charClassLoop r).2)
  | '!' :: r => (regexCharClassMatches (charClassLoop r).1 true, (charClassLoop r).2)
  | r => (regexCharClassMatches (charClassLoop r).1 false, (charClassLoop r).2)

/-- `parse_regex_elem` at the byte `b`, with the pattern after it. -/
def parseRegexElem (b : Char) (r : List Char) : (Char → Bool) × List Char :=
  match b, r with
  | '.', r => (fun _ => true, r)
  | '[', r => parseRegexCharClass r
  | '\\', escaped :: r => (fun c => c == escaped, r)
  | ch, r => (fun c => c == ch, r)

inductive Quantifier where
  | star
  | plus
  | opt
  deriving DecidableEq, Repr

/-- `parse_quantifier`. -/
def parseQuantifier : List Char → Option Quantifier × List Char
  | '*' :: r => (some .star, r)
  | '+' :: r => (some .plus, r)
  | '?' :: r => (some .opt, r)
  | r => (none, r)

/-- `parse_group_quantifier`. -/
def parseGroupQuantifier (afterClose : List Char) : Option Quantifier × List Char :=
  parseQuantifier afterClose

/-- `count_regex_matches`. -/
def countRegexMatches (text : List Char) (matchesFn : Char → Bool) : Nat :=
  (text.takeWhile matchesFn).length

section

variable {β : Type} (matchesFn : Char → Bool) (next : List Char → Option β)

/-- `regex_match_single_elem` and `regex_try_match_single_elem`; `next` goes on with the
    pattern. -/
def regexMatchSingleElem : List Char → Option β
  | [] => none
  | c :: text => if matchesFn c then next text else none

/-- `regex_match_optional_elem` and `regex_try_match_optional_elem`. -/
def regexMatchOptionalElem (text : List Char) : Option β :=
  match regexMatchSingleElem matchesFn next text with
  | some stop => some stop
  | none => next text

/-- `regex_match_repeated_elem` and `regex_try_match_repeated_elem`; the counts are tried
    from the largest to `min`. -/
def regexMatchRepeatedElem (min : Nat) (text : List Char) : Option β :=
  (List.range' min (countRegexMatches text matchesFn + 1 - min)).reverse.findSome?
    fun count => next (text.drop count)

end

/-- `regex_match_elem` and `regex_try_apply_quant` at the byte `b` of the pattern. -/
def regexMatchElem {β : Type} (next : List Char → List Char → Option β) (b : Char)
    (r text : List Char) : Option β :=
  let elem := parseRegexElem b r
  let quantified := parseQuantifier elem.2
  match quantified.1 with
  | some .star => regexMatchRepeatedElem elem.1 (next quantified.2) 0 text
  | some .plus => regexMatchRepeatedElem elem.1 (next quantified.2) 1 text
  | some .opt => regexMatchOptionalElem elem.1 (next quantified.2) text
  | none => regexMatchSingleElem elem.1 (next elem.2) text

/-! ## 2. Groups -/

/-- `find_matching_paren_bytes`: the pattern inside the group and the pattern after it.
    The first argument is one below `depth`. -/
def findMatchingParenBytes : Nat → List Char → Option (List Char × List Char)
  | _, [] => none
  | depth, '\\' :: c :: r =>
    (findMatchingParenBytes depth r).map fun e => ('\\' :: c :: e.1, e.2)
  | depth, '(' :: r => (findMatchingParenBytes (depth + 1) r).map fun e => ('(' :: e.1, e.2)
  | 0, ')' :: r => some ([], r)
  | depth + 1, ')' :: r => (findMatchingParenBytes depth r).map fun e => (')' :: e.1, e.2)
  | depth, c :: r => (findMatchingParenBytes depth r).map fun e => (c :: e.1, e.2)

/-- `split_alternatives_bytes`. -/
def splitAlternativesBytes : Int → List Char → List (List Char)
  | _, [] => [[]]
  | depth, '\\' :: c :: r =>
    consAlternative '\\' (consAlternative c (splitAlternativesBytes depth r))
  | depth, '(' :: r => consAlternative '(' (splitAlternativesBytes (depth + 1) r)
  | depth, ')' :: r => consAlternative ')' (splitAlternativesBytes (depth - 1) r)
  | depth, c :: r =>
    if c = '|' ∧ depth = 0 then [] :: splitAlternativesBytes depth r
    else consAlternative c (splitAlternativesBytes depth r)

/-- `regex_try_match_inner`: the text after the match that is found first.  The first
    argument bounds the length of the pattern. -/
def regexTryMatchInner : Nat → List Char → List Char → Option (List Char)
  | _, [], text => some text
  | 0, _ :: _, _ => none
  | n + 1, '(' :: r, text =>
    match findMatchingParenBytes 0 r with
    | none => none
    | some (inner, rest) =>
      (splitAlternativesBytes 0 inner).findSome? fun alt =>
        (regexTryMatchInner n alt text).bind (regexTryMatchInner n rest)
  | n + 1, b :: r, text => regexMatchElem (regexTryMatchInner n) b r text

/-- `regex_try_match_at`. -/
def regexTryMatchAt (text pattern : List Char) : Option (List Char) :=
  regexTryMatchInner pattern.length pattern text

/-- `regex_match_group_repeated` and `regex_group_repetition_matches`: `stop` is the length
    of the text after the repetition.  The first argument bounds the number of turns. -/
def regexMatchGroupRepeated (alternatives : List (List Char)) (stop : Nat) :
    Nat → Nat → List Char → Bool
  | 0, _, _ => false
  | n + 1, minReps, text =>
    if text.length = stop then minReps == 0
    else if text.length < stop then false
    else alternatives.any fun alt =>
      match regexTryMatchAt text alt with
      | none => false
      | some after =>
        if text.length ≤ after.length ∨ after.length < stop then false
        else if after.length = stop ∧ minReps ≤ 1 then true
        else regexMatchGroupRepeated alternatives stop n (minReps - 1) after

/-- A group that was matched: the text from its start and the text from its end. -/
abbrev Capture := List Char × List Char

section

variable (next : List Char → Option (List Char × List Capture)) (alternatives : List (List Char))

/-- `captures.insert(save, (start, stop))`; a match that fails leaves the captures as they
    were, so those of the rest of the pattern are what a match returns. -/
def insertCapture (start stop : List Char) (found : List Char × List Capture) :
    List Char × List Capture :=
  (found.1, (start, stop) :: found.2)

/-- `regex_try_alt_then_continue`. -/
def regexTryAltThenContinue (text alt : List Char) : Option (List Char × List Capture) :=
  (regexTryMatchAt text alt).bind fun stop => (next stop).map (insertCapture text stop)

/-- `regex_try_group_one_alt`. -/
def regexTryGroupOneAlt (text : List Char) : Option (List Char × List Capture) :=
  alternatives.findSome? (regexTryAltThenContinue next text)

/-- `regex_match_group_exact`. -/
def regexMatchGroupExact (text : List Char) : Option (List Char × List Capture) :=
  regexTryGroupOneAlt next alternatives text

/-- `regex_match_group_opt`. -/
def regexMatchGroupOpt (text : List Char) : Option (List Char × List Capture) :=
  match regexTryGroupOneAlt next alternatives text with
  | some found => some found
  | none => (next text).map (insertCapture text text)

/-- `regex_match_group_rep` and `regex_try_group_rep_at`; the ends are tried from the last
    one on. -/
def regexMatchGroupRep (minReps : Nat) (text : List Char) : Option (List Char × List Capture) :=
  text.tails.reverse.findSome? fun stop =>
    if regexMatchGroupRepeated alternatives stop.length (text.length + 1) minReps text then
      (next stop).map (insertCapture text stop)
    else none

/-- `regex_dispatch_group_quant`. -/
def regexDispatchGroupQuant (quant : Option Quantifier) (text : List Char) :
    Option (List Char × List Capture) :=
  match quant with
  | some .plus => regexMatchGroupRep next alternatives 1 text
  | some .star => regexMatchGroupRep next alternatives 0 text
  | some .opt => regexMatchGroupOpt next alternatives text
  | none => regexMatchGroupExact next alternatives text

end

/-! ## 3. Matching -/

/-- `regex_check_end`. -/
def regexCheckEnd (text : List Char) (mustEnd : Bool) : Option (List Char) :=
  if mustEnd && !text.isEmpty then none else some text

/-- `regex_match_capturing`, with `regex_match_group`: the text after the match and the
    captures.  The first argument bounds the length of the pattern. -/
def regexMatchCapturing (mustEnd : Bool) :
    Nat → List Char → List Char → Option (List Char × List Capture)
  | _, [], text => (regexCheckEnd text mustEnd).map fun stop => (stop, [])
  | 0, _ :: _, _ => none
  | n + 1, '(' :: r, text =>
    match findMatchingParenBytes 0 r with
    | none => none
    | some (inner, rest) =>
      let quantified := parseGroupQuantifier rest
      regexDispatchGroupQuant (regexMatchCapturing mustEnd n quantified.2)
        (splitAlternativesBytes 0 inner) quantified.1 text
  | n + 1, b :: r, text => regexMatchElem (regexMatchCapturing mustEnd n) b r text

/-- `regex_build_capture_list`; the slices may panic. -/
def regexBuildCaptureList (start stop : List Char) (groupCaps : List Capture) :
    Option (List (List Char)) :=
  ((start, stop) :: groupCaps).mapM fun capture => Utf8.slice capture.1 capture.2

/-- `regex_find_first_match` and `regex_match_from_start`; no value is a panic. -/
def regexFindFirstMatch (text core : List Char) (anchoredStart anchoredEnd : Bool) :
    Option (Option (List (List Char))) :=
  let starts := if anchoredStart then [text] else text.tails
  let found := starts.findSome? fun start =>
    (regexMatchCapturing anchoredEnd core.length core start).map fun found => (start, found)
  match found with
  | none => some none
  | some (start, stop, groupCaps) => (regexBuildCaptureList start stop groupCaps).map some

/-- `regex_strip_anchors`. -/
def regexStripAnchors (pattern : List Char) : List Char × Bool × Bool :=
  let anchoredStart := pattern.head? == some '^'
  let anchoredEnd := ['$'].isSuffixOf pattern && !(['\\', '$'].isSuffixOf pattern)
  let core :=
    match anchoredStart, anchoredEnd with
    | true, true => pattern.tail.dropLast
    | true, false => pattern.tail
    | false, true => pattern.dropLast
    | false, false => pattern
  (core, anchoredStart, anchoredEnd)

/-- `has_regex_metachar`. -/
def hasRegexMetachar (core : List Char) : Bool :=
  core.contains '.' || core.contains '+' || core.contains '*' || core.contains '?' ||
    core.contains '[' || core.contains '(' || core.contains '|'

/-- `literal_match_range`: where the match starts and ends, in characters. -/
def literalMatchRange (text core : List Char) (start stop : Bool) : Option (Nat × Nat) :=
  match start, stop with
  | true, true => if text = core then some (0, text.length) else none
  | true, false => if core.isPrefixOf text then some (0, core.length) else none
  | false, true =>
    if core.isSuffixOf text then some (text.length - core.length, text.length) else none
  | false, false =>
    ((List.range (text.length + 1)).find? fun pos => core.isPrefixOf (text.drop pos)).map
      fun pos => (pos, pos + core.length)

/-- `regex_match_literal_with_captures`. -/
def regexMatchLiteralWithCaptures (text core : List Char) (anchoredStart anchoredEnd : Bool) :
    Option (List (List Char)) :=
  (literalMatchRange text core anchoredStart anchoredEnd).map fun range =>
    [(text.drop range.1).take (range.2 - range.1)]

/-- `regex_match_with_captures`; no value is a panic. -/
def regexMatchWithCaptures (text pattern : List Char) : Option (Option (List (List Char))) :=
  let (core, anchoredStart, anchoredEnd) := regexStripAnchors pattern
  if hasRegexMetachar core then
    regexFindFirstMatch (Utf8.encode text) (Utf8.encode core) anchoredStart anchoredEnd
  else some (regexMatchLiteralWithCaptures text core anchoredStart anchoredEnd)

end Wasmsh.Regex

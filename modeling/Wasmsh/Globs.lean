import Mathlib.Data.Char
import Mathlib.Data.List.Lex
import Mathlib.Data.List.Sort
import Mathlib.Data.List.TakeWhile
import Wasmsh.Library.Utf8
import Wasmsh.State

/-!
# Patterns and pathname expansion

The matchers of `wasmsh-runtime/src/pattern.rs` that pathname expansion uses, and
`expand_globs_tagged` and `expand_globs` of `wasmsh-runtime/src/lib.rs`.  The matchers read
bytes; a text given to them is encoded first.  The filesystem is seen through `read_dir`
and `stat`.
-/

namespace Wasmsh.Globs

/-! ## 1. Character classes and steps -/

/-- The loop of `glob_match_char_class`: what is left of the pattern after the class, and
    whether an item of it has matched. -/
def classItems (ch : Char) : Bool → List Char → Bool → List Char × Bool
  | _, [], matched => ([], matched)
  | first, lo :: '-' :: hi :: r, matched =>
    if !first && lo == ']' then ('-' :: hi :: r, matched)
    else classItems ch false r (matched || (lo ≤ ch && ch ≤ hi))
  | first, c :: cs, matched =>
    if !first && c == ']' then (cs, matched) else classItems ch false cs (matched || c == ch)

/-- `glob_match_char_class`, the pattern after its `[`. -/
def globMatchCharClass (pattern : List Char) (ch : Char) : List Char × Bool :=
  match pattern with
  | '!' :: r => let m := classItems ch true r false; (m.1, !m.2)
  | '^' :: r => let m := classItems ch true r false; (m.1, !m.2)
  | r => classItems ch true r false

/-- `GlobPatternStep`; `consume` is also a class that matches, `mismatch` one that does
    not. -/
inductive GlobPatternStep where
  | consume (rest : List Char)
  | star (rest : List Char)
  | mismatch
  deriving DecidableEq, Repr

/-- `glob_step`. -/
def globStep (pattern : List Char) (ch : Char) : GlobPatternStep :=
  match pattern with
  | [] => .mismatch
  | '?' :: r => .consume r
  | '*' :: r => .star r
  | '[' :: r => let m := globMatchCharClass r ch; if m.2 then .consume m.1 else .mismatch
  | '\\' :: c :: r => if c = ch then .consume r else .mismatch
  | c :: r => if c = ch then .consume r else .mismatch

/-! ## 2. Matching -/

/-- The loop of `glob_match_inner`; `star` holds the pattern after the last star and the
    name where it was met.  The first argument bounds the number of turns. -/
def globMatchLoop : Nat → List Char → List Char → Option (List Char × List Char) → Bool
  | _, pattern, [], _ => pattern.all (· == '*')
  | 0, _, _, _ => false
  | n + 1, pattern, ch :: name, star =>
    match globStep pattern ch with
    | .star r => globMatchLoop n r (ch :: name) (some (r, ch :: name))
    | .consume r => globMatchLoop n r name star
    | .mismatch =>
      match star with
      | none => false
      | some (r, at_) => globMatchLoop n r at_.tail (some (r, at_.tail))

/-- `glob_match_inner`. -/
def globMatchInner (pattern name : List Char) : Bool :=
  globMatchLoop ((name.length + 1) * (name.length + pattern.length + 1)) pattern name none

/-- `has_extglob_pattern`. -/
def hasExtglobPattern : List Char → Bool
  | c :: '(' :: r => ['?', '*', '+', '@', '!'].contains c || hasExtglobPattern ('(' :: r)
  | _ :: r => hasExtglobPattern r
  | [] => false

/-- `find_matching_paren`: the text up to the closing parenthesis and the text after it. -/
def findMatchingParen : Nat → List Char → Option (List Char × List Char)
  | _, [] => none
  | depth, '(' :: r => (findMatchingParen (depth + 1) r).map fun e => ('(' :: e.1, e.2)
  | 0, ')' :: r => some ([], r)
  | depth + 1, ')' :: r => (findMatchingParen depth r).map fun e => (')' :: e.1, e.2)
  | depth, c :: r => (findMatchingParen depth r).map fun e => (c :: e.1, e.2)

/-- The first operator of an extended pattern: what stands before it, the operator, its
    inside and what follows. -/
structure ExtglobOperator where
  before : List Char
  op : Char
  inside : List Char
  after : List Char
  deriving DecidableEq, Repr

/-- `find_extglob_operator`. -/
def findExtglobOperator : List Char → Option ExtglobOperator
  | [] => none
  | c :: r =>
    let found := match r with
      | '(' :: r' => if ['?', '*', '+', '@', '!'].contains c then findMatchingParen 0 r' else none
      | _ => none
    match found with
    | some e => some ⟨[], c, e.1, e.2⟩
    | none => (findExtglobOperator r).map fun f => { f with before := c :: f.before }

/-- A character before the first alternative. -/
def consAlternative (c : Char) : List (List Char) → List (List Char)
  | [] => [[c]]
  | a :: as => (c :: a) :: as

/-- `split_alternatives`. -/
def splitAlternatives : Nat → List Char → List (List Char)
  | _, [] => [[]]
  | depth, '(' :: r => consAlternative '(' (splitAlternatives (depth + 1) r)
  | depth, ')' :: r => consAlternative ')' (splitAlternatives (depth - 1) r)
  | 0, '|' :: r => [] :: splitAlternatives 0 r
  | depth, c :: r => consAlternative c (splitAlternatives depth r)

section

variable (match_ : List Char → List Char → Bool)

/-- `extglob_star` and `extglob_try_extend`; the first argument is the number of
    repetitions that may still be tried. -/
def extglobStar (alternatives : List (List Char)) (suffix name : List Char) :
    Nat → List Char → Bool
  | 0, _ => false
  | n + 1, before =>
    match_ (before ++ suffix) name ||
      alternatives.any fun alt =>
        !alt.isEmpty && extglobStar alternatives suffix name n (before ++ alt)

/-- `extglob_plus`. -/
def extglobPlus (alternatives : List (List Char)) (suffix name before : List Char) : Bool :=
  alternatives.any fun alt => extglobStar match_ alternatives suffix name 20 (before ++ alt)

/-- The operators of `extglob_match_recursive`; `match_` matches the pattern with the
    operator replaced. -/
def extglobOperator (f : ExtglobOperator) (name : List Char) : Bool :=
  let alternatives := splitAlternatives 0 f.inside
  let once := alternatives.any fun alt => match_ (f.before ++ alt ++ f.after) name
  match f.op with
  | '?' => match_ (f.before ++ f.after) name || once
  | '@' => once
  | '*' => extglobStar match_ alternatives f.after name 21 f.before
  | '+' => extglobPlus match_ alternatives f.after name f.before
  | _ => !once && globMatchInner (f.before ++ '*' :: f.after) name

end

/-- `extglob_match_recursive`; the first argument bounds the number of operators that are
    replaced one after the other. -/
def extglobMatchRecursive : Nat → List Char → List Char → Bool
  | 0, pattern, name => globMatchInner pattern name
  | n + 1, pattern, name =>
    match findExtglobOperator pattern with
    | none => globMatchInner pattern name
    | some f => extglobOperator (extglobMatchRecursive n) f name

/-- `extglob_match`. -/
def extglobMatch (pattern name : List Char) : Bool :=
  extglobMatchRecursive (44 ^ pattern.count '(' + 1) pattern name

/-- `glob_match_ext`. -/
def globMatchExt (dotglob extglob : Bool) (pattern name : List Char) : Bool :=
  if name.head? = some '.' ∧ pattern.head? ≠ some '.' ∧ !dotglob then false
  else if extglob && hasExtglobPattern pattern then
    extglobMatch (Utf8.encode pattern) (Utf8.encode name)
  else globMatchInner (Utf8.encode pattern) (Utf8.encode name)

/-! ## 3. Paths -/

/-- What pathname expansion asks of the filesystem: the names in a directory, in its
    order, and whether a path is a directory. -/
structure Files where
  readDir : List Char → Option (List (List Char))
  isDir : List Char → Bool

/-- The components that `normalize_path` keeps. -/
def normalComponents (parts : List (List Char)) : List (List Char) :=
  parts.foldl (fun kept part =>
    if part = [] ∨ part = ['.'] then kept
    else if part = ['.', '.'] then kept.dropLast
    else kept ++ [part]) []

/-- `normalize_path`. -/
def normalizePath (path : List Char) : List Char :=
  let joined := ['/'].intercalate (normalComponents (path.splitOn '/'))
  if path.head? = some '/' then '/' :: joined
  else if joined = [] then ['.']
  else joined

/-- `resolve_cwd_path`. -/
def resolveCwdPath (cwd path : List Char) : List Char :=
  if path.head? = some '/' then normalizePath path
  else normalizePath (cwd ++ '/' :: path)

/-- The text up to the last `/`, with it, and the text after it. -/
def splitLastSlash (t : List Char) : Option (List Char × List Char) :=
  if '/' ∈ t then
    let last := (t.reverse.takeWhile (· != '/')).reverse
    some (t.take (t.length - last.length), last)
  else none

/-- What stands before the last `/`, the `/`, and what stands after it. -/
theorem splitLastSlash_spec {t dirPart last : List Char}
    (h : splitLastSlash t = some (dirPart, last)) :
    ∃ before, dirPart = before ++ ['/'] ∧ t = dirPart ++ last := by
  unfold splitLastSlash at h
  split at h
  · next hmem =>
    cases h
    have hparts := List.takeWhile_append_dropWhile (p := (· != '/')) (l := t.reverse)
    have hrest : t.reverse.dropWhile (· != '/') ≠ [] := by
      intro hnil
      rw [List.dropWhile_eq_nil_iff] at hnil
      simpa using hnil '/' (List.mem_reverse.mpr hmem)
    have hslash : (t.reverse.dropWhile (· != '/')).head hrest = '/' := by
      have hhead := List.head_dropWhile_not (· != '/') hrest
      simpa using hhead
    rcases hdrop : t.reverse.dropWhile (· != '/') with - | ⟨c, rest⟩
    · exact absurd hdrop hrest
    · simp only [hdrop, List.head_cons] at hslash
      subst hslash
      rw [hdrop] at hparts
      have hwhole : t = rest.reverse ++ ['/'] ++ (t.reverse.takeWhile (· != '/')).reverse := by
        have hrev := congrArg List.reverse hparts
        rw [List.reverse_append, List.reverse_reverse, List.reverse_cons] at hrev
        exact hrev.symm
      have hlength : t.length - (t.reverse.takeWhile (· != '/')).reverse.length =
          (rest.reverse ++ ['/']).length := by
        have hlen := congrArg List.length hwhole
        rw [List.length_append] at hlen
        exact Nat.sub_eq_of_eq_add hlen
      have htake : t.take (t.length - (t.reverse.takeWhile (· != '/')).reverse.length) =
          rest.reverse ++ ['/'] := by
        rw [hlength]
        conv_lhs => rw [hwhole]
        exact List.take_left
      exact ⟨rest.reverse, htake, by rw [htake]; exact hwhole⟩
  · cases h

/-! ## 4. Pathname expansion -/

/-- The options that pathname expansion reads. -/
structure GlobOptions where
  noglob : Bool
  nullglob : Bool
  dotglob : Bool
  globstar : Bool
  extglob : Bool
  deriving DecidableEq, Repr

def GlobOptions.of (s : ShellState) : GlobOptions where
  noglob := s.flag "SHOPT_f"
  nullglob := s.flag "SHOPT_nullglob"
  dotglob := s.flag "SHOPT_dotglob"
  globstar := s.flag "SHOPT_globstar"
  extglob := s.flag "SHOPT_extglob"

/-- `MAX_GLOB_RESULTS`. -/
def maxGlobResults : Nat := 10000

/-- `sort` of paths. -/
def sortPaths (paths : List (List Char)) : List (List Char) := paths.insertionSort (· ≤ ·)

section

variable (fs : Files) (o : GlobOptions) (cwd : List Char)

/-- `read_glob_matches`. -/
def readGlobMatches (dir pattern before : List Char) : List (List Char) :=
  match fs.readDir dir with
  | none => []
  | some names =>
    sortPaths ((names.filter (globMatchExt o.dotglob o.extglob pattern)).map (before ++ ·))

/-- `finalize_glob_matches`. -/
def finalizeGlobMatches (arg : List Char) (paths : List (List Char)) : List (List Char) :=
  if !paths.isEmpty then paths else if o.nullglob then [] else [arg]

/-- `is_glob_pattern`. -/
def isGlobPattern (arg : List Char) : Bool :=
  arg.contains '*' || arg.contains '?' || (arg.contains '[' && arg.contains ']') ||
    (o.extglob && hasExtglobPattern arg)

/-- `path_segment_has_glob`. -/
def pathSegmentHasGlob (path : List Char) : Bool :=
  path.contains '*' || path.contains '?' || path.contains '['

/-- `expand_standard_glob_arg` with `split_glob_search`. -/
def expandStandardGlobArg (arg : List Char) : List (List Char) :=
  match splitLastSlash arg with
  | none => finalizeGlobMatches o arg (readGlobMatches fs o cwd arg [])
  | some (dirPart, pattern) =>
    if pathSegmentHasGlob dirPart then finalizeGlobMatches o arg []
    else finalizeGlobMatches o arg
      (readGlobMatches fs o (resolveCwdPath cwd dirPart) pattern dirPart)

/-- `globstar_child_paths`. -/
def globstarChildPaths (dir before name : List Char) : List Char × List Char :=
  (if dir = ['/'] then '/' :: name else dir ++ '/' :: name,
    if before = [] then name else before ++ '/' :: name)

/-- `globstar_walk`; the first argument bounds the depth of the walk. -/
def globstarWalk : Nat → List Char → List (List Char) → List Char → List (List Char)
  | 0, _, _, _ => []
  | _, _, [], _ => []
  | n + 1, dir, seg :: segs, before =>
    let names := (fs.readDir dir).getD []
    if seg = ['*', '*'] then
      (if segs.isEmpty then [] else globstarWalk n dir segs before) ++
        names.flatMap fun name =>
          let child := globstarChildPaths dir before name
          if !o.dotglob && name.head? = some '.' then []
          else if fs.isDir child.1 then globstarWalk n child.1 (seg :: segs) child.2
          else []
    else
      names.flatMap fun name =>
        let child := globstarChildPaths dir before name
        if !globMatchExt o.dotglob o.extglob seg name then []
        else if segs.isEmpty then [child.2]
        else if fs.isDir child.1 then globstarWalk n child.1 segs child.2
        else []

/-- A text with `**` in it. -/
def mentionsGlobstar : List Char → Bool
  | '*' :: '*' :: _ => true
  | _ :: cs => mentionsGlobstar cs
  | [] => false

/-- `expand_glob_arg`; `depth` bounds the depth of the directory tree. -/
def expandGlobArg (depth : Nat) (arg : List Char) : List (List Char) :=
  if !isGlobPattern o arg then [arg]
  else if o.globstar && mentionsGlobstar arg then
    finalizeGlobMatches o arg (sortPaths (globstarWalk fs o depth cwd (arg.splitOn '/') []))
  else expandStandardGlobArg fs o cwd arg

/-- `expand_globs`. -/
def expandGlobs (depth : Nat) (argv : List (List Char)) : List (List Char) :=
  if o.noglob then argv
  else (argv.flatMap (expandGlobArg fs o cwd depth)).take maxGlobResults

/-- `active_glob`: an unquoted metacharacter among the bytes of a text; a byte without a
    flag counts as unquoted. -/
def activeGlob : List Char → List Bool → Bool
  | [], _ => false
  | b :: bytes, mask =>
    (!mask.headD false && (b == '*' || b == '?' || b == '[')) || activeGlob bytes mask.tail

/-- `escape_masked_metachars`: a byte of the text becomes a character of the pattern. -/
def escapeMaskedMetachars : List Char → List Bool → List Char
  | [], _ => []
  | b :: bytes, mask =>
    (if mask.headD false && ['*', '?', '[', '\\'].contains b then ['\\', b] else [b]) ++
      escapeMaskedMetachars bytes mask.tail

/-- `expand_masked_glob_arg`. -/
def expandMaskedGlobArg (arg : List Char) (literal : List Bool) : List (List Char) :=
  let bytes := Utf8.encode arg
  if literal.length ≠ bytes.length then [arg]
  else if !activeGlob bytes literal then [arg]
  else match splitLastSlash bytes with
    | none =>
      finalizeGlobMatches o arg
        (readGlobMatches fs o cwd (escapeMaskedMetachars bytes literal) [])
    | some (dirPart, pattern) =>
      let slash := dirPart.length - 1
      if activeGlob (bytes.take slash) (literal.take slash) then [arg]
      else
        let before := Utf8.decode dirPart
        finalizeGlobMatches o arg (readGlobMatches fs o (resolveCwdPath cwd before)
          (escapeMaskedMetachars pattern (literal.drop dirPart.length)) before)

/-- A word for pathname expansion: its text, whether any of it is quoted, and a flag for
    each of its bytes. -/
structure TaggedWord where
  text : List Char
  quoted : Bool
  literal : List Bool
  deriving DecidableEq, Repr

/-- One word of `expand_globs_tagged`. -/
def expandTagged (depth : Nat) (w : TaggedWord) : List (List Char) :=
  if w.literal.length ≠ (Utf8.encode w.text).length then
    if w.quoted then [w.text] else expandGlobArg fs o cwd depth w.text
  else if w.literal.any id then expandMaskedGlobArg fs o cwd w.text w.literal
  else expandGlobArg fs o cwd depth w.text

/-- `expand_globs_tagged`. -/
def expandGlobsTagged (depth : Nat) (argv : List TaggedWord) : List (List Char) :=
  if o.noglob then argv.map (·.text)
  else (argv.flatMap (expandTagged fs o cwd depth)).take maxGlobResults

end

end Wasmsh.Globs

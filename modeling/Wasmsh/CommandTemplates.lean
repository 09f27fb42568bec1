import Wasmsh.Aliases

/-!
# The commands of `find -exec` and `xargs`

`call_find_with_exec` and `call_xargs_with_exec` of `wasmsh-runtime/src/lib.rs`, with the
part of `xargs` in `wasmsh-utils/src/data_ops.rs` that writes the command lines.  Both
build a text for each command and run it as a line of shell input: `find` quotes the name
it puts in place of the word `\x7b\x7d` and nothing else, `xargs` quotes nothing.

`char::is_alphanumeric` is a parameter: the names that `shell_quote` leaves unquoted depend
on it, and only its values on ASCII are used.
-/

namespace Wasmsh

open Globs Expand Interp

variable {cmd : List Char} {name : List Char} {o : XargsOpts}

/-! ## 1. Lines -/

/-- `str::lines`, `current` being the line read so far. -/
def linesFrom (current : List Char) : List Char → List (List Char)
  | [] => if current = [] then [] else [current]
  | '\n' :: r => Parser.stripReturn current :: linesFrom [] r
  | c :: r => linesFrom (current ++ [c]) r

/-- `lines().filter(|l| !l.is_empty())`. -/
def nonemptyLines (t : List Char) : List (List Char) := (linesFrom [] t).filter (!·.isEmpty)

/-- Lines as they are printed. -/
def printLines (ls : List (List Char)) : List Char := ls.flatMap (· ++ ['\n'])

/-- A line that is printed and read again. -/
structure IsLine (line : List Char) : Prop where
  ne_nil : line ≠ []
  no_newline : '\n' ∉ line
  no_return : line.getLast? ≠ some '\r'

theorem linesFrom_append {current line rest : List Char} (h : '\n' ∉ line) :
    linesFrom current (line ++ '\n' :: rest) =
      Parser.stripReturn (current ++ line) :: linesFrom [] rest := by
  induction line generalizing current with
  | nil => simp [linesFrom]
  | cons c line ih =>
    simp only [List.mem_cons, not_or] at h
    rw [List.cons_append, linesFrom.eq_3 _ _ _ fun hc => h.1 hc.symm, ih h.2, List.append_assoc,
      List.singleton_append]

theorem nonemptyLines_printLines {ls : List (List Char)} (h : ∀ l ∈ ls, IsLine l) :
    nonemptyLines (printLines ls) = ls := by
  have hlines : linesFrom [] (printLines ls) = ls := by
    induction ls with
    | nil => rfl
    | cons l ls ih =>
      have hl := h l (.head _)
      have hcons : printLines (l :: ls) = l ++ '\n' :: printLines ls := by simp [printLines]
      have hstrip : Parser.stripReturn l = l := by simp [Parser.stripReturn, hl.no_return]
      rw [hcons, linesFrom_append hl.no_newline, List.nil_append, hstrip,
        ih fun l' hl' => h l' (.tail _ hl')]
  rw [nonemptyLines, hlines, List.filter_eq_self]
  intro l hl
  simpa using (h l hl).ne_nil

/-! ## 2. `find -exec` -/

/-- The word that stands for the name. -/
def placeholder : List Char := ['{', '}']

/-- `extract_find_exec`: the template and the other arguments. -/
def extractFindExec (argv : List String) : Option (List String × List String) :=
  let before := argv.takeWhile (· ≠ "-exec")
  let rest := (argv.dropWhile (· ≠ "-exec")).drop 1
  let isTerminator := fun a => a = "\\;" || a = ";"
  let template := rest.takeWhile (!isTerminator ·)
  if argv.contains "-exec" && rest.any isTerminator && !template.isEmpty then
    some (template, before ++ (rest.dropWhile (!isTerminator ·)).drop 1)
  else none

section

variable (isAlphanumeric : Char → Bool)

/-- The names that `shell_quote` leaves as they are. -/
def isSafeName (name : List Char) : Bool :=
  name.all fun c => isAlphanumeric c || c == '/' || c == '.' || c == '_' || c == '-'

/-- `shell_quote`. -/
def shellQuote (name : List Char) : List Char :=
  if isSafeName isAlphanumeric name then name else quoteText name

/-- One word of the command line for a name. -/
def templateWord (name word : List Char) : List Char :=
  if word = placeholder then shellQuote isAlphanumeric name else word

/-- The command line for a name. -/
def findLine (template : List (List Char)) (name : List Char) : List Char :=
  [' '].intercalate (template.map (templateWord isAlphanumeric name))

/-- The command lines that `call_find_with_exec` runs over the output of `find`. -/
def findLines (template : List (List Char)) (output : List Char) : List (List Char) :=
  (nonemptyLines output).map (findLine isAlphanumeric template)

/-- The command lines of `call_find_with_exec`, from its arguments and what `find` prints
    for the others of them; nothing without a complete `-exec`. -/
def findCommandLines (argv : List String) (output : List Char) : Option (List (List Char)) :=
  (extractFindExec argv).map fun e => findLines isAlphanumeric (e.1.map String.toList) output

end

/-! ## 3. `xargs` -/

/-- `str::replace`, `skip` being what is left to pass over of a match. -/
def replaceFrom (pattern new : List Char) : Nat → List Char → List Char
  | _, [] => []
  | skip + 1, _ :: r => replaceFrom pattern new skip r
  | 0, c :: r =>
    if pattern.isPrefixOf (c :: r) then new ++ replaceFrom pattern new (pattern.length - 1) r
    else c :: replaceFrom pattern new 0 r

/-- `str::replace`; an empty pattern stands before, between and after all characters. -/
def replaceText (pattern new text : List Char) : List Char :=
  if pattern = [] then text.foldl (fun t c => t ++ c :: new) new
  else replaceFrom pattern new 0 text

/-- `XargsOpts`. -/
structure XargsOpts where
  replaceStr : Option String
  maxArgs : Option Nat
  nullDelim : Bool
  cmdStart : Nat
  deriving DecidableEq, Repr

/-- The loop of `parse_xargs_opts` from the index `i` on. -/
def xargsOptsFrom (o : XargsOpts) (i : Nat) : List String → XargsOpts
  | [] => o
  | "-I" :: r :: args => xargsOptsFrom { o with replaceStr := some r, cmdStart := i + 2 } (i + 2) args
  | "-n" :: n :: args =>
    xargsOptsFrom { o with maxArgs := parseUnsigned 64 n, cmdStart := i + 2 } (i + 2) args
  | arg :: args =>
    if arg.toList.take 2 = ['-', 'I'] then
      if arg.toList.drop 2 = [] then o
      else xargsOptsFrom { o with
        replaceStr := some (String.ofList (arg.toList.drop 2)), cmdStart := i + 1 } (i + 1) args
    else if arg = "-0" ∨ arg = "--null" then
      xargsOptsFrom { o with nullDelim := true, cmdStart := i + 1 } (i + 1) args
    else if arg = "-d" ∨ arg = "-P" ∨ arg = "-L" then
      match args with
      | _ :: args => xargsOptsFrom { o with cmdStart := i + 2 } (i + 2) args
      | [] => o
    else if arg = "-t" ∨ arg = "-p" then xargsOptsFrom { o with cmdStart := i + 1 } (i + 1) args
    else o

/-- `parse_xargs_opts`. -/
def parseXargsOpts (argv : List String) : XargsOpts :=
  xargsOptsFrom ⟨none, none, false, 1⟩ 1 (argv.drop 1)

/-- `collect_xargs_items_null` and `collect_xargs_items_ws`. -/
def xargsItems (nullDelim : Bool) (input : List Char) : List (List Char) :=
  (input.splitOnP (if nullDelim then (· == '\x00') else isWhitespace)).filter (!·.isEmpty)

/-- `chunks`; the first argument bounds their number. -/
def chunksFrom {α : Type} (n : Nat) : Nat → List α → List (List α)
  | 0, _ => []
  | _ + 1, [] => []
  | turns + 1, a :: items => (a :: items).take n :: chunksFrom n turns ((a :: items).drop n)

def chunks {α : Type} (n : Nat) (items : List α) : List (List α) :=
  chunksFrom n items.length items

/-- `emit_xargs_line`. -/
def emitXargsLine (cmd : List Char) (extra args : List (List Char)) : List Char :=
  if cmd = "echo".toList then [' '].intercalate (extra ++ args) ++ ['\n']
  else cmd ++ extra.flatMap (' ' :: ·) ++ args.flatMap (' ' :: ·) ++ ['\n']

/-- `emit_xargs_replace`. -/
def emitXargsReplace (items : List (List Char)) (cmd : List Char) (extra : List (List Char))
    (pattern : List Char) : List Char :=
  items.flatMap fun item =>
    let substituted := extra.map (replaceText pattern item)
    if cmd = "echo".toList then
      (if substituted.isEmpty then item else [' '].intercalate substituted) ++ ['\n']
    else emitXargsLine cmd substituted []

/-- What `util_xargs` prints. -/
def utilXargs (o : XargsOpts) (cmd : List Char) (extra items : List (List Char)) : List Char :=
  if items.isEmpty then []
  else match o.replaceStr, o.maxArgs with
    | some pattern, _ => emitXargsReplace items cmd extra pattern.toList
    | none, some n => (chunks n items).flatMap (emitXargsLine cmd extra)
    | none, none => emitXargsLine cmd extra items

/-- The command lines that `call_xargs_with_exec` runs for a command other than `echo`. -/
def xargsLines (o : XargsOpts) (cmd : List Char) (extra items : List (List Char)) :
    List (List Char) :=
  nonemptyLines (utilXargs o cmd extra items)

/-- `has_non_echo` of `call_xargs_with_exec`, over the arguments from the second on. -/
def hasNonEcho : List String → Bool
  | [] => false
  | [arg] => arg.toList.head? != some '-' && arg != "echo"
  | arg :: next :: args =>
    if ["-I", "-n", "-d", "-P", "-L"].contains arg then hasNonEcho args
    else if arg.toList.head? = some '-' then hasNonEcho (next :: args)
    else arg != "echo"

/-- The command lines of `call_xargs_with_exec`, from its arguments and its input; none where
    the lines of `xargs` are printed. -/
def xargsCommandLines (argv : List String) (input : List Char) : Option (List (List Char)) :=
  if hasNonEcho (argv.drop 1) then
    let o := parseXargsOpts argv
    match (argv.drop o.cmdStart).map String.toList with
    | [] => some (xargsLines o "echo".toList [] (xargsItems o.nullDelim input))
    | cmd :: extra => some (xargsLines o cmd extra (xargsItems o.nullDelim input))
  else none

/-- The argument vectors the commands should get, the words of the template being
    `cmd :: extra`. -/
def xargsCalls (o : XargsOpts) (cmd : List Char) (extra items : List (List Char)) :
    List (List (List Char)) :=
  match o.replaceStr, o.maxArgs with
  | some pattern, _ => items.map fun item => cmd :: extra.map (replaceText pattern.toList item)
  | none, some n => (chunks n items).map fun chunk => cmd :: (extra ++ chunk)
  | none, none => if items.isEmpty then [] else [cmd :: (extra ++ items)]

theorem emitXargsLine_eq (hcmd : cmd ≠ "echo".toList) (extra args : List (List Char)) :
    emitXargsLine cmd extra args = [' '].intercalate (cmd :: (extra ++ args)) ++ ['\n'] := by
  rw [emitXargsLine, if_neg hcmd, intercalate_blank]
  simp

theorem emitXargsReplace_eq (hcmd : cmd ≠ "echo".toList)
    (items extra : List (List Char)) (pattern : List Char) :
    emitXargsReplace items cmd extra pattern = items.flatMap fun item =>
      [' '].intercalate (cmd :: extra.map (replaceText pattern item)) ++ ['\n'] := by
  simp only [emitXargsReplace, if_neg hcmd, emitXargsLine_eq hcmd, List.append_nil]

/-- `xargs` prints a line for each call. -/
theorem utilXargs_eq {extra items : List (List Char)} (hcmd : cmd ≠ "echo".toList) :
    utilXargs o cmd extra items =
      printLines ((xargsCalls o cmd extra items).map ([' '].intercalate ·)) := by
  have hemit : emitXargsLine cmd extra = fun args =>
      [' '].intercalate (cmd :: (extra ++ args)) ++ ['\n'] := funext (emitXargsLine_eq hcmd extra)
  cases items with
  | nil =>
    rcases o with ⟨_ | pattern, _ | n, nullDelim, cmdStart⟩
    all_goals rfl
  | cons item items =>
    rcases o with ⟨_ | pattern, _ | n, nullDelim, cmdStart⟩
    · simp [utilXargs, xargsCalls, printLines, hemit]
    · simp [utilXargs, xargsCalls, printLines, hemit, List.flatMap_map]
    · simp [utilXargs, xargsCalls, printLines, emitXargsReplace_eq hcmd, List.flatMap_map]
    · simp [utilXargs, xargsCalls, printLines, emitXargsReplace_eq hcmd, List.flatMap_map]

theorem flatten_chunksFrom {α : Type} {n : Nat} (hn : 0 < n) (turns : Nat) (items : List α)
    (hlen : items.length ≤ turns) : (chunksFrom n turns items).flatten = items := by
  induction turns generalizing items with
  | zero =>
    rw [List.length_eq_zero_iff.mp (Nat.le_zero.mp hlen)]
    rfl
  | succ turns ih =>
    cases items with
    | nil => rfl
    | cons a items =>
      have hdrop : ((a :: items).drop n).length ≤ turns := by
        simp only [List.length_drop, List.length_cons] at hlen ⊢
        omega
      rw [chunksFrom, List.flatten_cons, ih _ hdrop, List.take_append_drop]

/-- Each token is passed once, in order. -/
theorem flatten_chunks {α : Type} {n : Nat} (hn : 0 < n) (items : List α) :
    (chunks n items).flatten = items :=
  flatten_chunksFrom hn items.length items (Nat.le_refl _)

theorem length_le_of_mem_chunksFrom {α : Type} {n turns : Nat} {items chunk : List α}
    (h : chunk ∈ chunksFrom n turns items) : chunk.length ≤ n := by
  induction turns generalizing items with
  | zero => cases h
  | succ turns ih =>
    cases items with
    | nil => cases h
    | cons a items =>
      rcases List.mem_cons.mp h with rfl | h
      · exact List.length_take_le _ _
      · exact ih h

/-! ## 4. Names and words that are read back -/

theorem replaceFrom_of_not_infix {pattern new text : List Char} (h : ¬ pattern <:+: text) :
    replaceFrom pattern new 0 text = text := by
  induction text with
  | nil => rfl
  | cons c text ih =>
    have hstart : pattern.isPrefixOf (c :: text) = false := by
      rw [Bool.eq_false_iff, ne_eq, List.isPrefixOf_iff_prefix]
      exact fun hp => h hp.isInfix
    have htail : ¬ pattern <:+: text := fun hi => h (hi.trans (List.suffix_cons c text).isInfix)
    rw [replaceFrom, hstart, ih htail]
    rfl

/-- The word of the template with the name in place of the placeholder. -/
def fillWord (name word : List Char) : List Char := replaceText placeholder name word

theorem fillWord_placeholder (name : List Char) : fillWord name placeholder = name := by
  simp [fillWord, replaceText, placeholder, replaceFrom]

theorem fillWord_of_not_infix {name word : List Char} (h : ¬ placeholder <:+: word) :
    fillWord name word = word := by
  rw [fillWord, replaceText, if_neg (by decide), replaceFrom_of_not_infix h]

section

variable {isAlphanumeric : Char → Bool}

variable (halnum : ∀ c : Char, c.toNat < 0x80 → isAlphanumeric c = c.isAlphanum)

include halnum

/-- A safe name of ASCII characters holds none of the characters that mean something. -/
theorem not_mem_of_isSafeName
    (hsafe : isSafeName isAlphanumeric name = true) {c : Char} (hascii : c.toNat < 0x80)
    (hc : (c.isAlphanum || c == '/' || c == '.' || c == '_' || c == '-') = false) :
    c ∉ name := by
  intro hmem
  have hall := List.all_eq_true.mp hsafe c hmem
  rw [halnum c hascii, hc] at hall
  cases hall

theorem isPlainText_of_isSafeName (hne : name ≠ []) (hsafe : isSafeName isAlphanumeric name = true)
    (hascii : ∀ c ∈ name, c.toNat < 0x80) : IsPlainText name where
  ne_nil := hne
  ascii := hascii
  plain := by
    intro c hmem
    by_contra hplain
    have hspecial : c ∈ [' ', '\t', '\n', ';', '&', '|', '<', '>', '(', ')', '\'', '"', '`', '\\',
        '$'] := by
      simp only [isPlainByte, Lex.isWordBreak, Bool.and_eq_true, Bool.not_eq_true',
        List.contains_eq_mem, decide_eq_false_iff_not, not_and_or, not_not] at hplain
      exact hplain.elim (List.mem_append_left ['\'', '"', '`', '\\', '$'])
        (List.mem_append_right [' ', '\t', '\n', ';', '&', '|', '<', '>', '(', ')'])
    have hnone : ∀ c ∈ [' ', '\t', '\n', ';', '&', '|', '<', '>', '(', ')', '\'', '"', '`', '\\',
        '$'], (c.isAlphanum || c == '/' || c == '.' || c == '_' || c == '-') = false :=
      List.all_iff_forall_prop.mp (by decide)
    exact not_mem_of_isSafeName halnum hsafe (hascii c hmem) (hnone c hspecial) hmem
  no_comment := by
    intro hhead
    exact not_mem_of_isSafeName halnum hsafe (c := '#') (by decide) (by decide)
      (List.mem_of_mem_head? hhead)
  no_open := by
    rintro rfl
    exact not_mem_of_isSafeName halnum hsafe (c := '[') (by decide) (by decide) (.head _)
  no_close := by
    rintro rfl
    exact not_mem_of_isSafeName halnum hsafe (c := ']') (by decide) (by decide) (.head _)

end

section

variable {x : Expander} {fs : Files} {depth : Nat} {st : ShellState} {isAlphanumeric : Char → Bool}

/-- A name that `find` passes on: printed on a line of its own, of ASCII characters unless it
    is quoted, and without a tilde that is taken for the home directory. -/
structure IsPassedName (isAlphanumeric : Char → Bool) (st : ShellState) (name : List Char) :
    Prop where
  line : IsLine name
  ascii : isSafeName isAlphanumeric name = true → ∀ c ∈ name, c.toNat < 0x80
  tilde : isTildeText name = false ∨ st.getVar "HOME" = none

theorem IsPassedName.atLine (h : IsPassedName isAlphanumeric st name) (line : Nat) :
    IsPassedName isAlphanumeric { st with lineno := line } name := ⟨h.line, h.ascii, h.tilde⟩

variable (halnum : ∀ c : Char, c.toNat < 0x80 → isAlphanumeric c = c.isAlphanum)

include halnum

theorem readsBack_shellQuote (h : IsPassedName isAlphanumeric st name) :
    ReadsBack x fs depth st (shellQuote isAlphanumeric name) name := by
  unfold shellQuote
  by_cases hsafe : isSafeName isAlphanumeric name = true
  · rw [if_pos hsafe]
    refine readsBack_plain (isPlainText_of_isSafeName halnum h.line.ne_nil hsafe (h.ascii hsafe))
      (isInert_of_not_mem ?_)
    have hnone : ∀ c ∈ ['{', '~', '*', '?', '[', '('], c.toNat < 0x80 ∧
        (c.isAlphanum || c == '/' || c == '.' || c == '_' || c == '-') = false :=
      List.all_iff_forall_prop.mp (by decide)
    intro c hc
    exact not_mem_of_isSafeName halnum hsafe (hnone c hc).1 (hnone c hc).2
  · rw [if_neg hsafe]
    exact readsBack_quoted h.tilde

/-- A word of a template: the placeholder, or a plain word without it. -/
def IsTemplateWord (fs : Files) (depth : Nat) (st : ShellState) (word : List Char) : Prop :=
  word = placeholder ∨
    (IsPlainText word ∧ IsInert fs depth st word ∧ ¬ placeholder <:+: word)

omit halnum in
theorem IsTemplateWord.atLine {word : List Char} (h : IsTemplateWord fs depth st word)
    (line : Nat) : IsTemplateWord fs depth { st with lineno := line } word :=
  h.imp id fun hplain => ⟨hplain.1, hplain.2.1.atLine line, hplain.2.2⟩

theorem readsBack_templateWord {name word : List Char}
    (hname : IsPassedName isAlphanumeric st name) (hword : IsTemplateWord fs depth st word) :
    ReadsBack x fs depth st (templateWord isAlphanumeric name word) (fillWord name word) := by
  rcases hword with rfl | ⟨hplain, hinert, hfree⟩
  · rw [templateWord, if_pos rfl, fillWord_placeholder]
    exact readsBack_shellQuote halnum hname
  · have hne : word ≠ placeholder := by
      rintro rfl
      exact hfree (List.infix_refl _)
    rw [templateWord, if_neg hne, fillWord_of_not_infix hfree]
    exact readsBack_plain hplain hinert

theorem readsBack_template {template : List (List Char)}
    (hname : IsPassedName isAlphanumeric st name)
    (htemplate : ∀ word ∈ template, IsTemplateWord fs depth st word) :
    List.Forall₂ (ReadsBack x fs depth st) (template.map (templateWord isAlphanumeric name))
      (template.map (fillWord name)) := by
  induction template with
  | nil => exact .nil
  | cons word template ih =>
    exact .cons (readsBack_templateWord halnum hname (htemplate word (.head _)))
      (ih fun w hw => htemplate w (.tail _ hw))

end

/-! ## 5. The commands -/

section

variable {W P : Type} (h : Host W P) (x : Expander) (fs : W → Files) (depth : Nat)
  (st : ShellState) (s : Runtime W) (isAlphanumeric : Char → Bool)

/-- The line is the command of these words and no other, and the first thing that its run
    does is to call it. -/
def PassesArguments (line : String) (call : List String) : Prop :=
  RunsAs h s.state s.world line call ∧
    ∀ n, Starts call Prod.snd s ((interp h (n + 3)).executeInputInner line s)

/-- A state in which the line of a call is run to its command, which is neither an alias nor
    a streamed external. -/
structure RunsPlainly (call : List String) : Prop where
  can_run : s.CanRun 1
  no_alias : aliasText s call = none
  not_streamed : isStreamed h s call = false
  count : (GlobOptions.of s.state).noglob = true ∨ call.length ≤ maxGlobResults

/-- A template and a name `find` prints, of which nothing is read as shell syntax. -/
structure IsFindCall (files : Files) (first : List Char) (template : List (List Char))
    (name : List Char) : Prop where
  passed : IsPassedName isAlphanumeric st name
  words : ∀ word ∈ first :: template, IsTemplateWord files depth st word
  starts : Parser.startsCommand (Utf8.encode (templateWord isAlphanumeric name first)) = true

/-- The commands of `xargs`, of which nothing is read as shell syntax. -/
structure IsXargsInput (o : XargsOpts) (cmd : List Char) (extra items : List (List Char)) :
    Prop where
  command : cmd ≠ "echo".toList ∧ Parser.startsCommand cmd = true
  chunk : o.maxArgs ≠ some 0
  words : ∀ call ∈ xargsCalls o cmd extra items, ∀ a ∈ call, IsPlainText a
  ends : ∀ call ∈ xargsCalls o cmd extra items, ∀ a ∈ call.getLast?, a.getLast? ≠ some '\r'

variable {h x fs depth st s isAlphanumeric}

theorem passesArguments_of_runsAs {line c : String} {args : List String}
    (hnative : ∀ argv st w, h.isNativeStage argv true = true →
      (h.runNativeStage argv st w).isSome = true)
    (hplainly : RunsPlainly h s (c :: args))
    (hruns : ∀ n, RunsAs h { s.state with lineno := n } s.world line (c :: args)) :
    PassesArguments h s line (c :: args) :=
  ⟨hruns s.state.lineno, fun n => starts_command hnative n hplainly.can_run hruns
    hplainly.no_alias hplainly.not_streamed⟩

variable (halnum : ∀ c : Char, c.toNat < 0x80 → isAlphanumeric c = c.isAlphanum)

include halnum

theorem runsAs_findLine {w : W} {first name : List Char} {template : List (List Char)}
    (hcall : IsFindCall depth st isAlphanumeric (fs w) first template name)
    (hcount : (GlobOptions.of st).noglob = true ∨ (first :: template).length ≤ maxGlobResults)
    (n : Nat) :
    RunsAs (h.shell x fs depth) { st with lineno := n } w
      (String.ofList (findLine isAlphanumeric (first :: template) name))
      (((first :: template).map (fillWord name)).map String.ofList) := by
  have hpassed := hcall.passed.atLine n
  exact runsAs_line
    (readsBack_templateWord halnum hpassed ((hcall.words first (.head _)).atLine n))
    (readsBack_template halnum hpassed fun word hword => (hcall.words word (.tail _ hword)).atLine n)
    hcall.starts (hcount.imp id fun hlen => by simpa using hlen)

omit halnum

theorem xargsCalls_head {extra items call : List (List Char)}
    (hcall : call ∈ xargsCalls o cmd extra items) : ∃ args, call = cmd :: args := by
  rcases o with ⟨_ | pattern, _ | n, nullDelim, cmdStart⟩
  · by_cases hitems : items.isEmpty = true
    · simp [xargsCalls, hitems] at hcall
    · simp only [xargsCalls, hitems, Bool.false_eq_true, if_false, List.mem_singleton] at hcall
      exact ⟨_, hcall⟩
  · rcases List.mem_map.mp hcall with ⟨chunk, -, rfl⟩
    exact ⟨_, rfl⟩
  · rcases List.mem_map.mp hcall with ⟨item, -, rfl⟩
    exact ⟨_, rfl⟩
  · rcases List.mem_map.mp hcall with ⟨item, -, rfl⟩
    exact ⟨_, rfl⟩

theorem readsBack_words {files : Files} {args : List (List Char)}
    (hargs : ∀ a ∈ args, IsPlainText a) (hinert : ∀ a ∈ args, IsInert files depth st a) :
    List.Forall₂ (ReadsBack x files depth st) args args := by
  rw [List.forall₂_same]
  exact fun a ha => readsBack_plain (hargs a ha) (hinert a ha)

/-- Plain words, joined by blanks, are a line. -/
theorem isLine_of_plain {args : List (List Char)} (hargs : ∀ a ∈ cmd :: args, IsPlainText a)
    (hends : ∀ a ∈ (cmd :: args).getLast?, a.getLast? ≠ some '\r') :
    IsLine ([' '].intercalate (cmd :: args)) := by
  have hnewline : ∀ a ∈ cmd :: args, '\n' ∉ a := by
    intro a ha hmem
    have hplain := (hargs a ha).plain '\n' hmem
    revert hplain
    decide
  have hlast : ∀ (args : List (List Char)) (cmd : List Char), (∀ a ∈ cmd :: args, IsPlainText a) →
      (∀ a ∈ (cmd :: args).getLast?, a.getLast? ≠ some '\r') →
        ([' '].intercalate (cmd :: args)).getLast? ≠ some '\r' := by
    intro args
    induction args with
    | nil =>
      intro cmd _ hends
      simpa using hends
    | cons a args ih =>
      intro cmd hargs hends
      have ha : [' '].intercalate (a :: args) ≠ [] := by
        rw [intercalate_blank]
        simp [(hargs a (.tail _ (.head _))).ne_nil]
      rw [List.intercalate_cons_cons, List.getLast?_append_of_ne_nil _ ha]
      exact ih a (fun b hb => hargs b (.tail _ hb)) (by simpa using hends)
  refine ⟨?_, ?_, hlast args cmd hargs hends⟩
  · rw [intercalate_blank]
    simp [(hargs cmd (.head _)).ne_nil]
  · rw [intercalate_blank]
    simp only [List.mem_append, List.mem_flatMap, List.mem_cons, not_or, not_exists, not_and]
    refine ⟨hnewline cmd (.head _), ?_⟩
    intro a ha
    exact ⟨by decide, hnewline a (.tail _ ha)⟩

/-- The lines of `xargs`, one for each call. -/
theorem xargsLines_eq {extra items : List (List Char)} (hinput : IsXargsInput o cmd extra items) :
    xargsLines o cmd extra items =
      (xargsCalls o cmd extra items).map ([' '].intercalate ·) := by
  have hlines : ∀ l ∈ (xargsCalls o cmd extra items).map ([' '].intercalate ·), IsLine l := by
    intro l hl
    rcases List.mem_map.mp hl with ⟨call, hcall, rfl⟩
    rcases xargsCalls_head hcall with ⟨args, rfl⟩
    exact isLine_of_plain (hinput.words _ hcall) (hinput.ends _ hcall)
  rw [xargsLines, utilXargs_eq hinput.command.1, nonemptyLines_printLines hlines]

theorem runsAs_xargsLine {w : W} {args : List (List Char)}
    (hstarts : Parser.startsCommand cmd = true) (hwords : ∀ a ∈ cmd :: args, IsPlainText a)
    (hinert : ∀ a ∈ cmd :: args, IsInert (fs w) depth st a)
    (hcount : (GlobOptions.of st).noglob = true ∨ (cmd :: args).length ≤ maxGlobResults)
    (n : Nat) :
    RunsAs (h.shell x fs depth) { st with lineno := n } w
      (String.ofList ([' '].intercalate (cmd :: args))) ((cmd :: args).map String.ofList) := by
  have hcmd := hwords cmd (.head _)
  refine runsAs_line (readsBack_plain hcmd ((hinert cmd (.head _)).atLine n))
    (readsBack_words (fun a ha => hwords a (.tail _ ha))
      fun a ha => (hinert a (.tail _ ha)).atLine n) ?_ hcount
  rw [Utf8.encode_of_ascii hcmd.ascii]
  exact hstarts

/-- Without a placeholder the calls have the tokens, each once and in order, and no more in
    one call than asked for. -/
theorem xargsCalls_tokens {extra items : List (List Char)}
    (hreplace : o.replaceStr = none) (hchunk : o.maxArgs ≠ some 0) :
    ∃ parts : List (List (List Char)), parts.flatten = items ∧
      xargsCalls o cmd extra items = parts.map (fun part => cmd :: (extra ++ part)) ∧
      ∀ n, o.maxArgs = some n → ∀ part ∈ parts, part.length ≤ n := by
  rcases o with ⟨replaceStr, _ | n, nullDelim, cmdStart⟩
  · cases hreplace
    by_cases hitems : items = []
    · exact ⟨[], by simp [hitems], by simp [xargsCalls, hitems], by simp⟩
    · exact ⟨[items], by simp, by simp [xargsCalls, hitems], by simp⟩
  · cases hreplace
    have hn : 0 < n := Nat.pos_of_ne_zero fun hzero => hchunk (by rw [hzero])
    refine ⟨chunks n items, flatten_chunks hn items, rfl, ?_⟩
    intro m hm part hpart
    cases hm
    exact length_le_of_mem_chunksFrom hpart

end

/-- `find -exec` and `xargs` pass names and tokens as data, where the words of the template
    are plain, the names of `find` are printed on lines of their own and are ASCII or quoted,
    the tokens of `xargs` are plain, and each line is run in a state that runs it plainly. -/
theorem templates_pass_arguments {W P : Type} (h : Host W P) (x : Expander) (fs : W → Files)
    (depth : Nat) (isAlphanumeric : Char → Bool)
    (halnum : ∀ c : Char, c.toNat < 0x80 → isAlphanumeric c = c.isAlphanum)
    (hnative : ∀ argv st w, h.isNativeStage argv true = true →
      (h.runNativeStage argv st w).isSome = true) :
    (∀ (argv template rest : List String) (first : String) (names : List (List Char)),
      extractFindExec argv = some (first :: template, rest) → (∀ name ∈ names, IsLine name) →
        ∃ lines, findCommandLines isAlphanumeric argv (printLines names) = some lines ∧
          List.Forall₂ (fun line name => ∀ s : Runtime W,
            let call := ((first :: template).map String.toList).map fun word =>
              String.ofList (fillWord name word)
            IsFindCall depth s.state isAlphanumeric (fs s.world) first.toList
              (template.map String.toList) name →
            RunsPlainly h s call →
              PassesArguments (h.shell x fs depth) s (String.ofList line) call) lines names) ∧
    (∀ (argv extra : List String) (cmd : String) (input : List Char),
      let o := parseXargsOpts argv
      let items := xargsItems o.nullDelim input
      argv.drop o.cmdStart = cmd :: extra → hasNonEcho (argv.drop 1) = true →
      IsXargsInput o cmd.toList (extra.map String.toList) items →
        (∃ lines, xargsCommandLines argv input = some lines ∧
          List.Forall₂ (fun line call => ∀ s : Runtime W,
            (∀ a ∈ call, IsInert (fs s.world) depth s.state a) →
            RunsPlainly h s (call.map String.ofList) →
              PassesArguments (h.shell x fs depth) s (String.ofList line)
                (call.map String.ofList))
            lines (xargsCalls o cmd.toList (extra.map String.toList) items)) ∧
        (o.replaceStr = none →
          ∃ parts : List (List (List Char)), parts.flatten = items ∧
            xargsCalls o cmd.toList (extra.map String.toList) items =
              parts.map (fun part => cmd.toList :: (extra.map String.toList ++ part)) ∧
            ∀ n, o.maxArgs = some n → ∀ part ∈ parts, part.length ≤ n)) := by
  constructor
  · intro argv template rest first names hargv hnames
    refine ⟨findLines isAlphanumeric ((first :: template).map String.toList) (printLines names),
      by rw [findCommandLines, hargv, Option.map_some], ?_⟩
    rw [findLines, nonemptyLines_printLines hnames, List.forall₂_map_left_iff, List.forall₂_same]
    intro name _ s call hcall hplainly
    have hruns : ∀ n, RunsAs (h.shell x fs depth) { s.state with lineno := n } s.world _ _ :=
      runsAs_findLine halnum hcall (by simpa [call] using hplainly.count)
    have hwords : ((first.toList :: template.map String.toList).map (fillWord name)).map
        String.ofList = call := by
      simp [call, Function.comp_def]
    rw [hwords] at hruns
    exact passesArguments_of_runsAs (h := h.shell x fs depth) hnative
      ⟨hplainly.can_run, hplainly.no_alias, hplainly.not_streamed, hplainly.count⟩ hruns
  · intro argv extra cmd input o items hargv hnonecho hinput
    refine ⟨⟨xargsLines o cmd.toList (extra.map String.toList) items, ?_, ?_⟩,
      fun hreplace => xargsCalls_tokens hreplace hinput.chunk⟩
    · simp only [xargsCommandLines, hnonecho, if_true]
      rw [hargv]
      rfl
    · rw [xargsLines_eq hinput, List.forall₂_map_left_iff, List.forall₂_same]
      intro call hcall s hinert hplainly
      have hwords := hinput.words call hcall
      rcases xargsCalls_head hcall with ⟨args, rfl⟩
      have hruns : ∀ n, RunsAs (h.shell x fs depth) { s.state with lineno := n } s.world _ _ :=
        runsAs_xargsLine hinput.command.2 hwords hinert (by simpa using hplainly.count)
      exact passesArguments_of_runsAs (h := h.shell x fs depth) hnative
        ⟨hplainly.can_run, hplainly.no_alias, hplainly.not_streamed, hplainly.count⟩ hruns

theorem isPlainWord_of_not_mem (fs : Files) (depth : Nat) (st : ShellState) {a : List Char}
    (htext : IsPlainText a) (h : ∀ c ∈ ['{', '~', '*', '?', '[', '('], c ∉ a) :
    IsPlainText a ∧ IsInert fs depth st a :=
  ⟨htext, isInert_of_not_mem h⟩

theorem isPassedName_of_ascii {isAlphanumeric : Char → Bool} {st : ShellState}
    (hline : name ≠ [] ∧ '\n' ∉ name ∧ name.getLast? ≠ some '\r')
    (hascii : ∀ c ∈ name, c.toNat < 0x80) (htilde : isTildeText name = false) :
    IsPassedName isAlphanumeric st name :=
  ⟨⟨hline.1, hline.2.1, hline.2.2⟩, fun _ => hascii, Or.inl htilde⟩

theorem templates_pass_arguments_of_names :
    (∃ lines, findCommandLines Char.isAlphanum ["find", ".", "-exec", "cp", "\x7b\x7d", ";"]
        (printLines ["a b".toList, "c;'d".toList]) = some lines ∧
      List.Forall₂ (PassesArguments bareShell .bare)
        (lines.map String.ofList) [["cp", "a b"], ["cp", "c;'d"]]) ∧
    (∃ lines, xargsCommandLines ["xargs", "-n", "2", "rm"] "a b\nc\n".toList = some lines ∧
      List.Forall₂ (PassesArguments bareShell .bare)
        (lines.map String.ofList) [["rm", "a", "b"], ["rm", "c"]]) := by
  have hpass := templates_pass_arguments (Host.bare (fun _ => .error "") basicBuiltins) .plain
    (fun _ => noFiles) 0 Char.isAlphanum (fun _ _ => rfl) (fun _ _ _ hno => (by cases hno))
  have hplainly : ∀ call : List String, aliasText Runtime.bare call = none →
      isStreamed (Host.bare (fun _ => .error "") basicBuiltins) .bare call = false →
        call.length ≤ maxGlobResults → RunsPlainly
          (Host.bare (fun _ => .error "") basicBuiltins) .bare call := fun call hcall hstream hlen =>
    ⟨⟨rfl, by decide +kernel, by decide +kernel, by decide +kernel, .inr (by decide +kernel),
      by decide +kernel, rfl, .inl rfl⟩, hcall, hstream, .inr hlen⟩
  constructor
  · have hword : ∀ word ∈ ["cp".toList, "\x7b\x7d".toList],
        IsTemplateWord noFiles 0 Runtime.bare.state word := by
      intro word hword
      simp only [List.mem_cons, List.not_mem_nil, or_false] at hword
      rcases hword with rfl | rfl
      · have hcp := isPlainWord_of_not_mem noFiles 0 Runtime.bare.state (a := "cp".toList)
          (by decide) (List.all_iff_forall_prop.mp (by decide))
        exact Or.inr ⟨hcp.1, hcp.2, by decide⟩
      · exact Or.inl rfl
    have hname : ∀ name ∈ ["a b".toList, "c;'d".toList],
        IsPassedName Char.isAlphanum Runtime.bare.state name := by
      intro name hname
      simp only [List.mem_cons, List.not_mem_nil, or_false] at hname
      rcases hname with rfl | rfl
      all_goals
        exact isPassedName_of_ascii (by decide) (List.all_iff_forall_prop.mp (by decide)) (by decide)
    rcases hpass.1 ["find", ".", "-exec", "cp", "\x7b\x7d", ";"] ["\x7b\x7d"] ["find", "."] "cp"
      ["a b".toList, "c;'d".toList] (by decide) (fun name h => (hname name h).line)
      with ⟨lines, hlines, hruns⟩
    refine ⟨lines, hlines, ?_⟩
    rcases hruns with _ | ⟨hfirst, _ | ⟨hsecond, _ | _⟩⟩
    exact .cons (hfirst .bare ⟨hname _ (.head _), hword, by decide⟩
      (hplainly _ rfl rfl (by decide))) (.cons (hsecond .bare
        ⟨hname _ (.tail _ (.head _)), hword, by decide⟩ (hplainly _ rfl rfl (by decide))) .nil)
  · have hplain : ∀ a ∈ ["rm".toList, "a".toList, "b".toList, "c".toList],
        IsPlainText a ∧ IsInert noFiles 0 Runtime.bare.state a := by
      intro a ha
      simp only [List.mem_cons, List.not_mem_nil, or_false] at ha
      rcases ha with rfl | rfl | rfl | rfl
      all_goals
        exact isPlainWord_of_not_mem _ _ _ (by decide) (List.all_iff_forall_prop.mp (by decide))
    have hcalls : ∀ call ∈ xargsCalls (parseXargsOpts ["xargs", "-n", "2", "rm"]) "rm".toList []
        (xargsItems false "a b\nc\n".toList),
          ∀ a ∈ call, a ∈ ["rm".toList, "a".toList, "b".toList, "c".toList] := by
      decide
    rcases (hpass.2 ["xargs", "-n", "2", "rm"] [] "rm" "a b\nc\n".toList (by decide) (by decide)
      ⟨by decide, by decide, fun call hcall a ha => (hplain a (hcalls call hcall a ha)).1,
        by decide⟩).1 with ⟨lines, hlines, hruns⟩
    refine ⟨lines, hlines, ?_⟩
    have hinert : ∀ call : List (List Char), (∀ a ∈ call, a ∈ ["rm".toList, "a".toList, "b".toList,
        "c".toList]) → ∀ a ∈ call, IsInert noFiles 0 Runtime.bare.state a :=
      fun call hcall a ha => (hplain a (hcall a ha)).2
    rcases hruns with _ | ⟨hfirst, _ | ⟨hsecond, _ | _⟩⟩
    exact .cons (hfirst .bare (hinert _ (by decide)) (hplainly _ rfl rfl (by decide)))
      (.cons (hsecond .bare (hinert _ (by decide)) (hplainly _ rfl rfl (by decide))) .nil)

/-- A word of the template with a blank in it is split. -/
theorem find_splits_template_word :
    findCommandLines Char.isAlphanum ["find", ".", "-exec", "echo", "x y", "\x7b\x7d", ";"]
        (printLines ["f".toList]) = some ["echo x y f".toList] ∧
      ¬ RunsAs bareShell .new () "echo x y f"
        ((["echo", "x y", "\x7b\x7d"].map String.toList).map fun word =>
          String.ofList (fillWord "f".toList word)) := by
  constructor
  · decide
  · intro hrun
    have hsplit : RunsAs bareShell .new () (" ".intercalate ["echo", "x", "y", "f"])
        ["echo", "x", "y", "f"] := by
      refine runsAs_arguments ⟨isPlainArgument_of_not_mem (by decide)
        (List.all_iff_forall_prop.mp (by decide)), by decide⟩ ?_ (Or.inr (by decide))
      intro a ha
      simp only [List.mem_cons, List.not_mem_nil, or_false] at ha
      rcases ha with rfl | rfl | rfl
      all_goals exact isPlainArgument_of_not_mem (by decide) (List.all_iff_forall_prop.mp (by decide))
    have heq := hrun.unique hsplit
    revert heq
    decide

end Wasmsh

import Mathlib.Data.Bool.AllAny
import Wasmsh.TextRuns

/-!
# What an alias makes of its arguments

`try_alias_expansion` puts the value of the alias and the arguments, which are expanded
already, behind each other with blanks in between and runs the text.  The command named by
the alias gets the arguments back when none of them means anything to the parser and nothing
is left of them to expand; and the expansion of the command word comes to an end when the
aliases lead to a word that is none, over not more of them than texts may be run inside each
other.
-/

namespace Wasmsh

open IndexMap Globs Interp

variable {W P : Type}

/-! ## 1. Aliases of aliases -/

/-- The aliases that are expanded one after the other from a command word, and the word
    they end at. -/
inductive AliasChain (aliases : Map String String) : String → List String → String → Prop where
  | done {c : String} (hc : get aliases c = none) : AliasChain aliases c [] c
  | step {a b c : String} {names : List String} (ha : get aliases a = some b)
      (h : AliasChain aliases b names c) : AliasChain aliases a (a :: names) c

namespace AliasChain

variable {aliases : Map String String} {a c : String} {names : List String}

/-- The last word is no alias. -/
theorem last (h : AliasChain aliases a names c) : get aliases c = none := by
  induction h with
  | done hc => exact hc
  | step _ _ ih => exact ih

theorem unique {c' : String} {names' : List String} (h : AliasChain aliases a names c)
    (h' : AliasChain aliases a names' c') : names = names' := by
  induction h generalizing names' with
  | done hc =>
    cases h' with
    | done _ => rfl
    | step ha _ =>
      rw [hc] at ha
      cases ha
  | step ha _ ih =>
    cases h' with
    | done hc =>
      rw [hc] at ha
      cases ha
    | step ha' h' =>
      rw [ha] at ha'
      injection ha' with hb
      subst hb
      rw [ih h']

/-- From each name of a chain there is a chain, not longer than the whole. -/
theorem of_mem (h : AliasChain aliases a names c) {n : String} (hn : n ∈ names) :
    ∃ rest, AliasChain aliases n (n :: rest) c ∧ rest.length < names.length := by
  induction h with
  | done _ => cases hn
  | @step a b c names ha h ih =>
    rcases List.mem_cons.mp hn with rfl | hn
    · exact ⟨names, .step ha h, Nat.lt_succ_self _⟩
    · rcases ih hn with ⟨rest, hrest, hlt⟩
      exact ⟨rest, hrest, Nat.lt_succ_of_lt hlt⟩

/-- No name of a chain is expanded twice. -/
theorem nodup (h : AliasChain aliases a names c) : names.Nodup := by
  induction h with
  | done _ => exact .nil
  | @step a b c names ha h ih =>
    refine List.nodup_cons.mpr ⟨?_, ih⟩
    intro hmem
    rcases h.of_mem hmem with ⟨rest, hrest, hlt⟩
    have heq := (AliasChain.step ha h).unique hrest
    injection heq with _ heq
    rw [heq] at hlt
    exact Nat.lt_irrefl _ hlt

end AliasChain

/-! ## 2. Arguments -/

/-- An argument without a byte that means anything to the parser, which braces, tilde and
    pathname expansion leave alone. -/
structure IsPlainArgument (fs : Files) (depth : Nat) (st : ShellState) (a : String) : Prop where
  text : IsPlainText a.toList
  inert : IsInert fs depth st a.toList

/-- A plain argument that is taken for the name of a command. -/
structure IsCommandName (fs : Files) (depth : Nat) (st : ShellState) (c : String) : Prop extends
    IsPlainArgument fs depth st c where
  starts : Parser.startsCommand c.toList = true

section

variable {fs : Files} {depth : Nat} {st : ShellState} {a : String} (line : Nat)

theorem IsInert.atLine {t : List Char} (ht : IsInert fs depth st t) :
    IsInert fs depth { st with lineno := line } t := ⟨ht.braces, ht.tilde, ht.pathname⟩

theorem IsPlainArgument.atLine (ha : IsPlainArgument fs depth st a) :
    IsPlainArgument fs depth { st with lineno := line } a := ⟨ha.text, ha.inert.atLine line⟩

theorem IsCommandName.atLine (ha : IsCommandName fs depth st a) :
    IsCommandName fs depth { st with lineno := line } a := ⟨ha.toIsPlainArgument.atLine line, ha.starts⟩

end

theorem readsBack_arguments {x : Expander} {fs : Files} {depth : Nat} {st : ShellState}
    {args : List String} (hargs : ∀ a ∈ args, IsPlainArgument fs depth st a) :
    List.Forall₂ (ReadsBack x fs depth st) (args.map String.toList) (args.map String.toList) := by
  induction args with
  | nil => exact .nil
  | cons a args ih =>
    have ha := hargs a (.head _)
    exact .cons (readsBack_plain ha.text ha.inert) (ih fun b hb => hargs b (.tail _ hb))

/-- A command name and plain arguments, joined by blanks, run as they are. -/
theorem runsAs_arguments {h : Host W P} {x : Expander} {fs : W → Files} {depth : Nat}
    {st : ShellState} {w : W} {c : String} {args : List String}
    (hc : IsCommandName (fs w) depth st c)
    (hargs : ∀ a ∈ args, IsPlainArgument (fs w) depth st a)
    (hcount : (GlobOptions.of st).noglob = true ∨ (c :: args).length ≤ maxGlobResults) :
    RunsAs (h.shell x fs depth) st w (" ".intercalate (c :: args)) (c :: args) := by
  have hline := runsAs_line (h := h) (readsBack_plain (x := x) hc.text hc.inert)
    (readsBack_arguments hargs)
    (by rw [Utf8.encode_of_ascii hc.text.ascii]; exact hc.starts) (by simpa using hcount)
  have htext : String.ofList ([' '].intercalate (c.toList :: args.map String.toList)) =
      " ".intercalate (c :: args) := by
    rw [← String.toList_inj, String.toList_ofList, String.toList_intercalate]
    rfl
  have hvalues : (c.toList :: args.map String.toList).map String.ofList = c :: args := by
    simp [Function.comp_def]
  rwa [htext, hvalues] at hline

theorem aliasText_of_get {s : Runtime W} {args : List String} {a v : String}
    (hon : s.state.flag "SHOPT_expand_aliases" = true) (ha : get s.aliases a = some v) :
    aliasText s (a :: args) = some (" ".intercalate (v :: args)) := by
  simp [aliasText, hon, ha]

/-- The text of an alias calls, first of all, the command that the aliases lead to. -/
theorem starts_chain {h : Host W P} {x : Expander} {fs : W → Files} {depth : Nat}
    {aliases : Map String String} {name command : String} {names args : List String}
    (hchain : AliasChain aliases name names command)
    (hnative : ∀ argv st w, h.isNativeStage argv true = true →
      (h.runNativeStage argv st w).isSome = true)
    (s : Runtime W) (haliases : s.aliases = aliases)
    (hon : s.state.flag "SHOPT_expand_aliases" = true)
    (hvalues : ∀ n ∈ names, ∀ v, get aliases n = some v →
      IsCommandName (fs s.world) depth s.state v)
    (hargs : ∀ a ∈ args, IsPlainArgument (fs s.world) depth s.state a)
    (hcount : (GlobOptions.of s.state).noglob = true ∨ args.length < maxGlobResults)
    (hcan : s.CanRun names.length) (hstreamed : isStreamed h s (command :: args) = false)
    {text : String} (htext : aliasText s (name :: args) = some text) (n : Nat) :
    Starts (command :: args) Prod.snd s
      ((interp (h.shell x fs depth) (2 * names.length + 1 + n)).executeInputInner text s) := by
  induction hchain generalizing s text n with
  | done hc =>
    rw [← haliases] at hc
    simp [aliasText, hon, hc] at htext
  | @step a b c names ha hrest ih =>
    subst haliases
    rw [aliasText_of_get hon ha] at htext
    cases htext
    have hb := hvalues a (.head _) b ha
    have hruns : ∀ line, RunsAs (h.shell x fs depth) { s.state with lineno := line } s.world
        (" ".intercalate (b :: args)) (b :: args) := fun line =>
      runsAs_arguments (hb.atLine line) (fun a ha => (hargs a ha).atLine line) hcount
    have hfuel : 2 * (a :: names).length + 1 + n = 2 * names.length + 1 + n + 2 := by
      rw [List.length_cons]
      omega
    rw [hfuel]
    cases hrest with
    | done hc =>
      have hplain : aliasText s (b :: args) = none := by simp [aliasText, hon, hc]
      have hzero : 2 * ([] : List String).length + 1 + n + 2 = n + 3 := by
        rw [List.length_nil]
        omega
      rw [hzero]
      exact starts_command (h := h.shell x fs depth) hnative n hcan hruns hplain hstreamed
    | @step _ b' _ names ha' hrest' =>
      refine starts_alias (h := h.shell x fs depth) hnative _ hcan hruns
        (aliasText_of_get hon ha') fun line => ?_
      exact ih (s.inText line) rfl hon
        (fun m hm v hv => (hvalues m (.tail _ hm) v hv).atLine line)
        (fun a ha => (hargs a ha).atLine line) hcount (hcan.inText line) hstreamed
        (aliasText_of_get hon ha') n

/-- A shell in which aliases are on. -/
def Runtime.withAliases (aliases : Map String String) : Runtime Unit :=
  { Runtime.bareWith "SHOPT_expand_aliases" (.ofScalar "1") with aliases := aliases }

theorem isPlainArgument_of_not_mem {fs : Files} {depth : Nat} {st : ShellState} {a : String}
    (htext : IsPlainText a.toList) (h : ∀ c ∈ ['{', '~', '*', '?', '[', '('], c ∉ a.toList) :
    IsPlainArgument fs depth st a :=
  ⟨htext, isInert_of_not_mem h⟩

end Wasmsh

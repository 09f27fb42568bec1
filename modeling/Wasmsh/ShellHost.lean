import Wasmsh.Arguments
import Wasmsh.BareHost

/-!
# The shell's own parser and word expansion as a host

The interpreter takes its parser and the expansion of words from its host.  `Host.shell`
gives any host those of the shell; the parameters and the arithmetic inside the words are
an `Expander`'s, and the files that pathname expansion sees are read off the world.
-/

namespace Wasmsh

open Globs Expand

variable {W P : Type}

/-- The host `h` with the parser and the word expansion of the shell.  `depth` bounds the
    depth of the directories that `**` walks through. -/
def Host.shell (h : Host W P) (x : Expander) (fs : W → Files) (depth : Nat) : Host W P :=
  { h with
    parse := fun text => (Parser.parse text).mapError fun e =>
      "parse error at " ++ toString e.offset ++ ": " ++ e.message
    expandArgv := fun ws st w => Expand.expandArgv x (fs w) depth ws st
    splitForPart := fun ifs quoted p out f st =>
      if quoted then splitQuotedPart x p out f st else splitUnquotedPart x ifs p out f st
    expandGlobs := fun fields st w =>
      (expandForGlobs (fs w) depth (fields.map String.toList) st).map String.ofList
    expandWord := fun w st =>
      ((Expand.expandWord x w st).1, String.ofList (Expand.expandWord x w st).2) }

/-- The text is one simple command, its words are written literally and expand to `argv`, for
    the full evaluator and for the VM. -/
def RunsAs (h : Host W P) (st : ShellState) (w : W) (text : String) (argv : List String) : Prop :=
  ∃ words span, h.parse text = .ok (Parser.simpleProgram words span) ∧
    h.expandArgv words st w = ([], some argv) ∧
    words.map (h.expandWord · st) = argv.map (fun a => ([], a)) ∧
    words.map Ir.literalWordText = argv.map some

section

variable {h : Host W P} {x : Expander} {fs : W → Files} {depth : Nat} {st : ShellState} {w : W}

/-- A line of texts that are read back runs as the arguments they stand for. -/
theorem runsAs_line {u t : List Char} {us ts : List (List Char)}
    (hu : ReadsBack x (fs w) depth st u t)
    (hus : List.Forall₂ (ReadsBack x (fs w) depth st) us ts)
    (hstart : Parser.startsCommand (Utf8.encode u) = true)
    (hcount : (GlobOptions.of st).noglob = true ∨ (t :: ts).length ≤ maxGlobResults) :
    RunsAs (h.shell x fs depth) st w (String.ofList ([' '].intercalate (u :: us)))
      ((t :: ts).map String.ofList) := by
  rcases parses_and_expands hu hus hstart hcount with
    ⟨words, span, hparse, hargv, hwords, hliteral⟩
  refine ⟨words, span, ?_, hargv, ?_, ?_⟩
  · simp only [Host.shell, hparse, Except.mapError]
  · have hmap := congrArg (List.map fun e : List StateOp × List Char =>
      (e.1, String.ofList e.2)) hwords
    rw [List.map_map, List.map_map] at hmap
    simpa [Host.shell, Function.comp_def] using hmap
  · rw [hliteral, List.map_map]
    rfl

/-- What a text runs as is determined by the text. -/
theorem RunsAs.unique {text : String} {argv argv' : List String} (h₁ : RunsAs h st w text argv)
    (h₂ : RunsAs h st w text argv') : argv = argv' := by
  rcases h₁ with ⟨words, span, hparse, hargv, -⟩
  rcases h₂ with ⟨words', span', hparse', hargv', -⟩
  rw [hparse] at hparse'
  injection hparse' with hprogram
  have hcommand := Parser.commandProgram_inj hprogram
  injection hcommand with hexec
  injection hexec with hwords
  rw [hwords, hargv'] at hargv
  injection hargv with _ hsome
  injection hsome with heq
  exact heq.symm

end

/-- The world in which there are no files. -/
def noFiles : Files := ⟨fun _ => none, fun _ => false⟩

/-- An expander that knows plain variables and integer literals. -/
def Expander.plain : Expander where
  expandParameter _ name st := ([], ((st.getVar (String.ofList name)).getD "").toList)
  evalArithmetic e _ := bareArithmetic (String.ofList e)
  fits _ _ _ := true
  expandParameter_of_fits _ _ := rfl

/-- The bare host with the shell's parser and expansion, over no files. -/
def bareShell : Host Unit Unit :=
  (Host.bare (fun _ => .error "") basicBuiltins).shell .plain (fun _ => noFiles) 0

end Wasmsh

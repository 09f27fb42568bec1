import Wasmsh.ArithValues
import Wasmsh.SedCycle

/-!
# The cycle of `sed` against its reference

Scripts as they are written, the instructions that the parser makes of them, and the two
cycles step by step.
-/

namespace Wasmsh.Sed

open PosixRegex Splices

variable {instr : Instruction} {command : Command}

/-! ## 1. Instructions of the program -/

def Address.code : Address → SedAddr
  | line n => .line n
  | last => .last
  | regex pattern => .regex pattern

def Selector.code : Selector → SedAddr
  | every => .none
  | one address => address.code
  | range first second => .range first.code second.code

def Command.code : Command → SedCmd
  | s _ pattern replacement all => .substitute ⟨pattern, replacement, all⟩
  | d => .delete
  | p => .print
  | q => .quit
  | y source target => .transliterate source target
  | a text => .appendText text
  | i text => .insertText text
  | c text => .changeText text

def Instruction.code (instr : Instruction) : SedInstruction :=
  ⟨instr.selector.code, instr.command.code⟩

/-- The instructions of the program, with the range states. -/
def codes (states : List (Instruction × Bool)) : List (SedInstruction × Bool) :=
  states.map fun e => (e.1.code, e.2)

/-! ## 2. One instruction -/

section Steps

variable {compileBre : List Char → Option Regex} {suppressPrint : Bool} {lineNum : Nat}
variable {isLast : Bool} {text : List Char}

theorem addrMatches_code {address : Address} (h : address.Compiles compileBre) (active : Bool) :
    sedAddrMatches compileBre lineNum isLast text address.code active =
      (address.selects compileBre lineNum isLast text, active) := by
  cases address with
  | line n => rfl
  | last => rfl
  | regex pattern =>
    rcases Option.isSome_iff_exists.mp h with ⟨re, hre⟩
    simp only [Address.code, sedAddrMatches, Address.selects, hre, Option.any_some]

/-- The program selects the lines that are to be selected. -/
theorem addrMatches_select {selector : Selector} {active : Bool}
    (hcompiles : selector.Compiles compileBre)
    (hfits : selector.Fits compileBre lineNum isLast text active) :
    sedAddrMatches compileBre lineNum isLast text selector.code active =
      selector.select compileBre lineNum isLast text active := by
  cases selector with
  | every => rfl
  | one address => exact addrMatches_code hcompiles active
  | range first second =>
    have hfirst : ∀ active, sedAddrMatches compileBre lineNum isLast text first.code active =
        (first.selects compileBre lineNum isLast text, active) := addrMatches_code hcompiles.1
    have hsecond : ∀ active, sedAddrMatches compileBre lineNum isLast text second.code active =
        (second.selects compileBre lineNum isLast text, active) := addrMatches_code hcompiles.2
    rw [Selector.code, sedAddrMatches, hfirst, hsecond]
    cases active with
    | true =>
      cases second with
      | line n =>
        have hle : lineNum ≤ n := hfits
        simp only [if_true, Selector.select, Address.selects, Prod.mk.injEq]
        refine ⟨(decide_eq_true hle).symm, ?_⟩
        rcases Nat.lt_or_eq_of_le hle with hlt | heq
        · rw [decide_eq_true hlt, beq_eq_false_iff_ne.mpr (Nat.ne_of_lt hlt)]
          rfl
        · subst heq
          simp
      | last => rfl
      | regex pattern => rfl
    | false =>
      cases hselects : first.selects compileBre lineNum isLast text with
      | false => simp [Selector.select, hselects]
      | true =>
        cases second with
        | line n =>
          have hlt : lineNum < n := hfits hselects
          simp [Selector.select, hselects, hlt]
        | last => simp [Selector.select, hselects]
        | regex pattern => simp [Selector.select, hselects]

theorem applyTransliterate_eq {source target : List Char} (h : source.length = target.length) :
    sedApplyTransliterate text source target = transliterated source target text := by
  unfold sedApplyTransliterate transliterated
  refine List.map_congr_left fun c _ => ?_
  cases hpos : source.idxOf? c with
  | none => rfl
  | some pos =>
    have hlt : pos < target.length := by
      rw [← h]
      exact (List.findIdx?_eq_some_iff_getElem.mp hpos).1
    dsimp only
    rw [Option.bind_some, List.getElem?_eq_getElem hlt]
    rfl

theorem escapedChar_eq (c : Char) : escapedChar c = escapedLetter c := by
  unfold escapedChar escapedLetter
  split
  · next h =>
    subst h
    rfl
  · split
    · next h =>
      subst h
      rfl
    · split
      · next h =>
        subst h
        rfl
      · split
        · contradiction
        · contradiction
        · contradiction
        · rfl

/-- What is appended for a match, where the groups that are inserted read as they are to. -/
theorem appendReplacement_eq {remaining bytes : List Char} {caps : Captures} {o : Occurrence}
    {replacement : List Char} (h : ∀ i, .group i ∈ inserts replacement →
      pushCapture remaining caps i = some (o.groupText bytes i)) :
    appendReplacement remaining caps replacement =
      some ((inserts replacement).flatMap (o.insertText bytes)) := by
  fun_induction inserts replacement with
  | case1 => rfl
  | case2 template ih =>
    rw [appendReplacement, h 0 (.head _), ih fun i hi => h i (.tail _ hi)]
    rfl
  | case3 c template ih =>
    rw [appendReplacement, ih fun i hi => h i (.tail _ hi)]
    split
    · next hdigit =>
      rw [if_pos hdigit] at h
      rw [h _ (.head _)]
      rfl
    · rw [escapedChar_eq]
      rfl
  | case4 c template hamp hback ih =>
    have htail := ih fun i hi => h i (.tail _ hi)
    by_cases hc : c = '\\'
    · subst hc
      cases template with
      | nil => rfl
      | cons d template => exact absurd rfl (hback d template rfl)
    · rw [appendReplacement.eq_5 _ _ _ _ (fun h _ => hc h) (fun _ _ h _ => hc h) hamp, htail]
      rfl

/-- Matches that are the occurrences are replaced as these are. -/
theorem entries_of_matches {bytes replacement : List Char} {found : List PosixRegex.Match}
    {occurrences : List Occurrence} (h : List.Forall₂ (Matches bytes replacement) found occurrences) :
    entries bytes replacement found =
      occurrences.map fun o => (o.start, o.stop, some (o.replacedBy bytes replacement).2.2) := by
  induction h with
  | nil => rfl
  | cons hmatch _ ih =>
    rcases hmatch with ⟨hstart, hstop, hgroups⟩
    rw [entries, List.map_cons, List.map_cons, ← ih, hstart, hstop, Match.replacementText,
      appendReplacement_eq hgroups]
    rfl

theorem applySubstitute_eq
    (hengine : ∀ pattern re, compileBre pattern = some re → re.inner.InRange)
    {pattern replacement : List Char} {all : Bool}
    (h : SubstitutesCleanly compileBre pattern replacement all text) :
    sedApplySubstitute compileBre text ⟨pattern, replacement, all⟩ =
      some (substituted compileBre pattern replacement all text) := by
  rcases h with ⟨re, hre, hmatches, hclean⟩
  rcases replaceBy_of_clean (hengine pattern re hre) hclean with ⟨pieces, hreturn, hlisted, htext⟩
  have hranges : (replacedOccurrences re.inner (Utf8.encode text) all).map
      (·.replacedBy (Utf8.encode text) replacement) = replacedOf pieces := by
    have huntagged : (tagged pieces).map (fun range => (range.1, range.2.1, range.2.2.getD [])) =
        replacedOf pieces := by
      rw [tagged, List.map_map]
      exact List.map_id _
    have hentries := entries_of_matches hmatches
    rw [← huntagged, hlisted, selected]
    rw [entries] at hentries
    rw [hentries, List.map_map]
    rfl
  unfold sedApplySubstitute substituted
  simp only [hre]
  rw [hranges, ← htext]
  cases all with
  | true =>
    have hall : replaceAll re (Utf8.encode text) replacement = some pieces := hreturn
    rw [if_pos rfl, hall]
    rfl
  | false =>
    have hfirst : replace re (Utf8.encode text) replacement = some pieces := hreturn
    rw [if_neg Bool.false_ne_true, hfirst]
    rfl

end Steps

/-! ## 3. One line -/

section Lines

variable {compileBre : List Char → Option Regex} {suppressPrint : Bool} {lineNum : Nat}
variable {isLast : Bool}

/-- The line that the program has printed before its time, when `a` was done. -/
def early (suppressPrint printed appended : Bool) (text : List Char) : List (List Char) :=
  if appended && !suppressPrint && !printed then [text] else []

/-- The state of the program after `p` and `a`. -/
def stateOf (suppressPrint printed appended : Bool) (text : List Char) : SedLineState :=
  ⟨text, false, printed || (appended && !suppressPrint), false⟩

/-- What is still to come out for the line, with what `a` has queued before. -/
def Outcome.remaining (suppressPrint : Bool) (queued : List (List Char)) (out : Outcome) :
    List (List Char) :=
  out.printed ++ (if suppressPrint || out.ending == .deleted then [] else [out.text]) ++
    (queued ++ out.queued)

/-- The rest of a line in the program does what the reference does: it returns, goes on with the
    same ranges and ends in the same way, and what it emits, behind what was emitted too early
    and what was queued, comes to the same lines. -/
def Follows (suppressPrint : Bool)
    (computed : Option (List (SedInstruction × Bool) × List (List Char) × SedLineState))
    (ahead queued : List (List Char)) (out : Outcome) : Prop :=
  ∃ run, computed = some run ∧ run.1 = codes out.states ∧
    (run.2.2.quit = true ↔ out.ending = .quit) ∧
      ahead ++ queued ++ (run.2.1 ++ automaticPrint suppressPrint run.2.2) =
        out.remaining suppressPrint queued

/-- What is left of a line when the instructions end and it is not deleted. -/
theorem remaining_of_end {printed appended quit : Bool} {text : List Char}
    {queued : List (List Char)} {ending : Ending} {states : List (Instruction × Bool)}
    (hqueued : appended = false → queued = []) (h : suppressPrint = true ∨ printed = false)
    (hending : ending ≠ .deleted) :
    early suppressPrint printed appended text ++ queued ++ ([] ++
        automaticPrint suppressPrint
          ⟨text, false, printed || (appended && !suppressPrint), quit⟩) =
      Outcome.remaining suppressPrint queued ⟨[], [], text, ending, states⟩ := by
  have hkept : (ending == .deleted) = false := beq_eq_false_iff_ne.mpr hending
  unfold early automaticPrint Outcome.remaining
  rw [hkept, Bool.or_false]
  cases suppressPrint with
  | true => simp
  | false =>
    rcases h with h | rfl
    · cases h
    · cases appended with
      | true => simp
      | false => simp [hqueued rfl]

/-- The rest of the line behind an instruction that was done. -/
def behindCommand (compileBre : List Char → Option Regex) (suppressPrint : Bool) (lineNum : Nat)
    (isLast : Bool) (entry : SedInstruction × Bool) (behind : List (SedInstruction × Bool))
    (applied : SedLineState × List (List Char) × Bool) :
    Option (List (SedInstruction × Bool) × List (List Char) × SedLineState) :=
  if applied.2.2 then some (entry :: behind, applied.2.1, applied.1)
  else
    (sedRunInstructions compileBre suppressPrint lineNum isLast behind applied.1).map fun run =>
      (entry :: run.1, applied.2.1 ++ run.2.1, run.2.2)

/-- A command after which the instructions go on. -/
theorem Follows.next (before : List (List Char)) {active : Bool}
    {behind : List (Instruction × Bool)} {st : SedLineState}
    {emitted ahead ahead' queued queued' : List (List Char)} {out out' : Outcome}
    (hrest : Follows suppressPrint
      (sedRunInstructions compileBre suppressPrint lineNum isLast (codes behind) st)
      ahead' queued' out')
    (hemitted : ahead ++ queued ++ emitted = before ++ (ahead' ++ queued'))
    (hremaining : out.remaining suppressPrint queued =
      before ++ out'.remaining suppressPrint queued')
    (hending : out.ending = out'.ending) (hstates : out.states = (instr, active) :: out'.states) :
    Follows suppressPrint (behindCommand compileBre suppressPrint lineNum isLast
      (instr.code, active) (codes behind) (st, emitted, false)) ahead queued out := by
  rcases hrest with ⟨run, hrun, hcodes, hquit, hlines⟩
  refine ⟨((instr.code, active) :: run.1, emitted ++ run.2.1, run.2.2), ?_, ?_, ?_, ?_⟩
  · rw [behindCommand, if_neg Bool.false_ne_true, hrun]
    rfl
  · rw [hstates, hcodes]
    rfl
  · rw [hending]
    exact hquit
  · rw [hremaining, ← hlines]
    calc ahead ++ queued ++ (emitted ++ run.2.1 ++ automaticPrint suppressPrint run.2.2)
        = ahead ++ queued ++ emitted ++ (run.2.1 ++ automaticPrint suppressPrint run.2.2) := by
          simp only [List.append_assoc]
      _ = before ++ (ahead' ++ queued' ++ (run.2.1 ++ automaticPrint suppressPrint run.2.2)) := by
          rw [hemitted]
          simp only [List.append_assoc]

/-- A command after which the instructions stop. -/
theorem Follows.stop {active : Bool} {behind : List (Instruction × Bool)}
    {st : SedLineState} {emitted ahead queued : List (List Char)} {out : Outcome}
    (hlines : ahead ++ queued ++ (emitted ++ automaticPrint suppressPrint st) =
      out.remaining suppressPrint queued)
    (hquit : st.quit = true ↔ out.ending = .quit)
    (hstates : out.states = (instr, active) :: behind) :
    Follows suppressPrint (behindCommand compileBre suppressPrint lineNum isLast
      (instr.code, active) (codes behind) (st, emitted, true)) ahead queued out := by
  refine ⟨_, if_pos rfl, ?_, hquit, hlines⟩
  rw [hstates]
  rfl

theorem early_of_unchanged {printed appended : Bool} {text text' : List Char}
    (h : appended = true → suppressPrint = true ∨ text' = text) :
    early suppressPrint printed appended text = early suppressPrint printed appended text' := by
  unfold early
  cases appended with
  | false => rfl
  | true =>
    rcases h rfl with rfl | rfl
    · simp
    · rfl

/-- A command on a selected line. -/
theorem follows_command
    (hengine : ∀ pattern re, compileBre pattern = some re → re.inner.InRange)
    {active ends printed appended : Bool} {text : List Char}
    {behind : List (Instruction × Bool)} {queued : List (List Char)}
    (hrest : ∀ printed appended text queued, (appended = false → queued = []) →
      InstructionsFit compileBre suppressPrint lineNum isLast behind printed appended text →
        Follows suppressPrint (sedRunInstructions compileBre suppressPrint lineNum isLast
          (codes behind) (stateOf suppressPrint printed appended text))
            (early suppressPrint printed appended text) queued
              (runLine compileBre lineNum isLast behind text))
    (hqueued : appended = false → queued = [])
    (hfits : command.Fits compileBre suppressPrint ends printed appended text
      (InstructionsFit compileBre suppressPrint lineNum isLast behind)) :
    Follows suppressPrint
      ((sedApplyCommand compileBre suppressPrint (stateOf suppressPrint printed appended text)
        command.code).bind (behindCommand compileBre suppressPrint lineNum isLast
          (instr.code, active) (codes behind)))
      (early suppressPrint printed appended text) queued
      { command.run compileBre ends text behind (runLine compileBre lineNum isLast behind) with
        states := (instr, active) :: (command.run compileBre ends text behind
          (runLine compileBre lineNum isLast behind)).states } := by
  cases command with
  | s delim pattern replacement all =>
    rcases hfits with ⟨hclean, hsame, hfits⟩
    have happly : sedApplyCommand compileBre suppressPrint
        (stateOf suppressPrint printed appended text) (Command.s delim pattern replacement all).code =
          some (stateOf suppressPrint printed appended
            (substituted compileBre pattern replacement all text), [], false) := by
      have hsub := applySubstitute_eq hengine hclean
      rw [Command.code, sedApplyCommand]
      simp only [stateOf, hsub, Option.map_some]
    rw [happly, Option.bind_some]
    refine Follows.next [] (hrest _ _ _ queued hqueued hfits) ?_ rfl rfl rfl
    rw [List.append_nil, List.nil_append, early_of_unchanged hsame]
  | d =>
    refine Follows.stop ?_ (iff_of_false Bool.false_ne_true (fun h => (by cases h))) rfl
    have hearly : early suppressPrint printed appended text = [] := by
      unfold early
      cases appended with
      | false => rfl
      | true => rcases hfits rfl with rfl | rfl <;> simp
    rw [hearly]
    simp [automaticPrint, Outcome.remaining, Command.run]
  | p =>
    rcases hfits with ⟨rfl, hfits⟩
    cases hqueued rfl
    have hstate : ({ stateOf suppressPrint printed false text with printed := true } :
        SedLineState) = stateOf suppressPrint true false text := rfl
    rw [Command.code, sedApplyCommand, Option.bind_some, hstate]
    exact Follows.next [text] (hrest true false text [] (fun _ => rfl) hfits) rfl rfl rfl rfl
  | q =>
    refine Follows.stop ?_ (iff_of_true rfl rfl) rfl
    exact remaining_of_end hqueued hfits (fun h => (by cases h))
  | y source target =>
    rcases hfits with ⟨hlength, hsame, hfits⟩
    have happly : sedApplyCommand compileBre suppressPrint
        (stateOf suppressPrint printed appended text) (Command.y source target).code =
          some (stateOf suppressPrint printed appended (transliterated source target text), [],
            false) := by
      rw [Command.code, sedApplyCommand, applyTransliterate_eq hlength]
      rfl
    rw [happly, Option.bind_some]
    refine Follows.next [] (hrest _ _ _ queued hqueued hfits) ?_ rfl rfl rfl
    rw [List.append_nil, List.nil_append, early_of_unchanged hsame]
  | a new =>
    have hnext := hrest printed true text (queued ++ [new]) (fun h => (by cases h)) hfits
    have hremaining : Outcome.remaining suppressPrint queued
        { Command.run compileBre ends text behind (runLine compileBre lineNum isLast behind)
            (.a new) with
          states := (instr, active) :: (Command.run compileBre ends text behind
            (runLine compileBre lineNum isLast behind) (.a new)).states } =
          [] ++ (runLine compileBre lineNum isLast behind text).remaining suppressPrint
            (queued ++ [new]) := by
      unfold Outcome.remaining Command.run
      rw [List.nil_append, List.append_assoc queued [new]]
      rfl
    rw [Command.code, sedApplyCommand]
    split
    · next hnow =>
      -- the program prints the line and the text at once
      have hunprinted : suppressPrint = false ∧ printed = false ∧ appended = false := by
        unfold stateOf at hnow
        revert hnow
        cases suppressPrint <;> cases printed <;> cases appended <;> simp
      rcases hunprinted with ⟨rfl, rfl, rfl⟩
      cases hqueued rfl
      rw [Option.bind_some]
      exact Follows.next [] hnext rfl hremaining rfl rfl
    · next hlater =>
      have hstate : stateOf suppressPrint printed appended text =
          stateOf suppressPrint printed true text ∧
            early suppressPrint printed appended text = early suppressPrint printed true text := by
        unfold stateOf early
        unfold stateOf at hlater
        revert hlater
        cases suppressPrint <;> cases printed <;> cases appended <;> simp
      rw [hstate.1, hstate.2, Option.bind_some]
      refine Follows.next [] hnext ?_ hremaining rfl rfl
      rw [List.nil_append, List.append_assoc]
  | i new =>
    rcases hfits with ⟨rfl, hfits⟩
    cases hqueued rfl
    rw [Command.code, sedApplyCommand, Option.bind_some]
    exact Follows.next [new] (hrest printed false text [] (fun _ => rfl) hfits) rfl rfl rfl rfl
  | c new =>
    rcases hfits with ⟨rfl, rfl⟩
    cases hqueued rfl
    refine Follows.stop ?_ (iff_of_false Bool.false_ne_true (fun h => (by cases h))) rfl
    simp [early, automaticPrint, Outcome.remaining, Command.run]

/-- The instructions on a line. -/
theorem follows_line
    (hengine : ∀ pattern re, compileBre pattern = some re → re.inner.InRange)
    (states : List (Instruction × Bool))
    (hcompiles : ∀ e ∈ states, e.1.selector.Compiles compileBre) (printed appended : Bool)
    (text : List Char) (queued : List (List Char)) (hqueued : appended = false → queued = [])
    (hfits : InstructionsFit compileBre suppressPrint lineNum isLast states printed appended text) :
    Follows suppressPrint (sedRunInstructions compileBre suppressPrint lineNum isLast
      (codes states) (stateOf suppressPrint printed appended text))
        (early suppressPrint printed appended text) queued
          (runLine compileBre lineNum isLast states text) := by
  induction states generalizing printed appended text queued with
  | nil =>
    refine ⟨_, rfl, rfl, iff_of_false Bool.false_ne_true (fun h => (by cases h)), ?_⟩
    exact remaining_of_end hqueued hfits (fun h => (by cases h))
  | cons e behind ih =>
    rcases e with ⟨instr, active⟩
    rw [List.forall_mem_cons] at hcompiles
    rcases hfits with ⟨hselector, hfits⟩
    have hmatches : sedAddrMatches compileBre lineNum isLast
        (stateOf suppressPrint printed appended text).text instr.code.addr active =
          instr.selector.select compileBre lineNum isLast text active :=
      addrMatches_select hcompiles.1 hselector
    have hcodes : codes ((instr, active) :: behind) = (instr.code, active) :: codes behind := rfl
    rw [hcodes, sedRunInstructions, hmatches, runLine]
    split
    · next hchosen =>
      rw [if_pos hchosen] at hfits
      exact follows_command hengine (ih hcompiles.2) hqueued hfits
    · next hchosen =>
      rw [if_neg hchosen] at hfits
      rcases ih hcompiles.2 printed appended text queued hqueued hfits with
        ⟨run, hrun, hstates, hquit, hlines⟩
      rw [hrun]
      refine ⟨_, rfl, ?_, hquit, hlines⟩
      exact congrArg ((instr.code, _) :: ·) hstates

end Lines

/-! ## 4. The run -/

section Run

variable {compileBre : List Char → Option Regex} {suppressPrint : Bool}

/-- A line leaves the instructions as they are. -/
theorem runLine_states (lineNum : Nat) (isLast : Bool) (states : List (Instruction × Bool))
    (text : List Char) :
    (runLine compileBre lineNum isLast states text).states.map Prod.fst =
      states.map Prod.fst := by
  induction states generalizing text with
  | nil => rfl
  | cons e behind ih =>
    rcases e with ⟨instr, active⟩
    rw [runLine, List.map_cons, List.map_cons]
    congr 1
    split
    · cases instr.command with
      | s delim pattern replacement all => exact ih _
      | d => rfl
      | p => exact ih _
      | q => rfl
      | y source target => exact ih _
      | a new => exact ih _
      | i new => exact ih _
      | c new => rfl
    · exact ih text

theorem compiles_states {states states' : List (Instruction × Bool)}
    (h : states'.map Prod.fst = states.map Prod.fst)
    (hcompiles : ∀ e ∈ states, e.1.selector.Compiles compileBre) :
    ∀ e ∈ states', e.1.selector.Compiles compileBre := by
  intro e he
  have hmem : e.1 ∈ states'.map Prod.fst := List.mem_map_of_mem he
  rw [h] at hmem
  rcases List.mem_map.mp hmem with ⟨e', he', heq⟩
  rw [← heq]
  exact hcompiles e' he'

/-- The cycle of the program over the lines. -/
theorem processLines_eq_cycle
    (hengine : ∀ pattern re, compileBre pattern = some re → re.inner.InRange)
    (lineNum : Nat) (states : List (Instruction × Bool)) (lines : List (List Char))
    (hcompiles : ∀ e ∈ states, e.1.selector.Compiles compileBre)
    (hfits : CycleFits compileBre suppressPrint lineNum states lines) :
    sedProcessLines compileBre suppressPrint lineNum (codes states) lines =
      some (cycle compileBre suppressPrint lineNum states lines) := by
  induction lines generalizing lineNum states with
  | nil => rfl
  | cons line lines ih =>
    have hline : Follows suppressPrint (sedRunInstructions compileBre suppressPrint lineNum
        lines.isEmpty (codes states) ⟨line, false, false, false⟩) [] []
          (runLine compileBre lineNum lines.isEmpty states line) :=
      follows_line hengine states hcompiles false false line [] (fun _ => rfl) hfits.1
    rcases hline with ⟨run, hrun, hstates, hquit, hlines⟩
    have hout : run.2.1 ++ automaticPrint suppressPrint run.2.2 =
        (runLine compileBre lineNum lines.isEmpty states line).lines suppressPrint := hlines
    rw [sedProcessLines, cycle, hrun, Option.bind_some, hout]
    by_cases hending : (runLine compileBre lineNum lines.isEmpty states line).ending = .quit
    · rw [if_pos (hquit.mpr hending), if_pos hending]
    · have hnext := ih (lineNum + 1) _
        (compiles_states (runLine_states lineNum lines.isEmpty states line) hcompiles)
        (hfits.2 hending)
      rw [if_neg (fun h => hending (hquit.mp h)), if_neg hending, hstates, hnext]
      rfl

end Run

/-! ## 5. Scripts as they are written -/

/-- A text in which some characters are written with a backslash. -/
def escape (special : List Char) (text : List Char) : List Char :=
  text.flatMap fun c => if c ∈ special then ['\\', c] else [c]

def Address.text : Address → List Char
  | line n => Nat.toDigits 10 n
  | last => ['$']
  | regex pattern => '/' :: (escape ['/'] pattern ++ ['/'])

def Selector.text : Selector → List Char
  | every => []
  | one address => address.text
  | range first second => first.text ++ ',' :: second.text

def Command.text : Command → List Char
  | s delim pattern replacement all =>
    's' :: delim :: (escape [delim] pattern ++ delim :: (escape [delim] replacement ++
      delim :: (if all then ['g'] else [])))
  | d => ['d']
  | p => ['p']
  | q => ['q']
  | y source target =>
    'y' :: '/' :: (escape ['/', '\\'] source ++ '/' :: (escape ['/', '\\'] target ++ ['/']))
  | a text => 'a' :: '\\' :: escape ['\\', '\n'] text
  | i text => 'i' :: '\\' :: escape ['\\', '\n'] text
  | c text => 'c' :: '\\' :: escape ['\\', '\n'] text

def Instruction.text (instr : Instruction) : List Char :=
  instr.selector.text ++ instr.command.text

/-- The instructions, joined by `;`. -/
def scriptText (script : List Instruction) : List Char :=
  [';'].intercalate (script.map Instruction.text)

/-- Every backslash stands before a character. -/
def Paired : List Char → Prop
  | [] => True
  | ['\\'] => False
  | '\\' :: _ :: text => Paired text
  | _ :: text => Paired text

/-- A pattern or a replacement that is written without `;` and without an escaped delimiter. -/
structure Plain (delim : Char) (text : List Char) : Prop where
  paired : Paired text
  delim : delim ∉ text
  semicolon : ';' ∉ text

def Address.Plain : Address → Prop
  | line n => n < 2 ^ 64
  | last => True
  | regex pattern => pattern ≠ [] ∧ Sed.Plain '/' pattern

def Selector.Plain : Selector → Prop
  | every => True
  | one address => address.Plain
  | range first second => first.Plain ∧ second.Plain

/-- The text of `a`, `i` or `c`: of one line, without `;` and backslash and without blanks at its
    ends. -/
structure PlainText (text : List Char) : Prop where
  plain : ∀ c ∈ text, c ≠ ';' ∧ c ≠ '\\' ∧ c ≠ '\n'
  head : ∀ c ∈ text.head?, isWhitespace c = false
  last : ∀ c ∈ text.getLast?, isWhitespace c = false

def Command.Plain : Command → Prop
  | s delim pattern replacement all =>
    delim.toNat < 0x80 ∧ delim ≠ ';' ∧ delim ≠ '\\' ∧
      (if all then delim ≠ 'g' else isWhitespace delim = false) ∧ pattern ≠ [] ∧
        Sed.Plain delim pattern ∧ Sed.Plain delim replacement
  | y source target => ∀ c ∈ source ++ target, c ≠ '/' ∧ c ≠ '\\' ∧ c ≠ ';'
  | a text => PlainText text
  | i text => PlainText text
  | c text => PlainText text
  | _ => True

/-- The instruction is written in a way that the parser understands. -/
def Instruction.Plain (instr : Instruction) : Prop :=
  instr.selector.Plain ∧ instr.command.Plain

/-! ## 6. The parser -/

theorem escape_eq_self {special text : List Char} (h : ∀ c ∈ text, c ∉ special) :
    escape special text = text := by
  induction text with
  | nil => rfl
  | cons c text ih =>
    rw [List.forall_mem_cons] at h
    have hrest : escape special text = text := ih h.2
    unfold escape at hrest ⊢
    rw [List.flatMap_cons, if_neg h.1, hrest]
    rfl

theorem Plain.escape {delim : Char} {text : List Char} (h : Sed.Plain delim text) :
    Sed.escape [delim] text = text := by
  apply escape_eq_self
  intro c hc hmem
  rw [List.mem_singleton] at hmem
  subst hmem
  exact h.delim hc

theorem PlainText.escape {text : List Char} (h : PlainText text) :
    Sed.escape ['\\', '\n'] text = text := by
  apply escape_eq_self
  intro c hc hmem
  rcases h.plain c hc with ⟨-, hbackslash, hnewline⟩
  simp only [List.mem_cons, List.not_mem_nil, or_false] at hmem
  exact hmem.elim hbackslash hnewline

theorem takeWhile_until {p : Char → Bool} {text rest : List Char}
    (htext : ∀ c ∈ text, p c = true) (hrest : ∀ c ∈ rest.head?, p c = false) :
    (text ++ rest).takeWhile p = text ∧ (text ++ rest).dropWhile p = rest := by
  have hnone : rest.takeWhile p = [] ∧ rest.dropWhile p = rest := by
    cases rest with
    | nil => exact ⟨rfl, rfl⟩
    | cons c rest =>
      rw [List.takeWhile_cons, List.dropWhile_cons, hrest c rfl]
      exact ⟨rfl, rfl⟩
  rw [List.takeWhile_append_of_pos htext, List.dropWhile_append_of_pos htext, hnone.1, hnone.2,
    List.append_nil]
  exact ⟨rfl, rfl⟩

theorem toDigits_isDigit (n : Nat) : ∀ c ∈ Nat.toDigits 10 n, c.isDigit = true :=
  fun _ hc => Nat.isDigit_of_mem_toDigits (by decide) (Nat.le_refl 10) hc

/-- One address is read up to what cannot go on with it. -/
theorem parseOneAddr_text {address : Address} (hplain : address.Plain) {rest : List Char}
    (hrest : ∀ c ∈ rest.head?, c.isDigit = false) :
    parseOneAddr (address.text ++ rest) = some (address.code, rest) := by
  cases address with
  | line n =>
    rcases takeWhile_until (toDigits_isDigit n) hrest with ⟨htake, hdrop⟩
    have hvalue : (digitsValue (Nat.toDigits 10 n)).filter (· < 2 ^ 64) = some n := by
      have hlt : n < 2 ^ 64 := hplain
      rw [Arith.digitsValue_toDigits, Option.filter_some, decide_eq_true hlt]
      rfl
    have hdigit := toDigits_isDigit n
    cases hdigits : Nat.toDigits 10 n with
    | nil => exact absurd hdigits Nat.toDigits_ne_nil
    | cons c digits =>
      rw [hdigits] at htake hdrop hvalue hdigit
      have hc := hdigit c (.head _)
      rw [Address.text, hdigits, parseOneAddr, htake, hdrop, hvalue]
      · rfl
      · rintro stripped heq
        cases heq
        exact absurd hc (by decide)
      · rintro stripped heq
        cases heq
        exact absurd hc (by decide)
  | last => rfl
  | regex pattern =>
    have hno : ∀ c ∈ pattern, (c != '/') = true := by
      intro c hc
      rw [bne_iff_ne]
      rintro rfl
      exact hplain.2.delim hc
    have hstop : ∀ c ∈ ('/' :: rest).head?, (c != '/') = false := by
      intro c hc
      cases hc
      rfl
    rcases takeWhile_until hno hstop with ⟨htake, hdrop⟩
    have htext : (Address.regex pattern).text ++ rest = '/' :: (pattern ++ '/' :: rest) := by
      rw [Address.text, hplain.2.escape]
      simp
    rw [htext, parseOneAddr, if_pos (by simp), htake, hdrop]
    rfl

/-- A command begins with a letter. -/
theorem Command.exists_text (command : Command) :
    ∃ c cs, command.text = c :: cs ∧ c.isDigit = false ∧ c ≠ '/' ∧ c ≠ '$' ∧ c ≠ ',' ∧
      isWhitespace c = false := by
  cases command <;> exact ⟨_, _, rfl, by decide⟩

theorem parseOneAddr_command (command : Command) : parseOneAddr command.text = none := by
  rcases command.exists_text with ⟨c, cs, htext, hdigit, hslash, hdollar, -, -⟩
  rw [htext, parseOneAddr]
  · rw [List.takeWhile_cons, hdigit]
    rfl
  · rintro stripped heq
    cases heq
    exact hslash rfl
  · rintro rest heq
    cases heq
    exact hdollar rfl

theorem Address.text_ne_nil (address : Address) : address.text ≠ [] := by
  cases address with
  | line n => exact Nat.toDigits_ne_nil
  | last => exact List.cons_ne_nil _ _
  | regex pattern => exact List.cons_ne_nil _ _

/-- The addresses are read up to the command. -/
theorem parseSedAddr_text {selector : Selector} (hplain : selector.Plain) (command : Command) :
    parseSedAddr (selector.text ++ command.text) = (selector.code, command.text) := by
  rcases command.exists_text with ⟨c, cs, htext, hdigit, -, -, hcomma, -⟩
  have hrest : ∀ d ∈ command.text.head?, d.isDigit = false := by
    intro d hd
    rw [htext] at hd
    cases hd
    exact hdigit
  have hnoComma : ¬ command.text.head? = some ',' := by
    rw [htext]
    intro heq
    cases heq
    exact hcomma rfl
  unfold parseSedAddr
  cases selector with
  | every =>
    rw [Selector.text, List.nil_append, parseSedAddrs, parseOneAddr_command]
    rfl
  | one address =>
    rw [Selector.text, parseSedAddrs, parseOneAddr_text hplain hrest]
    dsimp only
    rw [if_neg hnoComma]
    rfl
  | range first second =>
    have hsplit : (Selector.range first second).text ++ command.text =
        first.text ++ ',' :: (second.text ++ command.text) := by
      simp [Selector.text]
    have hlength : ∃ k, (first.text ++ ',' :: (second.text ++ command.text)).length = k + 1 := by
      refine ⟨first.text.length + (second.text ++ command.text).length, ?_⟩
      rw [List.length_append, List.length_cons]
      rfl
    rcases hlength with ⟨k, hk⟩
    have hstop : ∀ d ∈ (',' :: (second.text ++ command.text)).head?, d.isDigit = false := by
      intro d hd
      cases hd
      rfl
    rw [hsplit, hk, parseSedAddrs, parseOneAddr_text hplain.1 hstop]
    dsimp only
    rw [List.head?_cons, if_pos rfl, List.tail_cons, parseSedAddrs, parseOneAddr_text hplain.2 hrest]
    dsimp only
    rw [if_neg hnoComma]
    rfl

/-- A substitution is read. -/
theorem parseSedSubstitute_text {delim : Char} {pattern replacement : List Char} {all : Bool}
    (hplain : (Command.s delim pattern replacement all).Plain) :
    parseSedSubstitute (Command.s delim pattern replacement all).text =
      some (some ⟨pattern, replacement, all⟩) := by
  rcases hplain with ⟨hascii, -, -, hflag, -, hpattern, hreplacement⟩
  set flags : List Char := if all then ['g'] else [] with hflags
  set body : List Char := pattern ++ delim :: (replacement ++ delim :: flags) with hbody
  have htext : (Command.s delim pattern replacement all).text = 's' :: delim :: body := by
    rw [Command.text, hpattern.escape, hreplacement.escape]
  have hbytes : Utf8.encode ('s' :: delim :: body) = 's' :: delim :: Utf8.encode body := by
    rw [Utf8.encode_cons, Utf8.encode_cons, Utf8.encodeChar_of_ascii hascii]
    rfl
  have hlong : ¬ ((('s' :: delim :: body).head? ≠ some 's') ∨
      (Utf8.encode ('s' :: delim :: body)).length < 4) := by
    rintro (hs | hshort)
    · exact hs rfl
    · have hle := Utf8.length_le_encode ('s' :: delim :: body)
      have hbodyLength : 2 ≤ body.length := by
        rw [hbody]
        simp only [List.length_append, List.length_cons]
        omega
      simp only [List.length_cons] at hle
      omega
  have hcut : sliceStr (Utf8.encode ('s' :: delim :: body)) 2
      (Utf8.encode ('s' :: delim :: body)).length = some (Utf8.encode body) := by
    rw [sliceStr_tail, hbytes]
    · rfl
    · rw [hbytes]
      simp only [List.length_cons]
      omega
    · rw [hbytes]
      exact Utf8.isCharBoundary_encode body
  have hsplit : body.splitOn delim = [pattern, replacement, flags] := by
    have hjoin : [delim].intercalate [pattern, replacement, flags] = body := by
      simp [hbody, List.intercalate]
    rw [← hjoin]
    apply List.splitOn_intercalate
    · intro part hpart
      simp only [List.mem_cons, List.not_mem_nil, or_false] at hpart
      rcases hpart with rfl | rfl | rfl
      · exact hpattern.delim
      · exact hreplacement.delim
      · rw [hflags]
        cases all with
        | true =>
          rw [if_pos rfl, List.mem_singleton]
          exact hflag
        | false =>
          rw [if_neg Bool.false_ne_true]
          exact List.not_mem_nil
    · exact List.cons_ne_nil _ _
  rw [htext, parseSedSubstitute, if_neg hlong, hcut, Option.map_some, Utf8.decode_encode, hbytes]
  have hdelim : ('s' :: delim :: Utf8.encode body).getD 1 ' ' = delim := rfl
  rw [hdelim, hsplit, hflags]
  cases all <;> rfl

theorem dropWhile_of_head {text : List Char} (h : ∀ c ∈ text.head?, isWhitespace c = false) :
    text.dropWhile isWhitespace = text := by
  cases text with
  | nil => rfl
  | cons c text => rw [List.dropWhile_cons, h c rfl, if_neg Bool.false_ne_true]

theorem escape_transliteration {source target : List Char}
    (h : (Command.y source target).Plain) :
    (Command.y source target).text = 'y' :: '/' :: ['/'].intercalate [source, target, []] := by
  have hno : ∀ c ∈ source ++ target, c ∉ ['/', '\\'] := by
    intro c hc hmem
    rcases h c hc with ⟨hslash, hbackslash, -⟩
    simp only [List.mem_cons, List.not_mem_nil, or_false] at hmem
    exact hmem.elim hslash hbackslash
  rw [Command.text, escape_eq_self fun c hc => hno c (List.mem_append_left _ hc),
    escape_eq_self fun c hc => hno c (List.mem_append_right _ hc)]
  simp [List.intercalate]

/-- Every command is read. -/
theorem parseSedCommand_text (hplain : command.Plain) :
    parseSedCommand command.text = some (some command.code) := by
  cases command with
  | s delim pattern replacement all =>
    have hs : (Command.s delim pattern replacement all).text.head? = some 's' := rfl
    unfold parseSedCommand
    rw [if_pos hs, parseSedSubstitute_text hplain]
    rfl
  | d => rfl
  | p => rfl
  | q => rfl
  | y source target =>
    have hno : ∀ part ∈ [source, target, []], '/' ∉ part := by
      intro part hpart hmem
      simp only [List.mem_cons, List.not_mem_nil, or_false] at hpart
      rcases hpart with rfl | rfl | rfl
      · exact (hplain '/' (List.mem_append_left _ hmem)).1 rfl
      · exact (hplain '/' (List.mem_append_right _ hmem)).1 rfl
      · cases hmem
    rw [escape_transliteration hplain]
    show some (parseTransliterate '/' (['/'].intercalate [source, target, []])) = _
    rw [parseTransliterate, List.splitOn_intercalate '/' hno (List.cons_ne_nil _ _)]
    rfl
  | a text =>
    rw [Command.text, hplain.escape]
    show some (some (SedCmd.appendText (text.dropWhile isWhitespace))) = _
    rw [dropWhile_of_head hplain.head]
    rfl
  | i text =>
    rw [Command.text, hplain.escape]
    show some (some (SedCmd.insertText (text.dropWhile isWhitespace))) = _
    rw [dropWhile_of_head hplain.head]
    rfl
  | c text =>
    rw [Command.text, hplain.escape]
    show some (some (SedCmd.changeText (text.dropWhile isWhitespace))) = _
    rw [dropWhile_of_head hplain.head]
    rfl

/-- A command does not end with a blank. -/
theorem Command.getLast?_text (hplain : command.Plain) :
    ∀ c ∈ command.text.getLast?, isWhitespace c = false := by
  have htext : ∀ (letter : Char) (text : List Char), PlainText text →
      ∀ c ∈ (letter :: '\\' :: Sed.escape ['\\', '\n'] text).getLast?, isWhitespace c = false := by
    intro letter text h c hc
    rw [h.escape] at hc
    cases text with
    | nil =>
      have hlast : c = '\\' := (Option.some.inj hc).symm
      rw [hlast]
      decide
    | cons d text =>
      apply h.last
      rwa [List.getLast?_cons_cons, List.getLast?_cons_cons] at hc
  cases command with
  | s delim pattern replacement all =>
    intro c hc
    have hlast : (Command.s delim pattern replacement all).text =
        ('s' :: delim :: (Sed.escape [delim] pattern ++ delim ::
          Sed.escape [delim] replacement)) ++ (if all then [delim, 'g'] else [delim]) := by
      rw [Command.text]
      cases all <;> simp
    rw [hlast] at hc
    cases all with
    | true =>
      rw [if_pos rfl, List.getLast?_append] at hc
      have hg : c = 'g' := (Option.some.inj hc).symm
      rw [hg]
      decide
    | false =>
      rw [if_neg Bool.false_ne_true, List.getLast?_append] at hc
      cases hc
      exact hplain.2.2.2.1
  | d | p | q => exact fun c hc => (by cases hc; decide)
  | y source target =>
    intro c hc
    have hlast : (Command.y source target).text =
        ('y' :: '/' :: (Sed.escape ['/', '\\'] source ++ '/' ::
          Sed.escape ['/', '\\'] target)) ++ ['/'] := by
      rw [Command.text]
      simp
    rw [hlast, List.getLast?_append] at hc
    cases hc
    decide
  | a text => exact htext 'a' text hplain
  | i text => exact htext 'i' text hplain
  | c text => exact htext 'c' text hplain

theorem Address.head?_text (address : Address) :
    ∀ c ∈ address.text.head?, isWhitespace c = false := by
  intro c hc
  cases address with
  | line n =>
    have hdigit := toDigits_isDigit n c (List.mem_of_mem_head? hc)
    exact Arith.not_isWhitespace_of_isIdentChar (Arith.isIdentChar_of_digit hdigit)
  | last =>
    cases hc
    decide
  | regex pattern =>
    cases hc
    decide

theorem Command.trim_text (hplain : command.Plain) :
    trim command.text = command.text := by
  apply Arith.trim_of_ends
  · rcases command.exists_text with ⟨c, cs, htext, -, -, -, -, hspace⟩
    intro d hd
    rw [htext] at hd
    cases hd
    exact hspace
  · exact Command.getLast?_text hplain

theorem Instruction.trim_text (hplain : instr.Plain) :
    trim instr.text = instr.text := by
  rcases instr.command.exists_text with ⟨d, ds, htext, -, -, -, -, hspace⟩
  apply Arith.trim_of_ends
  · intro c hc
    have haddress : ∀ (address : Address) (rest : List Char),
        c ∈ (address.text ++ rest).head? → isWhitespace c = false := by
      intro address rest hmem
      rw [List.head?_append_of_ne_nil _ address.text_ne_nil] at hmem
      exact address.head?_text c hmem
    rw [Instruction.text] at hc
    cases hselector : instr.selector with
    | every =>
      rw [hselector, Selector.text, List.nil_append, htext] at hc
      cases hc
      exact hspace
    | one address =>
      rw [hselector] at hc
      exact haddress address _ hc
    | range first second =>
      rw [hselector, Selector.text, List.append_assoc] at hc
      exact haddress first _ hc
  · intro c hc
    rw [Instruction.text, List.getLast?_append_of_ne_nil _ (by
      rw [htext]
      exact List.cons_ne_nil _ _)] at hc
    exact Command.getLast?_text hplain.2 c hc

/-- Every instruction is read. -/
theorem parseSedPart_text (hplain : instr.Plain) :
    parseSedPart instr.text = some (some instr.code) := by
  have hne : trim instr.text ≠ [] := by
    rw [Instruction.trim_text hplain, Instruction.text]
    rcases instr.command.exists_text with ⟨c, cs, htext, -⟩
    rw [htext]
    exact List.append_ne_nil_of_right_ne_nil _ (List.cons_ne_nil _ _)
  have hparts : parseSedAddr instr.text = (instr.selector.code, instr.command.text) :=
    parseSedAddr_text hplain.1 instr.command
  have hcommand : commandText instr.text = instr.command.text := by
    rw [commandText, Instruction.trim_text hplain, hparts, Command.trim_text hplain.2]
  rw [parseSedPart, if_neg hne, hcommand, parseSedCommand_text hplain.2,
    Instruction.trim_text hplain, hparts]
  rfl

theorem Address.semicolon_not_mem {address : Address} (hplain : address.Plain) :
    ';' ∉ address.text := by
  intro hmem
  cases address with
  | line n => exact absurd (toDigits_isDigit n ';' hmem) (by decide)
  | last => exact absurd (List.mem_singleton.mp hmem) (by decide)
  | regex pattern =>
    rw [Address.text, hplain.2.escape] at hmem
    simp only [List.mem_cons, List.mem_append, List.not_mem_nil, or_false] at hmem
    rcases hmem with h | h | h
    · exact absurd h (by decide)
    · exact hplain.2.semicolon h
    · exact absurd h (by decide)

theorem Command.semicolon_not_mem (hplain : command.Plain) :
    ';' ∉ command.text := by
  have htext : ∀ (letter : Char) (text : List Char), letter ≠ ';' → PlainText text →
      ';' ∉ letter :: '\\' :: Sed.escape ['\\', '\n'] text := by
    intro letter text hletter h hmem
    rw [h.escape] at hmem
    simp only [List.mem_cons] at hmem
    rcases hmem with heq | heq | hmem
    · exact hletter heq.symm
    · exact absurd heq (by decide)
    · exact (h.plain ';' hmem).1 rfl
  cases command with
  | s delim pattern replacement all =>
    rcases hplain with ⟨-, hdelim, -, -, -, hpattern, hreplacement⟩
    intro hmem
    rw [Command.text, hpattern.escape, hreplacement.escape] at hmem
    simp only [List.mem_cons, List.mem_append] at hmem
    rcases hmem with h | h | h | h | h | h | h
    · exact absurd h (by decide)
    · exact hdelim h.symm
    · exact hpattern.semicolon h
    · exact hdelim h.symm
    · exact hreplacement.semicolon h
    · exact hdelim h.symm
    · cases all with
      | true => exact absurd (List.mem_singleton.mp h) (by decide)
      | false => cases h
  | d => decide
  | p => decide
  | q => decide
  | y source target =>
    intro hmem
    rw [escape_transliteration hplain] at hmem
    simp only [List.intercalate, List.intersperse, List.flatten_cons, List.flatten_nil,
      List.mem_cons, List.mem_append, List.not_mem_nil, or_false] at hmem
    rcases hmem with h | h | h | h | h | h
    · exact absurd h (by decide)
    · exact absurd h (by decide)
    · exact (hplain ';' (List.mem_append_left _ h)).2.2 rfl
    · exact absurd h (by decide)
    · exact (hplain ';' (List.mem_append_right _ h)).2.2 rfl
    · exact absurd h (by decide)
  | a text => exact htext 'a' text (by decide) hplain
  | i text => exact htext 'i' text (by decide) hplain
  | c text => exact htext 'c' text (by decide) hplain

theorem Instruction.semicolon_not_mem (hplain : instr.Plain) :
    ';' ∉ instr.text := by
  intro hmem
  rcases List.mem_append.mp hmem with hselector | hcommand
  · have hrule := hplain.1
    cases hkind : instr.selector with
    | every =>
      rw [hkind] at hselector
      cases hselector
    | one address =>
      rw [hkind] at hselector hrule
      exact Address.semicolon_not_mem hrule hselector
    | range first second =>
      rw [hkind] at hselector hrule
      rcases List.mem_append.mp hselector with h | h
      · exact Address.semicolon_not_mem hrule.1 h
      · rcases List.mem_cons.mp h with h | h
        · exact absurd h (by decide)
        · exact Address.semicolon_not_mem hrule.2 h
  · exact Command.semicolon_not_mem hplain.2 hcommand

theorem parseSedParts_text {script : List Instruction} (hplain : ∀ instr ∈ script, instr.Plain) :
    parseSedParts (script.map Instruction.text) = some (script.map Instruction.code) := by
  induction script with
  | nil => rfl
  | cons instr script ih =>
    rw [List.forall_mem_cons] at hplain
    rw [List.map_cons, parseSedParts, parseSedPart_text hplain.1, Option.bind_some, ih hplain.2]
    rfl

/-- A script is read as the instructions that it is made of. -/
theorem parseSedScript_text {script : List Instruction}
    (hplain : ∀ instr ∈ script, instr.Plain) :
    parseSedScript (scriptText script) = some (script.map Instruction.code) := by
  cases script with
  | nil => rfl
  | cons instr script =>
    have hno : ∀ part ∈ (instr :: script).map Instruction.text, ';' ∉ part := by
      intro part hpart
      rcases List.mem_map.mp hpart with ⟨instr', hmem, rfl⟩
      exact Instruction.semicolon_not_mem (hplain instr' hmem)
    rw [parseSedScript, scriptText, List.splitOn_intercalate ';' hno (List.cons_ne_nil _ _),
      parseSedParts_text hplain]

/-! ## 7. What `sed` prints -/

/-- **The cycle of `sed`.**  For every script that is written plainly and every input, in a run
    all of whose steps are ones that the program takes as the reference does, what `sed` prints
    is what the reference prints. -/
theorem sed_follows_reference (compileBre : List Char → Option Regex)
    (hengine : ∀ pattern re, compileBre pattern = some re → re.inner.InRange)
    (suppressPrint : Bool) (script : List Instruction) (input : List Char)
    (hplain : ∀ instr ∈ script, instr.Plain)
    (hcompiles : ∀ instr ∈ script, instr.selector.Compiles compileBre)
    (hfits : CycleFits compileBre suppressPrint 1 (script.map (·, false)) (inputLines input)) :
    utilSed compileBre suppressPrint (scriptText script) input =
      some (reference compileBre suppressPrint script input) := by
  have hcodes : (script.map Instruction.code).map (·, false) = codes (script.map (·, false)) := by
    unfold codes
    rw [List.map_map, List.map_map]
    rfl
  have hcompilesAll : ∀ e ∈ script.map (·, false), e.1.selector.Compiles compileBre := by
    intro e he
    rcases List.mem_map.mp he with ⟨instr, hmem, rfl⟩
    exact hcompiles instr hmem
  rw [utilSed, parseSedScript_text hplain, Option.bind_some, hcodes]
  exact processLines_eq_cycle hengine 1 _ _ hcompilesAll hfits

/-- A letter replaced on the first line, and a text appended to the last. -/
theorem substitute_and_append :
    utilSed (fun _ => some ⟨literalGroup 'b', false⟩) false
        (scriptText [⟨.one (.line 1), .s '/' ['b'] ['-'] true⟩, ⟨.one .last, .a ['x']⟩])
        ['a', 'b', '\n', 'b', '\n'] =
      some (reference (fun _ => some ⟨literalGroup 'b', false⟩) false
        [⟨.one (.line 1), .s '/' ['b'] ['-'] true⟩, ⟨.one .last, .a ['x']⟩]
        ['a', 'b', '\n', 'b', '\n']) := by
  apply sed_follows_reference
  · rintro pattern re hre
    cases hre
    exact literalGroup_inRange 'b'
  · intro instr hinstr
    simp only [List.mem_cons, List.not_mem_nil, or_false] at hinstr
    rcases hinstr with rfl | rfl
    · have hline : (1 : Nat) < 2 ^ 64 := by decide
      refine ⟨hline, by decide, by decide, by decide, by decide, by decide, ?_, ?_⟩
      · exact ⟨trivial, by decide, by decide⟩
      · exact ⟨trivial, by decide, by decide⟩
    · exact ⟨trivial, List.all_iff_forall_prop.mp (by decide), fun c hc => (by cases hc; decide),
        fun c hc => (by cases hc; decide)⟩
  · intro instr hinstr
    simp only [List.mem_cons, List.not_mem_nil, or_false] at hinstr
    rcases hinstr with rfl | rfl
    · trivial
    · trivial
  · have hlines : inputLines ['a', 'b', '\n', 'b', '\n'] = [['a', 'b'], ['b']] := by decide
    rw [hlines]
    have hmatches : List.Forall₂ (Matches (Utf8.encode ['a', 'b']) ['-'])
        [⟨0, 1, 2, ⟨some (1, 2), [some (0, 1)]⟩⟩] [⟨1, 2, [some (1, 2)]⟩] :=
      .cons ⟨rfl, rfl, fun _ h => (by cases h with | tail _ h => cases h)⟩ .nil
    refine ⟨⟨trivial, ⟨_, rfl, hmatches, by decide⟩, fun h => (by cases h), trivial, .inr rfl⟩,
      fun _ => ⟨⟨trivial, trivial, .inr rfl⟩, fun _ => trivial⟩⟩

/-- `p` prints a line instead of printing it once more, a range up to an earlier line goes on to
    the end, `;` ends an instruction wherever it stands, and a group is read before its match. -/
theorem print_range_and_separator :
    (utilSed (fun _ => none) false (scriptText [⟨.every, .p⟩]) ['a', '\n'] = some [['a']] ∧
      reference (fun _ => none) false [⟨.every, .p⟩] ['a', '\n'] = [['a'], ['a']]) ∧
    (utilSed (fun _ => none) true (scriptText [⟨.range (.line 2) (.line 1), .p⟩])
        ['a', '\n', 'b', '\n', 'c', '\n'] = some [['b'], ['c']] ∧
      reference (fun _ => none) true [⟨.range (.line 2) (.line 1), .p⟩]
        ['a', '\n', 'b', '\n', 'c', '\n'] = [['b']]) ∧
    (utilSed (fun _ => none) false (scriptText [⟨.every, .y [';'] ['x']⟩]) ['a', ';', '\n'] =
        some [['a', ';']] ∧
      reference (fun _ => none) false [⟨.every, .y [';'] ['x']⟩] ['a', ';', '\n'] =
        [['a', 'x']]) ∧
    (utilSed (fun _ => some ⟨literalGroup 'b', false⟩) false
        (scriptText [⟨.every, .s '/' "\\(b\\)".toList "[\\1]".toList false⟩]) ['a', 'b', '\n'] =
          some ["a[a]".toList] ∧
      reference (fun _ => some ⟨literalGroup 'b', false⟩) false
        [⟨.every, .s '/' "\\(b\\)".toList "[\\1]".toList false⟩] ['a', 'b', '\n'] =
          ["a[b]".toList]) := by
  refine ⟨⟨by decide, by decide⟩, ⟨by decide, by decide⟩, ⟨by decide, by decide⟩,
    ⟨by decide, by decide⟩⟩

end Wasmsh.Sed

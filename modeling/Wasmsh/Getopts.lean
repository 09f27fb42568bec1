import Wasmsh.ArrayScanner
import Wasmsh.Namerefs

/-!
# `getopts`

`builtin_getopts` keeps the parameter it scans in `OPTIND` and the place inside a cluster in two
hidden variables, which it trusts as long as `OPTIND` has not changed.  Next to it stands the
scan of POSIX over the parameters that are left.
-/

namespace Wasmsh.Getopts

open ShellState

variable {rest : List String}

/-! ## 1. The builtin -/

/-- A variable that holds a number. -/
def numberVar (s : ShellState) (name : String) : Option Nat :=
  (s.getVar name).bind (parseUnsigned 64)

/-- The parameter `OPTIND` points at. -/
def optindOf (s : ShellState) : Nat := max ((numberVar s "OPTIND").getD 1) 1

/-- The place in the cluster: the one kept, if `OPTIND` is the one kept with it. -/
def offsetOf (s : ShellState) : Nat :=
  if numberVar s "_GETOPTS_OPTIND" = some (optindOf s) then
    (numberVar s "_GETOPTS_OFFSET").getD 1
  else 1

/-- The loop that looks for an option character, over the parameters from `optind` on: where
    it stops, and the character with what follows it in its parameter. -/
def findOption : Nat → Nat → List String → Nat × Nat × Option (Char × List Char)
  | optind, offset, [] => (optind, offset, none)
  | optind, offset, arg :: args =>
    if offset ≤ 1 ∧ arg.toList = ['-', '-'] then (optind + 1, offset, none)
    else if offset ≤ 1 ∧ (arg.toList.head? ≠ some '-' ∨ arg.toList = ['-']) then
      (optind, offset, none)
    else match arg.toList.drop offset with
      | [] => findOption (optind + 1) 1 args
      | c :: rest => (optind, offset, some (c, rest))

/-- The writes at the end of a call that found an option. -/
def saveScan (optind offset : Nat) : List StateOp :=
  [.setVar "OPTIND" (toString optind), .setVar "_GETOPTS_OPTIND" (toString optind),
    .setVar "_GETOPTS_OFFSET" (toString offset)]

/-- The place behind an option character, `rest` being left of its parameter. -/
def pass (optind offset : Nat) (rest : List Char) : Nat × Nat :=
  if rest = [] then (optind + 1, 1) else (optind, offset + 1)

/-- What `builtin_getopts` does with an option character: its writes and its message. -/
def handleOption (spec : List Char) (shell var : String) (args : List String) (optind offset : Nat)
    (c : Char) (rest : List Char) : List StateOp × List Char :=
  let silent := spec.head? = some ':'
  let behind := pass optind offset rest
  match spec.dropWhile (· != c) with
  | [] =>
    if silent then
      ([.setVar "OPTARG" c.toString, .setVar var "?"] ++ saveScan behind.1 behind.2, [])
    else
      ([.unsetVar "OPTARG", .setVar var "?"] ++ saveScan behind.1 behind.2,
        shell.toList ++ ": illegal option -- ".toList ++ [c, '\n'])
  | _ :: ':' :: _ =>
    if rest ≠ [] then
      ([.setVar "OPTARG" (String.ofList rest), .setVar var c.toString] ++
        saveScan (optind + 1) 1, [])
    else match args[optind]? with
      | some arg =>
        ([.setVar "OPTARG" arg, .setVar var c.toString] ++ saveScan (optind + 2) 1, [])
      | none =>
        if silent then
          ([.setVar "OPTARG" c.toString, .setVar var ":"] ++ saveScan (optind + 1) 1, [])
        else
          ([.unsetVar "OPTARG", .setVar var "?"] ++ saveScan (optind + 1) 1,
            shell.toList ++ ": option requires an argument -- ".toList ++ [c, '\n'])
  | _ => ([.setVar var c.toString, .unsetVar "OPTARG"] ++ saveScan behind.1 behind.2, [])

/-- `builtin_getopts`: its writes, its message and its status. -/
def builtinGetopts (argv : List String) (s : ShellState) : List StateOp × List Char × Nat :=
  match argv with
  | _ :: optstring :: var :: explicit =>
    let args := if explicit = [] then s.positional else explicit
    let optind := optindOf s
    match findOption optind (offsetOf s) (args.drop (optind - 1)) with
    | (optind, _, none) =>
      ([.setVar "OPTIND" (toString optind), .unsetVar "_GETOPTS_OPTIND",
        .unsetVar "_GETOPTS_OFFSET"], [], 1)
    | (optind, offset, some (c, rest)) =>
      let step := handleOption optstring.toList (s.scriptName.getD "wasmsh") var args optind offset
        c rest
      (step.1, step.2, 0)
  | _ => ([], "getopts: usage: getopts optstring name\n".toList, 2)

/-! ## 2. The scan of POSIX -/

/-- What is left to scan: of the parameter in hand, and behind it. -/
structure Scan where
  cluster : List Char
  rest : List String
  deriving DecidableEq, Repr

/-- What one call shows: the variable and `OPTARG`, or `OPTIND` at the end. -/
inductive Report where
  | found (value arg : Option String)
  | ended (optind : Option String)
  deriving DecidableEq, Repr

/-- The option character takes an argument. -/
def TakesArgument (spec : List Char) (c : Char) : Prop :=
  ∃ v, spec.dropWhile (· != c) = c :: ':' :: v

instance (spec : List Char) (c : Char) : Decidable (TakesArgument spec c) :=
  decidable_of_iff ((spec.dropWhile (· != c)).take 2 = [c, ':']) (by
    unfold TakesArgument
    rcases spec.dropWhile (· != c) with _ | ⟨a, _ | ⟨b, v⟩⟩ <;> simp)

/-- An option character, `cluster` and `rest` being left behind it; a colon never is one. -/
def posixOption (spec : List Char) (c : Char) (cluster : List Char) (rest : List String) :
    Report × Scan :=
  let silent := spec.head? = some ':'
  if c = ':' ∨ c ∉ spec then
    (.found (some "?") (if silent then some c.toString else none), ⟨cluster, rest⟩)
  else if TakesArgument spec c then
    match cluster, rest with
    | d :: cluster, rest =>
      (.found (some c.toString) (some (String.ofList (d :: cluster))), ⟨[], rest⟩)
    | [], arg :: rest => (.found (some c.toString) (some arg), ⟨[], rest⟩)
    | [], [] =>
      (if silent then .found (some ":") (some c.toString) else .found (some "?") none, ⟨[], []⟩)
  else (.found (some c.toString) none, ⟨cluster, rest⟩)

/-- The end of the options, before the parameters that are left of `total`. -/
def posixEnd (total : Nat) (rest : List String) : Report × Scan :=
  (.ended (some (toString (total - rest.length + 1))), ⟨[], rest⟩)

/-- One call, for a list of `total` parameters. -/
def posixCall (spec : List Char) (total : Nat) (scan : Scan) : Report × Scan :=
  match scan.cluster, scan.rest with
  | c :: cluster, rest => posixOption spec c cluster rest
  | [], [] => posixEnd total []
  | [], arg :: rest =>
    match arg.toList with
    | ['-', '-'] => posixEnd total rest
    | '-' :: c :: cluster => posixOption spec c cluster rest
    | _ => posixEnd total (arg :: rest)

/-- A call of `getopts`, or `OPTIND=1`. -/
inductive Act where
  | call
  | reset
  deriving DecidableEq, Repr

/-- What the calls of a run show. -/
def posixRun (spec : List Char) (args : List String) : Scan → List Act → List Report
  | _, [] => []
  | scan, .call :: acts =>
    (posixCall spec args.length scan).1 ::
      posixRun spec args (posixCall spec args.length scan).2 acts
  | _, .reset :: acts => posixRun spec args ⟨[], args⟩ acts

/-- What the code shows; no result when a write does not return. -/
def run (optstring var : String) : ShellState → List Act → Option (List Report)
  | _, [] => some []
  | s, .call :: acts =>
    let step := builtinGetopts ["getopts", optstring, var] s
    (s.applyAll step.1).bind fun s' => (run optstring var s' acts).map
      ((if step.2.2 = 0 then .found (s'.getVar var) (s'.getVar "OPTARG")
        else .ended (s'.getVar "OPTIND")) :: ·)
  | s, .reset :: acts => (s.setVar "OPTIND" "1").bind (run optstring var · acts)

/-! ## 3. Where they agree -/

/-- The character the next call looks at. -/
def Scan.next (scan : Scan) : Option Char :=
  match scan.cluster, scan.rest with
  | c :: _, _ => some c
  | [], arg :: _ =>
    match arg.toList with
    | ['-', '-'] => none
    | '-' :: c :: _ => some c
    | _ => none
  | [], [] => none

/-- The step does not meet a colon as an option character of an option string with a colon,
    and does not start over inside the first parameter. -/
def Fits (spec : List Char) (args : List String) (scan : Scan) : Act → Prop
  | .call => scan.next = some ':' → ':' ∉ spec
  | .reset => scan.cluster ≠ [] → scan.rest.length + 1 ≠ args.length

/-- All steps of the run do. -/
def AllFit (spec : List Char) (args : List String) : Scan → List Act → Prop
  | _, [] => True
  | scan, .call :: acts =>
    Fits spec args scan .call ∧ AllFit spec args (posixCall spec args.length scan).2 acts
  | scan, .reset :: acts => Fits spec args scan .reset ∧ AllFit spec args ⟨[], args⟩ acts

/-! ## 4. The variables -/

/-- The variables the builtin reads and writes. -/
def scanVars (var : String) : List String :=
  ["OPTIND", "OPTARG", "_GETOPTS_OPTIND", "_GETOPTS_OFFSET", var]

/-- They are plain variables of the innermost scope, and `var` is none of the others. -/
structure Writable (var : String) (s : ShellState) : Prop where
  name : isIdentifier var = true
  special : var ∉ specialNames
  other : var ∉ ["OPTIND", "OPTARG", "_GETOPTS_OPTIND", "_GETOPTS_OFFSET"]
  below : ∀ name ∈ scanVars var, s.env.below name = none
  plain : ∀ name ∈ scanVars var, ∀ v, s.env.get name = some v →
    v.readonly = false ∧ v.nameref = false

/-- A write of the builtin: a value, or none. -/
def write (w : String × Option String) : StateOp :=
  match w.2 with
  | some value => .setVar w.1 value
  | none => .unsetVar w.1

section

variable {var : String} {s : ShellState}

theorem Writable.getVar (h : Writable var s) {name : String} (hname : name ∈ scanVars var) :
    s.getVar name = (s.env.get name).map (·.value.asScalar) := by
  have hread : isIdentifier name = true ∧ name ∉ specialNames := by
    simp only [scanVars, List.mem_cons, List.not_mem_nil, or_false] at hname
    rcases hname with rfl | rfl | rfl | rfl | rfl
    · exact ⟨by decide, by decide⟩
    · exact ⟨by decide, by decide⟩
    · exact ⟨by decide, by decide⟩
    · exact ⟨by decide, by decide⟩
    · exact ⟨h.name, h.special⟩
  rw [getVar_of_identifier hread.1 hread.2]
  cases hget : s.env.get name with
  | none => exact getEnvVar_of_none hget
  | some v =>
    have htarget : namerefTarget v name = none := by
      simp [namerefTarget, (h.plain name hname v hget).2]
    rw [getEnvVar_of_get hget, htarget]
    rfl

/-- One write returns, and changes what is read under its own name only. -/
theorem Writable.apply (h : Writable var s) {w : String × Option String}
    (hw : w.1 ∈ scanVars var) : ∃ s', s.apply (write w) = some s' ∧ Writable var s' ∧
      s'.positional = s.positional ∧
      ∀ name ∈ scanVars var, s'.getVar name = if name = w.1 then w.2 else s.getVar name := by
  rcases w with ⟨name, value⟩
  have hro : s.isVarReadonly name = false := by
    rw [isVarReadonly_eq]
    cases hget : s.env.get name with
    | none => rfl
    | some v => exact (h.plain name hw v hget).1
  have hdone : ∀ s' : ShellState, s'.positional = s.positional →
      (∀ other, s'.env.below other = s.env.below other) →
      (∀ v, s'.env.get name = some v → v.readonly = false ∧ v.nameref = false) →
      (s'.env.get name).map (·.value.asScalar) = value →
      (∀ other, other ≠ name → s'.env.get other = s.env.get other) →
      Writable var s' ∧ s'.positional = s.positional ∧
        ∀ other ∈ scanVars var,
          s'.getVar other = if other = name then value else s.getVar other := by
    intro s' hpos hbelow hself hvalue hother
    have hwritable : Writable var s' := by
      refine ⟨h.name, h.special, h.other, fun n hn => ?_, fun n hn v hv => ?_⟩
      · rw [hbelow, h.below n hn]
      · by_cases hn' : n = name
        · subst hn'
          exact hself v hv
        · rw [hother n hn'] at hv
          exact h.plain n hn v hv
    refine ⟨hwritable, hpos, fun other ho => ?_⟩
    rw [hwritable.getVar ho]
    by_cases hne : other = name
    · rw [if_pos hne, hne, hvalue]
    · rw [if_neg hne, hother other hne, h.getVar ho]
  cases value with
  | some value =>
    have hfollows : s.follows name = false := by
      unfold follows
      cases hget : s.env.get name with
      | none => rfl
      | some v => simp [namerefTarget, (h.plain name hw v hget).2]
    refine ⟨_, setVar_of_plain hfollows value, ?_⟩
    rw [writeVar_eq hro]
    refine hdone _ rfl (fun _ => rfl) ?_ ?_ ?_
    · intro v hv
      rw [get_setEntry, if_pos rfl, Option.some.injEq] at hv
      subst hv
      refine ⟨rfl, ?_⟩
      cases hget : s.env.get name with
      | none => simp [written, hget]
      | some v => simp [written, hget, (h.plain name hw v hget).2]
    · rw [get_setEntry, if_pos rfl]
      rfl
    · intro other hne
      rw [get_setEntry, if_neg (Ne.symm hne)]
  | none =>
    have hgone : ∀ other, (s.unsetVar name).env.get other =
        if name = other then none else s.env.get other := by
      intro other
      rw [get_unsetVar, hro, h.below name hw]
      simp
    refine ⟨s.unsetVar name, rfl, hdone _ ?_ ?_ ?_ ?_ ?_⟩
    · rw [unsetVar, hro]
      rfl
    · intro other
      rw [unsetVar, hro]
      rfl
    · intro v hv
      rw [hgone, if_pos rfl] at hv
      cases hv
    · rw [hgone, if_pos rfl]
      rfl
    · intro other hne
      rw [hgone, if_neg (Ne.symm hne)]

/-- Writes one after the other: the last one under a name is read. -/
theorem Writable.applyAll (h : Writable var s) {ws : List (String × Option String)}
    (hws : ∀ w ∈ ws, w.1 ∈ scanVars var) : ∃ s', s.applyAll (ws.map write) = some s' ∧
      Writable var s' ∧ s'.positional = s.positional ∧
      ∀ name ∈ scanVars var, s'.getVar name =
        ws.foldl (fun value w => if name = w.1 then w.2 else value) (s.getVar name) := by
  induction ws generalizing s with
  | nil => exact ⟨s, rfl, h, rfl, fun _ _ => rfl⟩
  | cons w ws ih =>
    rcases h.apply (hws w (.head _)) with ⟨s₁, h₁, hw₁, hpos₁, hread₁⟩
    rcases ih hw₁ fun w hw => hws w (.tail _ hw) with ⟨s₂, h₂, hw₂, hpos₂, hread₂⟩
    refine ⟨s₂, ?_, hw₂, hpos₂.trans hpos₁, fun name hname => ?_⟩
    · rw [List.map_cons, ShellState.applyAll, h₁]
      exact h₂
    · rw [hread₂ name hname, hread₁ name hname, List.foldl_cons]

end

/-! ## 5. One call -/

section

variable {spec : List Char} {args : List String} {optind offset : Nat} {scan : Scan}

/-- `OPTIND` and the place in the cluster say what is left to scan. -/
structure Place (args : List String) (optind offset : Nat) (scan : Scan) : Prop where
  pos : 1 ≤ optind
  le : optind ≤ args.length + 1
  left : scan.cluster = [] ∧ offset = 1 ∧ args.drop (optind - 1) = scan.rest ∨
    scan.cluster ≠ [] ∧ 2 ≤ offset ∧ ∃ arg, args.drop (optind - 1) = arg :: scan.rest ∧
      arg.toList.drop offset = scan.cluster

/-- The parameter in hand, from one of its characters on. -/
structure InHand (args : List String) (optind offset : Nat) (text : List Char)
    (rest : List String) : Prop where
  pos : 1 ≤ optind
  offset_pos : 1 ≤ offset
  split : ∃ arg, args.drop (optind - 1) = arg :: rest ∧ arg.toList.drop offset = text

theorem InHand.drop {text : List Char} (h : InHand args optind offset text rest) :
    args.drop optind = rest ∧ optind ≤ args.length := by
  rcases h.split with ⟨arg, hdrop, -⟩
  have hpos := h.pos
  constructor
  · rw [show optind = (optind - 1) + 1 by omega, ← List.drop_drop, hdrop]
    rfl
  · have hlen := congrArg List.length hdrop
    rw [List.length_drop, List.length_cons] at hlen
    omega

/-- Behind an option character. -/
theorem InHand.pass {c : Char} {cluster : List Char}
    (h : InHand args optind offset (c :: cluster) rest) :
    Place args (pass optind offset cluster).1 (pass optind offset cluster).2 ⟨cluster, rest⟩ := by
  have hpos := h.pos
  have hle := h.drop.2
  have hoffset := h.offset_pos
  unfold Getopts.pass
  by_cases hnil : cluster = []
  · rw [if_pos hnil]
    exact ⟨by omega, by omega, .inl ⟨hnil, rfl, h.drop.1⟩⟩
  · rcases h.split with ⟨arg, hdrop, htext⟩
    rw [if_neg hnil]
    refine ⟨hpos, by omega, .inr ⟨hnil, by omega, arg, hdrop, ?_⟩⟩
    rw [← List.drop_drop, htext]
    rfl

/-- Behind so many further parameters. -/
theorem InHand.skip {text : List Char} {rest rest' : List String} {k : Nat}
    (h : InHand args optind offset text rest) (hrest : rest.drop k = rest') (hk : k ≤ rest.length) :
    Place args (optind + 1 + k) 1 ⟨[], rest'⟩ := by
  have hlen := congrArg List.length h.drop.1
  rw [List.length_drop] at hlen
  have hle := h.drop.2
  refine ⟨by omega, by omega, .inl ⟨rfl, rfl, ?_⟩⟩
  rw [show optind + 1 + k - 1 = optind + k by omega, ← List.drop_drop, h.drop.1, hrest]

/-- The loop finds the option character of the scan, or ends where the scan does. -/
theorem findOption_place (h : Place args optind offset scan) :
    (∃ i o rest, findOption optind offset (args.drop (optind - 1)) = (i, o, none) ∧
      posixCall spec args.length scan = (.ended (some (toString i)), ⟨[], rest⟩) ∧
      Place args i 1 ⟨[], rest⟩) ∨
    ∃ c cluster rest o, scan.next = some c ∧
      findOption optind offset (args.drop (optind - 1)) = (optind, o, some (c, cluster)) ∧
      posixCall spec args.length scan = posixOption spec c cluster rest ∧
      InHand args optind o (c :: cluster) rest := by
  have hpos := h.pos
  have hle := h.le
  rcases scan with ⟨cluster, rest⟩
  rcases h.left with ⟨hnil, hoffset, hdrop⟩ | ⟨hne, hoffset, arg, hdrop, htext⟩
  · simp only at hnil hdrop
    subst hnil hoffset
    have hended : ∀ i rest', args.drop (i - 1) = rest' → 1 ≤ i → i ≤ args.length + 1 →
        posixEnd args.length rest' = (.ended (some (toString i)), ⟨[], rest'⟩) ∧
          Place args i 1 ⟨[], rest'⟩ := by
      intro i rest' hi h₁ h₂
      have hlen := congrArg List.length hi
      rw [List.length_drop] at hlen
      rw [posixEnd, show args.length - rest'.length + 1 = i by omega]
      exact ⟨rfl, h₁, h₂, .inl ⟨rfl, rfl, hi⟩⟩
    have hhere := hended optind rest hdrop hpos hle
    rw [hdrop]
    rcases rest with _ | ⟨arg, rest⟩
    · exact .inl ⟨optind, 1, [], rfl, hhere⟩
    · have hlen := congrArg List.length hdrop
      rw [List.length_drop, List.length_cons] at hlen
      have hbehind := hended (optind + 1) rest
        (by rw [show optind + 1 - 1 = optind - 1 + 1 by omega, ← List.drop_drop, hdrop]; rfl)
        (by omega) (by omega)
      rcases htext : arg.toList with _ | ⟨a, _ | ⟨c, cluster⟩⟩
      · refine .inl ⟨optind, 1, arg :: rest, ?_, ?_, hhere.2⟩
        · simp [findOption, htext]
        · simp only [posixCall, htext, hhere.1]
      · refine .inl ⟨optind, 1, arg :: rest, ?_, ?_, hhere.2⟩
        · by_cases ha : a = '-'
          · simp [findOption, htext, ha]
          · simp [findOption, htext, ha]
        · simp only [posixCall, htext, hhere.1]
      · by_cases ha : a = '-'
        · subst ha
          by_cases hdash : c = '-' ∧ cluster = []
          · rcases hdash with ⟨rfl, rfl⟩
            refine .inl ⟨optind + 1, 1, rest, ?_, ?_, hbehind.2⟩
            · simp [findOption, htext]
            · simp only [posixCall, htext, hbehind.1]
          · -- the first character of a cluster
            refine .inr ⟨c, cluster, rest, 1, ?_, ?_, ?_, hpos, Nat.le_refl 1, arg, hdrop, ?_⟩
            · simp only [Scan.next, htext]
              split
              · next heq => exact absurd (by simpa using heq) hdash
              · next heq => rw [(List.cons.inj (List.cons.inj heq).2).1]
              · next hno => exact absurd rfl (hno c cluster)
            · simp [findOption, htext, hdash]
            · simp only [posixCall, htext]
              split
              · next heq => exact absurd (by simpa using heq) hdash
              · next heq =>
                rcases List.cons.inj (List.cons.inj heq).2 with ⟨rfl, rfl⟩
                rfl
              · next hno => exact absurd rfl (hno c cluster)
            · rw [htext]
              rfl
        · refine .inl ⟨optind, 1, arg :: rest, ?_, ?_, hhere.2⟩
          · simp [findOption, htext, ha]
          · simp only [posixCall, htext]
            split
            · next heq => exact absurd (List.cons.inj heq).1 ha
            · next heq => exact absurd (List.cons.inj heq).1 ha
            · exact hhere.1
  · rcases hc : cluster with _ | ⟨c, cluster'⟩
    · exact absurd hc hne
    · subst hc
      refine .inr ⟨c, cluster', rest, offset, rfl, ?_, rfl, hpos, by omega, arg, hdrop, htext⟩
      have hbig : ¬ offset ≤ 1 := by omega
      simp only [hdrop, findOption, hbig, false_and, if_false, htext]

/-- What an option character shows and where it leaves the scan, as the code and as the
    reference have it. -/
theorem handleOption_place {c : Char} {cluster : List Char}
    (h : InHand args optind offset (c :: cluster) rest) (hcolon : c = ':' → ':' ∉ spec)
    (shell var : String) : ∃ value arg i o after, ∃ first : List (String × Option String),
      (first = [("OPTARG", arg), (var, some value)] ∨
        first = [(var, some value), ("OPTARG", arg)]) ∧
      (handleOption spec shell var args optind offset c cluster).1 =
        first.map write ++ saveScan i o ∧
      posixOption spec c cluster rest = (.found (some value) arg, after) ∧
      Place args i o after := by
  have hlook : args[optind]? = rest.head? := by
    rw [← h.drop.1, List.head?_drop]
  have hknown : spec.dropWhile (· != c) = [] ↔ c ∉ spec := by
    rw [List.dropWhile_eq_nil_iff]
    simp only [bne_iff_ne, ne_eq]
    exact ⟨fun hall hmem => hall c hmem rfl, fun hnot a ha heq => hnot (heq ▸ ha)⟩
  have hhead : ∀ a v, spec.dropWhile (· != c) = a :: v → a = c := by
    intro a v hdrop
    have hfalse := List.head_dropWhile_not (· != c) (l := spec) (by rw [hdrop]; simp)
    simpa [hdrop] using hfalse
  unfold handleOption posixOption
  by_cases hin : c ∈ spec
  · have hc : ¬ (c = ':' ∨ c ∉ spec) := by
      rintro (rfl | hnot)
      · exact hcolon rfl hin
      · exact hnot hin
    rw [if_neg hc]
    rcases hdrop : spec.dropWhile (· != c) with _ | ⟨a, v⟩
    · exact absurd hin (hknown.mp hdrop)
    · obtain rfl := hhead a v hdrop
      by_cases htakes : v.head? = some ':'
      · obtain ⟨v', rfl⟩ : ∃ v', v = ':' :: v' := by
          rcases v with _ | ⟨d, v'⟩
          · cases htakes
          · exact ⟨v', by rw [Option.some.inj htakes]⟩
        rw [if_pos ⟨v', hdrop⟩]
        dsimp only
        rcases cluster with _ | ⟨d, cluster⟩
        · have hnil : ¬ ([] : List Char) ≠ [] := fun h => h rfl
          rw [if_neg hnil, hlook]
          rcases rest with _ | ⟨arg, rest⟩
          · -- the argument is missing
            by_cases hsilent : spec.head? = some ':'
            · simp only [if_pos hsilent]
              exact ⟨":", some a.toString, optind + 1, 1, _, _, .inl rfl, rfl, rfl,
                h.skip (k := 0) rfl (Nat.zero_le _)⟩
            · simp only [if_neg hsilent]
              exact ⟨"?", none, optind + 1, 1, _, _, .inl rfl, rfl, rfl,
                h.skip (k := 0) rfl (Nat.zero_le _)⟩
          · exact ⟨a.toString, some arg, optind + 2, 1, _, _, .inl rfl, rfl, rfl,
              h.skip (k := 1) rfl (by simp)⟩
        · rw [if_pos (List.cons_ne_nil d cluster)]
          exact ⟨a.toString, some (String.ofList (d :: cluster)), optind + 1, 1, _, _, .inl rfl,
            rfl, rfl, h.skip (k := 0) rfl (Nat.zero_le _)⟩
      · have hnot : ¬ TakesArgument spec a := by
          rintro ⟨v', hv⟩
          rw [hdrop] at hv
          exact htakes (by rw [(List.cons.inj hv).2]; rfl)
        rw [if_neg hnot]
        refine ⟨a.toString, none, _, _, _, _, .inr rfl, ?_, rfl, h.pass⟩
        dsimp only
        split
        · next heq => cases heq
        · next heq => exact absurd (by rw [(List.cons.inj heq).2]; rfl) htakes
        · rfl
  · rw [hknown.mpr hin, if_pos (.inr hin)]
    dsimp only
    by_cases hsilent : spec.head? = some ':'
    · rw [if_pos hsilent, if_pos hsilent]
      exact ⟨"?", some c.toString, _, _, _, _, .inl rfl, rfl, rfl, h.pass⟩
    · rw [if_neg hsilent, if_neg hsilent]
      exact ⟨"?", none, _, _, _, _, .inl rfl, rfl, rfl, h.pass⟩

end

/-! ## 6. Runs -/

/-- The parameters fit into memory. -/
def InMemory (args : List String) : Prop :=
  args.length + 1 < 2 ^ 64 ∧ ∀ arg ∈ args, arg.toList.length < 2 ^ 64

/-- The state stands where the scan does. -/
structure Rel (var : String) (args : List String) (s : ShellState) (scan : Scan) : Prop where
  writable : Writable var s
  positional : s.positional = args
  stored : numberVar s "_GETOPTS_OPTIND" = some 1 → optindOf s = 1
  place : Place args (optindOf s) (offsetOf s) scan

section

variable {var : String} {args : List String} {s : ShellState} {scan : Scan}

theorem Place.offset_lt {optind offset : Nat} (h : Place args optind offset scan)
    (hmem : InMemory args) : offset < 2 ^ 64 := by
  rcases h.left with ⟨-, rfl, -⟩ | ⟨hne, -, arg, hdrop, htext⟩
  · decide
  · have harg : arg ∈ args := by
      refine @List.mem_of_mem_drop _ _ (optind - 1) _ ?_
      rw [hdrop]
      exact .head _
    have hlt := hmem.2 arg harg
    have hlen := congrArg List.length htext
    rw [List.length_drop] at hlen
    have hpos := List.length_pos_iff.mpr hne
    omega

theorem numberVar_eq {name : String} {n : Nat} (h : s.getVar name = some (toString n))
    (hn : n < 2 ^ 64) : numberVar s name = some n := by
  rw [numberVar, h]
  exact parseUnsigned_toString hn

/-- The writes of a call that found an option. -/
theorem rel_saved (hw : Writable var s) (hpos : s.positional = args) (hmem : InMemory args)
    {value : String} {arg : Option String} {first : List (String × Option String)}
    (hfirst : first = [("OPTARG", arg), (var, some value)] ∨
      first = [(var, some value), ("OPTARG", arg)]) {i o : Nat} (hplace : Place args i o scan) :
    ∃ s', s.applyAll (first.map write ++ saveScan i o) = some s' ∧ Rel var args s' scan ∧
      s'.getVar var = some value ∧ s'.getVar "OPTARG" = arg := by
  have hother := hw.other
  simp only [List.mem_cons, List.not_mem_nil, or_false, not_or] at hother
  rcases hother with ⟨h₁, h₂, h₃, h₄⟩
  have hnames : ∀ w ∈ first ++ [("OPTIND", some (toString i)),
      ("_GETOPTS_OPTIND", some (toString i)), ("_GETOPTS_OFFSET", some (toString o))],
      w.1 ∈ scanVars var := by
    rcases hfirst with rfl | rfl <;> simp [scanVars]
  rcases hw.applyAll hnames with ⟨s', happly, hw', hpos', hread⟩
  have hi : i < 2 ^ 64 := Nat.lt_of_le_of_lt hplace.le hmem.1
  have hvalue : s'.getVar var = some value := by
    rw [hread var (by simp [scanVars])]
    rcases hfirst with rfl | rfl <;> simp [h₁, h₂, h₃, h₄]
  have harg : s'.getVar "OPTARG" = arg := by
    rw [hread "OPTARG" (by simp [scanVars])]
    rcases hfirst with rfl | rfl <;> simp [Ne.symm h₂]
  have hoptind : numberVar s' "OPTIND" = some i := by
    refine numberVar_eq ?_ hi
    rw [hread "OPTIND" (by simp [scanVars])]
    simp
  have hstored : numberVar s' "_GETOPTS_OPTIND" = some i := by
    refine numberVar_eq ?_ hi
    rw [hread "_GETOPTS_OPTIND" (by simp [scanVars])]
    simp
  have hoffset : numberVar s' "_GETOPTS_OFFSET" = some o := by
    refine numberVar_eq ?_ (hplace.offset_lt hmem)
    rw [hread "_GETOPTS_OFFSET" (by simp [scanVars])]
    simp
  have hat : optindOf s' = i := by
    rw [optindOf, hoptind]
    exact Nat.max_eq_left hplace.pos
  have hoff : offsetOf s' = o := by
    rw [offsetOf, hstored, hat, if_pos rfl, hoffset]
    rfl
  refine ⟨s', ?_, ⟨hw', hpos'.trans hpos, ?_, ?_⟩, hvalue, harg⟩
  · rw [← happly, List.map_append]
    rfl
  · rw [hstored, hat]
    exact Option.some.inj
  · rw [hat, hoff]
    exact hplace

/-- The writes at the end of the options. -/
theorem rel_ended (hw : Writable var s) (hpos : s.positional = args) (hmem : InMemory args)
    {i : Nat} (hplace : Place args i 1 ⟨[], rest⟩) :
    ∃ s', s.applyAll [.setVar "OPTIND" (toString i), .unsetVar "_GETOPTS_OPTIND",
      .unsetVar "_GETOPTS_OFFSET"] = some s' ∧ Rel var args s' ⟨[], rest⟩ ∧
        s'.getVar "OPTIND" = some (toString i) := by
  have hnames : ∀ w ∈ [("OPTIND", some (toString i)), ("_GETOPTS_OPTIND", none),
      ("_GETOPTS_OFFSET", none)], w.1 ∈ scanVars var := by
    simp [scanVars]
  rcases hw.applyAll hnames with ⟨s', happly, hw', hpos', hread⟩
  have hoptind : s'.getVar "OPTIND" = some (toString i) := by
    rw [hread "OPTIND" (by simp [scanVars])]
    simp
  have hstored : numberVar s' "_GETOPTS_OPTIND" = none := by
    rw [numberVar, hread "_GETOPTS_OPTIND" (by simp [scanVars])]
    simp
  have hat : optindOf s' = i := by
    rw [optindOf, numberVar_eq hoptind (Nat.lt_of_le_of_lt hplace.le hmem.1)]
    exact Nat.max_eq_left hplace.pos
  have hoff : offsetOf s' = 1 := by
    rw [offsetOf, hstored]
    rfl
  refine ⟨s', happly, ⟨hw', hpos'.trans hpos, ?_, ?_⟩, hoptind⟩
  · rw [hstored]
    intro h
    cases h
  · rw [hat, hoff]
    exact hplace

/-- `OPTIND=1` starts over, unless the place kept belongs to the first parameter. -/
theorem rel_reset (h : Rel var args s scan) (hfits : Fits [] args scan .reset) :
    ∃ s', s.setVar "OPTIND" "1" = some s' ∧ Rel var args s' ⟨[], args⟩ := by
  rcases @Writable.apply _ _ h.writable ("OPTIND", some "1") (by simp [scanVars]) with
    ⟨s', hset, hw, hpos, hread⟩
  have hstored : numberVar s' "_GETOPTS_OPTIND" = numberVar s "_GETOPTS_OPTIND" := by
    rw [numberVar, hread "_GETOPTS_OPTIND" (by simp [scanVars])]
    rfl
  have hkept : numberVar s' "_GETOPTS_OFFSET" = numberVar s "_GETOPTS_OFFSET" := by
    rw [numberVar, hread "_GETOPTS_OFFSET" (by simp [scanVars])]
    rfl
  have hat : optindOf s' = 1 := by
    have hone : s'.getVar "OPTIND" = some (toString 1) := by
      rw [hread "OPTIND" (by simp [scanVars]), if_pos rfl]
      rfl
    rw [optindOf, numberVar_eq hone (by decide)]
    rfl
  have hoff : offsetOf s' = 1 := by
    by_cases hone : numberVar s "_GETOPTS_OPTIND" = some 1
    · have hold := h.stored hone
      have hsame : offsetOf s' = offsetOf s := by
        rw [offsetOf, offsetOf, hstored, hkept, hat, hold]
      rcases h.place.left with ⟨-, hoffset, -⟩ | ⟨hne, -, arg, hdrop, -⟩
      · rw [hsame, hoffset]
      · rw [hold] at hdrop
        exact absurd (congrArg List.length hdrop).symm (hfits hne)
    · rw [offsetOf, hstored, hat, if_neg hone]
  refine ⟨s', hset, hw, hpos.trans h.positional, fun _ => hat, ?_⟩
  rw [hat, hoff]
  exact ⟨Nat.le_refl 1, by omega, .inl ⟨rfl, rfl, rfl⟩⟩

/-- A call shows what the scan shows. -/
theorem rel_call {optstring : String} (h : Rel var args s scan) (hmem : InMemory args)
    (hfits : Fits optstring.toList args scan .call) :
    ∃ s' ops message status, builtinGetopts ["getopts", optstring, var] s = (ops, message, status) ∧
      s.applyAll ops = some s' ∧ Rel var args s' (posixCall optstring.toList args.length scan).2 ∧
      (if status = 0 then .found (s'.getVar var) (s'.getVar "OPTARG")
        else .ended (s'.getVar "OPTIND")) = (posixCall optstring.toList args.length scan).1 := by
  simp only [builtinGetopts, if_true, h.positional]
  rcases @findOption_place optstring.toList _ _ _ _ h.place with
    ⟨i, o, rest, hfind, hposix, hplace⟩ | ⟨c, cluster, rest, o, hnext, hfind, hposix, hin⟩
  · rcases rel_ended h.writable h.positional hmem hplace with ⟨s', happly, hrel, hoptind⟩
    rw [hfind, hposix]
    exact ⟨s', _, _, 1, rfl, happly, hrel, by rw [if_neg Nat.one_ne_zero, hoptind]⟩
  · have hcolon : c = ':' → ':' ∉ optstring.toList := by
      rintro rfl
      exact hfits hnext
    rcases handleOption_place hin hcolon (s.scriptName.getD "wasmsh") var with
      ⟨value, arg, i', o', after, first, hfirst, hops, hoption, hplace⟩
    rcases rel_saved h.writable h.positional hmem hfirst hplace with
      ⟨s', happly, hrel, hvalue, harg⟩
    rw [hfind, hposix, hoption]
    refine ⟨s', _, _, 0, rfl, ?_, hrel, by rw [if_pos rfl, hvalue, harg]⟩
    rw [hops]
    exact happly

/-- A run whose steps all fit shows what the scan shows. -/
theorem rel_run {optstring : String} (h : Rel var args s scan) (hmem : InMemory args)
    {acts : List Act} (hfits : AllFit optstring.toList args scan acts) :
    run optstring var s acts = some (posixRun optstring.toList args scan acts) := by
  induction acts generalizing s scan with
  | nil => rfl
  | cons act acts ih =>
    cases act with
    | call =>
      rcases hfits with ⟨hfirst, hrest⟩
      rcases rel_call h hmem hfirst with ⟨s', ops, message, status, hcall, happly, hrel, hreport⟩
      simp only [run, hcall, happly, Option.bind_some, ih hrel hrest, Option.map_some, posixRun,
        hreport]
    | reset =>
      rcases hfits with ⟨hfirst, hrest⟩
      rcases rel_reset h hfirst with ⟨s', hset, hrel⟩
      simp only [run, hset, Option.bind_some, ih hrel hrest, posixRun]

/-! ## 7. Ends -/

/-- The characters and parameters that are left. -/
def Scan.size (scan : Scan) : Nat :=
  scan.cluster.length + (scan.rest.map fun arg => arg.toList.length + 1).sum

def Report.isEnd : Report → Bool
  | .ended _ => true
  | .found _ _ => false

/-- A call that does not end the options takes a character at least. -/
theorem size_posixCall (spec : List Char) (total : Nat) (scan : Scan) :
    (posixCall spec total scan).1.isEnd = true ∨
      (posixCall spec total scan).2.size < scan.size := by
  have hoption : ∀ c cluster rest,
      (posixOption spec c cluster rest).2.size < (Scan.mk (c :: cluster) rest).size := by
    intro c cluster rest
    unfold posixOption
    by_cases hc : c = ':' ∨ c ∉ spec
    · simp [hc, Scan.size]
    · by_cases htakes : TakesArgument spec c
      · rcases cluster with _ | ⟨d, cluster⟩
        · rcases rest with _ | ⟨arg, rest⟩
          · simp [hc, htakes, Scan.size]
          · simp only [hc, htakes, Scan.size, if_false, if_true, List.map_cons, List.sum_cons,
              List.length_cons, List.length_nil]
            omega
        · simp [hc, htakes, Scan.size]
      · simp [hc, htakes, Scan.size]
  rcases scan with ⟨_ | ⟨c, cluster⟩, rest⟩
  · rcases rest with _ | ⟨arg, rest⟩
    · exact .inl rfl
    · unfold posixCall
      dsimp only
      split
      · exact .inl rfl
      · next c cluster _ htext =>
        have hlt := hoption c cluster rest
        simp only [Scan.size, List.length_cons, List.length_nil, List.map_cons, List.sum_cons,
          htext] at hlt ⊢
        exact .inr (by omega)
      · exact .inl rfl
  · exact .inr (hoption c cluster rest)

/-- Calls one after the other come to an end. -/
theorem ended_of_calls {spec : List Char} {m : Nat} (hsize : scan.size < m) :
    ∃ r ∈ posixRun spec args scan (List.replicate m .call), r.isEnd = true := by
  induction m generalizing scan with
  | zero => exact absurd hsize (Nat.not_lt_zero _)
  | succ m ih =>
    rw [List.replicate_succ, posixRun]
    rcases size_posixCall spec args.length scan with hend | hlt
    · exact ⟨_, .head _, hend⟩
    · rcases @ih (posixCall spec args.length scan).2 (by omega) with ⟨r, hr, hend⟩
      exact ⟨r, .tail _ hr, hend⟩

/-- The state of a scan after some steps. -/
def after (spec : List Char) (args : List String) : Scan → List Act → Scan
  | scan, [] => scan
  | scan, .call :: acts => after spec args (posixCall spec args.length scan).2 acts
  | _, .reset :: acts => after spec args ⟨[], args⟩ acts

theorem posixRun_append (spec : List Char) (acts more : List Act) :
    posixRun spec args scan (acts ++ more) =
      posixRun spec args scan acts ++ posixRun spec args (after spec args scan acts) more := by
  induction acts generalizing scan with
  | nil => rfl
  | cons act acts ih => cases act <;> simp [posixRun, after, ih]

end

/-- Nothing of an earlier scan is left. -/
structure Fresh (var : String) (args : List String) (s : ShellState) : Prop where
  writable : Writable var s
  positional : s.positional = args
  optind : s.getVar "OPTIND" = none ∨ s.getVar "OPTIND" = some "1"
  stored : s.getVar "_GETOPTS_OPTIND" = none

/-- **`getopts`.**  In a run of calls and of `OPTIND=1` whose steps all fit, every call shows
    what the scan of POSIX shows, `OPTIND` at the end included; and from any point on, calls
    come to an end. -/
theorem getopts_scans (optstring var : String) (args : List String) (s : ShellState)
    (hfresh : Fresh var args s) (hmem : InMemory args) (acts : List Act)
    (hfits : AllFit optstring.toList args ⟨[], args⟩ acts) :
    run optstring var s acts = some (posixRun optstring.toList args ⟨[], args⟩ acts) ∧
      ∃ n, ∀ m, n ≤ m →
        AllFit optstring.toList args ⟨[], args⟩ (acts ++ List.replicate m .call) →
          ∃ behind, run optstring var s (acts ++ List.replicate m .call) =
              some (posixRun optstring.toList args ⟨[], args⟩ acts ++ behind) ∧
            ∃ r ∈ behind, r.isEnd = true := by
  have hrel : Rel var args s ⟨[], args⟩ := by
    have hat : optindOf s = 1 := by
      rw [optindOf, numberVar]
      rcases hfresh.optind with h | h <;> rw [h] <;> decide
    have hstored : numberVar s "_GETOPTS_OPTIND" = none := by
      rw [numberVar, hfresh.stored]
      rfl
    have hoff : offsetOf s = 1 := by
      rw [offsetOf, hstored]
      rfl
    refine ⟨hfresh.writable, hfresh.positional, fun _ => hat, ?_⟩
    rw [hat, hoff]
    exact ⟨Nat.le_refl 1, by omega, .inl ⟨rfl, rfl, rfl⟩⟩
  refine ⟨rel_run hrel hmem hfits,
    (after optstring.toList args ⟨[], args⟩ acts).size + 1, fun m hm hfits => ?_⟩
  refine ⟨posixRun optstring.toList args (after optstring.toList args ⟨[], args⟩ acts)
    (List.replicate m .call), ?_, ended_of_calls hm⟩
  rw [rel_run hrel hmem hfits, posixRun_append]

/-- A name of one letter in a new shell. -/
theorem fresh_new (args : List String) :
    Fresh "v" args { ShellState.new with positional := args } where
  writable := ⟨by decide, by decide, by decide, fun _ _ => rfl, fun _ _ v hv => by cases hv⟩
  positional := rfl
  optind := .inl (by
    rw [getVar_of_identifier (by decide) (by decide)]
    rfl)
  stored := by
    rw [getVar_of_identifier (by decide) (by decide)]
    rfl

/-- Two options in one parameter, the second with the next one, and `--`. -/
theorem cluster_scanned :
    run "ab:" "v" { ShellState.new with positional := ["-ab", "x", "--", "y"] }
        [.call, .call, .call] =
      some [.found (some "a") none, .found (some "b") (some "x"), .ended (some "4")] :=
  (getopts_scans "ab:" "v" ["-ab", "x", "--", "y"] _ (fresh_new _)
    ⟨by decide, List.all_iff_forall_prop.mp (by decide)⟩ [.call, .call, .call]
    (by simp only [AllFit, Fits]; decide +kernel)).1

/-- `OPTIND=1` inside the first cluster goes on with the second option. -/
theorem reset_in_cluster : ¬ ∀ (optstring var : String) (args : List String) (s : ShellState),
    Fresh var args s → InMemory args → ∀ acts,
      run optstring var s acts = some (posixRun optstring.toList args ⟨[], args⟩ acts) := by
  intro h
  have hrun := h "ab" "v" ["-ab"] _ (fresh_new _)
    ⟨by decide, List.all_iff_forall_prop.mp (by decide)⟩ [.call, .reset, .call]
  exact absurd hrun (by decide +kernel)

end Wasmsh.Getopts

import Mathlib.Logic.Relation
import Wasmsh.ScalarAssignment

/-!
# Reading a variable back

`set_var` follows a chain of namerefs to its end and writes the variable it finds there;
`get_var` takes one step along the chain.  So a value is read back through no nameref or
one.  A variable that is a nameref without a target keeps that attribute when it is
written, and the value it is given becomes its target.  Whatever the chain, a name that
does not lead to the variable written is read as before.
-/

namespace Wasmsh

open IndexMap

namespace ShellState

variable {st st' : ShellState}
variable {name : String} {p : String → Prop}

/-! ## 1. The chain of a name -/

/-- The name that a nameref refers to. -/
def hop (st : ShellState) (name : String) : Option String :=
  (st.env.get name).bind (namerefTarget · name)

/-- One name leads to another through namerefs, in any number of steps. -/
def Reaches (st : ShellState) : String → String → Prop :=
  Relation.ReflTransGen fun a b => st.hop a = some b

/-- The names that `get_var` does not look up among the variables. -/
def specialNames : List String :=
  ["_", "RANDOM", "LINENO", "SECONDS", "FUNCNAME", "BASH_SOURCE"]

theorem hop_eq_none (h : st.follows name = false) : st.hop name = none := by
  simpa [hop, follows] using h

theorem hop_of_get {v : ShellVar} (hget : st.env.get name = some v) :
    st.hop name = namerefTarget v name := by
  simp [hop, hget]

theorem reaches_of_hop {a b : String} (h : st.hop a = some b) : st.Reaches a b :=
  Relation.ReflTransGen.single h

theorem getEnvVar_of_get {v : ShellVar} (hget : st.env.get name = some v) :
    st.getEnvVar name = match namerefTarget v name with
      | some target => (st.env.get target).map (·.value.asScalar)
      | none => some v.value.asScalar := by
  unfold getEnvVar
  rw [hget]
  rfl

theorem getEnvVar_of_none (hget : st.env.get name = none) :
    st.getEnvVar name = none := by
  unfold getEnvVar
  rw [hget]
  rfl

/-- An identifier is no positional parameter. -/
theorem positionalParamIndex_of_identifier (hname : isIdentifier name = true) :
    positionalParamIndex name = none := by
  unfold isIdentifier at hname
  cases hcs : name.toList with
  | nil => rw [hcs] at hname; cases hname
  | cons c cs =>
    rw [hcs, Bool.and_eq_true] at hname
    have hstart := hname.1
    have hplus : c ≠ '+' := by
      rintro rfl
      exact absurd hstart (by decide)
    have hdigit : c.isDigit = false := not_isDigit_of_isNameStart hstart
    have hvalue : digitsValue (c :: cs) = none := by simp [digitsValue, hdigit]
    have hparse : parseUnsigned 64 name = none := by
      unfold parseUnsigned
      rw [hcs]
      split
      · next heq => exact absurd (List.cons.inj heq).1 hplus
      · rw [hvalue]
        rfl
    rw [positionalParamIndex, hparse]
    rfl

/-- Any other identifier is read among the variables. -/
theorem getVar_of_identifier (hname : isIdentifier name = true)
    (hspecial : name ∉ specialNames) : st.getVar name = st.getEnvVar name := by
  have hne : ∀ other, isIdentifier other = false → name ≠ other := by
    rintro other hother rfl
    rw [hother] at hname
    cases hname
  simp only [specialNames, List.mem_cons, not_or] at hspecial
  rcases hspecial with ⟨h₁, -, h₂, -, h₃, h₄, -⟩
  unfold getVar
  rw [if_neg (hne _ (by decide)), if_neg (hne _ (by decide)), if_neg (hne _ (by decide)),
    if_neg (hne _ (by decide)), if_neg (hne _ (by decide)), if_neg (hne _ (by decide)),
    if_neg h₁, if_neg (not_or.mpr ⟨hne _ (by decide), hne _ (by decide)⟩),
    if_neg h₂, if_neg h₃, if_neg h₄, positionalParamIndex_of_identifier hname]

/-! ## 2. Chains that end -/

/-- The chain of a name ends after so many steps, at a name with the property. -/
def EndsAfter (st : ShellState) (p : String → Prop) : Nat → String → Prop
  | 0, name => st.hop name = none ∧ p name
  | n + 1, name => ∃ next, st.hop name = some next ∧ st.EndsAfter p n next

/-- The chain of a name ends, at a name with the property. -/
def EndsAt (st : ShellState) (p : String → Prop) (name : String) : Prop :=
  ∃ n, st.EndsAfter p n name

theorem setVarTarget_succ (fuel : Nat) (name : String) :
    st.setVarTarget (fuel + 1) name =
      match st.hop name with
      | some next => st.setVarTarget fuel next
      | none => some name := rfl

theorem endsAfter_of_target {fuel : Nat} {name target : String}
    (h : st.setVarTarget fuel name = some target) :
    ∃ n < fuel, st.EndsAfter (· = target) n name := by
  induction fuel generalizing name with
  | zero => cases h
  | succ fuel ih =>
    rw [setVarTarget_succ] at h
    cases hhop : st.hop name with
    | none =>
      rw [hhop] at h
      cases h
      exact ⟨0, Nat.succ_pos _, hhop, rfl⟩
    | some next =>
      rw [hhop] at h
      rcases ih h with ⟨n, hn, hends⟩
      exact ⟨n + 1, Nat.succ_lt_succ hn, next, hhop, hends⟩

theorem EndsAfter.target {n : Nat} (h : st.EndsAfter p n name) {fuel : Nat} (hfuel : n < fuel) :
    ∃ target, p target ∧ st.setVarTarget fuel name = some target := by
  induction n generalizing name fuel with
  | zero =>
    rcases h with ⟨hhop, hp⟩
    cases fuel with
    | zero => cases hfuel
    | succ fuel => exact ⟨name, hp, by rw [setVarTarget_succ, hhop]⟩
  | succ n ih =>
    rcases h with ⟨next, hhop, hends⟩
    cases fuel with
    | zero => cases hfuel
    | succ fuel =>
      rcases ih hends (Nat.lt_of_succ_lt_succ hfuel) with ⟨target, hp, htarget⟩
      exact ⟨target, hp, by rw [setVarTarget_succ, hhop]; exact htarget⟩

theorem EndsAfter.mono {p q : String → Prop} (hpq : ∀ a, p a → q a) {n : Nat}
    (h : st.EndsAfter p n name) : st.EndsAfter q n name := by
  induction n generalizing name with
  | zero => exact ⟨h.1, hpq name h.2⟩
  | succ n ih =>
    rcases h with ⟨next, hhop, hends⟩
    exact ⟨next, hhop, ih hends⟩

theorem EndsAt.mono {p q : String → Prop} (hpq : ∀ a, p a → q a)
    (h : st.EndsAt p name) : st.EndsAt q name := by
  rcases h with ⟨n, h⟩
  exact ⟨n, h.mono hpq⟩

/-- A chain has one length. -/
theorem EndsAfter.unique {m n : Nat}
    (hm : st.EndsAfter p m name) (hn : st.EndsAfter p n name) : m = n := by
  induction m generalizing n name with
  | zero =>
    cases n with
    | zero => rfl
    | succ n =>
      rcases hn with ⟨next, hhop, -⟩
      rw [hm.1] at hhop
      cases hhop
  | succ m ih =>
    rcases hm with ⟨next, hhop, hm⟩
    cases n with
    | zero =>
      rw [hn.1] at hhop
      cases hhop
    | succ n =>
      rcases hn with ⟨next', hhop', hn⟩
      rw [hhop] at hhop'
      cases hhop'
      rw [ih hm hn]

/-- The names of a chain before its end are different ones. -/
theorem EndsAfter.names {n : Nat} (h : st.EndsAfter p n name) :
    ∃ names : List String, names.length = n ∧ names.Nodup ∧
      ∀ a ∈ names, (st.hop a).isSome = true ∧ ∃ m ≤ n, st.EndsAfter p m a := by
  induction n generalizing name with
  | zero => exact ⟨[], rfl, List.nodup_nil, fun a ha => absurd ha List.not_mem_nil⟩
  | succ n ih =>
    have hself := h
    rcases h with ⟨next, hhop, hends⟩
    rcases ih hends with ⟨names, hlength, hnodup, hnames⟩
    refine ⟨name :: names, congrArg (· + 1) hlength, List.nodup_cons.mpr ⟨?_, hnodup⟩, ?_⟩
    · intro hmem
      rcases (hnames name hmem).2 with ⟨m, hm, hends'⟩
      have heq := hself.unique hends'
      omega
    · intro a ha
      rcases List.mem_cons.mp ha with rfl | ha
      · exact ⟨by rw [hhop]; rfl, n + 1, le_refl _, hself⟩
      · rcases (hnames a ha).2 with ⟨m, hm, hends'⟩
        exact ⟨(hnames a ha).1, m, hm.trans (Nat.le_succ n), hends'⟩

/-- The names that have an entry in some scope. -/
def entryNames (st : ShellState) : List String :=
  (st.env.inner :: st.env.outer).flatMap keys

theorem length_entryNames : st.entryNames.length = st.varCount := by
  simp [entryNames, varCount, keys, List.length_flatMap]

theorem mem_entryNames (h : (st.hop name).isSome = true) :
    name ∈ st.entryNames := by
  by_contra hmem
  rw [entryNames, List.mem_flatMap, not_exists] at hmem
  have hget : st.env.get name = none := by
    apply List.findSome?_eq_none_iff.mpr
    intro scope hscope
    exact get_eq_none_of_not_mem fun hin => hmem scope ⟨hscope, hin⟩
  rw [hop, hget] at h
  cases h

theorem EndsAt.target (h : st.EndsAt p name) :
    ∃ target, p target ∧ st.target name = some target := by
  rcases h with ⟨n, hends⟩
  rcases hends.names with ⟨names, hlength, hnodup, hnames⟩
  have hle : n ≤ st.varCount := by
    rw [← hlength, ← length_entryNames]
    exact (hnodup.subperm fun a ha => mem_entryNames (hnames a ha).1).length_le
  exact hends.target (Nat.lt_succ_of_le hle)

/-- A chain that ends is followed to its end. -/
theorem target_isSome_iff : (st.target name).isSome = true ↔ st.EndsAt (fun _ => True) name := by
  constructor
  · intro h
    rcases Option.isSome_iff_exists.mp h with ⟨target, htarget⟩
    rcases endsAfter_of_target htarget with ⟨n, -, hends⟩
    exact ⟨n, hends.mono fun _ _ => trivial⟩
  · intro h
    rcases h.target with ⟨target, -, htarget⟩
    exact Option.isSome_iff_exists.mpr ⟨target, htarget⟩

/-- Chains end if they ended in a state that differs at one name, where a chain ends. -/
theorem EndsAt.of_agree {p q : String → Prop} {a name : String} (hends : st'.EndsAt q a)
    (hhop : ∀ b, b ≠ a → st'.hop b = st.hop b) (hpq : ∀ b, b ≠ a → p b → q b)
    (h : st.EndsAt p name) : st'.EndsAt q name := by
  rcases h with ⟨n, h⟩
  induction n generalizing name with
  | zero =>
    by_cases heq : name = a
    · rw [heq]
      exact hends
    · exact ⟨0, (hhop name heq).trans h.1, hpq name heq h.2⟩
  | succ n ih =>
    by_cases heq : name = a
    · rw [heq]
      exact hends
    · rcases h with ⟨next, hnext, h⟩
      rcases ih h with ⟨m, hm⟩
      exact ⟨m + 1, next, (hhop name heq).trans hnext, hm⟩

/-- The name is that of a nameref, with a target or without. -/
def isNameref (st : ShellState) (name : String) : Bool := (st.env.get name).any (·.nameref)

theorem hop_of_not_nameref (h : st.isNameref name = false) :
    st.hop name = none := by
  unfold isNameref at h
  unfold hop
  cases hget : st.env.get name with
  | none => rfl
  | some v =>
    rw [hget] at h
    have hv : v.nameref = false := h
    rw [Option.bind_some, namerefTarget, hv, if_neg (fun h => Bool.false_ne_true h.1)]

theorem isNameref_setEntry (name : String) (v : ShellVar) (other : String) :
    (st.setEntry name v).isNameref other =
      if name = other then v.nameref else st.isNameref other := by
  unfold isNameref
  rw [get_setEntry]
  split <;> rfl

theorem hop_setEntry (name : String) (v : ShellVar) (other : String) :
    (st.setEntry name v).hop other =
      if name = other then namerefTarget v name else st.hop other := by
  unfold hop
  rw [get_setEntry]
  split
  · next heq => rw [heq, Option.bind_some]
  · rfl

/-- A write changes no variable to a nameref, nor a nameref to a variable. -/
theorem isNameref_writeVar (name value other : String) :
    (st.writeVar name value).isNameref other = st.isNameref other := by
  cases hro : st.isVarReadonly name with
  | true => rw [writeVar_of_readonly hro]
  | false =>
    rw [writeVar_eq hro, isNameref_setEntry]
    split
    · next heq =>
      subst heq
      unfold isNameref
      cases hget : st.env.get name <;> simp [written, hget]
    · rfl

/-! ## 3. After a write -/

theorem getEnvVar_congr (hself : st'.env.get name = st.env.get name)
    (hhop : ∀ target, st.hop name = some target → st'.env.get target = st.env.get target) :
    st'.getEnvVar name = st.getEnvVar name := by
  cases hget : st.env.get name with
  | none => rw [getEnvVar_of_none hget, getEnvVar_of_none (hself.trans hget)]
  | some v =>
    rw [getEnvVar_of_get hget, getEnvVar_of_get (hself.trans hget)]
    cases htarget : namerefTarget v name with
    | none => rfl
    | some target =>
      have hsame := hhop target ((hop_of_get hget).trans htarget)
      simp only [hsame]

theorem getVar_congr (hname : isIdentifier name = true)
    (henv : st' = { st with env := st'.env }) (hread : st'.getEnvVar name = st.getEnvVar name) :
    st'.getVar name = st.getVar name := by
  have hne : name ≠ "-" := by
    rintro rfl
    cases hname
  unfold getVar
  rw [if_neg hne, if_neg hne, hread, henv]

theorem writeVar_env (name value : String) :
    st.writeVar name value = { st with env := (st.writeVar name value).env } := by
  unfold writeVar
  dsimp only
  split
  · rfl
  · rfl

/-- The variable that is written holds the value. -/
theorem get_writeVar (hro : st.isVarReadonly name = false) (value : String) :
    (st.writeVar name value).env.get name = some (st.written name value) := by
  rw [writeVar_eq hro, get_setEntry, if_pos rfl]

/-- The names `name` does not lead to are written as before. -/
theorem getVar_writeVar_of_not_reaches {target other : String}
    (hother : isIdentifier other = true) (hreach : ¬ st.Reaches other target) (value : String) :
    (st.writeVar target value).getVar other = st.getVar other := by
  apply getVar_congr hother (writeVar_env _ _)
  apply getEnvVar_congr
  · apply get_writeVar_of_ne
    rintro rfl
    exact hreach .refl
  · intro next hhop
    apply get_writeVar_of_ne
    rintro rfl
    exact hreach (reaches_of_hop hhop)

/-- **What is read after a write.**  Let `set_var` write the variable `target` at the end of
    the chain of `name`.  Where `name` refers to `target` directly, or is `target` and no
    nameref, the value is read back.  Where `name` is `target` and a nameref that has no
    target yet, the value becomes its target.  Names that do not lead to `target` are read
    as before. -/
theorem setVar_reads_back {name value target : String} (hname : isIdentifier name = true)
    (hspecial : name ∉ specialNames) (htarget : st.target name = some target)
    (hro : st.isVarReadonly target = false) (hset : st.setVar name value = some st') :
    (st.hop name = some target → st'.getVar name = some value) ∧
      (target = name → (st.env.get name).all (fun v => !v.nameref) = true →
        st'.getVar name = some value) ∧
      (target = name → (st.env.get name).any (·.nameref) = true →
        st'.getVar name = if value = "" ∨ value = name then some value
          else (st.env.get value).map (·.value.asScalar)) ∧
      ∀ other, isIdentifier other = true → ¬ st.Reaches other target →
        st'.getVar other = st.getVar other := by
  rw [setVar_eq, htarget, Option.map_some, Option.some.injEq] at hset
  subst hset
  have hget := get_writeVar hro value
  rw [getVar_of_identifier hname hspecial]
  refine ⟨fun hhop => ?_, fun heq hplain => ?_, fun heq href => ?_, fun other hother hreach =>
    getVar_writeVar_of_not_reaches hother hreach value⟩
  · -- the nameref itself is not written
    have hne : target ≠ name := by
      rintro rfl
      rw [hop_eq_none (not_follows_of_target htarget)] at hhop
      cases hhop
    cases hname' : st.env.get name with
    | none => simp [hop, hname'] at hhop
    | some v =>
      have hv : (st.writeVar target value).env.get name = some v :=
        (get_writeVar_of_ne hne value).trans hname'
      rw [getEnvVar_of_get hv, ← hop_of_get hname', hhop]
      simp only [hget, written, Option.map_some, VarValue.asScalar]
  · subst heq
    have hnoref : (st.written target value).nameref = false := by
      cases hv : st.env.get target with
      | none => simp [written, hv]
      | some v => simpa [written, hv] using hplain
    have hnone : namerefTarget (st.written target value) target = none := by
      rw [namerefTarget, hnoref, if_neg (fun h => Bool.false_ne_true h.1)]
    rw [getEnvVar_of_get hget, hnone]
    rfl
  · subst heq
    have href' : (st.written target value).nameref = true := by
      cases hv : st.env.get target with
      | none => simp [hv] at href
      | some v => simpa [written, hv] using href
    have hvalue : (st.written target value).value.asScalar = value := rfl
    rw [getEnvVar_of_get hget]
    unfold namerefTarget
    rw [href', hvalue]
    by_cases hempty : value = "" ∨ value = target
    · rw [if_neg, if_pos hempty]
      rintro ⟨-, hne, hne'⟩
      exact hempty.elim hne hne'
    · rw [if_pos ⟨rfl, not_or.mp hempty⟩, if_neg hempty]
      simp only [get_writeVar_of_ne (fun h => not_or.mp hempty |>.2 h.symm)]

/-- `a` refers to `b` and `b` to `c`; `r` is a nameref without a target. -/
def withNamerefs : ShellState :=
  { new with env := ⟨[("a", ⟨.scalar "b", false, false, false, true⟩),
      ("b", ⟨.scalar "c", false, false, false, true⟩), ("c", .ofScalar "old"),
      ("r", ⟨.scalar "", false, false, false, true⟩)], []⟩ }

theorem reads_back_through_b :
    ∃ st, withNamerefs.setVar "b" "new" = some st ∧ st.getVar "b" = some "new" := by
  have hsome : (withNamerefs.setVar "b" "new").isSome = true := by decide +kernel
  rcases Option.isSome_iff_exists.mp hsome with ⟨st, hset⟩
  refine ⟨st, hset, ?_⟩
  exact (@setVar_reads_back _ _ _ _ "c" (by decide +kernel) (by decide) (by decide +kernel)
    (by decide +kernel) hset).1 (by decide +kernel)

/-- Through two namerefs the name of the second target is read; and a nameref without a
    target has one after the write. -/
theorem chain_not_read_back :
    (withNamerefs.target "a" = some "c" ∧ withNamerefs.isVarReadonly "c" = false ∧
      (withNamerefs.setVar "a" "new").map (·.getVar "a") = some (some "c")) ∧
    withNamerefs.target "r" = some "r" ∧ withNamerefs.isVarReadonly "r" = false ∧
      (withNamerefs.setVar "r" "new").map (·.getVar "r") = some none := by
  decide +kernel

end ShellState

end Wasmsh

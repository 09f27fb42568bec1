import Wasmsh.Variables

/-!
# Pending errors

An expansion that fails records a message in a variable of the innermost scope, and the
next command takes it from there.  Looking the message up goes through all scopes and
removing it only through the innermost one.  So a message is taken once, and is the one
recorded last, in a run that does not leave the scope where one is pending, takes none
from an outer scope and records none that reads as another one or as nothing.
-/

namespace Wasmsh

open IndexMap

/-! ## 1. Runs -/

inductive ErrorKind where
  | nounset
  | arith
  | shell
  deriving DecidableEq, Repr

def ErrorKind.var : ErrorKind → String
  | .nounset => "_NOUNSET_ERROR"
  | .arith => "_ARITH_ERROR"
  | .shell => "_SHELL_ERROR"

/-- A message, and whether it is fatal. -/
abbrev ErrorMessage := Bool × String

/-- `take_nounset_error`, `take_arith_error` or `take_shell_error`. -/
def ShellState.takeError (s : ShellState) : ErrorKind → Option ErrorMessage × ShellState
  | .nounset => (s.takeNounsetError.1.map (false, ·), s.takeNounsetError.2)
  | .arith => (s.takeArithError.1.map (false, ·), s.takeArithError.2)
  | .shell => s.takeShellError

/-- What the rest of the shell does with a state. -/
inductive Act where
  | setNounsetError (name : String)
  | setArithError (message : String)
  | setShellError (message : String)
  | setFatalShellError (message : String)
  | pushScope
  | popScope
  | write (op : StateOp)
  | take (kind : ErrorKind)
  deriving DecidableEq, Repr

/-- One of them; `none` for a write that does not return. -/
def ShellState.act (s : ShellState) : Act → Option ShellState
  | .setNounsetError name => some (s.setNounsetError name)
  | .setArithError message => some (s.setArithError message)
  | .setShellError message => some (s.setShellError message)
  | .setFatalShellError message => some (s.setFatalShellError message)
  | .pushScope => some { s with env := s.env.pushScope }
  | .popScope => some { s with env := s.env.popScope }
  | .write op => s.apply op
  | .take kind => some (s.takeError kind).2

/-- The message that is recorded. -/
def Act.records : Act → Option (ErrorKind × ErrorMessage)
  | .setNounsetError name => some (.nounset, false, name)
  | .setArithError message => some (.arith, false, message)
  | .setShellError message => some (.shell, false, message)
  | .setFatalShellError message => some (.shell, true, message)
  | _ => none

/-- The message recorded last and not taken since. -/
def Act.lastAfter (kind : ErrorKind) (last : Option ErrorMessage) (act : Act) :
    Option ErrorMessage :=
  if act = .take kind then none
  else match act.records with
    | some (other, message) => if other = kind then some message else last
    | none => last

/-- Each time errors of the kind are taken in the run, the one recorded last is, if there
    is one since the time before, and there is none to take after that. -/
def Delivers (kind : ErrorKind) : ShellState → Option ErrorMessage → List Act → Prop
  | _, _, [] => True
  | s, last, act :: acts =>
    (act = .take kind →
      (s.takeError kind).1 = last ∧ ((s.takeError kind).2.takeError kind).1 = none) ∧
    ∀ s', s.act act = some s' → Delivers kind s' (act.lastAfter kind last) acts

/-! ## 2. The condition -/

/-- The variable that a write changes. -/
def StateOp.written (s : ShellState) : StateOp → Option String
  | .setVar name _ => s.target name
  | .setReadonly name _ => some name
  | .unsetVar name => some name
  | .setArrayElement name _ _ => some name
  | .appendArray name _ => some name
  | .unsetArrayElement name _ => some name
  | .initIndexedArray name => some name
  | .initAssocArray name => some name
  | .setEntry name _ => some name
  | .setAttributes name _ _ _ _ => some name
  | _ => none

/-- The texts of a variable, one for each scope, innermost first. -/
def ShellState.texts (s : ShellState) (var : String) : List (Option String) :=
  (s.env.inner :: s.env.outer).map fun sc => (IndexMap.get sc var).map (·.value.asScalar)

/-- None of the scopes has a message. -/
def NonePending (texts : List (Option String)) : Prop := ∀ text, some text ∈ texts → text = ""

/-- The message is not empty and, as a shell error, does not look like a fatal one. -/
def Readable (kind : ErrorKind) (message : ErrorMessage) : Prop :=
  message.1 = true ∨
    message.2 ≠ "" ∧ (kind = .shell → message.2.toList.head? ≠ some '\x01')

/-- The step is one after which messages of the kind are still delivered: a message that
    is recorded can be read; the scope that is left, if one is, has no message; a message
    that is taken stands in the innermost scope; no other write changes the variable. -/
def Act.Keeps (kind : ErrorKind) (s : ShellState) (act : Act) : Prop :=
  (∀ message, act.records = some (kind, message) → Readable kind message) ∧
  (act = .popScope → s.env.outer ≠ [] → NonePending ((s.texts kind.var).take 1)) ∧
  (act = .take kind → NonePending (s.texts kind.var).tail) ∧
  ∀ op, act = .write op → op.written s ≠ some kind.var

/-- Every step of the run is one of those. -/
def AllKeep (kind : ErrorKind) : ShellState → List Act → Prop
  | _, [] => True
  | s, act :: acts => act.Keeps kind s ∧ ∀ s', s.act act = some s' → AllKeep kind s' acts

/-! ## 3. The texts of a variable -/

namespace ShellState

variable {s s' : ShellState} {name var : String}

theorem texts_setEntry (s : ShellState) (name : String) (v : ShellVar) (var : String) :
    (s.setEntry name v).texts var =
      if name = var then some v.value.asScalar :: (s.texts var).tail else s.texts var := by
  simp only [texts, setEntry, ShellEnv.set, List.map_cons, get_insert, List.tail_cons]
  split
  · rfl
  · rfl

theorem texts_modifyScopes (hne : name ≠ var) (f : ShellVar → ShellVar) (scs : List Scope) :
    (ShellEnv.modifyScopes name f scs).map (fun sc => (IndexMap.get sc var).map (·.value.asScalar))
      = scs.map fun sc => (IndexMap.get sc var).map (·.value.asScalar) := by
  induction scs with
  | nil => rfl
  | cons sc scs ih =>
    unfold ShellEnv.modifyScopes
    split
    · rw [List.map_cons, List.map_cons, get_modify, if_neg hne]
    · rw [List.map_cons, List.map_cons, ih]

theorem texts_updateEntry (hne : name ≠ var) (f : ShellVar → ShellVar) :
    (s.updateEntry name f).texts var = s.texts var := by
  unfold updateEntry ShellEnv.getMut texts
  split
  · simp only [List.map_cons, get_modify, if_neg hne]
  · simp only [List.map_cons, texts_modifyScopes hne]

theorem texts_remove (s : ShellState) (name var : String) :
    texts { s with env := s.env.remove name } var =
      if name = var then none :: (s.texts var).tail else s.texts var := by
  simp only [texts, ShellEnv.remove, List.map_cons, get_remove, List.tail_cons]
  split
  · rfl
  · rfl

theorem texts_unsetVar (hne : name ≠ var) : (s.unsetVar name).texts var = s.texts var := by
  unfold unsetVar
  split
  · rfl
  · rw [texts_remove, if_neg hne]

theorem texts_writeVar (hne : name ≠ var) (value : String) :
    (s.writeVar name value).texts var = s.texts var := by
  cases hro : s.isVarReadonly name with
  | true => rw [writeVar_of_readonly hro]
  | false => rw [writeVar_eq hro, texts_setEntry, if_neg hne]

theorem texts_initArray (hne : name ≠ var) (empty : VarValue) :
    (s.initArray name empty).texts var = s.texts var := by
  unfold initArray
  dsimp only
  split
  · rfl
  · rw [texts_setEntry, if_neg hne]

/-- A write leaves the texts of other variables alone, in every scope. -/
theorem texts_apply {op : StateOp} (hwritten : op.written s ≠ some var)
    (hop : s.apply op = some s') : s'.texts var = s.texts var := by
  have hne : ∀ {name}, op.written s = some name → name ≠ var := by
    rintro name hname rfl
    exact hwritten hname
  cases op with
  | setVar name value =>
    simp only [apply, setVar_eq, Option.map_eq_some_iff] at hop
    rcases hop with ⟨target, htarget, rfl⟩
    exact texts_writeVar (hne htarget) value
  | setReadonly name value =>
    cases hop
    exact (texts_setEntry _ _ _ _).trans (if_neg (hne rfl))
  | unsetVar name =>
    cases hop
    exact texts_unsetVar (hne rfl)
  | setArrayElement name index value =>
    cases hop
    unfold setArrayElement
    split
    · split
      · rfl
      · exact texts_updateEntry (hne rfl) _
    · rw [texts_setEntry, if_neg (hne rfl)]
  | appendArray name values =>
    cases hop
    unfold appendArray
    split
    · split
      · rfl
      · exact texts_updateEntry (hne rfl) _
    · rw [texts_setEntry, if_neg (hne rfl)]
  | unsetArrayElement name index =>
    cases hop
    unfold unsetArrayElement
    split
    · split
      · rfl
      · exact texts_updateEntry (hne rfl) _
    · rfl
  | initIndexedArray name | initAssocArray name =>
    cases hop
    exact texts_initArray (hne rfl) _
  | setEntry name v =>
    cases hop
    rw [texts_setEntry, if_neg (hne rfl)]
  | setAttributes name x r i f =>
    cases hop
    exact texts_updateEntry (hne rfl) _
  | _ =>
    cases hop
    rfl

/-- The first text is the one that is looked up. -/
theorem findSome?_texts (s : ShellState) (var : String) :
    (s.texts var).findSome? id = (s.env.get var).map (·.value.asScalar) := by
  unfold texts ShellEnv.get
  generalize s.env.inner :: s.env.outer = scopes
  induction scopes with
  | nil => rfl
  | cons sc scs ih =>
    rw [List.map_cons, List.findSome?_cons, List.findSome?_cons, ih]
    cases IndexMap.get sc var <;> rfl

theorem takePending_of_none (h : ∀ text, (s.texts var).findSome? id = some text → text = "") :
    s.takePending var = (none, s) := by
  rw [findSome?_texts] at h
  unfold takePending
  cases hget : s.env.get var with
  | none => rfl
  | some v =>
    rw [hget] at h
    exact if_pos (h _ rfl)

theorem takePending_of_some (h : (s.texts var).findSome? id = some text) (hne : text ≠ "") :
    s.takePending var = (some text, { s with env := s.env.remove var }) := by
  rw [findSome?_texts] at h
  unfold takePending
  cases hget : s.env.get var with
  | none =>
    rw [hget] at h
    cases h
  | some v =>
    rw [hget] at h
    cases h
    exact if_neg hne

end ShellState

/-! ## 4. Messages in the scopes -/

/-- The message is the first text, below scopes that do not have the variable; without a
    message no scope has one. -/
def Holds : Option String → List (Option String) → Prop
  | none, texts => NonePending texts
  | some text, texts => text ≠ "" ∧ ∃ before after, texts = before ++ some text :: after ∧
      ∀ t ∈ before, t = none

theorem NonePending.mono {texts texts' : List (Option String)} (h : NonePending texts)
    (hsub : ∀ text, some text ∈ texts' → some text ∈ texts) : NonePending texts' :=
  fun text ht => h text (hsub text ht)

theorem NonePending.findSome (h : NonePending texts)
    (htext : texts.findSome? id = some text) : text = "" := by
  rcases List.exists_of_findSome?_eq_some htext with ⟨t, ht, htt⟩
  exact h text (by rw [← show t = some text from htt]; exact ht)

theorem Holds.findSome (h : Holds (some text) texts) : texts.findSome? id = some text := by
  rcases h with ⟨-, before, after, rfl, hbefore⟩
  have hnone : before.findSome? id = none := List.findSome?_eq_none_iff.mpr hbefore
  rw [List.findSome?_append, hnone]
  rfl

theorem Holds.recorded (h : text ≠ "") (texts : List (Option String)) :
    Holds (some text) (some text :: texts) :=
  ⟨h, [], texts, rfl, fun _ ht => absurd ht List.not_mem_nil⟩

theorem Holds.push {last : Option String} (h : Holds last texts) :
    Holds last (none :: texts) := by
  cases last with
  | none =>
    refine NonePending.mono h fun text ht => ?_
    rcases List.mem_cons.mp ht with hnone | ht
    · cases hnone
    · exact ht
  | some text =>
    rcases h with ⟨hne, before, after, rfl, hbefore⟩
    refine ⟨hne, none :: before, after, rfl, fun t ht => ?_⟩
    rcases List.mem_cons.mp ht with rfl | ht
    · rfl
    · exact hbefore t ht

theorem Holds.pop {last : Option String} {t : Option String}
    (h : Holds last (t :: texts)) (ht : NonePending [t]) : Holds last texts := by
  cases last with
  | none => exact NonePending.mono h fun text htext => .tail _ htext
  | some text =>
    rcases h with ⟨hne, before, after, heq, hbefore⟩
    cases before with
    | nil =>
      cases heq
      exact absurd (ht text (.head _)) hne
    | cons b before =>
      cases heq
      exact ⟨hne, before, after, rfl, fun t ht => hbefore t (.tail _ ht)⟩

/-! ## 5. One step -/

/-- The message that a text stands for. -/
def ErrorKind.message : ErrorKind → String → ErrorMessage
  | .shell, text => shellMessage text
  | _, text => (false, text)

/-- The message recorded last is pending; without one no scope has a message. -/
def Pending (kind : ErrorKind) (s : ShellState) (last : Option ErrorMessage) : Prop :=
  ∃ text, Holds text (s.texts kind.var) ∧ last = text.map kind.message

variable {kind other : ErrorKind} {s s' : ShellState} {last : Option ErrorMessage}

theorem ErrorKind.var_injective (h : kind.var = other.var) : kind = other := by
  cases kind <;> cases other <;> first | rfl | exact absurd h (by decide)

theorem takeError_eq (kind : ErrorKind) (s : ShellState) : s.takeError kind =
    ((s.takePending kind.var).1.map kind.message, (s.takePending kind.var).2) := by
  cases kind with
  | nounset => rfl
  | arith => rfl
  | shell => rfl

/-- How a message is recorded, and what is read from it. -/
theorem act_records {act : Act} {message : ErrorMessage}
    (h : act.records = some (kind, message)) : ∃ text,
      s.act act = some (s.setPending kind.var text) ∧
        (Readable kind message → text ≠ "" ∧ kind.message text = message) := by
  cases act with
  | setNounsetError name =>
    cases h
    refine ⟨name, rfl, fun hread => ⟨(hread.resolve_left Bool.false_ne_true).1, rfl⟩⟩
  | setArithError text =>
    cases h
    refine ⟨text, rfl, fun hread => ⟨(hread.resolve_left Bool.false_ne_true).1, rfl⟩⟩
  | setShellError text =>
    cases h
    refine ⟨text, rfl, fun hread => ?_⟩
    rcases hread.resolve_left Bool.false_ne_true with ⟨hne, hmark⟩
    refine ⟨hne, ?_⟩
    show shellMessage text = (false, text)
    unfold shellMessage
    split
    · next rest heq => exact absurd (congrArg List.head? heq) (hmark rfl)
    · rfl
  | setFatalShellError text =>
    cases h
    refine ⟨String.ofList ('\x01' :: text.toList), rfl, fun _ => ⟨fun hempty => ?_, ?_⟩⟩
    · have hlist := congrArg String.toList hempty
      rw [String.toList_ofList] at hlist
      cases hlist
    · show shellMessage _ = (true, text)
      unfold shellMessage
      rw [String.toList_ofList]
      exact congrArg (true, ·) String.ofList_toList
  | _ => cases h

theorem Pending.take (h : Pending kind s last)
    (hquiet : NonePending (s.texts kind.var).tail) :
    (s.takeError kind).1 = last ∧ Pending kind (s.takeError kind).2 none := by
  rcases h with ⟨text, hholds, rfl⟩
  rw [takeError_eq]
  cases text with
  | none =>
    rw [ShellState.takePending_of_none fun text htext => NonePending.findSome hholds htext]
    exact ⟨rfl, none, hholds, rfl⟩
  | some text =>
    rw [ShellState.takePending_of_some hholds.findSome hholds.1]
    refine ⟨rfl, none, ?_, rfl⟩
    show NonePending (ShellState.texts _ kind.var)
    rw [ShellState.texts_remove, if_pos rfl]
    have hnone : Holds none (ShellState.texts s kind.var).tail := hquiet
    exact hnone.push

theorem Pending.take_other (h : Pending kind s last) (hne : other ≠ kind) :
    Pending kind (s.takeError other).2 last := by
  have hvar : other.var ≠ kind.var := fun heq => hne (ErrorKind.var_injective heq)
  have htexts : (s.takePending other.var).2.texts kind.var = s.texts kind.var := by
    unfold ShellState.takePending
    split
    · rfl
    · split
      · rfl
      · rw [ShellState.texts_remove, if_neg hvar]
  rcases h with ⟨text, hholds, rfl⟩
  rw [takeError_eq]
  exact ⟨text, by rw [htexts]; exact hholds, rfl⟩

/-- Where nothing is pending nothing is taken. -/
theorem Pending.take_none (h : Pending kind s none) : (s.takeError kind).1 = none := by
  rcases h with ⟨_ | text, hholds, hnone⟩
  · rw [takeError_eq,
      ShellState.takePending_of_none fun text htext => NonePending.findSome hholds htext]
    rfl
  · cases hnone

/-- A step that keeps to the condition. -/
theorem Pending.act {act : Act} (h : Pending kind s last) (hkeeps : act.Keeps kind s)
    (hact : s.act act = some s') : Pending kind s' (act.lastAfter kind last) := by
  rcases hkeeps with ⟨hread, hpop, htake, hwrite⟩
  cases hrecords : act.records with
  | some record =>
    rcases record with ⟨other, message⟩
    have hne : act ≠ .take kind := by
      rintro rfl
      cases hrecords
    rw [Act.lastAfter, if_neg hne, hrecords]
    dsimp only
    rcases act_records hrecords with ⟨text, hset, htext⟩
    rw [hset] at hact
    cases hact
    by_cases hkind : other = kind
    · subst hkind
      rw [if_pos rfl]
      rcases htext (hread message hrecords) with ⟨hempty, rfl⟩
      refine ⟨some text, ?_, rfl⟩
      rw [ShellState.setPending, ShellState.texts_setEntry, if_pos rfl]
      exact .recorded hempty _
    · rw [if_neg hkind]
      rcases h with ⟨text', hholds, rfl⟩
      refine ⟨text', ?_, rfl⟩
      rw [ShellState.setPending, ShellState.texts_setEntry,
        if_neg fun heq => hkind (ErrorKind.var_injective heq)]
      exact hholds
  | none =>
    have hlast : act ≠ .take kind → act.lastAfter kind last = last := fun hne => by
      rw [Act.lastAfter, if_neg hne, hrecords]
    cases act with
    | pushScope =>
      cases hact
      rw [hlast Act.noConfusion]
      rcases h with ⟨text, hholds, rfl⟩
      exact ⟨text, hholds.push, rfl⟩
    | popScope =>
      cases hact
      rw [hlast Act.noConfusion]
      rcases h with ⟨text, hholds, rfl⟩
      refine ⟨text, ?_, rfl⟩
      cases houter : s.env.outer with
      | nil =>
        have hsame : s.env.popScope = s.env := by
          unfold ShellEnv.popScope
          rw [houter]
        rw [hsame]
        exact hholds
      | cons sc scs =>
        have hinner : s.env.popScope = ⟨sc, scs⟩ := by
          unfold ShellEnv.popScope
          rw [houter]
        have hfirst := hpop rfl (by rw [houter]; exact List.cons_ne_nil _ _)
        rw [ShellState.texts, houter] at hholds
        rw [hinner]
        exact Holds.pop hholds hfirst
    | write op =>
      rw [hlast Act.noConfusion]
      rcases h with ⟨text, hholds, rfl⟩
      refine ⟨text, ?_, rfl⟩
      rw [ShellState.texts_apply (hwrite op rfl) hact]
      exact hholds
    | take other =>
      cases hact
      by_cases hkind : other = kind
      · subst hkind
        rw [Act.lastAfter, if_pos rfl]
        exact (h.take (htake rfl)).2
      · rw [hlast fun heq => hkind (Act.take.inj heq)]
        exact h.take_other hkind
    | _ => cases hrecords

/-! ## 6. Whole runs -/

/-- **Pending errors are delivered exactly once.**  In every run that keeps to the
    condition, from a state in which no scope has a message of the kind. -/
theorem pending_errors_delivered (kind : ErrorKind) (s : ShellState) (acts : List Act)
    (hquiet : NonePending (s.texts kind.var)) (hkeep : AllKeep kind s acts) :
    Delivers kind s none acts := by
  have hpending : Pending kind s none := ⟨none, hquiet, rfl⟩
  generalize (none : Option ErrorMessage) = last at hpending ⊢
  clear hquiet
  induction acts generalizing s last with
  | nil => trivial
  | cons act acts ih =>
    rcases hkeep with ⟨hkeeps, hrest⟩
    refine ⟨?_, fun s' hact => ih s' (hrest s' hact) _ (hpending.act hkeeps hact)⟩
    rintro rfl
    have htaken := hpending.take (hkeeps.2.2.1 rfl)
    exact ⟨htaken.1, htaken.2.take_none⟩

/-- A function reports a division by zero, which is taken before it returns. -/
def reportInFunction : List Act :=
  [.pushScope, .setArithError "division by 0", .take .arith, .popScope, .take .arith]

theorem reported_in_function : Delivers .arith .new none reportInFunction := by
  have hquiet : NonePending [(none : Option String)] := by
    intro text ht
    cases List.mem_singleton.mp ht
  refine pending_errors_delivered .arith .new reportInFunction hquiet ?_
  refine ⟨⟨fun _ h => (by cases h), fun h => (by cases h), fun h => (by cases h),
    fun _ h => (by cases h)⟩, ?_⟩
  rintro _ ⟨rfl⟩
  refine ⟨⟨fun _ h => ?_, fun h => (by cases h), fun h => (by cases h), fun _ h => (by cases h)⟩, ?_⟩
  · cases h
    exact .inr ⟨by decide, fun h => (by cases h)⟩
  rintro _ ⟨rfl⟩
  refine ⟨⟨fun _ h => (by cases h), fun h => (by cases h), fun _ => hquiet,
    fun _ h => (by cases h)⟩, ?_⟩
  rintro _ ⟨rfl⟩
  refine ⟨⟨fun _ h => (by cases h), fun _ _ => hquiet, fun h => (by cases h),
    fun _ h => (by cases h)⟩, ?_⟩
  rintro _ ⟨rfl⟩
  refine ⟨⟨fun _ h => (by cases h), fun h => (by cases h), fun _ text ht => ?_,
    fun _ h => (by cases h)⟩, fun _ _ => trivial⟩
  cases ht

/-- A message that is recorded in a function is lost when the function returns, and one
    that is pending when a function is called is taken there as often as it is asked for. -/
theorem message_lost_or_repeated :
    ¬ Delivers .arith .new none
        [.pushScope, .setArithError "division by 0", .popScope, .take .arith] ∧
      ¬ Delivers .arith .new none
        [.setArithError "division by 0", .pushScope, .take .arith] := by
  constructor
  · rintro ⟨-, h⟩
    rcases h _ rfl with ⟨-, h⟩
    rcases h _ rfl with ⟨-, h⟩
    rcases h _ rfl with ⟨h, -⟩
    exact absurd (h rfl).1 (by decide)
  · rintro ⟨-, h⟩
    rcases h _ rfl with ⟨-, h⟩
    rcases h _ rfl with ⟨h, -⟩
    exact absurd (h rfl).2 (by decide)

end Wasmsh

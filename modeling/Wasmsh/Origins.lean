import Wasmsh.BraceViews
import Wasmsh.ShellHost
import Wasmsh.Dispatch
import Wasmsh.Library.Bounded

/-!
# Where the characters of an argument come from

A word of a command is made of text that was written unquoted, text that was quoted, and
values: of parameters, of arithmetic, of command substitutions.  The runtime keeps a flag for
the quoted characters only.  Here every character keeps its origin, and the words that a
command should get are those for which braces are read in unquoted literal text alone and no
tilde is taken from a value.  The module says when the arguments of the runtime are these.
-/

namespace Wasmsh.Expand

open Braces Globs Bounded

/-! ## 1. Texts with their origins -/

/-- Where a character comes from. -/
inductive Origin where
  | literal
  | quoted
  | value
  deriving DecidableEq, Repr

/-- A text with the origin of each character. -/
abbrev Traced := List (Char × Origin)

namespace Traced

def ofText (o : Origin) (t : List Char) : Traced := t.map (·, o)

def text (t : Traced) : List Char := t.map (·.1)

/-- What the runtime keeps of the origins. -/
def mask (t : Traced) : Masked := t.map fun e => (e.1, decide (e.2 = .quoted))

def hasQuoted (t : Traced) : Bool := t.any fun e => decide (e.2 = .quoted)

end Traced

/-- Only unquoted literal text shows its characters. -/
def literalView (e : Char × Origin) : Char := if e.2 = .literal then e.1 else '\x00'

/-- A character of a range. -/
def ofLiteral (c : Char) : Char × Origin := (c, .literal)

/-- The number of pairs that `expand_braces` may open in the text. -/
def braceTurns (t : Traced) : Nat := t.text.count '{' + 1

/-- Brace expansion of the unquoted literal text, everything else carried along. -/
def expandLiteral (t : Traced) : List Traced :=
  expandOn literalView ofLiteral (braceTurns t) t

/-! ## 2. Parts -/

/-- The origin of what a part expands to; `substituted` says that the part was a command
    substitution. -/
def partOrigin (substituted : Bool) : WordPart → Origin
  | .literal _ => if substituted then .value else .literal
  | .singleQuoted _ => .quoted
  | .doubleQuoted _ => .quoted
  | _ => .value

/-- A word whose parts say whether they stand for a command substitution. -/
abbrev Sourced := List (WordPart × Bool)

section

variable (x : Expander)

/-- The text of a word with its origins. -/
def traceParts : Sourced → ShellState → List StateOp × Traced
  | [], _ => ([], [])
  | (p, substituted) :: ps, s =>
    let first := expandPartMasked x false 0 p s
    let rest := traceParts ps (s.after first.1)
    (first.1 ++ rest.1, Traced.ofText (partOrigin substituted p) first.2.text ++ rest.2)

/-- The atoms of a word with a parameter of several fields, with their origins. -/
def traceAtoms : Sourced → ShellState → List StateOp × List (MultiAtom × Origin)
  | [], _ => ([], [])
  | (p, substituted) :: ps, s =>
    let first := collectMultiAtom x false 0 p s
    let rest := traceAtoms ps (s.after first.1)
    (first.1 ++ rest.1, first.2.map (·, partOrigin substituted p) ++ rest.2)

/-- `MultiFields` with origins. -/
structure TracedFields where
  last : Traced
  before : List Traced
  hadText : Bool

def TracedFields.push (f : TracedFields) : MultiAtom × Origin → TracedFields
  | (.text t _, o) =>
    if t.isEmpty then f else { f with last := f.last ++ .ofText o t, hadText := true }
  | (.fields [] _, _) => f
  | (.fields (e :: es) _, o) =>
    let fields := (f.last ++ .ofText o e) :: es.map (Traced.ofText o)
    ⟨fields.getLastD [], f.before ++ fields.dropLast, true⟩

def tracedFields (atoms : List (MultiAtom × Origin)) : List Traced :=
  let f := atoms.foldl TracedFields.push ⟨[], [], false⟩
  if !f.hadText && f.before.isEmpty && f.last.isEmpty then [] else f.before ++ [f.last]

/-- A field before its braces are read; whether its tilde was expanded, and whether it has a
    tilde of a value that gives way to something else. -/
structure Field where
  traced : Traced
  home : Bool
  valueTilde : Bool

/-- A tilde that does not come from a value gives way to the home directory. -/
def traceTilde (t : Traced) (s : ShellState) : Field :=
  if isTildeText t.text then
    match s.getVar "HOME" with
    | some home =>
      if t.head?.any (·.2 ≠ .value) then ⟨.ofText .value home.toList ++ t.drop 1, true, false⟩
      else ⟨t, true, decide (home ≠ "~")⟩
    | none => ⟨t, false, false⟩
  else ⟨t, false, false⟩

/-- A word of one field. -/
def traceWord (w : Sourced) (s : ShellState) : List StateOp × Field :=
  let parts := traceParts x w s
  (parts.1, traceTilde parts.2 (s.after parts.1))

/-- The fields of a word. -/
def traceFields (w : Sourced) (s : ShellState) : List StateOp × List Field :=
  if partsHaveMultiField (w.map Prod.fst) then
    let atoms := traceAtoms x w s
    if atoms.2.any (·.1.isFields) then
      (atoms.1, (tracedFields atoms.2).map (⟨·, false, false⟩))
    else
      let single := traceWord x w (s.after atoms.1)
      (atoms.1 ++ single.1, [single.2])
  else
    let single := traceWord x w s
    (single.1, [single.2])

/-- The arguments that each field of a word should stand for, before pathname expansion. -/
def dataArguments (w : Sourced) (s : ShellState) : List (List (List Char)) :=
  (traceFields x w s).2.map fun f => (expandLiteral f.traced).map Traced.text

/-- The arguments that the runtime makes of each field of a word, before pathname
    expansion. -/
def wordArguments (w : Word) (s : ShellState) : List (List (List Char)) :=
  (expandWordArgv x w s).2.map fun m => (braceWords m).map (·.text)

end

/-! ## 3. What the runtime keeps -/

section

variable {x : Expander}

mutual

/-- Inside double quotes everything is quoted. -/
theorem quoted_expandPartMasked (depth : Nat) :
    (p : WordPart) → (s : ShellState) → ∀ e ∈ (expandPartMasked x true depth p s).2, e.2 = true
  | .literal _, s | .singleQuoted _, s | .parameter _, s | .arithmetic _, s => by
    intro e he
    simp only [expandPartMasked] at he
    split at he
    · cases he
    · rcases List.mem_map.mp he with ⟨c, -, rfl⟩
      rfl
  | .doubleQuoted ps, s => by
    intro e he
    simp only [expandPartMasked] at he
    split at he
    · cases he
    · exact quoted_expandPartsMasked (depth + 1) ps s e he
  | .commandSubstitution _, s | .processSubstIn _, s | .processSubstOut _, s => by
    intro e he
    cases he

theorem quoted_expandPartsMasked (depth : Nat) :
    (ps : List WordPart) → (s : ShellState) →
      ∀ e ∈ (expandPartsMasked x true depth ps s).2, e.2 = true
  | [], s => by
    intro e he
    cases he
  | p :: ps, s => by
    intro e he
    simp only [expandPartsMasked, List.mem_append] at he
    rcases he with he | he
    · exact quoted_expandPartMasked depth p s e he
    · exact quoted_expandPartsMasked depth ps _ e he

end

theorem Masked.eq_ofText {m : Masked} {b : Bool} (h : ∀ e ∈ m, e.2 = b) :
    m = .ofText b m.text := by
  induction m with
  | nil => rfl
  | cons e m ih =>
    have he := h e (.head _)
    have hm := ih fun e' he' => h e' (.tail _ he')
    rcases e with ⟨c, q⟩
    simp only [Masked.ofText, Masked.text, List.map_cons] at hm ⊢
    rw [← hm, ← he]

theorem Traced.mask_ofText (o : Origin) (t : List Char) :
    (Traced.ofText o t).mask = .ofText (decide (o = .quoted)) t := by
  simp [Traced.mask, Traced.ofText, Masked.ofText]

theorem Traced.mask_append (t u : Traced) : (t ++ u : Traced).mask = t.mask ++ u.mask :=
  List.map_append

theorem Traced.text_append (t u : Traced) : (t ++ u : Traced).text = t.text ++ u.text :=
  List.map_append

theorem Traced.text_ofText (o : Origin) (t : List Char) : (Traced.ofText o t).text = t := by
  simp [Traced.ofText, Traced.text, Function.comp_def]

theorem Traced.text_mask (t : Traced) : t.mask.text = t.text := by
  simp [Traced.mask, Traced.text, Masked.text, Function.comp_def]

theorem Traced.wasQuoted_mask (t : Traced) : t.mask.wasQuoted = t.hasQuoted := by
  simp [Traced.mask, Traced.hasQuoted, Masked.wasQuoted, Function.comp_def]

/-- The origin of a part says whether the runtime takes it for quoted. -/
theorem expandPartMasked_uniform (substituted : Bool) (p : WordPart) (s : ShellState) :
    ∀ e ∈ (expandPartMasked x false 0 p s).2, e.2 = decide (partOrigin substituted p = .quoted) := by
  intro e he
  cases p with
  | literal t =>
    simp only [expandPartMasked, maxExpandDepth] at he
    rcases List.mem_map.mp he with ⟨c, -, rfl⟩
    cases substituted <;> rfl
  | doubleQuoted ps =>
    simp only [expandPartMasked, maxExpandDepth] at he
    exact quoted_expandPartsMasked 1 ps s e he
  | singleQuoted _ | parameter _ | arithmetic _ =>
    simp only [expandPartMasked, maxExpandDepth] at he
    rcases List.mem_map.mp he with ⟨c, -, rfl⟩
    rfl
  | commandSubstitution _ => cases he
  | processSubstIn _ => cases he
  | processSubstOut _ => cases he

/-- The text of the runtime is the traced text without its origins. -/
theorem traceParts_mask (w : Sourced) (s : ShellState) :
    expandPartsMasked x false 0 (w.map Prod.fst) s =
      ((traceParts x w s).1, (traceParts x w s).2.mask) := by
  induction w generalizing s with
  | nil => rfl
  | cons e w ih =>
    rcases e with ⟨p, substituted⟩
    have hpart := Masked.eq_ofText (expandPartMasked_uniform (x := x) substituted p s)
    simp only [List.map_cons, expandPartsMasked, traceParts, ih, Traced.mask_append,
      Traced.mask_ofText]
    rw [← hpart]

/-- The flag of an atom. -/
def MultiAtom.literal : MultiAtom → Bool
  | .text _ q => q
  | .fields _ q => q

mutual

theorem quoted_collectMultiAtom (depth : Nat) :
    (p : WordPart) → (s : ShellState) → ∀ a ∈ (collectMultiAtom x true depth p s).2,
      a.literal = true
  | .literal _, s | .singleQuoted _, s | .arithmetic _, s => by
    intro a ha
    rcases List.mem_singleton.mp ha with rfl
    rfl
  | .doubleQuoted ps, s => by
    intro a ha
    simp only [collectMultiAtom] at ha
    split at ha
    · cases ha
    · exact quoted_collectMultiAtoms (depth + 1) ps s a ha
  | .parameter name, s => by
    intro a ha
    simp only [collectMultiAtom] at ha
    split at ha
    · rcases List.mem_singleton.mp ha with rfl
      rfl
    · rcases List.mem_singleton.mp ha with rfl
      rfl
  | .commandSubstitution _, s | .processSubstIn _, s | .processSubstOut _, s => by
    intro a ha
    cases ha

theorem quoted_collectMultiAtoms (depth : Nat) :
    (ps : List WordPart) → (s : ShellState) →
      ∀ a ∈ (collectMultiAtoms x true depth ps s).2, a.literal = true
  | [], s => by
    intro a ha
    cases ha
  | p :: ps, s => by
    intro a ha
    simp only [collectMultiAtoms, List.mem_append] at ha
    rcases ha with ha | ha
    · exact quoted_collectMultiAtom depth p s a ha
    · exact quoted_collectMultiAtoms depth ps _ a ha

end

theorem collectMultiAtom_uniform (substituted : Bool) (p : WordPart) (s : ShellState) :
    ∀ a ∈ (collectMultiAtom x false 0 p s).2,
      a.literal = decide (partOrigin substituted p = .quoted) := by
  intro a ha
  cases p with
  | literal t =>
    rcases List.mem_singleton.mp ha with rfl
    cases substituted <;> rfl
  | singleQuoted t | arithmetic e =>
    rcases List.mem_singleton.mp ha with rfl
    rfl
  | doubleQuoted ps => exact quoted_collectMultiAtoms 1 ps s a ha
  | parameter name =>
    simp only [collectMultiAtom] at ha
    split at ha
    · rcases List.mem_singleton.mp ha with rfl
      rfl
    · rcases List.mem_singleton.mp ha with rfl
      rfl
  | commandSubstitution _ => cases ha
  | processSubstIn _ => cases ha
  | processSubstOut _ => cases ha

theorem traceAtoms_atoms (w : Sourced) (s : ShellState) :
    collectMultiAtoms x false 0 (w.map Prod.fst) s =
        ((traceAtoms x w s).1, (traceAtoms x w s).2.map Prod.fst) ∧
      ∀ e ∈ (traceAtoms x w s).2, e.1.literal = decide (e.2 = .quoted) := by
  induction w generalizing s with
  | nil => exact ⟨rfl, by simp [traceAtoms]⟩
  | cons e w ih =>
    rcases e with ⟨p, substituted⟩
    have hrest := ih (s.after (collectMultiAtom x false 0 p s).1)
    constructor
    · simp only [List.map_cons, collectMultiAtoms, traceAtoms, hrest.1, List.map_append,
        List.map_map, Function.comp_def, List.map_id']
    · intro a ha
      simp only [traceAtoms, List.mem_append, List.mem_map] at ha
      rcases ha with ⟨a, ha, rfl⟩ | ha
      · exact collectMultiAtom_uniform substituted p s a ha
      · exact hrest.2 a ha

/-- The fields without their origins. -/
def TracedFields.mask (f : TracedFields) : MultiFields :=
  ⟨f.last.mask, f.before.map Traced.mask, f.hadText⟩

theorem TracedFields.mask_push (f : TracedFields) {a : MultiAtom} {o : Origin}
    (ha : a.literal = decide (o = .quoted)) : (f.push (a, o)).mask = f.mask.push a := by
  cases a with
  | text t q =>
    simp only [MultiAtom.literal] at ha
    simp only [TracedFields.push, MultiFields.push]
    by_cases ht : t.isEmpty = true
    · rw [if_pos ht, if_pos ht]
    · rw [if_neg ht, if_neg ht]
      simp [TracedFields.mask, Traced.mask_append, Traced.mask_ofText, ha]
  | fields es q =>
    simp only [MultiAtom.literal] at ha
    cases es with
    | nil => rfl
    | cons e es =>
      have hfields : (((f.last ++ Traced.ofText o e : Traced) ::
          es.map (Traced.ofText o)).map Traced.mask) =
          (f.mask.last ++ .ofText q e) :: es.map (Masked.ofText q) := by
        simp [TracedFields.mask, Traced.mask_append, Traced.mask_ofText, ha, Function.comp_def]
      have hlast : ∀ l : List Traced, (l.getLastD []).mask = (l.map Traced.mask).getLastD [] := by
        intro l
        rw [List.getLastD_eq_getLast?, List.getLastD_eq_getLast?, List.getLast?_map]
        cases l.getLast? <;> rfl
      simp only [TracedFields.push, MultiFields.push]
      rw [← hfields, ← hlast, ← List.map_dropLast]
      simp only [TracedFields.mask, List.map_append]

theorem multiFields_eq (atoms : List (MultiAtom × Origin))
    (h : ∀ e ∈ atoms, e.1.literal = decide (e.2 = .quoted)) :
    multiFields (atoms.map Prod.fst) = (tracedFields atoms).map Traced.mask := by
  have hfold : ∀ (atoms : List (MultiAtom × Origin)) (f : TracedFields),
      (∀ e ∈ atoms, e.1.literal = decide (e.2 = .quoted)) →
      (atoms.map Prod.fst).foldl MultiFields.push f.mask =
        (atoms.foldl TracedFields.push f).mask := by
    intro atoms
    induction atoms with
    | nil => intro f _; rfl
    | cons e atoms ih =>
      intro f hatoms
      rcases e with ⟨a, o⟩
      rw [List.map_cons, List.foldl_cons, List.foldl_cons,
        ← TracedFields.mask_push f (hatoms (a, o) (.head _)),
        ih _ fun e' he' => hatoms e' (.tail _ he')]
  have hstart : (⟨[], [], false⟩ : MultiFields) = (⟨[], [], false⟩ : TracedFields).mask := rfl
  unfold multiFields tracedFields
  rw [hstart, hfold atoms _ h]
  generalize atoms.foldl TracedFields.push ⟨[], [], false⟩ = f
  have hempty : f.mask.last.isEmpty = f.last.isEmpty ∧
      f.mask.before.isEmpty = f.before.isEmpty := by
    constructor
    · simp [TracedFields.mask, Traced.mask]
    · simp [TracedFields.mask]
  have hhad : f.mask.hadText = f.hadText := rfl
  dsimp only
  rw [hhad, hempty.1, hempty.2]
  split
  · rfl
  · simp [TracedFields.mask]

/-! ## 4. Fields -/

/-- The runtime takes the field for quoted; it forgets the quotes when it expands a tilde. -/
def Field.isQuoted (f : Field) : Bool := !f.home && f.traced.hasQuoted

/-- The runtime reads the field as this masked text. -/
def Field.ReadsAs (f : Field) (m : Masked) : Prop :=
  m.text = f.traced.text ∧ m.wasQuoted = f.isQuoted

theorem isTildeText_cons {t : List Char} (h : isTildeText t = true) : '~' :: t.drop 1 = t := by
  cases t with
  | nil => cases h
  | cons c t =>
    simp only [isTildeText, Bool.or_eq_true, beq_iff_eq, List.take_succ_cons, List.cons.injEq] at h
    rcases h with h | h
    · rw [h.1, List.drop_one, List.tail_cons]
    · rw [h.1, List.drop_one, List.tail_cons]

theorem readsAs_traceTilde {t : Traced} {s : ShellState} (h : (traceTilde t s).valueTilde = false) :
    (traceTilde t s).ReadsAs (expandTilde t.mask s) := by
  unfold traceTilde at h ⊢
  unfold expandTilde
  rw [Traced.text_mask]
  by_cases htilde : isTildeText t.text = true
  · rw [if_pos htilde] at h
    rw [if_pos htilde, if_pos htilde]
    cases hhome : s.getVar "HOME" with
    | none => exact ⟨t.text_mask, t.wasQuoted_mask⟩
    | some home =>
      rw [hhome] at h
      dsimp only at h ⊢
      by_cases hvalue : t.head?.any (·.2 ≠ .value) = true
      · rw [if_pos hvalue]
        refine ⟨?_, ?_⟩
        · rw [Masked.text_ofText, Traced.text_append, Traced.text_ofText]
          simp [Traced.text]
        · rw [Masked.wasQuoted_ofText_false]
          rfl
      · rw [if_neg hvalue] at h
        have hsame : home = "~" := by simpa using h
        rw [if_neg hvalue, hsame]
        refine ⟨?_, ?_⟩
        · rw [Masked.text_ofText]
          exact isTildeText_cons htilde
        · rw [Masked.wasQuoted_ofText_false]
          rfl
  · rw [if_neg htilde, if_neg htilde]
    exact ⟨t.text_mask, t.wasQuoted_mask⟩

/-- The fields of the runtime are the traced ones, unless a tilde comes from a value. -/
theorem traceFields_readsAs (w : Sourced) (s : ShellState) :
    (expandWordArgv x ⟨w.map Prod.fst⟩ s).1 = (traceFields x w s).1 ∧
      List.Forall₂ (fun f m => f.valueTilde = false → f.ReadsAs m) (traceFields x w s).2
        (expandWordArgv x ⟨w.map Prod.fst⟩ s).2 := by
  have hsingle : ∀ s, (expandWordMasked x ⟨w.map Prod.fst⟩ s).1 = (traceWord x w s).1 ∧
      ((traceWord x w s).2.valueTilde = false →
        (traceWord x w s).2.ReadsAs (expandWordMasked x ⟨w.map Prod.fst⟩ s).2) := by
    intro s
    simp only [expandWordMasked, traceWord, traceParts_mask, true_and]
    exact readsAs_traceTilde
  have hatoms := traceAtoms_atoms (x := x) w s
  have hfields : (collectMultiAtoms x false 0 (w.map Prod.fst) s).2.any MultiAtom.isFields =
      (traceAtoms x w s).2.any (·.1.isFields) := by
    rw [hatoms.1, List.any_map]
    rfl
  unfold expandWordArgv traceFields
  dsimp only
  by_cases hmulti : partsHaveMultiField (w.map Prod.fst) = true
  · rw [if_pos hmulti, if_pos hmulti]
    simp only [expandWordMulti, hfields]
    rw [hatoms.1]
    by_cases hany : (traceAtoms x w s).2.any (·.1.isFields) = true
    · rw [if_pos hany, if_pos hany]
      dsimp only
      rw [multiFields_eq _ hatoms.2]
      refine ⟨rfl, ?_⟩
      rw [List.forall₂_map_left_iff, List.forall₂_map_right_iff, List.forall₂_same]
      intro t _ _
      exact ⟨t.text_mask, t.wasQuoted_mask⟩
    · rw [if_neg hany, if_neg hany]
      dsimp only
      rw [(hsingle _).1]
      exact ⟨rfl, .cons (hsingle _).2 .nil⟩
  · rw [if_neg hmulti, if_neg hmulti]
    exact ⟨(hsingle s).1, .cons (hsingle s).2 .nil⟩

/-- No tilde of the field comes from a value, and its braces are read as they should be:
    where it has quoted text its literal text opens no pair, and where it has none, the
    pairs of the whole text are those of the literal text. -/
def Field.keeps (f : Field) : Bool :=
  !f.valueTilde &&
    if f.isQuoted then (openPair literalView ofLiteral f.traced).isNone
    else sameBraces Prod.fst literalView ofLiteral (braceTurns f.traced) f.traced

/-- Without a tilde of a value, and with quoted text or without a literal brace. -/
def Field.decided (f : Field) : Bool :=
  !f.valueTilde && (f.isQuoted || !f.traced.contains ('{', .literal))

theorem literalView_open (e : Char × Origin) (h : literalView e = '{') : e.1 = '{' := by
  unfold literalView at h
  split at h
  · exact h
  · cases h

theorem expandBraces_text (t : Traced) :
    expandBraces t.text = (expandOn Prod.fst ofLiteral (braceTurns t) t).map Traced.text :=
  (map_expandOn (fun _ => rfl) (braceTurns t) t).symm

/-- A field that keeps its values is expanded as it should be. -/
theorem field_of_keeps {f : Field} {m : Masked} (hreads : f.ReadsAs m) (hkeeps : f.keeps = true) :
    (braceWords m).map (·.text) = (expandLiteral f.traced).map Traced.text := by
  simp only [Field.keeps, Bool.and_eq_true] at hkeeps
  unfold braceWords
  rw [hreads.2, hreads.1]
  by_cases hquoted : f.isQuoted = true
  · rw [if_pos hquoted, Option.isNone_iff_eq_none] at hkeeps
    rw [if_pos hquoted]
    exact ((expandOn_eq_self_iff literalView_open (fun _ => rfl) _ f.traced).mpr hkeeps.2).symm
  · rw [if_neg hquoted] at hkeeps
    rw [if_neg hquoted, expandBraces_text, expandOn_eq_of_sameBraces hkeeps.2]
    simp [expandLiteral]

theorem openPair_of_not_mem {t : Traced} (ht : ('{', .literal) ∉ t) :
    openPair literalView ofLiteral t = none := by
  have hmem : '{' ∉ t.map literalView := by
    intro hmem
    rcases List.mem_map.mp hmem with ⟨e, he, hview⟩
    unfold literalView at hview
    split at hview
    · next ho =>
      rcases e with ⟨c, o⟩
      cases hview
      cases ho
      exact ht he
    · cases hview
  have hpair : findBracePair (t.map literalView) = none :=
    findBracePairFrom_eq_none hmem none 0 0
  unfold openPair
  rw [hpair]

/-- And only such a field, where it is decided. -/
theorem keeps_of_field {f : Field} {m : Masked} (hreads : f.ReadsAs m)
    (hdecided : f.decided = true)
    (heq : (braceWords m).map (·.text) = (expandLiteral f.traced).map Traced.text) :
    f.keeps = true := by
  simp only [Field.decided, Bool.and_eq_true, Bool.or_eq_true] at hdecided
  simp only [Field.keeps, Bool.and_eq_true]
  refine ⟨hdecided.1, ?_⟩
  have hliteral : (expandLiteral f.traced).map Traced.text = [f.traced.text] ↔
      openPair literalView ofLiteral f.traced = none :=
    expandOn_eq_self_iff literalView_open (fun _ => rfl) _ f.traced
  unfold braceWords at heq
  rw [hreads.2, hreads.1] at heq
  by_cases hquoted : f.isQuoted = true
  · rw [if_pos hquoted] at heq
    rw [if_pos hquoted, Option.isNone_iff_eq_none]
    exact hliteral.mp heq.symm
  · rw [if_neg hquoted] at heq
    rw [if_neg hquoted]
    have hno : ('{', .literal) ∉ f.traced := by
      rcases hdecided.2 with h | h
      · exact absurd h hquoted
      · simpa using h
    have hnone := openPair_of_not_mem hno
    have hwhole : (expandOn Prod.fst ofLiteral (braceTurns f.traced) f.traced).map Traced.text =
        [f.traced.text] ↔ openPair Prod.fst ofLiteral f.traced = none :=
      expandOn_eq_self_iff (fun _ h => h) (fun _ => rfl) _ f.traced
    have hself : expandBraces f.traced.text = [f.traced.text] := by
      rw [hliteral.mpr hnone, List.map_map] at heq
      simpa [Function.comp_def] using heq
    rw [expandBraces_text] at hself
    simp only [braceTurns, sameBraces, hwhole.mp hself, hnone]
    rfl

end

/-! ## 5. Commands -/

section

variable (x : Expander)

/-- The arguments that the runtime makes of each word of a command. -/
def commandArguments : List Word → ShellState → List (List (List (List Char)))
  | [], _ => []
  | w :: ws, s =>
    wordArguments x w s :: commandArguments ws (s.after (expandWordArgv x w s).1)

/-- They are what pathname expansion gets. -/
theorem flatten_commandArguments (ws : List Word) (s : ShellState) :
    (commandArguments x ws s).flatten.flatten =
      ((expandWordsArgv x ws s).2.flatMap braceWords).map (·.text) := by
  induction ws generalizing s with
  | nil => rfl
  | cons w ws ih =>
    simp only [commandArguments, expandWordsArgv, List.flatten_cons, List.flatten_append, ih,
      List.map_append, wordArguments, List.flatMap_def, List.map_flatten, List.map_map,
      Function.comp_def]

/-- The fields of each word. -/
def commandFields : List Sourced → ShellState → List (List Field)
  | [], _ => []
  | w :: ws, s => (traceFields x w s).2 :: commandFields ws (s.after (traceFields x w s).1)

/-- The arguments that each word should stand for. -/
def commandData (ws : List Sourced) (s : ShellState) : List (List (List (List Char))) :=
  (commandFields x ws s).map (·.map fun f => (expandLiteral f.traced).map Traced.text)

variable {x}

/-- A word is expanded as it should be when all its fields keep their values, and only then
    when they are decided. -/
theorem wordArguments_eq (w : Sourced) (s : ShellState) :
    ((∀ f ∈ (traceFields x w s).2, f.keeps = true) →
      wordArguments x ⟨w.map Prod.fst⟩ s = dataArguments x w s) ∧
    ((∀ f ∈ (traceFields x w s).2, f.decided = true) →
      wordArguments x ⟨w.map Prod.fst⟩ s = dataArguments x w s →
        ∀ f ∈ (traceFields x w s).2, f.keeps = true) := by
  have hreads := (traceFields_readsAs (x := x) w s).2
  unfold wordArguments dataArguments
  generalize (traceFields x w s).2 = fs at hreads
  generalize (expandWordArgv x ⟨w.map Prod.fst⟩ s).2 = ms at hreads
  induction hreads with
  | nil => simp
  | @cons f m fs ms hf _ ih =>
    have hvalue : ∀ {f : Field}, f.keeps = true → f.valueTilde = false := by
      intro f h
      simp only [Field.keeps, Bool.and_eq_true, Bool.not_eq_true'] at h
      exact h.1
    have hdecided : ∀ {f : Field}, f.decided = true → f.valueTilde = false := by
      intro f h
      simp only [Field.decided, Bool.and_eq_true, Bool.not_eq_true'] at h
      exact h.1
    simp only [List.map_cons, List.mem_cons, forall_eq_or_imp, List.cons.injEq]
    constructor
    · rintro ⟨hkeeps, hrest⟩
      exact ⟨field_of_keeps (hf (hvalue hkeeps)) hkeeps, ih.1 hrest⟩
    · rintro ⟨hd, hrest⟩ ⟨heq, heqs⟩
      exact ⟨keeps_of_field (hf (hdecided hd)) hd heq, ih.2 hrest heqs⟩

theorem commandArguments_eq (ws : List Sourced) (s : ShellState) :
    ((∀ fs ∈ commandFields x ws s, ∀ f ∈ fs, f.keeps = true) →
      commandArguments x (ws.map fun w => ⟨w.map Prod.fst⟩) s = commandData x ws s) ∧
    ((∀ fs ∈ commandFields x ws s, ∀ f ∈ fs, f.decided = true) →
      commandArguments x (ws.map fun w => ⟨w.map Prod.fst⟩) s = commandData x ws s →
        ∀ fs ∈ commandFields x ws s, ∀ f ∈ fs, f.keeps = true) := by
  induction ws generalizing s with
  | nil => simp [commandFields, commandArguments, commandData]
  | cons w ws ih =>
    have hword := wordArguments_eq (x := x) w s
    have hops := (traceFields_readsAs (x := x) w s).1
    have hrest := ih (s.after (traceFields x w s).1)
    simp only [commandData, dataArguments] at hword hrest
    simp only [List.map_cons, commandFields, commandArguments, commandData, hops, List.mem_cons,
      forall_eq_or_imp, List.cons.injEq]
    constructor
    · rintro ⟨hkeeps, hkeepss⟩
      exact ⟨hword.1 hkeeps, hrest.1 hkeepss⟩
    · rintro ⟨hd, hds⟩ ⟨heq, heqs⟩
      exact ⟨hword.2 hd heq, hrest.2 hds heqs⟩

/-! ## 6. Builtins of the VM -/

variable (x)

/-- The text of a word for `expand_word`, with its origins. -/
def tracePlain : List WordPart → ShellState → List StateOp × Traced
  | [], _ => ([], [])
  | p :: ps, s =>
    let first := expandPart x p s
    let rest := tracePlain ps (s.after first.1)
    (first.1 ++ rest.1, Traced.ofText (partOrigin false p) first.2 ++ rest.2)

/-- The words of a builtin of the VM, each of one field. -/
def vmFields : List Word → ShellState → List Field
  | [], _ => []
  | w :: ws, s =>
    let parts := tracePlain x w.parts s
    let after := s.after parts.1
    traceTilde parts.2 after :: vmFields ws after

/-- The arguments that the words of a builtin of the VM should stand for. -/
def vmData (ws : List Word) (s : ShellState) : List (List Char) :=
  (vmFields x ws s).flatMap fun f => (expandLiteral f.traced).map Traced.text

variable {x}

theorem tracePlain_text (ps : List WordPart) (s : ShellState) :
    expandParts x ps s = ((tracePlain x ps s).1, (tracePlain x ps s).2.text) := by
  induction ps generalizing s with
  | nil => rfl
  | cons p ps ih => simp only [expandParts, tracePlain, ih, Traced.text_append, Traced.text_ofText]

/-- The VM takes no word with a literal brace. -/
theorem tracePlain_no_brace {ps : List WordPart}
    (hps : ∀ p ∈ ps, Interp.vmWordPartRequiresFull p = false) (s : ShellState) :
    ('{', .literal) ∉ (tracePlain x ps s).2 := by
  induction ps generalizing s with
  | nil => exact List.not_mem_nil
  | cons p ps ih =>
    intro hmem
    rcases List.mem_append.mp hmem with hmem | hmem
    · rcases List.mem_map.mp hmem with ⟨c, hc, heq⟩
      cases p with
      | literal t =>
        cases heq
        have hnone := List.any_eq_false.mp (hps _ (.head _)) '{' hc
        exact hnone rfl
      | _ => cases heq
    · exact ih (fun q hq => hps q (.tail _ hq)) _ hmem

/-- Where a tilde comes from a value, and there only, the text is another one. -/
theorem expandTildeText_eq_iff (t : Traced) (s : ShellState) :
    expandTildeText t.text s = (traceTilde t s).traced.text ↔
      (traceTilde t s).valueTilde = false := by
  unfold expandTildeText traceTilde
  by_cases htilde : isTildeText t.text = true
  · rw [if_pos htilde, if_pos htilde]
    cases s.getVar "HOME" with
    | none => simp
    | some home =>
      dsimp only
      split
      · simp [Traced.text, Traced.ofText, Function.comp_def]
      · have hcons := isTildeText_cons htilde
        have hself : home.toList ++ t.text.drop 1 = t.text ↔ home = "~" := by
          rw [← String.toList_inj]
          conv_lhs => rhs; rw [← hcons]
          exact (List.append_left_inj _ : home.toList ++ t.text.drop 1 = ['~'] ++ _ ↔ _)
        simpa using hself
  · rw [if_neg htilde, if_neg htilde]
    simp

theorem traceTilde_no_brace {t : Traced} (ht : ('{', .literal) ∉ t) (s : ShellState) :
    ('{', .literal) ∉ (traceTilde t s).traced := by
  unfold traceTilde
  split
  · split
    · split
      · simp only [Traced.ofText, List.mem_append, List.mem_map, not_or]
        exact ⟨by simp, fun hmem => ht (List.mem_of_mem_drop hmem)⟩
      · exact ht
    · exact ht
  · exact ht

/-- The words of a builtin of the VM are what they should be exactly when no tilde comes from
    a value. -/
theorem vmExpandWords_eq_iff {W P : Type} {h : Host W P} {files : W → Files} {depth : Nat}
    (ws : List Word) (hws : ∀ w ∈ ws, ∀ p ∈ w.parts, Interp.vmWordPartRequiresFull p = false)
    {s t : Runtime W} {argv : List String}
    (hok : Interp.vmExpandWords (h.shell x files depth) ws s = .ok (argv, t)) :
    argv = (vmData x ws s.state).map String.ofList ↔
      ∀ f ∈ vmFields x ws s.state, f.valueTilde = false := by
  induction ws generalizing s argv with
  | nil =>
    cases hok
    simp [vmData, vmFields]
  | cons w ws ih =>
    rcases bind_eq_ok.mp hok with ⟨⟨arg, u⟩, harg, hrest⟩
    rcases bind_eq_ok.mp hrest with ⟨⟨args, v⟩, hargs, hret⟩
    cases hret
    rcases bind_eq_ok.mp harg with ⟨u, hops, hret⟩
    cases hret
    have htext := tracePlain_text (x := x) w.parts s.state
    have hstate : s.state.after (tracePlain x w.parts s.state).1 = u.state := by
      have hafter := ShellState.after_of_some (Runtime.applyOps_ok hops).1
      rwa [show ((h.shell x files depth).expandWord w s.state).1 =
        (tracePlain x w.parts s.state).1 from congrArg Prod.fst htext] at hafter
    have hlift : ∀ c, (ofLiteral c).1 = c := fun _ => rfl
    have hsingle := expandOn_eq_self_iff literalView_open hlift
    have hbraces := openPair_of_not_mem (traceTilde_no_brace (tracePlain_no_brace (x := x)
      (hws w (.head _)) s.state) u.state)
    have hdata : vmData x (w :: ws) s.state =
        (traceTilde (tracePlain x w.parts s.state).2 u.state).traced.text ::
          vmData x ws u.state := by
      simp only [vmData, vmFields, List.flatMap_cons, hstate]
      rw [show (expandLiteral _).map Traced.text = [_] from (hsingle _ _).mpr hbraces]
      rfl
    have hvalue : (expandWord x w s.state).2 =
        expandTildeText (tracePlain x w.parts s.state).2.text u.state := by
      rw [expandWord, htext]
      exact congrArg (expandTildeText _) hstate
    rw [hdata, List.map_cons, List.cons.injEq, ih (fun w hw => hws w (.tail _ hw)) hargs]
    simp only [vmFields, hstate, List.mem_cons, forall_eq_or_imp]
    refine and_congr_left fun _ => ?_
    rw [← expandTildeText_eq_iff, ← hvalue]
    exact String.ofList_inj

end

/-! ## 7. Command substitutions -/

/-- The part is replaced by the output of a command, as a literal. -/
def isSubstitution : WordPart → Bool
  | .commandSubstitution _ => true
  | _ => false

/-- The resolved words, with the parts that stand for substitutions. -/
def sourced (ws resolved : List Word) : List Sourced :=
  List.zipWith (fun w w' => w'.parts.zip (w.parts.map isSubstitution)) ws resolved

section

variable {W P : Type} {h : Host W P} {r : Recs W P}

/-- A part gives way to a part. -/
theorem length_resolveParts (ps : List WordPart) {ps' : List WordPart} {s t : Runtime W}
    (hok : Interp.resolveParts h r ps s = .ok (ps', t)) : ps'.length = ps.length := by
  induction ps generalizing s ps' with
  | nil =>
    cases hok
    rfl
  | cons p ps ih =>
    have hstep : ∃ p' u rest, Interp.resolveParts h r ps u = .ok (rest, t) ∧
        ps' = p' :: rest := by
      cases p <;>
      · rcases bind_eq_ok.mp hok with ⟨⟨p', u⟩, -, hrest⟩
        rcases bind_eq_ok.mp hrest with ⟨⟨rest, v⟩, hps, hret⟩
        cases hret
        exact ⟨_, u, rest, hps, rfl⟩
    rcases hstep with ⟨p', u, rest, hps, rfl⟩
    rw [List.length_cons, List.length_cons, ih hps]

/-- Without the marks these are the words that the runtime expands. -/
theorem map_sourced {ws ws' : List Word} {s t : Runtime W}
    (hok : Interp.resolveCommandSubst h r ws s = .ok (ws', t)) :
    (sourced ws ws').map (fun w => (⟨w.map Prod.fst⟩ : Word)) = ws' := by
  induction ws generalizing s ws' with
  | nil =>
    cases hok
    rfl
  | cons w ws ih =>
    rcases bind_eq_ok.mp hok with ⟨⟨parts, u⟩, hparts, hrest⟩
    rcases bind_eq_ok.mp hrest with ⟨⟨rest, v⟩, hws, hret⟩
    cases hret
    have hlength := length_resolveParts w.parts hparts
    have hzip : (parts.zip (w.parts.map isSubstitution)).map Prod.fst = parts := by
      apply List.map_fst_zip
      simp [hlength]
    simp only [sourced, List.zipWith_cons_cons, List.map_cons, hzip]
    rw [← sourced, ih hws]

end

section

variable {W P : Type} (h : Host W P) (x : Expander) (files : W → Files) (depth : Nat)

end

end Wasmsh.Expand

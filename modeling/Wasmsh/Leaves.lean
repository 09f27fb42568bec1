import Wasmsh.Origins
import Wasmsh.Compound

/-!
# The leaves of a word

A command and a `for` list expand the same words with different code.  Both walk over the
parts of a word that hold no other part, its leaves, and read the same things there: a text,
the writes of its expansion, and the elements of a parameter of several fields.  This module
says what each of the two makes of these readings, and when they make the same fields.
-/

namespace Wasmsh

variable {s t : ShellState} {ps ps' : List WordPart} {ls : List Leaf} {rs : Readings}
variable {f : ForFields}

/-- Writes one after the other. -/
theorem ShellState.applyAll_append (s : ShellState) (ops ops' : List StateOp) :
    s.applyAll (ops ++ ops') = (s.applyAll ops).bind (·.applyAll ops') := by
  induction ops generalizing s with
  | nil => rfl
  | cons op ops ih =>
    simp only [List.cons_append, ShellState.applyAll, Option.bind_assoc]
    cases s.apply op with
    | none => rfl
    | some t => exact ih t

namespace Expand

open Braces Globs Interp

/-! ## 1. Leaves -/

/-- A part that holds no other, whether it stands inside double quotes, and whether it was a
    command substitution. -/
structure Leaf where
  part : WordPart
  inside : Bool
  substituted : Bool

namespace Leaf

/-- The depth at which a command expands it, if it is a parameter. -/
def depth (l : Leaf) : Nat := if l.inside then 2 else 1

def isQuoted (l : Leaf) : Bool :=
  l.inside || match l.part with
    | .singleQuoted _ => true
    | _ => false

/-- The leaf stands for a value. -/
def isValue (l : Leaf) : Bool :=
  l.substituted || match l.part with
    | .parameter _ => true
    | .arithmetic _ => true
    | _ => false

end Leaf

/-- The quotation mark that opens double quotes, as an empty quoted text. -/
def openingQuote : Leaf := ⟨.singleQuoted [], false, false⟩

/-- The leaves inside double quotes. -/
def insideLeaves (qs qs' : List WordPart) : List Leaf :=
  List.zipWith (fun q q' => ⟨q', true, isSubstitution q⟩) qs qs'

/-- The leaves of a part and of what `resolve_command_subst` makes of it. -/
def partLeaves : WordPart → WordPart → List Leaf
  | .doubleQuoted qs, .doubleQuoted qs' => openingQuote :: insideLeaves qs qs'
  | p, p' => [⟨p', false, isSubstitution p⟩]

def leaves (ps ps' : List WordPart) : List Leaf := (List.zipWith partLeaves ps ps').flatten

/-- A part without parts, and what it is resolved to. -/
inductive ResolvesLeaf : WordPart → WordPart → Prop
  | literal (t : List Char) : ResolvesLeaf (.literal t) (.literal t)
  | singleQuoted (t : List Char) : ResolvesLeaf (.singleQuoted t) (.singleQuoted t)
  | parameter (name : List Char) : ResolvesLeaf (.parameter name) (.parameter name)
  | arithmetic (e : List Char) : ResolvesLeaf (.arithmetic e) (.arithmetic e)
  | substitution (inner out : List Char) :
    ResolvesLeaf (.commandSubstitution inner) (.literal out)

inductive ResolvesPart : WordPart → WordPart → Prop
  | leaf {p p' : WordPart} : ResolvesLeaf p p' → ResolvesPart p p'
  | quoted {qs qs' : List WordPart} :
    List.Forall₂ ResolvesLeaf qs qs' → ResolvesPart (.doubleQuoted qs) (.doubleQuoted qs')

/-! ## 2. Readings -/

/-- What a leaf expands to: the writes, the text, the text as a `for` list takes it, with its
    tilde expanded, the elements of a parameter of several fields, and whether its expansion
    at a depth stays above the limit. -/
structure Reading where
  ops : List StateOp
  text : List Char
  taken : List Char
  elements : Option (List (List Char))
  fits : Nat → Bool := fun _ => true

abbrev Readings := List (Leaf × Reading)

namespace Readings

def ops (rs : Readings) : List StateOp := rs.flatMap (·.2.ops)

/-- The text that a command gets, before its tilde is expanded. -/
def masked (rs : Readings) : Masked := rs.flatMap fun e => Masked.ofText e.1.isQuoted e.2.text

/-- The text that a `for` list takes. -/
def taken (rs : Readings) : List Char := rs.flatMap (·.2.taken)

/-- The atoms of a word of several fields. -/
def atoms (rs : Readings) : List MultiAtom :=
  rs.map fun e => match e.2.elements with
    | some elements => .fields elements e.1.isQuoted
    | none => .text e.2.text e.1.isQuoted

/-- In a command no parameter meets the limit of the depth. -/
def fit (rs : Readings) : Bool := rs.all fun e => e.2.fits e.1.depth

/-- The elements of several fields are read without a write. -/
def elementsQuiet (rs : Readings) : Bool := rs.all fun e => e.2.elements.isNone || e.2.ops.isEmpty

theorem ops_cons (e : Leaf × Reading) (rs : Readings) :
    ops (e :: rs) = e.2.ops ++ ops rs := rfl

theorem ops_append (rs rs' : Readings) : ops (rs ++ rs') = ops rs ++ ops rs' :=
  List.flatMap_append

theorem masked_cons (e : Leaf × Reading) (rs : Readings) :
    masked (e :: rs) = Masked.ofText e.1.isQuoted e.2.text ++ masked rs := rfl

theorem masked_append (rs rs' : Readings) : masked (rs ++ rs') = masked rs ++ masked rs' :=
  List.flatMap_append

theorem atoms_append (rs rs' : Readings) : atoms (rs ++ rs') = atoms rs ++ atoms rs' :=
  List.map_append

theorem taken_cons (e : Leaf × Reading) (rs : Readings) :
    taken (e :: rs) = e.2.taken ++ taken rs := rfl

end Readings

section

variable (x : Expander)

def readPart (p : WordPart) (s : ShellState) : Reading :=
  match p with
  | .literal t => { ops := [], text := t, taken := t, elements := none }
  | .singleQuoted t => { ops := [], text := t, taken := t, elements := none }
  | .parameter name =>
    let value := x.expandParameter 0 name s
    { ops := value.1
      text := value.2
      taken := expandTildeText value.2 (s.after value.1)
      elements := arrayMultiExpansion name s
      fits := fun depth => x.fits depth name s }
  | .arithmetic e =>
    let value := x.evalArithmetic e s
    let text := (toString value.2).toList
    { ops := value.1
      text := text
      taken := expandTildeText text (s.after value.1)
      elements := none }
  | _ => { ops := [], text := [], taken := [], elements := none }

def readings : List Leaf → ShellState → Readings
  | [], _ => []
  | l :: ls, s =>
    let r := readPart x l.part s
    (l, r) :: readings ls (s.after r.ops)

/-- The readings of a word that was resolved. -/
def wordReadings (w w' : Word) (s : ShellState) : Readings :=
  readings x (leaves w.parts w'.parts) s

variable {x}

/-- The writes of the first leaf, then those of the others. -/
theorem applyAll_of_cons {l : Leaf} (h : s.applyAll (readings x (l :: ls) s).ops = some t) :
    ∃ u, s.applyAll (readPart x l.part s).ops = some u ∧
      s.after (readPart x l.part s).ops = u ∧ u.applyAll (readings x ls u).ops = some t := by
  rw [readings, Readings.ops_cons, ShellState.applyAll_append, Option.bind_eq_some_iff] at h
  rcases h with ⟨u, hu, ht⟩
  rw [ShellState.after_of_some hu] at ht
  exact ⟨u, hu, ShellState.after_of_some hu, ht⟩

/-- The writes of a prefix of the leaves, then those of the others. -/
theorem applyAll_of_append {ls ls' : List Leaf}
    (h : s.applyAll (readings x (ls ++ ls') s).ops = some t) :
    ∃ u, s.applyAll (readings x ls s).ops = some u ∧
      u.applyAll (readings x ls' u).ops = some t := by
  induction ls generalizing s with
  | nil => exact ⟨s, rfl, h⟩
  | cons l ls ih =>
    rcases applyAll_of_cons h with ⟨v, hv, hafter, hrest⟩
    rcases ih hrest with ⟨u, hu, ht⟩
    refine ⟨u, ?_, ht⟩
    rw [readings, Readings.ops_cons, ShellState.applyAll_append, hafter, hv]
    exact hu

/-- The state after the leaves, one after the other. -/
def afterLeaves (x : Expander) : List Leaf → ShellState → ShellState
  | [], s => s
  | l :: ls, s => afterLeaves x ls (s.after (readPart x l.part s).ops)

theorem readings_append_after (ls ls' : List Leaf) (s : ShellState) :
    readings x (ls ++ ls') s = readings x ls s ++ readings x ls' (afterLeaves x ls s) := by
  induction ls generalizing s with
  | nil => rfl
  | cons l ls ih => rw [List.cons_append, readings, readings, ih, afterLeaves, List.cons_append]

theorem afterLeaves_of_some
    (h : s.applyAll (readings x ls s).ops = some t) : afterLeaves x ls s = t := by
  induction ls generalizing s with
  | nil => exact Option.some.inj h
  | cons l ls ih =>
    rcases applyAll_of_cons h with ⟨u, -, hafter, ht⟩
    rw [afterLeaves, hafter, ih ht]

theorem readings_append (h : s.applyAll (readings x ls s).ops = some t) (ls' : List Leaf) :
    readings x (ls ++ ls') s = readings x ls s ++ readings x ls' t := by
  rw [readings_append_after, afterLeaves_of_some h]

/-! ## 3. What a command makes of them -/

/-- A leaf as a command reads it. -/
theorem expandPartMasked_leaf {p p' : WordPart} (h : ResolvesLeaf p p') (inside : Bool)
    {depth : Nat} (hdepth : depth ≤ maxExpandDepth) (s : ShellState)
    (hfits : (readPart x p' s).fits (depth + 1) = true) :
    expandPartMasked x inside depth p' s =
      ((readPart x p' s).ops, .ofText (Leaf.mk p' inside (isSubstitution p)).isQuoted
        (readPart x p' s).text) := by
  have hlt : ¬ maxExpandDepth < depth := Nat.not_lt.mpr hdepth
  cases h with
  | parameter name =>
    have hvalue := x.expandParameter_of_fits (Nat.zero_le _) hfits
    simp [expandPartMasked, hlt, readPart, Leaf.isQuoted, hvalue]
  | _ => simp [expandPartMasked, hlt, readPart, Leaf.isQuoted]

theorem fit_cons {l : Leaf} (h : (readings x (l :: ls) s).fit = true) :
    (readPart x l.part s).fits l.depth = true ∧
      (readings x ls (s.after (readPart x l.part s).ops)).fit = true := by
  rwa [readings, Readings.fit, List.all_cons, Bool.and_eq_true] at h

theorem fit_append {rs rs' : Readings} (h : (rs ++ rs').fit = true) :
    rs.fit = true ∧ rs'.fit = true := by
  rwa [Readings.fit, List.all_append, Bool.and_eq_true] at h

theorem expandPartsMasked_inside {qs qs' : List WordPart}
    (h : List.Forall₂ ResolvesLeaf qs qs')
    (ht : s.applyAll (readings x (insideLeaves qs qs') s).ops = some t)
    (hfit : (readings x (insideLeaves qs qs') s).fit = true) :
    expandPartsMasked x true 1 qs' s =
      ((readings x (insideLeaves qs qs') s).ops,
        (readings x (insideLeaves qs qs') s).masked) := by
  induction h generalizing s with
  | nil => rfl
  | @cons q q' qs qs' hq _ ih =>
    have hleaves : insideLeaves (q :: qs) (q' :: qs') =
        ⟨q', true, isSubstitution q⟩ :: insideLeaves qs qs' := rfl
    rw [hleaves] at ht hfit ⊢
    rcases applyAll_of_cons ht with ⟨u, -, hafter, hrest⟩
    have hfits := fit_cons hfit
    have hfirst := @expandPartMasked_leaf x q q' hq true 1 (by decide) s hfits.1
    rw [readings, Readings.ops_cons, Readings.masked_cons, expandPartsMasked, hfirst]
    dsimp only
    rw [hafter] at hfits ⊢
    rw [ih hrest hfits.2]

/-- The text of a word of one field. -/
theorem expandPartsMasked_leaves (h : List.Forall₂ ResolvesPart ps ps')
    (ht : s.applyAll (readings x (leaves ps ps') s).ops = some t)
    (hfit : (readings x (leaves ps ps') s).fit = true) :
    expandPartsMasked x false 0 ps' s =
      ((readings x (leaves ps ps') s).ops, (readings x (leaves ps ps') s).masked) := by
  induction h generalizing s with
  | nil => rfl
  | @cons p p' ps ps' hp _ ih =>
    have hleaves : leaves (p :: ps) (p' :: ps') = partLeaves p p' ++ leaves ps ps' := rfl
    rw [hleaves] at ht hfit ⊢
    rcases applyAll_of_append ht with ⟨u, hu, hrest⟩
    rw [readings_append hu] at hfit ⊢
    have hfits := fit_append hfit
    have hpart : expandPartMasked x false 0 p' s =
        ((readings x (partLeaves p p') s).ops, (readings x (partLeaves p p') s).masked) := by
      cases hp with
      | leaf hp =>
        have hone : partLeaves p p' = [⟨p', false, isSubstitution p⟩] := by
          cases hp <;> rfl
        rw [hone] at hfits ⊢
        rw [expandPartMasked_leaf hp false (Nat.zero_le _) s (fit_cons hfits.1).1]
        simp [readings, Readings.ops, Readings.masked]
      | @quoted qs qs' hqs => exact expandPartsMasked_inside hqs hu (fit_cons hfits.1).2
    rw [Readings.ops_append, Readings.masked_append, expandPartsMasked, hpart]
    dsimp only
    rw [ShellState.after_of_some hu, ih hrest hfits.2]

/-- A leaf in `collect_multi_atoms`. -/
theorem collectMultiAtom_leaf {p p' : WordPart} (h : ResolvesLeaf p p') (inside : Bool)
    (depth : Nat) (s : ShellState)
    (hquiet : ((readPart x p' s).elements.isNone || (readPart x p' s).ops.isEmpty) = true)
    (hfits : (readPart x p' s).fits (depth + 1) = true) :
    collectMultiAtom x inside depth p' s = ((readPart x p' s).ops,
      Readings.atoms [(⟨p', inside, isSubstitution p⟩, readPart x p' s)]) := by
  cases h with
  | parameter name =>
    simp only [readPart, Bool.or_eq_true, Option.isNone_iff_eq_none, List.isEmpty_iff] at hquiet
    have hvalue := x.expandParameter_of_fits (Nat.zero_le _) hfits
    simp only [collectMultiAtom, readPart, Readings.atoms, List.map_cons, List.map_nil, ← hvalue]
    cases hes : arrayMultiExpansion name s with
    | none => simp [Leaf.isQuoted]
    | some es =>
      rw [hes] at hquiet
      rcases hquiet with hnone | hops
      · cases hnone
      · simp [Leaf.isQuoted, hops]
  | _ => simp [collectMultiAtom, readPart, Readings.atoms, Leaf.isQuoted]

theorem collectMultiAtoms_inside {qs qs' : List WordPart}
    (h : List.Forall₂ ResolvesLeaf qs qs')
    (ht : s.applyAll (readings x (insideLeaves qs qs') s).ops = some t)
    (hquiet : (readings x (insideLeaves qs qs') s).elementsQuiet = true)
    (hfit : (readings x (insideLeaves qs qs') s).fit = true) :
    collectMultiAtoms x true 1 qs' s =
      ((readings x (insideLeaves qs qs') s).ops,
        (readings x (insideLeaves qs qs') s).atoms) := by
  induction h generalizing s with
  | nil => rfl
  | @cons q q' qs qs' hq _ ih =>
    have hleaves : insideLeaves (q :: qs) (q' :: qs') =
        ⟨q', true, isSubstitution q⟩ :: insideLeaves qs qs' := rfl
    rw [hleaves] at ht hquiet hfit ⊢
    rcases applyAll_of_cons ht with ⟨u, -, hafter, hrest⟩
    have hfits := fit_cons hfit
    rw [readings, Readings.elementsQuiet, List.all_cons, Bool.and_eq_true, hafter] at hquiet
    rw [readings, Readings.ops_cons, collectMultiAtoms,
      collectMultiAtom_leaf hq true 1 s hquiet.1 hfits.1]
    dsimp only
    rw [hafter] at hfits ⊢
    rw [ih hrest hquiet.2 hfits.2]
    rfl

/-- An atom that changes the fields. -/
def MultiAtom.counts : MultiAtom → Bool
  | .text t _ => !t.isEmpty
  | .fields _ _ => true

theorem multiFields_filter (atoms : List MultiAtom) :
    multiFields (atoms.filter MultiAtom.counts) = multiFields atoms := by
  have hfold : ∀ (atoms : List MultiAtom) (f : MultiFields),
      (atoms.filter MultiAtom.counts).foldl MultiFields.push f =
        atoms.foldl MultiFields.push f := by
    intro atoms
    induction atoms with
    | nil => intro f; rfl
    | cons a atoms ih =>
      intro f
      cases a with
      | fields es q => exact ih _
      | text t q =>
        cases t with
        | nil => exact ih _
        | cons c t => exact ih _
  unfold multiFields
  rw [hfold]

theorem any_isFields_filter (atoms : List MultiAtom) :
    (atoms.filter MultiAtom.counts).any MultiAtom.isFields = atoms.any MultiAtom.isFields := by
  induction atoms with
  | nil => rfl
  | cons a atoms ih =>
    cases a with
    | fields es q => rfl
    | text t q =>
      cases t with
      | nil => exact ih
      | cons c t => exact ih

/-- The atoms of a word of several fields; the quotation marks have none. -/
theorem collectMultiAtoms_leaves (h : List.Forall₂ ResolvesPart ps ps')
    (ht : s.applyAll (readings x (leaves ps ps') s).ops = some t)
    (hquiet : (readings x (leaves ps ps') s).elementsQuiet = true)
    (hfit : (readings x (leaves ps ps') s).fit = true) :
    (collectMultiAtoms x false 0 ps' s).1 = (readings x (leaves ps ps') s).ops ∧
      (collectMultiAtoms x false 0 ps' s).2.filter MultiAtom.counts =
        (readings x (leaves ps ps') s).atoms.filter MultiAtom.counts := by
  induction h generalizing s with
  | nil => exact ⟨rfl, rfl⟩
  | @cons p p' ps ps' hp _ ih =>
    have hleaves : leaves (p :: ps) (p' :: ps') = partLeaves p p' ++ leaves ps ps' := rfl
    rw [hleaves] at ht hquiet hfit ⊢
    rcases applyAll_of_append ht with ⟨u, hu, hrest⟩
    rw [readings_append hu] at hfit
    have hfits := fit_append hfit
    rw [readings_append hu, Readings.elementsQuiet, List.all_append, Bool.and_eq_true] at hquiet
    have hpart : (collectMultiAtom x false 0 p' s).1 = (readings x (partLeaves p p') s).ops ∧
        (collectMultiAtom x false 0 p' s).2.filter MultiAtom.counts =
          (readings x (partLeaves p p') s).atoms.filter MultiAtom.counts := by
      cases hp with
      | leaf hp =>
        have hone : partLeaves p p' = [⟨p', false, isSubstitution p⟩] := by
          cases hp <;> rfl
        rw [hone] at hquiet hfits ⊢
        simp only [readings, List.all_cons, List.all_nil, Bool.and_true] at hquiet
        rw [collectMultiAtom_leaf hp false 0 s hquiet.1 (fit_cons hfits.1).1]
        simp [readings, Readings.ops]
      | @quoted qs qs' hqs =>
        have hinside := collectMultiAtoms_inside hqs hu hquiet.1 (fit_cons hfits.1).2
        have hdepth : ¬ maxExpandDepth < 0 + 1 := by decide
        simp only [collectMultiAtom, hdepth, if_false]
        rw [hinside]
        exact ⟨rfl, rfl⟩
    have hih := ih hrest hquiet.2 hfits.2
    rw [readings_append hu, Readings.ops_append, Readings.atoms_append, collectMultiAtoms]
    dsimp only
    rw [hpart.1, ShellState.after_of_some hu, hih.1, List.filter_append, List.filter_append,
      hpart.2, hih.2]
    exact ⟨rfl, rfl⟩

/-- The word is one of several fields for a command. -/
def isMulti (ps' : List WordPart) (rs : Readings) : Bool :=
  partsHaveMultiField ps' && rs.any (·.2.elements.isSome)

theorem any_isFields_atoms (rs : Readings) :
    rs.atoms.any MultiAtom.isFields = rs.any (·.2.elements.isSome) := by
  rw [Readings.atoms, List.any_map]
  congr 1
  funext e
  cases h : e.2.elements <;> simp [h, MultiAtom.isFields]

theorem expandWordArgv_several (h : List.Forall₂ ResolvesPart ps ps')
    (ht : s.applyAll (readings x (leaves ps ps') s).ops = some t)
    (hmulti : isMulti ps' (readings x (leaves ps ps') s) = true)
    (hquiet : (readings x (leaves ps ps') s).elementsQuiet = true)
    (hfit : (readings x (leaves ps ps') s).fit = true) :
    expandWordArgv x ⟨ps'⟩ s = ((readings x (leaves ps ps') s).ops,
      multiFields (readings x (leaves ps ps') s).atoms) := by
  rcases collectMultiAtoms_leaves h ht hquiet hfit with ⟨hops, hatoms⟩
  rw [isMulti, Bool.and_eq_true] at hmulti
  have hany : (collectMultiAtoms x false 0 ps' s).2.any MultiAtom.isFields = true := by
    rw [← any_isFields_filter, hatoms, any_isFields_filter, any_isFields_atoms, hmulti.2]
  have hfields : multiFields (collectMultiAtoms x false 0 ps' s).2 =
      multiFields (readings x (leaves ps ps') s).atoms := by
    rw [← multiFields_filter, hatoms, multiFields_filter]
  simp only [expandWordArgv, hmulti.1, if_true, expandWordMulti, hany, hops, hfields]

theorem expandWordArgv_one (h : List.Forall₂ ResolvesPart ps ps')
    (ht : s.applyAll (readings x (leaves ps ps') s).ops = some t)
    (hmulti : isMulti ps' (readings x (leaves ps ps') s) = false)
    (htwice : partsHaveMultiField ps' = true → (readings x (leaves ps ps') s).ops = [])
    (hfit : (readings x (leaves ps ps') s).fit = true) :
    expandWordArgv x ⟨ps'⟩ s = ((readings x (leaves ps ps') s).ops,
      [expandTilde (readings x (leaves ps ps') s).masked t]) := by
  have hsingle : expandWordMasked x ⟨ps'⟩ s = ((readings x (leaves ps ps') s).ops,
      expandTilde (readings x (leaves ps ps') s).masked t) := by
    simp only [expandWordMasked, expandPartsMasked_leaves h ht hfit, ShellState.after_of_some ht]
  by_cases hhas : partsHaveMultiField ps' = true
  · -- the name of a parameter promises fields that it does not have: the word is read twice
    have hnone : (readings x (leaves ps ps') s).any (·.2.elements.isSome) = false := by
      simpa [isMulti, hhas] using hmulti
    have hquiet : (readings x (leaves ps ps') s).elementsQuiet = true := by
      rw [Readings.elementsQuiet, List.all_eq_true]
      intro e he
      have he := List.any_eq_false.mp hnone e he
      cases hes : e.2.elements with
      | none => rfl
      | some es => simp [hes] at he
    rcases collectMultiAtoms_leaves h ht hquiet hfit with ⟨hops, hatoms⟩
    have hany : (collectMultiAtoms x false 0 ps' s).2.any MultiAtom.isFields = false := by
      rw [← any_isFields_filter, hatoms, any_isFields_filter, any_isFields_atoms, hnone]
    have hempty := htwice hhas
    have hafter : s.after [] = s := rfl
    simp only [expandWordArgv, hhas, if_true, expandWordMulti, hany, Bool.false_eq_true, if_false,
      hops, hempty, hafter, hsingle, List.nil_append]
  · simp only [expandWordArgv, hhas, Bool.false_eq_true, if_false, hsingle]

/-! ## 4. What a `for` list makes of them -/

/-- A leaf in `split_for_parts`. -/
def forStep (ifs : List Char) (f : ForFields) (e : Leaf × Reading) : ForFields :=
  let g := if e.1.inside then
      match e.2.elements with
      | some elements => pushElements f elements
      | none => { f with current := f.current ++ e.2.taken }
    else if e.1.isValue then splitUnquoted ifs e.2.taken f
    else { f with current := f.current ++ e.2.taken }
  { g with quotedSeen := f.quotedSeen || e.1.isQuoted }

/-- The fields of a word in a `for` list. -/
def forFields (ifs : List Char) (rs : Readings) : ForFields :=
  rs.foldl (forStep ifs) ⟨[], [], false⟩

/-- There is no separator in the text. -/
def keepsWhole (ifs t : List Char) : Bool := ifs.isEmpty || !t.any (ifs.contains ·)

/-- The pieces between the separators of the text are these elements. -/
def splitsInto (ifs t : List Char) (elements : List (List Char)) : Bool :=
  if ifs.isEmpty then (elements.isEmpty && t.isEmpty) || (elements == [t] && !t.isEmpty)
  else ifsPieces ifs t == elements

theorem ifsPieces_whole {ifs t : List Char} (h : t.any (ifs.contains ·) = false) :
    ifsPieces ifs t = if t.isEmpty then [] else [t] := by
  have hsplit : t.splitOnP (ifs.contains ·) = [t] := by
    apply List.splitOnP_eq_singleton
    intro c hc
    have hnot := List.any_eq_false.mp h c hc
    simpa using hnot
  rw [ifsPieces, hsplit]
  cases t <;> rfl

theorem splitUnquoted_whole {ifs t : List Char} (h : keepsWhole ifs t = true) (f : ForFields) :
    splitUnquoted ifs t f = { f with current := f.current ++ t } := by
  unfold splitUnquoted
  by_cases hifs : ifs.isEmpty = true
  · rw [if_pos hifs]
  · rw [if_neg hifs]
    simp only [keepsWhole, hifs, Bool.false_or, Bool.not_eq_true'] at h
    rw [ifsPieces_whole h]
    cases t with
    | nil => simp
    | cons c t => rfl

theorem ne_nil_of_mem_ifsPieces {ifs t piece : List Char} (h : piece ∈ ifsPieces ifs t) :
    piece ≠ [] := by
  rintro rfl
  simpa [ifsPieces] using (List.mem_filter.mp h).2

/-- The pieces after the first are elements of their own when none is empty. -/
theorem pushPieces_eq {pieces : List (List Char)} (hf : f.current ≠ [])
    (h : ∀ piece ∈ pieces, piece ≠ []) :
    pushPieces f pieces =
      pieces.foldl (fun f e => { f with current := e, out := f.out ++ [f.current] }) f := by
  induction pieces generalizing f with
  | nil => rfl
  | cons piece pieces ih =>
    have hrest := ih (f := { f with current := piece, out := f.out ++ [f.current] })
      (h piece (.head _)) fun p hp => h p (.tail _ hp)
    simpa [pushPieces, hf] using hrest

theorem splitUnquoted_into {ifs t : List Char} {elements : List (List Char)}
    (h : splitsInto ifs t elements = true) (f : ForFields) :
    splitUnquoted ifs t f = pushElements f elements ∧ ∀ e ∈ elements, e ≠ [] := by
  unfold splitUnquoted
  unfold splitsInto at h
  by_cases hifs : ifs.isEmpty = true
  · rw [if_pos hifs] at h ⊢
    simp only [Bool.or_eq_true, Bool.and_eq_true, List.isEmpty_iff, beq_iff_eq, Bool.not_eq_true',
      List.isEmpty_eq_false_iff] at h
    rcases h with ⟨rfl, rfl⟩ | ⟨rfl, ht⟩
    · simp [pushElements]
    · simpa [pushElements] using ht
  · rw [if_neg hifs] at h ⊢
    have hpieces : ∀ e ∈ elements, e ≠ [] := by
      intro e he
      rw [← beq_iff_eq.mp h] at he
      exact ne_nil_of_mem_ifsPieces he
    rw [beq_iff_eq.mp h]
    refine ⟨?_, hpieces⟩
    cases elements with
    | nil => rfl
    | cons e es =>
      apply pushPieces_eq
      · have he := hpieces e (.head _)
        simp [he]
      · exact fun e he => hpieces e (.tail _ he)

/-! ## 5. Agreement on a word -/

/-- The leaf has no text. -/
def isBlankLeaf (e : Leaf × Reading) : Bool := e.2.text.isEmpty && e.2.taken.isEmpty

/-- No tilde is expanded, or the same one: that of a value at the start of the word. -/
def tildesAgree (home : Option String) (rs : Readings) : Bool :=
  (rs.all (fun e => e.2.taken == e.2.text) &&
      !(isTildeText rs.masked.text && home.isSome)) ||
    match home, rs.dropWhile isBlankLeaf with
    | some home, e :: rest =>
      isTildeText rs.masked.text && e.2.taken == home.toList ++ e.2.text.drop 1 &&
        !e.2.text.isEmpty && rest.all fun e => e.2.taken == e.2.text
    | _, _ => false

/-- In a word of one field no value outside double quotes has a separator in it, nothing
    inside is taken for several fields, the text is not dropped, and the tildes agree. -/
def singleAgrees (ifs : List Char) (home : Option String) (rs : Readings) : Bool :=
  rs.all (fun e => if e.1.inside then e.2.elements.isNone
      else !e.1.isValue || keepsWhole ifs e.2.taken) &&
    (rs.any (·.1.isQuoted) || !rs.taken.isEmpty) && tildesAgree home rs

/-- A word of several fields has one. -/
def leavesField (rs : Readings) : Bool :=
  rs.any fun e => match e.2.elements with
    | some elements => !elements.isEmpty
    | none => !e.2.text.isEmpty

/-- In a word of several fields the elements of a parameter outside double quotes are the
    pieces of its text, no other value has a separator or a tilde in it, and when something
    is quoted there is a field. -/
def multiAgrees (ifs : List Char) (rs : Readings) : Bool :=
  rs.elementsQuiet &&
    rs.all (fun e => match e.2.elements with
      | some elements => e.1.inside || splitsInto ifs e.2.taken elements
      | none => e.2.taken == e.2.text && (e.1.inside || !e.1.isValue ||
          keepsWhole ifs e.2.taken)) &&
    (!rs.any (·.1.isQuoted) || leavesField rs)

theorem text_masked (rs : Readings) : rs.masked.text = rs.flatMap (·.2.text) := by
  induction rs with
  | nil => rfl
  | cons e rs ih =>
    rw [Readings.masked_cons, Masked.text, List.map_append, ← Masked.text, ← Masked.text, ih,
      Masked.text_ofText, List.flatMap_cons]

theorem taken_eq (h : rs.all (fun e => e.2.taken == e.2.text) = true) :
    rs.taken = rs.flatMap (·.2.text) := by
  induction rs with
  | nil => rfl
  | cons e rs ih =>
    simp only [List.all_cons, Bool.and_eq_true, beq_iff_eq] at h
    rw [Readings.taken_cons, ih h.2, h.1, List.flatMap_cons]

/-- The leaves before the first text can be left out. -/
theorem dropWhile_blank (rs : Readings) :
    rs.taken = Readings.taken (rs.dropWhile isBlankLeaf) ∧
      rs.masked.text = (Readings.masked (rs.dropWhile isBlankLeaf)).text := by
  rw [text_masked, text_masked]
  induction rs with
  | nil => exact ⟨rfl, rfl⟩
  | cons e rs ih =>
    rw [List.dropWhile_cons]
    by_cases he : isBlankLeaf e = true
    · rw [if_pos he]
      simp only [isBlankLeaf, Bool.and_eq_true, List.isEmpty_iff] at he
      rw [Readings.taken_cons, List.flatMap_cons, he.1, he.2, List.nil_append, List.nil_append]
      exact ih
    · rw [if_neg he]
      exact ⟨rfl, rfl⟩

/-- The text that a `for` list takes is that of the command, with its tilde expanded. -/
theorem taken_of_tildesAgree {t : ShellState} (h : tildesAgree (t.getVar "HOME") rs = true) :
    rs.taken = (expandTilde rs.masked t).text := by
  unfold tildesAgree at h
  rw [Bool.or_eq_true] at h
  rcases h with h | h
  · simp only [Bool.and_eq_true, Bool.not_eq_true'] at h
    rw [taken_eq h.1, ← text_masked]
    unfold expandTilde
    split
    · next htilde =>
      rw [htilde, Bool.true_and] at h
      cases hhome : t.getVar "HOME" with
      | none => rfl
      | some home =>
        rw [hhome] at h
        cases h.2
    · rfl
  · split at h
    · next home e rest hhome hdrop =>
      simp only [Bool.and_eq_true, beq_iff_eq, Bool.not_eq_true', List.isEmpty_eq_false_iff] at h
      rcases h with ⟨⟨⟨htilde, htaken⟩, hne⟩, hrest⟩
      have hskip := dropWhile_blank rs
      rw [hdrop] at hskip
      have htext : (Readings.masked (e :: rest)).text = e.2.text ++ rest.flatMap (·.2.text) := by
        rw [text_masked, List.flatMap_cons]
      have hexpanded : (expandTilde rs.masked t).text = home.toList ++ rs.masked.text.drop 1 := by
        rw [expandTilde, if_pos htilde, hhome]
        exact Masked.text_ofText false _
      rw [hexpanded, hskip.1, hskip.2, htext, Readings.taken_cons, htaken, taken_eq hrest,
        List.drop_append_of_le_length (List.length_pos_iff.mpr hne), List.append_assoc]
    · cases h

/-- The one field of a word. -/
theorem forFields_single {ifs : List Char} {t : ShellState}
    (h : singleAgrees ifs (t.getVar "HOME") rs = true) :
    forFieldTexts (forFields ifs rs) = [(expandTilde rs.masked t).text] := by
  simp only [singleAgrees, Bool.and_eq_true] at h
  rcases h with ⟨⟨hleaves, hkept⟩, htildes⟩
  have hfold : ∀ (rs : Readings) (f : ForFields),
      rs.all (fun e => if e.1.inside then e.2.elements.isNone
        else !e.1.isValue || keepsWhole ifs e.2.taken) = true →
      rs.foldl (forStep ifs) f =
        ⟨f.current ++ rs.taken, f.out, f.quotedSeen || rs.any (·.1.isQuoted)⟩ := by
    intro rs
    induction rs with
    | nil =>
      intro f _
      simp [Readings.taken]
    | cons e rs ih =>
      intro f hall
      rw [List.all_cons, Bool.and_eq_true] at hall
      have hstep : forStep ifs f e =
          ⟨f.current ++ e.2.taken, f.out, f.quotedSeen || e.1.isQuoted⟩ := by
        have hleaf := hall.1
        unfold forStep
        by_cases hinside : e.1.inside = true
        · rw [if_pos hinside, Option.isNone_iff_eq_none] at hleaf
          rw [if_pos hinside, hleaf]
        · rw [if_neg hinside] at hleaf ⊢
          by_cases hvalue : e.1.isValue = true
          · rw [hvalue, Bool.not_true, Bool.false_or] at hleaf
            rw [if_pos hvalue, splitUnquoted_whole hleaf]
          · rw [if_neg hvalue]
      rw [List.foldl_cons, hstep, ih _ hall.2, Readings.taken_cons, List.any_cons,
        List.append_assoc, Bool.or_assoc]
  rw [forFields, hfold rs _ hleaves, taken_of_tildesAgree htildes, forFieldTexts]
  rw [taken_of_tildesAgree htildes, Bool.or_eq_true] at hkept
  rw [if_pos]
  · rfl
  · rw [Bool.or_eq_true, Bool.false_or]
    exact hkept.symm

/-- The fields of the list and those of the command, so far. -/
structure SameFields (f : ForFields) (m : MultiFields) : Prop where
  current : f.current = m.last.text
  out : f.out = m.before.map Masked.text
  nothing : m.hadText = false → m.last = [] ∧ m.before = []
  something : f.quotedSeen = false → m.hadText = true → f.current ≠ []

/-- The elements of a parameter, as the two put them into their fields. -/
theorem pushElements_eq (f : ForFields) (e : List Char) (es : List (List Char)) :
    pushElements f (e :: es) =
      ⟨((f.current ++ e) :: es).getLastD [], f.out ++ ((f.current ++ e) :: es).dropLast,
        f.quotedSeen⟩ := by
  have hfold : ∀ (es : List (List Char)) (f : ForFields),
      es.foldl (fun f e => { f with current := e, out := f.out ++ [f.current] }) f =
        ⟨(f.current :: es).getLastD [], f.out ++ (f.current :: es).dropLast, f.quotedSeen⟩ := by
    intro es
    induction es with
    | nil =>
      intro f
      simp
    | cons e es ih =>
      intro f
      rw [List.foldl_cons, ih]
      simp
  rw [pushElements, hfold]

/-- A leaf with a text. -/
theorem SameFields.text {m : MultiFields} (hsame : SameFields f m) (t : List Char)
    (quoted seen : Bool) :
    SameFields ⟨f.current ++ t, f.out, f.quotedSeen || seen⟩ (m.push (.text t quoted)) := by
  unfold MultiFields.push
  cases t with
  | nil =>
    refine ⟨by simpa using hsame.current, hsame.out, hsame.nothing, ?_⟩
    intro hseen hhad
    rw [Bool.or_eq_false_iff] at hseen
    simpa using hsame.something hseen.1 hhad
  | cons c t =>
    refine ⟨?_, hsame.out, fun h => (by cases h), ?_⟩
    · simp [hsame.current, Masked.text, Masked.ofText, Function.comp_def]
    · intro _ _
      simp

/-- A leaf with elements; outside double quotes none of them is empty. -/
theorem SameFields.fields {m : MultiFields} (hsame : SameFields f m)
    (es : List (List Char)) (quoted : Bool) {seen : Bool}
    (hseen : seen = false → ∀ e ∈ es, e ≠ []) :
    SameFields ⟨(pushElements f es).current, (pushElements f es).out, f.quotedSeen || seen⟩
      (m.push (.fields es quoted)) := by
  cases es with
  | nil =>
    refine ⟨hsame.current, hsame.out, hsame.nothing, ?_⟩
    intro hs hhad
    rw [Bool.or_eq_false_iff] at hs
    exact hsame.something hs.1 hhad
  | cons e es =>
    have htexts : (((m.last ++ Masked.ofText quoted e : Masked) ::
        es.map (Masked.ofText quoted)).map Masked.text) = (f.current ++ e) :: es := by
      rw [List.map_cons, List.map_map, hsame.current]
      simp [Masked.text, Masked.ofText, Function.comp_def]
    have hlast : ∀ l : List Masked, (l.getLastD []).text = (l.map Masked.text).getLastD [] := by
      intro l
      rw [List.getLastD_eq_getLast?, List.getLastD_eq_getLast?, List.getLast?_map]
      cases l.getLast? <;> rfl
    rw [pushElements_eq]
    refine ⟨?_, ?_, fun h => (by cases h), ?_⟩
    · simp only [MultiFields.push]
      rw [hlast, htexts]
    · simp only [MultiFields.push]
      rw [List.map_append, List.map_dropLast, htexts, hsame.out]
    · intro hs _
      rw [Bool.or_eq_false_iff] at hs
      have hne := hseen hs.2
      cases hes : es.getLast? with
      | none =>
        rw [List.getLast?_eq_none_iff] at hes
        subst hes
        simpa using fun _ => hne e (.head _)
      | some l =>
        have hl := hne l (.tail _ (List.mem_of_getLast? hes))
        simpa [List.getLast?_cons, hes] using hl

theorem SameFields.step {ifs : List Char} {m : MultiFields}
    (hsame : SameFields f m) {e : Leaf × Reading} (hvalue : e.2.elements.isSome → e.1.isValue)
    (he : (match e.2.elements with
      | some elements => e.1.inside || splitsInto ifs e.2.taken elements
      | none => e.2.taken == e.2.text && (e.1.inside || !e.1.isValue ||
          keepsWhole ifs e.2.taken)) = true) :
    SameFields (forStep ifs f e) (m.push (match e.2.elements with
      | some elements => .fields elements e.1.isQuoted
      | none => .text e.2.text e.1.isQuoted)) := by
  unfold forStep
  cases hes : e.2.elements with
  | none =>
    simp only [hes, Bool.and_eq_true, beq_iff_eq, Bool.or_eq_true, Bool.not_eq_true'] at he
    have htext := hsame.text e.2.text e.1.isQuoted e.1.isQuoted
    rw [he.1]
    rw [he.1] at he
    by_cases hinside : e.1.inside = true
    · rw [if_pos hinside]
      exact htext
    · rw [if_neg hinside]
      by_cases hv : e.1.isValue = true
      · have hwhole : keepsWhole ifs e.2.text = true := by
          rcases he.2 with (h | h) | h
          · exact absurd h hinside
          · rw [hv] at h
            cases h
          · exact h
        rw [if_pos hv, splitUnquoted_whole hwhole]
        exact htext
      · rw [if_neg hv]
        exact htext
  | some es =>
    simp only [hes, Bool.or_eq_true] at he
    by_cases hinside : e.1.inside = true
    · rw [if_pos hinside]
      apply hsame.fields es
      intro hq
      simp [Leaf.isQuoted, hinside] at hq
    · rw [if_neg hinside, if_pos (hvalue (by rw [hes]; rfl))]
      have hinto := splitUnquoted_into (he.resolve_left hinside) f
      rw [hinto.1]
      exact hsame.fields es _ fun _ => hinto.2

theorem quotedSeen_foldl (ifs : List Char) (rs : Readings) (f : ForFields) :
    (rs.foldl (forStep ifs) f).quotedSeen = (f.quotedSeen || rs.any (·.1.isQuoted)) := by
  induction rs generalizing f with
  | nil => simp
  | cons e rs ih =>
    rw [List.foldl_cons, ih, List.any_cons, ← Bool.or_assoc]
    rfl

theorem hadText_foldl (rs : Readings) (m : MultiFields) :
    (rs.atoms.foldl MultiFields.push m).hadText = (m.hadText || leavesField rs) := by
  induction rs generalizing m with
  | nil => simp [Readings.atoms, leavesField]
  | cons e rs ih =>
    rw [Readings.atoms, List.map_cons, List.foldl_cons, ← Readings.atoms, ih]
    simp only [leavesField, List.any_cons, ← Bool.or_assoc]
    congr 1
    cases e.2.elements with
    | none => cases e.2.text <;> simp [MultiFields.push]
    | some es => cases es <;> simp [MultiFields.push]

/-- The fields of a word of several. -/
theorem forFields_multi {ifs : List Char}
    (hvalues : ∀ e ∈ rs, e.2.elements.isSome → e.1.isValue) (h : multiAgrees ifs rs = true) :
    forFieldTexts (forFields ifs rs) = (multiFields rs.atoms).map Masked.text := by
  simp only [multiAgrees, Bool.and_eq_true, List.all_eq_true] at h
  have hfold : ∀ (rs : Readings) (f : ForFields) (m : MultiFields), SameFields f m →
      (∀ e ∈ rs, e.2.elements.isSome → e.1.isValue) →
      (∀ e ∈ rs, (match e.2.elements with
        | some elements => e.1.inside || splitsInto ifs e.2.taken elements
        | none => e.2.taken == e.2.text && (e.1.inside || !e.1.isValue ||
            keepsWhole ifs e.2.taken)) = true) →
      SameFields (rs.foldl (forStep ifs) f) (rs.atoms.foldl MultiFields.push m) := by
    intro rs
    induction rs with
    | nil =>
      intro f m hsame _ _
      exact hsame
    | cons e rs ih =>
      intro f m hsame hvalues hleaves
      exact ih _ _ (hsame.step (hvalues e (.head _)) (hleaves e (.head _)))
        (fun e he => hvalues e (.tail _ he)) fun e he => hleaves e (.tail _ he)
  have hsame := hfold rs ⟨[], [], false⟩ ⟨[], [], false⟩
    ⟨rfl, rfl, fun _ => ⟨rfl, rfl⟩, fun _ h => by cases h⟩ hvalues h.1.2
  have hseen := quotedSeen_foldl ifs rs ⟨[], [], false⟩
  have hhad := hadText_foldl rs ⟨[], [], false⟩
  rw [← forFields] at hsame hseen
  rw [Bool.false_or] at hseen hhad
  unfold forFieldTexts multiFields
  dsimp only
  generalize rs.atoms.foldl MultiFields.push ⟨[], [], false⟩ = m at hsame hhad
  generalize forFields ifs rs = f at hsame hseen
  have hquoted : f.quotedSeen = true → m.hadText = true := by
    intro hq
    have hleft := h.2
    rw [← hseen, hq, ← hhad] at hleft
    simpa using hleft
  cases htext : m.hadText with
  | false =>
    have hnothing := hsame.nothing htext
    have hq : f.quotedSeen = false := by
      cases hq : f.quotedSeen with
      | false => rfl
      | true => rw [hquoted hq] at htext; cases htext
    simp [hsame.current, hsame.out, hnothing, hq, Masked.text]
  | true =>
    have hkept : (!f.current.isEmpty || f.quotedSeen) = true := by
      cases hq : f.quotedSeen with
      | true => simp
      | false => simpa using hsame.something hq htext
    rw [if_pos hkept]
    simp [hsame.current, hsame.out]

theorem isValue_of_elements {s : ShellState} :
    ∀ e ∈ readings x ls s, e.2.elements.isSome → e.1.isValue := by
  induction ls generalizing s with
  | nil =>
    intro e he
    cases he
  | cons l ls ih =>
    intro e he hes
    rcases List.mem_cons.mp he with rfl | he
    · unfold readPart at hes
      unfold Leaf.isValue
      cases hp : l.part <;> simp [hp] at hes ⊢
    · exact ih e he hes

/-- The fields of the word before braces and pathnames are the same in a `for` list and in a
    command. -/
def wordAgrees (x : Expander) (w w' : Word) (s : ShellState) : Bool :=
  let rs := wordReadings x w w' s
  rs.fit &&
    if isMulti w'.parts rs then multiAgrees (ifsOf s) rs
    else singleAgrees (ifsOf s) ((s.after rs.ops).getVar "HOME") rs &&
      (!partsHaveMultiField w'.parts || rs.ops.isEmpty)

/-- The fields of a word of a command, before braces and pathnames. -/
def wordFields (x : Expander) (w w' : Word) (s : ShellState) : List Masked :=
  let rs := wordReadings x w w' s
  if isMulti w'.parts rs then multiFields rs.atoms
  else [expandTilde rs.masked (s.after rs.ops)]

theorem fields_of_wordAgrees {w w' : Word} (h : List.Forall₂ ResolvesPart w.parts w'.parts)
    (ht : s.applyAll (wordReadings x w w' s).ops = some t)
    (hagrees : wordAgrees x w w' s = true) :
    expandWordArgv x w' s = ((wordReadings x w w' s).ops, wordFields x w w' s) ∧
      (wordFields x w w' s).map Masked.text =
        forFieldTexts (forFields (ifsOf s) (wordReadings x w w' s)) := by
  rw [wordAgrees, Bool.and_eq_true] at hagrees
  obtain ⟨hfit, hagrees⟩ := hagrees
  unfold wordFields
  dsimp only at hagrees ⊢
  rw [ShellState.after_of_some ht] at hagrees ⊢
  by_cases hmulti : isMulti w'.parts (wordReadings x w w' s) = true
  · rw [if_pos hmulti] at hagrees ⊢
    have hquiet : (wordReadings x w w' s).elementsQuiet = true := by
      simp only [multiAgrees, Bool.and_eq_true] at hagrees
      exact hagrees.1.1
    exact ⟨expandWordArgv_several h ht hmulti hquiet hfit,
      (forFields_multi isValue_of_elements hagrees).symm⟩
  · rw [if_neg hmulti, Bool.and_eq_true] at hagrees
    rw [if_neg hmulti]
    have htwice : partsHaveMultiField w'.parts = true → (wordReadings x w w' s).ops = [] := by
      intro hhas
      have hempty := hagrees.2
      rw [hhas, Bool.not_true, Bool.false_or] at hempty
      exact List.isEmpty_iff.mp hempty
    exact ⟨expandWordArgv_one h ht (eq_false_of_ne_true hmulti) htwice hfit,
      (forFields_single hagrees.1).symm⟩

/-- In a word that agrees, elements inside double quotes are read without a write. -/
theorem quiet_of_wordAgrees {w w' : Word} {s : ShellState} (h : wordAgrees x w w' s = true) :
    ∀ e ∈ wordReadings x w w' s, e.1.inside = true → e.2.elements.isSome → e.2.ops = [] := by
  intro e he hinside hes
  rw [wordAgrees, Bool.and_eq_true] at h
  replace h := h.2
  split at h
  · simp only [multiAgrees, Readings.elementsQuiet, Bool.and_eq_true, List.all_eq_true] at h
    have hquiet := h.1.1 e he
    rw [Bool.or_eq_true] at hquiet
    rcases hquiet with hnone | hops
    · rw [Option.isNone_iff_eq_none.mp hnone] at hes
      cases hes
    · exact List.isEmpty_iff.mp hops
  · simp only [singleAgrees, Bool.and_eq_true, List.all_eq_true] at h
    have hleaf := h.1.1.1 e he
    rw [if_pos hinside, Option.isNone_iff_eq_none] at hleaf
    rw [hleaf] at hes
    cases hes

/-! ## 6. Agreement on a list of words -/

def listLeaves (ws ws' : List Word) : List Leaf :=
  (List.zipWith (fun w w' => leaves w.parts w'.parts) ws ws').flatten

/-- The readings of all the words. -/
def listReadings (x : Expander) (ws ws' : List Word) (s : ShellState) : Readings :=
  readings x (listLeaves ws ws') s

/-- The fields of the words in a `for` list, before braces and pathnames. -/
def forTexts (x : Expander) : List Word → List Word → ShellState → List (List Char)
  | w :: ws, w' :: ws', s =>
    forFieldTexts (forFields (ifsOf s) (wordReadings x w w' s)) ++
      forTexts x ws ws' (s.after (wordReadings x w w' s).ops)
  | _, _, _ => []

def wordsAgree (x : Expander) : List Word → List Word → ShellState → Bool
  | w :: ws, w' :: ws', s =>
    wordAgrees x w w' s && wordsAgree x ws ws' (s.after (wordReadings x w w' s).ops)
  | _, _, _ => true

/-- The fields of the words of a command, before braces and pathnames. -/
def listFields (x : Expander) : List Word → List Word → ShellState → List Masked
  | w :: ws, w' :: ws', s =>
    wordFields x w w' s ++ listFields x ws ws' (s.after (wordReadings x w w' s).ops)
  | _, _, _ => []

theorem fields_of_wordsAgree {ws ws' : List Word}
    (h : List.Forall₂ (fun w w' => List.Forall₂ ResolvesPart w.parts w'.parts) ws ws')
    (ht : s.applyAll (listReadings x ws ws' s).ops = some t)
    (hagree : wordsAgree x ws ws' s = true) :
    expandWordsArgv x ws' s = ((listReadings x ws ws' s).ops, listFields x ws ws' s) ∧
      (listFields x ws ws' s).map Masked.text = forTexts x ws ws' s := by
  induction h generalizing s with
  | nil => exact ⟨rfl, rfl⟩
  | @cons w w' ws ws' hw _ ih =>
    have hleaves : listLeaves (w :: ws) (w' :: ws') =
        leaves w.parts w'.parts ++ listLeaves ws ws' := rfl
    rw [listReadings, hleaves] at ht ⊢
    rcases applyAll_of_append ht with ⟨u, hu, hrest⟩
    rw [wordsAgree, Bool.and_eq_true] at hagree
    have hafter : s.after (wordReadings x w w' s).ops = u := ShellState.after_of_some hu
    rw [hafter] at hagree
    have hword := fields_of_wordAgrees hw hu hagree.1
    have hih := ih hrest hagree.2
    rw [expandWordsArgv, readings_append hu, Readings.ops_append, forTexts, listFields,
      hword.1, hafter, hih.1, List.map_append, hword.2, hih.2]
    exact ⟨rfl, rfl⟩

end

end Expand

end Wasmsh

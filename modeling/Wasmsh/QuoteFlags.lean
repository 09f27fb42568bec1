import Wasmsh.Arguments
import Wasmsh.Origins

/-!
# The flags of quoted bytes

`expand_words_argv` returns a text and, beside it, one flag for each byte of the text.  The
two are built in parallel and no type ties them together, so this module keeps them apart as
the source does and shows that they are the text and the flags of the masked texts of
`Wasmsh.Expansion`.  A byte that was quoted has its flag set, unless a tilde was expanded:
then all flags of the word are cleared.
-/

namespace Wasmsh.Expand

/-! ## 1. Texts and flags side by side -/

/-- `ExpandedWord`. -/
structure ExpandedWord where
  text : List Char
  wasQuoted : Bool
  literal : List Bool
  deriving DecidableEq, Repr

/-- The two buffers of `expand_part_masked`. -/
structure Flagged where
  text : List Char
  mask : List Bool
  deriving DecidableEq, Repr

/-- `push_masked`. -/
def pushMasked (out : Flagged) (value : List Char) (literal : Bool) : Flagged :=
  ⟨out.text ++ value, out.mask ++ List.replicate (Utf8.size value) literal⟩

/-- The two vectors of `expand_word_multi`, each with its last entry apart. -/
structure FieldBuffers where
  field : List Char
  fields : List (List Char)
  mask : List Bool
  masks : List (List Bool)
  hadText : Bool

/-- One atom in the loop of `expand_word_multi`. -/
def FieldBuffers.push (b : FieldBuffers) : MultiAtom → FieldBuffers
  | .text t literal =>
    if t.isEmpty then b
    else { b with
      field := b.field ++ t
      mask := b.mask ++ List.replicate (Utf8.size t) literal
      hadText := true }
  | .fields [] _ => b
  | .fields (e :: es) literal =>
    let fields := (b.field ++ e) :: es
    let masks := (b.mask ++ List.replicate (Utf8.size e) literal) ::
      es.map fun element => List.replicate (Utf8.size element) literal
    ⟨fields.getLastD [], b.fields ++ fields.dropLast, masks.getLastD [],
      b.masks ++ masks.dropLast, true⟩

/-- The words of the two vectors. -/
def FieldBuffers.words (b : FieldBuffers) : List ExpandedWord :=
  if !b.hadText && b.fields.isEmpty && b.field.isEmpty then []
  else List.zipWith (fun text literal => ⟨text, literal.any id, literal⟩)
    (b.fields ++ [b.field]) (b.masks ++ [b.mask])

section

variable (x : Expander)

mutual

/-- `expand_part_masked` on the buffers. -/
def flagPart (quoted : Bool) (depth : Nat) :
    WordPart → ShellState → Flagged → List StateOp × Flagged
  | .literal t, _, out => ([], if maxExpandDepth < depth then out else pushMasked out t quoted)
  | .singleQuoted t, _, out =>
    ([], if maxExpandDepth < depth then out else pushMasked out t true)
  | .doubleQuoted ps, s, out =>
    if maxExpandDepth < depth then ([], out) else flagParts true (depth + 1) ps s out
  | .parameter name, s, out =>
    if maxExpandDepth < depth then ([], out)
    else
      let value := x.expandParameter (depth + 1) name s
      (value.1, pushMasked out value.2 quoted)
  | .arithmetic e, s, out =>
    if maxExpandDepth < depth then ([], out)
    else ((x.evalArithmetic e s).1,
      pushMasked out (toString (x.evalArithmetic e s).2).toList quoted)
  | _, _, out => ([], out)

def flagParts (quoted : Bool) (depth : Nat) :
    List WordPart → ShellState → Flagged → List StateOp × Flagged
  | [], _, out => ([], out)
  | p :: ps, s, out =>
    let first := flagPart quoted depth p s out
    let rest := flagParts quoted depth ps (s.after first.1) first.2
    (first.1 ++ rest.1, rest.2)

end

/-- The tilde of `expand_word_masked` on the buffers. -/
def flagTilde (out : Flagged) (s : ShellState) : Flagged :=
  if isTildeText out.text then
    match s.getVar "HOME" with
    | some home =>
      let text := home.toList ++ out.text.drop 1
      ⟨text, List.replicate (Utf8.size text) false⟩
    | none => out
  else out

/-- The single-field path of `expand_words_argv`. -/
def flagWord (w : Word) (s : ShellState) : List StateOp × ExpandedWord :=
  let parts := flagParts x false 0 w.parts s ⟨[], []⟩
  let out := flagTilde parts.2 (s.after parts.1)
  (parts.1, ⟨out.text, out.mask.any id, out.mask⟩)

/-- `expand_word_multi` on the buffers. -/
def flagMulti (w : Word) (s : ShellState) : List StateOp × Option (List ExpandedWord) :=
  let atoms := collectMultiAtoms x false 0 w.parts s
  (atoms.1, if atoms.2.any MultiAtom.isFields then
    some (atoms.2.foldl FieldBuffers.push ⟨[], [], [], [], false⟩).words else none)

/-- One word of `expand_words_argv`. -/
def flagWordArgv (w : Word) (s : ShellState) : List StateOp × List ExpandedWord :=
  if partsHaveMultiField w.parts then
    let multi := flagMulti x w s
    match multi.2 with
    | some words => (multi.1, words)
    | none =>
      let single := flagWord x w (s.after multi.1)
      (multi.1 ++ single.1, [single.2])
  else
    let single := flagWord x w s
    (single.1, [single.2])

/-- `expand_words_argv`, the words it returns. -/
def flagWordsArgv : List Word → ShellState → List StateOp × List ExpandedWord
  | [], _ => ([], [])
  | w :: ws, s =>
    let first := flagWordArgv x w s
    let rest := flagWordsArgv ws (s.after first.1)
    (first.1 ++ rest.1, first.2 ++ rest.2)

end

/-! ## 2. The masked texts -/

/-- The buffers that a masked text stands for. -/
def Flagged.of (m : Masked) : Flagged := ⟨m.text, m.byteMask⟩

/-- The word that a masked text stands for. -/
def ExpandedWord.of (m : Masked) : ExpandedWord := ⟨m.text, m.wasQuoted, m.byteMask⟩

theorem byteMask_append (m m' : Masked) :
    (m ++ m' : Masked).byteMask = m.byteMask ++ m'.byteMask := List.flatMap_append

theorem byteMask_ofText (q : Bool) (t : List Char) :
    (Masked.ofText q t).byteMask = List.replicate (Utf8.size t) q := by
  induction t with
  | nil => rfl
  | cons c t ih =>
    have hcons : (Masked.ofText q (c :: t)).byteMask =
        List.replicate (Utf8.encodeChar c).length q ++ (Masked.ofText q t).byteMask := rfl
    rw [hcons, ih, List.replicate_append_replicate]
    simp [Utf8.size]

theorem pushMasked_of (m : Masked) (t : List Char) (q : Bool) :
    pushMasked (.of m) t q = .of (m ++ .ofText q t) := by
  simp only [pushMasked, Flagged.of, Masked.text_append, byteMask_append, byteMask_ofText,
    Masked.text_ofText]

section

variable {x : Expander}

theorem of_append_nil (m : Masked) : Flagged.of m = .of (m ++ []) := by rw [List.append_nil]

mutual

/-- The buffers hold what the parts so far and this part expand to. -/
theorem flagPart_of (quoted : Bool) (depth : Nat) : (p : WordPart) → (s : ShellState) →
    (m : Masked) → flagPart x quoted depth p s (.of m) =
      ((expandPartMasked x quoted depth p s).1, .of (m ++ (expandPartMasked x quoted depth p s).2))
  | .literal t, s, m | .singleQuoted t, s, m | .parameter name, s, m | .arithmetic e, s, m => by
    simp only [flagPart, expandPartMasked]
    split
    · rw [← of_append_nil]
    · rw [pushMasked_of]
  | .doubleQuoted ps, s, m => by
    simp only [flagPart, expandPartMasked]
    split
    · rw [← of_append_nil]
    · exact flagParts_of true (depth + 1) ps s m
  | .commandSubstitution _, s, m | .processSubstIn _, s, m | .processSubstOut _, s, m =>
    congrArg (Prod.mk _) (of_append_nil m)

theorem flagParts_of (quoted : Bool) (depth : Nat) : (ps : List WordPart) → (s : ShellState) →
    (m : Masked) → flagParts x quoted depth ps s (.of m) =
      ((expandPartsMasked x quoted depth ps s).1,
        .of (m ++ (expandPartsMasked x quoted depth ps s).2))
  | [], s, m => congrArg (Prod.mk _) (of_append_nil m)
  | p :: ps, s, m => by
    simp only [flagParts, expandPartsMasked, flagPart_of quoted depth p s m,
      flagParts_of quoted depth ps, List.append_assoc]

end

theorem flagTilde_of (m : Masked) (s : ShellState) :
    flagTilde (.of m) s = .of (expandTilde m s) := by
  unfold flagTilde expandTilde
  have htext : (Flagged.of m).text = m.text := rfl
  rw [htext]
  by_cases htilde : isTildeText m.text = true
  · rw [if_pos htilde, if_pos htilde]
    cases s.getVar "HOME" with
    | none => rfl
    | some home => simp only [Flagged.of, Masked.text_ofText, byteMask_ofText]
  · rw [if_neg htilde, if_neg htilde]

theorem flagWord_eq (w : Word) (s : ShellState) :
    flagWord x w s = ((expandWordMasked x w s).1, .of (expandWordMasked x w s).2) := by
  have hempty : (⟨[], []⟩ : Flagged) = .of [] := rfl
  simp only [flagWord, expandWordMasked, hempty, flagParts_of, List.nil_append, flagTilde_of]
  simp only [Flagged.of, any_byteMask, ExpandedWord.of]

/-- The vectors that fields of masked texts stand for. -/
def FieldBuffers.of (f : MultiFields) : FieldBuffers :=
  ⟨f.last.text, f.before.map Masked.text, f.last.byteMask, f.before.map Masked.byteMask, f.hadText⟩

theorem push_of (f : MultiFields) (a : MultiAtom) :
    (FieldBuffers.of f).push a = .of (f.push a) := by
  cases a with
  | text t q =>
    simp only [FieldBuffers.push, MultiFields.push]
    split
    · rfl
    · simp only [FieldBuffers.of, Masked.text_append, byteMask_append, byteMask_ofText, Masked.text_ofText]
  | fields es q =>
    cases es with
    | nil => rfl
    | cons e es =>
      -- the last entry of a mapped list is the mapped last entry
      have hlast : ∀ {β : Type} (f : Masked → List β), f [] = [] → ∀ l : List Masked,
          (l.map f).getLastD [] = f (l.getLastD []) := by
        intro β f hf l
        rw [List.getLastD_eq_getLast?, List.getLastD_eq_getLast?, List.getLast?_map]
        cases l.getLast? with
        | none => exact hf.symm
        | some m => rfl
      have htexts : (f.last.text ++ e) :: es =
          ((f.last ++ .ofText q e : Masked) :: es.map (Masked.ofText q)).map Masked.text := by
        simp [Masked.text_append, Masked.text_ofText, Function.comp_def]
      have hmasks : (f.last.byteMask ++ List.replicate (Utf8.size e) q) ::
          es.map (fun element => List.replicate (Utf8.size element) q) =
          ((f.last ++ .ofText q e : Masked) :: es.map (Masked.ofText q)).map Masked.byteMask := by
        simp [byteMask_append, byteMask_ofText, Function.comp_def]
      simp only [FieldBuffers.push, MultiFields.push, FieldBuffers.of]
      rw [htexts, hmasks, hlast _ rfl, hlast _ rfl, ← List.map_dropLast, ← List.map_dropLast,
        List.map_append, List.map_append]

theorem words_of (atoms : List MultiAtom) :
    (atoms.foldl FieldBuffers.push ⟨[], [], [], [], false⟩).words =
      (multiFields atoms).map ExpandedWord.of := by
  have hfold : ∀ (atoms : List MultiAtom) (f : MultiFields),
      atoms.foldl FieldBuffers.push (.of f) = .of (atoms.foldl MultiFields.push f) := by
    intro atoms
    induction atoms with
    | nil => intro f; rfl
    | cons a atoms ih =>
      intro f
      rw [List.foldl_cons, List.foldl_cons, push_of, ih]
  have hempty : (⟨[], [], [], [], false⟩ : FieldBuffers) = .of ⟨[], [], false⟩ := rfl
  unfold multiFields
  rw [hempty, hfold]
  generalize atoms.foldl MultiFields.push ⟨[], [], false⟩ = f
  have hnil : (FieldBuffers.of f).field.isEmpty = f.last.isEmpty ∧
      (FieldBuffers.of f).fields.isEmpty = f.before.isEmpty := by
    simp [FieldBuffers.of, Masked.text]
  have hzip : ∀ l : List Masked, List.zipWith (fun text literal => ⟨text, literal.any id, literal⟩)
      (l.map Masked.text) (l.map Masked.byteMask) = l.map ExpandedWord.of := by
    intro l
    induction l with
    | nil => rfl
    | cons m l ih =>
      simp only [List.map_cons, List.zipWith_cons_cons, ih, any_byteMask, ExpandedWord.of]
  have hall := hzip (f.before ++ [f.last])
  rw [List.map_append, List.map_append] at hall
  have hhad : (FieldBuffers.of f).hadText = f.hadText := rfl
  unfold FieldBuffers.words
  rw [hnil.1, hnil.2, hhad]
  dsimp only
  by_cases hnone : (!f.hadText && f.before.isEmpty && f.last.isEmpty) = true
  · rw [if_pos hnone, if_pos hnone]
    rfl
  · rw [if_neg hnone, if_neg hnone]
    exact hall

theorem flagWordArgv_eq (w : Word) (s : ShellState) :
    flagWordArgv x w s =
      ((expandWordArgv x w s).1, (expandWordArgv x w s).2.map ExpandedWord.of) := by
  unfold flagWordArgv expandWordArgv
  simp only [flagMulti, expandWordMulti, flagWord_eq, words_of]
  by_cases hmulti : partsHaveMultiField w.parts = true
  · rw [if_pos hmulti, if_pos hmulti]
    by_cases hany : (collectMultiAtoms x false 0 w.parts s).2.any MultiAtom.isFields = true
    · rw [if_pos hany, if_pos hany]
    · rw [if_neg hany, if_neg hany]
      rfl
  · rw [if_neg hmulti, if_neg hmulti]
    rfl

/-- **The two buffers.**  The words that `expand_words_argv` returns are those of the masked
    texts. -/
theorem flagWordsArgv_eq (ws : List Word) (s : ShellState) :
    flagWordsArgv x ws s =
      ((expandWordsArgv x ws s).1, (expandWordsArgv x ws s).2.map ExpandedWord.of) := by
  induction ws generalizing s with
  | nil => rfl
  | cons w ws ih =>
    simp only [flagWordsArgv, expandWordsArgv, flagWordArgv_eq, ih, List.map_append]

end

/-! ## 3. The bytes that were quoted -/

section

variable (x : Expander)

/-- A text after its tilde was expanded. -/
def homeTraced (t : Traced) (s : ShellState) : Traced :=
  if isTildeText t.text then
    match s.getVar "HOME" with
    | some home => .ofText .value home.toList ++ t.drop 1
    | none => t
  else t

/-- The words of a word with the origins of their characters. -/
def sources (w : Word) (s : ShellState) : List Traced :=
  let parts := w.parts.map (·, false)
  if partsHaveMultiField w.parts then
    let atoms := traceAtoms x parts s
    if atoms.2.any (·.1.isFields) then tracedFields atoms.2
    else
      let single := traceParts x parts (s.after atoms.1)
      [homeTraced single.2 ((s.after atoms.1).after single.1)]
  else
    let single := traceParts x parts s
    [homeTraced single.2 (s.after single.1)]

/-- The words of a command with the origins of their characters. -/
def commandSources : List Word → ShellState → List Traced
  | [], _ => []
  | w :: ws, s => sources x w s ++ commandSources ws (s.after (flagWordArgv x w s).1)

/-- The tilde of a text is expanded, and quoted text follows it. -/
def clearsFlags (t : Traced) (s : ShellState) : Bool :=
  isTildeText t.text && (s.getVar "HOME").isSome && Traced.hasQuoted (t.drop 1)

/-- Quoted text follows a tilde that is expanded, in a word of one field. -/
def wordClearsFlags (w : Word) (s : ShellState) : Bool :=
  let parts := w.parts.map (·, false)
  if partsHaveMultiField w.parts then
    let atoms := traceAtoms x parts s
    if atoms.2.any (·.1.isFields) then false
    else
      let single := traceParts x parts (s.after atoms.1)
      clearsFlags single.2 ((s.after atoms.1).after single.1)
  else
    let single := traceParts x parts s
    clearsFlags single.2 (s.after single.1)

/-- No word of a command has quoted text after a tilde that is expanded. -/
def keepsFlags : List Word → ShellState → Bool
  | [], _ => true
  | w :: ws, s => !wordClearsFlags x w s && keepsFlags ws (s.after (flagWordArgv x w s).1)

end

/-- The word has the text, a flag for each byte of it, and the flags of the quoted bytes are
    set. -/
def ExpandedWord.Flags (e : ExpandedWord) (t : Traced) : Prop :=
  e.text = t.text ∧ e.literal.length = Utf8.size e.text ∧
    ∀ k : Nat, t.mask.byteMask[k]? = some true → e.literal[k]? = some true

theorem flags_of_mask (t : Traced) : (ExpandedWord.of t.mask).Flags t :=
  ⟨t.text_mask, length_byteMask t.mask, fun _ h => h⟩

theorem hasQuoted_iff (t : Traced) :
    t.hasQuoted = true ↔ ∃ k : Nat, t.mask.byteMask[k]? = some true := by
  rw [← Traced.wasQuoted_mask, ← any_byteMask, List.any_eq_true]
  constructor
  · rintro ⟨b, hmem, hb⟩
    rcases List.getElem?_of_mem hmem with ⟨k, hk⟩
    exact ⟨k, hk.trans (congrArg some hb)⟩
  · rintro ⟨k, hk⟩
    exact ⟨true, List.mem_of_getElem? hk, rfl⟩

theorem hasQuoted_append (t u : Traced) :
    (t ++ u : Traced).hasQuoted = (t.hasQuoted || u.hasQuoted) := List.any_append

/-- Cleared flags are right only where nothing was quoted. -/
theorem flags_cleared_iff (t : Traced) :
    (ExpandedWord.of (.ofText false t.text)).Flags t ↔ t.hasQuoted = false := by
  have hlen : (Masked.ofText false t.text).byteMask.length = Utf8.size t.text := by
    rw [byteMask_ofText, List.length_replicate]
  rw [← Bool.not_eq_true, hasQuoted_iff, not_exists]
  constructor
  · rintro ⟨-, -, hflags⟩ k hk
    have hset := hflags k hk
    simp only [ExpandedWord.of, byteMask_ofText] at hset
    have hmem := List.mem_of_getElem? hset
    exact Bool.false_ne_true (List.eq_of_mem_replicate hmem).symm
  · intro hnone
    refine ⟨Masked.text_ofText false t.text, ?_, fun k hk => absurd hk (hnone k)⟩
    rw [ExpandedWord.of, Masked.text_ofText]
    exact hlen

theorem flags_homeTraced_iff (t : Traced) (s : ShellState) :
    (ExpandedWord.of (expandTilde t.mask s)).Flags (homeTraced t s) ↔ clearsFlags t s = false := by
  unfold expandTilde homeTraced clearsFlags
  rw [Traced.text_mask]
  by_cases htilde : isTildeText t.text = true
  · rw [if_pos htilde, if_pos htilde, htilde, Bool.true_and]
    cases s.getVar "HOME" with
    | none => exact ⟨fun _ => rfl, fun _ => flags_of_mask t⟩
    | some home =>
      have htext : home.toList ++ t.text.drop 1 =
          (Traced.ofText .value home.toList ++ t.drop 1 : Traced).text := by
        rw [Traced.text_append, Traced.text_ofText]
        simp [Traced.text]
      have hvalue : (Traced.ofText .value home.toList).hasQuoted = false := by
        simp [Traced.hasQuoted, Traced.ofText]
      dsimp only
      rw [htext, flags_cleared_iff, hasQuoted_append, hvalue]
      rfl
  · rw [if_neg htilde, if_neg htilde, Bool.eq_false_of_not_eq_true htilde, Bool.false_and, Bool.false_and]
    exact ⟨fun _ => rfl, fun _ => flags_of_mask t⟩

section

variable {x : Expander}

/-- The masked texts of a word, against the origins of their characters. -/
theorem expandWordArgv_cases (w : Word) (s : ShellState) :
    (wordClearsFlags x w s = false ∧
        (expandWordArgv x w s).2 = (sources x w s).map Traced.mask) ∨
      ∃ t s', (expandWordArgv x w s).2 = [expandTilde t.mask s'] ∧
        sources x w s = [homeTraced t s'] ∧ wordClearsFlags x w s = clearsFlags t s' := by
  have hparts : (w.parts.map (·, false)).map Prod.fst = w.parts := by
    rw [List.map_map]
    exact List.map_id w.parts
  have hsingle : ∀ s, (expandWordMasked x w s).2 =
      expandTilde (traceParts x (w.parts.map (·, false)) s).2.mask
        (s.after (traceParts x (w.parts.map (·, false)) s).1) := by
    intro s
    have hmask := traceParts_mask (x := x) (w.parts.map (·, false)) s
    rw [hparts] at hmask
    unfold expandWordMasked
    rw [hmask]
  have hatoms := traceAtoms_atoms (x := x) (w.parts.map (·, false)) s
  rw [hparts] at hatoms
  have hfields : (collectMultiAtoms x false 0 w.parts s).2.any MultiAtom.isFields =
      (traceAtoms x (w.parts.map (·, false)) s).2.any (·.1.isFields) := by
    rw [hatoms.1, List.any_map]
    rfl
  unfold expandWordArgv sources wordClearsFlags
  simp only [expandWordMulti, hfields]
  rw [hatoms.1]
  by_cases hmulti : partsHaveMultiField w.parts = true
  · simp only [if_pos hmulti]
    by_cases hany : (traceAtoms x (w.parts.map (·, false)) s).2.any (·.1.isFields) = true
    · left
      simp only [if_pos hany, true_and]
      exact multiFields_eq _ hatoms.2
    · right
      simp only [if_neg hany]
      exact ⟨_, _, congrArg (fun m => [m]) (hsingle _), rfl, rfl⟩
  · right
    simp only [if_neg hmulti]
    exact ⟨_, _, congrArg (fun m => [m]) (hsingle s), rfl, rfl⟩

theorem flags_word_iff (w : Word) (s : ShellState) :
    List.Forall₂ ExpandedWord.Flags (flagWordArgv x w s).2 (sources x w s) ↔
      wordClearsFlags x w s = false := by
  rw [flagWordArgv_eq]
  rcases expandWordArgv_cases (x := x) w s with ⟨hclears, hfields⟩ | ⟨t, s', hone, hsource, hclears⟩
  · rw [hfields, hclears, List.map_map, List.forall₂_map_left_iff, List.forall₂_same]
    exact ⟨fun _ => rfl, fun _ t _ => flags_of_mask t⟩
  · rw [hone, hsource, hclears, List.map_singleton, List.forall₂_cons]
    simp only [List.Forall₂.nil, and_true]
    exact flags_homeTraced_iff t s'

theorem length_sources (w : Word) (s : ShellState) :
    (flagWordArgv x w s).2.length = (sources x w s).length := by
  rw [flagWordArgv_eq]
  rcases expandWordArgv_cases (x := x) w s with ⟨-, hfields⟩ | ⟨t, s', hone, hsource, -⟩
  · rw [hfields, List.length_map, List.length_map]
  · rw [hone, hsource]
    rfl

theorem forall₂_append_iff {α β : Type} {R : α → β → Prop} {as as' : List α} {bs bs' : List β}
    (hlen : as.length = bs.length) :
    List.Forall₂ R (as ++ as') (bs ++ bs') ↔ List.Forall₂ R as bs ∧ List.Forall₂ R as' bs' := by
  induction as generalizing bs with
  | nil =>
    rw [List.eq_nil_of_length_eq_zero hlen.symm]
    simp
  | cons a as ih =>
    cases bs with
    | nil => cases hlen
    | cons b bs =>
      rw [List.cons_append, List.cons_append, List.forall₂_cons, List.forall₂_cons,
        ih (Nat.succ.inj hlen), and_assoc]

end

end Wasmsh.Expand

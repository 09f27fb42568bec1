import Wasmsh.Leaves
import Wasmsh.Variables

/-!
# The words of a `for` list and the words of a command

`expand_for_words` walks over the parts of its words itself, runs the substitutions it meets
and splits what is not quoted; `execute_exec` runs all substitutions first and does not split.
Then the list has braces and pathnames expanded as plain texts, the command with its quoting
mask.  The module says when the loop variable takes the arguments that the command gets.
-/

namespace Wasmsh.Expand

open Braces Globs Interp Bounded

/-! ## 1. Braces and pathnames of a field -/

/-- A pair of braces in the text stands for something. -/
def opensBrace (t : List Char) : Bool :=
  match findBracePair t with
  | none => false
  | some (start, stop) => (braceItems ((t.drop (start + 1)).take (stop - start - 1))).isSome

theorem expandBraces_of_not_opens {t : List Char} (h : opensBrace t = false) :
    expandBraces t = [t] := by
  unfold opensBrace at h
  unfold expandBraces expandBracesFrom
  cases hpair : findBracePair t with
  | none => rfl
  | some found =>
    rw [hpair] at h
    dsimp only at h ⊢
    rw [Option.isSome_eq_false_iff, Option.isNone_iff_eq_none] at h
    rw [h]

/-- ASCII, and nothing that is quoted is special in a pattern. -/
def quotesPlain (m : Masked) : Bool :=
  m.all fun e => decide (e.1.toNat < 0x80) && !(e.2 && ['*', '?', '[', '\\'].contains e.1)

/-- A field with quoted characters has the same pathname expansion with its mask and
    without: there is none, nothing in the text is special, or what is special is not quoted
    and stands in the last component (or `nullglob` is off), and `**` does not count. -/
def pathsAgree (o : GlobOptions) (m : Masked) : Bool :=
  o.noglob || (!isGlobPattern o m.text && !activeGlob (Utf8.encode m.text) m.byteMask) ||
    (quotesPlain m && isGlobPattern o m.text && pathSegmentHasGlob m.text &&
      !(o.globstar && mentionsGlobstar m.text) &&
      match splitLastSlash m.text with
      | none => true
      | some (dirPart, _) => !pathSegmentHasGlob dirPart || !o.nullglob)

def fieldAgrees (o : GlobOptions) (m : Masked) : Bool :=
  !m.wasQuoted || (!opensBrace m.text && pathsAgree o m)

section

variable {m : Masked}

theorem ascii_of_quotesPlain (h : quotesPlain m = true) : ∀ c ∈ m.text, c.toNat < 0x80 := by
  intro c hc
  rcases List.mem_map.mp hc with ⟨e, he, rfl⟩
  have hall := List.all_eq_true.mp h e he
  rw [Bool.and_eq_true] at hall
  exact of_decide_eq_true hall.1

/-- The flags of the bytes of an ASCII text. -/
theorem byteMask_of_quotesPlain (h : quotesPlain m = true) : m.byteMask = m.map (·.2) := by
  induction m with
  | nil => rfl
  | cons e m ih =>
    have hascii := ascii_of_quotesPlain h e.1 (List.mem_map_of_mem (.head _))
    rw [quotesPlain, List.all_cons, Bool.and_eq_true] at h
    simp only [Masked.byteMask, List.flatMap_cons, Utf8.encodeChar_of_ascii hascii, List.map_cons]
    rw [← Masked.byteMask, ih h.2]
    rfl

theorem activeGlob_of_quotesPlain (h : quotesPlain m = true) :
    activeGlob m.text (m.map (·.2)) = pathSegmentHasGlob m.text := by
  have hany : ∀ t : List Char, pathSegmentHasGlob t =
      t.any fun c => c == '*' || c == '?' || c == '[' := by
    intro t
    rw [pathSegmentHasGlob, Bool.eq_iff_iff]
    simp only [Bool.or_eq_true, List.contains_iff_mem, List.any_eq_true, beq_iff_eq]
    constructor
    · rintro ((h | h) | h)
      · exact ⟨'*', h, Or.inl (Or.inl rfl)⟩
      · exact ⟨'?', h, Or.inl (Or.inr rfl)⟩
      · exact ⟨'[', h, Or.inr rfl⟩
    · rintro ⟨c, hc, (rfl | rfl) | rfl⟩
      · exact Or.inl (Or.inl hc)
      · exact Or.inl (Or.inr hc)
      · exact Or.inr hc
  rw [hany]
  induction m with
  | nil => rfl
  | cons e m ih =>
    rw [quotesPlain, List.all_cons, Bool.and_eq_true] at h
    have he := h.1
    simp only [Bool.and_eq_true, Bool.not_eq_true', Bool.and_eq_false_iff] at he
    simp only [Masked.text, List.map_cons, activeGlob, List.headD_cons, List.tail_cons,
      List.any_cons]
    rw [← Masked.text, ih h.2]
    rcases he.2 with hq | hspecial
    · rw [hq]
      simp
    · have hnone : (e.1 == '*' || e.1 == '?' || e.1 == '[') = false := by
        simp at hspecial ⊢
        exact ⟨⟨hspecial.1, hspecial.2.1⟩, hspecial.2.2.1⟩
      rw [hnone, Bool.and_false]

theorem escape_of_quotesPlain (h : quotesPlain m = true) :
    escapeMaskedMetachars m.text (m.map (·.2)) = m.text := by
  induction m with
  | nil => rfl
  | cons e m ih =>
    rw [quotesPlain, List.all_cons, Bool.and_eq_true] at h
    have he := h.1
    rw [Bool.and_eq_true, Bool.not_eq_true'] at he
    simp only [Masked.text, List.map_cons, escapeMaskedMetachars, List.headD_cons,
      List.tail_cons, he.2, Bool.false_eq_true, if_false, List.singleton_append]
    rw [← Masked.text, ih h.2]

theorem pathSegmentHasGlob_slash (t : List Char) :
    pathSegmentHasGlob (t ++ ['/']) = pathSegmentHasGlob t := by
  simp [pathSegmentHasGlob]

theorem quotesPlain_append {m m' : Masked} :
    quotesPlain (m ++ m') = (quotesPlain m && quotesPlain m') := List.all_append

/-- With its mask the field has the same pathnames as without. -/
theorem expandTagged_of_pathsAgree {fs : Files} {o : GlobOptions} {cwd : List Char} {depth : Nat}
    (hquoted : m.wasQuoted = true) (h : pathsAgree o m = true) (ho : o.noglob = false) :
    expandTagged fs o cwd depth ⟨m.text, true, m.byteMask⟩ =
      expandGlobArg fs o cwd depth m.text := by
  have hlen : m.byteMask.length = (Utf8.encode m.text).length := length_byteMask m
  rw [pathsAgree, ho, Bool.false_or, Bool.or_eq_true] at h
  simp only [expandTagged, hlen, ne_eq, not_true_eq_false, if_false, any_byteMask, hquoted,
    if_true]
  unfold expandMaskedGlobArg expandGlobArg
  rw [if_neg (not_not_intro hlen)]
  rcases h with h | h
  · rw [Bool.and_eq_true, Bool.not_eq_true', Bool.not_eq_true'] at h
    simp [h.1, h.2]
  · simp only [Bool.and_eq_true, Bool.not_eq_true'] at h
    rcases h with ⟨⟨⟨⟨hplain, hglob⟩, hactive⟩, hstar⟩, hdir⟩
    have henc : Utf8.encode m.text = m.text := Utf8.encode_of_ascii (ascii_of_quotesPlain hplain)
    rw [henc, byteMask_of_quotesPlain hplain, activeGlob_of_quotesPlain hplain, hactive, hglob,
      hstar]
    simp only [Bool.not_true, Bool.false_eq_true, if_false]
    unfold expandStandardGlobArg
    cases hsplit : splitLastSlash m.text with
    | none =>
      dsimp only
      rw [escape_of_quotesPlain hplain]
    | some parts =>
      rcases parts with ⟨dirPart, last⟩
      rw [hsplit] at hdir
      dsimp only at hdir ⊢
      rcases splitLastSlash_spec hsplit with ⟨before, rfl, htext⟩
      -- the mask splits where the text does
      rcases List.map_eq_append_iff.mp htext with ⟨md, ml, rfl, hmd, hml⟩
      rcases List.map_eq_append_iff.mp hmd with ⟨mb, ms, rfl, hmb, hms⟩
      have hlast : ms.length = 1 := by
        simpa using congrArg List.length hms
      have hlengths : before.length = mb.length := by
        simpa using (congrArg List.length hmb).symm
      rw [quotesPlain_append, quotesPlain_append, Bool.and_eq_true, Bool.and_eq_true] at hplain
      have hslash : (before ++ ['/']).length - 1 = (mb.map (·.2)).length := by
        simp [hlengths]
      have hdirtext : Masked.text mb = before := hmb
      have htake : (Masked.text (mb ++ ms ++ ml)).take ((before ++ ['/']).length - 1) =
          Masked.text mb := by
        rw [hslash]
        simp [Masked.text]
      have htakemask : ((mb ++ ms ++ ml).map (·.2)).take ((before ++ ['/']).length - 1) =
          mb.map (·.2) := by
        rw [hslash]
        simp
      have hdropmask : ((mb ++ ms ++ ml).map (·.2)).drop (before ++ ['/']).length =
          ml.map (·.2) := by
        rw [List.map_append, List.drop_left']
        simp [hlengths, hlast]
      have hdecode : Utf8.decode (before ++ ['/']) = before ++ ['/'] := by
        have hascii : ∀ c ∈ before ++ ['/'], c.toNat < 0x80 := by
          intro c hc
          rcases List.mem_append.mp hc with hc | hc
          · rw [← hdirtext] at hc
            exact ascii_of_quotesPlain hplain.1.1 c hc
          · rcases List.mem_singleton.mp hc with rfl
            decide
        have hencode := Utf8.decode_encode (before ++ ['/'])
        rwa [Utf8.encode_of_ascii hascii] at hencode
      have hlasttext : Masked.text ml = last := hml
      rw [htake, htakemask, hdropmask, activeGlob_of_quotesPlain hplain.1.1, hdirtext,
        pathSegmentHasGlob_slash, hdecode, ← hlasttext, escape_of_quotesPlain hplain.2]
      by_cases hbefore : pathSegmentHasGlob before = true
      · rw [if_pos hbefore, if_pos hbefore]
        rw [pathSegmentHasGlob_slash, hbefore, Bool.not_true, Bool.false_or,
          Bool.not_eq_true'] at hdir
        simp [finalizeGlobMatches, hdir]
      · rw [if_neg hbefore, if_neg hbefore]

/-- The field gives the same arguments in the list and in the command. -/
theorem expand_of_fieldAgrees {fs : Files} {o : GlobOptions} {cwd : List Char} {depth : Nat}
    (h : fieldAgrees o m = true) :
    (braceWords m).map (·.text) = expandBraces m.text ∧
      (o.noglob = false → (braceWords m).flatMap (expandTagged fs o cwd depth) =
        (expandBraces m.text).flatMap (expandGlobArg fs o cwd depth)) := by
  unfold braceWords
  by_cases hquoted : m.wasQuoted = true
  · rw [fieldAgrees, hquoted, Bool.not_true, Bool.false_or, Bool.and_eq_true,
      Bool.not_eq_true'] at h
    rw [if_pos hquoted, expandBraces_of_not_opens h.1]
    refine ⟨rfl, ?_⟩
    intro ho
    simp only [List.flatMap_cons, List.flatMap_nil, List.append_nil]
    exact expandTagged_of_pathsAgree hquoted h.2 ho
  · rw [if_neg hquoted]
    constructor
    · simp [Function.comp_def]
    · intro _
      rw [List.flatMap_map]
      simp only [expandTagged_unquoted]

end

/-! ## 2. The two runs -/

/-- A part that holds no other; an arithmetic expression has no substitution in it. -/
def plainPart {W P : Type} (h : Host W P) : WordPart → Bool
  | .literal _ => true
  | .singleQuoted _ => true
  | .parameter _ => true
  | .commandSubstitution _ => true
  | .arithmetic e => (h.arithSubsts e).isEmpty && h.resolveArith e [] == e
  | _ => false

/-- Double quotes hold plain parts only, and there is no process substitution. -/
def plainWord {W P : Type} (h : Host W P) (w : Word) : Bool :=
  w.parts.all fun
    | .doubleQuoted qs => qs.all (plainPart h)
    | p => plainPart h p

/-- The two runs before the leaves `rest`: the files are the same, and as long as a
    substitution is to come, everything is. -/
structure InStep {W : Type} (u v : Runtime W) (rest : Readings) : Prop where
  world : u.world = v.world
  same : (∃ e ∈ rest, e.1.substituted = true) → u = v

/-- No substitution is run after an expansion has written to a variable. -/
def Orderly (rs : Readings) : Prop :=
  rs.Pairwise fun e e' => e'.1.substituted = true → e.2.ops = []

section

variable {W P : Type} {h : Host W P} {x : Expander} {files : W → Files} {depth : Nat}
  {r : Recs W P}

/-- A substitution leaves the variables alone. -/
theorem executeSubst_state {h : Host W P} {inner out : List Char} {s t : Runtime W}
    (hok : executeSubst h r inner s = .ok (out, t)) : t.state = s.state := by
  have hmerge : ∀ (events : Drained) (u : Runtime W), (mergeSubEvents h u events).state =
      u.state := by
    intro events
    induction events with
    | nil => intro u; rfl
    | cons e events ih =>
      intro u
      have hstep := ih (u.write h e.1 e.2)
      rw [write_state] at hstep
      exact hstep
  rcases bind_eq_ok.mp hok with ⟨⟨events, u⟩, hrun, hret⟩
  cases hret
  rcases bind_eq_ok.mp hrun with ⟨t₁, -, hrun⟩
  rcases bind_eq_ok.mp hrun with ⟨⟨events₁, t₂⟩, -, hrun⟩
  rcases bind_eq_ok.mp hrun with ⟨⟨events₂, t₃⟩, -, hret⟩
  cases hret
  exact hmerge _ _

theorem pushElements_seen (f : ForFields) (es : List (List Char)) :
    (pushElements f es).quotedSeen = f.quotedSeen := by
  cases es with
  | nil => rfl
  | cons e es => rw [pushElements_eq]

theorem splitUnquoted_seen (ifs t : List Char) (f : ForFields) :
    (splitUnquoted ifs t f).quotedSeen = f.quotedSeen := by
  have hpieces : ∀ (pieces : List (List Char)) (f : ForFields),
      (pushPieces f pieces).quotedSeen = f.quotedSeen := by
    intro pieces
    induction pieces with
    | nil => intro f; rfl
    | cons piece pieces ih =>
      intro f
      rw [pushPieces, List.foldl_cons, ← pushPieces, ih]
      split <;> rfl
  unfold splitUnquoted
  split
  · rfl
  · split
    · rfl
    · exact hpieces _ _

/-- A leaf in `split_for_parts`. -/
theorem splitPart_leaf {p p' : WordPart} (hleaf : ResolvesLeaf p p') {out : List Char}
    (hout : isSubstitution p = true → p' = .literal out) (ifs : List Char) {inside : Bool}
    {f : ForFields} (hseen : inside = true → f.quotedSeen = true) (s : ShellState)
    (hquiet : inside = true → (readPart x p' s).elements.isSome → (readPart x p' s).ops = []) :
    (if inside then splitQuotedPart x p out f s else splitUnquotedPart x ifs p out f s) =
      ((readPart x p' s).ops,
        forStep ifs f (⟨p', inside, isSubstitution p⟩, readPart x p' s)) := by
  have hkeep : ∀ (g : ForFields) (b : Bool), g.quotedSeen = b →
      ({ g with quotedSeen := b } : ForFields) = g := by
    rintro ⟨c, o, q⟩ b rfl
    rfl
  have hvalue : ∀ p, expandWord x ⟨[p]⟩ s = ((expandPart x p s).1,
      expandTildeText (expandPart x p s).2 (s.after (expandPart x p s).1)) := by
    intro p
    simp [expandWord, expandParts]
  cases inside with
  | true =>
    have hq := hseen rfl
    rw [if_pos rfl]
    -- the flag of the quotes is set already
    have hstep : forStep ifs f (⟨p', true, isSubstitution p⟩, readPart x p' s) =
        (readPart x p' s).elements.elim { f with current := f.current ++ (readPart x p' s).taken }
          (pushElements f) := by
      unfold forStep
      rw [if_pos rfl]
      cases (readPart x p' s).elements with
      | none => exact hkeep _ _ (by simp [hq, Leaf.isQuoted])
      | some es => exact hkeep _ _ (by simp [hq, Leaf.isQuoted, pushElements_seen])
    rw [hstep]
    cases hleaf with
    | parameter name =>
      have hops := hquiet rfl
      simp only [readPart] at hops
      simp only [splitQuotedPart, readPart]
      cases hes : arrayMultiExpansion name s with
      | none =>
        rw [hvalue, expandPart]
        rfl
      | some es =>
        rw [hes] at hops
        rw [hops rfl]
        rfl
    | arithmetic e =>
      simp only [splitQuotedPart, readPart, hvalue, expandPart]
      rfl
    | substitution inner out' =>
      cases hout rfl
      rfl
    | _ => rfl
  | false =>
    have hplain : ∀ t, ({ f with current := f.current ++ t } : ForFields) =
        { ({ f with current := f.current ++ t } : ForFields) with
          quotedSeen := f.quotedSeen || false } := by
      intro t
      rw [Bool.or_false]
    rw [if_neg Bool.false_ne_true]
    cases hleaf with
    | literal t => exact Prod.ext rfl (hplain t)
    | singleQuoted t =>
      refine Prod.ext rfl ?_
      simp [splitUnquotedPart, forStep, readPart, Leaf.isValue, Leaf.isQuoted, isSubstitution]
    | parameter name | arithmetic e =>
      refine Prod.ext (by simp only [splitUnquotedPart, readPart, hvalue, expandPart]) ?_
      simp only [splitUnquotedPart, hvalue, expandPart]
      exact (hkeep _ _ (by simp [splitUnquoted_seen, Leaf.isQuoted])).symm
    | substitution inner out' =>
      cases hout rfl
      refine Prod.ext rfl ?_
      simp only [splitUnquotedPart]
      exact (hkeep _ _ (by simp [splitUnquoted_seen, Leaf.isQuoted])).symm

/-- Elements inside double quotes are read without a write. -/
def insideQuiet (rs : Readings) : Prop :=
  ∀ e ∈ rs, e.1.inside = true → e.2.elements.isSome → e.2.ops = []

/-- A leaf in the two runs. -/
theorem leaf_inStep {p p' : WordPart} {ifs : List Char} {inside : Bool} {f g : ForFields}
    {u u' v v' : Runtime W} {rest : Readings} (hplain : plainPart h p = true)
    (hres : resolvePart (h.shell x files depth) r p v = .ok (p', v'))
    (hrun : Interp.splitForPart (h.shell x files depth) r ifs inside p f u = .ok (g, u'))
    (hseen : inside = true → f.quotedSeen = true)
    (hin : InStep u v ((⟨p', inside, isSubstitution p⟩, readPart x p' u.state) :: rest))
    (hord : Orderly ((⟨p', inside, isSubstitution p⟩, readPart x p' u.state) :: rest))
    (hquiet : insideQuiet [(⟨p', inside, isSubstitution p⟩, readPart x p' u.state)]) :
    ResolvesLeaf p p' ∧
      g = forStep ifs f (⟨p', inside, isSubstitution p⟩, readPart x p' u.state) ∧
      u.state.applyAll (readPart x p' u.state).ops = some u'.state ∧ InStep u' v' rest ∧
      v'.state = v.state := by
  have hq := hquiet _ (List.mem_singleton_self _)
  rcases bind_eq_ok.mp hrun with ⟨⟨out, u₁⟩, hsubst, hrun⟩
  rcases bind_eq_ok.mp hrun with ⟨u₂, happly, hret⟩
  cases hret
  by_cases hsubstitution : isSubstitution p = true
  · -- both run the substitution, from the same state
    cases p with
    | commandSubstitution inner =>
      have huv := hin.same ⟨_, .head _, rfl⟩
      subst huv
      rcases bind_eq_ok.mp hres with ⟨⟨out', v₁⟩, hsubst', hret⟩
      have hboth := Except.ok.inj (hsubst'.symm.trans hsubst)
      rw [Prod.mk.injEq] at hboth
      rcases hboth with ⟨rfl, rfl⟩
      have hpair := Except.ok.inj hret
      rw [Prod.mk.injEq] at hpair
      rcases hpair with ⟨rfl, rfl⟩
      have hstate := executeSubst_state hsubst
      have hleaf : ResolvesLeaf (.commandSubstitution inner) (.literal out') :=
        .substitution inner out'
      have hsplit := @splitPart_leaf x _ _ hleaf out' (fun _ => rfl) ifs inside f hseen
        v₁.state hq
      simp only [Host.shell] at happly ⊢
      rw [hsplit] at happly ⊢
      have hops := Runtime.applyOps_ok happly
      have hu₂ := hops.2.2 rfl
      rw [hu₂]
      exact ⟨hleaf, rfl, congrArg some hstate.symm, ⟨rfl, fun _ => rfl⟩, hstate⟩
    | _ => cases hsubstitution
  · -- neither runs anything
    have hsame : p' = p ∧ v' = v ∧ ResolvesLeaf p p := by
      cases p with
      | literal t => cases hres; exact ⟨rfl, rfl, .literal t⟩
      | singleQuoted t => cases hres; exact ⟨rfl, rfl, .singleQuoted t⟩
      | parameter name => cases hres; exact ⟨rfl, rfl, .parameter name⟩
      | arithmetic e =>
        simp only [plainPart, Bool.and_eq_true, List.isEmpty_iff, beq_iff_eq] at hplain
        simp only [resolvePart, Host.shell, hplain.1] at hres
        rcases bind_eq_ok.mp hres with ⟨⟨outs, v₁⟩, hsubsts, hret⟩
        cases hsubsts
        cases hret
        exact ⟨congrArg WordPart.arithmetic hplain.2, rfl, .arithmetic e⟩
      | commandSubstitution inner => exact absurd rfl hsubstitution
      | doubleQuoted qs => cases hplain
      | processSubstIn t => cases hplain
      | processSubstOut t => cases hplain
    rcases hsame with ⟨rfl, rfl, hleaf⟩
    have hstill : out = [] ∧ u₁ = u := by
      cases p' with
      | commandSubstitution inner => exact absurd rfl hsubstitution
      | _ => cases hsubst; exact ⟨rfl, rfl⟩
    rcases hstill with ⟨rfl, rfl⟩
    have hsplit := @splitPart_leaf x _ _ hleaf [] (fun h => absurd h hsubstitution) ifs inside f
      hseen u₁.state hq
    simp only [Host.shell] at happly ⊢
    rw [hsplit] at happly ⊢
    have hops := Runtime.applyOps_ok happly
    refine ⟨hleaf, rfl, hops.1, ⟨hops.2.1.trans hin.world, ?_⟩, trivial⟩
    rintro ⟨e, he, hes⟩
    rw [hops.2.2 (List.rel_of_pairwise_cons hord he hes)]
    exact hin.same ⟨e, .tail _ he, hes⟩

theorem Orderly.tail {e : Leaf × Reading} {rs : Readings} (h : Orderly (e :: rs)) : Orderly rs :=
  List.Pairwise.of_cons h

theorem Orderly.right {rs rs' : Readings} (h : Orderly (rs ++ rs')) : Orderly rs' :=
  (List.pairwise_append.mp h).2.1

/-- The leaves inside double quotes in the two runs. -/
theorem inside_inStep {qs qs' : List WordPart} {ifs : List Char} {f g : ForFields}
    {u u' v v' : Runtime W} {rest : Readings} (hplain : qs.all (plainPart h) = true)
    (hres : resolveParts.resolveQuoted (h.shell x files depth) r qs v = .ok (qs', v'))
    (hrun : Interp.splitQuotedParts (h.shell x files depth) r ifs qs f u = .ok (g, u'))
    (hseen : f.quotedSeen = true)
    (hin : InStep u v (readings x (insideLeaves qs qs') u.state ++ rest))
    (hord : Orderly (readings x (insideLeaves qs qs') u.state ++ rest))
    (hquiet : insideQuiet (readings x (insideLeaves qs qs') u.state)) :
    List.Forall₂ ResolvesLeaf qs qs' ∧
      g = (readings x (insideLeaves qs qs') u.state).foldl (forStep ifs) f ∧
      u.state.applyAll (readings x (insideLeaves qs qs') u.state).ops = some u'.state ∧
      InStep u' v' rest ∧ v'.state = v.state := by
  induction qs generalizing qs' f u v with
  | nil =>
    cases hres
    cases hrun
    exact ⟨.nil, rfl, rfl, hin, rfl⟩
  | cons q qs ih =>
    rw [List.all_cons, Bool.and_eq_true] at hplain
    rcases bind_eq_ok.mp hres with ⟨⟨q', v₁⟩, hq, hres⟩
    rcases bind_eq_ok.mp hres with ⟨⟨rs', v₂⟩, hqs, hret⟩
    rcases bind_eq_ok.mp hrun with ⟨⟨f₁, u₁⟩, hpart, hrun⟩
    cases hret
    have hleaves : insideLeaves (q :: qs) (q' :: rs') =
        ⟨q', true, isSubstitution q⟩ :: insideLeaves qs rs' := rfl
    rw [hleaves] at hin hord hquiet ⊢
    rw [readings] at hin hord hquiet ⊢
    have hleaf := leaf_inStep hplain.1 hq hpart (fun _ => hseen) hin hord fun e he =>
      hquiet e (List.mem_cons.mpr (Or.inl (List.mem_singleton.mp he)))
    rcases hleaf with ⟨hleaf, hf₁, happ, hin₁, hstate⟩
    have hafter := ShellState.after_of_some happ
    dsimp only at hord hquiet hin₁ ⊢
    rw [hafter] at hord hquiet hin₁ ⊢
    have hseen₁ : f₁.quotedSeen = true := by
      rw [hf₁, forStep, hseen, Bool.true_or]
    rcases ih hplain.2 hqs hrun hseen₁ hin₁ hord.tail fun e he => hquiet e (.tail _ he) with
      ⟨hleaves', hg, hops, hin', hstate'⟩
    refine ⟨.cons hleaf hleaves', ?_, ?_, hin', hstate'.trans hstate⟩
    · rw [List.foldl_cons, ← hf₁, hg]
    · rw [Readings.ops_cons, ShellState.applyAll_append, happ]
      exact hops

/-- The parts of a word in the two runs. -/
theorem parts_inStep {ps ps' : List WordPart} {ifs : List Char} {f g : ForFields}
    {u u' v v' : Runtime W} {rest : Readings} (hplain : plainWord h ⟨ps⟩ = true)
    (hres : resolveParts (h.shell x files depth) r ps v = .ok (ps', v'))
    (hrun : Interp.splitForParts (h.shell x files depth) r ifs ps f u = .ok (g, u'))
    (hin : InStep u v (readings x (leaves ps ps') u.state ++ rest))
    (hord : Orderly (readings x (leaves ps ps') u.state ++ rest))
    (hquiet : insideQuiet (readings x (leaves ps ps') u.state)) :
    List.Forall₂ ResolvesPart ps ps' ∧
      g = (readings x (leaves ps ps') u.state).foldl (forStep ifs) f ∧
      u.state.applyAll (readings x (leaves ps ps') u.state).ops = some u'.state ∧
      InStep u' v' rest ∧ v'.state = v.state := by
  induction ps generalizing ps' f u v with
  | nil =>
    cases hres
    cases hrun
    exact ⟨.nil, rfl, rfl, hin, rfl⟩
  | cons p ps ih =>
    rw [plainWord, List.all_cons, Bool.and_eq_true] at hplain
    -- the part, with what is left of both runs
    have hstep : ∃ p' rs' v₁ u₁ f₁, ps' = p' :: rs' ∧
        resolveParts (h.shell x files depth) r ps v₁ = .ok (rs', v') ∧
        Interp.splitForParts (h.shell x files depth) r ifs ps f₁ u₁ = .ok (g, u') ∧
        ∀ rest, InStep u v (readings x (partLeaves p p') u.state ++ rest) →
          Orderly (readings x (partLeaves p p') u.state ++ rest) →
          insideQuiet (readings x (partLeaves p p') u.state) →
          ResolvesPart p p' ∧
            f₁ = (readings x (partLeaves p p') u.state).foldl (forStep ifs) f ∧
            u.state.applyAll (readings x (partLeaves p p') u.state).ops = some u₁.state ∧
            InStep u₁ v₁ rest ∧ v₁.state = v.state := by
      cases p with
      | doubleQuoted qs =>
        rcases bind_eq_ok.mp hres with ⟨⟨qs', v₁⟩, hqs, hres⟩
        rcases bind_eq_ok.mp hres with ⟨⟨rs', v₂⟩, hps, hret⟩
        rcases bind_eq_ok.mp hrun with ⟨⟨f₁, u₁⟩, hpart, hrun⟩
        cases hret
        refine ⟨.doubleQuoted qs', rs', v₁, u₁, f₁, rfl, hps, hrun, ?_⟩
        intro rest hin hord hquiet
        have hopen : readings x (partLeaves (.doubleQuoted qs) (.doubleQuoted qs')) u.state =
            (openingQuote, { ops := [], text := [], taken := [], elements := none }) ::
              readings x (insideLeaves qs qs') u.state := rfl
        rw [hopen] at hin hord hquiet ⊢
        have hin' : InStep u v (readings x (insideLeaves qs qs') u.state ++ rest) :=
          ⟨hin.world, fun ⟨e, he, hes⟩ => hin.same ⟨e, .tail _ he, hes⟩⟩
        rcases inside_inStep hplain.1 hqs hpart rfl hin' hord.tail
          (fun e he => hquiet e (.tail _ he)) with ⟨hleaves, hg, hops, hin₁, hstate⟩
        refine ⟨.quoted hleaves, ?_, hops, hin₁, hstate⟩
        rw [hg, List.foldl_cons]
        congr 1
        simp [forStep, openingQuote, Leaf.isValue, Leaf.isQuoted]
      | _ =>
        rcases bind_eq_ok.mp hres with ⟨⟨p', v₁⟩, hp, hres⟩
        rcases bind_eq_ok.mp hres with ⟨⟨rs', v₂⟩, hps, hret⟩
        rcases bind_eq_ok.mp hrun with ⟨⟨f₁, u₁⟩, hpart, hrun⟩
        cases hret
        refine ⟨p', rs', v₁, u₁, f₁, rfl, hps, hrun, ?_⟩
        intro rest hin hord hquiet
        rcases leaf_inStep hplain.1 hp hpart (fun h => by cases h) hin hord hquiet with
          ⟨hleaf, hf₁, happ, hin₁, hstate⟩
        refine ⟨.leaf hleaf, hf₁, ?_, hin₁, hstate⟩
        simpa [partLeaves, readings, Readings.ops] using happ
    rcases hstep with ⟨p', rs', v₁, u₁, f₁, rfl, hres, hrun, hpart⟩
    have hleaves : leaves (p :: ps) (p' :: rs') = partLeaves p p' ++ leaves ps rs' := rfl
    rw [hleaves, readings_append_after] at hin hord hquiet ⊢
    rw [List.append_assoc] at hin hord
    rcases hpart _ hin hord fun e he => hquiet e (List.mem_append_left _ he) with
      ⟨hp, hf₁, happ, hin₁, hstate⟩
    rw [afterLeaves_of_some happ] at hord hquiet hin₁ ⊢
    rcases ih hplain.2 hres hrun hin₁ hord.right fun e he =>
      hquiet e (List.mem_append_right _ he) with ⟨hps, hg, hops, hin', hstate'⟩
    refine ⟨.cons hp hps, ?_, ?_, hin', hstate'.trans hstate⟩
    · rw [List.foldl_append, ← hf₁, hg]
    · rw [Readings.ops_append, ShellState.applyAll_append, happ]
      exact hops

/-- The words in the two runs. -/
theorem words_inStep {ws ws' : List Word} {fields : List String} {u u' v v' : Runtime W}
    (hplain : ∀ w ∈ ws, plainWord h w = true)
    (hres : resolveCommandSubst (h.shell x files depth) r ws v = .ok (ws', v'))
    (hrun : splitForWords (h.shell x files depth) r ws u = .ok (fields, u'))
    (hin : InStep u v (listReadings x ws ws' u.state))
    (hord : Orderly (listReadings x ws ws' u.state))
    (hagree : wordsAgree x ws ws' u.state = true) :
    List.Forall₂ (fun w w' => List.Forall₂ ResolvesPart w.parts w'.parts) ws ws' ∧
      fields = (forTexts x ws ws' u.state).map String.ofList ∧
      u.state.applyAll (listReadings x ws ws' u.state).ops = some u'.state ∧
      u'.world = v'.world ∧ v'.state = v.state := by
  induction ws generalizing ws' fields u v with
  | nil =>
    cases hres
    cases hrun
    exact ⟨.nil, rfl, rfl, hin.world, rfl⟩
  | cons w ws ih =>
    rcases bind_eq_ok.mp hres with ⟨⟨parts, v₁⟩, hparts, hres⟩
    rcases bind_eq_ok.mp hres with ⟨⟨rest', v₂⟩, hws, hret⟩
    rcases bind_eq_ok.mp hrun with ⟨⟨first, u₁⟩, hword, hrun⟩
    rcases bind_eq_ok.mp hrun with ⟨⟨others, u₂⟩, hothers, hret'⟩
    rcases bind_eq_ok.mp hword with ⟨⟨f, u₃⟩, hsplit, hfirst⟩
    cases hret
    cases hret'
    cases hfirst
    have hleaves : listLeaves (w :: ws) (⟨parts⟩ :: rest') =
        leaves w.parts parts ++ listLeaves ws rest' := rfl
    rw [listReadings, hleaves, readings_append_after] at hin hord ⊢
    rw [wordsAgree, Bool.and_eq_true] at hagree
    rcases parts_inStep (hplain w (.head _)) hparts hsplit hin hord
      (quiet_of_wordAgrees hagree.1) with ⟨hp, hf, happ, hin₁, hstate⟩
    have hafter : u.state.after (wordReadings x w ⟨parts⟩ u.state).ops = u₁.state :=
      ShellState.after_of_some happ
    rw [afterLeaves_of_some happ] at hord hin₁ ⊢
    rw [hafter] at hagree
    rcases ih (fun w hw => hplain w (.tail _ hw)) hws hothers hin₁ hord.right hagree.2 with
      ⟨hrest, hothers, hops, hworld, hstate'⟩
    refine ⟨.cons hp hrest, ?_, ?_, hworld, hstate'.trans hstate⟩
    · rw [forTexts, hafter, List.map_append, hothers, hf]
      rfl
    · rw [Readings.ops_append, ShellState.applyAll_append, happ]
      exact hops

end

/-! ## 3. The values and the arguments -/

/-- The words, and what their substitutions were resolved to, are expanded by a `for` list as
    they are by a command. -/
structure ListAgrees {W P : Type} (h : Host W P) (x : Expander) (ws ws' : List Word)
    (s : ShellState) : Prop where
  plain : ∀ w ∈ ws, plainWord h w = true
  orderly : Orderly (listReadings x ws ws' s)
  words : wordsAgree x ws ws' s = true
  fields : ∀ m ∈ listFields x ws ws' s,
    fieldAgrees (.of (s.after (listReadings x ws ws' s).ops)) m = true

section

variable {W P : Type} (h : Host W P) (x : Expander) (files : W → Files) (depth : Nat)
  (r : Recs W P)

theorem expandForGlobs_eq {fs : Files} {s : ShellState} {ms : List Masked}
    (h : ∀ m ∈ ms, fieldAgrees (.of s) m = true) :
    expandForGlobs fs depth (ms.map Masked.text) s =
      expandGlobsTagged fs (.of s) s.cwd.toList depth (ms.flatMap braceWords) := by
  unfold expandForGlobs expandGlobs expandGlobsTagged
  by_cases ho : (GlobOptions.of s).noglob = true
  · rw [if_pos ho, if_pos ho, List.map_flatMap, List.flatMap_map]
    apply List.flatMap_congr
    intro m hm
    exact (@expand_of_fieldAgrees m fs _ [] depth (h m hm)).1.symm
  · rw [if_neg ho, if_neg ho]
    congr 1
    rw [List.flatMap_assoc, List.flatMap_map, List.flatMap_assoc]
    apply List.flatMap_congr
    intro m hm
    exact ((expand_of_fieldAgrees (h m hm)).2 (eq_false_of_ne_true ho)).symm

end

end Wasmsh.Expand

import Mathlib.Data.Bool.AllAny
import Wasmsh.Extglob

/-!
# Extended globs over plain text

In glob text without parentheses and bars, whose brackets are closed, the operators are
found again after every replacement.  For short names twenty repetitions are enough.
-/

namespace Wasmsh.Globs

open Wildcards

variable {x : List Char} {p : ExtglobPattern}

/-! ## 1. Plain text -/

/-- Glob text without a byte that belongs to the operators, and that is read alike in front
    of any other text. -/
structure IsPlainGlob (t : List Char) : Prop where
  open_not_mem : '(' ∉ t
  close_not_mem : ')' ∉ t
  bar_not_mem : '|' ∉ t
  closed : ∀ r, globReader.elements (t ++ r) = globReader.elements t ++ globReader.elements r

section

variable (P : List Char → Prop) (Q : ExtglobOp → Prop)

mutual

/-- All texts in a part satisfy `P` and all operators `Q`. -/
def ExtglobItem.All : ExtglobItem → Prop
  | .text t => P t
  | .op o alt alts => Q o ∧ PatternAll alt ∧ AlternativesAll alts

def PatternAll : List ExtglobItem → Prop
  | [] => True
  | i :: p => i.All ∧ PatternAll p

def AlternativesAll : List (List ExtglobItem) → Prop
  | [] => True
  | p :: ps => PatternAll p ∧ AlternativesAll ps

end

variable {P Q}

theorem patternAll_append {p q : ExtglobPattern} :
    PatternAll P Q (p ++ q) ↔ PatternAll P Q p ∧ PatternAll P Q q := by
  induction p with
  | nil =>
    rw [List.nil_append, PatternAll]
    exact ⟨fun h => ⟨trivial, h⟩, fun h => h.2⟩
  | cons i p ih => rw [List.cons_append, PatternAll, PatternAll, ih, and_assoc]

theorem AlternativesAll.of_mem {b : ExtglobPattern} {alts : List ExtglobPattern}
    (h : AlternativesAll P Q alts) (hb : b ∈ alts) : PatternAll P Q b := by
  induction alts with
  | nil => cases hb
  | cons a alts ih =>
    rcases List.mem_cons.mp hb with rfl | hb
    · exact h.1
    · exact ih h.2 hb

theorem AlternativesAll.flatten {l alts : List ExtglobPattern} (h : AlternativesAll P Q alts)
    (hl : ∀ b ∈ l, b ∈ alts) : PatternAll P Q l.flatten := by
  induction l with
  | nil => trivial
  | cons b l ih =>
    rw [List.flatten_cons, patternAll_append]
    exact ⟨h.of_mem (hl b (.head _)), ih fun c hc => hl c (.tail _ hc)⟩

/-- A replacement puts parts of the pattern in the place of others. -/
theorem Replaces.patternAll {p q : ExtglobPattern} (h : Replaces p q) (hp : PatternAll P Q p) :
    PatternAll P Q q := by
  cases h with
  | op _ hl =>
    rw [patternAll_append] at hp
    rcases hp with ⟨hpre, ⟨-, halts⟩, hsuf⟩
    rw [patternAll_append, patternAll_append]
    have hl := (ExtglobOp.attempts_sound hl).2.2
    exact ⟨⟨hpre, @AlternativesAll.flatten _ _ _ (_ :: _) halts hl⟩, hsuf⟩

theorem PatternAll.reaches {p q : ExtglobPattern} {name : List Char} (hp : PatternAll P Q p)
    (h : Relation.ReflTransGen (Tries name) p q) : PatternAll P Q q := by
  induction h with
  | refl => exact hp
  | tail _ hstep ih => exact hstep.replaces.patternAll ih

end

/-- A pattern over plain text. -/
abbrev PatternPlain (p : ExtglobPattern) : Prop := PatternAll IsPlainGlob (fun _ => True) p

/-- A pattern without a negation. -/
abbrev PatternPositive (p : ExtglobPattern) : Prop := PatternAll (fun _ => True) (· ≠ .neg) p

/-! ## 2. The operators are found again -/

/-- `find_matching_paren` passes over the text. -/
def IsBalanced (x : List Char) : Prop :=
  ∀ d r, findMatchingParen d (x ++ r) = (findMatchingParen d r).map fun e => (x ++ e.1, e.2)

/-- `split_alternatives` passes over the text, inside parentheses. -/
def IsInside (x : List Char) : Prop :=
  ∀ d r, splitAlternatives (d + 1) (x ++ r) =
    x.foldr consAlternative (splitAlternatives (d + 1) r)

/-- `split_alternatives` passes over the text everywhere. -/
def IsOneAlternative (x : List Char) : Prop :=
  ∀ d r, splitAlternatives d (x ++ r) = x.foldr consAlternative (splitAlternatives d r)

theorem IsBalanced.nil : IsBalanced [] := by
  intro d r
  rw [List.nil_append]
  cases findMatchingParen d r <;> rfl

theorem IsBalanced.append {x y : List Char} (hx : IsBalanced x) (hy : IsBalanced y) :
    IsBalanced (x ++ y) := by
  intro d r
  rw [List.append_assoc, hx, hy, Option.map_map]
  simp only [Function.comp_def, List.append_assoc]

theorem IsBalanced.of_not_mem (hopen : '(' ∉ x) (hclose : ')' ∉ x) :
    IsBalanced x := by
  induction x with
  | nil => exact .nil
  | cons c x ih =>
    have hc : c ≠ '(' := by
      rintro rfl
      exact hopen (.head _)
    have hc' : c ≠ ')' := by
      rintro rfl
      exact hclose (.head _)
    have hone : IsBalanced [c] := by
      intro d r
      rw [List.singleton_append, findMatchingParen.eq_5 _ _ _ hc (fun _ => hc') fun _ _ => hc']
      rfl
    exact hone.append (ih (fun h => hopen (.tail _ h)) fun h => hclose (.tail _ h))

theorem IsBalanced.parens (hx : IsBalanced x) : IsBalanced ('(' :: x ++ [')']) := by
  intro d r
  have hx := hx (d + 1) (')' :: r)
  simp only [List.cons_append, List.append_assoc, List.nil_append, findMatchingParen] at hx ⊢
  rw [hx, Option.map_map, Option.map_map]
  rfl

theorem IsOneAlternative.inside (hx : IsOneAlternative x) : IsInside x :=
  fun d r => hx (d + 1) r

theorem IsOneAlternative.nil : IsOneAlternative [] := fun _ _ => rfl

theorem IsOneAlternative.append {x y : List Char} (hx : IsOneAlternative x)
    (hy : IsOneAlternative y) : IsOneAlternative (x ++ y) := by
  intro d r
  rw [List.append_assoc, hx, hy, List.foldr_append]

theorem IsInside.append {x y : List Char} (hx : IsInside x) (hy : IsInside y) :
    IsInside (x ++ y) := by
  intro d r
  rw [List.append_assoc, hx, hy, List.foldr_append]

theorem IsInside.bar : IsInside ['|'] := by
  intro d r
  rw [List.singleton_append, splitAlternatives.eq_5 _ _ _ (by decide) (by decide)
    fun h => absurd h (Nat.succ_ne_zero d)]
  rfl

theorem IsOneAlternative.of_not_mem (hopen : '(' ∉ x) (hclose : ')' ∉ x)
    (hbar : '|' ∉ x) : IsOneAlternative x := by
  induction x with
  | nil => exact .nil
  | cons c x ih =>
    have hc : c ≠ '(' := by
      rintro rfl
      exact hopen (.head _)
    have hc' : c ≠ ')' := by
      rintro rfl
      exact hclose (.head _)
    have hc'' : c ≠ '|' := by
      rintro rfl
      exact hbar (.head _)
    have hone : IsOneAlternative [c] := by
      intro d r
      rw [List.singleton_append, splitAlternatives.eq_5 _ _ _ hc hc' fun _ => hc'']
      rfl
    exact hone.append (ih (fun h => hopen (.tail _ h)) (fun h => hclose (.tail _ h))
      fun h => hbar (.tail _ h))

theorem IsInside.parens (hx : IsInside x) :
    IsOneAlternative ('(' :: x ++ [')']) := by
  intro d r
  have hx := hx d (')' :: r)
  simp only [List.cons_append, List.append_assoc, List.nil_append, splitAlternatives] at hx ⊢
  rw [hx]
  simp [List.foldr_append]

theorem ExtglobOp.char_not_mem (o : ExtglobOp) :
    '(' ∉ [o.char] ∧ ')' ∉ [o.char] ∧ '|' ∉ [o.char] := by
  cases o <;> decide

mutual

theorem ExtglobItem.balanced : ∀ i : ExtglobItem, i.All IsPlainGlob (fun _ => True) → IsBalanced i.print
  | .text _, h => .of_not_mem h.open_not_mem h.close_not_mem
  | .op o alt alts, h =>
    (IsBalanced.of_not_mem o.char_not_mem.1 o.char_not_mem.2.1).append
      ((patternBalanced alt h.2.1).append (alternativesBalanced alts h.2.2)).parens

theorem patternBalanced : ∀ p : List ExtglobItem, PatternPlain p → IsBalanced (printPattern p)
  | [], _ => .nil
  | i :: p, h => (i.balanced h.1).append (patternBalanced p h.2)

theorem alternativesBalanced : ∀ ps : List (List ExtglobItem), AlternativesAll IsPlainGlob (fun _ => True) ps →
    IsBalanced (printAlternatives ps)
  | [], _ => .nil
  | p :: ps, h =>
    ((IsBalanced.of_not_mem (x := ['|']) (by decide) (by decide)).append
      (patternBalanced p h.1)).append (alternativesBalanced ps h.2)

end

mutual

theorem ExtglobItem.oneAlternative : ∀ i : ExtglobItem, i.All IsPlainGlob (fun _ => True) → IsOneAlternative i.print
  | .text _, h => .of_not_mem h.open_not_mem h.close_not_mem h.bar_not_mem
  | .op o alt alts, h =>
    (IsOneAlternative.of_not_mem o.char_not_mem.1 o.char_not_mem.2.1 o.char_not_mem.2.2).append
      ((patternOneAlternative alt h.2.1).inside.append (alternativesInside alts h.2.2)).parens

theorem patternOneAlternative : ∀ p : List ExtglobItem, PatternPlain p →
    IsOneAlternative (printPattern p)
  | [], _ => .nil
  | i :: p, h => (i.oneAlternative h.1).append (patternOneAlternative p h.2)

theorem alternativesInside : ∀ ps : List (List ExtglobItem), AlternativesAll IsPlainGlob (fun _ => True) ps →
    IsInside (printAlternatives ps)
  | [], _ => IsOneAlternative.nil.inside
  | p :: ps, h =>
    (IsInside.bar.append (patternOneAlternative p h.1).inside).append (alternativesInside ps h.2)

end

theorem foldr_consAlternative (x : List Char) (a : List Char) (as : List (List Char)) :
    x.foldr consAlternative (a :: as) = (x ++ a) :: as := by
  induction x with
  | nil => rfl
  | cons c x ih => rw [List.foldr_cons, ih]; rfl

/-- The alternatives are split where they were written one after the other. -/
theorem splitAlternatives_print (alt : ExtglobPattern) (alts : List ExtglobPattern)
    (halt : PatternPlain alt) (halts : AlternativesAll IsPlainGlob (fun _ => True) alts) :
    splitAlternatives 0 (printPattern alt ++ printAlternatives alts) =
      (alt :: alts).map printPattern := by
  induction alts generalizing alt with
  | nil =>
    rw [patternOneAlternative alt halt, printAlternatives, splitAlternatives,
      foldr_consAlternative, List.append_nil]
    rfl
  | cons p ps ih =>
    have hbar : splitAlternatives 0 (printAlternatives (p :: ps)) =
        [] :: splitAlternatives 0 (printPattern p ++ printAlternatives ps) := by
      simp only [printAlternatives, List.cons_append, splitAlternatives]
    rw [patternOneAlternative alt halt, hbar, ih p halts.1 halts.2, foldr_consAlternative,
      List.append_nil]
    rfl

theorem findExtglobOperator_of_not_mem (hopen : '(' ∉ x) :
    findExtglobOperator x = none := by
  induction x with
  | nil => rfl
  | cons c x ih =>
    have hhead : ∀ r', x = '(' :: r' → False := by
      rintro r' rfl
      exact hopen (.tail _ (.head _))
    rw [findExtglobOperator.eq_3 c x hhead, ih fun h => hopen (.tail _ h)]
    rfl

theorem findExtglobOperator_append (o : ExtglobOp) {x inside rest : List Char} (hopen : '(' ∉ x)
    (hinside : IsBalanced inside) :
    findExtglobOperator (x ++ (o.char :: '(' :: inside ++ [')'] ++ rest)) =
      some ⟨x, o.char, inside, rest⟩ := by
  induction x with
  | nil =>
    have hparen : findMatchingParen 0 (inside ++ ')' :: rest) = some (inside, rest) := by
      rw [hinside, findMatchingParen, Option.map_some, List.append_nil]
    have hop : ['?', '*', '+', '@', '!'].contains o.char = true := by
      cases o <;> rfl
    simp only [List.nil_append, List.cons_append, List.append_assoc, findExtglobOperator, if_pos hop,
      hparen]
  | cons c x ih =>
    have hhead : ∀ r', x ++ (o.char :: '(' :: inside ++ [')'] ++ rest) = '(' :: r' → False := by
      intro r' heq
      cases x with
      | nil =>
        have ho : o.char = '(' := (List.cons.inj heq).1
        exact o.char_not_mem.1 (ho ▸ .head _)
      | cons d x =>
        have hd : d = '(' := (List.cons.inj heq).1
        exact hopen (hd ▸ .tail _ (.head _))
    rw [List.cons_append, findExtglobOperator.eq_3 _ _ hhead, ih fun h => hopen (.tail _ h)]
    rfl

/-! ## 3. Glob text -/

theorem open_not_mem_print (htexts : p.all ExtglobItem.isText = true)
    (hp : PatternPlain p) : '(' ∉ printPattern p := by
  induction p with
  | nil => exact List.not_mem_nil
  | cons i p ih =>
    cases i with
    | op o alt alts => cases htexts
    | text t =>
      rw [printPattern, ExtglobItem.print, List.mem_append]
      rintro (h | h)
      · exact hp.1.open_not_mem h
      · exact ih htexts hp.2 h

/-- Text without a bracket, a backslash and a byte of the operators is plain. -/
theorem isPlainGlob_of_not_mem {t : List Char} (h : ∀ c ∈ ['(', ')', '|', '[', '\\'], c ∉ t) :
    IsPlainGlob t where
  open_not_mem := h '(' (by decide)
  close_not_mem := h ')' (by decide)
  bar_not_mem := h '|' (by decide)
  closed r := by
    have hbracket : '[' ∉ t := h '[' (by decide)
    have hback : '\\' ∉ t := h '\\' (by decide)
    clear h
    induction t with
    | nil =>
      rw [List.nil_append, Reader.elements_of_none (p := []) rfl, List.nil_append]
    | cons c t ih =>
      have hread : ∃ e, ∀ u, globReader.read (c :: u) = some (e, u) := by
        by_cases hq : c = '?'
        · subst hq
          exact ⟨_, fun u => rfl⟩
        · by_cases hs : c = '*'
          · subst hs
            exact ⟨_, fun u => rfl⟩
          · have hb : c ≠ '[' := by
              rintro rfl
              exact hbracket (.head _)
            have he : ∀ (d : Char) (u u' : List Char), c = '\\' → u = d :: u' → False := by
              rintro d u u' rfl
              exact absurd (.head _) hback
            refine ⟨.one fun ch => c == ch, fun u => ?_⟩
            have he := fun d u' => he d u u'
            simp only [globReader, globRead]
      rcases hread with ⟨e, hread⟩
      rw [List.cons_append, Reader.elements_of_some (hread _), Reader.elements_of_some (hread _),
        ih (fun h => hbracket (.tail _ h)) fun h => hback (.tail _ h), List.cons_append]

/-- Plain text is read as its parts are, up to the first operator. -/
theorem PatternPlain.readAlike (hp : PatternPlain p) (name : List Char) : ReadAlike p name := by
  refine .inl ?_
  induction p with
  | nil =>
    have hnil : globReader.elements (printPattern []) = textElements [] :=
      Reader.elements_of_none rfl
    rw [hnil]
    exact ⟨List.prefix_rfl, fun _ => rfl⟩
  | cons i p ih =>
    cases i with
    | op o alt alts => exact ⟨List.nil_prefix, nofun⟩
    | text t =>
      rcases ih hp.2 with ⟨hinit, htexts⟩
      rw [printPattern, ExtglobItem.print, hp.1.closed, textElements]
      exact ⟨(List.prefix_append_right_inj _).mpr hinit, fun h => congrArg _ (htexts h)⟩

/-- A pattern over plain text is read back. -/
theorem PatternPlain.readsBack (hp : PatternPlain p) (name : List Char) : ReadsBack p name where
  texts htexts :=
    ⟨findExtglobOperator_of_not_mem (open_not_mem_print htexts hp), hp.readAlike name⟩
  operator := by
    rintro pre o alt alts suf rfl hpre
    rcases patternAll_append.mp hp with ⟨hplain, ⟨-, hop⟩, hsuf⟩
    constructor
    · rw [printPattern_append, printPattern, ExtglobItem.print]
      exact findExtglobOperator_append o (open_not_mem_print hpre hplain)
        ((patternBalanced alt hop.1).append (alternativesBalanced alts hop.2))
    · exact splitAlternatives_print alt alts hop.1 hop.2
  negation := by
    rintro pre alt alts suf rfl hpre -
    rcases patternAll_append.mp hp with ⟨hplain, -, hsuf⟩
    refine PatternPlain.readAlike ?_ name
    exact patternAll_append.mpr ⟨hplain,
      isPlainGlob_of_not_mem (List.all_iff_forall_prop.mp (by decide)), hsuf⟩

/-- Without a negation there is nothing to divide. -/
theorem PatternPositive.unambiguous (hp : PatternPositive p)
    (limit : Option Nat) (name : List Char) : Unambiguous limit p name := by
  rintro pre alt alts suf rfl hpre
  rcases patternAll_append.mp hp with ⟨-, ⟨hneg, -⟩, -⟩
  exact absurd rfl hneg

/-! ## 4. Short names -/

/-- The pieces of a text that are not empty are not more than its bytes. -/
theorem exists_nonempty_pieces (l : List (List Char)) : ∃ l' : List (List Char),
    l'.flatten = l.flatten ∧ (∀ y ∈ l', y ∈ l) ∧ l'.length ≤ l.flatten.length := by
  induction l with
  | nil => exact ⟨[], rfl, fun y hy => hy, Nat.le_refl _⟩
  | cons y l ih =>
    rcases ih with ⟨l', hflat, hmem, hlen⟩
    by_cases hy : y = []
    · subst hy
      exact ⟨l', hflat, fun z hz => .tail _ (hmem z hz), hlen⟩
    · refine ⟨y :: l', ?_, ?_, ?_⟩
      · rw [List.flatten_cons, List.flatten_cons, hflat]
      · intro z hz
        rcases List.mem_cons.mp hz with rfl | hz
        · exact .head _
        · exact .tail _ (hmem z hz)
      · have hpos := List.length_pos_of_ne_nil hy
        rw [List.length_cons, List.flatten_cons, List.length_append]
        omega

theorem length_le_length_flatten {l : List (List Char)} {y : List Char} (hy : y ∈ l) :
    y.length ≤ l.flatten.length :=
  (List.sublist_flatten_of_mem hy).length_le

/-- Up to the bound on the repetitions an operator makes the same of languages that are the
    same. -/
theorem ExtglobOp.language_short (o : ExtglobOp) {k : Nat} (hk : 1 ≤ k) {l l' : Language Char}
    (hl : ∀ w : List Char, w.length ≤ k → (w ∈ l ↔ w ∈ l')) {w : List Char} (hw : w.length ≤ k) :
    w ∈ o.language (some k) l ↔ w ∈ o.language none l' := by
  unfold ExtglobOp.language
  by_cases ho : o = .neg
  · rw [if_pos ho, if_pos ho]
    exact not_congr (hl w hw)
  · rw [if_neg ho, if_neg ho, mem_languageOf, mem_languageOf]
    constructor
    · rintro ⟨n, hallows, -, h⟩
      rcases Language.mem_pow.mp h with ⟨pieces, rfl, hlen, hpieces⟩
      refine ⟨n, hallows, fun _ h => (nomatch h), Language.mem_pow.mpr ⟨pieces, rfl, hlen, ?_⟩⟩
      intro y hy
      exact (hl y ((length_le_length_flatten hy).trans hw)).mp (hpieces y hy)
    · rintro ⟨n, hallows, -, h⟩
      rcases Language.mem_pow.mp h with ⟨pieces, rfl, rfl, hpieces⟩
      have hshort : ∀ y ∈ pieces, y ∈ l := fun y hy =>
        (hl y ((length_le_length_flatten hy).trans hw)).mpr (hpieces y hy)
      by_cases hmany : pieces.length ≤ k
      · refine ⟨pieces.length, hallows, ?_, Language.mem_pow.mpr ⟨pieces, rfl, rfl, hshort⟩⟩
        rintro k' hk'
        exact Option.mem_some.mp hk' ▸ hmany
      · -- One empty piece stands for all of them, if there is nothing else.
        rcases exists_nonempty_pieces pieces with ⟨fewer, hflat, hmem, hlen⟩
        have hpick : ∃ l'' : List (List Char), l''.flatten = pieces.flatten ∧
            (∀ y ∈ l'', y ∈ pieces) ∧ l''.length ≤ k ∧ 1 ≤ l''.length := by
          cases fewer with
          | cons y fewer => exact ⟨y :: fewer, hflat, hmem, hlen.trans hw, Nat.succ_pos _⟩
          | nil =>
            rcases List.exists_mem_of_length_pos (by omega : 0 < pieces.length) with ⟨y, hy⟩
            have hnil : y = [] := List.flatten_eq_nil_iff.mp hflat.symm y hy
            refine ⟨[y], ?_, fun z hz => List.mem_singleton.mp hz ▸ hy, hk, Nat.le_refl 1⟩
            rw [hnil, ← hflat]
            rfl
        rcases hpick with ⟨l'', hflat, hmem, hle, hpos⟩
        refine ⟨l''.length, ?_, ?_, Language.mem_pow.mpr
          ⟨l'', hflat.symm, rfl, fun y hy => hshort y (hmem y hy)⟩⟩
        · cases o with
          | neg => exact absurd rfl ho
          | star => trivial
          | plus => exact hpos
          | opt => exact absurd (le_trans hallows hk) hmany
          | once => exact absurd (hallows.le.trans hk) hmany
        · rintro k' hk'
          exact Option.mem_some.mp hk' ▸ hle

theorem languages_short_mul {k : Nat} {l l' m m' : Language Char}
    (hl : ∀ w : List Char, w.length ≤ k → (w ∈ l ↔ w ∈ l'))
    (hm : ∀ w : List Char, w.length ≤ k → (w ∈ m ↔ w ∈ m')) {w : List Char} (hw : w.length ≤ k) :
    w ∈ l * m ↔ w ∈ l' * m' := by
  have hlen : ∀ {u v : List Char}, u ++ v = w → u.length ≤ k ∧ v.length ≤ k := by
    rintro u v rfl
    rw [List.length_append] at hw
    omega
  rw [Language.mem_mul, Language.mem_mul]
  constructor
  · rintro ⟨u, hu, v, hv, heq⟩
    exact ⟨u, (hl u (hlen heq).1).mp hu, v, (hm v (hlen heq).2).mp hv, heq⟩
  · rintro ⟨u, hu, v, hv, heq⟩
    exact ⟨u, (hl u (hlen heq).1).mpr hu, v, (hm v (hlen heq).2).mpr hv, heq⟩

mutual

theorem ExtglobItem.language_short {k : Nat} (hk : 1 ≤ k) : ∀ (i : ExtglobItem) (w : List Char),
    w.length ≤ k → (w ∈ i.language (some k) ↔ w ∈ i.language none)
  | .text t, w, _ => by
    rw [ExtglobItem.language, ExtglobItem.language]
  | .op o alt alts, w, hw => by
    rw [ExtglobItem.language, ExtglobItem.language]
    refine o.language_short hk (fun u hu => ?_) hw
    rw [Language.mem_add, Language.mem_add, patternLanguage_short hk alt u hu,
      alternativesLanguage_short hk alts u hu]

theorem patternLanguage_short {k : Nat} (hk : 1 ≤ k) : ∀ (p : List ExtglobItem) (w : List Char),
    w.length ≤ k → (w ∈ patternLanguage (some k) p ↔ w ∈ patternLanguage none p)
  | [], w, _ => by rw [patternLanguage, patternLanguage]
  | i :: p, w, hw => by
    rw [patternLanguage, patternLanguage]
    exact languages_short_mul (i.language_short hk) (patternLanguage_short hk p) hw

theorem alternativesLanguage_short {k : Nat} (hk : 1 ≤ k) : ∀ (ps : List (List ExtglobItem))
    (w : List Char), w.length ≤ k →
    (w ∈ alternativesLanguage (some k) ps ↔ w ∈ alternativesLanguage none ps)
  | [], w, _ => by rw [alternativesLanguage, alternativesLanguage]
  | p :: ps, w, hw => by
    rw [alternativesLanguage, alternativesLanguage, Language.mem_add, Language.mem_add,
      patternLanguage_short hk p w hw, alternativesLanguage_short hk ps w hw]

end

/-! ## 5. When the matcher is right -/

/-- **Extended globs.**  When in the patterns that the matcher tries on the name the operators
    are found again and the negations are unambiguous, it is right about the name exactly when
    twenty repetitions are as good as any number; for names of up to twenty bytes they are. -/
theorem extglob_match_right_iff (p : ExtglobPattern) (name : List Char)
    (hread : ∀ q, Relation.ReflTransGen (Tries name) p q → ReadsBack q name)
    (hneg : ∀ q, Relation.ReflTransGen (Tries name) p q →
      Unambiguous (some maxExtglobRepeat) q name) :
    ((extglobMatch (printPattern p) name = true ↔ name ∈ patternLanguage none p) ↔
      (name ∈ patternLanguage (some maxExtglobRepeat) p ↔ name ∈ patternLanguage none p)) ∧
    (name.length ≤ maxExtglobRepeat →
      (extglobMatch (printPattern p) name = true ↔ name ∈ patternLanguage none p)) := by
  rw [extglobMatch_iff p name hread hneg]
  exact ⟨Iff.rfl, patternLanguage_short (by decide) p name⟩

/-- In glob text nothing is replaced. -/
theorem not_tries_of_texts {q : ExtglobPattern} {name : List Char}
    (hp : p.all ExtglobItem.isText = true) : ¬ Tries name p q := by
  rintro ⟨-, -, -⟩
  rw [List.all_append, Bool.and_eq_true] at hp
  cases hp.2

/-- After a first alternative with the name the others are not tried. -/
theorem Tries.first {q alt : ExtglobPattern} {alts : List ExtglobPattern} {name : List Char}
    (halt : name ∈ patternLanguage (some maxExtglobRepeat) alt)
    (h : Tries name [.op .once alt alts] q) : q = alt := by
  generalize hp : [ExtglobItem.op .once alt alts] = p at h
  cases h with
  | @op pre suf o alt' alts' before after l hpre hl hbefore =>
    cases pre with
    | cons i pre =>
      rw [List.cons_append, List.cons.injEq] at hp
      rw [← hp.1] at hpre
      cases hpre
    | nil =>
      cases hp
      cases before with
      | nil =>
        obtain rfl : [alt] = l := (List.cons.inj hl).1
        simp
      | cons m before =>
        obtain rfl : [alt] = m := (List.cons.inj hl).1
        refine absurd halt ?_
        simpa using hbefore [alt] (.head _)

/-- `*(a?(b)|c)d*` and `abcadx`; and `@(a.log|!(*.log)*)` and `a.log`, where the negation is
    not tried. -/
theorem extglob_match_right_nested :
    (let p : ExtglobPattern := [.op .star [.text ['a'], .op .opt [.text ['b']] []] [[.text ['c']]],
      .text ['d', '*']]
    let name := ['a', 'b', 'c', 'a', 'd', 'x']
    extglobMatch (printPattern p) name = true ↔ name ∈ patternLanguage none p) ∧
    (let p : ExtglobPattern := [.op .once [.text ['a', '.', 'l', 'o', 'g']]
      [[.op .neg [.text ['*', '.', 'l', 'o', 'g']] [], .text ['*']]]]
    let name := ['a', '.', 'l', 'o', 'g']
    extglobMatch (printPattern p) name = true ↔ name ∈ patternLanguage none p) := by
  have htext : ∀ t : List Char, (['(', ')', '|', '[', '\\'].all fun c => !t.contains c) = true →
      IsPlainGlob t := fun t ht => isPlainGlob_of_not_mem fun c hc => by
    simpa using List.all_eq_true.mp ht c hc
  constructor
  · intro p name
    have hplain : PatternPlain p :=
      ⟨⟨trivial, ⟨htext _ rfl, ⟨trivial, ⟨htext _ rfl, trivial⟩, trivial⟩, trivial⟩,
        ⟨htext _ rfl, trivial⟩, trivial⟩, htext _ rfl, trivial⟩
    have hpositive : PatternPositive p := by
      simp [p, PatternPositive, PatternAll, AlternativesAll, ExtglobItem.All]
    exact (extglob_match_right_iff p name
      (fun q hq => PatternPlain.readsBack (hplain.reaches hq) _)
      fun q hq => PatternPositive.unambiguous (hpositive.reaches hq) _ _).2 (by decide)
  · intro p name
    have hplain : PatternPlain p :=
      ⟨⟨trivial, ⟨htext _ rfl, trivial⟩, ⟨⟨trivial, ⟨htext _ rfl, trivial⟩, trivial⟩,
        htext _ rfl, trivial⟩, trivial⟩, trivial⟩
    have hname : name ∈ patternLanguage (some maxExtglobRepeat) [.text name] := by
      rw [mem_texts_iff rfl, textElements, textElements, List.append_nil, ← globMatchInner_iff]
      decide
    have hreached : ∀ q, Relation.ReflTransGen (Tries name) p q → q = p ∨ q = [.text name] := by
      intro q hq
      induction hq with
      | refl => exact .inl rfl
      | tail _ hstep ih =>
        rcases ih with rfl | rfl
        · exact .inr (Tries.first hname hstep)
        · exact absurd hstep (not_tries_of_texts rfl)
    refine (extglob_match_right_iff p name
      (fun q hq => PatternPlain.readsBack (hplain.reaches hq) _) fun q hq => ?_).2 (by decide)
    rintro pre alt alts suf heq hpre
    rcases hreached q hq with hq | rfl
    · rw [hq] at heq
      cases pre with
      | nil => cases (List.cons.inj heq).1
      | cons i pre =>
        rw [← (List.cons.inj heq).1] at hpre
        cases hpre
    · have hmem : ExtglobItem.op .neg alt alts ∈ [ExtglobItem.text name] :=
        heq ▸ List.mem_append_right _ (.head _)
      cases List.mem_singleton.mp hmem

/-- Twenty-one repetitions are one too many, and a negation in front of a star refuses what
    it could leave to the star. -/
theorem extglob_match_wrong :
    let repeated : ExtglobPattern := [.op .star [.text ['a']] []]
    let negated : ExtglobPattern := [.op .neg [.text ['a']] [], .text ['*']]
    (extglobMatch (printPattern repeated) (List.replicate 21 'a') = false ∧
      List.replicate 21 'a' ∈ patternLanguage none repeated) ∧
    extglobMatch (printPattern negated) ['a'] = false ∧ ['a'] ∈ patternLanguage none negated := by
  intro repeated negated
  have htext : ∀ {t w : List Char}, globMatchInner t w = true ↔ w ∈ patternLanguage none [.text t] :=
    fun {t w} => by
      rw [globMatchInner_iff, mem_texts_iff rfl, textElements, textElements, List.append_nil]
  refine ⟨⟨by decide +kernel, ?_⟩, by decide +kernel, ?_⟩
  · refine (@mem_around none _ _ [] []).mpr
      ⟨[], List.replicate 21 'a', [], rfl, Language.nil_mem_one, ?_, Language.nil_mem_one⟩
    refine ⟨21, trivial, fun _ h => (by cases h), Language.mem_pow.mpr
      ⟨List.replicate 21 ['a'], rfl, rfl, fun y hy => ?_⟩⟩
    rw [List.eq_of_mem_replicate hy]
    exact .inl (htext.mp (by decide))
  · have hstar : ['a'] ∈ patternLanguage none [.text ['*']] := htext.mp (by decide)
    refine (@mem_around none _ _ [] _).mpr
      ⟨[], [], ['a'], rfl, Language.nil_mem_one, mem_neg_iff.mpr fun h => ?_, hstar⟩
    rcases mem_alternativesLanguage.mp h with ⟨b, hb, h⟩
    rw [List.mem_singleton.mp hb, ← htext] at h
    exact absurd h (by decide)

end Wasmsh.Globs

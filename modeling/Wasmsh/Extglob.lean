import Mathlib.Computability.Language
import Mathlib.Logic.Relation
import Wasmsh.GlobMatchers

/-!
# Extended globs

What an extended pattern stands for, and what `extglob_match` of
`wasmsh-runtime/src/pattern.rs` decides.  The matcher replaces the first operator of the
pattern by texts of its alternatives and starts again, at most twenty of them for a
repetition, and tries a star for a negation.
-/

namespace Wasmsh.Globs

open Wildcards

/-! ## 1. Patterns -/

/-- The operators `?(l)`, `*(l)`, `+(l)`, `@(l)` and `!(l)`. -/
inductive ExtglobOp where
  | opt
  | star
  | plus
  | once
  | neg
  deriving DecidableEq, Repr

def ExtglobOp.char : ExtglobOp → Char
  | .opt => '?'
  | .star => '*'
  | .plus => '+'
  | .once => '@'
  | .neg => '!'

/-- A part of a pattern: glob text, or an operator over a list of alternatives that is not
    empty. -/
inductive ExtglobItem where
  | text (t : List Char)
  | op (o : ExtglobOp) (alt : List ExtglobItem) (alts : List (List ExtglobItem))

/-- A pattern. -/
abbrev ExtglobPattern := List ExtglobItem

mutual

/-- How a part is written. -/
def ExtglobItem.print : ExtglobItem → List Char
  | .text t => t
  | .op o alt alts =>
    o.char :: '(' :: (printPattern alt ++ printAlternatives alts) ++ [')']

def printPattern : List ExtglobItem → List Char
  | [] => []
  | i :: p => i.print ++ printPattern p

/-- The alternatives after the first one. -/
def printAlternatives : List (List ExtglobItem) → List Char
  | [] => []
  | p :: ps => '|' :: printPattern p ++ printAlternatives ps

end

/-- How often an operator may take an alternative; a negation is replaced like `@`. -/
def ExtglobOp.Allows : ExtglobOp → Nat → Prop
  | .opt, n => n ≤ 1
  | .star, _ => True
  | .plus, n => 1 ≤ n
  | .once, n => n = 1
  | .neg, n => n = 1

/-- The texts that have a property. -/
def languageOf (l : List Char → Prop) : Language Char := {w | l w}

theorem mem_languageOf {l : List Char → Prop} {w : List Char} : w ∈ languageOf l ↔ l w := Iff.rfl

/-- What an operator makes of the language of its alternatives; `limit` bounds the number
    of repetitions. -/
def ExtglobOp.language (limit : Option Nat) (o : ExtglobOp) (l : Language Char) : Language Char :=
  if o = .neg then lᶜ
  else languageOf fun w => ∃ n, o.Allows n ∧ (∀ k ∈ limit, n ≤ k) ∧ w ∈ l ^ n

mutual

/-- The texts that a part stands for. -/
def ExtglobItem.language (limit : Option Nat) : ExtglobItem → Language Char
  | .text t => languageOf (Matches (globReader.elements t))
  | .op o alt alts => o.language limit (patternLanguage limit alt + alternativesLanguage limit alts)

def patternLanguage (limit : Option Nat) : List ExtglobItem → Language Char
  | [] => 1
  | i :: p => i.language limit * patternLanguage limit p

def alternativesLanguage (limit : Option Nat) : List (List ExtglobItem) → Language Char
  | [] => 0
  | p :: ps => patternLanguage limit p + alternativesLanguage limit ps

end

@[simp] theorem printPattern_append (p q : ExtglobPattern) :
    printPattern (p ++ q) = printPattern p ++ printPattern q := by
  induction p with
  | nil => rfl
  | cons i p ih => rw [List.cons_append, printPattern, printPattern, ih, List.append_assoc]

section

variable {limit : Option Nat} {p q : ExtglobPattern} {w : List Char}

theorem patternLanguage_append :
    patternLanguage limit (p ++ q) = patternLanguage limit p * patternLanguage limit q := by
  induction p with
  | nil => rw [List.nil_append, patternLanguage, one_mul]
  | cons i p ih => rw [List.cons_append, patternLanguage, patternLanguage, ih, mul_assoc]

theorem mem_alternativesLanguage {alts : List ExtglobPattern} :
    w ∈ alternativesLanguage limit alts ↔ ∃ b ∈ alts, w ∈ patternLanguage limit b := by
  induction alts with
  | nil =>
    rw [alternativesLanguage]
    constructor
    · intro h
      exact (Language.notMem_zero w h).elim
    · rintro ⟨b, hb, -⟩
      cases hb
  | cons a alts ih =>
    rw [alternativesLanguage, Language.mem_add, ih]
    simp

theorem mem_pow_alternatives {alts : List ExtglobPattern} (n : Nat) :
    w ∈ alternativesLanguage limit alts ^ n ↔ ∃ l : List ExtglobPattern, l.length = n ∧
      (∀ b ∈ l, b ∈ alts) ∧ w ∈ patternLanguage limit l.flatten := by
  induction n generalizing w with
  | zero =>
    rw [pow_zero]
    constructor
    · intro h
      exact ⟨[], rfl, fun b hb => (nomatch hb), h⟩
    · rintro ⟨l, hlen, -, h⟩
      rw [List.eq_nil_of_length_eq_zero hlen] at h
      exact h
  | succ n ih =>
    rw [pow_succ', Language.mem_mul]
    constructor
    · rintro ⟨u, hu, v, hv, rfl⟩
      rcases mem_alternativesLanguage.mp hu with ⟨b, hb, hu⟩
      rcases ih.mp hv with ⟨l, hlen, hl, hv⟩
      refine ⟨b :: l, ?_, ?_, ?_⟩
      · rw [List.length_cons, hlen]
      · intro c hc
        rcases List.mem_cons.mp hc with rfl | hc
        · exact hb
        · exact hl c hc
      · rw [List.flatten_cons, patternLanguage_append]
        exact Language.append_mem_mul hu hv
    · rintro ⟨l, hlen, hl, h⟩
      cases l with
      | nil => cases hlen
      | cons b l =>
        rw [List.flatten_cons, patternLanguage_append, Language.mem_mul] at h
        rcases h with ⟨u, hu, v, hv, rfl⟩
        refine ⟨u, mem_alternativesLanguage.mpr ⟨b, hl b (.head _), hu⟩, v, ih.mpr ?_, rfl⟩
        exact ⟨l, Nat.succ.inj hlen, fun c hc => hl c (.tail _ hc), hv⟩

/-- The parts of a pattern around its language. -/
theorem mem_around {i : ExtglobItem} {pre suf : ExtglobPattern} :
    w ∈ patternLanguage limit (pre ++ i :: suf) ↔ ∃ u v x, w = u ++ v ++ x ∧
      u ∈ patternLanguage limit pre ∧ v ∈ i.language limit ∧ x ∈ patternLanguage limit suf := by
  rw [patternLanguage_append, patternLanguage, Language.mem_mul]
  constructor
  · rintro ⟨u, hu, y, hy, rfl⟩
    rcases Language.mem_mul.mp hy with ⟨v, hv, x, hx, rfl⟩
    exact ⟨u, v, x, (List.append_assoc u v x).symm, hu, hv, hx⟩
  · rintro ⟨u, v, x, rfl, hu, hv, hx⟩
    exact ⟨u, hu, v ++ x, Language.append_mem_mul hv hx, (List.append_assoc u v x).symm⟩

theorem mem_around_flatten {l : List ExtglobPattern} {pre suf : ExtglobPattern} :
    w ∈ patternLanguage limit (pre ++ l.flatten ++ suf) ↔ ∃ u v x, w = u ++ v ++ x ∧
      u ∈ patternLanguage limit pre ∧ v ∈ patternLanguage limit l.flatten ∧
        x ∈ patternLanguage limit suf := by
  rw [patternLanguage_append, patternLanguage_append, Language.mem_mul]
  constructor
  · rintro ⟨y, hy, x, hx, rfl⟩
    rcases Language.mem_mul.mp hy with ⟨u, hu, v, hv, rfl⟩
    exact ⟨u, v, x, rfl, hu, hv, hx⟩
  · rintro ⟨u, v, x, rfl, hu, hv, hx⟩
    exact ⟨u ++ v, Language.append_mem_mul hu hv, x, hx, rfl⟩

/-- An operator that is no negation stands for texts of its alternatives, one after the
    other. -/
theorem mem_op_iff {o : ExtglobOp} (ho : o ≠ .neg) {alt : ExtglobPattern}
    {alts : List ExtglobPattern} {pre suf : ExtglobPattern} :
    w ∈ patternLanguage limit (pre ++ .op o alt alts :: suf) ↔
      ∃ l : List ExtglobPattern, o.Allows l.length ∧ (∀ k ∈ limit, l.length ≤ k) ∧
        (∀ b ∈ l, b ∈ alt :: alts) ∧ w ∈ patternLanguage limit (pre ++ l.flatten ++ suf) := by
  rw [mem_around]
  simp only [mem_around_flatten]
  constructor
  · rintro ⟨u, v, x, rfl, hu, hv, hx⟩
    rw [ExtglobItem.language, ExtglobOp.language, if_neg ho, mem_languageOf] at hv
    rcases hv with ⟨n, hn, hlimit, hv⟩
    rcases (@mem_pow_alternatives limit v (alt :: alts) n).mp hv with ⟨l, rfl, hl, hv⟩
    exact ⟨l, hn, hlimit, hl, u, v, x, rfl, hu, hv, hx⟩
  · rintro ⟨l, hn, hlimit, hl, u, v, x, rfl, hu, hv, hx⟩
    refine ⟨u, v, x, rfl, hu, ?_, hx⟩
    rw [ExtglobItem.language, ExtglobOp.language, if_neg ho, mem_languageOf]
    exact ⟨l.length, hn, hlimit, (@mem_pow_alternatives limit v (alt :: alts) _).mpr
      ⟨l, rfl, hl, hv⟩⟩

theorem mem_neg_iff {alt : ExtglobPattern} {alts : List ExtglobPattern} :
    w ∈ (ExtglobItem.op .neg alt alts).language limit ↔
      ¬ w ∈ alternativesLanguage limit (alt :: alts) := by
  rw [ExtglobItem.language, ExtglobOp.language, if_pos rfl]
  exact Iff.rfl

end

/-! ## 2. Replacing an operator -/

def ExtglobItem.isText : ExtglobItem → Bool
  | .text _ => true
  | .op _ _ _ => false

/-- The most repetitions that are tried. -/
def maxExtglobRepeat : Nat := 20

/-- The lists of fewer than `n` alternatives, as `extglob_star` tries them; it passes over an
    alternative without text. -/
def sequences (alternatives : List ExtglobPattern) : Nat → List (List ExtglobPattern)
  | 0 => []
  | n + 1 =>
    [] :: alternatives.flatMap fun alt =>
      if (printPattern alt).isEmpty then [] else (sequences alternatives n).map (alt :: ·)

/-- The lists of alternatives that are tried in the place of an operator, in their order. -/
def ExtglobOp.attempts (alternatives : List ExtglobPattern) :
    ExtglobOp → List (List ExtglobPattern)
  | .opt => [] :: alternatives.map fun alt => [alt]
  | .star => sequences alternatives (maxExtglobRepeat + 1)
  | .plus => alternatives.flatMap fun alt => (sequences alternatives maxExtglobRepeat).map (alt :: ·)
  | .once => alternatives.map fun alt => [alt]
  | .neg => alternatives.map fun alt => [alt]

/-- One step of the matcher: the first operator is replaced by texts of its alternatives. -/
inductive Replaces : ExtglobPattern → ExtglobPattern → Prop
  | op {pre suf : ExtglobPattern} {o : ExtglobOp} {alt alts} {l : List ExtglobPattern} :
      pre.all ExtglobItem.isText = true → l ∈ o.attempts (alt :: alts) →
      Replaces (pre ++ .op o alt alts :: suf) (pre ++ l.flatten ++ suf)

/-- One step of the matcher on a name: it tries a replacement when the name is not in the
    language of those before it. -/
inductive Tries (name : List Char) : ExtglobPattern → ExtglobPattern → Prop
  | op {pre suf : ExtglobPattern} {o : ExtglobOp} {alt alts} {before after : List (List ExtglobPattern)}
      {l : List ExtglobPattern} :
      pre.all ExtglobItem.isText = true → o.attempts (alt :: alts) = before ++ l :: after →
      (∀ m ∈ before, name ∉ patternLanguage (some maxExtglobRepeat) (pre ++ m.flatten ++ suf)) →
      Tries name (pre ++ .op o alt alts :: suf) (pre ++ l.flatten ++ suf)

theorem Tries.replaces {name : List Char} {p q : ExtglobPattern} (h : Tries name p q) :
    Replaces p q := by
  cases h with
  | op hpre hl _ =>
    refine .op hpre ?_
    rw [hl]
    exact List.mem_append_right _ (.head _)

/-- The elements of the glob text in front of the first operator, each text read by itself. -/
def textElements : ExtglobPattern → List (Element Char)
  | [] => []
  | .text t :: p => globReader.elements t ++ textElements p
  | .op _ _ _ :: _ => []

/-- What is written is read as the texts up to the first operator are, or the name does not
    get past elements that are. -/
def ReadAlike (p : ExtglobPattern) (name : List Char) : Prop :=
  (textElements p <+: globReader.elements (printPattern p) ∧
      (p.all ExtglobItem.isText = true → globReader.elements (printPattern p) = textElements p)) ∨
    ∃ common, common <+: textElements p ∧ common <+: globReader.elements (printPattern p) ∧
      ¬ Matches (common ++ [.star]) name

/-- The functions that look for the first operator find what the pattern was written from,
    and glob text is read as its parts are. -/
structure ReadsBack (p : ExtglobPattern) (name : List Char) : Prop where
  texts : p.all ExtglobItem.isText = true →
    findExtglobOperator (printPattern p) = none ∧ ReadAlike p name
  operator : ∀ {pre o alt alts suf}, p = pre ++ .op o alt alts :: suf →
    pre.all ExtglobItem.isText = true →
    findExtglobOperator (printPattern p) =
        some ⟨printPattern pre, o.char, printPattern alt ++ printAlternatives alts,
          printPattern suf⟩ ∧
      splitAlternatives 0 (printPattern alt ++ printAlternatives alts) =
        (alt :: alts).map printPattern
  negation : ∀ {pre alt alts suf}, p = pre ++ .op .neg alt alts :: suf →
    pre.all ExtglobItem.isText = true →
    (∀ b ∈ alt :: alts, name ∉ patternLanguage (some maxExtglobRepeat) (pre ++ b ++ suf)) →
    ReadAlike (pre ++ .text ['*'] :: suf) name

/-- A negation that is the first operator.  If an alternative in its place has the name,
    every way to divide the name around it leaves a text of an alternative; if none has, it
    is the last operator or the name does not get to the next one. -/
def Unambiguous (limit : Option Nat) (p : ExtglobPattern) (name : List Char) : Prop :=
  ∀ {pre alt alts suf}, p = pre ++ .op .neg alt alts :: suf →
    pre.all ExtglobItem.isText = true →
    (∀ b ∈ alt :: alts, name ∈ patternLanguage limit (pre ++ b ++ suf) →
        ∀ u v x, name = u ++ v ++ x → u ∈ patternLanguage limit pre →
          x ∈ patternLanguage limit suf → v ∈ alternativesLanguage limit (alt :: alts)) ∧
      ((∀ b ∈ alt :: alts, name ∉ patternLanguage limit (pre ++ b ++ suf)) →
        suf.all ExtglobItem.isText = true ∨
          ¬ Matches (textElements (pre ++ .text ['*'] :: suf) ++ [.star]) name)

mutual

/-- A bound for the number of replacements. -/
def ExtglobItem.weight : ExtglobItem → Nat
  | .text _ => 0
  | .op _ alt alts => maxExtglobRepeat * (patternWeight alt + alternativesWeight alts) + 1

def patternWeight : List ExtglobItem → Nat
  | [] => 0
  | i :: p => i.weight + patternWeight p

def alternativesWeight : List (List ExtglobItem) → Nat
  | [] => 0
  | p :: ps => patternWeight p + alternativesWeight ps

end

theorem patternWeight_append (p q : ExtglobPattern) :
    patternWeight (p ++ q) = patternWeight p + patternWeight q := by
  induction p with
  | nil => rw [List.nil_append, patternWeight, Nat.zero_add]
  | cons i p ih => rw [List.cons_append, patternWeight, patternWeight, ih, Nat.add_assoc]

theorem patternWeight_le_of_mem {b : ExtglobPattern} {alts : List ExtglobPattern}
    (hb : b ∈ alts) : patternWeight b ≤ alternativesWeight alts := by
  induction alts with
  | nil => cases hb
  | cons a alts ih =>
    rw [alternativesWeight]
    rcases List.mem_cons.mp hb with rfl | hb
    · exact Nat.le_add_right _ _
    · exact (ih hb).trans (Nat.le_add_left _ _)

theorem patternWeight_flatten_le {l alts : List ExtglobPattern} (hl : ∀ b ∈ l, b ∈ alts) :
    patternWeight l.flatten ≤ l.length * alternativesWeight alts := by
  induction l with
  | nil => exact Nat.zero_le _
  | cons b l ih =>
    have hb := patternWeight_le_of_mem (hl b (.head _))
    have hrest := ih fun c hc => hl c (.tail _ hc)
    rw [List.flatten_cons, patternWeight_append, List.length_cons, Nat.succ_mul]
    omega

theorem mem_sequences {alternatives l : List ExtglobPattern} {n : Nat} :
    l ∈ sequences alternatives n ↔
      l.length < n ∧ ∀ b ∈ l, b ∈ alternatives ∧ printPattern b ≠ [] := by
  induction n generalizing l with
  | zero =>
    constructor
    · intro h
      cases h
    · rintro ⟨h, -⟩
      cases h
  | succ n ih =>
    rw [sequences, List.mem_cons, List.mem_flatMap]
    constructor
    · rintro (rfl | ⟨alt, halt, h⟩)
      · exact ⟨Nat.succ_pos n, fun b hb => (nomatch hb)⟩
      · split at h
        · cases h
        · next hne =>
          rcases List.mem_map.mp h with ⟨m, hm, rfl⟩
          rcases ih.mp hm with ⟨hlen, hm⟩
          refine ⟨Nat.succ_lt_succ hlen, ?_⟩
          intro b hb
          rcases List.mem_cons.mp hb with rfl | hb
          · exact ⟨halt, fun h => hne (List.isEmpty_iff.mpr h)⟩
          · exact hm b hb
    · rintro ⟨hlen, hl⟩
      cases l with
      | nil => exact .inl rfl
      | cons b l =>
        rcases hl b (.head _) with ⟨hb, hne⟩
        refine .inr ⟨b, hb, ?_⟩
        rw [if_neg fun h => hne (List.isEmpty_iff.mp h)]
        refine List.mem_map_of_mem (ih.mpr ⟨Nat.lt_of_succ_lt_succ hlen, ?_⟩)
        exact fun c hc => hl c (.tail _ hc)

/-- What is tried is allowed, and takes at most twenty of the alternatives. -/
theorem ExtglobOp.attempts_sound {o : ExtglobOp} {alternatives l : List ExtglobPattern}
    (h : l ∈ o.attempts alternatives) :
    o.Allows l.length ∧ l.length ≤ maxExtglobRepeat ∧ ∀ b ∈ l, b ∈ alternatives := by
  have hone : l ∈ alternatives.map (fun alt => [alt]) →
      l.length = 1 ∧ ∀ b ∈ l, b ∈ alternatives := by
    intro h
    rcases List.mem_map.mp h with ⟨alt, halt, rfl⟩
    exact ⟨rfl, fun b hb => List.mem_singleton.mp hb ▸ halt⟩
  have hmax : l.length = 1 → l.length ≤ maxExtglobRepeat := by
    intro h
    rw [h]
    decide
  cases o with
  | opt =>
    rcases List.mem_cons.mp h with rfl | h
    · exact ⟨Nat.zero_le 1, Nat.zero_le _, fun b hb => (nomatch hb)⟩
    · exact ⟨(hone h).1.le, hmax (hone h).1, (hone h).2⟩
  | star =>
    rcases mem_sequences.mp h with ⟨hlen, hl⟩
    exact ⟨trivial, Nat.le_of_lt_succ hlen, fun b hb => (hl b hb).1⟩
  | plus =>
    rcases List.mem_flatMap.mp h with ⟨alt, halt, h⟩
    rcases List.mem_map.mp h with ⟨m, hm, rfl⟩
    rcases mem_sequences.mp hm with ⟨hlen, hm⟩
    refine ⟨Nat.succ_pos _, hlen, ?_⟩
    intro b hb
    rcases List.mem_cons.mp hb with rfl | hb
    · exact halt
    · exact (hm b hb).1
  | once => exact ⟨(hone h).1, hmax (hone h).1, (hone h).2⟩
  | neg => exact ⟨(hone h).1, hmax (hone h).1, (hone h).2⟩

theorem Replaces.patternWeight_lt {p q : ExtglobPattern} (h : Replaces p q) :
    patternWeight q < patternWeight p := by
  cases h with
  | @op pre suf o alt alts l _ hl =>
    rcases ExtglobOp.attempts_sound hl with ⟨-, hmax, hl⟩
    have hflat := patternWeight_flatten_le hl
    have hmul := Nat.mul_le_mul_right (alternativesWeight (alt :: alts)) hmax
    have hsum : alternativesWeight (alt :: alts) = patternWeight alt + alternativesWeight alts := rfl
    rw [hsum] at hflat hmul
    simp only [patternWeight_append, patternWeight, ExtglobItem.weight]
    omega

/-- The first operator of a pattern, if there is one. -/
theorem texts_or_op (p : ExtglobPattern) : p.all ExtglobItem.isText = true ∨
    ∃ pre o alt alts suf, p = pre ++ .op o alt alts :: suf ∧
      pre.all ExtglobItem.isText = true := by
  induction p with
  | nil => exact .inl rfl
  | cons i p ih =>
    cases i with
    | op o alt alts => exact .inr ⟨[], o, alt, alts, p, rfl, rfl⟩
    | text t =>
      rcases ih with h | ⟨pre, o, alt, alts, suf, rfl, hpre⟩
      · exact .inl h
      · exact .inr ⟨.text t :: pre, o, alt, alts, suf, rfl, hpre⟩

theorem mem_texts_iff {limit : Option Nat} {p : ExtglobPattern} {w : List Char}
    (hp : p.all ExtglobItem.isText = true) :
    w ∈ patternLanguage limit p ↔ Matches (textElements p) w := by
  induction p generalizing w with
  | nil =>
    rw [patternLanguage, Language.mem_one, textElements, matches_nil_iff]
  | cons i p ih =>
    cases i with
    | op o alt alts => cases hp
    | text t =>
      rw [patternLanguage, Language.mem_mul, textElements, matches_append_iff, ExtglobItem.language]
      constructor
      · rintro ⟨u, hu, v, hv, rfl⟩
        exact ⟨u, v, rfl, hu, (ih hp).mp hv⟩
      · rintro ⟨u, v, rfl, hu, hv⟩
        exact ⟨u, hu, v, (ih hp).mpr hv, rfl⟩

/-- What a pattern stands for gets past the texts in front of its first operator. -/
theorem matches_textElements {limit : Option Nat} {p : ExtglobPattern} {w : List Char}
    (h : w ∈ patternLanguage limit p) : Matches (textElements p ++ [.star]) w := by
  induction p generalizing w with
  | nil => exact matches_star_any w
  | cons i p ih =>
    cases i with
    | op o alt alts => exact matches_star_any w
    | text t =>
      rw [patternLanguage, Language.mem_mul, ExtglobItem.language] at h
      rcases h with ⟨u, hu, v, hv, rfl⟩
      rw [textElements, List.append_assoc]
      exact matches_append_iff.mpr ⟨u, v, rfl, hu, ih hv⟩

/-- Glob text decides the language of its parts, if what is not read alike is out of the
    name's reach. -/
theorem globMatchInner_print_iff {limit : Option Nat} {p : ExtglobPattern} {name : List Char}
    (hread : ReadAlike p name) (hops : p.all ExtglobItem.isText = true ∨
      ¬ Matches (textElements p ++ [.star]) name) :
    globMatchInner (printPattern p) name = true ↔ name ∈ patternLanguage limit p := by
  have hstops : ∀ common, common <+: textElements p →
      common <+: globReader.elements (printPattern p) → ¬ Matches (common ++ [.star]) name →
      (Matches (globReader.elements (printPattern p)) name ↔ name ∈ patternLanguage limit p) := by
    intro common htexts hwritten hstop
    constructor
    · intro h
      exact absurd (h.star_of_init hwritten) hstop
    · intro h
      have hinit := htexts.trans (List.prefix_append _ [.star])
      exact absurd ((matches_textElements h).star_of_init hinit) hstop
  rw [globMatchInner_iff]
  rcases hread with ⟨hinit, htexts⟩ | ⟨common, htexts, hwritten, hstop⟩
  · rcases hops with hp | hstop
    · rw [htexts hp, mem_texts_iff hp]
    · exact hstops _ List.prefix_rfl hinit hstop
  · exact hstops common htexts hwritten hstop

section

variable {limit : Option Nat} {w : List Char}

theorem patternLanguage_of_print_nil {p : ExtglobPattern} (h : printPattern p = []) :
    patternLanguage limit p = 1 := by
  induction p with
  | nil => rfl
  | cons i p ih =>
    rw [printPattern, List.append_eq_nil_iff] at h
    cases i with
    | op o alt alts => cases h.1
    | text t =>
      obtain rfl : t = [] := h.1
      have htext : (ExtglobItem.text []).language limit = 1 := by
        rw [ExtglobItem.language]
        ext w
        rw [mem_languageOf, Reader.elements_of_none rfl, matches_nil_iff, Language.mem_one]
      rw [patternLanguage, htext, ih h.2, one_mul]

/-- Alternatives without text change nothing. -/
theorem patternLanguage_filter (l : List ExtglobPattern) :
    patternLanguage limit (l.filter fun b => !(printPattern b).isEmpty).flatten =
      patternLanguage limit l.flatten := by
  induction l with
  | nil => rfl
  | cons b l ih =>
    rw [List.filter_cons, List.flatten_cons, patternLanguage_append]
    split
    · rw [List.flatten_cons, patternLanguage_append, ih]
    · next hb =>
      have hb : printPattern b = [] := by simpa using hb
      rw [ih, patternLanguage_of_print_nil hb, one_mul]

theorem mem_sequences_filter {alternatives l : List ExtglobPattern} {n : Nat} (hlen : l.length < n)
    (hl : ∀ b ∈ l, b ∈ alternatives) :
    (l.filter fun b => !(printPattern b).isEmpty) ∈ sequences alternatives n := by
  refine mem_sequences.mpr ⟨(List.length_filter_le _ _).trans_lt hlen, ?_⟩
  intro b hb
  rcases List.mem_filter.mp hb with ⟨hb, hne⟩
  exact ⟨hl b hb, by simpa using hne⟩

/-- What is tried for an operator is enough for all that it stands for. -/
theorem mem_op_attempts {o : ExtglobOp} (ho : o ≠ .neg) {alt : ExtglobPattern}
    {alts : List ExtglobPattern} {pre suf : ExtglobPattern} :
    w ∈ patternLanguage (some maxExtglobRepeat) (pre ++ .op o alt alts :: suf) ↔
      ∃ l ∈ o.attempts (alt :: alts),
        w ∈ patternLanguage (some maxExtglobRepeat) (pre ++ l.flatten ++ suf) := by
  have hlimit : ∀ n, (∀ k ∈ some maxExtglobRepeat, n ≤ k) ↔ n ≤ maxExtglobRepeat := fun n =>
    ⟨fun h => h _ rfl, fun h k hk => (Option.mem_some.mp hk) ▸ h⟩
  rw [mem_op_iff ho]
  constructor
  · rintro ⟨l, hallows, hmax, hl, h⟩
    have hmax := (hlimit _).mp hmax
    have hone : ∀ b, l = [b] → l ∈ (alt :: alts).map fun alt => [alt] := by
      rintro b rfl
      exact List.mem_map_of_mem (hl b (.head _))
    cases o with
    | neg => exact absurd rfl ho
    | once =>
      rcases List.length_eq_one_iff.mp hallows with ⟨b, hb⟩
      exact ⟨l, hone b hb, h⟩
    | opt =>
      rcases Nat.le_one_iff_eq_zero_or_eq_one.mp hallows with hlen | hlen
      · exact ⟨l, List.eq_nil_of_length_eq_zero hlen ▸ .head _, h⟩
      · rcases List.length_eq_one_iff.mp hlen with ⟨b, hb⟩
        exact ⟨l, .tail _ (hone b hb), h⟩
    | star =>
      refine ⟨_, mem_sequences_filter (Nat.lt_succ_of_le hmax) hl, ?_⟩
      rw [patternLanguage_append, patternLanguage_append, patternLanguage_filter]
      rwa [patternLanguage_append, patternLanguage_append] at h
    | plus =>
      cases l with
      | nil => cases hallows
      | cons b l =>
        have htail := mem_sequences_filter hmax fun c hc => hl c (.tail _ hc)
        refine ⟨b :: l.filter fun b => !(printPattern b).isEmpty,
          List.mem_flatMap.mpr ⟨b, hl b (.head _), List.mem_map_of_mem htail⟩, ?_⟩
        rw [patternLanguage_append, patternLanguage_append, List.flatten_cons,
          patternLanguage_append] at h ⊢
        rwa [patternLanguage_filter]
  · rintro ⟨l, hl, h⟩
    rcases ExtglobOp.attempts_sound hl with ⟨hallows, hmax, hl⟩
    exact ⟨l, hallows, (hlimit _).mpr hmax, hl, h⟩

/-- A star in the place of a part. -/
theorem mem_wild_iff {pre suf : ExtglobPattern} :
    w ∈ patternLanguage limit (pre ++ .text ['*'] :: suf) ↔ ∃ u v x, w = u ++ v ++ x ∧
      u ∈ patternLanguage limit pre ∧ x ∈ patternLanguage limit suf := by
  have hstar : ∀ v, v ∈ (ExtglobItem.text ['*']).language limit := by
    intro v
    have hread : globReader.read ['*'] = some (.star, []) := rfl
    rw [ExtglobItem.language, mem_languageOf, Reader.elements_of_some hread,
      Reader.elements_of_none rfl]
    exact matches_star_any v
  rw [mem_around]
  constructor
  · rintro ⟨u, v, x, rfl, hu, -, hx⟩
    exact ⟨u, v, x, rfl, hu, hx⟩
  · rintro ⟨u, v, x, rfl, hu, hx⟩
    exact ⟨u, v, x, rfl, hu, hstar v, hx⟩

end

/-! ## 3. The matcher -/

/-- A search that stops at the first hit has to be right only as far as it goes. -/
theorem any_iff_of_tried {α : Type} {f : α → Bool} {found : α → Prop} {l : List α}
    (h : ∀ before a after, l = before ++ a :: after → (∀ b ∈ before, ¬ found b) →
      (f a = true ↔ found a)) : l.any f = true ↔ ∃ a ∈ l, found a := by
  induction l with
  | nil => simp
  | cons a l ih =>
    have ha : f a = true ↔ found a := h [] a l rfl fun b hb => (nomatch hb)
    rw [List.any_cons, Bool.or_eq_true, List.exists_mem_cons_iff, ha]
    by_cases hfound : found a
    · exact iff_of_true (.inl hfound) (.inl hfound)
    · refine or_congr_right (ih fun before b after hl hbefore => ?_)
      refine h (a :: before) b after (congrArg (a :: ·) hl) ?_
      intro c hc
      rcases List.mem_cons.mp hc with rfl | hc
      · exact hfound
      · exact hbefore c hc

section

variable {name : List Char} {match_ : List Char → List Char → Bool}
  {pre suf alt : ExtglobPattern} {alts : List ExtglobPattern}

theorem extglobStar_eq {alternatives : List ExtglobPattern} {n : Nat} {before : ExtglobPattern} :
    extglobStar match_ (alternatives.map printPattern) (printPattern suf) name n
        (printPattern before) =
      (sequences alternatives n).any fun l =>
        match_ (printPattern (before ++ l.flatten ++ suf)) name := by
  induction n generalizing before with
  | zero => rfl
  | succ n ih =>
    rw [extglobStar, sequences, List.any_cons, List.any_flatMap, List.any_map, List.flatten_nil,
      List.append_nil, printPattern_append]
    refine congrArg (fun f => _ || alternatives.any f) (funext fun alt => ?_)
    simp only [Function.comp_apply]
    by_cases halt : (printPattern alt).isEmpty
    · rw [if_pos halt, halt]
      rfl
    · rw [if_neg halt, Bool.eq_false_iff.mpr halt, ← printPattern_append, ih, List.any_map]
      simp only [Function.comp_def, List.flatten_cons, List.append_assoc, Bool.not_false,
        Bool.true_and]

theorem any_map_printPattern {alternatives : List ExtglobPattern} :
    ((alternatives.map printPattern).any fun b =>
        match_ (printPattern pre ++ b ++ printPattern suf) name) =
      (alternatives.map fun b => [b]).any fun l =>
        match_ (printPattern (pre ++ l.flatten ++ suf)) name := by
  rw [List.any_map, List.any_map]
  simp only [Function.comp_def, List.flatten_singleton, printPattern_append]

/-- An operator that is no negation goes through what is tried for it. -/
theorem extglobOperator_eq {o : ExtglobOp} (ho : o ≠ .neg) {inside : List Char}
    (hsplit : splitAlternatives 0 inside = (alt :: alts).map printPattern) :
    extglobOperator match_ ⟨printPattern pre, o.char, inside, printPattern suf⟩ name =
      (o.attempts (alt :: alts)).any fun l =>
        match_ (printPattern (pre ++ l.flatten ++ suf)) name := by
  cases o with
  | neg => exact absurd rfl ho
  | once =>
    simp only [extglobOperator, ExtglobOp.char, hsplit]
    exact any_map_printPattern
  | opt =>
    simp only [extglobOperator, ExtglobOp.char, hsplit]
    rw [any_map_printPattern, ExtglobOp.attempts, List.any_cons, List.flatten_nil, List.append_nil,
      printPattern_append]
  | star =>
    simp only [extglobOperator, ExtglobOp.char, hsplit]
    exact extglobStar_eq
  | plus =>
    simp only [extglobOperator, ExtglobOp.char, extglobPlus, hsplit]
    rw [ExtglobOp.attempts, List.any_map, List.any_flatMap]
    refine congrArg ((alt :: alts).any ·) (funext fun b => ?_)
    rw [Function.comp_apply, ← printPattern_append, extglobStar_eq, List.any_map]
    simp only [Function.comp_def, List.flatten_cons, List.append_assoc, maxExtglobRepeat]

/-- What the matcher decides for the patterns that it tries in the place of the operator. -/
def DecidesTried (match_ : List Char → List Char → Bool) (p : ExtglobPattern)
    (name : List Char) : Prop :=
  ∀ q, Tries name p q → (match_ (printPattern q) name = true ↔
    name ∈ patternLanguage (some maxExtglobRepeat) q)

theorem any_attempts_iff {o : ExtglobOp} (hpre : pre.all ExtglobItem.isText = true)
    (hmatch : DecidesTried match_ (pre ++ .op o alt alts :: suf) name) :
    ((o.attempts (alt :: alts)).any fun l =>
        match_ (printPattern (pre ++ l.flatten ++ suf)) name) = true ↔
      ∃ l ∈ o.attempts (alt :: alts),
        name ∈ patternLanguage (some maxExtglobRepeat) (pre ++ l.flatten ++ suf) :=
  any_iff_of_tried fun _ _ _ hl hbefore => hmatch _ (.op hpre hl hbefore)

theorem operator_iff {o : ExtglobOp} (ho : o ≠ .neg) (hpre : pre.all ExtglobItem.isText = true)
    (hmatch : DecidesTried match_ (pre ++ .op o alt alts :: suf) name)
    (hsplit : splitAlternatives 0 (printPattern alt ++ printAlternatives alts) =
      (alt :: alts).map printPattern) :
    extglobOperator match_ ⟨printPattern pre, o.char, printPattern alt ++ printAlternatives alts,
        printPattern suf⟩ name = true ↔
      name ∈ patternLanguage (some maxExtglobRepeat) (pre ++ .op o alt alts :: suf) := by
  rw [extglobOperator_eq ho hsplit, any_attempts_iff hpre hmatch, mem_op_attempts ho]

/-- The star of a negation divides the name in some way, and the alternatives have been
    refused in every way. -/
theorem negation_iff (hpre : pre.all ExtglobItem.isText = true)
    (hmatch : DecidesTried match_ (pre ++ .op .neg alt alts :: suf) name)
    (hread : ReadsBack (pre ++ .op .neg alt alts :: suf) name)
    (hneg : Unambiguous (some maxExtglobRepeat) (pre ++ .op .neg alt alts :: suf) name) :
    extglobOperator match_ ⟨printPattern pre, '!', printPattern alt ++ printAlternatives alts,
        printPattern suf⟩ name = true ↔
      name ∈ patternLanguage (some maxExtglobRepeat) (pre ++ .op .neg alt alts :: suf) := by
  rcases hneg rfl hpre with ⟨hdivide, hlast⟩
  have hattempts : ((ExtglobOp.neg.attempts (alt :: alts)).any fun l =>
      match_ (printPattern (pre ++ l.flatten ++ suf)) name) = true ↔
      ∃ b ∈ alt :: alts, name ∈ patternLanguage (some maxExtglobRepeat) (pre ++ b ++ suf) := by
    rw [any_attempts_iff hpre hmatch, ExtglobOp.attempts]
    constructor
    · rintro ⟨l, hl, hname⟩
      rcases List.mem_map.mp hl with ⟨b, hb, rfl⟩
      rw [List.flatten_singleton] at hname
      exact ⟨b, hb, hname⟩
    · rintro ⟨b, hb, hname⟩
      refine ⟨[b], List.mem_map_of_mem hb, ?_⟩
      rwa [List.flatten_singleton]
  have hoperator : extglobOperator match_ ⟨printPattern pre, '!',
      printPattern alt ++ printAlternatives alts, printPattern suf⟩ name =
      (!((ExtglobOp.neg.attempts (alt :: alts)).any fun l =>
          match_ (printPattern (pre ++ l.flatten ++ suf)) name) &&
        globMatchInner (printPattern (pre ++ .text ['*'] :: suf)) name) := by
    rw [ExtglobOp.attempts, ← any_map_printPattern, ← (hread.operator rfl hpre).2,
      printPattern_append]
    rfl
  rw [hoperator, Bool.and_eq_true, Bool.not_eq_true', ← Bool.not_eq_true, hattempts, mem_around]
  by_cases hhit : ∃ b ∈ alt :: alts,
      name ∈ patternLanguage (some maxExtglobRepeat) (pre ++ b ++ suf)
  · rcases hhit with ⟨b, hb, hname⟩
    constructor
    · rintro ⟨hnone, -⟩
      exact absurd ⟨b, hb, hname⟩ hnone
    · rintro ⟨u, v, x, rfl, hu, hv, hx⟩
      exact absurd (hdivide b hb hname u v x rfl hu hx) (mem_neg_iff.mp hv)
  · have hnone : ∀ b ∈ alt :: alts,
        name ∉ patternLanguage (some maxExtglobRepeat) (pre ++ b ++ suf) :=
      fun b hb hname => hhit ⟨b, hb, hname⟩
    have hops := (hlast hnone).imp_left fun hsuf =>
      show (pre ++ .text ['*'] :: suf).all ExtglobItem.isText = true by
        rw [List.all_append, hpre]
        exact hsuf
    rw [globMatchInner_print_iff (hread.negation rfl hpre hnone) hops, mem_wild_iff]
    constructor
    · rintro ⟨_, u, v, x, heq, hu, hx⟩
      refine ⟨u, v, x, heq, hu, mem_neg_iff.mpr fun hv => ?_, hx⟩
      rcases mem_alternativesLanguage.mp hv with ⟨b, hb, hv⟩
      refine hnone b hb ?_
      rw [heq, patternLanguage_append, patternLanguage_append]
      exact Language.append_mem_mul (Language.append_mem_mul hu hv) hx
    · rintro ⟨u, v, x, heq, hu, _, hx⟩
      exact ⟨hhit, u, v, x, heq, hu, hx⟩

end

/-- With enough turns the matcher decides the language with the bounded repetitions. -/
theorem extglobMatchRecursive_iff (name : List Char) : ∀ (n : Nat) (p : ExtglobPattern),
    patternWeight p ≤ n → (∀ q, Relation.ReflTransGen (Tries name) p q →
      ReadsBack q name ∧ Unambiguous (some maxExtglobRepeat) q name) →
    (extglobMatchRecursive n (printPattern p) name = true ↔
      name ∈ patternLanguage (some maxExtglobRepeat) p) := by
  intro n
  induction n with
  | zero =>
    intro p hn hp
    have hread := (hp p .refl).1
    rcases texts_or_op p with htexts | ⟨pre, o, alt, alts, suf, rfl, hpre⟩
    · rw [extglobMatchRecursive]
      exact globMatchInner_print_iff (hread.texts htexts).2 (.inl htexts)
    · rw [patternWeight_append, patternWeight, ExtglobItem.weight] at hn
      omega
  | succ n ih =>
    intro p hn hp
    rcases hp p .refl with ⟨hread, hneg⟩
    rcases texts_or_op p with htexts | ⟨pre, o, alt, alts, suf, rfl, hpre⟩
    · rcases hread.texts htexts with ⟨hfind, halike⟩
      simp only [extglobMatchRecursive, hfind]
      exact globMatchInner_print_iff halike (.inl htexts)
    · rcases hread.operator rfl hpre with ⟨hfind, hsplit⟩
      have hmatch : DecidesTried (extglobMatchRecursive n) (pre ++ .op o alt alts :: suf)
          name := by
        intro q hq
        refine ih q (Nat.le_of_lt_succ (hq.replaces.patternWeight_lt.trans_le hn)) fun r hr => ?_
        exact hp r (.head hq hr)
      simp only [extglobMatchRecursive, hfind]
      by_cases ho : o = .neg
      · subst ho
        exact negation_iff hpre hmatch hread hneg
      · exact operator_iff ho hpre hmatch hsplit

theorem add_lt_pow_add {a b m n : Nat} (ha : a < 44 ^ m) (hb : b < 44 ^ n) :
    a + b < 44 ^ (m + n) := by
  have hmul : (a + 1) * (b + 1) ≤ 44 ^ m * 44 ^ n := Nat.mul_le_mul ha hb
  rw [Nat.succ_mul, Nat.mul_succ] at hmul
  rw [pow_add]
  omega

theorem ExtglobOp.count_char (o : ExtglobOp) : [o.char].count '(' = 0 := by
  cases o <;> rfl

mutual

/-- Every operator that is written has a parenthesis, which pays for its replacements. -/
theorem ExtglobItem.weight_lt : ∀ i : ExtglobItem, i.weight < 44 ^ i.print.count '('
  | .text t => Nat.pow_pos (by decide)
  | .op o alt alts => by
    have hsum := add_lt_pow_add (patternWeight_lt alt) (alternativesWeight_lt alts)
    have hcount : (ExtglobItem.op o alt alts).print.count '(' =
        (printPattern alt).count '(' + (printAlternatives alts).count '(' + 1 := by
      rw [ExtglobItem.print, ← List.singleton_append (x := o.char), List.append_assoc,
        List.count_append, o.count_char]
      simp
    rw [hcount, pow_succ, ExtglobItem.weight, maxExtglobRepeat]
    omega

theorem patternWeight_lt : ∀ p : List ExtglobItem, patternWeight p < 44 ^ (printPattern p).count '('
  | [] => Nat.pow_pos (by decide)
  | i :: p => by
    rw [patternWeight, printPattern, List.count_append]
    exact add_lt_pow_add i.weight_lt (patternWeight_lt p)

theorem alternativesWeight_lt : ∀ ps : List (List ExtglobItem),
    alternativesWeight ps < 44 ^ (printAlternatives ps).count '('
  | [] => Nat.pow_pos (by decide)
  | p :: ps => by
    have hcount : (printAlternatives (p :: ps)).count '(' =
        (printPattern p).count '(' + (printAlternatives ps).count '(' := by
      rw [printAlternatives, List.cons_append, List.count_cons_of_ne (by decide), List.count_append]
    rw [alternativesWeight, hcount]
    exact add_lt_pow_add (patternWeight_lt p) (alternativesWeight_lt ps)

end

/-- The matcher decides the language with the bounded repetitions. -/
theorem extglobMatch_iff (p : ExtglobPattern) (name : List Char)
    (hread : ∀ q, Relation.ReflTransGen (Tries name) p q → ReadsBack q name)
    (hneg : ∀ q, Relation.ReflTransGen (Tries name) p q →
      Unambiguous (some maxExtglobRepeat) q name) :
    extglobMatch (printPattern p) name = true ↔
      name ∈ patternLanguage (some maxExtglobRepeat) p := by
  rw [extglobMatch]
  refine extglobMatchRecursive_iff name _ p ?_ fun q hq => ⟨hread q hq, hneg q hq⟩
  exact Nat.le_succ_of_le (patternWeight_lt p).le

end Wasmsh.Globs

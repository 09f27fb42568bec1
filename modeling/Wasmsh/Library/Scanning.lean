import Mathlib.Combinatorics.Enumerative.DyckWord

/-!
# Scanning bracketed text

A scanner reads a list from the left and remembers how far it has come.  This
module holds what scanners share and names no particular language: the cursor,
the relation "this cursor is reached from that one", and the loop that looks for
the bracket closing an already opened region.

The loop is parametric in its *lexeme*: what one turn of the loop consumes, and
whether that piece opens a nested region, closes one, or neither.  The result of
the module is `findClose_eq_some_iff`: the loop stops at a given closing lexeme
exactly when the lexemes before it form a balanced bracket word, balanced being
Mathlib's `DyckWord`.
-/

namespace Scanning

open DyckStep

variable {ts : List DyckStep}

/-! ## 1. Cursors -/

/-- A position in a text together with the text from there on. -/
structure Cursor (α : Type) where
  pos : Nat
  rest : List α
  deriving DecidableEq, Repr

variable {α : Type}

namespace Cursor

/-- Move `n` symbols to the right. -/
def skip (c : Cursor α) (n : Nat) : Cursor α := ⟨c.pos + n, c.rest.drop n⟩

/-- Move to the end of the text. -/
def atEnd (c : Cursor α) : Cursor α := ⟨c.pos + c.rest.length, []⟩

/-- The text between a cursor and a later one. -/
def slice (c c' : Cursor α) : List α := c.rest.take (c'.pos - c.pos)

/-- The same position in a text that continues with `t`. -/
def extend (c : Cursor α) (t : List α) : Cursor α := ⟨c.pos, c.rest ++ t⟩

@[simp] theorem extend_pos (c : Cursor α) (t : List α) : (c.extend t).pos = c.pos := rfl
@[simp] theorem extend_rest (c : Cursor α) (t : List α) :
    (c.extend t).rest = c.rest ++ t := rfl
@[simp] theorem skip_pos (c : Cursor α) (n : Nat) : (c.skip n).pos = c.pos + n := rfl
@[simp] theorem skip_rest (c : Cursor α) (n : Nat) :
    (c.skip n).rest = c.rest.drop n := rfl

theorem length_skip_le (c : Cursor α) (n : Nat) : (c.skip n).rest.length ≤ c.rest.length := by
  rw [skip_rest, List.length_drop]
  exact Nat.sub_le _ _

@[simp] theorem atEnd_rest (c : Cursor α) : c.atEnd.rest = [] := rfl

/-- `c'` lies at or after `c` in the same text: its text is a suffix, and the
    positions count the symbols in between. -/
def Reaches (c c' : Cursor α) : Prop :=
  ∃ u, c.rest = u ++ c'.rest ∧ c'.pos = c.pos + u.length

namespace Reaches

theorem refl (c : Cursor α) : c.Reaches c := ⟨[], rfl, rfl⟩

theorem trans {a b c : Cursor α} (hab : a.Reaches b) (hbc : b.Reaches c) :
    a.Reaches c := by
  obtain ⟨u, hu, hpu⟩ := hab
  obtain ⟨v, hv, hpv⟩ := hbc
  refine ⟨u ++ v, ?_, ?_⟩
  · rw [hu, hv, List.append_assoc]
  · rw [hpv, hpu, List.length_append, Nat.add_assoc]

theorem skip {c : Cursor α} {n : Nat} (h : n ≤ c.rest.length) :
    c.Reaches (c.skip n) := by
  refine ⟨c.rest.take n, (List.take_append_drop n c.rest).symm, ?_⟩
  simp [List.length_take, Nat.min_eq_left h]

theorem atEnd (c : Cursor α) : c.Reaches c.atEnd := by
  refine ⟨c.rest, ?_, rfl⟩
  simp [Cursor.atEnd]

theorem pos_le {c c' : Cursor α} (h : c.Reaches c') : c.pos ≤ c'.pos := by
  obtain ⟨u, -, hp⟩ := h
  omega

theorem length_le {c c' : Cursor α} (h : c.Reaches c') :
    c'.rest.length ≤ c.rest.length := by
  obtain ⟨u, hu, -⟩ := h
  rw [hu, List.length_append]
  omega

/-- Position and remaining length add up to the end of the text. -/
theorem pos_add_length {c c' : Cursor α} (h : c.Reaches c') :
    c'.pos + c'.rest.length = c.pos + c.rest.length := by
  obtain ⟨u, hu, hp⟩ := h
  rw [hu, hp, List.length_append]
  omega

/-- A cursor ahead of `c` is determined by its position. -/
theorem eq_of_pos_eq {c a b : Cursor α} (ha : c.Reaches a) (hb : c.Reaches b)
    (h : a.pos = b.pos) : a = b := by
  obtain ⟨u, hu, hpu⟩ := ha
  obtain ⟨v, hv, hpv⟩ := hb
  have hlen : u.length = v.length := by omega
  have hrest : a.rest = b.rest := (List.append_inj (hu.symm.trans hv) hlen).2
  cases a
  cases b
  simp_all

end Reaches

/-- `c'` lies strictly after `c` in the same text. -/
def Passes (c c' : Cursor α) : Prop := c.Reaches c' ∧ c.pos < c'.pos

namespace Passes

theorem length_lt {c c' : Cursor α} (h : c.Passes c') : c'.rest.length < c.rest.length := by
  have := h.1.pos_add_length
  have := h.2
  omega

theorem skip {c : Cursor α} {n : Nat} (hn : 0 < n) (h : n ≤ c.rest.length) :
    c.Passes (c.skip n) := ⟨.skip h, by simp [hn]⟩

theorem skip_one {c : Cursor α} (h : c.rest ≠ []) : c.Passes (c.skip 1) :=
  .skip Nat.one_pos (List.length_pos_of_ne_nil h)

/-- Behind the `n` symbols of a known beginning of the text. -/
theorem of_append {c : Cursor α} {u r : List α} {n : Nat} (h : c.rest = u ++ r)
    (hn : n = c.pos + u.length) (hu : u ≠ []) : c.Passes ⟨n, r⟩ :=
  ⟨⟨u, h, hn⟩, by have := List.length_pos_of_ne_nil hu; simp only; omega⟩

theorem trans_reaches {a b c : Cursor α} (hab : a.Passes b) (hbc : b.Reaches c) :
    a.Passes c := ⟨hab.1.trans hbc, Nat.lt_of_lt_of_le hab.2 hbc.pos_le⟩

theorem trans {a b c : Cursor α} (hab : a.Passes b) (hbc : b.Passes c) : a.Passes c :=
  hab.trans_reaches hbc.1

end Passes

end Cursor

/-! ## 2. Bracket depth

The depth counter of a scanner, started at `d` and stopped when a closing step
would bring it to zero, is the height of a lattice path; started at one, it comes
back to one exactly on Dyck words. -/

/-- The depth after the steps `ts`; `none` when a closing step meets depth one. -/
def level : Nat → List DyckStep → Option Nat
  | d, [] => some d
  | d, U :: ts => level (d + 1) ts
  | d, D :: ts => if d = 1 then none else level (d - 1) ts

theorem level_eq_some_iff (ts : List DyckStep) (d e : Nat) (hd : 0 < d) :
    level d ts = some e ↔
      (∀ i, (ts.take i).count D < (ts.take i).count U + d) ∧
        ts.count U + d = ts.count D + e := by
  induction ts generalizing d with
  | nil => simp [level, hd]
  | cons s ts ih =>
    cases s with
    | U =>
      rw [level, ih (d + 1) (by omega)]
      refine and_congr ⟨fun h i => ?_, fun h i => ?_⟩ ?_
      · cases i with
        | zero => simpa using hd
        | succ i => have := h i; simp; omega
      · have := h (i + 1); simp at this; omega
      · simp; omega
    | D =>
      rw [level]
      by_cases h1 : d = 1
      · -- the first step already brings the counter to zero
        subst h1
        simp only [if_true, reduceCtorEq, false_iff, not_and]
        intro h
        exact absurd (h 1) (by simp)
      · rw [if_neg h1, ih (d - 1) (by omega)]
        refine and_congr ⟨fun h i => ?_, fun h i => ?_⟩ ?_
        · cases i with
          | zero => simpa using hd
          | succ i => have := h i; simp; omega
        · have := h (i + 1); simp at this; omega
        · simp; omega

/-- **Balanced bracket words are Dyck words**: as many closing as opening steps, and
    never more closing than opening ones in a prefix. -/
def Balanced (ts : List DyckStep) : Prop := ∃ w : DyckWord, w.toList = ts

theorem level_one_iff_balanced (ts : List DyckStep) :
    level 1 ts = some 1 ↔ Balanced ts := by
  rw [level_eq_some_iff ts 1 1 Nat.one_pos]
  constructor
  · rintro ⟨hle, heq⟩
    exact ⟨⟨ts, by omega, fun i => by have := hle i; omega⟩, rfl⟩
  · rintro ⟨w, rfl⟩
    refine ⟨fun i => ?_, ?_⟩
    · have := w.count_D_le_count_U i
      omega
    · have := w.count_U_eq_count_D
      omega

instance (ts : List DyckStep) : Decidable (Balanced ts) :=
  decidable_of_iff _ (level_one_iff_balanced ts)

/-! ## 3. The loop that looks for the closing lexeme -/

/-- What one turn of a scanning loop makes of the text at the cursor: the bracket
    step it counts, if any, and the cursor after it. -/
abbrev Lexeme (α : Type) := Cursor α → Option DyckStep × Cursor α

/-- Every lexeme takes at least one symbol and moves forward. -/
def Lexeme.Consumes (lexeme : Lexeme α) : Prop :=
  ∀ c : Cursor α, c.rest ≠ [] → c.Passes (lexeme c).2

/-- Count brackets until the region opened `d` levels up is closed.  Returns the
    cursors before and after the closing lexeme, `none` when the text ends first.
    The first argument bounds the number of turns. -/
def findClose (lexeme : Lexeme α) : Nat → Nat → Cursor α → Option (Cursor α × Cursor α)
  | 0, _, _ => none
  | n + 1, d, c =>
    match c.rest with
    | [] => none
    | _ :: _ =>
      match lexeme c with
      | (some U, c') => findClose lexeme n (d + 1) c'
      | (some D, c') => if d = 1 then some (c, c') else findClose lexeme n (d - 1) c'
      | (none, c') => findClose lexeme n d c'

/-- From `c`, the loop comes to `k` with the bracket steps `ts`. -/
inductive Lexemes (lexeme : Lexeme α) : Cursor α → List DyckStep → Cursor α → Prop
  | nil (c : Cursor α) : Lexemes lexeme c [] c
  | step {c c' k : Cursor α} {s : DyckStep} {ts : List DyckStep} :
      c.rest ≠ [] → lexeme c = (some s, c') → Lexemes lexeme c' ts k →
        Lexemes lexeme c (s :: ts) k
  | skip {c c' k : Cursor α} {ts : List DyckStep} :
      c.rest ≠ [] → lexeme c = (none, c') → Lexemes lexeme c' ts k →
        Lexemes lexeme c ts k

theorem Lexemes.reaches {lexeme : Lexeme α} (hlex : lexeme.Consumes) {c k : Cursor α}
    (h : Lexemes lexeme c ts k) : c.Reaches k := by
  induction h with
  | nil c => exact .refl c
  | step hne heq _ ih | skip hne heq _ ih =>
    have hstep := (hlex _ hne).1
    rw [heq] at hstep
    exact hstep.trans ih

/-- One turn of the loop, with the end of the text read off. -/
theorem findClose_succ (lexeme : Lexeme α) (n d : Nat) {c : Cursor α} (hne : c.rest ≠ []) :
    findClose lexeme (n + 1) d c =
      match lexeme c with
      | (some U, c') => findClose lexeme n (d + 1) c'
      | (some D, c') => if d = 1 then some (c, c') else findClose lexeme n (d - 1) c'
      | (none, c') => findClose lexeme n d c' := by
  cases hr : c.rest with
  | nil => exact absurd hr hne
  | cons a l => simp only [findClose, hr]

theorem findClose_sound (lexeme : Lexeme α) :
    ∀ (n d : Nat) (c k w : Cursor α), findClose lexeme n d c = some (k, w) →
      ∃ ts, Lexemes lexeme c ts k ∧ level d ts = some 1 ∧ k.rest ≠ [] ∧
        lexeme k = (some D, w) := by
  intro n
  induction n with
  | zero =>
    intro d c k w h
    simp [findClose] at h
  | succ n ih =>
    intro d c k w h
    by_cases hne : c.rest = []
    · simp [findClose, hne] at h
    rw [findClose_succ lexeme n d hne] at h
    rcases hlx : lexeme c with ⟨_ | s, c'⟩
    · simp only [hlx] at h
      obtain ⟨ts, hts, hlev, hk⟩ := ih d c' k w h
      exact ⟨ts, .skip hne hlx hts, hlev, hk⟩
    · cases s with
      | U =>
        simp only [hlx] at h
        obtain ⟨ts, hts, hlev, hk⟩ := ih (d + 1) c' k w h
        exact ⟨U :: ts, .step hne hlx hts, hlev, hk⟩
      | D =>
        simp only [hlx] at h
        by_cases hd : d = 1
        · rw [if_pos hd] at h
          obtain ⟨rfl, rfl⟩ : c = k ∧ c' = w := by simpa using h
          exact ⟨[], .nil c, by simp [level, hd], hne, hlx⟩
        · rw [if_neg hd] at h
          obtain ⟨ts, hts, hlev, hk⟩ := ih (d - 1) c' k w h
          exact ⟨D :: ts, .step hne hlx hts, by simp [level, hd, hlev], hk⟩

theorem findClose_complete {lexeme : Lexeme α} (hlex : lexeme.Consumes)
    {c k w : Cursor α} (h : Lexemes lexeme c ts k) :
    ∀ n d : Nat, c.rest.length ≤ n → level d ts = some 1 → k.rest ≠ [] →
      lexeme k = (some D, w) → findClose lexeme n d c = some (k, w) := by
  induction h with
  | nil c =>
    intro n d hn hd hne hk
    obtain ⟨n, rfl⟩ : ∃ m, n = m + 1 :=
      ⟨n - 1, by have := List.length_pos_of_ne_nil hne; omega⟩
    obtain rfl : d = 1 := by simpa [level] using hd
    simp [findClose_succ lexeme n 1 hne, hk]
  | @step c c' k s ts hne heq _ ih =>
    intro n d hn hd hk hw
    have hlt := (hlex c hne).length_lt
    rw [heq] at hlt
    obtain ⟨n, rfl⟩ : ∃ m, n = m + 1 := ⟨n - 1, by omega⟩
    rw [findClose_succ lexeme n d hne, heq]
    cases s with
    | U => exact ih n (d + 1) (by simp at hlt; omega) hd hk hw
    | D =>
      by_cases h1 : d = 1
      · simp [level, h1] at hd
      · simp only [level, if_neg h1] at hd
        simp only [if_neg h1]
        exact ih n (d - 1) (by simp at hlt; omega) hd hk hw
  | @skip c c' k ts hne heq _ ih =>
    intro n d hn hd hk hw
    have hlt := (hlex c hne).length_lt
    rw [heq] at hlt
    obtain ⟨n, rfl⟩ : ∃ m, n = m + 1 := ⟨n - 1, by omega⟩
    rw [findClose_succ lexeme n d hne, heq]
    exact ih n d (by simp at hlt; omega) hd hk hw

/-- **The loop stops at a closing lexeme exactly when the lexemes before it are
    balanced.** -/
theorem findClose_eq_some_iff {lexeme : Lexeme α} (hlex : lexeme.Consumes)
    {n : Nat} {c k w : Cursor α} (hn : c.rest.length ≤ n) :
    findClose lexeme n 1 c = some (k, w) ↔
      ∃ ts, Lexemes lexeme c ts k ∧ Balanced ts ∧ k.rest ≠ [] ∧
        lexeme k = (some D, w) := by
  constructor
  · intro h
    obtain ⟨ts, hts, hlev, hk⟩ := findClose_sound lexeme n 1 c k w h
    exact ⟨ts, hts, (level_one_iff_balanced ts).mp hlev, hk⟩
  · rintro ⟨ts, hts, hbal, hk, hw⟩
    exact findClose_complete hlex hts n 1 hn ((level_one_iff_balanced ts).mpr hbal) hk hw

/-! ## 4. Where a body ends

A body `v` followed by a closing delimiter: the loop stops at that delimiter exactly
when the body, read on its own, gives a balanced word. -/

/-- The text from `c` to `c'` is the body `v` and the delimiter `closing`. -/
structure Closes (c : Cursor α) (closing : List α) (c' : Cursor α) (v : List α) : Prop where
  rest : c.rest = v ++ closing ++ c'.rest
  pos : c'.pos = c.pos + v.length + closing.length

theorem Closes.passes {c c' : Cursor α} {b : α} {closing v : List α}
    (h : Closes c (b :: closing) c' v) : c.Passes c' :=
  ⟨⟨v ++ b :: closing, h.rest, by simp [h.pos, Nat.add_assoc]⟩, by simp [h.pos]; omega⟩

/-- The turns of the loop on a body followed by `tail`, told by a function on the body:
    a lexeme either stays inside the body, or runs over its end. -/
structure ReadsSteps (lexeme : Lexeme α) (tail : List α)
    (steps : List α → Option (List DyckStep)) : Prop where
  nil : steps [] = some []
  cons : ∀ (p : Nat) (v : List α), v ≠ [] →
    (∃ u v', u ≠ [] ∧ v = u ++ v' ∧
      (lexeme ⟨p, v ++ tail⟩).2 = ⟨p + u.length, v' ++ tail⟩ ∧
      steps v = (steps v').map ((lexeme ⟨p, v ++ tail⟩).1.toList ++ ·)) ∨
    (p + v.length < (lexeme ⟨p, v ++ tail⟩).2.pos ∧ steps v = none)

theorem Lexemes.pos_le {lexeme : Lexeme α} (hlex : lexeme.Consumes) {c k : Cursor α}
    (h : Lexemes lexeme c ts k) : c.pos ≤ k.pos := (h.reaches hlex).pos_le

/-- Reading from a cursor to itself reads nothing. -/
theorem Lexemes.eq_nil {lexeme : Lexeme α} (hlex : lexeme.Consumes) {c k : Cursor α}
    (h : Lexemes lexeme c ts k) (hpos : k.pos ≤ c.pos) : ts = [] := by
  cases h with
  | nil => rfl
  | step hne heq hrest | skip hne heq hrest =>
    have hlt := (hlex c hne).2
    have hle := hrest.pos_le hlex
    rw [heq] at hlt
    simp only at hlt
    omega

/-- The first lexeme of a reading that gets ahead. -/
theorem lexemes_iff_of_lt {lexeme : Lexeme α} {c k : Cursor α}
    (hne : c.rest ≠ []) (hlt : c.pos < k.pos) :
    Lexemes lexeme c ts k ↔
      ∃ ts', ts = (lexeme c).1.toList ++ ts' ∧ Lexemes lexeme (lexeme c).2 ts' k := by
  constructor
  · intro h
    cases h with
    | nil => exact absurd hlt (Nat.lt_irrefl _)
    | @step _ _ _ _ ts' _ heq hrest => exact ⟨ts', by simp [heq], by simpa [heq] using hrest⟩
    | skip _ heq hrest => exact ⟨ts, by simp [heq], by simpa [heq] using hrest⟩
  · rintro ⟨ts', rfl, hrest⟩
    rcases hlx : lexeme c with ⟨_ | s, c'⟩
    · rw [hlx] at hrest
      exact .skip hne hlx hrest
    · rw [hlx] at hrest
      exact .step hne hlx hrest

theorem lexemes_iff_steps {lexeme : Lexeme α} (hlex : lexeme.Consumes) {tail : List α}
    {steps : List α → Option (List DyckStep)} (hsteps : ReadsSteps lexeme tail steps)
    (n : Nat) :
    ∀ (v : List α) (p : Nat) (ts : List DyckStep), v.length ≤ n →
      (Lexemes lexeme ⟨p, v ++ tail⟩ ts ⟨p + v.length, tail⟩ ↔ steps v = some ts) := by
  induction n with
  | zero =>
    intro v p ts hn
    obtain rfl : v = [] := List.length_eq_zero_iff.mp (by omega)
    rw [hsteps.nil]
    constructor
    · intro h
      rw [h.eq_nil hlex (by simp)]
    · intro h
      obtain rfl : [] = ts := by simpa using h
      exact .nil _
  | succ n ih =>
    intro v p ts hn
    by_cases hv : v = []
    · subst hv
      exact ih [] p ts (by simp)
    have hpos := List.length_pos_of_ne_nil hv
    rw [lexemes_iff_of_lt (by simp [hv]) (by simp only; omega)]
    rcases hsteps.cons p v hv with ⟨u, v', hu, rfl, hnext, hstep⟩ | ⟨hover, hstep⟩
    · have hulen := List.length_pos_of_ne_nil hu
      rw [List.length_append] at hn
      have hk : p + (u ++ v').length = p + u.length + v'.length := by
        rw [List.length_append, Nat.add_assoc]
      rw [hstep, hnext, hk]
      simp only [ih v' (p + u.length) _ (by omega), Option.map_eq_some_iff]
      constructor
      · rintro ⟨ts', rfl, hts'⟩
        exact ⟨ts', hts', rfl⟩
      · rintro ⟨ts', hts', rfl⟩
        exact ⟨ts', rfl, hts'⟩
    · -- the lexeme ran over the end of the body: the loop cannot come back to it
      rw [hstep]
      simp only [reduceCtorEq, iff_false]
      rintro ⟨ts', -, hrest⟩
      have := hrest.pos_le hlex
      simp only at this
      omega

/-- **A body is closed at its own delimiter exactly when it is balanced.** -/
theorem findClose_closes_iff {lexeme : Lexeme α} (hlex : lexeme.Consumes)
    {closing : List α} {c c' : Cursor α} {v : List α}
    {steps : List α → Option (List DyckStep)}
    (hsteps : ReadsSteps lexeme (closing ++ c'.rest) steps)
    (hclose : ∀ k : Cursor α, (k.rest ≠ [] ∧ lexeme k = (some D, c')) ↔
      (k.rest = closing ++ c'.rest ∧ k.pos + closing.length = c'.pos))
    (h : Closes c closing c' v) {n : Nat} (hn : c.rest.length ≤ n) :
    (∃ k, findClose lexeme n 1 c = some (k, c')) ↔ ∃ ts, steps v = some ts ∧ Balanced ts := by
  have hc : c = ⟨c.pos, v ++ (closing ++ c'.rest)⟩ := by
    rw [← List.append_assoc, ← h.rest]
  have hread := lexemes_iff_steps hlex hsteps v.length v c.pos
  constructor
  · rintro ⟨k, hk⟩
    obtain ⟨ts, hts, hbal, hkc⟩ := (findClose_eq_some_iff hlex hn).mp hk
    obtain ⟨hkr, hkp⟩ := (hclose k).mp hkc
    have hkeq : k = ⟨c.pos + v.length, closing ++ c'.rest⟩ := by
      have := h.pos
      obtain ⟨kp, kr⟩ := k
      simp only [Cursor.mk.injEq] at hkr hkp ⊢
      exact ⟨by omega, hkr⟩
    rw [hc, hkeq] at hts
    exact ⟨ts, (hread ts (Nat.le_refl _)).mp hts, hbal⟩
  · rintro ⟨ts, hts, hbal⟩
    refine ⟨⟨c.pos + v.length, closing ++ c'.rest⟩, ?_⟩
    refine (findClose_eq_some_iff hlex hn).mpr ⟨ts, ?_, hbal, ?_⟩
    · have := (hread ts (Nat.le_refl _)).mpr hts
      rwa [← hc] at this
    · exact (hclose _).mpr ⟨rfl, h.pos.symm⟩

end Scanning

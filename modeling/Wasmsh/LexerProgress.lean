import Wasmsh.Lexer

/-!
# Progress of the lexer

Three facts about every scanner of `Wasmsh.Lexer`: where it returns, it has moved
forward, the marks it returns lie ahead of where it started, and it stops at its bound
only on a text that is longer.  All are shown for a scanner whose `$` argument reads as
`DollarRead` says, and then for `consumeDollar` by induction on the nesting.
-/

namespace Wasmsh.Lex

open Scanning DyckStep

variable {dollar : Text → MarkedScan} {N : Nat} {c : Text} {r : List Char}

theorem bind_eq_ok {α β : Type} {x : Scan α} {f : α → Scan β} {b : β} :
    (x >>= f) = .ok b ↔ ∃ a, x = .ok a ∧ f a = .ok b := by
  cases x <;> simp [bind, Except.bind]

@[simp] theorem pure_eq_ok {α : Type} {a b : α} : (pure a : Scan α) = .ok b ↔ a = b := by
  simp [pure, Except.pure]

@[simp] theorem pure_ne_error {α : Type} {a : α} {e : Halt} :
    (pure a : Scan α) ≠ .error e := by
  simp [pure, Except.pure]

theorem bind_eq_error {α β : Type} {x : Scan α} {f : α → Scan β} {e : Halt} :
    (x >>= f) = .error e ↔ x = .error e ∨ ∃ a, x = .ok a ∧ f a = .error e := by
  cases x <;> simp [bind, Except.bind]

/-! ## 1. Scans -/

/-- Where the scan returns, `P` holds; it stops at its bound only if `q`. -/
def Returns {α : Type} (q : Prop) (P : α → Prop) : Scan α → Prop
  | .ok a => P a
  | .error e => e = .outOfFuel → q

section

variable {α β : Type} {q q' : Prop} {P P' : α → Prop} {Q : β → Prop} {x : Scan α}

theorem Returns.of_ok {a : α} (h : Returns q P x) (hx : x = .ok a) : P a := by
  rw [hx] at h
  exact h

theorem Returns.ne (h : Returns False P x) : x ≠ .error .outOfFuel := by
  rintro rfl
  exact h rfl

theorem Returns.mono (h : Returns q P x) (hq : q → q') (hP : ∀ a, P a → P' a) :
    Returns q' P' x := by
  cases x with
  | ok a => exact hP a h
  | error e => exact fun he => hq (h he)

theorem Returns.bind {f : α → Scan β} (h : Returns q P x) (hf : ∀ a, P a → Returns q Q (f a)) :
    Returns q Q (x >>= f) := by
  cases x with
  | ok a => exact hf a h
  | error e => exact h

theorem Returns.map {f : α → β} (h : Returns q (fun a => Q (f a)) x) : Returns q Q (x.map f) := by
  cases x with
  | ok a => exact h
  | error e => exact h

theorem returns_unterminated (what : String) (start : Nat) (c : Text) :
    Returns q P (.error (unterminated what start c)) := nofun

end

/-- What a loop finds ahead it has found from here. -/
theorem exists_closes {c c₁ c' : Text} {closing : List Char} (hreach : c.Reaches c₁)
    (h : ∃ v, Closes c₁ closing c' v) : ∃ v, Closes c closing c' v := by
  obtain ⟨u, hu, hp⟩ := hreach
  obtain ⟨v, hv⟩ := h
  refine ⟨u ++ v, by simp [hu, hv.rest], ?_⟩
  have := hv.pos
  rw [List.length_append]
  omega

/-! ## 2. Quotes and escapes -/

/-- A single-quoted string ends at the first quote. -/
theorem singleQuotedLoop_returns (start pos : Nat) (r : List Char) :
    Returns False (fun c' => ∃ v, '\'' ∉ v ∧ r = v ++ '\'' :: c'.rest ∧ c'.pos = pos + v.length + 1)
      (singleQuotedLoop start pos r) := by
  fun_induction singleQuotedLoop start pos r with
  | case1 => exact returns_unterminated _ _ _
  | case2 pos r => exact ⟨[], by simp, rfl, rfl⟩
  | case3 pos b r hb ih =>
    refine ih.mono id ?_
    rintro c' ⟨v, hv, hr, hp⟩
    refine ⟨b :: v, ?_, by simp [hr], by simp [hp]; omega⟩
    simp only [List.mem_cons, not_or]
    exact ⟨fun he => hb he.symm, hv⟩

theorem consumeSingleQuoted_ok {c c' : Text} {b : Char} (hc : c.rest = b :: r)
    (h : consumeSingleQuoted c = .ok c') :
    ∃ v, '\'' ∉ v ∧ r = v ++ '\'' :: c'.rest ∧ c'.pos = c.pos + 1 + v.length + 1 := by
  have := (singleQuotedLoop_returns _ _ _).of_ok h
  simpa [hc] using this

theorem consumeSingleQuoted_returns (c : Text) :
    Returns False (fun c' => (c.skip 1).Passes c') (consumeSingleQuoted c) := by
  refine (singleQuotedLoop_returns _ _ _).mono id ?_
  rintro c' ⟨v, -, hr, hp⟩
  exact ⟨⟨v ++ ['\''], by simp [hr], by simp [hp]; omega⟩, by simp; omega⟩

theorem backtickLoop_returns (start pos : Nat) (r : List Char) :
    Returns False (fun c' => ∃ v, backtickBody v ∧ r = v ++ '`' :: c'.rest ∧
      c'.pos = pos + v.length + 1) (backtickLoop start pos r) := by
  fun_induction backtickLoop start pos r with
  | case1 => exact returns_unterminated _ _ _
  | case2 pos r => exact ⟨[], rfl, rfl, rfl⟩
  | case3 pos b r ih =>
    refine ih.mono id ?_
    rintro c' ⟨v, hv, hr, hp⟩
    exact ⟨'\\' :: b :: v, by simp [backtickBody, hv], by simp [hr], by simp [hp]; omega⟩
  | case4 pos b r hb hesc ih =>
    by_cases hlast : b = '\\' ∧ r = []
    · rw [hlast.2]
      exact returns_unterminated _ _ _
    refine ih.mono id ?_
    rintro c' ⟨v, hv, hr, hp⟩
    have hne : b ≠ '\\' := by
      rintro rfl
      cases r with
      | nil => exact hlast ⟨rfl, rfl⟩
      | cons a r => exact hesc a r rfl rfl
    refine ⟨b :: v, ?_, by simp [hr], by simp [hp]; omega⟩
    unfold backtickBody
    split <;> simp_all

theorem consumeBacktick_ok {c c' : Text} {b : Char} (hc : c.rest = b :: r)
    (h : consumeBacktick c = .ok c') :
    ∃ v, backtickBody v ∧ r = v ++ '`' :: c'.rest ∧ c'.pos = c.pos + 1 + v.length + 1 := by
  have := (backtickLoop_returns _ _ _).of_ok h
  simpa [hc] using this

theorem consumeBacktick_returns (c : Text) :
    Returns False (fun c' => (c.skip 1).Passes c') (consumeBacktick c) := by
  refine (backtickLoop_returns _ _ _).mono id ?_
  rintro c' ⟨v, -, hr, hp⟩
  exact ⟨⟨v ++ ['`'], by simp [hr], by simp [hp]; omega⟩, by simp; omega⟩

theorem consumeBackslash_passes (hc : c.rest ≠ []) :
    c.Passes (consumeBackslash c) := by
  unfold consumeBackslash
  split
  · rename_i a b r h
    exact .of_append (u := [a, b]) (by simp [h]) (by simp) (by simp)
  · exact .skip_one hc

/-! ## 3. What a `$` can read -/

/-- **What reading a `$` can do**: the marks and the cursor after it.  The body `v` of a
    region is whatever stands before the place where the scanner closed it. -/
inductive DollarRead (c : Text) : List Mark → Text → Prop
  | quote {r v : List Char} {c' : Text} (hc : c.rest = '$' :: '\'' :: r) (hv : '\'' ∉ v)
      (hcl : Closes (c.skip 2) ['\''] c' v) :
      DollarRead c (Region.singleQuoted.marks (c.skip 2) c') c'
  | arith {r v : List Char} {c' : Text} (hc : c.rest = '$' :: '(' :: '(' :: r)
      (hcl : Closes (c.skip 3) [')', ')'] c' v) :
      DollarRead c (Region.arithmetic.marks (c.skip 3) c') c'
  | command {r v : List Char} {c' : Text} (hc : c.rest = '$' :: '(' :: r)
      (hr : r.head? ≠ some '(') (hcl : Closes (c.skip 2) [')'] c' v) :
      DollarRead c (Region.command.marks (c.skip 2) c') c'
  | brace {r v : List Char} {c' : Text} (hc : c.rest = '$' :: '{' :: r)
      (hcl : Closes (c.skip 2) ['}'] c' v) :
      DollarRead c (Region.brace.marks (c.skip 2) c') c'
  | name {b : Char} {r : List Char} (hc : c.rest = '$' :: b :: r) (hb : isNameStart b = true) :
      DollarRead c [] (consumeIdentifier (c.skip 1))
  | special {b : Char} {r : List Char} (hc : c.rest = '$' :: b :: r)
      (hb : isNameStart b = false) (hs : isSpecialParam b = true) : DollarRead c [] (c.skip 2)
  | lone {r : List Char} (hc : c.rest = '$' :: r)
      (hr : ∀ b ∈ r.head?, b ≠ '\'' ∧ b ≠ '(' ∧ b ≠ '{' ∧ isNameStart b = false ∧
        isSpecialParam b = false) : DollarRead c [] (c.skip 1)

theorem DollarRead.forward {c c' : Text} {marks : List Mark} (h : DollarRead c marks c') :
    c.Passes c' ∧ MarksAfter c.pos marks := by
  have hclosed : ∀ (k : Region) (n : Nat) (closing v : List Char) (b : Char), 0 < n →
      n ≤ c.rest.length → Closes (c.skip n) (b :: closing) c' v →
        c.Passes c' ∧ MarksAfter c.pos (k.marks (c.skip n) c') := by
    intro k n closing v b hn hlen hcl
    have hskip := Cursor.Passes.skip hn hlen
    exact ⟨hskip.trans hcl.passes, Region.marks_after k (by simp [hn]) hcl.passes.1⟩
  cases h with
  | quote hc _ hcl | command hc _ hcl | brace hc hcl =>
    exact hclosed _ 2 _ _ _ (by decide) (by simp [hc]) hcl
  | arith hc hcl => exact hclosed _ 3 _ _ _ (by decide) (by simp [hc]) hcl
  | name hc hb =>
    refine ⟨(Cursor.Passes.skip_one (by simp [hc])).trans_reaches ?_, by simp⟩
    exact .skip (List.takeWhile_prefix _).length_le
  | special hc _ _ => exact ⟨.skip (by decide) (by simp [hc]), by simp⟩
  | lone hc _ => exact ⟨.skip_one (by simp [hc]), by simp⟩

/-- Any scanner that reads a `$` as `DollarRead` says, at cursors before a `$`. -/
def ReadsDollar (scan : Text → MarkedScan) : Prop :=
  ∀ (c : Text) (marks : List Mark) (c' : Text) (r : List Char), c.rest = '$' :: r →
    scan c = .ok (marks, c') → DollarRead c marks c'

/-- And that is stopped by its bound only on texts of at least `N` bytes. -/
def Dollars (N : Nat) (scan : Text → MarkedScan) : Prop :=
  ∀ (c : Text) (r : List Char), c.rest = '$' :: r →
    Returns (N ≤ c.rest.length) (fun p => DollarRead c p.1 p.2) (scan c)

theorem Dollars.reads {scan : Text → MarkedScan} (h : Dollars N scan) :
    ReadsDollar scan := fun c _ _ r hc hread => (h c r hc).of_ok hread

/-- No bound says nothing about bounds. -/
theorem ReadsDollar.dollars {scan : Text → MarkedScan} (h : ReadsDollar scan) : Dollars 0 scan := by
  intro c r hc
  cases hread : scan c with
  | ok p => exact h c p.1 p.2 r hc hread
  | error e => exact fun _ => Nat.zero_le _

/-! ## 4. Double quotes -/

/-- The text is passed over up to some closing text, and the marks lie ahead. -/
def QuotedRead (c : Text) (p : List Mark × Text) : Prop :=
  (∃ v, Closes c ['"'] p.2 v) ∧ MarksAfter c.pos p.1

theorem doubleQuotedLoop_returns (hd : Dollars N dollar)
    (start n : Nat) (c : Text) : Returns (n ≤ c.rest.length ∨ N ≤ c.rest.length) (QuotedRead c)
      (doubleQuotedLoop dollar start n c) := by
  induction n generalizing c with
  | zero => exact fun _ => .inl (Nat.zero_le _)
  | succ n ih =>
    -- the rest of the loop, from a cursor already ahead
    have hrec : ∀ c₁ : Text, c.Passes c₁ →
        Returns (n + 1 ≤ c.rest.length ∨ N ≤ c.rest.length) (QuotedRead c)
          (doubleQuotedLoop dollar start n c₁) := by
      intro c₁ hpass
      have hlt := hpass.length_lt
      refine (ih c₁).mono (by omega) fun p hp => ?_
      exact ⟨exists_closes hpass.1 hp.1, hp.2.mono hpass.1.pos_le⟩
    unfold doubleQuotedLoop
    split
    · exact returns_unterminated _ _ _
    · next r hr => exact ⟨⟨[], by simp [hr], rfl⟩, by simp⟩
    · next hr => exact hrec _ (consumeBackslash_passes (by simp [hr]))
    · next r hr =>
      refine ((hd c r hr).mono .inr fun _ h => h.forward).bind ?_
      rintro ⟨ms, c₁⟩ ⟨hpass, hms⟩
      refine (hrec c₁ hpass).bind ?_
      rintro ⟨more, c₂⟩ ⟨hcl, hmore⟩
      exact ⟨hcl, by simp [hms, hmore]⟩
    · next r hr =>
      have hskip := Cursor.Passes.skip_one (c := c) (by simp [hr])
      refine ((consumeBacktick_returns c).mono False.elim fun _ h => h).bind ?_
      intro c₁ hpass
      refine (hrec c₁ (hskip.trans hpass)).bind ?_
      rintro ⟨more, c₂⟩ ⟨hcl, hmore⟩
      exact ⟨hcl, by simpa using ⟨Region.marks_after _ (by simp) hpass.1, hmore⟩⟩
    · next hr _ _ _ _ => exact hrec _ (.skip_one hr)

theorem doubleQuotedLoop_passes (hd : ReadsDollar dollar)
    {start n : Nat} {c c' : Text} {marks : List Mark}
    (h : doubleQuotedLoop dollar start n c = .ok (marks, c')) :
    c.Passes c' ∧ MarksAfter c.pos marks := by
  obtain ⟨⟨v, hcl⟩, hmarks⟩ := (doubleQuotedLoop_returns hd.dollars _ _ _).of_ok h
  exact ⟨hcl.passes, hmarks⟩

/-- A scanner that moves forward where it returns, logs nothing behind it, and is stopped by
    its bound only on texts of at least `N` bytes. -/
def Forward (N : Nat) (scan : Text → MarkedScan) : Prop :=
  ∀ c : Text, c.rest ≠ [] →
    Returns (N ≤ c.rest.length) (fun p => c.Passes p.2 ∧ MarksAfter c.pos p.1) (scan c)

theorem consumeDoubleQuoted_forward
    (hd : Dollars N dollar) : Forward N (consumeDoubleQuoted dollar) := by
  intro c hc
  have hskip := Cursor.Passes.skip_one hc
  have hlt := hskip.length_lt
  refine ((doubleQuotedLoop_returns hd _ _ _).mono (by omega) fun _ h => h).bind ?_
  rintro ⟨ms, c₁⟩ ⟨⟨v, hcl⟩, hm⟩
  have hpass := hskip.trans hcl.passes
  have hlt : c.pos + 1 < c₁.pos := hcl.passes.2
  refine ⟨hpass, ?_⟩
  simp only [List.cons_append, marksAfter_cons, marksAfter_append, Mark.offset, marksAfter_nil,
    and_true]
  exact ⟨by omega, hm.mono (by simp), by omega⟩

/-! ## 5. Substitutions -/

/-- A body lexeme that moves forward where it returns, and closes at the byte `b`. -/
def BodyReads (N : Nat) (b : Char) (lexeme : BodyLexeme) : Prop :=
  ∀ c : Text, c.rest ≠ [] → Returns (N ≤ c.rest.length)
    (fun p => c.Passes p.2 ∧ (p.1 = some D → Closes c [b] p.2 [])) (lexeme c)

/-- A body loop closes its body at such a byte. -/
theorem consumeBody_returns {lexeme : BodyLexeme} {b : Char}
    (hlex : BodyReads N b lexeme) (what : String) (start n depth : Nat) (c : Text) :
    Returns (n ≤ c.rest.length ∨ N ≤ c.rest.length) (fun c' => ∃ v, Closes c [b] c' v)
      (consumeBody lexeme what start n depth c) := by
  induction n generalizing depth c with
  | zero => exact fun _ => .inl (Nat.zero_le _)
  | succ n ih =>
    unfold consumeBody
    split
    · exact returns_unterminated _ _ _
    · next a r hr =>
      refine ((hlex c (by simp [hr])).mono .inr fun _ h => h).bind ?_
      rintro ⟨s, c₁⟩ ⟨hpass, hclose⟩
      have hlt : c₁.rest.length < c.rest.length := hpass.length_lt
      have hrec : ∀ d, Returns (n + 1 ≤ c.rest.length ∨ N ≤ c.rest.length)
          (fun c' => ∃ v, Closes c [b] c' v) (consumeBody lexeme what start n d c₁) := fun d =>
        (ih d c₁).mono (by omega) fun _ => exists_closes hpass.1
      rcases s with _ | _ | _
      · exact hrec _
      · exact hrec _
      · dsimp only
        split
        · exact ⟨[], hclose rfl⟩
        · exact hrec _

/-- Nothing that is passed over closes a body. -/
theorem passOver_returns {q : Prop} {b : Char} {x : Scan Text}
    (h : Returns q (fun c' => c.Passes c') x) :
    Returns q (fun p => c.Passes p.2 ∧ (p.1 = some D → Closes c [b] p.2 [])) (passOver x) :=
  Returns.map (h.mono id fun _ hp => ⟨hp, nofun⟩)

theorem commandLexeme_reads (hd : Dollars N dollar) :
    BodyReads N ')' (commandLexeme dollar) := by
  intro c hc
  have hskip := Cursor.Passes.skip_one hc
  unfold commandLexeme
  split
  · exact ⟨hskip, nofun⟩
  · next hr => exact ⟨hskip, fun _ => ⟨by simp [hr], rfl⟩⟩
  · exact passOver_returns ((consumeSingleQuoted_returns c).mono False.elim fun _ h => hskip.trans h)
  · exact passOver_returns (.map ((consumeDoubleQuoted_forward hd c hc).mono id fun _ h => h.1))
  · exact ⟨consumeBackslash_passes hc, nofun⟩
  · next hr => exact passOver_returns (.map ((hd c _ hr).mono id fun _ h => h.forward.1))
  · exact ⟨hskip, nofun⟩

theorem braceLexeme_reads (hd : Dollars N dollar) :
    BodyReads N '}' (braceLexeme dollar) := by
  intro c hc
  have hskip := Cursor.Passes.skip_one hc
  unfold braceLexeme
  split
  · exact ⟨hskip, nofun⟩
  · next hr => exact ⟨hskip, fun _ => ⟨by simp [hr], rfl⟩⟩
  · exact passOver_returns ((consumeSingleQuoted_returns c).mono False.elim fun _ h => hskip.trans h)
  · exact passOver_returns (.map ((consumeDoubleQuoted_forward hd c hc).mono id fun _ h => h.1))
  · exact ⟨consumeBackslash_passes hc, nofun⟩
  · exact ⟨hskip, nofun⟩

theorem extglobLexeme_reads (N : Nat) : BodyReads N ')' extglobLexeme := by
  intro c hc
  have hskip := Cursor.Passes.skip_one hc
  unfold extglobLexeme
  split
  · exact ⟨hskip, nofun⟩
  · next hr => exact ⟨hskip, fun _ => ⟨by simp [hr], rfl⟩⟩
  · exact ⟨consumeBackslash_passes hc, nofun⟩
  · exact ⟨hskip, nofun⟩

/-- A `)` inside `$(( ))` is passed over, or is the first of the outermost pair. -/
theorem consumeArithmeticCloseParen_reads (hr : c.rest = ')' :: r)
    {pd dd pd' dd' : Nat} {closed : Bool} {c' : Text}
    (h : consumeArithmeticCloseParen pd dd c = (closed, pd', dd', c')) :
    c.Passes c' ∧ (closed = true → Closes c [')', ')'] c' []) := by
  have hskip := Cursor.Passes.skip_one (c := c) (by simp [hr])
  unfold consumeArithmeticCloseParen at h
  split at h
  · obtain ⟨rfl, -, -, rfl⟩ : false = closed ∧ _ ∧ _ ∧ c.skip 1 = c' := by simpa using h
    exact ⟨hskip, nofun⟩
  · split at h
    · next hnext =>
      obtain ⟨-, -, -, rfl⟩ : _ ∧ _ ∧ _ ∧ c.skip 2 = c' := by simpa using h
      obtain ⟨s, rfl⟩ : ∃ s, r = ')' :: s := by
        rw [hr, List.drop_one, List.tail_cons] at hnext
        exact List.head?_eq_some_iff.mp hnext
      exact ⟨.skip (by decide) (by simp [hr]), fun _ => ⟨by simp [hr], rfl⟩⟩
    · obtain ⟨rfl, -, -, rfl⟩ : false = closed ∧ _ ∧ _ ∧ c.skip 1 = c' := by simpa using h
      exact ⟨hskip, nofun⟩

theorem arithmeticLoop_returns (hd : Dollars N dollar)
    (start n parenDepth dblDepth : Nat) (c : Text) :
    Returns (n ≤ c.rest.length ∨ N ≤ c.rest.length) (fun c' => ∃ v, Closes c [')', ')'] c' v)
      (arithmeticLoop dollar start n parenDepth dblDepth c) := by
  induction n generalizing parenDepth dblDepth c with
  | zero => exact fun _ => .inl (Nat.zero_le _)
  | succ n ih =>
    have hrec : ∀ (p d : Nat) (c₁ : Text), c.Passes c₁ →
        Returns (n + 1 ≤ c.rest.length ∨ N ≤ c.rest.length)
          (fun c' => ∃ v, Closes c [')', ')'] c' v) (arithmeticLoop dollar start n p d c₁) := by
      intro p d c₁ hpass
      have hlt := hpass.length_lt
      exact (ih p d c₁).mono (by omega) fun _ => exists_closes hpass.1
    unfold arithmeticLoop
    split
    · exact returns_unterminated _ _ _
    · next hr => exact hrec _ _ _ (.skip (by decide) (by simp [hr]))
    · next hr => exact hrec _ _ _ (.skip_one (by simp [hr]))
    · next hr =>
      split
      · next heq => exact ⟨[], (consumeArithmeticCloseParen_reads hr heq).2 rfl⟩
      · next heq => exact hrec _ _ _ (consumeArithmeticCloseParen_reads hr heq).1
    · next hr =>
      have hskip := Cursor.Passes.skip_one (c := c) (by simp [hr])
      refine ((consumeSingleQuoted_returns c).mono False.elim fun _ h => h).bind ?_
      exact fun c₁ hpass => hrec _ _ _ (hskip.trans hpass)
    · next hr =>
      refine ((consumeDoubleQuoted_forward hd c (by simp [hr])).mono .inr fun _ h => h).bind ?_
      exact fun p hp => hrec _ _ _ hp.1
    · next hr => exact hrec _ _ _ (consumeBackslash_passes (by simp [hr]))
    · next hr =>
      refine ((hd c _ hr).mono .inr fun _ h => h.forward.1).bind ?_
      exact fun p hp => hrec _ _ _ hp
    · next hr _ _ _ _ _ _ _ => exact hrec _ _ _ (.skip_one (fun he => by simp_all))

/-! ## 6. The dollar -/

theorem skip_skip {α : Type} (c : Cursor α) (m n : Nat) :
    (c.skip m).skip n = c.skip (m + n) := by
  simp [Cursor.skip, Nat.add_assoc]

theorem consumeDollarParen_returns {dollar : Nat → Text → MarkedScan}
    (hd : ∀ depth, Dollars N (dollar depth)) (depth : Nat) {s : List Char}
    (hc : c.rest = '$' :: '(' :: s) :
    Returns (N + 1 ≤ c.rest.length) (fun p => DollarRead c p.1 p.2)
      (consumeDollarParen dollar depth (c.skip 1)) := by
  unfold consumeDollarParen
  simp only [skip_skip]
  split
  · exact nofun
  · split
    · next hparen =>
      obtain ⟨t, rfl⟩ : ∃ t, s = '(' :: t := by
        rw [Cursor.skip_rest, hc] at hparen
        exact List.head?_eq_some_iff.mp hparen
      refine ((arithmeticLoop_returns (hd _) _ _ _ _ _).mono ?_ fun _ h => h).bind ?_
      · simp only [Cursor.skip_rest, hc, List.drop_succ_cons, List.drop_zero, List.length_cons]
        omega
      · rintro c₁ ⟨v, hv⟩
        exact .arith hc hv
    · next hparen =>
      refine ((consumeBody_returns (commandLexeme_reads (hd _)) _ _ _ _ _).mono ?_
        fun _ h => h).bind ?_
      · simp only [Cursor.skip_rest, hc, List.drop_succ_cons, List.drop_zero, List.length_cons]
        omega
      · rintro c₁ ⟨v, hv⟩
        refine .command hc ?_ hv
        simpa [hc] using hparen

theorem consumeDollarBody_returns {dollar : Nat → Text → MarkedScan}
    (hd : ∀ depth, Dollars N (dollar depth)) (depth : Nat) :
    Dollars (N + 1) (consumeDollarBody dollar depth) := by
  intro c r hc
  have hrest : (c.skip 1).rest = r := by simp [hc]
  unfold consumeDollarBody
  simp only [skip_skip]
  split
  · next s hs =>
    have hc2 : c.rest = '$' :: '\'' :: s := by rw [hc, ← hs, hrest]
    refine ((singleQuotedLoop_returns _ _ _).mono False.elim fun _ h => h).bind ?_
    rintro c₁ ⟨v, hv, hr, hp⟩
    rw [hs] at hr
    exact .quote hc2 hv ⟨by simpa [hc2] using hr, by simp at hp ⊢; omega⟩
  · next s hs => exact consumeDollarParen_returns hd depth (by rw [hc, ← hs, hrest])
  · next s hs =>
    have hc2 : c.rest = '$' :: '{' :: s := by rw [hc, ← hs, hrest]
    refine ((consumeBody_returns (braceLexeme_reads (hd _)) _ _ _ _ _).mono ?_
      fun _ h => h).bind ?_
    · simp only [Cursor.skip_rest, hc2, List.drop_succ_cons, List.drop_zero, List.length_cons]
      omega
    · rintro c₁ ⟨v, hv⟩
      exact .brace hc2 hv
  · next b s hb₁ hb₂ hb₃ hs =>
    have hc2 : c.rest = '$' :: b :: s := by rw [hc, ← hs, hrest]
    split
    · next hname => exact .name hc2 hname
    · next hname =>
      split
      · next hspec => exact .special hc2 (by simpa using hname) hspec
      · next hspec =>
        refine .lone hc2 ?_
        intro b' hb'
        obtain rfl : b = b' := by simpa using hb'
        exact ⟨hb₁, hb₂, hb₃, by simpa using hname, by simpa using hspec⟩
  · next hs =>
    rw [hrest] at hs
    subst hs
    exact .lone hc (by simp)

theorem consumeDollar_returns (n depth : Nat) : Dollars n (consumeDollar n depth) := by
  induction n generalizing depth with
  | zero => exact fun _ _ _ _ => Nat.zero_le _
  | succ n ih => exact consumeDollarBody_returns ih depth

theorem dollarAt_returns (depth N : Nat) : Dollars N (dollarAt depth) := fun c r hc =>
  (consumeDollar_returns (c.rest.length + 1) depth c r hc).mono (by omega) fun _ h => h

theorem dollarAt_reads (depth : Nat) : ReadsDollar (dollarAt depth) := (dollarAt_returns depth 0).reads

/-! ## 7. Words -/

theorem consumeExtglob_returns (c : Text) :
    Returns False (fun c' => ∃ v, Closes (c.skip 2) [')'] c' v) (consumeExtglob c) := by
  have hle := Cursor.length_skip_le c 2
  exact (consumeBody_returns (extglobLexeme_reads (c.rest.length + 1)) _ _ _ _ _).mono (by omega)
    fun _ h => h

theorem consumeWordPlain_returns (hc : c.rest ≠ []) :
    Returns False (fun c' => c.Passes c') (consumeWordPlain c) := by
  have hskip := Cursor.Passes.skip_one hc
  unfold consumeWordPlain
  split
  · next b r hr =>
    split
    · refine (consumeExtglob_returns c).mono id ?_
      rintro c' ⟨v, hv⟩
      exact (Cursor.Passes.skip (n := 2) (by decide) (by simp [hr])).trans hv.passes
    · exact hskip
  · exact hskip

theorem dollarAt_quoted (depth : Nat) (hc : c.rest ≠ []) :
    Returns False (fun p => c.Passes p.2 ∧ MarksAfter c.pos p.1)
      (consumeDoubleQuoted (dollarAt depth) c) :=
  (consumeDoubleQuoted_forward (dollarAt_returns depth (c.rest.length + 1)) c hc).mono (by omega)
    fun _ h => h

theorem consumeWordDollar_returns (depth : Nat) (hc : c.rest = '$' :: r) :
    Returns False (fun p => c.Passes p.2 ∧ MarksAfter c.pos p.1) (consumeWordDollar depth c) := by
  unfold consumeWordDollar
  split
  · next hq =>
    have hne : (c.skip 1).rest ≠ [] := by
      intro he
      have := hq.1
      simp only [Cursor.skip_rest] at he
      simp [he] at this
    have hskip := Cursor.Passes.skip_one (c := c) (by simp [hc])
    exact (dollarAt_quoted depth hne).mono id fun _ h => ⟨hskip.trans h.1, h.2.mono hskip.1.pos_le⟩
  · exact (dollarAt_returns depth (c.rest.length + 1) c r hc).mono (by omega) fun _ h => h.forward

/-- One part of a word: the cursor moves on and nothing is logged behind it. -/
theorem readWordPart_returns (depth : Nat) (hc : c.rest ≠ []) :
    Returns False (fun p => c.Passes p.2 ∧ MarksAfter c.pos p.1) (readWordPart depth c) := by
  have hskip := Cursor.Passes.skip_one hc
  unfold readWordPart
  split
  · refine (consumeSingleQuoted_returns c).bind fun c₁ hq => ?_
    exact ⟨hskip.trans hq, Region.marks_after _ (by simp) hq.1⟩
  · exact dollarAt_quoted depth hc
  · refine (consumeBacktick_returns c).bind fun c₁ hq => ?_
    exact ⟨hskip.trans hq, Region.marks_after _ (by simp) hq.1⟩
  · exact ⟨consumeBackslash_passes hc, by simp⟩
  · next hr => exact consumeWordDollar_returns depth hr
  · exact (consumeWordPlain_returns hc).bind fun c₁ hp => ⟨hp, by simp⟩

theorem readWordLoop_returns (depth n : Nat) (c : Text) :
    Returns (n ≤ c.rest.length) (fun p => c.Reaches p.2 ∧ MarksAfter c.pos p.1)
      (readWordLoop depth n c) := by
  induction n generalizing c with
  | zero => exact fun _ => Nat.zero_le _
  | succ n ih =>
    unfold readWordLoop
    split
    · exact ⟨.refl c, by simp⟩
    · next b r hr =>
      split
      · exact ⟨.refl c, by simp⟩
      · refine ((readWordPart_returns depth (by simp [hr])).mono False.elim fun _ h => h).bind ?_
        rintro ⟨ms, c₁⟩ ⟨hp, hm⟩
        have hlt : c₁.rest.length < c.rest.length := hp.length_lt
        refine ((ih c₁).mono (by omega) fun _ h => h).bind ?_
        rintro ⟨more, c₂⟩ ⟨hp₂, hm₂⟩
        refine ⟨hp.1.trans hp₂, ?_⟩
        rw [marksAfter_append]
        exact ⟨hm, hm₂.mono hp.1.pos_le⟩

end Wasmsh.Lex

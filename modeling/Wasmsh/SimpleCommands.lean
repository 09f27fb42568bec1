import Wasmsh.SimpleCommandLoop

/-!
# Simple commands, printed and parsed

`parse_print_iff` says when a printed list of items is parsed as the simple command that was
printed.  A token does not tell whether a blank stands before it, so a word of one digit is
taken for the descriptor of the redirection behind it.
-/

open Wasmsh.Lex StateExcept

namespace Wasmsh.Parser

open Hir

variable {src : List Char} {depth : Nat} {items : List Item}

/-! ## 1. What is no single command -/

section

variable {t e : Token} {ts rest : List Token} {cmd : Command} {command : Parse Command}

/-- A loop whose second turn takes something too. -/
theorem collect_two {α : Type} {turn : Parse (Option α)} {p p₁ : State} {a : α}
    (hfirst : turn p = .ok (some a, p₁)) (hsecond : ∀ p₂, turn p₁ ≠ .ok (none, p₂)) (n : Nat)
    {as : List α} {p' : State} (hrun : collect turn n p = .ok (as, p')) : 2 ≤ as.length := by
  cases n with
  | zero => cases hrun
  | succ n =>
    obtain ⟨r, q, hturn, hrun⟩ := bind_eq_ok.mp hrun
    rw [hfirst] at hturn
    cases hturn
    obtain ⟨as', q', hrest, hrun⟩ := bind_eq_ok.mp hrun
    cases hrun
    cases n with
    | zero => cases hrest
    | succ n =>
      obtain ⟨r, q, hturn, hrest⟩ := bind_eq_ok.mp hrest
      cases r with
      | none => exact absurd hturn (hsecond q)
      | some b =>
        obtain ⟨bs, q', -, hrest⟩ := bind_eq_ok.mp hrest
        cases hrest
        simp

/-- A turn that starts a command takes it. -/
theorem compoundTurn_ne_none {p : State} (hstart : p.atCommandStart = true) (p' : State) :
    compoundTurn command p ≠ .ok (none, p') := by
  intro h
  obtain ⟨q, q', hget, h⟩ := bind_eq_ok.mp h
  cases hget
  rw [hstart, if_pos rfl] at h
  obtain ⟨cc, q, -, h⟩ := bind_eq_ok.mp h
  obtain ⟨_, q', -, h⟩ := bind_eq_ok.mp h
  cases h

/-- At `[[` another command starts. -/
theorem parseCompoundList_two (ht : Opens src t) (he : e.kind = .dblLBracket)
    (hcommand : Yields (Faces src depth (t :: ts)) command cmd (Faces src depth (e :: rest)))
    {p p' : State} (hp : Faces src depth (t :: ts) p) {ccs : List CompleteCommand}
    (hrun : parseCompoundList command p = .ok (ccs, p')) : 2 ≤ ccs.length := by
  obtain ⟨_, p₁, hskip, hrun⟩ := bind_eq_ok.mp hrun
  obtain ⟨p₂, hskip', hp₂⟩ := faces_skipNewlines ht.ne_newline p hp
  rw [hskip'] at hskip
  cases hskip
  obtain ⟨q, q', hget, hrun⟩ := bind_eq_ok.mp hrun
  cases hget
  have hend : e.kind ∈ endKinds := by
    rw [he]
    decide
  obtain ⟨_, p₃, hturn, cc, rfl, -, hp₃⟩ := faces_compoundTurn ht hend hcommand p₁ hp₂
  refine collect_two hturn (compoundTurn_ne_none ?_) _ hrun
  rw [State.atCommandStart, hp₃.atKind, hp₃.atKind, he]
  rfl

/-- Where a token of the extended test stands, the program is not one command. -/
theorem parseProgram_ne_command (ht : Opens src t)
    (he : e.kind = .dblLBracket ∨ e.kind = .dblRBracket)
    (hcommand : Yields (Faces src 0 (t :: ts)) (parseCommand (maxNestingDepth + 1)) cmd
      (Faces src 0 (e :: rest))) {p p' : State} (hp : Faces src 0 (t :: ts) p) (cmd' : Command)
    (span : Span) : parseProgram p ≠ .ok (commandProgram cmd' span, p') := by
  intro hrun
  obtain ⟨ccs, p₁, hlist, hrun⟩ := bind_eq_ok.mp hrun
  obtain ⟨q, q', hget, hrun⟩ := bind_eq_ok.mp hrun
  cases hget
  rcases he with he | he
  · have htwo := parseCompoundList_two ht he hcommand hp hlist
    split at hrun
    · injection hrun with hrun
      injection hrun with hprog
      injection hprog with hitems
      rw [hitems] at htwo
      exact absurd htwo (Nat.not_le_of_lt (Nat.lt_succ_self 1))
    · cases hrun
  · obtain ⟨ccs', p₂, hlist', cc, rfl, -, hp₂⟩ :=
      faces_parseCompoundList ht (.inr he) hcommand p hp
    rw [hlist'] at hlist
    cases hlist
    rw [if_neg (by rw [hp₂.atKind, he]; decide)] at hrun
    cases hrun

end

/-! ## 2. What is read back -/

namespace SimplePart

def asWord : SimplePart → Option Word
  | .word w => some w
  | _ => none

def asAssignment : SimplePart → Option Assignment
  | .assignment a => some a
  | _ => none

def asRedirection : SimplePart → Option Redirection
  | .redirection r => some r
  | _ => none

end SimplePart

theorem parts_words (items : List Item) : (items.map Item.part).filterMap SimplePart.asWord =
    (itemWords items).map writtenWord := by
  induction items with
  | nil => rfl
  | cons i items ih =>
    cases i with
    | word w => exact congrArg (writtenWord w :: ·) ih
    | redirection r => exact ih

theorem parts_redirections (items : List Item) :
    (items.map Item.part).filterMap SimplePart.asRedirection =
      (itemRedirections items).map WrittenRedirection.value := by
  induction items with
  | nil => rfl
  | cons i items ih =>
    cases i with
    | word w => exact ih
    | redirection r => exact congrArg (r.value :: ·) ih

theorem lowerSimpleCommand_parts (items : List Item) :
    lowerSimpleCommand (items.map Item.part) = writtenCommand items := by
  have hassignments : (items.map Item.part).filterMap SimplePart.asAssignment = [] := by
    rw [List.filterMap_eq_nil_iff]
    intro part hpart
    obtain ⟨i, -, rfl⟩ := List.mem_map.mp hpart
    cases i <;> rfl
  have hlower : ∀ parts, lowerSimpleCommand parts =
      if !(parts.filterMap SimplePart.asWord).isEmpty then
        .exec ⟨parts.filterMap SimplePart.asWord, parts.filterMap SimplePart.asAssignment,
          parts.filterMap SimplePart.asRedirection⟩
      else if !(parts.filterMap SimplePart.asAssignment).isEmpty then
        .assign (parts.filterMap SimplePart.asAssignment)
          (parts.filterMap SimplePart.asRedirection)
      else .redirectOnly (parts.filterMap SimplePart.asRedirection) := fun parts => rfl
  rw [hlower, parts_words, hassignments, parts_redirections, writtenCommand]
  cases itemWords items <;> rfl

/-- What is not reserved starts a simple command. -/
theorem starts_of_not_reserved {x : List Char} (h : isReservedWord x = false) :
    keywordOf x = none ∧ startsPipeline x = true := by
  have hne : ∀ r, reservedWords.contains r = true → (x == r) = false := by
    intro r hr
    rw [beq_eq_false_iff_ne]
    rintro rfl
    rw [isReservedWord, hr] at h
    cases h
  constructor
  · unfold keywordOf
    simp only [List.lookup_cons, hne _ (by decide : reservedWords.contains "\x7b".toList = true),
      hne _ (by decide : reservedWords.contains "if".toList = true),
      hne _ (by decide : reservedWords.contains "while".toList = true),
      hne _ (by decide : reservedWords.contains "until".toList = true),
      hne _ (by decide : reservedWords.contains "for".toList = true),
      hne _ (by decide : reservedWords.contains "case".toList = true),
      hne _ (by decide : reservedWords.contains "select".toList = true),
      hne _ (by decide : reservedWords.contains "function".toList = true), List.lookup_nil]
  · have hterminator : terminatorWords.contains x = false := by
      rw [List.contains_eq_mem, decide_eq_false_iff_not]
      intro hmem
      have hreserved : ∀ r ∈ terminatorWords, reservedWords.contains r = true := by decide
      have hself := hne x (hreserved x hmem)
      simp at hself
    have htime : x ≠ "time".toList := by
      rw [← beq_eq_false_iff_ne]
      exact hne _ (by decide)
    have hnegation : x ≠ "!".toList := by
      rw [← beq_eq_false_iff_ne]
      exact hne _ (by decide)
    simp only [startsPipeline, hterminator, Bool.not_false, Bool.true_and, Bool.and_eq_true,
      bne_iff_ne]
    exact ⟨htime, hnegation⟩

theorem isReservedWord_toDigits (n : Nat) : isReservedWord (Nat.toDigits 10 n) = false := by
  have hdigit : ∀ r ∈ reservedWords, r.any (fun c => !c.isDigit) = true := by decide
  rw [isReservedWord, List.contains_eq_mem, decide_eq_false_iff_not]
  intro hmem
  obtain ⟨c, hc, hno⟩ := List.any_eq_true.mp (hdigit _ hmem)
  rw [Nat.isDigit_of_mem_toDigits (by decide) (by decide) hc] at hno
  cases hno

theorem isAssignmentText_toDigits (n : Nat) : isAssignmentText (Nat.toDigits 10 n) = false := by
  have hno : (Nat.toDigits 10 n).contains '=' = false := by
    rw [List.contains_eq_mem, decide_eq_false_iff_not]
    intro hmem
    exact absurd (Nat.isDigit_of_mem_toDigits (by decide) (by decide) hmem) (by decide)
  rw [isAssignmentText, hno]
  rfl

section

variable {items : List Item}

/-- The first two tokens of a printed line. -/
theorem opens_of_written (h : IsWritten items) (hne : items ≠ []) {toks : List Token} {e : Token}
    (he : e.kind ∈ endKinds)
    (htoks : List.Forall₂ (Spells src) toks (items.flatMap Item.lexemes)) :
    ∃ t t' ts, toks ++ [e] = t :: t' :: ts ∧ Opens src t ∧ t'.kind ≠ .lParen := by
  obtain ⟨i, items, rfl⟩ := List.exists_cons_of_ne_nil hne
  cases i with
  | word w =>
    obtain ⟨t, toks, rfl, ht, htoks⟩ := spells_cons htoks
    obtain ⟨t', ts, hnext⟩ := exists_head toks e []
    have hreserved := h.no_reserved w rfl
    have hstarts := starts_of_not_reserved hreserved
    have hword : isWord t.kind = true := by
      rw [ht.1]
      rcases wordKind_cases (Utf8.encode w) with ⟨hopen, -⟩ | ⟨hclose, -⟩ | ⟨-, hword⟩
      · rw [hopen] at hreserved
        cases hreserved
      · rw [hclose] at hreserved
        cases hreserved
      · exact hword
    refine ⟨t, t', ts, by rw [List.cons_append, hnext], .inl ⟨hword, ?_⟩,
      (next_kind he htoks hnext).1⟩
    rw [ht.2]
    exact hstarts
  | redirection r =>
    rcases r with ⟨_ | n, op, target⟩
    · obtain ⟨ops, t, ts, rfl, hops, ht, hts⟩ := spells_redirection htoks
      have hparen : t.kind ≠ .lParen := by
        rw [ht.1]
        exact (fdOperators_wordKind _).2
      obtain ⟨t₀, t₁, ts', heq, hstart, ht₁, -⟩ :=
        @operator_tokens src op ops (ts ++ [e]) t hops hparen
      refine ⟨t₀, t₁, ts', ?_, .inr hstart, ht₁⟩
      rw [List.append_assoc, List.cons_append, heq]
    · obtain ⟨t, toks, rfl, ht, htoks⟩ := spells_cons htoks
      obtain ⟨t', ts, hnext⟩ := exists_head toks e []
      have hkind := @next_kind src (.redirection ⟨none, op, target⟩ :: items) toks t' e ts [] he
        htoks hnext
      refine ⟨t, t', ts, by rw [List.cons_append, hnext], .inl ⟨?_, ?_⟩, hkind.1⟩
      · rw [ht.1, isWord_toDigits]
      · rw [ht.2]
        exact starts_of_not_reserved (isReservedWord_toDigits n)

theorem length_split_le_text {i : Item} (h : IsPlain i.content) :
    i.split.length ≤ i.text.length := by
  cases i with
  | word w => exact List.length_pos_of_ne_nil h.ne_nil
  | redirection r =>
    rcases r with ⟨_ | n, op, target⟩
    · simp [Item.split, Item.text]
      omega
    · have hdigits : 0 < (Nat.toDigits 10 n).length := Nat.length_toDigits_pos
      have hsplit : (Item.redirection ⟨some n, op, target⟩).split.length ≤ 2 := by
        simp only [Item.split]
        split
        · exact Nat.le_succ 1
        · exact Nat.le_refl 2
      simp only [Item.text, Option.elim_some, List.length_append, List.length_cons]
      omega

/-- The bound of the loop is never met. -/
theorem length_split_le (h : ∀ i ∈ items, IsPlain i.content) :
    (items.flatMap Item.split).length ≤ (Utf8.encode (printItems items)).length := by
  have htail : ∀ is : List Item, (∀ i ∈ is, IsPlain i.content) →
      (is.flatMap Item.split).length ≤ (is.flatMap fun j => ' ' :: j.text).length := by
    intro is his
    induction is with
    | nil => exact Nat.le_refl 0
    | cons i is ih =>
      rw [List.forall_mem_cons] at his
      have hhead := length_split_le_text his.1
      have hrest := ih his.2
      simp only [List.flatMap_cons, List.length_append, List.length_cons]
      omega
  refine Nat.le_trans ?_ (Utf8.length_le_encode _)
  cases items with
  | nil => exact Nat.le_refl 0
  | cons i items =>
    rw [List.forall_mem_cons] at h
    have hhead := length_split_le_text h.1
    have hrest := htail items h.2
    rw [printItems_cons]
    simp only [List.flatMap_cons, List.length_append]
    omega

theorem mem_split {i j : Item} (hj : j ∈ i.split) : j = i ∨
    (∃ n, j = .word (Nat.toDigits 10 n)) ∨ ∃ r, i = .redirection r ∧
      j = .redirection { r with fd := none } := by
  cases i with
  | word w => exact .inl (List.mem_singleton.mp hj)
  | redirection r =>
    rcases r with ⟨_ | n, op, target⟩
    · exact .inl (List.mem_singleton.mp hj)
    · simp only [Item.split] at hj
      split at hj
      · exact .inl (List.mem_singleton.mp hj)
      · rcases List.mem_cons.mp hj with rfl | hj
        · exact .inr (.inl ⟨n, rfl⟩)
        · exact .inr (.inr ⟨_, rfl, List.mem_singleton.mp hj⟩)

theorem isPlain_split {i : Item} (h : IsPlain i.content) : ∀ j ∈ i.split, IsPlain j.content := by
  intro j hj
  rcases mem_split hj with rfl | ⟨n, rfl⟩ | ⟨r, rfl, rfl⟩
  · exact h
  · exact ⟨(isBare_toDigits n).ne_nil, (isBare_toDigits n).plain, (isBare_toDigits n).no_comment⟩
  · exact h

theorem noBracket_split {i : Item} (h : i.NoBracket) : ∀ j ∈ i.split, j.NoBracket := by
  intro j hj
  rcases mem_split hj with rfl | ⟨n, rfl⟩ | ⟨r, rfl, rfl⟩
  · exact h
  · exact toDigits_ne_bracket n
  · exact h

theorem itemWords_split (h : ∀ w ∈ itemWords items, isAssignmentText (Utf8.encode w) = false) :
    ∀ w ∈ itemWords (items.flatMap Item.split), isAssignmentText (Utf8.encode w) = false := by
  have hmem : ∀ (is : List Item) w, w ∈ itemWords is ↔ Item.word w ∈ is := by
    intro is w
    rw [itemWords, List.mem_filterMap]
    constructor
    · rintro ⟨j, hj, hword⟩
      cases j with
      | word w' =>
        cases hword
        exact hj
      | redirection r => cases hword
    · exact fun hw => ⟨_, hw, rfl⟩
  intro w hw
  obtain ⟨i, hi, hj⟩ := List.mem_flatMap.mp ((hmem _ w).mp hw)
  rcases mem_split hj with rfl | ⟨n, heq⟩ | ⟨r, rfl, heq⟩
  · exact h w ((hmem _ w).mpr hi)
  · injection heq with heq
    rw [heq, encode_toDigits, isAssignmentText_toDigits]
  · cases heq

theorem absorb_ne_nil (hne : items ≠ []) : absorb items ≠ [] := by
  rw [absorb.eq_def]
  split
  · split
    · exact List.cons_ne_nil _ _
    · exact List.cons_ne_nil _ _
  · exact List.cons_ne_nil _ _
  · exact absurd rfl hne

variable {t t' e : Token} {ts rest toks : List Token}

/-- The command of items, up to a token of the extended test or the end of the line. -/
theorem faces_items (hopens : Opens src t) (hparen : t'.kind ≠ .lParen)
    (heq : t :: t' :: ts = toks ++ e :: rest) (he : e.kind ∈ endKinds)
    (htoks : List.Forall₂ (Spells src) toks (items.flatMap Item.lexemes))
    (hitems : ∀ i ∈ items, i.Readable) (hne : items ≠ [])
    (hassign : ∀ w ∈ itemWords items, isAssignmentText (Utf8.encode w) = false)
    (hlen : items.length < src.length + 2) :
    Yields (Faces src 0 (t :: t' :: ts)) (parseCommand (maxNestingDepth + 1))
      (writtenCommand ((absorb items).map Item.asBytes)) (Faces src 0 (e :: rest)) := by
  have hsimple : Yields (Faces src 1 (t :: t' :: ts)) parseSimpleCommand
      (writtenCommand ((absorb items).map Item.asBytes)) (Faces src 1 (e :: rest)) := by
    apply Yields.get_bind
    intro p hp
    rw [hp.source, heq]
    apply (faces_loop hitems (Or.inr hassign) htoks he hlen).bind
    apply Yields.ite_neg
    · rw [List.isEmpty_map, List.isEmpty_iff]
      exact absorb_ne_nil hne
    · rw [← lowerSimpleCommand_parts, List.map_map]
      exact .pure _
  exact faces_parseCommand (by decide) (faces_parseCommandInner hopens hparen hsimple)

theorem fails_items (hopens : Opens src t) (hparen : t'.kind ≠ .lParen)
    (heq : t :: t' :: ts = toks ++ e :: rest) (he : e.kind ∈ endKinds)
    (htoks : List.Forall₂ (Spells src) toks (items.flatMap Item.lexemes))
    (hitems : ∀ i ∈ items, IsPlain i.content ∧ i.Fits) (hstuck : Stuck items)
    (hassign : ∀ w ∈ itemWords items, isAssignmentText (Utf8.encode w) = false)
    (hlen : items.length < src.length + 2) :
    Fails (Faces src 0 (t :: t' :: ts)) (parseCommand (maxNestingDepth + 1)) := by
  have hsimple : Fails (Faces src 1 (t :: t' :: ts)) parseSimpleCommand := by
    apply Fails.get_bind
    intro p hp
    rw [hp.source, heq]
    exact (fails_loop hitems hstuck (Or.inr hassign) htoks he hlen).bind
  exact Faces.fails_parseCommand (by decide) (fails_parseCommandInner hopens hparen hsimple)

theorem flatMap_split_ne_nil (hne : items ≠ []) : items.flatMap Item.split ≠ [] := by
  obtain ⟨i, is, rfl⟩ := List.exists_cons_of_ne_nil hne
  rw [List.flatMap_cons]
  refine List.append_ne_nil_of_left_ne_nil ?_ _
  cases i with
  | word w => exact List.cons_ne_nil _ _
  | redirection r =>
    rcases r with ⟨_ | n, op, target⟩
    · exact List.cons_ne_nil _ _
    · simp only [Item.split]
      split
      · exact List.cons_ne_nil _ _
      · exact List.cons_ne_nil _ _

/-- **What the parser makes of a printed line.** -/
theorem parse_print (h : IsWritten items) (hne : items ≠ []) (hbr : ∀ i ∈ items, i.NoBracket) :
    ∃ span, parse (String.ofList (printItems items)) =
      .ok (commandProgram (writtenCommand ((taken items).map Item.asBytes)) span) := by
  obtain ⟨toks, stop, hfeeds, htoks⟩ := feeds_printItems h.plain rfl
  have hstop : TokenKind.eof ∈ endKinds := by decide
  obtain ⟨t, t', ts, heq, hopens, hparen⟩ :=
    opens_of_written h hne (show (⟨.eof, stop⟩ : Token).kind ∈ endKinds from hstop) htoks
  rw [← lexemes_flatMap_split] at htoks
  have hlen := length_split_le h.plain
  have hcommand := faces_items hopens hparen heq.symm hstop htoks (by
    intro j hj
    obtain ⟨i, hi, hj⟩ := List.mem_flatMap.mp hj
    exact ⟨isPlain_split (h.plain i hi) j hj, noBracket_split (hbr i hi) j hj,
      fits_split i j hj⟩) (flatMap_split_ne_nil hne) (itemWords_split h.no_assignment) (by omega)
  rw [heq] at hfeeds
  obtain ⟨p, hnew, hp⟩ := new_faces hfeeds
  obtain ⟨prog, p', hrun, span, rfl⟩ := faces_parseProgram hopens rfl hcommand p hp
  refine ⟨span, ?_⟩
  simp only [parse, String.toList_ofList, hnew, bind, Except.bind, hrun, pure, Except.pure]
  rfl

theorem first_bracket (h : ∃ i ∈ items, ¬ i.NoBracket) : ∃ front i back,
    items = front ++ i :: back ∧ (∀ j ∈ front, j.NoBracket) ∧ ¬ i.NoBracket := by
  induction items with
  | nil =>
    obtain ⟨i, hi, -⟩ := h
    cases hi
  | cons j items ih =>
    by_cases hj : j.NoBracket
    · obtain ⟨i, hi, hbr⟩ := h
      rcases List.mem_cons.mp hi with rfl | hi
      · exact absurd hj hbr
      · obtain ⟨front, i', back, rfl, hfront, hi'⟩ := ih ⟨i, hi, hbr⟩
        exact ⟨j :: front, i', back, rfl, List.forall_mem_cons.mpr ⟨hj, hfront⟩, hi'⟩
    · exact ⟨[], j, items, rfl, by simp, hj⟩

theorem stuck_append {front back : List Item} (hfront : ∀ j ∈ front, j.NoBracket)
    (hback : Stuck back) : Stuck (front ++ back) := by
  induction front with
  | nil => exact hback
  | cons j front ih =>
    rw [List.forall_mem_cons] at hfront
    exact .next hfront.1 (ih hfront.2)

theorem stuck_split {r : WrittenRedirection} (h : ¬ (Item.redirection r).NoBracket)
    (back : List Item) : Stuck ((Item.redirection r).split ++ back) := by
  rcases r with ⟨_ | n, op, target⟩
  · exact .here h
  · simp only [Item.split]
    split
    · exact .here h
    · exact .next (toDigits_ne_bracket n) (.here h)

/-- **A token of the extended test ends the command.** -/
theorem parse_bracket (h : IsWritten items) (hbr : ∃ i ∈ items, ¬ i.NoBracket) (cmd : Command)
    (span : Span) : parse (String.ofList (printItems items)) ≠ .ok (commandProgram cmd span) := by
  have hne : items ≠ [] := by
    rintro rfl
    obtain ⟨i, hi, -⟩ := hbr
    cases hi
  obtain ⟨toks, stop, hfeeds, htoks⟩ := feeds_printItems h.plain rfl
  have hstop : TokenKind.eof ∈ endKinds := by decide
  obtain ⟨t, t', ts, heq, hopens, hparen⟩ :=
    opens_of_written h hne (show (⟨.eof, stop⟩ : Token).kind ∈ endKinds from hstop) htoks
  rw [← lexemes_flatMap_split] at htoks
  have hlen := length_split_le h.plain
  rw [heq] at hfeeds
  obtain ⟨p, hnew, hp⟩ := new_faces hfeeds
  obtain ⟨front, i, back, hitems, hfront, hbad⟩ := first_bracket hbr
  have hplain : ∀ j ∈ items.flatMap Item.split, IsPlain j.content ∧ j.Fits := by
    intro j hj
    obtain ⟨i, hi, hj⟩ := List.mem_flatMap.mp hj
    exact ⟨isPlain_split (h.plain i hi) j hj, fits_split i j hj⟩
  have hread : ∀ j ∈ front.flatMap Item.split, j.NoBracket := by
    intro j hj
    obtain ⟨i, hi, hj⟩ := List.mem_flatMap.mp hj
    exact noBracket_split (hfront i hi) j hj
  have hsplit : items.flatMap Item.split =
      front.flatMap Item.split ++ (i.split ++ back.flatMap Item.split) := by
    rw [hitems, List.flatMap_append, List.flatMap_cons]
  have hassign := itemWords_split h.no_assignment
  intro hparse
  have hrun : ∃ p', parseProgram p = .ok (commandProgram cmd span, p') := by
    simp only [parse, String.toList_ofList, hnew, bind, Except.bind] at hparse
    cases hprogram : parseProgram p with
    | error e =>
      rw [hprogram] at hparse
      cases hparse
    | ok r =>
      rw [hprogram] at hparse
      injection hparse with hparse
      exact ⟨r.2, by rw [← hparse]⟩
  obtain ⟨p', hrun⟩ := hrun
  cases i with
  | redirection r =>
    have hstuck : Stuck (items.flatMap Item.split) := by
      rw [hsplit]
      exact stuck_append hread (stuck_split hbad _)
    have hfails := fails_items hopens hparen heq.symm hstop htoks hplain hstuck hassign (by omega)
    obtain ⟨e, he⟩ := Faces.fails_parseProgram hopens hfails p hp
    rw [he] at hrun
    cases hrun
  | word w =>
    have hword : w = ['[', '['] ∨ w = [']', ']'] := by
      by_contra hno
      rw [not_or] at hno
      exact hbad hno
    have hfront' : front ≠ [] := by
      rintro rfl
      have hreserved := h.no_reserved w (by rw [hitems]; rfl)
      rcases hword with rfl | rfl
      · exact absurd hreserved (by decide)
      · exact absurd hreserved (by decide)
    have hcount : (front.flatMap Item.split).length ≤ (items.flatMap Item.split).length := by
      rw [hsplit, List.length_append]
      omega
    rw [hsplit, List.flatMap_append, List.flatMap_append] at htoks
    obtain ⟨toks₁, toks₂, rfl, htoks₁, htoks₂⟩ := spells_append htoks
    obtain ⟨b, toks₃, rfl, hb, -⟩ := spells_cons htoks₂
    have hkind : b.kind = .dblLBracket ∨ b.kind = .dblRBracket := by
      rw [hb.1]
      rcases hword with rfl | rfl
      · exact .inl rfl
      · exact .inr rfl
    have hend : b.kind ∈ endKinds := by
      rcases hkind with h | h <;> rw [h] <;> decide
    have hassign₁ : ∀ w ∈ itemWords (front.flatMap Item.split),
        isAssignmentText (Utf8.encode w) = false := by
      intro w hw
      refine hassign w ?_
      rw [hsplit, itemWords, List.filterMap_append]
      exact List.mem_append_left _ hw
    have hreadable : ∀ j ∈ front.flatMap Item.split, j.Readable := by
      intro j hj
      have hmem : j ∈ items.flatMap Item.split := by
        rw [hsplit]
        exact List.mem_append_left _ hj
      exact ⟨(hplain j hmem).1, hread j hj, (hplain j hmem).2⟩
    rw [List.append_assoc, List.cons_append] at heq
    have hcommand := faces_items hopens hparen heq.symm hend htoks₁ hreadable
      (flatMap_split_ne_nil hfront') hassign₁ (by omega)
    exact parseProgram_ne_command hopens hkind hcommand hp cmd span hrun

end

/-! ## 3. When the command is read back -/

/-- The word before a redirection without a number looks like its number. -/
def Joined : Item → Item → Prop
  | .word w, .redirection r => (digitOf w).isSome ∧ r.fd = none ∧ r.op.both = false
  | _, _ => False

/-- The words are ASCII and none is a token of the extended test, every number is one digit
    before an operator that takes one, and no word of one digit stands before a redirection
    without a number. -/
structure ReadsBack (items : List Item) : Prop where
  ne_nil : items ≠ []
  ascii : ∀ i ∈ items, ∀ c ∈ i.content, c.toNat < 0x80
  no_bracket : ∀ i ∈ items, i.NoBracket
  fits : ∀ i ∈ items, i.Fits
  apart : items.IsChain fun i j => ¬ Joined i j

theorem split_of_fits (h : ∀ i ∈ items, i.Fits) :
    items.flatMap Item.split = items := by
  induction items with
  | nil => rfl
  | cons i items ih =>
    rw [List.forall_mem_cons] at h
    have hsplit : i.split = [i] := by
      cases i with
      | word w => rfl
      | redirection r =>
        rcases r with ⟨_ | n, op, target⟩
        · rfl
        · exact if_pos (h.1 n rfl)
    rw [List.flatMap_cons, hsplit, ih h.2, List.singleton_append]

theorem absorb_of_apart (h : items.IsChain fun i j => ¬ Joined i j) :
    absorb items = items := by
  induction items using absorb.induct with
  | case1 w op target items hjoined ih =>
    rw [List.isChain_cons_cons] at h
    exact absurd ⟨hjoined.1, rfl, hjoined.2⟩ h.1
  | case2 w op target items hno ih =>
    rw [List.isChain_cons_cons] at h
    rw [absorb, if_neg hno, ih h.2]
  | case3 i items hno ih => rw [absorb.eq_2 i items hno, ih h.tail]
  | case4 => rfl

theorem asBytes_of_ascii (h : ∀ i ∈ items, ∀ c ∈ i.content, c.toNat < 0x80) :
    items.map Item.asBytes = items := by
  rw [List.map_congr_left fun i hi => ?_, List.map_id]
  have hencode := Utf8.encode_of_ascii (h i hi)
  cases i with
  | word w => exact congrArg Item.word hencode
  | redirection r =>
    rcases r with ⟨fd, op, target⟩
    exact congrArg (fun t => Item.redirection ⟨fd, op, t⟩) hencode

theorem writtenCommand_inj {items items' : List Item}
    (h : writtenCommand items = writtenCommand items') : itemWords items = itemWords items' ∧
      (itemRedirections items).map WrittenRedirection.value =
        (itemRedirections items').map WrittenRedirection.value := by
  have hword : ∀ {w w' : List Char}, writtenWord w = writtenWord w' → w = w' := by
    intro w w' h
    injection h with h
    injection h with h
    injection h
  simp only [writtenCommand] at h
  split at h
  · next hempty =>
    split at h
    · next hempty' =>
      rw [List.isEmpty_iff] at hempty hempty'
      injection h with h
      exact ⟨by rw [hempty, hempty'], h⟩
    · cases h
  · split at h
    · cases h
    · injection h with h
      injection h with hwords _ hredirections
      exact ⟨List.map_injective_iff.mpr (fun w w' => hword) hwords, hredirections⟩

/-- What absorbing a word does to a redirection. -/
def Absorbed (r' r : WrittenRedirection) : Prop :=
  r' = r ∨ r.fd = none ∧ r.op.both = false ∧ ∃ d < 10, r' = { r with fd := some d }

/-- What splitting its item does to a redirection. -/
def Split (r' r : WrittenRedirection) : Prop :=
  (Item.redirection r).Fits ∧ r' = r ∨
    ¬ (Item.redirection r).Fits ∧ r' = { r with fd := none }

theorem digitOf_lt {w : List Char} {d : Nat} (h : digitOf w = some d) : d < 10 := by
  unfold digitOf at h
  split at h
  · next c =>
    split at h
    · next hc =>
      injection h with h
      rw [Char.isDigit, Bool.and_eq_true, decide_eq_true_eq, decide_eq_true_eq] at hc
      have hle : c.toNat ≤ 57 := hc.2
      have hzero : '0'.toNat = 48 := rfl
      omega
    · cases h
  · cases h

theorem absorbed_redirections (items : List Item) :
    List.Forall₂ Absorbed (itemRedirections (absorb items)) (itemRedirections items) := by
  induction items using absorb.induct with
  | case1 w op target items h ih =>
    obtain ⟨d, hd⟩ := Option.isSome_iff_exists.mp h.1
    rw [absorb, if_pos h, hd]
    exact .cons (.inr ⟨rfl, h.2, d, digitOf_lt hd, rfl⟩) ih
  | case2 w op target items h ih =>
    rw [absorb, if_neg h]
    exact ih
  | case3 i items hno ih =>
    rw [absorb.eq_2 i items hno]
    cases i with
    | word w => exact ih
    | redirection r => exact .cons (.inl rfl) ih
  | case4 => exact .nil

/-- A redirection is kept, or its number becomes a word. -/
theorem split_cases (r : WrittenRedirection) :
    (Item.redirection r).Fits ∧ (Item.redirection r).split = [.redirection r] ∨
    ¬ (Item.redirection r).Fits ∧ ∃ w,
      (Item.redirection r).split = [.word w, .redirection { r with fd := none }] := by
  rcases r with ⟨_ | n, op, target⟩
  · exact .inl ⟨fun n hn => (by cases hn), rfl⟩
  · by_cases h : n < 10 ∧ op.both = false
    · exact .inl ⟨fun m hm => (by cases hm; exact h), if_pos h⟩
    · exact .inr ⟨fun hfits => h (hfits n rfl), _, if_neg h⟩

theorem split_redirections (items : List Item) :
    List.Forall₂ Split (itemRedirections (items.flatMap Item.split)) (itemRedirections items) := by
  induction items with
  | nil => exact .nil
  | cons i items ih =>
    cases i with
    | word w => exact ih
    | redirection r =>
      rw [List.flatMap_cons]
      rcases split_cases r with ⟨hfits, hsplit⟩ | ⟨hfits, w, hsplit⟩
      · rw [hsplit]
        exact .cons (.inl ⟨hfits, rfl⟩) ih
      · rw [hsplit]
        exact .cons (.inr ⟨hfits, rfl⟩) ih

/-- Every number that does not fit is one word more. -/
theorem split_words (items : List Item) :
    (itemWords items).length ≤ (itemWords (items.flatMap Item.split)).length ∧
      ((itemWords (items.flatMap Item.split)).length ≤ (itemWords items).length →
        ∀ i ∈ items, i.Fits) := by
  induction items with
  | nil => exact ⟨Nat.le_refl 0, fun _ i hi => by cases hi⟩
  | cons i items ih =>
    rw [List.flatMap_cons, List.forall_mem_cons]
    cases i with
    | word w =>
      refine ⟨Nat.succ_le_succ ih.1, fun h => ⟨trivial, ih.2 (Nat.le_of_succ_le_succ h)⟩⟩
    | redirection r =>
      rcases split_cases r with ⟨hfits, hsplit⟩ | ⟨hfits, w, hsplit⟩
      · rw [hsplit]
        exact ⟨ih.1, fun h => ⟨hfits, ih.2 h⟩⟩
      · rw [hsplit]
        refine ⟨Nat.le_succ_of_le ih.1, fun h => ?_⟩
        exact absurd (Nat.le_trans h ih.1) (Nat.not_succ_le_self _)

theorem apart_of_absorb (h : itemRedirections (absorb items) = itemRedirections items) :
    items.IsChain fun i j => ¬ Joined i j := by
  induction items using absorb.induct with
  | case1 w op target items hjoined ih =>
    obtain ⟨d, hd⟩ := Option.isSome_iff_exists.mp hjoined.1
    rw [absorb, if_pos hjoined, hd] at h
    injection h with h
    injection h with h
    cases h
  | case2 w op target items hno ih =>
    rw [absorb, if_neg hno] at h
    rw [List.isChain_cons_cons]
    exact ⟨fun hjoined => hno ⟨hjoined.1, hjoined.2.2⟩, ih h⟩
  | case3 i items hno ih =>
    rw [absorb.eq_2 i items hno] at h
    have htail : itemRedirections (absorb items) = itemRedirections items := by
      cases i with
      | word w => exact h
      | redirection r => exact (List.cons.inj h).2
    cases items with
    | nil => exact .singleton i
    | cons j items =>
      refine .cons_cons ?_ (ih htail)
      intro hjoined
      cases i with
      | redirection r => exact hjoined
      | word w =>
        cases j with
        | word w' => exact hjoined
        | redirection r =>
          rcases r with ⟨fd, op, target⟩
          obtain ⟨-, hfd, -⟩ := hjoined
          have hnone : fd = none := hfd
          rw [hnone] at hno
          exact hno w op target items rfl rfl
  | case4 => exact .nil

/-- Where no descriptor has changed, no word has been absorbed. -/
theorem eq_of_same_fds {a b c : List WrittenRedirection} (hab : List.Forall₂ Absorbed a b)
    (hbc : List.Forall₂ Split b c)
    (hfd : a.map (fun r => r.value.fd) = c.map fun r => r.value.fd) : a = b := by
  induction hab generalizing c with
  | nil => rfl
  | @cons r'' r' a b hr hab ih =>
    cases hbc with
    | @cons _ r _ c hr' hbc =>
      rw [List.map_cons, List.map_cons, List.cons.injEq] at hfd
      rw [ih hbc hfd.2]
      rcases hr with rfl | ⟨hnone, hboth, d, hd, rfl⟩
      · rfl
      · have hvalue : some d = r.value.fd := hfd.1
        rcases hr' with ⟨hfits, rfl⟩ | ⟨hfits, rfl⟩
        · rw [WrittenRedirection.value, hnone, hboth] at hvalue
          cases hvalue
        · refine absurd ?_ hfits
          intro n hn
          rw [WrittenRedirection.value, hn] at hvalue
          cases hvalue
          exact ⟨hd, hboth⟩

theorem itemWords_asBytes (items : List Item) :
    itemWords (items.map Item.asBytes) = (itemWords items).map Utf8.encode := by
  induction items with
  | nil => rfl
  | cons i items ih =>
    cases i with
    | word w => exact congrArg (Utf8.encode w :: ·) ih
    | redirection r => exact ih

theorem itemRedirections_asBytes (items : List Item) : itemRedirections (items.map Item.asBytes) =
    (itemRedirections items).map fun r => { r with target := Utf8.encode r.target } := by
  induction items with
  | nil => rfl
  | cons i items ih =>
    cases i with
    | word w => exact ih
    | redirection r => exact congrArg (List.cons _) ih

theorem readsBack_of_taken (hne : items ≠ []) (hbr : ∀ i ∈ items, i.NoBracket)
    (h : writtenCommand ((taken items).map Item.asBytes) = writtenCommand items) :
    ReadsBack items := by
  obtain ⟨hwords, hredirections⟩ := writtenCommand_inj h
  rw [itemWords_asBytes] at hwords
  rw [itemRedirections_asBytes, List.map_map] at hredirections
  have hfds : (itemRedirections (taken items)).map (fun r => r.value.fd) =
      (itemRedirections items).map fun r => r.value.fd := by
    have hmap := congrArg (List.map Redirection.fd) hredirections
    rw [List.map_map, List.map_map] at hmap
    exact hmap
  have hsame : itemRedirections (taken items) = itemRedirections (items.flatMap Item.split) :=
    eq_of_same_fds (absorbed_redirections _) (split_redirections items) hfds
  have hchain := apart_of_absorb hsame
  have habsorb : taken items = items.flatMap Item.split := absorb_of_apart hchain
  rw [habsorb] at hwords hredirections
  have hlength := congrArg List.length hwords
  rw [List.length_map] at hlength
  have hfits := (split_words items).2 (Nat.le_of_eq hlength)
  rw [split_of_fits hfits] at hwords hredirections hchain
  refine ⟨hne, ?_, hbr, hfits, hchain⟩
  intro i hi
  refine Utf8.ascii_of_encode ?_
  cases i with
  | word w =>
    have hmem : w ∈ itemWords items := List.mem_filterMap.mpr ⟨_, hi, rfl⟩
    exact (List.map_inj_left.mp (hwords.trans (List.map_id _).symm)) w hmem
  | redirection r =>
    have hmem : r ∈ itemRedirections items := List.mem_filterMap.mpr ⟨_, hi, rfl⟩
    have hvalue := List.map_inj_left.mp hredirections r hmem
    injection hvalue with _ _ htarget
    injection htarget with htarget
    injection htarget with htarget
    injection htarget

/-- **A printed simple command is parsed as itself exactly where no word is taken for a
    descriptor.** -/
theorem parse_print_iff {items : List Item} (h : IsWritten items) :
    (∃ span, parse (String.ofList (printItems items)) =
      .ok (commandProgram (writtenCommand items) span)) ↔ ReadsBack items := by
  constructor
  · rintro ⟨span, hparse⟩
    have hbr : ∀ i ∈ items, i.NoBracket := by
      intro i hi
      by_contra hbr
      exact parse_bracket h ⟨i, hi, hbr⟩ _ span hparse
    have hne : items ≠ [] := by
      rintro rfl
      have hempty : parse (String.ofList (printItems [])) = .ok ⟨[]⟩ := rfl
      rw [hempty] at hparse
      cases hparse
    obtain ⟨span', hread⟩ := parse_print h hne hbr
    rw [hparse] at hread
    injection hread with hread
    exact readsBack_of_taken hne hbr (commandProgram_inj hread).symm
  · intro hread
    obtain ⟨span, hparse⟩ := parse_print h hread.ne_nil hread.no_bracket
    have htaken : (taken items).map Item.asBytes = items := by
      rw [taken, split_of_fits hread.fits, absorb_of_apart hread.apart,
        asBytes_of_ascii hread.ascii]
    rw [htaken] at hparse
    exact ⟨span, hparse⟩

/-- `echo hi 2> log`. -/
def logItems : List Item :=
  [.word ['e', 'c', 'h', 'o'], .word ['h', 'i'], .redirection ⟨some 2, .greater, ['l', 'o', 'g']⟩]

theorem parse_print_log : ∃ span, parse (String.ofList (printItems logItems)) =
    .ok (commandProgram (writtenCommand logItems) span) := by
  refine (parse_print_iff ⟨?_, ?_, ?_⟩).mpr ⟨?_, ?_, ?_, ?_, ?_⟩
  · simp [logItems, isPlain_iff, Item.content, isPlainByte, isWordBreak]
  · decide
  · rintro w h
    cases h
    decide
  · exact List.cons_ne_nil _ _
  · simp [logItems, Item.content]
  · simp [logItems, Item.NoBracket, Item.content]
  · simp [logItems, Item.Fits, Operator.both]
  · simp [logItems, Joined]

/-- `echo 2 > f`. -/
def digitItems : List Item :=
  [.word ['e', 'c', 'h', 'o'], .word ['2'], .redirection ⟨none, .greater, ['f']⟩]

/-- The word is taken for a descriptor. -/
theorem digit_joins : ¬ ∀ items, IsWritten items → ∃ span,
    parse (String.ofList (printItems items)) =
      .ok (commandProgram (writtenCommand items) span) := by
  intro hall
  have hwritten : IsWritten digitItems := by
    refine ⟨?_, by decide, ?_⟩
    · simp [digitItems, isPlain_iff, Item.content, isPlainByte, isWordBreak]
    · rintro w h
      cases h
      decide
  have hbr : ∀ i ∈ digitItems, i.NoBracket := by
    simp [digitItems, Item.NoBracket, Item.content]
  obtain ⟨span, hparse⟩ := hall digitItems hwritten
  obtain ⟨span', hread⟩ := parse_print hwritten (List.cons_ne_nil _ _) hbr
  rw [hparse] at hread
  injection hread with hread
  have hwords := (writtenCommand_inj (commandProgram_inj hread)).1
  exact absurd (congrArg List.length hwords) (by decide)

end Wasmsh.Parser

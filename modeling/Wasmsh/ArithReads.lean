import Wasmsh.ArithLevels

/-!
# What the arithmetic parser reads

The tokens of a tree are read as the tree: the parser arrives behind them with the value and the
state of `Expr.run`, unless the levels of recursion do not suffice for the tree.
-/

namespace Wasmsh.Arith

open Chains

/-! ## 1. Pieces of text -/

section Reading

variable {ok : ArithToken → Prop} {bad : ArithState → Prop}

/-- There is room for the levels, or the guard's error makes the state bad. -/
def Suffices (bad : ArithState → Prop) (n room : Nat) : Prop :=
  n ≤ room ∨ ∀ st, bad (setArithError recursionLimit st)

theorem Suffices.mono {n n' room : Nat} (h : Suffices bad n room) (hle : n' ≤ n) :
    Suffices bad n' room := by
  rcases h with hroom | hlimit
  · exact Or.inl (hle.trans hroom)
  · exact Or.inr hlimit

/-- The tokens are the beginning of what is read in a place, with more operators of the level of
    the place still to follow, if it is the place of a level. -/
def Starts (ok : ArithToken → Prop) (bad : ArithState → Prop) (room : Nat) :
    Slot → List ArithToken → ArithState → Int64 → ArithState → Prop
  | .operand => Reads ok bad (Stops .operand) (parseUnary room)
  | .chain 0 => Reads ok bad (Stops (.chain 0)) (parseExponentiation room)
  | .chain (n + 1) =>
    Begins (opAt n) (tower (parseExponentiation room) n) ok bad (Stops (.chain n))
  | .assignment => Reads ok bad (Stops .assignment) (parseAssign room)
  | .any => Begins commaOp (parseAssign room) ok bad (Stops .assignment)

/-- The tokens are read in a place wherever there is room for their levels. -/
def Piece (ok : ArithToken → Prop) (bad : ArithState → Prop) (place : Slot) (n : Nat)
    (ts : List ArithToken) (st : ArithState) (v : Int64) (st' : ArithState) : Prop :=
  ∀ room, Suffices bad n room → Starts ok bad room place ts st v st'

/-- The tokens do not begin with an assignment. -/
def NoAssign (ts : List ArithToken) : Prop :=
  ∀ name op rest, ts = .ident name :: op :: rest → assignOp op = none

variable {place own : Slot} {n room : Nat} {ts : List ArithToken} {st st' : ArithState} {v : Int64}

theorem Starts.reads (h : Starts ok bad room place ts st v st') :
    Reads ok bad (Stops place) (parserAt room place) ts st v st' := by
  match place, h with
  | .operand, h => exact h
  | .chain 0, h => exact h
  | .chain (n + 1), h =>
    intro rest hrest hok
    apply reads_of_begins h rest _ hok
    exact ⟨hrest.mono (by simp [Slot.rank]), hrest.no_operator⟩
  | .assignment, h => exact h
  | .any, h =>
    intro rest hrest hok
    apply reads_of_begins h rest _ hok
    exact ⟨hrest.mono (by simp [Slot.rank]), hrest.no_comma⟩

theorem Piece.reads (h : Piece ok bad place n ts st v st') (hroom : Suffices bad n room) :
    Reads ok bad (Stops place) (parserAt room place) ts st v st' :=
  (h room hroom).reads

/-- What is behind a guard needs a level more. -/
theorem reads_guarded {parse : Nat → ArithParser} {follow : List ArithToken → Prop}
    (hzero : parse 0 = limitReached)
    (hsucc : ∀ room, Suffices bad n room → Reads ok bad follow (parse (room + 1)) ts st v st')
    (hroom : Suffices bad (1 + n) room) : Reads ok bad follow (parse room) ts st v st' := by
  cases room with
  | zero =>
    rcases hroom with hle | hlimit
    · omega
    · intro rest _ _
      rw [hzero]
      exact Or.inl (hlimit st)
  | succ room =>
    apply hsucc
    rcases hroom with hle | hlimit
    · exact Or.inl (by omega)
    · exact Or.inr hlimit

theorem limit_unary : parseUnary 0 = limitReached := by rw [parseUnary]

theorem limit_exponentiation : parseExponentiation 0 = limitReached := by
  rw [parseExponentiation]

theorem limit_assign : parseAssign 0 = limitReached := by rw [parseAssign]

theorem powTail_stop {exponentiation : ArithParser} {rest : List ArithToken}
    (h : Stops (.chain 0) rest) : powTail exponentiation (v, rest, st) = (v, rest, st) := by
  unfold powTail
  split
  · next heq =>
    subst heq
    exact absurd (stops_cons.mp h) (by decide)
  · rfl

theorem ternaryTail_stop {assign : ArithParser} {rest : List ArithToken}
    (h : Stops .assignment rest) : ternaryTail assign (v, rest, st) = (v, rest, st) := by
  unfold ternaryTail
  split
  · next heq =>
    subst heq
    exact absurd (stops_cons.mp h) (by decide)
  · rfl

theorem parseAssign_ternary (h : NoAssign ts) :
    parseAssign (room + 1) ts st =
      ternaryTail (parseAssign room) (tower (parseExponentiation room) 10 ts st) := by
  have hternary := congrFun (congrFun
    (parseTernary_eq (parseAssign room) (parseExponentiation room)) ts) st
  simp only [parseAssign]
  split
  · next name op rest =>
    rw [h name op rest rfl]
    exact hternary
  · exact hternary

variable (hkept : Kept ok bad)

include hkept

theorem Piece.to_chain_zero (h : Piece ok bad .operand n ts st v st') :
    Piece ok bad (.chain 0) (1 + n) ts st v st' := by
  intro room
  apply reads_guarded limit_exponentiation
  intro room hroom rest hrest hok
  have hread := h.reads hroom rest (hrest.mono (by decide)) hok
  simp only [parserAt] at hread
  simp only [parseExponentiation_succ]
  rcases hread with hbad | heq
  · left
    apply (powTail_sane (parsers_sane hkept room).2.1).keeps _ _ hbad
    exact ok_of_suffix ((parsers_sane hkept room).2.2.suffix _ _) hok
  · right
    rw [heq, powTail_stop hrest]

theorem Piece.to_chain_succ {m : Nat} (h : Piece ok bad (.chain m) n ts st v st') :
    Piece ok bad (.chain (m + 1)) n ts st v st' := fun room hroom =>
  begins_one (tower_sane hkept (parsers_sane hkept room).2.1 m) (opAt_sane hkept m)
    (h.reads hroom)

theorem Piece.to_chain {m k : Nat} (h : Piece ok bad (.chain m) n ts st v st') (hle : m ≤ k) :
    Piece ok bad (.chain k) n ts st v st' := by
  induction k, hle using Nat.le_induction with
  | base => exact h
  | succ k _ ih => exact ih.to_chain_succ hkept

theorem Piece.to_assignment (h : Piece ok bad (.chain 10) n ts st v st')
    (hplain : ∀ rest, Stops .operand rest → NoAssign (ts ++ rest)) :
    Piece ok bad .assignment (1 + n) ts st v st' := by
  intro room
  apply reads_guarded limit_assign
  intro room hroom rest hrest hok
  have hread := h.reads hroom rest (hrest.mono (by decide)) hok
  simp only [parserAt] at hread
  rw [parseAssign_ternary (hplain rest (hrest.mono (by decide)))]
  have hsane := tower_sane hkept (parsers_sane hkept room).2.1 10
  rcases hread with hbad | heq
  · left
    apply (ternaryTail_sane (parsers_sane hkept room).1).keeps _ _ hbad
    exact ok_of_suffix (hsane.suffix _ _) hok
  · right
    rw [heq, ternaryTail_stop hrest]

theorem Piece.to_any (h : Piece ok bad .assignment n ts st v st') :
    Piece ok bad .any n ts st v st' := fun room hroom =>
  begins_one (parsers_sane hkept room).1 commaOp_sane (h.reads hroom)

/-! ## 2. Wider places -/

/-- The places there are. -/
def Slot.Valid : Slot → Prop
  | .chain level => level ≤ 10
  | _ => True

omit hkept in
theorem Slot.Valid.rank_le {place : Slot} (h : place.Valid) : place.rank ≤ Slot.any.rank := by
  cases place with
  | chain m => exact (Nat.succ_le_succ h).trans (by decide)
  | _ => decide

omit hkept in
theorem Slot.Valid.rank_le_of_ne {place : Slot} (h : place.Valid) (hne : place ≠ .any) :
    place.rank ≤ Slot.assignment.rank := by
  cases place with
  | chain m => exact (Nat.succ_le_succ h).trans (by decide)
  | any => exact absurd rfl hne
  | _ => decide

omit hkept in
theorem Expr.slot_valid {L N : Type} (e : Expr L N) : e.slot.Valid := by
  cases e with
  | binary op a b => exact op.level_lt
  | pow => exact Nat.zero_le 10
  | _ => trivial

theorem Piece.lift_chain {k : Nat} (h : Piece ok bad own n ts st v st')
    (hle : own.rank ≤ k + 1) (hk : k ≤ 10) :
    Piece ok bad (.chain k) (1 - own.guards + n) ts st v st' := by
  cases own with
  | operand => exact (h.to_chain_zero hkept).to_chain hkept (Nat.zero_le k)
  | chain m =>
    have hm : m ≤ k := Nat.le_of_succ_le_succ hle
    simpa [Slot.guards] using h.to_chain hkept hm
  | assignment =>
    simp only [Slot.rank] at hle
    omega
  | any =>
    simp only [Slot.rank] at hle
    omega

theorem Piece.lift_assignment (h : Piece ok bad own n ts st v st') (hown : own.Valid)
    (hle : own.rank ≤ 12)
    (hplain : own.rank < 12 → ∀ rest, Stops .operand rest → NoAssign (ts ++ rest)) :
    Piece ok bad .assignment (2 - own.guards + n) ts st v st' := by
  have hchain : own.rank ≤ 11 →
      Piece ok bad .assignment (1 + (1 - own.guards + n)) ts st v st' := fun hrank =>
    (h.lift_chain hkept hrank (le_refl 10)).to_assignment hkept (hplain (Nat.lt_succ_of_le hrank))
  cases own with
  | operand =>
    have hpiece := hchain (by decide)
    rwa [← Nat.add_assoc] at hpiece
  | chain m =>
    have hpiece := hchain (Nat.succ_le_succ hown)
    simpa [Slot.guards] using hpiece
  | assignment => simpa [Slot.guards] using h
  | any => exact absurd hle (by decide)

theorem Piece.lift_any (h : Piece ok bad own n ts st v st') (hown : own.Valid)
    (hplain : own.rank < 12 → ∀ rest, Stops .operand rest → NoAssign (ts ++ rest)) :
    Piece ok bad .any (2 - own.guards + n) ts st v st' := by
  cases own with
  | any => simpa [Slot.guards] using h
  | operand => exact (h.lift_assignment hkept hown (by decide) hplain).to_any hkept
  | chain m =>
    have hle : (Slot.chain m).rank ≤ 12 := (Nat.succ_le_succ hown).trans (by decide)
    exact (h.lift_assignment hkept hown hle hplain).to_any hkept
  | assignment => exact (h.lift_assignment hkept hown (le_refl _) hplain).to_any hkept

/-- A piece is read in any place that takes it without parentheses. -/
theorem Piece.lift (h : Piece ok bad own n ts st v st') (hown : own.Valid)
    (hplace : place.Valid) (hle : own.rank ≤ place.rank)
    (hplain : own.rank < 12 → ∀ rest, Stops .operand rest → NoAssign (ts ++ rest)) :
    Piece ok bad place (place.guards - own.guards + n) ts st v st' := by
  cases place with
  | operand =>
    cases own with
    | operand => simpa using h
    | chain m => cases hle
    | assignment => cases hle
    | any => cases hle
  | chain k => exact h.lift_chain hkept hle hplace
  | assignment => exact h.lift_assignment hkept hown hle hplain
  | any => exact h.lift_any hkept hown hplain

omit hkept in
theorem Piece.paren (h : Piece ok bad .any n ts st v st') :
    Piece ok bad .operand (1 + n) (.lParen :: (ts ++ [.rParen])) st v st' := by
  intro room
  apply reads_guarded limit_unary
  intro room hroom rest hrest hok
  have hok' : ∀ t ∈ ts ++ .rParen :: rest, ok t := by
    intro t ht
    apply hok t
    simpa using Or.inr ht
  have hread := h.reads hroom (.rParen :: rest) (stops_cons.mpr (by decide)) hok'
  simp only [parserAt] at hread
  simp only [List.cons_append, List.append_assoc, List.nil_append, parseUnary,
    parsePrimary_paren]
  rcases hread with hbad | heq
  · exact Or.inl hbad
  · right
    rw [heq]
    rfl

theorem Piece.bracket {L N : Type} {lit : L → Int64} {nm : N → List Char}
    {ls : List (Lexeme L N)} (h : Piece ok bad own n (ls.map (Lexeme.token lit nm)) st v st')
    (hown : own.Valid) (hplace : place.Valid)
    (hplain : own.rank < 12 →
      ∀ rest, Stops .operand rest → NoAssign (ls.map (Lexeme.token lit nm) ++ rest)) :
    Piece ok bad place (levelsIn place own n)
      ((bracket place own ls).map (Lexeme.token lit nm)) st v st' := by
  unfold Arith.bracket levelsIn
  split
  · have hparen := (h.lift_any hkept hown hplain).paren
    have hnoassign : ∀ rest, NoAssign
        (.lParen :: (ls.map (Lexeme.token lit nm) ++ [.rParen]) ++ rest) := by
      intro rest name op us heq
      cases heq
    have hlift := hparen.lift hkept trivial hplace (Nat.zero_le _) fun _ rest _ => hnoassign rest
    simpa [Slot.guards, Lexeme.token, Nat.add_assoc] using hlift
  · next hrank => exact h.lift hkept hown hplace (not_lt.mp hrank) hplain

end Reading

/-! ## 3. Trees -/

section Trees

variable {L N : Type} (lit : L → Int64) (nm : N → List Char)

theorem bracket_of_le {place own : Slot} {ls : List (Lexeme L N)} (h : own.rank ≤ place.rank) :
    bracket place own ls = ls := if_neg (not_lt.mpr h)

theorem noAssign_bracket {place own : Slot} {ls : List (Lexeme L N)}
    (hplain : own.rank < 12 →
      ∀ rest, Stops .operand rest → NoAssign (ls.map (Lexeme.token lit nm) ++ rest))
    (hplace : place.rank < 12) (rest : List ArithToken) (hrest : Stops .operand rest) :
    NoAssign ((bracket place own ls).map (Lexeme.token lit nm) ++ rest) := by
  unfold bracket
  split
  · intro name op us heq
    cases heq
  · next hrank => exact hplain (lt_of_le_of_lt (not_lt.mp hrank) hplace) rest hrest

/-- Only an assignment begins like one. -/
theorem Expr.noAssign (e : Expr L N) (h : e.slot.rank < 12) (rest : List ArithToken)
    (hrest : Stops .operand rest) :
    NoAssign (e.lexemes.map (Lexeme.token lit nm) ++ rest) := by
  induction e generalizing rest with
  | number l =>
    intro name op us heq
    cases heq
  | name n =>
    intro name op us heq
    cases heq
    exact hrest.no_assignment
  | pre op n | unary op e ih =>
    intro name op' us heq
    cases op <;> cases heq
  | post n op =>
    intro name op' us heq
    cases op <;> cases heq <;> rfl
  | paren e ih =>
    intro name op us heq
    cases heq
  | pow a b iha ihb =>
    simp only [lexemes, List.map_append, List.append_assoc]
    exact noAssign_bracket lit nm iha (by decide) _ (stops_cons.mpr Nat.zero_lt_one)
  | binary op a b iha ihb =>
    simp only [lexemes, List.map_append, List.append_assoc]
    apply noAssign_bracket lit nm iha h
    apply stops_cons.mpr
    simp [Lexeme.token, op.reach_token, Slot.rank]
  | cond => exact absurd h (lt_irrefl 12)
  | assign => exact absurd h (lt_irrefl 12)
  | comma => exact absurd h (Nat.not_succ_lt_self)

variable {ok : ArithToken → Prop} {bad : ArithState → Prop}

theorem piece_number (l : L) (st : ArithState) :
    Piece ok bad .operand 1 [.number (lit l)] st (lit l) st := by
  intro room
  apply reads_guarded limit_unary (n := 0)
  intro room _ rest _ _
  right
  simp [parseUnary, parsePrimary_number]

theorem piece_name (n : N) (st : ArithState) :
    Piece ok bad .operand 1 [.ident (nm n)] st (varGet (nm n) st).1 (varGet (nm n) st).2 := by
  intro room
  apply reads_guarded limit_unary (n := 0)
  intro room _ rest hrest _
  right
  have hunary : ∀ us, parseUnary (room + 1) (.ident (nm n) :: us) st =
      parsePrimary (parseAssign room) (.ident (nm n) :: us) st := fun us => by
    rw [parseUnary]
  rw [List.singleton_append, hunary, parsePrimary_name]
  intro t ht
  constructor
  · rintro rfl
    exact absurd (hrest _ ht) (by decide)
  · rintro rfl
    exact absurd (hrest _ ht) (by decide)

theorem piece_pre (op : StepOp) (n : N) (st : ArithState) :
    Piece ok bad .operand 1 [op.token, .ident (nm n)] st (op.apply (varGet (nm n) st).1)
      (varSet (nm n) (op.apply (varGet (nm n) st).1) (varGet (nm n) st).2) := by
  intro room
  apply reads_guarded limit_unary (n := 0)
  intro room _ rest _ _
  right
  cases op with
  | up => simp [parseUnary, parsePreIncdec, StepOp.token, StepOp.apply]
  | down =>
    simp [parseUnary, parsePreIncdec, StepOp.token, StepOp.apply, Int64.sub_eq_add_neg]

theorem piece_post (n : N) (op : StepOp) (st : ArithState) :
    Piece ok bad .operand 1 [.ident (nm n), op.token] st (varGet (nm n) st).1
      (varSet (nm n) (op.apply (varGet (nm n) st).1) (varGet (nm n) st).2) := by
  intro room
  apply reads_guarded limit_unary (n := 0)
  intro room _ rest _ _
  right
  have hunary : parseUnary (room + 1) (.ident (nm n) :: op.token :: rest) st =
      parsePrimary (parseAssign room) (.ident (nm n) :: op.token :: rest) st := by
    rw [parseUnary]
  change parseUnary (room + 1) (.ident (nm n) :: op.token :: rest) st = _
  rw [hunary, parsePrimary_post]

variable {n m k room : Nat} {ts us ws : List ArithToken} {st st₁ st₂ st₃ : ArithState}
  {u v w : Int64}

theorem piece_unary (op : UnOp) (h : Piece ok bad .operand n ts st v st₁) :
    Piece ok bad .operand (1 + n) (op.token :: ts) st (op.apply v) st₁ := by
  intro room
  apply reads_guarded limit_unary
  intro room hroom rest hrest hok
  have happly : parseUnary (room + 1) (op.token :: ts ++ rest) st =
      (op.apply (parseUnary room (ts ++ rest) st).1, (parseUnary room (ts ++ rest) st).2) := by
    cases op <;> simp [parseUnary, UnOp.token, UnOp.apply]
  have hread := h.reads hroom rest hrest fun t ht => hok t (.tail _ ht)
  simp only [parserAt] at hread
  rw [happly]
  rcases hread with hbad | heq
  · exact Or.inl hbad
  · right
    rw [heq]

theorem ok_append_right {ts us : List ArithToken} (h : ∀ t ∈ ts ++ us, ok t) : ∀ t ∈ us, ok t :=
  fun t ht => h t (List.mem_append_right ts ht)

variable (hkept : Kept ok bad)

include hkept

theorem piece_pow (ha : Piece ok bad .operand n ts st v st₁)
    (hb : Piece ok bad (.chain 0) m us st₁ w st₂) :
    Piece ok bad (.chain 0) (1 + max n m) (ts ++ .starStar :: us) st (wrappingPow v w) st₂ := by
  intro room
  apply reads_guarded limit_exponentiation
  intro room hroom rest hrest hok
  rw [List.append_assoc, List.cons_append] at hok ⊢
  have hread := ha.reads (hroom.mono (le_max_left n m)) (.starStar :: (us ++ rest))
    (stops_cons.mpr Nat.zero_lt_one) hok
  simp only [parserAt] at hread
  simp only [parseExponentiation_succ]
  rcases hread with hbad | heq
  · left
    apply (powTail_sane (parsers_sane hkept room).2.1).keeps _ _ hbad
    exact ok_of_suffix ((parsers_sane hkept room).2.2.suffix _ _) hok
  · have hread' := hb.reads (hroom.mono (le_max_right n m)) rest hrest
      (fun t ht => ok_append_right hok t (.tail _ ht))
    simp only [parserAt, tower] at hread'
    rw [heq]
    simp only [powTail]
    rcases hread' with hbad | heq'
    · exact Or.inl hbad
    · right
      rw [heq']

theorem piece_binary (op : BinOp) (ha : Piece ok bad (.chain (op.level + 1)) n ts st v st₁)
    (hb : Piece ok bad (.chain op.level) m us st₁ w st₂) :
    Piece ok bad (.chain (op.level + 1)) (max n m) (ts ++ op.token :: us) st
      (op.apply v w st₂).1 (op.apply v w st₂).2 := by
  intro room hroom
  apply begins_more (tower_sane hkept (parsers_sane hkept room).2.1 op.level)
    (opAt_sane hkept op.level) (ha room (hroom.mono (le_max_left n m))) (opAt_token op) _
    (hb.reads (hroom.mono (le_max_right n m)))
  intro rest
  apply stops_cons.mpr
  rw [op.reach_token]
  exact Nat.lt_succ_self _

theorem piece_comma (ha : Piece ok bad .any n ts st v st₁)
    (hb : Piece ok bad .assignment m us st₁ w st₂) :
    Piece ok bad .any (max n m) (ts ++ .comma :: us) st w st₂ := by
  intro room hroom
  have hbegins := begins_more (parsers_sane hkept room).1 commaOp_sane
    (ha room (hroom.mono (le_max_left n m))) (t := .comma) rfl
    (fun rest => stops_cons.mpr (by decide)) (hb.reads (hroom.mono (le_max_right n m)))
  exact hbegins

theorem piece_cond (hc : Piece ok bad (.chain 10) n ts st u st₁)
    (ha : Piece ok bad .assignment m us st₁ v st₂) (hb : Piece ok bad .assignment k ws st₂ w st₃)
    (hplain : ∀ rest, Stops .operand rest → NoAssign (ts ++ rest)) :
    Piece ok bad .assignment (1 + max n (max m k)) (ts ++ .question :: (us ++ .colon :: ws)) st
      (if u ≠ 0 then v else w) st₃ := by
  intro room
  apply reads_guarded limit_assign
  intro room hroom rest hrest hok
  have hassign := (parsers_sane hkept room).1
  have hsane := tower_sane hkept (parsers_sane hkept room).2.1 10
  simp only [List.append_assoc, List.cons_append] at hok ⊢
  have hquestion : Stops (.chain 10) (.question :: (us ++ .colon :: (ws ++ rest))) :=
    stops_cons.mpr (by decide)
  have hmiddle : ∀ t ∈ us ++ .colon :: (ws ++ rest), ok t := fun t ht =>
    ok_append_right hok t (.tail _ ht)
  have hlast : ∀ t ∈ ws ++ rest, ok t := fun t ht => ok_append_right hmiddle t (.tail _ ht)
  rw [parseAssign_ternary (hplain _ (hquestion.mono (by decide)))]
  have hread := hc.reads (hroom.mono (le_max_left n _)) _ hquestion hok
  simp only [parserAt] at hread
  rcases hread with hbad | heq
  · left
    apply (ternaryTail_sane hassign).keeps _ _ hbad
    exact ok_of_suffix (hsane.suffix _ _) hok
  · rw [heq]
    simp only [ternaryTail]
    have hread' := ha.reads (hroom.mono ((le_max_left m k).trans (le_max_right n _)))
      (.colon :: (ws ++ rest)) (stops_cons.mpr (by decide)) hmiddle
    simp only [parserAt] at hread'
    rcases hread' with hbad | heq'
    · left
      apply hassign.keeps _ _ _ hbad
      exact ok_of_suffix ((eat_suffix _ _).trans (hassign.suffix _ _)) hmiddle
    · rw [heq']
      have hread'' := hb.reads (hroom.mono ((le_max_right m k).trans (le_max_right n _))) rest
        hrest hlast
      simp only [parserAt] at hread''
      simp only [eat, if_true]
      rcases hread'' with hbad | heq''
      · exact Or.inl hbad
      · right
        rw [heq'']

theorem piece_assign (name : N) (op : AssignOp) (h : Piece ok bad .assignment n ts st v st₁) :
    Piece ok bad .assignment (1 + n) (.ident (nm name) :: op.token :: ts) st
      (op.apply (assignRead op.token (nm name) st₁).1 v)
      (varSet (nm name) (op.apply (assignRead op.token (nm name) st₁).1 v)
        (assignRead op.token (nm name) st₁).2) := by
  intro room
  apply reads_guarded limit_assign
  intro room hroom rest hrest hok
  have happly : assignOp op.token = some op.apply := by cases op <;> rfl
  have hread := h.reads hroom rest hrest fun t ht => hok t (.tail _ (.tail _ ht))
  simp only [parserAt] at hread
  simp only [List.cons_append, parseAssign, happly]
  rcases hread with hbad | heq
  · left
    apply hkept.write op.token (Or.inl _) (hok _ (by simp)) _ _ _ (hkept.assignRead _ _ hbad)
    rw [happly]
    rfl
  · right
    rw [heq]

/-- A tree is read with the value and the state of `Expr.run`. -/
theorem Expr.piece (e : Expr L N) (h : e.All ClosedMiddle) (st : ArithState) :
    Piece ok bad e.slot e.levels (e.tokens lit nm) st (e.run lit nm st).1 (e.run lit nm st).2 := by
  have hbracket : ∀ (e : Expr L N) (place : Slot), place.Valid → ∀ st,
      Piece ok bad e.slot e.levels (e.tokens lit nm) st (e.run lit nm st).1
        (e.run lit nm st).2 →
      Piece ok bad place (levelsIn place e.slot e.levels)
        ((bracket place e.slot e.lexemes).map (Lexeme.token lit nm)) st (e.run lit nm st).1
        (e.run lit nm st).2 := fun e place hplace st he =>
    he.bracket hkept e.slot_valid hplace (e.noAssign lit nm)
  induction e generalizing st with
  | number l => exact piece_number lit l st
  | name x => exact piece_name nm x st
  | pre op x => exact piece_pre nm op x st
  | post x op => exact piece_post nm x op st
  | paren e ih =>
    have he := hbracket e .any trivial st (ih h.2 st)
    rw [bracket_of_le e.slot_valid.rank_le] at he
    simp only [tokens, lexemes, List.map_append, List.map_cons, List.map_nil]
    exact he.paren
  | unary op e ih =>
    have he := hbracket e .operand trivial st (ih h.2 st)
    exact piece_unary op he
  | pow a b iha ihb =>
    have ha := hbracket a .operand trivial st (iha h.2.1 st)
    have hb := hbracket b (.chain 0) (Nat.zero_le _) _ (ihb h.2.2 (a.run lit nm st).2)
    simp only [tokens, lexemes, List.map_append, List.map_cons]
    exact piece_pow hkept ha hb
  | binary op a b iha ihb =>
    have hlevel := op.level_lt
    have ha := hbracket a (.chain (op.level + 1)) hlevel st (iha h.2.1 st)
    have hb := hbracket b (.chain op.level) hlevel.le _ (ihb h.2.2 (a.run lit nm st).2)
    simp only [tokens, lexemes, List.map_append, List.map_cons]
    exact piece_binary hkept op ha hb
  | cond c a b ihc iha ihb =>
    have hc := hbracket c (.chain 10) (le_refl 10) st (ihc h.2.1 st)
    have ha := hbracket a .assignment trivial _ (iha h.2.2.1 (c.run lit nm st).2)
    have hb := hbracket b .assignment trivial _
      (ihb h.2.2.2 (a.run lit nm (c.run lit nm st).2).2)
    rw [bracket_of_le (a.slot_valid.rank_le_of_ne h.1)] at ha
    have hcond := piece_cond hkept hc ha hb
      (noAssign_bracket lit nm (c.noAssign lit nm) (by decide))
    simp only [tokens, lexemes, List.map_append, List.map_cons]
    exact hcond
  | assign x op e ih =>
    have he := hbracket e .assignment trivial st (ih h.2 st)
    simp only [tokens, lexemes, List.map_cons]
    exact piece_assign nm hkept x op he
  | comma a b iha ihb =>
    have ha := hbracket a .any trivial st (iha h.2.1 st)
    have hb := hbracket b .assignment trivial _ (ihb h.2.2 (a.run lit nm st).2)
    rw [bracket_of_le a.slot_valid.rank_le] at ha
    simp only [tokens, lexemes, List.map_append, List.map_cons]
    exact piece_comma hkept ha hb

/-- What the parser makes of the tokens of a tree. -/
theorem Expr.parsed (e : Expr L N) (h : e.All ClosedMiddle) (st : ArithState)
    (hroom : Suffices bad e.depth room) (hok : ∀ t ∈ e.tokens lit nm, ok t) :
    Gives bad (parseExpr (parseAssign room) (e.tokens lit nm) st) (e.run lit nm st).1 []
      (e.run lit nm st).2 := by
  have hany : Slot.any.Valid := trivial
  have hpiece := (e.piece lit nm hkept h st).bracket hkept e.slot_valid hany (e.noAssign lit nm)
  rw [bracket_of_le e.slot_valid.rank_le] at hpiece
  have hread := hpiece.reads hroom [] (stops_nil _)
  simp only [parserAt, List.append_nil] at hread
  exact hread hok

omit hkept in
theorem Expr.tokens_ne_nil (e : Expr L N) : e.tokens lit nm ≠ [] := by
  cases e <;> simp [tokens, lexemes]

omit hkept in
theorem evalArithmetic_parse {x : Expander} {text : List Char} {s : ShellState} {e : Expr L N}
    (htext : arithTokenize x (trim text) (some s) = (e.tokens lit nm, st)) :
    evalArithmetic x text s =
      ((parseExpr (parseAssign maxArithDepth) (e.tokens lit nm) st).1,
        (parseExpr (parseAssign maxArithDepth) (e.tokens lit nm) st).2.2) := by
  simp only [evalArithmetic, htext]
  rw [if_neg (e.tokens_ne_nil lit nm)]

omit hkept in
/-- Within the levels of recursion all parts of an expression are evaluated. -/
theorem evalArithmetic_run {x : Expander} {text : List Char} {s : ShellState} {e : Expr L N}
    (htext : arithTokenize x (trim text) (some s) = (e.tokens lit nm, st))
    (hclosed : e.All Expr.ClosedMiddle) (hdepth : e.depth ≤ maxArithDepth) :
    evalArithmetic x text s = e.run lit nm st := by
  have hkept : Kept (fun _ => True) fun _ => False :=
    ⟨fun _ h => h, fun _ _ _ _ h => h, fun _ _ _ _ _ _ h => h, fun _ _ h => h⟩
  rcases e.parsed lit nm hkept hclosed st (Or.inl hdepth) (fun _ _ => trivial) with hbad | heq
  · exact hbad.elim
  · rw [evalArithmetic_parse lit nm htext, heq]

end Trees

end Wasmsh.Arith

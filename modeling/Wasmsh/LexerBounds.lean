import Wasmsh.LexerProgress

/-!
# The bounds of the lexer's loops are never met

A loop of `Wasmsh.Lexer` is given more turns than there are bytes left, and a nested
`$` more nesting than there are bytes after it, so `outOfFuel` is not a result of the
lexer: every run of the model is a run of the source.
-/

namespace Wasmsh.Lex

open Scanning DyckStep

theorem bind_ne {α β : Type} {x : Scan α} {f : α → Scan β} (hx : x ≠ .error .outOfFuel)
    (hf : ∀ a, x = .ok a → f a ≠ .error .outOfFuel) : (x >>= f) ≠ .error .outOfFuel := by
  intro h
  rcases bind_eq_error.mp h with h | ⟨a, ha, h⟩
  · exact hx h
  · exact hf a ha h

theorem consumeProcessSubst_returns (depth : Nat) (c : Text) :
    Returns False (fun p => ∃ v, Closes (c.skip 2) [')'] p.2 v) (consumeProcessSubst depth c) := by
  have hle := Cursor.length_skip_le c 2
  have hbody := consumeBody_returns
    (commandLexeme_reads (dollarAt_returns depth (c.rest.length + 1))) "process substitution" c.pos
    (c.rest.length + 1) 1 (c.skip 2)
  exact (hbody.mono (by omega) fun _ h => h).bind fun c₁ hv => hv

theorem processSubstToken_ne (lx : Lexer) (c : Text) :
    processSubstToken lx c ≠ .error .outOfFuel :=
  bind_ne (consumeProcessSubst_returns _ c).ne (fun _ _ => by simp)

theorem readWord_ne (lx : Lexer) (c : Text) : readWord lx c ≠ .error .outOfFuel :=
  bind_ne ((readWordLoop_returns _ _ c).mono (Nat.not_succ_le_self _) fun _ h => h).ne
    (fun _ _ => by simp)

/-- A comment ends before a newline or at the end of the source. -/
theorem consumeComment_head (c : Text) : ∀ b ∈ (consumeComment c).rest.head?, b = '\n' := by
  obtain ⟨pos, rest⟩ := c
  simp only [consumeComment, Cursor.skip_rest]
  induction rest with
  | nil => simp
  | cons a l ih =>
    by_cases ha : a = '\n'
    · simp [ha]
    · simpa [ha] using ih

theorem consumeComment_reaches (c : Text) : c.Reaches (consumeComment c) :=
  .skip (List.takeWhile_prefix _).length_le

theorem skipBlanksLoop_reaches (pos : Nat) (r : List Char) :
    Cursor.Reaches ⟨pos, r⟩ (skipBlanksLoop pos r) := by
  fun_induction skipBlanksLoop pos r with
  | case1 _ _ ih | case2 _ _ ih => exact (Cursor.Reaches.skip (n := 1) (by simp)).trans ih
  | case3 _ _ ih => exact (Cursor.Reaches.skip (n := 2) (by simp)).trans ih
  | case4 _ _ ih => exact (Cursor.Reaches.skip (n := 3) (by simp)).trans ih
  | case5 => exact .refl _

theorem skipBlanks_reaches (c : Text) : c.Reaches (skipBlanks c) := skipBlanksLoop_reaches _ _

/-- Moving the lexer to a cursor of its own source. -/
theorem cursor_moveTo {lx : Lexer} {c : Text} (h : lx.cursor.Reaches c) :
    (lx.moveTo c).cursor = c := by
  obtain ⟨u, hu, hp⟩ := h
  obtain ⟨pos, rest⟩ := c
  simp only [Lexer.cursor, Lexer.moveTo] at hu hp ⊢
  rw [hp, ← List.drop_drop, hu, List.drop_left]

/-- Only a comment sends `next_normal_token` back to itself. -/
theorem nextNormalToken_ne (n : Nat) (lx : Lexer)
    (h : ∀ r, (skipBlanks lx.cursor).rest = '#' :: r →
      nextNormalToken n (lx.moveTo (consumeComment (skipBlanks lx.cursor))) ≠
        .error .outOfFuel) :
    nextNormalToken (n + 1) lx ≠ .error .outOfFuel := by
  unfold nextNormalToken
  simp only
  split
  case h_6 r hr => exact h r hr
  case h_9 =>
    unfold greaterToken
    split
    · exact processSubstToken_ne _ _
    all_goals simp
  case h_10 =>
    unfold lessToken
    split
    · exact processSubstToken_ne _ _
    all_goals simp
  case h_11 => exact readWord_ne _ _
  all_goals simp

/-- **The lexer never stops at a bound of the model.** -/
theorem nextToken_ne_outOfFuel (lx : Lexer) : nextToken lx ≠ .error .outOfFuel := by
  have hnormal : ∀ lx : Lexer, nextNormalToken 2 lx ≠ .error .outOfFuel := by
    intro lx
    refine nextNormalToken_ne 1 lx (fun r _ => nextNormalToken_ne 0 _ (fun s hs => ?_))
    -- behind a comment there is a newline or nothing, so no second comment
    have hreach := (skipBlanks_reaches lx.cursor).trans (consumeComment_reaches _)
    have hhead := consumeComment_head (skipBlanks lx.cursor)
    rw [cursor_moveTo hreach] at hs
    generalize consumeComment (skipBlanks lx.cursor) = c at hs hhead
    obtain ⟨pos, rest⟩ := c
    cases rest with
    | nil => simp [skipBlanks, skipBlanksLoop] at hs
    | cons b l =>
      obtain rfl : b = '\n' := hhead b (by simp)
      simp [skipBlanks, skipBlanksLoop] at hs
  unfold nextToken
  split
  · exact hnormal _
  · exact hnormal _

end Wasmsh.Lex

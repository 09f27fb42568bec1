import Wasmsh.Assignment
import Wasmsh.RegexReplacing

/-!
# Scripts of `sed`

The parser of `sed` in `wasmsh-utils/src/text_ops.rs`.  Scripts are lists of characters; where
the parser counts in bytes or cuts at a byte offset, so does the model, and a cut inside a
character is a panic.
-/

namespace Wasmsh.Sed

open PosixRegex

/-! ## 1. Instructions -/

/-- `SedSubstitute`. -/
structure SedSubstitute where
  pattern : List Char
  replacement : List Char
  all : Bool
  deriving DecidableEq, Repr

/-- `SedAddr`. -/
inductive SedAddr where
  | none
  | line (n : Nat)
  | last
  | regex (pattern : List Char)
  | range (start stop : SedAddr)
  deriving DecidableEq, Repr

/-- `SedCmd`. -/
inductive SedCmd where
  | substitute (sub : SedSubstitute)
  | delete
  | print
  | transliterate (source target : List Char)
  | appendText (text : List Char)
  | insertText (text : List Char)
  | changeText (text : List Char)
  | quit
  deriving DecidableEq, Repr

/-- `SedInstruction`. -/
structure SedInstruction where
  addr : SedAddr
  cmd : SedCmd
  deriving DecidableEq, Repr

/-! ## 2. The parser -/

/-- `parse_sed_substitute`; no value is a panic. -/
def parseSedSubstitute (expr : List Char) : Option (Option SedSubstitute) :=
  let bytes := Utf8.encode expr
  if expr.head? ≠ some 's' ∨ bytes.length < 4 then some none
  else
    (sliceStr bytes 2 bytes.length).map fun rest =>
      match (Utf8.decode rest).splitOn (bytes.getD 1 ' ') with
      | pattern :: replacement :: flags =>
        some ⟨pattern, replacement, (flags.head?).any (·.contains 'g')⟩
      | _ => none

/-- One address of `parse_sed_addr`, and what is behind it. -/
def parseOneAddr : List Char → Option (SedAddr × List Char)
  | '/' :: stripped =>
    if stripped.contains '/' then
      some (.regex (stripped.takeWhile (· != '/')), (stripped.dropWhile (· != '/')).tail)
    else none
  | '$' :: rest => some (.last, rest)
  | s =>
    ((digitsValue (s.takeWhile Char.isDigit)).filter (· < 2 ^ 64)).map fun n =>
      (.line n, s.dropWhile Char.isDigit)

/-- `parse_sed_addr`, for a bound on the number of addresses. -/
def parseSedAddrs : Nat → List Char → SedAddr × List Char
  | 0, s => (.none, s)
  | fuel + 1, s =>
    match parseOneAddr s with
    | none => (.none, s)
    | some (addr, rest) =>
      if rest.head? = some ',' then
        (.range addr (parseSedAddrs fuel rest.tail).1, (parseSedAddrs fuel rest.tail).2)
      else (addr, rest)

/-- `parse_sed_addr`. -/
def parseSedAddr (s : List Char) : SedAddr × List Char := parseSedAddrs (s.length + 1) s

/-- The `y` command: the two parts between its delimiters. -/
def parseTransliterate (delim : Char) (inner : List Char) : Option SedCmd :=
  match inner.splitOn delim with
  | source :: target :: _ => some (.transliterate source target)
  | _ => none

/-- The command behind the address; no command where the part is skipped. -/
def parseSedCommand (rest : List Char) : Option (Option SedCmd) :=
  if rest.head? = some 's' then (parseSedSubstitute rest).map (·.map .substitute)
  else
    some (match rest with
      | ['d'] => some .delete
      | ['p'] => some .print
      | ['q'] => some .quit
      | 'y' :: '/' :: inner => parseTransliterate '/' inner
      | 'y' :: '|' :: inner => parseTransliterate '|' inner
      | 'a' :: '\\' :: text => some (.appendText (text.dropWhile isWhitespace))
      | 'i' :: '\\' :: text => some (.insertText (text.dropWhile isWhitespace))
      | 'c' :: '\\' :: text => some (.changeText (text.dropWhile isWhitespace))
      | _ => none)

/-- What `parse_sed_script` takes for the command of a part. -/
def commandText (part : List Char) : List Char := trim (parseSedAddr (trim part)).2

/-- The instruction of a part, if it is not skipped. -/
def parseSedPart (part : List Char) : Option (Option SedInstruction) :=
  if trim part = [] then some none
  else (parseSedCommand (commandText part)).map (·.map fun cmd =>
    ⟨(parseSedAddr (trim part)).1, cmd⟩)

/-- The loop of `parse_sed_script`. -/
def parseSedParts : List (List Char) → Option (List SedInstruction)
  | [] => some []
  | part :: parts =>
    (parseSedPart part).bind fun instruction =>
      (parseSedParts parts).map (instruction.toList ++ ·)

/-- `parse_sed_script`. -/
def parseSedScript (script : List Char) : Option (List SedInstruction) :=
  parseSedParts (script.splitOn ';')

/-! ## 3. Scripts that are read -/

theorem parseOneAddr_shorter {s rest : List Char} {addr : SedAddr}
    (h : parseOneAddr s = some (addr, rest)) : rest.length < s.length := by
  unfold parseOneAddr at h
  split at h
  · next stripped =>
    split at h
    · cases h
      have hle := (List.dropWhile_suffix (· != '/') (l := stripped)).length_le
      rw [List.length_tail, List.length_cons]
      omega
    · cases h
  · cases h
    exact Nat.lt_succ_self _
  · rcases Option.map_eq_some_iff.mp h with ⟨n, hn, hpair⟩
    cases hpair
    have hdigits : s.takeWhile Char.isDigit ≠ [] := by
      intro hnil
      rw [hnil] at hn
      cases hn
    have hlength := congrArg List.length (List.takeWhile_append_dropWhile (p := Char.isDigit) (l := s))
    rw [List.length_append] at hlength
    have hpos := List.length_pos_of_ne_nil hdigits
    omega

/-- The bound on the number of addresses is never reached. -/
theorem parseSedAddrs_fuel (fuel : Nat) (s : List Char) (h : s.length < fuel) :
    parseSedAddrs (fuel + 1) s = parseSedAddrs fuel s := by
  induction fuel generalizing s with
  | zero => exact absurd h (Nat.not_lt_zero _)
  | succ fuel ih =>
    rw [parseSedAddrs]
    conv => rhs; rw [parseSedAddrs]
    cases hone : parseOneAddr s with
    | none => rfl
    | some found =>
      rcases found with ⟨addr, rest⟩
      have hshorter := parseOneAddr_shorter hone
      have htail : rest.tail.length ≤ rest.length := by
        rw [List.length_tail]
        exact Nat.sub_le _ _
      dsimp only
      rw [ih rest.tail (by omega)]

/-- A substitution whose delimiter is not one byte. -/
def WideDelimiter (expr : List Char) : Prop :=
  ∃ c rest, expr = 's' :: c :: rest ∧ 0x80 ≤ c.toNat ∧ 4 ≤ (Utf8.encode expr).length

theorem parseSedSubstitute_isSome_iff (expr : List Char) :
    (parseSedSubstitute expr).isSome = true ↔ ¬ WideDelimiter expr := by
  unfold parseSedSubstitute
  dsimp only
  split
  · next hshort =>
    refine iff_of_true rfl ?_
    rintro ⟨c, rest, rfl, -, hlen⟩
    rcases hshort with hs | hlt
    · exact hs rfl
    · omega
  · next hlong =>
    push Not at hlong
    rcases hlong with ⟨hs, hlen⟩
    rw [Option.isSome_map]
    cases expr with
    | nil => cases hs
    | cons d expr =>
      cases hs
      cases expr with
      | nil => exact absurd hlen (by decide)
      | cons c rest =>
        have hcut : Utf8.isCharBoundary ((Utf8.encode ('s' :: c :: rest)).drop 2) = true ↔
            c.toNat < 0x80 := by
          rw [Utf8.isCharBoundary_drop_iff (by omega)]
          constructor
          · rintro ⟨u, hu, hlength⟩
            cases u with
            | nil => cases hlength
            | cons a u =>
              rw [List.cons_prefix_cons] at hu
              rcases hu with ⟨rfl, hu⟩
              cases u with
              | nil => cases hlength
              | cons b u =>
                rw [List.cons_prefix_cons] at hu
                rcases hu with ⟨rfl, -⟩
                by_contra hwide
                have hb := Utf8.one_lt_length_encodeChar (Nat.le_of_not_lt hwide)
                rw [Utf8.encode_cons, Utf8.encode_cons, List.length_append, List.length_append] at hlength
                have ha : (Utf8.encodeChar 's').length = 1 := by decide
                omega
          · intro hc
            refine ⟨['s', c], ⟨rest, rfl⟩, ?_⟩
            rw [Utf8.encode_of_ascii]
            · rfl
            · simp [hc]
        have hslice : (sliceStr (Utf8.encode ('s' :: c :: rest)) 2
            (Utf8.encode ('s' :: c :: rest)).length).isSome = true ↔ c.toNat < 0x80 := by
          rw [← hcut]
          constructor
          · intro h
            rcases Option.isSome_iff_exists.mp h with ⟨text, htext⟩
            exact (sliceStr_eq_some htext).2.2.1
          · intro h
            rw [sliceStr_tail (by omega) h]
            rfl
        rw [hslice]
        constructor
        · rintro hc ⟨c', rest', heq, hwide, -⟩
          cases heq
          omega
        · intro hno
          by_contra hc
          exact hno ⟨c, rest, rfl, Nat.le_of_not_lt hc, hlen⟩

theorem parseSedCommand_isSome_iff (rest : List Char) :
    (parseSedCommand rest).isSome = true ↔ ¬ WideDelimiter rest := by
  unfold parseSedCommand
  split
  · rw [Option.isSome_map, parseSedSubstitute_isSome_iff]
  · next hs =>
    refine iff_of_true rfl ?_
    rintro ⟨c, rest', rfl, -, -⟩
    exact hs rfl

theorem parseSedPart_isSome_iff (part : List Char) :
    (parseSedPart part).isSome = true ↔ trim part ≠ [] → ¬ WideDelimiter (commandText part) := by
  unfold parseSedPart
  split
  · next hnil => exact iff_of_true rfl fun hne => absurd hnil hne
  · next hne =>
    rw [Option.isSome_map, parseSedCommand_isSome_iff]
    exact ⟨fun h _ => h, fun h => h hne⟩

theorem parseSedParts_isSome_iff (parts : List (List Char)) :
    (parseSedParts parts).isSome = true ↔ ∀ part ∈ parts, (parseSedPart part).isSome = true := by
  induction parts with
  | nil => exact iff_of_true rfl fun part h => absurd h List.not_mem_nil
  | cons part parts ih =>
    rw [parseSedParts, List.forall_mem_cons, ← ih]
    cases parseSedPart part with
    | none => simp
    | some instruction => simp

/-- A script is read exactly when no substitution in it has a delimiter of several bytes. -/
theorem parseSedScript_isSome_iff (script : List Char) :
    (parseSedScript script).isSome = true ↔
      ∀ part ∈ script.splitOn ';', trim part ≠ [] → ¬ WideDelimiter (commandText part) := by
  unfold parseSedScript
  rw [parseSedParts_isSome_iff]
  exact forall₂_congr fun part _ => parseSedPart_isSome_iff part

end Wasmsh.Sed

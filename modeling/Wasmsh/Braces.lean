import Wasmsh.State

/-!
# Brace expansion

`expand_braces` of `wasmsh-expand/src/lib.rs`: comma lists and integer ranges between the
first pair of braces of a word, each item put back between what stands around the pair and
expanded again.  The source slices at byte offsets; braces, commas and dots are ASCII, so
an offset into the characters gives the same pieces.
-/

namespace Wasmsh.Braces

/-- `MAX_BRACE_ITEMS`. -/
def maxBraceItems : Nat := 10000

/-! ## 1. The pair -/

/-- `find_brace_pair` from an offset on; `prev` is the character before it, `start` the
    offset of the last `{` that was met outside all others. -/
def findBracePairFrom (prev : Option Char) (start depth pos : Nat) :
    List Char → Option (Nat × Nat)
  | [] => none
  | c :: cs =>
    if prev = some '\\' then findBracePairFrom (some c) start depth (pos + 1) cs
    else if c = '{' then
      findBracePairFrom (some c) (if depth = 0 then pos else start) (depth + 1) (pos + 1) cs
    else if c = '}' ∧ 0 < depth then
      if depth = 1 then some (start, pos)
      else findBracePairFrom (some c) start (depth - 1) (pos + 1) cs
    else findBracePairFrom (some c) start depth (pos + 1) cs

/-- `find_brace_pair`: the offsets of the braces. -/
def findBracePair (word : List Char) : Option (Nat × Nat) := findBracePairFrom none 0 0 0 word

/-! ## 2. Ranges -/

/-- `parse` of a signed integer of `bits + 1` bits. -/
def parseSigned (bits : Nat) (cs : List Char) : Option Int :=
  match cs with
  | '-' :: cs => ((digitsValue cs).map (fun n => -(n : Int))).filter (-2 ^ bits ≤ ·)
  | '+' :: cs => ((digitsValue cs).map (fun n => (n : Int))).filter (· < 2 ^ bits)
  | cs => ((digitsValue cs).map (fun n => (n : Int))).filter (· < 2 ^ bits)

/-- `parse::<i64>()`. -/
def parseI64 (cs : List Char) : Option Int := parseSigned 63 cs

/-- The text before the first `..` and the text after it. -/
def splitDots : List Char → Option (List Char × List Char)
  | [] => none
  | '.' :: '.' :: r => some ([], r)
  | c :: cs => (splitDots cs).map fun e => (c :: e.1, e.2)

/-- `parse_brace_step`, `third` being the third part of the range. -/
def parseBraceStep (third : Option (List Char)) (start stop : Int) : Option Int :=
  match third with
  | some t => (parseI64 t).filter (· ≠ 0)
  | none => if start ≤ stop then some 1 else some (-1)

/-- One item of a range, filled with `0` from the left where it is padded. -/
def rangeItem (cur : Int) (width : Nat) (pad : Bool) : List Char :=
  let digits := (toString cur).toList
  if pad then List.replicate (width - digits.length) '0' ++ digits else digits

/-- `generate_range`; the first argument is the number of items that may follow. -/
def generateRange (stop step : Int) (width : Nat) (pad : Bool) : Nat → Int → List (List Char)
  | 0, _ => []
  | n + 1, cur =>
    if (if 0 < step then cur ≤ stop else stop ≤ cur) then
      rangeItem cur width pad ::
        -- `checked_add`
        if -2 ^ 63 ≤ cur + step ∧ cur + step < 2 ^ 63 then
          generateRange stop step width pad n (cur + step)
        else []
    else []

def startsWithZero (t : List Char) : Bool := t.head? = some '0' && 1 < t.length

/-- `try_brace_range`. -/
def tryBraceRange (inner : List Char) : Option (List (List Char)) := do
  let (first, rest) ← splitDots inner
  let (second, third) := match splitDots rest with
    | some (second, third) => (second, some third)
    | none => (rest, none)
  let start ← parseI64 first
  let stop ← parseI64 second
  let step ← parseBraceStep third start stop
  let pad := startsWithZero first || startsWithZero second
  let items := generateRange stop step (max first.length second.length) pad maxBraceItems start
  if items.isEmpty then none else some items

theorem digits_of_digitsValue {cs : List Char} {n : Nat} (h : digitsValue cs = some n) :
    cs ≠ [] ∧ ∀ b ∈ cs, b.isDigit = true := by
  unfold digitsValue at h
  split at h
  · cases h
  · next hne =>
    split at h
    · next hall => exact ⟨hne, List.all_eq_true.mp hall⟩
    · cases h

/-- What is parsed as a number is a sign and digits. -/
theorem chars_of_parseI64 {t : List Char} {n : Int} (h : parseI64 t = some n) :
    ∃ c cs, t = c :: cs ∧ (c = '-' ∨ c = '+' ∨ c.isDigit = true) ∧
      ∀ b ∈ cs, b.isDigit = true := by
  unfold parseI64 parseSigned at h
  split at h
  · next cs =>
    cases hm : digitsValue cs with
    | none => rw [hm] at h; cases h
    | some m => exact ⟨'-', cs, rfl, .inl rfl, (digits_of_digitsValue hm).2⟩
  · next cs =>
    cases hm : digitsValue cs with
    | none => rw [hm] at h; cases h
    | some m => exact ⟨'+', cs, rfl, .inr (.inl rfl), (digits_of_digitsValue hm).2⟩
  · cases hm : digitsValue t with
    | none => rw [hm] at h; cases h
    | some m =>
      obtain ⟨hne, hall⟩ := digits_of_digitsValue hm
      obtain ⟨c, cs, rfl⟩ := List.exists_cons_of_ne_nil hne
      exact ⟨c, cs, rfl, .inr (.inr (hall c List.mem_cons_self)),
        fun b hb => hall b (List.mem_cons_of_mem _ hb)⟩

/-! ## 3. Lists -/

/-- A character before the first item. -/
def consHead (c : Char) : List (List Char) → List (List Char)
  | [] => [[c]]
  | item :: items => (c :: item) :: items

/-- `split_brace_items` from a depth on; one item when there is no comma. -/
def splitBraceItems : Nat → List Char → List (List Char)
  | _, [] => [[]]
  | depth, c :: cs =>
    if c = ',' ∧ depth = 0 then [] :: splitBraceItems depth cs
    else if c = '{' then consHead c (splitBraceItems (depth + 1) cs)
    else if c = '}' then consHead c (splitBraceItems (depth - 1) cs)
    else consHead c (splitBraceItems depth cs)

/-- What a pair of braces around `inner` stands for, when it stands for anything. -/
def braceItems (inner : List Char) : Option (List (List Char)) :=
  match tryBraceRange inner with
  | some items => some items
  | none =>
    let items := splitBraceItems 0 inner
    if 1 < items.length then some items else none

/-! ## 4. Words -/

/-- `expand_braces`; the first argument bounds the number of pairs that are opened one
    after the other, each of which takes a `{` out of the word. -/
def expandBracesFrom : Nat → List Char → List (List Char)
  | 0, word => [word]
  | n + 1, word =>
    match findBracePair word with
    | none => [word]
    | some (start, stop) =>
      match braceItems ((word.drop (start + 1)).take (stop - start - 1)) with
      | none => [word]
      | some items =>
        -- the source stops early once it has as many as it keeps
        (items.flatMap fun item =>
          expandBracesFrom n (word.take start ++ item ++ word.drop (stop + 1))).take maxBraceItems

/-- `expand_braces`. -/
def expandBraces (word : List Char) : List (List Char) :=
  expandBracesFrom (word.count '{' + 1) word

theorem findBracePairFrom_eq_none {word : List Char} (h : '{' ∉ word) (prev : Option Char)
    (start pos : Nat) : findBracePairFrom prev start 0 pos word = none := by
  induction word generalizing prev pos with
  | nil => rfl
  | cons c cs ih =>
    simp only [List.mem_cons, not_or] at h
    have hc : c ≠ '{' := fun heq => h.1 heq.symm
    simp only [findBracePairFrom, hc, if_false, Nat.lt_irrefl, and_false]
    split <;> exact ih h.2 (some c) (pos + 1)

/-- A word in which no brace is opened is left alone. -/
theorem expandBraces_of_not_mem {word : List Char} (h : '{' ∉ word) :
    expandBraces word = [word] := by
  have hnone : findBracePair word = none := findBracePairFrom_eq_none h none 0 0
  simp only [expandBraces, expandBracesFrom, hnone]

example : expandBraces "f\x7b1..3\x7d-\x7ba,b\x7d".toList =
    ["f1-a", "f1-b", "f2-a", "f2-b", "f3-a", "f3-b"].map String.toList := by decide +kernel

end Wasmsh.Braces

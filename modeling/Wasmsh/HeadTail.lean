import Wasmsh.ArrayScanner
import Wasmsh.Library.Lines

/-!
# `head` and `tail`

The two utilities of `wasmsh-utils/src/text_ops.rs` that print one end of their input.  `head`
copies bytes until it has seen enough; `tail` collects lines without their newlines, or bytes,
in a ring whose capacity it reserves before it reads, and writes a newline behind every line.
-/

namespace Wasmsh.HeadTail

open Lines Rings

/-! ## 1. Input and output -/

/-- `isize::MAX`, the most bytes an allocation may have. -/
def maxBytes (bits : Nat) : Nat := 2 ^ (bits - 1) - 1

/-- The machine: `usize` has `bits` bits, a `Vec` takes `vecSize` bytes, and an allocation of so
    many bytes succeeds or not: never beyond `isize::MAX`, always for none. -/
structure Machine where
  bits : Nat
  bits_pos : 0 < bits
  vecSize : Nat
  vecSize_pos : 0 < vecSize
  allocates : Nat → Bool
  allocates_zero : allocates 0 = true
  allocates_le : ∀ {n}, allocates n = true → n ≤ maxBytes bits

namespace Machine

variable (m : Machine)

def parseUsize (s : String) : Option Nat := parseUnsigned m.bits s

/-- `VecDeque::with_capacity`: the items there is room for; no value is a panic (beyond
    `isize::MAX`), or the abort of an allocation that is refused. -/
def withCapacity (itemSize limit : Nat) : Option Nat :=
  if m.allocates (limit * itemSize) then some limit else none

end Machine

/-- What is left to read, and how many bytes the next reads give at most. -/
structure Reader where
  bytes : List UInt8
  sizes : List Nat

/-- `read` into a buffer of `n` bytes: some bytes, unless none are left. -/
def Reader.read (n : Nat) (r : Reader) : List UInt8 × Reader :=
  let k := match r.sizes with
    | [] => n
    | size :: _ => min n (size + 1)
  (r.bytes.take k, ⟨r.bytes.drop k, r.sizes.tail⟩)

/-- The bytes reserved before the first read, and what was printed; no value is a panic or an
    abort. -/
structure Outcome where
  reserved : Nat
  printed : Option (List UInt8)

/-- `buffer.len()`. -/
def bufferSize : Nat := 4096

def newline : UInt8 := 10

/-! ## 2. `head` -/

inductive HeadMode where
  | lines (limit : Nat)
  | bytes (limit : Nat)
  deriving DecidableEq, Repr

structure HeadArgs where
  mode : HeadMode
  quiet : Bool
  verbose : Bool
  files : List String

/-- The operands behind the options: those that do not look like one. -/
def operands (args : List String) : List String := args.filter fun a => a.toList.head? ≠ some '-'

section

variable (m : Machine)

/-- The loop of `parse_head_args`. -/
def parseHeadLoop : List String → HeadArgs → HeadArgs
  | [], a => a
  | arg :: rest, a =>
    match arg, rest with
    | "-c", value :: rest =>
      parseHeadLoop rest { a with mode := .bytes ((m.parseUsize value).getD 0) }
    | "-n", value :: rest =>
      parseHeadLoop rest { a with mode := .lines ((m.parseUsize value).getD 10) }
    | arg, rest =>
      if arg = "-q" then parseHeadLoop rest { a with quiet := true }
      else if arg = "-v" then parseHeadLoop rest { a with verbose := true }
      else if arg.toList.head? = some '-' ∧ 1 < arg.toList.length ∧ arg ≠ "--" then
        match m.parseUsize (String.ofList (arg.toList.drop 1)) with
        | some n => parseHeadLoop rest { a with mode := .lines n }
        | none => parseHeadLoop rest a
      else { a with files := operands (if arg = "--" then rest else arg :: rest) }

/-- `parse_head_args`. -/
def parseHeadArgs (argv : List String) : HeadArgs :=
  parseHeadLoop m (argv.drop 1) ⟨.lines 10, false, false, []⟩

end

/-- `head_emit_bytes`; the first argument bounds the reads. -/
def headEmitBytes : Nat → Nat → Reader → List UInt8
  | 0, _, _ => []
  | _, 0, _ => []
  | fuel + 1, remaining, r =>
    let (chunk, r) := r.read (min remaining bufferSize)
    if chunk = [] then [] else chunk ++ headEmitBytes fuel (remaining - chunk.length) r

/-- The bytes of a chunk that `head_emit_lines` copies, and the lines it has then seen. -/
def copyLines (limit : Nat) : Nat → List UInt8 → List UInt8 × Nat
  | seen, [] => ([], seen)
  | seen, b :: bs =>
    if seen < limit then
      let (copied, seen) := copyLines limit (if b = newline then seen + 1 else seen) bs
      (b :: copied, seen)
    else ([], seen)

/-- `head_emit_lines`. -/
def headEmitLines (limit : Nat) : Nat → Nat → Reader → List UInt8
  | 0, _, _ => []
  | fuel + 1, seen, r =>
    if seen < limit then
      let (chunk, r) := r.read bufferSize
      if chunk = [] then []
      else
        let (copied, seen) := copyLines limit seen chunk
        copied ++ headEmitLines limit fuel seen r
    else []

/-- `head_emit_reader`. -/
def headEmitReader (mode : HeadMode) (r : Reader) : List UInt8 :=
  match mode with
  | .bytes limit => headEmitBytes (r.bytes.length + 1) limit r
  | .lines limit => headEmitLines limit (r.bytes.length + 1) 0 r

/-- `util_head` on its standard input. -/
def utilHead (m : Machine) (argv : List String) (stdin : Reader) : Outcome :=
  ⟨0, some (headEmitReader (parseHeadArgs m argv).mode stdin)⟩

/-! ## 3. `tail` -/

inductive TailMode where
  | lines (limit : Nat) (fromStart : Bool)
  | bytes (limit : Nat)
  deriving DecidableEq, Repr

structure TailArgs where
  mode : Option TailMode
  quiet : Bool
  verbose : Bool
  files : List String

section

variable (m : Machine)

/-- The value of `-n`. -/
def tailLines (value : String) : TailMode :=
  match value.toList with
  | '+' :: rest => .lines ((m.parseUsize (String.ofList rest)).getD 1) true
  | _ => .lines ((m.parseUsize value).getD 10) false

/-- The loop of `parse_tail_args`; a word that starts with `-` never starts with `+`, so the
    branch of `+N` behind it is dead. -/
def parseTailLoop : List String → TailArgs → TailArgs
  | [], a => a
  | arg :: rest, a =>
    match arg, rest with
    | "-c", value :: rest =>
      parseTailLoop rest { a with mode := some (.bytes ((m.parseUsize value).getD 0)) }
    | "-n", value :: rest => parseTailLoop rest { a with mode := some (tailLines m value) }
    | arg, rest =>
      if arg = "-f" then parseTailLoop rest a
      else if arg = "-q" then parseTailLoop rest { a with quiet := true }
      else if arg = "-v" then parseTailLoop rest { a with verbose := true }
      else if arg.toList.head? = some '-' ∧ 1 < arg.toList.length ∧ arg ≠ "--" then
        match m.parseUsize (String.ofList (arg.toList.drop 1)) with
        | some n => parseTailLoop rest { a with mode := some (.lines n false) }
        | none => parseTailLoop rest a
      else { a with files := operands (if arg = "--" then rest else arg :: rest) }

/-- `parse_tail_args`, the mode it falls back to included. -/
def parseTailArgs (argv : List String) : TailMode :=
  (parseTailLoop m (argv.drop 1) ⟨none, false, false, []⟩).mode.getD (.lines 10 false)

end

/-- The loop that gives every byte to `f`; the first argument bounds the reads. -/
def forEachByte {σ : Type} (f : σ → UInt8 → σ) : Nat → σ → Reader → σ
  | 0, s, _ => s
  | fuel + 1, s, r =>
    let (chunk, r) := r.read bufferSize
    if chunk = [] then s else forEachByte f fuel (chunk.foldl f s) r

/-- `tail_emit_bytes` once the ring is there. -/
def tailEmitBytes (limit : Nat) (r : Reader) : List UInt8 :=
  forEachByte (pushBounded · · limit) (r.bytes.length + 1) [] r

/-- `consume_line_byte_from_start`: what is printed, the line so far and the lines seen. -/
def consumeLineByteFromStart (limit : Nat) (s : List UInt8 × List UInt8 × Nat) (b : UInt8) :
    List UInt8 × List UInt8 × Nat :=
  let (printed, current, seen) := s
  if b ≠ newline then (printed, current ++ [b], seen)
  else (if limit ≤ seen + 1 then printed ++ current ++ [newline] else printed, [], seen + 1)

/-- `tail_emit_lines_from_start`. -/
def tailEmitLinesFromStart (limit : Nat) (r : Reader) : List UInt8 :=
  let (printed, current, seen) :=
    forEachByte (consumeLineByteFromStart limit) (r.bytes.length + 1) ([], [], 0) r
  if current ≠ [] ∧ limit ≤ seen + 1 then printed ++ current ++ [newline] else printed

/-- `collect_trailing_line_byte`: the line so far and the ring. -/
def collectTrailingLineByte (limit : Nat) (s : List UInt8 × List (List UInt8)) (b : UInt8) :
    List UInt8 × List (List UInt8) :=
  let (current, ring) := s
  if b ≠ newline then (current ++ [b], ring)
  else if limit = 0 then ([], ring)
  else ([], pushBounded ring current limit)

/-- `tail_emit_lines_tail` once the ring is there. -/
def tailEmitLinesTail (limit : Nat) (r : Reader) : List UInt8 :=
  let (current, ring) :=
    forEachByte (collectTrailingLineByte limit) (r.bytes.length + 1) ([], []) r
  let ring := if current ≠ [] then pushBounded ring current limit else ring
  ring.flatMap (· ++ [newline])

/-- `tail_emit_reader`. -/
def tailEmitReader (m : Machine) (mode : TailMode) (r : Reader) : Outcome :=
  match mode with
  | .bytes limit =>
    match m.withCapacity 1 limit with
    | some n => ⟨n, some (tailEmitBytes limit r)⟩
    | none => ⟨0, none⟩
  | .lines limit true => ⟨0, some (tailEmitLinesFromStart limit r)⟩
  | .lines limit false =>
    match m.withCapacity m.vecSize limit with
    | some n => ⟨n * m.vecSize, some (tailEmitLinesTail limit r)⟩
    | none => ⟨0, none⟩

/-- `util_tail` on its standard input. -/
def utilTail (m : Machine) (argv : List String) (stdin : Reader) : Outcome :=
  tailEmitReader m (parseTailArgs m argv) stdin

/-! ## 4. Reads -/

/-- A read gives some of the bytes, and none only at the end. -/
theorem Reader.read_spec {n : Nat} (hn : 0 < n) (r : Reader) :
    (r.read n).1 ++ (r.read n).2.bytes = r.bytes ∧ (r.read n).1.length ≤ n ∧
      ((r.read n).1 = [] → r.bytes = []) := by
  have hsplit : ∀ k, 0 < k → k ≤ n → r.bytes.take k ++ r.bytes.drop k = r.bytes ∧
      (r.bytes.take k).length ≤ n ∧ (r.bytes.take k = [] → r.bytes = []) := by
    intro k hk hle
    refine ⟨List.take_append_drop k r.bytes, ?_, ?_⟩
    · exact Nat.le_trans (List.length_take_le k r.bytes) hle
    · intro hnil
      rcases List.take_eq_nil_iff.mp hnil with hzero | hbytes
      · omega
      · exact hbytes
  unfold Reader.read
  cases r.sizes with
  | nil => exact hsplit n hn (Nat.le_refl n)
  | cons size sizes => exact hsplit (min n (size + 1)) (by omega) (Nat.min_le_left _ _)

/-- **A loop over all bytes**, in whatever chunks they come. -/
theorem forEachByte_eq {σ : Type} (f : σ → UInt8 → σ) {fuel : Nat} {r : Reader}
    (h : r.bytes.length < fuel) (s : σ) : forEachByte f fuel s r = r.bytes.foldl f s := by
  induction fuel generalizing r s with
  | zero => exact absurd h (Nat.not_lt_zero _)
  | succ fuel ih =>
    have hspec := Reader.read_spec (n := bufferSize) (by decide) r
    cases hread : r.read bufferSize with
    | mk chunk rest =>
      rw [hread] at hspec
      rcases hspec with ⟨hsplit, -, hend⟩
      rw [forEachByte, hread]
      dsimp only at hsplit hend ⊢
      by_cases hchunk : chunk = []
      · rw [if_pos hchunk, hend hchunk]
        rfl
      · have hlen := congrArg List.length hsplit
        have hpos := List.length_pos_iff.mpr hchunk
        rw [List.length_append] at hlen
        rw [if_neg hchunk, ih (by omega), ← List.foldl_append, hsplit]

theorem headEmitBytes_eq {fuel : Nat} {r : Reader} (h : r.bytes.length < fuel) (limit : Nat) :
    headEmitBytes fuel limit r = r.bytes.take limit := by
  induction fuel generalizing r limit with
  | zero => exact absurd h (Nat.not_lt_zero _)
  | succ fuel ih =>
    cases limit with
    | zero => simp [headEmitBytes]
    | succ limit =>
      have hpos : 0 < min (limit + 1) bufferSize := Nat.lt_min.mpr ⟨Nat.succ_pos _, by decide⟩
      have hspec := Reader.read_spec hpos r
      cases hread : r.read (min (limit + 1) bufferSize) with
      | mk chunk rest =>
        rw [hread] at hspec
        rcases hspec with ⟨hsplit, hle, hend⟩
        rw [headEmitBytes.eq_3 _ _ _ (Nat.succ_ne_zero limit), hread]
        dsimp only at hsplit hle hend ⊢
        by_cases hchunk : chunk = []
        · rw [if_pos hchunk, hend hchunk, List.take_nil]
        · have hlen := congrArg List.length hsplit
          have hchunkpos := List.length_pos_iff.mpr hchunk
          rw [List.length_append] at hlen
          rw [if_neg hchunk, ih (by omega), ← hsplit, List.take_append, List.take_of_length_le
            (Nat.le_trans hle (Nat.min_le_left (limit + 1) bufferSize))]

/-- What is copied of a chunk, whatever follows it. -/
theorem copyLines_spec (limit seen : Nat) (bs more : List UInt8) :
    takeLines newline (limit - seen) (bs ++ more) =
      (copyLines limit seen bs).1 ++ takeLines newline (limit - (copyLines limit seen bs).2) more := by
  induction bs generalizing seen with
  | nil => rfl
  | cons b bs ih =>
    rw [copyLines]
    by_cases hseen : seen < limit
    · rw [if_pos hseen]
      have hsucc : limit - seen = (limit - (seen + 1)) + 1 := by omega
      rw [List.cons_append, hsucc, takeLines]
      by_cases hb : b = newline
      · rw [if_pos hb, if_pos hb, ih]
        rfl
      · rw [if_neg hb, if_neg hb, ← hsucc, ih]
        rfl
    · rw [if_neg hseen, Nat.sub_eq_zero_of_le (Nat.le_of_not_lt hseen)]
      simp

theorem headEmitLines_eq (limit : Nat) {fuel : Nat} {r : Reader} (h : r.bytes.length < fuel)
    (seen : Nat) : headEmitLines limit fuel seen r = takeLines newline (limit - seen) r.bytes := by
  induction fuel generalizing r seen with
  | zero => exact absurd h (Nat.not_lt_zero _)
  | succ fuel ih =>
    have hspec := Reader.read_spec (n := bufferSize) (by decide) r
    by_cases hseen : seen < limit
    · cases hread : r.read bufferSize with
      | mk chunk rest =>
        rw [hread] at hspec
        rcases hspec with ⟨hsplit, -, hend⟩
        rw [headEmitLines, if_pos hseen, hread]
        dsimp only at hsplit hend ⊢
        by_cases hchunk : chunk = []
        · rw [if_pos hchunk, hend hchunk]
          cases limit - seen <;> rfl
        · have hlen := congrArg List.length hsplit
          have hpos := List.length_pos_iff.mpr hchunk
          rw [List.length_append] at hlen
          rw [if_neg hchunk, ih (by omega), ← hsplit, copyLines_spec]
    · rw [headEmitLines, if_neg hseen, Nat.sub_eq_zero_of_le (Nat.le_of_not_lt hseen),
        takeLines_zero]

/-! ## 5. What the loops print -/

theorem tailEmitBytes_eq (limit : Nat) (r : Reader) :
    tailEmitBytes limit r = r.bytes.rtake limit := by
  rw [tailEmitBytes, forEachByte_eq _ (Nat.lt_succ_self _)]
  have h := foldl_pushBounded limit [] r.bytes
  rwa [List.rtake_nil, List.nil_append] at h

/-- From the line `limit` on every line is printed. -/
theorem foldl_fromStart (limit : Nat) (bs : List UInt8) (printed current : List UInt8)
    (seen : Nat) :
    (let s := bs.foldl (consumeLineByteFromStart limit) (printed, current, seen)
     if s.2.1 ≠ [] ∧ limit ≤ s.2.2 + 1 then s.1 ++ s.2.1 ++ [newline] else s.1) =
      printed ++ unlines newline ((linesFrom newline current bs).drop (limit - (seen + 1))) := by
  induction bs generalizing printed current seen with
  | nil =>
    rw [List.foldl_nil, linesFrom]
    by_cases hcurrent : current = []
    · simp [hcurrent, unlines]
    · by_cases hlimit : limit ≤ seen + 1
      · simp [hcurrent, hlimit, unlines, Nat.sub_eq_zero_of_le hlimit]
      · have hdrop : [current].drop (limit - (seen + 1)) = [] := by
          rw [List.drop_eq_nil_iff, List.length_singleton]
          omega
        simp [hcurrent, hlimit, unlines, hdrop]
  | cons b bs ih =>
    rw [List.foldl_cons, linesFrom]
    by_cases hb : b = newline
    · subst hb
      have hstep : consumeLineByteFromStart limit (printed, current, seen) newline =
          (if limit ≤ seen + 1 then printed ++ current ++ [newline] else printed, [], seen + 1) := by
        simp [consumeLineByteFromStart]
      rw [hstep, ih, if_pos rfl]
      by_cases hlimit : limit ≤ seen + 1
      · rw [if_pos hlimit, Nat.sub_eq_zero_of_le hlimit, Nat.sub_eq_zero_of_le (by omega),
          List.drop_zero, List.drop_zero, unlines_cons]
        simp
      · have hsucc : limit - (seen + 1) = (limit - (seen + 1 + 1)) + 1 := by omega
        rw [if_neg hlimit, hsucc, List.drop_succ_cons]
    · have hstep : consumeLineByteFromStart limit (printed, current, seen) b =
          (printed, current ++ [b], seen) := by
        simp [consumeLineByteFromStart, hb]
      rw [hstep, ih, if_neg hb]

theorem tailEmitLinesFromStart_eq (limit : Nat) (r : Reader) : tailEmitLinesFromStart limit r =
    close newline (dropLines newline (limit - 1) r.bytes) := by
  have h := foldl_fromStart limit r.bytes [] [] 0
  rw [tailEmitLinesFromStart, forEachByte_eq _ (Nat.lt_succ_self _)]
  rw [List.nil_append] at h
  exact h.trans (unlines_drop_lines newline (limit - 1) r.bytes)

/-- The ring holds the last lines. -/
theorem foldl_trailing (limit : Nat) (bs current : List UInt8) (ls : List (List UInt8)) :
    (let s := bs.foldl (collectTrailingLineByte limit) (current, ls.rtake limit)
     if s.1 ≠ [] then pushBounded s.2 s.1 limit else s.2) =
      (ls ++ linesFrom newline current bs).rtake limit := by
  induction bs generalizing current ls with
  | nil =>
    rw [List.foldl_nil, linesFrom]
    by_cases hcurrent : current = []
    · simp [hcurrent]
    · simp [hcurrent, pushBounded_rtake]
  | cons b bs ih =>
    rw [List.foldl_cons, linesFrom]
    by_cases hb : b = newline
    · subst hb
      have hstep : collectTrailingLineByte limit (current, ls.rtake limit) newline =
          ([], (ls ++ [current]).rtake limit) := by
        rw [← pushBounded_rtake]
        by_cases hlimit : limit = 0 <;> simp [collectTrailingLineByte, hlimit, pushBounded]
      rw [hstep, ih, if_pos rfl, List.append_assoc, List.singleton_append]
    · have hstep : collectTrailingLineByte limit (current, ls.rtake limit) b =
          (current ++ [b], ls.rtake limit) := by
        simp [collectTrailingLineByte, hb]
      rw [hstep, ih, if_neg hb]

theorem tailEmitLinesTail_eq (limit : Nat) (r : Reader) : tailEmitLinesTail limit r =
    close newline (dropLines newline ((lines newline r.bytes).length - limit) r.bytes) := by
  have h := foldl_trailing limit r.bytes [] []
  rw [List.rtake_nil, List.nil_append] at h
  rw [tailEmitLinesTail, forEachByte_eq _ (Nat.lt_succ_self _), ← unlines_drop_lines]
  exact congrArg (unlines newline) h

/-! ## 6. The two ends -/

variable (m : Machine) (k : Nat) (r r' : Reader)

/-- What the first lines leave out is what `tail` prints from the next line on. -/
def PartitionsLines : Prop := ∃ front back,
  (utilHead m ["head", "-n", toString k] r).printed = some front ∧
    (utilTail m ["tail", "-n", "+" ++ toString (k + 1)] r').printed = some back ∧
    front ++ back = r.bytes

def PartitionsBytes : Prop := ∃ front back,
  (utilHead m ["head", "-c", toString k] r).printed = some front ∧
    (utilTail m ["tail", "-c", "+" ++ toString (k + 1)] r').printed = some back ∧
    front ++ back = r.bytes

/-- The last lines, byte for byte: what is left without the lines before them. -/
def PrintsLastLines : Prop := (utilTail m ["tail", "-n", toString k] r).printed =
  some (dropLines newline ((lines newline r.bytes).length - k) r.bytes)

def PrintsLastBytes : Prop :=
  (utilTail m ["tail", "-c", toString k] r).printed = some (r.bytes.rtake k)

/-- No utility panics on the count, and none reserves memory before it reads. -/
def ReservesNothing : Prop := ∀ option ∈ ["-n", "-c"],
  (∃ printed, utilHead m ["head", option, toString k] r = ⟨0, some printed⟩) ∧
    ∃ printed, utilTail m ["tail", option, toString k] r = ⟨0, some printed⟩

variable {m k r r'}

theorem parseUsize_number (n : Nat) :
    m.parseUsize (toString n) = if n < 2 ^ m.bits then some n else none :=
  parseUnsigned_number m.bits n

theorem parseUsize_plus (n : Nat) :
    m.parseUsize ("+" ++ toString n) = if n < 2 ^ m.bits then some n else none :=
  parseUnsigned_plus m.bits n

theorem printed_head_lines (hk : k < 2 ^ m.bits) :
    utilHead m ["head", "-n", toString k] r = ⟨0, some (takeLines newline k r.bytes)⟩ := by
  have hmode : (parseHeadArgs m ["head", "-n", toString k]).mode = .lines k := by
    rw [parseHeadArgs, List.drop_one, List.tail_cons, parseHeadLoop, parseUsize_number, if_pos hk]
    rfl
  rw [utilHead, hmode, headEmitReader, headEmitLines_eq k (Nat.lt_succ_self _), Nat.sub_zero]

theorem printed_head_bytes (hk : k < 2 ^ m.bits) :
    utilHead m ["head", "-c", toString k] r = ⟨0, some (r.bytes.take k)⟩ := by
  have hmode : (parseHeadArgs m ["head", "-c", toString k]).mode = .bytes k := by
    rw [parseHeadArgs, List.drop_one, List.tail_cons, parseHeadLoop, parseUsize_number, if_pos hk]
    rfl
  rw [utilHead, hmode, headEmitReader, headEmitBytes_eq (Nat.lt_succ_self _)]

theorem tailLines_number (hk : k < 2 ^ m.bits) : tailLines m (toString k) = .lines k false := by
  unfold tailLines
  split
  · next rest heq =>
    have hmem : '+' ∈ (toString k).toList := heq ▸ List.mem_cons_self
    exact absurd (isDigit_of_mem_toString hmem) (by decide)
  · rw [parseUsize_number, if_pos hk, Option.getD_some]

theorem tailLines_plus (n : Nat) :
    tailLines m ("+" ++ toString n) = .lines (if n < 2 ^ m.bits then n else 1) true := by
  have hplus : ("+" ++ toString n).toList = '+' :: (toString n).toList := by
    rw [String.toList_append]
    rfl
  unfold tailLines
  split
  · next rest heq =>
    rw [hplus, List.cons.injEq] at heq
    rw [← heq.2, String.ofList_toList, parseUsize_number]
    split <;> rfl
  · next hne => exact absurd hplus (hne _)

theorem printed_tail_from (n : Nat) : (utilTail m ["tail", "-n", "+" ++ toString n] r).printed =
    some (close newline (dropLines newline ((if n < 2 ^ m.bits then n else 1) - 1) r.bytes)) := by
  have hmode : parseTailArgs m ["tail", "-n", "+" ++ toString n] =
      .lines (if n < 2 ^ m.bits then n else 1) true := by
    rw [parseTailArgs, List.drop_one, List.tail_cons, parseTailLoop, tailLines_plus]
    rfl
  rw [utilTail, hmode, tailEmitReader, tailEmitLinesFromStart_eq]

theorem printed_tail_lines (hk : k < 2 ^ m.bits) : utilTail m ["tail", "-n", toString k] r =
    if m.allocates (k * m.vecSize) then ⟨k * m.vecSize, some (close newline
      (dropLines newline ((lines newline r.bytes).length - k) r.bytes))⟩ else ⟨0, none⟩ := by
  have hmode : parseTailArgs m ["tail", "-n", toString k] = .lines k false := by
    rw [parseTailArgs, List.drop_one, List.tail_cons, parseTailLoop, tailLines_number hk]
    rfl
  rw [utilTail, hmode, tailEmitReader, tailEmitLinesTail_eq, Machine.withCapacity]
  by_cases hroom : m.allocates (k * m.vecSize) = true
  · rw [if_pos hroom, if_pos hroom]
  · rw [if_neg hroom, if_neg hroom]

theorem printed_tail_bytes {value : String} {n : Nat} (h : (m.parseUsize value).getD 0 = n) :
    utilTail m ["tail", "-c", value] r =
      if m.allocates n then ⟨n, some (r.bytes.rtake n)⟩ else ⟨0, none⟩ := by
  have hmode : parseTailArgs m ["tail", "-c", value] = .bytes n := by
    rw [parseTailArgs, List.drop_one, List.tail_cons, parseTailLoop, h]
    rfl
  rw [utilTail, hmode, tailEmitReader, tailEmitBytes_eq, Machine.withCapacity, Nat.mul_one]
  by_cases hroom : m.allocates n = true
  · rw [if_pos hroom, if_pos hroom]
  · rw [if_neg hroom, if_neg hroom]

theorem printed_iff {front back bytes : List UInt8} :
    (∃ f b, some front = some f ∧ some back = some b ∧ f ++ b = bytes) ↔ front ++ back = bytes := by
  constructor
  · rintro ⟨f, b, hf, hb, h⟩
    rwa [Option.some.inj hf, Option.some.inj hb]
  · intro h
    exact ⟨front, back, rfl, rfl, h⟩

theorem partitionsLines_iff (hk : k < 2 ^ m.bits) (hr : r'.bytes = r.bytes) :
    PartitionsLines m k r r' ↔ r.bytes = [] ∨ (k + 1 < 2 ^ m.bits ∧
      ((lines newline r.bytes).length ≤ k ∨ r.bytes.getLast? = some newline)) := by
  unfold PartitionsLines
  rw [printed_head_lines hk, printed_tail_from, hr, printed_iff]
  by_cases hnext : k + 1 < 2 ^ m.bits
  · rw [if_pos hnext, Nat.add_sub_cancel]
    have hcancel : takeLines newline k r.bytes ++ close newline (dropLines newline k r.bytes) =
        r.bytes ↔ close newline (dropLines newline k r.bytes) = dropLines newline k r.bytes := by
      conv_lhs => rhs; rw [← takeLines_append_dropLines newline k r.bytes]
      exact List.append_right_inj _
    rw [hcancel, close_dropLines_eq_self_iff]
    constructor
    · exact fun h => .inr ⟨hnext, h⟩
    · rintro (hnil | h)
      · exact .inl (by simp [hnil, lines_nil])
      · exact h.2
  · -- the count behind the `+` is not representable, so every line is printed again
    rw [if_neg hnext, Nat.sub_self, dropLines_zero]
    have hpos : k ≠ 0 := by
      have := Nat.one_lt_two_pow (Nat.ne_of_gt m.bits_pos)
      omega
    constructor
    · intro h
      left
      have hlen := congrArg List.length h
      have hclose : r.bytes.length ≤ (close newline r.bytes).length := by
        unfold close
        split <;> simp
      rw [List.length_append] at hlen
      have hfront : takeLines newline k r.bytes = [] := List.eq_nil_of_length_eq_zero (by omega)
      cases hbytes : r.bytes with
      | nil => rfl
      | cons b bs =>
        obtain ⟨n, rfl⟩ := Nat.exists_eq_succ_of_ne_zero hpos
        rw [hbytes, takeLines] at hfront
        cases hfront
    · rintro (hnil | h)
      · cases k <;> simp [hnil, takeLines, close_nil]
      · exact absurd h.1 hnext

theorem printsLastLines_iff (hk : k < 2 ^ m.bits) : PrintsLastLines m k r ↔
    m.allocates (k * m.vecSize) = true ∧ (k = 0 ∨ r.bytes = [] ∨ r.bytes.getLast? = some newline) := by
  unfold PrintsLastLines
  rw [printed_tail_lines hk]
  by_cases hroom : m.allocates (k * m.vecSize) = true
  · rw [if_pos hroom, Option.some.injEq, close_dropLines_eq_self_iff]
    have hcount : (lines newline r.bytes).length ≤ (lines newline r.bytes).length - k ↔
        k = 0 ∨ r.bytes = [] := by
      rw [← @lines_eq_nil_iff _ _ newline, ← List.length_eq_zero_iff]
      omega
    rw [hcount, or_assoc]
    simp [hroom]
  · simp [hroom]

theorem take_append_rtake_iff (k : Nat) (bs : List UInt8) :
    bs.take k ++ bs.rtake (k + 1) = bs ↔ bs = [] ∨ bs.length = 2 * k + 1 := by
  rw [List.rtake]
  constructor
  · intro h
    have hlen := congrArg List.length h
    rw [List.length_append, List.length_take, List.length_drop] at hlen
    rw [← List.length_eq_zero_iff]
    omega
  · rintro (rfl | hlen)
    · simp
    · rw [hlen, show 2 * k + 1 - (k + 1) = k by omega, List.take_append_drop]

theorem partitionsBytes_iff (hk : k < 2 ^ m.bits) (hr : r'.bytes = r.bytes) :
    PartitionsBytes m k r r' ↔ (k + 1 = 2 ^ m.bits ∧ r.bytes.length ≤ k) ∨
      (m.allocates (k + 1) = true ∧ (r.bytes = [] ∨ r.bytes.length = 2 * k + 1)) := by
  have hmax : maxBytes m.bits < 2 ^ m.bits := by
    have := Nat.pow_le_pow_right (n := 2) (by decide) (Nat.sub_le m.bits 1)
    have := Nat.two_pow_pos (m.bits - 1)
    unfold maxBytes
    omega
  unfold PartitionsBytes
  rw [printed_head_bytes hk]
  by_cases hnext : k + 1 < 2 ^ m.bits
  · have hvalue : (m.parseUsize ("+" ++ toString (k + 1))).getD 0 = k + 1 := by
      rw [parseUsize_plus, if_pos hnext, Option.getD_some]
    have hne : k + 1 ≠ 2 ^ m.bits := Nat.ne_of_lt hnext
    rw [printed_tail_bytes hvalue, hr]
    by_cases hroom : m.allocates (k + 1) = true
    · rw [if_pos hroom, printed_iff, take_append_rtake_iff]
      simp [hroom, hne]
    · rw [if_neg hroom]
      simp [hroom, hne]
  · have hvalue : (m.parseUsize ("+" ++ toString (k + 1))).getD 0 = 0 := by
      rw [parseUsize_plus, if_neg hnext, Option.getD_none]
    have heq : k + 1 = 2 ^ m.bits := by omega
    have hroom : m.allocates (2 ^ m.bits) = false := by
      cases hrefused : m.allocates (2 ^ m.bits) with
      | false => rfl
      | true => exact absurd (m.allocates_le hrefused) (Nat.not_le.mpr hmax)
    rw [printed_tail_bytes hvalue, hr, if_pos m.allocates_zero, printed_iff]
    simp [heq, hroom]

theorem printsLastBytes_iff (hk : k < 2 ^ m.bits) :
    PrintsLastBytes m k r ↔ m.allocates k = true := by
  have hvalue : (m.parseUsize (toString k)).getD 0 = k := by
    rw [parseUsize_number, if_pos hk, Option.getD_some]
  unfold PrintsLastBytes
  rw [printed_tail_bytes hvalue]
  by_cases hroom : m.allocates k = true
  · simp [hroom]
  · simp [hroom]

theorem reservesNothing_iff (hk : k < 2 ^ m.bits) : ReservesNothing m k r ↔ k = 0 := by
  have hvalue : (m.parseUsize (toString k)).getD 0 = k := by
    rw [parseUsize_number, if_pos hk, Option.getD_some]
  constructor
  · intro h
    rcases (h "-c" (by decide)).2 with ⟨printed, hprinted⟩
    rw [printed_tail_bytes hvalue] at hprinted
    split at hprinted
    · exact (Outcome.mk.inj hprinted).1
    · cases hprinted
  · intro h option hoption
    subst h
    simp only [List.mem_cons, List.not_mem_nil, or_false] at hoption
    rcases hoption with rfl | rfl
    · rw [printed_head_lines hk, printed_tail_lines hk, if_pos (by rw [Nat.zero_mul]; exact m.allocates_zero),
        Nat.zero_mul]
      exact ⟨⟨_, rfl⟩, ⟨_, rfl⟩⟩
    · rw [printed_head_bytes hk, printed_tail_bytes hvalue, if_pos m.allocates_zero]
      exact ⟨⟨_, rfl⟩, ⟨_, rfl⟩⟩

/-- **When the two utilities print the two ends of their input.** -/
theorem both_ends_iff (m : Machine) (k : Nat) (hk : k < 2 ^ m.bits) (bytes : List UInt8)
    (sizes sizes' : List Nat) :
    (PartitionsLines m k ⟨bytes, sizes⟩ ⟨bytes, sizes'⟩ ↔ bytes = [] ∨ (k + 1 < 2 ^ m.bits ∧
      ((lines newline bytes).length ≤ k ∨ bytes.getLast? = some newline))) ∧
    (PrintsLastLines m k ⟨bytes, sizes⟩ ↔ m.allocates (k * m.vecSize) = true ∧
      (k = 0 ∨ bytes = [] ∨ bytes.getLast? = some newline)) ∧
    (PartitionsBytes m k ⟨bytes, sizes⟩ ⟨bytes, sizes'⟩ ↔
      (k + 1 = 2 ^ m.bits ∧ bytes.length ≤ k) ∨
        (m.allocates (k + 1) = true ∧ (bytes = [] ∨ bytes.length = 2 * k + 1))) ∧
    (PrintsLastBytes m k ⟨bytes, sizes⟩ ↔ m.allocates k = true) ∧
    (ReservesNothing m k ⟨bytes, sizes⟩ ↔ k = 0) :=
  ⟨partitionsLines_iff hk rfl, printsLastLines_iff hk, partitionsBytes_iff hk rfl,
    printsLastBytes_iff hk, reservesNothing_iff hk⟩

/-- A 64-bit machine with a gigabyte to give. -/
def wide : Machine where
  bits := 64
  bits_pos := by decide
  vecSize := 24
  vecSize_pos := by decide
  allocates n := decide (n ≤ 2 ^ 30)
  allocates_zero := by decide
  allocates_le h := (of_decide_eq_true h).trans (by decide)

/-- One line with its newline is parted between `head -n 0` and `tail -n +1`. -/
theorem one_line_parted : PartitionsLines wide 0 ⟨[97, 10], []⟩ ⟨[97, 10], [0]⟩ :=
  (both_ends_iff wide 0 (by decide) [97, 10] [] [0]).1.mpr (.inr ⟨by decide, .inr rfl⟩)

/-- `tail` ends a line that has no newline. -/
theorem newline_added : ¬ ∀ (m : Machine) (k : Nat) (r : Reader), k < 2 ^ m.bits →
    PrintsLastLines m k r := by
  intro h
  have hlast := h wide 1 ⟨[97], []⟩ (by decide)
  rw [printsLastLines_iff (by decide)] at hlast
  exact absurd hlast (by decide)

end Wasmsh.HeadTail

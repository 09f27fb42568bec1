import Wasmsh.Runtime

/-!
# Reading assignments

The text-level half of `execute_assignment` and of `RuntimeVmExecutor::assign`: the name
of an assignment, and the values that are written as an array.  Both evaluators tell an
array by the shape of the expanded value, `( ... )` up to blanks around it, and split it
again with scanners of their own.

The scanners for `[key]=value` pairs read bytes and push each byte as a character, so a
value outside ASCII comes out as the Latin-1 reading of its UTF-8 bytes.
-/

namespace Wasmsh

/-! ## 1. Blanks -/

/-- `char::is_whitespace`. -/
def isWhitespace (c : Char) : Bool :=
  let n := c.toNat
  (9 ≤ n && n ≤ 13) || n == 0x20 || n == 0x85 || n == 0xA0 || n == 0x1680 ||
    (0x2000 ≤ n && n ≤ 0x200A) || n == 0x2028 || n == 0x2029 || n == 0x202F || n == 0x205F ||
    n == 0x3000

/-- `is_ascii_whitespace`. -/
def isAsciiWhitespace (c : Char) : Bool :=
  c == ' ' || c == '\t' || c == '\n' || c == '\x0c' || c == '\r'

/-- `char::is_control`. -/
def isControl (c : Char) : Bool := c.toNat < 0x20 || (0x7f ≤ c.toNat && c.toNat ≤ 0x9f)

/-- `str::trim`. -/
def trim (t : List Char) : List Char :=
  ((t.dropWhile isWhitespace).reverse.dropWhile isWhitespace).reverse

/-! ## 2. Names -/

/-- `split_assignment_name`: the name without a final `+`, and whether it had one. -/
def splitAssignmentName (name : String) : String × Bool :=
  if name.toList.getLast? = some '+' then (String.ofList name.toList.dropLast, true)
  else (name, false)

/-- `parse_array_element_assignment`: base name and index of `base[index]`. -/
def parseArrayElementAssignment (name : String) : Option (String × String) :=
  let cs := name.toList
  if cs.contains '[' ∧ cs.getLast? = some ']' then
    some (String.ofList (cs.takeWhile (· != '[')),
      String.ofList ((cs.dropWhile (· != '[')).drop 1).dropLast)
  else none

/-! ## 3. Array values -/

/-- `ArrayParseState`. -/
structure ArrayParseState where
  inSingleQuote : Bool
  inDoubleQuote : Bool
  escapeNext : Bool
  deriving DecidableEq, Repr

/-- `ArrayCharAction`. -/
inductive ArrayCharAction where
  | append (c : Char)
  | skip
  | splitField
  deriving DecidableEq, Repr

/-- `ArrayParseState::process_char`. -/
def ArrayParseState.processChar (q : ArrayParseState) (c : Char) :
    ArrayCharAction × ArrayParseState :=
  if q.escapeNext then (.append c, { q with escapeNext := false })
  else if c == '\\' && !q.inSingleQuote then (.skip, { q with escapeNext := true })
  else if c == '\'' && !q.inDoubleQuote then
    (.skip, { q with inSingleQuote := !q.inSingleQuote })
  else if c == '"' && !q.inSingleQuote then
    (.skip, { q with inDoubleQuote := !q.inDoubleQuote })
  else if isAsciiWhitespace c && !q.inSingleQuote && !q.inDoubleQuote then (.splitField, q)
  else (.append c, q)

/-- `push_array_element`: an empty element is dropped. -/
def pushArrayElement (elements : List String) (current : List Char) : List String :=
  if current.isEmpty then elements else elements ++ [String.ofList current]

/-- The loop of `parse_array_elements`. -/
def arrayElementsFrom : List Char → ArrayParseState → List Char → List String → List String
  | [], _, current, elements => pushArrayElement elements current
  | c :: cs, q, current, elements =>
    match q.processChar c with
    | (.append c, q) => arrayElementsFrom cs q (current ++ [c]) elements
    | (.skip, q) => arrayElementsFrom cs q current elements
    | (.splitField, q) => arrayElementsFrom cs q [] (pushArrayElement elements current)

/-- `parse_array_elements`. -/
def parseArrayElements (inner : List Char) : List String :=
  arrayElementsFrom inner ⟨false, false, false⟩ [] []

/-- The UTF-8 bytes of the characters, each read as a character. -/
def bytesAsChars (cs : List Char) : List Char :=
  cs.flatMap fun c => (String.utf8EncodeChar c).map fun b => Char.ofNat b.toNat

/-- `parse_double_quoted_assoc_value` after its opening quote: the value and the rest. -/
def parseDoubleQuotedAssocValue : List Char → List Char × List Char
  | [] => ([], [])
  | ['\\'] => (['\\'], [])
  | '\\' :: c :: cs =>
    let (v, rest) := parseDoubleQuotedAssocValue cs
    (bytesAsChars [c] ++ v, rest)
  | c :: cs =>
    if c = '"' then ([], cs)
    else
      let (v, rest) := parseDoubleQuotedAssocValue cs
      (bytesAsChars [c] ++ v, rest)

/-- `parse_assoc_value`. -/
def parseAssocValue : List Char → List Char × List Char
  | '"' :: cs => parseDoubleQuotedAssocValue cs
  | '\'' :: cs => (bytesAsChars (cs.takeWhile (· != '\'')), (cs.dropWhile (· != '\'')).drop 1)
  | cs => (bytesAsChars (cs.takeWhile (!isAsciiWhitespace ·)), cs.dropWhile (!isAsciiWhitespace ·))

/-- The rest of `parse_assoc_key` after the key: its `]` and a `=`. -/
def afterAssocKey (cs : List Char) : List Char :=
  match cs.drop 1 with
  | '=' :: cs => cs
  | cs => cs

/-- The loop of `parse_assoc_pairs`: text that is no pair is passed over up to the next
    blank.  Every turn passes at least one character, so the length of the text is enough
    turns. -/
def assocPairsFrom : Nat → List Char → List (String × String)
  | 0, _ => []
  | turns + 1, inner =>
    match inner.dropWhile isAsciiWhitespace with
    | [] => []
    | '[' :: cs =>
      let value := parseAssocValue (afterAssocKey (cs.dropWhile (· != ']')))
      (String.ofList (cs.takeWhile (· != ']')), String.ofList value.1) ::
        assocPairsFrom turns value.2
    | c :: cs => assocPairsFrom turns ((c :: cs).dropWhile (!isAsciiWhitespace ·))

/-- `parse_assoc_pairs`. -/
def parseAssocPairs (inner : List Char) : List (String × String) :=
  assocPairsFrom inner.length inner

/-- Whether the text holds `]=`. -/
def mentionsAssocKey : List Char → Bool
  | ']' :: '=' :: _ => true
  | _ :: cs => mentionsAssocKey cs
  | [] => false

/-- `is_assoc_array_assignment`. -/
def isAssocArrayAssignment (inner : List Char) (elements : List String) : Bool :=
  !elements.isEmpty && inner.contains '[' && mentionsAssocKey inner

/-- The text inside the parentheses of a value that is taken for an array. -/
def compoundBody (value : String) : Option (List Char) :=
  let trimmed := trim value.toList
  if trimmed.head? = some '(' ∧ trimmed.getLast? = some ')' then
    some (trimmed.drop 1).dropLast
  else none

/-- `assign_indexed_array`. -/
def assignIndexedArray (name : String) (elements : List String) : List StateOp :=
  .initIndexedArray name ::
    elements.zipIdx.map fun e => .setArrayElement name (toString e.2) e.1

/-- `assign_assoc_array`. -/
def assignAssocArray (name : String) (inner : List Char) : List StateOp :=
  .initAssocArray name :: (parseAssocPairs inner).map fun e => .setArrayElement name e.1 e.2

/-- `assign_compound_array`. -/
def assignCompoundArray (name : String) (inner : List Char) (isAppend : Bool) : List StateOp :=
  let elements := parseArrayElements inner
  if isAppend then [.appendArray name elements]
  else if isAssocArrayAssignment inner elements then assignAssocArray name inner
  else assignIndexedArray name elements

end Wasmsh

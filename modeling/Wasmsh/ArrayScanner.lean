import Wasmsh.Arguments
import Wasmsh.ScalarAssignment

/-!
# The scanners of array literals

The words of `name=(words)` reach the shell as one string, quotes included, and are split
again by a scanner of the runtime.  The scanner gives back the words that were quoted, but
for the empty ones; a literal in whose text `[` and `]=` occur is taken for a list of
`[key]=value` pairs, whose keys are cut at the first `]` and keep their quotes.
-/

namespace Wasmsh

open IndexMap

variable {ps : List (String × String)} {st : ShellState} {name : String}

/-! ## 1. Splitting quoted words -/

/-- A quoted text is what stands between two quotes. -/
theorem quoteText_eq (t : List Char) : quoteText t =
    '\'' :: (t.flatMap (fun c => if c = '\'' then ['\'', '\\', '\'', '\''] else [c]) ++ ['\'']) :=
  rfl

/-- The characters of a quoted text, in the scanner's state inside its quotes. -/
theorem arrayElementsFrom_inner (t rest current : List Char) (elements : List String) :
    arrayElementsFrom
      (t.flatMap (fun c => if c = '\'' then ['\'', '\\', '\'', '\''] else [c]) ++ '\'' :: rest)
      ⟨true, false, false⟩ current elements =
      arrayElementsFrom rest ⟨false, false, false⟩ (current ++ t) elements := by
  induction t generalizing current with
  | nil => simp [arrayElementsFrom, ArrayParseState.processChar]
  | cons c t ih =>
    by_cases hc : c = '\''
    · subst hc
      simp [arrayElementsFrom, ArrayParseState.processChar, ih]
    · simp [arrayElementsFrom, ArrayParseState.processChar, hc, ih]

theorem arrayElementsFrom_quoteText (t rest current : List Char) (elements : List String) :
    arrayElementsFrom (quoteText t ++ rest) ⟨false, false, false⟩ current elements =
      arrayElementsFrom rest ⟨false, false, false⟩ (current ++ t) elements := by
  have hinner := arrayElementsFrom_inner t rest current elements
  rw [quoteText_eq, List.cons_append, List.append_assoc, List.singleton_append]
  simpa [arrayElementsFrom, ArrayParseState.processChar] using hinner

/-- Texts joined by blanks. -/
def joined (ts : List (List Char)) : List Char := [' '].intercalate ts

theorem joined_cons_cons (t u : List Char) (ts : List (List Char)) :
    joined (t :: u :: ts) = t ++ ' ' :: joined (u :: ts) := by
  simp [joined, List.intercalate_cons_cons]

theorem joined_singleton (t : List Char) : joined [t] = t := by
  simp [joined]

theorem arrayElementsFrom_joined (ts : List (List Char)) (elements : List String) :
    arrayElementsFrom (joined (ts.map quoteText)) ⟨false, false, false⟩ [] elements =
      elements ++ (ts.filter (!·.isEmpty)).map String.ofList := by
  induction ts generalizing elements with
  | nil => simp [joined, arrayElementsFrom, pushArrayElement]
  | cons t ts ih =>
    have hpush : pushArrayElement elements t =
        elements ++ ([t].filter (!·.isEmpty)).map String.ofList := by
      cases t <;> simp [pushArrayElement]
    cases ts with
    | nil =>
      have hquoted := arrayElementsFrom_quoteText t [] [] elements
      rw [List.append_nil, List.nil_append] at hquoted
      rw [List.map_singleton, joined_singleton, hquoted, arrayElementsFrom, hpush]
    | cons u ts =>
      rw [List.map_cons, List.map_cons, joined_cons_cons, arrayElementsFrom_quoteText,
        List.nil_append]
      have hblank : arrayElementsFrom (' ' :: joined (quoteText u :: ts.map quoteText))
          ⟨false, false, false⟩ t elements =
          arrayElementsFrom (joined ((u :: ts).map quoteText)) ⟨false, false, false⟩ []
            (pushArrayElement elements t) := rfl
      rw [hblank, ih, hpush, List.append_assoc, ← List.map_append, ← List.filter_append,
        List.singleton_append]

/-- **The scanner gives back the words that are not empty.** -/
theorem parseArrayElements_joined (ts : List (List Char)) :
    parseArrayElements (joined (ts.map quoteText)) = (ts.filter (!·.isEmpty)).map String.ofList := by
  rw [parseArrayElements, arrayElementsFrom_joined, List.nil_append]

/-! ## 2. Literals that are taken for pairs -/

theorem mem_quoteText {b : Char} (hb : b ≠ '\'' ∧ b ≠ '\\') (t : List Char) :
    b ∈ quoteText t ↔ b ∈ t := by
  simp only [quoteText_eq, List.mem_cons, hb.1, false_or, List.mem_append, List.mem_flatMap,
    List.not_mem_nil, or_false]
  constructor
  · rintro ⟨c, hc, hmem⟩
    split at hmem
    · simp [hb.1, hb.2] at hmem
    · rcases List.mem_singleton.mp hmem with rfl
      exact hc
  · intro hmem
    exact ⟨b, hmem, by simp [hb.1]⟩

theorem mem_joined {b : Char} (hb : b ≠ ' ') (ts : List (List Char)) :
    b ∈ joined ts ↔ ∃ t ∈ ts, b ∈ t := by
  induction ts with
  | nil => simp [joined]
  | cons t ts ih =>
    cases ts with
    | nil => simp [joined_singleton]
    | cons u ts =>
      rw [joined_cons_cons, List.mem_append, List.mem_cons, ih]
      simp [hb]

theorem mentionsAssocKey_cons (c : Char) (cs : List Char) :
    mentionsAssocKey (c :: cs) = (decide (c = ']' ∧ cs.head? = some '=') || mentionsAssocKey cs) := by
  rw [mentionsAssocKey.eq_def]
  split
  · next heq =>
    injection heq with hc hcs
    simp [hc, hcs]
  · next hno heq =>
    injection heq with hc hcs
    subst hc hcs
    have hne : ¬ (c = ']' ∧ cs.head? = some '=') := by
      rintro ⟨rfl, hhead⟩
      cases cs with
      | nil => cases hhead
      | cons d ds =>
        cases hhead
        exact hno ds rfl rfl
    simp [hne]
  · next heq => cases heq

theorem mentionsAssocKey_inner (t rest : List Char) :
    mentionsAssocKey
      (t.flatMap (fun c => if c = '\'' then ['\'', '\\', '\'', '\''] else [c]) ++ '\'' :: rest) =
      (mentionsAssocKey t || mentionsAssocKey rest) := by
  induction t with
  | nil => simp [mentionsAssocKey_cons, mentionsAssocKey]
  | cons c t ih =>
    by_cases hc : c = '\''
    · subst hc
      simp [mentionsAssocKey_cons, ih]
    · have hhead : (t.flatMap (fun c => if c = '\'' then ['\'', '\\', '\'', '\''] else [c]) ++
          '\'' :: rest).head? = some '=' ↔ t.head? = some '=' := by
        cases t with
        | nil => simp
        | cons d t =>
          by_cases hd : d = '\''
          · subst hd
            simp
          · simp [hd]
      rw [List.flatMap_cons, if_neg hc, List.singleton_append, List.cons_append,
        mentionsAssocKey_cons, mentionsAssocKey_cons, ih, Bool.or_assoc]
      simp only [hhead]

theorem mentionsAssocKey_quoteText (t rest : List Char) :
    mentionsAssocKey (quoteText t ++ rest) = (mentionsAssocKey t || mentionsAssocKey rest) := by
  rw [quoteText_eq, List.cons_append, List.append_assoc, List.singleton_append,
    mentionsAssocKey_cons, mentionsAssocKey_inner]
  simp

theorem mentionsAssocKey_joined (ts : List (List Char)) :
    mentionsAssocKey (joined (ts.map quoteText)) = ts.any mentionsAssocKey := by
  induction ts with
  | nil => rfl
  | cons t ts ih =>
    cases ts with
    | nil =>
      have hquoted := mentionsAssocKey_quoteText t []
      rw [List.append_nil] at hquoted
      simp [joined_singleton, hquoted, mentionsAssocKey]
    | cons u ts =>
      rw [List.map_cons, List.map_cons, joined_cons_cons, mentionsAssocKey_quoteText,
        mentionsAssocKey_cons]
      rw [List.map_cons] at ih
      simp [ih]

/-- Elements in whose texts `[` and `]=` occur. -/
def looksAssociative (es : List String) : Bool :=
  es.any (·.toList.contains '[') && es.any (mentionsAssocKey ·.toList)

theorem isAssocArrayAssignment_joined (es : List String) :
    isAssocArrayAssignment (joined (es.map fun e => quoteText e.toList))
      (parseArrayElements (joined (es.map fun e => quoteText e.toList))) =
      (es.any (· ≠ "") && looksAssociative es) := by
  have hmap : es.map (fun e => quoteText e.toList) = (es.map String.toList).map quoteText := by
    simp
  have hbracket : (joined ((es.map String.toList).map quoteText)).contains '[' =
      es.any (·.toList.contains '[') := by
    rw [Bool.eq_iff_iff, List.contains_iff_mem, mem_joined (by decide)]
    simp [mem_quoteText]
  have hempty : (parseArrayElements (joined ((es.map String.toList).map quoteText))).isEmpty =
      !es.any (· ≠ "") := by
    rw [parseArrayElements_joined, Bool.eq_iff_iff]
    simp
  rw [hmap, isAssocArrayAssignment, hbracket, hempty, mentionsAssocKey_joined, looksAssociative,
    List.any_map, Bool.not_not, Bool.and_assoc]
  rfl

/-! ## 3. Indexed arrays -/

/-- Elements under fresh indices go to the end of an array. -/
theorem foldl_insert_fresh {β : Type} (vs : List β) (m : Map Nat β) (next : Nat)
    (hm : ∀ k ∈ keys m, k < next) :
    (vs.zipIdx next).foldl (fun m e => IndexMap.insert m e.2 e.1) m =
      m ++ (vs.zipIdx next).map fun e => (e.2, e.1) := by
  induction vs generalizing m next with
  | nil => simp
  | cons v vs ih =>
    have hfresh : next ∉ keys m := fun h => Nat.lt_irrefl _ (hm next h)
    rw [List.zipIdx_cons, List.foldl_cons, insert_of_not_mem hfresh, ih]
    · simp
    · intro k hk
      simp only [keys, List.map_append, List.mem_append, List.map_cons, List.map_nil,
        List.mem_singleton] at hk
      rcases hk with hk | rfl
      · exact Nat.lt_succ_of_lt (hm k hk)
      · exact Nat.lt_succ_self _

theorem values_append_zipIdx {β : Type} (m : Map Nat β) (vs : List β) (next : Nat) :
    values (m ++ (vs.zipIdx next).map fun e => (e.2, e.1)) = values m ++ vs := by
  have hvalues : ((vs.zipIdx next).map fun e => (e.2, e.1)).map Prod.snd = vs := by
    rw [List.map_map]
    exact List.zipIdx_map_fst next vs
  rw [values, List.map_append, hvalues, values]

/-- `append_array` puts the elements behind those that are there. -/
theorem values_appendToIndexedArray (m : Map Nat String) (vs : List String) :
    values (appendToIndexedArray m vs) = values m ++ vs := by
  unfold appendToIndexedArray
  cases hmax : (keys m).max? with
  | none =>
    rw [List.max?_eq_none_iff] at hmax
    rw [foldl_insert_fresh _ _ _ (by simp [hmax]), values_append_zipIdx]
  | some k =>
    have hle : ∀ i ∈ keys m, i < k + 1 := fun i hi =>
      Nat.lt_succ_of_le ((List.max?_eq_some_iff.mp hmax).2 i hi)
    dsimp only
    rw [foldl_insert_fresh _ _ _ hle, values_append_zipIdx]

theorem isDigit_of_mem_toString {n : Nat} {c : Char} (h : c ∈ (toString n).toList) :
    c.isDigit = true := by
  have hlist : (toString n).toList = Nat.toDigits 10 n := Nat.toList_repr
  exact Nat.isDigit_of_mem_toDigits (by decide) (by decide) (hlist ▸ h)

theorem digitsValue_toString (n : Nat) : digitsValue (toString n).toList = some n := by
  have hlist : (toString n).toList = Nat.toDigits 10 n := Nat.toList_repr
  have hall : (Nat.toDigits 10 n).all Char.isDigit = true :=
    List.all_eq_true.mpr fun c hc => isDigit_of_mem_toString (hlist ▸ hc)
  rw [hlist, digitsValue.eq_2 _ Nat.toDigits_ne_nil, hall, if_pos rfl, ← Nat.ofDigitChars_eq_foldl,
    Nat.ofDigitChars_ten_toDigits]

/-- A number is read back where it fits. -/
theorem parseUnsigned_number (bits n : Nat) :
    parseUnsigned bits (toString n) = if n < 2 ^ bits then some n else none := by
  unfold parseUnsigned
  split
  · next cs heq =>
    have hmem : '+' ∈ (toString n).toList := heq ▸ List.mem_cons_self
    exact absurd (isDigit_of_mem_toString hmem) (by decide)
  · rw [digitsValue_toString, Option.filter_some]
    simp only [decide_eq_true_eq]

/-- A plus sign in front of a number is passed. -/
theorem parseUnsigned_plus (bits n : Nat) :
    parseUnsigned bits ("+" ++ toString n) = if n < 2 ^ bits then some n else none := by
  have hplus : ("+" ++ toString n).toList = '+' :: (toString n).toList := by
    rw [String.toList_append]
    rfl
  unfold parseUnsigned
  split
  · next cs heq =>
    rw [hplus, List.cons.injEq] at heq
    rw [← heq.2, digitsValue_toString, Option.filter_some]
    simp only [decide_eq_true_eq]
  · next hne => exact absurd hplus (hne _)

theorem parseUnsigned_toString {n : Nat} (hn : n < 2 ^ 64) :
    parseUnsigned 64 (toString n) = some n := by
  rw [parseUnsigned_number, if_pos hn]

/-- The visible entry of a name is an array that can be written. -/
def ShellState.hasArray (st : ShellState) (name : String) (value : VarValue) : Prop :=
  ∃ v, st.env.get name = some v ∧ v.readonly = false ∧ v.value = value

theorem hasArray_initArray (hro : st.isVarReadonly name = false) (empty : VarValue) :
    (st.initArray name empty).hasArray name empty := by
  rw [ShellState.isVarReadonly_eq] at hro
  unfold ShellState.initArray
  simp only [hro, Bool.false_eq_true, if_false]
  exact ⟨_, by rw [ShellState.get_setEntry, if_pos rfl], rfl, rfl⟩

theorem hasArray_setArrayElement {value : VarValue}
    (h : st.hasArray name value) (index text : String) :
    (st.setArrayElement name index text).hasArray name (value.setElement index text) := by
  rcases h with ⟨v, hget, hro, rfl⟩
  unfold ShellState.setArrayElement
  rw [hget]
  simp only [hro, Bool.false_eq_true, if_false]
  refine ⟨{ v with value := v.value.setElement index text }, ?_, hro, rfl⟩
  rw [ShellState.get_updateEntry, if_pos rfl, hget, Option.map_some]

/-- Writing one element after the other. -/
theorem hasArray_setArrayElements {value : VarValue}
    (h : st.hasArray name value) (es : List (String × String)) :
    ∃ st', st.applyAll (es.map fun e => .setArrayElement name e.1 e.2) = some st' ∧
      st'.hasArray name (es.foldl (fun v e => v.setElement e.1 e.2) value) := by
  induction es generalizing st value with
  | nil => exact ⟨st, rfl, h⟩
  | cons e es ih => exact ih (hasArray_setArrayElement h e.1 e.2)

theorem foldl_setElement_indexed (vs : List String) (next : Nat) (m : Map Nat String)
    (hlen : next + vs.length ≤ 2 ^ 64) :
    ((vs.zipIdx next).map fun e => (toString e.2, e.1)).foldl (fun v e => v.setElement e.1 e.2)
      (VarValue.indexedArray m) =
      .indexedArray ((vs.zipIdx next).foldl (fun m e => IndexMap.insert m e.2 e.1) m) := by
  induction vs generalizing next m with
  | nil => rfl
  | cons v vs ih =>
    simp only [List.length_cons] at hlen
    rw [List.zipIdx_cons, List.map_cons, List.foldl_cons, List.foldl_cons, ← ih _ _ (by omega)]
    rw [VarValue.setElement, parseUnsigned_toString (by omega)]

/-- An indexed literal stores its elements in order. -/
theorem assignIndexedArray_values {es : List String}
    (hro : st.isVarReadonly name = false) (hlen : es.length ≤ 2 ^ 64) :
    ∃ st', st.applyAll (assignIndexedArray name es) = some st' ∧ st'.getArrayValues name = es := by
  rw [assignIndexedArray_eq]
  rcases hasArray_setArrayElements (hasArray_initArray hro (.indexedArray []))
    (es.zipIdx.map fun e => (toString e.2, e.1)) with ⟨st', hst', v, hget, -, hvalue⟩
  refine ⟨st', hst', ?_⟩
  rw [foldl_setElement_indexed es 0 [] (by omega), foldl_insert_fresh es [] 0 (by simp [keys])]
    at hvalue
  have hvalues := values_append_zipIdx [] es 0
  rw [ShellState.getArrayValues, hget, Option.map_some, Option.getD_some, hvalue,
    VarValue.elements, hvalues]
  rfl

/-! ## 4. Pairs -/

/-- A word that has begun is not lost. -/
theorem arrayElementsFrom_ne_nil (cs : List Char) (q : ArrayParseState) (current : List Char)
    (elements : List String) (h : current ≠ [] ∨ elements ≠ []) :
    arrayElementsFrom cs q current elements ≠ [] := by
  have hpush : pushArrayElement elements current ≠ [] := by
    unfold pushArrayElement
    split
    · next hempty =>
      rw [List.isEmpty_iff] at hempty
      exact h.resolve_left (fun hne => hne hempty)
    · simp
  induction cs generalizing q current elements with
  | nil => exact hpush
  | cons c cs ih =>
    unfold arrayElementsFrom
    split
    · exact ih _ _ _ (Or.inl (by simp)) (by simp [pushArrayElement])
    · exact ih _ _ _ h hpush
    · exact ih _ _ _ (Or.inr hpush) (by simpa [pushArrayElement] using hpush)

theorem mentionsAssocKey_append (cs rest : List Char) (h : mentionsAssocKey rest = true) :
    mentionsAssocKey (cs ++ rest) = true := by
  induction cs with
  | nil => exact h
  | cons c cs ih => rw [List.cons_append, mentionsAssocKey_cons, ih, Bool.or_true]

/-- The bytes that the scanner for pairs pushes are those of the text. -/
theorem bytesAsChars_eq (cs : List Char) : bytesAsChars cs = Utf8.encode cs := by
  have hchar : ∀ c, (String.utf8EncodeChar c).map (fun b => Char.ofNat b.toNat) =
      Utf8.encodeChar c := by
    intro c
    have hlt := Utf8.toNat_lt c
    have hval : c.val.toNat = c.toNat := rfl
    unfold String.utf8EncodeChar Utf8.encodeChar
    simp only [hval]
    by_cases h₁ : c.toNat < 0x80
    · rw [if_pos (by omega), if_pos h₁]
      simp [Nat.mod_eq_of_lt (show c.toNat < 256 by omega)]
    · rw [if_neg (by omega), if_neg h₁]
      by_cases h₂ : c.toNat < 0x800
      · rw [if_pos (by omega), if_pos h₂]
        simp
        constructor <;> congr 1 <;> omega
      · rw [if_neg (by omega), if_neg h₂]
        by_cases h₃ : c.toNat < 0x10000
        · rw [if_pos (by omega), if_pos h₃]
          simp
          refine ⟨?_, ?_, ?_⟩ <;> congr 1 <;> omega
        · rw [if_neg (by omega), if_neg h₃]
          simp
          refine ⟨?_, ?_, ?_, ?_⟩ <;> congr 1 <;> omega
  simp only [bytesAsChars, Utf8.encode, hchar]

theorem count_bytesAsChars (cs : List Char) : (bytesAsChars cs).count '[' = cs.count '[' := by
  rw [bytesAsChars_eq, Utf8.count_encode (by decide)]

theorem count_parseDoubleQuoted (cs : List Char) :
    (parseDoubleQuotedAssocValue cs).1.count '[' + (parseDoubleQuotedAssocValue cs).2.count '[' ≤
      cs.count '[' := by
  fun_induction parseDoubleQuotedAssocValue cs with
  | case1 => simp
  | case2 => simp
  | case3 c cs v rest heq ih | case5 c cs hescape hclose hquote v rest heq ih =>
    rw [heq] at ih
    simp only [List.count_append, count_bytesAsChars, List.count_cons, List.count_nil] at ih ⊢
    omega
  | case4 cs => simp

theorem count_parseAssocValue (cs : List Char) :
    (parseAssocValue cs).1.count '[' + (parseAssocValue cs).2.count '[' ≤ cs.count '[' := by
  have hsplit : ∀ (f : Char → Bool) (cs : List Char),
      (cs.takeWhile f).count '[' + (cs.dropWhile f).count '[' = cs.count '[' := by
    intro f cs
    rw [← List.count_append, List.takeWhile_append_dropWhile]
  unfold parseAssocValue
  split
  · next cs =>
    exact Nat.le_trans (count_parseDoubleQuoted cs) (by simp)
  · next cs =>
    have hdrop := (List.drop_sublist 1 (cs.dropWhile (· != '\''))).count_le '['
    have hone := hsplit (· != '\'') cs
    dsimp only
    rw [count_bytesAsChars, List.count_cons]
    omega
  · rw [count_bytesAsChars, hsplit]

theorem count_afterAssocKey (cs : List Char) : (afterAssocKey cs).count '[' ≤ cs.count '[' := by
  have hdrop := (List.drop_sublist 1 cs).count_le '['
  unfold afterAssocKey
  split
  · next heq =>
    rw [heq, List.count_cons] at hdrop
    omega
  · exact hdrop

/-- The brackets that entries of an array account for. -/
def brackets {α : Type} (m : Map α String) : Nat :=
  (m.map fun e => 1 + e.2.toList.count '[').sum

/-- Every pair has a bracket of its own, apart from those in its value. -/
theorem brackets_assocPairsFrom (turns : Nat) (inner : List Char) :
    brackets (assocPairsFrom turns inner) ≤ inner.count '[' := by
  induction turns generalizing inner with
  | zero => simp [assocPairsFrom, brackets]
  | succ turns ih =>
    have hblank : (inner.dropWhile isAsciiWhitespace).count '[' ≤ inner.count '[' :=
      (List.dropWhile_sublist _).count_le '['
    unfold assocPairsFrom
    split
    · simp [brackets]
    · next cs heq =>
      rw [heq, List.count_cons_self] at hblank
      have hkey : (cs.dropWhile (· != ']')).count '[' ≤ cs.count '[' :=
        (List.dropWhile_sublist _).count_le '['
      have hafter := count_afterAssocKey (cs.dropWhile (· != ']'))
      have hvalue := count_parseAssocValue (afterAssocKey (cs.dropWhile (· != ']')))
      have hrest := ih (parseAssocValue (afterAssocKey (cs.dropWhile (· != ']')))).2
      simp only [brackets, List.map_cons, List.sum_cons, String.toList_ofList] at hrest ⊢
      omega
    · next c cs _ heq =>
      rw [heq] at hblank
      have hskip : ((c :: cs).dropWhile (!isAsciiWhitespace ·)).count '[' ≤ (c :: cs).count '[' :=
        (List.dropWhile_sublist _).count_le '['
      exact (ih _).trans (hskip.trans hblank)

theorem brackets_insert {α : Type} [DecidableEq α] (m : Map α String) (k : α) (v : String) :
    brackets (IndexMap.insert m k v) ≤ brackets m + (1 + v.toList.count '[') := by
  induction m with
  | nil => simp [IndexMap.insert, brackets]
  | cons e m ih =>
    rcases e with ⟨k', v'⟩
    by_cases hk : k' = k
    · simp only [IndexMap.insert, hk, if_true, brackets, List.map_cons, List.sum_cons]
      omega
    · simp only [IndexMap.insert, hk, if_false, brackets, List.map_cons, List.sum_cons] at ih ⊢
      omega

theorem brackets_foldl_insert (es m : Map String String) :
    brackets (es.foldl (fun m e => IndexMap.insert m e.1 e.2) m) ≤ brackets m + brackets es := by
  induction es generalizing m with
  | nil => simp [brackets]
  | cons e es ih =>
    have hone := brackets_insert m e.1 e.2
    have hrest := ih (IndexMap.insert m e.1 e.2)
    simp only [brackets, List.map_cons, List.sum_cons, List.foldl_cons] at hone hrest ⊢
    omega

theorem foldl_setElement_assoc (es m : Map String String) :
    es.foldl (fun v e => v.setElement e.1 e.2) (VarValue.assocArray m) =
      .assocArray (es.foldl (fun m e => IndexMap.insert m e.1 e.2) m) := by
  induction es generalizing m with
  | nil => rfl
  | cons e es ih => exact ih _

/-- The entries of a literal of pairs. -/
def assocEntries (inner : List Char) : Map String String :=
  (parseAssocPairs inner).foldl (fun m e => IndexMap.insert m e.1 e.2) []

/-- A literal of pairs stores what the scanner makes of it. -/
theorem assignAssocArray_hasArray (hro : st.isVarReadonly name = false) (inner : List Char) :
    ∃ st', st.applyAll (assignAssocArray name inner) = some st' ∧
      st'.hasArray name (.assocArray (assocEntries inner)) := by
  rcases hasArray_setArrayElements (hasArray_initArray hro (.assocArray []))
    (parseAssocPairs inner) with ⟨st', hst', harray⟩
  rw [foldl_setElement_assoc] at harray
  exact ⟨st', hst', harray⟩

theorem brackets_assocEntries (inner : List Char) :
    brackets (assocEntries inner) ≤ inner.count '[' := by
  have hfold := brackets_foldl_insert (parseAssocPairs inner) []
  have hpairs := brackets_assocPairsFrom inner.length inner
  rw [assocEntries]
  rw [parseAssocPairs] at hfold ⊢
  simp only [brackets, List.map_nil, List.sum_nil] at hfold hpairs ⊢
  omega

theorem count_quoteText (t : List Char) : (quoteText t).count '[' = t.count '[' := by
  have hinner : ∀ t : List Char, (t.flatMap fun c =>
      if c = '\'' then ['\'', '\\', '\'', '\''] else [c]).count '[' = t.count '[' := by
    intro t
    induction t with
    | nil => rfl
    | cons c t ih =>
      rw [List.flatMap_cons, List.count_append, ih, List.count_cons]
      by_cases hc : c = '\''
      · subst hc
        simp
      · rw [if_neg hc, List.count_singleton]
        omega
  simp [quoteText_eq, List.count_append, hinner]

theorem count_joined (ts : List (List Char)) :
    (joined ts).count '[' = (ts.map (·.count '[')).sum := by
  induction ts with
  | nil => rfl
  | cons t ts ih =>
    cases ts with
    | nil => simp [joined_singleton]
    | cons u ts =>
      rw [joined_cons_cons, List.count_append, List.count_cons, ih]
      simp

/-- **Elements that are taken for pairs are not what is stored.** -/
theorem values_assocEntries_ne {es : List String} (hes : es ≠ []) :
    values (assocEntries (joined (es.map fun e => quoteText e.toList))) ≠ es := by
  intro hvalues
  have hle := brackets_assocEntries (joined (es.map fun e => quoteText e.toList))
  have hsum : ∀ m : Map String String, brackets m =
      m.length + ((values m).map (·.toList.count '[')).sum := by
    intro m
    induction m with
    | nil => rfl
    | cons e m ih =>
      simp only [brackets, values, List.map_cons, List.sum_cons, List.length_cons] at ih ⊢
      omega
  have hlen : (assocEntries (joined (es.map fun e => quoteText e.toList))).length = es.length := by
    rw [← congrArg List.length hvalues, values, List.length_map]
  have hpos : 0 < es.length := List.length_pos_iff.mpr hes
  have hcount : (es.map fun e => quoteText e.toList).map (·.count '[') =
      es.map (·.toList.count '[') := by
    simp [count_quoteText]
  rw [hsum, hvalues, hlen, count_joined, hcount] at hle
  omega

/-- A pair as it is written with quoted key and value. -/
def pairText (p : String × String) : List Char :=
  '[' :: (quoteText p.1.toList ++ ']' :: '=' :: quoteText p.2.toList)

/-- The scanner keeps the quotes of a key, and reads the value as bytes. -/
def scannedPair (p : String × String) : String × String :=
  (String.ofList (quoteText p.1.toList), String.ofList (Utf8.encode p.2.toList))

/-- A key without `]` and a value without a quote. -/
def IsSimplePair (p : String × String) : Prop := ']' ∉ p.1.toList ∧ '\'' ∉ p.2.toList

/-- A literal of pairs is taken for one. -/
theorem isAssocArrayAssignment_pairs (hps : ps ≠ []) :
    isAssocArrayAssignment (joined (ps.map pairText))
      (parseArrayElements (joined (ps.map pairText))) = true := by
  have htext : ∃ rest, joined (ps.map pairText) = '[' :: rest ∧ mentionsAssocKey rest = true := by
    have hmentions : ∀ (p : String × String) (rest : List Char), mentionsAssocKey
        (quoteText p.1.toList ++ ']' :: '=' :: quoteText p.2.toList ++ rest) = true := by
      intro p rest
      rw [List.append_assoc]
      apply mentionsAssocKey_append
      rfl
    cases ps with
    | nil => exact absurd rfl hps
    | cons p ps =>
      cases ps with
      | nil =>
        have hone := hmentions p []
        rw [List.append_nil] at hone
        exact ⟨_, by rw [List.map_singleton, joined_singleton]; rfl, hone⟩
      | cons q ps =>
        exact ⟨_, by rw [List.map_cons, List.map_cons, joined_cons_cons]; rfl, hmentions p _⟩
  rcases htext with ⟨rest, htext, hmentions⟩
  have helements : parseArrayElements ('[' :: rest) ≠ [] :=
    arrayElementsFrom_ne_nil rest ⟨false, false, false⟩ ['['] [] (Or.inl (by simp))
  rw [htext, isAssocArrayAssignment, mentionsAssocKey_cons, hmentions]
  simp [helements]

theorem quoteText_of_not_mem {t : List Char} (ht : '\'' ∉ t) :
    quoteText t = '\'' :: (t ++ ['\'']) := by
  have hinner : t.flatMap (fun c => if c = '\'' then ['\'', '\\', '\'', '\''] else [c]) = t := by
    induction t with
    | nil => rfl
    | cons c t ih =>
      simp only [List.mem_cons, not_or] at ht
      rw [List.flatMap_cons, if_neg (Ne.symm ht.1), ih ht.2, List.singleton_append]
  rw [quoteText_eq, hinner]

theorem span_until {b : Char} {t : List Char} (ht : b ∉ t) (rest : List Char) :
    (t ++ b :: rest).takeWhile (· != b) = t ∧ (t ++ b :: rest).dropWhile (· != b) = b :: rest := by
  have hne : ∀ c ∈ t, (c != b) = true := by
    intro c hc
    rw [bne_iff_ne]
    rintro rfl
    exact ht hc
  rw [List.takeWhile_append_of_pos hne, List.dropWhile_append_of_pos hne]
  simp

theorem assocPairsFrom_pairText {p : String × String} (hp : IsSimplePair p) (turns : Nat)
    (rest : List Char) :
    assocPairsFrom (turns + 1) (pairText p ++ rest) =
      scannedPair p :: assocPairsFrom turns rest := by
  have hkey : ']' ∉ quoteText p.1.toList := by
    rw [mem_quoteText (by decide)]
    exact hp.1
  have hspan := span_until hkey ('=' :: (quoteText p.2.toList ++ rest))
  have hvalue := span_until hp.2 rest
  have htext : pairText p ++ rest = '[' :: (quoteText p.1.toList ++ ']' :: '=' ::
      (quoteText p.2.toList ++ rest)) := by
    simp [pairText]
  have hread : parseAssocValue (quoteText p.2.toList ++ rest) =
      (Utf8.encode p.2.toList, rest) := by
    rw [quoteText_of_not_mem hp.2]
    simp only [List.cons_append, List.append_assoc, List.nil_append, parseAssocValue,
      hvalue.1, hvalue.2, bytesAsChars_eq, List.drop_succ_cons, List.drop_zero]
  rw [htext, assocPairsFrom]
  have hblank : ('[' :: (quoteText p.1.toList ++ ']' :: '=' ::
      (quoteText p.2.toList ++ rest))).dropWhile isAsciiWhitespace =
      '[' :: (quoteText p.1.toList ++ ']' :: '=' :: (quoteText p.2.toList ++ rest)) := rfl
  rw [hblank]
  simp only [hspan.1, hspan.2, afterAssocKey, List.drop_succ_cons, List.drop_zero, hread]
  rfl

theorem assocPairsFrom_joined (ps : List (String × String)) (hps : ∀ p ∈ ps, IsSimplePair p)
    (turns : Nat) (hturns : ps.length ≤ turns) :
    assocPairsFrom turns (joined (ps.map pairText)) = ps.map scannedPair := by
  induction ps generalizing turns with
  | nil => cases turns <;> rfl
  | cons p ps ih =>
    rcases turns with _ | turns
    · simp at hturns
    have hp := hps p (.head _)
    have hrest := ih (fun q hq => hps q (.tail _ hq)) turns (Nat.le_of_succ_le_succ hturns)
    cases ps with
    | nil =>
      have hone := assocPairsFrom_pairText hp turns []
      rw [List.append_nil] at hone
      rw [List.map_singleton, joined_singleton, hone]
      cases turns <;> rfl
    | cons q ps =>
      rcases turns with _ | turns
      · simp at hturns
      rw [List.map_cons, List.map_cons, joined_cons_cons, assocPairsFrom_pairText hp]
      have hblank : assocPairsFrom (turns + 1) (' ' :: joined (pairText q :: ps.map pairText)) =
          assocPairsFrom (turns + 1) (joined ((q :: ps).map pairText)) := rfl
      rw [hblank, hrest]
      rfl

theorem length_le_joined_pairText (ps : List (String × String)) :
    ps.length ≤ (joined (ps.map pairText)).length := by
  induction ps with
  | nil => exact Nat.zero_le _
  | cons p ps ih =>
    cases ps with
    | nil => simp [joined_singleton, pairText]
    | cons q ps =>
      rw [List.map_cons, List.map_cons, joined_cons_cons]
      rw [List.map_cons] at ih
      simp only [List.length_cons, List.length_append] at ih ⊢
      omega

theorem parseAssocPairs_joined (hps : ∀ p ∈ ps, IsSimplePair p) :
    parseAssocPairs (joined (ps.map pairText)) = ps.map scannedPair :=
  assocPairsFrom_joined ps hps _ (length_le_joined_pairText ps)

theorem mem_of_get_foldl_insert {es m : Map String String} {k v : String}
    (h : IndexMap.get (es.foldl (fun m e => IndexMap.insert m e.1 e.2) m) k = some v) :
    (k, v) ∈ es ∨ IndexMap.get m k = some v := by
  induction es generalizing m with
  | nil => exact Or.inr h
  | cons e es ih =>
    rcases ih h with hmem | hget
    · exact Or.inl (.tail _ hmem)
    · rw [get_insert] at hget
      by_cases he : e.1 = k
      · rw [if_pos he] at hget
        cases hget
        subst he
        exact Or.inl (.head _)
      · rw [if_neg he] at hget
        exact Or.inr hget

/-- What is stored under a key comes from a pair whose quoted key it is. -/
theorem get_assocEntries (hps : ∀ p ∈ ps, IsSimplePair p)
    {k v : String} (h : IndexMap.get (assocEntries (joined (ps.map pairText))) k = some v) :
    ∃ q ∈ ps, scannedPair q = (k, v) := by
  rw [assocEntries, parseAssocPairs_joined hps] at h
  rcases mem_of_get_foldl_insert h with hmem | hnil
  · exact List.mem_map.mp hmem
  · cases hnil

theorem length_lt_quoteText (t : List Char) : t.length < (quoteText t).length := by
  have hinner : t.length ≤ (t.flatMap fun c =>
      if c = '\'' then ['\'', '\\', '\'', '\''] else [c]).length := by
    induction t with
    | nil => exact Nat.le_refl 0
    | cons c t ih =>
      rw [List.flatMap_cons, List.length_append, List.length_cons]
      split
      · simp only [List.length_cons, List.length_nil]
        omega
      · simp only [List.length_cons, List.length_nil]
        omega
  simp only [quoteText_eq, List.length_cons, List.length_append]
  omega

/-- **A literal of pairs gives back its values exactly when they are all empty**: the keys
    are stored with their quotes. -/
theorem entries_iff_empty (hps : ∀ p ∈ ps, IsSimplePair p) :
    (∀ p ∈ ps, (IndexMap.get (assocEntries (joined (ps.map pairText))) p.1).getD "" = p.2) ↔
      ∀ p ∈ ps, p.2 = "" := by
  constructor
  · intro hget
    -- by induction on the length of the key: a key that is stored is a shorter one, quoted
    have hempty : ∀ n, ∀ p ∈ ps, p.1.toList.length = n → p.2 = "" := by
      intro n
      induction n using Nat.strongRecOn with
      | ind n ih =>
        intro p hp hlen
        have hp' := hget p hp
        cases hstored : IndexMap.get (assocEntries (joined (ps.map pairText))) p.1 with
        | none => simpa [hstored] using hp'.symm
        | some v =>
          rcases get_assocEntries hps hstored with ⟨q, hq, hpair⟩
          have hlt := length_lt_quoteText q.1.toList
          rcases Prod.mk.inj hpair with ⟨hkey, hvalue⟩
          rw [← hkey, String.toList_ofList] at hlen
          have hq' := ih _ (by omega) q hq rfl
          rw [hq'] at hvalue
          rw [hstored, Option.getD_some] at hp'
          rw [← hp', ← hvalue]
          rfl
    exact fun p hp => hempty _ p hp rfl
  · intro hempty p hp
    rw [hempty p hp]
    cases hstored : IndexMap.get (assocEntries (joined (ps.map pairText))) p.1 with
    | none => rfl
    | some v =>
      rcases get_assocEntries hps hstored with ⟨q, hq, hpair⟩
      have hvalue := (Prod.mk.inj hpair).2
      rw [hempty q hq] at hvalue
      rw [Option.getD_some, ← hvalue]
      rfl

end Wasmsh

import Wasmsh.Braces

/-!
# Brace expansion of texts whose characters are more than characters

The brace expansion of `expand_braces` reads its word through the characters of the word.
Here it is stated over items of any type and a view of them as characters: an item that is
viewed as a character without a meaning is carried along and never looked at.  For the view
that shows every character this is `expandBraces`; two views on which the same pairs open to
the same items give the same words.
-/

namespace Wasmsh.Braces

variable {α : Type}

/-! ## 1. The expansion through a view -/

section

variable (view : α → Char) (lift : Char → α)

/-- An item before the first list. -/
def consItem (a : α) : List (List α) → List (List α)
  | [] => [[a]]
  | item :: items => (a :: item) :: items

/-- `split_brace_items` through a view. -/
def splitItems : Nat → List α → List (List α)
  | _, [] => [[]]
  | depth, a :: as =>
    if view a = ',' ∧ depth = 0 then [] :: splitItems depth as
    else if view a = '{' then consItem a (splitItems (depth + 1) as)
    else if view a = '}' then consItem a (splitItems (depth - 1) as)
    else consItem a (splitItems depth as)

/-- `braceItems` through a view; the items of a range are new. -/
def itemsOn (inner : List α) : Option (List (List α)) :=
  match tryBraceRange (inner.map view) with
  | some items => some (items.map (·.map lift))
  | none => if 1 < (splitItems view 0 inner).length then some (splitItems view 0 inner) else none

/-- The words that the first pair of braces opens to. -/
def openPair (w : List α) : Option (List (List α)) :=
  match findBracePair (w.map view) with
  | none => none
  | some (start, stop) =>
    (itemsOn view lift ((w.drop (start + 1)).take (stop - start - 1))).map fun items =>
      items.map fun item => w.take start ++ item ++ w.drop (stop + 1)

/-- `expand_braces` through a view. -/
def expandOn : Nat → List α → List (List α)
  | 0, w => [w]
  | n + 1, w =>
    match openPair view lift w with
    | none => [w]
    | some ws => (ws.flatMap (expandOn n)).take maxBraceItems

end

/-! ## 2. The characters themselves -/

section

variable {view : α → Char} {lift : Char → α}

theorem map_consItem (a : α) (items : List (List α)) :
    (consItem a items).map (·.map view) = consHead (view a) (items.map (·.map view)) := by
  cases items <;> rfl

theorem map_splitItems (depth : Nat) (w : List α) :
    (splitItems view depth w).map (·.map view) = splitBraceItems depth (w.map view) := by
  induction w generalizing depth with
  | nil => rfl
  | cons a w ih =>
    simp only [splitItems, List.map_cons, splitBraceItems]
    by_cases hcomma : view a = ',' ∧ depth = 0
    · rw [if_pos hcomma, if_pos hcomma, List.map_cons, ih, List.map_nil]
    · rw [if_neg hcomma, if_neg hcomma]
      by_cases hopen : view a = '{'
      · rw [if_pos hopen, if_pos hopen, map_consItem, ih]
      · rw [if_neg hopen, if_neg hopen]
        by_cases hclose : view a = '}'
        · rw [if_pos hclose, if_pos hclose, map_consItem, ih]
        · rw [if_neg hclose, if_neg hclose, map_consItem, ih]

theorem map_itemsOn (hview : ∀ c, view (lift c) = c) (inner : List α) :
    (itemsOn view lift inner).map (·.map (·.map view)) = braceItems (inner.map view) := by
  unfold itemsOn braceItems
  cases tryBraceRange (inner.map view) with
  | some items => simp [Function.comp_def, hview]
  | none =>
    have hlen : (splitBraceItems 0 (inner.map view)).length = (splitItems view 0 inner).length := by
      rw [← map_splitItems, List.length_map]
    dsimp only
    rw [hlen]
    split
    · rw [Option.map_some, map_splitItems]
    · rfl

/-- **Through the view that shows every character the expansion is `expand_braces`.** -/
theorem map_expandOn (hview : ∀ c, view (lift c) = c) (n : Nat) (w : List α) :
    (expandOn view lift n w).map (·.map view) = expandBracesFrom n (w.map view) := by
  induction n generalizing w with
  | zero => rfl
  | succ n ih =>
    unfold expandOn expandBracesFrom openPair
    cases hpair : findBracePair (w.map view) with
    | none => rfl
    | some pair =>
      rcases pair with ⟨start, stop⟩
      have hitems := map_itemsOn hview ((w.drop (start + 1)).take (stop - start - 1))
      rw [List.map_take, List.map_drop] at hitems
      dsimp only
      rw [← hitems]
      cases itemsOn view lift ((w.drop (start + 1)).take (stop - start - 1)) with
      | none => rfl
      | some items =>
        simp only [Option.map_some, List.map_take, List.map_flatMap, List.flatMap_map,
          List.map_append, List.map_drop, ih]

end

/-! ## 3. Two views -/

section

variable [DecidableEq α] (view view' : α → Char) (lift : Char → α)

/-- At every step the two views show the same pair with the same items. -/
def sameBraces : Nat → List α → Bool
  | 0, _ => true
  | n + 1, w =>
    decide (openPair view lift w = openPair view' lift w) &&
      ((openPair view lift w).getD []).all (sameBraces n)

variable {view view' lift}

theorem expandOn_eq_of_sameBraces {n : Nat} {w : List α}
    (h : sameBraces view view' lift n w = true) :
    expandOn view lift n w = expandOn view' lift n w := by
  induction n generalizing w with
  | zero => rfl
  | succ n ih =>
    simp only [sameBraces, Bool.and_eq_true, decide_eq_true_eq, List.all_eq_true] at h
    rcases h with ⟨hopen, hrest⟩
    unfold expandOn
    rw [← hopen]
    cases hws : openPair view lift w with
    | none => rfl
    | some ws =>
      rw [hws, Option.getD_some] at hrest
      have hflat : ws.flatMap (expandOn view lift n) = ws.flatMap (expandOn view' lift n) := by
        rw [List.flatMap_def, List.flatMap_def, List.map_congr_left fun w' hw' => ih (hrest w' hw')]
      dsimp only
      rw [hflat]

end

/-! ## 4. An opened pair is gone -/

/-- The pair that is found starts at a brace, before the one it ends at. -/
theorem findBracePairFrom_spec {before cs : List Char} {prev : Option Char}
    {start depth a b : Nat} (hdepth : 0 < depth → (before ++ cs)[start]? = some '{' ∧
      start < before.length) (h : findBracePairFrom prev start depth before.length cs = some (a, b)) :
    (before ++ cs)[a]? = some '{' ∧ a < b := by
  induction cs generalizing before prev start depth with
  | nil => cases h
  | cons c cs ih =>
    have hword : before ++ c :: cs = before ++ [c] ++ cs := by simp
    have hlen : before.length + 1 = (before ++ [c]).length := by simp
    have hstep : ∀ {prev : Option Char} {start depth : Nat},
        (0 < depth → (before ++ c :: cs)[start]? = some '{' ∧ start < before.length + 1) →
        findBracePairFrom prev start depth (before.length + 1) cs = some (a, b) →
        (before ++ c :: cs)[a]? = some '{' ∧ a < b := by
      intro prev start depth hd hfind
      rw [hlen] at hfind hd
      rw [hword] at hd ⊢
      exact ih hd hfind
    have hwide : 0 < depth → (before ++ c :: cs)[start]? = some '{' ∧
        start < before.length + 1 := fun hd => ⟨(hdepth hd).1, Nat.lt_succ_of_lt (hdepth hd).2⟩
    unfold findBracePairFrom at h
    by_cases hescape : prev = some '\\'
    · rw [if_pos hescape] at h
      exact hstep hwide h
    · rw [if_neg hescape] at h
      by_cases hopen : c = '{'
      · rw [if_pos hopen] at h
        refine hstep (fun _ => ?_) h
        by_cases hzero : depth = 0
        · rw [if_pos hzero, List.getElem?_append_right (Nat.le_refl _), Nat.sub_self]
          exact ⟨by rw [hopen]; rfl, Nat.lt_succ_self _⟩
        · rw [if_neg hzero]
          exact hwide (Nat.pos_of_ne_zero hzero)
      · rw [if_neg hopen] at h
        by_cases hclose : c = '}' ∧ 0 < depth
        · rw [if_pos hclose] at h
          by_cases hone : depth = 1
          · rw [if_pos hone] at h
            cases h
            exact hdepth hclose.2
          · rw [if_neg hone] at h
            exact hstep (fun _ => hwide hclose.2) h
        · rw [if_neg hclose] at h
          exact hstep hwide h

theorem findBracePair_spec {w : List Char} {a b : Nat} (h : findBracePair w = some (a, b)) :
    w[a]? = some '{' ∧ a < b :=
  @findBracePairFrom_spec [] w none 0 0 a b (fun hd => absurd hd (Nat.lt_irrefl 0)) h

theorem mem_consItem {a : α} {items : List (List α)} {item : List α}
    (h : item ∈ consItem a items) : ∃ rest, item = a :: rest ∧ (rest ∈ items ∨ rest = []) ∨
      item ∈ items := by
  cases items with
  | nil =>
    rcases List.mem_singleton.mp h with rfl
    exact ⟨[], Or.inl ⟨rfl, Or.inr rfl⟩⟩
  | cons first items =>
    rcases List.mem_cons.mp h with rfl | h
    · exact ⟨first, Or.inl ⟨rfl, Or.inl (.head _)⟩⟩
    · exact ⟨[], Or.inr (.tail _ h)⟩

section

variable {view : α → Char} {lift : Char → α}

/-- An item of a list is part of what stands between the braces. -/
theorem sublist_of_mem_splitItems {depth : Nat} {w item : List α}
    (h : item ∈ splitItems view depth w) : item.Sublist w := by
  induction w generalizing depth item with
  | nil =>
    rcases List.mem_singleton.mp h with rfl
    exact .slnil
  | cons a w ih =>
    have hcons : ∀ depth, item ∈ consItem a (splitItems view depth w) → item.Sublist (a :: w) := by
      intro depth hmem
      rcases mem_consItem hmem with ⟨rest, ⟨rfl, hrest | rfl⟩ | hmem⟩
      · exact (ih hrest).cons_cons a
      · exact (List.nil_sublist w).cons_cons a
      · exact (ih hmem).cons a
    unfold splitItems at h
    split at h
    · rcases List.mem_cons.mp h with rfl | h
      · exact List.nil_sublist _
      · exact (ih h).cons a
    · split at h
      · exact hcons _ h
      · split at h
        · exact hcons _ h
        · exact hcons _ h

/-- The number of a range is written with digits and a sign. -/
theorem mem_rangeItem {cur : Int} {width : Nat} {pad : Bool} {c : Char}
    (h : c ∈ rangeItem cur width pad) : c.isDigit = true ∨ c = '-' := by
  have hnat : ∀ n : Nat, c ∈ (toString n).toList → c.isDigit = true := by
    intro n hmem
    have hlist : (toString n).toList = Nat.toDigits 10 n := Nat.toList_repr
    rw [hlist] at hmem
    exact Nat.isDigit_of_mem_toDigits (by decide) (by decide) hmem
  have hint : c ∈ (toString cur).toList → c.isDigit = true ∨ c = '-' := by
    intro hmem
    cases cur with
    | ofNat n => exact .inl (hnat n hmem)
    | negSucc n =>
      have htext : toString (Int.negSucc n) = "-" ++ toString (n + 1) := rfl
      rw [htext, String.toList_append, List.mem_append] at hmem
      rcases hmem with hmem | hmem
      · exact .inr (by simpa using hmem)
      · exact .inl (hnat (n + 1) hmem)
  unfold rangeItem at h
  dsimp only at h
  split at h
  · rcases List.mem_append.mp h with h | h
    · rw [List.eq_of_mem_replicate h]
      exact .inl (by decide)
    · exact hint h
  · exact hint h

/-- No character of a number structures a word. -/
theorem ne_of_mem_rangeItem {cur : Int} {width : Nat} {pad : Bool} {c d : Char}
    (h : c ∈ rangeItem cur width pad) (hd : d.isDigit = false) (hminus : d ≠ '-') : c ≠ d := by
  rintro rfl
  rcases mem_rangeItem h with hdigit | rfl
  · rw [hd] at hdigit
    exact Bool.noConfusion hdigit
  · exact hminus rfl

theorem not_mem_rangeItem (cur : Int) (width : Nat) (pad : Bool) :
    '{' ∉ rangeItem cur width pad := by
  intro h
  exact ne_of_mem_rangeItem h (by decide) (by decide) rfl

theorem not_mem_generateRange {stop step : Int} {width : Nat} {pad : Bool} {n : Nat} {cur : Int}
    {item : List Char} (h : item ∈ generateRange stop step width pad n cur) : '{' ∉ item := by
  induction n generalizing cur with
  | zero => cases h
  | succ n ih =>
    unfold generateRange at h
    by_cases hgoes : if 0 < step then cur ≤ stop else stop ≤ cur
    · rw [if_pos hgoes] at h
      rcases List.mem_cons.mp h with rfl | h
      · exact not_mem_rangeItem cur width pad
      · split at h
        · exact ih h
        · cases h
    · rw [if_neg hgoes] at h
      cases h

theorem not_mem_tryBraceRange {inner : List Char} {items : List (List Char)}
    (h : tryBraceRange inner = some items) {item : List Char} (hitem : item ∈ items) :
    '{' ∉ item := by
  unfold tryBraceRange at h
  simp only [bind, Option.bind_eq_some_iff] at h
  rcases h with ⟨⟨first, rest⟩, -, h⟩
  rcases h with ⟨start, -, stop, -, step, -, h⟩
  -- the range has two parts or three
  split at h
  · split at h
    · cases h
    · cases h
      exact not_mem_generateRange hitem
  · split at h
    · cases h
    · cases h
      exact not_mem_generateRange hitem

variable {base : α → Char}

/-- The braces that are opened in a word. -/
def openBraces (base : α → Char) (w : List α) : Nat := (w.map base).count '{'

theorem openBraces_append (w w' : List α) :
    openBraces base (w ++ w') = openBraces base w + openBraces base w' := by
  rw [openBraces, List.map_append, List.count_append, openBraces, openBraces]

theorem openBraces_itemsOn (hlift : ∀ c, base (lift c) = c) {inner item : List α}
    {items : List (List α)} (h : itemsOn view lift inner = some items) (hitem : item ∈ items) :
    openBraces base item ≤ openBraces base inner := by
  unfold itemsOn at h
  split at h
  · next ranges hranges =>
    cases h
    rcases List.mem_map.mp hitem with ⟨text, htext, rfl⟩
    have hnone : openBraces base (text.map lift) = 0 := by
      rw [openBraces, List.map_map]
      have hid : base ∘ lift = id := funext hlift
      rw [hid, List.map_id, List.count_eq_zero]
      exact not_mem_tryBraceRange hranges htext
    rw [hnone]
    exact Nat.zero_le _
  · split at h
    · cases h
      exact ((sublist_of_mem_splitItems hitem).map base).count_le '{'
    · cases h

/-- A pair that opens leaves fewer braces. -/
theorem openBraces_openPair (hview : ∀ a, view a = '{' → base a = '{')
    (hlift : ∀ c, base (lift c) = c) {w w' : List α} {ws : List (List α)}
    (h : openPair view lift w = some ws) (hw' : w' ∈ ws) :
    openBraces base w' < openBraces base w := by
  unfold openPair at h
  split at h
  · cases h
  · next start stop hpair =>
    rcases Option.map_eq_some_iff.mp h with ⟨items, hitems, rfl⟩
    rcases List.mem_map.mp hw' with ⟨item, hitem, rfl⟩
    rcases findBracePair_spec hpair with ⟨hbrace, hlt⟩
    rw [List.getElem?_map, Option.map_eq_some_iff] at hbrace
    rcases hbrace with ⟨a, ha, hva⟩
    have hle := openBraces_itemsOn hlift hitems hitem
    have hsplit : w = w.take start ++ (a :: ((w.drop (start + 1)).take (stop - start - 1) ++
        w.drop stop)) := by
      have hdrop : (w.drop (start + 1)).drop (stop - start - 1) = w.drop stop := by
        rw [List.drop_drop]
        congr 1
        omega
      have hcons : w.drop start = a :: w.drop (start + 1) := by
        rcases List.getElem?_eq_some_iff.mp ha with ⟨hlen, rfl⟩
        exact List.drop_eq_getElem_cons hlen
      rw [← hdrop, List.take_append_drop, ← hcons, List.take_append_drop]
    have hdrop : openBraces base (w.drop (stop + 1)) ≤ openBraces base (w.drop stop) := by
      have hsub : (w.drop (stop + 1)).Sublist (w.drop stop) := by
        rw [← List.drop_drop]
        exact List.drop_sublist 1 _
      exact (hsub.map base).count_le '{'
    have hone : openBraces base [a] = 1 := by
      rw [openBraces, List.map_singleton, hview a hva]
      rfl
    have htotal := congrArg (openBraces base) hsplit
    rw [openBraces_append, ← List.singleton_append, openBraces_append, openBraces_append, hone]
      at htotal
    rw [openBraces_append, openBraces_append]
    omega

/-- No word of an expansion has more braces than the word it comes from. -/
theorem openBraces_expandOn (hview : ∀ a, view a = '{' → base a = '{')
    (hlift : ∀ c, base (lift c) = c) {n : Nat} {w w' : List α}
    (hw' : w' ∈ expandOn view lift n w) : openBraces base w' ≤ openBraces base w := by
  induction n generalizing w with
  | zero =>
    rcases List.mem_singleton.mp hw' with rfl
    exact Nat.le_refl _
  | succ n ih =>
    unfold expandOn at hw'
    split at hw'
    · rcases List.mem_singleton.mp hw' with rfl
      exact Nat.le_refl _
    · next ws hopen =>
      rcases List.mem_flatMap.mp (List.mem_of_mem_take hw') with ⟨v, hv, hmem⟩
      exact Nat.le_trans (ih hmem) (Nat.le_of_lt (openBraces_openPair hview hlift hopen hv))

/-- **A word is left alone exactly when no pair of it opens**, judged by any base whose
    braces the view shows. -/
theorem expandOn_eq_self_iff (hview : ∀ a, view a = '{' → base a = '{')
    (hlift : ∀ c, base (lift c) = c) (n : Nat) (w : List α) :
    (expandOn view lift (n + 1) w).map (·.map base) = [w.map base] ↔
      openPair view lift w = none := by
  constructor
  · intro heq
    cases hopen : openPair view lift w with
    | none => rfl
    | some ws =>
      have hmem : w.map base ∈ (expandOn view lift (n + 1) w).map (·.map base) := by
        rw [heq]
        exact .head _
      rcases List.mem_map.mp hmem with ⟨w', hw', hsame⟩
      simp only [expandOn, hopen] at hw'
      rcases List.mem_flatMap.mp (List.mem_of_mem_take hw') with ⟨v, hv, hv'⟩
      have hle := openBraces_expandOn hview hlift hv'
      have hlt := openBraces_openPair hview hlift hopen hv
      have hcount : openBraces base w' = openBraces base w := by
        rw [openBraces, hsame, openBraces]
      omega
  · intro hnone
    simp only [expandOn, hnone, List.map_cons, List.map_nil]

end

end Wasmsh.Braces

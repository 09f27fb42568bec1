import Wasmsh.Readonly

/-!
# Indexed arrays

The four calls that a script makes on an indexed array, against the elements that
`get_array_keys` and `get_array_values` list.  A new index is listed last, whatever its
number; indices keep their place when they are written again and when others are removed.
`set_array_element` on a scalar forgets the scalar, `append_array` keeps it as element 0.
-/

namespace Wasmsh

open IndexMap Runs

/-! ## 1. The elements of a value -/

/-- The elements of a value with their indices, in the order in which they are listed; a
    scalar that is not empty is its own element 0. -/
def VarValue.view : VarValue → Map Nat String
  | .scalar t => if t = "" then [] else [(0, t)]
  | .indexedArray m => m
  | .assocArray _ => []

/-- A scalar or an indexed array: its indices are different and are machine words. -/
def VarValue.Indexed : VarValue → Prop
  | .scalar _ => True
  | .indexedArray m => (keys m).Nodup ∧ ∀ i ∈ keys m, i < 2 ^ 64
  | .assocArray _ => False

/-- The index after the largest one. -/
def nextArrayIndex (m : Map Nat String) : Nat :=
  match (keys m).max? with
  | some k => k + 1
  | none => 0

/-- Values at consecutive indices. -/
def consecutive (next : Nat) (vs : List String) : Map Nat String :=
  (vs.zipIdx next).map fun e => (e.2, e.1)

namespace VarValue

variable {v : VarValue}

theorem elements_eq (h : v.Indexed) : v.elements = values v.view := by
  cases v with
  | scalar t =>
    simp only [elements, view]
    split
    · rfl
    · rfl
  | indexedArray m => rfl
  | assocArray m => cases h

theorem indices_eq (h : v.Indexed) : v.indices = (keys v.view).map toString := by
  cases v with
  | scalar t =>
    simp only [indices, view]
    split
    · rfl
    · have hzero : toString 0 = "0" := by decide
      rw [keys_cons, keys_nil, List.map_cons, List.map_nil, hzero]
  | indexedArray m => rfl
  | assocArray m => cases h

theorem nodup_keys_view (v : VarValue) (h : v.Indexed) : (keys v.view).Nodup := by
  cases v with
  | scalar t =>
    simp only [view]
    split
    · exact List.nodup_nil
    · simp
  | indexedArray m => exact h.1
  | assocArray m => cases h

theorem lt_of_mem_keys_view (h : v.Indexed) {i : Nat} (hi : i ∈ keys v.view) : i < 2 ^ 64 := by
  cases v with
  | scalar t =>
    simp only [view] at hi
    split at hi
    · cases hi
    · have hzero : i = 0 := List.mem_singleton.mp hi
      rw [hzero]
      decide
  | indexedArray m => exact h.2 i hi
  | assocArray m => cases h

end VarValue

theorem parseUnsigned_lt {bits i : Nat} {s : String} (h : parseUnsigned bits s = some i) :
    i < 2 ^ bits := by
  unfold parseUnsigned at h
  exact of_decide_eq_true (Option.filter_eq_some_iff.mp h).2

/-! ## 2. One write -/

theorem lt_nextArrayIndex {m : Map Nat String} {i : Nat} (hi : i ∈ keys m) :
    i < nextArrayIndex m := by
  unfold nextArrayIndex
  cases hmax : (keys m).max? with
  | none =>
    rw [List.max?_eq_none_iff.mp hmax] at hi
    cases hi
  | some k =>
    have hle := (List.max?_eq_some_iff.mp hmax).2 i hi
    exact Nat.lt_succ_of_le hle

/-- Entries after the largest index are appended. -/
theorem foldl_insert_consecutive (vs : List String) :
    ∀ (m : Map Nat String) (next : Nat), (∀ i ∈ keys m, i < next) →
      (vs.zipIdx next).foldl (fun m e => IndexMap.insert m e.2 e.1) m = m ++ consecutive next vs := by
  induction vs with
  | nil => intro m next _; simp [consecutive]
  | cons v vs ih =>
    intro m next hlt
    have hnew : next ∉ keys m := fun hin => Nat.lt_irrefl _ (hlt next hin)
    rw [List.zipIdx_cons, List.foldl_cons, insert_of_not_mem hnew, ih]
    · rw [consecutive, consecutive, List.zipIdx_cons, List.map_cons, List.append_assoc,
        List.singleton_append]
    · intro i hi
      rw [keys_append, List.mem_append] at hi
      rcases hi with hi | hi
      · exact Nat.lt_succ_of_lt (hlt i hi)
      · rcases List.mem_singleton.mp hi with rfl
        exact Nat.lt_succ_self _

theorem appendToIndexedArray_eq (m : Map Nat String) (vs : List String) :
    appendToIndexedArray m vs = m ++ consecutive (nextArrayIndex m) vs :=
  foldl_insert_consecutive vs m _ fun _ hi => lt_nextArrayIndex hi

theorem keys_consecutive (next : Nat) (vs : List String) :
    keys (consecutive next vs) = List.range' next vs.length := by
  unfold keys consecutive
  rw [List.map_map, ← List.zipIdx_map_snd next vs]
  rfl

namespace VarValue

variable {v : VarValue}

/-- What a write of one element loses: the scalar that was there. -/
def loses (index : String) : VarValue → Bool
  | .scalar t => t ≠ "" && parseUnsigned 64 index ≠ some 0
  | _ => false

theorem indexed_setElement (h : v.Indexed) (index value : String) :
    (v.setElement index value).Indexed := by
  cases hi : parseUnsigned 64 index with
  | none =>
    cases v with
    | scalar t => simp [setElement, hi, Indexed]
    | indexedArray m => simpa only [setElement, hi] using h
    | assocArray m => cases h
  | some i =>
    have hlt := parseUnsigned_lt hi
    cases v with
    | scalar t =>
      simp only [setElement, hi, Indexed, keys_cons, keys_nil, List.mem_singleton, forall_eq]
      exact ⟨List.nodup_singleton i, hlt⟩
    | indexedArray m =>
      simp only [setElement, hi, Indexed]
      refine ⟨nodup_keys_insert h.1 i value, fun j hj => ?_⟩
      rw [keys_insert] at hj
      split at hj
      · exact h.2 j hj
      · rcases List.mem_append.mp hj with hj | hj
        · exact h.2 j hj
        · exact List.mem_singleton.mp hj ▸ hlt
    | assocArray m => cases h

theorem indexed_unsetElement (h : v.Indexed) (index : String) : (v.unsetElement index).Indexed := by
  cases v with
  | scalar t => trivial
  | indexedArray m =>
    cases hi : parseUnsigned 64 index with
    | none => simpa only [unsetElement, hi] using h
    | some i =>
      simp only [unsetElement, hi]
      refine ⟨nodup_keys_remove h.1 i, fun j hj => h.2 j ?_⟩
      rw [keys_remove] at hj
      exact (List.mem_filter.mp hj).1
  | assocArray m => cases h

theorem view_appendElements (h : v.Indexed) (vs : List String) :
    (v.appendElements vs).view = v.view ++ consecutive (nextArrayIndex v.view) vs := by
  cases v with
  | scalar t => exact appendToIndexedArray_eq _ vs
  | indexedArray m => exact appendToIndexedArray_eq m vs
  | assocArray m => cases h

theorem indexed_appendElements (h : v.Indexed) {vs : List String}
    (hfits : nextArrayIndex v.view + vs.length ≤ 2 ^ 64) : (v.appendElements vs).Indexed := by
  have hview := view_appendElements h vs
  have hnext := fun i => @lt_nextArrayIndex v.view i
  have hnodup : (keys (v.appendElements vs).view).Nodup ∧
      ∀ i ∈ keys (v.appendElements vs).view, i < 2 ^ 64 := by
    rw [hview, keys_append, keys_consecutive]
    constructor
    · refine List.nodup_append.mpr ⟨nodup_keys_view v h, List.nodup_range', ?_⟩
      intro a ha b hb hab
      have hlt := hnext a ha
      have hle := (List.mem_range'_1.mp hb).1
      omega
    · intro i hi
      rcases List.mem_append.mp hi with hi | hi
      · exact lt_of_mem_keys_view h hi
      · have hlt := (List.mem_range'_1.mp hi).2
        omega
  cases v with
  | scalar t => exact hnodup
  | indexedArray m => exact hnodup
  | assocArray m => cases h

/-- A write of one element leaves the others where they are. -/
theorem get_setElement (h : v.Indexed) {index : String} (value : String)
    (hloses : v.loses index = false) {j : Nat} (hj : parseUnsigned 64 index ≠ some j) :
    get (v.setElement index value).view j = get v.view j := by
  cases v with
  | scalar t =>
    cases hi : parseUnsigned 64 index with
    | none =>
      have ht : t = "" := by simpa [loses, hi] using hloses
      subst ht
      simp [setElement, hi, view]
    | some i =>
      have hne : i ≠ j := fun heq => hj (hi.trans (congrArg some heq))
      simp only [setElement, hi, view, get_cons, if_neg hne]
      split
      · rfl
      · next ht =>
        have hzero : i = 0 := by simpa [loses, hi, ht] using hloses
        rw [get_cons, if_neg (hzero ▸ hne)]
  | indexedArray m =>
    cases hi : parseUnsigned 64 index with
    | none => simp only [setElement, hi, view]
    | some i =>
      have hne : i ≠ j := fun heq => hj (hi.trans (congrArg some heq))
      simp only [setElement, hi, view, get_insert, if_neg hne]
  | assocArray m => cases h

/-- Indices keep their order; a new one is last. -/
theorem keys_setElement (h : v.Indexed) {index : String} (value : String)
    (hloses : v.loses index = false) :
    keys (v.setElement index value).view = keys v.view ∨
      ∃ i, parseUnsigned 64 index = some i ∧ i ∉ keys v.view ∧
        keys (v.setElement index value).view = keys v.view ++ [i] := by
  cases hi : parseUnsigned 64 index with
  | none =>
    left
    cases v with
    | scalar t =>
      have ht : t = "" := by simpa [loses, hi] using hloses
      subst ht
      simp [setElement, hi, view]
    | indexedArray m => simp only [setElement, hi, view]
    | assocArray m => cases h
  | some i =>
    cases v with
    | scalar t =>
      by_cases ht : t = ""
      · exact .inr ⟨i, rfl, by simp [view, ht], by simp [setElement, hi, view, ht]⟩
      · have hzero : i = 0 := by simpa [loses, hi, ht] using hloses
        exact .inl (by simp [setElement, hi, view, ht, hzero])
    | indexedArray m =>
      simp only [setElement, hi, view, keys_insert]
      by_cases hin : i ∈ keys m
      · exact .inl (if_pos hin)
      · exact .inr ⟨i, rfl, hin, if_neg hin⟩
    | assocArray m => cases h

theorem get_unsetElement (h : v.Indexed) {index : String} {j : Nat}
    (hj : parseUnsigned 64 index ≠ some j) : get (v.unsetElement index).view j = get v.view j := by
  cases v with
  | scalar t =>
    simp only [unsetElement]
    split
    · next hindex =>
      have hzero : parseUnsigned 64 index = some 0 := by
        rw [hindex]
        decide +kernel
      have hne : 0 ≠ j := fun heq => hj (hzero.trans (congrArg some heq))
      simp only [view, if_true]
      split
      · rfl
      · rw [get_cons, if_neg hne]
    · rfl
  | indexedArray m =>
    cases hi : parseUnsigned 64 index with
    | none => simp only [unsetElement, hi, view]
    | some i =>
      have hne : i ≠ j := fun heq => hj (hi.trans (congrArg some heq))
      simp only [unsetElement, hi, view, get_remove, if_neg hne]
  | assocArray m => cases h

theorem keys_unsetElement (h : v.Indexed) (index : String) :
    (keys (v.unsetElement index).view).Sublist (keys v.view) := by
  cases v with
  | scalar t =>
    simp only [unsetElement]
    split
    · exact List.nil_sublist _
    · exact List.Sublist.refl _
  | indexedArray m =>
    cases hi : parseUnsigned 64 index with
    | none =>
      simp only [unsetElement, hi, view]
      exact List.Sublist.refl _
    | some i =>
      simp only [unsetElement, hi, view, keys_remove]
      exact List.filter_sublist
  | assocArray m => cases h

end VarValue

/-! ## 3. The calls -/

/-- A call on one variable. -/
inductive ArrayCall where
  | setArrayElement (index value : String)
  | appendArray (values : List String)
  | unsetArrayElement (index : String)
  | setVar (value : String)
  deriving DecidableEq, Repr

def ArrayCall.mutator (name : String) : ArrayCall → Mutator
  | .setArrayElement index value => .setArrayElement name index value
  | .appendArray values => .appendArray name values
  | .unsetArrayElement index => .unsetArrayElement name index
  | .setVar value => .setVar name value

/-- The state after a call on `name`. -/
def ArrayCall.step (name : String) (s : Option ShellState) (c : ArrayCall) : Option ShellState :=
  Mutator.step s (c.mutator name)

namespace ShellState

variable {s t : ShellState} {name : String}

/-- The value of a variable; one that is not there is an empty array. -/
def valueOf (s : ShellState) (name : String) : VarValue :=
  ((s.env.get name).map (·.value)).getD (.indexedArray [])

/-- The elements of a variable, in the order in which they are listed. -/
def array (s : ShellState) (name : String) : Map Nat String := (s.valueOf name).view

theorem valueOf_of_get {v : ShellVar} (hget : s.env.get name = some v) :
    s.valueOf name = v.value := by
  simp [valueOf, hget]

theorem getArrayKeys_eq : s.getArrayKeys name = (s.valueOf name).indices := by
  unfold getArrayKeys valueOf
  cases s.env.get name with
  | none => rfl
  | some v => rfl

theorem getArrayValues_eq : s.getArrayValues name = (s.valueOf name).elements := by
  unfold getArrayValues valueOf
  cases s.env.get name with
  | none => rfl
  | some v => rfl

/-- The array writers change the value where it stands, unless it is readonly. -/
theorem valueOf_arrayWrite {f : VarValue → VarValue} {fresh : ShellState}
    (hfresh : s.env.get name = none → fresh.valueOf name = f (.indexedArray []))
    (hwrite : t = match s.env.get name with
      | some old =>
        if old.readonly then s else s.updateEntry name fun v => { v with value := f v.value }
      | none => fresh) :
    t.valueOf name = if s.isVarReadonly name then s.valueOf name else f (s.valueOf name) := by
  subst hwrite
  cases hget : s.env.get name with
  | none =>
    rw [isVarReadonly_eq, hget]
    exact (hfresh hget).trans (by simp [valueOf, hget])
  | some v =>
    rw [isVarReadonly_eq, hget, valueOf_of_get hget]
    dsimp only
    cases hro : v.readonly with
    | true => simp [valueOf_of_get hget, hro]
    | false => simp [valueOf, get_updateEntry, hget, hro]

theorem valueOf_setEntry (v : ShellVar) : (s.setEntry name v).valueOf name = v.value :=
  valueOf_of_get (by rw [get_setEntry, if_pos rfl])

theorem valueOf_setArrayElement (index value : String) :
    (s.setArrayElement name index value).valueOf name =
      if s.isVarReadonly name then s.valueOf name
      else (s.valueOf name).setElement index value :=
  valueOf_arrayWrite (fun _ => valueOf_setEntry _) rfl

theorem valueOf_appendArray (values : List String) :
    (s.appendArray name values).valueOf name =
      if s.isVarReadonly name then s.valueOf name else (s.valueOf name).appendElements values :=
  valueOf_arrayWrite (fun _ => valueOf_setEntry _) rfl

theorem valueOf_unsetArrayElement (index : String) :
    (s.unsetArrayElement name index).valueOf name =
      if s.isVarReadonly name then s.valueOf name else (s.valueOf name).unsetElement index := by
  refine valueOf_arrayWrite (fun hnone => ?_) rfl
  rw [valueOf, hnone]
  unfold VarValue.unsetElement
  cases parseUnsigned 64 index with
  | none => rfl
  | some i => rfl

/-- `set_var` writes a scalar, here or, through a nameref, elsewhere. -/
theorem valueOf_setVar {value : String} (hset : s.setVar name value = some t) :
    t.valueOf name = s.valueOf name ∨ t.valueOf name = .scalar value := by
  rw [setVar_eq, Option.map_eq_some_iff] at hset
  rcases hset with ⟨target, -, rfl⟩
  by_cases hn : target = name
  · subst hn
    cases hro : s.isVarReadonly target with
    | true => exact .inl (by rw [writeVar_of_readonly hro])
    | false =>
      right
      rw [writeVar_eq hro, valueOf_setEntry]
      rfl
  · left
    unfold valueOf
    rw [get_writeVar_of_ne hn]

/-! ## 4. Runs -/

/-- The indices of an appended list are machine words. -/
def fits (s : ShellState) (name : String) : ArrayCall → Prop
  | .appendArray values => nextArrayIndex (s.array name) + values.length ≤ 2 ^ 64
  | _ => True

instance (c : ArrayCall) : Decidable (s.fits name c) := by
  unfold fits
  cases c <;> infer_instance

/-- The indices and the values that a script sees are those of one list of elements. -/
def Listed (s : ShellState) (name : String) : Prop :=
  s.getArrayKeys name = (keys (s.array name)).map toString ∧
    s.getArrayValues name = values (s.array name) ∧ (keys (s.array name)).Nodup ∧
    ∀ i ∈ keys (s.array name), i < 2 ^ 64

/-- What a call does to the elements of the variable. -/
def Moves (s t : ShellState) (name : String) : ArrayCall → Prop
  | .setArrayElement index _ => (s.valueOf name).loses index = false →
      (∀ j, parseUnsigned 64 index ≠ some j → get (t.array name) j = get (s.array name) j) ∧
      (keys (t.array name) = keys (s.array name) ∨
        ∃ i, parseUnsigned 64 index = some i ∧ i ∉ keys (s.array name) ∧
          keys (t.array name) = keys (s.array name) ++ [i])
  | .appendArray values => s.isVarReadonly name = false →
      t.array name = s.array name ++ consecutive (nextArrayIndex (s.array name)) values
  | .unsetArrayElement index =>
    (∀ j, parseUnsigned 64 index ≠ some j → get (t.array name) j = get (s.array name) j) ∧
    (keys (t.array name)).Sublist (keys (s.array name))
  | .setVar _ => (∀ i ∈ keys (s.array name), i = 0) →
      ∀ j, j ≠ 0 → get (t.array name) j = get (s.array name) j

theorem listed_of_indexed (h : (s.valueOf name).Indexed) : s.Listed name := by
  refine ⟨?_, ?_, VarValue.nodup_keys_view _ h, fun i hi => VarValue.lt_of_mem_keys_view h hi⟩
  · rw [getArrayKeys_eq, VarValue.indices_eq h]
    rfl
  · rw [getArrayValues_eq, VarValue.elements_eq h]
    rfl

theorem step_setVar (value : String) :
    (ArrayCall.setVar value).step name (some s) = s.setVar name value := by
  simp only [ArrayCall.step, ArrayCall.mutator, Mutator.step, Mutator.call, Option.bind_some,
    Option.map_map]
  exact Option.map_id' ..

theorem indexed_call (h : (s.valueOf name).Indexed) {c : ArrayCall} (hfits : s.fits name c)
    (hcall : c.step name (some s) = some t) : (t.valueOf name).Indexed := by
  cases c with
  | setArrayElement index value =>
    cases hcall
    rw [valueOf_setArrayElement]
    split
    · exact h
    · exact VarValue.indexed_setElement h index value
  | appendArray values =>
    cases hcall
    rw [valueOf_appendArray]
    split
    · exact h
    · exact VarValue.indexed_appendElements h hfits
  | unsetArrayElement index =>
    cases hcall
    rw [valueOf_unsetArrayElement]
    split
    · exact h
    · exact VarValue.indexed_unsetElement h index
  | setVar value =>
    rcases valueOf_setVar (step_setVar value ▸ hcall) with heq | heq
    · exact heq ▸ h
    · exact heq ▸ trivial

theorem moves_call (h : (s.valueOf name).Indexed) {c : ArrayCall}
    (hcall : c.step name (some s) = some t) : s.Moves t name c := by
  cases c with
  | setArrayElement index value =>
    cases hcall
    intro hloses
    unfold array
    rw [valueOf_setArrayElement]
    split
    · exact ⟨fun _ _ => rfl, .inl rfl⟩
    · exact ⟨fun j hj => VarValue.get_setElement h value hloses hj,
        VarValue.keys_setElement h value hloses⟩
  | appendArray values =>
    cases hcall
    intro hro
    unfold array
    rw [valueOf_appendArray, hro, if_neg Bool.false_ne_true, VarValue.view_appendElements h]
  | unsetArrayElement index =>
    cases hcall
    simp only [Moves, array, valueOf_unsetArrayElement]
    split
    · exact ⟨fun _ _ => rfl, List.Sublist.refl _⟩
    · exact ⟨fun j hj => VarValue.get_unsetElement h hj, VarValue.keys_unsetElement h index⟩
  | setVar value =>
    intro hzero j hj
    have hbefore : get (s.array name) j = none :=
      get_eq_none_of_not_mem fun hin => hj (hzero j hin)
    rw [hbefore]
    rcases valueOf_setVar (step_setVar value ▸ hcall) with heq | heq
    · unfold array at hbefore ⊢
      exact heq ▸ hbefore
    · unfold array
      rw [heq]
      simp only [VarValue.view]
      split
      · rfl
      · rw [get_cons, if_neg hj.symm]
        rfl

/-- **Indexed arrays.**  In a run of calls on a variable that is no associative array, whose
    appended indices are machine words: the indices that are listed are different and the
    values are listed in their order; a call on one index leaves the elements at the others
    where they are, a new index being listed last; and appended values follow at consecutive
    indices after the largest one. -/
theorem indexed_array_runs (hstart : (s.valueOf name).Indexed) (cs : List ArrayCall)
    (hfits : ∀ c ∈ calls (ArrayCall.step name) (some s) cs, ∀ t, c.1 = some t → t.fits name c.2) :
    (∀ t, some t ∈ states (ArrayCall.step name) (some s) cs → t.Listed name) ∧
      ∀ c ∈ calls (ArrayCall.step name) (some s) cs, ∀ t t', c.1 = some t →
        c.2.step name c.1 = some t' → t.Moves t' name c.2 := by
  have hindexed : ∀ o ∈ states (ArrayCall.step name) (some s) cs,
      ∀ t, o = some t → (t.valueOf name).Indexed := by
    apply states_induct
    · rintro t ht
      cases ht
      exact hstart
    · rintro ⟨before, c⟩ hc hbefore t ht
      cases before with
      | none => cases ht
      | some s' => exact indexed_call (hbefore s' rfl) (hfits _ hc s' rfl) ht
  constructor
  · intro t ht
    exact listed_of_indexed (hindexed _ ht t rfl)
  · rintro ⟨before, c⟩ hc t t' ht hstep
    cases ht
    exact moves_call (hindexed _ (mem_states_of_mem_calls hc).1 t rfl) hstep

theorem indexed_array_set_append :
    (new.valueOf "a").Indexed ∧
      ∀ t, some t ∈ states (ArrayCall.step "a") (some new)
        [.setVar "s", .appendArray ["x", "y"], .setArrayElement "7" "z"] → t.Listed "a" := by
  have hstart : (new.valueOf "a").Indexed := ⟨List.nodup_nil, fun _ h => nomatch h⟩
  refine ⟨hstart, (@indexed_array_runs new "a" hstart _ ?_).1⟩
  have hfits : ∀ c ∈ calls (ArrayCall.step "a") (some new)
      [.setVar "s", .appendArray ["x", "y"], .setArrayElement "7" "z"],
      c.1.all (fun t => decide (t.fits "a" c.2)) = true := by decide +kernel
  intro c hc t ht
  have hall := hfits c hc
  rw [ht] at hall
  exact of_decide_eq_true hall

/-- The indices are listed in the order in which they were set, and the first element that is
    set on a scalar takes its place. -/
theorem indexed_array_not_sorted :
    (Mutator.step (Mutator.step (some new) (.setArrayElement "a" "2" "x"))
        (.setArrayElement "a" "0" "y")).map (·.getArrayKeys "a") = some ["2", "0"] ∧
      (Mutator.step (Mutator.step (some new) (.setVar "a" "s"))
        (.setArrayElement "a" "1" "x")).map (·.getArrayKeys "a") = some ["1"] := by
  decide +kernel

end ShellState

end Wasmsh

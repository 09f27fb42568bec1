import Mathlib.Data.List.Basic

/-!
# Insertion-ordered maps

A map that remembers the order in which its keys were first inserted: inserting an
existing key replaces the value in place, removing a key keeps the order of the others.
-/

namespace IndexMap

variable {α β : Type} [DecidableEq α]

/-- An insertion-ordered map, as the list of its entries. -/
abbrev Map (α β : Type) := List (α × β)

def get (m : Map α β) (k : α) : Option β := (m.find? (fun e => e.1 = k)).map (·.2)

/-- Replace in place, or append at the end. -/
def insert : Map α β → α → β → Map α β
  | [], k, v => [(k, v)]
  | (k', v') :: m, k, v => if k' = k then (k, v) :: m else (k', v') :: insert m k v

/-- `shift_remove`. -/
def remove (m : Map α β) (k : α) : Map α β := m.filter (·.1 ≠ k)

def contains (m : Map α β) (k : α) : Bool := (get m k).isSome

def keys (m : Map α β) : List α := m.map (·.1)

def values (m : Map α β) : List β := m.map (·.2)

/-- Apply `f` to the value of one key. -/
def modify : Map α β → α → (β → β) → Map α β
  | [], _, _ => []
  | (k', v') :: m, k, f => if k' = k then (k', f v') :: m else (k', v') :: modify m k f

omit [DecidableEq α] in
@[simp] theorem values_nil : values ([] : Map α β) = [] := rfl

omit [DecidableEq α] in
@[simp] theorem values_cons (e : α × β) (m : Map α β) : values (e :: m) = e.2 :: values m := rfl

@[simp] theorem get_nil (k : α) : get ([] : Map α β) k = none := rfl

theorem get_cons (k' : α) (v' : β) (m : Map α β) (k : α) :
    get ((k', v') :: m) k = if k' = k then some v' else get m k := by
  by_cases h : k' = k
  · simp [get, h]
  · simp [get, h]

theorem get_insert (m : Map α β) (k : α) (v : β) (k₁ : α) :
    get (insert m k v) k₁ = if k = k₁ then some v else get m k₁ := by
  induction m with
  | nil => simp [insert, get_cons]
  | cons e m ih =>
    rcases e with ⟨k', v'⟩
    by_cases hk : k' = k
    · subst hk
      by_cases h₁ : k' = k₁ <;> simp [insert, get_cons, h₁]
    · by_cases h₁ : k' = k₁
      · subst h₁
        simp [insert, get_cons, hk, Ne.symm hk]
      · simp [insert, get_cons, hk, h₁, ih]

/-- A new key goes to the end. -/
theorem insert_of_not_mem {m : Map α β} {k : α} (hk : k ∉ keys m) (v : β) :
    insert m k v = m ++ [(k, v)] := by
  induction m with
  | nil => rfl
  | cons e m ih =>
    rcases e with ⟨k', v'⟩
    simp only [keys, List.map_cons, List.mem_cons, not_or] at hk
    have hne : k' ≠ k := fun h => hk.1 h.symm
    rw [insert, if_neg hne, ih hk.2, List.cons_append]

theorem get_remove (m : Map α β) (k k₁ : α) :
    get (remove m k) k₁ = if k = k₁ then none else get m k₁ := by
  induction m with
  | nil => simp [remove]
  | cons e m ih =>
    rcases e with ⟨k', v'⟩
    by_cases hk : k' = k
    · have hcons : remove ((k', v') :: m) k = remove m k := by simp [remove, hk]
      rw [hcons, ih, get_cons]
      by_cases h₁ : k = k₁ <;> simp [hk, h₁]
    · have hcons : remove ((k', v') :: m) k = (k', v') :: remove m k := by simp [remove, hk]
      rw [hcons, get_cons, ih, get_cons]
      by_cases h₁ : k' = k₁
      · have hne : k ≠ k₁ := fun h => hk (h₁.trans h.symm)
        simp [h₁, hne]
      · simp [h₁]

theorem get_modify (m : Map α β) (k : α) (f : β → β) (k₁ : α) :
    get (modify m k f) k₁ = if k = k₁ then (get m k).map f else get m k₁ := by
  induction m with
  | nil => simp [modify]
  | cons e m ih =>
    rcases e with ⟨k', v'⟩
    by_cases hk : k' = k
    · subst hk
      by_cases h₁ : k' = k₁ <;> simp [modify, get_cons, h₁]
    · by_cases h₁ : k' = k₁
      · subst h₁
        simp [modify, get_cons, hk, Ne.symm hk]
      · simp [modify, get_cons, hk, h₁, ih]

theorem contains_insert (m : Map α β) (k : α) (v : β) : contains (insert m k v) k = true := by
  simp [contains, get_insert]

theorem contains_modify (m : Map α β) (k : α) (f : β → β) :
    contains (modify m k f) k = contains m k := by
  induction m with
  | nil => rfl
  | cons e m ih =>
    rcases e with ⟨k', v'⟩
    by_cases hk : k' = k
    · simp [modify, contains, get_cons, hk]
    · simpa [modify, contains, get_cons, hk] using ih

omit [DecidableEq α] in
@[simp] theorem keys_nil : keys ([] : Map α β) = [] := rfl

omit [DecidableEq α] in
@[simp] theorem keys_cons (e : α × β) (m : Map α β) : keys (e :: m) = e.1 :: keys m := rfl

omit [DecidableEq α] in
@[simp] theorem keys_append (m m' : Map α β) : keys (m ++ m') = keys m ++ keys m' :=
  List.map_append

theorem get_eq_none_of_not_mem {m : Map α β} {k : α} (hk : k ∉ keys m) :
    get m k = none := by
  induction m with
  | nil => rfl
  | cons e m ih =>
    rw [keys_cons, List.mem_cons, not_or] at hk
    rcases e with ⟨k', v⟩
    rw [get_cons, if_neg (fun heq => hk.1 heq.symm), ih hk.2]

/-- A key that is there keeps its place, a new one goes to the end. -/
theorem keys_insert (m : Map α β) (k : α) (v : β) :
    keys (insert m k v) = if k ∈ keys m then keys m else keys m ++ [k] := by
  induction m with
  | nil => rfl
  | cons e m ih =>
    rcases e with ⟨k', v'⟩
    by_cases hk : k' = k
    · simp [insert, hk]
    · by_cases hin : k ∈ keys m
      · simp [insert, hk, ih, hin]
      · simp [insert, hk, Ne.symm hk, ih, hin]

theorem nodup_keys_insert {m : Map α β} (h : (keys m).Nodup) (k : α) (v : β) :
    (keys (insert m k v)).Nodup := by
  rw [keys_insert]
  split
  · exact h
  · next hk => exact List.nodup_append.mpr ⟨h, by simp, by
      intro a ha b hb hab
      rw [List.mem_singleton.mp hb] at hab
      exact hk (hab ▸ ha)⟩

theorem keys_remove (m : Map α β) (k : α) : keys (remove m k) = (keys m).filter (· ≠ k) := by
  unfold keys remove
  rw [List.filter_map]
  rfl

theorem nodup_keys_remove {m : Map α β} (h : (keys m).Nodup) (k : α) :
    (keys (remove m k)).Nodup := by
  rw [keys_remove]
  exact h.filter _

end IndexMap

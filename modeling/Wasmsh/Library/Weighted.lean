import Mathlib.Algebra.GroupWithZero.Nat
import Mathlib.Data.List.AList

/-!
# Weighted maps

A finite map whose values have a weight: what an insertion and a removal do to the sum of
the weights and to the number of entries.
-/

namespace Weighted

variable {α β : Type} [DecidableEq α] (w : β → Nat)

/-- The sum of the weights. -/
def total (m : AList fun _ : α => β) : Nat := (m.entries.map fun e => w e.2).sum

/-- The weight under a key, zero when there is none. -/
def weightAt (m : AList fun _ : α => β) (k : α) : Nat := ((m.lookup k).map w).getD 0

/-- The number of entries. -/
def count (m : AList fun _ : α => β) : Nat := m.entries.length

variable {w}

theorem sum_kerase (l : List (Sigma fun _ : α => β)) (k : α) :
    ((l.kerase k).map fun e => w e.2).sum + ((l.dlookup k).map w).getD 0 =
      (l.map fun e => w e.2).sum := by
  induction l with
  | nil => rfl
  | cons e l ih =>
    by_cases hk : k = e.1
    · subst hk
      rw [List.kerase_cons_eq rfl, List.dlookup_cons_eq, List.map_cons, List.sum_cons,
        Option.map_some, Option.getD_some, Nat.add_comm]
    · rw [List.kerase_cons_ne hk, List.dlookup_cons_ne l e hk, List.map_cons, List.map_cons,
        List.sum_cons, List.sum_cons, Nat.add_assoc, ih]

theorem total_erase (m : AList fun _ : α => β) (k : α) :
    total w (m.erase k) + weightAt w m k = total w m := sum_kerase m.entries k

theorem total_insert (m : AList fun _ : α => β) (k : α) (v : β) :
    total w (m.insert k v) + weightAt w m k = total w m + w v := by
  have herase := @total_erase _ _ _ w m k
  have hinsert : total w (m.insert k v) = w v + total w (m.erase k) := by
    rw [total, AList.entries_insert, List.map_cons, List.sum_cons]
    rfl
  omega

theorem weightAt_le_total (m : AList fun _ : α => β) (k : α) : weightAt w m k ≤ total w m := by
  have herase := @total_erase _ _ _ w m k
  omega

omit w in
theorem erase_of_not_mem {m : AList fun _ : α => β} {k : α} (h : k ∉ m) : m.erase k = m :=
  AList.ext (List.kerase_of_notMem_keys h)

theorem weightAt_of_lookup {m : AList fun _ : α => β} {k : α} {v : β} (h : m.lookup k = some v) :
    weightAt w m k = w v := by
  rw [weightAt, h, Option.map_some, Option.getD_some]

theorem weightAt_of_not_mem {m : AList fun _ : α => β} {k : α} (h : k ∉ m) :
    weightAt w m k = 0 := by
  rw [weightAt, AList.lookup_eq_none.mpr h]
  rfl

omit [DecidableEq α] in
theorem count_eq_length_keys (m : AList fun _ : α => β) : count m = m.keys.length := by
  rw [count, AList.keys, List.keys, List.length_map]

theorem count_erase_le (m : AList fun _ : α => β) (k : α) : count (m.erase k) ≤ count m := by
  rw [count_eq_length_keys, count_eq_length_keys, AList.keys_erase]
  exact List.length_erase_le

theorem count_insert_of_not_mem {m : AList fun _ : α => β} {k : α} (h : k ∉ m) (v : β) :
    count (m.insert k v) = count m + 1 := by
  rw [count, AList.entries_insert_of_notMem h]
  rfl

theorem count_insert_of_mem {m : AList fun _ : α => β} {k : α} (h : k ∈ m) (v : β) :
    count (m.insert k v) = count m := by
  rw [count_eq_length_keys, count_eq_length_keys, AList.keys_insert, List.length_cons,
    List.length_erase_of_mem (AList.mem_keys.mp h)]
  exact Nat.succ_pred_eq_of_pos (List.length_pos_of_mem (AList.mem_keys.mp h))

end Weighted

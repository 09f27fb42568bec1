import Wasmsh.FsLimits

/-!
# The loops over the directories above an entry

How many directories such a loop makes and where it stops: it makes those that are missing,
one after the other, and gives up at the inode limit with those made so far.
-/

namespace Wasmsh.Fs

open Weighted

variable {ps : List Path}

/-! ## 1. Missing directories -/

/-- The number of paths where there is nothing. -/
def missing (ps : List Path) (nodes : Nodes) : Nat := ps.countP (· ∉ nodes)

theorem missing_eq_zero {nodes : Nodes} :
    missing ps nodes = 0 ↔ ∀ p ∈ ps, p ∈ nodes := by
  rw [missing, List.countP_eq_zero]
  constructor
  · intro h p hp
    simpa using h p hp
  · intro h p hp
    simpa using h p hp

theorem missing_cons_of_mem {p : Path} {nodes : Nodes} (h : p ∈ nodes) (ps : List Path) :
    missing (p :: ps) nodes = missing ps nodes :=
  List.countP_cons_of_neg (by simpa using h)

theorem missing_cons_of_not_mem {p : Path} {nodes : Nodes} (h : p ∉ nodes) (ps : List Path) :
    missing (p :: ps) nodes = missing ps nodes + 1 :=
  List.countP_cons_of_pos (by simpa using h)

/-- An entry at a path that is not in the list makes no difference. -/
theorem missing_insert {p : Path} (h : p ∉ ps) (node : FsNode) (nodes : Nodes) :
    missing ps (nodes.insert p node) = missing ps nodes := by
  apply List.countP_congr
  intro q hq
  have hne : q ≠ p := fun heq => h (heq ▸ hq)
  simp [AList.mem_insert, hne]

/-- The paths above an entry are all different: each is longer than the one before. -/
theorem nodup_pathsFrom (current : Path) (parts : List Path) :
    (pathsFrom current parts).Nodup := by
  induction parts generalizing current with
  | nil => exact List.nodup_nil
  | cons part parts ih =>
    refine List.nodup_cons.mpr ⟨?_, ih _⟩
    intro hmem
    rcases mem_pathsFrom.mp hmem with ⟨before, hne, -, heq⟩
    cases before with
    | nil => contradiction
    | cons first before =>
      rw [joinPath_cons] at heq
      have hlen := congrArg List.length heq
      simp only [List.length_append, List.length_cons] at hlen
      omega

theorem nodup_parentPaths (path : Path) : (parentPaths path).Nodup := nodup_pathsFrom _ _

/-! ## 2. `ensure_parents` -/

/-- Without room nothing is made. -/
theorem ensureParents_full {nodes : Nodes} (hfull : maxInodes ≤ nodes.count) :
    (ensureParents ps nodes).2 = nodes := by
  induction ps with
  | nil => rfl
  | cons p ps ih =>
    rw [ensureParents, if_pos hfull]
    split
    · exact ih
    · rfl

theorem ensureParents_present {nodes : Nodes} (h : ∀ p ∈ ps, p ∈ nodes) :
    ensureParents ps nodes = (.ok (), nodes) := by
  induction ps with
  | nil => rfl
  | cons p ps ih =>
    rw [ensureParents, if_pos (h p (.head _))]
    exact ih fun q hq => h q (.tail _ hq)

/-- With room for all that are missing, they are made. -/
theorem ensureParents_room (hnodup : ps.Nodup) {nodes : Nodes}
    (hroom : nodes.count + missing ps nodes ≤ maxInodes) :
    (ensureParents ps nodes).1 = .ok () ∧
      (ensureParents ps nodes).2.count = nodes.count + missing ps nodes := by
  induction ps generalizing nodes with
  | nil => exact ⟨rfl, rfl⟩
  | cons p ps ih =>
    rcases List.nodup_cons.mp hnodup with ⟨hp, hps⟩
    unfold ensureParents
    split
    · next hmem =>
      rw [missing_cons_of_mem hmem] at hroom ⊢
      exact ih hps hroom
    · next hmem =>
      rw [missing_cons_of_not_mem hmem] at hroom ⊢
      have hcount : Nodes.count (nodes.insert p .dir) = nodes.count + 1 :=
        count_insert_of_not_mem hmem _
      have hsame := missing_insert hp .dir nodes
      rw [if_neg (by omega)]
      rcases @ih hps (nodes.insert p .dir) (by omega) with ⟨hok, hafter⟩
      exact ⟨hok, by omega⟩

/-- Without room for all of them it stops at the limit. -/
theorem ensureParents_short (hnodup : ps.Nodup) {nodes : Nodes}
    (hle : nodes.count ≤ maxInodes) (hshort : maxInodes < nodes.count + missing ps nodes) :
    (ensureParents ps nodes).1 = .error inodeLimit ∧
      (ensureParents ps nodes).2.count = maxInodes := by
  induction ps generalizing nodes with
  | nil => exact absurd hshort (Nat.not_lt.mpr hle)
  | cons p ps ih =>
    rcases List.nodup_cons.mp hnodup with ⟨hp, hps⟩
    unfold ensureParents
    split
    · next hmem =>
      rw [missing_cons_of_mem hmem] at hshort
      exact ih hps hle hshort
    · next hmem =>
      rw [missing_cons_of_not_mem hmem] at hshort
      split
      · next hfull => exact ⟨rfl, Nat.le_antisymm hle hfull⟩
      · next hroom =>
        have hcount : Nodes.count (nodes.insert p .dir) = nodes.count + 1 :=
          count_insert_of_not_mem hmem _
        have hsame := missing_insert hp .dir nodes
        exact ih hps (by omega) (by omega)

/-- What is there already is passed over. -/
theorem ensureParents_append {before after : List Path} {nodes : Nodes}
    (h : ∀ p ∈ before, p ∈ nodes) :
    ensureParents (before ++ after) nodes = ensureParents after nodes := by
  induction before with
  | nil => rfl
  | cons p before ih =>
    rw [List.cons_append, ensureParents, if_pos (h p (.head _))]
    exact ih fun q hq => h q (.tail _ hq)

/-- The loop ends well with room for all of them, and at the limit otherwise; it leaves the
    nodes as they are when nothing is missing or there is no room at all. -/
theorem ensureParents_cases (hnodup : ps.Nodup) {nodes : Nodes} (hle : nodes.count ≤ maxInodes) :
    ∃ after, (after = nodes ↔ missing ps nodes = 0 ∨ maxInodes ≤ nodes.count) ∧
      ((ensureParents ps nodes = (.ok (), after) ∧ after.count = nodes.count + missing ps nodes ∧
          nodes.count + missing ps nodes ≤ maxInodes) ∨
        (ensureParents ps nodes = (.error inodeLimit, after) ∧
          maxInodes < nodes.count + missing ps nodes)) := by
  refine ⟨(ensureParents ps nodes).2, ?_, ?_⟩
  · constructor
    · intro hsame
      by_cases hroom : nodes.count + missing ps nodes ≤ maxInodes
      · have hcount := (ensureParents_room hnodup hroom).2
        rw [hsame] at hcount
        left
        omega
      · have hcount := (ensureParents_short hnodup hle (Nat.lt_of_not_le hroom)).2
        rw [hsame] at hcount
        exact Or.inr hcount.ge
    · rintro (hnone | hfull)
      · rw [ensureParents_present (missing_eq_zero.mp hnone)]
      · exact ensureParents_full hfull
  · by_cases hroom : nodes.count + missing ps nodes ≤ maxInodes
    · rcases ensureParents_room hnodup hroom with ⟨hok, hcount⟩
      exact Or.inl ⟨Prod.ext hok rfl, hcount, hroom⟩
    · have hshort := Nat.lt_of_not_le hroom
      exact Or.inr ⟨Prod.ext (ensureParents_short hnodup hle hshort).1 rfl, hshort⟩

/-! ## 3. The loop of `symlink` -/

/-- There is something at the path, and no directory. -/
def blocked (nodes : Nodes) (p : Path) : Bool :=
  decide (p ∈ nodes) && decide (nodes.lookup p ≠ some .dir)

/-- The paths before the first that is in the way. -/
def ahead (ps : List Path) (nodes : Nodes) : List Path := ps.takeWhile (!blocked nodes ·)

/-- The path that is in the way first. -/
def firstBlocked (ps : List Path) (nodes : Nodes) : Option Path := ps.find? (blocked nodes ·)

/-- A new directory is in nobody's way, and there was nothing before. -/
theorem blocked_insert_dir {nodes : Nodes} {p : Path} (h : p ∉ nodes) :
    blocked (nodes.insert p .dir) = blocked nodes := by
  funext q
  unfold blocked
  by_cases hq : q = p
  · subst hq
    rw [AList.lookup_insert]
    simp [h]
  · rw [AList.lookup_insert_ne hq]
    simp [AList.mem_insert, hq]

/-- `symlink` makes directories up to the first that is in the way. -/
theorem ensureParentDirs_eq (ps : List Path) (nodes : Nodes) :
    ensureParentDirs ps nodes =
      match ensureParents (ahead ps nodes) nodes, firstBlocked ps nodes with
      | (.error e, after), _ => (.error e, after)
      | (.ok (), after), some p => (.error (.notADirectory p), after)
      | (.ok (), after), none => (.ok (), after) := by
  induction ps generalizing nodes with
  | nil => rfl
  | cons p ps ih =>
    unfold ensureParentDirs
    split
    · next hdir =>
      have hp : p ∈ nodes := by
        rw [← AList.lookup_isSome, hdir]
        rfl
      have hfree : blocked nodes p = false := by
        simp [blocked, hdir]
      have hahead : ahead (p :: ps) nodes = p :: ahead ps nodes :=
        List.takeWhile_cons_of_pos (by simp [hfree])
      have hfirst : firstBlocked (p :: ps) nodes = firstBlocked ps nodes :=
        List.find?_cons_of_neg (by simp [hfree])
      rw [ih, hahead, hfirst, ensureParents, if_pos hp]
    · next node hnode hne =>
      have hp : p ∈ nodes := by
        rw [← AList.lookup_isSome, hne]
        rfl
      have hblocked : blocked nodes p = true := by
        have hdir : node ≠ .dir := hnode
        simp [blocked, hp, hne, hdir]
      have hahead : ahead (p :: ps) nodes = [] :=
        List.takeWhile_cons_of_neg (by simp [hblocked])
      have hfirst : firstBlocked (p :: ps) nodes = some p :=
        List.find?_cons_of_pos hblocked
      rw [hahead, hfirst]
      rfl
    · next hnone =>
      have hp := AList.lookup_eq_none.mp hnone
      have hfree : blocked nodes p = false := by
        simp [blocked, hp]
      have hahead : ahead (p :: ps) nodes = p :: ahead ps nodes :=
        List.takeWhile_cons_of_pos (by simp [hfree])
      have hfirst : firstBlocked (p :: ps) nodes = firstBlocked ps nodes :=
        List.find?_cons_of_neg (by simp [hfree])
      rw [hahead, hfirst, ensureParents, if_neg hp]
      split
      · rfl
      · have hsame := blocked_insert_dir hp
        rw [ih]
        unfold ahead firstBlocked
        rw [hsame]

theorem nodup_ahead (h : ps.Nodup) (nodes : Nodes) : (ahead ps nodes).Nodup :=
  h.sublist (List.takeWhile_sublist _)

end Wasmsh.Fs

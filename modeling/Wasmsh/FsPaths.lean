import Wasmsh.MemoryFs

/-!
# Normalized paths

A normalized path is its components: they are neither empty nor `.` nor `..`, and no `/` is
in them.  What the filesystem does with paths, it does to their components.
-/

namespace Wasmsh.Fs

open Globs

variable {parts : List Path}

/-! ## 1. Components -/

/-- A name of an entry in a directory. -/
def Proper (part : Path) : Prop :=
  part ≠ [] ∧ '/' ∉ part ∧ part ≠ ['.'] ∧ part ≠ ['.', '.']

instance (part : Path) : Decidable (Proper part) := inferInstanceAs (Decidable (_ ∧ _))

/-- The components, each after a `/`. -/
def joinPath (parts : List Path) : Path := parts.flatMap ('/' :: ·)

/-- The absolute path of these components. -/
def absPath (parts : List Path) : Path := if parts = [] then ['/'] else joinPath parts

/-- The relative path of these components. -/
def relPath : List Path → Path
  | [] => ['.']
  | part :: parts => part ++ joinPath parts

/-- The components that `normalize_path` keeps. -/
def components (path : Path) : List Path := normalComponents (path.splitOn '/')

theorem joinPath_cons (part : Path) (parts : List Path) :
    joinPath (part :: parts) = '/' :: part ++ joinPath parts := rfl

theorem joinPath_append (parts parts' : List Path) :
    joinPath (parts ++ parts') = joinPath parts ++ joinPath parts' := List.flatMap_append

theorem intercalate_cons (part : Path) (parts : List Path) :
    ['/'].intercalate (part :: parts) = part ++ joinPath parts := by
  induction parts generalizing part with
  | nil => simp [List.intercalate, joinPath]
  | cons next parts ih =>
    have hstep : ['/'].intercalate (part :: next :: parts) =
        part ++ '/' :: ['/'].intercalate (next :: parts) := by
      simp [List.intercalate, List.intersperse]
    rw [hstep, ih, joinPath_cons, List.cons_append]

theorem head_absPath (parts : List Path) : (absPath parts).head? = some '/' := by
  unfold absPath
  split
  · rfl
  · cases parts with
    | nil => contradiction
    | cons part parts => rfl

theorem not_mem_splitOn (path : Path) : ∀ part ∈ path.splitOn '/', '/' ∉ part := by
  induction path with
  | nil =>
    intro part hpart
    rcases List.mem_singleton.mp hpart with rfl
    exact List.not_mem_nil
  | cons c path ih =>
    intro part hpart
    rw [List.splitOn_cons_eq_if_modifyHead] at hpart
    split at hpart
    · rcases List.mem_cons.mp hpart with rfl | hpart
      · exact List.not_mem_nil
      · exact ih part hpart
    · next hc =>
      cases hparts : path.splitOn '/' with
      | nil => exact absurd hparts (List.splitOn_ne_nil _ _)
      | cons first rest =>
        rw [hparts, List.modifyHead_cons] at hpart
        rw [hparts] at ih
        rcases List.mem_cons.mp hpart with rfl | hpart
        · intro hmem
          rcases List.mem_cons.mp hmem with rfl | hmem
          · simp at hc
          · exact ih first (.head _) hmem
        · exact ih part (.tail _ hpart)

/-- The components that are kept are names. -/
theorem proper_normalComponents (h : ∀ part ∈ parts, '/' ∉ part) :
    ∀ part ∈ normalComponents parts, Proper part := by
  have hfold : ∀ (parts kept : List Path), (∀ part ∈ parts, '/' ∉ part) →
      (∀ part ∈ kept, Proper part) →
      ∀ part ∈ parts.foldl (fun kept part =>
        if part = [] ∨ part = ['.'] then kept
        else if part = ['.', '.'] then kept.dropLast
        else kept ++ [part]) kept, Proper part := by
    intro parts
    induction parts with
    | nil => exact fun kept _ hkept => hkept
    | cons first parts ih =>
      intro kept hparts hkept
      apply ih _ (fun part hpart => hparts part (.tail _ hpart))
      intro part hpart
      dsimp only at hpart
      split at hpart
      · exact hkept part hpart
      · next hdot =>
        split at hpart
        · exact hkept part (List.dropLast_subset _ hpart)
        · next hdots =>
          rcases List.mem_append.mp hpart with hpart | hpart
          · exact hkept part hpart
          · rcases List.mem_singleton.mp hpart with rfl
            rw [not_or] at hdot
            exact ⟨hdot.1, hparts part (.head _), hdot.2, hdots⟩
  exact hfold parts [] h fun part hpart => by cases hpart

theorem proper_components (path : Path) : ∀ part ∈ components path, Proper part :=
  proper_normalComponents (not_mem_splitOn path)

/-- Names are kept. -/
theorem normalComponents_of_proper (h : ∀ part ∈ parts, Proper part) :
    normalComponents parts = parts := by
  have hfold : ∀ (parts kept : List Path), (∀ part ∈ parts, Proper part) →
      parts.foldl (fun kept part =>
        if part = [] ∨ part = ['.'] then kept
        else if part = ['.', '.'] then kept.dropLast
        else kept ++ [part]) kept = kept ++ parts := by
    intro parts
    induction parts with
    | nil => exact fun kept _ => (List.append_nil kept).symm
    | cons first parts ih =>
      intro kept hparts
      rcases hparts first (.head _) with ⟨hne, -, hdot, hdots⟩
      rw [List.foldl_cons, if_neg (not_or.mpr ⟨hne, hdot⟩), if_neg hdots,
        ih _ fun part hpart => hparts part (.tail _ hpart), List.append_assoc]
      rfl
  exact hfold parts [] h

/-! ## 2. Normalization -/

theorem normalizePath_eq (path : Path) : normalizePath path =
    if path.head? = some '/' then absPath (components path) else relPath (components path) := by
  have hparts : components path = normalComponents (path.splitOn '/') := rfl
  have hproper := proper_components path
  unfold normalizePath
  rw [← hparts]
  dsimp only
  cases hc : components path with
  | nil =>
    have hjoin : ['/'].intercalate ([] : List Path) = [] := rfl
    rw [hjoin]
    simp [absPath, relPath]
  | cons part parts =>
    rw [intercalate_cons]
    by_cases habs : path.head? = some '/'
    · rw [if_pos habs, if_pos habs, absPath, if_neg (List.cons_ne_nil _ _), joinPath_cons]
      rfl
    · rw [hc] at hproper
      have hne := (hproper part (.head _)).1
      rw [if_neg habs, if_neg habs, if_neg (by simp [hne]), relPath]

theorem splitOn_relPath {part : Path} (h : ∀ p ∈ part :: parts, Proper p) :
    (relPath (part :: parts)).splitOn '/' = part :: parts := by
  rw [relPath, ← intercalate_cons,
    List.splitOn_intercalate '/' (fun p hp => (h p hp).2.1) (List.cons_ne_nil _ _)]

theorem splitOn_absPath {part : Path} (h : ∀ p ∈ part :: parts, Proper p) :
    (absPath (part :: parts)).splitOn '/' = [] :: part :: parts := by
  have hjoin : absPath (part :: parts) = '/' :: relPath (part :: parts) := by
    rw [absPath, if_neg (List.cons_ne_nil _ _), joinPath_cons, relPath]
    rfl
  rw [hjoin, List.splitOn_cons_eq_if_modifyHead, if_pos (by simp), splitOn_relPath h]

/-- The components of a list of names joined again. -/
theorem components_absPath (h : ∀ part ∈ parts, Proper part) :
    components (absPath parts) = parts := by
  cases parts with
  | nil => rfl
  | cons part parts =>
    rw [components, splitOn_absPath h]
    exact normalComponents_of_proper h

theorem components_relPath (h : ∀ part ∈ parts, Proper part) :
    components (relPath parts) = parts := by
  cases parts with
  | nil => rfl
  | cons part parts =>
    rw [components, splitOn_relPath h]
    exact normalComponents_of_proper h

theorem head_relPath (h : ∀ part ∈ parts, Proper part) :
    (relPath parts).head? ≠ some '/' := by
  cases parts with
  | nil => decide
  | cons part parts =>
    rcases h part (.head _) with ⟨hne, hslash, -⟩
    rcases List.exists_cons_of_ne_nil hne with ⟨c, cs, rfl⟩
    rw [relPath, List.cons_append, List.head?_cons, ne_eq, Option.some.injEq]
    rintro rfl
    exact hslash (.head _)

/-- What `normalize_path` leaves as it is. -/
def IsNormal (path : Path) : Prop := normalizePath path = path

theorem isNormal_absPath (h : ∀ part ∈ parts, Proper part) :
    IsNormal (absPath parts) := by
  rw [IsNormal, normalizePath_eq, if_pos (head_absPath parts), components_absPath h]

theorem isNormal_relPath (h : ∀ part ∈ parts, Proper part) :
    IsNormal (relPath parts) := by
  rw [IsNormal, normalizePath_eq, if_neg (head_relPath h), components_relPath h]

theorem isNormal_normalizePath (path : Path) : IsNormal (normalizePath path) := by
  rw [normalizePath_eq]
  split
  · exact isNormal_absPath (proper_components path)
  · exact isNormal_relPath (proper_components path)

/-- A normalized absolute path is that of its components. -/
theorem absPath_components {path : Path} (h : IsNormal path) (habs : path.head? = some '/') :
    absPath (components path) = path := by
  rw [IsNormal, normalizePath_eq, if_pos habs] at h
  exact h

theorem relPath_components {path : Path} (h : IsNormal path) (habs : path.head? ≠ some '/') :
    relPath (components path) = path := by
  rw [IsNormal, normalizePath_eq, if_neg habs] at h
  exact h

theorem head_normalizePath {path : Path} (habs : path.head? = some '/') :
    (normalizePath path).head? = some '/' := by
  rw [normalizePath_eq, if_pos habs]
  exact head_absPath _

/-! ## 3. Parents -/

theorem filter_of_proper (h : ∀ part ∈ parts, Proper part) :
    parts.filter (· ≠ []) = parts := by
  rw [List.filter_eq_self]
  intro part hpart
  simpa using (h part hpart).1

theorem pathParts_absPath (h : ∀ part ∈ parts, Proper part) :
    pathParts (absPath parts) = parts := by
  cases parts with
  | nil => rfl
  | cons part parts =>
    rw [pathParts, splitOn_absPath h, List.filter_cons_of_neg (by simp)]
    exact filter_of_proper h

theorem pathParts_relPath (h : ∀ part ∈ parts, Proper part)
    (hne : parts ≠ []) : pathParts (relPath parts) = parts := by
  cases parts with
  | nil => contradiction
  | cons part parts =>
    rw [pathParts, splitOn_relPath h]
    exact filter_of_proper h

theorem mem_pathsFrom {current p : Path} :
    p ∈ pathsFrom current parts ↔
      ∃ before, before ≠ [] ∧ before <+: parts ∧ p = current ++ joinPath before := by
  induction parts generalizing current with
  | nil =>
    simp only [pathsFrom, List.not_mem_nil, List.prefix_nil, false_iff]
    rintro ⟨before, hne, rfl, -⟩
    exact hne rfl
  | cons part parts ih =>
    rw [pathsFrom, List.mem_cons, ih]
    constructor
    · rintro (rfl | ⟨before, -, hstart, rfl⟩)
      · refine ⟨[part], List.cons_ne_nil _ _, ⟨parts, rfl⟩, ?_⟩
        rw [joinPath_cons]
        simp [joinPath]
      · refine ⟨part :: before, List.cons_ne_nil _ _, ?_, ?_⟩
        · exact List.cons_prefix_cons.mpr ⟨rfl, hstart⟩
        · rw [joinPath_cons, List.append_assoc]
    · rintro ⟨before, hne, hstart, rfl⟩
      cases before with
      | nil => contradiction
      | cons first before =>
        rcases List.cons_prefix_cons.mp hstart with ⟨rfl, hrest⟩
        cases before with
        | nil =>
          left
          rw [joinPath_cons]
          simp [joinPath]
        | cons next before =>
          right
          refine ⟨next :: before, List.cons_ne_nil _ _, hrest, ?_⟩
          rw [joinPath_cons, List.append_assoc]

end Wasmsh.Fs

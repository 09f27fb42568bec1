import Wasmsh.MemoryFs

/-!
# Chains of links

`resolve_normalized` looks once at each path of a chain of links, and it looks at
`MAX_SYMLINK_DEPTH` of them.  The path behind as many links is one more, so a chain of
exactly that length is rejected although no link too many would be followed.
-/

namespace Wasmsh.Fs

variable {nodes : Nodes} {p q r : Path} {k m n : Nat}

/-! ## 1. Following links -/

/-- No link stands at the path. -/
def NotLink (nodes : Nodes) (p : Path) : Prop :=
  ∀ target, nodes.lookup p ≠ some (.symlink target)

/-- The path that so many links lead to, one after the other. -/
def follow (nodes : Nodes) : Nat → Path → Option Path
  | 0, p => some p
  | n + 1, p =>
    match nodes.lookup p with
    | some (.symlink target) => follow nodes n (linkTarget p target)
    | _ => none

theorem follow_link {target : Path} (h : nodes.lookup p = some (.symlink target)) (n : Nat) :
    follow nodes (n + 1) p = follow nodes n (linkTarget p target) := by
  rw [follow, h]

theorem follow_notLink (h : NotLink nodes p) (n : Nat) : follow nodes (n + 1) p = none := by
  unfold follow
  split
  · next target heq => exact absurd heq (h target)
  · rfl

theorem link_or_not (nodes : Nodes) (p : Path) :
    (∃ target, nodes.lookup p = some (.symlink target)) ∨ NotLink nodes p := by
  by_cases h : ∃ target, nodes.lookup p = some (.symlink target)
  · exact .inl h
  · exact .inr (not_exists.mp h)

/-- A chain that comes to its end goes no further. -/
theorem follow_beyond (hfollow : follow nodes k p = some q) (hend : NotLink nodes q)
    (h : k < m) : follow nodes m p = none := by
  induction k generalizing p m with
  | zero =>
    obtain rfl : p = q := Option.some.inj hfollow
    obtain ⟨m, rfl⟩ := Nat.exists_eq_succ_of_ne_zero (Nat.ne_of_gt h)
    exact follow_notLink hend m
  | succ k ih =>
    obtain ⟨m, rfl⟩ := Nat.exists_eq_succ_of_ne_zero (Nat.ne_of_gt (Nat.zero_lt_of_lt h))
    rcases link_or_not nodes p with ⟨target, hlink⟩ | hnot
    · rw [follow_link hlink] at hfollow ⊢
      exact ih hfollow (Nat.lt_of_succ_lt_succ h)
    · rw [follow_notLink hnot] at hfollow
      cases hfollow

/-! ## 2. `resolve_normalized` -/

theorem resolveNormalized_link {target : Path} (h : nodes.lookup p = some (.symlink target))
    (n : Nat) :
    resolveNormalized nodes (n + 1) p = resolveNormalized nodes n (linkTarget p target) := by
  rw [resolveNormalized, h]

theorem resolveNormalized_notLink (h : NotLink nodes p) (n : Nat) :
    resolveNormalized nodes (n + 1) p = .ok p := by
  unfold resolveNormalized
  split
  · next target heq => exact absurd heq (h target)
  · rfl

/-- The loop accepts the chains that are shorter than the number of its turns. -/
theorem resolveNormalized_ok_iff :
    resolveNormalized nodes n p = .ok q ↔ ∃ k < n, follow nodes k p = some q ∧ NotLink nodes q := by
  induction n generalizing p with
  | zero =>
    constructor
    · intro h
      cases h
    · rintro ⟨k, hk, -⟩
      exact absurd hk (Nat.not_lt_zero k)
  | succ n ih =>
    rcases link_or_not nodes p with ⟨target, hlink⟩ | hnot
    · rw [resolveNormalized_link hlink, ih]
      constructor
      · rintro ⟨k, hk, hfollow, hend⟩
        exact ⟨k + 1, Nat.succ_lt_succ hk, (follow_link hlink k).trans hfollow, hend⟩
      · rintro ⟨k, hk, hfollow, hend⟩
        cases k with
        | zero =>
          obtain rfl : p = q := Option.some.inj hfollow
          exact absurd hlink (hend target)
        | succ k =>
          exact ⟨k, Nat.lt_of_succ_lt_succ hk, (follow_link hlink k).symm.trans hfollow, hend⟩
    · rw [resolveNormalized_notLink hnot]
      constructor
      · intro h
        obtain rfl := Except.ok.inj h
        exact ⟨0, Nat.succ_pos n, rfl, hnot⟩
      · rintro ⟨k, -, hfollow, -⟩
        cases k with
        | zero => rw [Option.some.inj hfollow]
        | succ k =>
          rw [follow_notLink hnot] at hfollow
          cases hfollow

theorem resolveNormalized_error_iff :
    (∃ e, resolveNormalized nodes n p = .error e) ↔ ∀ q, resolveNormalized nodes n p ≠ .ok q := by
  constructor
  · rintro ⟨e, he⟩ q hq
    rw [he] at hq
    cases hq
  · intro h
    cases hr : resolveNormalized nodes n p with
    | error e => exact ⟨e, rfl⟩
    | ok q => exact absurd hr (h q)

/-- The path is resolved exactly when at most `MAX_SYMLINK_DEPTH` links lead from it to a path
    that is no link, and to that path; otherwise it is an error. -/
def Exact (nodes : Nodes) (p : Path) : Prop :=
  (∀ q, resolveNormalized nodes maxSymlinkDepth p = .ok q ↔
      ∃ k ≤ maxSymlinkDepth, follow nodes k p = some q ∧ NotLink nodes q) ∧
    ((∃ e, resolveNormalized nodes maxSymlinkDepth p = .error e) ↔
      ¬∃ q, ∃ k ≤ maxSymlinkDepth, follow nodes k p = some q ∧ NotLink nodes q)

/-- The path at the end of a chain that is too long by one look. -/
theorem not_exact_of_long (hfollow : follow nodes maxSymlinkDepth p = some q)
    (hend : NotLink nodes q) : ¬Exact nodes p := by
  rintro ⟨hok, -⟩
  obtain ⟨k, hk, hshort, -⟩ :=
    resolveNormalized_ok_iff.mp ((hok q).mpr ⟨maxSymlinkDepth, le_refl _, hfollow, hend⟩)
  rw [follow_beyond hshort hend hk] at hfollow
  cases hfollow

/-- The resolution is exact unless the chain of links is as long as the limit. -/
theorem resolve_exact_iff (nodes : Nodes) (p : Path) : Exact nodes p ↔
    ¬∃ q, follow nodes maxSymlinkDepth p = some q ∧ NotLink nodes q := by
  constructor
  · rintro hexact ⟨q, hfollow, hend⟩
    exact not_exact_of_long hfollow hend hexact
  · intro hlong
    have hok : ∀ q, resolveNormalized nodes maxSymlinkDepth p = .ok q ↔
        ∃ k ≤ maxSymlinkDepth, follow nodes k p = some q ∧ NotLink nodes q := by
      intro q
      rw [resolveNormalized_ok_iff]
      constructor
      · rintro ⟨k, hk, hq⟩
        exact ⟨k, Nat.le_of_lt hk, hq⟩
      · rintro ⟨k, hk, hq⟩
        rcases Nat.lt_or_eq_of_le hk with hk | rfl
        · exact ⟨k, hk, hq⟩
        · exact absurd ⟨q, hq⟩ hlong
    refine ⟨hok, ?_⟩
    rw [resolveNormalized_error_iff, not_exists]
    exact forall_congr' fun q => not_congr (hok q)

/-! ## 3. Circles and a chain of 40 links -/

theorem follow_add (m n : Nat) (p : Path) :
    follow nodes (m + n) p = (follow nodes m p).bind (follow nodes n) := by
  induction m generalizing p with
  | zero => rw [Nat.zero_add, follow, Option.bind_some]
  | succ m ih =>
    rw [Nat.succ_add]
    rcases link_or_not nodes p with ⟨target, hlink⟩ | hnot
    · rw [follow_link hlink, follow_link hlink, ih]
    · rw [follow_notLink hnot, follow_notLink hnot, Option.bind_none]

/-- Links in a circle, and all that lead to them, are an error. -/
theorem resolveNormalized_circle (hinto : follow nodes k p = some q)
    (hcircle : follow nodes (m + 1) q = some q) (n : Nat) :
    ∃ e, resolveNormalized nodes n p = .error e := by
  have hround : ∀ j, follow nodes (k + j * (m + 1)) p = some q := by
    intro j
    induction j with
    | zero => rwa [Nat.zero_mul, Nat.add_zero]
    | succ j ih =>
      rw [Nat.succ_mul, ← Nat.add_assoc, follow_add, ih, Option.bind_some, hcircle]
  rw [resolveNormalized_error_iff]
  intro r hr
  obtain ⟨i, -, hfollow, hend⟩ := resolveNormalized_ok_iff.mp hr
  have hfar : i < k + (i + 1) * (m + 1) := by
    have := Nat.le_mul_of_pos_right (i + 1) (show 0 < m + 1 by omega)
    omega
  have hnone := follow_beyond hfollow hend hfar
  rw [hround] at hnone
  cases hnone

/-- Two links that lead to each other. -/
theorem resolveNormalized_circle_of_two :
    ∃ e, resolveNormalized (AList.insert ['/', 'b'] (.symlink ['a'])
      (AList.insert ['/', 'a'] (.symlink ['/', 'b']) ∅)) maxSymlinkDepth ['/', 'a'] = .error e :=
  resolveNormalized_circle (k := 0) (m := 1) rfl (by decide +kernel) _

/-- The paths `/a`, `/aa`, `/aaa` and so on. -/
def chainPath (i : Nat) : Path := '/' :: List.replicate (i + 1) 'a'

/-- So many links, each to the next path. -/
def chainNodes (n : Nat) : Nodes :=
  (List.range n).foldl (fun nodes i => nodes.insert (chainPath i) (.symlink (chainPath (i + 1)))) ∅

/-- A chain of 40 links is rejected. -/
theorem forty_links_rejected : ¬∀ (nodes : Nodes) (p : Path), Exact nodes p := by
  intro h
  have hfollow : follow (chainNodes 40) maxSymlinkDepth (chainPath 0) = some (chainPath 40) := by
    decide +kernel
  have hnone : (chainNodes 40).lookup (chainPath 40) = none := by decide +kernel
  have hend : NotLink (chainNodes 40) (chainPath 40) := by
    intro target heq
    rw [hnone] at heq
    cases heq
  exact not_exact_of_long hfollow hend (h _ _)

end Wasmsh.Fs

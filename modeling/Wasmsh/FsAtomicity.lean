import Wasmsh.FsParents

/-!
# What a failed call leaves behind

A call that fails leaves the filesystem as it was, except where the directories above a new
entry are made one by one and the loop or the entry itself fails in the end: those made so
far stay.
-/

namespace Wasmsh.Fs

open Globs Weighted

variable {R : Type} {fs : MemoryFs R}

/-! ## 1. When nothing is left behind -/

/-- An entry and the directories above it, `more` entries in all: none of the directories is
    missing, or there is no room for the first of them, or room for everything. -/
def Fits (nodes : Nodes) (ps : List Path) (more : Nat) : Prop :=
  missing ps nodes = 0 ∨ maxInodes ≤ nodes.count ∨
    nodes.count + missing ps nodes + more ≤ maxInodes

instance (nodes : Nodes) (ps : List Path) (more : Nat) : Decidable (Fits nodes ps more) :=
  inferInstanceAs (Decidable (_ ∨ _ ∨ _))

/-- The same for `symlink`, which stops before an entry that is no directory. -/
def FitsLink (nodes : Nodes) (ps : List Path) : Prop :=
  missing (ahead ps nodes) nodes = 0 ∨ maxInodes ≤ nodes.count ∨
    (firstBlocked ps nodes = none ∧ nodes.count + missing (ahead ps nodes) nodes + 1 ≤ maxInodes)

/-- A call makes directories only if everything that it makes has room. -/
def Atomic (fs : MemoryFs R) : Op R → Prop
  | .openFile path opts => ∀ norm, fs.resolve path = .ok norm → opts.create = true →
    norm ∉ fs.nodes → Fits fs.nodes (parentPaths norm) 1
  | .openWriteSink path _ => ∀ norm, fs.resolve path = .ok norm → norm ∉ fs.nodes →
    Fits fs.nodes (parentPaths norm) 1
  | .installStreamReader path _ => fs.nodes.lookup (normalizePath path) ≠ some .dir →
    Fits fs.nodes (parentPaths (normalizePath path))
      (if normalizePath path ∈ fs.nodes then 0 else 1)
  | .createDir path => normalizePath path ∉ fs.nodes →
    Fits fs.nodes (parentPaths (normalizePath path)) 1
  | .symlink _ link => normalizePath link ∉ fs.nodes →
    FitsLink fs.nodes (parentPaths (normalizePath link))
  | _ => True

/-! ## 2. Making an entry -/

/-- Where not everything has room, the nodes are what they were if it fits nevertheless. -/
theorem same_iff_fits {nodes after : Nodes} {ps : List Path} {more : Nat}
    (hsame : after = nodes ↔ missing ps nodes = 0 ∨ maxInodes ≤ nodes.count)
    (hno : maxInodes < nodes.count + missing ps nodes + more) :
    after = nodes ↔ Fits nodes ps more := by
  rw [hsame]
  constructor
  · rintro (hnone | hfull)
    · exact Or.inl hnone
    · exact Or.inr (Or.inl hfull)
  · rintro (hnone | hfull | hmore)
    · exact Or.inl hnone
    · exact Or.inr hfull
    · omega

/-- An entry is made and fits, or it fails and leaves the nodes as they were if it fits. -/
theorem createNode_cases {path : Path} (node : FsNode) {nodes : Nodes}
    (hle : nodes.count ≤ maxInodes) :
    ∃ after, (createNode path node nodes = (.ok (), after) ∧ Fits nodes (parentPaths path) 1) ∨
      (createNode path node nodes = (.error inodeLimit, after) ∧
        (after = nodes ↔ Fits nodes (parentPaths path) 1)) := by
  rcases ensureParents_cases (nodup_parentPaths path) hle with
    ⟨after, hsame, ⟨hloop, hcount, hroom⟩ | ⟨hloop, hshort⟩⟩
  · by_cases hfull : maxInodes ≤ after.count
    · refine ⟨after, Or.inr ⟨?_, same_iff_fits hsame (by omega)⟩⟩
      rw [createNode, hloop]
      exact if_pos hfull
    · refine ⟨after.insert path node, Or.inl ⟨?_, Or.inr (Or.inr (by omega))⟩⟩
      rw [createNode, hloop]
      exact if_neg hfull
  · refine ⟨after, Or.inr ⟨?_, same_iff_fits hsame (by omega)⟩⟩
    rw [createNode, hloop]

/-! ## 3. Calls -/

/-- The result is no error, or the filesystem is what it was. -/
def Unharmed {α : Type} (fs : MemoryFs R) (r : Outcome R α) : Prop :=
  ∀ e, r.1 = .error e → r.2 = fs

section Unharmed

variable {α : Type} {fs fs' : MemoryFs R}

theorem unharmed_ok (a : α) : Unharmed fs (.ok a, fs') := by
  intro e h
  cases h

theorem unharmed_same (r : Except FsError α) : Unharmed fs (r, fs) := fun _ _ => rfl

theorem unharmed_error {e : FsError} :
    Unharmed (α := α) fs (.error e, fs') ↔ fs' = fs := by
  constructor
  · intro h
    exact h e rfl
  · intro h _ _
    exact h

/-- A failure after which at most the nodes differ. -/
theorem unharmed_nodes {e : FsError} {nodes : Nodes} :
    Unharmed (α := α) fs (.error e, { fs with nodes := nodes }) ↔ nodes = fs.nodes := by
  rw [unharmed_error]
  constructor
  · intro h
    exact congrArg MemoryFs.nodes h
  · rintro rfl
    rfl

end Unharmed

theorem unharmed_openResolved (hle : fs.nodes.count ≤ maxInodes) (norm : Path)
    (opts : OpenOptions) :
    Unharmed fs (fs.openResolved norm opts) ↔
      (opts.create = true → norm ∉ fs.nodes → Fits fs.nodes (parentPaths norm) 1) := by
  have hthere : ∀ node, fs.nodes.lookup norm = some node →
      (opts.create = true → norm ∉ fs.nodes → Fits fs.nodes (parentPaths norm) 1) :=
    fun node hnode _ habsent => absurd (mem_of_lookup hnode) habsent
  unfold MemoryFs.openResolved
  split
  · next hnode => exact iff_of_true (unharmed_same _) (hthere _ hnode)
  · next hnode => exact iff_of_true (unharmed_same _) (hthere _ hnode)
  · next hnode =>
    refine iff_of_true ?_ (hthere _ hnode)
    dsimp only
    split
    · exact unharmed_same _
    · split
      · exact unharmed_same _
      · split
        · exact unharmed_ok _
        · exact unharmed_ok _
  · next hnone =>
    have habsent := AList.lookup_eq_none.mp hnone
    split
    · next hcreates =>
      have hiff : (opts.create = true → norm ∉ fs.nodes → Fits fs.nodes (parentPaths norm) 1) ↔
          Fits fs.nodes (parentPaths norm) 1 :=
        ⟨fun h => h hcreates habsent, fun h _ _ => h⟩
      rw [hiff]
      rcases @createNode_cases norm (.file []) fs.nodes hle with
        ⟨after, ⟨hmade, hfits⟩ | ⟨hmade, hsame⟩⟩
      · rw [hmade]
        exact iff_of_true (unharmed_ok _) hfits
      · rw [hmade]
        exact unharmed_nodes.trans hsame
    · next hcreates =>
      exact iff_of_true (unharmed_same _) fun h => absurd h hcreates

/-- What holds of the path that is resolved. -/
theorem forall_resolved {r : Except FsError Path} {norm : Path} (h : r = .ok norm)
    {P : Path → Prop} : (∀ norm', r = .ok norm' → P norm') ↔ P norm := by
  subst h
  constructor
  · intro hall
    exact hall norm rfl
  · intro hP norm' hsame
    cases hsame
    exact hP

theorem forall_unresolved {r : Except FsError Path} {e : FsError} (h : r = .error e)
    {P : Path → Prop} : ∀ norm', r = .ok norm' → P norm' := by
  subst h
  intro norm' hsame
  cases hsame

theorem unharmed_openFile (hle : fs.nodes.count ≤ maxInodes) (path : Path) (opts : OpenOptions) :
    Unharmed fs (fs.openFile path opts) ↔ Atomic fs (.openFile path opts) := by
  unfold Atomic
  dsimp only
  cases hnorm : fs.resolve path with
  | error e =>
    rw [MemoryFs.openFile, hnorm]
    exact iff_of_true (unharmed_same _) (forall_unresolved rfl)
  | ok norm =>
    rw [forall_resolved rfl, MemoryFs.openFile, hnorm]
    dsimp only
    split
    · next reader hreader =>
      refine iff_of_true (unharmed_ok _) ?_
      intro hcreates
      -- a reader is only taken by an `open` that creates nothing
      split at hreader
      · next honly => simp [OpenOptions.readOnly, hcreates] at honly
      · cases hreader
    · exact unharmed_openResolved hle norm opts

theorem unharmed_openWriteSink (hle : fs.nodes.count ≤ maxInodes)
    (hreaders : ReadersOnFiles fs) (path : Path) (append : Bool) :
    Unharmed fs (fs.openWriteSink path append) ↔ Atomic fs (.openWriteSink path append) := by
  unfold Atomic
  dsimp only
  cases hnorm : fs.resolve path with
  | error e =>
    rw [MemoryFs.openWriteSink, hnorm]
    exact iff_of_true (unharmed_same _) (forall_unresolved rfl)
  | ok norm =>
    have hthere : ∀ node, fs.nodes.lookup norm = some node →
        (norm ∉ fs.nodes → Fits fs.nodes (parentPaths norm) 1) :=
      fun node hnode habsent => absurd (mem_of_lookup hnode) habsent
    -- a reader that is dropped before a failure was never there
    have hdrop : (∀ contents, fs.nodes.lookup norm ≠ some (.file contents)) →
        fs.virtualReaders.erase norm = fs.virtualReaders := by
      intro hnot
      apply erase_of_not_mem
      intro hmem
      rcases hreaders norm hmem with ⟨contents, hfile⟩
      exact hnot contents hfile
    rw [forall_resolved rfl, MemoryFs.openWriteSink, hnorm]
    dsimp only
    split
    · next hnode =>
      rw [hdrop (by simp [hnode])]
      exact iff_of_true (unharmed_same _) (hthere _ hnode)
    · next hnode =>
      rw [hdrop (by simp [hnode])]
      exact iff_of_true (unharmed_same _) (hthere _ hnode)
    · next hnode => exact iff_of_true (unharmed_ok _) (hthere _ hnode)
    · next hnone =>
      have habsent := AList.lookup_eq_none.mp hnone
      have hiff : (norm ∉ fs.nodes → Fits fs.nodes (parentPaths norm) 1) ↔
          Fits fs.nodes (parentPaths norm) 1 := ⟨fun h => h habsent, fun h _ => h⟩
      rw [hiff, hdrop (by simp [hnone])]
      rcases @createNode_cases norm (.file []) fs.nodes hle with
        ⟨after, ⟨hmade, hfits⟩ | ⟨hmade, hsame⟩⟩
      · rw [hmade]
        exact iff_of_true (unharmed_ok _) hfits
      · rw [hmade]
        exact unharmed_nodes.trans hsame

theorem unharmed_installStreamReader (hle : fs.nodes.count ≤ maxInodes) (path : Path) (reader : R) :
    Unharmed fs (fs.installStreamReader path reader) ↔
      Atomic fs (.installStreamReader path reader) := by
  unfold MemoryFs.installStreamReader Atomic
  dsimp only
  split
  · next hdir => exact iff_of_true (unharmed_same _) fun h => absurd hdir h
  · next hdir =>
    generalize normalizePath path = norm at hdir ⊢
    have hiff : ∀ P : Prop, (fs.nodes.lookup norm ≠ some .dir → P) ↔ P :=
      fun P => ⟨fun h => h hdir, fun h _ => h⟩
    rw [hiff]
    rcases ensureParents_cases (nodup_parentPaths norm) hle with
      ⟨after, hsame, ⟨hloop, hcount, hroom⟩ | ⟨hloop, hshort⟩⟩
    · rw [hloop]
      dsimp only
      by_cases hthere : norm ∈ fs.nodes
      · rw [if_pos hthere, if_neg (by simp [hthere])]
        exact iff_of_true (unharmed_ok _) (Or.inr (Or.inr hroom))
      · rw [if_neg hthere]
        by_cases hfull : maxInodes ≤ after.count
        · rw [if_pos (by simp [hthere, hfull])]
          exact unharmed_nodes.trans (same_iff_fits hsame (by omega))
        · rw [if_neg (by simp [hfull])]
          exact iff_of_true (unharmed_ok _) (Or.inr (Or.inr (by omega)))
    · rw [hloop]
      exact unharmed_nodes.trans (same_iff_fits hsame (by omega))

theorem unharmed_createDir (hle : fs.nodes.count ≤ maxInodes) (path : Path) :
    Unharmed fs (fs.createDir path) ↔ Atomic fs (.createDir path) := by
  unfold MemoryFs.createDir Atomic
  dsimp only
  split
  · next hthere => exact iff_of_true (unharmed_same _) fun h => absurd hthere h
  · next habsent =>
    have hiff : ∀ P : Prop, (normalizePath path ∉ fs.nodes → P) ↔ P :=
      fun P => ⟨fun h => h habsent, fun h _ => h⟩
    rw [hiff]
    rcases @createNode_cases (normalizePath path) .dir fs.nodes hle with
      ⟨after, ⟨hmade, hfits⟩ | ⟨hmade, hsame⟩⟩
    · rw [hmade]
      exact iff_of_true (unharmed_ok _) hfits
    · rw [hmade]
      exact unharmed_nodes.trans hsame

/-- Something in the way stops `symlink` whatever room there is. -/
theorem fitsLink_of_blocked {nodes : Nodes} {ps : List Path} {p : Path}
    (h : firstBlocked ps nodes = some p) :
    FitsLink nodes ps ↔ missing (ahead ps nodes) nodes = 0 ∨ maxInodes ≤ nodes.count := by
  unfold FitsLink
  rw [h]
  constructor
  · rintro (hnone | hfull | ⟨hno, -⟩)
    · exact Or.inl hnone
    · exact Or.inr hfull
    · cases hno
  · rintro (hnone | hfull)
    · exact Or.inl hnone
    · exact Or.inr (Or.inl hfull)

theorem fitsLink_of_free {nodes : Nodes} {ps : List Path} (h : firstBlocked ps nodes = none) :
    FitsLink nodes ps ↔ Fits nodes (ahead ps nodes) 1 := by
  unfold FitsLink Fits
  rw [h]
  simp

theorem unharmed_symlink (hle : fs.nodes.count ≤ maxInodes) (target link : Path) :
    Unharmed fs (fs.symlink target link) ↔ Atomic fs (.symlink target link) := by
  unfold MemoryFs.symlink Atomic
  dsimp only
  split
  · next hthere => exact iff_of_true (unharmed_same _) fun h => absurd hthere h
  · next habsent =>
    have hiff : ∀ P : Prop, (normalizePath link ∉ fs.nodes → P) ↔ P :=
      fun P => ⟨fun h => h habsent, fun h _ => h⟩
    rw [hiff, ensureParentDirs_eq]
    generalize normalizePath link = norm
    rcases ensureParents_cases (nodup_ahead (nodup_parentPaths norm) fs.nodes) hle with
      ⟨after, hsame, ⟨hloop, hcount, hroom⟩ | ⟨hloop, hshort⟩⟩
    · rw [hloop]
      cases hfirst : firstBlocked (parentPaths norm) fs.nodes with
      | some p =>
        rw [fitsLink_of_blocked hfirst]
        exact unharmed_nodes.trans hsame
      | none =>
        rw [fitsLink_of_free hfirst]
        dsimp only
        by_cases hfull : maxInodes ≤ after.count
        · rw [if_pos hfull]
          exact unharmed_nodes.trans (same_iff_fits hsame (by omega))
        · rw [if_neg hfull]
          exact iff_of_true (unharmed_ok _) (Or.inr (Or.inr (by omega)))
    · rw [hloop]
      cases hfirst : firstBlocked (parentPaths norm) fs.nodes with
      | some p =>
        rw [fitsLink_of_blocked hfirst]
        exact unharmed_nodes.trans hsame
      | none =>
        rw [fitsLink_of_free hfirst]
        exact unharmed_nodes.trans (same_iff_fits hsame (by omega))

theorem unharmed_writeChunk (fs : MemoryFs R) (sink : MemoryFs.WriteSink) (data : Bytes) :
    Unharmed fs (MemoryFs.writeChunk sink data fs) := by
  unfold MemoryFs.writeChunk
  split
  · next contents hfile =>
    dsimp only
    generalize (if sink.append then contents ++ data else data) = new
    split
    · exact unharmed_same _
    · split
      · exact unharmed_same _
      · exact unharmed_ok _
  · exact unharmed_same _

theorem unharmed_writeFile (fs : MemoryFs R) (handle : Nat) (data : Bytes) :
    Unharmed fs (fs.writeFile handle data) := by
  unfold MemoryFs.writeFile
  split
  · exact unharmed_same _
  · next f _ =>
    split
    · exact unharmed_same _
    · split
      · exact unharmed_same _
      · next path _ =>
        dsimp only
        have hchunk := unharmed_writeChunk fs ⟨path, f.opts.append⟩ data
        generalize MemoryFs.writeChunk ⟨path, f.opts.append⟩ data fs = written at hchunk ⊢
        rcases written with ⟨e | sink, after⟩
        · exact unharmed_error.mpr (unharmed_error.mp hchunk)
        · exact unharmed_ok _

theorem unharmed_removeFile (fs : MemoryFs R) (path : Path) : Unharmed fs (fs.removeFile path) := by
  unfold MemoryFs.removeFile
  dsimp only
  split
  · exact unharmed_ok _
  · split
    · exact unharmed_same _
    · split
      · exact unharmed_same _
      · exact unharmed_ok _
      · exact unharmed_same _

theorem unharmed_removeDir (fs : MemoryFs R) (path : Path) : Unharmed fs (fs.removeDir path) := by
  unfold MemoryFs.removeDir
  dsimp only
  split
  · exact unharmed_same _
  · exact unharmed_same _
  · exact unharmed_same _
  · split
    · exact unharmed_same _
    · exact unharmed_ok _

theorem unharmed_setMode (fs : MemoryFs R) (path : Path) (mode : UInt32) :
    Unharmed fs (fs.setMode path mode) := by
  unfold MemoryFs.setMode
  dsimp only
  split
  · exact unharmed_ok _
  · exact unharmed_same _

/-! ## 4. A call of a session -/

/-- A call that fails leaves the filesystem as it was. -/
def ErrorAtomic (s : Session R) (op : Op R) : Prop :=
  ∀ e, (s.step op).1 = .error e → (s.step op).2.fs = s.fs

theorem errorAtomic_finish {α : Type} {s : Session R} {op : Op R} {r : Outcome R α}
    (h : s.step op = s.finish r) : ErrorAtomic s op ↔ Unharmed s.fs r := by
  unfold ErrorAtomic Unharmed
  rw [h]
  rcases r with ⟨e | a, fs⟩
  · constructor
    · exact fun hall _ _ => hall e rfl
    · exact fun hall _ _ => hall e rfl
  · constructor
    · intro _ e he
      cases he
    · intro _ e he
      cases he

/-- **A failed call changes nothing but where it runs out of inodes**: in every reachable
    state, a call leaves the filesystem as it was when it fails, if and only if it makes no
    directories or has room for all that it makes. -/
theorem error_atomic_iff {s : Session R} (h : s.Reachable) (op : Op R) :
    ErrorAtomic s op ↔ Atomic s.fs op := by
  have hle := h.within.inodes
  cases op with
  | openFile path opts => exact (errorAtomic_finish rfl).trans (unharmed_openFile hle path opts)
  | writeFile handle data =>
    exact (errorAtomic_finish rfl).trans (iff_of_true (unharmed_writeFile _ _ _) trivial)
  | openWriteSink path append =>
    have hiff := unharmed_openWriteSink hle h.readersOnFiles path append
    rw [← hiff]
    unfold ErrorAtomic Unharmed Session.step
    dsimp only
    rcases s.fs.openWriteSink path append with ⟨e | sink, fs⟩
    · constructor
      · exact fun hall _ _ => hall e rfl
      · exact fun hall _ _ => hall e rfl
    · constructor
      · intro _ e he
        cases he
      · intro _ e he
        cases he
  | sinkWrite i data =>
    refine iff_of_true ?_ trivial
    unfold ErrorAtomic Session.step
    dsimp only
    split
    · exact fun _ _ => rfl
    · next sink hsink =>
      have hchunk := unharmed_writeChunk s.fs sink data
      split
      · next e fs heq =>
        rw [heq] at hchunk
        exact fun _ _ => hchunk e rfl
      · intro e he
        cases he
  | installStreamReader path reader =>
    exact (errorAtomic_finish rfl).trans (unharmed_installStreamReader hle path reader)
  | close handle => exact iff_of_true (fun _ _ => by contradiction) trivial
  | symlink target link =>
    exact (errorAtomic_finish rfl).trans (unharmed_symlink hle target link)
  | createDir path => exact (errorAtomic_finish rfl).trans (unharmed_createDir hle path)
  | removeFile path =>
    exact (errorAtomic_finish rfl).trans (iff_of_true (unharmed_removeFile _ _) trivial)
  | removeDir path =>
    exact (errorAtomic_finish rfl).trans (iff_of_true (unharmed_removeDir _ _) trivial)
  | setMode path mode =>
    exact (errorAtomic_finish rfl).trans (iff_of_true (unharmed_setMode _ _ _) trivial)

/-- A directory where a file is. -/
theorem error_atomic_of_present :
    let s : Session Unit := (Session.new.step (.openFile "/a".toList .forWriting)).2
    (∃ e, (s.step (.createDir "/a".toList)).1 = .error e) ∧
      ErrorAtomic s (.createDir "/a".toList) := by
  refine ⟨⟨_, rfl⟩, (error_atomic_iff (.step _ .new) _).mpr ?_⟩
  intro hmissing
  exact absurd (by decide +kernel) hmissing

/-- An entry below a file that is then removed, and a link below that entry: the directory
    is made before the entry is found in the way. -/
theorem symlink_leaves_parent :
    ¬ ∀ s : Session Unit, s.Reachable → ∀ op, ErrorAtomic s op := by
  intro hall
  let start : Session Unit := ((((Session.new.step (.openFile "/f".toList .forWriting)).2.step
    (.openFile "/f/x".toList .forWriting)).2.step (.removeFile "/f".toList)).2)
  have hreach : start.Reachable := .step _ (.step _ (.step _ .new))
  have hafter := hall start hreach (.symlink "t".toList "/f/x/l".toList)
    (.notADirectory "/f/x".toList) (by decide +kernel)
  have hnodes := congrArg (fun fs : MemoryFs Unit => fs.nodes.count) hafter
  revert hnodes
  decide +kernel

end Wasmsh.Fs

import Wasmsh.FsParents

/-!
# The tree in the flat map

The nodes are a tree under `/` when every key is a normalized absolute path and stands in a
directory.  The operations that make directories above a new entry only look whether there
is something at each of these paths, not what: below a file or a link they break the tree.
-/

namespace Wasmsh.Fs

open Globs Weighted

variable {R : Type} {strict : Prop} {path : Path} {fs : MemoryFs R} {op : Op R}

/-! ## 1. Trees -/

/-- The path of the directory that an entry stands in. -/
def parentPath (path : Path) : Path := absPath (components path).dropLast

/-- The nodes form a tree. -/
structure WellFormed (nodes : Nodes) : Prop where
  root : nodes.lookup ['/'] = some .dir
  normal : ∀ k ∈ nodes, IsNormal k ∧ k.head? = some '/'
  parent : ∀ k ∈ nodes, k ≠ ['/'] → nodes.lookup (parentPath k) = some .dir

/-- The paths above that of some components. -/
theorem mem_parentPaths_absPath {parts : List Path} (h : ∀ part ∈ parts, Proper part) (p : Path) :
    p ∈ parentPaths (absPath parts) ↔
      ∃ before, before ≠ [] ∧ before <+: parts.dropLast ∧ p = joinPath before := by
  rw [parentPaths, pathParts_absPath h, mem_pathsFrom]
  rfl

theorem mem_parentPaths (hnormal : IsNormal path) (habs : path.head? = some '/') (p : Path) :
    p ∈ parentPaths path ↔
      ∃ before, before ≠ [] ∧ before <+: (components path).dropLast ∧ p = joinPath before := by
  have hpath := absPath_components hnormal habs
  have hiff := mem_parentPaths_absPath (proper_components path) p
  rw [hpath] at hiff
  exact hiff

/-- The directory is one of those above the entry, or the root. -/
theorem parentPath_mem (hnormal : IsNormal path) (habs : path.head? = some '/') :
    parentPath path = ['/'] ∨ parentPath path ∈ parentPaths path := by
  by_cases hnil : (components path).dropLast = []
  · left
    rw [parentPath, hnil]
    rfl
  · right
    rw [mem_parentPaths hnormal habs]
    exact ⟨_, hnil, List.prefix_refl _, absPath_of_ne_nil hnil⟩

theorem components_parentPath (path : Path) :
    components (parentPath path) = (components path).dropLast :=
  components_absPath fun part hpart => proper_components path part (List.dropLast_subset _ hpart)

/-- In a tree all that is above an entry are directories. -/
theorem WellFormed.inDirs {nodes : Nodes} (h : WellFormed nodes) {k : Path} (hk : k ∈ nodes) :
    InDirs nodes k := by
  rcases h.normal k hk with ⟨hnormal, habs⟩
  refine ⟨habs, ?_⟩
  -- upwards, along the number of components
  have hup : ∀ n k, k ∈ nodes → (components k).length = n →
      ∀ before ≠ [], before <+: (components k).dropLast →
        nodes.lookup (joinPath before) = some .dir := by
    intro n
    induction n with
    | zero =>
      intro k _ hlen before hne hstart
      rw [List.length_eq_zero_iff.mp hlen, List.dropLast_nil, List.prefix_nil] at hstart
      exact absurd hstart hne
    | succ n ih =>
      intro k hk hlen before hne hstart
      have hkne : k ≠ ['/'] := by
        rintro rfl
        cases hlen
      have hdir := h.parent k hk hkne
      by_cases hsame : before = (components k).dropLast
      · have hparent : parentPath k = joinPath before := by
          rw [parentPath, ← hsame, absPath_of_ne_nil hne]
        rw [← hparent]
        exact hdir
      · apply ih (parentPath k) (mem_of_lookup hdir)
        · rw [components_parentPath, List.length_dropLast, hlen]
          rfl
        · exact hne
        · rw [components_parentPath]
          rcases hstart with ⟨rest, hrest⟩
          rcases List.eq_nil_or_concat rest with rfl | ⟨init, last, rfl⟩
          · rw [List.append_nil] at hrest
            exact absurd hrest hsame
          · rw [← hrest, List.concat_eq_append, ← List.append_assoc, List.dropLast_concat]
            exact ⟨init, rfl⟩
  intro parent hparent
  rcases (mem_parentPaths hnormal habs parent).mp hparent with ⟨before, hne, hstart, rfl⟩
  exact hup _ k hk rfl before hne hstart

/-! ## 2. What keeps a tree -/

/-- A tree stays one as long as its directories stay and what is new stands in directories. -/
theorem WellFormed.of_dirs {nodes nodes' : Nodes} (h : WellFormed nodes)
    (hdirs : ∀ k, nodes.lookup k = some .dir → nodes'.lookup k = some .dir)
    (hkeys : ∀ k ∈ nodes', k ∈ nodes ∨ (IsNormal k ∧ InDirs nodes' k)) : WellFormed nodes' := by
  refine ⟨hdirs _ h.root, ?_, ?_⟩
  · intro k hk
    rcases hkeys k hk with hold | ⟨hnormal, hin⟩
    · exact h.normal k hold
    · exact ⟨hnormal, hin.1⟩
  · intro k hk hne
    rcases hkeys k hk with hold | ⟨hnormal, hin⟩
    · exact hdirs _ (h.parent k hold hne)
    · rcases parentPath_mem hnormal hin.1 with hroot | hmem
      · rw [hroot]
        exact hdirs _ h.root
      · exact hin.2 _ hmem

/-- Another node at a path that holds no directory. -/
theorem WellFormed.insert_over {nodes : Nodes} (h : WellFormed nodes)
    {old : FsNode} (hold : nodes.lookup path = some old) (hdir : old ≠ .dir) (new : FsNode) :
    WellFormed (nodes.insert path new) := by
  apply h.of_dirs
  · intro k hk
    rw [AList.lookup_insert_ne]
    · exact hk
    · rintro rfl
      rw [hold] at hk
      exact hdir (Option.some.inj hk)
  · intro k hk
    rcases (AList.mem_insert nodes).mp hk with rfl | hk
    · exact Or.inl (mem_of_lookup hold)
    · exact Or.inl hk

/-- No node any more at a path that holds no directory. -/
theorem WellFormed.erase {nodes : Nodes} (h : WellFormed nodes)
    (hdir : nodes.lookup path ≠ some .dir) : WellFormed (nodes.erase path) := by
  apply h.of_dirs
  · intro k hk
    rw [AList.lookup_erase_ne]
    · exact hk
    · rintro rfl
      exact hdir hk
  · intro k hk
    exact Or.inl (AList.mem_erase.mp hk).2

/-- An entry that stands in directories. -/
theorem WellFormed.insert_new {nodes : Nodes} (h : WellFormed nodes)
    (hnormal : IsNormal path) (habsent : path ∉ nodes) (hin : InDirs nodes path) (node : FsNode) :
    WellFormed (nodes.insert path node) := by
  have hother : ∀ k, nodes.lookup k = some .dir →
      (AList.insert path node nodes).lookup k = some .dir := by
    intro k hk
    rw [AList.lookup_insert_ne]
    · exact hk
    · rintro rfl
      exact habsent (mem_of_lookup hk)
  apply h.of_dirs hother
  intro k hk
  rcases (AList.mem_insert nodes).mp hk with rfl | hk
  · exact Or.inr ⟨hnormal, hin.1, fun p hp => hother p (hin.2 p hp)⟩
  · exact Or.inl hk

/-- The entries of a directory start with its path and a `/`. -/
theorem dirPrefix_parentPath {k : Path} (hnormal : IsNormal k) (habs : k.head? = some '/')
    (hne : k ≠ ['/']) : MemoryFs.dirPrefix (parentPath k) <+: k := by
  have hpath := absPath_components hnormal habs
  rcases List.eq_nil_or_concat (components k) with hnil | ⟨init, last, hparts⟩
  · rw [hnil] at hpath
    exact absurd hpath.symm hne
  · rw [List.concat_eq_append] at hparts
    have hk : k = joinPath init ++ '/' :: last := by
      rw [← hpath, hparts, absPath_of_ne_nil (by simp), joinPath_append, joinPath_cons]
      simp [joinPath]
    have hparent : parentPath k = absPath init := by
      rw [parentPath, hparts, List.dropLast_concat]
    rw [hparent, MemoryFs.dirPrefix]
    by_cases hinit : init = []
    · subst hinit
      rw [hk]
      exact ⟨last, rfl⟩
    · have hnotroot : absPath init ≠ ['/'] := by
        intro heq
        have hcomponents := @components_absPath init (fun part hpart =>
          proper_components k part (by rw [hparts]; exact List.mem_append_left _ hpart))
        rw [heq] at hcomponents
        exact hinit hcomponents.symm
      rw [if_neg hnotroot, absPath_of_ne_nil hinit, hk]
      exact ⟨last, by simp⟩

/-- A directory with nothing below it. -/
theorem WellFormed.erase_dir {nodes : Nodes} (h : WellFormed nodes)
    (hempty : ∀ key ∈ nodes, ¬ MemoryFs.dirPrefix path <+: key) :
    WellFormed (nodes.erase path) := by
  have hroot : path ≠ ['/'] := by
    rintro rfl
    exact hempty ['/'] (mem_of_lookup h.root) (List.prefix_refl _)
  refine ⟨?_, ?_, ?_⟩
  · rw [AList.lookup_erase_ne hroot.symm]
    exact h.root
  · intro k hk
    exact h.normal k (AList.mem_erase.mp hk).2
  · intro k hk hne
    have hold := (AList.mem_erase.mp hk).2
    rcases h.normal k hold with ⟨hnormal, habs⟩
    rw [AList.lookup_erase_ne]
    · exact h.parent k hold hne
    · intro heq
      apply hempty k hold
      rw [← heq]
      exact dirPrefix_parentPath hnormal habs hne

/-- Strict changes keep the tree. -/
theorem Change.wellFormed {fs fs' : MemoryFs R} (h : Change True fs fs')
    (hfs : WellFormed fs.nodes) : WellFormed fs'.nodes := by
  cases h with
  | handles handles next => exact hfs
  | create hnormal habsent hroom hsize hdirs =>
    exact hfs.insert_new hnormal habsent (hdirs trivial) _
  | write hfile hsize htotal => exact hfs.insert_over hfile FsNode.noConfusion _
  | empty hfile => exact hfs.insert_over hfile FsNode.noConfusion _
  | install reader hnode hdir => exact hfs.insert_over hnode hdir _
  | dropReader path => exact hfs
  | removeFile hfile => exact hfs.erase (by simp [hfile])
  | removeLink hlink => exact hfs.erase (by simp [hlink])
  | removeDir hdir hempty => exact hfs.erase_dir hempty

theorem Effect.wellFormed {fs fs' : MemoryFs R} (h : Effect True fs op fs')
    (hreaders : ReadersOnFiles fs) (hfs : WellFormed fs.nodes) : WellFormed fs'.nodes := by
  cases h with
  | changes _ hchanges =>
    exact hchanges.keep (P := fun fs => WellFormed fs.nodes)
      (fun _ _ hstep => hstep.wellFormed) hfs
  | takes handles next htaken hmem =>
    rcases hreaders _ hmem with ⟨contents, hfile⟩
    exact hfs.erase (by simp [hfile])
  | setsMode mode htaken hmem => exact hfs

/-! ## 3. Calls on absolute paths -/

/-- The paths of a call start with `/`; the target of a link is no path of the call. -/
def Op.Absolute : Op R → Prop
  | .openFile path _ => path.head? = some '/'
  | .writeFile _ _ => True
  | .openWriteSink path _ => path.head? = some '/'
  | .sinkWrite _ _ => True
  | .installStreamReader path _ => path.head? = some '/'
  | .close _ => True
  | .symlink _ link => link.head? = some '/'
  | .createDir path => path.head? = some '/'
  | .removeFile path => path.head? = some '/'
  | .removeDir path => path.head? = some '/'
  | .setMode path _ => path.head? = some '/'

/-- What a link at an absolute path leads to is absolute. -/
theorem head_linkTarget {current : Path} (habs : current.head? = some '/') (target : Path) :
    (linkTarget current target).head? = some '/' := by
  unfold linkTarget
  split
  · next htarget => exact head_normalizePath htarget
  · apply head_normalizePath
    unfold beforeLastSlash
    split
    · next dirPart last hlast =>
      rcases splitLastSlash_spec hlast with ⟨before, rfl, hcurrent⟩
      rw [List.dropLast_concat]
      cases before with
      | nil => rfl
      | cons c before =>
        rw [hcurrent] at habs
        exact habs
    · rfl

theorem head_resolveNormalized {nodes : Nodes} {n : Nat} {path norm : Path}
    (h : resolveNormalized nodes n path = .ok norm) (habs : path.head? = some '/') :
    norm.head? = some '/' := by
  induction n generalizing path with
  | zero => cases h
  | succ n ih =>
    unfold resolveNormalized at h
    split at h
    · exact ih h (head_linkTarget habs _)
    · cases h
      exact habs

/-- The path of a new entry is normalized, and absolute when those of the call are. -/
theorem made_spec {norm : Path} (h : fs.made op = some norm) :
    IsNormal norm ∧ (op.Absolute → norm.head? = some '/') := by
  have hresolved : ∀ path, (fs.resolve path).toOption = some norm →
      IsNormal norm ∧ (path.head? = some '/' → norm.head? = some '/') := by
    intro path hpath
    cases hresolve : fs.resolve path with
    | error e =>
      rw [hresolve] at hpath
      cases hpath
    | ok resolved =>
      rw [hresolve] at hpath
      cases hpath
      exact ⟨MemoryFs.isNormal_resolve hresolve,
        fun habs => head_resolveNormalized hresolve (head_normalizePath habs)⟩
  have hlexical : ∀ path, normalizePath path = norm →
      IsNormal norm ∧ (path.head? = some '/' → norm.head? = some '/') := by
    rintro path rfl
    exact ⟨isNormal_normalizePath path, head_normalizePath⟩
  cases op with
  | openFile path opts =>
    unfold MemoryFs.made at h
    dsimp only at h
    split at h
    · exact hresolved path h
    · cases h
  | openWriteSink path append => exact hresolved path h
  | installStreamReader path reader => exact hlexical path (Option.some.inj h)
  | createDir path => exact hlexical path (Option.some.inj h)
  | symlink target link => exact hlexical link (Option.some.inj h)
  | writeFile handle data => cases h
  | sinkWrite i data => cases h
  | close handle => cases h
  | removeFile path => cases h
  | removeDir path => cases h
  | setMode path mode => cases h

/-- A call makes an entry below something that is no directory, and there is room for it. -/
def Misplaces (fs : MemoryFs R) (op : Op R) : Prop :=
  ∃ norm, fs.made op = some norm ∧ norm ∉ fs.nodes ∧ op.isSymlink = false ∧
    fs.nodes.count < maxInodes ∧ ∃ parent ∈ parentPaths norm, blocked fs.nodes parent = true

theorem createNode_full {node : FsNode} {nodes : Nodes}
    (hfull : maxInodes ≤ nodes.count) : (createNode path node nodes).2 = nodes := by
  have hloop := @ensureParents_full (parentPaths path) nodes hfull
  unfold createNode
  split
  · next heq =>
    rw [heq] at hloop
    exact hloop
  · next heq =>
    rw [heq] at hloop
    dsimp only at hloop
    rw [hloop, if_pos hfull]

theorem nodes_openResolved {norm : Path} {opts : OpenOptions}
    (hcreates : opts.create = true) (habsent : norm ∉ fs.nodes) :
    (fs.openResolved norm opts).2.nodes = (createNode norm (.file []) fs.nodes).2 := by
  unfold MemoryFs.openResolved
  rw [AList.lookup_eq_none.mpr habsent]
  dsimp only
  rw [if_pos hcreates]
  generalize createNode norm (.file []) fs.nodes = made
  rcases made with ⟨e | _, nodes⟩
  · rfl
  · rfl

theorem nodes_openFile {path norm : Path} {opts : OpenOptions}
    (hcreates : opts.create = true) (hnorm : fs.resolve path = .ok norm)
    (habsent : norm ∉ fs.nodes) :
    (fs.openFile path opts).2.nodes = (createNode norm (.file []) fs.nodes).2 := by
  have honly : opts.readOnly = false := by simp [OpenOptions.readOnly, hcreates]
  unfold MemoryFs.openFile
  rw [hnorm]
  dsimp only
  rw [honly, if_neg Bool.false_ne_true]
  exact nodes_openResolved hcreates habsent

theorem nodes_openWriteSink {path norm : Path} (append : Bool)
    (hnorm : fs.resolve path = .ok norm) (habsent : norm ∉ fs.nodes) :
    (fs.openWriteSink path append).2.nodes = (createNode norm (.file []) fs.nodes).2 := by
  unfold MemoryFs.openWriteSink
  rw [hnorm]
  dsimp only
  rw [AList.lookup_eq_none.mpr habsent]
  dsimp only
  cases hmade : createNode norm (.file []) fs.nodes with
  | mk r nodes =>
    cases r with
    | error e => rfl
    | ok _ =>
      dsimp only
      split
      · rfl
      · -- the new file is emptied once more
        rcases createNode_ok hmade with ⟨after, rfl⟩
        exact AList.insert_insert after

theorem nodes_installStreamReader (reader : R) (habsent : normalizePath path ∉ fs.nodes) :
    (fs.installStreamReader path reader).2.nodes =
      (createNode (normalizePath path) (.file []) fs.nodes).2 := by
  have hdir : fs.nodes.lookup (normalizePath path) ≠ some .dir := by
    rw [AList.lookup_eq_none.mpr habsent]
    exact Option.some_ne_none _ |>.symm
  unfold MemoryFs.installStreamReader createNode
  dsimp only
  rw [if_neg hdir]
  generalize ensureParents (parentPaths (normalizePath path)) fs.nodes = made
  rcases made with ⟨e | _, nodes⟩
  · rfl
  · dsimp only
    by_cases hfull : maxInodes ≤ nodes.count
    · rw [if_pos hfull, if_pos (by simp [habsent, hfull])]
    · rw [if_neg hfull, if_neg (by simp [hfull])]

/-- All that make an entry where there is none make it in the same way. -/
theorem nodes_step_of_made {s : Session R} {norm : Path}
    (hmade : s.fs.made op = some norm) (habsent : norm ∉ s.fs.nodes)
    (hsymlink : op.isSymlink = false) :
    ∃ node, (s.step op).2.fs.nodes = (createNode norm node s.fs.nodes).2 := by
  cases op with
  | openFile path opts =>
    unfold MemoryFs.made at hmade
    dsimp only at hmade
    split at hmade
    · next hcreates =>
      cases hresolve : s.fs.resolve path with
      | error e =>
        rw [hresolve] at hmade
        cases hmade
      | ok resolved =>
        rw [hresolve] at hmade
        cases hmade
        exact ⟨_, nodes_openFile hcreates hresolve habsent⟩
    · cases hmade
  | openWriteSink path append =>
    unfold MemoryFs.made at hmade
    dsimp only at hmade
    cases hresolve : s.fs.resolve path with
    | error e =>
      rw [hresolve] at hmade
      cases hmade
    | ok resolved =>
      rw [hresolve] at hmade
      cases hmade
      refine ⟨.file [], ?_⟩
      rw [← nodes_openWriteSink append hresolve habsent]
      unfold Session.step
      dsimp only
      split
      · next heq => rw [heq]
      · next heq => rw [heq]
  | installStreamReader path reader =>
    cases hmade
    exact ⟨_, nodes_installStreamReader reader habsent⟩
  | createDir path =>
    cases hmade
    refine ⟨.dir, ?_⟩
    unfold Session.step MemoryFs.createDir
    dsimp only
    rw [if_neg habsent]
    rfl
  | symlink target link => cases hsymlink
  | writeFile handle data => cases hmade
  | sinkWrite i data => cases hmade
  | close handle => cases hmade
  | removeFile path => cases hmade
  | removeDir path => cases hmade
  | setMode path mode => cases hmade

/-! ## 4. Runs on absolute paths -/

/-- A call that misplaces nothing keeps the tree. -/
theorem wellFormed_step {s : Session R} (habs : op.Absolute)
    (hreaders : ReadersOnFiles s.fs) (hs : WellFormed s.fs.nodes) (h : ¬ Misplaces s.fs op) :
    WellFormed (s.step op).2.fs.nodes := by
  by_cases hplaced : WellPlaced s.fs op
  · exact (s.effect op fun _ => hplaced).wellFormed hreaders hs
  · -- then it makes an entry, but has no room for it
    unfold WellPlaced at hplaced
    push Not at hplaced
    rcases hplaced with ⟨norm, hmade, hno⟩
    rcases hno ((made_spec hmade).2 habs) with ⟨hsymlink, parent, hparent, hmem, hnotdir⟩
    have habsent : norm ∉ s.fs.nodes := by
      intro hthere
      exact hnotdir ((hs.inDirs hthere).2 parent hparent)
    have hfull : maxInodes ≤ s.fs.nodes.count := by
      by_contra hroom
      apply h
      refine ⟨norm, hmade, habsent, hsymlink, Nat.lt_of_not_le hroom, parent, hparent, ?_⟩
      simp [blocked, hmem, hnotdir]
    rcases nodes_step_of_made hmade habsent hsymlink with ⟨node, hnodes⟩
    rw [hnodes, createNode_full hfull]
    exact hs

/-- The loop makes the first path that is missing. -/
theorem mem_ensureParents {before after : List Path} {p : Path} {nodes : Nodes}
    (hbefore : ∀ q ∈ before, q ∈ nodes) (hroom : nodes.count < maxInodes) :
    p ∈ (ensureParents (before ++ p :: after) nodes).2 := by
  rw [ensureParents_append hbefore]
  by_cases hp : p ∈ nodes
  · exact (@made_ensureParents False (p :: after) nodes False.elim).mem hp
  · rw [ensureParents, if_neg hp, if_neg (Nat.not_le.mpr hroom)]
    exact (@made_ensureParents False after _ False.elim).mem
      ((AList.mem_insert nodes).mpr (Or.inl rfl))

/-- The nodes that are there stay, but at the path of the new entry. -/
theorem lookup_createNode_of_mem {path k : Path} {node : FsNode} {nodes : Nodes} (hk : k ∈ nodes)
    (hne : k ≠ path) : (createNode path node nodes).2.lookup k = nodes.lookup k := by
  have hmade := @made_ensureParents False (parentPaths path) nodes False.elim
  unfold createNode
  split
  · next heq =>
    rw [heq] at hmade
    exact hmade.lookup_of_mem hk
  · next heq =>
    rw [heq] at hmade
    split
    · exact hmade.lookup_of_mem hk
    · rw [AList.lookup_insert_ne hne]
      exact hmade.lookup_of_mem hk

/-- The first path that is missing, the new entry at the end among them, is made. -/
theorem mem_createNode {path p : Path} {before after : List Path} {node : FsNode} {nodes : Nodes}
    (hpaths : parentPaths path ++ [path] = before ++ p :: after)
    (hbefore : ∀ q ∈ before, q ∈ nodes) (hroom : nodes.count < maxInodes) :
    p ∈ (createNode path node nodes).2 := by
  rcases List.eq_nil_or_concat after with rfl | ⟨init, last, rfl⟩
  · rcases List.append_inj' hpaths rfl with ⟨hparents, hlast⟩
    cases hlast
    rw [createNode, hparents, ensureParents_present hbefore]
    dsimp only
    rw [if_neg (Nat.not_le.mpr hroom)]
    exact (AList.mem_insert nodes).mpr (Or.inl rfl)
  · rw [List.concat_eq_append, ← List.cons_append, ← List.append_assoc] at hpaths
    have hparents := (List.append_inj' hpaths rfl).1
    have hmem := @mem_ensureParents before init p nodes hbefore hroom
    rw [← hparents] at hmem
    unfold createNode
    split
    · next heq =>
      rw [heq] at hmem
      exact hmem
    · next heq =>
      rw [heq] at hmem
      split
      · exact hmem
      · exact (AList.mem_insert _).mpr (Or.inr hmem)

theorem pathsFrom_append (current : Path) (xs ys : List Path) :
    pathsFrom current (xs ++ ys) = pathsFrom current xs ++ pathsFrom (current ++ joinPath xs) ys := by
  induction xs generalizing current with
  | nil => simp [pathsFrom, joinPath]
  | cons x xs ih =>
    rw [List.cons_append, pathsFrom, pathsFrom, ih, List.cons_append, joinPath_cons,
      List.append_assoc, List.cons_append]

/-- The paths above an entry and its own are the paths along its components. -/
theorem parentPaths_concat (hnormal : IsNormal path) (habs : path.head? = some '/')
    (hne : components path ≠ []) :
    parentPaths path ++ [path] = pathsFrom [] (components path) := by
  have hpath := absPath_components hnormal habs
  have hparts : pathParts path = components path := by
    conv_lhs => rw [← hpath]
    exact pathParts_absPath (proper_components path)
  rcases List.eq_nil_or_concat (components path) with hnil | ⟨init, last, hcomponents⟩
  · exact absurd hnil hne
  · rw [List.concat_eq_append] at hcomponents
    have hlast : path = joinPath init ++ '/' :: last := by
      rw [← hpath, hcomponents, absPath_of_ne_nil (by simp), joinPath_append, joinPath_cons]
      simp [joinPath]
    rw [parentPaths, hparts, hcomponents, List.dropLast_concat, pathsFrom_append, List.nil_append]
    rw [pathsFrom, pathsFrom, ← hlast]

/-- The entry just below some components stands in their directory. -/
theorem parentPath_joinPath {before : List Path} {next : Path} (hne : before ≠ [])
    (hproper : ∀ part ∈ before ++ [next], Proper part) :
    parentPath (joinPath (before ++ [next])) = joinPath before := by
  rw [← absPath_of_ne_nil (List.append_ne_nil_of_left_ne_nil hne [next]), parentPath,
    components_absPath hproper, List.dropLast_concat, absPath_of_ne_nil hne]

/-- In a tree everything above an entry is there. -/
theorem WellFormed.mem_pathsFrom {nodes : Nodes} (hs : WellFormed nodes) {before : List Path}
    (hproper : ∀ part ∈ before, Proper part) (hmem : joinPath before ∈ nodes) :
    ∀ q ∈ pathsFrom [] before, q ∈ nodes := by
  intro q hq
  rcases Fs.mem_pathsFrom.mp hq with ⟨shorter, hne, hstart, rfl⟩
  rw [List.nil_append]
  by_cases hsame : shorter = before
  · rw [hsame]
    exact hmem
  · have hnil : before ≠ [] := by
      rintro rfl
      exact hne (List.prefix_nil.mp hstart)
    rw [← absPath_of_ne_nil hnil] at hmem
    apply mem_of_lookup
    apply (hs.inDirs hmem).2
    rw [mem_parentPaths_absPath hproper]
    refine ⟨shorter, hne, ?_, rfl⟩
    rcases hstart with ⟨rest, rfl⟩
    rcases List.eq_nil_or_concat rest with rfl | ⟨init, last, rfl⟩
    · exact absurd (List.append_nil shorter).symm hsame
    · rw [List.concat_eq_append, ← List.append_assoc, List.dropLast_concat]
      exact List.prefix_append _ _

/-- A call that misplaces an entry breaks the tree. -/
theorem not_wellFormed_step {s : Session R} (habs : op.Absolute)
    (hs : WellFormed s.fs.nodes) (h : Misplaces s.fs op) :
    ¬ WellFormed (s.step op).2.fs.nodes := by
  rcases h with ⟨norm, hmade, habsent, hsymlink, hroom, parent, hparent, hblocked⟩
  rcases made_spec hmade with ⟨hnormal, hhead⟩
  rcases (mem_parentPaths hnormal (hhead habs) parent).mp hparent with ⟨before, hne, hstart, rfl⟩
  simp only [blocked, Bool.and_eq_true, decide_eq_true_eq] at hblocked
  rcases hstart.trans (List.dropLast_prefix _) with ⟨rest, hparts⟩
  cases rest with
  | nil =>
    -- the path in the way would be as long as the whole path
    have hlen := hstart.length_le
    rw [← hparts, List.append_nil, List.length_dropLast] at hlen
    have hpos := List.length_pos_iff.mpr hne
    omega
  | cons next rest =>
    intro hafter
    have hproper : ∀ part ∈ before ++ next :: rest, Proper part := by
      rw [hparts]
      exact proper_components norm
    have hbefore : ∀ part ∈ before, Proper part := fun part hpart =>
      hproper part (List.mem_append_left _ hpart)
    have hchild : ∀ part ∈ before ++ [next], Proper part := by
      intro part hpart
      apply hproper part
      rcases List.mem_append.mp hpart with hpart | hpart
      · exact List.mem_append_left _ hpart
      · exact List.mem_append_right _ (List.mem_cons.mpr (Or.inl (List.mem_singleton.mp hpart)))
    have hjoin : joinPath before ++ '/' :: next = joinPath (before ++ [next]) := by
      rw [joinPath_append, joinPath_cons]
      simp [joinPath]
    have hpaths : parentPaths norm ++ [norm] = pathsFrom [] before ++
        joinPath (before ++ [next]) :: pathsFrom (joinPath (before ++ [next])) rest := by
      rw [parentPaths_concat hnormal (hhead habs) (by rw [← hparts]; simp), ← hparts,
        pathsFrom_append, pathsFrom, List.nil_append, hjoin]
    rcases nodes_step_of_made hmade habsent hsymlink with ⟨node, hnodes⟩
    rw [hnodes] at hafter
    -- the entry below what is in the way is there now, and its directory is none
    have hthere := @mem_createNode _ _ _ _ node _ hpaths (hs.mem_pathsFrom hbefore hblocked.1) hroom
    have hroot : joinPath (before ++ [next]) ≠ ['/'] := by
      intro heq
      have hcomponents := components_absPath hchild
      have hnil : components ['/'] = [] := rfl
      rw [absPath_of_ne_nil (by simp), heq, hnil] at hcomponents
      simp at hcomponents
    have hdir := hafter.parent _ hthere hroot
    rw [parentPath_joinPath hne hchild, lookup_createNode_of_mem hblocked.1] at hdir
    · exact hblocked.2 hdir
    · intro heq
      exact habsent (heq ▸ hblocked.1)

theorem wellFormed_new : WellFormed (Session.new : Session R).fs.nodes := by
  have honly : ∀ k ∈ (Session.new : Session R).fs.nodes, k = ['/'] := by
    intro k hk
    rcases (AList.mem_insert _).mp hk with hroot | hk
    · exact hroot
    · exact absurd hk (AList.notMem_empty k)
  refine ⟨AList.lookup_insert _, ?_, ?_⟩
  · intro k hk
    rw [honly k hk]
    exact ⟨rfl, rfl⟩
  · intro k hk hne
    exact absurd (honly k hk) hne

/-- **The nodes stay a tree as long as nothing is misplaced**: in a run on absolute paths
    every state has a tree, if and only if no call makes an entry below a file or a link. -/
theorem tree_iff (ops : List (Op R)) (habs : ∀ op ∈ ops, op.Absolute) :
    (∀ s ∈ Session.new.states ops, WellFormed s.fs.nodes) ↔
      ∀ call ∈ Session.new.calls ops, ¬ Misplaces call.1.fs call.2 := by
  constructor
  · intro htree call hcall hmisplaces
    rcases Runs.mem_states_of_mem_calls hcall with ⟨hbefore, hafter⟩
    have hop := habs call.2 (Runs.input_of_mem_calls hcall)
    exact not_wellFormed_step hop (htree _ hbefore) hmisplaces (htree _ hafter)
  · intro hplaced s hs
    have hboth := Runs.states_induct
      (P := fun s : Session R => s.Reachable ∧ WellFormed s.fs.nodes) ⟨.new, wellFormed_new⟩
      (fun call hcall ⟨hreach, htree⟩ =>
        ⟨hreach.step _, wellFormed_step (habs call.2 (Runs.input_of_mem_calls hcall))
          hreach.readersOnFiles htree (hplaced call hcall)⟩)
    exact (hboth s hs).2

/-- A file and an entry below it. -/
theorem file_in_file_breaks_tree :
    ¬ ∀ ops : List (Op Unit), (∀ op ∈ ops, op.Absolute) →
      ∀ s ∈ Session.new.states ops, WellFormed s.fs.nodes := by
  intro hall
  have htree := hall [.openFile "/f".toList .forWriting, .openFile "/f/x".toList .forWriting]
    (by simp [Op.Absolute])
  have hlast := htree _ (.tail _ (.tail _ (.head _)))
  have hdir := hlast.parent "/f/x".toList (by decide +kernel) (by decide)
  revert hdir
  decide +kernel

/-- A directory and a file in it. -/
theorem tree_of_dir_and_file :
    WellFormed (((Session.new : Session Unit).step (.createDir "/d".toList)).2.step
      (.openFile "/d/x".toList .forWriting)).2.fs.nodes := by
  have hplaced : ∀ call ∈ (Session.new : Session Unit).calls
      [.createDir "/d".toList, .openFile "/d/x".toList .forWriting],
      ¬ Misplaces call.1.fs call.2 := by
    rintro call hcall ⟨norm, hmade, -, -, -, parent, hparent, hblocked⟩
    rcases List.mem_cons.mp hcall with rfl | hcall
    · cases hmade
      have hnone : parentPaths (normalizePath "/d".toList) = [] := by decide +kernel
      rw [hnone] at hparent
      cases hparent
    · rcases List.mem_singleton.mp hcall with rfl
      have hnorm : norm = "/d/x".toList := by
        have hsame : (Session.new : Session Unit).fs.createDir "/d".toList |>.2.made
            (.openFile "/d/x".toList .forWriting) = some "/d/x".toList := by decide +kernel
        exact Option.some.inj (hmade.symm.trans hsame)
      subst hnorm
      have hone : parentPaths "/d/x".toList = ["/d".toList] := by decide +kernel
      rw [hone, List.mem_singleton] at hparent
      subst hparent
      revert hblocked
      decide +kernel
  exact (tree_iff _ (by simp [Op.Absolute])).mpr hplaced _ (.tail _ (.tail _ (.head _)))

end Wasmsh.Fs

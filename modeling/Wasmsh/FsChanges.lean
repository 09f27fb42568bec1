import Mathlib.Logic.Relation
import Wasmsh.FsPaths

/-!
# What an operation can do to the filesystem

Every operation is a sequence of single changes, whether it succeeds or not.  Two are set
apart: a read-only `open` that takes an installed reader, which removes the node without its
bytes and without its permission bits, and `set_mode`.
-/

namespace Wasmsh.Fs

open Globs Weighted

variable {R : Type} {fs : MemoryFs R} {fs fs' : MemoryFs R}

/-! ## 1. Single changes -/

/-- The path is absolute and what it stands in are directories. -/
def InDirs (nodes : Nodes) (path : Path) : Prop :=
  path.head? = some '/' ∧ ∀ parent ∈ parentPaths path, nodes.lookup parent = some .dir

/-- The path is absolute and nothing that it would stand in is in the way. -/
def Clear (nodes : Nodes) (path : Path) : Prop :=
  path.head? = some '/' ∧
    ∀ parent ∈ parentPaths path, parent ∈ nodes → nodes.lookup parent = some .dir

/-- A single change; a strict one makes no entry outside the directories. -/
inductive Change (strict : Prop) (fs : MemoryFs R) : MemoryFs R → Prop
  /-- A handle is opened or closed. -/
  | handles (handles : AList fun _ : Nat => OpenFile R) (next : Nat) :
    Change strict fs { fs with handles := handles, nextHandle := next }
  /-- An entry without contents is made where there is none. -/
  | create {path : Path} {node : FsNode} : IsNormal path → path ∉ fs.nodes →
    fs.nodes.count < maxInodes → node.size = 0 → (strict → InDirs fs.nodes path) →
    Change strict fs { fs with nodes := fs.nodes.insert path node }
  /-- A file gets other contents, within the limits. -/
  | write {path : Path} {old new : Bytes} : fs.nodes.lookup path = some (.file old) →
    new.length ≤ maxFileSize → fs.totalBytes - old.length + new.length ≤ maxTotalBytes →
    Change strict fs { fs with
      nodes := fs.nodes.insert path (.file new)
      totalBytes := fs.totalBytes - old.length + new.length }
  | empty {path : Path} {old : Bytes} : fs.nodes.lookup path = some (.file old) →
    Change strict fs (fs.emptyFile path old)
  /-- An entry that is no directory becomes an empty file with a reader. -/
  | install {path : Path} {node : FsNode} (reader : R) : fs.nodes.lookup path = some node →
    node ≠ .dir →
    Change strict fs { fs with
      nodes := fs.nodes.insert path (.file [])
      virtualReaders := fs.virtualReaders.insert path reader
      totalBytes := fs.totalBytes - node.size }
  | dropReader (path : Path) :
    Change strict fs { fs with virtualReaders := fs.virtualReaders.erase path }
  | removeFile {path : Path} {old : Bytes} : fs.nodes.lookup path = some (.file old) →
    Change strict fs { fs.eraseNode path with
      virtualReaders := fs.virtualReaders.erase path
      totalBytes := fs.totalBytes - old.length }
  | removeLink {path target : Path} : fs.nodes.lookup path = some (.symlink target) →
    Change strict fs (fs.eraseNode path)
  /-- Nothing is below a directory that is removed. -/
  | removeDir {path : Path} : fs.nodes.lookup path = some .dir →
    (∀ key ∈ fs.nodes, ¬ MemoryFs.dirPrefix path <+: key) →
    Change strict fs (fs.eraseNode path)

abbrev Changes (strict : Prop) : MemoryFs R → MemoryFs R → Prop :=
  Relation.ReflTransGen (Change strict)

variable {strict : Prop}

theorem mem_of_lookup {nodes : Nodes} {path : Path} {node : FsNode}
    (h : nodes.lookup path = some node) : path ∈ nodes := by
  rw [← AList.lookup_isSome, h]
  rfl

/-! ## 2. The directories above an entry -/

/-- Directories are made along a list of paths, as far as the loop goes. -/
inductive Made (strict : Prop) : List Path → Nodes → Except FsError Unit → Nodes → Prop
  | done (nodes : Nodes) : Made strict [] nodes (.ok ()) nodes
  | stop (ps : List Path) (nodes : Nodes) (e : FsError) : Made strict ps nodes (.error e) nodes
  | there {p : Path} {ps : List Path} {nodes nodes' : Nodes} {r : Except FsError Unit} :
    p ∈ nodes → (strict → nodes.lookup p = some .dir) → Made strict ps nodes r nodes' →
    Made strict (p :: ps) nodes r nodes'
  | make {p : Path} {ps : List Path} {nodes nodes' : Nodes} {r : Except FsError Unit} :
    p ∉ nodes → nodes.count < maxInodes → Made strict ps (nodes.insert p .dir) r nodes' →
    Made strict (p :: ps) nodes r nodes'

theorem made_ensureParents {ps : List Path} {nodes : Nodes}
    (h : strict → ∀ p ∈ ps, p ∈ nodes → nodes.lookup p = some .dir) :
    Made strict ps nodes (ensureParents ps nodes).1 (ensureParents ps nodes).2 := by
  induction ps generalizing nodes with
  | nil => exact .done nodes
  | cons p ps ih =>
    unfold ensureParents
    split
    · next hp =>
      apply Made.there hp (fun hs => h hs p (.head _) hp)
      exact ih fun hs q hq => h hs q (.tail _ hq)
    · next hp =>
      split
      · exact .stop _ _ _
      · next hroom =>
        apply Made.make hp (Nat.lt_of_not_le hroom)
        apply ih
        intro hs q hq hmem
        by_cases hqp : q = p
        · subst hqp
          exact AList.lookup_insert nodes
        · rw [AList.lookup_insert_ne hqp]
          rcases (AList.mem_insert nodes).mp hmem with heq | hmem
          · exact absurd heq hqp
          · exact h hs q (.tail _ hq) hmem

theorem made_ensureParentDirs (ps : List Path) (nodes : Nodes) :
    Made strict ps nodes (ensureParentDirs ps nodes).1 (ensureParentDirs ps nodes).2 := by
  induction ps generalizing nodes with
  | nil => exact .done nodes
  | cons p ps ih =>
    unfold ensureParentDirs
    split
    · next hdir =>
      have hp : p ∈ nodes := by
        rw [← AList.lookup_isSome, hdir]
        rfl
      exact .there hp (fun _ => hdir) (ih nodes)
    · exact .stop _ _ _
    · next hp =>
      split
      · exact .stop _ _ _
      · next hroom =>
        exact .make (AList.lookup_eq_none.mp hp) (Nat.lt_of_not_le hroom) (ih _)

namespace Made

variable {ps : List Path} {nodes nodes' : Nodes} {r : Except FsError Unit}

/-- A path that is there already keeps its node; those that are new are directories. -/
theorem lookup (h : Made strict ps nodes r nodes') (k : Path) :
    nodes'.lookup k = nodes.lookup k ∨
      (k ∈ ps ∧ k ∉ nodes ∧ nodes'.lookup k = some .dir) := by
  induction h with
  | done nodes => exact Or.inl rfl
  | stop ps nodes e => exact Or.inl rfl
  | there _ _ _ ih =>
    rcases ih with h | ⟨hk, hnot, h⟩
    · exact Or.inl h
    · exact Or.inr ⟨.tail _ hk, hnot, h⟩
  | @make p ps nodes nodes' r hp _ _ ih =>
    by_cases hkp : k = p
    · subst hkp
      have hdir : (AList.insert k FsNode.dir nodes).lookup k = some .dir :=
        AList.lookup_insert nodes
      rcases ih with h | ⟨-, -, h⟩
      · exact Or.inr ⟨.head _, hp, h.trans hdir⟩
      · exact Or.inr ⟨.head _, hp, h⟩
    · have hsame : (AList.insert p FsNode.dir nodes).lookup k = nodes.lookup k :=
        AList.lookup_insert_ne hkp
      rcases ih with h | ⟨hk, hnot, h⟩
      · exact Or.inl (h.trans hsame)
      · exact Or.inr ⟨.tail _ hk, fun hmem => hnot ((AList.mem_insert nodes).mpr (Or.inr hmem)),
          h⟩

theorem lookup_of_mem (h : Made strict ps nodes r nodes') {k : Path} (hk : k ∈ nodes) :
    nodes'.lookup k = nodes.lookup k := by
  rcases h.lookup k with h | ⟨-, hnot, -⟩
  · exact h
  · exact absurd hk hnot

theorem mem (h : Made strict ps nodes r nodes') {k : Path} (hk : k ∈ nodes) : k ∈ nodes' := by
  rw [← AList.lookup_isSome, h.lookup_of_mem hk]
  exact AList.lookup_isSome.mpr hk

/-- What is not on the way is as it was. -/
theorem lookup_of_not_mem (h : Made strict ps nodes r nodes') {k : Path} (hk : k ∉ ps) :
    nodes'.lookup k = nodes.lookup k := by
  rcases h.lookup k with h | ⟨hmem, -, -⟩
  · exact h
  · exact absurd hmem hk

/-- In the end all of them are directories. -/
theorem dirs (h : Made strict ps nodes r nodes') (hok : r = .ok ()) (hs : strict) :
    ∀ p ∈ ps, nodes'.lookup p = some .dir := by
  induction h with
  | done nodes =>
    intro p hp
    cases hp
  | stop ps nodes e => cases hok
  | there hp hdir hrest ih =>
    intro q hq
    rcases List.mem_cons.mp hq with rfl | hq
    · rw [hrest.lookup_of_mem hp, hdir hs]
    · exact ih hok q hq
  | @make p ps nodes nodes' r hp _ hrest ih =>
    intro q hq
    rcases List.mem_cons.mp hq with rfl | hq
    · rw [hrest.lookup_of_mem ((AList.mem_insert nodes).mpr (Or.inl rfl))]
      exact AList.lookup_insert nodes
    · exact ih hok q hq

end Made

theorem absPath_of_ne_nil {parts : List Path} (h : parts ≠ []) : absPath parts = joinPath parts :=
  if_neg h

/-- The directories above the path of some components. -/
theorem mem_parentPaths_joinPath {done : List Path} {part : Path}
    (hproper : ∀ p ∈ done ++ [part], Proper p) (p : Path) :
    p ∈ parentPaths (joinPath (done ++ [part])) ↔
      ∃ before, before ≠ [] ∧ before <+: done ∧ p = joinPath before := by
  rw [← absPath_of_ne_nil (by simp), parentPaths, pathParts_absPath hproper,
    List.dropLast_concat, mem_pathsFrom]
  rfl

/-- One more directory is there. -/
theorem prefixes_snoc {nodes : Nodes} {done : List Path} {part : Path}
    (hdone : ∀ before ≠ [], before <+: done → nodes.lookup (joinPath before) = some .dir)
    (hpart : nodes.lookup (joinPath (done ++ [part])) = some .dir) :
    ∀ before ≠ [], before <+: done ++ [part] → nodes.lookup (joinPath before) = some .dir := by
  intro before hne hstart
  rcases List.prefix_concat_iff.mp hstart with rfl | hstart
  · exact hpart
  · exact hdone before hne hstart

/-- The changes that make the directories. -/
theorem Made.changes {nodes nodes' : Nodes} {r : Except FsError Unit} {done todo : List Path}
    (h : Made strict (pathsFrom (joinPath done) todo) nodes r nodes') (fs : MemoryFs R)
    (hproper : ∀ part ∈ done ++ todo, Proper part)
    (hdone : strict →
      ∀ before ≠ [], before <+: done → nodes.lookup (joinPath before) = some .dir) :
    Changes strict { fs with nodes := nodes } { fs with nodes := nodes' } := by
  induction todo generalizing nodes done with
  | nil =>
    cases h
    · exact .refl
    · exact .refl
  | cons part todo ih =>
    have hnext : joinPath done ++ '/' :: part = joinPath (done ++ [part]) := by
      rw [joinPath_append, joinPath_cons]
      simp [joinPath]
    have hrest : ∀ p ∈ (done ++ [part]) ++ todo, Proper p := by
      rw [List.append_assoc]
      exact hproper
    have hpart : ∀ p ∈ done ++ [part], Proper p := fun p hp =>
      hrest p (List.mem_append_left _ hp)
    have habs : joinPath (done ++ [part]) = absPath (done ++ [part]) :=
      (absPath_of_ne_nil (by simp)).symm
    rw [pathsFrom, hnext] at h
    cases h with
    | stop ps nodes e => exact .refl
    | there hmem hdir h =>
      exact ih h hrest fun hs => prefixes_snoc (hdone hs) (hdir hs)
    | make hmem hroom h =>
      have hnormal : IsNormal (joinPath (done ++ [part])) := by
        rw [habs]
        exact isNormal_absPath hpart
      have hdirs : strict → InDirs nodes (joinPath (done ++ [part])) := by
        intro hs
        constructor
        · rw [habs]
          exact head_absPath _
        · intro parent hparent
          rcases (mem_parentPaths_joinPath hpart parent).mp hparent with ⟨before, hne, hstart, rfl⟩
          exact hdone hs before hne hstart
      have hchange : Change strict { fs with nodes := nodes } { fs with
          nodes := nodes.insert (joinPath (done ++ [part])) .dir } :=
        Change.create hnormal hmem hroom rfl hdirs
      refine .head hchange (ih h hrest ?_)
      intro hs
      apply prefixes_snoc
      · intro before hne hstart
        have hbefore : joinPath before ≠ joinPath (done ++ [part]) := by
          intro heq
          apply hmem
          rw [← heq, ← AList.lookup_isSome, hdone hs before hne hstart]
          rfl
        rw [AList.lookup_insert_ne hbefore]
        exact hdone hs before hne hstart
      · exact AList.lookup_insert nodes

/-- The components of a normalized path, as the loops see them. -/
theorem proper_pathParts {path : Path} (h : IsNormal path) :
    ∀ part ∈ (pathParts path).dropLast, Proper part := by
  intro part hpart
  by_cases habs : path.head? = some '/'
  · rw [← absPath_components h habs, pathParts_absPath (proper_components path)] at hpart
    exact proper_components path part (List.dropLast_subset _ hpart)
  · rw [← relPath_components h habs] at hpart
    by_cases hne : components path = []
    · rw [hne] at hpart
      cases hpart
    · rw [pathParts_relPath (proper_components path) hne] at hpart
      exact proper_components path part (List.dropLast_subset _ hpart)

theorem changes_parents {path : Path} (hnormal : IsNormal path) {nodes : Nodes}
    {r : Except FsError Unit} (fs : MemoryFs R)
    (h : Made strict (parentPaths path) fs.nodes r nodes) :
    Changes strict fs { fs with nodes := nodes } := by
  refine @Made.changes R strict fs.nodes nodes r [] _ h fs (proper_pathParts hnormal) ?_
  intro _ before hne hstart
  exact absurd (List.prefix_nil.mp hstart) hne

/-- A path that is made as a parent of another is not that other one. -/
theorem not_mem_parentPaths {path : Path} (h : IsNormal path) : path ∉ parentPaths path := by
  intro hmem
  rw [parentPaths, mem_pathsFrom] at hmem
  rcases hmem with ⟨before, hne, hstart, heq⟩
  rw [List.nil_append] at heq
  have habs : path.head? = some '/' := by
    rw [heq, ← absPath_of_ne_nil hne]
    exact head_absPath before
  have hparts : pathParts path = components path := by
    conv_lhs => rw [← absPath_components h habs]
    exact pathParts_absPath (proper_components path)
  have hbefore : ∀ part ∈ before, Proper part := by
    intro part hpart
    apply proper_components path part
    rw [← hparts]
    exact List.dropLast_subset _ (hstart.subset hpart)
  have hsame : components path = before := by
    rw [heq, ← absPath_of_ne_nil hne, components_absPath hbefore]
  rw [hparts, hsame] at hstart
  have hlen := hstart.length_le
  rw [List.length_dropLast] at hlen
  have hpos := List.length_pos_iff.mpr hne
  omega

/-! ## 3. Operations -/

theorem isNormal_resolveNormalized {nodes : Nodes} {n : Nat} {path norm : Path}
    (h : resolveNormalized nodes n path = .ok norm) (hpath : IsNormal path) : IsNormal norm := by
  induction n generalizing path with
  | zero => cases h
  | succ n ih =>
    unfold resolveNormalized at h
    split at h
    · apply ih h
      unfold linkTarget
      split
      · exact isNormal_normalizePath _
      · exact isNormal_normalizePath _
    · cases h
      exact hpath

theorem MemoryFs.isNormal_resolve {path norm : Path}
    (h : fs.resolve path = .ok norm) : IsNormal norm :=
  isNormal_resolveNormalized h (isNormal_normalizePath path)

/-- Nothing but the nodes changes, and they by changes, when an entry is made. -/
theorem changes_createNode {path : Path} (hnormal : IsNormal path) {node : FsNode}
    (hsize : node.size = 0) (fs : MemoryFs R) (hnot : path ∉ fs.nodes)
    (hclear : strict → Clear fs.nodes path) :
    Changes strict fs { fs with nodes := (createNode path node fs.nodes).2 } := by
  have hmade := made_ensureParents fun hs => (hclear hs).2
  unfold createNode
  split
  · next e nodes heq =>
    rw [heq] at hmade
    exact changes_parents hnormal fs hmade
  · next nodes heq =>
    rw [heq] at hmade
    have hparents := changes_parents hnormal fs hmade
    split
    · exact hparents
    · next hroom =>
      have habsent : path ∉ nodes := by
        rw [← AList.lookup_eq_none, hmade.lookup_of_not_mem (not_mem_parentPaths hnormal),
          AList.lookup_eq_none.mpr hnot]
      have hdirs : strict → InDirs nodes path := fun hs =>
        ⟨(hclear hs).1, hmade.dirs rfl hs⟩
      exact hparents.tail (Change.create hnormal habsent (Nat.lt_of_not_le hroom) hsize hdirs)

/-- The new entry is put last. -/
theorem createNode_ok {path : Path} {node : FsNode} {nodes nodes' : Nodes}
    (h : createNode path node nodes = (.ok (), nodes')) :
    ∃ after : Nodes, nodes' = after.insert path node := by
  unfold createNode at h
  split at h
  · cases h
  · next after _ =>
    split at h
    · cases h
    · cases h
      exact ⟨after, rfl⟩

theorem changes_addHandle (h : Changes strict fs fs')
    (source : OpenFileSource R) (opts : OpenOptions) :
    Changes strict fs (fs'.addHandle source opts).2 :=
  h.tail (.handles _ _)

theorem changes_openResolved {norm : Path} (hnormal : IsNormal norm) {opts : OpenOptions}
    (hclear : strict → opts.create = true → norm ∉ fs.nodes → Clear fs.nodes norm) :
    Changes strict fs (fs.openResolved norm opts).2 := by
  unfold MemoryFs.openResolved
  split
  · exact .refl
  · exact .refl
  · next contents hfile =>
    dsimp only
    split
    · exact .refl
    · split
      · exact .refl
      · split
        · exact changes_addHandle (.single (.empty hfile)) _ _
        · exact changes_addHandle .refl _ _
  · next hlookup =>
    have habsent := AList.lookup_eq_none.mp hlookup
    split
    · next hcreates =>
      have hcreate := @changes_createNode R strict norm hnormal (.file []) rfl fs habsent
        fun hs => hclear hs hcreates habsent
      split
      · next heq =>
        rw [heq] at hcreate
        exact hcreate
      · next heq =>
        rw [heq] at hcreate
        exact changes_addHandle hcreate _ _
    · exact .refl

theorem changes_writeChunk (sink : MemoryFs.WriteSink) (data : Bytes) (fs : MemoryFs R) :
    Changes strict fs (MemoryFs.writeChunk sink data fs).2 := by
  unfold MemoryFs.writeChunk
  split
  · next contents hfile =>
    dsimp only
    generalize (if sink.append then contents ++ data else data) = new
    split
    · exact .refl
    · next hsize =>
      split
      · exact .refl
      · next htotal =>
        exact .single (.write hfile (Nat.le_of_not_lt hsize) (Nat.le_of_not_lt htotal))
  · exact .refl

theorem changes_writeFile (handle : Nat) (data : Bytes) (fs : MemoryFs R) :
    Changes strict fs (fs.writeFile handle data).2 := by
  unfold MemoryFs.writeFile
  split
  · exact .refl
  · split
    · exact .refl
    · split
      · exact .refl
      · exact changes_writeChunk _ _ _

theorem changes_openWriteSink {path : Path} (append : Bool)
    (hclear : strict → ∀ norm, fs.resolve path = .ok norm → norm ∉ fs.nodes →
      Clear fs.nodes norm) :
    Changes strict fs (fs.openWriteSink path append).2 := by
  unfold MemoryFs.openWriteSink
  split
  · exact .refl
  · next norm hnorm =>
    have hdrop : Changes strict fs { fs with virtualReaders := fs.virtualReaders.erase norm } :=
      .single (.dropReader norm)
    dsimp only
    split
    · exact hdrop
    · exact hdrop
    · next contents hfile =>
      split
      · exact hdrop
      · exact hdrop.tail (.empty hfile)
    · next hlookup =>
      have habsent := AList.lookup_eq_none.mp hlookup
      have hcreate := @changes_createNode R strict norm (MemoryFs.isNormal_resolve hnorm)
        (.file []) rfl { fs with virtualReaders := fs.virtualReaders.erase norm } habsent
        fun hs => hclear hs norm hnorm habsent
      split
      · next heq =>
        rw [heq] at hcreate
        exact hdrop.trans hcreate
      · next nodes heq =>
        have hfile : nodes.lookup norm = some (.file []) := by
          rcases createNode_ok heq with ⟨after, rfl⟩
          exact AList.lookup_insert after
        rw [heq] at hcreate
        split
        · exact hdrop.trans hcreate
        · exact (hdrop.trans hcreate).tail (.empty hfile)

/-- A reader on a path where there is an entry, and on one where there is none. -/
theorem changes_install {path : Path} (hnormal : IsNormal path) (reader : R) (fs : MemoryFs R)
    (hdir : fs.nodes.lookup path ≠ some .dir) (hdirs : strict → InDirs fs.nodes path)
    (hroom : path ∉ fs.nodes → fs.nodes.count < maxInodes) :
    Changes strict fs { fs with
      nodes := fs.nodes.insert path (.file [])
      virtualReaders := fs.virtualReaders.insert path reader
      totalBytes := fs.totalBytes - weightAt FsNode.size fs.nodes path } := by
  cases hlookup : fs.nodes.lookup path with
  | some node =>
    have hsize : weightAt FsNode.size fs.nodes path = node.size := weightAt_of_lookup hlookup
    rw [hsize]
    rw [hlookup] at hdir
    exact .single (.install reader hlookup fun h => hdir (congrArg some h))
  | none =>
    -- first the empty file, then its reader
    have habsent := AList.lookup_eq_none.mp hlookup
    have hcreate : Change strict fs { fs with nodes := fs.nodes.insert path (.file []) } :=
      .create hnormal habsent (hroom habsent) rfl hdirs
    have hinstall := @Change.install R strict { fs with nodes := fs.nodes.insert path (.file []) }
      path (.file []) reader (AList.lookup_insert fs.nodes) FsNode.noConfusion
    rw [AList.insert_insert] at hinstall
    rw [weightAt_of_not_mem habsent]
    exact .tail (.single hcreate) hinstall

theorem changes_installStreamReader {path : Path} (reader : R)
    (hclear : strict → Clear fs.nodes (normalizePath path)) :
    Changes strict fs (fs.installStreamReader path reader).2 := by
  have hnormal := isNormal_normalizePath path
  have hmade := made_ensureParents fun hs => (hclear hs).2
  unfold MemoryFs.installStreamReader
  dsimp only
  split
  · exact .refl
  · next hdir =>
    split
    · next e nodes heq =>
      rw [heq] at hmade
      exact changes_parents hnormal fs hmade
    · next nodes heq =>
      rw [heq] at hmade
      have hparents := changes_parents hnormal fs hmade
      have hsame : nodes.lookup (normalizePath path) = fs.nodes.lookup (normalizePath path) :=
        hmade.lookup_of_not_mem (not_mem_parentPaths hnormal)
      split
      · exact hparents
      · next hroom =>
        refine hparents.trans (@changes_install R strict _ hnormal reader { fs with nodes := nodes }
          ?_ (fun hs => ⟨(hclear hs).1, hmade.dirs rfl hs⟩) ?_)
        · rw [hsame]
          exact hdir
        · intro habsent
          have hnot : normalizePath path ∉ fs.nodes := by
            rw [← AList.lookup_eq_none, ← hsame, AList.lookup_eq_none.mpr habsent]
          simpa [hnot] using hroom

theorem changes_symlink (target : Path) {link : Path}
    (habs : strict → (normalizePath link).head? = some '/') :
    Changes strict fs (fs.symlink target link).2 := by
  have hnormal := isNormal_normalizePath link
  have hmade := @made_ensureParentDirs strict (parentPaths (normalizePath link)) fs.nodes
  unfold MemoryFs.symlink
  dsimp only
  split
  · exact .refl
  · next hnot =>
    split
    · next e nodes heq =>
      rw [heq] at hmade
      exact changes_parents hnormal fs hmade
    · next nodes heq =>
      rw [heq] at hmade
      have hparents := changes_parents hnormal fs hmade
      split
      · exact hparents
      · next hroom =>
        have habsent : normalizePath link ∉ nodes := by
          rw [← AList.lookup_eq_none, hmade.lookup_of_not_mem (not_mem_parentPaths hnormal),
            AList.lookup_eq_none.mpr hnot]
        exact hparents.tail (.create hnormal habsent (Nat.lt_of_not_le hroom) rfl
          fun hs => ⟨habs hs, hmade.dirs rfl hs⟩)

theorem changes_createDir {path : Path}
    (hclear : strict → normalizePath path ∉ fs.nodes → Clear fs.nodes (normalizePath path)) :
    Changes strict fs (fs.createDir path).2 := by
  unfold MemoryFs.createDir
  dsimp only
  split
  · exact .refl
  · next hnot =>
    exact changes_createNode (isNormal_normalizePath path) rfl fs hnot fun hs => hclear hs hnot

theorem changes_removeFile (path : Path) (fs : MemoryFs R) :
    Changes strict fs (fs.removeFile path).2 := by
  unfold MemoryFs.removeFile
  dsimp only
  split
  · next target hlink => exact .single (.removeLink hlink)
  · split
    · exact .refl
    · split
      · exact .refl
      · next contents hfile => exact .single (.removeFile hfile)
      · exact .refl

theorem changes_removeDir (path : Path) (fs : MemoryFs R) :
    Changes strict fs (fs.removeDir path).2 := by
  unfold MemoryFs.removeDir
  dsimp only
  split
  · exact .refl
  · exact .refl
  · exact .refl
  · next hdir =>
    split
    · exact .refl
    · next hempty =>
      refine .single (.removeDir hdir ?_)
      intro key hkey hstart
      apply hempty
      rw [List.any_eq_true]
      exact ⟨key, AList.mem_keys.mp hkey, List.isPrefixOf_iff_prefix.mpr hstart⟩

/-! ## 4. One call -/

namespace MemoryFs

/-- The path whose reader a call takes. -/
def taken (fs : MemoryFs R) : Op R → Option Path
  | .openFile path opts =>
    match fs.resolve path with
    | .ok norm => if opts.readOnly = true ∧ norm ∈ fs.virtualReaders then some norm else none
    | .error _ => none
  | _ => none

/-- A reader taken, and the node with it. -/
def takeReader (fs : MemoryFs R) (norm : Path) : MemoryFs R :=
  { fs with
    nodes := fs.nodes.erase norm
    virtualReaders := fs.virtualReaders.erase norm }

/-- The path at which a call makes an entry, when there is none. -/
def made (fs : MemoryFs R) : Op R → Option Path
  | .openFile path opts => if opts.create then (fs.resolve path).toOption else none
  | .openWriteSink path _ => (fs.resolve path).toOption
  | .installStreamReader path _ => some (normalizePath path)
  | .createDir path => some (normalizePath path)
  | .symlink _ link => some (normalizePath link)
  | _ => none

end MemoryFs

/-- `symlink` looks at the directories above the link for itself. -/
def Op.isSymlink : Op R → Bool
  | .symlink _ _ => true
  | _ => false

/-- The entry that a call makes would stand in directories. -/
def WellPlaced (fs : MemoryFs R) (op : Op R) : Prop :=
  ∀ norm, fs.made op = some norm → norm.head? = some '/' ∧
    (op.isSymlink = false →
      ∀ parent ∈ parentPaths norm, parent ∈ fs.nodes → fs.nodes.lookup parent = some .dir)

/-- What a call does: changes, or it takes a reader, or it sets a mode. -/
inductive Effect (strict : Prop) (fs : MemoryFs R) (op : Op R) : MemoryFs R → Prop
  | changes {fs' : MemoryFs R} : fs.taken op = none → Changes strict fs fs' →
    Effect strict fs op fs'
  | takes {norm : Path} (handles : AList fun _ : Nat => OpenFile R) (next : Nat) :
    fs.taken op = some norm → norm ∈ fs.virtualReaders →
    Effect strict fs op { fs.takeReader norm with handles := handles, nextHandle := next }
  | setsMode {path : Path} (mode : UInt32) : fs.taken op = none → path ∈ fs.nodes →
    Effect strict fs op { fs with modes := fs.modes.insert path mode }

theorem effect_openFile (path : Path) (opts : OpenOptions)
    (hplaced : strict → WellPlaced fs (.openFile path opts)) :
    Effect strict fs (.openFile path opts) (fs.openFile path opts).2 := by
  have htaken : fs.taken (.openFile path opts) =
      match fs.resolve path with
      | .ok norm => if opts.readOnly = true ∧ norm ∈ fs.virtualReaders then some norm else none
      | .error _ => none := rfl
  unfold MemoryFs.openFile
  cases hnorm : fs.resolve path with
  | error e =>
    rw [hnorm] at htaken
    exact .changes htaken .refl
  | ok norm =>
    rw [hnorm] at htaken
    dsimp only at htaken ⊢
    cases hreader : (if opts.readOnly = true then fs.virtualReaders.lookup norm else none) with
    | some reader =>
      split at hreader
      · next honly =>
        have hmem : norm ∈ fs.virtualReaders := by
          rw [← AList.lookup_isSome, hreader]
          rfl
        rw [if_pos ⟨honly, hmem⟩] at htaken
        exact .takes _ _ htaken hmem
      · cases hreader
    | none =>
      have hnone : ¬ (opts.readOnly = true ∧ norm ∈ fs.virtualReaders) := by
        rintro ⟨honly, hmem⟩
        rw [if_pos honly] at hreader
        exact absurd hmem (AList.lookup_eq_none.mp hreader)
      rw [if_neg hnone] at htaken
      apply Effect.changes htaken
      apply changes_openResolved (MemoryFs.isNormal_resolve hnorm)
      intro hs hcreates habsent
      have hmade : fs.made (.openFile path opts) = some norm := by
        simp [MemoryFs.made, hcreates, hnorm, Except.toOption]
      exact ⟨(hplaced hs norm hmade).1, (hplaced hs norm hmade).2 rfl⟩

/-- **The effect of a call**, on whatever session it is made. -/
theorem Session.effect (s : Session R) (op : Op R) (hplaced : strict → WellPlaced s.fs op) :
    Effect strict s.fs op (s.step op).2.fs := by
  cases op with
  | openFile path opts => exact effect_openFile path opts hplaced
  | writeFile handle data => exact .changes rfl (changes_writeFile _ _ _)
  | openWriteSink path append =>
    have hchanges : Changes strict s.fs (s.fs.openWriteSink path append).2 := by
      apply changes_openWriteSink
      intro hs norm hnorm habsent
      have hmade : s.fs.made (.openWriteSink path append) = some norm := by
        simp [MemoryFs.made, hnorm, Except.toOption]
      exact ⟨(hplaced hs norm hmade).1, (hplaced hs norm hmade).2 rfl⟩
    unfold Session.step
    dsimp only
    split
    · next heq =>
      rw [heq] at hchanges
      exact .changes rfl hchanges
    · next heq =>
      rw [heq] at hchanges
      exact .changes rfl hchanges
  | sinkWrite i data =>
    unfold Session.step
    dsimp only
    split
    · exact .changes rfl .refl
    · next sink _ =>
      have hchanges := @changes_writeChunk R strict sink data s.fs
      split
      · next heq =>
        rw [heq] at hchanges
        exact .changes rfl hchanges
      · next heq =>
        rw [heq] at hchanges
        exact .changes rfl hchanges
  | installStreamReader path reader =>
    apply Effect.changes rfl
    apply changes_installStreamReader reader
    intro hs
    exact ⟨(hplaced hs _ rfl).1, (hplaced hs _ rfl).2 rfl⟩
  | close handle => exact .changes rfl (.single (.handles _ _))
  | symlink target link =>
    exact .changes rfl (changes_symlink target fun hs => (hplaced hs _ rfl).1)
  | createDir path =>
    apply Effect.changes rfl
    apply changes_createDir
    intro hs _
    exact ⟨(hplaced hs _ rfl).1, (hplaced hs _ rfl).2 rfl⟩
  | removeFile path => exact .changes rfl (changes_removeFile _ _)
  | removeDir path => exact .changes rfl (changes_removeDir _ _)
  | setMode path mode =>
    unfold Session.step Session.finish MemoryFs.setMode
    dsimp only
    split
    · next hmem => exact .setsMode _ rfl hmem
    · exact .changes rfl .refl

/-- What every change keeps, a sequence of them keeps. -/
theorem Changes.keep {P : MemoryFs R → Prop} (h : Changes strict fs fs')
    (hstep : ∀ a b, Change strict a b → P a → P b) (hfs : P fs) : P fs' := by
  induction h with
  | refl => exact hfs
  | tail _ hchange ih => exact hstep _ _ hchange ih

/-! ## 5. Readers -/

/-- A reader is installed on a file. -/
def ReadersOnFiles (fs : MemoryFs R) : Prop :=
  ∀ path ∈ fs.virtualReaders, ∃ contents, fs.nodes.lookup path = some (.file contents)

/-- A file written anywhere leaves the files files. -/
theorem file_insert {nodes : Nodes} {k : Path} (path : Path) (new : Bytes)
    (h : ∃ contents, nodes.lookup k = some (.file contents)) :
    ∃ contents, (nodes.insert path (.file new)).lookup k = some (.file contents) := by
  by_cases hk : k = path
  · subst hk
    exact ⟨new, AList.lookup_insert nodes⟩
  · rw [AList.lookup_insert_ne hk]
    exact h

/-- What is removed is no file, or another one. -/
theorem file_erase {nodes : Nodes} {k path : Path} (hne : k ≠ path)
    (h : ∃ contents, nodes.lookup k = some (.file contents)) :
    ∃ contents, (nodes.erase path).lookup k = some (.file contents) := by
  rw [AList.lookup_erase_ne hne]
  exact h

theorem Change.readersOnFiles (h : Change strict fs fs')
    (hfs : ReadersOnFiles fs) : ReadersOnFiles fs' := by
  intro k hk
  cases h with
  | handles handles next => exact hfs k hk
  | create hnormal habsent hroom hsize hdirs =>
    rcases hfs k hk with ⟨contents, hfile⟩
    refine ⟨contents, ?_⟩
    rw [AList.lookup_insert_ne, hfile]
    rintro rfl
    rw [AList.lookup_eq_none.mpr habsent] at hfile
    cases hfile
  | write hfile hsize htotal => exact file_insert _ _ (hfs k hk)
  | empty hfile => exact file_insert _ _ (hfs k hk)
  | install reader hnode hdir =>
    rcases (AList.mem_insert fs.virtualReaders).mp hk with rfl | hk
    · exact ⟨[], AList.lookup_insert fs.nodes⟩
    · exact file_insert _ _ (hfs k hk)
  | dropReader path => exact hfs k (AList.mem_erase.mp hk).2
  | removeFile hfile =>
    rcases AList.mem_erase.mp hk with ⟨hne, hk⟩
    exact file_erase hne (hfs k hk)
  | removeLink hlink =>
    rcases hfs k hk with ⟨contents, hfile⟩
    refine file_erase ?_ ⟨contents, hfile⟩
    rintro rfl
    rw [hlink] at hfile
    cases hfile
  | removeDir hdir hempty =>
    rcases hfs k hk with ⟨contents, hfile⟩
    refine file_erase ?_ ⟨contents, hfile⟩
    rintro rfl
    rw [hdir] at hfile
    cases hfile

theorem Effect.readersOnFiles {op : Op R} (h : Effect strict fs op fs')
    (hfs : ReadersOnFiles fs) : ReadersOnFiles fs' := by
  cases h with
  | changes _ hchanges => exact hchanges.keep (fun _ _ hstep => hstep.readersOnFiles) hfs
  | takes handles next htaken hmem =>
    intro k hk
    rcases AList.mem_erase.mp hk with ⟨hne, hk⟩
    exact file_erase hne (hfs k hk)
  | setsMode mode htaken hmem => exact hfs

theorem readersOnFiles_new : ReadersOnFiles (Session.new : Session R).fs :=
  fun path hpath => absurd hpath (AList.notMem_empty path)

theorem Session.Reachable.readersOnFiles {s : Session R} (h : s.Reachable) :
    ReadersOnFiles s.fs := by
  induction h with
  | new => exact readersOnFiles_new
  | @step s op _ ih => exact (@Session.effect R False s op False.elim).readersOnFiles ih

end Wasmsh.Fs

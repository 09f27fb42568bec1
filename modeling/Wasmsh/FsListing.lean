import Wasmsh.FsTree

/-!
# Listing and lookup

`read_dir` follows a final link and lists what is below the path that it leads to; a lookup
below the link stays lexical and looks below the link itself.  The two see the same entries
when the path of the directory is no link, and otherwise only when the same names happen to
be below both paths.
-/

namespace Wasmsh.Fs

open Globs

variable {R : Type} {strict : Prop} {fs : MemoryFs R}

/-! ## 1. The path of an entry -/

/-- The path of a directory as lookups below it see it. -/
def ownPath (d : Path) : Path := if d = [] then ['/'] else normalizePath d

/-- The path that a name has below the path of a directory. -/
def entryPath (base name : Path) : Path :=
  if base = ['.'] then name else MemoryFs.dirPrefix base ++ name

theorem components_concat (d : Path) {name : Path} (hname : Proper name) :
    components (d ++ '/' :: name) = components d ++ [name] := by
  rcases hname with ⟨hne, hslash, hdot, hdots⟩
  have hsplit : (d ++ '/' :: name).splitOn '/' = d.splitOn '/' ++ [name] := by
    rw [List.splitOn_append_cons_self, List.splitOn_eq_singleton hslash]
  unfold components normalComponents
  rw [hsplit, List.foldl_append, List.foldl_cons, List.foldl_nil,
    if_neg (not_or.mpr ⟨hne, hdot⟩), if_neg hdots]

theorem joinPath_concat (parts : List Path) (name : Path) :
    joinPath (parts ++ [name]) = joinPath parts ++ '/' :: name := by
  rw [joinPath_append, joinPath_cons]
  simp [joinPath]

theorem entryPath_absPath {parts : List Path} (hproper : ∀ part ∈ parts, Proper part)
    (name : Path) : entryPath (absPath parts) name = absPath (parts ++ [name]) := by
  have hne : parts ++ [name] ≠ [] := List.concat_ne_nil name parts
  rw [absPath_of_ne_nil hne, joinPath_concat]
  by_cases hnil : parts = []
  · subst hnil
    rfl
  · have hroot : absPath parts ≠ ['/'] := by
      intro heq
      have hcomponents := components_absPath hproper
      rw [heq] at hcomponents
      exact hnil hcomponents.symm
    have hdot : absPath parts ≠ ['.'] := by
      intro heq
      have hhead := head_absPath parts
      rw [heq] at hhead
      simp at hhead
    rw [entryPath, if_neg hdot, MemoryFs.dirPrefix, if_neg hroot, absPath_of_ne_nil hnil]
    simp

theorem entryPath_relPath {parts : List Path} (hproper : ∀ part ∈ parts, Proper part)
    (name : Path) : entryPath (relPath parts) name = relPath (parts ++ [name]) := by
  cases parts with
  | nil => simp [entryPath, relPath, joinPath]
  | cons part parts =>
    have hroot : relPath (part :: parts) ≠ ['/'] := by
      intro heq
      have hhead := head_relPath hproper
      rw [heq] at hhead
      exact hhead rfl
    have hdot : relPath (part :: parts) ≠ ['.'] := by
      intro heq
      have hcomponents := components_relPath hproper
      rw [heq] at hcomponents
      cases hcomponents
    rw [entryPath, if_neg hdot, MemoryFs.dirPrefix, if_neg hroot, List.cons_append, relPath, relPath,
      joinPath_concat]
    simp

/-- Where a lookup below a directory looks. -/
theorem normalizePath_entry (d : Path) {name : Path} (hname : Proper name) :
    normalizePath (d ++ '/' :: name) = entryPath (ownPath d) name := by
  rw [normalizePath_eq, components_concat d hname]
  cases d with
  | nil =>
    rw [ownPath, if_pos rfl, List.nil_append, List.head?_cons, if_pos rfl]
    exact (@entryPath_absPath [] (List.forall_mem_nil _) name).symm
  | cons c d =>
    rw [ownPath, if_neg (List.cons_ne_nil _ _), normalizePath_eq, List.cons_append, List.head?_cons,
      List.head?_cons]
    split
    · exact (entryPath_absPath (proper_components _) name).symm
    · exact (entryPath_relPath (proper_components _) name).symm

/-- What is left of a normalized path after that of a directory is a name. -/
theorem proper_of_normal {before name : Path} (hnormal : IsNormal (before ++ '/' :: name))
    (hslash : '/' ∉ name) (hne : name ≠ []) : Proper name := by
  have hparts : name ∈ pathParts (before ++ '/' :: name) := by
    rw [pathParts, List.splitOn_append_cons_self, List.splitOn_eq_singleton hslash, List.filter_append]
    apply List.mem_append_right
    simp [hne]
  by_cases habs : (before ++ '/' :: name).head? = some '/'
  · rw [← absPath_components hnormal habs, pathParts_absPath (proper_components _)] at hparts
    exact proper_components _ name hparts
  · rw [← relPath_components hnormal habs] at hparts
    by_cases hnil : components (before ++ '/' :: name) = []
    · have hdot := relPath_components hnormal habs
      rw [hnil] at hdot
      have hmem : '/' ∈ before ++ '/' :: name := by simp
      rw [← hdot] at hmem
      simp [relPath] at hmem
    · rw [pathParts_relPath (proper_components _) hnil] at hparts
      exact proper_components _ name hparts

/-! ## 2. The keys -/

/-- Every key is a normalized path. -/
def NormalKeys (fs : MemoryFs R) : Prop := ∀ key ∈ fs.nodes, IsNormal key

theorem Change.normalKeys {fs fs' : MemoryFs R} (h : Change strict fs fs') (hfs : NormalKeys fs) :
    NormalKeys fs' := by
  have hinsert : ∀ {path : Path} {node node' : FsNode}, fs.nodes.lookup path = some node →
      ∀ key ∈ fs.nodes.insert path node', IsNormal key := by
    intro path node node' hnode key hkey
    rcases (AList.mem_insert fs.nodes).mp hkey with rfl | hkey
    · exact hfs _ (mem_of_lookup hnode)
    · exact hfs key hkey
  have herase : ∀ path, ∀ key ∈ fs.nodes.erase path, IsNormal key :=
    fun path key hkey => hfs key (AList.mem_erase.mp hkey).2
  cases h with
  | handles handles next => exact hfs
  | create hnormal habsent hroom hsize hdirs =>
    intro key hkey
    rcases (AList.mem_insert fs.nodes).mp hkey with rfl | hkey
    · exact hnormal
    · exact hfs key hkey
  | write hfile hsize htotal => exact hinsert hfile
  | empty hfile => exact hinsert hfile
  | install reader hnode hdir => exact hinsert hnode
  | dropReader path => exact hfs
  | removeFile hfile => exact herase _
  | removeLink hlink => exact herase _
  | removeDir hdir hempty => exact herase _

theorem Effect.normalKeys {fs fs' : MemoryFs R} {op : Op R} (h : Effect strict fs op fs')
    (hfs : NormalKeys fs) : NormalKeys fs' := by
  cases h with
  | changes _ hchanges => exact hchanges.keep (fun _ _ hstep => hstep.normalKeys) hfs
  | takes handles next htaken hmem => exact fun key hkey => hfs key (AList.mem_erase.mp hkey).2
  | setsMode mode htaken hmem => exact hfs

theorem Session.Reachable.normalKeys {s : Session R} (h : s.Reachable) : NormalKeys s.fs := by
  induction h with
  | new =>
    intro key hkey
    rcases (AList.mem_insert _).mp hkey with rfl | hkey
    · rfl
    · exact absurd hkey (AList.notMem_empty key)
  | @step s op _ ih => exact (@Session.effect R False s op False.elim).normalKeys ih

/-! ## 3. What the two views see -/

def FsNode.isSymlink : FsNode → Bool
  | .symlink _ => true
  | _ => false

/-- Whether the node at a path is a link, when there is one. -/
def linkAt (nodes : Nodes) (key : Path) : Option Bool := (nodes.lookup key).map FsNode.isSymlink

/-- What `lstat` says about links. -/
theorem lstat_link {path : Path} {b : Bool} :
    (∃ m, fs.lstat path = .ok m ∧ m.isSymlink = b) ↔ linkAt fs.nodes (normalizePath path) = some b := by
  unfold MemoryFs.lstat linkAt
  dsimp only
  cases fs.nodes.lookup (normalizePath path) with
  | none => simp
  | some node => cases node <;> simp [FsNode.isSymlink]

/-- The entry that a node makes has the rest of its path for a name and says whether it is a
    link. -/
theorem dirEntry_eq_some {before key : Path} {node : FsNode}
    {e : MemoryFs.DirEntry} (h : fs.dirEntry before key node = some e) :
    key = before ++ e.name ∧ '/' ∉ e.name ∧ e.name ≠ [] ∧ e.isSymlink = node.isSymlink := by
  unfold MemoryFs.dirEntry at h
  split at h
  · next hstart =>
    have hkey : before ++ key.drop before.length = key :=
      List.prefix_iff_eq_append.mp (List.isPrefixOf_iff_prefix.mp hstart)
    dsimp only at h
    split at h
    · next hname =>
      simp only [Bool.and_eq_true, Bool.not_eq_true', List.contains_eq_mem, decide_eq_false_iff_not,
        List.isEmpty_eq_false_iff] at hname
      rcases hname with ⟨hslash, hne⟩
      cases h
      cases node with
      | file contents | dir | symlink target => exact ⟨hkey.symm, hslash, hne, rfl⟩
    · cases h
  · cases h

/-- A node just below makes an entry. -/
theorem dirEntry_of_name (fs : MemoryFs R) (before : Path) {name : Path} (hslash : '/' ∉ name)
    (hne : name ≠ []) (node : FsNode) :
    ∃ e, fs.dirEntry before (before ++ name) node = some e ∧ e.name = name := by
  have hstart : before.isPrefixOf (before ++ name) = true :=
    List.isPrefixOf_iff_prefix.mpr (List.prefix_append _ _)
  have hdrop : (before ++ name).drop before.length = name := List.drop_left
  unfold MemoryFs.dirEntry
  rw [if_pos hstart, hdrop]
  dsimp only
  rw [if_pos (by simp [hslash, hne])]
  cases node with
  | file contents => exact ⟨_, rfl, rfl⟩
  | dir => exact ⟨_, rfl, rfl⟩
  | symlink target => exact ⟨_, rfl, rfl⟩

/-- The entries of a directory before they are sorted. -/
def rawEntries (fs : MemoryFs R) (norm : Path) : List MemoryFs.DirEntry :=
  fs.nodes.entries.filterMap fun e => fs.dirEntry (MemoryFs.dirPrefix norm) e.1 e.2

/-- What a successful `read_dir` returns. -/
theorem readDir_ok {d : Path} {entries : List MemoryFs.DirEntry} (h : fs.readDir d = .ok entries) :
    ∃ norm, fs.resolve d = .ok norm ∧ fs.nodes.lookup norm = some .dir ∧
      entries.Perm (rawEntries fs norm) := by
  unfold MemoryFs.readDir at h
  cases hnorm : fs.resolve d with
  | error e =>
    rw [hnorm] at h
    cases h
  | ok norm =>
    rw [hnorm] at h
    dsimp only at h
    split at h
    · next hdir =>
      cases h
      exact ⟨norm, rfl, hdir, List.perm_insertionSort _ _⟩
    · cases h
    · cases h

/-- The names that a listing returns are those of the nodes just below. -/
theorem mem_rawEntries {norm name : Path} {b : Bool} (hslash : '/' ∉ name) (hne : name ≠ []) :
    (∃ e ∈ rawEntries fs norm, e.name = name ∧ e.isSymlink = b) ↔
      linkAt fs.nodes (MemoryFs.dirPrefix norm ++ name) = some b := by
  unfold rawEntries linkAt
  constructor
  · rintro ⟨e, he, rfl, rfl⟩
    rcases List.mem_filterMap.mp he with ⟨⟨key, node⟩, hmem, hentry⟩
    rcases dirEntry_eq_some hentry with ⟨rfl, -, -, hlink⟩
    rw [AList.mem_lookup_iff.mpr hmem, Option.map_some, hlink]
  · intro h
    rcases Option.map_eq_some_iff.mp h with ⟨node, hnode, hlink⟩
    rcases dirEntry_of_name fs (MemoryFs.dirPrefix norm) hslash hne node with ⟨e, hentry, hname⟩
    refine ⟨e, List.mem_filterMap.mpr ⟨⟨_, node⟩, AList.mem_lookup_iff.mp hnode, hentry⟩, hname, ?_⟩
    rw [(dirEntry_eq_some hentry).2.2.2]
    exact hlink

/-- A name is listed as often as there are nodes for it. -/
theorem count_rawEntries {norm name : Path} (hslash : '/' ∉ name) (hne : name ≠ []) :
    ((rawEntries fs norm).filter fun e => e.name = name).length =
      fs.nodes.keys.count (MemoryFs.dirPrefix norm ++ name) := by
  rw [← List.countP_eq_length_filter, rawEntries, List.countP_filterMap, AList.keys, List.keys,
    List.count, List.countP_map]
  apply List.countP_congr
  rintro ⟨key, node⟩ -
  simp only [Function.comp_apply, beq_iff_eq]
  constructor
  · intro h
    cases hentry : fs.dirEntry (MemoryFs.dirPrefix norm) key node with
    | none =>
      rw [hentry] at h
      simp at h
    | some e =>
      rw [hentry] at h
      have hname : e.name = name := by simpa using h
      rw [← hname]
      exact (dirEntry_eq_some hentry).1
  · rintro rfl
    rcases dirEntry_of_name fs (MemoryFs.dirPrefix norm) hslash hne node with ⟨e, hentry, hname⟩
    rw [hentry]
    simp [hname]

/-- The names that a listing returns are names. -/
theorem proper_rawEntries (hkeys : NormalKeys fs) {norm : Path}
    {e : MemoryFs.DirEntry} (he : e ∈ rawEntries fs norm) : Proper e.name := by
  rcases List.mem_filterMap.mp he with ⟨⟨key, node⟩, hmem, hentry⟩
  rcases dirEntry_eq_some hentry with ⟨hkey, hslash, hne, -⟩
  dsimp only at hkey
  have hnormal : IsNormal key := hkeys key (AList.mem_keys.mpr (List.mem_keys_of_mem hmem))
  have hbefore : ∃ before, MemoryFs.dirPrefix norm = before ++ ['/'] := by
    unfold MemoryFs.dirPrefix
    split
    · exact ⟨[], rfl⟩
    · exact ⟨norm, rfl⟩
  rcases hbefore with ⟨before, hbefore⟩
  rw [hkey, hbefore, List.append_assoc] at hnormal
  exact proper_of_normal hnormal hslash hne

/-! ## 4. Agreement -/

/-- Every entry of a listing is found below the directory with the same link flag, and every
    name that is found is listed once. -/
def ListingAgrees (fs : MemoryFs R) (d : Path) (entries : List MemoryFs.DirEntry) : Prop :=
  (∀ e ∈ entries, ∃ m, fs.lstat (d ++ '/' :: e.name) = .ok m ∧ m.isSymlink = e.isSymlink) ∧
    ∀ name, Proper name → ∀ m, fs.lstat (d ++ '/' :: name) = .ok m →
      (entries.filter fun e => e.name = name).length = 1

/-- The same names, with the same link flags, are below two paths. -/
def SameEntries (nodes : Nodes) (own listed : Path) : Prop :=
  ∀ name, Proper name →
    linkAt nodes (entryPath own name) = linkAt nodes (MemoryFs.dirPrefix listed ++ name)

theorem sameEntries_self (nodes : Nodes) {norm : Path} (hdot : norm ≠ ['.']) :
    SameEntries nodes norm norm := by
  intro name _
  rw [entryPath, if_neg hdot]

/-- A listing and the lookups see the same when the nodes are the same. -/
theorem listingAgrees_rawEntries (hkeys : NormalKeys fs) (d norm : Path) :
    ListingAgrees fs d (rawEntries fs norm) ↔ SameEntries fs.nodes (ownPath d) norm := by
  constructor
  · rintro ⟨hlisted, hfound⟩ name hname
    rcases hname with ⟨hne, hslash, hrest⟩
    have hname : Proper name := ⟨hne, hslash, hrest⟩
    cases hother : linkAt fs.nodes (MemoryFs.dirPrefix norm ++ name) with
    | some b =>
      rcases (mem_rawEntries hslash hne).mpr hother with ⟨e, he, rfl, rfl⟩
      have hlink := lstat_link.mp (hlisted e he)
      rw [normalizePath_entry d hname] at hlink
      exact hlink
    | none =>
      cases hown : linkAt fs.nodes (entryPath (ownPath d) name) with
      | none => rfl
      | some b =>
        rw [← normalizePath_entry d hname] at hown
        rcases lstat_link.mpr hown with ⟨m, hm, -⟩
        have hone := hfound name hname m hm
        rw [count_rawEntries hslash hne] at hone
        have hmem := List.count_pos_iff.mp (hone ▸ Nat.one_pos)
        rw [linkAt, Option.map_eq_none_iff, AList.lookup_eq_none] at hother
        exact absurd (AList.mem_keys.mpr hmem) hother
  · intro hsame
    constructor
    · intro e he
      have hname := proper_rawEntries hkeys he
      apply lstat_link.mpr
      rw [normalizePath_entry d hname, hsame e.name hname]
      exact (mem_rawEntries hname.2.1 hname.1).mp ⟨e, he, rfl, rfl⟩
    · intro name hname m hm
      have hown := lstat_link.mp ⟨m, hm, rfl⟩
      rw [normalizePath_entry d hname, hsame name hname] at hown
      rcases Option.map_eq_some_iff.mp hown with ⟨node, hnode, -⟩
      rw [count_rawEntries hname.2.1 hname.1]
      exact List.count_eq_one_of_mem fs.nodes.nodupKeys (AList.mem_keys.mp (mem_of_lookup hnode))

theorem listingAgrees_perm {d : Path} {entries entries' : List MemoryFs.DirEntry}
    (h : entries.Perm entries') : ListingAgrees fs d entries ↔ ListingAgrees fs d entries' := by
  unfold ListingAgrees
  constructor
  · rintro ⟨hlisted, hfound⟩
    refine ⟨fun e he => hlisted e (h.mem_iff.mpr he), fun name hname m hm => ?_⟩
    rw [← (h.filter _).length_eq]
    exact hfound name hname m hm
  · rintro ⟨hlisted, hfound⟩
    refine ⟨fun e he => hlisted e (h.mem_iff.mp he), fun name hname m hm => ?_⟩
    rw [(h.filter _).length_eq]
    exact hfound name hname m hm

/-- **Listing and lookup agree** on a directory whose path is neither a link nor relative to
    nothing, and otherwise if and only if the same names are below its own path and below the
    path that is listed. -/
theorem listing_agrees_iff {s : Session R} (h : s.Reachable) {d : Path}
    {entries : List MemoryFs.DirEntry} (hread : s.fs.readDir d = .ok entries) :
    ListingAgrees s.fs d entries ↔
      ∃ norm, s.fs.resolve d = .ok norm ∧
        ((ownPath d = norm ∧ norm ≠ ['.']) ∨ SameEntries s.fs.nodes (ownPath d) norm) := by
  rcases readDir_ok hread with ⟨norm, hnorm, -, hperm⟩
  rw [listingAgrees_perm hperm, listingAgrees_rawEntries h.normalKeys]
  constructor
  · intro hsame
    exact ⟨norm, hnorm, Or.inr hsame⟩
  · rintro ⟨norm', hnorm', hcases⟩
    rw [hnorm] at hnorm'
    cases hnorm'
    rcases hcases with ⟨hown, hdot⟩ | hsame
    · rw [hown]
      exact sameEntries_self s.fs.nodes hdot
    · exact hsame

/-- A directory with a file in it, and a link to it. -/
def linkedDir : Session Unit :=
  ((Session.new.step (.openFile "/real/x".toList .forWriting)).2.step
    (.symlink "/real".toList "/alias".toList)).2

theorem linkedDir_reachable : linkedDir.Reachable := .step _ (.step _ .new)

/-- The directory itself. -/
theorem listing_agrees_of_dir :
    ListingAgrees linkedDir.fs "/real".toList [⟨"x".toList, false, false⟩] :=
  (listing_agrees_iff linkedDir_reachable (by decide +kernel)).mpr
    ⟨"/real".toList, by decide +kernel, Or.inl ⟨by decide +kernel, by decide +kernel⟩⟩

/-- Under the name of the link the file is listed and not found. -/
theorem linked_entry_not_found :
    ¬ ∀ s : Session Unit, s.Reachable → ∀ d entries, s.fs.readDir d = .ok entries →
      ListingAgrees s.fs d entries := by
  intro hall
  have hagrees := hall linkedDir linkedDir_reachable "/alias".toList
    [⟨"x".toList, false, false⟩] (by decide +kernel)
  rcases hagrees.1 _ (.head _) with ⟨m, hm, -⟩
  have hmissing : linkedDir.fs.lstat ("/alias".toList ++ '/' :: "x".toList) =
      .error (.notFound "/alias/x".toList) := by
    decide +kernel
  rw [hmissing] at hm
  cases hm

end Wasmsh.Fs

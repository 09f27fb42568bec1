import Wasmsh.FileRewrites

/-!
# `unzip`

The entries of an archive have arbitrary names; `unzip` takes the components `..` out of a name,
resolves it against the directory it extracts into and passes over an entry whose path does not
start with that directory's text.  `unzip_confined_iff` says when all that a run makes or changes
is in that directory.  The archive is given as what the decoder yields for its entries.
-/

namespace Wasmsh.Fs

open Globs

variable {R : Type}

/-! ## 1. The utility -/

/-- What the decoder yields for an entry, and what reading it to the end gives. -/
structure ZipEntry where
  name : Path
  size : Nat
  isDir : Bool
  contents : Except String Bytes

/-- `UnzipEntryFlags`. -/
structure UnzipFlags where
  listOnly : Bool
  overwrite : Bool
  quiet : Bool
  deriving DecidableEq, Repr

/-- The filesystem, `UnzipStats`, the status and what is printed. -/
structure Unzip (R : Type) where
  fs : MemoryFs R
  totalFiles : Nat
  totalSize : Nat
  status : Int
  stdout : List Path
  stderr : List Path

/-- The text of an error. -/
def FsError.text : FsError → Path
  | .notFound path => "not found: ".toList ++ path
  | .alreadyExists path => "already exists: ".toList ++ path
  | .notADirectory path => "not a directory: ".toList ++ path
  | .isADirectory path => "is a directory: ".toList ++ path
  | .permissionDenied what => "permission denied: ".toList ++ what
  | .io message => "io error: ".toList ++ message.toList

namespace Unzip

def print (u : Unzip R) (text : Path) : Unzip R := { u with stdout := u.stdout ++ [text] }

def printUnlessQuiet (u : Unzip R) (quiet : Bool) (text : Path) : Unzip R :=
  if quiet then u else u.print text

def report (u : Unzip R) (text : Path) : Unzip R := { u with stderr := u.stderr ++ [text] }

def fail (u : Unzip R) (text : Path) : Unzip R := { u.report text with status := 1 }

def count (u : Unzip R) (size : Nat) : Unzip R :=
  { u with totalFiles := u.totalFiles + 1, totalSize := u.totalSize + size }

@[simp] theorem print_fs (u : Unzip R) (text : Path) : (u.print text).fs = u.fs := rfl

@[simp] theorem printUnlessQuiet_fs (u : Unzip R) (quiet : Bool) (text : Path) :
    (u.printUnlessQuiet quiet text).fs = u.fs := by
  cases quiet with
  | false => rfl
  | true => rfl

@[simp] theorem report_fs (u : Unzip R) (text : Path) : (u.report text).fs = u.fs := rfl

@[simp] theorem fail_fs (u : Unzip R) (text : Path) : (u.fail text).fs = u.fs := rfl

@[simp] theorem count_fs (u : Unzip R) (size : Nat) : (u.count size).fs = u.fs := rfl

end Unzip

/-- A number at the right of a field of nine characters. -/
def padNumber (n : Nat) : Path :=
  List.replicate (9 - (Nat.toDigits 10 n).length) ' ' ++ Nat.toDigits 10 n

/-- `sanitize_zip_name`. -/
def sanitizeZipName (rawName : Path) : Path :=
  ['/'].intercalate (((rawName.dropWhile (· == '/')).splitOn '/').filter (· ≠ ['.', '.']))

/-- The path that an entry is extracted to. -/
def zipTarget (baseDir rawName : Path) : Path :=
  resolveCwdPath baseDir (sanitizeZipName rawName)

/-- The message of `unzip_check_traversal`. -/
def traversalText (rawName : Path) : Path :=
  "unzip: skipping '".toList ++ rawName ++ "': path traversal detected\n".toList

/-- `unzip_ensure_parent`. -/
def unzipEnsureParent (full : Path) (fs : MemoryFs R) : MemoryFs R :=
  let parent := beforeLastSlash full
  if parent ≠ [] && !isThere fs parent then (fs.createDir parent).2 else fs

/-- `unzip_extract_dir`. -/
def unzipExtractDir (full name : Path) (quiet : Bool) (u : Unzip R) : Unzip R :=
  { u with fs := (u.fs.createDir full).2 }.printUnlessQuiet quiet
    ("   creating: ".toList ++ name ++ ['\n'])

/-- `unzip_write_file`, and what is counted of it. -/
def unzipWriteFile (full sanitised : Path) (size : Nat) (data : Bytes) (flags : UnzipFlags)
    (u : Unzip R) : Unzip R :=
  let u := { u with fs := unzipEnsureParent full u.fs }
  if !flags.overwrite && isThere u.fs full then
    if flags.quiet then u
    else u.report ("unzip: ".toList ++ sanitised ++ ": already exists, skipping\n".toList)
  else
    let stored := storeContents full data u.fs
    let u := { u with fs := stored.2 }
    match stored.1 with
    | .error e => u.fail ("unzip: ".toList ++ full ++ ": ".toList ++ e.text ++ ['\n'])
    | .ok () =>
      (u.printUnlessQuiet flags.quiet ("  inflating: ".toList ++ sanitised ++ ['\n'])).count size

/-- `unzip_process_one_entry`. -/
def unzipProcessOneEntry (baseDir : Path) (flags : UnzipFlags) (index : Nat)
    (entry : Except String ZipEntry) (u : Unzip R) : Unzip R :=
  match entry with
  | .error e =>
    u.fail ("unzip: entry ".toList ++ Nat.toDigits 10 index ++ ": ".toList ++ e.toList ++ ['\n'])
  | .ok entry =>
    if flags.listOnly then
      (u.printUnlessQuiet flags.quiet
        (padNumber entry.size ++ "  ".toList ++ entry.name ++ ['\n'])).count entry.size
    else
      let full := zipTarget baseDir entry.name
      if !baseDir.isPrefixOf full then u.report (traversalText entry.name)
      else if entry.isDir || entry.name.getLast? = some '/' then
        (unzipExtractDir full (sanitizeZipName entry.name) flags.quiet u).count 0
      else match entry.contents with
        | .error e =>
          u.fail ("unzip: ".toList ++ entry.name ++ ": ".toList ++ e.toList ++ ['\n'])
        | .ok data => unzipWriteFile full (sanitizeZipName entry.name) entry.size data flags u

/-- The loop of `util_unzip` over the entries from one on. -/
def unzipEntries (baseDir : Path) (flags : UnzipFlags) :
    Nat → List (Except String ZipEntry) → Unzip R → Unzip R
  | _, [], u => u
  | index, entry :: entries, u =>
    unzipEntries baseDir flags (index + 1) entries
      (unzipProcessOneEntry baseDir flags index entry u)

/-- `unzip_base_dir`: the directory, and the filesystem with it. -/
def unzipBaseDir (cwd : Path) (dest : Option Path) (fs : MemoryFs R) : Path × MemoryFs R :=
  match dest with
  | some dest => (resolveCwdPath cwd dest, (fs.createDir (resolveCwdPath cwd dest)).2)
  | none => (cwd, fs)

/-- The state before the first entry. -/
def unzipStart (cwd : Path) (dest : Option Path) (flags : UnzipFlags) (fs : MemoryFs R) : Unzip R :=
  ⟨(unzipBaseDir cwd dest fs).2, 0, 0, 0, if flags.listOnly && !flags.quiet then
    ["  Length      Name\n---------  --------------------\n".toList] else [], []⟩

/-- `util_unzip` on an archive that was read. -/
def utilUnzip (cwd : Path) (dest : Option Path) (flags : UnzipFlags)
    (archive : List (Except String ZipEntry)) (fs : MemoryFs R) : Unzip R :=
  let u := unzipEntries (unzipBaseDir cwd dest fs).1 flags 0 archive
    (unzipStart cwd dest flags fs)
  if flags.listOnly && !flags.quiet then
    u.print ("---------  --------------------\n".toList ++ padNumber u.totalSize ++ "  ".toList ++
      Nat.toDigits 10 u.totalFiles ++ " file(s)\n".toList)
  else u

example : zipTarget "/out".toList "../../etc/x".toList = "/out/etc/x".toList := by decide

example : zipTarget "/out".toList "..//out-evil/x".toList = "/out-evil/x".toList := by decide

/-! ## 2. Below a directory -/

/-- The directory or a path below it. -/
def Below (d k : Path) : Prop := k = d ∨ MemoryFs.dirPrefix d <+: k

/-- Everything else is as it was. -/
def SameOutside (d : Path) (nodes nodes' : Nodes) : Prop :=
  ∀ k, ¬ Below d k → nodes'.lookup k = nodes.lookup k

theorem SameOutside.trans {d : Path} {n₁ n₂ n₃ : Nodes} (h : SameOutside d n₁ n₂)
    (h' : SameOutside d n₂ n₃) : SameOutside d n₁ n₃ := fun k hk => (h' k hk).trans (h k hk)

theorem SameOutside.symm {d : Path} {n₁ n₂ : Nodes} (h : SameOutside d n₁ n₂) :
    SameOutside d n₂ n₁ := fun k hk => (h k hk).symm

/-- If an entry is made at a path, then the first of the paths above it and its own that is
    missing is in the directory. -/
def MakesBelow (d : Path) (nodes : Nodes) (path : Path) : Prop :=
  path ∉ nodes → nodes.count < maxInodes → ∀ before p after,
    parentPaths path ++ [path] = before ++ p :: after → (∀ q ∈ before, q ∈ nodes) → p ∉ nodes →
      Below d p

theorem Below.below {d p : Path} (h : Below d p) (rest : Path) : Below d (p ++ '/' :: rest) := by
  rcases h with rfl | h
  · right
    unfold MemoryFs.dirPrefix
    split
    · next hroot =>
      rw [hroot]
      exact List.prefix_append ['/'] _
    · exact ⟨rest, by simp⟩
  · exact .inr (h.trans (List.prefix_append _ _))

/-- Paths along components are below one another. -/
theorem below_of_pathsFrom {current p : Path} {parts before after : List Path}
    (h : pathsFrom current parts = before ++ p :: after) :
    ∀ q ∈ after, ∃ rest, q = p ++ '/' :: rest := by
  induction parts generalizing current before with
  | nil => simp [pathsFrom] at h
  | cons part parts ih =>
    rw [pathsFrom] at h
    cases before with
    | nil =>
      injection h with hp hafter
      intro q hq
      rw [← hafter, mem_pathsFrom] at hq
      obtain ⟨shorter, hne, -, rfl⟩ := hq
      obtain ⟨next, shorter, rfl⟩ := List.exists_cons_of_ne_nil hne
      exact ⟨next ++ joinPath shorter, by rw [← hp, joinPath_cons, List.cons_append]⟩
    | cons b before =>
      injection h with _ hrest
      exact ih hrest

/-- The first path of a list that is missing. -/
theorem exists_first_missing {nodes : Nodes} {ps : List Path} {k : Path} (hk : k ∈ ps)
    (hnot : k ∉ nodes) : ∃ before p after, ps = before ++ p :: after ∧
      (∀ q ∈ before, q ∈ nodes) ∧ p ∉ nodes := by
  induction ps with
  | nil => cases hk
  | cons p ps ih =>
    by_cases hp : p ∈ nodes
    · have hk : k ∈ ps := by
        rcases List.mem_cons.mp hk with rfl | hk
        · exact absurd hp hnot
        · exact hk
      obtain ⟨before, q, after, rfl, hbefore, hq⟩ := ih hk
      refine ⟨p :: before, q, after, rfl, ?_, hq⟩
      rintro b (_ | ⟨_, hb⟩)
      · exact hp
      · exact hbefore b hb
    · exact ⟨[], p, ps, rfl, (by simp), hp⟩

/-- The paths above an entry and its own are below one another. -/
theorem below_of_parentPaths {path p q : Path} {before after : List Path} (hnormal : IsNormal path)
    (habs : path.head? = some '/') (h : parentPaths path ++ [path] = before ++ p :: after)
    (hq : q ∈ after) : ∃ rest, q = p ++ '/' :: rest := by
  by_cases hnil : components path = []
  · have hroot : path = ['/'] := by
      rw [← absPath_components hnormal habs, hnil]
      rfl
    have hlen := congrArg List.length h
    rw [hroot] at hlen
    have hafter := List.length_pos_of_mem hq
    have hone : (parentPaths ['/'] ++ [['/']]).length = 1 := by decide
    rw [hone, List.length_append, List.length_cons] at hlen
    omega
  · rw [parentPaths_concat hnormal habs hnil] at h
    exact below_of_pathsFrom h q hq

/-- An entry changes nothing but the paths above it and its own that were missing. -/
theorem changed_createNode {path k : Path} {node : FsNode} {nodes : Nodes} (habsent : path ∉ nodes)
    (h : (createNode path node nodes).2.lookup k ≠ nodes.lookup k) :
    k ∈ parentPaths path ++ [path] ∧ k ∉ nodes := by
  have hmade := @made_ensureParents False (parentPaths path) nodes False.elim
  unfold createNode at h
  have hparents : ∀ {r nodes'}, ensureParents (parentPaths path) nodes = (r, nodes') →
      nodes'.lookup k ≠ nodes.lookup k → k ∈ parentPaths path ++ [path] ∧ k ∉ nodes := by
    intro r nodes' heq hne
    rw [heq] at hmade
    rcases hmade.lookup k with hsame | ⟨hmem, hnot, -⟩
    · exact absurd hsame hne
    · exact ⟨List.mem_append_left _ hmem, hnot⟩
  split at h
  · next heq => exact hparents heq h
  · next heq =>
    split at h
    · exact hparents heq h
    · by_cases hk : k = path
      · exact ⟨by simp [hk], by rw [hk]; exact habsent⟩
      · rw [AList.lookup_insert_ne hk] at h
        exact hparents heq h

/-- An entry is made without a change outside the directory. -/
theorem sameOutside_createNode {d path : Path} {node : FsNode} {nodes : Nodes}
    (hnormal : IsNormal path) (habs : path.head? = some '/') (habsent : path ∉ nodes) :
    SameOutside d nodes (createNode path node nodes).2 ↔ MakesBelow d nodes path := by
  constructor
  · intro hsame _ hroom before p after hpaths hbefore hp
    by_contra hout
    have hmade := @mem_createNode path p before after node nodes hpaths hbefore hroom
    rw [← AList.lookup_isSome, hsame p hout, AList.lookup_isSome] at hmade
    exact hp hmade
  · intro hbelow k hout
    by_contra hchanged
    obtain ⟨hk, hnot⟩ := changed_createNode habsent hchanged
    have hroom : nodes.count < maxInodes := by
      by_contra hfull
      rw [createNode_full (Nat.le_of_not_lt hfull)] at hchanged
      exact hchanged rfl
    obtain ⟨before, p, after, hpaths, hbefore, hp⟩ := exists_first_missing hk hnot
    have hfirst := hbelow habsent hroom before p after hpaths hbefore hp
    rw [hpaths] at hk
    rcases List.mem_append.mp hk with hk | hk
    · exact hnot (hbefore k hk)
    · rcases List.mem_cons.mp hk with rfl | hk
      · exact hout hfirst
      · obtain ⟨rest, rfl⟩ := below_of_parentPaths hnormal habs hpaths hk
        exact hout (hfirst.below rest)

theorem sameOutside_createDir {d path : Path} {fs : MemoryFs R} (habs : path.head? = some '/') :
    SameOutside d fs.nodes (fs.createDir path).2.nodes ↔
      MakesBelow d fs.nodes (normalizePath path) := by
  unfold MemoryFs.createDir
  dsimp only
  split
  · next hthere => exact iff_of_true (fun _ _ => rfl) fun habsent => absurd hthere habsent
  · next habsent =>
    exact sameOutside_createNode (isNormal_normalizePath path) (head_normalizePath habs) habsent

/-- The contents of a file that held `c` before `data` was stored in it. -/
def storedContents (fs : MemoryFs R) (c data : Bytes) : Bytes :=
  if data.length ≤ maxFileSize ∧ fs.totalBytes - c.length + data.length ≤ maxTotalBytes then data
  else []

/-- A store that changes a file changes it in the directory, and so does one that makes it. -/
def StoresBelow (d : Path) (fs : MemoryFs R) (path : Path) (data : Bytes) : Prop :=
  (∀ norm c, Opens fs path norm → fs.nodes.lookup norm = some (.file c) →
    Below d norm ∨ storedContents fs c data = c) ∧
  ∀ norm, fs.resolve path = .ok norm → MakesBelow d fs.nodes norm

/-- What a file that was just opened for writing holds after the write. -/
theorem lookup_writeFile {fs : MemoryFs R} {handle : Nat} {norm : Path} (data : Bytes) (k : Path)
    (hhandle : fs.handles.lookup handle = some ⟨.path norm, .forWriting⟩)
    (hfile : fs.nodes.lookup norm = some (.file [])) :
    (fs.writeFile handle data).2.nodes.lookup k =
      if k = norm then some (.file (storedContents fs [] data)) else fs.nodes.lookup k := by
  have hsame : fs.nodes.lookup k = if k = norm then some (.file []) else fs.nodes.lookup k := by
    split
    · next hk => rw [hk, hfile]
    · rfl
  unfold MemoryFs.writeFile
  rw [hhandle]
  change (MemoryFs.writeChunk ⟨norm, false⟩ data fs).2.nodes.lookup k = _
  unfold MemoryFs.writeChunk
  dsimp only
  rw [hfile]
  dsimp only
  rw [if_neg Bool.false_ne_true]
  by_cases hsize : maxFileSize < data.length
  · have hno : storedContents fs [] data = [] := if_neg fun h => Nat.not_le.mpr hsize h.1
    rw [if_pos hsize, hno]
    exact hsame
  · rw [if_neg hsize]
    by_cases htotal : maxTotalBytes < fs.totalBytes - ([] : Bytes).length + data.length
    · have hno : storedContents fs [] data = [] := if_neg fun h => Nat.not_le.mpr htotal h.2
      rw [if_pos htotal, hno]
      exact hsame
    · have hyes : storedContents fs [] data = data :=
        if_pos ⟨Nat.le_of_not_lt hsize, Nat.le_of_not_lt htotal⟩
      rw [if_neg htotal, hyes]
      split
      · next hk =>
        rw [hk]
        exact AList.lookup_insert _
      · next hk => exact AList.lookup_insert_ne hk

/-- A store into a file that is there. -/
theorem lookup_store_opened {fs : MemoryFs R} {path norm : Path} {c : Bytes} (data : Bytes)
    (k : Path) (hopens : Opens fs path norm) (hfile : fs.nodes.lookup norm = some (.file c)) :
    (storeContents path data fs).2.nodes.lookup k =
      if k = norm then some (.file (storedContents fs c data)) else fs.nodes.lookup k := by
  have hopen : fs.openFile path .forWriting =
      (fs.emptyFile norm c).addHandle (.path norm) .forWriting := by
    rw [openFile_forWriting hopens.1]
    unfold MemoryFs.openResolved
    rw [hfile]
    dsimp only
    rw [if_neg (by simp [OpenOptions.forWriting]), if_neg (by simp [hopens.2])]
    rfl
  have hempty : storedContents (fs.emptyFile norm c) [] data = storedContents fs c data := rfl
  unfold storeContents
  rw [hopen]
  change (((fs.emptyFile norm c).addHandle (.path norm) .forWriting).2.writeFile fs.nextHandle
    data).2.nodes.lookup k = _
  rw [lookup_writeFile data k (AList.lookup_insert _) (AList.lookup_insert _)]
  split
  · rfl
  · next hk => exact AList.lookup_insert_ne hk

/-- A store that makes the file: beside its contents, what making it gives. -/
theorem lookup_store_created {fs : MemoryFs R} {path norm : Path} (data : Bytes) (k : Path)
    (hnorm : fs.resolve path = .ok norm) (habsent : fs.nodes.lookup norm = none) :
    (storeContents path data fs).2.nodes.lookup k =
        (createNode norm (.file []) fs.nodes).2.lookup k ∨
      k = norm ∧ (∃ c, (storeContents path data fs).2.nodes.lookup k = some (.file c)) ∧
        (createNode norm (.file []) fs.nodes).2.lookup k ≠ none := by
  have hself := @lookup_createNode_self norm (.file []) fs.nodes
  unfold storeContents
  rw [openFile_forWriting hnorm]
  unfold MemoryFs.openResolved
  rw [habsent]
  dsimp only [OpenOptions.forWriting]
  generalize createNode norm (.file []) fs.nodes = made at hself
  rcases made with ⟨e | _, nodes⟩
  · exact .inl rfl
  · have hself : nodes.lookup norm = some (.file []) := hself rfl
    have hwrite := @lookup_writeFile R
      (({ fs with nodes := nodes } : MemoryFs R).addHandle (.path norm) .forWriting).2
      fs.nextHandle norm data k (AList.lookup_insert _) hself
    change ((({ fs with nodes := nodes } : MemoryFs R).addHandle (.path norm)
      .forWriting).2.writeFile fs.nextHandle data).2.nodes.lookup k = _ ∨ _ ∧
      (∃ c, ((({ fs with nodes := nodes } : MemoryFs R).addHandle (.path norm)
      .forWriting).2.writeFile fs.nextHandle data).2.nodes.lookup k = some (.file c)) ∧ _
    rw [hwrite]
    by_cases hk : k = norm
    · rw [if_pos hk, hk]
      exact .inr ⟨rfl, ⟨_, rfl⟩, by simp [hself]⟩
    · rw [if_neg hk]
      exact .inl rfl

/-- A store that opens nothing and makes nothing. -/
theorem storeContents_refused {fs : MemoryFs R} {path : Path} (data : Bytes)
    (hopened : ¬ ∃ norm c, Opens fs path norm ∧ fs.nodes.lookup norm = some (.file c))
    (hthere : ∀ norm, fs.resolve path = .ok norm → norm ∈ fs.nodes) :
    (storeContents path data fs).2 = fs := by
  have hrefused : ∃ e, fs.openFile path .forWriting = (.error e, fs) := by
    cases hnorm : fs.resolve path with
    | error e =>
      unfold MemoryFs.openFile
      rw [hnorm]
      exact ⟨e, rfl⟩
    | ok norm =>
      rw [openFile_forWriting hnorm]
      unfold MemoryFs.openResolved
      cases hnode : fs.nodes.lookup norm with
      | none => exact absurd (hthere norm hnorm) (AList.lookup_eq_none.mp hnode)
      | some node =>
        cases node with
        | dir => exact ⟨_, rfl⟩
        | symlink target => exact ⟨_, rfl⟩
        | file c =>
          have hmode : fs.modeOf norm false &&& 0o200 = 0 := by
            by_contra hmode
            exact hopened ⟨norm, c, ⟨hnorm, hmode⟩, hnode⟩
          dsimp only
          rw [if_neg (by simp [OpenOptions.forWriting]),
            if_pos (by simp [OpenOptions.forWriting, OpenOptions.changes, hmode])]
          exact ⟨_, rfl⟩
  obtain ⟨e, hrefused⟩ := hrefused
  unfold storeContents
  rw [hrefused]

/-- A store changes nothing outside the directory. -/
theorem sameOutside_storeContents {d path : Path} {data : Bytes} {fs : MemoryFs R}
    (habs : path.head? = some '/') :
    SameOutside d fs.nodes (storeContents path data fs).2.nodes ↔ StoresBelow d fs path data := by
  by_cases hopened : ∃ norm c, Opens fs path norm ∧ fs.nodes.lookup norm = some (.file c)
  · obtain ⟨norm, c, hopens, hfile⟩ := hopened
    have hafter := fun k => lookup_store_opened data k hopens hfile
    constructor
    · intro hsame
      constructor
      · intro norm' c' hopens' hfile'
        cases hopens.1.symm.trans hopens'.1
        cases hfile.symm.trans hfile'
        rw [or_iff_not_imp_left]
        intro hout
        have h := hsame norm hout
        rw [hafter, if_pos rfl, hfile] at h
        injection h with h
        injection h
      · intro norm' hnorm' habsent
        cases hopens.1.symm.trans hnorm'
        exact absurd (mem_of_lookup hfile) habsent
    · rintro ⟨hopenBelow, -⟩ k hout
      rw [hafter]
      split
      · next hk =>
        subst hk
        rcases hopenBelow k c hopens hfile with hin | hsame
        · exact absurd hin hout
        · rw [hsame, hfile]
      · rfl
  · have hopenBelow : ∀ norm c, Opens fs path norm → fs.nodes.lookup norm = some (.file c) →
        Below d norm ∨ storedContents fs c data = c :=
      fun norm c hopens hfile => absurd ⟨norm, c, hopens, hfile⟩ hopened
    by_cases hthere : ∀ norm, fs.resolve path = .ok norm → norm ∈ fs.nodes
    · rw [storeContents_refused data hopened hthere]
      exact iff_of_true (fun _ _ => rfl)
        ⟨hopenBelow, fun norm hnorm habsent => absurd (hthere norm hnorm) habsent⟩
    · simp only [not_forall, exists_prop] at hthere
      obtain ⟨norm, hnorm, habsent⟩ := hthere
      have hhead := head_resolveNormalized hnorm (head_normalizePath habs)
      have hmakes := @sameOutside_createNode d norm (.file []) fs.nodes
        (MemoryFs.isNormal_resolve hnorm) hhead habsent
      have hstored : StoresBelow d fs path data ↔ MakesBelow d fs.nodes norm := by
        constructor
        · exact fun h => h.2 norm hnorm
        · intro h
          refine ⟨hopenBelow, fun norm' hnorm' => ?_⟩
          cases hnorm.symm.trans hnorm'
          exact h
      rw [hstored, ← hmakes]
      have hnone := AList.lookup_eq_none.mpr habsent
      constructor
      · intro hsame k hout
        rcases lookup_store_created data k hnorm hnone with heq | ⟨rfl, ⟨c, hthere⟩, -⟩
        · rw [← heq, hsame k hout]
        · rw [hsame k hout, hnone] at hthere
          cases hthere
      · intro hsame k hout
        rcases lookup_store_created data k hnorm hnone with heq | ⟨rfl, -, hthere⟩
        · rw [heq, hsame k hout]
        · rw [hsame k hout, hnone] at hthere
          exact absurd rfl hthere

/-! ## 3. Entries -/

/-- Nothing is taken away. -/
def Grows (nodes nodes' : Nodes) : Prop :=
  ∀ k, nodes.lookup k ≠ none → nodes'.lookup k ≠ none

/-- What two steps change outside the directory, when the first one only adds. -/
theorem sameOutside_steps {d : Path} {n₁ n₂ n₃ : Nodes}
    (hadds : ∀ k, n₂.lookup k ≠ n₁.lookup k → n₁.lookup k = none) (hgrows : Grows n₂ n₃) :
    SameOutside d n₁ n₃ ↔ SameOutside d n₁ n₂ ∧ SameOutside d n₂ n₃ := by
  constructor
  · intro hsame
    have hfirst : SameOutside d n₁ n₂ := by
      intro k hout
      by_contra hchanged
      have hnone := hadds k hchanged
      have hthere := hgrows k fun h => hchanged (h.trans hnone.symm)
      rw [hsame k hout] at hthere
      exact hthere hnone
    exact ⟨hfirst, hfirst.symm.trans hsame⟩
  · rintro ⟨h₁, h₂⟩
    exact h₁.trans h₂

theorem createDir_adds (path : Path) (fs : MemoryFs R) (k : Path)
    (h : (fs.createDir path).2.nodes.lookup k ≠ fs.nodes.lookup k) : fs.nodes.lookup k = none := by
  unfold MemoryFs.createDir at h
  dsimp only at h
  split at h
  · exact absurd rfl h
  · next habsent => exact AList.lookup_eq_none.mpr (changed_createNode habsent h).2

theorem storeContents_grows (path : Path) (data : Bytes) (fs : MemoryFs R) :
    Grows fs.nodes (storeContents path data fs).2.nodes := by
  intro k hthere
  by_cases hopened : ∃ norm c, Opens fs path norm ∧ fs.nodes.lookup norm = some (.file c)
  · obtain ⟨norm, c, hopens, hfile⟩ := hopened
    rw [lookup_store_opened data k hopens hfile]
    split
    · simp
    · exact hthere
  · by_cases hthere' : ∀ norm, fs.resolve path = .ok norm → norm ∈ fs.nodes
    · rw [storeContents_refused data hopened hthere']
      exact hthere
    · simp only [not_forall, exists_prop] at hthere'
      obtain ⟨norm, hnorm, habsent⟩ := hthere'
      have hnone := AList.lookup_eq_none.mpr habsent
      rcases lookup_store_created data k hnorm hnone with heq | ⟨-, h, -⟩
      · rw [heq]
        intro hgone
        have hchanged : (createNode norm (.file []) fs.nodes).2.lookup k ≠ fs.nodes.lookup k := by
          rw [hgone]
          exact hthere.symm
        exact hthere (AList.lookup_eq_none.mpr (changed_createNode habsent hchanged).2)
      · obtain ⟨c, hfile⟩ := h
        rw [hfile]
        simp

/-- The directory of an entry is made without a change outside. -/
def ParentStays (d full : Path) (fs : MemoryFs R) : Prop :=
  beforeLastSlash full ≠ [] → isThere fs (beforeLastSlash full) = false →
    MakesBelow d fs.nodes (normalizePath (beforeLastSlash full))

theorem head_beforeLastSlash {full : Path} (habs : full.head? = some '/')
    (hne : beforeLastSlash full ≠ []) : (beforeLastSlash full).head? = some '/' := by
  unfold beforeLastSlash at hne ⊢
  split at hne
  · next dirPart last hlast =>
    obtain ⟨before, rfl, hfull⟩ := splitLastSlash_spec hlast
    rw [List.dropLast_concat] at hne ⊢
    obtain ⟨c, before, rfl⟩ := List.exists_cons_of_ne_nil hne
    rw [hfull] at habs
    exact habs
  · exact absurd rfl hne

theorem sameOutside_ensureParent {d full : Path} {fs : MemoryFs R} (habs : full.head? = some '/') :
    SameOutside d fs.nodes (unzipEnsureParent full fs).nodes ↔ ParentStays d full fs := by
  unfold unzipEnsureParent ParentStays
  dsimp only
  by_cases hne : beforeLastSlash full = []
  · rw [if_neg (by simp [hne])]
    exact iff_of_true (fun _ _ => rfl) fun h => absurd hne h
  · by_cases hthere : isThere fs (beforeLastSlash full) = true
    · rw [if_neg (by simp [hthere])]
      refine iff_of_true (fun _ _ => rfl) fun _ hno => ?_
      rw [hthere] at hno
      cases hno
    · have hno := eq_false_of_ne_true hthere
      rw [if_pos (by simp [hne, hno]), sameOutside_createDir (head_beforeLastSlash habs hne)]
      exact ⟨fun h _ _ => h, fun h => h hne hno⟩

theorem ensureParent_adds (full : Path) (fs : MemoryFs R) (k : Path)
    (h : (unzipEnsureParent full fs).nodes.lookup k ≠ fs.nodes.lookup k) :
    fs.nodes.lookup k = none := by
  unfold unzipEnsureParent at h
  dsimp only at h
  split at h
  · exact createDir_adds _ _ _ h
  · exact absurd rfl h

/-- A file is extracted without a change outside the directory. -/
def FileStays (d : Path) (flags : UnzipFlags) (full : Path) (data : Bytes) (fs : MemoryFs R) :
    Prop :=
  ParentStays d full fs ∧
    (flags.overwrite = true ∨ isThere (unzipEnsureParent full fs) full = false →
      StoresBelow d (unzipEnsureParent full fs) full data)

theorem unzipWriteFile_fs (full sanitised : Path) (size : Nat) (data : Bytes)
    (flags : UnzipFlags) (u : Unzip R) :
    (unzipWriteFile full sanitised size data flags u).fs =
      if !flags.overwrite && isThere (unzipEnsureParent full u.fs) full then
        unzipEnsureParent full u.fs
      else (storeContents full data (unzipEnsureParent full u.fs)).2 := by
  unfold unzipWriteFile
  dsimp only
  split
  · split
    · rfl
    · rfl
  · split
    · simp
    · simp

theorem sameOutside_writeFile {d full sanitised : Path} {size : Nat} {data : Bytes}
    {flags : UnzipFlags} {u : Unzip R} (habs : full.head? = some '/') :
    SameOutside d u.fs.nodes (unzipWriteFile full sanitised size data flags u).fs.nodes ↔
      FileStays d flags full data u.fs := by
  rw [FileStays, ← sameOutside_ensureParent habs, ← sameOutside_storeContents habs,
    unzipWriteFile_fs]
  by_cases hover : flags.overwrite = true ∨ isThere (unzipEnsureParent full u.fs) full = false
  · have hwrites : (!flags.overwrite && isThere (unzipEnsureParent full u.fs) full) = false := by
      rcases hover with h | h
      · simp [h]
      · simp [h]
    rw [if_neg (by simp [hwrites]), sameOutside_steps (ensureParent_adds full u.fs)
      (storeContents_grows full data _)]
    exact and_congr_right fun _ => ⟨fun h _ => h, fun h => h hover⟩
  · have hskips : (!flags.overwrite && isThere (unzipEnsureParent full u.fs) full) = true := by
      simpa using hover
    rw [if_pos hskips]
    exact ⟨fun h => ⟨h, fun hwrites => absurd hwrites hover⟩, fun h => h.1⟩

theorem head_resolveCwdPath {cwd path : Path} (habs : cwd.head? = some '/') :
    (resolveCwdPath cwd path).head? = some '/' := by
  unfold resolveCwdPath
  split
  · next hpath => exact head_normalizePath hpath
  · apply head_normalizePath
    rw [List.head?_append, habs]
    rfl

theorem isNormal_resolveCwdPath (cwd path : Path) : IsNormal (resolveCwdPath cwd path) := by
  unfold resolveCwdPath
  split
  · exact isNormal_normalizePath _
  · exact isNormal_normalizePath _

/-- An entry is extracted without a change outside the directory: it is passed over, or what it
    makes and what it changes is in there. -/
def EntryStays (baseDir : Path) (flags : UnzipFlags) (fs : MemoryFs R) :
    Except String ZipEntry → Prop
  | .error _ => True
  | .ok entry =>
    let full := zipTarget baseDir entry.name
    flags.listOnly = false → baseDir <+: full →
      if entry.isDir || entry.name.getLast? = some '/' then MakesBelow baseDir fs.nodes full
      else ∀ data, entry.contents = .ok data → FileStays baseDir flags full data fs

/-- What one entry changes is in the directory exactly where the entry stays there. -/
theorem sameOutside_entry {baseDir : Path} {flags : UnzipFlags} {index : Nat}
    {entry : Except String ZipEntry} {u : Unzip R} (habs : baseDir.head? = some '/') :
    SameOutside baseDir u.fs.nodes
        (unzipProcessOneEntry baseDir flags index entry u).fs.nodes ↔
      EntryStays baseDir flags u.fs entry := by
  have hfull : ∀ name, (zipTarget baseDir name).head? = some '/' :=
    fun name => head_resolveCwdPath habs
  cases entry with
  | error e => exact iff_of_true (fun _ _ => rfl) trivial
  | ok entry =>
    rw [EntryStays]
    unfold unzipProcessOneEntry
    dsimp only
    cases hlist : flags.listOnly with
    | true => exact iff_of_true (fun _ _ => by simp) (by simp)
    | false =>
      rw [if_neg Bool.false_ne_true]
      by_cases hbegins : baseDir <+: zipTarget baseDir entry.name
      · have hstarts := List.isPrefixOf_iff_prefix.mpr hbegins
        rw [if_neg (by simp [hstarts])]
        simp only [hbegins, true_implies]
        split
        · have hnormal : normalizePath (zipTarget baseDir entry.name) =
              zipTarget baseDir entry.name := isNormal_resolveCwdPath _ _
          have hdir := @sameOutside_createDir _ baseDir _ u.fs (hfull entry.name)
          rw [hnormal] at hdir
          rw [← hdir]
          simp [unzipExtractDir]
        · cases hcontents : entry.contents with
          | error e => exact iff_of_true (fun _ _ => rfl) (by simp)
          | ok data =>
            have hfile := @sameOutside_writeFile _ baseDir _ (sanitizeZipName entry.name)
              entry.size data flags u (hfull entry.name)
            refine hfile.trans ⟨?_, fun h => h data rfl⟩
            rintro h _ ⟨⟩
            exact h
      · have hnot : baseDir.isPrefixOf (zipTarget baseDir entry.name) = false := by
          rw [Bool.eq_false_iff]
          exact fun h => hbegins (List.isPrefixOf_iff_prefix.mp h)
        rw [if_pos (by simp [hnot])]
        exact iff_of_true (fun _ _ => rfl) fun _ h => absurd h hbegins

/-! ## 4. Runs -/

/-- The states before the entries from one on, and the one behind them. -/
def unzipStates (baseDir : Path) (flags : UnzipFlags) :
    Nat → List (Except String ZipEntry) → Unzip R → List (Unzip R)
  | _, [], u => [u]
  | index, entry :: entries, u =>
    u :: unzipStates baseDir flags (index + 1) entries
      (unzipProcessOneEntry baseDir flags index entry u)

/-- Every entry stays in the directory, in the state that it is extracted in. -/
def EntriesStay (baseDir : Path) (flags : UnzipFlags) :
    Nat → List (Except String ZipEntry) → Unzip R → Prop
  | _, [], _ => True
  | index, entry :: entries, u =>
    EntryStays baseDir flags u.fs entry ∧
      EntriesStay baseDir flags (index + 1) entries
        (unzipProcessOneEntry baseDir flags index entry u)

theorem entriesStay_iff {baseDir : Path} {flags : UnzipFlags} {index : Nat}
    {entries : List (Except String ZipEntry)} {u : Unzip R} (habs : baseDir.head? = some '/') :
    (∀ v ∈ unzipStates baseDir flags index entries u,
        SameOutside baseDir u.fs.nodes v.fs.nodes) ↔
      EntriesStay baseDir flags index entries u := by
  induction entries generalizing index u with
  | nil =>
    refine iff_of_true ?_ trivial
    rintro v (_ | ⟨_, ⟨⟩⟩) k _
    rfl
  | cons entry entries ih =>
    have hhead : unzipProcessOneEntry baseDir flags index entry u ∈
        unzipStates baseDir flags (index + 1) entries
          (unzipProcessOneEntry baseDir flags index entry u) := by
      cases entries with
      | nil => exact .head _
      | cons entry' entries => exact .head _
    rw [EntriesStay, ← sameOutside_entry habs, ← ih]
    constructor
    · intro hall
      have hstep := hall _ (.tail _ hhead)
      exact ⟨hstep, fun v hv => hstep.symm.trans (hall v (.tail _ hv))⟩
    · rintro ⟨hstep, hrest⟩ v (_ | ⟨_, hv⟩)
      · exact fun _ _ => rfl
      · exact hstep.trans (hrest v hv)

/-- The directory itself and every entry stay in the directory. -/
def UnzipStays (cwd : Path) (dest : Option Path) (flags : UnzipFlags)
    (archive : List (Except String ZipEntry)) (fs : MemoryFs R) : Prop :=
  (dest.isSome = true → MakesBelow (unzipBaseDir cwd dest fs).1 fs.nodes
    (unzipBaseDir cwd dest fs).1) ∧
  EntriesStay (unzipBaseDir cwd dest fs).1 flags 0 archive
    (unzipStart cwd dest flags fs)

/-- An entry that is passed over is reported by its name. -/
def RefusedReported (baseDir : Path) (flags : UnzipFlags)
    (archive : List (Except String ZipEntry)) (stderr : List Path) : Prop :=
  ∀ entry : ZipEntry, .ok entry ∈ archive → flags.listOnly = false →
    ¬ baseDir <+: zipTarget baseDir entry.name → traversalText entry.name ∈ stderr

theorem stderr_printed (u v : Unzip R) (h : v.stderr = u.stderr) (quiet : Bool) (text : Path)
    (size : Nat) : u.stderr <+: ((v.printUnlessQuiet quiet text).count size).stderr := by
  rw [← h]
  cases quiet with
  | false => exact List.prefix_rfl
  | true => exact List.prefix_rfl

theorem stderr_writeFile (full sanitised : Path) (size : Nat) (data : Bytes) (flags : UnzipFlags)
    (u : Unzip R) : u.stderr <+: (unzipWriteFile full sanitised size data flags u).stderr := by
  unfold unzipWriteFile
  dsimp only
  split
  · split
    · exact List.prefix_rfl
    · exact List.prefix_append _ _
  · split
    · exact List.prefix_append _ _
    · exact stderr_printed u
        { u with fs := (storeContents full data (unzipEnsureParent full u.fs)).2 } rfl _ _ _

/-- What was reported stays reported. -/
theorem stderr_entry (baseDir : Path) (flags : UnzipFlags) (index : Nat)
    (entry : Except String ZipEntry) (u : Unzip R) :
    u.stderr <+: (unzipProcessOneEntry baseDir flags index entry u).stderr := by
  unfold unzipProcessOneEntry
  split
  · exact List.prefix_append _ _
  · dsimp only
    split
    · exact stderr_printed u u rfl _ _ _
    · split
      · exact List.prefix_append _ _
      · split
        · exact stderr_printed u { u with fs := (u.fs.createDir _).2 } rfl _ _ _
        · split
          · exact List.prefix_append _ _
          · exact stderr_writeFile _ _ _ _ _ _

theorem stderr_entries (baseDir : Path) (flags : UnzipFlags) (index : Nat)
    (entries : List (Except String ZipEntry)) (u : Unzip R) :
    u.stderr <+: (unzipEntries baseDir flags index entries u).stderr := by
  induction entries generalizing index u with
  | nil => exact List.prefix_rfl
  | cons entry entries ih => exact (stderr_entry _ _ _ _ _).trans (ih _ _)

theorem refusedReported_entries (baseDir : Path) (flags : UnzipFlags) (index : Nat)
    (entries : List (Except String ZipEntry)) (u : Unzip R) :
    RefusedReported baseDir flags entries
      (unzipEntries baseDir flags index entries u).stderr := by
  induction entries generalizing index u with
  | nil => rintro entry ⟨⟩
  | cons first entries ih =>
    rintro entry (_ | ⟨_, hmem⟩) hlist hrefused
    · refine (stderr_entries baseDir flags (index + 1) entries _).subset ?_
      have hnot : baseDir.isPrefixOf (zipTarget baseDir entry.name) = false := by
        rw [Bool.eq_false_iff]
        exact fun h => hrefused (List.isPrefixOf_iff_prefix.mp h)
      unfold unzipProcessOneEntry
      dsimp only
      rw [hlist, if_neg Bool.false_ne_true, if_pos (by simp [hnot])]
      exact List.mem_append_right _ (.head _)
    · exact ih _ _ entry hmem hlist hrefused

/-- **Extraction is confined**: for every archive, whatever the names of its entries are, and
    every filesystem, nothing outside the directory is made or changed in any state of the run,
    and what is passed over is reported, exactly where the directory and the entries stay. -/
theorem unzip_confined_iff {cwd : Path} (habs : cwd.head? = some '/') (dest : Option Path)
    (flags : UnzipFlags) (archive : List (Except String ZipEntry)) (fs : MemoryFs R) :
    ((∀ v ∈ unzipStates (unzipBaseDir cwd dest fs).1 flags 0 archive
        (unzipStart cwd dest flags fs),
        SameOutside (unzipBaseDir cwd dest fs).1 fs.nodes v.fs.nodes) ∧
      RefusedReported (unzipBaseDir cwd dest fs).1 flags archive
        (utilUnzip cwd dest flags archive fs).stderr) ↔
      UnzipStays cwd dest flags archive fs := by
  have hreported : RefusedReported (unzipBaseDir cwd dest fs).1 flags archive
      (utilUnzip cwd dest flags archive fs).stderr := by
    have hentries := refusedReported_entries (unzipBaseDir cwd dest fs).1 flags 0 archive
      (unzipStart cwd dest flags fs)
    unfold utilUnzip
    dsimp only
    split
    · exact hentries
    · exact hentries
  have hbase : (unzipBaseDir cwd dest fs).1.head? = some '/' := by
    cases dest with
    | none => exact habs
    | some dest => exact head_resolveCwdPath habs
  have hstart : SameOutside (unzipBaseDir cwd dest fs).1 fs.nodes
      (unzipStart cwd dest flags fs).fs.nodes ↔
      (dest.isSome = true → MakesBelow (unzipBaseDir cwd dest fs).1 fs.nodes
        (unzipBaseDir cwd dest fs).1) := by
    cases dest with
    | none => exact iff_of_true (fun _ _ => rfl) (by simp)
    | some dest =>
      have hdir := @sameOutside_createDir _ (resolveCwdPath cwd dest) _ fs hbase
      rw [show normalizePath (unzipBaseDir cwd (some dest) fs).1 = resolveCwdPath cwd dest from
        isNormal_resolveCwdPath _ _] at hdir
      exact hdir.trans ⟨fun h _ => h, fun h => h rfl⟩
  have hhead : unzipStart cwd dest flags fs ∈ unzipStates (unzipBaseDir cwd dest fs).1 flags 0
      archive (unzipStart cwd dest flags fs) := by
    cases archive with
    | nil => exact .head _
    | cons entry archive => exact .head _
  rw [UnzipStays, ← hstart, ← entriesStay_iff hbase]
  constructor
  · rintro ⟨hall, -⟩
    have hfirst := hall _ hhead
    exact ⟨hfirst, fun v hv => hfirst.symm.trans (hall v hv)⟩
  · rintro ⟨hfirst, hall⟩
    exact ⟨fun v hv => hfirst.trans (hall v hv), hreported⟩

/-- An entry that is refused, for a directory that is made. -/
theorem unzip_confined_refused :
    let archive : List (Except String ZipEntry) := [.ok ⟨"..//etc/x".toList, 1, false, .ok [0x61]⟩]
    (∀ v ∈ unzipStates "/out".toList ⟨false, false, false⟩ 0 archive
        (unzipStart ['/'] (some "out".toList) ⟨false, false, false⟩ (MemoryFs.new : MemoryFs Unit)),
        SameOutside "/out".toList (MemoryFs.new : MemoryFs Unit).nodes v.fs.nodes) ∧
      RefusedReported "/out".toList ⟨false, false, false⟩ archive
        (utilUnzip ['/'] (some "out".toList) ⟨false, false, false⟩ archive
          (MemoryFs.new : MemoryFs Unit)).stderr := by
  refine (@unzip_confined_iff Unit ['/'] rfl (some "out".toList) ⟨false, false, false⟩ _
    MemoryFs.new).mpr ⟨fun _ _ _ => ?_, ?_⟩
  · rintro before p after heq - -
    have hpaths : parentPaths "/out".toList ++ ["/out".toList] = ["/out".toList] := by decide
    cases before with
    | nil =>
      cases hpaths.symm.trans heq
      exact .inl rfl
    | cons q before =>
      have hlen := congrArg List.length (hpaths.symm.trans heq)
      simp at hlen
  · rw [EntriesStay]
    refine ⟨fun _ hbelow => ?_, trivial⟩
    exact absurd hbelow (by decide +kernel)

/-- The directory is `/out`, and the entry goes to a sibling whose name starts in the same
    way. -/
theorem unzip_escapes : ¬ ∀ (cwd : Path) (dest : Option Path) (flags : UnzipFlags)
    (archive : List (Except String ZipEntry)) (fs : MemoryFs Unit), cwd.head? = some '/' →
    SameOutside (unzipBaseDir cwd dest fs).1 fs.nodes
      (utilUnzip cwd dest flags archive fs).fs.nodes := by
  intro h
  have hout : ¬ Below "/out".toList "/out-evil/x".toList := by
    rintro (heq | hbegins)
    · exact absurd heq (by decide)
    · exact absurd hbegins (by decide)
  have hsame := h ['/'] (some "/out".toList) ⟨false, false, false⟩
    [.ok ⟨"..//out-evil/x".toList, 1, false, .ok [0x61]⟩] MemoryFs.new rfl
    "/out-evil/x".toList hout
  exact absurd hsame (by decide +kernel)

end Wasmsh.Fs

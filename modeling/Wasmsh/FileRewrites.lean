import Wasmsh.FsAtomicity
import Wasmsh.FsPermissions
import Wasmsh.FsTree

/-!
# Utilities that rewrite a file

`sed -i`, `sort -o` and `cp` store new contents in a file: they open it for writing, which takes
its contents away, and then write.  Where storing fails the file should hold what it held, and
the utility should say so with its status.  `rewrites_keep_files_iff` says when both is so.
What the utilities print is left out.  What was stored is read back until something touches it.
-/

namespace Wasmsh.Fs

open Globs

variable {R : Type}

/-! ## 1. Reading and storing -/

/-- What a handle is read from: the contents of a file or an installed reader. -/
abbrev Source (R : Type) := Bytes ⊕ R

/-- `stream_file`. -/
def MemoryFs.streamFile (handle : Nat) (fs : MemoryFs R) : Except FsError (Source R) :=
  match fs.handles.lookup handle with
  | none => .error (.io "invalid handle")
  | some f =>
    if !f.opts.read then .error (.permissionDenied "not opened for reading".toList)
    else match f.source with
      | .path path =>
        match fs.nodes.lookup path with
        | some (.file data) => .ok (.inl data)
        | _ => .error (.notFound path)
      | .virtual reader => .ok (.inr reader)

/-- A path is opened for reading, streamed and closed. -/
def openReader (path : Path) (fs : MemoryFs R) : Outcome R (Source R) :=
  match fs.openFile path .forReading with
  | (.error e, fs) => (.error e, fs)
  | (.ok handle, fs) => (fs.streamFile handle, fs.close handle)

/-- What `read_to_end` makes of a source; `drain` is what it gets from an installed reader. -/
def readAll (drain : R → Except String Bytes) : Source R → Except FsError Bytes
  | .inl data => .ok data
  | .inr reader => (drain reader).mapError .io

/-- A file is opened for writing, written and closed. -/
def storeContents (path : Path) (data : Bytes) (fs : MemoryFs R) : Outcome R Unit :=
  match fs.openFile path .forWriting with
  | (.error e, fs) => (.error e, fs)
  | (.ok handle, fs) => ((fs.writeFile handle data).1, (fs.writeFile handle data).2.close handle)

/-! ## 2. The utilities -/

/-- New contents are stored at a path: the filesystem before the utility touches the file
    there, and the one in which it opens it. -/
structure Rewrite (R : Type) where
  path : Path
  data : Bytes
  original : MemoryFs R
  before : MemoryFs R

def Rewrite.outcome (w : Rewrite R) : Outcome R Unit := storeContents w.path w.data w.before

/-- The result of an operation, the files that it rewrites in their order, and the filesystem
    after it. -/
structure Rewriting (R α : Type) where
  result : α
  rewrites : List (Rewrite R)
  fs : MemoryFs R

section

variable (drain : R → Except String Bytes) (cwd : Path)

/-- `copy_file_contents`; `original` is the filesystem before the utility touches `dst`. -/
def copyFileContents (original : MemoryFs R) (src dst : Path) (fs : MemoryFs R) :
    Rewriting R (Except FsError Unit) :=
  match openReader src fs with
  | (.error e, fs) => ⟨.error e, [], fs⟩
  | (.ok source, fs) =>
    match readAll drain source with
    | .error e => ⟨.error e, [], fs⟩
    | .ok data =>
      let w : Rewrite R := ⟨dst, data, original, fs⟩
      ⟨w.outcome.1, [w], w.outcome.2⟩

/-- The backup of `sed -i` with a suffix; its result is not looked at. -/
def sedBackup (suffix : Option Path) (full : Path) (fs : MemoryFs R) : Rewriting R Unit :=
  match suffix with
  | none => ⟨(), [], fs⟩
  | some suffix =>
    let copied := copyFileContents drain fs full (full ++ suffix) fs
    ⟨(), copied.rewrites, copied.fs⟩

/-- `sed_run_in_place`; `edit` is `sed_process_reader`, the text that the script makes of a
    source or the status of a failure. -/
def sedRunInPlace (edit : Source R → Except Int Bytes) (suffix : Option Path) :
    List Path → MemoryFs R → Rewriting R Int
  | [], fs => ⟨0, [], fs⟩
  | path :: operands, fs =>
    let full := resolveCwdPath cwd path
    let backup := sedBackup drain suffix full fs
    match openReader full backup.fs with
    | (.error _, fs) => ⟨1, backup.rewrites, fs⟩
    | (.ok source, fs) =>
      match edit source with
      | .error status => ⟨status, backup.rewrites, fs⟩
      | .ok text =>
        let w : Rewrite R := ⟨full, text, fs, fs⟩
        let rest := sedRunInPlace edit suffix operands w.outcome.2
        ⟨rest.result, backup.rewrites ++ w :: rest.rewrites, rest.fs⟩

/-- `util_sort`; `arrange` is what it makes of its input, the sorted lines or a status, when it
    only checks the order or cannot read. -/
def utilSort (arrange : Option (Source R) → Except Int (List Bytes)) (input output : Option Path)
    (fs : MemoryFs R) : Rewriting R Int :=
  match sortInput input fs with
  | (.error _, fs) => ⟨1, [], fs⟩
  | (.ok source, fs) =>
    match arrange source, output with
    | .error status, _ => ⟨status, [], fs⟩
    | .ok _, none => ⟨0, [], fs⟩
    | .ok lines, some path =>
      let w : Rewrite R := ⟨resolveCwdPath cwd path, lines.flatMap (· ++ [0x0a]), fs, fs⟩
      ⟨0, [w], w.outcome.2⟩
where
  sortInput (input : Option Path) (fs : MemoryFs R) : Outcome R (Option (Source R)) :=
    match input with
    | none => (.ok none, fs)
    | some path =>
      let opened := openReader (resolveCwdPath cwd path) fs
      (opened.1.map some, opened.2)

/-- `CpFlags`. -/
structure CpFlags where
  recursive : Bool
  force : Bool
  noClobber : Bool
  symbolic : Bool
  deriving DecidableEq, Repr

/-- `child_path`. -/
def childPath (parent name : Path) : Path :=
  if parent = ['/'] then '/' :: name else parent ++ '/' :: name

/-- The part of an operand after its last `/`. -/
def operandName (path : Path) : Path :=
  match splitLastSlash path with
  | some (_, name) => name
  | none => path

def isDirAt (fs : MemoryFs R) (path : Path) : Bool :=
  match fs.stat path with
  | .ok m => m.isDir
  | .error _ => false

def isThere (fs : MemoryFs R) (path : Path) : Bool := (fs.stat path).isOk

/-- The loop of `cp_recursive` over the entries of a directory. -/
def cpEntries (copy : MemoryFs.DirEntry → MemoryFs R → Rewriting R (Except FsError Unit)) :
    List MemoryFs.DirEntry → MemoryFs R → Rewriting R (Except FsError Unit)
  | [], fs => ⟨.ok (), [], fs⟩
  | entry :: entries, fs =>
    let first := copy entry fs
    match first.result with
    | .error e => ⟨.error e, first.rewrites, first.fs⟩
    | .ok () =>
      let rest := cpEntries copy entries first.fs
      ⟨rest.result, first.rewrites ++ rest.rewrites, rest.fs⟩

/-- `cp_recursive`, at most as deep as the first argument says: every level makes a directory,
    and the inode limit ends a copy that goes on. -/
def cpRecursive : Nat → Path → Path → MemoryFs R → Rewriting R (Except FsError Unit)
  | 0, _, _, fs => ⟨.error inodeLimit, [], fs⟩
  | n + 1, src, dst, fs =>
    match fs.createDir dst with
    | (.error e, fs) => ⟨.error e, [], fs⟩
    | (.ok (), fs) =>
      match fs.readDir src with
      | .error e => ⟨.error e, [], fs⟩
      | .ok entries =>
        cpEntries (fun entry fs =>
          let src := childPath src entry.name
          let dst := childPath dst entry.name
          if entry.isDir then cpRecursive n src dst fs
          else copyFileContents drain fs src dst fs) entries fs

/-- The target after `cp -f` has taken it away. -/
def cpCleared (flags : CpFlags) (dst : Path) (fs : MemoryFs R) : MemoryFs R :=
  if flags.force && isThere fs dst then (fs.removeFile dst).2 else fs

/-- One turn of the loop of `util_cp`: whether the operand is copied or passed over. -/
def cpOperand (depth : Nat) (flags : CpFlags) (dstBase srcArg : Path) (fs : MemoryFs R) :
    Rewriting R (Except FsError Unit) :=
  let src := resolveCwdPath cwd srcArg
  let dst := if isDirAt fs dstBase then childPath dstBase (operandName srcArg) else dstBase
  if flags.noClobber && isThere fs dst then ⟨.ok (), [], fs⟩
  else
    let cleared := cpCleared flags dst fs
    if flags.symbolic then
      let linked := cleared.symlink srcArg dst
      ⟨linked.1, [], linked.2⟩
    else if isDirAt fs src then
      if !flags.recursive then ⟨.error (.isADirectory src), [], cleared⟩
      else cpRecursive drain depth src dst cleared
    else copyFileContents drain fs src dst cleared

/-- `util_cp`: the status is 1 when an operand is not copied. -/
def utilCp (depth : Nat) (flags : CpFlags) (dst : Path) :
    List Path → MemoryFs R → Rewriting R Int
  | [], fs => ⟨0, [], fs⟩
  | src :: sources, fs =>
    let first := cpOperand drain cwd depth flags (resolveCwdPath cwd dst) src fs
    let rest := utilCp depth flags dst sources first.fs
    ⟨match first.result with
      | .error _ => 1
      | .ok () => rest.result, first.rewrites ++ rest.rewrites, rest.fs⟩

end

/-- A utility with the options and operands that it has parsed. -/
inductive Utility (R : Type) where
  | sed (edit : Source R → Except Int Bytes) (suffix : Option Path) (operands : List Path)
  | sort (arrange : Option (Source R) → Except Int (List Bytes)) (input output : Option Path)
  | cp (depth : Nat) (flags : CpFlags) (dst : Path) (sources : List Path)

def Utility.run (drain : R → Except String Bytes) (cwd : Path) :
    Utility R → MemoryFs R → Rewriting R Int
  | sed edit suffix operands, fs => sedRunInPlace drain cwd edit suffix operands fs
  | sort arrange input output, fs => utilSort cwd arrange input output fs
  | cp depth flags dst sources, fs => utilCp drain cwd depth flags dst sources fs

/-! ## 3. A store that fails -/

/-- A file there is opened for writing. -/
def Opens (fs : MemoryFs R) (path norm : Path) : Prop :=
  fs.resolve path = .ok norm ∧ fs.modeOf norm false &&& 0o200 ≠ 0

/-- A file is made there. -/
def Creates (fs : MemoryFs R) (path norm : Path) : Prop :=
  fs.resolve path = .ok norm ∧ norm ∉ fs.nodes ∧
    (createNode norm (.file []) fs.nodes).1 = .ok ()

/-- What a node can be after an entry is made. -/
theorem lookup_createNode (path k : Path) (node : FsNode) (nodes : Nodes) :
    (createNode path node nodes).2.lookup k = nodes.lookup k ∨
      k ∉ nodes ∧ (createNode path node nodes).2.lookup k = some .dir ∨
      (createNode path node nodes).1 = .ok () ∧ k = path := by
  have hmade := @made_ensureParents False (parentPaths path) nodes False.elim
  unfold createNode
  split
  · next heq =>
    rw [heq] at hmade
    rcases hmade.lookup k with h | ⟨-, hnot, h⟩
    · exact .inl h
    · exact .inr (.inl ⟨hnot, h⟩)
  · next heq =>
    rw [heq] at hmade
    split
    · rcases hmade.lookup k with h | ⟨-, hnot, h⟩
      · exact .inl h
      · exact .inr (.inl ⟨hnot, h⟩)
    · by_cases hk : k = path
      · exact .inr (.inr ⟨rfl, hk⟩)
      · rw [AList.lookup_insert_ne hk]
        rcases hmade.lookup k with h | ⟨-, hnot, h⟩
        · exact .inl h
        · exact .inr (.inl ⟨hnot, h⟩)

theorem lookup_createNode_self {path : Path} {node : FsNode} {nodes : Nodes}
    (h : (createNode path node nodes).1 = .ok ()) :
    (createNode path node nodes).2.lookup path = some node := by
  cases hmade : createNode path node nodes with
  | mk r after =>
    rw [hmade] at h
    cases (show r = .ok () from h)
    obtain ⟨before, rfl⟩ := createNode_ok hmade
    exact AList.lookup_insert before

/-- A store that fails leaves the nodes as opening the file has left them. -/
theorem nodes_of_failed {fs : MemoryFs R} {path : Path} {data : Bytes} {e : FsError}
    (h : (storeContents path data fs).1 = .error e) :
    (storeContents path data fs).2.nodes = (fs.openFile path .forWriting).2.nodes := by
  unfold storeContents at h ⊢
  cases hopen : fs.openFile path .forWriting with
  | mk r after =>
    rw [hopen] at h
    cases r with
    | error e => rfl
    | ok handle =>
      have hsame : (after.writeFile handle data).2 = after :=
        unharmed_writeFile after handle data e h
      change ((after.writeFile handle data).2.close handle).nodes = after.nodes
      rw [hsame]
      rfl

theorem openFile_forWriting {fs : MemoryFs R} {path norm : Path} (h : fs.resolve path = .ok norm) :
    fs.openFile path .forWriting = fs.openResolved norm .forWriting := by
  unfold MemoryFs.openFile
  rw [h]
  rfl

/-- Opening a file for reading, one that no reader is installed for. -/
theorem openFile_forReading {fs : MemoryFs R} {path k : Path} {c : Bytes}
    (hnorm : fs.resolve path = .ok k) (hfile : fs.nodes.lookup k = some (.file c))
    (hreader : fs.virtualReaders.lookup k = none) : fs.openFile path .forReading =
      if fs.modeOf k false &&& 0o400 = 0 then (.error (.permissionDenied k), fs)
      else fs.addHandle (.path k) .forReading := by
  have hopen : fs.openFile path .forReading = fs.openResolved k .forReading := by
    unfold MemoryFs.openFile
    rw [hnorm]
    dsimp only
    rw [if_pos (by decide), hreader]
  rw [hopen]
  unfold MemoryFs.openResolved
  rw [hfile]
  simp [OpenOptions.forReading, OpenOptions.changes]

section

variable {fs : MemoryFs R} {path k : Path} {c : Bytes}

/-- The contents that a file has after it was opened for writing: the file at the path is
    empty. -/
def AsOpened (fs : MemoryFs R) (path k : Path) (c : Bytes) : Prop :=
  fs.nodes.lookup k = some (.file c) ∧ ¬ Opens fs path k ∨
    c = [] ∧ ((∃ c', fs.nodes.lookup k = some (.file c')) ∧ Opens fs path k ∨ Creates fs path k)

/-- Where nothing is opened, everything stays. -/
theorem asOpened_same (hopens : ∀ c', fs.nodes.lookup k = some (.file c') → ¬ Opens fs path k)
    (hcreates : ¬ Creates fs path k) : fs.nodes.lookup k = some (.file c) ↔
      AsOpened fs path k c := by
  constructor
  · intro h
    exact .inl ⟨h, hopens c h⟩
  · rintro (⟨h, -⟩ | ⟨-, ⟨⟨c', h⟩, hopen⟩ | hmade⟩)
    · exact h
    · exact absurd hopen (hopens c' h)
    · exact absurd hmade hcreates

/-- The same where a file is made at the resolved path. -/
theorem lookup_created {norm : Path} (hnorm : fs.resolve path = .ok norm)
    (habsent : fs.nodes.lookup norm = none) :
    (createNode norm (.file []) fs.nodes).2.lookup k = some (.file c) ↔ AsOpened fs path k c := by
  have hopens : ∀ c', fs.nodes.lookup k = some (.file c') → ¬ Opens fs path k := by
    rintro c' h ⟨hk, -⟩
    cases hnorm.symm.trans hk
    rw [habsent] at h
    cases h
  by_cases hmade : Creates fs path k
  · obtain ⟨hk, -, hok⟩ := id hmade
    cases hnorm.symm.trans hk
    rw [lookup_createNode_self hok]
    constructor
    · rintro ⟨⟩
      exact .inr ⟨rfl, .inr hmade⟩
    · rintro (⟨h, -⟩ | ⟨rfl, -⟩)
      · rw [habsent] at h
        cases h
      · rfl
  · rw [← asOpened_same hopens hmade]
    rcases lookup_createNode norm k (.file []) fs.nodes with h | ⟨hnot, h⟩ | ⟨hok, hk⟩
    · rw [h]
    · rw [h, AList.lookup_eq_none.mpr hnot]
      constructor
      · rintro ⟨⟩
      · rintro ⟨⟩
    · subst hk
      exact absurd ⟨hnorm, AList.lookup_eq_none.mp habsent, hok⟩ hmade

theorem lookup_openFile (fs : MemoryFs R) (path k : Path) (c : Bytes) :
    (fs.openFile path .forWriting).2.nodes.lookup k = some (.file c) ↔ AsOpened fs path k c := by
  cases hnorm : fs.resolve path with
  | error e =>
    have hno : ∀ k, fs.resolve path ≠ .ok k := by
      rw [hnorm]
      rintro k ⟨⟩
    have hopen : fs.openFile path .forWriting = (.error e, fs) := by
      unfold MemoryFs.openFile
      rw [hnorm]
    rw [hopen]
    exact asOpened_same (fun _ _ h => hno k h.1) fun h => hno k h.1
  | ok norm =>
    rw [openFile_forWriting hnorm]
    cases hnode : fs.nodes.lookup norm with
    | none =>
      rw [nodes_openResolved rfl (AList.lookup_eq_none.mp hnode)]
      exact lookup_created hnorm hnode
    | some node =>
      unfold MemoryFs.openResolved
      rw [hnode]
      have hcreates : ∀ k, ¬ Creates fs path k := by
        rintro k ⟨hk, habsent, -⟩
        cases hnorm.symm.trans hk
        exact habsent (mem_of_lookup hnode)
      have hno : ∀ k, k ≠ norm → ¬ Opens fs path k := by
        rintro k hk ⟨hnorm', -⟩
        cases hnorm.symm.trans hnorm'
        exact hk rfl
      cases node with
      | dir | symlink target =>
        refine asOpened_same (fun c' h => hno k ?_) (hcreates k)
        rintro rfl
        cases hnode.symm.trans h
      | file contents =>
        dsimp only
        rw [if_neg (by simp [OpenOptions.forWriting])]
        by_cases hmode : fs.modeOf norm false &&& 0o200 = 0
        · rw [if_pos (by simp [OpenOptions.forWriting, OpenOptions.changes, hmode])]
          refine asOpened_same (fun c' h hopen => ?_) (hcreates k)
          cases hnorm.symm.trans hopen.1
          exact hopen.2 hmode
        · rw [if_neg (by simp [hmode])]
          change (fs.nodes.insert norm (.file [])).lookup k = _ ↔ _
          by_cases hk : k = norm
          · subst hk
            rw [AList.lookup_insert]
            constructor
            · rintro ⟨⟩
              exact .inr ⟨rfl, .inl ⟨⟨contents, hnode⟩, hnorm, hmode⟩⟩
            · rintro (⟨-, hnot⟩ | ⟨rfl, -⟩)
              · exact absurd ⟨hnorm, hmode⟩ hnot
              · rfl
          · rw [AList.lookup_insert_ne hk]
            exact asOpened_same (fun _ _ => hno k hk) (hcreates k)

end

/-! ## 4. Files that are kept -/

namespace Rewrite

/-- The store fails. -/
def Failed (w : Rewrite R) : Prop := ∃ e, w.outcome.1 = .error e

/-- The file holds what it held before the utility touched it. -/
def Keeps (w : Rewrite R) : Prop := ∀ norm c, w.original.resolve w.path = .ok norm →
  w.original.nodes.lookup norm = some (.file c) → w.outcome.2.nodes.lookup norm = some (.file c)

/-- It still holds this when the store begins, and is not opened, or it was empty. -/
def Untouched (w : Rewrite R) : Prop := ∀ norm c, w.original.resolve w.path = .ok norm →
  w.original.nodes.lookup norm = some (.file c) → AsOpened w.before w.path norm c

theorem keeps_iff {w : Rewrite R} (h : w.Failed) : w.Keeps ↔ w.Untouched := by
  obtain ⟨e, h⟩ := h
  unfold Keeps Untouched
  rw [outcome, nodes_of_failed h]
  constructor
  · intro hkeeps norm c hnorm hfile
    exact (lookup_openFile _ _ _ _).mp (hkeeps norm c hnorm hfile)
  · intro huntouched norm c hnorm hfile
    exact (lookup_openFile _ _ _ _).mpr (huntouched norm c hnorm hfile)

end Rewrite

/-- A store that fails gives a failure. -/
def Rewriting.Reports {α : Type} (r : Rewriting R (Except FsError α)) : Prop :=
  (∃ w ∈ r.rewrites, w.Failed) → ∃ e, r.result = .error e

section

variable {drain : R → Except String Bytes} {cwd : Path}

theorem copyFileContents_reports (original fs : MemoryFs R) (src dst : Path) :
    (copyFileContents drain original src dst fs).Reports := by
  unfold copyFileContents
  split
  · rintro ⟨w, ⟨⟩, -⟩
  · split
    · rintro ⟨w, ⟨⟩, -⟩
    · rintro ⟨w, hw, hfailed⟩
      cases List.mem_singleton.mp hw
      exact hfailed

theorem cpEntries_reports {copy : MemoryFs.DirEntry → MemoryFs R → Rewriting R (Except FsError Unit)}
    (hcopy : ∀ entry fs, (copy entry fs).Reports) (entries : List MemoryFs.DirEntry)
    (fs : MemoryFs R) : (cpEntries copy entries fs).Reports := by
  induction entries generalizing fs with
  | nil => rintro ⟨w, ⟨⟩, -⟩
  | cons entry entries ih =>
    have hfirst := hcopy entry fs
    rw [cpEntries]
    dsimp only
    split
    · next e he => exact fun _ => ⟨e, rfl⟩
    · next hok =>
      rintro ⟨w, hw, hfailed⟩
      rcases List.mem_append.mp hw with hw | hw
      · obtain ⟨e, he⟩ := hfirst ⟨w, hw, hfailed⟩
        rw [hok] at he
        cases he
      · exact ih _ ⟨w, hw, hfailed⟩

theorem cpRecursive_reports (n : Nat) (src dst : Path) (fs : MemoryFs R) :
    (cpRecursive drain n src dst fs).Reports := by
  induction n generalizing src dst fs with
  | zero => rintro ⟨w, ⟨⟩, -⟩
  | succ n ih =>
    rw [cpRecursive]
    split
    · rintro ⟨w, ⟨⟩, -⟩
    · split
      · rintro ⟨w, ⟨⟩, -⟩
      · refine cpEntries_reports (fun entry fs => ?_) _ _
        dsimp only
        split
        · exact ih _ _ _
        · exact copyFileContents_reports _ _ _ _

theorem cpOperand_reports (depth : Nat) (flags : CpFlags) (dstBase src : Path) (fs : MemoryFs R) :
    (cpOperand drain cwd depth flags dstBase src fs).Reports := by
  unfold cpOperand
  dsimp only
  generalize (if isDirAt fs dstBase then childPath dstBase (operandName src) else dstBase) = dst
  split
  · rintro ⟨w, ⟨⟩, -⟩
  · split
    · rintro ⟨w, ⟨⟩, -⟩
    · split
      · split
        · rintro ⟨w, ⟨⟩, -⟩
        · exact cpRecursive_reports _ _ _ _
      · exact copyFileContents_reports _ _ _ _

/-- `cp` reports every store that fails. -/
theorem utilCp_reports {depth : Nat} {flags : CpFlags} {dst : Path} {sources : List Path}
    {fs : MemoryFs R} (h : ∃ w ∈ (utilCp drain cwd depth flags dst sources fs).rewrites, w.Failed) :
    (utilCp drain cwd depth flags dst sources fs).result ≠ 0 := by
  induction sources generalizing fs with
  | nil =>
    obtain ⟨w, ⟨⟩, -⟩ := h
  | cons src sources ih =>
    have hfirst := @cpOperand_reports _ drain cwd depth flags (resolveCwdPath cwd dst) src fs
    rw [utilCp] at h ⊢
    obtain ⟨w, hw, hfailed⟩ := h
    dsimp only at hw ⊢
    split
    · decide
    · next hok =>
      rcases List.mem_append.mp hw with hw | hw
      · obtain ⟨e, he⟩ := hfirst ⟨w, hw, hfailed⟩
        rw [hok] at he
        cases he
      · exact ih ⟨w, hw, hfailed⟩

/-- `sort` succeeds when it has something to store. -/
theorem utilSort_result {arrange : Option (Source R) → Except Int (List Bytes)}
    {input output : Option Path} {fs : MemoryFs R} {w : Rewrite R}
    (h : w ∈ (utilSort cwd arrange input output fs).rewrites) :
    (utilSort cwd arrange input output fs).result = 0 := by
  unfold utilSort at h ⊢
  split at h
  · cases h
  · next source fs' _ =>
    dsimp only at h ⊢
    split at h
    · cases h
    · cases h
    · rfl

/-- An operand that cannot be read, after the operands before it. -/
def SomeUnread (drain : R → Except String Bytes) (cwd : Path) (edit : Source R → Except Int Bytes)
    (suffix : Option Path) : List Path → MemoryFs R → Prop
  | [], _ => False
  | path :: operands, fs =>
    let full := resolveCwdPath cwd path
    match openReader full (sedBackup drain suffix full fs).fs with
    | (.error _, _) => True
    | (.ok source, fs) =>
      match edit source with
      | .error status => status ≠ 0
      | .ok text => SomeUnread drain cwd edit suffix operands (storeContents full text fs).2

/-- `sed -i` reports nothing but an operand that it cannot read. -/
theorem sedRunInPlace_status {edit : Source R → Except Int Bytes} {suffix : Option Path}
    {operands : List Path} {fs : MemoryFs R} :
    (sedRunInPlace drain cwd edit suffix operands fs).result ≠ 0 ↔
      SomeUnread drain cwd edit suffix operands fs := by
  induction operands generalizing fs with
  | nil => simp [sedRunInPlace, SomeUnread]
  | cons path operands ih =>
    rw [sedRunInPlace, SomeUnread]
    dsimp only
    split
    · simp
    · split
      · rfl
      · exact ih

end

/-- The utility would say so if a store failed. -/
def Utility.Reports (drain : R → Except String Bytes) (cwd : Path) : Utility R → MemoryFs R → Prop
  | sed edit suffix operands, fs => SomeUnread drain cwd edit suffix operands fs
  | sort .., _ => False
  | cp .., _ => True

/-- **A rewritten file is kept**: for every filesystem and every run of `sed -i`, `sort -o` or
    `cp`, the files whose store fails hold what they held and the status says so exactly where
    these files are untouched and the utility reports. -/
theorem rewrites_keep_files_iff (drain : R → Except String Bytes) (cwd : Path) (u : Utility R)
    (fs : MemoryFs R) :
    (∀ w ∈ (u.run drain cwd fs).rewrites, w.Failed → w.Keeps ∧ (u.run drain cwd fs).result ≠ 0) ↔
      ∀ w ∈ (u.run drain cwd fs).rewrites, w.Failed → w.Untouched ∧ u.Reports drain cwd fs := by
  have hstatus : ∀ w ∈ (u.run drain cwd fs).rewrites, w.Failed →
      ((u.run drain cwd fs).result ≠ 0 ↔ u.Reports drain cwd fs) := by
    intro w hw hfailed
    cases u with
    | sed edit suffix operands => exact sedRunInPlace_status
    | sort arrange input output =>
      exact iff_of_false (fun hne => hne (utilSort_result hw)) id
    | cp depth flags dst sources =>
      exact iff_of_true (utilCp_reports ⟨w, hw, hfailed⟩) trivial
  constructor
  · intro h w hw hfailed
    obtain ⟨hkeeps, hne⟩ := h w hw hfailed
    exact ⟨(Rewrite.keeps_iff hfailed).mp hkeeps, (hstatus w hw hfailed).mp hne⟩
  · intro h w hw hfailed
    obtain ⟨huntouched, hreports⟩ := h w hw hfailed
    exact ⟨(Rewrite.keeps_iff hfailed).mpr huntouched, (hstatus w hw hfailed).mpr hreports⟩

/-- `sort -o f` on a file that is read-only. -/
theorem sort_drops_error : ¬ ∀ (u : Utility Unit) (s : Session Unit), s.Reachable →
    ∀ w ∈ (u.run (fun _ => .ok []) ['/'] s.fs).rewrites, w.Failed →
      w.Keeps ∧ (u.run (fun _ => .ok []) ['/'] s.fs).result ≠ 0 := by
  intro h
  let lines : Option (Source Unit) → Except Int (List Bytes) := fun _ => .ok [[0x61]]
  have hsafe := h (.sort lines none (some ['f'])) readOnlyFile readOnlyFile_reachable
  have hkept := hsafe _ (.head _) ⟨.permissionDenied ['/', 'f'], by decide⟩
  exact hkept.2 rfl

/-! ## 5. Reading back -/

/-- An operation that could change the file at a path, or put a reader there. -/
def Session.Touches (s : Session R) (k : Path) : Op R → Prop
  | .openFile path opts => s.fs.resolve path = .ok k ∧ opts.readOnly = false
  | .writeFile handle _ => ∃ f, s.fs.handles.lookup handle = some f ∧ f.source = .path k
  | .openWriteSink path _ => s.fs.resolve path = .ok k
  | .sinkWrite i _ => ∃ sink, s.sinks[i]? = some sink ∧ sink.path = k
  | .installStreamReader path _ => normalizePath path = k
  | .removeFile path => s.fs.resolve path = .ok k
  | _ => False

/-- The file at a path has these contents, and no reader stands for them. -/
def Stored (fs : MemoryFs R) (k : Path) (c : Bytes) : Prop :=
  fs.nodes.lookup k = some (.file c) ∧ fs.virtualReaders.lookup k = none

namespace Stored

variable {fs : MemoryFs R} {k path norm : Path} {c : Bytes}

theorem createNode (h : Stored fs k c) (hne : k ≠ path) (node : FsNode) :
    (createNode path node fs.nodes).2.lookup k = fs.nodes.lookup k :=
  lookup_createNode_of_mem (mem_of_lookup h.1) hne

theorem openResolved (h : Stored fs k c) {opts : OpenOptions}
    (hnot : k = norm → opts.readOnly = true) : Stored (fs.openResolved norm opts).2 k c := by
  have hmade : k ≠ norm → _ := fun hne => h.createNode hne (.file [])
  grind [MemoryFs.openResolved, MemoryFs.emptyFile, MemoryFs.addHandle, Stored,
    AList.lookup_insert_ne, OpenOptions.readOnly, OpenOptions.changes]

theorem writeChunk (h : Stored fs k c) (sink : MemoryFs.WriteSink) (data : Bytes)
    (hne : k ≠ sink.path) : Stored (MemoryFs.writeChunk sink data fs).2 k c := by
  grind [MemoryFs.writeChunk, Stored, AList.lookup_insert_ne]

theorem openWriteSink (h : Stored fs k c) (append : Bool) (hnot : fs.resolve path ≠ .ok k) :
    Stored (fs.openWriteSink path append).2 k c := by
  unfold MemoryFs.openWriteSink
  split
  · exact h
  · next norm hnorm =>
    have hne : k ≠ norm := fun heq => hnot (heq ▸ hnorm)
    have hmade := h.createNode hne (.file [])
    grind [MemoryFs.emptyFile, Stored, AList.lookup_insert_ne, AList.lookup_erase_ne]

theorem installStreamReader (h : Stored fs k c) (reader : R) (hne : k ≠ normalizePath path) :
    Stored (fs.installStreamReader path reader).2 k c := by
  have hmade := (@made_ensureParents False (parentPaths (normalizePath path)) fs.nodes
    False.elim).lookup_of_mem (mem_of_lookup h.1)
  grind [MemoryFs.installStreamReader, Stored, AList.lookup_insert_ne]

theorem symlink (h : Stored fs k c) (target link : Path) :
    Stored (fs.symlink target link).2 k c := by
  have hmem := mem_of_lookup h.1
  have hmade := (@made_ensureParentDirs False (parentPaths (normalizePath link))
    fs.nodes).lookup_of_mem hmem
  grind [MemoryFs.symlink, Stored, AList.lookup_insert_ne]

theorem removeFile (h : Stored fs k c) (hnot : fs.resolve path ≠ .ok k) :
    Stored (fs.removeFile path).2 k c := by
  grind [MemoryFs.removeFile, MemoryFs.eraseNode, Stored, AList.lookup_erase_ne]

theorem removeDir (h : Stored fs k c) (path : Path) : Stored (fs.removeDir path).2 k c := by
  grind [MemoryFs.removeDir, MemoryFs.eraseNode, Stored, AList.lookup_erase_ne]

theorem openFile (h : Stored fs k c) {opts : OpenOptions}
    (hnot : fs.resolve path = .ok k → opts.readOnly = true) :
    Stored (fs.openFile path opts).2 k c := by
  unfold MemoryFs.openFile
  split
  · exact h
  · next norm hnorm =>
    have hopened := h.openResolved fun heq => hnot (heq ▸ hnorm)
    grind [MemoryFs.addHandle, Stored, AList.lookup_erase_ne]

theorem writeFile (h : Stored fs k c) (handle : Nat) (data : Bytes)
    (hnot : ∀ f, fs.handles.lookup handle = some f → f.source ≠ .path k) :
    Stored (fs.writeFile handle data).2 k c := by
  unfold MemoryFs.writeFile
  split
  · exact h
  · next f hf =>
    split
    · exact h
    · split
      · exact h
      · next path hsource => exact h.writeChunk _ data fun heq => hnot f hf (heq ▸ hsource)

/-- A file stays as it is in an operation that does not touch it. -/
theorem step {s : Session R} (h : Stored s.fs k c) {op : Op R} (hnot : ¬ s.Touches k op) :
    Stored (s.step op).2.fs k c := by
  cases op with
  | openFile path opts =>
    exact h.openFile fun hnorm => by_contra fun hopts => hnot ⟨hnorm, by simpa using hopts⟩
  | writeFile handle data => exact h.writeFile handle data fun f hf heq => hnot ⟨f, hf, heq⟩
  | openWriteSink path append =>
    have hkept := h.openWriteSink append hnot
    grind [Session.step]
  | sinkWrite i data =>
    have hkept := fun sink => h.writeChunk sink data
    grind [Session.step, Session.Touches]
  | installStreamReader path reader => exact h.installStreamReader reader (Ne.symm hnot)
  | close handle => exact h
  | symlink target link => exact h.symlink target link
  | createDir path =>
    have hmem := mem_of_lookup h.1
    have hkept : k ≠ normalizePath path → _ := fun hne => h.createNode hne .dir
    grind [Session.step, Session.finish, MemoryFs.createDir, Stored]
  | removeFile path => exact h.removeFile hnot
  | removeDir path => exact h.removeDir path
  | setMode path mode => grind [Session.step, Session.finish, MemoryFs.setMode, Stored]

theorem openReader (h : Stored fs k c) (hnorm : fs.resolve path = .ok k) :
    (openReader path fs).1 =
      if fs.modeOf k false &&& 0o400 = 0 then .error (.permissionDenied k) else .ok (.inl c) := by
  unfold Fs.openReader
  rw [openFile_forReading hnorm h.1 h.2]
  by_cases hmode : fs.modeOf k false &&& 0o400 = 0
  · rw [if_pos hmode, if_pos hmode]
  · rw [if_neg hmode, if_neg hmode]
    unfold MemoryFs.addHandle MemoryFs.streamFile
    dsimp only
    rw [AList.lookup_insert]
    dsimp only
    rw [h.1]
    rfl

theorem of_writeChunk {data : Bytes} (hreader : fs.virtualReaders.lookup k = none)
    (hok : ((MemoryFs.writeChunk ⟨k, false⟩ data fs).1.map fun _ => ()) = .ok ()) :
    Stored (MemoryFs.writeChunk ⟨k, false⟩ data fs).2 k data := by
  grind [MemoryFs.writeChunk, Stored, AList.lookup_insert, Except.map]

/-- An `open` gives a handle to its path, or an error. -/
theorem openResolved_cases (norm : Path) (opts : OpenOptions) (fs : MemoryFs R) :
    (∃ e fs', fs.openResolved norm opts = (.error e, fs')) ∨
      ∃ fs' : MemoryFs R, fs'.virtualReaders = fs.virtualReaders ∧
        fs.openResolved norm opts = fs'.addHandle (.path norm) opts := by
  unfold MemoryFs.openResolved
  grind [MemoryFs.emptyFile]

theorem of_stored {data : Bytes} (hok : (storeContents path data fs).1 = .ok ())
    (hnorm : fs.resolve path = .ok k) (hreader : fs.virtualReaders.lookup k = none) :
    Stored (storeContents path data fs).2 k data := by
  unfold storeContents at hok ⊢
  rw [openFile_forWriting hnorm] at hok ⊢
  rcases openResolved_cases k .forWriting fs with ⟨e, fs', heq⟩ | ⟨fs', hreaders, heq⟩
  · rw [heq] at hok
    cases hok
  · rw [heq] at hok ⊢
    simp only [MemoryFs.addHandle, MemoryFs.writeFile, AList.lookup_insert] at hok ⊢
    exact @of_writeChunk R { fs' with
      handles := fs'.handles.insert fs'.nextHandle ⟨.path k, .forWriting⟩
      nextHandle := fs'.nextHandle + 1 } k data (by rw [hreaders]; exact hreader) hok

end Stored

/-- **What is stored is read back**, where no reader stands and nothing touches the file,
    whatever else is done in between: under every name that leads to it, where the bits allow
    it to be read. -/
theorem stored_contents_read_back {s : Session R} {path k : Path} {data : Bytes}
    {ops : List (Op R)} (hstored : (storeContents path data s.fs).1 = .ok ())
    (hnorm : s.fs.resolve path = .ok k) (hreader : k ∉ s.fs.virtualReaders)
    (hcalls : ∀ call ∈ Session.calls { s with fs := (storeContents path data s.fs).2 } ops,
      ¬ call.1.Touches k call.2) :
    ∀ t ∈ Session.states { s with fs := (storeContents path data s.fs).2 } ops,
      ∀ name, t.fs.resolve name = .ok k → (openReader name t.fs).1 =
        if t.fs.modeOf k false &&& 0o400 = 0 then .error (.permissionDenied k)
        else .ok (.inl data) := by
  intro t ht name hname
  have hkept := Runs.states_induct (P := fun t => Stored t.fs k data)
    (Stored.of_stored hstored hnorm (AList.lookup_eq_none.mpr hreader))
    (fun call hcall h => h.step (hcalls call hcall)) t ht
  exact hkept.openReader hname

theorem stored_contents_read_back_beside_dir :
    (openReader ['/', 'f'] (Session.step
      ⟨(storeContents ['/', 'f'] [0x61] (.new : MemoryFs Unit)).2, []⟩
      (.createDir ['/', 'd'])).2.fs).1 = .ok (.inl [0x61]) := by
  refine (@stored_contents_read_back Unit .new ['/', 'f'] _ [0x61] [.createDir ['/', 'd']] rfl rfl
    (AList.notMem_empty _) ?_ _ (.tail _ (.head _)) _ rfl).trans (if_neg (by decide))
  intro call hcall
  rw [List.mem_singleton.mp hcall]
  exact id

end Wasmsh.Fs

import Wasmsh.Globs
import Wasmsh.Library.Runs
import Wasmsh.Library.Weighted

/-!
# The in-memory filesystem

`MemoryFs` of `wasmsh-fs/src/memfs.rs`: a flat map of nodes under normalized paths, and
beside it the permission bits, the readers installed on paths, the open handles and the
cached sum of the file sizes.  Every operation of the `Vfs` trait that writes is a function
from the filesystem to a result and the filesystem after it, as it is left when an early
return ends the operation with an error.  What a reader yields is not looked at (`R`), and
the handle counter does not overflow.
-/

namespace Wasmsh.Fs

open Globs

/-! ## 1. Nodes -/

abbrev Path := List Char

abbrev Bytes := List UInt8

/-- `FsNode`. -/
inductive FsNode where
  | file (contents : Bytes)
  | dir
  | symlink (target : Path)
  deriving DecidableEq, Repr

/-- The size that a node has in the sum. -/
def FsNode.size : FsNode → Nat
  | .file contents => contents.length
  | _ => 0

/-- The nodes by their paths. -/
abbrev Nodes := AList fun _ : Path => FsNode

/-- `FsError`, the variants that the filesystem returns. -/
inductive FsError where
  | notFound (path : Path)
  | alreadyExists (path : Path)
  | notADirectory (path : Path)
  | isADirectory (path : Path)
  | permissionDenied (what : Path)
  | io (message : String)
  deriving DecidableEq, Repr

/-- `OpenOptions`. -/
structure OpenOptions where
  read : Bool
  write : Bool
  append : Bool
  create : Bool
  truncate : Bool
  deriving DecidableEq, Repr

namespace OpenOptions

/-- `OpenOptions::read`. -/
def forReading : OpenOptions := ⟨true, false, false, false, false⟩

/-- `OpenOptions::write`. -/
def forWriting : OpenOptions := ⟨false, true, false, true, true⟩

/-- `OpenOptions::append`. -/
def forAppending : OpenOptions := ⟨false, true, true, true, false⟩

/-- The options that consume an installed reader. -/
def readOnly (o : OpenOptions) : Bool :=
  o.read && !o.write && !o.append && !o.create && !o.truncate

/-- The options that need the permission to write. -/
def changes (o : OpenOptions) : Bool := o.write || o.append || o.truncate

end OpenOptions

/-- `OpenFileSource`. -/
inductive OpenFileSource (R : Type) where
  | path (path : Path)
  | virtual (reader : R)

/-- `OpenFile`. -/
structure OpenFile (R : Type) where
  source : OpenFileSource R
  opts : OpenOptions

/-- `MemoryFsInner`. -/
structure MemoryFs (R : Type) where
  nodes : Nodes
  modes : AList fun _ : Path => UInt32
  virtualReaders : AList fun _ : Path => R
  handles : AList fun _ : Nat => OpenFile R
  nextHandle : Nat
  totalBytes : Nat

/-- `MAX_FILE_SIZE`. -/
def maxFileSize : Nat := 64 * 1024 * 1024

/-- `MAX_TOTAL_BYTES`. -/
def maxTotalBytes : Nat := 256 * 1024 * 1024

/-- `MAX_INODES`. -/
def maxInodes : Nat := 100000

/-- `MAX_SYMLINK_DEPTH`. -/
def maxSymlinkDepth : Nat := 40

/-- `DEFAULT_FILE_MODE`. -/
def defaultFileMode : UInt32 := 0o644

/-- `DEFAULT_DIR_MODE`. -/
def defaultDirMode : UInt32 := 0o755

/-- `MODE_PERM_MASK`. -/
def modePermMask : UInt32 := 0o777

/-- The result of an operation and the filesystem after it. -/
abbrev Outcome (R α : Type) := Except FsError α × MemoryFs R

namespace Nodes

/-- `nodes.len()`. -/
def count (nodes : Nodes) : Nat := Weighted.count nodes

/-- The sum of the sizes of the files. -/
def usedBytes (nodes : Nodes) : Nat := Weighted.total FsNode.size nodes

end Nodes

/-! ## 2. Paths -/

/-- The text before the last `/`, nothing when there is none. -/
def beforeLastSlash (t : Path) : Path :=
  match splitLastSlash t with
  | some (dirPart, _) => dirPart.dropLast
  | none => []

/-- The path that a link at `current` leads to. -/
def linkTarget (current target : Path) : Path :=
  if target.head? = some '/' then normalizePath target
  else normalizePath (beforeLastSlash current ++ '/' :: target)

/-- `resolve_normalized`; the first argument is the number of links that may be followed. -/
def resolveNormalized (nodes : Nodes) : Nat → Path → Except FsError Path
  | 0, _ => .error (.io "too many levels of symbolic links")
  | n + 1, current =>
    match nodes.lookup current with
    | some (.symlink target) => resolveNormalized nodes n (linkTarget current target)
    | _ => .ok current

/-- The components of a path. -/
def pathParts (path : Path) : List Path := (path.splitOn '/').filter (· ≠ [])

/-- The paths that end at the components, one after the other. -/
def pathsFrom (current : Path) : List Path → List Path
  | [] => []
  | part :: parts =>
    let next := current ++ '/' :: part
    next :: pathsFrom next parts

/-- The directories that an entry at a path stands in, from the root down, without the
    root. -/
def parentPaths (path : Path) : List Path := pathsFrom [] (pathParts path).dropLast

/-- The text of an inode limit. -/
def inodeLimit : FsError := .io "filesystem inode limit exceeded"

/-- The loop of `ensure_parents`. -/
def ensureParents : List Path → Nodes → Except FsError Unit × Nodes
  | [], nodes => (.ok (), nodes)
  | p :: ps, nodes =>
    if p ∈ nodes then ensureParents ps nodes
    else if maxInodes ≤ nodes.count then (.error inodeLimit, nodes)
    else ensureParents ps (nodes.insert p .dir)

/-- The loop of `symlink` over the directories above the link. -/
def ensureParentDirs : List Path → Nodes → Except FsError Unit × Nodes
  | [], nodes => (.ok (), nodes)
  | p :: ps, nodes =>
    match nodes.lookup p with
    | some .dir => ensureParentDirs ps nodes
    | some _ => (.error (.notADirectory p), nodes)
    | none =>
      if maxInodes ≤ nodes.count then (.error inodeLimit, nodes)
      else ensureParentDirs ps (nodes.insert p .dir)

/-- A node at a path where there is none: `ensure_parents`, `check_inode_room` and the
    insertion. -/
def createNode (path : Path) (node : FsNode) (nodes : Nodes) : Except FsError Unit × Nodes :=
  match ensureParents (parentPaths path) nodes with
  | (.error e, nodes) => (.error e, nodes)
  | (.ok (), nodes) =>
    if maxInodes ≤ nodes.count then (.error inodeLimit, nodes)
    else (.ok (), nodes.insert path node)

namespace MemoryFs

variable {R : Type}

/-- `MemoryFs::new`. -/
def new : MemoryFs R := ⟨AList.insert ['/'] .dir ∅, ∅, ∅, ∅, 1, 0⟩

/-- `mode_of`. -/
def modeOf (fs : MemoryFs R) (path : Path) (isDir : Bool) : UInt32 :=
  (fs.modes.lookup path).getD (if isDir then defaultDirMode else defaultFileMode)

/-- The normalized path with its links followed. -/
def resolve (fs : MemoryFs R) (path : Path) : Except FsError Path :=
  resolveNormalized fs.nodes maxSymlinkDepth (normalizePath path)

/-- `alloc_handle` and the insertion of the open file. -/
def addHandle (fs : MemoryFs R) (source : OpenFileSource R) (opts : OpenOptions) :
    Outcome R Nat :=
  (.ok fs.nextHandle, { fs with
    handles := fs.handles.insert fs.nextHandle ⟨source, opts⟩
    nextHandle := fs.nextHandle + 1 })

/-! ## 3. Operations on files -/

/-- The contents of a file taken away, with its share of the sum. -/
def emptyFile (fs : MemoryFs R) (path : Path) (contents : Bytes) : MemoryFs R :=
  { fs with
    nodes := fs.nodes.insert path (.file [])
    totalBytes := fs.totalBytes - contents.length }

/-- `open` on a path that is resolved. -/
def openResolved (norm : Path) (opts : OpenOptions) (fs : MemoryFs R) : Outcome R Nat :=
  match fs.nodes.lookup norm with
  | some .dir => (.error (.isADirectory norm), fs)
  | some (.symlink _) => (.error (.io "too many levels of symbolic links"), fs)
  | some (.file contents) =>
    let mode := fs.modeOf norm false
    if opts.read && mode &&& 0o400 == 0 then (.error (.permissionDenied norm), fs)
    else if opts.changes && mode &&& 0o200 == 0 then (.error (.permissionDenied norm), fs)
    else if opts.write && opts.truncate && !opts.append then
      (fs.emptyFile norm contents).addHandle (.path norm) opts
    else fs.addHandle (.path norm) opts
  | none =>
    if opts.create then
      match createNode norm (.file []) fs.nodes with
      | (.error e, nodes) => (.error e, { fs with nodes := nodes })
      | (.ok (), nodes) => { fs with nodes := nodes }.addHandle (.path norm) opts
    else (.error (.notFound norm), fs)

/-- A read-only `open` that finds a reader takes it and the node with it. -/
def openFile (path : Path) (opts : OpenOptions) (fs : MemoryFs R) : Outcome R Nat :=
  match fs.resolve path with
  | .error e => (.error e, fs)
  | .ok norm =>
    match (if opts.readOnly then fs.virtualReaders.lookup norm else none) with
    | some reader =>
      { fs with
        nodes := fs.nodes.erase norm
        virtualReaders := fs.virtualReaders.erase norm }.addHandle (.virtual reader) opts
    | none => openResolved norm opts fs

/-- `MemoryWriteSink`. -/
structure WriteSink where
  path : Path
  append : Bool
  deriving DecidableEq, Repr

/-- `write_chunk`, with the sink after it. -/
def writeChunk (sink : WriteSink) (data : Bytes) (fs : MemoryFs R) : Outcome R WriteSink :=
  match fs.nodes.lookup sink.path with
  | some (.file contents) =>
    let new := if sink.append then contents ++ data else data
    if maxFileSize < new.length then (.error (.io "file size limit exceeded"), fs)
    else
      let projected := fs.totalBytes - contents.length + new.length
      if maxTotalBytes < projected then (.error (.io "filesystem quota exceeded"), fs)
      else (.ok { sink with append := true }, { fs with
        nodes := fs.nodes.insert sink.path (.file new)
        totalBytes := projected })
  | _ => (.error (.notFound sink.path), fs)

/-- `write_file`. -/
def writeFile (handle : Nat) (data : Bytes) (fs : MemoryFs R) : Outcome R Unit :=
  match fs.handles.lookup handle with
  | none => (.error (.io "invalid handle"), fs)
  | some f =>
    if !f.opts.write then (.error (.permissionDenied "not opened for writing".toList), fs)
    else match f.source with
      | .virtual _ => (.error (.permissionDenied "virtual reader is read-only".toList), fs)
      | .path path =>
        let written := writeChunk ⟨path, f.opts.append⟩ data fs
        (written.1.map fun _ => (), written.2)

/-- `open_write_sink`. -/
def openWriteSink (path : Path) (append : Bool) (fs : MemoryFs R) : Outcome R WriteSink :=
  match fs.resolve path with
  | .error e => (.error e, fs)
  | .ok norm =>
    let fs := { fs with virtualReaders := fs.virtualReaders.erase norm }
    match fs.nodes.lookup norm with
    | some .dir => (.error (.isADirectory norm), fs)
    | some (.symlink _) => (.error (.io "too many levels of symbolic links"), fs)
    | some (.file contents) =>
      (.ok ⟨norm, append⟩, if append then fs else fs.emptyFile norm contents)
    | none =>
      match createNode norm (.file []) fs.nodes with
      | (.error e, nodes) => (.error e, { fs with nodes := nodes })
      | (.ok (), nodes) =>
        let fs := { fs with nodes := nodes }
        (.ok ⟨norm, append⟩, if append then fs else fs.emptyFile norm [])

/-- `install_stream_reader`. -/
def installStreamReader (path : Path) (reader : R) (fs : MemoryFs R) : Outcome R Unit :=
  let norm := normalizePath path
  if fs.nodes.lookup norm = some .dir then (.error (.isADirectory norm), fs)
  else
    let preExists := decide (norm ∈ fs.nodes)
    match ensureParents (parentPaths norm) fs.nodes with
    | (.error e, nodes) => (.error e, { fs with nodes := nodes })
    | (.ok (), nodes) =>
      if !preExists && decide (maxInodes ≤ nodes.count) then
        (.error inodeLimit, { fs with nodes := nodes })
      else (.ok (), { fs with
        nodes := nodes.insert norm (.file [])
        virtualReaders := fs.virtualReaders.insert norm reader
        totalBytes := fs.totalBytes - Weighted.weightAt FsNode.size nodes norm })

/-- `close`. -/
def close (handle : Nat) (fs : MemoryFs R) : MemoryFs R :=
  { fs with handles := fs.handles.erase handle }

/-! ## 4. Operations on entries -/

/-- `symlink`. -/
def symlink (target link : Path) (fs : MemoryFs R) : Outcome R Unit :=
  let norm := normalizePath link
  if norm ∈ fs.nodes then (.error (.alreadyExists norm), fs)
  else
    match ensureParentDirs (parentPaths norm) fs.nodes with
    | (.error e, nodes) => (.error e, { fs with nodes := nodes })
    | (.ok (), nodes) =>
      if maxInodes ≤ nodes.count then (.error inodeLimit, { fs with nodes := nodes })
      else (.ok (), { fs with nodes := nodes.insert norm (.symlink target) })

/-- `create_dir`. -/
def createDir (path : Path) (fs : MemoryFs R) : Outcome R Unit :=
  let norm := normalizePath path
  if norm ∈ fs.nodes then (.error (.alreadyExists norm), fs)
  else
    let created := createNode norm .dir fs.nodes
    (created.1, { fs with nodes := created.2 })

/-- A node and its permission bits taken away. -/
def eraseNode (fs : MemoryFs R) (path : Path) : MemoryFs R :=
  { fs with nodes := fs.nodes.erase path, modes := fs.modes.erase path }

/-- `remove_file`. -/
def removeFile (path : Path) (fs : MemoryFs R) : Outcome R Unit :=
  let norm := normalizePath path
  match fs.nodes.lookup norm with
  | some (.symlink _) => (.ok (), fs.eraseNode norm)
  | _ =>
    match fs.resolve path with
    | .error e => (.error e, fs)
    | .ok resolved =>
      match fs.nodes.lookup resolved with
      | some .dir => (.error (.isADirectory resolved), fs)
      | some (.file contents) => (.ok (), { fs.eraseNode resolved with
          virtualReaders := fs.virtualReaders.erase resolved
          totalBytes := fs.totalBytes - contents.length })
      | _ => (.error (.notFound norm), fs)

/-- What the paths of the entries of a directory start with. -/
def dirPrefix (norm : Path) : Path := if norm = ['/'] then ['/'] else norm ++ ['/']

/-- `remove_dir`. -/
def removeDir (path : Path) (fs : MemoryFs R) : Outcome R Unit :=
  let norm := normalizePath path
  match fs.nodes.lookup norm with
  | some (.file _) => (.error (.notADirectory norm), fs)
  | some (.symlink _) => (.error (.notADirectory norm), fs)
  | none => (.error (.notFound norm), fs)
  | some .dir =>
    if fs.nodes.keys.any ((dirPrefix norm).isPrefixOf ·) then
      (.error (.io ("directory not empty: " ++ String.ofList norm)), fs)
    else (.ok (), fs.eraseNode norm)

/-- `set_mode`. -/
def setMode (path : Path) (mode : UInt32) (fs : MemoryFs R) : Outcome R Unit :=
  let norm := normalizePath path
  if norm ∈ fs.nodes then
    (.ok (), { fs with modes := fs.modes.insert norm (mode &&& modePermMask) })
  else (.error (.notFound norm), fs)

/-! ## 5. Looking at entries -/

/-- `Metadata`. -/
structure Metadata where
  isDir : Bool
  isSymlink : Bool
  size : Nat
  mode : UInt32
  deriving DecidableEq, Repr

/-- `stat`. -/
def stat (path : Path) (fs : MemoryFs R) : Except FsError Metadata :=
  match fs.resolve path with
  | .error e => .error e
  | .ok resolved =>
    match fs.nodes.lookup resolved with
    | some (.file data) => .ok ⟨false, false, data.length, fs.modeOf resolved false⟩
    | some .dir => .ok ⟨true, false, 0, fs.modeOf resolved true⟩
    | _ => .error (.notFound resolved)

/-- `lstat`; the size of a link is that of its target's bytes. -/
def lstat (path : Path) (fs : MemoryFs R) : Except FsError Metadata :=
  let norm := normalizePath path
  match fs.nodes.lookup norm with
  | some (.file data) => .ok ⟨false, false, data.length, fs.modeOf norm false⟩
  | some .dir => .ok ⟨true, false, 0, fs.modeOf norm true⟩
  | some (.symlink target) => .ok ⟨false, true, (Utf8.encode target).length, 0o777⟩
  | none => .error (.notFound norm)

/-- `DirEntry`. -/
structure DirEntry where
  name : Path
  isDir : Bool
  isSymlink : Bool
  deriving DecidableEq, Repr

/-- The entry that a node makes in the directory whose entries start with `before`. -/
def dirEntry (fs : MemoryFs R) (before : Path) (key : Path) (node : FsNode) :
    Option DirEntry :=
  if before.isPrefixOf key then
    let name := key.drop before.length
    if !name.contains '/' && !name.isEmpty then
      some (match node with
        | .dir => ⟨name, true, false⟩
        | .symlink _ =>
          ⟨name, (match resolveNormalized fs.nodes maxSymlinkDepth key with
            | .ok followed => decide (fs.nodes.lookup followed = some .dir)
            | .error _ => false), true⟩
        | .file _ => ⟨name, false, false⟩)
    else none
  else none

/-- `read_dir`. -/
def readDir (path : Path) (fs : MemoryFs R) : Except FsError (List DirEntry) :=
  match fs.resolve path with
  | .error e => .error e
  | .ok norm =>
    match fs.nodes.lookup norm with
    | some .dir =>
      .ok ((fs.nodes.entries.filterMap fun e => dirEntry fs (dirPrefix norm) e.1 e.2).insertionSort
        (·.name ≤ ·.name))
    | some (.file _) => .error (.notADirectory norm)
    | _ => .error (.notFound norm)

end MemoryFs

/-! ## 6. Sequences of operations -/

/-- A call of an operation that writes; a sink is named by its place among the sinks opened
    so far. -/
inductive Op (R : Type) where
  | openFile (path : Path) (opts : OpenOptions)
  | writeFile (handle : Nat) (data : Bytes)
  | openWriteSink (path : Path) (append : Bool)
  | sinkWrite (sink : Nat) (data : Bytes)
  | installStreamReader (path : Path) (reader : R)
  | close (handle : Nat)
  | symlink (target link : Path)
  | createDir (path : Path)
  | removeFile (path : Path)
  | removeDir (path : Path)
  | setMode (path : Path) (mode : UInt32)

/-- A filesystem and the sinks that were opened on it. -/
structure Session (R : Type) where
  fs : MemoryFs R
  sinks : List MemoryFs.WriteSink

namespace Session

variable {R : Type}

def new : Session R := ⟨.new, []⟩

/-- The end of an operation that does not touch the sinks. -/
def finish {α : Type} (s : Session R) (r : Outcome R α) : Except FsError Unit × Session R :=
  (r.1.map fun _ => (), { s with fs := r.2 })

/-- One operation; a sink that was not opened is not written to. -/
def step (s : Session R) : Op R → Except FsError Unit × Session R
  | .openFile path opts => s.finish (s.fs.openFile path opts)
  | .writeFile handle data => s.finish (s.fs.writeFile handle data)
  | .openWriteSink path append =>
    match s.fs.openWriteSink path append with
    | (.error e, fs) => (.error e, { s with fs := fs })
    | (.ok sink, fs) => (.ok (), ⟨fs, s.sinks ++ [sink]⟩)
  | .sinkWrite i data =>
    match s.sinks[i]? with
    | none => (.ok (), s)
    | some sink =>
      match MemoryFs.writeChunk sink data s.fs with
      | (.error e, fs) => (.error e, { s with fs := fs })
      | (.ok sink, fs) => (.ok (), ⟨fs, s.sinks.set i sink⟩)
  | .installStreamReader path reader => s.finish (s.fs.installStreamReader path reader)
  | .close handle => (.ok (), { s with fs := s.fs.close handle })
  | .symlink target link => s.finish (s.fs.symlink target link)
  | .createDir path => s.finish (s.fs.createDir path)
  | .removeFile path => s.finish (s.fs.removeFile path)
  | .removeDir path => s.finish (s.fs.removeDir path)
  | .setMode path mode => s.finish (s.fs.setMode path mode)

/-- The states of a run. -/
def states (s : Session R) (ops : List (Op R)) : List (Session R) :=
  Runs.states (fun s op => (s.step op).2) s ops

/-- The calls of a run, each with the state before it. -/
def calls (s : Session R) (ops : List (Op R)) : List (Session R × Op R) :=
  Runs.calls (fun s op => (s.step op).2) s ops

/-- A state that a sequence of operations leads to. -/
inductive Reachable : Session R → Prop
  | new : Reachable Session.new
  | step {s : Session R} (op : Op R) : Reachable s → Reachable (s.step op).2

end Session

end Wasmsh.Fs

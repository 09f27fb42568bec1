import Wasmsh.FsParents

/-!
# Permission bits

The bits stand in a table beside the nodes.  All that removes a node removes its bits, except
the `open` that takes a reader; all that opens a file for writing looks at them, except the
two entry points that are not `open`.
-/

namespace Wasmsh.Fs

open Globs

variable {R : Type} {strict : Prop} {fs fs' : MemoryFs R}

/-! ## 1. Bits without a node -/

/-- Every path with permission bits has a node. -/
def NoStaleModes (fs : MemoryFs R) : Prop := ∀ path ∈ fs.modes, path ∈ fs.nodes

/-- What a call makes where there was nothing has the default mode of its type. -/
def FreshDefaults (s : Session R) (op : Op R) : Prop :=
  ∀ path, path ∉ s.fs.nodes → path ∈ (s.step op).2.fs.nodes → ∀ isDir,
    (s.step op).2.fs.modeOf path isDir = if isDir then defaultDirMode else defaultFileMode

theorem modeOf_of_not_mem {fs : MemoryFs R} {path : Path} (h : path ∉ fs.modes) (isDir : Bool) :
    fs.modeOf path isDir = if isDir then defaultDirMode else defaultFileMode := by
  rw [MemoryFs.modeOf, AList.lookup_eq_none.mpr h]
  rfl

/-- A change gives no bits to a path. -/
theorem Change.modes_subset (h : Change strict fs fs') {path : Path}
    (hpath : path ∉ fs.modes) : path ∉ fs'.modes := by
  cases h with
  | removeFile hfile | removeLink hlink | removeDir hdir hempty =>
    exact fun hmem => hpath (AList.mem_erase.mp hmem).2
  | handles handles next => exact hpath
  | create hnormal habsent hroom hsize hdirs => exact hpath
  | write hfile hsize htotal => exact hpath
  | empty hfile => exact hpath
  | install reader hnode hdir => exact hpath
  | dropReader path => exact hpath

/-- A node that a change removes goes with its bits. -/
theorem Change.noStaleModes (h : Change strict fs fs')
    (hfs : NoStaleModes fs) : NoStaleModes fs' := by
  have hinsert : ∀ path node, NoStaleModes { fs with nodes := fs.nodes.insert path node } :=
    fun path node k hk => (AList.mem_insert fs.nodes).mpr (Or.inr (hfs k hk))
  have herase : ∀ path, NoStaleModes (fs.eraseNode path) := by
    intro path k hk
    rcases AList.mem_erase.mp hk with ⟨hne, hk⟩
    exact AList.mem_erase.mpr ⟨hne, hfs k hk⟩
  cases h with
  | handles handles next => exact hfs
  | create hnormal habsent hroom hsize hdirs => exact hinsert _ _
  | write hfile hsize htotal => exact hinsert _ _
  | empty hfile => exact hinsert _ _
  | install reader hnode hdir => exact hinsert _ _
  | dropReader path => exact hfs
  | removeFile hfile => exact herase _
  | removeLink hlink => exact herase _
  | removeDir hdir hempty => exact herase _

/-- A call leaves no bits behind as long as it takes no reader from a path with bits. -/
theorem Effect.noStaleModes {op : Op R} (h : Effect strict fs op fs')
    (htakes : ∀ path, fs.taken op = some path → path ∉ fs.modes) (hfs : NoStaleModes fs) :
    NoStaleModes fs' := by
  cases h with
  | changes _ hchanges => exact hchanges.keep (fun _ _ hstep => hstep.noStaleModes) hfs
  | takes handles next htaken hmem =>
    intro k hk
    refine AList.mem_erase.mpr ⟨?_, hfs k hk⟩
    rintro rfl
    exact htakes k htaken hk
  | setsMode mode htaken hmem =>
    intro k hk
    rcases (AList.mem_insert fs.modes).mp hk with rfl | hk
    · exact hmem
    · exact hfs k hk

/-- A reader taken from a path with bits leaves them behind. -/
theorem Effect.not_noStaleModes {op : Op R} (h : Effect strict fs op fs')
    {path : Path} (htaken : fs.taken op = some path) (hmode : path ∈ fs.modes) :
    ¬ NoStaleModes fs' := by
  intro hstale
  cases h with
  | changes hnone _ =>
    rw [htaken] at hnone
    cases hnone
  | takes handles next hsome hmem =>
    rw [htaken] at hsome
    cases hsome
    exact (AList.mem_erase.mp (hstale path hmode)).1 rfl
  | setsMode mode hnone hmem =>
    rw [htaken] at hnone
    cases hnone

/-- No call gives bits to a path where there was nothing. -/
theorem Effect.not_mem_modes {op : Op R} (h : Effect strict fs op fs')
    {path : Path} (hpath : path ∉ fs.nodes) (hmodes : path ∉ fs.modes) : path ∉ fs'.modes := by
  cases h with
  | changes _ hchanges =>
    exact hchanges.keep (P := fun fs => path ∉ fs.modes) (fun _ _ hstep => hstep.modes_subset) hmodes
  | takes handles next htaken hmem => exact hmodes
  | setsMode mode htaken hmem =>
    intro hmem'
    rcases (AList.mem_insert fs.modes).mp hmem' with rfl | hmem'
    · exact hpath hmem
    · exact hmodes hmem'

theorem noStaleModes_new : NoStaleModes (Session.new : Session R).fs :=
  fun path hpath => absurd hpath (AList.notMem_empty path)

/-- **No permission bits are left behind** in any state of a run, and what is made where there
    was nothing has the default mode, if and only if no read-only `open` of the run takes a
    reader from a path with permission bits. -/
theorem no_stale_modes_iff (ops : List (Op R)) :
    ((∀ s ∈ Session.new.states ops, NoStaleModes s.fs) ∧
        ∀ call ∈ Session.new.calls ops, FreshDefaults call.1 call.2) ↔
      ∀ call ∈ Session.new.calls ops, ∀ path, call.1.fs.taken call.2 = some path →
        path ∉ call.1.fs.modes := by
  constructor
  · rintro ⟨hstates, -⟩ call hcall path htaken hmode
    have heffect := @Session.effect R False call.1 call.2 False.elim
    exact heffect.not_noStaleModes htaken hmode (hstates _ (Runs.mem_states_of_mem_calls hcall).2)
  · intro htakes
    have hstates : ∀ s ∈ Session.new.states ops, NoStaleModes s.fs :=
      Runs.states_induct (P := fun s : Session R => NoStaleModes s.fs) noStaleModes_new
        fun call hcall hbefore =>
          (@Session.effect R False call.1 call.2 False.elim).noStaleModes (htakes call hcall) hbefore
    refine ⟨hstates, ?_⟩
    intro call hcall path hpath _ isDir
    have hbefore := hstates _ (Runs.mem_states_of_mem_calls hcall).1
    apply modeOf_of_not_mem
    exact (@Session.effect R False call.1 call.2 False.elim).not_mem_modes hpath
      fun hmode => hpath (hbefore path hmode)

/-- A reader on `/p`, the mode of `/p` set, and the reader taken: the bits stay. -/
theorem taken_reader_leaves_mode :
    ¬ ∀ ops : List (Op Unit), ∀ s ∈ Session.new.states ops, NoStaleModes s.fs := by
  intro hall
  have hlast := hall [.installStreamReader "/p".toList (), .setMode "/p".toList 0o600,
    .openFile "/p".toList .forReading] _ (.tail _ (.tail _ (.tail _ (.head _))))
  have hpath := hlast "/p".toList (by decide +kernel)
  revert hpath
  decide +kernel

/-! ## 2. Files that are not writable -/

/-- The calls that give a writer to the file at a path, or replace its contents. -/
def Op.WritesTo (path : Path) : Op R → Prop
  | .openFile path' opts => path' = path ∧ opts.changes = true
  | .openWriteSink path' _ => path' = path
  | .installStreamReader path' _ => path' = path
  | _ => False

/-- The call fails and leaves the file as it was. -/
def Refused (s : Session R) (op : Op R) (norm : Path) (contents : Bytes) : Prop :=
  (∃ e, (s.step op).1 = .error e) ∧ (s.step op).2.fs.nodes.lookup norm = some (.file contents)

/-- The calls that a file without the permission to write refuses: `open`, and a reader whose
    directories do not fit. -/
def LooksAtMode (fs : MemoryFs R) : Op R → Prop
  | .openFile _ _ => True
  | .installStreamReader path _ =>
    maxInodes < fs.nodes.count + missing (parentPaths (normalizePath path)) fs.nodes
  | _ => False

/-- What resolves to a file is a file or a link. -/
theorem lookup_of_resolve {nodes : Nodes} {n : Nat} {path norm : Path} {contents : Bytes}
    (h : resolveNormalized nodes n path = .ok norm)
    (hfile : nodes.lookup norm = some (.file contents)) :
    path ∈ nodes ∧ nodes.lookup path ≠ some .dir := by
  cases n with
  | zero => cases h
  | succ n =>
    unfold resolveNormalized at h
    split at h
    · next target hlink =>
      rw [hlink]
      exact ⟨mem_of_lookup hlink, by simp⟩
    · cases h
      rw [hfile]
      exact ⟨mem_of_lookup hfile, by simp⟩

section NotWritable

variable {s : Session R} {path norm : Path} {contents : Bytes}

theorem refused_openFile (hnorm : s.fs.resolve path = .ok norm)
    (hfile : s.fs.nodes.lookup norm = some (.file contents))
    (hmode : s.fs.modeOf norm false &&& 0o200 = 0) {opts : OpenOptions}
    (hchanges : opts.changes = true) : Refused s (.openFile path opts) norm contents := by
  have honly : opts.readOnly = false := by
    simp only [OpenOptions.changes, Bool.or_eq_true] at hchanges
    rcases hchanges with (hwrite | happend) | htruncate
    · simp [OpenOptions.readOnly, hwrite]
    · simp [OpenOptions.readOnly, happend]
    · simp [OpenOptions.readOnly, htruncate]
  have hopen : s.fs.openFile path opts = (.error (.permissionDenied norm), s.fs) := by
    unfold MemoryFs.openFile
    rw [hnorm]
    dsimp only
    rw [honly, if_neg Bool.false_ne_true]
    unfold MemoryFs.openResolved
    rw [hfile]
    dsimp only
    split
    · rfl
    · rw [if_pos (by simp [hchanges, hmode])]
  have hstep : s.step (.openFile path opts) = s.finish (s.fs.openFile path opts) := rfl
  rw [Refused, hstep, hopen]
  exact ⟨⟨_, rfl⟩, hfile⟩

theorem not_refused_openWriteSink (hnorm : s.fs.resolve path = .ok norm)
    (hfile : s.fs.nodes.lookup norm = some (.file contents)) (append : Bool) :
    ¬ Refused s (.openWriteSink path append) norm contents := by
  have hopen : ∃ fs, s.fs.openWriteSink path append = (.ok ⟨norm, append⟩, fs) := by
    unfold MemoryFs.openWriteSink
    rw [hnorm]
    dsimp only
    rw [hfile]
    exact ⟨_, rfl⟩
  rcases hopen with ⟨fs, hopen⟩
  rintro ⟨⟨e, herror⟩, -⟩
  unfold Session.step at herror
  dsimp only at herror
  rw [hopen] at herror
  cases herror

theorem refused_installStreamReader_iff (h : s.Reachable) (hnorm : s.fs.resolve path = .ok norm)
    (hfile : s.fs.nodes.lookup norm = some (.file contents)) (reader : R) :
    Refused s (.installStreamReader path reader) norm contents ↔
      maxInodes < s.fs.nodes.count + missing (parentPaths (normalizePath path)) s.fs.nodes := by
  rcases lookup_of_resolve hnorm hfile with ⟨hthere, hdir⟩
  have hmade := @made_ensureParents False (parentPaths (normalizePath path)) s.fs.nodes False.elim
  have hstep : s.step (.installStreamReader path reader) =
      s.finish (s.fs.installStreamReader path reader) := rfl
  rw [Refused, hstep, MemoryFs.installStreamReader]
  dsimp only
  rw [if_neg hdir]
  rcases ensureParents_cases (nodup_parentPaths (normalizePath path)) h.within.inodes with
    ⟨after, -, ⟨hloop, -, hroom⟩ | ⟨hloop, hshort⟩⟩
  · rw [hloop]
    dsimp only
    rw [if_neg (by simp [hthere])]
    constructor
    · rintro ⟨⟨e, herror⟩, -⟩
      cases herror
    · intro hshort
      exact absurd hroom (Nat.not_le.mpr hshort)
  · rw [hloop] at hmade ⊢
    refine iff_of_true ⟨⟨_, rfl⟩, ?_⟩ hshort
    exact (hmade.lookup_of_mem (mem_of_lookup hfile)).trans hfile

/-- **Only `open` looks at the permission to write**: a call on a path that resolves to a file
    without it fails and leaves the file as it was, if and only if it is an `open`, or a reader
    for whose directories there is no room. -/
theorem write_refused_iff (h : s.Reachable) (hnorm : s.fs.resolve path = .ok norm)
    (hfile : s.fs.nodes.lookup norm = some (.file contents))
    (hmode : s.fs.modeOf norm false &&& 0o200 = 0) {op : Op R} (hop : op.WritesTo path) :
    Refused s op norm contents ↔ LooksAtMode s.fs op := by
  cases op with
  | openFile path' opts =>
    rcases hop with ⟨rfl, hchanges⟩
    exact iff_of_true (refused_openFile hnorm hfile hmode hchanges) trivial
  | openWriteSink path' append =>
    cases hop
    exact iff_of_false (not_refused_openWriteSink hnorm hfile append) id
  | installStreamReader path' reader =>
    cases hop
    exact refused_installStreamReader_iff h hnorm hfile reader
  | writeFile handle data => cases hop
  | sinkWrite i data => cases hop
  | close handle => cases hop
  | symlink target link => cases hop
  | createDir path => cases hop
  | removeFile path => cases hop
  | removeDir path => cases hop
  | setMode path mode => cases hop

end NotWritable

/-- A file that may only be read. -/
def readOnlyFile : Session Unit :=
  ((Session.new.step (.openFile "/f".toList .forWriting)).2.step (.setMode "/f".toList 0o444)).2

theorem readOnlyFile_reachable : readOnlyFile.Reachable := .step _ (.step _ .new)

/-- `open` refuses to append to it. -/
theorem append_refused :
    Refused readOnlyFile (.openFile "/f".toList .forAppending) "/f".toList [] :=
  (@write_refused_iff Unit readOnlyFile "/f".toList "/f".toList [] readOnlyFile_reachable
    (by decide +kernel) (by decide +kernel) (by decide +kernel)
    (.openFile "/f".toList .forAppending) ⟨rfl, by decide⟩).mpr trivial

/-- A write sink opens it and empties it. -/
theorem sink_not_refused :
    ¬ ∀ (s : Session Unit) (path norm : Path) (contents : Bytes) (op : Op Unit), s.Reachable →
      s.fs.resolve path = .ok norm → s.fs.nodes.lookup norm = some (.file contents) →
      s.fs.modeOf norm false &&& 0o200 = 0 → op.WritesTo path → Refused s op norm contents := by
  intro hall
  rcases hall readOnlyFile "/f".toList "/f".toList [] (.openWriteSink "/f".toList false)
    readOnlyFile_reachable (by decide +kernel) (by decide +kernel) (by decide +kernel) rfl
    with ⟨⟨e, herror⟩, -⟩
  have hok : (readOnlyFile.step (.openWriteSink "/f".toList false)).1 = .ok () := by
    decide +kernel
  rw [hok] at herror
  cases herror

end Wasmsh.Fs

import Wasmsh.GlobMatchers
import Wasmsh.TarFormat
import Wasmsh.Unzip

/-!
# `tar`

`tar -c` walks directories and writes an entry for each file and directory; `tar -x` makes them
again below another directory, and `tar -t` lists their names.  `tar_round_trip_iff` says when the
same tree comes back and when the listing names what is extracted.  The archive is given as its
bytes: reading its file and compressing it are left out, and so is the parsing of the options.
-/

namespace Wasmsh.Fs

open Globs FixedFields

variable {R : Type} {data : Bytes}

/-! ## 1. Creating -/

/-- What `tar -c` has written so far. -/
structure TarWriting (R : Type) where
  fs : MemoryFs R
  data : Bytes
  stderr : List Path

namespace TarWriting

def report (w : TarWriting R) (text : Path) : TarWriting R :=
  { w with stderr := w.stderr ++ [text] }

def reportIf (w : TarWriting R) (verbose : Bool) (text : Path) : TarWriting R :=
  if verbose then w.report text else w

def write (w : TarWriting R) (data : Bytes) : TarWriting R := { w with data := w.data ++ data }

end TarWriting

/-- `tar_name_excluded`. -/
def tarNameExcluded (name : Path) (excludes : List Path) : Bool :=
  let trimmed := name.dropPrefix? "./".toList |>.getD name
  let basename := operandName trimmed
  excludes.any fun pattern =>
    let pattern := pattern.dropPrefix? "./".toList |>.getD pattern
    simpleGlobMatch (Utf8.encode pattern)
      (Utf8.encode (if pattern.contains '/' then trimmed else basename))

/-- The contents of a file and the zeros up to whole blocks. -/
def tarContents (data : Bytes) : Bytes :=
  data ++ List.replicate
    (if data.length % tarBlockSize = 0 then 0 else tarBlockSize - data.length % tarBlockSize) 0

section

variable (drain : R → Except String Bytes) (verbose : Bool) (excludes : List Path)

/-- `tar_add_file`. -/
def tarAddFile (full name : Path) (w : TarWriting R) : Int × TarWriting R :=
  match openReader full w.fs with
  | (.error e, fs) =>
    (1, { w with fs := fs }.report
      ("tar: ".toList ++ name ++ ": ".toList ++ e.text ++ ['\n']))
  | (.ok source, fs) =>
    match readAll drain source with
    | .error e =>
      (1, { w with fs := fs }.report
        ("tar: ".toList ++ name ++ ": ".toList ++ e.text ++ ['\n']))
    | .ok data =>
      (0, ({ w with fs := fs }.reportIf verbose (name ++ ['\n'])).write
        (makeTarHeader name data.length fileFlag ++ tarContents data))

/-- The loops over the operands and over the entries of a directory: they end at the first
    entry that cannot be added. -/
def tarAddAll {α : Type} (add : α → TarWriting R → Int × TarWriting R) :
    List α → TarWriting R → Int × TarWriting R
  | [], w => (0, w)
  | a :: as, w =>
    let added := add a w
    if added.1 = 0 then tarAddAll add as added.2 else (1, added.2)

/-- `tar_add_dir`, at most as deep as the first argument says: the path of an entry is longer
    than that of its directory, and only paths that are there are walked. -/
def tarAddDir : Nat → Path → Path → TarWriting R → Int × TarWriting R
  | 0, _, _, w => (1, w)
  | n + 1, full, name, w =>
    let dirName := if name.getLast? = some '/' then name else name ++ ['/']
    let w := (w.reportIf verbose (dirName ++ ['\n'])).write (makeTarHeader dirName 0 dirFlag)
    match w.fs.readDir full with
    | .error _ =>
      (1, w.report ("tar: cannot read directory '".toList ++ name ++ "': I/O error\n".toList))
    | .ok entries =>
      tarAddAll (fun entry w =>
        let childFull := childPath full entry.name
        let childName := dirName ++ entry.name
        if tarNameExcluded childName excludes then (0, w)
        else if entry.isDir then tarAddDir n childFull childName w
        else tarAddFile drain verbose childFull childName w) entries w

/-- One turn of the loop of `tar_create`. -/
def tarAddOperand (depth : Nat) (baseDir file : Path) (w : TarWriting R) : Int × TarWriting R :=
  if tarNameExcluded file excludes then (0, w)
  else
    let full := resolveCwdPath baseDir file
    match w.fs.stat full with
    | .ok m =>
      if m.isDir then tarAddDir drain verbose excludes depth full file w
      else tarAddFile drain verbose full file w
    | .error e =>
      (1, w.report ("tar: ".toList ++ file ++ ": ".toList ++ e.text ++ ['\n']))

/-- `tar_create`: the status, and what was written of the archive. -/
def tarCreate (depth : Nat) (files : List Path) (baseDir : Path) (fs : MemoryFs R) :
    Int × TarWriting R :=
  let added := tarAddAll (tarAddOperand drain verbose excludes depth baseDir) files ⟨fs, [], []⟩
  if added.1 = 0 then (0, added.2.write (List.replicate (tarBlockSize * 2) 0)) else (1, added.2)

end

/-! ## 2. Extracting -/

/-- Why `tar -x` ends with an error. -/
inductive TarStop where
  | invalidSize
  | notWritten
  deriving DecidableEq, Repr

/-- What `tar -x` has done so far: the entries that it has extracted, each with the place of its
    header. -/
structure TarExtraction (R : Type) where
  fs : MemoryFs R
  entries : List (Nat × Path)
  stderr : List Path
  stop : Option TarStop

namespace TarExtraction

def report (x : TarExtraction R) (text : Path) : TarExtraction R :=
  { x with stderr := x.stderr ++ [text] }

def status (x : TarExtraction R) : Int := if x.stop = none then 0 else 1

/-- A directory is made; there is a message when it is not there afterwards. -/
def makeDir (x : TarExtraction R) (dir text : Path) : TarExtraction R :=
  let created := x.fs.createDir dir
  let x := { x with fs := created.2 }
  if !created.1.isOk && !isThere x.fs dir then x.report text else x

end TarExtraction

/-- `extract_dir_entry`. -/
def extractDirEntry (full name : Path) (x : TarExtraction R) : TarExtraction R :=
  x.makeDir full ("tar: cannot create directory '".toList ++ name ++ "'\n".toList)

/-- `ensure_parent_dir`. -/
def ensureParentDir (full name : Path) (x : TarExtraction R) : TarExtraction R :=
  let parent := beforeLastSlash full
  if parent ≠ [] && !isThere x.fs parent then
    x.makeDir parent ("tar: cannot create directory for '".toList ++ name ++ "'\n".toList)
  else x

/-- `extract_file_entry`. -/
def extractFileEntry (data : Bytes) (full name : Path) (pos size : Nat) (x : TarExtraction R) :
    Option (TarExtraction R) :=
  let x := ensureParentDir full name x
  match dataSlice data pos (min (pos + size) data.length) with
  | none => none
  | some contents =>
    let stored := storeContents full contents x.fs
    let x := { x with fs := stored.2 }
    match stored.1 with
    | .error e =>
      some { x.report ("tar: ".toList ++ full ++ ": ".toList ++ e.text ++ ['\n']) with
        stop := some .notWritten }
    | .ok () => some x

/-- An entry that is extracted as a directory. -/
def TarEntry.isDir (entry : TarEntry) : Bool :=
  entry.typeflag == dirFlag || entry.name.getLast? == some '/'

section

variable (data : Bytes) (baseDir : Path) (verbose : Bool)

/-- `tar_extract_entry`: the place of the next header and what was done. -/
def tarExtractEntry (entry : TarEntry) (pos : Nat) (x : TarExtraction R) :
    Option (Nat × TarExtraction R) :=
  let x := if verbose then x.report (entry.name ++ ['\n']) else x
  let full := resolveCwdPath baseDir entry.name
  if entry.isDir then some (pos, extractDirEntry full entry.name x)
  else (extractFileEntry data full entry.name pos entry.size x).map fun x =>
    (pos + blocks tarBlockSize entry.size * tarBlockSize, x)

/-- The loop of `tar_extract`, bounded like that of `tar_list`. -/
def tarExtractFrom : Nat → Nat → TarExtraction R → Option (TarExtraction R)
  | 0, _, _ => none
  | n + 1, pos, x =>
    if pos + tarBlockSize ≤ data.length then
      match dataSlice data pos (pos + tarBlockSize) with
      | none => none
      | some header =>
        match parseTarEntryHeader header with
        | .error text => some { x.report text with stop := some .invalidSize }
        | .ok none => some x
        | .ok (some entry) =>
          match tarExtractEntry data baseDir verbose entry (pos + tarBlockSize) x with
          | none => none
          | some (next, x) =>
            if x.stop = none then
              tarExtractFrom n next { x with entries := x.entries ++ [(pos, entry.name)] }
            else some x
    else some x

/-- `tar_extract`. -/
def tarExtract (fs : MemoryFs R) : Option (TarExtraction R) :=
  tarExtractFrom data baseDir verbose (data.length + 1) 0 ⟨fs, [], [], none⟩

end

/-! ## 3. The listing and the extraction -/

/-- The archive ends at a place: no block is left there, or one of zeros. -/
def EndsAt (data : Bytes) (pos : Nat) : Prop :=
  data.length < pos + tarBlockSize ∨ isZeroBlock (field pos tarBlockSize data) = true

instance (data : Bytes) (pos : Nat) : Decidable (EndsAt data pos) :=
  inferInstanceAs (Decidable (_ ∨ _))

/-- The place after the blocks of an entry. -/
def afterEntry (pos size : Nat) : Nat :=
  pos + tarBlockSize + blocks tarBlockSize size * tarBlockSize

/-- The entry that a header stands for. -/
def entryAt (data : Bytes) (pos size : Nat) : TarEntry :=
  ⟨headerName (field pos tarBlockSize data), size,
    ((field pos tarBlockSize data).drop 156).headD 0⟩

/-- An archive has a header at a place. -/
inductive HeaderFrom (data : Bytes) : Nat → Nat → Prop
  | here (pos : Nat) : HeaderFrom data pos pos
  | next {pos size pos' : Nat} : ¬ EndsAt data pos →
    headerSize (field pos tarBlockSize data) = some size →
    HeaderFrom data (afterEntry pos size) pos' → HeaderFrom data pos pos'

/-- Where a directory has a size, the archive ends after its header, and it ends after the blocks
    that the size stands for. -/
def SizedDirsEnd (data : Bytes) (start : Nat) : Prop :=
  ∀ pos size, HeaderFrom data start pos → ¬ EndsAt data pos →
    headerSize (field pos tarBlockSize data) = some size → (entryAt data pos size).isDir = true →
    0 < size → EndsAt data (pos + tarBlockSize) ∧ EndsAt data (afterEntry pos size)

theorem sizedDirsEnd_of_endsAt {start : Nat} (h : EndsAt data start) :
    SizedDirsEnd data start := by
  intro pos size hfrom hnot
  cases hfrom with
  | here => exact absurd h hnot
  | next hnot' => exact absurd h hnot'

theorem sizedDirsEnd_iff {start size : Nat} (hnot : ¬ EndsAt data start)
    (hsize : headerSize (field start tarBlockSize data) = some size) :
    SizedDirsEnd data start ↔ ((entryAt data start size).isDir = true → 0 < size →
      EndsAt data (start + tarBlockSize) ∧ EndsAt data (afterEntry start size)) ∧
        SizedDirsEnd data (afterEntry start size) := by
  constructor
  · intro h
    refine ⟨fun hdir hpos => h start size (.here start) hnot hsize hdir hpos, ?_⟩
    intro pos size' hfrom
    exact h pos size' (.next hnot hsize hfrom)
  · rintro ⟨hfirst, hrest⟩ pos size' hfrom hnot' hsize'
    cases hfrom with
    | here =>
      cases hsize.symm.trans hsize'
      exact hfirst
    | next _ hsize'' hfrom =>
      cases hsize.symm.trans hsize''
      exact hrest pos size' hfrom hnot' hsize'

theorem dataSlice_eq {start stop : Nat} (h : start ≤ stop)
    (h' : stop ≤ data.length) : dataSlice data start stop = some (field start (stop - start) data) :=
  if_pos ⟨h, h'⟩

/-- A block that is in the data. -/
theorem dataSlice_block {pos : Nat} (h : pos + tarBlockSize ≤ data.length) :
    dataSlice data pos (pos + tarBlockSize) = some (field pos tarBlockSize data) := by
  rw [dataSlice_eq (by omega) h, Nat.add_sub_cancel_left]

section

variable {data : Bytes} {n pos : Nat} {done : List (Nat × Path)}

theorem tarListFrom_end (h : EndsAt data pos) :
    tarListFrom data (n + 1) pos done = some ⟨done, [], 0⟩ := by
  unfold tarListFrom
  split
  · next hin =>
    rw [dataSlice_block hin]
    have hzero := h.resolve_left (Nat.not_lt.mpr hin)
    dsimp only
    rw [if_pos hzero]
  · rfl

theorem tarListFrom_entry {size : Nat} (h : ¬ EndsAt data pos)
    (hsize : headerSize (field pos tarBlockSize data) = some size) :
    tarListFrom data (n + 1) pos done = tarListFrom data n (afterEntry pos size)
      (done ++ [(pos, (entryAt data pos size).name)]) := by
  obtain ⟨hin, hzero⟩ := not_or.mp h
  rw [tarListFrom, if_pos (Nat.le_of_not_lt hin), dataSlice_block (Nat.le_of_not_lt hin)]
  dsimp only
  rw [if_neg hzero, hsize]
  rfl

theorem tarListFrom_invalid (h : ¬ EndsAt data pos)
    (hsize : headerSize (field pos tarBlockSize data) = none) :
    tarListFrom data (n + 1) pos done =
      some ⟨done, [invalidSizeText (headerName (field pos tarBlockSize data))], 1⟩ := by
  obtain ⟨hin, hzero⟩ := not_or.mp h
  rw [tarListFrom, if_pos (Nat.le_of_not_lt hin), dataSlice_block (Nat.le_of_not_lt hin)]
  dsimp only
  rw [if_neg hzero, hsize]

theorem lt_afterEntry (pos size : Nat) : pos < afterEntry pos size := by
  have hblock : tarBlockSize = 512 := rfl
  unfold afterEntry
  omega

/-- The listing ends, inside the data, and what it adds to the names is not before the place. -/
theorem tarListFrom_ends (hn : data.length < pos + n) (h0 : 0 < n) : ∃ l more,
    tarListFrom data n pos done = some l ∧ l.entries = done ++ more ∧ (∀ e ∈ more, pos ≤ e.1) ∧
      (l.status = 0 → more = [] → EndsAt data pos) := by
  induction n generalizing pos done with
  | zero => exact absurd h0 (Nat.lt_irrefl 0)
  | succ n ih =>
    by_cases hend : EndsAt data pos
    · exact ⟨_, [], tarListFrom_end hend, by simp, by simp, fun _ _ => hend⟩
    · cases hsize : headerSize (field pos tarBlockSize data) with
      | none =>
        refine ⟨_, [], tarListFrom_invalid hend hsize, by simp, by simp, ?_⟩
        intro hstatus
        cases hstatus
      | some size =>
        have hlt := lt_afterEntry pos size
        have hin := Nat.le_of_not_lt (not_or.mp hend).1
        have hblock : tarBlockSize = 512 := rfl
        obtain ⟨l, more, hl, hentries, hplaces, -⟩ := @ih (afterEntry pos size)
          (done ++ [(pos, (entryAt data pos size).name)]) (by omega) (by omega)
        refine ⟨l, (pos, (entryAt data pos size).name) :: more, ?_, ?_, ?_, ?_⟩
        · rw [tarListFrom_entry hend hsize, hl]
        · rw [hentries, List.append_assoc, List.singleton_append]
        · refine List.forall_mem_cons.mpr ⟨Nat.le_refl _, fun e he => ?_⟩
          exact hlt.le.trans (hplaces e he)
        · intro _ hnil
          cases hnil

end

section

variable {data : Bytes} {baseDir : Path} {verbose : Bool} {n pos : Nat} {x x' : TarExtraction R}

theorem parse_end (h : ¬ data.length < pos + tarBlockSize) (hend : EndsAt data pos) :
    parseTarEntryHeader (field pos tarBlockSize data) = .ok none := by
  unfold parseTarEntryHeader
  rw [if_pos (hend.resolve_left h)]

theorem parse_entry {size : Nat} (h : ¬ EndsAt data pos)
    (hsize : headerSize (field pos tarBlockSize data) = some size) :
    parseTarEntryHeader (field pos tarBlockSize data) = .ok (some (entryAt data pos size)) := by
  unfold parseTarEntryHeader
  rw [if_neg (not_or.mp h).2, hsize]
  rfl

theorem tarExtractFrom_end (h : EndsAt data pos) :
    tarExtractFrom data baseDir verbose (n + 1) pos x = some x := by
  unfold tarExtractFrom
  split
  · next hin =>
    rw [dataSlice_block hin]
    dsimp only
    rw [parse_end (Nat.not_lt.mpr hin) h]
  · rfl

theorem tarExtractFrom_invalid (h : ¬ EndsAt data pos)
    (hsize : headerSize (field pos tarBlockSize data) = none) :
    ∃ x', tarExtractFrom data baseDir verbose (n + 1) pos x = some x' ∧
      x'.stop = some .invalidSize ∧ x'.entries = x.entries := by
  obtain ⟨hin, hzero⟩ := not_or.mp h
  have hparse : parseTarEntryHeader (field pos tarBlockSize data) =
      .error (invalidSizeText (headerName (field pos tarBlockSize data))) := by
    unfold parseTarEntryHeader
    rw [if_neg hzero, hsize]
  refine ⟨{ x.report (invalidSizeText (headerName (field pos tarBlockSize data))) with
    stop := some .invalidSize }, ?_, rfl, rfl⟩
  rw [tarExtractFrom, if_pos (Nat.le_of_not_lt hin), dataSlice_block (Nat.le_of_not_lt hin)]
  dsimp only
  rw [hparse]

@[simp] theorem TarExtraction.makeDir_entries (x : TarExtraction R) (dir text : Path) :
    (x.makeDir dir text).entries = x.entries := by
  unfold TarExtraction.makeDir
  dsimp only
  split <;> rfl

@[simp] theorem TarExtraction.makeDir_stop (x : TarExtraction R) (dir text : Path) :
    (x.makeDir dir text).stop = x.stop := by
  unfold TarExtraction.makeDir
  dsimp only
  split <;> rfl

theorem ensureParentDir_same (full name : Path) (x : TarExtraction R) :
    (ensureParentDir full name x).entries = x.entries ∧
      (ensureParentDir full name x).stop = x.stop := by
  unfold ensureParentDir
  dsimp only
  split
  · exact ⟨TarExtraction.makeDir_entries x _ _, TarExtraction.makeDir_stop x _ _⟩
  · exact ⟨rfl, rfl⟩

theorem extractFileEntry_spec (full name : Path) (size : Nat) (x : TarExtraction R)
    (hpos : pos ≤ data.length) : ∃ x', extractFileEntry data full name pos size x = some x' ∧
      x'.entries = x.entries ∧ (x'.stop = x.stop ∨ x'.stop = some .notWritten) := by
  obtain ⟨hentries, hstop⟩ := ensureParentDir_same full name x
  have hslice := @dataSlice_eq data pos (min (pos + size) data.length) (by omega)
    (Nat.min_le_right _ _)
  unfold extractFileEntry
  dsimp only
  rw [hslice]
  dsimp only
  generalize storeContents full _ (ensureParentDir full name x).fs = stored
  rcases stored with ⟨e | _, fs⟩
  · exact ⟨_, rfl, hentries, .inr rfl⟩
  · exact ⟨_, rfl, hentries, .inl hstop⟩

/-- Extracting an entry reads inside the data. -/
theorem tarExtractEntry_spec (entry : TarEntry) (x : TarExtraction R) (hpos : pos ≤ data.length) :
    ∃ x', tarExtractEntry data baseDir verbose entry pos x = some (if entry.isDir = true then pos
      else pos + blocks tarBlockSize entry.size * tarBlockSize, x') ∧ x'.entries = x.entries ∧
        (x'.stop = x.stop ∨ x'.stop = some .notWritten) := by
  have hreported : (if verbose = true then x.report (entry.name ++ ['\n']) else x).entries =
      x.entries ∧ (if verbose = true then x.report (entry.name ++ ['\n']) else x).stop =
        x.stop := by
    split <;> exact ⟨rfl, rfl⟩
  unfold tarExtractEntry
  dsimp only
  generalize (if verbose = true then x.report (entry.name ++ ['\n']) else x) = reported at hreported
  obtain ⟨hentries, hstop⟩ := hreported
  by_cases hdir : entry.isDir = true
  · rw [if_pos hdir, if_pos hdir]
    exact ⟨_, rfl, (TarExtraction.makeDir_entries _ _ _).trans hentries,
      .inl ((TarExtraction.makeDir_stop _ _ _).trans hstop)⟩
  · rw [if_neg hdir, if_neg hdir]
    obtain ⟨x', hx', hentries', hstop'⟩ := extractFileEntry_spec
      (resolveCwdPath baseDir entry.name) entry.name entry.size reported hpos
    rw [hx']
    refine ⟨x', rfl, hentries'.trans hentries, ?_⟩
    rw [← hstop]
    exact hstop'

/-- The place of the header after an entry, as extracting goes on. -/
def nextExtracted (data : Bytes) (pos size : Nat) : Nat :=
  if (entryAt data pos size).isDir = true then pos + tarBlockSize else afterEntry pos size

/-- A turn of the loop of `tar_extract`. -/
theorem tarExtractFrom_step {size next : Nat} {y : TarExtraction R} (h : ¬ EndsAt data pos)
    (hsize : headerSize (field pos tarBlockSize data) = some size)
    (hentry : tarExtractEntry data baseDir verbose (entryAt data pos size) (pos + tarBlockSize) x =
      some (next, y)) :
    tarExtractFrom data baseDir verbose (n + 1) pos x = if y.stop = none then
      tarExtractFrom data baseDir verbose n next
        { y with entries := y.entries ++ [(pos, (entryAt data pos size).name)] } else some y := by
  have hin := Nat.le_of_not_lt (not_or.mp h).1
  rw [tarExtractFrom, if_pos hin, dataSlice_block hin]
  dsimp only
  rw [parse_entry h hsize]
  dsimp only
  rw [hentry]

theorem tarExtractFrom_entry {size : Nat} (h : ¬ EndsAt data pos)
    (hsize : headerSize (field pos tarBlockSize data) = some size) (hx : x.stop = none) :
    ∃ x', x'.entries = x.entries ∧
      (x'.stop = some .notWritten ∧
          tarExtractFrom data baseDir verbose (n + 1) pos x = some x' ∨
        x'.stop = none ∧ tarExtractFrom data baseDir verbose (n + 1) pos x =
          tarExtractFrom data baseDir verbose n (nextExtracted data pos size)
            { x' with entries := x'.entries ++ [(pos, (entryAt data pos size).name)] }) := by
  have hin := Nat.le_of_not_lt (not_or.mp h).1
  obtain ⟨x', hentry, hentries, hstop⟩ := @tarExtractEntry_spec R data baseDir verbose
    (pos + tarBlockSize) (entryAt data pos size) x hin
  refine ⟨x', hentries, ?_⟩
  rw [tarExtractFrom_step h hsize hentry]
  rcases hstop with hstop | hstop
  · right
    rw [hx] at hstop
    rw [if_pos hstop]
    exact ⟨hstop, rfl⟩
  · left
    rw [if_neg (by simp [hstop])]
    exact ⟨hstop, rfl⟩

/-- The extraction ends, inside the data, and what it adds to the entries is not before the
    place. -/
theorem tarExtractFrom_ends (hn : data.length < pos + n) (h0 : 0 < n) (hx : x.stop = none) :
    ∃ x' more, tarExtractFrom data baseDir verbose n pos x = some x' ∧
      x'.entries = x.entries ++ more ∧ (∀ e ∈ more, pos ≤ e.1) ∧
        (x'.stop = none → ¬ EndsAt data pos → ∃ e ∈ more, e.1 = pos) := by
  induction n generalizing pos x with
  | zero => exact absurd h0 (Nat.lt_irrefl 0)
  | succ n ih =>
    by_cases hend : EndsAt data pos
    · exact ⟨x, [], tarExtractFrom_end hend, by simp, by simp, fun _ hnot => absurd hend hnot⟩
    · cases hsize : headerSize (field pos tarBlockSize data) with
      | none =>
        obtain ⟨x', hx', hstop, hentries⟩ := @tarExtractFrom_invalid R data baseDir verbose n pos x
          hend hsize
        refine ⟨x', [], hx', by simpa using hentries, by simp, fun hnone => ?_⟩
        rw [hstop] at hnone
        cases hnone
      | some size =>
        have hin := Nat.le_of_not_lt (not_or.mp hend).1
        have hblock : tarBlockSize = 512 := rfl
        have hlt : pos < nextExtracted data pos size := by
          unfold nextExtracted
          split
          · omega
          · exact lt_afterEntry pos size
        obtain ⟨x', hentries, ⟨hstop, hx'⟩ | ⟨hstop, hx'⟩⟩ :=
          @tarExtractFrom_entry R data baseDir verbose n pos x size hend hsize hx
        · refine ⟨x', [], hx', by simpa using hentries, by simp, fun hnone => ?_⟩
          rw [hstop] at hnone
          cases hnone
        · obtain ⟨y, more, hy, hmore, hplaces, -⟩ := @ih (nextExtracted data pos size)
            { x' with entries := x'.entries ++ [(pos, (entryAt data pos size).name)] }
            (by omega) (by omega) hstop
          refine ⟨y, (pos, (entryAt data pos size).name) :: more, hx'.trans hy, ?_, ?_, ?_⟩
          · rw [hmore, hentries, List.append_assoc, List.singleton_append]
          · refine List.forall_mem_cons.mpr ⟨Nat.le_refl _, fun e he => ?_⟩
            exact hlt.le.trans (hplaces e he)
          · intro _ _
            exact ⟨_, List.mem_cons_self, rfl⟩

/-- Where a directory has a size, extracting goes on before the blocks of that size. -/
theorem next_ne {size : Nat} (hdir : (entryAt data pos size).isDir = true) (hpos : 0 < size) :
    nextExtracted data pos size ≠ afterEntry pos size := by
  have hblocks := Nat.mul_pos (@blocks_pos tarBlockSize size hpos) (show 0 < tarBlockSize by decide)
  rw [nextExtracted, if_pos hdir, afterEntry]
  omega

theorem dir_of_next_ne {size : Nat} (h : nextExtracted data pos size ≠ afterEntry pos size) :
    (entryAt data pos size).isDir = true ∧ 0 < size := by
  by_cases hdir : (entryAt data pos size).isDir = true
  · refine ⟨hdir, Nat.pos_of_ne_zero ?_⟩
    rintro rfl
    apply h
    rw [nextExtracted, if_pos hdir, afterEntry]
    rfl
  · exact absurd (if_neg hdir) h

/-- **The listing names what is extracted** where no directory hides blocks. -/
theorem extracted_listed_iff {m : Nat} {l : TarListing} (hn : data.length < pos + n) (h0 : 0 < n)
    (hm : data.length < pos + m) (h0' : 0 < m) (hx : x.stop = none)
    (hl : tarListFrom data m pos x.entries = some l) (hstatus : l.status = 0)
    (hx' : tarExtractFrom data baseDir verbose n pos x = some x')
    (hwritten : x'.stop ≠ some .notWritten) :
    x'.stop = none ∧ x'.entries = l.entries ↔ SizedDirsEnd data pos := by
  induction n generalizing pos x m with
  | zero => exact absurd h0 (Nat.lt_irrefl 0)
  | succ n ih =>
    obtain ⟨m, rfl⟩ := Nat.exists_eq_succ_of_ne_zero (Nat.ne_of_gt h0')
    by_cases hend : EndsAt data pos
    · rw [tarListFrom_end hend] at hl
      rw [tarExtractFrom_end hend] at hx'
      cases hl
      cases hx'
      exact iff_of_true ⟨hx, rfl⟩ (sizedDirsEnd_of_endsAt hend)
    · cases hsize : headerSize (field pos tarBlockSize data) with
      | none =>
        rw [tarListFrom_invalid hend hsize] at hl
        cases hl
        cases hstatus
      | some size =>
        have hin := Nat.le_of_not_lt (not_or.mp hend).1
        have hblock : tarBlockSize = 512 := rfl
        have hlt := lt_afterEntry pos size
        rw [tarListFrom_entry hend hsize] at hl
        rw [sizedDirsEnd_iff hend hsize]
        obtain ⟨y, hentries, ⟨hstop, hy⟩ | ⟨hstop, hy⟩⟩ :=
          @tarExtractFrom_entry R data baseDir verbose n pos x size hend hsize hx
        · cases hy.symm.trans hx'
          exact absurd hstop hwritten
        · rw [hy] at hx'
          rw [← hentries] at hl
          by_cases hnext : nextExtracted data pos size = afterEntry pos size
          · rw [hnext] at hx'
            have hrest := @ih (afterEntry pos size)
              { y with entries := y.entries ++ [(pos, (entryAt data pos size).name)] } m
              (by omega) (by omega) (by omega) (by omega) hstop hl hx'
            rw [hrest, iff_and_self]
            intro _ hdir hpos
            exact absurd hnext (next_ne hdir hpos)
          · obtain ⟨hdir, hpos⟩ := dir_of_next_ne hnext
            have hplace : nextExtracted data pos size = pos + tarBlockSize := if_pos hdir
            have hbefore : pos + tarBlockSize < afterEntry pos size := by
              rw [hplace] at hnext
              unfold afterEntry at hnext ⊢
              omega
            rw [hplace] at hx'
            obtain ⟨l', more, hl', hmore, hplaces, hnil⟩ := @tarListFrom_ends data m
              (afterEntry pos size) (y.entries ++ [(pos, (entryAt data pos size).name)]) (by omega)
              (by omega)
            cases hl.symm.trans hl'
            obtain ⟨z, more', hz, hmore', -, hfirst⟩ := @tarExtractFrom_ends R data baseDir verbose
              n (pos + tarBlockSize)
              { y with entries := y.entries ++ [(pos, (entryAt data pos size).name)] } (by omega)
              (by omega) hstop
            cases hx'.symm.trans hz
            constructor
            · rintro ⟨hnone, hsame⟩
              have heq : more' = more := by
                rw [hmore', hmore] at hsame
                exact List.append_cancel_left hsame
              have hendDir : EndsAt data (pos + tarBlockSize) := by
                by_contra hnot
                obtain ⟨e, he, hat⟩ := hfirst hnone hnot
                rw [heq] at he
                have hle := hplaces e he
                omega
              obtain ⟨k, rfl⟩ := Nat.exists_eq_succ_of_ne_zero (show n ≠ 0 by omega)
              rw [tarExtractFrom_end hendDir] at hx'
              cases hx'
              have hempty : more = [] := by
                rw [hmore] at hsame
                simpa using hsame
              have hendAfter := hnil hstatus hempty
              exact ⟨fun _ _ => ⟨hendDir, hendAfter⟩, sizedDirsEnd_of_endsAt hendAfter⟩
            · rintro ⟨hends, -⟩
              obtain ⟨hendDir, hendAfter⟩ := hends hdir hpos
              obtain ⟨k, rfl⟩ := Nat.exists_eq_succ_of_ne_zero (show n ≠ 0 by omega)
              obtain ⟨j, rfl⟩ := Nat.exists_eq_succ_of_ne_zero (show m ≠ 0 by omega)
              rw [tarExtractFrom_end hendDir] at hx'
              rw [tarListFrom_end hendAfter] at hl
              cases hx'
              cases hl
              exact ⟨hstop, rfl⟩

end

end Wasmsh.Fs

import Wasmsh.TarTrees

/-!
# Trees that come back from an archive

Below an empty directory `tar -x` makes the entries that `tar -c` has written, one after the
other, when every name fits into its field and the filesystem has room for all of them.
-/

namespace Wasmsh.Fs

open Globs FixedFields LossyUtf8

variable {R : Type} {ms : List Member} {Top : List Path → Prop} {name : Path} {nodes : Nodes}

/-! ## 1. Names that fit -/

/-- The name is read back from a header: U+0000 is not in it, and its bytes fit into the field, or
    they are cut inside a replacement character at the end, which is read as one. -/
def FitsHeader (name : Path) : Prop :=
  Char.ofNat 0 ∉ name ∧ ((LossyUtf8.encode name).length ≤ 100 ∨
    ∃ before, name = before ++ [replacement] ∧ ((LossyUtf8.encode before).length = 98 ∨
      (LossyUtf8.encode before).length = 99))

theorem takeWhile_cut (h : Char.ofNat 0 ∉ name) (n : Nat) :
    ((LossyUtf8.encode name).take n).takeWhile (· ≠ 0) = (LossyUtf8.encode name).take n := by
  rw [List.takeWhile_eq_self_iff]
  intro b hb
  rw [decide_eq_true_eq]
  rintro rfl
  exact h (zero_mem_encode.mp (List.mem_of_mem_take hb))

theorem length_replacement : (String.utf8EncodeChar replacement).length = 3 := by decide

/-- A name that ends with a replacement character which is cut. -/
theorem decode_replacement (before after : Path)
    (h : (LossyUtf8.encode before).length = 98 ∨ (LossyUtf8.encode before).length = 99) :
    decode ((LossyUtf8.encode (before ++ replacement :: after)).take 100) =
      before ++ [replacement] := by
  have hlen := length_replacement
  have hcut : (LossyUtf8.encode (before ++ replacement :: after)).take 100 =
      LossyUtf8.encode before ++
        (String.utf8EncodeChar replacement).take (100 - (LossyUtf8.encode before).length) := by
    rw [encode_append, encode_cons, List.take_append, List.take_of_length_le (by omega),
      List.take_append_of_le_length (by omega)]
  have hsplit : String.utf8EncodeChar replacement =
      (String.utf8EncodeChar replacement).take (100 - (LossyUtf8.encode before).length) ++
        (String.utf8EncodeChar replacement).drop (100 - (LossyUtf8.encode before).length) :=
    (List.take_append_drop _ _).symm
  obtain ⟨p, hp⟩ := feed_cut hsplit
    (by
      intro hnil
      have hzero := congrArg List.length hnil
      rw [List.length_take, List.length_nil] at hzero
      omega)
    (by
      intro hnil
      have hzero := congrArg List.length hnil
      rw [List.length_drop, List.length_nil] at hzero
      omega)
  rw [hcut, decode, feed_encode, hp, List.append_nil]
  rfl

theorem cutName_of_fitsHeader (h : FitsHeader name) : cutName name = name := by
  obtain ⟨hzero, hshort | ⟨before, rfl, hlen⟩⟩ := h
  · rw [cutName, takeWhile_cut hzero, List.take_of_length_le hshort, decode_encode]
  · rw [cutName, takeWhile_cut hzero, decode_replacement before [] hlen]

/-- The name of a directory is read back with its slash or without it. -/
theorem cutName_slash (h : FitsHeader name) :
    cutName (name ++ ['/']) = name ∨ cutName (name ++ ['/']) = name ++ ['/'] := by
  have hzero : Char.ofNat 0 ∉ name ++ ['/'] := by
    intro hmem
    rcases List.mem_append.mp hmem with hmem | hmem
    · exact h.1 hmem
    · exact absurd (List.mem_singleton.mp hmem) (by decide)
  have hone : (LossyUtf8.encode ['/']).length = 1 := by decide
  obtain ⟨-, hshort | ⟨before, rfl, hlen⟩⟩ := h
  · by_cases hfull : (LossyUtf8.encode name).length = 100
    · left
      rw [cutName, takeWhile_cut hzero, encode_append, List.take_left' hfull, decode_encode]
    · right
      have hwhole : (LossyUtf8.encode (name ++ ['/'])).length ≤ 100 := by
        rw [encode_append, List.length_append, hone]
        omega
      rw [cutName, takeWhile_cut hzero, List.take_of_length_le hwhole, decode_encode]
  · left
    have hsame : before ++ [replacement] ++ ['/'] = before ++ replacement :: ['/'] := by simp
    rw [hsame] at hzero ⊢
    rw [cutName, takeWhile_cut hzero, decode_replacement before _ hlen]

/-! ## 2. One entry -/

/-- The entries of an archive below an empty directory, so far. -/
structure Extracted (fs₀ fs : MemoryFs R) (d : List Path) (done : List Member) : Prop where
  inside : ∀ rel, rel ≠ [] → (∀ part ∈ rel, Proper part) → ∀ node,
    fs.nodes.lookup (absPath (d ++ rel)) = some node ↔ (rel, node) ∈ done
  outside : ∀ k, (∀ rel, rel ≠ [] → (∀ part ∈ rel, Proper part) → k ≠ absPath (d ++ rel)) →
    fs.nodes.lookup k = fs₀.nodes.lookup k
  count : fs.nodes.count = fs₀.nodes.count + done.length
  bytes : fs.totalBytes = fs₀.totalBytes + (done.map (·.2.size)).sum

/-- A directory that is empty and stands in directories. -/
structure EmptyDir (fs : MemoryFs R) (d : List Path) : Prop where
  proper : ∀ part ∈ d, Proper part
  dir : ∀ above, above <+: d → fs.nodes.lookup (absPath above) = some .dir
  empty : ∀ rel, rel ≠ [] → (∀ part ∈ rel, Proper part) → absPath (d ++ rel) ∉ fs.nodes

theorem absPath_injective {p q : List Path} (hp : ∀ part ∈ p, Proper part)
    (hq : ∀ part ∈ q, Proper part) (h : absPath p = absPath q) : p = q := by
  rw [← components_absPath hp, h, components_absPath hq]

theorem EmptyDir.extracted {fs : MemoryFs R} {d : List Path} (h : EmptyDir fs d) :
    Extracted fs fs d [] := by
  refine ⟨fun rel hne hrel node => ?_, fun _ _ => rfl, rfl, rfl⟩
  rw [AList.lookup_eq_none.mpr (h.empty rel hne hrel)]
  simp

section

variable {fs₀ fs fs' : MemoryFs R} {d rel : List Path} {done : List Member} {node : FsNode}

theorem proper_below (hd : EmptyDir fs₀ d) (hrel : ∀ part ∈ rel, Proper part) :
    ∀ part ∈ d ++ rel, Proper part := List.forall_mem_append.mpr ⟨hd.proper, hrel⟩

/-- An entry more. -/
theorem Extracted.add (h : Extracted fs₀ fs d done) (hd : EmptyDir fs₀ d) (hne : rel ≠ [])
    (hrel : ∀ part ∈ rel, Proper part) (hnew : ∀ node, (rel, node) ∉ done)
    (hnodes : fs'.nodes = fs.nodes.insert (absPath (d ++ rel)) node)
    (hbytes : fs'.totalBytes = fs.totalBytes + node.size) :
    Extracted fs₀ fs' d (done ++ [(rel, node)]) := by
  have habsent : absPath (d ++ rel) ∉ fs.nodes := by
    rw [← AList.lookup_eq_none]
    cases hlook : fs.nodes.lookup (absPath (d ++ rel)) with
    | none => rfl
    | some other => exact absurd ((h.inside rel hne hrel other).mp hlook) (hnew other)
  constructor
  · intro rel' hne' hrel' node'
    rw [hnodes, List.mem_append, List.mem_singleton, Prod.mk.injEq]
    by_cases hsame : rel' = rel
    · subst hsame
      rw [AList.lookup_insert, Option.some.injEq]
      constructor
      · rintro rfl
        exact .inr ⟨rfl, rfl⟩
      · rintro (hmem | ⟨-, rfl⟩)
        · exact absurd hmem (hnew node')
        · rfl
    · have hkey : absPath (d ++ rel') ≠ absPath (d ++ rel) := by
        intro heq
        exact hsame (List.append_cancel_left
          (absPath_injective (proper_below hd hrel') (proper_below hd hrel) heq))
      rw [AList.lookup_insert_ne hkey, h.inside rel' hne' hrel']
      simp [hsame]
  · intro k hk
    rw [hnodes, AList.lookup_insert_ne (hk rel hne hrel), h.outside k hk]
  · rw [hnodes]
    have hmore := Weighted.count_insert_of_not_mem habsent node
    unfold Nodes.count at hmore ⊢
    rw [hmore, List.length_append, List.length_singleton, ← Nat.add_assoc]
    exact congrArg (· + 1) h.count
  · rw [hbytes, h.bytes, List.map_append, List.sum_append, Nat.add_assoc]
    simp

/-- Where all directories above it are there, an entry is made if there is room. -/
theorem createNode_present {path : Path} (node : FsNode)
    (h : ∀ p ∈ parentPaths path, p ∈ nodes) (hroom : nodes.count < maxInodes) :
    createNode path node nodes = (.ok (), nodes.insert path node) := by
  unfold createNode
  rw [ensureParents_present h]
  exact if_neg (Nat.not_le.mpr hroom)

/-- The directories above an entry are there. -/
theorem parents_there (h : Extracted fs₀ fs d done) (hd : EmptyDir fs₀ d)
    (hrel : ∀ part ∈ rel, Proper part)
    (habove : ∀ above, above ≠ [] → above <+: rel.dropLast → (above, FsNode.dir) ∈ done) :
    ∀ above, above <+: d ++ rel.dropLast → fs.nodes.lookup (absPath above) = some .dir := by
  rintro above ⟨rest, hstart⟩
  rcases List.append_eq_append_iff.mp hstart with ⟨more, hin, -⟩ | ⟨more, rfl, hmore⟩
  · have hin : above <+: d := ⟨more, hin.symm⟩
    have hshort : ∀ part ∈ above, Proper part := fun part hpart =>
      hd.proper part (hin.subset hpart)
    rw [h.outside _ fun rel' hne' hrel' heq => ?_]
    · exact hd.dir above hin
    · have hlen := (hin.length_le)
      rw [absPath_injective hshort (proper_below hd hrel') heq, List.length_append] at hlen
      exact hne' (List.eq_nil_of_length_eq_zero (by omega))
  · have hmore : more <+: rel.dropLast := ⟨rest, hmore.symm⟩
    by_cases hnil : more = []
    · subst hnil
      rw [List.append_nil]
      rw [h.outside _ fun rel' hne' hrel' heq => ?_]
      · exact hd.dir d (List.prefix_refl _)
      · have hsame := absPath_injective hd.proper (proper_below hd hrel') heq
        exact hne' (List.append_cancel_left (hsame.symm.trans (List.append_nil d).symm))
    · have hproper : ∀ part ∈ more, Proper part := fun part hpart =>
        hrel part (List.dropLast_subset _ (hmore.subset hpart))
      exact (h.inside more hnil hproper .dir).mpr (habove more hnil hmore)

/-- An entry that can be made: it is new and what it stands in was made before it. -/
structure Ready (d : List Path) (done : List Member) (rel : List Path) : Prop where
  ne : rel ≠ []
  proper : ∀ part ∈ rel, Proper part
  new : ∀ node, (rel, node) ∉ done
  above : ∀ above, above ≠ [] → above <+: rel.dropLast → (above, FsNode.dir) ∈ done

theorem Ready.absent (hready : Ready d done rel) (h : Extracted fs₀ fs d done) :
    fs.nodes.lookup (absPath (d ++ rel)) = none := by
  cases hlook : fs.nodes.lookup (absPath (d ++ rel)) with
  | none => rfl
  | some node =>
    exact absurd ((h.inside rel hready.ne hready.proper node).mp hlook) (hready.new node)

theorem Ready.createNode (hready : Ready d done rel) (h : Extracted fs₀ fs d done)
    (hd : EmptyDir fs₀ d) (hroom : fs.nodes.count < maxInodes) (node : FsNode) :
    createNode (absPath (d ++ rel)) node fs.nodes =
      (.ok (), fs.nodes.insert (absPath (d ++ rel)) node) := by
  refine createNode_present node (fun p hp => ?_) hroom
  obtain ⟨above, hne, hstart, rfl⟩ :=
    (mem_parentPaths_absPath (proper_below hd hready.proper) p).mp hp
  rw [List.dropLast_append_of_ne_nil hready.ne] at hstart
  have hdir := parents_there h hd hready.proper hready.above above hstart
  rw [absPath_of_ne_nil hne] at hdir
  rw [← AList.lookup_isSome, hdir]
  rfl

theorem createDir_ready (hready : Ready d done rel) (h : Extracted fs₀ fs d done)
    (hd : EmptyDir fs₀ d) (hroom : fs.nodes.count < maxInodes) :
    ∃ fs', fs.createDir (absPath (d ++ rel)) = (.ok (), fs') ∧
      Extracted fs₀ fs' d (done ++ [(rel, .dir)]) := by
  have hnormal : normalizePath (absPath (d ++ rel)) = absPath (d ++ rel) :=
    isNormal_absPath (proper_below hd hready.proper)
  have habsent := AList.lookup_eq_none.mp (hready.absent h)
  unfold MemoryFs.createDir
  rw [hnormal]
  dsimp only
  rw [if_neg habsent, hready.createNode h hd hroom]
  exact ⟨_, rfl, h.add hd hready.ne hready.proper hready.new rfl rfl⟩

/-- Data within the limits is written to an empty file. -/
theorem writeFile_ok {handle : Nat} {path : Path} {c : Bytes}
    (hhandle : fs.handles.lookup handle = some ⟨.path path, .forWriting⟩)
    (hfile : fs.nodes.lookup path = some (.file [])) (hsize : c.length ≤ maxFileSize)
    (htotal : fs.totalBytes + c.length ≤ maxTotalBytes) :
    fs.writeFile handle c = (.ok (), { fs with
      nodes := fs.nodes.insert path (.file c), totalBytes := fs.totalBytes + c.length }) := by
  unfold MemoryFs.writeFile
  rw [hhandle]
  change ((MemoryFs.writeChunk ⟨path, false⟩ c fs).1.map fun _ => (),
    (MemoryFs.writeChunk ⟨path, false⟩ c fs).2) = _
  unfold MemoryFs.writeChunk
  dsimp only
  rw [hfile]
  dsimp only
  rw [if_neg Bool.false_ne_true, List.length_nil, Nat.sub_zero, if_neg (Nat.not_lt.mpr hsize),
    if_neg (Nat.not_lt.mpr htotal)]
  rfl

theorem storeContents_ready (hready : Ready d done rel) (h : Extracted fs₀ fs d done)
    (hd : EmptyDir fs₀ d) (hroom : fs.nodes.count < maxInodes) {c : Bytes}
    (hsize : c.length ≤ maxFileSize) (htotal : fs.totalBytes + c.length ≤ maxTotalBytes) :
    ∃ fs', storeContents (absPath (d ++ rel)) c fs = (.ok (), fs') ∧
      Extracted fs₀ fs' d (done ++ [(rel, .file c)]) := by
  have habsent := hready.absent h
  have hnorm := resolve_absPath (proper_below hd hready.proper) fun target => by
    rw [habsent]
    simp
  have hopen : fs.openFile (absPath (d ++ rel)) .forWriting =
      ({ fs with nodes := fs.nodes.insert (absPath (d ++ rel)) (.file []) } : MemoryFs R).addHandle
        (.path (absPath (d ++ rel))) .forWriting := by
    rw [openFile_forWriting hnorm]
    unfold MemoryFs.openResolved
    rw [habsent, hready.createNode h hd hroom]
    rfl
  have hwrite := @writeFile_ok R
    (({ fs with nodes := fs.nodes.insert (absPath (d ++ rel)) (.file []) } : MemoryFs R).addHandle
      (.path (absPath (d ++ rel))) .forWriting).2 fs.nextHandle (absPath (d ++ rel)) c
    (AList.lookup_insert _) (AList.lookup_insert _) hsize htotal
  unfold storeContents
  rw [hopen]
  unfold MemoryFs.addHandle at hwrite ⊢
  dsimp only at hwrite ⊢
  rw [hwrite]
  refine ⟨_, rfl, h.add hd hready.ne hready.proper hready.new ?_ rfl⟩
  exact AList.insert_insert _

theorem beforeLastSlash_concat (before : Path) (h : '/' ∉ name) :
    beforeLastSlash (before ++ '/' :: name) = before := by
  have hname : ((before ++ '/' :: name).reverse.takeWhile (· != '/')).reverse = name := by
    rw [List.reverse_append, List.reverse_cons, List.append_assoc,
      List.takeWhile_append_of_pos fun c hc => by
        rw [bne_iff_ne]
        rintro rfl
        exact h (List.mem_reverse.mp hc)]
    simp
  have hsplit : before ++ '/' :: name = (before ++ ['/']) ++ name := by simp
  have hlen : (before ++ '/' :: name).length - name.length = (before ++ ['/']).length := by
    rw [hsplit, List.length_append, Nat.add_sub_cancel]
  unfold beforeLastSlash splitLastSlash
  rw [if_pos (by simp)]
  dsimp only
  rw [hname, hlen, hsplit, List.take_left, List.dropLast_concat]

theorem isThere_dir {parts : List Path} (hparts : ∀ part ∈ parts, Proper part)
    (hdir : fs.nodes.lookup (absPath parts) = some .dir) : isThere fs (absPath parts) = true := by
  have hnorm := resolve_absPath hparts fun target => by
    rw [hdir]
    simp
  unfold isThere MemoryFs.stat
  rw [hnorm]
  dsimp only
  rw [hdir]
  rfl

/-- The directory that an entry stands in is there, and is not made. -/
theorem ensureParentDir_ready (hready : Ready d done rel) {x : TarExtraction R}
    (h : Extracted fs₀ x.fs d done) (hd : EmptyDir fs₀ d) (name : Path) :
    ensureParentDir (absPath (d ++ rel)) name x = x := by
  have hproper := hready.proper
  have habove := parents_there h hd hproper hready.above
  obtain ⟨init, last, rfl⟩ := (List.eq_nil_or_concat' rel).resolve_left hready.ne
  rw [List.dropLast_concat] at habove
  have hlast : '/' ∉ last := (hproper last (by simp)).2.1
  have hinit : ∀ part ∈ d ++ init, Proper part := proper_below hd fun part hpart =>
    hproper part (List.mem_append_left _ hpart)
  have hparent : beforeLastSlash (absPath (d ++ (init ++ [last]))) = joinPath (d ++ init) := by
    rw [← List.append_assoc, absPath_of_ne_nil (List.concat_ne_nil _ _), joinPath_concat,
      beforeLastSlash_concat _ hlast]
  unfold ensureParentDir
  dsimp only
  rw [hparent]
  by_cases hnil : d ++ init = []
  · rw [hnil]
    rfl
  · have hthere := isThere_dir hinit (habove (d ++ init) (List.prefix_refl _))
    rw [absPath_of_ne_nil hnil] at hthere
    rw [hthere]
    simp

end

/-! ## 3. All entries -/

theorem length_tarContents (c : Bytes) :
    (tarContents c).length = blocks tarBlockSize c.length * tarBlockSize := by
  rw [blocks_mul (by decide), tarContents, List.length_append, List.length_replicate]

/-- The header in the blocks of an entry. -/
theorem header_there {before after : Bytes} {size : Nat} {typeflag : UInt8}
    (hsize : size < 8 ^ 11) {data : Bytes}
    (hdata : data = before ++ (makeTarHeader name size typeflag ++ after)) :
    ¬ EndsAt data before.length ∧
      headerSize (field before.length tarBlockSize data) = some size ∧
      entryAt data before.length size = ⟨cutName name, size, typeflag⟩ := by
  have hfield : field before.length tarBlockSize data = makeTarHeader name size typeflag := by
    rw [hdata]
    exact field_append _ _ _ rfl (length_makeTarHeader _ _ _)
  have hin : before.length + tarBlockSize ≤ data.length := by
    rw [hdata, List.length_append, List.length_append, length_makeTarHeader]
    omega
  refine ⟨?_, ?_, ?_⟩
  · rw [EndsAt, hfield, isZeroBlock_makeTarHeader name typeflag hsize, not_or]
    exact ⟨Nat.not_lt.mpr hin, Bool.false_ne_true⟩
  · rw [hfield, headerSize_makeTarHeader name typeflag hsize]
  · rw [entryAt, hfield, headerName_makeTarHeader, flag_makeTarHeader]

theorem memberBlocks_pos {m : Member} (h : ∀ target, m.2 ≠ .symlink target) :
    0 < (memberBlocks m).length := by
  obtain ⟨rel, node⟩ := m
  cases node with
  | symlink target => exact absurd rfl (h target)
  | dir =>
    rw [memberBlocks, length_makeTarHeader]
    decide
  | file c =>
    rw [memberBlocks, List.length_append, length_makeTarHeader]
    exact Nat.add_pos_left (by decide) _

/-- An entry that the filesystem has room for. -/
def MemberRoom (fs : MemoryFs R) (m : Member) : Prop :=
  fs.nodes.count < maxInodes ∧ m.2.size ≤ maxFileSize ∧ fs.totalBytes + m.2.size ≤ maxTotalBytes

/-- **An entry is extracted.** -/
theorem extract_member {fs₀ : MemoryFs R} {d rel : List Path} {done : List Member} {node : FsNode}
    {baseDir : Path} {verbose : Bool} {before after data : Bytes} {n : Nat}
    {x : TarExtraction R} (habs : baseDir.head? = some '/') (hbase : components baseDir = d)
    (hd : EmptyDir fs₀ d) (h : Extracted fs₀ x.fs d done) (hready : Ready d done rel)
    (hlink : ∀ target, node ≠ .symlink target) (hfits : FitsHeader (relPath rel))
    (hroom : MemberRoom x.fs (rel, node)) (hstop : x.stop = none)
    (hdata : data = before ++ (memberBlocks (rel, node) ++ after)) :
    ∃ x', tarExtractFrom data baseDir verbose (n + 1) before.length x =
        tarExtractFrom data baseDir verbose n (before ++ memberBlocks (rel, node)).length x' ∧
      x'.stop = none ∧ Extracted fs₀ x'.fs d (done ++ [(rel, node)]) := by
  obtain ⟨hcount, hfile, htotal⟩ := hroom
  obtain ⟨hplain, hslash⟩ := resolveCwdPath_relPath habs hready.ne hready.proper
  rw [hbase] at hplain hslash
  have hreported : ∀ text : Path, (if verbose = true then x.report text else x).fs = x.fs ∧
      (if verbose = true then x.report text else x).stop = none := by
    intro text
    split
    · exact ⟨rfl, hstop⟩
    · exact ⟨rfl, hstop⟩
  cases node with
  | symlink target => exact absurd rfl (hlink target)
  | dir =>
    obtain ⟨hnot, hsize, hentry⟩ := header_there (by decide) hdata
    have hfull : resolveCwdPath baseDir (cutName (relPath rel ++ ['/'])) = absPath (d ++ rel) := by
      rcases cutName_slash hfits with heq | heq
      · rw [heq, hplain]
      · rw [heq, hslash]
    generalize cutName (relPath rel ++ ['/']) = name at hentry hfull
    obtain ⟨hfs, hnone⟩ := hreported (name ++ ['\n'])
    obtain ⟨fs', hmade, hadded⟩ := createDir_ready hready h hd hcount
    have hdone : tarExtractEntry data baseDir verbose (entryAt data before.length 0)
        (before.length + tarBlockSize) x = some (before.length + tarBlockSize,
          { (if verbose = true then x.report (name ++ ['\n']) else x) with fs := fs' }) := by
      unfold tarExtractEntry extractDirEntry TarExtraction.makeDir
      rw [hentry]
      dsimp only
      rw [if_pos (by rw [TarEntry.isDir, beq_self_eq_true]; rfl), hfull, hfs, hmade]
      rfl
    rw [tarExtractFrom_step hnot hsize hdone, if_pos hnone]
    have hlen : (before ++ memberBlocks (rel, .dir)).length = before.length + tarBlockSize := by
      rw [List.length_append, memberBlocks, length_makeTarHeader]
    rw [hlen]
    exact ⟨_, rfl, hnone, hadded⟩
  | file c =>
    have hsmall : c.length < 8 ^ 11 := Nat.lt_of_le_of_lt hfile (by decide)
    rw [memberBlocks, List.append_assoc] at hdata
    obtain ⟨hnot, hsize, hentry⟩ := header_there hsmall hdata
    rw [cutName_of_fitsHeader hfits] at hentry
    obtain ⟨hfs, hnone⟩ := hreported (relPath rel ++ ['\n'])
    obtain ⟨fs', hstored, hadded⟩ := storeContents_ready hready h hd hcount hfile htotal
    have hslice : dataSlice data (before.length + tarBlockSize)
        (min (before.length + tarBlockSize + c.length) data.length) = some c := by
      generalize hpad : List.replicate (if c.length % tarBlockSize = 0 then 0
        else tarBlockSize - c.length % tarBlockSize) (0 : UInt8) = pad
      have hwhole : data = (before ++ makeTarHeader (relPath rel) c.length fileFlag) ++
          (c ++ (pad ++ after)) := by
        rw [hdata, tarContents, hpad]
        simp
      have hstart : (before ++ makeTarHeader (relPath rel) c.length fileFlag).length =
          before.length + tarBlockSize := by
        rw [List.length_append, length_makeTarHeader]
      have hin : before.length + tarBlockSize + c.length ≤ data.length := by
        rw [hwhole, List.length_append, hstart, List.length_append]
        omega
      rw [Nat.min_eq_left hin, dataSlice_eq (Nat.le_add_right _ _) hin, Nat.add_sub_cancel_left,
        hwhole, field_append _ _ _ hstart rfl]
    have hdone : tarExtractEntry data baseDir verbose (entryAt data before.length c.length)
        (before.length + tarBlockSize) x = some (afterEntry before.length c.length,
          { (if verbose = true then x.report (relPath rel ++ ['\n']) else x) with fs := fs' }) := by
      have hfileEntry : ¬ (⟨relPath rel, c.length, fileFlag⟩ : TarEntry).isDir = true := by
        have hlast := getLast_relPath hready.ne hready.proper
        simp [TarEntry.isDir, fileFlag, dirFlag, hlast]
      have hparent := @ensureParentDir_ready R fs₀ d rel done hready
        (if verbose = true then x.report (relPath rel ++ ['\n']) else x) (by rw [hfs]; exact h) hd
        (relPath rel)
      unfold tarExtractEntry extractFileEntry
      rw [hentry]
      dsimp only
      rw [if_neg hfileEntry, hplain, hparent, hslice, hfs]
      dsimp only
      rw [hstored]
      rfl
    rw [tarExtractFrom_step hnot hsize hdone, if_pos hnone]
    have hlen : (before ++ memberBlocks (rel, .file c)).length =
        afterEntry before.length c.length := by
      rw [List.length_append, memberBlocks, List.length_append, length_makeTarHeader,
        length_tarContents, ← Nat.add_assoc]
      rfl
    rw [hlen]
    exact ⟨_, rfl, hnone, hadded⟩

/-- The directories above an entry come before it. -/
theorem above_before {s : List Path} {P : List Path → Prop}
    (h : Lists nodes s P (fun rel => rel.dropLast = []) ms) {before after : List Member} {m : Member}
    (hms : ms = before ++ m :: after) :
    ∀ above, above ≠ [] → above <+: m.1.dropLast → (above, FsNode.dir) ∈ before := by
  induction hlen : m.1.length using Nat.strong_induction_on generalizing m before after with
  | _ k ih =>
    intro above hne hstart
    rcases h.ordered before m after hms with htop | hdir
    · rw [htop] at hstart
      exact absurd (List.prefix_nil.mp hstart) hne
    · by_cases hself : above = m.1.dropLast
      · rw [hself]
        exact hdir
      · obtain ⟨first, rest, hsplit⟩ := List.append_of_mem hdir
        have hlong : m.1.dropLast ≠ [] := by
          rintro hnil
          rw [hnil] at hstart
          exact hne (List.prefix_nil.mp hstart)
        have hshort : m.1.dropLast.length < k := by
          rw [← hlen, List.length_dropLast]
          have hpos := List.length_pos_of_ne_nil hlong
          rw [List.length_dropLast] at hpos
          omega
        have habove : above <+: m.1.dropLast.dropLast := by
          obtain ⟨more, hmore⟩ := hstart
          have hmoreNe : more ≠ [] := by
            rintro rfl
            exact hself (by rw [← hmore, List.append_nil])
          rw [← hmore, List.dropLast_append_of_ne_nil hmoreNe]
          exact List.prefix_append _ _
        have hin := @ih _ hshort first (rest ++ m :: after) (m.1.dropLast, FsNode.dir)
          (by rw [hms, hsplit]; simp) rfl above hne habove
        rw [hsplit]
        exact List.mem_append_left _ hin

/-- The archive of a list of entries. -/
def archiveOf (ms : List Member) : Bytes :=
  ms.flatMap memberBlocks ++ List.replicate (tarBlockSize * 2) 0

/-- After the entries there is a block of zeros. -/
theorem archive_ends (ms : List Member) :
    EndsAt (archiveOf ms) (ms.flatMap memberBlocks).length := by
  have hzeros : field (ms.flatMap memberBlocks).length tarBlockSize (archiveOf ms) =
      List.replicate tarBlockSize 0 := by
    have hsplit : archiveOf ms = ms.flatMap memberBlocks ++
        (List.replicate tarBlockSize 0 ++ List.replicate tarBlockSize 0) := by
      rw [archiveOf, List.replicate_append_replicate]
      rfl
    rw [hsplit]
    exact field_append _ _ _ rfl List.length_replicate
  right
  rw [hzeros]
  simp [isZeroBlock]

/-- The filesystem has room for all entries. -/
def RoomFor (fs : MemoryFs R) (ms : List Member) : Prop :=
  fs.nodes.count + ms.length ≤ maxInodes ∧
    fs.totalBytes + (ms.map (·.2.size)).sum ≤ maxTotalBytes

section

variable {nodes : Nodes} {s : List Path} {P : List Path → Prop} {ms : List Member}

/-- Entries that `tar -c` writes and that can be extracted. -/
structure Archived (nodes : Nodes) (s : List Path) (P : List Path → Prop) (ms : List Member) :
    Prop where
  lists : Lists nodes s P (fun rel => rel.dropLast = []) ms
  below : ∀ rel, P rel → rel ≠ []
  noLink : ∀ m ∈ ms, ∀ target, m.2 ≠ .symlink target
  small : ∀ m ∈ ms, m.2.size ≤ maxFileSize

theorem Archived.ready (h : Archived nodes s P ms) (d : List Path) {done todo : List Member}
    {m : Member} (hms : ms = done ++ m :: todo) : Ready d done m.1 := by
  have hm : (m.1, m.2) ∈ ms := by
    rw [hms]
    simp
  obtain ⟨hP, hproper, -⟩ := (h.lists.mem m.1 m.2).mp hm
  refine ⟨h.below m.1 hP, hproper, fun node hmem => ?_, above_before h.lists hms⟩
  have hnodup := h.lists.nodup
  rw [hms, List.map_append, List.map_cons, List.nodup_append] at hnodup
  exact hnodup.2.2 m.1 (List.mem_map.mpr ⟨(m.1, node), hmem, rfl⟩) m.1 List.mem_cons_self rfl

/-- **The entries are extracted one after the other.** -/
theorem extract_run (h : Archived nodes s P ms) {fs₀ : MemoryFs R} {d : List Path} {baseDir : Path}
    {verbose : Bool} (habs : baseDir.head? = some '/') (hbase : components baseDir = d)
    (hd : EmptyDir fs₀ d) (hfits : ∀ m ∈ ms, FitsHeader (relPath m.1)) (hroom : RoomFor fs₀ ms)
    {done todo : List Member} (hms : ms = done ++ todo) {n : Nat}
    (hn : (archiveOf ms).length < (done.flatMap memberBlocks).length + n) {x : TarExtraction R}
    (hx : Extracted fs₀ x.fs d done) (hstop : x.stop = none) :
    ∃ x', tarExtractFrom (archiveOf ms) baseDir verbose n (done.flatMap memberBlocks).length x =
      some x' ∧ x'.stop = none ∧ Extracted fs₀ x'.fs d ms := by
  induction todo generalizing done n x with
  | nil =>
    rw [List.append_nil] at hms
    subst hms
    obtain ⟨n, rfl⟩ : ∃ k, n = k + 1 := by
      refine Nat.exists_eq_succ_of_ne_zero ?_
      rintro rfl
      rw [archiveOf, List.length_append] at hn
      omega
    exact ⟨x, tarExtractFrom_end (archive_ends ms), hstop, hx⟩
  | cons m todo ih =>
    obtain ⟨rel, node⟩ := m
    have hm : (rel, node) ∈ ms := by
      rw [hms]
      simp
    obtain ⟨n, rfl⟩ : ∃ k, n = k + 1 := by
      refine Nat.exists_eq_succ_of_ne_zero ?_
      rintro rfl
      rw [archiveOf, hms, List.flatMap_append, List.append_assoc, List.length_append] at hn
      omega
    have hroom' : MemberRoom x.fs (rel, node) := by
      obtain ⟨hcount, htotal⟩ := hroom
      have hlen := congrArg List.length hms
      have hsum := congrArg (fun l : List Member => (l.map (·.2.size)).sum) hms
      rw [List.length_append, List.length_cons] at hlen
      simp only [List.map_append, List.map_cons, List.sum_append, List.sum_cons] at hsum
      refine ⟨?_, h.small _ hm, ?_⟩
      · rw [hx.count]
        omega
      · rw [hx.bytes]
        dsimp only
        omega
    have hdata : archiveOf ms = done.flatMap memberBlocks ++ (memberBlocks (rel, node) ++
        (todo.flatMap memberBlocks ++ List.replicate (tarBlockSize * 2) 0)) := by
      rw [archiveOf, hms, List.flatMap_append, List.flatMap_cons]
      simp only [List.append_assoc]
    obtain ⟨y, hstep, hstop', hy⟩ := @extract_member R fs₀ d rel done node baseDir verbose
      (done.flatMap memberBlocks) _ (archiveOf ms) n x habs hbase hd hx (h.ready d hms)
      (h.noLink _ hm) (hfits _ hm) hroom' hstop hdata
    have hafter : done.flatMap memberBlocks ++ memberBlocks (rel, node) =
        (done ++ [(rel, node)]).flatMap memberBlocks := by simp
    rw [hstep, hafter]
    refine ih (by rw [hms]; simp) ?_ hy hstop'
    have hblock := memberBlocks_pos (h.noLink _ hm)
    rw [← hafter, List.length_append]
    omega

end

/-! ## 4. The tree that comes back -/

/-- A path at or below one of the roots. -/
def InRoots (roots : List Path) (rel : List Path) : Prop := ∃ r ∈ roots, [r] <+: rel

instance (roots rel : List Path) : Decidable (InRoots roots rel) :=
  inferInstanceAs (Decidable (∃ r ∈ roots, [r] <+: rel))

/-- Below the one directory is what is below the other, at the roots, and nothing else; all other
    entries are as they were. -/
structure Recreates (source before after : Nodes) (s d roots : List Path) : Prop where
  inside : ∀ rel, rel ≠ [] → (∀ part ∈ rel, Proper part) → ∀ node,
    after.lookup (absPath (d ++ rel)) = some node ↔
      InRoots roots rel ∧ source.lookup (absPath (s ++ rel)) = some node
  outside : ∀ k, (∀ rel, rel ≠ [] → (∀ part ∈ rel, Proper part) → k ≠ absPath (d ++ rel)) →
    after.lookup k = before.lookup k

theorem InRoots.ne_nil {roots rel : List Path} (h : InRoots roots rel) : rel ≠ [] := by
  obtain ⟨r, -, hstart⟩ := h
  rintro rfl
  exact List.cons_ne_nil _ _ (List.prefix_nil.mp hstart)

theorem recreates_of_extracted {fs₀ fs : MemoryFs R} {s d roots : List Path}
    (h : Extracted fs₀ fs d ms)
    (hlists : Lists nodes s (InRoots roots) Top ms) :
    Recreates nodes fs₀.nodes fs.nodes s d roots := by
  refine ⟨fun rel hne hrel node => ?_, h.outside⟩
  rw [h.inside rel hne hrel, hlists.mem]
  constructor
  · rintro ⟨hin, -, hnode⟩
    exact ⟨hin, hnode⟩
  · rintro ⟨hin, hnode⟩
    exact ⟨hin, hrel, hnode⟩

/-- The entries that are at the roots or below them. -/
def treeNodes (fs : MemoryFs R) (s roots : List Path) : List FsNode :=
  (fs.nodes.entries.filter fun e => e.1.head? = some '/' ∧ s <+: components e.1 ∧
    InRoots roots ((components e.1).drop s.length)).map (·.2)

/-- The filesystem has room for a list of nodes. -/
def HasRoom (fs : MemoryFs R) (nodes : List FsNode) : Prop :=
  fs.nodes.count + nodes.length ≤ maxInodes ∧
    fs.totalBytes + (nodes.map FsNode.size).sum ≤ maxTotalBytes

/-- The entries of a list, moved below a directory. -/
def moved (d : List Path) (ms : List Member) : List (Sigma fun _ : Path => FsNode) :=
  ms.map fun m => ⟨absPath (d ++ m.1), m.2⟩

theorem nodup_entries (nodes : Nodes) : nodes.entries.Nodup := by
  have hkeys := List.nodupKeys_iff_pairwise.mp nodes.nodupKeys
  exact hkeys.imp fun hne heq => hne (congrArg Sigma.fst heq)

theorem nodup_moved {s d : List Path} {P Top : List Path → Prop} (h : Lists nodes s P Top ms)
    (hd : ∀ part ∈ d, Proper part) :
    (moved d ms).Nodup := by
  have hnodup := h.nodup
  rw [List.Nodup, List.pairwise_map] at hnodup
  rw [moved, List.Nodup, List.pairwise_map]
  refine hnodup.imp_of_mem fun {m m'} hm hm' hne heq => hne ?_
  have hproper : ∀ part ∈ d ++ m.1, Proper part :=
    List.forall_mem_append.mpr ⟨hd, ((h.mem m.1 m.2).mp hm).2.1⟩
  have hproper' : ∀ part ∈ d ++ m'.1, Proper part :=
    List.forall_mem_append.mpr ⟨hd, ((h.mem m'.1 m'.2).mp hm').2.1⟩
  exact List.append_cancel_left (absPath_injective hproper hproper' (congrArg Sigma.fst heq))

/-- The listed entries are those at the roots and below them. -/
theorem perm_treeNodes {fs : MemoryFs R} (hkeys : NormalKeys fs) {s roots : List Path}
    (hs : ∀ part ∈ s, Proper part)
    (h : Lists fs.nodes s (InRoots roots) Top ms) : (ms.map (·.2)).Perm (treeNodes fs s roots) := by
  have hentries : (moved s ms).Perm (fs.nodes.entries.filter fun e => e.1.head? = some '/' ∧
      s <+: components e.1 ∧ InRoots roots ((components e.1).drop s.length)) := by
    rw [List.perm_ext_iff_of_nodup (nodup_moved h hs) ((nodup_entries _).filter _)]
    rintro ⟨k, node⟩
    rw [List.mem_filter, decide_eq_true_eq, moved, List.mem_map, ← AList.mem_lookup_iff,
      Option.mem_def]
    constructor
    · rintro ⟨⟨rel, node'⟩, hm, heq⟩
      injection heq with hk hnode
      dsimp only at hk hnode
      subst hk hnode
      obtain ⟨hin, hrel, hlook⟩ := (h.mem rel node').mp hm
      have hproper : ∀ part ∈ s ++ rel, Proper part := List.forall_mem_append.mpr ⟨hs, hrel⟩
      refine ⟨hlook, head_absPath _, ?_⟩
      dsimp only
      rw [components_absPath hproper, List.drop_left]
      exact ⟨List.prefix_append _ _, hin⟩
    · rintro ⟨hlook, hhead, ⟨rel, hsplit⟩, hin⟩
      dsimp only at hlook hhead hsplit hin
      rw [← hsplit, List.drop_left] at hin
      have hthere : k ∈ fs.nodes := by
        rw [← AList.lookup_isSome, hlook]
        rfl
      have hpath : absPath (s ++ rel) = k := by
        rw [hsplit]
        exact absPath_components (hkeys k hthere) hhead
      have hrel : ∀ part ∈ rel, Proper part := by
        intro part hpart
        refine proper_components k part ?_
        rw [← hsplit]
        exact List.mem_append_right _ hpart
      refine ⟨(rel, node), (h.mem rel node).mpr ⟨hin, hrel, ?_⟩, by rw [hpath]⟩
      rw [hpath]
      exact hlook
  have hmap := hentries.map (fun e : Sigma fun _ : Path => FsNode => e.2)
  rw [moved, List.map_map] at hmap
  exact hmap

theorem roomFor_iff {fs target : MemoryFs R} (hkeys : NormalKeys fs) {s roots : List Path}
    (hs : ∀ part ∈ s, Proper part)
    (h : Lists fs.nodes s (InRoots roots) Top ms) :
    RoomFor target ms ↔ HasRoom target (treeNodes fs s roots) := by
  have hperm := perm_treeNodes hkeys hs h
  have hsum := (hperm.map FsNode.size).sum_eq
  rw [List.map_map] at hsum
  rw [RoomFor, HasRoom, ← hperm.length_eq, ← hsum, List.length_map]
  rfl

/-! ## 5. What extracting can do -/

theorem changes_storeContents (path : Path) (c : Bytes) (fs : MemoryFs R) :
    Changes False fs (storeContents path c fs).2 := by
  have hopen : Changes False fs (fs.openFile path .forWriting).2 := by
    cases hnorm : fs.resolve path with
    | error e =>
      have hsame : (fs.openFile path .forWriting).2 = fs := by
        unfold MemoryFs.openFile
        rw [hnorm]
      rw [hsame]
    | ok norm =>
      rw [openFile_forWriting hnorm]
      exact changes_openResolved (MemoryFs.isNormal_resolve hnorm) False.elim
  unfold storeContents
  generalize fs.openFile path .forWriting = opened at hopen
  rcases opened with ⟨e | handle, fs'⟩
  · exact hopen
  · exact (hopen.trans (changes_writeFile handle c fs')).tail (.handles _ _)

/-- What every making of a directory and every store keeps, extracting keeps. -/
theorem tarExtractFrom_keeps {P : MemoryFs R → Prop} {data : Bytes} {baseDir : Path}
    {verbose : Bool} (hmake : ∀ path fs, P fs → P (fs.createDir path).2)
    (hstore : ∀ path c fs, P fs → P (storeContents path c fs).2) {n pos : Nat}
    {x x' : TarExtraction R} (h : tarExtractFrom data baseDir verbose n pos x = some x')
    (hx : P x.fs) : P x'.fs := by
  have hmakeDir : ∀ (y : TarExtraction R) dir text, P y.fs → P (y.makeDir dir text).fs := by
    intro y dir text hy
    unfold TarExtraction.makeDir
    dsimp only
    split
    · exact hmake dir y.fs hy
    · exact hmake dir y.fs hy
  have hparents : ∀ full name (y : TarExtraction R), P y.fs → P (ensureParentDir full name y).fs := by
    intro full name y hy
    unfold ensureParentDir
    dsimp only
    split
    · exact hmakeDir _ _ _ hy
    · exact hy
  have hentry : ∀ entry place (y z : TarExtraction R) next, P y.fs →
      tarExtractEntry data baseDir verbose entry place y = some (next, z) → P z.fs := by
    intro entry place y z next hy hz
    have hreported : P (if verbose = true then y.report (entry.name ++ ['\n']) else y).fs := by
      split
      · exact hy
      · exact hy
    unfold tarExtractEntry at hz
    dsimp only at hz
    split at hz
    · cases hz
      exact hmakeDir _ _ _ hreported
    · rw [Option.map_eq_some_iff] at hz
      obtain ⟨z', hz', heq⟩ := hz
      cases heq
      unfold extractFileEntry at hz'
      dsimp only at hz'
      have hparent := hparents (resolveCwdPath baseDir entry.name) entry.name _ hreported
      split at hz'
      · cases hz'
      · split at hz'
        · cases hz'
          exact hstore _ _ _ hparent
        · cases hz'
          exact hstore _ _ _ hparent
  induction n generalizing pos x with
  | zero => cases h
  | succ n ih =>
    unfold tarExtractFrom at h
    split at h
    · split at h
      · cases h
      · split at h
        · cases h
          exact hx
        · cases h
          exact hx
        · split at h
          · cases h
          · next next y hy =>
            have hP := hentry _ _ _ _ _ hx hy
            split at h
            · exact ih h hP
            · cases h
              exact hP
    · cases h
      exact hx

theorem tarExtractFrom_changes {data : Bytes} {baseDir : Path} {verbose : Bool} {n pos : Nat}
    {x x' : TarExtraction R} (h : tarExtractFrom data baseDir verbose n pos x = some x') :
    Changes False x.fs x'.fs :=
  tarExtractFrom_keeps (P := Changes False x.fs)
    (fun _ _ hfs => hfs.trans (changes_createDir False.elim))
    (fun path c fs hfs => hfs.trans (changes_storeContents path c fs)) h .refl

/-- The entries after a tree was recreated are those before and those of the tree. -/
theorem perm_recreated {fs₀ : MemoryFs R} {source after : Nodes} {s d roots : List Path}
    (hd : EmptyDir fs₀ d)
    (h : Recreates source fs₀.nodes after s d roots) (hlists : Lists source s (InRoots roots) Top ms) :
    after.entries.Perm (fs₀.nodes.entries ++ moved d ms) := by
  have hapart : ∀ e ∈ fs₀.nodes.entries, ∀ e' ∈ moved d ms, e ≠ e' := by
    rintro e he e' he' rfl
    obtain ⟨⟨rel, node⟩, hm, rfl⟩ := List.mem_map.mp he'
    obtain ⟨hin, hrel, -⟩ := (hlists.mem rel node).mp hm
    refine hd.empty rel hin.ne_nil hrel ?_
    exact AList.mem_keys.mpr (List.mem_keys_of_mem he)
  rw [List.perm_ext_iff_of_nodup (nodup_entries _)
    (List.nodup_append.mpr ⟨nodup_entries _, nodup_moved hlists hd.proper, hapart⟩)]
  rintro ⟨k, node⟩
  rw [List.mem_append, ← AList.mem_lookup_iff, ← AList.mem_lookup_iff, Option.mem_def,
    Option.mem_def]
  by_cases hin : ∃ rel, rel ≠ [] ∧ (∀ part ∈ rel, Proper part) ∧ k = absPath (d ++ rel)
  · obtain ⟨rel, hne, hrel, rfl⟩ := hin
    have habsent := AList.lookup_eq_none.mpr (hd.empty rel hne hrel)
    rw [h.inside rel hne hrel, habsent]
    constructor
    · rintro ⟨hroot, hlook⟩
      right
      exact List.mem_map.mpr ⟨(rel, node), (hlists.mem rel node).mpr ⟨hroot, hrel, hlook⟩, rfl⟩
    · rintro (hno | hmem)
      · cases hno
      · obtain ⟨⟨rel', node'⟩, hm, heq⟩ := List.mem_map.mp hmem
        injection heq with hk hnode
        dsimp only at hk hnode
        obtain ⟨hroot, hrel', hlook⟩ := (hlists.mem rel' node').mp hm
        have hsame := List.append_cancel_left
          (absPath_injective (proper_below hd hrel') (proper_below hd hrel) hk)
        subst hsame hnode
        exact ⟨hroot, hlook⟩
  · have hout : ∀ rel, rel ≠ [] → (∀ part ∈ rel, Proper part) → k ≠ absPath (d ++ rel) :=
      fun rel hne hrel heq => hin ⟨rel, hne, hrel, heq⟩
    rw [h.outside k hout]
    constructor
    · intro hlook
      exact .inl hlook
    · rintro (hlook | hmem)
      · exact hlook
      · obtain ⟨⟨rel, node'⟩, hm, heq⟩ := List.mem_map.mp hmem
        injection heq with hk _
        obtain ⟨hroot, hrel, -⟩ := (hlists.mem rel node').mp hm
        exact absurd hk.symm (hout rel hroot.ne_nil hrel)

/-- **A tree is recreated only where there is room for it.** -/
theorem roomFor_of_recreates {fs₀ fs : MemoryFs R} {source : Nodes} {s d roots : List Path}
    (hd : EmptyDir fs₀ d) (hfs : Within fs₀)
    (hchanges : Changes False fs₀ fs) (h : Recreates source fs₀.nodes fs.nodes s d roots)
    (hlists : Lists source s (InRoots roots) Top ms) : RoomFor fs₀ ms := by
  have hafter : Within fs := hchanges.keep (fun _ _ hstep => hstep.within) hfs
  obtain ⟨lost, hlost⟩ := Nat.exists_eq_add_of_le hfs.used
  have hahead : AheadBy lost fs := hchanges.keep (fun _ _ hstep => hstep.aheadBy) hlost
  have hperm := perm_recreated hd h hlists
  have hcount := hperm.length_eq
  have hused := (hperm.map fun e => FsNode.size e.2).sum_eq
  rw [List.length_append, moved, List.length_map] at hcount
  rw [List.map_append, List.sum_append, moved, List.map_map] at hused
  have hinodes := hafter.inodes
  have htotal := hafter.total
  unfold AheadBy at hahead
  unfold Nodes.usedBytes Weighted.total at hahead hlost
  unfold Nodes.count Weighted.count at hinodes
  constructor
  · unfold Nodes.count Weighted.count
    omega
  · have hsum : (ms.map (FsNode.size ∘ Prod.snd)).sum = (ms.map (·.2.size)).sum := rfl
    change (fs.nodes.entries.map fun e => FsNode.size e.2).sum =
      (fs₀.nodes.entries.map fun e => FsNode.size e.2).sum + (ms.map (·.2.size)).sum at hused
    omega

end Wasmsh.Fs

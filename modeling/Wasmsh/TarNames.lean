import Wasmsh.TarRoundTrip

/-!
# The names that an extraction can make

A header has a hundred bytes for a name.  Whatever the name of an entry was, the paths that are
made for it have names that fit into that field, so a tree with a longer name does not come back.
-/

namespace Wasmsh.Fs

open Globs FixedFields LossyUtf8

variable {R : Type}

/-! ## 1. Names that were cut -/

/-- A field that ends inside a character is full. -/
theorem length_cut {name : Path} {xs ys part rest : Bytes} {before : Path} {c : Char}
    (hxs : ((LossyUtf8.encode name).take 100).takeWhile (· ≠ 0) = xs)
    (hname : LossyUtf8.encode name = xs ++ (rest ++ ys))
    (hcut : xs = LossyUtf8.encode before ++ part)
    (hchar : String.utf8EncodeChar c = part ++ rest) (hpart : part ≠ []) (hrest : rest ≠ []) :
    97 ≤ (LossyUtf8.encode before).length ∧ (LossyUtf8.encode before).length ≤ 99 := by
  have hsize := String.length_utf8EncodeChar c
  have hfour := Char.utf8Size_le_four c
  rw [hchar, List.length_append] at hsize
  have hlong := List.length_pos_of_ne_nil hpart
  have hlong' := List.length_pos_of_ne_nil hrest
  have hlen : xs.length = (LossyUtf8.encode before).length + part.length := by
    rw [hcut, List.length_append]
  have hshort : xs.length ≤ 100 := by
    rw [← hxs]
    exact (List.takeWhile_sublist _).length_le.trans (List.length_take_le _ _)
  have hfull : 100 ≤ xs.length := by
    by_contra hless
    obtain ⟨b, rest, rfl⟩ := List.exists_cons_of_ne_nil hrest
    have hb : b ≠ 0 := by
      rintro rfl
      have hzero : c = Char.ofNat 0 := by
        refine zero_mem_encodeChar ?_
        rw [hchar]
        simp
      rw [hzero] at hchar
      have hone := congrArg List.length hchar
      rw [List.length_append] at hone
      have hsingle : (String.utf8EncodeChar (Char.ofNat 0)).length = 1 := by decide
      omega
    have htake : (LossyUtf8.encode name).take 100 =
        xs ++ b :: (rest ++ ys).take (99 - xs.length) := by
      rw [hname, List.take_append, List.take_of_length_le hshort, List.cons_append]
      obtain ⟨k, hk⟩ : ∃ k, 100 - xs.length = k + 1 := ⟨99 - xs.length, by omega⟩
      have hk' : 99 - xs.length = k := by omega
      rw [hk, hk', List.take_succ_cons]
    have hall : ∀ b ∈ xs, decide (b ≠ 0) = true := by
      intro b hmem
      rw [← hxs] at hmem
      have hb := List.mem_takeWhile_imp hmem
      exact hb
    rw [htake, List.takeWhile_append_of_pos hall, List.takeWhile_cons_of_pos (by simpa using hb)]
      at hxs
    have hmore := congrArg List.length hxs
    rw [List.length_append, List.length_cons] at hmore
    omega
  omega

/-- What is kept of a name: a part of it, where it ends or inside its next character. -/
theorem cutName_cases (name : Path) :
    ∃ before, before <+: name ∧ Char.ofNat 0 ∉ before ∧
      (cutName name = before ∧ (LossyUtf8.encode before).length ≤ 100 ∨
        cutName name = before ++ [replacement] ∧ 97 ≤ (LossyUtf8.encode before).length ∧
          (LossyUtf8.encode before).length ≤ 99) := by
  generalize hxs : ((LossyUtf8.encode name).take 100).takeWhile (· ≠ 0) = xs
  have hshort : xs.length ≤ 100 := by
    rw [← hxs]
    exact (List.takeWhile_sublist _).length_le.trans (List.length_take_le _ _)
  have hzero : (0 : UInt8) ∉ xs := by
    intro hmem
    rw [← hxs] at hmem
    simpa using List.mem_takeWhile_imp hmem
  obtain ⟨ys, hsplit⟩ : xs <+: LossyUtf8.encode name := by
    rw [← hxs]
    exact (List.takeWhile_prefix _).trans (List.take_prefix _ _)
  rcases decode_cut hsplit.symm with ⟨before, after, hname, rfl, hread⟩ |
    ⟨before, c, after, part, rest, hname, hcut, hchar, hpart, hrest, hread⟩
  · refine ⟨before, ⟨after, hname.symm⟩, ?_, .inl ⟨?_, hshort⟩⟩
    · exact fun hmem => hzero (zero_mem_encode.mpr hmem)
    · rw [cutName, hxs, hread]
  · have hmore : LossyUtf8.encode name = xs ++ (rest ++ LossyUtf8.encode after) := by
      rw [hname, encode_append, encode_cons, hchar, hcut]
      simp
    refine ⟨before, ⟨c :: after, hname.symm⟩, ?_, .inr ⟨?_, ?_⟩⟩
    · intro hmem
      rw [hcut] at hzero
      exact hzero (List.mem_append_left _ (zero_mem_encode.mpr hmem))
    · rw [cutName, hxs, hread]
    · exact length_cut hxs hmore hcut hchar hpart hrest

/-- **What is kept of a name fits into the field.** -/
theorem fitsHeader_cutName (name : Path) : FitsHeader (cutName name) := by
  have hreplacement : Char.ofNat 0 ∉ [replacement] := by decide
  obtain ⟨before, -, hzero, ⟨heq, hshort⟩ | ⟨heq, hlow, hhigh⟩⟩ := cutName_cases name
  · rw [heq]
    exact ⟨hzero, .inl hshort⟩
  · rw [heq]
    refine ⟨fun hmem => (List.mem_append.mp hmem).elim hzero hreplacement, ?_⟩
    by_cases h : (LossyUtf8.encode before).length = 97
    · left
      rw [encode_append, List.length_append, h]
      decide
    · exact .inr ⟨before, rfl, by omega⟩

theorem FitsHeader.of_start {name start : Path} (h : FitsHeader name) (hstart : start <+: name) :
    FitsHeader start := by
  obtain ⟨hzero, hlen⟩ := h
  refine ⟨fun hmem => hzero (hstart.subset hmem), ?_⟩
  have hshort : ∀ {t : Path}, start <+: t → (LossyUtf8.encode t).length ≤ 100 →
      (LossyUtf8.encode start).length ≤ 100 := by
    rintro t ⟨more, rfl⟩ hlen
    rw [encode_append, List.length_append] at hlen
    omega
  rcases hlen with hlen | ⟨before, rfl, hlen⟩
  · exact .inl (hshort hstart hlen)
  · rcases List.prefix_concat_iff.mp hstart with rfl | hstart
    · exact .inr ⟨before, rfl, hlen⟩
    · exact .inl (hshort hstart (by omega))

/-! ## 2. Paths of names that were cut -/

/-- A part of a path: whole components and a part of the next one. -/
theorem prefix_joinPath {rel : List Path} (h : ∀ part ∈ rel, '/' ∉ part) {q : Path}
    (hq : q <+: joinPath rel ++ ['/']) (hne : q ≠ []) :
    ∃ init last, init <+: rel ∧ '/' ∉ last ∧ q = joinPath init ++ '/' :: last := by
  induction rel generalizing q with
  | nil =>
    rcases List.prefix_concat_iff.mp hq with rfl | hq
    · exact ⟨[], [], List.prefix_refl _, List.not_mem_nil, rfl⟩
    · exact absurd (List.prefix_nil.mp hq) hne
  | cons part rel ih =>
    rw [joinPath_cons, List.append_assoc] at hq
    obtain ⟨rest, hrest⟩ := hq
    rcases List.append_eq_append_iff.mp hrest with ⟨after, hq, -⟩ | ⟨more, rfl, hmore⟩
    · have hq : q <+: '/' :: part := ⟨after, hq.symm⟩
      obtain ⟨c, last, rfl⟩ := List.exists_cons_of_ne_nil hne
      obtain ⟨rfl, hlast⟩ := List.cons_prefix_cons.mp hq
      exact ⟨[], last, List.nil_prefix, fun hmem => h part (.head _) (hlast.subset hmem), rfl⟩
    · have hmore : more <+: joinPath rel ++ ['/'] := ⟨rest, hmore.symm⟩
      by_cases hnil : more = []
      · exact ⟨[], part, List.nil_prefix, h part (.head _), by rw [hnil, List.append_nil]; rfl⟩
      · obtain ⟨init, last, hinit, hlast, rfl⟩ :=
          ih (fun p hp => h p (.tail _ hp)) hmore hnil
        refine ⟨part :: init, last, List.cons_prefix_cons.mpr ⟨rfl, hinit⟩, hlast, ?_⟩
        rw [joinPath_cons, List.append_assoc]

theorem components_joinPath (base : Path) {parts : List Path} (h : ∀ part ∈ parts, Proper part) :
    components (base ++ joinPath parts) = components base ++ parts := by
  induction parts using List.reverseRec with
  | nil => simp [joinPath]
  | append_singleton parts part ih =>
    rw [joinPath_concat, ← List.append_assoc, components_concat _ (h part (by simp)),
      ih fun p hp => h p (List.mem_append_left _ hp), List.append_assoc]

/-- What a last component does. -/
theorem components_last (path : Path) {last : Path} (h : '/' ∉ last) :
    components (path ++ '/' :: last) = components path ∨
      components (path ++ '/' :: last) = (components path).dropLast ∨
      components (path ++ '/' :: last) = components path ++ [last] := by
  have hsplit : (path ++ '/' :: last).splitOn '/' = path.splitOn '/' ++ [last] := by
    rw [List.splitOn_append_cons_self, List.splitOn_eq_singleton h]
  unfold components normalComponents
  rw [hsplit, List.foldl_append, List.foldl_cons, List.foldl_nil]
  split
  · exact .inl rfl
  · split
    · exact .inr (.inl rfl)
    · exact .inr (.inr rfl)

/-- A path above the directory, or below it with names that fit into a header. -/
def FitsBelow (d c : List Path) : Prop :=
  (c <+: d ∨ d <+: c) ∧ ∀ rel, rel ≠ [] → d ++ rel <+: c → FitsHeader (relPath rel)

theorem FitsBelow.of_start {d c c' : List Path} (h : FitsBelow d c) (hc : c' <+: c) :
    FitsBelow d c' := by
  refine ⟨?_, fun rel hne hstart => h.2 rel hne (hstart.trans hc)⟩
  rcases h.1 with habove | hbelow
  · exact .inl (hc.trans habove)
  · exact List.prefix_or_prefix_of_prefix hc hbelow

/-- **The path of a name that was cut.** -/
theorem fitsBelow_cutName {base name : Path} {rel : List Path}
    (hrel : ∀ part ∈ rel, Proper part) (hname : '/' :: name <+: joinPath rel ++ ['/']) :
    (cutName name).head? ≠ some '/' ∧
      FitsBelow (components base) (components (base ++ '/' :: cutName name)) := by
  obtain ⟨init, last, hinit, hlast, heq⟩ : ∃ init last, init <+: rel ∧ '/' ∉ last ∧
      '/' :: cutName name = joinPath init ++ '/' :: last := by
    obtain ⟨before, hbefore, -, hcut⟩ := cutName_cases name
    obtain ⟨init, last, hinit, hlast, heq⟩ := prefix_joinPath (fun p hp => (hrel p hp).2.1)
      ((List.cons_prefix_cons.mpr ⟨rfl, hbefore⟩).trans hname) (List.cons_ne_nil _ _)
    rcases hcut with ⟨hcut, -⟩ | ⟨hcut, -⟩
    · exact ⟨init, last, hinit, hlast, by rw [hcut, heq]⟩
    · refine ⟨init, last ++ [replacement], hinit, ?_, ?_⟩
      · intro hmem
        rcases List.mem_append.mp hmem with hmem | hmem
        · exact hlast hmem
        · exact absurd (List.mem_singleton.mp hmem) (by decide)
      · rw [hcut, ← List.cons_append, heq, List.append_assoc, List.cons_append]
  have hproper : ∀ part ∈ init, Proper part := fun part hpart => hrel part (hinit.subset hpart)
  constructor
  · cases init with
    | nil =>
      injection heq with _ heq
      rw [heq]
      exact fun hhead => hlast (List.mem_of_mem_head? hhead)
    | cons part init =>
      rw [joinPath_cons, List.append_assoc] at heq
      obtain ⟨-, heq⟩ := List.cons_eq_cons.mp heq
      obtain ⟨hne, hslash, -⟩ := hproper part (.head _)
      rw [heq]
      change (part ++ (joinPath init ++ '/' :: last)).head? ≠ _
      rw [List.head?_append_of_ne_nil _ hne]
      exact fun hhead => hslash (List.mem_of_mem_head? hhead)
  · have hfits : ∀ more, more ≠ [] → more <+: init ++ [last] → FitsHeader (relPath more) := by
      intro more hne hmore
      refine (fitsHeader_cutName name).of_start ?_
      obtain ⟨part, more, rfl⟩ := List.exists_cons_of_ne_nil hne
      have hjoin : joinPath (part :: more) <+: '/' :: cutName name := by
        rw [heq, ← joinPath_concat]
        obtain ⟨rest, hrest⟩ := hmore
        rw [← hrest, joinPath_append]
        exact List.prefix_append _ _
      exact (List.cons_prefix_cons.mp hjoin).2
    have hdrop : FitsBelow (components base) (components base ++ (init ++ [last])) :=
      ⟨.inr (List.prefix_append _ _),
        fun more hne hmore => hfits more hne ((List.prefix_append_right_inj _).mp hmore)⟩
    have hbase := components_joinPath base hproper
    rw [heq, ← List.append_assoc]
    rcases components_last (base ++ joinPath init) hlast with hlast | hlast | hlast
    · rw [hlast, hbase]
      refine hdrop.of_start ?_
      rw [← List.append_assoc]
      exact List.prefix_append _ _
    · rw [hlast, hbase]
      refine hdrop.of_start ((List.dropLast_prefix _).trans ?_)
      rw [← List.append_assoc]
      exact List.prefix_append _ _
    · rw [hlast, hbase, List.append_assoc]
      exact hdrop

/-! ## 3. What extracting makes -/

/-- The directory is there, and everything below it is a file or a directory whose name fits into a
    header. -/
structure Fitting (d : List Path) (nodes : Nodes) : Prop where
  proper : ∀ part ∈ d, Proper part
  dir : ∀ above, above <+: d → nodes.lookup (absPath above) = some .dir
  fits : ∀ rel, rel ≠ [] → (∀ part ∈ rel, Proper part) → absPath (d ++ rel) ∈ nodes →
    FitsHeader (relPath rel)
  noLink : ∀ rel, rel ≠ [] → (∀ part ∈ rel, Proper part) → ∀ target,
    nodes.lookup (absPath (d ++ rel)) ≠ some (.symlink target)

theorem EmptyDir.fitting {fs : MemoryFs R} {d : List Path} (h : EmptyDir fs d) :
    Fitting d fs.nodes := by
  refine ⟨h.proper, h.dir, fun rel hne hrel hthere => absurd hthere (h.empty rel hne hrel), ?_⟩
  intro rel hne hrel target heq
  rw [AList.lookup_eq_none.mpr (h.empty rel hne hrel)] at heq
  cases heq

section

variable {d c : List Path} {fs : MemoryFs R} {nodes nodes' : Nodes}

/-- What a step may change: it adds directories and files along a path. -/
theorem Fitting.step (h : Fitting d nodes) (hc : ∀ part ∈ c, Proper part) (hfits : FitsBelow d c)
    (hstep : ∀ k, nodes'.lookup k = nodes.lookup k ∨
      (k ∉ nodes ∧ nodes'.lookup k = some .dir ∨
        (k ∈ nodes → ∃ old, nodes.lookup k = some (.file old)) ∧
          ∃ new, nodes'.lookup k = some (.file new)) ∧
        ∃ start, start <+: c ∧ k = absPath start) : Fitting d nodes' := by
  have hbelow : ∀ rel, rel ≠ [] → (∀ part ∈ rel, Proper part) → ∀ start, start <+: c →
      absPath (d ++ rel) = absPath start → FitsHeader (relPath rel) := by
    intro rel hne hrel start hstart heq
    have hsame := absPath_injective (List.forall_mem_append.mpr ⟨h.proper, hrel⟩)
      (fun part hpart => hc part (hstart.subset hpart)) heq
    refine hfits.2 rel hne ?_
    rw [hsame]
    exact hstart
  constructor
  · exact h.proper
  · intro above habove
    rcases hstep (absPath above) with heq | ⟨⟨habsent, -⟩ | ⟨hfile, -⟩, -⟩
    · rw [heq, h.dir above habove]
    · exact absurd (mem_of_lookup (h.dir above habove)) habsent
    · obtain ⟨old, hold⟩ := hfile (mem_of_lookup (h.dir above habove))
      rw [h.dir above habove] at hold
      cases hold
  · intro rel hne hrel hthere
    rcases hstep (absPath (d ++ rel)) with heq | ⟨-, start, hstart, heq⟩
    · rw [← AList.lookup_isSome, heq, AList.lookup_isSome] at hthere
      exact h.fits rel hne hrel hthere
    · exact hbelow rel hne hrel start hstart heq
  · intro rel hne hrel target
    rcases hstep (absPath (d ++ rel)) with heq | ⟨⟨-, hdir⟩ | ⟨-, new, hfile⟩, -⟩
    · rw [heq]
      exact h.noLink rel hne hrel target
    · rw [hdir]
      simp
    · rw [hfile]
      simp

/-- The paths that making an entry can change. -/
theorem along_createNode (hc : ∀ part ∈ c, Proper part) {node : FsNode}
    (habsent : absPath c ∉ nodes) {k : Path}
    (h : (createNode (absPath c) node nodes).2.lookup k ≠ nodes.lookup k) :
    k ∉ nodes ∧ ∃ start, start <+: c ∧ k = absPath start := by
  obtain ⟨hk, hnot⟩ := changed_createNode habsent h
  refine ⟨hnot, ?_⟩
  rcases List.mem_append.mp hk with hk | hk
  · obtain ⟨start, hne, hstart, rfl⟩ := (mem_parentPaths_absPath hc k).mp hk
    exact ⟨start, hstart.trans (List.dropLast_prefix _), (absPath_of_ne_nil hne).symm⟩
  · exact ⟨c, List.prefix_refl _, List.mem_singleton.mp hk⟩

theorem Fitting.createDir (h : Fitting d fs.nodes) (hc : ∀ part ∈ c, Proper part)
    (hfits : FitsBelow d c) : Fitting d (fs.createDir (absPath c)).2.nodes := by
  have hnormal : normalizePath (absPath c) = absPath c := isNormal_absPath hc
  unfold MemoryFs.createDir
  rw [hnormal]
  dsimp only
  split
  · exact h
  · next habsent =>
    refine h.step hc hfits fun k => ?_
    by_cases hsame : (createNode (absPath c) .dir fs.nodes).2.lookup k = fs.nodes.lookup k
    · exact .inl hsame
    · obtain ⟨hnot, halong⟩ := along_createNode hc habsent hsame
      refine .inr ⟨.inl ⟨hnot, ?_⟩, halong⟩
      rcases lookup_createNode (absPath c) k .dir fs.nodes with heq | ⟨-, hdir⟩ | ⟨hok, rfl⟩
      · exact absurd heq hsame
      · exact hdir
      · exact lookup_createNode_self hok

theorem Fitting.storeContents (h : Fitting d fs.nodes) (hc : ∀ part ∈ c, Proper part)
    (hfits : FitsBelow d c) (data : Bytes) :
    Fitting d (storeContents (absPath c) data fs).2.nodes := by
  have hnorm : fs.resolve (absPath c) = .ok (absPath c) := by
    refine resolve_absPath hc fun target heq => ?_
    rcases hfits.1 with habove | ⟨rel, rfl⟩
    · rw [h.dir c habove] at heq
      cases heq
    · by_cases hne : rel = []
      · rw [hne, List.append_nil, h.dir d (List.prefix_refl _)] at heq
        cases heq
      · exact h.noLink rel hne (fun part hpart => hc part (List.mem_append_right _ hpart)) target heq
  by_cases hopened : ∃ norm c', Opens fs (absPath c) norm ∧ fs.nodes.lookup norm = some (.file c')
  · obtain ⟨norm, old, hopens, hfile⟩ := hopened
    cases hnorm.symm.trans hopens.1
    refine h.step hc hfits fun k => ?_
    rw [lookup_store_opened data k hopens hfile]
    split
    · next hk =>
      subst hk
      exact .inr ⟨.inr ⟨fun _ => ⟨old, hfile⟩, ⟨_, rfl⟩⟩, c, List.prefix_refl _, rfl⟩
    · exact .inl rfl
  · by_cases hthere : absPath c ∈ fs.nodes
    · rw [storeContents_refused data hopened fun norm hnorm' => by
        cases hnorm.symm.trans hnorm'
        exact hthere]
      exact h
    · refine h.step hc hfits fun k => ?_
      rcases lookup_store_created data k hnorm (AList.lookup_eq_none.mpr hthere) with
        heq | ⟨rfl, hfile, -⟩
      · rw [heq]
        by_cases hsame : (createNode (absPath c) (.file []) fs.nodes).2.lookup k = fs.nodes.lookup k
        · exact .inl hsame
        · obtain ⟨hnot, halong⟩ := along_createNode hc hthere hsame
          refine .inr ⟨?_, halong⟩
          rcases lookup_createNode (absPath c) k (.file []) fs.nodes with
            heq | ⟨-, hdir⟩ | ⟨hok, rfl⟩
          · exact absurd heq hsame
          · exact .inl ⟨hnot, hdir⟩
          · exact .inr ⟨fun hmem => absurd hmem hnot, [], lookup_createNode_self hok⟩
      · exact .inr ⟨.inr ⟨fun hmem => absurd hmem hthere, hfile⟩, c, List.prefix_refl _, rfl⟩

end

/-! ## 4. All entries -/

section

variable {d c : List Path} {data : Bytes} {baseDir : Path} {verbose : Bool} {n pos : Nat}
  {x x' : TarExtraction R}

theorem Fitting.makeDir (h : Fitting d x.fs.nodes) (hc : ∀ part ∈ c, Proper part)
    (hfits : FitsBelow d c) (text : Path) : Fitting d (x.makeDir (absPath c) text).fs.nodes := by
  have hmade := h.createDir hc hfits
  unfold TarExtraction.makeDir
  dsimp only
  split
  · exact hmade
  · exact hmade

theorem Fitting.ensureParentDir (h : Fitting d x.fs.nodes) (hc : ∀ part ∈ c, Proper part)
    (hfits : FitsBelow d c) (name : Path) :
    Fitting d (ensureParentDir (absPath c) name x).fs.nodes := by
  unfold Fs.ensureParentDir
  dsimp only
  split
  · next hparent =>
    rcases List.eq_nil_or_concat' c with rfl | ⟨init, last, rfl⟩
    · exact absurd hparent (by simp [absPath, beforeLastSlash, splitLastSlash])
    · have hlast : '/' ∉ last := (hc last (by simp)).2.1
      rw [absPath_of_ne_nil (List.concat_ne_nil _ _), joinPath_concat, beforeLastSlash_concat _ hlast]
        at hparent ⊢
      have hinit : init ≠ [] := by
        rintro rfl
        simp [joinPath] at hparent
      rw [← absPath_of_ne_nil hinit]
      exact h.makeDir (fun part hpart => hc part (List.mem_append_left _ hpart))
        (hfits.of_start (List.prefix_append _ _)) _
  · exact h

/-- Extracting an entry of an archived tree. -/
theorem Fitting.extractEntry (h : Fitting d x.fs.nodes) (habs : baseDir.head? = some '/')
    (hbase : components baseDir = d) {entry : TarEntry} {name : Path} {rel : List Path}
    (hrel : ∀ part ∈ rel, Proper part) (hname : '/' :: name <+: joinPath rel ++ ['/'])
    (hentry : entry.name = cutName name) {place next : Nat}
    (hx' : tarExtractEntry data baseDir verbose entry place x = some (next, x')) :
    Fitting d x'.fs.nodes := by
  obtain ⟨hhead, hfits⟩ := @fitsBelow_cutName baseDir name rel hrel hname
  rw [← hentry] at hhead hfits
  rw [hbase] at hfits
  have hfull : resolveCwdPath baseDir entry.name =
      absPath (components (baseDir ++ '/' :: entry.name)) := by
    have habs' : (baseDir ++ '/' :: entry.name).head? = some '/' := by
      rw [List.head?_append_of_ne_nil _ (by rintro rfl; cases habs), habs]
    rw [resolveCwdPath, if_neg hhead, normalizePath_eq, if_pos habs']
  have hproper := proper_components (baseDir ++ '/' :: entry.name)
  have hreported : Fitting d
      (if verbose = true then x.report (entry.name ++ ['\n']) else x).fs.nodes := by
    split
    · exact h
    · exact h
  unfold tarExtractEntry at hx'
  dsimp only at hx'
  rw [hfull] at hx'
  split at hx'
  · cases hx'
    exact hreported.makeDir hproper hfits _
  · rw [Option.map_eq_some_iff] at hx'
    obtain ⟨y, hy, heq⟩ := hx'
    cases heq
    have hparent := hreported.ensureParentDir hproper hfits entry.name
    unfold extractFileEntry at hy
    dsimp only at hy
    split at hy
    · cases hy
    · next contents _ =>
      have hstored := hparent.storeContents hproper hfits contents
      split at hy
      · cases hy
        exact hstored
      · cases hy
        exact hstored

end

/-- No file with contents is read as a directory: where its name is cut, it is not cut after a
    slash. -/
def NoMisread (ms : List Member) : Prop :=
  ∀ rel c, (rel, FsNode.file c) ∈ ms → c ≠ [] → (cutName (relPath rel)).getLast? ≠ some '/'

section

variable {nodes : Nodes} {s : List Path} {P : List Path → Prop} {ms : List Member}

/-- The header of an entry, and where extracting goes on after it. -/
theorem member_there (h : Archived nodes s P ms) (hmis : NoMisread ms) {done todo : List Member}
    {m : Member} (hms : ms = done ++ m :: todo) : ∃ size name,
      ¬ EndsAt (archiveOf ms) (done.flatMap memberBlocks).length ∧
      headerSize (field (done.flatMap memberBlocks).length tarBlockSize (archiveOf ms)) =
        some size ∧
      (entryAt (archiveOf ms) (done.flatMap memberBlocks).length size).name = cutName name ∧
      '/' :: name <+: joinPath m.1 ++ ['/'] ∧
      nextExtracted (archiveOf ms) (done.flatMap memberBlocks).length size =
        ((done ++ [m]).flatMap memberBlocks).length := by
  obtain ⟨rel, node⟩ := m
  have hm : (rel, node) ∈ ms := by
    rw [hms]
    simp
  have hready := h.ready [] hms
  obtain ⟨part, rest, rfl⟩ := List.exists_cons_of_ne_nil hready.ne
  have hdata : archiveOf ms = done.flatMap memberBlocks ++ (memberBlocks (part :: rest, node) ++
      (todo.flatMap memberBlocks ++ List.replicate (tarBlockSize * 2) 0)) := by
    rw [archiveOf, hms, List.flatMap_append, List.flatMap_cons]
    simp only [List.append_assoc]
  have hlen : ((done ++ [(part :: rest, node)]).flatMap memberBlocks).length =
      (done.flatMap memberBlocks).length + (memberBlocks (part :: rest, node)).length := by
    rw [List.flatMap_append, List.length_append]
    simp
  have hslash : '/' :: relPath (part :: rest) = joinPath (part :: rest) := rfl
  cases node with
  | symlink target => exact absurd rfl (h.noLink _ hm target)
  | dir =>
    obtain ⟨hnot, hsize, hentry⟩ := header_there (by decide) hdata
    refine ⟨0, relPath (part :: rest) ++ ['/'], hnot, hsize, ?_, ?_, ?_⟩
    · rw [hentry]
    · rw [← hslash]
      exact List.prefix_refl _
    · have hdir : (entryAt (archiveOf ms) (done.flatMap memberBlocks).length 0).isDir = true := by
        rw [hentry, TarEntry.isDir, beq_self_eq_true]
        rfl
      rw [nextExtracted, if_pos hdir, hlen, memberBlocks, length_makeTarHeader]
  | file c =>
    have hsmall : c.length < 8 ^ 11 := Nat.lt_of_le_of_lt (h.small _ hm) (by decide)
    rw [memberBlocks, List.append_assoc] at hdata
    obtain ⟨hnot, hsize, hentry⟩ := header_there hsmall hdata
    refine ⟨c.length, relPath (part :: rest), hnot, hsize, ?_, ?_, ?_⟩
    · rw [hentry]
    · rw [hslash]
      exact List.prefix_append _ _
    · rw [hlen, memberBlocks, List.length_append, length_makeTarHeader, length_tarContents,
        nextExtracted, hentry]
      split
      · next hdir =>
        have hempty : c = [] := by
          by_contra hne
          refine hmis (part :: rest) c hm hne ?_
          simpa [TarEntry.isDir, fileFlag, dirFlag] using hdir
        rw [hempty]
        rfl
      · rw [← Nat.add_assoc]
        rfl

/-- **Extracting an archived tree makes only names that fit into a header.** -/
theorem fitting_run (h : Archived nodes s P ms) (hmis : NoMisread ms) {d : List Path}
    {baseDir : Path} {verbose : Bool} (habs : baseDir.head? = some '/')
    (hbase : components baseDir = d) {done todo : List Member} (hms : ms = done ++ todo) {n : Nat}
    {x x' : TarExtraction R} (hx : Fitting d x.fs.nodes)
    (hrun : tarExtractFrom (archiveOf ms) baseDir verbose n (done.flatMap memberBlocks).length x =
      some x') : Fitting d x'.fs.nodes := by
  induction todo generalizing done n x with
  | nil =>
    rw [List.append_nil] at hms
    subst hms
    cases n with
    | zero => cases hrun
    | succ n =>
      rw [tarExtractFrom_end (archive_ends ms)] at hrun
      cases hrun
      exact hx
  | cons m todo ih =>
    cases n with
    | zero => cases hrun
    | succ n =>
      obtain ⟨size, name, hnot, hsize, hentry, hname, hnext⟩ := member_there h hmis hms
      obtain ⟨y, hy, -, -⟩ := @tarExtractEntry_spec R (archiveOf ms) baseDir verbose
        ((done.flatMap memberBlocks).length + tarBlockSize)
        (entryAt (archiveOf ms) (done.flatMap memberBlocks).length size) x
        (Nat.le_of_not_lt (not_or.mp hnot).1)
      have hfitting := hx.extractEntry habs hbase (h.ready [] hms).proper hname hentry hy
      rw [tarExtractFrom_step hnot hsize hy] at hrun
      split at hrun
      · change tarExtractFrom _ _ _ n (nextExtracted (archiveOf ms) _ size) _ = _ at hrun
        rw [hnext] at hrun
        refine ih ?_ ?_ hrun
        · rw [hms]
          simp
        · exact hfitting
      · cases hrun
        exact hfitting

end

/-! ## 5. The round trip -/

/-- Trees at operands below a directory: directories and files that may be read. -/
structure Trees (fs : MemoryFs R) (s roots : List Path) : Prop where
  proper : ∀ r ∈ roots, Proper r
  nodup : roots.Nodup
  there : ∀ r ∈ roots, absPath (s ++ [r]) ∈ fs.nodes
  isTree : ∀ r ∈ roots, IsTree fs (s ++ [r])
  mayRead : ∀ rel, (∀ part ∈ rel, Proper part) → ∀ c,
    fs.nodes.lookup (absPath (s ++ rel)) = some (.file c) → InRoots roots rel →
      MayRead fs (absPath (s ++ rel))

/-- Every name of the trees fits into a header. -/
def NamesFit (fs : MemoryFs R) (s roots : List Path) : Prop :=
  ∀ rel, InRoots roots rel → (∀ part ∈ rel, Proper part) → absPath (s ++ rel) ∈ fs.nodes →
    FitsHeader (relPath rel)

/-- No file of the trees that is not empty has a name that is cut after a slash: its contents would
    be read as headers. -/
def FilesReadAsFiles (fs : MemoryFs R) (s roots : List Path) : Prop :=
  ∀ rel c, InRoots roots rel → (∀ part ∈ rel, Proper part) →
    fs.nodes.lookup (absPath (s ++ rel)) = some (.file c) → c ≠ [] →
      (cutName (relPath rel)).getLast? ≠ some '/'

section

variable {source target : Session R} {baseDir dest : Path} {roots : List Path}
  {drain : R → Except String Bytes} {verbose verbose' : Bool}

/-- Paths are not longer than some number of components. -/
theorem exists_depth (nodes : Nodes) : ∃ n, ∀ k ∈ nodes, (components k).length < n := by
  refine ⟨(nodes.keys.map fun k => (components k).length).sum + 1, fun k hk => ?_⟩
  have hmem : (components k).length ∈ nodes.keys.map fun k => (components k).length :=
    List.mem_map.mpr ⟨k, AList.mem_keys.mp hk, rfl⟩
  exact Nat.lt_succ_of_le (List.le_sum_of_mem hmem)

/-- **Trees are written**, whatever the depth of the walk, if it is large enough. -/
theorem tarCreate_trees (hs : source.Reachable) (habs : baseDir.head? = some '/')
    (h : Trees source.fs (components baseDir) roots) : ∃ n, ∀ depth, n ≤ depth →
      (tarCreate drain verbose [] depth roots baseDir source.fs).1 = 0 ∧ ∃ ms,
        (tarCreate drain verbose [] depth roots baseDir source.fs).2.data = archiveOf ms ∧
          Archived source.fs.nodes (components baseDir) (InRoots roots) ms := by
  have hbase := proper_components baseDir
  obtain ⟨n, hn⟩ := exists_depth source.fs.nodes
  refine ⟨n, fun depth hdepth => ?_⟩
  have hreadable : ∀ r ∈ roots,
      ReadableTree source.fs (components baseDir ++ [r]) depth := by
    refine fun r hr => ⟨h.isTree r hr, ?_, ?_⟩
    · intro rest hrest c hfile
      rw [List.append_assoc] at hfile ⊢
      refine h.mayRead ([r] ++ rest) ?_ c hfile ⟨r, hr, List.prefix_append _ _⟩
      exact List.forall_mem_append.mpr ⟨by simpa using h.proper r hr, hrest⟩
    · intro rest hrest hthere
      have hproper : ∀ part ∈ components baseDir ++ [r] ++ rest, Proper part :=
        List.forall_mem_append.mpr ⟨List.forall_mem_append.mpr
          ⟨hbase, by simpa using h.proper r hr⟩, hrest⟩
      have hlen := hn _ hthere
      rw [components_absPath hproper, List.length_append] at hlen
      omega
  obtain ⟨hok, ms, hdata, hlists⟩ :=
    tarCreate_spec habs hs.normalKeys h.proper h.nodup h.there hreadable
  refine ⟨hok, ms, hdata, hlists, fun rel hin => hin.ne_nil, ?_, ?_⟩
  · rintro ⟨rel, node⟩ hm target heq
    obtain ⟨⟨r, hr, rest, rfl⟩, hproper, hlook⟩ := (hlists.mem rel node).mp hm
    rw [← List.append_assoc] at hlook
    exact ((h.isTree r hr).regular rest
      (fun part hpart => hproper part (List.mem_append_right _ hpart)) node hlook).1 target heq
  · rintro ⟨rel, node⟩ hm
    obtain ⟨-, -, hlook⟩ := (hlists.mem rel node).mp hm
    cases node with
    | file c => exact hs.within.file _ c hlook
    | dir => exact Nat.zero_le _
    | symlink t => exact Nat.zero_le _

theorem namesFit_iff {s : List Path} {ms : List Member} {fs : MemoryFs R}
    (h : Archived fs.nodes s (InRoots roots) ms) :
    NamesFit fs s roots ↔ ∀ m ∈ ms, FitsHeader (relPath m.1) := by
  constructor
  · rintro hfit ⟨rel, node⟩ hm
    obtain ⟨hin, hproper, hlook⟩ := (h.lists.mem rel node).mp hm
    exact hfit rel hin hproper (mem_of_lookup hlook)
  · intro hfit rel hin hproper hthere
    obtain ⟨node, hnode⟩ := Option.isSome_iff_exists.mp (AList.lookup_isSome.mpr hthere)
    exact hfit (rel, node) ((h.lists.mem rel node).mpr ⟨hin, hproper, hnode⟩)

/-- **Trees whose names fit are recreated where there is room.** -/
theorem recreates_of_fit {s ms} {fs : MemoryFs R} (hkeys : NormalKeys fs)
    (h : Archived fs.nodes s (InRoots roots) ms) (hs : ∀ part ∈ s, Proper part)
    (hdest : dest.head? = some '/') (hempty : EmptyDir target.fs (components dest))
    (hfit : NamesFit fs s roots) (hroom : HasRoom target.fs (treeNodes fs s roots)) :
    ∃ x, tarExtract (archiveOf ms) dest verbose' target.fs = some x ∧ x.stop = none ∧
      Recreates fs.nodes target.fs.nodes x.fs.nodes s (components dest) roots := by
  have hroom' := (roomFor_iff hkeys hs h.lists).mpr hroom
  obtain ⟨x, hx, hstop, hextracted⟩ := @extract_run R fs.nodes s (InRoots roots) ms h target.fs
    (components dest) dest verbose' hdest rfl hempty ((namesFit_iff h).mp hfit) hroom' [] ms rfl
    ((archiveOf ms).length + 1) (by simp) ⟨target.fs, [], [], none⟩ hempty.extracted rfl
  exact ⟨x, hx, hstop, recreates_of_extracted hextracted h.lists⟩

/-- **Trees that are recreated have names that fit**, and there was room for them. -/
theorem fit_of_recreates {s ms} {fs : MemoryFs R} (ht : target.Reachable) (hkeys : NormalKeys fs)
    (h : Archived fs.nodes s (InRoots roots) ms) (hs : ∀ part ∈ s, Proper part)
    (hdest : dest.head? = some '/') (hempty : EmptyDir target.fs (components dest))
    {x : TarExtraction R}
    (hx : tarExtract (archiveOf ms) dest verbose' target.fs = some x)
    (hrecreates : Recreates fs.nodes target.fs.nodes x.fs.nodes s (components dest) roots) :
    HasRoom target.fs (treeNodes fs s roots) ∧
      (FilesReadAsFiles fs s roots → NamesFit fs s roots) := by
  constructor
  · exact (roomFor_iff hkeys hs h.lists).mp (roomFor_of_recreates hempty ht.within
      (tarExtractFrom_changes hx) hrecreates h.lists)
  · intro hfiles rel hin hproper hthere
    have hmis : NoMisread ms := by
      intro rel c hm
      obtain ⟨hin, hproper, hlook⟩ := (h.lists.mem rel _).mp hm
      exact hfiles rel c hin hproper hlook
    have hfitting := @fitting_run R fs.nodes s (InRoots roots) ms h hmis (components dest) dest
      verbose' hdest rfl [] ms rfl ((archiveOf ms).length + 1) ⟨target.fs, [], [], none⟩ x
      hempty.fitting hx
    obtain ⟨node, hnode⟩ := Option.isSome_iff_exists.mp (AList.lookup_isSome.mpr hthere)
    refine hfitting.fits rel hin.ne_nil hproper ?_
    exact mem_of_lookup ((hrecreates.inside rel hin.ne_nil hproper node).mpr ⟨hin, hnode⟩)

/-- **The round trip of an archive.**  Trees that were written come back exactly below an empty
    directory if their names fit into headers and the filesystem has room for them, and, where no
    contents are read as headers, only then.  An archive that `tar -t` reads to its end and whose
    files can be stored is extracted as it is listed exactly if no directory in it has a size that
    only one of the two skips. -/
theorem tar_round_trip_iff (hs : source.Reachable) (ht : target.Reachable)
    (habs : baseDir.head? = some '/') (htrees : Trees source.fs (components baseDir) roots)
    (hdest : dest.head? = some '/') (hempty : EmptyDir target.fs (components dest)) :
    (∃ n, ∀ depth, n ≤ depth →
      (tarCreate drain verbose [] depth roots baseDir source.fs).1 = 0 ∧
      ∃ x, tarExtract (tarCreate drain verbose [] depth roots baseDir source.fs).2.data dest
          verbose' target.fs = some x ∧
        (NamesFit source.fs (components baseDir) roots ∧
            HasRoom target.fs (treeNodes source.fs (components baseDir) roots) →
          x.stop = none ∧ Recreates source.fs.nodes target.fs.nodes x.fs.nodes
            (components baseDir) (components dest) roots) ∧
        (Recreates source.fs.nodes target.fs.nodes x.fs.nodes (components baseDir)
            (components dest) roots →
          HasRoom target.fs (treeNodes source.fs (components baseDir) roots) ∧
            (FilesReadAsFiles source.fs (components baseDir) roots →
              NamesFit source.fs (components baseDir) roots))) ∧
    ∀ data, ∃ l, tarList data = some l ∧ ∀ (fs : MemoryFs R) (base : Path) (v : Bool),
      ∃ x, tarExtract data base v fs = some x ∧ (l.status = 0 → x.stop ≠ some .notWritten →
        (x.stop = none ∧ x.entries = l.entries ↔ SizedDirsEnd data 0)) := by
  have hbase := proper_components baseDir
  constructor
  · obtain ⟨n, hn⟩ := @tarCreate_trees R source baseDir roots drain verbose hs habs htrees
    refine ⟨n, fun depth hdepth => ?_⟩
    obtain ⟨hok, ms, hdata, harchived⟩ := hn depth hdepth
    rw [hdata]
    obtain ⟨x, -, hx, -⟩ := @tarExtractFrom_ends R (archiveOf ms) dest verbose'
      ((archiveOf ms).length + 1) 0 ⟨target.fs, [], [], none⟩ (by omega) (by omega) rfl
    refine ⟨hok, x, hx, fun hfit => ?_, fun hrecreates => ?_⟩
    · obtain ⟨y, hy, hstop, hrecreates⟩ := @recreates_of_fit R target dest roots verbose'
        (components baseDir) ms source.fs hs.normalKeys harchived hbase hdest hempty hfit.1 hfit.2
      cases hx.symm.trans hy
      exact ⟨hstop, hrecreates⟩
    · exact fit_of_recreates ht hs.normalKeys harchived hbase hdest hempty hx hrecreates
  · intro data
    obtain ⟨l, -, hl, -, -, -⟩ := @tarListFrom_ends data (data.length + 1) 0 [] (by omega) (by omega)
    refine ⟨l, hl, fun fs base v => ?_⟩
    obtain ⟨x, -, hx, -⟩ := @tarExtractFrom_ends R data base v (data.length + 1) 0
      ⟨fs, [], [], none⟩ (by omega) (by omega) rfl
    refine ⟨x, hx, fun hstatus hwritten => ?_⟩
    exact extracted_listed_iff (by omega) (by omega) (by omega) (by omega) rfl hl hstatus hx hwritten

end

/-- A file with this name and an empty directory. -/
def fileAndDir (name : Path) : Session Unit :=
  ((Session.new.step (.openFile ('/' :: name) .forWriting)).2.step (.createDir "/out".toList)).2

theorem fileAndDir_reachable (name : Path) : (fileAndDir name).Reachable := .step _ (.step _ .new)

/-- A path with these components is one of the keys. -/
theorem mem_components_keys {nodes : Nodes} {p : List Path} (hp : ∀ part ∈ p, Proper part)
    (h : absPath p ∈ nodes) : p ∈ nodes.keys.map components := by
  rw [← components_absPath hp]
  exact List.mem_map_of_mem (AList.mem_keys.mp h)

/-- An entry of a tree that can be read. -/
def TreeEntry (fs : MemoryFs R) (p : List Path) : Prop :=
  fs.virtualReaders.lookup (absPath p) = none ∧ MayRead fs (absPath p) ∧
    (fs.nodes.lookup (absPath p) = some .dir ∨
      ∃ c ∈ fs.nodes.entries.map (·.2), fs.nodes.lookup (absPath p) = some c ∧ ¬ c.isSymlink) ∧
    (1 < p.length → fs.nodes.lookup (absPath p.dropLast) = some .dir)

instance (fs : MemoryFs R) (p : List Path) : Decidable (TreeEntry fs p) :=
  inferInstanceAs (Decidable (_ ∧ _ ∧ _ ∧ _))

section

variable {fs : MemoryFs R} {out : Path} {roots : List Path}

/-- The trees, from the paths of all entries. -/
theorem trees_of_keys (hproper : ∀ r ∈ roots, Proper r) (hnodup : roots.Nodup)
    (hthere : ∀ r ∈ roots, absPath [r] ∈ fs.nodes)
    (h : ∀ p ∈ fs.nodes.keys.map components, InRoots roots p → TreeEntry fs p) :
    Trees fs [] roots := by
  have hentry : ∀ {p : List Path}, (∀ part ∈ p, Proper part) → InRoots roots p →
      absPath p ∈ fs.nodes → TreeEntry fs p := fun hp hin hmem =>
    h _ (mem_components_keys hp hmem) hin
  refine ⟨hproper, hnodup, hthere, fun r hr => ⟨?_, ?_⟩, ?_⟩
  · intro rest hrest node hnode
    have hp := hentry (List.forall_mem_cons.mpr ⟨hproper r hr, hrest⟩) ⟨r, hr, rest, rfl⟩
      (mem_of_lookup hnode)
    refine ⟨?_, hp.1⟩
    rintro target rfl
    have hnot := hp.2.2.1
    rw [show fs.nodes.lookup (absPath (r :: rest)) = _ from hnode] at hnot
    rcases hnot with hdir | ⟨c, -, hc, hregular⟩
    · cases hdir
    · cases hc
      exact hregular rfl
  · intro rest last hrest hlast hmem
    have hparts : ∀ part ∈ r :: (rest ++ [last]), Proper part :=
      List.forall_mem_cons.mpr ⟨hproper r hr, List.forall_mem_append.mpr
        ⟨hrest, by simpa using hlast⟩⟩
    have hdir := (hentry hparts ⟨r, hr, rest ++ [last], rfl⟩ hmem).2.2.2 (by simp)
    rwa [← List.cons_append, List.dropLast_concat] at hdir
  · intro rel hrel c hlook hin
    exact (hentry hrel hin (mem_of_lookup hlook)).2.1

theorem emptyDir_of_keys (hout : Proper out)
    (hroot : fs.nodes.lookup (absPath []) = some .dir)
    (hdir : fs.nodes.lookup (absPath [out]) = some .dir)
    (h : ∀ p ∈ fs.nodes.keys.map components, p.head? = some out → p = [out]) :
    EmptyDir fs [out] := by
  refine ⟨by simpa using hout, fun above habove => ?_, fun rel hrel hproper hthere => ?_⟩
  · rcases List.prefix_concat_iff.mp (show above <+: [] ++ [out] from habove) with rfl | hnil
    · exact hdir
    · rw [List.prefix_nil.mp hnil]
      exact hroot
  · have hmem := mem_components_keys (List.forall_mem_cons.mpr ⟨hout, hproper⟩) hthere
    exact hrel (List.cons.inj (h _ hmem rfl)).2

end

/-- A directory with a file that is not empty, and an empty directory. -/
def dirAndDir : Session Unit :=
  ((((Session.new.step (.createDir "/d".toList)).2.step
    (.openFile "/d/f".toList .forWriting)).2.step (.writeFile 1 [0x61])).2.step
      (.createDir "/out".toList)).2

/-- A directory with a file comes back. -/
theorem tar_round_trip_short : ∃ n, ∀ depth, n ≤ depth →
    ∃ x, tarExtract (tarCreate (fun _ => .error "") false [] depth ["d".toList] ['/']
        dirAndDir.fs).2.data "/out".toList false dirAndDir.fs = some x ∧ x.stop = none ∧
      x.fs.nodes.lookup "/out/d/f".toList = some (.file [0x61]) := by
  have hreach : dirAndDir.Reachable := .step _ (.step _ (.step _ (.step _ .new)))
  obtain ⟨n, hn⟩ := (@tar_round_trip_iff Unit dirAndDir dirAndDir ['/'] "/out".toList ["d".toList]
    (fun _ => .error "") false false hreach hreach rfl
    (trees_of_keys (by decide) (by decide) (by decide +kernel) (by decide +kernel)) rfl
    (emptyDir_of_keys (by decide) (by decide +kernel) (by decide +kernel) (by decide +kernel))).1
  refine ⟨n, fun depth hdepth => ?_⟩
  obtain ⟨-, x, hx, hfit, -⟩ := hn depth hdepth
  have hnames : NamesFit dirAndDir.fs (components ['/']) ["d".toList] := by
    intro rel hin hproper hthere
    have hfits : ∀ p ∈ dirAndDir.fs.nodes.keys.map components, InRoots ["d".toList] p →
        Char.ofNat 0 ∉ relPath p ∧ (LossyUtf8.encode (relPath p)).length ≤ 100 := by decide +kernel
    have hrel := hfits rel (mem_components_keys hproper hthere) hin
    exact ⟨hrel.1, .inl hrel.2⟩
  obtain ⟨hstop, hrecreates⟩ := hfit ⟨hnames, by decide +kernel, by decide +kernel⟩
  exact ⟨x, hx, hstop, (hrecreates.inside ["d".toList, "f".toList] (by decide) (by decide) _).mpr
    ⟨by decide, by decide +kernel⟩⟩

/-- A name of a hundred and one bytes. -/
def longName : Path := List.replicate 101 'a'

/-- The file with the long name does not come back. -/
theorem long_name_lost : ¬ ∀ (source target : Session Unit) (baseDir dest : Path)
    (roots : List Path), source.Reachable → target.Reachable → baseDir.head? = some '/' →
    Trees source.fs (components baseDir) roots → dest.head? = some '/' →
    EmptyDir target.fs (components dest) → ∃ n, ∀ depth, n ≤ depth → ∀ x,
      tarExtract (tarCreate (fun _ => .error "") false [] depth roots baseDir source.fs).2.data dest
        false target.fs = some x →
      Recreates source.fs.nodes target.fs.nodes x.fs.nodes (components baseDir) (components dest)
        roots := by
  intro hall
  have htrees : Trees (fileAndDir longName).fs (components ['/']) [longName] :=
    trees_of_keys (by decide +kernel) (by decide) (by decide +kernel) (by decide +kernel)
  have hempty : EmptyDir (fileAndDir longName).fs (components "/out".toList) :=
    emptyDir_of_keys (by decide) (by decide +kernel) (by decide +kernel) (by decide +kernel)
  obtain ⟨n, hn⟩ := hall _ _ ['/'] "/out".toList [longName] (fileAndDir_reachable longName)
    (fileAndDir_reachable longName) rfl htrees rfl hempty
  obtain ⟨n', hn'⟩ := @tarCreate_trees Unit (fileAndDir longName) ['/'] [longName]
    (fun _ => .error "") false (fileAndDir_reachable _) rfl htrees
  obtain ⟨-, ms, hdata, harchived⟩ := hn' (max n n') (Nat.le_max_right _ _)
  obtain ⟨x, -, hx, -⟩ := @tarExtractFrom_ends Unit (archiveOf ms) "/out".toList false
    ((archiveOf ms).length + 1) 0 ⟨(fileAndDir longName).fs, [], [], none⟩ (by omega) (by omega) rfl
  have hrecreates := hn (max n n') (Nat.le_max_left _ _) x (by rw [hdata]; exact hx)
  have hfit := (fit_of_recreates (fileAndDir_reachable longName)
    (fileAndDir_reachable longName).normalKeys harchived (proper_components _) rfl hempty hx
    hrecreates).2
  have hfiles : FilesReadAsFiles (fileAndDir longName).fs (components ['/']) [longName] := by
    intro rel c hin hproper hlook hne
    have hfile : ∀ p ∈ (fileAndDir longName).fs.nodes.keys.map components, InRoots [longName] p →
        (fileAndDir longName).fs.nodes.lookup (absPath p) = some (.file []) := by decide +kernel
    cases (hfile rel (mem_components_keys hproper (mem_of_lookup hlook)) hin).symm.trans hlook
    exact absurd rfl hne
  have hlong := hfit hfiles [longName] ⟨longName, List.mem_singleton.mpr rfl, List.prefix_refl _⟩
    (by decide +kernel) (by decide +kernel)
  rcases hlong.2 with hshort | ⟨before, heq, -⟩
  · exact absurd hshort (by decide +kernel)
  · have hlast := congrArg List.getLast? heq
    rw [List.getLast?_concat] at hlast
    exact absurd hlast (by decide +kernel)

end Wasmsh.Fs

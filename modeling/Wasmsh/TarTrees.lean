import Wasmsh.FsListing
import Wasmsh.FsLimits
import Wasmsh.Tar

/-!
# The round trip of a tree through `tar`

What `tar -c` writes for directories and files that stand below a directory are their entries,
each directory before what is in it; `tar -x` makes the same entries below another directory
where the names fit into the headers and the filesystem has room.
-/

namespace Wasmsh.Fs

open Globs FixedFields

variable {R : Type}

/-! ## 1. Trees -/

/-- All that is at a path and below it are directories and files without a reader, and each
    stands in a directory. -/
structure IsTree (fs : MemoryFs R) (p : List Path) : Prop where
  regular : ∀ rest, (∀ part ∈ rest, Proper part) → ∀ node,
    fs.nodes.lookup (absPath (p ++ rest)) = some node →
      (∀ target, node ≠ .symlink target) ∧ fs.virtualReaders.lookup (absPath (p ++ rest)) = none
  inDir : ∀ rest name, (∀ part ∈ rest, Proper part) → Proper name →
    absPath (p ++ rest ++ [name]) ∈ fs.nodes → fs.nodes.lookup (absPath (p ++ rest)) = some .dir

/-- Everything above an entry of a tree is a directory. -/
theorem IsTree.dir_above {fs : MemoryFs R} {p : List Path} (h : IsTree fs p) {rest more : List Path}
    (hrest : ∀ part ∈ rest, Proper part) (hmore : ∀ part ∈ more, Proper part) (hne : more ≠ [])
    (hthere : absPath (p ++ rest ++ more) ∈ fs.nodes) :
    fs.nodes.lookup (absPath (p ++ rest)) = some .dir := by
  induction more using List.reverseRec with
  | nil => exact absurd rfl hne
  | append_singleton more name ih =>
    have hname : Proper name := hmore name (by simp)
    have hmore' : ∀ part ∈ more, Proper part := fun part hpart =>
      hmore part (List.mem_append_left _ hpart)
    have hproper : ∀ part ∈ rest ++ more, Proper part := by
      intro part hpart
      rcases List.mem_append.mp hpart with hpart | hpart
      · exact hrest part hpart
      · exact hmore' part hpart
    rw [← List.append_assoc, List.append_assoc p] at hthere
    have hdir := h.inDir (rest ++ more) name hproper hname hthere
    by_cases hnil : more = []
    · rw [hnil, List.append_nil] at hdir
      exact hdir
    · refine ih hmore' hnil ?_
      rw [List.append_assoc, ← AList.lookup_isSome, hdir]
      rfl

theorem IsTree.child {fs : MemoryFs R} {p : List Path} (h : IsTree fs p) {name : Path}
    (hname : Proper name) : IsTree fs (p ++ [name]) := by
  have hcons : ∀ rest : List Path, (∀ part ∈ rest, Proper part) →
      ∀ part ∈ name :: rest, Proper part := fun rest hrest =>
    List.forall_mem_cons.mpr ⟨hname, hrest⟩
  constructor
  · intro rest hrest node
    rw [List.append_assoc, List.singleton_append]
    exact h.regular (name :: rest) (hcons rest hrest) node
  · intro rest last hrest hlast
    rw [List.append_assoc p, List.singleton_append]
    exact h.inDir (name :: rest) last (hcons rest hrest) hlast

/-- An entry of a tree: its components below the base directory and what it is. -/
abbrev Member := List Path × FsNode

/-- The entries below a base directory that satisfy `P`, each once, and each after the directory
    that it stands in, except those at the top. -/
structure Lists (nodes : Nodes) (s : List Path) (P Top : List Path → Prop) (ms : List Member) :
    Prop where
  mem : ∀ rel node, (rel, node) ∈ ms ↔
    P rel ∧ (∀ part ∈ rel, Proper part) ∧ nodes.lookup (absPath (s ++ rel)) = some node
  nodup : (ms.map Prod.fst).Nodup
  ordered : ∀ before m after, ms = before ++ m :: after →
    Top m.1 ∨ (m.1.dropLast, FsNode.dir) ∈ before

section

variable {nodes : Nodes} {s : List Path} {P Q Top : List Path → Prop} {ms ms' : List Member}

theorem Lists.nil (h : ∀ rel, ¬ P rel) : Lists nodes s P Top [] := by
  refine ⟨fun rel node => ⟨fun hmem => absurd hmem List.not_mem_nil, fun hall => ?_⟩,
    List.nodup_nil, fun before m after heq => ?_⟩
  · exact absurd hall.1 (h rel)
  · simp at heq

theorem Lists.append (h : Lists nodes s P Top ms) (h' : Lists nodes s Q Top ms')
    (hdisjoint : ∀ rel, P rel → ¬ Q rel) :
    Lists nodes s (fun rel => P rel ∨ Q rel) Top (ms ++ ms') := by
  constructor
  · intro rel node
    rw [List.mem_append, h.mem, h'.mem, ← or_and_right]
  · rw [List.map_append, List.nodup_append]
    refine ⟨h.nodup, h'.nodup, ?_⟩
    rintro rel hrel _ hrel' rfl
    obtain ⟨⟨_, node⟩, hmem, rfl⟩ := List.mem_map.mp hrel
    obtain ⟨⟨_, node'⟩, hmem', heq⟩ := List.mem_map.mp hrel'
    dsimp only at heq
    subst heq
    exact hdisjoint _ ((h.mem _ _).mp hmem).1 ((h'.mem _ _).mp hmem').1
  · intro before m after heq
    rcases List.append_eq_append_iff.mp heq with ⟨more, rfl, hmore⟩ | ⟨more, hms, hmore⟩
    · rcases h'.ordered more m after hmore with htop | hmem
      · exact .inl htop
      · exact .inr (List.mem_append_right _ hmem)
    · cases more with
      | nil =>
        rw [List.append_nil] at hms
        rw [List.nil_append] at hmore
        rcases h'.ordered [] m after hmore.symm with htop | hmem
        · exact .inl htop
        · cases hmem
      | cons m' more =>
        rw [List.cons_append] at hmore
        injection hmore with hm hafter
        subst hm
        exact h.ordered before m more hms

/-- A directory before what is in it. -/
theorem Lists.cons_dir {rel : List Path} {names : List Path}
    (h : Lists nodes s (fun rel' => ∃ name ∈ names, rel ++ [name] <+: rel')
      (fun rel' => rel'.dropLast = rel) ms) (hrel : ∀ part ∈ rel, Proper part)
    (hdir : nodes.lookup (absPath (s ++ rel)) = some .dir)
    (hnames : ∀ name rest, (∀ part ∈ rel ++ name :: rest, Proper part) →
      absPath (s ++ (rel ++ name :: rest)) ∈ nodes → name ∈ names) :
    Lists nodes s (rel <+: ·) (· = rel) ((rel, .dir) :: ms) := by
  constructor
  · intro rel' node
    rw [List.mem_cons, Prod.mk.injEq, h.mem]
    constructor
    · rintro (⟨rfl, rfl⟩ | ⟨⟨name, -, hstart⟩, hall, hnode⟩)
      · exact ⟨List.prefix_refl _, hrel, hdir⟩
      · exact ⟨(List.prefix_append rel [name]).trans hstart, hall, hnode⟩
    · rintro ⟨⟨rest, rfl⟩, hall, hnode⟩
      cases rest with
      | nil =>
        rw [List.append_nil] at hnode ⊢
        cases hdir.symm.trans hnode
        exact .inl ⟨rfl, rfl⟩
      | cons name rest =>
        right
        refine ⟨⟨name, hnames name rest hall ?_, rest, by simp⟩, hall, hnode⟩
        rw [← AList.lookup_isSome, hnode]
        rfl
  · rw [List.map_cons, List.nodup_cons]
    refine ⟨fun hmem => ?_, h.nodup⟩
    obtain ⟨⟨rel', node⟩, hin, heq⟩ := List.mem_map.mp hmem
    dsimp only at heq
    subst heq
    obtain ⟨name, -, hstart⟩ := ((h.mem _ _).mp hin).1
    have hlen := hstart.length_le
    rw [List.length_append, List.length_singleton] at hlen
    omega
  · intro before m after heq
    cases before with
    | nil =>
      injection heq with hm
      exact .inl (by rw [← hm])
    | cons first before =>
      injection heq with hfirst hrest
      right
      rcases h.ordered before m after hrest with htop | hmem
      · rw [htop, ← hfirst]
        exact List.mem_cons_self
      · exact List.mem_cons_of_mem _ hmem

theorem Lists.congr (h : Lists nodes s P Top ms) (hiff : ∀ rel, P rel ↔ Q rel) :
    Lists nodes s Q Top ms := by
  refine ⟨fun rel node => ?_, h.nodup, h.ordered⟩
  rw [h.mem, hiff]

end

/-! ## 2. Paths -/

/-- A name below a path. -/
theorem dirPrefix_absPath {parts : List Path} (h : ∀ part ∈ parts, Proper part) (name : Path) :
    MemoryFs.dirPrefix (absPath parts) ++ name = absPath (parts ++ [name]) := by
  have hdot : absPath parts ≠ ['.'] := by
    intro heq
    have hhead := head_absPath parts
    rw [heq] at hhead
    simp at hhead
  rw [← entryPath_absPath h, entryPath, if_neg hdot]

theorem childPath_absPath {parts : List Path} (h : ∀ part ∈ parts, Proper part) (name : Path) :
    childPath (absPath parts) name = absPath (parts ++ [name]) := by
  rw [← dirPrefix_absPath h, MemoryFs.dirPrefix, childPath]
  split
  · rfl
  · simp

theorem relPath_concat {rel : List Path} (hne : rel ≠ []) (name : Path) :
    relPath (rel ++ [name]) = relPath rel ++ '/' :: name := by
  cases rel with
  | nil => exact absurd rfl hne
  | cons part rel => rw [List.cons_append, relPath, relPath, joinPath_concat, List.append_assoc]

theorem components_below (base : Path) {rel : List Path} (hne : rel ≠ [])
    (h : ∀ part ∈ rel, Proper part) :
    components (base ++ '/' :: relPath rel) = components base ++ rel := by
  induction rel using List.reverseRec with
  | nil => exact absurd rfl hne
  | append_singleton rel name ih =>
    have hname : Proper name := h name (by simp)
    by_cases hnil : rel = []
    · subst hnil
      rw [List.nil_append, relPath]
      change components (base ++ '/' :: (name ++ [])) = _
      rw [List.append_nil, components_concat base hname]
    · have hbelow : base ++ '/' :: relPath (rel ++ [name]) =
          (base ++ '/' :: relPath rel) ++ '/' :: name := by
        rw [relPath_concat hnil, List.append_assoc, List.cons_append]
      rw [hbelow, components_concat _ hname,
        ih hnil fun part hpart => h part (List.mem_append_left _ hpart), List.append_assoc]

/-- A slash at the end makes no component. -/
theorem components_slash (path : Path) : components (path ++ ['/']) = components path := by
  unfold components normalComponents
  rw [List.splitOn_append_cons_self, List.foldl_append]
  simp [List.splitOn]

/-- The path of a name below a base directory. -/
theorem resolveCwdPath_relPath {base : Path} (habs : base.head? = some '/') {rel : List Path}
    (hne : rel ≠ []) (h : ∀ part ∈ rel, Proper part) :
    resolveCwdPath base (relPath rel) = absPath (components base ++ rel) ∧
      resolveCwdPath base (relPath rel ++ ['/']) = absPath (components base ++ rel) := by
  have hbase : ∀ path, (base ++ '/' :: path).head? = some '/' := by
    intro path
    rw [List.head?_append_of_ne_nil _ (by rintro rfl; cases habs), habs]
  have hhead := head_relPath h
  constructor
  · rw [resolveCwdPath, if_neg hhead, normalizePath_eq, if_pos (hbase _), components_below base hne h]
  · have hhead' : (relPath rel ++ ['/']).head? ≠ some '/' := by
      cases hrel : relPath rel with
      | nil =>
        obtain ⟨part, rest, rfl⟩ := List.exists_cons_of_ne_nil hne
        have hpart := (h part (.head _)).1
        rw [relPath, List.append_eq_nil_iff] at hrel
        exact absurd hrel.1 hpart
      | cons c cs =>
        rw [hrel] at hhead
        exact hhead
    have hslash : base ++ '/' :: (relPath rel ++ ['/']) = (base ++ '/' :: relPath rel) ++ ['/'] := by
      simp
    rw [resolveCwdPath, if_neg hhead', normalizePath_eq, if_pos (hbase _), hslash, components_slash,
      components_below base hne h]

theorem getLast_relPath {rel : List Path} (hne : rel ≠ []) (h : ∀ part ∈ rel, Proper part) :
    (relPath rel).getLast? ≠ some '/' := by
  obtain ⟨init, last, rfl⟩ := List.eq_nil_or_concat'  rel |>.resolve_left hne
  have hlast : Proper last := h last (by simp)
  intro heq
  have hmem : '/' ∈ last := by
    by_cases hnil : init = []
    · subst hnil
      rw [List.nil_append, relPath] at heq
      change (last ++ []).getLast? = some '/' at heq
      rw [List.append_nil] at heq
      exact List.mem_of_getLast? heq
    · rw [relPath_concat hnil, List.getLast?_append_of_ne_nil _ (List.cons_ne_nil _ _)] at heq
      obtain ⟨c, cs, hcs⟩ := List.exists_cons_of_ne_nil hlast.1
      rw [List.getLast?_cons_of_ne_nil hlast.1] at heq
      exact List.mem_of_getLast? heq
  exact hlast.2.1 hmem

/-- A path without a link leads to itself. -/
theorem resolve_absPath {fs : MemoryFs R} {parts : List Path} (h : ∀ part ∈ parts, Proper part)
    (hlink : ∀ target, fs.nodes.lookup (absPath parts) ≠ some (.symlink target)) :
    fs.resolve (absPath parts) = .ok (absPath parts) := by
  have hnormal : normalizePath (absPath parts) = absPath parts := isNormal_absPath h
  have hone : maxSymlinkDepth = 39 + 1 := rfl
  rw [MemoryFs.resolve, hnormal, hone, resolveNormalized]
  split
  · next target heq => exact absurd heq (hlink target)
  · rfl

/-! ## 3. What is written -/

/-- The blocks of an entry. -/
def memberBlocks (m : Member) : Bytes :=
  match m.2 with
  | .dir => makeTarHeader (relPath m.1 ++ ['/']) 0 dirFlag
  | .file c => makeTarHeader (relPath m.1) c.length fileFlag ++ tarContents c
  | .symlink _ => []

/-- Reading leaves the entries as they are. -/
def SameTree (fs fs' : MemoryFs R) : Prop :=
  fs'.nodes = fs.nodes ∧ fs'.virtualReaders = fs.virtualReaders

theorem IsTree.same {fs fs' : MemoryFs R} {p : List Path} (h : IsTree fs p)
    (hsame : SameTree fs fs') : IsTree fs' p := by
  obtain ⟨hnodes, hreaders⟩ := hsame
  constructor
  · rw [hnodes, hreaders]
    exact h.regular
  · rw [hnodes]
    exact h.inDir

/-- Reading leaves the permissions as they are, too. -/
def SameFiles (fs fs' : MemoryFs R) : Prop := SameTree fs fs' ∧ fs'.modes = fs.modes

/-- A file that may be read. -/
def MayRead (fs : MemoryFs R) (path : Path) : Prop := fs.modeOf path false &&& 0o400 ≠ 0

instance (fs : MemoryFs R) (path : Path) : Decidable (MayRead fs path) :=
  inferInstanceAs (Decidable (_ ≠ _))

theorem SameTree.trans {fs fs' fs'' : MemoryFs R} (h : SameTree fs fs') (h' : SameTree fs' fs'') :
    SameTree fs fs'' := ⟨h'.1.trans h.1, h'.2.trans h.2⟩

theorem SameFiles.trans {fs fs' fs'' : MemoryFs R} (h : SameFiles fs fs') (h' : SameFiles fs' fs'') :
    SameFiles fs fs'' := ⟨h.1.trans h'.1, h'.2.trans h.2⟩

/-- A tree of a known depth whose files may be read. -/
structure ReadableTree (fs : MemoryFs R) (p : List Path) (n : Nat) : Prop where
  isTree : IsTree fs p
  mayRead : ∀ rest, (∀ part ∈ rest, Proper part) → ∀ c,
    fs.nodes.lookup (absPath (p ++ rest)) = some (.file c) → MayRead fs (absPath (p ++ rest))
  shallow : ∀ rest, (∀ part ∈ rest, Proper part) → absPath (p ++ rest) ∈ fs.nodes →
    rest.length < n

theorem ReadableTree.same {fs fs' : MemoryFs R} {p : List Path} {n : Nat} (h : ReadableTree fs p n)
    (hsame : SameFiles fs fs') : ReadableTree fs' p n := by
  refine ⟨h.isTree.same hsame.1, ?_, ?_⟩
  · intro rest hrest c
    have hmay := h.mayRead rest hrest c
    unfold MayRead MemoryFs.modeOf at hmay ⊢
    rw [hsame.1.1, hsame.2]
    exact hmay
  · rw [hsame.1.1]
    exact h.shallow

theorem ReadableTree.child {fs : MemoryFs R} {p : List Path} {n : Nat}
    (h : ReadableTree fs p (n + 1)) {name : Path} (hname : Proper name) :
    ReadableTree fs (p ++ [name]) n := by
  have hcons : ∀ rest : List Path, (∀ part ∈ rest, Proper part) →
      ∀ part ∈ name :: rest, Proper part := fun rest hrest =>
    List.forall_mem_cons.mpr ⟨hname, hrest⟩
  refine ⟨h.isTree.child hname, fun rest hrest c => ?_, fun rest hrest hthere => ?_⟩
  · rw [List.append_assoc, List.singleton_append]
    exact h.mayRead (name :: rest) (hcons rest hrest) c
  · rw [List.append_assoc, List.singleton_append] at hthere
    exact Nat.lt_of_succ_lt_succ (h.shallow (name :: rest) (hcons rest hrest) hthere)

/-- The blocks of entries were written. -/
def Writes (s : List Path) (P Top : List Path → Prop) (w : TarWriting R)
    (out : Int × TarWriting R) : Prop :=
  out.1 = 0 ∧ SameFiles w.fs out.2.fs ∧ ∃ ms, out.2.data = w.data ++ ms.flatMap memberBlocks ∧
    Lists w.fs.nodes s P Top ms

theorem Writes.trans {s : List Path} {P Q Top : List Path → Prop} {w : TarWriting R}
    {out out' : Int × TarWriting R} (h : Writes s P Top w out) (h' : Writes s Q Top out.2 out')
    (hdisjoint : ∀ rel, P rel → ¬ Q rel) : Writes s (fun rel => P rel ∨ Q rel) Top w out' := by
  obtain ⟨-, hsame, ms, hdata, hlists⟩ := h
  obtain ⟨hzero, hsame', ms', hdata', hlists'⟩ := h'
  refine ⟨hzero, hsame.trans hsame', ms ++ ms', ?_, ?_⟩
  · rw [hdata', hdata, List.flatMap_append, List.append_assoc]
  · rw [hsame.1.1] at hlists'
    exact hlists.append hlists' hdisjoint

theorem Writes.top {s : List Path} {P Top Top' : List Path → Prop} {w : TarWriting R}
    {out : Int × TarWriting R} (h : Writes s P Top w out) (htop : ∀ rel, Top rel → Top' rel) :
    Writes s P Top' w out := by
  obtain ⟨hzero, hsame, ms, hdata, hlists⟩ := h
  refine ⟨hzero, hsame, ms, hdata, hlists.mem, hlists.nodup, fun before m after heq => ?_⟩
  exact (hlists.ordered before m after heq).imp_left (htop m.1)

theorem openReader_ok {fs : MemoryFs R} {path : Path} {c : Bytes}
    (hnorm : fs.resolve path = .ok path) (hfile : fs.nodes.lookup path = some (.file c))
    (hreader : fs.virtualReaders.lookup path = none) (hmode : MayRead fs path) :
    ∃ fs', openReader path fs = (.ok (.inl c), fs') ∧ SameFiles fs fs' := by
  unfold openReader
  rw [openFile_forReading hnorm hfile hreader, if_neg hmode]
  refine ⟨(fs.addHandle (.path path) .forReading).2.close fs.nextHandle, ?_, ⟨rfl, rfl⟩, rfl⟩
  unfold MemoryFs.addHandle MemoryFs.streamFile
  dsimp only
  rw [AList.lookup_insert]
  dsimp only
  rw [hfile]
  rfl

section

variable {drain : R → Except String Bytes} {verbose : Bool} {s : List Path} {rel : List Path}
  {w : TarWriting R}

@[simp] theorem TarWriting.reportIf_fs (w : TarWriting R) (b : Bool) (text : Path) :
    (w.reportIf b text).fs = w.fs := by
  cases b <;> rfl

@[simp] theorem TarWriting.reportIf_data (w : TarWriting R) (b : Bool) (text : Path) :
    (w.reportIf b text).data = w.data := by
  cases b <;> rfl

theorem tarAddFile_spec (hs : ∀ part ∈ s, Proper part) (hrel : ∀ part ∈ rel, Proper part) {n : Nat}
    (h : ReadableTree w.fs (s ++ rel) n) {c : Bytes}
    (hfile : w.fs.nodes.lookup (absPath (s ++ rel)) = some (.file c)) :
    Writes s (rel <+: ·) (· = rel) w
      (tarAddFile drain verbose (absPath (s ++ rel)) (relPath rel) w) := by
  have hproper : ∀ part ∈ s ++ rel, Proper part := List.forall_mem_append.mpr ⟨hs, hrel⟩
  have hreader := (h.isTree.regular [] (List.forall_mem_nil _) (.file c)
    (by rw [List.append_nil, hfile])).2
  have hmay := h.mayRead [] (List.forall_mem_nil _) c (by rw [List.append_nil, hfile])
  rw [List.append_nil] at hreader hmay
  have hnorm := resolve_absPath hproper fun target => by rw [hfile]; simp
  obtain ⟨fs', hopen, hsame⟩ := openReader_ok hnorm hfile hreader hmay
  unfold tarAddFile
  rw [hopen]
  refine ⟨rfl, by simpa [readAll, TarWriting.write] using hsame, [(rel, .file c)], ?_, ?_⟩
  · simp [readAll, TarWriting.write, memberBlocks]
  · constructor
    · intro rel' node
      rw [List.mem_singleton, Prod.mk.injEq]
      constructor
      · rintro ⟨rfl, rfl⟩
        exact ⟨List.prefix_refl _, hrel, hfile⟩
      · rintro ⟨⟨rest, rfl⟩, hall, hnode⟩
        by_cases hnil : rest = []
        · subst hnil
          rw [List.append_nil] at hnode ⊢
          cases hfile.symm.trans hnode
          exact ⟨rfl, rfl⟩
        · have hthere : absPath (s ++ rel ++ [] ++ rest) ∈ w.fs.nodes := by
            rw [List.append_nil, List.append_assoc, ← AList.lookup_isSome, hnode]
            rfl
          have hdir := h.isTree.dir_above (List.forall_mem_nil _)
            (fun part hpart => hall part (List.mem_append_right _ hpart)) hnil hthere
          rw [List.append_nil, hfile] at hdir
          cases hdir
    · simp
    · intro before m after heq
      left
      have hm : m ∈ [(rel, FsNode.file c)] := by
        rw [heq]
        simp
      rw [List.mem_singleton.mp hm]

/-- Operands or entries that are added one after the other. -/
theorem tarAddAll_spec {α : Type} {add : α → TarWriting R → Int × TarWriting R} {fs : MemoryFs R}
    {P : α → List Path → Prop} {Top : List Path → Prop} {as : List α}
    (hadd : ∀ a ∈ as, ∀ w, SameFiles fs w.fs → Writes s (P a) Top w (add a w))
    (hdisjoint : as.Pairwise fun a b => ∀ rel, P a rel → ¬ P b rel) (hw : SameFiles fs w.fs) :
    Writes s (fun rel => ∃ a ∈ as, P a rel) Top w (tarAddAll add as w) := by
  induction as generalizing w with
  | nil =>
    refine ⟨rfl, ⟨⟨rfl, rfl⟩, rfl⟩, [], by simp [tarAddAll], Lists.nil ?_⟩
    rintro rel ⟨a, ha, -⟩
    cases ha
  | cons a as ih =>
    obtain ⟨hfirst, hrest⟩ := List.pairwise_cons.mp hdisjoint
    have hone := hadd a (.head _) w hw
    have hmore := ih (fun b hb => hadd b (.tail _ hb)) hrest (hw.trans hone.2.1)
    have hboth := hone.trans hmore fun rel hP => by
      rintro ⟨b, hb, hQ⟩
      exact hfirst b hb rel hP hQ
    unfold tarAddAll
    dsimp only
    rw [if_pos hone.1]
    obtain ⟨hzero, hsame, ms, hdata, hlists⟩ := hboth
    refine ⟨hzero, hsame, ms, hdata, hlists.congr fun rel => ?_⟩
    simp

theorem dirEntry_isDir {fs : MemoryFs R} {before key : Path} {node : FsNode}
    {e : MemoryFs.DirEntry} (h : fs.dirEntry before key node = some e)
    (hlink : ∀ target, node ≠ .symlink target) : e.isDir = true ↔ node = .dir := by
  unfold MemoryFs.dirEntry at h
  split at h
  · dsimp only at h
    split at h
    · cases h
      cases node with
      | file contents => simp
      | dir => simp
      | symlink target => exact absurd rfl (hlink target)
    · cases h
  · cases h

/-- The entries that are listed for a directory of a tree. -/
theorem readDir_tree {fs : MemoryFs R} (hkeys : NormalKeys fs) {p : List Path}
    (hp : ∀ part ∈ p, Proper part) (htree : IsTree fs p)
    (hdir : fs.nodes.lookup (absPath p) = some .dir) {entries : List MemoryFs.DirEntry}
    (h : fs.readDir (absPath p) = .ok entries) :
    (∀ e ∈ entries, Proper e.name ∧ ∃ node, fs.nodes.lookup (absPath (p ++ [e.name])) = some node ∧
      (e.isDir = true ↔ node = .dir)) ∧ (entries.map (·.name)).Nodup ∧
      ∀ name, Proper name → absPath (p ++ [name]) ∈ fs.nodes → ∃ e ∈ entries, e.name = name := by
  obtain ⟨norm, hnorm, -, hperm⟩ := readDir_ok h
  rw [resolve_absPath hp fun target => by rw [hdir]; simp] at hnorm
  cases hnorm
  have hraw : ∀ e ∈ rawEntries fs (absPath p), Proper e.name := fun e he => proper_rawEntries hkeys he
  refine ⟨fun e he => ?_, ?_, fun name hname hthere => ?_⟩
  · have hmem := hperm.mem_iff.mp he
    refine ⟨hraw e hmem, ?_⟩
    obtain ⟨⟨key, node⟩, hnode, hentry⟩ := List.mem_filterMap.mp hmem
    have hkey := (dirEntry_eq_some hentry).1
    dsimp only at hkey hentry
    rw [dirPrefix_absPath hp] at hkey
    have hlookup : fs.nodes.lookup (absPath (p ++ [e.name])) = some node := by
      rw [← hkey]
      exact AList.mem_lookup_iff.mpr hnode
    refine ⟨node, hlookup, dirEntry_isDir hentry ?_⟩
    exact (htree.regular [e.name] (by simpa using hraw e hmem) node hlookup).1
  · have hnames : ((rawEntries fs (absPath p)).map (·.name)).Nodup := by
      rw [List.nodup_iff_count_le_one]
      intro name
      by_cases hmem : name ∈ (rawEntries fs (absPath p)).map (·.name)
      · obtain ⟨e, he, rfl⟩ := List.mem_map.mp hmem
        obtain ⟨hne, hslash, -⟩ := hraw e he
        have hcount := @count_rawEntries R fs (absPath p) e.name hslash hne
        have hkey := List.nodup_iff_count_le_one.mp fs.nodes.keys_nodup
          (MemoryFs.dirPrefix (absPath p) ++ e.name)
        rw [← hcount, ← List.countP_eq_length_filter] at hkey
        rw [List.count, List.countP_map]
        refine Nat.le_trans (Nat.le_of_eq (List.countP_congr fun e' _ => ?_)) hkey
        simp
      · rw [List.count_eq_zero_of_not_mem hmem]
        exact Nat.zero_le 1
    exact (hperm.map _).nodup_iff.mpr hnames
  · obtain ⟨node, hnode⟩ := Option.isSome_iff_exists.mp (AList.lookup_isSome.mpr hthere)
    have hlink : linkAt fs.nodes (MemoryFs.dirPrefix (absPath p) ++ name) = some node.isSymlink := by
      rw [linkAt, dirPrefix_absPath hp, hnode]
      rfl
    obtain ⟨e, he, heq, -⟩ := (mem_rawEntries hname.2.1 hname.1).mpr hlink
    exact ⟨e, hperm.mem_iff.mpr he, heq⟩

theorem tarAddDir_spec (hs : ∀ part ∈ s, Proper part) (hkeys : NormalKeys w.fs) {n : Nat}
    (hne : rel ≠ []) (hrel : ∀ part ∈ rel, Proper part) (h : ReadableTree w.fs (s ++ rel) n)
    (hdir : w.fs.nodes.lookup (absPath (s ++ rel)) = some .dir) :
    Writes s (rel <+: ·) (· = rel) w
      (tarAddDir drain verbose [] n (absPath (s ++ rel)) (relPath rel) w) := by
  induction n generalizing rel w with
  | zero =>
    have hno := h.shallow [] (List.forall_mem_nil _) (by
      rw [List.append_nil]
      exact mem_of_lookup hdir)
    exact absurd hno (Nat.not_lt_zero _)
  | succ n ih =>
    have hproper : ∀ part ∈ s ++ rel, Proper part := List.forall_mem_append.mpr ⟨hs, hrel⟩
    have hlast := getLast_relPath hne hrel
    have hnorm := resolve_absPath hproper fun target => by rw [hdir]; simp
    unfold tarAddDir
    dsimp only
    rw [if_neg hlast]
    generalize hstart : (w.reportIf verbose (relPath rel ++ ['/'] ++ ['\n'])).write
      (makeTarHeader (relPath rel ++ ['/']) 0 dirFlag) = start
    have hfs : start.fs = w.fs := by
      rw [← hstart, TarWriting.write, TarWriting.reportIf_fs]
    have hdata : start.data = w.data ++ makeTarHeader (relPath rel ++ ['/']) 0 dirFlag := by
      rw [← hstart, TarWriting.write, TarWriting.reportIf_data]
    cases hread : start.fs.readDir (absPath (s ++ rel)) with
    | error e =>
      rw [hfs, MemoryFs.readDir, hnorm] at hread
      dsimp only at hread
      rw [hdir] at hread
      cases hread
    | ok entries =>
      dsimp only
      rw [hfs] at hread
      obtain ⟨hentries, hnodup, hall⟩ := readDir_tree hkeys hproper h.isTree hdir hread
      have hname : ∀ e : MemoryFs.DirEntry, relPath rel ++ ['/'] ++ e.name =
          relPath (rel ++ [e.name]) := by
        intro e
        rw [relPath_concat hne, List.append_assoc]
        rfl
      have hchild : ∀ e : MemoryFs.DirEntry, childPath (absPath (s ++ rel)) e.name =
          absPath (s ++ (rel ++ [e.name])) := by
        intro e
        rw [childPath_absPath hproper, List.append_assoc]
      generalize hout : tarAddAll _ entries start = out
      have hwrites : Writes s (fun rel' => ∃ e ∈ entries, rel ++ [e.name] <+: rel')
          (fun rel' => rel'.dropLast = rel) start out := by
        rw [← hout]
        refine tarAddAll_spec ?_ ?_ (by rw [hfs]; exact ⟨⟨rfl, rfl⟩, rfl⟩)
        · intro e he w' hsame
          obtain ⟨hproperName, node, hnode, hisDir⟩ := hentries e he
          have hparts : ∀ part ∈ rel ++ [e.name], Proper part :=
            List.forall_mem_append.mpr ⟨hrel, by simpa using hproperName⟩
          have h' : ReadableTree w'.fs (s ++ (rel ++ [e.name])) n := by
            rw [← List.append_assoc]
            exact (h.child hproperName).same hsame
          have hregular := (h.isTree.regular [e.name] (by simpa using hproperName) node hnode).1
          rw [List.append_assoc, ← hsame.1.1] at hnode
          have hnot : tarNameExcluded (relPath (rel ++ [e.name])) [] = false := rfl
          rw [hname, hchild, hnot, if_neg Bool.false_ne_true]
          have htop : ∀ rel', rel' = rel ++ [e.name] → rel'.dropLast = rel := by
            rintro rel' rfl
            exact List.dropLast_concat
          by_cases hdir' : e.isDir = true
          · rw [hisDir.mp hdir'] at hnode
            rw [if_pos hdir']
            have hkeys' : NormalKeys w'.fs := by
              rw [NormalKeys, hsame.1.1]
              exact hkeys
            exact (ih hkeys' (List.concat_ne_nil e.name rel) hparts h' hnode).top htop
          · rw [if_neg hdir']
            cases node with
            | dir => exact absurd (hisDir.mpr rfl) hdir'
            | symlink target => exact absurd rfl (hregular target)
            | file c => exact (tarAddFile_spec hs hparts h' hnode).top htop
        · rw [List.Nodup, List.pairwise_map] at hnodup
          refine hnodup.imp fun {a b} hne rel' ha hb => hne ?_
          have hsame := List.prefix_of_prefix_length_le ha hb (by simp)
          have heq := hsame.eq_of_length (by simp)
          exact (List.append_inj heq rfl).2 |> List.singleton_inj.mp
      obtain ⟨hzero, hsame, ms, hms, hlists⟩ := hwrites
      rw [hfs] at hsame hlists
      refine ⟨hzero, hsame, (rel, .dir) :: ms, ?_, @Lists.cons_dir w.fs.nodes s ms rel
        (entries.map (·.name)) (hlists.congr fun rel' => ?_) hrel hdir ?_⟩
      · rw [hms, hdata, List.flatMap_cons, List.append_assoc]
        rfl
      · simp
      · intro name rest hparts hthere
        have hname : Proper name := hparts name (by simp)
        have hfound : absPath (s ++ rel ++ [name]) ∈ w.fs.nodes := by
          by_cases hnil : rest = []
          · rw [hnil] at hthere
            rw [List.append_assoc]
            exact hthere
          · have habove := @IsTree.dir_above R w.fs (s ++ rel) h.isTree [name] rest
              (by simpa using hname) (fun part hpart => hparts part (by simp [hpart])) hnil
              (by simpa using hthere)
            rw [← AList.lookup_isSome, habove]
            rfl
        obtain ⟨e, he, heq⟩ := hall name hname hfound
        exact List.mem_map.mpr ⟨e, he, heq⟩

theorem relPath_singleton (name : Path) : relPath [name] = name := List.append_nil name

/-- An operand that names an entry of the base directory. -/
theorem tarAddOperand_spec {baseDir name : Path} (habs : baseDir.head? = some '/')
    (hkeys : NormalKeys w.fs) (hname : Proper name) {depth : Nat}
    (hthere : absPath (components baseDir ++ [name]) ∈ w.fs.nodes)
    (h : ReadableTree w.fs (components baseDir ++ [name]) depth) :
    Writes (components baseDir) ([name] <+: ·) (· = [name]) w
      (tarAddOperand drain verbose [] depth baseDir name w) := by
  have hs := proper_components baseDir
  have hrel : ∀ part ∈ [name], Proper part := by simpa using hname
  have hproper : ∀ part ∈ components baseDir ++ [name], Proper part :=
    List.forall_mem_append.mpr ⟨hs, hrel⟩
  have hfull := (resolveCwdPath_relPath habs (List.cons_ne_nil name []) hrel).1
  have hnot : tarNameExcluded name [] = false := rfl
  obtain ⟨node, hnode⟩ := Option.isSome_iff_exists.mp (AList.lookup_isSome.mpr hthere)
  have hregular := (h.isTree.regular [] (List.forall_mem_nil _) node
    (by rw [List.append_nil, hnode])).1
  have hnorm := @resolve_absPath R w.fs _ hproper fun target hlink => by
    rw [hnode] at hlink
    cases hlink
    exact hregular target rfl
  have hfile := @tarAddFile_spec R drain verbose (components baseDir) [name] w hs hrel depth h
  have hdir := @tarAddDir_spec R drain verbose (components baseDir) [name] w hs hkeys depth
    (List.cons_ne_nil _ _) hrel h
  rw [relPath_singleton] at hfull hfile hdir
  unfold tarAddOperand
  rw [hnot, if_neg Bool.false_ne_true, hfull]
  dsimp only
  unfold MemoryFs.stat
  rw [hnorm]
  dsimp only
  rw [hnode]
  cases node with
  | file c => exact hfile hnode
  | dir => exact hdir hnode
  | symlink target => exact absurd rfl (hregular target)

/-- **What `tar -c` writes** of trees whose files may be read: their entries, and the blocks
    of the end. -/
theorem tarCreate_spec {baseDir : Path} (habs : baseDir.head? = some '/') {fs : MemoryFs R}
    (hkeys : NormalKeys fs) {roots : List Path} (hroots : ∀ r ∈ roots, Proper r)
    (hnodup : roots.Nodup) {depth : Nat}
    (hthere : ∀ r ∈ roots, absPath (components baseDir ++ [r]) ∈ fs.nodes)
    (htree : ∀ r ∈ roots, ReadableTree fs (components baseDir ++ [r]) depth) :
    (tarCreate drain verbose [] depth roots baseDir fs).1 = 0 ∧
      ∃ ms, (tarCreate drain verbose [] depth roots baseDir fs).2.data =
          ms.flatMap memberBlocks ++ List.replicate (tarBlockSize * 2) 0 ∧
        Lists fs.nodes (components baseDir) (fun rel => ∃ r ∈ roots, [r] <+: rel)
          (fun rel => rel.dropLast = []) ms := by
  have hwrites := @tarAddAll_spec R (components baseDir) ⟨fs, [], []⟩ _
    (tarAddOperand drain verbose [] depth baseDir) fs (fun r rel => [r] <+: rel)
    (fun rel => rel.dropLast = []) roots ?_ ?_ ⟨⟨rfl, rfl⟩, rfl⟩
  · obtain ⟨hzero, -, ms, hdata, hlists⟩ := hwrites
    unfold tarCreate
    dsimp only
    rw [if_pos hzero]
    exact ⟨rfl, ms, by rw [TarWriting.write, hdata, List.nil_append], hlists⟩
  · intro r hr w hsame
    have hkeys' : NormalKeys w.fs := by
      rw [NormalKeys, hsame.1.1]
      exact hkeys
    refine (tarAddOperand_spec habs hkeys' (hroots r hr) ?_ ((htree r hr).same hsame)).top ?_
    · rw [hsame.1.1]
      exact hthere r hr
    · rintro rel rfl
      rfl
  · refine hnodup.imp fun {a b} hne rel ha hb => hne ?_
    have hsame := List.prefix_of_prefix_length_le ha hb (by simp)
    exact List.singleton_inj.mp (hsame.eq_of_length rfl)

end

end Wasmsh.Fs

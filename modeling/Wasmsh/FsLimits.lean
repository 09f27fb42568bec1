import Wasmsh.FsChanges

/-!
# The limits of the filesystem

The cached sum of the file sizes against the files themselves: every change moves both by
the same amount, but a reader that is taken leaves the bytes of its node in the sum.  So the
sum is never too small, which is all that the limits need, and it is exact as long as the
nodes that go with their readers are empty.
-/

namespace Wasmsh.Fs

open Weighted

variable {R : Type} {strict : Prop} {nodes : Nodes} {fs fs' : MemoryFs R} {path : Path}

/-! ## 1. The sum of the file sizes -/

/-- The bytes that a call takes from the files but not from the sum. -/
def lostBytes (fs : MemoryFs R) (op : Op R) : Nat :=
  match fs.taken op with
  | some norm => weightAt FsNode.size fs.nodes norm
  | none => 0

theorem usedBytes_insert {old : FsNode} (h : nodes.lookup path = some old) (new : FsNode) :
    Nodes.usedBytes (nodes.insert path new) + old.size = nodes.usedBytes + new.size := by
  have hinsert := @total_insert _ _ _ FsNode.size nodes path new
  rw [weightAt_of_lookup h] at hinsert
  exact hinsert

theorem usedBytes_insert_new (h : path ∉ nodes) (new : FsNode) :
    Nodes.usedBytes (nodes.insert path new) = nodes.usedBytes + new.size := by
  have hinsert := @total_insert _ _ _ FsNode.size nodes path new
  rw [weightAt_of_not_mem h] at hinsert
  exact hinsert

theorem usedBytes_erase {old : FsNode} (h : nodes.lookup path = some old) :
    Nodes.usedBytes (nodes.erase path) + old.size = nodes.usedBytes := by
  have herase := @total_erase _ _ _ FsNode.size nodes path
  rw [weightAt_of_lookup h] at herase
  exact herase

theorem size_le_usedBytes {node : FsNode}
    (h : nodes.lookup path = some node) : node.size ≤ nodes.usedBytes := by
  have hle := @weightAt_le_total _ _ _ FsNode.size nodes path
  rw [weightAt_of_lookup h] at hle
  exact hle

/-- The sum is ahead of the files by `lost` bytes. -/
def AheadBy (lost : Nat) (fs : MemoryFs R) : Prop := fs.totalBytes = fs.nodes.usedBytes + lost

/-- A change moves the sum as it moves the files. -/
theorem Change.aheadBy {lost : Nat} (h : Change strict fs fs')
    (hfs : AheadBy lost fs) : AheadBy lost fs' := by
  unfold AheadBy at hfs ⊢
  cases h with
  | handles handles next => exact hfs
  | @create path node hnormal habsent hroom hsize hdirs =>
    dsimp only
    rw [usedBytes_insert_new habsent, hsize]
    exact hfs
  | @write path old new hfile hsize htotal =>
    have hinsert := usedBytes_insert hfile (.file new)
    have hle := size_le_usedBytes hfile
    simp only [FsNode.size] at hinsert hle ⊢
    omega
  | @empty path old hfile =>
    have hinsert := usedBytes_insert hfile (.file [])
    have hle := size_le_usedBytes hfile
    simp only [FsNode.size, MemoryFs.emptyFile, List.length_nil] at hinsert hle ⊢
    omega
  | @install path node reader hnode hdir =>
    have hinsert := usedBytes_insert hnode (.file [])
    have hle := size_le_usedBytes hnode
    have hempty : (FsNode.file []).size = 0 := rfl
    rw [hempty] at hinsert
    dsimp only
    omega
  | dropReader path => exact hfs
  | @removeFile path old hfile =>
    have herase := usedBytes_erase hfile
    simp only [FsNode.size, MemoryFs.eraseNode] at herase ⊢
    omega
  | removeLink hlink =>
    have herase := usedBytes_erase hlink
    simp only [FsNode.size, MemoryFs.eraseNode, Nat.add_zero] at herase ⊢
    omega
  | removeDir hdir hempty =>
    have herase := usedBytes_erase hdir
    simp only [FsNode.size, MemoryFs.eraseNode, Nat.add_zero] at herase ⊢
    omega

/-- A call puts the sum ahead by the bytes that it loses. -/
theorem Effect.aheadBy {op : Op R} {lost : Nat}
    (h : Effect strict fs op fs') (hfs : AheadBy lost fs) :
    AheadBy (lost + lostBytes fs op) fs' := by
  cases h with
  | changes htaken hchanges =>
    have hkeep := hchanges.keep (fun _ _ hstep => hstep.aheadBy) hfs
    rw [lostBytes, htaken]
    exact hkeep
  | @takes norm handles next htaken hmem =>
    have herase := @total_erase _ _ _ FsNode.size fs.nodes norm
    rw [lostBytes, htaken]
    unfold AheadBy Nodes.usedBytes at hfs ⊢
    simp only [MemoryFs.takeReader] at herase ⊢
    omega
  | setsMode mode htaken hmem =>
    rw [lostBytes, htaken]
    exact hfs

theorem aheadBy_step (s : Session R) (op : Op R) {lost : Nat} (h : AheadBy lost s.fs) :
    AheadBy (lost + lostBytes s.fs op) (s.step op).2.fs :=
  (@Session.effect R False s op False.elim).aheadBy h

theorem aheadBy_new : AheadBy 0 (Session.new : Session R).fs := by
  unfold AheadBy
  rfl

/-- **The cached sum is exact as long as no bytes are lost**: it is the sum of the file
    sizes in every state of a run, if and only if no read-only `open` of the run takes a
    reader from a file that holds bytes. -/
theorem total_is_sum_iff (ops : List (Op R)) :
    (∀ s ∈ Session.new.states ops, s.fs.totalBytes = s.fs.nodes.usedBytes) ↔
      ∀ call ∈ Session.new.calls ops, lostBytes call.1.fs call.2 = 0 := by
  constructor
  · intro hexact call hcall
    rcases Runs.mem_states_of_mem_calls hcall with ⟨hbefore, hafter⟩
    have hstep : AheadBy (0 + lostBytes call.1.fs call.2) (call.1.step call.2).2.fs :=
      aheadBy_step call.1 call.2 (hexact _ hbefore)
    have hsame := hexact _ hafter
    unfold AheadBy at hstep
    omega
  · intro hlost
    apply Runs.states_induct (P := fun s : Session R => AheadBy 0 s.fs) aheadBy_new
    intro call hcall hbefore
    have hstep := aheadBy_step call.1 call.2 hbefore
    rw [hlost call hcall] at hstep
    exact hstep

/-- A reader on `/p`, five bytes appended to the file under it, and the reader taken: the
    bytes stay in the sum. -/
theorem taken_reader_leaves_bytes :
    ¬ ∀ (ops : List (Op Unit)), ∀ s ∈ Session.new.states ops,
      s.fs.totalBytes = s.fs.nodes.usedBytes := by
  intro hall
  have hlast := hall [.installStreamReader "/p".toList (), .openFile "/p".toList .forAppending,
    .writeFile 1 [104, 101, 108, 108, 111], .openFile "/p".toList .forReading]
  revert hlast
  decide +kernel

/-! ## 2. The caps -/

/-- The limits, with the cached sum between the files and its cap. -/
structure Within (fs : MemoryFs R) : Prop where
  file : ∀ path contents, fs.nodes.lookup path = some (.file contents) →
    contents.length ≤ maxFileSize
  used : fs.nodes.usedBytes ≤ fs.totalBytes
  total : fs.totalBytes ≤ maxTotalBytes
  inodes : fs.nodes.count ≤ maxInodes

/-- The files are small when those of another filesystem are and what is written is. -/
theorem file_le_insert {node : FsNode}
    (hall : ∀ path contents, nodes.lookup path = some (.file contents) →
      contents.length ≤ maxFileSize)
    (hnode : node.size ≤ maxFileSize) (k : Path) (contents : Bytes)
    (h : (nodes.insert path node).lookup k = some (.file contents)) :
    contents.length ≤ maxFileSize := by
  by_cases hk : k = path
  · subst hk
    rw [AList.lookup_insert] at h
    cases h
    exact hnode
  · rw [AList.lookup_insert_ne hk] at h
    exact hall k contents h

theorem file_le_erase (hall : ∀ path contents, nodes.lookup path = some (.file contents) →
      contents.length ≤ maxFileSize) (k : Path) (contents : Bytes)
    (h : (nodes.erase path).lookup k = some (.file contents)) :
    contents.length ≤ maxFileSize := by
  by_cases hk : k = path
  · subst hk
    rw [AList.lookup_erase] at h
    cases h
  · rw [AList.lookup_erase_ne hk] at h
    exact hall k contents h

theorem count_insert_lookup {node : FsNode} (h : nodes.lookup path = some node) (new : FsNode) :
    Nodes.count (nodes.insert path new) = nodes.count := by
  apply count_insert_of_mem
  rw [← AList.lookup_isSome, h]
  rfl

theorem used_le_total (h : Change strict fs fs')
    (hfs : fs.nodes.usedBytes ≤ fs.totalBytes) : fs'.nodes.usedBytes ≤ fs'.totalBytes := by
  rcases Nat.exists_eq_add_of_le hfs with ⟨lost, hlost⟩
  have hafter : AheadBy lost fs' := h.aheadBy hlost
  unfold AheadBy at hafter
  omega

theorem Change.within (h : Change strict fs fs') (hfs : Within fs) :
    Within fs' := by
  have hused := used_le_total h hfs.used
  have htotal' := hfs.total
  have hcount := hfs.inodes
  cases h with
  | handles handles next | dropReader path => exact ⟨hfs.file, hused, htotal', hcount⟩
  | create hnormal habsent hroom hsize hdirs =>
    refine ⟨file_le_insert hfs.file (by rw [hsize]; exact Nat.zero_le _), hused, htotal', ?_⟩
    have hmore := count_insert_of_not_mem habsent
    unfold Nodes.count at hroom ⊢
    rw [hmore]
    exact hroom
  | write hfile hsize htotal =>
    refine ⟨file_le_insert hfs.file hsize, hused, htotal, ?_⟩
    rw [count_insert_lookup hfile]
    exact hcount
  | empty hfile =>
    refine ⟨file_le_insert hfs.file (Nat.zero_le _), hused, (Nat.sub_le _ _).trans htotal', ?_⟩
    have hsame := count_insert_lookup hfile (.file [])
    exact hsame.le.trans hcount
  | install reader hnode hdir =>
    refine ⟨file_le_insert hfs.file (Nat.zero_le _), hused, (Nat.sub_le _ _).trans htotal', ?_⟩
    rw [count_insert_lookup hnode]
    exact hcount
  | removeFile hfile =>
    exact ⟨file_le_erase hfs.file, hused, (Nat.sub_le _ _).trans htotal',
      (count_erase_le _ _).trans hcount⟩
  | removeLink hlink | removeDir hdir hempty =>
    exact ⟨file_le_erase hfs.file, hused, htotal', (count_erase_le _ _).trans hcount⟩

theorem Effect.within {op : Op R} (h : Effect strict fs op fs') (hfs : Within fs) : Within fs' := by
  cases h with
  | changes _ hchanges => exact hchanges.keep (fun _ _ hstep => hstep.within) hfs
  | @takes norm handles next htaken hmem =>
    have herase := @total_erase _ _ _ FsNode.size fs.nodes norm
    have hused := hfs.used
    refine ⟨file_le_erase hfs.file, ?_, hfs.total, (count_erase_le _ _).trans hfs.inodes⟩
    unfold Nodes.usedBytes at hused ⊢
    simp only [MemoryFs.takeReader]
    omega
  | setsMode mode htaken hmem => exact ⟨hfs.file, hfs.used, hfs.total, hfs.inodes⟩

theorem within_new : Within (Session.new : Session R).fs := by
  have hroot : (Session.new : Session R).fs.nodes.count = 1 := rfl
  refine ⟨?_, le_refl _, Nat.zero_le _, ?_⟩
  · apply file_le_insert _ (Nat.zero_le _)
    intro path contents h
    rw [AList.lookup_empty] at h
    cases h
  · rw [hroot]
    decide

theorem Session.Reachable.within {s : Session R} (h : s.Reachable) : Within s.fs := by
  induction h with
  | new => exact within_new
  | @step s op _ ih => exact (@Session.effect R False s op False.elim).within ih

/-- **The caps hold in every reachable state.** -/
theorem caps_hold {s : Session R} (h : s.Reachable) :
    (∀ path contents, s.fs.nodes.lookup path = some (.file contents) →
      contents.length ≤ maxFileSize) ∧
    s.fs.nodes.usedBytes ≤ maxTotalBytes ∧ s.fs.nodes.count ≤ maxInodes :=
  ⟨h.within.file, h.within.used.trans h.within.total, h.within.inodes⟩

/-- After a file is made and written. -/
theorem caps_hold_of_write :
    ((((Session.new : Session Unit).step (.openFile "/f".toList .forWriting)).2.step
      (.writeFile 1 [104, 105])).2.fs.nodes.usedBytes ≤ maxTotalBytes) :=
  (caps_hold (.step _ (.step _ .new))).2.1

end Wasmsh.Fs

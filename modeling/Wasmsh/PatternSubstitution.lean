import Wasmsh.Library.Replacing
import Wasmsh.PatternRemoval

/-!
# Pattern substitution

`${v/pat/rep}` and `${v//pat/rep}` take the shortest match at a place and cut the value at
every byte on the way to it; a pattern without `*`, `?` and `[` goes to the `replace` of the
standard library instead.
-/

namespace Wasmsh.Params

open Expand Globs Replacing Wildcards
open Utf8 (size)

/-! ## 1. The texts of a pattern -/

/-- Matches of a pattern are of one length, or can be joined over anything. -/
theorem means_unique_or_bridged (pat : List Char) : Unique (Means pat) ∨ Bridged (Means pat) := by
  by_cases hstar : Element.star ∈ simpleReader.elements (Utf8.encode pat)
  · right
    intro p x q hp hq
    have hjoined := Matches.bridge hp hq hstar (Utf8.encode x)
    rw [Means, Utf8.encode_append, Utf8.encode_append]
    exact hjoined
  · left
    intro t m rest m' rest' hm hm'
    have hsize : size m = size m' :=
      (Matches.length_eq hm.holds hstar).trans (Matches.length_eq hm'.holds hstar).symm
    have hcut : cutAt (size m) t = some (m, rest) := cutAt_iff.mpr ⟨hm.cut.symm, rfl⟩
    have hcut' : cutAt (size m) t = some (m', rest') :=
      cutAt_iff.mpr ⟨hm'.cut.symm, hsize.symm⟩
    rw [hcut] at hcut'
    exact (Prod.mk.inj (Option.some.inj hcut')).1

/-! ## 2. Ends of a match -/

section

variable {pat pre t : List Char}

theorem size_take_ascii {n : Nat} (h : ∀ c ∈ t.take n, c.toNat < 0x80) (hn : n ≤ t.length) :
    size (t.take n) = n := by
  rw [size, Utf8.encode_of_ascii h, List.length_take, Nat.min_eq_left hn]

theorem between_append (k : Nat) :
    between (pre ++ t) (size pre) (size pre + k) = (cutAt k t).map (·.1) := by
  have hcut : cutAt (size pre) (pre ++ t) = some (pre, t) := cutAt_iff.mpr ⟨rfl, rfl⟩
  rw [between, hcut, Option.bind_some, Nat.add_sub_cancel_left]

theorem offsetsFrom_append : offsetsFrom (pre ++ t) (size pre) =
    (List.range (size t + 1)).map (size pre + ·) := by
  rw [offsetsFrom, Utf8.size_append]
  congr 2
  omega

/-- A text up to its first characters is matched. -/
def fits (pat t : List Char) (k : Nat) : Bool := globMatches pat (t.take k)

/-- The ends that are tried are found out one by one as long as they are cuts. -/
theorem findEnd_cuts {ks : List Nat} (hcut : ∀ k ∈ ks, cutAt k t = some (t.take k, t.drop k))
    (more : List Nat) :
    findEnd (pre ++ t) pat (size pre) (ks.map (size pre + ·) ++ more) =
      (ks.find? (fits pat t)).elim (findEnd (pre ++ t) pat (size pre) more)
        fun k => some (some (size pre + k)) := by
  induction ks with
  | nil => rfl
  | cons k ks ih =>
    rw [List.map_cons, List.cons_append, findEnd, between_append, hcut k List.mem_cons_self,
      List.find?_cons]
    dsimp only [Option.map_some]
    by_cases h : globMatches pat (t.take k) = true
    · rw [if_pos h, show fits pat t k = true from h]
      rfl
    · rw [if_neg h, show fits pat t k = false from Bool.eq_false_iff.mpr h,
        ih fun k hk => hcut k (.tail _ hk)]

theorem cuts_of_ascii {n : Nat} (h : ∀ c ∈ t.take n, c.toNat < 0x80) (hn : n ≤ t.length) :
    ∀ k ∈ List.range (n + 1), cutAt k t = some (t.take k, t.drop k) := by
  intro k hk
  have hle : k ≤ n := Nat.le_of_lt_succ (List.mem_range.mp hk)
  exact cutAt_ascii (fun c hc => h c (List.take_subset_take_left t hle hc)) (hle.trans hn)

theorem findEnd_ascii (h : ∀ c ∈ t, c.toNat < 0x80) :
    findEnd (pre ++ t) pat (size pre) (offsetsFrom (pre ++ t) (size pre)) =
      some (((List.range (t.length + 1)).find? (fits pat t)).map (size pre + ·)) := by
  have hcuts := cuts_of_ascii (t := t) (n := t.length) (fun c hc => h c (List.mem_of_mem_take hc))
    (le_refl _)
  have hsize : size t = t.length := by rw [size, Utf8.encode_of_ascii h]
  rw [offsetsFrom_append, hsize, ← List.append_nil (List.map _ _), findEnd_cuts hcuts]
  cases (List.range (t.length + 1)).find? (fits pat t) <;> rfl

/-- Where a character is no ASCII, an end before it is found or the cut inside it panics. -/
theorem findEnd_inside {n : Nat} (hn : n < t.length) (h : ∀ c ∈ t.take n, c.toNat < 0x80)
    (hsize : n + 1 < size t) (hinside : cutAt (n + 1) t = none) :
    findEnd (pre ++ t) pat (size pre) (offsetsFrom (pre ++ t) (size pre)) =
      ((List.range (n + 1)).find? (fits pat t)).map fun k => some (size pre + k) := by
  have hcuts := cuts_of_ascii h (Nat.le_of_lt hn)
  obtain ⟨more, hrange⟩ : ∃ more, List.range (size t + 1) = List.range (n + 1) ++ (n + 1) :: more := by
    have hsum : size t + 1 = n + 1 + (size t - (n + 1) + 1) := by omega
    rw [hsum, List.range_add, @List.range_succ_eq_map (size t - (n + 1)), List.map_cons]
    exact ⟨_, rfl⟩
  rw [offsetsFrom_append, hrange, List.map_append, findEnd_cuts hcuts, List.map_cons, findEnd,
    between_append, hinside]
  cases (List.range (n + 1)).find? (fits pat t) <;> rfl

/-- The first end that is found is that of the shortest match. -/
theorem shortest_of_find {n k : Nat} (hn : n ≤ t.length) (hnil : ¬Means pat [])
    (hfind : (List.range (n + 1)).find? (fits pat t) = some k) :
    0 < k ∧ k ≤ n ∧ Shortest (Means pat) t (t.take k) (t.drop k) := by
  rw [List.find?_range_eq_some] at hfind
  obtain ⟨hfits, hmem, hfirst⟩ := hfind
  have hk : k ≤ n := Nat.le_of_lt_succ (List.mem_range.mp hmem)
  have hmeans : Means pat (t.take k) := (globMatches_iff _ _).mp hfits
  have hpos : 0 < k := by
    rw [Nat.pos_iff_ne_zero]
    rintro rfl
    exact hnil hmeans
  have hlen : (t.take k).length = k := by
    rw [List.length_take]
    omega
  refine ⟨hpos, hk, ⟨(List.take_append_drop k t).symm, ?_, hmeans⟩, ?_⟩
  · rw [← List.length_pos_iff, hlen]
    exact hpos
  · intro m rest hm
    rw [hlen]
    by_contra hshort
    have htake : t.take m.length = m := by rw [hm.cut, List.take_left]
    have hnot := hfirst m.length (by omega)
    rw [fits, htake, (globMatches_iff _ _).mpr hm.holds] at hnot
    cases hnot

theorem noStart_of_find (hfind : (List.range (t.length + 1)).find? (fits pat t) = none) :
    ∀ m rest, ¬StartsWith (Means pat) t m rest := by
  intro m rest hm
  have htake : t.take m.length = m := by rw [hm.cut, List.take_left]
  have hlen : m.length ≤ t.length := by
    rw [hm.cut, List.length_append]
    exact Nat.le_add_right _ _
  rw [List.find?_eq_none] at hfind
  apply hfind m.length (List.mem_range.mpr (by omega))
  rw [fits, htake]
  exact (globMatches_iff _ _).mpr hm.holds

/-! ## 3. The first match -/

theorem offsetsFrom_of_le {text : List Char} {start : Nat} (h : start ≤ size text) :
    offsetsFrom text start = start :: offsetsFrom text (start + 1) := by
  rw [offsetsFrom, offsetsFrom, show size text + 1 - start = size text - start + 1 by omega,
    List.range_succ_eq_map, List.map_cons, List.map_map,
    show size text + 1 - (start + 1) = size text - start by omega]
  congr 1
  apply List.map_congr_left
  intro k _
  show start + (k + 1) = start + 1 + k
  omega

theorem offsetsFrom_end (text : List Char) : offsetsFrom text (size text + 1) = [] := by
  rw [offsetsFrom, Nat.sub_self]
  rfl

theorem size_snoc {c : Char} (hc : c.toNat < 0x80) : size (pre ++ [c]) = size pre + 1 := by
  rw [Utf8.size_append, Utf8.size_cons, Utf8.encodeChar_of_ascii hc]
  rfl

/-- The search from a place on: what is found is the shortest match at the first place. -/
theorem globFindLoop_ascii (h : ∀ c ∈ t, c.toNat < 0x80) (hnil : ¬Means pat []) (rep : List Char) :
    (globFindLoop (pre ++ t) pat (offsetsFrom (pre ++ t) (size pre)) = some none ∧
        Replaced (Shortest (Means pat)) rep false t t) ∨
      ∃ i j, i ≤ j ∧ j ≤ t.length ∧
        globFindLoop (pre ++ t) pat (offsetsFrom (pre ++ t) (size pre)) =
          some (some (size pre + i, size pre + j)) ∧
        Replaced (Shortest (Means pat)) rep false t (t.take i ++ rep ++ t.drop j) := by
  induction t generalizing pre with
  | nil =>
    left
    have hfind : (List.range (([] : List Char).length + 1)).find? (fits pat []) = none := by
      rw [List.find?_eq_none]
      intro k _ hfits
      exact hnil ((globMatches_iff _ _).mp (by rwa [fits, List.take_nil] at hfits))
    have hend := @findEnd_ascii pat pre [] (fun c hc => nomatch hc)
    rw [hfind, List.append_nil] at hend
    rw [List.append_nil, offsetsFrom_of_le (le_refl _), globFindLoop, hend, offsetsFrom_end]
    exact ⟨rfl, .nil⟩
  | cons c t ih =>
    have hc : c.toNat < 0x80 := h c List.mem_cons_self
    have hle : size pre ≤ size (pre ++ c :: t) := by
      rw [Utf8.size_append]
      exact Nat.le_add_right _ _
    have hend := @findEnd_ascii pat pre (c :: t) h
    have hsnoc : pre ++ c :: t = (pre ++ [c]) ++ t := by simp
    rw [offsetsFrom_of_le hle, globFindLoop, hend]
    cases hfind : (List.range ((c :: t).length + 1)).find? (fits pat (c :: t)) with
    | some k =>
      obtain ⟨-, hk, hshort⟩ := shortest_of_find (le_refl _) hnil hfind
      right
      exact ⟨0, k, Nat.zero_le k, hk, rfl, .first hshort⟩
    | none =>
      have hno := noStart_of_find hfind
      have hskip : ∀ m rest, ¬Shortest (Means pat) (c :: t) m rest := fun m rest hs =>
        hno m rest hs.starts
      rw [← size_snoc hc, hsnoc]
      rcases @ih (pre ++ [c]) fun d hd => h d (.tail _ hd) with ⟨hloop, hrep⟩ | ⟨i, j, hij, hj, hloop, hrep⟩
      · left
        exact ⟨hloop, .skip hskip hrep⟩
      · right
        refine ⟨i + 1, j + 1, Nat.succ_le_succ hij, Nat.succ_le_succ hj, ?_, .skip hskip hrep⟩
        show globFindLoop (pre ++ [c] ++ t) pat _ = _
        rw [hloop, size_snoc hc]
        simp only [Option.some.injEq, Prod.mk.injEq]
        omega

theorem offsetsFrom_zero (val : List Char) : offsetsFrom val 0 = List.range (size val + 1) := by
  rw [offsetsFrom, Nat.sub_zero]
  simp only [Nat.zero_add, List.map_id']

theorem ne_nil_of_glob (h : isGlobPattern pat = true) : pat ≠ [] := by
  rintro rfl
  cases h

theorem globReplaceFirst_glob (h : isGlobPattern pat = true) (val rep : List Char) :
    globReplaceFirst val pat rep =
      (globFindLoop ([] ++ val) pat (offsetsFrom ([] ++ val) (size []))).bind fun found =>
        found.elim (some val) fun e => (cutAt e.1 val).bind fun front => (cutAt e.2 val).map
          fun back => front.1 ++ rep ++ back.2 := by
  rw [globReplaceFirst, h, globFindFirst, if_neg (ne_nil_of_glob h), List.nil_append,
    show size [] = 0 from rfl, offsetsFrom_zero]
  cases globFindLoop val pat (List.range (size val + 1)) with
  | none => rfl
  | some found => cases found <;> rfl

theorem globReplaceFirst_ascii (hglob : isGlobPattern pat = true) (h : ∀ c ∈ t, c.toNat < 0x80)
    (hnil : ¬Means pat []) (rep : List Char) :
    ∃ r, globReplaceFirst t pat rep = some r ∧ Replaced (Shortest (Means pat)) rep false t r := by
  rw [globReplaceFirst_glob hglob]
  have hcut : ∀ {n}, n ≤ t.length → cutAt n t = some (t.take n, t.drop n) := fun hn =>
    cutAt_ascii (fun c hc => h c (List.mem_of_mem_take hc)) hn
  rcases @globFindLoop_ascii pat [] t h hnil rep with ⟨hloop, hrep⟩ | ⟨i, j, hij, hj, hloop, hrep⟩
  · rw [hloop]
    exact ⟨t, rfl, hrep⟩
  · rw [hloop, show size [] = 0 from rfl, Nat.zero_add, Nat.zero_add]
    refine ⟨_, ?_, hrep⟩
    rw [Option.bind_some, Option.elim_some, hcut (hij.trans hj), hcut hj]
    rfl

/-- In front of a character that is no ASCII a match at the start is found, or the search
    panics. -/
theorem globReplaceFirst_inside {n : Nat} (hglob : isGlobPattern pat = true) (hn : n < t.length)
    (h : ∀ c ∈ t.take n, c.toNat < 0x80) (hsize : n + 1 < size t)
    (hinside : cutAt (n + 1) t = none) (rep : List Char) :
    globReplaceFirst t pat rep =
      ((List.range (n + 1)).find? (fits pat t)).map fun k => rep ++ t.drop k := by
  rw [globReplaceFirst_glob hglob, List.nil_append, show size [] = 0 from rfl,
    offsetsFrom_of_le (Nat.zero_le _), globFindLoop]
  have hend := @findEnd_inside pat [] t n hn h hsize hinside
  rw [List.nil_append, show size [] = 0 from rfl] at hend
  rw [hend]
  cases hfind : (List.range (n + 1)).find? (fits pat t) with
  | none => rfl
  | some k =>
    have hk : k ≤ n := Nat.le_of_lt_succ
      (List.mem_range.mp (List.find?_range_eq_some.mp hfind).2.1)
    have hcut : cutAt k t = some (t.take k, t.drop k) :=
      cuts_of_ascii h (Nat.le_of_lt hn) k (List.mem_range.mpr (Nat.lt_succ_of_le hk))
    simp only [Option.map_some, Option.bind_some, Option.elim_some, Nat.zero_add, cutAt, hcut,
      List.nil_append]

/-- A pattern of the empty text is found at the start. -/
theorem globReplaceFirst_empty (hglob : isGlobPattern pat = true) (hnil : Means pat [])
    (rep : List Char) : globReplaceFirst t pat rep = some (rep ++ t) := by
  rw [globReplaceFirst_glob hglob, List.nil_append, show size [] = 0 from rfl,
    offsetsFrom_of_le (Nat.zero_le _), globFindLoop, offsetsFrom_of_le (Nat.zero_le _), findEnd]
  have hmatch : globMatches pat [] = true := (globMatches_iff _ _).mpr hnil
  simp [between, cutAt, hmatch]

/-! ## 4. All matches -/

theorem globReplaceLoop_end {text pat rep : List Char} {n pos : Nat} (h : size text < pos) :
    globReplaceLoop text pat rep n pos = some [] := by
  cases n with
  | zero => rfl
  | succ n => rw [globReplaceLoop, if_pos h]

theorem byte_at {c : Char} (hc : c.toNat < 0x80) :
    (Utf8.encode (pre ++ c :: t))[size pre]? = some c := by
  rw [Utf8.encode_append, size, List.getElem?_append_right (le_refl _), Nat.sub_self]
  show (Utf8.encodeChar c ++ Utf8.encode t)[0]? = some c
  rw [Utf8.encodeChar_of_ascii hc]
  rfl

/-- The loop from a place on, when no match is empty. -/
theorem globReplaceLoop_ascii (rep : List Char) {n : Nat} (h : ∀ c ∈ t, c.toNat < 0x80)
    (hnil : ¬Means pat []) (hn : t.length < n) :
    ∃ r, globReplaceLoop (pre ++ t) pat rep n (size pre) = some r ∧
      Replaced (Shortest (Means pat)) rep true t r := by
  induction n generalizing pre t with
  | zero => exact absurd hn (Nat.not_lt_zero _)
  | succ n ih =>
    have hle : ¬size (pre ++ t) < size pre := by
      rw [Utf8.size_append]
      omega
    rw [globReplaceLoop, if_neg hle, findEnd_ascii h]
    cases hfind : (List.range (t.length + 1)).find? (fits pat t) with
    | some k =>
      obtain ⟨hpos, hk, hshort⟩ := shortest_of_find (le_refl _) hnil hfind
      have hsize : size (pre ++ t.take k) = size pre + k := by
        rw [Utf8.size_append, size_take_ascii (fun c hc => h c (List.mem_of_mem_take hc)) hk]
      have hlen : (t.drop k).length < n := by
        rw [List.length_drop]
        omega
      obtain ⟨r, hloop, hrep⟩ := @ih (pre ++ t.take k) (t.drop k)
        (fun c hc => h c (List.mem_of_mem_drop hc)) hlen
      rw [List.append_assoc, List.take_append_drop, hsize] at hloop
      refine ⟨rep ++ r, ?_, .every hshort hrep⟩
      dsimp only [Option.map_some]
      rw [if_neg (by omega), hloop]
      rfl
    | none =>
      cases t with
      | nil =>
        refine ⟨[], ?_, .nil⟩
        dsimp only [Option.map_none]
        rw [globReplaceLoop_end (by rw [List.append_nil]; exact Nat.lt_succ_self _), List.append_nil,
          size, List.getElem?_eq_none (le_refl _)]
        rfl
      | cons c t =>
        have hc : c.toNat < 0x80 := h c List.mem_cons_self
        obtain ⟨r, hloop, hrep⟩ := @ih (pre ++ [c]) t (fun d hd => h d (.tail _ hd))
          (Nat.lt_of_succ_lt_succ hn)
        rw [List.append_assoc, List.singleton_append, size_snoc hc] at hloop
        refine ⟨c :: r, ?_, .skip (fun m rest hs => noStart_of_find hfind m rest hs.starts) hrep⟩
        dsimp only [Option.map_none]
        rw [hloop, byte_at hc]
        rfl

/-- The loop from a place on, when the empty text is a match: at each offset it is replaced. -/
theorem globReplaceLoop_empty (rep : List Char) {n : Nat} (h : ∀ c ∈ t, c.toNat < 0x80)
    (hnil : Means pat []) (hn : t.length < n) :
    ∃ r, globReplaceLoop (pre ++ t) pat rep n (size pre) = some r ∧
      r.length = (t.length + 1) * rep.length := by
  have hfits : ∀ t, fits pat t 0 = true := fun t => (globMatches_iff _ _).mpr hnil
  induction n generalizing pre t with
  | zero => exact absurd hn (Nat.not_lt_zero _)
  | succ n ih =>
    have hle : ¬size (pre ++ t) < size pre := by
      rw [Utf8.size_append]
      omega
    rw [globReplaceLoop, if_neg hle, findEnd_ascii h, List.range_succ_eq_map, List.find?_cons, hfits]
    dsimp only [Option.map_some]
    rw [if_pos (Nat.add_zero _), Nat.add_zero]
    cases t with
    | nil =>
      refine ⟨rep, ?_, by simp⟩
      rw [globReplaceLoop_end (by rw [List.append_nil]; exact Nat.lt_succ_self _), Option.map_some,
        List.append_nil]
    | cons c t =>
      have hc : c.toNat < 0x80 := h c List.mem_cons_self
      obtain ⟨r, hloop, hlen⟩ := @ih (pre ++ [c]) t (fun d hd => h d (.tail _ hd))
        (Nat.lt_of_succ_lt_succ hn)
      rw [List.append_assoc, List.singleton_append, size_snoc hc] at hloop
      refine ⟨rep ++ r, by rw [hloop]; rfl, ?_⟩
      rw [List.length_append, hlen, List.length_cons]
      ring

theorem between_inside {text : List Char} {pos q : Nat} (hq : cutAt q text = none)
    (hle : pos ≤ q) : between text pos q = none := by
  rw [between, Option.bind_eq_none_iff]
  rintro ⟨front, back⟩ hfront
  rw [Option.map_eq_none_iff, Option.eq_none_iff_forall_ne_some]
  rintro ⟨m, rest⟩ hm
  obtain ⟨rfl, hsize⟩ := cutAt_iff.mp hfront
  obtain ⟨rfl, hsize'⟩ := cutAt_iff.mp hm
  have hcut : cutAt q (front ++ (m ++ rest)) = some (front ++ m, rest) :=
    cutAt_iff.mpr ⟨List.append_assoc _ _ _, by rw [Utf8.size_append]; omega⟩
  rw [hcut] at hq
  cases hq

theorem findEnd_inside_of {text : List Char} {pos q : Nat} (hnone : between text pos q = none)
    (ks more : List Nat) :
    findEnd text pat pos (ks ++ q :: more) = none ∨
      ∃ stop ∈ ks, findEnd text pat pos (ks ++ q :: more) = some (some stop) := by
  induction ks with
  | nil =>
    left
    rw [List.nil_append, findEnd, hnone]
  | cons k ks ih =>
    rw [List.cons_append, findEnd]
    cases between text pos k with
    | none => exact .inl rfl
    | some part =>
      dsimp only
      split
      · exact .inr ⟨k, List.mem_cons_self, rfl⟩
      · rcases ih with hnone | ⟨stop, hmem, hsome⟩
        · exact .inl hnone
        · exact .inr ⟨stop, .tail _ hmem, hsome⟩

/-- An offset inside a character ends every search that begins before. -/
theorem findEnd_before {text : List Char} {pos q : Nat} (hq : cutAt q text = none) (hle : pos ≤ q)
    (hsize : q ≤ size text) :
    findEnd text pat pos (offsetsFrom text pos) = none ∨
      ∃ stop < q, findEnd text pat pos (offsetsFrom text pos) = some (some stop) ∧ pos ≤ stop := by
  obtain ⟨more, hoffsets⟩ : ∃ more, offsetsFrom text pos =
      (List.range (q - pos)).map (pos + ·) ++ q :: more := by
    have hsum : size text + 1 - pos = q - pos + (size text - q + 1) := by omega
    rw [offsetsFrom, hsum, List.range_add, List.map_append, @List.range_succ_eq_map (size text - q),
      List.map_cons, List.map_cons, show pos + (q - pos + 0) = q by omega]
    exact ⟨_, rfl⟩
  rw [hoffsets]
  rcases @findEnd_inside_of pat text pos q (between_inside hq hle)
    ((List.range (q - pos)).map (pos + ·)) more with hnone | ⟨stop, hmem, hsome⟩
  · exact .inl hnone
  · obtain ⟨k, hk, rfl⟩ := List.mem_map.mp hmem
    have := List.mem_range.mp hk
    exact .inr ⟨pos + k, by omega, hsome, Nat.le_add_right _ _⟩

theorem globReplaceLoop_panics {text rep : List Char} {n pos q : Nat} (hq : cutAt q text = none)
    (hle : pos ≤ q) (hsize : q ≤ size text) (hn : q - pos < n) :
    globReplaceLoop text pat rep n pos = none := by
  induction n generalizing pos with
  | zero => exact absurd hn (Nat.not_lt_zero _)
  | succ n ih =>
    rw [globReplaceLoop, if_neg (by omega)]
    rcases @findEnd_before pat text pos q hq hle hsize with hnone | ⟨stop, hstop, hsome, hge⟩
    · rw [hnone]
    · rw [hsome]
      dsimp only
      rw [ih (by split <;> omega) (by split <;> omega)]
      rfl

end

/-! ## 5. Patterns that are plain texts -/

/-- Bytes without `*`, `?` and `[` are matched by themselves. -/
theorem matches_plain {p : List Char} (hstar : '*' ∉ p) (hone : '?' ∉ p) (hclass : '[' ∉ p)
    {w : List Char} : Matches (simpleReader.elements p) w ↔ w = p := by
  induction p generalizing w with
  | nil =>
    rw [Reader.elements_of_none rfl]
    exact matches_nil_iff
  | cons c p ih =>
    have hc : ∀ d, d ∉ c :: p → c ≠ d := by
      rintro d hd rfl
      exact hd List.mem_cons_self
    obtain ⟨accepts, hread, haccepts, honly⟩ := simpleRead_cons (hc _ hstar) (hc _ hclass) p
    have ih' := fun w => @ih (fun h => hstar (.tail _ h)) (fun h => hone (.tail _ h))
      (fun h => hclass (.tail _ h)) w
    rw [Reader.elements_of_some hread]
    cases w with
    | nil =>
      constructor
      · intro h
        exact absurd h not_matches_one_nil
      · intro h
        cases h
    | cons d w =>
      rw [matches_one_iff, ih', List.cons.injEq]
      constructor
      · rintro ⟨hd, rfl⟩
        exact ⟨honly (hc _ hone) d hd, rfl⟩
      · rintro ⟨rfl, rfl⟩
        exact ⟨haccepts, rfl⟩

section

variable {pat t : List Char}

theorem means_plain (h : isGlobPattern pat = false) : Means pat t ↔ t = pat := by
  simp only [isGlobPattern, Bool.or_eq_false_iff, List.contains_eq_mem, decide_eq_false_iff_not] at h
  obtain ⟨⟨hstar, hone⟩, hclass⟩ := h
  have hnot : ∀ {b}, b.toNat < 0x80 → b ∉ pat → b ∉ Utf8.encode pat := fun hb hmem henc =>
    hmem (Utf8.mem_of_mem_encode hb henc)
  rw [Means, matches_plain (hnot (by decide) hstar) (hnot (by decide) hone) (hnot (by decide) hclass)]
  constructor
  · intro heq
    rw [← Utf8.decode_encode t, heq, Utf8.decode_encode]
  · rintro rfl
    rfl

theorem longest_plain (h : isGlobPattern pat = false) (hne : pat ≠ []) (rest : List Char) :
    Longest (Means pat) (pat ++ rest) pat rest := by
  refine ⟨⟨rfl, hne, (means_plain h).mpr rfl⟩, ?_⟩
  intro m' rest' hm'
  rw [(means_plain h).mp hm'.holds]

theorem noStart_plain (h : isGlobPattern pat = false) (hnot : ¬pat <+: t) :
    ∀ m rest, ¬Longest (Means pat) t m rest := by
  intro m rest hm
  apply hnot
  rw [hm.starts.cut, (means_plain h).mp hm.starts.holds]
  exact List.prefix_append pat rest

/-- `replacen` replaces the first occurrence. -/
theorem replaced_replacen (h : isGlobPattern pat = false) (hne : pat ≠ []) (rep t : List Char) :
    Replaced (Longest (Means pat)) rep false t (replacen pat rep t) := by
  induction t with
  | nil =>
    rw [replacen, if_neg hne]
    exact .nil
  | cons c t ih =>
    rw [replacen]
    by_cases hstart : pat <+: c :: t
    · rw [if_pos (List.isPrefixOf_iff_prefix.mpr hstart)]
      obtain ⟨rest, heq⟩ := hstart
      rw [← heq, List.drop_left]
      exact .first (longest_plain h hne rest)
    · rw [if_neg (mt List.isPrefixOf_iff_prefix.mp hstart)]
      exact .skip (noStart_plain h hstart) ih

/-- `replace` replaces every occurrence. -/
theorem replaced_replace (h : isGlobPattern pat = false) (hne : pat ≠ []) (rep t : List Char)
    (left : Nat) :
    Replaced (Longest (Means pat)) rep true (t.drop left) (replace pat rep left t) := by
  induction t generalizing left with
  | nil =>
    rw [replace, if_neg hne, List.drop_nil]
    exact .nil
  | cons c t ih =>
    cases left with
    | succ left => exact ih left
    | zero =>
      rw [replace, if_neg hne, List.drop_zero]
      by_cases hstart : pat <+: c :: t
      · rw [if_pos (List.isPrefixOf_iff_prefix.mpr hstart)]
        obtain ⟨rest, heq⟩ := hstart
        obtain ⟨d, p, rfl⟩ := List.exists_cons_of_ne_nil hne
        have hrest : t.drop ((d :: p).length - 1) = rest := by
          rw [List.cons_append, List.cons.injEq] at heq
          rw [← heq.2]
          exact List.drop_left
        have hlong := longest_plain h hne rest
        rw [heq] at hlong
        exact .every hlong (hrest ▸ ih _)
      · rw [if_neg (mt List.isPrefixOf_iff_prefix.mp hstart)]
        exact .skip (noStart_plain h hstart) (ih 0)

theorem length_replacen_empty (rep t : List Char) :
    (replacen [] rep t).length = rep.length + t.length := by
  cases t with
  | nil => rfl
  | cons c t =>
    show (rep ++ (c :: t)).length = _
    rw [List.length_append]

theorem length_replace_empty (rep t : List Char) :
    (replace [] rep 0 t).length = (t.length + 1) * rep.length + t.length := by
  induction t with
  | nil => simp [replace]
  | cons c t ih =>
    rw [replace, if_pos rfl, List.length_append, List.length_cons, ih, List.length_cons]
    ring

end

/-! ## 6. Substitutions -/

/-- The substitution of a pattern in a value shows no difference between the shortest and the
    longest matches, no empty match, and no cut inside a character.

    A pattern without `*`, `?` and `[` only has to be there.  Any other must not match the
    empty text, and have one match only at the first place where it has one.  The value is
    ASCII, or one match is to be replaced and the front of the value is one. -/
def Substitutable (val pat : List Char) (global : Bool) : Prop :=
  pat ≠ [] ∧ (isGlobPattern pat = true → ¬Means pat [] ∧ OneMatch (Means pat) val ∧
    ((∀ c ∈ val, c.toNat < 0x80) ∨ global = false ∧
      ∃ front back, val = front ++ back ∧ (∀ c ∈ front, c.toNat < 0x80) ∧ Means pat front))

/-- The value with the longest matches replaced is what the substitution gives. -/
def Substitutes (val pat rep : List Char) (global : Bool) : Prop :=
  ∃ r, substitutionUnanchored val pat rep global = some r ∧
    Replaced (Longest (Means pat)) rep global val r

section

variable {val pat : List Char} {global : Bool}

theorem replaced_unanchored_ascii (hglob : isGlobPattern pat = true)
    (h : ∀ c ∈ val, c.toNat < 0x80) (hnil : ¬Means pat []) (rep : List Char) :
    ∃ r, substitutionUnanchored val pat rep global = some r ∧
      Replaced (Shortest (Means pat)) rep global val r := by
  cases global with
  | false => exact globReplaceFirst_ascii hglob h hnil rep
  | true =>
    have hsize : size val = val.length := by rw [size, Utf8.encode_of_ascii h]
    obtain ⟨r, hloop, hrep⟩ := @globReplaceLoop_ascii pat [] val rep (size val + 1) h hnil (by omega)
    refine ⟨r, ?_, hrep⟩
    rw [substitutionUnanchored, if_pos rfl, globReplaceAll, hglob]
    exact hloop

/-- One replacement in a value that is not ASCII: the front that is found, or a panic. -/
theorem replaced_first_inside (hglob : isGlobPattern pat = true) (h : ¬∀ c ∈ val, c.toNat < 0x80)
    (hnil : ¬Means pat []) (rep : List Char) :
    globReplaceFirst val pat rep = none ∨
      (∃ front back, val = front ++ back ∧ (∀ c ∈ front, c.toNat < 0x80) ∧ Means pat front) ∧
        ∃ r, globReplaceFirst val pat rep = some r ∧
          Replaced (Shortest (Means pat)) rep false val r := by
  obtain ⟨n, hn, hbefore, hsize, hinside⟩ := cutAt_inside h
  rw [globReplaceFirst_inside hglob hn hbefore hsize hinside]
  cases hfind : (List.range (n + 1)).find? (fits pat val) with
  | none => exact .inl rfl
  | some k =>
    obtain ⟨-, hk, hshort⟩ := shortest_of_find (Nat.le_of_lt hn) hnil hfind
    have hfront : ∀ c ∈ val.take k, c.toNat < 0x80 := fun c hc =>
      hbefore c (List.take_subset_take_left val hk hc)
    exact .inr ⟨⟨_, _, hshort.starts.cut, hfront, hshort.starts.holds⟩, _, rfl, .first hshort⟩

/-- A front of ASCII that is a match is found. -/
theorem found_front (hglob : isGlobPattern pat = true) (h : ¬∀ c ∈ val, c.toNat < 0x80)
    {front back : List Char} (hcut : val = front ++ back) (hfront : ∀ c ∈ front, c.toNat < 0x80)
    (hmeans : Means pat front) (rep : List Char) : globReplaceFirst val pat rep ≠ none := by
  obtain ⟨n, hn, hbefore, hsize, hinside⟩ := cutAt_inside h
  rw [globReplaceFirst_inside hglob hn hbefore hsize hinside, Ne, Option.map_eq_none_iff,
    List.find?_eq_none]
  intro hnone
  have htake : val.take front.length = front := by rw [hcut, List.take_left]
  have hlen : front.length ≤ n := by
    by_contra hlong
    -- the cut inside the character would be one in the front
    have hlt : n < front.length := by omega
    have hok : cutAt (n + 1) val = some (val.take (n + 1), val.drop (n + 1)) := by
      apply cutAt_ascii _ (by omega)
      intro c hc
      apply hfront c
      rw [← htake]
      exact List.take_subset_take_left val hlt hc
    rw [hinside] at hok
    cases hok
  apply hnone front.length (List.mem_range.mpr (by omega))
  rw [fits, htake]
  exact (globMatches_iff _ _).mpr hmeans

theorem substitutes_of (h : Substitutable val pat global) (rep : List Char) :
    Substitutes val pat rep global := by
  obtain ⟨hne, hpattern⟩ := h
  cases hglob : isGlobPattern pat with
  | false =>
    cases global with
    | false =>
      refine ⟨_, ?_, replaced_replacen hglob hne rep val⟩
      rw [substitutionUnanchored, if_neg Bool.false_ne_true, globReplaceFirst, hglob]
      rfl
    | true =>
      refine ⟨_, ?_, replaced_replace hglob hne rep val 0⟩
      rw [substitutionUnanchored, if_pos rfl, globReplaceAll, hglob]
      rfl
  | true =>
    obtain ⟨hnil, hone, hascii⟩ := hpattern hglob
    have hshort : ∃ r, substitutionUnanchored val pat rep global = some r ∧
        Replaced (Shortest (Means pat)) rep global val r := by
      by_cases hval : ∀ c ∈ val, c.toNat < 0x80
      · exact replaced_unanchored_ascii hglob hval hnil rep
      · obtain ⟨rfl, front, back, hcut, hfront, hmeans⟩ := hascii.resolve_left hval
        rcases replaced_first_inside hglob hval hnil rep with hnone | ⟨-, hr⟩
        · exact absurd hnone (found_front hglob hval hcut hfront hmeans rep)
        · exact hr
    obtain ⟨r, hr, hrep⟩ := hshort
    exact ⟨r, hr, replaced_longest (means_unique_or_bridged pat) hone hrep⟩

/-- An empty match makes the value longer by a replacement of one character. -/
theorem not_substitutes_empty (hnil : Means pat []) {d : Char} :
    ¬Substitutes val pat [d] global := by
  rintro ⟨r, hr, hrep⟩
  have hle := replaced_length (fun _ _ _ h => h.starts) hrep
  have hlonger : val.length < r.length := by
    cases hglob : isGlobPattern pat with
    | false =>
      obtain rfl : [] = pat := (means_plain hglob).mp hnil
      cases global with
      | false =>
        rw [substitutionUnanchored, if_neg Bool.false_ne_true, globReplaceFirst, hglob] at hr
        obtain rfl := Option.some.inj hr
        rw [length_replacen_empty, List.length_singleton]
        omega
      | true =>
        rw [substitutionUnanchored, if_pos rfl, globReplaceAll, hglob] at hr
        obtain rfl := Option.some.inj hr
        rw [length_replace_empty, List.length_singleton]
        omega
    | true =>
      cases global with
      | false =>
        rw [substitutionUnanchored, if_neg Bool.false_ne_true, globReplaceFirst_empty hglob hnil] at hr
        obtain rfl := Option.some.inj hr
        exact Nat.lt_succ_self _
      | true =>
        rw [substitutionUnanchored, if_pos rfl, globReplaceAll, hglob] at hr
        by_cases hval : ∀ c ∈ val, c.toNat < 0x80
        · have hsize : size val = val.length := by rw [size, Utf8.encode_of_ascii hval]
          obtain ⟨r', hloop, hlen⟩ :=
            @globReplaceLoop_empty pat [] val [d] (size val + 1) hval hnil (by omega)
          obtain rfl : r' = r := Option.some.inj (hloop.symm.trans hr)
          rw [hlen, List.length_singleton]
          omega
        · obtain ⟨n, -, -, hsize, hinside⟩ := cutAt_inside hval
          have hpanics := @globReplaceLoop_panics pat val [d] (size val + 1) 0 (n + 1) hinside
            (Nat.zero_le _) (by omega) (by omega)
          cases hpanics.symm.trans hr
  omega

/-- Two replacements tell whether the substitution is exact for all: one of one character,
    and one that is longer than the value. -/
theorem substitutable_of {d : Char} (h : Substitutes val pat [d] global) {rep : List Char}
    (hlen : val.length < rep.length) (hlong : Substitutes val pat rep global) :
    Substitutable val pat global := by
  have hnil : ¬Means pat [] := fun hnil => not_substitutes_empty hnil h
  have hne : pat ≠ [] := by
    rintro rfl
    exact hnil ((means_plain rfl).mpr rfl)
  refine ⟨hne, fun hglob => ⟨hnil, ?_⟩⟩
  obtain ⟨r, hr, hrep⟩ := hlong
  by_cases hval : ∀ c ∈ val, c.toNat < 0x80
  · obtain ⟨r', hr', hshort⟩ := replaced_unanchored_ascii hglob hval hnil rep
    obtain rfl := Option.some.inj (hr'.symm.trans hr)
    exact ⟨oneMatch_of_replaced (means_unique_or_bridged pat) hlen hshort hrep, .inl hval⟩
  · cases global with
    | true =>
      rw [substitutionUnanchored, if_pos rfl, globReplaceAll, hglob] at hr
      obtain ⟨n, -, -, hsize, hinside⟩ := cutAt_inside hval
      have hpanics := @globReplaceLoop_panics pat val rep (size val + 1) 0 (n + 1) hinside
        (Nat.zero_le _) (by omega) (by omega)
      cases hpanics.symm.trans hr
    | false =>
      rw [substitutionUnanchored, if_neg Bool.false_ne_true] at hr
      rcases replaced_first_inside hglob hval hnil rep with hnone | ⟨hfront, r', hr', hshort⟩
      · cases hnone.symm.trans hr
      · obtain rfl := Option.some.inj (hr'.symm.trans hr)
        exact ⟨oneMatch_of_replaced (means_unique_or_bridged pat) hlen hshort hrep,
          .inr ⟨rfl, hfront⟩⟩

end

theorem stripArrayGlobSuffix_of_last {front : List Char} {d : Char} (hd : d ≠ ']') :
    stripArrayGlobSuffix (front ++ [d]) = none := by
  have hsuffix : ∀ c, ['[', c, ']'].isSuffixOf (front ++ [d]) = false := by
    intro c
    rw [Bool.eq_false_iff]
    intro hs
    obtain ⟨u, hu⟩ := List.isSuffixOf_iff_suffix.mp hs
    have hlast := congrArg List.getLast? hu
    simp only [List.getLast?_append, List.getLast?_singleton] at hlast
    exact hd (Option.some.inj hlast).symm
  rw [stripArrayGlobSuffix, hsuffix, hsuffix]
  rfl

/-- A substitution as it stands after the name and its slash. -/
def substitutionText (pat rep : List Char) (global : Bool) : List Char :=
  (if global then ['/'] else []) ++ (pat ++ '/' :: rep)

section

variable (x : Rules) (depth : Nat) {v pat rep : List Char} {s : ShellState} {value : String}
variable {global : Bool}

theorem tryExpandSubstitution_text (hv : isValidIdentifier v = true)
    (hvalue : s.getVar (String.ofList v) = some value) (hslash : '/' ∉ pat)
    (hanchor : pat.head? ≠ some '#' ∧ pat.head? ≠ some '%') (hfirst : global = false → pat ≠ []) :
    tryExpandSubstitution (v ++ '/' :: substitutionText pat rep global) s =
      .ofResult (substitutionUnanchored value.toList pat rep global) := by
  have hname : ∀ b, isNameByte b = true → (b != '/') = true := fun b => bne_of_name (by decide)
  have hpat : ∀ b ∈ pat, (b != '/') = true := by
    intro b hb
    rw [bne_iff_ne]
    rintro rfl
    exact hslash hb
  have hglobal : decide ((substitutionText pat rep global).head? = some '/') = global := by
    cases global with
    | true => rfl
    | false =>
      obtain ⟨c, p, rfl⟩ := List.exists_cons_of_ne_nil (hfirst rfl)
      rw [decide_eq_false_iff_not]
      intro heq
      obtain rfl : c = '/' := Option.some.inj heq
      exact hslash List.mem_cons_self
  have hrest : (if global then (substitutionText pat rep global).drop 1
      else substitutionText pat rep global) = pat ++ '/' :: rep := by
    cases global <;> rfl
  have hplain : parseSubstAnchor (pat ++ '/' :: rep) = (.none, []) := by
    unfold parseSubstAnchor
    cases pat with
    | nil => rfl
    | cons c p =>
      split
      · next heq => exact absurd (congrArg some (List.cons.inj heq).1) hanchor.1
      · next heq => exact absurd (congrArg some (List.cons.inj heq).1) hanchor.2
      · rfl
  have hparts : parseSubstPatRep (pat ++ '/' :: rep) .none = (pat, rep) := by
    rw [parseSubstPatRep, if_neg (fun h => h.1 rfl), List.takeWhile_append_of_pos hpat,
      List.dropWhile_append_of_pos hpat]
    simp
  unfold tryExpandSubstitution
  dsimp only
  rw [takeWhile_identifier hv hname (by decide), dropWhile_identifier hv hname (by decide), hv,
    if_neg (by simp), List.drop_one, List.tail_cons, hglobal, hrest, hplain, hvalue]
  dsimp only
  rw [hparts]
  rfl

/-- What `expand_parameter` makes of a substitution: a text that ends like a subscript is taken
    for one. -/
theorem expandParameter_substitution (hv : isValidIdentifier v = true)
    (hvalue : s.getVar (String.ofList v) = some value) (hslash : '/' ∉ pat)
    (hanchor : pat.head? ≠ some '#' ∧ pat.head? ≠ some '%') (hfirst : global = false → pat ≠ []) :
    expandParameter x depth (v ++ '/' :: substitutionText pat rep global) s =
      (stripArrayGlobSuffix (v ++ '/' :: substitutionText pat rep global)).elim
        ((substitutionUnanchored value.toList pat rep global).map fun text => ([], text))
        fun base => some ([], joinWords (s.getArrayValues (String.ofList base))) := by
  have hforms : forms x (v ++ '/' :: substitutionText pat rep global) s =
      (stripArrayGlobSuffix (v ++ '/' :: substitutionText pat rep global)).elim
        (.ofResult (substitutionUnanchored value.toList pat rep global))
        fun base => .handled [] (joinWords (s.getArrayValues (String.ofList base))) := by
    rw [forms_name x hv (by decide) (by decide), tryExpandArrayAllValues,
      tryExpandSubstitution_text hv hvalue hslash hanchor hfirst]
    cases stripArrayGlobSuffix (v ++ '/' :: substitutionText pat rep global) with
    | some base => rfl
    | none => cases substitutionUnanchored value.toList pat rep global <;> rfl
  rw [expandParameter_eq, hforms]
  cases stripArrayGlobSuffix (v ++ '/' :: substitutionText pat rep global) with
  | some base => rfl
  | none => cases substitutionUnanchored value.toList pat rep global <;> rfl

/-- A substitution whose text does not end like a subscript replaces the leftmost longest
    nonempty matches, whatever the replacement, exactly when no other choice of matches is
    open to it; one whose text does gives the values of an array. -/
theorem substitution_exact_iff (hv : isValidIdentifier v = true)
    (hvalue : s.getVar (String.ofList v) = some value) (hslash : '/' ∉ pat)
    (hanchor : pat.head? ≠ some '#' ∧ pat.head? ≠ some '%') (hfirst : global = false → pat ≠ []) :
    ((∀ rep, stripArrayGlobSuffix (v ++ '/' :: substitutionText pat rep global) = none →
        ∃ r, expandParameter x depth (v ++ '/' :: substitutionText pat rep global) s = some ([], r) ∧
          Replaced (Longest (Means pat)) rep global value.toList r) ↔
      Substitutable value.toList pat global) ∧
    ∀ rep base, stripArrayGlobSuffix (v ++ '/' :: substitutionText pat rep global) = some base →
      expandParameter x depth (v ++ '/' :: substitutionText pat rep global) s =
        some ([], joinWords (s.getArrayValues (String.ofList base))) := by
  have hexpand := fun rep =>
    @expandParameter_substitution x depth v pat rep s value global hv hvalue hslash hanchor hfirst
  have hiff : ∀ rep, stripArrayGlobSuffix (v ++ '/' :: substitutionText pat rep global) = none →
      ((∃ r, expandParameter x depth (v ++ '/' :: substitutionText pat rep global) s = some ([], r) ∧
        Replaced (Longest (Means pat)) rep global value.toList r) ↔
        Substitutes value.toList pat rep global) := by
    intro rep hplain
    rw [hexpand rep, hplain, Option.elim_none, Substitutes]
    cases substitutionUnanchored value.toList pat rep global with
    | none =>
      constructor
      · rintro ⟨r, hr, -⟩
        cases hr
      · rintro ⟨r, hr, -⟩
        cases hr
    | some text =>
      constructor
      · rintro ⟨r, hr, hrep⟩
        exact ⟨r, congrArg some (Prod.mk.inj (Option.some.inj hr)).2, hrep⟩
      · rintro ⟨r, hr, hrep⟩
        exact ⟨r, by rw [hr]; rfl, hrep⟩
  -- replacements of one letter do not look like a subscript
  have hletters : ∀ n, stripArrayGlobSuffix
      (v ++ '/' :: substitutionText pat (List.replicate (n + 1) 'x') global) = none := by
    intro n
    obtain ⟨front, hfront⟩ : ∃ front,
        v ++ '/' :: substitutionText pat (List.replicate (n + 1) 'x') global = front ++ ['x'] := by
      rw [substitutionText, List.replicate_succ']
      exact ⟨v ++ '/' :: ((if global then ['/'] else []) ++ (pat ++ '/' :: List.replicate n 'x')),
        by simp⟩
    rw [hfront]
    exact stripArrayGlobSuffix_of_last (by decide)
  refine ⟨⟨?_, ?_⟩, ?_⟩
  · intro h
    refine @substitutable_of _ _ _ 'x' ((hiff ['x'] (hletters 0)).mp (h _ (hletters 0))) _ ?_
      ((hiff _ (hletters value.toList.length)).mp (h _ (hletters _)))
    rw [List.length_replicate]
    exact Nat.lt_succ_self _
  · intro h rep hplain
    exact (hiff rep hplain).mpr (substitutes_of h rep)
  · intro rep base hbase
    rw [hexpand rep, hbase, Option.elim_some]

end

/-- `${v/b/x}` of `abc` is `axc`. -/
theorem substitution_exact_letter :
    (∀ rep, stripArrayGlobSuffix (['v'] ++ '/' :: substitutionText ['b'] rep false) = none →
      ∃ r, expandParameter .ascii 0 (['v'] ++ '/' :: substitutionText ['b'] rep false)
        (withV "abc") = some ([], r) ∧
        Replaced (Longest (Means ['b'])) rep false "abc".toList r) ∧
    expandParameter .ascii 0 (['v'] ++ '/' :: substitutionText ['b'] ['x'] false) (withV "abc") =
      some ([], "axc".toList) := by
  have hvalue : (withV "abc").getVar (String.ofList ['v']) = some "abc" := by decide
  exact ⟨(substitution_exact_iff .ascii 0 (by decide) hvalue (by decide) (by decide)
    (fun _ => by decide)).1.mpr ⟨by decide, fun h => absurd h (by decide)⟩, by decide⟩

/-- `${v/a*/x}` of `aab` is `xab`. -/
theorem shortest_match_replaced :
    ¬∀ (x : Rules) (depth : Nat) (v pat rep : List Char) (s : ShellState) (value : String)
      (global : Bool), isValidIdentifier v = true → s.getVar (String.ofList v) = some value →
      '/' ∉ pat → pat.head? ≠ some '#' ∧ pat.head? ≠ some '%' → (global = false → pat ≠ []) →
      ∃ r, expandParameter x depth (v ++ '/' :: substitutionText pat rep global) s = some ([], r) ∧
        Replaced (Longest (Means pat)) rep global value.toList r := by
  intro h
  have hvalue : (withV "aab").getVar (String.ofList ['v']) = some "aab" := by decide
  obtain ⟨r, hr, hrep⟩ := h .ascii 0 ['v'] ['a', '*'] ['x'] (withV "aab") "aab" false (by decide)
    hvalue (by decide) (by decide) fun _ => by decide
  have hcode : expandParameter .ascii 0 (['v'] ++ '/' :: substitutionText ['a', '*'] ['x'] false)
      (withV "aab") = some ([], "xab".toList) := by decide +kernel
  obtain rfl : "xab".toList = r := (Prod.mk.inj (Option.some.inj (hcode.symm.trans hr))).2
  have hwhole : Longest (Means ['a', '*']) "aab".toList "aab".toList [] := by
    refine ⟨⟨rfl, by decide, (globMatches_iff _ _).mp (by decide)⟩, ?_⟩
    intro m rest hm
    have := congrArg List.length hm.cut
    rw [List.length_append] at this
    omega
  exact absurd (replaced_of_first hrep hwhole) (by decide)

end Wasmsh.Params

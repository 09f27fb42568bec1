import Mathlib.Data.List.Basic

/-!
# Splitting a text into fields

A word is read from the left.  Some of its symbols may separate fields, the others are part of
the field they stand in.  A run of blank separators ends a field once and counts for nothing
where no field is open; every other separator, with the blanks around it, ends one field, which
is empty where none was open.

`fields` is that reader.  The results of the module compare it with a splitter that drops empty
pieces: `filter_fields`, the fields that are not empty are the pieces between separators, and
`nil_mem_fields_fresh`, there is an empty field exactly where two hard separators stand with
blanks only between them, or one where no field is open.
-/

namespace FieldSplitting

variable {α : Type}

/-! ## 1. The reader -/

/-- What stands before the next symbol: no field, a field that a blank has ended, or a field. -/
inductive Progress (α : Type) where
  | fresh
  | closed
  | opened (f : List α)
  deriving DecidableEq, Repr

namespace Progress

/-- The text of the open field. -/
def text : Progress α → List α
  | opened f => f
  | _ => []

/-- The field that the end of the word ends. -/
def last : Progress α → List (List α)
  | opened f => [f]
  | _ => []

/-- The field that a blank ends, and what stands before the symbol behind it. -/
def onBlank : Progress α → List (List α) × Progress α
  | fresh => ([], fresh)
  | closed => ([], closed)
  | opened f => ([f], closed)

/-- The field that another separator ends. -/
def onHard : Progress α → List (List α)
  | fresh => [[]]
  | closed => []
  | opened f => [f]

end Progress

variable (sep blank : α → Bool)

/-- The fields of a word; the symbols with the flag may separate. -/
def fields : Progress α → List (α × Bool) → List (List α)
  | p, [] => p.last
  | p, (c, split) :: xs =>
    if split && sep c then
      if blank c then p.onBlank.1 ++ fields p.onBlank.2 xs
      else p.onHard ++ fields .fresh xs
    else fields (.opened (p.text ++ [c])) xs

/-- Symbols that do not separate. -/
def literal (t : List α) : List (α × Bool) := t.map (·, false)

/-- Symbols of which the separators separate. -/
def expansion (t : List α) : List (α × Bool) := t.map (·, true)

variable {sep blank}

theorem fields_literal (p : Progress α) (t : List α) (h : t ≠ []) (xs : List (α × Bool)) :
    fields sep blank p (literal t ++ xs) = fields sep blank (.opened (p.text ++ t)) xs := by
  induction t generalizing p with
  | nil => exact absurd rfl h
  | cons c t ih =>
    have hstep : fields sep blank p (literal (c :: t) ++ xs) =
        fields sep blank (.opened (p.text ++ [c])) (literal t ++ xs) := rfl
    rw [hstep]
    by_cases ht : t = []
    · rw [ht]
      rfl
    · rw [ih _ ht]
      simp [Progress.text]

/-- The end of a word without further separators. -/
theorem fields_literal_end (p : Progress α) (t : List α) :
    fields sep blank p (literal t) = if t = [] then p.last else [p.text ++ t] := by
  by_cases ht : t = []
  · rw [if_pos ht, ht]
    rfl
  · have h := @fields_literal _ sep blank p t ht []
    rw [List.append_nil] at h
    rw [if_neg ht, h]
    rfl

/-! ## 2. Where a field is empty -/

variable (sep blank)

/-- A separator that is no blank. -/
def isHard (c : α) : Bool := sep c && !blank c

/-- A separator that is a blank. -/
def isSoft (c : α) : Bool := sep c && blank c

/-- Behind blanks only there is a hard separator. -/
def Leads (t : List α) : Prop :=
  ∃ u d v, t = u ++ d :: v ∧ (∀ c ∈ u, isSoft sep blank c = true) ∧ isHard sep blank d = true

/-- There are two hard separators with blanks only between them. -/
def Doubles (t : List α) : Prop :=
  ∃ u d v, t = u ++ d :: v ∧ isHard sep blank d = true ∧ Leads sep blank v

variable {sep blank}

theorem not_leads_nil : ¬ Leads sep blank ([] : List α) := by
  rintro ⟨u, d, v, h, -, -⟩
  simp at h

theorem leads_cons {c : α} {t : List α} : Leads sep blank (c :: t) ↔
    isHard sep blank c = true ∨ isSoft sep blank c = true ∧ Leads sep blank t := by
  constructor
  · rintro ⟨u, d, v, h, hsoft, hhard⟩
    cases u with
    | nil =>
      cases h
      exact .inl hhard
    | cons b u =>
      cases h
      exact .inr ⟨hsoft c (.head _), u, d, v, rfl, fun b hb => hsoft b (.tail _ hb), hhard⟩
  · rintro (hhard | ⟨hc, u, d, v, rfl, hsoft, hhard⟩)
    · exact ⟨[], c, t, rfl, (by simp), hhard⟩
    · refine ⟨c :: u, d, v, rfl, ?_, hhard⟩
      rintro b (_ | ⟨_, hb⟩)
      · exact hc
      · exact hsoft b hb

theorem not_doubles_nil : ¬ Doubles sep blank ([] : List α) := by
  rintro ⟨u, d, v, h, -, -⟩
  simp at h

theorem doubles_cons {c : α} {t : List α} : Doubles sep blank (c :: t) ↔
    isHard sep blank c = true ∧ Leads sep blank t ∨ Doubles sep blank t := by
  constructor
  · rintro ⟨u, d, v, h, hhard, hleads⟩
    cases u with
    | nil =>
      cases h
      exact .inl ⟨hhard, hleads⟩
    | cons b u =>
      cases h
      exact .inr ⟨u, d, v, rfl, hhard, hleads⟩
  · rintro (⟨hhard, hleads⟩ | ⟨u, d, v, rfl, hhard, hleads⟩)
    · exact ⟨[], c, t, rfl, hhard, hleads⟩
    · exact ⟨c :: u, d, v, rfl, hhard, hleads⟩

/-- What stands before the text, as far as empty fields go. -/
def Progress.Full : Progress α → Prop
  | fresh => False
  | closed => True
  | opened f => f ≠ []

variable {p : Progress α} {t u : List α}

/-- Where no field is open a hard separator ends an empty one. -/
theorem nil_mem_fields (hp : p.Full ∨ p = .fresh) :
    [] ∈ fields sep blank p (expansion t ++ literal u) ↔
      p = .fresh ∧ Leads sep blank t ∨ Doubles sep blank t := by
  induction t generalizing p with
  | nil =>
    simp only [not_leads_nil, not_doubles_nil, and_false, or_false, iff_false]
    change [] ∉ fields sep blank p (literal u)
    rw [fields_literal_end]
    split
    · rcases p with _ | _ | f
      · simp [Progress.last]
      · simp [Progress.last]
      · have hf : f ≠ [] := hp.resolve_right (by simp)
        simp [Progress.last, hf.symm]
    · next hu =>
      rw [List.mem_singleton, List.nil_eq, List.append_eq_nil_iff]
      exact fun h => hu h.2
  | cons c t ih =>
    rw [leads_cons, doubles_cons]
    change [] ∈ fields sep blank p ((c, true) :: (expansion t ++ literal u)) ↔ _
    rw [fields, Bool.true_and]
    by_cases hsep : sep c = true
    · rw [if_pos hsep]
      by_cases hblank : blank c = true
      · have hhard : isHard sep blank c = false := by simp [isHard, hblank]
        have hsoft : isSoft sep blank c = true := by simp [isSoft, hsep, hblank]
        rw [if_pos hblank]
        rcases p with _ | _ | f
        · have h := ih (p := .fresh) (.inr rfl)
          simpa [Progress.onBlank, hhard, hsoft] using h
        · have h := ih (p := .closed) (.inl trivial)
          simpa [Progress.onBlank, hhard, hsoft] using h
        · have h := ih (p := .closed) (.inl trivial)
          have hf : f ≠ [] := hp.resolve_right (by simp)
          simpa [Progress.onBlank, hhard, hsoft, hf.symm] using h
      · have hhard : isHard sep blank c = true := by simp [isHard, hsep, hblank]
        have h := ih (p := .fresh) (.inr rfl)
        rw [if_neg hblank]
        rcases p with _ | _ | f
        · simp [Progress.onHard, hhard]
        · simpa [Progress.onHard, hhard] using h
        · have hf : f ≠ [] := hp.resolve_right (by simp)
          simpa [Progress.onHard, hhard, hf.symm] using h
    · have hhard : isHard sep blank c = false := by simp [isHard, hsep]
      have hsoft : isSoft sep blank c = false := by simp [isSoft, hsep]
      rw [if_neg hsep]
      have h := ih (p := .opened (p.text ++ [c])) (.inl (by simp [Progress.Full]))
      simpa [hhard, hsoft] using h

/-! ## 3. The fields that are not empty -/

/-- Texts with one before the first and one behind the last. -/
def glue (f : List α) : List (List α) → List α → List (List α)
  | [], u => [f ++ u]
  | [x], u => [f ++ x ++ u]
  | x :: y :: xs, u => (f ++ x) :: glue [] (y :: xs) u

theorem glue_cons (f x : List α) {xs : List (List α)} (h : xs ≠ []) (u : List α) :
    glue f (x :: xs) u = (f ++ x) :: glue [] xs u := by
  obtain ⟨y, xs, rfl⟩ := List.exists_cons_of_ne_nil h
  rfl

theorem glue_modifyHead (f x : List α) {xs : List (List α)} (h : xs ≠ []) (u : List α) :
    glue f (xs.modifyHead (x ++ ·)) u = glue (f ++ x) xs u := by
  obtain ⟨y, xs, rfl⟩ := List.exists_cons_of_ne_nil h
  cases xs with
  | nil => simp [glue]
  | cons z xs => simp [glue]

/-- The fields that are not empty are the pieces between separators that are not, with the
    texts on both sides joined to the outer ones. -/
theorem filter_fields (p : Progress α) (t u : List α) :
    (fields sep blank p (expansion t ++ literal u)).filter (!·.isEmpty) =
      (glue p.text (t.splitOnP sep) u).filter (!·.isEmpty) := by
  induction t generalizing p with
  | nil =>
    change (fields sep blank p (literal u)).filter (!·.isEmpty) = _
    rw [fields_literal_end, List.splitOnP_nil]
    by_cases hu : u = []
    · rw [if_pos hu, hu]
      cases p <;> simp [Progress.last, Progress.text, glue]
    · rw [if_neg hu]
      simp [glue]
  | cons c t ih =>
    change (fields sep blank p ((c, true) :: (expansion t ++ literal u))).filter (!·.isEmpty) = _
    have hne : t.splitOnP sep ≠ [] := List.splitOnP_ne_nil _ _
    rw [fields, Bool.true_and, List.splitOnP_cons_eq_if_modifyHead]
    by_cases hsep : sep c = true
    · rw [if_pos hsep, if_pos hsep, glue_cons _ _ hne, List.append_nil]
      by_cases hblank : blank c = true
      · rw [if_pos hblank, List.filter_append, ih]
        rcases p with _ | _ | f
        · simp [Progress.onBlank, Progress.text]
        · simp [Progress.onBlank, Progress.text]
        · rw [Progress.onBlank, Progress.text, ← List.filter_append]
          rfl
      · rw [if_neg hblank, List.filter_append, ih]
        rcases p with _ | _ | f
        · simp [Progress.onHard, Progress.text]
        · simp [Progress.onHard, Progress.text]
        · rw [Progress.onHard, Progress.text, ← List.filter_append]
          rfl
    · rw [if_neg hsep, if_neg hsep, ih]
      exact congrArg _ (glue_modifyHead p.text [c] hne u).symm

/-! ## 4. A splitter that drops empty pieces -/

/-- The fields of a splitter that joins the outer pieces to what stands around them. -/
def joinPieces (f : List α) (pieces : List (List α)) (u : List α) : List (List α) :=
  (glue f pieces u).filter (!·.isEmpty)

variable (sep) in
/-- No separator of the text stands next to one of the two texts around it, unless all of the
    text separates and there is only one text around it. -/
structure Apart (f t u : List α) : Prop where
  left : f = [] ∨ (∀ c ∈ t.head?, sep c = false) ∨ (∀ c ∈ t, sep c = true) ∧ u = []
  right : u = [] ∨ (∀ c ∈ t.getLast?, sep c = false) ∨ (∀ c ∈ t, sep c = true) ∧ f = []

/-- A text without separators is one piece. -/
theorem splitOnP_cases (sep : α → Bool) (t : List α) :
    (∀ c ∈ t, sep c = false) ∧ t.splitOnP sep = [t] ∨
      ∃ x m y, t.splitOnP sep = x :: m ++ [y] ∧ (x = [] ↔ ∃ c ∈ t.head?, sep c = true) ∧
        (y = [] ↔ ∃ c ∈ t.getLast?, sep c = true) := by
  induction t with
  | nil => exact .inl ⟨by simp, List.splitOnP_nil⟩
  | cons c t ih =>
    rw [List.splitOnP_cons_eq_if_modifyHead]
    by_cases hsep : sep c = true
    · right
      rw [if_pos hsep]
      rcases ih with ⟨hall, ht⟩ | ⟨x, m, y, ht, -, hlast⟩
      · refine ⟨[], [], t, by rw [ht]; rfl, by simp [hsep], ?_⟩
        cases t with
        | nil => simp [hsep]
        | cons d t =>
          have hno := hall _ (List.getLast_mem (List.cons_ne_nil d t))
          simp [List.getLast?_eq_some_getLast, hno]
      · refine ⟨[], x :: m, y, by rw [ht]; rfl, by simp [hsep], ?_⟩
        have hne : t ≠ [] := by
          rintro rfl
          simp at ht
        obtain ⟨d, t, rfl⟩ := List.exists_cons_of_ne_nil hne
        rw [hlast, List.getLast?_cons_cons]
    · rw [if_neg hsep]
      rcases ih with ⟨hall, ht⟩ | ⟨x, m, y, ht, -, hlast⟩
      · refine .inl ⟨?_, by rw [ht]; rfl⟩
        rintro b (_ | ⟨_, hb⟩)
        · exact eq_false_of_ne_true hsep
        · exact hall b hb
      · refine .inr ⟨c :: x, m, y, by rw [ht]; rfl, by simp [hsep], ?_⟩
        have hne : t ≠ [] := by
          rintro rfl
          simp at ht
        obtain ⟨d, t, rfl⟩ := List.exists_cons_of_ne_nil hne
        rw [hlast, List.getLast?_cons_cons]

/-- No piece is left where all of the text separates. -/
theorem filter_splitOnP_eq_nil_iff {t : List α} :
    (t.splitOnP sep).filter (!·.isEmpty) = [] ↔ ∀ c ∈ t, sep c = true := by
  induction t with
  | nil => simp
  | cons c t ih =>
    rw [List.splitOnP_cons_eq_if_modifyHead, List.forall_mem_cons]
    by_cases hsep : sep c = true
    · rw [if_pos hsep, List.filter_cons_of_neg (by simp), ih]
      simp [hsep]
    · rw [if_neg hsep]
      obtain ⟨x, xs, ht⟩ := List.exists_cons_of_ne_nil (List.splitOnP_ne_nil sep t)
      simp [ht, hsep]

variable {f : List α} {q q' : List (List α)}

theorem glue_ends (f x y u : List α) (m : List (List α)) :
    glue f (x :: m ++ [y]) u = (f ++ x) :: (m ++ [y ++ u]) := by
  induction m generalizing f x with
  | nil => rfl
  | cons z m ih => exact congrArg (_ :: ·) (ih [] z)

theorem joinPieces_ends (f x y u : List α) (m : List (List α)) :
    joinPieces f (x :: m ++ [y]) u = [f ++ x].filter (!·.isEmpty) ++ (m.filter (!·.isEmpty) ++
      [y ++ u].filter (!·.isEmpty)) := by
  rw [joinPieces, glue_ends, ← List.filter_append, ← List.filter_append, List.singleton_append]

/-- There is nothing empty among pieces that are not empty. -/
theorem joinPieces_of_pieces {x : List α} (hq : ∀ z ∈ x :: q, z ≠ []) :
    joinPieces f (x :: q) u = glue f (x :: q) u := by
  rw [joinPieces, List.filter_eq_self]
  rcases List.eq_nil_or_concat q with rfl | ⟨m, y, rfl⟩
  · have hx := hq x (.head _)
    simp [glue, hx]
  · rw [List.concat_eq_append] at hq ⊢
    rw [← List.cons_append, glue_ends]
    intro z hz
    rw [List.mem_cons, List.mem_append, List.mem_singleton] at hz
    rcases hz with rfl | hz | rfl
    · have hx := hq x (.head _)
      simp [hx]
    · have hz := hq z (by simp [hz])
      simp [hz]
    · have hy := hq y (by simp)
      simp [hy]

theorem glue_injective {x y : List α} (h : glue f (x :: q) u = glue f (y :: q') u) :
    x :: q = y :: q' := by
  induction q generalizing f x y q' with
  | nil =>
    cases q' with
    | nil => simpa [glue] using h
    | cons z q' => cases q' <;> simp [glue] at h
  | cons z q ih =>
    cases q' with
    | nil => cases q <;> simp [glue] at h
    | cons z' q' =>
      rw [glue, glue, List.cons.injEq, List.append_cancel_left_eq] at h
      rw [h.1, ih h.2]

theorem joinPieces_nil_ne {x : List α} (hq : ∀ z ∈ x :: q, z ≠ []) :
    joinPieces f [] u ≠ joinPieces f (x :: q) u := by
  intro h
  have hx : 0 < x.length := List.length_pos_iff.mpr (hq x (.head _))
  rw [joinPieces_of_pieces hq] at h
  have hle := List.length_filter_le (!·.isEmpty) [f ++ u]
  change (joinPieces f [] u).length ≤ 1 at hle
  rw [h] at hle
  rcases List.eq_nil_or_concat q with rfl | ⟨m, z, rfl⟩
  · have hmem : f ++ x ++ u ∈ joinPieces f [] u := by
      rw [h]
      exact .head _
    have heq := congrArg List.length (List.mem_singleton.mp (List.mem_filter.mp hmem).1)
    simp only [List.length_append] at heq
    omega
  · rw [List.concat_eq_append, ← List.cons_append, glue_ends] at hle
    simp at hle

/-- Pieces that are not empty can be told from the fields. -/
theorem joinPieces_injective (hq : ∀ z ∈ q, z ≠ []) (hq' : ∀ z ∈ q', z ≠ [])
    (h : joinPieces f q u = joinPieces f q' u) : q = q' := by
  cases q with
  | nil =>
    cases q' with
    | nil => rfl
    | cons y q' => exact absurd h (joinPieces_nil_ne hq')
  | cons x q =>
    cases q' with
    | nil => exact absurd h.symm (joinPieces_nil_ne hq)
    | cons y q' =>
      rw [joinPieces_of_pieces hq, joinPieces_of_pieces hq'] at h
      exact glue_injective h

theorem mem_pieces {x : List α} (h : x ∈ (t.splitOnP sep).filter (!·.isEmpty)) : x ≠ [] := by
  have hx := (List.mem_filter.mp h).2
  rintro rfl
  cases hx

theorem joinPieces_nil_left (y u : List α) (m : List (List α)) :
    joinPieces [] (m ++ [y]) u = m.filter (!·.isEmpty) ++ [y ++ u].filter (!·.isEmpty) := by
  cases m with
  | nil => rfl
  | cons x m =>
    rw [joinPieces_ends, ← List.append_assoc, ← List.filter_append, List.nil_append,
      List.singleton_append]

theorem joinPieces_nil_right (f x : List α) (m : List (List α)) :
    joinPieces f (x :: m) [] = [f ++ x].filter (!·.isEmpty) ++ m.filter (!·.isEmpty) := by
  rcases List.eq_nil_or_concat m with rfl | ⟨m, y, rfl⟩
  · simp [joinPieces, glue]
  · rw [List.concat_eq_append, ← List.cons_append, joinPieces_ends, List.filter_append,
      List.append_nil]

theorem joinPieces_nil_nil (m : List (List α)) : joinPieces [] m [] = m.filter (!·.isEmpty) := by
  cases m with
  | nil => rfl
  | cons x m =>
    rw [joinPieces_nil_right, ← List.filter_append, List.nil_append, List.singleton_append]

theorem filter_pieces (m : List (List α)) :
    (m.filter (!·.isEmpty)).filter (!·.isEmpty) = m.filter (!·.isEmpty) :=
  List.filter_eq_self.mpr fun _ hz => (List.mem_filter.mp hz).2

theorem filter_nil_cons (m : List (List α)) :
    (([] : List α) :: m).filter (!·.isEmpty) = m.filter (!·.isEmpty) := rfl

theorem filter_ne_cons {x : List α} (hx : x ≠ []) (m : List (List α)) :
    (x :: m).filter (!·.isEmpty) = x :: m.filter (!·.isEmpty) :=
  List.filter_cons_of_pos (by simp [hx])

/-- Where all of the text separates, the texts around it are joined. -/
theorem joinPieces_of_all {x y : List α} {m : List (List α)}
    (hm : (x :: m ++ [y]).filter (!·.isEmpty) = []) (h : f = [] ∨ u = []) :
    joinPieces f (x :: m ++ [y]) u = joinPieces f [] u := by
  rw [List.filter_append, List.append_eq_nil_iff] at hm
  have hx : x = [] := by
    by_contra hx
    rw [filter_ne_cons hx] at hm
    exact List.cons_ne_nil _ _ hm.1
  have hy : y = [] := by
    by_contra hy
    rw [filter_ne_cons hy] at hm
    exact List.cons_ne_nil _ _ hm.2
  subst hx hy
  have hnone : m.filter (!·.isEmpty) = [] := hm.1
  rw [joinPieces_ends, hnone]
  rcases h with rfl | rfl
  · rfl
  · exact List.append_nil _

/-- Where nothing is joined that a separator parts, empty pieces make no difference. -/
theorem joinPieces_splitOnP (h : Apart sep f t u) :
    joinPieces f (t.splitOnP sep) u = joinPieces f ((t.splitOnP sep).filter (!·.isEmpty)) u := by
  rcases splitOnP_cases sep t with ⟨-, ht⟩ | ⟨x, m, y, ht, hhead, hlast⟩
  · rw [ht]
    by_cases hnil : t = []
    · rw [hnil]
      simp [joinPieces, glue]
    · rw [filter_ne_cons hnil, List.filter_nil]
  · by_cases hall : ∀ c ∈ t, sep c = true
    · have hnil := filter_splitOnP_eq_nil_iff.mpr hall
      rw [hnil, ht]
      rw [ht] at hnil
      refine joinPieces_of_all hnil ?_
      rcases h.left with hf | hno | ⟨-, hu⟩
      · exact .inl hf
      · have hne : t ≠ [] := by
          rintro rfl
          simp at ht
        obtain ⟨c, t, rfl⟩ := List.exists_cons_of_ne_nil hne
        have hc := hall c (.head _)
        rw [hno c rfl] at hc
        cases hc
      · exact .inr hu
    · have hf : x = [] → f = [] := by
        intro hx
        obtain ⟨c, hc, hsep⟩ := hhead.mp hx
        rcases h.left with hf | hno | ⟨hyes, -⟩
        · exact hf
        · rw [hno c hc] at hsep
          cases hsep
        · exact absurd hyes hall
      have hu : y = [] → u = [] := by
        intro hy
        obtain ⟨c, hc, hsep⟩ := hlast.mp hy
        rcases h.right with hu | hno | ⟨hyes, -⟩
        · exact hu
        · rw [hno c hc] at hsep
          cases hsep
        · exact absurd hyes hall
      rw [ht, joinPieces_ends, List.filter_append]
      by_cases hx : x = []
      · rw [hx, hf hx, filter_nil_cons]
        by_cases hy : y = []
        · rw [hy, hu hy]
          rw [joinPieces_nil_nil, List.filter_append, filter_pieces]
          rfl
        · rw [filter_ne_cons hy, List.filter_nil, joinPieces_nil_left, filter_pieces]
          rfl
      · rw [filter_ne_cons hx]
        by_cases hy : y = []
        · rw [hy, hu hy, List.cons_append, joinPieces_nil_right, List.filter_append, filter_pieces]
          rfl
        · rw [filter_ne_cons hy, List.filter_nil, joinPieces_ends, filter_pieces]

theorem head_joinPieces {x : List α} (hq : ∀ z ∈ x :: q, z ≠ []) :
    ∃ v, v ≠ [] ∧ (joinPieces f (x :: q) u).head? = some (f ++ v) := by
  have hx := hq x (.head _)
  rw [joinPieces_of_pieces hq]
  cases q with
  | nil => exact ⟨x ++ u, by simp [hx], by simp [glue]⟩
  | cons y q => exact ⟨x, hx, rfl⟩

theorem getLast_joinPieces {x : List α} (hq : ∀ z ∈ x :: q, z ≠ []) :
    ∃ v, v ≠ [] ∧ (joinPieces f (x :: q) u).getLast? = some (v ++ u) := by
  rw [joinPieces_of_pieces hq]
  rcases List.eq_nil_or_concat q with rfl | ⟨m, y, rfl⟩
  · have hx := hq x (.head _)
    exact ⟨f ++ x, by simp [hx], rfl⟩
  · have hy := hq y (by simp)
    rw [List.concat_eq_append, ← List.cons_append, glue_ends, ← List.cons_append,
      List.getLast?_concat]
    exact ⟨y, hy, rfl⟩

/-- Only where nothing is joined that a separator parts. -/
theorem apart_of_joinPieces (hq : ∀ z ∈ q, z ≠ [])
    (h : joinPieces f (t.splitOnP sep) u = joinPieces f q u) :
    Apart sep f t u := by
  rcases splitOnP_cases sep t with ⟨hno, ht⟩ | ⟨x, m, y, ht, hhead, hlast⟩
  · exact ⟨.inr (.inl fun c hc => hno c (List.mem_of_mem_head? hc)),
      .inr (.inl fun c hc => hno c (List.mem_of_mem_getLast? hc))⟩
  · constructor
    · by_contra hnot
      simp only [not_or, not_and, not_forall, Bool.not_eq_false, exists_prop] at hnot
      obtain ⟨hf, hsep, hall⟩ := hnot
      rw [ht, hhead.mpr hsep, joinPieces_ends, List.append_nil, filter_ne_cons hf,
        List.filter_nil] at h
      cases q with
      | nil =>
        have hone : joinPieces f [] u = [f ++ u] := filter_ne_cons (by simp [hf]) []
        rw [hone, List.singleton_append, List.cons.injEq, List.append_eq_nil_iff] at h
        obtain ⟨hfu, hm, hy⟩ := h
        have hu : u = [] := List.self_eq_append_right.mp hfu
        rw [hu, List.append_nil] at hy
        have hnone : (x :: m ++ [y]).filter (!·.isEmpty) = [] := by
          rw [hhead.mpr hsep, List.filter_append, filter_nil_cons, hm, hy]
          rfl
        rw [← ht] at hnone
        exact hall (filter_splitOnP_eq_nil_iff.mp hnone) hu
      | cons z q =>
        obtain ⟨v, hv, hhead⟩ := @head_joinPieces _ u f q z hq
        rw [← h] at hhead
        simp [hv] at hhead
    · by_contra hnot
      simp only [not_or, not_and, not_forall, Bool.not_eq_false, exists_prop] at hnot
      obtain ⟨hu, hsep, hall⟩ := hnot
      rw [ht, hlast.mpr hsep, joinPieces_ends, List.nil_append, filter_ne_cons hu, List.filter_nil,
        ← List.append_assoc] at h
      cases q with
      | nil =>
        have hone : joinPieces f [] u = [f ++ u] := filter_ne_cons (by simp [hu]) []
        rw [hone, List.append_eq_singleton_iff] at h
        rcases h with ⟨hm, hfu⟩ | ⟨-, hbad⟩
        · have hf : f = [] := by
            rw [List.cons.injEq] at hfu
            exact List.self_eq_append_left.mp hfu.1
          rw [List.append_eq_nil_iff, hf, List.nil_append] at hm
          have hnone : (x :: m ++ [y]).filter (!·.isEmpty) = [] := by
            rw [hlast.mpr hsep, List.filter_append, ← List.singleton_append, List.filter_append,
              hm.1, hm.2]
            rfl
          rw [← ht] at hnone
          exact hall (filter_splitOnP_eq_nil_iff.mp hnone) hf
        · exact List.cons_ne_nil _ _ hbad
      | cons z q =>
        obtain ⟨v, hv, hlast⟩ := @getLast_joinPieces _ u f q z hq
        rw [← h] at hlast
        simp [hv] at hlast

/-- The two splitters give the same fields exactly where no field is empty, no separator is
    joined away, and the pieces are the same. -/
theorem fields_eq_joinPieces_iff (blank : α → Bool) (hq : ∀ z ∈ q, z ≠ []) :
    joinPieces f q u = fields sep blank .fresh (literal f ++ (expansion t ++ literal u)) ↔
      (¬ Doubles sep blank t ∧ (f = [] → ¬ Leads sep blank t)) ∧ Apart sep f t u ∧
        q = (t.splitOnP sep).filter (!·.isEmpty) := by
  have hstart : ∃ p : Progress α, (p.Full ∨ p = .fresh) ∧ (p = .fresh ↔ f = []) ∧ p.text = f ∧
      fields sep blank .fresh (literal f ++ (expansion t ++ literal u)) =
        fields sep blank p (expansion t ++ literal u) := by
    by_cases hf : f = []
    · exact ⟨.fresh, .inr rfl, by simp [hf], hf.symm, by rw [hf]; rfl⟩
    · exact ⟨.opened f, .inl hf, by simp [hf], rfl, fields_literal .fresh f hf _⟩
  obtain ⟨p, hp, hfresh, htext, hfields⟩ := hstart
  have hnil := @nil_mem_fields _ sep blank p t u hp
  have hfilter := @filter_fields _ sep blank p t u
  rw [htext] at hfilter
  rw [hfresh] at hnil
  rw [hfields]
  constructor
  · intro h
    have hno : [] ∉ fields sep blank p (expansion t ++ literal u) := by
      rw [← h]
      intro hmem
      cases (List.mem_filter.mp hmem).2
    have hsame : joinPieces f (t.splitOnP sep) u = joinPieces f q u := by
      rw [joinPieces, ← hfilter, ← h]
      exact filter_pieces _
    rw [hnil, not_or, not_and] at hno
    have hapart := apart_of_joinPieces hq hsame
    rw [joinPieces_splitOnP hapart] at hsame
    exact ⟨⟨hno.2, hno.1⟩, hapart, (joinPieces_injective (fun _ => mem_pieces) hq hsame).symm⟩
  · rintro ⟨⟨hdoubles, hleads⟩, hapart, rfl⟩
    have hno : [] ∉ fields sep blank p (expansion t ++ literal u) := by
      rw [hnil]
      rintro (⟨hf, hl⟩ | hd)
      · exact hleads hf hl
      · exact hdoubles hd
    rw [← joinPieces_splitOnP hapart, joinPieces, ← hfilter, List.filter_eq_self]
    intro z hz
    rw [Bool.not_eq_true', List.isEmpty_eq_false_iff]
    rintro rfl
    exact hno hz

end FieldSplitting

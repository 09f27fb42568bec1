import Mathlib.Data.List.Basic
import Mathlib.Data.Nat.Find

/-!
# Replacing matches

A text is searched from its start for matches of a property of texts; the match that is
taken at a place, the longest or the shortest one, is replaced, and the search goes on behind
it or stops.  Taking the shortest matches replaces the same as taking the longest ones when
the first place of a match has matches of one length only, and for every replacement only
then, if the property is one of patterns: with two matches at a place, two matches and what is
between them are again a match.
-/

namespace Replacing

variable {α : Type} {P : List α → Prop} {At : List α → List α → List α → Prop}
variable {rep t m m' rest rest' r : List α} {global : Bool}

/-! ## 1. Matches at a place -/

/-- A nonempty match at the start of a text, and the text behind it. -/
structure StartsWith (P : List α → Prop) (t m rest : List α) : Prop where
  cut : t = m ++ rest
  nonempty : m ≠ []
  holds : P m

structure Longest (P : List α → Prop) (t m rest : List α) : Prop where
  starts : StartsWith P t m rest
  bound : ∀ m' rest', StartsWith P t m' rest' → m'.length ≤ m.length

structure Shortest (P : List α → Prop) (t m rest : List α) : Prop where
  starts : StartsWith P t m rest
  bound : ∀ m' rest', StartsWith P t m' rest' → m.length ≤ m'.length

theorem StartsWith.ne_nil (h : StartsWith P t m rest) : t ≠ [] := by
  rw [h.cut]
  exact List.append_ne_nil_of_left_ne_nil h.nonempty rest

theorem StartsWith.eq_of_length (h : StartsWith P t m rest) (h' : StartsWith P t m' rest')
    (hlen : m.length = m'.length) : m = m' ∧ rest = rest' :=
  List.append_inj (h.cut.symm.trans h'.cut) hlen

theorem exists_shortest (h : StartsWith P t m rest) : ∃ m rest, Shortest P t m rest := by
  classical
  have hsome : ∃ n m rest, StartsWith P t m rest ∧ m.length = n := ⟨_, m, rest, h, rfl⟩
  obtain ⟨m', rest', h', hlen⟩ := Nat.find_spec hsome
  refine ⟨m', rest', h', ?_⟩
  intro m'' rest'' h''
  rw [hlen]
  exact Nat.find_min' hsome ⟨m'', rest'', h'', rfl⟩

theorem exists_longest (h : StartsWith P t m rest) : ∃ m rest, Longest P t m rest := by
  induction hn : rest.length using Nat.strongRecOn generalizing m rest with
  | _ n ih =>
    by_cases hbound : ∀ m' rest', StartsWith P t m' rest' → m'.length ≤ m.length
    · exact ⟨m, rest, h, hbound⟩
    · push Not at hbound
      obtain ⟨m', rest', h', hlong⟩ := hbound
      have hcut := congrArg List.length (h.cut.symm.trans h'.cut)
      rw [List.length_append, List.length_append] at hcut
      exact ih rest'.length (by omega) h' rfl

/-! ## 2. Replacing -/

/-- The text after the replacement of the matches that are taken: of the first, or of each. -/
inductive Replaced (At : List α → List α → List α → Prop) (rep : List α) :
    Bool → List α → List α → Prop
  | nil {global : Bool} : Replaced At rep global [] []
  | skip {global : Bool} {c : α} {t r : List α} :
      (∀ m rest, ¬At (c :: t) m rest) → Replaced At rep global t r →
      Replaced At rep global (c :: t) (c :: r)
  | first {t m rest : List α} : At t m rest → Replaced At rep false t (rep ++ rest)
  | every {t m rest r : List α} :
      At t m rest → Replaced At rep true rest r → Replaced At rep true t (rep ++ r)

/-- A text at whose start nothing is taken. -/
theorem replaced_of_none {c : α} (hnone : ∀ m rest, ¬At (c :: t) m rest)
    (h : Replaced At rep global (c :: t) r) : ∃ r', r = c :: r' ∧ Replaced At rep global t r' := by
  cases h with
  | skip _ hrest => exact ⟨_, rfl, hrest⟩
  | first hm => exact absurd hm (hnone _ _)
  | every hm _ => exact absurd hm (hnone _ _)

/-- No match starts anywhere in the text. -/
def NoMatch (P : List α → Prop) (t : List α) : Prop :=
  ∀ front s m rest, t = front ++ s → ¬StartsWith P s m rest

theorem NoMatch.tail {c : α} (h : NoMatch P (c :: t)) : NoMatch P t := fun front s m rest heq =>
  h (c :: front) s m rest (congrArg (c :: ·) heq)

theorem replaced_noMatch (hat : ∀ t m rest, At t m rest → StartsWith P t m rest)
    (hnone : NoMatch P t) (h : Replaced At rep global t r) : r = t := by
  induction h with
  | nil => rfl
  | skip _ _ ih => rw [ih hnone.tail]
  | first hm => exact absurd (hat _ _ _ hm) (hnone [] _ _ _ rfl)
  | every hm _ _ => exact absurd (hat _ _ _ hm) (hnone [] _ _ _ rfl)

/-- Where there is no room for the replacement, nothing was replaced. -/
theorem replaced_untouched (h : Replaced At rep global t r) (hshort : r.length < rep.length) :
    r = t := by
  induction h with
  | nil => rfl
  | skip _ _ ih => rw [ih (Nat.lt_of_succ_lt hshort)]
  | first _ =>
    rw [List.length_append] at hshort
    omega
  | every _ _ _ =>
    rw [List.length_append] at hshort
    omega

/-- A replacement of one symbol makes no text longer. -/
theorem replaced_length {d : α} (hat : ∀ t m rest, At t m rest → StartsWith P t m rest)
    (h : Replaced At [d] global t r) : r.length ≤ t.length := by
  have hpos : ∀ {t m rest}, At t m rest → rest.length + 1 ≤ t.length := by
    intro t m rest hm
    have hs := hat t m rest hm
    have := List.length_pos_iff.mpr hs.nonempty
    rw [hs.cut, List.length_append]
    omega
  induction h with
  | nil => exact Nat.le_refl _
  | skip _ _ ih => exact Nat.succ_le_succ ih
  | first hm => exact hpos hm
  | every hm _ ih => exact Nat.le_trans (Nat.succ_le_succ ih) (hpos hm)

/-! ## 3. Shortest and longest matches -/

/-- The first place of the text at which a match starts has only one. -/
def OneMatch (P : List α → Prop) : List α → Prop
  | [] => True
  | c :: t =>
    (∀ m rest m' rest', StartsWith P (c :: t) m rest → StartsWith P (c :: t) m' rest' → m = m') ∧
      ((∀ m rest, ¬StartsWith P (c :: t) m rest) → OneMatch P t)

theorem OneMatch.unique (h : OneMatch P t) (hm : StartsWith P t m rest)
    (hm' : StartsWith P t m' rest') : m = m' := by
  cases t with
  | nil => exact absurd rfl hm.ne_nil
  | cons c t => exact h.1 _ _ _ _ hm hm'

/-- Every place has only one match. -/
def Unique (P : List α → Prop) : Prop :=
  ∀ t m rest m' rest', StartsWith P t m rest → StartsWith P t m' rest' → m = m'

/-- Two matches and anything between them are a match. -/
def Bridged (P : List α → Prop) : Prop := ∀ p x q, P p → P q → P (p ++ x ++ q)

theorem oneMatch_of_unique (h : Unique P) : ∀ t, OneMatch P t
  | [] => trivial
  | _ :: t => ⟨fun _ _ _ _ hm hm' => h _ _ _ _ _ hm hm', fun _ => oneMatch_of_unique h t⟩

theorem oneMatch_of_noMatch (h : NoMatch P t) : OneMatch P t := by
  induction t with
  | nil => trivial
  | cons c t ih => exact ⟨fun _ _ _ _ hm => absurd hm (h [] _ _ _ rfl), fun _ => ih h.tail⟩

/-- Behind a longest match there is none. -/
theorem Longest.noMatch (hP : Bridged P) (h : Longest P t m rest) : NoMatch P rest := by
  intro front s m' rest' heq hm'
  have hjoined : StartsWith P t (m ++ front ++ m') rest' := by
    refine ⟨?_, ?_, hP m front m' h.starts.holds hm'.holds⟩
    · rw [h.starts.cut, heq, hm'.cut]
      simp only [List.append_assoc]
    · exact List.append_ne_nil_of_right_ne_nil _ hm'.nonempty
  have hle := h.bound _ _ hjoined
  have hpos := List.length_pos_iff.mpr hm'.nonempty
  rw [List.length_append, List.length_append] at hle
  omega

/-- The only match is the longest. -/
theorem longest_of_unique (hone : OneMatch P t) (hm : StartsWith P t m rest) :
    Longest P t m rest :=
  ⟨hm, fun _ _ hm' => Nat.le_of_eq (congrArg List.length (hone.unique hm' hm))⟩

theorem replaced_longest (hP : Unique P ∨ Bridged P) (hone : OneMatch P t)
    (h : Replaced (Shortest P) rep global t r) : Replaced (Longest P) rep global t r := by
  induction h with
  | nil => exact .nil
  | skip hnone _ ih =>
    have hno : ∀ m rest, ¬StartsWith P _ m rest := fun m rest hm => by
      obtain ⟨m', rest', hs⟩ := exists_shortest hm
      exact hnone m' rest' hs
    exact .skip (fun m rest hm => hno m rest hm.starts) (ih (hone.2 hno))
  | first hm => exact .first (longest_of_unique hone hm.starts)
  | every hm _ ih =>
    have hlong := longest_of_unique hone hm.starts
    refine .every hlong (ih ?_)
    rcases hP with hP | hP
    · exact oneMatch_of_unique hP _
    · exact oneMatch_of_noMatch (hlong.noMatch hP)

theorem Longest.eq (h : Longest P t m rest) (h' : Longest P t m' rest') :
    m = m' ∧ rest = rest' :=
  h.starts.eq_of_length h'.starts
    (Nat.le_antisymm (h'.bound _ _ h.starts) (h.bound _ _ h'.starts))

/-- A text that starts with a match has it replaced. -/
theorem replaced_of_first (h : Replaced (Longest P) rep false t r) (hm : Longest P t m rest) :
    r = rep ++ rest := by
  cases h with
  | nil => exact absurd rfl hm.starts.ne_nil
  | skip hnone _ => exact absurd hm (hnone _ _)
  | first hm' => rw [(hm.eq hm').2]

theorem replaced_of_every (h : Replaced (Longest P) rep true t r) (hm : Longest P t m rest) :
    ∃ r', Replaced (Longest P) rep true rest r' ∧ r = rep ++ r' := by
  cases h with
  | nil => exact absurd rfl hm.starts.ne_nil
  | skip hnone _ => exact absurd hm (hnone _ _)
  | every hm' hrest => exact ⟨_, (hm.eq hm').2 ▸ hrest, rfl⟩

/-- The shortest and the longest match with the same rest leave room for no other. -/
theorem oneMatch_of_rest (hs : Shortest P t m rest) (hl : Longest P t m' rest) :
    OneMatch P t := by
  have hlen : m.length = m'.length := by
    have := congrArg List.length (hs.starts.cut.symm.trans hl.starts.cut)
    rw [List.length_append, List.length_append] at this
    omega
  cases t with
  | nil => trivial
  | cons c t =>
    refine ⟨?_, fun hno => absurd hs.starts (hno _ _)⟩
    intro p restp q restq hp hq
    have h₁ := hs.bound _ _ hp
    have h₂ := hl.bound _ _ hp
    have h₃ := hs.bound _ _ hq
    have h₄ := hl.bound _ _ hq
    exact (hp.eq_of_length hq (by omega)).1

/-- A replacement that is longer than the text tells which matches were taken. -/
theorem oneMatch_of_replaced (hP : Unique P ∨ Bridged P) (hlen : t.length < rep.length)
    (h : Replaced (Shortest P) rep global t r) (h' : Replaced (Longest P) rep global t r) :
    OneMatch P t := by
  rcases hP with hP | hP
  · exact oneMatch_of_unique hP t
  induction h with
  | nil => trivial
  | @skip global c t r hnone _ ih =>
    have hno : ∀ m rest, ¬StartsWith P (c :: t) m rest := fun m rest hm => by
      obtain ⟨m', rest', hs⟩ := exists_shortest hm
      exact hnone m' rest' hs
    refine ⟨fun m rest _ _ hm => absurd hm (hno m rest), fun _ => ?_⟩
    obtain ⟨r', heq, hrest⟩ := replaced_of_none (fun m rest hl => hno m rest hl.starts) h'
    obtain rfl := (List.cons.inj heq).2
    exact ih (Nat.lt_of_succ_lt hlen) hrest
  | @first t m rest hm =>
    obtain ⟨m', rest', hl⟩ := exists_longest hm.starts
    obtain rfl := List.append_cancel_left (replaced_of_first h' hl)
    exact oneMatch_of_rest hm hl
  | @every t m rest r hm hrest ih =>
    obtain ⟨m', rest', hl⟩ := exists_longest hm.starts
    obtain ⟨r', hr', heq⟩ := replaced_of_every h' hl
    obtain rfl := List.append_cancel_left heq
    -- nothing is replaced behind the longest match, so nothing behind the shortest
    obtain rfl := replaced_noMatch (fun _ _ _ h => h.starts) (hl.noMatch hP) hr'
    have hcut := congrArg List.length hl.starts.cut
    rw [List.length_append] at hcut
    obtain rfl := replaced_untouched hrest (by omega)
    exact oneMatch_of_rest hm hl

end Replacing

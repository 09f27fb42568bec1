import Wasmsh.Conditionals
import Wasmsh.GlobMatchers
import Wasmsh.ShellHost

/-!
# Quoted characters in patterns

`case` and `[[ ]]` expand a pattern to a text and match that text.  A pattern whose characters carry
a flag, true for a quoted one, says what is meant: a quoted character stands for itself.
-/

namespace Wasmsh.Globs

open Wildcards

variable {t : List Char}

/-! ## 1. Patterns with flags -/

/-- The items of a class: a quoted character is a member and nothing else. -/
def quotedClassItems (ch : Char) : Bool → Masked → Bool → Masked × Bool
  | _, [], matched => ([], matched)
  | first, lo :: ('-', false) :: hi :: r, matched =>
    if !first && lo == (']', false) then (('-', false) :: hi :: r, matched)
    else quotedClassItems ch false r (matched || (lo.1 ≤ ch && ch ≤ hi.1))
  | first, c :: cs, matched =>
    if !first && c == (']', false) then (cs, matched)
    else quotedClassItems ch false cs (matched || c.1 == ch)

/-- A class after its `[`. -/
def quotedClass (pattern : Masked) (ch : Char) : Masked × Bool :=
  match pattern with
  | ('!', false) :: r => let m := quotedClassItems ch true r false; (m.1, !m.2)
  | ('^', false) :: r => let m := quotedClassItems ch true r false; (m.1, !m.2)
  | r => quotedClassItems ch true r false

theorem quotedClassItems_length (ch : Char) (first m : Bool) (r : Masked) :
    (quotedClassItems ch first r m).1.length ≤ r.length := by
  fun_induction quotedClassItems ch first r m with
  | case1 => exact Nat.le_refl _
  | case2 | case3 first lo hi r m h ih | case4 | case5 first c cs m hne h ih =>
    simp only [List.length_cons]; omega

/-- Where the class ends. -/
def quotedClassRest (r : Masked) : Masked := (quotedClass r ' ').1

theorem quotedClassRest_length (r : Masked) : (quotedClassRest r).length ≤ r.length := by
  unfold quotedClassRest quotedClass
  split
  · exact (quotedClassItems_length _ _ _ _).trans (Nat.le_succ _)
  · exact (quotedClassItems_length _ _ _ _).trans (Nat.le_succ _)
  · exact quotedClassItems_length _ _ _ _

/-- The next element of a pattern with flags. -/
def quotedRead (pattern : Masked) : Option (Element Char × Masked) :=
  match pattern with
  | [] => none
  | ('?', false) :: r => some (.one fun _ => true, r)
  | ('*', false) :: r => some (.star, r)
  | ('[', false) :: r => some (.one fun ch => (quotedClass r ch).2, quotedClassRest r)
  | ('\\', false) :: c :: r => some (.one fun ch => c.1 == ch, r)
  | c :: r => some (.one fun ch => c.1 == ch, r)

/-- How a pattern with flags is meant. -/
def quotedReader : Reader Masked Char where
  read := quotedRead
  finished p := p.all (· == ('*', false))
  size := List.length
  size_lt := by
    intro p e r h
    unfold quotedRead at h
    split at h
    · cases h
    · cases h
      exact Nat.lt_succ_self _
    · cases h
      exact Nat.lt_succ_self _
    · next r' =>
      cases h
      exact Nat.lt_succ_of_le (quotedClassRest_length r')
    · cases h
      simp only [List.length_cons]
      omega
    · cases h
      exact Nat.lt_succ_self _
  finished_of_none := by
    intro p h
    unfold quotedRead at h
    split at h
    · rfl
    all_goals cases h
  finished_of_star := by
    intro p r h
    unfold quotedRead at h
    split at h
    all_goals cases h
    rfl
  finished_of_one := by
    intro p r accepts h
    have hne : ∀ c r', p = c :: r' → c ≠ ('*', false) := by
      rintro c r' rfl rfl
      cases h
    cases p with
    | nil => cases h
    | cons c r' => simp [hne c r' rfl]

/-- The bytes of a text with flags. -/
def maskedBytes (m : Masked) : Masked :=
  m.flatMap fun e => Masked.ofText e.2 (Utf8.encodeChar e.1)

/-- The texts that a pattern with flags means. -/
def Means (m : Masked) (t : List Char) : Prop :=
  Matches (quotedReader.elements (maskedBytes m)) (Utf8.encode t)

/-! ## 2. Flags that can be dropped -/

/-- No quoted character acts in the items of a class. -/
def itemsKeepQuotes : Bool → Masked → Bool
  | _, [] => true
  | first, lo :: ('-', quoted) :: _ :: r =>
    if !first && lo.1 == ']' then !lo.2 else !quoted && itemsKeepQuotes false r
  | first, c :: cs => if !first && c.1 == ']' then !c.2 else itemsKeepQuotes false cs

/-- No quoted character acts in a class. -/
def classKeepsQuotes : Masked → Bool
  | ('!', quoted) :: r => !quoted && itemsKeepQuotes true r
  | ('^', quoted) :: r => !quoted && itemsKeepQuotes true r
  | r => itemsKeepQuotes true r

/-- No quoted character acts in a pattern: the text of the pattern says what is meant. -/
inductive KeepsQuotes : Masked → Prop
  | nil : KeepsQuotes []
  | quoted {c : Char} {r : Masked} : c ≠ '*' → c ≠ '?' → c ≠ '[' → (c = '\\' → r = []) →
    KeepsQuotes r → KeepsQuotes ((c, true) :: r)
  | escape {c : Char × Bool} {r : Masked} : KeepsQuotes r → KeepsQuotes (('\\', false) :: c :: r)
  | bracket {r : Masked} : classKeepsQuotes r = true → KeepsQuotes (quotedClassRest r) →
    KeepsQuotes (('[', false) :: r)
  | plain {c : Char} {r : Masked} : c ≠ '[' → (c = '\\' → r = []) → KeepsQuotes r →
    KeepsQuotes ((c, false) :: r)

theorem not_dash {cs : Masked} (h : ∀ quoted hi r, cs = ('-', quoted) :: hi :: r → False)
    (hi : Char) (r : List Char) : Masked.text cs = '-' :: hi :: r → False := by
  intro heq
  rcases cs with _ | ⟨⟨c, q⟩, _ | ⟨next, cs⟩⟩
  · cases heq
  · cases heq
  · cases heq
    exact h q next cs rfl

theorem quotedClassItems_text {first : Bool} {r : Masked} (h : itemsKeepQuotes first r = true)
    (ch : Char) (matched : Bool) :
    (quotedClassItems ch first r matched).1.text = (classItems ch first r.text matched).1 ∧
      (quotedClassItems ch first r matched).2 = (classItems ch first r.text matched).2 := by
  fun_induction itemsKeepQuotes first r generalizing matched with
  | case1 => exact ⟨rfl, rfl⟩
  | case2 first lo quoted hi r hclose =>
    obtain ⟨c, q⟩ := lo
    simp only [Bool.and_eq_true, beq_iff_eq, Bool.not_eq_eq_eq_not, Bool.not_true] at hclose h
    obtain ⟨rfl, rfl⟩ := hclose
    subst h
    cases quoted with
    | false => exact ⟨rfl, rfl⟩
    | true => exact ⟨rfl, rfl⟩
  | case3 first lo quoted hi r hclose ih =>
    simp only [Bool.and_eq_true, Bool.not_eq_eq_eq_not, Bool.not_true] at h
    obtain ⟨rfl, hitems⟩ := h
    have hopen : ¬ (!first && lo == (']', false)) = true := by
      intro hboth
      simp only [Bool.and_eq_true, beq_iff_eq] at hboth hclose
      exact hclose ⟨hboth.1, by rw [hboth.2]⟩
    have htext : Masked.text (lo :: ('-', false) :: hi :: r) =
      lo.1 :: '-' :: hi.1 :: Masked.text r := rfl
    rw [htext, quotedClassItems, if_neg hopen, classItems, if_neg hclose]
    exact ih hitems _
  | case4 first c cs hne hclose =>
    obtain ⟨b, q⟩ := c
    have hdash : ∀ hi r, cs = ('-', false) :: hi :: r → False := fun hi r => hne false hi r
    have hdash' : ∀ hi r, Masked.text cs = '-' :: hi :: r → False := not_dash hne
    have htext : Masked.text ((b, q) :: cs) = b :: Masked.text cs := rfl
    rw [htext, quotedClassItems.eq_3 _ _ _ _ _ hdash, classItems.eq_3 _ _ _ _ _ hdash',
      if_pos hclose]
    simp only [Bool.and_eq_true, beq_iff_eq, Bool.not_eq_eq_eq_not, Bool.not_true] at hclose h
    obtain ⟨rfl, rfl⟩ := hclose
    subst h
    exact ⟨rfl, rfl⟩
  | case5 first c cs hne hclose ih =>
    obtain ⟨b, q⟩ := c
    have hdash : ∀ hi r, cs = ('-', false) :: hi :: r → False := fun hi r => hne false hi r
    have hdash' : ∀ hi r, Masked.text cs = '-' :: hi :: r → False := not_dash hne
    have htext : Masked.text ((b, q) :: cs) = b :: Masked.text cs := rfl
    have hopen : ¬ (!first && (b, q) == (']', false)) = true := by
      intro hboth
      simp only [Bool.and_eq_true, beq_iff_eq, Prod.mk.injEq] at hboth hclose
      exact hclose ⟨hboth.1, hboth.2.1⟩
    rw [htext, quotedClassItems.eq_3 _ _ _ _ _ hdash, classItems.eq_3 _ _ _ _ _ hdash',
      if_neg hopen, if_neg hclose]
    exact ih h _

theorem quotedClass_text {r : Masked} (h : classKeepsQuotes r = true) (ch : Char) :
    (quotedClass r ch).1.text = (globMatchCharClass r.text ch).1 ∧
      (quotedClass r ch).2 = (globMatchCharClass r.text ch).2 := by
  unfold classKeepsQuotes at h
  split at h
  · next quoted r =>
    simp only [Bool.and_eq_true, Bool.not_eq_eq_eq_not, Bool.not_true] at h
    obtain ⟨rfl, hitems⟩ := h
    obtain ⟨hrest, hvalue⟩ := quotedClassItems_text hitems ch false
    exact ⟨hrest, congrArg (!·) hvalue⟩
  · next quoted r =>
    simp only [Bool.and_eq_true, Bool.not_eq_eq_eq_not, Bool.not_true] at h
    obtain ⟨rfl, hitems⟩ := h
    obtain ⟨hrest, hvalue⟩ := quotedClassItems_text hitems ch false
    exact ⟨hrest, congrArg (!·) hvalue⟩
  · next hbang hcaret =>
    have hplain : quotedClass r ch = quotedClassItems ch true r false := by
      unfold quotedClass
      split
      · next heq => exact absurd rfl (hbang false _)
      · next heq => exact absurd rfl (hcaret false _)
      · rfl
    have hplain' : globMatchCharClass r.text ch = classItems ch true r.text false := by
      cases r with
      | nil => rfl
      | cons c r =>
        obtain ⟨c, q⟩ := c
        have hc : c ≠ '!' := by
          rintro rfl
          exact hbang q r rfl
        have hc' : c ≠ '^' := by
          rintro rfl
          exact hcaret q r rfl
        have htext : Masked.text ((c, q) :: r) = c :: Masked.text r := rfl
        rw [htext]
        unfold globMatchCharClass
        split
        · next heq => exact absurd (List.cons.inj heq).1 hc
        · next heq => exact absurd (List.cons.inj heq).1 hc'
        · rfl
    rw [hplain, hplain']
    exact quotedClassItems_text h ch false

/-- A character that stands for itself. -/
theorem globRead_literal {c : Char} {r : List Char} (hstar : c ≠ '*') (hany : c ≠ '?')
    (hopen : c ≠ '[') (hescape : c = '\\' → r = []) :
    globReader.read (c :: r) = some (.one fun ch => c == ch, r) := by
  have hread : globReader.read (c :: r) = globRead (c :: r) := rfl
  rw [hread]
  unfold globRead
  split
  · next heq => cases heq
  · next heq => exact absurd (List.cons.inj heq).1 hany
  · next heq => exact absurd (List.cons.inj heq).1 hstar
  · next heq => exact absurd (List.cons.inj heq).1 hopen
  · next heq =>
    obtain ⟨rfl, rfl⟩ := List.cons.inj heq
    cases hescape rfl
  · next heq =>
    obtain ⟨rfl, rfl⟩ := List.cons.inj heq
    rfl

/-- An unquoted character is read as it is in a text. -/
theorem quotedRead_plain {c : Char} {r : Masked} (hopen : c ≠ '[') (hescape : c = '\\' → r = []) :
    ∃ e, quotedReader.read ((c, false) :: r) = some (e, r) ∧
      globReader.read (c :: r.text) = some (e, r.text) := by
  by_cases hstar : c = '*'
  · subst hstar
    exact ⟨.star, rfl, rfl⟩
  by_cases hany : c = '?'
  · subst hany
    exact ⟨.one fun _ => true, rfl, rfl⟩
  have htext : c = '\\' → r.text = [] := by
    intro hc
    rw [hescape hc]
    rfl
  refine ⟨.one fun ch => c == ch, ?_, globRead_literal hstar hany hopen htext⟩
  have hread : quotedReader.read ((c, false) :: r) = quotedRead ((c, false) :: r) := rfl
  rw [hread]
  unfold quotedRead
  split
  · next heq => cases heq
  · next heq =>
    cases heq
    exact absurd rfl hany
  · next heq =>
    cases heq
    exact absurd rfl hstar
  · next heq =>
    cases heq
    exact absurd rfl hopen
  · next heq =>
    cases heq
    cases hescape rfl
  · next heq =>
    cases heq
    rfl

/-- **Where no quoted character acts, the text of a pattern is read as it is meant.** -/
theorem elements_text {m : Masked} (h : KeepsQuotes m) :
    quotedReader.elements m = globReader.elements m.text := by
  induction h with
  | nil => rw [Reader.elements_of_none rfl, Reader.elements_of_none rfl]
  | @quoted c r hstar hany hopen hescape _ ih =>
    have hread : quotedReader.read ((c, true) :: r) = some (.one fun ch => c == ch, r) := by
      simp only [quotedReader, quotedRead]
    have hread' := globRead_literal (r := Masked.text r) hstar hany hopen fun hc => by
      rw [hescape hc]
      rfl
    rw [Reader.elements_of_some hread, ih]
    exact (Reader.elements_of_some hread').symm
  | @escape c r _ ih =>
    have hread : quotedReader.read (('\\', false) :: c :: r) =
      some (.one fun ch => c.1 == ch, r) := rfl
    have hread' : globReader.read ('\\' :: c.1 :: Masked.text r) =
      some (.one fun ch => c.1 == ch, Masked.text r) := rfl
    rw [Reader.elements_of_some hread, ih]
    exact (Reader.elements_of_some hread').symm
  | @bracket r hclass _ ih =>
    have hread : quotedReader.read (('[', false) :: r) =
      some (.one fun ch => (quotedClass r ch).2, quotedClassRest r) := rfl
    have hread' : globReader.read ('[' :: Masked.text r) =
      some (.one fun ch => (globMatchCharClass r.text ch).2, classRest (Masked.text r)) := rfl
    have hsame : (fun ch => (quotedClass r ch).2) =
        fun ch => (globMatchCharClass (Masked.text r) ch).2 :=
      funext fun ch => (quotedClass_text hclass ch).2
    have hrest : Masked.text (quotedClassRest r) = classRest (Masked.text r) :=
      (quotedClass_text hclass ' ').1
    rw [Reader.elements_of_some hread, ih, hsame, hrest]
    exact (Reader.elements_of_some hread').symm
  | @plain c r hopen hescape _ ih =>
    obtain ⟨e, hread, hread'⟩ := quotedRead_plain hopen hescape
    rw [Reader.elements_of_some hread, ih]
    exact (Reader.elements_of_some hread').symm

/-! ## 3. Texts that are quoted as a whole -/

/-- A pattern reads the text as itself. -/
def Plain (t : List Char) : Prop := '*' ∉ t ∧ '?' ∉ t ∧ '[' ∉ t ∧ '\\' ∉ t.dropLast

theorem plain_cons {c : Char} : Plain (c :: t) ↔
    (c ≠ '*' ∧ c ≠ '?' ∧ c ≠ '[' ∧ (c = '\\' → t = [])) ∧ Plain t := by
  cases t with
  | nil => simp [Plain, eq_comm]
  | cons d t =>
    simp only [Plain, List.mem_cons, not_or, List.dropLast_cons_cons, reduceCtorEq, imp_false]
    tauto

/-- The element of a character that stands for itself. -/
def literal (c : Char) : Element Char := .one fun ch => c == ch

theorem elements_plain {p : List Char} (h : Plain p) :
    globReader.elements p = p.map literal := by
  induction p with
  | nil => exact Reader.elements_of_none rfl
  | cons c p ih =>
    obtain ⟨⟨hstar, hany, hopen, hescape⟩, hp⟩ := plain_cons.mp h
    rw [Reader.elements_of_some (globRead_literal hstar hany hopen hescape), ih hp]
    rfl

theorem matches_literals {p t : List Char} : Matches (p.map literal) t ↔ t = p := by
  induction p generalizing t with
  | nil => exact matches_nil_iff
  | cons c p ih =>
    cases t with
    | nil => exact iff_of_false not_matches_one_nil nofun
    | cons b t =>
      have hone : Matches ((c :: p).map literal) (b :: t) ↔ (c == b) = true ∧
        Matches (p.map literal) t := matches_one_iff
      rw [hone, ih, beq_iff_eq, List.cons.injEq, eq_comm]

/-- The element of a character that is read alone. -/
def single (c : Char) : Element Char :=
  if c = '*' then .star else if c = '?' then .one fun _ => true
  else if c = '[' then .one fun _ => false
  else literal c

/-- A class takes its first item at least. -/
theorem classRest_lt {r : List Char} (h : r ≠ []) : (classRest r).length < r.length := by
  have hitems : ∀ {r : List Char}, r ≠ [] → (classItems ' ' true r false).1.length < r.length := by
    intro r hr
    unfold classItems
    split
    · exact absurd rfl hr
    · next lo hi r =>
      rw [if_neg (by simp)]
      have hle := classItems_length ' ' false (false || decide (lo ≤ ' ') && decide (' ' ≤ hi)) r
      simp only [List.length_cons]
      omega
    · next c cs _ =>
      rw [if_neg (by simp)]
      exact Nat.lt_succ_of_le (classItems_length _ _ _ _)
  unfold classRest globMatchCharClass
  split
  · exact Nat.lt_succ_of_le (classItems_length _ _ _ _)
  · exact Nat.lt_succ_of_le (classItems_length _ _ _ _)
  · exact hitems h

/-- A pattern that has as many elements as characters reads them one by one. -/
theorem elements_of_length {p : List Char} (h : (globReader.elements p).length = p.length) :
    globReader.elements p = p.map single ∧ '\\' ∉ p.dropLast := by
  induction p with
  | nil => exact ⟨Reader.elements_of_none rfl, by simp⟩
  | cons c p ih =>
    have hread : ∀ {e r}, globReader.read (c :: p) = some (e, r) →
        (globReader.elements r).length = p.length := by
      intro e r hread
      rw [Reader.elements_of_some hread] at h
      exact Nat.succ.inj h
    have hle : ∀ r, (globReader.elements r).length ≤ r.length := Reader.length_elements_le
    have hlast : c ≠ '\\' → '\\' ∉ p.dropLast → '\\' ∉ (c :: p).dropLast := by
      intro hc hp
      cases p with
      | nil => simp
      | cons d p =>
        rw [List.dropLast_cons_cons, List.mem_cons, not_or]
        exact ⟨hc.symm, hp⟩
    have hgoes : ∀ {e}, globReader.read (c :: p) = some (e, p) → e = single c → c ≠ '\\' →
        globReader.elements (c :: p) = (c :: p).map single ∧ '\\' ∉ (c :: p).dropLast := by
      intro e he hsingle hc
      obtain ⟨helements, hp⟩ := ih (hread he)
      rw [Reader.elements_of_some he, helements, hsingle]
      exact ⟨rfl, hlast hc hp⟩
    by_cases hstar : c = '*'
    · subst hstar
      exact hgoes (e := .star) rfl rfl (by decide)
    by_cases hany : c = '?'
    · subst hany
      exact hgoes (e := .one fun _ => true) rfl rfl (by decide)
    by_cases hopen : c = '['
    · subst hopen
      have hclass : globReader.read ('[' :: p) =
        some (.one fun ch => (globMatchCharClass p ch).2, classRest p) := rfl
      have hlen := hread hclass
      have hnil : p = [] := by
        by_contra hne
        have := classRest_lt hne
        have := hle (classRest p)
        omega
      subst hnil
      exact hgoes hclass rfl (by decide)
    by_cases hescape : c = '\\'
    · subst hescape
      cases p with
      | nil =>
        have hlone : globReader.read ['\\'] = some (literal '\\', []) := rfl
        have hnil : globReader.elements [] = [] := Reader.elements_of_none rfl
        refine ⟨?_, by simp⟩
        rw [Reader.elements_of_some hlone, hnil]
        rfl
      | cons d r =>
        have hescaped : globReader.read ('\\' :: d :: r) =
          some (.one fun ch => d == ch, r) := rfl
        have hlen := hread hescaped
        have := hle r
        simp only [List.length_cons] at hlen
        omega
    · have hsingle : literal c = single c := by
        unfold single
        rw [if_neg hstar, if_neg hany, if_neg hopen]
      exact hgoes (globRead_literal hstar hany hopen fun hc => absurd hc hescape) hsingle hescape

/-- A text with another character for each `?`. -/
def withoutAny (t : List Char) : List Char := t.map fun c => if c = '?' then 'x' else c

theorem single_accepts {b : Char} (hstar : b ≠ '*') (hopen : b ≠ '[') {es : List (Element Char)}
    {bs : List Char} (h : Matches es bs) : Matches (single b :: es) (b :: bs) := by
  unfold single
  rw [if_neg hstar]
  split
  · exact .one rfl h
  · exact .one (beq_self_eq_true b) h

theorem singles_accept {bs : List Char} (hstar : '*' ∉ bs) (hopen : '[' ∉ bs)
    {es : List (Element Char)} {more : List Char} (h : Matches es more) :
    Matches (bs.map single ++ es) (bs ++ more) := by
  induction bs with
  | nil => exact h
  | cons b bs ih =>
    rw [List.mem_cons, not_or] at hstar hopen
    exact single_accepts (Ne.symm hstar.1) (Ne.symm hopen.1) (ih hstar.2 hopen.2)

/-- A `[` alone matches nothing. -/
theorem not_matches_open {p t : List Char} (hstar : '*' ∉ p) (hmem : '[' ∈ p) :
    ¬ Matches (p.map single) t := by
  intro h
  induction p generalizing t with
  | nil => cases hmem
  | cons c p ih =>
    rw [List.mem_cons, not_or] at hstar
    obtain ⟨accepts, hc⟩ : ∃ accepts, single c = .one accepts := by
      unfold single
      rw [if_neg (Ne.symm hstar.1)]
      split
      · exact ⟨_, rfl⟩
      · split
        · exact ⟨_, rfl⟩
        · exact ⟨_, rfl⟩
    rw [List.map_cons, hc] at h
    cases t with
    | nil => exact not_matches_one_nil h
    | cons b t =>
      obtain ⟨hb, hrest⟩ := matches_one_iff.mp h
      rcases List.mem_cons.mp hmem with rfl | hmem
      · cases hc
        cases hb
      · exact ih hstar.2 hmem hrest

/-- Any character may stand for a `?`. -/
theorem matches_withoutAny (hstar : '*' ∉ t) (hopen : '[' ∉ t) :
    Matches ((Utf8.encode t).map single) (Utf8.encode (withoutAny t)) := by
  induction t with
  | nil => exact .nil
  | cons c t ih =>
    rw [List.mem_cons, not_or] at hstar hopen
    have ih := ih hstar.2 hopen.2
    have htail : withoutAny (c :: t) = (if c = '?' then 'x' else c) :: withoutAny t := rfl
    rw [htail, Utf8.encode_cons, Utf8.encode_cons, List.map_append]
    split
    · next hc =>
      subst hc
      exact .one rfl ih
    · have hbytes : ∀ {a : Char}, a.toNat < 0x80 → a ≠ c → a ∉ Utf8.encodeChar c := by
        intro a ha hne hmem
        exact hne (Utf8.eq_of_mem_encodeChar ha hmem)
      exact singles_accept (hbytes (by decide) hstar.1) (hbytes (by decide) hopen.1) ih

theorem mem_encode {a : Char} (ha : a.toNat < 0x80) :
    a ∈ Utf8.encode t ↔ a ∈ t := by
  constructor
  · exact Utf8.mem_of_mem_encode ha
  · intro h
    obtain ⟨u, v, rfl⟩ := List.append_of_mem h
    rw [Utf8.encode_append, Utf8.encode_cons, Utf8.encodeChar_of_ascii ha]
    simp

theorem mem_dropLast_encode {a : Char} (ha : a.toNat < 0x80) :
    a ∈ (Utf8.encode t).dropLast ↔ a ∈ t.dropLast := by
  rcases List.eq_nil_or_concat t with rfl | ⟨u, c, rfl⟩
  · exact Iff.rfl
  · have hlast : a ∉ (Utf8.encodeChar c).dropLast := by
      intro hmem
      have hac := Utf8.eq_of_mem_encodeChar ha (List.mem_of_mem_dropLast hmem)
      rw [← hac, Utf8.encodeChar_of_ascii ha] at hmem
      cases hmem
    have hbytes : Utf8.encode (u ++ [c]) = Utf8.encode u ++ Utf8.encodeChar c := by
      rw [Utf8.encode_append]
      exact congrArg _ (List.append_nil _)
    rw [List.concat_eq_append, hbytes, List.dropLast_append_of_ne_nil (Utf8.encodeChar_ne_nil c),
      List.mem_append, or_iff_left hlast, mem_encode ha, List.dropLast_concat]

theorem plain_encode : Plain (Utf8.encode t) ↔ Plain t := by
  unfold Plain
  rw [mem_encode (by decide), mem_encode (by decide), mem_encode (by decide),
    mem_dropLast_encode (by decide)]

theorem encode_injective {t t' : List Char} (h : Utf8.encode t = Utf8.encode t') : t = t' := by
  rw [← Utf8.decode_encode t, h, Utf8.decode_encode]

/-- **A pattern is a text that it alone matches exactly if the text is plain.** -/
theorem matches_itself_iff (p : List Char) :
    (∀ t, globMatchInner (Utf8.encode p) (Utf8.encode t) = true ↔ p = t) ↔ Plain p := by
  constructor
  · intro h
    have hself := (globMatchInner_iff _ _).mp ((h p).mpr rfl)
    have hstar : .star ∉ globReader.elements (Utf8.encode p) := by
      intro hmem
      have htwice := hself.bridge hself hmem []
      rw [List.append_nil, ← Utf8.encode_append] at htwice
      have hp : p = [] := by
        have heq := (h (p ++ p)).mp ((globMatchInner_iff _ _).mpr htwice)
        exact List.self_eq_append_right.mp heq
      subst hp
      have hnil : globReader.elements (Utf8.encode []) = [] := Reader.elements_of_none rfl
      rw [hnil] at hmem
      cases hmem
    obtain ⟨helements, hescape⟩ := elements_of_length (hself.length_eq hstar).symm
    rw [helements] at hself hstar
    have hno : '*' ∉ p := fun hmem =>
      hstar (List.mem_map.mpr ⟨'*', (mem_encode (by decide)).mpr hmem, rfl⟩)
    have hopen : '[' ∉ p := fun hmem =>
      not_matches_open ((mem_encode (by decide)).not.mpr hno)
        ((mem_encode (by decide)).mpr hmem) hself
    have hany : '?' ∉ p := by
      have heq : p = withoutAny p := by
        apply (h (withoutAny p)).mp
        rw [globMatchInner_iff, helements]
        exact matches_withoutAny hno hopen
      intro hmem
      rw [heq, withoutAny] at hmem
      obtain ⟨c, -, hc⟩ := List.mem_map.mp hmem
      split at hc
      · cases hc
      · next hne => exact hne hc
    exact ⟨hno, hany, hopen, (mem_dropLast_encode (by decide)).not.mp hescape⟩
  · intro h t
    rw [globMatchInner_iff, elements_plain (plain_encode.mpr h), matches_literals]
    constructor
    · intro heq
      exact (encode_injective heq).symm
    · rintro rfl
      rfl

/-! ## 4. Words -/

/-- A piece of a pattern: unquoted, or in single or double quotes. -/
inductive Piece where
  | text (t : List Char)
  | single (t : List Char)
  | double (t : List Char)
  deriving DecidableEq, Repr

def Piece.part : Piece → WordPart
  | text t => .literal t
  | single t => .singleQuoted t
  | double t => .doubleQuoted [.literal t]

/-- The characters of a piece, and whether they are quoted. -/
def Piece.pattern : Piece → Masked
  | text t => .ofText false t
  | single t => .ofText true t
  | double t => .ofText true t

def patternWord (ps : List Piece) : Word := ⟨ps.map Piece.part⟩

def patternOf (ps : List Piece) : Masked := ps.flatMap Piece.pattern

theorem text_maskedBytes (m : Masked) : (maskedBytes m).text = Utf8.encode m.text := by
  induction m with
  | nil => rfl
  | cons e m ih =>
    have hbytes : maskedBytes (e :: m) =
      Masked.ofText e.2 (Utf8.encodeChar e.1) ++ maskedBytes m := rfl
    have htext : Masked.text (e :: m) = e.1 :: Masked.text m := rfl
    rw [hbytes, htext, Masked.text_append, Masked.text_ofText, ih, Utf8.encode_cons]

/-- A text that is quoted as a whole means itself. -/
theorem means_quoted {m : Masked} (h : ∀ e ∈ m, e.2 = true) (t : List Char) :
    Means m t ↔ m.text = t := by
  have helements : ∀ n : Masked, (∀ e ∈ n, e.2 = true) →
      quotedReader.elements n = n.text.map literal := by
    intro n hn
    induction n with
    | nil => exact Reader.elements_of_none rfl
    | cons e n ih =>
      obtain ⟨c, q⟩ := e
      obtain rfl : q = true := hn (c, q) List.mem_cons_self
      have hread : quotedReader.read ((c, true) :: n) = some (literal c, n) := by
        simp only [quotedReader, quotedRead]
        rfl
      rw [Reader.elements_of_some hread, ih fun e he => hn e (.tail _ he)]
      rfl
  have hbytes : ∀ e ∈ maskedBytes m, e.2 = true := by
    intro e he
    obtain ⟨e', he', hmem⟩ := List.mem_flatMap.mp he
    obtain ⟨b, -, rfl⟩ := List.mem_map.mp hmem
    exact h e' he'
  rw [Means, helements _ hbytes, text_maskedBytes, matches_literals]
  constructor
  · intro heq
    exact (encode_injective heq).symm
  · rintro rfl
    rfl

section

variable {R W P : Type} {h : Host W P} {r : Recs W P} {x : Expander} {files : W → Files}
  {depth : Nat} {lower : List Char → List Char} {ps : List Piece} {s : Runtime W}

theorem expandParts_pieces (x : Expander) (ps : List Piece) (st : ShellState) :
    Expand.expandParts x (ps.map Piece.part) st = ([], (patternOf ps).text) := by
  induction ps with
  | nil => rfl
  | cons p ps ih =>
    have hpart : Expand.expandPart x p.part st = ([], p.pattern.text) := by
      cases p <;>
        simp [Piece.part, Piece.pattern, Expand.expandPart, Expand.expandParts, Masked.text_ofText]
    have htext : (patternOf (p :: ps)).text = p.pattern.text ++ (patternOf ps).text := by
      rw [patternOf, List.flatMap_cons, Masked.text_append]
      rfl
    have hafter : st.after [] = st := rfl
    rw [List.map_cons, Expand.expandParts, hpart, htext]
    dsimp only
    rw [hafter, ih]
    rfl

theorem expandWord_pieces (x : Expander) {ps : List Piece} {st : ShellState}
    (hhome : Expand.expandTildeText (patternOf ps).text st = (patternOf ps).text) :
    Expand.expandWord x (patternWord ps) st = ([], (patternOf ps).text) := by
  have hafter : st.after [] = st := rfl
  rw [Expand.expandWord, patternWord, expandParts_pieces]
  dsimp only
  rw [hafter, hhome]

/-- The host on which patterns are matched as in `execute_case`. -/
def matchingHost (h : Host W P) (lower : List Char → List Char) : Host W P :=
  { h with globMatch := fun nocase pattern value =>
      DblBracket.globCmp lower nocase value.toList pattern.toList }

/-- The test of `case`. -/
theorem matchPatterns_pieces
    (hhome : Expand.expandTildeText (patternOf ps).text s.state = (patternOf ps).text)
    (t : String) :
    Interp.matchPatterns (matchingHost (h.shell x files depth) lower) false t [patternWord ps] s =
      .ok (globMatchInner (Utf8.encode (patternOf ps).text) (Utf8.encode t.toList), s) := by
  have hexpand : (matchingHost (h.shell x files depth) lower).expandWord (patternWord ps) s.state =
      ([], String.ofList (patternOf ps).text) := by
    change ((Expand.expandWord x (patternWord ps) s.state).1, String.ofList _) = _
    rw [expandWord_pieces x hhome]
  have hmatch : (matchingHost (h.shell x files depth) lower).globMatch false
      (String.ofList (patternOf ps).text) t =
        globMatchInner (Utf8.encode (patternOf ps).text) (Utf8.encode t.toList) := by
    change DblBracket.globCmp lower false t.toList
      (String.ofList (patternOf ps).text).toList = _
    rw [String.toList_ofList]
    rfl
  rw [Interp.matchPatterns, hexpand]
  dsimp only
  rw [Runtime.applyOps_nil, hmatch]
  dsimp only [bind, Except.bind]
  split
  · next hb =>
    rw [hb]
    rfl
  · next hb =>
    rw [Bool.not_eq_true] at hb
    rw [hb]
    rfl

theorem resolveParts_pieces (h : Host W P) (r : Recs W P) (ps : List Piece) (s : Runtime W) :
    Interp.resolveParts h r (ps.map Piece.part) s = .ok (ps.map Piece.part, s) := by
  induction ps with
  | nil => rfl
  | cons p ps ih =>
    cases p with
    | text t =>
      have hpart : Interp.resolvePart h r (.literal t) s = .ok (.literal t, s) := rfl
      rw [List.map_cons, Piece.part, Interp.resolveParts, hpart]
      · dsimp only [bind, Except.bind]
        rw [ih]
        rfl
      · intro qs heq
        cases heq
    | single t =>
      have hpart : Interp.resolvePart h r (.singleQuoted t) s = .ok (.singleQuoted t, s) := rfl
      rw [List.map_cons, Piece.part, Interp.resolveParts, hpart]
      · dsimp only [bind, Except.bind]
        rw [ih]
        rfl
      · intro qs heq
        cases heq
    | double t =>
      have hquoted : Interp.resolveParts.resolveQuoted h r [.literal t] s =
        .ok ([.literal t], s) := rfl
      rw [List.map_cons, Piece.part, Interp.resolveParts, hquoted]
      dsimp only [bind, Except.bind]
      rw [ih]
      rfl

/-- The text of a pattern in `[[ ]]`. -/
theorem dblBracketExpand_pieces
    (hhome : Expand.expandTildeText (patternOf ps).text s.state = (patternOf ps).text) :
    DblBracket.dblBracketExpand (matchingHost (h.shell x files depth) lower) r (patternWord ps) s =
      .ok ((patternOf ps).text, s) := by
  have hexpand : (matchingHost (h.shell x files depth) lower).expandWord (patternWord ps) s.state =
      ([], String.ofList (patternOf ps).text) := by
    change ((Expand.expandWord x (patternWord ps) s.state).1, String.ofList _) = _
    rw [expandWord_pieces x hhome]
  have hresolve : Interp.resolveCommandSubst (matchingHost (h.shell x files depth) lower) r
      [patternWord ps] s = .ok ([patternWord ps], s) := by
    rw [Interp.resolveCommandSubst, patternWord, resolveParts_pieces]
    rfl
  unfold DblBracket.dblBracketExpand
  rw [hresolve]
  dsimp only [bind, Except.bind, List.headD_cons]
  rw [hexpand]
  dsimp only
  rw [Runtime.applyOps_nil]
  dsimp only [pure, Except.pure]
  rw [String.toList_ofList]

variable (h r x files depth lower ps s) in
/-- `case` and the tests of `[[ ]]` find that the text matches the pattern, or that it does not. -/
def Decides (env : DblBracket.TestEnv R) (t : String) (matched : Bool) : Prop :=
  Interp.matchPatterns (matchingHost (h.shell x files depth) lower) false t [patternWord ps] s =
      .ok (matched, s) ∧
    ∃ p, DblBracket.dblBracketExpand (matchingHost (h.shell x files depth) lower) r
        (patternWord ps) s = .ok (p, s) ∧
      DblBracket.evalBinaryOp env t.toList "==".toList p = matched ∧
      DblBracket.evalBinaryOp env t.toList "!=".toList p = !matched

theorem decides_iff {env : DblBracket.TestEnv R} (henv : env.nocasematch = false)
    (hhome : Expand.expandTildeText (patternOf ps).text s.state = (patternOf ps).text)
    (t : String) (matched : Bool) :
    Decides h r x files depth lower ps s env t matched ↔
      globMatchInner (Utf8.encode (patternOf ps).text) (Utf8.encode t.toList) = matched := by
  have hcmp : DblBracket.globCmp env.toLowercase env.nocasematch t.toList (patternOf ps).text =
      globMatchInner (Utf8.encode (patternOf ps).text) (Utf8.encode t.toList) := by
    rw [henv]
    rfl
  unfold Decides
  rw [matchPatterns_pieces hhome]
  constructor
  · rintro ⟨hcase, -⟩
    exact congrArg Prod.fst (Except.ok.inj hcase)
  · rintro rfl
    refine ⟨rfl, _, dblBracketExpand_pieces hhome, ?_, ?_⟩
    · rw [← hcmp]
      rfl
    · rw [← hcmp]
      rfl

/-- **Quoted characters of a pattern.**  Where none acts, a text matches the pattern if and only
    if the pattern means it; a pattern quoted as a whole means its text alone, and is matched by
    it alone if and only if the text is plain. -/
theorem quoted_pattern_iff (h : Host W P) (r : Recs W P) (x : Expander) (files : W → Files)
    (depth : Nat) (lower : List Char → List Char) (ps : List Piece) (s : Runtime W)
    (env : DblBracket.TestEnv R) (henv : env.nocasematch = false)
    (hhome : Expand.expandTildeText (patternOf ps).text s.state = (patternOf ps).text) :
    (KeepsQuotes (maskedBytes (patternOf ps)) → ∀ t, ∃ matched,
      Decides h r x files depth lower ps s env t matched ∧
        (matched = true ↔ Means (patternOf ps) t.toList)) ∧
    ((∀ e ∈ patternOf ps, e.2 = true) →
      ((∀ t, ∃ matched, Decides h r x files depth lower ps s env t matched ∧
        (matched = true ↔ (patternOf ps).text = t.toList)) ↔ Plain (patternOf ps).text) ∧
      ∀ t, Means (patternOf ps) t ↔ (patternOf ps).text = t) := by
  simp only [decides_iff henv hhome, exists_eq_left']
  constructor
  · intro hkeeps t
    rw [globMatchInner_iff, Means, elements_text hkeeps, text_maskedBytes]
  · intro hquoted
    refine ⟨?_, means_quoted hquoted⟩
    rw [← matches_itself_iff]
    constructor
    · intro hall t
      have ht := hall (String.ofList t)
      rw [String.toList_ofList] at ht
      exact ht
    · intro hall t
      exact hall t.toList

/-- `'a'*`. -/
theorem quoted_pattern_of_a :
    ∃ matched, Decides bareShell (Interp.outOfFuel (P := Unit)) .plain (fun _ => noFiles) 0 id
      [.single ['a'], .text ['*']] Runtime.bare
      (⟨Fs.MemoryFs.new, ['/'], false, id⟩ : DblBracket.TestEnv Unit) "ab" matched ∧
        (matched = true ↔ Means [('a', true), ('*', false)] "ab".toList) := by
  refine (quoted_pattern_iff bareShell Interp.outOfFuel .plain (fun _ => noFiles) 0 id
    [.single ['a'], .text ['*']] Runtime.bare ⟨Fs.MemoryFs.new, ['/'], false, id⟩ rfl rfl).1 ?_ "ab"
  have hbytes : maskedBytes (patternOf [.single ['a'], .text ['*']]) =
    [('a', true), ('*', false)] := rfl
  rw [hbytes]
  refine .quoted (by decide) (by decide) (by decide) (fun hc => absurd hc (by decide)) ?_
  exact .plain (by decide) (fun hc => absurd hc (by decide)) .nil

/-- `'*'` matches `x`. -/
theorem quoted_star_matches :
    Interp.matchPatterns (matchingHost (bareShell.shell .plain (fun _ => noFiles) 0) id) false "x"
        [patternWord [.single ['*']]] Runtime.bare = .ok (true, Runtime.bare) ∧
      ¬ Means (patternOf [.single ['*']]) ['x'] := by
  constructor
  · exact matchPatterns_pieces rfl "x"
  · rw [means_quoted (List.all_iff_forall_prop.mp (by decide))]
    decide

end

end Wasmsh.Globs

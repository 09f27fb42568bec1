import Mathlib.Data.Bool.AllAny
import Wasmsh.Assignment
import Wasmsh.FsListing

/-!
# File names that a server chooses

`content_disposition_filename` of `wasmsh-utils/src/net_ops.rs` with `sanitize_filename`, and
`resolve_output_path`, which puts the name into the output directory.
-/

namespace Wasmsh.Curl

open Globs Fs

abbrev Text := List Char

/-! ## 1. The name -/

/-- `truncate_utf8_bytes`: the text up to its last character boundary at or below `max`. -/
def truncateUtf8Bytes : Text → Nat → Text
  | [], _ => []
  | c :: cs, max =>
    if (Utf8.encodeChar c).length ≤ max then
      c :: truncateUtf8Bytes cs (max - (Utf8.encodeChar c).length)
    else []

/-- `RESERVED_DEVICE_NAMES`. -/
def reservedDeviceNames : List Text :=
  ["con", "prn", "aux", "nul", "com1", "com2", "com3", "com4", "com5", "com6", "com7", "com8",
    "com9", "lpt1", "lpt2", "lpt3", "lpt4", "lpt5", "lpt6", "lpt7", "lpt8", "lpt9"].map
    String.toList

def stem (name : Text) : Text := (name.takeWhile (· != '.')).map Char.toLower

/-- What `rsplit(['/', '\\'])` gives first. -/
def lastComponent (name : Text) : Text :=
  (name.reverse.takeWhile fun c => c != '/' && c != '\\').reverse

def withoutControl (name : Text) : Text := name.filter (!isControl ·)

def isDots (name : Text) : Prop := name = ['.'] ∨ name = ['.', '.']

instance (name : Text) : Decidable (isDots name) := inferInstanceAs (Decidable (_ ∨ _))

def underscored : Text → Text
  | '-' :: rest => '_' :: rest
  | name => name

def sanitizeFilename (name : Text) : Text :=
  if lastComponent name = [] ∨ isDots (lastComponent name) then []
  else
    let cleaned := underscored (withoutControl (lastComponent name))
    if stem cleaned ∈ reservedDeviceNames then [] else truncateUtf8Bytes cleaned 255

/-- `trim_matches('"')`. -/
def trimQuotes (t : Text) : Text :=
  ((t.dropWhile (· == '"')).reverse.dropWhile (· == '"')).reverse

/-- The value of the first `filename=` in the first such header. -/
def filenameValue (headers : List (Text × Text)) : Option Text := do
  let header ← headers.find? (·.1.map Char.toLower = "content-disposition".toList)
  (header.2.splitOn ';').findSome? fun part =>
    ("filename=".toList.isPrefixOf? (trim part)).map fun v => trimQuotes (trim v)

def contentDispositionFilename (headers : List (Text × Text)) : Option Text :=
  (filenameValue headers).bind fun v =>
    if sanitizeFilename v = [] then none else some (sanitizeFilename v)

/-- `resolve_output_path`. -/
def resolveOutputPath (cwd : Path) (outputDir : Option Path) (filename : Text) : Path :=
  if filename.head? = some '/' then normalizePath filename
  else match outputDir with
    | some dir => normalizePath (resolveCwdPath cwd dir ++ '/' :: filename)
    | none => resolveCwdPath cwd filename

/-- The directory that a file is put into. -/
def outputBase (cwd : Path) (outputDir : Option Path) : Path :=
  ownPath (outputDir.elim cwd (resolveCwdPath cwd))

/-- A single component that no tool takes for something else, and the entry that it makes. -/
structure Harmless (name : Text) : Prop where
  component : Proper name
  characters : ∀ c ∈ name, c ≠ '\\' ∧ isControl c = false
  dash : name.head? ≠ some '-'
  short : Utf8.size name ≤ 255
  device : stem name ∉ reservedDeviceNames
  child : ∀ cwd outputDir,
    resolveOutputPath cwd outputDir name = entryPath (outputBase cwd outputDir) name

/-! ## 2. Each filter -/

variable {t : Text}

theorem truncate_begins (t : Text) (max : Nat) : truncateUtf8Bytes t max <+: t := by
  induction t generalizing max with
  | nil => exact List.prefix_rfl
  | cons c cs ih =>
    rw [truncateUtf8Bytes]
    split
    · exact List.prefix_cons_inj c |>.mpr (ih _)
    · exact List.nil_prefix

theorem size_truncate (t : Text) (max : Nat) : Utf8.size (truncateUtf8Bytes t max) ≤ max := by
  induction t generalizing max with
  | nil => exact Nat.zero_le _
  | cons c cs ih =>
    rw [truncateUtf8Bytes]
    split
    case isTrue h =>
      have hrest := ih (max - (Utf8.encodeChar c).length)
      rw [Utf8.size_cons]
      omega
    case isFalse => exact Nat.zero_le _

/-- A text that is cut is long: a character has at most four bytes. -/
theorem truncate_long {max : Nat} (h : truncateUtf8Bytes t max ≠ t) :
    max < 4 * ((truncateUtf8Bytes t max).length + 1) := by
  induction t generalizing max with
  | nil => exact absurd rfl h
  | cons c cs ih =>
    have hsize := Utf8.length_encodeChar_le c
    rw [truncateUtf8Bytes] at h ⊢
    split at h
    case isTrue hle =>
      rw [if_pos hle]
      have hrest := ih fun heq => h (by rw [heq])
      rw [List.length_cons]
      omega
    case isFalse hlt =>
      rw [if_neg hlt]
      simp only [List.length_nil]
      omega

theorem length_device {name : Text} (h : stem name ∈ reservedDeviceNames) :
    (name.takeWhile (· != '.')).length ≤ 4 := by
  have hall : ∀ d ∈ reservedDeviceNames, d.length ≤ 4 := List.all_iff_forall_prop.mp (by decide)
  simpa [stem] using hall _ h

/-- Cutting a name makes no device of it. -/
theorem stem_truncate (h : stem t ∉ reservedDeviceNames) :
    stem (truncateUtf8Bytes t 255) ∉ reservedDeviceNames := by
  intro hdevice
  by_cases hsame : truncateUtf8Bytes t 255 = t
  · exact h (hsame ▸ hdevice)
  have hlong := truncate_long hsame
  have hlen := length_device hdevice
  obtain ⟨rest, hrest⟩ := truncate_begins t 255
  apply h
  rw [stem, ← hrest, List.takeWhile_append, if_neg (by omega)]
  exact hdevice

theorem mem_cleaned {c : Char} (h : c ∈ underscored (withoutControl (lastComponent t))) :
    c ≠ '/' ∧ c ≠ '\\' ∧ isControl c = false := by
  have hmem : ∀ c ∈ withoutControl (lastComponent t), c ≠ '/' ∧ c ≠ '\\' ∧ isControl c = false := by
    intro c hc
    obtain ⟨hlast, hcontrol⟩ := List.mem_filter.mp hc
    have hslash := List.mem_takeWhile_imp (List.mem_reverse.mp hlast)
    simpa [and_assoc] using And.intro hslash hcontrol
  unfold underscored at h
  split at h
  case h_1 rest heq =>
    rcases List.mem_cons.mp h with rfl | hrest
    · decide
    · exact hmem c (heq ▸ List.mem_cons_of_mem _ hrest)
  case h_2 => exact hmem c h

theorem head_underscored (t : Text) : (underscored t).head? ≠ some '-' := by
  unfold underscored
  split
  case h_1 => simp
  case h_2 h =>
    intro hhead
    obtain ⟨rest, rfl⟩ := List.head?_eq_some_iff.mp hhead
    exact h rest rfl

theorem underscored_isDots : isDots (underscored t) ↔ isDots t := by
  unfold underscored
  split
  · simp [isDots]
  · rfl

theorem truncate_isDots : isDots (truncateUtf8Bytes t 255) ↔ isDots t := by
  constructor
  · intro h
    by_cases hsame : truncateUtf8Bytes t 255 = t
    · exact hsame ▸ h
    have hlong := truncate_long hsame
    rcases h with h | h <;> rw [h] at hlong <;> simp at hlong
  · rintro (rfl | rfl)
    · exact Or.inl (by decide)
    · exact Or.inr (by decide)

/-! ## 3. The sequence of them -/

/-- The name is one of the two that name directories, and it is not already in the header. -/
def HidesDots (v : Text) : Prop :=
  ¬isDots (lastComponent v) ∧ isDots (withoutControl (lastComponent v))

theorem child_of_proper {name : Text} (h : Proper name) (cwd : Path) (outputDir : Option Path) :
    resolveOutputPath cwd outputDir name = entryPath (outputBase cwd outputDir) name := by
  have hhead : name.head? ≠ some '/' := fun hhead => h.2.1 (List.mem_of_mem_head? hhead)
  unfold resolveOutputPath
  rw [if_neg hhead]
  cases outputDir with
  | some dir => exact normalizePath_entry _ h
  | none =>
    rw [resolveCwdPath, if_neg hhead]
    exact normalizePath_entry _ h

theorem head_truncate (t : Text) (max : Nat) :
    ∀ c ∈ (truncateUtf8Bytes t max).head?, t.head? = some c := by
  intro c hc
  obtain ⟨rest, hrest⟩ := truncate_begins t max
  rw [← hrest, List.head?_append, Option.mem_def.mp hc]
  rfl

theorem sanitizeFilename_eq {v : Text} (h : sanitizeFilename v ≠ []) :
    stem (underscored (withoutControl (lastComponent v))) ∉ reservedDeviceNames ∧
      ¬isDots (lastComponent v) ∧ sanitizeFilename v =
        truncateUtf8Bytes (underscored (withoutControl (lastComponent v))) 255 := by
  unfold sanitizeFilename at h ⊢
  split at h
  case isTrue => exact absurd rfl h
  case isFalse hlast =>
    dsimp only at h ⊢
    split at h
    case isTrue => exact absurd rfl h
    case isFalse hdevice =>
      rw [if_neg hlast, if_neg hdevice]
      exact ⟨hdevice, fun hdots => hlast (Or.inr hdots), rfl⟩

theorem sanitizeFilename_harmless {v : Text} (hne : sanitizeFilename v ≠ []) :
    Harmless (sanitizeFilename v) ↔ ¬HidesDots v := by
  obtain ⟨hdevice, hlast, heq⟩ := sanitizeFilename_eq hne
  rw [heq] at hne ⊢
  have hmem := (truncate_begins (underscored (withoutControl (lastComponent v))) 255).subset
  have hdots := @truncate_isDots (underscored (withoutControl (lastComponent v)))
  rw [underscored_isDots] at hdots
  constructor
  · rintro h ⟨-, hhides⟩
    rcases hdots.mpr hhides with heq | heq
    · exact h.component.2.2.1 heq
    · exact h.component.2.2.2 heq
  · intro hhides
    have hnot : ¬isDots (truncateUtf8Bytes _ 255) := fun h => hhides ⟨hlast, hdots.mp h⟩
    have hproper : Proper (truncateUtf8Bytes _ 255) :=
      ⟨hne, fun h => (mem_cleaned (hmem h)).1 rfl, fun h => hnot (Or.inl h),
        fun h => hnot (Or.inr h)⟩
    exact
      { component := hproper
        characters := fun c hc => (mem_cleaned (hmem hc)).2
        dash := fun h => head_underscored _ (head_truncate _ _ _ h)
        short := size_truncate _ _
        device := stem_truncate hdevice
        child := child_of_proper hproper }

theorem sanitizeFilename_of_hidesDots {v : Text} (h : HidesDots v) : sanitizeFilename v ≠ [] := by
  have hlast : lastComponent v ≠ [] := by
    intro hnil
    have hcleaned := h.2
    rw [hnil] at hcleaned
    exact absurd hcleaned (by decide)
  rw [sanitizeFilename, if_neg (not_or.mpr ⟨hlast, h.1⟩)]
  rcases h.2 with heq | heq <;> rw [heq] <;> decide

/-- The name is harmless unless control characters hid one of the names of directories. -/
theorem names_harmless_iff (headers : List (Text × Text)) :
    (∀ name, contentDispositionFilename headers = some name → Harmless name) ↔
      ∀ v, filenameValue headers = some v → ¬HidesDots v := by
  unfold contentDispositionFilename
  cases filenameValue headers with
  | none => simp
  | some v =>
    by_cases hne : sanitizeFilename v = []
    · simpa [hne] using fun h => sanitizeFilename_of_hidesDots h hne
    · simpa [hne] using sanitizeFilename_harmless hne

theorem dots_come_out : ¬∀ headers name,
    contentDispositionFilename headers = some name → Harmless name := by
  intro h
  have hname := h [("Content-Disposition".toList, "attachment; filename=.\x01.".toList)]
    "..".toList (by decide)
  exact hname.component.2.2.2 rfl

end Wasmsh.Curl

import Wasmsh.Assignment
import Wasmsh.MemoryFs
import Wasmsh.Library.FixedFields
import Wasmsh.Library.IpText
import Wasmsh.Library.LossyUtf8

/-!
# The blocks of a tar archive

An archive is a sequence of blocks: a header with the name, the size and the kind of an entry,
then the contents of the entry up to whole blocks, and two blocks of zeros at the end.  The
header has fields of fixed width; a name is cut to the width of its field.  `usize` has 64 bits.
-/

namespace Wasmsh.Fs

open FixedFields LossyUtf8

/-! ## 1. Headers -/

/-- `TAR_BLOCK_SIZE`. -/
def tarBlockSize : Nat := 512

/-- The type flag of a directory, and that of a file. -/
def dirFlag : UInt8 := 0x35

def fileFlag : UInt8 := 0x30

/-- An octal number with zeros before it. -/
def octal (width n : Nat) : Path :=
  List.replicate (width - (Nat.toDigits 8 n).length) '0' ++ Nat.toDigits 8 n

/-- The fields of a header up to the checksum, whose own field counts as blanks. -/
def tarFields (name : Path) (size : Nat) (typeflag : UInt8) : List (Nat × Bytes) :=
  [(0, (encode name).take 100),
    (100, encode (if typeflag = dirFlag then "0000755\x00" else "0000644\x00").toList),
    (108, encode "0001000\x00".toList),
    (116, encode "0001000\x00".toList),
    (124, (encode (octal 11 size ++ ['\x00'])).take 12),
    (136, encode "00000000000\x00".toList),
    (156, [typeflag]),
    (257, encode "ustar\x00".toList),
    (263, encode "00".toList),
    (265, encode "user".toList),
    (297, encode "group".toList),
    (148, encode "        ".toList)]

/-- `make_tar_header`. -/
def makeTarHeader (name : Path) (size : Nat) (typeflag : UInt8) : Bytes :=
  let header := setFields (tarFields name size typeflag) (List.replicate tarBlockSize 0)
  let checksum := (header.map UInt8.toNat).sum
  setField 148 ((encode (octal 6 checksum ++ "\x00 ".toList)).take 8) header

/-- `TarEntry`. -/
structure TarEntry where
  name : Path
  size : Nat
  typeflag : UInt8
  deriving DecidableEq, Repr

/-- The name in a header. -/
def headerName (header : Bytes) : Path := decode ((header.take 100).takeWhile (· ≠ 0))

/-- `trim_matches` of the character U+0000. -/
def trimNul (t : Path) : Path :=
  ((t.dropWhile (· == '\x00')).reverse.dropWhile (· == '\x00')).reverse

/-- `u64::from_str_radix` of base eight. -/
def fromOctal (t : Path) : Option Nat :=
  let digits := if t.head? = some '+' then t.tail else t
  if digits ≠ [] ∧ digits.all (IpText.isDigitOf 8) then
    (some (digits.foldl (fun n c => n * 8 + (IpText.digitValue c).getD 0) 0)).filter (· < 2 ^ 64)
  else none

/-- The size in a header. -/
def headerSize (header : Bytes) : Option Nat :=
  fromOctal (trim (trimNul (decode (field 124 12 header))))

/-- The block that ends an archive. -/
def isZeroBlock (header : Bytes) : Bool := header.all (· == 0)

/-- The message about a size that cannot be read. -/
def invalidSizeText (name : Path) : Path :=
  "tar: invalid size in header for '".toList ++ name ++ "'\n".toList

/-- `parse_tar_entry_header`: the message of an error, nothing for the end of the archive. -/
def parseTarEntryHeader (header : Bytes) : Except Path (Option TarEntry) :=
  if isZeroBlock header then .ok none
  else match headerSize header with
    | none => .error (invalidSizeText (headerName header))
    | some size => .ok (some ⟨headerName header, size, (header.drop 156).headD 0⟩)

/-! ## 2. The header that is written -/

theorem length_octal {width n : Nat} (hwidth : 0 < width) (h : n < 8 ^ width) :
    (octal width n).length = width := by
  have hlen := (Nat.length_toDigits_le_iff (show 1 < 8 by decide) hwidth).mpr h
  rw [octal, List.length_append, List.length_replicate, Nat.sub_add_cancel hlen]

theorem isDigitOf_octal {width n : Nat} {c : Char} (hc : c ∈ octal width n) :
    IpText.isDigitOf 8 c = true := by
  rcases List.mem_append.mp hc with hc | hc
  · rw [List.eq_of_mem_replicate hc]
    decide
  · exact IpText.isDigitOf_toDigits (by decide) (by decide) n c hc

theorem octal_ne_nil (width n : Nat) : octal width n ≠ [] := by
  rw [octal, ne_eq, List.append_eq_nil_iff]
  exact fun h => Nat.toDigits_ne_nil h.2

/-- An octal digit is one of eight characters. -/
theorem octal_digit {c : Char} (h : IpText.isDigitOf 8 c = true) : 0x30 ≤ c.toNat ∧ c.toNat < 0x38 := by
  unfold IpText.isDigitOf IpText.digitValue at h
  split at h
  · next hdigit =>
    simp only [Char.isDigit, Bool.and_eq_true, decide_eq_true_eq] at hdigit
    have hlow : 0x30 ≤ c.toNat := hdigit.1
    simp only [Option.any_some, decide_eq_true_eq] at h
    have hzero : '0'.toNat = 0x30 := rfl
    omega
  · split at h
    · simp at h
      omega
    · split at h
      · simp at h
        omega
      · simp at h

/-- A number is read back from its digits. -/
theorem fromOctal_octal {width n : Nat} (h : n < 2 ^ 64) : fromOctal (octal width n) = some n := by
  have hplus : (octal width n).head? ≠ some '+' := by
    intro hhead
    have hdigit := isDigitOf_octal (List.mem_of_mem_head? hhead)
    revert hdigit
    decide
  have hzeros : ∀ k, (List.replicate k '0').foldl
      (fun n c => n * 8 + (IpText.digitValue c).getD 0) 0 = 0 := by
    intro k
    induction k with
    | zero => rfl
    | succ k ih => exact ih
  have hvalue : (octal width n).foldl (fun n c => n * 8 + (IpText.digitValue c).getD 0) 0 = n := by
    rw [octal, List.foldl_append, hzeros]
    exact IpText.foldl_toDigits (by decide) (by decide) n
  unfold fromOctal
  dsimp only
  rw [if_neg hplus, if_pos ⟨octal_ne_nil width n, List.all_eq_true.mpr fun c hc =>
    isDigitOf_octal hc⟩, hvalue, Option.filter_some, if_pos (by simpa using h)]

/-- The bytes of ASCII characters. -/
theorem encode_ascii {t : Path} (h : ∀ c ∈ t, c.toNat < 0x80) :
    encode t = t.map fun c => UInt8.ofNat c.toNat := by
  induction t with
  | nil => rfl
  | cons c t ih =>
    obtain ⟨hc, ht⟩ := List.forall_mem_cons.mp h
    rw [encode_cons, ih ht, List.map_cons]
    unfold String.utf8EncodeChar
    have hle : c.val.toNat ≤ 0x7f := Nat.le_of_lt_succ hc
    dsimp only
    rw [if_pos hle]
    rfl

theorem encode_octal (width n : Nat) : encode (octal width n) =
    (octal width n).map fun c => UInt8.ofNat c.toNat :=
  encode_ascii fun c hc => by
    have hdigit := octal_digit (isDigitOf_octal hc)
    omega

section

variable (name : Path) (size : Nat) (typeflag : UInt8)

/-- The name as it is written, the size field and the other fields with their widths. -/
theorem tarFields_cases : ∀ w ∈ tarFields name size typeflag,
    w = (0, (encode name).take 100) ∨ w = (124, (encode (octal 11 size ++ ['\x00'])).take 12) ∨
      w = (156, [typeflag]) ∨ (w.1, w.2.length) ∈ [(100, 8), (108, 8), (116, 8), (136, 12), (257, 6),
        (263, 2), (265, 4), (297, 5), (148, 8)] := by
  have hmode : (encode (if typeflag = dirFlag then "0000755\x00" else "0000644\x00").toList).length =
      8 := by split <;> rfl
  intro w hw
  simp only [tarFields, List.mem_cons, List.not_mem_nil, or_false] at hw
  rcases hw with rfl | rfl | rfl | rfl | rfl | rfl | rfl | rfl | rfl | rfl | rfl | rfl
  · exact .inl rfl
  · right; right; right
    rw [hmode]
    simp
  · exact .inr (.inr (.inr (by decide)))
  · exact .inr (.inr (.inr (by decide)))
  · exact .inr (.inl rfl)
  · exact .inr (.inr (.inr (by decide)))
  · exact .inr (.inr (.inl rfl))
  · exact .inr (.inr (.inr (by decide)))
  · exact .inr (.inr (.inr (by decide)))
  · exact .inr (.inr (.inr (by decide)))
  · exact .inr (.inr (.inr (by decide)))
  · exact .inr (.inr (.inr (by decide)))

theorem length_nameField : ((encode name).take 100).length ≤ 100 := List.length_take_le _ _

theorem length_sizeField : ((encode (octal 11 size ++ ['\x00'])).take 12).length ≤ 12 :=
  List.length_take_le _ _

/-- The fields are in the header. -/
theorem tarFields_inside : ∀ w ∈ tarFields name size typeflag, w.1 + w.2.length ≤ tarBlockSize := by
  have hname := length_nameField name
  have hsize := length_sizeField size
  intro w hw
  rcases tarFields_cases name size typeflag w hw with rfl | rfl | rfl | h
  · simp only [tarBlockSize]
    omega
  · simp only [tarBlockSize]
    omega
  · exact Nat.le_of_ble_eq_true rfl
  · simp only [List.mem_cons, Prod.mk.injEq, List.not_mem_nil, or_false] at h
    simp only [tarBlockSize]
    omega

/-- The header before its checksum. -/
theorem length_tarFields : (setFields (tarFields name size typeflag)
    (List.replicate tarBlockSize 0)).length = tarBlockSize := by
  have hinside := tarFields_inside name size typeflag
  rw [length_setFields (by simpa using hinside), List.length_replicate]

theorem length_makeTarHeader : (makeTarHeader name size typeflag).length = tarBlockSize := by
  have hlen := length_tarFields name size typeflag
  unfold makeTarHeader
  dsimp only
  rw [length_setField, hlen]
  rw [hlen]
  have hchecksum := List.length_take_le 8 (encode (octal 6 (List.map UInt8.toNat
    (setFields (tarFields name size typeflag) (List.replicate tarBlockSize 0))).sum ++
      "\x00 ".toList))
  have hblock : tarBlockSize = 512 := rfl
  omega

/-- A field that ends before the checksum or begins after it. -/
theorem field_makeTarHeader {off len : Nat} (h : off + len ≤ 148 ∨ 156 ≤ off) :
    field off len (makeTarHeader name size typeflag) = field off len
      (setFields (tarFields name size typeflag) (List.replicate tarBlockSize 0)) := by
  have hlen := length_tarFields name size typeflag
  have hin : 148 ≤ (setFields (tarFields name size typeflag)
      (List.replicate tarBlockSize 0)).length := by
    rw [hlen]
    decide
  unfold makeTarHeader
  dsimp only
  rcases h with h | h
  · exact field_setField_before h hin
  · exact field_setField_after
      (Nat.le_trans (Nat.add_le_add_left (List.length_take_le 8 _) 148) h) hin

/-- The field of the size. -/
theorem sizeField_makeTarHeader {size : Nat} (h : size < 8 ^ 11) :
    field 124 12 (makeTarHeader name size typeflag) = encode (octal 11 size ++ ['\x00']) := by
  have hwidth : (encode (octal 11 size ++ ['\x00'])).length = 12 := by
    rw [encode_append, encode_octal, List.length_append, List.length_map,
      length_octal (by decide) h]
    rfl
  have htake : (encode (octal 11 size ++ ['\x00'])).take 12 = encode (octal 11 size ++ ['\x00']) :=
    List.take_of_length_le hwidth.le
  rw [field_makeTarHeader name size typeflag (by decide)]
  have hfield := @field_setFields_self _ (tarFields name size typeflag)
    (List.replicate tarBlockSize 0) (124, encode (octal 11 size ++ ['\x00'])) (.inl ?_) ?_
  · dsimp only at hfield
    rw [hwidth] at hfield
    exact hfield
  · rw [← htake]
    simp [tarFields]
  · intro w hw
    have hname := length_nameField name
    refine ⟨by simpa using tarFields_inside name size typeflag w hw, ?_⟩
    dsimp only
    rw [hwidth]
    rcases tarFields_cases name size typeflag w hw with rfl | rfl | rfl | h
    · right; right
      dsimp only
      omega
    · left
      rw [htake]
    · right; left
      dsimp only
      omega
    · right
      simp only [List.mem_cons, Prod.mk.injEq, List.not_mem_nil, or_false] at h
      omega

/-- The type flag. -/
theorem flag_makeTarHeader : ((makeTarHeader name size typeflag).drop 156).headD 0 = typeflag := by
  have hname := length_nameField name
  have hsize := length_sizeField size
  have hfield : field 156 1 (makeTarHeader name size typeflag) = [typeflag] := by
    rw [field_makeTarHeader name size typeflag (by decide)]
    refine @field_setFields_self _ (tarFields name size typeflag) (List.replicate tarBlockSize 0)
      (156, [typeflag]) (.inl (by simp [tarFields])) ?_
    intro w hw
    refine ⟨by simpa using tarFields_inside name size typeflag w hw, ?_⟩
    rcases tarFields_cases name size typeflag w hw with rfl | rfl | rfl | h
    · right; right
      dsimp only
      omega
    · right; right
      dsimp only
      omega
    · exact .inl rfl
    · right
      simp only [List.mem_cons, Prod.mk.injEq, List.not_mem_nil, or_false] at h
      simp only [List.length_singleton]
      omega
  unfold field at hfield
  cases hrest : (makeTarHeader name size typeflag).drop 156 with
  | nil =>
    rw [hrest] at hfield
    cases hfield
  | cons b bs =>
    rw [hrest] at hfield
    injection hfield

/-- The field of the name. -/
theorem nameField_makeTarHeader : (makeTarHeader name size typeflag).take 100 =
    (encode name).take 100 ++ List.replicate (100 - ((encode name).take 100).length) 0 := by
  have hsize := length_sizeField size
  have hname := length_nameField name
  have hcons : tarFields name size typeflag =
      (0, (encode name).take 100) :: (tarFields name size typeflag).tail := rfl
  have hfield : (makeTarHeader name size typeflag).take 100 = field 0 100
      (setFields (tarFields name size typeflag) (List.replicate tarBlockSize 0)) := by
    rw [← field_makeTarHeader name size typeflag (by decide), field, List.drop_zero]
  have hinside : ∀ w ∈ (tarFields name size typeflag).tail, w.1 + w.2.length ≤ tarBlockSize :=
    fun w hw => tarFields_inside name size typeflag w (List.mem_of_mem_tail hw)
  have hcases : ∀ w ∈ (tarFields name size typeflag).tail, 100 ≤ w.1 := by
    intro w hw
    simp only [tarFields, List.tail_cons, List.mem_cons, List.not_mem_nil, or_false] at hw
    rcases hw with rfl | rfl | rfl | rfl | rfl | rfl | rfl | rfl | rfl | rfl | rfl <;>
      exact Nat.le_of_ble_eq_true rfl
  generalize (encode name).take 100 = cut at hname hcons ⊢
  have hwidth : (cut ++ List.replicate (100 - cut.length) (0 : UInt8)).length = 100 := by
    rw [List.length_append, List.length_replicate]
    omega
  have hblock : tarBlockSize = 512 := rfl
  have hfirst : field 0 100 (setField 0 cut (List.replicate tarBlockSize 0)) =
      cut ++ List.replicate (100 - cut.length) 0 := by
    rw [field_setField_start (Nat.zero_le _) hname, field_replicate 0 (by omega)]
  have hlen : (setField 0 cut (List.replicate tarBlockSize 0)).length = tarBlockSize := by
    rw [length_setField] <;> rw [List.length_replicate]
    omega
  rw [hfield, hcons, setFields_cons]
  dsimp only
  have hself := @field_setFields_self _ (tarFields name size typeflag).tail
    (setField 0 cut (List.replicate tarBlockSize 0))
    (0, cut ++ List.replicate (100 - cut.length) 0)
  dsimp only at hself
  rw [hwidth] at hself
  refine hself (.inr hfirst) fun w hw => ⟨by rw [hlen]; exact hinside w hw, .inr (.inl ?_)⟩
  exact hcases w hw

theorem dropWhile_none {p : Char → Bool} {t : Path} (h : ∀ c ∈ t, p c = false) :
    t.dropWhile p = t := by
  cases t with
  | nil => rfl
  | cons c t => rw [List.dropWhile_cons, h c List.mem_cons_self, if_neg Bool.false_ne_true]

/-- The name that is read back from the header. -/
def cutName (name : Path) : Path := decode (((encode name).take 100).takeWhile (· ≠ 0))

theorem headerName_makeTarHeader : headerName (makeTarHeader name size typeflag) = cutName name := by
  unfold headerName cutName
  rw [nameField_makeTarHeader]
  congr 1
  rw [List.takeWhile_append]
  split
  · next hall =>
    have hzeros : (List.replicate (100 - ((encode name).take 100).length) (0 : UInt8)).takeWhile
        (· ≠ 0) = [] := by
      rw [List.takeWhile_eq_nil_iff]
      intro h
      simp
    rw [hzeros, List.append_nil, List.IsPrefix.eq_of_length (List.takeWhile_prefix _) hall]
  · rfl

theorem headerSize_makeTarHeader {size : Nat} (h : size < 8 ^ 11) :
    headerSize (makeTarHeader name size typeflag) = some size := by
  have hdigit : ∀ c ∈ octal 11 size, 0x30 ≤ c.toNat ∧ c.toNat < 0x38 := fun c hc =>
    octal_digit (isDigitOf_octal hc)
  have hnul : ∀ c ∈ octal 11 size, (c == '\x00') = false := by
    intro c hc
    rw [beq_eq_false_iff_ne]
    rintro rfl
    exact absurd (hdigit _ hc).1 (by decide)
  have hblank : ∀ c ∈ octal 11 size, isWhitespace c = false := by
    intro c hc
    obtain ⟨hlow, hhigh⟩ := hdigit c hc
    unfold isWhitespace
    simp only [Bool.or_eq_false_iff, Bool.and_eq_false_iff, decide_eq_false_iff_not,
      beq_eq_false_iff_ne]
    omega
  have hfront : (octal 11 size ++ ['\x00']).dropWhile (· == '\x00') = octal 11 size ++ ['\x00'] := by
    cases hoctal : octal 11 size with
    | nil => exact absurd hoctal (octal_ne_nil _ _)
    | cons c cs =>
      have hc := hnul c (hoctal ▸ List.mem_cons_self)
      rw [List.cons_append, List.dropWhile_cons, hc, if_neg Bool.false_ne_true]
  have htrimNul : trimNul (octal 11 size ++ ['\x00']) = octal 11 size := by
    rw [trimNul, hfront, List.reverse_append, List.reverse_singleton, List.singleton_append,
      List.dropWhile_cons, if_pos (by decide),
      dropWhile_none fun c hc => hnul c (List.mem_reverse.mp hc), List.reverse_reverse]
  have htrim : trim (octal 11 size) = octal 11 size := by
    rw [trim, dropWhile_none hblank, dropWhile_none fun c hc => hblank c (List.mem_reverse.mp hc),
      List.reverse_reverse]
  rw [headerSize, sizeField_makeTarHeader name typeflag h, decode_encode, htrimNul, htrim,
    fromOctal_octal (by omega)]

theorem isZeroBlock_makeTarHeader {size : Nat} (h : size < 8 ^ 11) :
    isZeroBlock (makeTarHeader name size typeflag) = false := by
  by_contra hzero
  rw [Bool.not_eq_false, isZeroBlock, List.all_eq_true] at hzero
  have hfield := sizeField_makeTarHeader name typeflag h
  cases hoctal : octal 11 size with
  | nil => exact octal_ne_nil _ _ hoctal
  | cons c cs =>
    have hdigit := octal_digit (isDigitOf_octal (hoctal ▸ List.mem_cons_self : c ∈ octal 11 size))
    have hmem : UInt8.ofNat c.toNat ∈ makeTarHeader name size typeflag := by
      have hin : UInt8.ofNat c.toNat ∈ field 124 12 (makeTarHeader name size typeflag) := by
        rw [hfield, encode_append, encode_octal, hoctal]
        simp
      exact List.mem_of_mem_drop (List.mem_of_mem_take hin)
    have hbyte := congrArg UInt8.toNat (beq_iff_eq.mp (hzero _ hmem))
    rw [LossyUtf8.toNat_ofNat (by omega), UInt8.toNat_zero] at hbyte
    omega

end

/-! ## 3. Listing -/

/-- `&data[start..stop]`, nothing where the bounds are not in the data. -/
def dataSlice (data : Bytes) (start stop : Nat) : Option Bytes :=
  if start ≤ stop ∧ stop ≤ data.length then some (field start (stop - start) data) else none

/-- What is listed: the place of each header and the name that is printed. -/
structure TarListing where
  entries : List (Nat × Path)
  stderr : List Path
  status : Int
  deriving DecidableEq, Repr

def TarListing.stdout (l : TarListing) : List Path := l.entries.map (·.2 ++ ['\n'])

/-- The loop of `tar_list`; the first argument bounds its turns, and there is no result where
    they do not suffice or where it would read outside the data. -/
def tarListFrom (data : Bytes) : Nat → Nat → List (Nat × Path) → Option TarListing
  | 0, _, _ => none
  | n + 1, pos, done =>
    if pos + tarBlockSize ≤ data.length then
      match dataSlice data pos (pos + tarBlockSize) with
      | none => none
      | some header =>
        if isZeroBlock header then some ⟨done, [], 0⟩
        else match headerSize header with
          | none => some ⟨done, [invalidSizeText (headerName header)], 1⟩
          | some size =>
            tarListFrom data n
              (pos + tarBlockSize + blocks tarBlockSize size * tarBlockSize)
              (done ++ [(pos, headerName header)])
    else some ⟨done, [], 0⟩

/-- `tar_list`. -/
def tarList (data : Bytes) : Option TarListing := tarListFrom data (data.length + 1) 0 []

end Wasmsh.Fs

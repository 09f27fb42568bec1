import Wasmsh.Library.Utf8

/-!
# Places between characters

The places in the bytes of a text that are not inside a character: what follows such a
place is again the bytes of a text, and so is what stands between two of them.
-/

namespace Utf8

/-- All bytes of a character but the first go on with it. -/
theorem continuation_of_encodeChar {c b : Char} {bs : List Char} (h : encodeChar c = b :: bs) :
    ∀ x ∈ bs, isContinuation x = true := by
  have hlt := toNat_lt c
  have hcont : ∀ n, 0x80 ≤ n → n < 0xC0 → isContinuation (Char.ofNat n) = true := by
    intro n hn hn'
    have hnat : (Char.ofNat n).toNat = n := toNat_ofNat (by omega)
    simp only [isContinuation, hnat, decide_eq_true_eq]
    exact ⟨hn, hn'⟩
  unfold encodeChar at h
  dsimp only at h
  split at h
  · cases h
    exact fun x hx => absurd hx List.not_mem_nil
  · split at h
    · cases h
      intro x hx
      rw [List.mem_singleton.mp hx]
      exact hcont _ (by omega) (by omega)
    · split at h
      · cases h
        intro x hx
        simp only [List.mem_cons, List.not_mem_nil, or_false] at hx
        rcases hx with rfl | rfl
        · exact hcont _ (by omega) (by omega)
        · exact hcont _ (by omega) (by omega)
      · cases h
        intro x hx
        simp only [List.mem_cons, List.not_mem_nil, or_false] at hx
        rcases hx with rfl | rfl | rfl
        · exact hcont _ (by omega) (by omega)
        · exact hcont _ (by omega) (by omega)
        · exact hcont _ (by omega) (by omega)

theorem decode_encode_append (cs v : List Char) : decode (encode cs ++ v) = cs ++ decode v := by
  induction cs with
  | nil => rfl
  | cons c cs ih => rw [encode_cons, List.append_assoc, decode_encodeChar, ih, List.cons_append]

theorem encode_injective {cs cs' : List Char} (h : encode cs = encode cs') : cs = cs' := by
  rw [← decode_encode cs, h, decode_encode]

/-- A text whose bytes start with those of another text starts with that text. -/
theorem exists_of_encode_eq_append {cs u v : List Char} (h : encode cs = encode u ++ v) :
    ∃ rest, cs = u ++ rest ∧ v = encode rest := by
  have hcs : cs = u ++ decode v := by
    rw [← decode_encode cs, h, decode_encode_append]
  refine ⟨decode v, hcs, ?_⟩
  have hbytes := h
  rw [hcs, encode_append] at hbytes
  exact (List.append_cancel_left hbytes).symm

theorem encode_isPrefix_iff {u cs : List Char} : encode u <+: encode cs ↔ u <+: cs := by
  constructor
  · rintro ⟨v, hv⟩
    rcases exists_of_encode_eq_append hv.symm with ⟨rest, rfl, -⟩
    exact List.prefix_append _ _
  · rintro ⟨rest, rfl⟩
    rw [encode_append]
    exact List.prefix_append _ _

/-- What follows a place that is not inside a character. -/
theorem exists_encode_of_boundary {v cs : List Char} (hv : v <:+ encode cs)
    (hboundary : isCharBoundary v = true) : ∃ s, s <:+ cs ∧ v = encode s := by
  induction cs with
  | nil => exact ⟨[], List.suffix_refl _, List.suffix_nil.mp hv⟩
  | cons c cs ih =>
    rw [encode_cons] at hv
    rcases hv with ⟨x, hx⟩
    rcases List.append_eq_append_iff.mp hx with ⟨y, hchar, rfl⟩ | ⟨y, -, hy⟩
    · cases x with
      | nil =>
        refine ⟨c :: cs, List.suffix_refl _, ?_⟩
        rw [encode_cons, hchar, List.nil_append]
      | cons b x =>
        cases y with
        | nil => exact ⟨cs, List.suffix_cons _ _, rfl⟩
        | cons d y =>
          -- the place is behind the first byte of `c`
          have hd : isContinuation d = true :=
            continuation_of_encodeChar hchar d (List.mem_append_right _ (.head _))
          rw [isCharBoundary, List.cons_append, List.head?_cons, Option.any_some, hd] at hboundary
          cases hboundary
    · rcases ih ⟨y, hy.symm⟩ with ⟨s, hs, rfl⟩
      exact ⟨s, hs.trans (List.suffix_cons _ _), rfl⟩

/-- The places between characters are those behind the first characters of the text. -/
theorem isCharBoundary_drop_iff {cs : List Char} {n : Nat} (hn : n ≤ (encode cs).length) :
    isCharBoundary ((encode cs).drop n) = true ↔ ∃ u, u <+: cs ∧ (encode u).length = n := by
  constructor
  · intro hboundary
    rcases exists_encode_of_boundary (List.drop_suffix n _) hboundary with ⟨s, ⟨u, rfl⟩, hs⟩
    refine ⟨u, List.prefix_append _ _, ?_⟩
    have hlength := congrArg List.length hs
    rw [List.length_drop, encode_append, List.length_append] at hlength
    rw [encode_append, List.length_append] at hn
    omega
  · rintro ⟨u, ⟨s, rfl⟩, rfl⟩
    rw [encode_append, List.drop_left]
    exact isCharBoundary_encode s

/-- The bytes of a text that is not empty do not occur inside a character. -/
theorem isCharBoundary_of_prefix {u v : List Char} (hne : u ≠ []) (h : encode u <+: v) :
    isCharBoundary v = true := by
  rcases h with ⟨w, rfl⟩
  cases u with
  | nil => exact absurd rfl hne
  | cons c u =>
    have hboundary := isCharBoundary_encode (c :: u)
    rw [encode_cons] at hboundary ⊢
    cases hchar : encodeChar c with
    | nil => exact absurd hchar (encodeChar_ne_nil c)
    | cons b bs =>
      rw [hchar] at hboundary
      exact hboundary

end Utf8

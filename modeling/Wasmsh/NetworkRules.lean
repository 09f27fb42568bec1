import Wasmsh.NetworkMirror

/-!
# The rules of the two network policies

The policy of `net_types.rs` and its mirror in `allowlist.mjs` share one grammar of rules, up to
four features.  Rust reads a plus sign before a port, and a name with a byte order mark at an
end; the script reads a bracketed address with a dot at its end, a name that is mapped to a
domain with a dot at its end, and a wildcard over an IPv4 address.

What the URL parser does is stated by `Whatwg`; both sides use the same one.
-/

namespace Wasmsh.Network

open IpText

variable {raw : List Char} {t : List Char} {s : List Char} {d : List Char} {c : Char}

/-! ## 1. The URL parser -/

/-- The characters that end a host or a userinfo, and control characters. -/
def isSeparator (c : Char) : Bool := "/@?#%\\".toList.contains c

def isC0 (c : Char) : Bool := c.toNat < 0x20 || c.toNat == 0x7f

/-- A text in the place of a host, without the characters that end a host. -/
structure HostText (t : List Char) : Prop where
  separators : ∀ c ∈ t, isSeparator c = false
  controls : ∀ c ∈ t, isC0 c = false

/-- A name: no address in brackets, and no port. -/
structure NameText (t : List Char) : Prop where
  colon : ':' ∉ t
  opening : '[' ∉ t
  closing : ']' ∉ t

/-- A domain is lower-case ASCII without separators, and does not end in a number. -/
structure DomainText (d : List Char) : Prop where
  graphic : ∀ c ∈ d, 0x20 < c.toNat ∧ c.toNat < 0x7f
  lower : d.map Char.toLower = d
  host : HostText d
  name : NameText d
  number : d.getLast? ≠ some '.' → ¬ ∀ c ∈ lastLabel d, isDigitOf 10 c = true

/-- `http://host/`. -/
def hostUrl (t : List Char) : List Char := "http://".toList ++ t ++ "/".toList

/-- `http://[host]/`. -/
def bracketUrl (t : List Char) : List Char := "http://[".toList ++ t ++ "]/".toList

/-- How a host is written in a URL. -/
def UrlHost.text (ipv6Text : Ipv6Addr → List Char) : UrlHost → List Char
  | .domain d => d
  | .ipv4 a => a.text
  | .ipv6 a => '[' :: ipv6Text a ++ [']']

/-- What the policies rely on of a WHATWG URL parser whose IPv6 addresses are written by
    `ipv6Text`. -/
structure Whatwg (u : UrlCrate) (ipv6Text : Ipv6Addr → List Char) : Prop where
  /-- The host is written as it is. -/
  hostStr : ∀ {s p}, u.parse s = .ok p → p.hostStr = p.host.map (UrlHost.text ipv6Text)
  /-- An empty password is none. -/
  password : ∀ {s p}, u.parse s = .ok p → p.password ≠ some []
  /-- The domains of HTTP URLs. -/
  domain : ∀ {s p d}, u.parse s = .ok p → p.scheme = "http".toList ∨ p.scheme = "https".toList →
    p.host = some (.domain d) → DomainText d
  /-- A name is a domain or an IPv4 address; white space and controls are no part of it. -/
  plain : ∀ {t p}, HostText t → NameText t → u.parse (hostUrl t) = .ok p →
    p.scheme = "http".toList ∧ (∃ h, p.host = some h ∧ ∀ a, h ≠ .ipv6 a) ∧
      ∀ c ∈ t, isWhitespace c = false ∧ isControl c = false
  /-- Only other characters than ASCII are mapped to dots. -/
  dot : ∀ {t p d}, HostText t → NameText t → (∀ c ∈ t, c.toNat < 0x80) →
    t.getLast? ≠ some '.' → u.parse (hostUrl t) = .ok p → p.host = some (.domain d) →
    d.getLast? ≠ some '.'
  /-- An IPv4 address is parsed as what it is. -/
  ipv4 : ∀ {t a}, parseIpv4 t = some a → ∃ p, u.parse (hostUrl t) = .ok p ∧
    p.host = some (.ipv4 a)
  /-- Between brackets there is an IPv6 address. -/
  ipv6 : ∀ {t a}, parseIpv6 t = some a → ∃ p, u.parse (bracketUrl t) = .ok p ∧
    p.host = some (.ipv6 a)
  bracket : ∀ {t p}, HostText t → ']' ∉ t → u.parse (bracketUrl t) = .ok p →
    (parseIpv6 t).isSome
  /-- A written IPv6 address is read back; it has no dots and no upper-case digits. -/
  text : ∀ a, parseIpv6 (ipv6Text a) = some a ∧ '.' ∉ ipv6Text a ∧
    (ipv6Text a).map Char.toLower = ipv6Text a

/-! ## 2. Rules -/

/-- The port of a rule, with its colon, and whether it has a sign. -/
inductive PortText : (signed : Bool) → List Char → Option Nat → Prop where
  | absent : PortText false [] none
  | plain {digits : List Char} {n : Nat} (hne : digits ≠ []) (hdigits : digits.all Char.isDigit)
      (hvalue : digits.foldl (fun n c => n * 10 + (c.toNat - '0'.toNat)) 0 = n)
      (hn : n < 65536) : PortText false (':' :: digits) (some n)
  | signed {digits : List Char} {n : Nat} (hne : digits ≠ []) (hdigits : digits.all Char.isDigit)
      (hvalue : digits.foldl (fun n c => n * 10 + (c.toNat - '0'.toNat)) 0 = n)
      (hn : n < 65536) : PortText true (':' :: '+' :: digits) (some n)

/-- Without a dot at the end. -/
def dropDot (t : List Char) : List Char := if t.getLast? = some '.' then t.dropLast else t

/-- The host that the URL parser finds in a name. -/
structure Resolves (u : UrlCrate) (t : List Char) (h : UrlHost) : Prop where
  nonempty : dropDot t ≠ []
  dots : (dropDot t).getLast? ≠ some '.'
  host : HostText (dropDot t)
  parsed : ∃ p, u.parse (hostUrl (dropDot t)) = .ok p ∧ p.host = some h

/-- `validate_domain` accepts it. -/
def ValidDomain (d : List Char) : Prop := validateDomain d = .ok ()

/-- The host without a dot at the end of its domain. -/
def UrlHost.dropDot : UrlHost → UrlHost
  | .domain d => .domain (Network.dropDot d)
  | h => h

/-- How a host that is no IPv6 address is written when it is compared. -/
inductive HostName : UrlHost → List Char → Prop where
  | domain {d : List Char} (h : ValidDomain d) : HostName (.domain d) d
  | ipv4 (a : Ipv4Addr) : HostName (.ipv4 a) a.text

def byteOrderMark : Char := '\uFEFF'

def Padded (t : List Char) : Prop :=
  t.head? = some byteOrderMark ∨ t.getLast? = some byteOrderMark

/-- How a rule is cut: the host, in brackets or not, and the text of the port. -/
inductive Cut : List Char → (bracketed : Bool) → (host port : List Char) → Prop where
  | bracketed {host : List Char} (hclose : ']' ∉ host) (port : List Char) :
      Cut ('[' :: host ++ ']' :: port) true host port
  | name {host : List Char} (hname : NameText host) {port : List Char}
      (hhost : port = [] ∨ host ≠ []) : Cut (host ++ port) false host port

/-- The hosts that a rule is about: all of them, or a host or the domains below it. -/
inductive RuleHost where
  | any
  | named (h : UrlHost) (wildcard : Bool)

/-- The features of a host on which the two sides differ. -/
structure HostFeatures where
  /-- A byte order mark at an end of the name. -/
  padded : Prop
  /-- A dot at the end of an address in brackets, or of the domain a name is mapped to. -/
  dotted : Prop
  /-- A wildcard over an IPv4 address. -/
  wildcardIp : Prop

/-- The text before the name of a rule. -/
def wildcardText (wildcard : Bool) : List Char := if wildcard then "*.".toList else []

/-- The text of the host of a rule. -/
inductive HostSpelled (u : UrlCrate) :
    (bracketed : Bool) → List Char → HostFeatures → RuleHost → Prop where
  | any : HostSpelled u false ['*'] ⟨False, False, False⟩ .any
  | name (wildcard : Bool) {t j : List Char} {h : UrlHost} (hstar : '*' ∉ t)
      (hcontrols : ∀ c ∈ t, isC0 c = false) (hresolves : Resolves u t h)
      (hname : HostName h.dropDot j) :
      HostSpelled u false (wildcardText wildcard ++ t)
        ⟨Padded t, h.dropDot ≠ h, wildcard = true ∧ ∃ a, h = .ipv4 a⟩ (.named h.dropDot wildcard)
  | ipv6 {t : List Char} {a : Ipv6Addr} (haddress : parseIpv6 (dropDot t) = some a) :
      HostSpelled u true t ⟨False, t.getLast? = some '.', False⟩ (.named (.ipv6 a) false)

/-- The texts of rules, and what they say. -/
inductive Spelled (u : UrlCrate) :
    List Char → (signed : Bool) → HostFeatures → RuleHost → Option Nat → Prop where
  | intro {raw host port : List Char} {b signed : Bool} {f : HostFeatures} {h : RuleHost}
      {n : Option Nat} (hcut : Cut raw b host port) (hport : PortText signed port n)
      (hhost : HostSpelled u b host f h) : Spelled u raw signed f h n

/-- The rule is one of the common grammar. -/
def Readable (u : UrlCrate) (raw : List Char) : Prop := ∃ signed f h n, Spelled u raw signed f h n

/-- The rule has a feature that the script refuses. -/
def RustOnly (u : UrlCrate) (raw : List Char) : Prop :=
  ∃ signed f h n, Spelled u raw signed f h n ∧ (signed = true ∨ f.padded)

/-- The rule has a feature that Rust refuses. -/
def ScriptOnly (u : UrlCrate) (raw : List Char) : Prop :=
  ∃ signed f h n, Spelled u raw signed f h n ∧ (f.dotted ∨ f.wildcardIp)

/-! ## 3. Texts -/

theorem dropDot_eq (t : List Char) : (stripSuffix '.' t).getD t = dropDot t := by
  unfold stripSuffix dropDot
  split <;> rfl

theorem mem_of_mem_dropDot (h : c ∈ dropDot t) : c ∈ t := by
  unfold dropDot at h
  split at h
  · exact List.mem_of_mem_dropLast h
  · exact h

/-- Only a dot was dropped. -/
theorem eq_dropDot_or (t : List Char) : t = dropDot t ∨ t = dropDot t ++ ['.'] := by
  unfold dropDot
  split
  next h =>
    right
    obtain ⟨s, rfl⟩ := List.getLast?_eq_some_iff.mp h
    rw [List.dropLast_concat]
  next => exact .inl rfl

theorem mem_dropDot_of_mem (h : c ∈ t) (hc : c ≠ '.') :
    c ∈ dropDot t := by
  rcases eq_dropDot_or t with ht | ht
  · rwa [← ht]
  · rw [ht] at h
    rcases List.mem_append.mp h with h | h
    · exact h
    · exact absurd (List.mem_singleton.mp h) hc

theorem dropDot_of_ne (h : t.getLast? ≠ some '.') : dropDot t = t :=
  if_neg h

theorem NameText.dropDot (h : NameText t) : NameText (dropDot t) where
  colon := fun hmem => h.colon (mem_of_mem_dropDot hmem)
  opening := fun hmem => h.opening (mem_of_mem_dropDot hmem)
  closing := fun hmem => h.closing (mem_of_mem_dropDot hmem)

/-- Trimming leaves a text alone exactly when neither end is trimmed. -/
theorem trimBy_eq_self_iff (p : Char → Bool) (s : List Char) :
    ((s.dropWhile p).reverse.dropWhile p).reverse = s ↔
      (∀ c ∈ s.head?, p c = false) ∧ ∀ c ∈ s.getLast?, p c = false := by
  constructor
  · intro h
    have hlength := congrArg List.length h
    rw [List.length_reverse] at hlength
    have hfirst := (List.dropWhile_suffix (l := s) p).length_le
    have hlast := (List.dropWhile_suffix (l := (s.dropWhile p).reverse) p).length_le
    rw [List.length_reverse] at hlast
    have hs : s.dropWhile p = s :=
      (List.dropWhile_suffix p).eq_of_length (by omega)
    rw [hs] at h
    have hr : s.reverse.dropWhile p = s.reverse := by
      rw [← List.reverse_reverse (s.reverse.dropWhile p), h]
    refine ⟨?_, ?_⟩
    · intro c hc
      have := List.head?_dropWhile_not p s
      rw [hs, hc] at this
      simpa using this
    · intro c hc
      have := List.head?_dropWhile_not p s.reverse
      rw [hr, List.head?_reverse, hc] at this
      simpa using this
  · rintro ⟨hhead, hlast⟩
    have hs : s.dropWhile p = s := by
      cases s with
      | nil => rfl
      | cons c s => rw [List.dropWhile_cons_of_neg (by simp [hhead c rfl])]
    have hr : s.reverse.dropWhile p = s.reverse := by
      cases hrev : s.reverse with
      | nil => rfl
      | cons c r =>
        have hc : s.getLast? = some c := by rw [← List.head?_reverse, hrev]; rfl
        rw [List.dropWhile_cons_of_neg (by simp [hlast c hc])]
    rw [hs, hr, List.reverse_reverse]

theorem trim_eq_self (h : ∀ c ∈ s, isWhitespace c = false) : trim s = s := by
  refine (trimBy_eq_self_iff isWhitespace s).mpr ⟨?_, ?_⟩
  · exact fun c hc => h c (List.mem_of_head? hc)
  · exact fun c hc => h c (List.mem_of_getLast? hc)

theorem mirror_trim_iff (s : List Char) : Mirror.trim s = s ↔
    (∀ c ∈ s.head?, Mirror.isTrimmed c = false) ∧
      ∀ c ∈ s.getLast?, Mirror.isTrimmed c = false :=
  trimBy_eq_self_iff Mirror.isTrimmed s

/-- The script trims what is white space for Rust, and the byte order mark. -/
theorem isTrimmed_of_not_whitespace (h : isWhitespace c = false) :
    Mirror.isTrimmed c = decide (c = byteOrderMark) := by
  have hmark : c = byteOrderMark ↔ c.toNat = 0xFEFF := by
    constructor
    · rintro rfl
      rfl
    · intro hc
      exact Char.toNat_inj.mp hc
  unfold isWhitespace at h
  unfold Mirror.isTrimmed
  simp only [Bool.or_eq_false_iff, Bool.and_eq_false_iff, decide_eq_false_iff_not,
    beq_eq_false_iff_ne] at h
  by_cases hc : c.toNat = 0xFEFF
  · rw [hmark.mpr hc]
    decide
  · simp only [hmark, hc, decide_false, Bool.or_eq_false_iff, Bool.and_eq_false_iff,
      decide_eq_false_iff_not, beq_eq_false_iff_ne]
    tauto

/-! ## 4. Ports -/

theorem isDigit_plus : Char.isDigit '+' = false := by decide

/-- The ports that Rust reads. -/
theorem parsePort_iff (s : List Char) (n : Option Nat) :
    parsePort s = .ok n ↔ ∃ signed, PortText signed (':' :: s) n := by
  constructor
  · intro h
    unfold parsePort at h
    split at h
    · cases h
    next hne =>
      cases hu : parseU16 s with
      | none => simp [hu] at h
      | some m =>
        simp only [hu, Except.ok.injEq] at h
        subst h
        have hread : ∀ digits : List Char,
            (if digits.isEmpty || !digits.all Char.isDigit then none
              else if digits.foldl (fun n c => n * 10 + (c.toNat - '0'.toNat)) 0 < 65536 then
                some (digits.foldl (fun n c => n * 10 + (c.toNat - '0'.toNat)) 0)
              else none) = some m →
            digits ≠ [] ∧ digits.all Char.isDigit = true ∧
              digits.foldl (fun n c => n * 10 + (c.toNat - '0'.toNat)) 0 = m ∧ m < 65536 := by
          intro digits hdigits
          split at hdigits
          · simp at hdigits
          next hok =>
            split at hdigits
            next hlt =>
              simp only [Bool.or_eq_true, Bool.not_eq_true', not_or, Bool.not_eq_false,
                List.isEmpty_iff] at hok
              rw [Option.some.injEq] at hdigits
              exact ⟨hok.1, hok.2, hdigits, hdigits ▸ hlt⟩
            next => simp at hdigits
        unfold parseU16 at hu
        by_cases hplus : s.head? = some '+'
        · rw [if_pos hplus] at hu
          obtain ⟨hne', hall, hvalue, hlt⟩ := hread s.tail hu
          obtain ⟨rest, rfl⟩ := List.head?_eq_some_iff.mp hplus
          exact ⟨true, .signed hne' hall hvalue hlt⟩
        · rw [if_neg hplus] at hu
          obtain ⟨hne', hall, hvalue, hlt⟩ := hread s hu
          exact ⟨false, .plain hne' hall hvalue hlt⟩
  · rintro ⟨signed, h⟩
    cases h with
    | @plain digits n hne hdigits hvalue hn =>
      have hplus : s.head? ≠ some '+' := by
        intro hhead
        have hmem := List.all_eq_true.mp hdigits '+' (List.mem_of_head? hhead)
        rw [isDigit_plus] at hmem
        cases hmem
      have hparse : parseU16 s = some n := by
        unfold parseU16
        simp only [if_neg hplus, hdigits, List.isEmpty_eq_false_iff.mpr hne, Bool.not_true,
          Bool.or_self, Bool.false_eq_true, if_false, hvalue, if_pos hn]
      rw [parsePort, if_neg (by simpa using hne), hparse]
    | @signed digits n hne hdigits hvalue hn =>
      have hparse : parseU16 ('+' :: digits) = some n := by
        unfold parseU16
        simp only [List.head?_cons, if_true, List.tail_cons, hdigits,
          List.isEmpty_eq_false_iff.mpr hne, Bool.not_true, Bool.or_self, Bool.false_eq_true,
          if_false, hvalue, if_pos hn]
      rw [parsePort, if_neg (by simp), hparse]

/-- The ports that the script reads. -/
theorem mirror_parsePort_iff (s : List Char) (n : Nat) :
    Mirror.parsePort s = .ok n ↔ PortText false (':' :: s) (some n) := by
  constructor
  · intro h
    unfold Mirror.parsePort at h
    split at h
    · cases h
    next hdigits =>
      simp only [Bool.or_eq_true, Bool.not_eq_true', not_or, Bool.not_eq_false,
        List.isEmpty_iff] at hdigits
      dsimp only at h
      split at h
      · cases h
      next hle =>
        cases h
        exact .plain hdigits.1 hdigits.2 rfl (by omega)
  · intro h
    cases h with
    | plain hne hdigits hvalue hn =>
      unfold Mirror.parsePort
      simp only [hdigits, List.isEmpty_eq_false_iff.mpr hne, Bool.not_true, Bool.or_self,
        Bool.false_eq_true, if_false, hvalue]
      rw [if_neg (by omega)]

theorem rsplitOnce_append {host port : List Char} (hport : ':' ∉ port) :
    rsplitOnce ':' (host ++ ':' :: port) = some (host, port) := by
  have hrev : ∀ c ∈ port.reverse, decide (c ≠ ':') = true := by
    intro c hc
    have : c ≠ ':' := fun h => hport (h ▸ List.mem_reverse.mp hc)
    simpa using this
  have hafter : (host ++ ':' :: port).reverse.takeWhile (· ≠ ':') = port.reverse := by
    rw [List.reverse_append, List.reverse_cons, List.append_assoc, List.singleton_append,
      List.takeWhile_append_of_pos hrev]
    simp
  have hlength : (host ++ ':' :: port).length - port.length - 1 = host.length := by
    rw [List.length_append, List.length_cons]
    omega
  rw [rsplitOnce, if_pos (by simp), hafter, List.reverse_reverse]
  dsimp only
  rw [hlength, List.take_left]

theorem rsplitOnce_none (h : ':' ∉ s) : rsplitOnce ':' s = none := if_neg h

theorem PortText.cases_eq {signed : Bool} {port : List Char} {n : Option Nat}
    (h : PortText signed port n) :
    (port = [] ∧ signed = false ∧ n = none) ∨
      ∃ rest, port = ':' :: rest ∧ ':' ∉ rest ∧ '[' ∉ rest ∧ ']' ∉ rest := by
  have hdigit : ∀ {digits : List Char}, digits.all Char.isDigit = true → ∀ c ∈ digits,
      c ≠ ':' ∧ c ≠ '[' ∧ c ≠ ']' := by
    intro digits hdigits c hc
    have hone := List.all_eq_true.mp hdigits c hc
    refine ⟨?_, ?_, ?_⟩ <;>
    · rintro rfl
      exact absurd hone (by decide)
  cases h with
  | absent => exact .inl ⟨rfl, rfl, rfl⟩
  | plain hne hdigits hvalue hn =>
    refine .inr ⟨_, rfl, ?_, ?_, ?_⟩
    · exact fun hc => (hdigit hdigits _ hc).1 rfl
    · exact fun hc => (hdigit hdigits _ hc).2.1 rfl
    · exact fun hc => (hdigit hdigits _ hc).2.2 rfl
  | signed hne hdigits hvalue hn =>
    refine .inr ⟨_, rfl, ?_, ?_, ?_⟩
    · simpa using fun hc => (hdigit hdigits _ hc).1 rfl
    · simpa using fun hc => (hdigit hdigits _ hc).2.1 rfl
    · simpa using fun hc => (hdigit hdigits _ hc).2.2 rfl

theorem eq_append_of_mem (h : c ∈ s) :
    ∃ before after, s = before ++ c :: after ∧ c ∉ before := by
  induction s with
  | nil => cases h
  | cons x s ih =>
    by_cases hx : x = c
    · exact ⟨[], s, by rw [hx]; rfl, by simp⟩
    · have hs : c ∈ s := by
        rcases List.mem_cons.mp h with h | h
        · exact absurd h.symm hx
        · exact h
      obtain ⟨before, after, rfl, hbefore⟩ := ih hs
      refine ⟨x :: before, after, rfl, ?_⟩
      simp only [List.mem_cons, not_or]
      exact ⟨fun h => hx h.symm, hbefore⟩

theorem takeWhile_closing {host : List Char} (h : ']' ∉ host) (suffix : List Char) :
    (host ++ ']' :: suffix).takeWhile (· ≠ ']') = host := by
  have hall : ∀ c ∈ host, decide (c ≠ ']') = true := by
    intro c hc
    have : c ≠ ']' := fun he => h (he ▸ hc)
    simpa using this
  rw [List.takeWhile_append_of_pos hall]
  simp

/-- What the two functions have in common: a rule is cut, and its port is read by `parse`. -/
theorem cut_cases (raw : List Char) :
    (∃ host suffix, raw = '[' :: host ++ ']' :: suffix ∧ ']' ∉ host) ∨
    (∃ rest, raw = '[' :: rest ∧ ']' ∉ rest) ∨
    (raw.head? ≠ some '[' ∧ ('[' ∈ raw ∨ ']' ∈ raw)) ∨
    (raw.head? ≠ some '[' ∧ '[' ∉ raw ∧ ']' ∉ raw ∧ 1 < raw.count ':') ∨
    (NameText raw) ∨
    (∃ host port, raw = host ++ ':' :: port ∧ NameText host ∧ NameText port) := by
  by_cases hhead : raw.head? = some '['
  · obtain ⟨rest, rfl⟩ := List.head?_eq_some_iff.mp hhead
    by_cases hclose : ']' ∈ rest
    · obtain ⟨host, suffix, rfl, hhost⟩ := eq_append_of_mem hclose
      exact .inl ⟨host, suffix, rfl, hhost⟩
    · exact .inr (.inl ⟨rest, rfl, hclose⟩)
  by_cases hbrackets : '[' ∈ raw ∨ ']' ∈ raw
  · exact .inr (.inr (.inl ⟨hhead, hbrackets⟩))
  rw [not_or] at hbrackets
  by_cases hcount : 1 < raw.count ':'
  · exact .inr (.inr (.inr (.inl ⟨hhead, hbrackets.1, hbrackets.2, hcount⟩)))
  by_cases hcolon : ':' ∈ raw
  · obtain ⟨host, port, rfl, hhost⟩ := eq_append_of_mem hcolon
    have hport : ':' ∉ port := by
      intro hmem
      have := List.count_pos_iff.mpr hmem
      simp only [List.count_append, List.count_cons_self] at hcount
      omega
    simp only [List.mem_append, List.mem_cons, not_or] at hbrackets
    exact .inr (.inr (.inr (.inr (.inr ⟨host, port, rfl, ⟨hhost, hbrackets.1.1, hbrackets.2.1⟩,
      ⟨hport, hbrackets.1.2.2, hbrackets.2.2.2⟩⟩))))
  · exact .inr (.inr (.inr (.inr (.inl ⟨hcolon, hbrackets.1, hbrackets.2⟩))))

theorem Cut.head?_iff {raw host port : List Char} {b : Bool} (h : Cut raw b host port)
    (hport : port = [] ∨ ∃ rest, port = ':' :: rest) :
    raw.head? = some '[' ↔ b = true := by
  cases h with
  | bracketed hclose => simp
  | name hname hhost =>
    simp only [Bool.false_eq_true, iff_false]
    intro hhead
    cases host with
    | nil =>
      rcases hhost with rfl | hne
      · cases hhead
      · exact hne rfl
    | cons c host =>
      cases hhead
      exact hname.opening List.mem_cons_self

/-- A rule is cut in one way only. -/
theorem Cut.unique {raw host host' port port' : List Char} {b b' signed signed' : Bool}
    {n n' : Option Nat} (h : Cut raw b host port) (hport : PortText signed port n)
    (h' : Cut raw b' host' port') (hport' : PortText signed' port' n') :
    b = b' ∧ host = host' ∧ port = port' := by
  have hstart : ∀ {signed : Bool} {port : List Char} {n : Option Nat},
      PortText signed port n → port = [] ∨ ∃ rest, port = ':' :: rest := by
    intro signed port n hport
    rcases hport.cases_eq with ⟨rfl, -⟩ | ⟨rest, rfl, -⟩
    · exact .inl rfl
    · exact .inr ⟨rest, rfl⟩
  have hb : b = b' := by
    have := (h.head?_iff (hstart hport)).symm.trans (h'.head?_iff (hstart hport'))
    rcases b with _ | _ <;> rcases b' with _ | _ <;> simp_all
  subst hb
  refine ⟨rfl, ?_⟩
  cases h with
  | bracketed hclose =>
    generalize hraw : '[' :: host ++ ']' :: port = raw at h'
    cases h' with
    | bracketed hclose' =>
      have htail : host ++ ']' :: port = host' ++ ']' :: port' := List.cons.inj hraw |>.2
      have hhost : host = host' := by
        rw [← takeWhile_closing hclose port, htail, takeWhile_closing hclose' port']
      subst hhost
      exact ⟨rfl, (List.cons.inj (List.append_cancel_left htail)).2⟩
  | name hname hhost =>
    generalize hraw : host ++ port = raw at h'
    cases h' with
    | name hname' hhost' =>
      have htake : ∀ {host port : List Char}, NameText host →
          (port = [] ∨ ∃ rest, port = ':' :: rest) →
          (host ++ port).takeWhile (· ≠ ':') = host := by
        intro host port hname hport
        have hall : ∀ c ∈ host, decide (c ≠ ':') = true := by
          intro c hc
          have : c ≠ ':' := fun he => hname.colon (he ▸ hc)
          simpa using this
        rw [List.takeWhile_append_of_pos hall]
        rcases hport with rfl | ⟨rest, rfl⟩ <;> simp
      have hhosts : host = host' := by
        rw [← htake hname (hstart hport), hraw, htake hname' (hstart hport')]
      subst hhosts
      exact ⟨rfl, List.append_cancel_left hraw⟩

/-- The rule is no bracket, and both functions look at its colons. -/
theorem head?_ne_of_name (h : NameText raw) : raw.head? ≠ some '[' := by
  intro hhead
  exact h.opening (List.mem_of_head? hhead)

theorem splitRulePort_unbracketed (h : raw.head? ≠ some '[') :
    splitRulePort raw =
      if '[' ∈ raw ∨ ']' ∈ raw then .error "IPv6 rules must use brackets".toList
      else if 1 < raw.count ':' then .error "IPv6 rules must use brackets".toList
      else match rsplitOnce ':' raw with
        | some (host, port) =>
          if host.isEmpty then .error "rule host is empty".toList
          else (parsePort port).map fun port => (host, port)
        | none => .ok (raw, none) := by
  unfold splitRulePort
  split
  · exact absurd rfl h
  · rfl

theorem mirror_splitRulePort_unbracketed (h : raw.head? ≠ some '[') :
    Mirror.splitRulePort raw =
      if '[' ∈ raw ∨ ']' ∈ raw then Mirror.policyError "IPv6 rules must use brackets".toList
      else if 1 < raw.count ':' then Mirror.policyError "IPv6 rules must use brackets".toList
      else match rsplitOnce ':' raw with
        | some (host, port) =>
          if host.isEmpty then Mirror.policyError "rule host is empty".toList
          else (Mirror.parsePort port).map fun port => ⟨host, some port, false⟩
        | none => .ok ⟨raw, none, false⟩ := by
  unfold Mirror.splitRulePort
  split
  · exact absurd rfl h
  · rfl

theorem count_colon_le {host port : List Char} (hhost : NameText host) (hport : ':' ∉ port) :
    ¬ 1 < (host ++ ':' :: port).count ':' := by
  rw [List.count_append, List.count_cons_self, List.count_eq_zero.mpr hhost.colon,
    List.count_eq_zero.mpr hport]
  decide

theorem not_one_lt_count (h : NameText raw) : ¬ 1 < raw.count ':' := by
  rw [List.count_eq_zero.mpr h.colon]
  decide

/-- A name with a port does not start with a bracket. -/
theorem head?_ne_of_port {host port : List Char} (hhost : NameText host) (hport : '[' ∉ port) :
    (host ++ ':' :: port).head? ≠ some '[' := by
  intro hhead
  have hmem := List.mem_of_head? hhead
  simp only [List.mem_append, List.mem_cons] at hmem
  rcases hmem with hm | hm | hm
  · exact hhost.opening hm
  · cases hm
  · exact hport hm

theorem drop_closing (host suffix : List Char) :
    (host ++ ']' :: suffix).drop (host.length + 1) = suffix := by
  rw [List.append_cons, List.drop_left' (by simp)]

/-- How Rust cuts a rule. -/
theorem splitRulePort_iff (raw host : List Char) (n : Option Nat) :
    splitRulePort raw = .ok (host, n) ↔
      ∃ b signed port, Cut raw b host port ∧ PortText signed port n := by
  constructor
  · intro h
    rcases cut_cases raw with ⟨host', suffix, rfl, hclose⟩ | ⟨rest, rfl, hclose⟩ |
      ⟨hhead, hbrackets⟩ | ⟨hhead, hopen, hclose, hcount⟩ | hname | ⟨host', port, rfl, hname, hport⟩
    · rw [List.cons_append, splitRulePort, if_pos (by simp)] at h
      dsimp only at h
      rw [takeWhile_closing hclose, drop_closing] at h
      split at h
      · cases h
        exact ⟨true, false, [], .bracketed hclose [], .absent⟩
      next port =>
        cases hparse : parsePort port with
        | error e => simp [hparse, Except.map] at h
        | ok m =>
          simp only [hparse, Except.map, Except.ok.injEq, Prod.mk.injEq] at h
          obtain ⟨rfl, rfl⟩ := h
          obtain ⟨signed, hport⟩ := (parsePort_iff port m).mp hparse
          exact ⟨true, signed, _, .bracketed hclose _, hport⟩
      · cases h
    · rw [splitRulePort, if_neg hclose] at h
      cases h
    · rw [splitRulePort_unbracketed hhead, if_pos hbrackets] at h
      cases h
    · rw [splitRulePort_unbracketed hhead, if_neg (by simp [hopen, hclose]), if_pos hcount] at h
      cases h
    · have hcount := not_one_lt_count hname
      rw [splitRulePort_unbracketed (head?_ne_of_name hname),
        if_neg (by simp [hname.opening, hname.closing]), if_neg hcount,
        rsplitOnce_none hname.colon] at h
      cases h
      refine ⟨false, false, [], ?_, .absent⟩
      have hcut := Cut.name hname (.inl (rfl : ([] : List Char) = []))
      rwa [List.append_nil] at hcut
    · have hhead := head?_ne_of_port hname hport.opening
      rw [splitRulePort_unbracketed hhead,
        if_neg (by simp [hname.opening, hname.closing, hport.opening, hport.closing]),
        if_neg (count_colon_le hname hport.colon), rsplitOnce_append hport.colon] at h
      dsimp only at h
      split at h
      · cases h
      next hne =>
        cases hparse : parsePort port with
        | error e => simp [hparse, Except.map] at h
        | ok m =>
          simp only [hparse, Except.map, Except.ok.injEq, Prod.mk.injEq] at h
          obtain ⟨rfl, rfl⟩ := h
          obtain ⟨signed, hport⟩ := (parsePort_iff port m).mp hparse
          exact ⟨false, signed, _, .name hname (.inr (by simpa using hne)), hport⟩
  · rintro ⟨b, signed, port, hcut, hport⟩
    have hparse : ∀ rest, port = ':' :: rest → parsePort rest = .ok n := by
      rintro rest rfl
      exact (parsePort_iff rest n).mpr ⟨signed, hport⟩
    cases hcut with
    | bracketed hclose =>
      rw [List.cons_append, splitRulePort, if_pos (by simp)]
      dsimp only
      rw [takeWhile_closing hclose, drop_closing]
      rcases hport.cases_eq with ⟨rfl, -, rfl⟩ | ⟨rest, rfl, -⟩
      · rfl
      · simp only [hparse rest rfl, Except.map]
    | name hname hhost =>
      rcases hport.cases_eq with ⟨rfl, -, rfl⟩ | ⟨rest, rfl, hcolon, hopen, hclose⟩
      · rw [List.append_nil, splitRulePort_unbracketed (head?_ne_of_name hname),
          if_neg (by simp [hname.opening, hname.closing]), rsplitOnce_none hname.colon,
          List.count_eq_zero.mpr hname.colon]
        rfl
      · have hne : host ≠ [] := by
          rcases hhost with h | h
          · cases h
          · exact h
        have hhead := head?_ne_of_port hname hopen
        rw [splitRulePort_unbracketed hhead,
          if_neg (by simp [hname.opening, hname.closing, hopen, hclose]),
          if_neg (count_colon_le hname hcolon), rsplitOnce_append hcolon]
        simp only [List.isEmpty_eq_false_iff.mpr hne, Bool.false_eq_true, if_false,
          hparse rest rfl, Except.map]

/-- How the script cuts a rule. -/
theorem mirror_splitRulePort_iff (raw host : List Char) (n : Option Nat) (b : Bool) :
    Mirror.splitRulePort raw = .ok ⟨host, n, b⟩ ↔
      ∃ port, Cut raw b host port ∧ PortText false port n := by
  constructor
  · intro h
    rcases cut_cases raw with ⟨host', suffix, rfl, hclose⟩ | ⟨rest, rfl, hclose⟩ |
      ⟨hhead, hbrackets⟩ | ⟨hhead, hopen, hclose, hcount⟩ | hname | ⟨host', port, rfl, hname, hport⟩
    · rw [List.cons_append, Mirror.splitRulePort, if_pos (by simp)] at h
      dsimp only at h
      rw [takeWhile_closing hclose, drop_closing] at h
      split at h
      · cases h
        exact ⟨[], .bracketed hclose [], .absent⟩
      next port =>
        cases hparse : Mirror.parsePort port with
        | error e => simp [hparse, Except.map] at h
        | ok m =>
          simp only [hparse, Except.map, Except.ok.injEq, Mirror.RuleParts.mk.injEq] at h
          obtain ⟨rfl, rfl, rfl⟩ := h
          exact ⟨_, .bracketed hclose _, (mirror_parsePort_iff port m).mp hparse⟩
      · cases h
    · rw [Mirror.splitRulePort, if_neg hclose] at h
      cases h
    · rw [mirror_splitRulePort_unbracketed hhead, if_pos hbrackets] at h
      cases h
    · rw [mirror_splitRulePort_unbracketed hhead, if_neg (by simp [hopen, hclose]),
        if_pos hcount] at h
      cases h
    · have hcount := not_one_lt_count hname
      rw [mirror_splitRulePort_unbracketed (head?_ne_of_name hname),
        if_neg (by simp [hname.opening, hname.closing]), if_neg hcount,
        rsplitOnce_none hname.colon] at h
      cases h
      refine ⟨[], ?_, .absent⟩
      have hcut := Cut.name hname (.inl (rfl : ([] : List Char) = []))
      rwa [List.append_nil] at hcut
    · have hhead := head?_ne_of_port hname hport.opening
      rw [mirror_splitRulePort_unbracketed hhead,
        if_neg (by simp [hname.opening, hname.closing, hport.opening, hport.closing]),
        if_neg (count_colon_le hname hport.colon), rsplitOnce_append hport.colon] at h
      dsimp only at h
      split at h
      · cases h
      next hne =>
        cases hparse : Mirror.parsePort port with
        | error e => simp [hparse, Except.map] at h
        | ok m =>
          simp only [hparse, Except.map, Except.ok.injEq, Mirror.RuleParts.mk.injEq] at h
          obtain ⟨rfl, rfl, rfl⟩ := h
          exact ⟨_, .name hname (.inr (by simpa using hne)), (mirror_parsePort_iff port m).mp hparse⟩
  · rintro ⟨port, hcut, hport⟩
    have hparse : ∀ rest m, port = ':' :: rest → n = some m → Mirror.parsePort rest = .ok m := by
      rintro rest m rfl rfl
      exact (mirror_parsePort_iff rest m).mpr hport
    cases hcut with
    | bracketed hclose =>
      rw [List.cons_append, Mirror.splitRulePort, if_pos (by simp)]
      dsimp only
      rw [takeWhile_closing hclose, drop_closing]
      cases hport with
      | absent => rfl
      | plain => simp only [hparse _ _ rfl rfl, Except.map]
    | name hname hhost =>
      rcases hport.cases_eq with ⟨rfl, -, rfl⟩ | ⟨rest, rfl, hcolon, hopen, hclose⟩
      · rw [List.append_nil, mirror_splitRulePort_unbracketed (head?_ne_of_name hname),
          if_neg (by simp [hname.opening, hname.closing]), rsplitOnce_none hname.colon,
          List.count_eq_zero.mpr hname.colon]
        rfl
      · have hne : host ≠ [] := by
          rcases hhost with h | h
          · cases h
          · exact h
        have hhead := head?_ne_of_port hname hopen
        rw [mirror_splitRulePort_unbracketed hhead,
          if_neg (by simp [hname.opening, hname.closing, hopen, hclose]),
          if_neg (count_colon_le hname hcolon), rsplitOnce_append hcolon]
        cases hport with
        | plain =>
          simp only [List.isEmpty_eq_false_iff.mpr hne, Bool.false_eq_true, if_false,
            hparse _ _ rfl rfl, Except.map]

/-! ## 5. Domains -/

/-- The characters of labels. -/
def isLabelChar (c : Char) : Bool := ('a' ≤ c && c ≤ 'z') || c.isDigit || c == '-'

theorem isLabelChar_ascii (h : isLabelChar c = true) : c.toNat < 0x80 := by
  unfold isLabelChar at h
  simp only [Bool.or_eq_true, Bool.and_eq_true, decide_eq_true_eq, beq_iff_eq] at h
  rcases h with (⟨-, h⟩ | h) | h
  · have : c.toNat ≤ 'z'.toNat := h
    exact Nat.lt_of_le_of_lt this (by decide)
  · exact Nat.lt_of_le_of_lt (Char.isDigit_iff_toNat.mp h).2 (by decide)
  · rw [h]
    decide

theorem encode_labelChars (h : s.all isLabelChar = true) : Utf8.encode s = s :=
  Utf8.encode_of_ascii fun c hc => isLabelChar_ascii (List.all_eq_true.mp h c hc)

/-- Both sides check labels in the same way. -/
theorem validDomain_iff (d : List Char) : ValidDomain d ↔
    (Utf8.encode d).length ≤ 253 ∧ (d.splitOn '.').all Mirror.validLabel = true := by
  have hlabel : ∀ label : List Char,
      (!label.isEmpty && decide ((Utf8.encode label).length ≤ 63) && decide (label.head? ≠ some '-') &&
        decide (label.getLast? ≠ some '-') && label.all isLabelChar) = Mirror.validLabel label := by
    intro label
    unfold Mirror.validLabel
    change _ = (!label.isEmpty && decide (label.length ≤ 63) && decide (label.head? ≠ some '-') &&
        decide (label.getLast? ≠ some '-') && label.all isLabelChar)
    cases hall : label.all isLabelChar with
    | false => simp
    | true => rw [encode_labelChars hall]
  have hlabels : ((d.splitOn '.').all fun label =>
      (!label.isEmpty && decide ((Utf8.encode label).length ≤ 63) && decide (label.head? ≠ some '-') &&
        decide (label.getLast? ≠ some '-') && label.all isLabelChar)) =
      (d.splitOn '.').all Mirror.validLabel :=
    congrArg (fun p => (d.splitOn '.').all p) (funext hlabel)
  unfold ValidDomain validateDomain
  split
  next hlong =>
    simp only [reduceCtorEq, false_iff, not_and]
    omega
  next hshort =>
    change (if (d.splitOn '.').all _ = true then _ else _) = _ ↔ _
    rw [← hlabels]
    split
    next hall => exact ⟨fun _ => ⟨by omega, hall⟩, fun _ => rfl⟩
    next hall => exact ⟨fun h => by simp at h, fun h => absurd h.2 hall⟩

theorem ValidDomain.chars (h : ValidDomain d) :
    ∀ c ∈ d, c = '.' ∨ isLabelChar c = true := by
  intro c hc
  have hjoin : ['.'].intercalate (d.splitOn '.') = d := List.intercalate_splitOn '.'
  rw [← hjoin] at hc
  rcases mem_intercalate hc with hdot | ⟨label, hlabel, hmem⟩
  · exact .inl hdot
  · have hvalid := List.all_eq_true.mp ((validDomain_iff d).mp h).2 label hlabel
    unfold Mirror.validLabel at hvalid
    simp only [Bool.and_eq_true] at hvalid
    exact .inr (List.all_eq_true.mp hvalid.2 c hmem)

theorem ValidDomain.colon (h : ValidDomain d) : ':' ∉ d := by
  intro hmem
  rcases h.chars ':' hmem with hc | hc
  · cases hc
  · exact absurd hc (by decide)

theorem ValidDomain.ne_nil (h : ValidDomain d) : d ≠ [] := by
  rintro rfl
  exact absurd h (by unfold ValidDomain; decide)

/-- A dot at the end leaves an empty label. -/
theorem ValidDomain.getLast?_ne (h : ValidDomain d) : d.getLast? ≠ some '.' := by
  intro hlast
  obtain ⟨s, rfl⟩ := List.getLast?_eq_some_iff.mp hlast
  have hlabels := ((validDomain_iff _).mp h).2
  rw [List.splitOn_append_cons_self, List.splitOn_nil, List.all_append] at hlabels
  simp [Mirror.validLabel] at hlabels

theorem octetText_chars (a : UInt8) : ∀ c ∈ octetText a, c.isDigit = true := by
  intro c hc
  exact Nat.isDigit_of_mem_toDigits (by decide) (by decide) hc

theorem validLabel_octetText (a : UInt8) : Mirror.validLabel (octetText a) = true := by
  have hchars := octetText_chars a
  have hlength := length_octetText a
  have hdash : '-' ∉ octetText a := fun h => absurd (hchars '-' h) (by decide)
  have hne : octetText a ≠ [] := Nat.toDigits_ne_nil
  have hhead : (octetText a).head? ≠ some '-' := fun h => hdash (List.mem_of_head? h)
  have hlast : (octetText a).getLast? ≠ some '-' := fun h => hdash (List.mem_of_getLast? h)
  have hall : (octetText a).all isLabelChar = true := by
    rw [List.all_eq_true]
    intro c hc
    simp [isLabelChar, hchars c hc]
  unfold Mirror.validLabel
  simp only [List.isEmpty_eq_false_iff.mpr hne, Bool.not_false, Bool.true_and, hhead, hlast,
    ne_eq, not_false_eq_true, decide_true, Bool.and_true, Bool.and_eq_true, decide_eq_true_eq]
  exact ⟨by omega, hall⟩

theorem validDomain_ipv4 (a : Ipv4Addr) : ValidDomain a.text := by
  have hlabels : ∀ l ∈ [octetText a.a, octetText a.b, octetText a.c, octetText a.d],
      ∃ x, l = octetText x := by
    intro l hl
    simp only [List.mem_cons, List.not_mem_nil, or_false] at hl
    rcases hl with rfl | rfl | rfl | rfl
    · exact ⟨_, rfl⟩
    · exact ⟨_, rfl⟩
    · exact ⟨_, rfl⟩
    · exact ⟨_, rfl⟩
  have hdots : ∀ l ∈ [octetText a.a, octetText a.b, octetText a.c, octetText a.d], '.' ∉ l := by
    intro l hl hdot
    obtain ⟨x, rfl⟩ := hlabels l hl
    exact absurd (octetText_chars x '.' hdot) (by decide)
  rw [validDomain_iff]
  constructor
  · have hascii : ∀ c ∈ a.text, c.toNat < 0x80 := by
      intro c hc
      rcases mem_intercalate hc with rfl | ⟨l, hl, hmem⟩
      · decide
      · obtain ⟨x, rfl⟩ := hlabels l hl
        have hdigit := Char.isDigit_iff_toNat.mp (octetText_chars x c hmem)
        exact Nat.lt_of_le_of_lt hdigit.2 (by decide)
    have ha := length_octetText a.a
    have hb := length_octetText a.b
    have hc := length_octetText a.c
    have hd := length_octetText a.d
    rw [Utf8.encode_of_ascii hascii, Ipv4Addr.text_eq]
    simp only [List.length_append, List.length_cons]
    omega
  · rw [Ipv4Addr.text, List.splitOn_intercalate '.' hdots (by simp), List.all_eq_true]
    intro l hl
    obtain ⟨x, rfl⟩ := hlabels l hl
    exact validLabel_octetText x

end Wasmsh.Network
